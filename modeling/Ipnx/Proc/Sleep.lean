import Ipnx.Proc.Sched

/-!
# Sleep, wakeup, notes and the life of a process

The rest of the table's operations: `sleep` and the ways a sleep ends (`wakeup`, a note, a
timer), `qlock`, `rendezvous`, making and ending processes, what `/proc/n/ctl` asks, and
the head of `schedinit`'s loop.
-/

namespace Ipnx

/-- `struct QLock`: a lock held across a sleep, and who waits for it. -/
structure QLock where
  locked : Bool := false
  q : List Pid := []
  deriving DecidableEq, Repr

/-- A sleep committed to at the process's end. -/
def Proc.sleepat (r : Rid) (p : Proc) : Proc := { p with state := .wakeme, r := some r }

def Proc.settimer (trend : Option Rid) (twhen : Option Nat) (p : Proc) : Proc :=
  { p with trend := trend, twhen := twhen }

def Proc.untimed (p : Proc) : Proc := { p with trend := none }

/-- A sleep undone at the process's end: no `Rendez`, no timer. -/
def Proc.unslept (p : Proc) : Proc := { p with r := none, trend := none, twhen := none }

def Proc.addnote (msg : String) (flag : NoteFlag) (p : Proc) : Proc :=
  let note := if flag ≠ .nuser ∧ (p.notify = 0 ∨ p.notified) then [] else p.note
  { p with
    note := if note.length < nnote then note ++ [⟨floor msg (errmax - 1), flag⟩] else note
    notepending := true }

def Proc.hasroom (flag : NoteFlag) (p : Proc) : Bool :=
  (flag ≠ .nuser ∧ (p.notify = 0 ∨ p.notified)) ∨ p.note.length < nnote

/-- The times and the wait record of a process that exits. -/
def Proc.ended (ticks : Nat) (status : String) (p : Proc) : Proc :=
  let msg := if status.isEmpty then "" else p.text ++ " " ++ toString p.pid ++ ": " ++ status
  { p with
    status := some (floor msg (errmax - 1))
    wait := (tk2ms (p.time.tuser + p.time.tcuser), tk2ms (p.time.tsys + p.time.tcsys),
      tk2ms (ticks - p.time.treal)) }

def Proc.addchild (child p : Proc) : Proc :=
  { p with
    time :=
      { p.time with
        tcuser := p.time.tcuser + (child.time.tuser + child.time.tcuser)
        tcsys := p.time.tcsys + (child.time.tsys + child.time.tcsys) } }

/-- What `Kernel::procctl` does to the process that stops. -/
def Proc.stopped (p : Proc) : Proc :=
  { p with procctl := none, psstate := some "Stopped", pdbg := none, state := .stopped }

namespace Procs

/-- *"double sleep"*, counted when somebody else is on the `Rendez`. -/
def countsleep (s : Procs) (pid : Pid) (r : Rid) : Procs :=
  if (s.rendez r).any (· != pid) then { s with doublesleep := s.doublesleep + 1 } else s

/-- `sleep`, up to the switch. `true` is that the caller must now leave. -/
def sleep (s : Procs) (pid : Pid) (r : Rid) (happened : Bool) : Bool × Procs :=
  let s := s.countsleep pid r
  if happened || (s.tab pid).any (·.notepending) then (false, s.setRendez r none)
  else
    let s := s.setRendez r (some pid)
    let s := s.modify pid (Proc.sleepat r)
    (true, s.setlabel pid)

/-- `wakeup`: ready whoever sleeps there, and answer who it was. -/
def wakeup (s : Procs) (r : Rid) : Option Pid × Procs :=
  match s.rendez r with
  | none => (none, s)
  | some pid =>
      if (s.tab pid).any fun p => p.state == .wakeme && p.r == some r then
        (some pid, ((s.setRendez r none).modify pid Proc.unslept).ready pid)
      else (none, s)

/-- `tsleep`: `sleep`, with a timer that will wake. -/
def tsleep (s : Procs) (pid : Pid) (r : Rid) (happened : Bool) (deadline : Nat) :
    Bool × Procs :=
  let (slept, s) :=
    (s.modify pid (Proc.settimer (some r) (some deadline))).sleep pid r happened
  (slept, if slept then s else s.modify pid (Proc.settimer none none))

def leavergrp (s : Procs) (g : Nat) (pid : Pid) : Procs :=
  { s with rgrps := Function.update s.rgrps g ((s.rgrps g).filter (· != pid)) }

/-- `postnote`: give a process a note, and wake it if it is asleep or in a rendezvous. -/
def postnote (s : Procs) (pid : Pid) (msg : String) (flag : NoteFlag) : Bool × Procs :=
  match s.tab pid with
  | none => (false, s)
  | some p =>
      let s := s.modify pid (Proc.addnote msg flag)
      (p.hasroom flag,
        match p.state, p.r with
        | .wakeme, some r => ((s.modify pid Proc.unslept).setRendez r none).ready pid
        | .rendezvous, _ =>
            ((s.modify pid fun p => { p with rendval := 2 ^ 64 - 1 }).leavergrp p.rgrp
              pid).ready pid
        | _, _ => s)

/-- `pgrpnote`: a note to every process of a note group but the caller. -/
def pgrpnote (s : Procs) (order : List Pid) (up : Pid) (noteid : Nat) (msg : String)
    (flag : NoteFlag) : Procs :=
  let group := order.filter fun pid =>
    (s.tab pid).any fun p =>
      pid != up && p.noteid == noteid && !p.kp && p.state != .dead
  group.foldl (fun s pid => (s.postnote pid msg flag).2) s

/-- The oldest `Broken` process let go to die, when there would be more than `NBROKEN`. -/
def letgo (s : Procs) : Procs :=
  match s.broken with
  | old :: rest =>
      if s.broken.length = nbroken then { s.setstate old .dead with broken := rest } else s
  | [] => s

/-- `addbroken`: keep a process a fault ended. -/
def addbroken (s : Procs) (pid : Pid) : Procs :=
  let s := s.letgo
  { s with broken := s.broken ++ [pid] }.modify pid fun p =>
    { p with state := .broken, psstate := none }

/-- `unbreak`: let a `Broken` process finish dying. -/
def unbreak (s : Procs) (pid : Pid) : Procs :=
  if pid ∈ s.broken then { s.setstate pid .dead with broken := s.broken.erase pid } else s

def procpriority (s : Procs) (pid : Pid) (pri : Nat) (fixed : Bool) : Procs :=
  let pri := min pri (Pri.npriq - 1)
  s.modify pid fun p => { p with basepri := pri, priority := pri, fixedpri := fixed }

/-- `checkalarms`: wake `alarmkproc` if the first alarm is due. -/
def checkalarms (s : Procs) : Procs :=
  if (s.alarms.head?.bind s.tab).any (·.alarm ≤ s.m.ticks) then (s.wakeup .alarmr).2 else s

/-- `hzclock`, the clock tick. -/
def hzclock (s : Procs) (now : Nat) : Procs :=
  let s := { s with m := { s.m with ticks := s.m.ticks + 1 } }
  let s := (s.accounttime now).checkalarms
  match s.up with
  | some up => if s.state up = .running then s.hzsched up else s
  | none => s

/-- `twakeup`, a `tsleep`'s timer firing. -/
def twakeup (s : Procs) (pid : Pid) : Procs :=
  match (s.tab pid).bind (·.trend) with
  | some trend => ((s.modify pid Proc.untimed).wakeup trend).2
  | none => s

/-- When a periodic timer that was due next fires, in 64 bits. -/
def rearm (period due now : Nat) : Nat := (due + ((now - due) / period + 1) * period) % 2 ^ 64

/-- The profiling clock, put back if it was due. The profile it charges is a text
segment's. -/
def profintr (s : Procs) (now : Nat) : Procs :=
  match s.profclock with
  | some due =>
      if due ≤ now then { s with profclock := some (rearm (profms * 1000000) due now) } else s
  | none => s

/-- The sleepers whose timers are due, in the order the table is walked. -/
def due (s : Procs) (order : List Pid) (now : Nat) : List Pid :=
  order.filter fun pid => (s.tab pid).any fun p => p.state == .wakeme && p.twhen.any (· ≤ now)

/-- The HZ clock, put back and ticked if it was due. -/
def hzintr (s : Procs) (now : Nat) : Procs :=
  match s.m.hz with
  | some due =>
      if due ≤ now then
        { s with m := { s.m with hz := some (rearm (1000000000 / hz) due now) } }.hzclock now
      else s
  | none => s

/-- `timerintr`: fire the timers that are due, and tick if one was the HZ clock. -/
def timerintr (s : Procs) (order : List Pid) (now : Nat) : Procs :=
  let s := s.profintr now
  ((s.due order now).foldl twakeup s).hzintr now

/-- `qlock`: `true` is holding it, `false` is `Queueing` on it. -/
def qlock (s : Procs) (l : QLock) (pid : Pid) : Bool × QLock × Procs :=
  if l.locked then
    (false, { l with q := l.q ++ [pid] }, (s.setstate pid .queueing).setlabel pid)
  else (true, { l with locked := true }, s)

/-- `qunlock`: hand the lock to the first waiting, or unlock. -/
def qunlock (s : Procs) (l : QLock) : QLock × Procs :=
  match l.q with
  | pid :: rest => ({ l with q := rest }, s.ready pid)
  | [] => ({ l with locked := false }, s)

/-- Off the run queue, and no longer the one `runproc` takes first: a child can be readied
and end before the scheduler ever enters it. -/
def unready (s : Procs) (pid : Pid) (p : Proc) : Procs :=
  let s := if p.state = .ready then (s.dequeueproc p.priority pid).2 else s
  if s.m.readied = some pid then { s with m := { s.m with readied := none } } else s

/-- `exits`: the wait record, the process off the run queue and `Moribund`, its parent
woken. -/
def exits (s : Procs) (pid : Pid) (status : String) : Procs :=
  match s.tab pid with
  | none => s
  | some p =>
      let s := s.modify pid (Proc.ended s.m.ticks status)
      let s := s.modify p.ppid (Proc.addchild p)
      let s := (s.unready pid p).setstate pid .moribund
      (s.wakeup (.proc p.ppid .waitr)).2

def rforkcheck (flags : Nat) : Except String Unit :=
  let both (a b : Nat) : Bool := Rf.has flags a && Rf.has flags b
  if both Rf.fdg Rf.cfdg || both Rf.nameg Rf.cnameg || both Rf.envg Rf.cenvg then
    .error ebadarg
  else if !Rf.has flags Rf.proc && Rf.has flags (Rf.mem ||| Rf.nowait) then .error ebadarg
  else .ok ()

def child (s : Procs) (pid : Pid) (parent : Proc) (flags : Nat) : Proc where
  pid := s.next
  ppid := pid
  user := parent.user
  time := { treal := s.m.ticks }
  text := parent.text
  fixedpri := parent.fixedpri
  note := parent.note
  notify := parent.notify
  noteid := if Rf.has flags Rf.noteg then s.noteidalloc + 1 else parent.noteid
  procctl := parent.procctl.filter (· == .tracesyscall)
  rgrp := if Rf.has flags Rf.rend then s.nextrgrp else parent.rgrp
  hang := parent.hang
  waited := Rf.has flags Rf.nowait
  state := .scheding
  priority := parent.basepri
  basepri := parent.basepri
  lastupdate := s.m.ticks * scaling

def newrgrp (s : Procs) (pid : Pid) : Procs :=
  { s with nextrgrp := s.nextrgrp + 1 }.modify pid fun p => { p with rgrp := s.nextrgrp }

def newnoteid (s : Procs) (pid : Pid) : Procs :=
  { s with noteidalloc := s.noteidalloc + 1 }.modify pid fun p =>
    { p with noteid := s.noteidalloc + 1 }

/-- `rforkself`, as far as it concerns the table. -/
def rforkself (s : Procs) (pid : Pid) (flags : Nat) : Procs :=
  let s := if Rf.has flags Rf.rend then s.newrgrp pid else s
  if Rf.has flags Rf.noteg then s.newnoteid pid else s

/-- `sysrfork`: a new process, `Scheding`, or the caller's own groups replaced. -/
def sysrfork (s : Procs) (pid : Pid) (flags : Nat) : Except String (Option Pid × Procs) := do
  rforkcheck flags
  match s.tab pid with
  | none => throw "no such process"
  | some parent =>
      if Rf.has flags Rf.proc then
        let made := s.insert s.next (s.child pid parent flags)
        return (some s.next,
          { made with
            next := s.next + 1
            noteidalloc := s.noteidalloc + 1
            nextrgrp := s.nextrgrp + 1 })
      else return (none, s.rforkself pid flags)

/-- The process `kproc` makes, before its priority is set. -/
def kchild (s : Procs) (up : Pid) (name user : String) : Proc :=
  let p := (s.tab up).getD (Proc.root s.next)
  { p with
    pid := s.next
    ppid := 0
    kp := true
    text := name
    user := user
    time := { treal := s.m.ticks }
    status := none
    waited := true
    state := .scheding
    r := none
    trend := none
    twhen := none
    sleep := none
    waitr := none
    cpu := 0
    lastupdate := s.m.ticks * scaling
    delaysched := 0
    insyscall := false
    setlabel := false
    notified := false
    notepending := false
    noteid := s.noteidalloc + 1
    procctl := none
    alarm := 0
    rgrp := s.nextrgrp
    pdbg := none
    psstate := none }

/-- `kproc`: a process whose body is kernel code, made and readied. -/
def kproc (s : Procs) (up : Pid) (name user : String) : Pid × Procs :=
  let made :=
    { s.insert s.next (s.kchild up name user) with
      next := s.next + 1
      noteidalloc := s.noteidalloc + 1
      nextrgrp := s.nextrgrp + 1 }
  (s.next, (made.procpriority s.next Pri.kproc false).ready s.next)

/-- `await_child`: take a wait record, and the exited child out of the table. -/
def awaitChild (s : Procs) (order : List Pid) (pid : Pid) : Option Pid × Procs :=
  let record (c : Pid) : Bool :=
    (s.tab c).any fun p => p.ppid == pid && !p.waited && p.status.isSome
  match order.find? record with
  | some c => (some c, { s with tab := Function.update s.tab c none })
  | none => (none, s)

/-- A process that waits on the tag is met: it gets the value and is readied. -/
def meet (s : Procs) (g : Nat) (q : Pid) (val : Nat) : Procs :=
  let s := { s with rgrps := Function.update s.rgrps g ((s.rgrps g).erase q) }
  (s.modify q fun p => { p with rendval := val }).ready q

def gather (s : Procs) (g : Nat) (up : Pid) (tag val : Nat) : Procs :=
  let s := s.modify up fun p => { p with rendtag := tag, rendval := val, state := .rendezvous }
  { s with rgrps := Function.update s.rgrps g (s.rgrps g ++ [up]) }.setlabel up

/-- `sysrendezvous`: meet a process that waits on the tag, or wait to be met. -/
def rendezvous (s : Procs) (up : Pid) (tag val : Nat) : Procs :=
  match s.tab up with
  | none => s
  | some me =>
      let s := s.modify up fun p => { p with rendval := 2 ^ 64 - 1 }
      match (s.rgrps me.rgrp).find? fun q => (s.tab q).any (·.rendtag == tag) with
      | some q => s.meet me.rgrp q val
      | none => s.gather me.rgrp up tag val

/-- `Kernel::procctl`'s stop: `Stopped`, and the debugger woken. -/
def stop (s : Procs) (up : Pid) : Procs :=
  match s.tab up with
  | none => s
  | some p =>
      let s := s.modify up Proc.stopped
      let s :=
        match p.pdbg with
        | some d => (s.wakeup (.proc d .sleep)).2
        | none => s
      s.setlabel up

/-- `exec`'s change of priority: a program from `#/` runs at `PriRoot`. -/
def execpri (s : Procs) (pid : Pid) (root : Bool) : Procs :=
  s.modify pid fun p =>
    let basepri := if root then Pri.root else p.basepri
    { p with basepri := basepri, priority := basepri }

/-- How a process left the processor: its image ended, or it gave way. -/
inductive Left
  | exited | sched
  deriving DecidableEq, Repr

/-- `schedinit`'s switch on the state of the process that left. A process whose image ended
has been through `exits` by then. -/
def leave (s : Procs) (pid : Pid) (how : Left) : Procs :=
  let s := { s with m := { s.m with cs := s.m.cs + 1 } }.modify pid fun p =>
    { p with delaysched := 0 }
  match how, s.state pid with
  | .exited, .broken => s
  | .exited, _ => s.setstate pid .dead
  | .sched, .running => s.ready pid
  | .sched, .moribund => s.setstate pid .dead
  | .sched, _ => s

def putup (s : Procs) : Procs :=
  match s.up with
  | some up => { s with up := none }.updatecpu up true
  | none => s

end Procs

end Ipnx
