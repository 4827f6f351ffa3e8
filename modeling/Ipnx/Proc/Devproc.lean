import Ipnx.Proc.Sleep
import Ipnx.Lib.System

/-!
# Stopping and tracing

What `/proc/n/ctl` does to stop a process and to wait for it, of `kernel/src/devproc.rs`, and
`Kernel::procctl`, in which the process stops itself on its way out of the kernel. The other
control messages change fields that none of this reads; they are edits of the table.
-/

namespace Ipnx

def eprocdied : String := "process exited"

def einuse : String := "device or object already in use"

def ebadctl : String := "bad process or channel control request"

/-- The control messages that stop, start or end a process. -/
inductive Cm
  | stop | waitstop | start | startstop | startsyscall | kill
  deriving DecidableEq, Repr

/-- `#p`, with the table and the host owner it shares with the kernel. -/
structure ProcDev where
  procs : Procs
  /-- Each process asleep in `procstopwait`, and the process it waits for to stop. -/
  stopwait : Pid → Option Pid
  eve : String

/-- `*"p->psstate = 0; p->procctl = …"*`, as a process is started. -/
def Proc.started (ctl : Option Procctl) (p : Proc) : Proc :=
  { p with psstate := none, procctl := ctl <|> p.procctl }

def Proc.debuggedBy (pdbg : Option Pid) (p : Proc) : Proc := { p with pdbg := pdbg }

/-- `p->procctl`, if there is something to ask. -/
def Proc.asked (ctl : Option Procctl) (p : Proc) : Proc :=
  { p with procctl := ctl <|> p.procctl }

def Proc.psstated (text : String) (p : Proc) : Proc := { p with psstate := some text }

namespace ProcDev

def user (w : ProcDev) (me : Pid) : String := ((w.procs.tab me).map (·.user)).getD ""

/-- `nonone`: a process running as `none` cannot write another process's state. -/
def nonone (w : ProcDev) (me target : Pid) : Bool :=
  target == me || w.user me != "none" || w.user me == w.eve

/-- `procstopwait`: wait for `p` to stop, asking it to with `ctl`, or not. `true` is that it
has, `false` that the caller is asleep and the write is not over. -/
def procstopwait (w : ProcDev) (me p : Pid) (ctl : Option Procctl) :
    Except String Bool × ProcDev :=
  match w.procs.tab p with
  | none => (.error eprocdied, w)
  | some target =>
      if target.pdbg.isSome then (.error einuse, w)
      else if target.state = .stopped ∨ target.state = .broken then (.ok true, w)
      else
        let procs := w.procs.modify p fun t => (t.asked ctl).debuggedBy (some me)
        let procs := procs.modify me (Proc.psstated "Stopwait")
        match procs.sleep me (.proc me .sleep) false with
        | (true, procs) =>
            (.ok false, { w with procs, stopwait := Function.update w.stopwait me (some p) })
        | (false, procs) =>
            let procs := (procs.interrupted me).2
            (.error eintr, { w with procs := procs.modify p (Proc.debuggedBy none) })

/-- The end of `procstopwait`, for a writer woken there: a note ends it with `Eintr`;
otherwise the process it waited for has stopped, or gone. -/
def stopwaited (w : ProcDev) (me target : Pid) (n : Nat) : Except String Nat × ProcDev :=
  let w := { w with stopwait := Function.update w.stopwait me none }
  let (noted, procs) := w.procs.interrupted me
  if noted then
    (.error eintr, { w with procs := procs.modify target (Proc.debuggedBy none) })
  else
    match procs.tab target with
    | none => (.error eprocdied, { w with procs })
    | some _ => (.ok n, { w with procs })

/-- `CMkill`: the process ends itself, in `procctl`. A `Broken` one is let go, and a
`Stopped` one is started first. -/
def kill (w : ProcDev) (pid : Pid) (n : Nat) : Except String Nat × ProcDev :=
  match w.procs.tab pid with
  | none => (.error eprocdied, w)
  | some p =>
      if p.state = .broken then (.ok n, { w with procs := w.procs.unbreak pid })
      else
        let procs := w.procs.modify pid (Proc.asked (some .exitme))
        let procs := (procs.postnote pid "sys: killed" .nexit).2
        (.ok n, { w with procs := if p.state = .stopped then procs.ready pid else procs })

/-- A `Stopped` process is started, and asked something, or not. -/
def restart (w : ProcDev) (pid : Pid) (ctl : Option Procctl) : Except String Unit × ProcDev :=
  match w.procs.tab pid with
  | none => (.error eprocdied, w)
  | some p =>
      if p.state ≠ .stopped then (.error ebadctl, w)
      else (.ok (), { w with procs := (w.procs.modify pid (Proc.started ctl)).ready pid })

/-- `procstopwait` as the end of a write: 0 is written by one that is asleep. -/
def waitfor (w : ProcDev) (me pid : Pid) (ctl : Option Procctl) (n : Nat) :
    Except String Nat × ProcDev :=
  let (finished, w) := w.procstopwait me pid ctl
  (finished.map fun stopped => if stopped then n else 0, w)

def procctlreq (w : ProcDev) (me pid : Pid) (cm : Cm) (n : Nat) : Except String Nat × ProcDev :=
  match cm with
  | .kill => w.kill pid n
  | .start =>
      let (started, w) := w.restart pid none
      (started.map fun _ => n, w)
  | .stop => w.waitfor me pid (some .stopme) n
  | .waitstop => w.waitfor me pid none n
  | .startstop | .startsyscall =>
      let ctl := if cm = .startstop then Procctl.traceme else Procctl.tracesyscall
      match w.restart pid (some ctl) with
      | (.error e, w) => (.error e, w)
      | (.ok (), w) => w.waitfor me pid (some ctl) n

/-- `procwrite` of a control message of `n` bytes by `me`, to process `pid`'s `ctl`. A writer
that slept comes back here, and its write carries on. -/
def write (w : ProcDev) (me pid : Pid) (cm : Cm) (n : Nat) : Except String Nat × ProcDev :=
  if pid = 0 then (.error "permission denied", w)
  else if !w.nonone me pid then (.error "permission denied", w)
  else if (w.procs.tab pid).any (·.kp) then (.error "permission denied", w)
  else
    match w.stopwait me with
    | some target => w.stopwaited me target n
    | none => w.procctlreq me pid cm n

end ProcDev

namespace Procs

/-- What `procctl` makes of what it was asked: the process ends, or gives way, stopped. -/
inductive Notify
  | pexit | sched
  deriving DecidableEq, Repr

/-- `Kernel::procctl`: do what `p->procctl` asks. `none` is that it was asked nothing this
can do now. `pexit`'s closes are not the table's. -/
def procctl (s : Procs) (up : Pid) : Option Notify × Procs :=
  match s.tab up with
  | none => (none, s)
  | some p =>
      match p.procctl with
      | some .exitme =>
          (some .pexit, (s.modify up fun p => { p with procctl := none }).exits up "Killed")
      | some .traceme => if p.note.isEmpty then (none, s) else (some .sched, s.stop up)
      | some .stopme => (some .sched, s.stop up)
      | some .tracesyscall | none => (none, s)

end Procs

end Ipnx
