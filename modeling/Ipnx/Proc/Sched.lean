import Ipnx.Lib.Queues
import Ipnx.Proc.Table

/-!
# The scheduler

`queueproc` to `sched` and the clock tick of `kernel/src/proc.rs`: who is runnable and who
runs next. The switch itself is the machine's.
-/

namespace Ipnx

namespace Procs

/-- `queueproc`: onto the tail of its priority's queue. -/
def queueproc (s : Procs) (pri : Nat) (pid : Pid) : Procs :=
  { s.modify pid (fun p => { p with priority := pri }) with
    runq := Queues.push s.runq pri pid
    nrdy := s.nrdy + 1 }

/-- `dequeueproc`: take a named process off a queue, if it is there. -/
def dequeueproc (s : Procs) (pri : Nat) (pid : Pid) : Bool × Procs :=
  if pid ∈ s.runq pri then
    (true, { s with runq := Queues.take s.runq pri pid, nrdy := s.nrdy - 1 })
  else (false, s)

/-- What `updatecpu` does to the process itself, at a number of ticks. -/
def updatecpuAt (ticks : Nat) (running : Bool) (p : Proc) : Proc :=
  let d := schedgain * hz * scaling
  let t := (ticks * scaling + scaling / 2) % 2 ^ 32
  let n := min (t - p.lastupdate % 2 ^ 32) d
  if n = 0 then { p with lastupdate := t }
  else if running then
    { p with lastupdate := t, cpu := 1000 - ((1000 - p.cpu) * (d - n)) / d }
  else { p with lastupdate := t, cpu := (p.cpu * (d - n)) / d }

/-- `updatecpu`: the decaying average of how much processor a process has had. -/
def updatecpu (s : Procs) (pid : Pid) (running : Bool) : Procs :=
  s.modify pid (updatecpuAt s.m.ticks running)

def reprioritize (s : Procs) (pid : Pid) : Nat :=
  match s.tab pid with
  | none => Pri.normal
  | some p =>
      if s.m.load = 0 then p.basepri
      else
        let fairshare := (1000 * 1000) / s.m.load
        let n := max p.cpu 1
        min ((fairshare + n / 2) / n) p.basepri

/-- `m->readied = p`, unless a process readies itself on its way out. -/
def claim (s : Procs) (pid : Pid) : Procs :=
  if s.up = some pid then s else { s with m := { s.m with readied := some pid } }

/-- `ready`: put a process on the run queue. -/
def ready (s : Procs) (pid : Pid) : Procs :=
  let s := (s.claim pid).updatecpu pid (s.up == some pid)
  (s.setstate pid .ready).queueproc (s.reprioritize pid) pid

/-- The highest non-empty queue below `n`, and its first process. -/
def highest (s : Procs) : Nat → Option (Nat × Pid)
  | 0 => none
  | n + 1 =>
      match (s.runq n).head? with
      | some pid => some (n, pid)
      | none => s.highest n

/-- `runproc`'s first branch: the process `ready` just queued comes before all others,
if it is `Ready` and the two edf queues are empty. -/
def takereadied (s : Procs) : Option (Pid × Procs) :=
  if (s.runq (Pri.nrq - 1)).isEmpty && (s.runq (Pri.nrq - 2)).isEmpty then
    match s.m.readied with
    | none => none
    | some pid =>
        match s.tab pid with
        | none => none
        | some p =>
            if p.state = .ready ∧ (s.dequeueproc p.priority pid).1 then
              some (pid, (s.dequeueproc p.priority pid).2)
            else none
  else none

/-- `runproc`'s second: the first process of the highest queue. -/
def takehighest (s : Procs) : Option (Pid × Procs) :=
  (s.highest Pri.nrq).map fun (pri, pid) => (pid, (s.dequeueproc pri pid).2)

/-- `runproc`: who runs next. -/
def runproc (s : Procs) : Option (Pid × Procs) :=
  (s.takereadied.or s.takehighest).map fun (pid, s) => (pid, s.setstate pid .scheding)

/-- What `sched` does with the process `runproc` gave it. -/
def enter (s : Procs) (pid : Pid) : Procs :=
  let s := s.updatecpu pid (s.up == some pid)
  let s := s.modify pid fun p => { p with priority := s.reprioritize pid }
  let m :=
    if s.m.readied = some pid then s.m else { s.m with schedticks := s.m.ticks + hz / 10 }
  let s := { s with m := { m with readied := none }, up := some pid }
  s.setstate pid .running

/-- `sched` after the switch: pick the next process and make it `up`. -/
def sched (s : Procs) : Option (Pid × Procs) :=
  s.runproc.map fun (pid, s) => (pid, s.enter pid)

def anyready (s : Procs) : Bool := 0 < s.nrdy

/-- `anyhigher`: whether anything is ready above `up`'s priority. -/
def anyhigher (s : Procs) (up : Pid) : Bool :=
  let pri := ((s.tab up).map (·.priority)).getD 0
  (List.range Pri.nrq).any fun q => pri < q && !(s.runq q).isEmpty

@[simp]
theorem updatecpu_runq (s : Procs) (pid : Pid) (running : Bool) :
    (s.updatecpu pid running).runq = s.runq := rfl

theorem length_move (s : Procs) {pri npri : Nat} {pid : Pid} {rest : List Pid}
    (first : s.runq pri = pid :: rest) (differs : npri ≠ pri) :
    (((s.dequeueproc pri pid).2.queueproc npri pid).runq pri).length = rest.length := by
  simp [queueproc, dequeueproc, first, Queues.push_of_ne differs.symm, Queues.take]

/-- `rebalance`'s loop over the head of one queue, until it belongs there. -/
def another (s : Procs) (pri : Nat) : Procs :=
  match _first : s.runq pri with
  | [] => s
  | pid :: _ =>
      if (s.tab pid).any (·.basepri == pri) then s
      else
        let t := s.updatecpu pid (s.up == some pid)
        let npri := t.reprioritize pid
        if _same : npri = pri then t
        -- the head of a queue is on it, so `dequeueproc` does not fail here
        else ((t.dequeueproc pri pid).2.queueproc npri pid).another pri
termination_by (s.runq pri).length
decreasing_by
  rw [length_move _ (by simpa [t] using _first) _same]
  simp [_first]

/-- `rebalance`: recalculate priorities once a second. The ticks are 64 bits, and so is how many
have passed. -/
def rebalance (s : Procs) : Procs :=
  let t := s.m.ticks
  if (2 ^ 64 + t - s.m.balancetime) % 2 ^ 64 < hz then s
  else (List.range Pri.npriq).foldl another { s with m := { s.m with balancetime := t } }

/-- `hzsched`: at each tick, whether to reschedule. -/
def hzsched (s : Procs) (up : Pid) : Procs :=
  let s := s.rebalance
  let fixedpri := (s.tab up).any (·.fixedpri)
  if s.anyhigher up || (!fixedpri && s.m.schedticks < s.m.ticks && s.anyready) then
    { s with m := { s.m with readied := none } }.modify up fun p =>
      { p with delaysched := p.delaysched + 1 }
  else s

/-- The tick charged to the process that is `up`. -/
def charge (s : Procs) : Procs :=
  match s.up with
  | none => s
  | some up =>
      { s with m := { s.m with nrun := s.m.nrun + 1 } }.modify up fun p =>
        if p.insyscall then { p with time := { p.time with tsys := p.time.tsys + 1 } }
        else { p with time := { p.time with tuser := p.time.tuser + 1 } }

/-- The decaying averages of one tick: the duty cycles and the load. -/
def decay (m : Mach) (nrdy now : Nat) : Mach :=
  let perf := m.perf
  let per := (perf.period * (hz - 1) + (now - perf.last)) / hz
  { m with
    perf :=
      { perf with
        last := now
        period := if per = 0 then perf.period else per
        avgInidle := (perf.avgInidle * (hz - 1) + perf.inidle) / hz
        inidle := 0
        avgInintr := (perf.avgInintr * (hz - 1) + perf.inintr) / hz
        inintr := 0 }
    nrun := 0
    load := (m.load * (hz - 1) + (nrdy + m.nrun) * 1000) / hz }

def accounttime (s : Procs) (now : Nat) : Procs :=
  let s := s.charge
  { s with m := decay s.m s.nrdy now }

end Procs

end Ipnx
