import Ipnx.Qio.Calls

/-!
# All that happens to one queue

A queue with the process table around it, as a transition system. Any process may read or
write, the queue may be hung up, closed and opened again, and the rest of the kernel goes on:
notes, timers, scheduling, other sleeps and locks. What each call answered, and what was
handed to the readers, is kept beside the state.

The kernel makes a call that left in the middle again when its process is entered again.
`Returns` says that it does so, and that no process exits in the middle of a call.
-/

namespace Ipnx

open Function (update)

inductive QCall
  | read (n : Nat)
  | write (data : Bytes) (failnote : Option String)
  deriving DecidableEq

/-- A queue, the call each process is in the middle of, and the history. -/
structure Traffic where
  io : Qio
  call : Pid → Option QCall
  /-- What each write was given, in the order they began. -/
  writes : List Bytes
  answers : Nat → Option (Except String Nat)
  /-- What the reads were handed, in the order they ended. -/
  reads : List Bytes

inductive QAct
  | read (pid : Pid) (n : Nat)
  | write (pid : Pid) (data : Bytes) (failnote : Option String)
  | hangup
  | close
  | reopen
  | table (a : Act)

namespace Traffic

def start (limit : Nat) (procs : Procs) : Traffic where
  io :=
    { q := .new limit
      mid := fun _ => none
      procs := procs
      holders := fun _ => []
      serial := fun _ => 0
      queued := [] }
  call _ := none
  writes := []
  answers _ := none
  reads := []

/-- What the reads were handed once one more answered. -/
def handed (reads : List Bytes) : Except String Bytes → List Bytes
  | .ok b => reads ++ [b]
  | .error _ => reads

def afterRead (s : Traffic) (pid : Pid) (n : Nat) (r : Except String Bytes × Qio) : Traffic :=
  if (r.2.mid pid).isSome then
    { s with io := r.2, call := update s.call pid (some (.read n)) }
  else
    { s with
      io := r.2
      call := update s.call pid none
      reads := handed s.reads r.1 }

def begun (s : Traffic) (pid : Pid) (data : Bytes) : Traffic :=
  if (s.io.mid pid).isSome then s
  else
    { s with
      io := { s.io with serial := update s.io.serial pid s.writes.length }
      writes := s.writes ++ [data] }

def afterWrite (s : Traffic) (pid : Pid) (data : Bytes) (failnote : Option String)
    (r : Except String Nat × Qio) : Traffic :=
  if (r.2.mid pid).isSome then
    { s with io := r.2, call := update s.call pid (some (.write data failnote)) }
  else
    { s with
      io := r.2
      call := update s.call pid none
      answers := update s.answers (s.io.serial pid) (some r.1) }

/-- `wakeup(&q->rr); wakeup(&q->wr);`, what a hangup and a close end with. -/
def wakeboth (d : Qio) (id : Qid3) : Qio := ((d.wakeup id .rd).2.wakeup id .wr).2

def step (id : Qid3) (s : Traffic) : QAct → Traffic
  | .read pid n => s.afterRead pid n (s.io.qread id pid n noKick)
  | .write pid data failnote =>
      let s := s.begun pid data
      s.afterWrite pid data failnote (s.io.qwrite id pid data failnote noKick)
  | .hangup => { s with io := wakeboth { s.io with q := s.io.q.hangup } id }
  | .close => { s with io := wakeboth { s.io with q := s.io.q.close } id }
  | .reopen => { s with io := { s.io with q := s.io.q.reopen } }
  | .table a => { s with io := { s.io with procs := s.io.procs.step a } }

/-- What the rest of the kernel does: it sleeps elsewhere, and hands over other locks. -/
def others (id : Qid3) (s : Traffic) : Scope where
  sorted := False
  sleeps r := ∀ side, r ≠ id.rendez side
  hands p := s.io.mid p = none
  exits _ := True

/-- What the kernel does, and whom it works for when a process reads, writes or exits. A
queue is opened again when no channel to it is left. -/
def Kernel (id : Qid3) (s : Traffic) : QAct → Prop
  | .read pid _ => s.io.procs.Entered pid
  | .write pid _ _ => s.io.procs.Entered pid
  | .reopen => ∀ p, s.io.mid p = none
  | .table a => Procs.Callers Procs.Entered s.io.procs a ∧ s.io.procs.Within (s.others id) a
  | _ => True

/-- A process that reads or writes is in no call, or comes back into the one it left. -/
def Resumes (s : Traffic) (pid : Pid) (call : QCall) : Prop :=
  s.io.procs.Active pid ∧ (s.io.mid pid = none ∨ s.call pid = some call)

/-- A process that left in the middle of a call comes back into it before it makes another,
and before it exits. -/
def Returns (id : Qid3) (s : Traffic) : QAct → Prop
  | .read pid n => s.Resumes pid (.read n)
  | .write pid data failnote => s.Resumes pid (.write data failnote)
  | .reopen => ∀ p, s.io.mid p = none
  | .table a => Procs.Callers Procs.Active s.io.procs a ∧
      s.io.procs.Within { s.others id with exits := fun p => s.io.mid p = none } a
  | _ => True

def system (id : Qid3) (limit : Nat) : System Traffic QAct where
  init s := ∃ procs, Procs.table.Reach (Procs.Callers Procs.Active) procs ∧
    (∀ side p, ¬procs.board.Asleep (id.rendez side) p) ∧ s = start limit procs
  step s a s' := s' = s.step id a

end Traffic

end Ipnx
