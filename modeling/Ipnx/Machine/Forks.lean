import Ipnx.Machine.Kernel
import Ipnx.Lib.System

/-!
# A fork handed over

What a machine owes the kernel for each child, whichever machine it is. The kernel makes the
child and readies it; the machine learns of it, takes the copy it will run, and lets it run.
-/

namespace Ipnx

/-- What has become of the processes the kernel made, as a machine tells it. -/
structure Forks where
  kern : Tasks
  /-- The machine can say what entering the process means. -/
  known : Pid → Bool
  /-- The kernel has made the child and its parent's stack is still unwinding. -/
  making : Pid → Bool
  /-- The children whose copy was taken, in order. -/
  born : List Pid
  /-- The children that were given up, in order. -/
  stillborn : List Pid
  /-- The processes whose code was entered, in order. -/
  ran : List Pid
  /-- Why the system ended, if a process could not be entered. -/
  failed : Option String

def firstPid : Pid := 1

namespace Forks

def Live (v : Forks) (pid : Pid) : Prop := ∃ t, v.kern.tab pid = some t ∧ t.ended = false

def Child (v : Forks) (pid : Pid) : Prop := pid ≠ firstPid ∧ (v.kern.tab pid).isSome

/-- Each fork is handed over: no process is unknown to the machine, no child is left in the
making, each is made or given up once, and none runs before it is made. -/
structure Handed (v : Forks) : Prop where
  sound : v.failed = none
  known : ∀ pid, v.Live pid → v.known pid = true
  raised : ∀ pid, v.making pid = true → ∃ t, v.kern.tab pid = some t ∧ v.Live t.ppid
  once : ∀ pid, v.Child pid →
    v.born.count pid + v.stillborn.count pid + (if v.making pid then 1 else 0) = 1
  copied : ∀ pid, pid ∈ v.ran → v.Child pid → pid ∈ v.born

end Forks

theorem count_snoc (l : List Pid) (a q : Pid) :
    (l ++ [a]).count q = l.count q + if q = a then 1 else 0 := by
  rw [List.count_append, List.count_singleton]
  by_cases same : q = a
  · simp [same]
  · simp [same, Ne.symm same]

def Tasks.boot : Tasks where
  tab pid := if pid = firstPid then
    some ⟨0, none, .other, false, false, none, false⟩ else none
  next := firstPid + 1

end Ipnx
