import Ipnx.Fd.Kernel
import Ipnx.Lib.System

/-!
# Processes that share channels

Any number of processes, with tables shared, copied or their own, make and let go of
channels and read and write them, as a transition system. `Kept` is what the last close
rests on: the last descriptor of a channel is not let go of while a read or write of the
channel is in progress.
-/

namespace Ipnx

/-- What a process in user code may call, and what it does when it has been told something. -/
inductive FdCall
  | sysopen (ch : Chan)
  | dupopen (fd : Fd)
  | syspipe
  | sysclose (fd : Fd)
  | sysdup (old new : Fd)
  | sysrfork (flags : Nat)
  | sysexec
  | pexit
  | procctl
  | syspread (fd : Fd) (n : Nat) (off : Int) (out : Outcome Octets)
  | syspwrite (fd : Fd) (data : Octets) (off : Int) (out : Outcome Nat)

inductive FdAct
  | call (up : Pid) (c : FdCall) (waits : List Bool)
  | resume (up : Pid) (read : Outcome Octets) (write : Outcome Nat) (waits : List Bool)
  /-- `kill` to a process's `ctl`. -/
  | kill (pid : Pid)
  | closeproc (up : Pid) (waits : List Bool)

namespace Descs

def dispatch (k : Descs) (up : Pid) (waits : List Bool) : FdCall → Descs × Except String Ret
  | .sysopen ch => k.sysopen up ch waits
  | .dupopen fd => k.dupopen up fd waits
  | .syspipe => k.syspipe up waits
  | .sysclose fd => k.sysclose up fd waits
  | .sysdup old new => k.sysdup up old new waits
  | .sysrfork flags => k.sysrfork up flags waits
  | .sysexec => k.sysexec up waits
  | .pexit => k.pexit up waits
  | .procctl => k.procctl up waits
  | .syspread fd n off out => k.syspread up fd n off out
  | .syspwrite fd data off out => k.syspwrite up fd data off out

def Running (k : Descs) (pid : Pid) : Prop :=
  k.label pid = none ∧ ∃ u, k.user pid = some u ∧ u.ended = false

instance (k : Descs) (pid : Pid) : Decidable (k.Running pid) :=
  match found : k.user pid with
  | none => .isFalse fun running => by simp [Running, found] at running
  | some u =>
      decidable_of_iff (k.label pid = none ∧ u.ended = false) (by simp [Running, found])

/-- The references to a channel that go when a process drops its table. -/
def only (k : Descs) (up : Pid) (c : Cell) : Nat :=
  match k.fgrp up with
  | some (t, f) => if k.sharers t ≤ 1 then f.refs c else 0
  | none => 0

/-- The descriptors of a channel that a call takes away. -/
def drops (k : Descs) (c : Cell) (up : Pid) : FdCall → Nat
  | .sysclose fd => tally (one c) (k.chancell up fd).toList
  | .sysdup old new =>
      if k.chancell up old = none ∨ k.chancell up old = some c then 0
      else tally (one c) (k.chancell up new).toList
  | .sysrfork flags =>
      if !Rf.has flags Rf.proc && Rf.has flags Rf.cfdg then k.only up c else 0
  | .sysexec =>
      match k.fgrp up with
      | some (_, f) => if (k.chans[c]?).any (·.ccexec) then f.refs c else 0
      | none => 0
  | .pexit | .procctl => k.only up c
  | _ => 0

/-- A channel that is being read or written keeps a descriptor. -/
def Kept (k : Descs) : FdAct → Prop
  | .call up call _ => ∀ c, 0 < k.calls c → k.drops c up call < k.slots c
  | _ => True

def boot : Descs where
  chans := []
  tabs := [.empty]
  users := [⟨some 0, false, false⟩]
  labels := .empty
  clunkq := []
  closes := []

def act (k : Descs) : FdAct → Option (Descs × Except String Ret)
  | .call up c waits => if k.Running up then some (k.dispatch up waits c) else none
  | .resume up read write waits => (k.label up).map fun l => k.resume up l read write waits
  | .kill pid => (k.user pid).map fun u => (k.setUser pid { u with exitme := true }, .ok .ok)
  | .closeproc up waits => if k.label up = none then some (k.closeproc up waits) else none

def sharing : System Descs FdAct where
  init k := k = boot
  step k a k' := ∃ r, k.act a = some (k', r)

/-- The device's close of a channel is made once, and when its last user has let go of it. -/
structure Once (k : Descs) (c : Cell) : Prop where
  inUse : 0 < k.slots c + k.calls c → k.owed c + k.closed c = 0
  letGo : k.slots c + k.calls c = 0 → k.owed c + k.closed c = 1
  quiet : k.labels.entries = [] → k.clunkq = [] → k.slots c = 0 → k.closed c = 1

end Descs

end Ipnx
