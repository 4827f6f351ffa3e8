import Mathlib.Algebra.Group.Nat.Defs
import Mathlib.Logic.Function.Basic

/-!
# The process table

The data of `kernel/src/proc.rs`: process states, notes, `Rendez` and where each lives,
processes, the processor, and the table that holds them with its run queues.

A `HashMap` is a function to `Option`. Where the source walks the values of one, in no
stated order, the walk takes the order as an argument. The descriptor table, the name
space, the environment and the memory a process holds are not part of this table's work
and are left out here; so is the profile of its text segment, which nothing below reads.
-/

namespace Ipnx

abbrev Pid := Nat

/-- `ERRMAX`, the most bytes of an error string. -/
def errmax : Nat := 128

def eintr : String := "interrupted"

def ebadarg : String := "bad arg in system call"

/-- The longest prefix that fits in a number of bytes and ends on a character. -/
def floorChars : Nat → List Char → List Char
  | _, [] => []
  | n, c :: rest => if c.utf8Size ≤ n then c :: floorChars (n - c.utf8Size) rest else []

/-- `floor`, as the prefix it cuts. -/
def floor (s : String) (n : Nat) : String :=
  String.ofList (floorChars n s.toList)

/-- `DevId`: the devices, by letter. -/
inductive DevId
  | root | pipe | srv | mnt | proc | dup | env | cons | cap | virtio9p
  deriving DecidableEq, Repr

namespace Rf

def nameg : Nat := 2 ^ 0
def envg : Nat := 2 ^ 1
def fdg : Nat := 2 ^ 2
def noteg : Nat := 2 ^ 3
def proc : Nat := 2 ^ 4
def mem : Nat := 2 ^ 5
def nowait : Nat := 2 ^ 6
def cnameg : Nat := 2 ^ 10
def cenvg : Nat := 2 ^ 11
def cfdg : Nat := 2 ^ 12
def rend : Nat := 2 ^ 13
def nomnt : Nat := 2 ^ 14

/-- Whether any bit of `bits` is set. -/
def has (flags bits : Nat) : Bool := flags &&& bits != 0

theorem has_or (flags a b : Nat) : has flags (a ||| b) = (has flags a || has flags b) := by
  rw [Bool.eq_iff_iff]
  simp only [has, bne_iff_ne, ne_eq, Bool.or_eq_true, Nat.and_or_distrib_left,
    Nat.or_eq_zero_iff]
  exact not_and_or

end Rf

namespace Pri

/-- `Npriq`, the number of priority levels. -/
def npriq : Nat := 20
/-- `Nrq`: the two queues above are edf's, and stay empty. -/
def nrq : Nat := npriq + 2
def normal : Nat := 10
def kproc : Nat := 13
def root : Nat := 13

end Pri

def hz : Nat := 100

/-- `TK2MS`, ticks to milliseconds. -/
def tk2ms (t : Nat) : Nat := t * (1000 / hz)

/-- `Scaling`, `updatecpu`'s fixed point on ticks. -/
def scaling : Nat := 2

def schedgain : Nat := 30

/-- `profclock`'s period in milliseconds. -/
def profms : Nat := 113

/-- `NNOTE`, the notes a process holds. -/
def nnote : Nat := 5

/-- `NBROKEN`, the broken processes kept. -/
def nbroken : Nat := 4

inductive State
  | dead | moribund | ready | scheding | running | queueing | queueingR | queueingW
  | wakeme | broken | stopped | rendezvous | waitrelease
  deriving DecidableEq, Repr

inductive NoteFlag
  | nuser | nexit | ndebug
  deriving DecidableEq, Repr

structure Note where
  msg : String
  flag : NoteFlag
  deriving DecidableEq, Repr

/-- What `/proc/n/ctl` asked of a process. -/
inductive Procctl
  | stopme | exitme | traceme | tracesyscall
  deriving DecidableEq, Repr

/-- Which of a process's own two `Rendez`. -/
inductive Which
  | sleep | waitr
  deriving DecidableEq, Repr

/-- Where a `Rendez` lives. -/
inductive Rid
  | proc (pid : Pid) (which : Which)
  | rr (dev : DevId) (devno which : Nat)
  | wr (dev : DevId) (devno which : Nat)
  | alarmr
  | clunkq
  | sema (pid : Pid)
  | mntrpc (pid : Pid)
  deriving DecidableEq, Repr

/-- The slots of `Proc.time`. -/
structure Times where
  tuser : Nat := 0
  tsys : Nat := 0
  treal : Nat := 0
  tcuser : Nat := 0
  tcsys : Nat := 0
  deriving DecidableEq, Repr

/-- A process, as far as the table's own operations read and write it. -/
structure Proc where
  pid : Pid
  ppid : Pid
  user : String := ""
  time : Times := {}
  text : String := "*init*"
  insyscall : Bool := false
  fixedpri : Bool := false
  /-- The process left the processor in the middle of a call. -/
  setlabel : Bool := false
  /-- The wait record's three times, fixed by `exits`. -/
  wait : Nat × Nat × Nat := (0, 0, 0)
  note : List Note := []
  notified : Bool := false
  notify : Nat := 0
  notepending : Bool := false
  noteid : Nat := 1
  procctl : Option Procctl := none
  kp : Bool := false
  alarm : Nat := 0
  /-- The rendezvous group, by its place in `Procs.rgrps`. -/
  rgrp : Nat := 0
  rendtag : Nat := 0
  rendval : Nat := 0
  pdbg : Option Pid := none
  hang : Bool := false
  psstate : Option String := none
  status : Option String := none
  /-- Made with `RFNOWAIT`: no wait record is kept. -/
  waited : Bool := true
  state : State := .running
  priority : Nat := Pri.normal
  /-- The rendezvous point slept on. -/
  r : Option Rid := none
  /-- The process's own two `Rendez`: who waits there. -/
  sleep : Option Pid := none
  waitr : Option Pid := none
  basepri : Nat := Pri.normal
  cpu : Nat := 0
  lastupdate : Nat := 0
  /-- The `Rendez` its timer wakes, and when. -/
  trend : Option Rid := none
  twhen : Option Nat := none
  delaysched : Nat := 0
  deriving DecidableEq, Repr

def Proc.root (pid : Pid) : Proc := { pid := pid, ppid := 0 }

structure Perf where
  intrts : Nat := 0
  inintr : Nat := 0
  avgInintr : Nat := 0
  inidle : Nat := 0
  avgInidle : Nat := 0
  last : Nat := 0
  period : Nat := 0
  deriving DecidableEq, Repr

/-- `struct Mach`: the processor, as the portable code sees it. -/
structure Mach where
  ticks : Nat := 0
  /-- The process `ready` just queued, which `runproc` takes first. -/
  readied : Option Pid := none
  schedticks : Nat := 0
  cs : Nat := 0
  intr : Nat := 0
  load : Nat := 0
  perf : Perf := {}
  /-- When the HZ clock next fires. -/
  hz : Option Nat := none
  nrun : Nat := 0
  balancetime : Nat := 0
  deriving DecidableEq, Repr

/-- The process table, with the run queues and the processor. -/
structure Procs where
  tab : Pid → Option Proc
  next : Pid
  /-- One queue for each priority. -/
  runq : Nat → List Pid
  /-- How many are on the queues. -/
  nrdy : Nat
  m : Mach
  /-- The process running now. -/
  up : Option Pid
  /-- How often `sleep` found somebody else on the `Rendez`. -/
  doublesleep : Nat
  /-- The `Rendez` that are not a process's own. -/
  rr : Rid → Option Pid
  /-- The rendezvous groups: who waits in each, oldest first. -/
  rgrps : Nat → List Pid
  nextrgrp : Nat
  noteidalloc : Nat
  broken : List Pid
  alarms : List Pid
  /-- When the profiling clock next fires. -/
  profclock : Option Nat

namespace Procs

/-- `Procs::new`: a table with process 1 in it. -/
def new : Procs where
  tab := fun pid => if pid = 1 then some (Proc.root 1) else none
  next := 2
  runq := fun _ => []
  nrdy := 0
  m := {}
  up := some 1
  doublesleep := 0
  rr := fun _ => none
  rgrps := fun _ => []
  nextrgrp := 1
  noteidalloc := 1
  broken := []
  alarms := []
  profclock := none

def modify (s : Procs) (pid : Pid) (f : Proc → Proc) : Procs :=
  { s with tab := Function.update s.tab pid ((s.tab pid).map f) }

def insert (s : Procs) (pid : Pid) (p : Proc) : Procs :=
  { s with tab := Function.update s.tab pid (some p) }

/-- `state`: a process that is not there is `Dead`. -/
def state (s : Procs) (pid : Pid) : State :=
  match s.tab pid with
  | some p => p.state
  | none => .dead

def setstate (s : Procs) (pid : Pid) (st : State) : Procs :=
  s.modify pid fun p => { p with state := st }

/-- `setlabel`: the process leaves in the middle of what it is doing. -/
def setlabel (s : Procs) (pid : Pid) : Procs :=
  s.modify pid fun p => { p with setlabel := true }

/-- `interrupted`: whether a note was pending, which is then taken. -/
def interrupted (s : Procs) (pid : Pid) : Bool × Procs :=
  ((s.tab pid).any (·.notepending), s.modify pid fun p => { p with notepending := false })

/-- `rendez`: who waits at a `Rendez`. -/
def rendez (s : Procs) : Rid → Option Pid
  | .proc pid .sleep => (s.tab pid).bind (·.sleep)
  | .proc pid .waitr => (s.tab pid).bind (·.waitr)
  | r => s.rr r

/-- `rendez_mut` and what is put there. -/
def setRendez (s : Procs) (r : Rid) (who : Option Pid) : Procs :=
  match r with
  | .proc pid .sleep => s.modify pid fun p => { p with sleep := who }
  | .proc pid .waitr => s.modify pid fun p => { p with waitr := who }
  | r => { s with rr := Function.update s.rr r who }

variable (s : Procs) (pid : Pid) (f : Proc → Proc)

@[simp]
theorem modify_tab_self : (s.modify pid f).tab pid = (s.tab pid).map f := by
  simp [modify]

@[simp]
theorem modify_tab_of_ne {other : Pid} (differs : other ≠ pid) :
    (s.modify pid f).tab other = s.tab other := by
  simp [modify, differs]

end Procs

end Ipnx
