import Ipnx.Machine.Rfmem

/-!
# The browser's workers, and the memories they share

`hosts/web/src/machine.rs` and `www/kernel.mjs`: each process has a worker and a mailbox, and may
share its memory with others by `RFMEM`. The clock takes the processor from a process and not its
worker, which runs on; and a worker that is ended, ends later. Beside the machine stand what each
process has of its stack, and the workers that were ended while they ran and run yet.

The memories have no end here, and an image's stack region is in its memory.
-/

namespace Ipnx.Workers

open Function (update)

abbrev Mem := Nat → UInt8

/-- The calls whose answer is not just an answer; an `rfork` is one with `RFPROC`, and it says
whether it shares the memory. -/
inductive Trap
  | exits | exec | rfork (share : Bool) | noted | other
  deriving DecidableEq, Repr

inductive Said
  | call (c : Trap)
  | deliver
  | yield
  | forked (child : Pid) (share : Bool) (lo tos : Nat) (failed : Bool)
  | fault
  | exited
  | pc
  deriving DecidableEq, Repr

/-- `I[0]`, with what was said; `asked` is an answer that is a question. -/
inductive Box
  | runs | said (e : Said) | asked | answered
  deriving DecidableEq, Repr

/-- A process's worker and its mailbox: its memory, where its stack region ends, whether there is a
worker yet, `W[6]`, and the fork it unwinds for. `base` and `own` are its stack: the lowest address
of the region in use when it last said something, and what was there then, with what it and the
kernel for it have written since. -/
structure Worker where
  mem : Nat
  top : Nat
  box : Box
  started : Bool
  low : Nat
  work : Option (Pid × Bool)
  base : Nat
  own : Mem

namespace Worker

/-- It has been started or answered, and has said nothing since. -/
def Runs (v : Worker) : Prop := v.started = true ∧ (v.box = .runs ∨ v.box = .answered)

instance (v : Worker) : Decidable v.Runs := inferInstanceAs (Decidable (_ ∧ _))

/-- After `FORK` a worker says nothing but `FORKED`, unless it ends. -/
def MaySay (v : Worker) : Said → Prop
  | .forked child share _ _ _ => v.work = some (child, share)
  | .fault | .exited => True
  | _ => v.work = none

instance (v : Worker) (e : Said) : Decidable (v.MaySay e) := by
  unfold MaySay
  split <;> infer_instance

/-- It has said something, and has not been answered. -/
def Waits (v : Worker) : Prop :=
  match v.box with
  | .said _ => True
  | _ => False

instance (v : Worker) : Decidable v.Waits := by
  unfold Waits
  split <;> infer_instance

def say (v : Worker) (mem : Mem) (e : Said) (low : Nat) : Worker :=
  { v with box := .said e, low := low, base := low, own := mem }

end Worker

structure Sharing where
  top : Nat
  occupant : Option Pid
  stacks_ : Pid → Option (Nat × List UInt8)

/-- The memories, the workers of the processes there are, the memories of those ended that run yet,
who shares with whom, and the images `exec` committed, by where their stack regions end. -/
structure Mach where
  mems : Nat → Mem
  nmem : Nat
  procs : Pid → Option Worker
  adrift : List Nat
  sharing : Pid → Option Nat
  groups : Nat → Sharing
  ngroup : Nat
  execd : Pid → Option Nat

namespace Mach

def setProc (m : Mach) (pid : Pid) (v : Worker) : Mach :=
  { m with procs := update m.procs pid (some v) }

def setMem (m : Mach) (i : Nat) (mem : Mem) : Mach :=
  { m with mems := update m.mems i mem }

def setGroup (m : Mach) (i : Nat) (g : Sharing) : Mach :=
  { m with groups := update m.groups i g }

/-- Its worker goes on without it, if it runs. -/
def cast (m : Mach) (pid : Pid) : Mach :=
  match m.procs pid with
  | some v => if v.Runs then { m with adrift := v.mem :: m.adrift } else m
  | none => m

def leave (m : Mach) (pid : Pid) : Mach :=
  match m.sharing pid with
  | none => m
  | some i =>
      let g := m.groups i
      { m with sharing := update m.sharing pid none }.setGroup i
        { g with
          stacks_ := update g.stacks_ pid none
          occupant := if g.occupant = some pid then none else g.occupant }

def kill (m : Mach) (pid : Pid) : Mach :=
  { m.cast pid with procs := update m.procs pid none }

def end_ (m : Mach) (pid : Pid) : Mach :=
  { (m.leave pid).kill pid with execd := update m.execd pid none }

/-- `js::start`: a new memory, and a new worker. -/
def start (m : Mach) (pid : Pid) (top : Nat) : Mach :=
  { ((m.cast pid).setMem m.nmem fun _ => 0).setProc pid
      ⟨m.nmem, top, .runs, true, 0, none, 0, fun _ => 0⟩ with nmem := m.nmem + 1 }

def quiet (m : Mach) (pid : Pid) : Prop := ∀ v ∈ m.procs pid, v.Waits

instance (m : Mach) (pid : Pid) : Decidable (m.quiet pid) :=
  inferInstanceAs (Decidable (∀ v ∈ m.procs pid, v.Waits))

def saved (m : Mach) (g : Sharing) : Sharing :=
  match g.occupant with
  | none => g
  | some o =>
      match m.procs o with
      | none => g
      | some v =>
          let low := min v.low g.top
          { g with stacks_ := update g.stacks_ o (some (low, slice (m.mems v.mem) low g.top)) }

def place (m : Mach) (pid : Pid) (i : Nat) : Mach :=
  let g := m.saved (m.groups i)
  match g.stacks_ pid, m.procs pid with
  | some (low, img), some v =>
      (m.setMem v.mem (splice (m.mems v.mem) low img)).setGroup i
        { g with stacks_ := update g.stacks_ pid none, occupant := some pid }
  | _, _ => m.setGroup i { g with occupant := some pid }

/-- The same, if it can be; `none` is that the sharer whose stack is there may still run. -/
def occupy (m : Mach) (pid : Pid) : Option Mach :=
  match m.sharing pid with
  | none => some m
  | some i =>
      match (m.groups i).occupant with
      | none => some (m.place pid i)
      | some o => if o = pid then some m else if m.quiet o then some (m.place pid i) else none

/-- `js::reply`: an answer, and whether it is `FORK`. -/
def reply (m : Mach) (pid : Pid) (work : Option (Pid × Bool)) : Mach :=
  match m.procs pid with
  | none => m
  | some v => m.setProc pid { v with box := .answered, work := work }

/-- `js::reply`: the question where the process is. -/
def ask (m : Mach) (pid : Pid) : Mach :=
  match m.procs pid with
  | none => m
  | some v => m.setProc pid { v with box := .asked }

/-- A group for a parent that shares its memory for the first time. -/
def found (m : Mach) (parent : Pid) (top : Nat) : Nat × Mach :=
  match m.sharing parent with
  | some i => (i, m)
  | none =>
      (m.ngroup,
        { m with
          groups := update m.groups m.ngroup ⟨top, some parent, fun _ => none⟩
          sharing := update m.sharing parent (some m.ngroup)
          ngroup := m.ngroup + 1 })

/-- The child shares its parent's memory, with a stack of its own. -/
def share (m : Mach) (parent child : Pid) (top : Nat) (stack : Nat × List UInt8) : Mach :=
  let r := m.found parent top
  let g := r.2.groups r.1
  { r.2 with sharing := update r.2.sharing child (some r.1) }.setGroup r.1
    { g with stacks_ := update g.stacks_ child (some stack) }

def tospid : Nat := Rfmem.tospid

/-- The child's memory is made: its parent's own with a stack, or a copy of it. -/
def fork (m : Mach) (parent child : Pid) (v : Worker) (share : Bool) (lo tos : Nat) : Mach :=
  let at_ := tos + tospid
  let mem := m.mems v.mem
  if share then
    let stack := slice mem lo v.top
    let inside := lo ≤ at_ ∧ at_ + 4 ≤ v.top
    (m.setProc child ⟨v.mem, v.top, .runs, false, 0, none, lo,
        if inside then splice mem at_ (Rfmem.pidBytes child) else mem⟩).share parent child v.top
      (lo, if inside then overwrite stack (at_ - lo) (Rfmem.pidBytes child) else stack)
  else
    let copy := splice (fun a => if lo ≤ a then mem a else 0) at_ (Rfmem.pidBytes child)
    { (m.setMem m.nmem copy).setProc child
        ⟨m.nmem, v.top, .runs, false, 0, none, lo, copy⟩ with nmem := m.nmem + 1 }

end Mach

/-- `St`; an image is by where its stack region ends. -/
inductive St
  | image (top : Nat)
  | running
  | call (c : Trap)
  | yielded
  | forking
  | forked
  | unforked
  deriving DecidableEq, Repr

/-- Where the kernel is: with no process, in `run`, in a call or about to answer; or the system is
over. -/
inductive Phase
  | sched
  | runs (pid : Pid)
  | calls (pid : Pid) (c : Trap)
  | answers (pid : Pid)
  | failed
  deriving DecidableEq, Repr

structure State where
  mach : Mach
  st : Pid → Option St
  phase : Phase
  npid : Pid

/-- What a call comes to: it has left the processor, has failed or has not, or has made a child; or
`noted` goes on. -/
inductive Ret
  | sched | err | ok | pid | cont | save
  deriving DecidableEq, Repr

inductive Act
  | store (pid : Pid) (mem : Mem)
  | say (pid : Pid) (e : Said) (low : Nat)
  | locate (pid : Pid)
  | died (pid : Pid)
  | drift (i : Nat) (mem : Mem)
  | cease (i : Nat)
  | enter (pid : Pid)
  | clock (pexit : Bool)
  | take
  | ask
  | write (a : Nat) (bytes : List UInt8)
  | touser (top : Nat)
  | done (r : Ret)
  | deliver (pexit : Bool)

namespace State

def put (s : State) (pid : Pid) (st : St) : State :=
  { s with st := update s.st pid (some st) }

/-- `end`, and back to the scheduler. -/
def over_ (s : State) (pid : Pid) : State :=
  { s with mach := s.mach.end_ pid, st := update s.st pid none, phase := .sched }

/-- The kernel writes to the process's memory, for it. -/
def write (s : State) (pid : Pid) (a : Nat) (bytes : List UInt8) : Option State :=
  (s.mach.procs pid).map fun v =>
    let mem := splice (s.mach.mems v.mem) a bytes
    { s with mach := (s.mach.setMem v.mem mem).setProc pid { v with own := splice v.own a bytes } }

/-- A process that is entered goes on from what the machine keeps of it. -/
def go (s : State) (pid : Pid) : St → State
  | .image top => { s with mach := s.mach.start pid top, phase := .runs pid }
  | .forked =>
      { s with
        mach := (s.mach.procs pid).elim s.mach fun v =>
            s.mach.setProc pid { v with started := true }
        phase := .runs pid }
  | .yielded => { s with phase := .answers pid }
  | .call c => { s with phase := .calls pid c }
  | .running | .forking | .unforked => { s with phase := .runs pid }

/-- `gotolabel`. -/
def enter (s : State) (pid : Pid) : State :=
  match s.st pid with
  | none => { s with phase := .failed }
  | some .forking => s
  | some .unforked => { s with st := update s.st pid none }
  | some st =>
      match s.mach.occupy pid with
      | none => s
      | some m => ({ s with mach := m }.put pid .running).go pid st

/-- The answer goes to the process's mailbox, and the process runs. -/
def reply (s : State) (pid : Pid) (work : Option (Pid × Bool)) : State :=
  { s with mach := s.mach.reply pid work, phase := .runs pid }

/-- What `run` does with what it has been told. -/
def take (s : State) (pid : Pid) (v : Worker) : Said → State
  | .call c => { s with phase := .calls pid c }
  | .deliver => { s with phase := .answers pid }
  | .yield => { s.put pid .yielded with phase := .sched }
  | .forked child share lo tos failed =>
      if failed then { s.put child .unforked with phase := .answers pid }
      else
        { s.put child .forked with mach := s.mach.fork pid child v share lo tos }.reply pid none
  | .fault | .exited => s.over_ pid
  | .pc => { s with phase := .failed }

def finish (s : State) (pid : Pid) (c : Trap) (r : Ret) : State :=
  match r, c with
  | .sched, _ => { s.put pid (.call c) with phase := .sched }
  | _, .exits => s.over_ pid
  | .ok, .exec =>
      match s.mach.execd pid with
      | none => s.over_ pid
      | some top =>
          let m := { s.mach with execd := update s.mach.execd pid none }
          { s.put pid .running with mach := m.start pid top, phase := .sched }
  | .pid, .rfork share =>
      { s.put s.npid .forking with npid := s.npid + 1 }.reply pid (some (s.npid, share))
  | .cont, .noted => s.reply pid none
  | .ok, .noted | .pid, .noted => s.over_ pid
  | _, _ => { s with phase := .answers pid }

/-- What a worker does, ended or not; what the page says for one that died; and what the kernel does
next. An `exec` past its commit does not fail, and writes nothing. -/
def next (s : State) : Act → Option State
  | .store pid mem =>
      match s.mach.procs pid with
      | some v =>
          if v.Runs then
            some { s with mach := (s.mach.setMem v.mem mem).setProc pid { v with own := mem } }
          else none
      | none => none
  | .say pid e low =>
      match s.mach.procs pid with
      | some v =>
          if v.Runs ∧ v.MaySay e then
            some { s with mach := s.mach.setProc pid (v.say (s.mach.mems v.mem) e low) }
          else none
      | none => none
  | .locate pid =>
      match s.mach.procs pid with
      | some v =>
          if v.box = .asked then
            some { s with mach := s.mach.setProc pid { v with box := .said .pc } }
          else none
      | none => none
  | .died pid =>
      match s.mach.procs pid with
      | some v =>
          if v.started then
            some { s with mach := s.mach.setProc pid { v with box := .said .fault } }
          else none
      | none => none
  | .drift i mem =>
      if i ∈ s.mach.adrift then some { s with mach := s.mach.setMem i mem } else none
  | .cease i => some { s with mach := { s.mach with adrift := s.mach.adrift.erase i } }
  | .enter pid => if s.phase = .sched then some (s.enter pid) else none
  | .clock pexit =>
      match s.phase with
      | .runs pid => some (if pexit then s.over_ pid else { s with phase := .sched })
      | _ => none
  | .take =>
      match s.phase with
      | .runs pid =>
          match s.mach.procs pid with
          | none => some (s.over_ pid)
          | some v =>
              match v.box with
              | .said e => some (s.take pid v e)
              | _ => none
      | _ => none
  | .ask =>
      match s.phase with
      | .calls pid _ | .answers pid => some { s with mach := s.mach.ask pid }
      | _ => none
  | .write a bytes =>
      match s.phase with
      | .calls pid c => if c = .exec then none else s.write pid a bytes
      | .answers pid => s.write pid a bytes
      | _ => none
  | .touser top =>
      match s.phase with
      | .calls pid .exec =>
          if s.mach.execd pid = none then
            let m := s.mach.leave pid
            some { s with mach := { m with execd := update m.execd pid (some top) } }
          else none
      | _ => none
  | .done r =>
      match s.phase with
      | .calls pid c =>
          if r ∈ [Ret.sched, .ok] ∨ s.mach.execd pid = none then some (s.finish pid c r) else none
      | _ => none
  | .deliver pexit =>
      match s.phase with
      | .answers pid => some (if pexit then s.over_ pid else s.reply pid none)
      | _ => none

/-- The first process, with its image. -/
def boot (top : Nat) (mems : Nat → Mem) : State where
  mach := ⟨mems, 0, fun _ => none, [], fun _ => none, fun _ => ⟨0, none, fun _ => none⟩, 0,
    fun _ => none⟩
  st := update (fun _ => none) 1 (some (.image top))
  phase := .sched
  npid := 2

end State

def machine : System State Act where
  init s := ∃ top mems, s = .boot top mems
  step s a s' := s.next a = some s'

end Ipnx.Workers
