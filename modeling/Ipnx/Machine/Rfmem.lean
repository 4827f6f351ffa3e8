import Ipnx.Lib.System
import Ipnx.Lib.Window
import Ipnx.Proc.Table

/-!
# Memories shared by `RFMEM`

`hosts/ipnx/src/machine.rs`: a memory has one stack region, `[0, stacktop)`. Of the processes that
share a memory one has its stack in the region, and the stacks of the others are kept by the
machine. A process leaves the processor with the lowest address its stack is using in a cell of its
own, and when another sharer is entered the bytes from there to the top are saved and the other's
are put back. Beside the machine stands what each process left: the address and the bytes from it
to the top of its region, and for a child what it was given.
-/

namespace Ipnx.Rfmem

open Function (update)

abbrev Mem := Nat → UInt8

/-- `Sharing`. The memory and the cells are by their numbers. -/
structure Sharing where
  mem : Nat
  top : Nat
  occupant : Option Pid
  stacks_ : Pid → Option (Nat × List UInt8)
  lows : Pid → Option Nat

/-- Of an image, where its stack region ends and its `Tos` is. -/
structure Image where
  stacktop : Nat
  tos : Nat
  deriving DecidableEq, Repr

/-- A process: its memory, its stack pointer once there is an instance, the cell of its low
address, where its stack left the region, and the image it has `exec`d, until it is entered in
that. -/
structure Proc where
  mem : Nat
  spg : Option Int
  low : Nat
  regionLow : Int
  stacktop : Nat
  tos : Nat
  execd : Option Image
  deriving DecidableEq, Repr

namespace Proc

def inside (p : Proc) (sp : Int) : Prop := 0 ≤ sp ∧ sp < p.stacktop

instance (p : Proc) (sp : Int) : Decidable (p.inside sp) := inferInstanceAs (Decidable (_ ∧ _))

/-- The lowest address of the region in use at a stack pointer. -/
def lowAt (p : Proc) (sp : Int) : Int := if p.inside sp then sp else p.regionLow

/-- The stack moves; if it leaves the region, the frames in it wait. -/
def moved (p : Proc) (sp next : Int) : Proc :=
  if p.inside sp ∧ ¬p.inside next then { p with regionLow := sp } else p

end Proc

/-- A child's memory: a copy of its parent's from an address on, or its parent's own and a stack. -/
inductive ForkMem
  | copy (low : Nat) (bytes : Mem)
  | share (mem low : Nat) (stack : List UInt8)

/-- A child that waits for the poll to end. -/
structure Fork where
  pid : Pid
  parent : Pid
  mem : ForkMem
  stacktop : Nat
  tos : Nat
  parentLow : Nat
  regionLow : Int
  low : Nat

/-- The machine. Memories, cells and groups are made one after another; `running` is the process
polled. A parent leaves the processor as its `rfork` returns, so a poll makes one child. -/
structure Wasm where
  mems : Nat → Mem
  cells : Nat → Int
  procs : Pid → Option Proc
  sharing : Pid → Option Nat
  groups : Nat → Sharing
  forked : Option Fork
  running : Option Pid
  nmem : Nat
  ncell : Nat
  ngroup : Nat

/-- An address into the region, as a bound of a copy. -/
def clamp (x : Int) (top : Nat) : Nat := min x.toNat top

def tospid : Nat := 48

def pidBytes (pid : Pid) : List UInt8 :=
  [.ofNat pid, .ofNat (pid / 2 ^ 8), .ofNat (pid / 2 ^ 16), .ofNat (pid / 2 ^ 24)]

namespace Wasm

def setProc (s : Wasm) (pid : Pid) (p : Option Proc) : Wasm :=
  { s with procs := update s.procs pid p }

def setGroup (s : Wasm) (i : Nat) (g : Sharing) : Wasm :=
  { s with groups := update s.groups i g }

/-- A new process: a memory and a cell of its own. -/
def make (s : Wasm) (pid : Pid) (image : Image) : Wasm :=
  { s with
    mems := update s.mems s.nmem fun _ => 0
    cells := update s.cells s.ncell 0
    procs := update s.procs pid
      (some ⟨s.nmem, none, s.ncell, 0, image.stacktop, image.tos, none⟩)
    nmem := s.nmem + 1
    ncell := s.ncell + 1 }

/-- The stacks kept once the occupant's is saved. -/
def saved (s : Wasm) (g : Sharing) : Pid → Option (Nat × List UInt8) :=
  match g.occupant with
  | none => g.stacks_
  | some o =>
      let low := clamp ((g.lows o).elim 0 s.cells) g.top
      update g.stacks_ o (some (low, slice (s.mems g.mem) low g.top))

def occupy (s : Wasm) (pid : Pid) : Wasm :=
  match s.sharing pid with
  | none => s
  | some i =>
      let g := s.groups i
      if g.occupant = some pid then s
      else
        let stacks_ := s.saved g
        match stacks_ pid with
        | none => s.setGroup i { g with stacks_ := stacks_, occupant := some pid }
        | some (low, img) =>
            { s with mems := update s.mems g.mem (splice (s.mems g.mem) low img) }.setGroup i
              { g with stacks_ := update stacks_ pid none, occupant := some pid }

def leave (s : Wasm) (pid : Pid) : Wasm :=
  match s.sharing pid with
  | none => s
  | some i =>
      let g := s.groups i
      { s with sharing := update s.sharing pid none }.setGroup i
        { g with
          stacks_ := update g.stacks_ pid none
          lows := update g.lows pid none
          occupant := if g.occupant = some pid then none else g.occupant }

/-- A group for a parent that shares its memory for the first time. -/
def found (s : Wasm) (k : Fork) (mem : Nat) : Nat × Wasm :=
  match s.sharing k.parent with
  | some i => (i, s)
  | none =>
      (s.ngroup,
        { s with
          groups := update s.groups s.ngroup
            ⟨mem, k.stacktop, some k.parent, fun _ => none,
              update (fun _ => none) k.parent (some k.parentLow)⟩
          sharing := update s.sharing k.parent (some s.ngroup)
          ngroup := s.ngroup + 1 })

/-- The child shares its parent's memory, with a stack of its own. -/
def share (s : Wasm) (k : Fork) (mem low : Nat) (stack : List UInt8) : Wasm :=
  let r := s.found k mem
  let g := r.2.groups r.1
  { r.2 with sharing := update r.2.sharing k.pid (some r.1) }.setGroup r.1
    { g with
      stacks_ := update g.stacks_ k.pid (some (low, stack))
      lows := update g.lows k.pid (some k.low) }

def child (s : Wasm) (k : Fork) : Wasm :=
  match k.mem with
  | .share mem _ _ =>
      s.setProc k.pid (some ⟨mem, none, k.low, k.regionLow, k.stacktop, k.tos, none⟩)
  | .copy low bytes =>
      { s with
        mems := update s.mems s.nmem
          (splice (fun a => if low ≤ a then bytes a else 0) (k.tos + tospid) (pidBytes k.pid))
        nmem := s.nmem + 1 }.setProc k.pid
          (some ⟨s.nmem, none, k.low, k.regionLow, k.stacktop, k.tos, none⟩)

/-- The end of a poll: the child it made is taken in. -/
def settle (s : Wasm) : Wasm :=
  let s' := { s with forked := none, running := none }
  match s.forked with
  | none => s'
  | some k =>
      match k.mem with
      | .share mem low stack => (s'.share k mem low stack).child k
      | .copy _ _ => s'.child k

def publish (s : Wasm) (p : Proc) : Wasm :=
  match p.spg with
  | none => s
  | some sp => { s with cells := update s.cells p.low (p.lowAt sp) }

/-- `Op::Fork`, with the stack unwound. -/
def fork (s : Wasm) (pid : Pid) (p : Proc) (sp : Int) (child : Pid) (share : Bool) : Wasm :=
  let low := clamp (p.lowAt sp) p.stacktop
  let stack := slice (s.mems p.mem) low p.stacktop
  let at_ := p.tos + tospid
  let mem : ForkMem :=
    if share then
      .share p.mem low
        (if low ≤ at_ ∧ at_ + 4 ≤ p.stacktop then overwrite stack (at_ - low) (pidBytes child)
        else stack)
    else .copy low (s.mems p.mem)
  { s with
    forked := some ⟨child, pid, mem, p.stacktop, p.tos, p.low, p.regionLow, s.ncell⟩
    cells := update s.cells s.ncell low
    ncell := s.ncell + 1 }

end Wasm

/-- The machine, and what each process left. -/
structure Shares where
  wasm : Wasm
  left : Pid → Nat × List UInt8

inductive Act
  | boot (pid : Pid) (image : Image)
  | enter (pid : Pid)
  | run (mem : Mem) (sp : Option Int)
  | moved (sp next : Int)
  | fork (child : Pid) (share : Bool)
  | exec (image : Image)
  | leave
  | ended

namespace Shares

def current (s : Shares) : Option (Pid × Proc) :=
  s.wasm.running.bind fun pid => (s.wasm.procs pid).map (pid, ·)

/-- What a process leaves: its region from the address it publishes to the top. -/
def leaves (w : Wasm) (p : Proc) : Nat × List UInt8 :=
  let low := clamp (w.cells p.low) p.stacktop
  (low, slice (w.mems p.mem) low p.stacktop)

/-- What a child is given: its parent's region as it is, with its own pid in the `Tos` if that is
in use. -/
def given (w : Wasm) (p : Proc) (sp : Int) (child : Pid) : Nat × List UInt8 :=
  let low := clamp (p.lowAt sp) p.stacktop
  let at_ := p.tos + tospid
  let mem :=
    if low ≤ at_ ∧ at_ + 4 ≤ p.stacktop then splice (w.mems p.mem) at_ (pidBytes child)
    else w.mems p.mem
  (low, slice mem low p.stacktop)

def unused (s : Shares) (pid : Pid) : Prop :=
  s.wasm.procs pid = none ∧ ∀ k, s.wasm.forked = some k → k.pid ≠ pid

/-- What the machine does. Only the process polled runs, and once it has `exec`d its program does
not. -/
inductive Step (s : Shares) : Act → Shares → Prop
  | boot {pid : Pid} {image : Image} (unused : s.unused pid) :
      Step s (.boot pid image) { s with wasm := s.wasm.make pid image }
  | enter {pid : Pid} (idle : s.wasm.running = none) (there : s.wasm.procs pid ≠ none) :
      Step s (.enter pid) { s with wasm := { s.wasm.occupy pid with running := some pid } }
  | run {pid : Pid} {p : Proc} {mem : Mem} {sp : Option Int} (current : s.current = some (pid, p))
      (program : p.execd = none) :
      Step s (.run mem sp)
        { s with
          wasm := { s.wasm with mems := update s.wasm.mems p.mem mem }.setProc pid
            (some { p with spg := sp }) }
  | moved {pid : Pid} {p : Proc} {sp next : Int} (current : s.current = some (pid, p))
      (program : p.execd = none) :
      Step s (.moved sp next)
        { s with wasm := s.wasm.setProc pid (some { p.moved sp next with spg := some next }) }
  | fork {pid child : Pid} {p : Proc} {sp : Int} {share : Bool}
      (current : s.current = some (pid, p)) (program : p.execd = none) (stack : p.spg = some sp)
      (unused : s.unused child) (first : s.wasm.forked = none) :
      Step s (.fork child share)
        ⟨s.wasm.fork pid p sp child share,
          update s.left child (given s.wasm p sp child)⟩
  | exec {pid : Pid} {p : Proc} {image : Image} (current : s.current = some (pid, p))
      (program : p.execd = none) (first : s.wasm.forked = none) :
      Step s (.exec image)
        { s with wasm := (s.wasm.leave pid).setProc pid (some { p with execd := some image }) }
  | leave {pid : Pid} {p : Proc} (current : s.current = some (pid, p)) :
      Step s .leave
        ⟨(s.wasm.publish p).settle, update s.left pid (leaves (s.wasm.publish p) p)⟩
  | exited {pid : Pid} {p : Proc} (current : s.current = some (pid, p)) (ends : p.execd = none) :
      Step s .ended { s with wasm := (s.wasm.settle.leave pid).setProc pid none }
  | execd {pid : Pid} {p : Proc} {image : Image} (current : s.current = some (pid, p))
      (next : p.execd = some image) :
      Step s .ended { s with wasm := s.wasm.settle.make pid image }

def start (mems : Nat → Mem) : Shares where
  wasm := ⟨mems, fun _ => 0, fun _ => none, fun _ => none,
    fun _ => ⟨0, 0, none, fun _ => none, fun _ => none⟩,
    none, none, 0, 0, 0⟩
  left _ := (0, [])

def system : System Shares Act where
  init s := ∃ mems, s = start mems
  step := Step

end Shares

end Ipnx.Rfmem
