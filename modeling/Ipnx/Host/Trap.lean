import Ipnx.Lib.Codec
import Ipnx.Lib.System

/-!
# The browser machine's trap

`hosts/web/www/mailbox.mjs`, `proc.mjs` and `kernel.mjs`: the mailbox a process's worker and the
kernel's share, and what each does with it, a store, a load or a wait at a time. The process says
something and waits for the answer; the kernel may ask, in the middle of it, where the process is,
and gives up after a while. Either the kernel or the page may declare the process gone.
-/

namespace Ipnx.Host.Trap

/-- What a process says; `time` is the kernel's own, that nothing was said. -/
inductive Ev
  | time | call | deliver | exited | fault | forked | yield | pc
deriving DecidableEq, Repr

inductive Rep
  | ret | handler | noted | fork | go | pc
deriving DecidableEq, Repr

/-- `I[0]`: the process runs, it has said something, it is answered, it is gone. -/
inductive Mark
  | runs | said | answered | gone
deriving DecidableEq, Repr

/-- `I[0]` to `I[5]`, `W[0..5]`, `W[6]`, `W[7]`, `W[8]` and `T`. -/
structure Box where
  state : Mark
  ev : Ev
  kind : Rep
  aux : UInt32
  len : Nat
  gone : Bool
  words : Nat → UInt64
  low : UInt64
  pc : UInt64
  value : UInt64
  text : Bytes

def Box.new : Box := ⟨.runs, .time, .ret, 0, 0, false, fun _ => 0, 0, 0, 0, []⟩

structure Message where
  ev : Ev
  words : List UInt64
  text : Bytes
deriving DecidableEq, Repr

structure Answer where
  kind : Rep
  value : UInt64
  aux : UInt32
  text : Bytes
deriving DecidableEq, Repr

/-- What waits for its answer: the message, the lowest stack address in use, and where it is said
from. -/
structure Call where
  msg : Message
  low : UInt64
  pc : UInt64
deriving DecidableEq, Repr

/-- The most of a fault's text the kernel takes. -/
def errmax : Nat := 128

def Message.cut (m : Message) : Message := { m with text := m.text.take errmax }

/-- Bytes put in at the front of the transfer. -/
def setText (old new : Bytes) : Bytes := new ++ old.drop new.length

def Ev.words : Ev → Nat
  | .call | .forked => 6
  | _ => 0

def Call.Sound (c : Call) : Prop :=
  c.msg.ev ∈ [Ev.call, .deliver, .forked, .yield] ∧ c.msg.words.length = c.msg.ev.words ∧
    c.msg.text = []

/-- What is told, and not answered: the image has ended, or trapped. -/
def Message.Told (m : Message) : Prop :=
  m.ev ∈ [Ev.exited, .fault] ∧ m.words = [] ∧ (m.ev = .exited → m.text = [])

instance (c : Call) : Decidable c.Sound := inferInstanceAs (Decidable (_ ∧ _ ∧ _))

instance (m : Message) : Decidable m.Told := inferInstanceAs (Decidable (_ ∧ _ ∧ _))

/-- The process's worker, by what it does next; a worker that died is told for by the page. -/
inductive Process
  | runs
  | fill (c : Call) (k : Nat)
  | kind (c : Call)
  | low (c : Call)
  | post (c : Call)
  | ring (c : Call)
  | load (c : Call)
  | check (c : Call) (s : Mark)
  | wait (c : Call) (s : Mark)
  | asleep (c : Call) (s : Mark)
  | judge (c : Call)
  | pcword (c : Call)
  | pckind (c : Call)
  | pcpost (c : Call)
  | rkind (c : Call)
  | rvalue (c : Call) (kind : Rep)
  | raux (c : Call) (kind : Rep) (value : UInt64)
  | clear (c : Call) (kind : Rep) (value : UInt64) (aux : UInt32)
  | cleared
  | noting (kind : Rep) (value : UInt64) (aux : UInt32)
  | note (kind : Rep) (value : UInt64) (aux : UInt32)
  | ttext (m : Message)
  | tlen (m : Message)
  | tkind (m : Message)
  | tpost (m : Message)
  | tring
  | over_
deriving DecidableEq, Repr

/-- The kernel's side. In `wait` it is `userpc` that waits, for the message's question, or `run`. -/
inductive Kernel
  | free
  | load (q : Option Message)
  | wait (q : Option Message) (s : Mark)
  | asleep (q : Option Message) (s : Mark)
  | ev (q : Option Message)
  | words (e : Ev) (ws : List UInt64)
  | len (e : Ev)
  | text (e : Ev) (n : Nat)
  | has (m : Message)
  | pc (m : Message)
  | xtext (m : Message) (a : Answer)
  | xlen (m : Message) (a : Answer)
  | kind (m : Message) (a : Answer)
  | value (m : Message) (a : Answer)
  | aux (m : Message) (a : Answer)
  | post (m : Message) (a : Answer)
  | ring (q : Option Message)
  | gone
  | shut
  | woken
  | left
  | failed (e : Ev)
deriving DecidableEq, Repr

/-- The page, declaring the process gone. -/
inductive Page
  | still | shut | woken | done
deriving DecidableEq, Repr

/-- The mailbox, the two sides and the page; whether a question the kernel gave up on is open; and
what was said, taken, given as an answer and gone on with, and the questions asked, the places said
and the places taken. -/
structure State where
  box : Box
  process : Process
  kernel : Kernel
  page : Page
  open_ : Bool
  said : List Message
  taken : List Message
  given : List Answer
  got : List Answer
  asked : Nat
  pcs : List UInt64
  pcstaken : List UInt64

inductive Act
  | say (c : Call)
  | tell (m : Message)
  | process
  | run
  | kernel
  | timeout
  | ask
  | answer (a : Answer)
  | end_
  | page
deriving DecidableEq, Repr

namespace State

/-- `Atomics.notify` wakes whichever waits. -/
def wakeKernel (s : State) : State :=
  match s.kernel with
  | .asleep q _ => { s with kernel := .load q }
  | _ => s

def wakeProcess (s : State) : State :=
  match s.process with
  | .asleep c _ => { s with process := .load c }
  | _ => s

/-- `say`, `tell` and `answer`: what the process's worker does next. -/
def processStep (s : State) : Option State :=
  match s.process with
  | .fill c k =>
      if k < c.msg.words.length then
        let words := Function.update s.box.words k (c.msg.words.getD k 0)
        some { s with box := { s.box with words := words }, process := .fill c (k + 1) }
      else some { s with process := .kind c }
  | .kind c => some { s with box := { s.box with ev := c.msg.ev }, process := .low c }
  | .low c => some { s with box := { s.box with low := c.low }, process := .post c }
  | .post c =>
      some { s with
        box := { s.box with state := .said }
        process := .ring c
        said := s.said ++ [c.msg] }
  | .ring c => some { s.wakeKernel with process := .load c }
  | .load c =>
      some { s with
        process := if s.box.state = .answered then .judge c else .check c s.box.state }
  | .check c at_ => some { s with process := if s.box.gone then .over_ else .wait c at_ }
  | .wait c at_ =>
      some { s with process := if s.box.state = at_ then .asleep c at_ else .load c }
  | .judge c => some { s with process := if s.box.kind = .pc then .pcword c else .rkind c }
  | .pcword c => some { s with box := { s.box with pc := c.pc }, process := .pckind c }
  | .pckind c => some { s with box := { s.box with ev := .pc }, process := .pcpost c }
  | .pcpost c =>
      some { s with
        box := { s.box with state := .said }
        process := .ring c
        pcs := s.pcs ++ [c.pc] }
  | .rkind c => some { s with process := .rvalue c s.box.kind }
  | .rvalue c kind => some { s with process := .raux c kind s.box.value }
  | .raux c kind value => some { s with process := .clear c kind value s.box.aux }
  | .clear _ kind value aux =>
      let box := { s.box with state := .runs }
      some (
        if kind = .handler then { s with box := box, process := .noting kind value aux }
        else { s with box := box, process := .cleared, got := s.got ++ [⟨kind, value, aux, []⟩] })
  | .cleared => some { s.wakeKernel with process := .runs }
  | .noting kind value aux => some { s.wakeKernel with process := .note kind value aux }
  | .note kind value aux =>
      some { s with
        process := .runs
        got := s.got ++ [⟨kind, value, aux, s.box.text.take s.box.len⟩] }
  | .ttext m =>
      some { s with box := { s.box with text := setText s.box.text m.text }, process := .tlen m }
  | .tlen m => some { s with box := { s.box with len := m.text.length }, process := .tkind m }
  | .tkind m => some { s with box := { s.box with ev := m.ev }, process := .tpost m }
  | .tpost m =>
      some { s with
        box := { s.box with state := .said }
        process := .tring
        said := s.said ++ [m] }
  | .tring => some { s.wakeKernel with process := .over_ }
  | .runs | .asleep _ _ | .over_ => none

def took (s : State) (m : Message) : State :=
  { s with kernel := .has m, taken := s.taken ++ [m] }

/-- `wait`, `word`, `xferin`, `xfer`, `reply` and `gone`: what the kernel does next. -/
def kernelStep (s : State) : Option State :=
  match s.kernel with
  | .load q =>
      some { s with kernel := if s.box.state = .said then .ev q else .wait q s.box.state }
  | .wait q at_ =>
      some { s with kernel := if s.box.state = at_ then .asleep q at_ else .load q }
  | .ev none =>
      match s.box.ev with
      | .call | .forked => some { s with kernel := .words s.box.ev [] }
      | .fault => some { s with kernel := .len .fault }
      | .deliver | .exited | .yield => some (s.took ⟨s.box.ev, [], []⟩)
      | .time | .pc => some { s with kernel := .failed s.box.ev }
  | .ev (some m) => some { s with kernel := if s.box.ev = .pc then .pc m else .has m }
  | .words e ws =>
      if ws.length < 6 then
        some { s with kernel := .words e (ws ++ [s.box.words ws.length]) }
      else some (s.took ⟨e, ws, []⟩)
  | .len e => some { s with kernel := .text e (min s.box.len errmax) }
  | .text e n => some (s.took ⟨e, [], s.box.text.take n⟩)
  | .pc m => some { s with kernel := .has m, pcstaken := s.pcstaken ++ [s.box.pc] }
  | .xtext m a =>
      some { s with box := { s.box with text := setText s.box.text a.text }, kernel := .xlen m a }
  | .xlen m a => some { s with box := { s.box with len := a.text.length }, kernel := .kind m a }
  | .kind m a => some { s with box := { s.box with kind := a.kind }, kernel := .value m a }
  | .value m a => some { s with box := { s.box with value := a.value }, kernel := .aux m a }
  | .aux m a => some { s with box := { s.box with aux := a.aux }, kernel := .post m a }
  | .post m a =>
      let box := { s.box with state := .answered }
      some (
        if a.kind = .pc then { s with box := box, kernel := .ring (some m), asked := s.asked + 1 }
        else { s with box := box, kernel := .ring none, given := s.given ++ [a] })
  | .ring none => some { s.wakeProcess with kernel := .free }
  | .ring (some m) => some { s.wakeProcess with kernel := .load (some m) }
  | .gone => some { s with box := { s.box with gone := true }, kernel := .shut }
  | .shut => some { s with box := { s.box with state := .gone }, kernel := .woken }
  | .woken => some { s.wakeProcess with kernel := .left }
  | .free | .asleep _ _ | .has _ | .left | .failed _ => none

/-- The page's `gone`. -/
def pageStep (s : State) : Option State :=
  match s.page with
  | .still => some { s with box := { s.box with gone := true }, page := .shut }
  | .shut => some { s with box := { s.box with state := .gone }, page := .woken }
  | .woken => some { s.wakeProcess.wakeKernel with page := .done }
  | .done => none

/-- A wait that gives up: `run`'s, or `userpc`'s, which leaves its question open. One that slept
looks again first. -/
def timeout (s : State) : Option State :=
  match s.kernel with
  | .wait none _ => some { s with kernel := .free }
  | .wait (some m) _ => some { s with kernel := .has m, open_ := true }
  | .asleep q _ => some { s with kernel := .load q }
  | _ => none

def next (s : State) : Act → Option State
  | .say c => if s.process = .runs ∧ c.Sound then some { s with process := .fill c 0 } else none
  | .tell m => if s.process = .runs ∧ m.Told then some { s with process := .ttext m } else none
  | .process => s.processStep
  | .run => if s.kernel = .free then some { s with kernel := .load none } else none
  | .kernel => s.kernelStep
  | .timeout => s.timeout
  | .ask =>
      match s.kernel with
      | .has m => if m.ev = .call then some { s with kernel := .kind m ⟨.pc, 0, 0, []⟩ } else none
      | _ => none
  | .answer a =>
      match s.kernel with
      | .has m =>
          if m.ev ∈ [Ev.call, .deliver, .forked, .yield] ∧ a.kind ≠ .pc then
            if a.kind = .handler then some { s with kernel := .xtext m a }
            else if a.text = [] then some { s with kernel := .kind m a }
            else none
          else none
      | _ => none
  | .end_ =>
      match s.kernel with
      | .free | .has _ => some { s with kernel := .gone }
      | _ => none
  | .page => s.pageStep

def new : State where
  box := .new
  process := .runs
  kernel := .free
  page := .still
  open_ := false
  said := []
  taken := []
  given := []
  got := []
  asked := 0
  pcs := []
  pcstaken := []

end State

def trap : System State Act where
  init s := s = .new
  step s a s' := s.next a = some s'

end Ipnx.Host.Trap
