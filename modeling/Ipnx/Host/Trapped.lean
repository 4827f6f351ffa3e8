import Ipnx.Host.Trap

/-!
# The trap keeps what is said

At any time one of the two sides has the mailbox, and what has been said since the last answer is
at one `Stage`. So long as the kernel does nothing more for a process once it has given up on a
question, but end it, each message is taken once and answered once, whoever declares the process
gone.
-/

namespace Ipnx.Host.Trap

open List

def Process.Speaks : Process → Prop
  | .fill _ _ | .kind _ | .low _ | .post _ | .ttext _ | .tlen _ | .tkind _ | .tpost _ => True
  | _ => False

def Process.Locates : Process → Prop
  | .pcword _ | .pckind _ | .pcpost _ => True
  | _ => False

def Kernel.Answers : Kernel → Prop
  | .xtext _ _ | .xlen _ _ | .kind _ _ | .value _ _ | .aux _ _ | .post _ _ => True
  | _ => False

def State.Taken (s : State) : Prop :=
  s.taken.length = s.said.length ∧ s.pcstaken.length = s.pcs.length

/-- What it is answered, and asked, is taken. -/
def State.Got (s : State) : Prop := s.got.length = s.given.length ∧ s.pcs.length = s.asked

/-- Each message is taken once, as it was said, and answered once, before the next; the answers gone
on with are those given; where it is is said once for each question, and taken by the one who asked.
What one side stores, it stores over nothing the other has to take; and what the kernel's `run`
meets it has a case for. -/
structure Exact (s : State) : Prop where
  taken : s.taken <+: s.said.map Message.cut
  got : s.got <+: s.given
  pcs : s.pcstaken <+: s.pcs
  turns : s.got.length ≤ s.given.length ∧ s.given.length ≤ s.taken.length ∧
    s.taken.length ≤ s.said.length ∧ s.said.length ≤ s.got.length + 1
  questions : s.pcstaken.length ≤ s.pcs.length ∧ s.pcs.length ≤ s.asked ∧
    s.asked ≤ s.pcstaken.length + 1
  speaks : s.process.Speaks → s.Taken ∧ s.Got
  locates : s.process.Locates → s.Taken ∧ s.got.length = s.given.length
  answers : s.kernel.Answers → s.Taken ∧ s.Got
  cases : ∀ e, s.kernel ≠ .failed e

/-- With a question it gave up on still open, the kernel neither answers nor asks. -/
def Orderly (s : State) : Act → Prop
  | .ask | .answer _ => s.open_ = false
  | _ => True

instance (s : State) (a : Act) : Decidable (Orderly s a) := by
  unfold Orderly
  split <;> infer_instance

/-- Nothing is said; it is said, taken, asked of and located; it is answered; or it is gone on with
and a note's text is still to be read. -/
inductive Stage
  | quiet
  | said (m : Message)
  | held (m : Message)
  | asked (m : Message)
  | located (m : Message)
  | given (m : Message) (a : Answer)
  | noting (a : Answer)

namespace Stage

/-- What `I[0]` says of it. -/
def mark : Stage → Mark
  | quiet | noting _ => .runs
  | said _ | held _ | located _ => .said
  | asked _ | given _ _ => .answered

def Idle : Stage → Prop
  | quiet | given _ _ | noting _ => True
  | _ => False

def Waits (m : Message) (st : Stage) : Prop :=
  st = said m ∨ st = held m ∨ st = asked m ∨ st = located m ∨ ∃ a, st = given m a

/-- The kernel waits in `userpc` for where the process is, or in `run`, with nothing in hand. -/
def Due (st : Stage) : Option Message → Prop
  | none => st.Idle ∨ ∃ m, st = said m
  | some m => st = asked m ∨ st = located m

def Told (st : Stage) : Option Message → Prop
  | none => ∃ m, st = said m
  | some m => st = located m

end Stage

def Filled (b : Box) (m : Message) (k : Nat) : Prop := ∀ j < k, b.words j = m.words.getD j 0

/-- What the kernel has a case for, with as much of it as it takes. -/
structure Message.Proper (m : Message) : Prop where
  ev : m.ev ≠ .time ∧ m.ev ≠ .pc
  words : m.words.length = m.ev.words
  text : m.ev ≠ .fault → m.text = []

/-- What a handler's note says is in the transfer. -/
def Noted (b : Box) (a : Answer) : Prop :=
  (a.kind = .handler → b.text.take b.len = a.text) ∧ (a.kind ≠ .handler → a.text = [])

def Stage.Holds (b : Box) : Stage → Prop
  | .quiet | .held _ => True
  | .said m =>
      m.Proper ∧ b.ev = m.ev ∧ Filled b m m.words.length ∧
        (m.ev = .fault → b.text.take (min b.len errmax) = m.text)
  | .asked _ => b.kind = .pc
  | .located _ => b.ev = .pc
  | .given _ a =>
      a.kind ≠ .pc ∧ b.kind = a.kind ∧ b.value = a.value ∧ b.aux = a.aux ∧ Noted b a
  | .noting a => a.kind = .handler ∧ Noted b a

/-- What was said and given, and how much was taken. -/
def Turns (s : State) (said : List Message) (given : List Answer) (n : Nat) : Prop :=
  s.said.map Message.cut = said ∧ s.given = given ∧ s.taken.length = n

/-- What was asked and said of where the process is. -/
def Places (s : State) (pcs : List UInt64) (asked : Nat) : Prop := s.pcs = pcs ∧ s.asked = asked

/-- What was said, taken, given and gone on with at a stage. -/
def Stage.History (s : State) : Stage → Prop
  | .quiet => Turns s s.taken s.got s.got.length ∧ Places s s.pcstaken s.pcstaken.length
  | .said m =>
      Turns s (s.taken ++ [m]) s.got s.got.length ∧ Places s s.pcstaken s.pcstaken.length
  | .held _ => Turns s s.taken s.got (s.got.length + 1) ∧ Places s s.pcstaken s.pcstaken.length
  | .asked _ =>
      Turns s s.taken s.got (s.got.length + 1) ∧ Places s s.pcstaken (s.pcstaken.length + 1)
  | .located _ =>
      Turns s s.taken s.got (s.got.length + 1) ∧
        Places s (s.pcstaken ++ [s.box.pc]) (s.pcstaken.length + 1)
  | .given _ a | .noting a =>
      Turns s s.taken (s.got ++ [a]) (s.got.length + 1) ∧ Places s s.pcstaken s.pcstaken.length

/-- Where the process's worker is at a stage, and what it has stored or read. -/
def Process.Fits (st : Stage) (b : Box) : Process → Prop
  | .runs | .cleared => st = .quiet
  | .fill c k => st = .quiet ∧ c.Sound ∧ k ≤ c.msg.words.length ∧ Filled b c.msg k
  | .kind c => st = .quiet ∧ c.Sound ∧ Filled b c.msg c.msg.words.length
  | .low c | .post c =>
      st = .quiet ∧ c.Sound ∧ Filled b c.msg c.msg.words.length ∧ b.ev = c.msg.ev
  | .ring c | .load c | .check c _ | .wait c _ | .asleep c _ => st.Waits c.msg
  | .judge c => st = .asked c.msg ∨ ∃ a, st = .given c.msg a
  | .pcword c => st = .asked c.msg
  | .pckind c => st = .asked c.msg ∧ b.pc = c.pc
  | .pcpost c => st = .asked c.msg ∧ b.pc = c.pc ∧ b.ev = .pc
  | .rkind c => ∃ a, st = .given c.msg a
  | .rvalue c knd => ∃ a, st = .given c.msg a ∧ knd = a.kind
  | .raux c knd val => ∃ a, st = .given c.msg a ∧ knd = a.kind ∧ val = a.value
  | .clear c knd val ax => ∃ a, st = .given c.msg a ∧ knd = a.kind ∧ val = a.value ∧ ax = a.aux
  | .noting knd val ax | .note knd val ax =>
      ∃ a, st = .noting a ∧ knd = a.kind ∧ val = a.value ∧ ax = a.aux
  | .ttext m => st = .quiet ∧ m.Told
  | .tlen m => st = .quiet ∧ m.Told ∧ b.text.take m.text.length = m.text
  | .tkind m => st = .quiet ∧ m.Told ∧ b.text.take m.text.length = m.text ∧ b.len = m.text.length
  | .tpost m =>
      st = .quiet ∧ m.Told ∧ b.text.take m.text.length = m.text ∧ b.len = m.text.length ∧
        b.ev = m.ev
  | .tring | .over_ => True

def Kernel.Fits (st : Stage) (b : Box) (stale : Bool) : Kernel → Prop
  | .free => st.Due none
  | .load q | .wait q _ | .asleep q _ | .ring q => st.Due q
  | .ev q => st.Told q
  | .pc m => st = .located m
  | .words e ws =>
      ∃ m, st = .said m ∧ e = m.ev ∧ e.words = 6 ∧ ws.length ≤ 6 ∧ ws = m.words.take ws.length
  | .len e => ∃ m, st = .said m ∧ e = m.ev ∧ e = .fault
  | .text e n => ∃ m, st = .said m ∧ e = m.ev ∧ e = .fault ∧ n = min b.len errmax
  | .has m => st = .held m ∨ stale = true ∧ st.Due (some m)
  | .xtext m a => st = .held m ∧ a.kind = .handler
  | .xlen m a => st = .held m ∧ a.kind = .handler ∧ b.text.take a.text.length = a.text
  | .kind m a => st = .held m ∧ Noted b a
  | .value m a => st = .held m ∧ Noted b a ∧ b.kind = a.kind
  | .aux m a => st = .held m ∧ Noted b a ∧ b.kind = a.kind ∧ b.value = a.value
  | .post m a => st = .held m ∧ Noted b a ∧ b.kind = a.kind ∧ b.value = a.value ∧ b.aux = a.aux
  | .gone | .shut | .woken | .left => True
  | .failed _ => False

structure At (st : Stage) (s : State) : Prop where
  mark : s.box.state = st.mark ∨ s.box.state = .gone
  holds : st.Holds s.box
  history : st.History s
  process : s.process.Fits st s.box
  kernel : s.kernel.Fits st s.box s.open_

variable {s s' : State} {st st' : Stage} {b b' : Box} {m : Message} {o : Bool}

theorem Process.Fits.waits {p : Process} (fits : p.Fits st b)
    (on : st = .said m ∨ st = .held m ∨ st = .located m) (waits : st'.Waits m) : p.Fits st' b' := by
  have on_ {m' : Message} (w : st.Waits m') : st'.Waits m' := by
    have same : m' = m := by
      rcases on with rfl | rfl | rfl <;> rcases w with w | w | w | w | ⟨a, w⟩ <;> cases w <;> rfl
    exact same ▸ waits
  cases p with
  | ring c => exact on_ fits
  | load c => exact on_ fits
  | check c at_ => exact on_ fits
  | wait c at_ => exact on_ fits
  | asleep c at_ => exact on_ fits
  | tring => exact trivial
  | over_ => exact trivial
  | _ => rcases on with rfl | rfl | rfl <;> simp [Process.Fits] at fits

theorem Kernel.Fits.idle {k : Kernel} (fits : k.Fits st b o) (idle : st.Idle)
    (due : st'.Due none) : k.Fits st' b' o := by
  have none_due {q : Option Message} (d : st.Due q) : st'.Due q := by
    cases q with
    | none => exact due
    | some m => rcases d with rfl | rfl <;> exact idle.elim
  cases k with
  | free => exact due
  | load q => exact none_due fits
  | wait q at_ => exact none_due fits
  | asleep q at_ => exact none_due fits
  | ring q => exact none_due fits
  | gone | shut | woken | left => exact trivial
  | failed e => exact fits
  | ev q => cases q <;> cases st <;> simp_all [Kernel.Fits, Stage.Told, Stage.Idle]
  | _ => cases st <;> simp_all [Kernel.Fits, Stage.Due, Stage.Idle]

theorem Kernel.Fits.asked {k : Kernel} (fits : k.Fits (.asked m) b o)
    (on : st' = .asked m ∨ st' = .located m) : k.Fits st' b' o := by
  have due {q : Option Message} (d : (Stage.asked m).Due q) : st'.Due q := by
    cases q with
    | none =>
        rcases d with d | ⟨m', d⟩
        · exact d.elim
        · cases d
    | some m' =>
        have same : m = m' := by simpa [Stage.Due] using d
        exact same ▸ on
  cases k with
  | load q => exact due fits
  | wait q at_ => exact due fits
  | asleep q at_ => exact due fits
  | ring q => exact due fits
  | free =>
      rcases fits with fits | ⟨m', fits⟩
      · exact fits.elim
      · cases fits
  | has m' =>
      rcases fits with fits | ⟨open_, fits⟩
      · cases fits
      · exact .inr ⟨open_, due fits⟩
  | gone | shut | woken | left => exact trivial
  | failed e => exact fits
  | ev q => cases q <;> simp [Kernel.Fits, Stage.Told] at fits
  | _ => simp [Kernel.Fits] at fits

theorem Filled.succ {k : Nat} (filled : Filled b m k) :
    Filled { b with words := Function.update b.words k (m.words.getD k 0) } m (k + 1) := by
  intro j below
  by_cases last : j = k
  · subst last
    exact Function.update_self ..
  · calc Function.update b.words k (m.words.getD k 0) j
        = b.words j := Function.update_of_ne last ..
      _ = m.words.getD j 0 := filled j (by omega)

theorem Filled.take_succ {k : Nat} (filled : Filled b m m.words.length)
    (more : k < m.words.length) : m.words.take (k + 1) = m.words.take k ++ [b.words k] := by
  have word : m.words.getD k 0 = m.words[k] := by simp [more]
  rw [filled k more, word, take_succ_eq_append_getElem more]

theorem take_setText (old new : Bytes) : (setText old new).take new.length = new := by
  simp [setText]

theorem Call.Sound.cut {c : Call} (sound : c.Sound) : c.msg.cut = c.msg := by
  cases c with
  | mk msg low pc =>
      cases msg with
      | mk ev words text =>
          have empty : text = [] := sound.2.2
          simp [Message.cut, empty]

theorem Call.Sound.proper {c : Call} (sound : c.Sound) : c.msg.Proper where
  ev := by
    have among := sound.1
    constructor <;> intro same <;> simp [same] at among
  words := sound.2.1
  text _ := sound.2.2

theorem Message.Told.proper (told : m.Told) : m.cut.Proper where
  ev := by
    have among := told.1
    constructor <;> intro same <;> simp_all [Message.cut]
  words := by
    have among : m.ev = .exited ∨ m.ev = .fault := by simpa using told.1
    rcases among with same | same <;> simp [Message.cut, told.2.1, same, Ev.words]
  text other := by
    have among : m.ev = .exited ∨ m.ev = .fault := by simpa using told.1
    rcases among with same | same
    · simp [Message.cut, told.2.2 same]
    · exact absurd same other

namespace At

theorem go {p : Process} (at_ : At st s) (fits : p.Fits st s.box) :
    At st { s with process := p } where
  __ := at_
  process := fits

theorem turn {k : Kernel} (at_ : At st s) (fits : k.Fits st s.box s.open_) :
    At st { s with kernel := k } where
  __ := at_
  kernel := fits

theorem wakeKernel (at_ : At st s) : At st s.wakeKernel := by
  rw [State.wakeKernel]
  split
  case h_1 q mark asleep =>
    apply at_.turn
    have fits := at_.kernel
    rw [asleep] at fits
    exact fits
  case h_2 => exact at_

theorem wakeProcess (at_ : At st s) : At st s.wakeProcess := by
  rw [State.wakeProcess]
  split
  case h_1 c mark asleep =>
    apply at_.go
    have fits := at_.process
    rw [asleep] at fits
    exact fits
  case h_2 => exact at_

theorem store {p : Process} (at_ : At .quiet s) (b : Box) (same : b.state = s.box.state)
    (fits : p.Fits .quiet b) : At .quiet { s with box := b, process := p } where
  mark := same ▸ at_.mark
  holds := trivial
  history := at_.history
  process := fits
  kernel := at_.kernel.idle trivial (.inl trivial)

theorem locate {p : Process} (at_ : At (.asked m) s) (b : Box) (same : b.state = s.box.state)
    (kept : b.kind = s.box.kind) (fits : p.Fits (.asked m) b) :
    At (.asked m) { s with box := b, process := p } where
  mark := same ▸ at_.mark
  holds := kept.trans at_.holds
  history := at_.history
  process := fits
  kernel := at_.kernel.asked (.inl rfl)

theorem say {p : Process} (at_ : At .quiet s) (proper : m.cut.Proper) (ev : s.box.ev = m.ev)
    (filled : Filled s.box m.cut m.words.length)
    (text : m.ev = .fault → s.box.text.take (min s.box.len errmax) = m.cut.text)
    (fits : p.Fits (.said m.cut) { s.box with state := .said }) :
    At (.said m.cut)
      { s with box := { s.box with state := .said }, process := p, said := s.said ++ [m] } where
  mark := .inl rfl
  holds := ⟨proper, ev, filled, text⟩
  history := by
    rcases at_.history with ⟨⟨said, given, taken⟩, places⟩
    refine ⟨⟨?_, given, taken⟩, places⟩
    simp [said]
  process := fits
  kernel := at_.kernel.idle trivial (.inr ⟨_, rfl⟩)

theorem place {c : Call} (at_ : At (.asked c.msg) s) (pc : s.box.pc = c.pc) (ev : s.box.ev = .pc) :
    At (.located c.msg)
      { s with
        box := { s.box with state := .said }
        process := .ring c
        pcs := s.pcs ++ [c.pc] } where
  mark := .inl rfl
  holds := ev
  history := by
    rcases at_.history with ⟨turns, pcs, asked⟩
    refine ⟨turns, ?_, asked⟩
    simp [pcs, pc]
  process := .inr (.inr (.inr (.inl rfl)))
  kernel := at_.kernel.asked (.inr rfl)

theorem answered {a : Answer} (at_ : At (.given m a) s) (plain : a.kind ≠ .handler) :
    At .quiet
      { s with
        box := { s.box with state := .runs }
        process := .cleared
        got := s.got ++ [⟨a.kind, a.value, a.aux, []⟩] } where
  mark := .inl rfl
  holds := trivial
  history := by
    rcases at_.history with ⟨⟨said, given, taken⟩, places⟩
    have text : a.text = [] := at_.holds.2.2.2.2.2 plain
    refine ⟨⟨said, ?_, ?_⟩, places⟩
    · simp [given, ← text]
    · simp [taken]
  process := rfl
  kernel := at_.kernel.idle trivial (.inl trivial)

theorem notes {a : Answer} (at_ : At (.given m a) s) (handler : a.kind = .handler) :
    At (.noting a)
      { s with box := { s.box with state := .runs }, process := .noting a.kind a.value a.aux } where
  mark := .inl rfl
  holds := ⟨handler, at_.holds.2.2.2.2⟩
  history := at_.history
  process := ⟨a, rfl, rfl, rfl, rfl⟩
  kernel := at_.kernel.idle trivial (.inl trivial)

theorem noted {a : Answer} (at_ : At (.noting a) s) :
    At .quiet
      { s with
        process := .runs
        got := s.got ++ [⟨a.kind, a.value, a.aux, s.box.text.take s.box.len⟩] } where
  mark := at_.mark
  holds := trivial
  history := by
    rcases at_.history with ⟨⟨said, given, taken⟩, places⟩
    have text : s.box.text.take s.box.len = a.text := at_.holds.2.1 at_.holds.1
    refine ⟨⟨said, ?_, ?_⟩, places⟩
    · simp [given, text]
    · simp [taken]
  process := rfl
  kernel := at_.kernel.idle trivial (.inl trivial)

theorem found (at_ : At st s) (waits : st.Waits m) (mark : s.box.state = .answered) :
    st = .asked m ∨ ∃ a, st = .given m a := by
  have at_mark : st.mark = .answered := by
    rcases at_.mark with same | gone
    · exact same.symm.trans mark
    · exact absurd (gone.symm.trans mark) (by decide)
  rcases waits with rfl | rfl | rfl | rfl | ⟨a, rfl⟩
  · cases at_mark
  · cases at_mark
  · exact .inl rfl
  · cases at_mark
  · exact .inr ⟨a, rfl⟩

theorem processStep (at_ : At st s) (step : s.processStep = some s') : ∃ st', At st' s' := by
  have fits := at_.process
  rw [State.processStep] at step
  generalize named : s.process = p at step fits
  cases p with
  | runs => cases step
  | fill c k =>
      rcases fits with ⟨rfl, sound, within, filled⟩
      simp only at step
      split_ifs at step with more
      · cases step
        exact ⟨_, at_.store _ rfl ⟨rfl, sound, more, filled.succ⟩⟩
      · cases step
        have all : k = c.msg.words.length := by omega
        exact ⟨_, at_.go ⟨rfl, sound, all ▸ filled⟩⟩
  | kind c =>
      rcases fits with ⟨rfl, sound, filled⟩
      cases step
      exact ⟨_, at_.store _ rfl ⟨rfl, sound, filled, rfl⟩⟩
  | low c =>
      rcases fits with ⟨rfl, sound, filled, ev⟩
      cases step
      exact ⟨_, at_.store _ rfl ⟨rfl, sound, filled, ev⟩⟩
  | post c =>
      rcases fits with ⟨rfl, sound, filled, ev⟩
      cases step
      refine ⟨.said c.msg.cut, at_.say ?_ ev ?_ ?_ ?_⟩
      · exact sound.cut.symm ▸ sound.proper
      · exact sound.cut.symm ▸ filled
      · intro fault
        exact absurd sound.1 (by simp [fault])
      · exact .inl (congrArg _ sound.cut)
  | ring c =>
      cases step
      apply Exists.intro st
      apply at_.wakeKernel.go
      exact fits
  | load c =>
      cases step
      apply Exists.intro st
      apply at_.go
      split_ifs with answered
      · exact at_.found fits answered
      · exact fits
  | check c mark =>
      cases step
      apply Exists.intro st
      apply at_.go
      split_ifs
      · exact trivial
      · exact fits
  | wait c mark =>
      cases step
      apply Exists.intro st
      apply at_.go
      split_ifs <;> exact fits
  | asleep c mark => cases step
  | judge c =>
      cases step
      apply Exists.intro st
      apply at_.go
      rcases fits with rfl | ⟨a, rfl⟩
      · have asks : s.box.kind = .pc := at_.holds
        rw [if_pos asks]
        exact rfl
      · have answers : s.box.kind ≠ .pc := by
          rw [at_.holds.2.1]
          exact at_.holds.1
        rw [if_neg answers]
        exact ⟨a, rfl⟩
  | pcword c =>
      cases fits
      cases step
      exact ⟨_, at_.locate _ rfl rfl ⟨rfl, rfl⟩⟩
  | pckind c =>
      rcases fits with ⟨rfl, pc⟩
      cases step
      exact ⟨_, at_.locate _ rfl rfl ⟨rfl, pc, rfl⟩⟩
  | pcpost c =>
      rcases fits with ⟨rfl, pc, ev⟩
      cases step
      exact ⟨_, at_.place pc ev⟩
  | rkind c =>
      rcases fits with ⟨a, rfl⟩
      cases step
      exact ⟨_, at_.go ⟨a, rfl, at_.holds.2.1⟩⟩
  | rvalue c knd =>
      rcases fits with ⟨a, rfl, same⟩
      cases step
      exact ⟨_, at_.go ⟨a, rfl, same, at_.holds.2.2.1⟩⟩
  | raux c knd val =>
      rcases fits with ⟨a, rfl, same, value⟩
      cases step
      exact ⟨_, at_.go ⟨a, rfl, same, value, at_.holds.2.2.2.1⟩⟩
  | clear c knd val ax =>
      rcases fits with ⟨a, rfl, rfl, rfl, rfl⟩
      simp only at step
      split_ifs at step with handler
      · cases step
        exact ⟨_, at_.notes handler⟩
      · cases step
        exact ⟨_, at_.answered handler⟩
  | cleared =>
      cases fits
      cases step
      exact ⟨_, at_.wakeKernel.go rfl⟩
  | noting knd val ax =>
      cases step
      apply Exists.intro st
      apply at_.wakeKernel.go
      exact fits
  | note knd val ax =>
      rcases fits with ⟨a, rfl, rfl, rfl, rfl⟩
      cases step
      exact ⟨_, at_.noted⟩
  | ttext m =>
      rcases fits with ⟨rfl, told⟩
      cases step
      exact ⟨_, at_.store _ rfl ⟨rfl, told, take_setText _ _⟩⟩
  | tlen m =>
      rcases fits with ⟨rfl, told, text⟩
      cases step
      exact ⟨_, at_.store _ rfl ⟨rfl, told, text, rfl⟩⟩
  | tkind m =>
      rcases fits with ⟨rfl, told, text, len⟩
      cases step
      exact ⟨_, at_.store _ rfl ⟨rfl, told, text, len, rfl⟩⟩
  | tpost m =>
      rcases fits with ⟨rfl, told, text, len, ev⟩
      cases step
      refine ⟨.said m.cut, at_.say told.proper ev ?_ ?_ trivial⟩
      · intro j below
        rw [told.2.1] at below
        exact absurd below (Nat.not_lt_zero j)
      · intro fault
        calc s.box.text.take (min s.box.len errmax)
            = (s.box.text.take m.text.length).take errmax := by
              rw [take_take, len, Nat.min_comm]
          _ = m.cut.text := by rw [text]; rfl
  | tring =>
      cases step
      exact ⟨_, at_.wakeKernel.go trivial⟩
  | over_ => cases step

theorem fill {k : Kernel} (at_ : At (.held m) s) (b : Box) (same : b.state = s.box.state)
    (fits : k.Fits (.held m) b s.open_) : At (.held m) { s with box := b, kernel := k } where
  mark := same ▸ at_.mark
  holds := trivial
  history := at_.history
  process := at_.process.waits (.inr (.inl rfl)) (.inr (.inl rfl))
  kernel := fits

theorem took (at_ : At (.said m) s) : At (.held m) (s.took m) where
  mark := at_.mark
  holds := trivial
  history := by
    rcases at_.history with ⟨⟨said, given, taken⟩, places⟩
    refine ⟨⟨said, given, ?_⟩, places⟩
    simp [State.took, taken]
  process := at_.process.waits (.inl rfl) (.inr (.inl rfl))
  kernel := .inl rfl

theorem asks (at_ : At (.held m) s) (kind : s.box.kind = .pc) :
    At (.asked m)
      { s with
        box := { s.box with state := .answered }
        kernel := .ring (some m)
        asked := s.asked + 1 } where
  mark := .inl rfl
  holds := kind
  history := by
    rcases at_.history with ⟨turns, pcs, asked⟩
    exact ⟨turns, pcs, congrArg (· + 1) asked⟩
  process := at_.process.waits (.inr (.inl rfl)) (.inr (.inr (.inl rfl)))
  kernel := .inl rfl

theorem gives {a : Answer} (at_ : At (.held m) s) (plain : a.kind ≠ .pc) (noted : Noted s.box a)
    (kind : s.box.kind = a.kind) (value : s.box.value = a.value) (aux : s.box.aux = a.aux) :
    At (.given m a)
      { s with
        box := { s.box with state := .answered }
        kernel := .ring none
        given := s.given ++ [a] } where
  mark := .inl rfl
  holds := ⟨plain, kind, value, aux, noted⟩
  history := by
    rcases at_.history with ⟨⟨said, given, taken⟩, places⟩
    exact ⟨⟨said, congrArg (· ++ [a]) given, taken⟩, places⟩
  process := at_.process.waits (.inr (.inl rfl)) (.inr (.inr (.inr (.inr ⟨a, rfl⟩))))
  kernel := .inl trivial

theorem placed (at_ : At (.located m) s) :
    At (.held m) { s with kernel := .has m, pcstaken := s.pcstaken ++ [s.box.pc] } where
  mark := at_.mark
  holds := trivial
  history := by
    rcases at_.history with ⟨turns, pcs, asked⟩
    refine ⟨turns, pcs, ?_⟩
    simp [asked]
  process := at_.process.waits (.inr (.inr rfl)) (.inr (.inl rfl))
  kernel := .inl rfl

theorem shut (at_ : At st s) : At st { s with box := { s.box with gone := true } } where
  __ := at_

theorem leave (at_ : At st s) : At st { s with box := { s.box with state := .gone } } where
  __ := at_
  mark := .inr rfl

theorem told {q : Option Message} (at_ : At st s) (due : st.Due q) (mark : s.box.state = .said) :
    st.Told q := by
  have at_mark : st.mark = .said := by
    rcases at_.mark with same | gone
    · exact same.symm.trans mark
    · exact absurd (gone.symm.trans mark) (by decide)
  cases q with
  | none =>
      rcases due with idle | said
      · cases st with
        | quiet | noting _ | given _ _ => cases at_mark
        | said m | held m | asked m | located m => exact idle.elim
      · exact said
  | some m =>
      rcases due with rfl | located
      · cases at_mark
      · exact located

theorem meets (at_ : At (.said m) s) (named : s.kernel = .ev none)
    (step : s.kernelStep = some s') : ∃ st', At st' s' := by
  rw [State.kernelStep, named] at step
  rcases at_.holds with ⟨proper, ev, filled, text⟩
  simp only [ev] at step
  have whole (other : m.ev ≠ .fault) (none : m.ev.words = 0) : (⟨m.ev, [], []⟩ : Message) = m := by
    have words : m.words = [] := eq_nil_of_length_eq_zero (proper.words.trans none)
    rw [← words, ← proper.text other]
  generalize called : m.ev = e at step whole
  cases e with
  | time => exact absurd called proper.ev.1
  | pc => exact absurd called proper.ev.2
  | call | forked =>
      cases step
      exact ⟨_, at_.turn ⟨m, rfl, called.symm, rfl, Nat.zero_le _, rfl⟩⟩
  | fault =>
      cases step
      exact ⟨_, at_.turn ⟨m, rfl, called.symm, rfl⟩⟩
  | deliver | exited | yield =>
      cases step
      rw [whole (by decide) rfl]
      exact ⟨_, at_.took⟩

theorem kernelStep (at_ : At st s) (step : s.kernelStep = some s') : ∃ st', At st' s' := by
  have fits := at_.kernel
  have moved := step
  rw [State.kernelStep] at step
  generalize named : s.kernel = k at step fits
  cases k with
  | free => cases step
  | load q =>
      cases step
      apply Exists.intro st
      apply at_.turn
      split_ifs with said
      · exact at_.told fits said
      · exact fits
  | wait q mark =>
      cases step
      apply Exists.intro st
      apply at_.turn
      split_ifs <;> exact fits
  | asleep q mark => cases step
  | ev q =>
      cases q with
      | none =>
          rcases fits with ⟨m, rfl⟩
          exact at_.meets named moved
      | some m =>
          cases fits
          cases step
          have pc : s.box.ev = .pc := at_.holds
          rw [if_pos pc]
          exact ⟨_, at_.turn rfl⟩
  | words e ws =>
      rcases fits with ⟨m, rfl, rfl, six, within, taken⟩
      rcases at_.holds with ⟨proper, ev, filled, text⟩
      have count : m.words.length = 6 := proper.words.trans six
      simp only at step
      split_ifs at step with more
      · cases step
        refine ⟨_, at_.turn ⟨m, rfl, rfl, six, ?_, ?_⟩⟩
        · simp only [length_append, length_singleton]
          omega
        · have next := filled.take_succ (count.symm ▸ more)
          simpa [← taken] using next.symm
      · cases step
        have all : ws = m.words := by
          rw [taken]
          exact take_of_length_le (by omega)
        have plain : m.text = [] := proper.text fun fault => by simp [fault, Ev.words] at six
        have same : (⟨m.ev, ws, []⟩ : Message) = m := by rw [all, ← plain]
        exact ⟨_, same.symm ▸ at_.took⟩
  | len e =>
      rcases fits with ⟨m, rfl, rfl, fault⟩
      cases step
      exact ⟨_, at_.turn ⟨m, rfl, rfl, fault, rfl⟩⟩
  | text e n =>
      rcases fits with ⟨m, rfl, rfl, fault, rfl⟩
      rcases at_.holds with ⟨proper, ev, filled, text⟩
      cases step
      have words : m.words = [] := eq_nil_of_length_eq_zero (by rw [proper.words, fault]; rfl)
      have same : (⟨m.ev, [], s.box.text.take (min s.box.len errmax)⟩ : Message) = m := by
        rw [text fault, ← words]
      exact ⟨_, same.symm ▸ at_.took⟩
  | has m => cases step
  | pc m =>
      cases fits
      cases step
      exact ⟨_, at_.placed⟩
  | xtext m a =>
      rcases fits with ⟨rfl, handler⟩
      cases step
      exact ⟨_, at_.fill _ rfl ⟨rfl, handler, take_setText _ _⟩⟩
  | xlen m a =>
      rcases fits with ⟨rfl, handler, text⟩
      cases step
      exact ⟨_, at_.fill _ rfl ⟨rfl, fun _ => text, fun plain => absurd handler plain⟩⟩
  | kind m a =>
      rcases fits with ⟨rfl, noted⟩
      cases step
      exact ⟨_, at_.fill _ rfl ⟨rfl, noted, rfl⟩⟩
  | value m a =>
      rcases fits with ⟨rfl, noted, kind⟩
      cases step
      exact ⟨_, at_.fill _ rfl ⟨rfl, noted, kind, rfl⟩⟩
  | aux m a =>
      rcases fits with ⟨rfl, noted, kind, value⟩
      cases step
      exact ⟨_, at_.fill _ rfl ⟨rfl, noted, kind, value, rfl⟩⟩
  | post m a =>
      rcases fits with ⟨rfl, noted, kind, value, aux⟩
      simp only at step
      split_ifs at step with asks
      · cases step
        exact ⟨_, at_.asks (kind.trans asks)⟩
      · cases step
        exact ⟨_, at_.gives asks noted kind value aux⟩
  | ring q =>
      cases q with
      | none =>
          cases step
          exact ⟨_, at_.wakeProcess.turn fits⟩
      | some m =>
          cases step
          exact ⟨_, at_.wakeProcess.turn fits⟩
  | gone =>
      cases step
      exact ⟨_, at_.shut.turn trivial⟩
  | shut =>
      cases step
      exact ⟨_, at_.leave.turn trivial⟩
  | woken =>
      cases step
      exact ⟨_, at_.wakeProcess.turn trivial⟩
  | left => cases step
  | failed e => cases step

theorem paged {p : Page} (at_ : At st s) : At st { s with page := p } where
  __ := at_

theorem giveUp (at_ : At st s) (due : st.Due (some m)) :
    At st { s with kernel := .has m, open_ := true } where
  __ := at_
  kernel := .inr ⟨rfl, due⟩

theorem pageStep (at_ : At st s) (step : s.pageStep = some s') : At st s' := by
  rw [State.pageStep] at step
  cases named : s.page <;> rw [named] at step <;> cases step
  case still => exact at_.shut.paged
  case shut => exact at_.leave.paged
  case woken => exact at_.wakeProcess.wakeKernel.paged

theorem timeout (at_ : At st s) (step : s.timeout = some s') : At st s' := by
  have fits := at_.kernel
  rw [State.timeout] at step
  generalize named : s.kernel = k at step fits
  split at step
  case h_1 mark =>
    cases step
    exact at_.turn fits
  case h_2 m mark =>
    cases step
    exact at_.giveUp fits
  case h_3 q mark =>
    cases step
    exact at_.turn fits
  case h_4 => cases step

theorem owes (at_ : At st s) (shut : s.open_ = false) (has : s.kernel = .has m) :
    st = .held m := by
  have fits := at_.kernel
  rw [has] at fits
  rcases fits with held | ⟨left, due⟩
  · exact held
  · exact absurd (shut.symm.trans left) (by decide)

theorem next {a : Act} (at_ : At st s) (orderly : Orderly s a) (step : s.next a = some s') :
    ∃ st', At st' s' := by
  cases a with
  | say c =>
      simp only [State.next] at step
      split_ifs at step with may
      cases step
      have fits := at_.process
      rw [may.1] at fits
      cases fits
      exact ⟨_, at_.go ⟨rfl, may.2, Nat.zero_le _, fun j below => absurd below (Nat.not_lt_zero j)⟩⟩
  | tell m =>
      simp only [State.next] at step
      split_ifs at step with may
      cases step
      have fits := at_.process
      rw [may.1] at fits
      cases fits
      exact ⟨_, at_.go ⟨rfl, may.2⟩⟩
  | process => exact at_.processStep step
  | run =>
      simp only [State.next] at step
      split_ifs at step with free
      cases step
      have fits := at_.kernel
      rw [free] at fits
      exact ⟨st, at_.turn fits⟩
  | kernel => exact at_.kernelStep step
  | timeout => exact ⟨st, at_.timeout step⟩
  | ask =>
      simp only [State.next] at step
      split at step
      case h_1 m has =>
        split_ifs at step with call
        cases step
        cases at_.owes orderly has
        exact ⟨_, at_.turn ⟨rfl, fun note => absurd note (by decide), fun _ => rfl⟩⟩
      case h_2 => cases step
  | answer a =>
      simp only [State.next] at step
      split at step
      case h_1 m has =>
        cases at_.owes orderly has
        split_ifs at step with may handler empty
        · cases step
          exact ⟨_, at_.turn ⟨rfl, handler⟩⟩
        · cases step
          exact ⟨_, at_.turn ⟨rfl, fun note => absurd note handler, fun _ => empty⟩⟩
      case h_2 => cases step
  | end_ =>
      simp only [State.next] at step
      split at step <;> cases step <;> exact ⟨st, at_.turn trivial⟩
  | page => exact ⟨st, at_.pageStep step⟩

end At

theorem At.new : At .quiet .new where
  mark := .inl rfl
  holds := trivial
  history := ⟨⟨rfl, rfl, rfl⟩, rfl, rfl⟩
  process := rfl
  kernel := .inl trivial

namespace At

theorem turns (at_ : At st s) :
    s.taken <+: s.said.map Message.cut ∧ s.got <+: s.given ∧
      s.got.length ≤ s.given.length ∧ s.given.length ≤ s.taken.length ∧
        s.taken.length ≤ s.said.length ∧ s.said.length ≤ s.got.length + 1 := by
  have history := at_.history
  have count : (s.said.map Message.cut).length = s.said.length := length_map ..
  cases st <;> rcases history with ⟨⟨said, given, taken⟩, -⟩ <;> rw [said] at count ⊢ <;>
    rw [given] <;> simp at count ⊢ <;> omega

theorem places (at_ : At st s) :
    s.pcstaken <+: s.pcs ∧ s.pcstaken.length ≤ s.pcs.length ∧ s.pcs.length ≤ s.asked ∧
      s.asked ≤ s.pcstaken.length + 1 := by
  have history := at_.history
  cases st <;> rcases history with ⟨-, pcs, asked⟩ <;> rw [pcs, asked] <;> simp

theorem speaks (at_ : At st s) (speaks : s.process.Speaks) : st = .quiet := by
  have fits := at_.process
  generalize s.process = p at speaks fits
  cases p with
  | fill | kind | low | post | ttext | tlen | tkind | tpost => exact fits.1
  | _ => exact speaks.elim

theorem locates (at_ : At st s) (locates : s.process.Locates) : ∃ m, st = .asked m := by
  have fits := at_.process
  generalize s.process = p at locates fits
  cases p with
  | pcword c => exact ⟨_, fits⟩
  | pckind | pcpost => exact ⟨_, fits.1⟩
  | _ => exact locates.elim

theorem answers (at_ : At st s) (answers : s.kernel.Answers) : ∃ m, st = .held m := by
  have fits := at_.kernel
  generalize s.kernel = k at answers fits
  cases k with
  | xtext | xlen | kind | value | aux | post => exact ⟨_, fits.1⟩
  | _ => exact answers.elim

theorem exact (at_ : At st s) : Exact s where
  taken := at_.turns.1
  got := at_.turns.2.1
  pcs := at_.places.1
  turns := at_.turns.2.2
  questions := at_.places.2
  speaks speaks := by
    cases at_.speaks speaks
    rcases at_.history with ⟨⟨said, given, taken⟩, pcs, asked⟩
    have count : s.said.length = s.taken.length := by rw [← said, length_map]
    exact ⟨⟨count.symm, by rw [pcs]⟩, by rw [given], by rw [pcs, asked]⟩
  locates locates := by
    rcases at_.locates locates with ⟨m, rfl⟩
    rcases at_.history with ⟨⟨said, given, taken⟩, pcs, asked⟩
    have count : s.said.length = s.taken.length := by rw [← said, length_map]
    exact ⟨⟨count.symm, by rw [pcs]⟩, by rw [given]⟩
  answers answers := by
    rcases at_.answers answers with ⟨m, rfl⟩
    rcases at_.history with ⟨⟨said, given, taken⟩, pcs, asked⟩
    have count : s.said.length = s.taken.length := by rw [← said, length_map]
    exact ⟨⟨count.symm, by rw [pcs]⟩, by rw [given], by rw [pcs, asked]⟩
  cases e failed := by
    have fits := at_.kernel
    rw [failed] at fits
    exact fits.elim

end At

/-- So it is in every run that leaves a question the kernel gave up on alone. -/
theorem trap_exact (reached : trap.Reach Orderly s) : Exact s := by
  have somewhere : ∃ st, At st s := by
    apply reached.invariant fun s => ∃ st, At st s
    · intro s first
      cases first
      exact ⟨_, At.new⟩
    · rintro s a s' ⟨st, at_⟩ orderly step
      exact at_.next orderly step
  rcases somewhere with ⟨st, at_⟩
  exact at_.exact

def sysCall : Call := ⟨⟨.call, [1, 2, 3, 4, 5, 6], []⟩, 0, 5⟩

/-- The process says it and sleeps; the kernel takes it, and asks where it was made. -/
def asking : List Act :=
  .say sysCall :: List.replicate 14 .process ++ .run :: List.replicate 9 .kernel ++
    .ask :: List.replicate 5 .kernel

/-- The process says where, the kernel takes it and answers, and the process goes on. -/
def answering : List Act :=
  asking ++ List.replicate 6 .process ++ List.replicate 3 .kernel ++
    .answer ⟨.ret, 7, 0, []⟩ :: List.replicate 5 .kernel ++ List.replicate 7 .process

theorem trap_exact_call : ∃ s, Exact s ∧ s.got = [⟨.ret, 7, 0, []⟩] ∧ s.pcstaken = [5] := by
  have ends : (System.runs State.next Orderly .new answering).map (fun s => (s.got, s.pcstaken)) =
      some ([⟨.ret, 7, 0, []⟩], [5]) := by decide
  rcases ran : System.runs State.next Orderly .new answering with _ | s <;> rw [ran] at ends
  · cases ends
  simp only [Option.map_some, Option.some.injEq, Prod.mk.injEq] at ends
  have reached : trap.Reach Orderly s :=
    (System.Reach.init rfl).runs (fun _ _ _ moved => moved) ran
  exact ⟨s, trap_exact reached, ends⟩

/-- The process has read the question when the kernel gives up on it and answers; where it is
overwrites the answer, and `run` meets it. -/
def tooLate : List Act :=
  asking ++ List.replicate 4 .process ++ [.kernel, .timeout, .answer ⟨.ret, 7, 0, []⟩] ++
    List.replicate 5 .kernel ++ [.process, .run, .kernel, .kernel]

theorem trap_exact_fails : ¬∀ s, trap.Reachable s → Exact s := by
  intro all
  have ends : (System.runs State.next (fun _ _ => True) .new tooLate).map (·.kernel) =
      some (.failed .pc) := by decide
  rcases ran : System.runs State.next (fun _ _ => True) .new tooLate with _ | s <;>
    rw [ran] at ends
  · cases ends
  simp only [Option.map_some, Option.some.injEq] at ends
  have reached : trap.Reachable s :=
    (System.Reach.init rfl).runs (fun _ _ _ moved => moved) ran
  exact (all s reached).cases _ ends

end Ipnx.Host.Trap
