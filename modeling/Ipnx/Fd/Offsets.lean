import Ipnx.Fd.Closes

/-!
# The offset that sharers move

Processes that share a channel read and write it at its own offset, and seek. A write takes its
range before the device writes, and gives back what the device did not; meanwhile it may sleep, and
another process has moved the offset. `Orderly` is what that rests on: nothing is given back while a
range taken later is under way, and no seek goes back over a write.
-/

namespace Ipnx

open List

def eisstream : String := "seek on a stream"

/-- Where a seek goes; the length of the file is for its device to say. -/
def Chan.target (ch : Chan) (off : Int64) (whence : Nat) (stat : Outcome UInt64) : Outcome Int64 :=
  match whence with
  | 0 => if ch.isDir ∧ off ≠ 0 then .err eisdir else .ok off
  | 1 => if ch.isDir then .err eisdir else .ok (ch.offset.toInt64 + off)
  | 2 =>
      if ch.isDir then .err eisdir
      else
        match stat with
        | .slept => .slept
        | .err e => .err e
        | .ok length => .ok (length.toInt64 + off)
  | _ => .err ebadarg

/-- The range of a channel that a call in progress has taken: its start and its length. -/
def Label.range (c : Cell) : Label → Option (Nat × Nat)
  | .pwriteat d data place true => if d = c then some (place.toNat, data.length) else none
  | _ => none

/-- How many bytes of the channel a call in progress has taken. -/
def Label.ahead (c : Cell) : Label → Nat
  | .pwriteat d data _ true => if d = c then data.length else 0
  | _ => 0

inductive IoCall
  | read (fd : Fd) (n : Nat) (off : Int) (out : Outcome Octets)
  | write (fd : Fd) (data : Octets) (off : Int) (out : Outcome Nat)
  | seek (fd : Fd) (off : Int64) (whence : Nat) (stat : Outcome UInt64)

inductive IoAct
  | call (up : Pid) (c : IoCall)
  | resume (up : Pid) (read : Outcome Octets) (write : Outcome Nat)

/-- What a step does to one channel's own offset: a read moves it on; a write takes its range, gives
back what was not written of it, or both in one; a seek sets it. -/
inductive Shift
  | none
  | read (n : Nat)
  | take (up : Pid) (n : Nat)
  | give (up : Pid) (n m : Nat)
  | whole (n m : Nat)
  | seek (v : UInt64)

namespace Descs

/-- `seek`. One whose stat the mount driver leaves is made again. -/
def sysseek (k : Descs) (up : Pid) (fd : Fd) (off : Int64) (whence : Nat)
    (stat : Outcome UInt64) : Descs × Except String Ret :=
  match k.fdtochan up fd none true with
  | .error e => (k, .error e)
  | .ok (c, ch) =>
      if ch.dev = .pipe then (k, .error eisstream)
      else
        match ch.target off whence stat with
        | .slept => (k, .ok .sched)
        | .err e => (k, .error e)
        | .ok new =>
            if new < 0 then (k, .error enegoff)
            else (k.setOffset c new.toUInt64, .ok (.n new.toUInt64.toNat))

def iodispatch (k : Descs) (up : Pid) : IoCall → Descs × Except String Ret
  | .read fd n off out => k.syspread up fd n off out
  | .write fd data off out => k.syspwrite up fd data off out
  | .seek fd off whence stat => k.sysseek up fd off whence stat

def io (k : Descs) : IoAct → Option (Descs × Except String Ret)
  | .call up c => if k.Running up then some (k.iodispatch up c) else none
  | .resume up read write => (k.label up).map fun l => k.resume up l read write []

def offset (k : Descs) (c : Cell) : UInt64 := ((k.chans[c]?).map (·.offset)).getD 0

/-- The range of the channel that a process's write under way has. -/
def range (k : Descs) (c : Cell) (up : Pid) : Option (Nat × Nat) :=
  (k.label up).bind (Label.range c)

def ahead (k : Descs) (c : Cell) : Nat := k.labels.sum (Label.ahead c)

def readShift (ch : Chan) (off : Int) : Outcome Octets → Shift
  | .ok d =>
      if off < -1 ∨ ch.isDir ∧ ch.place off ≠ ch.offset then .none
      else if ch.isDir ∨ off = -1 then .read d.length
      else .none
  | _ => .none

def callShift (k : Descs) (c : Cell) (up : Pid) : IoCall → Shift
  | .read fd _ off out =>
      match k.fdtochan up fd (some Mode.oread) true with
      | .ok (d, ch) => if d = c then readShift ch off out else .none
      | .error _ => .none
  | .write fd data off out =>
      match k.fdtochan up fd (some Mode.owrite) true with
      | .ok (d, ch) =>
          if d = c ∧ ¬ch.isDir ∧ off = -1 then
            match out with
            | .slept => .take up data.length
            | .ok m => .whole data.length m
            | .err _ => .whole data.length 0
          else .none
      | .error _ => .none
  | .seek fd off whence stat =>
      match k.fdtochan up fd none true with
      | .ok (d, ch) =>
          if d = c ∧ ch.dev ≠ .pipe then
            match ch.target off whence stat with
            | .ok new => if new < 0 then .none else .seek new.toUInt64
            | _ => .none
          else .none
      | .error _ => .none

def resumeShift (k : Descs) (c : Cell) (up : Pid) (read : Outcome Octets) (write : Outcome Nat) :
    Label → Shift
  | .pread d _ off =>
      if d = c then
        match k.chans[d]? with
        | some ch => readShift ch off read
        | none => .none
      else .none
  | .rerun fd n off _ => k.callShift c up (.read fd n off read)
  | .pwriteat d data _ taken =>
      if d = c ∧ taken then
        match write with
        | .slept => .none
        | .ok m => .give up data.length m
        | .err _ => .give up data.length 0
      else .none
  | _ => .none

def shift (k : Descs) (c : Cell) : IoAct → Shift
  | .call up call => k.callShift c up call
  | .resume up read write =>
      match k.label up with
      | some l => k.resumeShift c up read write l
      | none => .none

end Descs

namespace Shift

/-- The values the offset is given, counted without bounds. -/
def values (o : Int) : Shift → List Int
  | none => []
  | read n => [o + n]
  | take _ n => [o + n]
  | give _ n m => [o - (n - m)]
  | whole n m => [o + n, o + n - (n - m)]
  | seek v => [v.toNat]

def moved : Shift → Nat
  | none => 0
  | read n => n
  | take _ _ => 0
  | give _ _ m => m
  | whole _ m => m
  | seek _ => 0

def seeks : Shift → Nat
  | seek _ => 1
  | _ => 0

/-- The last offset set, with the bytes asked of reads and writes since. -/
def asked (a : Nat) : Shift → Nat
  | read n => a + n
  | take _ n => a + n
  | whole n _ => a + n
  | seek v => v.toNat
  | _ => a

def taken : Shift → Option Nat
  | take _ n => some n
  | whole n _ => some n
  | _ => Option.none

/-- A device writes no more than it is given. -/
def Honest : Shift → Prop
  | give _ n m => m ≤ n
  | whole n m => m ≤ n
  | _ => True

end Shift

def Overlap (r r' : Nat × Nat) : Prop := max r.1 r'.1 < min (r.1 + r.2) (r'.1 + r'.2)

instance (r r' : Nat × Nat) : Decidable (Overlap r r') :=
  inferInstanceAs (Decidable (_ < _))

/-- A run as one channel has it: the values its offset was given, the bytes moved at it and those
asked, the seeks, and whether a range was taken that met one under way. -/
structure Shared where
  k : Descs
  first : Int
  exact : Int
  trail : List Int
  moved : Nat
  asked : Nat
  seeks : Nat
  met : Bool

namespace Shared

/-- Whether a range taken now would meet one under way. -/
def meets (t : Shared) (c : Cell) (n : Nat) : Bool :=
  t.k.labels.entries.any fun e =>
    (e.2.range c).any fun r => decide (Overlap ((t.k.offset c).toNat, n) r)

def next (t : Shared) (c : Cell) (s : Shift) (k : Descs) : Shared where
  k := k
  first := t.first
  exact := (s.values t.exact).getLastD t.exact
  trail := t.trail ++ s.values t.exact
  moved := t.moved + s.moved
  asked := s.asked t.asked
  seeks := t.seeks + s.seeks
  met := t.met || s.taken.any (t.meets c)

/-- The channel is there, and nobody is in a call. -/
structure First (c : Cell) (t : Shared) : Prop where
  there : c < t.k.chans.length
  quiet : t.k.labels.entries = []
  first : t.first = (t.k.offset c).toNat
  exact : t.exact = t.first
  trail : t.trail = []
  moved : t.moved = 0
  asked : t.asked = (t.k.offset c).toNat
  seeks : t.seeks = 0
  met : t.met = false

/-- Processes that read, write and seek, any of them on this channel. -/
def system (c : Cell) : System Shared IoAct where
  init := First c
  step t a t' := (t.k.shift c a).Honest ∧
    ∃ k' r, t.k.io a = some (k', r) ∧ t' = t.next c (t.k.shift c a) k'

/-- Nothing was taken twice, the offset was never out of its type, and without seeks it comes to
what was moved. -/
structure Sound (c : Cell) (t : Shared) : Prop where
  unmet : t.met = false
  apart : ∀ p q r r', p ≠ q → t.k.range c p = some r → t.k.range c q = some r' → ¬Overlap r r'
  trail : ∀ v ∈ t.trail, 0 ≤ v ∧ v < 2 ^ 64
  exact : t.exact = (t.k.offset c).toNat
  total : t.seeks = 0 → (∀ p, t.k.range c p = none) → t.exact = t.first + t.moved

/-- A write that comes back short does so while no range taken after its own is under way; a seek
goes past every write under way; and the first offset, or the one last set, with the bytes asked
since is within the offset's type. -/
def Orderly (c : Cell) (t : Shared) (a : IoAct) : Prop :=
  match t.k.shift c a with
  | .read n | .take _ n | .whole n _ => t.asked + n < 2 ^ 64
  | .give up n m => m < n → ∀ own p r, t.k.range c up = some own → p ≠ up →
      t.k.range c p = some r → r.1 + r.2 ≤ own.1
  | .seek v => ∀ p r, t.k.range c p = some r → r.1 + r.2 ≤ v.toNat
  | .none => True

end Shared

namespace Descs

variable {k k' : Descs} {c d : Cell} {ch : Chan} {up p : Pid}

theorem offset_of (there : k.chans[c]? = some ch) : k.offset c = ch.offset := by
  rw [offset, there]
  rfl

theorem offset_setOffset (there : c < k.chans.length) (v : UInt64) :
    (k.setOffset c v).offset c = v := by
  simp [offset, setOffset, List.getElem?_eq_getElem there]

theorem offset_setOffset_of_ne (other : d ≠ c) (v : UInt64) :
    (k.setOffset d v).offset c = k.offset c := by
  simp [offset, setOffset, other]

@[simp]
theorem range_setOffset (v : UInt64) : (k.setOffset d v).range c p = k.range c p := rfl

@[simp]
theorem ahead_setOffset (v : UInt64) : (k.setOffset d v).ahead c = k.ahead c := rfl

@[simp]
theorem length_setOffset (v : UInt64) : (k.setOffset d v).chans.length = k.chans.length := by
  simp [setOffset]

@[simp]
theorem range_setlabel_self (l : Label) : (k.setlabel up l).range c up = l.range c := by
  simp [range, label, setlabel]

theorem range_setlabel_of_ne (other : p ≠ up) (l : Label) :
    (k.setlabel up l).range c p = k.range c p := by
  simp [range, label, setlabel, Keyed.find_insert_of_ne _ other]

theorem ahead_setlabel (free : k.label up = none) (l : Label) :
    (k.setlabel up l).ahead c = l.ahead c + k.ahead c :=
  Keyed.sum_insert (Label.ahead c) free l

@[simp]
theorem label_takelabel_self : (k.takelabel up).label up = none := k.labels.find_erase up

@[simp]
theorem range_takelabel_self : (k.takelabel up).range c up = none := by
  rw [range, label_takelabel_self]
  rfl

theorem range_takelabel_of_ne (other : p ≠ up) : (k.takelabel up).range c p = k.range c p := by
  simp [range, label, takelabel, Keyed.find_erase_of_ne _ other]

theorem ahead_takelabel {l : Label} (left : k.label up = some l) :
    (k.takelabel up).ahead c + l.ahead c = k.ahead c :=
  Keyed.sum_erase (Label.ahead c) left

theorem range_of_free (free : k.label up = none) : k.range c up = none := by
  rw [range, free]
  rfl

theorem ahead_of_range_none {l : Label} (has : l.range c = none) : l.ahead c = 0 := by
  rcases l with _ | _ | ⟨d, data, place, _ | _⟩ | _ | _
  · rfl
  · rfl
  · rfl
  · simp only [Label.range] at has
    split_ifs at has with on
    rw [Label.ahead, if_neg on]
  · rfl
  · rfl

/-- What is under way on a channel is as it was. -/
structure Same (c : Cell) (k k' : Descs) : Prop where
  range : ∀ p, k'.range c p = k.range c p
  ahead : k'.ahead c = k.ahead c
  length : k'.chans.length = k.chans.length

/-- What a shift does to the offset and to what is under way. -/
def Shifts (c : Cell) (k k' : Descs) : Shift → Prop
  | .none => k'.offset c = k.offset c ∧ Same c k k'
  | .read n => k'.offset c = k.offset c + .ofNat n ∧ Same c k k'
  | .take up n =>
      k'.offset c = k.offset c + .ofNat n ∧ k.range c up = none ∧
        k'.range c up = some ((k.offset c).toNat, n) ∧ (∀ p, p ≠ up → k'.range c p = k.range c p) ∧
          k'.ahead c = n + k.ahead c ∧ k'.chans.length = k.chans.length
  | .give up n m =>
      k'.offset c = k.offset c - .ofNat (n - m) ∧ (∃ place, k.range c up = some (place, n)) ∧
        k'.range c up = none ∧ (∀ p, p ≠ up → k'.range c p = k.range c p) ∧
          k'.ahead c + n = k.ahead c ∧ k'.chans.length = k.chans.length
  | .whole n m => k'.offset c = k.offset c + .ofNat n - .ofNat (n - m) ∧ Same c k k'
  | .seek v => k'.offset c = v ∧ Same c k k'

theorem same_rfl : Same c k k := ⟨fun _ => rfl, rfl, rfl⟩

theorem same_setOffset (v : UInt64) : Same c k (k.setOffset d v) :=
  ⟨fun _ => rfl, rfl, length_setOffset v⟩

theorem same_setlabel {l : Label} (free : k.label up = none) (none : l.range c = none) :
    Same c k (k.setlabel up l) := by
  refine ⟨?_, ?_, rfl⟩
  · intro p
    by_cases self : p = up
    · subst self
      rw [range_setlabel_self, none, range_of_free free]
    · exact range_setlabel_of_ne self l
  · rw [ahead_setlabel free, ahead_of_range_none none, Nat.zero_add]

theorem shifts_pread (free : k.label up = none) (there : k.chans[d]? = some ch) (fd : Option Fd)
    (n : Nat) (off : Int) (out : Outcome Octets) :
    Shifts c k (k.pread up fd d ch n off out).1
      (if d = c then readShift ch off out else .none) := by
  have idle : Shifts c k k .none := ⟨rfl, same_rfl⟩
  have labelled (l : Label) (none : l.range c = none) : Shifts c k (k.setlabel up l) .none :=
    ⟨rfl, same_setlabel free none⟩
  cases out with
  | slept =>
      have shift : (if d = c then readShift ch off .slept else .none) = .none := ite_self _
      rw [shift]
      simp only [pread]
      rcases fd with _ | fd <;> split_ifs <;> first | exact idle | exact labelled _ rfl
  | err e =>
      have shift : (if d = c then readShift ch off (.err e) else .none) = .none := ite_self _
      rw [shift]
      simp only [pread]
      split_ifs <;> exact idle
  | ok data =>
      simp only [pread]
      by_cases refused : off < -1 ∨ ch.isDir ∧ ch.place off ≠ ch.offset
      · have shift : (if d = c then readShift ch off (.ok data) else .none) = .none := by
          rw [readShift, if_pos refused, ite_self]
        rw [shift]
        by_cases early : off < -1
        · rw [if_pos early]
          exact idle
        · rw [if_neg early, if_pos (refused.resolve_left early)]
          exact idle
      · rcases not_or.1 refused with ⟨early, place⟩
        simp only [if_neg early, if_neg place]
        have now : ((k.chans[d]?).map (·.offset)).getD 0 = k.offset d := rfl
        simp only [now]
        by_cases here : d = c
        · subst here
          rw [if_pos rfl, readShift, if_neg refused]
          have inside : d < k.chans.length := (List.getElem?_eq_some_iff.1 there).1
          split_ifs
          · exact ⟨offset_setOffset inside _, same_setOffset _⟩
          · exact ⟨offset_setOffset inside _, same_setOffset _⟩
        · rw [if_neg here]
          exact ⟨offset_setOffset_of_ne here _, same_setOffset _⟩

theorem there_of_fdtochan {fd : Fd} {mode : Option Nat} {chkmnt : Bool}
    (found : k.fdtochan up fd mode chkmnt = .ok (d, ch)) : k.chans[d]? = some ch := by
  simp only [fdtochan] at found
  split at found
  · cases found
  · split at found
    · cases found
    next ch' there =>
      split at found
      · cases found
        exact there
      · cases found

theorem shifts_syspread (free : k.label up = none) (fd : Fd) (n : Nat) (off : Int)
    (out : Outcome Octets) :
    Shifts c k (k.syspread up fd n off out).1 (k.callShift c up (.read fd n off out)) := by
  rw [syspread, callShift]
  rcases found : k.fdtochan up fd (some Mode.oread) true with e | ⟨d, ch⟩
  · exact ⟨rfl, same_rfl⟩
  · exact shifts_pread free (there_of_fdtochan found) _ _ _ _

theorem shifts_sysseek (fd : Fd) (off : Int64) (whence : Nat) (stat : Outcome UInt64) :
    Shifts c k (k.sysseek up fd off whence stat).1
      (k.callShift c up (.seek fd off whence stat)) := by
  have idle : Shifts c k k .none := ⟨rfl, same_rfl⟩
  rw [sysseek, callShift]
  rcases found : k.fdtochan up fd none true with e | ⟨d, ch⟩
  · exact idle
  dsimp only
  have inside : d < k.chans.length := (List.getElem?_eq_some_iff.1 (there_of_fdtochan found)).1
  by_cases pipe : ch.dev = .pipe
  · have shift : ¬(d = c ∧ ch.dev ≠ .pipe) := fun both => both.2 pipe
    rw [if_pos pipe, if_neg shift]
    exact idle
  · rw [if_neg pipe]
    rcases ch.target off whence stat with _ | new | e
    · simp only [ite_self]
      exact idle
    · dsimp only
      by_cases negative : new < 0
      · simp only [if_pos negative, ite_self]
        exact idle
      · simp only [if_neg negative]
        by_cases here : d = c
        · subst here
          rw [if_pos ⟨rfl, pipe⟩]
          exact ⟨offset_setOffset inside _, same_setOffset _⟩
        · rw [if_neg (fun both => here both.1)]
          exact ⟨offset_setOffset_of_ne here _, same_setOffset _⟩
    · simp only [ite_self]
      exact idle

theorem giveback_self (there : c < k.chans.length) (left : Nat) :
    (k.giveback c true left).offset c = k.offset c - .ofNat left := offset_setOffset there _

theorem giveback_other {taken : Bool} (other : ¬(d = c ∧ taken)) (left : Nat) :
    (k.giveback d taken left).offset c = k.offset c := by
  by_cases here : d = c
  · subst here
    have kept : taken = false := by simpa using other
    by_cases there : d < k.chans.length
    · rw [kept]
      exact offset_setOffset there _
    · have gone (f : Chan → Chan) : k.chans.modify d f = k.chans :=
        modify_eq_self (not_lt.1 there)
      rw [giveback, offset, setOffset, gone]
      rfl
  · exact offset_setOffset_of_ne here _

theorem range_pwriteat_other {data : Octets} {place : UInt64} {taken : Bool}
    (other : ¬(d = c ∧ taken)) : (Label.pwriteat d data place taken).range c = none := by
  rcases taken with _ | _
  · rfl
  · exact if_neg fun here => other ⟨here, rfl⟩

theorem shifts_pwriteat_other {data : Octets} {place : UInt64} {taken : Bool} {out : Outcome Nat}
    (free : k.label up = none) (other : ¬(d = c ∧ taken)) :
    Shifts c k (k.pwriteat up d data place taken out).1 .none := by
  rcases out with _ | m | e
  · exact ⟨rfl, same_setlabel free (range_pwriteat_other other)⟩
  · exact ⟨giveback_other other _, same_setOffset _⟩
  · exact ⟨giveback_other other _, same_setOffset _⟩

theorem Shifts.after {k₁ : Descs} {s : Shift} (same : Same c k k₁)
    (offset : k₁.offset c = k.offset c) (shifts : Shifts c k₁ k' s) : Shifts c k k' s := by
  have trans (next : Same c k₁ k') : Same c k k' :=
    ⟨fun p => (next.range p).trans (same.range p), next.ahead.trans same.ahead,
      next.length.trans same.length⟩
  cases s with
  | none => exact ⟨shifts.1.trans offset, trans shifts.2⟩
  | read n =>
      rw [Shifts, offset] at shifts
      exact ⟨shifts.1, trans shifts.2⟩
  | take up n =>
      rcases shifts with ⟨moved, free, taken, others, more, length⟩
      rw [offset] at moved taken
      exact ⟨moved, (same.range up).symm.trans free, taken,
        fun p other => (others p other).trans (same.range p), by rw [more, same.ahead],
        length.trans same.length⟩
  | give up n m =>
      rcases shifts with ⟨moved, ⟨place, had⟩, gone, others, less, length⟩
      rw [offset] at moved
      exact ⟨moved, ⟨place, (same.range up).symm.trans had⟩, gone,
        fun p other => (others p other).trans (same.range p), less.trans same.ahead,
        length.trans same.length⟩
  | whole n m =>
      rw [Shifts, offset] at shifts
      exact ⟨shifts.1, trans shifts.2⟩
  | seek v => exact ⟨shifts.1, trans shifts.2⟩

theorem shifts_syspwrite (free : k.label up = none) (fd : Fd) (data : Octets) (off : Int)
    (out : Outcome Nat) :
    Shifts c k (k.syspwrite up fd data off out).1 (k.callShift c up (.write fd data off out)) := by
  have idle : Shifts c k k .none := ⟨rfl, same_rfl⟩
  simp only [syspwrite, callShift]
  rcases found : k.fdtochan up fd (some Mode.owrite) true with e | ⟨d, ch⟩
  · exact idle
  dsimp only
  have there := there_of_fdtochan found
  have inside : d < k.chans.length := (List.getElem?_eq_some_iff.1 there).1
  by_cases own : d = c ∧ ¬ch.isDir ∧ off = -1
  · rcases own with ⟨rfl, file, rfl⟩
    have start : ch.offset = k.offset d := (offset_of there).symm
    have early : ¬(-1 : Int) < -1 := by decide
    have freed : (k.setOffset d (ch.offset + .ofNat data.length)).label up = none := free
    have inside' : d < (k.setOffset d (ch.offset + .ofNat data.length)).chans.length := by
      rwa [length_setOffset]
    rw [if_neg file, if_neg early, if_pos rfl, if_pos ⟨rfl, file, rfl⟩, start] at *
    rcases out with _ | m | e
    · refine ⟨offset_setOffset inside _, range_of_free free, ?_, ?_, ?_, length_setOffset _⟩
      · exact (range_setlabel_self _).trans (if_pos rfl)
      · intro p other
        exact (range_setlabel_of_ne other _).trans (range_setOffset _)
      · refine (ahead_setlabel freed _).trans ?_
        rw [Label.ahead, if_pos rfl, ahead_setOffset]
    · refine ⟨(giveback_self inside' _).trans ?_, ?_⟩
      · rw [offset_setOffset inside]
      · exact ⟨fun _ => rfl, rfl, (length_setOffset _).trans (length_setOffset _)⟩
    · refine ⟨(giveback_self inside' _).trans ?_, ?_⟩
      · rw [offset_setOffset inside, Nat.sub_zero]
      · exact ⟨fun _ => rfl, rfl, (length_setOffset _).trans (length_setOffset _)⟩
  · rw [if_neg own]
    split_ifs with dir early implicit
    · exact idle
    · exact idle
    · have away : d ≠ c := fun here => own ⟨here, dir, implicit⟩
      have freed : (k.setOffset d (ch.offset + .ofNat data.length)).label up = none := free
      exact Shifts.after (same_setOffset _) (offset_setOffset_of_ne away _)
        (shifts_pwriteat_other freed fun here => away here.1)
    · exact shifts_pwriteat_other free (fun here => Bool.false_ne_true here.2)

theorem same_takelabel {l : Label} (left : k.label up = some l) (none : l.range c = none) :
    Same c k (k.takelabel up) := by
  refine ⟨?_, ?_, rfl⟩
  · intro p
    by_cases self : p = up
    · subst self
      rw [range_takelabel_self, range, left]
      exact none.symm
    · exact range_takelabel_of_ne self
  · have all := ahead_takelabel (c := c) left
    rw [ahead_of_range_none none] at all
    exact all

/-- Closes that all end leave the channels, and what is under way on them. -/
def Keeps (k k' : Descs) : Prop := k'.chans = k.chans ∧ k'.labels = k.labels

theorem Keeps.shifts (keeps : Keeps k k') : Shifts c k k' .none := by
  rcases keeps with ⟨chans, labels⟩
  refine ⟨?_, ⟨?_, ?_, ?_⟩⟩
  · rw [offset, offset, chans]
  · intro p
    rw [range, range, label, label, labels]
  · rw [ahead, ahead, labels]
  · rw [chans]

theorem keeps_finish (rest : Rest) : Keeps k (k.finish up rest).1 := by
  rcases rest with r | _
  · exact ⟨rfl, rfl⟩
  · simp only [finish]
    rcases k.user up with _ | u
    · exact ⟨rfl, rfl⟩
    · exact ⟨rfl, rfl⟩

theorem keeps_closing (cs : List Cell) (rest : Rest) : Keeps k (k.closing up cs rest []).1 := by
  induction cs generalizing k with
  | nil => exact keeps_finish rest
  | cons d cs ih =>
      rcases @ih (k.dclose d) with ⟨chans, labels⟩
      exact ⟨chans, labels⟩

theorem keeps_closingfgrp (cs : List Cell) (rest : Rest) (begun : Bool) :
    Keeps k (k.closingfgrp up cs rest begun []).1 := by
  induction cs generalizing k begun with
  | nil => exact keeps_finish rest
  | cons d cs ih =>
      have calm : ¬([] : List Bool).headD false := Bool.false_ne_true
      simp only [closingfgrp, if_neg calm]
      split_ifs with told started
      · rcases @keeps_finish ({ k with clunkq := k.clunkq ++ cs }.dclose d) up rest
          with ⟨chans, labels⟩
        exact ⟨chans, labels⟩
      · rcases @keeps_finish { k with clunkq := k.clunkq ++ d :: cs } up rest
          with ⟨chans, labels⟩
        exact ⟨chans, labels⟩
      · rcases @ih (k.dclose d) false with ⟨chans, labels⟩
        exact ⟨chans, labels⟩

theorem shifts_resume (inside : c < k.chans.length) {l : Label} (left : k.label up = some l)
    (read : Outcome Octets) (write : Outcome Nat) :
    Shifts c k (k.resume up l read write []).1 (k.resumeShift c up read write l) := by
  have free : (k.takelabel up).label up = none := label_takelabel_self
  cases l with
  | pread d n off =>
      have same : Same c k (k.takelabel up) := same_takelabel left rfl
      simp only [resume, resumeShift]
      have chans : (k.takelabel up).chans[d]? = k.chans[d]? := rfl
      rw [chans]
      rcases there : k.chans[d]? with _ | ch
      · rw [ite_self]
        exact Shifts.after same rfl (show Shifts c _ _ .none from ⟨rfl, same_rfl⟩)
      · exact Shifts.after same rfl (shifts_pread free there _ _ _ _)
  | rerun fd n off on =>
      exact Shifts.after (same_takelabel left rfl) rfl (shifts_syspread free fd n off read)
  | pwriteat d data place taken =>
      simp only [resume, resumeShift]
      by_cases here : d = c ∧ taken
      · rw [if_pos here]
        rcases here with ⟨rfl, rfl⟩
        have had : k.range d up = some (place.toNat, data.length) := by
          rw [range, left]
          exact if_pos rfl
        have all := ahead_takelabel (c := d) left
        rw [Label.ahead, if_pos rfl] at all
        have others (p : Pid) (other : p ≠ up) : (k.takelabel up).range d p = k.range d p :=
          range_takelabel_of_ne other
        rcases write with _ | m | e
        · refine ⟨rfl, ⟨?_, ?_, rfl⟩⟩
          · intro p
            by_cases self : p = up
            · subst self
              rw [had]
              exact (range_setlabel_self _).trans (if_pos rfl)
            · exact (range_setlabel_of_ne self _).trans (others p self)
          · refine (ahead_setlabel free _).trans ?_
            rw [Label.ahead, if_pos rfl]
            omega
        · exact ⟨giveback_self inside _, ⟨_, had⟩, range_takelabel_self, others, all,
            length_setOffset _⟩
        · exact ⟨giveback_self inside _, ⟨_, had⟩, range_takelabel_self, others, all,
            length_setOffset _⟩
      · rw [if_neg here]
        exact Shifts.after (same_takelabel left (range_pwriteat_other here)) rfl
          (shifts_pwriteat_other free here)
  | closing cs rest =>
      exact Shifts.after (same_takelabel left rfl) rfl (keeps_closing cs rest).shifts
  | closingfgrp cs rest begun =>
      exact Shifts.after (same_takelabel left rfl) rfl (keeps_closingfgrp cs rest begun).shifts

theorem shifts_io (inside : c < k.chans.length) {a : IoAct} {r : Except String Ret}
    (step : k.io a = some (k', r)) : Shifts c k k' (k.shift c a) := by
  cases a with
  | call up call =>
      simp only [io] at step
      split_ifs at step with running
      have free := running.1
      have moved : (k.iodispatch up call).1 = k' := congrArg Prod.fst (Option.some.inj step)
      subst moved
      cases call with
      | read fd n off out => exact shifts_syspread free fd n off out
      | write fd data off out => exact shifts_syspwrite free fd data off out
      | seek fd off whence stat => exact shifts_sysseek fd off whence stat
  | resume up read write =>
      simp only [io] at step
      rcases left : k.label up with _ | l <;> rw [left] at step
      · cases step
      · have moved : (k.resume up l read write []).1 = k' :=
            congrArg Prod.fst (Option.some.inj step)
        subst moved
        simp only [shift, left]
        exact shifts_resume inside left read write

end Descs

namespace Shared

variable {c : Cell} {t t' : Shared} {a : IoAct}

/-- The offset is as counted, every write under way is before it and apart from the others, and
nothing went wrong. -/
structure Fits (c : Cell) (t : Shared) : Prop where
  inside : c < t.k.chans.length
  unmet : t.met = false
  apart : ∀ p q r r', p ≠ q → t.k.range c p = some r → t.k.range c q = some r' → ¬Overlap r r'
  past : ∀ p r, t.k.range c p = some r → r.1 + r.2 ≤ (t.k.offset c).toNat
  trail : ∀ v ∈ t.trail, 0 ≤ v ∧ v < 2 ^ 64
  exact : t.exact = (t.k.offset c).toNat
  under : (t.k.offset c).toNat ≤ t.asked
  total : t.seeks = 0 → t.exact = t.first + t.moved + t.k.ahead c

theorem First.fits (first : First c t) : Fits c t := by
  have none (p : Pid) : t.k.range c p = none := by
    rw [Descs.range, Descs.label, Keyed.find, first.quiet]
    rfl
  have still : t.k.ahead c = 0 := by
    rw [Descs.ahead, Keyed.sum, first.quiet]
    rfl
  constructor
  · exact first.there
  · exact first.met
  · intro p q r r' _ mine
    rw [none p] at mine
    cases mine
  · intro p r mine
    rw [none p] at mine
    cases mine
  · rw [first.trail]
    exact fun v member => absurd member not_mem_nil
  · rw [first.exact, first.first]
  · exact first.asked.ge
  · rw [first.exact, first.moved, still]
    omega

theorem meets_of_past {n : Nat}
    (past : ∀ p r, t.k.range c p = some r → r.1 + r.2 ≤ (t.k.offset c).toNat) :
    t.meets c n = false := by
  apply any_eq_false.2
  rintro ⟨p, l⟩ member
  intro met
  rcases (Option.any_eq_true _ _).1 met with ⟨r, has, over_⟩
  have mine : t.k.range c p = some r := by
    rw [Descs.range, Descs.label, t.k.labels.find_of_mem member]
    exact has
  have bound := past p r mine
  have common : max _ _ < min _ _ := of_decide_eq_true over_
  omega

theorem Fits.of_same (fits : Fits c t) {s : Shift} {k' : Descs} (same : Descs.Same c t.k k')
    (unmet : (t.next c s k').met = false)
    (past : ∀ p r, t.k.range c p = some r → r.1 + r.2 ≤ (k'.offset c).toNat)
    (values : ∀ v ∈ s.values t.exact, 0 ≤ v ∧ v < 2 ^ 64)
    (exact : (t.next c s k').exact = (k'.offset c).toNat)
    (under : (k'.offset c).toNat ≤ s.asked t.asked)
    (total : (t.next c s k').seeks = 0 → (t.next c s k').exact = t.exact + s.moved) :
    Fits c (t.next c s k') := by
  constructor
  · exact same.length.symm ▸ fits.inside
  · exact unmet
  · intro p q r r' ne mine yours
    exact fits.apart p q r r' ne ((same.range p).symm.trans mine) ((same.range q).symm.trans yours)
  · exact fun p r mine => past p r ((same.range p).symm.trans mine)
  · intro v member
    rcases mem_append.1 member with old | new
    · exact fits.trail v old
    · exact values v new
  · exact exact
  · exact under
  · intro none
    have unsought : t.seeks = 0 := Nat.eq_zero_of_add_eq_zero_right none
    have was := fits.total unsought
    have now := total none
    have more : (t.next c s k').k.ahead c = t.k.ahead c := same.ahead
    have sum : (t.next c s k').moved = t.moved + s.moved := rfl
    have began : (t.next c s k').first = t.first := rfl
    rw [began, sum, more]
    omega

theorem Fits.step (fits : Fits c t) (orderly : Orderly c t a) (step : (system c).step t a t') :
    Fits c t' := by
  rcases step with ⟨honest, k', r, stepped, rfl⟩
  have shifts := Descs.shifts_io fits.inside stepped
  have within := (t.k.offset c).toNat_lt
  have exact := fits.exact
  have under := fits.under
  rw [Orderly] at orderly
  generalize t.k.shift c a = s at shifts honest orderly
  cases s with
  | none =>
      rcases shifts with ⟨moved, same⟩
      have past := fits.past
      rw [← moved] at past exact under
      exact fits.of_same same ((Bool.or_false _).trans fits.unmet) past
        (fun _ member => absurd member not_mem_nil) exact under
        fun _ => (Int.add_zero _).symm
  | read n =>
      rcases shifts with ⟨moved, same⟩
      have now : (k'.offset c).toNat = (t.k.offset c).toNat + n := by
        rw [moved, UInt64.toNat_add, UInt64.toNat_ofNat', Nat.add_mod_mod]
        exact Nat.mod_eq_of_lt (by omega)
      refine fits.of_same same ((Bool.or_false _).trans fits.unmet) ?_ ?_ ?_ ?_ ?_
      · intro p r mine
        exact (fits.past p r mine).trans (by omega)
      · simp only [Shift.values, mem_singleton, forall_eq]
        omega
      · simp only [next, Shift.values, getLastD_cons, getLastD_nil]
        omega
      · rw [Shift.asked]
        omega
      · exact fun _ => rfl
  | take up n =>
      rcases shifts with ⟨moved, free, taken, others, more, length⟩
      have now : (k'.offset c).toNat = (t.k.offset c).toNat + n := by
        rw [moved, UInt64.toNat_add, UInt64.toNat_ofNat', Nat.add_mod_mod]
        exact Nat.mod_eq_of_lt (by omega)
      have ahead (p : Pid) (other : p ≠ up) {r : Nat × Nat} (had : k'.range c p = some r) :
          ¬Overlap ((t.k.offset c).toNat, n) r := by
        have before := fits.past p r ((others p other).symm.trans had)
        rw [Overlap]
        omega
      constructor
      · exact length.symm ▸ fits.inside
      · exact Bool.or_eq_false_iff.2 ⟨fits.unmet, meets_of_past fits.past⟩
      · intro p q r r' ne mine yours
        by_cases first : p = up
        · subst first
          cases taken.symm.trans mine
          exact ahead q ne.symm yours
        · by_cases second : q = up
          · subst second
            cases taken.symm.trans yours
            have apart := ahead p ne mine
            rw [Overlap] at apart ⊢
            omega
          · exact fits.apart p q r r' ne ((others p first).symm.trans mine)
              ((others q second).symm.trans yours)
      · intro p r mine
        rw [show (t.next c (.take up n) k').k = k' from rfl] at mine ⊢
        by_cases self : p = up
        · subst self
          cases taken.symm.trans mine
          exact now.ge
        · have before := fits.past p r ((others p self).symm.trans mine)
          omega
      · intro v member
        rcases mem_append.1 member with old | new
        · exact fits.trail v old
        · cases mem_singleton.1 new
          omega
      · simp only [next, Shift.values, getLastD_cons, getLastD_nil]
        omega
      · simp only [next, Shift.asked]
        omega
      · intro unsought
        have total := fits.total unsought
        simp only [next, Shift.values, getLastD_cons, getLastD_nil, Shift.moved]
        omega
  | give up n m =>
      rcases shifts with ⟨moved, ⟨place, had⟩, gone, others, less, length⟩
      have own := fits.past up _ had
      have now : (k'.offset c).toNat = (t.k.offset c).toNat - (n - m) := by
        have left : (UInt64.ofNat (n - m)).toNat = n - m := by
          rw [UInt64.toNat_ofNat']
          omega
        have less : UInt64.ofNat (n - m) ≤ t.k.offset c := by
          rw [UInt64.le_iff_toNat_le, left]
          omega
        rw [moved, UInt64.toNat_sub_of_le _ _ less, left]
      have fewer : m ≤ n := honest
      have other {p : Pid} {r : Nat × Nat} (has : k'.range c p = some r) :
          p ≠ up ∧ t.k.range c p = some r := by
        by_cases self : p = up
        · subst self
          cases gone.symm.trans has
        · exact ⟨self, (others p self).symm.trans has⟩
      constructor
      · exact length.symm ▸ fits.inside
      · exact (Bool.or_false _).trans fits.unmet
      · exact fun p q r r' ne mine yours =>
          fits.apart p q r r' ne (other mine).2 (other yours).2
      · intro p r mine
        rw [show (t.next c (.give up n m) k').k = k' from rfl] at mine ⊢
        have before := fits.past p r (other mine).2
        rcases Nat.lt_or_ge m n with short | all
        · have earlier := orderly short _ p r had (other mine).1 (other mine).2
          dsimp only at own earlier
          omega
        · omega
      · intro v member
        rcases mem_append.1 member with old | new
        · exact fits.trail v old
        · cases mem_singleton.1 new
          omega
      · simp only [next, Shift.values, getLastD_cons, getLastD_nil]
        omega
      · simp only [next, Shift.asked]
        omega
      · intro unsought
        have total := fits.total unsought
        simp only [next, Shift.values, getLastD_cons, getLastD_nil, Shift.moved]
        omega
  | whole n m =>
      rcases shifts with ⟨moved, same⟩
      have fewer : m ≤ n := honest
      have now : (k'.offset c).toNat = (t.k.offset c).toNat + m := by
        have taken : (t.k.offset c + .ofNat n).toNat = (t.k.offset c).toNat + n := by
          rw [UInt64.toNat_add, UInt64.toNat_ofNat', Nat.add_mod_mod]
          exact Nat.mod_eq_of_lt (by omega)
        have left : (UInt64.ofNat (n - m)).toNat = n - m := by
          rw [UInt64.toNat_ofNat']
          omega
        have less : UInt64.ofNat (n - m) ≤ t.k.offset c + .ofNat n := by
          rw [UInt64.le_iff_toNat_le, left]
          omega
        rw [moved, UInt64.toNat_sub_of_le _ _ less, left]
        omega
      refine fits.of_same same ?_ ?_ ?_ ?_ ?_ ?_
      · exact Bool.or_eq_false_iff.2 ⟨fits.unmet, meets_of_past fits.past⟩
      · intro p r mine
        exact (fits.past p r mine).trans (by omega)
      · intro v member
        rcases mem_cons.1 member with rfl | last
        · omega
        · cases mem_singleton.1 last
          omega
      · simp only [next, Shift.values, getLastD_cons, getLastD_nil]
        omega
      · rw [Shift.asked]
        omega
      · intro _
        simp only [next, Shift.values, getLastD_cons, getLastD_nil, Shift.moved]
        omega
  | seek v =>
      rcases shifts with ⟨moved, same⟩
      rw [← moved] at orderly
      refine fits.of_same same ((Bool.or_false _).trans fits.unmet) orderly ?_ ?_ ?_ ?_
      · simp only [Shift.values, mem_singleton, forall_eq]
        have bound := v.toNat_lt
        omega
      · rw [moved]
        rfl
      · rw [moved]
        exact Nat.le_refl _
      · intro none
        have sought : t.seeks + 1 = 0 := none
        omega

/-- In a run that gives nothing back while a range taken later is under way, seeks back over no
write under way and asks for no more than the offset can count, no two writes under way have a place
in common, the offset stays within its type, and without seeks it comes to what was read and
written. -/
theorem offsets (c : Cell) (t : Shared) (reached : (system c).Reach (Orderly c) t) :
    Sound c t := by
  have fits : Fits c t := by
    apply reached.invariant (Fits c)
    · exact fun _ first => first.fits
    · exact fun _ _ _ fits orderly step => fits.step orderly step
  have idle (none : ∀ p, t.k.range c p = none) : t.k.ahead c = 0 := by
    apply Keyed.sum_eq_zero
    intro p l found
    apply Descs.ahead_of_range_none
    rw [← none p, Descs.range, Descs.label, found]
    rfl
  refine ⟨fits.unmet, fits.apart, fits.trail, fits.exact, ?_⟩
  intro unsought none
  have total := fits.total unsought
  rw [idle none] at total
  omega

theorem reach_io {ok : Shared → IoAct → Prop} (reached : (system c).Reach ok t) {s : Shift}
    {k' : Descs} (allowed : ok t a) (shift : t.k.shift c a = s) (honest : s.Honest)
    (made : (t.k.io a).map Prod.fst = some k') : (system c).Reach ok (t.next c s k') := by
  subst shift
  rcases Option.map_eq_some_iff.1 made with ⟨⟨k'', r⟩, moved, rfl⟩
  exact .step reached allowed ⟨honest, k'', r, moved, rfl⟩

/-- Three processes with one table, and in it a file open for both. -/
def writers : Shared where
  k :=
    { chans := [⟨.mnt, Mode.ordwr, false, false, false, 0⟩]
      tabs := [⟨[some 0]⟩]
      users := List.replicate 3 ⟨some 0, false, false⟩
      labels := .empty
      clunkq := []
      closes := [] }
  first := 0
  exact := 0
  trail := []
  moved := 0
  asked := 0
  seeks := 0
  met := false

theorem first_writers : First 0 writers := ⟨by decide, rfl, rfl, rfl, rfl, rfl, rfl, rfl, rfl⟩

theorem orderly_of_taken {n : Nat} (taken : (t.k.shift c a).taken = some n)
    (bound : t.asked + n < 2 ^ 64) : Orderly c t a := by
  rw [Orderly]
  generalize t.k.shift c a = s at taken
  cases s with
  | take | whole =>
      cases taken
      exact bound
  | none | read | give | seek => cases taken

theorem orderly_of_given {up : Pid} {n m : Nat} {own : Nat × Nat}
    (given : t.k.shift c a = .give up n m) (had : t.k.range c up = some own)
    (earlier : t.k.labels.entries.all fun e => decide (e.1 = up) ||
      (e.2.range c).all fun r => decide (r.1 + r.2 ≤ own.1)) : Orderly c t a := by
  rw [Orderly, given]
  intro _ own' p r mine other has
  cases had.symm.trans mine
  rcases Option.bind_eq_some_iff.1 has with ⟨l, left, range⟩
  have member := mem_of_find?_eq_some (Keyed.find_mem left)
  have all := all_eq_true.1 earlier (p, l) member
  rw [range] at all
  simpa [other] using all

/-- A write of four sleeps, a write of two after it comes back one short, and then the first comes
back whole. -/
theorem offsets_short : ∃ t, (system 0).Reach (Orderly 0) t ∧ t.trail = [4, 6, 5, 5] ∧
    t.moved = 5 ∧ Sound 0 t := by
  have begun : (system 0).Reach (Orderly 0) writers := .init first_writers
  have asleep := reach_io begun (a := .call 0 (.write 0 [1, 2, 3, 4] (-1) .slept))
    (s := .take 0 4) (orderly_of_taken rfl (by decide)) rfl trivial rfl
  have beside := reach_io asleep (a := .call 1 (.write 0 [5, 6] (-1) .slept))
    (s := .take 1 2) (orderly_of_taken rfl (by decide)) rfl trivial rfl
  have short := reach_io beside (a := .resume 1 .slept (.ok 1)) (s := .give 1 2 1)
    (orderly_of_given rfl rfl (by decide)) rfl (Nat.le_succ 1) rfl
  have ended := reach_io short (a := .resume 0 .slept (.ok 4)) (s := .give 0 4 4)
    (orderly_of_given rfl rfl (by decide)) rfl (Nat.le_refl 4) rfl
  exact ⟨_, ended, by decide, rfl, offsets 0 _ ended⟩

/-- The first of two writes under way fails, and a third process is given the second's range. -/
theorem offsets_fails : ¬∀ c t, (system c).Reachable t → Sound c t := by
  intro all
  have begun : (system 0).Reachable writers := .init first_writers
  have first := reach_io begun (a := .call 0 (.write 0 [1, 2, 3, 4] (-1) .slept))
    (s := .take 0 4) trivial rfl trivial rfl
  have second := reach_io first (a := .call 1 (.write 0 [5, 6] (-1) .slept))
    (s := .take 1 2) trivial rfl trivial rfl
  have failed := reach_io second (a := .resume 0 .slept (.err "i/o error"))
    (s := .give 0 4 0) trivial rfl (Nat.zero_le 4) rfl
  have third := reach_io failed (a := .call 2 (.write 0 [7, 8, 9, 10] (-1) .slept))
    (s := .take 2 4) trivial rfl trivial rfl
  have unmet := (all 0 _ third).unmet
  revert unmet
  decide

end Shared

end Ipnx
