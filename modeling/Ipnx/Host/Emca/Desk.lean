import Ipnx.Host.Emca.Windows

/-!
# Readers, and what they wait for

What a window's console and its `events` are for, whatever the page does: text is committed to the
one in pieces and lines are posted to the other, readers come and wait, and each is answered once,
with what is next or that the window has gone, unless it is flushed. A log of this says what was
put, who asked, and what each was given.
-/

namespace Ipnx.Host.Emca

open List
open Function (update update_eq_self update_idem update_of_ne update_self)

/-- A window's two files that are waited on. -/
inductive Source
  | cons | events
deriving DecidableEq, Repr

abbrev Place := Nat × Source

/-- What happens to them: a piece typed, a line posted, what was typed and not given dropped; a
reader that comes, what it is given, that its window went or had gone, or that it is answered no
more. -/
inductive Entry
  | typed (w : Nat) (b : Bytes)
  | posted (w : Nat) (b : Bytes)
  | dropped (w : Nat)
  | asked (p : Place) (r : Waiting)
  | given (p : Place) (r : Waiting) (b : Bytes)
  | gone (p : Place) (r : Waiting)
  | refused (p : Place) (r : Waiting)
  | flushed (p : Place) (r : Waiting)
deriving DecidableEq, Repr

/-- What there is of each window's, and who waits for it. -/
@[ext]
structure Desk where
  input : Nat → List Bytes
  events : Nat → Bytes
  waiting : Place → List Waiting

namespace Desk

variable {d d' d'' : Desk} {p : Place} {w : Nat} {r : Waiting} {b : Bytes} {e : Entry}
  {log log' : List Entry}

def wait (d : Desk) (p : Place) (rs : List Waiting) : Desk :=
  { d with waiting := update d.waiting p rs }

def hold (d : Desk) (w : Nat) (input : List Bytes) : Desk :=
  { d with input := update d.input w input }

def tell (d : Desk) (w : Nat) (events : Bytes) : Desk :=
  { d with events := update d.events w events }

@[simp]
theorem wait_self (rs : List Waiting) : (d.wait p rs).waiting p = rs := update_self ..

theorem wait_of_ne {q : Place} (other : q ≠ p) (rs : List Waiting) :
    (d.wait p rs).waiting q = d.waiting q := update_of_ne other ..

@[simp]
theorem hold_self (input : List Bytes) : (d.hold w input).input w = input :=
  update_self ..

theorem hold_of_ne {v : Nat} (other : v ≠ w) (input : List Bytes) :
    (d.hold w input).input v = d.input v := update_of_ne other ..

@[simp]
theorem tell_self (events : Bytes) : (d.tell w events).events w = events := update_self ..

theorem tell_of_ne {v : Nat} (other : v ≠ w) (events : Bytes) :
    (d.tell w events).events v = d.events v := update_of_ne other ..

theorem wait_same {rs : List Waiting} (same : d.waiting p = rs) : d.wait p rs = d := by
  rw [wait, ← same, update_eq_self]

theorem hold_same {input : List Bytes} (same : d.input w = input) : d.hold w input = d := by
  rw [hold, ← same, update_eq_self]

theorem tell_same {events : Bytes} (same : d.events w = events) : d.tell w events = d := by
  rw [tell, ← same, update_eq_self]

@[simp]
theorem wait_wait (rs rs' : List Waiting) : (d.wait p rs).wait p rs' = d.wait p rs' := by
  simp only [wait, update_idem]

@[simp]
theorem hold_wait_hold (rs rs' : List Waiting) (input input' : List Bytes) :
    (((d.wait p rs).hold w input).wait p rs').hold w input' = (d.wait p rs').hold w input' := by
  simp only [wait, hold, update_idem]

@[simp]
theorem tell_wait_tell (rs rs' : List Waiting) (events events' : Bytes) :
    (((d.wait p rs).tell w events).wait p rs').tell w events' = (d.wait p rs').tell w events' := by
  simp only [wait, tell, update_idem]

def Idle (d : Desk) (p : Place) : Prop :=
  d.waiting p = [] ∨ if p.2 = .cons then d.input p.1 = [] else d.events p.1 = []

theorem Idle.wait {q : Place} {rs : List Waiting} (idle : d.Idle p) (other : p ≠ q) :
    (d.wait q rs).Idle p := by
  rcases idle with none | none
  · exact .inl ((wait_of_ne other _).trans none)
  · exact .inr none

theorem Idle.hold {input : List Bytes} (idle : d.Idle p) (other : p ≠ (w, .cons)) :
    (d.hold w input).Idle p := by
  rcases idle with none | none
  · exact .inl none
  · right
    split_ifs at none ⊢ with kind
    · have apart : p.1 ≠ w := fun at_ => other (Prod.ext at_ kind)
      exact (hold_of_ne apart _).trans none
    · exact none

theorem Idle.tell {events : Bytes} (idle : d.Idle p) (other : p ≠ (w, .events)) :
    (d.tell w events).Idle p := by
  rcases idle with none | none
  · exact .inl none
  · right
    split_ifs at none ⊢ with kind
    · exact none
    · have last : p.2 = .events := by
        rcases p with ⟨v, _ | _⟩
        · exact absurd rfl kind
        · rfl
      have apart : p.1 ≠ w := fun at_ => other (Prod.ext at_ last)
      exact (tell_of_ne apart _).trans none

/-- What each happening does. A reader of the console is given no more than the piece that is next;
one that is refused never waits. -/
inductive Does : Desk → Entry → Desk → Prop
  | typed {d : Desk} {w : Nat} {b : Bytes} : Does d (.typed w b) (d.hold w (d.input w ++ [b]))
  | posted {d : Desk} {w : Nat} {b : Bytes} : Does d (.posted w b) (d.tell w (d.events w ++ b))
  | dropped {d : Desk} {w : Nat} : Does d (.dropped w) (d.hold w [])
  | asked {d : Desk} {p : Place} {r : Waiting} : Does d (.asked p r) (d.wait p (d.waiting p ++ [r]))
  | part {d : Desk} {w : Nat} {r : Waiting} {rs : List Waiting} {b rest : Bytes} {bs : List Bytes} :
      d.waiting (w, .cons) = r :: rs → d.input w = (b ++ rest) :: bs →
      Does d (.given (w, .cons) r b) ((d.wait (w, .cons) rs).hold w (rest :: bs))
  | piece {d : Desk} {w : Nat} {r : Waiting} {rs : List Waiting} {b : Bytes} {bs : List Bytes} :
      d.waiting (w, .cons) = r :: rs → d.input w = b :: bs →
      Does d (.given (w, .cons) r b) ((d.wait (w, .cons) rs).hold w bs)
  | event {d : Desk} {w : Nat} {r : Waiting} {rs : List Waiting} {b rest : Bytes} :
      d.waiting (w, .events) = r :: rs → d.events w = b ++ rest →
      Does d (.given (w, .events) r b) ((d.wait (w, .events) rs).tell w rest)
  | gone {d : Desk} {p : Place} {r : Waiting} {rs : List Waiting} :
      d.waiting p = r :: rs → Does d (.gone p r) (d.wait p rs)
  | refused {d : Desk} {p : Place} {r : Waiting} : Does d (.refused p r) d
  | flushed {d : Desk} {p : Place} {r : Waiting} {rs rs' : List Waiting} :
      d.waiting p = rs ++ r :: rs' → Does d (.flushed p r) (d.wait p (rs ++ rs'))

inductive Run : Desk → List Entry → Desk → Prop
  | done {d : Desk} : Run d [] d
  | step {d d' d'' : Desk} {e : Entry} {log : List Entry} :
      Does d e d' → Run d' log d'' → Run d (e :: log) d''

theorem Run.append (first : Run d log d') (rest : Run d' log' d'') : Run d (log ++ log') d'' := by
  induction first with
  | done => exact rest
  | step does _ ih => exact .step does (ih rest)

theorem Does.run (does : Does d e d') : Run d [e] d' := .step does .done

end Desk

section

variable (p : Place) (w : Nat)

def askedAt (log : List Entry) : List Waiting :=
  log.flatMap fun
    | .asked q r | .refused q r => if q = p then [r] else []
    | _ => []

def answeredAt (log : List Entry) : List Waiting :=
  log.flatMap fun
    | .given q r _ | .gone q r | .refused q r => if q = p then [r] else []
    | _ => []

def flushedAt (log : List Entry) : List Waiting :=
  log.flatMap fun
    | .flushed q r => if q = p then [r] else []
    | _ => []

def givenAt (log : List Entry) : Bytes :=
  log.flatMap fun
    | .given q _ b => if q = p then b else []
    | _ => []

def postedTo (log : List Entry) : Bytes :=
  log.flatMap fun
    | .posted v b => if v = w then b else []
    | _ => []

/-- What was typed, less what was dropped before it was given, with the places where a piece ends.
-/
structure Stream where
  given : Bytes
  typed : Bytes
  ends : List Nat
deriving DecidableEq, Repr

def Stream.note (s : Stream) : Entry → Stream
  | .typed v b =>
      if v = w then
        { s with typed := s.typed ++ b, ends := s.ends ++ [s.typed.length + b.length] }
      else s
  | .dropped v =>
      if v = w then { s with typed := s.given, ends := s.ends.filter (· ≤ s.given.length) } else s
  | .given q _ b => if q = (w, .cons) then { s with given := s.given ++ b } else s
  | _ => s

def streamOf (log : List Entry) : Stream := log.foldl (Stream.note w) ⟨[], [], []⟩

/-- No reader of the console is given what goes over the end of a piece. -/
def Uncrossed (log : List Entry) : Prop :=
  ∀ before r b after, log = before ++ .given (w, .cons) r b :: after →
    ∀ n ∈ (streamOf w before).ends, ¬((streamOf w before).given.length < n ∧
      n < (streamOf w before).given.length + b.length)

end

theorem streamOf_append (w : Nat) (log : List Entry) (e : Entry) :
    streamOf w (log ++ [e]) = (streamOf w log).note w e := by
  rw [streamOf, foldl_append]
  rfl

theorem streamOf_given (w : Nat) (log : List Entry) :
    (streamOf w log).given = givenAt (w, .cons) log := by
  induction log using List.reverseRecOn with
  | nil => rfl
  | append_singleton log e ih =>
      rw [streamOf_append, givenAt, flatMap_append, ← givenAt, ← ih]
      cases e with
      | given q r b =>
          have alone : givenAt (w, .cons) [.given q r b] = if q = (w, .cons) then b else [] :=
            append_nil _
          rw [Stream.note, ← givenAt, alone]
          split_ifs
          · rfl
          · exact (append_nil _).symm
      | typed v b | dropped v =>
          rw [Stream.note]
          split_ifs <;> exact (append_nil _).symm
      | posted | asked | gone | refused | flushed => exact (append_nil _).symm

namespace Desk

variable {d d' : Desk} {p : Place} {w : Nat} {r : Waiting} {b : Bytes} {e : Entry}
  {log log' : List Entry}

/-- Every reader that came was answered once, or is answered no more, or waits. -/
def Tallied (d : Desk) (log : List Entry) : Prop :=
  ∀ p, (askedAt p log).Perm (answeredAt p log ++ flushedAt p log ++ d.waiting p)

theorem askedAt_append : askedAt p (log ++ log') = askedAt p log ++ askedAt p log' :=
  flatMap_append

theorem answeredAt_append : answeredAt p (log ++ log') = answeredAt p log ++ answeredAt p log' :=
  flatMap_append

theorem flushedAt_append : flushedAt p (log ++ log') = flushedAt p log ++ flushedAt p log' :=
  flatMap_append

theorem perm_answered {asked answered flushed rs : List Waiting}
    (tallied : asked.Perm (answered ++ flushed ++ r :: rs)) :
    asked.Perm (answered ++ [r] ++ flushed ++ rs) := by
  rw [perm_iff_count] at tallied ⊢
  intro a
  have count := tallied a
  simp only [count_append, count_cons, count_nil] at count ⊢
  omega

theorem perm_flushed {asked answered flushed rs rs' : List Waiting}
    (tallied : asked.Perm (answered ++ flushed ++ (rs ++ r :: rs'))) :
    asked.Perm (answered ++ (flushed ++ [r]) ++ (rs ++ rs')) := by
  rw [perm_iff_count] at tallied ⊢
  intro a
  have count := tallied a
  simp only [count_append, count_cons, count_nil] at count ⊢
  omega

theorem perm_refused {asked answered flushed rs : List Waiting}
    (tallied : asked.Perm (answered ++ flushed ++ rs)) :
    (asked ++ [r]).Perm (answered ++ [r] ++ flushed ++ rs) := by
  rw [perm_iff_count] at tallied ⊢
  intro a
  have count := tallied a
  simp only [count_append, count_cons, count_nil] at count ⊢
  omega

theorem Tallied.answer {q : Place} {rs : List Waiting} (tallied : d.Tallied log)
    (waits : d.waiting q = r :: rs) (asked : ∀ p, askedAt p [e] = [])
    (answered : ∀ p, answeredAt p [e] = if q = p then [r] else [])
    (flushed : ∀ p, flushedAt p [e] = [])
    (left : d'.waiting = update d.waiting q rs) : d'.Tallied (log ++ [e]) := by
  intro p
  have here := tallied p
  rw [askedAt_append, answeredAt_append, flushedAt_append, asked, answered, flushed, left,
    append_nil, append_nil]
  by_cases same : q = p
  · subst same
    rw [waits] at here
    rw [if_pos rfl, update_self]
    exact perm_answered here
  · rw [if_neg same, append_nil, update_of_ne (Ne.symm same)]
    exact here

theorem Tallied.other (tallied : d.Tallied log) (asked : ∀ p, askedAt p [e] = [])
    (answered : ∀ p, answeredAt p [e] = []) (flushed : ∀ p, flushedAt p [e] = [])
    (left : d'.waiting = d.waiting) : d'.Tallied (log ++ [e]) := by
  intro p
  rw [askedAt_append, answeredAt_append, flushedAt_append, asked, answered, flushed, left,
    append_nil, append_nil, append_nil]
  exact tallied p

theorem Does.tallied (does : Does d e d') (tallied : d.Tallied log) : d'.Tallied (log ++ [e]) := by
  have single {α : Type} (x : α) (c : Prop) [Decidable c] :
      (if c then [x] else []) ++ [] = if c then [x] else [] := append_nil _
  cases does with
  | typed | posted | dropped =>
      exact tallied.other (fun _ => rfl) (fun _ => rfl) (fun _ => rfl) rfl
  | part waits | piece waits | event waits | gone waits =>
      exact tallied.answer waits (fun _ => rfl) (fun _ => single _ _) (fun _ => rfl) rfl
  | @asked q r =>
      intro p
      have here := tallied p
      have asked : askedAt p [.asked q r] = if q = p then [r] else [] := single _ _
      have answered : answeredAt p [.asked q r] = [] := rfl
      have flushed : flushedAt p [.asked q r] = [] := rfl
      rw [askedAt_append, answeredAt_append, flushedAt_append, asked, answered, flushed,
        append_nil, append_nil]
      by_cases same : q = p
      · subst same
        rw [if_pos rfl, wait_self, ← append_assoc]
        exact here.append_right [r]
      · rw [if_neg same, append_nil, wait_of_ne (Ne.symm same)]
        exact here
  | @refused q r =>
      intro p
      have here := tallied p
      have asked : askedAt p [.refused q r] = if q = p then [r] else [] := single _ _
      have answered : answeredAt p [.refused q r] = if q = p then [r] else [] := single _ _
      have flushed : flushedAt p [.refused q r] = [] := rfl
      rw [askedAt_append, answeredAt_append, flushedAt_append, asked, answered, flushed,
        append_nil]
      split_ifs
      · exact perm_refused here
      · rw [append_nil, append_nil]
        exact here
  | @flushed q r rs rs' waits =>
      intro p
      have here := tallied p
      have asked : askedAt p [.flushed q r] = [] := rfl
      have answered : answeredAt p [.flushed q r] = [] := rfl
      have flushed : flushedAt p [.flushed q r] = if q = p then [r] else [] := single _ _
      rw [askedAt_append, answeredAt_append, flushedAt_append, asked, answered, flushed,
        append_nil, append_nil]
      by_cases same : q = p
      · subst same
        rw [waits] at here
        rw [if_pos rfl, wait_self]
        exact perm_flushed here
      · rw [if_neg same, append_nil, wait_of_ne (Ne.symm same)]
        exact here

/-- What is left of what was posted is what was not given. -/
def Told (d : Desk) (log : List Entry) : Prop :=
  ∀ w, givenAt (w, .events) log ++ d.events w = postedTo w log

theorem givenAt_append : givenAt p (log ++ log') = givenAt p log ++ givenAt p log' :=
  flatMap_append

theorem postedTo_append : postedTo w (log ++ log') = postedTo w log ++ postedTo w log' :=
  flatMap_append

theorem Told.other (told : d.Told log) (given : ∀ w, givenAt (w, .events) [e] = [])
    (posted : ∀ w, postedTo w [e] = []) (left : d'.events = d.events) : d'.Told (log ++ [e]) := by
  intro w
  rw [givenAt_append, postedTo_append, given, posted, left, append_nil, append_nil]
  exact told w

theorem Does.told (does : Does d e d') (told : d.Told log) : d'.Told (log ++ [e]) := by
  cases does with
  | @posted w b =>
      intro v
      have given : givenAt (v, .events) [.posted w b] = [] := rfl
      have posted : postedTo v [.posted w b] = if w = v then b else [] := append_nil _
      rw [givenAt_append, postedTo_append, given, posted, append_nil]
      by_cases same : w = v
      · subst same
        rw [if_pos rfl, tell_self, ← append_assoc, told]
      · rw [if_neg same, append_nil, tell_of_ne (Ne.symm same), told]
  | @event w r rs b rest waits there =>
      intro v
      have given : givenAt (v, .events) [.given (w, .events) r b] =
          if (w, Source.events) = (v, .events) then b else [] := append_nil _
      have posted : postedTo v [.given (w, .events) r b] = [] := rfl
      have here := told v
      rw [givenAt_append, postedTo_append, given, posted, append_nil]
      by_cases same : w = v
      · subst same
        rw [there] at here
        rw [if_pos rfl, tell_self, append_assoc, here]
      · have other : (w, Source.events) ≠ (v, .events) := fun both => same (congrArg Prod.fst both)
        rw [if_neg other, append_nil, tell_of_ne (Ne.symm same)]
        exact here
  | part | piece =>
      have other (v w : Nat) : (w, Source.cons) ≠ (v, .events) := fun both => by cases both
      exact told.other (fun v => (append_nil _).trans (if_neg (other v _))) (fun _ => rfl) rfl
  | typed | dropped | asked | gone | refused | flushed =>
      exact told.other (fun _ => rfl) (fun _ => rfl) rfl

/-- What is left of what was typed and not dropped is what was not given, and the pieces that are
there end where those do that were typed. -/
structure Streaming (d : Desk) (w : Nat) (s : Stream) : Prop where
  typed : s.given ++ (d.input w).flatten = s.typed
  ends : ∀ n ∈ s.ends, n ≤ s.given.length ∨
    ∃ bs rest, d.input w = bs ++ rest ∧ bs ≠ [] ∧ n = s.given.length + bs.flatten.length

variable {s : Stream}

theorem Streaming.other (streaming : d.Streaming w s) (noted : s.note w e = s)
    (left : d'.input w = d.input w) : d'.Streaming w (s.note w e) := by
  rw [noted]
  refine ⟨?_, fun n inside => ?_⟩
  · rw [left]
    exact streaming.typed
  · rw [left]
    exact streaming.ends n inside

theorem Streaming.type (streaming : d.Streaming w s) :
    (d.hold w (d.input w ++ [b])).Streaming w
      { s with typed := s.typed ++ b, ends := s.ends ++ [s.typed.length + b.length] } := by
  refine ⟨?_, fun n inside => ?_⟩
  · rw [hold_self, flatten_append, flatten_singleton, ← append_assoc,
      streaming.typed]
  · rw [hold_self]
    rcases mem_append.1 inside with old | new
    · rcases streaming.ends n old with past | ⟨bs, rest, split, some, place⟩
      · exact .inl past
      · exact .inr ⟨bs, rest ++ [b], by rw [split, append_assoc], some, place⟩
    · right
      refine ⟨d.input w ++ [b], [], (append_nil _).symm, by simp, ?_⟩
      rw [mem_singleton.1 new, ← streaming.typed]
      simp only [length_append, flatten_append, flatten_singleton]
      omega

theorem Streaming.head (streaming : d.Streaming w s) {x : Bytes} {bs : List Bytes}
    (there : d.input w = x :: bs) : ∀ n ∈ s.ends, n ≤ s.given.length ∨
      ∃ bs' rest, bs = bs' ++ rest ∧ n = s.given.length + x.length + bs'.flatten.length := by
  intro n inside
  rcases streaming.ends n inside with past | ⟨pieces, rest, split, some, place⟩
  · exact .inl past
  · rw [there] at split
    rcases pieces with _ | ⟨y, pieces⟩
    · exact absurd rfl some
    · rw [cons_append, List.cons.injEq] at split
      rcases split with ⟨rfl, split⟩
      rw [flatten_cons, length_append, ← Nat.add_assoc] at place
      exact .inr ⟨pieces, rest, split, place⟩

theorem Streaming.part {rest : Bytes} {bs : List Bytes} (streaming : d.Streaming w s)
    (there : d.input w = (b ++ rest) :: bs) (left : d'.input w = rest :: bs) :
    d'.Streaming w { s with given := s.given ++ b } := by
  have whole := streaming.typed
  rw [there, flatten_cons] at whole
  refine ⟨?_, fun n inside => ?_⟩
  · rw [left, flatten_cons, ← whole]
    simp only [append_assoc]
  · rw [left]
    dsimp only
    rw [length_append]
    rcases streaming.head there n inside with past | ⟨pieces, more, split, place⟩
    · exact .inl (by omega)
    · refine .inr ⟨rest :: pieces, more, by rw [split]; rfl, cons_ne_nil _ _, ?_⟩
      rw [place, length_append, flatten_cons, length_append]
      omega

theorem Streaming.piece {bs : List Bytes} (streaming : d.Streaming w s)
    (there : d.input w = b :: bs) (left : d'.input w = bs) :
    d'.Streaming w { s with given := s.given ++ b } := by
  have whole := streaming.typed
  rw [there, flatten_cons] at whole
  refine ⟨?_, fun n inside => ?_⟩
  · rw [left, ← whole, append_assoc]
  · rw [left]
    dsimp only
    rw [length_append]
    rcases streaming.head there n inside with past | ⟨pieces, more, split, place⟩
    · exact .inl (by omega)
    · by_cases none : pieces = []
      · rw [none, flatten_nil, length_nil] at place
        exact .inl (by omega)
      · exact .inr ⟨pieces, more, split, none, place⟩

theorem Does.streaming (does : Does d e d') (streaming : d.Streaming w s) :
    d'.Streaming w (s.note w e) := by
  cases does with
  | @typed v b =>
      by_cases same : v = w
      · subst same
        rw [Stream.note, if_pos rfl]
        exact streaming.type
      · exact streaming.other (if_neg same) (hold_of_ne (Ne.symm same) _)
  | @dropped v =>
      by_cases same : v = w
      · subst same
        rw [Stream.note, if_pos rfl]
        refine ⟨?_, fun n inside => ?_⟩
        · rw [hold_self, flatten_nil, append_nil]
        · exact .inl (of_decide_eq_true (mem_filter.1 inside).2)
      · exact streaming.other (if_neg same) (hold_of_ne (Ne.symm same) _)
  | @part v r rs b rest bs waits there =>
      by_cases same : v = w
      · subst same
        rw [Stream.note, if_pos rfl]
        exact streaming.part there (hold_self _)
      · have other : (v, Source.cons) ≠ (w, .cons) := fun both => same (congrArg Prod.fst both)
        exact streaming.other (if_neg other) (hold_of_ne (Ne.symm same) _)
  | @piece v r rs b bs waits there =>
      by_cases same : v = w
      · subst same
        rw [Stream.note, if_pos rfl]
        exact streaming.piece there (hold_self _)
      · have other : (v, Source.cons) ≠ (w, .cons) := fun both => same (congrArg Prod.fst both)
        exact streaming.other (if_neg other) (hold_of_ne (Ne.symm same) _)
  | @event v =>
      have other : (v, Source.events) ≠ (w, .cons) := fun both => by cases both
      exact streaming.other (if_neg other) rfl
  | posted | asked | gone | refused | flushed => exact streaming.other rfl rfl

theorem Does.within (does : Does d (.given (w, .cons) r b) d') (streaming : d.Streaming w s) :
    ∀ n ∈ s.ends, ¬(s.given.length < n ∧ n < s.given.length + b.length) := by
  rintro n inside ⟨after, before⟩
  have first : ∃ rest bs, d.input w = (b ++ rest) :: bs := by
    cases does with
    | part _ there => exact ⟨_, _, there⟩
    | piece _ there => exact ⟨[], _, by rw [there, append_nil]⟩
  rcases first with ⟨rest, bs, there⟩
  rcases streaming.head there n inside with past | ⟨pieces, more, split, place⟩
  · omega
  · rw [length_append] at place
    omega

structure Kept (d : Desk) (log : List Entry) : Prop where
  tallied : d.Tallied log
  told : d.Told log
  streaming : ∀ w, d.Streaming w (streamOf w log)
  uncrossed : ∀ w, Uncrossed w log

theorem Kept.step (kept : d.Kept log) (does : Does d e d') : d'.Kept (log ++ [e]) where
  tallied := does.tallied kept.tallied
  told := does.told kept.told
  streaming w := by
    rw [streamOf_append]
    exact does.streaming (kept.streaming w)
  uncrossed w := by
    intro before r b after split
    rcases eq_nil_or_concat after with rfl | ⟨after, last, rfl⟩
    · rcases append_inj' split rfl with ⟨rfl, last⟩
      cases last
      exact does.within (kept.streaming w)
    · rw [concat_eq_append, ← cons_append, ← append_assoc] at split
      exact kept.uncrossed w before r b after (append_inj' split rfl).1

theorem Kept.run (kept : d.Kept log) (run : Run d log' d') : d'.Kept (log ++ log') := by
  induction run generalizing log with
  | done =>
      rw [append_nil]
      exact kept
  | @step d d' d'' e log' does _ ih =>
      have more := ih (kept.step does)
      rw [append_assoc] at more
      exact more

end Desk

end Ipnx.Host.Emca
