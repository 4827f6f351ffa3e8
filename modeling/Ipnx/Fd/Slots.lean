import Ipnx.Fd.Closes

/-!
# A table's slots

What `newfd`, `newfd2`, `dup`, `close` and the closes of `exec` do to one table, over any run of
them: which slots they take, how long the table gets, and when a channel comes back to be closed.
-/

namespace Ipnx

open List

namespace Fds

/-- `exec` is given the channels that are marked. -/
inductive Op where
  | newfd (c : Cell)
  | newfd2 (c0 c1 : Cell)
  | dup (old new : Fd)
  | close (fd : Fd)
  | exec (marked : Cell → Bool)

/-- The descriptors, the references that found no slot, and the channels to close. -/
structure Answer where
  fds : List Fd
  back : List Cell
  closing : List Cell
deriving DecidableEq, Repr

/-- `Rc::try_unwrap` of a reference that was taken out: the channel, if nobody refers to it. -/
def unwrap (others : Cell → Nat) (f : Fds) (c : Cell) : List Cell :=
  if f.refs c + others c = 0 then [c] else []

/-- The marked descriptors from `fd` on. -/
def execclose (others : Cell → Nat) (marked : Cell → Bool) : Nat → Nat → Fds → List Cell × Fds
  | 0, _, f => ([], f)
  | n + 1, fd, f =>
      match if (f.get fd).any marked then f.close fd else none with
      | some (c, f') =>
          let r := execclose others marked n (fd + 1) f'
          (unwrap others f' c ++ r.1, r.2)
      | none => execclose others marked n (fd + 1) f

/-- An operation, while others have so many references to each channel. -/
def act (others : Cell → Nat) (f : Fds) : Op → Answer × Fds
  | .newfd c =>
      match f.newfd c with
      | some (fd, f') => (⟨[fd], [], []⟩, f')
      | none => (⟨[], [c], []⟩, f)
  | .newfd2 c0 c1 =>
      match f.newfd2 c0 c1 with
      | some (a, b, f') => (⟨[a, b], [], []⟩, f')
      | none => (⟨[], [c0, c1], []⟩, f)
  | .dup old new =>
      match f.dup old new with
      | some (fd, oc, f') => (⟨[fd], [], oc.toList.flatMap (unwrap others f')⟩, f')
      | none => (⟨[], [], []⟩, f)
  | .close fd =>
      match f.close fd with
      | some (c, f') => (⟨[], [], unwrap others f' c⟩, f')
      | none => (⟨[], [], []⟩, f)
  | .exec marked =>
      let r := execclose others marked f.slots.length 0 f
      (⟨[], [], r.1⟩, r.2)

/-- `growfd`'s bound. -/
def most : Nat := 5000

/-- The reference is in the lowest free slot, and nothing else moved. -/
structure Takes (f : Fds) (fd : Fd) (c : Cell) (f' : Fds) : Prop where
  lowest : ∃ i : Nat, fd = i ∧ IsLeast {i : Nat | f.get i = none} i
  placed : ∀ i, f'.get i = if i = fd then some c else f.get i

/-- A channel comes back once, just when there were references to it and there are none. -/
structure Hands (others : Cell → Nat) (f f' : Fds) (closing : List Cell) : Prop where
  none_comes : ∀ c, f.refs c = 0 → f'.refs c = 0
  last : ∀ c, tally (one c) closing =
    if 0 < f.refs c + others c ∧ f'.refs c + others c = 0 then 1 else 0

/-- What the operation answers and leaves. -/
def Does (others : Cell → Nat) (f : Fds) (op : Op) (a : Answer) (f' : Fds) : Prop :=
  match op with
  | .newfd c =>
      a.closing = [] ∧
        ((∃ fd, a.fds = [fd] ∧ a.back = [] ∧ Takes f fd c f') ∨
          (a.fds = [] ∧ a.back = [c] ∧ f' = f ∧ ∀ i < most, f.get i ≠ none))
  | .newfd2 c0 c1 =>
      a.closing = [] ∧
        ((∃ fd0 fd1 mid, a.fds = [fd0, fd1] ∧ a.back = [] ∧ Takes f fd0 c0 mid ∧
            Takes mid fd1 c1 f') ∨
          (a.fds = [] ∧ a.back = [c0, c1] ∧ f' = f))
  | .dup old new =>
      Hands others f f' a.closing ∧
        (new = -1 → ∀ c, f.get old = some c → ∃ fd, a.fds = [fd] ∧ Takes f fd c f')
  | .close _ | .exec _ => Hands others f f' a.closing

/-- Every operation of a run does what it should, and leaves the table within its bound. -/
def Keeps : Fds → List ((Cell → Nat) × Op) → Prop
  | _, [] => True
  | f, (others, op) :: ops =>
      Does others f op (f.act others op).1 (f.act others op).2 ∧
        (f.act others op).2.slots.length ≤ most ∧ Keeps (f.act others op).2 ops

/-- No descriptor is duplicated to `-1` while all the table's slots are taken. -/
def Roomy : Fds → List ((Cell → Nat) × Op) → Prop
  | _, [] => True
  | f, (others, op) :: ops =>
      (∀ old, op = .dup old (-1) → f.get old ≠ none → ∃ i < most, f.get i = none) ∧
        Roomy (f.act others op).2 ops

variable {f f' : Fds} {c d : Cell} {fd : Fd}

theorem get_nat (f : Fds) (i : Nat) : f.get i = (f.slots[i]?).join :=
  get_eq (Int.natCast_nonneg i)

theorem length_put (f : Fds) (i : Nat) (c : Cell) :
    (f.put i c).slots.length = max f.slots.length (i + 1) := by
  simp only [put, grow, length_set, length_append, length_replicate]
  omega

theorem get_put (f : Fds) (i : Nat) (c : Cell) (j : Int) :
    (f.put i c).get j = if j = i then some c else f.get j := by
  rcases lt_or_ge j 0 with negative | nonneg
  · have other : ¬ j = i := by omega
    rw [get, get, if_pos negative, if_pos negative, if_neg other]
  · rw [get_eq nonneg, get_eq nonneg, put, List.getElem?_set]
    have inside : i < (f.grow i).slots.length := by
      simp only [grow, length_append, length_replicate]
      omega
    rcases eq_or_ne i j.toNat with same | other
    · have here : j = i := by omega
      rw [if_pos same, if_pos (same ▸ inside), if_pos here]
      rfl
    · have elsewhere : ¬ j = i := by omega
      rw [if_neg other, if_neg elsewhere]
      simp only [grow, List.getElem?_append, List.getElem?_replicate]
      split_ifs with held new
      · rfl
      · have past : f.slots.length ≤ j.toNat := by omega
        rw [List.getElem?_eq_none past]
        rfl
      · have past : f.slots.length ≤ j.toNat := by omega
        rw [List.getElem?_eq_none past]

theorem get_past {i : Nat} (past : f.slots.length ≤ i) : f.get i = none := by
  rw [get_nat, List.getElem?_eq_none past]
  rfl

theorem slot_free {i : Nat} (inside : i < f.slots.length) :
    f.get i = none ↔ f.slots[i]? = some none := by
  rw [get_nat, List.getElem?_eq_getElem inside]
  simp

theorem nfd_spec (within : f.slots.length ≤ most) :
    f.slots.length ≤ f.nfd ∧ f.nfd ≤ most ∧ (f.nfd < most → f.nfd + deltafd ≤ most) := by
  simp only [nfd, deltafd, most] at *
  omega

theorem search_least {start : Nat} (reached : start ≤ f.slots.length) :
    IsLeast {i : Nat | start ≤ i ∧ f.get i = none}
      (((List.range' start (f.slots.length - start)).find? fun i => f.slots[i]? == some none).getD
        (max f.slots.length start)) := by
  cases search : (List.range' start (f.slots.length - start)).find?
      (fun i => f.slots[i]? == some none) with
  | none =>
      rw [Option.getD_none, Nat.max_eq_left reached]
      refine ⟨⟨reached, get_past le_rfl⟩, ?_⟩
      rintro j ⟨above, free⟩
      by_contra below
      have inside : j < f.slots.length := by omega
      have taken := List.find?_range'_eq_none.1 search j above (by omega)
      rw [(slot_free inside).1 free] at taken
      cases taken
  | some i =>
      rcases List.find?_range'_eq_some.1 search with ⟨free, mem, lower⟩
      rw [Option.getD_some]
      have bounds := mem_range'_1.1 mem
      have inside : i < f.slots.length := by omega
      refine ⟨⟨bounds.1, (slot_free inside).2 (eq_of_beq free)⟩, ?_⟩
      rintro j ⟨above, free⟩
      by_contra below
      have inside : j < f.slots.length := by omega
      have taken := lower j above (by omega)
      rw [(slot_free inside).1 free] at taken
      cases taken

theorem findfreefd_least {start i : Nat} (within : f.slots.length ≤ most)
    (reached : start ≤ f.slots.length) (found : f.findfreefd start = some i) :
    IsLeast {i : Nat | start ≤ i ∧ f.get i = none} i ∧ i < most := by
  have least := search_least reached
  have long := nfd_spec within
  simp only [findfreefd] at found
  split_ifs at found with past
  rw [Option.some.injEq] at found
  rw [found] at least past
  have last : i ≤ f.slots.length := least.2 ⟨reached, get_past le_rfl⟩
  refine ⟨least, ?_⟩
  simp only [most, deltafd] at *
  omega

theorem findfreefd_none {start : Nat} (within : f.slots.length ≤ most)
    (reached : start ≤ f.slots.length) (found : f.findfreefd start = none) :
    ∀ i : Nat, start ≤ i → i < most → f.get i ≠ none := by
  have least := search_least reached
  have long := nfd_spec within
  simp only [findfreefd] at found
  split_ifs at found with past
  have last := least.2 ⟨reached, get_past le_rfl⟩
  intro i above below free
  have lower := least.2 ⟨above, free⟩
  simp only [most, deltafd] at *
  omega

theorem place_least (f : Fds) : IsLeast {i : Nat | f.get i = none} f.place := by
  refine ⟨?_, ?_⟩
  · exact (f.get_nat f.place).trans f.place_free
  · intro j free
    by_contra below
    rw [place] at below
    cases search : f.slots.findIdx? (· == none) with
    | none =>
        rw [search, Option.getD_none] at below
        have inside : j < f.slots.length := by omega
        have taken := List.findIdx?_eq_none_iff.1 search none
          (mem_of_getElem? ((slot_free inside).1 free))
        cases taken
    | some i =>
        rw [search, Option.getD_some] at below
        rcases List.findIdx?_eq_some_iff_getElem.1 search with ⟨inside, _, lower⟩
        have taken := lower j (by omega)
        have here : j < f.slots.length := by omega
        have free := (slot_free here).1 free
        rw [List.getElem?_eq_getElem here, Option.some.injEq] at free
        rw [free] at taken
        cases taken rfl

theorem takes_put {i : Nat} (least : IsLeast {i : Nat | f.get i = none} i) (c : Cell) :
    Takes f i c (f.put i c) :=
  ⟨⟨i, rfl, least⟩, fun j => get_put f i c j⟩

theorem least_from {i : Nat} (least : IsLeast {i : Nat | 0 ≤ i ∧ f.get i = none} i) :
    IsLeast {i : Nat | f.get i = none} i :=
  ⟨least.1.2, fun j free => least.2 ⟨Nat.zero_le j, free⟩⟩

theorem newfd_does (within : f.slots.length ≤ most) (others : Cell → Nat) (c : Cell) :
    Does others f (.newfd c) (f.act others (.newfd c)).1 (f.act others (.newfd c)).2 ∧
      (f.act others (.newfd c)).2.slots.length ≤ most := by
  simp only [act, newfd]
  cases found : f.findfreefd 0 with
  | none =>
      refine ⟨⟨rfl, .inr ⟨rfl, rfl, rfl, ?_⟩⟩, within⟩
      intro i below
      exact findfreefd_none within (Nat.zero_le _) found i (Nat.zero_le i) below
  | some i =>
      rcases findfreefd_least within (Nat.zero_le _) found with ⟨least, below⟩
      refine ⟨⟨rfl, .inl ⟨i, rfl, rfl, takes_put (least_from least) c⟩⟩, ?_⟩
      rw [length_put]
      omega

theorem newfd2_does (within : f.slots.length ≤ most) (others : Cell → Nat) (c0 c1 : Cell) :
    Does others f (.newfd2 c0 c1) (f.act others (.newfd2 c0 c1)).1
        (f.act others (.newfd2 c0 c1)).2 ∧
      (f.act others (.newfd2 c0 c1)).2.slots.length ≤ most := by
  simp only [act, newfd2]
  cases found0 : f.findfreefd 0 with
  | none => exact ⟨⟨rfl, .inr ⟨rfl, rfl, rfl⟩⟩, within⟩
  | some a =>
      rcases findfreefd_least within (Nat.zero_le _) found0 with ⟨least0, below0⟩
      have takes0 := takes_put (least_from least0) c0
      have within0 : (f.put a c0).slots.length ≤ most := by
        rw [length_put]
        omega
      have reached : a + 1 ≤ (f.put a c0).slots.length := by
        rw [length_put]
        omega
      dsimp only
      cases found1 : (f.put a c0).findfreefd (a + 1) with
      | none => exact ⟨⟨rfl, .inr ⟨rfl, rfl, rfl⟩⟩, within⟩
      | some b =>
          rcases findfreefd_least within0 reached found1 with ⟨least1, below1⟩
          have least : IsLeast {i : Nat | (f.put a c0).get i = none} b := by
            refine ⟨least1.1.2, ?_⟩
            intro j free
            have was := takes0.placed j
            split_ifs at was with same
            · exact absurd (was.symm.trans free) (Option.some_ne_none c0)
            · have lower := (least_from least0).2 (was.symm.trans free)
              exact least1.2 ⟨by omega, free⟩
          refine ⟨⟨rfl, .inl ⟨a, b, f.put a c0, rfl, rfl, takes0, takes_put least c1⟩⟩, ?_⟩
          dsimp only
          rw [length_put]
          omega

variable (others : Cell → Nat)

theorem tally_unwrap (f : Fds) (c d : Cell) :
    tally (one c) (unwrap others f d) = if c = d ∧ f.refs c + others c = 0 then 1 else 0 := by
  rw [unwrap, tally_guard, one]
  rcases eq_or_ne c d with rfl | other
  · simp
  · simp [other]

theorem unwrap_last {c : Cell} {came : Nat}
    (refs : f'.refs c + one c d = f.refs c + came) (own : f.refs c = 0 → came = 0) :
    tally (one c) (unwrap others f' d) =
      if 0 < f.refs c + others c ∧ f'.refs c + others c = 0 then 1 else 0 := by
  rw [tally_unwrap]
  rcases eq_or_ne c d with rfl | other
  · rw [one, if_pos rfl] at refs
    apply if_congr _ rfl rfl
    constructor
    · rintro ⟨_, gone⟩
      exact ⟨by omega, gone⟩
    · rintro ⟨_, gone⟩
      exact ⟨rfl, gone⟩
  · rw [one, if_neg other] at refs
    rw [if_neg (fun both => other both.1), if_neg]
    rintro ⟨_, gone⟩
    omega

theorem hands_one (refs : ∀ c, f'.refs c + one c d = f.refs c) :
    Hands others f f' (unwrap others f' d) := by
  constructor
  · intro c none_
    have fewer := refs c
    omega
  · exact fun c => unwrap_last others (refs c) fun _ => rfl

theorem hands_none (f : Fds) : Hands others f f [] := by
  constructor
  · exact fun c none_ => none_
  · intro c
    rw [tally_nil, if_neg]
    omega

theorem Hands.trans {others : Cell → Nat} {f₁ f₂ f₃ : Fds} {cs ds : List Cell}
    (first : Hands others f₁ f₂ cs) (second : Hands others f₂ f₃ ds) :
    Hands others f₁ f₃ (cs ++ ds) := by
  constructor
  · exact fun c none_ => second.none_comes c (first.none_comes c none_)
  · intro c
    have one_ := first.last c
    have two := second.last c
    have ended := first.none_comes c
    have gone := second.none_comes c
    rw [tally_append]
    split_ifs at one_ two ⊢ <;> omega

theorem close_spec (closed : f.close fd = some (d, f')) :
    f'.slots.length = f.slots.length ∧ ∀ c, f'.refs c + one c d = f.refs c := by
  refine ⟨?_, (refs_close closed).2⟩
  simp only [close] at closed
  split at closed
  · rw [Option.some.injEq, Prod.mk.injEq] at closed
    rw [← closed.2, length_set]
  · cases closed

theorem hands_execclose (marked : Cell → Bool) (n i : Nat) (f : Fds) :
    Hands others f (execclose others marked n i f).2 (execclose others marked n i f).1 ∧
      (execclose others marked n i f).2.slots.length = f.slots.length := by
  induction n generalizing i f with
  | zero => exact ⟨hands_none others f, rfl⟩
  | succ n ih =>
      rw [execclose]
      split
      next d f' closed =>
        split_ifs at closed
        have spec := close_spec closed
        rcases ih (i + 1) f' with ⟨rest, long⟩
        exact ⟨(hands_one others spec.2).trans rest, long.trans spec.1⟩
      · exact ih (i + 1) f

theorem dup_hands {old new : Int} {oc : Option Cell}
    (made : f.dup old new = some (fd, oc, f')) :
    Hands others f f' (oc.toList.flatMap (unwrap others f')) := by
  rcases refs_dup made with ⟨d, held, _, refs⟩
  have copied := refs_pos_of_get held
  have own : ∀ c, f.refs c = 0 → one c d = 0 := by
    rintro c none_
    rw [one, if_neg]
    rintro rfl
    omega
  constructor
  · intro c none_
    have moved := refs c
    have other := own c none_
    omega
  · intro c
    have moved := refs c
    have other := own c
    cases oc with
    | none =>
        rw [Option.toList_none, tally_nil] at moved
        rw [Option.toList_none, flatMap_nil, tally_nil, if_neg]
        rintro ⟨_, gone⟩
        omega
    | some e =>
        rw [Option.toList_some, tally_cons, tally_nil] at moved
        rw [Option.toList_some, flatMap_cons, flatMap_nil, append_nil]
        exact unwrap_last others moved other

theorem length_dup {old new : Int} {oc : Option Cell} (within : f.slots.length ≤ most)
    (made : f.dup old new = some (fd, oc, f')) (room : new = -1 → f.place < most) :
    f'.slots.length ≤ most := by
  have long := nfd_spec within
  simp only [dup] at made
  split at made
  · cases made
  · split_ifs at made with low out
    · rw [Option.some.injEq, Prod.mk.injEq, Prod.mk.injEq] at made
      rw [← made.2.2, length_put]
      have below := room low
      omega
    · rw [Option.some.injEq, Prod.mk.injEq, Prod.mk.injEq] at made
      rw [← made.2.2, length_put]
      simp only [most, deltafd] at *
      omega

theorem dup_lowest {old : Int} (held : f.get old = some c) :
    f.dup old (-1) = some ((f.place : Int), none, f.put f.place c) := by
  simp only [dup, held, if_true]

theorem act_iff (within : f.slots.length ≤ most) (others : Cell → Nat) (op : Op) :
    (Does others f op (f.act others op).1 (f.act others op).2 ∧
        (f.act others op).2.slots.length ≤ most) ↔
      ∀ old, op = .dup old (-1) → f.get old ≠ none → ∃ i < most, f.get i = none := by
  cases op with
  | newfd c => exact ⟨fun _ _ => nofun, fun _ => newfd_does within others c⟩
  | newfd2 c0 c1 => exact ⟨fun _ _ => nofun, fun _ => newfd2_does within others c0 c1⟩
  | dup old new =>
      cases made : f.dup old new with
      | none =>
          have refused : ∀ c, f.get old = some c → new ≠ -1 := by
            rintro c held rfl
            rw [dup_lowest held] at made
            cases made
          simp only [act, made, Does]
          constructor
          · rintro _ old' same held
            cases same
            rcases Option.ne_none_iff_exists'.1 held with ⟨c, held⟩
            exact absurd rfl (refused c held)
          · intro _
            refine ⟨⟨hands_none others f, ?_⟩, within⟩
            intro low c held
            exact absurd low (refused c held)
      | some r =>
          rcases r with ⟨fd, oc, f'⟩
          simp only [act, made, Does]
          constructor
          · rintro ⟨_, long⟩ old' same held
            cases same
            rcases Option.ne_none_iff_exists'.1 held with ⟨c, held⟩
            rw [dup_lowest held, Option.some.injEq, Prod.mk.injEq, Prod.mk.injEq] at made
            rw [← made.2.2, length_put] at long
            exact ⟨f.place, by omega, f.place_least.1⟩
          · intro room
            have below : new = -1 → f.place < most := by
              rintro rfl
              rcases refs_dup made with ⟨d, held, _⟩
              rcases room old rfl (by rw [held]; exact Option.some_ne_none d) with ⟨i, low, free⟩
              exact Nat.lt_of_le_of_lt (f.place_least.2 free) low
            refine ⟨⟨dup_hands others made, ?_⟩, length_dup within made below⟩
            rintro rfl c held
            rw [dup_lowest held, Option.some.injEq, Prod.mk.injEq, Prod.mk.injEq] at made
            rcases made with ⟨rfl, _, rfl⟩
            exact ⟨f.place, rfl, takes_put f.place_least c⟩
  | close fd =>
      refine ⟨fun _ _ => nofun, fun _ => ?_⟩
      simp only [act, Does]
      split
      next d f' closed =>
        have spec := close_spec closed
        exact ⟨hands_one others spec.2, spec.1.trans_le within⟩
      · exact ⟨hands_none others f, within⟩
  | exec marked =>
      refine ⟨fun _ _ => nofun, fun _ => ?_⟩
      rcases hands_execclose others marked f.slots.length 0 f with ⟨hands, long⟩
      exact ⟨hands, long.trans_le within⟩

/-- A table within its bound keeps to what its operations should do just when no descriptor is
duplicated to `-1` while it is full. -/
theorem keeps_iff (within : f.slots.length ≤ most) (ops : List ((Cell → Nat) × Op)) :
    Keeps f ops ↔ Roomy f ops := by
  induction ops generalizing f with
  | nil => exact ⟨fun _ => trivial, fun _ => trivial⟩
  | cons o ops ih =>
      have here := act_iff within o.1 o.2
      constructor
      · rintro ⟨does, long, rest⟩
        exact ⟨here.1 ⟨does, long⟩, (ih long).1 rest⟩
      · rintro ⟨room, rest⟩
        rcases here.2 room with ⟨does, long⟩
        exact ⟨does, long, (ih long).2 rest⟩

theorem table_keeps (ops : List ((Cell → Nat) × Op)) : Keeps empty ops ↔ Roomy empty ops :=
  keeps_iff (f := empty) (Nat.zero_le most) ops

theorem place_full (n : Nat) (c : Cell) : (⟨List.replicate n (some c)⟩ : Fds).place = n := by
  have least := place_least ⟨List.replicate n (some c)⟩
  apply Nat.le_antisymm
  · apply least.2
    apply get_past
    rw [length_replicate]
  · by_contra below
    have free := least.1
    rw [Set.mem_ofPred_eq, get_nat, List.getElem?_replicate, if_pos (by omega)] at free
    cases free

theorem put_full (n : Nat) (c : Cell) :
    (⟨List.replicate n (some c)⟩ : Fds).put n c = ⟨List.replicate (n + 1) (some c)⟩ := by
  simp [put, grow, replicate_succ']

theorem copies_keep (c : Cell) (k n : Nat) (more : 0 < k)
    (keeps : Keeps ⟨List.replicate (n + 1) (some c)⟩ (List.replicate k (others, .dup 0 (-1)))) :
    n + 1 + k ≤ most := by
  induction k generalizing n with
  | zero => cases more
  | succ k ih =>
      have copied : (Fds.act others ⟨List.replicate (n + 1) (some c)⟩ (.dup 0 (-1))).2 =
          ⟨List.replicate (n + 2) (some c)⟩ := by
        have held : (⟨List.replicate (n + 1) (some c)⟩ : Fds).get 0 = some c := rfl
        rw [act, dup_lowest held, place_full, put_full]
      rcases keeps with ⟨_, long, rest⟩
      rw [copied] at long rest
      rw [length_replicate] at long
      rcases Nat.eq_zero_or_pos k with rfl | more
      · exact long
      · have all := ih (n + 1) more rest
        omega

theorem table_fails :
    ¬ Keeps empty
      ((fun _ => 0, .newfd 7) :: List.replicate 5000 (fun _ => 0, .dup 0 (-1))) := by
  rintro ⟨_, _, rest⟩
  have all := copies_keep (fun _ => 0) 7 5000 0 (by decide) rest
  cases Nat.not_succ_le_self 5000 all

end Fds

end Ipnx
