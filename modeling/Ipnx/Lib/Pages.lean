import Mathlib.Data.List.Infix
import Mathlib.Data.List.ReduceOption

/-!
# Reading items by pages

Items are read as their elements, so many at a time, and a page is whole items. `packs` is as many
of them as fit. `Paged` is what a reader may rely on: each page is the next items, one with nothing
comes when there are none left, and a page is refused when its first item does not fit.
-/

namespace Ipnx

open List

universe u v

variable {α : Type u} {β : Type v} {body : α → List β} {left given rest : List α} {n : Nat}

/-- The first items, as many as fit whole. -/
def packs (body : α → List β) : Nat → List α → List α
  | _, [] => []
  | n, a :: as => if n < (body a).length then [] else a :: packs body (n - (body a).length) as

/-- The answers to reads of at most so many elements: the items in turn, none of them twice, an
empty page at their end only, and an error only where the next does not fit. -/
def Paged (body : α → List β) : List α → List Nat → List (Option (List β)) → Prop
  | left, n :: ns, none :: pages =>
      (∃ a, left.head? = some a ∧ n < (body a).length) ∧ Paged body left ns pages
  | left, _ :: ns, some page :: pages => ∃ given rest, left = given ++ rest ∧
      page = given.flatMap body ∧ (given = [] → rest = []) ∧ Paged body rest ns pages
  | _, [], [] => True
  | _, _, _ => False

/-- What is asked at each read of what is left then, the pages being packed. -/
def Along (body : α → List β) (room : List α → Nat → Prop) : List α → List Nat → Prop
  | _, [] => True
  | left, n :: ns =>
      room left n ∧ Along body room (left.drop (packs body n left).length) ns

def Room (body : α → List β) (left : List α) (n : Nat) : Prop :=
  ∀ a, left.head? = some a → (body a).length ≤ n

/-- So many elements are whole items, or more than all of them. -/
def Even (body : α → List β) (left : List α) (n : Nat) : Prop :=
  left = [] ∨ n ≠ 0 ∧
    ((packs body n left).flatMap body).length = min n (left.flatMap body).length

theorem packs_front (body : α → List β) (n : Nat) (left : List α) : packs body n left <+: left := by
  induction left generalizing n with
  | nil => exact prefix_rfl
  | cons a as ih =>
      rw [packs]
      split_ifs
      · exact nil_prefix
      · exact cons_prefix_cons.2 ⟨rfl, ih _⟩

theorem packs_append (body : α → List β) (n : Nat) (left : List α) :
    packs body n left ++ left.drop (packs body n left).length = left := by
  have front := prefix_iff_eq_take.1 (packs_front body n left)
  nth_rewrite 1 [front]
  exact take_append_drop _ _

theorem length_packs_le (body : α → List β) (n : Nat) (left : List α) :
    ((packs body n left).flatMap body).length ≤ n := by
  induction left generalizing n with
  | nil => exact Nat.zero_le n
  | cons a as ih =>
      rw [packs]
      split_ifs with big
      · exact Nat.zero_le n
      · have rest := ih (n - (body a).length)
        rw [flatMap_cons, length_append]
        omega

/-- Nothing fits just when there is nothing, or the first item does not fit. -/
theorem packs_eq_nil : packs body n left = [] ↔ ∀ a, left.head? = some a → n < (body a).length := by
  cases left with
  | nil =>
      refine ⟨fun _ a first => ?_, fun _ => rfl⟩
      cases first
  | cons a as =>
      rw [packs]
      split_ifs with big
      · refine ⟨fun _ a' first => ?_, fun _ => rfl⟩
        cases first
        exact big
      · constructor
        · rintro ⟨⟩
        · intro all
          exact absurd (all a rfl) big

/-- Where so many elements are whole items, they are the ones packed. -/
theorem take_of_even (even : Even body left n) :
    (left.flatMap body).take n = (packs body n left).flatMap body := by
  rcases even with rfl | ⟨-, even⟩
  · rw [packs, flatMap_nil, take_nil]
  rcases packs_front body n left with ⟨rest, whole⟩
  have short := length_packs_le body n left
  have total := congrArg (fun l => (l.flatMap body).length) whole
  rw [flatMap_append, length_append] at total
  have past : (rest.flatMap body).take (n - ((packs body n left).flatMap body).length) = [] := by
    apply length_eq_zero_iff.1
    rw [length_take]
    omega
  nth_rewrite 1 [← whole]
  rw [flatMap_append, take_append, take_of_length_le short, past, append_nil]

variable (some_ : ∀ a, body a ≠ [])

include some_

/-- Items that take exactly what there is room for, or are all of them, are what is packed. -/
theorem packs_of_even
    (even : (given.flatMap body).length = min n ((given ++ rest).flatMap body).length) :
    packs body n (given ++ rest) = given := by
  induction given generalizing n with
  | nil =>
      apply packs_eq_nil.2
      intro a first
      cases rest with
      | nil => cases first
      | cons b rest =>
        cases first
        have long := length_pos_iff.2 (some_ a)
        rw [nil_append, flatMap_cons, length_append, flatMap_nil,
          length_nil] at even
        omega
  | cons a as ih =>
      rw [cons_append, flatMap_cons, flatMap_cons, length_append,
        length_append] at even
      rw [cons_append, packs, if_neg (by omega), ih (by omega)]

theorem eq_nil_of_flatMap_eq_nil (empty : given.flatMap body = []) : given = [] := by
  cases given with
  | nil => rfl
  | cons a as =>
      rw [flatMap_cons, append_eq_nil_iff] at empty
      exact absurd empty.1 (some_ a)

/-- Beginnings of one list with the same elements are one. -/
theorem prefix_eq_of_flatMap {given' : List α} (front : given <+: left)
    (front' : given' <+: left) (same : given.flatMap body = given'.flatMap body) :
    given = given' := by
  rcases prefix_or_prefix_of_prefix front front' with ⟨more, rfl⟩ | ⟨more, rfl⟩
  · rw [flatMap_append, self_eq_append_right] at same
    rw [eq_nil_of_flatMap_eq_nil some_ same, append_nil]
  · rw [flatMap_append, append_right_eq_self] at same
    rw [eq_nil_of_flatMap_eq_nil some_ same, append_nil]

/-- A page of items is right if it is not empty before the end, and the others are right of what
it leaves. -/
theorem paged_cons {ns : List Nat} {pages : List (Option (List β))} :
    Paged body (given ++ rest) (n :: ns) (some (given.flatMap body) :: pages) ↔
      (given = [] → rest = []) ∧ Paged body rest ns pages := by
  rw [Paged]
  constructor
  · rintro ⟨given', rest', split_, same, ends, later⟩
    have front : given' <+: given ++ rest := by
      rw [split_]
      exact prefix_append given' rest'
    have one := prefix_eq_of_flatMap some_ (prefix_append given rest) front same
    subst one
    rw [append_cancel_left split_]
    exact ⟨ends, later⟩
  · rintro ⟨ends, later⟩
    exact ⟨given, rest, rfl, rfl, ends, later⟩

/-- A packed page is right where there is room for its first item. -/
theorem paged_packs {ns : List Nat} {pages : List (Option (List β))} :
    Paged body left (n :: ns) (some ((packs body n left).flatMap body) :: pages) ↔
      Room body left n ∧ Paged body (left.drop (packs body n left).length) ns pages := by
  nth_rewrite 1 [← packs_append body n left]
  rw [paged_cons some_]
  refine and_congr_left' ⟨fun ends a first => ?_, fun room empty => ?_⟩
  · by_contra big
    have none_ : packs body n left = [] := by
      apply packs_eq_nil.2
      intro a' first'
      rw [first] at first'
      cases first'
      exact Nat.lt_of_not_le big
    have over_ := ends none_
    rw [none_, length_nil, drop_zero] at over_
    rw [over_] at first
    cases first
  · rw [empty, length_nil, drop_zero]
    cases left with
    | nil => rfl
    | cons a as =>
        have fits := room a rfl
        have big := packs_eq_nil.1 empty a rfl
        exact absurd fits (Nat.not_le.2 big)

/-- The first elements, so many, are a right page where they are whole items. -/
theorem paged_take {ns : List Nat} {pages : List (Option (List β))} :
    Paged body left (n :: ns) (some ((left.flatMap body).take n) :: pages) ↔
      Even body left n ∧ Paged body (left.drop (packs body n left).length) ns pages := by
  constructor
  · rintro ⟨given, rest, rfl, same, ends, later⟩
    have length := congrArg List.length same
    rw [length_take] at length
    have packed := packs_of_even some_ length.symm
    rw [packed, drop_left]
    refine ⟨?_, later⟩
    by_cases none_ : given = []
    · left
      rw [none_, ends none_]
      rfl
    · right
      have long := length_pos_iff.2 fun empty => none_ (eq_nil_of_flatMap_eq_nil some_ empty)
      rw [packed]
      exact ⟨by omega, length.symm⟩
  · rintro ⟨even, later⟩
    refine ⟨packs body n left, _, (packs_append body n left).symm, take_of_even even, ?_, later⟩
    intro empty
    rcases even with rfl | ⟨some', even⟩
    · exact drop_nil
    · rw [empty, flatMap_nil, length_nil] at even
      have none_ : left.flatMap body = [] := length_eq_zero_iff.1 (by omega)
      rw [eq_nil_of_flatMap_eq_nil some_ none_, drop_nil]

/-- Once there was an empty page, the pages are all the items. -/
theorem Paged.whole {ns : List Nat} {pages : List (Option (List β))}
    (paged : Paged body left ns pages) (ended : some [] ∈ pages) :
    pages.reduceOption.flatten = left.flatMap body := by
  have gone : ∀ {ns : List Nat} {pages : List (Option (List β))}, Paged body [] ns pages →
      pages.reduceOption.flatten = [] := by
    intro ns pages
    induction pages generalizing ns with
    | nil => intro _; rfl
    | cons page pages ih =>
        intro paged
        cases ns with
        | nil => cases page <;> exact absurd paged not_false
        | cons n ns =>
            cases page with
            | none =>
                rcases paged with ⟨⟨a, first, -⟩, -⟩
                cases first
            | some page =>
                rcases paged with ⟨given, rest, split_, rfl, -, later⟩
                rcases nil_eq_append_iff.1 split_ with ⟨rfl, rfl⟩
                exact ih later
  induction pages generalizing left ns with
  | nil => cases ended
  | cons page pages ih =>
      cases ns with
      | nil => cases page <;> exact absurd paged not_false
      | cons n ns =>
          cases page with
          | none =>
              rcases mem_cons.1 ended with same | later
              · cases same
              · exact ih paged.2 later
          | some page =>
              rcases paged with ⟨given, rest, rfl, rfl, ends, later⟩
              rw [reduceOption_cons_of_some, flatten_cons, flatMap_append]
              by_cases empty : given = []
              · have over_ := ends empty
                subst over_
                rw [gone later, flatMap_nil]
              · rcases mem_cons.1 ended with same | ended
                · rw [Option.some.injEq] at same
                  exact absurd (eq_nil_of_flatMap_eq_nil some_ same.symm) empty
                · rw [ih later ended]

end Ipnx
