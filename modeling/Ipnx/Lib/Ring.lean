import Mathlib.Data.Nat.ModEq

/-!
# A ring of slots

What the slots of a ring hold from a place on, round its end. A slot past what is held can be
written and nothing that is held is lost, as long as the ring is not full.
-/

namespace Ipnx.Ring

variable {α : Type} {n at_ : Nat} {slot : Nat → α} {xs ys : List α}

/-- From a place on the slots hold these. -/
def Holds (n : Nat) (slot : Nat → α) (at_ : Nat) (xs : List α) : Prop :=
  ∀ i x, xs[i]? = some x → slot ((at_ + i) % n) = x

theorem holds_nil : Holds n slot at_ [] := by
  intro i x there
  rw [List.getElem?_nil] at there
  cases there

theorem holds_append :
    Holds n slot at_ (xs ++ ys) ↔ Holds n slot at_ xs ∧ Holds n slot (at_ + xs.length) ys := by
  constructor
  · intro holds
    refine ⟨?_, ?_⟩
    · intro i x there
      apply holds i x
      rwa [List.getElem?_append_left (List.getElem?_eq_some_iff.1 there).1]
    · intro i x there
      rw [Nat.add_assoc]
      apply holds (xs.length + i) x
      rwa [List.getElem?_append_right (by omega), Nat.add_sub_cancel_left]
  · rintro ⟨first, second⟩ i x there
    by_cases inside : i < xs.length
    · rw [List.getElem?_append_left inside] at there
      exact first i x there
    · rw [List.getElem?_append_right (by omega)] at there
      have slotted := second _ x there
      have place : at_ + xs.length + (i - xs.length) = at_ + i := by omega
      rwa [place] at slotted

/-- Places less than a round apart are different slots. -/
theorem slot_ne {i j : Nat} (less : i < j) (round : j < i + n) : (at_ + i) % n ≠ (at_ + j) % n := by
  intro same
  have divides : n ∣ (at_ + j) - (at_ + i) := (Nat.modEq_iff_dvd' (by omega)).1 same
  have whole := Nat.le_of_dvd (by omega) divides
  omega

/-- A slot that is not one of those held. -/
theorem Holds.update {place : Nat} {x : α} (holds : Holds n slot at_ xs)
    (away : ∀ i < xs.length, (at_ + i) % n ≠ place) :
    Holds n (Function.update slot place x) at_ xs := by
  intro i y there
  rw [Function.update_of_ne (away i (List.getElem?_eq_some_iff.1 there).1)]
  exact holds i y there

/-- The next slot is written, and it is one more that is held. -/
theorem Holds.put {x : α} (holds : Holds n slot at_ xs) (room : xs.length < n) :
    Holds n (Function.update slot ((at_ + xs.length) % n) x) at_ (xs ++ [x]) := by
  rw [holds_append]
  refine ⟨holds.update fun i inside => slot_ne inside (by omega), ?_⟩
  intro i y there
  rcases i with _ | i
  · cases there
    rw [Nat.add_zero, Function.update_self]
  · cases there

/-- A ring counted from a place some rounds on holds the same. -/
theorem Holds.congr {at_' : Nat} (holds : Holds n slot at_ xs) (same : at_' ≡ at_ [MOD n]) :
    Holds n slot at_' xs := by
  intro i x there
  have place : (at_' + i) % n = (at_ + i) % n := same.add_right i
  rw [place]
  exact holds i x there

end Ipnx.Ring
