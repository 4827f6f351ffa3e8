import Mathlib.Algebra.BigOperators.Group.Finset.Piecewise
import Mathlib.Algebra.Order.BigOperators.Group.Finset

/-!
# Families of queues

A queue for each index, an element put at the tail of one of them or taken out of it, and
what the two do to the number of elements, to how often an element occurs over all the
queues, and to the agreement of the queues with a function that says where each element
belongs.
-/

namespace Ipnx

open List

universe u v

namespace Queues

variable {Index : Type u} {Elem : Type v} [DecidableEq Index] [DecidableEq Elem]
  {queues : Index → List Elem} {place : Index} {elem : Elem} {indices : Finset Index}

/-- An element put at the tail of one queue. -/
def push (queues : Index → List Elem) (place : Index) (elem : Elem) : Index → List Elem :=
  Function.update queues place (queues place ++ [elem])

/-- An element's first occurrence taken out of one queue. -/
def take (queues : Index → List Elem) (place : Index) (elem : Elem) : Index → List Elem :=
  Function.update queues place ((queues place).erase elem)

/-- The number of elements in the queues. -/
def total (queues : Index → List Elem) (indices : Finset Index) : Nat :=
  ∑ index ∈ indices, (queues index).length

/-- How often an element occurs in the queues. -/
def occ (queues : Index → List Elem) (indices : Finset Index) (elem : Elem) : Nat :=
  ∑ index ∈ indices, (queues index).count elem

omit [DecidableEq Elem] in
@[simp]
theorem push_of_ne {index : Index} (differs : index ≠ place) :
    push queues place elem index = queues index := by
  simp [push, differs]

@[simp]
theorem take_of_ne {index : Index} (differs : index ≠ place) :
    take queues place elem index = queues index := by
  simp [take, differs]

theorem count_push (index : Index) (other : Elem) :
    (push queues place elem index).count other =
      (queues index).count other + if index = place ∧ other = elem then 1 else 0 := by
  rcases eq_or_ne index place with rfl | differs
  · rcases eq_or_ne other elem with rfl | distinct
    · simp [push]
    · simp [push, distinct, distinct.symm]
  · simp [differs]

theorem count_take (index : Index) (other : Elem) :
    (take queues place elem index).count other =
      (queues index).count other - if index = place ∧ other = elem then 1 else 0 := by
  rcases eq_or_ne index place with rfl | differs
  · rcases eq_or_ne other elem with rfl | distinct
    · simp [take, count_erase_self]
    · simp [take, distinct, count_erase_of_ne distinct]
  · simp [differs]

section Inside

variable (inside : place ∈ indices)

include inside

omit [DecidableEq Elem] in
theorem total_push : total (push queues place elem) indices = total queues indices + 1 := by
  simp only [total]
  rw [← Finset.add_sum_erase _ _ inside, ← Finset.add_sum_erase _ _ inside]
  have others : ∑ index ∈ indices.erase place, (push queues place elem index).length =
      ∑ index ∈ indices.erase place, (queues index).length :=
    Finset.sum_congr rfl fun index member => by
      rw [push_of_ne (Finset.ne_of_mem_erase member)]
  rw [others]
  simp only [push, Function.update_self, length_append, length_singleton]
  omega

theorem total_take (present : elem ∈ queues place) :
    total (take queues place elem) indices = total queues indices - 1 := by
  simp only [total]
  rw [← Finset.add_sum_erase _ _ inside, ← Finset.add_sum_erase _ _ inside]
  have others : ∑ index ∈ indices.erase place, (take queues place elem index).length =
      ∑ index ∈ indices.erase place, (queues index).length :=
    Finset.sum_congr rfl fun index member => by
      rw [take_of_ne (Finset.ne_of_mem_erase member)]
  have nonempty : 0 < (queues place).length := length_pos_of_mem present
  rw [others]
  simp only [take, Function.update_self, length_erase_of_mem present]
  omega

theorem occ_push (other : Elem) : occ (push queues place elem) indices other =
      occ queues indices other + if other = elem then 1 else 0 := by
  simp only [occ, count_push, Finset.sum_add_distrib]
  congr 1
  rcases eq_or_ne other elem with rfl | distinct
  · simp [inside]
  · simp [distinct]

theorem occ_take (present : elem ∈ queues place) (other : Elem) :
    occ (take queues place elem) indices other + (if other = elem then 1 else 0) =
      occ queues indices other := by
  simp only [occ]
  rw [← Finset.add_sum_erase _ _ inside, ← Finset.add_sum_erase _ _ inside]
  have others : ∑ index ∈ indices.erase place, (take queues place elem index).count other =
      ∑ index ∈ indices.erase place, (queues index).count other :=
    Finset.sum_congr rfl fun index member => by
      rw [take_of_ne (Finset.ne_of_mem_erase member)]
  rw [others, count_take]
  have positive : 0 < (queues place).count elem := count_pos_iff.mpr present
  rcases eq_or_ne other elem with rfl | distinct
  · simp only [and_self, if_true]
    omega
  · simp [distinct]

omit [DecidableEq Index] in
theorem occ_pos_of_mem (present : elem ∈ queues place) : 0 < occ queues indices elem :=
  lt_of_lt_of_le (count_pos_iff.mpr present)
    (Finset.single_le_sum (f := fun index => (queues index).count elem)
      (fun _ _ => Nat.zero_le _) inside)

end Inside

/-- Every element is once in the queue where it belongs, and in no other. -/
def Placed (queues : Index → List Elem) (home : Elem → Option Index) : Prop :=
  ∀ index elem, (queues index).count elem = if home elem = some index then 1 else 0

namespace Placed

variable {home : Elem → Option Index}

theorem mem_iff (placed : Placed queues home) :
    elem ∈ queues place ↔ home elem = some place := by
  rw [← count_pos_iff, placed place elem]
  split <;> simp_all

theorem push (placed : Placed queues home) (elem : Elem) (place : Index)
    (absent : home elem = none) :
    Placed (Queues.push queues place elem) (Function.update home elem (some place)) := by
  intro index other
  rw [count_push, placed index other]
  rcases eq_or_ne other elem with rfl | distinct
  · simp [absent, eq_comm]
  · simp [distinct]

theorem take (placed : Placed queues home) (elem : Elem) (place : Index)
    (present : home elem = some place) :
    Placed (Queues.take queues place elem) (Function.update home elem none) := by
  intro index other
  rw [count_take, placed index other]
  rcases eq_or_ne other elem with rfl | distinct
  · simp [present, eq_comm]
  · simp [distinct]

end Placed

end Queues

end Ipnx
