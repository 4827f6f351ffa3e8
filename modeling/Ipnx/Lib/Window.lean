import Mathlib.Data.List.Basic

/-!
# A window of a memory

A memory as a function of the address. `slice` reads a window of it and `splice` writes one, and
`overwrite` writes into bytes that were read before. What was read is read back once it is
written, and an address outside the window keeps its byte.
-/

namespace Ipnx

open List

universe u

variable {β : Type u} {mem mem' : Nat → β} {low top a : Nat} {img bytes : List β}

/-- The bytes of `[low, top)`. -/
def slice (mem : Nat → β) (low top : Nat) : List β := (List.range' low (top - low)).map mem

/-- The memory with `img` written from `low` on. -/
def splice (mem : Nat → β) (low : Nat) (img : List β) : Nat → β := fun a =>
  if low ≤ a then (img[a - low]?).getD (mem a) else mem a

/-- The bytes with others written from the `i`th on. -/
def overwrite (img : List β) (i : Nat) (bytes : List β) : List β :=
  img.take i ++ bytes ++ img.drop (i + bytes.length)

@[simp]
theorem length_slice : (slice mem low top).length = top - low := by
  rw [slice, length_map, length_range']

theorem getElem?_slice (i : Nat) :
    (slice mem low top)[i]? = if i < top - low then some (mem (low + i)) else none := by
  rw [slice, List.getElem?_map]
  split_ifs with inside
  · rw [List.getElem?_range' inside]
    simp
  · rw [List.getElem?_eq_none (by simpa using inside)]
    rfl

theorem splice_below (below : a < low) : splice mem low img a = mem a :=
  if_neg (Nat.not_le.2 below)

theorem splice_above (above : low + img.length ≤ a) : splice mem low img a = mem a := by
  rw [splice, if_pos (by omega), List.getElem?_eq_none (by omega)]
  rfl

theorem splice_congr (same : mem a = mem' a) : splice mem low img a = splice mem' low img a := by
  rw [splice, splice, same]

/-- What was written is read back. -/
theorem slice_splice (fits : img.length = top - low) :
    slice (splice mem low img) low top = img := by
  refine ext_getElem? fun i => ?_
  rw [getElem?_slice]
  split_ifs with inside
  · rw [splice, if_pos (Nat.le_add_right low i), Nat.add_sub_cancel_left]
    rw [List.getElem?_eq_getElem (by omega)]
    rfl
  · rw [List.getElem?_eq_none (by omega)]

/-- What was read is put back. -/
theorem splice_slice {mem'' : Nat → β} (from_ : low ≤ a) (below : a < top) :
    splice mem'' low (slice mem low top) a = mem a := by
  rw [splice, if_pos from_, getElem?_slice, if_pos (by omega), Nat.add_sub_cancel' from_]
  rfl

/-- Writing into the bytes read is reading what was written. -/
theorem overwrite_slice (from_ : low ≤ a) (upto : a + bytes.length ≤ top) :
    overwrite (slice mem low top) (a - low) bytes = slice (splice mem a bytes) low top := by
  refine ext_getElem? fun i => ?_
  have taken : ((slice mem low top).take (a - low)).length = a - low := by
    rw [length_take, length_slice]
    omega
  rw [getElem?_slice, overwrite]
  rcases Nat.lt_or_ge i (a - low) with before | past
  · rw [append_assoc, List.getElem?_append_left (by omega), List.getElem?_take_of_lt before,
      getElem?_slice, splice_below (by omega)]
  · rw [append_assoc, List.getElem?_append_right (by omega), taken]
    rcases Nat.lt_or_ge (i - (a - low)) bytes.length with within | after
    · rw [List.getElem?_append_left within, if_pos (by omega), splice, if_pos (by omega)]
      have index : low + i - a = i - (a - low) := by omega
      rw [index, List.getElem?_eq_getElem within]
      rfl
    · rw [List.getElem?_append_right after, List.getElem?_drop, getElem?_slice]
      have index : a - low + bytes.length + (i - (a - low) - bytes.length) = i := by omega
      rw [index]
      split_ifs
      · rw [splice_above (by omega)]
      · rfl

end Ipnx
