import Mathlib.Data.List.Basic

/-!
# Extents of a growing array

A list read and written by extents. What is put past its end leaves a gap before it, and a list
sized beyond its end grows; a filler stands in the places that come to be in between.
-/

namespace Ipnx

open List

universe u

variable {β : Type u} {zero : β} {b data : List β} {off n : Nat}

/-- The elements of `[off, off + n)` that there are. -/
def extent (b : List β) (off n : Nat) : List β := (b.drop off).take n

/-- The elements with others laid over them from `off` on. -/
def laid (zero : β) (b : List β) (off : Nat) (data : List β) : List β :=
  b.take off ++ List.replicate (off - b.length) zero ++ data ++ b.drop (off + data.length)

/-- The first `n` elements. -/
def sized (zero : β) (b : List β) (n : Nat) : List β :=
  b.take n ++ List.replicate (n - b.length) zero

theorem extent_of_le (past : b.length ≤ off) : extent b off n = [] := by
  rw [extent, drop_eq_nil_of_le past, take_nil]

@[simp]
theorem extent_zero : extent b off 0 = [] := by
  rw [extent, take_zero]

/-- An extent from where the array ends is an extent from anywhere past it. -/
theorem extent_min : extent b (min off b.length) n = extent b off n := by
  rcases Nat.le_total off b.length with within | past
  · rw [Nat.min_eq_left within]
  · rw [Nat.min_eq_right past, extent_of_le (Nat.le_refl _), extent_of_le past]

/-- There is something to read of an extent that begins in the array. -/
theorem extent_ne_nil (within : off < b.length) (some : n ≠ 0) : extent b off n ≠ [] := by
  intro empty
  have length := congrArg List.length empty
  rw [extent, length_take, length_drop, length_nil] at length
  omega

theorem length_laid : (laid zero b off data).length = max b.length (off + data.length) := by
  simp only [laid, length_append, length_take, length_replicate, length_drop]
  omega

/-- The elements laid are where they were laid; before them and after them are the old ones, and
the filler where there were none. -/
theorem getElem?_laid (i : Nat) :
    (laid zero b off data)[i]? =
      if i < off then (if i < b.length then b[i]? else some zero)
      else if i < off + data.length then data[i - off]? else b[i]? := by
  have front : (b.take off ++ List.replicate (off - b.length) zero).length = off := by
    rw [length_append, length_take, length_replicate]
    omega
  rw [laid, append_assoc]
  split_ifs with before old within
  · rw [List.getElem?_append_left (by omega),
      List.getElem?_append_left (by rw [length_take]; omega), List.getElem?_take_of_lt before]
  · have taken : (b.take off).length = b.length := by
      rw [length_take]
      omega
    rw [List.getElem?_append_left (by omega), List.getElem?_append_right (by omega), taken,
      List.getElem?_replicate, if_pos (by omega)]
  · rw [List.getElem?_append_right (by omega), front, List.getElem?_append_left (by omega)]
  · rw [List.getElem?_append_right (by omega), front, List.getElem?_append_right (by omega),
      List.getElem?_drop]
    congr 1
    omega

theorem length_sized : (sized zero b n).length = n := by
  rw [sized, length_append, length_take, length_replicate]
  omega

/-- The old elements as far as they are kept, and the filler after them. -/
theorem getElem?_sized (i : Nat) : (sized zero b n)[i]? =
    if i < n then (if i < b.length then b[i]? else some zero) else none := by
  rw [sized]
  split_ifs with within old
  · rw [List.getElem?_append_left (by rw [length_take]; omega),
      List.getElem?_take_of_lt within]
  · have taken : (b.take n).length = b.length := by
      rw [length_take]
      omega
    rw [List.getElem?_append_right (by omega), taken, List.getElem?_replicate, if_pos (by omega)]
  · rw [List.getElem?_eq_none]
    rw [length_append, length_take, length_replicate]
    omega

/-- An array sized to where what is laid ends has no gap. -/
theorem laid_sized (short : b.length < off + data.length) :
    (sized zero b (off + data.length)).take off ++ data ++
      (sized zero b (off + data.length)).drop (off + data.length) = laid zero b off data := by
  refine ext_getElem? fun i => ?_
  have front : ((sized zero b (off + data.length)).take off).length = off := by
    rw [length_take, length_sized]
    omega
  have last : (sized zero b (off + data.length)).drop (off + data.length) = [] :=
    drop_eq_nil_of_le (Nat.le_of_eq length_sized)
  rw [getElem?_laid, last, append_nil]
  split_ifs with before old within
  · rw [List.getElem?_append_left (by omega), List.getElem?_take_of_lt before, getElem?_sized,
      if_pos (by omega), if_pos old]
  · rw [List.getElem?_append_left (by omega), List.getElem?_take_of_lt before, getElem?_sized,
      if_pos (by omega), if_neg old]
  · rw [List.getElem?_append_right (by omega), front]
  · rw [List.getElem?_append_right (by omega), front, List.getElem?_eq_none (by omega),
      List.getElem?_eq_none (by omega)]

/-- Where the array reaches as far as what is laid, nothing is filled. -/
theorem laid_of_le (long : off + data.length ≤ b.length) :
    laid zero b off data = b.take off ++ data ++ b.drop (off + data.length) := by
  have gap : off - b.length = 0 := by omega
  rw [laid, gap, replicate_zero, append_nil]

end Ipnx
