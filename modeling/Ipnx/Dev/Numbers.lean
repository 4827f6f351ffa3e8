import Ipnx.Dev.Chan
import Mathlib.Data.Nat.Digits.Defs

/-!
# The number in a text

What `strtoul` is to read: the value of the digits after the blanks, the sign and the prefix, held
at the largest number that 32 bits have. The code multiplies and adds in 32 bits and looks at each
step whether it went past them.
-/

namespace Ipnx.Dev

/-- What a byte counts as a digit: the letters of either case go on after `9`. -/
def value (c : UInt8) : Option Nat :=
  if 48 ≤ c.toNat ∧ c.toNat ≤ 57 then some (c.toNat - 48)
  else if 97 ≤ c.toNat ∧ c.toNat ≤ 122 then some (c.toNat - 97 + 10)
  else if 65 ≤ c.toNat ∧ c.toNat ≤ 90 then some (c.toNat - 65 + 10)
  else none

def valid (base : Nat) (c : UInt8) : Bool := (value c).any (· < base)

/-- The values of the longest run of valid digits that a text starts with. -/
def figures (base : Nat) (s : Bytes) : List Nat := (s.takeWhile (valid base)).filterMap value

/-- The number that a run of digits writes, the first digit counting most. -/
def amount (base : Nat) (s : Bytes) : Nat := Nat.ofDigits base (figures base s).reverse

/-- The base, and the text that its digits start: `0x` is taken off only before a digit. -/
def radix : Bytes → Nat × Bytes
  | 48 :: x :: h :: s =>
      if (x = 120 ∨ x = 88) ∧ valid 16 h = true then (16, h :: s) else (8, 48 :: x :: h :: s)
  | 48 :: s => (8, 48 :: s)
  | s => (10, s)

/-- The number that a text starts with, as 32 bits can tell it. -/
def reference (s : Bytes) : Nat :=
  let signed := sign (s.dropWhile isspace)
  let written := radix signed.2
  let V := amount written.1 written.2
  if 2 ^ 32 ≤ V then 2 ^ 32 - 1 else if signed.1 then (2 ^ 32 - V) % 2 ^ 32 else V

theorem value_digit (base : UInt32) (c : UInt8) :
    (digit base c).toNat = (value c).getD base.toNat := by
  have less (k : UInt8) (above : k ≤ c) : (c - k).toUInt32.toNat = c.toNat - k.toNat := by
    rw [UInt8.toNat_toUInt32, UInt8.toNat_sub_of_le _ _ above]
  have bound := c.toNat_lt
  simp only [digit, value, UInt8.le_iff_toNat_le, UInt8.reduceToNat] at less ⊢
  split
  · rename_i numeral
    rw [less 48 numeral.1]
    rfl
  · split
    · rename_i lower
      rw [UInt32.toNat_add, less 97 lower.1]
      simp
      omega
    · split
      · rename_i upper
        rw [UInt32.toNat_add, less 65 upper.1]
        simp
        omega
      · rfl

theorem valid_iff (base : UInt32) (c : UInt8) :
    valid base.toNat c = true ↔ ¬ base ≤ digit base c := by
  rw [UInt32.le_iff_toNat_le, value_digit]
  cases counted : value c <;> simp [valid, counted]

theorem figures_cons {base : UInt32} {c : UInt8} {s : Bytes} (taken : ¬ base ≤ digit base c) :
    figures base.toNat (c :: s) = (digit base c).toNat :: figures base.toNat s := by
  have counts := (valid_iff base c).mpr taken
  rw [value_digit]
  cases counted : value c with
  | none => simp [valid, counted] at counts
  | some v => simp [figures, counts, counted]

theorem figures_stop {base : UInt32} {c : UInt8} {s : Bytes} (stopped : base ≤ digit base c) :
    figures base.toNat (c :: s) = [] := by
  have counts : ¬ valid base.toNat c = true := fun counts => (valid_iff base c).mp counts stopped
  simp [figures, counts]

/-- What the loop holds of a number: the number itself, or that it no longer fits. -/
def Held (n : UInt32) (ovfl : Bool) (N : Nat) : Prop :=
  if ovfl = true then 2 ^ 32 ≤ N else n.toNat = N

/-- One digit more: the test finds out exactly the products and sums that 32 bits do not have. -/
theorem Held.digit {base n v : UInt32} {ovfl : Bool} {N : Nat}
    (bases : base = 8 ∨ base = 10 ∨ base = 16) (small : ¬ base ≤ v) (held : Held n ovfl N) :
    Held (n * base + v) (ovfl || 0xffffffff / base < n || n * base + v < n)
      (v.toNat + base.toNat * N) := by
  have room := n.toNat_lt
  rw [UInt32.le_iff_toNat_le] at small
  cases ovfl with
  | true =>
      simp only [Held, if_true, Bool.true_or] at held ⊢
      rcases bases with rfl | rfl | rfl <;> simp at small ⊢ <;> omega
  | false =>
      simp only [Held, Bool.false_or, Bool.false_eq_true, if_false] at held ⊢
      subst held
      simp only [Bool.or_eq_true, decide_eq_true_eq, UInt32.lt_iff_toNat_lt, UInt32.toNat_add,
        UInt32.toNat_mul, UInt32.toNat_div]
      rcases bases with rfl | rfl | rfl <;> simp at small ⊢ <;> split <;> omega

/-- The whole run, by induction on the text: the loop holds the number written so far. -/
theorem held_digits {base : UInt32} (bases : base = 8 ∨ base = 10 ∨ base = 16) (s : Bytes)
    (n : UInt32) (ovfl : Bool) (N : Nat) (held : Held n ovfl N) :
    Held (digits base n ovfl s).1 (digits base n ovfl s).2
      ((figures base.toNat s).foldl (fun N v => v + base.toNat * N) N) := by
  induction s generalizing n ovfl N with
  | nil => simpa [digits, figures] using held
  | cons c s ih =>
      rw [digits]
      split
      · rename_i stopped
        rw [figures_stop stopped]
        exact held
      · rename_i taken
        rw [figures_cons taken]
        apply ih
        exact held.digit bases taken

theorem held_amount {base : UInt32} (bases : base = 8 ∨ base = 10 ∨ base = 16) (s : Bytes) :
    Held (digits base 0 false s).1 (digits base 0 false s).2 (amount base.toNat s) := by
  have held : Held 0 false 0 := by simp [Held]
  rw [amount, Nat.ofDigits_eq_foldr, List.foldr_reverse]
  exact held_digits bases s 0 false 0 held

theorem basis_cases (s : Bytes) : (basis s).1 = 8 ∨ (basis s).1 = 10 ∨ (basis s).1 = 16 := by
  fun_cases basis s <;> simp [*]

theorem amount_zero {base : Nat} {x : UInt8} {s : Bytes} (bases : base = 8 ∨ base = 16)
    (letter : x = 120 ∨ x = 88) : amount base (48 :: x :: s) = 0 := by
  rcases bases with rfl | rfl <;> rcases letter with rfl | rfl <;>
    simp [amount, figures, valid, value]

theorem amount_basis (s : Bytes) :
    amount (basis s).1.toNat (basis s).2 = amount (radix s).1 (radix s).2 := by
  have counted (h : UInt8) : valid 16 h = true ↔ digit 16 h < 16 := by
    rw [← UInt32.not_le]
    exact valid_iff 16 h
  fun_cases basis s with
  | case1 x letter h s small =>
      rw [radix, if_pos ⟨letter, (counted h).mpr small⟩]
      rfl
  | case2 x letter h s large =>
      have bare : ¬ ((x = 120 ∨ x = 88) ∧ valid 16 h = true) :=
        fun both => large ((counted h).mp both.2)
      rw [radix, if_neg bare]
      exact (amount_zero (.inr rfl) letter).trans (amount_zero (.inl rfl) letter).symm
  | case3 x letter =>
      exact (amount_zero (.inr rfl) letter).trans (amount_zero (.inl rfl) letter).symm
  | case4 x s other =>
      have octal : radix (48 :: x :: s) = (8, 48 :: x :: s) := by
        cases s <;> simp [radix, other]
      rw [octal]
      rfl
  | case5 => rfl
  | case6 s short single =>
      have decimal : radix s = (10, s) := by
        rcases s with _ | ⟨c, s⟩
        · rfl
        · have other : c ≠ 48 := by
            rintro rfl
            rcases s with _ | ⟨x, s⟩
            · exact single rfl
            · exact short x s rfl
          simp [radix, other]
      rw [decimal]
      rfl

/-- `strtoul` reads the number that the text starts with, for every text. -/
theorem strtoul_reference (s : Bytes) : (strtoul s).toNat = reference s := by
  have held := held_amount (basis_cases (sign (s.dropWhile isspace)).2)
    (basis (sign (s.dropWhile isspace)).2).2
  rw [amount_basis, Held] at held
  rw [strtoul, reference]
  split at held
  · rename_i past
    simp only [past, held, if_true]
    rfl
  · rename_i fits
    rw [← held]
    have room := (digits (basis (sign (s.dropWhile isspace)).2).1 0 false
      (basis (sign (s.dropWhile isspace)).2).2).1.toNat_lt
    simp [fits, Nat.not_le.mpr room]
    split <;> simp

example : strtoul [48, 120, 103] = 0 := by decide

end Ipnx.Dev
