import Mathlib.Algebra.BigOperators.Group.List.Basic
import Mathlib.Algebra.Ring.Nat

/-!
# Counting over lists

`tally weight l` adds up a weight over the entries of a list. A place in a list is written,
an entry joins or leaves, and the tally moves by the weights of what came and went. The
statements keep to addition, so that counts of several lists balance by `omega`.
-/

namespace Ipnx

open List

universe u

variable {α : Type u} (weight : α → Nat)

def tally (l : List α) : Nat := (l.map weight).sum

@[simp]
theorem tally_nil : tally weight [] = 0 := rfl

@[simp]
theorem tally_cons (a : α) (l : List α) :
    tally weight (a :: l) = weight a + tally weight l := by
  simp [tally]

@[simp]
theorem tally_append (l l' : List α) :
    tally weight (l ++ l') = tally weight l + tally weight l' := by
  simp [tally]

theorem tally_replicate (n : Nat) (a : α) : tally weight (List.replicate n a) = n * weight a := by
  induction n with
  | zero => rw [replicate_zero, tally_nil, Nat.zero_mul]
  | succ n ih => rw [replicate_succ, tally_cons, ih, Nat.succ_mul, Nat.add_comm]

theorem tally_eq_zero {l : List α} (light : ∀ a ∈ l, weight a = 0) : tally weight l = 0 := by
  induction l with
  | nil => exact tally_nil weight
  | cons a l ih =>
      have head : weight a = 0 := light a (by simp)
      have tail : tally weight l = 0 := ih fun b member => light b (by simp [member])
      rw [tally_cons, head, tail]

/-- Writing a place exchanges the weight of what was there for that of what is. -/
theorem tally_set {l : List α} {i : Nat} {a : α} (old : l[i]? = some a) (b : α) :
    tally weight (l.set i b) + weight a = tally weight l + weight b := by
  induction l generalizing i with
  | nil => simp at old
  | cons c l ih =>
      cases i with
      | zero =>
          simp only [List.getElem?_cons_zero, Option.some.injEq] at old
          simp only [set_cons_zero, tally_cons, old]
          omega
      | succ i =>
          have rest := ih (by simpa using old)
          simp only [set_cons_succ, tally_cons]
          omega

/-- An entry counts no more than the whole. -/
theorem le_tally {l : List α} {i : Nat} {a : α} (entry : l[i]? = some a) :
    weight a ≤ tally weight l := by
  induction l generalizing i with
  | nil => simp at entry
  | cons c l ih =>
      cases i with
      | zero =>
          simp only [List.getElem?_cons_zero, Option.some.injEq] at entry
          simp only [tally_cons, entry]
          omega
      | succ i =>
          have rest := ih (by simpa using entry)
          simp only [tally_cons]
          omega

/-- Taking the first entry that satisfies a test takes its weight. -/
theorem tally_eraseP {p : α → Bool} {l : List α} {a : α} (found : l.find? p = some a) :
    tally weight (l.eraseP p) + weight a = tally weight l := by
  induction l with
  | nil => simp at found
  | cons b l ih =>
      by_cases holds : p b = true
      · simp only [List.find?_cons, holds, Option.some.injEq] at found
        subst found
        simp only [eraseP_cons, holds, cond_true, tally_cons]
        omega
      · have rest := ih (by simpa [List.find?_cons, holds] using found)
        simp only [eraseP_cons, holds, cond_false, tally_cons]
        omega

end Ipnx
