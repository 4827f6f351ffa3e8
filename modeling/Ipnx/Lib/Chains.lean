import Mathlib.Algebra.BigOperators.Fin

/-!
# Hash chains

A table of entries in chains, one for each bucket, and what it weighs when each entry has a
weight in a commutative monoid. A change to one chain changes the total by what the chain's
total changes by. The laws are stated with additions only, so they serve for counts and for
multisets alike.
-/

namespace Ipnx

universe u v w

variable {ι : Type u} {α : Type v} {M : Type w} [AddCommMonoid M]

/-- What the entries of a list weigh together. -/
def load (weight : α → M) (l : List α) : M := (l.map weight).sum

section Load

variable (weight : α → M)

@[simp]
theorem load_nil : load weight [] = 0 := rfl

@[simp]
theorem load_cons (a : α) (l : List α) : load weight (a :: l) = weight a + load weight l := by
  simp [load]

@[simp]
theorem load_append (l m : List α) : load weight (l ++ m) = load weight l + load weight m := by
  simp [load]

theorem load_set {l : List α} {j : Nat} {a b : α} (found : l[j]? = some a) :
    load weight (l.set j b) + weight a = load weight l + weight b := by
  induction l generalizing j with
  | nil => simp at found
  | cons c l ih =>
      rcases j with _ | j
      · simp only [List.getElem?_cons_zero, Option.some.injEq] at found
        subst found
        simp only [List.set_cons_zero, load_cons]
        rw [add_right_comm, add_comm (weight b), add_right_comm]
      · simp only [List.set_cons_succ, load_cons, add_assoc, ih found]

theorem load_eraseIdx {l : List α} {j : Nat} {a : α} (found : l[j]? = some a) :
    load weight (l.eraseIdx j) + weight a = load weight l := by
  induction l generalizing j with
  | nil => simp at found
  | cons c l ih =>
      rcases j with _ | j
      · simp only [List.getElem?_cons_zero, Option.some.injEq] at found
        subst found
        simp [add_comm]
      · simp only [List.eraseIdx_cons_succ, load_cons, add_assoc, ih found]

theorem load_modify {l : List α} {j : Nat} {a : α} (f : α → α) (found : l[j]? = some a) :
    load weight (l.modify j f) + weight a = load weight l + weight (f a) := by
  have set : l.modify j f = l.set j (f a) := by
    rw [List.modify_eq_set_getElem?, found]
    rfl
  rw [set, load_set weight found]

/-- Weighed by the list of its parts, a list weighs the list of all of them. -/
theorem load_coe {β : Type w} (parts : α → List β) (l : List α) :
    load (fun a => (parts a : Multiset β)) l = (l.flatMap parts : List β) := by
  induction l with
  | nil => rfl
  | cons a l ih => simp [ih, ← Multiset.coe_add]

end Load

variable [Fintype ι] [DecidableEq ι] (weight : α → M) (chains : ι → List α)

def weigh : M := ∑ i, load weight (chains i)

/-- The total with one chain left out of the account. -/
theorem weigh_split (i : ι) : ∃ rest : M, weigh weight chains = load weight (chains i) + rest ∧
    ∀ l, weigh weight (Function.update chains i l) = load weight l + rest := by
  refine ⟨∑ j ∈ Finset.univ.erase i, load weight (chains j), ?_, ?_⟩
  · rw [weigh, ← Finset.add_sum_erase _ _ (Finset.mem_univ i)]
  · intro l
    rw [weigh, ← Finset.add_sum_erase _ _ (Finset.mem_univ i), Function.update_self]
    congr 1
    apply Finset.sum_congr rfl
    intro j member
    rw [Function.update_of_ne (Finset.ne_of_mem_erase member)]

theorem weigh_push (i : ι) (a : α) :
    weigh weight (Function.update chains i (chains i ++ [a])) = weigh weight chains + weight a := by
  obtain ⟨rest, before, after⟩ := weigh_split weight chains i
  rw [after, before]
  simp only [load_append, load_cons, load_nil, add_zero]
  ac_rfl

theorem weigh_set {i : ι} {j : Nat} {a b : α} (found : (chains i)[j]? = some a) :
    weigh weight (Function.update chains i ((chains i).set j b)) + weight a =
      weigh weight chains + weight b := by
  obtain ⟨rest, before, after⟩ := weigh_split weight chains i
  rw [after, before, add_right_comm, load_set weight found]
  ac_rfl

theorem weigh_eraseIdx {i : ι} {j : Nat} {a : α} (found : (chains i)[j]? = some a) :
    weigh weight (Function.update chains i ((chains i).eraseIdx j)) + weight a =
      weigh weight chains := by
  obtain ⟨rest, before, after⟩ := weigh_split weight chains i
  rw [after, before, add_right_comm, load_eraseIdx weight found]

theorem weigh_modify {i : ι} {j : Nat} {a : α} (f : α → α) (found : (chains i)[j]? = some a) :
    weigh weight (Function.update chains i ((chains i).modify j f)) + weight a =
      weigh weight chains + weight (f a) := by
  obtain ⟨rest, before, after⟩ := weigh_split weight chains i
  rw [after, before, add_right_comm, load_modify weight f found]
  ac_rfl

omit [DecidableEq ι] in
@[simp]
theorem weigh_empty : weigh weight (fun _ : ι => ([] : List α)) = 0 := by
  simp [weigh]

theorem weigh_coe {β : Type w} {n : Nat} (parts : α → List β) (chains : Fin n → List α) :
    weigh (fun a => (parts a : Multiset β)) chains =
      ((List.finRange n).flatMap fun b => (chains b).flatMap parts : List β) := by
  simp only [weigh, load_coe, Fin.sum_univ_def]
  exact load_coe (fun b => (chains b).flatMap parts) (List.finRange n)

end Ipnx
