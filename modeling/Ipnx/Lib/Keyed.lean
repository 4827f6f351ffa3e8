import Ipnx.Lib.Tally
import Mathlib.Data.List.Nodup

/-!
# Finite maps that can be counted over

A map from keys to values as a list with one entry for each key. What a `HashMap` does to
its entries is done here to the list, and a `tally` over the values moves by the entry that
came or went.
-/

namespace Ipnx

open List

universe u v

/-- Values by key, at most one for each. -/
structure Keyed (κ : Type u) (α : Type v) where
  entries : List (κ × α)
  nodup : (entries.map Prod.fst).Nodup

namespace Keyed

variable {κ : Type u} {α : Type v} [DecidableEq κ]

omit [DecidableEq κ] in
@[ext]
theorem ext {m m' : Keyed κ α} (same : m.entries = m'.entries) : m = m' := by
  cases m
  cases m'
  simp_all

def empty : Keyed κ α := ⟨[], nodup_nil⟩

def find (m : Keyed κ α) (key : κ) : Option α :=
  (m.entries.find? (·.1 == key)).map (·.2)

def erase (m : Keyed κ α) (key : κ) : Keyed κ α where
  entries := m.entries.eraseP (·.1 == key)
  nodup := m.nodup.sublist (eraseP_sublist.map _)

theorem find_mem {m : Keyed κ α} {key : κ} {a : α} (found : m.find key = some a) :
    m.entries.find? (·.1 == key) = some (key, a) := by
  simp only [find, Option.map_eq_some_iff] at found
  rcases found with ⟨⟨key', a'⟩, entry, rfl⟩
  have same := List.find?_some entry
  simp only [beq_iff_eq] at same
  rw [entry, same]

theorem erase_of_find {m : Keyed κ α} {key : κ} (free : m.find key = none) :
    m.erase key = m := by
  simp only [find, Option.map_eq_none_iff, List.find?_eq_none] at free
  exact ext (eraseP_of_forall_not free)

/-- A key that was erased is not there. -/
theorem not_mem_erase (m : Keyed κ α) (key : κ) :
    key ∉ (m.erase key).entries.map Prod.fst := by
  rcases m with ⟨entries, nodup⟩
  simp only [erase]
  induction entries with
  | nil => simp
  | cons entry rest ih =>
      simp only [map_cons, nodup_cons] at nodup
      by_cases same : entry.1 = key
      · simp only [eraseP_cons, same, beq_self_eq_true, cond_true]
        rw [← same]
        exact nodup.1
      · have other : (entry.1 == key) = false := by simp [same]
        simp only [eraseP_cons, other, cond_false, map_cons, mem_cons, not_or]
        exact ⟨fun eq => same eq.symm, ih nodup.2⟩

@[simp]
theorem find_erase (m : Keyed κ α) (key : κ) : (m.erase key).find key = none := by
  have absent := m.not_mem_erase key
  simp only [find, Option.map_eq_none_iff, List.find?_eq_none, beq_iff_eq]
  intro entry member same
  exact absent (mem_map.mpr ⟨entry, member, same⟩)

/-- The others are left. -/
theorem find_erase_of_ne (m : Keyed κ α) {key other : κ} (ne : other ≠ key) :
    (m.erase key).find other = m.find other := by
  rcases m with ⟨entries, nodup⟩
  simp only [find, erase]
  induction entries with
  | nil => rfl
  | cons entry rest ih =>
      simp only [map_cons, nodup_cons] at nodup
      by_cases same : entry.1 = key
      · have missed : (entry.1 == other) = false := by
          simp only [beq_eq_false_iff_ne]
          exact fun eq => ne (eq.symm.trans same)
        simp only [eraseP_cons, same, beq_self_eq_true, cond_true]
        rw [List.find?_cons, missed]
      · have kept : (entry.1 == key) = false := by simp [same]
        simp only [eraseP_cons, kept, cond_false, List.find?_cons]
        cases entry.1 == other with
        | true => rfl
        | false => exact ih nodup.2

def insert (m : Keyed κ α) (key : κ) (a : α) : Keyed κ α where
  entries := (key, a) :: (m.erase key).entries
  nodup := nodup_cons.mpr ⟨m.not_mem_erase key, (m.erase key).nodup⟩

@[simp]
theorem find_insert (m : Keyed κ α) (key : κ) (a : α) : (m.insert key a).find key = some a := by
  simp only [find, insert, List.find?_cons, beq_self_eq_true, Option.map_some]

theorem find_insert_of_ne (m : Keyed κ α) {key other : κ} (ne : other ≠ key) (a : α) :
    (m.insert key a).find other = m.find other := by
  have missed : (key == other) = false := by
    simp only [beq_eq_false_iff_ne]
    exact ne.symm
  rw [← m.find_erase_of_ne ne]
  simp only [find, insert, List.find?_cons, missed]

/-- What was put at a key is gone once the key is erased. -/
theorem erase_insert (m : Keyed κ α) (key : κ) (a : α) :
    (m.insert key a).erase key = m.erase key := by
  apply ext
  simp [insert, erase]

def sum (weight : α → Nat) (m : Keyed κ α) : Nat := tally (fun e => weight e.2) m.entries

theorem sum_erase (weight : α → Nat) {m : Keyed κ α} {key : κ} {a : α}
    (found : m.find key = some a) :
    (m.erase key).sum weight + weight a = m.sum weight :=
  tally_eraseP (fun e : κ × α => weight e.2) (find_mem found)

theorem sum_insert (weight : α → Nat) {m : Keyed κ α} {key : κ} (free : m.find key = none)
    (a : α) : (m.insert key a).sum weight = weight a + m.sum weight := by
  simp only [sum, insert, erase_of_find free, tally_cons]

/-- An entry is what is found at its key. -/
theorem find_of_mem {m : Keyed κ α} {key : κ} {a : α} (member : (key, a) ∈ m.entries) :
    m.find key = some a := by
  rcases m with ⟨entries, nodup⟩
  simp only [find] at member ⊢
  induction entries with
  | nil => cases member
  | cons entry rest ih =>
      simp only [map_cons, nodup_cons] at nodup
      rcases mem_cons.mp member with rfl | below
      · simp only [List.find?_cons, beq_self_eq_true, Option.map_some]
      · have other : (entry.1 == key) = false := by
          simp only [beq_eq_false_iff_ne]
          rintro rfl
          exact nodup.1 (mem_map.mpr ⟨_, below, rfl⟩)
        simp only [List.find?_cons, other]
        exact ih nodup.2 below

theorem sum_eq_zero (weight : α → Nat) {m : Keyed κ α}
    (light : ∀ key a, m.find key = some a → weight a = 0) : m.sum weight = 0 :=
  tally_eq_zero _ fun entry member => light entry.1 entry.2 (find_of_mem member)

end Keyed

end Ipnx
