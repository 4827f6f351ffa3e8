import Mathlib.Data.List.Sort
import Mathlib.Data.List.TakeWhile

/-!
# Agendas

Who waits for which time, soonest first. An entry is put before the first that is not due
before it, and those whose time has come are the first of the list.
-/

namespace Ipnx

open List

namespace Agenda

universe u

variable {α : Type u} {due due' : α → Nat} {list : List α} {a b : α} {now : Nat}

/-- Soonest first. -/
def Sorted (due : α → Nat) (list : List α) : Prop := list.Pairwise fun a b => due a ≤ due b

def add (due : α → Nat) (list : List α) (a : α) : List α :=
  list.insertIdx ((list.findIdx? fun b => due a ≤ due b).getD list.length) a

theorem add_cons : add due (b :: list) a =
    if due a ≤ due b then a :: b :: list else b :: add due list a := by
  by_cases sooner : due a ≤ due b
  · simp [add, List.findIdx?_cons, sooner]
  · rcases place : list.findIdx? fun b => due a ≤ due b with _ | n
    · simp [add, List.findIdx?_cons, sooner, place]
    · simp [add, List.findIdx?_cons, sooner, place]

theorem add_eq : add due list a = list.orderedInsert (fun a b => due a ≤ due b) a := by
  induction list with
  | nil => rfl
  | cons b rest ih => rw [add_cons, orderedInsert_cons, ih]

theorem mem_add : b ∈ add due list a ↔ b = a ∨ b ∈ list := by
  rw [add_eq, mem_orderedInsert]

theorem nodup_add (nodup : list.Nodup) (absent : a ∉ list) : (add due list a).Nodup := by
  rw [add_eq, (perm_orderedInsert _ _ _).nodup_iff, nodup_cons]
  exact ⟨absent, nodup⟩

theorem come (taken : a ∈ list.takeWhile fun a => due a ≤ now) : due a ≤ now := by
  simpa using mem_takeWhile_imp taken

variable (sorted : Sorted due list)

include sorted

theorem Sorted.congr (same : ∀ a ∈ list, due' a = due a) : Sorted due' list := by
  apply List.Pairwise.imp_of_mem _ sorted
  intro a b first second before
  rw [same a first, same b second]
  exact before

theorem Sorted.add (a : α) : Sorted due (add due list a) := by
  rw [add_eq]
  have : Std.Total fun a b => due a ≤ due b := ⟨fun a b => Nat.le_total (due a) (due b)⟩
  have : IsTrans α fun a b => due a ≤ due b := ⟨fun _ _ _ => Nat.le_trans⟩
  exact List.Pairwise.orderedInsert a list sorted

theorem Sorted.filter (p : α → Bool) : Sorted due (list.filter p) :=
  List.Pairwise.filter p sorted

/-- What is left once the first are taken is due later. -/
theorem Sorted.later (left : b ∈ list.dropWhile fun a => due a ≤ now) : now < due b := by
  induction list with
  | nil => cases left
  | cons a rest ih =>
      rcases pairwise_cons.mp sorted with ⟨first, sorted⟩
      by_cases come : due a ≤ now
      · exact ih sorted (by simpa [come] using left)
      · have later : now < due a := not_le.mp come
        rw [dropWhile_cons_of_neg (by simpa using later)] at left
        rcases mem_cons.mp left with rfl | behind
        · exact later
        · exact later.trans_le (first b behind)

/-- All whose time has come are among the first. -/
theorem Sorted.taken (there : b ∈ list) (come : due b ≤ now) :
    b ∈ list.takeWhile fun a => due a ≤ now := by
  rw [← takeWhile_append_dropWhile (p := fun a => due a ≤ now) (l := list),
    mem_append] at there
  exact there.resolve_right fun left => absurd come (not_le.mpr (sorted.later left))

/-- The first is the soonest. -/
theorem Sorted.head (there : b ∈ list) : ∃ a, list.head? = some a ∧ due a ≤ due b := by
  rcases list with _ | ⟨a, rest⟩
  · cases there
  · refine ⟨a, rfl, ?_⟩
    rcases mem_cons.mp there with rfl | behind
    · exact le_rfl
    · exact (pairwise_cons.mp sorted).1 b behind

end Agenda

end Ipnx
