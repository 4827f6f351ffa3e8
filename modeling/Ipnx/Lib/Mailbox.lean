import Mathlib.Data.List.Basic

/-!
# A mailbox

A queue of at most so many letters, with an account of what was put in and of what was handed
over. Letters are put in at the end and handed over from the front; some may be taken away in
between. What is handed over is then part of what was put in, in its order, each letter once.
-/

namespace Ipnx

universe u

/-- The letters that wait, those that were ever put in and those handed over. -/
structure Mailbox (α : Type u) where
  queue : List α
  posted : List α
  handed : List α

namespace Mailbox

variable {α : Type u} {cap : Nat} {m m' : Mailbox α}

/-- What may happen to one that holds `cap` letters. -/
inductive Change (cap : Nat) (m : Mailbox α) : Mailbox α → Prop
  /-- Letters are taken away. -/
  | lose {left : List α} : left.Sublist m.queue → Change cap m { m with queue := left }
  /-- Letters are put in behind those that are left. -/
  | post {left more : List α} : left.Sublist m.queue → (left ++ more).length ≤ cap →
      Change cap m { m with queue := left ++ more, posted := m.posted ++ more }
  /-- The first is handed over. -/
  | hand {a : α} {rest : List α} : m.queue = a :: rest →
      Change cap m { m with queue := rest, handed := m.handed ++ [a] }

/-- The queue is short enough, and what was handed over or waits was put in, in that order. -/
structure Inv (cap : Nat) (m : Mailbox α) : Prop where
  short : m.queue.length ≤ cap
  ordered : (m.handed ++ m.queue).Sublist m.posted

theorem Change.refl : Change cap m m := .lose (List.Sublist.refl _)

theorem inv_empty : Inv cap (⟨[], [], []⟩ : Mailbox α) :=
  ⟨Nat.zero_le _, List.Sublist.refl _⟩

theorem Inv.handed (inv : m.Inv cap) : m.handed.Sublist m.posted :=
  (List.sublist_append_left _ _).trans inv.ordered

/-- Every change keeps the account. -/
theorem Inv.change (inv : m.Inv cap) (change : Change cap m m') : m'.Inv cap := by
  cases change with
  | lose left =>
      refine ⟨Nat.le_trans left.length_le inv.short, ?_⟩
      apply List.Sublist.trans _ inv.ordered
      apply List.Sublist.append_left left
  | @post left more kept room =>
      refine ⟨room, ?_⟩
      simp only
      rw [← List.append_assoc]
      apply List.Sublist.append_right
      apply List.Sublist.trans _ inv.ordered
      apply List.Sublist.append_left kept
  | @hand a rest first =>
      have ordered := inv.ordered
      have short := inv.short
      rw [first] at ordered short
      simp only [List.length_cons] at short
      refine ⟨by simp only; omega, ?_⟩
      simpa using ordered

end Mailbox

end Ipnx
