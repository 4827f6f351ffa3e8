import Mathlib.Data.List.Infix

/-!
# Names of things

A tree gives each of its things one path, and a thing once gone is not made again. A path written
down for a thing stays where the thing is, across what others do to the tree, unless the path or
one above it is renamed.
-/

namespace Ipnx

open List
open Function (update update_apply update_of_ne)

variable {α I : Type} [DecidableEq α]

/-- What each path names, and what was ever named. -/
structure Names (α I : Type) where
  find : List α → Option I
  used : I → Prop
  known : ∀ p i, find p = some i → used i
  once : ∀ p q i, find p = some i → find q = some i → p = q
  rooted : find [] = none → ∀ p, find p = none

namespace Names

variable {n n' : Names α I} {p q r : List α} {i : I}

def Live (n : Names α I) (i : I) : Prop := ∃ p, n.find p = some i

/-- A path where a thing was, and still is if it is anywhere. -/
def At (n : Names α I) (r : List α) (i : I) : Prop := n.used i ∧ ∀ p, n.find p = some i → p = r

/-- What paths name once one of them, with all below it, is at another, in the place of what was
there. -/
def moved (find : List α → Option I) (p q r : List α) : Option I :=
  if q <+: r then find (p ++ r.drop q.length) else if p <+: r then none else find r

def Same (n n' : Names α I) : Prop := n'.find = n.find ∧ n'.used = n.used

def Made (p : List α) (n n' : Names α I) : Prop :=
  ∃ i, ¬n.used i ∧ n'.find = update n.find p (some i) ∧ ∀ j, n'.used j ↔ n.used j ∨ j = i

def Removed (p : List α) (n n' : Names α I) : Prop :=
  n'.find = update n.find p none ∧ n'.used = n.used

def Renamed (p q : List α) (n n' : Names α I) : Prop :=
  n'.find = moved n.find p q ∧ n'.used = n.used

omit [DecidableEq α] in
theorem at_of_find (found : n.find r = some i) : n.At r i :=
  ⟨n.known r i found, fun p there => n.once p r i there found⟩

section Named

variable (named : n.At r i)

include named

omit [DecidableEq α] in
theorem At.find (live : n.Live i) : n.find r = some i := by
  rcases live with ⟨p, there⟩
  rw [← named.2 p there]
  exact there

omit [DecidableEq α] in
/-- Where there is no root there is nothing. -/
theorem At.of_rootless (none_ : n.find [] = none) (q : List α) : n.At q i := by
  refine ⟨named.1, ?_⟩
  intro p there
  rw [n.rooted none_ p] at there
  cases there

omit [DecidableEq α] in
theorem At.same (same : Same n n') : n'.At r i := by
  rcases same with ⟨find, used⟩
  refine ⟨by rw [used]; exact named.1, ?_⟩
  intro p there
  rw [find] at there
  exact named.2 p there

theorem At.made (made : Made p n n') : n'.At r i := by
  rcases made with ⟨j, fresh, find, used⟩
  refine ⟨(used i).2 (Or.inl named.1), ?_⟩
  intro p' there
  rw [find, update_apply] at there
  split_ifs at there
  · cases there
    exact absurd named.1 fresh
  · exact named.2 p' there

theorem At.removed (removed : Removed p n n') : n'.At r i := by
  rcases removed with ⟨find, used⟩
  refine ⟨by rw [used]; exact named.1, ?_⟩
  intro p' there
  rw [find, update_apply] at there
  split_ifs at there
  exact named.2 p' there

/-- A path not at or below the one renamed stays, or what it named is gone. -/
theorem At.renamed (renamed : Renamed p q n n') (clear : n.Live i → ¬p <+: r) : n'.At r i := by
  rcases renamed with ⟨find, used⟩
  refine ⟨by rw [used]; exact named.1, ?_⟩
  intro p' there
  rw [find, moved] at there
  split_ifs at there
  · have same := named.2 _ there
    exact absurd ⟨_, same⟩ (clear ⟨_, there⟩)
  · exact named.2 p' there

end Named

/-- The path renamed goes with what it named. -/
theorem At.follow (named : n.At p i) (renamed : Renamed p q n n') : n'.At q i := by
  rcases renamed with ⟨find, used⟩
  refine ⟨by rw [used]; exact named.1, ?_⟩
  intro p' there
  rw [find, moved] at there
  split_ifs at there with below above
  · have same := named.2 _ there
    rcases below with ⟨t, rfl⟩
    rw [drop_left] at same
    rw [append_right_eq_self.1 same, append_nil]
  · exact absurd (named.2 p' there ▸ prefix_rfl) above

theorem moved_eq {find : List α → Option I} (found : moved find p q r = some i) :
    (∃ t, r = q ++ t ∧ find (p ++ t) = some i) ∨ ¬q <+: r ∧ ¬p <+: r ∧ find r = some i := by
  rw [moved] at found
  split_ifs at found with below above
  · rcases below with ⟨t, rfl⟩
    rw [drop_left] at found
    exact Or.inl ⟨t, rfl, found⟩
  · exact Or.inr ⟨below, above, found⟩

/-- The names with one, not the root's, at another. -/
def move (n : Names α I) (p q : List α) (off : p ≠ []) (on : q ≠ []) : Names α I where
  find := moved n.find p q
  used := n.used
  known r i found := by
    rcases moved_eq found with ⟨t, _, there⟩ | ⟨_, _, there⟩
    · exact n.known _ i there
    · exact n.known _ i there
  once r r' i found found' := by
    rcases moved_eq found with ⟨t, rfl, there⟩ | ⟨_, above, there⟩ <;>
      rcases moved_eq found' with ⟨t', rfl, there'⟩ | ⟨_, above', there'⟩
    · have same := n.once _ _ i there there'
      rw [append_cancel_left same]
    · have same := n.once _ _ i there there'
      exact absurd ⟨t, same⟩ above'
    · have same := n.once _ _ i there' there
      exact absurd ⟨t', same⟩ above
    · exact n.once _ _ i there there'
  rooted none_ r := by
    have root : n.find [] = none := by
      rwa [moved, if_neg (by simpa using on), if_neg (by simpa using off)] at none_
    rcases found : moved n.find p q r with _ | i
    · rfl
    · rcases moved_eq found with ⟨t, _, there⟩ | ⟨_, _, there⟩
      · rw [n.rooted root] at there
        cases there
      · rw [n.rooted root] at there
        cases there

/-- The names without one that is not the root's. -/
def drop (n : Names α I) (p : List α) (off : p ≠ []) : Names α I where
  find := update n.find p none
  used := n.used
  known q i found := by
    rw [update_apply] at found
    split_ifs at found
    exact n.known q i found
  once q r i found found' := by
    rw [update_apply] at found found'
    split_ifs at found found'
    exact n.once q r i found found'
  rooted none_ q := by
    rw [update_of_ne off.symm] at none_
    rw [update_apply, n.rooted none_ q, ite_self]

theorem renamed_move (n : Names α I) (off : p ≠ []) (on : q ≠ []) :
    Renamed p q n (n.move p q off on) := ⟨rfl, rfl⟩

end Names

end Ipnx
