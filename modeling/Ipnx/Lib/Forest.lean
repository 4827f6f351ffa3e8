import Mathlib.Data.List.Nodup
import Mathlib.Logic.Relation

/-!
# A tree kept as links

Nodes that each name their parent and list their children, the same tree twice over. It is
rooted when the two agree and every node comes up to the root. A leaf grown on a node, a leaf
cut and a branch moved keep that, the branch so long as it is not moved to below itself.
-/

namespace Ipnx

open List
open Function (update update_of_ne update_self)

universe u

/-- Which nodes there are, the parent each names and the children each lists. -/
@[ext]
structure Forest (ι : Type u) where
  live : ι → Prop
  parent : ι → ι
  kids : ι → List ι

namespace Forest

variable {ι : Type u} [DecidableEq ι] {f : Forest ι} {root : ι}

def Rises (f : Forest ι) (root i j : ι) : Prop := f.live i ∧ i ≠ root ∧ f.parent i = j

/-- From a node to itself or to one it is below. -/
def Below (f : Forest ι) (root : ι) : ι → ι → Prop := Relation.ReflTransGen (f.Rises root)

/-- Parents and children agree, and every node is below the root. -/
structure Rooted (f : Forest ι) (root : ι) : Prop where
  base : f.live root
  kid : ∀ d k, k ∈ f.kids d → f.live d ∧ f.live k ∧ k ≠ root ∧ f.parent k = d
  once : ∀ d, (f.kids d).Nodup
  listed : ∀ i, f.live i → i ≠ root → i ∈ f.kids (f.parent i)
  below : ∀ i, f.live i → f.Below root i root

omit [DecidableEq ι] in
/-- The root alone. -/
theorem rooted_single (root : ι) :
    (⟨(· = root), fun _ => root, fun _ => []⟩ : Forest ι).Rooted root where
  base := rfl
  kid := by simp
  once := by simp
  listed := by
    intro i live other
    exact absurd live other
  below := by
    rintro i rfl
    exact .refl

variable (rooted : f.Rooted root)

include rooted

omit [DecidableEq ι] in
theorem Rooted.parent_live {i : ι} (live : f.live i) (other : i ≠ root) : f.live (f.parent i) :=
  (rooted.kid _ _ (rooted.listed i live other)).1

omit [DecidableEq ι] in
/-- A node that is not there has no children. -/
theorem Rooted.kids_eq_nil {i : ι} (absent : ¬f.live i) : f.kids i = [] := by
  rw [eq_nil_iff_forall_not_mem]
  intro k member
  exact absent (rooted.kid i k member).1

/-- A new leaf `i`, the last child of `d`. -/
def grow (f : Forest ι) (d i : ι) : Forest ι where
  live j := j = i ∨ f.live j
  parent := update f.parent i d
  kids := update f.kids d (f.kids d ++ [i])

omit rooted in
theorem grow_kids (f : Forest ι) (d i : ι) :
    (f.grow d i).kids = update f.kids d (f.kids d ++ [i]) := rfl

theorem Rooted.grow {d i : ι} (there : f.live d) (fresh : ¬f.live i) :
    (f.grow d i).Rooted root := by
  have old : ∀ j, f.live j → j ≠ i := by
    rintro j live rfl
    exact fresh live
  have parents : ∀ j, f.live j → (f.grow d i).parent j = f.parent j := by
    intro j live
    exact update_of_ne (old j live) ..
  refine ⟨Or.inr rooted.base, ?_, ?_, ?_, ?_⟩
  · intro e k member
    by_cases here : e = d
    · subst here
      rw [grow_kids, update_self, mem_append, mem_singleton] at member
      rcases member with member | rfl
      · rcases rooted.kid e k member with ⟨_, live, other, parent⟩
        exact ⟨Or.inr there, Or.inr live, other, (parents k live).trans parent⟩
      · exact ⟨Or.inr there, Or.inl rfl, (old root rooted.base).symm, update_self ..⟩
    · rw [grow_kids, update_of_ne here] at member
      rcases rooted.kid e k member with ⟨dir, live, other, parent⟩
      exact ⟨Or.inr dir, Or.inr live, other, (parents k live).trans parent⟩
  · intro e
    by_cases here : e = d
    · subst here
      rw [grow_kids, update_self, nodup_append]
      refine ⟨rooted.once e, nodup_singleton i, ?_⟩
      intro k member j single
      rw [mem_singleton] at single
      subst single
      exact old k (rooted.kid e k member).2.1
    · rw [grow_kids, update_of_ne here]
      exact rooted.once e
  · rintro j (rfl | live) other
    · simp [Forest.grow]
    · rw [parents j live]
      have member := rooted.listed j live other
      by_cases here : f.parent j = d
      · rw [here, grow_kids, update_self, mem_append]
        rw [here] at member
        exact Or.inl member
      · rw [grow_kids, update_of_ne here]
        exact member
  · have keeps : ∀ j, f.live j → (f.grow d i).Below root j root := by
      intro j live
      have rises : f.Rises root ≤ (f.grow d i).Rises root := by
        rintro a b ⟨live, other, parent⟩
        exact ⟨Or.inr live, other, (parents a live).trans parent⟩
      exact Relation.ReflTransGen.mono rises _ _ (rooted.below j live)
    rintro j (rfl | live)
    · apply Relation.ReflTransGen.head _ (keeps d there)
      exact ⟨Or.inl rfl, (old root rooted.base).symm, update_self ..⟩
    · exact keeps j live

/-- The children of `e`, with `i` taken off its parent's list. -/
def without (f : Forest ι) (i e : ι) : List ι :=
  if e = f.parent i then (f.kids e).filter (· ≠ i) else f.kids e

theorem Rooted.mem_without {i e k : ι} : k ∈ f.without i e ↔ k ∈ f.kids e ∧ k ≠ i := by
  rw [without]
  split_ifs with parent
  · simp
  · constructor
    · intro member
      refine ⟨member, ?_⟩
      rintro rfl
      exact parent (rooted.kid e k member).2.2.2.symm
    · exact fun both => both.1

theorem Rooted.nodup_without (i e : ι) : (f.without i e).Nodup := by
  rw [without]
  split_ifs
  · exact (rooted.once e).filter _
  · exact rooted.once e

/-- The node `i` gone, and out of its parent's list; what it names for a parent is nobody's. -/
def cut (f : Forest ι) (i nobody : ι) : Forest ι where
  live j := j ≠ i ∧ f.live j
  parent := update f.parent i nobody
  kids e := if e = i then [] else f.without i e

theorem Rooted.cut {i nobody : ι} (leaf : f.kids i = []) (other : i ≠ root) :
    (f.cut i nobody).Rooted root := by
  have childless : ∀ j, f.live j → j ≠ root → f.parent j ≠ i := by
    intro j live notRoot same
    have member := rooted.listed j live notRoot
    rw [same, leaf] at member
    cases member
  have kids : ∀ e k, k ∈ (f.cut i nobody).kids e ↔ e ≠ i ∧ k ∈ f.kids e ∧ k ≠ i := by
    intro e k
    by_cases here : e = i
    · simp [Forest.cut, here]
    · simp [Forest.cut, here, rooted.mem_without]
  have parents : ∀ j, j ≠ i → (f.cut i nobody).parent j = f.parent j := by
    intro j left
    exact update_of_ne left ..
  refine ⟨⟨other.symm, rooted.base⟩, ?_, ?_, ?_, ?_⟩
  · intro e k member
    rcases (kids e k).1 member with ⟨differs, member, left⟩
    rcases rooted.kid e k member with ⟨dir, live, notRoot, parent⟩
    exact ⟨⟨differs, dir⟩, ⟨left, live⟩, notRoot, (parents k left).trans parent⟩
  · intro e
    by_cases here : e = i
    · simp [Forest.cut, here]
    · simpa [Forest.cut, here] using rooted.nodup_without i e
  · rintro j ⟨left, live⟩ notRoot
    rw [kids, parents j left]
    exact ⟨childless j live notRoot, rooted.listed j live notRoot, left⟩
  · rintro j ⟨left, live⟩
    have path := rooted.below j live
    induction path using Relation.ReflTransGen.head_induction_on with
    | refl => exact .refl
    | head step rest ih =>
        rcases step with ⟨here, notRoot, rfl⟩
        apply Relation.ReflTransGen.head ⟨⟨left, here⟩, notRoot, parents _ left⟩
        exact ih (childless _ here notRoot) (rooted.parent_live here notRoot)

/-- The branch at `i` put last among the children of `d`. -/
def move (f : Forest ι) (i d : ι) : Forest ι where
  live := f.live
  parent := update f.parent i d
  kids e := if e = d then f.without i e ++ [i] else f.without i e

omit rooted in
/-- A node that is not on the branch comes up to the root as before. -/
theorem below_move {i d j : ι} (path : f.Below root j root) (off : ¬f.Below root j i) :
    (f.move i d).Below root j root := by
  induction path using Relation.ReflTransGen.head_induction_on with
  | refl => exact .refl
  | head step rest ih =>
      have differs : _ ≠ i := fun same => off (same ▸ .refl)
      have above := ih fun up => off (.head step up)
      rcases step with ⟨live, notRoot, parent⟩
      exact .head ⟨live, notRoot, (update_of_ne differs ..).trans parent⟩ above

theorem Rooted.move {i d : ι} (live : f.live i) (other : i ≠ root)
    (there : f.live d) (off : ¬f.Below root d i) : (f.move i d).Rooted root := by
  have kids : ∀ e k, k ∈ (f.move i d).kids e ↔ (k ∈ f.kids e ∧ k ≠ i) ∨ (k = i ∧ e = d) := by
    intro e k
    by_cases here : e = d
    · simp [Forest.move, here, rooted.mem_without]
    · simp [Forest.move, here, rooted.mem_without]
  have parents : ∀ j, j ≠ i → (f.move i d).parent j = f.parent j := by
    intro j differs
    exact update_of_ne differs ..
  have self : (f.move i d).parent i = d := update_self ..
  have up : (f.move i d).Below root i root :=
    .head ⟨live, other, self⟩ (below_move (rooted.below d there) off)
  refine ⟨rooted.base, ?_, ?_, ?_, ?_⟩
  · intro e k member
    rcases (kids e k).1 member with ⟨member, differs⟩ | ⟨rfl, rfl⟩
    · rcases rooted.kid e k member with ⟨dir, kid, notRoot, parent⟩
      exact ⟨dir, kid, notRoot, (parents k differs).trans parent⟩
    · exact ⟨there, live, other, self⟩
  · intro e
    have left := rooted.nodup_without i e
    by_cases here : e = d
    · simp only [Forest.move, here, if_true]
      rw [here] at left
      rw [nodup_append]
      refine ⟨left, nodup_singleton i, ?_⟩
      intro k member j single
      rw [mem_singleton] at single
      subst single
      exact (rooted.mem_without.1 member).2
    · simpa [Forest.move, here] using left
  · intro j here notRoot
    rw [kids]
    by_cases same : j = i
    · right
      rw [same, self]
      exact ⟨rfl, rfl⟩
    · left
      rw [parents j same]
      exact ⟨rooted.listed j here notRoot, same⟩
  · intro j here
    have path := rooted.below j here
    induction path using Relation.ReflTransGen.head_induction_on with
    | refl => exact .refl
    | @head a b step rest ih =>
        rcases step with ⟨_, notRoot, parent⟩
        by_cases same : a = i
        · rw [same]
          exact up
        · apply Relation.ReflTransGen.head ⟨here, notRoot, (parents a same).trans parent⟩
          exact ih (parent ▸ rooted.parent_live here notRoot)

end Forest

end Ipnx
