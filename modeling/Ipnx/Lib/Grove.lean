import Mathlib.Data.Finset.Card

/-!
# Trees kept as links, some of them loose

Nodes that each name a parent or none, and list their children: every node with no parent is the
root of a tree of its own. The links are sound when they agree and every node comes up to such a
root. A node made, taken from its parent, put under another and taken away keep that, the second
so long as it is not put below itself. How many nodes are below one gets smaller on the way down.
-/

namespace Ipnx

open List
open Function (update update_of_ne update_self)

universe u

/-- Which nodes there are, the parent each names and the children each lists. -/
structure Grove (ι : Type u) where
  live : ι → Prop
  parent : ι → Option ι
  kids : ι → List ι

namespace Grove

variable {ι : Type u} {g g' : Grove ι} {d i j r s : ι}

def Rises (g : Grove ι) (i j : ι) : Prop := g.parent i = some j

/-- From a node to itself or to one it is below. -/
def Below (g : Grove ι) : ι → ι → Prop := Relation.ReflTransGen g.Rises

/-- Parents and children agree, and every node is below one that has no parent. -/
structure Sound (g : Grove ι) : Prop where
  kid : ∀ d k, k ∈ g.kids d → g.live d ∧ g.live k ∧ g.parent k = some d
  once : ∀ d, (g.kids d).Nodup
  listed : ∀ k d, g.parent k = some d → k ∈ g.kids d
  up : ∀ i, g.live i → ∃ r, g.Below i r ∧ g.parent r = none

/-- There is one way up. -/
theorem rises_unique : Relator.RightUnique g.Rises := by
  intro i j k first second
  exact Option.some.inj (first.symm.trans second)

theorem below_of_root (top : g.parent i = none) (below : g.Below i j) : i = j := by
  rcases Relation.ReflTransGen.cases_head below with same | ⟨k, rises, _⟩
  · exact same
  · cases top.symm.trans rises

section Sound

variable (sound : g.Sound)

include sound

theorem Sound.live_of_parent (parent : g.parent i = some d) : g.live d ∧ g.live i :=
  ⟨(sound.kid d i (sound.listed i d parent)).1, (sound.kid d i (sound.listed i d parent)).2.1⟩

theorem Sound.parent_of_dead (dead : ¬g.live i) : g.parent i = none := by
  rcases parent : g.parent i with _ | d
  · rfl
  · exact absurd (sound.live_of_parent parent).2 dead

theorem Sound.kids_of_dead (dead : ¬g.live d) : g.kids d = [] := by
  rw [eq_nil_iff_forall_not_mem]
  exact fun k member => dead (sound.kid d k member).1

theorem Sound.mem_kids : i ∈ g.kids d ↔ g.parent i = some d :=
  ⟨fun member => (sound.kid d i member).2.2, sound.listed i d⟩

theorem Sound.live_of_below (live : g.live i) (below : g.Below i j) : g.live j := by
  rcases Relation.ReflTransGen.cases_tail below with rfl | ⟨k, _, rises⟩
  · exact live
  · exact (sound.live_of_parent rises).1

/-- A node with no children has only itself below it. -/
theorem Sound.below_childless (childless : g.kids i = []) (below : g.Below d i) : d = i := by
  rcases Relation.ReflTransGen.cases_tail below with rfl | ⟨k, _, rises⟩
  · rfl
  · have member := sound.listed k i rises
    rw [childless] at member
    cases member

/-- A parent is not below its child. -/
theorem Sound.not_below (parent : g.parent i = some d) : ¬g.Below d i := by
  intro around
  have back (j : ι) (below : g.Below i j) : g.Below j i := by
    induction below with
    | refl => exact .refl
    | tail _ rises ih =>
        rcases Relation.ReflTransGen.cases_head ih with rfl | ⟨k, first, rest⟩
        · cases parent.symm.trans rises
          exact around
        · cases rises_unique first rises
          exact rest
  rcases sound.up i (sound.live_of_parent parent).2 with ⟨r, below, top⟩
  cases below_of_root top (back r below)
  cases top.symm.trans parent

theorem Sound.ne_parent (parent : g.parent i = some d) : d ≠ i := by
  rintro rfl
  exact sound.not_below parent .refl

/-- Two children of one node are not below each other. -/
theorem Sound.siblings (first : g.parent i = some d) (second : g.parent j = some d)
    (below : g.Below i j) : i = j := by
  rcases Relation.ReflTransGen.cases_head below with same | ⟨k, rises, rest⟩
  · exact same
  · cases first.symm.trans rises
    exact absurd rest (sound.not_below second)

end Sound

section

variable [DecidableEq ι]

def make (g : Grove ι) (i : ι) : Grove ι := { g with live := fun j => j = i ∨ g.live j }

/-- A node taken from its parent `d`, whose children are left as `l`. -/
def cut (g : Grove ι) (i d : ι) (l : List ι) : Grove ι where
  live := g.live
  parent := update g.parent i none
  kids := update g.kids d l

/-- A node put under `d`, whose children are then `l`. -/
def put (g : Grove ι) (i d : ι) (l : List ι) : Grove ι where
  live := g.live
  parent := update g.parent i (some d)
  kids := update g.kids d l

def drop (g : Grove ι) (i : ι) : Grove ι := { g with live := fun j => j ≠ i ∧ g.live j }

omit [DecidableEq ι] in
theorem Sound.make (sound : g.Sound) : (g.make i).Sound where
  __ := sound
  kid d k member := by
    rcases sound.kid d k member with ⟨live, there, parent⟩
    exact ⟨.inr live, .inr there, parent⟩
  up j := by
    rintro (rfl | live)
    · by_cases there : g.live j
      · exact sound.up j there
      · exact ⟨j, .refl, sound.parent_of_dead there⟩
    · exact sound.up j live

omit [DecidableEq ι] in
theorem Sound.drop (sound : g.Sound) (loose : g.parent i = none) (childless : g.kids i = []) :
    (g.drop i).Sound where
  __ := sound
  kid d k member := by
    rcases sound.kid d k member with ⟨live, there, parent⟩
    refine ⟨⟨?_, live⟩, ⟨?_, there⟩, parent⟩
    · rintro rfl
      have member : k ∈ g.kids d := member
      rw [childless] at member
      cases member
    · rintro rfl
      cases loose.symm.trans parent
  up j := fun there => sound.up j there.2

omit [DecidableEq ι] in
/-- The way up of a node that is not below `i` is as it was when only `i` has another parent. -/
theorem below_of_update (parents : ∀ k, k ≠ i → g'.parent k = g.parent k) (below : g.Below j r)
    (off : ¬g.Below j i) : g'.Below j r := by
  induction below using Relation.ReflTransGen.head_induction_on with
  | refl => exact .refl
  | head rises _ ih =>
      refine .head ?_ (ih fun up => off (.head rises up))
      exact (parents _ fun same => off (same ▸ .refl)).trans rises

omit [DecidableEq ι] in
/-- So is the way up to `i` itself. -/
theorem below_self_of_update (parents : ∀ k, k ≠ i → g'.parent k = g.parent k)
    (below : g.Below j i) : g'.Below j i := by
  induction below using Relation.ReflTransGen.head_induction_on with
  | refl => exact .refl
  | @head a b rises _ ih =>
      by_cases same : a = i
      · subst same
        exact .refl
      · exact .head ((parents a same).trans rises) ih

theorem Sound.cut {l : List ι} (sound : g.Sound) (parent : g.parent i = some d)
    (rest : (g.kids d).Perm (i :: l)) : (g.cut i d l).Sound := by
  have nodup := rest.nodup_iff.1 (sound.once d)
  have self : (g.cut i d l).parent i = none := update_self ..
  have parents {k : ι} (other : k ≠ i) : (g.cut i d l).parent k = g.parent k :=
    update_of_ne other ..
  have kids {e : ι} (other : e ≠ d) : (g.cut i d l).kids e = g.kids e :=
    update_of_ne other ..
  have left : (g.cut i d l).kids d = l := update_self ..
  constructor
  · intro e k member
    by_cases here : e = d
    · subst here
      rw [left] at member
      have other : k ≠ i := by
        rintro rfl
        exact (nodup_cons.1 nodup).1 member
      rw [parents other]
      exact sound.kid e k (rest.mem_iff.2 (mem_cons_of_mem _ member))
    · rw [kids here] at member
      have other : k ≠ i := by
        rintro rfl
        exact here (Option.some.inj ((sound.kid e k member).2.2.symm.trans parent))
      rw [parents other]
      exact sound.kid e k member
  · intro e
    by_cases here : e = d
    · subst here
      rw [left]
      exact (nodup_cons.1 nodup).2
    · rw [kids here]
      exact sound.once e
  · intro k e named
    by_cases same : k = i
    · subst same
      cases self.symm.trans named
    · rw [parents same] at named
      have member := sound.listed k e named
      by_cases here : e = d
      · subst here
        rw [left]
        exact (mem_cons.1 (rest.mem_iff.1 member)).resolve_left same
      · rw [kids here]
        exact member
  · intro j live
    rcases sound.up j live with ⟨r, below, top⟩
    by_cases on : g.Below j i
    · refine ⟨i, ?_, self⟩
      exact below_self_of_update (fun k other => parents other) on
    · refine ⟨r, below_of_update (fun k other => parents other) below on, ?_⟩
      have other : r ≠ i := by
        rintro rfl
        exact on below
      exact (parents other).trans top

theorem Sound.put {l : List ι} (sound : g.Sound) (loose : g.parent i = none) (live : g.live i)
    (there : g.live d) (off : ¬g.Below d i) (more : l.Perm (i :: g.kids d)) :
    (g.put i d l).Sound := by
  have fresh : i ∉ g.kids d := by
    intro member
    cases loose.symm.trans (sound.kid d i member).2.2
  have self : (g.put i d l).parent i = some d := update_self ..
  have parents {k : ι} (other : k ≠ i) : (g.put i d l).parent k = g.parent k :=
    update_of_ne other ..
  have kids {e : ι} (other : e ≠ d) : (g.put i d l).kids e = g.kids e :=
    update_of_ne other ..
  have longer : (g.put i d l).kids d = l := update_self ..
  constructor
  · intro e k member
    by_cases same : k = i
    · subst same
      have here : e = d := by
        by_contra other
        rw [kids other] at member
        cases loose.symm.trans (sound.kid e k member).2.2
      subst here
      exact ⟨there, live, self⟩
    · rw [parents same]
      by_cases here : e = d
      · subst here
        rw [longer] at member
        exact sound.kid e k ((mem_cons.1 (more.mem_iff.1 member)).resolve_left same)
      · rw [kids here] at member
        exact sound.kid e k member
  · intro e
    by_cases here : e = d
    · subst here
      rw [longer]
      exact more.nodup_iff.2 (nodup_cons.2 ⟨fresh, sound.once e⟩)
    · rw [kids here]
      exact sound.once e
  · intro k e named
    by_cases same : k = i
    · subst same
      cases self.symm.trans named
      rw [longer]
      exact more.mem_iff.2 mem_cons_self
    · rw [parents same] at named
      have member := sound.listed k e named
      by_cases here : e = d
      · subst here
        rw [longer]
        exact more.mem_iff.2 (mem_cons_of_mem _ member)
      · rw [kids here]
        exact member
  · have keeps (j : ι) (above : g.live j) (off : ¬g.Below j i) :
        ∃ r, (g.put i d l).Below j r ∧ (g.put i d l).parent r = none := by
      rcases sound.up j above with ⟨r, below, top⟩
      refine ⟨r, below_of_update (fun k other => parents other) below off, ?_⟩
      have other : r ≠ i := by
        rintro rfl
        exact off below
      exact (parents other).trans top
    intro j above
    by_cases on : g.Below j i
    · rcases keeps d there off with ⟨r, below, top⟩
      refine ⟨r, ?_, top⟩
      exact (below_self_of_update (fun k other => parents other) on).trans (.head self below)
    · exact keeps j above on

end

open Classical in
/-- How many of the nodes listed are below one. -/
noncomputable def size (g : Grove ι) (nodes : List ι) (i : ι) : Nat :=
  (nodes.toFinset.filter (g.Below · i)).card

theorem size_le (g : Grove ι) (nodes : List ι) (i : ι) : g.size nodes i ≤ nodes.length := by
  classical
  exact (Finset.card_filter_le _ _).trans (toFinset_card_le nodes)

theorem size_pos {nodes : List ι} (there : i ∈ nodes) : 0 < g.size nodes i := by
  classical
  apply Finset.card_pos.2
  exact ⟨i, Finset.mem_filter.2 ⟨mem_toFinset.2 there, .refl⟩⟩

/-- Fewer are below a child. -/
theorem Sound.size_kid (sound : g.Sound) {nodes : List ι} (parent : g.parent i = some d)
    (there : d ∈ nodes) : g.size nodes i < g.size nodes d := by
  classical
  apply Finset.card_lt_card
  refine ⟨?_, ?_⟩
  · intro j member
    rcases Finset.mem_filter.1 member with ⟨listed, below⟩
    exact Finset.mem_filter.2 ⟨listed, below.tail parent⟩
  · intro all
    have member := all (Finset.mem_filter.2 ⟨mem_toFinset.2 there, .refl⟩)
    exact sound.not_below parent (Finset.mem_filter.1 member).2

/-- No more are below a node when no more are there and none was moved below it. -/
theorem size_mono {nodes nodes' : List ι} (fewer : ∀ j ∈ nodes', j ∈ nodes)
    (below : ∀ j ∈ nodes', g'.Below j i → g.Below j i) : g'.size nodes' i ≤ g.size nodes i := by
  classical
  apply Finset.card_le_card
  intro j member
  rcases Finset.mem_filter.1 member with ⟨listed, under⟩
  have listed := mem_toFinset.1 listed
  exact Finset.mem_filter.2 ⟨mem_toFinset.2 (fewer j listed), below j listed under⟩

theorem Sound.size_childless (sound : g.Sound) (nodes : List ι) (childless : g.kids i = []) :
    g.size nodes i ≤ 1 := by
  classical
  apply Finset.card_le_one.2
  intro j first k second
  rw [sound.below_childless childless (Finset.mem_filter.1 first).2,
    sound.below_childless childless (Finset.mem_filter.1 second).2]

/-- What is left of the nodes has the parents it had. -/
structure Part (g g' : Grove ι) : Prop where
  live : ∀ i, g'.live i → g.live i
  parent : ∀ i, g'.live i → g'.parent i = g.parent i

theorem Part.rfl : g.Part g := ⟨fun _ => id, fun _ _ => Eq.refl _⟩

theorem Part.trans {g'' : Grove ι} (first : g.Part g') (rest : g'.Part g'') : g.Part g'' :=
  ⟨fun i live => first.live i (rest.live i live),
    fun i live => (rest.parent i live).trans (first.parent i (rest.live i live))⟩

theorem Part.below (part : g.Part g') (sound : g'.Sound) (live : g'.live i)
    (below : g'.Below i j) : g.Below i j := by
  induction below using Relation.ReflTransGen.head_induction_on with
  | refl => exact .refl
  | head rises _ ih =>
      refine .head ((part.parent _ live).symm.trans rises) (ih ?_)
      exact (sound.live_of_parent rises).1

end Grove

end Ipnx
