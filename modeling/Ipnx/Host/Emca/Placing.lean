import Ipnx.Host.Emca.Tree

/-!
# A window's place

A window made is put in the tree: under a container, beside another in a container made where that
one stood, or as a tab. In the middle of it there are one or two windows in no parent's children;
nothing is thrown when what it is put beside is in the tree, and nothing that was there is lost.
-/

namespace Ipnx.Host.Emca

open List

namespace Manager

variable {m m' : Manager} {w v p c a : Nat} {full : Prop}

/-- A window with nothing in it that is in nothing's children yet. -/
structure Spare (m : Manager) (full : Prop) (w : Nat) : Prop extends m.Settled full [w] where
  there : w ∈ m.windows
  other : w ≠ root
  alone : (m.win w).parent = none
  childless : (m.win w).children = []

theorem Settled.spare (settled : m.Settled full []) {x : Window} (bare : Bare x) :
    (m.make x).Spare full m.next where
  toSettled := settled.make bare
  there := mem_append_right _ mem_cons_self
  other := (settled.tree.made root settled.tree.base).2.ne'
  alone := by
    rw [win_make_self]
    exact bare.parent
  childless := by
    rw [win_make_self]
    exact bare.children

section Spare

variable (spare : m.Spare full w)

include spare

theorem Spare.like (like : m.Like m') : m'.Spare full w where
  toSettled := spare.toSettled.like like
  there := like.windows ▸ spare.there
  other := spare.other
  alone := (like.parent w).trans spare.alone
  childless := (like.children w).trans spare.childless

theorem Spare.ne_of_parent (parent : (m.win v).parent = some p) : p ≠ w := by
  rintro rfl
  have child := spare.tree.mem_children.2 parent
  rw [spare.childless] at child
  cases child

theorem Spare.not_over : ((m.win a).parent).getD root ≠ w ∧ (m.win a).parent ≠ some w := by
  rcases parent : (m.win a).parent with _ | p
  · exact ⟨spare.other.symm, nofun⟩
  · exact ⟨spare.ne_of_parent parent, fun same => spare.ne_of_parent parent (Option.some.inj same)⟩

theorem Spare.adopt (container : ¬(m.win p).leaf) (live : p ∈ m.windows) (differs : p ≠ w)
    (index : Int) : (m.adopt p w index).Settled full [] where
  tree := by
    apply spare.tree.adopt spare.alone spare.there spare.other container live
    exact fun below => differs (spare.tree.sound.below_childless spare.childless below)
  focused all := (spare.focused all).adopt index
  loose all := (spare.loose all).adopt spare.alone index

theorem Spare.adopt_root : (m.adoptLast root w).Settled full [] :=
  spare.adopt spare.tree.root_not_leaf spare.tree.base spare.other.symm _

theorem Spare.beside (container : ¬(m.win p).leaf) (live : p ∈ m.windows) (differs : p ≠ w) :
    (m.beside v p w).Settled full [] := by
  apply (spare.adopt container live differs _).show
  rw [children_adopt spare.alone, if_pos rfl]
  exact (perm_putOne _ _ _).mem_iff.2 mem_cons_self

end Spare

theorem bare_container (kind : Division) (dir : String) : Bare (.container kind dir) :=
  ⟨rfl, rfl, rfl, rfl⟩

theorem Tree.enclose (tree : m.Tree) {x : Window} (bare : Bare x) (divided : ¬x.leaf)
    (live : p ∈ m.windows) (container : ¬(m.win p).leaf) (there : a ∈ m.windows)
    (off : ¬(m.make x).grove.Below p a) (index : Int) :
    (((m.make x).orphan a).adopt p m.next index).Tree ∧
      ¬((((m.make x).orphan a).adopt p m.next index).win m.next).leaf ∧
      ((((m.make x).orphan a).adopt p m.next index).win a).parent = none ∧
      ¬(((m.make x).orphan a).adopt p m.next index).grove.Below m.next a := by
  have fresh {v : Nat} (there : v ∈ m.windows) : v ≠ m.next := (tree.made v there).2.ne
  have made := tree.make bare
  have cut := made.orphan (w := a)
  have alone : (((m.make x).orphan a).win m.next).parent = none := by
    rw [parent_orphan_of_ne (fresh there).symm, win_make_self]
    exact bare.parent
  have empty : (((m.make x).orphan a).win m.next).children = [] := by
    rcases named : ((m.make x).win a).parent with _ | q
    · rw [orphan_of_alone named, win_make_self]
      exact bare.children
    · have other : m.next ≠ q := by
        rintro rfl
        have child := made.mem_children.2 named
        rw [win_make_self, bare.children] at child
        cases child
      rw [children_orphan named, if_neg other, win_make_self]
      exact bare.children
  have windows : ((m.make x).orphan a).windows = m.windows ++ [m.next] := windows_orphan
  have live' : p ∈ ((m.make x).orphan a).windows := by
    rw [windows]
    exact mem_append_left _ live
  have own : m.next ∈ ((m.make x).orphan a).windows := by
    rw [windows]
    exact mem_append_right _ mem_cons_self
  have container' : ¬(((m.make x).orphan a).win p).leaf := by
    rw [leaf_orphan, win_make_of_ne x (fresh live)]
    exact container
  have under : (((m.make x).orphan a).adopt p m.next index).Tree := by
    apply cut.adopt alone own (fresh tree.base).symm container' live'
    exact fun below => fresh live (cut.sound.below_childless empty below)
  have childless : ((((m.make x).orphan a).adopt p m.next index).win m.next).children = [] := by
    rw [children_adopt alone, if_neg (fresh live).symm]
    exact empty
  refine ⟨under, ?_, ?_, ?_⟩
  · rw [leaf_adopt, leaf_orphan, win_make_self]
    exact divided
  · rw [parent_adopt alone, if_neg (fresh there)]
    exact parent_orphan_self
  · intro below
    rcases Relation.ReflTransGen.cases_head below with same | ⟨u, rises, rest⟩
    · exact fresh there same.symm
    · have up : u = p := by
        have named : ((((m.make x).orphan a).adopt p m.next index).win m.next).parent = some p := by
          rw [parent_adopt alone, if_pos rfl]
        exact (Option.some.inj (named.symm.trans rises)).symm
      subst up
      have cutoff : ((m.make x).orphan a).grove.Below u a := by
        refine Grove.below_of_update (i := m.next) ?_ rest ?_
        · intro k other
          exact (((parent_adopt alone index).trans (if_neg other))).symm
        · intro around
          exact fresh live (under.sound.below_childless childless around)
      apply off
      refine Grove.below_self_of_update ?_ cutoff
      exact fun k other => (parent_orphan_of_ne other).symm

theorem Tree.over (tree : m.Tree) (there : a ∈ m.windows) (top : a ≠ root) {x : Window}
    (bare : Bare x) : ((m.win a).parent).getD root ∈ m.windows ∧
      ¬(m.win (((m.win a).parent).getD root)).leaf ∧
      ¬(m.make x).grove.Below (((m.win a).parent).getD root) a := by
  have old : (m.make x).win a = m.win a := win_make_of_ne x (tree.made a there).2.ne
  have made := tree.make bare
  rcases parent : (m.win a).parent with _ | p
  · refine ⟨tree.base, tree.root_not_leaf, fun below => ?_⟩
    rcases Relation.ReflTransGen.cases_head below with same | ⟨u, rises, _⟩
    · exact top same.symm
    · cases made.top.symm.trans rises
  · have parent' : ((m.make x).win a).parent = some p := by rw [old, parent]
    exact ⟨(tree.live_of_parent parent).1, tree.not_leaf parent, made.sound.not_below parent'⟩

/-- A container with nothing in it, a window taken out that is to be put in it, and one to place. -/
structure Opened (m : Manager) (full : Prop) (w c a : Nat) : Prop
    extends m.Settled full [a, w] where
  live : c ∈ m.windows
  container : ¬(m.win c).leaf
  there : a ∈ m.windows
  top : a ≠ root
  out : (m.win a).parent = none
  off : ¬m.grove.Below c a
  placed : w ∈ m.windows
  other : w ≠ root
  differs : w ≠ a
  apart : w ≠ c
  alone : (m.win w).parent = none
  childless : (m.win w).children = []

theorem Spare.enclose (spare : m.Spare full w) {x : Window} (bare : Bare x) (divided : ¬x.leaf)
    (there : a ∈ m.windows) (top : a ≠ root) (differs : w ≠ a) (index : Int) :
    (((m.make x).orphan a).adopt (((m.win a).parent).getD root) m.next index).Opened full w m.next
      a := by
  rcases spare.tree.over there top bare with ⟨live, container, off⟩
  rcases spare.not_over (a := a) with ⟨below, kid⟩
  generalize ((m.win a).parent).getD root = p at live container off below
  rcases spare.tree.enclose bare divided live container there off index with
    ⟨tree, hold, out, apart⟩
  have fresh {v : Nat} (there : v ∈ m.windows) : v ≠ m.next := (spare.tree.made v there).2.ne
  have alone : (((m.make x).orphan a).win m.next).parent = none := by
    rw [parent_orphan_of_ne (fresh there).symm, win_make_self]
    exact bare.parent
  have windows : (((m.make x).orphan a).adopt p m.next index).windows = m.windows ++ [m.next] := by
    rw [windows_adopt, windows_orphan]
    rfl
  have own : (m.make x).win w = m.win w := win_make_of_ne x (fresh spare.there)
  have inside {v : Nat} (there : v ∈ m.windows) :
      v ∈ (((m.make x).orphan a).adopt p m.next index).windows := by
    rw [windows]
    exact mem_append_left _ there
  have childless : (((m.make x).orphan a).win w).children = [] := by
    rcases named : ((m.make x).win a).parent with _ | q
    · rw [orphan_of_alone named, own]
      exact spare.childless
    · have other : w ≠ q := by
        rintro rfl
        rw [win_make_of_ne x (fresh there)] at named
        exact kid named
      rw [children_orphan named, if_neg other, own]
      exact spare.childless
  have loose (all : full) : ((m.make x).orphan a).Loose [m.next, a, w] := by
    intro v there bare
    rcases ((spare.loose all).make x).orphan (w := a) v there bare with top | some
    · exact .inl top
    · right
      simp only [mem_cons, not_mem_nil, or_false] at some ⊢
      tauto
  refine ⟨⟨tree, fun all => (((spare.focused all).make x).orphan (w := a)).adopt index,
    fun all => (loose all).adopt alone index⟩, ?_, hold, inside there, top, out, apart,
    inside spare.there, spare.other, differs, fresh spare.there, ?_, ?_⟩
  · rw [windows]
    exact mem_append_right _ mem_cons_self
  · rw [parent_adopt alone, if_neg (fresh spare.there), parent_orphan_of_ne differs, own]
    exact spare.alone
  · rw [children_adopt alone, if_neg below.symm]
    exact childless

theorem Opened.show (opened : m.Opened full w c a) (child : v ∈ (m.win p).children) :
    (m.alter p ({ · with current := some v })).Opened full w c a := by
  have field {α : Type} (field : Window → α)
      (keeps : ∀ x c, field { x with current := c } = field x) (u : Nat) :
      field ((m.alter p ({ · with current := some v })).win u) = field (m.win u) :=
    field_alter field (fun x => keeps x _) u
  have parent := field Window.parent fun _ _ => rfl
  have children := field Window.children fun _ _ => rfl
  have leaf := field Window.leaf fun _ _ => rfl
  have grove : (m.alter p ({ · with current := some v })).grove = m.grove := by
    rw [Manager.grove, funext parent, funext children]
    rfl
  refine ⟨opened.toSettled.show child, opened.live, ?_, opened.there, opened.top, ?_, ?_,
    opened.placed, opened.other, opened.differs, opened.apart, ?_, ?_⟩
  · rw [leaf]
    exact opened.container
  · exact (parent a).trans opened.out
  · rw [grove]
    exact opened.off
  · exact (parent w).trans opened.alone
  · exact (children w).trans opened.childless

theorem Opened.adopt (opened : m.Opened full w c a) (index : Int) :
    (m.adopt c a index).Spare full w ∧ c ∈ (m.adopt c a index).windows ∧
      ¬((m.adopt c a index).win c).leaf := by
  refine ⟨⟨⟨?_, ?_, ?_⟩, ?_, opened.other, ?_, ?_⟩, ?_, ?_⟩
  · exact opened.tree.adopt opened.out opened.there opened.top opened.container opened.live
      opened.off index
  · exact fun all => (opened.focused all).adopt index
  · exact fun all => (opened.loose all).adopt opened.out index
  · rw [windows_adopt]
    exact opened.placed
  · rw [parent_adopt opened.out, if_neg opened.differs]
    exact opened.alone
  · rw [children_adopt opened.out, if_neg opened.apart]
    exact opened.childless
  · rw [windows_adopt]
    exact opened.live
  · rw [leaf_adopt]
    exact opened.container

theorem Opened.finish (opened : m.Opened full w c a) :
    ((m.adoptLast c a).adoptLast c w).Settled full [] := by
  rcases opened.adopt (m.win c).children.length with ⟨spare, live, container⟩
  exact spare.adopt container live opened.apart.symm _

section Spare

variable (spare : m.Spare full w)

include spare

theorem Spare.splitAt (there : a ∈ m.windows) (top : a ≠ root) (differs : w ≠ a)
    (axis : Division) : (m.splitAt a w axis).Settled full [] := by
  have bare : Bare (.container axis (m.win a).dir) := bare_container axis _
  have opened := spare.enclose bare Bool.false_ne_true there top differs
  rcases spare.tree.over there top bare with ⟨live, container, _⟩
  have below := (spare.not_over (a := a)).1
  rw [Manager.splitAt]
  dsimp only
  generalize ((m.win a).parent).getD root = p at live container below opened ⊢
  split_ifs with along tabs
  · exact spare.adopt container live below _
  · apply Opened.finish
    apply (opened _).show
    have other : m.next ≠ a := (spare.tree.made a there).2.ne'
    have alone : (((m.make (.container axis (m.win a).dir)).orphan a).win m.next).parent =
        none := by
      rw [parent_orphan_of_ne other, win_make_self]
      rfl
    rw [children_adopt alone, if_pos rfl]
    exact (perm_putOne _ _ _).mem_iff.2 mem_cons_self
  · exact (opened _).finish

theorem Spare.split (there : v ∈ m.windows) (top : v ≠ root) (differs : w ≠ v)
    (axis : Division) : (m.split v w axis).Settled full [] := by
  rw [Manager.split]
  rcases parent : (m.win v).parent with _ | t
  · exact spare.splitAt there top differs axis
  · dsimp only
    split_ifs with tabs
    · have notRoot : t ≠ root := by
        rintro rfl
        rw [spare.tree.divided] at tabs
        cases tabs
      apply spare.splitAt (spare.tree.live_of_parent parent).1 notRoot
      exact (spare.ne_of_parent parent).symm
    · exact spare.splitAt there top differs axis

theorem Spare.group (parent : (m.win v).parent = some p) :
    (m.group v p).2.Spare full w ∧ (m.group v p).1 ∈ (m.group v p).2.windows ∧
      ¬((m.group v p).2.win (m.group v p).1).leaf ∧ (m.group v p).1 ≠ w := by
  have there := (spare.tree.live_of_parent parent).2
  have top : v ≠ root := by
    rintro rfl
    cases spare.tree.top.symm.trans parent
  have differs : w ≠ v := by
    rintro rfl
    cases spare.alone.symm.trans parent
  have opened := spare.enclose (bare_container .tabs (m.win v).dir) Bool.false_ne_true there top
    differs (indexOf ((m.make (.container .tabs (m.win v).dir)).win p).children v)
  rw [parent, Option.getD_some] at opened
  have hidden (m' : Manager) (shown : Bool) : m'.Like ((m'.alter m.next
      ({ · with hidden := shown })).alter v ({ · with hidden := false })) :=
    (like_alter rfl).trans (like_alter rfl)
  rw [Manager.group]
  dsimp only
  generalize ((m.make (.container .tabs (m.win v).dir)).orphan v).adopt p m.next
    (indexOf ((m.make (.container .tabs (m.win v).dir)).win p).children v) = m' at opened ⊢
  rcases opened.adopt (m'.win m.next).children.length with ⟨placed, inside, container⟩
  have same := hidden (m'.adoptLast m.next v) ((m'.adoptLast m.next v).win v).hidden
  exact ⟨placed.like same, same.windows ▸ inside, same.leaf m.next ▸ container, opened.apart.symm⟩

theorem Spare.astab {near : Option Nat} (placed : m.astab near w = some m') :
    m'.Settled full [] := by
  rcases near with _ | v <;> rw [Manager.astab] at placed
  · cases placed
    exact spare.adopt_root
  split_ifs at placed with top
  · cases placed
    exact spare.adopt_root
  rcases parent : (m.win v).parent with _ | p
  · rw [parent] at placed
    cases placed
  rw [parent] at placed
  dsimp only at placed
  split_ifs at placed with tabs
  · cases placed
    apply spare.beside (spare.tree.not_leaf parent) (spare.tree.live_of_parent parent).1
    exact spare.ne_of_parent parent
  · cases placed
    rcases spare.group parent with ⟨spare', inside, container, apart⟩
    exact spare'.beside container inside apart

/-- Where all is in order nothing is thrown. -/
theorem Spare.astab_isSome (all : full) {near : Option Nat}
    (there : ∀ v, near = some v → v ∈ m.windows ∧ v ≠ w) : m.astab near w ≠ none := by
  rcases near with _ | v <;> rw [Manager.astab]
  · nofun
  split_ifs with top
  · nofun
  rcases there v rfl with ⟨live, differs⟩
  rcases parent : (m.win v).parent with _ | p
  · rcases spare.loose all v live parent with isRoot | own
    · exact absurd isRoot top
    · exact absurd (mem_singleton.1 own) differs
  · dsimp only
    split_ifs <;> nofun

end Spare

theorem subset_make (w : Window) : m.windows ⊆ (m.make w).windows :=
  fun _ => mem_append_left _

theorem windows_alter (f : Window → Window) : (m.alter w f).windows = m.windows := rfl

@[simp]
theorem windows_adoptLast : (m.adoptLast p w).windows = m.windows := windows_adopt _

theorem subset_splitAt {a : Nat} (axis : Division) :
    m.windows ⊆ (m.splitAt a w axis).windows := by
  rw [Manager.splitAt]
  dsimp only
  split_ifs
  · rw [windows_adopt]
    exact fun _ => id
  · rw [windows_adoptLast, windows_adoptLast, windows_alter, windows_adopt, windows_orphan]
    exact subset_make _
  · rw [windows_adoptLast, windows_adoptLast, windows_adopt, windows_orphan]
    exact subset_make _

theorem subset_split (axis : Division) : m.windows ⊆ (m.split v w axis).windows := by
  rw [Manager.split]
  rcases (m.win v).parent with _ | t <;> exact subset_splitAt axis

theorem subset_astab {near : Option Nat} (placed : m.astab near w = some m') :
    m.windows ⊆ m'.windows := by
  have beside (m : Manager) (v p : Nat) : (m.beside v p w).windows = m.windows := by
    rw [Manager.beside, windows_alter, windows_adopt]
  rcases near with _ | v <;> rw [Manager.astab] at placed
  · cases placed
    rw [windows_adoptLast]
    exact fun _ => id
  split_ifs at placed with top
  · cases placed
    rw [windows_adoptLast]
    exact fun _ => id
  rcases parent : (m.win v).parent with _ | p <;> rw [parent] at placed
  · cases placed
  dsimp only at placed
  split_ifs at placed with tabs
  · cases placed
    rw [beside]
    exact fun _ => id
  · cases placed
    have group : (m.group v p).2.windows = (m.make (.container .tabs (m.win v).dir)).windows := by
      rw [Manager.group]
      dsimp only
      rw [windows_alter, windows_alter, windows_adoptLast, windows_adopt, windows_orphan]
    rw [beside, group]
    exact subset_make _

end Manager

end Ipnx.Host.Emca
