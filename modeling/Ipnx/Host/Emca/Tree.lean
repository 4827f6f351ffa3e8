import Ipnx.Host.Emca.Files
import Ipnx.Lib.Grove

/-!
# The window tree

The windows, their parents, their children, which of them is shown, and the focus are four copies of
one shape. Each step of an operation keeps them together, with windows that are in no parent's
children in the middle of it; at its end only the root is.
-/

namespace Ipnx.Host.Emca

open List
open Function (update update_apply update_of_ne update_self)

def Window.shape (w : Window) : Option Division × Option Nat × List Nat × Option Nat × Bool :=
  (w.kind, w.parent, w.children, w.current, w.gone)

namespace Manager

variable {m m' m'' : Manager} {w v p c : Nat}

def grove (m : Manager) : Grove Nat where
  live w := w ∈ m.windows
  parent w := (m.win w).parent
  kids w := (m.win w).children

/-- The tree in the middle of an operation: windows may be in no parent's children. -/
structure Tree (m : Manager) : Prop where
  sound : m.grove.Sound
  nodup : m.windows.Nodup
  base : root ∈ m.windows
  top : (m.win root).parent = none
  divided : (m.win root).kind = some .row
  made : ∀ w ∈ m.windows, root ≤ w ∧ w < m.next
  gone : ∀ w, root ≤ w ∧ w < m.next → ((m.win w).gone ↔ w ∉ m.windows)
  leaf : ∀ w, (m.win w).leaf → (m.win w).children = []
  current : ∀ w c, (m.win w).current = some c → c ∈ (m.win w).children
  shown : ∀ w, (m.win w).kind = some .tabs → (m.win w).children ≠ [] → (m.win w).current ≠ none
  focus : ∀ f, m.focus = some f → (root ≤ f ∧ f < m.next) ∧ (m.win f).leaf

def Focused (m : Manager) : Prop := ∀ f, m.focus = some f → f ∈ m.windows

/-- Which windows are in no parent's children, besides the root. -/
def Loose (m : Manager) (ws : List Nat) : Prop :=
  ∀ w ∈ m.windows, (m.win w).parent = none → w = root ∨ w ∈ ws

/-- The tree and the focus are as they were. -/
structure Like (m m' : Manager) : Prop where
  shape : ∀ w, (m'.win w).shape = (m.win w).shape
  next : m'.next = m.next
  windows : m'.windows = m.windows
  focus : m'.focus = m.focus

theorem like_rfl : m.Like m := ⟨fun _ => rfl, rfl, rfl, rfl⟩

theorem Like.trans (first : m.Like m') (rest : m'.Like m'') : m.Like m'' :=
  ⟨fun w => (rest.shape w).trans (first.shape w), rest.next.trans first.next,
    rest.windows.trans first.windows, rest.focus.trans first.focus⟩

section Like

variable (like : m.Like m')

include like

theorem Like.kind (w : Nat) : (m'.win w).kind = (m.win w).kind :=
  congrArg Prod.fst (like.shape w)

theorem Like.parent (w : Nat) : (m'.win w).parent = (m.win w).parent :=
  congrArg (·.2.1) (like.shape w)

theorem Like.children (w : Nat) : (m'.win w).children = (m.win w).children :=
  congrArg (·.2.2.1) (like.shape w)

theorem Like.current (w : Nat) : (m'.win w).current = (m.win w).current :=
  congrArg (·.2.2.2.1) (like.shape w)

theorem Like.gone (w : Nat) : (m'.win w).gone = (m.win w).gone :=
  congrArg (·.2.2.2.2) (like.shape w)

theorem Like.leaf (w : Nat) : (m'.win w).leaf = (m.win w).leaf := by
  rw [Window.leaf, Window.leaf, like.kind]

theorem Like.grove : m'.grove = m.grove := by
  have parents := funext like.parent
  have children := funext like.children
  simp only [Manager.grove, like.windows, parents, children]

theorem Like.tree (tree : m.Tree) : m'.Tree where
  sound := like.grove ▸ tree.sound
  nodup := like.windows ▸ tree.nodup
  base := like.windows ▸ tree.base
  top := (like.parent root).trans tree.top
  divided := (like.kind root).trans tree.divided
  made w there := by
    rw [like.windows] at there
    rw [like.next]
    exact tree.made w there
  gone w made := by
    rw [like.next] at made
    rw [like.gone, like.windows]
    exact tree.gone w made
  leaf w := by
    rw [like.leaf, like.children]
    exact tree.leaf w
  current w c := by
    rw [like.current, like.children]
    exact tree.current w c
  shown w := by
    rw [like.kind, like.children, like.current]
    exact tree.shown w
  focus f := by
    rw [like.focus, like.next, like.leaf]
    exact tree.focus f

theorem Like.focused (focused : m.Focused) : m'.Focused := by
  intro f there
  rw [like.focus] at there
  rw [like.windows]
  exact focused f there

end Like

theorem Like.loose {ws : List Nat} (like : m.Like m') (loose : m.Loose ws) : m'.Loose ws := by
  intro w there alone
  rw [like.windows] at there
  rw [like.parent] at alone
  exact loose w there alone

theorem like_alter {f : Window → Window} (same : (f (m.win w)).shape = (m.win w).shape) :
    m.Like (m.alter w f) := by
  refine ⟨fun v => ?_, rfl, rfl, rfl⟩
  by_cases here : v = w
  · rw [here, win_alter_self, same]
  · rw [win_alter_of_ne m here]

theorem like_reply (bs : List Bytes) : m.Like (m.reply bs) := ⟨fun _ => rfl, rfl, rfl, rfl⟩

theorem like_drain : m.Like (m.drain w) := (like_alter rfl).trans (like_reply _)

theorem like_post (line : String) : m.Like (m.post w line) := (like_alter rfl).trans like_drain

theorem like_ask (line : String) : m.Like (m.ask line) := like_post _

theorem like_fill (path role : String) : m.Like (m.fill w path role) := like_ask _

theorem like_hangup : m.Like (m.hangup w) := by
  rw [hangup]
  split_ifs
  · exact like_rfl
  · exact like_ask _

/-- A window made is in nothing's children yet. -/
structure Bare (w : Window) : Prop where
  parent : w.parent = none
  children : w.children = []
  current : w.current = none
  gone : w.gone = false

@[simp]
theorem win_make_self (w : Window) : (m.make w).win m.next = w := update_self ..

theorem win_make_of_ne (w : Window) (other : v ≠ m.next) : (m.make w).win v = m.win v :=
  update_of_ne other ..

theorem Tree.fresh (tree : m.Tree) : m.next ∉ m.windows :=
  fun there => lt_irrefl _ (tree.made _ there).2

theorem Tree.grove_make (tree : m.Tree) {w : Window} (bare : Bare w) :
    (m.make w).grove = m.grove.make m.next := by
  have live : (fun v => v ∈ m.windows ++ [m.next]) = fun v => v = m.next ∨ v ∈ m.windows := by
    funext v
    rw [mem_append, mem_singleton, or_comm]
  have parent : (fun v => ((m.make w).win v).parent) = fun v => (m.win v).parent := by
    funext v
    by_cases own : v = m.next
    · have alone : (m.win m.next).parent = none := tree.sound.parent_of_dead tree.fresh
      rw [own, win_make_self, bare.parent, alone]
    · rw [win_make_of_ne w own]
  have children : (fun v => ((m.make w).win v).children) = fun v => (m.win v).children := by
    funext v
    by_cases own : v = m.next
    · have childless : (m.win m.next).children = [] := tree.sound.kids_of_dead tree.fresh
      rw [own, win_make_self, bare.children, childless]
    · rw [win_make_of_ne w own]
  have windows : (m.make w).windows = m.windows ++ [m.next] := rfl
  rw [grove, parent, children, windows, live]
  rfl

theorem Tree.make (tree : m.Tree) {w : Window} (bare : Bare w) : (m.make w).Tree := by
  have windows : (m.make w).windows = m.windows ++ [m.next] := rfl
  have next : (m.make w).next = m.next + 1 := rfl
  have old {v : Nat} (there : v ∈ m.windows) : v ≠ m.next := (tree.made v there).2.ne
  constructor
  · exact tree.grove_make bare ▸ tree.sound.make
  · rw [windows]
    refine nodup_append.2 ⟨tree.nodup, nodup_singleton _, ?_⟩
    intro v there u own
    rw [mem_singleton.1 own]
    exact old there
  · exact mem_append_left _ tree.base
  · rw [win_make_of_ne w (old tree.base)]
    exact tree.top
  · rw [win_make_of_ne w (old tree.base)]
    exact tree.divided
  · intro v there
    rw [next]
    rcases mem_append.1 there with there | own
    · exact (tree.made v there).imp_right Nat.lt_succ_of_lt
    · cases mem_singleton.1 own
      exact ⟨(tree.made root tree.base).2.le, Nat.lt_succ_self _⟩
  · intro v made
    rw [windows, mem_append, mem_singleton]
    by_cases own : v = m.next
    · rw [own, win_make_self, bare.gone]
      simp
    · rw [win_make_of_ne w own]
      simp only [own, or_false]
      exact tree.gone v (by omega)
  · intro v leaf
    by_cases own : v = m.next
    · rw [own, win_make_self]
      exact bare.children
    · rw [win_make_of_ne w own] at leaf ⊢
      exact tree.leaf v leaf
  · intro v c current
    by_cases own : v = m.next
    · rw [own, win_make_self, bare.current] at current
      cases current
    · rw [win_make_of_ne w own] at current ⊢
      exact tree.current v c current
  · intro v tabs some
    by_cases own : v = m.next
    · rw [own, win_make_self] at some
      exact absurd bare.children some
    · rw [win_make_of_ne w own] at tabs some ⊢
      exact tree.shown v tabs some
  · intro f there
    have made := (tree.focus f there).1
    rw [next, win_make_of_ne w made.2.ne]
    exact ⟨made.imp_right Nat.lt_succ_of_lt, (tree.focus f there).2⟩

theorem Focused.make (focused : m.Focused) (w : Window) : (m.make w).Focused :=
  fun f there => mem_append_left _ (focused f there)

theorem Loose.make {ws : List Nat} (loose : m.Loose ws) (w : Window) :
    (m.make w).Loose (m.next :: ws) := by
  intro v there alone
  rcases mem_append.1 there with there | own
  · by_cases own : v = m.next
    · exact .inr (own ▸ mem_cons_self)
    · rw [win_make_of_ne w own] at alone
      exact (loose v there alone).imp_right (mem_cons_of_mem _)
  · exact .inr (mem_singleton.1 own ▸ mem_cons_self)

theorem orphan_of_parent (parent : (m.win w).parent = some p) :
    m.orphan w =
      (m.alter p fun q =>
        { q with
          children := cutOne (m.win p).children (indexOf (m.win p).children w)
          current :=
            if q.current = some w then
              element (cutOne (m.win p).children (indexOf (m.win p).children w))
                (min (indexOf (m.win p).children w)
                  (((cutOne (m.win p).children (indexOf (m.win p).children w)).length : Int) - 1))
            else q.current }).alter w ({ · with parent := none }) := by
  rw [orphan, parent]

theorem orphan_of_alone (alone : (m.win w).parent = none) : m.orphan w = m := by
  rw [orphan, alone]

@[simp]
theorem windows_orphan : (m.orphan w).windows = m.windows := by
  rw [orphan]
  rcases (m.win w).parent with _ | p <;> rfl

@[simp]
theorem next_orphan : (m.orphan w).next = m.next := by
  rw [orphan]
  rcases (m.win w).parent with _ | p <;> rfl

@[simp]
theorem focus_orphan : (m.orphan w).focus = m.focus := by
  rw [orphan]
  rcases (m.win w).parent with _ | p <;> rfl

theorem field_alter {α : Type} (field : Window → α) {f : Window → Window}
    (keeps : ∀ x, field (f x) = field x) (v : Nat) :
    field ((m.alter w f).win v) = field (m.win v) := by
  by_cases here : v = w
  · rw [here, win_alter_self, keeps]
  · rw [win_alter_of_ne m here]

theorem field_orphan {α : Type} (field : Window → α)
    (parent : ∀ x p, field { x with parent := p } = field x)
    (children : ∀ x cs c, field { x with children := cs, current := c } = field x) (v : Nat) :
    field ((m.orphan w).win v) = field (m.win v) := by
  rcases named : (m.win w).parent with _ | p
  · rw [orphan_of_alone named]
  · rw [orphan_of_parent named, field_alter field (fun x => parent x _),
      field_alter field (fun x => children x _ _)]

@[simp]
theorem kind_orphan : ((m.orphan w).win v).kind = (m.win v).kind :=
  field_orphan Window.kind (fun _ _ => rfl) (fun _ _ _ => rfl) v

@[simp]
theorem gone_orphan_eq : ((m.orphan w).win v).gone = (m.win v).gone :=
  field_orphan Window.gone (fun _ _ => rfl) (fun _ _ _ => rfl) v

@[simp]
theorem leaf_orphan : ((m.orphan w).win v).leaf = (m.win v).leaf := by
  rw [Window.leaf, Window.leaf, kind_orphan]

theorem parent_orphan_self : ((m.orphan w).win w).parent = none := by
  rcases named : (m.win w).parent with _ | p
  · rw [orphan_of_alone named, named]
  · rw [orphan_of_parent named, win_alter_self]

theorem parent_orphan_of_ne (other : v ≠ w) :
    ((m.orphan w).win v).parent = (m.win v).parent := by
  rcases named : (m.win w).parent with _ | p
  · rw [orphan_of_alone named]
  · rw [orphan_of_parent named, win_alter_of_ne _ other]
    apply field_alter Window.parent
    exact fun _ => rfl

theorem children_orphan (parent : (m.win w).parent = some p) :
    ((m.orphan w).win v).children =
      if v = p then cutOne (m.win p).children (indexOf (m.win p).children w)
      else (m.win v).children := by
  rw [orphan_of_parent parent]
  refine (field_alter Window.children ?_ v).trans ?_
  · exact fun _ => rfl
  split_ifs with here
  · rw [here, win_alter_self]
  · rw [win_alter_of_ne m here]

theorem current_orphan (parent : (m.win w).parent = some p) :
    ((m.orphan w).win v).current =
      if v = p ∧ (m.win p).current = some w then
        element (cutOne (m.win p).children (indexOf (m.win p).children w))
          (min (indexOf (m.win p).children w)
            (((cutOne (m.win p).children (indexOf (m.win p).children w)).length : Int) - 1))
      else (m.win v).current := by
  rw [orphan_of_parent parent]
  refine (field_alter Window.current ?_ v).trans ?_
  · exact fun _ => rfl
  by_cases here : v = p
  · subst here
    rw [win_alter_self]
    simp only [true_and]
  · rw [win_alter_of_ne m here, if_neg fun both => here both.1]

theorem Tree.mem_children (tree : m.Tree) : w ∈ (m.win p).children ↔ (m.win w).parent = some p :=
  tree.sound.mem_kids

theorem Tree.live_of_parent (tree : m.Tree) (parent : (m.win w).parent = some p) :
    p ∈ m.windows ∧ w ∈ m.windows := tree.sound.live_of_parent parent

theorem grove_orphan (parent : (m.win w).parent = some p) :
    (m.orphan w).grove =
      m.grove.cut w p (cutOne (m.win p).children (indexOf (m.win p).children w)) := by
  have parents : (fun v => ((m.orphan w).win v).parent) =
      update (fun v => (m.win v).parent) w none := by
    funext v
    by_cases own : v = w
    · rw [own, parent_orphan_self, update_self]
    · rw [parent_orphan_of_ne own, update_of_ne own]
  have children : (fun v => ((m.orphan w).win v).children) =
      update (fun v => (m.win v).children) p
        (cutOne (m.win p).children (indexOf (m.win p).children w)) := by
    funext v
    rw [children_orphan parent, update_apply]
  rw [grove, parents, children, windows_orphan]
  rfl

theorem Tree.orphan (tree : m.Tree) : (m.orphan w).Tree := by
  rcases parent : (m.win w).parent with _ | p
  · rw [orphan_of_alone parent]
    exact tree
  have member : w ∈ (m.win p).children := tree.mem_children.2 parent
  have perm := perm_cutOne member
  have nodup := perm.nodup_iff.1 (tree.sound.once p)
  constructor
  · rw [grove_orphan parent]
    exact tree.sound.cut parent perm
  · rw [windows_orphan]
    exact tree.nodup
  · rw [windows_orphan]
    exact tree.base
  · by_cases own : root = w
    · rw [own, parent_orphan_self]
    · rw [parent_orphan_of_ne own]
      exact tree.top
  · rw [kind_orphan]
    exact tree.divided
  · intro v there
    rw [windows_orphan] at there
    rw [next_orphan]
    exact tree.made v there
  · intro v made
    rw [next_orphan] at made
    rw [gone_orphan_eq, windows_orphan]
    exact tree.gone v made
  · intro v leaf
    rw [leaf_orphan] at leaf
    have none := tree.leaf v leaf
    rw [children_orphan parent]
    split_ifs with here
    · rw [here] at none
      rw [none] at member
      cases member
    · exact none
  · intro v c current
    rw [current_orphan parent] at current
    rw [children_orphan parent]
    by_cases here : v = p
    · rw [if_pos here]
      split_ifs at current with shown
      · exact element_mem current
      · have inside := tree.current v c current
        rw [here] at inside
        rcases mem_cons.1 (perm.mem_iff.1 inside) with rfl | left
        · rw [here] at current
          exact absurd ⟨here, current⟩ shown
        · exact left
    · rw [if_neg here]
      rw [if_neg fun both => here both.1] at current
      exact tree.current v c current
  · intro v tabs some
    rw [kind_orphan] at tabs
    rw [children_orphan parent] at some
    rw [current_orphan parent]
    by_cases here : v = p
    · rw [if_pos here] at some
      split_ifs with shown
      · have early : 0 ≤ indexOf (m.win p).children w := by
          rw [indexOf_of_mem member]
          omega
        rcases element_some some early with ⟨b, there⟩
        rw [there]
        nofun
      · apply tree.shown v tabs
        rw [here]
        exact ne_nil_of_mem member
    · rw [if_neg here] at some
      rw [if_neg fun both => here both.1]
      exact tree.shown v tabs some
  · intro f there
    rw [focus_orphan] at there
    rw [next_orphan, leaf_orphan]
    exact tree.focus f there

theorem Focused.orphan (focused : m.Focused) : (m.orphan w).Focused := by
  intro f there
  rw [focus_orphan] at there
  rw [windows_orphan]
  exact focused f there

theorem Loose.orphan {ws : List Nat} (loose : m.Loose ws) : (m.orphan w).Loose (w :: ws) := by
  intro v there alone
  by_cases own : v = w
  · exact .inr (own ▸ mem_cons_self)
  · rw [parent_orphan_of_ne own] at alone
    rw [windows_orphan] at there
    exact (loose v there alone).imp_right (mem_cons_of_mem _)

theorem adopt_of_alone (alone : (m.win w).parent = none) (index : Int) :
    m.adopt p w index =
      (m.alter w ({ · with parent := some p })).alter p fun q =>
        { q with
          children := putOne q.children index w
          current := if q.kind = some .tabs ∧ q.current = none then some w else q.current } := by
  rw [adopt, alone]
  rfl

@[simp]
theorem windows_adopt (index : Int) : (m.adopt p w index).windows = m.windows := by
  rw [adopt]
  dsimp only [alter]
  split_ifs
  · exact windows_orphan
  · rfl

@[simp]
theorem next_adopt (index : Int) : (m.adopt p w index).next = m.next := by
  rw [adopt]
  dsimp only [alter]
  split_ifs
  · exact next_orphan
  · rfl

@[simp]
theorem focus_adopt (index : Int) : (m.adopt p w index).focus = m.focus := by
  rw [adopt]
  dsimp only [alter]
  split_ifs
  · exact focus_orphan
  · rfl

theorem field_adopt {α : Type} (field : Window → α)
    (parent : ∀ x p, field { x with parent := p } = field x)
    (children : ∀ x cs c, field { x with children := cs, current := c } = field x) (index : Int)
    (v : Nat) : field ((m.adopt p w index).win v) = field (m.win v) := by
  rw [adopt]
  rw [field_alter field (fun x => children x _ _), field_alter field (fun x => parent x _)]
  split_ifs
  · exact field_orphan field parent children v
  · rfl

@[simp]
theorem kind_adopt (index : Int) : ((m.adopt p w index).win v).kind = (m.win v).kind :=
  field_adopt Window.kind (fun _ _ => rfl) (fun _ _ _ => rfl) index v

@[simp]
theorem gone_adopt (index : Int) : ((m.adopt p w index).win v).gone = (m.win v).gone :=
  field_adopt Window.gone (fun _ _ => rfl) (fun _ _ _ => rfl) index v

@[simp]
theorem leaf_adopt (index : Int) : ((m.adopt p w index).win v).leaf = (m.win v).leaf := by
  rw [Window.leaf, Window.leaf, kind_adopt]

section Alone

variable (alone : (m.win w).parent = none) (index : Int)

include alone index

theorem parent_adopt :
    ((m.adopt p w index).win v).parent = if v = w then some p else (m.win v).parent := by
  rw [adopt_of_alone alone]
  refine (field_alter Window.parent ?_ v).trans ?_
  · exact fun _ => rfl
  split_ifs with own
  · rw [own, win_alter_self]
  · rw [win_alter_of_ne m own]

theorem children_adopt : ((m.adopt p w index).win v).children =
      if v = p then putOne (m.win p).children index w else (m.win v).children := by
  have kept (v : Nat) : ((m.alter w ({ · with parent := some p })).win v).children =
      (m.win v).children := by
    apply field_alter Window.children
    exact fun _ => rfl
  rw [adopt_of_alone alone]
  split_ifs with here
  · rw [here, win_alter_self]
    dsimp only
    rw [kept]
  · rw [win_alter_of_ne _ here, kept]

theorem current_adopt : ((m.adopt p w index).win v).current =
      if v = p ∧ (m.win p).kind = some .tabs ∧ (m.win p).current = none then some w
      else (m.win v).current := by
  have current (v : Nat) : ((m.alter w ({ · with parent := some p })).win v).current =
      (m.win v).current := by
    apply field_alter Window.current
    exact fun _ => rfl
  have kind (v : Nat) : ((m.alter w ({ · with parent := some p })).win v).kind =
      (m.win v).kind := by
    apply field_alter Window.kind
    exact fun _ => rfl
  rw [adopt_of_alone alone]
  by_cases here : v = p
  · subst here
    rw [win_alter_self]
    simp only [current, kind, true_and]
  · rw [win_alter_of_ne _ here, current, if_neg fun both => here both.1]

theorem grove_adopt :
    (m.adopt p w index).grove = m.grove.put w p (putOne (m.win p).children index w) := by
  have parents : (fun v => ((m.adopt p w index).win v).parent) =
      update (fun v => (m.win v).parent) w (some p) := by
    funext v
    rw [parent_adopt alone, update_apply]
  have children : (fun v => ((m.adopt p w index).win v).children) =
      update (fun v => (m.win v).children) p (putOne (m.win p).children index w) := by
    funext v
    rw [children_adopt alone, update_apply]
  rw [grove, parents, children, windows_adopt]
  rfl

end Alone

theorem Tree.adopt (tree : m.Tree) (alone : (m.win w).parent = none) (there : w ∈ m.windows)
    (other : w ≠ root) (container : ¬(m.win p).leaf) (live : p ∈ m.windows)
    (off : ¬m.grove.Below p w) (index : Int) : (m.adopt p w index).Tree := by
  have perm := perm_putOne (m.win p).children index w
  constructor
  · rw [grove_adopt alone]
    exact tree.sound.put alone there live off perm
  · rw [windows_adopt]
    exact tree.nodup
  · rw [windows_adopt]
    exact tree.base
  · rw [parent_adopt alone, if_neg other.symm]
    exact tree.top
  · rw [kind_adopt]
    exact tree.divided
  · intro v there
    rw [windows_adopt] at there
    rw [next_adopt]
    exact tree.made v there
  · intro v made
    rw [next_adopt] at made
    rw [gone_adopt, windows_adopt]
    exact tree.gone v made
  · intro v leaf
    rw [leaf_adopt] at leaf
    rw [children_adopt alone]
    split_ifs with here
    · rw [here] at leaf
      exact absurd leaf container
    · exact tree.leaf v leaf
  · intro v c current
    rw [current_adopt alone] at current
    rw [children_adopt alone]
    by_cases here : v = p
    · rw [if_pos here]
      apply perm.mem_iff.2
      split_ifs at current with shown
      · cases current
        exact mem_cons_self
      · rw [here] at current
        exact mem_cons_of_mem _ (tree.current p c current)
    · rw [if_neg here]
      rw [if_neg fun both => here both.1] at current
      exact tree.current v c current
  · intro v tabs some
    rw [kind_adopt] at tabs
    rw [children_adopt alone] at some
    rw [current_adopt alone]
    split_ifs with shown
    · nofun
    · by_cases here : v = p
      · intro none
        rw [here] at none tabs
        exact shown ⟨here, tabs, none⟩
      · rw [if_neg here] at some
        exact tree.shown v tabs some
  · intro f there
    rw [focus_adopt] at there
    rw [next_adopt, leaf_adopt]
    exact tree.focus f there

theorem Focused.adopt (focused : m.Focused) (index : Int) : (m.adopt p w index).Focused := by
  intro f there
  rw [focus_adopt] at there
  rw [windows_adopt]
  exact focused f there

theorem Loose.adopt {ws : List Nat} (loose : m.Loose (w :: ws))
    (alone : (m.win w).parent = none) (index : Int) : (m.adopt p w index).Loose ws := by
  intro v there bare
  rw [windows_adopt] at there
  rw [parent_adopt alone] at bare
  split_ifs at bare with own
  rcases loose v there bare with top | some
  · exact .inl top
  · exact .inr ((mem_cons.1 some).resolve_left own)

theorem Tree.show (tree : m.Tree) (child : c ∈ (m.win p).children) :
    (m.alter p ({ · with current := some c })).Tree := by
  have field {α : Type} (field : Window → α)
      (keeps : ∀ x c, field { x with current := c } = field x) (v : Nat) :
      field ((m.alter p ({ · with current := some c })).win v) = field (m.win v) :=
    field_alter field (fun x => keeps x _) v
  have parent := field Window.parent fun _ _ => rfl
  have children := field Window.children fun _ _ => rfl
  have kind := field Window.kind fun _ _ => rfl
  have leaf := field Window.leaf fun _ _ => rfl
  have gone := field Window.gone fun _ _ => rfl
  have grove : (m.alter p ({ · with current := some c })).grove = m.grove := by
    rw [Manager.grove, funext parent, funext children]
    rfl
  refine ⟨?_, tree.nodup, tree.base, ?_, ?_, tree.made, ?_, ?_, ?_, ?_, ?_⟩
  · rw [grove]
    exact tree.sound
  · rw [parent]
    exact tree.top
  · rw [kind]
    exact tree.divided
  · intro v made
    rw [gone]
    exact tree.gone v made
  · intro v
    rw [leaf, children]
    exact tree.leaf v
  · intro v d current
    rw [children]
    by_cases here : v = p
    · subst here
      rw [win_alter_self] at current
      cases current
      exact child
    · rw [win_alter_of_ne m here] at current
      exact tree.current v d current
  · intro v tabs some
    rw [kind] at tabs
    rw [children] at some
    by_cases here : v = p
    · subst here
      rw [win_alter_self]
      nofun
    · rw [win_alter_of_ne m here]
      exact tree.shown v tabs some
  · intro f there
    rw [leaf]
    exact tree.focus f there

theorem Tree.live_of_child (tree : m.Tree) (child : c ∈ (m.win p).children) : c ∈ m.windows :=
  (tree.sound.kid p c child).2.1

theorem Tree.not_gone (tree : m.Tree) (there : w ∈ m.windows) : ¬(m.win w).gone :=
  fun gone => (tree.gone w (tree.made w there)).1 gone there

theorem Tree.firstleafIn (tree : m.Tree) {n l : Nat} (there : w ∈ m.windows)
    (found : firstleafIn n m w = some l) : l ∈ m.windows ∧ (m.win l).leaf := by
  induction n generalizing w with
  | zero => cases found
  | succ n ih =>
      rw [Manager.firstleafIn, if_neg (tree.not_gone there)] at found
      split_ifs at found with leaf
      · cases found
        exact ⟨there, leaf.1⟩
      · dsimp only at found
        rcases exists_of_findSome?_eq_some found with ⟨c, listed, below⟩
        have child : c ∈ (m.win w).children := by
          split at listed
          next shown _ current =>
            rcases mem_cons.1 listed with rfl | child
            · exact tree.current w c current
            · exact child
          · exact listed
        exact ih (tree.live_of_child child) below

theorem Tree.focusing (tree : m.Tree) {f : Option Nat}
    (ok : ∀ l, f = some l → l ∈ m.windows ∧ (m.win l).leaf) :
    Tree { m with focus := f } ∧ Focused { m with focus := f } := by
  constructor
  · exact
      { sound := tree.sound
        nodup := tree.nodup
        base := tree.base
        top := tree.top
        divided := tree.divided
        made := tree.made
        gone := tree.gone
        leaf := tree.leaf
        current := tree.current
        shown := tree.shown
        focus := fun l there => ⟨tree.made l (ok l there).1, (ok l there).2⟩ }
  · exact fun l there => (ok l there).1

theorem Tree.refocus (tree : m.Tree) : (m.refocus w).Tree ∧ (m.refocus w).Focused := by
  rw [Manager.refocus]
  split_ifs with lost
  · exact tree.focusing fun l found => tree.firstleafIn tree.base found
  · refine ⟨tree, fun f there => ?_⟩
    rcases not_or.1 lost with ⟨_, rest⟩
    by_contra out
    have gone := (tree.gone f (tree.focus f there).1).2 out
    apply (not_or.1 rest).1
    rw [there]
    exact gone

theorem field_endreads {α : Type} (field : Window → α)
    (keeps : ∀ x, field { x with gone := true, reads := [], eventreads := [] } = field x)
    (v : Nat) : field ((m.endreads w).win v) = field (m.win v) := by
  rw [Manager.endreads, win_reply]
  apply field_alter field
  exact keeps

theorem like_endreads (gone : (m.win w).gone) : m.Like (m.endreads w) := by
  refine (like_alter ?_).trans (like_reply _)
  simp only [Window.shape, gone]

theorem like_endreads_orphan :
    (((m.orphan w).endreads w).forget w).Like (((m.endreads w).orphan w).forget w) := by
  have kind (m : Manager) (v : Nat) : ((m.endreads w).win v).kind = (m.win v).kind :=
    field_endreads Window.kind (fun _ => rfl) v
  have parent (m : Manager) (v : Nat) : ((m.endreads w).win v).parent = (m.win v).parent :=
    field_endreads Window.parent (fun _ => rfl) v
  have children (m : Manager) (v : Nat) : ((m.endreads w).win v).children = (m.win v).children :=
    field_endreads Window.children (fun _ => rfl) v
  have current (m : Manager) (v : Nat) : ((m.endreads w).win v).current = (m.win v).current :=
    field_endreads Window.current (fun _ => rfl) v
  have gone (m : Manager) (v : Nat) : ((m.endreads w).win v).gone =
      if v = w then true else (m.win v).gone := by
    rw [Manager.endreads, win_reply]
    split_ifs with own
    · rw [own, win_alter_self]
    · rw [win_alter_of_ne m own]
  refine ⟨fun v => ?_, ?_, ?_, ?_⟩
  · change (((m.endreads w).orphan w).win v).shape = (((m.orphan w).endreads w).win v).shape
    simp only [Window.shape, kind, gone, kind_orphan, gone_orphan_eq, parent, children, current]
    rcases named : (m.win w).parent with _ | p
    · have named' : ((m.endreads w).win w).parent = none := (parent m w).trans named
      rw [orphan_of_alone named, orphan_of_alone named', parent, children, current]
    · have named' : ((m.endreads w).win w).parent = some p := (parent m w).trans named
      rw [children_orphan named, children_orphan named', current_orphan named,
        current_orphan named']
      simp only [children, current]
      by_cases own : v = w
      · rw [own, parent_orphan_self, parent_orphan_self]
      · rw [parent_orphan_of_ne own, parent_orphan_of_ne own, parent]
  · exact next_orphan.trans (next_orphan (m := m) (w := w)).symm
  · have windows : ((m.endreads w).orphan w).windows = ((m.orphan w).endreads w).windows :=
      windows_orphan.trans (windows_orphan (m := m) (w := w)).symm
    exact congrArg (List.filter (· ≠ w)) windows
  · exact focus_orphan.trans (focus_orphan (m := m) (w := w)).symm

theorem Tree.vanish (tree : m.Tree) (alone : (m.win w).parent = none)
    (childless : (m.win w).children = []) (other : w ≠ root) : ((m.endreads w).forget w).Tree := by
  have kind (v : Nat) : ((m.endreads w).win v).kind = (m.win v).kind :=
    field_endreads Window.kind (fun _ => rfl) v
  have leaf (v : Nat) : ((m.endreads w).win v).leaf = (m.win v).leaf :=
    field_endreads Window.leaf (fun _ => rfl) v
  have parent (v : Nat) : ((m.endreads w).win v).parent = (m.win v).parent :=
    field_endreads Window.parent (fun _ => rfl) v
  have children (v : Nat) : ((m.endreads w).win v).children = (m.win v).children :=
    field_endreads Window.children (fun _ => rfl) v
  have current (v : Nat) : ((m.endreads w).win v).current = (m.win v).current :=
    field_endreads Window.current (fun _ => rfl) v
  have left (v : Nat) : v ∈ ((m.endreads w).forget w).windows ↔ v ≠ w ∧ v ∈ m.windows := by
    have windows : ((m.endreads w).forget w).windows = m.windows.filter (· ≠ w) := rfl
    rw [windows, mem_filter, decide_eq_true_eq, and_comm]
  have grove : ((m.endreads w).forget w).grove = m.grove.drop w := by
    have live : (fun v => v ∈ ((m.endreads w).forget w).windows) =
        fun v => v ≠ w ∧ v ∈ m.windows := funext fun v => propext (left v)
    change Grove.mk (fun v => v ∈ ((m.endreads w).forget w).windows)
      (fun v => ((m.endreads w).win v).parent) (fun v => ((m.endreads w).win v).children) = _
    rw [funext parent, funext children, live]
    rfl
  constructor
  · rw [grove]
    exact tree.sound.drop alone childless
  · exact tree.nodup.filter _
  · exact (left root).2 ⟨other.symm, tree.base⟩
  · exact (parent root).trans tree.top
  · exact (kind root).trans tree.divided
  · exact fun v there => tree.made v ((left v).1 there).2
  · intro v made
    rw [left]
    by_cases own : v = w
    · have gone : (((m.endreads w).forget w).win w).gone = true := by
        change ((m.endreads w).win w).gone = true
        rw [Manager.endreads, win_reply, win_alter_self]
      rw [own, gone]
      simp
    · have gone : (((m.endreads w).forget w).win v).gone = (m.win v).gone := by
        change ((m.endreads w).win v).gone = (m.win v).gone
        rw [Manager.endreads, win_reply, win_alter_of_ne m own]
      rw [gone, tree.gone v made]
      simp only [ne_eq, own, not_false_eq_true, true_and]
  · intro v
    change ((m.endreads w).win v).leaf → ((m.endreads w).win v).children = []
    rw [leaf, children]
    exact tree.leaf v
  · intro v c
    change ((m.endreads w).win v).current = some c → c ∈ ((m.endreads w).win v).children
    rw [current, children]
    exact tree.current v c
  · intro v
    change ((m.endreads w).win v).kind = some .tabs → ((m.endreads w).win v).children ≠ [] →
      ((m.endreads w).win v).current ≠ none
    rw [kind, children, current]
    exact tree.shown v
  · intro f there
    change (root ≤ f ∧ f < m.next) ∧ ((m.endreads w).win f).leaf
    rw [leaf]
    exact tree.focus f there

/-- What a closing leaves: some windows, in the places they had. -/
structure Left (m m' : Manager) : Prop where
  tree : m'.Tree
  part : m.grove.Part m'.grove
  sub : m'.windows.Sublist m.windows
  kind : ∀ v, (m'.win v).kind = (m.win v).kind
  next : m'.next = m.next

/-- The window closed is not of them, and those that went with it are below it or above. -/
structure Closed (m : Manager) (w : Nat) (m' : Manager) : Prop extends m.Left m' where
  out : w ∉ m'.windows
  kept : ∀ v ∈ m.windows, v ∉ m'.windows → m.grove.Below v w ∨ m.grove.Below w v
  focused : m'.Focused

structure Closings (m : Manager) (d : Nat) (cs : List Nat) (m' : Manager) : Prop
    extends m.Left m' where
  out : ∀ c ∈ cs, c ∉ m'.windows
  kept : ∀ v ∈ m.windows, v ∉ m'.windows → m.grove.Below v d ∨ m.grove.Below d v
  focused : m.Focused → m'.Focused

theorem Left.rfl (tree : m.Tree) : m.Left m :=
  ⟨tree, .rfl, List.Sublist.refl _, fun _ => Eq.refl _, Eq.refl _⟩

theorem Left.trans (first : m.Left m') (rest : m'.Left m'') : m.Left m'' :=
  ⟨rest.tree, first.part.trans rest.part, rest.sub.trans first.sub,
    fun v => (rest.kind v).trans (first.kind v), rest.next.trans first.next⟩

theorem Left.like (first : m.Left m') (like : m'.Like m'') : m.Left m'' where
  tree := like.tree first.tree
  part := like.grove ▸ first.part
  sub := like.windows ▸ first.sub
  kind v := (like.kind v).trans (first.kind v)
  next := like.next.trans first.next

theorem Left.below (left : m.Left m') {i j : Nat} (there : i ∈ m'.windows)
    (below : m'.grove.Below i j) : m.grove.Below i j :=
  left.part.below left.tree.sound there below

theorem Left.parent (left : m.Left m') (there : v ∈ m'.windows) :
    (m'.win v).parent = (m.win v).parent := left.part.parent v there

theorem Left.size (left : m.Left m') (d : Nat) :
    m'.grove.size m'.windows d ≤ m.grove.size m.windows d :=
  Grove.size_mono (fun _ there => left.sub.subset there) fun _ there => left.below there

theorem Left.refocus (left : m.Left m') : m.Left (m'.refocus w) ∧ (m'.refocus w).Focused := by
  have same : m.Left (m'.refocus w) := by
    have tree := (left.tree.refocus (w := w)).1
    rw [Manager.refocus] at tree ⊢
    split_ifs at tree ⊢
    · exact ⟨tree, left.part, left.sub, left.kind, left.next⟩
    · exact left
  exact ⟨same, left.tree.refocus.2⟩

/-- Each child in turn; what goes with one is neither another nor what they are the children of,
until the last has gone. -/
theorem closings {f : Manager → Nat → Manager} {b d : Nat}
    (each : ∀ (m : Manager) w, m.Tree → w ∈ m.windows → w ≠ root →
      m.grove.size m.windows w + m.windows.length < b → m.Closed w (f m w))
    {cs : List Nat} (tree : m.Tree) (there : d ∈ m.windows) (nodup : cs.Nodup)
    (children : ∀ c ∈ cs, (m.win c).parent = some d)
    (enough : m.grove.size m.windows d + m.windows.length ≤ b) :
    m.Closings d cs (cs.foldl f m) := by
  induction cs generalizing m with
  | nil =>
      refine { toLeft := .rfl tree, out := nofun, kept := ?_, focused := id }
      exact fun v there out => absurd there out
  | cons c cs ih =>
      have parent := children c mem_cons_self
      have live := (tree.live_of_parent parent).2
      have other : c ≠ root := by
        rintro rfl
        cases tree.top.symm.trans parent
      have smaller := tree.sound.size_kid parent there
      have first := each m c tree live other (by omega)
      have part : ∀ v ∈ m.windows, v ∉ (f m c).windows → m.grove.Below v d ∨ m.grove.Below d v := by
        intro v there out
        rcases first.kept v there out with below | above
        · exact .inl (below.tail parent)
        · rcases Relation.ReflTransGen.cases_head above with rfl | ⟨u, rises, rest⟩
          · exact .inl (.single parent)
          · cases parent.symm.trans rises
            exact .inr rest
      rcases cs with _ | ⟨c', cs⟩
      · refine { toLeft := first.toLeft, out := ?_, kept := part, focused := fun _ =>
            first.focused }
        intro e member
        cases mem_singleton.1 member
        exact first.out
      have stay (e : Nat) (member : e ∈ c' :: cs) : e ∈ (f m c).windows := by
        have parent' := children e (mem_cons_of_mem _ member)
        have differs : e ≠ c := by
          rintro rfl
          exact (nodup_cons.1 nodup).1 member
        by_contra out
        rcases first.kept e (tree.live_of_parent parent').2 out with below | above
        · exact differs (tree.sound.siblings parent' parent below)
        · exact differs (tree.sound.siblings parent parent' above).symm
      have children' (e : Nat) (member : e ∈ c' :: cs) : ((f m c).win e).parent = some d :=
        (first.parent (stay e member)).trans (children e (mem_cons_of_mem _ member))
      have there' := (first.tree.live_of_parent (children' c' mem_cons_self)).1
      have less := first.size d
      have fewer := first.sub.length_le
      have rest := ih first.tree there' (nodup_cons.1 nodup).2 children' (by omega)
      refine
        { toLeft := first.toLeft.trans rest.toLeft
          out := ?_
          kept := ?_
          focused := fun _ => rest.focused first.focused }
      · intro e member
        rcases mem_cons.1 member with rfl | below
        · exact fun back => first.out (rest.sub.subset back)
        · exact rest.out e below
      · intro v there out
        by_cases stays : v ∈ (f m c).windows
        · rcases rest.kept v stays out with below | above
          · exact .inl (first.below stays below)
          · exact .inr (first.below there' above)
        · exact part v there stays

theorem windows_remove :
    (((m.endreads w).orphan w).forget w).windows = m.windows.filter (· ≠ w) := by
  have windows : ((m.endreads w).orphan w).windows = m.windows := windows_orphan
  exact congrArg (List.filter (· ≠ w)) windows

theorem Tree.children_orphan_self (tree : m.Tree) :
    ((m.orphan w).win w).children = (m.win w).children := by
  rcases parent : (m.win w).parent with _ | p
  · rw [orphan_of_alone parent]
  · have other : w ≠ p := (tree.sound.ne_parent parent).symm
    rw [children_orphan parent, if_neg other]

theorem Tree.remove (tree : m.Tree) (childless : (m.win w).children = []) (other : w ≠ root) :
    m.Left (((m.endreads w).orphan w).forget w) := by
  have alone : ((m.orphan w).win w).parent = none := parent_orphan_self
  constructor
  · apply like_endreads_orphan.tree
    exact tree.orphan.vanish alone (tree.children_orphan_self.trans childless) other
  · have listed (v : Nat) (there : v ∈ (((m.endreads w).orphan w).forget w).windows) :
        v ∈ m.windows ∧ v ≠ w := by
      rw [windows_remove, mem_filter] at there
      exact ⟨there.1, of_decide_eq_true there.2⟩
    refine ⟨fun v there => (listed v there).1, fun v there => ?_⟩
    have own := (listed v there).2
    exact (parent_orphan_of_ne own).trans (field_endreads Window.parent (fun _ => rfl) v)
  · rw [windows_remove]
    exact filter_sublist
  · intro v
    exact kind_orphan.trans (field_endreads Window.kind (fun _ => rfl) v)
  · exact next_orphan

@[simp]
theorem windows_refocus : (m.refocus w).windows = m.windows := by
  rw [Manager.refocus]
  split_ifs <;> rfl

theorem Left.closed (left : m.Left m') (out : w ∉ m'.windows)
    (kept : ∀ v ∈ m.windows, v ∉ m'.windows → m.grove.Below v w ∨ m.grove.Below w v) :
    m.Closed w (m'.refocus w) := by
  refine { toLeft := left.refocus.1, out := ?_, kept := ?_, focused := left.refocus.2 }
  · rw [windows_refocus]
    exact out
  · rw [windows_refocus]
    exact kept

theorem closeIn_closed {n : Nat} (tree : m.Tree) (there : w ∈ m.windows) (other : w ≠ root)
    (enough : m.grove.size m.windows w + m.windows.length < n) : m.Closed w (closeIn n m w) := by
  induction n generalizing m w with
  | zero => omega
  | succ n ih =>
      have live : ¬(w = root ∨ (m.win w).gone) := not_or.2 ⟨other, tree.not_gone there⟩
      rw [closeIn, if_neg live]
      have first : m.Closings w (m.win w).children ((m.win w).children.foldl (closeIn n) m) := by
        apply closings (fun _ _ tree there other => ih tree there other) tree there
        · exact tree.sound.once w
        · exact fun c child => tree.mem_children.1 child
        · omega
      generalize (m.win w).children.foldl (closeIn n) m = m₁ at first
      have hung := first.toLeft.like (like_hangup (w := w))
      have windows : (m₁.hangup w).windows = m₁.windows := like_hangup.windows
      generalize m₁.hangup w = m₂ at hung windows
      dsimp only
      by_cases stays : w ∈ m₂.windows
      · have childless : (m₂.win w).children = [] := by
          rw [eq_nil_iff_forall_not_mem]
          intro c child
          have rises := hung.tree.mem_children.1 child
          have inside := (hung.tree.live_of_parent rises).2
          have child' := tree.mem_children.2 ((hung.parent inside).symm.trans rises)
          rw [windows] at inside
          exact first.out c child' inside
        have removed := hung.tree.remove childless other
        have parent : ((m₂.endreads w).win w).parent = (m.win w).parent :=
          (field_endreads Window.parent (fun _ => rfl) w).trans (hung.parent stays)
        have left := hung.trans removed
        have listed (v : Nat) : v ∈ (((m₂.endreads w).orphan w).forget w).windows ↔
            v ∈ m₂.windows ∧ v ≠ w := by
          rw [windows_remove, mem_filter, decide_eq_true_eq]
        have out : w ∉ (((m₂.endreads w).orphan w).forget w).windows :=
          fun back => ((listed w).1 back).2 rfl
        have kept (v : Nat) (inside : v ∈ m.windows)
            (lost : v ∉ (((m₂.endreads w).orphan w).forget w).windows) :
            m.grove.Below v w ∨ m.grove.Below w v := by
          by_cases own : v = w
          · exact .inl (own ▸ .refl)
          · have early : v ∉ m₁.windows :=
              fun back => lost ((listed v).2 ⟨windows ▸ back, own⟩)
            exact first.kept v inside early
        have fewer : (((m₂.endreads w).orphan w).forget w).windows.length < m.windows.length := by
          rw [windows_remove]
          have shorter : (m₂.windows.filter (· ≠ w)).length < m₂.windows.length := by
            apply length_filter_lt_length_iff_exists.2
            exact ⟨w, stays, by simp⟩
          exact shorter.trans_le hung.sub.length_le
        rw [parent]
        generalize ((m₂.endreads w).orphan w).forget w = r at left listed out kept fewer
        rcases named : (m.win w).parent with _ | p
        · exact left.closed out kept
        · have inside : p ∈ r.windows := by
            have rises := (hung.parent stays).trans named
            exact (listed p).2 ⟨(hung.tree.live_of_parent rises).1, hung.tree.sound.ne_parent rises⟩
          dsimp only
          split_ifs with up
          · have small := left.tree.sound.size_childless r.windows up.2
            have some := Grove.size_pos (g := m.grove) there
            have above := ih left.tree inside up.1 (by omega)
            refine (left.trans above.toLeft).closed (fun back => out (above.sub.subset back)) ?_
            intro v before lost
            by_cases early : v ∈ r.windows
            · right
              rcases above.kept v early lost with below | more
              · rw [left.tree.sound.below_childless up.2 below]
                exact .single named
              · exact .head named (left.below inside more)
            · exact kept v before early
          · exact left.closed out kept
      · have before : root ≤ w ∧ w < m₂.next := by
          rw [hung.next]
          exact tree.made w there
        have ended := hung.like (like_endreads ((hung.tree.gone w before).2 stays))
        have parent : ((m₂.endreads w).win w).parent = none := by
          rw [field_endreads Window.parent fun _ => rfl]
          exact hung.tree.sound.parent_of_dead stays
        have same : ((m₂.endreads w).orphan w).forget w = m₂.endreads w := by
          rw [orphan_of_alone parent, forget]
          have all : (m₂.endreads w).windows.filter (· ≠ w) = (m₂.endreads w).windows := by
            apply filter_eq_self.2
            intro v inside
            apply decide_eq_true
            rintro rfl
            exact stays inside
          rw [all]
        rw [parent, same]
        have kept (v : Nat) (inside : v ∈ m.windows) (lost : v ∉ (m₂.endreads w).windows) :
            m.grove.Below v w ∨ m.grove.Below w v :=
          first.kept v inside fun back => lost (windows.symm ▸ back :)
        exact ended.closed stays kept

theorem Left.loose {ws : List Nat} (left : m.Left m') (loose : m.Loose ws) : m'.Loose ws := by
  intro v there alone
  rw [left.parent there] at alone
  exact loose v (left.sub.subset there) alone

theorem Tree.not_leaf (tree : m.Tree) (parent : (m.win w).parent = some p) : ¬(m.win p).leaf := by
  intro leaf
  have child := tree.mem_children.2 parent
  rw [tree.leaf p leaf] at child
  cases child

theorem Tree.root_not_leaf (tree : m.Tree) : ¬(m.win root).leaf := by
  rw [Window.leaf, tree.divided]
  exact Bool.false_ne_true

theorem Tree.length_windows (tree : m.Tree) : m.windows.length ≤ m.next := by
  rw [← toFinset_card_of_nodup tree.nodup, ← Finset.card_range m.next]
  apply Finset.card_le_card
  intro w there
  exact Finset.mem_range.2 (tree.made w (mem_toFinset.1 there)).2

theorem Tree.close (tree : m.Tree) (there : w ∈ m.windows) (other : w ≠ root) :
    m.Closed w (m.close w) := by
  apply closeIn_closed tree there other
  have few := Grove.size_le m.grove m.windows w
  have bound := tree.length_windows
  omega

/-- The tree, with windows that are in no parent's children; and where all is in order there are no
others, and what is in focus is there. -/
structure Settled (m : Manager) (full : Prop) (ws : List Nat) : Prop where
  tree : m.Tree
  focused : full → m.Focused
  loose : full → m.Loose ws

section Settled

variable {full : Prop} {ws : List Nat} (settled : m.Settled full ws)

include settled

theorem Settled.like (like : m.Like m') : m'.Settled full ws :=
  ⟨like.tree settled.tree, fun all => like.focused (settled.focused all),
    fun all => like.loose (settled.loose all)⟩

theorem Settled.make {x : Window} (bare : Bare x) : (m.make x).Settled full (m.next :: ws) :=
  ⟨settled.tree.make bare, fun all => (settled.focused all).make x,
    fun all => (settled.loose all).make x⟩

theorem Settled.left (left : m.Left m') (focused : m.Focused → m'.Focused) :
    m'.Settled full ws :=
  ⟨left.tree, fun all => focused (settled.focused all), fun all => left.loose (settled.loose all)⟩

theorem Settled.show (child : c ∈ (m.win p).children) :
    (m.alter p ({ · with current := some c })).Settled full ws where
  tree := settled.tree.show child
  focused := settled.focused
  loose all := by
    intro v there alone
    apply settled.loose all v there
    rw [← alone]
    apply (field_alter Window.parent ?_ v).symm
    exact fun _ => rfl

end Settled

end Manager

end Ipnx.Host.Emca
