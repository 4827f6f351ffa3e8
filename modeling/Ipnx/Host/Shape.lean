import Ipnx.Host.Tree
import Ipnx.Lib.Forest

/-!
# The shape of the page's tree

Parent links, lists of children and names are three copies of one shape. Each operation of the
tree is one of the shape's, and no look at a slot finds it empty.
-/

namespace Ipnx.Host

open List

namespace Tree

variable {t t' : Tree} {i dir : Nat} {n dn : Node} {p : Path} {name : String}

def forest (t : Tree) : Forest Nat where
  live i := (t.node i).isSome
  parent i := ((t.node i).map Node.parent).getD 0
  kids i := ((t.node i).map Node.kids).getD []

/-- What holds of the tree however it was made. -/
structure Shaped (t : Tree) : Prop where
  /-- Parents and lists agree, each node is on one list once, and is below the root. -/
  rooted : t.forest.Rooted 0
  /-- Names in one directory are distinct. -/
  distinct : ∀ d k k' n n', k ∈ t.forest.kids d → k' ∈ t.forest.kids d → t.node k = some n →
    t.node k' = some n' → n.name = n'.name → k = k'
  /-- A qid's path is its slot's place, and a slot is not used twice. -/
  paths : ∀ i n, t.node i = some n → n.path = i
  next : t.next = t.nodes.length

theorem live_iff : t.forest.live i ↔ ∃ n, t.node i = some n := Option.isSome_iff_exists

theorem node_eq_none (beyond : t.nodes.length ≤ i) : t.node i = none := by
  rw [node, List.getElem?_eq_none beyond]
  rfl

section There

variable (there : t.node i = some n)

include there

theorem live_of_node : t.forest.live i := live_iff.2 ⟨n, there⟩

theorem parent_of_node : t.forest.parent i = n.parent := by
  simp [forest, there]

theorem kids_of_node : t.forest.kids i = n.kids := by
  simp [forest, there]

theorem node_lt : i < t.nodes.length := by
  by_contra beyond
  rw [node, List.getElem?_eq_none (Nat.le_of_not_lt beyond)] at there
  cases there

def set (t : Tree) (i : Nat) (n : Option Node) : Tree := { t with nodes := t.nodes.set i n }

omit there in
theorem node_set (bound : i < t.nodes.length) (o : Option Node) (j : Nat) :
    (t.set i o).node j = if j = i then o else t.node j := by
  rw [node, set, List.getElem?_set]
  split_ifs with same here here
  · rfl
  · exact absurd same.symm here
  · exact absurd here.symm same
  · rfl

theorem edit_eq (f : Node → Node) : t.edit i f = some (t.set i (some (f n))) := by
  rw [edit, there]
  rfl

theorem node_edit {f : Node → Node} (j : Nat) :
    (t.set i (some (f n))).node j = if j = i then some (f n) else t.node j :=
  node_set (node_lt there) _ j

end There

@[simp]
theorem length_set (o : Option Node) : (t.set i o).nodes.length = t.nodes.length := by
  simp [set]

@[simp]
theorem next_set (o : Option Node) : (t.set i o).next = t.next := rfl

variable (f : List Nat → List Nat)

@[simp]
theorem kids_mapKids (n : Node) (dir : n.isDir = true) :
    (n.mapKids f).kids = f n.kids := by
  rcases n with ⟨_, _, _, _, _, _, _ | _ | _⟩
  · rfl
  · cases dir
  · cases dir

theorem kids_mapKids_nil (n : Node) (nil : f [] = []) :
    (n.mapKids f).kids = f n.kids := by
  rcases n with ⟨_, _, _, _, _, _, _ | _ | _⟩
  · rfl
  · exact nil.symm
  · exact nil.symm

@[simp]
theorem mapKids_isDir (n : Node) : (n.mapKids f).isDir = n.isDir := by
  rcases n with ⟨_, _, _, _, _, _, _ | _ | _⟩ <;> rfl

@[simp]
theorem mapKids_parent (n : Node) : (n.mapKids f).parent = n.parent := by
  rcases n with ⟨_, _, _, _, _, _, _ | _ | _⟩ <;> rfl

@[simp]
theorem mapKids_name (n : Node) : (n.mapKids f).name = n.name := by
  rcases n with ⟨_, _, _, _, _, _, _ | _ | _⟩ <;> rfl

@[simp]
theorem mapKids_path (n : Node) : (n.mapKids f).path = n.path := by
  rcases n with ⟨_, _, _, _, _, _, _ | _ | _⟩ <;> rfl

variable {names : List String}

/-- A look for a name on a list of live nodes: the first that has it, or none of them. -/
theorem named_spec {ks : List Nat} (live : ∀ k ∈ ks, t.forest.live k) (name : String) :
    (t.named name ks = some none ∧ ∀ k ∈ ks, ∀ n, t.node k = some n → n.name ≠ name) ∨
    (∃ k n, t.named name ks = some (some k) ∧ k ∈ ks ∧ t.node k = some n ∧ n.name = name) := by
  induction ks with
  | nil =>
      left
      exact ⟨rfl, by simp⟩
  | cons k ks ih =>
      rcases live_iff.1 (live k (mem_cons_self ..)) with ⟨n, there⟩
      by_cases same : n.name = name
      · right
        refine ⟨k, n, ?_, mem_cons_self .., there, same⟩
        simp [named, there, same]
      · have rest : t.named name (k :: ks) = t.named name ks := by
          simp [named, there, same]
        rw [rest]
        rcases ih fun k' member => live k' (mem_cons_of_mem _ member) with
          ⟨none, others⟩ | ⟨k', n', found, member, there', same'⟩
        · left
          refine ⟨none, ?_⟩
          intro k' member n' there'
          rcases mem_cons.1 member with rfl | member
          · rw [there, Option.some.injEq] at there'
            exact there' ▸ same
          · exact others k' member n' there'
        · right
          exact ⟨k', n', found, mem_cons_of_mem _ member, there', same'⟩

theorem walk_cons (at_ : Nat) (name : String) (names : List String) :
    t.walk at_ (name :: names) =
      match t.child at_ name with
      | none => none
      | some none => some none
      | some (some k) => t.walk k names := by
  rw [walk]
  rcases t.child at_ name with _ | _ | _ <;> rfl

theorem walk_append (at_ : Nat) (names names' : List String) : t.walk at_ (names ++ names') =
    match t.walk at_ names with
    | none => none
    | some none => some none
    | some (some k) => t.walk k names' := by
  induction names generalizing at_ with
  | nil => rfl
  | cons name names ih =>
      rw [cons_append, walk_cons, walk_cons]
      rcases t.child at_ name with _ | _ | k
      · rfl
      · rfl
      · exact ih k

section Shaped

variable (shaped : t.Shaped)

include shaped

theorem Shaped.child_spec (live : t.forest.live dir) (name : String) :
    (t.child dir name = some none ∧
      ∀ k ∈ t.forest.kids dir, ∀ n, t.node k = some n → n.name ≠ name) ∨
    (∃ k n, t.child dir name = some (some k) ∧ k ∈ t.forest.kids dir ∧ t.node k = some n ∧
      n.name = name) := by
  rcases live_iff.1 live with ⟨dn, there⟩
  have child : t.child dir name = t.named name (t.forest.kids dir) := by
    rw [Tree.child, there, kids_of_node there]
    rfl
  rw [child]
  exact named_spec (fun k member => (shaped.rooted.kid dir k member).2.1) name

theorem Shaped.walk_live {at_ : Nat} (live : t.forest.live at_)
    (names : List String) : t.walk at_ names = some none ∨
      ∃ i, t.walk at_ names = some (some i) ∧ t.forest.live i := by
  induction names generalizing at_ with
  | nil =>
      right
      exact ⟨at_, rfl, live⟩
  | cons name names ih =>
      rw [walk_cons]
      rcases shaped.child_spec live name with ⟨none, _⟩ | ⟨k, n, found, member, there, _⟩
      · left
        rw [none]
      · rw [found]
        exact ih (live_of_node there)

theorem Shaped.find_live (p : Path) : t.find p = some none ∨
    ∃ i n, t.find p = some (some i) ∧ t.node i = some n := by
  rcases shaped.walk_live shaped.rooted.base p.names with none | ⟨i, found, live⟩
  · exact Or.inl none
  · rcases live_iff.1 live with ⟨n, there⟩
    exact Or.inr ⟨i, n, found, there⟩

theorem Shaped.walk_concat {name : String} (found : t.walk 0 (names ++ [name]) = some (some i)) :
    ∃ d n, t.walk 0 names = some (some d) ∧ i ∈ t.forest.kids d ∧ t.node i = some n ∧
      n.name = name := by
  rw [walk_append] at found
  rcases shaped.walk_live shaped.rooted.base names with none | ⟨d, walked, live⟩
  · rw [none] at found
    cases found
  · rw [walked] at found
    simp only [walk_cons] at found
    rcases shaped.child_spec live name with ⟨none, _⟩ | ⟨k, n, child, member, there, same⟩
    · rw [none] at found
      cases found
    · rw [child] at found
      cases found
      exact ⟨d, n, walked, member, there, same⟩

theorem Shaped.walk_inj {names names' : List String}
    (found : t.walk 0 names = some (some i)) (found' : t.walk 0 names' = some (some i)) :
    names = names' := by
  induction names using List.reverseRecOn generalizing i names' with
  | nil =>
      cases found
      rcases eq_nil_or_concat' names' with rfl | ⟨names', name, rfl⟩
      · rfl
      · rcases shaped.walk_concat found' with ⟨d, _, _, member, _, _⟩
        exact absurd rfl (shaped.rooted.kid d 0 member).2.2.1
  | append_singleton names name ih =>
      rcases shaped.walk_concat found with ⟨d, n, walked, member, there, rfl⟩
      rcases eq_nil_or_concat' names' with rfl | ⟨names', name', rfl⟩
      · cases found'
        exact absurd rfl (shaped.rooted.kid d 0 member).2.2.1
      · rcases shaped.walk_concat found' with ⟨d', n', walked', member', there', rfl⟩
        have same : d = d' :=
          (shaped.rooted.kid d i member).2.2.2.symm.trans (shaped.rooted.kid d' i member').2.2.2
        subst same
        rw [there, Option.some.injEq] at there'
        rw [ih walked walked', there']

theorem Shaped.prefix_of_below {d : Nat}
    (found : t.walk 0 names = some (some d)) (below : t.forest.Below 0 d i) :
    ∃ before, before <+: names ∧ t.walk 0 before = some (some i) := by
  induction names using List.reverseRecOn generalizing d with
  | nil =>
      cases found
      rcases Relation.ReflTransGen.cases_head below with rfl | ⟨_, ⟨_, notRoot, _⟩, _⟩
      · exact ⟨[], nil_prefix, rfl⟩
      · exact absurd rfl notRoot
  | append_singleton names name ih =>
      rcases shaped.walk_concat found with ⟨e, n, walked, member, there, _⟩
      rcases Relation.ReflTransGen.cases_head below with rfl | ⟨e', ⟨_, _, parent⟩, above⟩
      · exact ⟨_, prefix_rfl, found⟩
      · have same : e' = e := parent.symm.trans (shaped.rooted.kid e d member).2.2.2
        subst same
        rcases ih walked above with ⟨before, inside, reached⟩
        exact ⟨before, inside.trans (prefix_append ..), reached⟩

/-- Where a new name can go: a directory that its path leads to, with no such name in it. -/
theorem Shaped.place_spec (p : Path) : (∃ e, t.place p = some (.error e)) ∨
    ∃ dir dn name, t.place p = some (.ok (dir, name)) ∧ t.node dir = some dn ∧ dn.isDir = true ∧
      p.fileName = some name ∧ t.walk 0 (Path.names p.dropLast) = some (some dir) ∧
      ∀ k ∈ t.forest.kids dir, ∀ n, t.node k = some n → n.name ≠ name := by
  rcases parent : p.parent with _ | q
  · left
    exact ⟨enonexist, by simp [place, findParent, parent]⟩
  have up : t.findParent p = t.find q := by rw [findParent, parent]
  rcases shaped.find_live q with none | ⟨dir, dn, found, there⟩
  · left
    exact ⟨enonexist, by simp [place, up, none]⟩
  rcases isDir : dn.isDir with _ | _
  · left
    exact ⟨enotdir, by simp [place, up, found, there, isDir]⟩
  rcases named : p.fileName with _ | name
  · left
    exact ⟨enonexist, by simp [place, up, found, there, isDir, named]⟩
  rcases shaped.child_spec (live_of_node there) name with ⟨none, others⟩ | ⟨k, n, child, _⟩
  · right
    refine ⟨dir, dn, name, ?_, there, isDir, rfl, ?_, others⟩
    · simp [place, up, found, there, isDir, named, none]
    · have same := (Path.eq_of_fileName named).2
      rw [parent, Option.some.injEq] at same
      rw [← same]
      exact found
  · left
    exact ⟨eexist, by simp [place, up, found, there, isDir, named, child]⟩

theorem Shaped.distinct_old (old : ∀ d k n, k ∈ t'.forest.kids d → t'.node k = some n →
      k ∈ t.forest.kids d ∧ ∃ m, t.node k = some m ∧ m.name = n.name) :
    ∀ d k k' n n', k ∈ t'.forest.kids d → k' ∈ t'.forest.kids d → t'.node k = some n →
      t'.node k' = some n' → n.name = n'.name → k = k' := by
  intro d k k' n n' member member' live live' same
  rcases old d k n member live with ⟨was, m, there, kept⟩
  rcases old d k' n' member' live' with ⟨was', m', there', kept'⟩
  exact shaped.distinct d k k' m m' was was' there there' (kept.trans (same.trans kept'.symm))

theorem Shaped.distinct_new (i : Nat) (old : ∀ d k n, k ∈ t'.forest.kids d → t'.node k = some n →
      (d = dir ∧ k = i ∧ n.name = name) ∨ (k ∈ t.forest.kids d ∧
        ∃ m, t.node k = some m ∧ m.name = n.name ∧ (d = dir → n.name ≠ name))) :
    ∀ d k k' n n', k ∈ t'.forest.kids d → k' ∈ t'.forest.kids d → t'.node k = some n →
      t'.node k' = some n' → n.name = n'.name → k = k' := by
  intro d k k' n n' member member' live live' same
  rcases old d k n member live with ⟨here, rfl, made⟩ | ⟨was, m, there, kept, differs⟩
  · rcases old d k' n' member' live' with ⟨_, rfl, _⟩ | ⟨_, _, _, _, differs⟩
    · rfl
    · exact absurd (same.symm.trans made) (differs here)
  · rcases old d k' n' member' live' with ⟨here, rfl, made⟩ | ⟨was', m', there', kept', _⟩
    · exact absurd (same.trans made) (differs here)
    · exact shaped.distinct d k k' m m' was was' there there' (kept.trans (same.trans kept'.symm))

end Shaped

section Add

variable {perm mtime : UInt32} {data : Data}

def fresh (t : Tree) (dir : Nat) (name : String) (perm mtime : UInt32) (data : Data) : Node :=
  ⟨name, dir, perm, mtime, mtime, t.next, data⟩

variable (name perm mtime data) in
theorem add_eq (there : t.node dir = some dn) : ∃ t', t.add dir name perm mtime data = some t' ∧
    t'.nodes.length = t.nodes.length + 1 ∧ t'.next = t.next + 1 ∧
    ∀ j, t'.node j = if j = dir then some (dn.mapKids (· ++ [t.nodes.length]))
      else if j = t.nodes.length then some (t.fresh dir name perm mtime data) else t.node j := by
  let made : Tree :=
    { t with nodes := t.nodes ++ [some (t.fresh dir name perm mtime data)], next := t.next + 1 }
  have bound := node_lt there
  have nodes : ∀ j, made.node j =
      if j = t.nodes.length then some (t.fresh dir name perm mtime data) else t.node j := by
    intro j
    rw [node, List.getElem?_append]
    split_ifs with before last last
    · omega
    · rfl
    · simp [last]
    · rw [node_eq_none (by omega), List.getElem?_eq_none]
      · rfl
      · simp only [length_singleton]
        omega
  have there' : made.node dir = some dn := by
    rw [nodes, if_neg (by omega), there]
  refine ⟨_, edit_eq there' _, ?_, rfl, ?_⟩
  · rw [length_set, length_append, length_singleton]
  · intro j
    rw [node_edit there', nodes]

variable (perm mtime data) in
theorem Shaped.add (shaped : t.Shaped) (there : t.node dir = some dn) (isDir : dn.isDir = true)
    (others : ∀ k ∈ t.forest.kids dir, ∀ n, t.node k = some n → n.name ≠ name)
    (leaf : (t.fresh dir name perm mtime data).kids = []) :
    ∃ t', t.add dir name perm mtime data = some t' ∧ t'.Shaped ∧
      t'.forest = t.forest.grow dir t.nodes.length ∧ t'.nodes.length = t.nodes.length + 1 ∧
      (∀ j, j < t.nodes.length → t.node j = none → t'.node j = none) ∧
      ∀ j n, t'.node j = some n → (j = t.nodes.length ∧ n = t.fresh dir name perm mtime data) ∨
        ∃ m, t.node j = some m ∧ m.name = n.name ∧ m.isDir = n.isDir := by
  rcases add_eq name perm mtime data there with
    ⟨t', added, length, next, nodes⟩
  have bound := node_lt there
  have absent : ¬t.forest.live t.nodes.length := by
    rw [live_iff, node_eq_none le_rfl]
    simp
  have links : t'.forest = t.forest.grow dir t.nodes.length := by
    apply Forest.ext
    · funext j
      simp only [forest, Forest.grow, nodes]
      split_ifs with here last
      · simp [here, there]
      · simp [last]
      · simp [last]
    · funext j
      simp only [forest, Forest.grow, nodes, Function.update_apply]
      split_ifs with here last last
      · omega
      · simp [here, there]
      · rfl
      · rfl
    · funext j
      simp only [forest, Forest.grow, nodes, Function.update_apply]
      split_ifs with here last
      · simp [isDir, there]
      · simp [last, node_eq_none, leaf]
      · rfl
  have names : ∀ d k n, k ∈ t'.forest.kids d → t'.node k = some n →
      (d = dir ∧ k = t.nodes.length ∧ n.name = name) ∨ (k ∈ t.forest.kids d ∧
        ∃ m, t.node k = some m ∧ m.name = n.name ∧ (d = dir → n.name ≠ name)) := by
    intro d k n member live
    rw [nodes] at live
    have old : k ∈ t.forest.kids d ∨ (d = dir ∧ k = t.nodes.length) := by
      rw [links, Forest.grow_kids, Function.update_apply] at member
      split_ifs at member with here
      · rw [mem_append, mem_singleton] at member
        rcases member with member | last
        · exact Or.inl (here ▸ member)
        · exact Or.inr ⟨here, last⟩
      · exact Or.inl member
    rcases old with member | ⟨here, rfl⟩
    · right
      refine ⟨member, ?_⟩
      split_ifs at live with home last
      · cases live
        subst home
        refine ⟨dn, there, by simp, ?_⟩
        rintro rfl
        simpa using others _ member dn there
      · exact absurd (last ▸ (shaped.rooted.kid d k member).2.1) absent
      · refine ⟨n, live, rfl, ?_⟩
        rintro rfl
        exact others k member n live
    · left
      rw [if_neg (by omega), if_pos rfl, Option.some.injEq] at live
      exact ⟨here, rfl, live ▸ rfl⟩
  refine ⟨t', added, ⟨?_, ?_, ?_, ?_⟩, links, length, ?_, ?_⟩
  · rw [links]
    exact shaped.rooted.grow (live_of_node there) absent
  · exact shaped.distinct_new _ names
  · intro j n live
    rw [nodes] at live
    split_ifs at live with here last
    · cases live
      rw [mapKids_path, here]
      exact shaped.paths dir dn there
    · cases live
      rw [last]
      exact shaped.next
    · exact shaped.paths j n live
  · rw [next, length, shaped.next]
  · intro j before dead
    rw [nodes, if_neg, if_neg (by omega)]
    · exact dead
    · rintro rfl
      rw [there] at dead
      cases dead
  · intro j n live
    rw [nodes] at live
    split_ifs at live with here last
    · cases live
      right
      exact ⟨dn, here ▸ there, (mapKids_name ..).symm, (mapKids_isDir ..).symm⟩
    · cases live
      exact Or.inl ⟨last, rfl⟩
    · exact Or.inr ⟨n, live, rfl, rfl⟩

end Add

end Tree

end Ipnx.Host
