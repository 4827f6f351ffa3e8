import Ipnx.Host.Shape

/-!
# The page's tree over any run

A file made is a leaf grown, one removed a leaf cut, and one renamed a branch moved; the rest
change what a node holds and not its links. A branch moved to below itself comes off the tree:
the checks of a rename are those of a new name, and do not look where the file itself is.
-/

namespace Ipnx.Host

open List

namespace Tree

variable {t t' : Tree} {i dir : Nat} {n dn : Node} {p : Path} {name : String}

theorem Shaped.edit (shaped : t.Shaped) (there : t.node i = some n) {m : Node}
    (name : m.name = n.name) (parent : m.parent = n.parent) (kids : m.kids = n.kids)
    (path : m.path = n.path) : (t.set i (some m)).Shaped := by
  have bound := node_lt there
  have links : (t.set i (some m)).forest = t.forest := by
    apply Forest.ext
    · funext j
      simp only [forest, node_set bound]
      split_ifs with here
      · simp [here, there]
      · rfl
    · funext j
      simp only [forest, node_set bound]
      split_ifs with here
      · simp [here, there, parent]
      · rfl
    · funext j
      simp only [forest, node_set bound]
      split_ifs with here
      · simp [here, there, kids]
      · rfl
  refine ⟨?_, ?_, ?_, ?_⟩
  · rw [links]
    exact shaped.rooted
  · apply shaped.distinct_old
    intro d k m' member live
    rw [links] at member
    rw [node_set bound] at live
    split_ifs at live with here
    · cases live
      exact ⟨member, n, here ▸ there, name.symm⟩
    · exact ⟨member, m', live, rfl⟩
  · intro j m' live
    rw [node_set bound] at live
    split_ifs at live with here
    · cases live
      rw [path, here]
      exact shaped.paths i n there
    · exact shaped.paths j m' live
  · rw [next_set, length_set]
    exact shaped.next

/-- What a rename makes of each node: off the one list, on the other, and the node itself with
its new name and parent. -/
def relinked (i src dir : Nat) (name : String) (j : Nat) (n : Node) : Node :=
  let left := if j = src then n.mapKids fun kids => kids.filter (· ≠ i) else n
  let joined := if j = dir then left.mapKids (· ++ [i]) else left
  if j = i then { joined with name := name, parent := dir } else joined

variable (name) in
theorem moved_eq {sn : Node} (there : t.node i = some n) (src : t.node n.parent = some sn)
    (dst : t.node dir = some dn) : ∃ t', t.moved i dir name = some t' ∧
      t'.nodes.length = t.nodes.length ∧ t'.next = t.next ∧
      ∀ j, t'.node j = (t.node j).map (relinked i n.parent dir name j) := by
  let off := t.set n.parent (some (sn.mapKids fun kids => kids.filter (· ≠ i)))
  have nodes : ∀ j, off.node j = (t.node j).map fun m =>
      if j = n.parent then m.mapKids fun kids => kids.filter (· ≠ i) else m := by
    intro j
    rw [node_edit src]
    split_ifs with here
    · rw [here, src]
      rfl
    · simp
  rcases onto : off.node dir with _ | dm
  · rw [nodes, dst] at onto
    cases onto
  let on := off.set dir (some (dm.mapKids (· ++ [i])))
  have nodes' : ∀ j, on.node j = (off.node j).map fun m =>
      if j = dir then m.mapKids (· ++ [i]) else m := by
    intro j
    rw [node_edit onto]
    split_ifs with here
    · rw [here, onto]
      rfl
    · simp
  rcases self : on.node i with _ | im
  · rw [nodes', nodes, there] at self
    cases self
  refine ⟨on.set i (some { im with name := name, parent := dir }), ?_, ?_, rfl, ?_⟩
  · simp only [moved, there, Option.bind_eq_bind, Option.bind_some, edit_eq src]
    rw [edit_eq onto, Option.bind_some, edit_eq self]
  · simp [on, off]
  · intro j
    rw [node_edit self (f := fun m => { m with name := name, parent := dir })]
    split_ifs with here
    · subst here
      have same := self
      rw [nodes', nodes, there] at same
      simp only [Option.map_some, Option.some.injEq] at same
      rw [there, Option.map_some, relinked, if_pos rfl, same]
    · rw [nodes', nodes, Option.map_map]
      congr 1
      funext m
      simp only [relinked, Function.comp_apply, if_neg here]

variable {src j : Nat} {m : Node}

theorem relinked_kids (dst : j = dir → m.isDir = true) : (relinked i src dir name j m).kids =
    if j = dir then (if j = src then m.kids.filter (· ≠ i) else m.kids) ++ [i]
    else if j = src then m.kids.filter (· ≠ i) else m.kids := by
  have left : (if j = src then m.mapKids fun kids => kids.filter (· ≠ i) else m).kids =
      if j = src then m.kids.filter (· ≠ i) else m.kids := by
    split_ifs
    · exact kids_mapKids_nil _ m rfl
    · rfl
  have isDir : (if j = src then m.mapKids fun kids => kids.filter (· ≠ i) else m).isDir =
      m.isDir := by
    split_ifs
    · exact mapKids_isDir _ m
    · rfl
  have whole : (relinked i src dir name j m).kids =
      (if j = dir then (if j = src then m.mapKids fun kids => kids.filter (· ≠ i)
        else m).mapKids (· ++ [i])
      else if j = src then m.mapKids fun kids => kids.filter (· ≠ i) else m).kids := by
    rw [relinked]
    by_cases self : j = i
    · rw [if_pos self]
      rfl
    · rw [if_neg self]
  rw [whole]
  by_cases here : j = dir
  · rw [if_pos here, if_pos here, kids_mapKids _ _ (isDir.trans (dst here)), left]
  · rw [if_neg here, if_neg here, left]

theorem relinked_name (differs : j ≠ i) : (relinked i src dir name j m).name = m.name := by
  rw [relinked, if_neg differs]
  split_ifs <;> simp

theorem relinked_parent (differs : j ≠ i) : (relinked i src dir name j m).parent = m.parent := by
  rw [relinked, if_neg differs]
  split_ifs <;> simp

theorem relinked_path : (relinked i src dir name j m).path = m.path := by
  rw [relinked]
  split_ifs <;> simp

theorem Shaped.move (shaped : t.Shaped) (there : t.node i = some n) (other : i ≠ 0)
    (dst : t.node dir = some dn) (isDir : dn.isDir = true) (off : ¬t.forest.Below 0 dir i)
    (others : ∀ k ∈ t.forest.kids dir, ∀ n, t.node k = some n → n.name ≠ name) :
    ∃ t', t.moved i dir name = some t' ∧ t'.Shaped ∧ t'.forest = t.forest.move i dir ∧
      t'.nodes.length = t.nodes.length ∧ ∀ j, t.node j = none → t'.node j = none := by
  have parent := shaped.rooted.parent_live (live_of_node there) other
  rw [parent_of_node there] at parent
  rcases live_iff.1 parent with ⟨sn, src⟩
  rcases moved_eq name there src dst with ⟨t', moved, length, next, nodes⟩
  have links : t'.forest = t.forest.move i dir := by
    apply Forest.ext
    · funext j
      simp [forest, Forest.move, nodes]
    · funext j
      simp only [forest, Forest.move, nodes, Function.update_apply]
      split_ifs with here
      · subst here
        simp [there, relinked]
      · rcases t.node j with _ | m
        · rfl
        · simp [relinked_parent here]
    · funext j
      rcases live : t.node j with _ | m
      · have away : j ≠ dir := by
          rintro rfl
          rw [dst] at live
          cases live
        simp [forest, Forest.move, Forest.without, nodes, live, away]
      · have isDir' : j = dir → m.isDir = true := by
          rintro rfl
          rw [dst, Option.some.injEq] at live
          exact live ▸ isDir
        simp only [forest, Forest.move, Forest.without, nodes, live, there, Option.map_some,
          Option.getD_some, relinked_kids isDir']
  have names : ∀ d k m, k ∈ t'.forest.kids d → t'.node k = some m →
      (d = dir ∧ k = i ∧ m.name = name) ∨ (k ∈ t.forest.kids d ∧
        ∃ m', t.node k = some m' ∧ m'.name = m.name ∧ (d = dir → m.name ≠ name)) := by
    intro d k m member live
    rw [nodes] at live
    rcases Option.map_eq_some_iff.1 live with ⟨m', was, rfl⟩
    have old : (k ∈ t.forest.kids d ∧ k ≠ i) ∨ (k = i ∧ d = dir) := by
      rw [links, Forest.move] at member
      dsimp only at member
      split_ifs at member with here
      · rw [mem_append, mem_singleton, shaped.rooted.mem_without] at member
        rcases member with old | self
        · exact Or.inl old
        · exact Or.inr ⟨self, here⟩
      · exact Or.inl (shaped.rooted.mem_without.1 member)
    rcases old with ⟨member, differs⟩ | ⟨rfl, here⟩
    · right
      rw [relinked_name differs]
      refine ⟨member, m', was, rfl, ?_⟩
      rintro rfl
      exact others k member m' was
    · left
      refine ⟨here, rfl, ?_⟩
      rw [relinked, if_pos rfl]
  refine ⟨t', moved, ⟨?_, shaped.distinct_new i names, ?_, ?_⟩, links, length, ?_⟩
  · rw [links]
    exact shaped.rooted.move (live_of_node there) other (live_of_node dst) off
  · intro j m live
    rw [nodes] at live
    rcases Option.map_eq_some_iff.1 live with ⟨m', was, rfl⟩
    rw [relinked_path]
    exact shaped.paths j m' was
  · rw [next, length, shaped.next]
  · intro j dead
    rw [nodes, dead]
    rfl

theorem Shaped.cut (shaped : t.Shaped) (there : t.node i = some n) (other : i ≠ 0)
    (leaf : n.kids = []) : ∃ t', t.removed i = some t' ∧ t'.Shaped ∧
      t'.forest = t.forest.cut i 0 ∧ t'.nodes.length = t.nodes.length ∧
      ∀ j, t.node j = none → t'.node j = none := by
  have parent := shaped.rooted.parent_live (live_of_node there) other
  rw [parent_of_node there] at parent
  rcases live_iff.1 parent with ⟨sn, src⟩
  let off := t.set n.parent (some (sn.mapKids fun kids => kids.filter (· ≠ i)))
  have bound : i < off.nodes.length := by
    rw [length_set]
    exact node_lt there
  have nodes : ∀ j, (off.set i none).node j = if j = i then none else
      (t.node j).map fun m =>
        if j = n.parent then m.mapKids fun kids => kids.filter (· ≠ i) else m := by
    intro j
    rw [node_set bound, node_edit src]
    split_ifs with self here
    · rfl
    · rw [here, src]
      rfl
    · simp
  have removed : t.removed i = some (off.set i none) := by
    rw [Tree.removed, there, Option.bind_eq_bind, Option.bind_some, edit_eq src]
    rfl
  have links : (off.set i none).forest = t.forest.cut i 0 := by
    apply Forest.ext
    · funext j
      simp only [forest, Forest.cut, nodes]
      by_cases self : j = i
      · simp [self]
      · rw [if_neg self, Option.isSome_map]
        simp [self]
    · funext j
      simp only [forest, Forest.cut, nodes, Function.update_apply]
      split_ifs with self here
      · rfl
      · rcases t.node j with _ | m <;> simp
      · rcases t.node j with _ | m <;> simp
    · funext j
      simp only [forest, Forest.cut, Forest.without, nodes, there, Option.map_some,
          Option.getD_some]
      split_ifs with self here
      · rfl
      · rcases t.node j with _ | m
        · rfl
        · exact kids_mapKids_nil _ m rfl
      · rcases t.node j with _ | m <;> simp
  have kept : ∀ j m, (off.set i none).node j = some m →
      ∃ m', t.node j = some m' ∧ m'.name = m.name ∧ m'.path = m.path := by
    intro j m live
    rw [nodes] at live
    split_ifs at live with self here
    · rcases Option.map_eq_some_iff.1 live with ⟨m', was, rfl⟩
      exact ⟨m', was, (mapKids_name ..).symm, (mapKids_path ..).symm⟩
    · rcases Option.map_eq_some_iff.1 live with ⟨m', was, rfl⟩
      exact ⟨m', was, rfl, rfl⟩
  refine ⟨_, removed, ⟨?_, ?_, ?_, ?_⟩, links, by simp [off], ?_⟩
  · rw [links]
    exact shaped.rooted.cut (by rw [kids_of_node there, leaf]) other
  · apply shaped.distinct_old
    intro d k m member live
    rcases kept k m live with ⟨m', was, same, _⟩
    refine ⟨?_, m', was, same⟩
    rw [links, Forest.cut] at member
    dsimp only at member
    split_ifs at member with self
    · cases member
    · exact (shaped.rooted.mem_without.1 member).1
  · intro j m live
    rcases kept j m live with ⟨m', was, _, same⟩
    rw [← same]
    exact shaped.paths j m' was
  · simp [off, shaped.next]
  · intro j dead
    rw [nodes, dead]
    simp

/-- How a call ends that nothing stops: an error and nothing changed, or a shaped tree in which
an empty slot stays empty. -/
def Ends (t : Tree) {α : Type} (r : Option (Call α)) : Prop :=
  (∃ e, r = some (.error e, t)) ∨
  ∃ a t', r = some (.ok a, t') ∧ t'.Shaped ∧ t.nodes.length ≤ t'.nodes.length ∧
    ∀ j, j < t.nodes.length → t.node j = none → t'.node j = none

/-- The file is not moved to itself or to below itself. -/
def Apart (src dst : Path) : Prop := ¬src.names <+: Path.names dst.dropLast

namespace Op

/-- A rename that would be made moves its file to a place that is not on the file's own branch. -/
def Apart (t : Tree) : Op → Prop
  | .rename src dst => ∀ i spot, t.find src = some (some i) → t.place dst = some (.ok spot) →
      Tree.Apart src dst
  | _ => True

/-- What a call needs of the page's machine: the range can be indexed, and a vector holds what
is written or the length asked for. -/
def Indexed : Op → Prop
  | .read _ off n _ => usize off + n < 2 ^ 32
  | .write _ off data _ _ => usize off + data.length < vecMax
  | .truncate _ len _ _ => usize len < vecMax
  | _ => True

end Op

theorem resize_some (b : Bytes) {n : Nat} (holds : n < vecMax) :
    resize b n = some (b.take n ++ List.replicate (n - b.length) 0) := by
  rw [resize, if_neg (by omega)]

theorem overwrite_some (b : Bytes) {off : UInt64} {data : Bytes}
    (holds : usize off + data.length < vecMax) : ∃ b', overwrite off data b = some b' := by
  have indexed : ¬2 ^ 32 ≤ usize off + data.length := by
    rw [vecMax] at holds
    omega
  rw [overwrite, if_neg indexed]
  by_cases longer : b.length < usize off + data.length
  · rw [if_pos longer, resize_some b holds]
    exact ⟨_, rfl⟩
  · rw [if_neg longer]
    exact ⟨_, rfl⟩

variable {α : Type}

theorem node_root (i : Nat) : root.node i = if i = 0 then some ⟨"", 0, 0o775, 0, 0, 0, .dir []⟩
    else none := by
  rcases i with _ | i <;> rfl

theorem shaped_root : root.Shaped where
  rooted := by
    have links : root.forest = ⟨(· = 0), fun _ => 0, fun _ => []⟩ := by
      apply Forest.ext
      · funext j
        simp [forest, node_root]
      · funext j
        simp only [forest, node_root]
        split_ifs <;> rfl
      · funext j
        simp only [forest, node_root]
        split_ifs <;> rfl
    rw [links]
    exact Forest.rooted_single 0
  distinct := by
    intro d k k' n n' member
    simp only [forest, node_root] at member
    split_ifs at member <;> cases member
  paths := by
    intro i n there
    rw [node_root] at there
    split_ifs at there with base
    cases there
    exact base.symm
  next := rfl

section Shaped

variable (shaped : t.Shaped)

include shaped

theorem ends_set (there : t.node i = some n) {m : Node}
    (name : m.name = n.name) (parent : m.parent = n.parent) (kids : m.kids = n.kids)
    (path : m.path = n.path) (a : α) : Ends t (some (.ok a, t.set i (some m))) := by
  right
  refine ⟨a, _, rfl, shaped.edit there name parent kids path, (length_set _).ge, ?_⟩
  intro j _ dead
  rw [node_set (node_lt there), if_neg]
  · exact dead
  · rintro rfl
    rw [there] at dead
    cases dead

theorem make_ends (p : Path) (perm now : UInt32) (data : Data)
    (leaf : ∀ dir name, (t.fresh dir name perm now data).kids = []) :
    Ends t (t.make p perm now data) := by
  rcases shaped.place_spec p with ⟨e, placed⟩ | ⟨dir, dn, name, placed, there, isDir, _, _, others⟩
  · left
    exact ⟨e, by simp [make, placed]⟩
  · right
    rcases shaped.add _ _ _ there isDir others (leaf dir name) with ⟨t', added, shaped', _,
        length, dead, _⟩
    exact ⟨(), t', by simp [make, placed, added], shaped', by omega, dead⟩

theorem rename_ends {src dst : Path} (apart : Op.Apart t (.rename src dst)) :
    Ends t (t.rename src dst) := by
  rcases shaped.find_live src with none | ⟨i, n, found, there⟩
  · left
    exact ⟨enonexist, by simp [rename, none]⟩
  rcases shaped.place_spec dst with
    ⟨e, placed⟩ | ⟨dir, dn, name, placed, into, isDir, _, walked, others⟩
  · left
    exact ⟨e, by simp [rename, found, placed]⟩
  have off : ¬t.forest.Below 0 dir i := by
    intro below
    rcases shaped.prefix_of_below walked below with ⟨before, inside, reached⟩
    have same : src.names = before := shaped.walk_inj found reached
    rw [← same] at inside
    exact apart i _ found placed inside
  have other : i ≠ 0 := by
    rintro rfl
    exact off (shaped.rooted.below dir (live_of_node into))
  right
  rcases shaped.move there other into isDir off others with ⟨t', moved, shaped', _, length, dead⟩
  exact ⟨(), t', by simp [rename, found, placed, moved], shaped', length.ge, fun j _ => dead j⟩

theorem remove_ends (p : Path) : Ends t (t.remove p) := by
  rcases shaped.find_live p with none | ⟨i, n, found, there⟩
  · left
    exact ⟨enonexist, by simp [remove, none]⟩
  by_cases base : i = 0
  · left
    exact ⟨eperm, by simp [remove, found, base]⟩
  by_cases leaf : n.kids = []
  · right
    rcases shaped.cut there base leaf with ⟨t', removed, shaped', _, length, dead⟩
    exact ⟨(), t', by simp [remove, found, base, there, leaf, removed], shaped', length.ge,
      fun j _ => dead j⟩
  · left
    exact ⟨enotempty, by simp [remove, found, base, there, leaf]⟩

theorem put_ends (p : Path) (f : Node → Node)
    (same : ∀ n, (f n).name = n.name ∧ (f n).parent = n.parent ∧ (f n).kids = n.kids ∧
      (f n).path = n.path) : Ends t (t.put p f) := by
  rcases shaped.find_live p with none | ⟨i, n, found, there⟩
  · left
    exact ⟨enonexist, by simp [put, none]⟩
  · rcases same n with ⟨name, parent, kids, path⟩
    have put : t.put p f = some (.ok (), t.set i (some (f n))) := by
      simp [Tree.put, found, edit_eq there]
    rw [put]
    exact ends_set shaped there name parent kids path ()

/-- The bytes of a file: an error, or the file's bytes here and nothing else changed. -/
theorem bytes_spec (there : t.node i = some n) (fetched : Option Bytes) :
    (∃ e, t.bytes i fetched = some (.error e, t)) ∨
    ∃ b t' n', t.bytes i fetched = some (.ok b, t') ∧ t'.Shaped ∧ t'.node i = some n' ∧
      n'.kids = [] ∧ t'.nodes.length = t.nodes.length ∧
      ∀ j, t.node j = none → t'.node j = none := by
  rcases holds : n.data with kids | ⟨len, at_⟩ | b
  · left
    exact ⟨eisdir, by simp [bytes, there, holds]⟩
  · rcases fetched with _ | b
    · left
      exact ⟨_, by simp [bytes, there, holds]; rfl⟩
    · right
      have leaf : n.kids = [] := by rw [Node.kids, holds]
      refine ⟨b, t.set i (some { n with data := .here b }), { n with data := .here b }, ?_, ?_, ?_,
        rfl, length_set _, ?_⟩
      · simp [bytes, there, holds, edit_eq there]
      · exact shaped.edit there rfl rfl leaf.symm rfl
      · rw [node_set (node_lt there), if_pos rfl]
      · intro j dead
        rw [node_set (node_lt there), if_neg]
        · exact dead
        · rintro rfl
          rw [there] at dead
          cases dead
  · right
    refine ⟨b, t, n, ?_, shaped, there, ?_, rfl, fun j dead => dead⟩
    · simp [bytes, there, holds]
    · rw [Node.kids, holds]

theorem read_ends (p : Path) (off : UInt64) (k : Nat)
    (fetched : Option Bytes) : Ends t (t.read p off k fetched) ∨
      (t.read p off k fetched = none ∧ 2 ^ 32 ≤ usize off + k) := by
  rcases shaped.find_live p with none | ⟨i, n, found, there⟩
  · left
    left
    exact ⟨enonexist, by simp [read, none]⟩
  rcases bytes_spec shaped there fetched with
    ⟨e, failed⟩ | ⟨b, t', n', held, shaped', _, _, length, dead⟩
  · left
    left
    exact ⟨e, by simp [read, found, failed]⟩
  by_cases beyond : 2 ^ 32 ≤ min (usize off) b.length + k
  · right
    refine ⟨by simp [read, found, held]; omega, ?_⟩
    omega
  · left
    right
    exact ⟨(b.drop (min (usize off) b.length)).take k, t', by simp [read, found, held]; omega,
      shaped', length.ge, fun j _ => dead j⟩

theorem change_ends (p : Path) (fetched : Option Bytes) (now : UInt32)
    (f : Bytes → Option Bytes) : Ends t (t.change p fetched now f) ∨
      (t.change p fetched now f = none ∧ ∃ b, f b = none) := by
  rcases shaped.find_live p with none | ⟨i, n, found, there⟩
  · left
    left
    exact ⟨enonexist, by simp [change, none]⟩
  rcases bytes_spec shaped there fetched with
    ⟨e, failed⟩ | ⟨b, t', n', held, shaped', there', leaf, length, dead⟩
  · left
    left
    exact ⟨e, by simp [change, found, failed]⟩
  rcases after : f b with _ | b'
  · right
    exact ⟨by simp [change, found, held, after], b, after⟩
  left
  have changed : t.change p fetched now f =
      some (.ok (), t'.set i (some { n' with data := .here b', mtime := now })) := by
    simp [change, found, held, after, edit_eq there']
  rw [changed]
  rcases ends_set shaped' there' (m := { n' with data := .here b', mtime := now }) rfl rfl leaf.symm
    rfl () with ⟨_, failed⟩ | ⟨_, t'', same, shaped'', length', dead'⟩
  · cases failed
  · right
    refine ⟨(), t'', same, shaped'', by omega, ?_⟩
    intro j bound none
    exact dead' j (by omega) (dead j none)

theorem op_ends {o : Op} (apart : o.Apart t) : Ends t (t.op o) ∨ (t.op o = none ∧ ¬o.Indexed) := by
  have ends : ∀ {r : Option (Call Unit)}, Ends t r → Ends t (op.done r) := by
    rintro r (⟨e, rfl⟩ | ⟨_, t', rfl, kept⟩)
    · exact Or.inl ⟨e, rfl⟩
    · exact Or.inr ⟨[], t', rfl, kept⟩
  cases o with
  | mkdir p perm now => exact Or.inl (ends (make_ends shaped p perm now _ fun _ _ => rfl))
  | mkfile p perm now => exact Or.inl (ends (make_ends shaped p perm now _ fun _ _ => rfl))
  | rename src dst => exact Or.inl (ends (rename_ends shaped apart))
  | remove p => exact Or.inl (ends (remove_ends shaped p))
  | read p off k fetched =>
      rcases read_ends shaped p off k fetched with ok | ⟨stopped, beyond⟩
      · exact Or.inl ok
      · right
        exact ⟨stopped, Nat.not_lt.2 beyond⟩
  | write p off data fetched now =>
      rcases change_ends shaped p fetched now (overwrite off data) with ok | ⟨stopped, b, beyond⟩
      · exact Or.inl (ends ok)
      · right
        refine ⟨by rw [op, write, stopped]; rfl, ?_⟩
        intro indexed
        rcases overwrite_some b indexed with ⟨b', written⟩
        rw [beyond] at written
        cases written
  | truncate p len fetched now =>
      rcases change_ends shaped p fetched now (fun b => resize b (usize len)) with
        ok | ⟨stopped, b, beyond⟩
      · exact Or.inl (ends ok)
      · right
        refine ⟨by rw [op, truncate, stopped]; rfl, ?_⟩
        intro indexed
        rw [resize_some b indexed] at beyond
        cases beyond
  | chmod p perm => exact Or.inl (ends (put_ends shaped p _ fun _ => ⟨rfl, rfl, rfl, rfl⟩))
  | touch p mtime => exact Or.inl (ends (put_ends shaped p _ fun _ => ⟨rfl, rfl, rfl, rfl⟩))

/-- What an entry's path is written as, component by component. -/
def Entry.names (e : Entry) : List String := (Path.new e.path).names

def Distinct (es : List Entry) : Prop := (es.map Entry.names).Nodup

def Nested (t : Tree) : List Entry → Prop
  | [] => True
  | e :: es =>
      (∀ i n, t.findParent (Path.new e.path) = some (some i) → t.node i = some n →
        n.isDir = true) ∧
      ∀ t', t.enter e = some t' → Nested t' es

theorem Shaped.walk_kid {names : List String} {d k : Nat}
    (found : t.walk 0 names = some (some d)) (member : k ∈ t.forest.kids d)
    (there : t.node k = some n) : t.walk 0 (names ++ [n.name]) = some (some k) := by
  rw [walk_append, found]
  have step : t.child d n.name = some (some k) := by
    rcases shaped.child_spec (shaped.rooted.kid d k member).1 n.name with
      ⟨_, others⟩ | ⟨k', n', child, member', there', same⟩
    · exact absurd rfl (others k member n there)
    · rw [child, shaped.distinct d k' k n' n member' member there' there same]
  simp only [walk_cons, step]
  rfl

/-- Every name that leads to a file was in the index so far. -/
def Listed (t : Tree) (es : List Entry) : Prop :=
  ∀ names i, names ≠ [] → t.walk 0 names = some (some i) → names ∈ es.map Entry.names

theorem walk_grown (shaped' : t'.Shaped) {names into : List String} {j : Nat}
    (there : t.walk 0 into = some (some dir)) (live : t.node dir = some dn)
    (links : t'.forest = t.forest.grow dir t.nodes.length)
    (nodes : ∀ j n, t'.node j = some n → (j = t.nodes.length ∧ n.name = name) ∨
      ∃ m, t.node j = some m ∧ m.name = n.name) (found : t'.walk 0 names = some (some j)) :
    (j ≠ t.nodes.length → t.walk 0 names = some (some j)) ∧
      (j = t.nodes.length → names = into ++ [name]) := by
  have bound := node_lt live
  have absent : t.node t.nodes.length = none := node_eq_none le_rfl
  induction names using List.reverseRecOn generalizing j with
  | nil =>
      cases found
      exact ⟨fun _ => rfl, fun last => by omega⟩
  | append_singleton names last ih =>
      rcases shaped'.walk_concat found with ⟨d, n, walked, member, here, rfl⟩
      have parent := (shaped'.rooted.kid d j member).2.2.2
      rw [links, Forest.grow_kids, Function.update_apply] at member
      have old : d ≠ t.nodes.length := by
        rintro rfl
        rw [if_neg (by omega), shaped.rooted.kids_eq_nil (by simp [live_iff, absent])] at member
        cases member
      have up := (ih walked).1 old
      constructor
      · intro differs
        have member' : j ∈ t.forest.kids d := by
          split_ifs at member with into
          · rw [mem_append, mem_singleton] at member
            rcases member with member | last
            · exact into ▸ member
            · exact absurd last differs
          · exact member
        rcases nodes j n here with ⟨last, _⟩ | ⟨m, was, same⟩
        · exact absurd last differs
        · rw [← same]
          exact shaped.walk_kid up member' was
      · rintro rfl
        have into : (t.forest.grow dir t.nodes.length).parent t.nodes.length = dir :=
          Function.update_self ..
        rw [links, into] at parent
        subst parent
        rcases nodes _ n here with ⟨_, same⟩ | ⟨m, was, _⟩
        · rw [shaped.walk_inj up there, same]
        · rw [absent] at was
          cases was

theorem enter_spec {es : List Entry} (listed : t.Listed es) {e : Entry}
    (new : e.names ∉ es.map Entry.names)
    (nested : ∀ i n, t.findParent (Path.new e.path) = some (some i) → t.node i = some n →
      n.isDir = true) :
    ∃ t', t.enter e = some t' ∧ t'.Shaped ∧ t'.Listed (es ++ [e]) := by
  have more : t.Listed (es ++ [e]) := by
    intro names i some_ found
    rw [map_append]
    exact mem_append_left _ (listed names i some_ found)
  rcases named : (Path.new e.path).fileName with _ | name
  · exact ⟨t, by simp [enter, named], shaped, more⟩
  have parent := (Path.eq_of_fileName named).2
  have whole := Path.names_of_fileName named
  have up : t.findParent (Path.new e.path) = t.find (Path.new e.path).dropLast := by
    rw [findParent, parent]
  rcases shaped.find_live (Path.new e.path).dropLast with none | ⟨dir, dn, found, there⟩
  · exact ⟨t, by simp [enter, named, up, none], shaped, more⟩
  have isDir := nested dir dn (up.trans found) there
  have others : ∀ k ∈ t.forest.kids dir, ∀ n, t.node k = some n → n.name ≠ name := by
    rintro k member n live rfl
    apply new
    rw [Entry.names, whole]
    exact listed _ k (by simp) (shaped.walk_kid found member live)
  rcases shaped.add e.perm e.mtime
      (if e.isDir then .dir [] else .remote e.size e.path) there isDir others
      (by rcases e.isDir <;> rfl) with ⟨t', added, shaped', links, _, _, nodes⟩
  refine ⟨t', by simp [enter, named, up, found, added], shaped', ?_⟩
  intro names i some_ walked
  have named' : ∀ j n, t'.node j = some n → (j = t.nodes.length ∧ n.name = name) ∨
      ∃ m, t.node j = some m ∧ m.name = n.name := by
    intro j n live
    rcases nodes j n live with ⟨last, rfl⟩ | ⟨m, was, same, _⟩
    · exact Or.inl ⟨last, rfl⟩
    · exact Or.inr ⟨m, was, same⟩
  have ends := walk_grown shaped shaped' found there links named' walked
  rw [map_append, mem_append]
  by_cases last : i = t.nodes.length
  · right
    rw [ends.2 last, map_singleton, mem_singleton, Entry.names, whole]
  · left
    exact listed names i some_ (ends.1 last)

end Shaped

theorem foldlM_enter {es done : List Entry} (shaped : t.Shaped) (listed : t.Listed done)
    (distinct : Distinct (done ++ es)) (nested : t.Nested es) :
    ∃ t', es.foldlM enter t = some t' ∧ t'.Shaped := by
  induction es generalizing t done with
  | nil => exact ⟨t, rfl, shaped⟩
  | cons e es ih =>
      have new : e.names ∉ done.map Entry.names := by
        rw [Distinct, map_append, map_cons, nodup_append] at distinct
        intro member
        exact distinct.2.2 _ member _ (mem_cons_self ..) rfl
      rcases enter_spec shaped listed new nested.1 with ⟨t', entered, shaped', listed'⟩
      rcases ih shaped' listed' (by rwa [append_assoc]) (nested.2 t' entered) with
        ⟨t'', rest, shaped''⟩
      exact ⟨t'', by rw [foldlM_cons, entered]; exact rest, shaped''⟩

theorem new_shaped {index : String} (distinct : Distinct (entries index))
    (nested : root.Nested (entries index)) : ∃ t, new index = some t ∧ t.Shaped := by
  refine @foldlM_enter _ _ [] shaped_root ?_ distinct nested
  intro names i some_ found
  rcases eq_nil_or_concat' names with rfl | ⟨names, name, rfl⟩
  · exact absurd rfl some_
  · rcases shaped_root.walk_concat found with ⟨d, _, _, member, _⟩
    simp only [forest, node_root] at member
    split_ifs at member <;> cases member

def run (start : Tree) : System Tree Op where
  init t := t = start
  step t o t' := ∃ r, t.op o = some (r, t')

theorem run_shaped {start : Tree} (shaped : start.Shaped)
    (reached : (run start).Reach (fun t o => o.Apart t) t) :
    t.Shaped ∧ start.nodes.length ≤ t.nodes.length ∧
      ∀ j, j < start.nodes.length → start.node j = none → t.node j = none := by
  apply reached.invariant fun t => t.Shaped ∧ start.nodes.length ≤ t.nodes.length ∧
    ∀ j, j < start.nodes.length → start.node j = none → t.node j = none
  · rintro _ rfl
    exact ⟨shaped, le_rfl, fun _ _ dead => dead⟩
  · rintro t o t' ⟨shaped, length, dead⟩ apart ⟨r, called⟩
    rcases op_ends shaped apart with
      (⟨e, same⟩ | ⟨a, t'', same, shaped', length', dead'⟩) | ⟨none, _⟩
    · rw [called] at same
      cases same
      exact ⟨shaped, length, dead⟩
    · rw [called] at same
      cases same
      refine ⟨shaped', by omega, ?_⟩
      intro j bound empty
      exact dead' j (by omega) (dead j bound empty)
    · rw [called] at none
      cases none

/-- From an index of distinct paths, no file of it in a file, a tree is built; and over any
calls, but for renames of a file to below itself, the tree is shaped, a look at a slot finds a
node there, a call that fails changes nothing, and an emptied slot is not used again. -/
theorem tree_shaped {index : String} (distinct : Distinct (entries index))
    (nested : root.Nested (entries index)) : ∃ start, new index = some start ∧
    ∀ t, (run start).Reach (fun t o => o.Apart t) t →
      t.Shaped ∧
      (∀ o : Op, o.Apart t → o.Indexed → ∃ r t', t.op o = some (r, t')) ∧
      (∀ (o : Op) e t', o.Apart t → t.op o = some (.error e, t') → t' = t) ∧
      (∀ t', (run t).Reach (fun t o => o.Apart t) t' →
        ∀ j, j < t.nodes.length → t.node j = none → t'.node j = none) := by
  rcases new_shaped distinct nested with ⟨start, built, shaped⟩
  refine ⟨start, built, ?_⟩
  intro t reached
  have kept := (run_shaped shaped reached).1
  refine ⟨kept, ?_, ?_, fun t' later => (run_shaped kept later).2.2⟩
  · intro o apart indexed
    rcases op_ends kept apart with (⟨e, same⟩ | ⟨a, t', same, _⟩) | ⟨_, beyond⟩
    · exact ⟨_, _, same⟩
    · exact ⟨_, _, same⟩
    · exact absurd indexed beyond
  · intro o e t' apart called
    rcases op_ends kept apart with (⟨e', same⟩ | ⟨a, t'', same, _⟩) | ⟨none, _⟩
    · rw [called] at same
      cases same
      rfl
    · rw [called] at same
      cases same
    · rw [called] at none
      cases none

def small : String := "d\t775\t0\t0\ta\nf\t644\t3\t0\ta/b"

theorem entries_small :
    entries small = [⟨true, 0o775, 0, 0, "a"⟩, ⟨false, 0o644, 3, 0, "a/b"⟩] := by
  decide

theorem distinct_small : Distinct (entries small) := by
  rw [entries_small, Distinct]
  simp only [map_cons, map_nil]
  decide

def grown : Tree where
  nodes := [some ⟨"", 0, 0o775, 0, 0, 0, .dir [1]⟩, some ⟨"a", 0, 0o775, 0, 0, 1, .dir [2]⟩,
    some ⟨"b", 1, 0o644, 0, 0, 2, .remote 3 "a/b"⟩]
  next := 3

theorem new_small : new small = some grown := by
  rw [new, entries_small]
  decide

def drawn : Tree where
  nodes := [some ⟨"", 0, 0o775, 0, 0, 0, .dir [1, 2]⟩, some ⟨"a", 0, 0o775, 0, 0, 1, .dir []⟩,
    some ⟨"c", 0, 0o644, 0, 0, 2, .remote 3 "a/b"⟩]
  next := 3

def thinned : Tree where
  nodes := [some ⟨"", 0, 0o775, 0, 0, 0, .dir [2]⟩, none,
    some ⟨"c", 0, 0o644, 0, 0, 2, .remote 3 "a/b"⟩]
  next := 3

theorem nested_small : root.Nested (entries small) := by
  rw [entries_small]
  refine ⟨?_, fun t' entered => ⟨?_, fun _ _ => trivial⟩⟩
  · intro i n up there
    have parent : root.findParent (Path.new "a") = some (some 0) := by decide
    rw [parent] at up
    cases up
    cases there
    rfl
  · intro i n up there
    have first : root.enter ⟨true, 0o775, 0, 0, "a"⟩ =
        some ⟨[some ⟨"", 0, 0o775, 0, 0, 0, .dir [1]⟩,
          some ⟨"a", 0, 0o775, 0, 0, 1, .dir []⟩], 2⟩ := by
      decide
    rw [first] at entered
    cases entered
    have parent : findParent ⟨[some ⟨"", 0, 0o775, 0, 0, 0, .dir [1]⟩,
        some ⟨"a", 0, 0o775, 0, 0, 1, .dir []⟩], 2⟩ (Path.new "a/b") = some (some 1) := by
      decide
    rw [parent] at up
    cases up
    cases there
    rfl

/-- The file is drawn out of its directory, and the directory is removed. -/
theorem tree_shaped_thinned : ∃ start, new small = some start ∧
    (run start).Reach (fun t o => o.Apart t) thinned ∧ thinned.Shaped ∧
    thinned.node 1 = none ∧ ∀ t', (run thinned).Reach (fun t o => o.Apart t) t' →
      t'.node 1 = none := by
  rcases @tree_shaped small distinct_small nested_small with ⟨start, built, every⟩
  obtain rfl := Option.some.inj (new_small.symm.trans built)
  have rename : (run grown).Reach (fun t o => o.Apart t) drawn := by
    refine .step (a := .rename [.normal "a", .normal "b"] [.normal "c"]) (.init rfl) ?_
      ⟨.ok [], by decide⟩
    rintro i spot - -
    show ¬["a", "b"] <+: ([] : List String)
    decide
  have reached : (run grown).Reach (fun t o => o.Apart t) thinned :=
    .step (a := .remove [.normal "a"]) rename trivial ⟨.ok [], by decide⟩
  rcases every thinned reached with ⟨shaped, -, -, emptied⟩
  exact ⟨grown, built, reached, shaped, rfl, fun t' later => emptied t' later 1 (by decide) rfl⟩

def lost : Tree where
  nodes := [some ⟨"", 0, 0o775, 0, 0, 0, .dir []⟩, some ⟨"c", 1, 0o775, 0, 0, 1, .dir [2, 1]⟩,
    some ⟨"b", 1, 0o644, 0, 0, 2, .remote 3 "a/b"⟩]
  next := 3

theorem rename_lost :
    grown.op (.rename [.normal "a"] [.normal "a", .normal "c"]) = some (.ok [], lost) := by
  decide

/-- A directory renamed to below itself is off the tree: it is still there, and is no longer
below the root. -/
theorem tree_shaped_fails : ∃ index start t, Distinct (entries index) ∧ new index = some start ∧
    (run start).Reachable t ∧ ¬t.Shaped := by
  refine ⟨small, grown, lost, distinct_small, new_small, ?_, ?_⟩
  · exact .step (.init rfl) trivial ⟨_, rename_lost⟩
  · intro shaped
    have stays : ∀ j, lost.forest.Below 0 1 j → j = 1 := by
      intro j below
      induction below with
      | refl => rfl
      | tail _ step ih =>
          rcases step with ⟨_, _, parent⟩
          subst ih
          exact parent.symm
    exact absurd (stays 0 (shaped.rooted.below 1 rfl)) (by decide)

end Tree

end Ipnx.Host
