import Ipnx.Host.Contents
import Ipnx.Host.Looks
import Ipnx.Mnt.Served

/-!
# The page's tree behind the server

`hosts/web/src/tree.rs` as what keeps the files of `store.rs`. The built root and the clock are
the page's; a call that stops the machine leaves nothing to call.
-/

namespace Ipnx.Host

open Ipnx.Host.Tree (usize vecMax)

/-- A keeper that, where it is sound, keeps the bytes of files: fewer than `most`, and each
file's apart from the others'. -/
structure Backend.Filed {B : Type} (k : Backend B) (most : Nat) (sound : B → Prop)
    (bytes : B → Path → Option Bytes) : Prop where
  normal : ∀ b p data, bytes b p = some data → p.Normal
  short : ∀ b p data, bytes b p = some data → data.length < most
  stat : ∀ b p data, sound b → bytes b p = some data →
    ∃ md b', k.stat b p = (some md, b') ∧ md.dir = false ∧ sound b' ∧ bytes b' = bytes b
  read : ∀ b p data (off : UInt64) n, sound b → bytes b p = some data → off.toNat < most →
    n ≤ 8192 →
      ∃ b', k.read b p off n = (.ok (extent data off.toNat n), b') ∧ sound b' ∧ bytes b' = bytes b
  write : ∀ b p data (off : UInt64) new, sound b → bytes b p = some data → new ≠ [] →
    off.toNat + new.length < most → ∃ b', k.write b p off new = (.ok (), b') ∧ sound b' ∧
      bytes b' = Function.update (bytes b) p (some (Rdwr.splice data off.toNat new))

/-- A node's `meta`: a file not fetched yet is as long as its line says. -/
def Node.stat (n : Node) : Meta where
  dir := n.isDir
  excl := false
  perm := n.perm
  len := match n.data with
    | .dir _ => 0
    | .remote len _ => len
    | .here b => .ofNat b.length
  atime := n.atime
  mtime := n.mtime
  path := .ofNat n.path

def Tree.stat (t : Tree) (p : Path) : Option (Option Meta) := do
  match ← t.find p with
  | none => pure none
  | some i => pure (some (← t.node i).stat)

def Tree.list (t : Tree) (p : Path) : Option (List String) := do
  match ← t.find p with
  | none => pure []
  | some i => (← t.node i).kids.mapM fun k => (t.node k).map Node.name

/-- What the page gives of the built root, by name, and its clock at each call. -/
structure Site where
  fetch : String → Option Bytes
  now : Nat → UInt32

namespace Site

/-- The tree and the number of calls so far, or nothing once the machine has stopped. -/
abbrev Keeper := Option (Tree × Nat)

variable (site : Site)

/-- A call of the tree's; the answer of a machine that stopped is nobody's. -/
def call {α : Type} (stopped : α) (f : Tree → UInt32 → Option (α × Tree)) : Keeper → α × Keeper
  | none => (stopped, none)
  | some (t, n) =>
      match f t (site.now n) with
      | none => (stopped, none)
      | some (a, t) => (a, some (t, n + 1))

def gives : Data → Option Bytes
  | .remote _ at_ => site.fetch at_
  | _ => none

/-- What the page gives for the file at a path. -/
def fetched (t : Tree) (p : Path) : Option Bytes :=
  ((t.find p).join.bind t.node).bind fun n => site.gives n.data

def page : Backend Keeper where
  stat b p := site.call none (fun t _ => (t.stat p).map (·, t)) b
  list b p := site.call [] (fun t _ => (t.list p).map (·, t)) b
  read b p off n := site.call (.error "") (fun t _ => t.read p off n (site.fetched t p)) b
  write b p off data :=
    site.call (.error "") (fun t now => t.write p off data (site.fetched t p) now) b
  truncate b p len := site.call (.error "") (fun t now => t.truncate p len (site.fetched t p) now) b
  mkdir b p perm := site.call (.error "") (fun t now => t.mkdir p perm now) b
  mkfile b p perm := site.call (.error "") (fun t now => t.mkfile p perm now) b
  chmod b p perm := site.call (.error "") (fun t _ => t.chmod p perm) b
  touch b p mtime := site.call (.error "") (fun t _ => t.touch p mtime) b
  rename b p q := site.call (.error "") (fun t _ => t.rename p q) b
  remove b p := site.call (.error "") (fun t _ => t.remove p) b

/-- A file's bytes, here or the page's to give, if a vector holds them. -/
def held (d : Data) : Option Bytes :=
  (d.held.or (site.gives d)).filter fun b => decide (b.length < vecMax)

/-- The bytes of the file at a path that is its own. -/
def bytes (b : Keeper) (p : Path) : Option Bytes :=
  if real p = some p then
    b.bind fun (t, _) => ((t.find p).join.bind t.node).bind fun n => site.held n.data
  else none

variable {site : Site} {t t' : Tree} {p : Path} {c c' i : Nat} {n : Node} {b data : Bytes}

theorem map_names (normal : p.Normal) : p.names.map Component.normal = p := by
  rw [Path.names, List.map_map]
  refine (List.map_congr_left ?_).trans (List.map_id p)
  intro part member
  rcases normal part member with ⟨n, rfl⟩
  rfl

theorem held_some (held : site.held n.data = some data) :
    n.isDir = false ∧ data.length < vecMax ∧ n.data.held.or (site.gives n.data) = some data := by
  rcases Option.filter_eq_some_iff.1 held with ⟨known, few⟩
  refine ⟨?_, of_decide_eq_true few, known⟩
  rcases holds : n.data with kids | ⟨len, at_⟩ | b
  · rw [holds] at known
    cases known
  · rw [Node.isDir, holds]
  · rw [Node.isDir, holds]

theorem bytes_some (here : site.bytes (some (t, c)) p = some data) : real p = some p ∧ ∃ i n,
    t.find p = some (some i) ∧ t.node i = some n ∧ site.held n.data = some data ∧
      site.fetched t p = site.gives n.data := by
  rw [bytes] at here
  split_ifs at here with own
  change ((t.find p).join.bind t.node).bind _ = some data at here
  rcases Option.bind_eq_some_iff.1 here with ⟨n, there, held⟩
  rcases Option.bind_eq_some_iff.1 there with ⟨i, found, there'⟩
  refine ⟨own, i, n, Option.join_eq_some_iff.1 found, there', held, ?_⟩
  rw [fetched, there]
  rfl

/-- A file left with other bytes is the only one that is. -/
theorem bytes_leaves (shaped : t.Shaped) (own : real p = some p) (found : t.find p = some (some i))
    (there : t.node i = some n) (file : n.isDir = false) (left : Tree.Leaves t i n b t')
    (few : b.length < vecMax) :
    site.bytes (some (t', c')) = Function.update (site.bytes (some (t, c))) p (some b) := by
  funext q
  have same : t'.find q = t.find q := left.find there file
  rcases left with ⟨⟨n', there', data, -⟩, others⟩
  by_cases this : q = p
  · subst this
    rw [Function.update_self]
    simp [bytes, own, same, found, there', data, held, Data.held, few]
  · rw [Function.update_of_ne this, bytes, bytes]
    split_ifs with own'
    · simp only [Option.bind_some, same]
      rcases found' : t.find q with _ | _ | j
      · rfl
      · rfl
      · have other : j ≠ i := by
          rintro rfl
          apply this
          rw [← map_names (real_normal own'), shaped.walk_inj found' found,
            map_names (real_normal own)]
        rw [Option.join_some, Option.bind_some, others j other]
        rfl
    · rfl

theorem shaped_of_ends {α : Type} {a : α} (ends : Tree.Ends t (some (.ok a, t'))) : t'.Shaped := by
  rcases ends with ⟨e, same⟩ | ⟨a', t'', same, shaped, -⟩
  · cases same
  · cases same
    exact shaped

theorem page_filed (site : Site) :
    site.page.Filed vecMax (fun b => ∃ t c, b = some (t, c) ∧ t.Shaped) site.bytes where
  normal b p data here := by
    rcases b with _ | ⟨t, c⟩
    · rw [bytes] at here
      split_ifs at here
      cases here
    · exact real_normal (bytes_some here).1
  short b p data here := by
    rcases b with _ | ⟨t, c⟩
    · rw [bytes] at here
      split_ifs at here
      cases here
    · rcases bytes_some here with ⟨-, i, n, -, -, held, -⟩
      exact (held_some held).2.1
  stat := by
    rintro _ p data ⟨t, c, rfl, shaped⟩ here
    rcases bytes_some here with ⟨own, i, n, found, there, held, -⟩
    refine ⟨n.stat, some (t, c + 1), ?_, (held_some held).1, ⟨t, c + 1, rfl, shaped⟩, rfl⟩
    simp [page, call, Tree.stat, found, there]
  read := by
    rintro _ p data off k ⟨t, c, rfl, shaped⟩ here within few
    rcases bytes_some here with ⟨own, i, n, found, there, held, fetched⟩
    rcases held_some held with ⟨file, short, known⟩
    rw [← fetched] at known
    rcases Tree.bytes_file there file (site.fetched t p) with ⟨none, -⟩ | ⟨b, t', known', got, left⟩
    · cases known.symm.trans none
    cases known.symm.trans known'
    have narrow : usize off = off.toNat := Tree.usize_of_lt (by rw [vecMax] at within; omega)
    have indexed : ¬2 ^ 32 ≤ min (usize off) data.length + k := by
      rw [vecMax] at short
      omega
    have called : t.read p off k (site.fetched t p) = some (.ok (extent data off.toNat k), t') := by
      rw [← extent_min, ← narrow]
      simp only [Tree.read, found, got, Option.bind_eq_bind, Option.bind_some, if_neg indexed]
      rfl
    have ends := Tree.read_ends shaped p off k (site.fetched t p)
    rw [called] at ends
    refine ⟨some (t', c + 1), by simp [page, call, called], ⟨t', c + 1, rfl, ?_⟩, ?_⟩
    · rcases ends with ends | ⟨none, -⟩
      · exact shaped_of_ends ends
      · cases none
    · rw [bytes_leaves shaped own found there file left short, ← here, Function.update_eq_self]
  write := by
    rintro _ p data off new ⟨t, c, rfl, shaped⟩ here some_ within
    rcases bytes_some here with ⟨own, i, n, found, there, held, fetched⟩
    rcases held_some held with ⟨file, short, known⟩
    rw [← fetched] at known
    rcases Tree.bytes_file there file (site.fetched t p) with ⟨none, -⟩ | ⟨b, t', known', got, left⟩
    · cases known.symm.trans none
    cases known.symm.trans known'
    rcases Tree.change_file found (site.now c) (Tree.overwrite off new) got left with
      ⟨none, -⟩ | ⟨b, t'', written, called, left'⟩
    · cases (Tree.overwrite_laid data within).symm.trans none
    cases (Tree.overwrite_laid data within).symm.trans written
    have same : laid 0 data off.toNat new = Rdwr.splice data off.toNat new :=
      (Rdwr.splice_of_ne some_ ..).symm
    rw [same] at left'
    have ends := Tree.change_ends shaped p (site.fetched t p) (site.now c) (Tree.overwrite off new)
    rw [called] at ends
    refine ⟨some (t'', c + 1), ?_, ⟨t'', c + 1, rfl, ?_⟩,
      bytes_leaves shaped own found there file left' (Rdwr.splice_length_le short within)⟩
    · simp [page, call, Tree.write, called]
    · rcases ends with ends | ⟨none, -⟩
      · exact shaped_of_ends ends
      · cases none

end Site

end Ipnx.Host
