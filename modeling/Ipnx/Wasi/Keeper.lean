import Ipnx.Host.Store
import Ipnx.Lib.Extent

/-!
# A tree of files

What `hosts/ipnx/src/store.rs` serves, by the names from its root, and what its keeper does to it.
The keeper may refuse any change it is asked for, and then has not made it.
-/

namespace Ipnx.Wasi

open Function (update update_of_ne update_self)

abbrev Path := List String

structure Node where
  dir : Bool
  perm : UInt32
  atime : UInt32
  mtime : UInt32
  data : Bytes
deriving DecidableEq, Repr

/-- What there is at each path, and paths enough to name it all. Whatever there is, is in a
directory. -/
structure Files where
  look : Path → Option Node
  names : List Path
  covers : ∀ p, look p ≠ none → p ∈ names
  rooted : ∀ p, p ≠ [] → look p ≠ none → (look p.dropLast).any (·.dir) = true

def enonexist : String := "No such file or directory"
def eexist : String := "File exists"
def enotdir : String := "Not a directory"
def eisdir : String := "Is a directory"
def enotempty : String := "Directory not empty"

def erefused : String := "Permission denied"

namespace Files

variable {t t' : Files} {p q r : Path} {n m : Node}

def isDir (t : Files) (p : Path) : Bool := (t.look p).any (·.dir)

def kids (t : Files) (p : Path) : Bool :=
  t.names.any fun q => q ≠ [] && q.dropLast == p && (t.look q).isSome

theorem kids_iff : t.kids p = true ↔ ∃ q, q ≠ [] ∧ q.dropLast = p ∧ t.look q ≠ none := by
  simp only [kids, List.any_eq_true, Bool.and_eq_true, decide_eq_true_eq, beq_iff_eq]
  constructor
  · rintro ⟨q, -, ⟨below, rfl⟩, there⟩
    exact ⟨q, below, rfl, Option.isSome_iff_ne_none.1 there⟩
  · rintro ⟨q, below, rfl, there⟩
    exact ⟨q, t.covers q there, ⟨below, rfl⟩, Option.isSome_iff_ne_none.2 there⟩

theorem isDir_of_look (there : t.look p = some n) : t.isDir p = n.dir := by
  rw [isDir, there, Option.any_some]

theorem parent_isDir (below : p ≠ []) (there : t.look p = some n) : t.isDir p.dropLast = true := by
  apply t.rooted p below
  rw [there]
  exact Option.some_ne_none n

/-- A file may be put where there is a directory for it, and not in the place of a directory. -/
def Fits (t : Files) (p : Path) (n : Node) : Prop :=
  (t.isDir p = true → n.dir = true) ∧ (p ≠ [] → t.isDir p.dropLast = true)

theorem fits_of_look (there : t.look p = some n) (kind : m.dir = n.dir) : t.Fits p m := by
  refine ⟨fun dir => ?_, fun below => parent_isDir below there⟩
  rw [isDir_of_look there] at dir
  rw [kind, dir]

def put (t : Files) (p : Path) (n : Node) (fits : t.Fits p n) : Files where
  look := update t.look p (some n)
  names := p :: t.names
  covers q there := by
    rcases eq_or_ne q p with rfl | other
    · exact List.mem_cons_self ..
    · rw [update_of_ne other] at there
      exact List.mem_cons_of_mem p (t.covers q there)
  rooted q below there := by
    have dir : t.isDir q.dropLast = true := by
      rcases eq_or_ne q p with rfl | other
      · exact fits.2 below
      · rw [update_of_ne other] at there
        exact t.rooted q below there
    rcases eq_or_ne q.dropLast p with rfl | other
    · rw [update_self, Option.any_some]
      exact fits.1 dir
    · rw [update_of_ne other]
      exact dir

def erase (t : Files) (p : Path) (empty : t.kids p = false) : Files where
  look := update t.look p none
  names := t.names
  covers q there := by
    rcases eq_or_ne q p with rfl | other
    · rw [update_self] at there
      exact absurd rfl there
    · rw [update_of_ne other] at there
      exact t.covers q there
  rooted q below there := by
    rcases eq_or_ne q p with rfl | other
    · rw [update_self] at there
      exact absurd rfl there
    · rw [update_of_ne other] at there
      have apart : q.dropLast ≠ p := by
        rintro rfl
        have kid : t.kids q.dropLast = true := kids_iff.2 ⟨q, below, rfl, there⟩
        rw [empty] at kid
        cases kid
      rw [update_of_ne apart]
      exact t.rooted q below there

@[simp]
theorem look_put_self {fits : t.Fits p n} : (t.put p n fits).look p = some n :=
  update_self ..

theorem look_put_of_ne {fits : t.Fits p n} (other : q ≠ p) :
    (t.put p n fits).look q = t.look q :=
  update_of_ne other ..

@[simp]
theorem look_erase_self {empty : t.kids p = false} : (t.erase p empty).look p = none :=
  update_self ..

theorem look_erase_of_ne {empty : t.kids p = false} (other : q ≠ p) :
    (t.erase p empty).look q = t.look q :=
  update_of_ne other ..

/-- Whether there is a directory to make a file in, and no file. -/
def Makes (t : Files) (p : Path) : Prop :=
  (t.look p).isNone = true ∧ p ≠ [] ∧ t.isDir p.dropLast = true

instance : DecidablePred t.Makes := fun p =>
  inferInstanceAs (Decidable ((t.look p).isNone = true ∧ p ≠ [] ∧ t.isDir p.dropLast = true))

theorem Makes.fits (makes : t.Makes p) (n : Node) : t.Fits p n := by
  refine ⟨fun dir => ?_, fun _ => makes.2.2⟩
  rw [isDir, Option.isNone_iff_eq_none.1 makes.1] at dir
  cases dir

/-- `create_dir` and `create_new`. -/
def make (t : Files) (p : Path) (n : Node) : Except String Files :=
  if makes : t.Makes p then .ok (t.put p n (makes.fits n))
  else .error (if (t.look p).isSome then eexist
    else if (t.look p.dropLast).isNone then enonexist else enotdir)

/-- What is kept of a file changed, its kind with it. -/
def alter (t : Files) (p : Path) (f : Node → Node) (kind : ∀ n, (f n).dir = n.dir) :
    Except String Files :=
  match there : t.look p with
  | none => .error enonexist
  | some n => .ok (t.put p (f n) (fits_of_look there (kind n)))

def rewrite (t : Files) (p : Path) (f : Node → Node) (kind : ∀ n, (f n).dir = n.dir) :
    Except String Files :=
  if t.isDir p then .error eisdir else t.alter p f kind

/-- `set_len`. -/
def truncate (t : Files) (p : Path) (len : Nat) (now : UInt32) : Except String Files :=
  t.rewrite p (fun n => { n with data := sized 0 n.data len, mtime := now }) fun _ => rfl

/-- `set_permissions`. -/
def chmod (t : Files) (p : Path) (perm : UInt32) : Except String Files :=
  t.alter p (fun n => { n with perm := perm }) fun _ => rfl

/-- `remove_dir` of a directory, `remove_file` of anything else. -/
def remove (t : Files) (p : Path) : Except String Files :=
  if (t.look p).isNone then .error enonexist
  else if empty : t.kids p = false then .ok (t.erase p empty)
  else .error enotempty

/-- What there is at a path: whether a directory, and what is in it. -/
def view (t : Files) (p : Path) : Option (Bool × Bytes) := (t.look p).map fun n => (n.dir, n.data)

/-- The same names, of the same kinds, with the same in them. -/
def Same (t t' : Files) : Prop := ∀ p, t'.view p = t.view p

/-- Every file there was is there with what was in it. -/
def Kept (t t' : Files) : Prop :=
  ∀ p data, t.view p = some (false, data) → t'.view p = some (false, data)

theorem Same.kept (same : t.Same t') : t.Kept t' := by
  intro p data there
  rw [same p]
  exact there

theorem same_of_eq (same : t' = t) : t.Same t' := by
  intro p
  rw [same]

theorem view_of_look (there : t.look p = some n) : t.view p = some (n.dir, n.data) := by
  rw [view, there, Option.map_some]

theorem view_congr (same : t'.look p = t.look p) : t'.view p = t.view p := by
  rw [view, view, same]

theorem look_of_view {data : Bytes} {dir : Bool} (there : t.view p = some (dir, data)) :
    ∃ n, t.look p = some n ∧ n.dir = dir ∧ n.data = data := by
  rcases Option.map_eq_some_iff.1 there with ⟨n, look, both⟩
  rw [Prod.mk.injEq] at both
  exact ⟨n, look, both.1, both.2⟩

theorem view_isSome : (t.view p).isSome = (t.look p).isSome := Option.isSome_map

theorem isDir_view : t.isDir p = (t.view p).any (·.1) := by
  rw [isDir, view, Option.any_map]

/-- The second has something new and empty at `p`, and is otherwise the first. -/
structure Made (t t' : Files) (p : Path) (dir : Bool) : Prop where
  absent : t.view p = none
  new : t'.view p = some (dir, [])
  rest : ∀ q, q ≠ p → t'.view q = t.view q

theorem made_of_look {dir : Bool} (absent : t.look p = none) (new : t'.look p = some n)
    (kind : n.dir = dir) (empty : n.data = []) (rest : ∀ q, q ≠ p → t'.look q = t.look q) :
    Made t t' p dir := by
  refine ⟨by rw [view, absent, Option.map_none], ?_, fun q other => view_congr (rest q other)⟩
  rw [view_of_look new, kind, empty]

theorem Made.kept {dir : Bool} (made : Made t t' p dir) : t.Kept t' := by
  intro q data there
  rcases eq_or_ne q p with rfl | other
  · rw [made.absent] at there
    cases there
  · rw [made.rest q other]
    exact there

theorem Made.not_same {dir : Bool} (made : Made t t' p dir) : ¬t.Same t' := by
  intro same
  have view := same p
  rw [made.new, made.absent] at view
  cases view

theorem Made.same {t'' : Files} {dir : Bool} (made : Made t t' p dir) (same : t'.Same t'') :
    Made t t'' p dir := by
  refine ⟨made.absent, (same p).trans made.new, fun q other => ?_⟩
  rw [same q]
  exact made.rest q other

theorem make_ok (makes : t.Makes p) (n : Node) : t.make p n = .ok (t.put p n (makes.fits n)) := by
  rw [make, dif_pos makes]

theorem make_error (not : ¬t.Makes p) (n : Node) : ∃ e, t.make p n = .error e := by
  rw [make, dif_neg not]
  exact ⟨_, rfl⟩

theorem alter_ok {f : Node → Node} {kind : ∀ n, (f n).dir = n.dir} (there : t.look p = some n) :
    ∃ t', t.alter p f kind = .ok t' ∧ t'.look p = some (f n) ∧
      ∀ q, q ≠ p → t'.look q = t.look q := by
  unfold alter
  split
  · next none_ =>
      rw [there] at none_
      cases none_
  · next m there' =>
      rw [there] at there'
      rcases Option.some.inj there' with rfl
      exact ⟨_, rfl, look_put_self, fun q other => look_put_of_ne other⟩

theorem remove_ok (there : t.look p = some n) (empty : t.kids p = false) :
    t.remove p = .ok (t.erase p empty) := by
  rw [remove, there, Option.isNone_some, if_neg Bool.false_ne_true, dif_pos empty]

theorem remove_error (not : ¬((t.look p).isSome = true ∧ t.kids p = false)) :
    ∃ e, t.remove p = .error e := by
  rw [remove]
  split_ifs with absent empty
  · exact ⟨_, rfl⟩
  · refine absurd ⟨?_, empty⟩ not
    rw [Bool.not_eq_true, Option.isNone_eq_false_iff] at absent
    exact absent
  · exact ⟨_, rfl⟩

theorem rewrite_ok {f : Node → Node} {kind : ∀ n, (f n).dir = n.dir} (there : t.look p = some n)
    (file : n.dir = false) :
    ∃ t', t.rewrite p f kind = .ok t' ∧ t'.look p = some (f n) ∧
      ∀ q, q ≠ p → t'.look q = t.look q := by
  rw [rewrite, isDir_of_look there, file, if_neg Bool.false_ne_true]
  exact alter_ok there

end Files

/-- The files, the time, the permissions a new file is denied, and which of the changes to come are
refused. -/
structure Keeper where
  files : Files
  now : UInt32
  umask : UInt32
  refuse : List Bool

namespace Keeper

def refuses (k : Keeper) : Bool := k.refuse.headD false

def asked (k : Keeper) : Keeper := { k with refuse := k.refuse.tail }

/-- A change asked for: made, or with nothing changed. -/
def change (f : Files → Except String Files) : Prog Keeper Unit := fun k =>
  if k.refuses then (.error erefused, k.asked)
  else
    match f k.files with
    | .error e => (.error e, k.asked)
    | .ok t => (.ok (), { k.asked with files := t })

variable {k : Keeper} {f : Files → Except String Files} {t : Files} {e : String}

theorem change_refused (refused : k.refuses = true) :
    (change f).exec k = (.error erefused, k.asked) := by
  rw [Prog.exec, change, if_pos refused]

theorem change_error (allowed : k.refuses = false) (failed : f k.files = .error e) :
    (change f).exec k = (.error e, k.asked) := by
  rw [Prog.exec, change, allowed, if_neg Bool.false_ne_true, failed]

theorem change_ok (allowed : k.refuses = false) (done : f k.files = .ok t) :
    (change f).exec k = (.ok (), { k.asked with files := t }) := by
  rw [Prog.exec, change, allowed, if_neg Bool.false_ne_true, done]

@[simp]
theorem asked_files (k : Keeper) : k.asked.files = k.files := rfl

end Keeper

end Ipnx.Wasi
