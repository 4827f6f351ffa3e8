import Ipnx.Fd.Making
import Ipnx.Wasi.Keeper

/-!
# The kernel's calls on names

`kernel/src/lib.rs` and `kernel/src/namec.rs` where the namespace is one mounted tree that
`store.rs` serves: a channel is the path its fid is at. A name with `#` names no file of the tree.
-/

namespace Ipnx.Wasi

open Prog (exec exec_bind_error exec_bind_ok exec_get of)

def enofd : String := "no free file descriptors"
def ebadfd : String := "fd out of range or not open"
def efound : String := "file already exists"
def eismtpt : String := "is a mount point"

/-- The elements of a name, each with the name as far as where it ends. -/
def spans : List Char → List (List Char) → List (String × String)
  | _, [] => []
  | seen, seg :: segs =>
      let upto := seen ++ seg
      let rest := spans (upto ++ ['/']) segs
      if seg = [] ∨ seg = ['.'] then rest else (String.ofList seg, String.ofList upto) :: rest

def segments : List Char → List (List Char)
  | [] => [[]]
  | c :: cs =>
      if c = '/' then [] :: segments cs
      else
        match segments cs with
        | [] => [[c]]
        | seg :: segs => (c :: seg) :: segs

/-- How much of a name may stand before an error. -/
def fits (err : String) (name : List Char) : Bool :=
  let len := (name.map Char.utf8Size).sum
  len < 42 || len + err.utf8ByteSize < 85

/-- The last of a name, from a slash if there is one near enough. -/
def suffix (err : String) (name : List Char) : List Char :=
  ((name.tails.find? fun t => t.head? = some '/' && fits err t).orElse fun _ =>
    name.tails.find? fun t => (t.map Char.utf8Size).sum ≤ 32).getD []

def nameerror (name err : String) : String :=
  let shown := if fits err name.toList then name
    else "..." ++ String.ofList (suffix err name.toList)
  String.ofList (floorChars 127 ("'" ++ shown.replace "'" "''" ++ "' " ++ err).toList)

/-- Where a walk starts and what it walks. -/
structure Start where
  name : String
  chan : Path
  elems : List String
  ends : List String
  mustbedir : Bool

namespace Start

/-- An error shows the name as far as the element it concerns. -/
def err (s : Start) (n : Nat) (e : String) : String :=
  if n = 0 then e
  else nameerror (if s.ends.length ≤ n then s.name else s.ends.getD (n - 1) s.name) e

def all (s : Start) (e : String) : String := s.err s.ends.length e

end Start

def start (dot : Path) (name : String) : Except String Start :=
  if name.isEmpty then .error Name.eempty
  else
    match Name.validname name true with
    | .error e => .error e
    | .ok () =>
        if Name.sharp name then .error Name.ebadsharp
        else
          let segs := segments name.toList
          let elems := spans [] segs
          .ok {
            name := name
            chan := if name.toList.head? = some '/' then [] else dot
            elems := elems.map Prod.fst
            ends := elems.map Prod.snd
            mustbedir := segs.getLast? = some [] || segs.getLast? = some ['.'] }

/-- The path of a name in a directory, if it does not climb out of the root. -/
def real (p : Path) (name : String) : Option Path :=
  if name = ".." then if p = [] then none else some p.dropLast else some (p ++ [name])

namespace Files

/-- One name from a directory, as the server knows it. -/
def step (t : Files) (c : Path) (name : String) : Option Path :=
  if name = ".." then
    if c = [] ∨ (t.look c.dropLast).isNone then none else some c.dropLast
  else if t.isDir c ∧ (t.look (c ++ [name])).isSome then some (c ++ [name])
  else none

/-- The names, one after another: `k` of them have gone in this batch, and `nhave` in all. With the
path, whether a directory is there. -/
def walk (t : Files) : Path → Bool → Nat → Nat → List String → Except (Nat × String) (Path × Bool)
  | c, dir, _, _, [] => .ok (c, dir)
  | c, dir, k, nhave, name :: names =>
      let first := k = 0 ∨ k = Name.maxwelem ∨ name = ".."
      if first ∧ !dir then .error (nhave, Name.enotdir)
      else
        match t.step c name with
        | some next =>
            t.walk next (t.isDir next) (if name = ".." then 0 else if first then 1 else k + 1)
              (nhave + 1) names
        | none =>
            if first then .error (nhave + 1, Name.enonexist)
            else if dir then .error (nhave + 1, Name.edoesnotexist)
            else .error (nhave, Name.enotdir)

/-- A walk from where a name starts, its error naming the name. -/
def walked (t : Files) (s : Start) (elems : List String) : Except String (Path × Bool) :=
  match t.walk s.chan true 0 0 elems with
  | .ok c => .ok c
  | .error (n, e) => .error (s.err n e)

/-- `resolve`: the file a name names. -/
def resolve (t : Files) (dot : Path) (name : String) : Except String Path := do
  let s ← start dot name
  let c ← t.walked s s.elems
  if s.mustbedir ∧ !c.2 then .error (s.all Name.enotdir) else .ok c.1

def lookup (t : Files) (parent : Path × Bool) (last : String) : Option Path :=
  if parent.2 then t.step parent.1 last else none

/-- Where `create` is to make a file: the name, the directory, and the last element. -/
def place (t : Files) (dot : Path) (name : String) (perm : UInt32) :
    Except String (Start × (Path × Bool) × String) := do
  let s ← start dot name
  if s.mustbedir ∧ perm &&& Host.dmdir = 0 then .error (s.all "create without DMDIR")
  else
    match s.elems.getLast? with
    | none => .error efound
    | some last => do
        let parent ← t.walked s s.elems.dropLast
        .ok (s, parent, last)

variable {t : Files} {c : Path} {dir : Bool} {k n : Nat} {name last : String}
  {names : List String} {r parent : Path × Bool} {dot p : Path} {perm : UInt32} {s : Start}

def reach (t : Files) : Path → Bool → List String → Option (Path × Bool)
  | c, dir, [] => some (c, dir)
  | c, dir, name :: names =>
      (t.lookup (c, dir) name).bind fun next => t.reach next (t.isDir next) names

theorem isDir_of_step (there : t.step c name = some p) (down : name ≠ "..") :
    t.isDir c = true := by
  rw [step, if_neg down] at there
  by_contra file
  rw [if_neg fun both => file both.1] at there
  cases there

/-- Batches or not, a walk comes to where its names lead one after another. -/
theorem walk_ok_iff (known : k ≠ 0 → dir = t.isDir c) :
    t.walk c dir k n names = .ok r ↔ t.reach c dir names = some r := by
  induction names generalizing c dir k n with
  | nil => simp [walk, reach]
  | cons name names ih =>
      simp only [walk, reach, lookup]
      by_cases first : k = 0 ∨ k = Name.maxwelem ∨ name = ".."
      · rcases dir with _ | _
        · simp [first]
        · simp only [first, Bool.not_true, Bool.false_eq_true, and_false, if_false, if_true]
          rcases stepped : t.step c name with _ | next
          · simp
          · rw [Option.bind_some]
            exact ih fun _ => rfl
      · simp only [first, false_and, if_false]
        rcases stepped : t.step c name with _ | next
        · rcases dir with _ | _ <;> simp
        · have down : name ≠ ".." := fun up => first (.inr (.inr up))
          have here : dir = true := by
            rw [known fun zero => first (.inl zero)]
            exact isDir_of_step stepped down
          rw [here, if_pos rfl]
          exact ih fun _ => rfl

theorem reach_concat : t.reach c dir (names ++ [last]) =
    (t.reach c dir names).bind fun parent =>
      (t.lookup parent last).map fun next => (next, t.isDir next) := by
  induction names generalizing c dir with
  | nil =>
      simp only [List.nil_append, reach, Option.bind_some]
      rcases t.lookup (c, dir) last with _ | next
      · rfl
      · rfl
  | cons name names ih =>
      simp only [List.cons_append, reach]
      rcases t.lookup (c, dir) name with _ | next
      · rfl
      · exact ih

theorem walked_ok_iff {elems : List String} :
    t.walked s elems = .ok r ↔ t.reach s.chan true elems = some r := by
  rw [← walk_ok_iff (k := 0) (n := 0) fun some_ => absurd rfl some_, walked]
  rcases t.walk s.chan true 0 0 elems with ⟨_, _⟩ | c
  · simp
  · simp

theorem place_ok (placed : t.place dot name perm = .ok (s, parent, last)) :
    start dot name = .ok s ∧ s.elems = s.elems.dropLast ++ [last] ∧
      t.reach s.chan true s.elems.dropLast = some parent ∧
      ¬(s.mustbedir = true ∧ perm &&& Host.dmdir = 0) := by
  unfold place at placed
  rcases begun : start dot name with e | st
  · rw [begun] at placed
    cases placed
  · rw [begun] at placed
    simp only [bind, Except.bind] at placed
    split_ifs at placed with dir
    rcases ends : st.elems.getLast? with _ | x
    · rw [ends] at placed
      cases placed
    · rw [ends] at placed
      rcases walked : t.walked st st.elems.dropLast with e | c
      · rw [walked] at placed
        cases placed
      · rw [walked] at placed
        cases placed
        refine ⟨rfl, ?_, walked_ok_iff.1 walked, dir⟩
        rw [List.dropLast_append_getLast? _ ends]

/-- The file a name leads to, if there is one. -/
def leads (t : Files) (dot : Path) (name : String) : Option Path :=
  match start dot name with
  | .error _ => none
  | .ok s => (t.reach s.chan true s.elems).map Prod.fst

theorem lookup_some (there : t.lookup parent last = some p) :
    parent.2 = true ∧ ∃ n, t.look p = some n := by
  rw [lookup] at there
  split_ifs at there with dir
  refine ⟨dir, ?_⟩
  rw [step] at there
  split_ifs at there with up gone within
  · cases there
    rw [not_or, Bool.not_eq_true, Option.isNone_eq_false_iff] at gone
    exact Option.isSome_iff_exists.1 gone.2
  · cases there
    exact Option.isSome_iff_exists.1 within.2

theorem reach_file (walked : t.reach c dir names = some r)
    (known : dir = false → ∃ n, t.look c = some n ∧ n.dir = false) (file : r.2 = false) :
    ∃ n, t.look r.1 = some n ∧ n.dir = false := by
  induction names generalizing c dir with
  | nil =>
      cases walked
      exact known file
  | cons name names ih =>
      rw [reach] at walked
      rcases Option.bind_eq_some_iff.1 walked with ⟨next, found, walked⟩
      refine ih walked fun leaf => ?_
      rcases (lookup_some found).2 with ⟨n, there⟩
      exact ⟨n, there, by rw [← isDir_of_look there, leaf]⟩

theorem lookup_made {t' : Files} {kind : Bool} {next : Path}
    (walked : t.reach c true names = some parent)
    (up : real parent.1 last = some next)
    (makes : t.Makes next) (made : Made t t' next kind) : t'.lookup parent last = some next := by
  have inside : parent.2 = true := by
    by_contra file
    rcases reach_file walked (by simp) (Bool.eq_false_iff.2 file) with ⟨n, there, leaf⟩
    rw [real] at up
    split_ifs at up with parent_ root
    · cases up
      have dir := parent_isDir root there
      rw [isDir, Option.isNone_iff_eq_none.1 makes.1] at dir
      cases dir
    · cases up
      have dir := makes.2.2
      rw [List.dropLast_concat, isDir_of_look there, leaf] at dir
      cases dir
  have found : (t'.look next).isSome = true := by
    rw [← view_isSome, made.new, Option.isSome_some]
  rw [lookup, if_pos inside, step]
  rw [real] at up
  split_ifs at up with parent_ root
  · cases up
    rw [if_pos parent_, if_neg]
    rw [not_or, Bool.not_eq_true, Option.isNone_eq_false_iff]
    exact ⟨root, found⟩
  · cases up
    have dir := makes.2.2
    rw [List.dropLast_concat, isDir_view] at dir
    rw [if_neg parent_, if_pos]
    refine ⟨?_, found⟩
    rw [isDir_view, made.rest _ (by simp), dir]

theorem leads_of_place (placed : t.place dot name perm = .ok (s, parent, last)) :
    t.leads dot name = t.lookup parent last := by
  rcases place_ok placed with ⟨begun, elems, walked, -⟩
  rw [leads, begun]
  simp only
  rw [elems, reach_concat, walked, Option.bind_some]
  rcases t.lookup parent last with _ | next
  · rfl
  · rfl

theorem leads_of_resolve (resolved : t.resolve dot name = .ok p) : t.leads dot name = some p := by
  unfold resolve at resolved
  rw [leads]
  rcases begun : start dot name with e | st
  · rw [begun] at resolved
    cases resolved
  · rw [begun] at resolved
    simp only [bind, Except.bind] at resolved
    rcases walked : t.walked st st.elems with e | c
    · rw [walked] at resolved
      cases resolved
    · rw [walked] at resolved
      simp only at resolved
      split_ifs at resolved
      cases resolved
      simp only
      rw [walked_ok_iff.1 walked]
      rfl

end Files

namespace Keeper

/-- A change whose answer nobody looks at. -/
def tell (m : Prog Keeper Unit) : Prog Keeper Unit := fun k => (.ok (), (m k).2)

/-- `Topen`: a file is cut if that is asked for, and whether it was is not looked at. -/
def topen (p : Path) (trunc : Bool) : Prog Keeper Node := do
  let k ← get
  match k.files.look p with
  | none => throw Name.enonexist
  | some n => do
      if trunc ∧ !n.dir then tell (change fun t => t.truncate p 0 k.now)
      pure n

/-- `mkdir` and `mkfile`: made, and then with the permissions given. -/
def mkfile (dir : Bool) (p : Path) (perm : UInt32) : Prog Keeper Unit := do
  let k ← get
  change fun t => t.make p ⟨dir, (if dir then 0o777 else 0o666) &&& ~~~k.umask, k.now, k.now, []⟩
  change fun t => t.chmod p perm

/-- Whether what `Tcreate` is to make is a directory. -/
def dirbit (perm : UInt32) : Bool := perm &&& Host.dmdir ≠ 0

def make (next : Path) (perm given : UInt32) : Prog Keeper Unit :=
  if dirbit perm then mkfile true next ((given ||| 0o400) &&& 0o777)
  else mkfile false next (given &&& 0o777)

def tcreate (p : Path) (name : String) (perm : UInt32) : Prog Keeper (Path × Node) := do
  match real p name with
  | none => throw "bad name"
  | some next => do
      let k ← get
      make next perm (Host.Store.created perm (((k.files.look p).map Node.perm).getD 0o777))
      let k ← get
      match k.files.look next with
      | none => throw Name.enonexist
      | some n => pure (next, n)

def tremove (p : Path) : Prog Keeper Unit := change fun t => t.remove p

/-- Whether a file is there with something in it, and the keeper will cut it. -/
def cuts (k : Keeper) (p : Path) : Bool :=
  !k.refuses && (k.files.view p).any fun v => !v.1 && v.2 ≠ []

variable {k : Keeper} {p next : Path} {n : Node} {name : String} {perm : UInt32} {dir : Bool}

theorem topen_none (trunc : Bool) (absent : k.files.look p = none) :
    (topen p trunc).exec k = (.error Name.enonexist, k) := by
  rw [topen, exec_bind_ok (exec_get k)]
  simp only [absent]
  rfl

theorem truncate_same (there : k.files.look p = some n) (file : n.dir = false) :
    k.files.Same ((change fun t => t.truncate p 0 k.now).exec k).2.files ↔ ¬k.cuts p = true := by
  rcases refused : k.refuses with _ | _
  · have done : ∃ t', k.files.truncate p 0 k.now = .ok t' ∧
        t'.look p = some { n with data := sized 0 n.data 0, mtime := k.now } ∧
        ∀ q, q ≠ p → t'.look q = k.files.look q := Files.rewrite_ok there file
    rcases done with ⟨t', truncated, cut, rest⟩
    rw [change_ok (f := fun t => t.truncate p 0 k.now) refused truncated]
    have viewed : t'.view p = some (false, []) := by
      rw [Files.view_of_look cut, file]
      simp [sized]
    simp only [cuts, refused, Files.view_of_look there, file]
    constructor
    · intro same
      have here := same p
      rw [viewed, Files.view_of_look there, file] at here
      simp only [Option.some.injEq, Prod.mk.injEq, true_and] at here
      simp [← here]
    · intro empty q
      rcases eq_or_ne q p with rfl | other
      · rw [viewed, Files.view_of_look there, file]
        simp at empty
        rw [empty]
      · exact Files.view_congr (rest q other)
  · rw [change_refused refused]
    simp [cuts, refused, Files.same_of_eq]

theorem topen_some (trunc : Bool) (there : k.files.look p = some n) :
    ∃ k', (topen p trunc).exec k = (.ok n, k') ∧ (trunc = false → k' = k) ∧
      (k.files.Same k'.files ↔ ¬(trunc = true ∧ k.cuts p = true)) := by
  rw [topen, exec_bind_ok (exec_get k)]
  simp only [there]
  by_cases cut : trunc = true ∧ (!n.dir) = true
  · rw [if_pos cut, Prog.exec_bind]
    refine ⟨_, rfl, fun not => ?_, ?_⟩
    · rw [not] at cut
      cases cut.1
    · have file : n.dir = false := by simpa using cut.2
      rw [cut.1]
      simp only [true_and]
      exact truncate_same there file
  · rw [if_neg cut]
    refine ⟨k, rfl, fun _ => rfl, ?_⟩
    simp only [Files.same_of_eq, true_iff]
    rintro ⟨asked, cuts⟩
    simp only [Keeper.cuts, Files.view_of_look there, Option.any_some, Bool.and_eq_true] at cuts
    exact cut ⟨asked, cuts.2.1⟩

theorem mkfile_unmade (dir : Bool) (perm : UInt32) (not : ¬(k.files.Makes p ∧ k.refuses = false)) :
    ∃ e k', (mkfile dir p perm).exec k = (.error e, k') ∧ k'.files = k.files := by
  rw [mkfile, exec_bind_ok (exec_get k)]
  rcases refused : k.refuses with _ | _
  · have cannot : ¬k.files.Makes p := fun makes => not ⟨makes, refused⟩
    rcases Files.make_error cannot
      ⟨dir, (if dir then 0o777 else 0o666) &&& ~~~k.umask, k.now, k.now, []⟩ with ⟨e, failed⟩
    exact ⟨e, k.asked, exec_bind_error (change_error refused failed), rfl⟩
  · exact ⟨_, k.asked, exec_bind_error (change_refused refused), rfl⟩

theorem mkfile_made (dir : Bool) (perm : UInt32) (makes : k.files.Makes p)
    (allowed : k.refuses = false) :
    ∃ k', Files.Made k.files k'.files p dir ∧
      (k.asked.refuses = true → (mkfile dir p perm).exec k = (.error erefused, k')) ∧
      (k.asked.refuses = false → (mkfile dir p perm).exec k = (.ok (), k')) := by
  rw [mkfile, exec_bind_ok (exec_get k)]
  let node : Node := ⟨dir, (if dir then 0o777 else 0o666) &&& ~~~k.umask, k.now, k.now, []⟩
  have done := Files.make_ok makes node
  rw [exec_bind_ok (change_ok allowed done)]
  have absent : k.files.look p = none := Option.isNone_iff_eq_none.1 makes.1
  have new : (k.files.put p node (makes.fits node)).look p = some node := Files.look_put_self
  have rest : ∀ q, q ≠ p → (k.files.put p node (makes.fits node)).look q = k.files.look q :=
    fun q other => Files.look_put_of_ne other
  rcases refused : k.asked.refuses with _ | _
  · have done : ∃ t', (k.files.put p node (makes.fits node)).chmod p perm = .ok t' ∧
        t'.look p = some { node with perm := perm } ∧
        ∀ q, q ≠ p → t'.look q = (k.files.put p node (makes.fits node)).look q :=
      Files.alter_ok new
    rcases done with ⟨t', altered, there, others⟩
    refine ⟨_, Files.made_of_look absent there rfl rfl fun q other => ?_, by simp, fun _ =>
      change_ok refused altered⟩
    exact (others q other).trans (rest q other)
  · exact ⟨_, Files.made_of_look absent new rfl rfl rest, fun _ => change_refused refused,
      by simp⟩

theorem tcreate_unmade (perm : UInt32)
    (not : ∀ next, real p name = some next → ¬(k.files.Makes next ∧ k.refuses = false)) :
    ∃ e k', (tcreate p name perm).exec k = (.error e, k') ∧ k'.files = k.files := by
  rw [tcreate]
  rcases up : real p name with _ | next
  · exact ⟨_, k, rfl, rfl⟩
  · simp only
    rw [exec_bind_ok (exec_get k), make]
    split_ifs
    · rcases mkfile_unmade true _ (not next up) with ⟨e, k', failed, same⟩
      exact ⟨e, k', exec_bind_error failed, same⟩
    · rcases mkfile_unmade false _ (not next up) with ⟨e, k', failed, same⟩
      exact ⟨e, k', exec_bind_error failed, same⟩

theorem make_made (perm given : UInt32) (makes : k.files.Makes next) (allowed : k.refuses = false) :
    ∃ k', Files.Made k.files k'.files next (dirbit perm) ∧
      (k.asked.refuses = true → (make next perm given).exec k = (.error erefused, k')) ∧
      (k.asked.refuses = false → (make next perm given).exec k = (.ok (), k')) := by
  rw [make]
  split_ifs with bit
  · rw [bit]
    exact mkfile_made _ _ makes allowed
  · rw [Bool.eq_false_iff.2 bit]
    exact mkfile_made _ _ makes allowed

theorem tcreate_made (perm : UInt32) (up : real p name = some next) (makes : k.files.Makes next)
    (allowed : k.refuses = false) :
    ∃ k', Files.Made k.files k'.files next (dirbit perm) ∧
      (k.asked.refuses = true → (tcreate p name perm).exec k = (.error erefused, k')) ∧
      (k.asked.refuses = false →
        ∃ n, n.dir = dirbit perm ∧ (tcreate p name perm).exec k = (.ok (next, n), k')) := by
  rw [tcreate]
  simp only [up]
  rw [exec_bind_ok (exec_get k)]
  rcases make_made perm (Host.Store.created perm (((k.files.look p).map Node.perm).getD 0o777))
    makes allowed with ⟨k', new, refused, done⟩
  rcases Files.look_of_view new.new with ⟨n, there, kind, -⟩
  refine ⟨k', new, fun not => exec_bind_error (refused not), fun given => ⟨n, kind, ?_⟩⟩
  rw [exec_bind_ok (done given), exec_bind_ok (exec_get k')]
  simp only [there]
  rfl

end Keeper

inductive Mode
  | oread
  | owrite
  | ordwr
deriving DecidableEq, Repr

structure Opened where
  path : Path
  dir : Bool
  mode : Mode
  off : UInt64
deriving DecidableEq, Repr

/-- A program: the files it sees, its directory, its descriptors and the channels they are of, and
the descriptors it has let go of. -/
structure Program where
  keeper : Keeper
  dot : Path
  fds : Fds
  chans : List Opened
  closing : List Fd

namespace Program

abbrev Call := Prog Program

variable {α : Type}

def files (s : Program) : Files := s.keeper.files

def server (m : Prog Keeper α) : Call α := fun s =>
  ((m s.keeper).1, { s with keeper := (m s.keeper).2 })

def named (f : String → String) (m : Call α) : Call α := fun s => ((m s).1.mapError f, (m s).2)

/-- With none free the channel is let go. -/
def newfd (c : Opened) : Call Fd := do
  let s ← get
  match s.fds.newfd s.chans.length with
  | none => throw enofd
  | some (fd, fds) => do
      modify fun s => { s with fds := fds, chans := s.chans ++ [c] }
      pure fd

def close (fd : Fd) : Call Unit := do
  let s ← get
  match s.fds.close fd with
  | none => throw ebadfd
  | some (_, fds) => modify fun s => { s with fds := fds }

def openit (p : Path) (mode : Mode) (trunc : Bool) : Call Opened := do
  let n ← server (Keeper.topen p trunc)
  pure ⟨p, n.dir, mode, 0⟩

def opened (name : String) (mode : Mode) (trunc : Bool) : Call Fd := do
  let s ← get
  let st ← of (start s.dot name)
  let p ← of (s.files.resolve s.dot name)
  let c ← named st.all (openit p mode trunc)
  newfd c

def dcreate (parent : Path) (last : String) (mode : Mode) (perm : UInt32) : Call Opened := do
  let made ← server (Keeper.tcreate parent last perm)
  pure ⟨made.1, made.2.dir, mode, 0⟩

/-- After a create that failed: what is there by then is opened, and cut. -/
def again (parent : Path × Bool) (last : String) (mode : Mode) (excl : Bool) (e : String) :
    Call Opened :=
  if excl then throw e
  else do
    let s ← get
    match s.files.lookup parent last with
    | some p => openit p mode true
    | none => throw e

/-- `create` in a directory: a name that is there is opened and cut, unless it may not be there. -/
def createIn (parent : Path × Bool) (last : String) (mode : Mode) (excl : Bool) (perm : UInt32) :
    Call Opened := do
  let s ← get
  match s.files.lookup parent last with
  | some p => if excl then throw efound else openit p mode true
  | none => Prog.catching (dcreate parent.1 last mode perm) (again parent last mode excl)

def create (name : String) (mode : Mode) (excl : Bool) (perm : UInt32) : Call Fd := do
  let s ← get
  let (st, parent, last) ← of (s.files.place s.dot name perm)
  let c ← named st.all (createIn parent last mode excl perm)
  newfd c

/-- The root is where the tree is mounted, and is not removed. -/
def remove (name : String) : Call Unit := do
  let s ← get
  let p ← of (s.files.resolve s.dot name)
  if p = [] then throw eismtpt else server (Keeper.tremove p)

def stat (name : String) : Call Node := do
  let s ← get
  let p ← of (s.files.resolve s.dot name)
  match s.files.look p with
  | none => throw Name.enonexist
  | some n => pure n

variable {s : Program} {st : Start} {p next : Path} {n : Node} {mode : Mode} {trunc excl : Bool}
  {c : Opened} {parent : Path × Bool} {last name e : String} {perm : UInt32} {fd : Fd}

theorem newfd_full (c : Opened) (full : s.fds.room = 0) : (newfd c).exec s = (.error enofd, s) := by
  rw [newfd, exec_bind_ok (exec_get s)]
  rcases s.fds.newfd_room s.chans.length with ⟨none_, -⟩ | ⟨fd, f', some_, -, room⟩
  · simp only [none_]
    rfl
  · omega

theorem newfd_free (c : Opened) (free : s.fds.room ≠ 0) :
    ∃ fd fds, Fds.Takes s.fds fd s.chans.length fds ∧
      (newfd c).exec s = (.ok fd, { s with fds := fds, chans := s.chans ++ [c] }) := by
  rw [newfd, exec_bind_ok (exec_get s)]
  rcases s.fds.newfd_room s.chans.length with ⟨-, full⟩ | ⟨fd, f', some_, takes, -⟩
  · exact absurd full free
  · refine ⟨fd, f', takes, ?_⟩
    simp only [some_]
    rfl

theorem close_same (s : Program) (fd : Fd) :
    ((close fd).exec s).2.keeper = s.keeper ∧ ((close fd).exec s).2.dot = s.dot := by
  rw [close, exec_bind_ok (exec_get s)]
  rcases s.fds.close fd with _ | ⟨cell, fds⟩
  · exact ⟨rfl, rfl⟩
  · exact ⟨rfl, rfl⟩

theorem close_ok {cell : Cell} (held : s.fds.get fd = some cell) :
    ((close fd).exec s).1 = .ok () := by
  rw [close, exec_bind_ok (exec_get s), Fds.close, held]
  rfl

theorem exec_of {α : Type} (r : Except String α) (s : Program) : (of r : Call α).exec s = (r, s) :=
  rfl

theorem exec_server {α : Type} (m : Prog Keeper α) (s : Program) :
    (server m).exec s = ((m.exec s.keeper).1, { s with keeper := (m.exec s.keeper).2 }) := rfl

theorem openit_none (mode : Mode) (trunc : Bool) (absent : s.files.look p = none) :
    (openit p mode trunc).exec s = (.error Name.enonexist, s) := by
  have failed := Keeper.topen_none trunc absent
  apply exec_bind_error
  rw [exec_server, failed]

theorem openit_some (mode : Mode) (trunc : Bool) (there : s.files.look p = some n) :
    ∃ k, (openit p mode trunc).exec s = (.ok ⟨p, n.dir, mode, 0⟩, { s with keeper := k }) ∧
      (trunc = false → k = s.keeper) ∧
      (s.files.Same k.files ↔ ¬(trunc = true ∧ s.keeper.cuts p = true)) := by
  rcases Keeper.topen_some trunc there with ⟨k, opened, same⟩
  refine ⟨k, ?_, same⟩
  have run : (server (Keeper.topen p trunc)).exec s = (.ok n, { s with keeper := k }) := by
    rw [exec_server, opened]
  exact exec_bind_ok run

theorem exec_named {α : Type} (f : String → String) (m : Call α) (s : Program) :
    (named f m).exec s = ((m.exec s).1.mapError f, (m.exec s).2) := rfl

theorem resolve_start (resolved : s.files.resolve s.dot name = .ok p) :
    ∃ st, start s.dot name = .ok st := by
  rcases begun : start s.dot name with e | st
  · rw [Files.resolve, begun] at resolved
    cases resolved
  · exact ⟨st, rfl⟩

theorem opened_ok (begun : start s.dot name = .ok st)
    (resolved : s.files.resolve s.dot name = .ok p) :
    (opened name mode trunc).exec s =
      (named st.all (openit p mode trunc) >>= newfd : Call Fd).exec s := by
  rw [opened, exec_bind_ok (exec_get s), begun, exec_bind_ok (exec_of _ s),
    resolved, exec_bind_ok (exec_of _ s)]

theorem opened_error (failed : s.files.resolve s.dot name = .error e) :
    (opened name mode trunc).exec s = (.error e, s) := by
  rw [opened, exec_bind_ok (exec_get s)]
  rcases begun : start s.dot name with e' | st
  · rw [Files.resolve, begun] at failed
    cases failed
    exact exec_bind_error (exec_of _ s)
  · rw [exec_bind_ok (exec_of _ s), failed]
    exact exec_bind_error (exec_of _ s)

theorem named_ok {α β : Type} {m : Call α} {g : α → Call β} {f : String → String} {a : α}
    {s' : Program} (done : m.exec s = (.ok a, s')) :
    (named f m >>= g).exec s = (g a).exec s' := by
  apply exec_bind_ok
  rw [exec_named, done]
  rfl

theorem named_error {α β : Type} {m : Call α} {g : α → Call β} {f : String → String}
    {s' : Program} (failed : m.exec s = (.error e, s')) :
    (named f m >>= g).exec s = (.error (f e), s') := by
  apply exec_bind_error
  rw [exec_named, failed]
  rfl

/-- Whether a name is one of a file `create` makes. -/
structure Makes (s : Program) (name : String) (perm : UInt32) (st : Start) (parent : Path × Bool)
    (last : String) (next : Path) : Prop where
  placed : s.files.place s.dot name perm = .ok (st, parent, last)
  absent : s.files.lookup parent last = none
  inside : real parent.1 last = some next
  makes : s.files.Makes next
  allowed : s.keeper.refuses = false

def finds (s : Program) (name : String) (perm : UInt32) : Option Path :=
  match s.files.place s.dot name perm with
  | .error _ => none
  | .ok place => s.files.lookup place.2.1 place.2.2

theorem create_error (failed : s.files.place s.dot name perm = .error e) :
    (create name mode excl perm).exec s = (.error e, s) := by
  rw [create, exec_bind_ok (exec_get s), failed]
  exact exec_bind_error (exec_of _ s)

theorem create_ok (placed : s.files.place s.dot name perm = .ok (st, parent, last)) :
    (create name mode excl perm).exec s =
      (named st.all (createIn parent last mode excl perm) >>= newfd : Call Fd).exec s := by
  rw [create, exec_bind_ok (exec_get s), placed, exec_bind_ok (exec_of _ s)]

theorem createIn_found (found : s.files.lookup parent last = some p) :
    (createIn parent last mode excl perm).exec s =
      if excl then (.error efound, s) else (openit p mode true).exec s := by
  rw [createIn, exec_bind_ok (exec_get s)]
  simp only [found]
  split_ifs
  · rfl
  · rfl

theorem createIn_none (absent : s.files.lookup parent last = none) :
    (createIn parent last mode excl perm).exec s =
      (Prog.catching (dcreate parent.1 last mode perm) (again parent last mode excl)).exec s := by
  rw [createIn, exec_bind_ok (exec_get s)]
  simp only [absent]

theorem again_excl : (again parent last mode true e).exec s = (.error e, s) := rfl

theorem again_none (absent : s.files.lookup parent last = none) :
    (again parent last mode excl e).exec s = (.error e, s) := by
  rw [again]
  split_ifs
  · rfl
  · rw [exec_bind_ok (exec_get s)]
    simp only [absent]
    rfl

theorem again_some (found : s.files.lookup parent last = some p) :
    (again parent last mode false e).exec s = (openit p mode true).exec s := by
  rw [again, if_neg Bool.false_ne_true, exec_bind_ok (exec_get s)]
  simp only [found]

theorem dcreate_ok {k : Keeper} {c : Path}
    (done : (Keeper.tcreate c last perm).exec s.keeper = (.ok (next, n), k)) :
    (dcreate c last mode perm).exec s = (.ok ⟨next, n.dir, mode, 0⟩, { s with keeper := k }) := by
  rw [dcreate, exec_bind_ok (by rw [exec_server, done])]
  rfl

theorem dcreate_error {k : Keeper} {c : Path}
    (failed : (Keeper.tcreate c last perm).exec s.keeper = (.error e, k)) :
    (dcreate c last mode perm).exec s = (.error e, { s with keeper := k }) := by
  rw [dcreate, exec_bind_error (by rw [exec_server, failed])]

theorem createIn_unmade (mode : Mode) (excl : Bool) (perm : UInt32)
    (absent : s.files.lookup parent last = none)
    (not : ∀ next, real parent.1 last = some next →
      ¬(s.files.Makes next ∧ s.keeper.refuses = false)) :
    ∃ e k, k.files = s.files ∧
      (createIn parent last mode excl perm).exec s = (.error e, { s with keeper := k }) := by
  rcases Keeper.tcreate_unmade perm not with ⟨e, k, failed, same⟩
  refine ⟨e, k, same, ?_⟩
  rw [createIn_none absent, Prog.exec_catching_error (dcreate_error failed)]
  apply again_none
  rw [files, same]
  exact absent

theorem createIn_made (mode : Mode) (excl : Bool) (new : Makes s name perm st parent last next) :
    ∃ k, Files.Made s.files k.files next (Keeper.dirbit perm) ∧
      (excl = true ∧ s.keeper.asked.refuses = true →
        (createIn parent last mode excl perm).exec s =
          (.error erefused, { s with keeper := k })) ∧
      (¬(excl = true ∧ s.keeper.asked.refuses = true) →
        (createIn parent last mode excl perm).exec s =
          (.ok ⟨next, Keeper.dirbit perm, mode, 0⟩, { s with keeper := k })) := by
  rcases new with ⟨placed, absent, up, makes, allowed⟩
  rcases Keeper.tcreate_made perm up makes allowed with ⟨k, made, refused, done⟩
  rw [createIn_none absent]
  rcases after : s.keeper.asked.refuses with _ | _
  · rcases done after with ⟨n, kind, done⟩
    refine ⟨k, made, by simp, fun _ => ?_⟩
    rw [Prog.exec_catching_ok (dcreate_ok done), kind]
  · rw [Prog.exec_catching_error (dcreate_error (refused after))]
    rcases excl with _ | _
    · have found : ({ s with keeper := k } : Program).files.lookup parent last = some next :=
        Files.lookup_made (Files.place_ok placed).2.2.1 up makes made
      rcases Files.look_of_view made.new with ⟨n, there, kind, empty⟩
      let after_ : Program := { s with keeper := k }
      rcases openit_some (s := after_) mode true there with ⟨k', opened, -, same⟩
      have whole : k.files.Same k'.files := by
        rw [show k.files = after_.files from rfl, same]
        simp [after_, Keeper.cuts, made.new]
      refine ⟨k', made.same whole, by simp, fun _ => ?_⟩
      rw [again_some found, opened, kind]
    · exact ⟨k, made, fun _ => again_excl, by simp⟩

theorem placed_of_finds (found : s.finds name perm = some p) : ∃ st parent last,
    s.files.place s.dot name perm = .ok (st, parent, last) ∧
      s.files.lookup parent last = some p := by
  rw [finds] at found
  rcases placed : s.files.place s.dot name perm with e | ⟨st, parent, last⟩
  · rw [placed] at found
    cases found
  · rw [placed] at found
    exact ⟨st, parent, last, rfl, found⟩

theorem look_of_finds (found : s.finds name perm = some p) : ∃ n, s.files.look p = some n := by
  rcases placed_of_finds found with ⟨st, parent, last, placed, found⟩
  exact (Files.lookup_some found).2

theorem leads_of_finds (found : s.finds name perm = some p) :
    s.files.leads s.dot name = some p := by
  rcases placed_of_finds found with ⟨st, parent, last, placed, found⟩
  rw [Files.leads_of_place placed]
  exact found

theorem Makes.leads (new : Makes s name perm st parent last next) :
    s.files.leads s.dot name = none := by
  rw [Files.leads_of_place new.placed]
  exact new.absent

theorem Makes.finds (new : Makes s name perm st parent last next) : s.finds name perm = none := by
  rw [Program.finds, new.placed]
  exact new.absent

theorem create_finds (mode : Mode) (found : s.finds name perm = some p) :
    ∃ c k, (s.files.Same k.files ↔ ¬s.keeper.cuts p = true) ∧
      (create name mode false perm).exec s = (newfd c).exec { s with keeper := k } := by
  rcases placed_of_finds found with ⟨st, parent, last, placed, found⟩
  rcases (Files.lookup_some found).2 with ⟨n, there⟩
  rcases openit_some mode true there with ⟨k, opened, -, same⟩
  refine ⟨⟨p, n.dir, mode, 0⟩, k, by simpa using same, ?_⟩
  rw [create_ok placed]
  apply named_ok
  rw [createIn_found found, if_neg Bool.false_ne_true, opened]

theorem create_exists (mode : Mode) (found : s.finds name perm = some p) :
    ∃ e, (create name mode true perm).exec s = (.error e, s) := by
  rcases placed_of_finds found with ⟨st, parent, last, placed, found⟩
  refine ⟨st.all efound, ?_⟩
  rw [create_ok placed]
  apply named_error
  rw [createIn_found found, if_pos rfl]

theorem create_makes (mode : Mode) (excl : Bool) (new : Makes s name perm st parent last next) :
    ∃ k, Files.Made s.files k.files next (Keeper.dirbit perm) ∧
      (excl = true ∧ s.keeper.asked.refuses = true → ∃ e,
        (create name mode excl perm).exec s = (.error e, { s with keeper := k })) ∧
      (¬(excl = true ∧ s.keeper.asked.refuses = true) → ∃ c,
        (create name mode excl perm).exec s = (newfd c).exec { s with keeper := k }) := by
  rcases createIn_made mode excl new with ⟨k, made, refused, done⟩
  refine ⟨k, made, fun both => ⟨st.all erefused, ?_⟩,
    fun not => ⟨⟨next, Keeper.dirbit perm, mode, 0⟩, ?_⟩⟩
  · rw [create_ok new.placed]
    exact named_error (refused both)
  · rw [create_ok new.placed]
    exact named_ok (done not)

theorem create_unmade (mode : Mode) (excl : Bool) (absent : s.finds name perm = none)
    (not : ∀ st parent last next, ¬Makes s name perm st parent last next) :
    ∃ e k, k.files = s.files ∧
      (create name mode excl perm).exec s = (.error e, { s with keeper := k }) := by
  rw [finds] at absent
  rcases placed : s.files.place s.dot name perm with e | ⟨st, parent, last⟩
  · exact ⟨e, s.keeper, rfl, create_error placed⟩
  · rw [placed] at absent
    rcases createIn_unmade mode excl perm absent fun next inside both =>
      not st parent last next ⟨placed, absent, inside, both.1, both.2⟩ with ⟨e, k, same, failed⟩
    refine ⟨st.all e, k, same, ?_⟩
    rw [create_ok placed]
    exact named_error failed

/-- Whether a name is one of a file that `remove` removes. -/
structure Removes (s : Program) (name : String) (p : Path) : Prop where
  resolved : s.files.resolve s.dot name = .ok p
  inside : p ≠ []
  there : (s.files.look p).isSome = true
  empty : s.files.kids p = false
  allowed : s.keeper.refuses = false

theorem remove_removes (removes : Removes s name p) :
    ∃ k, k.files = s.files.erase p removes.empty ∧
      (remove name).exec s = (.ok (), { s with keeper := k }) := by
  rcases Option.isSome_iff_exists.1 removes.there with ⟨n, there⟩
  have done : s.keeper.files.remove p = .ok (s.files.erase p removes.empty) :=
    Files.remove_ok there removes.empty
  refine ⟨{ s.keeper.asked with files := s.files.erase p removes.empty }, rfl, ?_⟩
  rw [remove, exec_bind_ok (exec_get s), removes.resolved,
    exec_bind_ok (exec_of _ s), if_neg removes.inside, exec_server, Keeper.tremove,
    Keeper.change_ok (f := fun t => t.remove p) removes.allowed done]

theorem remove_keeps (not : ∀ p, ¬Removes s name p) :
    ∃ e k, k.files = s.files ∧ (remove name).exec s = (.error e, { s with keeper := k }) := by
  rw [remove, exec_bind_ok (exec_get s)]
  rcases resolved : s.files.resolve s.dot name with e | p
  · exact ⟨e, s.keeper, rfl, exec_bind_error (exec_of _ s)⟩
  · rw [exec_bind_ok (exec_of _ s)]
    split_ifs with root
    · exact ⟨eismtpt, s.keeper, rfl, rfl⟩
    · rw [exec_server, Keeper.tremove]
      rcases refused : s.keeper.refuses with _ | _
      · have failed : ∃ e, s.keeper.files.remove p = .error e :=
          Files.remove_error fun both => not p ⟨resolved, root, both.1, both.2, refused⟩
        rcases failed with ⟨e, failed⟩
        rw [Keeper.change_error (f := fun t => t.remove p) refused failed]
        exact ⟨e, s.keeper.asked, rfl, rfl⟩
      · rw [Keeper.change_refused refused]
        exact ⟨erefused, s.keeper.asked, rfl, rfl⟩

theorem finds_of_resolve_error (failed : s.files.resolve s.dot name = .error e)
    (plain : perm &&& Host.dmdir = 0) : s.finds name perm = none := by
  rw [finds]
  rcases placed : s.files.place s.dot name perm with e' | ⟨st, parent, last⟩
  · rfl
  · rcases Files.place_ok placed with ⟨begun, elems, walked, file⟩
    rcases found : s.files.lookup parent last with _ | p
    · exact found
    · have whole : s.files.reach st.chan true st.elems = some (p, s.files.isDir p) := by
        rw [elems, Files.reach_concat, walked, Option.bind_some, found, Option.map_some]
      rw [Files.resolve, begun] at failed
      simp only [bind, Except.bind] at failed
      rw [Files.walked_ok_iff.2 whole] at failed
      simp only at failed
      rw [if_neg fun both => file ⟨both.1, plain⟩] at failed
      cases failed

end Program

end Ipnx.Wasi
