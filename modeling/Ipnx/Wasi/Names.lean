import Ipnx.Wasi.Calls

/-!
# Names, as WASI has them

`open_file`, `create_dir`, `remove_dir` and `unlink_file` of `hosts/ipnx/src/wasi.rs`, each made of
the kernel's own calls.
-/

namespace Ipnx.Wasi

open Prog (exec of)

inductive Errno
  | acces | addrinuse | afnosupport | badf | busy | child | connrefused | exist | intr | inval | io
  | isdir | mfile | nobufs | noent | noexec | nomem | nospc | notdir | notempty | notsock | notsup
  | nxio | perm | pipe | protonosupport | rofs | spipe | srch | timedout
deriving DecidableEq, Repr

/-- The words of an error that are known, and what each is. -/
def errnoMap : List (String × Errno) := [
  ("inconsistent mount", .inval),
  ("not mounted", .inval),
  ("not in union", .inval),
  ("mount rpc error", .io),
  ("mounted device shut down", .io),
  ("mounted directory forbids creation", .perm),
  ("does not exist", .noent),
  ("unknown device in # filename", .nxio),
  ("not a directory", .notdir),
  ("file is a directory", .isdir),
  ("bad character in file name", .inval),
  ("file name syntax", .inval),
  ("permission denied", .perm),
  ("inappropriate use of fd", .perm),
  ("bad arg in system call", .inval),
  ("device or object already in use", .busy),
  ("i/o error", .io),
  ("read or write too large", .io),
  ("read or write too small", .io),
  ("network port not available", .addrinuse),
  ("write to hungup stream", .pipe),
  ("i/o on hungup channel", .pipe),
  ("bad process or channel control request", .inval),
  ("no free devices", .busy),
  ("process exited", .srch),
  ("no living children", .child),
  ("i/o error in demand load", .io),
  ("virtual memory allocation failed", .nomem),
  ("fd out of range or not open", .badf),
  ("no free file descriptors", .mfile),
  ("seek on a stream", .spipe),
  ("exec header invalid", .noexec),
  ("connection timed out", .timedout),
  ("connection refused", .connrefused),
  ("connection in use", .connrefused),
  ("interrupted", .intr),
  ("kernel allocate failed", .nomem),
  ("segments overlap", .inval),
  ("i/o count too small", .io),
  ("ken has left the building", .io),
  ("bad attach specifier", .inval),
  ("no free mount devices", .busy),
  ("no free mount rpc buffer", .busy),
  ("no free segments", .busy),
  ("no free memory", .nomem),
  ("no free Blocks", .nobufs),
  ("no free routes", .busy),
  ("attach -- bad specifier", .inval),
  ("unknown fid", .badf),
  ("bad character in directory name", .inval),
  ("read/write -- on non open fid", .badf),
  ("read/write -- count too big", .io),
  ("phase error -- directory entry not allocated", .io),
  ("phase error -- qid does not match", .io),
  ("access permission denied", .acces),
  ("directory entry not found", .noent),
  ("open/create -- unknown mode", .inval),
  ("walk -- in a non-directory", .notdir),
  ("create -- in a non-directory", .notdir),
  ("phase error -- cannot happen", .io),
  ("create -- file exists", .exist),
  ("create -- . and .. illegal names", .inval),
  ("directory not empty", .notempty),
  ("attach -- privileged user", .inval),
  ("wstat -- not owner", .perm),
  ("wstat -- not in group", .perm),
  ("create/wstat -- bad character in file name", .inval),
  ("walk -- too many (system wide)", .busy),
  ("file system read only", .rofs),
  ("file system full", .nospc),
  ("read/write -- offset negative", .inval),
  ("open/create -- file is locked", .busy),
  ("close/read/write -- lock is broken", .busy),
  ("not a socket", .notsock),
  ("protocol not supported", .protonosupport),
  ("address family not supported", .afnosupport),
  ("insufficient buffer space", .nobufs),
  ("operation not supported", .notsup),
  ("address in use", .addrinuse),
  ("unnamed error message", .io),
  ("already exists", .exist),
  ("file exists", .exist),
  ("is a directory", .isdir),
  ("no such file or directory", .noent)]

/-- In small letters, as far as letters beyond ASCII become one within. -/
def lowercase (s : String) : List Char :=
  s.toList.flatMap fun c =>
    if c = '\u212a' then ['k'] else if c = '\u0130' then ['i', '\u0307'] else [c.toLower]

def errno (e : String) : Errno :=
  let found := errnoMap.find? fun entry => decide (lowercase entry.1 <:+: lowercase e)
  (found.map Prod.snd).getD .inval

/-- A directory of the namespace, by its name. -/
structure Directory where
  path : String
deriving DecidableEq, Repr

def Directory.join (d : Directory) (p : String) : String :=
  if p = "" ∨ p = "." then d.path
  else if d.path.toList.getLast? = some '/' then d.path ++ p
  else d.path ++ "/" ++ p

structure OFlags where
  create : Bool
  directory : Bool
  exclusive : Bool
  truncate : Bool
deriving DecidableEq, Repr

inductive OpenResult
  | file (fd : Fd) (append : Bool)
  | dir (d : Directory)
deriving DecidableEq, Repr

namespace Program

/-- What was let go of is closed, whatever becomes of that. -/
def flushed (s : Program) : Program :=
  s.closing.foldl (fun s fd => ((close fd).exec s).2) { s with closing := [] }

def flush : Call Unit := fun s => (.ok (), s.flushed)

def chan (s : Program) (fd : Fd) : Option Opened := (s.fds.get fd).bind (s.chans[·]?)

/-- `File::open`: a descriptor, and whether it is a directory's. -/
def kind (fd : Fd) : Call Bool := do
  let s ← get
  pure (((s.chan fd).bind fun c => s.files.look c.path).any (·.dir))

/-- `File`'s drop. -/
def drop (fd : Fd) : Call Unit := modify fun s => { s with closing := s.closing ++ [fd] }

def statDir (name : String) : Call Node := do
  flush
  stat name

def openMode (read write : Bool) : Mode :=
  match read, write with
  | _, false => .oread
  | false, true => .owrite
  | true, true => .ordwr

/-- An open, and a create where there was nothing to open. -/
def openNew (full : String) (mode : Mode) (trunc : Bool) : Call Fd :=
  Prog.catching (opened full mode trunc) fun e =>
    if errno e = .noent then create full mode false 0o666 else throw e

/-- The descriptor `open_file` gets. -/
def openFd (full : String) (o : OFlags) (mode : Mode) : Call Fd :=
  if o.create ∧ o.exclusive then create full mode true 0o666
  else if o.create then openNew full mode o.truncate
  else opened full mode o.truncate

/-- A directory asked for, if it is there and is one. -/
def openDir (full : String) : Call OpenResult := do
  let n ← statDir full
  if !n.dir then throw Name.enotdir else pure (.dir ⟨full⟩)

/-- What `open_file` does with its descriptor. -/
def result (full : String) (append : Bool) (fd : Fd) : Call OpenResult := do
  if ← kind fd then do
    drop fd
    pure (.dir ⟨full⟩)
  else pure (.file fd append)

def openFile (d : Directory) (path : String) (o : OFlags) (read write append : Bool) :
    Call OpenResult := do
  flush
  let full := d.join path
  if o.directory then openDir full
  else do
    let fd ← openFd full o (openMode read write)
    result full append fd

def dirPerm : UInt32 := Host.dmdir ||| 0o777

def createDir (d : Directory) (path : String) : Call Unit := do
  flush
  let fd ← create (d.join path) .oread false dirPerm
  close fd

def removeDir (d : Directory) (path : String) : Call Unit := do
  flush
  remove (d.join path)

def unlinkFile (d : Directory) (path : String) : Call Unit := do
  flush
  remove (d.join path)

variable {α : Type} {s s' : Program} {m : Call α} {d : Directory} {path full e : String}
  {did : Files → Files → Prop} {p : Path} {c : Opened} {k : Keeper}

theorem flushed_same (s : Program) : s.flushed.keeper = s.keeper ∧ s.flushed.dot = s.dot := by
  rw [flushed]
  have each : ∀ (fds : List Fd) (s : Program),
      (fds.foldl (fun s fd => ((close fd).exec s).2) s).keeper = s.keeper ∧
        (fds.foldl (fun s fd => ((close fd).exec s).2) s).dot = s.dot := by
    intro fds
    induction fds with
    | nil => exact fun s => ⟨rfl, rfl⟩
    | cons fd fds ih =>
        intro s
        rw [List.foldl_cons]
        have rest := ih ((close fd).exec s).2
        have one := close_same s fd
        exact ⟨rest.1.trans one.1, rest.2.trans one.2⟩
  exact each s.closing { s with closing := [] }

theorem flushed_files (s : Program) : s.flushed.files = s.files := by
  rw [files, (flushed_same s).1, files]

/-- An operation does to the tree what it is to do, or fails and leaves it as it was. -/
def Right (did : Files → Files → Prop) (m : Call α) (s : Program) : Prop :=
  Prog.Ends m s (fun _ s' => did s.files s'.files) fun _ s' => s.files.Same s'.files

theorem right_ok {a : α} (run : m.exec s = (.ok a, s')) :
    Right did m s ↔ did s.files s'.files := by
  rw [Right, Prog.Ends, run]

theorem right_error (run : m.exec s = (.error e, s')) :
    Right did m s ↔ s.files.Same s'.files := by
  rw [Right, Prog.Ends, run]

theorem right_congr {m' : Call α} (same : m.exec s = m'.exec s) :
    Right did m s ↔ Right did m' s := by
  rw [Right, Right, Prog.Ends, Prog.Ends, same]

theorem exec_flush : (flush >>= fun _ => m).exec s = m.exec s.flushed := rfl

theorem newfd_close (c : Opened) (s : Program) (free : s.fds.room ≠ 0) :
    ∃ s', s'.files = s.files ∧ (newfd c >>= close).exec s = (.ok (), s') := by
  rcases newfd_free c free with ⟨fd, fds, takes, run⟩
  have held : fds.get fd = some s.chans.length := by
    rw [takes.placed, if_pos rfl]
  let open_ : Program := { s with fds := fds, chans := s.chans ++ [c] }
  have closed : ((close fd).exec open_).1 = .ok () := close_ok held
  refine ⟨((close fd).exec open_).2, ?_, ?_⟩
  · rw [files, (close_same open_ fd).1]
    rfl
  · rw [Prog.exec_bind_ok run, ← closed]

theorem newfd_bind_full {β : Type} (s : Program) (c : Opened) (g : Fd → Call β)
    (full : s.fds.room = 0) :
    (newfd c >>= g).exec s = (.error enofd, s) :=
  Prog.exec_bind_error (newfd_full c full)

/-- `create_dir` is right just when it finds nothing to open, unless it can neither cut that nor get
a descriptor of it, and has a descriptor free for what it makes. -/
theorem createDir_right (s : Program) (d : Directory) (path : String) :
    Right (fun t t' => t.leads s.dot (d.join path) = none ∧ t.Kept t') (createDir d path) s ↔
      (∀ p, s.flushed.finds (d.join path) dirPerm = some p →
        s.flushed.fds.room = 0 ∧ s.keeper.cuts p = false) ∧
      ((∃ st parent last next, Makes s.flushed (d.join path) dirPerm st parent last next) →
        s.flushed.fds.room ≠ 0) := by
  rcases flushed_same s with ⟨keeper, dot⟩
  have tree : s.files = s.flushed.files := (flushed_files s).symm
  have run : (createDir d path).exec s =
      (create (d.join path) .oread false dirPerm >>= close).exec s.flushed := rfl
  rcases found : s.flushed.finds (d.join path) dirPerm with _ | p
  · by_cases new : ∃ st parent last next, Makes s.flushed (d.join path) dirPerm st parent last next
    · rcases id new with ⟨st, parent, last, next, makes⟩
      rcases create_makes .oread false makes with ⟨k, made, -, done⟩
      rcases done (by simp) with ⟨c, done⟩
      have whole := run.trans (Prog.exec_bind_congr done close)
      simp only [new, true_implies, reduceCtorEq, false_implies, implies_true, true_and]
      by_cases full : s.flushed.fds.room = 0
      · rw [newfd_bind_full { s.flushed with keeper := k } c close full] at whole
        rw [right_error whole, tree]
        exact iff_of_false made.not_same (by simp [full])
      · rcases newfd_close c { s.flushed with keeper := k } full with ⟨s', left, closed⟩
        rw [closed] at whole
        have absent := makes.leads
        rw [dot] at absent
        rw [right_ok whole, tree, left]
        exact iff_of_true ⟨absent, made.kept⟩ full
    · rcases create_unmade .oread false found fun st parent last next makes =>
        new ⟨st, parent, last, next, makes⟩ with ⟨e, k, same, failed⟩
      rw [right_error (run.trans (Prog.exec_bind_error failed)), tree]
      refine iff_of_true (Files.same_of_eq same) ⟨by simp, fun makes => absurd makes new⟩
  · rcases create_finds .oread found with ⟨c, k, same, done⟩
    have whole := run.trans (Prog.exec_bind_congr done close)
    have new : ¬∃ st parent last next,
        Makes s.flushed (d.join path) dirPerm st parent last next := by
      rintro ⟨st, parent, last, next, makes⟩
      rw [makes.finds] at found
      cases found
    simp only [new, false_implies, and_true, Option.some.injEq, forall_eq']
    by_cases full : s.flushed.fds.room = 0
    · rw [newfd_bind_full { s.flushed with keeper := k } c close full] at whole
      rw [right_error whole, tree, ← keeper]
      change s.flushed.files.Same k.files ↔ _
      rw [same]
      simp [full]
    · rcases newfd_close c { s.flushed with keeper := k } full with ⟨s', left, closed⟩
      rw [closed] at whole
      have there := leads_of_finds found
      rw [dot] at there
      rw [right_ok whole, tree, there]
      exact iff_of_false (by simp) (by simp [full])

/-- What an operation that removes a file of a kind does to the tree. -/
def Removed (dot : Path) (full : String) (dir : Bool) (t t' : Files) : Prop :=
  ∃ p, t.leads dot full = some p ∧ t.isDir p = dir ∧ t.kids p = false ∧ t'.look p = none ∧
    ∀ q, q ≠ p → t'.look q = t.look q

theorem remove_right (s : Program) (full : String) (dir : Bool) :
    Right (Removed s.dot full dir) (flush >>= fun _ => remove full) s ↔
      ∀ p, Removes s.flushed full p → s.files.isDir p = dir := by
  have dot := (flushed_same s).2
  have tree : s.files = s.flushed.files := (flushed_files s).symm
  by_cases some_ : ∃ p, Removes s.flushed full p
  · rcases some_ with ⟨p, removes⟩
    rcases remove_removes removes with ⟨k, erased, done⟩
    have leads := Files.leads_of_resolve removes.resolved
    rw [right_ok (exec_flush.trans done), tree]
    change Removed s.dot full dir s.flushed.files k.files ↔ _
    rw [erased, ← dot]
    constructor
    · rintro ⟨q, there, kind, -⟩ r removes'
      have same := leads.symm.trans there
      have same' := leads.symm.trans (Files.leads_of_resolve removes'.resolved)
      rcases Option.some.inj same with rfl
      rcases Option.some.inj same' with rfl
      exact kind
    · intro kind
      exact ⟨p, leads, kind p removes, removes.empty, Files.look_erase_self,
        fun q other => Files.look_erase_of_ne other⟩
  · have not : ∀ p, ¬Removes s.flushed full p := fun p removes => some_ ⟨p, removes⟩
    rcases remove_keeps not with ⟨e, k, same, failed⟩
    rw [right_error (exec_flush.trans failed), tree]
    exact iff_of_true (Files.same_of_eq same) fun p removes => absurd removes (not p)

theorem removeDir_right (s : Program) (d : Directory) (path : String) :
    Right (Removed s.dot (d.join path) true) (removeDir d path) s ↔
      ∀ p, Removes s.flushed (d.join path) p → s.files.isDir p = true :=
  remove_right s (d.join path) true

theorem unlinkFile_right (s : Program) (d : Directory) (path : String) :
    Right (Removed s.dot (d.join path) false) (unlinkFile d path) s ↔
      ∀ p, Removes s.flushed (d.join path) p → s.files.isDir p = false :=
  remove_right s (d.join path) false

/-- Whether a name is one of a file to be made. -/
def makes (s : Program) (full : String) (perm : UInt32) : Prop :=
  ∃ st parent last next, Makes s full perm st parent last next

/-- What is not to be done of an open: a file is made that is not got, or one is cut. -/
def Spoils (s : Program) (full : String) (o : OFlags) : Prop :=
  (o.create = true ∧ o.exclusive = true ∧ s.makes full 0o666 ∧
    (s.keeper.asked.refuses = true ∨ s.fds.room = 0)) ∨
  (¬(o.create = true ∧ o.exclusive = true) ∧ o.truncate = true ∧ s.fds.room = 0 ∧
    ∃ p, s.files.resolve s.dot full = .ok p ∧ s.keeper.cuts p = true) ∨
  (o.create = true ∧ ¬o.exclusive = true ∧ s.makes full 0o666 ∧ s.fds.room = 0 ∧
    ∃ e, s.files.resolve s.dot full = .error e ∧ errno e = .noent)

/-- What an open does of the files there were: it cuts one only if that was asked for. -/
def Cuts (trunc : Bool) (t t' : Files) : Prop := trunc = false → t.Kept t'

/-- What ends in a new descriptor is right by what it did before, whether there is one free or
not. -/
theorem newfd_right {m : Call Fd} (c : Opened) (k : Keeper)
    (run : m.exec s = (newfd c).exec { s with keeper := k }) :
    Right did m s ↔
      (s.fds.room = 0 → s.files.Same k.files) ∧ (s.fds.room ≠ 0 → did s.files k.files) := by
  by_cases full : s.fds.room = 0
  · rw [right_error (run.trans (newfd_full c full))]
    simp only [full, true_implies, ne_eq, not_true_eq_false, false_implies, and_true]
    rfl
  · rcases newfd_free (s := { s with keeper := k }) c full with ⟨fd, fds, -, done⟩
    rw [right_ok (run.trans done)]
    simp only [full, false_implies, ne_eq, not_false_eq_true, true_implies, true_and]
    rfl

theorem opened_right (s : Program) (full : String) (mode : Mode) (trunc : Bool) :
    Right (Cuts trunc) (opened full mode trunc) s ↔
      ¬(trunc = true ∧ s.fds.room = 0 ∧
        ∃ p, s.files.resolve s.dot full = .ok p ∧ s.keeper.cuts p = true) := by
  rcases resolved : s.files.resolve s.dot full with e | p
  · rw [right_error (opened_error resolved)]
    exact iff_of_true (Files.same_of_eq rfl) (by simp)
  · rcases resolve_start resolved with ⟨st, begun⟩
    rcases there : s.files.look p with _ | n
    · have failed := (opened_ok begun resolved).trans (named_error (openit_none mode trunc there))
      rw [right_error failed]
      refine iff_of_true (Files.same_of_eq rfl) ?_
      rintro ⟨-, -, q, same, cuts⟩
      cases same
      rw [Keeper.cuts, Files.view, show s.keeper.files.look p = none from there] at cuts
      simp at cuts
    · rcases openit_some mode trunc there with ⟨k, done, plain, same⟩
      rw [newfd_right _ k ((opened_ok begun resolved).trans (named_ok done)), same]
      constructor
      · rintro ⟨left, -⟩ ⟨asked, full, q, this_, cuts⟩
        cases this_
        exact left full ⟨asked, cuts⟩
      · intro not
        refine ⟨fun full both => not ⟨both.1, full, p, rfl, both.2⟩, fun _ uncut => ?_⟩
        rw [plain uncut]
        exact (Files.same_of_eq rfl).kept

theorem create_right {excl : Bool} {mode : Mode} {trunc : Bool}
    (found : s.finds full 0o666 = none) :
    Right (Cuts trunc) (create full mode excl 0o666) s ↔
      ¬(s.makes full 0o666 ∧ (excl = true ∧ s.keeper.asked.refuses = true ∨ s.fds.room = 0)) := by
  by_cases new : s.makes full 0o666
  · rcases id new with ⟨st, parent, last, next, makes⟩
    rcases create_makes mode excl makes with ⟨k, made, refused, done⟩
    simp only [new, true_and]
    by_cases after : excl = true ∧ s.keeper.asked.refuses = true
    · rcases refused after with ⟨e, failed⟩
      rw [right_error failed]
      exact iff_of_false made.not_same (by simp [after])
    · rcases done after with ⟨c, done⟩
      rw [newfd_right c k done]
      simp only [after, false_or]
      constructor
      · rintro ⟨same, -⟩ full
        exact made.not_same (same full)
      · exact fun free => ⟨fun full => absurd full free, fun _ _ => made.kept⟩
  · rcases create_unmade mode excl found fun st parent last next makes =>
      new ⟨st, parent, last, next, makes⟩ with ⟨e, k, same, failed⟩
    rw [right_error failed]
    exact iff_of_true (Files.same_of_eq same) fun both => new both.1

theorem createExcl_right (s : Program) (full : String) (mode : Mode) (trunc : Bool) :
    Right (Cuts trunc) (create full mode true 0o666) s ↔
      ¬(s.makes full 0o666 ∧ (s.keeper.asked.refuses = true ∨ s.fds.room = 0)) := by
  rcases found : s.finds full 0o666 with _ | p
  · rw [create_right found]
    simp
  · rcases create_exists mode found with ⟨e, failed⟩
    rw [right_error failed]
    refine iff_of_true (Files.same_of_eq rfl) ?_
    rintro ⟨⟨st, parent, last, next, makes⟩, -⟩
    rw [makes.finds] at found
    cases found

theorem errno_enofd : errno enofd ≠ .noent := by decide +kernel

theorem openNew_ok {mode : Mode} {trunc : Bool} {fd : Fd}
    (done : (opened full mode trunc).exec s = (.ok fd, s')) :
    (openNew full mode trunc).exec s = (.ok fd, s') :=
  Prog.exec_catching_ok done

theorem openNew_error {mode : Mode} {trunc : Bool}
    (failed : (opened full mode trunc).exec s = (.error e, s'))
    (other : errno e ≠ .noent) : (openNew full mode trunc).exec s = (.error e, s') := by
  rw [openNew, Prog.exec_catching_error failed, if_neg other]
  rfl

theorem openNew_noent {mode : Mode} {trunc : Bool}
    (failed : (opened full mode trunc).exec s = (.error e, s'))
    (is : errno e = .noent) :
    (openNew full mode trunc).exec s = (create full mode false 0o666).exec s' := by
  rw [openNew, Prog.exec_catching_error failed, if_pos is]

theorem not_makes (resolved : s.files.resolve s.dot full = .ok p) : ¬s.makes full 0o666 := by
  rintro ⟨st, parent, last, next, makes⟩
  cases makes.leads.symm.trans (Files.leads_of_resolve resolved)

theorem openNew_right (s : Program) (full : String) (mode : Mode) (trunc : Bool) :
    Right (Cuts trunc) (openNew full mode trunc) s ↔
      ¬(trunc = true ∧ s.fds.room = 0 ∧
          ∃ p, s.files.resolve s.dot full = .ok p ∧ s.keeper.cuts p = true) ∧
        ¬(s.makes full 0o666 ∧ s.fds.room = 0 ∧
          ∃ e, s.files.resolve s.dot full = .error e ∧ errno e = .noent) := by
  rcases resolved : s.files.resolve s.dot full with e | p
  · have failed : (opened full mode trunc).exec s = (.error e, s) := opened_error resolved
    simp only [reduceCtorEq, false_and, exists_false, and_false, not_false_eq_true, true_and,
      Except.error.injEq, exists_eq_left']
    by_cases is : errno e = .noent
    · have found : s.finds full 0o666 = none := finds_of_resolve_error resolved (by decide)
      rw [right_congr (openNew_noent failed is), create_right found]
      simp [is]
    · rw [right_error (openNew_error failed is)]
      exact iff_of_true (Files.same_of_eq rfl) fun all => is all.2.2
  · have unmade := not_makes resolved
    rcases resolve_start resolved with ⟨st, begun⟩
    simp only [unmade, false_and, not_false_eq_true, and_true]
    rw [← resolved, ← opened_right s full mode trunc]
    rcases there : s.files.look p with _ | n
    · have failed := (opened_ok begun resolved).trans (named_error (openit_none mode trunc there))
      rw [right_error failed]
      refine iff_of_true ?_ (Files.same_of_eq rfl)
      by_cases is : errno (st.all Name.enonexist) = .noent
      · have found : s.finds full 0o666 = none := by
          rcases found : s.finds full 0o666 with _ | q
          · rfl
          · cases (leads_of_finds found).symm.trans (Files.leads_of_resolve resolved)
            rcases look_of_finds found with ⟨n, some_⟩
            cases there.symm.trans some_
        rw [right_congr (openNew_noent failed is), create_right found]
        exact fun both => unmade both.1
      · rw [right_error (openNew_error failed is)]
        exact Files.same_of_eq rfl
    · rcases openit_some mode trunc there with ⟨k, done, -, -⟩
      have run := (opened_ok begun resolved).trans (named_ok done)
      by_cases full_ : s.fds.room = 0
      · have failed := run.trans (newfd_full (s := { s with keeper := k }) _ full_)
        rw [right_error failed, right_error (openNew_error failed errno_enofd)]
      · rcases newfd_free (s := { s with keeper := k }) _ full_ with ⟨fd, fds, -, got⟩
        have whole := run.trans got
        rw [right_ok whole, right_ok (openNew_ok whole)]

theorem openFd_right (s : Program) (full : String) (o : OFlags) (mode : Mode) :
    Right (Cuts o.truncate) (openFd full o mode) s ↔ ¬s.Spoils full o := by
  rcases o with ⟨creates, directory, exclusive, trunc⟩
  rw [Spoils]
  rcases creates with _ | _
  · rw [openFd]
    simpa using opened_right s full mode trunc
  · rcases exclusive with _ | _
    · have same : openFd full ⟨true, directory, false, trunc⟩ mode = openNew full mode trunc := rfl
      rw [same, openNew_right]
      simp [not_or]
    · have same : openFd full ⟨true, directory, true, trunc⟩ mode =
          create full mode true 0o666 := rfl
      rw [same, createExcl_right]
      simp

theorem right_bind {β : Type} {g : α → Call β}
    (quiet : ∀ a s, ∃ b s', (g a).exec s = (.ok b, s') ∧ s'.files = s.files) :
    Right did (m >>= g) s ↔ Right did m s := by
  rcases run : m.exec s with ⟨e | a, s'⟩
  · rw [right_error run, right_error (Prog.exec_bind_error run)]
  · rcases quiet a s' with ⟨b, s'', done, same⟩
    rw [right_ok run, right_ok ((Prog.exec_bind_ok run).trans done), same]

theorem result_quiet (full : String) (append : Bool) (fd : Fd) (s : Program) :
    ∃ b s', (result full append fd).exec s = (.ok b, s') ∧ s'.files = s.files := by
  have run : (kind fd).exec s =
      (.ok (((s.chan fd).bind fun c => s.files.look c.path).any (·.dir)), s) := rfl
  rw [result, Prog.exec_bind_ok run]
  split_ifs
  · exact ⟨.dir ⟨full⟩, { s with closing := s.closing ++ [fd] }, rfl, rfl⟩
  · exact ⟨.file fd append, s, rfl, rfl⟩

theorem stat_same (s : Program) (name : String) : ((stat name).exec s).2 = s := by
  rw [stat, Prog.exec_bind_ok (Prog.exec_get s)]
  rcases resolved : s.files.resolve s.dot name with e | p
  · rw [Prog.exec_bind_error (exec_of _ s)]
  · rw [Prog.exec_bind_ok (exec_of _ s)]
    rcases s.files.look p with _ | n
    · rfl
    · rfl

theorem right_of_same (reflexive : ∀ t, did t t) (same : (m.exec s).2.files = s.files) :
    Right did m s := by
  rcases run : m.exec s with ⟨e | a, s'⟩
  · rw [run] at same
    exact (right_error run).2 (Files.same_of_eq same)
  · rw [run] at same
    rw [right_ok run, show s'.files = s.files from same]
    exact reflexive s.files

theorem openDir_same (s : Program) (full : String) : ((openDir full).exec s).2.files = s.files := by
  have left := stat_same s.flushed full
  rcases run : (stat full).exec s.flushed with ⟨e | n, s'⟩
  · rw [run] at left
    have failed : (statDir full).exec s = (.error e, s') := run
    rw [openDir, Prog.exec_bind_error failed, ← flushed_files s, ← left]
  · rw [run] at left
    have done : (statDir full).exec s = (.ok n, s') := run
    rw [openDir, Prog.exec_bind_ok done, ← flushed_files s, ← left]
    split_ifs
    · rfl
    · rfl

/-- `open_file` is right just when it is asked for a directory, or spoils nothing. -/
theorem openFile_right (s : Program) (d : Directory) (path : String) (o : OFlags)
    (read write append : Bool) :
    Right (Cuts o.truncate) (openFile d path o read write append) s ↔
      (o.directory = true ∨ ¬s.flushed.Spoils (d.join path) o) := by
  have flushed : ∀ {m : Call OpenResult},
      Right (Cuts o.truncate) (flush >>= fun _ => m) s ↔ Right (Cuts o.truncate) m s.flushed := by
    intro m
    rw [Right, Right, Prog.Ends, Prog.Ends, exec_flush, flushed_files]
  rw [openFile, flushed]
  rcases asked : o.directory with _ | _
  · simp only [Bool.false_eq_true, if_false, false_or]
    rw [right_bind (result_quiet (d.join path) append), openFd_right]
  · simp only [if_true, true_or, iff_true]
    apply right_of_same
    · exact fun t _ => (Files.same_of_eq rfl).kept
    · exact openDir_same s.flushed (d.join path)

/-- The operations on names are right just so: `create_dir` where it finds nothing to open (or can
neither cut it nor get a descriptor of it) and has a descriptor for what it makes; `remove_dir` and
`unlink_file` where what they remove is of their kind; and `open_file` where it is asked for a
directory, or spoils nothing. -/
theorem names_right_iff (s : Program) (d : Directory) (path : String) (o : OFlags)
    (read write append : Bool) :
    (Right (fun t t' => t.leads s.dot (d.join path) = none ∧ t.Kept t') (createDir d path) s ↔
      (∀ p, s.flushed.finds (d.join path) dirPerm = some p →
        s.flushed.fds.room = 0 ∧ s.keeper.cuts p = false) ∧
      (s.flushed.makes (d.join path) dirPerm → s.flushed.fds.room ≠ 0)) ∧
    (Right (Removed s.dot (d.join path) true) (removeDir d path) s ↔
      ∀ p, Removes s.flushed (d.join path) p → s.files.isDir p = true) ∧
    (Right (Removed s.dot (d.join path) false) (unlinkFile d path) s ↔
      ∀ p, Removes s.flushed (d.join path) p → s.files.isDir p = false) ∧
    (Right (Cuts o.truncate) (openFile d path o read write append) s ↔
      (o.directory = true ∨ ¬s.flushed.Spoils (d.join path) o)) :=
  ⟨createDir_right s d path, removeDir_right s d path, unlinkFile_right s d path,
    openFile_right s d path o read write append⟩

def letter : Files where
  look p := if p = [] then some ⟨true, 0o755, 0, 0, []⟩
    else if p = ["letter"] then some ⟨false, 0o644, 0, 0, [65]⟩ else none
  names := [[], ["letter"]]
  covers p there := by
    split_ifs at there with root file
    · simp [root]
    · simp [file]
    · exact absurd rfl there
  rooted p below there := by
    rw [if_neg below] at there
    split_ifs at there with file
    · simp [file]
    · exact absurd rfl there

def fresh : Program := ⟨⟨letter, 7, 0o022, []⟩, [], .empty, [], []⟩

/-- A directory made where a file is: that is done, and what was in the file is not there. -/
theorem createDir_cuts : ¬∀ (s : Program) (d : Directory) (path : String),
    Right (fun t t' => t.leads s.dot (d.join path) = none ∧ t.Kept t') (createDir d path) s := by
  intro right
  have done : ((createDir ⟨"/"⟩ "letter").exec fresh).1.toOption = some () := by decide
  have left : ((createDir ⟨"/"⟩ "letter").exec fresh).2.files.view ["letter"] =
      some (false, []) := by
    decide
  have promised := right fresh ⟨"/"⟩ "letter"
  rcases run : (createDir ⟨"/"⟩ "letter").exec fresh with ⟨e | _, s'⟩
  · rw [run] at done
    cases done
  · rw [run] at left
    rw [right_ok run] at promised
    cases (promised.2 ["letter"] [65] rfl).symm.trans left

end Program

end Ipnx.Wasi
