import Ipnx.Host.Looks
import Ipnx.Lib.Names

/-!
# A fid over a tree of files

The keeper here is a tree: a path names a file, and what is read, written or removed by a path is
the file it names. Every session also remembers which file each fid was walked to or created as.
As long as no rename moves a path that another fid's path begins with, each fid's path is where
its file is.
-/

namespace Ipnx.Host

open Ipnx.Ninep (W R Msg T Turn)
open Function (update update_apply update_of_ne update_self)
open Prog (exec_bind_ok exec_get)

def Deed.Does {I : Type} : Deed → Names Component I → Names Component I → Prop
  | .nothing => Names.Same
  | .made p => Names.Made p
  | .removed p => Names.Removed p
  | .renamed p q => Names.Renamed p q

/-- A tree of files: paths name files, and a file's own calls leave the names alone. -/
structure Volume (B I : Type) where
  names : B → Names Component I
  stat : B → I → Meta
  list : B → I → List String
  read : B → I → UInt64 → Nat → Except String Bytes
  write : B → I → UInt64 → Bytes → Except String Unit × B
  truncate : B → I → UInt64 → Except String Unit × B
  chmod : B → I → UInt32 → Except String Unit × B
  touch : B → I → UInt32 → Except String Unit × B
  mkdir : B → Path → UInt32 → Except String Unit × B
  mkfile : B → Path → UInt32 → Except String Unit × B
  rename : B → Path → Path → Except String Unit × B
  remove : B → Path → Except String Unit × B
  write_names : ∀ b i off data, names (write b i off data).2 = names b
  truncate_names : ∀ b i len, names (truncate b i len).2 = names b
  chmod_names : ∀ b i perm, names (chmod b i perm).2 = names b
  touch_names : ∀ b i mtime, names (touch b i mtime).2 = names b
  mkdir_names : ∀ b p perm,
    ((Deed.made p).of (mkdir b p perm).1).Does (names b) (names (mkdir b p perm).2)
  mkfile_names : ∀ b p perm,
    ((Deed.made p).of (mkfile b p perm).1).Does (names b) (names (mkfile b p perm).2)
  rename_names : ∀ b p q,
    ((Deed.renamed p q).of (rename b p q).1).Does (names b) (names (rename b p q).2)
  remove_names : ∀ b p,
    ((Deed.removed p).of (remove b p).1).Does (names b) (names (remove b p).2)

namespace Volume

variable {B I : Type} (v : Volume B I)

def enonexist : String := "file does not exist"

def change (b : B) (p : Path) (call : I → Except String Unit × B) : Except String Unit × B :=
  match (v.names b).find p with
  | some i => call i
  | none => (.error enonexist, b)

def backend : Backend B where
  stat b p := (((v.names b).find p).map (v.stat b), b)
  list b p := ((((v.names b).find p).map (v.list b)).getD [], b)
  read b p off n :=
    (match (v.names b).find p with
      | some i => v.read b i off n
      | none => .error enonexist, b)
  write b p off data := v.change b p fun i => v.write b i off data
  truncate b p len := v.change b p fun i => v.truncate b i len
  chmod b p perm := v.change b p fun i => v.chmod b i perm
  touch b p mtime := v.change b p fun i => v.touch b i mtime
  mkdir := v.mkdir
  mkfile := v.mkfile
  rename := v.rename
  remove := v.remove

theorem same_of_eq {n n' : Names Component I} (eq : n' = n) : n.Same n' := by
  rw [eq]
  exact ⟨rfl, rfl⟩

theorem change_same {b : B} {p : Path} {call : I → Except String Unit × B}
    (same : ∀ i, v.names (call i).2 = v.names b) :
    (v.names b).Same (v.names (v.change b p call).2) := by
  rw [change]
  rcases (v.names b).find p with _ | i
  · exact ⟨rfl, rfl⟩
  · exact same_of_eq (same i)

theorem does_before {x : Deed} {n₀ n n' : Names Component I} (same : n₀.Same n)
    (does : x.Does n n') :
    x.Does n₀ n' := by
  rcases same with ⟨find, used⟩
  cases x <;> simpa only [Deed.Does, Names.Same, Names.Made, Names.Removed, Names.Renamed, find,
    used] using does

theorem does_after {x : Deed} {n n' n₁ : Names Component I} (does : x.Does n n')
    (same : n'.Same n₁) :
    x.Does n n₁ := by
  rcases same with ⟨find, used⟩
  cases x <;> simpa only [Deed.Does, Names.Same, Names.Made, Names.Removed, Names.Renamed, find,
    used] using does

/-- What is known of the names across a deed. -/
def deeds : v.backend.Deeds where
  holds x b b' := x.Does (v.names b) (v.names b')
  refl _ := ⟨rfl, rfl⟩
  before := does_before
  after := does_after
  stat _ _ := ⟨rfl, rfl⟩
  list _ _ := ⟨rfl, rfl⟩
  read _ _ _ _ := ⟨rfl, rfl⟩
  write b _ off data := v.change_same fun i => v.write_names b i off data
  truncate b _ len := v.change_same fun i => v.truncate_names b i len
  chmod b _ perm := v.change_same fun i => v.chmod_names b i perm
  touch b _ mtime := v.change_same fun i => v.touch_names b i mtime
  mkdir := v.mkdir_names
  mkfile := v.mkfile_names
  rename := v.rename_names
  remove := v.remove_names

/-- The fid a reply binds: an attach's, a walk's new one when the walk is whole, or a create's. -/
def bound (m : Msg) (r : UInt8 × Bytes) : Option UInt32 :=
  if r.1 = T.attach.reply then m.fid
  else if r.1 = T.walk.reply then
    m.walks.bind fun w => if (R.u16.on r.2).1 = some w.2.2 then some w.2.1 else none
  else if r.1 = T.create.reply then m.creates.map Prod.fst
  else none

/-- A server, and the file each fid was walked to or created as. -/
structure Session (B I : Type) where
  store : Store (Kept B)
  who : UInt32 → Option I

def found (s : Store (Kept B)) (fid : UInt32) : Option I :=
  (s.fids fid).bind fun f => (v.names s.files.1).find f.path

def send (t : Session B I) (b : Bytes) : Session B I :=
  match Ninep.unframe b with
  | none => t
  | some m =>
      let r := (Store.serve v.backend.renaming m).exec t.store
      ⟨r.2, fun fid =>
        if bound m (Store.answer r.1) = some fid then v.found r.2 fid
        else (r.2.fids fid).bind fun _ => t.who fid⟩

def sessions (files : B) : System (Session B I) Bytes where
  init t := t = ⟨Store.new (files, []), fun _ => none⟩
  step t b t' := t' = v.send t b

/-- A rename the message makes moves no path that the path of another fid begins with, if the
other's file is still there. -/
def Clear (t : Session B I) (b : Bytes) : Prop :=
  ∀ m p q, Ninep.unframe b = some m →
    (v.send t b).store.files.2 = t.store.files.2 ++ [(p, q)] →
    ∀ fid f i, m.fid ≠ some fid → t.store.fids fid = some f → t.who fid = some i →
      (v.names t.store.files.1).Live i → ¬p <+: f.path

/-- A read's or a write's fid, its offset and its count. -/
def ioArgs : R (UInt32 × UInt64 × UInt32) := do
  let fid ← R.u32
  let off ← R.u64
  let count ← R.u32
  pure (fid, off, count)

/-- What is read of a file: the entries of a directory, or its bytes. -/
def contents (i : I) (f : Fid) (off : UInt64) (count : UInt32) (b : B) :
    Store.Serve (Kept B) Bytes :=
  if (v.stat b i).dir then
    Store.entries v.backend.renaming f.path off count
      ((v.list b i).mergeSort fun n n' => decide (n ≤ n')) 0 []
  else Prog.of (v.read b i off (min count (msizeMax - 24)).toNat)

/-- The fid's path names the file, and what is asked by the fid is asked of the file: its stat, its
reads, its writes when the fid is open for them, and its removal, there and then or at the clunk. -/
structure Reaches (s : Store (Kept B)) (fid : UInt32) (f : Fid) (i : I) : Prop where
  find : (v.names s.files.1).find f.path = some i
  stat : ∀ m, m.ty = T.stat.code → m.fid = some fid →
    ∃ d : Ninep.Dir, d.qid = stat2qid (v.stat s.files.1 i) ∧ d.length = (v.stat s.files.1 i).len ∧
      (Store.serve v.backend.renaming m).exec s =
        (.ok (T.stat.reply, (W.new.u16 (.ofNat d.convD2M.length)).raw d.convD2M), s)
  read : ∀ m off count rest, m.ty = T.read.code →
    ioArgs.on m.body = (some (fid, off, count), rest) →
    (Store.serve v.backend.renaming m).exec s = (do
      let data ← v.contents i f off count s.files.1
      pure (T.read.reply, (W.new.u32 (.ofNat data.length)).raw data) : Store.Serve _ _).exec s
  write : ∀ m off count rest, m.ty = T.write.code →
    ioArgs.on m.body = (some (fid, off, count), rest) → f.isOpen → f.mode &&& 3 ≠ 0 →
    let data := rest.take count.toNat
    let r := v.write s.files.1 i off data
    (Store.serve v.backend.renaming m).exec s =
      (r.1.map fun _ => (T.write.reply, W.new.u32 (.ofNat data.length)),
        { s with files := (r.2, s.files.2) })
  remove : ∀ m r s', m.ty = T.remove.code → m.fid = some fid →
    (Store.serve v.backend.renaming m).exec s = (.ok r, s') → ¬(v.names s'.files.1).Live i
  clunk : ∀ m, m.ty = T.clunk.code → m.fid = some fid → f.isOpen → f.mode &&& orclose ≠ 0 →
    (v.remove s.files.1 f.path).1 = .ok () →
    ¬(v.names ((Store.serve v.backend.renaming m).exec s).2.files.1).Live i

variable {v}

theorem looks (v : Volume B I) : v.backend.renaming.Looks := ⟨fun _ _ => rfl, fun _ _ => rfl⟩

section Reaches

variable {s : Store (Kept B)} {fid : UInt32} {f : Fid} {i : I} {m : Msg} {b rest : Bytes}
  {off : UInt64} {count : UInt32}

theorem found_of_find (normal : f.path.Normal)
    (find : (v.names s.files.1).find f.path = some i) :
    Store.found v.backend.renaming s f.path = some (v.stat s.files.1 i) := by
  rw [Store.found, real_of_normal normal, Option.bind_some]
  change ((v.names s.files.1).find f.path).map _ = _
  rw [find, Option.map_some]

theorem gone_of_removed {b : B} {p : Path} (find : (v.names b).find p = some i)
    (done : (v.remove b p).1 = .ok ()) : ¬(v.names (v.remove b p).2).Live i := by
  rintro ⟨q, there⟩
  have does := v.remove_names b p
  rw [done] at does
  have same := (Names.at_of_find find).removed does
  have here := same.2 q there
  rw [here] at there
  rw [does.1, update_self] at there
  cases there

theorem exec_lookup (there : s.fids fid = some f) :
    (Store.lookup fid : Store.Serve (Kept B) _).exec s = (.ok f, s) := by
  rw [Store.lookup, exec_bind_ok (exec_get s), there]
  rfl

theorem exec_parse {α : Type} {r : R α} {a : α} (e : String) (read : r.on b = (some a, rest)) :
    (Store.parse r b e : Store.Serve (Kept B) _).exec s = (.ok (a, rest), s) := by
  rw [Store.parse, read]
  rfl

theorem on_fid (args : m.fid = some fid) : ∃ rest, R.u32.on m.body = (some fid, rest) :=
  ⟨_, Prod.ext args rfl⟩

theorem exec_statOr (normal : f.path.Normal) (find : (v.names s.files.1).find f.path = some i)
    (e : String) : (Store.statOr v.backend.renaming f.path e).exec s =
      (.ok (v.stat s.files.1 i), s) := by
  rw [Store.statOr, exec_bind_ok (Store.exec_stat v.looks s f.path),
    found_of_find normal find]
  rfl

theorem exec_ask {α : Type} (call : Kept B → α × Kept B) :
    (Store.ask call).exec s = (.ok (call s.files).1, { s with files := (call s.files).2 }) := rfl

theorem exec_must {α : Type} (call : Kept B → Except String α × Kept B) :
    (Store.must call).exec s = ((call s.files).1, { s with files := (call s.files).2 }) := by
  rw [Store.must, exec_bind_ok (exec_ask call)]
  rcases (call s.files).1 with e | a
  · rfl
  · rfl

theorem exec_tell {α : Type} (call : Kept B → α × Kept B) :
    (Store.tell call).exec s = (.ok (), { s with files := (call s.files).2 }) := rfl

theorem exec_dirof (normal : f.path.Normal) (find : (v.names s.files.1).find f.path = some i)
    (name : String) : ∃ d : Ninep.Dir,
      (Store.dirof v.backend.renaming f.path name).exec s = (.ok (some d), s) ∧
        d.qid = stat2qid (v.stat s.files.1 i) ∧ d.length = (v.stat s.files.1 i).len := by
  rw [Store.dirof, exec_bind_ok (Store.exec_stat v.looks s f.path),
    found_of_find normal find]
  exact ⟨_, rfl, rfl, rfl⟩

theorem exec_contents (find : (v.names s.files.1).find f.path = some i) :
    (Store.contents v.backend.renaming f.path (v.stat s.files.1 i).dir off count).exec s =
      (v.contents i f off count s.files.1).exec s := by
  rw [Store.contents, contents]
  split_ifs
  · rw [exec_bind_ok (exec_ask _)]
    simp only [Backend.renaming, backend, find, Option.map_some, Option.getD_some]
  · rw [exec_must]
    simp only [Backend.renaming, backend, find]
    rfl

variable (there : s.fids fid = some f) (find : (v.names s.files.1).find f.path = some i)

include there find

theorem reaches_write (ty : m.ty = T.write.code)
    (args : ioArgs.on m.body = (some (fid, off, count), rest)) (opened : f.isOpen)
    (mode : f.mode &&& 3 ≠ 0) :
    (Store.serve v.backend.renaming m).exec s =
      ((v.write s.files.1 i off (rest.take count.toNat)).1.map fun _ =>
          (T.write.reply, W.new.u32 (.ofNat (rest.take count.toNat).length)),
        { s with files := ((v.write s.files.1 i off (rest.take count.toNat)).2, s.files.2) }) := by
  have may : ¬(!f.isOpen ∨ f.mode &&& 3 = 0) := by simp [opened, mode]
  have written : (Store.must (v.backend.renaming.write · f.path off
      (rest.take count.toNat))).exec s =
      ((v.write s.files.1 i off (rest.take count.toNat)).1,
        { s with files := ((v.write s.files.1 i off (rest.take count.toNat)).2, s.files.2) }) := by
    rw [exec_must]
    simp only [Backend.renaming, backend, change, find]
  rw [ioArgs] at args
  rw [Store.serve_write ty, Store.write, exec_bind_ok (exec_parse _ args),
    exec_bind_ok (exec_lookup there)]
  rw [Store.refuse, if_neg may, exec_bind_ok (Prog.exec_pure _ s), Prog.exec_bind, written]
  rcases v.write s.files.1 i off (rest.take count.toNat) with ⟨e | a, b'⟩
  · rfl
  · rfl

theorem reaches_remove {r : UInt8 × W} {s' : Store (Kept B)} (ty : m.ty = T.remove.code)
    (args : m.fid = some fid)
    (done : (Store.serve v.backend.renaming m).exec s = (.ok r, s')) :
    ¬(v.names s'.files.1).Live i := by
  rcases on_fid args with ⟨rest, read⟩
  have served : Store.serve v.backend.renaming m = Store.remove v.backend.renaming m.body := by
    rw [Store.serve, ty]
    rfl
  rw [served, Store.remove, exec_bind_ok (exec_parse _ read),
    exec_bind_ok (exec_lookup there), exec_bind_ok (Prog.exec_modify _ s),
    Prog.exec_bind, exec_must] at done
  rcases removed : (v.backend.renaming.remove s.files f.path).1 with e | _
  · rw [show (v.backend.renaming.remove (s.erase fid).files f.path).1 = _ from removed] at done
    cases done
  · rw [show (v.backend.renaming.remove (s.erase fid).files f.path).1 = _ from removed] at done
    cases done
    exact gone_of_removed find removed

theorem reaches_clunk (ty : m.ty = T.clunk.code) (args : m.fid = some fid) (opened : f.isOpen)
    (mode : f.mode &&& orclose ≠ 0) (removed : (v.remove s.files.1 f.path).1 = .ok ()) :
    ¬(v.names ((Store.serve v.backend.renaming m).exec s).2.files.1).Live i := by
  have served : Store.serve v.backend.renaming m = Store.clunk v.backend.renaming m.body := by
    rw [Store.serve, ty]
    rfl
  rw [served, Store.clunk, exec_bind_ok (exec_get s),
    show (R.u32.on m.body).1 = some fid from args]
  dsimp only
  rw [exec_bind_ok (Prog.exec_modify _ s), there, Store.letgo, Store.onlyIf,
    if_pos ⟨opened, mode⟩, exec_bind_ok (exec_tell _)]
  exact gone_of_removed find removed

variable (normal : f.path.Normal)

include normal

theorem reaches_stat (ty : m.ty = T.stat.code) (args : m.fid = some fid) :
    ∃ d : Ninep.Dir, d.qid = stat2qid (v.stat s.files.1 i) ∧ d.length = (v.stat s.files.1 i).len ∧
      (Store.serve v.backend.renaming m).exec s =
        (.ok (T.stat.reply, (W.new.u16 (.ofNat d.convD2M.length)).raw d.convD2M), s) := by
  rcases on_fid args with ⟨rest, read⟩
  rcases exec_dirof (f := f) normal find (f.path.fileName.getD "/") with ⟨d, found, qid, len⟩
  refine ⟨d, qid, len, ?_⟩
  have served : Store.serve v.backend.renaming m = Store.tstat v.backend.renaming m.body := by
    rw [Store.serve, ty]
    rfl
  rw [served, Store.tstat, exec_bind_ok (exec_parse _ read),
    exec_bind_ok (exec_lookup there), exec_bind_ok found]
  rfl

theorem reaches_read (ty : m.ty = T.read.code)
    (args : ioArgs.on m.body = (some (fid, off, count), rest)) :
    (Store.serve v.backend.renaming m).exec s = (do
      let data ← v.contents i f off count s.files.1
      pure (T.read.reply, (W.new.u32 (.ofNat data.length)).raw data) : Store.Serve _ _).exec s := by
  rw [ioArgs] at args
  rw [Store.serve_read ty, Store.read, exec_bind_ok (exec_parse _ args),
    exec_bind_ok (exec_lookup there), exec_bind_ok (exec_statOr normal find _)]
  exact Prog.exec_bind_congr (exec_contents find) _

theorem reaches : v.Reaches s fid f i where
  find := find
  stat _ := reaches_stat there find normal
  read _ _ _ _ := reaches_read there find normal
  write _ _ _ _ := reaches_write there find
  remove _ _ _ := reaches_remove there find
  clunk _ := reaches_clunk there find

end Reaches

variable {t : Session B I} {m : Msg} {s s' : Store (Kept B)} {n n' : Names Component I}

/-- Each fid's path is where its file is, if its file is anywhere. -/
def Named (v : Volume B I) (t : Session B I) : Prop :=
  ∀ fid i, t.who fid = some i → ∃ f, t.store.fids fid = some f ∧
    (v.names t.store.files.1).At f.path i

theorem turn_path {r : UInt8 × Bytes} {renames : List (Path × Path)} {tab tab' : Ninep.Fids Path}
    (turn : Turn Store.named m (some r) renames tab tab') {fid : UInt32} {e' : Ninep.Named Path}
    (there : tab' fid = some e') : bound m r = some fid ∨ ∃ e, tab fid = some e ∧
      (e.file = e'.file ∧ (renames ≠ [] → m.fid ≠ some fid) ∨ renames = [(e.file, e'.file)]) := by
  have other {fid' : UInt32} {o : Option (Ninep.Named Path)} (differs : fid ≠ fid')
      (there : update tab fid' o fid = some e') : tab fid = some e' := by
    rwa [update_of_ne differs] at there
  have kept (old : tab fid = some e') : ∃ e, tab fid = some e ∧
      (e.file = e'.file ∧ (([] : List (Path × Path)) ≠ [] → m.fid ≠ some fid) ∨
        [] = [(e.file, e'.file)]) :=
    ⟨e', old, Or.inl ⟨rfl, fun none_ => absurd rfl none_⟩⟩
  cases turn with
  | version => cases there
  | @attach _ _ fid' _ _ args =>
      by_cases same : fid = fid'
      · left
        rw [bound, if_pos rfl, args, same]
      · exact Or.inr (kept (other same there))
  | @walk _ body _ newfid _ _ _ _ args _ count =>
      by_cases same : fid = newfid
      · left
        rw [bound, if_neg (by decide : ¬T.walk.reply = T.attach.reply), if_pos rfl, args, same]
        exact if_pos count
      · exact Or.inr (kept (other same there))
  | stopped => exact Or.inr (kept there)
  | @«open» _ _ fid' mode f file _ _ old opened =>
      by_cases same : fid = fid'
      · subst same
        rw [update_self] at there
        cases there
        exact Or.inr ⟨f, old, Or.inl ⟨opened.symm, fun none_ => absurd rfl none_⟩⟩
      · exact Or.inr (kept (other same there))
  | @create _ _ fid' _ _ _ _ _ _ args =>
      by_cases same : fid = fid'
      · left
        rw [bound, if_neg (by decide : ¬T.create.reply = T.attach.reply),
          if_neg (by decide : ¬T.create.reply = T.walk.reply), if_pos rfl, args, same]
        rfl
      · exact Or.inr (kept (other same there))
  | @clunk _ _ fid' =>
      by_cases same : fid = fid'
      · rw [same, update_self] at there
        cases there
      · exact Or.inr (kept (other same there))
  | nothing => exact Or.inr (kept there)
  | @remove _ _ _ fid' =>
      by_cases same : fid = fid'
      · rw [same, update_self] at there
        cases there
      · exact Or.inr (kept (other same there))
  | @renamed _ _ _ fid' f file _ args old =>
      by_cases same : fid = fid'
      · subst same
        rw [update_self] at there
        cases there
        exact Or.inr ⟨f, old, Or.inr rfl⟩
      · refine Or.inr ⟨e', other same there, Or.inl ⟨rfl, ?_⟩⟩
        intro _ own
        rw [args] at own
        cases own
        exact same rfl
  | still => exact Or.inr (kept there)
  | error => exact Or.inr (kept there)

theorem at_does {x : Deed} {r : Path} {i : I} (named : n.At r i) (does : x.Does n n')
    (clear : ∀ p q, x = .renamed p q → n.Live i → ¬p <+: r) : n'.At r i := by
  cases x with
  | nothing => exact named.same does
  | made p => exact named.made does
  | removed p => exact named.removed does
  | renamed p q => exact named.renamed does (clear p q rfl)

theorem deed_of_renames {x : Deed} {p q : Path} (eq : x.renames = [(p, q)]) : x = .renamed p q := by
  cases x with
  | nothing => cases eq
  | made _ => cases eq
  | removed _ => cases eq
  | renamed _ _ =>
      cases eq
      rfl

theorem named_took {r : UInt8 × Bytes} {fid : UInt32} {f f' : Fid} {i : I}
    (took : Store.Took v.deeds.written m s r s') (unbound : bound m r ≠ some fid)
    (clear : ∀ p q, s'.files.2 = s.files.2 ++ [(p, q)] → m.fid ≠ some fid →
      (v.names s.files.1).Live i → ¬p <+: f.path)
    (there : s.fids fid = some f) (there' : s'.fids fid = some f')
    (named : (v.names s.files.1).At f.path i) : (v.names s'.files.1).At f'.path i := by
  rcases took with ⟨x, ⟨does, log⟩, turn⟩
  rcases turn_path turn (Store.table_of_fids there') with now | ⟨e, old, stays⟩
  · exact absurd now unbound
  rw [Store.table_of_fids there] at old
  cases old
  rcases stays with ⟨same, own⟩ | only
  · have path : f'.path = f.path := same.symm
    rw [path]
    apply at_does named does
    rintro p q rfl
    exact clear p q log (own (List.cons_ne_nil _ _))
  · rcases deed_of_renames only with rfl
    exact named.follow does

theorem named_lapsed {fid : UInt32} {f f' : Fid} {i : I}
    (lapsed : Store.Lapsed v.deeds.written m s s') (there : s.fids fid = some f)
    (there' : s'.fids fid = some f') (named : (v.names s.files.1).At f.path i) :
    (v.names s'.files.1).At f'.path i := by
  cases lapsed with
  | version _ same =>
      rw [same.1, there] at there'
      cases there'
      exact named.same same.2.1
  | @attach fid' b _ _ fids same before none_ =>
      have rootless : (v.names s.files.1).find [] = none := by
        rw [← before.1.1]
        exact Option.map_eq_none_iff.1 none_
      rw [fids, update_apply] at there'
      split_ifs at there'
      · cases there'
        exact (named.of_rootless rootless []).same same.1
      · rw [there] at there'
        cases there'
        exact named.same same.1
  | @«open» fid' mode f₀ _ _ old fids same =>
      rw [fids, update_apply] at there'
      split_ifs at there' with here
      · cases there'
        rw [here, old] at there
        cases there
        exact named.same same.1
      · rw [there] at there'
        cases there'
        exact named.same same.1

theorem named_send {b : Bytes} (named : v.Named t) (clear : v.Clear t b) :
    v.Named (v.send t b) := by
  rw [send]
  rcases whole : Ninep.unframe b with _ | m
  · exact named
  have served : Store.Took v.deeds.written m t.store
        (Store.answer ((Store.serve v.backend.renaming m).exec t.store).1)
        ((Store.serve v.backend.renaming m).exec t.store).2 ∨
      Store.Lapsed v.deeds.written m t.store
        ((Store.serve v.backend.renaming m).exec t.store).2 := by
    have turn := Store.serve_turn (d := v.deeds.written) (s := t.store) (m := m)
    rw [Store.Served, Prog.Ends] at turn
    rcases run : (Store.serve v.backend.renaming m).exec t.store with ⟨e | a, s'⟩ <;>
      rw [run] at turn
    · exact turn
    · exact turn.imp id And.right
  have clear' : ∀ p q, ((Store.serve v.backend.renaming m).exec t.store).2.files.2 =
      t.store.files.2 ++ [(p, q)] → ∀ fid f i, m.fid ≠ some fid → t.store.fids fid = some f →
      t.who fid = some i → (v.names t.store.files.1).Live i → ¬p <+: f.path := by
    intro p q log
    apply clear m p q whole
    rw [send, whole]
    exact log
  intro fid i who
  dsimp only at who ⊢
  split_ifs at who with now
  · rcases Option.bind_eq_some_iff.1 who with ⟨f, there, find⟩
    exact ⟨f, there, Names.at_of_find find⟩
  · rcases Option.bind_eq_some_iff.1 who with ⟨f', there', old⟩
    rcases named fid i old with ⟨f, there, at_⟩
    refine ⟨f', there', ?_⟩
    rcases served with took | lapsed
    · apply named_took took now _ there there' at_
      intro p q log own live
      exact clear' p q log fid f i own there old live
    · exact named_lapsed lapsed there there' at_

theorem safe_send {b : Bytes} (safe : Store.Safe (fun _ => True) t.store) :
    Store.Safe (fun _ => True) (v.send t b).store := by
  rw [send]
  rcases Ninep.unframe b with _ | m
  · exact safe
  · exact (Store.serve_safe (Store.any_guarded _) m t.store safe).1

/-- In every session whose renames are clear of the other fids' paths, what is asked by a fid is
asked of the file the fid was walked to or created as, if that file is still there. -/
theorem fids_reach (v : Volume B I) (files : B) (t : Session B I)
    (reached : (v.sessions files).Reach v.Clear t) (fid : UInt32) (f : Fid) (i : I)
    (there : t.store.fids fid = some f) (who : t.who fid = some i)
    (live : (v.names t.store.files.1).Live i) : v.Reaches t.store fid f i := by
  have known : v.Named t ∧ Store.Safe (fun _ => True) t.store := by
    apply reached.invariant fun t => v.Named t ∧ Store.Safe (fun _ => True) t.store
    · rintro _ rfl
      refine ⟨?_, ?_, trivial⟩
      · intro fid i who
        cases who
      · intro fid f there
        cases there
    · rintro t b _ ⟨named, safe⟩ clear rfl
      exact ⟨named_send named clear, safe_send safe⟩
  rcases known with ⟨named, safe⟩
  rcases named fid i who with ⟨f', there', at_⟩
  rw [there] at there'
  cases there'
  exact reaches there (at_.find live) (safe.paths fid f there)

def shelf : Volume (Names Component Nat) Nat where
  names n := n
  stat _ i := ⟨decide (i = 0), false, 0o777, 0, 0, 0, .ofNat i⟩
  list _ _ := []
  read _ _ _ _ := .ok []
  write n _ _ _ := (.error "permission denied", n)
  truncate n _ _ := (.error "permission denied", n)
  chmod n _ _ := (.error "permission denied", n)
  touch n _ _ := (.error "permission denied", n)
  mkdir n _ _ := (.error "permission denied", n)
  mkfile n _ _ := (.error "permission denied", n)
  rename n p q :=
    if h : p ≠ [] ∧ q ≠ [] then
      if n.find p ≠ none ∧ n.find q = none ∧ n.find q.dropLast ≠ none ∧ ¬p <+: q then
        (.ok (), n.move p q h.1 h.2)
      else (.error "permission denied", n)
    else (.error "permission denied", n)
  remove n p :=
    if h : p ≠ [] then (.ok (), n.drop p h) else (.error "permission denied", n)
  write_names _ _ _ _ := rfl
  truncate_names _ _ _ := rfl
  chmod_names _ _ _ := rfl
  touch_names _ _ _ := rfl
  mkdir_names _ _ _ := ⟨rfl, rfl⟩
  mkfile_names _ _ _ := ⟨rfl, rfl⟩
  rename_names n p q := by
    by_cases h : p ≠ [] ∧ q ≠ []
    · simp only [dif_pos h]
      split_ifs
      · exact n.renamed_move h.1 h.2
      · exact ⟨rfl, rfl⟩
    · simp only [dif_neg h]
      exact ⟨rfl, rfl⟩
  remove_names n p := by
    by_cases h : p ≠ []
    · simp only [dif_pos h]
      exact ⟨rfl, rfl⟩
    · simp only [dif_neg h]
      exact ⟨rfl, rfl⟩

def two : Names Component Nat where
  find p := if p = [] then some 0 else if p = [.normal "a"] then some 1
    else if p = [.normal "c"] then some 2 else none
  used i := i < 3
  known p i found := by
    split_ifs at found <;> cases found <;> decide
  once p q i found found' := by
    split_ifs at found found' <;> cases found <;> simp_all
  rooted none_ := by
    rw [if_pos rfl] at none_
    cases none_

def session (ts : List Bytes) : Session (Names Component Nat) Nat :=
  ts.foldl shelf.send ⟨Store.new (two, []), fun _ => none⟩

theorem clear_of_still {b : Bytes} {t : Session B I}
    (still : (v.send t b).store.files.2 = t.store.files.2) : v.Clear t b := by
  intro m p q _ log
  rw [still] at log
  exact absurd (List.self_eq_append_right.1 log) (List.cons_ne_nil _ _)

/-- The fids that are on the files renamed are the message's own. -/
theorem clear_of_fids {b : Bytes} {t : Session B I} {p q : Path}
    (log : (v.send t b).store.files.2 = t.store.files.2 ++ [(p, q)])
    (others : ∀ fid f, t.store.fids fid = some f → p <+: f.path →
      (Ninep.unframe b).bind Msg.fid = some fid) : v.Clear t b := by
  intro m p' q' whole log' fid f i own there _ _ above
  rw [log] at log'
  cases List.append_cancel_left log'
  apply own
  have same := others fid f there above
  rwa [whole] at same

/-- Fids 1 and 2 are on `a` and `c`. -/
def walked : List Bytes := [Sent.attach 0, Sent.walk 0 1 ["a"], Sent.walk 0 2 ["c"]]

/-- `a` becomes `b`, and fid 3 is walked to it. -/
def moved : List Bytes := walked ++ [Sent.rename 1 "b", Sent.walk 0 3 ["b"]]

/-- `c` becomes `d`, and is removed. -/
def removed : List Bytes := moved ++ [Sent.rename 2 "d", Sent.remove 2]

theorem walked_fids : (session walked).store.fids =
    update (update (update (fun _ => none) 0 (some (.walked [])))
      1 (some (.walked [.normal "a"]))) 2 (some (.walked [.normal "c"])) := rfl

theorem moved_fids : (session moved).store.fids = update (update
    (session walked).store.fids 1 (some (.walked [.normal "b"])))
      3 (some (.walked [.normal "b"])) := rfl

theorem walked_clear : shelf.Clear (session walked) (Sent.rename 1 "b") := by
  apply clear_of_fids (p := [.normal "a"]) (q := [.normal "b"]) (by decide +kernel)
  intro fid f there above
  rw [walked_fids] at there
  simp only [update_apply] at there
  split_ifs at there with two one
  · cases there
    exact absurd above (by decide)
  · rw [one]
    decide +kernel
  · cases there
    exact absurd above (by decide)

theorem moved_clear : shelf.Clear (session moved) (Sent.rename 2 "d") := by
  apply clear_of_fids (p := [.normal "c"]) (q := [.normal "d"]) (by decide +kernel)
  intro fid f there above
  rw [moved_fids, walked_fids] at there
  simp only [update_apply] at there
  split_ifs at there with three one two
  · cases there
    exact absurd above (by decide)
  · cases there
    exact absurd above (by decide)
  · rw [two]
    decide +kernel
  · cases there
    exact absurd above (by decide)

theorem session_step {t : List Bytes} {b : Bytes}
    (reached : (shelf.sessions two).Reach shelf.Clear (session t))
    (clear : shelf.Clear (session t) b) :
    (shelf.sessions two).Reach shelf.Clear (session (t ++ [b])) :=
  reached.step clear List.foldl_append

theorem moved_reached : (shelf.sessions two).Reach shelf.Clear (session moved) := by
  have attached := session_step (t := []) (b := Sent.attach 0) (.init rfl)
    (clear_of_still (by decide +kernel))
  have first := session_step (b := Sent.walk 0 1 ["a"]) attached
    (clear_of_still (by decide +kernel))
  have second := session_step (b := Sent.walk 0 2 ["c"]) first
    (clear_of_still (by decide +kernel))
  exact session_step (session_step second walked_clear) (clear_of_still (by decide +kernel))

theorem fids_reach_removed :
    shelf.Reaches (session removed).store 3 (.walked [.normal "b"]) 1 := by
  apply shelf.fids_reach two (session removed) _ 3 (.walked [.normal "b"]) 1
  · decide +kernel
  · decide +kernel
  · exact ⟨[.normal "b"], by decide +kernel⟩
  · exact session_step (session_step moved_reached moved_clear)
      (clear_of_still (by decide +kernel))

/-- A rename made through one of two fids walked to `a`: the other's file is at `b`, and its path
reaches nothing. -/
theorem other_fid_lost :
    let t := session [Sent.attach 0, Sent.walk 0 1 ["a"], Sent.walk 0 2 ["a"], Sent.rename 1 "b"]
    t.who 2 = some 1 ∧ t.store.files.1.find [.normal "b"] = some 1 ∧
      t.store.fids 2 = some (.walked [.normal "a"]) ∧ t.store.files.1.find [.normal "a"] =
          none := by
  decide +kernel

end Volume

end Ipnx.Host
