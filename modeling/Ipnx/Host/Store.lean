import Ipnx.Host.Path
import Ipnx.Lib.Prog
import Ipnx.Ninep.Dir

/-!
# The host's file server

`hosts/ipnx/src/store.rs`: 9P over whatever keeps the files. What keeps them is a structure of
calls, each with a state of its own. A handler answers a reply's type and body, and where the
source returns an `Rerror` early it fails with the error's text; what it did before stays done.
-/

namespace Ipnx.Host

open Ipnx.Ninep (W R Msg T)
open Ipnx.Name (Qid qtdir)

def qtexcl : UInt8 := 0x20
def dmdir : UInt32 := 0x80000000

/-- Of an open's mode: cut the file, or remove it when its fid goes. -/
def otrunc : UInt8 := 0x10
def orclose : UInt8 := 0x40

def msizeMax : UInt32 := 8192 + 24

structure Meta where
  dir : Bool
  excl : Bool
  perm : UInt32
  len : UInt64
  atime : UInt32
  mtime : UInt32
  path : UInt64
deriving DecidableEq, Repr

structure Backend (B : Type) where
  stat : B → Path → Option Meta × B
  list : B → Path → List String × B
  read : B → Path → UInt64 → Nat → Except String Bytes × B
  write : B → Path → UInt64 → Bytes → Except String Unit × B
  truncate : B → Path → UInt64 → Except String Unit × B
  mkdir : B → Path → UInt32 → Except String Unit × B
  mkfile : B → Path → UInt32 → Except String Unit × B
  chmod : B → Path → UInt32 → Except String Unit × B
  touch : B → Path → UInt32 → Except String Unit × B
  rename : B → Path → Path → Except String Unit × B
  remove : B → Path → Except String Unit × B

/-- What a fid names: a file's path, and how it is open. -/
structure Fid where
  path : Path
  mode : UInt8
  isOpen : Bool
deriving DecidableEq, Repr

def Fid.walked (path : Path) : Fid := ⟨path, 0, false⟩

structure Store (B : Type) where
  files : B
  uname : String
  fids : UInt32 → Option Fid

def modebyte (md : Meta) : UInt8 :=
  (if md.dir then qtdir else 0) ||| (if md.excl then qtexcl else 0)

def plan9mode (md : Meta) : UInt32 := ((modebyte md).toUInt32 <<< 24) ||| (md.perm &&& 0o777)

def stat2qid (md : Meta) : Qid where
  qtype := modebyte md
  vers := md.mtime ^^^ (md.len.toUInt32 <<< 8)
  path := md.path

/-- Where a path really is, if it does not climb out of the root. -/
def real (p : Path) : Option Path :=
  p.foldlM (fun out part =>
    match part with
    | .normal n => some (out ++ [.normal n])
    | .parentDir => if out = [] then none else some out.dropLast
    | .curDir => some out
    | .rootDir => none) []

namespace Store

variable {B : Type}

/-- The server with `files` kept, and nobody attached. -/
def new (files : B) : Store B := ⟨files, "", fun _ => none⟩

def insert (s : Store B) (fid : UInt32) (f : Fid) : Store B :=
  { s with fids := Function.update s.fids fid (some f) }

def erase (s : Store B) (fid : UInt32) : Store B :=
  { s with fids := Function.update s.fids fid none }

def edit (s : Store B) (fid : UInt32) (g : Fid → Fid) : Store B :=
  { s with fids := Function.update s.fids fid ((s.fids fid).map g) }

abbrev Serve (B : Type) := Prog (Store B)

variable (k : Backend B)

def ask {α : Type} (call : B → α × B) : Serve B α := do
  let s ← get
  modify fun s => { s with files := (call s.files).2 }
  pure (call s.files).1

/-- A call of the keeper's whose error is the reply's. -/
def must {α : Type} (call : B → Except String α × B) : Serve B α := do
  match ← ask call with
  | .ok a => pure a
  | .error e => throw e

/-- A call of the keeper's whose answer nobody looks at. -/
def tell {α : Type} (call : B → α × B) : Serve B Unit := do
  let _ ← ask call
  pure ()

/-- What is read of a body, or an `Rerror`; and the bytes after it. -/
def parse {α : Type} (r : R α) (b : Bytes) (e : String) : Serve B (α × Bytes) :=
  match r.on b with
  | (some a, rest) => pure (a, rest)
  | (none, _) => throw e

def lookup (fid : UInt32) : Serve B Fid := do
  let s ← get
  match s.fids fid with
  | some f => pure f
  | none => throw "unknown fid"

/-- The keeper's word on a path, or nothing when it is outside. -/
def stat (rel : Path) : Serve B (Option Meta) := do
  match real rel with
  | none => pure none
  | some p => ask (k.stat · p)

/-- The keeper's word on a path, or an `Rerror`. -/
def statOr (rel : Path) (e : String) : Serve B Meta := do
  match ← stat k rel with
  | some md => pure md
  | none => throw e

def dirof (rel : Path) (name : String) : Serve B (Option Ninep.Dir) := do
  match ← stat k rel with
  | none => pure none
  | some md =>
      let s ← get
      pure (some {
        dtype := 0x39
        dev := 0
        qid := stat2qid md
        mode := plan9mode md
        atime := md.atime
        mtime := md.mtime
        length := md.len
        name := name
        uid := s.uname
        gid := s.uname
        muid := s.uname })

/-- An `Rerror` on a condition. -/
def refuse (c : Prop) [Decidable c] (e : String) : Serve B Unit := if c then throw e else pure ()

/-- A part of a handler that is done on a condition. -/
def onlyIf (c : Prop) [Decidable c] (m : Serve B Unit) : Serve B Unit := if c then m else pure ()

def version (b : Bytes) : Serve B (UInt8 × W) := do
  let (msize, rest) := match R.u32.on b with
    | (some m, rest) => (m, rest)
    | (none, rest) => (msizeMax, rest)
  let v := (R.s.on rest).1.getD ""
  let v := if "9P2000".toList <+: v.toList then "9P2000" else "unknown"
  pure (T.version.reply, (W.new.u32 (min msize msizeMax)).s v)

def setUname (u : Option String) : Serve B Unit :=
  modify fun s => { s with uname := u.getD s.uname }

def attach (b : Bytes) : Serve B (UInt8 × W) := do
  let (fid, rest) ← parse R.u32 b "short Tattach"
  setUname (R.s.on (R.u32.on rest).2).1
  modify fun s => s.insert fid (.walked [])
  let md ← statOr k [] "no root"
  pure (T.attach.reply, W.new.qid (stat2qid md))

/-- The names of a walk, one after another, as far as there are files. -/
def walkNames : Nat → Path → List Qid → Bytes → Serve B (Path × List Qid)
  | 0, at_, qids, _ => pure (at_, qids)
  | n + 1, at_, qids, b => do
      let (name, rest) ← parse R.s b "short Twalk"
      let next := at_.join (.new name)
      match ← stat k next with
      | none => pure (at_, qids)
      | some md => walkNames n ((real next).getD next) (qids ++ [stat2qid md]) rest

def walk (b : Bytes) : Serve B (UInt8 × W) := do
  let ((src, newfid, n), rest) ← parse (do
    let src ← R.u32
    let newfid ← R.u32
    let n ← R.u16
    pure (src, newfid, n)) b "short Twalk"
  let start ← lookup src
  let (at_, qids) ← walkNames k n.toNat start.path [] rest
  refuse (qids.length ≠ n.toNat ∧ qids = [] ∧ 0 < n.toNat) "file does not exist"
  onlyIf (qids.length = n.toNat) (modify fun s => s.insert newfid (.walked at_))
  pure (T.walk.reply, qids.foldl W.qid (W.new.u16 (.ofNat qids.length)))

def topen (b : Bytes) : Serve B (UInt8 × W) := do
  let ((fid, mode), _) ← parse (do
    let fid ← R.u32
    let mode ← R.u8
    pure (fid, mode)) b "short Topen"
  let f ← lookup fid
  modify fun s => s.edit fid fun f => { f with mode := mode, isOpen := true }
  let md ← statOr k f.path "file does not exist"
  onlyIf (mode &&& otrunc ≠ 0 ∧ !md.dir) (tell (k.truncate · f.path 0))
  pure (T.open.reply, (W.new.qid (stat2qid md)).u32 (msizeMax - 24))

/-- The permission of a file made: what was asked for, masked by the directory's. -/
def created (perm parent : UInt32) : UInt32 :=
  let m : UInt32 := if perm &&& dmdir ≠ 0 then 0o777 else 0o666
  perm &&& (~~~m ||| (parent &&& m))

def make (next : Path) (perm given : UInt32) : Serve B Unit :=
  if perm &&& dmdir ≠ 0 then must (k.mkdir · next ((given ||| 0o400) &&& 0o777))
  else must (k.mkfile · next (given &&& 0o777))

def create (b : Bytes) : Serve B (UInt8 × W) := do
  let ((fid, name, perm, mode), _) ← parse (do
    let fid ← R.u32
    let name ← R.s
    let perm ← R.u32
    let mode ← R.u8
    pure (fid, name, perm, mode)) b "short Tcreate"
  let dir ← lookup fid
  match real (dir.path.join (.new name)) with
  | none => throw "bad name"
  | some next =>
      let parent ← stat k dir.path
      make k next perm (created perm ((parent.map Meta.perm).getD 0o777))
      let md ← statOr k next "file does not exist"
      modify fun s => s.edit fid fun _ => ⟨next, mode, true⟩
      pure (T.create.reply, (W.new.qid (stat2qid md)).u32 (msizeMax - 24))

/-- Whole entries from where the last read ended, as many as fit. -/
def entries (path : Path) (off : UInt64) (count : UInt32) : List String → Nat → Bytes →
    Serve B Bytes
  | [], _, out => pure out
  | name :: names, at_, out => do
      match ← dirof k (path.join (.new name)) name with
      | none => entries path off count names at_ out
      | some d =>
          let e := d.convD2M
          if at_ < off.toNat then entries path off count names (at_ + e.length) out
          else if count.toNat < out.length + e.length then pure out
          else entries path off count names at_ (out ++ e)

/-- What a read gives: a directory's entries, or a file's bytes. -/
def contents (path : Path) (dir : Bool) (off : UInt64) (count : UInt32) : Serve B Bytes :=
  if dir then do
    let names ← ask (k.list · path)
    entries k path off count (names.mergeSort fun a b => decide (a ≤ b)) 0 []
  else must (k.read · path off (min count (msizeMax - 24)).toNat)

def read (b : Bytes) : Serve B (UInt8 × W) := do
  let ((fid, off, count), _) ← parse (do
    let fid ← R.u32
    let off ← R.u64
    let count ← R.u32
    pure (fid, off, count)) b "short Tread"
  let f ← lookup fid
  let md ← statOr k f.path "file does not exist"
  let data ← contents k f.path md.dir off count
  pure (T.read.reply, (W.new.u32 (.ofNat data.length)).raw data)

def write (b : Bytes) : Serve B (UInt8 × W) := do
  let ((fid, off, count), rest) ← parse (do
    let fid ← R.u32
    let off ← R.u64
    let count ← R.u32
    pure (fid, off, count)) b "short Twrite"
  let data := rest.take count.toNat
  let f ← lookup fid
  refuse (!f.isOpen ∨ f.mode &&& 3 = 0) "permission denied"
  must (k.write · f.path off data)
  pure (T.write.reply, W.new.u32 (.ofNat data.length))

def tstat (b : Bytes) : Serve B (UInt8 × W) := do
  let (fid, _) ← parse R.u32 b "short Tstat"
  let f ← lookup fid
  match ← dirof k f.path (f.path.fileName.getD "/") with
  | none => throw "file does not exist"
  | some d => pure (T.stat.reply, (W.new.u16 (.ofNat d.convD2M.length)).raw d.convD2M)

/-- The name of a file changed, if there is one to change it to, and its fid's path; answers
the path after it. -/
def renamed (fid : UInt32) (path : Path) (name : String) : Serve B Path :=
  if name = "" then pure path
  else
    match real (path.withFileName name) with
    | none => throw "bad name"
    | some new =>
        if new = path then pure path
        else do
          must (k.rename · path new)
          modify fun s => s.edit fid fun f => { f with path := new }
          pure new

def ones : UInt32 := 0xffffffff
def ones64 : UInt64 := 0xffffffffffffffff

/-- A field of all ones is not to be changed; the mode, the time, the name and the length are,
in that order. -/
def wstat (b : Bytes) : Serve B (UInt8 × W) := do
  let ((fid, n), rest) ← parse (do
    let fid ← R.u32
    let n ← R.u16
    pure (fid, n)) b "short Twstat"
  match Ninep.Dir.convM2D (rest.take n.toNat) with
  | none => throw "bad stat buffer"
  | some d =>
      let f ← lookup fid
      let md ← statOr k f.path "file does not exist"
      refuse (d.mode ≠ ones ∧ (d.mode &&& dmdir != 0) ≠ md.dir) "can't change directory bit"
      refuse (f.path = []) "no wstat of root"
      onlyIf (d.mode ≠ ones) (must (k.chmod · f.path (d.mode &&& 0o777)))
      onlyIf (d.mtime ≠ ones) (must (k.touch · f.path d.mtime))
      let path ← renamed k fid f.path d.name
      onlyIf (d.length ≠ ones64) (must (k.truncate · path d.length))
      pure (T.wstat.reply, W.new)

/-- A fid let go: a file open to be removed then is removed. -/
def letgo : Option Fid → Serve B Unit
  | none => pure ()
  | some f => onlyIf (f.isOpen ∧ f.mode &&& orclose ≠ 0) (tell (k.remove · f.path))

/-- A body too short for a fid names none. -/
def clunk (b : Bytes) : Serve B (UInt8 × W) := do
  let s ← get
  match (R.u32.on b).1 with
  | none => pure (T.clunk.reply, W.new)
  | some fid => do
      modify fun s => s.erase fid
      letgo k (s.fids fid)
      pure (T.clunk.reply, W.new)

def remove (b : Bytes) : Serve B (UInt8 × W) := do
  let (fid, _) ← parse R.u32 b "short Tremove"
  let f ← lookup fid
  modify fun s => s.erase fid
  must (k.remove · f.path)
  pure (T.remove.reply, W.new)

def serve (m : Msg) : Serve B (UInt8 × W) :=
  if m.ty = T.version.code then version m.body
  else if m.ty = T.auth.code then throw "u9fs authnone: no authentication required"
  else if m.ty = T.attach.code then attach k m.body
  else if m.ty = T.walk.code then walk k m.body
  else if m.ty = T.open.code then topen k m.body
  else if m.ty = T.create.code then create k m.body
  else if m.ty = T.read.code then read k m.body
  else if m.ty = T.write.code then write k m.body
  else if m.ty = T.stat.code then tstat k m.body
  else if m.ty = T.wstat.code then wstat k m.body
  else if m.ty = T.flush.code then pure (T.flush.reply, W.new)
  else if m.ty = T.clunk.code then clunk k m.body
  else if m.ty = T.remove.code then remove k m.body
  else throw "not implemented"

/-- A reply as it goes on the wire; an error's text is its body. -/
def reply (tag : UInt16) : Except String (UInt8 × W) → Bytes
  | .ok (ty, w) => w.frame ty tag
  | .error e => (W.new.s e).frame T.error.code tag

/-- One message answered. A malformed one is the transport's failure. -/
def rpc (s : Store B) (t : Bytes) : Except String Bytes × Store B :=
  match Ninep.unframe t with
  | none => (.error "malformed 9P message", s)
  | some m =>
      let r := (serve k m).exec s
      (.ok (reply m.tag r.1), r.2)

end Store

/-! What a client sends, under one tag. -/

namespace Sent

def version (msize : UInt32) : Bytes :=
  ((W.new.u32 msize).s "9P2000").frame T.version.code 0xffff

def attach (fid : UInt32) : Bytes :=
  ((((W.new.u32 fid).u32 Ninep.nofid).s "glenda").s "").frame T.attach.code 1

def walk (fid newfid : UInt32) (names : List String) : Bytes :=
  (names.foldl W.s (((W.new.u32 fid).u32 newfid).u16 (.ofNat names.length))).frame T.walk.code 1

def «open» (fid : UInt32) (mode : UInt8) : Bytes :=
  ((W.new.u32 fid).u8 mode).frame T.open.code 1

def create (fid : UInt32) (name : String) (perm : UInt32) (mode : UInt8) : Bytes :=
  ((((W.new.u32 fid).s name).u32 perm).u8 mode).frame T.create.code 1

def read (fid : UInt32) (off : UInt64) (count : UInt32) : Bytes :=
  (((W.new.u32 fid).u64 off).u32 count).frame T.read.code 1

def write (fid : UInt32) (off : UInt64) (data : Bytes) : Bytes :=
  ((((W.new.u32 fid).u64 off).u32 (.ofNat data.length)).raw data).frame T.write.code 1

/-- A name changed and nothing else. -/
def rename (fid : UInt32) (name : String) : Bytes :=
  let d : Ninep.Dir := ⟨0xffff, Store.ones, ⟨0xff, Store.ones, Store.ones64⟩, Store.ones,
    Store.ones, Store.ones, Store.ones64, name, "", "", ""⟩
  (((W.new.u32 fid).u16 (.ofNat d.convD2M.length)).raw d.convD2M).frame T.wstat.code 1

def remove (fid : UInt32) : Bytes := (W.new.u32 fid).frame T.remove.code 1

end Sent

def heard (b : Bytes) : Msg := (Ninep.unframe b).getD ⟨0, 0, []⟩

end Ipnx.Host
