import Ipnx.Host.Store
import Ipnx.Ninep.Fids

/-!
# The page's file server

`hosts/web/www/emca.mjs`, the file server: which files a page's windows are reached by, and a 9P
server of them that keeps a fid as the node it was walked to. What the windows hold, and what a
read, a write or a clunk does with it, is the page's. A reader past its message throws, and what is
thrown is an `Rerror`.
-/

namespace Ipnx.Host

open Ipnx.Ninep (W R Msg T Fids Named Files Reply Turn)
open Ipnx.Name (Qid qtdir)
open Prog (Ends ends_ite ends_pure ends_throw ends_get ends_modify)

namespace Emca

inductive Kind
  | root | wsys | new | newctl | layout | output
  | outn (n : Nat)
  | out (n : Nat) (name : String)
  | view (w : Nat)
  | files (w : Nat)
  | file (w : Nat) (name : String)
deriving DecidableEq, Repr

/-- A file, and what it was walked to through, the last first. -/
structure Node where
  kind : Kind
  up : List Kind
deriving DecidableEq, Repr

/-- What is gathered through a fid: what was written, and a directory's entries. -/
structure Held where
  buf : Option Bytes
  entries : Option (List Bytes)
  at_ : Nat
deriving DecidableEq, Repr

def Held.none : Held := ⟨.none, .none, 0⟩

structure Fid where
  node : Node
  mode : Option UInt8
  held : Held
deriving DecidableEq, Repr

def Fid.bound (node : Node) : Fid := ⟨node, none, .none⟩

structure Page (P : Type) where
  decode : Bytes → String
  outside : String
  window : P → String → Option Nat
  out : P → String → Option Nat
  body : P → Nat → Option Bytes
  created : P → Except String Nat × P
  clunked : P → Fid → P
  stat : P → Node → Bytes
  read : P → Fid → UInt16 → UInt64 → Int → Except String (Option Bytes) × Held × P
  write : P → Fid → UInt64 → Bytes → Except String Unit × Held × P
  flush : P → UInt16 → P

end Emca

structure Emca (P : Type) where
  page : P
  msize : UInt32
  fids : UInt32 → Option Emca.Fid

namespace Emca

def eperm : String := "permission denied"
def enonexist : String := "file does not exist"
def otrunc : UInt8 := 0x10

def fileNames : List String :=
  ["body", "ctl", "dirty", "events", "rect", "role", "status", "tag", "title", "type", "verbs",
    "wctl"]
def filterNames : List String := ["selection", "replace"]
def viewNames : List String := ["cons", "consctl", "label", "wctl", "wdir", "winid", "winname"]
def outNames : List String := ["0", "1", "2", "cmd", "dir", "log", "status"]

/-- The place of a name in a list, from one; none is zero. -/
def place (names : List String) (name : String) : Nat :=
  match names.findIdx? (· = name) with
  | some i => i + 1
  | none => 0

def qpath (n k : Nat) : UInt64 := .ofNat (n * 0x10000 + k)

def qid (node : Node) : Qid :=
  match node.kind with
  | .root => ⟨qtdir, 0, 1⟩
  | .wsys => ⟨qtdir, 0, 2⟩
  | .new => ⟨qtdir, 0, 3⟩
  | .newctl => ⟨0, 0, 6⟩
  | .layout => ⟨0, 0, 4⟩
  | .output => ⟨qtdir, 0, 5⟩
  | .outn n => ⟨qtdir, 0, qpath n 0x300⟩
  | .out n name => ⟨0, 0, qpath n (0x300 + place outNames name)⟩
  | .view w => ⟨qtdir, 0, qpath w 0x100⟩
  | .files w => ⟨qtdir, 0, qpath w 0x200⟩
  | .file w name => ⟨0, 0, qpath w (place (viewNames ++ fileNames ++ filterNames) name)⟩

section

variable {P : Type} (g : Page P)

def walk (p : P) (node : Node) (name : String) : Option Node :=
  if name = ".." then
    match node.up with
    | [] => some node
    | k :: up => some ⟨k, up⟩
  else
    let at_ (k : Kind) : Node := ⟨k, node.kind :: node.up⟩
    match node.kind with
    | .root =>
        if name = "wsys" then some (at_ .wsys)
        else if name = "new" then some (at_ .new)
        else if name = "layout" then some (at_ .layout)
        else if name = "output" then some (at_ .output)
        else none
    | .wsys => (g.window p name).map fun w => at_ (.files w)
    | .new => if name = "ctl" then some (at_ .newctl) else none
    | .view w =>
        if name = "window" then some (at_ (.files w))
        else if name = "wsys" then some (at_ .wsys)
        else if name ∈ viewNames then some (at_ (.file w name))
        else none
    | .files w => if name ∈ fileNames ∨ name ∈ filterNames then some (at_ (.file w name)) else none
    | .output => (g.out p name).map fun n => at_ (.outn n)
    | .outn n => if name ∈ outNames then some (at_ (.out n name)) else none
    | _ => none

/-- What an open makes of what its fid gathers. -/
def opened (p : P) (f : Fid) (mode : UInt8) : Held :=
  match f.node.kind with
  | .layout => { f.held with buf := some [] }
  | .file w name =>
      match g.body p w with
      | none => f.held
      | some body =>
          if name = "body" then
            { f.held with buf := some (if mode &&& otrunc ≠ 0 then [] else body) }
          else if name = "replace" then { f.held with buf := some [] }
          else f.held
  | _ => f.held

def insert (s : Emca P) (fid : UInt32) (f : Fid) : Emca P :=
  { s with fids := Function.update s.fids fid (some f) }

def erase (s : Emca P) (fid : UInt32) : Emca P :=
  { s with fids := Function.update s.fids fid none }

abbrev Serve (P : Type) := Prog (Emca P)

/-- What is read of a message, and the bytes after it. -/
def parse {α : Type} (r : R α) (b : Bytes) : Serve P (α × Bytes) :=
  match r.on b with
  | (some a, rest) => pure (a, rest)
  | (none, _) => throw g.outside

/-- As many of the next `n` bytes as there are. -/
def upTo (n : Nat) : R Bytes := OptionT.mk fun b => (some (b.take n), b.drop n)

/-- A counted string; bytes that are not UTF-8 stand for something too. -/
def str : R String := do
  let n ← R.u16
  let b ← upTo n.toNat
  pure (g.decode b)

def lookup (fid : UInt32) : Serve P Fid := do
  let s ← get
  match s.fids fid with
  | some f => pure f
  | none => throw "unknown fid"

/-- A fid with what it has gathered changed, and the page with it. -/
def gather (fid : UInt32) (f : Fid) (held : Held) (page : P) : Serve P Unit :=
  modify fun s => { s.insert fid { f with held := held } with page := page }

def setPage (page : P) : Serve P Unit := modify fun s => { s with page := page }

def tversion (b : Bytes) : Serve P (Option (UInt8 × W)) := do
  let ((msize, v), _) ← parse g (do
    let msize ← R.u32
    let v ← str g
    pure (msize, v)) b
  modify fun s => { s with msize := min msize (64 * 1024), fids := fun _ => none }
  let v := if "9P2000".toList <+: v.toList then "9P2000" else "unknown"
  pure (some (T.version.reply, (W.new.u32 (min msize (64 * 1024))).s v))

def windowview (p : P) (aname : String) : Except String Node :=
  match g.window p aname with
  | some w => .ok ⟨.view w, []⟩
  | none => .error ("no window " ++ aname)

def attached (p : P) (aname : String) : Except String Node :=
  if aname = "" then .ok ⟨.root, []⟩ else windowview g p aname

def tattach (b : Bytes) : Serve P (Option (UInt8 × W)) := do
  let ((fid, aname), _) ← parse g (do
    let fid ← R.u32
    let _ ← R.u32
    let _ ← str g
    let aname ← str g
    pure (fid, aname)) b
  let s ← get
  match attached g s.page aname with
  | .error e => throw e
  | .ok node => do
      modify fun s => s.insert fid (.bound node)
      pure (some (T.attach.reply, W.new.qid (qid node)))

def tflush (b : Bytes) : Serve P (Option (UInt8 × W)) := do
  let (old, _) ← parse g R.u16 b
  let s ← get
  setPage (g.flush s.page old)
  pure (some (T.flush.reply, W.new))

/-- The names of a walk, one after another, as far as they lead. -/
def walkNames : Nat → Node → List Qid → Bytes → Serve P (Node × List Qid)
  | 0, node, qids, _ => pure (node, qids)
  | n + 1, node, qids, b => do
      let (name, rest) ← parse g (str g) b
      let s ← get
      match walk g s.page node name with
      | none => pure (node, qids)
      | some next => walkNames n next (qids ++ [qid next]) rest

def twalk (b : Bytes) : Serve P (Option (UInt8 × W)) := do
  let ((fid, newfid, n), rest) ← parse g (do
    let fid ← R.u32
    let newfid ← R.u32
    let n ← R.u16
    pure (fid, newfid, n)) b
  let f ← lookup fid
  let (node, qids) ← walkNames g n.toNat f.node [] rest
  if 0 < n.toNat ∧ qids = [] then throw enonexist
  else do
    modify fun s => if qids.length = n.toNat then s.insert newfid (.bound node) else s
    pure (some (T.walk.reply, qids.foldl W.qid (W.new.u16 (.ofNat qids.length))))

/-- The node an open is of: one of `new/ctl` is of a window it makes. -/
def opening (node : Node) : Serve P Node :=
  if node.kind = .newctl then do
    let s ← get
    setPage (g.created s.page).2
    match (g.created s.page).1 with
    | .error e => throw e
    | .ok w => pure ⟨.file w "ctl", []⟩
  else pure node

def topen (b : Bytes) : Serve P (Option (UInt8 × W)) := do
  let ((fid, mode), _) ← parse g (do
    let fid ← R.u32
    let mode ← R.u8
    pure (fid, mode)) b
  let f ← lookup fid
  let node ← opening g f.node
  modify fun s =>
    let f : Fid := { f with node := node, mode := some mode }
    s.insert fid { f with held := opened g s.page f mode }
  pure (some (T.open.reply, (W.new.qid (qid node)).u32 0))

def tread (tag : UInt16) (b : Bytes) : Serve P (Option (UInt8 × W)) := do
  let ((fid, off, count), _) ← parse g (do
    let fid ← R.u32
    let off ← R.u64
    let count ← R.u32
    pure (fid, off, count)) b
  let f ← lookup fid
  let s ← get
  let r := g.read s.page f tag off (min (count.toNat : Int) ((s.msize.toNat : Int) - 24))
  gather fid f r.2.1 r.2.2
  match r.1 with
  | .error e => throw e
  | .ok none => pure none
  | .ok (some data) => pure (some (T.read.reply, (W.new.u32 (.ofNat data.length)).raw data))

def twrite (b : Bytes) : Serve P (Option (UInt8 × W)) := do
  let ((fid, off, count), rest) ← parse g (do
    let fid ← R.u32
    let off ← R.u64
    let count ← R.u32
    pure (fid, off, count)) b
  let f ← lookup fid
  let s ← get
  let r := g.write s.page f off (rest.take count.toNat)
  gather fid f r.2.1 r.2.2
  match r.1 with
  | .error e => throw e
  | .ok _ => pure (some (T.write.reply, W.new.u32 count))

def tclunk (b : Bytes) : Serve P (Option (UInt8 × W)) := do
  let (fid, _) ← parse g R.u32 b
  let s ← get
  modify fun s => s.erase fid
  match s.fids fid with
  | none => pure (some (T.clunk.reply, W.new))
  | some f => do
      setPage (g.clunked s.page f)
      pure (some (T.clunk.reply, W.new))

def tstat (b : Bytes) : Serve P (Option (UInt8 × W)) := do
  let (fid, _) ← parse g R.u32 b
  let f ← lookup fid
  let s ← get
  let d := g.stat s.page f.node
  pure (some (T.stat.reply, (W.new.u16 (.ofNat d.length)).raw d))

/-- One message; what it throws is its `Rerror`, and `none` waits. -/
def t (m : Msg) : Serve P (Option (UInt8 × W)) :=
  if m.ty = T.version.code then tversion g m.body
  else if m.ty = T.auth.code then throw "authentication not required"
  else if m.ty = T.attach.code then tattach g m.body
  else if m.ty = T.flush.code then tflush g m.body
  else if m.ty = T.walk.code then twalk g m.body
  else if m.ty = T.open.code then topen g m.body
  else if m.ty = T.create.code then throw eperm
  else if m.ty = T.read.code then tread g m.tag m.body
  else if m.ty = T.write.code then twrite g m.body
  else if m.ty = T.clunk.code then tclunk g m.body
  else if m.ty = T.remove.code then throw eperm
  else if m.ty = T.stat.code then tstat g m.body
  else if m.ty = T.wstat.code then pure (some (T.wstat.reply, W.new))
  else throw "bad 9P message"

/-- A message's type and tag, and its body. -/
def header (b : Bytes) : Option Msg :=
  match (do
    let _ ← R.u32
    let ty ← R.u8
    let tag ← R.u16
    pure (ty, tag) : R (UInt8 × UInt16)).on b with
  | (some (ty, tag), rest) => some ⟨ty, tag, rest⟩
  | (none, _) => none

def reply (tag : UInt16) : Except String (Option (UInt8 × W)) → Option Bytes
  | .ok a => a.map fun r => r.2.frame r.1 tag
  | .error e => some ((W.new.s e).frame T.error.code tag)

/-- One message answered, now or when there is something to answer. One too short for its type
throws to the caller. -/
def serve (s : Emca P) (b : Bytes) : Except String (Option Bytes) × Emca P :=
  match header b with
  | none => (.error g.outside, s)
  | some m =>
      let r := (t g m).exec s
      (.ok (reply m.tag r.1), r.2)

end

variable {P : Type} {g : Page P} {s s' : Emca P} {m : Msg}

def Fid.named (f : Fid) : Named Node := ⟨f.node, f.mode⟩

def table (s : Emca P) : Fids Node := fun fid => (s.fids fid).map Fid.named

/-- An open of `new/ctl` gives a window's `ctl` instead, and there is no making a file. -/
def named : Files Node where
  opened n n' := if n.kind = .newctl then ∃ w, n' = ⟨.file w "ctl", []⟩ else n' = n
  child _ _ _ := False

@[simp]
theorem table_insert (s : Emca P) (fid : UInt32) (f : Fid) :
    (s.insert fid f).table = Function.update s.table fid (some f.named) := by
  funext fid'
  simp only [table, insert, Function.update_apply]
  split_ifs <;> rfl

@[simp]
theorem table_erase (s : Emca P) (fid : UInt32) :
    (s.erase fid).table = Function.update s.table fid none := by
  funext fid'
  simp only [table, erase, Function.update_apply]
  split_ifs <;> rfl

theorem table_of_fids {fid : UInt32} {f : Fid} (there : s.fids fid = some f) :
    s.table fid = some f.named := by
  rw [table, there]
  rfl

/-- A reply's type and body, or nothing as yet. -/
def answer : Except String (Option (UInt8 × W)) → Reply
  | .ok a => a.map fun r => (r.1, r.2.body)
  | .error e => some (T.error.code, (W.new.s e).body)

def Took (m : Msg) (s : Emca P) (r : Reply) (s' : Emca P) : Prop :=
  Turn named m r [] s.table s'.table

abbrev Answers (m : Msg) (s : Emca P) (h : Serve P (Option (UInt8 × W))) : Prop :=
  Ends h s (fun a s' => Took m s (answer (.ok a)) s') fun _ s' => s'.table = s.table

variable {α : Type} {G : α → Emca P → Prop} {E : String → Emca P → Prop}

theorem ends_parse {r : R α} {b : Bytes} {G : α × Bytes → Emca P → Prop}
    (ok : ∀ a rest, r.on b = (some a, rest) → G (a, rest) s) (error : E g.outside s) :
    Ends (parse g r b) s G E := by
  rw [parse]
  rcases read : r.on b with ⟨_ | a, rest⟩
  · exact ends_throw error
  · exact ends_pure (ok a rest read)

theorem ends_lookup {fid : UInt32} {G : Fid → Emca P → Prop}
    (ok : ∀ f, s.fids fid = some f → G f s) (error : E "unknown fid" s) :
    Ends (lookup fid) s G E := by
  apply Ends.get
  rcases there : s.fids fid with _ | f
  · exact ends_throw error
  · exact ends_pure (ok f there)

theorem tversion_turn (ty : m.ty = T.version.code) : Answers m s (tversion g m.body) := by
  apply Ends.bind
  apply ends_parse _ rfl
  rintro ⟨msize, v⟩ rest _
  apply Ends.modify
  exact ends_pure (Turn.version ty)

theorem tattach_turn (ty : m.ty = T.attach.code) : Answers m s (tattach g m.body) := by
  apply Ends.bind
  apply ends_parse _ rfl
  rintro ⟨fid, aname⟩ rest read
  rcases Reader.bind_some read with ⟨fid', mid, first, others⟩
  rcases Reader.bind_some others with ⟨_, mid', _, others⟩
  rcases Reader.bind_some others with ⟨_, mid', _, others⟩
  rcases Reader.bind_some others with ⟨_, mid', _, last⟩
  cases last
  apply Ends.get
  rcases attached g s.page aname with e | node
  · exact ends_throw rfl
  apply Ends.modify
  apply ends_pure
  rw [Took, table_insert]
  exact Turn.attach ty (congrArg Prod.fst first)

theorem tflush_turn (ty : m.ty = T.flush.code) : Answers m s (tflush g m.body) := by
  apply Ends.bind
  apply ends_parse _ rfl
  intro old rest _
  apply Ends.get
  apply Ends.modify
  exact ends_pure (Turn.still (t := .flush) (by decide) ty)

theorem walkNames_turn (n : Nat) (node : Node) (qids : List Qid) (b : Bytes) :
    Ends (walkNames g n node qids b) s (fun r s' => s' = s ∧ r.2.length ≤ qids.length + n)
      fun _ s' => s' = s := by
  induction n generalizing node qids b with
  | zero => exact ends_pure ⟨rfl, le_rfl⟩
  | succ n ih =>
      apply Ends.bind
      apply ends_parse _ rfl
      intro name rest _
      apply Ends.get
      rcases walk g s.page node name with _ | next
      · exact ends_pure ⟨rfl, by simp⟩
      · apply (ih _ _ _).mono _ fun _ _ same => same
        rintro r s' ⟨same, count⟩
        rw [List.length_append, List.length_singleton] at count
        exact ⟨same, by omega⟩

theorem twalk_turn (ty : m.ty = T.walk.code) : Answers m s (twalk g m.body) := by
  apply Ends.bind
  apply ends_parse _ rfl
  rintro ⟨fid, newfid, n⟩ rest read
  have args : m.walks = some (fid, newfid, n) := congrArg Prod.fst read
  apply Ends.bind
  apply ends_lookup _ rfl
  intro f there
  apply Ends.bind
  apply (walkNames_turn _ _ _ _).mono
  · rintro ⟨node, qids⟩ s₁ ⟨rfl, count⟩
    rw [List.length_nil, Nat.zero_add] at count
    dsimp only at count ⊢
    have bound := n.toNat_lt
    apply ends_ite
    · intro _
      exact ends_throw rfl
    intro _
    apply Ends.modify
    apply ends_pure
    rw [Took]
    split_ifs with all
    · rw [table_insert]
      apply Turn.walk ty args (table_of_fids there)
      rw [Ninep.count_of_walked, all, UInt16.ofNat_toNat]
    · apply Turn.stopped ty args (Ninep.count_of_walked _ _)
      have fits : qids.length < UInt16.size := by
        rw [UInt16.size]
        omega
      rw [UInt16.lt_iff_toNat_lt, UInt16.toNat_ofNat_of_lt' fits]
      omega
  · rintro _ _ rfl
    rfl

theorem topen_turn (ty : m.ty = T.open.code) : Answers m s (topen g m.body) := by
  apply Ends.bind
  apply ends_parse _ rfl
  rintro ⟨fid, mode⟩ rest read
  have args : m.opens = some (fid, mode) := congrArg Prod.fst read
  apply Ends.bind
  apply ends_lookup _ rfl
  intro f there
  apply Ends.bind
  apply ends_ite
  · intro new
    apply Ends.get
    apply Ends.modify
    rcases g.created s.page with ⟨e | w, page⟩
    · exact ends_throw rfl
    apply ends_pure
    apply Ends.modify
    apply ends_pure
    rw [Took, table_insert]
    apply Turn.open ty args (table_of_fids there)
    rw [named]
    dsimp only
    rw [Fid.named, if_pos new]
    exact ⟨_, rfl⟩
  · intro old
    apply ends_pure
    apply Ends.modify
    apply ends_pure
    rw [Took, table_insert]
    apply Turn.open ty args (table_of_fids there)
    rw [named]
    dsimp only
    rw [Fid.named, if_neg old]

theorem table_gather {fid : UInt32} {f : Fid} (there : s.fids fid = some f) (held : Held)
    (page : P) : Emca.table { s.insert fid { f with held := held } with page := page } =
    s.table := by
  have same : some (Fid.named { f with held := held }) = s.table fid := (table_of_fids there).symm
  have inserted := table_insert s fid { f with held := held }
  rw [same, Function.update_eq_self] at inserted
  exact inserted

theorem tread_turn (ty : m.ty = T.read.code) : Answers m s (tread g m.tag m.body) := by
  apply Ends.bind
  apply ends_parse _ rfl
  rintro ⟨fid, off, count⟩ rest _
  apply Ends.bind
  apply ends_lookup _ rfl
  intro f there
  apply Ends.get
  apply Ends.modify
  have same := table_gather there
  rcases (g.read _ f _ _ _).1 with e | _ | data
  · exact ends_throw (same _ _)
  · apply ends_pure
    rw [Took, same]
    exact Turn.waits
  · apply ends_pure
    rw [Took, same]
    exact Turn.still (t := .read) (by decide) ty

theorem twrite_turn (ty : m.ty = T.write.code) : Answers m s (twrite g m.body) := by
  apply Ends.bind
  apply ends_parse _ rfl
  rintro ⟨fid, off, count⟩ rest _
  apply Ends.bind
  apply ends_lookup _ rfl
  intro f there
  apply Ends.get
  apply Ends.modify
  have same := table_gather there
  rcases (g.write _ f _ _).1 with e | _
  · exact ends_throw (same _ _)
  · apply ends_pure
    rw [Took, same]
    exact Turn.still (t := .write) (by decide) ty

theorem tclunk_turn (ty : m.ty = T.clunk.code) : Answers m s (tclunk g m.body) := by
  apply Ends.bind
  apply ends_parse _ rfl
  intro fid rest read
  apply Ends.get
  apply Ends.modify
  have turn : ∀ body, Turn named m (some (T.clunk.reply, body)) [] s.table (s.erase fid).table := by
    intro body
    rw [table_erase]
    exact Turn.clunk ty (congrArg Prod.fst read)
  rcases s.fids fid with _ | f
  · exact ends_pure (turn _)
  · apply Ends.modify
    exact ends_pure (turn _)

theorem tstat_turn (ty : m.ty = T.stat.code) : Answers m s (tstat g m.body) := by
  apply Ends.bind
  apply ends_parse _ rfl
  intro fid rest _
  apply Ends.bind
  apply ends_lookup _ rfl
  intro f there
  apply Ends.get
  exact ends_pure (Turn.still (t := .stat) (by decide) ty)

theorem t_turn (kept : m.ty ≠ T.remove.code) : Answers m s (t g m) := by
  apply ends_ite tversion_turn
  intro _
  apply ends_ite
  · intro _
    exact ends_throw rfl
  intro _
  apply ends_ite tattach_turn
  intro _
  apply ends_ite tflush_turn
  intro _
  apply ends_ite twalk_turn
  intro _
  apply ends_ite topen_turn
  intro _
  apply ends_ite
  · intro _
    exact ends_throw rfl
  intro _
  apply ends_ite tread_turn
  intro _
  apply ends_ite twrite_turn
  intro _
  apply ends_ite tclunk_turn
  intro _
  apply ends_ite
  · intro ty
    exact absurd ty kept
  intro _
  apply ends_ite tstat_turn
  intro _
  apply ends_ite
  · intro ty
    exact ends_pure (Turn.still (t := .wstat) (by decide) ty)
  intro _
  exact ends_throw rfl

end Emca

end Ipnx.Host
