import Ipnx.Host.Path
import Ipnx.Lib.Codec
import Ipnx.Lib.System

/-!
# The page's tree

`hosts/web/src/tree.rs`. The files are slots of a list, and a slot is not used twice. A look at
a slot that is empty stops the machine: such a call here answers nothing. A file of the built
root is fetched when its bytes are first wanted, and the time is the page's; what the page
answers to either is an argument.
-/

namespace Ipnx.Host

def enonexist : String := "file does not exist"
def eexist : String := "file already exists"
def enotdir : String := "not a directory"
def eisdir : String := "file is a directory"
def enotempty : String := "directory not empty"
def eperm : String := "permission denied"

inductive Data
  /-- A directory. -/
  | dir (kids : List Nat)
  /-- A file not fetched yet: its length, and its name in the built root. -/
  | remote (len : UInt64) (at_ : String)
  | here (bytes : Bytes)
deriving DecidableEq, Repr

structure Node where
  name : String
  parent : Nat
  perm : UInt32
  atime : UInt32
  mtime : UInt32
  path : Nat
  data : Data
deriving DecidableEq, Repr

namespace Node

def isDir (n : Node) : Bool :=
  match n.data with
  | .dir _ => true
  | _ => false

def kids (n : Node) : List Nat :=
  match n.data with
  | .dir kids => kids
  | _ => []

/-- The list of a directory changed; a file is left as it is. -/
def mapKids (f : List Nat → List Nat) (n : Node) : Node :=
  match n.data with
  | .dir kids => { n with data := .dir (f kids) }
  | _ => n

end Node

structure Tree where
  nodes : List (Option Node)
  next : Nat
deriving DecidableEq, Repr

namespace Tree

def root : Tree where
  nodes := [some ⟨"", 0, 0o775, 0, 0, 0, .dir []⟩]
  next := 1

def node (t : Tree) (i : Nat) : Option Node := (t.nodes[i]?).join

def edit (t : Tree) (i : Nat) (f : Node → Node) : Option Tree := do
  let n ← t.node i
  pure { t with nodes := t.nodes.set i (some (f n)) }

def add (t : Tree) (dir : Nat) (name : String) (perm mtime : UInt32) (data : Data) : Option Tree :=
  let made : Node := ⟨name, dir, perm, mtime, mtime, t.next, data⟩
  { t with nodes := t.nodes ++ [some made], next := t.next + 1 }.edit dir
    (Node.mapKids (· ++ [t.nodes.length]))

def named (t : Tree) (name : String) : List Nat → Option (Option Nat)
  | [] => some none
  | k :: ks => do
      let n ← t.node k
      if n.name = name then pure (some k) else t.named name ks

def child (t : Tree) (dir : Nat) (name : String) : Option (Option Nat) := do
  let n ← t.node dir
  t.named name n.kids

def walk (t : Tree) : Nat → List String → Option (Option Nat)
  | at_, [] => some (some at_)
  | at_, name :: names => do
      match ← t.child at_ name with
      | none => pure none
      | some k => t.walk k names

def find (t : Tree) (p : Path) : Option (Option Nat) := t.walk 0 p.names

def findParent (t : Tree) (p : Path) : Option (Option Nat) :=
  match p.parent with
  | none => some none
  | some d => t.find d

/-- Where a new name goes: its directory, which must be one, and the name, which must not be
there already. -/
def place (t : Tree) (p : Path) : Option (Except String (Nat × String)) := do
  match ← t.findParent p with
  | none => pure (.error enonexist)
  | some dir =>
      let n ← t.node dir
      if n.isDir then
        match p.fileName with
        | none => pure (.error enonexist)
        | some name =>
            match ← t.child dir name with
            | some _ => pure (.error eexist)
            | none => pure (.ok (dir, name))
      else pure (.error enotdir)

/-- A string's parts between a character, the last of at most `n` being the rest. -/
def splitn : Nat → Char → List Char → List (List Char)
  | 0, _, _ => []
  | 1, _, s => [s]
  | n + 2, c, s =>
      if c ∈ s then s.takeWhile (· ≠ c) :: splitn (n + 1) c ((s.dropWhile (· ≠ c)).tail) else [s]

def digit (radix : Nat) (c : Char) : Option Nat :=
  let d := c.toNat - '0'.toNat
  if '0' ≤ c ∧ d < radix then some d else none

def digits (radix bound : Nat) : Nat → List Char → Option Nat
  | n, [] => some n
  | n, c :: cs => do
      let d ← digit radix c
      if n * radix + d < bound then digits radix bound (n * radix + d) cs else none

/-- A number as the standard library reads one: a plus sign may stand in front. -/
def parse (radix bound : Nat) (s : List Char) : Option Nat :=
  match s with
  | [] | ['+'] => none
  | '+' :: cs => digits radix bound 0 cs
  | cs => digits radix bound 0 cs

/-- A line ends in a newline, or a return and a newline. -/
def line (s : List Char) : List Char := if s.getLast? = some '\r' then s.dropLast else s

def lines (index : String) : List (List Char) :=
  let parts := index.toList.splitOn '\n'
  parts.dropLast.map line ++ (parts.getLast?.toList.filter (· ≠ []))

/-- What a line of the index says of a file. -/
structure Entry where
  isDir : Bool
  perm : UInt32
  size : UInt64
  mtime : UInt32
  path : String
deriving DecidableEq, Repr

def entry (s : List Char) : Option Entry :=
  match splitn 5 '\t' s with
  | [kind, perm, size, mtime, path] => some
      { isDir := kind = ['d']
        perm := .ofNat ((parse 8 (2 ^ 32) perm).getD 0o644)
        size := .ofNat ((parse 10 (2 ^ 64) size).getD 0)
        mtime := .ofNat ((parse 10 (2 ^ 32) mtime).getD 0)
        path := .ofList path }
  | _ => none

/-- The file of a line put in the tree, if its directory is there. -/
def enter (t : Tree) (e : Entry) : Option Tree := do
  let p := Path.new e.path
  match p.fileName with
  | none => pure t
  | some name =>
      match ← t.findParent p with
      | none => pure t
      | some dir =>
          t.add dir name e.perm e.mtime (if e.isDir then .dir [] else .remote e.size e.path)

def entries (index : String) : List Entry := (lines index).filterMap entry

def new (index : String) : Option Tree := (entries index).foldlM enter root

/-- What a call answers, and the tree after it. -/
abbrev Call (α : Type) := Except String α × Tree

/-- A vector of the page's machine is shorter than this. -/
def vecMax : Nat := 2 ^ 31

/-- `Vec<u8>` grown with zeros, or cut. To grow one beyond what a vector holds stops the
machine. -/
def resize (b : Bytes) (n : Nat) : Option Bytes :=
  if b.length < n ∧ vecMax ≤ n then none else some (b.take n ++ List.replicate (n - b.length) 0)

/-- The bytes of a file, fetched if they are not here yet. -/
def bytes (t : Tree) (i : Nat) (fetched : Option Bytes) : Option (Call Bytes) := do
  let n ← t.node i
  match n.data with
  | .remote _ at_ =>
      match fetched with
      | none => pure (.error (at_ ++ ": could not be fetched"), t)
      | some b =>
          let t ← t.edit i fun n => { n with data := .here b }
          pure (.ok b, t)
  | .here b => pure (.ok b, t)
  | .dir _ => pure (.error eisdir, t)

/-- A file's bytes changed, and its time with them. -/
def change (t : Tree) (p : Path) (fetched : Option Bytes) (now : UInt32)
    (f : Bytes → Option Bytes) : Option (Call Unit) := do
  match ← t.find p with
  | none => pure (.error enonexist, t)
  | some i =>
      match ← t.bytes i fetched with
      | (.error e, t) => pure (.error e, t)
      | (.ok b, t) =>
          let b ← f b
          let t ← t.edit i fun n => { n with data := .here b, mtime := now }
          pure (.ok (), t)

/-- A number as the page's machine indexes with it. -/
def usize (n : UInt64) : Nat := n.toNat % 2 ^ 32

/-- `data` over the bytes from `off`; a range past the end of what can be indexed stops the
machine. -/
def overwrite (off : UInt64) (data b : Bytes) : Option Bytes :=
  let end_ := usize off + data.length
  if 2 ^ 32 ≤ end_ then none
  else do
    let b ← if b.length < end_ then resize b end_ else some b
    some (b.take (usize off) ++ data ++ b.drop end_)

def read (t : Tree) (p : Path) (off : UInt64) (n : Nat) (fetched : Option Bytes) :
    Option (Call Bytes) := do
  match ← t.find p with
  | none => pure (.error enonexist, t)
  | some i =>
      match ← t.bytes i fetched with
      | (.error e, t) => pure (.error e, t)
      | (.ok b, t) =>
          let from_ := min (usize off) b.length
          if 2 ^ 32 ≤ from_ + n then none else pure (.ok ((b.drop from_).take n), t)

def write (t : Tree) (p : Path) (off : UInt64) (data : Bytes) (fetched : Option Bytes)
    (now : UInt32) : Option (Call Unit) :=
  t.change p fetched now (overwrite off data)

def truncate (t : Tree) (p : Path) (len : UInt64) (fetched : Option Bytes) (now : UInt32) :
    Option (Call Unit) :=
  t.change p fetched now fun b => resize b (usize len)

def make (t : Tree) (p : Path) (perm now : UInt32) (data : Data) : Option (Call Unit) := do
  match ← t.place p with
  | .error e => pure (.error e, t)
  | .ok (dir, name) =>
      let t ← t.add dir name perm now data
      pure (.ok (), t)

def mkdir (t : Tree) (p : Path) (perm now : UInt32) : Option (Call Unit) :=
  t.make p perm now (.dir [])

def mkfile (t : Tree) (p : Path) (perm now : UInt32) : Option (Call Unit) :=
  t.make p perm now (.here [])

def put (t : Tree) (p : Path) (f : Node → Node) : Option (Call Unit) := do
  match ← t.find p with
  | none => pure (.error enonexist, t)
  | some i =>
      let t ← t.edit i f
      pure (.ok (), t)

def chmod (t : Tree) (p : Path) (perm : UInt32) : Option (Call Unit) :=
  t.put p fun n => { n with perm := perm }

def touch (t : Tree) (p : Path) (mtime : UInt32) : Option (Call Unit) :=
  t.put p fun n => { n with mtime := mtime }

/-- Off its parent's list, on the other's, and then its own name and parent. -/
def moved (t : Tree) (i dir : Nat) (name : String) : Option Tree := do
  let n ← t.node i
  let t ← t.edit n.parent (Node.mapKids fun kids => kids.filter (· ≠ i))
  let t ← t.edit dir (Node.mapKids (· ++ [i]))
  t.edit i fun n => { n with name := name, parent := dir }

def rename (t : Tree) (src dst : Path) : Option (Call Unit) := do
  match ← t.find src with
  | none => pure (.error enonexist, t)
  | some i =>
      match ← t.place dst with
      | .error e => pure (.error e, t)
      | .ok (dir, name) =>
          let t ← t.moved i dir name
          pure (.ok (), t)

/-- Off its parent's list, and its slot emptied. -/
def removed (t : Tree) (i : Nat) : Option Tree := do
  let n ← t.node i
  let t ← t.edit n.parent (Node.mapKids fun kids => kids.filter (· ≠ i))
  pure { t with nodes := t.nodes.set i none }

def remove (t : Tree) (p : Path) : Option (Call Unit) := do
  match ← t.find p with
  | none => pure (.error enonexist, t)
  | some i =>
      if i = 0 then pure (.error eperm, t)
      else
        let n ← t.node i
        if n.kids ≠ [] then pure (.error enotempty, t)
        else
          let t ← t.removed i
          pure (.ok (), t)

/-- A call of the keeper's, with what the page answers in the course of it. -/
inductive Op
  | mkdir (p : Path) (perm now : UInt32)
  | mkfile (p : Path) (perm now : UInt32)
  | rename (src dst : Path)
  | remove (p : Path)
  | read (p : Path) (off : UInt64) (n : Nat) (fetched : Option Bytes)
  | write (p : Path) (off : UInt64) (data : Bytes) (fetched : Option Bytes) (now : UInt32)
  | truncate (p : Path) (len : UInt64) (fetched : Option Bytes) (now : UInt32)
  | chmod (p : Path) (perm : UInt32)
  | touch (p : Path) (mtime : UInt32)
deriving Repr

def op (t : Tree) : Op → Option (Call Bytes)
  | .mkdir p perm now => done <| t.mkdir p perm now
  | .mkfile p perm now => done <| t.mkfile p perm now
  | .rename src dst => done <| t.rename src dst
  | .remove p => done <| t.remove p
  | .read p off n fetched => t.read p off n fetched
  | .write p off data fetched now => done <| t.write p off data fetched now
  | .truncate p len fetched now => done <| t.truncate p len fetched now
  | .chmod p perm => done <| t.chmod p perm
  | .touch p mtime => done <| t.touch p mtime
where
  done (r : Option (Call Unit)) : Option (Call Bytes) := r.map fun r => (r.1.map fun _ => [], r.2)

end Tree

end Ipnx.Host
