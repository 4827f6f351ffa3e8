import Mathlib.Data.Fintype.Basic

/-!
# Channels and mount elements

What a channel is to the namespace: the device that serves it, the instance, the qid, and what
the mount driver and `namec` keep on it. A mount element holds a channel by reference, so a
reference is a value with an address: two references are one channel when they are equal.
-/

namespace Ipnx.Name

/-- The devices, by the letters of `#` names. -/
inductive DevId
  | root | pipe | srv | mnt | proc | dup | env | cons | cap | virtio9p
deriving DecidableEq, Repr, Inhabited

namespace DevId

def letter : DevId → Char
  | root => '/'
  | pipe => '|'
  | srv => 's'
  | mnt => 'M'
  | proc => 'p'
  | dup => 'd'
  | env => 'e'
  | cons => 'c'
  | cap => '¤'
  | virtio9p => '9'

def fromLetter : Char → Option DevId
  | '/' => some root
  | '|' => some pipe
  | 's' => some srv
  | 'M' => some mnt
  | 'p' => some proc
  | 'd' => some dup
  | 'e' => some env
  | 'c' => some cons
  | '¤' => some cap
  | '9' => some virtio9p
  | _ => none

end DevId

structure Qid where
  qtype : UInt8
  vers : UInt32
  path : UInt64
deriving DecidableEq, Repr, Inhabited

def qtdir : UInt8 := 0x80

def Qid.isDir (q : Qid) : Bool := q.qtype &&& qtdir != 0

def nofid : UInt32 := 0xffffffff

/-- A channel, less what only reading and writing through it uses. -/
structure Chan where
  dev : DevId
  devno : UInt32
  qid : Qid
  mode : UInt16
  flag : UInt16
  fid : UInt32
  ismtpt : Bool
  path : String
  aux : UInt64
deriving DecidableEq, Repr, Inhabited

namespace Chan

def attachSpec (dev : DevId) (devno : UInt32) (spec : String) : Chan where
  dev := dev
  devno := devno
  qid := ⟨qtdir, 0, 0⟩
  mode := 0
  flag := 0
  fid := nofid
  ismtpt := false
  path := String.ofList ['#', dev.letter] ++ spec
  aux := 0

def attach (dev : DevId) (devno : UInt32) : Chan := attachSpec dev devno ""

def isDir (c : Chan) : Bool := c.qid.isDir

end Chan

/-- A reference to a value on the heap: `Rc`. -/
structure Rc (α : Type) where
  ptr : Nat
  val : α
deriving DecidableEq, Repr, Inhabited

/-- The same device, instance, qid path and qid type, whatever the qid's version. -/
def eqchan (a b : Chan) : Bool :=
  a.qid.path == b.qid.path && a.qid.qtype == b.qid.qtype && a.dev == b.dev && a.devno == b.devno

theorem eqchan_iff {a b : Chan} : eqchan a b = true ↔
    a.qid.path = b.qid.path ∧ a.qid.qtype = b.qid.qtype ∧ a.dev = b.dev ∧ a.devno = b.devno := by
  simp [eqchan, and_assoc]

theorem eqchan_symm {a b : Chan} (same : eqchan a b = true) : eqchan b a = true := by
  rw [eqchan_iff] at same ⊢
  exact ⟨same.1.symm, same.2.1.symm, same.2.2.1.symm, same.2.2.2.symm⟩

theorem eqchan_trans {a b c : Chan} (first : eqchan a b = true) (second : eqchan b c = true) :
    eqchan a c = true := by
  rw [eqchan_iff] at first second ⊢
  exact ⟨first.1.trans second.1, first.2.1.trans second.2.1, first.2.2.1.trans second.2.2.1,
    first.2.2.2.trans second.2.2.2⟩

/-- Where in the union the new element of a `bind` goes. -/
inductive Bind
  | replace | before | after
deriving DecidableEq, Repr

namespace Mflag

def mrepl : UInt32 := 0x0000
def mbefore : UInt32 := 0x0001
def mafter : UInt32 := 0x0002
def mcreate : UInt32 := 0x0004
def mcache : UInt32 := 0x0010
def mmask : UInt32 := 0x0017

end Mflag

/-- What a mount point resolves to: a channel, the flags it was mounted with, the server's
spec, and the mount's number. -/
structure Element where
  chan : Rc Chan
  mflag : UInt32
  spec : String
  mountid : UInt32
deriving DecidableEq, Repr

namespace Element

/-- The element `bind` and `mount` make; its number is `cmount`'s to give. -/
def shared (chan : Rc Chan) (flag : UInt32) (spec : String) : Element where
  chan := chan
  mflag := flag &&& Mflag.mmask
  spec := spec
  mountid := 0

def create (e : Element) : Bool := e.mflag &&& Mflag.mcreate != 0

end Element

end Ipnx.Name
