import Ipnx.Name.Walk
import Ipnx.Ninep.Listing

/-!
# Channels, as devices have them

What `chan.rs` and `dev.rs` give every device: the channel with what reading through it uses, the
mode it is open in, and the entry of a file in a directory.
-/

namespace Ipnx.Dev

open Ninep (Dir)

/-- A channel, with the offset and the directory entry that the next read is at. -/
structure Chan extends Name.Chan where
  offset : UInt64
  dri : UInt32
deriving DecidableEq, Repr, Inhabited

def copen : UInt16 := 0x0001
def cmsg : UInt16 := 0x0002
def ccexec : UInt16 := 0x0008
def crclose : UInt16 := 0x0020

def oread : UInt16 := 0
def owrite : UInt16 := 1
def ordwr : UInt16 := 2
def oexec : UInt16 := 3
def otrunc : UInt16 := 16
def ocexec : UInt16 := 32
def orclose : UInt16 := 64

def qtmount : UInt8 := 0x10
def qtauth : UInt8 := 0x08

def eperm : String := "permission denied"
def ebadarg : String := "bad arg in system call"
def eexist : String := "file already exists"
def enonexist : String := "file does not exist"
def ebadusefd : String := "inappropriate use of fd"
def enotdir : String := "not a directory"

namespace Chan

def attachSpec (dev : Name.DevId) (devno : UInt32) (spec : String) : Chan :=
  { Name.Chan.attachSpec dev devno spec with offset := 0, dri := 0 }

def has (c : Chan) (flag : UInt16) : Bool := c.flag &&& flag != 0

def walked (c : Chan) (name : String) (qid : Name.Qid) : Chan :=
  { c with toChan := c.toChan.walked name qid, offset := 0 }

def opened (c : Chan) (mode : UInt16) : Chan :=
  { c with mode := mode, flag := c.flag ||| copen, offset := 0 }

@[simp]
theorem walked_qid (c : Chan) (name : String) (qid : Name.Qid) :
    (c.walked name qid).qid = qid := rfl

end Chan

/-- The mode a channel is open in: less the flags, and `OEXEC` is `OREAD`. -/
def openmode (omode : UInt16) : Except String UInt16 :=
  let o := omode &&& ~~~(otrunc ||| ocexec ||| orclose)
  if oexec < o then .error ebadarg else if o = oexec then .ok oread else .ok o

/-- `fdtochan`'s checks on the channel it found. -/
def fdcheck (c : Chan) (mode : Option UInt16) (chkmnt : Bool) : Except String Unit :=
  if chkmnt && c.has cmsg then .error ebadusefd
  else
    match mode with
    | none => .ok ()
    | some m =>
        if c.mode = ordwr then .ok ()
        else if m &&& otrunc ≠ 0 ∧ c.mode = oread then .error ebadusefd
        else if m &&& ~~~otrunc ≠ c.mode then .error ebadusefd
        else .ok ()

/-- The entry of a device's file, whose directory bit is the qid's. -/
def devdir (c : Chan) (qid : Name.Qid) (name : String) (length : UInt64) (user eve : String)
    (perm : UInt32) : Dir :=
  let qid := if c.has cmsg then { qid with qtype := qid.qtype ||| qtmount } else qid
  { dtype := UInt16.ofNat c.dev.letter.toNat
    dev := c.devno
    qid := qid
    mode := perm ||| (qid.qtype.toUInt32 <<< 24)
    atime := 0
    mtime := 0
    length := length
    name := name
    uid := user
    gid := eve
    muid := user }

/-- What the two low bits of a mode ask of a file's owner. -/
def access : List UInt32 := [0o400, 0o200, 0o600, 0o100]

/-- A user who is not the owner is judged by its own class's bits, moved into the owner's place. -/
def permcheck (user fileuid eve : String) (perm : UInt32) (omode : UInt16) : Except String Unit :=
  let perm := if user = fileuid then perm else if user = eve then perm <<< 3 else perm <<< 6
  let t := access.getD (omode &&& 3).toNat 0
  if perm &&& t = t then .ok () else .error eperm

/-- What a digit or a letter counts, and the base for what is neither. -/
def digit (base : UInt32) (c : UInt8) : UInt32 :=
  if 48 ≤ c ∧ c ≤ 57 then (c - 48).toUInt32
  else if 97 ≤ c ∧ c ≤ 122 then (c - 97).toUInt32 + 10
  else if 65 ≤ c ∧ c ≤ 90 then (c - 65).toUInt32 + 10
  else base

/-- The digits up to the first that is not one, and whether they are too many. -/
def digits (base n : UInt32) (ovfl : Bool) : Bytes → UInt32 × Bool
  | [] => (n, ovfl)
  | c :: s =>
      if base ≤ digit base c then (n, ovfl)
      else
        let nn := n * base + digit base c
        digits base nn (ovfl || 0xffffffff / base < n || nn < n) s

def isspace (c : UInt8) : Bool := c == 32 || (9 ≤ c && c ≤ 13)

def sign : Bytes → Bool × Bytes
  | [] => (false, [])
  | c :: s => if c = 45 then (true, s) else if c = 43 then (false, s) else (false, c :: s)

/-- The base that the first digits tell, and the digits: `0x` is hexadecimal before a digit, and a
leading `0` is octal. -/
def basis : Bytes → UInt32 × Bytes
  | 48 :: x :: s =>
      if x = 120 ∨ x = 88 then
        match s with
        | h :: _ => if digit 16 h < 16 then (16, s) else (16, 48 :: x :: s)
        | [] => (16, [48, x])
      else (8, 48 :: x :: s)
  | [48] => (8, [48])
  | s => (10, s)

/-- A number at the front of a text, in 32 bits. -/
def strtoul (s : Bytes) : UInt32 :=
  let signed := sign (s.dropWhile isspace)
  let based := basis signed.2
  let r := digits based.1 0 false based.2
  if r.2 then 0xffffffff else if signed.1 then -r.1 else r.1

example : strtoul [32, 45, 48, 120, 49, 48, 10] = -16 := by decide

end Ipnx.Dev
