import Ipnx.Lib.Codec
import Ipnx.Name.Chan

/-!
# 9P messages

`ninep.rs`, the wire's part: the writer that a message's body is built with, the reader it is
taken apart with, and the frame around it. A string is a 16-bit count and its bytes.
-/

namespace Ipnx.Ninep

open List
open Ipnx.Name (Qid qtdir)

/-- Message types. A request's reply is its successor. -/
inductive T
  | version | auth | attach | error | flush | walk | open | create | read | write | clunk
  | remove | stat | wstat
deriving DecidableEq, Repr

namespace T

def code : T → UInt8
  | .version => 100
  | .auth => 102
  | .attach => 104
  | .error => 107
  | .flush => 108
  | .walk => 110
  | .open => 112
  | .create => 114
  | .read => 116
  | .write => 118
  | .clunk => 120
  | .remove => 122
  | .stat => 124
  | .wstat => 126

def reply (t : T) : UInt8 := t.code + 1

end T

def nofid : UInt32 := 0xffffffff

def utf8 (s : String) : Bytes := s.toByteArray.data.toList

def fromUtf8 (b : Bytes) : Option String := String.fromUTF8? ⟨b.toArray⟩

theorem fromUtf8_utf8 (s : String) : fromUtf8 (utf8 s) = some s := by
  have same : (⟨(utf8 s).toArray⟩ : ByteArray) = s.toByteArray := rfl
  rw [fromUtf8, same, String.fromUTF8?, dif_pos s.isValidUTF8]
  rfl

theorem utf8_fromUtf8 {b : Bytes} {s : String} (read : fromUtf8 b = some s) : utf8 s = b := by
  rw [fromUtf8, String.fromUTF8?] at read
  split_ifs at read
  cases read
  rfl

structure W where
  body : Bytes
deriving DecidableEq, Repr

namespace W

def new : W := ⟨[]⟩

def raw (w : W) (b : Bytes) : W := ⟨w.body ++ b⟩
def u8 (w : W) (v : UInt8) : W := w.raw (leBytes 1 v.toNat)
def u16 (w : W) (v : UInt16) : W := w.raw (leBytes 2 v.toNat)
def u32 (w : W) (v : UInt32) : W := w.raw (leBytes 4 v.toNat)
def u64 (w : W) (v : UInt64) : W := w.raw (leBytes 8 v.toNat)

/-- A counted string: the count is the length's low 16 bits. -/
def s (w : W) (v : String) : W := (w.u16 (UInt16.ofNat (utf8 v).length)).raw (utf8 v)

/-- `size[4] type[1] tag[2]`, then the body; the size counts itself. -/
def frame (w : W) (ty : UInt8) (tag : UInt16) : Bytes :=
  leBytes 4 (UInt32.ofNat (4 + 1 + 2 + w.body.length)).toNat ++ [ty] ++ leBytes 2 tag.toNat
      ++ w.body

end W

abbrev R := Reader

namespace R

def u8 : R UInt8 := Codec.u8.read
def u16 : R UInt16 := Codec.u16.read
def u32 : R UInt32 := Codec.u32.read
def u64 : R UInt64 := Codec.u64.read

/-- Bytes that are not UTF-8 are taken and refused. -/
def s : R String := do
  let n ← u16
  let b ← Reader.take n.toNat
  OptionT.mk (pure (fromUtf8 b))

end R

/-- A message, taken apart as far as its type and tag. -/
structure Msg where
  ty : UInt8
  tag : UInt16
  body : Bytes
deriving DecidableEq, Repr

/-- The message at the front of a buffer that holds a whole one. -/
def unframe (buf : Bytes) : Option Msg :=
  match (do let size ← R.u32; pure size : R UInt32).on buf with
  | (none, _) => none
  | (some size, rest) =>
      if size.toNat < 7 ∨ buf.length < size.toNat then none
      else
        match (do let ty ← R.u8; let tag ← R.u16; pure (ty, tag) : R (UInt8 × UInt16)).on rest with
        | (some (ty, tag), _) => some ⟨ty, tag, (buf.take size.toNat).drop 7⟩
        | (none, _) => none

namespace Wire

/-- A counted string shorter than its count can say. -/
def string : Codec String where
  write v := leBytes 2 (UInt16.ofNat (utf8 v).length).toNat ++ utf8 v
  read := R.s
  Fits v := (utf8 v).length < 2 ^ 16
  read_write := by
    intro v fits
    have count : (UInt16.ofNat (utf8 v).length).toNat = (utf8 v).length :=
      UInt16.toNat_ofNat_of_lt' fits
    have last : Reader.Reads (OptionT.mk (pure (fromUtf8 (utf8 v)))) [] v := by
      intro rest
      rw [fromUtf8_utf8]
      rfl
    have bytes := (Reader.reads_take (utf8 v)).bind
      (k := fun b => OptionT.mk (pure (fromUtf8 b))) last
    rw [append_nil] at bytes
    have whole := (Codec.u16.read_write (a := UInt16.ofNat (utf8 v).length) trivial).bind
      (k := fun n => do
        let b ← Reader.take n.toNat
        OptionT.mk (pure (fromUtf8 b)))
      (c := v) (by rw [count]; exact bytes : Reader.Reads _ (utf8 v) v)
    exact whole
  write_read := by
    intro v b rest read
    rcases Reader.bind_some read with ⟨n, mid, first, others⟩
    rcases Codec.u16.write_read first with ⟨_, rfl⟩
    rcases Reader.bind_some others with ⟨bytes, mid', took, last⟩
    rcases Reader.take_some took with ⟨length, rfl⟩
    have decoded : fromUtf8 bytes = some v ∧ mid' = rest := by
      rcases known : fromUtf8 bytes with _ | v'
      · rw [known] at last
        cases last
      · rw [known] at last
        cases last
        exact ⟨rfl, rfl⟩
    rcases decoded with ⟨decoded, rfl⟩
    have same := utf8_fromUtf8 decoded
    have bound := n.toNat_lt
    subst same
    refine ⟨by omega, ?_⟩
    rw [length, UInt16.ofNat_toNat, append_assoc]
    rfl

end Wire

theorem unframe_frame {body : Bytes} (fits : 4 + 1 + 2 + body.length < 2 ^ 32) (ty : UInt8)
    (tag : UInt16) : unframe ((⟨body⟩ : W).frame ty tag) = some ⟨ty, tag, body⟩ := by
  have count : (UInt32.ofNat (4 + 1 + 2 + body.length)).toNat = 4 + 1 + 2 + body.length :=
    UInt32.toNat_ofNat_of_lt' fits
  have whole : (⟨body⟩ : W).frame ty tag =
      leBytes 4 (UInt32.ofNat (4 + 1 + 2 + body.length)).toNat ++
        (leBytes 1 ty.toNat ++ (leBytes 2 tag.toNat ++ body)) := by
    simp [W.frame, leBytes, UInt8.ofNat_toNat]
  have length : ((⟨body⟩ : W).frame ty tag).length = 4 + 1 + 2 + body.length := by
    rw [whole]
    simp only [length_append, leBytes_length]
    omega
  have size := (Codec.u32.read_write (a := UInt32.ofNat (4 + 1 + 2 + body.length)) trivial).bind
    (k := fun size => (pure size : R UInt32)) (Reader.reads_pure _)
  have rest := ((Codec.u8.pair Codec.u16).read_write (a := (ty, tag)) ⟨trivial, trivial⟩) body
  have first : (do let size ← R.u32; pure size : R UInt32).on ((⟨body⟩ : W).frame ty tag) =
      (some (UInt32.ofNat (4 + 1 + 2 + body.length)),
        leBytes 1 ty.toNat ++ (leBytes 2 tag.toNat ++ body)) := by
    rw [whole]
    rw [append_nil] at size
    exact size _
  have second : (do let ty ← R.u8; let tag ← R.u16; pure (ty, tag) : R (UInt8 × UInt16)).on
      (leBytes 1 ty.toNat ++ (leBytes 2 tag.toNat ++ body)) = (some (ty, tag), body) := by
    rw [← append_assoc]
    exact rest
  have enough : ¬(4 + 1 + 2 + body.length < 7 ∨
      ((⟨body⟩ : W).frame ty tag).length < 4 + 1 + 2 + body.length) := by
    rw [length]
    omega
  have last : (((⟨body⟩ : W).frame ty tag).take (4 + 1 + 2 + body.length)).drop 7 = body := by
    rw [take_of_length_le length.le, whole, ← append_assoc, ← append_assoc]
    apply drop_left'
    simp only [length_append, leBytes_length]
  simp only [unframe, first, second, count, if_neg enough, last]

end Ipnx.Ninep
