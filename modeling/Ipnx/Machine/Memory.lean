import Ipnx.Lib.Codec
import Ipnx.Lib.Utf8
import Ipnx.Lib.Window

/-!
# A process's memory, as the machine reaches it

`hosts/ipnx/src/machine.rs`: names, vectors and buffers are read at the addresses a process passes,
and results written, with an address that is negative as an `i32` taken as 0.
-/

namespace Ipnx

open List

abbrev Word := BitVec 32

/-- Whole pages, and no more than a word can say. -/
structure Memory where
  bytes : Bytes
  whole : bytes.length % 65536 = 0
  bounded : bytes.length ≤ 2 ^ 32

/-- `p.max(0) as usize`. -/
def Word.clamp (p : Word) : Nat := p.toInt.toNat

namespace Memory

def size (m : Memory) : Nat := m.bytes.length

def slice (m : Memory) (start stop : Nat) : Bytes := (m.bytes.drop start).take (stop - start)

def readAt (m : Memory) (start n : Nat) : Option Bytes :=
  if start + n ≤ m.size then some (m.slice start (start + n)) else none

theorem overwrite_length {bytes b : Bytes} {start : Nat}
    (fits : start + b.length ≤ bytes.length) : (overwrite bytes start b).length = bytes.length := by
  simp only [overwrite, length_append, length_take, length_drop]
  omega

def writeAt (m : Memory) (start : Nat) (b : Bytes) : Option Memory :=
  if fits : start + b.length ≤ m.size then
    some ⟨overwrite m.bytes start b, by rw [overwrite_length fits]; exact m.whole,
      by rw [overwrite_length fits]; exact m.bounded⟩
  else none

/-- More pages, of zeros, while there are no more than `max`. -/
def grow (m : Memory) (pages max : Nat) : Option Memory :=
  if fits : m.bytes.length + 65536 * pages ≤ 65536 * max ∧
      m.bytes.length + 65536 * pages ≤ 2 ^ 32 then
    some ⟨m.bytes ++ List.replicate (65536 * pages) 0,
      by simp only [length_append, length_replicate]; have := m.whole; omega,
      by simp only [length_append, length_replicate]; exact fits.2⟩
  else none

/-- From an address to the first NUL after it, or to the end. -/
def span (m : Memory) (start : Nat) : Option (Nat × Nat) :=
  if start > m.size then none else some (start, start + (m.bytes.drop start).findIdx (· = 0))

def cbytes (m : Memory) (p : Word) : Option Bytes :=
  (m.span p.clamp).map fun s => m.slice s.1 s.2

def cstr (m : Memory) (p : Word) : Option String := (m.cbytes p).map Utf8.lossy

/-- `i32::from_le_bytes`. -/
def fromLe (b : Bytes) : Word := .ofNat 32 (ofLe b)

/-- Pointers until a nil one, with what each points at. -/
def vector (f : Word → Option α) : Bytes → Option (List α)
  | b₀ :: b₁ :: b₂ :: b₃ :: rest =>
      if fromLe [b₀, b₁, b₂, b₃] = 0 then some []
      else (f (fromLe [b₀, b₁, b₂, b₃])).bind fun s => (vector f rest).map (s :: ·)
  | _ => none

def cargv (m : Memory) (p : Word) : Option (List String) :=
  vector m.cstr (m.bytes.drop p.clamp)

def cbytesv (m : Memory) (p : Word) : Option (List Bytes) :=
  vector m.cbytes (m.bytes.drop p.clamp)

def read (m : Memory) (p n : Word) : Option Bytes := m.readAt p.clamp n.clamp

def write (m : Memory) (p : Word) (b : Bytes) : Option Memory := m.writeAt p.clamp b

variable {m m' : Memory} {b : Bytes} {start stop : Nat} {α : Type} {f : Word → Option α}

theorem clamp_ofNat {n : Nat} (low : n < 2 ^ 31) : Word.clamp (.ofNat 32 n) = n := by
  rw [Word.clamp, BitVec.toInt_ofNat', Int.bmod_eq_of_le] <;> omega

theorem writeAt_some (m : Memory) (start : Nat) (b : Bytes) (fits : start + b.length ≤ m.size) :
    ∃ m', m.writeAt start b = some m' ∧ m'.bytes = overwrite m.bytes start b := by
  rw [writeAt, dif_pos fits]
  exact ⟨_, rfl, rfl⟩

theorem overwrite_two {bytes b b' : Bytes} (apart : start + b.length ≤ stop)
    (fits : stop + b'.length ≤ bytes.length) :
    overwrite (overwrite bytes start b) stop b' =
      bytes.take start ++ b ++ (bytes.drop (start + b.length)).take (stop - (start + b.length)) ++
        b' ++ bytes.drop (stop + b'.length) := by
  have first : (bytes.take start ++ b).length = start + b.length := by
    rw [length_append, length_take]
    omega
  have rest : start + b.length + (stop + b'.length - (start + b.length)) = stop + b'.length := by
    omega
  have whole : (bytes.take start ++ b).take stop = bytes.take start ++ b :=
    take_of_length_le (by omega)
  have past : (bytes.take start ++ b).drop (stop + b'.length) = [] :=
    drop_of_length_le (by omega)
  rw [overwrite, overwrite, take_append, drop_append, first, whole, past, drop_drop,
    rest, nil_append]

theorem vector_cons {n : Nat} (low : n < 2 ^ 32) (there : n ≠ 0) (rest : Bytes) :
    vector f (leBytes 4 n ++ rest) =
      (f (.ofNat 32 n)).bind fun s => (vector f rest).map (s :: ·) := by
  have value : ofLe (leBytes 4 n) = n := ofLe_leBytes (by omega)
  have other : (BitVec.ofNat 32 n : Word) ≠ 0 := by
    intro same
    have zero := congrArg BitVec.toNat same
    rw [BitVec.toNat_ofNat, Nat.mod_eq_of_lt low] at zero
    exact there zero
  have unfolded : vector f (leBytes 4 n ++ rest) = if fromLe (leBytes 4 n) = 0 then some []
      else (f (fromLe (leBytes 4 n))).bind fun s => (vector f rest).map (s :: ·) := rfl
  rw [unfolded, fromLe, value, if_neg other]

theorem vector_nil (rest : Bytes) : vector f (leBytes 4 0 ++ rest) = some [] := rfl

theorem cbytes_string {n : Nat} {s rest : Bytes} (low : n < 2 ^ 31)
    (there : m.bytes.drop n = s ++ 0 :: rest) (plain : (0 : UInt8) ∉ s) :
    m.cbytes (.ofNat 32 n) = some s := by
  have inside : n ≤ m.size := by
    by_contra outside
    have none_ : m.bytes.drop n = [] := drop_eq_nil_of_le (by rw [size] at outside; omega)
    simp [none_] at there
  have first : (s ++ 0 :: rest).findIdx (· = 0) = s.length := by
    rw [findIdx_append, if_neg]
    · simp [findIdx_cons]
    · simpa using plain
  rw [cbytes, clamp_ofNat low, span, if_neg (by omega), there, first, Option.map_some, slice, there,
    Nat.add_sub_cancel_left, take_left]

end Memory

end Ipnx
