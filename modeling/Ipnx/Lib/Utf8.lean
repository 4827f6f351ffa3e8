import Mathlib.Tactic.SplitIfs

/-!
# A decoder of UTF-8

Bytes to characters, one byte after another, as the encoding's own decoder does it: what cannot be
part of a character is a replacement character, a byte that breaks one off begins the next, and a
byte order mark at the start is dropped. The state between bytes is kept, so that what comes in
pieces, split inside a character too, reads as one.
-/

namespace Ipnx

open List

/-- The character begun, how many bytes of it are to come, the bounds of the next, and whether a
character has been read. -/
structure Utf8 where
  point : Nat
  left : Nat
  lower : Nat
  upper : Nat
  begun : Bool
deriving DecidableEq, Repr

namespace Utf8

def new : Utf8 := ⟨0, 0, 0x80, 0xBF, false⟩

/-- What stands for bytes that are no character. -/
def replacement : Char := Char.ofNat 0xFFFD

def mark : Char := Char.ofNat 0xFEFF

def rest (d : Utf8) : Utf8 := { d with point := 0, left := 0, lower := 0x80, upper := 0xBF }

/-- A character's first byte. -/
def lead (d : Utf8) (b : Nat) : List Char × Utf8 :=
  if b ≤ 0x7F then ([Char.ofNat b], d)
  else if 0xC2 ≤ b ∧ b ≤ 0xDF then ([], { d with point := b % 0x20, left := 1 })
  else if 0xE0 ≤ b ∧ b ≤ 0xEF then
    let lower := if b = 0xE0 then 0xA0 else 0x80
    let upper := if b = 0xED then 0x9F else 0xBF
    ([], { d with point := b % 0x10, left := 2, lower := lower, upper := upper })
  else if 0xF0 ≤ b ∧ b ≤ 0xF4 then
    let lower := if b = 0xF0 then 0x90 else 0x80
    let upper := if b = 0xF4 then 0x8F else 0xBF
    ([], { d with point := b % 0x08, left := 3, lower := lower, upper := upper })
  else ([replacement], d)

def push (d : Utf8) (b : UInt8) : List Char × Utf8 :=
  if d.left = 0 then d.lead b.toNat
  else if b.toNat < d.lower ∨ d.upper < b.toNat then
    (replacement :: (d.rest.lead b.toNat).1, (d.rest.lead b.toNat).2)
  else
    let point := d.point * 0x40 + b.toNat % 0x40
    if d.left = 1 then ([Char.ofNat point], d.rest)
    else ([], { d.rest with point := point, left := d.left - 1 })

def run (d : Utf8) : List UInt8 → List Char × Utf8
  | [] => ([], d)
  | b :: bs => ((d.push b).1 ++ ((d.push b).2.run bs).1, ((d.push b).2.run bs).2)

/-- The first character of all is dropped if it is a byte order mark. -/
def skim (begun : Bool) : List Char → List Char
  | [] => []
  | c :: cs => if ¬begun ∧ c = mark then cs else c :: cs

def stream (d : Utf8) (b : List UInt8) : String × Utf8 :=
  let (cs, d') := d.run b
  (.ofList (skim d.begun cs), { d' with begun := d.begun || !cs.isEmpty })

def decode (b : List UInt8) : String :=
  let (cs, d) := new.run b
  .ofList (skim false (cs ++ if d.left = 0 then [] else [replacement]))

/-- All of it at once, with a byte order mark kept. -/
def lossy (b : List UInt8) : String :=
  let (cs, d) := new.run b
  .ofList (cs ++ if d.left = 0 then [] else [replacement])

/-- Between characters, before the first of all or after it. -/
def idle (begun : Bool) : Utf8 := ⟨0, 0, 0x80, 0xBF, begun⟩

variable {d : Utf8} {begun : Bool} {x n : Nat}

theorem run_append (bs bs' : List UInt8) :
    d.run (bs ++ bs') = ((d.run bs).1 ++ ((d.run bs).2.run bs').1, ((d.run bs).2.run bs').2) := by
  induction bs generalizing d with
  | nil => rfl
  | cons b bs ih => rw [cons_append, run, ih, run, append_assoc]

theorem lead_two (low : 2 ≤ x) (high : x < 32) :
    (idle begun).lead (x + 192) = ([], ⟨x, 1, 0x80, 0xBF, begun⟩) := by
  have part : (x + 192) % 32 = x := by omega
  rw [lead, if_neg (by omega), if_pos (by omega), part]
  rfl

theorem lead_three (high : x < 16) :
    (idle begun).lead (x + 224) = ([], ⟨x, 2, if x = 0 then 0xA0 else 0x80,
      if x = 13 then 0x9F else 0xBF, begun⟩) := by
  have part : (x + 224) % 16 = x := by omega
  have first : x + 224 = 0xE0 ↔ x = 0 := by omega
  have surrogate : x + 224 = 0xED ↔ x = 13 := by omega
  rw [lead, if_neg (by omega), if_neg (by omega), if_pos (by omega), part]
  simp only [first, surrogate]
  rfl

theorem lead_four (high : x ≤ 4) :
    (idle begun).lead (x + 240) = ([], ⟨x, 3, if x = 0 then 0x90 else 0x80,
      if x = 4 then 0x8F else 0xBF, begun⟩) := by
  have part : (x + 240) % 8 = x := by omega
  have first : x + 240 = 0xF0 ↔ x = 0 := by omega
  have last : x + 240 = 0xF4 ↔ x = 4 := by omega
  rw [lead, if_neg (by omega), if_neg (by omega), if_neg (by omega), if_pos (by omega), part]
  simp only [first, last]
  rfl

/-- A byte that goes on with a character. -/
theorem push_more (small : x < 64) (above : d.lower ≤ x + 128) (below : x + 128 ≤ d.upper)
    (more : d.left = n + 2) : d.push (UInt8.ofNat (x + 128)) =
      ([], ⟨d.point * 64 + x, n + 1, 0x80, 0xBF, d.begun⟩) := by
  have byte : (UInt8.ofNat (x + 128)).toNat = x + 128 := by
    rw [UInt8.toNat_ofNat']
    omega
  have part : (x + 128) % 64 = x := by omega
  rw [push, byte, if_neg (by omega), if_neg (by omega), part, if_neg (by omega), rest, more]
  rfl

/-- A byte that ends a character. -/
theorem push_last (small : x < 64) (above : d.lower ≤ x + 128) (below : x + 128 ≤ d.upper)
    (last : d.left = 1) : d.push (UInt8.ofNat (x + 128)) =
      ([Char.ofNat (d.point * 64 + x)], idle d.begun) := by
  have byte : (UInt8.ofNat (x + 128)).toNat = x + 128 := by
    rw [UInt8.toNat_ofNat']
    omega
  have part : (x + 128) % 64 = x := by omega
  rw [push, byte, if_neg (by omega), if_neg (by omega), part, if_pos last]
  rfl

theorem push_first (small : x < 256) :
    (idle begun).push (UInt8.ofNat x) = (idle begun).lead x := by
  rw [push, UInt8.toNat_ofNat', Nat.mod_eq_of_lt small]
  rfl

/-- A character's bytes are read as it, and what follows begins anew. -/
theorem run_encode (begun : Bool) (c : Char) :
    (idle begun).run (String.utf8EncodeChar c) = ([c], idle begun) := by
  have value : Char.ofNat c.val.toNat = c := Char.ofNat_toNat c
  have valid : c.val.toNat < 0xD800 ∨ 0xDFFF < c.val.toNat ∧ c.val.toNat < 0x110000 := c.valid
  rw [String.utf8EncodeChar]
  generalize c.val.toNat = v at value valid
  have low : v % 64 < 64 := by omega
  have middle : v / 64 % 64 < 64 := by omega
  split_ifs with one two three
  · rw [run, push_first (by omega), lead, if_pos one, value]
    rfl
  · have point : v / 64 % 32 * 64 + v % 64 = v := by omega
    rw [run, push_first (by omega), lead_two (by omega) (by omega), run,
      push_last low (by simp) (by simp; omega) rfl, point, value]
    rfl
  · have point : (v / 4096 % 16 * 64 + v / 64 % 64) * 64 + v % 64 = v := by omega
    rw [run, push_first (by omega), lead_three (by omega), run,
      push_more middle (by dsimp only; split_ifs <;> omega)
        (by dsimp only; split_ifs <;> omega) rfl, run,
      push_last low (by simp) (by simp; omega) rfl, point, value]
    rfl
  · have high : v / 4096 % 64 < 64 := by omega
    have point : ((v / 262144 % 8 * 64 + v / 4096 % 64) * 64 + v / 64 % 64) * 64 + v % 64 = v := by
      omega
    rw [run, push_first (by omega), lead_four (by omega), run,
      push_more high (by dsimp only; split_ifs <;> omega)
        (by dsimp only; split_ifs <;> omega) rfl, run,
      push_more middle (by simp) (by simp; omega) rfl, run,
      push_last low (by simp) (by simp; omega) rfl, point, value]
    rfl

def encode (s : String) : List UInt8 := s.toList.flatMap String.utf8EncodeChar

theorem run_text (begun : Bool) (cs : List Char) :
    (idle begun).run (cs.flatMap String.utf8EncodeChar) = (cs, idle begun) := by
  induction cs with
  | nil => rfl
  | cons c cs ih => rw [flatMap_cons, run_append, run_encode, ih, singleton_append]

/-- What a text is written as is read as it. -/
theorem lossy_encode (s : String) : lossy (encode s) = s := by
  have read : new.run (encode s) = (s.toList, idle false) := run_text false s.toList
  rw [lossy, read]
  simp [idle]

theorem decode_encode (s : String) : decode (encode s) = .ofList (skim false s.toList) := by
  have read : new.run (encode s) = (s.toList, idle false) := run_text false s.toList
  rw [decode, read]
  simp [idle]

theorem encode_injective {s t : String} (same : encode s = encode t) : s = t := by
  rw [← lossy_encode s, same, lossy_encode]

/-- Whether a character has been read changes nothing of how bytes are. -/
theorem push_begun (begun : Bool) (d : Utf8) (b : UInt8) :
    ({ d with begun := begun }.push b) =
      ((d.push b).1, { (d.push b).2 with begun := begun }) := by
  have first (d : Utf8) : ({ d with begun := begun }.lead b.toNat) =
      ((d.lead b.toNat).1, { (d.lead b.toNat).2 with begun := begun }) := by
    rw [lead, lead]
    split_ifs <;> rfl
  rw [push, push]
  dsimp only
  split_ifs
  · exact first d
  · exact congrArg (fun r => (replacement :: r.1, r.2)) (first d.rest)
  · rfl
  · rfl

theorem run_begun (begun : Bool) (d : Utf8) (bs : List UInt8) :
    ({ d with begun := begun }.run bs) = ((d.run bs).1, { (d.run bs).2 with begun := begun }) := by
  induction bs generalizing d with
  | nil => rfl
  | cons b bs ih => rw [run, run, push_begun, ih]

/-- A piece of which a byte order mark is dropped: the first character of all. -/
def Skims (d : Utf8) (b : List UInt8) : Prop := d.begun = false ∧ mark ∈ (d.run b).1.head?

theorem stream_of_not_skims {b : List UInt8} (whole : ¬d.Skims b) :
    (d.stream b).1 = .ofList (d.run b).1 := by
  have dropped : skim d.begun (d.run b).1 = (d.run b).1 := by
    cases read : (d.run b).1 with
    | nil => rfl
    | cons c cs =>
        rw [skim, if_neg]
        rintro ⟨early, rfl⟩
        apply whole
        rw [Skims, read]
        exact ⟨Bool.eq_false_iff.2 early, rfl⟩
  exact congrArg String.ofList dropped

/-- A text without a mark at first is decoded as it is. -/
theorem decode_text {s : String} (unmarked : mark ∉ s.toList.head?) : decode (encode s) = s := by
  rw [decode_encode]
  cases read : s.toList with
  | nil => rw [skim, ← read, String.ofList_toList]
  | cons c cs =>
      rw [read] at unmarked
      have other : c ≠ mark := by
        rintro rfl
        exact unmarked rfl
      rw [skim, if_neg (fun both => other both.2), ← read, String.ofList_toList]

/-- A character of one byte is that byte, and the bytes of others are no ASCII. -/
theorem encode_cases (c : Char) :
    (c.utf8Size = 1 ∧ c.toNat < 128 ∧ String.utf8EncodeChar c = [UInt8.ofNat c.toNat]) ∨
      (c.utf8Size ≠ 1 ∧ ∀ b ∈ String.utf8EncodeChar c, 128 ≤ b.toNat) := by
  have size := String.length_utf8EncodeChar c
  rw [String.utf8EncodeChar] at size ⊢
  split_ifs at size ⊢ with one two three
  · exact .inl ⟨size.symm, Nat.lt_succ_of_le one, rfl⟩
  all_goals
    right
    constructor
    · rw [← size]
      simp
    · intro b mem
      simp only [mem_cons, not_mem_nil, or_false] at mem
      rcases mem with rfl | rfl | rfl | rfl
      all_goals
        rw [UInt8.toNat_ofNat']
        omega

/-- Only a NUL is written with a zero. -/
theorem zero_encode {c : Char} (zero : 0 ∈ String.utf8EncodeChar c) : c = '\x00' := by
  rcases encode_cases c with ⟨_, below, one⟩ | ⟨_, high⟩
  · rw [one, mem_singleton] at zero
    have value := congrArg UInt8.toNat zero
    rw [UInt8.toNat_ofNat', Nat.mod_eq_of_lt (by omega)] at value
    exact Char.toNat_inj.1 value.symm
  · exact absurd (high 0 zero) (by decide)

end Utf8

end Ipnx
