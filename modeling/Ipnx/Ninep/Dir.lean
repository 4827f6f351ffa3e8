import Ipnx.Ninep.Wire

/-!
# Directory entries

`statcheck`, `conv_d2m`, `conv_m2d` and `parse_all` of `ninep.rs`. An entry is its size, its
fixed fields and four counted strings, and is walked three times by code that shares nothing:
once to write it, once to check it, once to read it. Here the writer and the reader are one
codec, and what the check walks over is what that codec writes.
-/

namespace Ipnx.Ninep

open List
open Ipnx.Name (Qid)

structure Dir where
  dtype : UInt16
  dev : UInt32
  qid : Qid
  mode : UInt32
  atime : UInt32
  mtime : UInt32
  length : UInt64
  name : String
  uid : String
  gid : String
  muid : String
deriving DecidableEq, Repr

/-- The fixed part of an entry, its own size and the four strings' counts included. -/
def statfixlen : Nat := 2 + 13 + 5 * 2 + 4 * 4 + 8

def countAt (buf : Bytes) (at_ : Nat) : Nat := ofLe ((buf.drop at_).take 2)

/-- Past `k` counted strings, if their counts are all there. -/
def skips (buf : Bytes) : Nat → Nat → Option Nat
  | 0, at_ => some at_
  | k + 1, at_ =>
      if buf.length < at_ + 2 then none else skips buf k (at_ + 2 + countAt buf at_)

/-- Whether a buffer is one entry: the fixed part there, its size the rest of it, and its four
strings ending where it does. -/
def statcheck (buf : Bytes) : Bool :=
  if buf.length < statfixlen ∨ buf.length ≠ 2 + countAt buf 0 then false
  else
    match skips buf 4 (statfixlen - 4 * 2) with
    | some at_ => at_ == buf.length
    | none => false

def W.qid (w : W) (q : Qid) : W := ((w.u8 q.qtype).u32 q.vers).u64 q.path

def R.qid : R Qid := do
  let qtype ← R.u8
  let vers ← R.u32
  let path ← R.u64
  pure ⟨qtype, vers, path⟩

namespace Dir

def body (d : Dir) : Bytes :=
  let fixed := W.new.u16 d.dtype |>.u32 d.dev |>.raw (W.new.qid d.qid).body |>.u32 d.mode
    |>.u32 d.atime |>.u32 d.mtime |>.u64 d.length
  (fixed.s d.name |>.s d.uid |>.s d.gid |>.s d.muid).body

/-- The entry as it goes on the wire: its size counts what follows it. -/
def convD2M (d : Dir) : Bytes :=
  (W.new.u16 (UInt16.ofNat d.body.length) |>.raw d.body).body

def fields : R Dir := do
  let dtype ← R.u16
  let dev ← R.u32
  let qid ← R.qid
  let mode ← R.u32
  let atime ← R.u32
  let mtime ← R.u32
  let length ← R.u64
  let name ← R.s
  let uid ← R.s
  let gid ← R.s
  let muid ← R.s
  pure ⟨dtype, dev, qid, mode, atime, mtime, length, name, uid, gid, muid⟩

/-- The entry at the front of a buffer. -/
def convM2D (b : Bytes) : Option Dir :=
  match R.u16.on b with
  | (none, _) => none
  | (some size, rest) => if b.length < size.toNat + 2 then none else (fields.on rest).1

/-- Every entry of a directory read, until one that is not whole. -/
def parseAll (b : Bytes) : List Dir :=
  if _more : b.length < 2 then []
  else
    match convM2D b with
    | some d => d :: parseAll (b.drop (2 + countAt b 0))
    | none => []
termination_by b.length
decreasing_by
  rw [length_drop]
  omega

/-- Strings whose lengths their counts can say. -/
def Short (d : Dir) : Prop :=
  (utf8 d.name).length < 2 ^ 16 ∧ (utf8 d.uid).length < 2 ^ 16 ∧ (utf8 d.gid).length < 2 ^ 16 ∧
    (utf8 d.muid).length < 2 ^ 16

structure Fits (d : Dir) : Prop where
  short : d.Short
  small : d.convD2M.length ≤ 65535 + 2

end Dir

namespace Wire

open Codec (u8 u16 u32 u64)

def qid : Codec Qid :=
  (u8.pair (u32.pair u64)).map (fun v => ⟨v.1, v.2.1, v.2.2⟩) (fun q => (q.qtype, q.vers, q.path))
    (fun _ => rfl) (fun _ => rfl)

def fixed : Codec (UInt16 × UInt32 × Qid × UInt32 × UInt32 × UInt32 × UInt64) :=
  u16.pair (u32.pair (qid.pair (u32.pair (u32.pair (u32.pair u64)))))

def four : Codec (String × String × String × String) :=
  string.pair (string.pair (string.pair string))

def dir : Codec Dir :=
  (fixed.pair four).map
    (fun v => ⟨v.1.1, v.1.2.1, v.1.2.2.1, v.1.2.2.2.1, v.1.2.2.2.2.1, v.1.2.2.2.2.2.1,
      v.1.2.2.2.2.2.2, v.2.1, v.2.2.1, v.2.2.2.1, v.2.2.2.2⟩)
    (fun d => ((d.dtype, d.dev, d.qid, d.mode, d.atime, d.mtime, d.length),
      (d.name, d.uid, d.gid, d.muid)))
    (fun _ => rfl) (fun _ => rfl)

theorem fixed_total : fixed.Total 39 := by
  have quick : qid.Total 13 := (Codec.total_le.pair (Codec.total_le.pair Codec.total_le)).map
  exact Codec.total_le.pair (Codec.total_le.pair (quick.pair (Codec.total_le.pair
    (Codec.total_le.pair (Codec.total_le.pair Codec.total_le)))))

theorem fixed_length (v : UInt16 × UInt32 × Qid × UInt32 × UInt32 × UInt32 × UInt64) :
    (fixed.write v).length = 39 := by
  simp [fixed, qid, Codec.pair, Codec.map, u8, u16, u32, u64, Codec.le]

theorem dir_write (d : Dir) : dir.write d = d.body := by
  simp [dir, fixed, four, qid, string, Codec.pair, Codec.map, u8, u16, u32, u64, Codec.le, Dir.body,
    W.new, W.u8, W.u16, W.u32, W.u64, W.s, W.qid, W.raw]

theorem dir_read : dir.read = Dir.fields := by
  simp only [dir, fixed, four, qid, string, Codec.pair, Codec.map, Dir.fields, R.u8, R.u16, R.u32,
    R.u64, R.qid, bind_assoc, pure_bind]

theorem dir_fits (d : Dir) : dir.Fits d ↔ d.Short := by
  simp [dir, fixed, four, qid, string, Codec.pair, Codec.map, u8, u16, u32, u64, Codec.le,
      Dir.Short]

end Wire

/-- Strings, one after another, as they are written. -/
def strs (ss : List String) : Bytes := ss.flatMap Wire.string.write

theorem strs_cons (v : String) (ss : List String) : strs (v :: ss) =
    leBytes 2 (UInt16.ofNat (utf8 v).length).toNat ++ utf8 v ++ strs ss := rfl

theorem countAt_append {pre post : Bytes} {n : Nat} (fits : n < 2 ^ 16) :
    countAt (pre ++ (leBytes 2 n ++ post)) pre.length = n := by
  have two : (leBytes 2 n ++ post).take 2 = leBytes 2 n := by
    rw [take_append_of_le_length (by rw [leBytes_length]), take_of_length_le]
    rw [leBytes_length]
  rw [countAt, drop_left, two, ofLe_leBytes fits]

theorem skips_strs {ss : List String} (short : ∀ v ∈ ss, (utf8 v).length < 2 ^ 16) (pre : Bytes) :
    skips (pre ++ strs ss) ss.length pre.length = some (pre ++ strs ss).length := by
  induction ss generalizing pre with
  | nil => simp [skips, strs]
  | cons v ss ih =>
      have fits := short v (mem_cons_self ..)
      have count : (UInt16.ofNat (utf8 v).length).toNat = (utf8 v).length :=
        UInt16.toNat_ofNat_of_lt' fits
      have split : pre ++ strs (v :: ss) =
          pre ++ (leBytes 2 (utf8 v).length ++ (utf8 v ++ strs ss)) := by
        rw [strs_cons, count, append_assoc]
      have enough : ¬(pre ++ strs (v :: ss)).length < pre.length + 2 := by
        rw [split]
        simp only [length_append, leBytes_length]
        omega
      have rest := ih (fun v' member => short v' (mem_cons_of_mem _ member))
        (pre ++ (leBytes 2 (utf8 v).length ++ utf8 v))
      have length : (pre ++ (leBytes 2 (utf8 v).length ++ utf8 v)).length =
          pre.length + 2 + (utf8 v).length := by
        simp only [length_append, leBytes_length]
        omega
      have whole : pre ++ (leBytes 2 (utf8 v).length ++ utf8 v) ++ strs ss =
          pre ++ strs (v :: ss) := by
        simp only [split, append_assoc]
      rw [length, whole] at rest
      rw [length_cons, skips, if_neg enough]
      nth_rewrite 2 [split]
      rw [countAt_append fits]
      exact rest

/-- The strings at a place, by their counts. -/
def strings (buf : Bytes) : Nat → Nat → List Bytes
  | 0, _ => []
  | k + 1, at_ => (buf.drop (at_ + 2)).take (countAt buf at_) ::
      strings buf k (at_ + 2 + countAt buf at_)

/-- The four strings of an entry are UTF-8. -/
def Utf8 (buf : Bytes) : Prop := ∀ v ∈ strings buf 4 (statfixlen - 4 * 2), (fromUtf8 v).isSome

theorem skips_le {buf : Bytes} {k at_ : Nat} (ends : skips buf k at_ = some buf.length) :
    at_ ≤ buf.length := by
  induction k generalizing at_ with
  | zero =>
      rw [skips, Option.some.injEq] at ends
      exact ends.le
  | succ k ih =>
      rw [skips] at ends
      split_ifs at ends
      have rest := ih ends
      omega

section Count

variable {buf : Bytes} {at_ : Nat}

theorem length_count (room : at_ + 2 ≤ buf.length) : ((buf.drop at_).take 2).length = 2 := by
  rw [length_take, length_drop]
  omega

theorem countAt_lt (room : at_ + 2 ≤ buf.length) : countAt buf at_ < 2 ^ 16 := by
  have small := ofLe_lt ((buf.drop at_).take 2)
  rwa [length_count room] at small

theorem leBytes_countAt (room : at_ + 2 ≤ buf.length) :
    leBytes 2 (UInt16.ofNat (countAt buf at_)).toNat = (buf.drop at_).take 2 := by
  rw [UInt16.toNat_ofNat_of_lt' (countAt_lt room), countAt]
  nth_rewrite 1 [← length_count room]
  exact leBytes_ofLe _

/-- What is at a place is a count, as many bytes, and what is after them. -/
theorem drop_counted (buf : Bytes) (at_ : Nat) : buf.drop at_ = (buf.drop at_).take 2 ++
    ((buf.drop (at_ + 2)).take (countAt buf at_) ++ buf.drop (at_ + 2 + countAt buf at_)) := by
  rw [← drop_drop (i := countAt buf at_), take_append_drop, ← drop_drop, take_append_drop]

end Count

theorem strs_of_skips {buf : Bytes} {k at_ : Nat}
    (ends : skips buf k at_ = some buf.length)
    (valid : ∀ v ∈ strings buf k at_, (fromUtf8 v).isSome) :
    ∃ ss : List String, ss.length = k ∧ (∀ v ∈ ss, (utf8 v).length < 2 ^ 16) ∧
      buf.drop at_ = strs ss := by
  induction k generalizing at_ with
  | zero =>
      rw [skips, Option.some.injEq] at ends
      refine ⟨[], rfl, by simp, ?_⟩
      rw [ends, drop_length]
      rfl
  | succ k ih =>
      rw [skips] at ends
      split_ifs at ends with short
      have bound := skips_le ends
      rcases ih ends (fun v member => valid v (mem_cons_of_mem _ member)) with
        ⟨ss, length, shorts, others⟩
      rcases Option.isSome_iff_exists.1 (valid _ (mem_cons_self ..)) with ⟨v, decoded⟩
      have same := utf8_fromUtf8 decoded
      have size : (utf8 v).length = countAt buf at_ := by
        rw [same, length_take, length_drop]
        omega
      have room : at_ + 2 ≤ buf.length := not_lt.1 short
      have fits : (utf8 v).length < 2 ^ 16 := size ▸ countAt_lt room
      refine ⟨v :: ss, by rw [length_cons, length], ?_, ?_⟩
      · intro v' member
        rcases mem_cons.1 member with rfl | member
        · exact fits
        · exact shorts v' member
      · rw [drop_counted, strs_cons, size, leBytes_countAt room, same, others, append_assoc]

variable {d : Dir} {b : Bytes}

theorem four_write (d : Dir) : Wire.four.write (d.name, d.uid, d.gid, d.muid) =
    strs [d.name, d.uid, d.gid, d.muid] := by
  simp [Wire.four, Codec.pair, strs]

theorem convD2M_eq (d : Dir) : ∃ fixed : Bytes, fixed.length = 39 ∧
    d.body = fixed ++ strs [d.name, d.uid, d.gid, d.muid] ∧
    d.convD2M = leBytes 2 (UInt16.ofNat d.body.length).toNat ++ d.body := by
  refine ⟨_, Wire.fixed_length (d.dtype, d.dev, d.qid, d.mode, d.atime, d.mtime, d.length), ?_, ?_⟩
  · rw [← Wire.dir_write, ← four_write]
    rfl
  · simp [Dir.convD2M, W.new, W.u16, W.raw]

theorem body_length (fits : d.Fits) : (UInt16.ofNat d.body.length).toNat = d.body.length := by
  have small := fits.small
  rcases convD2M_eq d with ⟨_, _, _, whole⟩
  rw [whole, length_append, leBytes_length] at small
  have bound : d.body.length < 2 ^ 16 := by omega
  exact UInt16.toNat_ofNat_of_lt' bound

theorem countAt_convD2M (fits : d.Fits) (rest : Bytes) :
    countAt (d.convD2M ++ rest) 0 = d.body.length := by
  have small := fits.small
  rcases convD2M_eq d with ⟨_, _, _, whole⟩
  rw [whole, length_append, leBytes_length] at small
  rw [whole, body_length fits, append_assoc]
  exact @countAt_append [] _ _ (by omega)

theorem convD2M_length (d : Dir) : d.convD2M.length = 2 + d.body.length := by
  rcases convD2M_eq d with ⟨_, _, _, whole⟩
  rw [whole, length_append, leBytes_length]

theorem convM2D_convD2M (fits : d.Fits) (rest : Bytes) :
    Dir.convM2D (d.convD2M ++ rest) = some d := by
  rcases convD2M_eq d with ⟨_, _, _, whole⟩
  have size := Codec.u16.read_write (a := UInt16.ofNat d.body.length) trivial (d.body ++ rest)
  have fields := Wire.dir.read_write ((Wire.dir_fits d).2 fits.short) rest
  rw [Wire.dir_read, Wire.dir_write] at fields
  have read : R.u16.on (d.convD2M ++ rest) =
      (some (UInt16.ofNat d.body.length), d.body ++ rest) := by
    rw [whole, append_assoc]
    exact size
  have enough : ¬(d.convD2M ++ rest).length < (UInt16.ofNat d.body.length).toNat + 2 := by
    rw [length_append, convD2M_length, body_length fits]
    omega
  simp only [Dir.convM2D, read, if_neg enough, fields]

theorem statcheck_convD2M (fits : d.Fits) : statcheck d.convD2M = true := by
  rcases convD2M_eq d with ⟨fixed, length, body, whole⟩
  have count := countAt_convD2M fits []
  rw [append_nil] at count
  have strings : 8 ≤ (strs [d.name, d.uid, d.gid, d.muid]).length := by
    simp only [strs_cons, length_append, leBytes_length]
    omega
  have long : ¬(d.convD2M.length < statfixlen ∨ d.convD2M.length ≠ 2 + countAt d.convD2M 0) := by
    rw [count, convD2M_length, body, length_append, length, statfixlen]
    omega
  have walk : skips d.convD2M 4 (statfixlen - 4 * 2) = some d.convD2M.length := by
    have short : ∀ v ∈ [d.name, d.uid, d.gid, d.muid], (utf8 v).length < 2 ^ 16 := by
      simpa [Dir.Short] using fits.short
    have walk := skips_strs short (leBytes 2 (UInt16.ofNat d.body.length).toNat ++ fixed)
    rw [append_assoc, ← body, ← whole, length_append, leBytes_length, length] at walk
    exact walk
  simp only [statcheck, if_neg long, walk, beq_self_eq_true]

theorem convD2M_of_statcheck (checked : statcheck b = true) (valid : Utf8 b) :
    ∃ d : Dir, d.Fits ∧ d.convD2M = b := by
  rw [statcheck] at checked
  split_ifs at checked with long
  rcases walk : skips b 4 (statfixlen - 4 * 2) with _ | at_
  · rw [walk] at checked
    cases checked
  rw [walk, beq_iff_eq] at checked
  subst checked
  rcases strs_of_skips walk valid with ⟨ss, length, shorts, others⟩
  rcases ss with _ | ⟨name, _ | ⟨uid, _ | ⟨gid, _ | ⟨muid, _ | ⟨_, _⟩⟩⟩⟩⟩ <;> simp at length
  have enough : 39 ≤ (b.drop 2).length := by
    rw [length_drop]
    rw [statfixlen] at long
    omega
  rcases Wire.fixed_total (b.drop 2) enough with ⟨v, _, whole⟩
  rw [drop_drop] at whole
  let d : Dir := ⟨v.1, v.2.1, v.2.2.1, v.2.2.2.1, v.2.2.2.2.1, v.2.2.2.2.2.1, v.2.2.2.2.2.2,
    name, uid, gid, muid⟩
  have body : d.body = b.drop 2 := by
    rw [whole, ← Wire.dir_write]
    have last : b.drop (2 + 39) = Wire.four.write (d.name, d.uid, d.gid, d.muid) := by
      rw [four_write]
      exact others
    rw [last]
    rfl
  have two : (b.take 2).length = 2 := by
    rw [length_take]
    rw [statfixlen] at long
    omega
  have count : d.body.length = countAt b 0 := by
    rw [body, length_drop]
    omega
  have small := ofLe_lt (b.take 2)
  rw [two] at small
  have size : leBytes 2 (UInt16.ofNat d.body.length).toNat = b.take 2 := by
    rw [UInt16.toNat_ofNat_of_lt' (by rw [count]; exact small), count, countAt, drop_zero]
    nth_rewrite 1 [← two]
    exact leBytes_ofLe _
  have written : d.convD2M = b := by
    rcases convD2M_eq d with ⟨_, _, _, written⟩
    rw [written, size, body, take_append_drop]
  refine ⟨d, ⟨?_, ?_⟩, written⟩
  · simpa [Dir.Short, d] using shorts
  · rw [convD2M_length, count]
    have bound : countAt b 0 < 256 ^ 2 := small
    omega

theorem parseAll_convD2M {ds : List Dir} (fits : ∀ d ∈ ds, d.Fits) :
    Dir.parseAll (ds.flatMap Dir.convD2M) = ds := by
  induction ds with
  | nil =>
      rw [Dir.parseAll]
      rfl
  | cons d ds ih =>
      have first := fits d (mem_cons_self ..)
      have rest := ih fun d' member => fits d' (mem_cons_of_mem _ member)
      have more : ¬(d.convD2M ++ ds.flatMap Dir.convD2M).length < 2 := by
        rw [length_append, convD2M_length]
        omega
      have next : (d.convD2M ++ ds.flatMap Dir.convD2M).drop
          (2 + countAt (d.convD2M ++ ds.flatMap Dir.convD2M) 0) = ds.flatMap Dir.convD2M := by
        rw [countAt_convD2M first, ← convD2M_length, drop_left]
      rw [flatMap_cons, Dir.parseAll, dif_neg more, convM2D_convD2M first, next, rest]

/-- Entries go on the wire and come back: one that its counts can say passes the check and is
read as it was; a buffer that passes the check is what its entry is written as; and entries
one after another are read as the list of them. -/
theorem dir_codec :
    (∀ d : Dir, d.Fits → statcheck d.convD2M = true ∧ Dir.convM2D d.convD2M = some d) ∧
    (∀ b, statcheck b = true → Utf8 b → ∃ d, Dir.convM2D b = some d ∧ d.convD2M = b) ∧
    (∀ ds : List Dir, (∀ d ∈ ds, d.Fits) → Dir.parseAll (ds.flatMap Dir.convD2M) = ds) := by
  refine ⟨?_, ?_, ?_⟩
  · intro d fits
    have read := convM2D_convD2M fits []
    rw [append_nil] at read
    exact ⟨statcheck_convD2M fits, read⟩
  · intro b checked valid
    rcases convD2M_of_statcheck checked valid with ⟨d, fits, rfl⟩
    have read := convM2D_convD2M fits []
    rw [append_nil] at read
    exact ⟨d, read, rfl⟩
  · intro ds fits
    exact parseAll_convD2M fits

end Ipnx.Ninep
