import Mathlib.Algebra.Order.Ring.Nat

/-!
# Reading back what was written

Bytes are written one value after another and read the same way. A codec is a writer and a
reader that undo each other: on what was written the reader gives the value and leaves what
follows, and what it accepts is what the writer would have written. Numbers are little-endian.
-/

namespace Ipnx

open List

abbrev Bytes := List UInt8

/-- The lowest bytes of a number, the lowest first. -/
def leBytes : Nat → Nat → Bytes
  | 0, _ => []
  | w + 1, n => UInt8.ofNat n :: leBytes w (n / 256)

def ofLe : Bytes → Nat
  | [] => 0
  | b :: bs => b.toNat + 256 * ofLe bs

@[simp]
theorem leBytes_length (w n : Nat) : (leBytes w n).length = w := by
  induction w generalizing n with
  | zero => rfl
  | succ w ih => rw [leBytes, length_cons, ih]

theorem ofLe_lt (bs : Bytes) : ofLe bs < 256 ^ bs.length := by
  induction bs with
  | nil => exact Nat.one_pos
  | cons b bs ih =>
      have low : b.toNat < 256 := b.toNat_lt
      rw [ofLe, length_cons, pow_succ]
      omega

theorem ofLe_leBytes {w n : Nat} (fits : n < 256 ^ w) : ofLe (leBytes w n) = n := by
  induction w generalizing n with
  | zero =>
      rw [pow_zero] at fits
      rw [leBytes, ofLe]
      omega
  | succ w ih =>
      have rest : n / 256 < 256 ^ w := by
        rw [pow_succ] at fits
        omega
      rw [leBytes, ofLe, ih rest, UInt8.toNat_ofNat']
      omega

theorem leBytes_ofLe (bs : Bytes) : leBytes bs.length (ofLe bs) = bs := by
  induction bs with
  | nil => rfl
  | cons b bs ih =>
      have low : b.toNat < 256 := b.toNat_lt
      have rest : (b.toNat + 256 * ofLe bs) / 256 = ofLe bs := by omega
      have first : UInt8.ofNat (b.toNat + 256 * ofLe bs) = b := by
        apply UInt8.toNat.inj
        rw [UInt8.toNat_ofNat']
        omega
      rw [length_cons, leBytes, ofLe, rest, first, ih]

/-- A reader takes its value off the front of the bytes that are left. One that fails may have
taken some. -/
abbrev Reader (α : Type) := OptionT (StateM Bytes) α

namespace Reader

variable {α β : Type}

/-- The value read, if there is one, and what is left. -/
def on (r : Reader α) (b : Bytes) : Option α × Bytes := r.run.run b

theorem on_bind (r : Reader α) (k : α → Reader β) (b : Bytes) : (r >>= k).on b =
    match r.on b with
    | (some a, rest) => (k a).on rest
    | (none, rest) => (none, rest) := by
  simp only [on, OptionT.run_bind, Option.elimM, StateT.run_bind]
  rcases read : StateT.run (OptionT.run r) b with ⟨_ | a, rest⟩ <;> rfl

/-- On these bytes, whatever follows them, the reader gives this value. -/
def Reads (r : Reader α) (b : Bytes) (a : α) : Prop := ∀ rest, r.on (b ++ rest) = (some a, rest)

theorem reads_pure (a : α) : Reads (pure a) [] a := fun _ => rfl

theorem Reads.bind {r : Reader α} {k : α → Reader β} {b b' : Bytes} {a : α} {c : β}
    (first : Reads r b a) (second : Reads (k a) b' c) : Reads (r >>= k) (b ++ b') c := by
  intro rest
  rw [on_bind, append_assoc, first]
  exact second rest

/-- What was read in the parts of a whole. -/
theorem bind_some {r : Reader α} {k : α → Reader β} {b rest : Bytes} {c : β}
    (read : (r >>= k).on b = (some c, rest)) :
    ∃ a mid, r.on b = (some a, mid) ∧ (k a).on mid = (some c, rest) := by
  rw [on_bind] at read
  rcases first : r.on b with ⟨_ | a, mid⟩
  · rw [first] at read
    cases read
  · rw [first] at read
    exact ⟨a, mid, rfl, read⟩

/-- The next `n` bytes, or nothing taken. -/
def take (n : Nat) : Reader Bytes :=
  OptionT.mk fun b => if b.length < n then (none, b) else (some (b.take n), b.drop n)

theorem on_take (n : Nat) (b : Bytes) : (take n).on b =
    if b.length < n then (none, b) else (some (b.take n), b.drop n) := rfl

theorem reads_take (b : Bytes) : Reads (take b.length) b b := by
  intro rest
  rw [on_take, if_neg (by rw [length_append]; omega), take_left', drop_left'] <;> rfl

theorem take_some {n : Nat} {b s rest : Bytes} (read : (take n).on b = (some s, rest)) :
    s.length = n ∧ b = s ++ rest := by
  rw [on_take] at read
  split_ifs at read with short
  · cases read
  · cases read
    rw [length_take, take_append_drop]
    exact ⟨by omega, rfl⟩

end Reader

/-- A writer and a reader that undo each other, on the values that fit. -/
structure Codec (α : Type) where
  write : α → Bytes
  read : Reader α
  Fits : α → Prop
  read_write : ∀ {a}, Fits a → read.Reads (write a) a
  write_read : ∀ {a b rest}, read.on b = (some a, rest) → Fits a ∧ b = write a ++ rest

namespace Codec

variable {α : Type}

/-- A number in a fixed number of bytes, as the type `α` has them. -/
def le (w : Nat) (toNat : α → Nat) (ofNat : Nat → α) (bound : ∀ a, toNat a < 256 ^ w)
    (ofNat_toNat : ∀ a, ofNat (toNat a) = a)
    (toNat_ofNat : ∀ n, n < 256 ^ w → toNat (ofNat n) = n) : Codec α where
  write a := leBytes w (toNat a)
  read := do
    let b ← Reader.take w
    pure (ofNat (ofLe b))
  Fits _ := True
  read_write := by
    intro a _
    have first := Reader.reads_take (leBytes w (toNat a))
    rw [leBytes_length] at first
    have value : ofNat (ofLe (leBytes w (toNat a))) = a := by
      rw [ofLe_leBytes (bound a), ofNat_toNat]
    have whole := first.bind (k := fun b => pure (ofNat (ofLe b))) (Reader.reads_pure _)
    rwa [append_nil, value] at whole
  write_read := by
    intro a b rest read
    rcases Reader.bind_some read with ⟨s, mid, first, last⟩
    rcases Reader.take_some first with ⟨length, rfl⟩
    cases last
    refine ⟨trivial, ?_⟩
    have fits := ofLe_lt s
    rw [length] at fits
    rw [toNat_ofNat _ fits, ← length, leBytes_ofLe]

def u8 : Codec UInt8 :=
  le 1 UInt8.toNat UInt8.ofNat UInt8.toNat_lt (fun _ => UInt8.ofNat_toNat)
    fun _ fits => UInt8.toNat_ofNat_of_lt' fits

def u16 : Codec UInt16 :=
  le 2 UInt16.toNat UInt16.ofNat UInt16.toNat_lt (fun _ => UInt16.ofNat_toNat)
    fun _ fits => UInt16.toNat_ofNat_of_lt' fits

def u32 : Codec UInt32 :=
  le 4 UInt32.toNat UInt32.ofNat UInt32.toNat_lt (fun _ => UInt32.ofNat_toNat)
    fun _ fits => UInt32.toNat_ofNat_of_lt' fits

def u64 : Codec UInt64 :=
  le 8 UInt64.toNat UInt64.ofNat UInt64.toNat_lt (fun _ => UInt64.ofNat_toNat)
    fun _ fits => UInt64.toNat_ofNat_of_lt' fits

variable {β : Type}

def pair (first : Codec α) (second : Codec β) : Codec (α × β) where
  write v := first.write v.1 ++ second.write v.2
  read := do
    let a ← first.read
    let b ← second.read
    pure (a, b)
  Fits v := first.Fits v.1 ∧ second.Fits v.2
  read_write := by
    rintro ⟨a, b⟩ ⟨fitsA, fitsB⟩
    have last := (second.read_write fitsB).bind (k := fun b' => pure (a, b')) (Reader.reads_pure _)
    rw [append_nil] at last
    exact (first.read_write fitsA).bind (k := fun a' => do let b' ← second.read; pure (a', b')) last
  write_read := by
    intro v b rest read
    rcases Reader.bind_some read with ⟨a, mid, readA, others⟩
    rcases Reader.bind_some others with ⟨c, mid', readB, last⟩
    rcases first.write_read readA with ⟨fitsA, rfl⟩
    rcases second.write_read readB with ⟨fitsB, rfl⟩
    cases last
    exact ⟨⟨fitsA, fitsB⟩, (append_assoc ..).symm⟩

/-- The same bytes, for what corresponds to the values. -/
def map (c : Codec α) (f : α → β) (g : β → α) (fg : ∀ b, f (g b) = b) (gf : ∀ a, g (f a) = a) :
    Codec β where
  write b := c.write (g b)
  read := do
    let a ← c.read
    pure (f a)
  Fits b := c.Fits (g b)
  read_write := by
    intro b fits
    have whole := (c.read_write fits).bind (k := fun a => pure (f a)) (Reader.reads_pure _)
    rwa [append_nil, fg] at whole
  write_read := by
    intro b s rest read
    rcases Reader.bind_some read with ⟨a, mid, first, last⟩
    rcases c.write_read first with ⟨fits, rfl⟩
    cases last
    rw [gf]
    exact ⟨fits, rfl⟩

/-- Any `w` bytes are what the codec writes of some value. -/
def Total (c : Codec α) (w : Nat) : Prop :=
  ∀ b : Bytes, w ≤ b.length → ∃ a, c.Fits a ∧ b = c.write a ++ b.drop w

theorem total_le {w : Nat} {toNat : α → Nat} {ofNat : Nat → α} {bound ofNat_toNat toNat_ofNat} :
    (le w toNat ofNat bound ofNat_toNat toNat_ofNat).Total w := by
  intro b enough
  have length : (b.take w).length = w := by
    rw [length_take]
    omega
  have fits := ofLe_lt (b.take w)
  have value := leBytes_ofLe (b.take w)
  rw [length] at fits value
  refine ⟨ofNat (ofLe (b.take w)), trivial, ?_⟩
  have written : (le w toNat ofNat bound ofNat_toNat toNat_ofNat).write (ofNat (ofLe (b.take w))) =
      b.take w := by
    simp only [le, toNat_ofNat _ fits, value]
  rw [written, take_append_drop]

theorem Total.pair {first : Codec α} {second : Codec β} {w w' : Nat} (total : first.Total w)
    (total' : second.Total w') : (first.pair second).Total (w + w') := by
  intro b enough
  rcases total b (by omega) with ⟨a, fits, whole⟩
  have others : w' ≤ (b.drop w).length := by
    rw [length_drop]
    omega
  rcases total' (b.drop w) others with ⟨c, fits', whole'⟩
  refine ⟨(a, c), ⟨fits, fits'⟩, ?_⟩
  calc b = first.write a ++ b.drop w := whole
    _ = first.write a ++ (second.write c ++ (b.drop w).drop w') := by rw [← whole']
    _ = first.write a ++ second.write c ++ b.drop (w + w') := by
        rw [append_assoc, drop_drop]

theorem Total.map {c : Codec α} {w : Nat} {f : α → β} {g : β → α} {fg gf} (total : c.Total w) :
    (c.map f g fg gf).Total w := by
  intro b enough
  rcases total b enough with ⟨a, fits, whole⟩
  refine ⟨f a, ?_, ?_⟩
  · simpa only [Codec.map, gf] using fits
  · simpa only [Codec.map, gf] using whole

end Codec

end Ipnx
