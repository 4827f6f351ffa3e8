import Ipnx.Lib.Utf8
import Ipnx.Lib.Codec
import Mathlib.Tactic.Ring

/-!
# What is read of a module

`hosts/web/src/module.rs`: the memory a WebAssembly image imports, and whether it is a WASI program,
read from the image's import section. Whatever does not read as a module is refused. A number in an
image says how many more of its bits a length can have, and may be padded.
-/

namespace Ipnx.Host.Module

open List

/-- Why a reading ends early: it answers `None`, or it is a bug. -/
inductive Stop
  | refused
  | panicked
  deriving DecidableEq, Repr

/-- What a `usize` of the machine's is less than. -/
def usize : Nat := 2 ^ 32

/-- `*at += n`. -/
def bump (n p : Nat) : Except Stop Nat :=
  if p + n < usize then .ok (p + n) else .error .panicked

/-- `*b.get(*at)?`, and past it. -/
def next (b : Bytes) (p : Nat) : Except Stop (UInt8 × Nat) :=
  match b[p]? with
  | none => .error .refused
  | some x => (bump 1 p).map fun p => (x, p)

/-- The loop of `leb`, of so many bytes at most. -/
def lebLoop (b : Bytes) : Nat → Nat → Nat → Nat → Except Stop (Nat × Nat)
  | 0, _, _, _ => .error .refused
  | n + 1, v, shift, p => do
      let (x, p) ← next b p
      let v := v ||| ((x.toNat % 128) <<< shift) % 2 ^ 64
      if x.toNat < 128 then .ok (v, p) else lebLoop b n v (shift + 7) p

/-- With a `shift` of 63 at most, ten bytes. -/
def leb (b : Bytes) (p : Nat) : Except Stop (Nat × Nat) := lebLoop b 10 0 0 p

def name (b : Bytes) (p : Nat) : Except Stop (String × Nat) := do
  let (n, p) ← leb b p
  let n := n % usize
  if usize ≤ p + n ∨ b.length < p + n then .error .refused
  else
    match String.fromUTF8? ⟨((b.drop p).take n).toArray⟩ with
    | none => .error .refused
    | some s => (bump n p).map fun p => (s, p)

def limits (b : Bytes) (p : Nat) : Except Stop ((Nat × Option Nat) × Nat) := do
  let (flags, p) ← next b p
  let (min, p) ← leb b p
  if flags.toNat % 2 ≠ 0 then
    let (max, p) ← leb b p
    .ok ((min, some max), p)
  else .ok ((min, none), p)

/-- An import's description, past its kind: the limits of a memory, if it is one. -/
def desc (b : Bytes) (kind : UInt8) (p : Nat) : Except Stop (Option (Nat × Nat) × Nat) :=
  match kind with
  | 0 => do
      let (_, p) ← leb b p
      .ok (none, p)
  | 1 => do
      let p ← bump 1 p
      let (_, p) ← limits b p
      .ok (none, p)
  | 2 => do
      let ((min, max), p) ← limits b p
      .ok (some (min % 2 ^ 32, max.getD 65536 % 2 ^ 32), p)
  | 3 => do
      let p ← bump 2 p
      .ok (none, p)
  | 4 => do
      let p ← bump 1 p
      let (_, p) ← leb b p
      .ok (none, p)
  | _ => .error .refused

section

variable {σ : Type} (f : σ → String → Option (Nat × Nat) → σ × Bool) (b : Bytes)

/-- So many imports, until `f` answers something. -/
def imports : Nat → Nat → σ → Except Stop σ
  | 0, _, s => .ok s
  | n + 1, p, s => do
      let (module_, p) ← name b p
      let (_, p) ← name b p
      let (kind, p) ← next b p
      let (mem, p) ← desc b kind p
      let (s, done) := f s module_ mem
      if done then .ok s else imports n p s

/-- The sections, until the imports'. There are fewer than the image has bytes. -/
def sections : Nat → Nat → σ → Except Stop σ
  | 0, _, _ => .error .panicked
  | n + 1, p, s =>
      if p < b.length then do
        let (id, p) ← next b p
        let (size, p) ← leb b p
        if usize ≤ p + size % usize then .error .refused
        else if id = 2 then do
          let (count, p) ← leb b p
          imports f b count p s
        else sections n (p + size % usize) s
      else .ok s

/-- `\0asm`. -/
def magic : Bytes := [0, 0x61, 0x73, 0x6d]

def walk (s : σ) : Except Stop σ :=
  if b.take 4 = magic then sections f b b.length 8 s else .error .refused

end

/-- What a walk that is refused comes to. -/
def orElse (d : α) : Except Stop α → Except Stop α
  | .error .refused => .ok d
  | r => r

def memimport (b : Bytes) : Except Stop (Option (Nat × Nat)) :=
  orElse none (walk (fun _ _ mem => (mem, mem.isSome)) b none)

def wasi (b : Bytes) : Except Stop Bool :=
  (orElse [] (walk (fun ms m _ => (ms ++ [m], false)) b [])).map fun ms =>
    ms.any (· == "wasi_snapshot_preview1")

/-- A number of at most `N` bits, as it may be encoded. -/
inductive Leb : Nat → Nat → Bytes → Prop
  | last {N : Nat} (x : UInt8) (low : x.toNat < 128) (fits : x.toNat < 2 ^ N) : Leb N x.toNat [x]
  | more {N v : Nat} {bs : Bytes} (x : UInt8) (high : 128 ≤ x.toNat) (left : 7 < N)
      (rest : Leb (N - 7) v bs) : Leb N (x.toNat - 128 + 128 * v) (x :: bs)

inductive Name (s : String) : Bytes → Prop
  | mk {len : Bytes} (count : Leb 32 s.toByteArray.data.toList.length len) :
      Name s (len ++ s.toByteArray.data.toList)

structure Limits where
  min : Nat
  max : Option Nat
  shared : Bool
  deriving DecidableEq, Repr

inductive Limits.Encoded : Limits → Bytes → Prop
  | upto {min max : Nat} {shared : Bool} {mn mx : Bytes} (flags : UInt8)
      (what : flags.toNat = 1 + 2 * shared.toNat) (lower : Leb 64 min mn) (upper : Leb 64 max mx) :
      Encoded ⟨min, some max, shared⟩ (flags :: (mn ++ mx))
  | above {min : Nat} {shared : Bool} {mn : Bytes} (flags : UInt8)
      (what : flags.toNat = 2 * shared.toNat) (lower : Leb 64 min mn) :
      Encoded ⟨min, none, shared⟩ (flags :: mn)

inductive Extern
  | func (type : Nat)
  | table (reftype : UInt8) (limits : Limits)
  | memory (limits : Limits)
  | global (valtype mut_ : UInt8)
  | tag (what : UInt8) (type : Nat)
  deriving DecidableEq, Repr

inductive Extern.Encoded : Extern → Bytes → Prop
  | func {type : Nat} {t : Bytes} (index : Leb 32 type t) : Encoded (func type) (0 :: t)
  | table {limits : Limits} {l : Bytes} (reftype : UInt8) (lim : limits.Encoded l) :
      Encoded (table reftype limits) (1 :: reftype :: l)
  | memory {limits : Limits} {l : Bytes} (lim : limits.Encoded l) (pages : limits.min < 2 ^ 32)
      (most : ∀ max ∈ limits.max, max < 2 ^ 32) : Encoded (memory limits) (2 :: l)
  | global (valtype mut_ : UInt8) : Encoded (global valtype mut_) [3, valtype, mut_]
  | tag {type : Nat} {t : Bytes} (what : UInt8) (index : Leb 32 type t) :
      Encoded (tag what type) (4 :: what :: t)

structure Import where
  module : String
  name : String
  desc : Extern
  deriving DecidableEq

inductive Import.Encoded (i : Import) : Bytes → Prop
  | mk {m n d : Bytes} (module_ : Name i.module m) (name_ : Name i.name n)
      (desc_ : i.desc.Encoded d) : Encoded i (m ++ n ++ d)

inductive Each {α : Type} (P : α → Bytes → Prop) : List α → Bytes → Prop
  | nil : Each P [] []
  | cons {a : α} {as : List α} {b bs : Bytes} (first : P a b) (rest : Each P as bs) :
      Each P (a :: as) (b ++ bs)

inductive Section (id : UInt8) (body : Bytes) : Bytes → Prop
  | mk {len : Bytes} (size : Leb 32 body.length len) : Section id body (id :: (len ++ body))

structure Other where
  id : UInt8
  body : Bytes
  other : id ≠ 2

/-- A module's sections, with its imports, if it has a section of them, among the others. -/
structure Sections where
  before : List Other
  imports : Option (List Import)
  after : List Other

inductive Sections.Encoded : Sections → Bytes → Prop
  | some_ {before after : List Other} {is : List Import} {v s c e r t : Bytes}
      (version : v.length = 4) (first : Each (fun o => Section o.id o.body) before s)
      (count : Leb 32 is.length c) (each : Each Import.Encoded is e)
      (section_ : Section 2 (c ++ e) t)
      (rest : Each (fun o => Section o.id o.body) after r) :
      Encoded ⟨before, some is, after⟩ (magic ++ v ++ s ++ t ++ r)
  | none_ {before : List Other} {v s : Bytes} (version : v.length = 4)
      (first : Each (fun o => Section o.id o.body) before s) :
      Encoded ⟨before, none, []⟩ (magic ++ v ++ s)

/-- The pages a memory imported has, as many as there can be if it does not say. -/
def Extern.pages : Extern → Option (Nat × Nat)
  | memory limits => some (limits.min, limits.max.getD 65536)
  | _ => none

theorem Extern.Encoded.first {d : Extern} {bs : Bytes} (enc : d.Encoded bs) :
    ∃ kind rest, bs = kind :: rest := by
  rcases enc <;> exact ⟨_, _, rfl⟩

variable {b bs cs : Bytes} {p N v n : Nat} {x : UInt8} {s : String}

def Has (b : Bytes) (p : Nat) (bs : Bytes) : Prop := bs <+: b.drop p

theorem has_of_drop (left : b.drop p = bs) : Has b p bs := by
  subst left
  exact prefix_rfl

theorem has_append : Has b p (bs ++ cs) ↔ Has b p bs ∧ Has b (p + bs.length) cs := by
  rw [Has, Has, Has, ← drop_drop]
  constructor
  · rintro ⟨rest, whole⟩
    rw [append_assoc] at whole
    refine ⟨⟨_, whole⟩, rest, ?_⟩
    rw [← whole, drop_left]
  · rintro ⟨⟨rest, whole⟩, more⟩
    rw [← whole, drop_left] at more
    rw [← whole]
    exact (prefix_append_right_inj bs).2 more

theorem has_cons : Has b p (x :: bs) ↔ b[p]? = some x ∧ Has b (p + 1) bs := by
  have one : x :: bs = [x] ++ bs := rfl
  have first : Has b p [x] ↔ b[p]? = some x := by
    rw [Has, ← List.head?_drop]
    rcases b.drop p with _ | ⟨y, rest⟩
    · simp
    · simp [cons_prefix_cons, eq_comm]
  rw [one, has_append, first]
  rfl

theorem has_length (has : Has b p bs) (some_ : bs ≠ []) : p + bs.length ≤ b.length := by
  have long := has.length_le
  have there := length_pos_iff.2 some_
  rw [length_drop] at long
  omega

theorem leb_ne_nil (number : Leb N v bs) : bs ≠ [] := by
  rcases number <;> simp

theorem each_length {os : List Other} (each : Each (fun o => Section o.id o.body) os bs) :
    os.length ≤ bs.length := by
  induction each with
  | nil => exact Nat.le_refl _
  | cons first _ ih =>
      rcases first with ⟨size⟩
      simp only [length_cons, length_append]
      omega

theorem bind_ok {α β : Type} (a : α) (k : α → Except Stop β) : (Except.ok a >>= k) = k a := rfl

theorem or_shift {acc y shift : Nat} (low : acc < 2 ^ shift) (room : y * 2 ^ shift < 2 ^ 64) :
    acc ||| (y <<< shift) % 2 ^ 64 = acc + y * 2 ^ shift := by
  rw [Nat.shiftLeft_eq, Nat.mod_eq_of_lt room, Nat.mul_comm, Nat.or_comm,
    ← Nat.two_pow_add_eq_or_of_lt low, Nat.add_comm]

theorem bits_room {y shift : Nat} (fits : y < 2 ^ N) (room : N + shift ≤ 64) :
    y * 2 ^ shift < 2 ^ 64 := by
  have below : y * 2 ^ shift < 2 ^ N * 2 ^ shift :=
    Nat.mul_lt_mul_of_pos_right fits (Nat.two_pow_pos _)
  rw [← Nat.pow_add] at below
  exact below.trans_le (Nat.pow_le_pow_right (by omega) room)

section

variable (short : b.length < usize)

include short

theorem next_reads (has : Has b p (x :: bs)) : next b p = .ok (x, p + 1) := by
  have there := (has_cons.1 has).1
  have inside : p < b.length := (List.getElem?_eq_some_iff.1 there).1
  simp only [next, there]
  rw [bump, if_pos (by omega)]
  rfl

theorem lebLoop_reads {steps shift acc : Nat} (number : Leb N v bs) (has : Has b p bs)
    (width : N ≤ 7 * steps) (some_ : 0 < steps) (room : N + shift ≤ 64) (low : acc < 2 ^ shift) :
    lebLoop b steps acc shift p = .ok (acc + v * 2 ^ shift, p + bs.length) := by
  induction number generalizing steps shift acc p with
  | @last N x below fits =>
      rcases steps with _ | steps
      · omega
      · have part : x.toNat % 128 = x.toNat := Nat.mod_eq_of_lt below
        simp only [lebLoop, next_reads short has]
        rw [bind_ok]
        dsimp only
        rw [if_pos below, part, or_shift low (bits_room fits room)]
        rfl
  | @more N v bs x high left _ ih =>
      rcases steps with _ | steps
      · omega
      · have byte := x.toNat_lt
        have part : x.toNat % 128 = x.toNat - 128 := by omega
        have fits : x.toNat - 128 < 2 ^ 7 := by omega
        have shifted : (2 : Nat) ^ (shift + 7) = 2 ^ shift * 128 := Nat.pow_add ..
        have low' : acc + (x.toNat - 128) * 2 ^ shift < 2 ^ (shift + 7) := by
          have most : (x.toNat - 128) * 2 ^ shift ≤ 127 * 2 ^ shift :=
            Nat.mul_le_mul_right _ (by omega)
          omega
        simp only [lebLoop, next_reads short has]
        rw [bind_ok]
        dsimp only
        rw [if_neg (by omega), part, or_shift low (bits_room fits (by omega)),
          ih (has_cons.1 has).2 (by omega) (by omega) (by omega) low', shifted]
        have value : acc + (x.toNat - 128) * 2 ^ shift + v * (2 ^ shift * 128) =
            acc + (x.toNat - 128 + 128 * v) * 2 ^ shift := by ring
        have place : p + 1 + bs.length = p + (x :: bs).length := by
          rw [length_cons]
          omega
        rw [value, place]

theorem leb_reads (number : Leb N v bs) (width : N ≤ 64) (has : Has b p bs) :
    leb b p = .ok (v, p + bs.length) := by
  have loop : lebLoop b 10 0 0 p = .ok (0 + v * 2 ^ 0, p + bs.length) :=
    lebLoop_reads short number has (by omega) (by omega) (by omega) (by omega)
  rw [leb, loop, Nat.zero_add, Nat.pow_zero, Nat.mul_one]

theorem name_reads (named : Name s bs) (has : Has b p bs) :
    name b p = .ok (s, p + bs.length) := by
  rcases named with @⟨len, count⟩
  rcases has_append.1 has with ⟨first, text⟩
  have inside := has_length first (leb_ne_nil count)
  have long : s.toByteArray.data.toList.length ≤ b.length - (p + len.length) := by
    rw [← length_drop]
    exact text.length_le
  have same : s.toByteArray.data.toList.length % usize = s.toByteArray.data.toList.length :=
    Nat.mod_eq_of_lt (by omega)
  have taken : (b.drop (p + len.length)).take s.toByteArray.data.toList.length =
      s.toByteArray.data.toList := (prefix_iff_eq_take.1 text).symm
  have read : String.fromUTF8? ⟨s.toByteArray.data.toList.toArray⟩ = some s := by
    rw [Array.toArray_toList]
    exact dif_pos s.isValidUTF8
  rw [name, leb_reads short count (by omega) first, bind_ok]
  dsimp only
  rw [same, if_neg (by omega), taken, read]
  dsimp only
  rw [bump, if_pos (by omega), length_append, ← Nat.add_assoc]
  rfl

theorem limits_reads {l : Limits} (lim : l.Encoded bs) (has : Has b p bs) :
    limits b p = .ok ((l.min, l.max), p + bs.length) := by
  rcases lim with @⟨min, max, shared, mn, mx, flags, what, lower, upper⟩ |
    @⟨min, shared, mn, flags, what, lower⟩
  · have rest := (has_cons.1 has).2
    rcases has_append.1 rest with ⟨first, second⟩
    rw [limits, next_reads short has, bind_ok]
    dsimp only
    rw [leb_reads short lower (by omega) first, bind_ok]
    dsimp only
    rw [if_pos (by omega), leb_reads short upper (by omega) second, bind_ok, length_cons,
      length_append]
    have place : p + 1 + mn.length + mx.length = p + (mn.length + mx.length + 1) := by omega
    rw [place]
  · have rest := (has_cons.1 has).2
    rw [limits, next_reads short has, bind_ok]
    dsimp only
    rw [leb_reads short lower (by omega) rest, bind_ok]
    dsimp only
    have place : p + 1 + mn.length = p + (mn.length + 1) := by omega
    rw [if_neg (by omega), length_cons, place]

theorem desc_reads {d : Extern} {kind : UInt8} (enc : d.Encoded (kind :: bs))
    (has : Has b p bs) : desc b kind p = .ok (d.pages, p + bs.length) := by
  rcases enc with index | ⟨reftype, lim⟩ | ⟨lim, pages, most⟩ | ⟨valtype, mut_⟩ | ⟨what, index⟩
  · simp only [desc]
    rw [leb_reads short index (by omega) has, bind_ok]
    rfl
  · have rest := (has_cons.1 has).2
    have inside := has_length has (by simp)
    rw [length_cons] at inside
    simp only [desc]
    rw [bump, if_pos (by omega), bind_ok, limits_reads short lim rest, bind_ok, length_cons,
      Nat.add_assoc, Nat.add_comm 1]
    rfl
  · rename_i lims
    have upper : lims.max.getD 65536 % 2 ^ 32 = lims.max.getD 65536 := by
      apply Nat.mod_eq_of_lt
      rcases maximum : lims.max with _ | max
      · decide
      · exact most max maximum
    simp only [desc]
    rw [limits_reads short lim has, bind_ok]
    dsimp only
    rw [Nat.mod_eq_of_lt pages, upper]
    rfl
  · have inside := has_length has (by simp)
    simp only [length_cons, length_nil] at inside
    simp only [desc]
    rw [bump, if_pos (by omega)]
    rfl
  · have rest := (has_cons.1 has).2
    have inside := has_length has (by simp)
    rw [length_cons] at inside
    simp only [desc]
    rw [bump, if_pos (by omega), bind_ok, leb_reads short index (by omega) rest, bind_ok,
      length_cons, Nat.add_assoc, Nat.add_comm 1]
    rfl

/-- What `f` has made of the imports up to the one it answers something at. -/
def feed {σ : Type} (f : σ → String → Option (Nat × Nat) → σ × Bool) : σ → List Import → σ
  | s, [] => s
  | s, i :: is =>
      if (f s i.module i.desc.pages).2 then (f s i.module i.desc.pages).1
      else feed f (f s i.module i.desc.pages).1 is

variable {σ : Type} {f : σ → String → Option (Nat × Nat) → σ × Bool} {a : σ}

theorem imports_reads {is : List Import} (each : Each Import.Encoded is bs) (has : Has b p bs) :
    imports f b is.length p a = .ok (feed f a is) := by
  induction each generalizing p a with
  | nil => rfl
  | @cons i is e es first _ ih =>
      rcases has_append.1 has with ⟨here, rest⟩
      rcases first with @⟨m, n, d, module_, name_, desc_⟩
      rcases has_append.1 here with ⟨names, described⟩
      rcases has_append.1 names with ⟨modules, fields⟩
      rcases desc_.first with ⟨kind, d', rfl⟩
      rw [length_append, ← Nat.add_assoc] at described
      rw [length_cons, imports, name_reads short module_ modules, bind_ok]
      dsimp only
      rw [name_reads short name_ fields, bind_ok]
      dsimp only
      rw [next_reads short described, bind_ok]
      dsimp only
      rw [desc_reads short desc_ (has_cons.1 described).2, bind_ok]
      dsimp only
      rw [feed]
      have place : p + m.length + n.length + 1 + d'.length =
          p + (m ++ n ++ kind :: d').length := by
        simp only [length_append, length_cons]
        omega
      rw [place, ih rest]
      split_ifs <;> rfl

theorem sections_other {os : List Other} {n : Nat}
    (each : Each (fun o => Section o.id o.body) os bs) (has : Has b p bs) (enough : os.length ≤ n) :
    sections f b n p a = sections f b (n - os.length) (p + bs.length) a := by
  induction each generalizing n p with
  | nil => rfl
  | @cons o os e es first _ ih =>
      rcases n with _ | n
      · simp at enough
      · rcases has_append.1 has with ⟨here, rest⟩
        rcases first with @⟨len, size⟩
        rcases has_append.1 (has_cons.1 here).2 with ⟨sized, body⟩
        have inside := has_length here (by simp)
        simp only [length_cons, length_append] at inside
        have same : o.body.length % usize = o.body.length := Nat.mod_eq_of_lt (by omega)
        have place : p + 1 + len.length + o.body.length =
            p + (o.id :: (len ++ o.body)).length := by
          simp only [length_cons, length_append]
          omega
        have left : n + 1 - (o :: os).length = n - os.length := by simp
        have upto : p + (o.id :: (len ++ o.body)).length + es.length =
            p + (o.id :: (len ++ o.body) ++ es).length := by
          rw [length_append]
          omega
        rw [length_cons] at enough
        rw [sections, if_pos (by omega), next_reads short here, bind_ok]
        dsimp only
        rw [leb_reads short size (by omega) sized, bind_ok]
        dsimp only
        rw [same, if_neg (by omega), if_neg o.other, place, ih rest (by omega), upto, left]

theorem walk_reads {m : Sections} (enc : m.Encoded b) :
    walk f b a = .ok (feed f a (m.imports.getD [])) := by
  have four : magic.length = 4 := rfl
  rcases enc with
    @⟨before, after, is, v, s, c, e, r, t, version, first, count, each, section_, rest⟩ |
    @⟨before, v, s, version, first⟩
  · have start : (magic ++ v ++ s ++ t ++ r).take 4 = magic := by
      simp only [append_assoc]
      exact take_left' rfl
    have place : (magic ++ v).length = 8 := by rw [length_append, version, four]
    have has : Has (magic ++ v ++ s ++ t ++ r) 8 (s ++ t ++ r) := by
      apply has_of_drop
      rw [append_assoc (magic ++ v), append_assoc (magic ++ v), drop_left' place]
    have fewer := each_length first
    rcases has_append.1 has with ⟨has, -⟩
    rcases has_append.1 has with ⟨others, here⟩
    rcases section_ with @⟨len, size⟩
    have inside := has_length here (by simp)
    rw [walk, if_pos start, sections_other short first others (by omega)]
    have fuel : ∃ n, (magic ++ v ++ s ++ 2 :: (len ++ (c ++ e)) ++ r).length - before.length =
        n + 1 := Nat.exists_eq_add_of_le' (by omega)
    rcases fuel with ⟨n, fuel⟩
    rcases has_append.1 (has_cons.1 here).2 with ⟨sized, body⟩
    rcases has_append.1 body with ⟨counted, listed⟩
    simp only [length_cons, length_append] at inside
    have same : (c ++ e).length % usize = (c ++ e).length := Nat.mod_eq_of_lt (by
      simp only [length_append, length_cons] at short ⊢
      omega)
    rw [fuel, sections, if_pos (by simp only [length_append, length_cons]; omega),
      next_reads short here, bind_ok]
    dsimp only
    rw [leb_reads short size (by omega) sized, bind_ok]
    dsimp only
    rw [same, if_neg (by simp only [length_append, length_cons] at short ⊢; omega),
      if_pos rfl, leb_reads short count (by omega) counted, bind_ok]
    exact imports_reads short each listed
  · have start : (magic ++ v ++ s).take 4 = magic := by
      rw [append_assoc]
      exact take_left' rfl
    have place : (magic ++ v).length = 8 := by rw [length_append, version, four]
    have has : Has (magic ++ v ++ s) 8 s := has_of_drop (drop_left' place)
    have fewer := each_length first
    have whole : (magic ++ v ++ s).length = 8 + s.length := by rw [length_append, place]
    rw [walk, if_pos start, sections_other short first has (by omega)]
    have fuel : ∃ n, (magic ++ v ++ s).length - before.length = n + 1 :=
      Nat.exists_eq_add_of_le' (by omega)
    rcases fuel with ⟨n, fuel⟩
    rw [fuel, sections, if_neg (by omega)]
    rfl

end

/-- A reading that is no bug, and goes on, within the image. -/
structure Safe (b : Bytes) (p : Nat) (r : Except Stop (α × Nat)) : Prop where
  calm : r ≠ .error .panicked
  ahead : ∀ a q, r = .ok (a, q) → p < q ∧ q ≤ b.length

theorem Safe.bind {α β : Type} {r : Except Stop (α × Nat)} {k : α × Nat → Except Stop (β × Nat)}
    (first : Safe b p r) (rest : ∀ a q, p < q → q ≤ b.length → k (a, q) ≠ .error .panicked ∧
      ∀ c q', k (a, q) = .ok (c, q') → q ≤ q' ∧ q' ≤ b.length) : Safe b p (r >>= k) := by
  rcases r with e | ⟨a, q⟩
  · exact ⟨fun no => first.calm (by cases no; rfl), fun a q no => by cases no⟩
  · rcases first.ahead a q rfl with ⟨past, inside⟩
    refine ⟨(rest a q past inside).1, fun c q' same => ?_⟩
    have further := (rest a q past inside).2 c q' same
    omega

theorem calm_bind {α β : Type} {r : Except Stop α} {k : α → Except Stop β}
    (first : r ≠ .error .panicked) (rest : ∀ a, r = .ok a → k a ≠ .error .panicked) :
    (r >>= k) ≠ .error .panicked := by
  rcases r with e | a
  · exact fun no => first (by cases no; rfl)
  · exact rest a rfl

section

variable (short : b.length < 2 ^ 31)

include short

theorem next_safe (p : Nat) : Safe b p (next b p) := by
  rw [next]
  rcases there : b[p]? with _ | x
  · exact ⟨by simp, by simp⟩
  · have inside : p < b.length := (List.getElem?_eq_some_iff.1 there).1
    rw [bump, if_pos (by rw [usize]; omega)]
    refine ⟨by simp [Except.map], fun a q same => ?_⟩
    cases same
    omega

theorem lebLoop_safe (steps v shift p : Nat) : Safe b p (lebLoop b steps v shift p) := by
  induction steps generalizing v shift p with
  | zero => exact ⟨by simp [lebLoop], by simp [lebLoop]⟩
  | succ steps ih =>
      rw [lebLoop]
      apply (next_safe short p).bind
      intro x q past inside
      dsimp only
      split_ifs
      · refine ⟨by simp, fun c q' same => ?_⟩
        cases same
        exact ⟨Nat.le_refl _, inside⟩
      · have rest := ih (v ||| ((x.toNat % 128) <<< shift) % 2 ^ 64) (shift + 7) q
        refine ⟨rest.calm, fun c q' same => ?_⟩
        have further := rest.ahead c q' same
        omega

theorem leb_safe (p : Nat) : Safe b p (leb b p) := lebLoop_safe short ..

theorem name_safe (p : Nat) : Safe b p (name b p) := by
  rw [name]
  apply (leb_safe short p).bind
  intro n q past inside
  dsimp only
  split_ifs with out
  · exact ⟨by simp, by simp⟩
  · rcases String.fromUTF8? ⟨((b.drop q).take (n % usize)).toArray⟩ with _ | s
    · exact ⟨by simp, by simp⟩
    · dsimp only
      rw [bump, if_pos (by omega)]
      refine ⟨by simp [Except.map], fun c q' same => ?_⟩
      cases same
      omega

theorem limits_calm (p : Nat) : limits b p ≠ .error .panicked := by
  apply calm_bind (next_safe short p).calm
  rintro ⟨flags, q⟩ -
  apply calm_bind (leb_safe short q).calm
  rintro ⟨min, q'⟩ -
  dsimp only
  split_ifs
  · apply calm_bind (leb_safe short q').calm
    rintro ⟨max, q''⟩ -
    simp
  · simp

theorem bump_calm {n : Nat} (inside : p ≤ b.length) (small : n ≤ 2) :
    bump n p ≠ .error .panicked := by
  rw [bump, if_pos (by rw [usize]; omega)]
  simp

theorem desc_calm (kind : UInt8) (inside : p ≤ b.length) : desc b kind p ≠ .error .panicked := by
  unfold desc
  split
  · apply calm_bind (leb_safe short p).calm
    simp
  · apply calm_bind (bump_calm short inside (by omega))
    intro q _
    apply calm_bind (limits_calm short q)
    simp
  · apply calm_bind (limits_calm short p)
    simp
  · apply calm_bind (bump_calm short inside (by omega))
    simp
  · apply calm_bind (bump_calm short inside (by omega))
    intro q _
    apply calm_bind (leb_safe short q).calm
    simp
  · simp

theorem imports_calm {σ : Type} {f : σ → String → Option (Nat × Nat) → σ × Bool} (n p : Nat)
    (a : σ) : imports f b n p a ≠ .error .panicked := by
  induction n generalizing p a with
  | zero => simp [imports]
  | succ n ih =>
      rw [imports]
      apply calm_bind (name_safe short p).calm
      rintro ⟨m, q⟩ -
      apply calm_bind (name_safe short q).calm
      rintro ⟨field, q'⟩ -
      apply calm_bind (next_safe short q').calm
      rintro ⟨kind, q''⟩ read
      apply calm_bind (desc_calm short kind ((next_safe short q').ahead kind q'' read).2)
      rintro ⟨mem, r⟩ -
      dsimp only
      split_ifs
      · simp
      · exact ih r _

theorem sections_calm {σ : Type} {f : σ → String → Option (Nat × Nat) → σ × Bool} {n p : Nat}
    (a : σ) (some_ : 0 < n) (enough : b.length < n + p) :
    sections f b n p a ≠ .error .panicked := by
  induction n generalizing p with
  | zero => omega
  | succ n ih =>
      rw [sections]
      split_ifs with inside
      · apply calm_bind (next_safe short p).calm
        rintro ⟨id, q⟩ first
        apply calm_bind (leb_safe short q).calm
        rintro ⟨size, q'⟩ sized
        have past := (next_safe short p).ahead id q first
        have past' := (leb_safe short q).ahead size q' sized
        dsimp only
        split_ifs
        · simp
        · apply calm_bind (leb_safe short q').calm
          rintro ⟨count, r⟩ -
          exact imports_calm short count r a
        · exact ih (by omega) (by omega)
      · simp

theorem walk_calm {σ : Type} {f : σ → String → Option (Nat × Nat) → σ × Bool} (a : σ) :
    walk f b a ≠ .error .panicked := by
  rw [walk]
  split_ifs with start
  · have some_ : 0 < b.length := by
      rcases b with _ | ⟨x, b⟩
      · cases start
      · simp
    exact sections_calm short a some_ (by omega)
  · simp

end

theorem orElse_calm {α : Type} (d : α) {r : Except Stop α} (calm : r ≠ .error .panicked) :
    ∃ a, orElse d r = .ok a := by
  rcases r with (_ | _) | a
  · exact ⟨d, rfl⟩
  · exact absurd rfl calm
  · exact ⟨a, rfl⟩

theorem orElse_ok {α : Type} (d a : α) : orElse d (.ok a) = .ok a := rfl

structure Image where
  bytes : Bytes
  short : bytes.length < 2 ^ 31

structure Binary extends Image where
  sections : Sections
  encoded : sections.Encoded bytes

def Binary.imported (i : Binary) : List Import := i.sections.imports.getD []

theorem feed_found (is : List Import) :
    feed (fun _ _ mem => (mem, mem.isSome)) none is = is.findSome? fun i => i.desc.pages := by
  induction is with
  | nil => rfl
  | cons i is ih =>
      rw [feed, List.findSome?_cons]
      rcases i.desc.pages with _ | mem
      · exact ih
      · rfl

theorem feed_names (ms : List String) (is : List Import) :
    feed (fun ms m _ => (ms ++ [m], false)) ms is = ms ++ is.map Import.module := by
  induction is generalizing ms with
  | nil => rw [feed, map_nil, append_nil]
  | cons i is ih =>
      rw [feed, if_neg (by simp), ih, map_cons, append_assoc, singleton_append]

/-- Any bytes are read to an answer; and of an image in the format the memory is the first it
imports, and it is a WASI program if one of its imports is from WASI. -/
theorem reads_right :
    (∀ i : Image, (∃ r, memimport i.bytes = .ok r) ∧ ∃ w, wasi i.bytes = .ok w) ∧
    ∀ i : Binary, memimport i.bytes = .ok (i.imported.findSome? fun i => i.desc.pages) ∧
      wasi i.bytes = .ok (i.imported.any fun i => i.module == "wasi_snapshot_preview1") := by
  constructor
  · intro i
    refine ⟨orElse_calm none (walk_calm i.short none), ?_⟩
    rcases orElse_calm [] (walk_calm i.short []) with ⟨ms, read⟩
    rw [wasi, read]
    exact ⟨_, rfl⟩
  · intro i
    have short : i.bytes.length < usize := by
      have below := i.short
      rw [usize]
      omega
    rw [memimport, wasi, walk_reads short i.encoded, walk_reads short i.encoded, feed_found,
      feed_names, nil_append, orElse_ok, orElse_ok, Except.map, any_map]
    exact ⟨rfl, rfl⟩

theorem name_written {len bs : Bytes} {s : String} (text : s.toByteArray.data.toList = bs)
    (count : Leb 32 bs.length len) : Name s (len ++ bs) := by
  rw [← text] at count ⊢
  exact ⟨count⟩

example : Sections.Encoded ⟨[], some [⟨"env", "memory", .memory ⟨2, some 100, true⟩⟩], []⟩
    (magic ++ [1, 0, 0, 0] ++ [] ++ (2 :: ([16] ++ ([1] ++ ([3] ++ [0x65, 0x6e, 0x76] ++
      ([6] ++ [0x6d, 0x65, 0x6d, 0x6f, 0x72, 0x79]) ++ (2 :: 3 :: ([2] ++ [100])) ++ [])))) ++
        []) := by
  have small : ∀ x : UInt8, x.toNat < 128 → Leb 32 x.toNat [x] ∧ Leb 64 x.toNat [x] :=
    fun x low => ⟨.last x low (by omega), .last x low (by omega)⟩
  have env : Name "env" ([3] ++ [0x65, 0x6e, 0x76]) :=
    name_written (by decide) (small 3 (by decide)).1
  have memory : Name "memory" ([6] ++ [0x6d, 0x65, 0x6d, 0x6f, 0x72, 0x79]) :=
    name_written (by decide) (small 6 (by decide)).1
  have limits : Limits.Encoded ⟨2, some 100, true⟩ (3 :: ([2] ++ [100])) :=
    .upto 3 rfl (small 2 (by decide)).2 (small 100 (by decide)).2
  exact .some_ rfl .nil (small 1 (by decide)).1
    (.cons (.mk env memory (.memory limits (by decide) (by decide))) .nil)
    (.mk (small 16 (by decide)).1) .nil

example : memimport (magic ++ [1, 0, 0, 0, 1, 4, 1, 0x60, 0, 0, 2, 27, 2,
    3, 0x73, 0x79, 0x73, 4, 0x6f, 0x70, 0x65, 0x6e, 0, 0,
    3, 0x65, 0x6e, 0x76, 6, 0x6d, 0x65, 0x6d, 0x6f, 0x72, 0x79, 2, 3, 2, 100]) =
      .ok (some (2, 100)) := by
  decide

end Ipnx.Host.Module
