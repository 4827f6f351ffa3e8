import Ipnx.Machine.Memory
import Ipnx.Name.Sandbox

/-!
# The addresses a call is given

The imports of `hosts/ipnx/src/machine.rs` read a call's arguments from the process's memory and
write its result there, at the words the process passed; `validargs` of `kernel/src/lib.rs` checks
the same words by a table of its own, before the call. Both should mean the same bytes.
-/

namespace Ipnx.Pointers

open List

/-- The imports that take a pointer, with their words. -/
inductive Import
  | open_ (p mode : Word)
  | create (p mode perm : Word)
  | pread (fd p n off : Word)
  | pwrite (fd p n off : Word)
  | pipe (p : Word)
  | remove (p : Word)
  | chdir (p : Word)
  | bind (n o flag : Word)
  | mount (fd afd o flag a : Word)
  | unmount (n o : Word)
  | stat (p e n : Word)
  | fstat (fd e n : Word)
  | oldStat (p e : Word)
  | oldFstat (fd e : Word)
  | wstat (p e n : Word)
  | fwstat (fd e n : Word)
  | fauth (fd a : Word)
  | fd2path (fd p n : Word)
  | fversion (fd m v n : Word)
  | exec (p a : Word)
  | exits (p : Word)
  | await (p n : Word)
  | errstr (p n : Word)
  | semacquire (addr block : Word)
  | tsemacquire (addr ms : Word)
  | semrelease (addr delta : Word)
  | oscmd (a e d nice fdp : Word)
  deriving DecidableEq, Repr

/-- `up->s`. -/
def Import.words : Import → List Word
  | open_ p mode => [p, mode]
  | create p mode perm => [p, mode, perm]
  | pread fd p n off | pwrite fd p n off => [fd, p, n, off]
  | pipe p | remove p | chdir p | exits p => [p]
  | bind n o flag => [n, o, flag]
  | mount fd afd o flag a => [fd, afd, o, flag, a]
  | unmount n o => [n, o]
  | stat p e n | wstat p e n => [p, e, n]
  | fstat fd e n | fwstat fd e n => [fd, e, n]
  | oldStat p e => [p, e]
  | oldFstat fd e => [fd, e]
  | fauth fd a => [fd, a]
  | fd2path fd p n => [fd, p, n]
  | fversion fd m v n => [fd, m, v, n]
  | exec p a => [p, a]
  | await p n | errstr p n => [p, n]
  | semacquire addr x | tsemacquire addr x | semrelease addr x => [addr, x]
  | oscmd a e d nice fdp => [a, e, d, nice, fdp]

def Import.a (i : Import) (k : Nat) : Word := i.words.getD k 0

def load (m : Memory) (addr : Nat) : Option Word :=
  (m.readAt addr 4).map Memory.fromLe

def okaddr (m : Memory) (addr len : Nat) : Bool :=
  if 2 ^ 31 ≤ len then false
  else
    let last := addr + (max len 1 - 1)
    if 2 ^ 32 ≤ last then false
    else (load m (addr / 4 * 4)).isSome && (load m (last / 4 * 4)).isSome

def ebadarg : String := "bad arg in system call"

def validaddr (m : Memory) (addr len : Nat) : Except String Unit :=
  if okaddr m addr len then .ok () else .error ebadarg

def validalign (addr align : Nat) : Except String Unit :=
  if addr % align ≠ 0 then .error ebadarg else .ok ()

def userbyte (m : Memory) (addr : Nat) : Option UInt8 :=
  (load m (addr / 4 * 4)).map fun w => .ofNat (w.toNat / 256 ^ (addr % 4))

/-- The name's bytes up to its NUL, so many from `addr` on. -/
def validbytes (m : Memory) : Nat → Nat → Except String Unit
  | 0, _ => .error "name too long"
  | n + 1, addr =>
      match userbyte m addr with
      | none => validaddr m addr 1
      | some b => if b = 0 then .ok () else validbytes m n ((addr + 1) % 2 ^ 32)

def validname (m : Memory) (addr : Nat) : Except String Unit :=
  (validaddr m addr 1).bind fun _ => validbytes m (2 ^ 16) addr

/-- `validargv`'s loop, for so many pointers; with more it does not return. -/
def validargvLoop (m : Memory) : Nat → Nat → Option (Except String Unit)
  | 0, _ => none
  | n + 1, argp =>
      match validaddr m argp 4 with
      | .error e => some (.error e)
      | .ok () =>
          match load m argp with
          | none => some (.error "address out of range")
          | some s =>
              if s = 0 then some (.ok ())
              else
                match validname m s.toNat with
                | .error e => some (.error e)
                | .ok () => validargvLoop m n ((argp + 4) % 2 ^ 32)

/-- There are only so many pointers to come to. -/
def validargv (m : Memory) (argp : Nat) : Option (Except String Unit) :=
  match validalign argp 4 with
  | .error e => some (.error e)
  | .ok () => validargvLoop m (2 ^ 30) argp

inductive Check
  | addr (p len : Word)
  | align (p : Word)
  | name (p : Word)
  | argv (p : Word)
  | flag (f : Word)
  | nonzero (n : Word)
  | nul (p n : Word)
  deriving DecidableEq, Repr

def Check.answer (m : Memory) : Check → Option (Except String Unit)
  | addr p len => some (validaddr m p.toNat len.toNat)
  | align p => some (validalign p.toNat 4)
  | name p => some (validname m p.toNat)
  | argv p => validargv m p.toNat
  | flag f => some (Name.NameKernel.bindflag ⟨f⟩)
  | nonzero n => some (if n = 0 then .error ebadarg else .ok ())
  | nul p n => some
      (if (List.range n.toNat).any fun i => userbyte m ((p.toNat + i) % 2 ^ 32) = some 0 then .ok ()
      else .error ebadarg)

def run (m : Memory) : List Check → Option (Except String Unit)
  | [] => some (.ok ())
  | c :: cs =>
      match c.answer m with
      | none => none
      | some (.error e) => some (.error e)
      | some (.ok ()) => run m cs

def unlessNil (p : Word) (cs : List Check) : List Check := if p = 0 then [] else cs

/-- What `validargs` checks for a call, and in what order; and for `exits` its status, which is not
taken when it is bad. -/
def checks (i : Import) : List Check :=
  match i with
  | .open_ .. | .create .. | .remove .. | .chdir .. => [.name (i.a 0)]
  | .stat .. | .wstat .. => [.addr (i.a 1) (i.a 2), .name (i.a 0)]
  | .fstat .. | .fwstat .. => [.addr (i.a 1) (i.a 2)]
  | .oldStat .. => [.addr (i.a 1) 116, .name (i.a 0)]
  | .oldFstat .. => [.addr (i.a 1) 116]
  | .pread .. | .pwrite .. => [.addr (i.a 1) (i.a 2)]
  | .bind _ _ flag => [.flag flag, .name (i.a 0), .name (i.a 1)]
  | .mount _ _ _ flag _ => [.flag flag, .name (i.a 4), .name (i.a 2)]
  | .fauth .. => [.name (i.a 1)]
  | .unmount .. => .name (i.a 1) :: unlessNil (i.a 0) [.name (i.a 0)]
  | .pipe .. => [.addr (i.a 0) 8, .align (i.a 0)]
  | .exec .. => [.name (i.a 0), .argv (i.a 1)]
  | .oscmd .. =>
      .argv (i.a 0) :: (unlessNil (i.a 1) [.argv (i.a 1)] ++ unlessNil (i.a 2) [.name (i.a 2)] ++
        unlessNil (i.a 4) [.addr (i.a 4) 12, .align (i.a 4)])
  | .await .. => [.addr (i.a 0) (i.a 1)]
  | .fd2path .. => [.addr (i.a 1) (i.a 2)]
  | .errstr .. => [.nonzero (i.a 1), .addr (i.a 0) (i.a 1)]
  | .fversion .. => [.addr (i.a 2) (i.a 3), .nul (i.a 2) (i.a 3)]
  | .semacquire .. | .tsemacquire .. | .semrelease .. => [.addr (i.a 0) 4, .align (i.a 0)]
  | .exits .. => unlessNil (i.a 0) [.addr (i.a 0) 1]

def validargs (m : Memory) (i : Import) : Option (Except String Unit) := run m (checks i)

/-- What an import does with a word: a name or a text in a buffer or a vector it reads with `cstr`,
`cargv` or `cbytesv`, bytes it `read`s, room for a result it `write`s, or a number it passes on. -/
inductive Take
  | name (p : Word)
  | text (p n : Word)
  | vector (p : Word)
  | buffer (p n : Word)
  | room (p n : Word)
  | number (p : Word)
  deriving DecidableEq, Repr

def orNil (p : Word) (t : Take) : List Take := if p = 0 then [] else [t]

def takes : Import → List Take
  | .open_ p _ | .create p _ _ | .remove p | .chdir p => [.name p]
  | .pread _ p n _ => [.room p n]
  | .pwrite _ p n _ => [.buffer p n]
  | .pipe p => [.room p 8]
  | .bind n o _ => [.name n, .name o]
  | .mount _ _ o _ a => .name o :: orNil a (.name a)
  | .unmount n o => .name o :: orNil n (.name n)
  | .stat p e n => [.name p, .room e n]
  | .fstat _ e n => [.room e n]
  | .oldStat p e => [.name p, .room e 116]
  | .oldFstat _ e => [.room e 116]
  | .wstat p e n => [.name p, .buffer e n]
  | .fwstat _ e n => [.buffer e n]
  | .fauth _ a => [.name a]
  | .fd2path _ p n => [.room p n]
  | .fversion _ _ v n => [.text v n, .room v n]
  | .exec p a => [.name p, .vector a]
  | .exits p => orNil p (.name p)
  | .await p n => [.room p n]
  | .errstr p n => [.text p n, .room p n]
  | .semacquire addr _ | .tsemacquire addr _ | .semrelease addr _ => [.number addr]
  | .oscmd a e d _ fdp =>
      .vector a :: (orNil e (.vector e) ++ orNil d (.name d) ++ orNil fdp (.room fdp 12))

def pointers (b : Bytes) : Option (List Word) := Memory.vector some b

/-- What the machine reads, or where it writes, is what is at the unsigned address. -/
def Take.Agrees (m : Memory) : Take → Prop
  | name p => ∃ s, m.span p.clamp = some s ∧ m.span p.toNat = some s
  | text p n => ∃ stop, m.span p.clamp = some (p.toNat, stop) ∧ stop ≤ p.toNat + n.toNat
  | vector p => p.clamp = p.toNat ∧ ∃ ss,
      Memory.vector (fun q => m.span q.clamp) (m.bytes.drop p.clamp) = some ss ∧
        Memory.vector (fun q => m.span q.toNat) (m.bytes.drop p.toNat) = some ss
  | buffer p n => ∃ b, m.read p n = some b ∧ m.readAt p.toNat n.toNat = some b ∧
      (n.toNat = 0 ∨ p.clamp = p.toNat)
  | room p n => p.toNat + n.toNat ≤ m.size ∧ (n.toNat = 0 ∨ p.clamp = p.toNat)
  | number _ => True

def Admits (answer : Option (Except String Unit)) : Prop := ∀ e, answer ≠ some (.error e)

/-- Either the kernel refuses a call, or the machine means the same bytes. -/
def Right (m : Memory) (i : Import) : Prop :=
  Admits (validargs m i) → ∀ t ∈ takes i, t.Agrees m

/-- Addresses below the sign bit; of a vector, all its pointers, and a nil one before the end of the
memory; and a text that ends in its buffer. -/
def Take.Clear (m : Memory) : Take → Prop
  | name p => p.toNat < 2 ^ 31
  | text p n => p.toNat < 2 ^ 31 ∧ (m.bytes.drop p.toNat).findIdx (· = 0) ≤ n.toNat
  | vector p => p.toNat < 2 ^ 31 ∧
      ∃ ps, pointers (m.bytes.drop p.toNat) = some ps ∧ ∀ q ∈ ps, q.toNat < 2 ^ 31
  | buffer p n | room p n => n.toNat = 0 ∨ p.toNat < 2 ^ 31
  | number _ => True

variable {m : Memory} {p q n : Word} {addr len start stop : Nat} {α : Type}

theorem clamp_eq (p : Word) : p.clamp = if p.toNat < 2 ^ 31 then p.toNat else 0 := by
  have value := BitVec.toInt_eq_toNat_cond p
  rw [Word.clamp]
  split_ifs at value ⊢ <;> omega

theorem clamp_low (low : p.toNat < 2 ^ 31) : p.clamp = p.toNat := by
  rw [clamp_eq, if_pos low]

/-- Only below the sign bit is an address, other than 0, taken as it is. -/
theorem low_of_clamp (same : p.clamp = p.toNat) : p.toNat < 2 ^ 31 := by
  rw [clamp_eq] at same
  split_ifs at same with low
  · exact low
  · omega

theorem span_some {s : Nat × Nat} (spanned : m.span start = some s) :
    start ≤ m.size ∧ s = (start, start + (m.bytes.drop start).findIdx (· = 0)) := by
  rw [Memory.span] at spanned
  split_ifs at spanned with outside
  exact ⟨by omega, (Option.some.inj spanned).symm⟩

theorem span_inside (inside : start ≤ m.size) :
    m.span start = some (start, start + (m.bytes.drop start).findIdx (· = 0)) := by
  rw [Memory.span, if_neg (by omega)]

theorem vector_iff {f : Word → Option α} {l : List α} (b : Bytes) :
    Memory.vector f b = some l ↔
      ∃ ps, pointers b = some ps ∧ List.Forall₂ (fun q x => f q = some x) ps l := by
  induction b using Memory.vector.induct generalizing l with
  | case1 b₀ b₁ b₂ b₃ rest nil_ =>
      rw [pointers, Memory.vector, Memory.vector, if_pos nil_, if_pos nil_]
      constructor
      · intro none_
        cases none_
        exact ⟨[], rfl, .nil⟩
      · rintro ⟨ps, none_, all⟩
        cases none_
        cases all
        rfl
  | case2 b₀ b₁ b₂ b₃ rest there ih =>
      rw [pointers, Memory.vector, Memory.vector, if_neg there, if_neg there, Option.bind_some]
      constructor
      · intro some_
        rcases Option.bind_eq_some_iff.1 some_ with ⟨s, first, more⟩
        rcases Option.map_eq_some_iff.1 more with ⟨l', others, rfl⟩
        rcases ih.1 others with ⟨ps, read, all⟩
        rw [pointers] at read
        rw [read]
        exact ⟨_, rfl, .cons first all⟩
      · rintro ⟨ps, read, all⟩
        rcases Option.map_eq_some_iff.1 read with ⟨ps', others, rfl⟩
        rcases all with _ | ⟨first, all⟩
        rw [first, Option.bind_some, ih.2 ⟨ps', others, all⟩, Option.map_some]
  | case3 b short =>
      have read : ∀ {β : Type} (g : Word → Option β), Memory.vector g b = none := by
        intro β g
        rw [Memory.vector]
        exact short
      rw [pointers, read, read]
      simp

theorem okaddr_iff : okaddr m addr len = true ↔ len < 2 ^ 31 ∧ addr + max len 1 ≤ m.size := by
  have whole := m.whole
  have bounded := m.bounded
  have there : ∀ a, (load m a).isSome ↔ a + 4 ≤ m.size := by
    intro a
    rw [load, Memory.readAt]
    split_ifs with inside <;> simp [inside]
  rw [← Memory.size] at whole bounded
  rw [okaddr]
  dsimp only
  split_ifs with long past
  · exact ⟨fun no => absurd no (by decide), fun both => absurd both.1 (by omega)⟩
  · exact ⟨fun no => absurd no (by decide), fun both => absurd both.2 (by omega)⟩
  · rw [Bool.and_eq_true, there, there]
    omega

theorem validaddr_ok :
    validaddr m addr len = .ok () ↔ len < 2 ^ 31 ∧ addr + max len 1 ≤ m.size := by
  rw [← okaddr_iff, validaddr]
  split_ifs with ok <;> simp [ok]

theorem validname_inside (ok : validname m addr = .ok ()) : addr < m.size := by
  rw [validname] at ok
  rcases first : validaddr m addr 1 with e | _
  · rw [first] at ok
    cases ok
  · have inside := (validaddr_ok.1 first).2
    omega

theorem pointers_first {ps : List Word} (read : pointers (m.bytes.drop addr) = some ps) :
    addr + 4 ≤ m.size ∧ ∃ s, load m addr = some s ∧ (s = 0 ∧ ps = [] ∨
      s ≠ 0 ∧ ∃ ps', ps = s :: ps' ∧ pointers (m.bytes.drop (addr + 4)) = some ps') := by
  have four : ∃ b₀ b₁ b₂ b₃ rest, m.bytes.drop addr = b₀ :: b₁ :: b₂ :: b₃ :: rest := by
    rcases whole : m.bytes.drop addr with _ | ⟨b₀, _ | ⟨b₁, _ | ⟨b₂, _ | ⟨b₃, rest⟩⟩⟩⟩
    all_goals
      rw [whole] at read
      first
        | exact ⟨_, _, _, _, _, rfl⟩
        | cases read
  rcases four with ⟨b₀, b₁, b₂, b₃, rest, four⟩
  have inside : addr + 4 ≤ m.size := by
    have long := congrArg List.length four
    rw [length_drop, ← Memory.size] at long
    simp only [length_cons] at long
    omega
  have after : m.bytes.drop (addr + 4) = rest := by
    rw [← drop_drop, four]
    rfl
  have loaded : load m addr = some (Memory.fromLe [b₀, b₁, b₂, b₃]) := by
    rw [load, Memory.readAt, if_pos inside, Memory.slice, four, Nat.add_sub_cancel_left]
    rfl
  refine ⟨inside, _, loaded, ?_⟩
  rw [pointers, four, Memory.vector] at read
  split_ifs at read with nil_
  · cases read
    exact .inl ⟨nil_, rfl⟩
  · rcases Option.map_eq_some_iff.1 read with ⟨ps', others, rfl⟩
    exact .inr ⟨nil_, ps', rfl, by rw [after]; exact others⟩

/-- The pointers of an array that ends are all come to, and each is a name's. -/
theorem validargvLoop_inside {ps : List Word} {argp steps : Nat}
    (read : pointers (m.bytes.drop argp) = some ps) (enough : ps.length < steps) :
    ∃ r, validargvLoop m steps argp = some r ∧ (r = .ok () → ∀ q ∈ ps, q.toNat < m.size) := by
  induction steps generalizing argp ps with
  | zero => simp at enough
  | succ steps ih =>
      rcases pointers_first read with ⟨inside, s, loaded, ends⟩
      rw [validargvLoop]
      rcases validaddr m argp 4 with e | _
      · exact ⟨_, rfl, fun no => by cases no⟩
      · simp only [loaded]
        rcases ends with ⟨nil_, rfl⟩ | ⟨some_, ps', rfl, others⟩
        · exact ⟨.ok (), if_pos nil_, by simp⟩
        · rw [if_neg some_]
          rcases named : validname m s.toNat with e | _
          · exact ⟨_, rfl, fun no => by cases no⟩
          · have next := (pointers_first others).1
            have bounded := m.bounded
            rw [← Memory.size] at bounded
            have same : (argp + 4) % 2 ^ 32 = argp + 4 := Nat.mod_eq_of_lt (by omega)
            rw [length_cons] at enough
            rcases ih others (by omega) with ⟨r, rest, all⟩
            rw [same]
            refine ⟨r, rest, fun ok q member => ?_⟩
            rcases mem_cons.1 member with rfl | other
            · exact validname_inside named
            · exact all ok q other

/-- What a check that is passed says of what it covers. -/
def Take.Valid (m : Memory) : Take → Prop
  | name p => p.toNat < m.size
  | vector p => ∀ ps, pointers (m.bytes.drop p.toNat) = some ps → ∀ q ∈ ps, q.toNat < m.size
  | text p n | buffer p n | room p n => n.toNat < 2 ^ 31 ∧ p.toNat + max n.toNat 1 ≤ m.size
  | number _ => True

theorem low_of_spans {ps : List Word} {ss : List (Nat × Nat)}
    (here : List.Forall₂ (fun q x => m.span q.clamp = some x) ps ss)
    (there : List.Forall₂ (fun q x => m.span q.toNat = some x) ps ss) :
    ∀ q ∈ ps, q.toNat < 2 ^ 31 := by
  induction here with
  | nil => simp
  | @cons q s ps ss first _ ih =>
      rcases there with _ | ⟨first', there⟩
      intro q' member
      rcases mem_cons.1 member with rfl | other
      · have same := (span_some first).2.symm.trans (span_some first').2
        exact low_of_clamp (Prod.mk.inj same).1
      · exact ih there q' other

theorem Take.clear_of_agrees {t : Take} (agrees : t.Agrees m) : t.Clear m := by
  cases t with
  | name p =>
      rcases agrees with ⟨s, here, there⟩
      have same := (span_some here).2.symm.trans (span_some there).2
      exact low_of_clamp (Prod.mk.inj same).1
  | text p n =>
      rcases agrees with ⟨stop, here, ends⟩
      have same := Prod.mk.inj (span_some here).2
      have low := low_of_clamp same.1.symm
      refine ⟨low, ?_⟩
      rw [← same.1] at same
      omega
  | vector p =>
      rcases agrees with ⟨start, ss, here, there⟩
      rcases (vector_iff _).1 here with ⟨ps, read, all⟩
      rcases (vector_iff _).1 there with ⟨ps', read', all'⟩
      rw [start] at read
      rw [read] at read'
      cases read'
      exact ⟨low_of_clamp start, ps, read, low_of_spans all all'⟩
  | buffer p n =>
      rcases agrees with ⟨b, -, -, start⟩
      exact start.imp_right low_of_clamp
  | room p n => exact agrees.2.imp_right low_of_clamp
  | number p => trivial

theorem Take.agrees_of_clear {t : Take} (valid : t.Valid m) (clear : t.Clear m) : t.Agrees m := by
  cases t with
  | name p =>
      have inside := span_inside (Nat.le_of_lt valid)
      exact ⟨_, by rw [clamp_low clear]; exact inside, inside⟩
  | text p n =>
      refine ⟨_, ?_, Nat.add_le_add_left clear.2 _⟩
      rw [clamp_low clear.1]
      apply span_inside
      have inside := valid.2
      omega
  | vector p =>
      rcases clear with ⟨low, ps, read, pointed⟩
      have inside := valid ps read
      have both : ∀ q ∈ ps, m.span q.clamp = m.span q.toNat ∧ m.span q.toNat =
          some (q.toNat, q.toNat + (m.bytes.drop q.toNat).findIdx (· = 0)) := by
        intro q member
        rw [clamp_low (pointed q member)]
        exact ⟨rfl, span_inside (Nat.le_of_lt (inside q member))⟩
      refine ⟨clamp_low low,
        ps.map fun q => (q.toNat, q.toNat + (m.bytes.drop q.toNat).findIdx (· = 0)),
        (vector_iff _).2 ⟨ps, ?_, ?_⟩, (vector_iff _).2 ⟨ps, read, ?_⟩⟩
      · rw [clamp_low low]
        exact read
      · rw [forall₂_map_right_iff, forall₂_same]
        exact fun q member => (both q member).1.trans (both q member).2
      · rw [forall₂_map_right_iff, forall₂_same]
        exact fun q member => (both q member).2
  | buffer p n =>
      rcases valid with ⟨short, inside⟩
      have count := clamp_low short
      rcases clear with none_ | low
      · have below : p.clamp ≤ p.toNat := by
          rw [clamp_eq]
          split_ifs <;> omega
        refine ⟨[], ?_, ?_, .inl none_⟩
        · rw [Memory.read, count, none_, Memory.readAt, if_pos (by omega), Memory.slice]
          simp
        · rw [none_, Memory.readAt, if_pos (by omega), Memory.slice]
          simp
      · refine ⟨m.slice p.toNat (p.toNat + n.toNat), ?_, ?_, .inr (clamp_low low)⟩
        · rw [Memory.read, count, clamp_low low, Memory.readAt, if_pos (by omega)]
        · rw [Memory.readAt, if_pos (by omega)]
  | room p n =>
      have inside := valid.2
      exact ⟨by omega, clear.imp_right clamp_low⟩
  | number p => trivial

def Take.Covered (c : Check) : Take → Prop
  | name p => c = .name p ∨ c = .addr p 1
  | vector p => c = .argv p
  | text p n | buffer p n | room p n => c = .addr p n
  | number p => c = .addr p 4

theorem pointers_length {ps : List Word} (read : pointers (m.bytes.drop addr) = some ps) :
    addr + 4 * (ps.length + 1) ≤ m.size := by
  induction ps generalizing addr with
  | nil =>
      have inside := (pointers_first read).1
      rw [length_nil]
      omega
  | cons q ps ih =>
      rcases (pointers_first read).2 with ⟨s, -, ⟨-, empty⟩ | ⟨-, ps', same, others⟩⟩
      · cases empty
      · cases same
        have inside := ih others
        rw [length_cons]
        omega

theorem validargv_inside {ps : List Word} (read : pointers (m.bytes.drop addr) = some ps) :
    ∃ r, validargv m addr = some r ∧ (r = .ok () → ∀ q ∈ ps, q.toNat < m.size) := by
  have long := pointers_length read
  have bounded := m.bounded
  rw [← Memory.size] at bounded
  rw [validargv]
  rcases validalign addr 4 with e | _
  · exact ⟨_, rfl, fun no => by cases no⟩
  · exact validargvLoop_inside read (by omega)

theorem Take.valid_of_passed {t : Take} {c : Check} (covered : t.Covered c)
    (passed : c.answer m = some (.ok ())) : t.Valid m := by
  cases t with
  | name p =>
      rcases covered with rfl | rfl
      · exact validname_inside (Option.some.inj passed)
      · have inside := (validaddr_ok.1 (Option.some.inj passed)).2
        have one : (1 : Word).toNat = 1 := rfl
        rw [Take.Valid]
        omega
  | vector p =>
      rw [Take.Covered] at covered
      rw [covered, Check.answer] at passed
      intro ps read
      rcases validargv_inside read with ⟨r, walked, inside⟩
      rw [walked] at passed
      exact inside (Option.some.inj passed)
  | text p n | buffer p n | room p n =>
      rw [Take.Covered] at covered
      rw [covered] at passed
      exact validaddr_ok.1 (Option.some.inj passed)
  | number p => trivial

theorem mem_orNil {t t' : Take} : t' ∈ orNil p t ↔ p ≠ 0 ∧ t' = t := by
  rw [orNil]
  split_ifs with nil_
  · exact ⟨fun no => absurd no (by simp), fun both => absurd nil_ both.1⟩
  · rw [mem_singleton]
    exact (and_iff_right nil_).symm

theorem mem_unlessNil {c : Check} {cs : List Check} : c ∈ unlessNil p cs ↔ p ≠ 0 ∧ c ∈ cs := by
  rw [unlessNil]
  split_ifs with nil_
  · exact ⟨fun no => absurd no (by simp), fun both => absurd nil_ both.1⟩
  · exact (and_iff_right nil_).symm

theorem covered (i : Import) {t : Take} (member : t ∈ takes i) : ∃ c ∈ checks i, t.Covered c := by
  cases i
  all_goals
    simp only [takes, mem_cons, mem_append, not_mem_nil, or_false, mem_orNil]
      at member
    simp only [checks, Import.a, Import.words, getD_cons_zero, getD_cons_succ,
      mem_cons, mem_append, not_mem_nil, or_false, mem_unlessNil]
  case mount =>
    rcases member with rfl | ⟨_, rfl⟩
    · exact ⟨_, .inr (.inr rfl), .inl rfl⟩
    · exact ⟨_, .inr (.inl rfl), .inl rfl⟩
  case unmount =>
    rcases member with rfl | ⟨some_, rfl⟩
    · exact ⟨_, .inl rfl, .inl rfl⟩
    · exact ⟨_, .inr ⟨some_, rfl⟩, .inl rfl⟩
  case exits =>
    rcases member with ⟨some_, rfl⟩
    exact ⟨_, ⟨some_, rfl⟩, .inr rfl⟩
  case oscmd =>
    rcases member with rfl | (⟨some_, rfl⟩ | ⟨some_, rfl⟩) | ⟨some_, rfl⟩
    · exact ⟨_, .inl rfl, rfl⟩
    · exact ⟨_, .inr (.inl (.inl ⟨some_, rfl⟩)), rfl⟩
    · exact ⟨_, .inr (.inl (.inr ⟨some_, rfl⟩)), .inl rfl⟩
    · exact ⟨_, .inr (.inr ⟨some_, .inl rfl⟩), rfl⟩
  all_goals
    rcases member with rfl | rfl
    all_goals simp [Take.Covered]

theorem vector_of_argv {i : Import} {p : Word} (member : .argv p ∈ checks i) :
    .vector p ∈ takes i := by
  cases i
  all_goals
    simp [checks, Import.a, Import.words, mem_unlessNil] at member
  all_goals
    simp [takes, mem_orNil, member]

theorem passed_of_admits {cs : List Check} (admits : Admits (run m cs))
    (returns : ∀ c ∈ cs, c.answer m ≠ none) : ∀ c ∈ cs, c.answer m = some (.ok ()) := by
  induction cs with
  | nil => simp
  | cons c cs ih =>
      have here := returns c (mem_cons_self ..)
      rw [run] at admits
      rcases answer : c.answer m with _ | e | _
      · exact absurd answer here
      · simp [answer, Admits] at admits
      · simp only [answer] at admits
        intro c' member
        rcases mem_cons.1 member with rfl | other
        · exact answer
        · exact ih admits (fun c member => returns c (mem_cons_of_mem _ member)) c' other

theorem returns_of_clear {i : Import} (clear : ∀ t ∈ takes i, t.Clear m) :
    ∀ c ∈ checks i, c.answer m ≠ none := by
  intro c member
  cases c with
  | argv p =>
      rcases clear _ (vector_of_argv member) with ⟨-, ps, read, -⟩
      rcases validargv_inside read with ⟨r, walked, -⟩
      rw [Check.answer, walked]
      simp
  | addr | align | name | flag | nonzero | nul => simp [Check.answer]

/-- A call the kernel does not refuse means the same bytes to both exactly if all the addresses are
below the sign bit, those of a vector's array and of what it points at too, the array ends, and a
text ends in its buffer. -/
theorem right_iff (m : Memory) (i : Import) :
    Right m i ↔ (Admits (validargs m i) → ∀ t ∈ takes i, t.Clear m) := by
  constructor
  · intro right admits t member
    exact Take.clear_of_agrees (right admits t member)
  · intro clear admits t member
    rcases covered i member with ⟨c, checked, covers⟩
    have passed := passed_of_admits admits (returns_of_clear (clear admits)) c checked
    exact Take.agrees_of_clear (Take.valid_of_passed covers passed) (clear admits t member)

def big : Memory where
  bytes := 1 :: List.replicate (2 ^ 31 + 65535) 0
  whole := by rw [length_cons, length_replicate]; omega
  bounded := by rw [length_cons, length_replicate]; omega

theorem big_bytes : big.bytes = 1 :: List.replicate (2 ^ 31 + 65535) 0 := rfl

theorem big_size : big.size = 2 ^ 31 + 65536 := by
  rw [Memory.size, big_bytes, length_cons, length_replicate]

theorem big_read : big.read 0x80000000 1 = some [1] := by
  have low : Word.clamp 0x80000000 = 0 := by decide
  have one : Word.clamp 1 = 1 := by decide
  rw [Memory.read, low, one, Memory.readAt, if_pos (by rw [big_size]; omega), Memory.slice,
    big_bytes]
  rfl

theorem big_readAt : big.readAt (2 ^ 31) 1 = some [0] := by
  rw [Memory.readAt, if_pos (by rw [big_size]; omega), Memory.slice, big_bytes]
  have past : (2 : Nat) ^ 31 = 2 ^ 31 - 1 + 1 := by omega
  have one : 2 ^ 31 + 1 - 2 ^ 31 = 1 := by omega
  have rest : 2 ^ 31 + 65535 - (2 ^ 31 - 1) = 65535 + 1 := by omega
  rw [one, past, drop_succ_cons, drop_replicate, ← past, rest, replicate_succ]
  rfl

theorem big_valid : validaddr big (2 ^ 31) 1 = .ok () := by
  rw [validaddr_ok, big_size]
  omega

/-- A byte written from an address past the sign bit is taken from address 0. -/
theorem right_fails : Admits (validargs big (.pwrite 1 0x80000000 1 0)) ∧
    big.read 0x80000000 1 = some [1] ∧ big.readAt (2 ^ 31) 1 = some [0] ∧
      ¬Right big (.pwrite 1 0x80000000 1 0) := by
  have word : (0x80000000 : Word).toNat = 2 ^ 31 := by decide
  have one : (1 : Word).toNat = 1 := by decide
  have admits : Admits (validargs big (.pwrite 1 0x80000000 1 0)) := by
    have passed : Check.answer big (.addr 0x80000000 1) = some (.ok ()) := by
      rw [Check.answer, word, one, big_valid]
    have all : validargs big (.pwrite 1 0x80000000 1 0) = run big [.addr 0x80000000 1] := rfl
    rw [all, run, passed]
    intro e same
    cases same
  refine ⟨admits, big_read, big_readAt, fun right => ?_⟩
  have clear := Take.clear_of_agrees (right admits _ (mem_singleton.2 rfl))
  rcases clear with none_ | low
  · rw [one] at none_
    omega
  · rw [word] at low
    omega

end Ipnx.Pointers
