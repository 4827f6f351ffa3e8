import Ipnx.Lib.Utf8
import Ipnx.Lib.Window
import Ipnx.Name.Start
import Ipnx.Ninep.Entry

/-!
# A directory read through a mount

What `devmnt.rs` does with the bytes a server gives for a directory: each entry is checked by
`validstat` of `namec.rs`, and the type and the device in it are made the kernel's. Where the next
entry starts is told by the one before it.
-/

namespace Ipnx.Dirread

open List
open Ninep
open Name (validname)

def ebadstat : String := "malformed stat buffer"
def ebadentry : String := "invalid directory entry received from server"

/-- A buffer that is one entry, and has a name. One that is too long is the server's to refuse. -/
def validstat (s : Bytes) : Except String Unit :=
  if statcheck s then
    let at_ := statfixlen - 4 * 2
    let m := countAt s at_
    if 64 < m + 1 then .ok ()
    else
      let name := Utf8.lossy (((s.drop (at_ + 2)).take m).takeWhile (· ≠ 0))
      if name = "/" then .ok () else validname name false
  else .error ebadstat

def letter : UInt16 := UInt16.ofNat (Name.DevId.letter .mnt).toNat

/-- The type is the mount driver's, and the device is the mount. -/
def dirfix (d : Bytes) (devno : UInt32) : Bytes :=
  if 8 ≤ d.length then
    overwrite (overwrite d 2 (leBytes 2 letter.toNat)) 4 (leBytes 4 devno.toNat)
  else d

theorem length_dirfix (d : Bytes) (devno : UInt32) : (dirfix d devno).length = d.length := by
  rw [dirfix]
  split_ifs with long
  · simp only [overwrite, length_append, length_take, length_drop, leBytes_length]
    omega
  · rfl

/-- The entries from `p` on, each rewritten where it is. -/
def dirread (devno : UInt32) (buf : Bytes) (p : Nat) : Except String Bytes :=
  let len := 2 + countAt buf p
  if p + 2 < buf.length ∧ p + len ≤ buf.length then
    match validstat ((buf.drop p).take len) with
    | .error e => .error e
    | .ok () => dirread devno (overwrite buf p (dirfix ((buf.drop p).take len) devno)) (p + len)
  else if p ≠ buf.length then .error ebadentry
  else .ok buf
termination_by buf.length - p
decreasing_by
  simp only [overwrite, length_append, length_take, length_drop, length_dirfix]
  omega

def fix (devno : UInt32) (d : Dir) : Dir := { d with dtype := letter, dev := devno }

structure Fixed (devno : UInt32) (e e' : Bytes) : Prop where
  bytes : e' = e.take 2 ++ leBytes 2 letter.toNat ++ leBytes 4 devno.toNat ++ e.drop 8
  valid : validstat e' = validstat e
  reads : Dir.convM2D e' = (Dir.convM2D e).map (fix devno)

/-- The server's bytes are entries, one after another, that each pass. -/
def Entries (buf : Bytes) (es : List Bytes) : Prop :=
  buf = es.flatten ∧ ∀ e ∈ es, validstat e = .ok ()

variable {devno : UInt32} {e : Bytes}

theorem statcheck_spec (checked : statcheck e = true) :
    statfixlen ≤ e.length ∧ e.length = 2 + countAt e 0 := by
  rw [statcheck] at checked
  split_ifs at checked with short
  rw [not_or] at short
  exact ⟨by omega, by omega⟩

theorem statcheck_of_valid (valid : validstat e = .ok ()) : statcheck e = true := by
  rw [validstat] at valid
  split_ifs at valid with checked
  all_goals exact checked

section Long

variable (long : 8 ≤ e.length)

include long

theorem dirfix_eq : dirfix e devno =
    e.take 2 ++ leBytes 2 letter.toNat ++ leBytes 4 devno.toNat ++ e.drop 8 := by
  rw [dirfix, if_pos long]
  simp only [overwrite, leBytes_length]
  have front : (e.take 2 ++ leBytes 2 letter.toNat).length = 4 := by
    rw [length_append, length_take, leBytes_length]
    omega
  rw [take_left' front, drop_append, drop_eq_nil_of_le, drop_drop, front]
  · simp
  · omega

theorem drop_dirfix {i : Nat} (past : 8 ≤ i) : (dirfix e devno).drop i = e.drop i := by
  have front : (e.take 2 ++ leBytes 2 letter.toNat ++ leBytes 4 devno.toNat).length = 8 := by
    simp only [length_append, length_take, leBytes_length]
    omega
  have split_ : i = 8 + (i - 8) := by omega
  rw [dirfix_eq long, split_, ← drop_drop, drop_left' front, drop_drop]

theorem countAt_dirfix {i : Nat} (past : 8 ≤ i) : countAt (dirfix e devno) i = countAt e i := by
  rw [countAt, countAt, drop_dirfix long past]

theorem size_dirfix : countAt (dirfix e devno) 0 = countAt e 0 := by
  have two : (e.take 2).length = 2 := by
    rw [length_take]
    omega
  rw [countAt, countAt, drop_zero, drop_zero, dirfix_eq long, append_assoc,
    append_assoc, take_left' two]

theorem skips_dirfix (k : Nat) {i : Nat} (past : 8 ≤ i) :
    skips (dirfix e devno) k i = skips e k i := by
  induction k generalizing i with
  | zero => rfl
  | succ k ih =>
      rw [skips, skips, length_dirfix, countAt_dirfix long past]
      split_ifs
      · rfl
      · apply ih
        omega

theorem statcheck_dirfix : statcheck (dirfix e devno) = statcheck e := by
  rw [statcheck, statcheck, length_dirfix, size_dirfix long, skips_dirfix long 4 (by decide)]

theorem validstat_dirfix : validstat (dirfix e devno) = validstat e := by
  have names : 8 ≤ statfixlen - 4 * 2 := by decide
  simp only [validstat]
  rw [statcheck_dirfix long, countAt_dirfix long names, drop_dirfix long (by omega)]

end Long

def after (d : Dir) : Bytes :=
  (Wire.qid.pair (Codec.u32.pair (Codec.u32.pair (Codec.u32.pair Codec.u64)))).write
    (d.qid, d.mode, d.atime, d.mtime, d.length) ++ Wire.four.write (d.name, d.uid, d.gid, d.muid)

theorem body_eq (d : Dir) :
    d.body = leBytes 2 d.dtype.toNat ++ (leBytes 4 d.dev.toNat ++ after d) := by
  rw [← Wire.dir_write]
  simp [Wire.dir, Wire.fixed, after, Codec.pair, Codec.map, Codec.u16, Codec.u32, Codec.le]

theorem append_prefix_append {a b x y : Bytes} (same : a.length = b.length) :
    a ++ x <+: b ++ y ↔ a = b ∧ x <+: y := by
  constructor
  · rintro ⟨more, whole⟩
    rw [append_assoc] at whole
    rcases append_inj whole same with ⟨rfl, rest⟩
    exact ⟨rfl, more, rest⟩
  · rintro ⟨rfl, front⟩
    exact (prefix_append_right_inj a).2 front

theorem body_prefix {d : Dir} {t v r : Bytes} (two : t.length = 2) (four : v.length = 4) :
    d.body <+: t ++ (v ++ r) ↔
      leBytes 2 d.dtype.toNat = t ∧ leBytes 4 d.dev.toNat = v ∧ after d <+: r := by
  rw [body_eq, append_prefix_append, append_prefix_append]
  · rw [leBytes_length, four]
  · rw [leBytes_length, two]

theorem leBytes_u16 {a b : UInt16} (same : leBytes 2 a.toNat = leBytes 2 b.toNat) : a = b := by
  have number := congrArg ofLe same
  rw [ofLe_leBytes a.toNat_lt, ofLe_leBytes b.toNat_lt] at number
  exact UInt16.toNat.inj number

theorem leBytes_u32 {a b : UInt32} (same : leBytes 4 a.toNat = leBytes 4 b.toNat) : a = b := by
  have number := congrArg ofLe same
  rw [ofLe_leBytes a.toNat_lt, ofLe_leBytes b.toNat_lt] at number
  exact UInt32.toNat.inj number

theorem exists_u16 {t : Bytes} (two : t.length = 2) : ∃ v : UInt16, leBytes 2 v.toNat = t := by
  have low := ofLe_lt t
  rw [two] at low
  refine ⟨UInt16.ofNat (ofLe t), ?_⟩
  rw [UInt16.toNat_ofNat_of_lt' low, ← two]
  exact leBytes_ofLe t

theorem exists_u32 {t : Bytes} (four : t.length = 4) : ∃ v : UInt32, leBytes 4 v.toNat = t := by
  have low := ofLe_lt t
  rw [four] at low
  refine ⟨UInt32.ofNat (ofLe t), ?_⟩
  rw [UInt32.toNat_ofNat_of_lt' low, ← four]
  exact leBytes_ofLe t

theorem convM2D_dirfix (long : 8 ≤ e.length) :
    Dir.convM2D (dirfix e devno) = (Dir.convM2D e).map (fix devno) := by
  have two : ((e.drop 2).take 2).length = 2 := by
    rw [length_take, length_drop]
    omega
  have four : ((e.drop 4).take 4).length = 4 := by
    rw [length_take, length_drop]
    omega
  have later : e.drop 4 = (e.drop 4).take 4 ++ e.drop 8 := by
    have parts := take_append_drop 4 (e.drop 4)
    rw [drop_drop] at parts
    exact parts.symm
  have was : e.drop 2 = (e.drop 2).take 2 ++ ((e.drop 4).take 4 ++ e.drop 8) := by
    have parts := take_append_drop 2 (e.drop 2)
    rw [drop_drop] at parts
    rw [← later]
    exact parts.symm
  have front : (e.take 2).length = 2 := by
    rw [length_take]
    omega
  have is : (dirfix e devno).drop 2 =
      leBytes 2 letter.toNat ++ (leBytes 4 devno.toNat ++ e.drop 8) := by
    rw [dirfix_eq long, append_assoc, append_assoc, drop_left' front]
  apply Option.ext
  intro d
  rw [convM2D_eq_some, length_dirfix, size_dirfix long, is,
    body_prefix (leBytes_length ..) (leBytes_length ..), Option.map_eq_some_iff]
  constructor
  · rintro ⟨whole, enough, short, type, dev, rest⟩
    rcases exists_u16 two with ⟨dtype, was16⟩
    rcases exists_u32 four with ⟨dev', was32⟩
    refine ⟨{ d with dtype := dtype, dev := dev' }, ?_, ?_⟩
    · rw [convM2D_eq_some, was, body_prefix two four]
      exact ⟨whole, enough, short, was16, was32, rest⟩
    · rw [fix, ← leBytes_u16 type, ← leBytes_u32 dev]
  · rintro ⟨d, read, rfl⟩
    rw [convM2D_eq_some, was, body_prefix two four] at read
    rcases read with ⟨whole, enough, short, _, _, rest⟩
    exact ⟨whole, enough, short, rfl, rfl, rest⟩

theorem fixed_dirfix (valid : validstat e = .ok ()) : Fixed devno e (dirfix e devno) := by
  have long : 8 ≤ e.length := by
    have spec := statcheck_spec (statcheck_of_valid valid)
    rw [statfixlen] at spec
    omega
  exact ⟨dirfix_eq long, validstat_dirfix long, convM2D_dirfix long⟩

theorem countAt_middle (done rest : Bytes) : countAt (done ++ rest) done.length =
    countAt rest 0 := by
  rw [countAt, countAt, drop_left, drop_zero]

theorem length_of_valid (valid : validstat e = .ok ()) :
    statfixlen ≤ e.length ∧ e.length = 2 + countAt e 0 :=
  statcheck_spec (statcheck_of_valid valid)

theorem Entries.front {rest : Bytes} {es : List Bytes} (whole : Entries rest es)
    (more : rest ≠ []) :
    ∃ es', es = Dir.entry rest :: es' ∧ validstat (Dir.entry rest) = .ok () ∧
      statfixlen ≤ 2 + countAt rest 0 ∧ 2 + countAt rest 0 ≤ rest.length ∧
        Entries (rest.drop (2 + countAt rest 0)) es' := by
  rcases whole with ⟨rfl, valid⟩
  cases es with
  | nil => exact absurd rfl more
  | cons e es =>
      have here := valid e (mem_cons_self ..)
      have long := length_of_valid here
      have two : 0 + 2 ≤ e.length := by omega
      have size : e.length = 2 + countAt (e ++ es.flatten) 0 := by
        rw [countAt_longer two]
        exact long.2
      rw [flatten_cons, Dir.entry, ← size, take_left, drop_left]
      refine ⟨es, rfl, here, long.1, ?_, rfl, ?_⟩
      · rw [length_append]
        omega
      · exact fun e' mem => valid e' (mem_cons_of_mem e mem)

theorem Entries.cons {rest : Bytes} {es : List Bytes} (valid : validstat (Dir.entry rest) = .ok ())
    (whole : Entries (rest.drop (2 + countAt rest 0)) es) :
    Entries rest (Dir.entry rest :: es) := by
  constructor
  · rw [flatten_cons, ← whole.1, Dir.entry, take_append_drop]
  · intro e mem
    rcases mem_cons.1 mem with rfl | mem
    · exact valid
    · exact whole.2 e mem

theorem Entries.nil {es : List Bytes} (whole : Entries [] es) : es = [] := by
  cases es with
  | nil => rfl
  | cons e es =>
      have long := length_of_valid (whole.2 e (mem_cons_self ..))
      have none_ := congrArg List.length whole.1
      rw [flatten_cons, length_append, length_nil] at none_
      rw [statfixlen] at long
      omega

theorem overwrite_rest (done rest e' : Bytes) :
    overwrite (done ++ rest) done.length e' = (done ++ e') ++ rest.drop e'.length := by
  have past : done.drop (done.length + e'.length) = [] := drop_eq_nil_of_le (by omega)
  rw [overwrite, take_left, drop_append, past, Nat.add_sub_cancel_left, nil_append]

/-- What is at the front is passed on as it is, and the rest is entries that each pass. -/
theorem dirread_iff (devno : UInt32) (done rest out : Bytes) :
    dirread devno (done ++ rest) done.length = .ok out ↔
      ∃ es, Entries rest es ∧ out = done ++ (es.map (dirfix · devno)).flatten := by
  induction size : rest.length using Nat.strongRecOn generalizing done rest with
  | ind n ih =>
      rw [dirread]
      simp only [countAt_middle, drop_left, length_append]
      split_ifs with more ended
      · have some_ : rest ≠ [] := ne_nil_of_length_pos (by omega)
        have whole : 2 + countAt rest 0 ≤ rest.length := by omega
        have length : (dirfix (Dir.entry rest) devno).length = 2 + countAt rest 0 := by
          rw [length_dirfix, entry_length whole]
        cases valid : validstat (Dir.entry rest) with
        | error err =>
            change validstat (rest.take (2 + countAt rest 0)) = .error err at valid
            rw [valid]
            constructor
            · rintro ⟨⟩
            · rintro ⟨es, entries, _⟩
              rcases entries.front some_ with ⟨_, _, passed, _⟩
              rw [Dir.entry, valid] at passed
              cases passed
        | ok u =>
            have over_ := overwrite_rest done rest (dirfix (Dir.entry rest) devno)
            have next := ih (rest.drop (2 + countAt rest 0)).length
              (by rw [length_drop]; omega)
              (done ++ dirfix (Dir.entry rest) devno) (rest.drop (2 + countAt rest 0)) rfl
            rw [length] at over_
            rw [length_append, length] at next
            change validstat (rest.take (2 + countAt rest 0)) = .ok u at valid
            rw [valid]
            change dirread devno (overwrite (done ++ rest) done.length
                (dirfix (Dir.entry rest) devno))
              (done.length + (2 + countAt rest 0)) = .ok out ↔ _
            rw [over_, next]
            constructor
            · rintro ⟨es, entries, rfl⟩
              refine ⟨Dir.entry rest :: es, entries.cons valid, ?_⟩
              rw [map_cons, flatten_cons, append_assoc]
            · rintro ⟨es, entries, rfl⟩
              rcases entries.front some_ with ⟨es', rfl, _, _, _, others⟩
              refine ⟨es', others, ?_⟩
              rw [map_cons, flatten_cons, append_assoc]
      · constructor
        · rintro ⟨⟩
        · rintro ⟨es, whole, _⟩
          have some_ : rest ≠ [] := by
            rintro rfl
            exact ended rfl
          rcases whole.front some_ with ⟨_, _, _, long, inside, _⟩
          rw [statfixlen] at long
          omega
      · have none_ : rest = [] := eq_nil_of_length_eq_zero (by omega)
        subst none_
        rw [append_nil, Except.ok.injEq]
        constructor
        · rintro rfl
          refine ⟨[], ⟨rfl, fun _ none_ => absurd none_ not_mem_nil⟩, ?_⟩
          simp
        · rintro ⟨es, whole, rfl⟩
          rw [whole.nil]
          simp

theorem parseAll_cons (checked : statcheck e = true) (rest : Bytes) :
    Dir.parseAll (e ++ rest) = ((Dir.convM2D e).map (· :: Dir.parseAll rest)).getD [] := by
  have long := statcheck_spec checked
  rw [statfixlen] at long
  have two : 0 + 2 ≤ e.length := by omega
  have size : countAt (e ++ rest) 0 = countAt e 0 := countAt_longer two rest
  have own := (Dir.own_of_statcheck checked).1 (e ++ rest)
  rw [Dir.entry, ← long.2, take_left, take_length] at own
  have more : ¬(e ++ rest).length < 2 := by
    rw [length_append]
    omega
  rw [Dir.parseAll, dif_neg more, own rfl, size, ← long.2, drop_left]
  cases Dir.convM2D e <;> rfl

theorem parseAll_fixed {es es' : List Bytes} (valid : ∀ e ∈ es, validstat e = .ok ())
    (fixed : List.Forall₂ (Fixed devno) es es') :
    Dir.parseAll es'.flatten = (Dir.parseAll es.flatten).map (fix devno) := by
  induction fixed with
  | nil =>
      rw [flatten_nil, Dir.parseAll]
      rfl
  | @cons e e' es es' here others ih =>
      have passed := valid e (mem_cons_self ..)
      have rest := ih fun e mem => valid e (mem_cons_of_mem _ mem)
      rw [flatten_cons, flatten_cons, parseAll_cons (statcheck_of_valid passed),
        parseAll_cons (statcheck_of_valid (here.valid.trans passed)), here.reads, rest]
      cases Dir.convM2D e <;> rfl

theorem fixed_map {es : List Bytes} (valid : ∀ e ∈ es, validstat e = .ok ()) :
    List.Forall₂ (Fixed devno) es (es.map (dirfix · devno)) := by
  rw [forall₂_map_right_iff, forall₂_same]
  exact fun e mem => fixed_dirfix (valid e mem)

theorem eq_map_of_fixed {es es' : List Bytes} (valid : ∀ e ∈ es, validstat e = .ok ())
    (fixed : List.Forall₂ (Fixed devno) es es') : es' = es.map (dirfix · devno) := by
  induction fixed with
  | nil => rfl
  | @cons e e' es es' here others ih =>
      have rest := ih fun e mem => valid e (mem_cons_of_mem _ mem)
      have same : Fixed devno e (dirfix e devno) := fixed_dirfix (valid e (mem_cons_self ..))
      rw [map_cons, ← rest, here.bytes, same.bytes]

/-- The driver takes what a server gives just when it is entries that pass, and passes on the same
entries, in their order, with the mount's type and device. -/
theorem dirread_exact (devno : UInt32) (buf : Bytes) :
    ((∃ out, dirread devno buf 0 = .ok out) ↔ ∃ es, Entries buf es) ∧
      ∀ out, dirread devno buf 0 = .ok out ↔
        ∃ es es', Entries buf es ∧ List.Forall₂ (Fixed devno) es es' ∧ out = es'.flatten ∧
          Dir.parseAll out = (Dir.parseAll buf).map (fix devno) := by
  have reads := fun out => dirread_iff devno [] buf out
  simp only [nil_append, length_nil] at reads
  constructor
  · constructor
    · rintro ⟨out, read⟩
      rcases (reads out).1 read with ⟨es, entries, _⟩
      exact ⟨es, entries⟩
    · rintro ⟨es, entries⟩
      exact ⟨_, (reads _).2 ⟨es, entries, rfl⟩⟩
  · intro out
    rw [reads]
    constructor
    · rintro ⟨es, entries, rfl⟩
      have fixed : List.Forall₂ (Fixed devno) es (es.map (dirfix · devno)) := fixed_map entries.2
      refine ⟨es, _, entries, fixed, rfl, ?_⟩
      rw [parseAll_fixed entries.2 fixed, ← entries.1]
    · rintro ⟨es, es', entries, fixed, rfl, _⟩
      refine ⟨es, entries, ?_⟩
      rw [eq_map_of_fixed entries.2 fixed]

end Ipnx.Dirread
