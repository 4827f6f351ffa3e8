import Ipnx.Ninep.Wire
import Ipnx.Proc.Table

/-!
# Error strings

`seterrstr` and `errstr` of `kernel/src/proc.rs`, which cut what they are given to `ERRMAX`, and
`rerror` of `devmnt.rs`, whose text is a server's. A string is cut at a byte, and there is nothing
to cut it to inside a character: the kernel stops.
-/

namespace Ipnx.Errstr

open List
open Ipnx.Ninep
open Function (update update_self)

def size (cs : List Char) : Nat := (cs.map Char.utf8Size).sum

/-- `&s[..n]`, with no value past the end of the string or inside a character of it. -/
def sliceTo : Nat → List Char → Option (List Char)
  | 0, _ => some []
  | _ + 1, [] => none
  | n + 1, c :: cs =>
      if c.utf8Size ≤ n + 1 then (sliceTo (n + 1 - c.utf8Size) cs).map (c :: ·) else none

def cut (e : String) : Option String :=
  (sliceTo (min (size e.toList) (errmax - 1)) e.toList).map String.ofList

/-- `up->errstr` of each process. -/
abbrev Tab := Pid → Option String

def seterrstr (t : Tab) (pid : Pid) (e : String) : Option Tab :=
  match t pid with
  | some _ => (cut e).map fun kept => update t pid (some kept)
  | none => some t

def errstr (t : Tab) (pid : Pid) (new : String) : Option (String × Tab) :=
  (cut new).map fun kept =>
    match t pid with
    | some old => (old, update t pid (some kept))
    | none => ("", t)

def rerror (body : Bytes) : Option String := (R.s.on body).1

/-- The longest of a string that takes fewer than `ERRMAX` bytes. -/
structure Longest (e v : String) : Prop where
  isPrefix : v.toList <+: e.toList
  short : size v.toList < errmax
  longest : ∀ p, p <+: e.toList → size p < errmax → p <+: v.toList

/-- The string is set, by a failed call or by the process, and read back. -/
def ReadBack (t : Tab) (pid : Pid) (e : String) : Prop :=
  (∃ t₁ t₂ v, seterrstr t pid e = some t₁ ∧ errstr t₁ pid "" = some (v, t₂) ∧ Longest e v) ∧
    ∃ old t₁ t₂ v, errstr t pid e = some (old, t₁) ∧ errstr t₁ pid "" = some (v, t₂) ∧ Longest e v

def Boundary (e : String) (n : Nat) : Prop := ∃ p, p <+: e.toList ∧ size p = n

theorem size_append (p q : List Char) : size (p ++ q) = size p + size q := by
  simp [size]

theorem size_pos (c : Char) (cs : List Char) : 0 < size (c :: cs) := by
  have first := Char.utf8Size_pos c
  simp only [size, map_cons, sum_cons]
  omega

theorem sliceTo_eq_some {n : Nat} {cs p : List Char} :
    sliceTo n cs = some p ↔ p <+: cs ∧ size p = n := by
  induction cs generalizing n p with
  | nil =>
      cases n with
      | zero =>
          constructor
          · rintro ⟨⟩
            exact ⟨ nil_prefix, rfl⟩
          · rintro ⟨isPrefix, _⟩
            rw [prefix_nil.1 isPrefix]
            rfl
      | succ n =>
          constructor
          · rintro ⟨⟩
          · rintro ⟨isPrefix, long⟩
            rw [prefix_nil.1 isPrefix] at long
            cases long
  | cons c cs ih =>
      have first := Char.utf8Size_pos c
      cases n with
      | zero =>
          constructor
          · rintro ⟨⟩
            exact ⟨ nil_prefix, rfl⟩
          · rintro ⟨_, empty⟩
            cases p with
            | nil => rfl
            | cons d ds => exact absurd empty (Nat.ne_of_gt (size_pos d ds))
      | succ n =>
          rw [sliceTo]
          constructor
          · intro cuts
            split_ifs at cuts with fits
            rcases Option.map_eq_some_iff.1 cuts with ⟨q, rest, rfl⟩
            rcases ih.1 rest with ⟨isPrefix, long⟩
            refine ⟨cons_prefix_cons.2 ⟨rfl, isPrefix⟩, ?_⟩
            have whole : size (c :: q) = c.utf8Size + size q := by simp [size]
            omega
          · rintro ⟨isPrefix, long⟩
            cases p with
            | nil => cases long
            | cons d ds =>
                rcases cons_prefix_cons.1 isPrefix with ⟨rfl, front⟩
                have whole : size (d :: ds) = d.utf8Size + size ds := by simp [size]
                have fits : d.utf8Size ≤ n + 1 := by omega
                have rest : sliceTo (n + 1 - d.utf8Size) cs = some ds :=
                  ih.2 ⟨front, by omega⟩
                rw [if_pos fits, rest]
                rfl

theorem prefix_of_size {p q cs : List Char} (hp : p <+: cs) (hq : q <+: cs)
    (le : size p ≤ size q) : p <+: q := by
  rcases prefix_or_prefix_of_prefix hp hq with front | ⟨more, rfl⟩
  · exact front
  · cases more with
    | nil => simp
    | cons c more =>
        have past := size_pos c more
        rw [size_append] at le
        omega

theorem longest_of_cut {e v : String} (kept : cut e = some v) : Longest e v := by
  rcases Option.map_eq_some_iff.1 kept with ⟨p, sliced, rfl⟩
  rcases sliceTo_eq_some.1 sliced with ⟨isPrefix, long⟩
  have chars : (String.ofList p).toList = p := String.toList_ofList
  constructor
  · rw [chars]
    exact isPrefix
  · rw [chars, long, errmax]
    omega
  · intro q front short
    rw [chars]
    apply prefix_of_size front isPrefix
    have most : size q ≤ size e.toList := by
      rcases front with ⟨more, whole⟩
      rw [← whole, size_append]
      omega
    rw [long]
    omega

theorem cut_isSome (e : String) :
    (cut e).isSome ↔ size e.toList < errmax ∨ Boundary e (errmax - 1) := by
  have cuts : (cut e).isSome ↔ ∃ p, p <+: e.toList ∧ size p = min (size e.toList) (errmax - 1) := by
    rw [cut, Option.isSome_map, Option.isSome_iff_exists]
    exact exists_congr fun p => sliceTo_eq_some
  rw [cuts]
  constructor
  · rintro ⟨p, isPrefix, long⟩
    rcases Nat.lt_or_ge (size e.toList) errmax with short | over_
    · exact .inl short
    · refine .inr ⟨p, isPrefix, ?_⟩
      omega
  · rintro (short | ⟨p, isPrefix, long⟩)
    · exact ⟨e.toList, prefix_rfl, by omega⟩
    · refine ⟨p, isPrefix, ?_⟩
      have most : size p ≤ size e.toList := by
        rcases isPrefix with ⟨more, whole⟩
        rw [← whole, size_append]
        omega
      omega

/-- An error string is read back cut to the longest that fits just when it is short enough, or a
character ends at the bound. -/
theorem readBack_iff (t : Tab) (pid : Pid) (e old : String) (there : t pid = some old) :
    ReadBack t pid e ↔ size e.toList < errmax ∨ Boundary e (errmax - 1) := by
  rw [← cut_isSome]
  constructor
  · rintro ⟨⟨t₁, t₂, v, stored, _⟩, _⟩
    rw [seterrstr, there] at stored
    rcases Option.map_eq_some_iff.1 stored with ⟨kept, is, _⟩
    rw [is]
    rfl
  · intro cuts
    rcases Option.isSome_iff_exists.1 cuts with ⟨v, kept⟩
    have empty : cut "" = some "" := rfl
    have reads : errstr (update t pid (some v)) pid "" =
        some (v, update (update t pid (some v)) pid (some "")) := by
      rw [errstr, empty, update_self]
      rfl
    constructor
    · refine ⟨update t pid (some v), _, v, ?_, reads, longest_of_cut kept⟩
      rw [seterrstr, there, kept]
      rfl
    · refine ⟨old, update t pid (some v), _, v, ?_, reads, longest_of_cut kept⟩
      rw [errstr, there, kept]
      rfl

theorem readBack_iff_short :
    (fun pid : Pid => if pid = 1 then some "" else none) 1 = some "" ∧
      (ReadBack (fun pid => if pid = 1 then some "" else none) 1 "file does not exist" ↔
        size "file does not exist".toList < errmax ∨
          Boundary "file does not exist" (errmax - 1)) :=
  ⟨rfl, readBack_iff (fun pid => if pid = 1 then some "" else none) 1 "file does not exist" "" rfl⟩

def across : String := String.ofList (List.replicate 126 'a' ++ ['é'])

/-- The sentence comes in an `Rerror`, and the kernel does not live to keep it. -/
theorem readBack_fails :
    rerror (W.new.s across).body = some across ∧
      ¬ ReadBack (fun pid => if pid = 1 then some "" else none) 1 across := by
  constructor
  · decide +kernel
  · rintro ⟨⟨t₁, t₂, v, stored, _⟩, _⟩
    have stops : cut across = none := by decide +kernel
    simp [seterrstr, stops] at stored

end Ipnx.Errstr
