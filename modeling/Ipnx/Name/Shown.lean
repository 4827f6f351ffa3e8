import Ipnx.Lib.Quoted
import Ipnx.Name.Elements

/-!
# The name an error shows

`nameerror` of `kernel/src/namec.rs`: a name in quotes, an end of it when it is long, and the error,
as much as fits in `ERRMAX`. The end is looked for by bytes, and each place the name is cut at is
where a character begins.
-/

namespace Ipnx.Name

open List
open Errstr (size sliceTo sliceTo_eq_some size_append size_pos prefix_of_size Longest)

/-- The closure `fits`. -/
def fits (err : List Char) (len : Nat) : Bool :=
  len < errmax / 3 || len + size err < 2 * errmax / 3

/-- `rposition` of a slash. -/
def rposition : Bytes → Option Nat
  | [] => none
  | c :: rest =>
      match rposition rest with
      | some i => some (i + 1)
      | none => if c = 47 then some 0 else none

/-- The loop back over slashes, from an index, with no value when it has not ended. -/
def shorten (name err : List Char) : Nat → Nat → Option Nat
  | 0, _ => none
  | fuel + 1, at_ =>
      let next := (rposition ((text name).take at_)).getD 0
      if fits err (size name - next) then shorten name err fuel next else some at_

def isCharBoundary (s : List Char) (n : Nat) : Bool := (sliceTo n s).isSome

/-- The loop up to where a character begins. -/
def chop (name : List Char) : Nat → Nat → Option Nat
  | 0, _ => none
  | fuel + 1, at_ => if isCharBoundary name at_ then some at_ else chop name fuel (at_ + 1)

/-- The loop down to where a character ends. -/
def retreat (e : List Char) : Nat → Nat
  | 0 => 0
  | n + 1 => if isCharBoundary e (n + 1) then n + 1 else retreat e n

/-- `&s[at..]`. -/
def sliceFrom (at_ : Nat) (s : List Char) : Option (List Char) :=
  (sliceTo at_ s).map fun front => s.drop front.length

/-- What of the name is shown, by loops that go round at most so often. -/
def shown (fuel : Nat) (name err : List Char) : Option (List Char) :=
  if fits err (size name) then some name
  else do
    let at_ ← shorten name err fuel (size name)
    let at_ ← if at_ = size name then chop name fuel (size name - errmax / 4) else some at_
    let rest ← sliceFrom at_ name
    return "...".toList ++ rest

def message (shown err : List Char) : List Char := Quoted.quoted '\'' shown ++ ' ' :: err

/-- `nameerror`, with no value where a slice is inside a character or a loop has not ended. -/
def nameerror (fuel : Nat) (name err : String) : Option String := do
  let shown ← shown fuel name.toList err.toList
  let e := message shown err.toList
  let cut ← sliceTo (retreat e (min (size e) (errmax - 1))) e
  return String.ofList cut

/-- The longest end of a name with a property. -/
structure LongestEnd (P : List Char → Prop) (name t : List Char) : Prop where
  isSuffix : t <:+ name
  holds : P t
  longest : ∀ u, u <:+ name → P u → u <:+ t

def Fitting (err t : List Char) : Prop := t.head? = some '/' ∧ fits err (size t)

inductive Shows (name err : List Char) : List Char → Prop
  | whole (room : fits err (size name)) : Shows name err name
  | fitting {t : List Char} (room : ¬fits err (size name))
      (end_ : LongestEnd (Fitting err) name t) :
      Shows name err ("...".toList ++ t)
  | chopped {t : List Char} (room : ¬fits err (size name))
      (none : ∀ u, u <:+ name → ¬Fitting err u)
      (end_ : LongestEnd (fun u => size u ≤ errmax / 4) name t) : Shows name err ("...".toList ++ t)

theorem fits_of_le {err : List Char} {m n : Nat} (le : m ≤ n) (room : fits err n) : fits err m := by
  simp only [fits, Bool.or_eq_true, decide_eq_true_eq] at room ⊢
  omega

theorem rposition_append (a : Bytes) {b : Bytes} {i : Nat} (found : rposition b = some i) :
    rposition (a ++ b) = some (a.length + i) := by
  induction a with
  | nil => simp [found]
  | cons c a ih =>
      simp only [cons_append, rposition, ih, length_cons]
      congr 1
      omega

theorem rposition_none {b : Bytes} (free : 47 ∉ b) : rposition b = none := by
  induction b with
  | nil => rfl
  | cons c b ih =>
      rw [mem_cons, not_or] at free
      simp [rposition, ih free.2, Ne.symm free.1]

theorem rposition_text (cs : List Char) :
    (∃ p q, cs = p ++ '/' :: q ∧ '/' ∉ q ∧ rposition (text cs) = some (size p)) ∨
      ('/' ∉ cs ∧ rposition (text cs) = none) := by
  induction cs with
  | nil => exact .inr ⟨by simp, rfl⟩
  | cons c cs ih =>
      have split : text (c :: cs) = text [c] ++ text cs := text_append [c] cs
      rcases ih with ⟨p, q, rfl, last, found⟩ | ⟨free, absent⟩
      · refine .inl ⟨c :: p, q, rfl, last, ?_⟩
        rw [split, rposition_append _ found, length_text, ← size_append]
        rfl
      · have later : 47 ∉ text cs := fun slash => free (slash_of_text slash)
        by_cases slash : c = '/'
        · refine .inl ⟨[], cs, by rw [slash]; rfl, free, ?_⟩
          have one : text ['/'] = [47] := by decide
          rw [split, slash, one]
          simp [rposition, absent, size]
        · have none : '/' ∉ c :: cs := by simp [Ne.symm slash, free]
          exact .inr ⟨none, rposition_none fun byte => none (slash_of_text byte)⟩

theorem take_text (p t : List Char) : (text (p ++ t)).take (size p) = text p := by
  rw [text_append, ← length_text, take_left]

theorem suffix_of_size {t u name : List Char} (ht : t <:+ name) (hu : u <:+ name)
    (le : size t ≤ size u) : t <:+ u := by
  rcases suffix_or_suffix_of_suffix ht hu with small | ⟨more, rfl⟩
  · exact small
  · cases more with
    | nil => simp
    | cons c more =>
        have past := size_pos c more
        rw [size_append] at le
        omega

theorem size_le_of_suffix {t s : List Char} (back : t <:+ s) : size t ≤ size s := by
  rcases back with ⟨more, rfl⟩
  rw [size_append]
  omega

theorem shorten_stops {name err : List Char} (room : ¬fits err (size name)) {fuel : Nat}
    {p t : List Char} (whole : name = p ++ t) (enough : p.length < fuel)
    (fit : t = [] ∨ Fitting err t) : ∃ p' t', name = p' ++ t' ∧
      shorten name err fuel (size p) = some (size p') ∧ (t' = [] ∨ Fitting err t') ∧
      ∀ u, u <:+ name → Fitting err u → u <:+ t' := by
  induction fuel generalizing p t with
  | zero => omega
  | succ fuel ih =>
      have bytes : (text name).take (size p) = text p := by rw [whole, take_text]
      have total : size name = size p + size t := by rw [whole, size_append]
      have stops (next : Nat) (found : (rposition (text p)).getD 0 = next)
          (tight : ¬fits err (size name - next))
          (past : ∀ r, r <:+ p → r.head? = some '/' → size name - next ≤ size r + size t) :
          ∃ p' t', name = p' ++ t' ∧
            shorten name err (fuel + 1) (size p) = some (size p') ∧ (t' = [] ∨ Fitting err t') ∧
            ∀ u, u <:+ name → Fitting err u → u <:+ t' := by
        refine ⟨p, t, whole, ?_, fit, ?_⟩
        · rw [shorten, bytes, found, if_neg tight]
        · intro u isSuffix fitting
          rcases Nat.le_total (size u) (size t) with le | le
          · exact suffix_of_size isSuffix ⟨p, whole.symm⟩ le
          · rcases suffix_of_size ⟨p, whole.symm⟩ isSuffix le with ⟨r, rfl⟩
            cases r with
            | nil => simp
            | cons c r =>
                have inside : c :: r <:+ p := by
                  rw [whole] at isSuffix
                  exact ((suffix_append_inj_of_length_eq rfl).mp isSuffix).1
                have long := past _ inside (by simpa using fitting.1)
                rw [← size_append] at long
                exact absurd (fits_of_le long fitting.2) tight
      rcases rposition_text p with ⟨q, r, rfl, last, found⟩ | ⟨free, absent⟩
      · by_cases more : fits err (size name - size q)
        · have rest : name = q ++ ('/' :: r ++ t) := by rw [whole]; simp
          have left : size name - size q = size ('/' :: r ++ t) := by
            rw [rest, size_append]
            omega
          have shorter : q.length < fuel := by
            simp only [length_append, length_cons] at enough
            omega
          rcases ih rest shorter (.inr ⟨rfl, left ▸ more⟩) with ⟨p', t', there, stopped, facts⟩
          refine ⟨p', t', there, ?_, facts⟩
          rw [shorten, bytes, found, Option.getD_some, if_pos more, stopped]
        · apply stops (size q) (by rw [found]; rfl) more
          intro u isSuffix slash
          have least : size ('/' :: r) ≤ size u := by
            rcases suffix_or_suffix_of_suffix isSuffix (suffix_append q ('/' :: r)) with
              within | ends
            · rcases suffix_cons_iff.mp within with rfl | within
              · exact le_rfl
              · exact absurd (within.subset (mem_of_head? slash)) last
            · exact size_le_of_suffix ends
          rw [size_append] at total
          omega
      · apply stops 0 (by rw [absent]; rfl) room
        intro r isSuffix slash
        exact absurd (isSuffix.subset (mem_of_head? slash)) free

theorem isCharBoundary_iff {s : List Char} {n : Nat} :
    isCharBoundary s n ↔ ∃ p, p <+: s ∧ size p = n := by
  rw [isCharBoundary, Option.isSome_iff_exists]
  exact exists_congr fun p => sliceTo_eq_some

theorem size_le_of_prefix {p s : List Char} (front : p <+: s) : size p ≤ size s := by
  rcases front with ⟨more, rfl⟩
  rw [size_append]
  omega

theorem length_le_size (s : List Char) : s.length ≤ size s := by
  induction s with
  | nil => exact le_rfl
  | cons c s ih =>
      have one := Char.utf8Size_pos c
      simp only [size, map_cons, sum_cons, length_cons] at ih ⊢
      omega

theorem chop_stops {name : List Char} {fuel at_ : Nat} (inside : at_ ≤ size name)
    (enough : size name - at_ < fuel) : ∃ p, p <+: name ∧ chop name fuel at_ = some (size p) ∧
      at_ ≤ size p ∧ ∀ q, q <+: name → at_ ≤ size q → size p ≤ size q := by
  induction fuel generalizing at_ with
  | zero => omega
  | succ fuel ih =>
      rw [chop]
      split_ifs with boundary
      · rcases isCharBoundary_iff.mp boundary with ⟨p, front, rfl⟩
        exact ⟨p, front, rfl, le_rfl, fun q _ le => le⟩
      · have before {q : List Char} (front : q <+: name) : size q ≠ at_ := fun same =>
          boundary (isCharBoundary_iff.mpr ⟨q, front, same⟩)
        have last := before prefix_rfl
        have inside' : at_ + 1 ≤ size name := by omega
        rcases ih inside' (by omega) with ⟨p, front, stopped, le, least⟩
        refine ⟨p, front, stopped, by omega, fun q there past => ?_⟩
        have other := before there
        exact least q there (by omega)

theorem retreat_stops (e : List Char) (n : Nat) : ∃ p, p <+: e ∧ retreat e n = size p ∧
    size p ≤ n ∧ ∀ q, q <+: e → size q ≤ n → size q ≤ size p := by
  induction n with
  | zero => exact ⟨[], nil_prefix, rfl, le_rfl, fun q _ le => le⟩
  | succ n ih =>
      rw [retreat]
      split_ifs with boundary
      · rcases isCharBoundary_iff.mp boundary with ⟨p, front, long⟩
        exact ⟨p, front, long.symm, long.le, fun q _ le => le.trans long.ge⟩
      · rcases ih with ⟨p, front, stopped, le, most⟩
        refine ⟨p, front, stopped, by omega, fun q there within => ?_⟩
        have other : size q ≠ n + 1 := fun same =>
          boundary (isCharBoundary_iff.mpr ⟨q, there, same⟩)
        exact most q there (by omega)

theorem sliceFrom_append (p t : List Char) : sliceFrom (size p) (p ++ t) = some t := by
  rw [sliceFrom, sliceTo_eq_some.mpr ⟨prefix_append p t, rfl⟩, Option.map_some, drop_left]

theorem longestEnd_of_chop {name p t : List Char} {n : Nat} (whole : name = p ++ t)
    (past : size name - n ≤ size p)
    (least : ∀ q, q <+: name → size name - n ≤ size q → size p ≤ size q) :
    LongestEnd (fun u => size u ≤ n) name t := by
  have total : size name = size p + size t := by rw [whole, size_append]
  refine ⟨⟨p, whole.symm⟩, by omega, ?_⟩
  rintro u ⟨q, rest⟩ small
  have split : size name = size q + size u := by rw [← rest, size_append]
  have later := least q ⟨u, rest⟩ (by omega)
  exact suffix_of_size ⟨q, rest⟩ ⟨p, whole.symm⟩ (by omega)

theorem shown_shows {fuel : Nat} (name err : List Char) (enough : size name < fuel) :
    ∃ s, shown fuel name err = some s ∧ Shows name err s := by
  rw [shown]
  split_ifs with room
  · exact ⟨name, rfl, .whole room⟩
  · have chars : name.length < fuel := (length_le_size name).trans_lt enough
    rcases shorten_stops room (append_nil name).symm chars (.inl rfl) with
      ⟨p, t, whole, stopped, fit, longest⟩
    have total : size name = size p + size t := by rw [whole, size_append]
    rw [stopped, Option.bind_eq_bind, Option.bind_some]
    split_ifs with empty
    · have none : t = [] := by
        cases t with
        | nil => rfl
        | cons c t =>
            have past := size_pos c t
            omega
      have slashless : ∀ u, u <:+ name → ¬Fitting err u := by
        intro u isSuffix fitting
        have ends := longest u isSuffix fitting
        rw [none, suffix_nil] at ends
        rw [ends] at fitting
        cases fitting.1
      have left : size name - (size name - errmax / 4) < fuel := by omega
      rcases chop_stops (Nat.sub_le _ _) left with ⟨q, ⟨u, rest⟩, chopped, past, least⟩
      have cuts : sliceFrom (size q) name = some u := by rw [← rest, sliceFrom_append]
      refine ⟨"...".toList ++ u, ?_, .chopped room slashless ?_⟩
      · simp only [chopped, cuts, Option.bind_eq_bind, Option.bind_some, Option.pure_def]
      · exact longestEnd_of_chop rest.symm past least
    · have fitting : Fitting err t := by
        apply fit.resolve_left
        rintro rfl
        exact empty (by rw [whole, append_nil])
      have cuts : sliceFrom (size p) name = some t := by rw [whole, sliceFrom_append]
      refine ⟨"...".toList ++ t, ?_, .fitting room ⟨⟨p, whole.symm⟩, fitting, longest⟩⟩
      simp only [cuts, Option.bind_eq_bind, Option.bind_some, Option.pure_def]

theorem longest_of_retreat (e : List Char) : ∃ v,
    sliceTo (retreat e (min (size e) (errmax - 1))) e = some v ∧
      Longest (String.ofList e) (String.ofList v) := by
  rcases retreat_stops e (min (size e) (errmax - 1)) with ⟨v, front, stopped, le, most⟩
  refine ⟨v, sliceTo_eq_some.mpr ⟨front, stopped.symm⟩, ?_, ?_, ?_⟩
  · rw [String.toList_ofList, String.toList_ofList]
    exact front
  · rw [String.toList_ofList, errmax]
    rw [errmax] at le
    omega
  · intro q there short
    rw [String.toList_ofList] at there ⊢
    have within := size_le_of_prefix there
    exact prefix_of_size there front (most q there (by omega))

/-- For every name and error, with loops that may go round once more than the name has bytes, or
oftener, `nameerror` has a value: as much as fits of the name it shows and the error. -/
theorem nameerror_fits (name err : String) (more : Nat) : ∃ s v,
    nameerror (size name.toList + 1 + more) name err = some v ∧
      Shows name.toList err.toList s ∧ Longest (String.ofList (message s err.toList)) v := by
  have enough : size name.toList < size name.toList + 1 + more := by omega
  rcases shown_shows name.toList err.toList enough with ⟨s, found, shows_⟩
  rcases longest_of_retreat (message s err.toList) with ⟨v, cut, longest⟩
  refine ⟨s, String.ofList v, ?_, shows_, longest⟩
  simp only [nameerror, found, cut, Option.bind_eq_bind, Option.bind_some, Option.pure_def]

end Ipnx.Name
