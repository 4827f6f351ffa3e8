import Ipnx.Lib.Utf8
import Ipnx.Ninep.Wire

/-!
# The page's texts

`hosts/web/www/emca.mjs`: a word as rc reads it, the directory a path is in, and what the file
does with texts by the language's own words. A place before the first is counted from the end, as
the language has it.
-/

namespace Ipnx.Host.Emca

open List
open Ipnx.Ninep (utf8)

/-- What the language calls white space. -/
def isSpace (c : Char) : Bool :=
  (9 ≤ c.toNat && c.toNat ≤ 13) || c.toNat == 0x20 || c.toNat == 0xA0 || c.toNat == 0x1680 ||
    (0x2000 ≤ c.toNat && c.toNat ≤ 0x200A) || c.toNat == 0x2028 || c.toNat == 0x2029 ||
    c.toNat == 0x202F || c.toNat == 0x205F || c.toNat == 0x3000 || c.toNat == 0xFEFF

/-- What ends a line for a pattern's dot. -/
def isEnd (c : Char) : Bool :=
  c == '\n' || c == '\r' || c.toNat == 0x2028 || c.toNat == 0x2029

def trimStart (cs : List Char) : List Char := cs.dropWhile isSpace

def trim (s : String) : String :=
  .ofList (trimStart (trimStart s.toList).reverse).reverse

def words (s : String) : List String :=
  ((s.toList.splitOnP isSpace).filter (· ≠ [])).map .ofList

def lines (s : String) : List String := (s.toList.splitOn '\n').map .ofList

/-- How long a text is, by the language's count. -/
def length (s : String) : Nat := (s.toList.map fun c => if c.toNat < 0x10000 then 1 else 2).sum

def padStart (n : Nat) (s : String) : String :=
  .ofList (List.replicate (n - s.length) ' ') ++ s

def digits (s : String) : Option Nat :=
  if s.toList = [] ∨ s.toList.any (!·.isDigit) then none
  else some (s.toList.foldl (fun n c => n * 10 + (c.toNat - '0'.toNat)) 0)

def chomp (s : String) : String :=
  if s.toList.getLast? = some '\n' then .ofList s.toList.dropLast else s

/-- What comes before the first place a text is at, and after it. -/
def cutAt (s : List Char) : List Char → Option (List Char × List Char)
  | [] => if s = [] then some ([], []) else none
  | c :: cs =>
      if s <+: c :: cs then some ([], (c :: cs).drop s.length)
      else (cutAt s cs).map fun r => (c :: r.1, r.2)

/-- A replacement's text, with what its dollars stand for. -/
def expand (before found after : List Char) : List Char → List Char
  | '$' :: '$' :: r => '$' :: expand before found after r
  | '$' :: '&' :: r => found ++ expand before found after r
  | '$' :: '\x60' :: r => before ++ expand before found after r
  | '$' :: '\'' :: r => after ++ expand before found after r
  | c :: r => c :: expand before found after r
  | [] => []

/-- The first place a text is at, replaced. -/
def replace (body s r : String) : String :=
  match cutAt s.toList body.toList with
  | none => body
  | some (before, after) => .ofList (before ++ expand before s.toList after r.toList ++ after)

/-- Whether rc reads a character as one of a bare word. -/
def isBare (c : Char) : Bool :=
  (c.isAlphanum && c.toNat < 0x80) || "_-./+,:=@%".toList.contains c

def rcquote (w : String) : String :=
  if w ≠ "" ∧ w.toList.all isBare then w
  else
    "'" ++ .ofList (w.toList.flatMap fun c => if c = '\'' then ['\'', '\''] else [c]) ++ "'"

/-- Whether a path's rest is its last part. -/
def isLast (r : List Char) : Bool :=
  match r.dropWhile (· ≠ '/') with
  | [] => true
  | _ :: more => more.isEmpty

def before : List Char → List Char
  | [] => []
  | c :: r => if c = '/' ∧ isLast r then [] else c :: before r

def dirname (p : String) : String :=
  if p = "/" then "/"
  else
    let d := before p.toList
    if d = [] then "/" else .ofList d

def unslash (p : String) : String :=
  if p.toList.getLast? = some '/' then .ofList p.toList.dropLast else p

theorem utf8_eq_encode (t : String) : utf8 t = Utf8.encode t := by
  rw [utf8, ← String.utf8Encode_toList, List.utf8Encode, data_toByteArray, Utf8.encode]

theorem utf8_append (s t : String) : utf8 (s ++ t) = utf8 s ++ utf8 t := by
  rw [utf8_eq_encode, utf8_eq_encode, utf8_eq_encode, Utf8.encode, String.toList_append,
    flatMap_append]
  rfl

/-- Bytes put into bytes at a place, with zeros up to it. -/
def splice (b : List UInt8) (off : Nat) (data : List UInt8) : List UInt8 :=
  let out := b ++ List.replicate (off + data.length - b.length) 0
  out.take off ++ data ++ out.drop (off + data.length)

/-- A place in `n` places; one before the first is counted from the end. -/
def relative (n : Nat) (i : Int) : Nat := if i < 0 then (n + i).toNat else min i.toNat n

section

variable {α : Type} [DecidableEq α]

/-- The first place an element is at; `-1` is none. -/
def indexOf (cs : List α) (a : α) : Int :=
  match cs.idxOf? a with
  | some i => i
  | none => -1

def element (cs : List α) (i : Int) : Option α := if i < 0 then none else cs[i.toNat]?

def cutOne (cs : List α) (i : Int) : List α := cs.eraseIdx (relative cs.length i)

def putOne (cs : List α) (i : Int) (a : α) : List α :=
  cs.take (relative cs.length i) ++ a :: cs.drop (relative cs.length i)

variable {cs : List α} {a : α}

omit [DecidableEq α] in
theorem perm_putOne (cs : List α) (i : Int) (a : α) : (putOne cs i a).Perm (a :: cs) := by
  apply perm_middle.trans
  rw [take_append_drop]

theorem indexOf_of_mem (member : a ∈ cs) : indexOf cs a = cs.idxOf a := by
  rcases some : cs.idxOf? a with _ | i
  · exact absurd member (List.idxOf?_eq_none_iff.1 some)
  · rw [indexOf, idxOf_eq_getD_idxOf?, some]
    rfl

theorem perm_cutOne (member : a ∈ cs) : cs.Perm (a :: cutOne cs (indexOf cs a)) := by
  have inside := idxOf_lt_length_of_mem member
  have place : relative cs.length (cs.idxOf a) = cs.idxOf a := by
    rw [relative, if_neg (by omega)]
    omega
  rw [indexOf_of_mem member, cutOne, place, eraseIdx_idxOf_eq_erase]
  exact perm_cons_erase member

omit [DecidableEq α] in
theorem element_mem {i : Int} (there : element cs i = some a) : a ∈ cs := by
  rw [element] at there
  split_ifs at there
  exact mem_of_getElem? there

omit [DecidableEq α] in
theorem element_some {i : Int} (some : cs ≠ []) (early : 0 ≤ i) :
    ∃ b, element cs (min i ((cs.length : Int) - 1)) = .some b := by
  have positive := length_pos_iff.2 some
  rw [element, if_neg (by omega)]
  have inside : (min i ((cs.length : Int) - 1)).toNat < cs.length := by omega
  exact ⟨_, List.getElem?_eq_getElem inside⟩

end

end Ipnx.Host.Emca
