import Ipnx.Lib.Utf8
import Ipnx.Proc.Errstr

/-!
# The elements of a name

`parsename` of `kernel/src/namec.rs` goes over the bytes of a name, past slashes and dots, and
records where each element begins and ends. The elements are what is between the slashes but for
what is empty or a dot, and each record is where such an element is in the characters of the name.
-/

namespace Ipnx.Name

open List
open Errstr (size sliceTo sliceTo_eq_some size_append)

abbrev Bytes := List UInt8

/-- `skipslash`: the bytes from an index on, and the index, past slashes and dots. -/
def skipslash : Bytes → Nat → Bytes × Nat
  | [], i => ([], i)
  | c :: rest, i =>
      if c = 47 ∨ c = 46 ∧ (rest = [] ∨ rest.head? = some 47) then skipslash rest (i + 1)
      else (c :: rest, i)

theorem skipslash_shorter (b : Bytes) (i : Nat) : (skipslash b i).1.length ≤ b.length ∧
    (skipslash b i).1.head? ≠ some 47 := by
  fun_induction skipslash b i with
  | case1 => simp
  | case2 i c rest skipped ih => exact ⟨Nat.le_succ_of_le ih.1, ih.2⟩
  | case3 i c rest stays =>
      refine ⟨le_rfl, ?_⟩
      simp only [List.head?_cons, ne_eq, Option.some_inj]
      exact fun slash => stays (.inl slash)

/-- The loop, with the bytes from an index on. -/
def scan (b : Bytes) (i : Nat) : List (Nat × Nat) × Bool :=
  let s := skipslash b i
  let fin := s.2 + (s.1.takeWhile (· ≠ 47)).length
  if _some : s.1 = [] then ([], true)
  else if s.1.dropWhile (· ≠ 47) = [] then ([(s.2, fin)], false)
  else
    let r := scan (s.1.dropWhile (· ≠ 47)) fin
    ((s.2, fin) :: r.1, r.2)
termination_by b.length
decreasing_by
  have short := skipslash_shorter b i
  rcases kept : (skipslash b i).1 with _ | ⟨c, rest⟩
  · exact absurd kept _some
  · rw [kept] at short
    have other : c ≠ 47 := by simpa using short.2
    have dropped := (dropWhile_suffix (l := rest) fun c => decide (c ≠ 47)).length_le
    rw [dropWhile_cons_of_pos (by simpa using other)]
    exact Nat.lt_of_le_of_lt dropped (Nat.lt_of_lt_of_le (Nat.lt_succ_self _) short.1)

/-- `parsename` of a name after its first bytes. -/
def parsename (aname : Bytes) (front : Nat) : List (Nat × Nat) × Bool :=
  scan (aname.drop front) front

def text (cs : List Char) : Bytes := cs.flatMap String.utf8EncodeChar

/-- `&s[i..e]`, with no value where either is inside a character or past the end. -/
def slice (cs : List Char) (i e : Nat) : Option (List Char) :=
  (sliceTo e cs).bind fun upto => (sliceTo i upto).map fun front => upto.drop front.length

def Blank (c : List Char) : Prop := c = [] ∨ c = ['.']

instance (c : List Char) : Decidable (Blank c) := inferInstanceAs (Decidable (_ ∨ _))

def elements (name : List Char) : List (List Char) :=
  (name.splitOn '/').filter fun c => ¬Blank c

/-- The spans of components that follow one another, each with the slash after it. -/
def spansOf : Nat → List Bytes → List (Nat × Nat)
  | _, [] => []
  | i, c :: cs =>
      if c = [] ∨ c = [46] then spansOf (i + c.length + 1) cs
      else (i, i + c.length) :: spansOf (i + c.length + 1) cs

/-- The loop goes by what is left after the slashes and dots. -/
theorem scan_congr {b b' : Bytes} {i i' : Nat} (same : skipslash b i = skipslash b' i') :
    scan b i = scan b' i' := by
  conv_lhs => rw [scan]
  conv_rhs => rw [scan]
  simp only [same]

theorem scan_slash (b : Bytes) (i : Nat) : scan (47 :: b) i = scan b (i + 1) :=
  scan_congr (by rw [skipslash, if_pos (.inl rfl)])

theorem skipslash_word {c : Bytes} {more : Bytes} (i : Nat) (free : 47 ∉ c)
    (word : ¬(c = [] ∨ c = [46])) : skipslash (c ++ more) i = (c ++ more, i) := by
  rcases c with _ | ⟨d, c⟩
  · exact absurd (.inl rfl) word
  · rw [cons_append, skipslash, if_neg]
    rintro (rfl | ⟨rfl, ended⟩)
    · exact free mem_cons_self
    · rcases c with _ | ⟨d, c⟩
      · exact word (.inr rfl)
      · simp only [cons_append, List.head?_cons, Option.some_inj] at ended
        rcases ended with ended | rfl
        · cases ended
        · exact free (by simp)

theorem scan_word {c : Bytes} {more : Bytes} (i : Nat) (free : 47 ∉ c)
    (word : ¬(c = [] ∨ c = [46])) (after : more = [] ∨ more.head? = some 47) :
    scan (c ++ more) i =
      if more = [] then ([(i, i + c.length)], false)
      else ((i, i + c.length) :: (scan more (i + c.length)).1, (scan more (i + c.length)).2) := by
  have none : ∀ d ∈ c, decide (d ≠ 47) = true := fun d inside =>
    decide_eq_true fun slash => free (slash ▸ inside)
  have taken : (c ++ more).takeWhile (· ≠ 47) = c := by
    rw [takeWhile_append_of_pos none]
    rcases more with _ | ⟨d, more⟩
    · simp
    · obtain rfl : d = 47 := by simpa using after
      simp
  have left : (c ++ more).dropWhile (· ≠ 47) = more := by
    rw [dropWhile_append_of_pos none]
    rcases more with _ | ⟨d, more⟩
    · rfl
    · obtain rfl : d = 47 := by simpa using after
      simp
  have some : ¬c ++ more = [] := fun empty => word (.inl (append_eq_nil_iff.mp empty).1)
  rw [scan, skipslash_word i free word]
  simp only [taken, left, some, dite_false]

theorem scan_components {comps : List Bytes} (i : Nat) (some : comps ≠ [])
    (free : ∀ c ∈ comps, 47 ∉ c) : scan ([47].intercalate comps) i =
      (spansOf i comps, comps.getLast?.any fun c => c = [] ∨ c = [46]) := by
  induction comps generalizing i with
  | nil => exact absurd rfl some
  | cons c rest ih =>
      have first := free c mem_cons_self
      by_cases word : c = [] ∨ c = [46]
      · rcases rest with _ | ⟨d, rest⟩
        · rcases word with rfl | rfl <;> simp [scan, skipslash, spansOf]
        · have rest := ih (i + c.length + 1) (cons_ne_nil _ _) fun e inside =>
            free e (mem_cons_of_mem _ inside)
          rw [intercalate_cons_cons, spansOf, if_pos word, List.getLast?_cons_cons, ← rest]
          rcases word with rfl | rfl
          · exact scan_slash _ i
          · rw [← scan_slash]
            simp only [cons_append, nil_append]
            apply scan_congr
            rw [skipslash, if_pos (.inr ⟨rfl, .inr rfl⟩)]
            rfl
      · rcases rest with _ | ⟨d, rest⟩
        · have last := @scan_word c [] i first word (.inl rfl)
          rw [intercalate_singleton, spansOf, if_neg word]
          rw [not_or] at word
          simpa [word.1, word.2, spansOf] using last
        · have rest := ih (i + c.length + 1) (cons_ne_nil _ _) fun e inside =>
            free e (mem_cons_of_mem _ inside)
          rw [intercalate_cons_cons, spansOf, if_neg word, List.getLast?_cons_cons,
            append_assoc, singleton_append, scan_word i first word (.inr rfl),
            if_neg (cons_ne_nil _ _), scan_slash, rest]

theorem length_text (cs : List Char) : (text cs).length = size cs := by
  induction cs with
  | nil => rfl
  | cons c cs ih =>
      rw [text, flatMap_cons, length_append, String.length_utf8EncodeChar]
      rw [text] at ih
      simp [ih, size]

theorem text_append (p q : List Char) : text (p ++ q) = text p ++ text q := flatMap_append

theorem slash_of_text {c : List Char} (slash : 47 ∈ text c) : '/' ∈ c := by
  rcases mem_flatMap.mp slash with ⟨d, inside, byte⟩
  rcases Utf8.encode_cases d with ⟨-, below, one⟩ | ⟨-, high⟩
  · rw [one, mem_singleton] at byte
    have value := congrArg UInt8.toNat byte
    rw [UInt8.toNat_ofNat', Nat.mod_eq_of_lt (by omega)] at value
    obtain rfl : d = '/' := Char.toNat_inj.1 value.symm
    exact inside
  · exact absurd (high 47 byte) (by decide)

theorem text_injective {p q : List Char} (same : text p = text q) : p = q := by
  have whole : String.ofList p = String.ofList q := by
    apply Utf8.encode_injective
    rw [Utf8.encode, Utf8.encode, String.toList_ofList, String.toList_ofList]
    exact same
  exact String.ofList_injective whole

theorem blank_text (c : List Char) : (text c = [] ∨ text c = [46]) ↔ Blank c := by
  have dot : text ['.'] = [46] := by decide
  constructor
  · rintro (empty | one)
    · exact .inl (text_injective empty)
    · exact .inr (text_injective (one.trans dot.symm))
  · rintro (rfl | rfl)
    · exact .inl rfl
    · exact .inr dot

theorem text_intercalate (comps : List (List Char)) :
    text (['/'].intercalate comps) = [47].intercalate (comps.map text) := by
  induction comps with
  | nil => rfl
  | cons c rest ih =>
      rcases rest with _ | ⟨d, rest⟩
      · simp
      · have slash : text ['/'] = [47] := by decide
        rw [intercalate_cons_cons, map_cons, map_cons, intercalate_cons_cons,
          text_append, text_append, slash, ih, map_cons]

theorem free_splitOn {name c : List Char} (inside : c ∈ name.splitOn '/') : '/' ∉ c := by
  induction name generalizing c with
  | nil =>
      obtain rfl : c = [] := by simpa using inside
      simp
  | cons d name ih =>
      rw [splitOn_cons_eq_if_modifyHead] at inside
      split_ifs at inside with slash
      · rcases mem_cons.mp inside with rfl | later
        · simp
        · exact ih later
      · rcases parts : name.splitOn '/' with _ | ⟨first, rest⟩
        · exact absurd parts (splitOn_ne_nil _ _)
        · rw [parts, modifyHead_cons] at inside
          rcases mem_cons.mp inside with rfl | later
          · have none : '/' ∉ first := ih (parts ▸ mem_cons_self)
            intro here
            rcases mem_cons.mp here with rfl | later
            · exact slash (beq_self_eq_true _)
            · exact none later
          · exact ih (parts ▸ mem_cons_of_mem _ later)

theorem parsename_components (front back : List Char) :
    parsename (text (front ++ back)) (size front) =
      (spansOf (size front) ((back.splitOn '/').map text),
        (back.splitOn '/').getLast?.any fun c => Blank c) := by
  have rest : (text (front ++ back)).drop (size front) = text back := by
    rw [text_append, ← length_text, drop_left]
  have free : ∀ c ∈ (back.splitOn '/').map text, 47 ∉ c := by
    intro c inside
    rcases mem_map.mp inside with ⟨d, there, rfl⟩
    exact fun slash => free_splitOn there (slash_of_text slash)
  have given : (back.splitOn '/').map text ≠ [] :=
    fun none => splitOn_ne_nil _ _ (map_eq_nil_iff.mp none)
  have joined : text back = [47].intercalate ((back.splitOn '/').map text) := by
    rw [← text_intercalate, intercalate_splitOn]
  rw [parsename, rest, joined, scan_components _ given free]
  rw [List.getLast?_map]
  cases (back.splitOn '/').getLast? with
  | none => rfl
  | some c => simp only [Option.map_some, Option.any_some, blank_text]

def through (comps : List (List Char)) : List Char := comps.flatMap (· ++ ['/'])

theorem length_spansOf (comps : List (List Char)) (i : Nat) :
    (spansOf i (comps.map text)).length = (comps.filter fun c => ¬Blank c).length := by
  induction comps generalizing i with
  | nil => rfl
  | cons c rest ih =>
      simp only [map_cons, spansOf, blank_text, filter_cons]
      split_ifs with blank <;> simp_all

/-- A span is a component's, with as many that name something before it as there are spans, by
induction on the components. -/
theorem span_component {comps : List (List Char)} (seen : List Char) {k : Nat} {s : Nat × Nat}
    (at_ : (spansOf (size seen) (comps.map text))[k]? = some s) : ∃ before mid after,
      comps = before ++ mid :: after ∧ ¬Blank mid ∧ (before.filter fun c => ¬Blank c).length = k ∧
      s = (size (seen ++ through before), size (seen ++ through before ++ mid)) := by
  induction comps generalizing seen k with
  | nil => simp [spansOf] at at_
  | cons c rest ih =>
      have on : size seen + (text c).length + 1 = size (seen ++ (c ++ ['/'])) := by
        rw [size_append, size_append, length_text]
        rfl
      simp only [map_cons, spansOf, blank_text, on] at at_
      split_ifs at at_ with blank
      · rcases ih _ at_ with ⟨before, mid, after, rfl, word, count, there⟩
        refine ⟨c :: before, mid, after, rfl, word, ?_, ?_⟩
        · simpa [blank] using count
        · simpa [through] using there
      · cases k with
        | zero =>
            refine ⟨[], c, rest, rfl, blank, rfl, ?_⟩
            simp only [List.getElem?_cons_zero, Option.some_inj] at at_
            rw [← at_, length_text, ← size_append]
            simp [through]
        | succ k =>
            rcases ih _ at_ with ⟨before, mid, after, rfl, word, count, there⟩
            refine ⟨c :: before, mid, after, rfl, word, ?_, ?_⟩
            · simpa [blank] using count
            · simpa [through] using there

theorem intercalate_through (before : List (List Char)) (mid : List Char)
    (after : List (List Char)) : ['/'].intercalate (before ++ mid :: after) =
      through before ++ ['/'].intercalate (mid :: after) := by
  induction before with
  | nil => rfl
  | cons c rest ih =>
      have more : rest ++ mid :: after ≠ [] := append_ne_nil_of_right_ne_nil _ (by simp)
      rcases kept : rest ++ mid :: after with _ | ⟨d, tail⟩
      · exact absurd kept more
      · rw [cons_append, kept, intercalate_cons_cons, ← kept, ih]
        simp [through]

theorem intercalate_cons (mid : List Char) (after : List (List Char)) :
    ['/'].intercalate (mid :: after) = mid ++ after.flatMap ('/' :: ·) := by
  induction after generalizing mid with
  | nil => simp
  | cons c after ih => rw [intercalate_cons_cons, ih, flatMap_cons]; simp

/-- A span of a name whose elements after its first bytes are those of `back`: where it begins and
ends there are characters, they are those of an element, and the name as far as its end has the
elements as far as that one. -/
structure Covers (front back : List Char) (k : Nat) (s : Nat × Nat) (pre mid post : List Char) :
    Prop where
  whole : back = pre ++ mid ++ post
  begins : s.1 = size (front ++ pre)
  ends : s.2 = size (front ++ pre ++ mid)
  element : (elements back)[k]? = some mid
  upto : elements (pre ++ mid) = (elements back).take (k + 1)

theorem slice_covers {front back : List Char} {k : Nat} {s : Nat × Nat} {pre mid post : List Char}
    (covers : Covers front back k s pre mid post) :
    sliceTo s.2 (front ++ back) = some (front ++ (pre ++ mid)) ∧
      slice (front ++ back) s.1 s.2 = some mid := by
  have upto : sliceTo s.2 (front ++ back) = some (front ++ (pre ++ mid)) := by
    apply sliceTo_eq_some.mpr
    refine ⟨⟨post, by simp [covers.whole]⟩, ?_⟩
    rw [covers.ends, append_assoc]
  have from_ : sliceTo s.1 (front ++ (pre ++ mid)) = some (front ++ pre) :=
    sliceTo_eq_some.mpr ⟨⟨mid, by simp⟩, covers.begins.symm⟩
  refine ⟨upto, ?_⟩
  rw [slice, upto, Option.bind_some, from_, Option.map_some, ← append_assoc, drop_left]

theorem covers_of_span {front back : List Char} {k : Nat} {s : Nat × Nat}
    (at_ : (spansOf (size front) ((back.splitOn '/').map text))[k]? = some s) :
    ∃ pre mid post, Covers front back k s pre mid post := by
  rcases span_component front at_ with ⟨before, mid, after, parts, word, count, rfl⟩
  have free : ∀ c ∈ before ++ [mid], '/' ∉ c := by
    intro c inside
    apply @free_splitOn back
    rw [parts]
    rcases mem_append.mp inside with early | last
    · exact mem_append_left _ early
    · rw [mem_singleton.mp last]
      exact mem_append_right _ mem_cons_self
  have named : elements back = before.filter (fun c => ¬Blank c) ++
      mid :: after.filter (fun c => ¬Blank c) := by
    rw [elements, parts, filter_append, filter_cons_of_pos (by simpa using word)]
  have upto : (through before ++ mid).splitOn '/' = before ++ [mid] := by
    have joined := intercalate_through before mid []
    rw [intercalate_singleton] at joined
    rw [← joined]
    exact splitOn_intercalate _ (by simpa using free) (by simp)
  refine ⟨through before, mid, after.flatMap ('/' :: ·), ?_, rfl, rfl, ?_, ?_⟩
  · have joined : ['/'].intercalate (back.splitOn '/') = back := intercalate_splitOn '/'
    rw [parts, intercalate_through, intercalate_cons] at joined
    rw [← joined, append_assoc]
  · rw [named, List.getElem?_append_right (le_of_eq count), count, Nat.sub_self]
    rfl
  · have last : [mid].filter (fun c => ¬Blank c) = [mid] :=
      filter_cons_of_pos (by simpa using word)
    rw [elements, upto, named, filter_append, last, take_append, count,
      take_of_length_le (by omega)]
    simp

/-- What `parsename` finds of a name, given as what is before the prefix and what is after it. -/
theorem parsename_exact (front back : List Char) :
    (parsename (text (front ++ back)) (size front)).1.map (fun s => slice (front ++ back) s.1 s.2) =
        (elements back).map some ∧
      ((parsename (text (front ++ back)) (size front)).2 = true ↔
        ∃ last, (back.splitOn '/').getLast? = some last ∧ Blank last) ∧
      ∀ k s, (parsename (text (front ++ back)) (size front)).1[k]? = some s →
        ∃ pre mid post, Covers front back k s pre mid post ∧
          sliceTo s.2 (front ++ back) = some (front ++ (pre ++ mid)) := by
  have spans : ∀ k s, (parsename (text (front ++ back)) (size front)).1[k]? = some s →
      ∃ pre mid post, Covers front back k s pre mid post := by
    intro k s at_
    rw [parsename_components] at at_
    exact covers_of_span at_
  refine ⟨?_, ?_, ?_⟩
  · apply ext_getElem?
    intro k
    rw [List.getElem?_map, List.getElem?_map]
    rcases at_ : (parsename (text (front ++ back)) (size front)).1[k]? with _ | s
    · rw [List.getElem?_eq_none_iff, parsename_components, length_spansOf] at at_
      rw [elements, List.getElem?_eq_none at_]
      rfl
    · rcases spans k s at_ with ⟨pre, mid, post, covers⟩
      rw [covers.element, Option.map_some, (slice_covers covers).2]
      rfl
  · rw [parsename_components]
    simp [Option.any_eq_true]
  · intro k s at_
    rcases spans k s at_ with ⟨pre, mid, post, covers⟩
    exact ⟨pre, mid, post, covers, (slice_covers covers).1⟩

end Ipnx.Name
