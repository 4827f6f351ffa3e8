import Mathlib.Data.List.Forall2

/-!
# Words in quotes

Words written one after another with blanks between, each bare or in quotes with its own quotes
doubled, are read back as they were. What is a blank, and what the quote is, are parameters.
-/

namespace Ipnx.Quoted

open List

variable {α : Type} [DecidableEq α] (blank : α → Bool) (q : α)

def doubled (w : List α) : List α := w.flatMap fun c => if c = q then [q, q] else [c]

def quoted (w : List α) : List α := q :: (doubled q w ++ [q])

/-- A word, from within quotes or out of them, and what is after it. -/
def token : Bool → List α → List α × List α
  | _, [] => ([], [])
  | false, c :: cs =>
      if blank c then ([], c :: cs)
      else if c = q then token true cs
      else (c :: (token false cs).1, (token false cs).2)
  | true, [c] => if c = q then ([], []) else ([c], [])
  | true, c :: c' :: cs =>
      if c ≠ q then (c :: (token true (c' :: cs)).1, (token true (c' :: cs)).2)
      else if c' = q then (q :: (token true cs).1, (token true cs).2)
      else token false (c' :: cs)

theorem length_token (quoting : Bool) (cs : List α) :
    (token blank q quoting cs).2.length ≤ cs.length := by
  fun_induction token blank q quoting cs <;> simp_all <;> omega

/-- A word out of quotes that does not begin with a blank is taken from something. -/
theorem length_token_lt {c : α} {cs : List α} (word : blank c = false) :
    (token blank q false (c :: cs)).2.length < (c :: cs).length := by
  rw [token, word, if_neg Bool.false_ne_true, length_cons]
  split_ifs
  · have shorter := length_token blank q true cs
    omega
  · have shorter := length_token blank q false cs
    simp only
    omega

def tokens (cs : List α) : List (List α) :=
  match _line : cs.dropWhile blank with
  | [] => []
  | c :: rest => (token blank q false (c :: rest)).1 :: tokens (token blank q false (c :: rest)).2
termination_by cs.length
decreasing_by
  have first : blank c = false := by
    have head := List.head?_dropWhile_not blank cs
    rw [_line] at head
    simpa using head
  have shorter := (dropWhile_suffix blank (l := cs)).length_le
  rw [_line] at shorter
  have taken : (token blank q false (c :: rest)).2.length < (c :: rest).length :=
    length_token_lt blank q first
  omega

variable {blank q} {w f cs : List α} {ws fs : List (List α)} {sep : α}

/-- A word is written bare, if there is something to it and nothing in it that is not plain, or it
is written in quotes. -/
def Spells (blank : α → Bool) (q : α) (w f : List α) : Prop :=
  (f = w ∧ w ≠ [] ∧ ∀ c ∈ w, blank c = false ∧ c ≠ q) ∨ f = quoted q w

def Ended (blank : α → Bool) (cs : List α) : Prop := ∀ c ∈ cs.head?, blank c = true

theorem token_ended (ended : Ended blank cs) : token blank q false cs = ([], cs) := by
  rcases cs with _ | ⟨c, cs⟩
  · rfl
  · rw [token, ended c rfl, if_pos rfl]

theorem token_bare (plain : ∀ c ∈ w, blank c = false ∧ c ≠ q) (ended : Ended blank cs) :
    token blank q false (w ++ cs) = (w, cs) := by
  induction w with
  | nil => exact token_ended ended
  | cons c w ih =>
      have here := plain c (mem_cons_self ..)
      rw [cons_append, token, here.1, if_neg Bool.false_ne_true, if_neg here.2,
        ih fun c' member => plain c' (mem_cons_of_mem c member)]

/-- From within quotes a doubled quote is one, and a single one ends them. -/
theorem token_doubled (quote : blank q = false) (ended : Ended blank cs) :
    token blank q true (doubled q w ++ q :: cs) = (w, cs) := by
  induction w with
  | nil =>
      rcases cs with _ | ⟨c, cs⟩
      · simp [doubled, token]
      · have other : c ≠ q := by
          rintro rfl
          rw [ended c rfl] at quote
          cases quote
        rw [doubled, flatMap_nil, nil_append, token, if_neg (not_not.2 rfl), if_neg other,
          token_ended ended]
  | cons c w ih =>
      by_cases same : c = q
      · have twice : doubled q (c :: w) ++ q :: cs = q :: q :: (doubled q w ++ q :: cs) := by
          simp [doubled, same]
        rw [twice, token, if_neg (not_not.2 rfl), if_pos rfl, ih, same]
      · have once : doubled q (c :: w) ++ q :: cs = c :: (doubled q w ++ q :: cs) := by
          simp [doubled, same]
        rw [once]
        rcases rest : doubled q w ++ q :: cs with _ | ⟨c', rest'⟩
        · simp at rest
        · rw [token, if_pos same, ← rest, ih]

theorem token_quoted (quote : blank q = false) (ended : Ended blank cs) :
    token blank q false (quoted q w ++ cs) = (w, cs) := by
  have line : quoted q w ++ cs = q :: (doubled q w ++ q :: cs) := by simp [quoted]
  rw [line, token, quote, if_neg Bool.false_ne_true, if_pos rfl, token_doubled quote ended]

theorem Spells.token (spells : Spells blank q w f) (quote : blank q = false)
    (ended : Ended blank cs) : Quoted.token blank q false (f ++ cs) = (w, cs) := by
  rcases spells with ⟨rfl, -, plain⟩ | rfl
  · exact token_bare plain ended
  · exact token_quoted quote ended

/-- A word written begins with what is no blank. -/
theorem Spells.begins (spells : Spells blank q w f) (quote : blank q = false) :
    ∃ c rest, f = c :: rest ∧ blank c = false := by
  rcases spells with ⟨rfl, some_, plain⟩ | rfl
  · rcases f with _ | ⟨c, rest⟩
    · exact absurd rfl some_
    · exact ⟨c, rest, rfl, (plain c (mem_cons_self ..)).1⟩
  · exact ⟨q, _, rfl, quote⟩

theorem tokens_none (all : cs.dropWhile blank = []) : tokens blank q cs = [] := by
  rw [tokens]
  split
  · rfl
  · next line =>
      rw [all] at line
      cases line

theorem tokens_some {c : α} {rest : List α} (first : cs.dropWhile blank = c :: rest) :
    tokens blank q cs = (token blank q false (c :: rest)).1 ::
      tokens blank q (token blank q false (c :: rest)).2 := by
  rw [tokens]
  split
  · next line =>
      rw [first] at line
      cases line
  · next line =>
      rw [first] at line
      cases line
      rfl

theorem tokens_blank (is : blank sep = true) (cs : List α) :
    tokens blank q (sep :: cs) = tokens blank q cs := by
  have same : (sep :: cs).dropWhile blank = cs.dropWhile blank := by
    rw [dropWhile_cons, is, if_pos rfl]
  rcases rest : cs.dropWhile blank with _ | ⟨c, rest'⟩
  · rw [tokens_none rest, tokens_none (same.trans rest)]
  · rw [tokens_some rest, tokens_some (same.trans rest)]

/-- The first word of a line is what was written, and then come the others. -/
theorem tokens_word (spells : Spells blank q w f) (quote : blank q = false)
    (ended : Ended blank cs) : tokens blank q (f ++ cs) = w :: tokens blank q cs := by
  rcases spells.begins quote with ⟨c, rest, rfl, word⟩
  have read := spells.token quote ended
  have first : (c :: rest ++ cs).dropWhile blank = c :: (rest ++ cs) := by
    rw [cons_append, dropWhile_cons, word, if_neg Bool.false_ne_true]
  rw [cons_append] at read
  rw [tokens_some first, read]

/-- The words of a line of words written with a blank between are those words. -/
theorem tokens_intercalate (spells : List.Forall₂ (Spells blank q) ws fs)
    (quote : blank q = false) (is : blank sep = true) :
    tokens blank q ([sep].intercalate fs) = ws := by
  induction spells with
  | nil => exact tokens_none rfl
  | @cons w f ws fs first rest ih =>
      rcases fs with _ | ⟨f', fs⟩
      · cases rest
        rw [intercalate_singleton, ← append_nil f, tokens_word first quote (by simp [Ended]),
          tokens_none rfl]
      · have line : [sep].intercalate (f :: f' :: fs) =
            f ++ sep :: [sep].intercalate (f' :: fs) := by
          simp [List.intercalate, List.intersperse]
        rw [line, tokens_word first quote (by simpa [Ended] using is), tokens_blank is, ih]

end Ipnx.Quoted
