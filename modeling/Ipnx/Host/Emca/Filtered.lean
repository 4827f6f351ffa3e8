import Ipnx.Host.Emca.Files

/-!
# What a filter replaces

`hosts/web/www/emca.mjs`: `|cmd` and `<cmd` leave in a window the text that was selected, and the
command's output takes its place when `replace` is clunked. The text is looked for again by then,
and the first place it is at is the one replaced; the output's dollars stand for other texts there,
and what is read of it has lost a byte order mark.
-/

namespace Ipnx.Host.Emca

open List
open Ipnx.Ninep (utf8)

variable {s body before after : List Char}

theorem cutAt_some : cutAt s body = some (before, after) ↔
    before ++ s ++ after = body ∧ ∀ a b, a ++ s ++ b = body → before.length ≤ a.length := by
  induction body generalizing before after with
  | nil =>
      rw [cutAt]
      split_ifs with none
      · subst none
        simp only [Option.some.injEq, Prod.mk.injEq, append_nil, append_eq_nil_iff]
        constructor
        · rintro ⟨rfl, rfl⟩
          exact ⟨⟨rfl, rfl⟩, fun _ _ _ => Nat.zero_le _⟩
        · rintro ⟨⟨rfl, rfl⟩, _⟩
          exact ⟨rfl, rfl⟩
      · simp [none]
  | cons c cs ih =>
      rw [cutAt]
      split_ifs with here
      · rcases here with ⟨rest, joined⟩
        rw [← joined, drop_left]
        constructor
        · rintro ⟨⟩
          exact ⟨rfl, fun a b _ => Nat.zero_le _⟩
        · rintro ⟨whole, first⟩
          have none := eq_nil_of_length_eq_zero (Nat.le_zero.1 (first [] rest rfl))
          subst none
          cases append_cancel_left whole
          rfl
      · constructor
        · intro cut
          rcases found : cutAt s cs with _ | ⟨before', after'⟩
          · simp [found] at cut
          · rw [found] at cut
            cases cut
            rcases ih.1 found with ⟨rfl, first⟩
            refine ⟨rfl, fun a b joined => ?_⟩
            rcases a with _ | ⟨c', a⟩
            · exact absurd ⟨b, joined⟩ here
            · rw [cons_append, cons_append, List.cons.injEq] at joined
              exact Nat.succ_le_succ (first a b joined.2)
        · rintro ⟨whole, first⟩
          rcases before with _ | ⟨c', before⟩
          · exact absurd ⟨after, whole⟩ here
          · rw [cons_append, cons_append, List.cons.injEq] at whole
            rcases whole with ⟨rfl, rfl⟩
            have found : cutAt s (before ++ s ++ after) = some (before, after) := by
              apply ih.2
              refine ⟨rfl, fun a b joined => ?_⟩
              have far := first (c' :: a) b (by rw [cons_append, cons_append, joined])
              exact Nat.le_of_succ_le_succ far
            rw [found]
            rfl

theorem cutAt_none : cutAt s body = none ↔ ¬s <:+: body := by
  induction body with
  | nil =>
      rw [cutAt]
      split_ifs with none <;> simp [none]
  | cons c cs ih =>
      rw [cutAt, infix_cons_iff, not_or, ← ih]
      split_ifs with here
      · simp [here]
      · simp [here]

/-- What a replacement takes of a window's body: what is before it, itself and what is after. -/
def Window.taken (w : Window) : List Char × List Char × List Char :=
  let s := w.selection.getD ""
  if s ≠ "" ∧ s ≠ w.body then
    match cutAt s.toList w.body.toList with
    | some (before, after) => (before, s.toList, after)
    | none => ([], w.body.toList, [])
  else ([], w.body.toList, [])

/-- A text's first place in another, which is not all of it. -/
def First (before s after : List Char) : Prop :=
  s ≠ [] ∧ ¬(before = [] ∧ after = []) ∧
    ∀ a b, a ++ s ++ b = before ++ s ++ after → before.length ≤ a.length

/-- What is selected of a body, with what is before it and after it. With nothing selected, it is
the whole. -/
structure Selected (body : String) where
  before : List Char
  chosen : List Char
  after : List Char
  whole : before ++ chosen ++ after = body.toList
  all : chosen = [] → before = [] ∧ after = []

namespace Selected

variable {text : String} (s : Selected text)

def Told (asked : String) : Prop :=
  asked.toList = s.chosen ∨ asked = "" ∧ s.before = [] ∧ s.after = []

/-- Exactly what is selected is replaced, by exactly the bytes. -/
def Replaced (out : Bytes) (w w' : Window) : Prop :=
  w.taken = (s.before, s.chosen, s.after) ∧
    utf8 w'.body = utf8 (.ofList s.before) ++ out ++ utf8 (.ofList s.after)

/-- What a window remembers leads to what is selected: it is the first place of its text, or all is
selected and what is remembered is no part of it. -/
def Found (remembered : String) : Prop :=
  (remembered.toList = s.chosen ∧ First s.before s.chosen s.after) ∨
    (s.before = [] ∧ s.after = [] ∧
      (remembered = "" ∨ remembered = text ∨ ¬remembered.toList <:+: text.toList))

/-- What is put for an output's text: in a part, with what its dollars stand for. -/
def put (r : List Char) : List Char :=
  if s.before = [] ∧ s.after = [] then r else expand s.before s.chosen s.after r

/-- An output that is put as it was written: a text's bytes, which without a byte order mark and
with what its dollars stand for is the same text. -/
def Plain (out : Bytes) : Prop :=
  ∃ t : String, out = utf8 t ∧ s.put (Utf8.skim false t.toList) = t.toList

variable {s} {w : Window}

theorem part (first : First s.before s.chosen s.after) : s.chosen ≠ text.toList := by
  rintro same
  apply first.2.1
  have length := congrArg List.length (s.whole.trans same.symm)
  simp only [length_append] at length
  constructor <;> apply eq_nil_of_length_eq_zero <;> omega

theorem all_iff : ([], text.toList, []) = (s.before, s.chosen, s.after) ↔
    s.before = [] ∧ s.after = [] := by
  have whole := s.whole
  rw [Prod.mk.injEq, Prod.mk.injEq]
  constructor
  · rintro ⟨none, _, none'⟩
    exact ⟨none.symm, none'.symm⟩
  · rintro ⟨none, none'⟩
    rw [none, none', nil_append, append_nil] at whole
    exact ⟨none.symm, whole.symm, none'.symm⟩

theorem found_all {r : String} (all : r = "" ∨ r = text ∨ ¬r.toList <:+: text.toList) :
    s.Found r ↔ s.before = [] ∧ s.after = [] := by
  constructor
  · rintro (⟨same, first⟩ | none)
    · rcases all with rfl | rfl | absent
      · exact absurd same.symm first.1
      · exact absurd same.symm (part first)
      · apply absurd _ absent
        rw [same, ← s.whole]
        exact infix_append ..
    · exact ⟨none.1, none.2.1⟩
  · rintro ⟨none, none'⟩
    exact .inr ⟨none, none', all⟩

theorem found_part {r : String} {before after : List Char} (some : r ≠ "") (other : r ≠ text)
    (cut : cutAt r.toList text.toList = .some (before, after)) :
    s.Found r ↔ (before, r.toList, after) = (s.before, s.chosen, s.after) := by
  rcases cutAt_some.1 cut with ⟨joined, first⟩
  rw [Prod.mk.injEq, Prod.mk.injEq]
  constructor
  · rintro (⟨same, first'⟩ | ⟨_, _, none | none | none⟩)
    · rw [same, cutAt_some.2 ⟨s.whole, s.whole ▸ first'.2.2⟩] at cut
      cases cut
      exact ⟨rfl, same, rfl⟩
    · exact absurd none some
    · exact absurd none other
    · apply absurd _ none
      rw [← joined]
      exact infix_append ..
  · rintro ⟨rfl, same, rfl⟩
    rw [← s.whole] at first
    refine .inl ⟨same, ?_, ?_, same ▸ first⟩
    · rw [← same]
      exact fun none => some (String.toList_eq_nil_iff.1 none)
    · rintro ⟨none, none'⟩
      rw [none, none', nil_append, append_nil] at joined
      exact other (String.toList_inj.1 joined)

theorem taken_iff (body : w.body = text) :
    w.taken = (s.before, s.chosen, s.after) ↔ s.Found (w.selection.getD "") := by
  rw [Window.taken, body]
  generalize w.selection.getD "" = r
  by_cases some : r ≠ "" ∧ r ≠ text
  · rw [if_pos some]
    rcases cut : cutAt r.toList text.toList with _ | ⟨before, after⟩
    · rw [found_all (.inr (.inr (cutAt_none.1 cut)))]
      exact all_iff
    · rw [found_part some.1 some.2 cut]
  · rw [if_neg some, found_all (by tauto)]
    exact all_iff

theorem body_replaced (body : w.body = text) (taken : w.taken = (s.before, s.chosen, s.after))
    (r : String) :
    (Manager.replaced w r).body = .ofList (s.before ++ s.put r.toList ++ s.after) := by
  have found := (taken_iff body).1 taken
  rw [Manager.replaced, body, put]
  dsimp only
  by_cases all : s.before = [] ∧ s.after = []
  · have whole : ¬((w.selection.getD "") ≠ "" ∧ (w.selection.getD "") ≠ text ∧
        (cutAt (w.selection.getD "").toList text.toList).isSome) := by
      rintro ⟨some, other, inside⟩
      rcases found with ⟨_, first⟩ | ⟨_, _, none | none | none⟩
      · exact first.2.1 all
      · exact some none
      · exact other none
      · rw [cutAt_none.2 none] at inside
        cases inside
    rw [if_neg whole, if_pos all, all.1, all.2, nil_append, append_nil,
      String.ofList_toList]
  · rcases found with ⟨same, first⟩ | ⟨none, none', _⟩
    · have cut : cutAt (w.selection.getD "").toList text.toList = some (s.before, s.after) := by
        rw [same]
        exact cutAt_some.2 ⟨s.whole, s.whole ▸ first.2.2⟩
      have inside : w.selection.getD "" ≠ "" ∧ w.selection.getD "" ≠ text ∧
          (cutAt (w.selection.getD "").toList text.toList).isSome := by
        refine ⟨?_, ?_, by rw [cut]; rfl⟩
        · rintro none
          rw [none] at same
          exact first.1 same.symm
        · rintro whole
          rw [whole] at same
          exact part first same.symm
      rw [if_pos inside, if_neg all, replace, cut, same]
    · exact absurd ⟨none, none'⟩ all

theorem replaced_iff (body : w.body = text) (out : Bytes) :
    s.Replaced out w (Manager.replaced w (Utf8.decode out)) ↔
      s.Found (w.selection.getD "") ∧ s.Plain out := by
  rw [Replaced, taken_iff body]
  apply and_congr_right
  intro found
  rw [body_replaced body ((taken_iff body).2 found), Plain]
  simp only [utf8_eq_encode, Utf8.encode, String.toList_ofList, flatMap_append,
    append_left_inj, append_right_inj]
  constructor
  · intro same
    have read := Utf8.decode_encode (.ofList (s.put (Utf8.decode out).toList))
    rw [Utf8.encode, String.toList_ofList, same] at read
    have skimmed := congrArg String.toList read
    rw [String.toList_ofList] at skimmed
    refine ⟨.ofList (s.put (Utf8.decode out).toList), by rw [String.toList_ofList, same], ?_⟩
    rw [String.toList_ofList, ← skimmed]
  · rintro ⟨t, rfl, same⟩
    have read := Utf8.decode_encode t
    rw [Utf8.encode] at read
    rw [read, String.toList_ofList, same]

theorem whole_of (none : s.before = []) (none' : s.after = []) : text.toList = s.chosen := by
  rw [← s.whole, none, none', nil_append, append_nil]

theorem remembered {asked : String} (told : s.Told asked) :
    (if asked = "" then text else asked).toList = s.chosen := by
  rcases told with same | ⟨rfl, none, none'⟩
  · split_ifs with empty
    · rw [empty] at same
      have none := s.all same.symm
      exact whole_of none.1 none.2
    · exact same
  · exact whole_of none none'

theorem found_iff {asked : String} (told : s.Told asked) :
    s.Found (if asked = "" then text else asked) ↔
      s.before = [] ∧ s.after = [] ∨ First s.before s.chosen s.after := by
  have same := remembered told
  constructor
  · rintro (⟨_, first⟩ | ⟨none, none', _⟩)
    · exact .inr first
    · exact .inl ⟨none, none'⟩
  · rintro (⟨none, none'⟩ | first)
    · have whole := String.toList_inj.1 (same.trans (whole_of none none').symm)
      exact .inr ⟨none, none', .inr (.inl whole)⟩
    · exact .inl ⟨same, first⟩

end Selected

namespace Manager

variable {m m' : Manager} {w v : Nat} {how : Char} {cmd asked : String} {f : Fid} {out : Bytes}

theorem kept_alter {α : Type} {part : Window → α} {f : Window → Window}
    (kept : part (f (m.win w)) = part (m.win w)) :
    part ((m.alter w f).win v) = part (m.win v) := by
  by_cases same : v = w
  · subst same
    rw [win_alter_self, kept]
  · rw [win_alter_of_ne m same]

theorem body_filter : ((m.filter w how cmd asked).win v).body = (m.win v).body := by
  have asking : ∀ m : Manager, ∀ line, ((m.ask line).win v).body = (m.win v).body := by
    intro m line
    rw [ask, post, drain, win_reply]
    exact (kept_alter rfl).trans (kept_alter rfl)
  exact (asking _ _).trans (kept_alter rfl)

theorem selection_filter : ((m.filter w how cmd asked).win w).selection =
    some (if asked = "" then (m.win w).body else asked) := by
  have asking : ∀ m : Manager, ∀ line, ((m.ask line).win w).selection = (m.win w).selection := by
    intro m line
    rw [ask, post, drain, win_reply]
    exact (kept_alter rfl).trans (kept_alter rfl)
  exact (asking _ _).trans (congrArg Window.selection (win_alter_self ..))

/-- A filter's output replaces exactly what was selected just when what the window remembers then
leads to it and the output is put as it was written; and what the filter itself left leads to it
just when it is all, or the first place of its text. -/
theorem filtered_iff (s : Selected (m.win w).body) (told : s.Told asked) (there : w ∈ m'.windows)
    (kept : (m'.win w).body = ((m.filter w how cmd asked).win w).body)
    (node : f.node.kind = .file w "replace") (gathered : f.held.buf = some out) :
    (s.Replaced out (m'.win w) ((m'.clunked f).win w) ↔
      s.Found ((m'.win w).selection.getD "") ∧ s.Plain out) ∧
    (s.Found (((m.filter w how cmd asked).win w).selection.getD "") ↔
      s.before = [] ∧ s.after = [] ∨ First s.before s.chosen s.after) := by
  rw [body_filter] at kept
  have clunk : (m'.clunked f).win w = replaced (m'.win w) (Utf8.decode out) := by
    rw [clunked, node, gathered]
    dsimp only
    rw [if_neg (not_not.2 there), if_neg (by decide), if_pos rfl, win_alter_self]
  rw [clunk, selection_filter]
  exact ⟨Selected.replaced_iff kept out, Selected.found_iff told⟩

def holding (body : String) : Manager :=
  (boot 0 0).make { Window.new with body := body }

def writing (w : Nat) (out : Bytes) : Fid := ⟨⟨.file w "replace", []⟩, none, ⟨some out, none, 0⟩⟩

def second : Selected "aa" := ⟨['a'], ['a'], [], rfl, by decide⟩

def lonely : Selected "a b" := ⟨['a', ' '], ['b'], [], rfl, by decide⟩

theorem filtered_here :
    lonely.Replaced (utf8 "c") (((holding "a b").filter 2 '|' "tr b c" "b").win 2)
      ((((holding "a b").filter 2 '|' "tr b c" "b").clunked (writing 2 (utf8 "c"))).win 2) := by
  have first : First lonely.before lonely.chosen lonely.after := by
    have cut : cutAt ['b'] "a b".toList = some (['a', ' '], []) := by decide
    exact ⟨by decide, by decide, (cutAt_some.1 cut).2⟩
  have there : 2 ∈ ((holding "a b").filter 2 '|' "tr b c" "b").windows := by decide
  have run := filtered_iff (m := holding "a b") (w := 2) (f := writing 2 (utf8 "c")) lonely
    (.inl rfl) there rfl rfl rfl
  exact run.1.2 ⟨run.2.2 (.inr first), "c", rfl, by decide⟩

/-- The second of two places of a text is selected, and the first is replaced; and of an output of
two dollars one is put. -/
theorem filtered_fails :
    ((((holding "aa").filter 2 '<' "echo -n b" "a").clunked (writing 2 (utf8 "b"))).win 2).body ≠
        .ofList (second.before ++ "b".toList ++ second.after) ∧
      ((((holding "a b").filter 2 '<' "cat" "b").clunked (writing 2 (utf8 "$$"))).win 2).body ≠
        .ofList (lonely.before ++ "$$".toList ++ lonely.after) := by
  decide

end Manager

end Ipnx.Host.Emca
