import Ipnx.Name.Walk
import Mathlib.Data.List.TakeWhile

/-!
# Names cleaned

A channel's path is kept clean one element at a time, by `addelem` of `kernel/src/chan.rs`; `clean`
of `kernel/src/ns.rs` cleans a whole name. Both are to give the path that the elements lead to.
-/

namespace Ipnx.Name

open List

abbrev Part := List Char

/-- The parts so far and one more: `..` takes the last back off, and in a name with a root there is
nothing before the first. -/
def cleanPart (rooted : Bool) (out : List Part) (part : Part) : List Part :=
  if part = [] ∨ part = ['.'] then out
  else if part = ['.', '.'] then
    if out ≠ [] ∧ out.getLast? ≠ some ['.', '.'] then out.dropLast
    else if !rooted then out ++ [part] else out
  else out ++ [part]

def slashed (parts : List Part) : Part := ['/'].intercalate parts

def clean (path : String) : String :=
  let rooted : Bool := path.toList.head? = some '/'
  let out := (path.toList.splitOn '/').foldl (cleanPart rooted) []
  if rooted then .ofList ('/' :: slashed out)
  else if out = [] then "." else .ofList (slashed out)

/-- A name with something to it that is not a slash. -/
def Elem (e : Part) : Prop := e ≠ [] ∧ '/' ∉ e

/-- Where paths start: the root, the root of the root device, and a device's, with its letter and
spec. -/
inductive Root
  | slash
  | sharp
  | device (name : Part) (whole : '/' ∉ name)

namespace Root

def text : Root → Part
  | slash => ['/']
  | sharp => ['#', '/']
  | device name _ => '#' :: name

def path (r : Root) (names : List Part) : Part :=
  if names = [] then r.text
  else
    match r with
    | slash => slashed ([] :: names)
    | sharp => slashed (['#'] :: names)
    | device name _ => slashed (('#' :: name) :: names)

end Root

def Plain (n : Part) : Prop := Elem n ∧ n ≠ ['.'] ∧ n ≠ ['.', '.']

structure Rooted where
  root : Root
  names : List Part
  plain : ∀ n ∈ names, Plain n

def Rooted.path (p : Rooted) : Part := p.root.path p.names

def lead (names : List Part) (e : Part) : List Part :=
  if e = ['.'] then names else if e = ['.', '.'] then names.dropLast else names ++ [e]

/-- Whether an element is `..` where there is nothing to go back from. -/
def climbs : List Part → List Part → Bool
  | _, [] => false
  | names, e :: elems => (e = ['.', '.'] ∧ names = []) || climbs (lead names e) elems

def appended (path : Part) (elems : List Part) : Part :=
  elems.foldl (fun path e => path ++ '/' :: e) path

variable {r : Root} {names elems parts : List Part} {e n h : Part}

theorem slashed_concat (some_ : parts ≠ []) :
    slashed (parts ++ [e]) = slashed parts ++ '/' :: e := by
  rw [slashed, slashed]
  induction parts with
  | nil => exact absurd rfl some_
  | cons p parts ih =>
      rcases parts with _ | ⟨p', parts⟩
      · simp [List.intercalate, List.intersperse]
      · have rest := ih (by simp)
        simp only [List.intercalate, cons_append, List.intersperse,
          flatten_cons] at rest ⊢
        simp [rest]

theorem appended_slashed (some_ : parts ≠ []) :
    appended (slashed parts) elems = slashed (parts ++ elems) := by
  induction elems generalizing parts with
  | nil => rw [appended, foldl_nil, append_nil]
  | cons e elems ih =>
      rw [appended, foldl_cons, ← slashed_concat some_]
      have rest : appended (slashed (parts ++ [e])) elems = slashed (parts ++ [e] ++ elems) :=
        ih (by simp)
      rw [appended] at rest
      rw [rest, append_assoc, singleton_append]

theorem splitOn_slashed (some_ : parts ≠ []) (whole : ∀ p ∈ parts, '/' ∉ p) :
    (slashed parts).splitOn '/' = parts :=
  splitOn_intercalate '/' whole some_

theorem addelem_dot (path : String) : addelem path "." = path := by
  rw [addelem, if_pos rfl]

theorem addelem_back {a b : Part} (last : '/' ∉ b) :
    addelem (.ofList (a ++ '/' :: b)) ".." = .ofList (if a = [] then ['/'] else a) := by
  have rest : (a ++ '/' :: b).reverse.dropWhile (· != '/') = '/' :: a.reverse := by
    rw [reverse_append, reverse_cons, append_assoc, singleton_append,
      dropWhile_append_of_pos]
    · simp
    · intro c member
      have other : c ≠ '/' := by
        rintro rfl
        exact last (mem_reverse.1 member)
      simpa using other
  rw [addelem, if_neg (by decide), if_pos rfl, dotdotname, String.toList_ofList, rest]
  rcases a with _ | ⟨c, a⟩
  · rfl
  · rcases back : (c :: a).reverse with _ | ⟨d, before⟩
    · simp at back
    · have whole : (d :: before).reverse = c :: a := by rw [← back, reverse_reverse]
      simp [whole]

theorem addelem_whole {a : Part} (whole : '/' ∉ a) : addelem (.ofList a) ".." = .ofList a := by
  have rest : a.reverse.dropWhile (· != '/') = [] := by
    rw [dropWhile_eq_nil_iff]
    intro c member
    have other : c ≠ '/' := by
      rintro rfl
      exact whole (mem_reverse.1 member)
    simpa using other
  rw [addelem, if_neg (by decide), if_pos rfl, dotdotname, String.toList_ofList, rest]

theorem addelem_name {a : Part} (dot : e ≠ ['.']) (back : e ≠ ['.', '.']) :
    addelem (.ofList a) (.ofList e) =
      .ofList (if a.getLast? = some '/' then a ++ e else a ++ '/' :: e) := by
  have one : String.ofList e ≠ "." := fun same => dot (String.ofList_injective same)
  have two : String.ofList e ≠ ".." := fun same => back (String.ofList_injective same)
  rw [addelem, if_neg one, if_neg two, String.toList_ofList]
  apply String.toList_inj.1
  split_ifs
  · simp
  · simp

theorem path_concat_nil (e : Part) : r.path [e] =
    if r.text.getLast? = some '/' then r.text ++ e else r.text ++ '/' :: e := by
  rcases r with _ | _ | ⟨name, whole⟩
  · simp [Root.path, Root.text, slashed, List.intercalate, List.intersperse]
  · simp [Root.path, Root.text, slashed, List.intercalate, List.intersperse]
  · have last : ('#' :: name).getLast? ≠ some '/' := by
      intro last
      have member := mem_of_getLast? last
      simp [whole] at member
    rw [Root.text, if_neg last]
    simp [Root.path, slashed, List.intercalate, List.intersperse]

theorem path_concat (some_ : names ≠ []) (e : Part) :
    r.path (names ++ [e]) = r.path names ++ '/' :: e := by
  have more : names ++ [e] ≠ [] := by simp
  rcases r with _ | _ | ⟨name, whole⟩
  · simp only [Root.path, if_neg some_, if_neg more]
    rw [← cons_append, slashed_concat (by simp)]
  · simp only [Root.path, if_neg some_, if_neg more]
    rw [← cons_append, slashed_concat (by simp)]
  · simp only [Root.path, if_neg some_, if_neg more]
    rw [← cons_append, slashed_concat (by simp)]

theorem path_nil : r.path [] = r.text := by
  unfold Root.path
  rw [if_pos rfl]

theorem text_ne_nil : r.text ≠ [] := by
  rcases r with _ | _ | _ <;> simp [Root.text]

theorem text_prefix : r.text <+: r.path names := by
  induction names using List.reverseRecOn with
  | nil => rw [path_nil]
  | append_singleton names e ih =>
      rcases names with _ | ⟨n, names⟩
      · rw [nil_append, path_concat_nil]
        split_ifs <;> exact prefix_append ..
      · rw [path_concat (by simp)]
        exact ih.trans (prefix_append ..)

theorem path_ne_nil : r.path names ≠ [] := by
  intro empty
  have begins : r.text <+: r.path names := text_prefix
  rw [empty, prefix_nil] at begins
  exact text_ne_nil begins

theorem getLast_path (some_ : names ≠ []) (elems : ∀ n ∈ names, Elem n) :
    (r.path names).getLast? ≠ some '/' := by
  rcases eq_nil_or_concat names with rfl | ⟨before, n, rfl⟩
  · exact absurd rfl some_
  · have plain := elems n (by simp)
    have ends : ∃ a, r.path (before ++ [n]) = a ++ n := by
      rcases before with _ | ⟨m, before⟩
      · rw [nil_append, path_concat_nil]
        split_ifs
        · exact ⟨_, rfl⟩
        · exact ⟨r.text ++ ['/'], by simp⟩
      · rw [path_concat (by simp)]
        exact ⟨r.path (m :: before) ++ ['/'], by simp⟩
    rcases ends with ⟨a, ends⟩
    rw [concat_eq_append, ends, List.getLast?_append_of_ne_nil _ plain.1]
    intro last
    exact plain.2 (mem_of_getLast? last)

theorem addelem_path (elems : ∀ n ∈ names, Elem n) (dot : e ≠ ['.']) (back : e ≠ ['.', '.']) :
    addelem (.ofList (r.path names)) (.ofList e) = .ofList (r.path (names ++ [e])) := by
  rw [addelem_name dot back]
  rcases names with _ | ⟨n, names⟩
  · rw [nil_append, path_nil, path_concat_nil]
  · rw [if_neg (getLast_path (by simp) elems), path_concat (by simp)]

theorem back_path (elem : Elem e) (kept : r ≠ .sharp ∨ names ≠ []) :
    addelem (.ofList (r.path (names ++ [e]))) ".." = .ofList (r.path names) := by
  rcases names with _ | ⟨n, names⟩
  · rw [nil_append]
    rcases r with _ | _ | ⟨name, whole⟩
    · have line : Root.slash.path [e] = [] ++ '/' :: e := by
        rw [path_concat_nil]
        rfl
      rw [line, addelem_back elem.2, if_pos rfl, path_nil]
      rfl
    · simp at kept
    · rw [path_concat_nil, path_nil, if_neg, addelem_back elem.2, if_neg text_ne_nil]
      intro last
      have member := mem_of_getLast? last
      simp [Root.text, whole] at member
  · rw [path_concat (by simp), addelem_back elem.2, if_neg path_ne_nil]

theorem back_root (kept : r ≠ .sharp) :
    addelem (.ofList (r.path [])) ".." = .ofList (r.path []) := by
  rcases r with _ | _ | ⟨name, whole⟩
  · decide
  · exact absurd rfl kept
  · apply addelem_whole
    simp [Root.path, Root.text, whole]

theorem lead_elems (before : ∀ n ∈ names, Elem n) (elem : Elem e) : ∀ n ∈ lead names e, Elem n := by
  intro n member
  rw [lead] at member
  split_ifs at member
  · exact before n member
  · exact before n (dropLast_subset names member)
  · rcases mem_append.1 member with old | new
    · exact before n old
    · rw [mem_singleton.1 new]
      exact elem

theorem addelem_lead (elems : ∀ n ∈ names, Elem n)
    (kept : r ≠ .sharp ∨ ¬(e = ['.', '.'] ∧ names.length ≤ 1)) :
    addelem (.ofList (r.path names)) (.ofList e) = .ofList (r.path (lead names e)) := by
  rw [lead]
  split_ifs with dot back
  · rw [dot]
    exact addelem_dot _
  · rw [back]
    rcases eq_nil_or_concat names with rfl | ⟨before, n, rfl⟩
    · apply back_root
      simpa [back] using kept
    · rw [concat_eq_append, dropLast_concat]
      apply back_path (elems n (by simp))
      refine kept.imp_right ?_
      rintro long rfl
      exact long ⟨back, by simp⟩
  · exact addelem_path elems dot back

/-- `addelem` of the elements one after another, as `walk` does. -/
def walkedPath (path : Part) (elems : List Part) : String :=
  elems.foldl (fun path e => addelem path (.ofList e)) (.ofList path)

theorem walkedPath_cons {path path' : Part}
    (first : addelem (.ofList path) (.ofList e) = .ofList path') :
    walkedPath path (e :: elems) = walkedPath path' elems := by
  rw [walkedPath, foldl_cons, first, walkedPath]

theorem walkedPath_lead (kept : r ≠ .sharp) (before : ∀ n ∈ names, Elem n)
    (all : ∀ e ∈ elems, Elem e) :
    walkedPath (r.path names) elems = .ofList (r.path (elems.foldl lead names)) := by
  induction elems generalizing names with
  | nil => rfl
  | cons e elems ih =>
      rw [walkedPath_cons (addelem_lead before (.inl kept)), foldl_cons]
      exact ih (lead_elems before (all e (mem_cons_self ..))) fun e' member =>
        all e' (mem_cons_of_mem e member)

/-- What is left of the root device's root, once it is climbed from. -/
def Root.stump : Root := .device [] (by simp)

theorem stump_path (some_ : names ≠ []) : Root.stump.path names = Root.sharp.path names := by
  simp only [Root.stump, Root.path, if_neg some_]

theorem addelem_stump (elems : ∀ n ∈ names, Elem n) (short : names.length ≤ 1) :
    addelem (.ofList (Root.sharp.path names)) (.ofList ['.', '.']) =
      .ofList (Root.stump.path []) := by
  rcases names with _ | ⟨n, _ | ⟨m, names⟩⟩
  · decide
  · have line : Root.sharp.path [n] = ['#'] ++ '/' :: n := by
      rw [path_concat_nil]
      rfl
    rw [line]
    exact addelem_back (elems n (mem_cons_self ..)).2
  · simp at short

theorem walkedPath_sharp (before : ∀ n ∈ names, Elem n) (all : ∀ e ∈ elems, Elem e)
    (some_ : elems.foldl lead names ≠ []) :
    walkedPath (Root.sharp.path names) elems =
      .ofList (Root.sharp.path (elems.foldl lead names)) := by
  induction elems generalizing names with
  | nil => rfl
  | cons e elems ih =>
      have rest : ∀ e' ∈ elems, Elem e' := fun e' member => all e' (mem_cons_of_mem e member)
      have elem := all e (mem_cons_self ..)
      rw [foldl_cons] at some_ ⊢
      by_cases back : e = ['.', '.'] ∧ names.length ≤ 1
      · have none_ : lead names e = [] := by
          rw [lead, if_neg (by simp [back.1]), if_pos back.1]
          rcases names with _ | ⟨n, _ | ⟨m, names⟩⟩
          · rfl
          · rfl
          · simp at back
        rw [none_] at some_ ⊢
        rw [walkedPath_cons (back.1 ▸ addelem_stump before back.2),
          walkedPath_lead (by simp [Root.stump]) (by simp) rest, stump_path some_]
      · rw [walkedPath_cons (addelem_lead before (.inr back))]
        exact ih (lead_elems before elem) rest some_

theorem lead_plain (before : ∀ n ∈ names, Plain n) (elem : Elem e) :
    ∀ n ∈ lead names e, Plain n := by
  intro n member
  rw [lead] at member
  split_ifs at member with dot back
  · exact before n member
  · exact before n (dropLast_subset names member)
  · rcases mem_append.1 member with old | new
    · exact before n old
    · rw [mem_singleton.1 new]
      exact ⟨elem, dot, back⟩

theorem not_last_back (before : ∀ n ∈ names, Plain n) : names.getLast? ≠ some ['.', '.'] :=
  fun last => (before _ (mem_of_getLast? last)).2.2 rfl

theorem cleanPart_rooted (before : ∀ n ∈ names, Plain n) (elem : Elem e) :
    cleanPart true names e = lead names e := by
  rw [cleanPart, lead]
  have last := not_last_back before
  by_cases dot : e = ['.']
  · rw [if_pos (.inr dot), if_pos dot]
  · rw [if_neg (not_or.2 ⟨elem.1, dot⟩), if_neg dot]
    by_cases back : e = ['.', '.']
    · rw [if_pos back, if_pos back]
      by_cases none_ : names = []
      · rw [none_]
        rfl
      · rw [if_pos ⟨none_, last⟩]
    · rw [if_neg back, if_neg back]

theorem cleanPart_below (before : ∀ n ∈ names, Plain n) (elem : Elem e)
    (first : h ≠ ['.', '.']) :
    cleanPart false (h :: names) e =
      if e = ['.', '.'] ∧ names = [] then [] else h :: lead names e := by
  rw [cleanPart, lead]
  have last : (h :: names).getLast? ≠ some ['.', '.'] := by
    rcases names with _ | ⟨n, names⟩
    · simpa using first
    · rw [List.getLast?_cons_cons]
      exact not_last_back before
  by_cases dot : e = ['.']
  · rw [if_pos (.inr dot), if_pos dot, if_neg (by simp [dot])]
  · rw [if_neg (not_or.2 ⟨elem.1, dot⟩), if_neg dot]
    by_cases back : e = ['.', '.']
    · rw [if_pos back, if_pos ⟨by simp, last⟩, if_pos back]
      rcases names with _ | ⟨n, names⟩
      · rw [if_pos ⟨back, rfl⟩]
        rfl
      · rw [if_neg (by simp), dropLast_cons_cons]
    · rw [if_neg back, if_neg back, if_neg fun both => back both.1, cons_append]

theorem cleanPart_above (k : Nat) (before : ∀ n ∈ names, Plain n) (elem : Elem e) :
    ∃ k', cleanPart false (List.replicate k ['.', '.'] ++ names) e =
      List.replicate k' ['.', '.'] ++ lead names e := by
  rw [cleanPart, lead]
  by_cases dot : e = ['.']
  · exact ⟨k, by rw [if_pos (.inr dot), if_pos dot]⟩
  · rw [if_neg (not_or.2 ⟨elem.1, dot⟩), if_neg dot]
    by_cases back : e = ['.', '.']
    · rw [if_pos back, if_pos back]
      by_cases none_ : names = []
      · refine ⟨k + 1, ?_⟩
        rw [none_, append_nil, back, if_neg, Bool.not_false, if_pos rfl,
          replicate_succ', dropLast_nil, append_nil]
        rintro ⟨some_, last⟩
        rcases k with _ | k
        · exact some_ rfl
        · simp [List.getLast?_replicate] at last
      · refine ⟨k, ?_⟩
        rw [if_pos, dropLast_append_of_ne_nil none_]
        refine ⟨by simp [none_], ?_⟩
        rw [List.getLast?_append_of_ne_nil _ none_]
        exact not_last_back before
    · exact ⟨k, by rw [if_neg back, if_neg back, append_assoc]⟩

theorem fold_rooted (before : ∀ n ∈ names, Plain n) (all : ∀ e ∈ elems, Elem e) :
    elems.foldl (cleanPart true) names = elems.foldl lead names := by
  induction elems generalizing names with
  | nil => rfl
  | cons e elems ih =>
      have elem := all e (mem_cons_self ..)
      rw [foldl_cons, foldl_cons, cleanPart_rooted before elem]
      exact ih (lead_plain before elem) fun e' member => all e' (mem_cons_of_mem e member)

theorem fold_above (k : Nat) (before : ∀ n ∈ names, Plain n) (all : ∀ e ∈ elems, Elem e) :
    ∃ k', elems.foldl (cleanPart false) (List.replicate k ['.', '.'] ++ names) =
      List.replicate k' ['.', '.'] ++ elems.foldl lead names := by
  induction elems generalizing names k with
  | nil => exact ⟨k, rfl⟩
  | cons e elems ih =>
      have elem := all e (mem_cons_self ..)
      rcases cleanPart_above k before elem with ⟨k', one⟩
      rw [foldl_cons, foldl_cons, one]
      exact ih k' (lead_plain before elem) fun e' member => all e' (mem_cons_of_mem e member)

theorem fold_below (before : ∀ n ∈ names, Plain n) (all : ∀ e ∈ elems, Elem e)
    (first : h ≠ ['.', '.']) :
    (climbs names elems = false →
      elems.foldl (cleanPart false) (h :: names) = h :: elems.foldl lead names) ∧
    (climbs names elems = true → ∃ k, elems.foldl (cleanPart false) (h :: names) =
      List.replicate k ['.', '.'] ++ elems.foldl lead names) := by
  induction elems generalizing names with
  | nil => exact ⟨fun _ => rfl, by simp [climbs]⟩
  | cons e elems ih =>
      have elem := all e (mem_cons_self ..)
      have rest : ∀ e' ∈ elems, Elem e' := fun e' member => all e' (mem_cons_of_mem e member)
      rw [foldl_cons, foldl_cons, cleanPart_below before elem first, climbs]
      by_cases up : e = ['.', '.'] ∧ names = []
      · rw [if_pos up]
        refine ⟨by simp [up], fun _ => ?_⟩
        have none_ : lead names e = [] := by
          rw [lead, if_neg (by simp [up.1]), if_pos up.1, up.2]
          rfl
        rw [none_]
        exact fold_above 0 (by simp) rest
      · rw [if_neg up, decide_eq_false up, Bool.false_or]
        exact ih (lead_plain before elem) rest

def Root.written (r : Root) (names : List Part) : List Part :=
  match r with
  | slash => if names = [] then [[], []] else [] :: names
  | sharp => if names = [] then [['#'], []] else ['#'] :: names
  | device name _ => ('#' :: name) :: names

theorem slashed_written : slashed (r.written names) = r.path names := by
  rcases r with _ | _ | ⟨name, whole⟩
  · rcases names with _ | ⟨n, names⟩ <;> rfl
  · rcases names with _ | ⟨n, names⟩ <;> rfl
  · rcases names with _ | ⟨n, names⟩
    · simp [Root.written, path_nil, Root.text, slashed, List.intercalate]
    · rfl

theorem written_whole (before : ∀ n ∈ names, Plain n) : ∀ p ∈ r.written names, '/' ∉ p := by
  have plain : ∀ n ∈ names, '/' ∉ n := fun n member => (before n member).1.2
  rcases r with _ | _ | ⟨name, whole⟩
  · rw [Root.written]
    split_ifs
    · simp
    · simpa using plain
  · rw [Root.written]
    split_ifs
    · simp
    · simpa using plain
  · simpa [Root.written, whole] using plain

theorem written_ne_nil : r.written names ≠ [] := by
  rcases r with _ | _ | ⟨name, whole⟩
  · rw [Root.written]
    split_ifs <;> simp
  · rw [Root.written]
    split_ifs <;> simp
  · simp [Root.written]

theorem splitOn_appended (before : ∀ n ∈ names, Plain n) (all : ∀ e ∈ elems, Elem e) :
    (appended (r.path names) elems).splitOn '/' = r.written names ++ elems := by
  rw [← slashed_written, appended_slashed written_ne_nil]
  apply splitOn_slashed (by simp [written_ne_nil])
  intro p member
  rcases mem_append.1 member with old | new
  · exact written_whole before p old
  · exact (all p new).2

theorem prefix_appended (path : Part) (elems : List Part) : path <+: appended path elems := by
  induction elems generalizing path with
  | nil => exact prefix_rfl
  | cons e elems ih =>
      rw [appended, foldl_cons]
      exact (prefix_append ..).trans (ih (path ++ '/' :: e))

theorem head_appended : (appended (r.path names) elems).head? = r.text.head? := by
  rcases text_prefix.trans (prefix_appended (r.path names) elems) with ⟨rest, whole⟩
  rw [← whole, List.head?_append_of_ne_nil _ text_ne_nil]

theorem slashed_cons (some_ : names ≠ []) : slashed (n :: names) = n ++ '/' :: slashed names := by
  rcases names with _ | ⟨m, names⟩
  · exact absurd rfl some_
  · simp [slashed, List.intercalate, List.intersperse]

theorem fold_plain (plain : ∀ e ∈ elems, Plain e) (names : List Part) :
    elems.foldl lead names = names ++ elems ∧ climbs names elems = false := by
  induction elems generalizing names with
  | nil => exact ⟨by simp, rfl⟩
  | cons e elems ih =>
      have here := plain e (mem_cons_self ..)
      have one : lead names e = names ++ [e] := by rw [lead, if_neg here.2.1, if_neg here.2.2]
      have rest := ih (fun e' member => plain e' (mem_cons_of_mem e member)) (names ++ [e])
      rw [foldl_cons, climbs, one, rest.1, rest.2]
      simp [here.2.2]

theorem elems_of_plain (plain : ∀ e ∈ elems, Plain e) : ∀ e ∈ elems, Elem e :=
  fun e member => (plain e member).1

theorem clean_slash (before : ∀ n ∈ names, Plain n) (all : ∀ e ∈ elems, Elem e) :
    clean (.ofList (appended (Root.slash.path names) elems)) =
      .ofList (Root.slash.path (elems.foldl lead names)) := by
  have start : (Root.slash.written names).foldl (cleanPart true) [] = names := by
    rw [Root.written]
    split_ifs with none_
    · rw [none_]
      rfl
    · rw [foldl_cons]
      have none_ : ∀ n ∈ ([] : List Part), Plain n := by simp
      have rest := fold_rooted none_ (elems_of_plain before)
      rw [(fold_plain before []).1] at rest
      exact rest
  have rooted : (appended (Root.slash.path names) elems).head? = some '/' := head_appended
  simp only [clean, String.toList_ofList, rooted, decide_true, if_true, splitOn_appended before all,
    foldl_append, start, fold_rooted before all]
  congr 1
  rcases elems.foldl lead names with _ | ⟨n, ns⟩
  · rfl
  · rw [← nil_append ('/' :: slashed (n :: ns)), ← slashed_cons (by simp)]
    rfl

def Root.head : Root → Part
  | slash => []
  | sharp => ['#']
  | device name _ => '#' :: name

theorem clean_below (kept : r ≠ .slash) (before : ∀ n ∈ names, Plain n)
    (all : ∀ e ∈ elems, Elem e) :
    (climbs names elems = false → clean (.ofList (appended (r.path names) elems)) =
      .ofList (slashed (r.head :: elems.foldl lead names))) ∧
    (climbs names elems = true → ∃ k, clean (.ofList (appended (r.path names) elems)) =
      if List.replicate k ['.', '.'] ++ elems.foldl lead names = [] then "."
      else .ofList (slashed (List.replicate k ['.', '.'] ++ elems.foldl lead names))) := by
  have first : r.head ≠ ['.', '.'] := by
    rcases r with _ | _ | _ <;> simp [Root.head]
  have start : (r.written names).foldl (cleanPart false) [] = r.head :: names := by
    have none_ : ∀ n ∈ ([] : List Part), Plain n := by simp
    have rest := (fold_below none_ (elems_of_plain before) first).1
      (fold_plain before []).2
    rw [(fold_plain before []).1, nil_append] at rest
    rcases r with _ | _ | ⟨name, whole⟩
    · exact absurd rfl kept
    · rw [Root.written]
      split_ifs with none_
      · rw [none_]
        rfl
      · exact rest
    · have one : cleanPart false [] ('#' :: name) = ['#' :: name] := by simp [cleanPart]
      rw [Root.written, foldl_cons, one]
      exact rest
  have rooted : (appended (r.path names) elems).head? = some '#' := by
    rw [head_appended]
    rcases r with _ | _ | _
    · exact absurd rfl kept
    · rfl
    · rfl
  have both := fold_below before all first
  simp only [clean, String.toList_ofList, rooted, Option.some.injEq, Char.reduceEq, decide_false,
    Bool.false_eq_true, if_false, splitOn_appended before all, foldl_append, start]
  refine ⟨fun stays => ?_, fun up => ?_⟩
  · rw [both.1 stays, if_neg (by simp)]
  · rcases both.2 up with ⟨k, out⟩
    exact ⟨k, by rw [out]⟩

/-- The two cleaners agree on a path and elements, the path is not above its root, and cleaning it
again changes nothing. -/
structure Agrees (p : Rooted) (elems : List Part) : Prop where
  cleaned : walkedPath p.path elems = clean (.ofList (appended p.path elems))
  below : p.root.text <+: (walkedPath p.path elems).toList
  again : clean (walkedPath p.path elems) = walkedPath p.path elems

theorem leads_plain (before : ∀ n ∈ names, Plain n) (all : ∀ e ∈ elems, Elem e) :
    ∀ n ∈ elems.foldl lead names, Plain n := by
  induction elems generalizing names with
  | nil => exact before
  | cons e elems ih =>
      rw [foldl_cons]
      exact ih (lead_plain before (all e (mem_cons_self ..))) fun e' member =>
        all e' (mem_cons_of_mem e member)

theorem walkedPath_right (before : ∀ n ∈ names, Elem n) (all : ∀ e ∈ elems, Elem e)
    (kept : r = .sharp → elems.foldl lead names ≠ []) :
    walkedPath (r.path names) elems = .ofList (r.path (elems.foldl lead names)) := by
  by_cases sharp : r = .sharp
  · rw [sharp]
    exact walkedPath_sharp before all (kept sharp)
  · exact walkedPath_lead sharp before all

theorem slashed_head (other : r ≠ .slash) (kept : r = .sharp → names ≠ []) :
    slashed (r.head :: names) = r.path names := by
  rw [← slashed_written]
  rcases r with _ | _ | ⟨name, whole⟩
  · exact absurd rfl other
  · rw [Root.written, if_neg (kept rfl), Root.head]
  · rw [Root.written, Root.head]

/-- Cleaned all at once, a path leads where its elements lead, but where they climb. -/
theorem clean_right (before : ∀ n ∈ names, Plain n) (all : ∀ e ∈ elems, Elem e)
    (stays : r = .slash ∨ climbs names elems = false)
    (kept : r = .sharp → elems.foldl lead names ≠ []) :
    clean (.ofList (appended (r.path names) elems)) =
      .ofList (r.path (elems.foldl lead names)) := by
  by_cases slash : r = .slash
  · rw [slash]
    exact clean_slash before all
  · rw [(clean_below slash before all).1 (stays.resolve_left slash), slashed_head slash kept]

theorem clean_path (before : ∀ n ∈ names, Plain n) (kept : r = .sharp → names ≠ []) :
    clean (.ofList (r.path names)) = .ofList (r.path names) := by
  have none_ : ∀ e ∈ ([] : List Part), Elem e := by simp
  have whole := clean_right before none_ (.inr rfl) kept
  rw [appended, foldl_nil, foldl_nil] at whole
  exact whole

theorem slashed_length (some_ : names ≠ []) :
    (slashed (n :: names)).length = n.length + 1 + (slashed names).length := by
  rw [slashed_cons some_, length_append, length_cons]
  omega

theorem clean_lost (other : r ≠ .slash) (before : ∀ n ∈ names, Plain n) (all : ∀ e ∈ elems, Elem e)
    (up : climbs names elems = true)
    (right : walkedPath (r.path names) elems = clean (.ofList (appended (r.path names) elems)))
    (below : r.text <+: (walkedPath (r.path names) elems).toList) : False := by
  have sharps : r.text.head? = some '#' := by
    rcases r with _ | _ | _
    · exact absurd rfl other
    · rfl
    · rfl
  have front : (walkedPath (r.path names) elems).toList.head? = some '#' := by
    rcases below with ⟨rest, whole⟩
    rw [← whole, List.head?_append_of_ne_nil _ text_ne_nil, sharps]
  rcases (clean_below other before all).2 up with ⟨k, out⟩
  rw [right, out] at front
  split_ifs at front with none_
  · simp at front
  · rcases k with _ | k
    · have some_ : elems.foldl lead names ≠ [] := none_
      rw [walkedPath_right (fun n member => (before n member).1) all fun _ => some_, out,
        if_neg none_] at right
      have same := congrArg List.length (String.ofList_injective right)
      rw [← slashed_head other fun _ => some_, slashed_length some_] at same
      simp at same
    · rcases rest : List.replicate k ['.', '.'] ++ elems.foldl lead names with _ | ⟨m, ms⟩
      · rw [replicate_succ, cons_append, rest] at front
        simp [slashed, List.intercalate] at front
      · rw [replicate_succ, cons_append, rest, slashed_cons (by simp)] at front
        simp at front

/-- Folding `addelem` over the elements of a walk gives the path with the elements appended and
cleaned, below its root and clean, from `/` always, and from a device's root if and only if the
walk does not climb from it and, for the root device's, ends below it. -/
theorem agrees_iff (p : Rooted) (elems : List {e : Part // Elem e}) :
    Agrees p elems.unattach ↔ p.root = .slash ∨
      (climbs p.names elems.unattach = false ∧
        (p.root = .sharp → elems.unattach.foldl lead p.names ≠ [])) := by
  have all : ∀ e ∈ elems.unattach, Elem e := by
    intro e member
    rcases mem_unattach.1 member with ⟨elem, -⟩
    exact elem
  have before := p.plain
  constructor
  · intro agrees
    by_cases slash : p.root = .slash
    · exact .inl slash
    · right
      have stays : climbs p.names elems.unattach = false := by
        rw [← Bool.not_eq_true]
        intro up
        exact clean_lost slash before all up agrees.cleaned agrees.below
      refine ⟨stays, fun sharp none_ => ?_⟩
      have below := agrees.below
      have short : (walkedPath p.path elems.unattach).toList = ['#'] := by
        rw [agrees.cleaned, Rooted.path, (clean_below slash before all).1 stays, none_, sharp]
        simp [Root.head, slashed, List.intercalate]
      rw [short, sharp] at below
      exact absurd below.length_le (by decide)
  · intro held
    have stays : p.root = .slash ∨ climbs p.names elems.unattach = false :=
      held.imp_right And.left
    have kept : p.root = .sharp → elems.unattach.foldl lead p.names ≠ [] := by
      intro sharp
      rcases held with slash | ⟨-, kept⟩
      · rw [slash] at sharp
        cases sharp
      · exact kept sharp
    have led : walkedPath p.path elems.unattach =
        .ofList (p.root.path (elems.unattach.foldl lead p.names)) :=
      walkedPath_right (fun n member => (before n member).1) all kept
    constructor
    · rw [led, Rooted.path, clean_right before all stays kept]
    · rw [led, String.toList_ofList]
      exact text_prefix
    · rw [led]
      exact clean_path (leads_plain before all) kept

/-- From the root device's root, down and back gives a path that is not its. -/
theorem agrees_fails : ¬ Agrees ⟨.sharp, [], by simp⟩
    ([⟨['p', 'r', 'o', 'c'], by decide, by decide⟩, ⟨['.', '.'], by decide, by decide⟩] :
      List {e : Part // Elem e}).unattach := by
  intro agrees
  exact absurd agrees.below (by decide)

end Ipnx.Name
