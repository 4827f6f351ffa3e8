import Mathlib.Algebra.Order.BigOperators.Group.List
import Ipnx.Ninep.Dir

/-!
# Reading a directory

`devdirread` of `dev.rs`: as many entries as fit whole, from the one the last read stopped at. What
does not fit is left for the next read, also when nothing was read before it.
-/

namespace Ipnx.Ninep

open List

theorem Dir.convD2M_ne_nil (d : Dir) : d.convD2M ≠ [] := by
  intro empty
  have long := convD2M_length d
  rw [empty, length_nil] at long
  omega

/-- What is read, and `dri` after it; the index is one of 32 bits. -/
def devdirread (entries : List Dir) (n : Nat) (dri : UInt32) : Bytes × UInt32 :=
  match entries[dri.toNat]? with
  | none => ([], dri)
  | some d =>
      if n < d.convD2M.length then ([], dri)
      else
        let more := devdirread entries (n - d.convD2M.length) (dri + 1)
        (d.convD2M ++ more.1, more.2)
termination_by n
decreasing_by
  have bytes := length_pos_iff.2 d.convD2M_ne_nil
  omega

def dirreads (entries : List Dir) : List Nat → UInt32 → List Bytes
  | [], _ => []
  | n :: sizes, dri =>
      (devdirread entries n dri).1 :: dirreads entries sizes (devdirread entries n dri).2

/-- Answers that give the entries left: each a run of whole ones, in order and none twice; one with
no bytes only when all are given. -/
structure Whole (left : List Dir) (answers : List Bytes) : Prop where
  once : ∃ cuts : List (List Dir),
    answers = cuts.map (·.flatMap Dir.convD2M) ∧ cuts.flatten <+: left
  ends : ∀ before after, answers = before ++ [] :: after →
    before.flatten = left.flatMap Dir.convD2M

/-- They give every entry, when there are as many reads as there were entries. -/
structure Exact (left : List Dir) (answers : List Bytes) : Prop extends Whole left answers where
  every : left.length ≤ answers.length → answers.flatten = left.flatMap Dir.convD2M

/-- Each read has room for the entry it begins at, if there is one. -/
def Wide (entries : List Dir) : List Nat → UInt32 → Prop
  | [], _ => True
  | n :: sizes, dri =>
      (∀ d, entries[dri.toNat]? = some d → d.convD2M.length ≤ n) ∧
        Wide entries sizes (devdirread entries n dri).2

theorem eq_nil_of_flatMap {ds : List Dir} (empty : ds.flatMap Dir.convD2M = []) : ds = [] := by
  cases ds with
  | nil => rfl
  | cons d ds =>
      rw [flatMap_cons, append_eq_nil_iff] at empty
      exact absurd empty.1 d.convD2M_ne_nil

/-- Of the entries left a read gives the first ones; it gives none when there are none, or the next
does not fit. -/
theorem devdirread_spec {entries : List Dir} (few : entries.length < 2 ^ 32) (n : Nat)
    (dri : UInt32) :
    ∃ given, (devdirread entries n dri).1 = given.flatMap Dir.convD2M ∧
      entries.drop dri.toNat = given ++ entries.drop (devdirread entries n dri).2.toNat ∧
        (given = [] ↔ ∀ d, entries[dri.toNat]? = some d → n < d.convD2M.length) := by
  fun_induction devdirread entries n dri with
  | case1 n dri past =>
      refine ⟨[], rfl, rfl, ?_⟩
      simp [past]
  | case2 n dri d next small =>
      refine ⟨[], rfl, rfl, ?_⟩
      simp [next, small]
  | case3 n dri d next fits more ih =>
      rcases ih with ⟨given, read, left, _⟩
      have within : dri.toNat < entries.length := (List.getElem?_eq_some_iff.1 next).1
      have counted : (dri + 1).toNat = dri.toNat + 1 := by
        rw [UInt32.toNat_add]
        apply Nat.mod_eq_of_lt
        exact Nat.lt_of_le_of_lt within few
      refine ⟨d :: given, ?_, ?_, ?_⟩
      · rw [flatMap_cons, ← read]
      · rw [cons_append, ← left, counted]
        exact drop_eq_getElem?_toList_append.trans (by rw [next]; rfl)
      · constructor
        · rintro ⟨⟩
        · intro small
          exact absurd (small d next) fits

theorem flatten_cuts (cuts : List (List Dir)) :
    (cuts.map (·.flatMap Dir.convD2M)).flatten = cuts.flatten.flatMap Dir.convD2M := by
  induction cuts with
  | nil => rfl
  | cons cut cuts ih =>
      rw [map_cons, flatten_cons, flatten_cons, flatMap_append, ih]

theorem eq_of_flatMap {ds es left : List Dir} (hd : ds <+: left) (he : es <+: left)
    (same : ds.flatMap Dir.convD2M = es.flatMap Dir.convD2M) : ds = es := by
  rcases prefix_or_prefix_of_prefix hd he with ⟨more, rfl⟩ | ⟨more, rfl⟩
  · rw [flatMap_append, self_eq_append_right] at same
    rw [eq_nil_of_flatMap same, append_nil]
  · rw [flatMap_append, append_right_eq_self] at same
    rw [eq_nil_of_flatMap same, append_nil]

namespace Whole

variable {given left : List Dir} {answers : List Bytes}

/-- What is left after a read is given by the reads after it, and the read gave something, or
there was nothing to give. -/
theorem cons_iff :
    Whole (given ++ left) (given.flatMap Dir.convD2M :: answers) ↔
      Whole left answers ∧ (given = [] → left = []) := by
  constructor
  · intro whole
    rcases whole.once with ⟨cuts, reads, front⟩
    cases cuts with
    | nil => cases reads
    | cons cut cuts =>
        rw [map_cons, List.cons.injEq] at reads
        rw [flatten_cons] at front
        have same : given = cut :=
          eq_of_flatMap (prefix_append given left)
            ((prefix_append cut cuts.flatten).trans front) reads.1
        subst same
        constructor
        · constructor
          · exact ⟨cuts, reads.2, (prefix_append_right_inj given).1 front⟩
          · intro before after split_
            have all := whole.ends (given.flatMap Dir.convD2M :: before) after (by rw [split_]; rfl)
            rw [flatten_cons, flatMap_append] at all
            exact append_cancel_left all
        · rintro rfl
          have all := whole.ends [] answers rfl
          exact eq_nil_of_flatMap all.symm
  · rintro ⟨whole, stuck⟩
    constructor
    · rcases whole.once with ⟨cuts, rfl, front⟩
      refine ⟨given :: cuts, rfl, ?_⟩
      rw [flatten_cons]
      exact (prefix_append_right_inj given).2 front
    · intro before after split_
      cases before with
      | nil =>
          rw [nil_append, List.cons.injEq] at split_
          have none_ := eq_nil_of_flatMap split_.1
          rw [none_, stuck none_]
          rfl
      | cons first before =>
          rw [cons_append, List.cons.injEq] at split_
          rw [flatten_cons, ← split_.1, whole.ends before after split_.2, flatMap_append]

theorem exact (whole : Whole left answers) : Exact left answers := by
  refine ⟨whole, fun enough => ?_⟩
  rcases whole.once with ⟨cuts, reads, front⟩
  have flat : answers.flatten = cuts.flatten.flatMap Dir.convD2M := by
    rw [reads]
    exact flatten_cuts cuts
  rcases front with ⟨missing, total⟩
  by_cases stop : [] ∈ answers
  · rcases append_of_mem stop with ⟨before, after, split_⟩
    have all := whole.ends before after split_
    have bytes : answers.flatten = left.flatMap Dir.convD2M ++ after.flatten := by
      rw [split_, flatten_append, all]
      rfl
    have long := congrArg (fun ds => (ds.flatMap Dir.convD2M).length) total
    have longer := congrArg List.length (flat.symm.trans bytes)
    simp only [flatMap_append, length_append] at long longer
    have none_ : after.flatten = [] := eq_nil_of_length_eq_zero (by omega)
    rw [bytes, none_, append_nil]
  · have some_ : ∀ cut ∈ cuts, 1 ≤ cut.length := by
      intro cut mem
      apply length_pos_iff.2
      rintro rfl
      apply stop
      rw [reads]
      exact mem_map.2 ⟨[], mem, rfl⟩
    have many : cuts.length ≤ cuts.flatten.length := by
      rw [length_flatten, ← length_map List.length]
      apply length_le_sum_of_one_le
      intro k counted
      rcases mem_map.1 counted with ⟨cut, mem, rfl⟩
      exact some_ cut mem
    have counts := congrArg List.length total
    rw [reads, length_map] at enough
    rw [length_append] at counts
    have none_ : missing = [] := eq_nil_of_length_eq_zero (by omega)
    rw [flat, ← total, none_, append_nil]

end Whole

/-- Reads from an index give what is left there exactly just when each has room for its first
entry. -/
theorem whole_iff {entries : List Dir} (few : entries.length < 2 ^ 32) (sizes : List Nat)
    (dri : UInt32) :
    Whole (entries.drop dri.toNat) (dirreads entries sizes dri) ↔ Wide entries sizes dri := by
  induction sizes generalizing dri with
  | nil =>
      refine ⟨fun _ => trivial, fun _ => ⟨⟨[], rfl, nil_prefix⟩, ?_⟩⟩
      intro before after split_
      simp [dirreads] at split_
  | cons n sizes ih =>
      rcases devdirread_spec few n dri with ⟨given, read, left, none_⟩
      have stuck : (given = [] → entries.drop (devdirread entries n dri).2.toNat = []) ↔
          ∀ d, entries[dri.toNat]? = some d → d.convD2M.length ≤ n := by
        constructor
        · intro ended d next
          by_contra small
          have none' : given = [] := by
            apply none_.2
            intro d' next'
            rw [next, Option.some.injEq] at next'
            rw [← next']
            omega
          rw [none', ended none', append_nil, drop_eq_nil_iff] at left
          have within := (List.getElem?_eq_some_iff.1 next).1
          omega
        · intro wide empty
          rw [empty, nil_append] at left
          rw [← left, drop_eq_nil_iff]
          by_contra within
          have next := List.getElem?_eq_getElem (Nat.lt_of_not_le within)
          have small := none_.1 empty _ next
          have fits := wide _ next
          omega
      rw [dirreads, Wide, left, read, Whole.cons_iff, ih, stuck, and_comm]

/-- A directory's entries are given exactly just when no read is too small for the one it begins
at. -/
theorem dirreads_exact (entries : List Dir) (few : entries.length < 2 ^ 32) (sizes : List Nat) :
    Exact entries (dirreads entries sizes 0) ↔ Wide entries sizes 0 := by
  rw [← whole_iff few]
  exact ⟨fun exact_ => exact_.toWhole, fun whole => whole.exact⟩

def someDir (name : String) : Dir :=
  ⟨0x65, 0, ⟨0, 0, 1⟩, 0o666, 0, 0, 0, name, "kitty", "kitty", "kitty"⟩

theorem dirreads_exact_path :
    [someDir "path", someDir "user"].length < 2 ^ 32 ∧
      (Exact [someDir "path", someDir "user"]
          (dirreads [someDir "path", someDir "user"] [70, 4096] 0) ↔
        Wide [someDir "path", someDir "user"] [70, 4096] 0) :=
  ⟨by decide, dirreads_exact [someDir "path", someDir "user"] (by decide) [70, 4096]⟩

/-- A read of 20 bytes, of a directory with an entry, is answered as at its end. -/
theorem dirreads_fails : ¬ Exact [someDir "path"] (dirreads [someDir "path"] [20] 0) := by
  intro exact_
  have small : (devdirread [someDir "path"] 20 0).1 = [] := by
    rw [devdirread]
    decide
  have all := exact_.ends [] [] (by rw [dirreads, small]; rfl)
  have none_ := eq_nil_of_flatMap all.symm
  cases none_

end Ipnx.Ninep
