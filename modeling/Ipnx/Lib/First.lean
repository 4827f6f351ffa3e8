import Mathlib.Data.List.Count
import Mathlib.Data.List.Nodup

/-!
# The first few of a list

The first few elements of a list that are of some kind are changed, and told. What a list is
counted by is counted again after.
-/

namespace Ipnx

open List

universe u v

variable {α : Type u} {β : Type v} {p q : α → Bool} {f : α → α} {g : α → β} {n : Nat} {l : List α}

/-- Change the first `n` of a kind; those that were changed, as they were, and the list. -/
def changeFirst (p : α → Bool) (f : α → α) : Nat → List α → List α × List α
  | 0, l => ([], l)
  | _, [] => ([], [])
  | n + 1, a :: l =>
      if p a then
        let (changed, l) := changeFirst p f n l
        (a :: changed, f a :: l)
      else
        let (changed, l) := changeFirst p f (n + 1) l
        (changed, a :: l)

/-- What the change leaves of each element is left of the list. -/
theorem map_changeFirst (keeps : ∀ a, g (f a) = g a) :
    (changeFirst p f n l).2.map g = l.map g := by
  fun_induction changeFirst p f n l with
  | case1 => rfl
  | case2 => rfl
  | case3 n a l is changed l' same ih =>
      rw [same] at ih
      rw [map_cons, map_cons, keeps, ih]
  | case4 n a l isnt changed l' same ih =>
      rw [same] at ih
      rw [map_cons, map_cons, ih]

/-- But for order, the list is those that were changed and others, and after it those changed and
the same others; they are of the kind, and as many as there were, up to `n`. -/
theorem changeFirst_perm : ∃ others,
    l.Perm ((changeFirst p f n l).1 ++ others) ∧
    (changeFirst p f n l).2.Perm ((changeFirst p f n l).1.map f ++ others) ∧
    (∀ a ∈ (changeFirst p f n l).1, p a = true) ∧
    (changeFirst p f n l).1.length = min n (l.countP p) := by
  fun_induction changeFirst p f n l with
  | case1 l => exact ⟨l, .rfl, .rfl, by simp, by simp⟩
  | case2 => exact ⟨[], .rfl, .rfl, by simp, by simp⟩
  | case3 n a l is changed l' same ih =>
      rw [same] at ih
      rcases ih with ⟨others, before, after, kind, count⟩
      refine ⟨others, before.cons a, after.cons (f a), ?_, ?_⟩
      · intro b there
        rcases mem_cons.mp there with rfl | later
        · exact is
        · exact kind b later
      · rw [countP_cons_of_pos is, length_cons]
        dsimp only at count
        omega
  | case4 n a l isnt changed l' same ih =>
      rw [same] at ih
      rcases ih with ⟨others, before, after, kind, count⟩
      refine ⟨a :: others, ?_, ?_, kind, ?_⟩
      · exact (before.cons a).trans perm_middle.symm
      · exact (after.cons a).trans perm_middle.symm
      · rw [countP_cons_of_neg isnt]
        exact count

/-- Those that were changed were in the list, and of the kind. -/
theorem changed_mem {a : α} (there : a ∈ (changeFirst p f n l).1) : a ∈ l ∧ p a = true := by
  rcases changeFirst_perm (p := p) (f := f) (n := n) (l := l) with ⟨others, before, -, kind, -⟩
  exact ⟨before.mem_iff.2 (mem_append_left others there), kind a there⟩

/-- What is in the list after was there, or is one that was changed. -/
theorem mem_changeFirst {a : α} (there : a ∈ (changeFirst p f n l).2) :
    a ∈ l ∨ ∃ b ∈ (changeFirst p f n l).1, a = f b := by
  rcases changeFirst_perm (p := p) (f := f) (n := n) (l := l) with ⟨others, before, after, -⟩
  rcases mem_append.1 (after.mem_iff.1 there) with changed | other
  · rcases mem_map.1 changed with ⟨b, mine, rfl⟩
    exact .inr ⟨b, mine, rfl⟩
  · exact .inl (before.mem_iff.2 (mem_append_right _ other))

/-- What is counted of the list after is what was, but for those that were changed. -/
theorem countP_changed : (changeFirst p f n l).2.countP q + (changeFirst p f n l).1.countP q =
    l.countP q + (changeFirst p f n l).1.countP fun a => q (f a) := by
  rcases changeFirst_perm (p := p) (f := f) (n := n) (l := l) with ⟨others, before, after, -⟩
  have mapped : ((changeFirst p f n l).1.map f).countP q =
      (changeFirst p f n l).1.countP fun a => q (f a) := countP_map ..
  rw [after.countP_eq, countP_append, mapped]
  have whole := before.countP_eq q
  rw [countP_append] at whole
  omega

/-- Those that are all of a kind are as many as there were to change, up to `n`. -/
theorem countP_changed_all {q : α → Bool} (all : ∀ a, p a = true → q a = true) :
    (changeFirst p f n l).1.countP q = min n (l.countP p) := by
  rcases changeFirst_perm (p := p) (f := f) (n := n) (l := l) with ⟨_, -, -, kind, count⟩
  rw [← count]
  exact countP_eq_length.2 fun a there => all a (kind a there)

theorem countP_changed_none {q : α → Bool} (none_ : ∀ a, p a = true → q a = false) :
    (changeFirst p f n l).1.countP q = 0 := by
  rcases changeFirst_perm (p := p) (f := f) (n := n) (l := l) with ⟨_, -, -, kind, -⟩
  apply countP_eq_zero.2
  intro a there
  simp [none_ a (kind a there)]

/-- Those that become of another kind are as many as there were, up to `n`. -/
theorem countP_changeFirst (before : ∀ a, p a = true → q a = false)
    (after : ∀ a, p a = true → q (f a) = true) :
    (changeFirst p f n l).2.countP q = l.countP q + min n (l.countP p) := by
  have counted := countP_changed (p := p) (f := f) (q := q) (n := n) (l := l)
  rw [countP_changed_none before, countP_changed_all after] at counted
  exact counted

/-- And those that were of a kind, and are no longer. -/
theorem countP_changeFirst_loss (before : ∀ a, p a = true → q a = true)
    (after : ∀ a, p a = true → q (f a) = false) :
    (changeFirst p f n l).2.countP q + min n (l.countP p) = l.countP q := by
  have counted := countP_changed (p := p) (f := f) (q := q) (n := n) (l := l)
  rw [countP_changed_all before, countP_changed_none after] at counted
  exact counted

/-- What the change does not tell apart is counted as it was. -/
theorem countP_changeFirst_same (same : ∀ a, p a = true → q (f a) = q a) :
    (changeFirst p f n l).2.countP q = l.countP q := by
  have counted := countP_changed (p := p) (f := f) (q := q) (n := n) (l := l)
  have told : ((changeFirst p f n l).1.countP fun a => q (f a)) =
      (changeFirst p f n l).1.countP q := by
    apply countP_congr
    intro a there
    rw [same a (changed_mem there).2]
  omega

/-- Where the change leaves the kind, the first of it is the same one, changed. -/
theorem find?_changeFirst (keeps : ∀ a, p (f a) = p a) :
    (changeFirst p f 1 l).2.find? p = (l.find? p).map f := by
  induction l with
  | nil => rfl
  | cons a l ih =>
      by_cases is : p a = true
      · simp [changeFirst, is, keeps]
      · simp [changeFirst, is, ih]

/-- And taken out, it is as if it had not been changed. -/
theorem eraseP_changeFirst (keeps : ∀ a, p (f a) = p a) :
    (changeFirst p f 1 l).2.eraseP p = l.eraseP p := by
  induction l with
  | nil => rfl
  | cons a l ih =>
      by_cases is : p a = true
      · simp [changeFirst, is, keeps]
      · simp [changeFirst, is, ih]

/-- The first of a kind is counted, or is not. -/
theorem countP_eraseP {a : α} (found : l.find? p = some a) :
    l.countP q = (l.eraseP p).countP q + if q a then 1 else 0 := by
  induction l with
  | nil => cases found
  | cons b l ih =>
      by_cases is : p b = true
      · rw [List.find?_cons_of_pos is, Option.some_inj] at found
        subst found
        rw [eraseP_cons_of_pos is, countP_cons]
      · rw [List.find?_cons_of_neg is] at found
        rw [eraseP_cons_of_neg is, countP_cons, countP_cons, ih found]
        omega

/-- Where no two have one key, none has that of the one that was taken out. -/
theorem key_eraseP [DecidableEq β] {k : β} (nodup : (l.map g).Nodup) :
    ∀ a ∈ l.eraseP fun a => g a == k, g a ≠ k := by
  induction l with
  | nil => simp
  | cons b l ih =>
      rw [map_cons, nodup_cons] at nodup
      intro a there
      by_cases is : g b = k
      · rw [eraseP_cons_of_pos (by simp [is])] at there
        rintro same
        exact nodup.1 (mem_map.mpr ⟨a, there, same.trans is.symm⟩)
      · rw [eraseP_cons_of_neg (by simp [is]), mem_cons] at there
        rcases there with rfl | later
        · exact is
        · exact ih nodup.2 a later

/-- The first of a kind stands between others; it is what a change changes and what is taken out. -/
theorem first_between {a : α} (found : l.find? p = some a) :
    p a = true ∧ ∃ before after, l = before ++ a :: after ∧
      (changeFirst p f 1 l).2 = before ++ f a :: after ∧ l.eraseP p = before ++ after := by
  induction l with
  | nil => cases found
  | cons b l ih =>
      by_cases is : p b = true
      · rw [List.find?_cons_of_pos is, Option.some_inj] at found
        subst found
        exact ⟨is, [], l, rfl, by simp [changeFirst, is], eraseP_cons_of_pos is⟩
      · rw [List.find?_cons_of_neg is] at found
        rcases ih found with ⟨there, before, after, whole, changed, erased⟩
        refine ⟨there, b :: before, after, ?_, ?_, ?_⟩
        · rw [whole, cons_append]
        · simp [changeFirst, is, changed]
        · rw [eraseP_cons_of_neg is, erased, cons_append]

/-- Where no two have one key, each is found by its own. -/
theorem find_key [DecidableEq β] {a : α} (nodup : (l.map g).Nodup) (mem : a ∈ l) :
    l.find? (fun b => g b == g a) = some a := by
  induction l with
  | nil => cases mem
  | cons b l ih =>
      rw [map_cons, nodup_cons] at nodup
      by_cases same : g b = g a
      · rw [List.find?_cons_of_pos (by simp [same])]
        rcases mem_cons.mp mem with rfl | later
        · rfl
        · exact absurd (mem_map.mpr ⟨a, later, same.symm⟩) nodup.1
      · rw [List.find?_cons_of_neg (by simp [same])]
        rcases mem_cons.mp mem with rfl | later
        · exact absurd rfl same
        · exact ih nodup.2 later

end Ipnx
