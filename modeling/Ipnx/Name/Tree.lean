import Ipnx.Name.Walk

/-!
# Device trees

A file is what a channel's device, instance, qid and device word say it is; how the channel
was reached and the fid it goes by are not part of it. A tree says what each name in a file
leads to. `Tree.tab` is a device table that serves a tree: the devices of this kernel by
walking one name at a time, the mounted servers by answering a `Twalk` with the qids of the
names there are.
-/

namespace Ipnx.Name

open List

structure File where
  dev : DevId
  devno : UInt32
  qid : Qid
  aux : UInt64
deriving DecidableEq, Repr

def Chan.file (c : Chan) : File := ⟨c.dev, c.devno, c.qid, c.aux⟩

/-- What a name leads to in a file, or what the device says when there is none. Only a
directory has names in it, and no device is waited for. -/
structure Tree where
  child : File → String → Except String (Option Qid)
  leaf : ∀ f name q, child f name = .ok (some q) → f.qid.isDir = true
  awake : ∀ f name, child f name ≠ .error slept

namespace Tree

variable (t : Tree)

/-- The file a name leads to is served by the same device. -/
def next (f : File) (name : String) : Option Qid :=
  match t.child f name with
  | .ok q => q
  | .error _ => none

def qids (f : File) : List String → List Qid
  | [] => []
  | name :: names =>
      match t.next f name with
      | some q => q :: qids { f with qid := q } names
      | none => []

/-- A server's answer to a `Twalk`: an error if the first name is one. -/
def answer (f : File) (names : List String) : Except String (List Qid) :=
  match names with
  | [] => .ok []
  | name :: _ =>
      match t.child f name with
      | .error e => .error e
      | .ok _ => .ok (t.qids f names)

/-- The device table that serves the tree; its state is the last fid given out. -/
def tab : Devtab UInt32 where
  walk c name := (t.child c.file name).map fun q => q.map (c.walked name)
  newfid fid := (fid + 1, max fid (fid + 1))
  twalk c _ names fid := (t.answer c.file names, fid)
  hold _ _ fid := fid
  dclose _ fid := fid

/-- Where the names lead on the device alone, nothing being mounted along the way. -/
def along : Chan → List String → Option Chan
  | c, [] => some c
  | c, name :: names => (t.next c.file name).bind fun q => along (c.walked name q) names

end Tree

/-- What is left of a channel without its fid and the name it was reached by. -/
def Chan.less (c : Chan) : Chan := { c with fid := nofid, path := "" }

section Less

variable {c d : Chan}

theorem less_iff : c.less = d.less ↔ c.dev = d.dev ∧ c.devno = d.devno ∧ c.qid = d.qid ∧
    c.mode = d.mode ∧ c.flag = d.flag ∧ c.ismtpt = d.ismtpt ∧ c.aux = d.aux := by
  cases c
  cases d
  simp [Chan.less]

theorem file_of_less (like : c.less = d.less) : c.file = d.file := by
  obtain ⟨dev, devno, qid, _, _, _, aux⟩ := less_iff.1 like
  simp only [Chan.file, dev, devno, qid, aux]

theorem isDir_of_less (like : c.less = d.less) : c.isDir = d.isDir := by
  obtain ⟨_, _, qid, _⟩ := less_iff.1 like
  simp only [Chan.isDir, qid]

theorem eqchan_of_less (like : c.less = d.less) : eqchan c d = true := by
  obtain ⟨dev, devno, qid, _⟩ := less_iff.1 like
  exact eqchan_iff.2 ⟨by rw [qid], by rw [qid], dev, devno⟩

theorem walked_of_less (like : c.less = d.less) (name : String) (q : Qid) :
    (c.walked name q).less = (d.walked name q).less := by
  obtain ⟨dev, devno, _, mode, flag, _, aux⟩ := less_iff.1 like
  exact less_iff.2 ⟨dev, devno, rfl, mode, flag, rfl, aux⟩

@[simp]
theorem less_path (c : Chan) (path : String) : { c with path := path }.less = c.less := rfl

@[simp]
theorem less_fid (c : Chan) (fid : UInt32) : { c with fid := fid }.less = c.less := rfl

@[simp]
theorem file_walked (c : Chan) (name : String) (q : Qid) :
    (c.walked name q).file = { c.file with qid := q } := rfl

end Less

namespace Tree

variable {t : Tree} {c : Chan} {name : String} {names : List String} {q : Qid}

section Hit

variable (hit : t.next c.file name = some q)

include hit

theorem child_of_next : t.child c.file name = .ok (some q) := by
  unfold next at hit
  rcases answer : t.child c.file name with e | q'
  · rw [answer] at hit
    cases hit
  · rw [answer] at hit
    exact congrArg Except.ok hit

theorem isDir_of_next : c.isDir = true :=
  t.leaf c.file name q (child_of_next hit)

theorem along_cons : t.along c (name :: names) = t.along (c.walked name q) names := by
  rw [along, hit, Option.bind_some]

theorem qids_cons : t.qids c.file (name :: names) = q :: t.qids (c.walked name q).file names := by
  simp only [qids, hit, file_walked]

end Hit

theorem qids_miss (miss : t.next c.file name = none) : t.qids c.file (name :: names) = [] := by
  simp only [qids, miss]

theorem along_miss (miss : t.next c.file name = none) : t.along c (name :: names) = none := by
  rw [along, miss, Option.bind_none]

theorem length_qids (t : Tree) (f : File) (names : List String) :
    (t.qids f names).length ≤ names.length := by
  induction names generalizing f with
  | nil => exact Nat.le_refl _
  | cons name names ih =>
      rw [qids]
      split
      · exact Nat.succ_le_succ (ih _)
      · exact Nat.zero_le _

theorem along_of_less {d : Chan} (like : c.less = d.less) (names : List String) :
    (t.along c names).map Chan.less = (t.along d names).map Chan.less := by
  induction names generalizing c d with
  | nil => exact congrArg some like
  | cons name names ih =>
      rw [along, along, file_of_less like]
      rcases t.next d.file name with _ | q
      · rfl
      · exact ih (walked_of_less like name q)

theorem devwalk_after (t : Tree) (c : Chan) (names : List String) {qids : List Qid}
    (some : qids ≠ []) : t.tab.devwalk c names qids =
      .ok ⟨qids ++ t.qids c.file names, t.along c names⟩ := by
  induction names generalizing c qids with
  | nil => simp [Devtab.devwalk, Tree.qids, along]
  | cons name names ih =>
      rcases hit : t.next c.file name with _ | q
      · rw [qids_miss hit, along_miss hit, append_nil]
        simp only [Devtab.devwalk, tab]
        unfold next at hit
        rcases answer : t.child c.file name with e | q
        · simp [Except.map, some]
        · rw [answer] at hit
          simp [Except.map, show q = none from hit, some]
      · have answer := child_of_next hit
        have walked : t.tab.walk c name = .ok (Option.some (c.walked name q)) := by
          simp [tab, answer, Except.map]
        rw [qids_cons hit, along_cons hit, Devtab.devwalk, walked]
        simp only
        rw [ih (c.walked name q) (by simp)]
        simp [Chan.walked]

theorem foldl_along (t : Tree) (c : Chan) (names : List String)
    (all : (t.qids c.file names).length = names.length) :
    t.along c names =
      some ((names.zip (t.qids c.file names)).foldl (fun nc n => nc.walked n.1 n.2) c) := by
  induction names generalizing c with
  | nil => rfl
  | cons name names ih =>
      rcases hit : t.next c.file name with _ | q
      · rw [qids_miss hit] at all
        cases all
      · rw [qids_cons hit, length_cons, length_cons, Nat.add_right_cancel_iff] at all
        rw [qids_cons hit, along_cons hit, ih _ all, zip_cons_cons, foldl_cons]

theorem along_short (t : Tree) (c : Chan) (names : List String)
    (short : (t.qids c.file names).length < names.length) : t.along c names = none := by
  induction names generalizing c with
  | nil => cases short
  | cons name names ih =>
      rcases hit : t.next c.file name with _ | q
      · exact along_miss hit
      · rw [qids_cons hit, length_cons, length_cons, Nat.add_lt_add_iff_right] at short
        rw [along_cons hit, ih _ short]

theorem dwalkn_hit (hit : t.next c.file name = some q) (names : List String) (fid : UInt32) :
    ∃ wq fid', t.tab.dwalkn c (name :: names) fid = (.ok wq, fid') ∧
      wq.qids = t.qids c.file (name :: names) ∧
      wq.clone.map Chan.less = (t.along c (name :: names)).map Chan.less := by
  have answer := child_of_next hit
  by_cases mnt : c.dev = .mnt
  · have said : t.answer c.file (name :: names) = .ok (t.qids c.file (name :: names)) := by
      simp [Tree.answer, answer]
    have bound := t.length_qids c.file (name :: names)
    have nonempty : t.qids c.file (name :: names) ≠ [] := by
      rw [qids_cons hit]
      exact cons_ne_nil _ _
    rcases Nat.lt_or_eq_of_le bound with short | all
    · refine ⟨⟨t.qids c.file (name :: names), none⟩, max fid (fid + 1), ?_, rfl, ?_⟩
      · simp only [Devtab.dwalkn, mnt, if_true, Devtab.walkn, tab, said]
        rw [if_neg (by omega), if_neg (by simp [nonempty]), if_pos short]
      · rw [t.along_short c _ short]
    · let nc := ((name :: names).zip (t.qids c.file (name :: names))).foldl
        (fun nc n => nc.walked n.1 n.2) c
      refine ⟨⟨t.qids c.file (name :: names), some { nc with fid := fid + 1 }⟩,
        max fid (fid + 1), ?_, rfl, ?_⟩
      · simp only [Devtab.dwalkn, mnt, if_true, Devtab.walkn, tab, said]
        rw [if_neg (by omega), if_neg (by simp [nonempty]), if_neg (by omega)]
      · rw [t.foldl_along c _ all, Option.map_some, Option.map_some, less_fid]
  · refine ⟨⟨t.qids c.file (name :: names), t.along c (name :: names)⟩, fid, ?_, rfl, rfl⟩
    have walked : t.tab.walk c name = .ok (some (c.walked name q)) := by
      simp [tab, answer, Except.map]
    rw [Devtab.dwalkn, if_neg mnt, Devtab.devwalk, walked]
    simp only [nil_append]
    rw [devwalk_after t _ _ (cons_ne_nil _ _), qids_cons hit, along_cons hit]
    rfl

theorem dwalkn_miss (miss : t.next c.file name = none) (names : List String) (fid : UInt32) :
    ∃ e fid', t.tab.dwalkn c (name :: names) fid = (.error e, fid') ∧ e ≠ slept := by
  have none : t.qids c.file (name :: names) = [] := qids_miss miss
  unfold next at miss
  rcases answer : t.child c.file name with e | q
  · have awake : e ≠ slept := by
      rintro rfl
      exact t.awake _ _ answer
    by_cases mnt : c.dev = .mnt
    · refine ⟨e, max fid (fid + 1), ?_, awake⟩
      simp [Devtab.dwalkn, mnt, Devtab.walkn, tab, Tree.answer, answer]
    · refine ⟨e, fid, ?_, awake⟩
      simp [Devtab.dwalkn, mnt, Devtab.devwalk, tab, answer, Except.map]
  · rw [answer] at miss
    have missing : q = Option.none := miss
    subst missing
    by_cases mnt : c.dev = .mnt
    · refine ⟨enonexist, max fid (fid + 1), ?_, by decide⟩
      simp [Devtab.dwalkn, mnt, Devtab.walkn, tab, Tree.answer, answer, none]
    · refine ⟨enonexist, fid, ?_, by decide⟩
      simp [Devtab.dwalkn, mnt, Devtab.devwalk, tab, answer, Except.map]

end Tree

end Ipnx.Name
