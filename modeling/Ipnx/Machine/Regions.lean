import Ipnx.Machine.Workers

/-!
# Who shares with whom, and whose stack is where

The process whose stack is in the region may run, and the others' stacks are kept: an invariant of
the memories and the workers, and what keeps it of all that is done to them.
-/

namespace Ipnx.Workers

open Function (update update_apply update_eq_self update_of_ne update_self)

def Mach.Holds (m : Mach) (v : Worker) : Prop :=
  ∀ a, v.base ≤ a → a < v.top → m.mems v.mem a = v.own a

/-- Of the workers with one memory one runs, be it ended or not; and one that runs finds its stack
in the region. -/
structure Exclusive (m : Mach) : Prop where
  alone : ∀ p q v v', m.procs p = some v → m.procs q = some v' → v.Runs → v'.Runs →
    v.mem = v'.mem → p = q
  ended : ∀ p v, m.procs p = some v → v.Runs → v.mem ∉ m.adrift
  once : m.adrift.Nodup
  inplace : ∀ p v, m.procs p = some v → v.Runs → m.Holds v

/-- The process may run: its stack is in the region, if it shares it. -/
def Mach.In (m : Mach) (p : Pid) : Prop :=
  ∀ i, m.sharing p = some i → (m.groups i).occupant = some p

def Worker.Keeps (v : Worker) (kept : Nat × List UInt8) : Prop :=
  ∀ (mem : Mem) a, v.base ≤ a → a < v.top → splice mem kept.1 kept.2 a = v.own a

structure Shared (m : Mach) : Prop where
  mem_lt : ∀ p v, m.procs p = some v → v.mem < m.nmem
  low : ∀ p v, m.procs p = some v → v.low ≤ v.base
  member : ∀ p i, m.sharing p = some i →
    i < m.ngroup ∧ m.execd p = none ∧ ∃ v, m.procs p = some v ∧ v.top = (m.groups i).top
  together : ∀ p q i v v', m.sharing p = some i → m.sharing q = some i → m.procs p = some v →
    m.procs q = some v' → v.mem = v'.mem
  joined : ∀ p q v v', m.procs p = some v → m.procs q = some v' → p ≠ q → v.mem = v'.mem →
    m.execd p = none → m.execd q = none → ∃ i, m.sharing p = some i ∧ m.sharing q = some i
  occupant : ∀ i p, i < m.ngroup → (m.groups i).occupant = some p → m.sharing p = some i
  left : ∀ p, m.execd p ≠ none → ∃ v, m.procs p = some v ∧ ¬v.Runs
  runs : ∀ p v, m.procs p = some v → v.Runs → m.In p
  aside : ∀ p i v, m.sharing p = some i → m.procs p = some v →
    (m.groups i).occupant ≠ some p → ∃ kept, (m.groups i).stacks_ p = some kept ∧ v.Keeps kept
  inplace : ∀ p v, m.procs p = some v → m.execd p = none → m.In p → m.Holds v
  adrift_lt : ∀ i ∈ m.adrift, i < m.nmem
  adrift : ∀ p v, m.procs p = some v → v.mem ∉ m.adrift
  once : m.adrift.Nodup

variable {m m' : Mach} {p q : Pid} {v w : Worker} {i : Nat} {mem : Mem}

namespace Shared

theorem program (sh : Shared m) (there : m.procs p = some v) (runs : v.Runs) :
    m.execd p = none := by
  by_contra left
  rcases sh.left p left with ⟨v', found, waits⟩
  rw [there] at found
  cases found
  exact waits runs

theorem alone (sh : Shared m) (hp : m.procs p = some v) (hq : m.procs q = some w)
    (same : v.mem = w.mem) (leftp : m.execd p = none) (leftq : m.execd q = none) (inp : m.In p)
    (inq : m.In q) : p = q := by
  by_contra differ
  rcases sh.joined p q v w hp hq differ same leftp leftq with ⟨i, sharep, shareq⟩
  exact differ (Option.some.inj ((inp i sharep).symm.trans (inq i shareq)))

theorem exclusive (sh : Shared m) : Exclusive m where
  alone p q v w hp hq runsp runsq same :=
    sh.alone hp hq same (sh.program hp runsp) (sh.program hq runsq) (sh.runs p v hp runsp)
      (sh.runs q w hq runsq)
  ended p v there _ := sh.adrift p v there
  once := sh.once
  inplace p v there runs := sh.inplace p v there (sh.program there runs) (sh.runs p v there runs)

theorem setMem_self : m.setMem i (m.mems i) = m := by
  rw [Mach.setMem, update_eq_self]

theorem revise (sh : Shared m) (there : m.procs p = some v) (same : w.mem = v.mem)
    (top : w.top = v.top) (low : w.low ≤ w.base) (runs : w.Runs → m.In p ∧ m.execd p = none)
    (away : ∀ kept, ¬m.In p → v.Keeps kept → w.Keeps kept)
    (here : m.execd p = none → m.In p → ∀ a, w.base ≤ a → a < w.top → mem a = w.own a)
    (change : mem = m.mems v.mem ∨ m.execd p = none ∧ m.In p) :
    Shared ((m.setMem v.mem mem).setProc p w) := by
  set m' := (m.setMem v.mem mem).setProc p w with made_def
  have of {q : Pid} {u : Worker} (found : m'.procs q = some u) :
      ∃ u₀, m.procs q = some u₀ ∧ u.mem = u₀.mem ∧ u.top = u₀.top := by
    by_cases self : q = p
    · subst self
      have eq : w = u := by simpa [made_def, Mach.setProc] using found
      subst eq
      exact ⟨v, there, same, top⟩
    · have found : m.procs q = some u := by
        simpa [made_def, Mach.setProc, Mach.setMem, self] using found
      exact ⟨u, found, rfl, rfl⟩
  have case {q : Pid} {u : Worker} (found : m'.procs q = some u) :
      q = p ∧ u = w ∨ q ≠ p ∧ m.procs q = some u := by
    by_cases self : q = p
    · subst self
      exact .inl ⟨rfl, by simpa [made_def, Mach.setProc, eq_comm] using found⟩
    · exact .inr ⟨self, by simpa [made_def, Mach.setProc, Mach.setMem, self] using found⟩
  have some_ {q : Pid} {u₀ : Worker} (found : m.procs q = some u₀) :
      ∃ u, m'.procs q = some u ∧ u.top = u₀.top ∧ (u.Runs → u₀.Runs ∨ q = p) := by
    by_cases self : q = p
    · subst self
      have eq : v = u₀ := Option.some.inj (there.symm.trans found)
      subst eq
      exact ⟨w, by simp [made_def, Mach.setProc], top, fun _ => .inr rfl⟩
    · exact ⟨u₀, by simpa [made_def, Mach.setProc, Mach.setMem, self] using found, rfl, .inl⟩
  refine ⟨?_, ?_, ?_, ?_, ?_, sh.occupant, ?_, ?_, ?_, ?_, sh.adrift_lt, ?_, sh.once⟩
  · intro q u found
    rcases of found with ⟨u₀, found₀, mem_, _⟩
    exact mem_ ▸ sh.mem_lt q u₀ found₀
  · intro q u found
    rcases case found with ⟨rfl, rfl⟩ | ⟨_, found₀⟩
    · exact low
    · exact sh.low q u found₀
  · intro q i shares
    rcases sh.member q i shares with ⟨lt, image, u₀, found₀, top₀⟩
    rcases some_ found₀ with ⟨u, found, top_, _⟩
    exact ⟨lt, image, u, found, top_.trans top₀⟩
  · intro q r i u u' shareq sharer hq hr
    rcases of hq with ⟨u₀, hq₀, memq, _⟩
    rcases of hr with ⟨u₁, hr₀, memr, _⟩
    rw [memq, memr]
    exact sh.together q r i u₀ u₁ shareq sharer hq₀ hr₀
  · intro q r u u' hq hr differ mems leftq leftr
    rcases of hq with ⟨u₀, hq₀, memq, _⟩
    rcases of hr with ⟨u₁, hr₀, memr, _⟩
    exact sh.joined q r u₀ u₁ hq₀ hr₀ differ (memq.symm.trans (mems.trans memr)) leftq leftr
  · intro q left
    rcases sh.left q left with ⟨u₀, found₀, waits⟩
    rcases some_ found₀ with ⟨u, found, _, runs_⟩
    refine ⟨u, found, fun go => ?_⟩
    rcases runs_ go with go₀ | rfl
    · exact waits go₀
    · rcases case found with ⟨_, rfl⟩ | ⟨differ, _⟩
      · exact left (runs go).2
      · exact differ rfl
  · intro q u found go
    rcases case found with ⟨rfl, rfl⟩ | ⟨_, found₀⟩
    · exact (runs go).1
    · exact sh.runs q u found₀ go
  · intro q i u shares found out
    rcases case found with ⟨rfl, rfl⟩ | ⟨_, found₀⟩
    · rcases sh.aside q i v shares there out with ⟨kept, stack, keeps⟩
      exact ⟨kept, stack, away kept (fun in_ => out (in_ i shares)) keeps⟩
    · exact sh.aside q i u shares found₀ out
  · intro q u found left in_ a from_ below
    show update m.mems v.mem mem u.mem a = _
    rcases case found with ⟨rfl, rfl⟩ | ⟨differ, found₀⟩
    · rw [same, update_self]
      exact here left in_ a from_ below
    · by_cases one : u.mem = v.mem
      · rcases change with unchanged | ⟨leftp, inp⟩
        · rw [one, update_self, unchanged, ← one]
          exact sh.inplace q u found₀ left in_ a from_ below
        · exact absurd (sh.alone found₀ there one left leftp in_ inp) differ
      · rw [update_of_ne one]
        exact sh.inplace q u found₀ left in_ a from_ below
  · intro q u found
    rcases of found with ⟨u₀, found₀, mem_, _⟩
    exact mem_ ▸ sh.adrift q u₀ found₀

theorem leave_sharing : (m.leave p).sharing q = if q = p then none else m.sharing q := by
  rw [Mach.leave]
  cases shares : m.sharing p with
  | none =>
      split_ifs with self
      · exact self ▸ shares
      · rfl
  | some i => exact update_apply ..

theorem leave_top : ((m.leave p).groups i).top = (m.groups i).top := by
  rw [Mach.leave]
  cases m.sharing p with
  | none => rfl
  | some j =>
      by_cases self : i = j
      · subst self
        simp [Mach.setGroup]
      · simp [Mach.setGroup, self]

theorem leave_stacks (other : q ≠ p) :
    ((m.leave p).groups i).stacks_ q = (m.groups i).stacks_ q := by
  rw [Mach.leave]
  cases m.sharing p with
  | none => rfl
  | some j =>
      by_cases self : i = j
      · subst self
        simp [Mach.setGroup, other]
      · simp [Mach.setGroup, self]

theorem leave_occupant (sh : Shared m) (lt : i < m.ngroup) :
    ((m.leave p).groups i).occupant = some q ↔ q ≠ p ∧ (m.groups i).occupant = some q := by
  have only (at_ : (m.groups i).occupant = some q) (self : q = p) : m.sharing p = some i :=
    self ▸ sh.occupant i q lt at_
  rw [Mach.leave]
  cases shares : m.sharing p with
  | none =>
      constructor
      · intro at_
        refine ⟨fun self => ?_, at_⟩
        rw [only at_ self] at shares
        cases shares
      · exact And.right
  | some j =>
      by_cases self : i = j
      · subst self
        simp only [Mach.setGroup, update_self]
        split_ifs with at_
        · constructor
          · intro there
            cases there
          · rintro ⟨differ, there⟩
            exact absurd (Option.some.inj (there.symm.trans at_)) differ
        · refine ⟨fun there => ⟨fun same => at_ (same ▸ there), there⟩, And.right⟩
      · simp only [Mach.setGroup, update_of_ne self]
        refine ⟨fun there => ⟨fun same => ?_, there⟩, And.right⟩
        rw [only there same] at shares
        exact self (Option.some.inj shares)

theorem without (sh : Shared m) {procs : Pid → Option Worker} {execd : Pid → Option Nat}
    {adrift : List Nat} (others : ∀ q, q ≠ p → procs q = m.procs q ∧ execd q = m.execd q)
    (self : ∀ v, procs p = some v → m.procs p = some v ∧ execd p ≠ none ∧ ¬v.Runs)
    (left : execd p ≠ none → procs p ≠ none)
    (lt : ∀ i ∈ adrift, i < m.nmem) (apart : ∀ q v, procs q = some v → v.mem ∉ adrift)
    (once : adrift.Nodup) :
    Shared { m.leave p with procs := procs, execd := execd, adrift := adrift } := by
  have fields : (m.leave p).mems = m.mems ∧ (m.leave p).nmem = m.nmem ∧
      (m.leave p).ngroup = m.ngroup := by
    rw [Mach.leave]
    cases m.sharing p <;> exact ⟨rfl, rfl, rfl⟩
  have of {q : Pid} {u : Worker} (found : procs q = some u) : m.procs q = some u := by
    by_cases same : q = p
    · subst same
      exact (self u found).1
    · exact (others q same).1 ▸ found
  have shares {q : Pid} {i : Nat} (at_ : (m.leave p).sharing q = some i) :
      q ≠ p ∧ m.sharing q = some i := by
    rw [leave_sharing] at at_
    split_ifs at at_ with same
    exact ⟨same, at_⟩
  have image {q : Pid} {u : Worker} (found : procs q = some u) (none_ : execd q = none) :
      q ≠ p ∧ m.execd q = none := by
    have differ : q ≠ p := by
      rintro rfl
      exact (self u found).2.1 none_
    exact ⟨differ, (others q differ).2 ▸ none_⟩
  have into {q : Pid} (differ : q ≠ p) (in_ : ∀ i, (m.leave p).sharing q = some i →
      ((m.leave p).groups i).occupant = some q) : m.In q := by
    intro i at_
    have lt := (sh.member q i at_).1
    refine ((leave_occupant sh lt).1 (in_ i ?_)).2
    rw [leave_sharing, if_neg differ]
    exact at_
  refine ⟨?_, ?_, ?_, ?_, ?_, ?_, ?_, ?_, ?_, ?_, ?_, apart, once⟩
  · intro q u found
    exact fields.2.1 ▸ sh.mem_lt q u (of found)
  · intro q u found
    exact sh.low q u (of found)
  · intro q i at_
    rcases shares at_ with ⟨differ, at₀⟩
    rcases sh.member q i at₀ with ⟨lt, none_, u, found, top⟩
    exact ⟨fields.2.2.symm ▸ lt, (others q differ).2.trans none_, u,
      (others q differ).1.trans found, top.trans leave_top.symm⟩
  · intro q r i u u' atq atr hq hr
    exact sh.together q r i u u' (shares atq).2 (shares atr).2 (of hq) (of hr)
  · intro q r u u' hq hr differ same noneq noner
    rcases image hq noneq with ⟨q_ne, noneq₀⟩
    rcases image hr noner with ⟨r_ne, noner₀⟩
    rcases sh.joined q r u u' (of hq) (of hr) differ same noneq₀ noner₀ with ⟨i, atq, atr⟩
    refine ⟨i, ?_, ?_⟩
    · rw [leave_sharing, if_neg q_ne]
      exact atq
    · rw [leave_sharing, if_neg r_ne]
      exact atr
  · intro i q lt at_
    rcases (leave_occupant sh (fields.2.2 ▸ lt)).1 at_ with ⟨differ, at₀⟩
    rw [leave_sharing, if_neg differ]
    exact sh.occupant i q (fields.2.2 ▸ lt) at₀
  · intro q some_
    by_cases same : q = p
    · subst same
      rcases found : procs q with _ | u
      · exact absurd found (left some_)
      · exact ⟨u, found, (self u found).2.2⟩
    · simp only [(others q same).2] at some_
      rcases sh.left q some_ with ⟨u, found, waits⟩
      exact ⟨u, (others q same).1.trans found, waits⟩
  · intro q u found runs i at_
    rcases shares at_ with ⟨differ, at₀⟩
    have lt := (sh.member q i at₀).1
    exact (leave_occupant sh lt).2 ⟨differ, sh.runs q u (of found) runs i at₀⟩
  · intro q i u at_ found out
    rcases shares at_ with ⟨differ, at₀⟩
    have lt := (sh.member q i at₀).1
    rcases sh.aside q i u at₀ (of found) fun in_ => out ((leave_occupant sh lt).2 ⟨differ, in_⟩)
      with ⟨kept, stack, keeps⟩
    exact ⟨kept, (leave_stacks differ).trans stack, keeps⟩
  · intro q u found none_ in_ a from_ below
    rcases image found none_ with ⟨differ, none₀⟩
    show (m.leave p).mems u.mem a = _
    rw [fields.1]
    exact sh.inplace q u (of found) none₀ (into differ in_) a from_ below
  · intro i member
    exact fields.2.1.symm ▸ lt i member

/-- The memories of those that run yet, with this one ended. -/
def castoff (m : Mach) (p : Pid) : List Nat :=
  match m.procs p with
  | some v => if v.Runs then v.mem :: m.adrift else m.adrift
  | none => m.adrift

theorem end_eq : m.end_ p =
    { m.leave p with
      procs := update m.procs p none
      execd := update m.execd p none
      adrift := castoff m p } := by
  have fields : (m.leave p).procs = m.procs ∧ (m.leave p).adrift = m.adrift := by
    rw [Mach.leave]
    cases m.sharing p <;> exact ⟨rfl, rfl⟩
  rw [Mach.end_, Mach.kill, Mach.cast, castoff, fields.1]
  cases m.procs p with
  | none => simp [fields]
  | some v =>
      simp only
      split_ifs <;> simp [fields]

theorem ends (sh : Shared m)
    (lone : ∀ v, m.procs p = some v → v.Runs →
      ∀ q w, q ≠ p → m.procs q = some w → w.mem ≠ v.mem) : Shared (m.end_ p) := by
  rw [end_eq]
  have live {q : Pid} {u : Worker} (found : update m.procs p none q = some u) :
      q ≠ p ∧ m.procs q = some u := by
    rw [update_apply] at found
    split_ifs at found with same
    exact ⟨same, found⟩
  have cases_ {i : Nat} (member : i ∈ castoff m p) :
      i ∈ m.adrift ∨ ∃ v, m.procs p = some v ∧ v.Runs ∧ v.mem = i := by
    rw [castoff] at member
    split at member
    case h_1 v found =>
      split_ifs at member with runs
      · rcases List.mem_cons.1 member with rfl | old
        · exact .inr ⟨v, found, runs, rfl⟩
        · exact .inl old
      · exact .inl member
    case h_2 => exact .inl member
  apply sh.without
  · intro q differ
    exact ⟨update_of_ne differ .., update_of_ne differ ..⟩
  · intro v found
    exact absurd rfl (live found).1
  · intro some_
    exact absurd (update_self ..) some_
  · intro i member
    rcases cases_ member with old | ⟨v, found, _, rfl⟩
    · exact sh.adrift_lt i old
    · exact sh.mem_lt p v found
  · intro q u found member
    rcases cases_ member with old | ⟨v, there, runs, same⟩
    · exact sh.adrift q u (live found).2 old
    · exact lone v there runs q u (live found).1 (live found).2 same.symm
  · rw [castoff]
    split
    case h_1 v found =>
      split_ifs
      · exact List.nodup_cons.2 ⟨sh.adrift p v found, sh.once⟩
      · exact sh.once
    case h_2 => exact sh.once

theorem touser (sh : Shared m) (there : m.procs p = some v) (waits : ¬v.Runs) (top : Nat) :
    Shared { m.leave p with execd := update (m.leave p).execd p (some top) } := by
  have fields : (m.leave p).procs = m.procs ∧ (m.leave p).adrift = m.adrift ∧
      (m.leave p).execd = m.execd := by
    rw [Mach.leave]
    cases m.sharing p <;> exact ⟨rfl, rfl, rfl⟩
  have left : Shared { m.leave p with
      procs := m.procs, execd := update m.execd p (some top), adrift := m.adrift } :=
    sh.without (fun q differ => ⟨rfl, update_of_ne differ ..⟩)
      (fun u found => ⟨found, by simp, Option.some.inj (there.symm.trans found) ▸ waits⟩)
      (fun _ => by simp [there]) sh.adrift_lt sh.adrift sh.once
  rw [fields.2.2]
  rw [← fields.1, ← fields.2.1] at left
  exact left

theorem add (sh : Shared m) (apart : m.sharing p = none) (new : w.mem = m.nmem)
    (low : w.low ≤ w.base) (holds : ∀ a, w.base ≤ a → a < w.top → mem a = w.own a)
    {execd : Pid → Option Nat} (others : ∀ q, q ≠ p → execd q = m.execd q)
    (self : execd p = none) :
    Shared
      { m with
        mems := update m.mems m.nmem mem
        nmem := m.nmem + 1
        procs := update m.procs p (some w)
        execd := execd } := by
  have case {q : Pid} {u : Worker} (found : update m.procs p (some w) q = some u) :
      q = p ∧ u = w ∨ q ≠ p ∧ m.procs q = some u := by
    rw [update_apply] at found
    split_ifs at found with same
    · exact .inl ⟨same, (Option.some.inj found).symm⟩
    · exact .inr ⟨same, found⟩
  have old {q : Pid} {u : Worker} (found : m.procs q = some u) : u.mem ≠ m.nmem :=
    Nat.ne_of_lt (sh.mem_lt q u found)
  have member {q : Pid} {i : Nat} (shares : m.sharing q = some i) : q ≠ p := by
    rintro rfl
    rw [apart] at shares
    cases shares
  refine ⟨?_, ?_, ?_, ?_, ?_, sh.occupant, ?_, ?_, ?_, ?_, ?_, ?_, sh.once⟩
  · intro q u found
    rcases case found with ⟨rfl, rfl⟩ | ⟨_, found₀⟩
    · exact new ▸ Nat.lt_succ_self _
    · exact Nat.lt_succ_of_lt (sh.mem_lt q u found₀)
  · intro q u found
    rcases case found with ⟨rfl, rfl⟩ | ⟨_, found₀⟩
    · exact low
    · exact sh.low q u found₀
  · intro q i shares
    rcases sh.member q i shares with ⟨lt, none_, u, found, top⟩
    have differ := member shares
    exact ⟨lt, (others q differ).trans none_, u, (update_of_ne differ ..).trans found, top⟩
  · intro q r i u u' atq atr hq hr
    rcases case hq with ⟨rfl, _⟩ | ⟨_, hq₀⟩
    · exact absurd rfl (member atq)
    · rcases case hr with ⟨rfl, _⟩ | ⟨_, hr₀⟩
      · exact absurd rfl (member atr)
      · exact sh.together q r i u u' atq atr hq₀ hr₀
  · intro q r u u' hq hr differ same noneq noner
    rcases case hq with ⟨rfl, rfl⟩ | ⟨q_ne, hq₀⟩ <;> rcases case hr with ⟨rfl, rfl⟩ | ⟨r_ne, hr₀⟩
    · exact absurd rfl differ
    · exact absurd (same.symm.trans new) (old hr₀)
    · exact absurd (same.trans new) (old hq₀)
    · exact sh.joined q r u u' hq₀ hr₀ differ same ((others q q_ne).symm.trans noneq)
        ((others r r_ne).symm.trans noner)
  · intro q some_
    have differ : q ≠ p := by
      rintro rfl
      exact some_ self
    rcases sh.left q fun gone => some_ ((others q differ).trans gone) with ⟨u, found, waits⟩
    exact ⟨u, (update_of_ne differ ..).trans found, waits⟩
  · intro q u found runs i shares
    rcases case found with ⟨rfl, _⟩ | ⟨_, found₀⟩
    · exact absurd rfl (member shares)
    · exact sh.runs q u found₀ runs i shares
  · intro q i u shares found out
    rcases case found with ⟨rfl, _⟩ | ⟨_, found₀⟩
    · exact absurd rfl (member shares)
    · exact sh.aside q i u shares found₀ out
  · intro q u found none_ in_ a from_ below
    show update m.mems m.nmem mem u.mem a = _
    rcases case found with ⟨rfl, rfl⟩ | ⟨differ, found₀⟩
    · rw [new, update_self]
      exact holds a from_ below
    · rw [update_of_ne (old found₀)]
      exact sh.inplace q u found₀ ((others q differ).symm.trans none_) in_ a from_ below
  · intro i drifts
    exact Nat.lt_succ_of_lt (sh.adrift_lt i drifts)
  · intro q u found drifts
    rcases case found with ⟨rfl, rfl⟩ | ⟨_, found₀⟩
    · exact absurd (sh.adrift_lt _ drifts) (new ▸ Nat.lt_irrefl _)
    · exact sh.adrift q u found₀ drifts

theorem Keeps_slice (holds : m.Holds v) (low : v.low ≤ v.base) (top : Nat) (same : v.top = top) :
    v.Keeps (min v.low top, slice (m.mems v.mem) (min v.low top) top) := by
  intro mem a from_ below
  rw [splice_slice (by omega) (by omega)]
  exact holds a from_ below

theorem saved_keeps (sh : Shared m) (lt : i < m.ngroup) (shares : m.sharing q = some i)
    (there : m.procs q = some v) :
    ∃ kept, (m.saved (m.groups i)).stacks_ q = some kept ∧ v.Keeps kept := by
  rw [Mach.saved]
  cases at_ : (m.groups i).occupant with
  | none =>
      exact sh.aside q i v shares there (by simp [at_])
  | some o =>
      rcases sh.member o i (sh.occupant i o lt at_) with ⟨_, image, u, found, top⟩
      simp only [found]
      by_cases self : q = o
      · subst self
        have same : u = v := Option.some.inj (found.symm.trans there)
        subst same
        have in_ : m.In q := by
          intro j shares'
          rw [shares] at shares'
          cases shares'
          exact at_
        refine ⟨_, update_self .., ?_⟩
        exact Keeps_slice (sh.inplace q u found image in_) (sh.low q u found) _ top
      · rw [update_of_ne self]
        exact sh.aside q i v shares there (by simp [at_, Ne.symm self])

theorem place_eq (sh : Shared m) (shares : m.sharing p = some i) (there : m.procs p = some v) :
    ∃ kept, v.Keeps kept ∧ m.place p i =
      (m.setMem v.mem (splice (m.mems v.mem) kept.1 kept.2)).setGroup i
        { m.saved (m.groups i) with
          stacks_ := update (m.saved (m.groups i)).stacks_ p none, occupant := some p } := by
  rcases sh.saved_keeps (sh.member p i shares).1 shares there with ⟨kept, stack, keeps⟩
  refine ⟨kept, keeps, ?_⟩
  rw [Mach.place, stack, there]

theorem saved_top : (m.saved (m.groups i)).top = (m.groups i).top := by
  rw [Mach.saved]
  split
  · rfl
  · split <;> rfl

theorem place (sh : Shared m) (shares : m.sharing p = some i) (there : m.procs p = some v)
    (quiet : ∀ o, (m.groups i).occupant = some o → m.quiet o) : Shared (m.place p i) := by
  rcases sh.place_eq shares there with ⟨kept, keeps, placed⟩
  rw [placed]
  set g : Sharing :=
    { m.saved (m.groups i) with
      stacks_ := update (m.saved (m.groups i)).stacks_ p none, occupant := some p } with g_def
  set m' := (m.setMem v.mem (splice (m.mems v.mem) kept.1 kept.2)).setGroup i g with made_def
  have here : m'.groups i = g := update_self ..
  have apart {j : Nat} (differs : j ≠ i) : m'.groups j = m.groups j :=
    update_of_ne differs ..
  refine ⟨sh.mem_lt, sh.low, ?_, sh.together, sh.joined, ?_, sh.left, ?_, ?_, ?_, sh.adrift_lt,
    sh.adrift, sh.once⟩
  · intro q j at_
    rcases sh.member q j at_ with ⟨lt, none_, u, found, top⟩
    refine ⟨lt, none_, u, found, ?_⟩
    by_cases same : j = i
    · subst same
      rw [here]
      exact top.trans saved_top.symm
    · rw [apart same]
      exact top
  · intro j q lt at_
    by_cases same : j = i
    · subst same
      rw [here] at at_
      cases at_
      exact shares
    · rw [apart same] at at_
      exact sh.occupant j q lt at_
  · intro q u found runs j at_
    by_cases same : j = i
    · subst same
      have before := sh.runs q u found runs j at_
      rw [here]
      by_contra differ
      have waits := quiet q before u found
      rcases runs with ⟨_, box | box⟩ <;> simp [Worker.Waits, box] at waits
    · rw [apart same]
      exact sh.runs q u found runs j at_
  · intro q j u at_ found out
    by_cases same : j = i
    · subst same
      rw [here] at out ⊢
      have differ : q ≠ p := by
        rintro rfl
        exact out rfl
      rcases sh.saved_keeps (sh.member q j at_).1 at_ found with ⟨kept', stack, keeps'⟩
      exact ⟨kept', (update_of_ne differ ..).trans stack, keeps'⟩
    · rw [apart same] at out ⊢
      exact sh.aside q j u at_ found out
  · intro q u found none_ in_ a from_ below
    show update m.mems v.mem _ u.mem a = _
    by_cases self : q = p
    · subst self
      have same : v = u := Option.some.inj (there.symm.trans found)
      subst same
      rw [update_self]
      exact keeps _ a from_ below
    · have none_p := (sh.member p i shares).2.1
      have out {j : Nat} (at_ : m.sharing q = some j) : j ≠ i := by
        rintro rfl
        have occ := in_ j at_
        rw [here] at occ
        exact self (Option.some.inj occ).symm
      have apart_ : u.mem ≠ v.mem := by
        intro same
        rcases sh.joined q p u v found there self same none_ none_p with ⟨j, atq, atp⟩
        exact out atq (Option.some.inj (atp.symm.trans shares))
      rw [update_of_ne apart_]
      refine sh.inplace q u found none_ (fun j at_ => ?_) a from_ below
      have occ := in_ j at_
      rw [apart (out at_)] at occ
      exact occ

theorem occupy_fields (entered : m.occupy p = some m') :
    m'.procs = m.procs ∧ m'.execd = m.execd ∧ m'.sharing = m.sharing := by
  have placed {i : Nat} : (m.place p i).procs = m.procs ∧ (m.place p i).execd = m.execd ∧
      (m.place p i).sharing = m.sharing := by
    rw [Mach.place]
    split <;> exact ⟨rfl, rfl, rfl⟩
  rw [Mach.occupy] at entered
  split at entered
  · cases entered
    exact ⟨rfl, rfl, rfl⟩
  · split at entered
    · cases entered
      exact placed
    · split_ifs at entered
      · cases entered
        exact ⟨rfl, rfl, rfl⟩
      · cases entered
        exact placed

theorem occupies (sh : Shared m) (entered : m.occupy p = some m') : Shared m' ∧ m'.In p := by
  have into {i : Nat} {v : Worker} (shares : m.sharing p = some i) (there : m.procs p = some v) :
      (m.place p i).In p := by
    rcases sh.place_eq shares there with ⟨kept, _, placed⟩
    intro j at_
    rw [placed] at at_ ⊢
    have same : j = i := Option.some.inj (at_.symm.trans shares)
    subst same
    show (update m.groups j _ j).occupant = some p
    rw [update_self]
  rw [Mach.occupy] at entered
  split at entered
  case h_1 alone =>
    cases entered
    refine ⟨sh, fun i at_ => ?_⟩
    rw [alone] at at_
    cases at_
  case h_2 i shares =>
    rcases sh.member p i shares with ⟨_, _, v, there, _⟩
    split at entered
    case h_1 empty =>
      cases entered
      refine ⟨sh.place shares there fun o at_ => ?_, into shares there⟩
      rw [empty] at at_
      cases at_
    case h_2 o at_ =>
      split_ifs at entered with self quiet
      · cases entered
        refine ⟨sh, fun j at_j => ?_⟩
        have same : j = i := Option.some.inj (at_j.symm.trans shares)
        subst same
        exact self ▸ at_
      · cases entered
        refine ⟨sh.place shares there fun o' at_' => ?_, into shares there⟩
        rw [at_] at at_'
        cases at_'
        exact quiet

theorem found (sh : Shared m) (there : m.procs p = some v) (image : m.execd p = none)
    (in_ : m.In p) :
    Shared (m.found p v.top).2 ∧ (m.found p v.top).2.sharing p = some (m.found p v.top).1 ∧
      (m.found p v.top).2.In p := by
  rw [Mach.found]
  split
  case h_1 i shares => exact ⟨sh, shares, in_⟩
  case h_2 alone =>
    have case {q : Pid} {j : Nat}
        (at_ : update m.sharing p (some m.ngroup) q = some j) :
        q = p ∧ j = m.ngroup ∨ q ≠ p ∧ m.sharing q = some j ∧ j ≠ m.ngroup := by
      rw [update_apply] at at_
      split_ifs at at_ with same
      · exact .inl ⟨same, (Option.some.inj at_).symm⟩
      · exact .inr ⟨same, at_, Nat.ne_of_lt (sh.member q j at_).1⟩
    have old {q : Pid} {j : Nat} (at_ : m.sharing q = some j) :
        update m.sharing p (some m.ngroup) q = some j := by
      rw [update_of_ne]
      · exact at_
      · rintro rfl
        rw [alone] at at_
        cases at_
    have groups {j : Nat} (differs : j ≠ m.ngroup) :
        update m.groups m.ngroup ⟨v.top, some p, fun _ => none⟩ j = m.groups j :=
      update_of_ne differs ..
    have into {q : Pid} (differ : q ≠ p)
        (in' : ∀ j, update m.sharing p (some m.ngroup) q = some j →
          (update m.groups m.ngroup ⟨v.top, some p, fun _ => none⟩ j).occupant = some q) :
        m.In q := by
      intro j at_
      have occ := in' j (old at_)
      rw [groups (Nat.ne_of_lt (sh.member q j at_).1)] at occ
      exact occ
    have here : (update m.groups m.ngroup (⟨v.top, some p, fun _ => none⟩ : Sharing)
        m.ngroup) = ⟨v.top, some p, fun _ => none⟩ := update_self ..
    refine ⟨⟨sh.mem_lt, sh.low, ?_, ?_, ?_, ?_, sh.left, ?_, ?_, ?_, sh.adrift_lt, sh.adrift,
      sh.once⟩, update_self .., ?_⟩
    · intro q j at_
      rcases case at_ with ⟨rfl, rfl⟩ | ⟨_, at₀, differs⟩
      · exact ⟨Nat.lt_succ_self _, image, v, there, (congrArg Sharing.top here).symm⟩
      · rcases sh.member q j at₀ with ⟨lt, none_, u, found, top⟩
        exact ⟨Nat.lt_succ_of_lt lt, none_, u, found,
          top.trans (congrArg Sharing.top (groups differs)).symm⟩
    · intro q r j u u' atq atr hq hr
      rcases case atq with ⟨rfl, rfl⟩ | ⟨_, atq₀, differs⟩ <;>
        rcases case atr with ⟨rfl, same⟩ | ⟨_, atr₀, differs'⟩
      · rw [Option.some.inj (hq.symm.trans hr)]
      · exact absurd rfl differs'
      · exact absurd same differs
      · exact sh.together q r j u u' atq₀ atr₀ hq hr
    · intro q r u u' hq hr differ same noneq noner
      rcases sh.joined q r u u' hq hr differ same noneq noner with ⟨j, atq, atr⟩
      exact ⟨j, old atq, old atr⟩
    · intro j q lt at_
      rcases Nat.lt_succ_iff_lt_or_eq.1 lt with lt | rfl
      · have occ := (congrArg Sharing.occupant (groups (Nat.ne_of_lt lt))).symm.trans at_
        exact old (sh.occupant j q lt occ)
      · cases (congrArg Sharing.occupant here).symm.trans at_
        exact update_self ..
    · intro q u found runs j at_
      rcases case at_ with ⟨rfl, rfl⟩ | ⟨_, at₀, differs⟩
      · exact congrArg Sharing.occupant here
      · exact (congrArg Sharing.occupant (groups differs)).trans (sh.runs q u found runs j at₀)
    · intro q j u at_ found out
      rcases case at_ with ⟨rfl, rfl⟩ | ⟨_, at₀, differs⟩
      · exact absurd (congrArg Sharing.occupant here) out
      · rcases sh.aside q j u at₀ found fun occ =>
          out ((congrArg Sharing.occupant (groups differs)).trans occ) with ⟨kept, stack, keeps⟩
        exact ⟨kept, (congrArg (Sharing.stacks_ · q) (groups differs)).trans stack, keeps⟩
    · intro q u found none_ in' a from_ below
      by_cases self : q = p
      · subst self
        have same : v = u := Option.some.inj (there.symm.trans found)
        subst same
        exact sh.inplace q v there image in_ a from_ below
      · exact sh.inplace q u found none_ (into self in') a from_ below
    · intro j at_
      rcases case at_ with ⟨_, rfl⟩ | ⟨differ, _⟩
      · exact congrArg Sharing.occupant here
      · exact absurd rfl differ

theorem join (sh : Shared m) (there : m.procs p = some v) (shares : m.sharing p = some i)
    (in_ : m.In p) (new : m.procs q = none) (image : m.execd q = none) (mem_ : w.mem = v.mem)
    (top : w.top = v.top) (low : w.low ≤ w.base) (waits : ¬w.Runs) {kept : Nat × List UInt8}
    (keeps : w.Keeps kept) :
    Shared ({ m.setProc q w with sharing := update m.sharing q (some i) }.setGroup i
      { m.groups i with stacks_ := update (m.groups i).stacks_ q (some kept) }) := by
  have differ : p ≠ q := by
    rintro rfl
    rw [there] at new
    cases new
  have none_ : m.sharing q = none := by
    rcases at_ : m.sharing q with _ | j
    · rfl
    · rcases (sh.member q j at_).2.2 with ⟨u, found, _⟩
      rw [new] at found
      cases found
  have proc {r : Pid} {u : Worker} (found : update m.procs q (some w) r = some u) :
      r = q ∧ u = w ∨ r ≠ q ∧ m.procs r = some u := by
    rw [update_apply] at found
    split_ifs at found with same
    · exact .inl ⟨same, (Option.some.inj found).symm⟩
    · exact .inr ⟨same, found⟩
  have case {r : Pid} {j : Nat} (at_ : update m.sharing q (some i) r = some j) :
      r = q ∧ j = i ∨ r ≠ q ∧ m.sharing r = some j := by
    rw [update_apply] at at_
    split_ifs at at_ with same
    · exact .inl ⟨same, (Option.some.inj at_).symm⟩
    · exact .inr ⟨same, at_⟩
  have old {r : Pid} {j : Nat} (at_ : m.sharing r = some j) :
      update m.sharing q (some i) r = some j := by
    rw [update_of_ne]
    · exact at_
    · rintro rfl
      rw [none_] at at_
      cases at_
  set g : Sharing :=
    { m.groups i with stacks_ := update (m.groups i).stacks_ q (some kept) } with g_def
  have occ (j : Nat) : (update m.groups i g j).occupant = (m.groups j).occupant := by
    by_cases same : j = i
    · subst same
      rw [update_self]
    · rw [update_of_ne same]
  have tops (j : Nat) : (update m.groups i g j).top = (m.groups j).top := by
    by_cases same : j = i
    · subst same
      rw [update_self]
    · rw [update_of_ne same]
  have stack {r : Pid} (j : Nat) (other : r ≠ q) :
      (update m.groups i g j).stacks_ r = (m.groups j).stacks_ r := by
    by_cases same : j = i
    · subst same
      rw [update_self]
      exact update_of_ne other ..
    · rw [update_of_ne same]
  have like {r : Pid} {u : Worker} (found : update m.procs q (some w) r = some u)
      (at_ : update m.sharing q (some i) r = some i) : u.mem = v.mem := by
    rcases proc found with ⟨rfl, rfl⟩ | ⟨other, found₀⟩
    · exact mem_
    · rcases case at_ with ⟨same, _⟩ | ⟨_, at₀⟩
      · exact absurd same other
      · exact sh.together r p i u v at₀ shares found₀ there
  refine ⟨?_, ?_, ?_, ?_, ?_, ?_, ?_, ?_, ?_, ?_, sh.adrift_lt, ?_, sh.once⟩
  · intro r u found
    rcases proc found with ⟨rfl, rfl⟩ | ⟨_, found₀⟩
    · exact mem_ ▸ sh.mem_lt p v there
    · exact sh.mem_lt r u found₀
  · intro r u found
    rcases proc found with ⟨rfl, rfl⟩ | ⟨_, found₀⟩
    · exact low
    · exact sh.low r u found₀
  · intro r j at_
    rcases case at_ with ⟨rfl, rfl⟩ | ⟨other, at₀⟩
    · rcases sh.member p j shares with ⟨lt, _, u, found, top_⟩
      cases there.symm.trans found
      exact ⟨lt, image, w, update_self .., by rw [top, top_]; exact (tops j).symm⟩
    · rcases sh.member r j at₀ with ⟨lt, none', u, found, top_⟩
      exact ⟨lt, none', u, (update_of_ne other ..).trans found, top_.trans (tops j).symm⟩
  · intro r t j u u' atr att hr ht
    by_cases here : j = i
    · subst here
      rw [like hr atr, like ht att]
    · rcases case atr with ⟨_, same⟩ | ⟨otherr, atr₀⟩
      · exact absurd same here
      · rcases case att with ⟨_, same⟩ | ⟨othert, att₀⟩
        · exact absurd same here
        · rcases proc hr with ⟨same, _⟩ | ⟨_, hr₀⟩
          · exact absurd same otherr
          · rcases proc ht with ⟨same, _⟩ | ⟨_, ht₀⟩
            · exact absurd same othert
            · exact sh.together r t j u u' atr₀ att₀ hr₀ ht₀
  · have ofchild {r : Pid} {u : Worker} (found : m.procs r = some u) (same : u.mem = w.mem)
        (none' : m.execd r = none) : m.sharing r = some i := by
      by_cases parent : r = p
      · exact parent ▸ shares
      · rcases sh.joined r p u v found there parent (same.trans mem_) none'
          (sh.member p i shares).2.1 with ⟨j, atr, atp⟩
        exact atr.trans (atp.symm.trans shares)
    intro r t u u' hr ht differ' same noner nonet
    rcases proc hr with ⟨rfl, rfl⟩ | ⟨otherr, hr₀⟩ <;>
      rcases proc ht with ⟨rfl, rfl⟩ | ⟨othert, ht₀⟩
    · exact absurd rfl differ'
    · exact ⟨i, update_self .., old (ofchild ht₀ same.symm nonet)⟩
    · exact ⟨i, old (ofchild hr₀ same noner), update_self ..⟩
    · rcases sh.joined r t u u' hr₀ ht₀ differ' same noner nonet with ⟨j, atr, att⟩
      exact ⟨j, old atr, old att⟩
  · intro j r lt at_
    exact old (sh.occupant j r lt ((occ j).symm.trans at_))
  · intro r some_
    rcases sh.left r some_ with ⟨u, found, waits'⟩
    have other : r ≠ q := by
      rintro rfl
      exact some_ image
    exact ⟨u, (update_of_ne other ..).trans found, waits'⟩
  · intro r u found runs j at_
    rcases proc found with ⟨rfl, rfl⟩ | ⟨other, found₀⟩
    · exact absurd runs waits
    · rcases case at_ with ⟨same, _⟩ | ⟨_, at₀⟩
      · exact absurd same other
      · exact (occ j).trans (sh.runs r u found₀ runs j at₀)
  · intro r j u at_ found out
    rcases proc found with ⟨rfl, rfl⟩ | ⟨other, found₀⟩
    · rcases case at_ with ⟨_, rfl⟩ | ⟨other, _⟩
      · refine ⟨kept, ?_, keeps⟩
        show (update m.groups j g j).stacks_ r = _
        rw [update_self]
        exact update_self ..
      · exact absurd rfl other
    · rcases case at_ with ⟨same, _⟩ | ⟨_, at₀⟩
      · exact absurd same other
      · rcases sh.aside r j u at₀ found₀ fun in' => out ((occ j).trans in') with ⟨k, there', keeps'⟩
        exact ⟨k, (stack j other).trans there', keeps'⟩
  · intro r u found none' in' a from_ below
    rcases proc found with ⟨rfl, rfl⟩ | ⟨other, found₀⟩
    · have child := (occ i).symm.trans (in' i (update_self ..))
      exact absurd (Option.some.inj ((in_ i shares).symm.trans child)) differ
    · refine sh.inplace r u found₀ none' (fun j at_ => ?_) a from_ below
      exact (occ j).symm.trans (in' j (old at_))
  · intro r u found
    rcases proc found with ⟨rfl, rfl⟩ | ⟨_, found₀⟩
    · exact mem_ ▸ sh.adrift p v there
    · exact sh.adrift r u found₀

theorem found_fields (m : Mach) (p : Pid) (top : Nat) : (m.found p top).2.procs = m.procs ∧
    (m.found p top).2.execd = m.execd := by
  rw [Mach.found]
  cases m.sharing p <;> exact ⟨rfl, rfl⟩

theorem found_setProc {top : Nat} : (m.setProc q w).found p top =
    ((m.found p top).1, (m.found p top).2.setProc q w) := by
  rw [Mach.found, Mach.found, Mach.setProc]
  cases m.sharing p <;> rfl

theorem Keeps_child {lo top at_ : Nat} {pid : Pid} (tops : w.top = top) (base : w.base = lo)
    (own : w.own =
      if lo ≤ at_ ∧ at_ + 4 ≤ top then splice mem at_ (Rfmem.pidBytes pid) else mem) :
    w.Keeps (lo, if lo ≤ at_ ∧ at_ + 4 ≤ top then
      overwrite (slice mem lo top) (at_ - lo) (Rfmem.pidBytes pid) else slice mem lo top) := by
  intro mem' a from_ below
  rw [base] at from_
  rw [tops] at below
  rw [own]
  split_ifs with inside
  · rw [overwrite_slice inside.1 inside.2]
    exact splice_slice from_ below
  · exact splice_slice from_ below

theorem sharing_none (sh : Shared m) (gone : m.procs p = none) : m.sharing p = none := by
  rcases at_ : m.sharing p with _ | i
  · rfl
  · rcases (sh.member p i at_).2.2 with ⟨u, found, _⟩
    rw [gone] at found
    cases found

theorem sharing_left (sh : Shared m) (left : m.execd p ≠ none) : m.sharing p = none := by
  rcases at_ : m.sharing p with _ | i
  · rfl
  · exact absurd (sh.member p i at_).2.1 left

theorem fork (sh : Shared m) (there : m.procs p = some v) (image : m.execd p = none)
    (in_ : m.In p) (new : m.procs q = none) (image' : m.execd q = none) (share : Bool)
    (lo tos : Nat) : Shared (m.fork p q v share lo tos) := by
  rw [Mach.fork]
  cases share with
  | true =>
      rw [if_pos rfl, Mach.share, found_setProc]
      rcases sh.found there image in_ with ⟨founded, shares, inside⟩
      rcases found_fields m p v.top with ⟨procs, execd⟩
      apply founded.join ((congrFun procs p).trans there) shares inside
        ((congrFun procs q).trans new) ((congrFun execd q).trans image')
      · rfl
      · rfl
      · exact Nat.zero_le _
      · exact fun runs => Bool.false_ne_true runs.1
      · exact Keeps_child rfl rfl rfl
  | false =>
      rw [if_neg Bool.false_ne_true]
      apply sh.add (sh.sharing_none new)
      · rfl
      · exact Nat.zero_le _
      · exact fun _ _ _ => rfl
      · exact fun _ _ => rfl
      · exact image'

theorem fork_procs (share : Bool) (lo tos : Nat) :
    ∃ w, ¬w.Runs ∧ w.work = none ∧ w.box = .runs ∧
      (m.fork p q v share lo tos).procs = update m.procs q (some w) ∧
      (m.fork p q v share lo tos).execd = m.execd := by
  rw [Mach.fork]
  cases share with
  | true =>
      rw [if_pos rfl, Mach.share, found_setProc]
      rcases found_fields m p v.top with ⟨procs, execd⟩
      refine ⟨_, ?_, ?_, ?_, congrArg (update · q _) procs, execd⟩
      · exact fun runs => Bool.false_ne_true runs.1
      · rfl
      · rfl
  | false =>
      rw [if_neg Bool.false_ne_true]
      refine ⟨_, ?_, ?_, ?_, rfl, rfl⟩
      · exact fun runs => Bool.false_ne_true runs.1
      · rfl
      · rfl

theorem fork_in (sh : Shared m) (there : m.procs p = some v) (image : m.execd p = none)
    (in_ : m.In p) (other : p ≠ q) (share : Bool) (lo tos : Nat) :
    (m.fork p q v share lo tos).In p := by
  rw [Mach.fork]
  cases share with
  | true =>
      rw [if_pos rfl, Mach.share, found_setProc]
      rcases sh.found there image in_ with ⟨founded, shares, inside⟩
      intro j at_
      have at_' : (m.found p v.top).2.sharing p = some j :=
        (update_of_ne other ..).symm.trans at_
      have same : j = (m.found p v.top).1 := Option.some.inj (at_'.symm.trans shares)
      subst same
      show (update (m.found p v.top).2.groups (m.found p v.top).1 _
        (m.found p v.top).1).occupant = some p
      rw [update_self]
      exact inside _ shares
  | false =>
      rw [if_neg Bool.false_ne_true]
      exact in_

end Shared

end Ipnx.Workers
