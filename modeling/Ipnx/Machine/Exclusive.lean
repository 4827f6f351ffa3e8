import Ipnx.Machine.Regions

/-!
# Of those that share a memory, one runs

The kernel enters a process when its stack can be put in place and answers it when it waits. What
the machine keeps of each process, and the kernel's place in it, go with whose stack is where; and
so it is in every run, so long as no process that shares its memory is ended at the clock while it
runs.
-/

namespace Ipnx.Workers

open Function (update update_apply update_eq_self update_of_ne update_self)

variable {m m' : Mach} {p q : Pid} {v w : Worker} {i : Nat} {mem : Mem} {s s' : State}

/-- No process that shares its memory is ended at the clock while it runs. -/
def Orderly (s : State) : Act → Prop
  | .clock true =>
      match s.phase with
      | .runs p => ∀ v ∈ s.mach.procs p, v.Runs →
          ∀ q < s.npid, q ≠ p → ∀ v' ∈ s.mach.procs q, v'.mem ≠ v.mem
      | _ => True
  | _ => True

instance (s : State) (a : Act) : Decidable (Orderly s a) := by
  unfold Orderly
  split
  · split <;> infer_instance
  · infer_instance

/-- What the machine keeps of a process says whether it has a worker, and whether that waits. -/
def Fits (proc : Option Worker) : Option St → Prop
  | none => True
  | some (.image _) | some .forking | some .unforked => proc = none
  | some .running | some .forked => proc ≠ none
  | some (.call _) | some .yielded => ∃ v, proc = some v ∧ ¬v.Runs

namespace Phase

def Of (p : Pid) : Phase → Prop
  | .runs q | .calls q _ | .answers q => q = p
  | _ => False

def Halts (p : Pid) : Phase → Prop
  | .calls q _ | .answers q => q = p
  | _ => False

end Phase

structure Wf (s : State) : Prop where
  shared : Shared s.mach
  fits : ∀ p, Fits (s.mach.procs p) (s.st p)
  execd : ∀ p, s.mach.execd p ≠ none → s.st p = some (.call .exec) ∨ s.phase = .calls p .exec
  entered : ∀ p, s.phase.Of p → s.st p = some .running ∧ s.mach.In p
  waits : ∀ p v, s.phase.Halts p → s.mach.procs p = some v → ¬v.Runs
  forks : ∀ p v c share, s.mach.procs p = some v → v.work = some (c, share) →
    s.phase = .answers p ∨ s.st c = some .forking
  said : ∀ p v c share lo tos failed, s.mach.procs p = some v →
    v.box = .said (.forked c share lo tos failed) → v.work = some (c, share)
  once : ∀ p q v w c share share', s.mach.procs p = some v → s.mach.procs q = some w →
    v.work = some (c, share) → w.work = some (c, share') → p = q
  young : ∀ p v c share, s.mach.procs p = some v → v.work = some (c, share) → c < s.npid
  new : ∀ p, s.npid ≤ p → s.st p = none ∧ s.mach.procs p = none

theorem Phase.Of.unique {φ : Phase} (ofp : φ.Of p) (ofq : φ.Of q) : p = q := by
  cases φ with
  | sched | failed => exact ofp.elim
  | runs | calls | answers => exact ofp.symm.trans ofq

theorem Phase.Halts.of {φ : Phase} (halts : φ.Halts p) : φ.Of p := by
  cases φ with
  | sched | failed | runs => exact halts.elim
  | calls | answers => exact halts

namespace Wf

theorem live (wf : Wf s) (of : s.phase.Of p) : ∃ v, s.mach.procs p = some v := by
  have fits := wf.fits p
  rw [(wf.entered p of).1] at fits
  exact Option.ne_none_iff_exists'.1 fits

theorem apart (wf : Wf s) (of : s.phase.Of p) {c : Pid} (forking : s.st c = some .forking) :
    c ≠ p := by
  rintro rfl
  rw [(wf.entered c of).1] at forking
  cases forking

/-- Of one process the worker, the place and the image change, and the kernel's place with them. A
child it unwinds for is one it unwound for before, or a new one's that nobody does. -/
theorem change (wf : Wf s) (p : Pid) (sh : Shared s'.mach) (npid : s'.npid = s.npid)
    (procs : ∀ q, q ≠ p → s'.mach.procs q = s.mach.procs q)
    (st : ∀ q, q ≠ p → s'.st q = s.st q)
    (execd : ∀ q, q ≠ p → s'.mach.execd q = s.mach.execd q)
    (keeps : ∀ q, q ≠ p → s.phase.Of q → s'.phase = s.phase)
    (plain : s.st p ≠ some .forking) (fits : Fits (s'.mach.procs p) (s'.st p))
    (left : s'.mach.execd p ≠ none → s'.st p = some (.call .exec) ∨ s'.phase = .calls p .exec)
    (entered : ∀ q, s'.phase.Of q → s'.st q = some .running ∧ s'.mach.In q)
    (waits : ∀ q v, s'.phase.Halts q → s'.mach.procs q = some v → ¬v.Runs)
    (work : ∀ v c share, s'.mach.procs p = some v → v.work = some (c, share) →
      (s.phase = .answers p → s'.phase = .answers p) ∧
          (∃ u, s.mach.procs p = some u ∧ u.work = some (c, share)) ∨
        s.st c = some .forking ∧ c < s.npid ∧
          ∀ q u share', s.mach.procs q = some u → u.work ≠ some (c, share'))
    (said : ∀ v c share lo tos failed, s'.mach.procs p = some v →
      v.box = .said (.forked c share lo tos failed) → v.work = some (c, share))
    (new : s.npid ≤ p → s'.st p = none ∧ s'.mach.procs p = none) : Wf s' := by
  have from_ {q : Pid} {v : Worker} {c : Pid} {share : Bool} (found : s'.mach.procs q = some v)
      (forks : v.work = some (c, share)) :
      (s.phase = .answers q → s'.phase = .answers q) ∧
          (∃ u, s.mach.procs q = some u ∧ u.work = some (c, share)) ∨
        q = p ∧ s.st c = some .forking ∧ c < s.npid ∧
          ∀ q u share', s.mach.procs q = some u → u.work ≠ some (c, share') := by
    by_cases same : q = p
    · subst same
      exact (work v c share found forks).imp_right fun fresh => ⟨rfl, fresh⟩
    · refine .inl ⟨fun answers => ?_, v, (procs q same).symm.trans found, forks⟩
      exact (keeps q same (answers ▸ rfl)).trans answers
  have waiting {c : Pid} (forking : s.st c = some .forking) : s'.st c = some .forking := by
    rw [st c fun same => plain (same ▸ forking)]
    exact forking
  refine ⟨sh, ?_, ?_, entered, waits, ?_, ?_, ?_, ?_, ?_⟩
  · intro q
    by_cases same : q = p
    · exact same ▸ fits
    · rw [procs q same, st q same]
      exact wf.fits q
  · intro q some_
    by_cases same : q = p
    · subst same
      exact left some_
    · rcases wf.execd q (execd q same ▸ some_) with at_ | phase
      · exact .inl ((st q same).trans at_)
      · exact .inr ((keeps q same (phase ▸ rfl)).trans phase)
  · intro q v c share found forks
    rcases from_ found forks with ⟨answers, u, found₀, forks₀⟩ | ⟨_, forking, _⟩
    · exact (wf.forks q u c share found₀ forks₀).imp answers waiting
    · exact .inr (waiting forking)
  · intro q v c share lo tos failed found box
    by_cases same : q = p
    · subst same
      exact said v c share lo tos failed found box
    · exact wf.said q v c share lo tos failed ((procs q same).symm.trans found) box
  · intro q r v w c share share' hq hr forksq forksr
    rcases from_ hq forksq with ⟨_, u, hq₀, forksq₀⟩ | ⟨rfl, _, _, noneq⟩ <;>
      rcases from_ hr forksr with ⟨_, u', hr₀, forksr₀⟩ | ⟨rfl, _, _, noner⟩
    · exact wf.once q r u u' c share share' hq₀ hr₀ forksq₀ forksr₀
    · exact absurd forksq₀ (noner q u share hq₀)
    · exact absurd forksr₀ (noneq r u' share' hr₀)
    · rfl
  · intro q v c share found forks
    rw [npid]
    rcases from_ found forks with ⟨_, u, found₀, forks₀⟩ | ⟨_, _, young, _⟩
    · exact wf.young q u c share found₀ forks₀
    · exact young
  · intro q old
    rw [npid] at old
    by_cases same : q = p
    · subst same
      exact new old
    · rw [st q same, procs q same]
      exact wf.new q old

/-- The kernel is with one process at most, whose place may change. -/
theorem alone (only : ∀ q, s.phase.Of q → q = p) {φ : Phase} :
    ∀ q, q ≠ p → s.phase.Of q → φ = s.phase :=
  fun q other of => absurd (only q of) other

theorem kept (plain : s.phase ≠ .answers p) {φ : Phase} {P : Pid → Prop} (v : Worker) (c : Pid)
    (share : Bool) (found : s.mach.procs p = some v) (forks : v.work = some (c, share)) :
    (s.phase = .answers p → φ = .answers p) ∧
        (∃ u, s.mach.procs p = some u ∧ u.work = some (c, share)) ∨ P c :=
  .inl ⟨fun answers => absurd answers plain, v, found, forks⟩

theorem alone_of (of : s.phase.Of p) {φ : Phase} : ∀ q, q ≠ p → s.phase.Of q → φ = s.phase :=
  alone fun _ of' => Phase.Of.unique of' of

theorem start_eq {top : Nat} (waits : ∀ v, m.procs p = some v → ¬v.Runs) : m.start p top =
    { m with
      mems := update m.mems m.nmem fun _ => 0
      nmem := m.nmem + 1
      procs := update m.procs p
        (some ⟨m.nmem, top, .runs, true, 0, none, 0, fun _ => 0⟩) } := by
  have cast : m.cast p = m := by
    rw [Mach.cast]
    split
    case h_1 v found => rw [if_neg (waits v found)]
    case h_2 => rfl
  rw [Mach.start, cast]
  rfl

section Wf

variable (wf : Wf s)

include wf

theorem not_forking (of : s.phase.Of p) : s.st p ≠ some .forking :=
  fun forking => wf.apart of forking rfl

theorem revise (there : s.mach.procs p = some v)
    (sh : Shared ((s.mach.setMem v.mem mem).setProc p w)) (runs : w.Runs → v.Runs)
    (work : w.work = v.work)
    (said : ∀ c share lo tos failed, w.box = .said (.forked c share lo tos failed) →
      w.work = some (c, share)) :
    Wf { s with mach := (s.mach.setMem v.mem mem).setProc p w } := by
  have self {u : Worker} (found : update s.mach.procs p (some w) p = some u) : w = u := by
    rw [update_self] at found
    exact Option.some.inj found
  have fits := wf.fits p
  rw [there] at fits
  refine wf.change p sh rfl (fun q other => update_of_ne other ..) (fun _ _ => rfl)
    (fun _ _ => rfl) (fun _ _ _ => rfl) ?_ ?_ (wf.execd p) wf.entered ?_ ?_ ?_ ?_
  · intro forking
    rw [forking] at fits
    cases fits
  · show Fits (update s.mach.procs p (some w) p) (s.st p)
    rw [update_self]
    cases at_ : s.st p with
    | none => exact trivial
    | some st =>
        rw [at_] at fits
        cases st with
        | image | forking | unforked => cases fits
        | running | forked => exact Option.some_ne_none w
        | call | yielded =>
            rcases fits with ⟨v', same, waits⟩
            cases same
            exact ⟨w, rfl, fun go => waits (runs go)⟩
  · intro q u halts found go
    by_cases same : q = p
    · subst same
      cases self found
      exact wf.waits q v halts there (runs go)
    · exact wf.waits q u halts ((update_of_ne same ..).symm.trans found) go
  · intro u c share found forks
    cases self found
    exact .inl ⟨id, v, there, work.symm.trans forks⟩
  · intro u c share lo tos failed found box
    cases self found
    exact said c share lo tos failed box
  · intro old
    rw [(wf.new p old).2] at there
    cases there

theorem reply (of : s.phase.Of p) (image : s.mach.execd p = none) {work : Option (Pid × Bool)}
    (fresh : ∀ c share, work = some (c, share) → s.st c = some .forking ∧ c < s.npid ∧
      ∀ q u share', s.mach.procs q = some u → u.work ≠ some (c, share')) :
    Wf (s.reply p work) := by
  rcases wf.live of with ⟨v, there⟩
  rcases wf.entered p of with ⟨running, in_⟩
  set w : Worker := { v with box := .answered, work := work } with w_def
  have replied : s.mach.reply p work = s.mach.setProc p w := by
    rw [Mach.reply, there]
  have sh : Shared (s.mach.setProc p w) := by
    have revised : Shared ((s.mach.setMem v.mem (s.mach.mems v.mem)).setProc p w) :=
      wf.shared.revise there rfl rfl (wf.shared.low p v there) (fun _ => ⟨in_, image⟩)
        (fun _ out => absurd in_ out) (fun none_ _ => wf.shared.inplace p v there none_ in_)
        (.inl rfl)
    rw [Shared.setMem_self] at revised
    exact revised
  have self {u : Worker} (found : update s.mach.procs p (some w) p = some u) : w = u := by
    rw [update_self] at found
    exact Option.some.inj found
  rw [State.reply, replied]
  refine wf.change p sh rfl (fun q other => update_of_ne other ..) (fun _ _ => rfl)
    (fun _ _ => rfl) (alone_of of) (wf.not_forking of) ?_ ?_ ?_ ?_ ?_ ?_ ?_
  · show Fits (update s.mach.procs p (some w) p) (s.st p)
    rw [running, update_self]
    exact Option.some_ne_none w
  · exact fun left => absurd image left
  · intro q same
    have same : p = q := same
    exact same ▸ ⟨running, in_⟩
  · exact fun _ _ halts => halts.elim
  · intro u c share found forks
    cases self found
    exact .inr (fresh c share forks)
  · intro u c share lo tos failed found box
    cases self found
    cases box
  · intro old
    rw [(wf.new p old).2] at there
    cases there

theorem child : Wf { s.put s.npid .forking with npid := s.npid + 1 } := by
  have none_ := (wf.new s.npid (Nat.le_refl _)).2
  have unused := (wf.new s.npid (Nat.le_refl _)).1
  have other {q : Pid} {st : St} (at_ : s.st q = some st) :
      update s.st s.npid (some .forking) q = some st := by
    rw [update_of_ne]
    · exact at_
    · rintro rfl
      rw [unused] at at_
      cases at_
  refine ⟨wf.shared, ?_, ?_, ?_, wf.waits, ?_, wf.said, wf.once, ?_, ?_⟩
  · intro q
    show Fits _ (update s.st s.npid (some .forking) q)
    by_cases same : q = s.npid
    · subst same
      rw [update_self]
      exact none_
    · rw [update_of_ne same]
      exact wf.fits q
  · intro q left
    exact (wf.execd q left).imp_left other
  · intro q of
    exact ⟨other (wf.entered q of).1, (wf.entered q of).2⟩
  · intro q u c share found forks
    exact (wf.forks q u c share found forks).imp_right other
  · intro q u c share found forks
    exact Nat.lt_succ_of_lt (wf.young q u c share found forks)
  · intro q old
    have past : s.npid + 1 ≤ q := old
    rcases wf.new q (Nat.le_of_succ_le past) with ⟨st, gone⟩
    exact ⟨(update_of_ne (Nat.ne_of_gt past) ..).trans st, gone⟩

theorem over_ (of : s.phase.Of p) (lone : ∀ v, s.mach.procs p = some v → v.Runs →
      ∀ q w, q ≠ p → s.mach.procs q = some w → w.mem ≠ v.mem) : Wf (s.over_ p) := by
  have sh := wf.shared.ends lone
  have gone : (s.mach.end_ p).procs p = none := by
    rw [Shared.end_eq]
    exact update_self ..
  have over_ : (s.over_ p).st p = none := update_self ..
  refine wf.change p sh rfl ?_ (fun q other => update_of_ne other ..) ?_ (alone_of of)
    (wf.not_forking of) ?_ ?_ (fun _ of => of.elim) (fun _ _ halts => halts.elim) ?_ ?_
    fun _ => ⟨over_, gone⟩
  · intro q other
    show (s.mach.end_ p).procs q = _
    rw [Shared.end_eq]
    exact update_of_ne other ..
  · intro q other
    show (s.mach.end_ p).execd q = _
    rw [Shared.end_eq]
    exact update_of_ne other ..
  · rw [over_]
    exact trivial
  · intro left
    have left : (s.mach.end_ p).execd p ≠ none := left
    rw [Shared.end_eq] at left
    exact absurd (update_self ..) left
  · intro u c share found
    cases gone.symm.trans found
  · intro u c share lo tos failed found
    cases gone.symm.trans found

theorem turns (only : ∀ q, s.phase.Of q → q = p) {φ : Phase} (sh : Shared m)
    (procs : m.procs = update s.mach.procs p (some w))
    (execd : ∀ q, q ≠ p → m.execd q = s.mach.execd q)
    (left : m.execd p ≠ none → φ = .calls p .exec) (next : ∀ q, φ.Of q → q = p) (in_ : m.In p)
    (waits : φ.Halts p → ¬w.Runs) (known : s.st p ≠ none) (plain : s.st p ≠ some .forking)
    (work : ∀ c share, w.work = some (c, share) →
      s.phase ≠ .answers p ∧ ∃ v, s.mach.procs p = some v ∧ v.work = some (c, share))
    (said : ∀ c share lo tos failed, w.box = .said (.forked c share lo tos failed) →
      w.work = some (c, share)) :
    Wf { s with mach := m, st := update s.st p (some .running), phase := φ } := by
  have self {u : Worker} (found : m.procs p = some u) : w = u := by
    rw [procs, update_self] at found
    exact Option.some.inj found
  refine wf.change p sh rfl ?_ (fun q other => update_of_ne other ..) execd (alone only)
    plain ?_ (fun some_ => .inr (left some_)) ?_ ?_ ?_ ?_ fun old => absurd (wf.new p old).1 known
  · intro q other
    show m.procs q = _
    rw [procs, update_of_ne other]
  · show Fits (m.procs p) (update s.st p (some .running) p)
    rw [update_self, procs, update_self]
    exact Option.some_ne_none w
  · intro q of
    cases next q of
    exact ⟨update_self .., in_⟩
  · intro q u halts found
    cases next q halts.of
    exact self found ▸ waits halts
  · intro u c share found forks
    cases self found
    rcases work c share forks with ⟨phase, there⟩
    exact .inl ⟨fun answers => absurd answers phase, there⟩
  · intro u c share lo tos failed found box
    cases self found
    exact said c share lo tos failed box

theorem parks (of : s.phase.Of p) (plain : s.phase ≠ .answers p) {σ : St}
    (fits : Fits (s.mach.procs p) (some σ))
    (left : s.mach.execd p ≠ none → σ = .call .exec) :
    Wf { s.put p σ with phase := .sched } := by
  have self : update s.st p (some σ) p = some σ := update_self ..
  refine wf.change p wf.shared rfl (fun _ _ => rfl) (fun q other => update_of_ne other ..)
    (fun _ _ => rfl) (alone_of of) (wf.not_forking of) ?_
    (fun some_ => .inl (self.trans (congrArg some (left some_)))) (fun _ of => of.elim)
    (fun _ _ halts => halts.elim) (kept plain) (wf.said p) ?_
  · show Fits _ (update s.st p (some σ) p)
    rw [self]
    exact fits
  · intro old
    rcases wf.live of with ⟨v, there⟩
    rw [(wf.new p old).2] at there
    cases there

theorem halts (of : s.phase.Of p) (plain : s.phase ≠ .answers p) {φ : Phase}
    (halts : φ.Halts p) (waits : ∀ v, s.mach.procs p = some v → ¬v.Runs)
    (left : s.mach.execd p ≠ none → φ = .calls p .exec) : Wf { s with phase := φ } := by
  refine wf.change p wf.shared rfl (fun _ _ => rfl) (fun _ _ => rfl) (fun _ _ => rfl) (alone_of of)
    (wf.not_forking of) (wf.fits p) (fun some_ => .inr (left some_)) ?_ ?_ (kept plain) (wf.said p)
    (wf.new p)
  · intro q of'
    cases Phase.Of.unique halts.of of'
    exact wf.entered p of
  · intro q v halts' found
    cases Phase.Of.unique halts.of halts'.of
    exact waits v found

theorem settles {c : Pid} {share : Bool} (of : s.phase.Of p)
    (plain : s.phase ≠ .answers p) (there : s.mach.procs p = some v)
    (work : v.work = some (c, share)) (waits : ¬v.Runs)
    (image : s.mach.execd p = none) (sh : Shared m) (execd : m.execd = s.mach.execd)
    (in_ : m.In p) (procs : ∀ q, q ≠ c → m.procs q = s.mach.procs q)
    (born : ∀ u, m.procs c = some u → ¬u.Runs ∧ u.work = none ∧ u.box = .runs) {σ : St}
    (fits : Fits (m.procs c) (some σ)) :
    Wf { s.put c σ with mach := m, phase := .answers p } := by
  have forking := (wf.forks p v c share there work).resolve_left plain
  have differ := wf.apart of forking
  have st {q : Pid} (other : q ≠ c) : update s.st c (some σ) q = s.st q :=
    update_of_ne other ..
  have proc {q : Pid} {u : Worker} (found : m.procs q = some u) :
      q = c ∧ ¬u.Runs ∧ u.work = none ∧ u.box = .runs ∨ q ≠ c ∧ s.mach.procs q = some u := by
    by_cases same : q = c
    · subst same
      exact .inl ⟨rfl, born u found⟩
    · exact .inr ⟨same, (procs q same).symm.trans found⟩
  have worked {q : Pid} {u : Worker} {c' : Pid} {share' : Bool} (found : m.procs q = some u)
      (forks : u.work = some (c', share')) : s.mach.procs q = some u := by
    rcases proc found with ⟨_, _, none_, _⟩ | ⟨_, found₀⟩
    · rw [none_] at forks
      cases forks
    · exact found₀
  refine ⟨sh, ?_, ?_, ?_, ?_, ?_, ?_, ?_, ?_, ?_⟩
  · intro q
    show Fits (m.procs q) (update s.st c (some σ) q)
    by_cases same : q = c
    · rw [same, update_self]
      exact fits
    · rw [st same, procs q same]
      exact wf.fits q
  · intro q some_
    have some_ : s.mach.execd q ≠ none := fun gone => some_ ((congrFun execd q).trans gone)
    rcases wf.execd q some_ with at_ | phase
    · refine .inl ((st ?_).trans at_)
      rintro rfl
      rw [forking] at at_
      cases at_
    · have same : q = p := Phase.Of.unique (phase ▸ rfl) of
      exact absurd (same ▸ image) some_
  · intro q of'
    have same : p = q := of'
    subst same
    exact ⟨(st (Ne.symm differ)).trans (wf.entered p of).1, in_⟩
  · intro q u halts found
    have same : p = q := halts
    subst same
    rw [procs p (Ne.symm differ), there] at found
    cases found
    exact waits
  · intro q u c' share' found forks
    have found₀ := worked found forks
    by_cases same : q = p
    · exact .inl (congrArg Phase.answers same.symm)
    · rcases wf.forks q u c' share' found₀ forks with answers | forking
      · exact absurd (Phase.Of.unique (answers ▸ rfl) of) same
      · refine .inr ((st ?_).trans forking)
        rintro rfl
        exact same (wf.once q p u v c' share' share found₀ there forks work)
  · intro q u c' share' lo tos failed found box
    rcases proc found with ⟨_, _, _, idle⟩ | ⟨_, found₀⟩
    · rw [idle] at box
      cases box
    · exact wf.said q u c' share' lo tos failed found₀ box
  · intro q r u u' c' share₁ share₂ hq hr forksq forksr
    exact wf.once q r u u' c' share₁ share₂ (worked hq forksq) (worked hr forksr) forksq forksr
  · intro q u c' share' found forks
    exact wf.young q u c' share' (worked found forks) forks
  · intro q old
    rcases wf.new q old with ⟨gone, none_⟩
    have other : q ≠ c := Nat.ne_of_gt (Nat.lt_of_lt_of_le (wf.young p v c share there work) old)
    exact ⟨(st other).trans gone, (procs q other).trans none_⟩

theorem running (there : s.mach.procs p = some v) (runs : v.Runs) :
    s.mach.In p ∧ s.mach.execd p = none :=
  ⟨wf.shared.runs p v there runs, wf.shared.program there runs⟩

theorem store (there : s.mach.procs p = some v) (runs : v.Runs) (mem : Mem) :
    Wf { s with mach := (s.mach.setMem v.mem mem).setProc p { v with own := mem } } := by
  rcases wf.running there runs with ⟨in_, image⟩
  apply wf.revise (w := { v with own := mem }) there
  · apply wf.shared.revise (w := { v with own := mem }) there rfl rfl (wf.shared.low p v there)
    · exact fun _ => ⟨in_, image⟩
    · exact fun _ out => absurd in_ out
    · exact fun _ _ _ _ _ => rfl
    · exact .inr ⟨image, in_⟩
  · exact fun _ => runs
  · rfl
  · exact fun c share lo tos failed box => wf.said p v c share lo tos failed there box

theorem mailed (there : s.mach.procs p = some v) {w : Worker} (same : w.mem = v.mem)
    (top : w.top = v.top) (low : w.low ≤ w.base) (work : w.work = v.work)
    (waits : ¬w.Runs) (away : ∀ kept, ¬s.mach.In p → v.Keeps kept → w.Keeps kept)
    (here : s.mach.execd p = none → s.mach.In p → s.mach.Holds w)
    (said : ∀ c share lo tos failed, w.box = .said (.forked c share lo tos failed) →
      w.work = some (c, share)) :
    Wf { s with mach := s.mach.setProc p w } := by
  have sh : Shared ((s.mach.setMem v.mem (s.mach.mems v.mem)).setProc p w) :=
    wf.shared.revise there same top low (fun runs => absurd runs waits) away
      (fun image in_ => same ▸ here image in_) (.inl rfl)
  have revised := wf.revise there sh (fun runs => absurd runs waits) work said
  rw [Shared.setMem_self] at revised
  exact revised

theorem speaks (there : s.mach.procs p = some v) (runs : v.Runs) {e : Said}
    (may : v.MaySay e) (low : Nat) :
    Wf { s with mach := s.mach.setProc p (v.say (s.mach.mems v.mem) e low) } := by
  apply wf.mailed (w := v.say (s.mach.mems v.mem) e low) there rfl rfl (Nat.le_refl _) rfl
  · rintro ⟨_, box | box⟩ <;> cases box
  · intro _ out
    exact absurd (wf.running there runs).1 out
  · exact fun _ _ _ _ _ => rfl
  · intro c share lo tos failed box
    cases box
    exact may

theorem boxed (there : s.mach.procs p = some v) {box : Box} (waits : box ≠ .runs ∧ box ≠ .answered)
    (plain : ∀ c share lo tos failed, box ≠ .said (.forked c share lo tos failed)) :
    Wf { s with mach := s.mach.setProc p { v with box := box } } := by
  apply wf.mailed (w := { v with box := box }) there rfl rfl (wf.shared.low p v there) rfl
  · rintro ⟨_, box | box⟩
    · exact waits.1 box
    · exact waits.2 box
  · exact fun _ _ keeps => keeps
  · exact fun image in_ => wf.shared.inplace p v there image in_
  · intro c share lo tos failed box
    exact absurd box (plain c share lo tos failed)

theorem drift (drifts : i ∈ s.mach.adrift) (mem : Mem) :
    Wf { s with mach := s.mach.setMem i mem } := by
  have sh : Shared (s.mach.setMem i mem) := by
    refine { wf.shared with inplace := ?_ }
    intro q u found image in_ a from_ below
    have apart : u.mem ≠ i := by
      rintro rfl
      exact wf.shared.adrift q u found drifts
    exact (congrFun (update_of_ne apart ..) a).trans
      (wf.shared.inplace q u found image in_ a from_ below)
  exact { wf with shared := sh }

theorem cease (i : Nat) :
    Wf { s with mach := { s.mach with adrift := s.mach.adrift.erase i } } := by
  have sh : Shared { s.mach with adrift := s.mach.adrift.erase i } :=
    { wf.shared with
      adrift_lt := fun j member => wf.shared.adrift_lt j (List.mem_of_mem_erase member)
      adrift := fun q u found member => wf.shared.adrift q u found (List.mem_of_mem_erase member)
      once := wf.shared.once.erase i }
  exact { wf with shared := sh }

theorem ask : Wf { s with mach := s.mach.ask p } := by
  rw [Mach.ask]
  split
  case h_1 => exact wf
  case h_2 v there => exact wf.boxed there (by decide) (fun _ _ _ _ _ => by simp)

theorem write (halts : s.phase.Halts p) (image : s.mach.execd p = none)
    {a : Nat} {bytes : List UInt8} (step : s.write p a bytes = some s') : Wf s' := by
  rw [State.write] at step
  rcases there : s.mach.procs p with _ | v <;> rw [there] at step <;> cases step
  have in_ := (wf.entered p halts.of).2
  apply wf.revise (w := { v with own := splice v.own a bytes }) there
  · apply wf.shared.revise (w := { v with own := splice v.own a bytes }) there rfl rfl
      (wf.shared.low p v there)
    · exact fun _ => ⟨in_, image⟩
    · exact fun _ out => absurd in_ out
    · intro _ _ x from_ below
      exact splice_congr (wf.shared.inplace p v there image in_ x from_ below)
    · exact .inr ⟨image, in_⟩
  · exact id
  · rfl
  · exact fun c share lo tos failed box => wf.said p v c share lo tos failed there box

theorem image (of : s.phase.Of p) (plain : s.phase ≠ .calls p .exec) : s.mach.execd p = none := by
  by_contra left
  rcases wf.execd p left with at_ | phase
  · rw [(wf.entered p of).1] at at_
    cases at_
  · exact plain phase

theorem touser (phase : s.phase = .calls p .exec) (top : Nat) : Wf { s with mach :=
      { s.mach.leave p with
        execd := update (s.mach.leave p).execd p (some top) } } := by
  have of : s.phase.Of p := phase ▸ rfl
  rcases wf.live of with ⟨v, there⟩
  have sh := wf.shared.touser there (wf.waits p v (phase ▸ rfl) there) top
  have procs : (s.mach.leave p).procs = s.mach.procs := by
    rw [Mach.leave]
    cases s.mach.sharing p <;> rfl
  have execd : (s.mach.leave p).execd = s.mach.execd := by
    rw [Mach.leave]
    cases s.mach.sharing p <;> rfl
  refine wf.change p sh rfl (fun q _ => congrFun procs q) (fun _ _ => rfl)
    (fun q other => (update_of_ne other ..).trans (congrFun execd q)) (fun _ _ _ => rfl)
    (wf.not_forking of) ?_ (fun _ => .inr phase) ?_ ?_ ?_ ?_ ?_
  · show Fits ((s.mach.leave p).procs p) _
    rw [procs]
    exact wf.fits p
  · intro q of'
    cases Phase.Of.unique of of'
    refine ⟨(wf.entered p of).1, fun i at_ => ?_⟩
    have at_ : (s.mach.leave p).sharing p = some i := at_
    rw [Shared.leave_sharing, if_pos rfl] at at_
    cases at_
  · exact fun q u halts found => wf.waits q u halts ((congrFun procs q).symm.trans found)
  · exact fun u c share found forks => .inl ⟨id, u, (congrFun procs p).symm.trans found, forks⟩
  · exact fun u c share lo tos failed found =>
      wf.said p u c share lo tos failed ((congrFun procs p).symm.trans found)
  · exact fun old => ⟨(wf.new p old).1, (congrFun procs p).trans (wf.new p old).2⟩

theorem fails (calls : ∀ q, s.phase ≠ .calls q .exec)
    (answers : ∀ q, s.phase ≠ .answers q) : Wf { s with phase := .failed } := by
  refine { wf with execd := ?_, entered := fun _ of => of.elim,
                   waits := fun _ _ halts => halts.elim, forks := ?_ }
  · exact fun q left => .inl ((wf.execd q left).resolve_right (calls q))
  · exact fun q v c share found works =>
      .inr ((wf.forks q v c share found works).resolve_left (answers q))

theorem forgets (idle : s.phase = .sched) (at_ : s.st p = some .unforked) :
    Wf { s with st := update s.st p none } := by
  have self : update s.st p none p = none := update_self ..
  have nobody (q : Pid) : ¬s.phase.Of q := by
    rw [idle]
    exact id
  have fits := wf.fits p
  rw [at_] at fits
  have gone : s.mach.procs p = none := fits
  refine wf.change p wf.shared rfl (fun _ _ => rfl) (fun q other => update_of_ne other ..)
    (fun _ _ => rfl) (fun _ _ _ => rfl) (by simp [at_]) ?_ ?_ (fun q of => absurd of (nobody q))
    wf.waits ?_ (wf.said p) fun _ => ⟨self, gone⟩
  · show Fits _ (update s.st p none p)
    rw [self]
    exact trivial
  · intro left
    rcases wf.execd p left with call | phase
    · rw [at_] at call
      cases call
    · exact absurd (phase ▸ rfl) (nobody p)
  · intro u c share found
    cases gone.symm.trans found

theorem starts {top : Nat} (alone : s.mach.sharing p = none)
    (waits : ∀ v, s.mach.procs p = some v → ¬v.Runs) (only : ∀ q, s.phase.Of q → q = p)
    (known : s.st p ≠ none) (plain : s.st p ≠ some .forking) {φ : Phase}
    (next : ∀ q, φ.Of q → q = p) (runs : ¬φ.Halts p) {execd : Pid → Option Nat}
    (others : ∀ q, q ≠ p → execd q = s.mach.execd q) (self : execd p = none) :
    Wf { s with
      mach := { s.mach with execd := execd }.start p top
      st := update s.st p (some .running)
      phase := φ } := by
  let w : Worker := ⟨s.mach.nmem, top, .runs, true, 0, none, 0, fun _ => 0⟩
  have sh := @Shared.add s.mach p w (fun _ => 0) wf.shared alone rfl (Nat.le_refl _)
    (fun _ _ _ => rfl) execd others self
  rw [start_eq (m := { s.mach with execd := execd }) waits]
  apply wf.turns only sh rfl others (fun left => absurd self left) next
  · intro i at_
    exact absurd (alone.symm.trans at_) (by simp)
  · exact fun halts => absurd halts runs
  · exact known
  · exact plain
  · exact fun _ _ work => by cases work
  · exact fun _ _ _ _ _ box => by cases box

theorem enters (idle : s.phase = .sched) : Wf (s.enter p) := by
  have only (q : Pid) (of : s.phase.Of q) : q = p := by
    rw [idle] at of
    exact of.elim
  have fits := wf.fits p
  have goes {σ : St} {m : Mach} (at_ : s.st p = some σ) (runs : σ ≠ .forking ∧ σ ≠ .unforked)
      (entered : s.mach.occupy p = some m) :
      Wf (({ s with mach := m }.put p .running).go p σ) := by
    rw [at_] at fits
    have known : s.st p ≠ none := by simp [at_]
    have plain : s.st p ≠ some .forking := fun is => runs.1 (Option.some.inj (at_.symm.trans is))
    rcases wf.shared.occupies entered with ⟨sh, in_⟩
    rcases Shared.occupy_fields entered with ⟨procs, execd, sharing⟩
    have waiting {c : Trap} (is : σ = .call c) (left : m.execd p ≠ none) :
        Phase.calls p c = .calls p .exec := by
      rw [execd] at left
      rcases wf.execd p left with call | phase
      · rw [at_, is] at call
        cases call
        rfl
      · rw [idle] at phase
        cases phase
    have image (other : ∀ c, σ ≠ .call c) : m.execd p = none := by
      by_contra left
      rw [execd] at left
      rcases wf.execd p left with call | phase
      · exact other _ (Option.some.inj (at_.symm.trans call))
      · rw [idle] at phase
        cases phase
    have same {v : Worker} (there : s.mach.procs p = some v) :
        m.procs = update s.mach.procs p (some v) := by
      rw [procs, ← there, update_eq_self]
    have worked {v : Worker} (there : s.mach.procs p = some v) (c : Pid) (share : Bool)
        (work : v.work = some (c, share)) :
        s.phase ≠ .answers p ∧ ∃ v, s.mach.procs p = some v ∧ v.work = some (c, share) := by
      refine ⟨?_, v, there, work⟩
      rw [idle]
      simp
    cases σ with
    | image top =>
        have none_ : s.mach.procs p = none := fits
        have alone := wf.shared.sharing_none none_
        have unmoved : m = s.mach := by
          rw [Mach.occupy, alone] at entered
          exact (Option.some.inj entered).symm
        subst unmoved
        apply wf.starts alone (fun v found => by rw [none_] at found; cases found) only known plain
        · exact fun q of => of.symm
        · exact id
        · exact fun _ _ => rfl
        · exact image (by simp)
    | running =>
        rcases Option.ne_none_iff_exists'.1 fits with ⟨v, there⟩
        exact wf.turns only sh (same there) (fun q _ => congrFun execd q)
          (fun left => absurd (image (by simp)) left) (fun q of => of.symm) in_
          (fun halts => halts.elim) known plain (worked there)
          (fun c share lo tos failed box => wf.said p v c share lo tos failed there box)
    | call c =>
        rcases fits with ⟨v, there, waits⟩
        exact wf.turns only sh (same there) (fun q _ => congrFun execd q)
          (waiting rfl) (fun q of => of.symm) in_
          (fun _ => waits) known plain (worked there)
          (fun c share lo tos failed box => wf.said p v c share lo tos failed there box)
    | yielded =>
        rcases fits with ⟨v, there, waits⟩
        exact wf.turns only sh (same there) (fun q _ => congrFun execd q)
          (fun left => absurd (image (by simp)) left) (fun q of => of.symm) in_
          (fun _ => waits) known plain (worked there)
          (fun c share lo tos failed box => wf.said p v c share lo tos failed there box)
    | forked =>
        rcases Option.ne_none_iff_exists'.1 fits with ⟨v, there⟩
        have there' : m.procs p = some v := (congrFun procs p).trans there
        have begun : Shared ((m.setMem v.mem (m.mems v.mem)).setProc p
            { v with started := true }) :=
          sh.revise there' rfl rfl (sh.low p v there') (fun _ => ⟨in_, image (by simp)⟩)
            (fun _ out => absurd in_ out) (fun image in_ => sh.inplace p v there' image in_)
            (.inl rfl)
        rw [Shared.setMem_self] at begun
        have procs' : (m.setProc p { v with started := true }).procs =
            update s.mach.procs p (some { v with started := true }) := by
          rw [Mach.setProc, procs]
        have turned := wf.turns (φ := .runs p) only begun procs'
          (fun q _ => congrFun execd q) (fun left => absurd (image (by simp)) left)
          (fun q of => of.symm) in_ (fun halts => halts.elim) known plain
          (fun c share work => worked there c share work)
          (fun c share lo tos failed box => wf.said p v c share lo tos failed there box)
        simp only [State.go, State.put, there', Option.elim_some]
        exact turned
    | forking => exact absurd rfl runs.1
    | unforked => exact absurd rfl runs.2
  rw [State.enter]
  cases at_ : s.st p with
  | none => exact wf.fails (by simp [idle]) (by simp [idle])
  | some σ =>
      cases σ with
      | forking => exact wf
      | unforked => exact wf.forgets idle at_
      | image | running | call | yielded | forked =>
          cases entered : s.mach.occupy p with
          | none => exact wf
          | some m => exact goes at_ (by simp) entered

theorem takes (phase : s.phase = .runs p) (there : s.mach.procs p = some v)
    {e : Said} (box : v.box = .said e) : Wf (s.take p v e) := by
  have of : s.phase.Of p := phase ▸ rfl
  have plain : s.phase ≠ .answers p := by simp [phase]
  have image := wf.image of (by simp [phase])
  rcases wf.entered p of with ⟨running, in_⟩
  have waits : ¬v.Runs := by
    rintro ⟨_, is | is⟩ <;> rw [is] at box <;> cases box
  have waiting (u : Worker) (found : s.mach.procs p = some u) : ¬u.Runs := by
    rw [there] at found
    cases found
    exact waits
  have over_ : Wf (s.over_ p) := wf.over_ of fun u found runs => absurd runs (waiting u found)
  cases e with
  | call c => exact wf.halts of plain rfl waiting (fun left => absurd image left)
  | deliver => exact wf.halts of plain rfl waiting (fun left => absurd image left)
  | yield => exact wf.parks of plain ⟨v, there, waits⟩ (fun left => absurd image left)
  | forked c share lo tos failed =>
      have work := wf.said p v c share lo tos failed there box
      have forking := (wf.forks p v c share there work).resolve_left plain
      have none_ : s.mach.procs c = none := by
        have fits := wf.fits c
        rw [forking] at fits
        exact fits
      have differ := wf.apart of forking
      have image' : s.mach.execd c = none := by
        by_contra left
        rcases wf.shared.left c left with ⟨u, found, _⟩
        rw [none_] at found
        cases found
      simp only [State.take]
      split_ifs
      · exact wf.settles of plain there work waits image wf.shared rfl in_ (fun _ _ => rfl)
          (fun u found => by rw [none_] at found; cases found) none_
      · rcases Shared.fork_procs (m := s.mach) (p := p) (q := c) (v := v) share lo tos with
          ⟨w, idle, works, new, procs, execd⟩
        have made : Wf { s.put c .forked with
            mach := s.mach.fork p c v share lo tos, phase := .answers p } := by
          apply wf.settles of plain there work waits image
            (wf.shared.fork there image in_ none_ image' share lo tos) execd
            (wf.shared.fork_in there image in_ differ.symm share lo tos)
          · intro q other
            rw [procs, update_of_ne other]
          · intro u found
            rw [procs, update_self] at found
            cases found
            exact ⟨idle, works, new⟩
          · rw [procs, update_self]
            exact Option.some_ne_none w
        exact made.reply rfl ((congrFun execd p).trans image) (fun _ _ work => by cases work)
  | fault => exact over_
  | exited => exact over_
  | pc => exact wf.fails (by simp [phase]) (by simp [phase])

theorem finishes {c : Trap} {r : Ret} (phase : s.phase = .calls p c)
    (may : r ∈ [Ret.sched, .ok] ∨ s.mach.execd p = none) : Wf (s.finish p c r) := by
  have of : s.phase.Of p := phase ▸ rfl
  have plain : s.phase ≠ .answers p := by simp [phase]
  have waits (v : Worker) (found : s.mach.procs p = some v) : ¬v.Runs :=
    wf.waits p v (phase ▸ rfl) found
  rcases wf.entered p of with ⟨running, in_⟩
  rcases wf.live of with ⟨v, there⟩
  have over_ : Wf (s.over_ p) := wf.over_ of fun u found runs => absurd runs (waits u found)
  have image (other : c ≠ .exec) : s.mach.execd p = none :=
    wf.image of fun calls => other (by rw [phase] at calls; cases calls; rfl)
  have answers (image : s.mach.execd p = none) : Wf { s with phase := .answers p } :=
    wf.halts of plain rfl waits (fun left => absurd image left)
  have replies (image : s.mach.execd p = none) : Wf (s.reply p none) :=
    wf.reply of image (fun _ _ work => by cases work)
  have program (other : r ∉ [Ret.sched, .ok]) : s.mach.execd p = none := may.resolve_left other
  cases r with
  | sched =>
      apply wf.parks (σ := .call c) of plain ⟨v, there, waits v there⟩
      intro left
      by_cases exec : c = .exec
      · rw [exec]
      · exact absurd (image exec) left
  | err =>
      cases c with
      | exits => exact over_
      | exec | rfork | noted | other => exact answers (program (by simp))
  | save =>
      cases c with
      | exits => exact over_
      | exec | rfork | noted | other => exact answers (program (by simp))
  | cont =>
      cases c with
      | exits => exact over_
      | noted => exact replies (program (by simp))
      | exec | rfork | other => exact answers (program (by simp))
  | ok =>
      cases c with
      | exits => exact over_
      | noted => exact over_
      | rfork | other => exact answers (image (by simp))
      | exec =>
          simp only [State.finish]
          split
          case h_1 => exact over_
          case h_2 top execd =>
            have left : s.mach.execd p ≠ none := by simp [execd]
            apply wf.starts (wf.shared.sharing_left left) waits
            · exact fun q of' => (Phase.Of.unique of of').symm
            · simp [running]
            · simp [running]
            · exact fun _ of' => of'.elim
            · exact id
            · exact fun q other => update_of_ne other ..
            · exact update_self ..
  | pid =>
      cases c with
      | exits => exact over_
      | noted => exact over_
      | exec | other => exact answers (program (by simp))
      | rfork share =>
          apply wf.child.reply (p := p) of (program (by simp))
          intro c' share' work
          cases work
          refine ⟨update_self .., Nat.lt_succ_self _, ?_⟩
          intro q u share'' found work
          exact Nat.lt_irrefl _ (wf.young q u _ _ found work)

end Wf

theorem next {a : Act} (wf : Wf s) (orderly : Orderly s a) (step : s.next a = some s') :
    Wf s' := by
  cases a with
  | store p mem =>
      simp only [State.next] at step
      split at step
      case h_1 v there =>
        split_ifs at step with runs
        cases step
        exact wf.store there runs mem
      case h_2 => cases step
  | say p e low =>
      simp only [State.next] at step
      split at step
      case h_1 v there =>
        split_ifs at step with may
        cases step
        exact wf.speaks there may.1 may.2 low
      case h_2 => cases step
  | locate p =>
      simp only [State.next] at step
      split at step
      case h_1 v there =>
        split_ifs at step with asked
        cases step
        exact wf.boxed there (by simp) (by simp)
      case h_2 => cases step
  | died p =>
      simp only [State.next] at step
      split at step
      case h_1 v there =>
        split_ifs at step with started
        cases step
        exact wf.boxed there (by simp) (by simp)
      case h_2 => cases step
  | drift i mem =>
      simp only [State.next] at step
      split_ifs at step with drifts
      cases step
      exact wf.drift drifts mem
  | cease i =>
      cases step
      exact wf.cease i
  | enter p =>
      simp only [State.next] at step
      split_ifs at step with idle
      cases step
      exact wf.enters idle
  | clock pexit =>
      simp only [State.next] at step
      split at step
      case h_1 p phase =>
        have of : s.phase.Of p := phase ▸ rfl
        cases step
        cases pexit with
        | true =>
            simp only [Orderly, phase] at orderly
            rw [if_pos rfl]
            apply wf.over_ of
            intro v there runs q w other found
            refine orderly v there runs q ?_ other w found
            by_contra old
            rw [(wf.new q (Nat.le_of_not_lt old)).2] at found
            cases found
        | false =>
            rw [if_neg Bool.false_ne_true]
            have parked := wf.parks (σ := .running) of (by simp [phase]) ?_ ?_
            · rcases wf.entered p of with ⟨running, _⟩
              rw [State.put, ← running, update_eq_self] at parked
              exact parked
            · rcases wf.live of with ⟨v, there⟩
              exact fun none_ => by simp [there] at none_
            · exact fun left => absurd (wf.image of (by simp [phase])) left
      case h_2 => cases step
  | take =>
      simp only [State.next] at step
      split at step
      case h_1 p phase =>
        have of : s.phase.Of p := phase ▸ rfl
        rcases wf.live of with ⟨v, there⟩
        rw [there] at step
        simp only at step
        split at step
        case h_1 e box =>
          cases step
          exact wf.takes phase there box
        case h_2 => cases step
      case h_2 => cases step
  | ask =>
      simp only [State.next] at step
      split at step <;> cases step <;> exact wf.ask
  | write at_ bytes =>
      simp only [State.next] at step
      split at step
      case h_1 p c phase =>
        split_ifs at step with other
        exact wf.write (phase ▸ rfl) (wf.image (phase ▸ rfl) (by simp [phase, other])) step
      case h_2 p phase =>
        exact wf.write (phase ▸ rfl) (wf.image (phase ▸ rfl) (by simp [phase])) step
      case h_3 => cases step
  | touser top =>
      simp only [State.next] at step
      split at step
      case h_1 p phase =>
        split_ifs at step with first
        cases step
        exact wf.touser phase top
      case h_2 => cases step
  | done r =>
      simp only [State.next] at step
      split at step
      case h_1 p c phase =>
        split_ifs at step with may
        cases step
        exact wf.finishes phase may
      case h_2 => cases step
  | deliver pexit =>
      simp only [State.next] at step
      split at step
      case h_1 p phase =>
        have of : s.phase.Of p := phase ▸ rfl
        have waits (v : Worker) (found : s.mach.procs p = some v) : ¬v.Runs :=
          wf.waits p v (phase ▸ rfl) found
        cases step
        cases pexit with
        | true =>
            exact wf.over_ of fun u found runs => absurd runs (waits u found)
        | false =>
            exact wf.reply of (wf.image of (by simp [phase])) (fun _ _ work => by cases work)
      case h_2 => cases step

end Wf

theorem Wf.boot (top : Nat) (mems : Nat → Mem) : Wf (.boot top mems) := by
  have nobody {p : Pid} {v : Worker} (found : (State.boot top mems).mach.procs p = some v) :
      False := by
    cases found
  refine ⟨⟨?_, ?_, ?_, ?_, ?_, ?_, ?_, ?_, ?_, ?_, ?_, ?_, List.nodup_nil⟩, ?_, ?_, ?_, ?_, ?_, ?_,
    ?_, ?_, ?_⟩
  · exact fun p v found => (nobody found).elim
  · exact fun p v found => (nobody found).elim
  · exact fun p i shares => by cases shares
  · exact fun p q i v v' shares => by cases shares
  · exact fun p q v v' found => (nobody found).elim
  · exact fun i p lt => absurd lt (Nat.not_lt_zero i)
  · exact fun p left => absurd rfl left
  · exact fun p v found => (nobody found).elim
  · exact fun p i v shares => by cases shares
  · exact fun p v found => (nobody found).elim
  · exact fun i member => by cases member
  · exact fun p v found => (nobody found).elim
  · intro p
    show Fits none (update (fun _ => none) 1 (some (.image top)) p)
    rw [update_apply]
    split_ifs
    · exact rfl
    · exact trivial
  · exact fun p left => absurd rfl left
  · exact fun p of => of.elim
  · exact fun p v halts => halts.elim
  · exact fun p v c share found => (nobody found).elim
  · exact fun p v c share lo tos failed found => (nobody found).elim
  · exact fun p q v w c share share' found => (nobody found).elim
  · exact fun p v c share found => (nobody found).elim
  · intro p old
    have past : 2 ≤ p := old
    refine ⟨?_, rfl⟩
    show update (fun _ => none) 1 (some (St.image top)) p = none
    rw [update_of_ne (Nat.ne_of_gt past)]

/-- So it is in every run in which no sharer is ended at the clock while it runs. -/
theorem workers_exclusive (reached : machine.Reach Orderly s) : Exclusive s.mach := by
  have wf : Wf s := by
    apply reached.invariant Wf
    · rintro s ⟨top, mems, rfl⟩
      exact Wf.boot top mems
    · intro s a s' wf orderly step
      exact wf.next orderly step
  exact wf.shared.exclusive

def sharing : List Act :=
  [.enter 1, .say 1 (.call (.rfork true)) 40, .take, .done .pid,
    .say 1 (.forked 2 true 40 0 false) 40, .take, .say 1 .yield 40, .take, .enter 2]

def first : State := .boot 64 fun _ _ => 0

theorem first_init : machine.init first := ⟨64, fun _ _ => 0, rfl⟩

def told (s : State) (p : Pid) : Option (Nat × Bool) :=
  (s.mach.procs p).map fun v => (v.mem, decide v.Runs)

theorem workers_exclusive_shared :
    ∃ s, Exclusive s.mach ∧ told s 1 = some (0, false) ∧ told s 2 = some (0, true) := by
  have ends : (System.runs State.next Orderly first sharing).map (fun s => (told s 1, told s 2)) =
      some (some (0, false), some (0, true)) := by decide
  rcases ran : System.runs State.next Orderly first sharing with _ | s <;> rw [ran] at ends
  · cases ends
  simp only [Option.map_some, Option.some.injEq, Prod.mk.injEq] at ends
  have reached : machine.Reach Orderly s :=
    (System.Reach.init first_init).runs (fun _ _ _ moved => moved) ran
  exact ⟨s, workers_exclusive reached, ends⟩

/-- The child is ended at the clock, and its parent answered while the child's worker runs yet. -/
theorem workers_exclusive_fails : ¬∀ s, machine.Reachable s → Exclusive s.mach := by
  intro all
  let acts : List Act := sharing ++ [.clock true, .enter 1, .deliver false]
  have ends : (System.runs State.next (fun _ _ => True) first acts).map
      (fun s => (told s 1, s.mach.adrift)) = some (some (0, true), [0]) := by decide
  rcases ran : System.runs State.next (fun _ _ => True) first acts with _ | s <;> rw [ran] at ends
  · cases ends
  simp only [Option.map_some, Option.some.injEq, Prod.mk.injEq, told,
      Option.map_eq_some_iff] at ends
  rcases ends with ⟨⟨v, there, mem, runs⟩, adrift⟩
  have reached : machine.Reachable s :=
    (System.Reach.init first_init).runs (fun _ _ _ moved => moved) ran
  apply (all s reached).ended 1 v there (of_decide_eq_true runs)
  rw [adrift, mem]
  exact List.mem_singleton_self 0

end Ipnx.Workers
