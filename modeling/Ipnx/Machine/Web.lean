import Ipnx.Machine.Forks

/-!
# The browser's machine

`hosts/web/src/machine.rs`: a process runs in a worker of its own and says what it wants. The
machine keeps an `St` for each and answers the one it has entered, until that one leaves. A
forking worker unwinds while the clock goes on, so its parent may leave in the middle.

What a worker is doing (`www/proc.mjs`) is kept beside the machine: after `FORK` it says
nothing but `FORKED`, and after `GO` nothing but `YIELD`, unless it traps.
-/

namespace Ipnx

open Function (update update_of_ne update_self)

inductive St
  | image
  | running
  | call (c : Trap)
  | yielded
  | forking
  | forked
  | unforked
  deriving DecidableEq, Repr

inductive Work
  | user
  | unwinding (child : Pid)
  | winding
  deriving DecidableEq, Repr

/-- `Left`, of a process that may also stay. -/
inductive Stays
  | stays | sched | exited
  deriving DecidableEq, Repr

/-- What the entered process's worker says, or the clock. -/
inductive Said
  | time (note : Notify) (sched : Bool)
  | call (c : Trap) (how : Course) (note : Notify)
  | deliver (note : Notify)
  | yield
  | forked (failed : Bool) (note : Notify)
  | fault
  | exited
  deriving DecidableEq, Repr

structure Web where
  kern : Tasks
  st : Pid → Option St
  work : Pid → Work
  /-- The process entered. -/
  cur : Option Pid
  born : List Pid
  stillborn : List Pid
  ran : List Pid
  failed : Option String

namespace Web

def put (m : Web) (pid : Pid) (s : St) : Web :=
  { m with st := update m.st pid (some s) }

/-- The process is over and the machine forgets it. -/
def finishOff (m : Web) (pid : Pid) : Web :=
  { m with st := update m.st pid none, work := update m.work pid .user }

def deliver (m : Web) (pid : Pid) (note : Notify) : Web × Stays :=
  if note = .pexit then (m.finishOff pid, .exited) else (m, .stays)

def finish (m : Web) (pid : Pid) (c : Trap) (v : Value) (note : Notify) : Web × Stays :=
  match v with
  | .sched => (m.put pid (.call c), .sched)
  | .pid child =>
      if c.forks then
        ({ m.put child .forking with
            work := update m.work pid (.unwinding child) }, .stays)
      else m.deliver pid note
  | .ok | .failed =>
      match c with
      | .exits => (m.finishOff pid, .exited)
      | .exec => if v = .ok then (m.put pid .running, .sched) else m.deliver pid note
      | _ => m.deliver pid note

/-- The child's memory is made, and its parent winds its stack back. -/
def raise (m : Web) (pid child : Pid) : Web :=
  { m.put child .forked with
    work := update m.work pid .winding
    born := m.born ++ [child] }

def abandon (m : Web) (pid child : Pid) : Web :=
  { m.put child .unforked with
    work := update m.work pid .user
    stillborn := m.stillborn ++ [child] }

/-- The parent has unwound for its child, or could not. -/
def forked (m : Web) (pid child : Pid) (failed : Bool) (note : Notify) : Web × Stays :=
  if failed then (m.abandon pid child).deliver pid note else (m.raise pid child, .stays)

/-- One turn of `run`'s loop; `none` is what a worker does not say where it is. -/
def said (m : Web) (pid : Pid) : Said → Option (Web × Stays)
  | .time note sched =>
      match note with
      | .pexit => some (m.finishOff pid, .exited)
      | .sched => some (m, .sched)
      | _ => some (m, if sched then .sched else .stays)
  | .call c how note =>
      if m.work pid = .user then
        let r := m.kern.syscall pid c how
        some ({ m with kern := r.1 }.finish pid c r.2 note)
      else none
  | .deliver note => if m.work pid = .user then some (m.deliver pid note) else none
  | .yield =>
      if m.work pid = .winding then
        some ({ m.put pid .yielded with work := update m.work pid .user }, .sched)
      else none
  | .forked failed note =>
      match m.work pid with
      | .unwinding child => some (m.forked pid child failed note)
      | _ => none
  | .fault | .exited => some (m.finishOff pid, .exited)

/-- The process goes on in `run`, or is back with the scheduler. -/
def settle (pid : Pid) (r : Web × Stays) : Web :=
  match r.2 with
  | .stays => { r.1 with cur := some pid }
  | .sched => { r.1 with cur := none }
  | .exited => { r.1 with cur := none, kern := r.1.kern.exited pid }

def go (m : Web) (pid : Pid) (s : St) (how : Course) (note : Notify) : Web × Stays :=
  let m := { m.put pid .running with ran := m.ran ++ [pid] }
  match s with
  | .yielded => m.deliver pid note
  | .call c =>
      let r := m.kern.resume pid how
      { m with kern := r.1 }.finish pid c r.2 note
  | _ => (m, .stays)

/-- `gotolabel`, as far as `run`; `occupied` says whether another sharer's stack is in the
way. -/
def enter (m : Web) (pid : Pid) (occupied : Bool) (how : Course) (note : Notify) : Web :=
  match m.st pid with
  | none => { m with failed := some "no such process" }
  | some .forking => m
  | some .unforked =>
      { m with st := update m.st pid none, kern := m.kern.exited pid }
  | some s => if occupied then m else settle pid (m.go pid s how note)

inductive Act
  | enter (pid : Pid) (occupied : Bool) (how : Course) (note : Notify)
  | said (s : Said)
  | ctl (pid : Pid) (c : Option Procctl)

def view (m : Web) : Forks where
  kern := m.kern
  known pid := (m.st pid).isSome
  making pid := m.st pid == some .forking
  born := m.born
  stillborn := m.stillborn
  ran := m.ran
  failed := m.failed

def step (m : Web) : Act → Option Web
  | .enter pid occupied how note =>
      if m.cur = none then some (m.enter pid occupied how note) else none
  | .said s =>
      match m.cur with
      | some pid => (m.said pid s).map (settle pid)
      | none => none
  | .ctl pid c => some { m with kern := m.kern.ctl pid c }

def boot : Web where
  kern := .boot
  st pid := if pid = firstPid then some .image else none
  work _ := .user
  cur := none
  born := []
  stillborn := []
  ran := []
  failed := none

def system : System Web Act where
  init m := m = boot
  step m a m' := m.step a = some m' ∧ m.failed = none ∧
    match a with
    | .enter pid _ _ _ => m.view.Live pid
    | _ => True

/-- No tracer stops an `rfork` between its child and its answer, and no process ends while
its stack unwinds for one. -/
def Smooth (m : Web) : Act → Prop
  | .enter pid _ _ _ =>
      ∀ t c, m.st pid = some (.call c) → m.kern.tab pid = some t →
        t.label = some (.dispatch c) → c.forks = true → t.procctl ≠ some .tracesyscall
  | .said s =>
      ∀ pid child, m.cur = some pid → m.work pid = .unwinding child →
        s ≠ .fault ∧ s ≠ .exited ∧ ∀ sched, s ≠ .time .pexit sched
  | .ctl _ _ => True

/-- A child is in the making exactly while its parent's worker unwinds for it. -/
structure Inv (m : Web) : Prop where
  sound : m.failed = none
  fresh : ∀ q, m.kern.next ≤ q → m.kern.tab q = none ∧ m.st q = none
  unmade : ∀ q, m.kern.next ≤ q → m.born.count q + m.stillborn.count q = 0
  made : ∀ q, q ≠ firstPid → (m.kern.tab q).isSome →
    m.born.count q + m.stillborn.count q + (if m.st q = some .forking then 1 else 0) = 1
  known : ∀ q t, m.kern.tab q = some t → t.ended = false → (m.st q).isSome
  unwinding : ∀ p q, m.work p = .unwinding q → m.st q = some .forking ∧ m.st p = some .running ∧
    (∃ t, m.kern.tab p = some t ∧ t.ended = false) ∧ ∃ t, m.kern.tab q = some t ∧ t.ppid = p
  making : ∀ q, m.st q = some .forking → ∃ t, m.kern.tab q = some t ∧ m.work t.ppid = .unwinding q
  fits : ∀ q c, m.st q = some (.call c) → ∃ t, m.kern.tab q = some t ∧ t.Fits c
  copied : ∀ q s, m.st q = some s → s ≠ .forking → s ≠ .unforked → q = firstPid ∨ q ∈ m.born
  ran : ∀ q, q ∈ m.ran → q = firstPid ∨ q ∈ m.born

def Runs (m : Web) (pid : Pid) : Prop :=
  m.st pid = some .running ∧ ∃ t, m.kern.tab pid = some t ∧ t.ended = false

theorem Inv.handed {m : Web} (inv : Inv m) : m.view.Handed := by
  refine ⟨inv.sound, ?_, ?_, ?_, ?_⟩
  · rintro pid ⟨t, found, live⟩
    exact inv.known pid t found live
  · intro pid making
    rcases inv.making pid (by simpa [view] using making) with ⟨t, found, unwinds⟩
    exact ⟨t, found, (inv.unwinding _ _ unwinds).2.2.1⟩
  · rintro pid ⟨other, found⟩
    have once := inv.made pid other found
    simpa [view] using once
  · rintro pid ran ⟨other, _⟩
    rcases inv.ran pid ran with first | born
    · exact absurd first other
    · exact born

theorem inv_boot : Inv boot := by
  refine ⟨rfl, ?_, fun _ _ => rfl, ?_, ?_, by simp [boot], ?_, ?_, ?_, by simp [boot]⟩
  · intro q past
    have other : q ≠ firstPid := by
      rintro rfl
      simp [boot, Tasks.boot, firstPid] at past
    simp [boot, Tasks.boot, other]
  · intro q other found
    simp [boot, Tasks.boot, other] at found
  · intro q t found _
    by_cases first : q = firstPid
    · simp [boot, first]
    · simp [boot, Tasks.boot, first] at found
  · intro q making
    simp only [boot] at making
    split at making <;> simp at making
  · intro q c call
    simp only [boot] at call
    split at call <;> simp at call
  · intro q s there _ _
    left
    by_contra other
    simp [boot, other] at there

variable {m : Web} {pid : Pid} {c : Trap} {k' : Tasks}

theorem Inv.rekern {t : Task} (inv : Inv m) (found : m.kern.tab pid = some t)
    (touched : Tasks.Touched pid m.kern k')
    (fits : ∀ c t', m.st pid = some (.call c) → k'.tab pid = some t' → t'.Fits c) :
    Inv { m with kern := k' } := by
  refine ⟨inv.sound, ?_, ?_, ?_, ?_, ?_, ?_, ?_, inv.copied, inv.ran⟩
  · intro q past
    have absent := inv.fresh q (touched.next ▸ past)
    exact ⟨touched.absent found absent.1, absent.2⟩
  · exact fun q past => inv.unmade q (touched.next ▸ past)
  · exact fun q other there => inv.made q other (touched.isSome found there)
  · intro q t' there alive
    rcases touched.back found there with ⟨t₀, found₀, ended⟩
    exact inv.known q t₀ found₀ (ended.trans alive)
  · intro p q unwinds
    rcases inv.unwinding p q unwinds with ⟨making, goes, ⟨t, there, alive⟩, t₁, child, isParent⟩
    rcases touched.entry there with ⟨t', there', ended, _⟩
    rcases touched.entry child with ⟨t₁', child', _, parent⟩
    exact ⟨making, goes, ⟨t', there', ended.trans alive⟩, t₁', child', parent.trans isParent⟩
  · intro q making
    rcases inv.making q making with ⟨t, there, unwinds⟩
    rcases touched.entry there with ⟨t', there', _, parent⟩
    exact ⟨t', there', by rw [parent]; exact unwinds⟩
  · exact touched.fits inv.fits fits

theorem Inv.touched (inv : Inv m) (runs : m.Runs pid) (touched : Tasks.Touched pid m.kern k') :
    Inv { m with kern := k' } ∧ { m with kern := k' }.Runs pid := by
  rcases runs with ⟨running, t, found, live⟩
  rcases touched.self t found with ⟨t', found', ended, _⟩
  refine ⟨inv.rekern found touched ?_, running, t', found', ended.trans live⟩
  simp [running]

theorem Inv.put {s₀ s : St} (inv : Inv m) (before : m.st pid = some s₀) (whole₀ : s₀ ≠ .forking)
    (given : s₀ ≠ .unforked) (whole : s ≠ .forking)
    (idle : ∀ q, m.work pid = .unwinding q → s = .running)
    (fits : ∀ c, s = .call c → ∃ t, m.kern.tab pid = some t ∧ t.Fits c) :
    Inv (m.put pid s) := by
  have other (q : Pid) (making : (m.put pid s).st q = some .forking) : q ≠ pid := by
    rintro rfl
    simp [Web.put] at making
    exact whole making
  have same (q : Pid) (self : q ≠ pid) : (m.put pid s).st q = m.st q := by
    simp [Web.put, update_of_ne self]
  have here : (m.put pid s).st pid = some s := by simp [Web.put]
  refine ⟨inv.sound, ?_, inv.unmade, ?_, ?_, ?_, ?_, ?_, ?_, inv.ran⟩
  · intro q past
    have absent := inv.fresh q past
    have self : q ≠ pid := by
      rintro rfl
      simp [absent.2] at before
    rw [same q self]
    exact absent
  · intro q first there
    have once := inv.made q first there
    by_cases self : q = pid
    · subst self
      rw [before] at once
      rw [here]
      simpa [Web.put, whole, whole₀] using once
    · rw [same q self]
      exact once
  · intro q t there alive
    by_cases self : q = pid
    · rw [self, here]
      rfl
    · rw [same q self]
      exact inv.known q t there alive
  · intro p q unwinds
    rcases inv.unwinding p q unwinds with ⟨making, running, live⟩
    have child : q ≠ pid := by
      rintro rfl
      rw [making, Option.some.injEq] at before
      exact whole₀ before.symm
    refine ⟨(same q child).trans making, ?_, live⟩
    by_cases self : p = pid
    · rw [self] at unwinds ⊢
      rw [here, idle q unwinds]
    · exact (same p self).trans running
  · intro q making
    have self := other q making
    rw [same q self] at making
    exact inv.making q making
  · intro q c call
    by_cases self : q = pid
    · subst self
      rw [here, Option.some.injEq] at call
      exact fits c call
    · rw [same q self] at call
      exact inv.fits q c call
  · intro q s' there making unforked
    by_cases self : q = pid
    · rw [self]
      exact inv.copied pid s₀ before whole₀ given
    · rw [same q self] at there
      exact inv.copied q s' there making unforked

theorem Inv.finishOff {s₀ : St} (inv : Inv m) (before : m.st pid = some s₀)
    (whole : s₀ ≠ .forking) (idle : ∀ q, m.work pid ≠ .unwinding q) :
    Inv { m.finishOff pid with kern := m.kern.exited pid } := by
  have same (q : Pid) (self : q ≠ pid) : (m.finishOff pid).st q = m.st q := by
    simp [Web.finishOff, update_of_ne self]
  have here : (m.finishOff pid).st pid = none := by simp [Web.finishOff]
  have kern (q : Pid) (self : q ≠ pid) : (m.kern.exited pid).tab q = m.kern.tab q := by
    simp [Tasks.exited, Tasks.modify, update_of_ne self]
  have works (p : Pid) (q : Pid) (unwinds : (m.finishOff pid).work p = .unwinding q) :
      p ≠ pid ∧ m.work p = .unwinding q := by
    have self : p ≠ pid := by
      rintro rfl
      simp [Web.finishOff] at unwinds
    simp only [Web.finishOff, update_of_ne self] at unwinds
    exact ⟨self, unwinds⟩
  refine ⟨inv.sound, ?_, inv.unmade, ?_, ?_, ?_, ?_, ?_, ?_, inv.ran⟩
  · intro q past
    have absent := inv.fresh q past
    by_cases self : q = pid
    · subst self
      simp [absent.2] at before
    · exact ⟨(kern q self).trans absent.1, (same q self).trans absent.2⟩
  · intro q first there
    by_cases self : q = pid
    · subst self
      have once := inv.made q first (by simpa [Tasks.exited] using there)
      rw [before] at once
      rw [here]
      simpa [Web.finishOff, whole] using once
    · have once := inv.made q first (by rw [← kern q self]; exact there)
      dsimp only
      rw [same q self]
      exact once
  · intro q t there alive
    by_cases self : q = pid
    · subst self
      simp only [Tasks.exited, Tasks.tab_modify, Option.map_eq_some_iff] at there
      rcases there with ⟨_, _, rfl⟩
      simp at alive
    · dsimp only
      rw [same q self]
      exact inv.known q t ((kern q self).symm.trans there) alive
  · intro p q unwinds
    rcases works p q unwinds with ⟨self, unwinds⟩
    rcases inv.unwinding p q unwinds with ⟨making, running, ⟨t, there, alive⟩, t', found, parent⟩
    have child : q ≠ pid := by
      rintro rfl
      rw [making, Option.some.injEq] at before
      exact whole before.symm
    exact ⟨(same q child).trans making, (same p self).trans running,
      ⟨t, (kern p self).trans there, alive⟩, t', (kern q child).trans found, parent⟩
  · intro q making
    have self : q ≠ pid := by
      rintro rfl
      simp [here] at making
    rcases inv.making q ((same q self).symm.trans making) with ⟨t, there, unwinds⟩
    have parent : t.ppid ≠ pid := fun eq => idle q (by rw [← eq]; exact unwinds)
    refine ⟨t, (kern q self).trans there, ?_⟩
    simp only [Web.finishOff, update_of_ne parent]
    exact unwinds
  · intro q c call
    have self : q ≠ pid := by
      rintro rfl
      simp [here] at call
    rcases inv.fits q c ((same q self).symm.trans call) with ⟨t, there, fits⟩
    exact ⟨t, (kern q self).trans there, fits⟩
  · intro q s there making unforked
    have self : q ≠ pid := by
      rintro rfl
      simp [here] at there
    exact inv.copied q s ((same q self).symm.trans there) making unforked

theorem Inv.fork {parent : Task} (inv : Inv m) (runs : m.Runs pid)
    (idle : ∀ q, m.work pid ≠ .unwinding q)
    (touched : Tasks.Touched pid (m.kern.fork pid parent) k') :
    Inv { ({ m with kern := k' }).put m.kern.next .forking with
        work := update m.work pid (.unwinding m.kern.next) } ∧
      Runs { ({ m with kern := k' }).put m.kern.next .forking with
        work := update m.work pid (.unwinding m.kern.next) } pid := by
  rcases runs with ⟨running, t, found, live⟩
  have absent := inv.fresh m.kern.next le_rfl
  have old : pid ≠ m.kern.next := by
    rintro rfl
    simp [absent.1] at found
  have found₀ : (m.kern.fork pid parent).tab pid = some t := by
    simp [Tasks.fork, update_of_ne old, found]
  rcases touched.self t found₀ with ⟨t', found', ended, _⟩
  have child : ∃ t, k'.tab m.kern.next = some t ∧ t.ppid = pid := by
    rw [touched.others _ old.symm]
    simp [Tasks.fork]
  have same (q : Pid) (self : q ≠ pid) (new : q ≠ m.kern.next) : k'.tab q = m.kern.tab q := by
    rw [touched.others q self]
    simp [Tasks.fork, update_of_ne new]
  have next : k'.next = m.kern.next + 1 := touched.next
  have unborn := inv.unmade m.kern.next le_rfl
  generalize isNew : m.kern.next = new at *
  have st (q : Pid) (other : q ≠ new) :
      update m.st new (some St.forking) q = m.st q := update_of_ne other _ _
  refine ⟨⟨inv.sound, ?_, ?_, ?_, ?_, ?_, ?_, ?_, ?_, inv.ran⟩, ?_⟩
  · intro q past
    simp only [Web.put, next] at past
    have other : q ≠ new := by
      rintro rfl
      exact absurd past (Nat.not_succ_le_self _)
    have none := inv.fresh q (isNew ▸ Nat.le_of_succ_le past)
    have self : q ≠ pid := by
      rintro rfl
      simp [none.1] at found
    exact ⟨(same q self other).trans none.1, (st q other).trans none.2⟩
  · intro q past
    simp only [Web.put, next] at past
    exact inv.unmade q (isNew ▸ Nat.le_of_succ_le past)
  · intro q first there
    by_cases other : q = new
    · simp only [Web.put, other, update_self, unborn]
      rfl
    · have there : (m.kern.tab q).isSome := by
        by_cases self : q = pid
        · simp [self, found]
        · rw [← same q self other]
          exact there
      have once := inv.made q first there
      simp only [Web.put, st q other]
      exact once
  · intro q t there alive
    by_cases other : q = new
    · simp [Web.put, other]
    · simp only [Web.put, st q other]
      by_cases self : q = pid
      · simp [self, running]
      · exact inv.known q t ((same q self other).symm.trans there) alive
  · intro p q unwinds
    by_cases self : p = pid
    · subst self
      simp only [update_self, Work.unwinding.injEq] at unwinds
      subst unwinds
      exact ⟨by simp [Web.put], (st p old).trans running, ⟨t', found', ended.trans live⟩, child⟩
    · simp only [update_of_ne self] at unwinds
      rcases inv.unwinding p q unwinds with
        ⟨making, goes, ⟨t, there, alive⟩, t₁, isChild, isParent⟩
      have other : p ≠ new := by
        rintro rfl
        simp [absent.2] at goes
      have other' : q ≠ new := by
        rintro rfl
        simp [absent.2] at making
      have self' : q ≠ pid := by
        rintro rfl
        simp [running] at making
      exact ⟨(st q other').trans making, (st p other).trans goes,
        ⟨t, (same p self other).trans there, alive⟩, t₁, (same q self' other').trans isChild,
        isParent⟩
  · intro q making
    by_cases other : q = new
    · rcases child with ⟨t, there, isParent⟩
      rw [other]
      exact ⟨t, there, by simp [isParent]⟩
    · simp only [Web.put, st q other] at making
      rcases inv.making q making with ⟨t, there, unwinds⟩
      have self : q ≠ pid := by
        rintro rfl
        simp [running] at making
      have parent : t.ppid ≠ pid := fun eq => idle q (by rw [← eq]; exact unwinds)
      exact ⟨t, (same q self other).trans there, by
        simp only [update_of_ne parent]
        exact unwinds⟩
  · intro q c call
    have other : q ≠ new := by
      rintro rfl
      simp [Web.put] at call
    simp only [Web.put, st q other] at call
    rcases inv.fits q c call with ⟨t, there, fits⟩
    have self : q ≠ pid := by
      rintro rfl
      simp [running] at call
    exact ⟨t, (same q self other).trans there, fits⟩
  · intro q s there making unforked
    have other : q ≠ new := by
      rintro rfl
      simp only [Web.put, update_self, Option.some.injEq] at there
      exact making there.symm
    exact inv.copied q s ((st q other).symm.trans there) making unforked
  · exact ⟨(st pid old).trans running, t', found', ended.trans live⟩

theorem Inv.forked {m' : Web} {child : Pid} {s : St} (inv : Inv m)
    (unwinds : m.work pid = .unwinding child) (kern : m'.kern = m.kern)
    (sound : m'.failed = m.failed) (ran : m'.ran = m.ran)
    (st : m'.st = update m.st child (some s))
    (work : ∀ q, q ≠ pid → m'.work q = m.work q) (idle : ∀ q, m'.work pid ≠ .unwinding q)
    (settled : s = .forked ∧ child ∈ m'.born ∨ s = .unforked)
    (born : ∀ q, q ∈ m.born → q ∈ m'.born)
    (count : ∀ q, m'.born.count q + m'.stillborn.count q =
      m.born.count q + m.stillborn.count q + if q = child then 1 else 0) :
    Inv m' ∧ m'.Runs pid := by
  rcases inv.unwinding pid child unwinds with ⟨making, running, live, t, found, isParent⟩
  have old : pid ≠ child := by
    rintro rfl
    simp [making] at running
  have whole : s ≠ .forking := by
    rcases settled with ⟨rfl, _⟩ | rfl <;> simp
  have here : m'.st child = some s := by simp [st]
  have same (q : Pid) (other : q ≠ child) : m'.st q = m.st q := by
    simp [st, update_of_ne other]
  have alone (p : Pid) (again : m.work p = .unwinding child) : p = pid := by
    rcases inv.unwinding p child again with ⟨_, _, _, t', found', isParent'⟩
    rw [found, Option.some.injEq] at found'
    rw [← isParent', ← found', isParent]
  refine ⟨⟨sound.trans inv.sound, ?_, ?_, ?_, ?_, ?_, ?_, ?_, ?_, ?_⟩,
    (same pid old).trans running, ?_⟩
  · intro q past
    rw [kern] at past ⊢
    have absent := inv.fresh q past
    have other : q ≠ child := by
      rintro rfl
      simp [absent.2] at making
    exact ⟨absent.1, (same q other).trans absent.2⟩
  · intro q past
    rw [kern] at past
    have other : q ≠ child := by
      rintro rfl
      simp [(inv.fresh q past).2] at making
    rw [count q, if_neg other]
    exact inv.unmade q past
  · intro q first there
    rw [kern] at there
    have once := inv.made q first there
    rw [count q]
    by_cases other : q = child
    · subst other
      rw [making] at once
      rw [here]
      simpa [whole] using once
    · rw [same q other, if_neg other]
      exact once
  · intro q t there alive
    rw [kern] at there
    by_cases other : q = child
    · rw [other, here]
      rfl
    · rw [same q other]
      exact inv.known q t there alive
  · intro p q again
    have self : p ≠ pid := by
      rintro rfl
      exact idle q again
    rw [work p self] at again
    rcases inv.unwinding p q again with ⟨making', goes, rest⟩
    have other : q ≠ child := by
      rintro rfl
      exact self (alone p again)
    have other' : p ≠ child := by
      rintro rfl
      simp [making] at goes
    rw [kern]
    exact ⟨(same q other).trans making', (same p other').trans goes, rest⟩
  · intro q making'
    have other : q ≠ child := by
      rintro rfl
      rw [here, Option.some.injEq] at making'
      exact whole making'
    rw [same q other] at making'
    rcases inv.making q making' with ⟨t', there, again⟩
    have self : t'.ppid ≠ pid := by
      intro eq
      rw [eq, unwinds, Work.unwinding.injEq] at again
      exact other again.symm
    rw [kern]
    exact ⟨t', there, (work _ self).trans again⟩
  · intro q c call
    have other : q ≠ child := by
      rintro rfl
      rw [here, Option.some.injEq] at call
      rcases settled with ⟨rfl, _⟩ | rfl <;> simp at call
    rw [same q other] at call
    rw [kern]
    exact inv.fits q c call
  · intro q s' there making' unforked
    by_cases other : q = child
    · rw [other, here, Option.some.injEq] at there
      rcases settled with ⟨_, isBorn⟩ | rfl
      · rw [other]
        exact .inr isBorn
      · exact absurd there.symm unforked
    · rw [same q other] at there
      exact (inv.copied q s' there making' unforked).imp_right (born q)
  · intro q member
    rw [ran] at member
    exact (inv.ran q member).imp_right (born q)
  · rw [kern]
    exact live

/-- What a turn has come to: the process stays and runs, or the machine is in order without
it. -/
def Fine (pid : Pid) (r : Web × Stays) : Prop :=
  match r.2 with
  | .stays => Inv r.1 ∧ r.1.Runs pid
  | .sched => Inv r.1
  | .exited => Inv { r.1 with kern := r.1.kern.exited pid }

theorem fine_deliver (inv : Inv m) (runs : m.Runs pid) (idle : ∀ q, m.work pid ≠ .unwinding q)
    (note : Notify) : Fine pid (m.deliver pid note) := by
  simp only [deliver]
  split
  · exact inv.finishOff runs.1 (by simp) idle
  · exact ⟨inv, runs⟩

theorem fine_finish {v : Value} (inv : Inv m) (runs : m.Runs pid)
    (idle : ∀ q, m.work pid ≠ .unwinding q) (went : Tasks.Went pid c m.kern (k', v))
    (note : Notify) : Fine pid ({ m with kern := k' }.finish pid c v note) := by
  cases went with
  | left touched found fits =>
      rcases inv.touched runs touched with ⟨inv, runs⟩
      apply inv.put runs.1 (by simp) (by simp) (by simp)
      · intro q unwinds
        exact absurd unwinds (idle q)
      · rintro c' ⟨⟩
        exact ⟨_, found, fits⟩
  | answered touched finished childless =>
      rcases inv.touched runs touched with ⟨inv, runs⟩
      have delivered := fine_deliver inv runs idle note
      cases v with
      | sched => exact absurd rfl finished
      | pid child =>
          by_cases forks : c.forks = true
          · exact absurd (childless forks) (by simp)
          · simp only [finish, forks, Bool.false_eq_true, if_false]
            exact delivered
      | ok =>
          cases c with
          | exits => exact inv.finishOff runs.1 (by simp) idle
          | exec => exact inv.put runs.1 (by simp) (by simp) (by simp) (by simp) (by simp)
          | rfork | other => exact delivered
      | failed =>
          cases c with
          | exits => exact inv.finishOff runs.1 (by simp) idle
          | exec => exact delivered
          | rfork | other => exact delivered
  | forked forks before touched =>
      rcases inv.touched runs before with ⟨inv, runs⟩
      rw [← before.next]
      simp only [finish, forks, if_true]
      exact inv.fork runs idle touched

theorem Inv.old {t : Task} (inv : Inv m) (found : m.kern.tab pid = some t) :
    m.kern.next ≠ pid := by
  rintro rfl
  simp [(inv.fresh _ le_rfl).1] at found

theorem Inv.raise {child : Pid} (inv : Inv m) (unwinds : m.work pid = .unwinding child) :
    Inv (m.raise pid child) ∧ (m.raise pid child).Runs pid := by
  apply inv.forked unwinds (s := .forked)
  · rfl
  · rfl
  · rfl
  · rfl
  · intro q other
    exact update_of_ne other _ _
  · simp [Web.raise]
  · left
    exact ⟨rfl, by simp [Web.raise]⟩
  · intro q there
    exact List.mem_append_left _ there
  · intro q
    simp only [Web.raise, Web.put, count_snoc]
    omega

theorem Inv.abandon {child : Pid} (inv : Inv m) (unwinds : m.work pid = .unwinding child) :
    Inv (m.abandon pid child) ∧ (m.abandon pid child).Runs pid := by
  apply inv.forked unwinds (s := .unforked)
  · rfl
  · rfl
  · rfl
  · rfl
  · intro q other
    exact update_of_ne other _ _
  · simp [Web.abandon]
  · exact .inr rfl
  · intro q there
    exact there
  · intro q
    simp only [Web.abandon, Web.put, count_snoc]
    omega

theorem Inv.rework {w : Work} (inv : Inv m) (idle : ∀ q, m.work pid ≠ .unwinding q)
    (now : ∀ q, w ≠ .unwinding q) : Inv { m with work := update m.work pid w } := by
  refine ⟨inv.sound, inv.fresh, inv.unmade, inv.made, inv.known, ?_, ?_, inv.fits, inv.copied,
    inv.ran⟩
  · intro p q unwinds
    have self : p ≠ pid := by
      rintro rfl
      simp only [update_self] at unwinds
      exact now q unwinds
    simp only [update_of_ne self] at unwinds
    exact inv.unwinding p q unwinds
  · intro q making
    rcases inv.making q making with ⟨t, found, unwinds⟩
    have self : t.ppid ≠ pid := fun eq => idle q (by rw [← eq]; exact unwinds)
    refine ⟨t, found, ?_⟩
    simp only [update_of_ne self]
    exact unwinds

theorem fine_said {s : Said} {r : Web × Stays} (inv : Inv m) (runs : m.Runs pid)
    (smooth : ∀ child, m.work pid = .unwinding child →
      s ≠ .fault ∧ s ≠ .exited ∧ ∀ sched, s ≠ .time .pexit sched)
    (made : m.said pid s = some r) : Fine pid r := by
  have finished (ends : s = .fault ∨ s = .exited ∨ ∃ sched, s = .time .pexit sched) :
      Fine pid (m.finishOff pid, .exited) := by
    apply inv.finishOff runs.1 (by simp)
    intro q unwinds
    rcases smooth q unwinds with ⟨fault, exited, time⟩
    rcases ends with eq | eq | ⟨sched, eq⟩
    · exact fault eq
    · exact exited eq
    · exact time sched eq
  cases s with
  | time note sched =>
      cases note with
      | pexit =>
          simp only [said, Option.some.injEq] at made
          rw [← made]
          exact finished (.inr (.inr ⟨sched, rfl⟩))
      | sched =>
          simp only [said, Option.some.injEq] at made
          rw [← made]
          exact inv
      | no | handler =>
          simp only [said, Option.some.injEq] at made
          rw [← made]
          cases sched with
          | true => exact inv
          | false => exact ⟨inv, runs⟩
  | call c how note =>
      simp only [said] at made
      split at made
      next user =>
        rw [Option.some.injEq] at made
        rw [← made]
        rcases runs.2 with ⟨t, found, _⟩
        exact fine_finish inv runs (by simp [user])
          (Tasks.went_syscall found (inv.old found) c how) note
      · simp at made
  | deliver note =>
      simp only [said] at made
      split at made
      next user =>
        rw [Option.some.injEq] at made
        rw [← made]
        exact fine_deliver inv runs (by simp [user]) note
      · simp at made
  | yield =>
      simp only [said] at made
      split at made
      next winding =>
        rw [Option.some.injEq] at made
        rw [← made]
        have kept : Inv (m.put pid .yielded) :=
          inv.put runs.1 (by simp) (by simp) (by simp) (by simp [winding]) (by simp)
        exact kept.rework (by simp [Web.put, winding]) (by simp)
      · simp at made
  | forked failed note =>
      simp only [said] at made
      split at made
      next child unwinds =>
        rw [Option.some.injEq] at made
        rw [← made]
        cases failed with
        | true =>
            have next := inv.abandon unwinds
            exact fine_deliver next.1 next.2 (by simp [abandon]) note
        | false => exact inv.raise unwinds
      · simp at made
  | fault =>
      simp only [said, Option.some.injEq] at made
      rw [← made]
      exact finished (.inl rfl)
  | exited =>
      simp only [said, Option.some.injEq] at made
      rw [← made]
      exact finished (.inr (.inl rfl))

/-- The process entered runs, between the machine's steps too. -/
def Entered (m : Web) : Prop := ∀ pid, m.cur = some pid → m.Runs pid

theorem Fine.settle {r : Web × Stays} (fine : Fine pid r) :
    Inv (settle pid r) ∧ (settle pid r).Entered := by
  rcases r with ⟨m, how⟩
  cases how with
  | stays =>
      refine ⟨⟨fine.1.sound, fine.1.fresh, fine.1.unmade, fine.1.made, fine.1.known,
        fine.1.unwinding, fine.1.making, fine.1.fits, fine.1.copied, fine.1.ran⟩, ?_⟩
      rintro q ⟨⟩
      exact fine.2
  | sched =>
      have inv : Inv m := fine
      refine ⟨{ inv with }, ?_⟩
      rintro q ⟨⟩
  | exited =>
      have inv : Inv { m with kern := m.kern.exited pid } := fine
      refine ⟨{ inv with }, ?_⟩
      rintro q ⟨⟩

theorem fine_go {s : St} {t : Task} (how : Course) (note : Notify) (inv : Inv m)
    (there : m.st pid = some s) (whole : s ≠ .forking) (given : s ≠ .unforked)
    (found : m.kern.tab pid = some t) (live : t.ended = false)
    (untraced : ∀ c, s = .call c → t.label = some (.dispatch c) → c.forks = true →
      t.procctl ≠ some .tracesyscall) : Fine pid (m.go pid s how note) := by
  have born := inv.copied pid s there whole given
  have put : Inv (m.put pid .running) :=
    inv.put there whole given (by simp) (by simp) (by simp)
  have entered : Inv { m.put pid .running with ran := m.ran ++ [pid] } := by
    refine ⟨put.sound, put.fresh, put.unmade, put.made, put.known, put.unwinding, put.making,
      put.fits, put.copied, ?_⟩
    intro q member
    rcases List.mem_append.mp member with before | now
    · exact inv.ran q before
    · rw [List.mem_singleton.mp now]
      exact born
  have runs : Runs { m.put pid .running with ran := m.ran ++ [pid] } pid :=
    ⟨by simp [Web.put], t, found, live⟩
  have idle (other : s ≠ .running) (q : Pid) : m.work pid ≠ .unwinding q := by
    intro unwinds
    have running := (inv.unwinding pid q unwinds).2.1
    rw [there, Option.some.injEq] at running
    exact other running
  simp only [go]
  cases s with
  | image => exact ⟨entered, runs⟩
  | running => exact ⟨entered, runs⟩
  | forked => exact ⟨entered, runs⟩
  | forking => exact absurd rfl whole
  | unforked => exact absurd rfl given
  | yielded => exact fine_deliver entered runs (idle (by simp)) note
  | call c =>
      rcases inv.fits pid c there with ⟨t', found', fits⟩
      rw [found, Option.some.injEq] at found'
      subst found'
      exact fine_finish entered runs (idle (by simp))
        (Tasks.went_resume found fits (inv.old found) (untraced c rfl) how) note

theorem inv_enter {occupied : Bool} {how : Course} {note : Notify} (inv : Inv m)
    (outside : m.cur = none) (live : m.view.Live pid)
    (smooth : m.Smooth (.enter pid occupied how note)) :
    Inv (m.enter pid occupied how note) ∧ (m.enter pid occupied how note).Entered := by
  rcases live with ⟨t, found, alive⟩
  have found : m.kern.tab pid = some t := found
  have still : m.Entered := by
    intro q entered
    simp [outside] at entered
  rcases Option.isSome_iff_exists.mp (inv.known pid t found alive) with ⟨s, there⟩
  have goes (whole : s ≠ .forking) (given : s ≠ .unforked) :
      Inv (if occupied then m else settle pid (m.go pid s how note)) ∧
        (if occupied then m else settle pid (m.go pid s how note)).Entered := by
    cases occupied with
    | true => exact ⟨inv, still⟩
    | false =>
        have fine := fine_go how note inv there whole given found alive
          (fun c isCall => smooth t c (by rw [there, isCall]) found)
        exact fine.settle
  simp only [enter, there]
  cases s with
  | forking => exact ⟨inv, still⟩
  | unforked =>
      have finished := inv.finishOff there (by simp) (by
        intro q unwinds
        have running := (inv.unwinding pid q unwinds).2.1
        simp [there] at running)
      refine ⟨?_, ?_⟩
      · have idle (q : Pid) : m.work pid ≠ .unwinding q := by
          intro unwinds
          have running := (inv.unwinding pid q unwinds).2.1
          simp [there] at running
        refine ⟨finished.sound, finished.fresh, finished.unmade, finished.made, finished.known, ?_,
            ?_, finished.fits,
          finished.copied, finished.ran⟩
        · intro p q unwinds
          have self : p ≠ pid := by
            rintro rfl
            exact idle q unwinds
          apply finished.unwinding p q
          simp only [finishOff, update_of_ne self]
          exact unwinds
        · intro q making
          rcases finished.making q making with ⟨t', found', unwinds⟩
          have self : t'.ppid ≠ pid := by
            intro eq
            simp [finishOff, eq] at unwinds
          simp only [finishOff, update_of_ne self] at unwinds
          exact ⟨t', found', unwinds⟩
      · intro q entered
        simp [outside] at entered
  | image => exact goes (by simp) (by simp)
  | running => exact goes (by simp) (by simp)
  | call c => exact goes (by simp) (by simp)
  | yielded => exact goes (by simp) (by simp)
  | forked => exact goes (by simp) (by simp)

theorem inv_ctl (inv : Inv m) (entered : m.Entered) (pid : Pid) (c : Option Procctl) :
    Inv { m with kern := m.kern.ctl pid c } ∧ Entered { m with kern := m.kern.ctl pid c } := by
  cases found : m.kern.tab pid with
  | none =>
      rw [Tasks.ctl_absent found]
      exact ⟨inv, entered⟩
  | some t =>
      have touched : Tasks.Touched pid m.kern (m.kern.ctl pid c) :=
        Tasks.touched_modify _ _ fun _ => ⟨rfl, rfl⟩
      constructor
      · apply inv.rekern found touched
        intro c' t' call there
        rw [Tasks.ctl, Tasks.tab_modify, found, Option.map_some, Option.some_inj] at there
        rcases inv.fits pid c' call with ⟨t₀, found₀, fits⟩
        cases found.symm.trans found₀
        exact there ▸ fits
      · intro q isCur
        rcases entered q isCur with ⟨running, t₀, there, live⟩
        rcases touched.entry there with ⟨t', there', ended, _⟩
        exact ⟨running, t', there', ended.trans live⟩

theorem inv_of_reach (reached : system.Reach Smooth m) : Inv m ∧ m.Entered := by
  apply System.Reach.invariant (fun m : Web => Inv m ∧ m.Entered) _ _ reached
  · rintro m rfl
    exact ⟨inv_boot, fun _ entered => by simp [boot] at entered⟩
  · rintro m a m' ⟨inv, entered⟩ smooth ⟨made, _, allowed⟩
    cases a with
    | enter pid occupied how note =>
        simp only [step] at made
        split at made
        next outside =>
          rw [Option.some.injEq] at made
          rw [← made]
          exact inv_enter inv outside allowed smooth
        · simp at made
    | said s =>
        simp only [step] at made
        split at made
        next pid isCur =>
          rcases Option.map_eq_some_iff.mp made with ⟨r, turn, rfl⟩
          exact (fine_said inv (entered pid isCur) (fun child => smooth pid child isCur)
            turn).settle
        · simp at made
    | ctl pid c =>
        simp only [step, Option.some.injEq] at made
        rw [← made]
        exact inv_ctl inv entered pid c

end Web

end Ipnx
