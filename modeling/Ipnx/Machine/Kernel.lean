import Ipnx.Proc.Sleep

/-!
# A call, as the machines see it

The kernel's half of a trap: `syscall_`, `dispatch_`, `syscall_tail` and `resume` of
`kernel/src/lib.rs`, as far as a machine can tell what they did. `rfork` makes its child and
readies it inside the call; a traced process stops before its call and again after it.

What else decides how a call goes is in `Course`: whether it leaves in the middle, whether
it fails, what `notify` makes of the notes at its end. Which process runs next is any
process that has not ended.
-/

namespace Ipnx

inductive Trap
  | rfork (flags : Nat)
  | exits
  | exec
  | other
  deriving DecidableEq, Repr

namespace Trap

def isRfork : Trap → Bool
  | .rfork _ => true
  | _ => false

def forks : Trap → Bool
  | .rfork flags => Rf.has flags Rf.proc
  | _ => false

end Trap

/-- What a call answers the machine; `sched` is a call that left. -/
inductive Value
  | sched
  | pid (p : Pid)
  | ok
  | failed
  deriving DecidableEq, Repr

/-- What `notify` answers. -/
inductive Notify
  | no | sched | pexit | handler
  deriving DecidableEq, Repr

/-- How a call goes, where the process's own state does not say. -/
structure Course where
  sleeps : Bool
  fails : Bool
  note : Notify
  delaysched : Bool
  deriving DecidableEq, Repr

inductive Remainder
  /-- Stopped by its tracer before the call. -/
  | dispatch (call : Trap)
  /-- In the middle of the call. -/
  | middle (call : Trap)
  /-- The call is over, and this is its answer. -/
  | answer (v : Value)
  deriving DecidableEq, Repr

/-- Of a process, what the end of a call reads. -/
structure Task where
  ppid : Pid
  procctl : Option Procctl
  scallnr : Trap
  insyscall : Bool
  syscalltrace : Bool
  label : Option Remainder
  ended : Bool
  deriving DecidableEq, Repr

/-- A process in the middle of a call: what it keeps is the rest of that call, and not the
pid of a child. -/
def Task.Fits (t : Task) (c : Trap) : Prop :=
  t.scallnr = c ∧
    match t.label with
    | some (.dispatch c') => c' = c
    | some (.middle c') => c' = c ∧ c.forks = false
    | some (.answer v) => v ≠ .sched ∧ (c.forks = true → v = .failed)
    | none => False

def Task.traced (t : Task) : Bool :=
  !t.syscalltrace && t.insyscall && t.procctl == some .tracesyscall

structure Tasks where
  tab : Pid → Option Task
  next : Pid

namespace Tasks

def modify (k : Tasks) (pid : Pid) (f : Task → Task) : Tasks :=
  { k with tab := Function.update k.tab pid ((k.tab pid).map f) }

def fork (k : Tasks) (up : Pid) (parent : Task) : Tasks where
  tab := Function.update k.tab k.next <| some
    { ppid := up
      procctl := parent.procctl.filter (· == .tracesyscall)
      scallnr := .other
      insyscall := false
      syscalltrace := false
      label := none
      ended := false }
  next := k.next + 1

/-- The call left in the middle, with the rest of it kept. -/
def leave (k : Tasks) (up : Pid) (rest : Remainder) : Tasks × Value :=
  (k.modify up fun t => { t with label := some rest }, .sched)

def dispatch (k : Tasks) (up : Pid) (call : Trap) (how : Course) : Tasks × Value :=
  match call with
  | .rfork flags =>
      match Procs.rforkcheck flags, k.tab up with
      | .ok (), some parent =>
          if Rf.has flags Rf.proc then (k.fork up parent, .pid k.next)
          else if how.sleeps then k.leave up (.middle call)
          else (k, .pid 0)
      | _, _ => (k, .failed)
  | call =>
      if how.sleeps then k.leave up (.middle call)
      else (k, if how.fails then .failed else .ok)

/-- The end of `syscall()`, after the call's own work. -/
def syscallTail (k : Tasks) (up : Pid) (v : Value) (how : Course) : Tasks × Value :=
  match v, k.tab up with
  | .sched, _ | _, none => (k, v)
  | v, some t =>
      if t.traced then
        -- the tracer's stop after the call
        (k.modify up fun t =>
          { t with procctl := none, syscalltrace := true, label := some (.answer v) }, .sched)
      else
        let k := k.modify up fun t => { t with syscalltrace := false, insyscall := false }
        -- an `rfork` is not followed by `notify`, nor by a delayed `sched` if it made a child
        if !t.scallnr.isRfork && how.note == .sched then
          (k.modify up fun t => { t with procctl := none, label := some (.answer v) }, .sched)
        else if !t.scallnr.isRfork && how.note == .pexit then (k, v)
        else if !t.scallnr.forks && how.delaysched then k.leave up (.answer v)
        else (k, v)

def syscall (k : Tasks) (up : Pid) (call : Trap) (how : Course) : Tasks × Value :=
  match k.tab up with
  | none => (k, .failed)
  | some t =>
      let k := k.modify up fun t => { t with label := none, insyscall := true, scallnr := call }
      if t.procctl = some .tracesyscall then
        -- the tracer's stop before the call
        (k.modify up fun t =>
          { t with procctl := none, syscalltrace := true, label := some (.dispatch call) }, .sched)
      else
        let r := k.dispatch up call how
        r.1.syscallTail up r.2 how

/-- What a call that was in the middle answers when it is over. -/
def finished (call : Trap) (how : Course) : Value :=
  match call with
  | .rfork _ => .pid 0
  | _ => if how.fails then .failed else .ok

/-- The process is entered again in the middle of a call it left. -/
def resume (k : Tasks) (up : Pid) (how : Course) : Tasks × Value :=
  match (k.tab up).bind (·.label) with
  | none => (k, .failed)
  | some rest =>
      let k := k.modify up fun t => { t with label := none }
      match rest with
      | .dispatch call =>
          let k := k.modify up fun t => { t with syscalltrace := false }
          let r := k.dispatch up call how
          r.1.syscallTail up r.2 how
      | .middle call =>
          if how.sleeps then k.leave up (.middle call)
          else k.syscallTail up (finished call how) how
      | .answer v => k.syscallTail up v how

def exited (k : Tasks) (pid : Pid) : Tasks :=
  k.modify pid fun t => { t with label := none, ended := true }

def ctl (k : Tasks) (pid : Pid) (c : Option Procctl) : Tasks :=
  k.modify pid fun t => { t with procctl := c }

/-- Only a process's own entry changes, and it is still the same process. -/
structure Touched (up : Pid) (k k' : Tasks) : Prop where
  others : ∀ q, q ≠ up → k'.tab q = k.tab q
  self : ∀ t, k.tab up = some t → ∃ t', k'.tab up = some t' ∧ t'.ended = t.ended ∧
    t'.ppid = t.ppid
  next : k'.next = k.next

variable {up q : Pid} {k k' k'' : Tasks} {t t' : Task} {calls : Pid → Trap → Prop}

theorem Touched.entry (touched : Touched up k k') (found : k.tab q = some t) :
    ∃ t', k'.tab q = some t' ∧ t'.ended = t.ended ∧ t'.ppid = t.ppid := by
  by_cases self : q = up
  · subst self
    exact touched.self t found
  · exact ⟨t, (touched.others q self).trans found, rfl, rfl⟩

theorem Touched.back (touched : Touched up k k') (there : k.tab up = some t)
    (found : k'.tab q = some t') : ∃ t₀, k.tab q = some t₀ ∧ t₀.ended = t'.ended := by
  by_cases self : q = up
  · subst self
    rcases touched.self t there with ⟨t₁, found₁, ended, _⟩
    cases found₁.symm.trans found
    exact ⟨t, there, ended.symm⟩
  · exact ⟨t', (touched.others q self).symm.trans found, rfl⟩

theorem Touched.absent (touched : Touched up k k') (there : k.tab up = some t)
    (none : k.tab q = none) : k'.tab q = Option.none := by
  apply Option.eq_none_iff_forall_ne_some.mpr
  intro t' found
  rcases touched.back there found with ⟨t₀, found₀, _⟩
  rw [none] at found₀
  cases found₀

theorem Touched.isSome (touched : Touched up k k') (found : k.tab up = some t)
    (there : (k'.tab q).isSome) : (k.tab q).isSome := by
  rcases Option.isSome_iff_exists.mp there with ⟨t', there⟩
  rcases touched.back found there with ⟨t₀, found₀, _⟩
  rw [found₀, Option.isSome_some]

theorem Touched.fits (touched : Touched up k k')
    (had : ∀ q c, calls q c → ∃ t, k.tab q = some t ∧ t.Fits c)
    (fits : ∀ c t, calls up c → k'.tab up = some t → t.Fits c) :
    ∀ q c, calls q c → ∃ t, k'.tab q = some t ∧ t.Fits c := by
  intro q c call
  rcases had q c call with ⟨t, there, kept⟩
  rcases touched.entry there with ⟨t', there', _⟩
  by_cases self : q = up
  · subst self
    exact ⟨t', there', fits c t' call there'⟩
  · exact ⟨t, (touched.others q self).trans there, kept⟩

theorem Touched.trans (first : Touched up k k') (second : Touched up k' k'') :
    Touched up k k'' := by
  refine ⟨?_, ?_, second.next.trans first.next⟩
  · intro q other
    rw [second.others q other, first.others q other]
  · intro t found
    rcases first.self t found with ⟨t', found', same, parent⟩
    rcases second.self t' found' with ⟨t'', found'', same', parent'⟩
    exact ⟨t'', found'', same'.trans same, parent'.trans parent⟩

@[simp]
theorem tab_modify (k : Tasks) (up : Pid) (f : Task → Task) :
    (k.modify up f).tab up = (k.tab up).map f := by
  simp [modify]

theorem ctl_absent {k : Tasks} {pid : Pid} (none : k.tab pid = Option.none)
    (c : Option Procctl) : k.ctl pid c = k := by
  rw [ctl, modify, none, Option.map_none, ← none, Function.update_eq_self]

theorem touched_modify (k : Tasks) (up : Pid) {f : Task → Task}
    (same : ∀ t, (f t).ended = t.ended ∧ (f t).ppid = t.ppid) : Touched up k (k.modify up f) := by
  refine ⟨?_, ?_, rfl⟩
  · intro q other
    simp [modify, Function.update_of_ne other]
  · intro t found
    exact ⟨f t, by simp [found], same t⟩

theorem touched_refl (k : Tasks) (up : Pid) : Touched up k k :=
  ⟨fun _ _ => rfl, fun t found => ⟨t, found, rfl, rfl⟩, rfl⟩

variable {k k' : Tasks} {up : Pid} {t : Task} {c : Trap} {v : Value}

/-- What a call has come to: it left, it answered, or it made a child and answered that. -/
inductive Went (up : Pid) (c : Trap) (k : Tasks) : Tasks × Value → Prop
  | left {k' : Tasks} {t' : Task} : Touched up k k' → k'.tab up = some t' → t'.Fits c →
      Went up c k (k', .sched)
  | answered {k' : Tasks} {v : Value} : Touched up k k' → v ≠ .sched →
      (c.forks = true → v = .failed) → Went up c k (k', v)
  | forked {k₀ k' : Tasks} {parent : Task} : c.forks = true → Touched up k k₀ →
      Touched up (k₀.fork up parent) k' → Went up c k (k', .pid k.next)

theorem Went.after {r : Tasks × Value} (touched : Touched up k k') (went : Went up c k' r) :
    Went up c k r := by
  cases went with
  | left moved found fits => exact .left (touched.trans moved) found fits
  | answered moved finished childless => exact .answered (touched.trans moved) finished childless
  | forked forks moved made =>
      rw [touched.next]
      exact .forked forks (touched.trans moved) made

variable (found : k.tab up = some t)

include found

theorem went_keep {f : Task → Task}
    (same : ∀ t, (f t).ended = t.ended ∧ (f t).ppid = t.ppid) (fits : (f t).Fits c) :
    Went up c k (k.modify up f, .sched) := by
  refine .left (touched_modify k up same) ?_ fits
  simp [found]

theorem went_tail (nr : t.scallnr = c) (finished : v ≠ .sched)
    (childless : c.forks = true → v = .failed) (how : Course) :
    Went up c k (k.syscallTail up v how) := by
  have outside := touched_modify k up
    (f := fun t => { t with syscalltrace := false, insyscall := false }) fun _ => ⟨rfl, rfl⟩
  have found' : (k.modify up fun t =>
      { t with syscalltrace := false, insyscall := false }).tab up =
        some { t with syscalltrace := false, insyscall := false } := by
    simp [found]
  cases v with
  | sched => exact absurd rfl finished
  | pid | ok | failed =>
      simp only [syscallTail, found]
      split
      · exact went_keep found (fun _ => ⟨rfl, rfl⟩) ⟨nr, finished, childless⟩
      · split
        · exact Went.after outside (went_keep found' (fun _ => ⟨rfl, rfl⟩)
              ⟨nr, finished, childless⟩)
        · split
          · exact .answered outside finished childless
          · split
            · exact Went.after outside (went_keep found' (fun _ => ⟨rfl, rfl⟩)
                  ⟨nr, finished, childless⟩)
            · exact .answered outside finished childless

theorem tail_forked (forks : t.scallnr.forks = true)
    (untraced : t.traced = false) (p : Pid) (how : Course) :
    ∃ k', k.syscallTail up (.pid p) how = (k', .pid p) ∧ Touched up k k' := by
  have rfork : t.scallnr.isRfork = true := by
    cases nr : t.scallnr <;> simp_all [Trap.forks, Trap.isRfork]
  refine ⟨_, ?_, touched_modify k up
    (f := fun t => { t with syscalltrace := false, insyscall := false }) fun _ => ⟨rfl, rfl⟩⟩
  simp only [syscallTail, found, untraced, Bool.false_eq_true, if_false, rfork, forks,
    Bool.not_true, Bool.false_and]

theorem went_dispatch (nr : t.scallnr = c)
    (fresh : k.next ≠ up) (untraced : c.forks = true → t.traced = false) (how : Course) :
    Went up c k ((k.dispatch up c how).1.syscallTail up (k.dispatch up c how).2 how) := by
  cases c with
  | rfork flags =>
      simp only [dispatch, found]
      split
      next parent _ isParent =>
        rw [Option.some.injEq] at isParent
        subst isParent
        split
        next forks =>
          have found' : (k.fork up t).tab up = some t := by
            simp [fork, Function.update_of_ne fresh.symm, found]
          rcases tail_forked found' (by rw [nr]; exact forks) (untraced forks) k.next how with
            ⟨k', eq, touched⟩
          rw [eq]
          exact .forked forks (touched_refl k up) touched
        next childless =>
          have childless : (Trap.rfork flags).forks = false := by simpa [Trap.forks] using childless
          split
          · exact went_keep found (fun _ => ⟨rfl, rfl⟩) ⟨nr, rfl, childless⟩
          · exact went_tail found nr (by simp) (by simp [childless]) how
      · exact went_tail found nr (by simp) (fun _ => rfl) how
  | exits | exec | other =>
      simp only [dispatch]
      split
      · exact went_keep found (fun _ => ⟨rfl, rfl⟩) ⟨nr, rfl, rfl⟩
      · exact went_tail found nr (by split <;> simp) (by simp [Trap.forks]) how

theorem went_syscall (fresh : k.next ≠ up) (c : Trap)
    (how : Course) : Went up c k (k.syscall up c how) := by
  simp only [syscall, found]
  have found' : (k.modify up fun t =>
      { t with label := none, insyscall := true, scallnr := c }).tab up =
        some { t with label := none, insyscall := true, scallnr := c } := by
    simp [found]
  apply Went.after (touched_modify k up
    (f := fun t => { t with label := none, insyscall := true, scallnr := c }) fun _ => ⟨rfl, rfl⟩)
  split
  · exact went_keep found' (fun _ => ⟨rfl, rfl⟩) ⟨rfl, rfl⟩
  next untraced =>
    apply went_dispatch found' rfl fresh
    intro _
    simp [Task.traced, untraced]

theorem went_resume (fits : t.Fits c) (fresh : k.next ≠ up)
    (untraced : t.label = some (.dispatch c) → c.forks = true →
      t.procctl ≠ some .tracesyscall) (how : Course) :
    Went up c k (k.resume up how) := by
  rcases fits with ⟨nr, fits⟩
  have found' : (k.modify up fun t => { t with label := none }).tab up =
      some { t with label := none } := by
    simp [found]
  have taken := touched_modify k up (f := fun t => { t with label := none }) fun _ => ⟨rfl, rfl⟩
  simp only [resume, found, Option.bind_some]
  cases kept : t.label with
  | none => simp [kept] at fits
  | some rest =>
      cases rest with
      | dispatch c' =>
          simp only [kept] at fits
          subst fits
          have found'' : ((k.modify up fun t => { t with label := none }).modify up
              fun t => { t with syscalltrace := false }).tab up =
                some { t with label := none, syscalltrace := false } := by
            simp [found]
          apply Went.after (taken.trans (touched_modify _ up
            (f := fun t => { t with syscalltrace := false }) fun _ => ⟨rfl, rfl⟩))
          apply went_dispatch found'' nr fresh
          intro forks
          simp [Task.traced, untraced kept forks]
      | middle c' =>
          simp only [kept] at fits
          rcases fits with ⟨same, childless⟩
          apply Went.after taken
          dsimp only
          split
          · exact went_keep found' (fun _ => ⟨rfl, rfl⟩) ⟨nr, same, childless⟩
          · apply went_tail found' nr
            · cases c' <;> simp [finished] <;> split <;> simp
            · simp [childless]
      | answer v =>
          simp only [kept] at fits
          exact Went.after taken (went_tail found' nr fits.1 fits.2 how)

end Tasks

end Ipnx
