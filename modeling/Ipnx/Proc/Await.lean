import Ipnx.Proc.Family

/-!
# Waiting for children

A process in `await` sleeps at its own `waitr`, where only the exit of one of its children
wakes it. As long as no child that leaves no record does that, a caller that comes back has a
note or a record to take, and never hears that it has no children while it has one.
-/

namespace Ipnx

open List
open Function (update update_of_ne update_self)
open Procs (board_view kin_eq moves_step tab_of_kin)
open Option (any_some some_inj)

namespace Family

variable {w : Family} {s s' : Procs} {d c pid : Pid}

def Rests (s : Procs) (d : Pid) : Prop :=
  ∃ p, s.tab d = some p ∧ p.state = .wakeme ∧ p.r = some (.proc d .waitr)

def Noted (s : Procs) (d : Pid) : Prop := ∃ p, s.tab d = some p ∧ p.notepending = true

/-- The child can be waited for: it lives, or its record has not been taken. -/
def Child (s : Procs) (d c : Pid) : Prop :=
  ∃ k, s.ledger.kin c = some k ∧ k.ppid = d ∧ k.waited = false

/-- A wait record is there for the process to take. -/
def Due (s : Procs) (d : Pid) : Prop :=
  ∃ c k, s.ledger.kin c = some k ∧ k.ppid = d ∧ k.waited = false ∧ k.status.isSome

/-- What makes a process in `await` come back with a note or a record. -/
def Ready (s : Procs) (d : Pid) : Prop := Rests s d ∨ Noted s d ∨ Due s d

/-- The table's own invariant, with no timer set at a `waitr`. -/
structure Still (s : Procs) : Prop where
  board : s.board.Inv
  timed : s.board.Timed fun r => ¬AtWaitr r

structure Inv (w : Family) : Prop where
  still : Still w.procs
  child : ∀ c k, w.procs.ledger.kin c = some k → k.waited = false → w.made c = some (k.ppid, false)
  made : ∀ c p b, w.made c = some (p, b) → c < w.procs.next ∧ p < c
  kept : ∀ c p, w.made c = some (p, false) →
    Child w.procs p c ∨ ∃ m, (p, m) ∈ w.taken ∧ m.pid = c
  taken : ∀ p m, (p, m) ∈ w.taken →
    w.made m.pid = some (p, false) ∧ w.procs.ledger.kin m.pid = none
  once : (w.taken.map fun t => t.2.pid).Nodup
  waits : ∀ d, w.waits d = true →
    (∃ k, w.procs.ledger.kin d = some k ∧ k.status = none) ∧ Ready w.procs d

def Scope.apart : Scope := { Scope.any with sleeps := fun r => ¬AtWaitr r }

theorem within_apart {a : Act} (apart : w.Apart a) : s.Within Scope.apart a := by
  cases a with
  | sleep | tsleep => exact apart
  | _ => simp [Procs.Within, Scope.apart, Scope.any]

theorem Still.moves (still : Still s) (moves : Procs.Moves Scope.apart s s') : Still s' :=
  ⟨moves.inv still.board, still.timed.moves moves fun _ => id⟩

theorem Still.step {a : Act} (still : Still s) (called : Procs.Callers Procs.Active s a)
    (apart : w.Apart a) : Still (s.step a) :=
  still.moves (moves_step still.board called (within_apart apart))

theorem Due.of_kin (due : Due s d) (kin : s'.ledger.kin = s.ledger.kin) : Due s' d := by
  rcases due with ⟨c, k, found, rest⟩
  exact ⟨c, k, kin ▸ found, rest⟩

theorem Ready.frame (ready : Ready s d) (frame : Procs.Frame (· ≠ .proc d .waitr) s s')
    (known : d < s.next) (there : ∃ p', s'.tab d = some p') (due : Due s d → Due s' d) :
    Ready s' d := by
  rcases there with ⟨p', found'⟩
  have left := frame.left d p' found'
  rcases left with ⟨p, found, leaves⟩ | ⟨later, -⟩
  · rcases ready with ⟨q, here, asleep, link⟩ | ⟨q, here, noted⟩ | owed
    · obtain rfl : p = q := some_inj.mp (found.symm.trans here)
      rcases leaves.asleep _ asleep link (by simp) with noted | ⟨asleep', link'⟩
      · exact .inr (.inl ⟨p', found', noted⟩)
      · exact .inl ⟨p', found', asleep', link'⟩
    · obtain rfl : p = q := some_inj.mp (found.symm.trans here)
      exact .inr (.inl ⟨p', found', leaves.noted noted⟩)
    · exact .inr (.inr (due owed))
  · exact absurd later (not_le.mpr known)

theorem there_of_kin {p : Proc} (found : s.tab d = some p)
    (kin : s'.ledger.kin d = s.ledger.kin d) : ∃ p', s'.tab d = some p' ∧ p'.kin = p.kin :=
  tab_of_kin (kin.trans (kin_eq found))

theorem Ready.of_tab (ready : Ready s d) (tab : s'.tab d = s.tab d) (due : Due s d → Due s' d) :
    Ready s' d := by
  rcases ready with ⟨p, here, rests⟩ | ⟨p, here, noted⟩ | owed
  · exact .inl ⟨p, tab.trans here, rests⟩
  · exact .inr (.inl ⟨p, tab.trans here, noted⟩)
  · exact .inr (.inr (due owed))

theorem Ready.modify {f : Proc → Proc} (ready : Ready s d)
    (awake : ∀ p, s.tab pid = some p → p.state ≠ .wakeme)
    (noted : ∀ p, (f p).notepending = p.notepending) (kin : ∀ p, (f p).kin = p.kin) :
    Ready (s.modify pid f) d := by
  have same : (s.modify pid f).ledger.kin = s.ledger.kin :=
    (Procs.like_modify (f := Own.kin) kin).part
  rcases eq_or_ne d pid with rfl | differs
  · rcases ready with ⟨p, here, asleep, -⟩ | ⟨p, here, pending⟩ | owed
    · exact absurd asleep (awake p here)
    · exact .inr (.inl ⟨f p, by simp [here], (noted p).trans pending⟩)
    · exact .inr (.inr (owed.of_kin same))
  · exact ready.of_tab (by simp [differs]) fun owed => owed.of_kin same

theorem Ready.stop {p : Proc} (ready : Ready s d) (still : Still s) (active : s.Active pid)
    (here : s.tab d = some p) : Ready (s.stop pid) d := by
  have kin : (s.stop pid).ledger = s.ledger := Procs.ledger_stop
  rcases active with ⟨-, t, found, running, -⟩
  let t' := s.modify pid Proc.stopped
  have frame : Procs.Frame (· ≠ .proc d .waitr) t' (s.stop pid) := by
    apply (ProcDev.frame_stop found).mono
    rintro r ⟨q, -, rfl⟩
    simp
  have stopped : Ready t' d := by
    apply ready.modify (f := Proc.stopped)
    · intro q there
      rw [some_inj.mp (there.symm.trans found), running]
      simp
    · exact fun _ => rfl
    · exact fun _ => rfl
  have same : t'.ledger = s.ledger := Procs.ledger_keep fun _ => rfl
  have there : ∃ p', (s.stop pid).tab d = some p' ∧ p'.kin = p.kin :=
    there_of_kin here (by rw [kin])
  apply stopped.frame frame (still.board.wf.known (board_view here))
  · exact there.imp fun _ => And.left
  · exact fun owed => owed.of_kin (by rw [kin, same])

theorem Due.of_update {k : Kin} (due : Due s d) (absent : s.tab s.next = none)
    (kin : s'.ledger.kin = update s.ledger.kin s.next (some k)) : Due s' d := by
  rcases due with ⟨c, j, found, rest⟩
  have differs : c ≠ s.next := by
    rintro rfl
    rcases tab_of_kin found with ⟨p, there, -⟩
    rw [absent] at there
    cases there
  exact ⟨c, j, by rw [kin, update_of_ne differs, found], rest⟩

theorem Still.fresh (still : Still s) {q : Pid} (unmade : s.next ≤ q) : s.tab q = none := by
  have view := (still.board.wf.fresh q unmade).1
  cases found : s.tab q with
  | none => rfl
  | some p =>
      rw [board_view found] at view
      cases view

theorem Ready.table {a : Act} {p : Proc} (ready : Ready s d) (still : Still s)
    (called : Procs.Callers Procs.Active s a) (apart : w.Apart a) (waits : w.waits d = true)
    (here : s.tab d = some p) : Ready (s.step a) d := by
  have known : d < s.next := still.board.wf.known (board_view here)
  have due (owed : Due s d) : Due (s.step a) d := by
    rcases kin_step (s := s) apart with ⟨kin, -⟩ | ⟨x, kin, -⟩
    · exact owed.of_kin kin
    · exact owed.of_update (still.fresh le_rfl) kin
  have there : ∃ p', (s.step a).tab d = some p' ∧ p'.kin = p.kin := by
    apply there_of_kin here
    rcases kin_step (s := s) apart with ⟨kin, -⟩ | ⟨x, kin, -⟩
    · rw [kin]
    · rw [kin, update_of_ne known.ne]
  have framed (plain : Procs.Undebugged a) : Ready (s.step a) d := by
    have woken : s.Woken (· ≠ .proc d .waitr) a := by
      cases a with
      | wakeup r =>
          rintro rfl
          exact apart ⟨d, rfl⟩
      | timerintr order now =>
          refine ⟨fun q v r found set => ?_, by simp⟩
          rintro rfl
          exact still.timed q v _ found set ⟨d, rfl⟩
      | exits => exact absurd apart id
      | _ => simp [Procs.Woken]
    have frame := Procs.frame_step still.board called plain woken
    exact ready.frame frame known (there.imp fun _ => And.left) due
  cases a with
  | stop pid => exact ready.stop still called here
  | edit pid f =>
      rcases ready with ⟨q, found, asleep, link⟩ | ⟨q, found, noted⟩ | owed
      · left
        rcases eq_or_ne d pid with rfl | differs
        · have view := called.view q
          refine ⟨f q, by simp [Procs.step, found], ?_, ?_⟩
          · exact (congrArg View.state view).trans asleep
          · exact (congrArg View.r view).trans link
        · exact ⟨q, by simpa [Procs.step, differs] using found, asleep, link⟩
      · right
        left
        rcases eq_or_ne d pid with rfl | differs
        · exact ⟨f q, by simp [Procs.step, found], (apart.2 waits q).trans noted⟩
        · exact ⟨q, by simpa [Procs.step, differs] using found, noted⟩
      · exact .inr (.inr (due owed))
  | _ => exact framed trivial

theorem kin_exits {p : Proc} (status : String) (found : s.tab pid = some p) :
    ∃ msg times, (s.exits pid status).ledger.kin =
        update s.ledger.kin pid (some ⟨p.ppid, p.waited, some msg, times⟩) ∧
      (s.exits pid status).next = s.next := by
  have same := Procs.ledger_exits status found
  rw [same, Ledger.kin, Ledger.part_edit, Procs.own_eq found]
  exact ⟨_, _, rfl, congrArg Ledger.next same⟩

theorem over_exits {p : Proc} (status : String) (found : s.tab pid = some p) :
    ∃ p', (s.exits pid status).tab pid = some p' ∧ p'.status.isSome := by
  rcases kin_exits status found with ⟨msg, times, kin, -⟩
  have here : (s.exits pid status).ledger.kin pid = some ⟨p.ppid, p.waited, some msg, times⟩ := by
    rw [kin, update_self]
  rcases tab_of_kin here with ⟨p', found', same⟩
  have ended : p'.status = some msg := congrArg Kin.status same
  exact ⟨p', found', by simp [ended]⟩

theorem found_of_source (source : s.Active pid ∨ s.Unentered pid) :
    ∃ p, s.tab pid = some p ∧ p.state ≠ .wakeme := by
  rcases source with ⟨-, p, found, running, -⟩ | ⟨p, found, fresh⟩
  · exact ⟨p, found, by simp [running]⟩
  · refine ⟨p, found, ?_⟩
    rcases fresh with h | h <;> simp [h]

theorem Still.rfork {flags : Nat} (still : Still w.procs) (active : w.procs.Active pid) :
    Still (w.rfork pid flags).procs := by
  have steps : Procs.Moves Scope.apart w.procs (w.procs.step (.rfork pid flags)) :=
    moves_step still.board active trivial
  rcases forked : w.procs.sysrfork pid flags with _ | ⟨_ | c, s⟩
  · simp only [Family.rfork, forked]
    exact still
  all_goals
    simp only [Procs.step, forked] at steps
    simp only [Family.rfork, forked]
    exact still.moves steps

theorem Still.exits {status : String} (still : Still s)
    (source : s.Active pid ∨ s.Unentered pid) : Still (s.exits pid status) :=
  still.moves (moves_step (a := .exits pid status) still.board source trivial)

theorem Still.pexit {status : String} {freemem : Bool} (still : Still s)
    (source : s.Active pid ∨ s.Unentered pid) : Still (s.pexit pid status freemem) := by
  have exited : Still (s.exits pid status) := still.exits source
  rw [Procs.pexit]
  split_ifs
  · exact exited
  · rcases found_of_source source with ⟨p, found, -⟩
    exact exited.moves (moves_step (a := .addbroken pid) exited.board
      (over_exits status found) trivial)

theorem Still.waitrecord (still : Still s) (order : List Pid) :
    Still (s.waitrecord order pid).2 := by
  have same : (s.waitrecord order pid).2 = (s.awaitChild order pid).2 := by
    rw [Procs.waitrecord]
    split <;> next taken => rw [taken]
  rw [same]
  exact still.moves (Procs.steps_awaitChild order)

theorem Still.take (still : Still w.procs) (order : List Pid) :
    Still (w.take order pid).2.procs := by
  have taken : Still (w.procs.waitrecord order pid).2 := still.waitrecord order
  rw [Family.take]
  split <;> next record => rw [record] at taken; exact taken

theorem Still.interrupted (still : Still s) : Still (s.interrupted pid).2 := by
  have same : (s.interrupted pid).2.board = s.board :=
    Procs.board_quiet ⟨fun _ => rfl, fun _ => rfl, fun _ => rfl⟩
  exact ⟨same ▸ still.board, same ▸ still.timed⟩

theorem Still.sleep (still : Still s) (active : s.Active pid) :
    Still (s.sleep pid (.proc pid .waitr) false).2 := by
  rcases active with ⟨-, p, found, running, alive⟩
  have mine : (Rid.proc pid .waitr).OpenTo pid := by simp [Rid.OpenTo, Rid.owner]
  have slept : Procs.Moves Scope.any s (s.sleep pid (.proc pid .waitr) false).2 :=
    Procs.steps_sleep found running alive mine trivial
  have same := Procs.board_sleep (s := s) false (by simp [found]) mine
  refine ⟨slept.inv still.board, ?_⟩
  have counted (who : Option Pid) :
      ((s.board.sleepOn pid (.proc pid .waitr)).setRendez (.proc pid .waitr) who).Timed
        fun r => ¬AtWaitr r := by
    intro q v r here set
    exact still.timed q v r (by simpa [Board.setRendez] using here) set
  rw [same]
  split_ifs
  · exact (counted _).edit fun _ _ => .inl
  · exact counted _

theorem Still.await (still : Still w.procs) (order : List Pid) (active : w.procs.Active pid) :
    Still (w.await order pid).2.procs := by
  simp only [Family.await]
  split_ifs
  · exact still.take order
  · exact still
  · exact (still.sleep active).interrupted
  · exact still.sleep active

theorem Still.resume (still : Still w.procs) (order : List Pid) :
    Still (w.resume order pid).2.procs := by
  simp only [Family.resume]
  split_ifs
  · exact still.interrupted
  · exact still.interrupted.take (w := { w with
      waits := update w.waits pid false, procs := (w.procs.interrupted pid).2 }) order

theorem Still.called {a : FamAct} (still : Still w.procs) (called : w.Called a) :
    Still (w.step a).procs := by
  cases a with
  | table a => exact still.step called.1 called.2.1
  | rfork pid flags => exact still.rfork called.1
  | pexit pid status freemem => exact still.pexit (called.1.imp_right And.left)
  | await pid order => exact still.await order called.1
  | resume pid order => exact still.resume order

theorem still_new : Still new.procs where
  board := Procs.inv_new
  timed := by
    intro q v r found set
    rcases Procs.tab_of_board_view found with ⟨p, here, rfl⟩
    simp only [new, Procs.new] at here
    split_ifs at here
    cases here
    cases set

theorem Still.whole (still : Still w.procs) : w.Whole (List.range w.procs.next) := by
  intro c there
  rw [mem_range]
  by_contra unmade
  rw [still.fresh (not_lt.mp unmade)] at there
  cases there

theorem Inv.known (inv : w.Inv) {k : Kin} (here : w.procs.ledger.kin c = some k) :
    c < w.procs.next := by
  rcases tab_of_kin here with ⟨p, found, -⟩
  exact inv.still.board.wf.known (board_view found)

theorem Inv.waiter (inv : w.Inv) (waits : w.waits d = true) : d < w.procs.next := by
  rcases (inv.waits d waits).1 with ⟨k, here, -⟩
  exact inv.known here

theorem Inv.keep (inv : w.Inv) (still : Still s) (next : w.procs.next ≤ s.next)
    (same : ∀ c < w.procs.next, s.ledger.kin c = w.procs.ledger.kin c)
    (later : ∀ c k, w.procs.next ≤ c → s.ledger.kin c = some k → k.waited = true)
    (ready : ∀ d, w.waits d = true → Ready s d) : Inv { w with procs := s } where
  still := still
  child c k here alone := by
    rcases lt_or_ge c w.procs.next with known | unmade
    · exact inv.child c k ((same c known).symm.trans here) alone
    · rw [later c k unmade here] at alone
      cases alone
  made c p b made := by
    rcases inv.made c p b made with ⟨known, older⟩
    exact ⟨known.trans_le next, older⟩
  kept c p made := by
    rcases inv.kept c p made with ⟨k, here, rest⟩ | taken
    · exact .inl ⟨k, (same c (inv.known here)).trans here, rest⟩
    · exact .inr taken
  taken p m member := by
    rcases inv.taken p m member with ⟨made, gone⟩
    exact ⟨made, (same m.pid (inv.made _ _ _ made).1).trans gone⟩
  once := inv.once
  waits d waits := by
    rcases (inv.waits d waits).1 with ⟨k, here, alive⟩
    exact ⟨⟨k, (same d (inv.known here)).trans here, alive⟩, ready d waits⟩

theorem Inv.absent (inv : w.Inv) (unmade : w.procs.next ≤ c) : w.procs.ledger.kin c = none :=
  Procs.part_none (inv.still.fresh unmade)

theorem Inv.table {a : Act} (inv : w.Inv) (called : w.Called (.table a)) :
    Inv { w with procs := w.procs.step a } := by
  rcases called with ⟨promised, apart, -⟩
  have kin := kin_step (s := w.procs) apart
  apply inv.keep (inv.still.step promised apart)
  · rcases kin with ⟨-, next⟩ | ⟨x, -, next⟩
    · exact next.ge
    · rw [next]
      exact Nat.le_succ _
  · intro c known
    rcases kin with ⟨same, -⟩ | ⟨x, same, -⟩
    · rw [same]
    · rw [same, update_of_ne known.ne]
  · intro c k unmade here
    have absent := inv.absent unmade
    rcases kin with ⟨same, -⟩ | ⟨x, same, -⟩
    · rw [same, absent] at here
      cases here
    · rw [same] at here
      rcases eq_or_ne c w.procs.next with rfl | differs
      · rw [update_self] at here
        cases here
        rfl
      · rw [update_of_ne differs, absent] at here
        cases here
  · intro d waits
    rcases inv.waits d waits with ⟨⟨k, here, -⟩, ready⟩
    rcases tab_of_kin here with ⟨p, found, -⟩
    exact ready.table inv.still promised apart waits found

theorem Inv.same (inv : w.Inv) (still : Still s) (kin : s.ledger.kin = w.procs.ledger.kin)
    (next : s.next = w.procs.next) (ready : ∀ d, w.waits d = true → Ready s d) :
    Inv { w with procs := s } := by
  apply inv.keep still next.ge (fun c _ => by rw [kin]) _ ready
  intro c k unmade here
  rw [kin, inv.absent unmade] at here
  cases here

theorem Inv.born {k : Kin} {nowait : Bool} (inv : w.Inv) (still : Still s)
    (next : s.next = w.procs.next + 1)
    (kin : s.ledger.kin = update w.procs.ledger.kin w.procs.next (some k))
    (older : pid < w.procs.next) (parent : k.ppid = pid) (kind : k.waited = nowait)
    (ready : ∀ d, w.waits d = true → (∃ p', s.tab d = some p') →
      (Due w.procs d → Due s d) → Ready s d) :
    Inv { w with
      procs := s, made := update w.made w.procs.next (some (pid, nowait)) } := by
  have apart {c : Pid} (known : c < w.procs.next) :
      s.ledger.kin c = w.procs.ledger.kin c := by rw [kin, update_of_ne known.ne]
  have made' {c : Pid} {x : Pid × Bool} (made : w.made c = some x) : c < w.procs.next :=
    (inv.made c x.1 x.2 made).1
  refine ⟨still, fun c k' here alone => ?_, fun c p b made => ?_, fun c p made => ?_,
    fun p m member => ?_, inv.once, fun d waits => ?_⟩
  · rcases eq_or_ne c w.procs.next with rfl | differs
    · rw [kin, update_self, some_inj] at here
      subst here
      simp only [update_self]
      rw [parent, ← kind, alone]
    · rw [kin, update_of_ne differs] at here
      simpa only [update_of_ne differs] using inv.child c k' here alone
  · rcases eq_or_ne c w.procs.next with rfl | differs
    · simp only [update_self, some_inj, Prod.mk.injEq] at made
      rw [next]
      exact ⟨Nat.lt_succ_self _, made.1 ▸ older⟩
    · simp only [update_of_ne differs] at made
      rcases inv.made c p b made with ⟨known, below⟩
      rw [next]
      exact ⟨known.trans (Nat.lt_succ_self _), below⟩
  · rcases eq_or_ne c w.procs.next with rfl | differs
    · simp only [update_self, some_inj, Prod.mk.injEq] at made
      rcases made with ⟨rfl, rfl⟩
      exact .inl ⟨k, by rw [kin, update_self], parent, kind⟩
    · simp only [update_of_ne differs] at made
      rcases inv.kept c p made with ⟨k', here, rest⟩ | taken
      · exact .inl ⟨k', (apart (made' made)).trans here, rest⟩
      · exact .inr taken
  · rcases inv.taken p m member with ⟨made, gone⟩
    have known := made' made
    simp only [update_of_ne known.ne]
    exact ⟨made, (apart known).trans gone⟩
  · rcases (inv.waits d waits).1 with ⟨k', here, living⟩
    have here' := (apart (inv.known here)).trans here
    refine ⟨⟨k', here', living⟩, ready d waits ?_ ?_⟩
    · exact (tab_of_kin here').imp fun _ => And.left
    · rintro ⟨c, j, found, rest⟩
      exact ⟨c, j, (apart (inv.known found)).trans found, rest⟩

theorem Inv.rfork {flags : Nat} (inv : w.Inv) (active : w.procs.Active pid) :
    (w.rfork pid flags).Inv := by
  have still : Still (w.rfork pid flags).procs := inv.still.rfork active
  rcases forked : w.procs.sysrfork pid flags with _ | ⟨made, s⟩
  · simp only [Family.rfork, forked]
    exact inv
  have ready (d : Pid) (waits : w.waits d = true) (there : ∃ p', s.tab d = some p')
      (due : Due w.procs d → Due s d) : Ready s d :=
    (inv.waits d waits).2.frame (Procs.frame_sysrfork forked) (inv.waiter waits) there due
  rcases Procs.ledger_sysrfork forked with ⟨parent, found, ⟨rfl, born⟩ | ⟨rfl, changed⟩⟩
  · simp only [Family.rfork, forked] at still ⊢
    have kin : s.ledger.kin = update w.procs.ledger.kin w.procs.next
        (some (w.procs.child pid parent flags).kin) := by
      rw [born]
      exact Ledger.part_update
    have next : s.next = w.procs.next + 1 := congrArg Ledger.next born
    exact inv.born still next kin (inv.still.board.wf.known (board_view found))
      rfl rfl ready
  · simp only [Family.rfork, forked] at still ⊢
    have akin : w.procs.ledger.Akin s.ledger := by
      rw [changed]
      apply Ledger.like_edit
      intro o
      split_ifs <;> rfl
    apply inv.same still akin.kin akin.next
    intro d waits
    rcases (inv.waits d waits).1 with ⟨k, here, -⟩
    have there := tab_of_kin ((congrFun akin.kin d).trans here)
    exact ready d waits (there.imp fun _ => And.left) fun owed => owed.of_kin akin.kin

theorem Ready.exits {p : Proc} {status : String} (ready : Ready s d) (still : Still s)
    (found : s.tab pid = some p) (awake : p.state ≠ .wakeme) (differs : d ≠ pid)
    (here : ∃ q, s.tab d = some q) (heard : p.waited = true → ¬(p.ppid = d ∧ Rests s d)) :
    Ready (s.exits pid status) d := by
  rcases kin_exits status found with ⟨msg, times, kin, -⟩
  rcases here with ⟨q, here⟩
  have known : d < s.next := still.board.wf.known (board_view here)
  have there : ∃ p', (s.exits pid status).tab d = some p' ∧ p'.kin = q.kin :=
    there_of_kin here (by rw [kin, update_of_ne differs])
  have asleep : s.state pid ≠ .wakeme := by simpa [Procs.state, found] using awake
  have due (apart : ¬(p.ppid = d ∧ p.waited = false)) (owed : Due s d) :
      Due (s.exits pid status) d := by
    rcases owed with ⟨c, k, child, mine, alone, finished⟩
    have other : c ≠ pid := by
      rintro rfl
      rw [kin_eq found] at child
      cases child
      exact apart ⟨mine, alone⟩
    exact ⟨c, k, by rw [kin, update_of_ne other, child], mine, alone, finished⟩
  by_cases mine : p.ppid = d
  · cases kind : p.waited with
    | false =>
        exact .inr (.inr ⟨pid, _, by rw [kin, update_self], mine, kind, rfl⟩)
    | true =>
        have frame : Procs.Frame (fun _ => True) s (s.exits pid status) :=
          Procs.frame_exits asleep fun _ _ => trivial
        rcases ready with rests | ⟨q', here', noted⟩ | owed
        · exact absurd ⟨mine, rests⟩ (heard kind)
        · rcases there with ⟨p', found', -⟩
          rcases frame.left d p' found' with ⟨r, before, leaves⟩ | ⟨later, -⟩
          · rw [some_inj.mp (before.symm.trans here')] at leaves
            exact .inr (.inl ⟨p', found', leaves.noted noted⟩)
          · exact absurd later (not_le.mpr known)
        · exact .inr (.inr (due (by simp [kind]) owed))
  · have frame : Procs.Frame (· ≠ .proc d .waitr) s (s.exits pid status) := by
      apply Procs.frame_exits asleep
      intro p' found'
      rw [← some_inj.mp (found.symm.trans found')]
      simpa using mine
    exact ready.frame frame known (there.imp fun _ => And.left) (due (by simp [mine]))

/-- No process made with `RFNOWAIT` exits while its parent sleeps in `await`. -/
def Heard (w : Family) : FamAct → Prop
  | .pexit pid _ _ => ∀ p, w.procs.tab pid = some p → p.waited = true →
      ¬(w.waits p.ppid = true ∧ Rests w.procs p.ppid)
  | _ => True

theorem Inv.exits {status : String} (inv : w.Inv)
    (source : w.procs.Active pid ∨ w.procs.Unentered pid) (idle : w.waits pid = false)
    (heard : w.Heard (.pexit pid status true)) :
    Inv { w with procs := w.procs.exits pid status } := by
  rcases found_of_source source with ⟨p, found, awake⟩
  have still : Still (w.procs.exits pid status) := inv.still.exits source
  rcases kin_exits status found with ⟨msg, times, kin, next⟩
  have waiter {d : Pid} (waits : w.waits d = true) : d ≠ pid := by
    rintro rfl
    rw [idle] at waits
    cases waits
  refine ⟨still, fun c k here alone => ?_, fun c p' b made => ?_, fun c p' made => ?_,
    fun p' m member => ?_, inv.once, fun d waits => ?_⟩
  · rcases eq_or_ne c pid with rfl | differs
    · rw [kin, update_self, some_inj] at here
      subst here
      exact inv.child c p.kin (kin_eq found) alone
    · rw [kin, update_of_ne differs] at here
      exact inv.child c k here alone
  · rw [next]
    exact inv.made c p' b made
  · rcases inv.kept c p' made with ⟨k, here, mine, alone⟩ | taken
    · left
      rcases eq_or_ne c pid with rfl | differs
      · rw [kin_eq found] at here
        cases here
        exact ⟨⟨p.ppid, p.waited, some msg, times⟩, by rw [kin, update_self], mine, alone⟩
      · exact ⟨k, by rw [kin, update_of_ne differs, here], mine, alone⟩
    · exact .inr taken
  · rcases inv.taken p' m member with ⟨made, gone⟩
    have differs : m.pid ≠ pid := by
      rintro same
      rw [same, kin_eq found] at gone
      cases gone
    exact ⟨made, by rw [kin, update_of_ne differs, gone]⟩
  · rcases inv.waits d waits with ⟨⟨k, here, living⟩, ready⟩
    have differs := waiter waits
    have here' := (tab_of_kin here).imp fun _ => And.left
    refine ⟨⟨k, by rw [kin, update_of_ne differs, here], living⟩, ?_⟩
    apply ready.exits inv.still found awake differs here'
    rintro nowait ⟨rfl, rests⟩
    exact heard p found nowait ⟨waits, rests⟩

theorem Inv.pexit {status : String} {freemem : Bool} (inv : w.Inv)
    (called : w.Called (.pexit pid status freemem)) (heard : w.Heard (.pexit pid status freemem)) :
    Inv { w with procs := w.procs.pexit pid status freemem } := by
  have exited : Inv { w with procs := w.procs.exits pid status } :=
    inv.exits (called.1.imp_right And.left) called.2 heard
  rw [Procs.pexit]
  split_ifs
  · exact exited
  · rcases found_of_source (called.1.imp_right And.left) with ⟨q, there, -⟩
    have finished := over_exits status there
    have steps : Procs.Moves Scope.apart (w.procs.exits pid status)
        ((w.procs.exits pid status).addbroken pid) :=
      moves_step (a := .addbroken pid) exited.still.board finished trivial
    have akin : ((w.procs.exits pid status).addbroken pid).ledger = _ := Procs.ledger_addbroken
    have kept := exited.same (exited.still.moves steps) (by rw [akin]; rfl)
      (congrArg Ledger.next akin) fun d waits => ?_
    · exact kept
    · rcases exited.waits d waits with ⟨⟨k, here, -⟩, ready⟩
      have frame : Procs.Frame (· ≠ .proc d .waitr) (w.procs.exits pid status)
          ((w.procs.exits pid status).addbroken pid) := by
        apply Procs.frame_addbroken exited.still.board
        intro p' found'
        rcases finished with ⟨p, found, ended⟩
        rwa [← some_inj.mp (found.symm.trans found')]
      have kin : ((w.procs.exits pid status).addbroken pid).ledger.kin =
          (w.procs.exits pid status).ledger.kin := by rw [akin]; rfl
      have there := tab_of_kin ((congrFun kin d).trans here)
      exact ready.frame frame (exited.waiter waits) (there.imp fun _ => And.left)
        fun owed => owed.of_kin kin

/-- What `waitrecord` comes to: the record of some child, which leaves the table, or none. -/
theorem waitrecord_cases (order : List Pid) (pid : Pid) :
    (∃ c p, s.tab c = some p ∧ p.ppid = pid ∧ p.waited = false ∧ p.status.isSome ∧
      s.waitrecord order pid =
        (.ok (p.waitmsg c), { s with tab := update s.tab c none })) ∨
      s.waitrecord order pid = (.error enochild, s) ∧ ∀ c ∈ order, s.hasrecord pid c = false := by
  rcases first : order.find? (s.hasrecord pid) with _ | c
  · right
    have taken : s.awaitChild order pid = (none, s) := by
      unfold Procs.hasrecord at first
      simp only [Procs.awaitChild, first]
    rw [Procs.waitrecord, taken]
    refine ⟨rfl, fun c member => ?_⟩
    simpa using List.find?_eq_none.mp first c member
  · left
    have taken : s.awaitChild order pid =
        (some c, { s with tab := update s.tab c none }) := by
      unfold Procs.hasrecord at first
      simp only [Procs.awaitChild, first]
    rw [Procs.waitrecord, taken]
    have record := List.find?_some first
    rcases found : s.tab c with _ | p
    · simp [Procs.hasrecord, found] at record
    · simp only [Procs.hasrecord, found, any_some, Bool.and_eq_true, beq_iff_eq,
        Bool.not_eq_true'] at record
      exact ⟨c, p, found, record.1.1, record.1.2, record.2, by simp [found]⟩

theorem Inv.take (inv : w.Inv) (order : List Pid) (idle : w.waits pid = false) :
    (w.take order pid).2.Inv := by
  rcases waitrecord_cases (s := w.procs) order pid with
    ⟨c, p, found, mine, alone, finished, same⟩ | ⟨same, -⟩
  · simp only [Family.take, same]
    have child : w.made c = some (pid, false) := mine ▸ inv.child c p.kin (kin_eq found) alone
    let s : Procs := { w.procs with tab := update w.procs.tab c none }
    have kin : s.ledger.kin = update w.procs.ledger.kin c none := by
      rw [Procs.ledger_reap]
      exact Ledger.part_remove
    have still : Still s := by
      have taken : Still (w.procs.waitrecord order pid).2 := inv.still.waitrecord order
      rwa [same] at taken
    have apart {m : Waitmsg} {q : Pid} (member : (q, m) ∈ w.taken) : m.pid ≠ c := by
      rintro rfl
      have gone := (inv.taken q m member).2
      rw [kin_eq found] at gone
      cases gone
    refine ⟨still, fun c' k here => ?_, inv.made, fun c' q made => ?_,
      fun q m member => ?_, ?_, fun d waits => ?_⟩
    · rcases eq_or_ne c' c with rfl | differs
      · rw [kin, update_self] at here
        cases here
      · rw [kin, update_of_ne differs] at here
        exact inv.child c' k here
    · rcases eq_or_ne c' c with rfl | differs
      · have same : q = pid := by
          have both := made.symm.trans child
          simp only [some_inj, Prod.mk.injEq] at both
          exact both.1
        subst same
        exact .inr ⟨p.waitmsg c', by simp, rfl⟩
      · rcases inv.kept c' q made with ⟨k, here, rest⟩ | ⟨m, member, rfl⟩
        · exact .inl ⟨k, by rw [kin, update_of_ne differs, here], rest⟩
        · exact .inr ⟨m, by simp [member], rfl⟩
    · rcases mem_append.mp member with old | new
      · rcases inv.taken q m old with ⟨made, gone⟩
        exact ⟨made, by rw [kin, update_of_ne (apart old), gone]⟩
      · simp only [mem_singleton, Prod.mk.injEq] at new
        rcases new with ⟨rfl, rfl⟩
        exact ⟨child, by rw [kin]; exact update_self ..⟩
    · rw [map_append, nodup_append]
      refine ⟨inv.once, by simp, fun x old y new => ?_⟩
      rcases mem_map.mp old with ⟨⟨q, m⟩, member, rfl⟩
      simp only [map_cons, map_nil, mem_singleton] at new
      rw [new]
      exact apart member
    · rcases inv.waits d waits with ⟨⟨k, here, living⟩, ready⟩
      have other : d ≠ c := by
        rintro rfl
        rw [kin_eq found, some_inj] at here
        have alive : p.status = none := by
          have same : p.kin.status = none := here ▸ living
          exact same
        rw [alive] at finished
        cases finished
      have differs : d ≠ pid := by
        rintro rfl
        rw [idle] at waits
        cases waits
      refine ⟨⟨k, by rw [kin, update_of_ne other, here], living⟩, ?_⟩
      apply ready.of_tab (by simp [other])
      rintro ⟨c', j, owed, theirs, rest⟩
      have apart' : c' ≠ c := by
        rintro rfl
        rw [kin_eq found] at owed
        cases owed
        exact differs (theirs.symm.trans mine)
      exact ⟨c', j, by rw [kin, update_of_ne apart', owed], theirs, rest⟩
  · simp only [Family.take, same]
    exact inv

theorem akin_interrupted (pid : Pid) : s.ledger.Akin (s.interrupted pid).2.ledger :=
  Procs.like_interrupted apart_kin.toAside

theorem Ready.interrupted (ready : Ready s d) (differs : d ≠ pid) :
    Ready (s.interrupted pid).2 d :=
  ready.of_tab (by simp [Procs.interrupted, differs]) fun owed =>
      owed.of_kin (akin_interrupted pid).kin

theorem Inv.interrupted (inv : w.Inv) (idle : w.waits pid = false) :
    Inv { w with procs := (w.procs.interrupted pid).2 } := by
  apply inv.same inv.still.interrupted (akin_interrupted pid).kin (akin_interrupted pid).next
  intro d waits
  apply (inv.waits d waits).2.interrupted
  rintro rfl
  rw [idle] at waits
  cases waits

theorem Inv.unwaited (inv : w.Inv) :
    Inv { w with waits := update w.waits pid false } where
  __ := inv
  waits d waits := by
    rcases eq_or_ne d pid with rfl | differs
    · simp at waits
    · exact inv.waits d (by simpa [differs] using waits)

theorem Inv.resume (inv : w.Inv) (order : List Pid) : (w.resume order pid).2.Inv := by
  have woken : Inv { { w with waits := update w.waits pid false } with
      procs := (w.procs.interrupted pid).2 } := inv.unwaited.interrupted (by simp)
  simp only [Family.resume]
  split_ifs
  · exact woken
  · exact woken.take order (by simp)

theorem sleep_waitr {p : Proc} (found : s.tab pid = some p) :
    (s.sleep pid (.proc pid .waitr) false).1 = true ∧
        Rests (s.sleep pid (.proc pid .waitr) false).2 pid ∨
      (s.sleep pid (.proc pid .waitr) false).1 = false ∧
        ((s.sleep pid (.proc pid .waitr) false).2.interrupted pid).1 = true := by
  rcases noted : p.notepending
  · left
    simp [Procs.sleep, Rests, Procs.tab_countsleep, Procs.setRendez, Procs.setlabel, found, noted,
      Proc.sleepat]
  · right
    simp [Procs.sleep, Procs.interrupted, Procs.tab_countsleep, Procs.setRendez, found, noted]

theorem Inv.sleep (inv : w.Inv) (active : w.procs.Active pid) :
    Inv { w with procs := (w.procs.sleep pid (.proc pid .waitr) false).2 } := by
  have awake : w.procs.state pid ≠ .wakeme := by
    rcases active with ⟨-, p, found, running, -⟩
    simp [Procs.state, found, running]
  have same : (w.procs.sleep pid (.proc pid .waitr) false).2.ledger = w.procs.ledger :=
    Procs.ledger_sleep _ _
  apply inv.same (inv.still.sleep active) (congrArg Ledger.kin same) (congrArg Ledger.next same)
  intro d waits
  rcases (inv.waits d waits).1 with ⟨k, here, -⟩
  have there := tab_of_kin ((congrFun (congrArg Ledger.kin same) d).trans here)
  apply (inv.waits d waits).2.frame (Procs.frame_sleep awake) (inv.waiter waits)
  · exact there.imp fun _ => And.left
  · exact fun owed => owed.of_kin (congrArg Ledger.kin same)

theorem Inv.await (inv : w.Inv) (order : List Pid) (active : w.procs.Active pid)
    (idle : w.waits pid = false) : (w.await order pid).2.Inv := by
  have slept := inv.sleep active
  have kin : (w.procs.sleep pid (.proc pid .waitr) false).2.ledger.kin = w.procs.ledger.kin :=
    congrArg Ledger.kin (Procs.ledger_sleep _ _)
  simp only [Family.await]
  split_ifs with record childless woken
  · exact inv.take order idle
  · exact inv
  · exact slept.interrupted idle
  · rcases active with ⟨-, p, found, running, alive⟩
    rcases sleep_waitr found with ⟨-, rests⟩ | ⟨kept, noted⟩
    · refine ⟨slept.still, slept.child, slept.made, slept.kept, slept.taken, slept.once,
        fun d waits => ?_⟩
      rcases eq_or_ne d pid with rfl | differs
      · exact ⟨⟨p.kin, (congrFun kin d).trans (kin_eq found), alive⟩, .inl rests⟩
      · exact slept.waits d (by simpa [differs] using waits)
    · simp [kept, noted] at woken

theorem Inv.step {a : FamAct} (inv : w.Inv) (called : w.Called a) (heard : w.Heard a) :
    (w.step a).Inv := by
  cases a with
  | table a => exact inv.table called
  | rfork pid flags => exact inv.rfork called.1
  | pexit pid status freemem => exact inv.pexit called heard
  | await pid order => exact inv.await order called.1 called.2.1
  | resume pid order => exact inv.resume order

theorem inv_new : new.Inv where
  still := still_new
  child c k here alone := by
    rcases tab_of_kin here with ⟨p, found, rfl⟩
    simp only [new, Procs.new] at found
    split_ifs at found
    cases found
    cases alone
  made c p b made := by cases made
  kept c p made := by cases made
  taken p m member := by cases member
  once := by simp [new]
  waits d waits := by cases waits

/-- Called as promised, and heard only for a record. -/
def Kept (w : Family) (a : FamAct) : Prop := w.Called a ∧ w.Heard a

theorem inv_of_reach (reached : family.Reach Kept w) : w.Inv := by
  refine System.Reach.invariant Inv (fun w first => ?_) (fun w a w' inv kept moved => ?_) reached
  · exact first ▸ inv_new
  · obtain rfl : w' = w.step a := moved
    exact inv.step kept.1 kept.2

theorem still_of_reach (reached : family.Reach Called w) : Still w.procs := by
  refine System.Reach.invariant (fun w => Still w.procs) (fun w first => ?_)
    (fun w a w' still called moved => ?_) reached
  · exact first ▸ still_new
  · obtain rfl : w' = w.step a := moved
    exact still.called called

/-- `p` may still wait for `c`: it is a child of its that lives, or has a record not taken. -/
def Unwaited (w : Family) (p c : Pid) : Prop :=
  ∃ t, w.procs.tab c = some t ∧ t.ppid = p ∧ t.waited = false

/-- A record of one of the caller's children, which leaves the table as it is given. -/
def Given (w : Family) (p : Pid) (out : Except String (Option Waitmsg) × Family) : Prop :=
  ∃ m t, out.1 = .ok (some m) ∧ w.Unwaited p m.pid ∧ w.procs.tab m.pid = some t ∧
    t.status.isSome ∧ m = t.waitmsg m.pid ∧ out.2.taken = w.taken ++ [(p, m)] ∧
      out.2.procs.tab m.pid = none

structure Delivered (w : Family) : Prop where
  /-- No record is taken twice. -/
  once : (w.taken.map fun t => t.2.pid).Nodup
  /-- Each is taken by the process that made the child, and the child is out of the table. -/
  own : ∀ p m, (p, m) ∈ w.taken → w.made m.pid = some (p, false) ∧ w.procs.tab m.pid = none
  /-- A child made without `RFNOWAIT` can be waited for until its record is taken. -/
  kept : ∀ c p, w.made c = some (p, false) →
    w.Unwaited p c ∨ ∃ m, (p, m) ∈ w.taken ∧ m.pid = c
  /-- A parent that asks when there is a record is given one. -/
  given : ∀ p order c t, w.Called (.await p order) → w.Unwaited p c → w.procs.tab c = some t →
    t.status.isSome → w.Given p (w.await order p)
  /-- A process is told that it has no living children only when it has none. -/
  lonely : ∀ p order c, w.Called (.await p order) →
    (w.await order p).1 = .error enochild → ¬w.Unwaited p c
  /-- A process that comes back to its wait has a note, or is given a record. -/
  woken : ∀ p order, w.Called (.resume p order) →
    (w.resume order p).1 = .error eintr ∨ w.Given p (w.resume order p)

theorem unwaited_of_child (child : Child w.procs pid c) : w.Unwaited pid c := by
  rcases child with ⟨k, here, mine, alone⟩
  rcases tab_of_kin here with ⟨t, found, rfl⟩
  exact ⟨t, found, mine, alone⟩

theorem hasrecord_of_due (due : Due s pid) : ∃ c, (s.tab c).isSome ∧ s.hasrecord pid c = true := by
  rcases due with ⟨c, k, here, mine, alone, finished⟩
  rcases tab_of_kin here with ⟨t, found, rfl⟩
  have parent : t.ppid = pid := mine
  have kind : t.waited = false := alone
  have ended : t.status.isSome := finished
  exact ⟨c, by simp [found], by simp [Procs.hasrecord, found, parent, kind, ended]⟩

theorem given_of_take {order : List Pid} (whole : w.Whole order) (due : Due w.procs pid) :
    w.Given pid (w.take order pid) := by
  rcases waitrecord_cases (s := w.procs) order pid with
    ⟨c, t, found, mine, alone, finished, same⟩ | ⟨-, none⟩
  · simp only [Family.take, same]
    exact ⟨t.waitmsg c, t, rfl, ⟨t, found, mine, alone⟩, found, finished, rfl, rfl,
      update_self ..⟩
  · rcases hasrecord_of_due due with ⟨c, there, record⟩
    rw [none c (whole c there)] at record
    cases record

theorem Inv.delivered (inv : w.Inv) : w.Delivered where
  once := inv.once
  own p m member := by
    rcases inv.taken p m member with ⟨made, gone⟩
    refine ⟨made, ?_⟩
    rcases found : w.procs.tab m.pid with _ | t
    · rfl
    · rw [kin_eq found] at gone
      cases gone
  kept c p made := (inv.kept c p made).imp_left unwaited_of_child
  given p order c t called child found finished := by
    rcases child with ⟨t', there, mine, alone⟩
    obtain rfl : t = t' := some_inj.mp (found.symm.trans there)
    have due : Due w.procs p := ⟨c, t.kin, kin_eq found, mine, alone, finished⟩
    have record : w.procs.haswaitq order p = true := by
      rcases hasrecord_of_due due with ⟨c', there', record⟩
      exact any_eq_true.mpr ⟨c', called.2.2 c' there', record⟩
    rw [Family.await, if_pos record]
    exact given_of_take called.2.2 due
  lonely p order c called told child := by
    rcases child with ⟨t, found, mine, alone⟩
    simp only [Family.await] at told
    split_ifs at told with record childless woken
    · rcases any_eq_true.mp record with ⟨c', -, holds⟩
      rcases found' : w.procs.tab c' with _ | t'
      · simp [Procs.hasrecord, found'] at holds
      · simp only [Procs.hasrecord, found', any_some, Bool.and_eq_true, beq_iff_eq,
          Bool.not_eq_true'] at holds
        have due : Due w.procs p :=
          ⟨c', t'.kin, kin_eq found', holds.1.1, holds.1.2, holds.2⟩
        rcases given_of_take called.2.2 due with ⟨m, -, answer, -⟩
        rw [answer] at told
        cases told
    · rw [Procs.nchild, countP_eq_zero] at childless
      have member := called.2.2 c (by simp [found])
      exact childless c member (by simp [found, mine, alone])
    · simp [eintr, enochild] at told
  woken p order called := by
    rcases called with ⟨active, waits, whole⟩
    rcases active with ⟨-, t, found, running, living⟩
    rcases (inv.waits p waits).2 with ⟨u, here, asleep, -⟩ | ⟨u, here, pending⟩ | due
    · obtain rfl : t = u := some_inj.mp (found.symm.trans here)
      rw [running] at asleep
      cases asleep
    · left
      have noted : (w.procs.interrupted p).1 = true := by simp [Procs.interrupted, here, pending]
      simp [Family.resume, noted]
    · rcases noted : (w.procs.interrupted p).1
      · right
        let v : Family := { w with
          waits := update w.waits p false, procs := (w.procs.interrupted p).2 }
        have akin : w.procs.ledger.Akin v.procs.ledger := akin_interrupted p
        have whole' : v.Whole order := by
          intro c there
          apply whole c
          rcases eq_or_ne c p with rfl | differs
          · simp [found]
          · simpa [v, Procs.interrupted, differs] using there
        have same : w.resume order p = v.take order p := by
          simp [Family.resume, noted, v]
        rw [same]
        rcases given_of_take whole' (due.of_kin akin.kin) with
          ⟨m, t', answer, ⟨u, there, mine⟩, found', finished, record, rest⟩
        have other : m.pid ≠ p := by
          rintro self
          rw [self] at found'
          simp only [v, Procs.interrupted, Procs.modify_tab_self, found, Option.map_some,
            some_inj] at found'
          rw [← found', living] at finished
          cases finished
        have tab : v.procs.tab m.pid = w.procs.tab m.pid := by simp [v, Procs.interrupted, other]
        exact ⟨m, t', answer, ⟨u, tab.symm.trans there, mine⟩, tab.symm.trans found',
            finished, record,
          rest⟩
      · left
        simp [Family.resume, noted]

/-- In every run in which no process made with `RFNOWAIT` exits while its parent sleeps in
`await`, each other child's record goes to its parent once, and a process hears that it has no
living children only when there is no child of its to wait for. -/
theorem records_delivered (reached : family.Reach Kept w) : w.Delivered :=
  (inv_of_reach reached).delivered

/-- The first process has two children, the second made with `RFNOWAIT`, and sleeps in `await`
while that one runs. -/
def nowait : Family :=
  ((((new.step (.rfork 1 Rf.proc)).step (.rfork 1 (Rf.proc + Rf.nowait))).step
    (.table (.ready 3))).step (.await 1 [0, 1, 2, 3])).step (.table .sched)

def alone : Family := (nowait.step (.pexit 3 "" true)).step (.table .sched)

def woken : Family :=
  (((((new.step (.rfork 1 Rf.proc)).step (.table (.ready 2))).step (.await 1 [0, 1, 2])).step
    (.table .sched)).step (.pexit 2 "" true)).step (.table .sched)

theorem reach_step {ok : Family → FamAct → Prop} (a : FamAct) (reached : family.Reach ok w)
    (kept : ok w a) : family.Reach ok (w.step a) :=
  .step reached kept rfl

theorem active_new : new.procs.Active 1 := ⟨rfl, _, rfl, rfl, rfl⟩

theorem reach_woken : family.Reach Kept woken := by
  have made := reach_step (.rfork 1 Rf.proc) (.init rfl : family.Reach Kept new)
    ⟨⟨active_new, rfl⟩, trivial⟩
  have readied := reach_step (.table (.ready 2)) made
    ⟨⟨⟨_, rfl, .inl rfl⟩, trivial, by simp [Act.actor]⟩, trivial⟩
  have waits := reach_step (.await 1 [0, 1, 2]) readied
    ⟨⟨⟨rfl, _, rfl, rfl, rfl⟩, rfl, (inv_of_reach readied).still.whole⟩, trivial⟩
  have runs := reach_step (.table .sched) waits ⟨⟨trivial, trivial, by simp [Act.actor]⟩, trivial⟩
  have exits := reach_step (.pexit 2 "" true) runs ⟨⟨.inl ⟨rfl, _, rfl, rfl, rfl⟩, rfl⟩, by
    rintro p ⟨⟩ ⟨⟩⟩
  exact reach_step (.table .sched) exits ⟨⟨trivial, trivial, by simp [Act.actor]⟩, trivial⟩

/-- The child's record is what its parent comes back for. -/
theorem records_delivered_woken : woken.Delivered ∧
    ∃ m, (woken.resume [0, 1, 2] 1).1 = .ok (some m) ∧ m.pid = 2 :=
  ⟨records_delivered reach_woken, ⟨2, (0, 0, 0), ""⟩, rfl, rfl⟩

theorem reach_nowait : family.Reach Called nowait := by
  have made := reach_step (.rfork 1 Rf.proc) (.init rfl : family.Reach Called new)
    ⟨active_new, rfl⟩
  have both := reach_step (.rfork 1 (Rf.proc + Rf.nowait)) made ⟨⟨rfl, _, rfl, rfl, rfl⟩, rfl⟩
  have readied := reach_step (.table (.ready 3)) both
    ⟨⟨_, rfl, .inl rfl⟩, trivial, by simp [Act.actor]⟩
  have waits := reach_step (.await 1 [0, 1, 2, 3]) readied
    ⟨⟨rfl, _, rfl, rfl, rfl⟩, rfl, (still_of_reach readied).whole⟩
  exact reach_step (.table .sched) waits ⟨trivial, trivial, by simp [Act.actor]⟩

/-- The exit of the child made with `RFNOWAIT` wakes its parent, which finds no record and is
told that it has no living children while the first child lives. -/
theorem records_delivered_fails : ¬∀ w, family.Reach Called w → w.Delivered := by
  intro holds
  have exits := reach_step (.pexit 3 "" true) reach_nowait
    ⟨.inl ⟨rfl, _, rfl, rfl, rfl⟩, rfl⟩
  have runs : family.Reach Called alone :=
    reach_step (.table .sched) exits ⟨trivial, trivial, by simp [Act.actor]⟩
  have whole : alone.Whole [0, 1, 2, 3] := (still_of_reach runs).whole
  rcases (holds alone runs).woken 1 [0, 1, 2, 3] ⟨⟨rfl, _, rfl, rfl, rfl⟩, rfl, whole⟩ with
    noted | ⟨m, t, record, -⟩
  · exact absurd noted (by decide)
  · cases record

end Family

end Ipnx
