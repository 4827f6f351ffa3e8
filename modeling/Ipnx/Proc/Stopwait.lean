import Ipnx.Proc.Devproc
import Ipnx.Proc.Leaves
import Ipnx.Proc.Rests
import Ipnx.Proc.Sleeping

/-!
# Waiting for a process to stop

A wait in `procstopwait` is kept in three places: the device's `stopwait`, the `pdbg` of the
process waited for, and the sleeper's own `Rendez`. In every run in which no process exits
while it is waited for, none is waited for that has exited, a debugger that a note woke
returns before another waits for its process, and none loses its right to the process while
it waits, the three agree; and a stop, or a note to the sleeper, ends the wait in all three.

`exits` looks at none of them: a debugger that waits for a process which exits sleeps on.
-/

namespace Ipnx

open Function (update)
open Option (some_inj)
open Procs (board_quiet board_view state_eq tab_of_board_view)

/-- What may happen while a process is in `procstopwait`: it does nothing itself. -/
def Scope.waiting (d : Pid) : Scope :=
  { Scope.any with sleeps := (· ≠ .proc d .sleep), exits := (· ≠ d) }

namespace ProcDev

variable {w : ProcDev} {d p me pid : Pid} {n : Nat} {s : Procs}

def Waiting (w : ProcDev) (d p : Pid) : Prop :=
  w.stopwait d = some p ∧ w.procs.board.Asleep (.proc d .sleep) d

/-- The process is alive, is not stopped, and is debugged by this one. -/
def Debugs (w : ProcDev) (d p : Pid) : Prop :=
  ∃ t, w.procs.tab p = some t ∧ t.pdbg = some d ∧ t.status = none ∧ t.state ≠ .stopped

def Noted (w : ProcDev) (d : Pid) : Prop :=
  ∃ t, w.procs.tab d = some t ∧ t.notepending = true

structure Inv (w : ProcDev) : Prop where
  board : w.procs.board.Inv
  tidy : w.procs.board.Tidy
  /-- Whoever is in `procstopwait` lives, and rests there if it sleeps. -/
  lives : ∀ d p, w.stopwait d = some p → w.procs.board.Alive d ∧ w.procs.board.Rests d
  /-- The process it waits for is one that can be written to. -/
  reaches : ∀ d p, w.stopwait d = some p →
    p ≠ 0 ∧ p < w.procs.next ∧ ∀ t, w.procs.tab p = some t → t.kp = false
  debugs : ∀ d p, w.Waiting d p → w.Debugs d p
  /-- A debugger that a process names waits for it, or has a note to act on. -/
  named : ∀ d p t, w.procs.tab p = some t → t.pdbg = some d →
    w.stopwait d = some p ∧ (w.procs.board.Asleep (.proc d .sleep) d ∨ w.Noted d)

theorem tab_of_alive (alive : s.board.Alive p) : ∃ t, s.tab p = some t ∧ t.status = none := by
  rcases alive with ⟨v, view, lives⟩
  rcases tab_of_board_view view with ⟨t, found, rfl⟩
  exact ⟨t, found, by simpa [Proc.view] using lives⟩

theorem tab_of_asleep {r : Rid} (asleep : s.board.Asleep r p) :
    ∃ t, s.tab p = some t ∧ t.state = .wakeme ∧ t.r = some r := by
  rcases asleep with ⟨v, view, sleeps, link⟩
  rcases tab_of_board_view view with ⟨t, found, rfl⟩
  exact ⟨t, found, sleeps, link⟩

theorem asleep_of_tab {r : Rid} {t : Proc} (found : s.tab p = some t) (sleeps : t.state = .wakeme)
    (link : t.r = some r) : s.board.Asleep r p :=
  ⟨t.view, board_view found, sleeps, link⟩

theorem waits_iff {t : Proc} (found : s.tab d = some t) :
    s.board.Asleep (.proc d .sleep) d ∨ (∃ u, s.tab d = some u ∧ u.notepending = true) ↔
      t.state = .wakeme ∧ t.r = some (.proc d .sleep) ∨ t.notepending = true := by
  constructor
  · rintro (asleep | ⟨u, there, pending⟩)
    · rcases tab_of_asleep asleep with ⟨u, there, sleeps, link⟩
      obtain rfl : t = u := some_inj.mp (found.symm.trans there)
      exact .inl ⟨sleeps, link⟩
    · obtain rfl : t = u := some_inj.mp (found.symm.trans there)
      exact .inr pending
  · rintro (⟨sleeps, link⟩ | pending)
    · exact .inl (asleep_of_tab found sleeps link)
    · exact .inr ⟨t, found, pending⟩

theorem waits_of_leaves {wakes : Rid → Prop} {t t' : Proc} (leaves : t.Leaves wakes t')
    (apart : ¬wakes (.proc d .sleep))
    (waits : t.state = .wakeme ∧ t.r = some (.proc d .sleep) ∨ t.notepending = true) :
    t'.state = .wakeme ∧ t'.r = some (.proc d .sleep) ∨ t'.notepending = true := by
  rcases waits with ⟨sleeps, link⟩ | pending
  · exact (leaves.asleep _ sleeps link apart).symm
  · exact .inr (leaves.noted pending)

theorem Inv.frame (inv : w.Inv) (any : Procs.Moves .any w.procs s)
    (all : Procs.Frame (fun _ => True) w.procs s)
    (moves : ∀ d p, w.stopwait d = some p → Procs.Moves (.waiting d) w.procs s)
    (frame : ∀ d p, w.stopwait d = some p → Procs.Frame (· ≠ .proc d .sleep) w.procs s)
    (survives : ∀ d p, w.Waiting d p → s.board.Alive p) : Inv { w with procs := s } where
  board := any.inv inv.board
  tidy := inv.tidy.moves any inv.board
  lives d p waits := by
    rcases inv.lives d p waits with ⟨alive, rests⟩
    constructor
    · exact alive.moves (moves d p waits) inv.board (by simp [Scope.waiting])
    · exact rests.moves (moves d p waits) inv.tidy inv.board (by simp [Scope.waiting])
  reaches d p waits := by
    rcases inv.reaches d p waits with ⟨real, known, user⟩
    refine ⟨real, known.trans_le all.next, fun t' found => ?_⟩
    rcases all.left p t' found with ⟨t, there, leaves⟩ | ⟨later, -⟩
    · exact leaves.kp.trans (user t there)
    · exact absurd later known.not_ge
  debugs d p := by
    rintro ⟨waits, asleep⟩
    have slept := Board.Asleep.of_moves (moves d p waits) (by simp [Scope.waiting]) asleep
    rcases inv.debugs d p ⟨waits, slept⟩ with ⟨t, found, pdbg, alive, running⟩
    rcases tab_of_alive (survives d p ⟨waits, slept⟩) with ⟨t', found', alive'⟩
    rcases all.left p t' found' with ⟨u, there, leaves⟩ | ⟨later, -⟩
    · obtain rfl : t = u := some_inj.mp (found.symm.trans there)
      exact ⟨t', found', leaves.pdbg.trans pdbg, alive', running ∘ leaves.running⟩
    · exact absurd later (inv.reaches d p waits).2.1.not_ge
  named d p t' found' pdbg' := by
    rcases all.left p t' found' with ⟨t, found, leaves⟩ | ⟨-, undebugged⟩
    · rcases inv.named d p t found (leaves.pdbg.symm.trans pdbg') with ⟨waits, how⟩
      refine ⟨waits, ?_⟩
      have alive := (inv.lives d p waits).1.moves (moves d p waits) inv.board
        (by simp [Scope.waiting])
      rcases tab_of_alive alive with ⟨td', here', -⟩
      rcases (frame d p waits).left d td' here' with ⟨td, here, leavesd⟩ | ⟨later, -⟩
      · have before := (waits_iff here).mp how
        exact (waits_iff here').mpr (waits_of_leaves leavesd (by simp) before)
      · rcases (inv.lives d p waits).1 with ⟨v, view, -⟩
        exact absurd later (inv.board.wf.known view).not_ge
    · rw [undebugged] at pdbg'
      cases pdbg'

theorem tab_modify {f : Proc → Proc} {q : Pid} {t' : Proc}
    (found : (s.modify pid f).tab q = some t') :
    ∃ t, s.tab q = some t ∧ (q ≠ pid ∧ t' = t ∨ q = pid ∧ t' = f t) := by
  rcases eq_or_ne q pid with rfl | differs
  · rw [Procs.modify_tab_self, Option.map_eq_some_iff] at found
    rcases found with ⟨t, there, rfl⟩
    exact ⟨t, there, .inr ⟨rfl, rfl⟩⟩
  · rw [Procs.modify_tab_of_ne s pid f differs] at found
    exact ⟨t', found, .inl ⟨differs, rfl⟩⟩

theorem Inv.edit (inv : w.Inv) {f : Proc → Proc} (quiet : Quiet f)
    (pdbg : ∀ t, (f t).pdbg = t.pdbg) (kp : ∀ t, (f t).kp = t.kp)
    (noted : w.stopwait pid = none ∨ ∀ t, (f t).notepending = t.notepending) :
    Inv { w with procs := w.procs.modify pid f } := by
  have same : (w.procs.modify pid f).board = w.procs.board := board_quiet quiet
  have origin (q : Pid) (t' : Proc) (found : (w.procs.modify pid f).tab q = some t') :
      ∃ t, w.procs.tab q = some t ∧ t'.pdbg = t.pdbg ∧ t'.kp = t.kp ∧ t'.view = t.view := by
    rcases tab_modify found with ⟨t, there, ⟨-, rfl⟩ | ⟨-, rfl⟩⟩
    · exact ⟨t', there, rfl, rfl, rfl⟩
    · exact ⟨t, there, pdbg t, kp t, quiet.view t⟩
  have pending (d p : Pid) (waits : w.stopwait d = some p) (still : w.Noted d) :
      Noted { w with procs := w.procs.modify pid f } d := by
    rcases still with ⟨t, found, pending⟩
    rcases eq_or_ne d pid with rfl | differs
    · rcases noted with idle | keeps
      · rw [waits] at idle
        cases idle
      · exact ⟨f t, by simp [found], (keeps t).trans pending⟩
    · exact ⟨t, by simpa [differs] using found, pending⟩
  refine ⟨same ▸ inv.board, same ▸ inv.tidy, same ▸ inv.lives, ?_, ?_, ?_⟩
  · intro d p waits
    rcases inv.reaches d p waits with ⟨real, known, user⟩
    refine ⟨real, known, fun t' found => ?_⟩
    rcases origin p t' found with ⟨t, there, -, kp, -⟩
    exact kp.trans (user t there)
  · intro d p ⟨waits, asleep⟩
    rcases inv.debugs d p ⟨waits, same ▸ asleep⟩ with ⟨t, found, named, alive, running⟩
    have board : (w.procs.modify pid f).board.view p = some t.view :=
      same ▸ board_view found
    rcases tab_of_board_view board with ⟨t', found', view'⟩
    rcases origin p t' found' with ⟨u, there, pdbg', -, view⟩
    obtain rfl : t = u := some_inj.mp (found.symm.trans there)
    have state : t'.state = t.state := congrArg View.state view
    have ended : t'.status.isSome = t.status.isSome := congrArg View.ended view
    refine ⟨t', found', pdbg'.trans named, ?_, state ▸ running⟩
    rw [alive] at ended
    simpa using ended
  · intro d p t' found' named'
    rcases origin p t' found' with ⟨t, found, pdbg', -, -⟩
    rcases inv.named d p t found (pdbg'.symm.trans named') with ⟨waits, how⟩
    exact ⟨waits, how.imp (same ▸ ·) (pending d p waits)⟩

theorem not_asleep_of_active {r : Rid} (active : w.procs.Active me) :
    ¬w.procs.board.Asleep r me := by
  intro asleep
  rcases active with ⟨-, t, found, running, -⟩
  rcases tab_of_asleep asleep with ⟨u, there, sleeps, -⟩
  obtain rfl : t = u := some_inj.mp (found.symm.trans there)
  rw [running] at sleeps
  cases sleeps

theorem Inv.undebug (inv : w.Inv) (active : w.procs.Active me)
    (mine : ∀ t, w.procs.tab p = some t → t.pdbg = none ∨ t.pdbg = some me) :
    Inv { w with procs := w.procs.modify p (Proc.debuggedBy none) } := by
  have same : (w.procs.modify p (Proc.debuggedBy none)).board = w.procs.board :=
    board_quiet ⟨fun _ => rfl, fun _ => rfl, fun _ => rfl⟩
  have pending (d : Pid) (still : w.Noted d) :
      Noted { w with procs := w.procs.modify p (Proc.debuggedBy none) } d := by
    rcases still with ⟨t, found, pending⟩
    rcases eq_or_ne d p with rfl | differs
    · exact ⟨t.debuggedBy none, by simp [found], pending⟩
    · exact ⟨t, by simpa [differs] using found, pending⟩
  refine ⟨same ▸ inv.board, same ▸ inv.tidy, same ▸ inv.lives, ?_, ?_, ?_⟩
  · intro d q waits
    rcases inv.reaches d q waits with ⟨real, known, user⟩
    refine ⟨real, known, fun t' found => ?_⟩
    rcases tab_modify found with ⟨t, there, ⟨-, rfl⟩ | ⟨-, rfl⟩⟩
    · exact user t' there
    · exact user t there
  · intro d q ⟨waits, asleep⟩
    have slept : w.procs.board.Asleep (.proc d .sleep) d := same ▸ asleep
    rcases inv.debugs d q ⟨waits, slept⟩ with ⟨t, found, named, alive, running⟩
    have differs : q ≠ p := by
      rintro rfl
      rcases mine t found with nobody | only
      · rw [nobody] at named
        cases named
      · obtain rfl : me = d := some_inj.mp (only.symm.trans named)
        exact not_asleep_of_active active slept
    exact ⟨t, by simpa [differs] using found, named, alive, running⟩
  · intro d q t' found' named'
    rcases tab_modify found' with ⟨t, found, ⟨-, rfl⟩ | ⟨-, rfl⟩⟩
    · rcases inv.named d q t' found named' with ⟨waits, how⟩
      exact ⟨waits, how.imp (same ▸ ·) (pending d)⟩
    · cases named'

/-- A process nobody is debugged by is out of `procstopwait`. -/
theorem Inv.release (inv : w.Inv)
    (nobody : ∀ q t, w.procs.tab q = some t → t.pdbg ≠ some me) :
    Inv { w with stopwait := update w.stopwait me none } := by
  have was (d p : Pid) (waits : update w.stopwait me none d = some p) :
      w.stopwait d = some p := by
    rcases eq_or_ne d me with rfl | differs
    · simp at waits
    · simpa [differs] using waits
  refine ⟨inv.board, inv.tidy, fun d p waits => inv.lives d p (was d p waits),
    fun d p waits => inv.reaches d p (was d p waits), ?_, ?_⟩
  · exact fun d p waiting => inv.debugs d p ⟨was d p waiting.1, waiting.2⟩
  · intro d p t found named
    have differs : d ≠ me := by
      rintro rfl
      exact nobody p t found named
    rcases inv.named d p t found named with ⟨waits, how⟩
    exact ⟨by simpa [differs] using waits, how⟩

theorem ready_of_wakeup (asleep : s.board.Asleep (.proc d .sleep) d) (rests : s.board.Rests d) :
    (s.wakeup (.proc d .sleep)).2.state d = .ready := by
  rcases tab_of_asleep asleep with ⟨t, found, sleeps, link⟩
  have named : s.rendez (.proc d .sleep) = some d :=
    (rests t.view (board_view found) sleeps link).1
  rcases Procs.board_wakeup named found sleeps link with ⟨pri, -, same⟩
  have free : (s.board.roused d (.proc d .sleep) pri).Free d :=
    Board.free_roused (board_view found)
  rcases free with ⟨v, view, ready, -⟩
  rw [← same] at view
  rcases tab_of_board_view view with ⟨t', found', rfl⟩
  exact (state_eq found').trans ready

/-- What `stop` leaves: the process stopped and debugged by nobody, and of every process but
the debugger its sleep. -/
theorem frame_stop {t : Proc} (found : s.tab p = some t) :
    Procs.Frame (fun r => ∃ d, t.pdbg = some d ∧ r = .proc d .sleep)
      (s.modify p Proc.stopped) (s.stop p) := by
  unfold Procs.stop
  simp only [found]
  split
  case h_1 d named =>
    exact (Procs.frame_wakeup _ ⟨d, named, rfl⟩).trans Procs.frame_setlabel
  case h_2 => exact Procs.frame_setlabel

theorem ready_of_stop {t : Proc} (found : s.tab p = some t) (named : t.pdbg = some d)
    (asleep : s.board.Asleep (.proc d .sleep) d) (rests : s.board.Rests d) (differs : d ≠ p) :
    (s.stop p).state d = .ready := by
  have board : (s.modify p Proc.stopped).board =
      s.board.edit p fun v => { v with state := .stopped } :=
    Procs.board_modify (fun _ _ => rfl) (fun _ => rfl) (fun _ => rfl)
  have rests' : (s.modify p Proc.stopped).board.Rests d := by
    rw [board]
    exact rests.edit fun _ _ stopped => by cases stopped
  have asleep' : (s.modify p Proc.stopped).board.Asleep (.proc d .sleep) d := by
    rcases asleep with ⟨v, view, sleeps, link⟩
    refine ⟨v, ?_, sleeps, link⟩
    rw [board, Board.edit_view, if_neg differs]
    exact view
  have woken := ready_of_wakeup asleep' rests'
  unfold Procs.stop
  simp only [found, named]
  simpa [Procs.state, Procs.setlabel, differs] using woken

theorem Inv.stop (inv : w.Inv) (active : w.procs.Active p) (idle : w.stopwait p = none) :
    Inv { w with procs := w.procs.stop p } := by
  have moves (scope : Scope) : Procs.Moves scope w.procs (w.procs.stop p) := by
    rcases active with ⟨-, t, found, running, alive⟩
    exact Procs.steps_stop found running alive
  rcases active.2 with ⟨t, found, running, alive⟩
  have frame := frame_stop found
  have kept (d q : Pid) (waits : w.stopwait d = some q) : d ≠ p := by
    rintro rfl
    rw [idle] at waits
    cases waits
  have origin (q : Pid) (t' : Proc) (found' : (w.procs.stop p).tab q = some t') :
      (∃ u, w.procs.tab q = some u ∧ q ≠ p ∧
        u.Leaves (fun r => ∃ d, t.pdbg = some d ∧ r = .proc d .sleep) t') ∨
      t'.pdbg = none ∧ (q < w.procs.next → t'.kp = t.kp ∧ q = p) := by
    rcases frame.left q t' found' with ⟨u, there, leaves⟩ | ⟨later, nobody⟩
    · rcases tab_modify there with ⟨v, here, ⟨apart, rfl⟩ | ⟨rfl, rfl⟩⟩
      · exact .inl ⟨u, here, apart, leaves⟩
      · obtain rfl : t = v := some_inj.mp (found.symm.trans here)
        exact .inr ⟨leaves.pdbg, fun _ => ⟨leaves.kp, rfl⟩⟩
    · exact .inr ⟨nobody, fun known => absurd later known.not_ge⟩
  refine ⟨(moves .any).inv inv.board, inv.tidy.moves (moves .any) inv.board, ?_, ?_, ?_, ?_⟩
  · intro d q waits
    rcases inv.lives d q waits with ⟨lives, rests⟩
    exact ⟨lives.moves (moves (.waiting d)) inv.board (by simp [Scope.waiting]),
      rests.moves (moves (.waiting d)) inv.tidy inv.board (by simp [Scope.waiting])⟩
  · intro d q waits
    rcases inv.reaches d q waits with ⟨real, known, user⟩
    refine ⟨real, known.trans_le frame.next, fun t' found' => ?_⟩
    rcases origin q t' found' with ⟨u, there, -, leaves⟩ | ⟨-, only⟩
    · exact leaves.kp.trans (user u there)
    · rcases only known with ⟨kp, rfl⟩
      exact kp.trans (user t found)
  · rintro d q ⟨waits, asleep'⟩
    have asleep := Board.Asleep.of_moves (moves (.waiting d)) (by simp [Scope.waiting]) asleep'
    rcases inv.debugs d q ⟨waits, asleep⟩ with ⟨u, there, named, lives, running'⟩
    have apart : q ≠ p := by
      rintro rfl
      obtain rfl : t = u := some_inj.mp (found.symm.trans there)
      have ready := ready_of_stop found named asleep (inv.lives d q waits).2 (kept d q waits)
      rcases tab_of_asleep asleep' with ⟨t', found', sleeps, -⟩
      rw [state_eq found', sleeps] at ready
      cases ready
    have survives : (w.procs.stop p).board.Alive q :=
      Board.Alive.moves (moves .still) ⟨u.view, board_view there, by simp [Proc.view, lives]⟩
        inv.board id
    rcases tab_of_alive survives with ⟨t', found', lives'⟩
    rcases origin q t' found' with ⟨u', there', -, leaves⟩ | ⟨-, only⟩
    · obtain rfl : u = u' := some_inj.mp (there.symm.trans there')
      exact ⟨t', found', leaves.pdbg.trans named, lives', running' ∘ leaves.running⟩
    · exact absurd (only (inv.reaches d q waits).2.1).2 apart
  · intro d q t' found' named'
    rcases origin q t' found' with ⟨u, there, apart, leaves⟩ | ⟨nobody, -⟩
    · rcases inv.named d q u there (leaves.pdbg.symm.trans named') with ⟨waits, how⟩
      refine ⟨waits, ?_⟩
      have lives := (inv.lives d q waits).1.moves (moves (.waiting d)) inv.board
        (by simp [Scope.waiting])
      rcases tab_of_alive lives with ⟨td', here', -⟩
      rcases origin d td' here' with ⟨td, here, -, leavesd⟩ | ⟨-, only⟩
      · have before := (waits_iff here).mp how
        have other : ¬∃ e, t.pdbg = some e ∧ Rid.proc d .sleep = .proc e .sleep := by
          rintro ⟨e, dbg, same⟩
          obtain rfl : d = e := by simpa using same
          have waits' := (inv.named d p t found dbg).1
          exact apart (some_inj.mp (waits.symm.trans waits'))
        exact (waits_iff here').mpr (waits_of_leaves leavesd other before)
      · rcases (inv.lives d q waits).1 with ⟨v, view, -⟩
        exact absurd (only (inv.board.wf.known view)).2 (kept d q waits)
    · rw [nobody] at named'
      cases named'

theorem rests_sleep (active : s.Active me) (tidy : s.board.Tidy) :
    (s.sleep me (.proc me .sleep) false).2.board.Rests me ∧
      ((∀ t, s.tab me = some t → t.notepending = false) ∧
          (s.sleep me (.proc me .sleep) false).2.board.Asleep (.proc me .sleep) me ∨
        (∃ t, s.tab me = some t ∧ t.notepending = true) ∧
          ¬(s.sleep me (.proc me .sleep) false).2.board.Asleep (.proc me .sleep) me) := by
  rcases active with ⟨-, t, found, running, -⟩
  have mine : (Rid.proc me .sleep).OpenTo me := by simp [Rid.OpenTo, Rid.owner]
  have same := Procs.board_sleep (s := s) false (by simp [found]) mine
  rcases slept : (s.sleep me (.proc me .sleep) false).1
  · rw [slept, if_neg (by simp)] at same
    have noted : t.notepending = true := by
      simp only [Procs.sleep] at slept
      split_ifs at slept with pending
      rw [Procs.tab_countsleep, found] at pending
      simpa using pending
    have awake (v : View) (here : (s.sleep me (.proc me .sleep) false).2.board.view me = some v) :
        v.state ≠ .wakeme := by
      intro sleeps
      rw [same] at here
      have view : s.board.view me = some v := by simpa [Board.setRendez] using here
      obtain rfl : t.view = v := some_inj.mp ((board_view found).symm.trans view)
      exact absurd (running.symm.trans sleeps) (by simp)
    refine ⟨fun v here sleeps => absurd sleeps (awake v here), .inr ⟨⟨t, found, noted⟩, ?_⟩⟩
    rintro ⟨v, here, sleeps, -⟩
    exact awake v here sleeps
  · rw [if_pos slept] at same
    have view : (s.sleep me (.proc me .sleep) false).2.board.view me =
        some { t.view with state := .wakeme, r := some (.proc me .sleep) } := by
      rw [same, Board.edit_view, if_pos rfl]
      simp [Board.setRendez, board_view found]
    have unset : t.view.trend = none :=
      tidy.untimed (board_view found) (by simp [Proc.view, running])
    have unnoted : t.notepending = false := by
      simp only [Procs.sleep] at slept
      split_ifs at slept with pending
      rw [Procs.tab_countsleep, found] at pending
      simpa using pending
    refine ⟨fun v here _ _ => ⟨?_, ?_⟩, .inl ⟨fun u there => ?_, _, view, rfl, rfl⟩⟩
    · rw [same]
      simp [Board.edit, Board.setRendez]
    · rw [← some_inj.mp (view.symm.trans here)]
      exact unset
    · rwa [← some_inj.mp (found.symm.trans there)]

theorem active_modify {f : Proc → Proc} {q : Pid} (active : s.Active me)
    (same : ∀ t, (f t).state = t.state ∧ (f t).status = t.status) : (s.modify q f).Active me := by
  rcases active with ⟨up, t, found, running, alive⟩
  refine ⟨up, ?_⟩
  rcases eq_or_ne me q with rfl | differs
  · exact ⟨f t, by simp [found], (same t).1.trans running, (same t).2.trans alive⟩
  · exact ⟨t, by simpa [differs] using found, running, alive⟩

theorem Inv.wait (inv : w.Inv) (active : w.procs.Active me) (idle : w.stopwait me = none)
    {t : Proc} (found : w.procs.tab p = some t) (free : t.pdbg = none)
    (alive : ¬w.Noted me → t.status = none) (running : t.state ≠ .stopped) (user : t.kp = false)
    (real : p ≠ 0) :
    Inv { w with
      procs := ((w.procs.modify p (Proc.debuggedBy (some me))).sleep me (.proc me .sleep) false).2
      stopwait := update w.stopwait me (some p) } := by
  set s := w.procs.modify p (Proc.debuggedBy (some me)) with debugged
  set s' := (s.sleep me (.proc me .sleep) false).2 with sleeping
  have same : s.board = w.procs.board :=
    board_quiet ⟨fun _ => rfl, fun _ => rfl, fun _ => rfl⟩
  have here : s.Active me := active_modify active fun _ => ⟨rfl, rfl⟩
  have invs : s.board.Inv := same ▸ inv.board
  have tidy : s.board.Tidy := same ▸ inv.tidy
  have moves (scope : Scope) (there : scope.sleeps (.proc me .sleep)) :
      Procs.Moves scope s s' := by
    rcases here.2 with ⟨u, foundu, runningu, aliveu⟩
    exact Procs.steps_sleep foundu runningu aliveu (by simp [Rid.OpenTo, Rid.owner]) there
  have any := moves .any trivial
  have waiting (d : Pid) (other : d ≠ me) : Procs.Moves (.waiting d) s s' :=
    moves _ (by simpa [Scope.waiting] using other.symm)
  have frame : Procs.Frame (fun _ => False) s s' := Procs.frame_sleep here.awake
  have origin (q : Pid) (t' : Proc) (found' : s'.tab q = some t') :
      (∃ u dbg, w.procs.tab q = some u ∧ (u.debuggedBy dbg).Leaves (fun _ => False) t' ∧
        (q = p ∧ dbg = some me ∨ q ≠ p ∧ dbg = u.pdbg)) ∨
      w.procs.next ≤ q ∧ t'.pdbg = none := by
    rcases frame.left q t' found' with ⟨v, there, leaves⟩ | fresh
    · rcases tab_modify there with ⟨u, here', ⟨apart, rfl⟩ | ⟨rfl, rfl⟩⟩
      · exact .inl ⟨v, v.pdbg, here', leaves, .inr ⟨apart, rfl⟩⟩
      · exact .inl ⟨u, some me, here', leaves, .inl ⟨rfl, rfl⟩⟩
    · exact .inr fresh
  rcases rests_sleep here tidy with ⟨rests, how⟩
  have was {d q : Pid} (other : d ≠ me)
      (waits : update w.stopwait me (some p) d = some q) : w.stopwait d = some q := by
    simpa [other] using waits
  have only {q : Pid} (waits : update w.stopwait me (some p) me = some q) : q = p := by
    simpa using waits.symm
  have known : p < w.procs.next := inv.board.wf.known (board_view found)
  have alone : ¬∃ d, w.stopwait d = some p ∧ w.procs.board.Asleep (.proc d .sleep) d := by
    rintro ⟨d, waiting⟩
    rcases inv.debugs d p waiting with ⟨u, there, named, -⟩
    obtain rfl : t = u := some_inj.mp (found.symm.trans there)
    rw [free] at named
    cases named
  have survives (q : Pid) (u : Proc) (there : w.procs.tab q = some u) (lives : u.status = none) :
      s'.board.Alive q := by
    have before : s.board.Alive q :=
      same ▸ ⟨u.view, board_view there, by simp [Proc.view, lives]⟩
    exact before.moves (moves { Scope.still with sleeps := fun _ => True } trivial) invs id
  refine ⟨any.inv invs, tidy.moves any invs, ?_, ?_, ?_, ?_⟩
  · intro d q waits
    rcases eq_or_ne d me with rfl | other
    · rcases active.2 with ⟨u, foundu, -, aliveu⟩
      exact ⟨survives d u foundu aliveu, rests⟩
    · rcases inv.lives d q (was other waits) with ⟨lives, rests⟩
      exact ⟨(same ▸ lives).moves (waiting d other) invs (by simp [Scope.waiting]),
        (same ▸ rests).moves (waiting d other) tidy invs (by simp [Scope.waiting])⟩
  · intro d q waits
    have open_ : q ≠ 0 ∧ q < w.procs.next ∧ ∀ u, w.procs.tab q = some u → u.kp = false := by
      rcases eq_or_ne d me with rfl | other
      · obtain rfl := only waits
        refine ⟨real, known, fun u there => ?_⟩
        rwa [← some_inj.mp (found.symm.trans there)]
      · exact inv.reaches d q (was other waits)
    refine ⟨open_.1, open_.2.1.trans_le frame.next, fun t' found' => ?_⟩
    rcases origin q t' found' with ⟨u, dbg, there, leaves, -⟩ | ⟨later, -⟩
    · exact leaves.kp.trans (open_.2.2 u there)
    · exact absurd later open_.2.1.not_ge
  · rintro d q ⟨waits, asleep'⟩
    have debugs : ∃ u, w.procs.tab q = some u ∧ u.status = none ∧ u.state ≠ .stopped ∧
        (q = p → d = me) ∧ (q ≠ p → u.pdbg = some d) := by
      rcases eq_or_ne d me with rfl | other
      · obtain rfl := only waits
        have unnoted : ¬w.Noted d := by
          rintro ⟨u, there, pending⟩
          rcases how with ⟨unnoted, -⟩ | ⟨-, awake⟩
          · have there' : s.tab d = some (if d = q then u.debuggedBy (some d) else u) := by
              split_ifs with same
              · simp [s, ← same, there]
              · simp [s, same, there]
            have quiet := unnoted _ there'
            split_ifs at quiet <;> exact absurd (pending.symm.trans quiet) (by simp)
          · exact awake asleep'
        exact ⟨t, found, alive unnoted, running, fun _ => rfl, fun differs => absurd rfl differs⟩
      · have asleep : w.procs.board.Asleep (.proc d .sleep) d :=
          same ▸ Board.Asleep.of_moves (waiting d other) (by simp [Scope.waiting]) asleep'
        rcases inv.debugs d q ⟨was other waits, asleep⟩ with ⟨u, there, named, lives, runs⟩
        refine ⟨u, there, lives, runs, ?_, fun _ => named⟩
        rintro rfl
        exact absurd ⟨d, was other waits, asleep⟩ alone
    rcases debugs with ⟨u, there, lives, runs, mine, others⟩
    rcases tab_of_alive (survives q u there lives) with ⟨t', found', lives'⟩
    rcases origin q t' found' with ⟨v, dbg, there', leaves, which⟩ | ⟨later, -⟩
    · obtain rfl : u = v := some_inj.mp (there.symm.trans there')
      refine ⟨t', found', leaves.pdbg.trans ?_, lives', runs ∘ leaves.running⟩
      rcases which with ⟨same, rfl⟩ | ⟨differs, rfl⟩
      · exact congrArg some (mine same).symm
      · exact others differs
    · exact absurd later (inv.board.wf.known (board_view there)).not_ge
  · intro d q t' found' named'
    rcases origin q t' found' with ⟨u, dbg, there, leaves, which⟩ | ⟨-, nobody⟩
    · have named : dbg = some d := leaves.pdbg.symm.trans named'
      rcases which with ⟨rfl, rfl⟩ | ⟨differs, rfl⟩
      · obtain rfl := some_inj.mp named
        refine ⟨by simp, ?_⟩
        rcases how with ⟨-, asleep⟩ | ⟨⟨v, herev, pending⟩, -⟩
        · exact .inl asleep
        · rcases active.2 with ⟨x, foundx, -, alivex⟩
          rcases tab_of_alive (survives _ x foundx alivex) with ⟨t'', there'', -⟩
          rcases frame.left _ t'' there'' with ⟨v', herev', leavesv⟩ | ⟨later, -⟩
          · obtain rfl : v = v' := some_inj.mp (herev.symm.trans herev')
            exact .inr ⟨t'', there'', leavesv.noted pending⟩
          · exact absurd later (inv.board.wf.known (board_view foundx)).not_ge
      · rcases inv.named d q u there named with ⟨waits, how⟩
        have other : d ≠ me := by
          rintro rfl
          rw [idle] at waits
          cases waits
        refine ⟨by simpa [other] using waits, ?_⟩
        have lives' := Board.Alive.moves (waiting d other) (same ▸ (inv.lives d q waits).1) invs
          (by simp [Scope.waiting])
        rcases tab_of_alive lives' with ⟨td', here', -⟩
        rcases origin d td' here' with ⟨td, dbg, hered, leavesd, -⟩ | ⟨later, -⟩
        · have before := (waits_iff hered).mp how
          exact (waits_iff here').mpr (waits_of_leaves leavesd id before)
        · rcases (inv.lives d q waits).1 with ⟨v, view, -⟩
          exact absurd later (inv.board.wf.known view).not_ge
    · rw [nobody] at named'
      cases named'

end ProcDev

end Ipnx
