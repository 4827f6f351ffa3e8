import Ipnx.Proc.Run

/-!
# Who waits, while others move

A part of the kernel that keeps a `Rendez` or a lock of its own relies on the rest of the
table leaving its waiters alone. What the moves of a scope can do to them: nobody comes to
sleep at a `Rendez` outside the scope, whoever sleeps there stays named by it, a process
that waits for a lock stays `Queueing` until it is handed one, and a process lives until it
exits.
-/

namespace Ipnx

namespace Board

variable {b b' : Board} {scope : Scope} {r : Rid} {p : Pid}

def Asleep (b : Board) (r : Rid) (p : Pid) : Prop :=
  ∃ v, b.view p = some v ∧ v.state = .wakeme ∧ v.r = some r

def Named (b : Board) (r : Rid) : Prop := ∀ p, b.Asleep r p → b.rendez r = some p

def Waits (b : Board) (p : Pid) : Prop := ∃ v, b.view p = some v ∧ v.state = .queueing

def Alive (b : Board) (p : Pid) : Prop := ∃ v, b.view p = some v ∧ v.ended = false

theorem Asleep.of_edit {q : Pid} {f : View → View} (asleep : (b.edit q f).Asleep r p)
    (keeps : ∀ v, b.view q = some v → (f v).state = .wakeme → (f v).r = some r →
      v.state = .wakeme ∧ v.r = some r) : b.Asleep r p := by
  rcases asleep with ⟨w, found, sleeps, link⟩
  rcases view_of_edit found with ⟨-, was⟩ | ⟨rfl, v, was, rfl⟩
  · exact ⟨w, was, sleeps, link⟩
  · exact ⟨v, was, keeps v was sleeps link⟩

theorem Asleep.of_move (moved : Move scope b b') (apart : ¬scope.sleeps r)
    (asleep : b'.Asleep r p) : b.Asleep r p := by
  cases moved with
  | ready => exact asleep.of_edit (by simp)
  | @slept q v r' trend twhen found running alive mine there timer =>
      rcases asleep with ⟨w, here, sleeps, link⟩
      rcases view_of_edit here with ⟨-, was⟩ | ⟨-, v, -, rfl⟩
      · exact ⟨w, by simpa [setRendez] using was, sleeps, link⟩
      · simp only [Option.some_inj] at link
        exact absurd (link ▸ there) apart
  | @spared q v r' timed found running there =>
      have still : (b.edit q fun v =>
          if timed then { v with trend := none, twhen := none } else v).Asleep r p := by
        simpa [Asleep, Board.edit, setRendez] using asleep
      refine still.of_edit fun v _ sleeps link => ?_
      cases timed <;> exact ⟨sleeps, link⟩
  | rouse moved =>
      cases moved with
      | woken found sleeps link low => exact asleep.of_edit (by simp)
      | untimed double => exact asleep.of_edit fun _ _ sleeps link => ⟨sleeps, link⟩
      | met found waiting low => exact asleep.of_edit (by simp)
      | shifted queued low inside => exact asleep.of_edit fun _ _ sleeps link => ⟨sleeps, link⟩
  | gathered => exact asleep.of_edit (by simp)
  | parked found running alive target =>
      refine asleep.of_edit fun v _ sleeps => ?_
      rcases target with rfl | rfl <;> simp at sleeps
  | exited => exact asleep.of_edit (by simp)
  | @culled q v found source leaves =>
      have still : (b.edit q fun v => { v with state := .moribund, ended := true }).Asleep r p := by
        split at asleep <;> exact asleep
      exact still.of_edit (by simp)
  | buried q st broken finished target kept =>
      refine Asleep.of_edit (b := b) asleep fun v _ sleeps => ?_
      rcases target with rfl | rfl <;> simp at sleeps
  | picked => exact Asleep.of_edit (b := b) asleep (by simp)
  | @made v fresh =>
      rcases asleep with ⟨w, here, sleeps, link⟩
      rcases eq_or_ne p b.next with rfl | differs
      · simp only [Function.update_self, Option.some_inj] at here
        simp [← here, fresh] at sleeps
      · exact ⟨w, by simpa [differs] using here, sleeps, link⟩
  | @reaped q v found finished =>
      rcases asleep with ⟨w, here, sleeps, link⟩
      rcases eq_or_ne p q with rfl | differs
      · simp at here
      · exact ⟨w, by simpa [differs] using here, sleeps, link⟩
  | reprioritized q bounded unqueued =>
      exact asleep.of_edit fun _ _ sleeps link => ⟨sleeps, link⟩
  | regrouped => exact asleep.of_edit fun _ _ sleeps link => ⟨sleeps, link⟩

theorem Move.rendez (moved : Move scope b b') (apart : ¬scope.sleeps r) (shared : r.owner = none) :
    b'.rendez r = b.rendez r ∨ ∃ q pri, b.Asleep r q ∧ b' = b.roused q r pri := by
  cases moved with
  | @slept q v r' trend twhen found running alive mine there timer =>
      have differs : r ≠ r' := by
        rintro rfl
        exact apart there
      exact .inl (by simp [Board.edit, setRendez, differs])
  | @spared q v r' timed found running there =>
      have differs : r ≠ r' := by
        rintro rfl
        exact apart there
      exact .inl (by simp [Board.edit, setRendez, differs])
  | rouse moved =>
      cases moved with
      | @woken q v r' pri found sleeps link low =>
          rcases eq_or_ne r r' with rfl | differs
          · exact .inr ⟨q, pri, ⟨v, found, sleeps, link⟩, rfl⟩
          · exact .inl (by simp [roused, queue, Board.edit, setRendez, differs])
      | _ => exact .inl rfl
  | @culled q v found source leaves => exact .inl (by split <;> rfl)
  | reaped found finished => exact .inl (by simp [shared])
  | _ => exact .inl rfl

theorem not_asleep_roused {q : Pid} {pri : Nat} : ¬(b.roused q r pri).Asleep r q := by
  rintro ⟨w, here, sleeps, -⟩
  rcases view_of_edit here with ⟨differs, -⟩ | ⟨-, v, -, rfl⟩
  · exact differs rfl
  · simp at sleeps

theorem Named.move (named : b.Named r) (moved : Move scope b b') (apart : ¬scope.sleeps r)
    (shared : r.owner = none) : b'.Named r := by
  intro p asleep
  have was := named p (asleep.of_move moved apart)
  rcases moved.rendez apart shared with same | ⟨q, pri, slept, rfl⟩
  · exact same.trans was
  · obtain rfl : q = p := by simpa using (named q slept).symm.trans was
    exact absurd asleep not_asleep_roused

theorem Waits.edit {q : Pid} {f : View → View} (waits : b.Waits p)
    (keeps : ∀ v, b.view q = some v → v.state = .queueing → (f v).state = .queueing) :
    (b.edit q f).Waits p := by
  rcases waits with ⟨v, found, waiting⟩
  rcases eq_or_ne p q with rfl | differs
  · exact ⟨f v, by simp [edit_view, found], keeps v found waiting⟩
  · exact ⟨v, by simpa [edit_view, differs] using found, waiting⟩

theorem Waits.editAwake {q : Pid} {v : View} {f : View → View} (waits : b.Waits p)
    (found : b.view q = some v) (awake : v.state ≠ .queueing) : (b.edit q f).Waits p := by
  refine waits.edit fun w here waiting => absurd waiting ?_
  obtain rfl : v = w := by simpa using found.symm.trans here
  exact awake

theorem Waits.move (waits : b.Waits p) (wf : b.Wf) (moved : Move scope b b')
    (kept : ¬scope.hands p) : b'.Waits p := by
  cases moved with
  | @ready q v pri found source low =>
      rcases source with h | h | h | ⟨h, handed⟩
      · exact waits.editAwake found (by simp [h])
      · exact waits.editAwake found (by simp [h])
      · exact waits.editAwake found (by simp [h])
      · rcases waits with ⟨w, here, waiting⟩
        have differs : p ≠ q := by
          rintro rfl
          exact kept handed
        exact ⟨w, by simpa [queue, edit_view, differs] using here, waiting⟩
  | @slept q v r' trend twhen found running alive mine there timer =>
      have still : ((b.sleepOn q r').setRendez r' (some q)).Waits p := by
        simpa [Waits, setRendez] using waits
      exact still.editAwake (v := v) (by simpa [setRendez] using found) (by simp [running])
  | @spared q v r' timed found running there =>
      have still : ((b.sleepOn q r').setRendez r' none).Waits p := by
        simpa [Waits, setRendez] using waits
      exact still.editAwake (v := v) (by simpa [setRendez] using found) (by simp [running])
  | rouse moved =>
      cases moved with
      | @woken q v r' pri found sleeps link low =>
          exact Waits.editAwake (b := b.setRendez r' none) waits found (by simp [sleeps])
      | untimed double => exact waits.edit fun _ _ waiting => waiting
      | @met q v pri found waiting low =>
          exact Waits.editAwake (b := b.leavergrp v.rgrp q) waits found (by simp [waiting])
      | @shifted q place pri queued low inside =>
          exact Waits.edit (b := b.unqueue place q) waits fun _ _ waiting => waiting
  | gathered found running => exact waits.editAwake found (by simp [running])
  | parked found running alive target => exact waits.editAwake found (by simp [running])
  | exited found source leaves =>
      refine waits.editAwake found ?_
      rcases source with h | h <;> simp [h]
  | @culled q v found source leaves =>
      split
      · exact Waits.editAwake (b := b.unqueue v.priority q) waits found (by simp [source])
      · exact waits.editAwake found (by simp [source])
  | buried q st broken finished target kept =>
      refine Waits.edit (b := b) waits fun v found waiting => ?_
      simpa [finished v found] using wf.alive q v found (.inr (.inr waiting))
  | @picked q place pri queued source low =>
      refine Waits.edit (b := b.unqueue place q) waits fun v found waiting => ?_
      rcases source v found with h | h | h | h <;> simp [waiting] at h
  | made fresh alive awake bounded =>
      rcases waits with ⟨v, found, waiting⟩
      exact ⟨v, by simpa [(wf.known found).ne] using found, waiting⟩
  | @reaped q v found finished =>
      rcases waits with ⟨w, here, waiting⟩
      have differs : p ≠ q := by
        rintro rfl
        obtain rfl : v = w := by simpa using found.symm.trans here
        simpa [finished] using wf.alive p v found (.inr (.inr waiting))
      exact ⟨w, by simpa [differs] using here, waiting⟩
  | reprioritized q bounded unqueued => exact waits.edit fun _ _ waiting => waiting
  | regrouped found running => exact waits.editAwake found (by simp [running])

theorem Alive.edit {q : Pid} {f : View → View} (alive : b.Alive p)
    (keeps : ∀ v, p = q → v.ended = false → (f v).ended = false) :
    (b.edit q f).Alive p := by
  rcases alive with ⟨v, found, lives⟩
  rcases eq_or_ne p q with rfl | differs
  · exact ⟨f v, by simp [edit_view, found], keeps v rfl lives⟩
  · exact ⟨v, by simpa [edit_view, differs] using found, lives⟩

theorem Alive.move (alive : b.Alive p) (wf : b.Wf) (moved : Move scope b b')
    (stays : ¬scope.exits p) : b'.Alive p := by
  cases moved with
  | ready => exact alive.edit fun _ _ lives => lives
  | @slept q v r' trend twhen found running _ mine there timer =>
      have still : ((b.sleepOn q r').setRendez r' (some q)).Alive p := by
        simpa [Alive, setRendez] using alive
      exact still.edit fun _ _ lives => lives
  | @spared q v r' timed found running there =>
      have still : ((b.sleepOn q r').setRendez r' none).Alive p := by
        simpa [Alive, setRendez] using alive
      exact still.edit fun _ _ lives => by cases timed <;> exact lives
  | rouse moved =>
      cases moved with
      | @woken q v r' pri found sleeps link low =>
          exact Alive.edit (b := b.setRendez r' none) alive fun _ _ lives => lives
      | untimed double => exact alive.edit fun _ _ lives => lives
      | @met q v pri found waiting low =>
          exact Alive.edit (b := b.leavergrp v.rgrp q) alive fun _ _ lives => lives
      | @shifted q place pri queued low inside =>
          exact Alive.edit (b := b.unqueue place q) alive fun _ _ lives => lives
  | gathered => exact alive.edit fun _ _ lives => lives
  | parked => exact alive.edit fun _ _ lives => lives
  | exited found source leaves =>
      refine alive.edit fun _ same => ?_
      subst same
      exact absurd leaves stays
  | @culled q v found source leaves =>
      have differs : p ≠ q := by
        rintro rfl
        exact stays leaves
      split
      · exact Alive.edit (b := b.unqueue v.priority q) alive fun _ same => absurd same differs
      · exact alive.edit fun _ same => absurd same differs
  | buried q st broken finished target kept =>
      exact Alive.edit (b := b) alive fun _ _ lives => lives
  | @picked q place pri queued source low =>
      exact Alive.edit (b := b.unqueue place q) alive fun _ _ lives => lives
  | made fresh _ awake bounded =>
      rcases alive with ⟨v, found, lives⟩
      exact ⟨v, by simpa [(wf.known found).ne] using found, lives⟩
  | @reaped q v found finished =>
      rcases alive with ⟨w, here, lives⟩
      have differs : p ≠ q := by
        rintro rfl
        obtain rfl : v = w := by simpa using found.symm.trans here
        simp [finished] at lives
      exact ⟨w, by simpa [differs] using here, lives⟩
  | reprioritized q bounded unqueued => exact alive.edit fun _ _ lives => lives
  | regrouped => exact alive.edit fun _ _ lives => lives

def Runs (b : Board) (p : Pid) : Prop :=
  ∃ v, b.view p = some v ∧ v.state = .running ∧ v.ended = false

theorem Runs.edit {q : Pid} {f : View → View} (runs : b.Runs p)
    (keeps : ∀ v, b.view q = some v → v.state = .running →
      (f v).state = .running ∧ (f v).ended = v.ended) : (b.edit q f).Runs p := by
  rcases runs with ⟨v, found, running, lives⟩
  rcases eq_or_ne p q with rfl | differs
  · have kept := keeps v found running
    exact ⟨f v, by simp [edit_view, found], kept.1, kept.2.trans lives⟩
  · exact ⟨v, by simpa [edit_view, differs] using found, running, lives⟩

theorem Runs.rouse (runs : b.Runs p) (moved : Rouse b b') : b'.Runs p := by
  cases moved with
  | @woken q v r pri found asleep link low =>
      refine Runs.edit (b := b.setRendez r none) runs fun w here running => ?_
      obtain rfl : v = w := by simpa using found.symm.trans here
      simp [asleep] at running
  | untimed double => exact runs.edit fun _ _ running => ⟨running, rfl⟩
  | @met q v pri found waiting low =>
      refine Runs.edit (b := b.leavergrp v.rgrp q) runs fun w here running => ?_
      obtain rfl : v = w := by simpa using found.symm.trans here
      simp [waiting] at running
  | @shifted q place pri queued low inside =>
      exact Runs.edit (b := b.unqueue place q) runs fun _ _ running => ⟨running, rfl⟩

theorem Runs.rouses (steps : Relation.ReflTransGen Rouse b b') (runs : b.Runs p) : b'.Runs p := by
  induction steps with
  | refl => exact runs
  | tail _ moved ih => exact ih.rouse moved

theorem Runs.alive (runs : b.Runs p) : b.Alive p := by
  rcases runs with ⟨v, found, -, lives⟩
  exact ⟨v, found, lives⟩

theorem Runs.not_waits (runs : b.Runs p) : ¬b.Waits p := by
  rcases runs with ⟨v, found, running, -⟩
  rintro ⟨w, here, waiting⟩
  obtain rfl : v = w := by simpa using found.symm.trans here
  simp [running] at waiting

theorem Runs.not_asleep (runs : b.Runs p) (r : Rid) : ¬b.Asleep r p := by
  rcases runs with ⟨v, found, running, -⟩
  rintro ⟨w, here, asleep, -⟩
  obtain rfl : v = w := by simpa using found.symm.trans here
  simp [running] at asleep

section Moves

variable (steps : Relation.ReflTransGen (Move scope) b b')

include steps

theorem Asleep.of_moves (apart : ¬scope.sleeps r) (asleep : b'.Asleep r p) : b.Asleep r p := by
  induction steps with
  | refl => exact asleep
  | tail _ moved ih => exact ih (asleep.of_move moved apart)

theorem Named.moves (named : b.Named r) (apart : ¬scope.sleeps r) (shared : r.owner = none) :
    b'.Named r := by
  induction steps with
  | refl => exact named
  | tail _ moved ih => exact ih.move moved apart shared

theorem Waits.moves (waits : b.Waits p) (inv : b.Inv) (kept : ¬scope.hands p) : b'.Waits p := by
  induction steps with
  | refl => exact waits
  | tail before moved ih => exact ih.move (inv.moves before).wf moved kept

theorem Alive.moves (alive : b.Alive p) (inv : b.Inv) (stays : ¬scope.exits p) : b'.Alive p := by
  induction steps with
  | refl => exact alive
  | tail before moved ih => exact ih.move (inv.moves before).wf moved stays

end Moves

end Board

namespace Procs

variable {s : Procs} {r : Rid} {p pid : Pid}

theorem asleep_sleep (happened : Bool) (there : s.tab pid ≠ none) (mine : r.OpenTo pid)
    (vacant : ∀ q, ¬s.board.Asleep r q) :
    (s.sleep pid r happened).2.board.Named r ∧
      ∀ q, (s.sleep pid r happened).2.board.Asleep r q →
        q = pid ∧ (s.sleep pid r happened).1 = true := by
  have same := board_sleep (s := s) happened there mine
  have only (q : Pid) (asleep : (s.sleep pid r happened).2.board.Asleep r q) :
      q = pid ∧ (s.sleep pid r happened).1 = true := by
    rw [same] at asleep
    split at asleep
    case isTrue slept =>
      rcases asleep with ⟨w, here, sleeps, link⟩
      rcases Board.view_of_edit here with ⟨-, was⟩ | ⟨rfl, -⟩
      · exact absurd ⟨w, by simpa [Board.setRendez] using was, sleeps, link⟩ (vacant q)
      · exact ⟨rfl, slept⟩
    case isFalse =>
      exact absurd (by simpa [Board.Asleep, Board.setRendez] using asleep) (vacant q)
  refine ⟨fun q asleep => ?_, only⟩
  rcases only q asleep with ⟨rfl, slept⟩
  rw [same, if_pos slept]
  simp [Board.edit, Board.setRendez]

theorem state_of_waits (waits : s.board.Waits p) : s.state p = .queueing := by
  rcases waits with ⟨v, view, waiting⟩
  rcases tab_of_board_view view with ⟨q, found, rfl⟩
  simpa [state, found, Proc.view] using waiting

theorem runs_qunlock {l : QLock} (waiting : ∀ q ∈ l.q.head?, s.board.Waits q)
    (runs : s.board.Runs p) : (s.qunlock l).2.board.Runs p := by
  unfold qunlock
  split
  case h_1 q rest first =>
    rcases waiting q (by simp [first]) with ⟨v, found, waits⟩
    rcases board_ready found with ⟨pri, -, same⟩
    simp only [same]
    refine Board.Runs.edit runs fun w here running => ?_
    obtain rfl : v = w := by simpa using found.symm.trans here
    simp [waits] at running
  case h_2 => exact runs

theorem qunlock_lock (l : QLock) :
    (s.qunlock l).1 = ⟨l.locked && !l.q.isEmpty, l.q.tail⟩ := by
  rcases l with ⟨locked, _ | ⟨first, rest⟩⟩ <;> simp [qunlock]

theorem asleep_of_wakeup {r' : Rid} (asleep : (s.wakeup r').2.board.Asleep r p) :
    s.board.Asleep r p := by
  have moves : Moves { Scope.any with sleeps := fun _ => False } s (s.wakeup r').2 :=
    (steps_wakeup r').rise
  exact Board.Asleep.of_moves moves id asleep

theorem rendez_wakeup {r' : Rid} (differs : r ≠ r') :
    (s.wakeup r').2.board.rendez r = s.board.rendez r := by
  rcases there : s.rendez r' with _ | pid
  · simp only [wakeup, there]
  · by_cases asleep : (s.tab pid).any fun p => p.state == .wakeme && p.r == some r'
    · rcases (Option.any_eq_true _ _).mp asleep with ⟨p, found, holds⟩
      simp only [Bool.and_eq_true, beq_iff_eq] at holds
      rcases board_wakeup there found holds.1 holds.2 with ⟨pri, -, same⟩
      simp [same, Board.roused, Board.queue, Board.edit, Board.setRendez, differs]
    · simp only [wakeup, there, asleep]
      rfl

/-- Whom a `Rendez` names does not sleep there after a wakeup. -/
theorem not_asleep_of_rendez (there : s.board.rendez r = some p) :
    ¬(s.wakeup r).2.board.Asleep r p := by
  intro asleep
  have before := asleep_of_wakeup asleep
  rcases before with ⟨v, view, sleeps, link⟩
  rcases tab_of_board_view view with ⟨q, found, rfl⟩
  rcases board_wakeup there found sleeps link with ⟨pri, -, same⟩
  rw [same] at asleep
  exact Board.not_asleep_roused asleep

theorem not_asleep_wakeup (named : s.board.Named r) : ¬(s.wakeup r).2.board.Asleep r p :=
  fun asleep => not_asleep_of_rendez (named p (asleep_of_wakeup asleep)) asleep

end Procs

end Ipnx
