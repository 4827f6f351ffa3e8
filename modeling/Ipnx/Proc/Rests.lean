import Ipnx.Proc.Waits

/-!
# Sleeps on one's own `Rendez`

Nobody but its owner sleeps on a process's own `Rendez` or sets a timer for it. While the
owner sleeps there, with no timer, and nobody comes to sleep there, the `Rendez` goes on
naming it; and it sleeps until something wakes that `Rendez`. Timers are set only for the `Rendez`
that a `tsleep` was on.
-/

namespace Ipnx

namespace Board

variable {b b' : Board} {scope : Scope} {pid d : Pid}

/-- A timer is set for a sleep, a sleep is on one's own `Rendez` or on nobody's, and what is
stopped has not ended. -/
def Tidy (b : Board) : Prop :=
  ∀ pid v, b.view pid = some v →
    (∀ r, v.trend = some r → v.state = .wakeme ∧ v.r = some r) ∧
      (∀ r, v.state = .wakeme → v.r = some r → r.OpenTo pid) ∧
        (v.state = .stopped → v.ended = false)

theorem Tidy.edit (tidy : b.Tidy) {f : View → View}
    (timer : ∀ v r, b.view pid = some v → (f v).trend = some r →
      (f v).state = .wakeme ∧ (f v).r = some r)
    (link : ∀ v r, b.view pid = some v → (f v).state = .wakeme → (f v).r = some r →
      v.state = .wakeme ∧ v.r = some r ∨ r.OpenTo pid)
    (halted : ∀ v, b.view pid = some v → (f v).state = .stopped →
      v.state = .stopped ∧ (f v).ended = v.ended ∨ (f v).ended = false) :
    (b.edit pid f).Tidy := by
  intro q w found
  rcases view_of_edit found with ⟨-, there⟩ | ⟨rfl, v, there, rfl⟩
  · exact tidy q w there
  · rcases tidy q v there with ⟨-, linked, alive⟩
    refine ⟨fun r => timer v r there, fun r asleep linked' => ?_, fun stopped => ?_⟩
    · rcases link v r there asleep linked' with ⟨was, linked''⟩ | mine
      · exact linked r was linked''
      · exact mine
    · rcases halted v there stopped with ⟨was, same⟩ | lives
      · exact same.trans (alive was)
      · exact lives

theorem Tidy.editAwake (tidy : b.Tidy) {f : View → View}
    (before : ∀ v, b.view pid = some v → v.state ≠ .wakeme)
    (after : ∀ v, b.view pid = some v →
      (f v).state ≠ .wakeme ∧ ((f v).state = .stopped → (f v).ended = false))
    (same : ∀ v, (f v).trend = v.trend) : (b.edit pid f).Tidy := by
  apply tidy.edit
  · intro v r found set
    exact absurd ((tidy pid v found).1 r ((same v).symm.trans set)).1 (before v found)
  · exact fun v r found asleep => absurd asleep (after v found).1
  · exact fun v found stopped => .inr ((after v found).2 stopped)

theorem Tidy.editSame (tidy : b.Tidy) {f : View → View}
    (same : ∀ v, (f v).state = v.state ∧ (f v).trend = v.trend ∧ (f v).r = v.r ∧
      (f v).ended = v.ended) : (b.edit pid f).Tidy := by
  apply tidy.edit
  · intro v r found set
    rcases same v with ⟨state, trend, link, -⟩
    rw [state, link]
    exact (tidy pid v found).1 r (trend.symm.trans set)
  · intro v r _ asleep linked
    rcases same v with ⟨state, -, link, -⟩
    exact .inl ⟨state.symm.trans asleep, link.symm.trans linked⟩
  · intro v _ stopped
    rcases same v with ⟨state, -, -, ended⟩
    exact .inl ⟨state.symm.trans stopped, ended⟩

theorem Tidy.untimed (tidy : b.Tidy) {v : View} (found : b.view pid = some v)
    (awake : v.state ≠ .wakeme) : v.trend = none := by
  rcases set : v.trend with _ | r
  · rfl
  · exact absurd ((tidy pid v found).1 r set).1 awake

theorem state_ne {v : View} {st : State} (found : b.view pid = some v) (is : v.state = st)
    (awake : st ≠ .wakeme) : ∀ w, b.view pid = some w → w.state ≠ .wakeme := by
  intro w here
  rw [← Option.some_inj.mp (found.symm.trans here), is]
  exact awake

theorem Tidy.rouse (tidy : b.Tidy) (moved : Rouse b b') : b'.Tidy := by
  cases moved with
  | @woken q v r pri found asleep link low =>
      apply Tidy.edit (b := b.setRendez r none) tidy
      · exact fun _ _ _ set => by cases set
      · exact fun _ _ _ asleep => by cases asleep
      · exact fun _ _ stopped => by cases stopped
  | untimed double =>
      apply tidy.edit
      · exact fun _ _ _ set => by cases set
      · exact fun _ _ _ asleep link => .inl ⟨asleep, link⟩
      · exact fun _ _ stopped => .inl ⟨stopped, rfl⟩
  | @met q v pri found waiting low =>
      apply Tidy.editAwake (b := b.leavergrp v.rgrp q) tidy
      · exact state_ne found waiting (by simp)
      · simp
      · exact fun _ => rfl
  | @shifted q place pri queued low inside =>
      exact Tidy.editSame (b := b.unqueue place q) tidy fun _ => ⟨rfl, rfl, rfl, rfl⟩

theorem Tidy.move (tidy : b.Tidy) (wf : b.Wf) (moved : Move scope b b') : b'.Tidy := by
  cases moved with
  | @ready q v pri found source low =>
      apply Tidy.editAwake (b := b) tidy
      · rcases source with h | h | h | ⟨h, -⟩ <;> exact state_ne found h (by simp)
      · simp
      · exact fun _ => rfl
  | @slept q v r trend twhen found running alive mine there timer =>
      have still : ((b.sleepOn q r).setRendez r (some q)).Tidy := by
        simpa [Tidy, setRendez] using tidy
      apply still.edit
      · intro w r' here set
        have here' : b.view q = some w := by simpa [setRendez] using here
        obtain rfl : v = w := Option.some_inj.mp (found.symm.trans here')
        refine ⟨rfl, ?_⟩
        rcases timer with ⟨kept, -⟩ | ⟨new, -⟩
        · have unset := tidy.untimed found (by simp [running])
          have set' := set
          rw [kept, unset] at set'
          cases set'
        · exact new.symm.trans set
      · exact fun w r' _ _ link => .inr (Option.some_inj.mp link ▸ mine)
      · exact fun _ _ stopped => by cases stopped
  | @spared q v r timed found running there =>
      have still : ((b.sleepOn q r).setRendez r none).Tidy := by
        simpa [Tidy, setRendez] using tidy
      have found' : ((b.sleepOn q r).setRendez r none).view q = some v := by
        simpa [setRendez] using found
      cases timed with
      | false => exact still.editSame fun _ => ⟨rfl, rfl, rfl, rfl⟩
      | true =>
          apply still.edit
          · exact fun _ _ _ set => by cases set
          · exact fun _ _ _ asleep link => .inl ⟨asleep, link⟩
          · exact fun _ _ stopped => .inl ⟨stopped, rfl⟩
  | rouse moved => exact tidy.rouse moved
  | gathered found running =>
      exact Tidy.editAwake (b := b) tidy (state_ne found running (by simp)) (by simp)
        fun _ => rfl
  | @parked q v st found running alive target =>
      apply tidy.editAwake (state_ne found running (by simp))
      · intro w here
        obtain rfl : v = w := Option.some_inj.mp (found.symm.trans here)
        rcases target with rfl | rfl <;> simp [alive]
      · exact fun _ => rfl
  | exited found source leaves =>
      apply tidy.editAwake
      · rcases source with h | h <;> exact state_ne found h (by simp)
      · simp
      · exact fun _ => rfl
  | @culled q v found source leaves =>
      split
      · exact Tidy.editAwake (b := b.unqueue v.priority q) tidy
          (state_ne (b := b) found source (by simp)) (by simp) fun _ => rfl
      · exact tidy.editAwake (state_ne found source (by simp)) (by simp) fun _ => rfl
  | buried q st broken finished target kept =>
      apply Tidy.editAwake (b := b) tidy
      · intro v found asleep
        have lives := wf.alive q v found (.inl asleep)
        rw [finished v found] at lives
        cases lives
      · rcases target with rfl | rfl <;> simp
      · exact fun _ => rfl
  | @picked q place pri queued source low =>
      apply Tidy.editAwake (b := b.unqueue place q) tidy
      · intro v found asleep
        have idle := source v found
        simp [asleep, State.Exited] at idle
      · simp
      · exact fun _ => rfl
  | @made v fresh alive awake bounded =>
      intro q w found
      rcases eq_or_ne q b.next with rfl | differs
      · simp only [Function.update_self, Option.some_inj] at found
        subst found
        refine ⟨fun r set => ?_, fun r asleep => ?_, fun _ => alive⟩
        · rw [awake.2.1] at set
          cases set
        · rw [fresh] at asleep
          cases asleep
      · exact tidy q w (by simpa [differs] using found)
  | @reaped q v found finished =>
      intro p w here
      rcases eq_or_ne p q with rfl | differs
      · simp at here
      · exact tidy p w (by simpa [differs] using here)
  | reprioritized => exact tidy.editSame fun _ => ⟨rfl, rfl, rfl, rfl⟩
  | regrouped => exact tidy.editSame fun _ => ⟨rfl, rfl, rfl, rfl⟩

def Rests (b : Board) (d : Pid) : Prop :=
  ∀ v, b.view d = some v → v.state = .wakeme → v.r = some (.proc d .sleep) →
    b.rendez (.proc d .sleep) = some d ∧ v.trend = none

theorem Rests.edit (rests : b.Rests d) {f : View → View}
    (keeps : ∀ v, b.view pid = some v → (f v).state = .wakeme →
      (f v).r = some (.proc d .sleep) → v.state = .wakeme ∧ v.r = some (.proc d .sleep) ∧
        (v.trend = none → (f v).trend = none)) : (b.edit pid f).Rests d := by
  intro w found asleep link
  rcases view_of_edit found with ⟨-, there⟩ | ⟨rfl, v, there, rfl⟩
  · exact rests w there asleep link
  · rcases keeps v there asleep link with ⟨was, linked, untimed⟩
    rcases rests v there was linked with ⟨named, unset⟩
    exact ⟨named, untimed unset⟩

theorem Rests.setRendez (rests : b.Rests d) {r : Rid} {who : Option Pid}
    (apart : r ≠ .proc d .sleep) : ((b.sleepOn pid r).setRendez r who).Rests d := by
  intro v found asleep link
  have rested := rests v (by simpa [Board.setRendez] using found) asleep link
  simpa [Board.setRendez, apart.symm] using rested

theorem Rests.rouse (rests : b.Rests d) (tidy : b.Tidy) (moved : Rouse b b') : b'.Rests d := by
  cases moved with
  | @woken q v r pri found asleep link low =>
      rcases eq_or_ne r (.proc d .sleep) with rfl | apart
      · have mine : d = q := (tidy q v found).2.1 _ asleep link d rfl
        intro w here still
        rcases view_of_edit here with ⟨differs, -⟩ | ⟨-, u, -, rfl⟩
        · exact absurd mine differs
        · cases still
      · have parted : (b.setRendez r none).Rests d := by
          intro w here still linked
          have rested := rests w here still linked
          simpa [Board.setRendez, apart.symm] using rested
        exact parted.edit fun _ _ still => by cases still
  | untimed double => exact rests.edit fun _ _ asleep link => ⟨asleep, link, fun _ => rfl⟩
  | @met q v pri found waiting low =>
      exact Rests.edit (b := b.leavergrp v.rgrp q) rests fun _ _ still => by cases still
  | @shifted q place pri queued low inside =>
      exact Rests.edit (b := b.unqueue place q) rests fun _ _ asleep link => ⟨asleep, link, id⟩

theorem Rests.move (rests : b.Rests d) (tidy : b.Tidy) (moved : Move scope b b')
    (apart : ¬scope.sleeps (.proc d .sleep)) : b'.Rests d := by
  cases moved with
  | ready => exact Rests.edit (b := b) rests fun _ _ still => by cases still
  | @slept q v r trend twhen found running alive mine there timer =>
      have differs : r ≠ .proc d .sleep := by
        rintro rfl
        exact apart there
      apply (rests.setRendez differs).edit
      intro _ _ _ link
      exact absurd (Option.some_inj.mp link) differs
  | @spared q v r timed found running there =>
      have differs : r ≠ .proc d .sleep := by
        rintro rfl
        exact apart there
      apply (rests.setRendez differs).edit
      cases timed with
      | false => exact fun _ _ asleep link => ⟨asleep, link, id⟩
      | true => exact fun _ _ asleep link => ⟨asleep, link, fun _ => rfl⟩
  | rouse moved => exact rests.rouse tidy moved
  | gathered => exact Rests.edit (b := b) rests fun _ _ still => by cases still
  | parked found running alive target =>
      apply rests.edit
      intro _ _ still
      rcases target with rfl | rfl <;> cases still
  | exited => exact rests.edit fun _ _ still => by cases still
  | @culled q v found source leaves =>
      split
      · exact Rests.edit (b := b.unqueue v.priority q) rests fun _ _ still => by cases still
      · exact rests.edit fun _ _ still => by cases still
  | buried q st broken finished target kept =>
      apply Rests.edit (b := b) rests
      intro _ _ still
      rcases target with rfl | rfl <;> cases still
  | @picked q place pri queued source low =>
      exact Rests.edit (b := b.unqueue place q) rests fun _ _ still => by cases still
  | @made v fresh alive awake bounded =>
      intro w found asleep link
      rcases eq_or_ne d b.next with rfl | differs
      · simp only [Function.update_self, Option.some_inj] at found
        rw [← found, fresh] at asleep
        cases asleep
      · exact rests w (by simpa [differs] using found) asleep link
  | @reaped q v found finished =>
      intro w here asleep link
      rcases eq_or_ne d q with rfl | differs
      · simp at here
      · have rested := rests w (by simpa [differs] using here) asleep link
        simpa [Rid.owner, differs] using rested
  | reprioritized => exact rests.edit fun _ _ asleep link => ⟨asleep, link, id⟩
  | regrouped => exact rests.edit fun _ _ asleep link => ⟨asleep, link, id⟩

section Moves

variable (steps : Relation.ReflTransGen (Move scope) b b')

include steps

theorem Tidy.moves (tidy : b.Tidy) (inv : b.Inv) : b'.Tidy := by
  induction steps with
  | refl => exact tidy
  | tail before moved ih => exact ih.move (inv.moves before).wf moved

theorem Rests.moves (rests : b.Rests d) (tidy : b.Tidy) (inv : b.Inv)
    (apart : ¬scope.sleeps (.proc d .sleep)) : b'.Rests d := by
  induction steps with
  | refl => exact rests
  | tail before moved ih => exact ih.move (tidy.moves before inv) moved apart

end Moves

section Timed

variable {set : Rid → Prop}

/-- Every timer is set for one of some `Rendez`. -/
def Timed (set : Rid → Prop) (b : Board) : Prop :=
  ∀ pid v r, b.view pid = some v → v.trend = some r → set r

theorem Timed.edit (timed : b.Timed set) {f : View → View}
    (keeps : ∀ v r, (f v).trend = some r → v.trend = some r ∨ set r) :
    (b.edit pid f).Timed set := by
  intro q v r found timer
  rcases view_of_edit found with ⟨-, there⟩ | ⟨-, u, there, rfl⟩
  · exact timed q v r there timer
  · exact (keeps u r timer).elim (timed pid u r there) id

theorem Timed.rouse (timed : b.Timed set) (moved : Rouse b b') : b'.Timed set := by
  cases moved with
  | woken => exact Timed.edit (b := b.setRendez _ none) timed fun _ _ timer => by cases timer
  | untimed => exact timed.edit fun _ _ timer => by cases timer
  | met => exact Timed.edit (b := b.leavergrp _ _) timed fun _ _ => .inl
  | shifted => exact Timed.edit (b := b.unqueue _ _) timed fun _ _ => .inl

theorem Timed.move (timed : b.Timed set) (moved : Move scope b b')
    (sleeps : ∀ r, scope.sleeps r → set r) : b'.Timed set := by
  cases moved with
  | ready => exact Timed.edit (b := b) timed fun _ _ => .inl
  | @slept q v r trend twhen found running alive mine there timer =>
      have still : ((b.sleepOn q r).setRendez r (some q)).Timed set := by
        simpa [Timed, setRendez] using timed
      intro p u r' here set'
      rcases view_of_edit here with ⟨-, was⟩ | ⟨-, u, was, rfl⟩
      · exact still p u r' was set'
      · rcases timer with ⟨kept, -⟩ | ⟨new, -⟩
        · exact timed q v r' found (kept ▸ set')
        · have same : r = r' := Option.some_inj.mp (new.symm.trans set')
          exact sleeps r' (same ▸ there)
  | @spared q v r timer found running there =>
      have still : ((b.sleepOn q r).setRendez r none).Timed set := by
        simpa [Timed, setRendez] using timed
      apply still.edit
      intro u r' set'
      cases timer with
      | false => exact .inl set'
      | true => cases set'
  | rouse moved => exact timed.rouse moved
  | gathered => exact Timed.edit (b := b) timed fun _ _ => .inl
  | parked | exited | reprioritized | regrouped => exact timed.edit fun _ _ => .inl
  | culled =>
      split
      · exact Timed.edit (b := b.unqueue _ _) timed fun _ _ => .inl
      · exact timed.edit fun _ _ => .inl
  | buried => exact Timed.edit (b := b) timed fun _ _ => .inl
  | picked => exact Timed.edit (b := b.unqueue _ _) timed fun _ _ => .inl
  | @made v fresh alive awake bounded =>
      intro q u r found timer
      rcases eq_or_ne q b.next with rfl | differs
      · simp only [Function.update_self, Option.some_inj] at found
        rw [← found, awake.2.1] at timer
        cases timer
      · exact timed q u r (by simpa [differs] using found) timer
  | @reaped q v found finished =>
      intro p u r here timer
      rcases eq_or_ne p q with rfl | differs
      · simp at here
      · exact timed p u r (by simpa [differs] using here) timer

theorem Timed.moves (timed : b.Timed set) (moved : Relation.ReflTransGen (Move scope) b b')
    (sleeps : ∀ r, scope.sleeps r → set r) : b'.Timed set := by
  induction moved with
  | refl => exact timed
  | tail _ moved ih => exact ih.move moved sleeps

end Timed

end Board

end Ipnx
