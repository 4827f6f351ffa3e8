import Ipnx.Proc.Moves

/-!
# Sleepers and the `Rendez` that name them

`Paired`: a process is asleep if and only if the `Rendez` it says it sleeps on names it, a
`Rendez` names nobody else, and a timer is set only for a sleep and for that sleep's
`Rendez`. Every move keeps it as long as no process ever slept on a `Rendez` somebody else
was on, which `doublesleep` counts.
-/

namespace Ipnx

namespace Board

variable {b b' : Board} {scope : Scope} {pid : Pid}

structure Paired (b : Board) : Prop where
  link : ∀ pid v, b.view pid = some v → v.state = .wakeme →
    ∃ r, v.r = some r ∧ b.rendez r = some pid
  named : ∀ r pid, b.rendez r = some pid →
    ∃ v, b.view pid = some v ∧ v.state = .wakeme ∧ v.r = some r
  awake : ∀ pid v, b.view pid = some v → v.state ≠ .wakeme →
    v.r = none ∧ v.trend = none ∧ v.twhen = none
  timer : ∀ pid v, b.view pid = some v → v.state = .wakeme →
    v.trend = v.r ∧ v.twhen ≠ none ∨ v.trend = none ∧ v.twhen = none
  mine : ∀ pid v r, b.view pid = some v → v.r = some r → r.OpenTo pid

theorem doublesleep_sleepOn (r : Rid) (single : (b.sleepOn pid r).doublesleep = 0) :
    b.doublesleep = 0 ∧ ∀ q, b.rendez r = some q → q = pid := by
  simp only [sleepOn] at single
  split at single
  · simp at single
  case isFalse alone =>
    refine ⟨single, fun q there => ?_⟩
    simpa [there] using alone

theorem Move.single (moved : Move scope b b') (single : b'.doublesleep = 0) :
    b.doublesleep = 0 := by
  cases moved with
  | slept => exact (doublesleep_sleepOn _ single).1
  | spared => exact (doublesleep_sleepOn _ single).1
  | culled =>
      simp only [edit] at single
      split at single <;> exact single
  | rouse moved => cases moved <;> exact single
  | _ => exact single

namespace Paired

variable (paired : b.Paired)

include paired

theorem congr (views : b'.view = b.view) (meetings : b'.rendez = b.rendez) : b'.Paired := by
  refine ⟨?_, ?_, ?_, ?_, ?_⟩ <;> rw [views]
  · rw [meetings]; exact paired.link
  · rw [meetings]; exact paired.named
  · exact paired.awake
  · exact paired.timer
  · exact paired.mine

theorem vacant {v : View} {r : Rid} (found : b.view pid = some v)
    (running : v.state = .running) (alone : ∀ q, b.rendez r = some q → q = pid) :
    b.rendez r = none := by
  rcases there : b.rendez r with _ | q
  · rfl
  · rcases alone q there with rfl
    rcases paired.named r q there with ⟨w, here, asleep, -⟩
    rw [found, Option.some_inj] at here
    simp [← here, running] at asleep

/-- A process with a timer is asleep at the `Rendez` the timer is for. -/
theorem timed {v : View} {r : Rid} (found : b.view pid = some v) (armed : v.trend = some r) :
    v.state = .wakeme ∧ v.r = some r ∧ b.rendez r = some pid := by
  have asleep : v.state = .wakeme := by
    by_contra awake
    simp [(paired.awake pid v found awake).2.1] at armed
  rcases paired.link pid v found asleep with ⟨r', link, named⟩
  rcases paired.timer pid v found asleep with ⟨same, -⟩ | ⟨unset, -⟩
  · obtain rfl : r = r' := by simpa [armed, link] using same
    exact ⟨asleep, link, named⟩
  · simp [unset] at armed

theorem edit {f : View → View}
    (state : ∀ v, b.view pid = some v → ((f v).state = .wakeme ↔ v.state = .wakeme))
    (same : ∀ v, b.view pid = some v →
      (f v).r = v.r ∧ (f v).trend = v.trend ∧ (f v).twhen = v.twhen) :
    (b.edit pid f).Paired where
  link q w found asleep := by
    rcases view_of_edit found with ⟨-, was⟩ | ⟨rfl, v, was, rfl⟩
    · exact paired.link q w was asleep
    · rw [(same v was).1]
      exact paired.link q v was ((state v was).mp asleep)
  named r q there := by
    rcases paired.named r q there with ⟨v, was, asleep, link⟩
    rw [edit_view]
    split
    case isTrue same' =>
      subst same'
      exact ⟨f v, by simp [was], (state v was).mpr asleep, (same v was).1.trans link⟩
    case isFalse => exact ⟨v, was, asleep, link⟩
  awake q w found awake := by
    rcases view_of_edit found with ⟨-, was⟩ | ⟨rfl, v, was, rfl⟩
    · exact paired.awake q w was awake
    · rw [(same v was).1, (same v was).2.1, (same v was).2.2]
      exact paired.awake q v was fun asleep => awake ((state v was).mpr asleep)
  timer q w found asleep := by
    rcases view_of_edit found with ⟨-, was⟩ | ⟨rfl, v, was, rfl⟩
    · exact paired.timer q w was asleep
    · rw [(same v was).1, (same v was).2.1, (same v was).2.2]
      exact paired.timer q v was ((state v was).mp asleep)
  mine q w r found link := by
    rcases view_of_edit found with ⟨-, was⟩ | ⟨rfl, v, was, rfl⟩
    · exact paired.mine q w r was link
    · exact paired.mine q v r was ((same v was).1 ▸ link)

theorem sleep {v : View} {r : Rid} (trend : Option Rid)
    (twhen : Option Nat) (found : b.view pid = some v) (vacant : b.rendez r = none)
    (running : v.state = .running) (mine : r.OpenTo pid)
    (timer : trend = some r ∧ twhen ≠ none ∨ trend = none ∧ twhen = none) :
    ((b.setRendez r (some pid)).edit pid fun v =>
      { v with state := .wakeme, r := some r, trend := trend, twhen := twhen }).Paired where
  link q w here asleep := by
    rcases view_of_edit here with ⟨differs, was⟩ | ⟨rfl, v, was, rfl⟩
    · rcases paired.link q w was asleep with ⟨r', link, there⟩
      have apart : r' ≠ r := by
        rintro rfl
        simp [vacant] at there
      exact ⟨r', link, by simpa [Board.edit, setRendez, apart] using there⟩
    · exact ⟨r, rfl, by simp [Board.edit, setRendez]⟩
  named r' q there := by
    rcases eq_or_ne r' r with rfl | apart
    · simp only [Board.edit, setRendez, Function.update_self, Option.some_inj] at there
      subst there
      exact ⟨_, (edit_view _ _ _ _).trans (by simp [setRendez, found]; rfl), rfl, rfl⟩
    · obtain ⟨w, was, asleep, link⟩ := paired.named r' q
        (by simpa [Board.edit, setRendez, apart] using there)
      have differs : q ≠ pid := by
        rintro rfl
        rw [found, Option.some_inj] at was
        simp [← was, running] at asleep
      exact ⟨w, by simpa [edit_view, differs, setRendez] using was, asleep, link⟩
  awake q w here awake := by
    rcases view_of_edit here with ⟨-, was⟩ | ⟨-, v, was, rfl⟩
    · exact paired.awake q w was awake
    · simp at awake
  timer q w here asleep := by
    rcases view_of_edit here with ⟨-, was⟩ | ⟨-, v, was, rfl⟩
    · exact paired.timer q w was asleep
    · exact timer
  mine q w r' here link := by
    rcases view_of_edit here with ⟨-, was⟩ | ⟨rfl, v, was, rfl⟩
    · exact paired.mine q w r' was link
    · simp only [Option.some_inj] at link
      exact link ▸ mine

theorem wake {v : View} {r : Rid} {f : View → View}
    (found : b.view pid = some v) (asleep : v.state = .wakeme) (link : v.r = some r)
    (awake : (f v).state ≠ .wakeme)
    (clear : (f v).r = none ∧ (f v).trend = none ∧ (f v).twhen = none) :
    ((b.setRendez r none).edit pid f).Paired where
  link q w here sleeps := by
    rcases view_of_edit here with ⟨differs, was⟩ | ⟨rfl, u, was, rfl⟩
    · rcases paired.link q w was sleeps with ⟨r', link', there⟩
      have apart : r' ≠ r := by
        rintro rfl
        rcases paired.link pid v found asleep with ⟨r'', link'', there'⟩
        obtain rfl : r' = r'' := by simpa using link.symm.trans link''
        rw [there, Option.some_inj] at there'
        exact differs there'
      exact ⟨r', link', by simpa [Board.edit, setRendez, apart] using there⟩
    · obtain rfl : u = v := by simpa [setRendez, found] using was.symm
      exact absurd sleeps awake
  named r' q there := by
    rcases eq_or_ne r' r with rfl | apart
    · simp [Board.edit, setRendez] at there
    · obtain ⟨w, was, sleeps, link'⟩ := paired.named r' q
        (by simpa [Board.edit, setRendez, apart] using there)
      have differs : q ≠ pid := by
        rintro rfl
        obtain rfl : w = v := by simpa using was.symm.trans found
        exact apart (by simpa using link'.symm.trans link)
      exact ⟨w, by simpa [edit_view, differs, setRendez] using was, sleeps, link'⟩
  awake q w here wakes := by
    rcases view_of_edit here with ⟨-, was⟩ | ⟨rfl, u, was, rfl⟩
    · exact paired.awake q w was wakes
    · obtain rfl : u = v := by simpa [setRendez, found] using was.symm
      exact clear
  timer q w here sleeps := by
    rcases view_of_edit here with ⟨-, was⟩ | ⟨rfl, u, was, rfl⟩
    · exact paired.timer q w was sleeps
    · obtain rfl : u = v := by simpa [setRendez, found] using was.symm
      exact absurd sleeps awake
  mine q w r' here link' := by
    rcases view_of_edit here with ⟨-, was⟩ | ⟨rfl, u, was, rfl⟩
    · exact paired.mine q w r' was link'
    · obtain rfl : u = v := by simpa [setRendez, found] using was.symm
      simp [clear] at link'

theorem editAwake {f : View → View} {v : View}
    (found : b.view pid = some v) (awake : v.state ≠ .wakeme) (stays : (f v).state ≠ .wakeme)
    (same : (f v).r = v.r ∧ (f v).trend = v.trend ∧ (f v).twhen = v.twhen) :
    (b.edit pid f).Paired := by
  have only : ∀ w, b.view pid = some w → w = v := fun w was => by
    simpa using was.symm.trans found
  refine paired.edit (fun w was => ?_) (fun w was => only w was ▸ same)
  rcases only w was with rfl
  exact ⟨fun h => absurd h stays, fun h => absurd h awake⟩

theorem made (wf : b.Wf) {v : View} (fresh : v.state = .scheding)
    (awake : v.r = none ∧ v.trend = none ∧ v.twhen = none) :
    { b with
      view := Function.update b.view b.next (some v)
      next := b.next + 1 : Board }.Paired := by
  have old (q : Pid) (w : View)
      (here : Function.update b.view b.next (some v) q = some w) :
      b.view q = some w ∨ w = v := by
    rcases eq_or_ne q b.next with rfl | differs
    · exact .inr (by simpa using here.symm)
    · exact .inl (by simpa [differs] using here)
  refine ⟨fun q w here asleep => ?_, fun r q there => ?_, fun q w here wakes => ?_,
    fun q w here asleep => ?_, fun q w r here link => ?_⟩
  · rcases old q w here with was | rfl
    · exact paired.link q w was asleep
    · simp [fresh] at asleep
  · rcases paired.named r q there with ⟨w, was, asleep, link⟩
    exact ⟨w, by simpa [(wf.known was).ne] using was, asleep, link⟩
  · rcases old q w here with was | rfl
    · exact paired.awake q w was wakes
    · exact awake
  · rcases old q w here with was | rfl
    · exact paired.timer q w was asleep
    · simp [fresh] at asleep
  · rcases old q w here with was | rfl
    · exact paired.mine q w r was link
    · simp [awake] at link

theorem reaped (wf : b.Wf) {v : View} (found : b.view pid = some v) (finished : v.ended = true) :
    { b with
      view := Function.update b.view pid none
      rendez := fun r => if r.owner = some pid then none else b.rendez r : Board }.Paired := by
  have differs (q : Pid) (w : View) (was : b.view q = some w) (asleep : w.state = .wakeme) :
      q ≠ pid := by
    rintro rfl
    obtain rfl : w = v := by simpa using was.symm.trans found
    simpa [finished] using wf.alive _ w was (.inl asleep)
  have old (q : Pid) (w : View) (here : Function.update b.view pid none q = some w) :
      b.view q = some w := by
    rcases eq_or_ne q pid with rfl | apart
    · simp at here
    · simpa [apart] using here
  refine ⟨fun q w here asleep => ?_, fun r q there => ?_, fun q w here => ?_,
    fun q w here => ?_, fun q w r here => ?_⟩
  · rcases paired.link q w (old q w here) asleep with ⟨r, link, there⟩
    refine ⟨r, link, ?_⟩
    have others : r.owner ≠ some pid := fun owned =>
      differs q w (old q w here) asleep (paired.mine q w r (old q w here) link pid owned).symm
    simpa [others] using there
  · have before : b.rendez r = some q := by
      simp only at there
      split at there
      · simp at there
      · exact there
    rcases paired.named r q before with ⟨w, was, asleep, link⟩
    exact ⟨w, by simpa [differs q w was asleep] using was, asleep, link⟩
  · exact paired.awake q w (old q w here)
  · exact paired.timer q w (old q w here)
  · exact paired.mine q w r (old q w here)

theorem move (wf : b.Wf) (moved : Move scope b b') (single : b'.doublesleep = 0) : b'.Paired := by
  cases moved with
  | @ready pid v pri found source low =>
      have awake : v.state ≠ .wakeme := by rcases source with h | h | h | h <;> simp [h]
      exact (paired.editAwake found awake (by simp) ⟨rfl, rfl, rfl⟩).congr rfl rfl
  | @slept pid v r trend twhen found running alive mine there timer =>
      rcases doublesleep_sleepOn r single with ⟨-, alone⟩
      have unset := paired.awake pid v found (by simp [running])
      have slept := paired.sleep trend twhen found
        (paired.vacant found running alone) running mine (by
          rcases timer with ⟨rfl, rfl⟩ | timer
          · exact .inr unset.2
          · exact .inl timer)
      exact slept.congr (by simp [Board.edit, setRendez]) (by simp [Board.edit, setRendez])
  | @spared pid v r timed found running there =>
      rcases doublesleep_sleepOn r single with ⟨-, alone⟩
      have vacant := paired.vacant found running alone
      have unset := paired.awake pid v found (by simp [running])
      have cleared : ((b.sleepOn pid r).setRendez r none).Paired :=
        paired.congr (sleepOn_view r) (by simp [setRendez, ← vacant])
      refine cleared.editAwake (v := v) (by simpa [setRendez] using found) (by simp [running])
        ?_ ?_ <;> cases timed <;> simp [running, unset]
  | rouse moved =>
      cases moved with
      | @woken pid v r pri found asleep link low =>
          exact (paired.wake found asleep link (by simp) ⟨rfl, rfl, rfl⟩).congr rfl rfl
      | untimed double => exact absurd single double
      | @met pid v pri found waiting low =>
          have left : (b.leavergrp v.rgrp pid).Paired := paired.congr rfl rfl
          exact (left.editAwake (v := v) found (by simp [waiting]) (by simp) ⟨rfl, rfl, rfl⟩).congr
            rfl rfl
      | @shifted pid place pri queued low inside =>
          have off : (b.unqueue place pid).Paired := paired.congr rfl rfl
          exact (off.edit (f := fun v => { v with priority := pri })
            (fun _ _ => Iff.rfl) fun _ _ => ⟨rfl, rfl, rfl⟩).congr rfl rfl
  | gathered found running alive =>
      exact (paired.editAwake found (by simp [running]) (by simp) ⟨rfl, rfl, rfl⟩).congr rfl rfl
  | parked found running alive target =>
      refine paired.editAwake found (by simp [running]) ?_ ⟨rfl, rfl, rfl⟩
      rcases target with rfl | rfl <;> simp
  | exited found source =>
      refine paired.editAwake found ?_ (by simp) ⟨rfl, rfl, rfl⟩
      rcases source with h | h <;> simp [h]
  | @culled pid v found source =>
      split
      · have off : (b.unqueue v.priority pid).Paired := paired.congr rfl rfl
        exact off.editAwake (v := v) found (by simp [source]) (by simp) ⟨rfl, rfl, rfl⟩
      · exact paired.editAwake found (by simp [source]) (by simp) ⟨rfl, rfl, rfl⟩
  | @buried pid st broken finished target kept =>
      have dead : st ≠ .wakeme := by rcases target with rfl | rfl <;> simp
      refine (paired.edit (f := fun v => { v with state := st })
        (fun v found => ?_) fun _ _ => ⟨rfl, rfl, rfl⟩).congr rfl rfl
      refine ⟨fun h => absurd h dead, fun asleep => ?_⟩
      simpa [finished v found] using wf.alive _ v found (.inl asleep)
  | @picked pid place pri queued source low =>
      have off : (b.unqueue place pid).Paired := paired.congr rfl rfl
      refine off.edit (fun v found => ?_) fun _ _ => ⟨rfl, rfl, rfl⟩
      rcases source v found with h | h | h | h <;> simp [h]
  | made fresh alive awake bounded => exact paired.made wf fresh awake
  | reaped found finished => exact paired.reaped wf found finished
  | reprioritized pid bounded unqueued =>
      exact paired.edit (fun _ _ => Iff.rfl) fun _ _ => ⟨rfl, rfl, rfl⟩
  | regrouped found running =>
      exact paired.edit (fun _ _ => Iff.rfl) fun _ _ => ⟨rfl, rfl, rfl⟩

end Paired

end Board

end Ipnx
