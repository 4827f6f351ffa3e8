import Ipnx.Machine.Terminal
import Ipnx.Machine.Web

/-!
# Forks on both machines

Both machines hand over every fork, in every run in which no tracer stops an `rfork` between
its child and its answer and no parent is lost while its stack unwinds. A tracer that does
stop one there ends the system.
-/

namespace Ipnx

/-- Every run of either machine hands its forks over. -/
theorem forks_handed (m : Terminal) (w : Web) :
    (Terminal.system.Reach Terminal.Smooth m → m.view.Handed) ∧
      (Web.system.Reach Web.Smooth w → w.view.Handed) := by
  refine ⟨?_, ?_⟩
  · intro reached
    exact (Terminal.inv_of_reach reached).handed
  · intro reached
    exact (Web.inv_of_reach reached).1.handed

namespace Terminal

variable {ok : Terminal → Act → Prop} {m : Terminal} {t : Task}

theorem reach_enter (reached : system.Reach ok m) (pid : Pid) (go : Going)
    (script : List Event) (sound : m.failed = none) (found : m.kern.tab pid = some t)
    (live : t.ended = false) (allowed : ok m (.enter pid go script)) :
    system.Reach ok (m.enter pid go script) :=
  .step reached allowed ⟨rfl, sound, t, found, live⟩

theorem reach_ctl (reached : system.Reach ok m) (pid : Pid) (c : Option Procctl)
    (sound : m.failed = none) (allowed : ok m (.ctl pid c)) :
    system.Reach ok { m with kern := m.kern.ctl pid c } :=
  .step reached allowed ⟨rfl, sound, trivial⟩

theorem smooth_enter (pid : Pid) (go : Going) (script : List Event)
    (outside : m.procs pid = some .image ∨ m.procs pid = some .user)
    (unwinds : go.unwind ≠ .trapped)
    (later : ∀ c go, .call c go ∈ script → go.unwind ≠ .trapped) :
    m.Smooth (.enter pid go script) := by
  refine ⟨?_, unwinds, later⟩
  intro t c inside
  rcases outside with there | there <;> simp [there] at inside

end Terminal

namespace Web

variable {ok : Web → Act → Prop} {m m' : Web} {t : Task}

theorem reach_enter (reached : system.Reach ok m) (pid : Pid) (how : Course) (note : Notify)
    (sound : m.failed = none) (outside : m.cur = none) (found : m.kern.tab pid = some t)
    (live : t.ended = false) (allowed : ok m (.enter pid false how note)) :
    system.Reach ok (m.enter pid false how note) :=
  .step reached allowed ⟨by simp [step, outside], sound, t, found, live⟩

theorem reach_said (reached : system.Reach ok m) (s : Said) (sound : m.failed = none)
    (allowed : ok m (.said s)) (made : m.step (.said s) = some m') : system.Reach ok m' :=
  .step reached allowed ⟨made, sound, trivial⟩

theorem smooth_enter {s : St} (pid : Pid) (how : Course) (note : Notify)
    (there : m.st pid = some s) (outside : ∀ c, s ≠ .call c) :
    m.Smooth (.enter pid false how note) := by
  intro t c inside
  rw [there, Option.some.injEq] at inside
  exact absurd inside (outside c)

end Web

def Course.plain : Course := ⟨false, false, .no, false⟩

def Going.plain : Going := ⟨.plain, .no, .unwound false⟩

/-- On both machines the first process forks, and its child runs. -/
theorem forks_handed_ran :
    (∃ m, Terminal.system.Reach Terminal.Smooth m ∧ m.ran = [1, 2] ∧ m.view.Handed) ∧
      ∃ m, Web.system.Reach Web.Smooth m ∧ m.ran = [1, 2] ∧ m.view.Handed := by
  refine ⟨?_, ?_⟩
  · have booted : Terminal.system.Reach Terminal.Smooth Terminal.boot := .init rfl
    have forked := Terminal.reach_enter booted 1 .plain [.call (.rfork Rf.proc) .plain] rfl rfl rfl
      (Terminal.smooth_enter 1 _ _ (.inl rfl) (by decide) (by simp [Going.plain]))
    have ran := Terminal.reach_enter forked 2 .plain [] rfl rfl rfl
      (Terminal.smooth_enter 2 _ _ (.inr rfl) (by decide) (by simp))
    exact ⟨_, ran, rfl, (forks_handed _ Web.boot).1 ran⟩
  · have booted : Web.system.Reach Web.Smooth Web.boot := .init rfl
    have entered := Web.reach_enter booted 1 .plain .no rfl rfl rfl rfl
      (Web.smooth_enter 1 _ _ rfl (by simp))
    have called := Web.reach_said entered (.call (.rfork Rf.proc) .plain .no) rfl
      (fun _ _ _ _ => by simp) rfl
    have forked := Web.reach_said called (.forked false .no) rfl (fun _ _ _ _ => by simp) rfl
    have yielded := Web.reach_said forked .yield rfl (fun _ _ _ _ => by simp) rfl
    have ran := Web.reach_enter yielded 2 .plain .no rfl rfl rfl rfl
      (Web.smooth_enter 2 _ _ rfl (by simp))
    exact ⟨_, ran, rfl, (forks_handed Terminal.boot _).2 ran⟩

/-- A traced parent's `rfork` stops after it made its child, and the child is entered. -/
theorem forks_handed_fails : ∃ m, Terminal.system.Reachable m ∧
    m.failed = some "no such process" ∧ ¬m.view.Handed := by
  have booted : Terminal.system.Reach (fun _ _ => True) Terminal.boot := .init rfl
  have traced := Terminal.reach_ctl booted 1 (some .tracesyscall) rfl trivial
  have stopped := Terminal.reach_enter traced 1 .plain [.call (.rfork Rf.proc) .plain] rfl rfl rfl
    trivial
  have again := Terminal.reach_ctl stopped 1 (some .tracesyscall) rfl trivial
  have forked := Terminal.reach_enter again 1 .plain [] rfl rfl rfl trivial
  have entered := Terminal.reach_enter forked 2 .plain [] rfl rfl rfl trivial
  refine ⟨_, entered, rfl, ?_⟩
  intro handed
  have sound := handed.sound
  simp only [Terminal.view] at sound
  revert sound
  decide

end Ipnx
