import Ipnx.Proc.Run

/-!
# Sleep and wakeup

In every run in which no process exits while it is asleep, a process is `Wakeme` exactly
when the `Rendez` it says it sleeps on names it, and whatever ends a sleep, a wakeup, a note
or a timer, takes the process off its `Rendez` and queues it once.

`exits` undoes no sleep. A process that the kernel went on working for after its write to a
full pipe slept is `Moribund` and still named by the pipe's `Rendez`.
-/

namespace Ipnx

namespace Board

variable {b b' : Board} {pid : Pid}

def Free (b : Board) (pid : Pid) : Prop :=
  ∃ v, b.view pid = some v ∧ v.state = .ready ∧ v.r = none

theorem free_roused {v : View} {r : Rid} {pri : Nat} (found : b.view pid = some v) :
    (b.roused pid r pri).Free pid := by
  let f (v : View) : View :=
    { v with state := .ready, priority := pri, r := none, trend := none, twhen := none }
  have there : ((b.setRendez r none).edit pid f).view pid = some (f v) := by
    simp [edit_view, setRendez, found]
  exact ⟨f v, there, rfl, rfl⟩

theorem Free.edit (free : b.Free pid) {q : Pid} {f : View → View}
    (stays : ∀ v, b.view q = some v → v.state = .ready → (f v).state = .ready ∧ (f v).r = v.r) :
    (b.edit q f).Free pid := by
  rcases free with ⟨v, found, ready, unlinked⟩
  rcases eq_or_ne pid q with rfl | differs
  · have kept := stays v found ready
    exact ⟨f v, by simp [edit_view, found], kept.1, kept.2.trans unlinked⟩
  · exact ⟨v, by simpa [edit_view, differs] using found, ready, unlinked⟩

theorem Free.rouse (free : b.Free pid) (moved : Rouse b b') : b'.Free pid := by
  cases moved with
  | woken found asleep link low =>
      refine Free.edit (b := b.setRendez _ none) free fun v here ready => ?_
      obtain rfl : _ = v := by simpa using found.symm.trans here
      simp [asleep] at ready
  | untimed double => exact free.edit fun v _ ready => ⟨ready, rfl⟩
  | met found waiting low =>
      refine Free.edit (b := b.leavergrp _ _) free fun v here ready => ?_
      obtain rfl : _ = v := by simpa using found.symm.trans here
      simp [waiting] at ready
  | shifted queued low inside =>
      exact Free.edit (b := b.unqueue _ _) free fun v _ ready => ⟨ready, rfl⟩

theorem vacant_rouse {r : Rid} (vacant : b.rendez r = none) (moved : Rouse b b') :
    b'.rendez r = none := by
  cases moved with
  | @woken pid v r' pri found asleep link low =>
      rcases eq_or_ne r r' with rfl | differs
      · simp [roused, queue, edit, setRendez]
      · simpa [roused, queue, edit, setRendez, differs] using vacant
  | _ => exact vacant

theorem doublesleep_rouse (moved : Rouse b b') : b'.doublesleep = b.doublesleep := by
  cases moved <;> rfl

theorem Free.rouses (moves : Relation.ReflTransGen Rouse b b') (free : b.Free pid) :
    b'.Free pid := by
  induction moves with
  | refl => exact free
  | tail _ moved ih => exact ih.rouse moved

theorem vacant_rouses {r : Rid} (moves : Relation.ReflTransGen Rouse b b')
    (vacant : b.rendez r = none) : b'.rendez r = none := by
  induction moves with
  | refl => exact vacant
  | tail _ moved ih => exact vacant_rouse ih moved

theorem doublesleep_rouses (moves : Relation.ReflTransGen Rouse b b') :
    b'.doublesleep = b.doublesleep := by
  induction moves with
  | refl => rfl
  | tail _ moved ih => exact (doublesleep_rouse moved).trans ih

end Board

namespace Procs

variable {s s' : Procs} {pid : Pid}

def slept (s : Procs) (pid : Pid) : Option Rid := (s.tab pid).bind (·.r)

def queued (s : Procs) (pid : Pid) : Nat :=
  ∑ pri ∈ Finset.range Pri.nrq, (s.runq pri).count pid

/-- A process is asleep exactly when the `Rendez` it says it sleeps on names it. -/
def SleepPaired (s : Procs) : Prop :=
  ∀ pid, s.state pid = .wakeme ↔ ∃ r, s.slept pid = some r ∧ s.rendez r = some pid

/-- A sleep ended: the process was asleep at `r` and on no queue, and is now `Ready`, off
`r` at both ends, and queued once. -/
structure Roused (s s' : Procs) (pid : Pid) (r : Rid) : Prop where
  asleep : s.state pid = .wakeme ∧ s.slept pid = some r ∧ s.queued pid = 0
  ready : s'.state pid = .ready ∧ s'.queued pid = 1
  unlinked : s'.slept pid = none ∧ s'.rendez r = none

theorem state_eq {p : Proc} (found : s.tab pid = some p) : s.state pid = p.state := by
  simp [state, found]

theorem sleepPaired_of_paired (paired : s.board.Paired) : SleepPaired s := by
  intro pid
  constructor
  · intro asleep
    rcases board_view_of_state asleep (by simp) with ⟨v, found, is⟩
    rcases paired.link pid v found is with ⟨r, link, named⟩
    rcases tab_of_board_view found with ⟨p, here, rfl⟩
    exact ⟨r, by simpa [slept, here, Proc.view] using link, named⟩
  · rintro ⟨r, -, named⟩
    rcases paired.named r pid named with ⟨v, found, is, -⟩
    rcases tab_of_board_view found with ⟨p, here, rfl⟩
    exact (state_eq here).trans is

theorem roused_of_free {p : Proc} {r : Rid} (inv : s.board.Inv) (found : s.tab pid = some p)
    (asleep : p.state = .wakeme) (link : p.r = some r) (rises : Rises s s')
    (free : s'.board.Free pid) (vacant : s'.board.rendez r = none) : Roused s s' pid r where
  asleep := by
    refine ⟨(state_eq found).trans asleep, by simp [slept, found, link], ?_⟩
    exact inv.once.absent (board_view found) (by simp [Proc.view, asleep])
  ready := by
    rcases free with ⟨v, there, ready, -⟩
    rcases tab_of_board_view there with ⟨q, here, rfl⟩
    exact ⟨(state_eq here).trans ready, (rises.riseInv inv).once.ready pid _ there ready⟩
  unlinked := by
    rcases free with ⟨v, there, -, unlinked⟩
    rcases tab_of_board_view there with ⟨q, here, rfl⟩
    exact ⟨by simpa [slept, here, Proc.view] using unlinked, vacant⟩

theorem vacant_roused {b : Board} {r : Rid} {pri : Nat} : (b.roused pid r pri).rendez r = none := by
  simp [Board.roused, Board.queue, Board.edit, Board.setRendez]

theorem roused_of_board {p : Proc} {r : Rid} (inv : s.board.Inv) (found : s.tab pid = some p)
    (asleep : p.state = .wakeme) (link : p.r = some r)
    (roused : ∃ pri ≤ p.basepri, s'.board = s.board.roused pid r pri) : Roused s s' pid r := by
  have rises : Rises s s' := .of_roused (board_view found) asleep link roused
  rcases roused with ⟨pri, -, same⟩
  exact roused_of_free inv found asleep link rises (same ▸ Board.free_roused (board_view found))
    (same ▸ vacant_roused)

theorem free_of_walk {p : Proc} {r : Rid} {walk : List Pid} (inv : s.board.Inv)
    (single : s.board.doublesleep = 0) (found : s.tab pid = some p) (timed : p.trend = some r)
    (member : pid ∈ walk) :
    (walk.foldl twakeup s).board.Free pid ∧ (walk.foldl twakeup s).board.rendez r = none := by
  induction walk generalizing s p with
  | nil => simp at member
  | cons q rest ih =>
      have turned : Rises s (s.twakeup q) := steps_twakeup inv
      rcases eq_or_ne q pid with rfl | differs
      · rcases board_twakeup (inv.paired single) found timed with ⟨pri, -, same⟩
        have rises : Rises (s.twakeup q) (rest.foldl twakeup (s.twakeup q)) :=
          Steps.foldl (fun _ _ => steps_twakeup) rest (turned.riseInv inv)
        exact ⟨Board.Free.rouses rises (same ▸ Board.free_roused (board_view found)),
          Board.vacant_rouses rises (same ▸ vacant_roused)⟩
      · have still : ∃ p', (s.twakeup q).tab pid = some p' ∧ p'.trend = some r := by
          rcases armed : (s.tab q).bind (·.trend) with _ | t
          · rw [twakeup_untimed armed]
            exact ⟨p, found, timed⟩
          · rcases Option.bind_eq_some_iff.mp armed with ⟨pq, there, timedq⟩
            rcases board_twakeup (inv.paired single) there timedq with ⟨pri, -, same⟩
            have view : (s.twakeup q).board.view pid = some p.view := by
              rw [same]
              refine (Board.edit_view _ q pid _).trans ?_
              rw [if_neg differs.symm]
              exact board_view found
            rcases tab_of_board_view view with ⟨p', here, alike⟩
            exact ⟨p', here, (congrArg View.trend alike).trans timed⟩
        rcases still with ⟨p', here, timed'⟩
        exact ih (turned.riseInv inv) ((Board.doublesleep_rouses turned).trans single) here
          timed' (by
          simpa [differs.symm] using member)

theorem roused_timerintr {order : List Pid} {now : Nat} {r : Rid} (inv : s.board.Inv)
    (single : s.board.doublesleep = 0) (late : pid ∈ s.due order now)
    (link : s.slept pid = some r) : Roused s (s.timerintr order now) pid r := by
  rcases List.mem_filter.mp late with ⟨listed, fires⟩
  rcases found : s.tab pid with _ | p
  · simp [found] at fires
  simp only [found, Option.any_some, Bool.and_eq_true, beq_iff_eq] at fires
  have linked : p.r = some r := by simpa [slept, found] using link
  have timed : p.trend = some r := by
    rcases (inv.paired single).timer pid _ (board_view found) fires.1 with ⟨same, -⟩ | ⟨-, unset⟩
    · exact same.trans linked
    · simp [show p.twhen = none from unset] at fires
  have same := board_profintr (s := s) now
  have tab : (s.profintr now).tab = s.tab := by
    unfold profintr
    split
    · split <;> rfl
    · rfl
  have member : pid ∈ (s.profintr now).due order now := by
    simpa [due, tab] using late
  have walked := free_of_walk (same ▸ inv) (same ▸ single) ((congrFun tab pid).trans found)
    timed member
  have fired : Rises (s.profintr now)
      (((s.profintr now).due order now).foldl twakeup (s.profintr now)) :=
    Steps.foldl (fun _ _ => steps_twakeup) _ (same ▸ inv)
  have ticked := steps_hzintr now (fired.riseInv (same ▸ inv))
  exact roused_of_free inv found fires.1 linked (steps_timerintr order now inv)
    (Board.Free.rouses ticked walked.1) (Board.vacant_rouses ticked walked.2)

/-- In every run in which a process that went to sleep does nothing before it is woken, the
sleeps and the `Rendez` agree while `doublesleep` is 0, and a wakeup, a note or a timer that
is due ends the sleep it is for at both ends and queues the process once. -/
theorem sleep_paired (reached : table.Reach (Callers Active) s) (single : s.doublesleep = 0) :
    SleepPaired s ∧
    (∀ r pid, s.rendez r = some pid →
      (s.wakeup r).1 = some pid ∧ Roused s (s.wakeup r).2 pid r) ∧
    (∀ pid r msg flag, s.state pid = .wakeme → s.slept pid = some r →
      Roused s (s.postnote pid msg flag).2 pid r) ∧
    (∀ order now pid r, pid ∈ s.due order now → s.slept pid = some r →
      Roused s (s.timerintr order now) pid r) ∧
    ∀ pid, s.queued pid ≤ 1 := by
  have inv := inv_of_reach (fun _ _ called => called) reached
  have paired := inv.paired single
  refine ⟨sleepPaired_of_paired paired, ?_, ?_, ?_, inv.once.le⟩
  · intro r pid named
    rcases paired.named r pid named with ⟨v, view, asleep, link⟩
    rcases tab_of_board_view view with ⟨p, found, rfl⟩
    refine ⟨?_, roused_of_board inv found asleep link (board_wakeup named found asleep link)⟩
    rw [wakeup_asleep named found asleep link]
  · intro pid r msg flag asleep link
    rcases board_view_of_state asleep (by simp) with ⟨v, view, is⟩
    rcases tab_of_board_view view with ⟨p, found, rfl⟩
    have linked : p.r = some r := by simpa [slept, found] using link
    exact roused_of_board inv found is linked (board_postnote msg flag found is linked)
  · intro order now pid r late link
    exact roused_timerintr inv single late link

def blocked : Procs := forked.step (.sleep 1 (.wr .pipe 0 1) false)

theorem reach_blocked {may : Procs → Pid → Prop} (new : may Procs.new 1) (then_ : may forked 1) :
    table.Reach (Callers may) blocked :=
  .step (a := .sleep 1 (.wr .pipe 0 1) false) (reach_forked new callers_forked.2)
    ⟨then_, by simp [Rid.OpenTo, Rid.owner]⟩ rfl

theorem sleep_paired_blocked : blocked.doublesleep = 0 ∧ SleepPaired blocked ∧
    Roused blocked (blocked.wakeup (.wr .pipe 0 1)).2 1 (.wr .pipe 0 1) := by
  have reached : table.Reach (Callers Active) blocked :=
    reach_blocked callers_forked.1 ⟨rfl, _, rfl, rfl, rfl⟩
  have holds := sleep_paired reached (by decide)
  exact ⟨by decide, holds.1, (holds.2.1 _ 1 (by decide)).2⟩

/-- A process that exits while it is asleep stays linked to the `Rendez` it slept on, and
the kernel can come there: it goes on working for a process whose write slept. -/
theorem sleep_paired_fails :
    ¬∀ s, table.Reach (Callers Entered) s → s.doublesleep = 0 → SleepPaired s := by
  intro holds
  have reached : table.Reach (Callers Entered) (blocked.step (.exits 1 "Suicide")) :=
    .step (a := .exits 1 "Suicide") (reach_blocked rfl rfl) (.inl rfl) rfl
  have paired := holds _ reached (by decide) 1
  have asleep := paired.mpr ⟨.wr .pipe 0 1, by decide, by decide⟩
  exact absurd asleep (by decide)

end Procs

end Ipnx
