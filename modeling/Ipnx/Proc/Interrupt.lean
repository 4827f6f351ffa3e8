import Ipnx.Proc.Fair
import Ipnx.Proc.Sleeping

/-!
# The clock's interrupt

What one call of `timerintr` does, in any state that the table comes to and at any time: the sleeps
whose time has come end, the other timed ones go on, and the HZ clock ticks at most once and is put
back to the first of its times that is past. In 64 bits that time need not exist.
-/

namespace Ipnx

namespace Board

variable {b b' : Board} {scope : Scope} {pid : Pid}

/-- No timer wakes the alarm process's `Rendez`. -/
def Apart (b : Board) : Prop := ∀ pid v, b.view pid = some v → v.trend ≠ some .alarmr

theorem Apart.edit (apart : b.Apart) {f : View → View}
    (keeps : ∀ v, b.view pid = some v → (f v).trend = v.trend ∨ (f v).trend ≠ some .alarmr) :
    (b.edit pid f).Apart := by
  intro q w found
  rcases view_of_edit found with ⟨-, there⟩ | ⟨rfl, v, there, rfl⟩
  · exact apart q w there
  · rcases keeps v there with same | away
    · rw [same]
      exact apart q v there
    · exact away

theorem Apart.rouse (apart : b.Apart) (moved : Rouse b b') : b'.Apart := by
  cases moved with
  | woken => exact Apart.edit (b := b.setRendez _ none) apart fun _ _ => .inr (by simp)
  | untimed => exact apart.edit fun _ _ => .inr (by simp)
  | met => exact Apart.edit (b := b.leavergrp _ _) apart fun _ _ => .inl rfl
  | shifted => exact Apart.edit (b := b.unqueue _ _) apart fun _ _ => .inl rfl

theorem Apart.move (apart : b.Apart) (away : ∀ r, scope.sleeps r → r ≠ .alarmr)
    (moved : Move scope b b') : b'.Apart := by
  have slept (q : Pid) (r r' : Rid) (who : Option Pid) :
      ((b.sleepOn q r).setRendez r' who).Apart := by
    intro p v found
    apply apart p v
    simpa [setRendez] using found
  cases moved with
  | @slept q _ _ trend twhen found running alive mine there timer =>
      apply (slept _ _ _ _).edit
      intro v here
      have same : b.view q = some v := by simpa [setRendez] using here
      obtain rfl := Option.some_inj.mp (found.symm.trans same)
      rcases timer with ⟨old, -⟩ | ⟨new, -⟩
      · exact .inl old
      · right
        simpa [new] using away _ there
  | spared r timed =>
      apply (slept _ _ _ _).edit
      intro v _
      cases timed
      · exact .inl rfl
      · exact .inr (by simp)
  | rouse moved => exact apart.rouse moved
  | culled =>
      split_ifs
      · exact Apart.edit (b := b.unqueue _ _) apart fun _ _ => .inl rfl
      · exact apart.edit fun _ _ => .inl rfl
  | picked => exact Apart.edit (b := b.unqueue _ _) apart fun _ _ => .inl rfl
  | made fresh alive awake =>
      intro q w found
      simp only [Function.update_apply] at found
      split_ifs at found
      · rw [← Option.some_inj.mp found, awake.2.1]
        simp
      · exact apart q w found
  | reaped =>
      intro q w found
      simp only [Function.update_apply] at found
      split_ifs at found
      exact apart q w found
  | ready | gathered | parked | exited | buried | reprioritized | regrouped =>
      exact apart.edit fun _ _ => .inl rfl

theorem Apart.moves (apart : b.Apart) (away : ∀ r, scope.sleeps r → r ≠ .alarmr)
    (moved : Relation.ReflTransGen (Move scope) b b') : b'.Apart := by
  induction moved with
  | refl => exact apart
  | tail _ next ih => exact ih.move away next

end Board

def Proc.nap (p : Proc) : State × Option Rid × Option Rid × Option Nat :=
  (p.view.state, p.view.r, p.view.trend, p.view.twhen)

theorem Quiet.nap {f : Proc → Proc} (quiet : Quiet f) (p : Proc) : (f p).nap = p.nap :=
  congrArg (fun v : View => (v.state, v.r, v.trend, v.twhen)) (quiet.view p)

namespace Procs

variable {s s' s'' : Procs} {pid : Pid} {kept : Pid → Prop}

def nap (s : Procs) (pid : Pid) : Option (State × Option Rid × Option Rid × Option Nat) :=
  (s.tab pid).map Proc.nap

/-- The kept processes' sleeps and the HZ clock are as they were. -/
structure Still (kept : Pid → Prop) (s s' : Procs) : Prop where
  nap : ∀ pid, kept pid → s'.nap pid = s.nap pid
  hz : s'.m.hz = s.m.hz
  ticks : s'.m.ticks = s.m.ticks

namespace Still

theorem of_tab (tab : s'.tab = s.tab) (hz : s'.m.hz = s.m.hz) (ticks : s'.m.ticks = s.m.ticks) :
    Still kept s s' :=
  ⟨fun pid _ => by rw [Procs.nap, Procs.nap, tab], hz, ticks⟩

theorem refl : Still kept s s := of_tab rfl rfl rfl

theorem trans (before : Still kept s s') (after : Still kept s' s'') : Still kept s s'' where
  nap q mine := (after.nap q mine).trans (before.nap q mine)
  hz := after.hz.trans before.hz
  ticks := after.ticks.trans before.ticks

theorem modify {f : Proc → Proc} (keeps : kept pid → ∀ p, (f p).nap = p.nap) :
    Still kept s (s.modify pid f) := by
  refine ⟨fun q mine => ?_, rfl, rfl⟩
  rcases eq_or_ne q pid with rfl | differs
  · simp [Procs.nap, Function.comp_def, keeps mine]
  · simp [Procs.nap, differs]

theorem setRendez (r : Rid) (who : Option Pid) : Still kept s (s.setRendez r who) := by
  unfold Procs.setRendez
  split
  · exact .modify fun _ _ => rfl
  · exact .modify fun _ _ => rfl
  · exact .of_tab rfl rfl rfl

theorem updatecpu (running : Bool) : Still kept s (s.updatecpu pid running) :=
  .modify fun _ => (quiet_updatecpuAt _ _).nap

theorem queueproc (pri : Nat) : Still kept s (s.queueproc pri pid) := by
  have placed : Still kept s (s.modify pid fun p => { p with priority := pri }) :=
    .modify fun _ _ => rfl
  exact placed.trans (.of_tab rfl rfl rfl)

theorem ready (free : ¬kept pid) : Still kept s (s.ready pid) := by
  have claimed : Still kept s (s.claim pid) := by
    rw [claim]
    split_ifs
    · exact .refl
    · exact .of_tab rfl rfl rfl
  have updated : Still kept s ((s.claim pid).updatecpu pid (s.up == some pid)) :=
    claimed.trans (.updatecpu _)
  rw [Procs.ready]
  exact (updated.trans (.modify fun mine => absurd mine free)).trans (.queueproc _)

theorem wakeup {r : Rid} (free : ∀ q, s.rendez r = some q → ¬kept q) :
    Still kept s (s.wakeup r).2 := by
  rw [Procs.wakeup]
  split
  · exact .refl
  · rename_i q there
    split_ifs
    · have unslept : Still kept s ((s.setRendez r none).modify q Proc.unslept) :=
        (Still.setRendez r none).trans (.modify fun mine => absurd mine (free q there))
      exact unslept.trans (.ready (free q there))
    · exact .refl

theorem another (pri : Nat) : Still kept s (s.another pri) := by
  fun_induction Procs.another s pri with
  | case1 => exact .refl
  | case2 => exact .refl
  | case3 => exact .updatecpu _
  | case4 s pid rest first elsewhere t npri differs ih =>
      have off : Still kept t (t.dequeueproc pri pid).2 := by
        rw [dequeueproc]
        split_ifs
        · exact .of_tab rfl rfl rfl
        · exact .refl
      exact (((Still.updatecpu _).trans off).trans (.queueproc npri)).trans ih

theorem rebalance : Still kept s s.rebalance := by
  have loops (list : List Nat) (t : Procs) : Still kept t (list.foldl Procs.another t) := by
    induction list generalizing t with
    | nil => exact .refl
    | cons pri rest ih => exact (Still.another pri).trans (ih _)
  rw [Procs.rebalance]
  simp only
  split_ifs
  · exact .refl
  · have stamped : Still kept s { s with m := { s.m with balancetime := s.m.ticks } } :=
      .of_tab rfl rfl rfl
    exact stamped.trans (loops _ _)

theorem accounttime (now : Nat) : Still kept s (s.accounttime now) := by
  have charged : Still kept s s.charge := by
    rw [charge]
    split
    · exact .refl
    · have run : Still kept s { s with m := { s.m with nrun := s.m.nrun + 1 } } :=
        .of_tab rfl rfl rfl
      refine run.trans (.modify fun _ p => ?_)
      split_ifs <;> rfl
  exact charged.trans (.of_tab rfl rfl rfl)

theorem hzclock (kept : Pid → Prop) (now : Nat) (free : ∀ q, s.rendez .alarmr = some q → ¬kept q) :
    Still kept { s with m := { s.m with ticks := s.m.ticks + 1 } } (s.hzclock now) := by
  let t : Procs := { s with m := { s.m with ticks := s.m.ticks + 1 } }
  have counted : Still kept t (t.accounttime now) := .accounttime now
  have checked : Still kept t (t.accounttime now).checkalarms := by
    rw [checkalarms]
    split_ifs
    · refine counted.trans (.wakeup fun q there => free q ?_)
      rw [← there]
      have same : (t.accounttime now).rr = s.rr := by
        simp only [Procs.accounttime, charge]
        split <;> rfl
      exact congrFun same.symm .alarmr
    · exact counted
  rw [Procs.hzclock]
  generalize (t.accounttime now).checkalarms = u at checked
  split
  · split_ifs
    · rw [hzsched]
      simp only
      split_ifs
      · have balanced : Still kept u u.rebalance := .rebalance
        have none : Still kept u.rebalance
            { u.rebalance with m := { u.rebalance.m with readied := none } } := .of_tab rfl rfl rfl
        exact ((checked.trans balanced).trans none).trans (.modify fun _ _ => rfl)
      · exact checked.trans .rebalance
    · exact checked
  · exact checked

end Still

theorem Still.mono {more : Pid → Prop} (still : Still more s s') (fewer : ∀ q, kept q → more q) :
    Still kept s s' :=
  ⟨fun q mine => still.nap q (fewer q mine), still.hz, still.ticks⟩

theorem still_twakeup (paired : s.board.Paired) : Still (· ≠ pid) s (s.twakeup pid) := by
  rw [twakeup]
  split
  · rename_i r set
    rcases Option.bind_eq_some_iff.mp set with ⟨p, found, timed⟩
    have untimed : Still (· ≠ pid) s (s.modify pid Proc.untimed) :=
      .modify fun mine => absurd rfl mine
    refine untimed.trans (.wakeup fun q there => not_not.mpr ?_)
    rcases paired.timed (board_view found) timed with ⟨-, -, named⟩
    rw [rendez_modify (f := Proc.untimed) (fun _ => rfl) (fun _ => rfl)] at there
    exact Option.some_inj.mp (there.symm.trans named)
  · exact .refl

theorem still_walk {walk : List Pid} (inv : s.board.Inv) (single : s.board.doublesleep = 0) :
    Still (· ∉ walk) s (walk.foldl twakeup s) := by
  induction walk generalizing s with
  | nil => exact .refl
  | cons q rest ih =>
      have turned : Rises s (s.twakeup q) := steps_twakeup inv
      have first : Still (· ≠ q) s (s.twakeup q) := still_twakeup (inv.paired single)
      have later := ih (turned.riseInv inv) ((Board.doublesleep_rouses turned).trans single)
      refine (first.mono fun p apart => ?_).trans (later.mono fun p apart => ?_)
      · exact List.ne_of_not_mem_cons apart
      · exact List.not_mem_of_not_mem_cons apart

theorem still_profintr (now : Nat) : Still kept s (s.profintr now) := by
  rw [profintr]
  split
  · split_ifs
    · exact .of_tab rfl rfl rfl
    · exact .refl
  · exact .refl

def hztick : Nat := 1000000000 / hz

/-- What one interrupt is to do: the sleeps whose time has come end, those whose time has not go on,
and the HZ clock ticks once if it was due, and is then the fewest whole periods later that are
past. -/
structure Punctual (s : Procs) (order : List Pid) (now : Nat) : Prop where
  woken : ∀ pid p w, s.tab pid = some p → p.state = .wakeme → p.twhen = some w → w ≤ now →
    ∃ r, p.r = some r ∧ Roused s (s.timerintr order now) pid r
  waits : ∀ pid p w, s.tab pid = some p → p.state = .wakeme → p.twhen = some w → now < w →
    (s.timerintr order now).nap pid = s.nap pid
  ticks : (s.timerintr order now).m.ticks = s.m.ticks + if s.m.hz.any (· ≤ now) then 1 else 0
  idle : ¬s.m.hz.any (· ≤ now) → (s.timerintr order now).m.hz = s.m.hz
  next : ∀ due, s.m.hz = some due → due ≤ now → ∃ k,
    (s.timerintr order now).m.hz = some (due + k * hztick) ∧ now < due + k * hztick ∧
      ∀ j, now < due + j * hztick → k ≤ j

/-- The first time of the HZ clock that is past fits in 64 bits. -/
def Fits (s : Procs) (now : Nat) : Prop :=
  ∀ due, s.m.hz = some due → due ≤ now → due + ((now - due) / hztick + 1) * hztick < 2 ^ 64

theorem periods {due now k : Nat} (come : due ≤ now) :
    now < due + k * hztick ↔ (now - due) / hztick + 1 ≤ k := by
  rw [Nat.succ_le_iff, Nat.div_lt_iff_lt_mul (by decide)]
  omega

theorem rearm_late {due now : Nat} (come : due ≤ now)
    (wraps : 2 ^ 64 ≤ due + ((now - due) / hztick + 1) * hztick) : rearm hztick due now ≤ now := by
  have part : (now - due) / hztick * hztick ≤ now - due := Nat.div_mul_le_self _ _
  have wrapped := Nat.mod_le (due + ((now - due) / hztick + 1) * hztick - 2 ^ 64) (2 ^ 64)
  have small : hztick ≤ 2 ^ 64 := by decide
  rw [rearm, Nat.mod_eq_sub_mod wraps]
  rw [Nat.succ_mul] at wrapped ⊢
  omega

section
variable {order : List Pid} {now : Nat}

theorem still_fired (inv : s.board.Inv) (single : s.board.doublesleep = 0) :
    Still (· ∉ s.due order now) s
      (((s.profintr now).due order now).foldl twakeup (s.profintr now)) := by
  have same := board_profintr (s := s) now
  have tab : (s.profintr now).due order now = s.due order now := by
    have kept : (s.profintr now).tab = s.tab := by
      rw [profintr]
      split
      · split_ifs <;> rfl
      · rfl
    simp only [due, kept]
  have walked : Still (· ∉ (s.profintr now).due order now) (s.profintr now) _ :=
    still_walk (same ▸ inv) (same ▸ single)
  exact (still_profintr now).trans (tab ▸ walked)

theorem hzintr_due {due : Nat} (set : s.m.hz = some due) (come : due ≤ now) :
    s.hzintr now =
      { s with m := { s.m with hz := some (rearm hztick due now) } }.hzclock now := by
  simp only [hzintr, set, if_pos come]
  rfl

theorem hzintr_idle (idle : ¬s.m.hz.any (· ≤ now)) : s.hzintr now = s := by
  rw [hzintr]
  split
  · rename_i due set
    have early : ¬due ≤ now := by simpa [set] using idle
    rw [if_neg early]
  · rfl

theorem waits_timerintr {p : Proc} {w : Nat} (inv : s.board.Inv)
    (single : s.board.doublesleep = 0) (apart : s.board.Apart) (found : s.tab pid = some p)
    (asleep : p.state = .wakeme) (set : p.twhen = some w) (early : now < w) :
    (s.timerintr order now).nap pid = s.nap pid := by
  let t := ((s.profintr now).due order now).foldl twakeup (s.profintr now)
  have fired : Still (· ∉ s.due order now) s t := still_fired inv single
  have later : pid ∉ s.due order now := by
    intro due
    have come := (List.mem_filter.mp due).2
    simp [found, set] at come
    omega
  have same : t.nap pid = s.nap pid := fired.nap pid later
  have risen : Rises s t := by
    have profiled := board_profintr (s := s) now
    exact (Steps.of_board profiled).trans
      (Steps.foldl (fun _ _ => steps_twakeup) _ (profiled ▸ inv))
  have paired : t.board.Paired :=
    (risen.riseInv inv).paired ((Board.doublesleep_rouses risen).trans single)
  have elsewhere : t.rendez .alarmr ≠ some pid := by
    intro there
    rcases paired.named .alarmr pid there with ⟨v, view, -, link⟩
    rcases tab_of_board_view view with ⟨q, here, rfl⟩
    have naps : q.nap = p.nap := by simpa [nap, here, found] using same
    have linked : p.r = some .alarmr := (congrArg (·.2.1) naps).symm.trans link
    rcases (inv.paired single).timer pid _ (board_view found) asleep with ⟨own, -⟩ | ⟨-, unset⟩
    · exact apart pid _ (board_view found) (own.trans linked)
    · exact Option.some_ne_none w (set.symm.trans unset)
  have ticked : (t.hzintr now).nap pid = t.nap pid := by
    by_cases idle : t.m.hz.any (· ≤ now)
    · rcases (Option.any_eq_true _ _).mp idle with ⟨due, armed, come⟩
      rw [hzintr_due armed (of_decide_eq_true come)]
      have clocked := Still.hzclock
        (s := { t with m := { t.m with hz := some (rearm hztick due now) } }) (· = pid) now
        fun q there mine => elsewhere (mine ▸ there)
      exact clocked.nap pid rfl
    · rw [hzintr_idle idle]
  exact ticked.trans same

theorem clock_timerintr (order : List Pid) (now : Nat) (inv : s.board.Inv)
    (single : s.board.doublesleep = 0) :
    (¬s.m.hz.any (· ≤ now) ∧ (s.timerintr order now).m.hz = s.m.hz ∧
      (s.timerintr order now).m.ticks = s.m.ticks) ∨
    ∃ due, s.m.hz = some due ∧ due ≤ now ∧
      (s.timerintr order now).m.hz = some (rearm hztick due now) ∧
      (s.timerintr order now).m.ticks = s.m.ticks + 1 := by
  let t := ((s.profintr now).due order now).foldl twakeup (s.profintr now)
  have fired : Still (· ∉ s.due order now) s t := still_fired inv single
  have whole : s.timerintr order now = t.hzintr now := rfl
  rw [whole, ← fired.hz, ← fired.ticks]
  by_cases idle : t.m.hz.any (· ≤ now)
  · rcases (Option.any_eq_true _ _).mp idle with ⟨due, armed, come⟩
    right
    refine ⟨due, armed, of_decide_eq_true come, ?_⟩
    rw [hzintr_due armed (of_decide_eq_true come)]
    have clocked := Still.hzclock
      (s := { t with m := { t.m with hz := some (rearm hztick due now) } }) (fun _ => False) now
      fun _ _ => id
    exact ⟨clocked.hz, clocked.ticks⟩
  · left
    rw [hzintr_idle idle]
    exact ⟨idle, rfl, rfl⟩

theorem punctual_iff (inv : s.board.Inv) (single : s.board.doublesleep = 0)
    (apart : s.board.Apart) (listed : ∀ pid, s.tab pid ≠ none → pid ∈ order) :
    Punctual s order now ↔ s.Fits now := by
  have clock := clock_timerintr order now inv single
  constructor
  · intro punctual due armed come
    rcases punctual.next due armed come with ⟨k, set, past, -⟩
    by_contra wraps
    rcases clock with ⟨idle, -⟩ | ⟨due', armed', -, put, -⟩
    · simp [armed, come] at idle
    · obtain rfl : due = due' := Option.some_inj.mp (armed.symm.trans armed')
      have late := rearm_late come (not_lt.mp wraps)
      have same : due + k * hztick = rearm hztick due now :=
        Option.some_inj.mp (set.symm.trans put)
      omega
  · intro fits
    refine ⟨fun pid p w found asleep set come => ?_, fun pid p w found asleep set early => ?_,
      ?_, fun idle => ?_, fun due armed come => ?_⟩
    · rcases (inv.paired single).link pid _ (board_view found) asleep with ⟨r, link, -⟩
      have late : pid ∈ s.due order now := by
        apply List.mem_filter.mpr
        exact ⟨listed pid (by simp [found]), by simp [found, asleep, set, come]⟩
      have slept : s.slept pid = some r := by
        simp only [Procs.slept, found, Option.bind_some]
        exact link
      exact ⟨r, link, roused_timerintr inv single late slept⟩
    · exact waits_timerintr inv single apart found asleep set early
    · rcases clock with ⟨idle, -, ticks⟩ | ⟨due, armed, come, -, ticks⟩
      · simp [idle, ticks]
      · simp [armed, come, ticks]
    · rcases clock with ⟨-, same, -⟩ | ⟨due, armed, come, -⟩
      · exact same
      · simp [armed, come] at idle
    · rcases clock with ⟨idle, -⟩ | ⟨due', armed', -, put, -⟩
      · simp [armed, come] at idle
      · obtain rfl : due = due' := Option.some_inj.mp (armed.symm.trans armed')
        refine ⟨(now - due) / hztick + 1, ?_, (periods come).mpr le_rfl,
          fun j past => (periods come).mp past⟩
        rw [put, rearm, Nat.mod_eq_of_lt (fits due armed come)]

end

/-- The operations are called as promised, and no timer is set for the alarm process. -/
def Prompt (s : Procs) : Beat → Prop
  | .act a => Callers Active s a ∧ ∀ pid happened deadline,
      a ≠ .tsleep pid .alarmr happened deadline
  | _ => True

theorem apart_step {a : Act} (inv : s.board.Inv) (apart : s.board.Apart)
    (prompt : Prompt s (.act a)) : (s.step a).board.Apart := by
  rcases prompt with ⟨called, timers⟩
  have moves (within : s.Within { Scope.any with sleeps := (· ≠ .alarmr) } a) :
      (s.step a).board.Apart := by
    have made := moves_step inv called within
    exact Board.Apart.moves apart (fun _ => id) made
  cases a with
  | sleep pid r happened =>
      rcases called with ⟨⟨-, p, found, -, -⟩, mine⟩
      have there : s.tab pid ≠ none := by simp [found]
      have same := board_sleep happened there mine
      have counted (who : Option Pid) : ((s.board.sleepOn pid r).setRendez r who).Apart := by
        intro q v here
        apply apart q v
        simpa [Board.setRendez] using here
      rw [step, same]
      split_ifs
      · exact (counted _).edit fun _ _ => .inl rfl
      · exact counted none
  | tsleep pid r happened deadline =>
      apply moves
      rintro rfl
      exact timers pid happened deadline rfl
  | _ => exact moves (by simp [Within, Scope.any])

theorem sound_of_reach (reached : clocked.Reach Prompt s) : s.board.Inv ∧ s.board.Apart := by
  refine System.Reach.invariant (fun s => s.board.Inv ∧ s.board.Apart) (fun s first => ?_)
    (fun s t s' sound prompt moved => ?_) reached
  · obtain rfl : s = Procs.new := first
    refine ⟨inv_new, fun pid v found => ?_⟩
    rcases new_view found with ⟨-, rfl⟩
    simp [Proc.view, Proc.root]
  · obtain rfl : s' = s.clockstep t := moved
    cases t with
    | act a =>
        have moves := moves_step sound.1 prompt.1 (within_any a)
        exact ⟨moves.inv sound.1, apart_step sound.1 sound.2 prompt⟩
    | update pid running =>
        have same : (s.updatecpu pid running).board = s.board := board_updatecpu running
        exact same ▸ sound
    | account now => exact board_accounttime (s := s) now ▸ sound
    | clocks ticks hz profclock => exact sound

/-- In every run without a double sleep, one interrupt does what it is to do, at any time, exactly
if the clock's next time fits in 64 bits. -/
theorem timerintr_punctual {order : List Pid} {now : Nat} (reached : clocked.Reach Prompt s)
    (single : s.doublesleep = 0) (listed : ∀ pid, s.tab pid ≠ none → pid ∈ order) :
    Punctual s order now ↔ s.Fits now := by
  have sound := sound_of_reach reached
  exact punctual_iff sound.1 single sound.2 listed

def dozing : Procs :=
  (Procs.new.step (.tsleep 1 (.proc 1 .sleep) false 500)).setclocks 0 (some 400) none

theorem reach_dozing : clocked.Reach Prompt dozing := by
  have active : Active Procs.new 1 := ⟨rfl, Proc.root 1, rfl, rfl, rfl⟩
  refine .step (a := .clocks 0 (some 400) none) (.step
    (a := .act (.tsleep 1 (.proc 1 .sleep) false 500)) (.init rfl) ⟨⟨active, ?_⟩, ?_⟩ rfl)
    trivial rfl
  · simp [Rid.OpenTo, Rid.owner]
  · rintro pid happened deadline same
    cases same

theorem listed_dozing (pid : Pid) (there : dozing.tab pid ≠ none) : pid ∈ [1] := by
  have fresh := (sound_of_reach reach_dozing).1.wf.fresh pid
  have known : pid < 2 := by
    by_contra later
    have absent : (dozing.tab pid).map Proc.view = none := (fresh (not_lt.mp later)).1
    exact there (Option.map_eq_none_iff.mp absent)
  have first : dozing.tab 0 = none := rfl
  rcases pid with _ | pid
  · exact absurd first there
  · obtain rfl : pid = 0 := Nat.lt_one_iff.mp (Nat.succ_lt_succ_iff.mp known)
    exact List.mem_singleton_self 1

theorem fits_dozing : dozing.Fits 500 ∧ ¬dozing.Fits (2 ^ 64 - 1) := by
  refine ⟨fun due armed come => ?_, fun fits => ?_⟩
  · obtain rfl : 400 = due := Option.some_inj.mp armed
    decide
  · have small := fits 400 rfl (by decide)
    exact absurd small (by decide)

theorem timerintr_punctual_dozing :
    Punctual dozing [1] 500 ∧ ¬Punctual dozing [1] (2 ^ 64 - 1) := by
  constructor
  · exact (timerintr_punctual reach_dozing rfl listed_dozing).mpr fits_dozing.1
  · exact fun punctual =>
      fits_dozing.2 ((timerintr_punctual reach_dozing rfl listed_dozing).mp punctual)

/-- At the last time that 64 bits have, the clock is put back to a time that is long past. -/
theorem timerintr_punctual_fails : ¬∀ s order now, clocked.Reach Prompt s → s.doublesleep = 0 →
    (∀ pid, s.tab pid ≠ none → pid ∈ order) → now < 2 ^ 64 → Punctual s order now := by
  intro holds
  have sound := sound_of_reach reach_dozing
  have punctual := holds dozing [1] (2 ^ 64 - 1) reach_dozing rfl listed_dozing (by decide)
  exact fits_dozing.2 ((punctual_iff sound.1 rfl sound.2 listed_dozing).mp punctual)

end Procs

end Ipnx
