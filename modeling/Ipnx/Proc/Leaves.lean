import Ipnx.Proc.Run

/-!
# What the table's operations leave of a process

Most of what a debugger goes by is nothing scheduling depends on, and the moves do not show
it. `Leaves` is what every operation but a stop leaves of a process: who debugs it, whether
it is the kernel's, its pending note, its sleep unless the `Rendez` is one the operation
wakes. `Frame` is that of every process, and a process that is new has no debugger.
-/

namespace Ipnx

/-- What is left of a process by something that wakes only some `Rendez`. -/
structure Proc.Leaves (wakes : Rid → Prop) (p p' : Proc) : Prop where
  pdbg : p'.pdbg = p.pdbg
  kp : p'.kp = p.kp
  running : p'.state = .stopped → p.state = .stopped
  noted : p.notepending = true → p'.notepending = true
  asleep : ∀ r, p.state = .wakeme → p.r = some r → ¬wakes r →
    p'.notepending = true ∨ p'.state = .wakeme ∧ p'.r = some r

namespace Proc.Leaves

variable {wakes : Rid → Prop} {p p' p'' : Proc}

theorem same (pdbg : p'.pdbg = p.pdbg) (kp : p'.kp = p.kp) (state : p'.state = p.state)
    (noted : p'.notepending = p.notepending) (r : p'.r = p.r) : p.Leaves wakes p' :=
  ⟨pdbg, kp, state.symm.trans, noted.trans, fun _ asleep link _ =>
    .inr ⟨state.trans asleep, r.trans link⟩⟩

theorem refl : p.Leaves wakes p := same rfl rfl rfl rfl rfl

theorem trans (before : p.Leaves wakes p') (after : p'.Leaves wakes p'') : p.Leaves wakes p'' where
  pdbg := after.pdbg.trans before.pdbg
  kp := after.kp.trans before.kp
  running stopped := before.running (after.running stopped)
  noted pending := after.noted (before.noted pending)
  asleep r asleep link apart := by
    rcases before.asleep r asleep link apart with noted | ⟨asleep', link'⟩
    · exact .inl (after.noted noted)
    · exact after.asleep r asleep' link' apart

theorem mono {wakes' : Rid → Prop} (leaves : p.Leaves wakes p') (more : ∀ r, wakes r → wakes' r) :
    p.Leaves wakes' p' :=
  ⟨leaves.pdbg, leaves.kp, leaves.running, leaves.noted, fun r asleep link apart =>
    leaves.asleep r asleep link (apart ∘ more r)⟩

theorem quiet {f : Proc → Proc} (quiet : Quiet f) (pdbg : (f p).pdbg = p.pdbg)
    (kp : (f p).kp = p.kp) (noted : p.notepending = true → (f p).notepending = true) :
    p.Leaves wakes (f p) where
  pdbg := pdbg
  kp := kp
  running stopped := by
    have same : (f p).state = p.state := congrArg View.state (quiet.view p)
    exact same.symm.trans stopped
  noted := noted
  asleep r asleep link _ := by
    have same : (f p).state = p.state := congrArg View.state (quiet.view p)
    have linked : (f p).r = p.r := congrArg View.r (quiet.view p)
    exact .inr ⟨same.trans asleep, linked.trans link⟩

theorem loose {f : Proc → Proc}
    (loose : ∀ r, p.state = .wakeme → p.r = some r → wakes r ∨ p.notepending = true)
    (pdbg : (f p).pdbg = p.pdbg) (kp : (f p).kp = p.kp)
    (noted : p.notepending = true → (f p).notepending = true)
    (running : (f p).state = .stopped → p.state = .stopped) : p.Leaves wakes (f p) where
  pdbg := pdbg
  kp := kp
  running := running
  noted := noted
  asleep r asleep link apart := by
    rcases loose r asleep link with woken | pending
    · exact absurd woken apart
    · exact .inl (noted pending)

end Proc.Leaves

namespace Procs

/-- What is left of a table by an operation that wakes only some `Rendez`. -/
structure Frame (wakes : Rid → Prop) (s s' : Procs) : Prop where
  next : s.next ≤ s'.next
  left : ∀ q p', s'.tab q = some p' →
    (∃ p, s.tab q = some p ∧ p.Leaves wakes p') ∨ s.next ≤ q ∧ p'.pdbg = none

variable {wakes : Rid → Prop} {s s' s'' : Procs} {pid : Pid}

namespace Frame

theorem of_tab (tab : s'.tab = s.tab) (next : s'.next = s.next) : Frame wakes s s' where
  next := next.ge
  left q p' found := .inl ⟨p', by rw [← found, tab], .refl⟩

theorem refl : Frame wakes s s := of_tab rfl rfl

theorem trans (before : Frame wakes s s') (after : Frame wakes s' s'') : Frame wakes s s'' where
  next := before.next.trans after.next
  left q p'' found := by
    rcases after.left q p'' found with ⟨p', here, leaves'⟩ | ⟨later, undebugged⟩
    · rcases before.left q p' here with ⟨p, there, leaves⟩ | ⟨later, undebugged⟩
      · exact .inl ⟨p, there, leaves.trans leaves'⟩
      · exact .inr ⟨later, leaves'.pdbg.trans undebugged⟩
    · exact .inr ⟨before.next.trans later, undebugged⟩

theorem via (t : Procs) (before : Frame wakes s t) (after : Frame wakes t s') : Frame wakes s s' :=
  before.trans after

theorem mono {wakes' : Rid → Prop} (frame : Frame wakes s s') (more : ∀ r, wakes r → wakes' r) :
    Frame wakes' s s' where
  next := frame.next
  left q p' found := by
    rcases frame.left q p' found with ⟨p, there, leaves⟩ | fresh
    · exact .inl ⟨p, there, leaves.mono more⟩
    · exact .inr fresh

theorem modify {f : Proc → Proc} (leaves : ∀ p, s.tab pid = some p → p.Leaves wakes (f p)) :
    Frame wakes s (s.modify pid f) where
  next := le_refl _
  left q p' found := by
    rcases eq_or_ne q pid with rfl | differs
    · rw [modify_tab_self, Option.map_eq_some_iff] at found
      rcases found with ⟨p, there, rfl⟩
      exact .inl ⟨p, there, leaves p there⟩
    · rw [modify_tab_of_ne s pid f differs] at found
      exact .inl ⟨p', found, .refl⟩

theorem setRendez (r : Rid) (who : Option Pid) : Frame wakes s (s.setRendez r who) := by
  rcases r with ⟨q, _ | _⟩ | _ | _ | _ | _ | _ | _
  case proc.sleep | proc.waitr =>
    exact .modify fun p _ => .same rfl rfl rfl rfl rfl
  all_goals exact .of_tab rfl rfl

theorem foldl {α : Type} {turn : Procs → α → Procs} {I : Procs → Prop} (list : List α)
    (keeps : ∀ s a, I s → I (turn s a)) (frame : ∀ s a, I s → Frame wakes s (turn s a))
    (first : I s) : Frame wakes s (list.foldl turn s) := by
  induction list generalizing s with
  | nil => exact refl
  | cons a rest ih => exact (frame s a first).trans (ih (keeps s a first))

end Frame

/-- Any sleep of the process is one that is woken, or has a note pending. -/
def Loose (wakes : Rid → Prop) (s : Procs) (pid : Pid) : Prop :=
  ∀ p r, s.tab pid = some p → p.state = .wakeme → p.r = some r → wakes r ∨ p.notepending = true

theorem Loose.of_state {st : State} (is : s.state pid = st) (awake : st ≠ .wakeme) :
    Loose wakes s pid := by
  intro p r found asleep
  simp only [state, found] at is
  exact absurd (is.symm.trans asleep) awake

theorem Loose.of_tab (loose : Loose wakes s pid) (tab : s'.tab = s.tab) : Loose wakes s' pid :=
  fun p r found => loose p r (tab ▸ found)

theorem Loose.modify {f : Proc → Proc} {q : Pid} (loose : Loose wakes s pid)
    (keeps : ∀ p, s.tab q = some p → (f p).state = .wakeme → ∀ r, (f p).r = some r →
      p.state = .wakeme ∧ p.r = some r ∧ (p.notepending = true → (f p).notepending = true)) :
    Loose wakes (s.modify q f) pid := by
  intro p r found asleep link
  rcases eq_or_ne pid q with rfl | differs
  · rw [modify_tab_self, Option.map_eq_some_iff] at found
    rcases found with ⟨p, there, rfl⟩
    rcases keeps p there asleep r link with ⟨asleep', link', noted⟩
    exact (loose p r there asleep' link').imp_right noted
  · rw [modify_tab_of_ne s q f differs] at found
    exact loose p r found asleep link

theorem Loose.setRendez (loose : Loose wakes s pid) (r : Rid) (who : Option Pid) :
    Loose wakes (s.setRendez r who) pid := by
  rcases r with ⟨q, _ | _⟩ | _ | _ | _ | _ | _ | _
  case proc.sleep | proc.waitr => exact loose.modify fun p _ asleep r link => ⟨asleep, link, id⟩
  all_goals exact loose

theorem Frame.loose {f : Proc → Proc} (loose : Loose wakes s pid)
    (pdbg : ∀ p, (f p).pdbg = p.pdbg) (kp : ∀ p, (f p).kp = p.kp)
    (noted : ∀ p, (f p).notepending = p.notepending)
    (running : ∀ p, (f p).state = .stopped → p.state = .stopped) :
    Frame wakes s (s.modify pid f) :=
  .modify fun p found => .loose (fun r => loose p r found) (pdbg p) (kp p) (noted p).trans
    (running p)

theorem tab_claim : (s.claim pid).tab = s.tab := by
  rw [claim]
  split_ifs <;> rfl

theorem next_claim : (s.claim pid).next = s.next := by
  rw [claim]
  split_ifs <;> rfl

theorem updatecpuAt_pdbg (ticks : Nat) (running : Bool) (p : Proc) :
    (updatecpuAt ticks running p).pdbg = p.pdbg ∧ (updatecpuAt ticks running p).kp = p.kp ∧
      (updatecpuAt ticks running p).notepending = p.notepending := by
  simp only [updatecpuAt]
  split_ifs <;> exact ⟨rfl, rfl, rfl⟩

theorem frame_updatecpu (running : Bool) : Frame wakes s (s.updatecpu pid running) := by
  apply Frame.modify
  intro p _
  rcases updatecpuAt_pdbg s.m.ticks running p with ⟨pdbg, kp, noted⟩
  exact .quiet (quiet_updatecpuAt _ _) pdbg kp noted.trans

theorem frame_ready (loose : Loose wakes s pid) : Frame wakes s (s.ready pid) := by
  have same : ∃ f : Proc → Proc, (s.ready pid).tab = (s.modify pid f).tab ∧
      (s.ready pid).next = s.next ∧ ∀ p, (f p).pdbg = p.pdbg ∧ (f p).kp = p.kp ∧
        (f p).notepending = p.notepending ∧ (f p).state = .ready := by
    refine ⟨fun p => { updatecpuAt (s.claim pid).m.ticks (s.up == some pid) p with
      state := .ready
      priority := ((s.claim pid).updatecpu pid (s.up == some pid)).reprioritize pid }, ?_, ?_,
      fun p => ?_⟩
    · funext q
      simp only [ready, queueproc, setstate, updatecpu, modify, tab_claim]
      rcases eq_or_ne q pid with rfl | differs
      · simp [Function.comp_def]
      · simp [differs]
    · exact next_claim
    · rcases updatecpuAt_pdbg (s.claim pid).m.ticks (s.up == some pid) p with ⟨pdbg, kp, noted⟩
      exact ⟨pdbg, kp, noted, rfl⟩
  rcases same with ⟨f, tab, next, keeps⟩
  have modified : Frame wakes s (s.modify pid f) := .loose loose (fun p => (keeps p).1)
    (fun p => (keeps p).2.1) (fun p => (keeps p).2.2.1) fun p stopped => by
      rw [(keeps p).2.2.2] at stopped
      cases stopped
  exact modified.trans (.of_tab tab next)

theorem frame_wakeup (r : Rid) (woken : wakes r) : Frame wakes s (s.wakeup r).2 := by
  rw [wakeup]
  rcases s.rendez r with _ | q
  · exact .refl
  · simp only
    split_ifs with asleep
    · have loose : Loose wakes s q := by
        intro p r' found _ link
        simp only [found, Option.any_some, Bool.and_eq_true, beq_iff_eq] at asleep
        have same : r = r' := Option.some_inj.mp (asleep.2.symm.trans link)
        exact .inl (same ▸ woken)
      have cleared := loose.setRendez r none
      have unslept : Loose wakes ((s.setRendez r none).modify q Proc.unslept) q := by
        apply cleared.modify
        intro p _ _ r' link
        cases link
      have frame : Frame wakes (s.setRendez r none) ((s.setRendez r none).modify q Proc.unslept) :=
        .loose cleared (fun _ => rfl) (fun _ => rfl) (fun _ => rfl) fun _ => id
      exact ((Frame.setRendez r none).trans frame).trans (frame_ready unslept)
    · exact .refl

theorem frame_addnote (msg : String) (flag : NoteFlag) :
    Frame wakes s (s.modify pid (Proc.addnote msg flag)) :=
  .modify fun _ _ => .quiet (quiet_addnote msg flag) rfl rfl fun _ => rfl

theorem frame_rendval (val : Nat) : Frame wakes s
    (s.modify pid fun p => { p with rendval := val }) :=
  .modify fun _ _ => .quiet quiet_rendval rfl rfl id

theorem frame_leavergrp (g : Nat) : Frame wakes s (s.leavergrp g pid) := .of_tab rfl rfl

theorem frame_noted {p : Proc} (msg : String) (flag : NoteFlag) (found : s.tab pid = some p) :
    Frame wakes (s.modify pid (Proc.addnote msg flag)) (s.postnote pid msg flag).2 := by
  have loose : Loose wakes (s.modify pid (Proc.addnote msg flag)) pid := by
    intro q r here _ _
    rw [modify_tab_self, found] at here
    exact .inr (Option.some_inj.mp here ▸ rfl)
  rw [postnote, found]
  simp only
  split
  case h_1 r _ _ =>
    have unslept : Loose wakes
        ((s.modify pid (Proc.addnote msg flag)).modify pid Proc.unslept) pid := by
      apply loose.modify
      intro q _ _ r link
      cases link
    have frame : Frame wakes (s.modify pid (Proc.addnote msg flag))
        ((s.modify pid (Proc.addnote msg flag)).modify pid Proc.unslept) :=
      .loose loose (fun _ => rfl) (fun _ => rfl) (fun _ => rfl) fun _ => id
    exact (frame.trans (.setRendez r none)).trans (frame_ready (unslept.setRendez r none))
  case h_2 =>
    have left : Loose wakes ((s.modify pid (Proc.addnote msg flag)).modify pid
        fun p => { p with rendval := 2 ^ 64 - 1 }) pid :=
      loose.modify fun q _ asleep r link => ⟨asleep, link, id⟩
    exact ((frame_rendval (2 ^ 64 - 1)).trans (frame_leavergrp p.rgrp)).trans
      (frame_ready (left.of_tab rfl))
  case h_3 => exact .refl

theorem frame_postnote (msg : String) (flag : NoteFlag) :
    Frame wakes s (s.postnote pid msg flag).2 := by
  rcases found : s.tab pid with _ | p
  · rw [postnote, found]
    exact .refl
  · exact (frame_addnote msg flag).trans (frame_noted msg flag found)

theorem frame_pgrpnote (order : List Pid) (up : Pid) (noteid : Nat) (msg : String)
    (flag : NoteFlag) : Frame wakes s (s.pgrpnote order up noteid msg flag) :=
  Frame.foldl (I := fun _ => True) _ (fun _ _ _ => trivial) (fun _ _ _ => frame_postnote msg flag)
    trivial

theorem frame_checkalarms (woken : wakes .alarmr) : Frame wakes s s.checkalarms := by
  rw [checkalarms]
  split_ifs
  · exact frame_wakeup .alarmr woken
  · exact .refl

theorem frame_queueproc (pri : Nat) : Frame wakes s (s.queueproc pri pid) := by
  have modified : Frame wakes s (s.modify pid fun p => { p with priority := pri }) :=
    .modify fun p _ => .same rfl rfl rfl rfl rfl
  exact modified.trans (.of_tab rfl rfl)

theorem frame_dequeueproc (pri : Nat) : Frame wakes s (s.dequeueproc pri pid).2 := by
  rw [dequeueproc]
  split_ifs <;> exact .of_tab rfl rfl

theorem frame_another (pri : Nat) : Frame wakes s (s.another pri) := by
  fun_induction another s pri with
  | case1 => exact .refl
  | case2 => exact .refl
  | case3 => exact frame_updatecpu _
  | case4 s pid rest first elsewhere t npri differs ih =>
      exact (((frame_updatecpu _).trans (frame_dequeueproc pri)).trans
          (frame_queueproc npri)).trans ih

theorem frame_rebalance : Frame wakes s s.rebalance := by
  rw [rebalance]
  simp only
  split_ifs
  · exact .refl
  · apply Frame.via { s with m := { s.m with balancetime := s.m.ticks } }
    · exact .of_tab rfl rfl
    · exact Frame.foldl (I := fun _ => True) _ (fun _ _ _ => trivial)
        (fun _ pri _ => frame_another pri) trivial

theorem frame_hzsched (up : Pid) : Frame wakes s (s.hzsched up) := by
  rw [hzsched]
  simp only
  split_ifs
  · apply frame_rebalance.trans
    apply Frame.via { s.rebalance with m := { s.rebalance.m with readied := none } }
    · exact .of_tab rfl rfl
    · exact .modify fun _ _ => .quiet quiet_delaysched rfl rfl id
  · exact frame_rebalance

theorem frame_charge : Frame wakes s s.charge := by
  rw [charge]
  split
  · exact .refl
  case h_2 up _ =>
    apply Frame.via { s with m := { s.m with nrun := s.m.nrun + 1 } }
    · exact .of_tab rfl rfl
    · apply Frame.modify
      intro p _
      split_ifs
      all_goals exact .same rfl rfl rfl rfl rfl

theorem frame_hzclock (now : Nat) (woken : wakes .alarmr) : Frame wakes s (s.hzclock now) := by
  have ticked : Frame wakes s { s with m := { s.m with ticks := s.m.ticks + 1 } } := .of_tab rfl rfl
  have charged (t : Procs) : Frame wakes t (t.accounttime now) :=
    frame_charge.trans (.of_tab rfl rfl)
  have checked := (ticked.trans (charged _)).trans (frame_checkalarms woken)
  rw [hzclock]
  simp only
  split
  · split_ifs
    · exact checked.trans (frame_hzsched _)
    · exact checked
  · exact checked

theorem frame_profintr (now : Nat) : Frame wakes s (s.profintr now) := by
  rw [profintr]
  split
  · split_ifs <;> exact .of_tab rfl rfl
  · exact .refl

/-- Every timer is set for a `Rendez` that may be woken. -/
def Timers (wakes : Rid → Prop) (s : Procs) : Prop :=
  ∀ pid v r, s.board.view pid = some v → v.trend = some r → wakes r

theorem Timers.rises (timers : Timers wakes s) (rises : Rises s s') : Timers wakes s' := by
  have still (b b' : Board) (moved : Board.Rouse b b')
      (set : ∀ pid v r, b.view pid = some v → v.trend = some r → wakes r) :
      ∀ pid v r, b'.view pid = some v → v.trend = some r → wakes r := by
    intro q w r found timer
    cases moved with
    | woken | untimed | met | shifted =>
        rcases Board.view_of_edit found with ⟨-, there⟩ | ⟨-, v, there, rfl⟩
        · exact set q w r there timer
        · first
          | exact set _ v r there timer
          | cases timer
  have all (b : Board) (steps : Relation.ReflTransGen Board.Rouse s.board b) :
      ∀ pid v r, b.view pid = some v → v.trend = some r → wakes r := by
    induction steps with
    | refl => exact timers
    | tail _ moved ih => exact still _ _ moved ih
  exact all _ rises

theorem frame_twakeup (timers : Timers wakes s) : Frame wakes s (s.twakeup pid) := by
  rw [twakeup]
  split
  case h_1 r set =>
    rcases Option.bind_eq_some_iff.mp set with ⟨p, found, timer⟩
    have untimed : Frame wakes s (s.modify pid Proc.untimed) :=
      .modify fun _ _ => .same rfl rfl rfl rfl rfl
    exact untimed.trans (frame_wakeup r (timers pid p.view r (board_view found) timer))
  case h_2 => exact .refl

theorem frame_timerintr (order : List Pid) (now : Nat) (inv : s.board.Inv)
    (timers : Timers wakes s) (woken : wakes .alarmr) : Frame wakes s (s.timerintr order now) := by
  have same := board_profintr (s := s) now
  have first : (s.profintr now).board.Inv ∧ Timers wakes (s.profintr now) :=
    ⟨same ▸ inv, fun pid v r found => timers pid v r (same ▸ found)⟩
  have fired : Frame wakes (s.profintr now)
      (((s.profintr now).due order now).foldl twakeup (s.profintr now)) := by
    apply Frame.foldl (I := fun t => t.board.Inv ∧ Timers wakes t) _ ?_ ?_ first
    · intro t pid ⟨inv, timers⟩
      have rises : Rises t (t.twakeup pid) := steps_twakeup inv
      exact ⟨rises.riseInv inv, timers.rises rises⟩
    · intro t pid ⟨_, timers⟩
      exact frame_twakeup timers
  have ticked (t : Procs) : Frame wakes t (t.hzintr now) := by
    rw [hzintr]
    split
    case h_1 due _ =>
      split_ifs
      · apply Frame.via { t with m := { t.m with hz := some (rearm (1000000000 / hz) due now) } }
        · exact .of_tab rfl rfl
        · exact frame_hzclock now woken
      · exact .refl
    case h_2 => exact .refl
  exact ((frame_profintr now).trans fired).trans (ticked _)

theorem loose_of_queued {place : Nat} (inv : s.board.Inv) (queued : pid ∈ s.runq place) :
    Loose wakes s pid := by
  intro p r found asleep
  have source := inv.once.source inv.wf queued p.view (board_view found)
  simp [Proc.view, asleep, State.Exited] at source

theorem frame_setstate {st : State} (loose : Loose wakes s pid) (running : st ≠ .stopped) :
    Frame wakes s (s.setstate pid st) :=
  .loose loose (fun _ => rfl) (fun _ => rfl) (fun _ => rfl) fun _ stopped => absurd stopped running

theorem loose_of_ended (inv : s.board.Inv)
    (finished : ∀ p, s.tab pid = some p → p.status.isSome) : Loose wakes s pid := by
  intro p r found asleep
  have lives := inv.wf.alive pid p.view (board_view found) (.inl asleep)
  have ended : p.view.ended = true := finished p found
  rw [lives] at ended
  cases ended

theorem frame_leave {how : Left} (inv : s.board.Inv)
    (finished : how = .exited → ∀ p, s.tab pid = some p → p.status.isSome) :
    Frame wakes s (s.leave pid how) := by
  unfold leave
  simp only
  set t : Procs := ({ s with m := { s.m with cs := s.m.cs + 1 } } : Procs).modify pid fun p =>
    { p with delaysched := 0 } with left
  have switched : Frame wakes s t := by
    apply Frame.via { s with m := { s.m with cs := s.m.cs + 1 } }
    · exact .of_tab rfl rfl
    · exact .modify fun _ _ => .quiet quiet_nodelay rfl rfl id
  have loose (ended : ∀ p, s.tab pid = some p → p.status.isSome) : Loose wakes t pid :=
    Loose.modify (s := { s with m := { s.m with cs := s.m.cs + 1 } })
      (fun p r found => loose_of_ended inv ended p r found)
      fun _ _ asleep r link => ⟨asleep, link, id⟩
  split
  case h_1 => exact switched
  case h_2 => exact switched.trans (frame_setstate (loose (finished rfl)) (by simp))
  case h_3 running => exact switched.trans (frame_ready (.of_state running (by simp)))
  case h_4 ended => exact switched.trans (frame_setstate (.of_state ended (by simp)) (by simp))
  case h_5 => exact switched

theorem frame_putup : Frame wakes s s.putup := by
  rw [putup]
  split
  · apply Frame.via { s with up := none }
    · exact .of_tab rfl rfl
    · exact frame_updatecpu true
  · exact .refl

theorem tab_dequeueproc (pri : Nat) :
    (s.dequeueproc pri pid).2.tab = s.tab ∧ (s.dequeueproc pri pid).2.next = s.next := by
  rw [dequeueproc]
  split_ifs <;> exact ⟨rfl, rfl⟩

theorem takereadied_tab (picked : s.takereadied = some (pid, s')) :
    s'.tab = s.tab ∧ s'.next = s.next := by
  simp only [takereadied] at picked
  split_ifs at picked
  split at picked
  · cases picked
  · split at picked
    · cases picked
    · split_ifs at picked
      simp only [Option.some_inj, Prod.mk.injEq] at picked
      rcases picked with ⟨-, rfl⟩
      exact tab_dequeueproc _

theorem takehighest_tab (picked : s.takehighest = some (pid, s')) :
    s'.tab = s.tab ∧ s'.next = s.next := by
  simp only [takehighest, Option.map_eq_some_iff, Prod.mk.injEq, Prod.exists] at picked
  rcases picked with ⟨place, q, -, -, rfl⟩
  exact tab_dequeueproc _

theorem frame_runproc (inv : s.board.Inv) (picked : s.runproc = some (pid, s')) :
    Frame wakes s s' ∧ s'.state pid ≠ .wakeme := by
  rcases runproc_picked picked with ⟨place, queued, -⟩
  simp only [runproc, Option.map_eq_some_iff, Prod.mk.injEq, Prod.exists] at picked
  rcases picked with ⟨q, t, taken, rfl, rfl⟩
  have same : t.tab = s.tab ∧ t.next = s.next := by
    rcases readied : s.takereadied with _ | ⟨q', t'⟩
    · exact takehighest_tab (by simpa [readied] using taken)
    · exact takereadied_tab (by simpa [readied] using taken)
  constructor
  · have loose : Loose wakes t q := (loose_of_queued inv queued).of_tab same.1
    exact (Frame.of_tab same.1 same.2).trans (frame_setstate loose (by simp))
  · simp only [state, setstate, modify_tab_self]
    cases t.tab q <;> simp

theorem Loose.quiet {f : Proc → Proc} {q : Pid} (loose : Loose wakes s pid) (quiet : Quiet f)
    (noted : ∀ p, (f p).notepending = p.notepending) : Loose wakes (s.modify q f) pid := by
  apply loose.modify
  intro p _ asleep r link
  have same : (f p).state = p.state := congrArg View.state (quiet.view p)
  have linked : (f p).r = p.r := congrArg View.r (quiet.view p)
  exact ⟨same.symm.trans asleep, linked.symm.trans link, (noted p).trans⟩

theorem frame_enter (awake : s.state pid ≠ .wakeme) : Frame wakes s (s.enter pid) := by
  let t := s.updatecpu pid (s.up == some pid)
  let u := t.modify pid fun p => { p with priority := t.reprioritize pid }
  have charged : Frame wakes s t := frame_updatecpu _
  have prioritized : Frame wakes t u :=
    .modify fun p _ => .same rfl rfl rfl rfl rfl
  have slept : Loose wakes s pid := .of_state rfl awake
  have looset : Loose wakes t pid :=
    slept.quiet (quiet_updatecpuAt _ _) fun p => (updatecpuAt_pdbg _ _ p).2.2
  have loose : Loose wakes u pid := looset.modify fun _ _ asleep r link => ⟨asleep, link, id⟩
  have switched (m : Mach) :
      Frame wakes u (Procs.setstate { u with m := m, up := some pid } pid .running) := by
    apply Frame.via { u with m := m, up := some pid }
    · exact .of_tab rfl rfl
    · exact frame_setstate (loose.of_tab rfl) (by simp)
  exact (charged.trans prioritized).trans (switched _)

theorem frame_sched (inv : s.board.Inv) (picked : s.sched = some (pid, s')) :
    Frame wakes s s' := by
  simp only [sched, Option.map_eq_some_iff, Prod.mk.injEq, Prod.exists] at picked
  rcases picked with ⟨q, t, run, rfl, rfl⟩
  rcases frame_runproc inv run with ⟨frame, awake⟩
  exact frame.trans (frame_enter awake)

theorem frame_countsleep (r : Rid) : Frame wakes s (s.countsleep pid r) := by
  rw [countsleep]
  split_ifs <;> exact .of_tab rfl rfl

theorem frame_setlabel : Frame wakes s (s.setlabel pid) :=
  .modify fun _ _ => .quiet quiet_setlabel rfl rfl id

theorem frame_sleep {r : Rid} {happened : Bool} (awake : s.state pid ≠ .wakeme) :
    Frame wakes s (s.sleep pid r happened).2 := by
  have counted : Frame wakes s (s.countsleep pid r) := frame_countsleep r
  have loose : Loose wakes (s.countsleep pid r) pid :=
    Loose.of_tab (.of_state rfl awake) tab_countsleep
  rw [sleep]
  simp only
  split_ifs
  · exact counted.trans (.setRendez r none)
  · have slept : Frame wakes ((s.countsleep pid r).setRendez r (some pid))
        (((s.countsleep pid r).setRendez r (some pid)).modify pid (Proc.sleepat r)) :=
      .loose (loose.setRendez r _) (fun _ => rfl) (fun _ => rfl) (fun _ => rfl)
        fun p stopped => by cases stopped
    exact ((counted.trans (.setRendez r _)).trans slept).trans frame_setlabel

theorem frame_tsleep {r : Rid} {happened : Bool} {deadline : Nat} (awake : s.state pid ≠ .wakeme) :
    Frame wakes s (s.tsleep pid r happened deadline).2 := by
  have loose : Loose wakes s pid := .of_state rfl awake
  have timed : Frame wakes s (s.modify pid (Proc.settimer (some r) (some deadline))) :=
    .loose loose (fun _ => rfl) (fun _ => rfl) (fun _ => rfl) fun _ => id
  have still : (s.modify pid (Proc.settimer (some r) (some deadline))).state pid ≠ .wakeme := by
    simp only [state, modify_tab_self] at awake ⊢
    cases found : s.tab pid <;> simp_all [Proc.settimer]
  have sleeps : Frame wakes (s.modify pid (Proc.settimer (some r) (some deadline)))
      ((s.modify pid (Proc.settimer (some r) (some deadline))).sleep pid r happened).2 :=
    frame_sleep still
  have slept := timed.trans sleeps
  rw [tsleep]
  simp only
  split_ifs
  · exact slept
  · exact slept.trans (.modify fun _ _ => .same rfl rfl rfl rfl rfl)

theorem frame_qlock {l : QLock} (awake : s.state pid ≠ .wakeme) :
    Frame wakes s (s.qlock l pid).2.2 := by
  rw [qlock]
  split_ifs
  · exact (frame_setstate (.of_state rfl awake) (by simp)).trans frame_setlabel
  · exact .refl

theorem frame_qunlock {l : QLock} (waiting : ∀ q ∈ l.q.head?, s.state q = .queueing) :
    Frame wakes s (s.qunlock l).2 := by
  unfold qunlock
  split
  case h_1 q rest first =>
    have waits : s.state q = .queueing := waiting q (by simp [first])
    exact frame_ready (.of_state waits (by simp))
  case h_2 => exact .refl

theorem frame_meet {g val : Nat} (waiting : s.state pid = .rendezvous) :
    Frame wakes s (s.meet g pid val) := by
  let left : Procs := { s with rgrps := Function.update s.rgrps g ((s.rgrps g).erase pid) }
  have parted : Frame wakes s left := .of_tab rfl rfl
  have waits : Loose wakes left pid := .of_state waiting (by simp)
  have given : Loose wakes (left.modify pid fun p => { p with rendval := val }) pid :=
    waits.quiet quiet_rendval fun _ => rfl
  exact (parted.trans (frame_rendval val)).trans (frame_ready given)

theorem frame_gather {g tag val : Nat} (awake : s.state pid ≠ .wakeme) :
    Frame wakes s (s.gather g pid tag val) := by
  let waits := s.modify pid fun p => { p with rendtag := tag, rendval := val, state := .rendezvous }
  have waited : Frame wakes s waits :=
    .loose (.of_state rfl awake) (fun _ => rfl) (fun _ => rfl) (fun _ => rfl)
      fun _ stopped => by cases stopped
  have joined : Frame wakes waits
      { waits with rgrps := Function.update waits.rgrps g (waits.rgrps g ++ [pid]) } :=
    .of_tab rfl rfl
  exact (waited.trans joined).trans frame_setlabel

theorem frame_rendezvous {tag val : Nat} (inv : s.board.Inv) (awake : s.state pid ≠ .wakeme) :
    Frame wakes s (s.rendezvous pid tag val) := by
  rw [rendezvous]
  rcases found : s.tab pid with _ | p
  · exact .refl
  let t := s.modify pid fun p => { p with rendval := 2 ^ 64 - 1 }
  have reset : Frame wakes s t := frame_rendval (2 ^ 64 - 1)
  have same : t.board = s.board := board_quiet quiet_rendval
  simp only
  split
  case h_1 q first =>
    have member : q ∈ t.board.rgrps p.rgrp := List.mem_of_find?_eq_some first
    rcases (same ▸ inv).wf.grouped p.rgrp q member with ⟨v, view, waiting, -⟩
    rcases tab_of_board_view view with ⟨m, there, rfl⟩
    have waits : t.state q = .rendezvous := by
      simp only [state, there]
      exact waiting
    exact reset.trans (frame_meet waits)
  case h_2 =>
    have still : t.state pid ≠ .wakeme := by
      simp only [state, t, modify_tab_self, found] at awake ⊢
      exact awake
    exact reset.trans (frame_gather still)

theorem frame_addchild (child : Proc) : Frame wakes s (s.modify pid (Proc.addchild child)) :=
  .modify fun _ _ => .quiet (quiet_addchild child) rfl rfl id

theorem frame_unready (p : Proc) : Frame wakes s (s.unready pid p) := by
  simp only [unready, dequeueproc]
  split_ifs <;> exact .of_tab rfl rfl

theorem frame_exits {status : String} (awake : s.state pid ≠ .wakeme)
    (woken : ∀ p, s.tab pid = some p → wakes (.proc p.ppid .waitr)) :
    Frame wakes s (s.exits pid status) := by
  rw [exits]
  rcases found : s.tab pid with _ | p
  · exact .refl
  have slept : Loose wakes s pid := .of_state rfl awake
  let t := s.modify pid (Proc.ended s.m.ticks status)
  have ended : Frame wakes s t :=
    .loose slept (fun _ => rfl) (fun _ => rfl) (fun _ => rfl) fun _ => id
  have looset : Loose wakes t pid := slept.modify fun _ _ asleep r link => ⟨asleep, link, id⟩
  have told : Frame wakes s (t.modify p.ppid (Proc.addchild p)) := ended.trans (frame_addchild p)
  have loose : Loose wakes (t.modify p.ppid (Proc.addchild p)) pid :=
    looset.quiet (quiet_addchild p) fun _ => rfl
  have tab : ((t.modify p.ppid (Proc.addchild p)).unready pid p).tab =
      (t.modify p.ppid (Proc.addchild p)).tab := by
    simp only [unready, dequeueproc]
    split_ifs <;> rfl
  have unreadied : Frame wakes s ((t.modify p.ppid (Proc.addchild p)).unready pid p) :=
    told.trans (frame_unready p)
  have finished : Frame wakes ((t.modify p.ppid (Proc.addchild p)).unready pid p)
      (((t.modify p.ppid (Proc.addchild p)).unready pid p).setstate pid .moribund) :=
    frame_setstate (loose.of_tab tab) (by simp)
  exact (unreadied.trans finished).trans (frame_wakeup _ (woken p found))

theorem frame_letgo (inv : s.board.Inv) : Frame wakes s s.letgo := by
  rw [letgo]
  split
  case h_1 old rest oldest =>
    split_ifs
    · have laid := (inv.wf.laid old (by simp [board, oldest])).2
      have loose : Loose wakes s old :=
        loose_of_ended inv fun p found => laid p.view (board_view found)
      have gone : Frame wakes s (s.setstate old .dead) := frame_setstate loose (by simp)
      exact gone.trans (.of_tab rfl rfl)
    · exact .refl
  case h_2 => exact .refl

theorem frame_unbreak (inv : s.board.Inv) : Frame wakes s (s.unbreak pid) := by
  rw [unbreak]
  split_ifs with member
  · have laid := (inv.wf.laid pid member).2
    have loose : Loose wakes s pid :=
      loose_of_ended inv fun p found => laid p.view (board_view found)
    have gone : Frame wakes s (s.setstate pid .dead) := frame_setstate loose (by simp)
    exact gone.trans (.of_tab rfl rfl)
  · exact .refl

theorem frame_addbroken (inv : s.board.Inv)
    (finished : ∀ p, s.tab pid = some p → p.status.isSome) : Frame wakes s (s.addbroken pid) := by
  have gone : Frame wakes s s.letgo := frame_letgo inv
  have slept : Loose wakes s pid := loose_of_ended inv finished
  have loose : Loose wakes s.letgo pid := by
    rw [letgo]
    split
    · split_ifs
      · refine (slept.modify fun p _ asleep => ?_).of_tab rfl
        cases asleep
      · exact slept
    · exact slept
  rw [addbroken]
  generalize s.letgo = t at gone loose
  have kept : Frame wakes t { t with broken := t.broken ++ [pid] } := .of_tab rfl rfl
  refine (gone.trans kept).trans ?_
  exact .loose (loose.of_tab rfl) (fun _ => rfl) (fun _ => rfl) (fun _ => rfl)
    fun _ stopped => by cases stopped

theorem frame_insert {p : Proc} (undebugged : p.pdbg = none)
    (tab : s'.tab = (s.insert s.next p).tab) (next : s'.next = s.next + 1) :
    Frame wakes s s' where
  next := by
    rw [next]
    exact Nat.le_succ _
  left q p' found := by
    rw [tab, insert] at found
    rcases eq_or_ne q s.next with rfl | differs
    · simp only [Function.update_self, Option.some_inj] at found
      exact .inr ⟨le_rfl, found ▸ undebugged⟩
    · simp only [Function.update_of_ne differs] at found
      exact .inl ⟨p', found, .refl⟩

theorem frame_rforkself (flags : Nat) : Frame wakes s (s.rforkself pid flags) := by
  have regrouped : Frame wakes s (if Rf.has flags Rf.rend then s.newrgrp pid else s) := by
    split_ifs
    · apply Frame.via { s with nextrgrp := s.nextrgrp + 1 }
      · exact .of_tab rfl rfl
      · exact .modify fun _ _ => .same rfl rfl rfl rfl rfl
    · exact .refl
  have renumbered (t : Procs) :
      Frame wakes t (if Rf.has flags Rf.noteg then t.newnoteid pid else t) := by
    split_ifs
    · apply Frame.via { t with noteidalloc := t.noteidalloc + 1 }
      · exact .of_tab rfl rfl
      · exact .modify fun _ _ => .quiet quiet_noteid rfl rfl id
    · exact .refl
  exact regrouped.trans (renumbered _)

theorem frame_sysrfork {flags : Nat} {made : Option Pid}
    (forked : s.sysrfork pid flags = .ok (made, s')) :
    Frame wakes s s' := by
  simp only [sysrfork, bind, Except.bind] at forked
  split at forked
  · cases forked
  · split at forked
    · cases forked
    · split_ifs at forked
      · simp only [pure, Except.pure, Except.ok.injEq, Prod.mk.injEq] at forked
        rcases forked with ⟨-, rfl⟩
        exact frame_insert (p := s.child pid _ flags) rfl rfl rfl
      · simp only [pure, Except.pure, Except.ok.injEq, Prod.mk.injEq] at forked
        rcases forked with ⟨-, rfl⟩
        exact frame_rforkself flags

theorem frame_procpriority (pri : Nat) (fixed : Bool) :
    Frame wakes s (s.procpriority pid pri fixed) :=
  .modify fun _ _ => .same rfl rfl rfl rfl rfl

theorem frame_kproc (up : Pid) (name user : String) : Frame wakes s (s.kproc up name user).2 := by
  let made : Procs :=
    { s.insert s.next (s.kchild up name user) with
      next := s.next + 1
      noteidalloc := s.noteidalloc + 1
      nextrgrp := s.nextrgrp + 1 }
  have born : Frame wakes s made := frame_insert (p := s.kchild up name user) rfl rfl rfl
  have here : made.tab s.next = some (s.kchild up name user) := by simp [made, insert]
  have scheding : (made.procpriority s.next Pri.kproc false).state s.next = .scheding := by
    simp [state, procpriority, here, kchild]
  have loose : Loose wakes (made.procpriority s.next Pri.kproc false) s.next :=
    .of_state scheding (by simp)
  exact (born.trans (frame_procpriority Pri.kproc false)).trans (frame_ready loose)

theorem frame_awaitChild (order : List Pid) : Frame wakes s (s.awaitChild order pid).2 := by
  unfold awaitChild
  simp only
  split
  case h_1 c _ =>
    refine ⟨le_rfl, fun q p' found => .inl ⟨p', ?_, .refl⟩⟩
    simp only at found
    rcases eq_or_ne q c with rfl | differs
    · rw [Function.update_self] at found
      cases found
    · rwa [Function.update_of_ne differs] at found
  case h_2 => exact .refl

theorem frame_execpri (root : Bool) : Frame wakes s (s.execpri pid root) :=
  .modify fun _ _ => .same rfl rfl rfl rfl rfl

/-- What an operation wakes. The timers that fire are those that are set. -/
def Woken (wakes : Rid → Prop) (s : Procs) : Act → Prop
  | .wakeup r => wakes r
  | .timerintr _ _ => Timers wakes s ∧ wakes .alarmr
  | .hzclock _ => wakes .alarmr
  | .exits _ _ => ∀ q, wakes (.proc q .waitr)
  | _ => True

/-- The operation is not a stop, and a change of other fields leaves the debugger's and the
note. -/
def Undebugged : Act → Prop
  | .stop _ => False
  | .edit _ f => ∀ p, (f p).pdbg = p.pdbg ∧ (f p).kp = p.kp ∧ (f p).notepending = p.notepending
  | _ => True

theorem Active.awake (active : s.Active pid) : s.state pid ≠ .wakeme := by
  rcases active with ⟨-, p, found, running, -⟩
  simp [state, found, running]

theorem Unentered.awake (unentered : s.Unentered pid) : s.state pid ≠ .wakeme := by
  rcases unentered with ⟨p, found, source⟩
  rcases source with h | h <;> simp [state, found, h]

theorem frame_step {a : Act} (inv : s.board.Inv) (called : Callers Active s a)
    (plain : Undebugged a) (woken : s.Woken wakes a) : Frame wakes s (s.step a) := by
  cases a with
  | ready pid =>
      rcases called with ⟨p, found, source⟩
      have awake : s.state pid ≠ .wakeme := by
        rcases source with h | h <;> simp [state, found, h]
      exact frame_ready (.of_state rfl awake)
  | leave pid how => exact frame_leave inv called
  | putup => exact frame_putup
  | sched =>
      rcases picked : s.sched with _ | ⟨pid, s'⟩
      · simp only [step, picked]
        exact .refl
      · simp only [step, picked]
        exact frame_sched inv picked
  | sleep pid r happened => exact frame_sleep called.1.awake
  | tsleep pid r happened deadline => exact frame_tsleep called.1.awake
  | wakeup r => exact frame_wakeup r woken
  | postnote pid msg flag => exact frame_postnote msg flag
  | pgrpnote order up noteid msg flag => exact frame_pgrpnote order up noteid msg flag
  | procpriority pid pri fixed => exact frame_procpriority pri fixed
  | execpri pid root => exact frame_execpri root
  | timerintr order now => exact frame_timerintr order now inv woken.1 woken.2
  | hzclock now => exact frame_hzclock now woken
  | rebalance => exact frame_rebalance
  | rfork pid flags =>
      rcases forked : s.sysrfork pid flags with _ | ⟨made, s'⟩
      · simp only [step, forked]
        exact .refl
      · simp only [step, forked]
        exact frame_sysrfork forked
  | kproc up name user => exact frame_kproc up name user
  | exits pid status =>
      rcases called with active | unentered
      · exact frame_exits active.awake fun p _ => woken p.ppid
      · exact frame_exits unentered.awake fun p _ => woken p.ppid
  | addbroken pid =>
      rcases called with ⟨p, found, finished⟩
      apply frame_addbroken inv
      intro q here
      rwa [← Option.some_inj.mp (found.symm.trans here)]
  | unbreak pid => exact frame_unbreak inv
  | awaitChild order pid => exact frame_awaitChild order
  | rendezvous pid tag val => exact frame_rendezvous inv called.awake
  | stop pid => exact absurd plain id
  | qlock l pid => exact frame_qlock called.awake
  | qunlock l => exact frame_qunlock called
  | edit pid f =>
      apply Frame.modify
      intro p _
      exact .quiet called (plain p).1 (plain p).2.1 (plain p).2.2.trans

end Procs

end Ipnx
