import Ipnx.Proc.Stopwait

/-!
# Runs of stopping and tracing

The table's operations, control messages and stops, in any order. A process in
`procstopwait` does nothing but carry its write on, and the table's own changes of fields
are not of those a debugger's wait is kept in.
-/

namespace Ipnx

open Procs (board_view frame_step moves_step state_eq)

def Act.actor : Act → Option Pid
  | .sleep pid _ _ | .tsleep pid _ _ _ | .execpri pid _ | .rfork pid _ | .exits pid _
  | .rendezvous pid _ _ | .qlock _ pid => some pid
  | _ => none

/-- What happens to processes and to those that debug them. -/
inductive TraceAct
  | table (a : Act)
  /-- A process does what it was asked, on its way out of the kernel. -/
  | procctl (up : Pid)
  /-- A process acts on its note. -/
  | interrupted (pid : Pid)
  | write (me pid : Pid) (cm : Cm) (n : Nat)
  /-- The host owner is renamed. -/
  | hostowner (name : String)

namespace ProcDev

variable {w : ProcDev} {d p me pid : Pid} {n : Nat}

def step (w : ProcDev) : TraceAct → ProcDev
  | .table a => { w with procs := w.procs.step a }
  | .procctl up => { w with procs := (w.procs.procctl up).2 }
  | .interrupted pid => { w with procs := (w.procs.interrupted pid).2 }
  | .write me pid cm n => (w.write me pid cm n).2
  | .hostowner name => { w with eve := name }

def tracing : System ProcDev TraceAct where
  init w := w.procs = Procs.new ∧ w.stopwait = fun _ => none
  step w a w' := w' = w.step a

/-- What the callers promise. A process whose write sleeps comes back to that write first. -/
def Called (w : ProcDev) : TraceAct → Prop
  | .table a =>
      Procs.Callers Procs.Active w.procs a ∧ Procs.Undebugged a ∧
        (∀ d, a.actor = some d → w.stopwait d = none) ∧ ∀ d, a ≠ .wakeup (.proc d .sleep)
  | .procctl up => w.procs.Active up ∧ w.stopwait up = none
  | .interrupted pid => w.stopwait pid = none
  | .write me pid _ _ => w.procs.Active me ∧ ∀ p, w.stopwait me = some p → pid = p
  | .hostowner _ => True

/-- `stop` and `waitstop`, where they come to wait, are for a process that lives. -/
def Lives (w : ProcDev) (me pid : Pid) : Prop :=
  ∀ t, w.procs.tab pid = some t → w.nonone me pid = true → t.kp = false → t.pdbg = none →
    ¬w.Noted me → t.status = none ∨ t.state = .stopped ∨ t.state = .broken

/-- A wait that is over can end: the debugger may still write to the process, and after a
note nobody else waits for it yet. -/
def Returns (w : ProcDev) (me p : Pid) : Prop :=
  w.nonone me p = true ∧
    (w.Noted me → ∀ t, w.procs.tab p = some t → t.pdbg = none ∨ t.pdbg = some me)

/-- What has to hold of a step for the wait to be kept. -/
def Orderly (w : ProcDev) : TraceAct → Prop
  | .table (.exits p _) => ∀ d, ¬w.Waiting d p
  | .procctl up =>
      ∀ t, w.procs.tab up = some t → t.procctl = some .exitme → ∀ d, ¬w.Waiting d up
  | .write me pid cm _ =>
      (∀ p, w.stopwait me = some p → w.Returns me p) ∧
        (w.stopwait me = none → cm = .stop ∨ cm = .waitstop → w.Lives me pid)
  | _ => True

theorem within_waiting {a : Act} {s : Procs} (called : Procs.Callers Procs.Active s a)
    (apart : a.actor ≠ some d) : s.Within (.waiting d) a := by
  cases a with
  | sleep pid r happened | tsleep pid r happened deadline =>
      rintro rfl
      exact apart (congrArg some (called.2 d rfl).symm)
  | exits pid status =>
      rintro rfl
      exact apart rfl
  | _ => simp [Procs.Within, Scope.waiting, Scope.any]

theorem timers_apart (inv : w.Inv) (waits : w.stopwait d = some p) :
    Procs.Timers (· ≠ .proc d .sleep) w.procs := by
  rintro q v r found set rfl
  rcases (inv.tidy q v found).1 _ set with ⟨sleeps, link⟩
  obtain rfl : d = q := (inv.tidy q v found).2.1 _ sleeps link d rfl
  have unset := ((inv.lives d p waits).2 v found sleeps link).2
  rw [set] at unset
  cases unset

theorem Inv.table {a : Act} (inv : w.Inv) (called : w.Called (.table a))
    (survives : ∀ d p, w.Waiting d p → (w.procs.step a).board.Alive p) :
    Inv { w with procs := w.procs.step a } := by
  rcases called with ⟨promised, plain, idle, unwoken⟩
  have apart (d p : Pid) (waits : w.stopwait d = some p) : a.actor ≠ some d := by
    intro same
    rw [idle d same] at waits
    cases waits
  apply inv.frame
  · exact moves_step inv.board promised (Procs.within_any a)
  · apply frame_step inv.board promised plain
    cases a <;> simp [Procs.Woken, Procs.Timers]
  · intro d p waits
    exact moves_step inv.board promised (within_waiting promised (apart d p waits))
  · intro d p waits
    apply frame_step inv.board promised plain
    cases a with
    | wakeup r =>
        rintro rfl
        exact unwoken d rfl
    | timerintr order now => exact ⟨timers_apart inv waits, by simp⟩
    | _ => simp [Procs.Woken]
  · exact survives

theorem modify_comm {s : Procs} {f g : Proc → Proc} (comm : ∀ t, f (g t) = g (f t)) :
    (s.modify me f).modify p g = (s.modify p g).modify me f := by
  simp only [Procs.modify, Procs.mk.injEq, and_true]
  funext q
  rcases eq_or_ne q me with rfl | differs
  · rcases eq_or_ne q p with rfl | apart
    · simp [Function.comp_def, comm]
    · simp [apart]
  · rcases eq_or_ne q p with rfl | apart
    · simp [differs]
    · simp [differs, apart]

/-- No process names this one as its debugger. -/
def Nobodys (w : ProcDev) (me : Pid) : Prop :=
  ∀ q t, w.procs.tab q = some t → t.pdbg ≠ some me

def acted (w : ProcDev) (me : Pid) : ProcDev := { w with procs := (w.procs.interrupted me).2 }

theorem Inv.acted (inv : w.Inv) (idle : w.stopwait me = none) : (w.acted me).Inv :=
  inv.edit ⟨fun _ => rfl, fun _ => rfl, fun _ => rfl⟩ (fun _ => rfl) (fun _ => rfl) (.inl idle)

theorem Nobodys.acted (nobodys : w.Nobodys me) : (w.acted me).Nobodys me := by
  intro q t found
  rcases tab_modify found with ⟨u, there, ⟨-, rfl⟩ | ⟨-, rfl⟩⟩
  · exact nobodys q t there
  · exact nobodys q u there

theorem Inv.finish (inv : w.Inv) (active : w.procs.Active me) (waits : w.stopwait me = some p)
    (mine : w.Noted me → ∀ t, w.procs.tab p = some t → t.pdbg = none ∨ t.pdbg = some me) :
    (w.stopwaited me p n).2.Inv ∧ (w.stopwaited me p n).2.stopwait me = none ∧
      (w.stopwaited me p n).2.Nobodys me ∧
        (w.Noted me → (w.stopwaited me p n).1 = .error eintr) := by
  rcases noted : (w.procs.tab me).any (·.notepending)
  · have unnoted : ¬w.Noted me := by
      rintro ⟨t, found, pending⟩
      rw [found] at noted
      simp [pending] at noted
    have nobodys : w.Nobodys me := by
      intro q t found named
      rcases (inv.named me q t found named).2 with asleep | pending
      · exact not_asleep_of_active active asleep
      · exact unnoted pending
    have same : (w.stopwaited me p n).2 =
        ProcDev.acted { w with stopwait := Function.update w.stopwait me none } me := by
      simp only [stopwaited, Procs.interrupted, noted, ProcDev.acted, Bool.false_eq_true, if_false]
      split <;> rfl
    rw [same]
    exact ⟨(inv.release nobodys).acted (by simp), by simp [ProcDev.acted], Nobodys.acted nobodys,
      fun pending => absurd pending unnoted⟩
  · have pending : w.Noted me := by
      rcases Option.any_eq_true .. |>.mp noted with ⟨t, found, pending⟩
      exact ⟨t, found, pending⟩
    let v : ProcDev := { w with procs := w.procs.modify p (Proc.debuggedBy none) }
    have undebugged : v.Inv := inv.undebug active (mine pending)
    have nobodys : v.Nobodys me := by
      intro q t found named
      rcases tab_modify found with ⟨u, there, ⟨apart, rfl⟩ | ⟨-, rfl⟩⟩
      · have waits' := (inv.named me q t there named).1
        exact apart (Option.some_inj.mp (waits'.symm.trans waits))
      · cases named
    have same : w.stopwaited me p n = (.error eintr,
        ProcDev.acted { v with stopwait := Function.update w.stopwait me none } me) := by
      have comm : (w.procs.modify me fun t => { t with notepending := false }).modify p
          (Proc.debuggedBy none) = (w.procs.modify p (Proc.debuggedBy none)).modify me
            fun t => { t with notepending := false } := modify_comm fun _ => rfl
      simp only [stopwaited, Procs.interrupted, noted, ProcDev.acted, v, if_true, comm]
    rw [same]
    exact ⟨(undebugged.release nobodys).acted (by simp), by simp [ProcDev.acted],
      Nobodys.acted nobodys, fun _ => rfl⟩

theorem quiet_asked (ctl : Option Procctl) : Quiet (Proc.asked ctl) :=
  ⟨fun _ => rfl, fun _ => rfl, fun _ => rfl⟩

theorem quiet_psstated (text : String) : Quiet (Proc.psstated text) :=
  ⟨fun _ => rfl, fun _ => rfl, fun _ => rfl⟩

/-- A process that is asked to stop, and a caller about to wait for it. -/
def asking (w : ProcDev) (me p : Pid) (ctl : Option Procctl) : ProcDev :=
  { w with procs := (w.procs.modify p (Proc.asked ctl)).modify me (Proc.psstated "Stopwait") }

theorem Inv.asking {ctl : Option Procctl} (inv : w.Inv) : (w.asking me p ctl).Inv :=
  (inv.edit (quiet_asked ctl) (fun _ => rfl) (fun _ => rfl) (.inr fun _ => rfl)).edit
    (quiet_psstated _) (fun _ => rfl) (fun _ => rfl) (.inr fun _ => rfl)

/-- The caller of `procstopwait` comes to sleep, or to have a note to act on. -/
def slept (w : ProcDev) (me p : Pid) (ctl : Option Procctl) : Bool × ProcDev :=
  let (slept, procs) := ((w.asking me p ctl).procs.modify p (Proc.debuggedBy (some me))).sleep me
    (.proc me .sleep) false
  (slept, { w with procs, stopwait := Function.update w.stopwait me (some p) })

theorem asking_debugged {ctl : Option Procctl} :
    (w.asking me p ctl).procs.modify p (Proc.debuggedBy (some me)) =
      (w.procs.modify p fun t => (t.asked ctl).debuggedBy (some me)).modify me
        (Proc.psstated "Stopwait") := by
  have comm : (w.asking me p ctl).procs.modify p (Proc.debuggedBy (some me)) =
      ((w.procs.modify p (Proc.asked ctl)).modify p (Proc.debuggedBy (some me))).modify me
        (Proc.psstated "Stopwait") := modify_comm fun _ => rfl
  refine comm.trans (congrArg (Procs.modify · me (Proc.psstated "Stopwait")) ?_)
  simp only [Procs.modify, Procs.mk.injEq, and_true]
  funext q
  rcases eq_or_ne q p with rfl | differs
  · simp [Function.comp_def]
  · simp [differs]

theorem active_countsleep {s : Procs} {r : Rid} (active : s.Active me) :
    (s.countsleep p r).Active me := by
  rw [Procs.countsleep]
  split_ifs <;> exact active

theorem slept_awake {ctl : Option Procctl} (awake : (w.slept me p ctl).1 = false) :
    ((w.slept me p ctl).2.procs.tab me).any (·.notepending) = true ∧
      (w.slept me p ctl).2.procs = (((w.asking me p ctl).procs.modify p
        (Proc.debuggedBy (some me))).countsleep me (.proc me .sleep)).modify me
          fun t => { t with sleep := none } := by
  simp only [slept, Procs.sleep, Bool.false_or] at awake ⊢
  split_ifs at awake ⊢ with pending
  refine ⟨?_, rfl⟩
  simpa [Procs.setRendez, Option.any_map, Function.comp_def] using pending

theorem procstopwait_eq {ctl : Option Procctl} {t : Proc} (found : w.procs.tab p = some t)
    (free : t.pdbg = none) (running : ¬(t.state = .stopped ∨ t.state = .broken))
    (idle : w.stopwait me = none) :
    w.procstopwait me p ctl =
      if (w.slept me p ctl).1 = true then (.ok false, (w.slept me p ctl).2)
      else (.error eintr, ((w.slept me p ctl).2.stopwaited me p 0).2) := by
  have code : w.procstopwait me p ctl =
      if (w.slept me p ctl).1 = true then (.ok false, (w.slept me p ctl).2)
      else (.error eintr, { w with procs :=
        ((w.slept me p ctl).2.procs.interrupted me).2.modify p (Proc.debuggedBy none) }) := by
    simp only [ProcDev.procstopwait, found, free, Option.isSome_none, Bool.false_eq_true,
      if_false, if_neg running, slept, asking_debugged]
    split
    case h_1 s' slept =>
      rw [slept]
      rfl
    case h_2 s' awake =>
      rw [awake]
      rfl
  rw [code]
  rcases awake : (w.slept me p ctl).1
  · have noted := (slept_awake awake).1
    have back : Function.update (w.slept me p ctl).2.stopwait me none = w.stopwait := by
      simp only [slept, Function.update_idem]
      rw [← idle, Function.update_eq_self]
    simp only [stopwaited, Procs.interrupted, noted, back, if_true]
    rfl
  · rfl

theorem Inv.slept {ctl : Option Procctl} (inv : w.Inv) (active : w.procs.Active me)
    (idle : w.stopwait me = none) {t : Proc} (found : w.procs.tab p = some t)
    (free : t.pdbg = none) (alive : ¬w.Noted me → t.status = none) (running : t.state ≠ .stopped)
    (user : t.kp = false) (real : p ≠ 0) : (w.slept me p ctl).2.Inv := by
  have asked : ∃ u, (w.asking me p ctl).procs.tab p = some u ∧ u.pdbg = none ∧
      u.status = t.status ∧ u.state ≠ .stopped ∧ u.kp = false := by
    rcases eq_or_ne p me with rfl | differs
    · exact ⟨(t.asked ctl).psstated "Stopwait", by simp [ProcDev.asking, found], free, rfl,
        running, user⟩
    · exact ⟨t.asked ctl, by simp [ProcDev.asking, found, differs], free, rfl, running, user⟩
  rcases asked with ⟨u, found', free', same, running', user'⟩
  have active' : (w.asking me p ctl).procs.Active me :=
    active_modify (active_modify active fun _ => ⟨rfl, rfl⟩) fun _ => ⟨rfl, rfl⟩
  have noted (was : w.Noted me) : (w.asking me p ctl).Noted me := by
    rcases was with ⟨v, there, pending⟩
    rcases eq_or_ne me p with rfl | differs
    · exact ⟨(v.asked ctl).psstated "Stopwait", by simp [ProcDev.asking, there], pending⟩
    · exact ⟨v.psstated "Stopwait", by simp [ProcDev.asking, there, differs], pending⟩
  exact inv.asking.wait active' idle found' free'
    (fun unnoted => same.trans (alive fun was => unnoted (noted was))) running' user' real

theorem Inv.procstopwait {ctl : Option Procctl} (inv : w.Inv) (active : w.procs.Active me)
    (idle : w.stopwait me = none) (real : p ≠ 0)
    (user : ∀ t, w.procs.tab p = some t → t.kp = false)
    (lives : ∀ t, w.procs.tab p = some t → t.pdbg = none → ¬w.Noted me →
      t.status = none ∨ t.state = .stopped ∨ t.state = .broken) :
    (w.procstopwait me p ctl).2.Inv := by
  rcases found : w.procs.tab p with _ | t
  · simp only [ProcDev.procstopwait, found]
    exact inv
  rcases free : t.pdbg with _ | d
  · by_cases running : t.state = .stopped ∨ t.state = .broken
    · simp only [ProcDev.procstopwait, found, free, Option.isSome_none, Bool.false_eq_true,
        if_false, if_pos running]
      exact inv
    · rw [procstopwait_eq found free running idle]
      rcases not_or.mp running with ⟨unstopped, unbroken⟩
      have alive (unnoted : ¬w.Noted me) : t.status = none := by
        rcases lives t found free unnoted with alive | stopped | broken
        · exact alive
        · exact absurd stopped unstopped
        · exact absurd broken unbroken
      have rested : (w.slept me p ctl).2.Inv :=
        inv.slept active idle found free alive unstopped (user t found) real
      split_ifs with asleep
      · exact rested
      · have kept : (w.slept me p ctl).1 = false := by simpa using asleep
        have awake := (slept_awake kept).2
        have still : (w.slept me p ctl).2.procs.Active me := by
          have asked : (w.asking me p ctl).procs.Active me :=
            active_modify (active_modify active fun _ => ⟨rfl, rfl⟩) fun _ => ⟨rfl, rfl⟩
          rw [awake]
          refine active_modify (active_countsleep ?_) fun _ => ⟨rfl, rfl⟩
          exact active_modify asked fun _ => ⟨rfl, rfl⟩
        have mine (u : Proc) (there : (w.slept me p ctl).2.procs.tab p = some u) :
            u.pdbg = some me := by
          rw [awake] at there
          rcases tab_modify there with ⟨v, there', same⟩
          rw [Procs.tab_countsleep] at there'
          rcases tab_modify there' with ⟨x, -, ⟨differs, -⟩ | ⟨-, rfl⟩⟩
          · exact absurd rfl differs
          · rcases same with ⟨-, rfl⟩ | ⟨-, rfl⟩ <;> rfl
        exact (rested.finish still (by simp [ProcDev.slept]) fun _ u there => .inr (mine u there)).1
  · simp only [ProcDev.procstopwait, found, free, Option.isSome_some, if_true]
    exact inv

theorem survives {a : Act} (inv : w.Inv) (called : w.Called (.table a))
    (stays : ∀ p status, a = .exits p status → ∀ d, ¬w.Waiting d p) (waiting : w.Waiting d p) :
    (w.procs.step a).board.Alive p := by
  rcases inv.debugs d p waiting with ⟨t, found, -, alive, -⟩
  have within : w.procs.Within { Scope.any with exits := (· ≠ p) } a := by
    cases a with
    | exits pid status =>
        rintro rfl
        exact stays pid status rfl d waiting
    | _ => simp [Procs.Within, Scope.any]
  exact Board.Alive.moves (moves_step inv.board called.1 within)
    ⟨t.view, board_view found, by simp [Proc.view, alive]⟩ inv.board (by simp)

theorem Inv.does {a : Act} (inv : w.Inv) (called : Procs.Callers Procs.Active w.procs a)
    (plain : Procs.Undebugged a) (others : a.actor = none) (unwoken : ∀ r, a ≠ .wakeup r) :
    Inv { w with procs := w.procs.step a } := by
  have promised : w.Called (.table a) := by
    refine ⟨called, plain, fun d same => ?_, fun d => unwoken _⟩
    rw [others] at same
    cases same
  apply inv.table promised
  intro d p waiting
  apply survives inv promised _ waiting
  rintro p status rfl
  cases others

theorem Inv.kill (inv : w.Inv) : (w.kill p n).2.Inv := by
  rw [ProcDev.kill]
  rcases found : w.procs.tab p with _ | t
  · exact inv
  simp only
  split_ifs with broken stopped
  · exact inv.does (a := .unbreak p) trivial trivial rfl (by simp)
  all_goals
    have asked : Inv { w with procs := w.procs.modify p (Proc.asked (some .exitme)) } :=
      inv.edit (quiet_asked _) (fun _ => rfl) (fun _ => rfl) (.inr fun _ => rfl)
    have noted := asked.does (a := .postnote p "sys: killed" .nexit) trivial trivial rfl (by simp)
  · apply noted.does (a := .ready p) _ trivial rfl (by simp)
    refine ⟨(t.asked (some .exitme)).addnote "sys: killed" .nexit, ?_, .inr stopped⟩
    have state : (t.asked (some .exitme)).state = .stopped := stopped
    simp [Procs.step, Procs.postnote, found, state]
  · exact noted

theorem quiet_started (ctl : Option Procctl) : Quiet (Proc.started ctl) :=
  ⟨fun _ => rfl, fun _ => rfl, fun _ => rfl⟩

theorem Inv.restart {ctl : Option Procctl} (inv : w.Inv) : (w.restart p ctl).2.Inv := by
  rw [ProcDev.restart]
  rcases found : w.procs.tab p with _ | t
  · exact inv
  simp only
  split_ifs with running
  · exact inv
  · have started : Inv { w with procs := w.procs.modify p (Proc.started ctl) } :=
      inv.edit (quiet_started ctl) (fun _ => rfl) (fun _ => rfl) (.inr fun _ => rfl)
    apply started.does (a := .ready p) _ trivial rfl (by simp)
    exact ⟨t.started ctl, by simp [found], .inr (not_not.mp running)⟩

theorem up_ready {s : Procs} : (s.ready p).up = s.up := by
  simp only [Procs.ready, Procs.queueproc, Procs.setstate, Procs.updatecpu, Procs.claim,
    Procs.modify]
  split_ifs <;> rfl

theorem active_of_runs {s : Procs} (up : s.up = some me) (runs : s.board.Runs me) :
    s.Active me := by
  rcases runs with ⟨v, view, running, alive⟩
  rcases Procs.tab_of_board_view view with ⟨t, found, rfl⟩
  exact ⟨up, t, found, running, by simpa [Proc.view] using alive⟩

theorem runs_of_active {s : Procs} (active : s.Active me) : s.board.Runs me := by
  rcases active with ⟨-, t, found, running, alive⟩
  exact ⟨t.view, board_view found, running, by simp [Proc.view, alive]⟩

theorem restart_started {ctl : Option Procctl} {v : ProcDev} (inv : w.Inv)
    (active : w.procs.Active me) (started : w.restart p ctl = (.ok (), v)) :
    v.procs.Active me ∧ v.stopwait = w.stopwait ∧ v.procs.board.Alive p ∧
      ∀ t, v.procs.tab p = some t → ∃ u, w.procs.tab p = some u ∧ t.kp = u.kp := by
  simp only [restart] at started
  rcases found : w.procs.tab p with _ | t
  · simp [found] at started
  simp only [found] at started
  split_ifs at started with running
  · simp at started
  simp only [Prod.mk.injEq, true_and] at started
  subst started
  have stopped : t.state = .stopped := not_not.mp running
  have differs : me ≠ p := by
    rintro rfl
    rcases active with ⟨-, u, here, runs, -⟩
    obtain rfl : t = u := Option.some_inj.mp (found.symm.trans here)
    rw [stopped] at runs
    cases runs
  let asked := w.procs.modify p (Proc.started ctl)
  have same : asked.board = w.procs.board := Procs.board_quiet (quiet_started ctl)
  have view : asked.board.view p = some t.view := same ▸ board_view found
  have moves : Procs.Moves .still asked (asked.ready p) :=
    Procs.steps_ready view (.inr (.inr (.inl stopped)))
  have before : asked.Active me := active_modify active fun _ => ⟨rfl, rfl⟩
  refine ⟨?_, rfl, ?_, fun t' found' => ?_⟩
  · apply active_of_runs (up_ready.trans before.1)
    rcases Procs.board_ready view with ⟨pri, -, board⟩
    rw [board]
    apply Board.Runs.edit (runs_of_active before)
    intro u here runs
    obtain rfl : t.view = u := Option.some_inj.mp (view.symm.trans here)
    exact absurd (stopped.symm.trans runs) (by simp)
  · have lives : asked.board.Alive p := ⟨t.view, view,
        (inv.tidy p _ (board_view found)).2.2 stopped⟩
    exact lives.moves moves (same ▸ inv.board) id
  · have loose : Procs.Loose (fun _ => True) asked p := fun _ _ _ _ _ => .inl trivial
    rcases (Procs.frame_ready loose).left p t' found' with ⟨u, there, leaves⟩ | ⟨later, -⟩
    · rcases tab_modify there with ⟨x, here, ⟨-, rfl⟩ | ⟨-, rfl⟩⟩
      · exact ⟨u, found.symm.trans here, leaves.kp⟩
      · exact ⟨x, found.symm.trans here, leaves.kp⟩
    · exact absurd later (inv.board.wf.known (board_view found)).not_ge

theorem Inv.procctlreq {cm : Cm} (inv : w.Inv) (active : w.procs.Active me)
    (idle : w.stopwait me = none) (real : p ≠ 0)
    (user : ∀ t, w.procs.tab p = some t → t.kp = false)
    (lives : cm = .stop ∨ cm = .waitstop → ∀ t, w.procs.tab p = some t → t.pdbg = none →
      ¬w.Noted me → t.status = none ∨ t.state = .stopped ∨ t.state = .broken) :
    (w.procctlreq me p cm n).2.Inv := by
  cases cm with
  | kill => exact inv.kill
  | start => exact inv.restart
  | stop => exact inv.procstopwait active idle real user (lives (.inl rfl))
  | waitstop => exact inv.procstopwait active idle real user (lives (.inr rfl))
  | startstop | startsyscall =>
      simp only [ProcDev.procctlreq]
      split
      case h_1 e v failed =>
        have same : _ = v := congrArg Prod.snd failed
        exact same ▸ inv.restart
      case h_2 v started =>
        have same : _ = v := congrArg Prod.snd started
        rcases restart_started inv active started with ⟨still, waits, alive, kept⟩
        apply Inv.procstopwait (same ▸ inv.restart) still (waits ▸ idle) real
        · intro t found
          rcases kept t found with ⟨u, there, kp⟩
          exact kp.trans (user u there)
        · intro t found _ _
          rcases tab_of_alive alive with ⟨u, there, lives⟩
          exact .inl (Option.some_inj.mp (found.symm.trans there) ▸ lives)

theorem Inv.write {cm : Cm} (inv : w.Inv) (called : w.Called (.write me p cm n))
    (orderly : w.Orderly (.write me p cm n)) : (w.write me p cm n).2.Inv := by
  rcases called with ⟨active, same⟩
  rcases orderly with ⟨returns, lives⟩
  rw [ProcDev.write]
  split_ifs with nobody refused kp
  · exact inv
  · exact inv
  · exact inv
  · rcases waits : w.stopwait me with _ | target
    · have user (t : Proc) (found : w.procs.tab p = some t) : t.kp = false := by
        simpa [found] using kp
      apply inv.procctlreq active waits nobody user
      intro asks t found
      exact lives waits asks t found (by simpa using refused) (user t found)
    · exact (inv.finish active waits (returns target waits).2).1

theorem Inv.procctl (inv : w.Inv) (called : w.Called (.procctl p))
    (orderly : w.Orderly (.procctl p)) : Inv { w with procs := (w.procs.procctl p).2 } := by
  rcases called with ⟨active, idle⟩
  rw [Procs.procctl]
  rcases found : w.procs.tab p with _ | t
  · exact inv
  simp only
  split
  case h_1 asked =>
    have done : Inv { w with procs := w.procs.modify p fun t => { t with procctl := none } } :=
      inv.edit ⟨fun _ => rfl, fun _ => rfl, fun _ => rfl⟩ (fun _ => rfl) (fun _ => rfl)
        (.inr fun _ => rfl)
    have still : (w.procs.modify p fun t => { t with procctl := none }).Active p :=
      active_modify active fun _ => ⟨rfl, rfl⟩
    have same : (w.procs.modify p fun t => { t with procctl := none }).board = w.procs.board :=
      Procs.board_quiet ⟨fun _ => rfl, fun _ => rfl, fun _ => rfl⟩
    have promised : Called { w with procs := w.procs.modify p fun t => { t with procctl := none } }
        (.table (.exits p "Killed")) := by
      refine ⟨.inl still, trivial, ?_, by simp⟩
      rintro d ⟨⟩
      exact idle
    apply done.table promised
    intro d q waiting
    apply survives done promised _ waiting
    rintro q status ⟨⟩ d ⟨waits, asleep⟩
    exact orderly t found asked d ⟨waits, same ▸ asleep⟩
  case h_2 =>
    split_ifs
    · exact inv
    · exact inv.stop active idle
  case h_3 => exact inv.stop active idle
  case h_4 => exact inv
  case h_5 => exact inv

theorem Inv.step {a : TraceAct} (inv : w.Inv) (called : w.Called a) (orderly : w.Orderly a) :
    (w.step a).Inv := by
  cases a with
  | table a =>
      apply inv.table called
      intro d p waiting
      apply survives inv called _ waiting
      rintro q status rfl
      exact orderly
  | procctl up => exact inv.procctl called orderly
  | interrupted pid => exact inv.acted called
  | write me pid cm n => exact inv.write called orderly
  | hostowner name =>
      exact { inv with }

/-- A step that keeps the callers' promises, and to the rule. -/
def Kept (w : ProcDev) (a : TraceAct) : Prop := w.Called a ∧ w.Orderly a

theorem inv_first (new : w.procs = Procs.new) (nobody : w.stopwait = fun _ => none) : w.Inv := by
  have first {pid : Pid} {t : Proc} (found : w.procs.tab pid = some t) : t = Proc.root 1 := by
    simp only [new, Procs.new] at found
    split_ifs at found
    exact (Option.some_inj.mp found).symm
  have tidy : w.procs.board.Tidy := by
    intro pid v view
    rcases Procs.tab_of_board_view view with ⟨t, found, rfl⟩
    rw [first found]
    refine ⟨fun r set => ?_, fun r asleep => ?_, fun stopped => ?_⟩
    · cases set
    · cases asleep
    · cases stopped
  refine ⟨new ▸ Procs.inv_new, tidy, ?_, ?_, ?_, fun d p t found named => ?_⟩
  · intro d p waits
    rw [nobody] at waits
    cases waits
  · intro d p waits
    rw [nobody] at waits
    cases waits
  · rintro d p ⟨waits, -⟩
    rw [nobody] at waits
    cases waits
  · rw [first found] at named
    cases named

theorem inv_of_reach (reached : tracing.Reach Kept w) : w.Inv := by
  apply System.Reach.invariant Inv _ _ reached
  · rintro w ⟨new, nobody⟩
    exact inv_first new nobody
  · rintro w a w' inv ⟨called, orderly⟩ rfl
    exact inv.step called orderly

/-- The debugger is awake, and no process names it any more. -/
structure Freed (w : ProcDev) (d : Pid) : Prop where
  ready : w.procs.state d = .ready
  nobodys : w.Nobodys d

theorem freed_stop (inv : w.Inv) (active : w.procs.Active p) (idle : w.stopwait p = none)
    (waiting : w.Waiting d p) : Freed { w with procs := w.procs.stop p } d := by
  rcases inv.debugs d p waiting with ⟨t, found, named, -⟩
  have differs : d ≠ p := by
    rintro rfl
    rw [waiting.1] at idle
    cases idle
  have stopped := inv.stop active idle
  constructor
  · exact ready_of_stop found named waiting.2 (inv.lives d p waiting.1).2 differs
  · intro q u there names
    have same : q = p := by
      have waits : w.stopwait d = some q := (stopped.named d q u there names).1
      exact Option.some_inj.mp (waits.symm.trans waiting.1)
    subst same
    rcases (frame_stop found).left q u there with ⟨v, here, leaves⟩ | ⟨-, nobody⟩
    · rcases tab_modify here with ⟨x, -, ⟨apart, -⟩ | ⟨-, rfl⟩⟩
      · exact absurd rfl apart
      · rw [leaves.pdbg] at names
        cases names
    · rw [nobody] at names
      cases names

theorem freed_procctl (inv : w.Inv) (called : w.Called (.procctl p))
    (stops : (w.procs.procctl p).1 = some .sched) (waiting : w.Waiting d p) :
    Freed (w.step (.procctl p)) d := by
  have stopped := freed_stop inv called.1 called.2 waiting
  have same : (w.procs.procctl p).2 = w.procs.stop p := by
    simp only [Procs.procctl] at stops ⊢
    rcases found : w.procs.tab p with _ | t
    · simp [found] at stops
    · simp only [found] at stops ⊢
      split at stops
      · simp at stops
      · split_ifs at stops ⊢
        rfl
      · rfl
      · simp at stops
      · simp at stops
  have step : w.step (.procctl p) = { w with procs := w.procs.stop p } := by rw [ProcDev.step, same]
  rw [step]
  exact stopped

theorem noted_postnote {msg : String} {flag : NoteFlag} (inv : w.Inv) (waiting : w.Waiting d p) :
    (w.step (.table (.postnote d msg flag))).procs.state d = .ready ∧
      (w.step (.table (.postnote d msg flag))).Noted d := by
  rcases tab_of_asleep waiting.2 with ⟨t, found, sleeps, link⟩
  rcases Procs.board_postnote msg flag found sleeps link with ⟨pri, -, same⟩
  have free : (w.procs.board.roused d (.proc d .sleep) pri).Free d :=
    Board.free_roused (board_view found)
  rcases free with ⟨v, view, ready, -⟩
  rw [← same] at view
  rcases Procs.tab_of_board_view view with ⟨t', found', rfl⟩
  refine ⟨(state_eq found').trans ready, t', found', ?_⟩
  have frame : Procs.Frame (fun _ => True) (w.procs.modify d (Proc.addnote msg flag))
      (w.procs.postnote d msg flag).2 := Procs.frame_noted msg flag found
  rcases frame.left d t' found' with ⟨u, there, leaves⟩ | ⟨later, -⟩
  · rcases tab_modify there with ⟨x, -, ⟨apart, -⟩ | ⟨-, rfl⟩⟩
    · exact absurd rfl apart
    · exact leaves.noted rfl
  · exact absurd later (inv.board.wf.known (board_view found)).not_ge

theorem finish_write {cm : Cm} (inv : w.Inv) (waits : w.stopwait d = some p)
    (kept : w.Kept (.write d p cm n)) :
    (w.write d p cm n) = w.stopwaited d p n := by
  rcases inv.reaches d p waits with ⟨real, -, user⟩
  have allowed := (kept.2.1 p waits).1
  have open_ : (w.procs.tab p).any (·.kp) = false := by
    rcases found : w.procs.tab p with _ | t
    · rfl
    · simpa using user t found
  simp [write, real, allowed, open_, waits]

/-- In every run in which no process exits while a debugger sleeps for it, `stop` and
`waitstop` are not asked of one that has exited, and a debugger whose wait is over can end it,
whoever sleeps in `procstopwait` is named, alone, by a process that lives and is not stopped;
a stop lets the debugger go, and a note wakes it and ends its wait when its write goes on. -/
theorem stopwait_ends (reached : tracing.Reach Kept w) :
    (∀ d p, w.Waiting d p →
      w.Debugs d p ∧ ¬(w.procs.state p).Exited ∧ ∀ e, w.Waiting e p → e = d) ∧
    (∀ d p, w.Waiting d p → w.Called (.procctl p) → (w.procs.procctl p).1 = some .sched →
      Freed (w.step (.procctl p)) d) ∧
    (∀ d p msg flag, w.Waiting d p →
      (w.step (.table (.postnote d msg flag))).procs.state d = .ready ∧
        (w.step (.table (.postnote d msg flag))).Noted d) ∧
    (∀ d p t, w.procs.tab p = some t → t.pdbg = some d →
      w.stopwait d = some p ∧ (w.Waiting d p ∨ w.Noted d)) ∧
    ∀ d p cm n, w.stopwait d = some p → w.Kept (.write d p cm n) →
      (w.step (.write d p cm n)).stopwait d = none ∧ (w.step (.write d p cm n)).Nobodys d ∧
        (w.Noted d → (w.write d p cm n).1 = .error eintr) := by
  have inv := inv_of_reach reached
  refine ⟨fun d p waiting => ?_, fun d p waiting called stops => ?_,
    fun d p msg flag waiting => ?_, fun d p t found named => ?_, fun d p cm n waits kept => ?_⟩
  · have debugs := inv.debugs d p waiting
    rcases debugs with ⟨t, found, named, alive, -⟩
    refine ⟨inv.debugs d p waiting, fun exited => ?_, fun e other => ?_⟩
    · rw [state_eq found] at exited
      have ended := (inv.board.wf.sound p _ (board_view found)).2 exited
      simp [Proc.view, alive] at ended
    · rcases inv.debugs e p other with ⟨u, there, named', -⟩
      obtain rfl : t = u := Option.some_inj.mp (found.symm.trans there)
      exact Option.some_inj.mp (named'.symm.trans named)
  · exact freed_procctl inv called stops waiting
  · exact noted_postnote inv waiting
  · rcases inv.named d p t found named with ⟨waits, how⟩
    exact ⟨waits, how.imp_left fun asleep => ⟨waits, asleep⟩⟩
  · have finished := inv.finish (n := n) kept.1.1 waits (kept.2.1 p waits).2
    simp only [step, finish_write inv waits kept]
    exact finished.2

def first : ProcDev := { procs := Procs.new, stopwait := fun _ => none, eve := "eve" }

def asked : ProcDev :=
  ((first.step (.table (.rfork 1 Rf.proc))).step (.table (.ready 2))).step (.write 1 2 .stop 4)

theorem reach_asked {ok : ProcDev → TraceAct → Prop} (kept : ∀ w a, Kept w a → ok w a) :
    tracing.Reach ok asked := by
  have new : tracing.Reach ok first := .init ⟨rfl, rfl⟩
  have made : tracing.Reach ok (first.step (.table (.rfork 1 Rf.proc))) := by
    refine .step new (kept _ (.table (.rfork 1 Rf.proc))
        ⟨⟨Procs.callers_forked.1, trivial, ?_, by simp⟩, trivial⟩) rfl
    exact fun _ _ => rfl
  have readied : tracing.Reach ok
      ((first.step (.table (.rfork 1 Rf.proc))).step (.table (.ready 2))) := by
    refine .step made (kept _ (.table (.ready 2))
        ⟨⟨Procs.callers_forked.2, trivial, ?_, by simp⟩, trivial⟩) rfl
    exact fun _ _ => rfl
  refine .step readied (kept _ (.write 1 2 .stop 4) ⟨⟨⟨rfl, _, rfl, rfl, rfl⟩, ?_⟩, ?_, ?_⟩) rfl
  · rintro p ⟨⟩
  · rintro p ⟨⟩
  · rintro - - t ⟨⟩ - - - -
    exact .inl rfl

theorem waiting_asked : asked.Waiting 1 2 := ⟨rfl, _, rfl, rfl, rfl⟩

theorem stopwait_ends_asked : asked.Debugs 1 2 := by
  have reached : tracing.Reach Kept asked := reach_asked fun _ _ kept => kept
  exact ((stopwait_ends reached).1 1 2 waiting_asked).1

/-- The child exits, and the first process sleeps on, waiting for it to stop. -/
theorem stopwait_ends_fails :
    ¬∀ w, tracing.Reach Called w → ∀ d p, w.Waiting d p → w.Debugs d p := by
  intro holds
  have runs : tracing.Reach Called (asked.step (.table .sched)) := by
    refine .step (a := .table .sched) (reach_asked fun _ _ kept => kept.1)
      ⟨trivial, trivial, ?_, by simp⟩ rfl
    rintro d ⟨⟩
  have gone : tracing.Reach Called ((asked.step (.table .sched)).step (.table (.exits 2 ""))) := by
    refine .step runs (a := .table (.exits 2 "")) ⟨.inl ?_, trivial, ?_, by simp⟩ rfl
    · exact ⟨rfl, _, rfl, rfl, rfl⟩
    · rintro d ⟨⟩
      rfl
  rcases holds _ gone 1 2 ⟨rfl, _, rfl, rfl, rfl⟩ with ⟨t, found, -, alive, -⟩
  cases found
  cases alive

end ProcDev

end Ipnx
