import Ipnx.Proc.Pairing
import Ipnx.Proc.RunQueue
import Ipnx.Proc.Sleep

/-!
# The operations are moves

The board of a process table, and for each operation the moves it makes on it. Nothing
after this file unfolds an operation to learn what it does to a state, a queue or a
`Rendez`.
-/

namespace Ipnx

namespace Board

structure Inv (b : Board) : Prop where
  wf : b.Wf
  once : b.Once
  paired : b.doublesleep = 0 → b.Paired

variable {b b' : Board} {scope : Scope}

theorem Inv.move (inv : b.Inv) (moved : Move scope b b') : b'.Inv where
  wf := inv.wf.move moved
  once := inv.once.move inv.wf moved
  paired single := (inv.paired (moved.single single)).move inv.wf moved single

theorem Inv.moves (inv : b.Inv) (moved : Relation.ReflTransGen (Move scope) b b') :
    b'.Inv := by
  induction moved with
  | refl => exact inv
  | tail _ next ih => exact ih.move next

theorem Sorted.moves (sorted : b.Sorted) (inv : b.Inv)
    (still : scope.sorted) (moved : Relation.ReflTransGen (Move scope) b b') : b'.Sorted := by
  induction moved with
  | refl => exact sorted
  | tail before next ih => exact ih.move (inv.moves before).wf next still

theorem edit_edit {pid : Pid} {g h : View → View} :
    (b.edit pid g).edit pid h = b.edit pid fun v => h (g v) := by
  refine Board.ext ?_ rfl rfl rfl rfl rfl rfl rfl
  simp [Board.edit, Function.comp_def]

theorem edit_congr {pid : Pid} {g h : View → View}
    (same : ∀ v, b.view pid = some v → g v = h v) : b.edit pid g = b.edit pid h := by
  refine Board.ext ?_ rfl rfl rfl rfl rfl rfl rfl
  simp only [Board.edit]
  rcases found : b.view pid with _ | v
  · rfl
  · simp [same v found]

theorem sleepOn_edit {pid q : Pid} {r : Rid} {g : View → View} :
    (b.edit pid g).sleepOn q r = (b.sleepOn q r).edit pid g := by
  by_cases clash : (b.rendez r).any (· != q) <;> simp [sleepOn, Board.edit, clash]

theorem setRendez_edit {pid : Pid} {r : Rid} {who : Option Pid} {g : View → View} :
    (b.edit pid g).setRendez r who = (b.setRendez r who).edit pid g := rfl

end Board

def Proc.view (p : Proc) : View where
  state := p.state
  priority := p.priority
  basepri := p.basepri
  r := p.r
  trend := p.trend
  twhen := p.twhen
  ended := p.status.isSome
  rgrp := p.rgrp

/-- A change to a process that the board does not show, and that leaves its own two `Rendez`. -/
structure Quiet (f : Proc → Proc) : Prop where
  view : ∀ p, (f p).view = p.view
  sleep : ∀ p, (f p).sleep = p.sleep
  waitr : ∀ p, (f p).waitr = p.waitr

namespace Procs

variable {s : Procs} {pid : Pid} {f : Proc → Proc} {scope : Scope}
  {change : Board → Board → Prop}

def board (s : Procs) : Board where
  view pid := (s.tab pid).map Proc.view
  runq := s.runq
  nrdy := s.nrdy
  rendez := s.rendez
  doublesleep := s.doublesleep
  rgrps := s.rgrps
  broken := s.broken
  next := s.next

/-- A sequence of changes to the board from one table to another. -/
def Steps (change : Board → Board → Prop) (s s' : Procs) : Prop :=
  Relation.ReflTransGen change s.board s'.board

abbrev Moves (scope : Scope) : Procs → Procs → Prop := Steps (Board.Move scope)

/-- The moves that end waits and shift queued processes. -/
abbrev Rises : Procs → Procs → Prop := Steps Board.Rouse

theorem board_view {p : Proc} (found : s.tab pid = some p) :
    s.board.view pid = some p.view := by
  simp [board, found]

theorem tab_of_board_view {v : View} (found : s.board.view pid = some v) :
    ∃ p, s.tab pid = some p ∧ p.view = v :=
  Option.map_eq_some_iff.mp found

theorem rendez_modify (sleep : ∀ p, (f p).sleep = p.sleep) (waitr : ∀ p, (f p).waitr = p.waitr) :
    (s.modify pid f).rendez = s.rendez := by
  funext r
  unfold rendez
  split
  case h_1 q =>
    rcases eq_or_ne q pid with rfl | differs
    · simp [Option.bind_map, sleep]
    · simp [differs]
  case h_2 q =>
    rcases eq_or_ne q pid with rfl | differs
    · simp [Option.bind_map, waitr]
    · simp [differs]
  case h_3 => rfl

theorem board_modify {g : View → View} (view : ∀ p, s.tab pid = some p → (f p).view = g p.view)
    (sleep : ∀ p, (f p).sleep = p.sleep) (waitr : ∀ p, (f p).waitr = p.waitr) :
    (s.modify pid f).board = s.board.edit pid g := by
  refine Board.ext ?_ rfl rfl (rendez_modify sleep waitr) rfl rfl rfl rfl
  funext q
  rw [Board.edit_view]
  rcases eq_or_ne q pid with rfl | differs
  · rcases found : s.tab q with _ | p
    · simp [board, found]
    · simp [board, found, view p found]
  · simp [board, differs]

theorem board_quiet (quiet : Quiet f) : (s.modify pid f).board = s.board := by
  have same : s.board.edit pid id = s.board := by
    refine Board.ext ?_ rfl rfl rfl rfl rfl rfl rfl
    simp [Board.edit]
  rw [board_modify (g := id) (fun p _ => quiet.view p) quiet.sleep quiet.waitr, same]

theorem view_modify (view : ∀ p, (f p).view = p.view) (q : Pid) :
    ((s.modify pid f).tab q).map Proc.view = (s.tab q).map Proc.view := by
  rcases eq_or_ne q pid with rfl | differs
  · rw [modify_tab_self, Option.map_map]
    exact congrArg (Option.map · _) (funext view)
  · rw [modify_tab_of_ne _ _ _ differs]

theorem rendez_setRendez_of_ne {r r' : Rid} {who : Option Pid} (differs : r' ≠ r) :
    (s.setRendez r who).rendez r' = s.rendez r' := by
  rcases r with ⟨q, _ | _⟩ | _ | _ | _ | _ | _ | _
  case proc.sleep =>
    rcases r' with ⟨q', _ | _⟩ | _ | _ | _ | _ | _ | _
    case proc.sleep =>
      have apart : q' ≠ q := by simpa using differs
      simp [setRendez, rendez, apart]
    case proc.waitr =>
      rcases eq_or_ne q' q with rfl | apart
      · simp [setRendez, rendez, Option.bind_map]
      · simp [setRendez, rendez, apart]
    all_goals rfl
  case proc.waitr =>
    rcases r' with ⟨q', _ | _⟩ | _ | _ | _ | _ | _ | _
    case proc.sleep =>
      rcases eq_or_ne q' q with rfl | apart
      · simp [setRendez, rendez, Option.bind_map]
      · simp [setRendez, rendez, apart]
    case proc.waitr =>
      have apart : q' ≠ q := by simpa using differs
      simp [setRendez, rendez, apart]
    all_goals rfl
  all_goals
    rcases r' with ⟨q', _ | _⟩ | _ | _ | _ | _ | _ | _ <;>
      first
        | exact absurd rfl differs
        | simp [setRendez, rendez, Function.update_of_ne differs]

theorem rendez_setRendez_self {r : Rid} {who : Option Pid}
    (there : ∀ q, r.owner = some q → s.tab q ≠ none ∨ who = none) :
    (s.setRendez r who).rendez r = who := by
  rcases r with ⟨q, _ | _⟩ | _ | _ | _ | _ | _ | _
  case proc.sleep | proc.waitr =>
    rcases found : s.tab q with _ | p
    · have gone := (there q rfl).resolve_left (by simp [found])
      simp [setRendez, rendez, found, gone]
    · simp [setRendez, rendez, found]
  all_goals simp [setRendez, rendez]

theorem view_setRendez {r : Rid} {who : Option Pid} (q : Pid) :
    ((s.setRendez r who).tab q).map Proc.view = (s.tab q).map Proc.view := by
  unfold setRendez
  split
  · apply view_modify
    exact fun _ => rfl
  · apply view_modify
    exact fun _ => rfl
  · rfl

theorem board_setRendez {r : Rid} {who : Option Pid}
    (there : ∀ q, r.owner = some q → s.tab q ≠ none ∨ who = none) :
    (s.setRendez r who).board = s.board.setRendez r who := by
  have meetings : (s.setRendez r who).rendez = Function.update s.rendez r who := by
    funext r'
    rcases eq_or_ne r' r with rfl | differs
    · rw [rendez_setRendez_self there, Function.update_self]
    · rw [rendez_setRendez_of_ne differs, Function.update_of_ne differs]
  refine Board.ext (funext view_setRendez) ?_ ?_ meetings ?_ ?_ ?_ ?_ <;>
    simp only [board, setRendez, Board.setRendez] <;> split <;> rfl

theorem quiet_updatecpuAt (ticks : Nat) (running : Bool) : Quiet (updatecpuAt ticks running) := by
  refine ⟨fun p => ?_, fun p => ?_, fun p => ?_⟩ <;> simp only [updatecpuAt] <;>
    split <;> try split
  all_goals rfl

theorem board_updatecpu (running : Bool) : (s.updatecpu pid running).board = s.board :=
  board_quiet (quiet_updatecpuAt _ _)

theorem reprioritize_le {p : Proc} (found : s.tab pid = some p) :
    s.reprioritize pid ≤ p.basepri := by
  simp only [reprioritize, found]
  split
  · exact le_rfl
  · exact min_le_right _ _

theorem board_claim : (s.claim pid).board = s.board := by
  simp only [claim]
  split <;> rfl

theorem board_queueproc {pri : Nat} :
    (s.queueproc pri pid).board =
      (s.board.edit pid fun v => { v with priority := pri }).queue pri pid := by
  rw [← board_modify (s := s) (f := fun p => { p with priority := pri }) (fun _ _ => rfl)
    (fun _ => rfl) (fun _ => rfl)]
  rfl

theorem board_setstate {st : State} :
    (s.setstate pid st).board = s.board.edit pid fun v => { v with state := st } :=
  board_modify (fun _ _ => rfl) (fun _ => rfl) (fun _ => rfl)

theorem board_ready {v : View} (found : s.board.view pid = some v) :
    ∃ pri ≤ v.basepri, (s.ready pid).board =
      (s.board.edit pid fun v => { v with state := .ready, priority := pri }).queue pri pid := by
  have same : ((s.claim pid).updatecpu pid (s.up == some pid)).board = s.board :=
    (board_updatecpu _).trans board_claim
  rcases tab_of_board_view (same ▸ found) with ⟨p, there, rfl⟩
  refine ⟨_, reprioritize_le there, ?_⟩
  rw [ready, board_queueproc, board_setstate, Board.edit_edit, same]

theorem Steps.refl (s : Procs) : Steps change s s := Relation.ReflTransGen.refl

theorem Steps.of_board {s' : Procs} (same : s'.board = s.board) : Steps change s s' := by
  rw [Steps, same]

theorem Steps.trans {s' s'' : Procs} (before : Steps change s s') (after : Steps change s' s'') :
    Steps change s s'' :=
  Relation.ReflTransGen.trans before after

theorem Steps.of_move {s' : Procs} {b : Board} (moved : change s.board b)
    (same : s'.board = b) : Steps change s s' := by
  rw [Steps, same]
  exact .single moved

theorem Steps.rise {s' : Procs} (rises : Rises s s') : Moves scope s s' :=
  Relation.ReflTransGen.mono (fun _ _ moved => Board.Move.rouse moved) _ _ rises

theorem Steps.inv {s' : Procs} (steps : Moves scope s s') (inv : s.board.Inv) :
    s'.board.Inv :=
  inv.moves steps

theorem Steps.riseInv {s' : Procs} (rises : Rises s s') (inv : s.board.Inv) :
    s'.board.Inv := by
  have moves : Moves Scope.any s s' := rises.rise
  exact moves.inv inv

theorem Steps.foldl {α : Type} {turn : Procs → α → Procs}
    (each : ∀ s a, s.board.Inv → Rises s (turn s a)) (walk : List α)
    (inv : s.board.Inv) : Rises s (walk.foldl turn s) := by
  induction walk generalizing s with
  | nil => exact .refl s
  | cons a rest ih =>
      have turned : Rises s (turn s a) := each s a inv
      exact turned.trans (ih (turned.riseInv inv))

theorem steps_modify (quiet : Quiet f) : Moves scope s (s.modify pid f) :=
  .of_board (board_quiet quiet)

theorem steps_ready {v : View} (found : s.board.view pid = some v)
    (source : v.state = .scheding ∨ v.state = .running ∨ v.state = .stopped ∨
      v.state = .queueing ∧ scope.hands pid) : Moves scope s (s.ready pid) := by
  rcases board_ready found with ⟨pri, low, same⟩
  exact .of_move (.ready found source low) same

theorem board_rouse {v : View} {r : Rid} (found : s.board.view pid = some v) {s' : Procs}
    (undone : s'.board = (s.board.setRendez r none).edit pid fun v =>
      { v with r := none, trend := none, twhen := none }) :
    ∃ pri ≤ v.basepri, (s'.ready pid).board = s.board.roused pid r pri := by
  have there : s'.board.view pid = some { v with r := none, trend := none, twhen := none } := by
    rw [undone, Board.edit_view, if_pos rfl]
    simp [Board.setRendez, found]
  rcases board_ready there with ⟨pri, low, same⟩
  exact ⟨pri, low, by rw [same, undone, Board.edit_edit, Board.roused]⟩

theorem Steps.of_roused {v : View} {r : Rid} {s' : Procs} (found : s.board.view pid = some v)
    (asleep : v.state = .wakeme) (link : v.r = some r)
    (roused : ∃ pri ≤ v.basepri, s'.board = s.board.roused pid r pri) : Rises s s' := by
  rcases roused with ⟨pri, low, same⟩
  exact .of_move (.woken found asleep link low) same

theorem board_unslept :
    (s.modify pid Proc.unslept).board =
      s.board.edit pid fun v => { v with r := none, trend := none, twhen := none } :=
  board_modify (fun _ _ => rfl) (fun _ => rfl) (fun _ => rfl)

theorem wakeup_asleep {r : Rid} {p : Proc} (there : s.rendez r = some pid)
    (found : s.tab pid = some p) (asleep : p.state = .wakeme) (link : p.r = some r) :
    s.wakeup r = (some pid, ((s.setRendez r none).modify pid Proc.unslept).ready pid) := by
  simp [wakeup, there, found, asleep, link]

theorem board_wakeup {r : Rid} {p : Proc} (there : s.rendez r = some pid)
    (found : s.tab pid = some p) (asleep : p.state = .wakeme) (link : p.r = some r) :
    ∃ pri ≤ p.basepri, (s.wakeup r).2.board = s.board.roused pid r pri := by
  rw [wakeup_asleep there found asleep link]
  refine board_rouse (board_view found) ?_
  rw [board_unslept, board_setRendez fun _ _ => .inr rfl]

theorem steps_wakeup (r : Rid) : Rises s (s.wakeup r).2 := by
  rcases there : s.rendez r with _ | pid
  · simp only [wakeup, there]
    exact .refl s
  · by_cases asleep : (s.tab pid).any fun p => p.state == .wakeme && p.r == some r
    · rcases (Option.any_eq_true _ _).mp asleep with ⟨p, found, holds⟩
      simp only [Bool.and_eq_true, beq_iff_eq] at holds
      exact .of_roused (board_view found) holds.1 holds.2
        (board_wakeup there found holds.1 holds.2)
    · simp only [wakeup, there, asleep]
      exact .refl s

theorem board_untimed :
    (s.modify pid Proc.untimed).board = s.board.edit pid fun v => { v with trend := none } :=
  board_modify (fun _ _ => rfl) (fun _ => rfl) (fun _ => rfl)

theorem board_countsleep {r : Rid} : (s.countsleep pid r).board = s.board.sleepOn pid r := by
  unfold countsleep Board.sleepOn
  split
  case isTrue other => rw [if_pos (show (s.board.rendez r).any (· != pid) from other)]; rfl
  case isFalse alone => rw [if_neg (show ¬(s.board.rendez r).any (· != pid) from alone)]

theorem tab_countsleep {r : Rid} : (s.countsleep pid r).tab = s.tab := by
  unfold countsleep
  split <;> rfl

theorem quiet_setlabel : Quiet fun p => { p with setlabel := true } :=
  ⟨fun _ => rfl, fun _ => rfl, fun _ => rfl⟩

theorem board_sleep {r : Rid} (happened : Bool) (there : s.tab pid ≠ none)
    (mine : r.OpenTo pid) :
    (s.sleep pid r happened).2.board =
      if (s.sleep pid r happened).1 then
        ((s.board.sleepOn pid r).setRendez r (some pid)).edit pid fun v =>
          { v with state := .wakeme, r := some r }
      else (s.board.sleepOn pid r).setRendez r none := by
  unfold sleep
  simp only
  split
  · rw [board_setRendez fun _ _ => .inr rfl, board_countsleep]
    simp
  · have present (q : Pid) (owned : r.owner = some q) : s.tab q ≠ none := by
      rw [mine q owned]
      exact there
    have committed : ∀ t : Procs, (t.modify pid (Proc.sleepat r)).board =
        t.board.edit pid fun v => { v with state := .wakeme, r := some r } :=
      fun t => board_modify (fun _ _ => rfl) (fun _ => rfl) (fun _ => rfl)
    simp only [setlabel, if_true]
    rw [board_quiet quiet_setlabel, committed, board_setRendez, board_countsleep]
    rw [tab_countsleep]
    exact fun q owned => .inl (present q owned)

theorem steps_sleep {p : Proc} {r : Rid} {happened : Bool} (found : s.tab pid = some p)
    (running : p.state = .running) (alive : p.status = none) (mine : r.OpenTo pid)
    (there : scope.sleeps r) : Moves scope s (s.sleep pid r happened).2 := by
  have same := board_sleep (s := s) happened (by simp [found]) mine
  split at same
  · refine .of_move (.slept p.trend p.twhen (board_view found) running
      (by simp [Proc.view, alive]) mine there (.inl ⟨rfl, rfl⟩)) (same.trans (Board.edit_congr ?_))
    intro v here
    obtain rfl : p.view = v := by simpa [Board.setRendez, board, found] using here
    rfl
  · refine .of_move (.spared r false (board_view found) running there) (same.trans ?_)
    exact Board.ext (by simp [Board.edit]) rfl rfl rfl rfl rfl rfl rfl

theorem board_settimer {trend : Option Rid} {twhen : Option Nat} :
    (s.modify pid (Proc.settimer trend twhen)).board =
      s.board.edit pid fun v => { v with trend := trend, twhen := twhen } :=
  board_modify (fun _ _ => rfl) (fun _ => rfl) (fun _ => rfl)

theorem steps_tsleep {p : Proc} {r : Rid} {happened : Bool} {deadline : Nat}
    (found : s.tab pid = some p) (running : p.state = .running) (alive : p.status = none)
    (mine : r.OpenTo pid) (there : scope.sleeps r) :
    Moves scope s (s.tsleep pid r happened deadline).2 := by
  have same := board_sleep (r := r) happened
    (s := s.modify pid (Proc.settimer (some r) (some deadline))) (by simp [found]) mine
  rw [board_settimer] at same
  unfold tsleep
  simp only
  split at same
  case isTrue slept =>
    rw [if_pos slept]
    refine .of_move (.slept (some r) (some deadline) (board_view found) running
      (by simp [Proc.view, alive]) mine there (.inr ⟨rfl, by simp⟩)) (same.trans ?_)
    rw [Board.sleepOn_edit, Board.setRendez_edit, Board.edit_edit]
  case isFalse spared =>
    rw [if_neg spared]
    refine .of_move (.spared r true (board_view found) running there) ?_
    rw [board_settimer, same, Board.sleepOn_edit, Board.setRendez_edit, Board.edit_edit]
    rfl

theorem steps_meet {v : View} (found : s.board.view pid = some v)
    (waiting : v.state = .rendezvous) {s' : Procs}
    (left : s'.board = s.board.leavergrp v.rgrp pid) : Rises s (s'.ready pid) := by
  have there : s'.board.view pid = some v := by rw [left]; exact found
  rcases board_ready there with ⟨pri, low, same⟩
  exact .of_move (.met found waiting low) (by rw [same, left])

theorem board_leavergrp {g : Nat} : (s.leavergrp g pid).board = s.board.leavergrp g pid := rfl

theorem quiet_rendval {val : Nat} : Quiet fun p => { p with rendval := val } :=
  ⟨fun _ => rfl, fun _ => rfl, fun _ => rfl⟩

theorem quiet_addnote (msg : String) (flag : NoteFlag) : Quiet (Proc.addnote msg flag) :=
  ⟨fun _ => rfl, fun _ => rfl, fun _ => rfl⟩

theorem board_postnote {p : Proc} {r : Rid} (msg : String) (flag : NoteFlag)
    (found : s.tab pid = some p) (asleep : p.state = .wakeme) (link : p.r = some r) :
    ∃ pri ≤ p.basepri, (s.postnote pid msg flag).2.board = s.board.roused pid r pri := by
  simp only [postnote, found, asleep, link]
  refine board_rouse (board_view found) ?_
  rw [board_setRendez fun _ _ => .inr rfl, board_unslept, board_quiet (quiet_addnote msg flag),
    Board.setRendez_edit]

theorem steps_postnote (msg : String) (flag : NoteFlag) : Rises s (s.postnote pid msg flag).2 := by
  rcases found : s.tab pid with _ | p
  · simp only [postnote, found]
    exact .refl s
  · have noted : (s.modify pid (Proc.addnote msg flag)).board = s.board :=
      board_quiet (quiet_addnote msg flag)
    have there := board_view found
    simp only [postnote, found]
    split
    case h_1 r asleep link =>
      have woken := board_postnote msg flag found asleep link
      simp only [postnote, found, asleep, link] at woken
      exact .of_roused there asleep link woken
    case h_2 waiting =>
      refine steps_meet there waiting ?_
      rw [board_leavergrp, board_quiet quiet_rendval, noted]
      rfl
    case h_3 => exact .of_board noted

theorem steps_pgrpnote (order : List Pid) (up : Pid) (noteid : Nat) (msg : String)
    (flag : NoteFlag) (inv : s.board.Inv) :
    Rises s (s.pgrpnote order up noteid msg flag) :=
  Steps.foldl (fun _ _ _ => steps_postnote msg flag) _ inv

theorem steps_procpriority {pri : Nat} {fixed : Bool}
    (unqueued : scope.sorted → ∀ p, s.tab pid = some p → p.state = .ready →
      min pri (Pri.npriq - 1) = p.priority) :
    Moves scope s (s.procpriority pid pri fixed) := by
  have low : min pri (Pri.npriq - 1) < Pri.npriq := by
    simp only [Pri.npriq]
    omega
  refine .of_move (.reprioritized pid ⟨low, low⟩ fun isStrict v found ready => ?_)
    (board_modify (fun _ _ => rfl) (fun _ => rfl) (fun _ => rfl))
  rcases tab_of_board_view found with ⟨p, here, rfl⟩
  exact unqueued isStrict p here ready

theorem board_twakeup {p : Proc} {r : Rid} (paired : s.board.Paired)
    (found : s.tab pid = some p) (timed : p.trend = some r) :
    ∃ pri ≤ p.basepri, (s.twakeup pid).board = s.board.roused pid r pri := by
  rcases paired.timed (board_view found) timed with ⟨asleep, link, named⟩
  have here : (s.modify pid Proc.untimed).rendez r = some pid := by
    rw [rendez_modify (f := Proc.untimed) (fun _ => rfl) (fun _ => rfl)]
    exact named
  have fires : s.twakeup pid = ((s.modify pid Proc.untimed).wakeup r).2 := by
    simp [twakeup, found, timed]
  rw [fires, wakeup_asleep here (p := p.untimed) (by simp [found]) asleep link]
  refine board_rouse (board_view found) ?_
  rw [board_unslept, board_setRendez fun _ _ => .inr rfl, board_untimed,
    Board.setRendez_edit, Board.edit_edit]

theorem twakeup_untimed (unset : (s.tab pid).bind (·.trend) = none) : s.twakeup pid = s := by
  simp [twakeup, unset]

theorem steps_twakeup (inv : s.board.Inv) : Rises s (s.twakeup pid) := by
  rcases armed : (s.tab pid).bind (·.trend) with _ | trend
  · rw [twakeup_untimed armed]
    exact .refl s
  · rcases Option.bind_eq_some_iff.mp armed with ⟨p, found, timed⟩
    by_cases single : s.board.doublesleep = 0
    · rcases (inv.paired single).timed (board_view found) timed with ⟨asleep, link, -⟩
      exact .of_roused (board_view found) asleep link
        (board_twakeup (inv.paired single) found timed)
    · have fires : s.twakeup pid = ((s.modify pid Proc.untimed).wakeup trend).2 := by
        simp [twakeup, found, timed]
      rw [fires]
      exact (Steps.of_move (.untimed single) board_untimed).trans (steps_wakeup trend)

theorem steps_dequeue_queue {pri npri : Nat} (queued : pid ∈ s.runq pri)
    (low : ∀ v, s.board.view pid = some v → npri ≤ v.basepri) (inside : npri < Pri.npriq) :
    Rises s ((s.dequeueproc pri pid).2.queueproc npri pid) := by
  refine .of_move (.shifted queued low inside) ?_
  rw [board_queueproc]
  simp only [dequeueproc, if_pos queued]
  rfl

theorem reprioritize_lt (inv : s.board.Inv) : s.reprioritize pid < Pri.npriq := by
  rcases found : s.tab pid with _ | p
  · simp [reprioritize, found, Pri.normal, Pri.npriq]
  · exact (reprioritize_le found).trans_lt (inv.wf.bounded pid _ (board_view found)).1

theorem reprioritize_low {v : View} (found : s.board.view pid = some v) :
    s.reprioritize pid ≤ v.basepri := by
  rcases tab_of_board_view found with ⟨p, here, rfl⟩
  exact reprioritize_le here

theorem steps_another (pri : Nat) (inv : s.board.Inv) : Rises s (s.another pri) := by
  fun_induction another s pri with
  | case1 s empty => exact .refl s
  | case2 s pid rest first stays => exact .refl s
  | case3 s pid rest first moves t npri same => exact .of_board (board_updatecpu _)
  | case4 s pid rest first moves t npri differs ih =>
      have same : t.board = s.board := board_updatecpu _
      have moved : Rises s ((t.dequeueproc pri pid).2.queueproc npri pid) := by
        have queued : pid ∈ t.runq pri := by simp [t, first]
        have shifted := steps_dequeue_queue queued
          (fun _ => reprioritize_low) (reprioritize_lt (same ▸ inv))
        exact (Steps.of_board same).trans shifted
      exact moved.trans (ih (moved.riseInv inv))

theorem steps_rebalance (inv : s.board.Inv) : Rises s s.rebalance := by
  unfold rebalance
  simp only
  split
  · exact .refl s
  · exact Steps.foldl (s := { s with m := { s.m with balancetime := s.m.ticks } })
      (fun _ pri => steps_another pri) _ inv

theorem quiet_delaysched : Quiet fun p => { p with delaysched := p.delaysched + 1 } :=
  ⟨fun _ => rfl, fun _ => rfl, fun _ => rfl⟩

theorem steps_hzsched (up : Pid) (inv : s.board.Inv) : Rises s (s.hzsched up) := by
  refine (steps_rebalance inv).trans ?_
  unfold hzsched
  simp only
  split
  · exact .of_board (board_quiet quiet_delaysched)
  · exact .refl _

theorem board_charge : s.charge.board = s.board := by
  unfold charge
  split
  · rfl
  · refine board_quiet ⟨fun p => ?_, fun p => ?_, fun p => ?_⟩ <;> split <;> rfl

theorem board_accounttime (now : Nat) : (s.accounttime now).board = s.board :=
  board_charge

theorem steps_checkalarms : Rises s s.checkalarms := by
  unfold checkalarms
  split
  · exact steps_wakeup _
  · exact .refl s

theorem steps_hzclock (now : Nat) (inv : s.board.Inv) : Rises s (s.hzclock now) := by
  let t : Procs := { s with m := { s.m with ticks := s.m.ticks + 1 } }
  have same : (t.accounttime now).board = s.board := board_accounttime now
  have ticked : Rises s (t.accounttime now).checkalarms :=
    (Steps.of_board same).trans steps_checkalarms
  refine ticked.trans ?_
  unfold hzclock
  simp only
  split
  · split
    · exact steps_hzsched _ (ticked.riseInv inv)
    · exact .refl _
  · exact .refl _

theorem board_profintr (now : Nat) : (s.profintr now).board = s.board := by
  unfold profintr
  split
  · split <;> rfl
  · rfl

theorem steps_hzintr (now : Nat) (inv : s.board.Inv) : Rises s (s.hzintr now) := by
  unfold hzintr
  split
  · split
    · refine Steps.trans (.of_board ?_) (steps_hzclock now ?_)
      · rfl
      · exact inv
    · exact .refl s
  · exact .refl s

theorem steps_timerintr (order : List Pid) (now : Nat) (inv : s.board.Inv) :
    Rises s (s.timerintr order now) := by
  have same := board_profintr (s := s) now
  have fired : Rises s (((s.profintr now).due order now).foldl twakeup (s.profintr now)) :=
    (Steps.of_board same).trans (Steps.foldl (fun _ _ => steps_twakeup) _ (same ▸ inv))
  exact fired.trans (steps_hzintr now (fired.riseInv inv))

theorem mem_of_highest {n pri : Nat} (picked : s.highest n = some (pri, pid)) :
    pid ∈ s.runq pri := by
  induction n with
  | zero => simp [highest] at picked
  | succ n ih =>
      simp only [highest] at picked
      split at picked
      case h_1 q first =>
        simp only [Option.some_inj, Prod.mk.injEq] at picked
        rcases picked with ⟨rfl, rfl⟩
        exact List.mem_of_mem_head? first
      case h_2 => exact ih picked

theorem board_dequeueproc {place : Nat} (queued : pid ∈ s.runq place) :
    (s.dequeueproc place pid).2.board = s.board.unqueue place pid := by
  simp only [dequeueproc, if_pos queued]
  rfl

theorem takereadied_picked {s' : Procs} (picked : s.takereadied = some (pid, s')) :
    ∃ place, pid ∈ s.runq place ∧ s'.board = s.board.unqueue place pid := by
  simp only [takereadied] at picked
  split at picked
  case isFalse => simp at picked
  case isTrue =>
    split at picked
    · simp at picked
    case h_2 q _ =>
      split at picked
      · simp at picked
      case h_2 p found =>
        split at picked
        case isFalse => simp at picked
        case isTrue ready =>
          simp only [Option.some_inj, Prod.mk.injEq] at picked
          rcases picked with ⟨rfl, rfl⟩
          have queued : q ∈ s.runq p.priority := by
            by_contra absent
            simp [dequeueproc, absent] at ready
          exact ⟨p.priority, queued, board_dequeueproc queued⟩

theorem takehighest_picked {s' : Procs} (picked : s.takehighest = some (pid, s')) :
    ∃ place, pid ∈ s.runq place ∧ s'.board = s.board.unqueue place pid := by
  simp only [takehighest, Option.map_eq_some_iff, Prod.mk.injEq, Prod.exists] at picked
  rcases picked with ⟨place, q, first, rfl, rfl⟩
  have queued := mem_of_highest first
  exact ⟨place, queued, board_dequeueproc queued⟩

theorem runproc_picked {s' : Procs} (picked : s.runproc = some (pid, s')) :
    ∃ place, pid ∈ s.runq place ∧
      s'.board = (s.board.unqueue place pid).edit pid fun v => { v with state := .scheding } := by
  simp only [runproc, Option.map_eq_some_iff, Prod.mk.injEq, Prod.exists] at picked
  rcases picked with ⟨q, t, taken, rfl, rfl⟩
  have off : ∃ place, q ∈ s.runq place ∧ t.board = s.board.unqueue place q := by
    rcases readied : s.takereadied with _ | ⟨q', t'⟩
    · exact takehighest_picked (by simpa [readied] using taken)
    · exact takereadied_picked (by simpa [readied] using taken)
  rcases off with ⟨place, queued, same⟩
  exact ⟨place, queued, by rw [board_setstate, same]⟩

theorem board_enter (s : Procs) (pid : Pid) : ∃ pri,
    (∀ v, s.board.view pid = some v → pri ≤ v.basepri) ∧
    (s.enter pid).board = s.board.edit pid fun v =>
    { v with state := .running, priority := pri } := by
  let t := s.updatecpu pid (s.up == some pid)
  have same : t.board = s.board := board_updatecpu _
  refine ⟨t.reprioritize pid, fun v found => reprioritize_low (same ▸ found), ?_⟩
  have prioritized : (t.modify pid fun p => { p with priority := t.reprioritize pid }).board =
      t.board.edit pid fun v => { v with priority := t.reprioritize pid } :=
    board_modify (fun _ _ => rfl) (fun _ => rfl) (fun _ => rfl)
  unfold enter
  simp only
  rw [board_setstate]
  change ((t.modify pid fun p => { p with priority := t.reprioritize pid }).board).edit pid _ = _
  rw [prioritized, Board.edit_edit, same]

theorem sched_picked {s' : Procs} (picked : s.sched = some (pid, s')) :
    ∃ place pri, pid ∈ s.runq place ∧ (∀ v, s.board.view pid = some v → pri ≤ v.basepri) ∧
      s'.board = (s.board.unqueue place pid).edit pid fun v =>
        { v with state := .running, priority := pri } := by
  simp only [sched, Option.map_eq_some_iff, Prod.mk.injEq, Prod.exists] at picked
  rcases picked with ⟨q, t, run, rfl, rfl⟩
  rcases runproc_picked run with ⟨place, queued, off⟩
  rcases board_enter t q with ⟨pri, low, entered⟩
  refine ⟨place, pri, queued, fun v found => ?_, by rw [entered, off, Board.edit_edit]⟩
  exact low { v with state := .scheding } (by
    rw [off, Board.edit_view, if_pos rfl]
    simp [Board.unqueue, found])

theorem steps_sched {s' : Procs} (inv : s.board.Inv) (picked : s.sched = some (pid, s')) :
    Moves scope s s' := by
  rcases sched_picked picked with ⟨place, pri, queued, low, same⟩
  exact .of_move (.picked queued (inv.once.source inv.wf queued) low) same

theorem steps_putup : Moves scope s s.putup := by
  unfold putup
  split
  · exact .of_board (board_updatecpu (s := { s with up := none }) true)
  · exact .refl s

theorem quiet_nodelay : Quiet fun p => { p with delaysched := 0 } :=
  ⟨fun _ => rfl, fun _ => rfl, fun _ => rfl⟩

theorem steps_bury (finished : ∀ v, s.board.view pid = some v → v.ended = true) :
    Moves scope s (s.setstate pid .dead) :=
  .of_move (.buried pid .dead s.broken finished (.inl rfl) fun _ member => .inl member)
    board_setstate

theorem board_view_of_state {st : State} (is : s.state pid = st) (live : st ≠ .dead) :
    ∃ v, s.board.view pid = some v ∧ v.state = st := by
  simp only [state] at is
  split at is
  case h_1 p found => exact ⟨p.view, board_view found, is⟩
  case h_2 => exact absurd is.symm live

theorem steps_leave {how : Left} (inv : s.board.Inv)
    (finished : how = .exited → ∀ p, s.tab pid = some p → p.status.isSome) :
    Moves scope s (s.leave pid how) := by
  unfold leave
  simp only
  set t : Procs := ({ s with m := { s.m with cs := s.m.cs + 1 } } : Procs).modify pid fun p =>
    { p with delaysched := 0 } with left
  have same : t.board = s.board := board_quiet quiet_nodelay
  refine (Steps.of_board same).trans ?_
  split
  case h_1 => exact .refl t
  case h_2 =>
    refine steps_bury fun v found => ?_
    rcases tab_of_board_view (same ▸ found) with ⟨p, here, rfl⟩
    exact finished rfl p here
  case h_3 running =>
    rcases board_view_of_state running (by simp) with ⟨v, found, is⟩
    exact steps_ready found (.inr (.inl is))
  case h_4 ended =>
    rcases board_view_of_state ended (by simp) with ⟨v, found, is⟩
    refine steps_bury fun w here => ?_
    obtain rfl : w = v := by simpa using here.symm.trans found
    exact (inv.wf.sound pid w (same ▸ found)).2 (.inl is)
  case h_5 => exact .refl t

theorem board_ended (s : Procs) (pid : Pid) (ticks : Nat) (status : String) :
    (s.modify pid (Proc.ended ticks status)).board =
      s.board.edit pid fun v => { v with ended := true } :=
  board_modify (fun _ _ => rfl) (fun _ => rfl) (fun _ => rfl)

theorem quiet_addchild (child : Proc) : Quiet (Proc.addchild child) :=
  ⟨fun _ => rfl, fun _ => rfl, fun _ => rfl⟩

theorem board_unready (p : Proc) :
    (s.unready pid p).board =
      if p.state = .ready ∧ pid ∈ s.board.runq p.priority then s.board.unqueue p.priority pid
      else s.board := by
  have claimed : ∀ t : Procs,
      (if t.m.readied = some pid then { t with m := { t.m with readied := none } }
        else t : Procs).board = t.board := by
    intro t
    split <;> rfl
  unfold unready
  simp only
  rw [claimed]
  by_cases ready : p.state = .ready
  · by_cases queued : pid ∈ s.runq p.priority
    · rw [if_pos ready, board_dequeueproc queued, if_pos ⟨ready, queued⟩]
    · rw [if_pos ready, if_neg (fun both => queued both.2)]
      simp [dequeueproc, queued]
  · rw [if_neg ready, if_neg (fun both => ready both.1)]

theorem unqueue_edit {b : Board} {place : Nat} {g : View → View} :
    (b.edit pid g).unqueue place pid = (b.unqueue place pid).edit pid g := rfl

theorem steps_exits {p : Proc} {status : String} (found : s.tab pid = some p)
    (source : p.state = .running ∨ p.state = .scheding ∨ p.state = .ready)
    (leaves : scope.exits pid) : Moves scope s (s.exits pid status) := by
  unfold exits
  simp only [found]
  refine Steps.trans ?_ (steps_wakeup _).rise
  have ended := board_ended s pid s.m.ticks status
  set t := (s.modify pid (Proc.ended s.m.ticks status)).modify p.ppid (Proc.addchild p) with told
  have same : t.board = s.board.edit pid fun v => { v with ended := true } :=
    (board_quiet (quiet_addchild p)).trans ended
  by_cases ready : p.state = .ready
  · refine .of_move (.culled (board_view found) ready leaves) ?_
    rw [board_setstate, board_unready, same]
    by_cases queued : pid ∈ s.runq p.priority
    · rw [if_pos ⟨ready, queued⟩, if_pos (show pid ∈ s.board.runq p.view.priority from queued),
        unqueue_edit, Board.edit_edit]
      rfl
    · rw [if_neg (fun both => queued both.2),
        if_neg (show ¬pid ∈ s.board.runq p.view.priority from queued), Board.edit_edit]
  · refine .of_move (.exited (board_view found) ?_ leaves) ?_
    · rcases source with h | h | h
      · exact .inl h
      · exact .inr h
      · exact absurd h ready
    · rw [board_setstate, board_unready, same, if_neg (fun both => ready both.1), Board.edit_edit]

theorem steps_letgo (inv : s.board.Inv) : Moves scope s s.letgo := by
  unfold letgo
  split
  case h_1 old rest oldest =>
    split
    · have first : old ∈ s.broken := by simp [oldest]
      refine .of_move (.buried old .dead rest
        (inv.wf.laid old first).2 (.inl rfl) fun q member => .inl ?_) ?_
      · simpa [board, oldest] using .inr member
      · rw [← board_setstate]
        rfl
    · exact .refl s
  case h_2 => exact .refl s

theorem steps_addbroken {p : Proc} (inv : s.board.Inv) (found : s.tab pid = some p)
    (finished : p.status.isSome) : Moves scope s (s.addbroken pid) := by
  have gone : Moves scope s s.letgo := steps_letgo inv
  refine gone.trans ?_
  have still : ∃ q, s.letgo.tab pid = some q ∧ q.status.isSome := by
    unfold letgo
    split
    · split
      · rename_i old rest _ _
        rcases eq_or_ne pid old with rfl | differs
        · exact ⟨{ p with state := .dead }, by simp [setstate, found], finished⟩
        · exact ⟨p, by simp [setstate, differs, found], finished⟩
      · exact ⟨p, found, finished⟩
    · exact ⟨p, found, finished⟩
  rcases still with ⟨q, here, ended⟩
  unfold addbroken
  simp only
  generalize s.letgo = t at here
  refine .of_move (.buried pid .broken (t.broken ++ [pid])
    (fun v view => ?_) (.inr rfl) fun o member => ?_) ?_
  · obtain rfl : q.view = v := by simpa [board_view here] using view
    exact ended
  · rcases List.mem_append.mp member with old | new
    · exact .inl old
    · exact .inr ⟨List.mem_singleton.mp new, by simp [board_view here]⟩
  · exact board_modify (s := { t with broken := t.broken ++ [pid] }) (fun _ _ => rfl)
      (fun _ => rfl) (fun _ => rfl)

theorem steps_unbreak (inv : s.board.Inv) : Moves scope s (s.unbreak pid) := by
  unfold unbreak
  split
  case isTrue member =>
    refine .of_move (.buried pid .dead (s.broken.erase pid)
      (inv.wf.laid pid member).2 (.inl rfl) fun q still => .inl (List.mem_of_mem_erase still)) ?_
    rw [← board_setstate]
    rfl
  case isFalse => exact .refl s

theorem rendez_insert {p : Proc} (absent : s.tab pid = none) (fresh : p.sleep = none)
    (fresh' : p.waitr = none) : (s.insert pid p).rendez = s.rendez := by
  funext r
  unfold rendez
  split
  case h_1 q | h_2 q =>
    rcases eq_or_ne q pid with rfl | differs
    · simp [insert, absent, fresh, fresh']
    · simp [insert, differs]
  case h_3 => rfl

theorem steps_insert {p : Proc} {s' : Procs} (inv : s.board.Inv)
    (made : s'.board = { (s.insert s.next p).board with next := s.next + 1 })
    (fresh : p.state = .scheding) (alive : p.status = none)
    (awake : p.r = none ∧ p.trend = none ∧ p.twhen = none)
    (vacant : p.sleep = none ∧ p.waitr = none)
    (bounded : p.basepri < Pri.npriq ∧ p.priority < Pri.npriq) : Moves scope s s' := by
  have absent : s.tab s.next = none := by
    simpa [board] using (inv.wf.fresh s.next le_rfl).1
  refine .of_move (.made (v := p.view) fresh (by simp [Proc.view, alive]) awake bounded)
    (made.trans ?_)
  refine Board.ext ?_ rfl rfl (rendez_insert absent vacant.1 vacant.2) rfl rfl rfl rfl
  funext q
  rcases eq_or_ne q s.next with rfl | differs
  · simp [board, insert]
  · simp [board, insert, differs]

theorem quiet_noteid {noteid : Nat} : Quiet fun p => { p with noteid := noteid } :=
  ⟨fun _ => rfl, fun _ => rfl, fun _ => rfl⟩

theorem steps_rforkself {p : Proc} {flags : Nat} (found : s.tab pid = some p)
    (running : p.state = .running) : Moves scope s (s.rforkself pid flags) := by
  have regrouped : Moves scope s (if Rf.has flags Rf.rend then s.newrgrp pid else s) := by
    split
    · refine .of_move (.regrouped (g := s.nextrgrp) (board_view found) running) ?_
      exact board_modify (s := { s with nextrgrp := s.nextrgrp + 1 }) (fun _ _ => rfl)
        (fun _ => rfl) (fun _ => rfl)
    · exact .refl s
  have renumbered (t : Procs) :
      Moves scope t (if Rf.has flags Rf.noteg then t.newnoteid pid else t) := by
    split
    · exact .of_board (board_quiet (s := { t with noteidalloc := t.noteidalloc + 1 }) quiet_noteid)
    · exact .refl t
  exact regrouped.trans (renumbered _)

theorem steps_sysrfork {flags : Nat} {made : Option Pid} {s' : Procs} {p : Proc}
    (inv : s.board.Inv) (found : s.tab pid = some p) (running : p.state = .running)
    (forked : s.sysrfork pid flags = .ok (made, s')) : Moves scope s s' := by
  have bounds := (inv.wf.bounded pid _ (board_view found)).1
  simp only [sysrfork, found, bind, Except.bind] at forked
  split at forked
  · simp at forked
  · split at forked
    · simp only [pure, Except.pure, Except.ok.injEq, Prod.mk.injEq] at forked
      rcases forked with ⟨-, rfl⟩
      exact steps_insert inv rfl rfl rfl ⟨rfl, rfl, rfl⟩ ⟨rfl, rfl⟩ ⟨bounds, bounds⟩
    · simp only [pure, Except.pure, Except.ok.injEq, Prod.mk.injEq] at forked
      rcases forked with ⟨-, rfl⟩
      exact steps_rforkself found running

theorem steps_kproc {up : Pid} {name user : String} (inv : s.board.Inv) :
    Moves scope s (s.kproc up name user).2 := by
  have bounds : (s.kchild up name user).basepri < Pri.npriq ∧
      (s.kchild up name user).priority < Pri.npriq := by
    rcases found : s.tab up with _ | p
    · simp [kchild, found, Proc.root, Pri.normal, Pri.npriq]
    · simpa [kchild, found, Proc.view] using inv.wf.bounded up _ (board_view found)
  let made : Procs :=
    { s.insert s.next (s.kchild up name user) with
      next := s.next + 1
      noteidalloc := s.noteidalloc + 1
      nextrgrp := s.nextrgrp + 1 }
  have born : Moves scope s made :=
    steps_insert inv rfl rfl rfl ⟨rfl, rfl, rfl⟩ ⟨rfl, rfl⟩ bounds
  have here : made.tab s.next = some (s.kchild up name user) := by simp [made, insert]
  have raised : Moves scope made (made.procpriority s.next Pri.kproc false) :=
    steps_procpriority fun _ p there ready => by
      obtain rfl : s.kchild up name user = p := by simpa [here] using there
      simp [kchild] at ready
  have scheding : (made.procpriority s.next Pri.kproc false).state s.next = .scheding := by
    simp [state, procpriority, here, kchild]
  rcases board_view_of_state scheding (by simp) with ⟨v, found, is⟩
  exact (born.trans raised).trans (steps_ready found (.inl is))

theorem steps_awaitChild (order : List Pid) : Moves scope s (s.awaitChild order pid).2 := by
  unfold awaitChild
  simp only
  split
  case h_1 c first =>
    have record := List.find?_some first
    rcases (Option.any_eq_true _ _).mp record with ⟨p, found, holds⟩
    simp only [Bool.and_eq_true] at holds
    refine .of_move (.reaped (board_view found) holds.2) ?_
    refine Board.ext ?_ rfl rfl ?_ rfl rfl rfl rfl
    · funext q
      rcases eq_or_ne q c with rfl | differs
      · simp [board]
      · simp [board, differs]
    · funext r
      rcases r with ⟨q, _ | _⟩ | _ | _ | _ | _ | _ | _
      case proc.sleep | proc.waitr =>
        rcases eq_or_ne q c with rfl | differs
        · simp [board, rendez, Rid.owner]
        · simp [board, rendez, Rid.owner, differs]
      all_goals rfl
  case h_2 => exact .refl s

theorem steps_execpri {p : Proc} {root : Bool} (inv : s.board.Inv) (found : s.tab pid = some p)
    (running : p.state = .running) : Moves scope s (s.execpri pid root) := by
  have low : (if root then Pri.root else p.basepri) < Pri.npriq := by
    split
    · simp [Pri.root, Pri.npriq]
    · exact (inv.wf.bounded pid _ (board_view found)).1
  refine .of_move (.reprioritized pid ⟨low, low⟩ fun _ v view ready => ?_)
    (board_modify (fun q here => ?_) (fun _ => rfl) (fun _ => rfl))
  · obtain rfl : p.view = v := by simpa [board_view found] using view
    exact absurd (running.symm.trans ready) (by simp)
  · obtain rfl : p = q := by simpa using found.symm.trans here
    rfl

theorem steps_meetval {g val : Nat} {q : Pid} (inv : s.board.Inv) (member : q ∈ s.rgrps g) :
    Rises s (s.meet g q val) := by
  rcases inv.wf.grouped g q member with ⟨v, here, waiting, rfl⟩
  refine steps_meet here waiting ?_
  rw [board_quiet quiet_rendval, ← board_leavergrp]
  have once : (s.rgrps v.rgrp).Nodup := inv.wf.nodup v.rgrp
  rw [once.erase_eq_filter]
  rfl

theorem steps_gather {p : Proc} {tag val : Nat} (found : s.tab pid = some p)
    (running : p.state = .running) (alive : p.status = none) :
    Moves scope s (s.gather p.rgrp pid tag val) := by
  have waits : (s.modify pid fun p =>
      { p with rendtag := tag, rendval := val, state := .rendezvous }).board =
      s.board.edit pid fun v => { v with state := .rendezvous } :=
    board_modify (fun _ _ => rfl) (fun _ => rfl) (fun _ => rfl)
  refine .of_move (.gathered (board_view found) running (by simp [Proc.view, alive])) ?_
  rw [gather, setlabel, board_quiet quiet_setlabel, ← waits]
  rfl

theorem steps_rendezvous {p : Proc} {tag val : Nat} (inv : s.board.Inv)
    (found : s.tab pid = some p) (running : p.state = .running) (alive : p.status = none) :
    Moves scope s (s.rendezvous pid tag val) := by
  unfold rendezvous
  simp only [found]
  have reset : Moves scope s (s.modify pid fun p => { p with rendval := 2 ^ 64 - 1 }) :=
    steps_modify quiet_rendval
  refine reset.trans ?_
  split
  case h_1 q first => exact (steps_meetval (reset.inv inv) (List.mem_of_find?_eq_some first)).rise
  case h_2 =>
    exact steps_gather (p := { p with rendval := 2 ^ 64 - 1 }) (by simp [found]) running alive

theorem steps_stop {p : Proc} (found : s.tab pid = some p) (running : p.state = .running)
    (alive : p.status = none) : Moves scope s (s.stop pid) := by
  unfold stop
  simp only [found]
  have stopped : Moves scope s (s.modify pid Proc.stopped) :=
    .of_move (.parked (board_view found) running (by simp [Proc.view, alive]) (.inl rfl))
      (board_modify (fun _ _ => rfl) (fun _ => rfl) (fun _ => rfl))
  refine Steps.trans (stopped.trans ?_) (steps_modify quiet_setlabel)
  split
  · exact (steps_wakeup _).rise
  · exact .refl _

theorem steps_qlock {l : QLock} {p : Proc} (found : s.tab pid = some p)
    (running : p.state = .running) (alive : p.status = none) :
    Moves scope s (s.qlock l pid).2.2 := by
  unfold qlock
  split
  · simp only [setlabel]
    exact .of_move (.parked (board_view found) running (by simp [Proc.view, alive]) (.inr rfl))
      ((board_quiet quiet_setlabel).trans board_setstate)
  · exact .refl s

theorem steps_qunlock {l : QLock}
    (waiting : ∀ q ∈ l.q.head?, s.state q = .queueing ∧ scope.hands q) :
    Moves scope s (s.qunlock l).2 := by
  unfold qunlock
  split
  case h_1 q rest first =>
    have next := waiting q (by simp [first])
    rcases board_view_of_state next.1 (by simp) with ⟨v, found, is⟩
    exact steps_ready found (.inr (.inr (.inr ⟨is, next.2⟩)))
  case h_2 => exact .refl s

end Procs

end Ipnx
