import Ipnx.Lib.System
import Ipnx.Proc.Refine

/-!
# Runs of the process table

The operations as the actions of a transition system that starts from `Procs::new`, with
what their callers promise. The promises are where each operation is called from: the
kernel works for one process at a time, and only that process goes to sleep, stops, waits
or exits; `ready` is called of a child just made, a process `start` restarts, or one a lock
is handed to.

The run-queue invariant holds of every run whose priority changes are not of a process that
is queued, and of no more than those.
-/

namespace Ipnx

/-- The operations of the table. `edit` is any change to fields that scheduling does not
read. -/
inductive Act
  | ready (pid : Pid)
  | leave (pid : Pid) (how : Procs.Left)
  | putup
  | sched
  | sleep (pid : Pid) (r : Rid) (happened : Bool)
  | tsleep (pid : Pid) (r : Rid) (happened : Bool) (deadline : Nat)
  | wakeup (r : Rid)
  | postnote (pid : Pid) (msg : String) (flag : NoteFlag)
  | pgrpnote (order : List Pid) (up : Pid) (noteid : Nat) (msg : String) (flag : NoteFlag)
  | procpriority (pid : Pid) (pri : Nat) (fixed : Bool)
  | execpri (pid : Pid) (root : Bool)
  | timerintr (order : List Pid) (now : Nat)
  | hzclock (now : Nat)
  | rebalance
  | rfork (pid : Pid) (flags : Nat)
  | kproc (up : Pid) (name user : String)
  | exits (pid : Pid) (status : String)
  | addbroken (pid : Pid)
  | unbreak (pid : Pid)
  | awaitChild (order : List Pid) (pid : Pid)
  | rendezvous (pid : Pid) (tag val : Nat)
  | stop (pid : Pid)
  | qlock (l : QLock) (pid : Pid)
  | qunlock (l : QLock)
  | edit (pid : Pid) (f : Proc → Proc)

namespace Procs

def step (s : Procs) : Act → Procs
  | .ready pid => s.ready pid
  | .leave pid how => s.leave pid how
  | .putup => s.putup
  | .sched => (s.sched.map Prod.snd).getD s
  | .sleep pid r happened => (s.sleep pid r happened).2
  | .tsleep pid r happened deadline => (s.tsleep pid r happened deadline).2
  | .wakeup r => (s.wakeup r).2
  | .postnote pid msg flag => (s.postnote pid msg flag).2
  | .pgrpnote order up noteid msg flag => s.pgrpnote order up noteid msg flag
  | .procpriority pid pri fixed => s.procpriority pid pri fixed
  | .execpri pid root => s.execpri pid root
  | .timerintr order now => s.timerintr order now
  | .hzclock now => s.hzclock now
  | .rebalance => s.rebalance
  | .rfork pid flags =>
      match s.sysrfork pid flags with
      | .ok (_, s') => s'
      | .error _ => s
  | .kproc up name user => (s.kproc up name user).2
  | .exits pid status => s.exits pid status
  | .addbroken pid => s.addbroken pid
  | .unbreak pid => s.unbreak pid
  | .awaitChild order pid => (s.awaitChild order pid).2
  | .rendezvous pid tag val => s.rendezvous pid tag val
  | .stop pid => s.stop pid
  | .qlock l pid => (s.qlock l pid).2.2
  | .qunlock l => (s.qunlock l).2
  | .edit pid f => s.modify pid f

def Entered (s : Procs) (pid : Pid) : Prop := s.up = some pid

/-- The kernel is working for the process, which has not gone to sleep, been readied or
ended in the middle of it. -/
def Active (s : Procs) (pid : Pid) : Prop :=
  s.up = some pid ∧ ∃ p, s.tab pid = some p ∧ p.state = .running ∧ p.status = none

def Unentered (s : Procs) (pid : Pid) : Prop :=
  ∃ p, s.tab pid = some p ∧ (p.state = .scheding ∨ p.state = .ready)

/-- What the callers of the operations promise, given which processes may act. -/
def Callers (may : Procs → Pid → Prop) (s : Procs) : Act → Prop
  | .ready pid => ∃ p, s.tab pid = some p ∧ (p.state = .scheding ∨ p.state = .stopped)
  | .leave pid how => how = .exited → ∀ p, s.tab pid = some p → p.status.isSome
  | .sleep pid r _ => may s pid ∧ r.OpenTo pid
  | .tsleep pid r _ _ => may s pid ∧ r.OpenTo pid
  | .execpri pid _ => may s pid
  | .rfork pid _ => may s pid
  | .exits pid _ => may s pid ∨ s.Unentered pid
  | .addbroken pid => ∃ p, s.tab pid = some p ∧ p.status.isSome
  | .rendezvous pid _ _ => may s pid
  | .stop pid => may s pid
  | .qlock _ pid => may s pid
  | .qunlock l => ∀ pid ∈ l.q.head?, s.state pid = .queueing
  | .edit _ f => Quiet f
  | _ => True

/-- No priority is changed of a process that is queued, but to what it is. -/
def Unqueued (s : Procs) : Act → Prop
  | .procpriority pid pri _ => ∀ p, s.tab pid = some p → p.state = .ready →
      min pri (Pri.npriq - 1) = p.priority
  | _ => True

variable {s : Procs} {scope : Scope}

/-- The moves of an operation are within a scope. -/
def Within (scope : Scope) (s : Procs) : Act → Prop
  | .sleep _ r _ => scope.sleeps r
  | .tsleep _ r _ _ => scope.sleeps r
  | .exits pid _ => scope.exits pid
  | .qunlock l => ∀ pid ∈ l.q.head?, scope.hands pid
  | .procpriority pid pri fixed => scope.sorted → s.Unqueued (.procpriority pid pri fixed)
  | _ => True

theorem within_any (a : Act) : s.Within .any a := by
  cases a <;> simp [Within, Scope.any]

def table : System Procs Act where
  init s := s = Procs.new
  step s a s' := s' = s.step a

theorem moves_step {a : Act} (inv : s.board.Inv) (called : Callers Active s a)
    (within : s.Within scope a) : Moves scope s (s.step a) := by
  cases a with
  | ready pid =>
      rcases called with ⟨p, found, source⟩
      exact steps_ready (board_view found) (source.imp_right fun h => .inr (.inl h))
  | leave pid how => exact steps_leave inv called
  | putup => exact steps_putup
  | sched =>
      rcases picked : s.sched with _ | ⟨pid, s'⟩
      · simp only [step, picked]
        exact .refl s
      · simp only [step, picked]
        exact steps_sched inv picked
  | sleep pid r happened =>
      rcases called with ⟨⟨-, p, found, running, alive⟩, mine⟩
      exact steps_sleep found running alive mine within
  | tsleep pid r happened deadline =>
      rcases called with ⟨⟨-, p, found, running, alive⟩, mine⟩
      exact steps_tsleep found running alive mine within
  | wakeup r => exact (steps_wakeup r).rise
  | postnote pid msg flag => exact (steps_postnote msg flag).rise
  | pgrpnote order up noteid msg flag => exact (steps_pgrpnote order up noteid msg flag inv).rise
  | procpriority pid pri fixed => exact steps_procpriority within
  | execpri pid root =>
      rcases called with ⟨-, p, found, running, -⟩
      exact steps_execpri inv found running
  | timerintr order now => exact (steps_timerintr order now inv).rise
  | hzclock now => exact (steps_hzclock now inv).rise
  | rebalance => exact (steps_rebalance inv).rise
  | rfork pid flags =>
      rcases called with ⟨-, p, found, running, -⟩
      rcases forked : s.sysrfork pid flags with _ | ⟨made, s'⟩
      · simp only [step, forked]
        exact .refl s
      · simp only [step, forked]
        exact steps_sysrfork inv found running forked
  | kproc up name user => exact steps_kproc inv
  | exits pid status =>
      rcases called with ⟨-, p, found, running, -⟩ | ⟨p, found, source⟩
      · exact steps_exits found (.inl running) within
      · exact steps_exits found (.inr source) within
  | addbroken pid =>
      rcases called with ⟨p, found, finished⟩
      exact steps_addbroken inv found finished
  | unbreak pid => exact steps_unbreak inv
  | awaitChild order pid => exact steps_awaitChild order
  | rendezvous pid tag val =>
      rcases called with ⟨-, p, found, running, alive⟩
      exact steps_rendezvous inv found running alive
  | stop pid =>
      rcases called with ⟨-, p, found, running, alive⟩
      exact steps_stop found running alive
  | qlock l pid =>
      rcases called with ⟨-, p, found, running, alive⟩
      exact steps_qlock found running alive
  | qunlock l => exact steps_qunlock fun pid first => ⟨called pid first, within pid first⟩
  | edit pid f => exact steps_modify called

theorem new_view {pid : Pid} {v : View} (found : Procs.new.board.view pid = some v) :
    pid = 1 ∧ v = (Proc.root 1).view := by
  simp only [board, new, Option.map_eq_some_iff] at found
  rcases found with ⟨p, here, rfl⟩
  split at here
  case isTrue first => exact ⟨first, by rw [← Option.some_inj.mp here]⟩
  case isFalse => simp at here

theorem inv_new : Procs.new.board.Inv where
  wf := by
    refine ⟨fun pid unmade => ⟨?_, by simp [board, new]⟩, by simp [board, new],
      by simp [board, new], fun pid v found => ?_, by simp [board, new], fun pid v found => ?_,
      by simp [board, new], by simp [board, new, Queues.total]⟩
    · have later : pid ≠ 1 := by
        rintro rfl
        simp [board, new] at unmade
      simp [board, new, later]
    · rcases new_view found with ⟨-, rfl⟩
      simp [View.Sound, Proc.view, Proc.root, State.Exited]
    · rcases new_view found with ⟨-, rfl⟩
      simp [Proc.view, Proc.root, Pri.normal, Pri.npriq]
  once := by
    have empty (pid : Pid) : Procs.new.board.occ pid = 0 :=
      Board.occ_eq_zero (by simp [board, new])
    refine ⟨fun pid => by simp [empty], fun pid v found ready => ?_, fun pid v _ _ _ => empty pid⟩
    rcases new_view found with ⟨-, rfl⟩
    simp [Proc.view, Proc.root] at ready
  paired _ := by
    have vacant (r : Rid) : Procs.new.board.rendez r = none := by
      rcases r with ⟨q, _ | _⟩ | _ | _ | _ | _ | _ | _
      case proc.sleep | proc.waitr =>
        rcases eq_or_ne q 1 with rfl | differs
        · rfl
        · simp [board, rendez, new, differs]
      all_goals rfl
    refine ⟨fun pid v found asleep => ?_, fun r pid there => ?_, fun pid v found _ => ?_,
      fun pid v found asleep => ?_, fun pid v r found link => ?_⟩
    · rcases new_view found with ⟨-, rfl⟩
      simp [Proc.view, Proc.root] at asleep
    · simp [vacant] at there
    · rcases new_view found with ⟨-, rfl⟩
      exact ⟨rfl, rfl, rfl⟩
    · rcases new_view found with ⟨-, rfl⟩
      simp [Proc.view, Proc.root] at asleep
    · rcases new_view found with ⟨-, rfl⟩
      simp [Proc.view, Proc.root] at link

theorem sorted_new : Procs.new.board.Sorted := by
  refine ⟨fun pri pid => ?_, fun pid v found ended => ?_⟩
  · have nowhere : Procs.new.board.home pid = none := by
      rcases found : Procs.new.board.view pid with _ | v
      · simp [Board.home, found]
      · rcases new_view found with ⟨-, rfl⟩
        simp [Board.home, found, View.home, Proc.view, Proc.root]
    simp [nowhere]
    simp [board, new]
  · rcases new_view found with ⟨-, rfl⟩
    simp [Proc.view, Proc.root] at ended

theorem inv_of_reach {ok : Procs → Act → Prop} (kept : ∀ s a, ok s a → Callers Active s a)
    (reached : table.Reach ok s) : s.board.Inv := by
  refine System.Reach.invariant (fun s => s.board.Inv) (fun s first => ?_)
    (fun s a s' inv allowed moved => ?_) reached
  · exact first ▸ inv_new
  · obtain rfl : s' = s.step a := moved
    have moves := moves_step inv (kept s a allowed) (within_any a)
    exact moves.inv inv

/-- A pid is once on the queue of its own priority when it is `Ready` and on none otherwise,
and `nrdy` counts what is queued. -/
structure RunqInv (s : Procs) : Prop where
  ready : ∀ pid p, s.tab pid = some p → p.state = .ready →
    ∀ pri, (s.runq pri).count pid = if pri = p.priority then 1 else 0
  others : ∀ pid, s.state pid ≠ .ready → ∀ pri, pid ∉ s.runq pri
  nrdy : s.nrdy = ∑ pri ∈ Finset.range Pri.nrq, (s.runq pri).length

theorem runqInv_of_sorted (inv : s.board.Inv) (sorted : s.board.Sorted) : RunqInv s where
  ready pid p found ready pri := by
    have count := sorted.placed pri pid
    rw [Board.home_of_view (board_view found)] at count
    have home : p.view.home = some p.priority := by simp [View.home, Proc.view, ready]
    rw [home] at count
    simpa [board, eq_comm] using count
  others pid unready pri queued := by
    rcases sorted.source queued with ⟨v, found, ready, -⟩
    rcases tab_of_board_view found with ⟨p, here, rfl⟩
    exact unready (by simpa [state, here, Proc.view] using ready)
  nrdy := inv.wf.counted

/-- The steps that never change the priority of a process on a run queue. -/
def Sorting (s : Procs) (a : Act) : Prop := Callers Active s a ∧ s.Unqueued a

theorem sorted_of_reach (reached : table.Reach Sorting s) : s.board.Inv ∧ s.board.Sorted := by
  refine System.Reach.invariant (fun s => s.board.Inv ∧ s.board.Sorted)
    (fun s first => ?_) (fun s a s' inv allowed moved => ?_) reached
  · exact first ▸ ⟨inv_new, sorted_new⟩
  · obtain rfl : s' = s.step a := moved
    have within : s.Within { Scope.any with sorted := True } a := by
      cases a with
      | procpriority => exact fun _ => allowed.2
      | _ => simp [Within, Scope.any]
    have moves := moves_step inv.1 allowed.1 within
    exact ⟨moves.inv inv.1, inv.2.moves inv.1 trivial moves⟩

/-- In every run whose priority changes are not of a queued process, the run queues hold
exactly the `Ready` processes, each once and at its own priority, and `sched` picks one of
them. -/
theorem runq_invariant (reached : table.Reach Sorting s) :
    RunqInv s ∧ ∀ pid s', s.sched = some (pid, s') → s.state pid = .ready := by
  rcases sorted_of_reach reached with ⟨inv, sorted⟩
  refine ⟨runqInv_of_sorted inv sorted, fun pid s' picked => ?_⟩
  rcases sched_picked picked with ⟨place, pri, queued, -, -⟩
  by_contra unready
  exact (runqInv_of_sorted inv sorted).others pid unready place queued

def forked : Procs := (Procs.new.step (.rfork 1 Rf.proc)).step (.ready 2)

theorem reach_forked {ok : Procs → Act → Prop}
    (first : ok Procs.new (.rfork 1 Rf.proc))
    (second : ok (Procs.new.step (.rfork 1 Rf.proc)) (.ready 2)) : table.Reach ok forked :=
  .step (.step (.init rfl) first rfl) second rfl

theorem callers_forked : Callers Active Procs.new (.rfork 1 Rf.proc) ∧
    Callers Active (Procs.new.step (.rfork 1 Rf.proc)) (.ready 2) := by
  refine ⟨⟨rfl, Proc.root 1, rfl, rfl, rfl⟩, ?_⟩
  exact ⟨_, rfl, .inl rfl⟩

theorem runq_invariant_forked : table.Reach Sorting forked ∧
    RunqInv forked ∧ ∀ pid s', forked.sched = some (pid, s') → forked.state pid = .ready := by
  have reached : table.Reach Sorting forked :=
    reach_forked ⟨callers_forked.1, trivial⟩ ⟨callers_forked.2, trivial⟩
  exact ⟨reached, runq_invariant reached⟩

/-- `pri 5` written to the `ctl` of a `Ready` process leaves it on the queue of its old
priority: the callers keep their promises, and the run queues are wrong. -/
theorem runq_invariant_fails : ¬∀ s, table.Reach (Callers Active) s → RunqInv s := by
  intro holds
  have reached : table.Reach (Callers Active) (forked.step (.procpriority 2 5 false)) :=
    .step (a := .procpriority 2 5 false) (reach_forked callers_forked.1 callers_forked.2)
      trivial rfl
  have count := (holds _ reached).ready 2 _ rfl rfl 5
  exact absurd count (by decide)

end Procs

end Ipnx
