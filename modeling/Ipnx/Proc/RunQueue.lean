import Ipnx.Proc.Moves

/-!
# The run queues

Two invariants of the moves. `Once`: a process is on the run queues at most once, exactly
once when it is `Ready`, and not at all while it is neither `Ready` nor ended. `Sorted`,
of the strict moves: the queue a process is on is that of its own priority, and what is
queued is `Ready`.
-/

namespace Ipnx

def View.home (v : View) : Option Nat :=
  if v.state = .ready then some v.priority else none

namespace Board

variable {b b' : Board} {scope : Scope} {pid : Pid}

def occ (b : Board) (pid : Pid) : Nat :=
  Queues.occ b.runq (Finset.range Pri.nrq) pid

/-- Every process is on the run queues as often as its state says. -/
structure Once (b : Board) : Prop where
  le : ∀ pid, b.occ pid ≤ 1
  ready : ∀ pid v, b.view pid = some v → v.state = .ready → b.occ pid = 1
  idle : ∀ pid v, b.view pid = some v → v.state ≠ .ready → ¬v.state.Exited → b.occ pid = 0

theorem occ_queue {pri : Nat} (low : pri < Pri.npriq) (other : Pid) :
    (b.queue pri pid).occ other = b.occ other + if other = pid then 1 else 0 :=
  Queues.occ_push (Finset.mem_range.mpr (lt_nrq low)) other

theorem occ_unqueue (wf : b.Wf) {place : Nat} (queued : pid ∈ b.runq place) (other : Pid) :
    (b.unqueue place pid).occ other + (if other = pid then 1 else 0) = b.occ other :=
  Queues.occ_take (Finset.mem_range.mpr (wf.inside _ _ queued)) queued other

theorem occ_pos (wf : b.Wf) {place : Nat} (queued : pid ∈ b.runq place) : 0 < b.occ pid :=
  Queues.occ_pos_of_mem (Finset.mem_range.mpr (wf.inside _ _ queued)) queued

theorem occ_eq_zero (unqueued : ∀ place, pid ∉ b.runq place) : b.occ pid = 0 := by
  simp only [occ, Queues.occ]
  exact Finset.sum_eq_zero fun place _ => List.count_eq_zero.mpr (unqueued place)

@[simp]
theorem occ_edit (f : View → View) (other : Pid) : (b.edit pid f).occ other = b.occ other := rfl

@[simp]
theorem occ_setRendez (r : Rid) (who : Option Pid) (other : Pid) :
    (b.setRendez r who).occ other = b.occ other := rfl

@[simp]
theorem occ_sleepOn (r : Rid) (other : Pid) : (b.sleepOn pid r).occ other = b.occ other := by
  simp [occ]

@[simp]
theorem occ_leavergrp (g : Nat) (other : Pid) : (b.leavergrp g pid).occ other = b.occ other := rfl

@[simp]
theorem occ_joinrgrp (g : Nat) (other : Pid) : (b.joinrgrp g pid).occ other = b.occ other := rfl

namespace Once

variable (once : b.Once)

include once

theorem source (wf : b.Wf) {place : Nat} (queued : pid ∈ b.runq place)
    (v : View) (found : b.view pid = some v) : v.state = .ready ∨ v.state.Exited := by
  by_contra neither
  rw [not_or] at neither
  have absent := once.idle pid v found neither.1 neither.2
  have present := occ_pos wf queued
  omega

theorem change (pid : Pid) (others : ∀ q ≠ pid, b'.view q = b.view q)
    (counts : ∀ q ≠ pid, b'.occ q = b.occ q) (le : b'.occ pid ≤ 1)
    (ready : ∀ v, b'.view pid = some v → v.state = .ready → b'.occ pid = 1)
    (idle : ∀ v, b'.view pid = some v → v.state ≠ .ready → ¬v.state.Exited → b'.occ pid = 0) :
    b'.Once where
  le q := by
    rcases eq_or_ne q pid with rfl | differs
    · exact le
    · rw [counts q differs]
      exact once.le q
  ready q v found := by
    rcases eq_or_ne q pid with rfl | differs
    · exact ready v found
    · rw [counts q differs]
      exact once.ready q v ((others q differs).symm.trans found)
  idle q v found := by
    rcases eq_or_ne q pid with rfl | differs
    · exact idle v found
    · rw [counts q differs]
      exact once.idle q v ((others q differs).symm.trans found)

theorem edit {f : View → View}
    (ready : ∀ v, b.view pid = some v → (f v).state = .ready → b.occ pid = 1)
    (idle : ∀ v, b.view pid = some v → (f v).state ≠ .ready → ¬(f v).state.Exited →
      b.occ pid = 0) : (b.edit pid f).Once := by
  refine once.change pid (fun q differs => by simp [edit_view, differs])
    (fun _ _ => rfl) (once.le pid) ?_ ?_ <;> intro w here <;>
    rcases view_of_edit here with ⟨differs, -⟩ | ⟨-, v, was, rfl⟩
  · exact absurd rfl differs
  · exact ready v was
  · exact absurd rfl differs
  · exact idle v was

theorem enqueue {pri : Nat} {f : View → View} (low : pri < Pri.npriq)
    (absent : b.occ pid = 0) (ready : ∀ v, (f v).state = .ready) :
    ((b.edit pid f).queue pri pid).Once := by
  have here : ((b.edit pid f).queue pri pid).occ pid = 1 := by simp [occ_queue low, absent]
  refine once.change pid
    (fun q differs => (edit_view b pid q f).trans (if_neg differs))
    (fun q differs => by simp [occ_queue low, differs]) here.le (fun _ _ _ => here) ?_
  intro w found unready
  rcases view_of_edit found with ⟨differs, -⟩ | ⟨-, v, -, rfl⟩
  · exact absurd rfl differs
  · exact absurd (ready v) unready

theorem congr (views : b'.view = b.view) (queues : b'.runq = b.runq) : b'.Once := by
  have counts : ∀ q, b'.occ q = b.occ q := fun q => by simp only [occ, queues]
  refine ⟨fun q => ?_, fun q v found => ?_, fun q v found => ?_⟩ <;> rw [counts q]
  · exact once.le q
  · exact once.ready q v (views ▸ found)
  · exact once.idle q v (views ▸ found)

theorem editSame {f : View → View} (same : ∀ v, (f v).state = v.state) : (b.edit pid f).Once :=
  once.edit (fun v found => by simpa [same] using once.ready pid v found)
    (fun v found => by simpa [same] using once.idle pid v found)

theorem editIdle {f : View → View} (absent : b.occ pid = 0)
    (unready : ∀ v, (f v).state ≠ .ready) : (b.edit pid f).Once :=
  once.edit (fun v _ ready => absurd ready (unready v)) (fun _ _ _ _ => absent)

theorem absent {v : View} (found : b.view pid = some v)
    (idle : v.state = .scheding ∨ v.state = .running ∨ v.state = .stopped ∨
      v.state = .queueing ∨ v.state = .wakeme ∨ v.state = .rendezvous) : b.occ pid = 0 := by
  apply once.idle pid v found <;> rcases idle with h | h | h | h | h | h <;>
    simp [h, State.Exited]

theorem rendez {r : Rid} {who : Option Pid} : ((b.sleepOn pid r).setRendez r who).Once :=
  once.congr (sleepOn_view r) (sleepOn_runq r)

theorem unqueue (wf : b.Wf) {place : Nat} (queued : pid ∈ b.runq place) :
    (b.unqueue place pid).occ pid = 0 := by
  have atMost := once.le pid
  have before := occ_unqueue wf queued pid
  simp only [if_true] at before
  omega

theorem unqueueEdit (wf : b.Wf) {place : Nat} (queued : pid ∈ b.runq place) {f : View → View}
    (unready : ∀ v, (f v).state ≠ .ready) : ((b.unqueue place pid).edit pid f).Once := by
  have off := once.unqueue wf queued
  refine once.change pid
    (fun q differs => (edit_view (b.unqueue _ _) pid q _).trans (if_neg differs))
    (fun q differs => by simpa [differs] using occ_unqueue wf queued q)
    (by simp [off]) ?_ (fun _ _ _ _ => off)
  intro w here ready
  rcases view_of_edit here with ⟨differs, -⟩ | ⟨-, v, -, rfl⟩
  · exact absurd rfl differs
  · exact absurd ready (unready v)

theorem move (wf : b.Wf) (moved : Move scope b b') : b'.Once := by
  cases moved with
  | ready found source low =>
      refine once.enqueue (low.trans_lt (wf.bounded _ _ found).1) ?_ (fun _ => rfl)
      exact once.absent found (by tauto)
  | slept trend twhen found running =>
      refine once.rendez.editIdle ?_ (by simp)
      simpa using once.absent found (by tauto)
  | @spared _ _ _ timed =>
      refine once.rendez.editSame fun v => ?_
      cases timed <;> rfl
  | rouse moved =>
      cases moved with
      | woken found asleep link low =>
          refine Once.enqueue (b := b.setRendez _ none) (once.congr rfl rfl)
            (low.trans_lt (wf.bounded _ _ found).1) ?_ (fun _ => rfl)
          exact once.absent found (by tauto)
      | untimed double => exact once.editSame fun _ => rfl
      | met found waiting low =>
          refine Once.enqueue (b := b.leavergrp _ _) (once.congr rfl rfl)
            (low.trans_lt (wf.bounded _ _ found).1) ?_ (fun _ => rfl)
          exact once.absent found (by tauto)
      | @shifted pid place pri queued low inside =>
          have counts (q : Pid) : (((b.unqueue place pid).edit pid fun v =>
              { v with priority := pri }).queue pri pid).occ q = b.occ q := by
            rw [occ_queue inside, occ_edit, occ_unqueue wf queued]
          have present : b.occ pid ≠ 0 := (occ_pos wf queued).ne'
          refine once.change pid
            (fun q differs => (edit_view (b.unqueue _ _) pid q _).trans (if_neg differs))
            (fun q _ => counts q) (by rw [counts]; exact once.le pid) ?_ ?_ <;>
            intro w here <;> rw [counts] <;>
            rcases view_of_edit here with ⟨differs, -⟩ | ⟨-, v, was, rfl⟩
          · exact absurd rfl differs
          · exact once.ready pid v was
          · exact absurd rfl differs
          · exact once.idle pid v was
  | gathered found running alive =>
      have gone := once.editIdle (f := fun v => { v with state := .rendezvous })
        (once.absent found (by tauto)) (by simp)
      exact gone.congr rfl rfl
  | parked found running alive target =>
      refine once.editIdle (once.absent found (by tauto)) fun _ => ?_
      rcases target with rfl | rfl <;> simp
  | exited found source => exact once.edit (by simp) (by simp [State.Exited])
  | @culled pid v found source =>
      split
      case isTrue queued =>
        exact once.unqueueEdit wf queued (by simp)
      case isFalse => exact once.edit (by simp) (by simp [State.Exited])
  | buried pid st broken finished target kept =>
      refine (once.edit ?_ ?_).congr (b := b.edit _ _) rfl rfl <;>
        rcases target with rfl | rfl <;> simp [State.Exited]
  | @picked pid place pri queued source low =>
      exact once.unqueueEdit wf queued (by simp)
  | @made v fresh alive awake bounded =>
      have unqueued : b.occ b.next = 0 := occ_eq_zero (wf.fresh b.next le_rfl).2
      refine once.change b.next (fun q differs => by simp [differs]) (fun _ _ => rfl)
        (unqueued.le.trans zero_le_one) ?_ (fun _ _ _ _ => unqueued)
      intro w here ready
      simp only [Function.update_self, Option.some_inj] at here
      simp [← here, fresh] at ready
  | @reaped pid v found finished =>
      refine once.change pid (fun q differs => by simp [differs]) (fun _ _ => rfl)
        (once.le pid) ?_ ?_ <;> simp
  | reprioritized pid bounded unqueued => exact once.editSame fun _ => rfl
  | regrouped found running => exact once.editSame fun _ => rfl

end Once

def home (b : Board) (pid : Pid) : Option Nat := (b.view pid).bind View.home

/-- Every `Ready` process is once on the queue of its priority, and nothing else is on any;
a process whose status is fixed has ended. -/
structure Sorted (b : Board) : Prop where
  placed : Queues.Placed b.runq b.home
  finished : ∀ pid v, b.view pid = some v → v.ended = true → v.state.Exited

theorem home_of_view {v : View} (found : b.view pid = some v) : b.home pid = v.home := by
  simp [home, found]

theorem home_edit (f : View → View) :
    (b.edit pid f).home =
      Function.update b.home pid ((b.view pid).bind fun v => (f v).home) := by
  funext other
  rcases eq_or_ne other pid with rfl | differs
  · simp [home, edit_view, Option.bind_map]
  · simp [home, edit_view, differs]

namespace Sorted

variable (sorted : b.Sorted)

include sorted

theorem placed_of_home (queues : b'.runq = b.runq)
    (homes : ∀ q, b'.home q = b.home q) : Queues.Placed b'.runq b'.home := by
  rw [queues, funext homes]
  exact sorted.placed

theorem congr (views : b'.view = b.view) (queues : b'.runq = b.runq) : b'.Sorted where
  placed := sorted.placed_of_home queues fun q => by simp only [home, views]
  finished pid v found := sorted.finished pid v (views ▸ found)

theorem overEdit {f : View → View}
    (finished : ∀ v, b.view pid = some v → (f v).ended = true → (f v).state.Exited)
    (other : Pid) (w : View) (found : (b.edit pid f).view other = some w)
    (ended : w.ended = true) : w.state.Exited := by
  rcases view_of_edit found with ⟨-, was⟩ | ⟨-, v, was, rfl⟩
  · exact sorted.finished other w was ended
  · exact finished v was ended

theorem edit {f : View → View} (stays : ∀ v, b.view pid = some v → (f v).home = v.home)
    (finished : ∀ v, b.view pid = some v → (f v).ended = true → (f v).state.Exited) :
    (b.edit pid f).Sorted where
  placed := by
    have homes : ((b.view pid).bind fun v => (f v).home) = b.home pid := by
      cases found : b.view pid with
      | none => simp [home, found]
      | some v => simp [home, found, stays v found]
    rw [home_edit, homes, Function.update_eq_self]
    exact sorted.placed
  finished := sorted.overEdit finished

theorem enqueue {f : View → View} {pri : Nat} {v : View}
    (found : b.view pid = some v) (unready : v.state ≠ .ready)
    (ready : (f v).state = .ready ∧ (f v).priority = pri) (alive : (f v).ended = false) :
    ((b.edit pid f).queue pri pid).Sorted where
  placed := by
    have homes : ((b.edit pid f).queue pri pid).home = Function.update b.home pid (some pri) := by
      have there : (f v).home = some pri := by simp [View.home, ready]
      exact (home_edit f).trans (by simp [found, there])
    rw [homes]
    exact sorted.placed.push pid pri (by simp [home_of_view found, View.home, unready])
  finished := sorted.overEdit fun w was ended => by
    obtain rfl : w = v := by simpa using was.symm.trans found
    simp [alive] at ended

theorem dequeue {f : View → View} {v : View}
    (found : b.view pid = some v) (ready : v.state = .ready)
    (unready : (f v).state ≠ .ready)
    (finished : (f v).ended = true → (f v).state.Exited) :
    ((b.unqueue v.priority pid).edit pid f).Sorted where
  placed := by
    have homes : ((b.unqueue v.priority pid).edit pid f).home =
        Function.update b.home pid none := by
      have nowhere : (f v).home = none := by simp [View.home, unready]
      exact (home_edit f).trans (by simp [Board.unqueue, found, nowhere]; rfl)
    rw [homes]
    exact sorted.placed.take pid _ (by simp [home_of_view found, View.home, ready])
  finished other w here := by
    refine sorted.overEdit (f := f) (fun w was ended => ?_) other w here
    obtain rfl : w = v := by simpa using was.symm.trans found
    exact finished ended

theorem source {place : Nat} (queued : pid ∈ b.runq place) :
    ∃ v, b.view pid = some v ∧ v.state = .ready ∧ v.priority = place := by
  have belongs := sorted.placed.mem_iff.mp queued
  simp only [home, Option.bind_eq_some_iff, View.home, ite_eq_iff, Option.some_inj,
    reduceCtorEq, and_false, or_false] at belongs
  exact belongs

theorem editSame {f : View → View}
    (same : ∀ v, (f v).state = v.state ∧ (f v).priority = v.priority ∧ (f v).ended = v.ended) :
    (b.edit pid f).Sorted := by
  refine sorted.edit (fun v _ => by simp [View.home, same]) fun v found ended => ?_
  rw [(same v).1]
  exact sorted.finished _ v found ((same v).2.2 ▸ ended)

theorem editIdle {f : View → View} {v : View}
    (found : b.view pid = some v) (unready : v.state ≠ .ready) (stays : (f v).state ≠ .ready)
    (finished : (f v).ended = true → (f v).state.Exited) : (b.edit pid f).Sorted := by
  have only : ∀ w, b.view pid = some w → w = v := fun w was => by
    simpa using was.symm.trans found
  refine sorted.edit (fun w was => ?_) (fun w was => only w was ▸ finished)
  rcases only w was with rfl
  simp [View.home, unready, stays]

theorem rendez {r : Rid} {who : Option Pid} : ((b.sleepOn pid r).setRendez r who).Sorted :=
  sorted.congr (sleepOn_view r) (sleepOn_runq r)

theorem move (wf : b.Wf) (moved : Move scope b b') (still : scope.sorted) : b'.Sorted := by
  cases moved with
  | @ready pid v pri found source low =>
      have unready : v.state ≠ .ready := by rcases source with h | h | h | h <;> simp [h]
      have alive : v.ended = false := by
        by_contra finished
        have exited := sorted.finished _ _ found (by simpa using finished)
        rcases source with h | h | h | h <;> simp [h, State.Exited] at exited
      exact sorted.enqueue found unready ⟨rfl, rfl⟩ alive
  | @slept pid v r trend twhen found running alive mine there timer =>
      exact sorted.rendez.editIdle (v := v) (by simpa [setRendez] using found)
        (by simp [running]) (by simp) (by simp [alive])
  | @spared pid v r timed found running =>
      exact sorted.rendez.editSame fun v => by cases timed <;> exact ⟨rfl, rfl, rfl⟩
  | rouse moved =>
      cases moved with
      | @woken pid v r pri found asleep link low =>
          have alive := wf.alive _ _ found (.inl asleep)
          exact Sorted.enqueue (b := b.setRendez r none) (sorted.congr rfl rfl) found
            (by simp [asleep]) ⟨rfl, rfl⟩ alive
      | untimed double => exact sorted.editSame fun _ => ⟨rfl, rfl, rfl⟩
      | @met pid v pri found waiting low =>
          have alive := wf.alive _ _ found (.inr (.inl waiting))
          exact Sorted.enqueue (b := b.leavergrp v.rgrp pid) (sorted.congr rfl rfl) found
            (by simp [waiting]) ⟨rfl, rfl⟩ alive
      | @shifted pid place pri queued low inside =>
          rcases sorted.source queued with ⟨v, found, ready, rfl⟩
          refine ⟨?_, sorted.overEdit fun w was => sorted.finished _ w was⟩
          have off := sorted.placed.take pid v.priority
            (by simp [home_of_view found, View.home, ready])
          have on := off.push pid pri (by simp)
          rw [Function.update_idem] at on
          have homes : (b.edit pid fun v => { v with priority := pri }).home =
              Function.update b.home pid (some pri) := by
            rw [home_edit]
            simp [found, View.home, ready]
          exact homes ▸ on
  | @gathered pid v found running alive =>
      have gone := sorted.editIdle (f := fun v => { v with state := .rendezvous }) found
        (by simp [running]) (by simp) (by simp [alive])
      exact gone.congr rfl rfl
  | parked found running alive target =>
      refine sorted.editIdle found (by simp [running]) ?_ (by simp [alive])
      rcases target with rfl | rfl <;> simp
  | exited found source =>
      refine sorted.editIdle found ?_ (by simp) (by simp [State.Exited])
      rcases source with h | h <;> simp [h]
  | @culled pid v found source =>
      have queued : pid ∈ b.runq v.priority :=
        sorted.placed.mem_iff.mpr (by simp [home_of_view found, View.home, source])
      rw [if_pos queued]
      exact sorted.dequeue found source (by simp) (by simp [State.Exited])
  | @buried pid st broken finished target kept =>
      have exited : st.Exited := .inr target
      have dead : st ≠ .ready := by rcases target with rfl | rfl <;> simp
      refine (sorted.edit (f := fun v => { v with state := st }) ?_ ?_).congr rfl rfl
      · intro v found
        have ended := sorted.finished _ v found (finished v found)
        rcases ended with h | h | h <;> simp [View.home, dead, h]
      · exact fun _ _ _ => exited
  | @picked pid place pri queued source low =>
      rcases sorted.source queued with ⟨v, found, ready, rfl⟩
      refine sorted.dequeue found ready (by simp) fun ended => ?_
      have exited := sorted.finished _ _ found ended
      simp [ready, State.Exited] at exited
  | @made v fresh alive awake bounded =>
      have unknown := (wf.fresh b.next le_rfl).1
      refine ⟨sorted.placed_of_home rfl fun q => ?_, fun q w here ended => ?_⟩
      · rcases eq_or_ne q b.next with rfl | differs
        · simp [home, unknown, View.home, fresh]
        · simp [home, differs]
      · rcases eq_or_ne q b.next with rfl | differs
        · simp only [Function.update_self, Option.some_inj] at here
          simp [← here, alive] at ended
        · exact sorted.finished q w (by simpa [differs] using here) ended
  | @reaped pid v found finished =>
      have gone : v.home = none := by
        rcases sorted.finished _ v found finished with h | h | h <;> simp [View.home, h]
      refine ⟨sorted.placed_of_home rfl fun q => ?_, fun q w here ended => ?_⟩
      · rcases eq_or_ne q pid with rfl | differs
        · simp [home, found, gone]
        · simp [home, differs]
      · rcases eq_or_ne q pid with rfl | differs
        · simp at here
        · exact sorted.finished q w (by simpa [differs] using here) ended
  | @reprioritized pid basepri pri bounded unqueued =>
      refine sorted.edit (fun v found => ?_) (fun v found => sorted.finished _ v found)
      simp only [View.home]
      split
      case isTrue ready => rw [unqueued still v found ready]
      case isFalse => rfl
  | regrouped found running => exact sorted.editSame fun _ => ⟨rfl, rfl, rfl⟩

end Sorted

end Board

end Ipnx
