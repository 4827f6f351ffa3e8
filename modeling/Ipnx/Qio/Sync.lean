import Ipnx.Lib.Handoff
import Ipnx.Proc.Waits
import Ipnx.Qio.Queue

/-!
# The locks and sleeps of a queue

What holds of a queue between any two calls on it, and while a process is in the middle of
one: who is inside a read or a write holds the side's lock or waits for it, a reader sleeps
only on an open queue with nothing in it, and a writer only on an open one that is at least
half full. Each thing `qread` and `qwrite` do keeps it.
-/

namespace Ipnx

namespace Qio

/-- The process is inside a call on a side: it left in the middle of one, or is the one the
kernel is working for. -/
def Inside (d : Qio) (cur : Option (Pid × Side)) (side : Side) (p : Pid) : Prop :=
  (∃ place, d.mid p = some place ∧ place.side = side) ∨ cur = some (p, side)

/-- The process left because the lock was taken, and still waits for it. -/
def Waiting (d : Qio) (p : Pid) : Prop :=
  (∃ place, d.mid p = some place) ∧ d.procs.board.Waits p

/-- The locks and the sleeps of a queue agree with where each process is. -/
structure Sync (id : Qid3) (d : Qio) (cur : Option (Pid × Side)) : Prop where
  inv : d.procs.board.Inv
  locks : ∀ side, Handoff (d.q.lock side).locked (d.q.lock side).q (d.holders side)
    (d.Inside cur side) d.Waiting
  named : ∀ side, d.procs.board.Named (id.rendez side)
  alive : ∀ p, d.mid p ≠ none → d.procs.board.Alive p
  starved : ∀ p, d.procs.board.Asleep (id.rendez .rd) p → d.mid p = some (.read true) ∧
    d.q.starve = true ∧ d.q.blocks = [] ∧ d.q.closed = false
  full : ∀ p, d.procs.board.Asleep (id.rendez .wr) p →
      (∃ sofar, d.mid p = some (.flow sofar true)) ∧
    d.q.flow = true ∧ d.q.closed = false ∧ d.q.limit / 2 ≤ d.q.len
  /-- The queue of a pipe neither coalesces nor drops what does not fit. -/
  plain : d.q.coalesce = false ∧ d.q.noblock = false

/-- The moves that leave the waiters of a queue alone. -/
structure Apart (id : Qid3) (d : Qio) (scope : Scope) : Prop where
  sleeps : ∀ side, ¬scope.sleeps (id.rendez side)
  hands : ∀ p, d.mid p ≠ none → ¬scope.hands p
  exits : ∀ p, d.mid p ≠ none → ¬scope.exits p

theorem owner_rendez (id : Qid3) (side : Side) : (id.rendez side).owner = none := by
  cases side <;> rfl

theorem rendez_openTo (id : Qid3) (side : Side) (pid : Pid) : (id.rendez side).OpenTo pid := by
  simp [Rid.OpenTo, owner_rendez]

@[simp]
theorem rendez_inj (id : Qid3) (side side' : Side) :
    id.rendez side = id.rendez side' ↔ side = side' := by
  cases side <;> cases side' <;> simp [Qid3.rendez]

variable {id : Qid3} {d : Qio} {cur : Option (Pid × Side)} {pid : Pid} {side : Side}

namespace Sync

theorem moves (sync : d.Sync id cur) {scope : Scope} {procs : Procs}
    (steps : Procs.Moves scope d.procs procs) (apart : d.Apart id scope) :
    { d with procs := procs }.Sync id cur where
  inv := steps.inv sync.inv
  locks side := by
    refine (sync.locks side).congr (fun _ => Iff.rfl) fun q _ waiting => ⟨waiting.1, ?_⟩
    rcases waiting with ⟨⟨place, there⟩, waits⟩
    exact Board.Waits.moves steps waits sync.inv (apart.hands q (by simp [there]))
  named side := Board.Named.moves steps (sync.named side) (apart.sleeps side) (owner_rendez id side)
  alive p inside := Board.Alive.moves steps (sync.alive p inside) sync.inv (apart.exits p inside)
  starved p asleep := sync.starved p (Board.Asleep.of_moves steps (apart.sleeps .rd) asleep)
  full p asleep := sync.full p (Board.Asleep.of_moves steps (apart.sleeps .wr) asleep)
  plain := sync.plain

theorem rises (sync : d.Sync id cur) {procs : Procs} (steps : Procs.Rises d.procs procs) :
    { d with procs := procs }.Sync id cur := by
  have still : Procs.Moves .still d.procs procs := steps.rise
  exact sync.moves still ⟨fun _ => not_false, fun _ _ => not_false, fun _ _ => not_false⟩

theorem queue (sync : d.Sync id cur) {q : Queue} (locks : ∀ side, q.lock side = d.q.lock side)
    (plain : q.coalesce = d.q.coalesce ∧ q.noblock = d.q.noblock)
    (starved : ∀ p, d.procs.board.Asleep (id.rendez .rd) p →
      q.starve = true ∧ q.blocks = [] ∧ q.closed = false)
    (full : ∀ p, d.procs.board.Asleep (id.rendez .wr) p →
      q.flow = true ∧ q.closed = false ∧ q.limit / 2 ≤ q.len) :
    { d with q := q }.Sync id cur where
  __ := sync
  locks side := by
    simp only [locks side]
    exact sync.locks side
  starved p asleep := ⟨(sync.starved p asleep).1, starved p asleep⟩
  full p asleep := ⟨(sync.full p asleep).1, full p asleep⟩
  plain := by rw [plain.1, plain.2]; exact sync.plain

end Sync

theorem setMid_of_ne {place : Option At} {p : Pid} (differs : p ≠ pid) :
    (d.setMid pid place).mid p = d.mid p := by
  simp [setMid, differs]

@[simp]
theorem setMid_self (place : Option At) : (d.setMid pid place).mid pid = place := by
  simp [setMid]

theorem inside_setMid {place : At} {p : Pid} (out : d.mid pid = none) :
    (d.setMid pid (some place)).Inside none side p ↔
      d.Inside (some (pid, place.side)) side p := by
  rcases eq_or_ne p pid with rfl | differs
  · simp [Inside, out]
  · simp [Inside, setMid_of_ne differs, differs.symm]

namespace Sync

theorem resume (sync : d.Sync id none) (runs : d.procs.board.Runs pid) {place : At}
    (there : d.mid pid = some place) : (d.setMid pid none).Sync id (some (pid, place.side)) where
  __ := sync
  locks side := by
    refine (sync.locks side).congr (fun p => ?_) fun p _ waiting => ⟨?_, waiting.2⟩
    · rcases eq_or_ne p pid with rfl | differs
      · simp [Inside, there]
      · simp [Inside, setMid_of_ne differs, differs.symm]
    · have differs : p ≠ pid := by
        rintro rfl
        exact runs.not_waits waiting.2
      rw [setMid_of_ne differs]
      exact waiting.1
  alive p inside := by
    rcases eq_or_ne p pid with rfl | differs
    · simp at inside
    · exact sync.alive p (by simpa [setMid_of_ne differs] using inside)
  starved p asleep := by
    have differs : p ≠ pid := by
      rintro rfl
      exact runs.not_asleep _ asleep
    rw [setMid_of_ne differs]
    exact sync.starved p asleep
  full p asleep := by
    have differs : p ≠ pid := by
      rintro rfl
      exact runs.not_asleep _ asleep
    rw [setMid_of_ne differs]
    exact sync.full p asleep

theorem acquired (sync : d.Sync id none) (got : (d.lock side pid).1 = true) :
    (d.lock side pid).2.Sync id (some (pid, side)) := by
  simp only [Qio.lock, Procs.qlock] at got ⊢
  split at got
  · simp at got
  case isFalse free =>
    simp only [Bool.not_eq_true] at free
    simp only [free, Bool.false_eq_true, if_false, if_true]
    refine ⟨sync.inv, fun side' => ?_, sync.named, sync.alive, by simpa using sync.starved,
      by simpa using sync.full, by simpa using sync.plain⟩
    have before := sync.locks side'
    rcases eq_or_ne side' side with rfl | differs
    · rw [free] at before
      simp only [Queue.lock_setLock_self, Function.update_self]
      refine before.acquire fun q => ?_
      simp [Inside, eq_comm]
    · simp only [Queue.lock_setLock_of_ne differs, Function.update_of_ne differs]
      refine before.congr (fun q => ?_) fun _ _ waiting => waiting
      simp [Inside, differs.symm]

theorem waited (sync : d.Sync id none) (runs : d.procs.board.Runs pid) (out : d.mid pid = none)
    {place : At} (same : place.side = side) (busy : (d.lock side pid).1 = false) :
    ((d.lock side pid).2.setMid pid (some place)).Sync id none := by
  rcases runs with ⟨v, found, running, lives⟩
  rcases Procs.tab_of_board_view found with ⟨p, here, rfl⟩
  have steps : Procs.Moves .still d.procs (d.procs.qlock (d.q.lock side) pid).2.2 :=
    Procs.steps_qlock here running (by simpa [Proc.view] using lives)
  simp only [Qio.lock, Procs.qlock] at busy steps ⊢
  split at busy
  case isFalse => simp at busy
  case isTrue taken =>
    simp only [taken, if_true, Bool.false_eq_true, if_false] at steps ⊢
    have moved : { d with procs := (d.procs.setstate pid .queueing).setlabel pid }.Sync id none :=
      sync.moves steps ⟨fun _ => not_false, fun _ _ => not_false, fun _ _ => not_false⟩
    have waits : ((d.procs.setstate pid .queueing).setlabel pid).board.Waits pid := by
      rw [Procs.setlabel, Procs.board_quiet Procs.quiet_setlabel, Procs.board_setstate]
      exact ⟨{ p.view with state := .queueing }, by simp [Board.edit_view, found], rfl⟩
    have awake (r : Rid) :
        ¬((d.procs.setstate pid .queueing).setlabel pid).board.Asleep r pid := by
      rintro ⟨w, there, asleep, -⟩
      rcases waits with ⟨w', there', waiting⟩
      obtain rfl : w = w' := by simpa using there.symm.trans there'
      simp [asleep] at waiting
    have outside : ¬d.Inside none side pid := by simp [Inside, out]
    refine ⟨moved.inv, fun side' => ?_, moved.named, fun q inside => ?_, fun q asleep => ?_,
      fun q asleep => ?_, by simpa [setMid] using sync.plain⟩
    · have before := moved.locks side'
      rcases eq_or_ne side' side with rfl | differs
      · simp only [setMid, Queue.lock_setLock_self]
        simp only [taken] at before
        refine before.wait outside (fun q => ?_) ⟨⟨place, by simp⟩, waits⟩ fun q _ waiting => ?_
        · rcases eq_or_ne q pid with rfl | differs
          · simp [Inside, same]
          · simp [Inside, differs]
        · rcases eq_or_ne q pid with rfl | differs
          · exact ⟨⟨place, by simp⟩, waits⟩
          · exact ⟨by simpa [differs] using waiting.1, waiting.2⟩
      · simp only [setMid, Queue.lock_setLock_of_ne differs]
        refine before.congr (fun q => ?_) fun q _ waiting => ?_
        · rcases eq_or_ne q pid with rfl | apart
          · simp [Inside, out, same, differs.symm]
          · simp [Inside, apart]
        · rcases eq_or_ne q pid with rfl | apart
          · exact ⟨⟨place, by simp⟩, waits⟩
          · exact ⟨by simpa [apart] using waiting.1, waiting.2⟩
    · rcases eq_or_ne q pid with rfl | differs
      · exact Board.Alive.moves steps ⟨p.view, found, lives⟩ sync.inv not_false
      · exact moved.alive q (by simpa [setMid, differs] using inside)
    · have differs : q ≠ pid := by
        rintro rfl
        exact awake _ asleep
      simpa [setMid, differs] using moved.starved q asleep
    · have differs : q ≠ pid := by
        rintro rfl
        exact awake _ asleep
      simpa [setMid, differs] using moved.full q asleep

theorem place_of_asleep (sync : d.Sync id cur) {p : Pid}
    (asleep : d.procs.board.Asleep (id.rendez side) p) :
    ∃ place, d.mid p = some place ∧ place.side = side := by
  cases side with
  | rd => exact ⟨_, (sync.starved p asleep).1, rfl⟩
  | wr =>
      rcases (sync.full p asleep).1 with ⟨sofar, there⟩
      exact ⟨_, there, rfl⟩

variable (sync : d.Sync id (some (pid, side)))

include sync

/-- Whoever the kernel is working for inside a call holds the lock. -/
theorem holder (out : d.mid pid = none) : pid ∈ d.holders side := by
  rcases (sync.locks side).entered pid (.inr rfl) with held | queued
  · exact held
  · rcases ((sync.locks side).waiting pid queued).2.1 with ⟨place, there⟩
    simp [out] at there

theorem leave (runs : d.procs.board.Alive pid)
    {place : At} (out : d.mid pid = none) (same : place.side = side)
    (awake : ∀ side, ¬d.procs.board.Asleep (id.rendez side) pid) :
    (d.setMid pid (some place)).Sync id none where
  __ := sync
  locks side' := by
    refine (sync.locks side').congr (fun p => ?_) fun p _ waiting => ⟨?_, waiting.2⟩
    · rw [inside_setMid out, same]
    · rcases eq_or_ne p pid with rfl | differs
      · exact ⟨place, by simp⟩
      · rw [setMid_of_ne differs]
        exact waiting.1
  alive p inside := by
    rcases eq_or_ne p pid with rfl | differs
    · exact runs
    · exact sync.alive p (by simpa [setMid_of_ne differs] using inside)
  starved p asleep := by
    have differs : p ≠ pid := by
      rintro rfl
      exact awake .rd asleep
    rw [setMid_of_ne differs]
    exact sync.starved p asleep
  full p asleep := by
    have differs : p ≠ pid := by
      rintro rfl
      exact awake .wr asleep
    rw [setMid_of_ne differs]
    exact sync.full p asleep

theorem place_of_queued (out : d.mid pid = none)
    {side' : Side} {p : Pid} (queued : p ∈ (d.q.lock side').q) :
    ∃ place, d.mid p = some place ∧ place.side = side' := by
  rcases (sync.locks side').waiting p queued with ⟨inside | same, ⟨place, there⟩, -⟩
  · exact inside
  · simp only [Option.some.injEq, Prod.mk.injEq] at same
    simp [← same.1, out] at there

theorem released (out : d.mid pid = none) : (d.unlock side pid).Sync id none := by
  have held := sync.holder out
  have locked := ((sync.locks side).eq_of_mem held).2
  let scope : Scope := { Scope.still with hands := fun p => p ∈ (d.q.lock side).q.head? }
  have steps : Procs.Moves scope d.procs (d.procs.qunlock (d.q.lock side)).2 := by
    refine Procs.steps_qunlock fun q first => ⟨?_, first⟩
    have queued : q ∈ (d.q.lock side).q := List.mem_of_mem_head? first
    exact Procs.state_of_waits ((sync.locks side).waiting q queued).2.2
  have inside (side' : Side) (p : Pid) :
      (d.unlock side pid).Inside none side' p ↔
        d.Inside (some (pid, side)) side' p ∧ p ≠ pid := by
    rcases eq_or_ne p pid with rfl | differs
    · simp [Inside, unlock, out]
    · simp [Inside, unlock, differs, differs.symm]
  have still (p : Pid) (other : p ∉ (d.q.lock side).q.head?) (waiting : d.Waiting p) :
      (d.unlock side pid).Waiting p :=
    ⟨waiting.1, Board.Waits.moves steps waiting.2 sync.inv other⟩
  refine ⟨steps.inv sync.inv, fun side' => ?_, fun side' => ?_, fun p isInside => ?_,
    fun p asleep => ?_, fun p asleep => ?_, by simpa [unlock] using sync.plain⟩
  · rcases eq_or_ne side' side with rfl | differs
    · have after := (sync.locks side').release held (inside side') fun p member waiting =>
        still p (fun first => ?_) waiting
      · simpa [unlock, Procs.qunlock_lock, locked] using after
      · rcases queue : (d.q.lock side').q with _ | ⟨head, tail⟩
        · simp [queue] at first
        · have nodup := (sync.locks side').nodup
          simp only [queue, List.head?_cons, Option.mem_def, Option.some_inj, List.tail_cons,
            List.nodup_cons] at first member nodup
          exact nodup.1 (first ▸ member)
    · have after : Handoff (d.q.lock side').locked (d.q.lock side').q (d.holders side')
          ((d.unlock side pid).Inside none side') (d.unlock side pid).Waiting := by
        refine (sync.locks side').congr (fun p => ?_) fun p queued waiting => still p ?_ waiting
        · rw [inside side' p]
          refine ⟨fun both => both.1, fun isInside => ⟨isInside, ?_⟩⟩
          rintro rfl
          simp [Inside, out, differs.symm] at isInside
        · intro first
          rcases sync.place_of_queued out queued with ⟨place, there, rfl⟩
          rcases sync.place_of_queued out (List.mem_of_mem_head? first) with ⟨place', there', rfl⟩
          obtain rfl : place = place' := by simpa using there.symm.trans there'
          exact differs rfl
      simpa [unlock, Queue.lock_setLock_of_ne differs, Function.update_of_ne differs] using after
  · exact Board.Named.moves steps (sync.named side') not_false (owner_rendez id side')
  · exact Board.Alive.moves steps (sync.alive p isInside) sync.inv not_false
  · simpa [unlock] using sync.starved p (Board.Asleep.of_moves steps not_false asleep)
  · simpa [unlock] using sync.full p (Board.Asleep.of_moves steps not_false asleep)

theorem vacant (out : d.mid pid = none) (p : Pid) : ¬d.procs.board.Asleep (id.rendez side) p := by
  intro asleep
  rcases sync.place_of_asleep asleep with ⟨place, there, same⟩
  rcases (sync.locks side).entered p (.inl ⟨place, there, same⟩) with held | queued
  · rw [((sync.locks side).eq_of_mem (sync.holder out)).1, List.mem_singleton] at held
    simp [held, out] at there
  · rcases ((sync.locks side).waiting p queued).2.2 with ⟨v, view, waiting⟩
    rcases asleep with ⟨w, view', sleeps, -⟩
    obtain rfl : v = w := by simpa using view.symm.trans view'
    simp [waiting] at sleeps

theorem sleeping (runs : d.procs.board.Runs pid) (out : d.mid pid = none) :
    (d.sleep id side pid).2.procs.board.Inv ∧
    (∀ side', (d.sleep id side pid).2.procs.board.Named (id.rendez side')) ∧
    (∀ p, d.procs.board.Waits p → (d.sleep id side pid).2.procs.board.Waits p) ∧
    (∀ p, d.procs.board.Alive p → (d.sleep id side pid).2.procs.board.Alive p) ∧
    ∀ side' p, (d.sleep id side pid).2.procs.board.Asleep (id.rendez side') p →
      d.procs.board.Asleep (id.rendez side') p ∨
        side' = side ∧ p = pid ∧ (d.sleep id side pid).1 = true := by
  rcases runs with ⟨v, found, running, lives⟩
  rcases Procs.tab_of_board_view found with ⟨p, here, rfl⟩
  let scope : Scope := { Scope.still with sleeps := fun r => r = id.rendez side }
  have steps : Procs.Moves scope d.procs (d.sleep id side pid).2.procs :=
    Procs.steps_sleep here running (by simpa [Proc.view] using lives)
      (rendez_openTo id side pid) rfl
  have mine := Procs.asleep_sleep false (by simp [here]) (rendez_openTo id side pid)
    (sync.vacant out)
  refine ⟨steps.inv sync.inv, fun side' => ?_, fun q waits => ?_, fun q lives' => ?_,
    fun side' q asleep => ?_⟩
  · rcases eq_or_ne side' side with rfl | differs
    · exact mine.1
    · exact Board.Named.moves steps (sync.named side') (by simpa [scope] using differs)
        (owner_rendez id side')
  · exact Board.Waits.moves steps waits sync.inv not_false
  · exact Board.Alive.moves steps lives' sync.inv not_false
  · rcases eq_or_ne side' side with rfl | differs
    · exact .inr ⟨rfl, mine.2 q asleep⟩
    · exact .inl (Board.Asleep.of_moves steps (by simpa [scope] using differs) asleep)

theorem spared (runs : d.procs.board.Runs pid) (out : d.mid pid = none)
    (awake : (d.sleep id side pid).1 = false) :
    (d.sleep id side pid).2.Sync id (some (pid, side)) := by
  rcases sync.sleeping runs out with ⟨inv, named, waits, alive, asleep⟩
  have before (side' : Side) (p : Pid)
      (sleeps : (d.sleep id side pid).2.procs.board.Asleep (id.rendez side') p) :
      d.procs.board.Asleep (id.rendez side') p := by
    rcases asleep side' p sleeps with before | ⟨-, -, slept⟩
    · exact before
    · simp [awake] at slept
  exact ⟨inv, fun side' => (sync.locks side').congr (fun _ => Iff.rfl)
      fun p _ waiting => ⟨waiting.1, waits p waiting.2⟩,
    named, fun p inside => alive p (sync.alive p inside), fun p sleeps => sync.starved p
      (before .rd p sleeps), fun p sleeps => sync.full p (before .wr p sleeps), sync.plain⟩

theorem slept (runs : d.procs.board.Runs pid) (out : d.mid pid = none)
    {place : At} (same : place.side = side)
    (starved : side = .rd → place = .read true ∧ d.q.starve = true ∧ d.q.blocks = [] ∧
      d.q.closed = false)
    (full : side = .wr → (∃ sofar, place = .flow sofar true) ∧ d.q.flow = true ∧
      d.q.closed = false ∧ d.q.limit / 2 ≤ d.q.len) :
    ((d.sleep id side pid).2.setMid pid (some place)).Sync id none := by
  rcases sync.sleeping runs out with ⟨inv, named, waits, alive, asleep⟩
  have others (side' : Side) (p : Pid) (sleeps : d.procs.board.Asleep (id.rendez side') p) :
      p ≠ pid := by
    rintro rfl
    exact runs.not_asleep _ sleeps
  refine ⟨inv, fun side' => ?_, named, fun p inside => ?_, fun p sleeps => ?_, fun p sleeps => ?_,
    sync.plain⟩
  · refine (sync.locks side').congr (fun p => ?_) fun p _ waiting => ⟨?_, waits p waiting.2⟩
    · rw [inside_setMid (d := (d.sleep id side pid).2) out, same]
      rfl
    · rcases eq_or_ne p pid with rfl | differs
      · exact ⟨place, by simp⟩
      · rw [setMid_of_ne differs]
        exact waiting.1
  · rcases eq_or_ne p pid with rfl | differs
    · exact alive p runs.alive
    · rw [setMid_of_ne differs] at inside
      exact alive p (sync.alive p inside)
  · rcases asleep .rd p sleeps with before | ⟨rfl, rfl, -⟩
    · rw [setMid_of_ne (others .rd p before)]
      exact sync.starved p before
    · rw [setMid_self, Option.some_inj]
      exact starved rfl
  · rcases asleep .wr p sleeps with before | ⟨rfl, rfl, -⟩
    · rw [setMid_of_ne (others .wr p before)]
      exact sync.full p before
    · rcases full rfl with ⟨⟨sofar, rfl⟩, rest⟩
      exact ⟨⟨sofar, setMid_self _⟩, rest⟩

end Sync

end Qio

end Ipnx
