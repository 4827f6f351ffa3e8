import Ipnx.Proc.Sleeping
import Ipnx.Qio.Traffic

/-!
# The locks and wakeups of a queue, over whole runs

In every run in which each process comes back into the call it left, a lock is one process's
at most, who is inside a call on its side, and no wakeup is lost.

The kernel does not always go back. A process whose note is reported on a full pipe sleeps
in that write and is ended all the same, and the write lock is left with it.
-/

namespace Ipnx

def QCall.side : QCall → Side
  | .read _ => .rd
  | .write _ _ => .wr

namespace Qio

variable {id : Qid3} {d : Qio} {pid : Pid} {side : Side}

def On (side : Side) (pid : Pid) (d : Qio) : Prop :=
  ∀ place, d.mid pid = some place → place.side = side

/-- A call changes the place of its own process only, to one on its side. -/
structure Places (side : Side) (pid : Pid) (d d' : Qio) : Prop where
  others : ∀ p ≠ pid, d'.mid p = d.mid p
  on : On side pid d'

theorem Places.same {d' : Qio} (on : On side pid d) (same : d'.mid = d.mid) :
    Places side pid d d' :=
  ⟨fun p _ => by rw [same], by rw [On, same]; exact on⟩

theorem Places.of_setMid {d' : Qio} {place : At} (same : d'.mid = d.mid) (on : place.side = side) :
    Places side pid d (d'.setMid pid (some place)) := by
  refine ⟨fun p differs => by rw [setMid_of_ne differs, same], fun place' there => ?_⟩
  simp only [setMid_self, Option.some_inj] at there
  exact there ▸ on

theorem Places.trans {d' d'' : Qio} (first : Places side pid d d') (next : Places side pid d' d'') :
    Places side pid d d'' :=
  ⟨fun p differs => (next.others p differs).trans (first.others p differs), next.on⟩

theorem Places.cleared : Places side pid d (d.setMid pid none) :=
  ⟨fun _ differs => setMid_of_ne differs, by simp [On]⟩

theorem mid_fail (failnote : Option String) : (d.fail pid failnote).mid = d.mid := by
  cases failnote <;> rfl

theorem mid_drained (id : Qid3) (kick : Kick) : (d.drained id kick).mid = d.mid := by
  unfold drained
  split <;> rfl

theorem places_serve (on : On .rd pid d) (n : Nat) (kick : Kick) :
    Places .rd pid d (d.serve id pid n kick).2 := by
  unfold serve
  split
  · split
    · exact .same on rfl
    · dsimp only
      split
      · exact .of_setMid rfl rfl
      · exact .same on rfl
  · exact .same on (mid_drained id kick)

theorem places_again (on : On .rd pid d) (n : Nat) (kick : Kick) :
    Places .rd pid d (d.again id pid n kick).2 := by
  have skipped : Places .rd pid d (if d.q.coalesce then { d with q := d.q.skipEmpty } else d) :=
    .same on (by split <;> rfl)
  exact skipped.trans (places_serve skipped.on n kick)

theorem places_qread (d : Qio) (id : Qid3) (pid : Pid) (n : Nat) (kick : Kick) :
    Places .rd pid d (d.qread id pid n kick).2 := by
  have cleared : Places .rd pid d (d.setMid pid none) := .cleared
  unfold qread
  split
  case h_1 =>
    have noted : Places .rd pid d ((d.setMid pid none).interrupted pid).2 :=
      cleared.trans (.same cleared.on rfl)
    dsimp only
    split
    · exact noted.trans (.same noted.on rfl)
    · exact noted.trans (places_again noted.on n kick)
  case h_2 => exact cleared.trans (places_again cleared.on n kick)
  case h_3 out =>
    have locked : Places .rd pid d (d.lock .rd pid).2 := .same (by simp [On, out]) rfl
    dsimp only
    split
    · exact locked.trans (places_again locked.on n kick)
    · exact .of_setMid rfl rfl

theorem places_flowctl (on : On .wr pid d) (sofar : Nat) (failnote : Option String) :
    Places .wr pid d (d.flowctl id pid sofar failnote).2 := by
  unfold flowctl
  split
  · dsimp only
    split
    · exact .of_setMid rfl rfl
    · exact .same on (mid_fail failnote)
  · exact .same on rfl

theorem places_queueBlock (on : On .wr pid d) (b : Bytes) (sofar : Nat)
    (failnote : Option String) (kick : Kick) :
    Places .wr pid d (d.queueBlock id pid b sofar failnote kick).2 := by
  unfold queueBlock
  split
  · exact .same on (mid_fail failnote)
  split
  · exact .same on rfl
  dsimp only
  split
  · have woken : Places .wr pid d ((({ d.push pid b with
        q := (d.push pid b).q.setStarve false }).kicked kick).wakeup id .rd).2 := .same on rfl
    split
    · exact .of_setMid rfl rfl
    · exact woken.trans (places_flowctl woken.on sofar failnote)
  · have pushed : Places .wr pid d (d.push pid b) := .same on rfl
    exact pushed.trans (places_flowctl pushed.on sofar failnote)

theorem places_qbwrite {resumed : Option Bool} (on : On .wr pid d) (data : Bytes)
    (sofar : Nat) (failnote : Option String) (kick : Kick) :
    Places .wr pid d (d.qbwrite id pid data sofar resumed failnote kick).2 := by
  match resumed with
  | some true => exact places_flowctl on sofar failnote
  | some false => exact places_queueBlock on _ sofar failnote kick
  | none =>
      have locked : Places .wr pid d (d.lock .wr pid).2 := .same on rfl
      simp only [qbwrite]
      split
      · exact locked.trans (places_queueBlock locked.on _ sofar failnote kick)
      · exact .of_setMid rfl rfl

theorem places_writeLoop {resumed : Option Bool} {data : Bytes} {sofar : Nat}
    (on : On .wr pid d) (failnote : Option String) (kick : Kick) :
    Places .wr pid d (d.writeLoop id pid data sofar resumed failnote kick).2 := by
  fun_induction writeLoop d id pid data sofar resumed failnote kick with
  | case1 d sofar resumed went left => exact places_qbwrite on data sofar failnote kick
  | case2 d sofar resumed went err failed => exact places_qbwrite on data sofar failnote kick
  | case3 d sofar resumed n went passed last => exact places_qbwrite on data sofar failnote kick
  | case4 d sofar resumed n went passed more ih =>
      have turned : Places .wr pid d went.2 := places_qbwrite on data sofar failnote kick
      exact turned.trans (ih turned.on)

theorem places_qwrite (d : Qio) (id : Qid3) (pid : Pid) (data : Bytes)
    (failnote : Option String) (kick : Kick) :
    Places .wr pid d (d.qwrite id pid data failnote kick).2 := by
  have cleared : Places .wr pid d (d.setMid pid none) := .cleared
  unfold qwrite
  split
  case h_1 => exact cleared.trans (places_writeLoop cleared.on failnote kick)
  case h_2 sofar slept _ =>
    have noted : Places .wr pid d ((d.setMid pid none).interrupted pid).2 :=
      cleared.trans (.same cleared.on rfl)
    dsimp only
    cases slept with
    | false => exact cleared.trans (places_writeLoop cleared.on failnote kick)
    | true =>
        simp only [if_true]
        split
        · exact noted.trans (.same noted.on (mid_fail failnote))
        · exact noted.trans (places_writeLoop noted.on failnote kick)
  case h_3 => exact cleared.trans (places_writeLoop cleared.on failnote kick)

end Qio

namespace Traffic

variable {id : Qid3} {limit : Nat} {s : Traffic}

/-- The queue is in order, and each process is known to be in the call it left. -/
structure Orderly (id : Qid3) (s : Traffic) : Prop where
  sync : s.io.Sync id none
  known : ∀ p place, s.io.mid p = some place → ∃ call, s.call p = some call ∧
    call.side = place.side

theorem Orderly.on (orderly : s.Orderly id) {pid : Pid} {call : QCall}
    (resumes : s.Resumes pid call) : Qio.On call.side pid s.io := by
  intro place there
  rcases resumes.2 with out | same
  · simp [out] at there
  · rcases orderly.known pid place there with ⟨call', known, side⟩
    obtain rfl : call = call' := by simpa using same.symm.trans known
    exact side.symm

theorem runs_of_active {procs : Procs} {pid : Pid} (active : procs.Active pid) :
    procs.board.Runs pid := by
  rcases active with ⟨-, p, found, running, alive⟩
  exact ⟨p.view, Procs.board_view found, running, by simp [Proc.view, alive]⟩

theorem Orderly.known_after (orderly : s.Orderly id) {pid : Pid} (call : QCall) {d : Qio}
    (placed : Qio.Places call.side pid s.io d) (p : Pid) (place : At)
    (there : d.mid p = some place) :
    ∃ call', Function.update s.call pid (if (d.mid pid).isSome then some call else none) p =
      some call' ∧ call'.side = place.side := by
  rcases eq_or_ne p pid with rfl | differs
  · exact ⟨call, by simp [there], (placed.on place there).symm⟩
  · rw [placed.others p differs] at there
    simpa [differs] using orderly.known p place there

theorem Orderly.read (orderly : s.Orderly id) {pid : Pid} {n : Nat}
    (resumes : s.Resumes pid (.read n)) : (s.step id (.read pid n)).Orderly id := by
  have sync := orderly.sync.qread (runs_of_active resumes.1) (orderly.on resumes) n
  have known := orderly.known_after (.read n) (Qio.places_qread s.io id pid n noKick)
  simp only [step, afterRead]
  split
  case isTrue still => exact ⟨sync, by simpa [still] using known⟩
  case isFalse finished => exact ⟨sync, by simpa [finished] using known⟩

theorem Orderly.begun (orderly : s.Orderly id) (pid : Pid) (data : Bytes) :
    (s.begun pid data).Orderly id := by
  unfold Traffic.begun
  split
  · exact orderly
  · exact ⟨orderly.sync.history _ s.io.queued, orderly.known⟩

theorem begun_io (pid : Pid) (data : Bytes) :
    (s.begun pid data).io.mid = s.io.mid ∧ (s.begun pid data).io.procs = s.io.procs ∧
      (s.begun pid data).call = s.call := by
  unfold Traffic.begun
  split <;> exact ⟨rfl, rfl, rfl⟩

theorem resumes_begun {pid : Pid} {data : Bytes} {failnote : Option String}
    (resumes : s.Resumes pid (.write data failnote)) :
    (s.begun pid data).Resumes pid (.write data failnote) := by
  have same := s.begun_io pid data
  unfold Resumes
  rw [same.1, same.2.1, same.2.2]
  exact resumes

theorem Orderly.write (orderly : s.Orderly id) {pid : Pid} {data : Bytes}
    {failnote : Option String} (resumes : s.Resumes pid (.write data failnote)) :
    (s.step id (.write pid data failnote)).Orderly id := by
  have first := orderly.begun pid data
  have again := resumes_begun resumes
  simp only [step]
  generalize s.begun pid data = t at first again
  have sync := first.sync.qwrite (runs_of_active again.1) (first.on again) data failnote
  have known := first.known_after (.write data failnote)
    (Qio.places_qwrite t.io id pid data failnote noKick)
  simp only [afterWrite]
  split
  case isTrue still => exact ⟨sync, by simpa [still] using known⟩
  case isFalse finished => exact ⟨sync, by simpa [finished] using known⟩

theorem sync_wakeboth {d : Qio} (sync : d.Sync id none) {q : Queue}
    (locks : ∀ side, q.lock side = d.q.lock side)
    (plain : q.coalesce = d.q.coalesce ∧ q.noblock = d.q.noblock) :
    (wakeboth { d with q := q } id).Sync id none := by
  rcases sync.wake .rd with ⟨first, noReader⟩
  rcases first.wake .wr with ⟨second, noWriter⟩
  refine second.queue (q := q) locks plain (fun p asleep => ?_) fun p asleep =>
    absurd asleep (noWriter p)
  have still : Procs.Moves .still (d.wakeup id .rd).2.procs
      ((d.wakeup id .rd).2.wakeup id .wr).2.procs := (Procs.steps_wakeup _).rise
  exact absurd (Board.Asleep.of_moves still not_false asleep) (noReader p)

theorem Orderly.step {a : QAct} (orderly : s.Orderly id) (returns : s.Returns id a) :
    (s.step id a).Orderly id := by
  have sync := orderly.sync
  cases a with
  | read pid n => exact orderly.read returns
  | write pid data failnote => exact orderly.write returns
  | hangup =>
      exact ⟨sync_wakeboth sync (fun side => by cases side <;> rfl) ⟨rfl, rfl⟩, orderly.known⟩
  | close =>
      refine ⟨sync_wakeboth sync (fun side => by cases side <;> rfl) ⟨rfl, ?_⟩, orderly.known⟩
      exact sync.plain.2.symm
  | reopen =>
      have nobody (side : Side) (p : Pid) : ¬s.io.procs.board.Asleep (id.rendez side) p := by
        intro asleep
        rcases sync.place_of_asleep asleep with ⟨place, there, -⟩
        simp [returns p] at there
      refine ⟨?_, orderly.known⟩
      exact sync.queue (q := s.io.q.reopen) (fun side => by cases side <;> rfl) ⟨rfl, rfl⟩
        (fun p asleep => absurd asleep (nobody .rd p)) fun p asleep => absurd asleep (nobody .wr p)
  | table a =>
      have moves := Procs.moves_step sync.inv returns.1 returns.2
      exact ⟨sync.moves moves ⟨fun side all => all side rfl, fun _ inside => inside,
        fun _ inside => inside⟩, orderly.known⟩

theorem orderly_start {procs : Procs} (inv : procs.board.Inv)
    (vacant : ∀ side p, ¬procs.board.Asleep (id.rendez side) p) :
    (start limit procs).Orderly id where
  sync :=
    { inv := inv
      locks := fun side => by
        cases side <;> exact ⟨fun _ => ⟨rfl, rfl⟩, by simp [start, Queue.new, Queue.lock],
          List.nodup_nil, by simp [start], by simp [start, Queue.new, Queue.lock],
          by simp [start, Qio.Inside]⟩
      named := fun side p asleep => absurd asleep (vacant side p)
      alive := by simp [start]
      starved := fun p asleep => absurd asleep (vacant .rd p)
      full := fun p asleep => absurd asleep (vacant .wr p)
      plain := ⟨rfl, rfl⟩ }
  known := by simp [start]

theorem orderly_of_reach (reached : (system id limit).Reach (Returns id) s) : s.Orderly id := by
  refine System.Reach.invariant (Orderly id) (fun s first => ?_)
    (fun s a s' orderly allowed moved => ?_) reached
  · rcases first with ⟨procs, reach, vacant, rfl⟩
    exact orderly_start (Procs.inv_of_reach (fun _ _ called => called) reach) vacant
  · obtain rfl : s' = s.step id a := moved
    exact orderly.step allowed

/-- The process left in the middle of a call on the side, and has not exited since. -/
def InCall (side : Side) (s : Traffic) (p : Pid) : Prop :=
  (∃ place, s.io.mid p = some place ∧ place.side = side) ∧ s.io.procs.board.Alive p

/-- A lock is taken exactly when a process has it, one at most, which is in the middle of a
call on its side; nobody sleeps for what is there. -/
structure Disciplined (id : Qid3) (s : Traffic) : Prop where
  one : ∀ side, (s.io.holders side).length ≤ 1
  taken : ∀ side, (s.io.q.lock side).locked = true ↔ s.io.holders side ≠ []
  inside : ∀ side, ∀ p ∈ s.io.holders side, s.InCall side p
  readers : s.io.q.blocks ≠ [] ∨ s.io.q.closed = true →
    ∀ p, ¬s.io.procs.board.Asleep (id.rendez .rd) p
  writers : s.io.q.len < s.io.q.limit / 2 ∨ s.io.q.closed = true →
    ∀ p, ¬s.io.procs.board.Asleep (id.rendez .wr) p

/-- In every run in which each process comes back into the call it left before it makes
another or exits, the locks of a queue are one process's at most and let go of at the end of
every call, and no wakeup is lost. -/
theorem queue_disciplined (reached : (system id limit).Reach (Returns id) s) :
    s.Disciplined id := by
  have sync := (orderly_of_reach reached).sync
  refine ⟨fun side => (sync.locks side).length_le_one, fun side => (sync.locks side).taken_iff,
    fun side p held => ?_, fun ready p asleep => ?_, fun ready p asleep => ?_⟩
  · rcases ((sync.locks side).holding p held).1 with ⟨place, there, same⟩ | none
    · exact ⟨⟨place, there, same⟩, sync.alive p (by simp [there])⟩
    · simp at none
  · rcases sync.starved p asleep with ⟨-, -, empty, isOpen⟩
    simp [empty, isOpen] at ready
  · rcases sync.full p asleep with ⟨-, -, isOpen, half⟩
    simp only [isOpen, Bool.false_eq_true, or_false] at ready
    omega

theorem qwrite_fills {data : Bytes} (long : data.length = 32704) (failnote : Option String) :
    let d := (((start pipeqsize Procs.forked).begun 1 data).io.qwrite .pipe 1 data failnote
        noKick).2
    d.mid 1 = some (.flow 0 true) ∧ d.holders .wr = [1] ∧ d.procs = Procs.blocked ∧
      d.q.len = 32768 ∧ d.q.dlen = 32704 := by
  have sleeps : Procs.forked.sleep 1 (.wr .pipe 0 1) false = (true, Procs.blocked) := rfl
  have nobody : Procs.forked.wakeup (.rr .pipe 0 1) = (none, Procs.forked) := rfl
  have size : (Qio.chunk data 0).length = 32704 := by simp [Qio.length_chunk, long, maxatomic]
  simp only [Traffic.begun, start]
  rw [Qio.qwrite]
  simp only [Option.isSome_none, Bool.false_eq_true, if_false]
  rw [Qio.writeLoop]
  simp [Qio.qbwrite, Qio.lock, Procs.qlock, Queue.lock, Queue.new, Queue.setLock, Qio.queueBlock,
    Qio.setMid, Qio.push, Queue.push, Queue.setStarve, Qio.wakeup, Qid3.rendez, Qid3.pipe, nobody,
    Qio.outranked, Qio.flowctl, size, balloc, pipeqsize, Qio.sleep, sleeps, Queue.setFlow,
        Queue.dlen]

/-- The first process wrote to a pipe that was just made. -/
def written (data : Bytes) : Traffic :=
  (start pipeqsize Procs.forked).step .pipe (.write 1 data (some epipenote))

theorem written_io {data : Bytes} (long : data.length = 32704) :
    (written data).io.mid 1 = some (.flow 0 true) ∧ (written data).io.holders .wr = [1] ∧
      (written data).io.procs = Procs.blocked ∧ (written data).io.q.len = 32768 ∧
      (written data).io.q.dlen = 32704 := by
  have same : (written data).io = (((start pipeqsize Procs.forked).begun 1 data).io.qwrite
      .pipe 1 data (some epipenote) noKick).2 := by
    simp only [written, step, afterWrite]
    split <;> rfl
  rw [same]
  exact qwrite_fills long (some epipenote)

theorem reach_written {ok : Traffic → QAct → Prop} {data : Bytes}
    (allowed : ok (start pipeqsize Procs.forked) (.write 1 data (some epipenote))) :
    (system .pipe pipeqsize).Reach ok (written data) := by
  have forked : Procs.table.Reach (Procs.Callers Procs.Active) Procs.forked :=
    Procs.reach_forked Procs.callers_forked.1 Procs.callers_forked.2
  have inv := Procs.inv_of_reach (fun _ _ called => called) forked
  refine .step (a := .write 1 data (some epipenote))
    (.init ⟨Procs.forked, forked, fun side p asleep => ?_, rfl⟩) allowed rfl
  rcases asleep with ⟨v, found, sleeps, link⟩
  rcases (inv.paired rfl).link p v found sleeps with ⟨r, link', named⟩
  obtain rfl : Qid3.pipe.rendez side = r := by simpa using link.symm.trans link'
  have vacant : Procs.forked.rendez (Qid3.pipe.rendez side) = none := by cases side <;> rfl
  exact absurd (vacant.symm.trans named) (by simp)

theorem returns_written (data : Bytes) :
    (start pipeqsize Procs.forked).Returns .pipe (.write 1 data (some epipenote)) :=
  ⟨⟨rfl, _, rfl, rfl, rfl⟩, .inl rfl⟩

theorem queue_disciplined_written :
    (written (List.replicate 32704 0)).io.holders .wr = [1] ∧
      (written (List.replicate 32704 0)).Disciplined .pipe :=
  ⟨(written_io List.length_replicate).2.1, queue_disciplined (reach_written (returns_written _))⟩

theorem exited_written (data : Bytes) (long : data.length = 32704) :
    ∃ s, (system .pipe pipeqsize).Reach (Kernel .pipe) s ∧ ¬s.Disciplined .pipe := by
  rcases written_io long with ⟨-, held, procs, -⟩
  have kernel : (written data).Kernel .pipe (.table (.exits 1 "Suicide")) := by
    refine ⟨.inl ?_, trivial⟩
    rw [procs]
    rfl
  have reached : (system .pipe pipeqsize).Reach (Kernel .pipe)
      ((written data).step .pipe (.table (.exits 1 "Suicide"))) :=
    .step (a := .table (.exits 1 "Suicide")) (reach_written rfl) kernel rfl
  refine ⟨_, reached, fun disciplined => ?_⟩
  rcases (disciplined.inside .wr 1 (by simp [step, held])).2 with ⟨v, found, lives⟩
  have finished : ((Procs.blocked.step (.exits 1 "Suicide")).board.view 1).map (·.ended) =
      some true := rfl
  rw [step, procs] at found
  simp [found, lives] at finished

/-- A process that is ended in the middle of its write keeps the write lock, and the kernel
can come there: it writes a note's text for a process and ends it, whether or not the write
slept. -/
theorem queue_disciplined_fails :
    ¬∀ id limit s, (system id limit).Reach (Kernel id) s → s.Disciplined id := by
  intro holds
  rcases exited_written (List.replicate 32704 0) List.length_replicate with
    ⟨s, reached, undisciplined⟩
  exact undisciplined (holds _ _ s reached)

end Traffic

end Ipnx
