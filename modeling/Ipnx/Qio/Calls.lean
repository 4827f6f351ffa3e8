import Ipnx.Qio.Sync

/-!
# Calls keep the locks and sleeps

`qread` and `qwrite` keep the invariant of the queue, whichever way they go: by data, end of
file, a note or a hangup, and whether they end or leave in the middle.
-/

namespace Ipnx

def noKick : Kick := fun q procs => (q, procs)

namespace Qio

variable {id : Qid3} {d : Qio} {cur : Option (Pid × Side)} {pid : Pid} {side : Side}

@[simp]
theorem kicked_noKick : d.kicked noKick = d := rfl

theorem board_interrupted (s : Procs) (pid : Pid) : (s.interrupted pid).2.board = s.board :=
  Procs.board_quiet ⟨fun _ => rfl, fun _ => rfl, fun _ => rfl⟩

namespace Sync

theorem interrupted (sync : d.Sync id cur) (pid : Pid) : (d.interrupted pid).2.Sync id cur :=
  sync.rises (.of_board (board_interrupted d.procs pid))

theorem fail (sync : d.Sync id cur) (pid : Pid) (failnote : Option String) :
    (d.fail pid failnote).Sync id cur := by
  cases failnote with
  | none => exact sync
  | some note => exact sync.rises (Procs.steps_postnote note .nuser)

theorem wake (sync : d.Sync id cur) (side : Side) :
    (d.wakeup id side).2.Sync id cur ∧
      ∀ p, ¬(d.wakeup id side).2.procs.board.Asleep (id.rendez side) p :=
  ⟨sync.rises (Procs.steps_wakeup _), fun _ => Procs.not_asleep_wakeup (sync.named side)⟩

theorem drained (sync : d.Sync id (some (pid, .rd))) (out : d.mid pid = none) {q : Queue}
    (locks : ∀ side, q.lock side = d.q.lock side)
    (plain : q.coalesce = d.q.coalesce ∧ q.noblock = d.q.noblock)
    (same : q.flow = d.q.flow ∧ q.closed = d.q.closed) :
    ({ d with q := q }.drained id noKick).Sync id (some (pid, .rd)) := by
  unfold Qio.drained
  split
  case isTrue low =>
    rcases sync.wake .wr with ⟨woken, nobody⟩
    refine woken.queue locks plain (fun p asleep => ?_) fun p asleep => absurd asleep (nobody p)
    exact absurd asleep (woken.vacant out p)
  case isFalse high =>
    refine sync.queue locks plain (fun p asleep => absurd asleep (sync.vacant out p))
      fun p asleep => ?_
    rcases sync.full p asleep with ⟨-, flow, isOpen, -⟩
    have flows : q.flow = true := same.1.trans flow
    refine ⟨flows, same.2.trans isOpen, ?_⟩
    simpa [flows] using high

theorem again (sync : d.Sync id (some (pid, .rd))) (runs : d.procs.board.Runs pid)
    (out : d.mid pid = none) (n : Nat) : (d.again id pid n noKick).2.Sync id none := by
  rw [again_plain sync.plain.1]
  unfold Qio.serve
  split
  case isTrue empty =>
    have nothing : d.q.blocks = [] := List.isEmpty_iff.mp empty
    split
    case isTrue isClosed =>
      refine released (d := { d with q := d.q.countEof }) ?_ out
      exact sync.queue (fun side => by cases side <;> rfl) ⟨rfl, rfl⟩
        (fun p asleep => (sync.starved p asleep).2) fun p asleep => (sync.full p asleep).2
    case isFalse notClosed =>
      have isOpen : d.q.closed = false := by simpa using notClosed
      have starving : { d with q := d.q.setStarve true }.Sync id (some (pid, .rd)) :=
        sync.queue (fun side => by cases side <;> rfl) ⟨rfl, rfl⟩
          (fun p asleep => ⟨rfl, (sync.starved p asleep).2.2⟩) fun p asleep =>
              (sync.full p asleep).2
      dsimp only
      split
      case isTrue =>
        exact starving.slept runs out rfl
          (fun _ => ⟨rfl, rfl, nothing, isOpen⟩) (by simp)
      case isFalse awake =>
        have back := (starving.spared runs out (by simpa using awake)).interrupted pid
        exact back.released out
  case isFalse =>
    have taken := sync.drained (q := (d.q.take n).2) out (fun side => by cases side <;> rfl)
      ⟨rfl, rfl⟩ ⟨rfl, rfl⟩
    refine taken.released ?_
    unfold Qio.drained
    split <;> exact out

theorem runs_acquired (runs : d.procs.board.Runs pid) (got : (d.lock side pid).1 = true) :
    (d.lock side pid).2.procs.board.Runs pid := by
  have same : (d.lock side pid).2.procs = d.procs := by
    simp only [Qio.lock, Procs.qlock] at got ⊢
    split at got
    · simp at got
    case isFalse free => simp [free]
  rw [same]
  exact runs

theorem qread (sync : d.Sync id none) (runs : d.procs.board.Runs pid)
    (back : ∀ place, d.mid pid = some place → place.side = .rd) (n : Nat) :
    (d.qread id pid n noKick).2.Sync id none := by
  unfold Qio.qread
  split
  case h_1 there =>
    have inside := (sync.resume runs there).interrupted pid
    have board := board_interrupted (d.setMid pid none).procs pid
    dsimp only
    split
    · exact inside.released (by simp [Qio.interrupted])
    · refine inside.again (board ▸ runs) (by simp [Qio.interrupted]) n
  case h_2 place _ there =>
    have inside := sync.resume runs there
    rw [back place there] at inside
    exact inside.again runs (by simp) n
  case h_3 out =>
    dsimp only
    split
    case isTrue got =>
      exact (sync.acquired got).again (runs_acquired runs got) out n
    case isFalse busy => exact sync.waited runs out rfl (by simpa using busy)

/-- How one block leaves the queue, and that its writer runs on if it passed. -/
structure Goes (id : Qid3) (pid : Pid) (went : Went × Qio) : Prop where
  sync : went.2.Sync id none
  runs : went.1 = .passed → went.2.procs.board.Runs pid ∧ went.2.mid pid = none

theorem history (sync : d.Sync id cur) (serial : Pid → Nat) (queued : List (Nat × Bytes)) :
    { d with serial := serial, queued := queued }.Sync id cur :=
  { sync with }

theorem supplied (sync : d.Sync id (some (pid, .wr))) (out : d.mid pid = none)
    (nobody : ∀ p, ¬d.procs.board.Asleep (id.rendez .rd) p) {q : Queue}
    (locks : ∀ side, q.lock side = d.q.lock side)
    (plain : q.coalesce = d.q.coalesce ∧ q.noblock = d.q.noblock) (queued : List (Nat × Bytes)) :
    { d with q := q, queued := queued }.Sync id (some (pid, .wr)) := by
  have filled : { d with q := q }.Sync id (some (pid, .wr)) :=
    sync.queue locks plain (fun p asleep => absurd asleep (nobody p))
      fun p asleep => absurd asleep (sync.vacant out p)
  exact filled.history d.serial queued

section Sync

variable (sync : d.Sync id (some (pid, .wr))) (runs : d.procs.board.Runs pid)
    (out : d.mid pid = none)

include sync runs out

theorem passed : Goes id pid (.passed, d.unlock .wr pid) where
  sync := sync.released out
  runs _ := by
    refine ⟨Procs.runs_qunlock (fun q first => ?_) runs, out⟩
    exact ((sync.locks .wr).waiting q (List.mem_of_mem_head? first)).2.2

/-- With the block queued, the write goes on below the limit and sleeps at it. -/
theorem flowctl (sofar : Nat) (failnote : Option String) :
    Goes id pid (d.flowctl id pid sofar failnote) := by
  unfold Qio.flowctl
  split
  case isTrue finished =>
    simp only [sync.plain.2, Bool.false_or, Bool.not_or, Bool.and_eq_true, Bool.not_eq_true',
      decide_eq_false_iff_not, not_lt] at finished
    have flowing : { d with q := d.q.setFlow true }.Sync id (some (pid, .wr)) :=
      sync.queue (fun side => by cases side <;> rfl) ⟨rfl, rfl⟩
        (fun p asleep => (sync.starved p asleep).2)
        fun p asleep => ⟨rfl, (sync.full p asleep).2.2⟩
    dsimp only
    split
    case isTrue =>
      have half : d.q.limit / 2 ≤ d.q.len := (Nat.div_le_self _ 2).trans finished.1
      refine ⟨?_, by simp⟩
      exact flowing.slept runs out rfl (by simp) fun _ => ⟨⟨sofar, rfl⟩, rfl, finished.2, half⟩
    case isFalse awake =>
      have back := (flowing.spared runs out (by simpa using awake)).interrupted pid
      exact ⟨(back.released out).fail pid failnote, by simp⟩
  case isFalse => exact sync.passed runs out

theorem queueBlock (b : Bytes) (sofar : Nat) (failnote : Option String) :
    Goes id pid (d.queueBlock id pid b sofar failnote noKick) := by
  unfold Qio.queueBlock
  split
  case isTrue => exact ⟨(sync.released out).fail pid failnote, by simp⟩
  split
  case isTrue => exact sync.passed runs out
  dsimp only
  split
  case isTrue starving =>
    rcases sync.wake .rd with ⟨woken, nobody⟩
    have still : (d.wakeup id .rd).2.procs.board.Runs pid :=
      Board.Runs.rouses (Procs.steps_wakeup _) runs
    have fed := woken.supplied (q := (d.q.push b).setStarve false) out nobody
      (fun side => by cases side <;> rfl) ⟨rfl, rfl⟩ (d.queued ++ [(d.serial pid, b)])
    split
    case isTrue =>
      have board : ((d.wakeup id .rd).2.procs.setlabel pid).board =
          (d.wakeup id .rd).2.procs.board :=
        Procs.board_quiet Procs.quiet_setlabel
      have labelled := fed.rises (.of_board board)
      refine ⟨labelled.leave ?_ out rfl fun side => ?_, by simp⟩
      · exact board ▸ still.alive
      · exact board ▸ still.not_asleep _
    case isFalse => exact fed.flowctl still out sofar failnote
  case isFalse sated =>
    have nobody (p : Pid) : ¬d.procs.board.Asleep (id.rendez .rd) p := by
      intro asleep
      exact sated (sync.starved p asleep).2.1
    have fed := sync.supplied (q := d.q.push b) out nobody (fun side => by cases side <;> rfl)
      ⟨rfl, rfl⟩ (d.queued ++ [(d.serial pid, b)])
    exact fed.flowctl runs out sofar failnote

end Sync

theorem qbwrite {resumed : Option Bool} (sync : d.Sync id (resumed.map fun _ => (pid, .wr)))
    (runs : d.procs.board.Runs pid) (out : d.mid pid = none) (data : Bytes) (sofar : Nat)
    (failnote : Option String) :
    Goes id pid (d.qbwrite id pid data sofar resumed failnote noKick) := by
  match resumed with
  | some true => exact Sync.flowctl sync runs out sofar failnote
  | some false => exact Sync.queueBlock sync runs out _ sofar failnote
  | none =>
      simp only [Qio.qbwrite]
      split
      case isTrue got =>
        exact (Sync.acquired sync got).queueBlock (runs_acquired runs got) out _ sofar failnote
      case isFalse busy => exact ⟨Sync.waited sync runs out rfl (by simpa using busy), by simp⟩

theorem writeLoop (resumed : Option Bool) {data : Bytes} {sofar : Nat}
    (sync : d.Sync id (resumed.map fun _ => (pid, .wr))) (runs : d.procs.board.Runs pid)
    (out : d.mid pid = none) (failnote : Option String) :
    (d.writeLoop id pid data sofar resumed failnote noKick).2.Sync id none := by
  fun_induction Qio.writeLoop d id pid data sofar resumed failnote noKick with
  | case1 d sofar resumed went left => exact (sync.qbwrite runs out data sofar failnote).sync
  | case2 d sofar resumed went err failed =>
      exact (sync.qbwrite runs out data sofar failnote).sync
  | case3 d sofar resumed n went passed last =>
      exact (sync.qbwrite runs out data sofar failnote).sync
  | case4 d sofar resumed n went passed more ih =>
      have goes := sync.qbwrite runs out data sofar failnote
      exact ih goes.sync (goes.runs passed).1 (goes.runs passed).2

theorem qwrite (sync : d.Sync id none) (runs : d.procs.board.Runs pid)
    (back : ∀ place, d.mid pid = some place → place.side = .wr) (data : Bytes)
    (failnote : Option String) : (d.qwrite id pid data failnote noKick).2.Sync id none := by
  unfold Qio.qwrite
  split
  case h_1 sofar there =>
    have inside := sync.resume runs there
    exact writeLoop (some false) inside runs (by simp) failnote
  case h_2 sofar slept there =>
    have inside := sync.resume runs there
    have board := board_interrupted (d.setMid pid none).procs pid
    dsimp only
    cases slept with
    | false => exact writeLoop (some true) inside runs (by simp) failnote
    | true =>
        simp only [if_true]
        split
        · exact ((inside.interrupted pid).released (by simp [Qio.interrupted])).fail pid failnote
        · exact writeLoop (some true) (inside.interrupted pid) (board ▸ runs)
            (by simp [Qio.interrupted]) failnote
  case h_3 place _ _ =>
    rcases there : d.mid pid with _ | place
    · have same : d.setMid pid none = d := by
        simp [setMid, ← there]
      rw [same]
      exact writeLoop none sync runs there failnote
    · have side := back place there
      cases place <;> simp_all [At.side]

end Sync

end Qio

end Ipnx
