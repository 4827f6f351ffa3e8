import Ipnx.Qio.Order

/-!
# A closed queue

No read or write changes whether a queue is closed. On a closed one a read takes what is queued
and then answers end of file, and never waits for more; a write queues nothing and fails, unless
its last block was queued before.
-/

namespace Ipnx

namespace Qio

variable {id : Qid3} {d : Qio} {pid : Pid} {side : Side}

/-- What of a queue its reads and writes leave as it is. The ends of file are counted once it is
closed. -/
structure Face where
  closed : Bool
  err : String
  coalesce : Bool
  noblock : Bool
  limit : Nat
  inilim : Nat
  early : UInt32

def Face.of (q : Queue) : Face :=
  ⟨q.closed, q.err, q.coalesce, q.noblock, q.limit, q.inilim, if q.closed then 0 else q.eof⟩

def face (d : Qio) : Face := .of d.q

@[simp]
theorem face_setMid (place : Option At) : (d.setMid pid place).face = d.face := rfl

@[simp]
theorem face_lock : (d.lock side pid).2.face = d.face := by
  cases side <;> rfl

@[simp]
theorem face_unlock : (d.unlock side pid).face = d.face := by
  cases side <;> rfl

@[simp]
theorem face_fail (failnote : Option String) : (d.fail pid failnote).face = d.face := by
  cases failnote <;> rfl

@[simp]
theorem face_drained : (d.drained id noKick).face = d.face := by
  unfold drained
  split <;> rfl

theorem face_serve (n : Nat) : (d.serve id pid n noKick).2.face = d.face := by
  unfold serve
  split
  · split
    case isTrue closed =>
      rw [face_unlock]
      simp [face, Face.of, Queue.countEof, closed]
    case isFalse =>
      dsimp only
      split
      · rfl
      · rw [face_unlock]
        rfl
  · rw [face_unlock, face_drained]
    rfl

theorem face_again (plain : d.q.coalesce = false) (n : Nat) :
    (d.again id pid n noKick).2.face = d.face := by
  rw [again_plain plain]
  exact face_serve n

theorem face_qread (plain : d.q.coalesce = false) (n : Nat) :
    (d.qread id pid n noKick).2.face = d.face := by
  unfold qread
  split
  · dsimp only
    split
    · rw [face_unlock]
      rfl
    · exact face_again (d := ((d.setMid pid none).interrupted pid).2) plain n
  · exact face_again (d := d.setMid pid none) plain n
  · have locked : (d.lock .rd pid).2.q.coalesce = false := by simpa [lock] using plain
    dsimp only
    split
    · rw [face_again locked, face_lock]
    · rw [face_setMid, face_lock]

theorem face_flowctl (sofar : Nat) (failnote : Option String) :
    (d.flowctl id pid sofar failnote).2.face = d.face := by
  unfold flowctl
  split
  · dsimp only
    split
    · rfl
    · rw [face_fail, face_unlock]
      rfl
  · exact face_unlock

theorem face_queueBlock (b : Bytes) (sofar : Nat) (failnote : Option String) :
    (d.queueBlock id pid b sofar failnote noKick).2.face = d.face := by
  unfold queueBlock
  split
  · rw [face_fail, face_unlock]
  split
  · exact face_unlock
  dsimp only
  split
  · split
    · rfl
    · exact face_flowctl _ _
  · exact face_flowctl _ _

theorem face_qbwrite (data : Bytes) (sofar : Nat) (resumed : Option Bool)
    (failnote : Option String) :
    (d.qbwrite id pid data sofar resumed failnote noKick).2.face = d.face := by
  match resumed with
  | some true => exact face_flowctl _ _
  | some false => exact face_queueBlock _ _ _
  | none =>
      simp only [qbwrite]
      split
      · rw [face_queueBlock, face_lock]
      · rw [face_setMid, face_lock]

theorem face_writeLoop (data : Bytes) (sofar : Nat) (resumed : Option Bool)
    (failnote : Option String) :
    (d.writeLoop id pid data sofar resumed failnote noKick).2.face = d.face := by
  fun_induction writeLoop d id pid data sofar resumed failnote noKick with
  | case1 d sofar resumed went left => exact face_qbwrite _ _ _ _
  | case2 d sofar resumed went err failed => exact face_qbwrite _ _ _ _
  | case3 d sofar resumed n went passed last => exact face_qbwrite _ _ _ _
  | case4 d sofar resumed n went passed more ih => exact ih.trans (face_qbwrite _ _ _ _)

theorem face_qwrite (data : Bytes) (failnote : Option String) :
    (d.qwrite id pid data failnote noKick).2.face = d.face := by
  unfold qwrite
  split
  · rw [face_writeLoop, face_setMid]
  · rename_i sofar slept _
    dsimp only
    cases slept with
    | false => exact face_writeLoop (d := d.setMid pid none) _ _ _ _
    | true =>
        simp only [if_true]
        split
        · rw [face_fail, face_unlock]
          rfl
        · exact face_writeLoop (d := ((d.setMid pid none).interrupted pid).2) _ _ _ _
  · rw [face_writeLoop, face_setMid]

theorem grows_writeLoop {resumed : Option Bool} {data : Bytes} {sofar : Nat}
    (plain : d.q.noblock = false) (out : d.mid pid = none) (failnote : Option String) :
    Grows pid d.content (d.writeLoop id pid data sofar resumed failnote noKick).2.content := by
  fun_induction writeLoop d id pid data sofar resumed failnote noKick with
  | case1 d sofar resumed went left => exact (turned_qbwrite plain out data sofar failnote).grows
  | case2 d sofar resumed went err failed =>
      exact (turned_qbwrite plain out data sofar failnote).grows
  | case3 d sofar resumed n went passed last =>
      exact (turned_qbwrite plain out data sofar failnote).grows
  | case4 d sofar resumed n went passed more ih =>
      have turned : Turned pid data sofar resumed d (went.1, went.2) :=
        turned_qbwrite plain out data sofar failnote
      have finished : went.2.mid pid = none := by
        rw [show went.1 = .passed from passed] at turned
        cases turned with
        | passed finished _ => exact finished
      exact turned.grows.trans (ih (turned.grows.frame.1.trans plain) finished)

theorem grows_qwrite {data : Bytes} (plain : d.q.noblock = false) (failnote : Option String) :
    Grows pid d.content (d.qwrite id pid data failnote noKick).2.content := by
  unfold qwrite
  split
  · exact grows_writeLoop (d := d.setMid pid none) plain (setMid_self none) failnote
  · rename_i sofar slept _
    dsimp only
    cases slept with
    | false => exact grows_writeLoop (d := d.setMid pid none) plain (setMid_self none) failnote
    | true =>
        simp only [if_true]
        split
        · have kept : ((((d.setMid pid none).interrupted pid).2.unlock .wr pid).fail pid
              failnote).content = d.content := by simp
          exact kept ▸ .refl
        · exact grows_writeLoop (d := ((d.setMid pid none).interrupted pid).2) plain
            (setMid_self none) failnote
  · exact grows_writeLoop (d := d.setMid pid none) plain (setMid_self none) failnote

/-- What a read of a closed queue does: it waits for the lock, is interrupted, takes of the first
block, or finds the end. -/
inductive Drained (pid : Pid) (n : Nat) (d : Qio) (r : Except String Bytes × Qio) : Prop
  | waits (place : r.2.mid pid = some (.read false))
  | interrupted (answer : r.1 = .error eintr)
  | data {next : Bytes} {alloc : Nat} {rest : List (Bytes × Nat)}
      (first : d.q.blocks = (next, alloc) :: rest) (answer : r.1 = .ok (next.take n))
  | eof (empty : d.q.blocks = [])
      (answer : r.1 = if 3 < d.q.eof + 1 ∨ d.q.err ≠ ehungup then .error d.q.err else .ok [])
      (counted : r.2.q.eof = d.q.eof + 1)

theorem drained_serve (closed : d.q.closed = true) (plain : d.q.coalesce = false) (n : Nat) :
    Drained pid n d (d.serve id pid n noKick) := by
  unfold serve
  rcases first : d.q.blocks with _ | ⟨⟨next, alloc⟩, rest⟩
  · rw [List.isEmpty_nil, if_pos rfl, if_pos closed]
    refine .eof first ?_ ?_
    · by_cases late : 3 < d.q.eof + 1 <;> simp [Queue.countEof, late]
    · rfl
  · rw [List.isEmpty_cons, if_neg Bool.false_ne_true]
    refine .data first ?_
    by_cases long : n < next.length
    · simp [Queue.take, Queue.takeBlocks, first, long]
    · simp [Queue.take, Queue.takeBlocks, first, long, plain,
        List.take_of_length_le (Nat.le_of_not_lt long)]

theorem Drained.of_q {d' : Qio} {n : Nat} {r : Except String Bytes × Qio}
    (drained : Drained pid n d' r) (blocks : d'.q.blocks = d.q.blocks) (eof : d'.q.eof = d.q.eof)
    (err : d'.q.err = d.q.err) : Drained pid n d r := by
  cases drained with
  | waits place => exact .waits place
  | interrupted answer => exact .interrupted answer
  | data first answer => exact .data (blocks ▸ first) answer
  | eof empty answer counted =>
      exact .eof (blocks ▸ empty) (by rw [answer, eof, err]) (by rw [counted, eof])

theorem drained_qread (closed : d.q.closed = true) (plain : d.q.coalesce = false) (n : Nat) :
    Drained pid n d (d.qread id pid n noKick) := by
  unfold qread
  split
  · dsimp only
    split
    · exact .interrupted rfl
    · rw [again_plain (d := ((d.setMid pid none).interrupted pid).2) plain]
      exact (drained_serve (d := ((d.setMid pid none).interrupted pid).2) closed plain n).of_q
        rfl rfl rfl
  · rw [again_plain (d := d.setMid pid none) plain]
    exact (drained_serve (d := d.setMid pid none) closed plain n).of_q rfl rfl rfl
  · have locked : (d.lock .rd pid).2.q.coalesce = false := by simpa [lock] using plain
    dsimp only
    split
    · rw [again_plain locked]
      exact (drained_serve (d := (d.lock .rd pid).2) (by simpa [lock] using closed) locked
        n).of_q (by simp [lock]) rfl rfl
    · exact .waits (setMid_self _)

/-- What a write to a closed queue does: it fails, waits for the lock, or had its last block
queued before. -/
inductive Refused (pid : Pid) (data : Bytes) (d : Qio) (r : Except String Nat × Qio) : Prop
  | failed {err : String} (answer : r.1 = .error err)
  | waits {sofar : Nat} (place : r.2.mid pid = some (.wlock sofar))
  | queued {sofar : Nat} {slept : Bool} (was : d.mid pid = some (.flow sofar slept))
      (last : data.length ≤ sofar + (chunk data sofar).length)

variable (id pid) in
theorem refused_qbwrite (closed : d.q.closed = true) (data : Bytes) (sofar : Nat)
    (resumed : Option Bool) (failnote : Option String) :
    let went := d.qbwrite id pid data sofar resumed failnote noKick
    went.2.content = d.content ∧
      ((∃ err, went.1 = .failed err) ∨
        went.1 = .left ∧ went.2.mid pid = some (.wlock sofar) ∧ resumed = none ∨
        went.1 = .passed ∧ resumed = some true) := by
  have refuse (d : Qio) (closed : d.q.closed = true) (b : Bytes) :
      d.queueBlock id pid b sofar failnote noKick =
        (.failed d.q.err, (d.unlock .wr pid).fail pid failnote) := by
    rw [queueBlock, if_pos closed]
  cases resumed with
  | some slept =>
      cases slept with
      | true =>
          simp only [qbwrite, flowctl, closed, Bool.or_true, Bool.not_true, Bool.false_eq_true,
            if_false]
          exact ⟨content_unlock, Or.inr (Or.inr ⟨trivial, trivial⟩)⟩
      | false =>
          simp only [qbwrite, refuse d closed]
          exact ⟨by rw [content_fail, content_unlock], Or.inl ⟨_, rfl⟩⟩
  | none =>
      simp only [qbwrite]
      split
      · rw [refuse _ (by simpa [lock] using closed)]
        exact ⟨by rw [content_fail, content_unlock, content_lock], Or.inl ⟨_, rfl⟩⟩
      · exact ⟨by rw [content_setMid, content_lock],
          Or.inr (Or.inl ⟨rfl, setMid_self _, trivial⟩)⟩

variable (id pid) in
theorem refused_writeLoop (closed : d.q.closed = true) (data : Bytes) (sofar : Nat)
    (resumed : Option Bool) (failnote : Option String) :
    let r := d.writeLoop id pid data sofar resumed failnote noKick
    r.2.content = d.content ∧
      ((∃ err, r.1 = .error err) ∨ (∃ sofar, r.2.mid pid = some (.wlock sofar)) ∨
        resumed = some true ∧ data.length ≤ sofar + (chunk data sofar).length) := by
  have turn {sofar : Nat} {resumed : Option Bool} {d : Qio} (closed : d.q.closed = true) :=
    refused_qbwrite id pid closed data sofar resumed failnote
  fun_induction writeLoop d id pid data sofar resumed failnote noKick with
  | case1 d sofar resumed went left =>
      rcases turn closed with ⟨same, ⟨err, failed⟩ | ⟨_, place, _⟩ | ⟨passed, _⟩⟩
      · exact absurd (left.symm.trans failed) (by simp)
      · exact ⟨same, Or.inr (Or.inl ⟨sofar, place⟩)⟩
      · exact absurd (left.symm.trans passed) (by simp)
  | case2 d sofar resumed went err failed =>
      exact ⟨(turn closed).1, Or.inl ⟨err, rfl⟩⟩
  | case3 d sofar resumed n went passed last =>
      rcases turn closed with ⟨same, ⟨err, failed⟩ | ⟨left, _⟩ | ⟨_, came⟩⟩
      · exact absurd (passed.symm.trans failed) (by simp)
      · exact absurd (passed.symm.trans left) (by simp)
      · exact ⟨same, Or.inr (Or.inr ⟨came, last⟩)⟩
  | case4 d sofar resumed n went passed more ih =>
      have still : went.2.q.closed = true := by
        have face : went.2.face = d.face := face_qbwrite data sofar resumed failnote
        exact (congrArg Face.closed face).trans closed
      rcases ih still with ⟨same, rest⟩
      refine ⟨same.trans (turn closed).1, ?_⟩
      rcases rest with failed | waits | ⟨came, _⟩
      · exact Or.inl failed
      · exact Or.inr (Or.inl waits)
      · cases came

variable (id pid) in
theorem refused_qwrite (closed : d.q.closed = true) (data : Bytes) (failnote : Option String) :
    (d.qwrite id pid data failnote noKick).2.content = d.content ∧
      Refused pid data d (d.qwrite id pid data failnote noKick) := by
  unfold qwrite
  split
  · rename_i sofar there
    rcases refused_writeLoop id pid (d := d.setMid pid none) closed data sofar (some false)
      failnote with
      ⟨same, ⟨err, failed⟩ | ⟨_, place⟩ | ⟨came, _⟩⟩
    · exact ⟨same, .failed failed⟩
    · exact ⟨same, .waits place⟩
    · cases came
  · rename_i sofar slept there
    have flows (d' : Qio) (still : d'.q.closed = true) (kept : d'.content = d.content) :
        (d'.writeLoop id pid data sofar (some true) failnote noKick).2.content = d.content ∧
          Refused pid data d (d'.writeLoop id pid data sofar (some true) failnote noKick) := by
      rcases refused_writeLoop id pid (d := d') still data sofar (some true) failnote with
        ⟨same, ⟨err, failed⟩ | ⟨_, place⟩ | ⟨_, last⟩⟩
      · exact ⟨same.trans kept, .failed failed⟩
      · exact ⟨same.trans kept, .waits place⟩
      · exact ⟨same.trans kept, .queued there last⟩
    dsimp only
    cases slept with
    | false => exact flows (d.setMid pid none) closed rfl
    | true =>
        simp only [if_true]
        split
        · exact ⟨by simp, .failed rfl⟩
        · exact flows ((d.setMid pid none).interrupted pid).2 closed rfl
  · rcases refused_writeLoop id pid (d := d.setMid pid none) closed data 0 none failnote with
      ⟨same, ⟨err, failed⟩ | ⟨_, place⟩ | ⟨came, _⟩⟩
    · exact ⟨same, .failed failed⟩
    · exact ⟨same, .waits place⟩
    · cases came

end Qio

end Ipnx
