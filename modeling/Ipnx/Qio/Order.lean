import Ipnx.Lib.Fifo
import Ipnx.Qio.Discipline

/-!
# First in, first out

Whatever the interleaving, the bytes the reads are handed are those the writes queued, in
the order they were queued, and each read's are from one block. The blocks of a write are its
bytes in order, and all of them when it answers how many they are.

`q.len` counts what the blocks take of the limit as they were queued, header room and
rounding included, not the bytes in them.
-/

namespace Ipnx

open List

namespace Qio

variable {id : Qid3} {d : Qio} {pid : Pid} {side : Side}

/-- What of the queue the order of the bytes depends on. -/
structure Content where
  blocks : List (Bytes × Nat)
  len : Nat
  coalesce : Bool
  noblock : Bool
  queued : List (Nat × Bytes)
  serial : Pid → Nat

def Content.push (c : Content) (pid : Pid) (b : Bytes) : Content :=
  { c with
    blocks := c.blocks ++ [(b, balloc b.length)]
    len := c.len + balloc b.length
    queued := c.queued ++ [(c.serial pid, b)] }

def content (d : Qio) : Content :=
  ⟨d.q.blocks, d.q.len, d.q.coalesce, d.q.noblock, d.queued, d.serial⟩

@[simp]
theorem content_setMid (place : Option At) : (d.setMid pid place).content = d.content := rfl

@[simp]
theorem content_lock : (d.lock side pid).2.content = d.content := by
  simp [content, lock]

@[simp]
theorem content_unlock : (d.unlock side pid).content = d.content := by
  simp [content, unlock]

@[simp]
theorem content_sleep : (d.sleep id side pid).2.content = d.content := rfl

@[simp]
theorem content_wakeup : (d.wakeup id side).2.content = d.content := rfl

@[simp]
theorem content_interrupted : (d.interrupted pid).2.content = d.content := rfl

@[simp]
theorem content_fail (failnote : Option String) : (d.fail pid failnote).content = d.content := by
  cases failnote <;> rfl

theorem content_drained : (d.drained id noKick).content = d.content := by
  unfold drained
  split <;> rfl

/-- A read of `n` took nothing, or ended with the front of the first block or all of it. -/
inductive Took (pid : Pid) (n : Nat) (d : Qio) (r : Except String Bytes × Qio) : Prop
  | nothing (same : r.2.content = d.content) (empty : ∀ b, r.1 = .ok b → b = [])
  | part {next : Bytes} {alloc : Nat} {rest : List (Bytes × Nat)} (finished : r.2.mid pid = none)
      (first : d.q.blocks = (next, alloc) :: rest) (answer : r.1 = .ok (next.take n))
      (left : r.2.content = { d.content with blocks := (next.drop n, alloc) :: rest })
  | whole {next : Bytes} {alloc : Nat} {rest : List (Bytes × Nat)} (finished : r.2.mid pid = none)
      (first : d.q.blocks = (next, alloc) :: rest) (answer : r.1 = .ok next)
      (left : r.2.content = { d.content with blocks := rest, len := d.q.len - alloc })

theorem Took.of_content {d' : Qio} {n : Nat} {r : Except String Bytes × Qio}
    (took : Took pid n d' r) (same : d'.content = d.content) : Took pid n d r := by
  have blocks : d'.q.blocks = d.q.blocks := congrArg Content.blocks same
  have len : d'.q.len = d.q.len := congrArg Content.len same
  cases took with
  | nothing kept empty => exact .nothing (kept.trans same) empty
  | part finished first answer left =>
      exact .part finished (blocks ▸ first) answer (by rw [left, same])
  | whole finished first answer left =>
      exact .whole finished (blocks ▸ first) answer (by rw [left, same, len])

theorem took_serve (plain : d.q.coalesce = false) (out : d.mid pid = none) (n : Nat) :
    Took pid n d (d.serve id pid n noKick) := by
  unfold serve
  split
  · split
    · refine .nothing ?_ fun b answer => ?_
      · rw [content_unlock]
        rfl
      · dsimp only at answer
        split at answer
        · simp at answer
        · simpa using answer.symm
    · dsimp only
      split
      · exact .nothing rfl (by simp)
      · refine .nothing ?_ (by simp)
        rw [content_unlock]
        rfl
  case isFalse some =>
    rcases first : d.q.blocks with _ | ⟨⟨next, alloc⟩, rest⟩
    · simp [first] at some
    have finished (q : Queue) : (({ d with q := q }.drained id noKick).unlock .rd pid).mid pid =
        none := by
      have same := mid_drained (d := { d with q := q }) id noKick
      simp [unlock, same, out]
    have left (q : Queue) : (({ d with q := q }.drained id noKick).unlock .rd pid).content =
        { d with q := q }.content := by
      rw [content_unlock, content_drained]
    by_cases long : n < next.length
    · refine .part (finished _) first ?_ ?_
      · simp [Queue.take, Queue.takeBlocks, first, long]
      · rw [left]
        simp [content, Queue.take, Queue.takeBlocks, first, long]
    · refine .whole (finished _) first ?_ ?_
      · simp [Queue.take, Queue.takeBlocks, first, long, plain]
      · rw [left]
        simp [content, Queue.take, Queue.takeBlocks, first, long, plain]

theorem took_again (plain : d.q.coalesce = false) (out : d.mid pid = none) (n : Nat) :
    Took pid n d (d.again id pid n noKick) := by
  rw [again_plain plain]
  exact took_serve plain out n

theorem took_qread (plain : d.q.coalesce = false) (n : Nat) :
    Took pid n d (d.qread id pid n noKick) := by
  unfold qread
  split
  case h_1 =>
    dsimp only
    split
    · exact .nothing (by simp) (by simp)
    · exact (took_again (d := ((d.setMid pid none).interrupted pid).2) plain (setMid_self none)
        n).of_content rfl
  case h_2 =>
    exact (took_again (d := d.setMid pid none) plain (setMid_self none) n).of_content rfl
  case h_3 out =>
    have locked : (d.lock .rd pid).2.q.coalesce = false := by simpa [lock] using plain
    dsimp only
    split
    · exact (took_again locked out n).of_content content_lock
    · exact .nothing (by simp) (by simp)

/-- The bytes queued by a write, in the order they were queued. -/
def queuedBy (queued : List (Nat × Bytes)) (k : Nat) : Bytes :=
  ((queued.filter fun b => b.1 == k).map Prod.snd).flatten

/-- The next block of the write is on the queue, or it was before the call came back. -/
def withBlock (d : Qio) (pid : Pid) (data : Bytes) (sofar : Nat) : Option Bool → Qio
  | some true => d
  | _ => d.push pid (chunk data sofar)

/-- One turn of `qwrite`'s loop left, failed or passed with the block queued or not. -/
inductive Turned (pid : Pid) (data : Bytes) (sofar : Nat) (resumed : Option Bool) (d : Qio) :
    Went × Qio → Prop
  | waits {d' : Qio} (fresh : resumed = none) (place : d'.mid pid = some (.wlock sofar))
      (same : d'.content = d.content) : Turned pid data sofar resumed d (.left, d')
  | flows {d' : Qio} {slept : Bool} (place : d'.mid pid = some (.flow sofar slept))
      (same : d'.content = (d.withBlock pid data sofar resumed).content) :
      Turned pid data sofar resumed d (.left, d')
  | failed {d' : Qio} {err : String} (finished : d'.mid pid = none)
      (same : d'.content = d.content ∨
        d'.content = (d.withBlock pid data sofar resumed).content) :
      Turned pid data sofar resumed d (.failed err, d')
  | passed {d' : Qio} (finished : d'.mid pid = none)
      (same : d'.content = (d.withBlock pid data sofar resumed).content) :
      Turned pid data sofar resumed d (.passed, d')

theorem turned_flowctl {data : Bytes} {sofar : Nat} (out : d.mid pid = none)
    (failnote : Option String) :
    Turned pid data sofar (some true) d (d.flowctl id pid sofar failnote) := by
  unfold flowctl
  split
  · dsimp only
    split
    · exact .flows (setMid_self _) rfl
    · refine .failed ?_ (.inl ?_)
      · rw [mid_fail]
        exact out
      · rw [content_fail, content_unlock]
        rfl
  · exact .passed out (by rw [content_unlock]; rfl)

theorem content_push (b : Bytes) : (d.push pid b).content = d.content.push pid b := rfl

theorem content_withBlock {d' : Qio} (same : d'.content = d.content) (pid : Pid) (data : Bytes)
    (sofar : Nat) (resumed : Option Bool) :
    (d'.withBlock pid data sofar resumed).content =
    (d.withBlock pid data sofar resumed).content := by
  unfold withBlock
  split
  · exact same
  · rw [content_push, content_push, same]

theorem Turned.of_content {data : Bytes} {sofar : Nat} {resumed : Option Bool} {d' : Qio}
    {went : Went × Qio} (turned : Turned pid data sofar resumed d' went)
    (same : d'.content = d.content) : Turned pid data sofar resumed d went := by
  have block := content_withBlock same pid data sofar resumed
  cases turned with
  | waits fresh place kept => exact .waits fresh place (kept.trans same)
  | flows place kept => exact .flows place (kept.trans block)
  | failed finished kept =>
      exact .failed finished (kept.imp (·.trans same) (·.trans block))
  | passed finished kept => exact .passed finished (kept.trans block)

theorem Turned.of_queued {data : Bytes} {sofar : Nat} {resumed : Option Bool} {d' : Qio}
    {went : Went × Qio} (turned : Turned pid data sofar (some true) d' went)
    (queued : d'.content = (d.withBlock pid data sofar resumed).content) :
    Turned pid data sofar resumed d went := by
  cases turned with
  | waits fresh => simp at fresh
  | flows place same => exact .flows place (same.trans queued)
  | failed finished same => exact .failed finished (.inr ((same.elim id id).trans queued))
  | passed finished same => exact .passed finished (same.trans queued)

theorem turned_queueBlock {data : Bytes} {sofar : Nat} {resumed : Option Bool}
    (unqueued : resumed ≠ some true) (plain : d.q.noblock = false) (out : d.mid pid = none)
    (failnote : Option String) :
    Turned pid data sofar resumed d
      (d.queueBlock id pid (chunk data sofar) sofar failnote noKick) := by
  have queued : (d.push pid (chunk data sofar)).content =
      (d.withBlock pid data sofar resumed).content := by
    match resumed with
    | some true => exact absurd rfl unqueued
    | some false => rfl
    | none => rfl
  unfold queueBlock
  split
  · refine .failed ?_ (.inl ?_)
    · rw [mid_fail]
      exact out
    · rw [content_fail, content_unlock]
  split
  case isTrue finished => simp [plain] at finished
  dsimp only
  split
  · split
    · exact .flows (setMid_self _) queued
    · refine Turned.of_queued (turned_flowctl ?_ failnote) queued
      exact out
  · refine Turned.of_queued (turned_flowctl ?_ failnote) queued
    exact out

theorem turned_qbwrite {resumed : Option Bool} (plain : d.q.noblock = false)
    (out : d.mid pid = none) (data : Bytes) (sofar : Nat) (failnote : Option String) :
    Turned pid data sofar resumed d
      (d.qbwrite id pid data sofar resumed failnote noKick) := by
  match resumed with
  | some true => exact turned_flowctl out failnote
  | some false => exact turned_queueBlock (by simp) plain out failnote
  | none =>
      simp only [qbwrite]
      split
      · have locked : (d.lock .wr pid).2.q.noblock = false := by simpa [lock] using plain
        have turned : Turned pid data sofar none (d.lock .wr pid).2
            ((d.lock .wr pid).2.queueBlock id pid (chunk data sofar) sofar failnote noKick) :=
          turned_queueBlock (by simp) locked out failnote
        exact turned.of_content content_lock
      · exact .waits rfl (setMid_self _) (by simp)

/-- One content comes from another by blocks of the process's write. -/
def Grows (pid : Pid) : Content → Content → Prop :=
  Relation.ReflTransGen fun c c' => ∃ b, c' = c.push pid b

theorem grows_withBlock (pid : Pid) (data : Bytes) (sofar : Nat) (resumed : Option Bool) :
    Grows pid d.content (d.withBlock pid data sofar resumed).content := by
  unfold withBlock
  split
  · exact .refl
  · exact .single ⟨_, content_push _⟩

theorem Turned.grows {data : Bytes} {sofar : Nat} {resumed : Option Bool} {went : Went × Qio}
    (turned : Turned pid data sofar resumed d went) : Grows pid d.content went.2.content := by
  have block := grows_withBlock (d := d) pid data sofar resumed
  cases turned with
  | waits fresh place same => exact same ▸ .refl
  | flows place same => exact same ▸ block
  | failed finished same =>
      rcases same with same | same
      · exact same ▸ .refl
      · exact same ▸ block
  | passed finished same => exact same ▸ block

/-- How much of a write is queued when the loop comes to `sofar`. -/
def reached (data : Bytes) (sofar : Nat) (resumed : Option Bool) : Nat :=
  if resumed = some true then sofar + (chunk data sofar).length else sofar

theorem take_chunk (data : Bytes) (sofar : Nat) :
    data.take sofar ++ chunk data sofar = data.take (sofar + (chunk data sofar).length) := by
  rw [take_add, length_chunk, chunk]
  congr 1
  rw [← length_drop, take_eq_take_min, min_comm]

theorem queuedBy_push {c : Content} (pid : Pid) (b : Bytes) (k : Nat) :
    queuedBy (c.push pid b).queued k =
      queuedBy c.queued k ++ if c.serial pid = k then b else [] := by
  by_cases mine : c.serial pid = k <;> simp [Content.push, queuedBy, filter_append, mine]

/-- How far a write is, by where its process is and what it was answered. -/
structure Wrote (pid : Pid) (data : Bytes) (k : Nat) (r : Except String Nat × Qio) : Prop where
  waits : ∀ sofar, r.2.mid pid = some (.wlock sofar) → queuedBy r.2.queued k = data.take sofar
  flows : ∀ sofar slept, r.2.mid pid = some (.flow sofar slept) →
    queuedBy r.2.queued k = data.take (sofar + (chunk data sofar).length)
  part : ∃ n, queuedBy r.2.queued k = data.take n
  whole : r.2.mid pid = none → ∀ n, r.1 = .ok n →
    n = data.length ∧ queuedBy r.2.queued k = data

theorem Grows.frame {c c' : Content} (grows : Grows pid c c') :
    c'.noblock = c.noblock ∧ c'.serial = c.serial := by
  induction grows with
  | refl => exact ⟨rfl, rfl⟩
  | tail _ pushed ih =>
      rcases pushed with ⟨b, rfl⟩
      exact ih

theorem queuedBy_withBlock {data : Bytes} {sofar : Nat} {resumed : Option Bool}
    (prior : queuedBy d.queued (d.serial pid) = data.take (reached data sofar resumed)) :
    queuedBy (d.withBlock pid data sofar resumed).queued (d.serial pid) =
      data.take (sofar + (chunk data sofar).length) := by
  have pushed := queuedBy_push (c := d.content) pid (chunk data sofar) (d.serial pid)
  match resumed with
  | some true => simpa [reached, withBlock] using prior
  | some false =>
      refine pushed.trans ?_
      simp only [reached] at prior
      simpa [content, prior] using take_chunk data sofar
  | none =>
      refine pushed.trans ?_
      simp only [reached] at prior
      simpa [content, prior] using take_chunk data sofar

section Turned

variable {resumed : Option Bool} {data : Bytes} {sofar : Nat} {d' : Qio}
  (prior : queuedBy d.queued (d.serial pid) = data.take (reached data sofar resumed))

include prior

theorem Turned.left (turned : Turned pid data sofar resumed d (.left, d')) :
    Wrote pid data (d.serial pid) (.ok 0, d') := by
  have block := queuedBy_withBlock prior
  cases turned with
  | waits fresh place same =>
      have kept : d'.queued = d.queued := congrArg Content.queued same
      have far : queuedBy d'.queued (d.serial pid) = data.take sofar := by
        simpa [kept, fresh, reached] using prior
      refine ⟨fun sofar' there => ?_, by simp [place], ⟨sofar, far⟩, by simp [place]⟩
      obtain rfl : sofar = sofar' := by simpa using place.symm.trans there
      exact far
  | flows place same =>
      have kept := congrArg Content.queued same
      have far : queuedBy d'.queued (d.serial pid) =
          data.take (sofar + (chunk data sofar).length) := by
        rw [← block]
        exact congrArg (queuedBy · _) kept
      refine ⟨by simp [place], fun sofar' slept there => ?_, ⟨_, far⟩, by simp [place]⟩
      obtain ⟨rfl, -⟩ : sofar = sofar' ∧ _ := by simpa using place.symm.trans there
      exact far

theorem Turned.failed_part {err : String} (turned : Turned pid data sofar resumed d
    (.failed err, d')) :
    Wrote pid data (d.serial pid) (.error err, d') := by
  have block := queuedBy_withBlock prior
  cases turned with
  | failed finished same =>
      refine ⟨by simp [finished], by simp [finished], ?_, by simp⟩
      rcases same with same | same
      · have kept := congrArg (queuedBy ·.queued (d.serial pid)) same
        exact ⟨_, kept.trans prior⟩
      · have kept := congrArg (queuedBy ·.queued (d.serial pid)) same
        exact ⟨_, kept.trans block⟩

theorem Turned.passed_prior (turned : Turned pid data sofar resumed d (.passed, d')) :
    d'.mid pid = none ∧
      queuedBy d'.queued (d.serial pid) = data.take (sofar + (chunk data sofar).length) := by
  have block := queuedBy_withBlock prior
  cases turned with
  | passed finished same =>
      have kept := congrArg (queuedBy ·.queued (d.serial pid)) same
      exact ⟨finished, kept.trans block⟩

end Turned

theorem wrote_writeLoop {resumed : Option Bool} {data : Bytes} {sofar : Nat}
    (plain : d.q.noblock = false) (out : d.mid pid = none)
    (prior : queuedBy d.queued (d.serial pid) = data.take (reached data sofar resumed))
    (failnote : Option String) :
    Wrote pid data (d.serial pid) (d.writeLoop id pid data sofar resumed failnote noKick) ∧
      Grows pid d.content (d.writeLoop id pid data sofar resumed failnote noKick).2.content := by
  fun_induction writeLoop d id pid data sofar resumed failnote noKick with
  | case1 d sofar resumed went left =>
      have turned : Turned pid data sofar resumed d (went.1, went.2) :=
        turned_qbwrite plain out data sofar failnote
      exact ⟨Turned.left prior (left ▸ turned), turned.grows⟩
  | case2 d sofar resumed went err failed =>
      have turned : Turned pid data sofar resumed d (went.1, went.2) :=
        turned_qbwrite plain out data sofar failnote
      exact ⟨Turned.failed_part prior (failed ▸ turned), turned.grows⟩
  | case3 d sofar resumed n went passed last =>
      have turned : Turned pid data sofar resumed d (went.1, went.2) :=
        turned_qbwrite plain out data sofar failnote
      rcases Turned.passed_prior prior (passed ▸ turned) with ⟨finished, far⟩
      rw [take_of_length_le last] at far
      refine ⟨⟨by simp [finished], by simp [finished], ⟨data.length, by simpa using far⟩, ?_⟩,
          turned.grows⟩
      rintro - count ⟨⟩
      exact ⟨rfl, far⟩
  | case4 d sofar resumed n went passed more ih =>
      have turned : Turned pid data sofar resumed d (went.1, went.2) :=
        turned_qbwrite plain out data sofar failnote
      rcases Turned.passed_prior prior (passed ▸ turned) with ⟨finished, far⟩
      have frame := turned.grows.frame
      have serial : went.2.serial pid = d.serial pid := congrFun frame.2 pid
      have rest := ih (frame.1.trans plain) finished (by rw [serial]; simpa [reached] using far)
      exact ⟨serial ▸ rest.1, turned.grows.trans rest.2⟩

theorem wrote_qwrite (id : Qid3) {data : Bytes} (plain : d.q.noblock = false) (on : On .wr pid d)
    (fresh : d.mid pid = none → queuedBy d.queued (d.serial pid) = [])
    (waits : ∀ sofar, d.mid pid = some (.wlock sofar) →
      queuedBy d.queued (d.serial pid) = data.take sofar)
    (flows : ∀ sofar slept, d.mid pid = some (.flow sofar slept) →
      queuedBy d.queued (d.serial pid) = data.take (sofar + (chunk data sofar).length))
    (failnote : Option String) :
    Wrote pid data (d.serial pid) (d.qwrite id pid data failnote noKick) ∧
      Grows pid d.content (d.qwrite id pid data failnote noKick).2.content := by
  unfold qwrite
  split
  case h_1 sofar there =>
    have far : queuedBy d.queued (d.serial pid) = data.take (reached data sofar (some false)) :=
      waits sofar there
    exact wrote_writeLoop (d := d.setMid pid none) plain (setMid_self none) far failnote
  case h_2 sofar slept there =>
    have far : queuedBy d.queued (d.serial pid) = data.take (reached data sofar (some true)) :=
      flows sofar slept there
    dsimp only
    cases slept with
    | false =>
        exact wrote_writeLoop (d := d.setMid pid none) plain (setMid_self none) far failnote
    | true =>
        simp only [if_true]
        split
        · have kept : ((((d.setMid pid none).interrupted pid).2.unlock .wr pid).fail pid
              failnote).content = d.content := by simp
          have finished : ((((d.setMid pid none).interrupted pid).2.unlock .wr pid).fail pid
              failnote).mid pid = none := by
            rw [mid_fail]
            exact setMid_self none
          have same := congrArg (queuedBy ·.queued (d.serial pid)) kept
          refine ⟨⟨by simp [finished], by simp [finished], ⟨_, same.trans far⟩, by simp⟩, ?_⟩
          exact kept ▸ .refl
        · exact wrote_writeLoop (d := ((d.setMid pid none).interrupted pid).2) plain
            (setMid_self none) far failnote
  case h_3 =>
    rcases there : d.mid pid with _ | place
    · have far : queuedBy d.queued (d.serial pid) = data.take (reached data 0 none) := by
        simpa [reached] using fresh there
      exact wrote_writeLoop (d := d.setMid pid none) plain (setMid_self none) far failnote
    · have side := on place there
      cases place <;> simp_all [At.side]

/-- What is left on the queue is what was queued less what was read, and `len` is what the
blocks left took of the limit when they were queued. -/
structure Filed (reads : List Bytes) (c : Content) : Prop where
  drawn : Drawn (c.queued.map Prod.snd) reads (c.blocks.map Prod.fst)
  allocs : ∃ k, c.blocks.map Prod.snd = (c.queued.drop k).map fun b => balloc b.2.length
  len : c.len = (c.blocks.map Prod.snd).sum

variable {reads : List Bytes} {c c' : Content}

theorem Filed.push (filed : Filed reads c) (pid : Pid) (b : Bytes) :
    Filed reads (c.push pid b) where
  drawn := by simpa [Content.push] using filed.drawn.queue b
  allocs := by
    rcases filed.allocs with ⟨k, same⟩
    refine ⟨min k c.queued.length, ?_⟩
    have trimmed : c.queued.drop (min k c.queued.length) = c.queued.drop k := by
      rcases le_total k c.queued.length with short | long
      · rw [min_eq_left short]
      · rw [min_eq_right long, drop_length, drop_eq_nil_of_le long]
    simp only [Content.push, map_append, same, map_cons, map_nil]
    rw [drop_append_of_le_length (min_le_right _ _), trimmed]
    simp
  len := by simp [Content.push, filed.len]

theorem Filed.grows (filed : Filed reads c) (grows : Grows pid c c') : Filed reads c' := by
  induction grows with
  | refl => exact filed
  | tail _ pushed ih =>
      rcases pushed with ⟨b, rfl⟩
      exact ih.push pid b

theorem Filed.nothing {r : Except String Bytes} (filed : Filed reads c)
    (empty : ∀ b, r = .ok b → b = []) : Filed (Traffic.handed reads r) c := by
  cases r with
  | error err => exact filed
  | ok b =>
      obtain rfl := empty b rfl
      exact ⟨filed.drawn.none, filed.allocs, filed.len⟩

theorem queuedBy_grows {k : Nat} (grows : Grows pid c c') (other : k ≠ c.serial pid) :
    queuedBy c'.queued k = queuedBy c.queued k := by
  induction grows with
  | refl => rfl
  | tail before pushed ih =>
      rcases pushed with ⟨b, rfl⟩
      rw [queuedBy_push, Grows.frame before |>.2, if_neg other.symm, append_nil, ih]

theorem mem_grows {m : Nat} (grows : Grows pid c c') (below : ∀ b ∈ c.queued, b.1 < m)
    (mine : c.serial pid < m) : ∀ b ∈ c'.queued, b.1 < m := by
  induction grows with
  | refl => exact below
  | tail before pushed ih =>
      rcases pushed with ⟨b, rfl⟩
      intro b' member
      rcases mem_append.mp member with old | new
      · exact ih b' old
      · obtain rfl := mem_singleton.mp new
        simpa [(Grows.frame before).2] using mine

theorem Filed.took {n : Nat} {r : Except String Bytes × Qio} (filed : Filed reads d.content)
    (took : Took pid n d r) :
    Filed (if (r.2.mid pid).isSome then reads else Traffic.handed reads r.1) r.2.content := by
  cases took with
  | nothing same empty =>
      rw [same]
      split
      · exact filed
      · exact filed.nothing empty
  | @part next alloc rest finished first answer left =>
      have drawn := filed.drawn
      simp only [content, first, map_cons] at drawn
      rw [← take_append_drop n next] at drawn
      rw [left, finished, answer]
      refine ⟨by simpa [Traffic.handed, content] using drawn.part, ?_, ?_⟩
      · simpa [content, first] using filed.allocs
      · simpa [content, first] using filed.len
  | @whole next alloc rest finished first answer left =>
      have drawn := filed.drawn
      have len := filed.len
      rcases filed.allocs with ⟨k, same⟩
      simp only [content, first, map_cons] at drawn len same
      rw [left, finished, answer]
      refine ⟨by simpa [Traffic.handed, content] using drawn.whole, ⟨k + 1, ?_⟩, ?_⟩
      · have tails := congrArg List.tail same
        simpa [content, ← map_tail, tail_drop] using tails
      · simp [len]

end Qio

namespace Traffic

open Qio

variable {id : Qid3} {limit : Nat} {s : Traffic}

/-- How far each write is, and what became of those that ended. -/
structure Tallied (s : Traffic) : Prop where
  /-- A process in the middle of a write makes the write of its number. -/
  mine : ∀ p place, s.io.mid p = some place → place.side = .wr →
    ∃ data failnote, s.call p = some (.write data failnote) ∧
      s.writes[s.io.serial p]? = some data ∧ s.answers (s.io.serial p) = none
  /-- No two processes make the same write. -/
  apart : ∀ p q place place', s.io.mid p = some place → place.side = .wr →
    s.io.mid q = some place' → place'.side = .wr → s.io.serial p = s.io.serial q → p = q
  waits : ∀ p sofar data failnote, s.io.mid p = some (.wlock sofar) →
    s.call p = some (.write data failnote) →
    queuedBy s.io.queued (s.io.serial p) = data.take sofar
  flows : ∀ p sofar slept data failnote, s.io.mid p = some (.flow sofar slept) →
    s.call p = some (.write data failnote) →
    queuedBy s.io.queued (s.io.serial p) = data.take (sofar + (chunk data sofar).length)
  numbered : ∀ b ∈ s.io.queued, b.1 < s.writes.length
  answered : ∀ k, s.writes.length ≤ k → s.answers k = none
  part : ∀ k data, s.writes[k]? = some data → ∃ n, queuedBy s.io.queued k = data.take n
  whole : ∀ k n, s.answers k = some (.ok n) → ∃ data, s.writes[k]? = some data ∧
    n = data.length ∧ queuedBy s.io.queued k = data

/-- What holds of the bytes in every state. -/
structure Accounted (id : Qid3) (s : Traffic) : Prop where
  orderly : s.Orderly id
  filed : Filed s.reads s.io.content
  tallied : s.Tallied

/-- The reads, the writes and the hangups of a queue that is not closed. -/
def Unclosed (id : Qid3) (s : Traffic) (a : QAct) : Prop :=
  s.Returns id a ∧ a ≠ .close ∧ a ≠ .reopen

theorem Tallied.of_same {s' : Traffic} (tallied : s.Tallied)
    (history : s'.writes = s.writes ∧ s'.answers = s.answers)
    (queued : s'.io.queued = s.io.queued ∧ s'.io.serial = s.io.serial)
    (kept : ∀ p place, s'.io.mid p = some place → place.side = .wr →
      s.io.mid p = some place ∧ s'.call p = s.call p) : s'.Tallied where
  mine p place there side := by
    rcases kept p place there side with ⟨was, call⟩
    rw [history.1, history.2, queued.2, call]
    exact tallied.mine p place was side
  apart p q place place' there side there' side' := by
    rw [queued.2]
    exact tallied.apart p q place place' (kept p place there side).1 side
      (kept q place' there' side').1 side'
  waits p sofar data failnote there call := by
    rcases kept p _ there rfl with ⟨was, same⟩
    rw [queued.1, queued.2]
    exact tallied.waits p sofar data failnote was (same ▸ call)
  flows p sofar slept data failnote there call := by
    rcases kept p _ there rfl with ⟨was, same⟩
    rw [queued.1, queued.2]
    exact tallied.flows p sofar slept data failnote was (same ▸ call)
  numbered := by rw [queued.1, history.1]; exact tallied.numbered
  answered := by rw [history.1, history.2]; exact tallied.answered
  part := by rw [queued.1, history.1]; exact tallied.part
  whole := by rw [queued.1, history.1, history.2]; exact tallied.whole

theorem queued_took {pid : Pid} {n : Nat} {d : Qio} {r : Except String Bytes × Qio}
    (took : Took pid n d r) : r.2.queued = d.queued ∧ r.2.serial = d.serial := by
  have same : r.2.content.queued = d.content.queued ∧ r.2.content.serial = d.content.serial := by
    cases took with
    | nothing same => simp [same]
    | part _ _ _ left => simp [left]
    | whole _ _ _ left => simp [left]
  exact same

theorem Accounted.read (accounted : s.Accounted id) {pid : Pid} {n : Nat}
    (resumes : s.Resumes pid (.read n)) : (s.step id (.read pid n)).Accounted id := by
  have took : Took pid n s.io (s.io.qread id pid n noKick) :=
    took_qread accounted.orderly.sync.plain.1 n
  have placed := places_qread s.io id pid n noKick
  have filed := accounted.filed.took took
  have kept (p : Pid) (place : At) (there : (s.io.qread id pid n noKick).2.mid p = some place)
      (side : place.side = .wr) : p ≠ pid ∧ s.io.mid p = some place := by
    have differs : p ≠ pid := by
      rintro rfl
      simp [placed.on place there] at side
    exact ⟨differs, placed.others p differs ▸ there⟩
  refine ⟨accounted.orderly.read resumes, ?_, ?_⟩
  · simp only [step, afterRead]
    split
    case isTrue still => simpa [still] using filed
    case isFalse finished => simpa [finished] using filed
  · simp only [step, afterRead]
    split
    all_goals
      refine accounted.tallied.of_same ⟨rfl, rfl⟩ (queued_took took) fun p place there side => ?_
      rcases kept p place there side with ⟨differs, was⟩
      exact ⟨was, by simp [differs]⟩

/-- A write under its number, about to be made or gone on with. -/
structure Numbered (s : Traffic) (pid : Pid) (data : Bytes) : Prop where
  tallied : s.Tallied
  number : s.writes[s.io.serial pid]? = some data
  unanswered : s.answers (s.io.serial pid) = none
  others : ∀ p ≠ pid, ∀ place, s.io.mid p = some place → place.side = .wr →
    s.io.serial p ≠ s.io.serial pid
  fresh : s.io.mid pid = none → queuedBy s.io.queued (s.io.serial pid) = []

theorem queuedBy_eq_nil {queued : List (Nat × Bytes)} {k : Nat} (none : ∀ b ∈ queued, b.1 < k) :
    queuedBy queued k = [] := by
  have empty : queued.filter (fun b => b.1 == k) = [] := by
    rw [filter_eq_nil_iff]
    intro b member
    simpa using (none b member).ne
  simp [queuedBy, empty]

theorem getElem?_snoc {writes : List Bytes} {k : Nat} {data : Bytes} (last : Bytes)
    (there : writes[k]? = some data) : (writes ++ [last])[k]? = some data := by
  rw [List.getElem?_append_left (List.getElem?_eq_some_iff.mp there).1]
  exact there

theorem Tallied.first {pid : Pid} (tallied : s.Tallied) (out : s.io.mid pid = none)
    (data : Bytes) :
    Numbered { s with
      io := { s.io with serial := Function.update s.io.serial pid s.writes.length }
      writes := s.writes ++ [data] } pid data := by
  have differs (p : Pid) (place : At) (there : s.io.mid p = some place) : p ≠ pid := by
    rintro rfl
    simp [out] at there
  have serial (p : Pid) (place : At) (there : s.io.mid p = some place) :
      Function.update s.io.serial pid s.writes.length p = s.io.serial p := by
    simp [differs p place there]
  have below (p : Pid) (place : At) (there : s.io.mid p = some place) (side : place.side = .wr) :
      s.io.serial p < s.writes.length := by
    rcases tallied.mine p place there side with ⟨data', -, -, number, -⟩
    exact (List.getElem?_eq_some_iff.mp number).1
  have nothing : queuedBy s.io.queued s.writes.length = [] := queuedBy_eq_nil tallied.numbered
  refine ⟨⟨fun p place there side => ?_, fun p q place place' there side there' side' same => ?_,
    fun p sofar data' failnote there call => ?_, fun p sofar slept data' failnote there call => ?_,
    fun b member => ?_, fun k later => ?_, fun k data' number => ?_, fun k n answer => ?_⟩,
    by simp, ?_, fun p _ place there side => ?_, fun _ => ?_⟩
  · rcases tallied.mine p place there side with ⟨data', failnote, call, number, unanswered⟩
    refine ⟨data', failnote, call, ?_, ?_⟩
    · simpa [serial p place there] using getElem?_snoc data number
    · simpa [serial p place there] using unanswered
  · simp only [serial p place there, serial q place' there'] at same
    exact tallied.apart p q place place' there side there' side' same
  · simpa [serial p _ there] using tallied.waits p sofar data' failnote there call
  · simpa [serial p _ there] using tallied.flows p sofar slept data' failnote there call
  · simpa using (tallied.numbered b member).trans (Nat.lt_succ_self _)
  · exact tallied.answered k (by simp at later; omega)
  · rcases lt_or_ge k s.writes.length with old | last
    · refine tallied.part k data' ?_
      rwa [List.getElem?_append_left old] at number
    · have bound := (List.getElem?_eq_some_iff.mp number).1
      obtain rfl : k = s.writes.length := by simp at bound; omega
      exact ⟨0, by simpa using nothing⟩
  · rcases tallied.whole k n answer with ⟨data', number, count, all⟩
    exact ⟨data', getElem?_snoc data number, count, all⟩
  · simpa using tallied.answered s.writes.length le_rfl
  · have short := below p place there side
    simp only [serial p place there, Function.update_self]
    omega
  · simpa using nothing

theorem Tallied.begun {pid : Pid} {data : Bytes} {failnote : Option String}
    (tallied : s.Tallied) (orderly : s.Orderly id)
    (resumes : s.Resumes pid (.write data failnote)) : (s.begun pid data).Numbered pid data := by
  unfold Traffic.begun
  rcases there : s.io.mid pid with _ | place
  · exact tallied.first there data
  · simp only [Option.isSome_some, if_true]
    have side : place.side = .wr := orderly.on resumes place there
    rcases tallied.mine pid place there side with ⟨data', failnote', call, number, unanswered⟩
    have same : data' = data := by
      rcases resumes.2 with out | same
      · simp [out] at there
      · simp only [same, Option.some.injEq, QCall.write.injEq] at call
        exact call.1.symm
    refine ⟨tallied, same ▸ number, unanswered, fun p differs place' there' side' clash => ?_, by
      simp [there]⟩
    exact differs (tallied.apart p pid place' place there' side' there side clash)

theorem Numbered.after {pid : Pid} {data : Bytes} {failnote : Option String}
    {r : Except String Nat × Qio} (numbered : s.Numbered pid data)
    (wrote : Wrote pid data (s.io.serial pid) r) (grows : Grows pid s.io.content r.2.content)
    (placed : Places .wr pid s.io r.2) : (s.afterWrite pid data failnote r).Tallied := by
  have tallied := numbered.tallied
  have serial : r.2.serial = s.io.serial := grows.frame.2
  have others {k : Nat} (other : k ≠ s.io.serial pid) :
      queuedBy r.2.queued k = queuedBy s.io.queued k := queuedBy_grows grows other
  have bound := (List.getElem?_eq_some_iff.mp numbered.number).1
  have answers (k : Nat) (other : k ≠ s.io.serial pid) :
      (s.afterWrite pid data failnote r).answers k = s.answers k := by
    simp only [afterWrite]
    split
    · rfl
    · simp [other]
  have writes : (s.afterWrite pid data failnote r).writes = s.writes := by
    simp only [afterWrite]
    split <;> rfl
  have io : (s.afterWrite pid data failnote r).io = r.2 := by
    simp only [afterWrite]
    split <;> rfl
  have call (p : Pid) (differs : p ≠ pid) :
      (s.afterWrite pid data failnote r).call p = s.call p := by
    simp only [afterWrite]
    split <;> simp [differs]
  have own (place : At) (there : r.2.mid pid = some place) :
      (s.afterWrite pid data failnote r).call pid = some (.write data failnote) ∧
        (s.afterWrite pid data failnote r).answers = s.answers := by
    simp [afterWrite, there]
  refine ⟨?_, ?_, ?_, ?_, ?_, ?_, ?_, ?_⟩ <;> simp only [io, writes, serial]
  · intro p place there side
    rcases eq_or_ne p pid with rfl | differs
    · rw [(own place there).1, (own place there).2]
      exact ⟨data, failnote, rfl, numbered.number, numbered.unanswered⟩
    · have was := placed.others p differs ▸ there
      rw [call p differs, answers _ (numbered.others p differs place was side)]
      exact tallied.mine p place was side
  · intro p q place place' there side there' side' same
    rcases eq_or_ne p pid with rfl | differs
    · by_contra apart
      have was := placed.others q (Ne.symm apart) ▸ there'
      exact numbered.others q (Ne.symm apart) place' was side' same.symm
    · have was := placed.others p differs ▸ there
      rcases eq_or_ne q pid with rfl | differs'
      · exact absurd same (numbered.others p differs place was side)
      · exact tallied.apart p q place place' was side (placed.others q differs' ▸ there') side' same
  · intro p sofar data' failnote' there isCall
    rcases eq_or_ne p pid with rfl | differs
    · rw [(own _ there).1] at isCall
      simp only [Option.some.injEq, QCall.write.injEq] at isCall
      rw [wrote.waits sofar there, isCall.1]
    · have was := placed.others p differs ▸ there
      rw [others (numbered.others p differs _ was rfl)]
      exact tallied.waits p sofar data' failnote' was (call p differs ▸ isCall)
  · intro p sofar slept data' failnote' there isCall
    rcases eq_or_ne p pid with rfl | differs
    · rw [(own _ there).1] at isCall
      simp only [Option.some.injEq, QCall.write.injEq] at isCall
      rw [wrote.flows sofar slept there, isCall.1]
    · have was := placed.others p differs ▸ there
      rw [others (numbered.others p differs _ was rfl)]
      exact tallied.flows p sofar slept data' failnote' was (call p differs ▸ isCall)
  · exact mem_grows grows tallied.numbered bound
  · intro k later
    rw [answers k (by omega)]
    exact tallied.answered k later
  · intro k data' number
    rcases eq_or_ne k (s.io.serial pid) with rfl | other
    · obtain rfl : data = data' := by simpa using numbered.number.symm.trans number
      exact wrote.part
    · rw [others other]
      exact tallied.part k data' number
  · intro k n answer
    rcases eq_or_ne k (s.io.serial pid) with rfl | other
    · rcases there : r.2.mid pid with _ | place
      · have result : r.1 = .ok n := by simpa [afterWrite, there] using answer
        exact ⟨data, numbered.number, wrote.whole there n result⟩
      · rw [(own place there).2, numbered.unanswered] at answer
        simp at answer
    · rw [answers k other] at answer
      rw [others other]
      exact tallied.whole k n answer

theorem Accounted.write (accounted : s.Accounted id) {pid : Pid} {data : Bytes}
    {failnote : Option String} (resumes : s.Resumes pid (.write data failnote)) :
    (s.step id (.write pid data failnote)).Accounted id := by
  have orderly := accounted.orderly.begun pid data
  have numbered := accounted.tallied.begun accounted.orderly resumes
  have again := resumes_begun resumes
  have filed : Filed (s.begun pid data).reads (s.begun pid data).io.content := by
    unfold Traffic.begun
    split
    · exact accounted.filed
    · exact ⟨accounted.filed.drawn, accounted.filed.allocs, accounted.filed.len⟩
  have whole : (s.step id (.write pid data failnote)).Orderly id :=
    accounted.orderly.write resumes
  simp only [step] at whole ⊢
  generalize s.begun pid data = t at orderly numbered again filed whole
  have call (place : At) (there : t.io.mid pid = some place) :
      t.call pid = some (.write data failnote) :=
    again.2.resolve_left (by simp [there])
  rcases wrote_qwrite id orderly.sync.plain.2 (orderly.on again) numbered.fresh
    (fun sofar there => numbered.tallied.waits pid sofar data failnote there (call _ there))
    (fun sofar slept there => numbered.tallied.flows pid sofar slept data failnote there
      (call _ there)) failnote with ⟨wrote, grows⟩
  refine ⟨whole, ?_, numbered.after wrote grows (places_qwrite t.io id pid data failnote noKick)⟩
  have grown := filed.grows grows
  simp only [afterWrite]
  split <;> exact grown

theorem Accounted.step {a : QAct} (accounted : s.Accounted id) (unclosed : s.Unclosed id a) :
    (s.step id a).Accounted id := by
  have orderly := accounted.orderly.step unclosed.1
  cases a with
  | read pid n => exact accounted.read unclosed.1
  | write pid data failnote => exact accounted.write unclosed.1
  | hangup =>
      exact ⟨orderly, accounted.filed, accounted.tallied.of_same ⟨rfl, rfl⟩ ⟨rfl, rfl⟩
        fun _ _ there _ => ⟨there, rfl⟩⟩
  | close => exact absurd rfl unclosed.2.1
  | reopen => exact absurd rfl unclosed.2.2
  | table a =>
      exact ⟨orderly, accounted.filed, accounted.tallied.of_same ⟨rfl, rfl⟩ ⟨rfl, rfl⟩
        fun _ _ there _ => ⟨there, rfl⟩⟩

theorem accounted_of_reach (reached : (system id limit).Reach (Unclosed id) s) :
    s.Accounted id := by
  refine System.Reach.invariant (Accounted id) (fun s first => ?_)
    (fun s a s' accounted allowed moved => ?_) reached
  · rcases first with ⟨procs, reach, vacant, rfl⟩
    refine ⟨orderly_start (Procs.inv_of_reach (fun _ _ called => called) reach) vacant,
      ⟨.empty, ⟨0, rfl⟩, rfl⟩, ?_⟩
    refine ⟨?_, ?_, ?_, ?_, ?_, ?_, ?_, ?_⟩ <;> simp [start]
  · obtain rfl : s' = s.step id a := moved
    exact accounted.step allowed

/-- The bytes of the reads are the first of the bytes queued, in order; what is left of them
is on the queue; each read's are from one block; the blocks of a write are the first of its
bytes, and all of them if it answered so. -/
structure Fifo (s : Traffic) : Prop where
  order : s.reads.flatten <+: (s.io.queued.map Prod.snd).flatten
  complete : s.reads.flatten ++ (s.io.q.blocks.map Prod.fst).flatten =
    (s.io.queued.map Prod.snd).flatten
  within : ∀ before read after, s.reads = before ++ read :: after → read = [] ∨
    ∃ gone front back later, s.io.queued.map Prod.snd = gone ++ (front ++ read ++ back) :: later ∧
      before.flatten = gone.flatten ++ front
  part : ∀ k data, s.writes[k]? = some data → queuedBy s.io.queued k <+: data
  whole : ∀ k n, s.answers k = some (.ok n) → ∃ data, s.writes[k]? = some data ∧
    n = data.length ∧ queuedBy s.io.queued k = data

/-- `q.len` is the sum of what the blocks left took of the limit when they were queued, so
taking the first of them off does not underflow. -/
structure Measured (s : Traffic) : Prop where
  blocks : ∃ k, s.io.q.blocks.map Prod.snd = (s.io.queued.drop k).map fun b => balloc b.2.length
  sum : s.io.q.len = (s.io.q.blocks.map Prod.snd).sum
  least : ∀ b ∈ s.io.q.blocks, b.2 ≤ s.io.q.len

/-- A pipe's queue is first in, first out, for every interleaving of reads, writes, hangups
and whatever else the kernel does. -/
theorem queue_fifo (reached : (system id limit).Reach (Unclosed id) s) :
    s.Fifo ∧ s.Measured := by
  have accounted := accounted_of_reach reached
  have filed := accounted.filed
  have complete := filed.drawn.flatten
  refine ⟨⟨⟨_, complete⟩, complete, fun _ _ _ made => filed.drawn.inside made, ?_,
    accounted.tallied.whole⟩, filed.allocs, filed.len, fun b member => ?_⟩
  · intro k data number
    rcases accounted.tallied.part k data number with ⟨n, same⟩
    exact same ▸ take_prefix n data
  · have sum : s.io.q.len = (s.io.q.blocks.map Prod.snd).sum := filed.len
    rw [sum]
    exact single_le_sum (by simp) _ (mem_map_of_mem member)

theorem unclosed_written (data : Bytes) :
    (start pipeqsize Procs.forked).Unclosed .pipe (.write 1 data (some epipenote)) :=
  ⟨returns_written data, by simp, by simp⟩

theorem queue_fifo_written : (written (List.replicate 32704 0)).io.q.len = 32768 ∧
    (written (List.replicate 32704 0)).Fifo ∧ (written (List.replicate 32704 0)).Measured :=
  ⟨(written_io length_replicate).2.2.2.1, queue_fifo (reach_written (unclosed_written _))⟩

/-- `q.len` is not the number of bytes queued: a write of 32704 bytes counts for 32768. -/
theorem len_ne_dlen : ¬∀ id limit s, (system id limit).Reach (Unclosed id) s →
    s.Fifo ∧ s.io.q.len = s.io.q.dlen := by
  intro holds
  have same := (holds _ _ _ (reach_written (unclosed_written (List.replicate 32704 0)))).2
  have measured := (written_io (length_replicate (n := 32704) (a := (0 : UInt8)))).2.2.2
  rw [measured.1, measured.2] at same
  exact absurd same (by decide)

end Traffic

end Ipnx
