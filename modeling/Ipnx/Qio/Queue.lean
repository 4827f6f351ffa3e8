import Ipnx.Lib.Codec
import Ipnx.Proc.Sleep

/-!
# Queues

`qread` and `qwrite` on one queue, with the locks, the flow control and the places where a
call leaves the processor and comes back. A call that leaves records where it was, and is
made again from the top when its process is entered again.
-/

namespace Ipnx

/-- `MAXATOMIC`: the most one block holds. -/
def maxatomic : Nat := 64 * 1024

/-- `balloc`: what a block of so many bytes takes of the limit, room for headers and the data
rounded up. -/
def balloc (n : Nat) : Nat := 64 + (n + 7) / 8 * 8

def ehungup : String := "i/o on hungup channel"

/-- `PIPEQSIZE`: the limit of a pipe's queues. -/
def pipeqsize : Nat := 32 * 1024

/-- `EPIPENOTE`: what a writer whose write to a pipe failed is posted. -/
def epipenote : String := "sys: write on closed pipe"

/-- The two sides of a queue, each with its lock and its `Rendez`. -/
inductive Side
  | rd | wr
  deriving DecidableEq, Repr

structure Queue where
  /-- The blocks, each with its `balloc`. -/
  blocks : List (Bytes × Nat)
  len : Nat
  limit : Nat
  inilim : Nat
  closed : Bool
  starve : Bool
  flow : Bool
  coalesce : Bool
  noblock : Bool
  eof : UInt32
  err : String
  rlock : QLock
  wlock : QLock

namespace Queue

def new (limit : Nat) : Queue where
  blocks := []
  len := 0
  limit := limit
  inilim := limit
  closed := false
  starve := true
  flow := false
  coalesce := false
  noblock := false
  eof := 0
  err := ""
  rlock := {}
  wlock := {}

/-- `dlen`: the bytes queued. -/
def dlen (q : Queue) : Nat := (q.blocks.map (·.1.length)).sum

/-- `hangup`: closed, but what is queued stays readable. -/
def hangup (q : Queue) : Queue := { q with closed := true, err := ehungup }

/-- `close`: closed, and the blocks freed. -/
def close (q : Queue) : Queue :=
  { q.hangup with flow := false, starve := false, noblock := false, blocks := [], len := 0 }

def reopen (q : Queue) : Queue :=
  { q with closed := false, starve := true, eof := 0, limit := q.inilim }

def setStarve (q : Queue) (on : Bool) : Queue := { q with starve := on }

def setFlow (q : Queue) (on : Bool) : Queue := { q with flow := on }

/-- A read answered nothing since the queue closed. -/
def countEof (q : Queue) : Queue := { q with eof := q.eof + 1 }

def lock (q : Queue) : Side → QLock
  | .rd => q.rlock
  | .wr => q.wlock

def setLock (q : Queue) (l : QLock) : Side → Queue
  | .rd => { q with rlock := l }
  | .wr => { q with wlock := l }

variable (q : Queue) (l : QLock) (side : Side)

@[simp]
theorem lock_setLock_self : (q.setLock l side).lock side = l := by
  cases side <;> rfl

theorem lock_setLock_of_ne {q : Queue} {l : QLock} {side side' : Side} (differs : side' ≠ side) :
    (q.setLock l side).lock side' = q.lock side' := by
  cases side <;> cases side' <;> first | rfl | exact absurd rfl differs

@[simp]
theorem setLock_blocks : (q.setLock l side).blocks = q.blocks := by
  cases side <;> rfl

@[simp]
theorem setLock_len : (q.setLock l side).len = q.len := by
  cases side <;> rfl

@[simp]
theorem setLock_limit : (q.setLock l side).limit = q.limit := by
  cases side <;> rfl

@[simp]
theorem setLock_closed : (q.setLock l side).closed = q.closed := by
  cases side <;> rfl

@[simp]
theorem setLock_starve : (q.setLock l side).starve = q.starve := by
  cases side <;> rfl

@[simp]
theorem setLock_flow : (q.setLock l side).flow = q.flow := by
  cases side <;> rfl

@[simp]
theorem setLock_coalesce : (q.setLock l side).coalesce = q.coalesce := by
  cases side <;> rfl

@[simp]
theorem setLock_noblock : (q.setLock l side).noblock = q.noblock := by
  cases side <;> rfl

/-- `qread`'s loop over the empty blocks of a coalescing queue. -/
def skipEmpty (q : Queue) : Queue :=
  go q q.blocks
where
  go (q : Queue) : List (Bytes × Nat) → Queue
    | [] => q
    | (b, alloc) :: rest =>
        if b.isEmpty then go { q with blocks := rest, len := q.len - alloc } rest else q

/-- `qread`'s loop over the blocks: one of them, or while coalescing as many as fit, and the
front of the first that does not. -/
def takeBlocks (coalesce : Bool) (n : Nat) :
    Bytes → Nat → List (Bytes × Nat) → Bytes × Nat × List (Bytes × Nat)
  | b, len, [] => (b, len, [])
  | b, len, (next, alloc) :: rest =>
      if n - b.length < next.length then
        (b ++ next.take (n - b.length), len, (next.drop (n - b.length), alloc) :: rest)
      else if !coalesce || rest.head?.all fun f => n < (b ++ next).length + f.1.length then
        (b ++ next, len - alloc, rest)
      else takeBlocks coalesce n (b ++ next) (len - alloc) rest

def take (q : Queue) (n : Nat) : Bytes × Queue :=
  let taken := takeBlocks q.coalesce n [] q.len q.blocks
  (taken.1, { q with len := taken.2.1, blocks := taken.2.2 })

def push (q : Queue) (b : Bytes) : Queue :=
  { q with blocks := q.blocks ++ [(b, balloc b.length)], len := q.len + balloc b.length }

end Queue

/-- `At`: where a process that left in the middle of a read or a write was. -/
inductive At
  | read (slept : Bool)
  | wlock (sofar : Nat)
  | flow (sofar : Nat) (slept : Bool)
  deriving DecidableEq, Repr

def At.side : At → Side
  | .read _ => .rd
  | .wlock _ => .wr
  | .flow _ _ => .wr

/-- `Qid3`: which queue. -/
structure Qid3 where
  dev : DevId
  devno : Nat
  which : Nat

def Qid3.pipe : Qid3 := ⟨.pipe, 0, 1⟩

/-- The `Rendez` of a side: `q->rr` or `q->wr`. -/
def Qid3.rendez (id : Qid3) : Side → Rid
  | .rd => .rr id.dev id.devno id.which
  | .wr => .wr id.dev id.devno id.which

/-- What `qread` and `qwrite` work on, and the history of it: who took each lock or was
handed it and has not let go of it, and what was queued by which write. -/
structure Qio where
  q : Queue
  /-- `at`: the processes in the middle of a call, and where. -/
  mid : Pid → Option At
  procs : Procs
  holders : Side → List Pid
  /-- The number of the write each process is making, or last made. -/
  serial : Pid → Nat
  queued : List (Nat × Bytes)

/-- `q->kick`. -/
abbrev Kick := Queue → Procs → Queue × Procs

namespace Qio

def setMid (d : Qio) (pid : Pid) (at_ : Option At) : Qio :=
  { d with mid := Function.update d.mid pid at_ }

/-- `procs.qlock(&mut q.rlock, pid)`, or of `wlock`. -/
def lock (d : Qio) (side : Side) (pid : Pid) : Bool × Qio :=
  let got := d.procs.qlock (d.q.lock side) pid
  (got.1,
    { d with
      q := d.q.setLock got.2.1 side
      procs := got.2.2
      holders := if got.1 then Function.update d.holders side (d.holders side ++ [pid])
        else d.holders })

/-- `procs.qunlock(&mut q.rlock)`, or of `wlock`. -/
def unlock (d : Qio) (side : Side) (pid : Pid) : Qio :=
  let left := d.procs.qunlock (d.q.lock side)
  { d with
    q := d.q.setLock left.1 side
    procs := left.2
    holders := Function.update d.holders side
      ((d.holders side).erase pid ++ (d.q.lock side).q.head?.toList) }

/-- `procs.sleep(pid, Rid::Rr(…), false)`, or at `Wr`. -/
def sleep (d : Qio) (id : Qid3) (side : Side) (pid : Pid) : Bool × Qio :=
  let slept := d.procs.sleep pid (id.rendez side) false
  (slept.1, { d with procs := slept.2 })

/-- `procs.wakeup(Rid::Rr(…))`, or at `Wr`. -/
def wakeup (d : Qio) (id : Qid3) (side : Side) : Option Pid × Qio :=
  let woke := d.procs.wakeup (id.rendez side)
  (woke.1, { d with procs := woke.2 })

def interrupted (d : Qio) (pid : Pid) : Bool × Qio :=
  let ended := d.procs.interrupted pid
  (ended.1, { d with procs := ended.2 })

def setlabel (d : Qio) (pid : Pid) : Qio := { d with procs := d.procs.setlabel pid }

def kicked (d : Qio) (kick : Kick) : Qio :=
  { d with q := (kick d.q d.procs).1, procs := (kick d.q d.procs).2 }

/-- `fail`: what the device posts to a writer whose write failed. -/
def fail (d : Qio) (pid : Pid) (failnote : Option String) : Qio :=
  match failnote with
  | some note => { d with procs := (d.procs.postnote pid note .nuser).2 }
  | none => d

/-- `qwakeup_iunlock`: the writer goes on once the queue is below half its limit. -/
def drained (d : Qio) (id : Qid3) (kick : Kick) : Qio :=
  if d.q.flow && d.q.len < d.q.limit / 2 then
    (({ d with q := d.q.setFlow false }.kicked kick).wakeup id .wr).2
  else d

/-- `qwait`, and what is there taken: end of file, a sleep, or data. -/
def serve (d : Qio) (id : Qid3) (pid : Pid) (n : Nat) (kick : Kick) :
    Except String Bytes × Qio :=
  if d.q.blocks.isEmpty then
    if d.q.closed then
      let d := { d with q := d.q.countEof }
      (if 3 < d.q.eof || d.q.err != ehungup then .error d.q.err else .ok [], d.unlock .rd pid)
    else
      let slept := { d with q := d.q.setStarve true }.sleep id .rd pid
      if slept.1 then (.ok [], slept.2.setMid pid (some (.read true)))
      else (.error eintr, (slept.2.interrupted pid).2.unlock .rd pid)
  else
    let taken := d.q.take n
    (.ok taken.1, ({ d with q := taken.2 }.drained id kick).unlock .rd pid)

/-- `qread` from `again:`, holding `rlock`. -/
def again (d : Qio) (id : Qid3) (pid : Pid) (n : Nat) (kick : Kick) :
    Except String Bytes × Qio :=
  (if d.q.coalesce then { d with q := d.q.skipEmpty } else d).serve id pid n kick

theorem again_plain {d : Qio} (plain : d.q.coalesce = false) (id : Qid3) (pid : Pid) (n : Nat)
    (kick : Kick) : d.again id pid n kick = d.serve id pid n kick := by
  simp [again, plain]

def qread (d : Qio) (id : Qid3) (pid : Pid) (n : Nat) (kick : Kick) :
    Except String Bytes × Qio :=
  match d.mid pid with
  | some (.read true) =>
      let ended := (d.setMid pid none).interrupted pid
      if ended.1 then (.error eintr, ended.2.unlock .rd pid) else ended.2.again id pid n kick
  | some _ => (d.setMid pid none).again id pid n kick
  | none =>
      let held := d.lock .rd pid
      if held.1 then held.2.again id pid n kick
      else (.ok [], held.2.setMid pid (some (.read false)))

/-- How one block went: the call leaves the processor, fails, or goes on. -/
inductive Went
  | left
  | failed (err : String)
  | passed

/-- `qbwrite`'s flow control, with the block queued. -/
def flowctl (d : Qio) (id : Qid3) (pid : Pid) (sofar : Nat) (failnote : Option String) :
    Went × Qio :=
  if !(d.q.noblock || d.q.len < d.q.limit || d.q.closed) then
    let slept := { d with q := d.q.setFlow true }.sleep id .wr pid
    if slept.1 then (.left, slept.2.setMid pid (some (.flow sofar true)))
    else (.failed eintr, ((slept.2.interrupted pid).2.unlock .wr pid).fail pid failnote)
  else (.passed, d.unlock .wr pid)

def push (d : Qio) (pid : Pid) (b : Bytes) : Qio :=
  { d with q := d.q.push b, queued := d.queued ++ [(d.serial pid, b)] }

/-- Whether the process woken has a higher priority than the one that woke it. -/
def outranked (d : Qio) (woke : Option Pid) (pid : Pid) : Bool :=
  let pri (p : Pid) := ((d.procs.tab p).map (·.priority)).getD 0
  woke.any fun p => pri pid < pri p

/-- `qbwrite` holding `wlock`, with the block `b` not queued yet. -/
def queueBlock (d : Qio) (id : Qid3) (pid : Pid) (b : Bytes) (sofar : Nat)
    (failnote : Option String) (kick : Kick) : Went × Qio :=
  if d.q.closed then (.failed d.q.err, (d.unlock .wr pid).fail pid failnote)
  else if d.q.limit ≤ d.q.len && d.q.noblock then (.passed, d.unlock .wr pid)
  else
    let d := d.push pid b
    if d.q.starve then
      let woke := ({ d with q := d.q.setStarve false }.kicked kick).wakeup id .rd
      if woke.2.outranked woke.1 pid then
        (.left, (woke.2.setlabel pid).setMid pid (some (.flow sofar false)))
      else woke.2.flowctl id pid sofar failnote
    else d.flowctl id pid sofar failnote

def chunk (data : Bytes) (sofar : Nat) : Bytes := (data.drop sofar).take maxatomic

theorem length_chunk (data : Bytes) (sofar : Nat) :
    (chunk data sofar).length = min (data.length - sofar) maxatomic := by
  simp [chunk, min_comm]

/-- One turn of `qwrite`'s loop. `resumed` is a call that comes back holding `wlock`, and
whether its block is queued. -/
def qbwrite (d : Qio) (id : Qid3) (pid : Pid) (data : Bytes) (sofar : Nat)
    (resumed : Option Bool) (failnote : Option String) (kick : Kick) : Went × Qio :=
  match resumed with
  | some true => d.flowctl id pid sofar failnote
  | some false => d.queueBlock id pid (chunk data sofar) sofar failnote kick
  | none =>
      let held := d.lock .wr pid
      if held.1 then held.2.queueBlock id pid (chunk data sofar) sofar failnote kick
      else (.left, held.2.setMid pid (some (.wlock sofar)))

/-- `qwrite`'s loop. -/
def writeLoop (d : Qio) (id : Qid3) (pid : Pid) (data : Bytes) (sofar : Nat)
    (resumed : Option Bool) (failnote : Option String) (kick : Kick) : Except String Nat × Qio :=
  let n := (chunk data sofar).length
  let went := d.qbwrite id pid data sofar resumed failnote kick
  match went.1 with
  | .left => (.ok 0, went.2)
  | .failed err => (.error err, went.2)
  | .passed =>
      if data.length ≤ sofar + n then (.ok data.length, went.2)
      else went.2.writeLoop id pid data (sofar + n) none failnote kick
termination_by data.length - sofar
decreasing_by
  have room := length_chunk data sofar
  simp only [maxatomic] at room
  omega

def qwrite (d : Qio) (id : Qid3) (pid : Pid) (data : Bytes) (failnote : Option String)
    (kick : Kick) : Except String Nat × Qio :=
  match d.mid pid with
  | some (.wlock sofar) =>
      (d.setMid pid none).writeLoop id pid data sofar (some false) failnote kick
  | some (.flow sofar slept) =>
      let ended := if slept then (d.setMid pid none).interrupted pid
        else (false, d.setMid pid none)
      if ended.1 then (.error eintr, (ended.2.unlock .wr pid).fail pid failnote)
      else ended.2.writeLoop id pid data sofar (some true) failnote kick
  | _ => (d.setMid pid none).writeLoop id pid data 0 none failnote kick

end Qio

end Ipnx
