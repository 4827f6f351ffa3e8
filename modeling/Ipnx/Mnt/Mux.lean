import Ipnx.Lib.System
import Ipnx.Proc.Table

/-!
# The mount multiplexer

`Wire::rpc`: many processes send requests on one wire and one of them at a time reads the
replies, each put aside for the process that waits for it. An RPC that a note interrupts is
flushed, as often as notes come. The kernel has no stack to sleep on: a call that sleeps is
left and made again, and what it had on the wire is in its record.

A wire is named by its key. Messages are whole, as `mntrpcread` hands them on. Three fields
are no part of the kernel: `put`, `puts` and `re` say which of the requests written to a
wire an RPC, its flushes and a message are about. `on` and `finished` say which wire an RPC was
begun on, and that it has failed and the step of the record still stands.
-/

namespace Ipnx.Mnt

open Function (update update_of_ne update_self)

abbrev Tag := UInt16

/-- `NOTAG`, which `Tversion` goes with. -/
def notag : Tag := 0xffff

/-- A message from a server: its tag, and the request that it answers. -/
structure Msg where
  tag : Tag
  re : Nat
  deriving DecidableEq

/-- A request as it stands on a wire. A `Tflush` has the tag of the one it is for. -/
structure Req where
  tag : Tag
  oldtag : Option Tag
  deriving DecidableEq

/-- The flushes of an RPC, newest last; whether the newest has gone; and the RPC's own
reply, if it came first. -/
structure Flush where
  tags : List Tag
  sent : Bool
  got : Option Msg
  puts : List Nat

/-- `Step::Rpc`, for the RPC of a call that has no reply yet. -/
structure Rpc (κ : Type) where
  tag : Tag
  sent : Bool
  flush : Flush
  put : Option Nat
  on : κ
  finished : Bool

/-- A wire's reader, the outstanding RPCs by their tags, and the replies put aside. -/
structure Mux where
  rip : Option Pid
  queue : List (Tag × Option Pid)
  done : Tag → Option Msg
  tag : Tag

/-- Whether a process runs, sleeps at its own `Rid::Mntrpc`, or sleeps in a wire's device. One that
is not there runs. -/
inductive Status (κ : Type)
  | awake
  | mntrpc
  | reading (k : κ)
  | writing (k : κ)
  deriving DecidableEq

structure Mounts (κ : Type) where
  muxes : κ → Mux
  recs : Pid → Option (Rpc κ)
  status : Pid → Status κ
  notepending : Pid → Bool
  /-- The requests written to each wire so far. -/
  sent : κ → List Req
  /-- The messages from each wire's server so far, and how many have been read. -/
  told : κ → List Msg
  nread : κ → Nat
  /-- A wire that is hung up: its server writes nothing more. -/
  hungup : κ → Bool

/-- How a pass through `rpc` goes on: round the loop, asleep, or out of it with a reply. -/
inductive Outcome
  | again
  | slept
  | ended (reply : Except String Msg)

/-- What the wire's `write` answers, and whether the request went on the wire in this call
of it: one that sleeps or fails may have put it there. -/
inductive Io
  | ok
  | slept (put : Bool)
  | err (put : Bool) (e : String)

/-- What the wire's `read` answers: a message may be there. -/
inductive Rd
  | msg
  | slept
  | eintr
  | err (e : String)

namespace Rpc

variable {κ : Type}

def new (k : κ) (t : Tag) : Rpc κ where
  tag := t
  sent := false
  flush := ⟨[], false, none, []⟩
  put := none
  on := k
  finished := false

def tags (r : Rpc κ) : List Tag := r.tag :: r.flush.tags

def newest (r : Rpc κ) : Tag := r.flush.tags.getLast?.getD r.tag

/-- The request and the newest flush have gone. -/
def lined (r : Rpc κ) : Bool := r.sent && (r.flush.tags.isEmpty || r.flush.sent)

theorem sent_of_lined {r : Rpc κ} (lined : r.lined = true) : r.sent = true :=
  (Bool.and_eq_true_iff.1 lined).1

end Rpc

def Io.put : Io → Bool
  | .ok => true
  | .slept put | .err put _ => put

namespace Mux

def new : Mux := { rip := none, queue := [], done := fun _ => none, tag := 0 }

/-- The loop of `newtag`, which has seen every tag once the fuel is out. -/
def freeFrom (queue : List (Tag × Option Pid)) : Nat → Tag → Option Tag
  | 0, _ => none
  | fuel + 1, t =>
    if t + 1 ≠ notag ∧ ∀ e ∈ queue, e.1 ≠ t + 1 then some (t + 1)
    else freeFrom queue fuel (t + 1)

def nexttag (m : Mux) : Option Tag := freeFrom m.queue 65536 m.tag

def push (m : Mux) (t : Tag) (p : Pid) : Mux := { m with queue := m.queue ++ [(t, some p)] }

def undone (m : Mux) (t : Tag) : Mux := { m with done := update m.done t none }

end Mux

namespace Mounts

variable {κ : Type} [DecidableEq κ]

def new : Mounts κ where
  muxes _ := Mux.new
  recs _ := none
  status _ := .awake
  notepending _ := false
  sent _ := []
  told _ := []
  nread _ := 0
  hungup _ := false

def onMux (w : Mounts κ) (k : κ) (f : Mux → Mux) : Mounts κ :=
  { w with muxes := update w.muxes k (f (w.muxes k)) }

def setRec (w : Mounts κ) (p : Pid) (r : Option (Rpc κ)) : Mounts κ :=
  { w with recs := update w.recs p r }

def setStatus (w : Mounts κ) (p : Pid) (s : Status κ) : Mounts κ :=
  { w with status := update w.status p s }

section Fields

variable (w : Mounts κ) (k : κ) (f : Mux → Mux) (p : Pid) (r : Option (Rpc κ)) (s : Status κ)

@[simp]
theorem onMux_self : (w.onMux k f).muxes k = f (w.muxes k) := update_self ..

theorem onMux_other {k' : κ} (other : k' ≠ k) : (w.onMux k f).muxes k' = w.muxes k' :=
  update_of_ne other ..

@[simp]
theorem onMux_recs : (w.onMux k f).recs = w.recs := rfl

@[simp]
theorem onMux_status : (w.onMux k f).status = w.status := rfl

@[simp]
theorem onMux_sent : (w.onMux k f).sent = w.sent := rfl

omit [DecidableEq κ]

@[simp]
theorem setRec_sent : (w.setRec p r).sent = w.sent := rfl

@[simp]
theorem setStatus_sent : (w.setStatus p s).sent = w.sent := rfl

@[simp]
theorem setRec_muxes : (w.setRec p r).muxes = w.muxes := rfl

@[simp]
theorem setRec_self : (w.setRec p r).recs p = r := update_self ..

theorem setRec_other {q : Pid} (other : q ≠ p) : (w.setRec p r).recs q = w.recs q :=
  update_of_ne other ..

@[simp]
theorem setRec_status : (w.setRec p r).status = w.status := rfl

@[simp]
theorem setStatus_muxes : (w.setStatus p s).muxes = w.muxes := rfl

@[simp]
theorem setStatus_recs : (w.setStatus p s).recs = w.recs := rfl

@[simp]
theorem setStatus_self : (w.setStatus p s).status p = s := update_self ..

theorem setStatus_other {q : Pid} (other : q ≠ p) : (w.setStatus p s).status q = w.status q :=
  update_of_ne other ..

end Fields

/-- `Procs::wakeup(Rid::Mntrpc(p))`. -/
def wakeup (w : Mounts κ) (p : Pid) : Mounts κ :=
  if w.status p = .mntrpc then w.setStatus p .awake else w

def interrupted (w : Mounts κ) (p : Pid) : Mounts κ :=
  { w with notepending := update w.notepending p false }

def write (w : Mounts κ) (k : κ) (req : Req) : Mounts κ :=
  { w with sent := update w.sent k (w.sent k ++ [req]) }

def tell (w : Mounts κ) (k : κ) (m : Msg) : Mounts κ :=
  { w with told := update w.told k (w.told k ++ [m]) }

def read (w : Mounts κ) (k : κ) : Mounts κ :=
  { w with nread := update w.nread k (w.nread k + 1) }

@[simp]
theorem write_self (w : Mounts κ) (k : κ) (req : Req) :
    (w.write k req).sent k = w.sent k ++ [req] := update_self ..

theorem write_other (w : Mounts κ) (req : Req) {k k' : κ} (away : k' ≠ k) :
    (w.write k req).sent k' = w.sent k' := update_of_ne away ..

@[simp]
theorem write_muxes (w : Mounts κ) (k : κ) (req : Req) : (w.write k req).muxes = w.muxes := rfl

/-- `newtag`: none where every tag is on the queue, and the loop never ends. -/
def newtag (w : Mounts κ) (k : κ) : Option (Tag × Mounts κ) :=
  (w.muxes k).nexttag.map fun t => (t, w.onMux k ({ · with tag := t }))

/-- `gate`: the reader leaves, and the first RPC whose process waits is woken. -/
def gate (w : Mounts κ) (k : κ) : Mounts κ :=
  let left := w.onMux k ({ · with rip := none })
  match ((w.muxes k).queue.filterMap (·.2)).find? (fun p => w.status p = .mntrpc) with
  | some p => left.setStatus p .awake
  | none => left

/-- `finish`: the RPC is over, with its reply. -/
def finish (w : Mounts κ) (p : Pid) (m : Msg) : Mounts κ × Outcome :=
  (w.setRec p none, .ended (.ok m))

/-- `flush`: a `Tflush` for the RPC, on the queue and to be sent. -/
def flush (w : Mounts κ) (p : Pid) (k : κ) (r : Rpc κ) : Option (Mounts κ × Outcome) :=
  ((w.interrupted p).newtag k).map fun (f, w) =>
    ((w.onMux k (·.push f p)).setRec p
      (some { r with flush := { r.flush with tags := r.flush.tags ++ [f], sent := false } }),
    .again)

/-- `flushed`: the newest flush is answered. -/
def flushed (w : Mounts κ) (p : Pid) (k : κ) (r : Rpc κ) : Mounts κ × Outcome :=
  let off := w.onMux k fun m =>
    { m with
      queue := m.queue.filter fun e => e.1 ∉ r.tags
      done := fun t => if t ∈ r.tags then none else m.done t }
  (off.setRec p none, .ended (match r.flush.got with
    | some m => .ok m
    | none => .error eintr))

/-- `dropped`: the wire failed the RPC. Its step of the record has no reply still. -/
def dropped (w : Mounts κ) (p : Pid) (k : κ) (r : Rpc κ) (e : String) : Mounts κ × Outcome :=
  let off := w.onMux k fun m => { m with queue := m.queue.filter fun e => e.1 ∉ r.tags }
  let left := if (w.muxes k).rip = some p then off.gate k else off
  (left.setRec p (some { r with finished := true }), .ended (.error e))

/-- The top of `rpc`, for a request: one whose step of the record has no reply yet is taken
to be under way. -/
def rpc (w : Mounts κ) (p : Pid) (k : κ) (version : Bool) : Option (Mounts κ) :=
  match w.recs p with
  | some r => some (w.setRec p (some { r with put := none, on := k, finished := false }))
  | none =>
    if version then some (w.setRec p (some (.new k notag)))
    else (w.newtag k).map fun (t, w) => w.setRec p (some (.new k t))

/-- `if !sent`: the request is written, and queued once the write has returned. -/
def send (w : Mounts κ) (p : Pid) (k : κ) (io : Io) : Option (Mounts κ × Outcome) :=
  match w.recs p with
  | none => none
  | some r =>
    if r.sent then none else
    let goes := io.put && r.put.isNone
    let r' := if goes then { r with put := some (w.sent k).length } else r
    let w' := if goes then w.write k ⟨r.tag, none⟩ else w
    match io with
    | .ok => some ((w'.onMux k (·.push r.tag p)).setRec p (some { r' with sent := true }), .again)
    | .slept _ => some ((w'.setRec p (some r')).setStatus p (.writing k), .slept)
    | .err _ e => some (w'.setRec p (some { r' with finished := true }), .ended (.error e))

/-- The top of the loop: a `Tflush` made and not yet on the wire. -/
def sendflush (w : Mounts κ) (p : Pid) (k : κ) (io : Io) : Option (Mounts κ × Outcome) :=
  match w.recs p with
  | none => none
  | some r =>
    match r.flush.tags.getLast? with
    | none => none
    | some f =>
      if !r.sent || r.flush.sent then none else
      let goes := io.put && r.flush.puts.length < r.flush.tags.length
      let r' :=
        if goes then
          { r with flush := { r.flush with puts := r.flush.puts ++ [(w.sent k).length] } }
        else r
      let w' := if goes then w.write k ⟨f, some r.tag⟩ else w
      match io with
      | .ok => some (w'.setRec p (some { r' with flush := { r'.flush with sent := true } }), .again)
      | .slept _ => some ((w'.setRec p (some r')).setStatus p (.writing k), .slept)
      | .err _ e => some (w'.dropped p k r' e)

/-- `mountmux`: the reply goes to its RPC. -/
def mountmux (w : Mounts κ) (p : Pid) (k : κ) (r : Rpc κ) (m : Msg) : Mounts κ × Outcome :=
  let owner := (w.muxes k).queue.find? (·.1 == m.tag)
  let off := w.onMux k fun mux => { mux with queue := mux.queue.eraseP (·.1 == m.tag) }
  if m.tag = r.tag then
    if r.flush.tags = [] then (off.gate k).finish p m
    else (off.setRec p (some { r with flush := { r.flush with got := some m } }), .again)
  else if r.flush.tags.getLast? = some m.tag then (off.gate k).flushed p k r
  else if m.tag ∈ r.flush.tags then (off, .again)
  else
    match owner with
    | some (_, some q) =>
        ((off.onMux k fun mux => { mux with done := update mux.done m.tag (some m) }).wakeup q,
          .again)
    | _ => (off, .again)

def mntrpcread (w : Mounts κ) (p : Pid) (k : κ) (r : Rpc κ) : Rd → Option (Mounts κ × Outcome)
  | .slept => some (w.setStatus p (.reading k), .slept)
  | .eintr => (w.gate k).flush p k r
  | .err e => some (w.dropped p k r e)
  | .msg =>
    match (w.told k)[w.nread k]? with
    | none => none
    | some m => some ((w.read k).mountmux p k r m)

/-- `m->rip`: one reader at a time. -/
def reader (w : Mounts κ) (p : Pid) (k : κ) (r : Rpc κ) (rd : Rd) : Option (Mounts κ × Outcome) :=
  if ∀ q, (w.muxes k).rip = some q → q = p then
    (w.onMux k ({ · with rip := some p })).mntrpcread p k r rd
  else if w.notepending p then w.flush p k r
  else some (w.setStatus p .mntrpc, .slept)

/-- What `mountmux` put aside for the RPC: the newest flush's answer ends it. -/
def answered (w : Mounts κ) (p : Pid) (k : κ) (r : Rpc κ) (rd : Rd) : Option (Mounts κ × Outcome) :=
  if r.flush.tags ≠ [] ∧ ((w.muxes k).done r.newest).isSome then some (w.flushed p k r)
  else w.reader p k r rd

/-- The loop of `rpc` once, what it has to send being sent. -/
def mountio (w : Mounts κ) (p : Pid) (k : κ) (rd : Rd) : Option (Mounts κ × Outcome) :=
  match w.recs p with
  | none => none
  | some r =>
    if r.lined then
      match (w.muxes k).done r.tag with
      | none => w.answered p k r rd
      | some m =>
        let taken := w.onMux k (·.undone r.tag)
        if r.flush.tags = [] then some (taken.finish p m)
        else
          let r' := { r with flush := { r.flush with got := some m } }
          (taken.setRec p (some r')).answered p k r' rd
    else none

/-- `endcall`; `fid` and `once` cut a record short in the same way. -/
def endcall (w : Mounts κ) (p : Pid) : Mounts κ := w.setRec p none

/-- Nobody waits for the replies of a process that is gone. -/
def orphan (p : Pid) (m : Mux) : Mux :=
  { m with queue := m.queue.map fun e => if e.2 = some p then (e.1, none) else e }

/-- `forget` at one wire: if the process was reading it, the next may. -/
def forgetAt (p : Pid) (w : Mounts κ) (k : κ) : Mounts κ :=
  let off := w.onMux k (orphan p)
  if (w.muxes k).rip = some p then off.gate k else off

/-- `forget`, the table's keys taken in some order. -/
def forget (w : Mounts κ) (p : Pid) (keys : List κ) : Mounts κ :=
  keys.foldl (forgetAt p) (w.setRec p none)

end Mounts

inductive MntAct (κ : Type)
  | rpc (p : Pid) (k : κ) (version : Bool)
  | send (p : Pid) (k : κ) (io : Io)
  | sendflush (p : Pid) (k : κ) (io : Io)
  | mountio (p : Pid) (k : κ) (rd : Rd)
  | endcall (p : Pid)
  /-- A process dies. -/
  | forget (p : Pid) (keys : List κ)
  /-- A note comes for a process. It wakes one at its `Rid::Mntrpc`. -/
  | note (p : Pid)
  /-- A process takes its note. -/
  | interrupted (p : Pid)
  /-- A process asleep in a wire's device is woken there. -/
  | wake (p : Pid)
  /-- A wire's server writes a message. -/
  | reply (k : κ) (m : Msg)
  | hangup (k : κ)

namespace Mounts

variable {κ : Type} [DecidableEq κ]

/-- What each does, and to where it leads: nothing where it cannot happen. -/
def step (w : Mounts κ) : MntAct κ → Option (Mounts κ)
  | .rpc p k version => if w.status p = .awake then w.rpc p k version else none
  | .send p k io => if w.status p = .awake then (w.send p k io).map (·.1) else none
  | .sendflush p k io => if w.status p = .awake then (w.sendflush p k io).map (·.1) else none
  | .mountio p k rd => if w.status p = .awake then (w.mountio p k rd).map (·.1) else none
  | .endcall p => some (w.endcall p)
  | .forget p keys => some ((w.forget p keys).setStatus p .awake)
  | .note p => some ({ w with notepending := update w.notepending p true }.wakeup p)
  | .interrupted p => some (w.interrupted p)
  | .wake p =>
    match w.status p with
    | .reading _ | .writing _ => some (w.setStatus p .awake)
    | _ => none
  | .reply k m => if w.hungup k then none else some (w.tell k m)
  | .hangup k => some { w with hungup := update w.hungup k true }

/-- The keys are the table's. -/
def Keyed (w : Mounts κ) : MntAct κ → Prop
  | .forget _ keys => ∀ k, k ∉ keys → w.muxes k = Mux.new
  | _ => True

def mounts : System (Mounts κ) (MntAct κ) where
  init w := w = new
  step w a w' := w.step a = some w' ∧ w.Keyed a

end Mounts

end Ipnx.Mnt
