import Ipnx.Lib.Tally
import Ipnx.Name.Sandbox
import Ipnx.Qio.Closed

/-!
# The pipe device

`devpipe.rs`: an attach makes a pipe of two queues, and each of its ends reads one and writes the
other. A close of the last channel on an end hangs up the queue that the other end reads and closes
its own; when both ends are closed both queues are opened again. Beside the device stand the
channels on it, and for each pipe which ends were opened and closed since both were last closed,
and what has been read since an end closed.
-/

namespace Ipnx

open Function (update)

/-- `data` and `data1`. -/
inductive End
  | data | data1
deriving DecidableEq, Repr

namespace End

def other : End → End
  | data => data1
  | data1 => data

@[simp]
theorem other_other (e : End) : e.other.other = e := by
  cases e <;> rfl

theorem other_ne (e : End) : e.other ≠ e := by
  cases e <;> decide

theorem eq_or_other (e e' : End) : e' = e ∨ e' = e.other := by
  cases e <;> cases e' <;> simp [other]

def index : End → Nat
  | data => 0
  | data1 => 1

end End

/-- A pipe: the queue each end reads, and how many opens of each end there are. -/
structure Pipe where
  q : End → Queue
  qref : End → UInt32
  perm : UInt32

namespace Pipe

def new : Pipe := ⟨fun _ => .new pipeqsize, fun _ => 0, 0o600⟩

def setq (p : Pipe) (e : End) (q : Queue) : Pipe := { p with q := update p.q e q }

def setref (p : Pipe) (e : End) (n : UInt32) : Pipe :=
  { p with qref := update p.qref e n }

/-- One open less of an end; none stays none. -/
def drop (p : Pipe) (e : End) : Pipe := p.setref e (if p.qref e = 0 then 0 else p.qref e - 1)

/-- The queue the other end reads hung up, and the end's own closed. -/
def hangup (p : Pipe) (e : End) : Pipe :=
  (p.setq e.other (p.q e.other).hangup).setq e (p.q e).close

def reopen (p : Pipe) : Pipe := { p with q := fun e => (p.q e).reopen }

def close (p : Pipe) (e : End) : Pipe :=
  let p := p.drop e
  let p := if p.qref e = 0 then p.hangup e else p
  if p.qref .data = 0 ∧ p.qref .data1 = 0 then p.reopen else p

end Pipe

/-- A channel of the device: which pipe, its directory or one of its ends, and how it is open. -/
structure PipeChan where
  devno : Nat
  path : Option End
  mode : UInt16
  isOpen : Bool
deriving DecidableEq, Repr

structure PipeDev where
  pipes : List Pipe
  mid : Pid → Option At
  procs : Procs

namespace PipeDev

def nopipe : String := "no such pipe"

def attach (d : PipeDev) : PipeChan × PipeDev :=
  (⟨d.pipes.length, none, 0, false⟩, { d with pipes := d.pipes ++ [.new] })

def walk (c : PipeChan) (name : String) : Except String (Option PipeChan) :=
  match c.path with
  | some _ => .error "not a directory"
  | none => .ok <|
      if name = "data" then some ⟨c.devno, some .data, 0, false⟩
      else if name = "data1" then some ⟨c.devno, some .data1, 0, false⟩
      else if name = ".." ∨ name = "." then some ⟨c.devno, none, 0, false⟩
      else none

def setPipe (d : PipeDev) (devno : Nat) (p : Pipe) : PipeDev :=
  { d with pipes := d.pipes.set devno p }

/-- The directory opens only to read; an end counts the open. -/
def openChan (d : PipeDev) (c : PipeChan) (mode : UInt16) : Except String PipeChan × PipeDev :=
  match c.path with
  | none =>
      if mode ≠ 0 then (.error ebadarg, d) else (.ok { c with mode := mode, isOpen := true }, d)
  | some e =>
      match Name.NameKernel.openmode mode with
      | .error err => (.error err, d)
      | .ok m =>
          match d.pipes[c.devno]? with
          | none => (.error nopipe, d)
          | some p =>
              (.ok { c with mode := m, isOpen := true },
                d.setPipe c.devno (p.setref e (p.qref e + 1)))

def qid (devno : Nat) (e : End) : Qid3 := ⟨.pipe, devno, e.index⟩

def qio (d : PipeDev) (q : Queue) : Qio where
  q := q
  mid := d.mid
  procs := d.procs
  holders _ := []
  serial _ := 0
  queued := []

/-- The queue the end reads, and the processes, after a call on it. -/
def put (d : PipeDev) (devno : Nat) (p : Pipe) (e : End) (io : Qio) : PipeDev where
  pipes := d.pipes.set devno (p.setq e io.q)
  mid := io.mid
  procs := io.procs

def read (d : PipeDev) (pid : Pid) (devno : Nat) (e : End) (n : Nat) :
    Except String Bytes × PipeDev :=
  match d.pipes[devno]? with
  | none => (.error nopipe, d)
  | some p =>
      let r := (d.qio (p.q e)).qread (qid devno e) pid n noKick
      (r.1, d.put devno p e r.2)

/-- A write of an end is to the queue the other end reads. A mount's message channel posts no
note. -/
def write (d : PipeDev) (pid : Pid) (devno : Nat) (e : End) (data : Bytes) (mounted : Bool) :
    Except String Nat × PipeDev :=
  match d.pipes[devno]? with
  | none => (.error nopipe, d)
  | some p =>
      let r := (d.qio (p.q e.other)).qwrite (qid devno e.other) pid data
        (if mounted then none else some epipenote) noKick
      (r.1, d.put devno p e.other r.2)

def wakeboth (d : PipeDev) (devno : Nat) (e : End) : PipeDev :=
  { d with procs := ((d.procs.wakeup ((qid devno e).rendez .rd)).2.wakeup
      ((qid devno e).rendez .wr)).2 }

def close (d : PipeDev) (c : PipeChan) : PipeDev :=
  if !c.isOpen then d
  else
    match c.path with
    | none => d
    | some e =>
        match d.pipes[c.devno]? with
        | none => d
        | some p =>
            let hungup := (p.drop e).qref e = 0
            let d := d.setPipe c.devno (p.close e)
            if hungup then (d.wakeboth c.devno e.other).wakeboth c.devno e else d

end PipeDev

/-- Of a pipe since both its ends were last closed: the ends opened, and those closed for the last
time; what each end had to read when the other closed, and what it has read since. And the ends
that were not opened in the use before. -/
structure Use where
  opened : End → Bool
  gone : End → Bool
  owed : End → Bytes
  got : End → Bytes
  idle : End → Bool

namespace Use

def new : Use := ⟨fun _ => false, fun _ => false, fun _ => [], fun _ => [], fun _ => true⟩

/-- The last close of both ends. -/
def over_ (u : Use) : Use := { new with idle := fun e => !u.opened e }

def opens (u : Use) (e : End) : Use := { u with opened := update u.opened e true }

/-- The last close of an end, with what the other end has to read then. -/
def leaves (u : Use) (e : End) (rest : Bytes) : Use :=
  { u with
    gone := update u.gone e true
    owed := if u.gone e then u.owed else update u.owed e.other rest
    got := if u.gone e then u.got else update u.got e.other [] }

def reads (u : Use) (e : End) : Except String Bytes → Use
  | .ok b => { u with got := update u.got e (u.got e ++ b) }
  | .error _ => u

end Use

def Queue.bytes (q : Queue) : Bytes := (q.blocks.map Prod.fst).flatten

/-- The device, the channels made of it that are not closed, and the pipes' histories. -/
structure Plumbing where
  dev : PipeDev
  chans : List (Option PipeChan)
  use : Nat → Use

inductive PipeAct
  | attach
  | walk (c : Nat) (name : String)
  | openChan (c : Nat) (mode : UInt16)
  | close (c : Nat)
  | read (pid : Pid) (c n : Nat)
  | write (pid : Pid) (c : Nat) (data : Bytes) (mounted : Bool)
  | table (procs : Procs)

namespace Plumbing

def counted (i : Nat) (e : End) : Option PipeChan → Nat
  | some c => if c.isOpen ∧ c.devno = i ∧ c.path = some e then 1 else 0
  | none => 0

def opens (s : Plumbing) (i : Nat) (e : End) : Nat := tally (counted i e) s.chans

def chan (s : Plumbing) (c : Nat) : Option PipeChan := (s.chans[c]?).join

def setUse (s : Plumbing) (i : Nat) (u : Use) : Plumbing :=
  { s with use := update s.use i u }

/-- The history of a pipe after a close of an open channel on one of its ends. -/
def closedUse (s : Plumbing) (i : Nat) (e : End) : Use :=
  match s.dev.pipes[i]? with
  | none => s.use i
  | some p =>
      if s.opens i e ≠ 1 then s.use i
      else if s.opens i e.other = 0 then (s.use i).over_
      else (s.use i).leaves e (p.q e.other).bytes

/-- One thing that happens. A channel is opened once, and read and written while it is open. -/
def step (s : Plumbing) : PipeAct → Plumbing
  | .attach =>
      let r := s.dev.attach
      { s with dev := r.2, chans := s.chans ++ [some r.1] }
  | .walk c name =>
      match (s.chan c).map (PipeDev.walk · name) with
      | some (.ok (some c')) => { s with chans := s.chans ++ [some c'] }
      | _ => s
  | .openChan c mode =>
      match s.chan c with
      | none => s
      | some ch =>
          if ch.isOpen then s
          else
            match s.dev.openChan ch mode with
            | (.error _, _) => s
            | (.ok ch', d) =>
                let s := { s with dev := d, chans := s.chans.set c (some ch') }
                match ch.path with
                | none => s
                | some e => s.setUse ch.devno ((s.use ch.devno).opens e)
  | .close c =>
      match s.chan c with
      | none => s
      | some ch =>
          let s' := { s with dev := s.dev.close ch, chans := s.chans.set c none }
          match ch.isOpen, ch.path with
          | true, some e => s'.setUse ch.devno (s.closedUse ch.devno e)
          | _, _ => s'
  | .read pid c n =>
      match s.chan c with
      | some ⟨i, some e, _, true⟩ =>
          let r := s.dev.read pid i e n
          { s with dev := r.2 }.setUse i ((s.use i).reads e r.1)
      | _ => s
  | .write pid c data mounted =>
      match s.chan c with
      | some ⟨i, some e, _, true⟩ => { s with dev := (s.dev.write pid i e data mounted).2 }
      | _ => s
  | .table procs => { s with dev := { s.dev with procs := procs } }

def start (procs : Procs) : Plumbing := ⟨⟨[], fun _ => none, procs⟩, [], fun _ => .new⟩

def system : System Plumbing PipeAct where
  init s := ∃ procs, s = start procs
  step s a s' := s' = s.step a

end Plumbing

end Ipnx
