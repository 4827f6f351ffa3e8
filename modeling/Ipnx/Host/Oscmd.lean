import Ipnx.Lib.Keyed
import Ipnx.Lib.System
import Ipnx.Ninep.Dir

/-!
# The host's commands

`hosts/ipnx/src/oscmd.rs`: a 9P server through which a command of the host's is reached. A
conversation is a command, its files its streams and its status, and a number that is free again
once the conversation is forgotten. The command starts at the attach. Threads read and write the
command's pipes and wait for it, one for each, and what they say names the conversation by its
number. What a thread does on the host, and whether a command starts, is the host's.
-/

namespace Ipnx.Host.Oscmd

open Ipnx.Ninep (W R Msg T Dir utf8)
open Ipnx.Name (Qid qtdir)
open Function (update)

def msizeMax : UInt32 := 8192 + 24

def enonexist : String := "file does not exist"
def eperm : String := "permission denied"
def ehungup : String := "i/o on hungup channel"

inductive Q
  | dir | data | stderr | wait
deriving DecidableEq, Repr

def Q.num : Q → UInt64
  | .dir => 3
  | .data => 4
  | .stderr => 5
  | .wait => 8

def Q.qid (q : Q) (conv : UInt32) : Qid :=
  ⟨if q = .dir then qtdir else 0, 0, (conv.toUInt64 <<< 4) ||| q.num⟩

def oread : UInt8 := 0
def owrite : UInt8 := 1
def ordwr : UInt8 := 2

structure Fid where
  conv : UInt32
  q : Q
  mode : Option UInt8
deriving DecidableEq, Repr

inductive Out
  | out | err
deriving DecidableEq, Repr

/-- A stream, and the reads of it that wait. `ask` is the command whose thread reads it. -/
structure Stream where
  ask : Option Nat
  asked : Bool
  left : Bytes
  eof : Bool
  held : List (UInt16 × UInt32)
deriving DecidableEq, Repr

def Stream.new : Stream := ⟨none, false, [], false, []⟩

structure Cmd where
  argv : List Bytes
  env : List Bytes
  dir : Option Bytes
  nice : Bool
deriving DecidableEq, Repr

/-- A conversation. `count` is of its opens: of its input for writing, and of its streams for
reading. -/
structure Conv where
  owner : String
  child : Option Nat
  killed : Bool
  bg : Bool
  inuse : Nat
  inp : Nat
  count : Out → Nat
  stdin : Option Nat
  out : Out → Stream
  status : List Bytes
  waiting : List (UInt16 × UInt32)
  cmd : Option Cmd

/-- A conversation for a command that has not started, held by the host's call. -/
def Conv.new (cmd : Cmd) (bg : Bool) : Conv where
  owner := ""
  child := none
  killed := false
  bg := bg
  inuse := 1
  inp := 0
  count _ := 0
  stdin := none
  out _ := .new
  status := []
  waiting := []
  cmd := some cmd

/-- A command and its threads on the host: the number they say, the readers that have not met the
end and what each has been asked for, what is to be written, and whether the command is waited for.
And what the reads have brought, and the record of its end. -/
structure Threads where
  cmd : Cmd
  conv : UInt32
  reads : Out → Bool
  asks : Out → List Nat
  writes : List (UInt16 × Bytes)
  waits : Bool
  brought : Out → Bytes
  ended : List Bytes

namespace Threads

def new (cmd : Cmd) (n : UInt32) : Threads :=
  ⟨cmd, n, fun _ => true, fun _ => [], [], true, fun _ => [], []⟩

/-- A read has come back. At the end the reader is gone, and what it was asked for with it. -/
def fetched (t : Threads) (i : Out) (r : Except String Bytes) : Threads :=
  match r with
  | .ok [] =>
      { t with
        reads := update t.reads i false
        asks := update t.asks i [] }
  | .ok b =>
      { t with
        asks := update t.asks i (t.asks i).tail
        brought := update t.brought i (t.brought i ++ b) }
  | .error _ => { t with asks := update t.asks i (t.asks i).tail }

end Threads

inductive Answer
  | version (msize : UInt32) (v : String)
  | error (e : String)
  | attach (qid : Qid)
  | walk (qids : List Qid)
  | opened (qid : Qid) (iounit : UInt32)
  | read (b : Bytes)
  | write (n : UInt32)
  | stat (b : Bytes)
  | flush
  | clunk
deriving DecidableEq, Repr

def Answer.frame (tag : UInt16) : Answer → Bytes
  | .version msize v => ((W.new.u32 msize).s v).frame T.version.reply tag
  | .error e => (W.new.s e).frame T.error.code tag
  | .attach qid => (W.new.qid qid).frame T.attach.reply tag
  | .walk qids => (qids.foldl W.qid (W.new.u16 (.ofNat qids.length))).frame T.walk.reply tag
  | .opened qid iounit => ((W.new.qid qid).u32 iounit).frame T.open.reply tag
  | .read b => ((W.new.u32 (.ofNat b.length)).raw b).frame T.read.reply tag
  | .write n => (W.new.u32 n).frame T.write.reply tag
  | .stat b => ((W.new.u16 (.ofNat b.length)).raw b).frame T.stat.reply tag
  | .flush => W.new.frame T.flush.reply tag
  | .clunk => W.new.frame T.clunk.reply tag

/-- The server, the threads of the commands it has started, and the commands whose process groups
it has signalled. -/
structure State where
  convs : UInt32 → Option Conv
  fids : Keyed UInt32 Fid
  writes : UInt16 → Bool
  done : List (UInt16 × Answer)
  threads : Nat → Threads
  started : Nat
  signals : List Nat

/-- What reads of a conversation's files are answered with: the bytes of its streams, and the
records of its status. -/
structure Given where
  conv : UInt32
  bytes : Out → Bytes
  recs : List Bytes

namespace Stream

/-- The reads that can be answered now, and what the host is asked for the one that waits. `alive`
is whether the thread that reads the stream has not met the end. -/
def serve (alive : Bool) (s : Stream) :
    List (UInt16 × UInt32) → List (UInt16 × Bytes) × Option Nat × Stream
  | [] => ([], none, { s with held := [] })
  | (tag, count) :: rest =>
      if s.left ≠ [] then
        let k := min count.toNat s.left.length
        let r := serve alive { s with left := s.left.drop k } rest
        ((tag, s.left.take k) :: r.1, r.2)
      else if s.eof ∨ s.ask = none then
        let r := serve alive s rest
        ((tag, []) :: r.1, r.2)
      else if s.asked then ([], none, { s with held := (tag, count) :: rest })
      else if alive then
        ([], some (max (min count (msizeMax - 24)).toNat 1),
          { s with asked := true, held := (tag, count) :: rest })
      else
        -- the reader is gone: its pipe has ended
        let r := serve alive { s with eof := true } rest
        ((tag, []) :: r.1, r.2)

/-- What a read of the host's brings: its bytes, or the end; an error is the first read's that
waits. -/
def take (s : Stream) (r : Except String Bytes) : List (UInt16 × Answer) × Stream :=
  let s := { s with asked := false }
  match r with
  | .ok b => ([], if b = [] then { s with eof := true } else { s with left := s.left ++ b })
  | .error e => (s.held.head?.toList.map fun h => (h.1, .error e), { s with held := s.held.tail })

end Stream

namespace State

variable (s : State)

def setConv (n : UInt32) (c : Option Conv) : State :=
  { s with convs := update s.convs n c }

@[simp]
theorem setConv_setConv (n : UInt32) (c c' : Option Conv) :
    (s.setConv n c).setConv n c' = s.setConv n c' := by
  simp only [setConv, Function.update_idem]

def setThreads (id : Nat) (t : Threads) : State :=
  { s with threads := update s.threads id t }

def setStream (n : UInt32) (c : Conv) (i : Out) (str : Stream) : State :=
  s.setConv n (some { c with out := update c.out i str })

/-- The thread that reads a stream has not met the end. -/
def alive (str : Stream) (i : Out) : Bool := str.ask.any fun id => (s.threads id).reads i

/-- The host is asked for a read of a stream. -/
def askFor (str : Stream) (i : Out) (want : Option Nat) : State :=
  match str.ask, want with
  | some id, some n =>
      let t := s.threads id
      s.setThreads id { t with asks := update t.asks i (t.asks i ++ [n]) }
  | _, _ => s

/-- The reads of a stream of a conversation answered as far as they can be. -/
def serve (n : UInt32) (c : Conv) (i : Out) (str : Stream) : List (UInt16 × Bytes) × State :=
  let r := str.serve (s.alive str i) str.held
  (r.1, (s.askFor str i r.2.1).setStream n c i r.2.2)

def given (n : UInt32) (i : Out) (replies : List (UInt16 × Bytes)) : Given :=
  ⟨n, update (fun _ => []) i (replies.map Prod.snd).flatten, []⟩

def reading (replies : List (UInt16 × Bytes)) : List (UInt16 × Answer) :=
  replies.map fun r => (r.1, .read r.2)

def fetched (n : UInt32) (i : Out) (r : Except String Bytes) : Option Given × State :=
  match s.convs n with
  | none => (none, s)
  | some c =>
      let taken := (c.out i).take r
      let c := { c with out := update c.out i taken.2 }
      let served := s.serve n c i taken.2
      (some (given n i served.1),
        { served.2 with done := s.done ++ taken.1 ++ reading served.1 })

def wrote (tag : UInt16) (r : Except String Nat) : State :=
  if s.writes tag then
    let answer : Answer :=
      match r with
      | .ok k => if k = 0 then .error ehungup else .write (.ofNat k)
      | .error e => .error e
    { s with writes := update s.writes tag false, done := s.done ++ [(tag, answer)] }
  else s

/-- A record, as much of it as was asked for. -/
def waitreply (record : Bytes) (count : UInt32) : Answer := .read (record.take count.toNat)

/-- The waiting reads of `wait` that there are records for: the replies, the records given, and
what is left of either. -/
def waited : List Bytes → List (UInt16 × UInt32) →
    List (UInt16 × Answer) × List Bytes × List Bytes × List (UInt16 × UInt32)
  | record :: status, (tag, count) :: waiting =>
      let r := waited status waiting
      ((tag, waitreply record count) :: r.1, record :: r.2.1, r.2.2.1, r.2.2.2)
  | status, waiting => ([], [], status, waiting)

def exited (n : UInt32) (record : Bytes) : Option Given × State :=
  match s.convs n with
  | none => (none, s)
  | some c =>
      let c := { c with child := none }
      if c.inuse = 0 then (none, s.setConv n none)
      else
        let r := waited (c.status ++ [record]) c.waiting
        (some ⟨n, fun _ => [], r.2.1⟩,
          { s.setConv n (some { c with status := r.2.2.1, waiting := r.2.2.2 }) with
            done := s.done ++ r.1 })

/-- One fewer hold of a conversation; `wait` is whether it was its `wait` file. -/
def letgo (n : UInt32) (wait : Bool) : State :=
  match s.convs n with
  | none => s
  | some c =>
      let c := { c with inuse := c.inuse - 1 }
      match c.child with
      | some id =>
          if !c.killed ∧ !c.bg ∧ (c.inuse = 0 ∨ wait) then
            { s.setConv n (some { c with killed := true }) with signals := s.signals ++ [id] }
          else s.setConv n (some c)
      | none => if c.inuse = 0 then s.setConv n none else s.setConv n (some c)

end State

namespace Conv

def inpclose (c : Conv) : Conv :=
  let n := c.inp - 1
  { c with inp := n, stdin := if n = 0 then none else c.stdin }

def outclose (c : Conv) (i : Out) : Conv :=
  let n := c.count i - 1
  { c with
    count := update c.count i n
    out := if n = 0 then update c.out i { c.out i with ask := none } else c.out }

def writing (mode : UInt8) : Bool := mode == owrite || mode == ordwr
def reading (mode : UInt8) : Bool := mode == oread || mode == ordwr

/-- What an open file's counts are once it is closed. -/
def fdclose (c : Conv) (q : Q) (mode : UInt8) : Conv :=
  match q with
  | .data =>
      let c := if writing mode then c.inpclose else c
      if reading mode then c.outclose .out else c
  | .stderr => c.outclose .err
  | _ => c

def fdopen (c : Conv) (q : Q) (mode : UInt8) : Conv :=
  match q with
  | .data =>
      { c with
        inp := if writing mode then c.inp + 1 else c.inp
        count := if reading mode then update c.count .out (c.count .out + 1) else c.count
        inuse := c.inuse + 1 }
  | .stderr =>
      { c with count := update c.count .err (c.count .err + 1), inuse := c.inuse + 1 }
  | .wait => { c with inuse := c.inuse + 1 }
  | .dir => c

/-- Its command runs, and reads and writes its pipes. -/
def running (c : Conv) (id : Nat) : Conv :=
  { c with
    cmd := none
    child := some id
    stdin := some id
    out := fun i => { c.out i with ask := some id } }

/-- It is its first attacher's. -/
def owned (c : Conv) (uname : String) : Conv :=
  if c.owner = "" then { c with owner := uname } else c

end Conv

namespace State

variable (s : State)

def clunked (f : Fid) : State :=
  match f.mode with
  | none => s
  | some mode =>
      if f.q = .dir then s
      else
        let s :=
          match s.convs f.conv with
          | none => s
          | some c => s.setConv f.conv (some (c.fdclose f.q mode))
        s.letgo f.conv (f.q = .wait)

/-- Whichever queue holds the request lets it go. -/
def flush (old : UInt16) : State :=
  { s with
    writes := update s.writes old false
    convs := fun n => (s.convs n).map fun c =>
      { c with
        waiting := c.waiting.filter (·.1 ≠ old)
        out := fun i => { c.out i with held := (c.out i).held.filter (·.1 ≠ old) } } }

/-- A conversation for a command, at a number that is free. -/
def start (n : UInt32) (cmd : Cmd) (bg : Bool) : State := s.setConv n (some (.new cmd bg))

def spawn (n : UInt32) (c : Conv) (cmd : Cmd) : State :=
  { s.setConv n (some (c.running s.started)) with
    threads := update s.threads s.started (.new cmd n)
    started := s.started + 1 }

/-- A fid names a conversation's directory, or a file of it. -/
def naming (fid n : UInt32) (q : Q) : State :=
  { s with fids := (s.fids.erase fid).insert fid ⟨n, q, none⟩ }

/-- The attach of a conversation starts its command, if the host does; `refused` is why it does
not. -/
def attach (n : UInt32) (refused : Option String) : Except String Unit × State :=
  match s.convs n with
  | none => (.ok (), s)
  | some c =>
      match c.cmd with
      | none => (.ok (), s)
      | some cmd =>
          match refused with
          | some e => (.error e, s.setConv n none)
          | none => (.ok (), s.spawn n c cmd)

/-- What the next name of a walk leads to. -/
def next (q : Q) (name : String) : Option Q :=
  match q with
  | .dir =>
      if name = "data" then some .data
      else if name = "stderr" then some .stderr
      else if name = "wait" then some .wait
      else if name = ".." ∨ name = "." then some .dir
      else none
  | _ => none

/-- The names of a walk, as many as `n` and as many as can be read; or that the message is
short. -/
def walkNames (conv : UInt32) : Nat → List String → Q → List Qid → Option (Q × List Qid)
  | 0, _, q, qids => some (q, qids)
  | _ + 1, [], _, _ => none
  | n + 1, name :: names, q, qids =>
      match next q name with
      | none => some (q, qids)
      | some q => walkNames conv n names q (qids ++ [q.qid conv])

def dirof (conv : UInt32) (q : Q) : Dir :=
  let owner := ((s.convs conv).map Conv.owner).getD ""
  let named : String × UInt32 :=
    match q with
    | .dir => (toString conv.toNat, 0x80000000 ||| 0o555)
    | .data => ("data", 0o660)
    | .stderr => ("stderr", 0o444)
    | .wait => ("wait", 0o444)
  ⟨67, 0, q.qid conv, named.2, 0, 0, 0, named.1, owner, owner, owner⟩

def tattach (fid : UInt32) (uname : String) (n : Option UInt32) (refused : Option String) :
    Answer × State :=
  match n with
  | none => (.error enonexist, s)
  | some n =>
      match s.convs n with
      | none => (.error enonexist, s)
      | some _ =>
          match s.attach n refused with
          | (.error e, s) => (.error e, s)
          | (.ok (), s) =>
              (.attach (Q.dir.qid n),
                (s.setConv n ((s.convs n).map (·.owned uname))).naming fid n .dir)

def twalk (src newfid : UInt32) (nw : Nat) (names : List String) : Answer × State :=
  match s.fids.find src with
  | none => (.error "unknown fid", s)
  | some f =>
      match walkNames f.conv nw names f.q [] with
      | none => (.error "short Twalk", s)
      | some (q, qids) =>
          if qids = [] ∧ 0 < nw then (.error enonexist, s)
          else
            (.walk qids,
              if qids.length = nw then s.naming newfid f.conv q else s)

def topen (fid : UInt32) (mode : UInt8) : Answer × State :=
  match s.fids.find fid with
  | none => (.error "unknown fid", s)
  | some f =>
      let omode := mode &&& 3
      match s.convs f.conv with
      | none => (.error enonexist, s)
      | some c =>
          if (f.q = .dir ∨ f.q = .stderr) ∧ omode ≠ oread then (.error eperm, s)
          else
            (.opened (f.q.qid f.conv) (msizeMax - 24),
              { s.setConv f.conv (some (c.fdopen f.q omode)) with
                fids := (s.fids.erase fid).insert fid { f with mode := some omode } })

/-- A read of a stream: it waits behind those before it. -/
def tstream (n : UInt32) (c : Conv) (i : Out) (tag : UInt16) (count : UInt32) :
    Option Answer × Option Given × State :=
  let str := { c.out i with held := (c.out i).held ++ [(tag, count)] }
  let r := s.serve n c i str
  -- if answered, its reply is the answer, and the others are done
  (((r.1.find? (·.1 = tag)).map fun a => .read a.2), some (given n i r.1),
    { r.2 with done := s.done ++ reading (r.1.eraseP (·.1 = tag)) })

def twait (n : UInt32) (c : Conv) (tag : UInt16) (count : UInt32) :
    Option Answer × Option Given × State :=
  match c.status, c.waiting with
  | record :: status, [] =>
      (some (waitreply record count), some ⟨n, fun _ => [], [record]⟩,
        s.setConv n (some { c with status := status }))
  | _, waiting =>
      (none, none, s.setConv n (some { c with waiting := waiting ++ [(tag, count)] }))

def tread (tag : UInt16) (fid : UInt32) (off : UInt64) (count : UInt32) :
    Option Answer × Option Given × State :=
  match s.fids.find fid with
  | none => (some (.error "unknown fid"), none, s)
  | some f =>
      match f.mode with
      | none => (some (.error "fid not open"), none, s)
      | some mode =>
          match f.q with
          | .dir =>
              let all := ([Q.data, .stderr, .wait].map fun q => (s.dirof f.conv q).convD2M).flatten
              let from_ := min off.toNat all.length
              (some (.read ((all.drop from_).take count.toNat)), none, s)
          | .wait =>
              match s.convs f.conv with
              | none => (some (.error enonexist), none, s)
              | some c => s.twait f.conv c tag count
          | q =>
              if mode = owrite then (some (.error eperm), none, s)
              else
                match s.convs f.conv with
                | none => (some (.error enonexist), none, s)
                | some c => s.tstream f.conv c (if q = .data then .out else .err) tag count

def twrite (tag : UInt16) (fid : UInt32) (data : Bytes) : Option Answer × State :=
  match s.fids.find fid with
  | none => (some (.error "unknown fid"), s)
  | some f =>
      if f.q ≠ .data ∨ f.mode.all (!Conv.writing ·) then (some (.error eperm), s)
      else
        match s.convs f.conv with
        | none => (some (.error enonexist), s)
        | some c =>
            match c.stdin with
            | none => (some (.error ehungup), s)
            | some id =>
                -- the thread takes what it is sent for as long as `stdin` is there
                let t := s.threads id
                (none, { s.setThreads id { t with writes := t.writes ++ [(tag, data)] } with
                  writes := update s.writes tag true })

def tstat (fid : UInt32) : Answer :=
  match s.fids.find fid with
  | none => .error "unknown fid"
  | some f => .stat (s.dirof f.conv f.q).convD2M

def forget (fid : Option UInt32) : State :=
  match fid with
  | none => s
  | some fid =>
      match s.fids.find fid with
      | none => s
      | some f => { s with fids := s.fids.erase fid }.clunked f

end State

inductive Request
  | version (msize : UInt32) (v : String)
  | auth
  | attach (fid : UInt32) (uname : String) (n : Option UInt32)
  | walk (src newfid : UInt32) (nw : Nat) (names : List String)
  | open (fid : UInt32) (mode : UInt8)
  | create
  | remove (fid : Option UInt32)
  | wstat
  | read (fid : UInt32) (off : UInt64) (count : UInt32)
  | write (fid : UInt32) (data : Bytes)
  | stat (fid : UInt32)
  | flush (old : Option UInt16)
  | clunk (fid : Option UInt32)
  | short (what : String)
  | other
deriving DecidableEq, Repr

namespace Request

/-- A number as `parse` takes it: digits, after a plus sign if there is one. -/
def number (s : String) : Option UInt32 :=
  let digits := match s.toList with
    | '+' :: rest => rest
    | all => all
  if digits = [] ∨ digits.any (!Char.isDigit ·) then none
  else
    let n := digits.foldl (fun n d => n * 10 + (d.toNat - 48)) 0
    if n < 2 ^ 32 then some (.ofNat n) else none

def names : Nat → Bytes → List String
  | 0, _ => []
  | n + 1, b =>
      match R.s.on b with
      | (some name, rest) => name :: names n rest
      | (none, _) => []

def ofAttach (b : Bytes) : Request :=
  match (do
    let fid ← R.u32
    let _ ← R.u32
    let uname ← R.s
    let aname ← R.s
    pure (fid, uname, aname) : R (UInt32 × String × String)).on b with
  | (some (fid, uname, aname), _) => .attach fid uname (number aname)
  | (none, _) => .short "short Tattach"

def ofWalk (b : Bytes) : Request :=
  match (do
    let src ← R.u32
    let newfid ← R.u32
    let nw ← R.u16
    pure (src, newfid, nw) : R (UInt32 × UInt32 × UInt16)).on b with
  | (some (src, newfid, nw), rest) => .walk src newfid nw.toNat (names nw.toNat rest)
  | (none, _) => .short "short Twalk"

def ofOpen (b : Bytes) : Request :=
  match (do
    let fid ← R.u32
    let mode ← R.u8
    pure (fid, mode) : R (UInt32 × UInt8)).on b with
  | (some (fid, mode), _) => .open fid mode
  | (none, _) => .short "short Topen"

def io : R (UInt32 × UInt64 × UInt32) := do
  let fid ← R.u32
  let off ← R.u64
  let count ← R.u32
  pure (fid, off, count)

def ofRead (b : Bytes) : Request :=
  match io.on b with
  | (some (fid, off, count), _) => .read fid off count
  | (none, _) => .short "short Tread"

def ofWrite (b : Bytes) : Request :=
  match io.on b with
  | (some (fid, _, count), rest) => .write fid (rest.take count.toNat)
  | (none, _) => .short "short Twrite"

def ofStat (b : Bytes) : Request :=
  match R.u32.on b with
  | (some fid, _) => .stat fid
  | (none, _) => .short "short Tstat"

def ofVersion (b : Bytes) : Request :=
  let msize := R.u32.on b
  .version (msize.1.getD msizeMax) ((R.s.on msize.2).1.getD "")

def of (m : Msg) : Request :=
  if m.ty = T.version.code then ofVersion m.body
  else if m.ty = T.auth.code then .auth
  else if m.ty = T.attach.code then ofAttach m.body
  else if m.ty = T.walk.code then ofWalk m.body
  else if m.ty = T.open.code then ofOpen m.body
  else if m.ty = T.create.code then .create
  else if m.ty = T.remove.code then .remove (R.u32.on m.body).1
  else if m.ty = T.wstat.code then .wstat
  else if m.ty = T.read.code then ofRead m.body
  else if m.ty = T.write.code then ofWrite m.body
  else if m.ty = T.stat.code then ofStat m.body
  else if m.ty = T.flush.code then .flush (R.u16.on m.body).1
  else if m.ty = T.clunk.code then .clunk (R.u32.on m.body).1
  else .other

theorem ty_of_flush {m : Msg} {old : Option UInt16} (eq : of m = .flush old) :
    m.ty = T.flush.code := by
  have attach : ofAttach m.body ≠ .flush old := by unfold ofAttach; split <;> nofun
  have walk : ofWalk m.body ≠ .flush old := by unfold ofWalk; split <;> nofun
  have opened : ofOpen m.body ≠ .flush old := by unfold ofOpen; split <;> nofun
  have read : ofRead m.body ≠ .flush old := by unfold ofRead; split <;> nofun
  have write : ofWrite m.body ≠ .flush old := by unfold ofWrite; split <;> nofun
  have stat : ofStat m.body ≠ .flush old := by unfold ofStat; split <;> nofun
  have either {p : Prop} [Decidable p] {a b : Request} (first : a ≠ .flush old)
      (second : b ≠ .flush old) : (if p then a else b) ≠ .flush old := by
    split
    · exact first
    · exact second
  by_contra other
  refine absurd eq ?_
  simp only [of, other, if_false]
  exact either nofun (either nofun (either attach (either walk (either opened (either nofun
    (either nofun (either nofun (either read (either write (either stat
      (either nofun nofun)))))))))))

end Request

namespace State

variable (s : State)

/-- A request: its answer, unless it waits; what it gives of a conversation's files; and the
server after it. -/
def submit (tag : UInt16) (refused : Option String) :
    Request → Option Answer × Option Given × State
  | .version msize v =>
      (some (.version (min msize msizeMax)
        (if "9P2000".toList <+: v.toList then "9P2000" else "unknown")), none, s)
  | .auth => (some (.error "authentication not required"), none, s)
  | .attach fid uname n =>
      let r := s.tattach fid uname n refused
      (some r.1, none, r.2)
  | .walk src newfid nw names =>
      let r := s.twalk src newfid nw names
      (some r.1, none, r.2)
  | .open fid mode =>
      let r := s.topen fid mode
      (some r.1, none, r.2)
  | .create => (some (.error eperm), none, s)
  | .remove fid => (some (.error eperm), none, s.forget fid)
  | .wstat => (some (.error eperm), none, s)
  | .read fid off count => s.tread tag fid off count
  | .write fid data =>
      let r := s.twrite tag fid data
      (r.1, none, r.2)
  | .stat fid => (some (s.tstat fid), none, s)
  | .flush old => (some .flush, none, old.elim s s.flush)
  | .clunk fid => (some .clunk, none, s.forget fid)
  | .short what => (some (.error what), none, s)
  | .other => (some (.error "not implemented"), none, s)

end State

namespace State

variable (s : State)

@[simp]
theorem letgo_fids (n : UInt32) (wait : Bool) : (s.letgo n wait).fids = s.fids := by
  unfold letgo
  cases s.convs n with
  | none => rfl
  | some c =>
      dsimp only
      cases c.child <;> dsimp only <;> split <;> rfl

@[simp]
theorem clunked_fids (f : Fid) : (s.clunked f).fids = s.fids := by
  unfold clunked
  split
  · rfl
  · split
    · rfl
    · rw [letgo_fids]
      split <;> rfl

@[simp]
theorem askFor_fids (str : Stream) (i : Out) (want : Option Nat) :
    (s.askFor str i want).fids = s.fids := by
  unfold askFor
  split <;> rfl

@[simp]
theorem serve_fids (n : UInt32) (c : Conv) (i : Out) (str : Stream) :
    (s.serve n c i str).2.fids = s.fids := s.askFor_fids str i _

theorem forget_fids (fid : Option UInt32) :
    (s.forget fid).fids = fid.elim s.fids s.fids.erase := by
  unfold forget
  cases fid with
  | none => rfl
  | some fid =>
      dsimp only
      cases found : s.fids.find fid with
      | none => exact (Keyed.erase_of_find found).symm
      | some f => exact clunked_fids _ f

theorem tread_fids (tag : UInt16) (fid : UInt32) (off : UInt64) (count : UInt32) :
    (s.tread tag fid off count).2.2.fids = s.fids := by
  have stream (n : UInt32) (c : Conv) (i : Out) :
      (s.tstream n c i tag count).2.2.fids = s.fids := s.serve_fids n c i _
  have wait (n : UInt32) (c : Conv) : (s.twait n c tag count).2.2.fids = s.fids := by
    unfold twait
    split <;> rfl
  unfold tread
  repeat' split
  all_goals first | rfl | apply stream | apply wait

theorem twrite_fids (tag : UInt16) (fid : UInt32) (data : Bytes) :
    (s.twrite tag fid data).2.fids = s.fids := by
  unfold twrite
  repeat' split
  all_goals rfl

theorem fetched_fids (n : UInt32) (i : Out) (r : Except String Bytes) :
    (s.fetched n i r).2.fids = s.fids := by
  unfold fetched
  cases s.convs n with
  | none => rfl
  | some c =>
      exact s.serve_fids n { c with out := update c.out i ((c.out i).take r).2 } i _

theorem wrote_fids (tag : UInt16) (r : Except String Nat) : (s.wrote tag r).fids = s.fids := by
  unfold wrote
  split <;> rfl

theorem exited_fids (n : UInt32) (record : Bytes) : (s.exited n record).2.fids = s.fids := by
  unfold exited
  split
  · rfl
  · dsimp only
    split <;> rfl

end State

/-- The host's call asks for a command and lets go of it, the kernel sends a message and takes the
replies, and the threads do what they were asked. -/
inductive Action
  | start (n : UInt32) (cmd : Cmd) (bg : Bool)
  | submit (m : Msg) (refused : Option String)
  | release (n : UInt32)
  | fetched (id : Nat) (i : Out) (r : Except String Bytes)
  | wrote (id : Nat) (r : Except String Nat)
  | exited (id : Nat) (record : Bytes)
  | harvest

namespace State

variable (s : State)

/-- A start takes the lowest free number. A thread does what it was asked, and a command ends
once. -/
def Can : Action → Prop
  | .start n _ _ => s.convs n = none ∧ ∀ m < n, s.convs m ≠ none
  | .fetched id i r =>
      id < s.started ∧ ∃ want asks, (s.threads id).asks i = want :: asks ∧
        ∀ b, r = .ok b → b.length ≤ want
  | .wrote id r =>
      id < s.started ∧ ∃ tag data writes, (s.threads id).writes = (tag, data) :: writes ∧
        ∀ k, r = .ok k → k ≤ data.length
  | .exited id _ => id < s.started ∧ (s.threads id).waits
  | _ => True

/-- What is answered at once, what is given of a conversation's files, and the server after. -/
def act : Action → Option Answer × Option Given × State
  | .start n cmd bg => (none, none, s.start n cmd bg)
  | .submit m refused => s.submit m.tag refused (.of m)
  | .release n => (none, none, s.letgo n false)
  | .fetched id i r =>
      let t := s.threads id
      (none, (s.setThreads id (t.fetched i r)).fetched t.conv i r)
  | .wrote id r =>
      let t := s.threads id
      match t.writes with
      | [] => (none, none, s)
      | (tag, _) :: writes =>
          (none, none, (s.setThreads id { t with writes := writes }).wrote tag r)
  | .exited id record =>
      let t := s.threads id
      (none,
        (s.setThreads id { t with waits := false, ended := t.ended ++ [record] }).exited
          t.conv record)
  | .harvest => (none, none, { s with done := [] })

def new (threads : Nat → Threads) : State :=
  ⟨fun _ => none, .empty, fun _ => false, [], threads, 0, []⟩

end State

end Ipnx.Host.Oscmd
