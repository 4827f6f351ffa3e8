import Ipnx.Proc.Family

/-!
# Notes

How a process is given notes and what becomes of them: `postnote`, `notify`, `noted`, `exec`, a
read of `/proc/n/note`, and `notify_`, the kernel's decision at a call's end, at the clock and at
a fault. What it decides at a call's end is kept until the machine asks for it.

Which of the closes of `pexit` wait is not the table's to say and is an argument; one that waits
leaves the process in the middle of its `pexit`. The account is kept for the proofs only: the
notes each process was given, those handed to its handler, and the messages its machine took to
the handler. What `pprint` writes and who may open the file are left out.
-/

namespace Ipnx

open Function (update)

namespace Noted

def ncont : Int := 0
def ndflt : Int := 1
def nsave : Int := 2
def nrstr : Int := 3

end Noted

def etoosmall : String := "read or write too small"

/-- Where a machine asks `notify` from. -/
inductive NoteAt
  | syscall | clock | fault
  deriving DecidableEq, Repr

/-- What it is answered: a handler is given a note's text. -/
inductive Answer
  | no | sched | pexit
  | handler (f : Nat) (msg : String)
  deriving DecidableEq, Repr

/-- A note as `postnote` keeps it. -/
def Note.cut (msg : String) (flag : NoteFlag) : Note := ⟨floor msg (errmax - 1), flag⟩

/-- What a read of the note file gives: the text and a NUL, as much as fits. -/
def Note.bytes (n : Note) (count : Nat) : List UInt8 :=
  let b := (n.msg.toUTF8.toList ++ [0]).take count
  b.dropLast ++ [0]

def Procs.execnotes (s : Procs) (pid : Pid) : Procs :=
  s.modify pid fun p => { p with note := [], notepending := false, notify := 0, notified := false }

structure Noting where
  procs : Procs
  /-- `p->lastnote`, the note being handled. -/
  lastnote : Pid → Note
  /-- `Kernel::notes`, what the machine is to be answered. -/
  notes : Pid → Answer
  /-- Who is in a `pexit` that waits for a close, and what with. -/
  ending : Pid → Option (String × Bool)
  posted : Pid → List Note
  handed : Pid → List Note
  entered : Pid → List String

inductive NoteAct
  | table (a : Act)
  | rfork (pid : Pid) (flags : Nat)
  | kproc (up : Pid) (name user : String)
  | post (pid : Pid) (msg : String) (flag : NoteFlag)
  | sysnotify (pid : Pid) (f : Nat)
  | noted (pid : Pid) (how : Int) (waits : Bool)
  | exec (pid : Pid)
  | readnote (pid : Pid) (count : Nat)
  /-- The machine asks. -/
  | notify (pid : Pid) (place : NoteAt) (waits : Bool)
  /-- A call ends. -/
  | callend (pid : Pid) (rfork waits : Bool)
  | pexit (pid : Pid) (status : String) (freemem waits : Bool)
  /-- The last close of a `pexit` is done. -/
  | closed (pid : Pid)

namespace Noting

def new : Noting where
  procs := Procs.new
  lastnote := fun _ => ⟨"", .nuser⟩
  notes := fun _ => .no
  ending := fun _ => none
  posted := fun _ => []
  handed := fun _ => []
  entered := fun _ => []

/-- `postnote`, with the account. `false` is *"note not posted"*. -/
def postnote (w : Noting) (pid : Pid) (msg : String) (flag : NoteFlag) : Bool × Noting :=
  let r := w.procs.postnote pid msg flag
  (r.1,
    { w with
      procs := r.2
      posted := update w.posted pid
        (w.posted pid ++ if r.1 then [Note.cut msg flag] else []) })

def born (w : Noting) (maker c : Pid) (procs : Procs) : Noting :=
  { w with
    procs
    lastnote := update w.lastnote c (w.lastnote maker)
    posted := update w.posted c (w.posted c ++ ((procs.tab c).elim [] Proc.note)) }

def rfork (w : Noting) (pid : Pid) (flags : Nat) : Noting :=
  match w.procs.sysrfork pid flags with
  | .ok (some c, procs) => w.born pid c procs
  | .ok (none, procs) => { w with procs }
  | .error _ => w

def kproc (w : Noting) (up : Pid) (name user : String) : Noting :=
  let r := w.procs.kproc up name user
  w.born up r.1 r.2

/-- `pexit`, to its end or to the first close that waits. -/
def pexit (w : Noting) (pid : Pid) (status : String) (freemem waits : Bool) : Noting :=
  if waits then { w with ending := update w.ending pid (some (status, freemem)) }
  else { w with procs := w.procs.pexit pid status freemem }

def closed (w : Noting) (pid : Pid) : Noting :=
  match w.ending pid with
  | some (status, freemem) =>
      { w with
        procs := w.procs.pexit pid status freemem
        ending := update w.ending pid none }
  | none => w

/-- `procctl`: do what `p->procctl` asks. `none` is that it asks nothing to be done now. -/
def procctl (w : Noting) (up : Pid) (waits : Bool) : Option Answer × Noting :=
  match w.procs.tab up with
  | none => (none, w)
  | some p =>
      match p.procctl with
      | some .exitme =>
          let w := { w with procs := w.procs.modify up fun p => { p with procctl := none } }
          (some .pexit, w.pexit up "Killed" true waits)
      | some .traceme =>
          if p.note.length = 0 then (none, w)
          else (some .sched, { w with procs := w.procs.stop up })
      | some .stopme => (some .sched, { w with procs := w.procs.stop up })
      | some .tracesyscall | none => (none, w)

/-- `notify_`'s first half: a fault leaves nothing to stop in. -/
def control (w : Noting) (up : Pid) (place : NoteAt) (waits : Bool) : Option Answer × Noting :=
  if place = .fault ∧ (w.procs.tab up).bind (·.procctl) ≠ some .exitme then (none, w)
  else w.procctl up waits

def hand (w : Noting) (up : Pid) (n : Note) : Noting :=
  { w with
    procs := w.procs.modify up fun p =>
      { p with notepending := false, notified := true, note := p.note.tail }
    lastnote := update w.lastnote up n
    handed := update w.handed up (w.handed up ++ [n]) }

/-- `notify_`'s other half: what becomes of the first note. -/
def decide (w : Noting) (up : Pid) (p : Proc) (place : NoteAt) (waits : Bool) :
    Answer × Noting :=
  match p.note with
  | [] => (.no, w)
  | n :: _ =>
      let dies := (Answer.pexit, w.pexit up n.msg (n.flag != .ndebug) waits)
      if n.flag ≠ .nuser ∧ (p.notified ∨ p.notify = 0) then dies
      else if p.notified then (.no, w)
      else if p.notify = 0 then dies
      else
        match place with
        | .clock => (.no, w)
        -- the handler could only go back to the instruction that faulted
        | .fault => dies
        | .syscall => (.handler p.notify n.msg, w.hand up n)

def notify_ (w : Noting) (up : Pid) (place : NoteAt) (waits : Bool) : Answer × Noting :=
  match w.procs.tab up with
  | none => (.no, w)
  | some p =>
      if p.state = .moribund ∨ p.state = .dead then (.pexit, w)
      else
        match w.control up place waits with
        | (some n, w) => (n, w)
        | (none, w) => w.decide up p place waits

/-- The end of `syscall()`, as far as notes go: what is decided is kept for the machine, unless
the process is stopped, when its call ends again. So does one left for a delayed `sched`. -/
def callend (w : Noting) (up : Pid) (rfork waits : Bool) : Noting :=
  let r := if rfork then (Answer.no, w) else w.notify_ up .syscall waits
  if r.1 = .sched then r.2
  else { r.2 with notes := update r.2.notes up r.1 }

/-- What was decided as a call ended is taken; a handler is entered with it. -/
def taken (w : Noting) (up : Pid) : Answer × Noting :=
  (w.notes up,
    { w with
      notes := update w.notes up .no
      entered :=
        match w.notes up with
        | .handler _ msg => update w.entered up (w.entered up ++ [msg])
        | _ => w.entered })

/-- `notify`, as the machine asks it. -/
def notify (w : Noting) (up : Pid) (place : NoteAt) (waits : Bool) : Answer × Noting :=
  match place with
  | .syscall => w.taken up
  | place => w.notify_ up place waits

/-- `Call::Noted`, with what the machine is to do. -/
def noted (w : Noting) (up : Pid) (how : Int) (waits : Bool) : Int × Noting :=
  if how ≠ Noted.nrstr ∧ (w.procs.tab up).any (·.notified) = false then
    (Noted.ndflt, w.pexit up "Suicide" false waits)
  else
    let last := w.lastnote up
    let w := { w with procs := w.procs.modify up fun p => { p with notified := false } }
    if how = Noted.ncont ∨ how = Noted.nrstr ∨ how = Noted.nsave then (how, w)
    else
      let flag := if how = Noted.ndflt then last.flag else .ndebug
      (Noted.ndflt, w.pexit up last.msg (flag != .ndebug) waits)

/-- A read of the note file takes the first note. -/
def readnote (w : Noting) (pid : Pid) (count : Nat) : Except String (List UInt8) × Noting :=
  if count < 1 then (.error etoosmall, w)
  else
    match w.procs.tab pid with
    | none => (.error eprocdied, w)
    | some p =>
        match p.note with
        | [] => (.ok [], w)
        | n :: rest =>
            (.ok (n.bytes count),
              { w with procs := w.procs.modify pid fun p => { p with note := rest } })

def step (w : Noting) : NoteAct → Noting
  | .table a => { w with procs := w.procs.step a }
  | .rfork pid flags => w.rfork pid flags
  | .kproc up name user => w.kproc up name user
  | .post pid msg flag => (w.postnote pid msg flag).2
  | .sysnotify pid f => { w with procs := w.procs.modify pid fun p => { p with notify := f } }
  | .noted pid how waits => (w.noted pid how waits).2
  | .exec pid => { w with procs := w.procs.execnotes pid }
  | .readnote pid count => (w.readnote pid count).2
  | .notify pid place waits => (w.notify pid place waits).2
  | .callend pid rfork waits => w.callend pid rfork waits
  | .pexit pid status freemem waits => w.pexit pid status freemem waits
  | .closed pid => w.closed pid

def noting : System Noting NoteAct where
  init w := w = new
  step w a w' := w' = w.step a

/-- The operation is none of those that have their own action here, and a change of other fields
leaves the notes and the record. -/
def Apart : Act → Prop
  | .rfork _ _ | .kproc _ _ _ | .postnote _ _ _ | .pgrpnote _ _ _ _ _ | .exits _ _
  | .addbroken _ => False
  | .edit _ f => ∀ p, (f p).note = p.note ∧ (f p).notified = p.notified ∧
      (f p).notify = p.notify ∧ (f p).status = p.status
  | _ => True

/-- What the callers promise: a process in its `pexit` only closes. -/
def Called (w : Noting) : NoteAct → Prop
  | .table a => Apart a
  | .noted pid _ _ | .callend pid _ _ | .pexit pid _ _ _ => w.ending pid = none
  | .notify pid place _ => place = .syscall ∨ w.ending pid = none
  | _ => True

/-- `pgrpnote`: a `postnote` for each process of the group. -/
def pgrpnote (w : Noting) (order : List Pid) (up : Pid) (noteid : Nat) (msg : String)
    (flag : NoteFlag) : Noting :=
  let group := order.filter fun pid =>
    (w.procs.tab pid).any fun p =>
      pid != up && p.noteid == noteid && !p.kp && p.state != .dead
  group.foldl (fun w pid => (w.postnote pid msg flag).2) w

end Noting

end Ipnx
