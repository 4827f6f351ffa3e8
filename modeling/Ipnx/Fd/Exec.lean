import Ipnx.Fd.Making
import Ipnx.Lib.Utf8
import Ipnx.Proc.Notes

/-!
# `exec`

`exec`, `exec_read`, `exec_commit`, `exec_closeonexec` and `rerun` of `kernel/src/lib.rs`, and the
terminal machine's half, `touser`. What an open or a read of a file does is the devices', and may
be done to the caller: a read of `/proc/n/note` is. What an image compiles to is the engine's.

A call that is left asleep for a reply runs again from the top, and its record says what it has
done: a close it has deferred is not deferred again. A read that leaves the processor keeps the rest
of the call instead. What other processes do meanwhile is the devices' too. How often the file is
read before it ends, and how often the call runs again, is bounded; a call that has not reached the
end by then is not over.
-/

namespace Ipnx.Exec

open Function (update)

universe u

/-- The terminal machine: the modules it has compiled, who shares a memory and who is in it, and
what each process is to run, kept apart for one that is being polled. -/
structure Wasm (M : Type u) where
  modules : List UInt8 → Option M
  sharing : Pid → Option Nat
  occupant : Nat → Option Pid
  execd : Pid → Option (M × List String)
  /-- A fiber, and its image if it has not been started. -/
  procs : Pid → Option (Option (M × List String))
  polling : Option Pid

def ebadexec : String := "exec header invalid"

namespace Wasm

variable {M : Type u}

/-- Compiled once, then the same one each time. -/
def compile (engine : List UInt8 → Option M) (m : Wasm M) (image : List UInt8) :
    Except String M × Wasm M :=
  match m.modules image with
  | some module => (.ok module, m)
  | none =>
      match engine image with
      | none => (.error ebadexec, m)
      | some module =>
          (.ok module, { m with modules := update m.modules image (some module) })

def leave (m : Wasm M) (pid : Pid) : Wasm M :=
  match m.sharing pid with
  | none => m
  | some g =>
      { m with
        sharing := update m.sharing pid none
        occupant :=
          if m.occupant g = some pid then update m.occupant g none else m.occupant }

/-- The image is this process's now. It does not run. -/
def touser (engine : List UInt8 → Option M) (m : Wasm M) (pid : Pid) (image : List UInt8)
    (args : List String) : Except String Unit × Wasm M :=
  match m.compile engine image with
  | (.error e, m) => (.error e, m)
  | (.ok module, m) =>
      let m := m.leave pid
      if m.polling = some pid then
        (.ok (), { m with execd := update m.execd pid (some (module, args)) })
      else (.ok (), { m with procs := update m.procs pid (some (some (module, args))) })

theorem touser_refused {engine : List UInt8 → Option M} {m : Wasm M} {pid : Pid}
    {image : List UInt8} {args : List String} {e : String}
    (refused : (m.touser engine pid image args).1 = .error e) :
    (m.touser engine pid image args).2 = m ∧ e = ebadexec := by
  rw [touser] at refused ⊢
  rcases compiled : m.compile engine image with ⟨e' | module, m'⟩
  · rw [compiled] at refused
    cases refused
    rw [compile] at compiled
    split at compiled
    · cases compiled
    · split at compiled
      · cases compiled
        exact ⟨rfl, rfl⟩
      · cases compiled
  · simp only [compiled] at refused
    split_ifs at refused

end Wasm

/-- The processes, what each runs and where its names are, the text segments, and the devices. -/
structure World (M N H : Type) where
  procs : Procs
  ns : Pid → N
  tseg : Pid → Option Nat
  seg : Pid → Nat
  /-- Segments made so far. -/
  segs : Nat
  /-- `Kernel::images`. -/
  images : List (Nat × Nat)
  machine : Wasm M
  host : H

/-- A close that was deferred, or a step of the mount driver's. -/
inductive Step
  | once
  | wire (id : Nat)
deriving DecidableEq, Repr

/-- What a call has done, how far it has come in it, and whether it has kept the rest of itself. -/
structure Record where
  steps : List Step
  at_ : Nat
  kept : Bool

namespace Record

def new : Record := ⟨[], 0, false⟩

/-- Whether this step is reached for the first time. -/
def once (r : Record) : Bool × Record :=
  if r.steps[r.at_]? = some .once then (false, { r with at_ := r.at_ + 1 })
  else (true, { r with steps := r.steps.take r.at_ ++ [.once], at_ := r.at_ + 1 })

def rewind (r : Record) : Record := { r with at_ := 0 }

/-- The next step is not a close made before. -/
def Fresh (r : Record) : Prop := r.steps[r.at_]? ≠ some .once

end Record

abbrev Site (M N H : Type) := World M N H × Record

/-- What `exec` asks of the devices and of a channel, and the engine. A read may leave the
processor. -/
structure Files (M N H : Type) where
  walkOpen : Site M N H → String → UInt16 → Except String Cell × Site M N H
  dread : Site M N H → Cell → Nat → Nat → Except String (List UInt8) × Site M N H
  leaves : Site M N H → Cell → Nat → Nat → Bool
  isroot : Cell → Bool
  ccexec : Cell → Bool
  imagekey : Cell → Nat
  engine : List UInt8 → Option M

abbrev Call (M N H α : Type) := Making.Make (Site M N H) α

variable {M N H : Type}

open Making (step opens lift)

def oexec : UInt16 := 3

/-- The name's last element. -/
def elem (path : String) : String :=
  (((path.toList.splitOn '/').filter (· ≠ [])).getLast?.map .ofList).getD "."

/-- `sizeof(Exec)`. -/
def sizeofExec : Nat := 32

/-- `sizeof progelem`. -/
def progelem : Nat := 64

/-- `shargs`: the words of a `#!` line, which ends within the header. -/
def shargs (image : List UInt8) : Option (List String) :=
  let s := (image.take sizeofExec).drop 2
  if 10 ∈ s then
    let words := ((s.takeWhile (· ≠ 10)).splitOnP fun b => b = 32 ∨ b = 9).filter (· ≠ [])
    if words = [] then none else some (words.map Utf8.lossy)
  else none

/-- A script's interpreter and what it is told: its own last element, the line's words, the script
as it was named, and the caller's arguments but the first. -/
def interpreter (image : List UInt8) (path : String) (args : List String) (elem : String) :
    Except String (String × List String) :=
  match shargs image with
  | none | some [] => .error ebadexec
  | some (file :: words) =>
      if progelem ≤ elem.utf8ByteSize then .error ebadexec
      else .ok (file, elem :: words ++ [path] ++ args.drop 1)

/-- Of a file that has not been read to its end, or a call that sleeps on. -/
def endless : String := "still reading"

def nolabel : String := "the process left no call to go back to"

variable (others : Cell → Nat) (k : Files M N H) (pid : Pid)

/-- A reference fewer, and at the last the close is deferred, if it has not been. -/
def cclose (c : Cell) : Call M N H Unit :=
  modify fun w =>
    let w := { w with held := w.held.erase c }
    if w.refs others c = 0 ∧ c ∉ w.held then
      let (first, record) := w.dev.2.once
      { w with
        dev := (w.dev.1, record)
        closing := if first then w.closing ++ [c] else w.closing }
    else w

/-- A process that left goes on with its record from the start. -/
def Files.read (d : Site M N H) (c : Cell) (n off : Nat) :
    Except String (List UInt8) × Site M N H :=
  let (got, d') := k.dread d c n off
  (got, d'.1, if k.leaves d c n off then { d'.2.rewind with kept := true } else d'.2)

/-- The file to its end, or as far as an error, in so many reads. -/
def readall (c : Cell) : Nat → List UInt8 → Call M N H (Except String (List UInt8))
  | 0, _ => throw endless
  | n + 1, image => do
      match ← step (k.read · c 8192 image.length) with
      | .error e => pure (.error e)
      | .ok got => if got = [] then pure (.ok image) else readall c n (image ++ got)

/-- `attachimage`: the segment something is running already, or a new one. -/
def attachimage (w : World M N H) (c : Cell) : Nat × World M N H :=
  let images := w.images.filter fun i => w.procs.pids.any fun q => w.tseg q == some i.2
  match images.find? fun i => i.1 == k.imagekey c with
  | some i => (i.2, { w with images })
  | none =>
      (w.segs, { w with images := images ++ [(k.imagekey c, w.segs)], segs := w.segs + 1 })

/-- `exec_commit`, once the machine has taken the image. -/
def commit (w : World M N H) (c : Cell) (elem : String) : World M N H :=
  let (tseg, w) := attachimage k w c
  { w with
    procs := (w.procs.modify pid fun p => { p with text := elem }).execpri pid (k.isroot c)
    tseg := update w.tseg pid (some tseg)
    seg := update w.seg pid w.segs
    segs := w.segs + 1 }

/-- The machine is asked first. -/
def exec_commit (d : Site M N H) (c : Cell) (image : List UInt8) (elem : String)
    (args : List String) : Except String Unit × Site M N H :=
  match d.1.machine.touser k.engine pid image args with
  | (.error e, machine) => (.error e, { d.1 with machine }, d.2)
  | (.ok (), machine) => (.ok (), commit k pid { d.1 with machine } c elem, d.2)

/-- A descriptor that is marked is closed, and its channel when that was the last reference. -/
def closefd (fd : Nat) : Call M N H Unit :=
  modify fun w =>
    match w.fds.close fd with
    | none => w
    | some (c, fds) =>
        if k.ccexec c then
          let w := { w with fds }
          if w.refs others c = 0 then { w with closing := w.closing ++ [c] } else w
        else w

def closefds : List Nat → Call M N H Unit
  | [] => pure ()
  | fd :: fds => do
      closefd others k fd
      closefds fds

/-- The notes go, one that is to hang is to stop, and descriptors close on `exec`. What the call did
before is over. -/
def exec_closeonexec : Call M N H Unit := do
  modify fun w =>
    let world := { w.dev.1 with
      procs := (w.dev.1.procs.execnotes pid).modify pid fun p =>
        { p with procctl := if p.hang then some .stopme else p.procctl } }
    { w with dev := (world, .new) }
  let w ← get
  closefds others k (List.range w.fds.slots.length)

/-- `exec_read`. A script's interpreter is read by `follow`, which there is none of for a script
that is an interpreter itself. -/
def exec_read (n : Nat) (follow : Option (Cell → String → List String → Call M N H Unit))
    (c : Cell) (path : String) (args : List String) (elem : String) : Call M N H Unit := do
  match ← readall k c n [] with
  | .error e => do
      cclose others c
      throw e
  | .ok image =>
      if image.length < 2 then do
        cclose others c
        throw ebadexec
      else if image.take 2 = [35, 33] then do
        cclose others c
        match follow with
        | none => throw ebadexec
        | some follow => do
            let (file, progarg) ← lift (interpreter image path args elem)
            let c ← lift (← opens (k.walkOpen · file oexec))
            follow c file progarg
      else do
        match ← step (exec_commit k pid · c image elem args) with
        | .error e => do
            cclose others c
            throw e
        | .ok () => do
            Making.cclose others c
            exec_closeonexec others k pid

/-- As far as it comes before it ends or is left asleep. -/
def exec (n : Nat) (path : String) (args : List String) : Call M N H Unit := do
  let c ← lift (← opens (k.walkOpen · path oexec))
  exec_read others k pid n
    (some fun c file progarg => exec_read others k pid n none c file progarg (elem path))
    c path args (elem path)

/-- The call, and again when its process is entered again, as often as it is left asleep. -/
def rerun (n : Nat) (path : String) (args : List String) : Nat → Call M N H Unit
  | 0 => throw endless
  | m + 1 => Prog.catching (exec others k pid n path args) fun e =>
      if e = slept then do
        let w ← get
        if w.dev.2.kept then throw nolabel
        else do
          modify fun w => { w with dev := (w.dev.1, w.dev.2.rewind) }
          rerun n path args m
      else throw e

end Ipnx.Exec
