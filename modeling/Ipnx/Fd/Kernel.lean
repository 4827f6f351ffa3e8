import Ipnx.Fd.Table
import Ipnx.Proc.Sleep
import Ipnx.Lib.Keyed

/-!
# Channels in use

The calls that make, share and let go of channels, and the reads and writes that use them:
`closethen`, `closing`, `closefgrp`, `pread`, `pwriteat` and the calls around them in
`kernel/src/lib.rs`, with `closefgrp` and the tables' part of `rfork` in
`kernel/src/proc.rs`.

A device is asked to read, write or close, and may leave the processor in the middle. What
it does is an argument: `Outcome` for a read or a write, and for closes a list that says of
each whether it leaves. A process that left is in `labels`, with the rest of its call.

Names, unions and the devices' own references to channels are left out, and so is the state
of the processes: a process makes a call, or comes back into the one it left.
-/

namespace Ipnx

abbrev Octets := List UInt8

namespace Mode

def oread : Nat := 0
def owrite : Nat := 1
def ordwr : Nat := 2
def otrunc : Nat := 16

end Mode

/-- Of a channel, what the calls here read. -/
structure Chan where
  dev : DevId
  mode : Nat
  cmsg : Bool
  ccexec : Bool
  isDir : Bool
  offset : UInt64
  deriving DecidableEq, Repr

/-- An end of a pipe, as `pipe(2)` opens both. -/
def Chan.pipe : Chan where
  dev := .pipe
  mode := Mode.ordwr
  cmsg := false
  ccexec := false
  isDir := false
  offset := 0

/-- Where a read is made: `-1` is the channel's own offset. -/
def Chan.place (ch : Chan) (off : Int) : UInt64 :=
  if off = -1 then ch.offset else .ofNat off.toNat

def enoproc : String := "no such process"
def ebadfd : String := "fd out of range or not open"
def ebadusefd : String := "inappropriate use of fd"
def enofd : String := "no free file descriptors"
def enegoff : String := "negative i/o offset"
def edirseek : String := "seek in directory"
def eisdir : String := "file is a directory"

/-- `fdtochan`'s checks on the channel it found. -/
def fdcheck (c : Chan) (mode : Option Nat) (chkmnt : Bool) : Except String Unit :=
  if chkmnt && c.cmsg then .error ebadusefd
  else
    match mode with
    | none => .ok ()
    | some m =>
        if c.mode = Mode.ordwr then .ok ()
        else if m &&& Mode.otrunc ≠ 0 ∧ c.mode = Mode.oread then .error ebadusefd
        else if m - (m &&& Mode.otrunc) ≠ c.mode then .error ebadusefd
        else .ok ()

/-- What a device does with a read or a write. -/
inductive Outcome (α : Type)
  | slept
  | ok (answer : α)
  | err (e : String)

/-- What a call answers; `sched` is a call that left in the middle. -/
inductive Ret
  | ok
  | sched
  | pid (p : Pid)
  | fd (fd : Fd)
  | two (a b : Fd)
  | data (d : Octets)
  | n (n : Nat)
  deriving DecidableEq, Repr

/-- What is left of a call once its closes are made. -/
inductive Rest
  | answer (r : Except String Ret)
  | exits

/-- The rest of a call that left in the middle. -/
inductive Label
  /-- A read whose device left: it keeps its reference. -/
  | pread (cell : Cell) (n : Nat) (off : Int)
  /-- A read the mount driver left: the call is made again, from its descriptor. `on` is the
  channel it is reading, which the label itself does not hold. -/
  | rerun (fd : Fd) (n : Nat) (off : Int) (on : Cell)
  | pwriteat (cell : Cell) (data : Octets) (place : UInt64) (taken : Bool)
  | closing (cs : List Cell) (rest : Rest)
  | closingfgrp (cs : List Cell) (rest : Rest) (begun : Bool)

/-- Whether a cell is the one meant, as a count. -/
def one (c d : Nat) : Nat := if c = d then 1 else 0

namespace Label

def holds (c : Cell) : Label → Nat
  | .pread cell _ _ => one c cell
  | .pwriteat cell _ _ _ => one c cell
  | _ => 0

/-- The reads and writes of a channel a label is the rest of. -/
def uses (c : Cell) : Label → Nat
  | .pread cell _ _ => one c cell
  | .rerun _ _ _ on => one c on
  | .pwriteat cell _ _ _ => one c cell
  | _ => 0

/-- The closes a label has still to make or to finish. -/
def owes (c : Cell) : Label → Nat
  | .closing cs _ => tally (one c) cs
  | .closingfgrp cs _ _ => tally (one c) cs
  | _ => 0

end Label

/-- A process: its table, whether it has been told to exit, and whether it has. A pid is a
place in the list of them. -/
structure User where
  fds : Option Nat
  exitme : Bool
  ended : Bool
  deriving DecidableEq, Repr

/-- The channels, the tables that refer to them and the processes that use those. -/
structure Descs where
  /-- What is, or was, in each cell. -/
  chans : List Chan
  tabs : List Fds
  users : List User
  labels : Keyed Pid Label
  clunkq : List Cell
  /-- The closes devices have made, in order. -/
  closes : List Cell

namespace Descs

/-- The slots, over all tables, that refer to a cell. -/
def slots (k : Descs) (c : Cell) : Nat := tally (Fds.refs · c) k.tabs

/-- The references calls in progress hold to a cell. -/
def held (k : Descs) (c : Cell) : Nat := k.labels.sum (Label.holds c)

/-- The reads and writes in progress on a channel. -/
def calls (k : Descs) (c : Cell) : Nat := k.labels.sum (Label.uses c)

/-- The closes of a channel begun, or left to a process or to the close queue to make. -/
def owed (k : Descs) (c : Cell) : Nat :=
  k.labels.sum (Label.owes c) + tally (one c) k.clunkq

/-- The closes of a channel its device has made. -/
def closed (k : Descs) (c : Cell) : Nat := tally (one c) k.closes

/-- What `Rc::try_unwrap` asks of a reference just taken out: no other is left. -/
def last (k : Descs) (c : Cell) : Bool := k.slots c + k.held c == 0

def user (k : Descs) (pid : Pid) : Option User := k.users[pid]?

def label (k : Descs) (pid : Pid) : Option Label := k.labels.find pid

def setlabel (k : Descs) (pid : Pid) (l : Label) : Descs :=
  { k with labels := k.labels.insert pid l }

def takelabel (k : Descs) (pid : Pid) : Descs :=
  { k with labels := k.labels.erase pid }

def setUser (k : Descs) (pid : Pid) (u : User) : Descs :=
  { k with users := k.users.set pid u }

def setTab (k : Descs) (t : Nat) (f : Fds) : Descs :=
  { k with tabs := k.tabs.set t f }

def setOffset (k : Descs) (c : Cell) (offset : UInt64) : Descs :=
  { k with chans := k.chans.modify c fun ch => { ch with offset := offset } }

/-- `fgrp`: the number of a process's table, and the table. -/
def fgrp (k : Descs) (pid : Pid) : Option (Nat × Fds) :=
  match (k.user pid).bind (·.fds) with
  | some t => (k.tabs[t]?).map fun f => (t, f)
  | none => none

def sharers (k : Descs) (t : Nat) : Nat :=
  tally (fun u => if u.fds = some t then 1 else 0) k.users

def chancell (k : Descs) (pid : Pid) (fd : Fd) : Option Cell :=
  match k.fgrp pid with
  | some (_, f) => f.get fd
  | none => none

def fdtochan (k : Descs) (pid : Pid) (fd : Fd) (mode : Option Nat) (chkmnt : Bool) :
    Except String (Cell × Chan) :=
  match k.chancell pid fd with
  | none => .error ebadfd
  | some c =>
      match k.chans[c]? with
      | none => .error ebadfd
      | some ch =>
          match fdcheck ch mode chkmnt with
          | .ok () => .ok (c, ch)
          | .error e => .error e

def dclose (k : Descs) (c : Cell) : Descs := { k with closes := k.closes ++ [c] }

def finish (k : Descs) (up : Pid) : Rest → Descs × Except String Ret
  | .answer r => (k, r)
  | .exits =>
      (match k.user up with
        | some u => k.setUser up { u with fds := none, ended := true }
        | none => k, .ok .ok)

/-- The closes in turn, each of which may leave; `waits` says which do. -/
def closing (k : Descs) (up : Pid) (cs : List Cell) (rest : Rest) (waits : List Bool) :
    Descs × Except String Ret :=
  match cs with
  | [] => k.finish up rest
  | c :: cs =>
      if waits.headD false then (k.setlabel up (.closing (c :: cs) rest), .ok .sched)
      else (k.dclose c).closing up cs rest waits.tail

/-- The same of a table's channels; a process told to exit hands those not begun to the
close queue. -/
def closingfgrp (k : Descs) (up : Pid) (cs : List Cell) (rest : Rest) (begun : Bool)
    (waits : List Bool) : Descs × Except String Ret :=
  match cs with
  | [] => k.finish up rest
  | c :: cs =>
      if (k.user up).any (·.exitme) then
        if begun then
          let k := { k with clunkq := k.clunkq ++ cs }
          if waits.headD false then (k.setlabel up (.closingfgrp [c] rest true), .ok .sched)
          else (k.dclose c).finish up rest
        else ({ k with clunkq := k.clunkq ++ c :: cs }).finish up rest
      else if waits.headD false then
        (k.setlabel up (.closingfgrp (c :: cs) rest true), .ok .sched)
      else (k.dclose c).closingfgrp up cs rest false waits.tail

/-- Of references taken out of a dropped table, the cells of which one was the last. -/
def lastrefs (k : Descs) : List (Option Cell) → List Cell
  | [] => []
  | none :: rest => k.lastrefs rest
  | some c :: rest =>
      if tally (fun s => if s = some c then 1 else 0) rest = 0 ∧ k.last c then
        c :: k.lastrefs rest
      else k.lastrefs rest

/-- `closefgrp` of `proc.rs`: the channels to close once a table has been let go of. -/
def closefgrp (k : Descs) (t : Nat) : List Cell × Descs :=
  if k.sharers t = 0 then
    match k.tabs[t]? with
    | some f => ((k.setTab t .empty).lastrefs f.slots, k.setTab t .empty)
    | none => ([], k)
  else ([], k)

/-- `newfd`, once a channel is open: with no slot for it the channel is closed. -/
def newfd (k : Descs) (up : Pid) (c : Cell) (waits : List Bool) : Descs × Except String Ret :=
  match k.fgrp up with
  | none => (k, .error enoproc)
  | some (t, f) =>
      match f.newfd c with
      | some (fd, f) => (k.setTab t f, .ok (.fd fd))
      | none =>
          if k.last c then k.closing up [c] (.answer (.error enofd)) waits
          else (k, .error enofd)

/-- A channel just opened, in a cell of its own. -/
def alloc (k : Descs) (ch : Chan) : Descs := { k with chans := k.chans ++ [ch] }

/-- `open` or `create` of a file no other channel is: the name led to `ch`. -/
def sysopen (k : Descs) (up : Pid) (ch : Chan) (waits : List Bool) :
    Descs × Except String Ret :=
  match k.fgrp up with
  | none => (k, .error enoproc)
  | some _ => (k.alloc ch).newfd up k.chans.length waits

/-- `open` of a file of `#d`, which answers the channel a descriptor already has. -/
def dupopen (k : Descs) (up : Pid) (fd : Fd) (waits : List Bool) : Descs × Except String Ret :=
  match k.chancell up fd with
  | none => (k, .error ebadfd)
  | some c => k.newfd up c waits

def syspipe (k : Descs) (up : Pid) (waits : List Bool) : Descs × Except String Ret :=
  match k.fgrp up with
  | none => (k, .error enoproc)
  | some (t, f) =>
      let data := k.chans.length
      let k := (k.alloc .pipe).alloc .pipe
      match f.newfd2 data (data + 1) with
      | some (a, b, f) => (k.setTab t f, .ok (.two a b))
      | none => k.closing up [data, data + 1] (.answer (.error enofd)) waits

/-- `Fds::close`, with the channel if the reference was the last. -/
def fdclose (k : Descs) (t : Nat) (fd : Fd) : Option (List Cell × Descs) :=
  match k.tabs[t]? with
  | none => none
  | some f =>
      match f.close fd with
      | none => none
      | some (c, f) =>
          let k := k.setTab t f
          some (if k.last c then [c] else [], k)

def sysclose (k : Descs) (up : Pid) (fd : Fd) (waits : List Bool) : Descs × Except String Ret :=
  match k.fgrp up with
  | none => (k, .error ebadfd)
  | some (t, _) =>
      match k.fdclose t fd with
      | none => (k, .error ebadfd)
      | some (gone, k) => k.closing up gone (.answer (.ok .ok)) waits

def sysdup (k : Descs) (up : Pid) (old new : Fd) (waits : List Bool) :
    Descs × Except String Ret :=
  match k.fgrp up with
  | none => (k, .error enoproc)
  | some (t, f) =>
      match f.dup old new with
      | none => (k, .error ebadfd)
      | some (fd, oc, f) =>
          let k := k.setTab t f
          k.closing up (oc.toList.filter k.last) (.answer (.ok (.fd fd))) waits

/-- `Procs::table`: a table of its own, a copy, or the same one. -/
def table (k : Descs) (fds : Option Nat) (clear copy : Bool) : Option Nat × Descs :=
  if clear then (some k.tabs.length, { k with tabs := k.tabs ++ [.empty] })
  else if copy then
    (some k.tabs.length,
      { k with tabs := k.tabs ++ [((fds.bind (k.tabs[·]?)).getD .empty)] })
  else (fds, k)

/-- `sysrfork`, as far as descriptors go. -/
def sysrfork (k : Descs) (up : Pid) (flags : Nat) (waits : List Bool) :
    Descs × Except String Ret :=
  match Procs.rforkcheck flags, k.user up with
  | .error e, _ => (k, .error e)
  | .ok (), none => (k, .error enoproc)
  | .ok (), some u =>
      let r := k.table u.fds (Rf.has flags Rf.cfdg) (Rf.has flags Rf.fdg)
      if Rf.has flags Rf.proc then
        ({ r.2 with users := r.2.users ++ [⟨r.1, false, false⟩] }, .ok (.pid r.2.users.length))
      else if Rf.has flags (Rf.fdg ||| Rf.cfdg) then
        let moved := r.2.setUser up { u with fds := r.1 }
        match k.fgrp up with
        | none => moved.closingfgrp up [] (.answer (.ok (.pid 0))) false waits
        | some (t, _) =>
            let gone := moved.closefgrp t
            gone.2.closingfgrp up gone.1 (.answer (.ok (.pid 0))) false waits
      else (k, .ok (.pid 0))

/-- `exec_closeonexec`'s loop: the marked descriptors from `fd` on. -/
def closeonexec (k : Descs) (t : Nat) (fd : Nat) : Nat → List Cell × Descs
  | 0 => ([], k)
  | n + 1 =>
      let marked := ((k.tabs[t]?).bind (·.get fd)).any fun c => (k.chans[c]?).any (·.ccexec)
      match if marked then k.fdclose t fd else none with
      | some (gone, k) =>
          let r := k.closeonexec t (fd + 1) n
          (gone ++ r.1, r.2)
      | none => k.closeonexec t (fd + 1) n

/-- `exec` past its point of no return. -/
def sysexec (k : Descs) (up : Pid) (waits : List Bool) : Descs × Except String Ret :=
  match k.fgrp up with
  | none => (k, .ok .ok)
  | some (t, f) =>
      let gone := k.closeonexec t 0 f.slots.length
      gone.2.closing up gone.1 (.answer (.ok .ok)) waits

def pexit (k : Descs) (up : Pid) (waits : List Bool) : Descs × Except String Ret :=
  match k.user up with
  | none => (k, .ok .ok)
  | some u =>
      let k := k.setUser up { u with fds := none }
      match u.fds with
      | none => k.closingfgrp up [] .exits false waits
      | some t =>
          let gone := k.closefgrp t
          gone.2.closingfgrp up gone.1 .exits false waits

/-- `procctl` of a process that has been told to exit: it is told so once. -/
def procctl (k : Descs) (up : Pid) (waits : List Bool) : Descs × Except String Ret :=
  match k.user up with
  | none => (k, .ok .ok)
  | some u =>
      if u.exitme then (k.setUser up { u with exitme := false }).pexit up waits
      else (k, .ok .ok)

/-- A read of the channel in a cell; `fd` is the descriptor the call was made with, which
is what is kept when the mount driver leaves. -/
def pread (k : Descs) (up : Pid) (fd : Option Fd) (c : Cell) (ch : Chan) (n : Nat) (off : Int)
    (out : Outcome Octets) : Descs × Except String Ret :=
  if off < -1 then (k, .error enegoff)
  else if ch.isDir ∧ ch.place off ≠ ch.offset then (k, .error edirseek)
  else
    match out with
    | .slept =>
        match fd with
        | some fd =>
            if ch.dev = .mnt then (k.setlabel up (.rerun fd n off c), .ok .sched)
            else (k.setlabel up (.pread c n off), .ok .sched)
        | none => (k.setlabel up (.pread c n off), .ok .sched)
    | .err e => (k, .error e)
    | .ok d =>
        let now := ((k.chans[c]?).map (·.offset)).getD 0
        (k.setOffset c (if ch.isDir ∨ off = -1 then now + .ofNat d.length else now),
          .ok (.data d))

def syspread (k : Descs) (up : Pid) (fd : Fd) (n : Nat) (off : Int) (out : Outcome Octets) :
    Descs × Except String Ret :=
  match k.fdtochan up fd (some Mode.oread) true with
  | .error e => (k, .error e)
  | .ok (c, ch) => k.pread up (some fd) c ch n off out

/-- What was not written of the range taken goes back. -/
def giveback (k : Descs) (c : Cell) (taken : Bool) (left : Nat) : Descs :=
  let now := ((k.chans[c]?).map (·.offset)).getD 0
  k.setOffset c (if taken then now - .ofNat left else now)

def pwriteat (k : Descs) (up : Pid) (c : Cell) (data : Octets) (place : UInt64) (taken : Bool)
    (out : Outcome Nat) : Descs × Except String Ret :=
  match out with
  | .slept => (k.setlabel up (.pwriteat c data place taken), .ok .sched)
  | .ok m => (k.giveback c taken (data.length - m), .ok (.n m))
  | .err e => (k.giveback c taken data.length, .error e)

def syspwrite (k : Descs) (up : Pid) (fd : Fd) (data : Octets) (off : Int)
    (out : Outcome Nat) : Descs × Except String Ret :=
  match k.fdtochan up fd (some Mode.owrite) true with
  | .error e => (k, .error e)
  | .ok (c, ch) =>
      if ch.isDir then (k, .error eisdir)
      else if off < -1 then (k, .error enegoff)
      else if off = -1 then
        (k.setOffset c (ch.offset + .ofNat data.length)).pwriteat up c data ch.offset true out
      else k.pwriteat up c data (.ofNat off.toNat) false out

/-- The process comes back into the call it left. -/
def resume (k : Descs) (up : Pid) (l : Label) (read : Outcome Octets) (write : Outcome Nat)
    (waits : List Bool) : Descs × Except String Ret :=
  let k := k.takelabel up
  match l with
  | .pread c n off =>
      match k.chans[c]? with
      | some ch => k.pread up none c ch n off read
      | none => (k, .error ebadfd)
  | .rerun fd n off _ => k.syspread up fd n off read
  | .pwriteat c data place taken => k.pwriteat up c data place taken write
  | .closing cs rest => k.closing up cs rest waits
  | .closingfgrp cs rest begun => k.closingfgrp up cs rest begun waits

/-- `closeproc`'s next close. -/
def closeproc (k : Descs) (up : Pid) (waits : List Bool) : Descs × Except String Ret :=
  match k.clunkq with
  | [] => (k, .ok .ok)
  | c :: rest => { k with clunkq := rest }.closing up [c] (.answer (.ok .ok)) waits

end Descs

end Ipnx
