import Ipnx.Proc.Table
import Ipnx.Lib.Tally

/-!
# Descriptor tables

`Fds` of `kernel/src/proc.rs`. A table holds references to channels. Here a reference is
the number of the cell the channel is in, and who else refers to the cell is for the whole
kernel to say, so `close` and `dup` answer the reference they took out.
-/

namespace Ipnx

abbrev Fd := Int

/-- A cell with a channel in it: what an `Rc` of a channel points at. -/
abbrev Cell := Nat

/-- `DELTAFD`: a table grows by this many slots. -/
def deltafd : Nat := 20

structure Fds where
  slots : List (Option Cell)
  deriving DecidableEq, Repr

namespace Fds

def empty : Fds := ⟨[]⟩

/-- How many slots the table has, the free ones after the last held counted. -/
def nfd (f : Fds) : Nat :=
  max ((f.slots.length + deltafd - 1) / deltafd) 1 * deltafd

/-- The lowest free slot from `start`, and never past 5000. -/
def findfreefd (f : Fds) (start : Nat) : Option Nat :=
  let free := (List.range' start (f.slots.length - start)).find?
    fun i => f.slots[i]? == some none
  let fd := free.getD (max f.slots.length start)
  if f.nfd ≤ fd ∧ (f.nfd + deltafd ≤ fd ∨ 5000 ≤ f.nfd) then none else some fd

/-- The table with free slots up to `fd`. -/
def grow (f : Fds) (fd : Nat) : Fds :=
  ⟨f.slots ++ List.replicate (fd + 1 - f.slots.length) none⟩

def put (f : Fds) (fd : Nat) (c : Cell) : Fds :=
  ⟨(f.grow fd).slots.set fd (some c)⟩

/-- The reference goes into the lowest free slot; with none free it goes back. -/
def newfd (f : Fds) (c : Cell) : Option (Fd × Fds) :=
  match f.findfreefd 0 with
  | some fd => some (fd, f.put fd c)
  | none => none

def newfd2 (f : Fds) (c0 c1 : Cell) : Option (Fd × Fd × Fds) :=
  match f.findfreefd 0 with
  | none => none
  | some a =>
      match (f.put a c0).findfreefd (a + 1) with
      | none => none
      | some b => some (a, b, (f.put a c0).put b c1)

/-- A negative descriptor is, as an index, past the end of any table. -/
def get (f : Fds) (fd : Int) : Option Cell :=
  if fd < 0 then none else (f.slots[fd.toNat]?).join

/-- The reference a descriptor holds, and the table without it. -/
def close (f : Fds) (fd : Int) : Option (Cell × Fds) :=
  match f.get fd with
  | some c => some (c, ⟨f.slots.set fd.toNat none⟩)
  | none => none

/-- The lowest free slot with no bound, as `dup(fd, -1)` looks for one. -/
def place (f : Fds) : Nat :=
  (f.slots.findIdx? (· == none)).getD f.slots.length

/-- The descriptor, the reference that was in its slot, and the table with the copy. -/
def dup (f : Fds) (old new : Int) : Option (Fd × Option Cell × Fds) :=
  match f.get old with
  | none => none
  | some c =>
      if new = -1 then some (f.place, none, f.put f.place c)
      else if new < 0 ∨ (f.nfd + deltafd : Int) ≤ new ∨ ((f.nfd : Int) ≤ new ∧ 5000 ≤ f.nfd) then
        none
      else
        some (new, f.get new, f.put new.toNat c)

/-- How many of the table's slots refer to a cell. -/
def refs (f : Fds) (c : Cell) : Nat :=
  tally (fun s => if s = some c then 1 else 0) f.slots

@[simp]
theorem refs_empty (c : Cell) : empty.refs c = 0 := rfl

end Fds

end Ipnx
