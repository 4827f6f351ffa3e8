import Ipnx.Name.Chan

/-!
# The mount table

A namespace is a table of mount heads in `MNTHASH` chains. A head is one mount point: the
channel mounted upon and the list of what is mounted there. Each operation below answers what
the source's answers, and the namespace after it; `Ids` are the counters the operations draw
from, of which an identifier is the low 32 bits.
-/

namespace Ipnx.Name

def emount : String := "inconsistent mount"
def eunmount : String := "not mounted"
def eunion : String := "not in union"

/-- One mount point: the channel mounted upon, and what is mounted there. -/
structure Mhead where
  mfrom : Option (Rc Chan)
  mount : List Element
deriving DecidableEq, Repr

/-- `MOUNTID` and `NEXT_ID`: how far each counter has been drawn from. -/
structure Ids where
  mountid : Nat
  pgrpid : Nat
deriving DecidableEq, Repr

namespace Ids

def boot : Ids := ⟨1, 1⟩

/-- The next mount's number: the counter wraps as a 32-bit one does. -/
def newmountid (n : Ids) : UInt32 × Ids :=
  (UInt32.ofNat n.mountid, { n with mountid := n.mountid + 1 })

def newpgrpid (n : Ids) : UInt32 × Ids :=
  (UInt32.ofNat n.pgrpid, { n with pgrpid := n.pgrpid + 1 })

end Ids

def mnthash : Nat := 32

structure Ns where
  mnthash : Fin mnthash → List Mhead
  id : UInt32
  noattach : Bool

/-- Which chain a channel's mount head is on: the low bits of the qid's path. -/
def mounth (c : Chan) : Fin mnthash :=
  ⟨(c.qid.path &&& 31).toNat, by
    rw [UInt64.toNat_and]
    exact lt_of_le_of_lt Nat.and_le_right (by decide)⟩

theorem mounth_eq_of_eqchan {a b : Chan} (same : eqchan a b = true) : mounth a = mounth b := by
  simp only [mounth, (eqchan_iff.1 same).1]

def Mhead.isOn (on : Chan) (h : Mhead) : Bool := h.mfrom.any fun f => eqchan f.val on

/-- The references a head holds, in the order `closepgrp` lets go of them. -/
def Mhead.held (h : Mhead) : List (Rc Chan) := h.mfrom.toList ++ h.mount.map Element.chan

namespace Ns

def new (n : Ids) : Ns × Ids :=
  (⟨fun _ => [], n.newpgrpid.1, false⟩, n.newpgrpid.2)

def setNoattach (ns : Ns) (on : Bool) : Ns := { ns with noattach := ns.noattach || on }

/-- Where on its chain the head of a file is, if there is one. -/
def lookup (ns : Ns) (on : Chan) : Option Nat :=
  (ns.mnthash (mounth on)).findIdx? (Mhead.isOn on)

def findmount (ns : Ns) (on : Chan) : Option Mhead :=
  ((ns.mnthash (mounth on)).find? (Mhead.isOn on)).filter fun h => !h.mount.isEmpty

def elements (ns : Ns) (on : Chan) : Option (List Element) :=
  (ns.findmount on).map Mhead.mount

def heads (ns : Ns) : List Mhead := (List.finRange Name.mnthash).flatMap ns.mnthash

def setChain (ns : Ns) (b : Fin Name.mnthash) (chain : List Mhead) : Ns :=
  { ns with mnthash := Function.update ns.mnthash b chain }

def push (ns : Ns) (b : Fin Name.mnthash) (h : Mhead) : Ns :=
  ns.setChain b (ns.mnthash b ++ [h])

def setHead (ns : Ns) (b : Fin Name.mnthash) (j : Nat) (h : Mhead) : Ns :=
  ns.setChain b ((ns.mnthash b).set j h)

def unlink (ns : Ns) (b : Fin Name.mnthash) (j : Nat) : Ns :=
  ns.setChain b ((ns.mnthash b).eraseIdx j)

/-- A `-c` bind of a union, or of a mount that is not itself creatable, is refused. -/
def forbids (new : Element) : List Element → Bool
  | [] => false
  | u :: us => new.create && (!us.isEmpty || !u.create)

/-- The flags of the elements a union brings with the one that was bound. -/
def order : Bind → UInt32
  | .replace | .after => Mflag.mafter
  | .before => Mflag.mbefore

/-- The new element and the rest of the union it was reached through. -/
def group (new : Element) (union : List Element) (how : Bind) : List Element :=
  new :: (union.drop 1).map fun extra => Element.shared extra.chan (order how) extra.spec

def number : List Element → Ids → List Element × Ids
  | [], n => ([], n)
  | e :: es, n =>
      ({ e with mountid := n.newmountid.1 } :: (number es n.newmountid.2).1,
        (number es n.newmountid.2).2)

/-- Put each element of a group where its index says, as `Before` does. -/
def insertAll (list : List Element) (group : List Element) : List Element :=
  group.zipIdx.foldl (fun l e => l.insertIdx e.2 e.1) list

def place (how : Bind) (list group : List Element) : List Element :=
  match how with
  | .replace => group
  | .before => insertAll list group
  | .after => list ++ group

def replaced (how : Bind) (list : List Element) : List (Rc Chan) :=
  match how with
  | .replace => list.map Element.chan
  | .before | .after => []

/-- A head for a file nothing is mounted on. If the mount is to a union, the directory itself
is the union's first element. -/
def newmhead (on : Rc Chan) (how : Bind) (n : Ids) : Mhead × Ids :=
  if how = .replace then (⟨some on, []⟩, n)
  else (⟨some on, [{ Element.shared on 0 "" with mountid := n.newmountid.1 }]⟩, n.newmountid.2)

/-- The place and the head `cmount` mounts on: the one there is, or a new one. -/
def headFor (ns : Ns) (n : Ids) (on : Rc Chan) (how : Bind) : Nat × Mhead × Ns × Ids :=
  match ns.lookup on.val with
  | some j => (j, ((ns.mnthash (mounth on.val))[j]?).getD ⟨none, []⟩, ns, n)
  | none =>
      ((ns.mnthash (mounth on.val)).length, (newmhead on how n).1,
        ns.push (mounth on.val) (newmhead on how n).1, (newmhead on how n).2)

/-- Put `new`, and the rest of the union it was reached through, over the file `on`. Answers
the new mount's number and the channels it let go of. -/
def cmount (ns : Ns) (n : Ids) (on : Rc Chan) (new : Element) (union : List Element) (how : Bind) :
    Except String (UInt32 × List (Rc Chan)) × Ns × Ids :=
  if (on.val.qid.qtype ^^^ new.chan.val.qid.qtype) &&& qtdir != 0 then (.error emount, ns, n)
  else if !on.val.isDir && how != .replace then (.error emount, ns, n)
  else if forbids new union then (.error emount, ns, n)
  else
    let spot := ns.headFor n on how
    let numbered := number (group new union how) spot.2.2.2
    (.ok (spot.2.2.2.newmountid.1, replaced how spot.2.1.mount),
      spot.2.2.1.setHead (mounth on.val) spot.1
        { spot.2.1 with mount := place how spot.2.1.mount numbered.1 },
      numbered.2)

/-- Take what is mounted on a file off it: everything, or the first element that `named`
picks. Answers what was let go of. -/
def cunmount (ns : Ns) (on : Chan) (named : Option (Chan → Bool)) :
    Except String (List (Rc Chan)) × Ns :=
  match ns.lookup on with
  | none => (.error eunmount, ns)
  | some j =>
      let h := ((ns.mnthash (mounth on))[j]?).getD ⟨none, []⟩
      match named with
      | none => (.ok (h.mount.map Element.chan ++ h.mfrom.toList), ns.unlink (mounth on) j)
      | some is =>
          match h.mount.findIdx? (fun e => is e.chan.val) with
          | none => (.error eunion, ns)
          | some i =>
              let gone := (h.mount[i]?).toList.map Element.chan
              if (h.mount.eraseIdx i).isEmpty then
                (.ok (gone ++ h.mfrom.toList), ns.unlink (mounth on) j)
              else
                (.ok gone, ns.setHead (mounth on) j { h with mount := h.mount.eraseIdx i })

/-- The last reference to the namespace is going: every channel it holds is handed back, and
every chain is emptied. -/
def closepgrp (ns : Ns) : List (Rc Chan) × Ns :=
  (ns.heads.flatMap Mhead.held, { ns with mnthash := fun _ => [] })

/-- Where an element is: its chain, its head's place on the chain, its own in the list. -/
abbrev Loc := Fin Name.mnthash × Nat × Nat

/-- Each element's number and where it is, chain by chain. -/
def copies (ns : Ns) : List (UInt32 × Loc) :=
  (List.finRange Name.mnthash).flatMap fun b =>
    (ns.mnthash b).zipIdx.flatMap fun h =>
      h.1.mount.zipIdx.map fun e => (e.1.mountid, b, h.2, e.2)

def setMountid (ns : Ns) (l : Loc) (u : UInt32) : Ns :=
  ns.setChain l.1 ((ns.mnthash l.1).modify l.2.1 fun h =>
    { h with mount := h.mount.modify l.2.2 fun e => { e with mountid := u } })

def renumber : List (UInt32 × Loc) → Ns → Ids → Ns × Ids
  | [], ns, n => (ns, n)
  | c :: cs, ns, n => renumber cs (ns.setMountid c.2 n.newmountid.1) n.newmountid.2

/-- A copy of a namespace is a new group: every element is numbered as it is made, and then
again in the order of the originals' numbers. -/
def clone (ns : Ns) (n : Ids) : Ns × Ids :=
  let made := renumber ns.copies ns n
  let sorted := renumber (ns.copies.mergeSort fun c d => c.1 ≤ d.1) made.1 made.2
  ({ sorted.1 with id := sorted.2.newpgrpid.1, noattach := ns.noattach }, sorted.2.newpgrpid.2)

end Ns

end Ipnx.Name
