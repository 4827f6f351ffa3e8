import Ipnx.Lib.Prog
import Ipnx.Lib.System
import Ipnx.Name.Start
import Ipnx.Proc.Sleep

/-!
# The sandbox of `RFNOMNT`

Processes with their namespaces: `rfork` shares, copies or clears the caller's, and the calls
that resolve a name, mount a server or start a host's command look at its flag. What the
devices, the descriptors and the rest of a walk answer is the `World`'s, so that a run here is
a run with any devices and servers at all. The kernel's state keeps, beside what the source
has, who attached which device, who attached a server and who started a command.
-/

namespace Ipnx.Name

def enoproc : String := "no such process"

/-- What the naming of files uses of a process. One that is exiting makes no call. -/
structure NameProc where
  ns : Option Nat
  slash : Rc Chan
  dot : Option (Rc Chan)
  exiting : Bool
deriving DecidableEq, Repr

structure NameKernel where
  procs : Nat → Option NameProc
  next : Nat
  spaces : List Ns
  ids : Ids
  attached : List (Nat × DevId)
  servers : List Nat
  commands : List Nat

/-- The access modes of `namec`. -/
inductive Amode
  | access | bind | todir | open | mount | create | remove
deriving DecidableEq, Repr

inductive NameCall
  | path (a : Amode) (name : String)
  | bind (name old : String) (flag : UInt32)
  | unmount (name : Option String) (old : String)
  | mount (fd afd : Int) (old : String) (flag : UInt32) (aname : String)
  | oscmd (server : Nat) (aname : String) (files : List (String × Int))
  | pipe
  | dup (old new : Int)
  | rfork (flags : Nat)
  | exits
deriving DecidableEq, Repr

def NameCall.names : NameCall → List String
  | .path _ name => [name]
  | .bind name old _ => [name, old]
  | .unmount (some name) old => [old, name]
  | .unmount none old => [old]
  | .mount _ _ old _ _ => [old]
  | _ => []

/-- What a sandbox refuses: a name that attaches another device, a mount, a command. -/
def NameCall.Outside : NameCall → Prop
  | .mount .. | .oscmd .. => True
  | c => ∃ name ∈ c.names, Name.Outside name

/-- What the rest of the kernel answers in the course of a call: the devices' attaches, the
walk of each name after its start and the head it was found on, the descriptors, the servers'
attaches, whether a host's wire is kept, and what follows in a command. -/
structure World where
  attach : DevId → String → Except String Chan
  namec : String → Except String (Rc Chan × List Element)
  fdtochan : Except String Unit
  dmount : Except String (Rc Chan)
  kept : Bool
  opened : Except String Unit
  is : Chan → Bool

namespace NameKernel

variable (w : World) (p : Nat)

def lift {α : Type} : Except String α → Prog NameKernel α
  | .ok a => pure a
  | .error e => throw e

def pgrp : Prog NameKernel (Nat × Ns) := do
  let k ← get
  match (k.procs p).bind NameProc.ns with
  | none => throw enoproc
  | some i =>
      match k.spaces[i]? with
      | none => throw enoproc
      | some ns => pure (i, ns)

def names : Prog NameKernel (Rc Chan × Rc Chan) := do
  let k ← get
  match k.procs p with
  | some ⟨_, slash, some dot, _⟩ => pure (slash, dot)
  | _ => throw enoproc

def namec (name : String) : Prog NameKernel (Rc Chan × List Element) := do
  let (slash, dot) ← names p
  let (_, ns) ← pgrp p
  let _ ← lift (start w.attach ns name slash dot)
  modify fun k => { k with attached := k.attached ++ (attaches name).toList.map fun d => (p, d) }
  lift (w.namec name)

def bindflag (flag : UInt32) : Except String Unit :=
  if flag &&& ~~~Mflag.mmask != 0 || flag &&& 3 == 3 then .error ebadarg else .ok ()

def bindOf (flag : UInt32) : Bind :=
  if flag &&& 3 = 1 then .before else if flag &&& 3 = 2 then .after else .replace

/-- The namespace's half of a bind or a mount. -/
def cmount (on new : Rc Chan) (union : List Element) (flag : UInt32) (spec : String) :
    Prog NameKernel Unit := do
  let (i, ns) ← pgrp p
  let k ← get
  let made := ns.cmount k.ids on (Element.shared new flag spec) union (bindOf flag)
  modify fun k => { k with spaces := k.spaces.set i made.2.1, ids := made.2.2 }
  lift (made.1.map fun _ => ())

def cunmount (on : Rc Chan) (named : Option (Chan → Bool)) : Prog NameKernel Unit := do
  let (i, ns) ← pgrp p
  let made := ns.cunmount on.val named
  modify fun k => { k with spaces := k.spaces.set i made.2 }
  lift (made.1.map fun _ => ())

def permit : Prog NameKernel Unit := do
  let (_, ns) ← pgrp p
  if ns.noattach then throw enoattach

def edit (k : NameKernel) (p : Nat) (g : NameProc → NameProc) : NameKernel :=
  { k with procs := Function.update k.procs p ((k.procs p).map g) }

def chdir (c : Rc Chan) : Prog NameKernel Unit :=
  modify fun k => k.edit p fun q => { q with dot := some c }

/-- The calls of one name: what they do with the file is the devices', but for `chdir`. -/
def syspath (a : Amode) (name : String) : Prog NameKernel Unit := do
  let (c, _) ← namec w p name
  if a = .todir then chdir p c

def sysbind (name old : String) (flag : UInt32) : Prog NameKernel Unit := do
  lift (bindflag flag)
  let (c0, union) ← namec w p name
  let (c1, _) ← namec w p old
  cmount p c1 c0 union flag ""

def sysunmount (name : Option String) (old : String) : Prog NameKernel Unit := do
  let (on, _) ← namec w p old
  match name with
  | some n =>
      let _ ← namec w p n
      cunmount p on (some w.is)
  | none => cunmount p on none

def sysmount (old : String) (flag : UInt32) (aname : String) : Prog NameKernel Unit := do
  lift (bindflag flag)
  lift (validname aname true)
  permit p
  lift w.fdtochan
  let c0 ← lift w.dmount
  modify fun k => { k with servers := k.servers ++ [p] }
  let (c1, _) ← namec w p old
  cmount p c1 c0 [] flag aname

def openmode (omode : UInt16) : Except String UInt16 :=
  let o := omode &&& ~~~(16 ||| 32 ||| 64)
  if o > 3 then .error ebadarg else if o = 3 then .ok 0 else .ok o

def openmodes : List (String × Int) → Except String Unit
  | [] => .ok ()
  | (_, mode) :: files =>
      if mode < 0 || 0xffff < mode then .error ebadarg
      else
        match openmode (UInt16.ofNat mode.toNat) with
        | .error e => .error e
        | .ok _ => openmodes files

/-- A host's command: its server attached as `mount` attaches one, over the wire that is kept
or one opened now. -/
def sysoscmd (server : Nat) (files : List (String × Int)) : Prog NameKernel Unit := do
  permit p
  lift (openmodes files)
  if !w.kept then
    let _ ← namec w p ("#9/" ++ toString server)
  let _ ← lift w.dmount
  modify fun k => { k with commands := k.commands ++ [p] }
  lift w.opened

def syspipe : Prog NameKernel Unit := do
  let _ ← lift (w.attach .pipe "")
  modify fun k => { k with attached := k.attached ++ [(p, .pipe)] }
  lift w.opened

/-- Clear, copy or share a namespace. A copy of none is a new one. -/
def table (k : NameKernel) (src : Option Nat) (clear copy : Bool) : Option Nat × NameKernel :=
  if clear then
    (some k.spaces.length,
      { k with spaces := k.spaces ++ [(Ns.new k.ids).1], ids := (Ns.new k.ids).2 })
  else if copy then
    match src.bind (k.spaces[·]?) with
    | some ns => (some k.spaces.length,
        { k with spaces := k.spaces ++ [(ns.clone k.ids).1], ids := (ns.clone k.ids).2 })
    | none => (some k.spaces.length,
        { k with spaces := k.spaces ++ [(Ns.new k.ids).1], ids := (Ns.new k.ids).2 })
  else (src, k)

def noattach (k : NameKernel) (i : Option Nat) : Bool :=
  (i.bind (k.spaces[·]?)).any Ns.noattach

def setNoattach (k : NameKernel) (i : Option Nat) (on : Bool) : NameKernel :=
  match i with
  | some i => { k with spaces := k.spaces.modify i fun ns => ns.setNoattach on }
  | none => k

/-- The namespace an `rfork` gives: its table, the caller's flag on it if it is not shared,
and the flag the caller asks for. -/
def forkNs (k : NameKernel) (src : Option Nat) (flags : Nat) : Option Nat × NameKernel :=
  let (ns, made) := k.table src (Rf.has flags Rf.cnameg) (Rf.has flags Rf.nameg)
  let kept := if Rf.has flags (Rf.nameg ||| Rf.cnameg) then made.setNoattach ns (k.noattach src)
      else made
  (ns, if Rf.has flags Rf.nomnt then kept.setNoattach ns true else kept)

/-- A new process, or with no `RFPROC` new tables for the caller. Answers the child. -/
def sysrfork (k : NameKernel) (flags : Nat) : Except String (Option Nat) × NameKernel :=
  match Procs.rforkcheck flags, k.procs p with
  | .error e, _ => (.error e, k)
  | .ok _, none => (.error enoproc, k)
  | .ok _, some me =>
      let (ns, k') := k.forkNs me.ns flags
      if Rf.has flags Rf.proc then
        (.ok (some k.next), { k' with
          procs := Function.update k'.procs k.next (some { me with ns := ns, exiting := false })
          next := k.next + 1 })
      else (.ok none, k'.edit p fun me => { me with ns := ns })

/-- The process lets go of its directory and its namespace, and is not run again. -/
def exits (k : NameKernel) (p : Nat) : NameKernel :=
  k.edit p fun q => { q with ns := none, dot := none, exiting := true }

/-- A call of a process: what it answers, and the kernel after it. -/
def call (k : NameKernel) : NameCall → Except String (Option Nat) × NameKernel
  | .path a name => done <| Prog.exec (syspath w p a name) k
  | .bind name old flag => done <| Prog.exec (sysbind w p name old flag) k
  | .unmount name old => done <| Prog.exec (sysunmount w p name old) k
  | .mount _ _ old flag aname => done <| Prog.exec (sysmount w p old flag aname) k
  | .oscmd server _ files => done <| Prog.exec (sysoscmd w p server files) k
  | .pipe => done <| Prog.exec (syspipe w p) k
  | .dup _ _ => done <| Prog.exec (lift w.fdtochan) k
  | .rfork flags => k.sysrfork p flags
  | .exits => (.ok none, k.exits p)
where
  done (r : Except String Unit × NameKernel) : Except String (Option Nat) × NameKernel :=
    (r.1.map fun _ => none, r.2)

end NameKernel

end Ipnx.Name
