import Ipnx.Fd.Slots
import Ipnx.Name.Sandbox

/-!
# Calls that make descriptors

`open`, `create`, `pipe`, `fauth` and the host's call of `kernel/src/lib.rs`: channels are opened
and put in the caller's table. What a walk or an open answers is the devices'. A reference the call
has is given to the table, or back by `cclose`, which tells the device when it was the last; one
that is only dropped tells nobody.
-/

namespace Ipnx

namespace Fds

variable {f f' : Fds} {c : Cell} {fd : Fd}

def taken (f : Fds) : Nat := tally (fun s => if s.isSome then 1 else 0) f.slots

/-- How many more descriptors the table has room for. -/
def room (f : Fds) : Nat := max f.nfd most - f.taken

theorem taken_le (f : Fds) : f.taken ≤ f.slots.length := by
  have bound (l : List (Option Cell)) :
      tally (fun s => if s.isSome then 1 else 0) l ≤ l.length := by
    induction l with
    | nil => exact Nat.zero_le _
    | cons s l ih =>
        rw [tally_cons, List.length_cons]
        split_ifs <;> omega
  exact bound f.slots

theorem length_le_nfd (f : Fds) : f.slots.length ≤ f.nfd := by
  simp only [nfd, deltafd]
  omega

theorem taken_put {i : Nat} (free : f.get i = none) (c : Cell) :
    (f.put i c).taken = f.taken + 1 := by
  have grown : (f.grow i).taken = f.taken := by simp [taken, grow, tally_replicate]
  have written := tally_set (fun s => if s.isSome then 1 else 0) (f.grow_slot i) (some c)
  rw [get_nat] at free
  rw [free] at written
  simp only [Option.isSome_none, Option.isSome_some] at written
  rw [← grown]
  exact written

theorem taken_full (full : ∀ i < f.slots.length, f.get i ≠ none) : f.taken = f.slots.length := by
  have all (l : List (Option Cell)) (held : ∀ s ∈ l, s ≠ none) :
      tally (fun s => if s.isSome then 1 else 0) l = l.length := by
    induction l with
    | nil => rfl
    | cons s l ih =>
        have here := held s (List.mem_cons_self ..)
        rw [tally_cons, ih fun s' there => held s' (List.mem_cons_of_mem _ there),
          if_pos (Option.isSome_iff_ne_none.2 here), List.length_cons]
        omega
  apply all
  intro s there
  rcases List.mem_iff_getElem?.1 there with ⟨i, here⟩
  have inside : i < f.slots.length := (List.getElem?_eq_some_iff.1 here).1
  have held := full i inside
  rw [get_nat, here] at held
  exact held

theorem taken_lt {i : Nat} (inside : i < f.slots.length) (free : f.get i = none) :
    f.taken < f.slots.length := by
  have put := taken_put free 0
  have most := taken_le (f.put i 0)
  rw [length_put] at most
  omega

theorem findfreefd_room (f : Fds) :
    (f.findfreefd 0 = none ∧ f.room = 0) ∨
    ∃ i, f.findfreefd 0 = some i ∧ IsLeast {i : Nat | f.get i = none} i ∧
      ∀ c, (f.put i c).room + 1 = f.room := by
  have first := search_least (f := f) (Nat.zero_le _)
  have held := taken_le f
  have long := length_le_nfd f
  have searched : f.findfreefd 0 = if f.nfd ≤ _ ∧ (f.nfd + deltafd ≤ _ ∨ 5000 ≤ f.nfd) then none
      else some _ := rfl
  rw [searched]
  generalize ((List.range' 0 (f.slots.length - 0)).find? fun i => f.slots[i]? == some none).getD
    (max f.slots.length 0) = i at first
  have least := least_from first
  have reached : i ≤ f.slots.length := least.2 (get_past le_rfl)
  have full : i = f.slots.length → f.taken = f.slots.length := by
    intro last
    apply taken_full
    intro j inside free
    have lower := least.2 free
    omega
  split_ifs with past
  · left
    have all := full (by omega)
    refine ⟨rfl, ?_⟩
    simp only [room, most, deltafd] at *
    omega
  · right
    refine ⟨i, rfl, least, fun c => ?_⟩
    have put := taken_put least.1 c
    have grown := length_put f i c
    rcases Nat.lt_or_ge i f.slots.length with inside | outside
    · have fewer := taken_lt inside least.1
      have same : (f.put i c).nfd = f.nfd := by
        rw [nfd, nfd, grown, Nat.max_eq_left inside]
      simp only [room, most] at *
      omega
    · have last : i = f.slots.length := by omega
      have all := full last
      rw [Nat.max_eq_right (by omega)] at grown
      simp only [room, nfd, most, deltafd] at *
      omega

theorem newfd_room (f : Fds) (c : Cell) :
    (f.newfd c = none ∧ f.room = 0) ∨
    ∃ fd f', f.newfd c = some (fd, f') ∧ Takes f fd c f' ∧ f'.room + 1 = f.room := by
  rcases findfreefd_room f with ⟨none_, full⟩ | ⟨i, found, least, room⟩
  · left
    exact ⟨by rw [newfd, none_], full⟩
  · right
    exact ⟨i, f.put i c, by rw [newfd, found], takes_put least c, room c⟩

/-- With the slots below held, the search may start above them. -/
theorem findfreefd_above {start : Nat} (reached : start ≤ f.slots.length)
    (below : ∀ i < start, f.get i ≠ none) : f.findfreefd start = f.findfreefd 0 := by
  have here := search_least reached
  have first := search_least (f := f) (Nat.zero_le _)
  have same : {i : Nat | start ≤ i ∧ f.get i = none} = {i : Nat | 0 ≤ i ∧ f.get i = none} := by
    ext i
    constructor
    · rintro ⟨_, free⟩
      exact ⟨Nat.zero_le i, free⟩
    · rintro ⟨_, free⟩
      by_contra low
      exact below i (by by_contra high; exact low ⟨by omega, free⟩) free
  rw [same] at here
  rw [findfreefd, findfreefd, here.unique first]

theorem newfd_takes (made : f.newfd c = some (fd, f')) : Takes f fd c f' := by
  rcases newfd_room f c with ⟨none_, -⟩ | ⟨fd', f'', some_, takes, -⟩
  · cases none_.symm.trans made
  · cases some_.symm.trans made
    exact takes

theorem newfd2_room (f : Fds) (c0 c1 : Cell) :
    f.newfd2 c0 c1 = none ∨
    ∃ fd0 fd1 mid f', f.newfd2 c0 c1 = some (fd0, fd1, f') ∧ f.newfd c0 = some (fd0, mid) ∧
      mid.newfd c1 = some (fd1, f') := by
  rcases findfreefd_room f with ⟨none_, -⟩ | ⟨a, found, least, -⟩
  · left
    rw [newfd2, none_]
  have taken := takes_put least c0
  have above : (f.put a c0).findfreefd (a + 1) = (f.put a c0).findfreefd 0 := by
    apply findfreefd_above
    · rw [length_put]
      omega
    · intro i low free
      have was := taken.placed i
      rw [free] at was
      split_ifs at was with same
      have lower := least.2 was.symm
      omega
  rcases findfreefd_room (f.put a c0) with ⟨none_, -⟩ | ⟨b, found', -, -⟩
  · left
    simp only [newfd2, found, above, none_]
  · right
    refine ⟨a, b, f.put a c0, (f.put a c0).put b c1, ?_, ?_, ?_⟩
    · simp only [newfd2, found, above, found']
    · rw [newfd, found]
    · rw [newfd, found']

end Fds

/-- A channel that is a call's own value, and no reference to one. -/
abbrev Temp := Nat

/-- What a device's work comes to: a walk and the open or the create after it, the pipe device's
attach, a walk and an open of a file of it or of a server's, a server's authentication and attach;
and whether a channel may be a wire, and the name it is kept by. -/
structure Devs (D : Type) where
  walkOpen : D → String → UInt16 → Except String Cell × D
  walkCreate : D → String → UInt16 → UInt32 → Except String Cell × D
  attach : D → Except String Temp × D
  dwalk : D → Temp → String → Except String (Option Temp) × D
  dopen : D → Temp → UInt16 → Except String Cell × D
  dauth : D → Cell → String → Except String Cell × D
  dmount : D → Cell → String → Except String Temp × D
  fdtochan : D → Cell → Except String Unit
  wirekey : Cell → Nat
  hostkey : Nat → Nat

/-- The error of a call that is put to sleep, and runs again from the top. -/
def slept : String := "asleep for a reply"

/-- The caller's table, the devices, the wires that are kept, and the references the call has; and
what it opened and attached, and what it has told the devices to close. -/
structure Making (D : Type) where
  fds : Fds
  dev : D
  wires : List (Nat × Cell)
  held : List Cell
  opened : List Cell
  attached : List Temp
  closing : List Cell
  letgo : List Temp

namespace Making

variable {D : Type}

def new (fds : Fds) (dev : D) (wires : List (Nat × Cell)) : Making D :=
  ⟨fds, dev, wires, [], [], [], [], []⟩

/-- The references to a channel that will be there when the call is over. -/
def refs (others : Cell → Nat) (w : Making D) (c : Cell) : Nat :=
  w.fds.refs c + tally (one c) (w.wires.map Prod.snd) + others c

abbrev Make (D : Type) := Prog (Making D)

def step {α : Type} (call : D → Except String α × D) : Make D (Except String α) := do
  let w ← get
  modify fun w => { w with dev := (call w.dev).2 }
  pure (call w.dev).1

/-- An opened channel's reference is the call's. -/
def hold (c : Cell) : Make D Unit :=
  modify fun w => { w with held := w.held ++ [c], opened := w.opened ++ [c] }

def opens (call : D → Except String Cell × D) : Make D (Except String Cell) := do
  match ← step call with
  | .ok c => do
      hold c
      pure (.ok c)
  | .error e => pure (.error e)

variable (others : Cell → Nat) (k : Devs D)

/-- A reference fewer, and at the last the device is told. -/
def cclose (c : Cell) : Make D Unit :=
  modify fun w =>
    let w := { w with held := w.held.erase c }
    if w.refs others c = 0 ∧ c ∉ w.held then { w with closing := w.closing ++ [c] } else w

def defer (c : Temp) : Make D Unit := modify fun w => { w with letgo := w.letgo ++ [c] }

def enofd : String := "no free file descriptors"
def ebadfd : String := "fd out of range or not open"

/-- The process is there, and so is its table. -/
def newfd (c : Cell) : Make D Fd := do
  let w ← get
  match w.fds.newfd c with
  | some (fd, f) => do
      modify fun w => { w with fds := f, held := w.held.erase c }
      pure fd
  | none => do
      cclose others c
      throw enofd

def checkmode (mode : Int) (flags : UInt16) : Except String Unit :=
  if mode < 0 ∨ 0xffff < mode then .error ebadarg
  else (Name.NameKernel.openmode (.ofNat mode.toNat &&& ~~~flags)).map fun _ => ()

def oexcl : UInt16 := 0x1000
def ordwr : UInt16 := 2

def lift {α : Type} : Except String α → Make D α
  | .ok a => pure a
  | .error e => throw e

def sysopen (path : String) (mode : Int) : Make D (List Fd) := do
  lift (checkmode mode 0)
  let c ← lift (← opens (k.walkOpen · path (.ofNat mode.toNat)))
  pure [← newfd others c]

def syscreate (path : String) (mode : Int) (perm : UInt32) : Make D (List Fd) := do
  lift (checkmode mode oexcl)
  let c ← lift (← opens (k.walkCreate · path (.ofNat mode.toNat) perm))
  pure [← newfd others c]

/-- An end of a pipe, walked to and opened. -/
def pipeend (dir : Temp) (name : String) : Make D (Except String Cell) := do
  match ← step (k.dwalk · dir name) with
  | .error e => pure (.error e)
  | .ok none => pure (.error "no such file")
  | .ok (some c) => opens (k.dopen · c ordwr)

def closeall : List Cell → Make D Unit
  | [] => pure ()
  | c :: cs => do
      cclose others c
      closeall cs

def syspipe : Make D (List Fd) := do
  let dir ← lift (← step k.attach)
  let data ← lift (← pipeend k dir "data")
  match ← pipeend k dir "data1" with
  | .error e => do
      cclose others data
      throw e
  | .ok data1 => do
      let w ← get
      match w.fds.newfd2 data data1 with
      | some (a, b, f) => do
          modify fun w => { w with fds := f, held := (w.held.erase data).erase data1 }
          pure [a, b]
      | none => do
          cclose others data
          cclose others data1
          throw enofd

/-- A wire is kept, unless one is by its name. -/
def keepwire (c : Cell) : Make D Unit :=
  modify fun w =>
    if (w.wires.find? (·.1 = k.wirekey c)).isSome then w
    else { w with wires := w.wires ++ [(k.wirekey c, c)] }

def sysfauth (fd : Fd) (aname : String) : Make D (List Fd) := do
  let w ← get
  match w.fds.get fd with
  | none => throw ebadfd
  | some c => do
      lift (k.fdtochan w.dev c)
      let ac ← lift (← opens (k.dauth · c aname))
      keepwire k c
      pure [← newfd others ac]

/-- The wire to the host's server: one that is kept, or one opened now, and kept. -/
def hostwire (server : Nat) : Make D Cell := do
  let w ← get
  match w.wires.find? (·.1 = k.hostkey server) with
  | some kept => pure kept.2
  | none => do
      let c ← lift (← opens (k.walkOpen · ("#9/" ++ toString server) ordwr))
      modify fun w => { w with wires := w.wires ++ [(k.hostkey server, c)], held := w.held.erase c }
      pure c

/-- What a host's call opened, and its attach, closed; unless it has been put to sleep. -/
def unopen {α : Type} (opened : List Cell) (root : Temp) (e : String) : Make D α :=
  if e = slept then throw e
  else do
    closeall others opened
    defer root
    throw e

/-- The files of a host's call, one after another. -/
def openfiles (root : Temp) : List (String × Int) → List Cell → Make D (List Cell)
  | [], opened => pure opened
  | (name, mode) :: files, opened => do
      match ← step (k.dwalk · root name) with
      | .error e => unopen others opened root e
      | .ok none => unopen others opened root Name.enonexist
      | .ok (some c) => do
          match ← opens (k.dopen · c (.ofNat mode.toNat)) with
          | .error e => unopen others opened root e
          | .ok c => openfiles root files (opened ++ [c])

/-- The descriptors of a host's call, one after another. -/
def newfds : List Cell → Make D (List Fd)
  | [] => pure []
  | c :: cs => do
      let fd ← newfd others c
      let fds ← newfds cs
      pure (fd :: fds)

/-- Refused in a namespace that is shut. -/
def permit (noattach : Bool) : Make D Unit :=
  if noattach then throw Name.enoattach else pure ()

/-- A host's call up to its descriptors: the channels it opened. -/
def oscmdfiles (noattach : Bool) (server : Nat) (aname : String) (files : List (String × Int)) :
    Make D (List Cell) := do
  permit noattach
  lift (Name.NameKernel.openmodes files)
  let wire ← hostwire k server
  let root ← lift (← step (k.dmount · wire aname))
  modify fun w => { w with attached := w.attached ++ [root] }
  let opened ← openfiles others k root files []
  defer root
  pure opened

def sysoscmd (noattach : Bool) (server : Nat) (aname : String) (files : List (String × Int)) :
    Make D (List Fd) := do
  let opened ← oscmdfiles others k noattach server aname files
  newfds others opened

/-- A call that makes descriptors; of the host's, whether the caller is shut in. -/
inductive Call where
  | open (path : String) (mode : Int)
  | create (path : String) (mode : Int) (perm : UInt32)
  | pipe
  | fauth (fd : Fd) (aname : String)
  | oscmd (noattach : Bool) (server : Nat) (aname : String) (files : List (String × Int))

def sys : Call → Make D (List Fd)
  | .open path mode => sysopen others k path mode
  | .create path mode perm => syscreate others k path mode perm
  | .pipe => syspipe others k
  | .fauth fd aname => sysfauth others k fd aname
  | .oscmd noattach server aname files => sysoscmd others k noattach server aname files

end Making

end Ipnx
