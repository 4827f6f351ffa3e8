import Ipnx.Name.Walk
import Ipnx.Proc.Table

/-!
# Where a name starts

The first step of `namec`: a name that begins with `#` attaches the device of its letter, and
any other starts at the root or at the current directory. The elements of the name are the
walk's business.
-/

namespace Ipnx.Name

def enoattach : String := "mount/attach disallowed"
def ebadsharp : String := "unknown device in # filename"
def ebadchar : String := "bad character in file name"
def eempty : String := "empty file name"

/-- The controls, `/` and DEL. -/
def isfrog (c : Char) : Bool := c.toNat < 0x20 || c == '/' || c.toNat == 0x7f

/-- A name with a character in it that no name has is refused, and the error quotes it. -/
def validname (name : String) (slashok : Bool) : Except String Unit :=
  if name.toList.any fun c => isfrog c && (!slashok || c != '/') then
    .error (String.ofList (floorChars 127 (ebadchar ++ ": '" ++ name.replace "'" "''" ++
        "'").toList))
  else .ok ()

/-- The device a `#` name names, the spec after its letter, and what is below. -/
def split (name : String) : Option (DevId × String × String) :=
  match name.toList with
  | '#' :: letter :: tail =>
      (DevId.fromLetter letter).map fun dev =>
        (dev, String.ofList (tail.takeWhile (· != '/')),
          String.ofList ((tail.dropWhile (· != '/')).drop 1))
  | _ => none

def sharp (name : String) : Bool := name.toList.head? = some '#'

/-- The devices a sandboxed process may still attach: pipes, its descriptors, its
environment, the console's files and its processes. -/
def sandbox : List Char := ['|', 'd', 'e', 'c', 'p']

/-- Where a walk starts: the channel, whether what is mounted is passed by, and the reference
the channel is if it is not the walk's own. -/
structure Start where
  chan : Chan
  nomount : Bool
  src : Option (Rc Chan)

/-- Step 1 of `namec`. `attach` is the devices' own; the mount driver is reached through
`mount` and no other way. -/
def start (attach : DevId → String → Except String Chan) (ns : Ns) (name : String)
    (slash dot : Rc Chan) : Except String Start :=
  if name.isEmpty then .error eempty
  else
    match validname name true with
    | .error e => .error e
    | .ok () =>
        if sharp name then
          match split name with
          | none => .error ebadsharp
          | some (dev, spec, _) =>
              if dev = .mnt then .error enoattach
              else if ns.noattach && !sandbox.contains dev.letter then .error enoattach
              else (attach dev spec).map fun chan => ⟨chan, true, none⟩
        else if name.toList.head? = some '/' then .ok ⟨slash.val, false, some slash⟩
        else .ok ⟨dot.val, false, some dot⟩

def attaches (name : String) : Option DevId := if sharp name then (split name).map (·.1) else none

/-- A name that attaches no device a sandboxed process may attach. -/
def Outside (name : String) : Prop :=
  sharp name = true ∧ ∀ dev, attaches name = some dev → dev.letter ∉ sandbox

variable {attach : DevId → String → Except String Chan} {ns : Ns} {name : String}
  {slash dot : Rc Chan}

theorem start_outside (shut : ns.noattach = true) (outside : Outside name) :
    ∃ e, start attach ns name slash dot = .error e := by
  obtain ⟨is, forbidden⟩ := outside
  unfold start
  split_ifs with empty
  · exact ⟨_, rfl⟩
  rcases validname name true with e | ok
  · exact ⟨_, rfl⟩
  rcases parsed : split name with _ | ⟨dev, spec, below⟩
  · exact ⟨_, rfl⟩
  have letter := forbidden dev (by simp [attaches, is, parsed])
  simp only
  split_ifs with mnt refused
  · exact ⟨_, rfl⟩
  · exact ⟨_, rfl⟩
  · simp [shut, letter] at refused

theorem attaches_of_start {s : Start} (shut : ns.noattach = true)
    (started : start attach ns name slash dot = .ok s) :
    ∀ dev, attaches name = some dev → dev.letter ∈ sandbox := by
  intro dev named
  by_contra letter
  have is : sharp name = true := by
    by_contra not
    simp [attaches, not] at named
  have outside : Outside name := by
    refine ⟨is, fun dev' named' => ?_⟩
    rw [named] at named'
    rw [← Option.some.inj named']
    exact letter
  have refused : ∃ e, start attach ns name slash dot = .error e := start_outside shut outside
  rcases refused with ⟨e, failed⟩
  rw [failed] at started
  cases started

end Ipnx.Name
