import Ipnx.Host.Emca
import Ipnx.Host.Emca.Text

/-!
# The window manager

`hosts/web/www/emca.mjs`: which windows exist, how they nest, what each holds, and what is done with
them. A window is the place it is kept at, which is its id; it stays there when it goes, for an
output's files still name it. What the page draws when the model moved is left out.
-/

namespace Ipnx.Host.Emca

open Ipnx.Ninep (W T utf8)

def edeleted : String := "window deleted"

/-- What the engine says of a window that is nowhere, of which `astab` asks what it is in. -/
def enullkind : String := "Cannot read properties of null (reading 'kind')"

inductive Division
  | row | column | tabs
deriving DecidableEq, Repr

/-- A read that waits: its tag, and how much it asks for. -/
abbrev Waiting := UInt16 × Int

structure Window where
  title : String
  type : String
  role : String
  kind : Option Division
  parent : Option Nat
  children : List Nat
  current : Option Nat
  hidden : Bool
  body : String
  saved : Option String
  tag : String
  status : String
  verbs : String
  dir : String
  pid : Nat
  input : List Bytes
  reads : List Waiting
  raw : Bool
  events : Bytes
  eventreads : List Waiting
  selection : Option String
  consdec : Utf8
  gone : Bool
deriving DecidableEq, Repr

def Window.new : Window where
  title := ""
  type := ""
  role := ""
  kind := none
  parent := none
  children := []
  current := none
  hidden := false
  body := ""
  saved := some ""
  tag := ""
  status := ""
  verbs := ""
  dir := "/"
  pid := 0
  input := []
  reads := []
  raw := false
  events := []
  eventreads := []
  selection := none
  consdec := .new
  gone := false

def Window.on (title dir : String) : Window := { Window.new with title := title, dir := dir }

/-- A container, which divides its rectangle. -/
def Window.container (kind : Division) (dir : String) : Window :=
  { Window.new with kind := some kind, dir := dir }

/-- The window an output is shown in: it says where the command runs, and what it is. -/
def Window.log (n : Nat) (dir cmd : String) : Window :=
  let log := "% cd " ++ dir ++ "\n% " ++ cmd ++ "\n"
  { Window.on ("/output/" ++ toString n ++ "/log") dir with
    type := "text/plain"
    role := "look"
    body := log
    saved := some log
    status := "running " ++ cmd }

/-- Unsaved work, where a buffer is edited. -/
def Window.dirty (w : Window) : Bool :=
  w.role = "edit" ∧ w.type ≠ "inode/directory" ∧ some w.body ≠ w.saved

def Window.leaf (w : Window) : Bool := w.kind.isNone

/-- A command's output: what was fed in and what it wrote, and its log's window. -/
structure Output where
  cmd : String
  dir : String
  status : String
  stdin : String
  out : String
  err : String
  win : Nat
  dec1 : Utf8
  dec2 : Utf8
  declog : Utf8
deriving DecidableEq, Repr

/-- Every window made, the next one's id, and which are there still, in the order they were made;
the outputs, and the replies to what waited. The clock is the host's, and so is how long an array
may be. -/
structure Manager where
  win : Nat → Window
  next : Nat
  windows : List Nat
  focus : Option Nat
  outputs : List Output
  layoutText : String
  replies : List Bytes
  now : Nat
  room : Nat

def root : Nat := 1

def data (b : Bytes) (tag : UInt16) : Bytes :=
  ((W.new.u32 (.ofNat b.length)).raw b).frame T.read.reply tag

def error (tag : UInt16) (e : String) : Bytes := (W.new.s e).frame T.error.code tag

/-- What was typed, to the readers that wait: the replies, and what is left. -/
def fed : List Waiting → List Bytes → List Bytes × List Waiting × List Bytes
  | [], input => ([], [], input)
  | r :: rs, [] => ([], r :: rs, [])
  | r :: rs, b :: input =>
      if r.2 < b.length then
        let n := relative b.length r.2
        let k := fed rs (b.drop n :: input)
        (data (b.take n) r.1 :: k.1, k.2)
      else
        let k := fed rs input
        (data b r.1 :: k.1, k.2)

/-- What waits in `events`, to the readers that wait. -/
def drained : List Waiting → Bytes → List Bytes × List Waiting × Bytes
  | [], events => ([], [], events)
  | r :: rs, events =>
      if events = [] then ([], r :: rs, events)
      else
        let n := relative events.length (min r.2 events.length)
        let k := drained rs (events.drop n)
        (data (events.take n) r.1 :: k.1, k.2)

namespace Manager

def alter (m : Manager) (w : Nat) (f : Window → Window) : Manager :=
  { m with win := Function.update m.win w (f (m.win w)) }

@[simp]
theorem win_alter_self (m : Manager) (w : Nat) (f : Window → Window) :
    (m.alter w f).win w = f (m.win w) := Function.update_self ..

theorem win_alter_of_ne (m : Manager) {w v : Nat} (other : v ≠ w) (f : Window → Window) :
    (m.alter w f).win v = m.win v := Function.update_of_ne other ..

def reply (m : Manager) (bs : List Bytes) : Manager := { m with replies := m.replies ++ bs }

@[simp]
theorem win_reply (m : Manager) (bs : List Bytes) : (m.reply bs).win = m.win := rfl

/-- The root alone, a row: `/`, which the surface contains. -/
def boot (now room : Nat) : Manager where
  win := Function.update (fun _ => Window.new) root
    { Window.new with title := "/", type := "inode/system", role := "manage", kind := some .row }
  next := root + 1
  windows := [root]
  focus := none
  outputs := []
  layoutText := ""
  replies := []
  now := now
  room := room

def make (m : Manager) (w : Window) : Manager :=
  { m with
    win := Function.update m.win m.next w
    next := m.next + 1
    windows := m.windows ++ [m.next] }

def orphan (m : Manager) (w : Nat) : Manager :=
  match (m.win w).parent with
  | none => m
  | some p =>
      let i := indexOf (m.win p).children w
      let left := cutOne (m.win p).children i
      let m := m.alter p fun p =>
        { p with
          children := left
          current :=
            if p.current = some w then element left (min i ((left.length : Int) - 1))
            else p.current }
      m.alter w ({ · with parent := none })

def adopt (m : Manager) (parent w : Nat) (index : Int) : Manager :=
  let m := if (m.win w).parent.isSome then m.orphan w else m
  let m := m.alter w ({ · with parent := some parent })
  m.alter parent fun p =>
    { p with
      children := putOne p.children index w
      current := if p.kind = some .tabs ∧ p.current = none then some w else p.current }

def adoptLast (m : Manager) (parent w : Nat) : Manager :=
  m.adopt parent w (m.win parent).children.length

/-- The first leaf of a window, as many levels down as `n`. -/
def firstleafIn : Nat → Manager → Nat → Option Nat
  | 0, _, _ => none
  | n + 1, m, w =>
      if (m.win w).gone then none
      else if (m.win w).leaf ∧ w ≠ root then some w
      else
        let order :=
          match (m.win w).kind, (m.win w).current with
          | some .tabs, some c => c :: (m.win w).children
          | _, _ => (m.win w).children
        order.findSome? fun c => firstleafIn n m c

def firstleaf (m : Manager) (w : Nat) : Option Nat := firstleafIn m.next m w

def drain (m : Manager) (w : Nat) : Manager :=
  let k := drained (m.win w).eventreads (m.win w).events
  (m.alter w ({ · with eventreads := k.2.1, events := k.2.2 })).reply k.1

def post (m : Manager) (w : Nat) (line : String) : Manager :=
  (m.alter w fun w => { w with events := w.events ++ utf8 line }).drain w

def ask (m : Manager) (line : String) : Manager := m.post root (line ++ "\n")

def fill (m : Manager) (w : Nat) (path : String) (role : String) : Manager :=
  m.ask ("cd " ++ rcquote (m.win w).dir ++ "; emcaopen -w " ++ toString w ++ " " ++ rcquote path ++
    (if role = "" then "" else " " ++ rcquote role) ++ " >/dev/null")

/-- Every read that waits on a window, answered that it has gone. -/
def endreads (m : Manager) (w : Nat) : Manager :=
  (m.alter w ({ · with gone := true, reads := [], eventreads := [] })).reply
    (((m.win w).reads ++ (m.win w).eventreads).map fun r => error r.1 edeleted)

def refocus (m : Manager) (w : Nat) : Manager :=
  if m.focus = none ∨ m.focus.any (fun f => (m.win f).gone) ∨ m.focus = some w then
    { m with focus := m.firstleaf root }
  else m

/-- The command running in a window is hung up. -/
def hangup (m : Manager) (w : Nat) : Manager :=
  if (m.win w).pid = 0 then m
  else m.ask ("echo hangup >[2]/dev/null >/proc/" ++ toString (m.win w).pid ++ "/notepg")

def forget (m : Manager) (w : Nat) : Manager :=
  { m with windows := m.windows.filter (· ≠ w) }

/-- A window closed, what it holds first, and a container it leaves empty after. -/
def closeIn : Nat → Manager → Nat → Manager
  | 0, m, _ => m
  | n + 1, m, w =>
      if w = root ∨ (m.win w).gone then m
      else
        let m := (((m.win w).children.foldl (closeIn n) m).hangup w).endreads w
        let left := (m.orphan w).forget w
        let left :=
          match (m.win w).parent with
          | none => left
          | some p => if p ≠ root ∧ (left.win p).children = [] then closeIn n left p else left
        left.refocus w

theorem closeIn_of_gone {m : Manager} {n w : Nat} (done : w = root ∨ (m.win w).gone) :
    closeIn n m w = m := by
  cases n with
  | zero => rfl
  | succ n => rw [closeIn, if_pos done]

def close (m : Manager) (w : Nat) : Manager := closeIn (2 * m.next + 1) m w

theorem closeIn_rule {R : Manager → Manager → Prop} (same : ∀ m, R m m)
    (trans : ∀ a b c, R a b → R b c → R a c) (hangup : ∀ m w, R m (m.hangup w))
    (endreads : ∀ m w, root ≠ w → R m (m.endreads w))
    (out : ∀ m w, R m ((m.orphan w).forget w)) (refocus : ∀ m w, R m (m.refocus w))
    (n : Nat) (m : Manager) (w : Nat) : R m (closeIn n m w) := by
  induction n generalizing m w with
  | zero => exact same m
  | succ n ih =>
      have closings (cs : List Nat) (m : Manager) : R m (cs.foldl (closeIn n) m) := by
        induction cs generalizing m with
        | nil => exact same m
        | cons c cs more => exact trans _ _ _ (ih m c) (more _)
      rw [closeIn]
      split_ifs with top
      · exact same m
      · have ended := trans _ _ _ (trans _ _ _ (closings (m.win w).children m) (hangup _ w))
          (endreads _ w (Ne.symm (not_or.1 top).1))
        dsimp only
        generalize (((m.win w).children.foldl (closeIn n) m).hangup w).endreads w = m' at ended ⊢
        have left := trans _ _ _ ended (out m' w)
        apply trans _ _ _ _ (refocus _ w)
        rcases (m'.win w).parent with _ | p
        · exact left
        · dsimp only
          split_ifs
          · exact trans _ _ _ left (ih _ p)
          · exact left

/-- Shown: the current child of every container on the way up, `n` of them at most. -/
def current : Nat → Manager → Nat → Manager
  | 0, m, _ => m
  | n + 1, m, c =>
      match (m.win c).parent with
      | none => m
      | some p => current n (m.alter p ({ · with current := some c })) p

def select (m : Manager) (w : Nat) : Manager :=
  let m :=
    if (m.win w).parent.isSome then current m.next (m.alter w ({ · with hidden := false })) w else m
  match if (m.win w).leaf then some w else m.firstleaf w with
  | some l => { m with focus := some l }
  | none => m

def minimise (m : Manager) (w : Nat) : Manager :=
  let m := m.alter w fun w => { w with hidden := !w.hidden }
  if (m.win w).hidden then m else m.select w

def maximise (m : Manager) (w : Nat) : Manager :=
  match (m.win w).parent with
  | none => m
  | some p =>
      let others := (m.win p).children.filter (· ≠ w)
      let all := others ≠ [] ∧ others.all fun c => (m.win c).hidden
      let m := others.foldl (fun m c => m.alter c ({ · with hidden := !decide all })) m
      (m.alter w ({ · with hidden := false })).select w

/-- A copy beside a window, along an axis: in the window's own container if it runs that way, or
else in one made where the window stood. -/
def splitAt (m : Manager) (at_ copy : Nat) (axis : Division) : Manager :=
  let p := ((m.win at_).parent).getD root
  if (m.win p).kind = some axis then m.adopt p copy (indexOf (m.win p).children at_ + 1)
  else
    let c := m.next
    let m := m.make (.container axis (m.win at_).dir)
    let m := (m.orphan at_).adopt p c (indexOf (m.win p).children at_)
    let m := if (m.win p).kind = some .tabs then m.alter p ({ · with current := some c }) else m
    (m.adoptLast c at_).adoptLast c copy

def split (m : Manager) (w copy : Nat) (axis : Division) : Manager :=
  match (m.win w).parent with
  | none => m.splitAt w copy axis
  | some t => m.splitAt (if (m.win t).kind = some .tabs then t else w) copy axis

/-- A window in a group of tabs, after another, and shown. -/
def beside (m : Manager) (near p w : Nat) : Manager :=
  (m.adopt p w (indexOf (m.win p).children near + 1)).alter p ({ · with current := some w })

/-- A group of tabs where a window stood, with it in it. -/
def group (m : Manager) (near p : Nat) : Nat × Manager :=
  let g := m.next
  let m := m.make (.container .tabs (m.win near).dir)
  let m := (m.orphan near).adopt p g (indexOf (m.win p).children near)
  let m := m.adoptLast g near
  let m := m.alter g ({ · with hidden := (m.win near).hidden })
  (g, m.alter near ({ · with hidden := false }))

/-- A window as a tab beside another, or the root's last; beside one that is nowhere, it throws. -/
def astab (m : Manager) (near : Option Nat) (w : Nat) : Option Manager :=
  match near with
  | none => some (m.adoptLast root w)
  | some near =>
      if near = root then some (m.adoptLast root w)
      else
        match (m.win near).parent with
        | none => none
        | some p =>
            if (m.win p).kind = some .tabs then some (m.beside near p w)
            else some ((m.group near p).2.beside near (m.group near p).1 w)

/-- Where a window is put beside: the root's is the one in focus. -/
def near (m : Manager) (w : Nat) : Option Nat := if w = root then m.focus else some w

/-- A copy put beside what it is of: as a tab, in its row or in its column. -/
def copied (m : Manager) (w copy : Nat) : Division → Option Manager
  | .tabs => m.astab (some w) copy
  | .column => some (m.split w copy .row)
  | .row => some (m.split w copy .column)

def duplicate (m : Manager) (w : Nat) (how : Division) : Option Manager :=
  if ¬(m.win w).leaf then some m
  else
    let old := m.win w
    let role := if old.role = "shell" then "manage" else old.role
    let copy := m.next
    ((m.make (.on old.title old.dir)).copied w copy how).map fun m =>
      (m.fill copy old.title role).select copy

/-- How deep a line of a layout is: a tab counts for four. -/
def depth (line : List Char) : Nat :=
  ((line.takeWhile isSpace).map fun c => if c = '\t' then 4 else 1).sum

def uncomment : List Char → List Char
  | [] => []
  | c :: cs => if c = '#' then cs.dropWhile (!isEnd ·) else c :: uncomment cs

def division (word : String) : Option Division :=
  if word = "row" then some .row
  else if word = "column" then some .column
  else if word = "tabs" then some .tabs
  else none

/-- The containers a line is in, the innermost first; the root stays. -/
def popped (depth : Nat) : List (Int × Nat) → List (Int × Nat)
  | top :: below :: rest =>
      if depth ≤ top.1 then popped depth (below :: rest) else top :: below :: rest
  | stack => stack

def layoutLine (r : List (Int × Nat) × Manager) (raw : String) : List (Int × Nat) × Manager :=
  let line := uncomment raw.toList
  match words (.ofList line) with
  | [] => r
  | word :: more =>
      let stack := popped (depth line) r.1
      let parent := (stack.head?.map (·.2)).getD root
      match division word with
      | some kind =>
          let c := r.2.next
          let m := r.2.make (.container kind (r.2.win parent).dir)
          ((depth line, c) :: stack, m.adoptLast parent c)
      | none =>
          let w := r.2.next
          let m := r.2.make (.on word (dirname word))
          (stack, (m.adoptLast parent w).fill w word (more.head?.getD ""))

def layout (m : Manager) (text : String) : Manager :=
  let m := { m with layoutText := text }
  let m := (m.win root).children.foldl close m
  let m := ((lines text).foldl layoutLine ([(-1, root)], m)).2
  { m with focus := m.firstleaf root }

def reset (m : Manager) : Manager := m.layout m.layoutText

/-- A name resolved against a window's directory. -/
def resolve (m : Manager) (w : Nat) (text : String) : String :=
  let path := if '/' ∈ text.toList.head? then text else unslash (m.win w).dir ++ "/" ++ text
  let part (parts : List (List Char)) (p : List Char) : List (List Char) :=
    if p = [] ∨ p = ['.'] then parts
    else if p = ['.', '.'] then parts.dropLast
    else parts ++ [p]
  "/" ++ .ofList (['/'].intercalate ((path.toList.splitOn '/').foldl part []))

/-- A window on a path, one there already or a new one. -/
def openPath (m : Manager) (w : Nat) (text : String) : Option Manager :=
  if text = "" then some m
  else
    let path := m.resolve w text
    let held (o : Nat) : Bool :=
      (m.win o).leaf ∧ o ≠ root ∧ (m.win o).title = path ∧ (m.win o).role ≠ "shell"
    match m.windows.find? held with
    | some o => some (m.select o)
    | none =>
        let n := m.next
        ((m.make (.on path (dirname path))).astab (m.near w) n).map fun m =>
          let m :=
            if text.toList.getLast? = some '/' then m.ask ("mkdir -p " ++ rcquote path) else m
          (m.fill n path "").select n

/-- A command run into a window of its own. -/
def output (m : Manager) (w : Nat) (cmd : String) (stdin : Option String) : Option Manager :=
  let n := m.outputs.length + 1
  let dir := (m.win w).dir
  let out := m.next
  let near := m.near w
  let m := m.make (.log n dir cmd)
  let made : Output := ⟨cmd, dir, "", stdin.getD "", "", "", out, .new, .new, .new⟩
  let m := { m with outputs := m.outputs ++ [made] }
  let o := "/mnt/wsys/output/" ++ toString n
  let input := if stdin.isNone then "/dev/null" else o ++ "/0"
  (m.astab near out).map fun m =>
    (m.select out).ask ("@\x7bcd " ++ rcquote dir ++ "; rc -c " ++ rcquote cmd ++ " <" ++ input ++
      " >>" ++ o ++ "/1 >>[2]" ++ o ++ "/2; echo $status >" ++ o ++ "/status\x7d &")

/-- A command that replaces what is selected, or all; `how` is `|`, fed it, or `<`. -/
def filter (m : Manager) (w : Nat) (how : Char) (cmd selection : String) : Manager :=
  let m := m.alter w fun w =>
    { w with selection := some (if selection = "" then w.body else selection) }
  let d := "/mnt/wsys/wsys/" ++ toString w
  let input := if how = '|' then d ++ "/selection" else "/dev/null"
  m.ask ("@\x7bcd " ++ rcquote (m.win w).dir ++ "; rc -c " ++ rcquote cmd ++ " <" ++ input ++
    " >" ++
    d ++ "/replace >[2=1]\x7d &")

def run (m : Manager) (w : Nat) (text selection : String) : Option Manager :=
  match text.toList with
  | [] => some m
  | c :: rest =>
      let cmd := trim (.ofList rest)
      let fed :=
        if selection ≠ "" ∧ selection.toList.getLast? ≠ some '\n' then selection ++ "\n"
        else selection
      if c = '>' then m.output w cmd (some fed)
      else if c = '|' ∨ c = '<' then some (m.filter w c cmd selection)
      else m.output w text none

/-- A sam command over a window's text. -/
def edit (m : Manager) (w : Nat) (cmd : String) : Manager :=
  if cmd = "" ∨ (m.win w).role ≠ "edit" ∨ (m.win w).type = "inode/directory" then m
  else
    let m := m.alter w ({ · with selection := some "" })
    let d := "/mnt/wsys/wsys/" ++ toString w
    let t := "/tmp/emca." ++ toString w
    m.ask ("@\x7bcat " ++ d ++ "/body >" ++ t ++ "; \x7becho " ++ rcquote cmd ++
      "; echo w; echo q\x7d | sam -d " ++ t ++ " >/dev/null >[2=1]; cat " ++ t ++ " >" ++ d ++
      "/replace; rm -f " ++ t ++ "\x7d &")

def interrupt (m : Manager) (w : Nat) : Manager :=
  let m := m.alter w ({ · with input := [] })
  if (m.win w).pid = 0 then m
  else m.ask ("echo interrupt >[2]/dev/null >/proc/" ++ toString (m.win w).pid ++ "/notepg")

def retitle (m : Manager) (w : Nat) (title : String) : Manager :=
  if title = "" then m
  else
    let path := m.resolve w title
    if path = (m.win w).title then m
    else
      (m.alter w ({ · with title := path, dir := dirname path, body := "", saved := some "" })).fill
        w path ""

def feed (m : Manager) (w : Nat) : Manager :=
  let k := fed (m.win w).reads (m.win w).input
  (m.alter w ({ · with reads := k.2.1, input := k.2.2 })).reply k.1

/-- What is typed: it joins the transcript, unless the console is raw. -/
def type (m : Manager) (w : Nat) (text : String) : Manager :=
  let m := m.alter w fun w =>
    if w.raw then w else { w with body := w.body ++ text, saved := some (w.body ++ text) }
  (m.alter w fun w => { w with input := w.input ++ [utf8 text] }).feed w

def newshell (m : Manager) (near : Option Nat) : Option Manager :=
  let w := m.next
  ((m.make (.on "/bin/rc" ((near.map fun n => (m.win n).dir).getD "/"))).astab near w).map
    fun m => (m.fill w "/bin/rc" "manage").select w

/-- The window an open of `new/ctl` makes, not placed as yet. -/
def made (m : Manager) : Manager :=
  m.make (.on "" ((m.focus.map fun f => (m.win f).dir).getD "/"))

def placed (m : Manager) : Option Manager :=
  (m.made.astab m.focus m.next).map (·.select m.next)

/-- An open of `new/ctl`. A window that cannot be placed is made all the same. -/
def created (m : Manager) : Except String Nat × Manager :=
  match m.placed with
  | none => (.error enullkind, m.made)
  | some m' => (.ok m.next, m')

end Manager

end Ipnx.Host.Emca
