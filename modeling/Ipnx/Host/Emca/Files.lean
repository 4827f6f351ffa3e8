import Ipnx.Host.Emca.Windows

/-!
# The windows' files

`hosts/web/www/emca.mjs`: what each of the files reads as, and what a read, a write or a clunk of
one does with the windows. What is written to a body, to a filter's replacement and to the layout is
gathered in the fid, and is done when the fid is clunked.
-/

namespace Ipnx.Host.Emca

open Ipnx.Ninep (W T utf8)
open Ipnx.Name (qtdir)

/-- What the engine says of a message read past its end. -/
def outsideView : String := "Offset is outside the bounds of the DataView"

/-- What it says of a directory's read that begins in the middle. -/
def undefinedLength : String := "Cannot read properties of undefined (reading 'length')"

def dmdir : UInt32 := 0x80000000

def Node.name (node : Node) : String :=
  match node.kind with
  | .root => "/"
  | .view w | .files w => toString w
  | .outn n => toString n
  | .file _ name | .out _ name => name
  | .newctl => "ctl"
  | .wsys => "wsys"
  | .new => "new"
  | .layout => "layout"
  | .output => "output"

namespace Manager

def window (m : Manager) (name : String) : Option Nat :=
  (digits name).filter fun w => w ∈ m.windows

def out (m : Manager) (name : String) : Option Nat :=
  (digits name).filter fun n => 0 < n ∧ n ≤ m.outputs.length

def windowContents (m : Manager) (w : Nat) (name : String) : String :=
  let win := m.win w
  if name = "body" then win.body
  else if name = "tag" then win.tag
  else if name = "title" ∨ name = "winname" ∨ name = "label" then win.title
  else if name = "type" then win.type
  else if name = "role" then win.role
  else if name = "status" then win.status
  else if name = "verbs" then win.verbs
  else if name = "dirty" then if win.dirty then "1" else "0"
  else if name = "winid" then padStart 11 (toString w) ++ " "
  else if name = "wdir" then win.dir
  else if name = "selection" then win.selection.getD ""
  else if name = "ctl" then
    let isdir := if win.type = "inode/directory" then 1 else 0
    let isdirty := if win.dirty then 1 else 0
    " ".intercalate ([w, length win.tag, length win.body, isdir, isdirty].map fun x =>
      padStart 11 (toString x)) ++ " "
  else if name = "rect" then "0 0 0 0\n"
  else ""

def outputContents (m : Manager) (o : Output) (name : String) : String :=
  if name = "0" then o.stdin
  else if name = "1" then o.out
  else if name = "2" then o.err
  else if name = "cmd" then o.cmd ++ "\n"
  else if name = "dir" then o.dir ++ "\n"
  else if name = "status" then o.status
  else if name = "log" then (m.win o.win).body
  else ""

def contents (m : Manager) (node : Node) : Bytes :=
  match node.kind with
  | .layout => utf8 m.layoutText
  | .out n name => ((m.outputs[n - 1]?).map fun o => utf8 (m.outputContents o name)).getD []
  | .file w name => if w ∈ m.windows then utf8 (m.windowContents w name) else []
  | _ => []

def stat (m : Manager) (node : Node) : Bytes :=
  let isdir := (qid node).qtype &&& qtdir ≠ 0
  let fixed : Bool :=
    match node.kind with
    | .out _ name => name = "cmd" ∨ name = "dir"
    | _ => false
  Ninep.Dir.convD2M
    { dtype := 0
      dev := 0
      qid := qid node
      mode := if isdir then dmdir ||| 0o755 else if fixed then 0o444 else 0o666
      atime := .ofNat m.now
      mtime := .ofNat m.now
      length := .ofNat (if isdir then 0 else (m.contents node).length)
      name := node.name
      uid := "emca"
      gid := "emca"
      muid := "emca" }

/-- The entries of a directory: all its names lead somewhere. -/
def list (m : Manager) (node : Node) : List Node :=
  let at_ (k : Kind) : Node := ⟨k, node.kind :: node.up⟩
  match node.kind with
  | .root => [at_ .layout, at_ .new, at_ .output, at_ .wsys]
  | .wsys => m.windows.map fun w => at_ (.files w)
  | .new => [at_ .newctl]
  | .view w => viewNames.map (fun name => at_ (.file w name)) ++ [at_ (.files w), at_ .wsys]
  | .files w => fileNames.map fun name => at_ (.file w name)
  | .output => (List.range' 1 m.outputs.length).map fun n => at_ (.outn n)
  | .outn n => outNames.map fun name => at_ (.out n name)
  | _ => []

/-- As many whole entries as a read has room for. -/
def whole (count : Int) : Nat → List Bytes → List Bytes
  | _, [] => []
  | n, e :: es => if (n + e.length : Int) ≤ count then e :: whole count (n + e.length) es else []

/-- A directory reads as whole entries, from where the last read ended. -/
def readEntries (m : Manager) (f : Fid) (off : UInt64) (count : Int) :
    Except String (Option Bytes) × Held × Manager :=
  let held :=
    if off = 0 then { f.held with entries := some ((m.list f.node).map m.stat), at_ := 0 }
    else f.held
  match held.entries with
  | none => (.error undefinedLength, held, m)
  | some entries =>
      let out := whole count 0 (entries.drop held.at_)
      (.ok (some out.flatten), { held with at_ := held.at_ + out.length }, m)

def readContents (m : Manager) (f : Fid) (off : UInt64) (count : Int) :
    Except String (Option Bytes) × Held × Manager :=
  let b := m.contents f.node
  let last := relative b.length (min (off.toNat + count) b.length)
  (.ok (some ((b.take last).drop (min off.toNat b.length))), f.held, m)

/-- The console and `events` wait for something to say. -/
def readWindow (m : Manager) (f : Fid) (w : Nat) (name : String) (tag : UInt16) (off : UInt64)
    (count : Int) : Except String (Option Bytes) × Held × Manager :=
  if name = "cons" then
    if w ∉ m.windows then (.error edeleted, f.held, m)
    else
      (.ok none, f.held,
        (m.alter w fun w => { w with reads := w.reads ++ [(tag, count)] }).feed w)
  else if name = "events" then
    if w ∉ m.windows then (.error edeleted, f.held, m)
    else
      (.ok none, f.held,
        (m.alter w fun w => { w with eventreads := w.eventreads ++ [(tag, count)] }).drain w)
  else m.readContents f off count

def read (m : Manager) (f : Fid) (tag : UInt16) (off : UInt64) (count : Int) :
    Except String (Option Bytes) × Held × Manager :=
  if (qid f.node).qtype &&& qtdir ≠ 0 then m.readEntries f off count
  else
    match f.node.kind with
    | .file w name => m.readWindow f w name tag off count
    | _ => m.readContents f off count

def ctlLine (w : Nat) (m : Manager) (line : String) : Manager :=
  match words line with
  | [] => m
  | word :: more =>
      if word = "set" then
        match (word :: more).idxOf? "-pid" with
        | none => m
        | some i =>
            m.alter w ({ · with pid := (((word :: more)[i + 1]?).bind digits).getD 0 })
      else if word = "delete" ∨ word = "del" then m.close w
      else if word = "hide" then m.alter w ({ · with hidden := true })
      else if word = "unhide" then m.alter w ({ · with hidden := false })
      else if word = "current" then m.select w
      else if word = "clean" then m.alter w fun w => { w with saved := some w.body }
      else if word = "dirty" then m.alter w ({ · with saved := none })
      else if word = "name" then m.alter w ({ · with title := " ".intercalate more })
      else m

def ctl (m : Manager) (w : Nat) (text : String) : Manager :=
  (lines text).foldl (ctlLine w) m

def setOutput (m : Manager) (n : Nat) (f : Output → Output) : Manager :=
  { m with outputs := m.outputs.modify (n - 1) f }

def grow (m : Manager) (w : Nat) (text : String) : Manager :=
  m.alter w fun w => { w with body := w.body ++ text, saved := some (w.body ++ text) }

def writeOutput (m : Manager) (n : Nat) (name : String) (b : Bytes) : Manager :=
  match m.outputs[n - 1]? with
  | none => m
  | some o =>
      if name = "1" then
        let (text, dec) := o.dec1.stream b
        (m.setOutput n fun o => { o with out := o.out ++ text, dec1 := dec }).grow o.win text
      else if name = "2" then
        let (text, dec) := o.dec2.stream b
        (m.setOutput n fun o => { o with err := o.err ++ text, dec2 := dec }).grow o.win text
      else if name = "log" then
        let (text, dec) := o.declog.stream b
        (m.setOutput n ({ · with declog := dec })).grow o.win text
      else if name = "status" then
        let status := trim (Utf8.decode b)
        let m := m.setOutput n ({ · with status := status })
        let m := m.alter o.win
          ({ · with status := if status = "" then "exited" else "exited " ++ status })
        let log := (m.win o.win).body
        let newline := if log ≠ "" ∧ log.toList.getLast? ≠ some '\n' then "\n" else ""
        m.grow o.win
          (newline ++ "exit" ++ (if status = "" then "" else " " ++ status) ++ "\n")
      else if name = "0" then m.setOutput n ({ · with stdin := Utf8.decode b })
      else m

/-- A write to a window's file that is done at once. -/
def writeWindow (m : Manager) (w : Nat) (name : String) (off : UInt64) (b : Bytes) :
    Except String Unit × Manager :=
  let text := Utf8.decode b
  let done (f : Window → Window) : Except String Unit × Manager := (.ok (), m.alter w f)
  if name = "cons" then
    let (text, dec) := (m.win w).consdec.stream b
    (.ok (), (m.alter w ({ · with consdec := dec })).grow w text)
  else if name = "consctl" then
    done fun w =>
      { w with
        raw := (words text).foldl (fun raw word =>
          if word = "rawon" then true else if word = "rawoff" then false else raw) w.raw }
  else if name = "tag" then done ({ · with tag := chomp text })
  else if name = "title" ∨ name = "label" then
    let title := trim text
    done fun w =>
      { w with
        title := title
        dir := if w.type = "inode/directory" then title else dirname title }
  else if name = "type" then
    let type := trim text
    done fun w =>
      let place := if w.title = "" then w.dir else w.title
      { w with
        type := type
        dir := if type = "inode/directory" ∨ type = "inode/system" then place else dirname place }
  else if name = "role" then done ({ · with role := trim text })
  else if name = "status" then
    done fun w => { w with status := if off = 0 then text else w.status ++ text }
  else if name = "verbs" then
    done fun w => { w with verbs := if off = 0 then text else w.verbs ++ text }
  else if name = "wdir" then done ({ · with dir := trim text })
  else if name = "ctl" ∨ name = "wctl" then (.ok (), m.ctl w text)
  else (.error eperm, m)

/-- What is gathered in a fid, with more put in; too much is refused. -/
def gathered (m : Manager) (f : Fid) (buf : Bytes) (off : UInt64) (b : Bytes) :
    Except String Unit × Held × Manager :=
  let most := max buf.length (off.toNat + b.length)
  if m.room < most then (.error ("Invalid typed array length: " ++ toString most), f.held, m)
  else (.ok (), { f.held with buf := some (splice buf off.toNat b) }, m)

def write (m : Manager) (f : Fid) (off : UInt64) (b : Bytes) :
    Except String Unit × Held × Manager :=
  match f.node.kind with
  | .layout => m.gathered f (f.held.buf.getD []) off b
  | .out n name => (.ok (), f.held, m.writeOutput n name b)
  | .file w name =>
      if w ∉ m.windows then (.error edeleted, f.held, m)
      else if name = "body" then
        m.gathered f (f.held.buf.getD (utf8 (m.win w).body)) off b
      else if name = "replace" then m.gathered f (f.held.buf.getD []) off b
      else
        let r := m.writeWindow w name off b
        (r.1, f.held, r.2)
  | _ => (.error eperm, f.held, m)

/-- What a filter or an edit leaves of a window: its output for what it was given. -/
def replaced (w : Window) (r : String) : Window :=
  let s := w.selection.getD ""
  let part := s ≠ "" ∧ s ≠ w.body ∧ (cutAt s.toList w.body.toList).isSome
  { w with body := if part then replace w.body s r else r, selection := none }

def clunked (m : Manager) (f : Fid) : Manager :=
  match f.node.kind, f.held.buf with
  | .layout, some buf => m.layout (Utf8.decode buf)
  | .file w name, some buf =>
      if w ∉ m.windows then m
      else if name = "body" then
        m.alter w ({ · with body := Utf8.decode buf, saved := some (Utf8.decode buf) })
      else if name = "replace" then m.alter w fun w => replaced w (Utf8.decode buf)
      else m
  | _, _ => m

def flush (m : Manager) (old : UInt16) : Manager :=
  let kept (w : Window) : Window :=
    { w with
      reads := w.reads.filter (·.1 ≠ old)
      eventreads := w.eventreads.filter (·.1 ≠ old) }
  m.windows.foldl (fun m w => m.alter w kept) m

end Manager

def manager : Page Manager where
  decode := Utf8.decode
  outside := outsideView
  window := Manager.window
  out := Manager.out
  body m w := if w ∈ m.windows then some (utf8 (m.win w).body) else none
  created := Manager.created
  clunked := Manager.clunked
  stat := Manager.stat
  read := Manager.read
  write := Manager.write
  flush := Manager.flush

end Ipnx.Host.Emca
