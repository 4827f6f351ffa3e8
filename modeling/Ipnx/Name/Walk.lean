import Ipnx.Name.Ns

/-!
# Walking names

`walk` takes a channel along a list of names, a batch at a time: one walk of a device carries
up to `MAXWELEM` names, and the mount points along the way are looked for on the qids that
come back. What the walk needs of the device table is `Devtab`: the devices' own walks, and
the mount driver's fids and its `Twalk`.
-/

namespace Ipnx.Name

def enotdir : String := "not a directory"
def enonexist : String := "file does not exist"
def edoesnotexist : String := "does not exist"
def etoomany : String := "too many QIDs returned by walk"

/-- What an operation that waits for a server's reply answers. -/
def slept : String := "asleep for a reply"

/-- The most names one `Twalk` carries. -/
def maxwelem : Nat := 16

def dotdotname (path : String) : String :=
  match path.toList.reverse.dropWhile (· != '/') with
  | [] => path
  | [_] => "/"
  | _ :: before => String.ofList before.reverse

def addelem (path name : String) : String :=
  if name = "." then path
  else if name = ".." then dotdotname path
  else if path.toList.getLast? = some '/' then path ++ name
  else path ++ "/" ++ name

def Chan.walked (c : Chan) (name : String) (qid : Qid) : Chan :=
  { c with qid := qid, path := addelem c.path name, ismtpt := false }

/-- What a walk of several names answers: the qids it managed, and a channel if it managed
them all. -/
structure Walkqid where
  qids : List Qid
  clone : Option Chan
deriving DecidableEq, Repr

/-- The device table as a walk uses it. `walk` is the walk of one name by any device but the
mount driver; `twalk` is the driver's `Twalk` from a channel's fid to a new one. -/
structure Devtab (σ : Type) where
  walk : Chan → String → Except String (Option Chan)
  newfid : σ → UInt32 × σ
  twalk : Chan → UInt32 → List String → σ → Except String (List Qid) × σ
  hold : Chan → UInt32 → σ → σ
  dclose : Chan → σ → σ

namespace Devtab

variable {σ : Type} (tab : Devtab σ)

/-- Several names on a device of this kernel: the rest of the names, from where the last one
led, with the qids so far. The first missing is an error, a later one a short answer. -/
def devwalk : Chan → List String → List Qid → Except String Walkqid
  | c, [], qids => .ok ⟨qids, some c⟩
  | c, name :: names, qids =>
      match tab.walk c name with
      | .ok (some next) => devwalk next names (qids ++ [next.qid])
      | .ok none => if qids.isEmpty then .error enonexist else .ok ⟨qids, none⟩
      | .error e => if qids.isEmpty then .error e else .ok ⟨qids, none⟩

/-- The mount driver's: one `Twalk` for them all. Only when the server managed every name is
there a new channel, on the fid the walk named. -/
def walkn (c : Chan) (names : List String) (s : σ) : Except String Walkqid × σ :=
  let (newfid, s) := tab.newfid s
  match tab.twalk c newfid names s with
  | (.error e, s) => (.error e, s)
  | (.ok qids, s) =>
      if qids.length > names.length then (.error etoomany, s)
      else if qids.isEmpty && !names.isEmpty then (.error enonexist, s)
      else if qids.length < names.length then (.ok ⟨qids, none⟩, s)
      else
        let nc := (names.zip qids).foldl (fun nc n => nc.walked n.1 n.2) c
        (.ok ⟨qids, some { nc with fid := newfid }⟩, tab.hold c newfid s)

def dwalkn (c : Chan) (names : List String) (s : σ) : Except String Walkqid × σ :=
  if c.dev = .mnt then tab.walkn c names s else (tab.devwalk c names [], s)

end Devtab

/-- Step onto what is mounted on a channel, and say what else is mounted there. The name is
how we got here, not where we landed. -/
def domount (ns : Ns) (c : Chan) : Chan × List Element :=
  match ns.findmount c with
  | some ⟨_, e :: es⟩ => ({ e.chan.val with path := c.path }, e :: es)
  | _ => (c, [])

/-- How many of the names go at once, and whether it is `..`, which goes alone. -/
def ntry (names : List String) : Nat × Bool :=
  match (names.take maxwelem).findIdx? (· == "..") with
  | none => (min names.length maxwelem, false)
  | some 0 => (1, true)
  | some i => (i, false)

/-- The first of some qids, answered by the device of `c`, that is a mount point. -/
def firstMount (ns : Ns) (c : Chan) : List Qid → Option (Nat × List Element)
  | [] => none
  | q :: qids =>
      match ns.elements { c with qid := q } with
      | some m => some (0, m)
      | none => (firstMount ns c qids).map fun found => (found.1 + 1, found.2)

/-- Where a walk has come to: its channel, the reference that is if it is someone else's,
whether the walk is to close it, the text of the names so far, what else is mounted where it
stands, whether it stands on a mount already, and the names still to go. -/
structure Walking where
  c : Chan
  src : Option (Rc Chan)
  owned : Bool
  path : String
  mh : List Element
  didmount : Bool
  nhave : Nat
  names : List String

section Walk

variable {σ : Type} (tab : Devtab σ) (ns : Ns) (nomount : Bool)

/-- A channel the walk made is the walk's to close. -/
def drop (c : Chan) (owned : Bool) (s : σ) : σ := if owned then tab.dclose c s else s

/-- Try a union mount's other elements in order. The error is the last device's. -/
def tryunion (batch : List String) : List Element → String → σ →
    Except String (Walkqid × Chan) × σ
  | [], err, s => (.error err, s)
  | alt :: alts, _, s =>
      match tab.dwalkn alt.chan.val batch s with
      | (.ok wq, s) => (.ok (wq, alt.chan.val), s)
      | (.error e, s) => if e = slept then (.error e, s) else tryunion batch alts e s

/-- A walk of a device that fails is a miss, and the union is still tried. -/
def ewalk (c : Chan) (mh : List Element) (batch : List String) (s : σ) :
    Except String (Walkqid × Chan) × σ :=
  match tab.dwalkn c batch s with
  | (.ok wq, s) => (.ok (wq, c), s)
  | (.error e, s) =>
      if e = slept then (.error e, s)
      else if nomount then (.error e, s)
      else tryunion tab batch (mh.drop 1) e s

/-- The mount point the walk stands on is stepped onto, unless the last step ended on it. -/
def stepon (dotdot : Bool) (w : Walking) (s : σ) : Walking × σ :=
  if !dotdot && !nomount && !w.didmount then
    match domount ns w.c with
    | (first, []) => ({ w with c := first, mh := [] }, s)
    | (first, mh) => ({ w with c := first, mh := mh, owned := false }, drop tab w.c w.owned s)
  else (w, s)

/-- The step ends at the first mount point along the qids but the last, on the mount's
channel; or at the end of the batch. -/
def advance (dotdot : Bool) (n : Nat) (wq : Walkqid) (on : Chan) (w : Walking) (s : σ) :
    Except (Nat × String) Walking × σ :=
  let stop := if !dotdot && !nomount then firstMount ns on (wq.qids.take (n - 1)) else none
  match stop, wq.clone with
  | none, some clone =>
      (.ok { w with
        c := clone, src := none, owned := true, didmount := false
        path := (w.names.take wq.qids.length).foldl addelem w.path
        nhave := w.nhave + wq.qids.length, names := w.names.drop wq.qids.length },
        drop tab w.c w.owned s)
  | none, none =>
      let got := wq.qids.length
      (.error (if (wq.qids.getLast?).all Qid.isDir then (w.nhave + got + 1, edoesnotexist)
        else (w.nhave + got, enotdir)), drop tab w.c w.owned s)
  | some (i, m), clone =>
      let s := clone.elim s fun c => tab.dclose c s
      (.ok { w with
        c := (m.head?.map (·.chan.val)).getD w.c, src := m.head?.map Element.chan
        owned := false, mh := m, didmount := true
        path := (w.names.take (i + 1)).foldl addelem w.path
        nhave := w.nhave + (i + 1), names := w.names.drop (i + 1) },
        drop tab w.c w.owned s)

/-- What a turn makes of the devices' answer. One that waits is not closed behind. -/
def walkTurn (n : Nat) (dotdot : Bool) (w : Walking) :
    Except String (Walkqid × Chan) × σ → Except (Nat × String) Walking × σ
  | (.ok (wq, on), s) => advance tab ns nomount dotdot n wq on w s
  | (.error e, s) =>
      if e = slept then (.error (0, e), s)
      else (.error (w.nhave + 1, e), drop tab w.c w.owned s)

def walkStep (w : Walking) (s : σ) : Except (Nat × String) Walking × σ :=
  if !w.c.isDir then (.error (w.nhave, enotdir), drop tab w.c w.owned s)
  else
    let (n, dotdot) := ntry w.names
    let (w, s) := stepon tab ns nomount dotdot w s
    walkTurn tab ns nomount n dotdot w (ewalk tab nomount w.c w.mh (w.names.take n) s)

/-- The loop, in so many turns; nothing is answered if they are not enough. -/
def walkLoop : Nat → Walking → σ → Option (Except (Nat × String) (Chan × Option (Rc Chan)) × σ)
  | 0, w, s =>
      if w.names.isEmpty then some (.ok ({ w.c with path := w.path }, w.src), s) else none
  | turns + 1, w, s =>
      if w.names.isEmpty then some (.ok ({ w.c with path := w.path }, w.src), s)
      else
        match walkStep tab ns nomount w s with
        | (.ok w, s) => walkLoop turns w s
        | (.error e, s) => some (.error e, s)

/-- Every turn walks a name at least, so there are turns enough. -/
def walk (c : Chan) (src : Option (Rc Chan)) (names : List String) (s : σ) :
    Option (Except (Nat × String) (Chan × Option (Rc Chan)) × σ) :=
  walkLoop tab ns nomount names.length
    ⟨c, src, src.isNone, c.path, [], false, 0, names⟩ s

end Walk

end Ipnx.Name
