import Ipnx.Dev.Chan
import Ipnx.Fd.Table
import Ipnx.Lib.First
import Ipnx.Lib.System

/-!
# The service registry

`devsrv.rs`: a name is made, a descriptor's number is written to it, and whoever opens the name gets
the channel that was behind the descriptor. What is made and posted is written down beside the
table, which the table is then held to.
-/

namespace Ipnx.Dev

open List
open Ninep (Dir)

def rootsrv : String := "root"

def eshutdown : String := "device shut down"
def eisdir : String := "file is a directory"
def ebadchar : String := "bad character in file name"
def eshortstat : String := "stat buffer too small"
def egreg : String := "jmk added reentrancy for threads"
def shared : String :=
  "#s: a posted channel is opened through the device table, which shares it"

structure Srv where
  name : String
  chan : Option Cell
  owner : String
  perm : UInt32
  path : UInt64
deriving DecidableEq, Repr

/-- An entry's mode and owner, as a stat has them. -/
def Srv.restat (sp : Srv) (dir : Dir) : Srv :=
  { sp with
    perm := if dir.mode ≠ 0xffffffff then dir.mode &&& 0o777 else sp.perm
    owner := if dir.uid ≠ "" then dir.uid else sp.owner }

/-- The device: its names, and the channels of those just removed, for the device table to close. -/
structure SrvDev where
  srv : List Srv
  eve : String
  next : UInt64
  unposted : List Cell
deriving DecidableEq, Repr

namespace SrvDev

/-- The calling process: its user, its descriptors and the channels they refer to. -/
structure Up where
  user : String
  fgrp : Option Fds
  cell : Cell → Chan

def new (eve : String) : SrvDev := ⟨[], eve, 1, []⟩

variable (d : SrvDev) (up : Up) (c : Chan)

def find (path : UInt64) : Option Srv := d.srv.find? fun sp => sp.path == path

/-- The entry in the place of the one it has the path of. -/
def put (sp : Srv) : SrvDev :=
  { d with srv := (changeFirst (fun e => e.path == sp.path) (fun _ => sp) 1 d.srv).2 }

def srvattach (spec : String) : Except String Chan := .ok (Chan.attachSpec .srv 0 spec)

def srvwalk (name : String) : Except String (Option Chan) :=
  if !c.isDir then .error enotdir
  else if name = ".." ∨ name = "." then .ok (some (c.walked name ⟨Name.qtdir, 0, 0⟩))
  else .ok ((d.srv.find? fun sp => sp.name == name).map fun sp => c.walked name ⟨0, 0, sp.path⟩)

/-- A posted channel opens in the mode it is open in, or in any if that is both, by whom the name's
permissions let. -/
def allows (sp : Srv) (posted : Cell) (mode : UInt16) : Except String Unit :=
  if mode &&& otrunc ≠ 0 then .error "srv file already exists"
  else
    match openmode mode with
    | .error e => .error e
    | .ok m =>
        let pm := (up.cell posted).mode
        if m ≠ pm ∧ pm ≠ ordwr then .error eperm
        else permcheck up.user sp.owner d.eve sp.perm mode

/-- A name opened: the posted channel itself. -/
def srvopen (mode : UInt16) : Except String Cell :=
  match d.find c.qid.path with
  | none => .error eshutdown
  | some sp =>
      match sp.chan with
      | none => .error eshutdown
      | some posted => (d.allows up sp posted mode).map fun _ => posted

def opendir (mode : UInt16) : Except String Chan :=
  if c.isDir then
    if mode &&& orclose ≠ 0 then .error eperm
    else if mode ≠ oread then .error eisdir
    else .ok (c.opened mode)
  else .error shared

def srvcreate (name : String) (mode : UInt16) (perm : UInt32) : Except String Chan × SrvDev :=
  if !c.isDir then (.error eperm, d)
  else
    match openmode mode with
    | .error e => (.error e, d)
    | .ok m =>
        if m ≠ owrite then (.error eperm, d)
        else if d.srv.any fun sp => sp.name == name then (.error eexist, d)
        else
          let sp : Srv := ⟨name, none, up.user, perm &&& 0o777, d.next⟩
          let opened := { c with qid := ⟨0, 0, d.next⟩, flag := c.flag ||| copen, mode := owrite }
          (.ok opened, { d with srv := d.srv ++ [sp], next := d.next + 1 })

/-- The channel that a text is the descriptor of, unless it goes away on exec or on close. -/
def posting (data : Bytes) : Except String Cell :=
  if 32 ≤ data.length then .error egreg
  else
    match up.fgrp with
    | none => .error "no such process"
    | some fgrp =>
        match fgrp.get (strtoul data).toInt32.toInt with
        | none => .error "fd out of range or not open"
        | some cell =>
            if (up.cell cell).has (ccexec ||| crclose) then
              .error "posted fd has remove-on-close or close-on-exec"
            else if (up.cell cell).qid.qtype &&& qtauth ≠ 0 then
              .error "cannot post auth file in srv"
            else .ok cell

def srvwrite (data : Bytes) : Except String Nat × SrvDev :=
  if c.isDir then (.error eperm, d)
  else
    match posting up data with
    | .error e => (.error e, d)
    | .ok cell =>
        match d.find c.qid.path with
        | none => (.error enonexist, d)
        | some sp =>
            if sp.chan.isSome then (.error ebadusefd, d)
            else (.ok data.length, d.put { sp with chan := some cell })

/-- The mode, the owner and the name are changed in that order. -/
def srvwstat (edir : Bytes) : Except String Unit × SrvDev :=
  if c.isDir then (.error eperm, d)
  else
    match d.find c.qid.path with
    | none => (.error enonexist, d)
    | some sp =>
        if sp.owner ≠ up.user ∧ d.eve ≠ up.user then (.error eperm, d)
        else
          match Dir.convM2D edir with
          | none => (.error eshortstat, d)
          | some dir =>
              let sp := sp.restat dir
              if dir.name ≠ "" ∧ dir.name ≠ sp.name then
                if '/' ∈ dir.name.toList then (.error ebadchar, d.put sp)
                else (.ok (), d.put { sp with name := dir.name })
              else (.ok (), d.put sp)

def srvremove : Except String Unit × SrvDev :=
  if c.isDir then (.error eperm, d)
  else
    match d.find c.qid.path with
    | none => (.error enonexist, d)
    | some sp =>
        if sp.owner = d.eve ∧ d.eve ≠ up.user then (.error eperm, d)
        else if sp.name = rootsrv then (.error eperm, d)
        else if sp.perm &&& 7 ≠ 7 ∧ sp.owner ≠ up.user ∧ d.eve ≠ up.user then (.error eperm, d)
        else
          (.ok (), { d with
            srv := d.srv.eraseP fun e => e.path == c.qid.path
            unposted := d.unposted ++ sp.chan.toList })

def srvclose : SrvDev := if c.has crclose then (d.srvremove up c).2 else d

end SrvDev

open SrvDev (Up)

/-- What is done to the device, by a process and with a channel. The owner of the machine may become
another, and the device table takes what was unposted. -/
inductive Call
  | seteve (eve : String)
  | srvcreate (name : String) (mode : UInt16) (perm : UInt32)
  | srvwrite (data : Bytes)
  | srvwstat (edir : Bytes)
  | srvremove
  | srvclose
  | unposted
deriving DecidableEq, Repr

structure Op where
  up : Up
  c : Chan
  call : Call

inductive Event
  | made (path : UInt64)
  | posted (path : UInt64) (cell : Cell)
deriving DecidableEq, Repr

/-- What was posted since the name was made, the last first. -/
def since (path : UInt64) : List Event → List Cell
  | [] => []
  | .made p :: log => if p = path then [] else since path log
  | .posted p cell :: log => if p = path then cell :: since path log else since path log

structure Srvs where
  dev : SrvDev
  log : List Event

def Srvs.act (s : Srvs) (op : Op) : Srvs :=
  match op.call with
  | .seteve eve => ⟨{ s.dev with eve := eve }, s.log⟩
  | .srvcreate name mode perm =>
      let r := s.dev.srvcreate op.up op.c name mode perm
      match r.1 with
      | .ok c => ⟨r.2, .made c.qid.path :: s.log⟩
      | .error _ => ⟨r.2, s.log⟩
  | .srvwrite data =>
      let r := s.dev.srvwrite op.up op.c data
      match r.1, SrvDev.posting op.up data with
      | .ok _, .ok cell => ⟨r.2, .posted op.c.qid.path cell :: s.log⟩
      | _, _ => ⟨r.2, s.log⟩
  | .srvwstat edir => ⟨(s.dev.srvwstat op.up op.c edir).2, s.log⟩
  | .srvremove => ⟨(s.dev.srvremove op.up op.c).2, s.log⟩
  | .srvclose => ⟨s.dev.srvclose op.up op.c, s.log⟩
  | .unposted => ⟨{ s.dev with unposted := [] }, s.log⟩

def srvs : System Srvs Op where
  init s := ∃ eve, s = ⟨.new eve, []⟩
  step s op s' := s' = s.act op

/-- Names are distinct, each has been posted under once at most, and whoever opens one is given what
was posted under it last. -/
structure Registry (s : Srvs) : Prop where
  names : (s.dev.srv.map Srv.name).Nodup
  once : ∀ sp ∈ s.dev.srv, (since sp.path s.log).length ≤ 1
  opens : ∀ sp ∈ s.dev.srv, ∀ c : Chan, c.isDir → ∃ c', s.dev.srvwalk c sp.name = .ok (some c') ∧
    ¬c'.isDir ∧ ∀ up mode, s.dev.srvopen up c' mode =
      match since sp.path s.log with
      | [] => .error eshutdown
      | posted :: _ => (s.dev.allows up sp posted mode).map fun _ => posted

def Plain (name : String) : Prop := name ≠ ".." ∧ name ≠ "."

/-- A name is made: in the directory, to be written to, and not there. -/
def Makes (d : SrvDev) (c : Chan) (name : String) (mode : UInt16) : Prop :=
  c.isDir ∧ openmode mode = .ok owrite ∧ ∀ sp ∈ d.srv, sp.name ≠ name

def Renames (d : SrvDev) (up : Up) (c : Chan) (edir : Bytes) (name : String) : Prop :=
  ¬c.isDir ∧ ∃ sp, d.find c.qid.path = some sp ∧ (sp.owner = up.user ∨ d.eve = up.user) ∧
    sp.name ≠ name ∧ ∃ dir, Dir.convM2D edir = some dir ∧ dir.name = name ∧ name ≠ "" ∧
      '/' ∉ name.toList

/-- No entry is renamed to what another is called, none to what a walk does not look for, and none
gets the path of another. -/
def Careful (s : Srvs) (op : Op) : Prop :=
  match op.call with
  | .srvcreate name mode _ =>
      Makes s.dev op.c name mode → Plain name ∧ ∀ sp ∈ s.dev.srv, sp.path ≠ s.dev.next
  | .srvwstat edir =>
      ∀ name, Renames s.dev op.up op.c edir name → Plain name ∧ ∀ sp ∈ s.dev.srv, sp.name ≠ name
  | _ => True

/-- What the table keeps to: paths tell entries apart too, and an entry has what was posted. -/
structure Registered (s : Srvs) : Prop where
  names : (s.dev.srv.map Srv.name).Nodup
  paths : (s.dev.srv.map Srv.path).Nodup
  plain : ∀ sp ∈ s.dev.srv, Plain sp.name
  posted : ∀ sp ∈ s.dev.srv, since sp.path s.log = sp.chan.toList

variable {d : SrvDev} {up : Up} {c : Chan} {s : Srvs}

theorem SrvDev.find_path {path : UInt64} {sp : Srv} (found : d.find path = some sp) :
    sp.path = path ∧ sp ∈ d.srv :=
  ⟨by simpa using List.find?_some found, mem_of_find?_eq_some found⟩

theorem srvcreate_cases (d : SrvDev) (up : Up) (c : Chan) (name : String) (mode : UInt16)
    (perm : UInt32) :
    (∃ e, d.srvcreate up c name mode perm = (.error e, d)) ∨
      (Makes d c name mode ∧ ∃ c' sp, c'.qid.path = d.next ∧ sp.path = d.next ∧ sp.name = name ∧
        sp.chan = none ∧ d.srvcreate up c name mode perm =
          (.ok c', { d with srv := d.srv ++ [sp], next := d.next + 1 })) := by
  rw [SrvDev.srvcreate]
  by_cases dir : c.isDir = true
  · rw [dir, Bool.not_true, if_neg Bool.false_ne_true]
    cases is : openmode mode with
    | error e => exact .inl ⟨e, rfl⟩
    | ok m =>
        dsimp only
        split_ifs with reads there
        · exact .inl ⟨_, rfl⟩
        · exact .inl ⟨_, rfl⟩
        · rw [not_not] at reads
          subst reads
          refine .inr ⟨⟨dir, is, ?_⟩, _, _, ?_, ?_, ?_, ?_, rfl⟩
          · intro sp mem same
            exact there (any_eq_true.mpr ⟨sp, mem, by simpa using same⟩)
          all_goals rfl
  · rw [Bool.not_eq_true] at dir
    rw [dir]
    exact .inl ⟨_, rfl⟩

theorem srvwrite_cases (d : SrvDev) (up : Up) (c : Chan) (data : Bytes) :
    (∃ e, d.srvwrite up c data = (.error e, d)) ∨
      ∃ cell sp, SrvDev.posting up data = .ok cell ∧ d.find c.qid.path = some sp ∧ sp.chan = none ∧
        d.srvwrite up c data = (.ok data.length, d.put { sp with chan := some cell }) := by
  rw [SrvDev.srvwrite]
  split_ifs
  · exact .inl ⟨_, rfl⟩
  · cases posts : SrvDev.posting up data with
    | error e => exact .inl ⟨e, rfl⟩
    | ok cell =>
        cases found : d.find c.qid.path with
        | none => exact .inl ⟨_, rfl⟩
        | some sp =>
            dsimp only
            split_ifs with set_
            · exact .inl ⟨_, rfl⟩
            · rw [Bool.not_eq_true, Option.isSome_eq_false_iff, Option.isNone_iff_eq_none] at set_
              exact .inr ⟨cell, sp, rfl, rfl, set_, rfl⟩

/-- A stat written leaves an entry's path and what is posted, and gives it another name only so. -/
theorem srvwstat_cases (d : SrvDev) (up : Up) (c : Chan) (edir : Bytes) :
    (d.srvwstat up c edir).2 = d ∨
      ∃ sp sp', d.find c.qid.path = some sp ∧ (d.srvwstat up c edir).2 = d.put sp' ∧
        sp'.path = sp.path ∧ sp'.chan = sp.chan ∧
        (sp'.name = sp.name ∨ Renames d up c edir sp'.name) := by
  rw [SrvDev.srvwstat]
  by_cases dir : c.isDir = true
  · rw [if_pos dir]
    exact .inl rfl
  · rw [if_neg dir]
    cases found : d.find c.qid.path with
    | none => exact .inl rfl
    | some sp =>
        dsimp only
        by_cases other : sp.owner ≠ up.user ∧ d.eve ≠ up.user
        · rw [if_pos other]
          exact .inl rfl
        · rw [if_neg other]
          cases read : Dir.convM2D edir with
          | none => exact .inl rfl
          | some e =>
              right
              have may : sp.owner = up.user ∨ d.eve = up.user := by
                by_contra neither
                exact other (not_or.mp neither)
              dsimp only
              split_ifs with named bad
              · exact ⟨sp, sp.restat e, rfl, rfl, rfl, rfl, .inl rfl⟩
              · refine ⟨sp, { sp.restat e with name := e.name }, rfl, rfl, rfl, rfl, .inr ?_⟩
                exact ⟨dir, sp, found, may, named.2.symm, e, read, rfl, named.1, bad⟩
              · exact ⟨sp, sp.restat e, rfl, rfl, rfl, rfl, .inl rfl⟩

theorem srvremove_cases (d : SrvDev) (up : Up) (c : Chan) :
    (d.srvremove up c).2 = d ∨
      ∃ unposted, (d.srvremove up c).2 =
        { d with srv := d.srv.eraseP fun e => e.path == c.qid.path, unposted := unposted } := by
  rw [SrvDev.srvremove]
  split_ifs
  · exact .inl rfl
  · split
    · exact .inl rfl
    · split_ifs
      · exact .inl rfl
      · exact .inl rfl
      · exact .inl rfl
      · exact .inr ⟨_, rfl⟩

section Kept

variable (kept : Registered s)

include kept

theorem Registered.sublist {dev : SrvDev}
    (fewer : List.Sublist dev.srv s.dev.srv) : Registered ⟨dev, s.log⟩ where
  names := kept.names.sublist (fewer.map Srv.name)
  paths := kept.paths.sublist (fewer.map Srv.path)
  plain sp mem := kept.plain sp (fewer.subset mem)
  posted sp mem := kept.posted sp (fewer.subset mem)

theorem Registered.put {sp sp' : Srv} {log : List Event} (found : s.dev.find sp'.path = some sp)
    (name : sp'.name = sp.name ∨ Plain sp'.name ∧ ∀ e ∈ s.dev.srv, e.name ≠ sp'.name)
    (posted : since sp'.path log = sp'.chan.toList)
    (others : ∀ path, path ≠ sp'.path → since path log = since path s.log) :
    Registered ⟨s.dev.put sp', log⟩ := by
  rcases first_between (f := fun _ => sp') found with ⟨same, before, after, was, is, _⟩
  have path : sp.path = sp'.path := by simpa using same
  have names := kept.names
  have paths := kept.paths
  rw [was, map_append, map_cons, nodup_middle, nodup_cons] at names paths
  have now : (s.dev.put sp').srv = before ++ sp' :: after := is
  have old : ∀ e ∈ before ++ after, e ∈ s.dev.srv := by
    intro e mem
    rw [was]
    rcases mem_append.1 mem with mem | mem
    · exact mem_append_left _ mem
    · exact mem_append_right _ (mem_cons_of_mem sp mem)
  have apart : ∀ e ∈ before ++ after, e.path ≠ sp'.path := by
    intro e mem is
    apply paths.1
    rw [path, ← is, ← map_append]
    exact mem_map_of_mem mem
  have here : ∀ e ∈ before ++ sp' :: after, e = sp' ∨ e ∈ before ++ after := by
    intro e mem
    rw [mem_append, mem_cons] at mem
    rw [mem_append]
    tauto
  constructor
  · rw [now, map_append, map_cons, nodup_middle, nodup_cons]
    refine ⟨?_, names.2⟩
    rcases name with is | ⟨_, free⟩
    · rw [is]
      exact names.1
    · rw [← map_append]
      intro taken
      rcases mem_map.1 taken with ⟨e, mem, is⟩
      exact free e (old e mem) is
  · rw [now, map_append, map_cons, nodup_middle, nodup_cons, ← path]
    exact paths
  · rw [now]
    intro e mem
    rcases here e mem with rfl | other
    · rcases name with is | ⟨plain, _⟩
      · rw [is]
        exact kept.plain sp (SrvDev.find_path found).2
      · exact plain
    · exact kept.plain e (old e other)
  · rw [now]
    intro e mem
    rcases here e mem with rfl | other
    · exact posted
    · exact (others e.path (apart e other)).trans (kept.posted e (old e other))

theorem Registered.create {sp : Srv} {dev : SrvDev}
    (made : dev.srv = s.dev.srv ++ [sp]) (plain : Plain sp.name) (none_ : sp.chan = none)
    (free : ∀ e ∈ s.dev.srv, e.name ≠ sp.name) (fresh : ∀ e ∈ s.dev.srv, e.path ≠ sp.path) :
    Registered ⟨dev, .made sp.path :: s.log⟩ := by
  have here : ∀ e ∈ s.dev.srv ++ [sp], e ∈ s.dev.srv ∨ e = sp := by
    intro e mem
    simpa using mem
  have apart {α : Type} {of : Srv → α} (nodup : (s.dev.srv.map of).Nodup)
      (new : ∀ e ∈ s.dev.srv, of e ≠ of sp) : (dev.srv.map of).Nodup := by
    rw [made, map_append, map_singleton, ← concat_eq_append, nodup_concat]
    refine ⟨?_, nodup⟩
    intro taken
    rcases mem_map.1 taken with ⟨e, mem, is⟩
    exact new e mem is
  refine ⟨apart kept.names free, apart kept.paths fresh, ?_, ?_⟩
  · rw [made]
    intro e mem
    rcases here e mem with old | rfl
    · exact kept.plain e old
    · exact plain
  · rw [made]
    intro e mem
    rcases here e mem with old | rfl
    · rw [since, if_neg (fresh e old).symm]
      exact kept.posted e old
    · rw [since, if_pos rfl, none_]
      rfl

theorem Registered.remove (up : Up) (c : Chan) : Registered ⟨(s.dev.srvremove up c).2, s.log⟩ := by
  rcases srvremove_cases s.dev up c with same | ⟨unposted, is⟩
  · rw [same]
    exact kept
  · rw [is]
    exact kept.sublist (eraseP_sublist ..)

theorem Registered.act {op : Op} (careful : Careful s op) : Registered (s.act op) := by
  rcases op with ⟨up, c, call⟩
  cases call with
  | seteve eve => exact kept.sublist (.refl _)
  | unposted => exact kept.sublist (.refl _)
  | srvremove => exact kept.remove up c
  | srvclose =>
      rw [Srvs.act, SrvDev.srvclose]
      dsimp only
      split_ifs
      · exact kept.remove up c
      · exact kept
  | srvcreate name mode perm =>
      simp only [Srvs.act]
      rcases srvcreate_cases s.dev up c name mode perm with ⟨e, is⟩ | ⟨makes, c', sp, rest⟩
      · rw [is]
        exact kept
      · rcases rest with ⟨at_, path, named, none_, is⟩
        rcases careful makes with ⟨plain, fresh⟩
        rw [is]
        dsimp only
        rw [at_, ← path]
        refine kept.create rfl ?_ none_ ?_ ?_
        · rw [named]
          exact plain
        · rw [named]
          exact makes.2.2
        · rw [path]
          exact fresh
  | srvwrite data =>
      simp only [Srvs.act]
      rcases srvwrite_cases s.dev up c data with ⟨e, is⟩ | ⟨cell, sp, posts, found, none_, is⟩
      · rw [is]
        exact kept
      · have there := SrvDev.find_path found
        rw [is, posts]
        dsimp only
        rw [← there.1]
        have found : s.dev.find sp.path = some sp := by
          rw [there.1]
          exact found
        refine kept.put found (.inl rfl) ?_ ?_
        · rw [since, if_pos rfl, kept.posted sp there.2, none_]
          rfl
        · intro path other
          rw [since, if_neg other.symm]
  | srvwstat edir =>
      simp only [Srvs.act]
      rcases srvwstat_cases s.dev up c edir with same | ⟨sp, sp', found, is, path, chan, name⟩
      · rw [same]
        exact kept
      · have there := SrvDev.find_path found
        rw [is]
        have found : s.dev.find sp'.path = some sp := by
          rw [path, there.1]
          exact found
        refine kept.put found ?_ ?_ (fun _ _ => rfl)
        · rcases name with same | renames
          · exact .inl same
          · exact .inr (careful sp'.name renames)
        · rw [path, chan]
          exact kept.posted sp there.2

theorem Registered.registry : Registry s where
  names := kept.names
  once sp mem := by
    rw [kept.posted sp mem]
    cases sp.chan <;> simp
  opens sp mem c dir := by
    have byName := find_key kept.names mem
    have byPath : s.dev.find sp.path = some sp := find_key kept.paths mem
    have plain := kept.plain sp mem
    refine ⟨c.walked sp.name ⟨0, 0, sp.path⟩, ?_, ?_, ?_⟩
    · rw [SrvDev.srvwalk, dir, Bool.not_true, if_neg Bool.false_ne_true,
        if_neg (not_or.mpr plain), byName]
      rfl
    · have file : ¬Name.Qid.isDir ⟨0, 0, sp.path⟩ := by
        simp [Name.Qid.isDir]
      exact file
    · intro up mode
      rw [SrvDev.srvopen, Chan.walked_qid, byPath, kept.posted sp mem]
      dsimp only
      cases sp.chan <;> rfl

end Kept

/-- Over a run that is careful with names the registry is kept. -/
theorem registry_kept (reached : srvs.Reach Careful s) : Registry s := by
  apply Registered.registry
  refine reached.invariant Registered ?_ ?_
  · rintro _ ⟨eve, rfl⟩
    exact ⟨nodup_nil, nodup_nil, nofun, nofun⟩
  · rintro s op _ kept careful rfl
    exact kept.act careful

def glenda : Up := ⟨"glenda", some ⟨[some 7]⟩, fun _ => default⟩

def dirChan : Chan := Chan.attachSpec .srv 0 ""

def fileChan (path : UInt64) : Chan :=
  { dirChan with qid := ⟨0, 0, path⟩, flag := copen, mode := owrite }

def makes (name : String) : Op := ⟨glenda, dirChan, .srvcreate name owrite 0o600⟩

/-- The file of a path as it was made is given another name, and keeps the rest. -/
def renames (path : UInt64) (name : String) : Op where
  up := glenda
  c := fileChan path
  call := .srvwstat
    (Dir.convD2M ⟨0, 0, ⟨0, 0, 0⟩, 0xffffffff, 0, 0, 0, name, "", "", ""⟩)

def both : Srvs := ((⟨.new "eve", []⟩ : Srvs).act (makes "a")).act (makes "b")

def posts : Op := ⟨glenda, fileChan 2, .srvwrite [48]⟩

def removes : Op := ⟨glenda, fileChan 1, .srvremove⟩

/-- A name is posted under, given another name, and the other is removed. -/
def store : Srvs := ((both.act posts).act (renames 2 "c")).act removes

theorem goes {ok : Srvs → Op → Prop} (reached : srvs.Reach ok s) (op : Op) (allowed : ok s op) :
    srvs.Reach ok (s.act op) :=
  reached.step allowed rfl

theorem registry_kept_store : srvs.Reach Careful store ∧
    store.dev.srv.map (fun sp => (sp.name, since sp.path store.log)) = [("c", [7])] ∧
      Registry store := by
  have made : srvs.Reach Careful both := by
    refine goes (goes (.init ⟨"eve", rfl⟩) (makes "a") ?_) (makes "b") ?_
    · exact fun _ => ⟨⟨by decide, by decide⟩, by decide⟩
    · exact fun _ => ⟨⟨by decide, by decide⟩, by decide⟩
  have told := goes made posts trivial
  have named : srvs.Reach Careful ((both.act posts).act (renames 2 "c")) := by
    refine goes told (renames 2 "c") ?_
    rintro name ⟨-, sp, -, -, -, dir, read, rfl, -⟩
    have is : (Dir.convM2D (Dir.convD2M ⟨0, 0, ⟨0, 0, 0⟩, 0xffffffff, 0, 0, 0, "c", "", "",
        ""⟩)).map Dir.name = some "c" := by
      decide +kernel
    rw [read, Option.map_some, Option.some.injEq] at is
    rw [is]
    exact ⟨⟨by decide, by decide⟩, by decide⟩
  have reached : srvs.Reach Careful store := goes named removes trivial
  exact ⟨reached, by decide +kernel, registry_kept reached⟩

/-- A service takes the name of another. -/
theorem registry_fails : ∃ s, srvs.Reachable s ∧ ¬Registry s := by
  refine ⟨both.act (renames 2 "a"), ?_, ?_⟩
  · apply goes _ (renames 2 "a") trivial
    apply goes _ (makes "b") trivial
    exact goes (.init ⟨"eve", rfl⟩) (makes "a") trivial
  · intro registry
    exact absurd registry.names (by decide)

end Ipnx.Dev
