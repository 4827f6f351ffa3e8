import Ipnx.Dev.Chan
import Ipnx.Lib.Keyed
import Ipnx.Lib.Window

/-!
# The environment device

`devenv.rs`: a variable is a file, of the calling process's group or, by a channel attached with
the spec `c`, of the kernel's configuration. Whether the configuration may be written is asked when
one of its files is opened.
-/

namespace Ipnx.Dev.Env

open List
open Ninep (Dir utf8 devdirread)

def maxenvsize : Nat := 16300

def etoobig : String := "read or write too large"
def enametoolong : String := "name too long"

abbrev Egrp := Keyed String Bytes

def auxconf : UInt64 := 1

/-- The device, with the processes' groups. The names are by qid path, from 1 on. -/
structure EnvDev where
  eve : String
  confegrp : Egrp
  names : List String
  egrps : Nat → Egrp

/-- The calling process: its user, and which group is its own. -/
structure Up where
  user : String
  egrp : Option Nat
deriving DecidableEq, Repr

variable (d : EnvDev) (up : Up) (c : Chan)

namespace EnvDev

def egrp : Egrp :=
  if c.aux = auxconf then d.confegrp
  else match up.egrp with
    | some g => d.egrps g
    | none => .empty

/-- A group that no process has goes when the call is done. -/
def setEgrp (g : Egrp) : EnvDev :=
  if c.aux = auxconf then { d with confegrp := g }
  else match up.egrp with
    | some i => { d with egrps := Function.update d.egrps i g }
    | none => d

/-- Its own environment is a process's; the configuration is eve's. -/
def writeable : Bool := c.aux ≠ auxconf || d.eve = up.user

/-- A name's qid path, given once and kept. -/
def qid (name : String) : UInt64 × EnvDev :=
  match d.names.findIdx? (· == name) with
  | some i => (UInt64.ofNat (i + 1), d)
  | none => (UInt64.ofNat (d.names.length + 1), { d with names := d.names ++ [name] })

def name (path : UInt64) : Option String :=
  if path = 0 then none else d.names[path.toNat - 1]?

def dirs (d : EnvDev) (c : Chan) : List (String × Nat) → List Dir × EnvDev
  | [] => ([], d)
  | (name, len) :: named =>
      let q := d.qid name
      let rest := dirs q.2 c named
      (devdir c ⟨0, 0, q.1⟩ name (UInt64.ofNat len) d.eve d.eve 0o666 :: rest.1, rest.2)

def entries : List Dir × EnvDev :=
  d.dirs c (((d.egrp up c).entries.map fun e => (e.1, e.2.length)).mergeSort
    fun a b => decide (a.1 ≤ b.1))

def envattach (spec : String) : Except String Chan :=
  if spec = "" then .ok { Chan.attachSpec .env 0 spec with aux := 0 }
  else if spec = "c" then .ok { Chan.attachSpec .env 0 spec with aux := auxconf }
  else .error ebadarg

def envwalk (name : String) : Except String (Option Chan) × EnvDev :=
  if !c.isDir then (.error enotdir, d)
  else if name = ".." ∨ name = "." then (.ok (some (c.walked name ⟨Name.qtdir, 0, 0⟩)), d)
  else if ((d.egrp up c).find name).isNone then (.ok none, d)
  else
    let q := d.qid name
    (.ok (some (c.walked name ⟨0, 0, q.1⟩)), q.2)

/-- A file that is there, and emptied if it is to be. -/
def access (mode : UInt16) : Except String Unit × EnvDev :=
  if c.isDir then (.ok (), d)
  else
    match d.name c.qid.path with
    | none => (.error enonexist, d)
    | some name =>
        match (d.egrp up c).find name with
        | none => (.error enonexist, d)
        | some _ =>
            if mode &&& otrunc ≠ 0 then (.ok (), d.setEgrp up c ((d.egrp up c).insert name []))
            else (.ok (), d)

def envopen (mode : UInt16) : Except String Chan × EnvDev :=
  if mode ≠ oread ∧ (c.isDir ∨ !d.writeable up c) then (.error eperm, d)
  else
    match d.access up c mode with
    | (.error e, d) => (.error e, d)
    | (.ok (), d) =>
        match openmode mode with
        | .error e => (.error e, d)
        | .ok m => (.ok (c.opened m), d)

def envcreate (name : String) (mode : UInt16) : Except String Chan × EnvDev :=
  if !c.isDir then (.error eperm, d)
  else if 128 ≤ (utf8 name).length then (.error enametoolong, d)
  else
    match openmode mode with
    | .error e => (.error e, d)
    | .ok m =>
        if ((d.egrp up c).find name).isSome then (.error eexist, d)
        else
          let q := (d.setEgrp up c ((d.egrp up c).insert name [])).qid name
          (.ok ({ c with qid := ⟨0, 0, q.1⟩ } |>.opened m), q.2)

/-- The bytes, and the channel for the next read. -/
def envread (n : Nat) (off : UInt64) : Except String (Bytes × Chan) × EnvDev :=
  if c.isDir then
    let es := d.entries up c
    let r := devdirread es.1 n c.dri
    (.ok (r.1, { c with dri := r.2 }), es.2)
  else
    match (d.name c.qid.path).bind (d.egrp up c).find with
    | none => (.error enonexist, d)
    | some v => (.ok ((v.drop off.toNat).take n, c), d)

/-- The value, grown to hold what is written and with it written. -/
def written (v data : Bytes) (off : Nat) : Bytes :=
  overwrite (v ++ List.replicate (off + data.length - v.length) 0) off data

def envwrite (data : Bytes) (off : UInt64) : Except String Nat × EnvDev :=
  if c.isDir then (.error eperm, d)
  else if maxenvsize < off.toNat ∨ maxenvsize - off.toNat < data.length then (.error etoobig, d)
  else
    match d.name c.qid.path with
    | none => (.error enonexist, d)
    | some name =>
        match (d.egrp up c).find name with
        | none => (.error enonexist, d)
        | some v =>
            (.ok data.length,
              d.setEgrp up c ((d.egrp up c).insert name (written v data off.toNat)))

def envstat : Except String Bytes :=
  if c.isDir then
    let name := if c.aux = auxconf then "#ec" else "#e"
    .ok (devdir c c.qid name 0 d.eve d.eve 0o775).convD2M
  else
    match d.name c.qid.path with
    | none => .error enonexist
    | some name =>
        let len := (((d.egrp up c).find name).map List.length).getD 0
        .ok (devdir c c.qid name (UInt64.ofNat len) d.eve d.eve 0o666).convD2M

def envwstat : Except String Unit := .error eperm

def envremove : Except String Unit × EnvDev :=
  if c.isDir then (.error eperm, d)
  else
    match d.name c.qid.path with
    | none => (.error enonexist, d)
    | some name =>
        match (d.egrp up c).find name with
        | none => (.error enonexist, d)
        | some _ => (.ok (), d.setEgrp up c ((d.egrp up c).erase name))

end EnvDev

inductive Call
  | envwalk (name : String)
  | envopen (mode : UInt16)
  | envcreate (name : String) (mode : UInt16)
  | envread (n : Nat) (off : UInt64)
  | envwrite (data : Bytes) (off : UInt64)
  | envstat
  | envwstat
  | envremove
  | envclose
deriving DecidableEq, Repr

inductive Op
  | envattach (spec : String)
  | on (i : Nat) (call : Call)
deriving DecidableEq, Repr

/-- The device, and the channels in processes' hands. -/
structure Sys where
  dev : EnvDev
  chans : List Chan

namespace Sys

def put (s : Sys) (dev : EnvDev) (new : Option Chan) : Sys := ⟨dev, s.chans ++ new.toList⟩

/-- A call of a process on a channel. Bytes are written to what is open for writing. -/
def on (s : Sys) (up : Up) (i : Nat) (c : Chan) : Call → Sys
  | .envwalk name =>
      let r := s.dev.envwalk up c name
      s.put r.2 r.1.toOption.join
  | .envopen mode =>
      let r := s.dev.envopen up c mode
      s.put r.2 r.1.toOption
  | .envcreate name mode =>
      let r := s.dev.envcreate up c name mode
      s.put r.2 r.1.toOption
  | .envread n off =>
      let r := s.dev.envread up c n off
      match r.1 with
      | .ok b => ⟨r.2, s.chans.set i b.2⟩
      | .error _ => ⟨r.2, s.chans⟩
  | .envwrite data off =>
      if c.has copen ∧ fdcheck c (some owrite) true = .ok () then
        ⟨(s.dev.envwrite up c data off).2, s.chans⟩
      else s
  | .envstat | .envwstat => s
  | .envremove => ⟨(s.dev.envremove up c).2, s.chans⟩
  | .envclose => ⟨s.dev, s.chans.eraseIdx i⟩

def act (s : Sys) (up : Up) : Op → Sys
  | .envattach spec => s.put s.dev (EnvDev.envattach spec).toOption
  | .on i call =>
      match s.chans[i]? with
      | some c => s.on up i c call
      | none => s

end Sys

def Fixed : Sys → List (Up × Op) → Prop
  | _, [] => True
  | s, (up, op) :: ops => (s.act up op).dev.confegrp = s.dev.confegrp ∧ Fixed (s.act up op) ops

/-- A file is made: in a directory, with a name that is not too long and not there. -/
def Makes (d : EnvDev) (up : Up) (c : Chan) (name : String) (mode : UInt16) : Prop :=
  c.isDir ∧ (utf8 name).length < 128 ∧ (∃ m, openmode mode = .ok m) ∧ (d.egrp up c).find name = none

def Removes (d : EnvDev) (up : Up) (c : Chan) : Prop :=
  ¬c.isDir ∧ ∃ name v, d.name c.qid.path = some name ∧ (d.egrp up c).find name = some v

def Changes (d : EnvDev) (up : Up) (c : Chan) : Call → Prop
  | .envcreate name mode => Makes d up c name mode
  | .envremove => Removes d up c
  | _ => False

/-- The operation makes no file of the configuration and removes none. -/
def Harmless (s : Sys) (up : Up) : Op → Prop
  | .envattach _ => True
  | .on i call => ∀ c, s.chans[i]? = some c → c.aux = auxconf → ¬Changes s.dev up c call

def AllHarmless : Sys → List (Up × Op) → Prop
  | _, [] => True
  | s, (up, op) :: ops => Harmless s up op ∧ AllHarmless (s.act up op) ops

structure Asks (d d' : EnvDev) : Prop where
  eve : d'.eve = d.eve
  confegrp : d'.confegrp = d.confegrp

/-- The configuration's files are open for reading only. -/
def Readers (chans : List Chan) : Prop :=
  ∀ c ∈ chans, c.aux = auxconf → c.has copen = true → c.mode = oread

variable {d : EnvDev} {up : Up} {c : Chan}

theorem Asks.refl (d : EnvDev) : Asks d d := ⟨rfl, rfl⟩

theorem Asks.trans {d d' d'' : EnvDev} (first : Asks d d') (second : Asks d' d'') : Asks d d'' :=
  ⟨second.eve.trans first.eve, second.confegrp.trans first.confegrp⟩

theorem asks_qid (d : EnvDev) (name : String) : Asks d (d.qid name).2 := by
  rw [EnvDev.qid]
  split <;> exact ⟨rfl, rfl⟩

theorem asks_dirs (named : List (String × Nat)) (d : EnvDev) (c : Chan) :
    Asks d (d.dirs c named).2 := by
  induction named generalizing d with
  | nil => exact .refl d
  | cons e named ih => exact (asks_qid d e.1).trans (ih (d.qid e.1).2)

theorem asks_setEgrp (d : EnvDev) (up : Up) (own : c.aux ≠ auxconf) (g : Egrp) :
    Asks d (d.setEgrp up c g) := by
  rw [EnvDev.setEgrp, if_neg own]
  split <;> exact ⟨rfl, rfl⟩

theorem asks_envwalk (d : EnvDev) (up : Up) (c : Chan) (name : String) :
    Asks d (d.envwalk up c name).2 := by
  rw [EnvDev.envwalk]
  split_ifs
  · exact .refl d
  · exact .refl d
  · exact .refl d
  · exact asks_qid d name

theorem asks_envread (d : EnvDev) (up : Up) (c : Chan) (n : Nat) (off : UInt64) :
    Asks d (d.envread up c n off).2 := by
  rw [EnvDev.envread]
  split
  · exact asks_dirs _ d c
  · split <;> exact .refl d

theorem asks_access (mode : UInt16) (safe : c.aux ≠ auxconf ∨ mode &&& otrunc = 0) :
    Asks d (d.access up c mode).2 := by
  rw [EnvDev.access]
  split
  · exact .refl d
  · split
    · exact .refl d
    · split
      · exact .refl d
      · split_ifs with truncates
        · rcases safe with own | whole
          · exact asks_setEgrp _ _ own _
          · exact absurd whole truncates
        · exact .refl d

theorem not_writeable (conf : c.aux = auxconf) (other : up.user ≠ d.eve) :
    d.writeable up c = false := by
  rw [EnvDev.writeable, Bool.or_eq_false_iff]
  constructor
  · simp [conf]
  · simpa using other.symm

theorem asks_envopen (mode : UInt16) (other : up.user ≠ d.eve) :
    Asks d (d.envopen up c mode).2 ∧ ∀ c', (d.envopen up c mode).1 = .ok c' →
      c'.aux = c.aux ∧ (c.aux = auxconf → c'.mode = oread) := by
  rw [EnvDev.envopen]
  split_ifs with refused
  · exact ⟨.refl d, fun c' opens => nomatch opens⟩
  · have safe : c.aux ≠ auxconf ∨ mode = oread := by
      rcases eq_or_ne c.aux auxconf with conf | own
      · right
        by_contra writes
        exact refused ⟨writes, .inr (by rw [not_writeable conf other]; rfl)⟩
      · exact .inl own
    have asked : Asks d (d.access up c mode).2 := by
      apply asks_access
      rcases safe with own | reads
      · exact .inl own
      · exact .inr (by rw [reads]; rfl)
    rcases reached : d.access up c mode with ⟨r, d'⟩
    rw [reached] at asked
    cases r with
    | error e => exact ⟨asked, fun c' opens => nomatch opens⟩
    | ok u =>
        dsimp only
        cases is : openmode mode with
        | error e => exact ⟨asked, fun c' opens => nomatch opens⟩
        | ok m =>
            refine ⟨asked, ?_⟩
            intro c' opens
            rw [Except.ok.injEq] at opens
            subst opens
            refine ⟨rfl, ?_⟩
            intro conf
            rcases safe with own | reads
            · exact absurd conf own
            · rw [reads] at is
              cases is
              rfl

theorem asks_envwrite (d : EnvDev) (up : Up) (own : c.aux ≠ auxconf) (data : Bytes) (off : UInt64) :
    Asks d (d.envwrite up c data off).2 := by
  rw [EnvDev.envwrite]
  split_ifs
  · exact .refl d
  · exact .refl d
  · split
    · exact .refl d
    · split
      · exact .refl d
      · exact asks_setEgrp _ _ own _

theorem envcreate_cases (d : EnvDev) (up : Up) (c : Chan) (name : String) (mode : UInt16) :
    (¬Makes d up c name mode ∧ ∃ e, d.envcreate up c name mode = (.error e, d)) ∨
      (Makes d up c name mode ∧ ∃ c', c'.aux = c.aux ∧ d.envcreate up c name mode =
        (.ok c', ((d.setEgrp up c ((d.egrp up c).insert name [])).qid name).2)) := by
  rw [EnvDev.envcreate]
  by_cases dir : c.isDir = true
  · rw [dir, Bool.not_true, if_neg Bool.false_ne_true]
    by_cases long : 128 ≤ (utf8 name).length
    · rw [if_pos long]
      exact .inl ⟨fun makes => Nat.not_lt.2 long makes.2.1, _, rfl⟩
    · rw [if_neg long]
      cases is : openmode mode with
      | error e =>
          left
          refine ⟨?_, e, rfl⟩
          rintro ⟨_, _, ⟨m, made⟩, _⟩
          rw [is] at made
          cases made
      | ok m =>
          cases there : (d.egrp up c).find name with
          | some v =>
              left
              refine ⟨fun makes => ?_, _, rfl⟩
              rw [makes.2.2.2] at there
              cases there
          | none =>
              refine .inr ⟨⟨dir, Nat.lt_of_not_le long, ⟨m, is⟩, there⟩, ?_⟩
              dsimp only
              rw [Option.isSome_none, if_neg Bool.false_ne_true]
              refine ⟨_, ?_, rfl⟩
              rfl
  · rw [Bool.not_eq_true] at dir
    rw [dir]
    refine .inl ⟨fun makes => ?_, _, rfl⟩
    rw [makes.1] at dir
    cases dir

theorem envremove_cases (d : EnvDev) (up : Up) (c : Chan) :
    (¬Removes d up c ∧ (d.envremove up c).2 = d) ∨
      ∃ name v, Removes d up c ∧ (d.egrp up c).find name = some v ∧
        (d.envremove up c).2 = d.setEgrp up c ((d.egrp up c).erase name) := by
  rw [EnvDev.envremove]
  split_ifs with dir
  · exact .inl ⟨fun removes => removes.1 dir, rfl⟩
  · cases named : d.name c.qid.path with
    | none =>
        left
        refine ⟨?_, rfl⟩
        rintro ⟨_, name, v, is, _⟩
        rw [named] at is
        cases is
    | some name =>
        dsimp only
        cases found : (d.egrp up c).find name with
        | none =>
            left
            refine ⟨?_, rfl⟩
            rintro ⟨_, name', v, is, there⟩
            rw [named, Option.some.injEq] at is
            rw [← is, found] at there
            cases there
        | some v => exact .inr ⟨name, v, ⟨dir, name, v, named, found⟩, found, rfl⟩

theorem egrp_conf (up : Up) (conf : c.aux = auxconf) : d.egrp up c = d.confegrp := by
  rw [EnvDev.egrp, if_pos conf]

theorem setEgrp_conf (d : EnvDev) (up : Up) (conf : c.aux = auxconf) (g : Egrp) :
    (d.setEgrp up c g).confegrp = g ∧ (d.setEgrp up c g).eve = d.eve := by
  rw [EnvDev.setEgrp, if_pos conf]
  exact ⟨rfl, rfl⟩

/-- Making a file asks, unless it is made in the configuration, which it then changes. -/
theorem envcreate_iff (d : EnvDev) (up : Up) (c : Chan) (name : String) (mode : UInt16) :
    (d.envcreate up c name mode).2.eve = d.eve ∧
      ((d.envcreate up c name mode).2.confegrp = d.confegrp ↔
        (c.aux = auxconf → ¬Makes d up c name mode)) ∧
      ∀ c', (d.envcreate up c name mode).1 = .ok c' → c'.aux = c.aux ∧ Makes d up c name mode := by
  rcases envcreate_cases d up c name mode with ⟨none_, e, is⟩ | ⟨makes, c', same, is⟩
  · rw [is]
    exact ⟨rfl, ⟨fun _ _ => none_, fun _ => rfl⟩, nofun⟩
  · rw [is]
    have asked := asks_qid (d.setEgrp up c ((d.egrp up c).insert name [])) name
    rcases eq_or_ne c.aux auxconf with conf | own
    · have put := setEgrp_conf d up conf ((d.egrp up c).insert name [])
      refine ⟨asked.eve.trans put.2, ?_, ?_⟩
      · constructor
        · intro kept
          have found := (d.egrp up c).find_insert name []
          rw [← put.1, ← asked.confegrp] at found
          dsimp only at kept
          rw [kept, ← egrp_conf up conf, makes.2.2.2] at found
          cases found
        · intro harmless
          exact absurd makes (harmless conf)
      · rintro c'' ⟨⟩
        exact ⟨same, makes⟩
    · have put := (asks_setEgrp d up own ((d.egrp up c).insert name [])).trans asked
      refine ⟨put.eve, ⟨fun _ conf => absurd conf own, fun _ => put.confegrp⟩, ?_⟩
      rintro c'' ⟨⟩
      exact ⟨same, makes⟩

theorem envremove_iff (d : EnvDev) (up : Up) (c : Chan) :
    (d.envremove up c).2.eve = d.eve ∧
      ((d.envremove up c).2.confegrp = d.confegrp ↔ (c.aux = auxconf → ¬Removes d up c)) := by
  rcases envremove_cases d up c with ⟨none_, is⟩ | ⟨name, v, removes, found, is⟩
  · rw [is]
    exact ⟨rfl, fun _ _ => none_, fun _ => rfl⟩
  · rw [is]
    rcases eq_or_ne c.aux auxconf with conf | own
    · have put := setEgrp_conf d up conf ((d.egrp up c).erase name)
      refine ⟨put.2, ?_, fun harmless => absurd removes (harmless conf)⟩
      intro kept
      have gone := (d.egrp up c).find_erase name
      rw [← put.1, kept, ← egrp_conf up conf, found] at gone
      cases gone
    · have put := asks_setEgrp d up own ((d.egrp up c).erase name)
      exact ⟨put.eve, fun _ conf => absurd conf own, fun _ => put.confegrp⟩

theorem envattach_flag {spec : String} {c' : Chan} (attached : EnvDev.envattach spec = .ok c') :
    c'.has copen = false := by
  rw [EnvDev.envattach] at attached
  have closed : ((0 : UInt16) &&& copen != 0) = false := by decide
  split_ifs at attached
  all_goals
    cases attached
    exact closed

theorem envwalk_chan {name : String} {c' : Chan}
    (walks : (d.envwalk up c name).1 = .ok (some c')) :
    c'.aux = c.aux ∧ c'.mode = c.mode ∧ c'.has copen = c.has copen := by
  rw [EnvDev.envwalk] at walks
  split_ifs at walks
  all_goals
    cases walks
  all_goals
    exact ⟨rfl, rfl, rfl⟩

theorem envread_chan {n : Nat} {off : UInt64} {b : Bytes × Chan}
    (reads : (d.envread up c n off).1 = .ok b) :
    b.2.aux = c.aux ∧ b.2.mode = c.mode ∧ b.2.has copen = c.has copen := by
  rw [EnvDev.envread] at reads
  split_ifs at reads
  · cases reads
    exact ⟨rfl, rfl, rfl⟩
  · split at reads
    · cases reads
    · cases reads
      exact ⟨rfl, rfl, rfl⟩

theorem fdcheck_reader (reader : c.mode = oread) : fdcheck c (some owrite) true ≠ .ok () := by
  have reads : oread ≠ ordwr := by decide
  have writes : owrite &&& ~~~otrunc ≠ oread := by decide
  have refused : fdcheck c (some owrite) true = .error ebadusefd := by
    simp only [fdcheck, reader, if_neg reads, if_pos writes, ite_self]
  rw [refused]
  nofun

theorem ok_of_mem {α : Type} {r : Except String α} {a : α} (new : a ∈ r.toOption) : r = .ok a := by
  cases r with
  | error e => cases new
  | ok a' =>
      cases new
      rfl

theorem readers_put {s : Sys} {dev : EnvDev} {new : Option Chan} (readers : Readers s.chans)
    (fresh : ∀ c ∈ new, c.aux = auxconf → c.has copen = true → c.mode = oread) :
    Readers (s.put dev new).chans := by
  intro c mem
  rcases mem_append.1 mem with old | new_
  · exact readers c old
  · exact fresh c (Option.mem_toList.1 new_)

/-- One operation: the configuration is as it was just when it is harmless, and then its files stay
open for reading only. -/
theorem on_iff {s : Sys} {i : Nat} (readers : Readers s.chans) (other : up.user ≠ s.dev.eve)
    (held : s.chans[i]? = some c) (call : Call) :
    (s.on up i c call).dev.eve = s.dev.eve ∧
      ((s.on up i c call).dev.confegrp = s.dev.confegrp ↔
        (c.aux = auxconf → ¬Changes s.dev up c call)) ∧
      ((s.on up i c call).dev.confegrp = s.dev.confegrp → Readers (s.on up i c call).chans) := by
  have reader := readers c (mem_of_getElem? held)
  have free : c.aux = auxconf → ¬False := fun _ => id
  cases call with
  | envwalk name =>
      have asked := asks_envwalk s.dev up c name
      refine ⟨asked.eve, iff_of_true asked.confegrp free, fun _ => readers_put readers ?_⟩
      intro c' new conf isOpen
      have like := envwalk_chan (ok_of_mem (Option.join_eq_some_iff.1 new))
      rw [like.1] at conf
      rw [like.2.2] at isOpen
      exact like.2.1.trans (reader conf isOpen)
  | envopen mode =>
      have asked := asks_envopen (c := c) mode other
      refine ⟨asked.1.eve, iff_of_true asked.1.confegrp free, fun _ => readers_put readers ?_⟩
      intro c' new conf _
      have like := asked.2 c' (ok_of_mem new)
      exact like.2 (like.1.symm.trans conf)
  | envcreate name mode =>
      have spec := envcreate_iff s.dev up c name mode
      refine ⟨spec.1, spec.2.1, fun kept => readers_put readers ?_⟩
      intro c' new conf _
      have like := spec.2.2 c' (ok_of_mem new)
      exact absurd like.2 (spec.2.1.1 kept (like.1.symm.trans conf))
  | envread n off =>
      have asked := asks_envread s.dev up c n off
      rw [Sys.on]
      rcases reads : (s.dev.envread up c n off).1 with e | b
      · exact ⟨asked.eve, iff_of_true asked.confegrp free, fun _ => readers⟩
      · refine ⟨asked.eve, iff_of_true asked.confegrp free, fun _ => ?_⟩
        intro c' mem conf isOpen
        rcases mem_or_eq_of_mem_set mem with old | rfl
        · exact readers c' old conf isOpen
        · have like := envread_chan reads
          rw [like.1] at conf
          rw [like.2.2] at isOpen
          exact like.2.1.trans (reader conf isOpen)
  | envwrite data off =>
      rw [Sys.on]
      split_ifs with writes
      · have own : c.aux ≠ auxconf := fun conf => fdcheck_reader (reader conf writes.1) writes.2
        have asked := asks_envwrite s.dev up own data off
        exact ⟨asked.eve, iff_of_true asked.confegrp free, fun _ => readers⟩
      · exact ⟨rfl, iff_of_true rfl free, fun _ => readers⟩
  | envremove =>
      have spec := envremove_iff s.dev up c
      exact ⟨spec.1, spec.2, fun _ => readers⟩
  | envstat => exact ⟨rfl, iff_of_true rfl free, fun _ => readers⟩
  | envwstat => exact ⟨rfl, iff_of_true rfl free, fun _ => readers⟩
  | envclose =>
      refine ⟨rfl, iff_of_true rfl free, fun _ c' mem => ?_⟩
      exact readers c' (mem_of_mem_eraseIdx mem)

theorem act_iff {s : Sys} (readers : Readers s.chans) (other : up.user ≠ s.dev.eve) (op : Op) :
    (s.act up op).dev.eve = s.dev.eve ∧
      ((s.act up op).dev.confegrp = s.dev.confegrp ↔ Harmless s up op) ∧
      ((s.act up op).dev.confegrp = s.dev.confegrp → Readers (s.act up op).chans) := by
  cases op with
  | envattach spec =>
      refine ⟨rfl, iff_of_true rfl trivial, fun _ => readers_put readers ?_⟩
      intro c new _ isOpen
      rw [envattach_flag (ok_of_mem new)] at isOpen
      cases isOpen
  | on i call =>
      rw [Sys.act, Harmless]
      rcases held : s.chans[i]? with _ | c
      · exact ⟨rfl, iff_of_true rfl (fun c is => nomatch is), fun _ => readers⟩
      · have here := on_iff readers other held call
        refine ⟨here.1, here.2.1.trans ?_, here.2.2⟩
        constructor
        · rintro harmless c' ⟨⟩
          exact harmless
        · exact fun harmless => harmless c rfl

theorem fixed_iff {s : Sys} (readers : Readers s.chans) (ops : List (Up × Op))
    (others : ∀ o ∈ ops, o.1.user ≠ s.dev.eve) : Fixed s ops ↔ AllHarmless s ops := by
  induction ops generalizing s with
  | nil => exact ⟨fun _ => trivial, fun _ => trivial⟩
  | cons o ops ih =>
      have here := act_iff readers (others o (mem_cons_self ..)) o.2
      have later : ∀ o' ∈ ops, o'.1.user ≠ (s.act o.1 o.2).dev.eve := by
        intro o' mem
        rw [here.1]
        exact others o' (mem_cons_of_mem o mem)
      constructor
      · rintro ⟨kept, rest⟩
        exact ⟨here.2.1.1 kept, (ih (here.2.2 kept) later).1 rest⟩
      · rintro ⟨harmless, rest⟩
        have kept := here.2.1.2 harmless
        exact ⟨kept, (ih (here.2.2 kept) later).2 rest⟩

/-- By processes that are not eve's the configuration is kept just when none of them makes a file of
it or removes one. -/
theorem conf_fixed (d : EnvDev) (ops : List (Up × Op)) (others : ∀ o ∈ ops, o.1.user ≠ d.eve) :
    Fixed ⟨d, []⟩ ops ↔ AllHarmless ⟨d, []⟩ ops :=
  fixed_iff (s := ⟨d, []⟩) (fun _ mem => absurd mem not_mem_nil) ops others

def fresh : EnvDev := ⟨"eve", .empty, [], fun _ => .empty⟩

theorem conf_fixed_reader :
    (∀ o ∈ [((⟨"kitty", some 1⟩ : Up), Op.envattach "c"), (⟨"kitty", some 1⟩, .on 0 (.envopen 1))],
        o.1.user ≠ fresh.eve) ∧
      (Fixed ⟨fresh, []⟩
          [(⟨"kitty", some 1⟩, .envattach "c"), (⟨"kitty", some 1⟩, .on 0 (.envopen 1))] ↔
        AllHarmless ⟨fresh, []⟩
          [(⟨"kitty", some 1⟩, .envattach "c"), (⟨"kitty", some 1⟩, .on 0 (.envopen 1))]) :=
  ⟨by decide, conf_fixed fresh _ (by decide)⟩

/-- Anyone may make a variable of the configuration. -/
theorem conf_fixed_fails :
    (∀ o ∈ [((⟨"kitty", some 1⟩ : Up), Op.envattach "c"),
        (⟨"kitty", some 1⟩, .on 0 (.envcreate "cputype" owrite))], o.1.user ≠ fresh.eve) ∧
      ¬Fixed ⟨fresh, []⟩ [(⟨"kitty", some 1⟩, .envattach "c"),
        (⟨"kitty", some 1⟩, .on 0 (.envcreate "cputype" owrite))] := by
  refine ⟨by decide, ?_⟩
  rintro ⟨_, kept, _⟩
  have found := congrArg (·.find "cputype") kept
  exact absurd found (by decide)

end Ipnx.Dev.Env
