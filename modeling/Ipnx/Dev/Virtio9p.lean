import Ipnx.Dev.Chan
import Ipnx.Lib.Keyed
import Ipnx.Lib.System

/-!
# Channels to the machine's 9P servers

`devvirtio9p.rs`: a write submits a request to a server, and a read takes bytes of the oldest reply
that the server has completed. One channel at a time is open to a server, and what passes while it
is open is a conversation. The requests stay with the server when it is closed.
-/

namespace Ipnx.Dev.Virtio9p

open Ninep (Dir devdirread countAt)

/-- A request: the conversation it was submitted in, its tag, and the tag it flushes. -/
structure Req where
  conv : Nat
  tag : UInt16
  flushes : Option UInt16
deriving DecidableEq, Repr

/-- What a server has been asked and has not answered, and the replies it has completed since it was
last asked for them, with what they answer. -/
structure Host where
  asked : List Req
  out : List (Req × Bytes)
deriving DecidableEq, Repr

inductive Answer
  | refused (e : String)
  | now (r : Bytes)
  | later
deriving DecidableEq, Repr

namespace Host

/-- The requests that the end of one leaves: what it flushed is answered no more. -/
def ends (q : Req) (asked : List Req) : List Req := asked.filter fun p => q.flushes ≠ some p.tag

def submit (h : Host) (q : Req) : Answer → Except String (Option Bytes) × Host
  | .refused e => (.error e, h)
  | .now r => (.ok (some r), { h with asked := ends q h.asked })
  | .later => (.ok none, { h with asked := h.asked ++ [q] })

def harvest (h : Host) : List Bytes × Host := (h.out.map Prod.snd, { h with out := [] })

def completes (h : Host) (k : Nat) (r : Bytes) : Host :=
  match h.asked[k]? with
  | some q => ⟨ends q (h.asked.eraseIdx k), h.out ++ [(q, r)]⟩
  | none => h

/-- The requests whose replies have not come, in the order the replies may come in. -/
def outstanding (h : Host) : List Req := h.out.map Prod.fst ++ h.asked

end Host

def einuse : String := "device or object already in use"

def tagAt (b : Bytes) (at_ : Nat) : Option UInt16 :=
  if at_ + 2 ≤ b.length then some (UInt16.ofNat (countAt b at_)) else none

def tflush : UInt8 := 108

/-- The tag that a message flushes, if it is a `Tflush`. -/
def flushes (t : Bytes) : Option UInt16 := if t[4]? = some tflush then tagAt t 7 else none

/-- A server: whether a channel is open to it, the reply in hand with how much of it has gone, the
replies not yet read, and what the requests that are held flush, by their tags. -/
structure Server where
  host : Host
  inuse : Bool
  cur : Option (Bytes × Nat)
  done : List Bytes
  held : Keyed UInt16 (Option UInt16)

namespace Server

def new : Server := ⟨⟨[], []⟩, false, none, [], .empty⟩

def flush (s : Server) : Server := { s with cur := none, done := [] }

/-- A reply has come: it is no longer held, nor is what it flushed. -/
def answered (s : Server) (r : Bytes) : Server :=
  match tagAt r 5 with
  | none => s
  | some tag =>
      match s.held.find tag with
      | some (some flushed) => { s with held := (s.held.erase tag).erase flushed }
      | _ => { s with held := s.held.erase tag }

def push (s : Server) (r : Bytes) : Server :=
  { s.answered r with done := s.done ++ [r] }

/-- What the server has answered is queued. -/
def interrupt (s : Server) : Server :=
  s.host.harvest.1.foldl push { s with host := s.host.harvest.2 }

def next (s : Server) : Server :=
  match s.cur, s.done with
  | none, r :: done => { s with cur := some (r, 0), done := done }
  | _, _ => s

def give (s : Server) (n : Nat) : Option Bytes × Server :=
  match s.cur with
  | none => (none, s)
  | some (reply, rp) =>
      let k := min n (reply.length - rp)
      (some ((reply.drop rp).take k),
        { s with cur := if reply.length ≤ rp + k then none else some (reply, rp + k) })

def write (s : Server) (data : Bytes) (tag : UInt16)
    (submit : Host → Except String (Option Bytes) × Host) : Except String Nat × Server :=
  let held := s.held.insert tag (flushes data)
  let r := submit s.host
  let s := { s with host := r.2, held := held }
  match r.1 with
  | .ok (some r) => (.ok data.length, s.push r)
  | .ok none => (.ok data.length, s)
  | .error e => (.error e, { s with held := held.erase tag })

end Server

end Ipnx.Dev.Virtio9p

namespace Ipnx.Dev

open List
open Ninep (Dir devdirread)
open Virtio9p (Server Host einuse tagAt)

structure Virtio9p where
  servers : List Virtio9p.Server
  eve : String

namespace Virtio9p

def qdir : UInt64 := 0

/-- The number a text is, as the source's language reads one: digits, with perhaps a `+` before. -/
def parse (name : String) : Option Nat :=
  let digits := match name.toList with
    | '+' :: cs => cs
    | cs => cs
  if digits ≠ [] ∧ digits.all Char.isDigit then
    some (digits.foldl (fun n c => 10 * n + (c.toNat - 48)) 0)
  else none

variable (d : Virtio9p) (c : Chan)

/-- The qid path is the index plus one. -/
def index (path : UInt64) : Option Nat :=
  if path = qdir then none
  else if path.toNat - 1 < d.servers.length then some (path.toNat - 1) else none

def interrupt : Virtio9p := { d with servers := d.servers.map Server.interrupt }

def waiting : Bool := d.servers.any fun s => s.inuse && !s.held.entries.isEmpty

def v9attach (spec : String) : Chan := Chan.attachSpec .virtio9p 0 spec

def v9walk (name : String) : Except String (Option Chan) :=
  if !c.isDir then .error enotdir
  else if name = ".." ∨ name = "." then .ok (some (c.walked name ⟨Name.qtdir, 0, qdir⟩))
  else
    .ok (((parse name).filter (· < d.servers.length)).map fun i =>
      c.walked name ⟨0, 0, UInt64.ofNat i + 1⟩)

def find (path : UInt64) : Option (Nat × Server) :=
  (d.index path).bind fun i => (d.servers[i]?).map fun s => (i, s)

def put (i : Nat) (s : Server) : Virtio9p := { d with servers := d.servers.set i s }

def v9open (mode : UInt16) : Except String Chan × Virtio9p :=
  if c.isDir then
    if mode ≠ oread then (.error eperm, d)
    else
      match openmode mode with
      | .error e => (.error e, d)
      | .ok m => (.ok (c.opened m), d)
  else
    match openmode mode with
    | .error e => (.error e, d)
    | .ok m =>
        match d.find c.qid.path with
        | none => (.error enonexist, d)
        | some (i, s) =>
            if s.inuse then (.error einuse, d)
            else (.ok (c.opened m), d.put i { s.flush with inuse := true })

def entries : List Dir :=
  (List.range d.servers.length).map fun i =>
    devdir c ⟨0, 0, UInt64.ofNat i + 1⟩ (toString i) 0 d.eve d.eve 0o660

/-- The bytes, unless the reader is left waiting, and the channel for the next read. The servers are
harvested when there is nothing to read, in case the interrupt was missed. -/
def v9read (n : Nat) : Except String (Option Bytes) × Chan × Virtio9p :=
  if c.isDir then
    let r := devdirread (d.entries c) n c.dri
    (.ok (some r.1), { c with dri := r.2 }, d)
  else if n = 0 then (.ok (some []), c, d)
  else
    match d.find c.qid.path with
    | none => (.error enonexist, c, d)
    | some (i, s) =>
        let missed := s.cur.isNone && s.done.isEmpty
        let r := ((if missed then s.interrupt else s).next).give n
        (.ok r.1, c, (if missed then d.interrupt else d).put i r.2)

/-- A message is for the server of a file to be submitted. -/
def v9write (data : Bytes) (submit : Nat → Host → Except String (Option Bytes) × Host) :
    Except String Nat × Virtio9p :=
  if c.isDir then (.error eperm, d)
  else
    match tagAt data 5 with
    | none => (.error "invalid 9P message", d)
    | some tag =>
        match d.find c.qid.path with
        | none => (.error enonexist, d)
        | some (i, s) =>
            let r := s.write data tag (submit i)
            (r.1, d.put i r.2)

def v9close : Virtio9p :=
  if c.isDir ∨ !c.has copen then d
  else
    match d.find c.qid.path with
    | none => d
    | some (i, s) => d.put i { s.flush with inuse := false }

end Virtio9p

namespace Virtio9p

/-- What is told of the conversation with a server: which it is, the replies that were completed to
its requests, and what was read in it, each in order. -/
structure Talk where
  conv : Nat
  replies : List Bytes
  reads : List Bytes
deriving DecidableEq, Repr

/-- The device, the channels that are open to it, and what is told of the conversations. -/
structure Sys where
  dev : Virtio9p
  chans : List Chan
  talks : Nat → Talk

/-- What processes do with channels, what a server completes, and the clock. -/
inductive Op
  | v9open (name : String) (mode : UInt16)
  | v9read (j : Nat) (n : Nat)
  | v9write (j : Nat) (data : Bytes) (answer : Answer)
  | v9close (j : Nat)
  | completes (i k : Nat) (r : Bytes)
  | interrupt
deriving DecidableEq, Repr

namespace Sys

def file (s : Sys) (c : Chan) : Option (Nat × Server) :=
  if c.isDir then none else s.dev.find c.qid.path

/-- What is told changes, of the server that a channel is to. -/
def tell (s : Sys) (c : Chan) (f : Talk → Talk) : Nat → Talk :=
  match s.file c with
  | some (i, _) => Function.update s.talks i (f (s.talks i))
  | none => s.talks

/-- A message as the request that its server has. -/
def req (s : Sys) (i : Nat) (data : Bytes) : Req :=
  ⟨(s.talks i).conv, (tagAt data 5).getD 0, flushes data⟩

def act (s : Sys) : Op → Sys
  | .v9open name mode =>
      match s.dev.v9walk (v9attach "") name with
      | .ok (some c) =>
          match s.dev.v9open c mode with
          | (.ok c', dev) =>
              ⟨dev, s.chans ++ [c'], s.tell c fun t => ⟨t.conv + 1, [], []⟩⟩
          | (.error _, _) => s
      | _ => s
  | .v9read j n =>
      match s.chans[j]? with
      | none => s
      | some c =>
          match s.dev.v9read c n with
          | (.ok (some b), c', dev) =>
              ⟨dev, s.chans.set j c', s.tell c fun t => { t with reads := t.reads ++ [b] }⟩
          | (_, c', dev) => ⟨dev, s.chans.set j c', s.talks⟩
  | .v9write j data answer =>
      match s.chans[j]? with
      | none => s
      | some c =>
          match s.dev.v9write c data fun i h => h.submit (s.req i data) answer, answer with
          | (.ok _, dev), .now r =>
              ⟨dev, s.chans, s.tell c fun t => { t with replies := t.replies ++ [r] }⟩
          | (_, dev), _ => { s with dev := dev }
  | .v9close j =>
      match s.chans[j]? with
      | none => s
      | some c => ⟨s.dev.v9close c, s.chans.eraseIdx j, s.talks⟩
  | .completes i k r =>
      match s.dev.servers[i]? with
      | none => s
      | some sv =>
          match sv.host.asked[k]? with
          | none => s
          | some q =>
              let t := s.talks i
              let told := if q.conv = t.conv then { t with replies := t.replies ++ [r] } else t
              ⟨s.dev.put i { sv with host := sv.host.completes k r }, s.chans,
                Function.update s.talks i told⟩
  | .interrupt => { s with dev := s.dev.interrupt }

/-- A reply carries the tag of the request it answers. -/
def Valid (s : Sys) : Op → Prop
  | .v9write _ data (.now r) => tagAt r 5 = tagAt data 5
  | .completes i k r => ∀ sv q, s.dev.servers[i]? = some sv → sv.host.asked[k]? = some q →
      tagAt r 5 = some q.tag
  | _ => True

end Sys

def new (n : Nat) (eve : String) : Virtio9p := ⟨List.replicate n .new, eve⟩

def talking : System Sys Op where
  init s := ∃ n eve, s = ⟨new n eve, [], fun _ => ⟨0, [], []⟩⟩
  step s op s' := s.Valid op ∧ s' = s.act op

/-- What was read are pieces of the replies, one reply after another: those of each make it up, and
those of the last are its beginning. -/
def Whole (reads replies : List Bytes) : Prop :=
  ∃ (pieces : List (List Bytes)) (part rest : List Bytes), reads = pieces.flatten ++ part ∧
    replies = pieces.map List.flatten ++ rest ∧ part.flatten <+: rest.headD []

/-- In each conversation the replies to its own requests are read, whole and as they were completed,
and a reply is awaited only to a request of a conversation that goes on. -/
structure Talks (s : Sys) : Prop where
  whole : ∀ i < s.dev.servers.length, Whole (s.talks i).reads (s.talks i).replies
  waits : s.dev.waiting = true → ∃ i sv, s.dev.servers[i]? = some sv ∧ sv.inuse = true ∧
    ∃ q ∈ sv.host.outstanding, q.conv = (s.talks i).conv

/-- A conversation begins when nothing is outstanding. In it a tag is used again once it is neither
outstanding nor being flushed, and no reply is given at once before one that was completed. -/
def Careful (s : Sys) : Op → Prop
  | .v9open name _ => ∀ c i sv, s.dev.v9walk (v9attach "") name = .ok (some c) →
      s.file c = some (i, sv) → sv.inuse = false → sv.host.outstanding = []
  | .v9write j data answer => ∀ c i sv tag, s.chans[j]? = some c → s.file c = some (i, sv) →
      tagAt data 5 = some tag →
        (∀ q ∈ sv.host.outstanding, q.tag ≠ tag ∧ q.flushes ≠ some tag) ∧
          ∀ r, answer = .now r → sv.host.out = []
  | _ => True

/-- Pieces of replies, of which one is in hand and others are to come. -/
def Cut (reads replies : List Bytes) (cur : Option (Bytes × Nat)) (later : List Bytes) : Prop :=
  ∃ (pieces : List (List Bytes)) (part : List Bytes), reads = pieces.flatten ++ part ∧
    replies = pieces.map List.flatten ++ ((cur.map Prod.fst).toList ++ later) ∧
    part.flatten = (cur.map fun p => p.1.take p.2).getD []

/-- What the tags that are held are to the outstanding requests, and what is told to what is kept of
the replies. -/
structure Keeps (s : Server) (t : Talk) : Prop where
  apart : s.host.outstanding.Pairwise fun q p => q.tag ≠ p.tag ∧ q.flushes ≠ some p.tag
  recorded : ∀ q ∈ s.host.outstanding, s.held.find q.tag = some q.flushes
  owed : ∀ tag, s.held.find tag ≠ none → (∃ q ∈ s.host.outstanding, q.tag = tag) ∨
    ∃ o ∈ s.host.out, o.1.flushes = some tag
  convs : ∀ q ∈ s.host.outstanding, q.conv = t.conv
  carried : ∀ o ∈ s.host.out, tagAt o.2 5 = some o.1.tag
  whole : Whole t.reads t.replies
  told : s.inuse = true → Cut t.reads t.replies s.cur (s.done ++ s.host.out.map Prod.snd)

section pieces

variable {reads replies later : List Bytes} {cur : Option (Bytes × Nat)} {r b : Bytes}

theorem Whole.nil : Whole [] [] := ⟨[], [], [], rfl, rfl, nil_prefix⟩

theorem Whole.reply (whole : Whole reads replies) (r : Bytes) : Whole reads (replies ++ [r]) := by
  rcases whole with ⟨pieces, part, rest, read, was, first⟩
  refine ⟨pieces, part, rest ++ [r], read, ?_, ?_⟩
  · rw [was, append_assoc]
  · cases rest with
    | nil =>
        rw [headD_nil, prefix_nil] at first
        rw [first]
        exact nil_prefix
    | cons a rest => exact first

theorem Cut.whole (cut : Cut reads replies cur later) : Whole reads replies := by
  rcases cut with ⟨pieces, part, read, was, is⟩
  refine ⟨pieces, part, _, read, was, ?_⟩
  rw [is]
  cases cur with
  | none => exact nil_prefix
  | some p => exact take_prefix p.2 p.1

theorem Cut.next (cut : Cut reads replies none (r :: later)) :
    Cut reads replies (some (r, 0)) later := by
  rcases cut with ⟨pieces, part, read, was, is⟩
  exact ⟨pieces, part, read, was, is⟩

theorem Cut.blank (cut : Cut reads replies cur later) : Cut (reads ++ [[]]) replies cur later := by
  rcases cut with ⟨pieces, part, read, was, is⟩
  refine ⟨pieces, part ++ [[]], ?_, was, ?_⟩
  · rw [read, append_assoc]
  · rw [flatten_append, is]
    simp

theorem Cut.more {rp : Nat} (cut : Cut reads replies (some (r, rp)) later) (k : Nat) :
    Cut (reads ++ [(r.drop rp).take k]) replies (some (r, rp + k)) later := by
  rcases cut with ⟨pieces, part, read, was, is⟩
  refine ⟨pieces, part ++ [(r.drop rp).take k], ?_, was, ?_⟩
  · rw [read, append_assoc]
  · rw [flatten_append, is]
    simp [take_add]

theorem Cut.finish {rp : Nat} (cut : Cut reads replies (some (r, rp)) later)
    (ended : r.length ≤ rp) : Cut reads replies none later := by
  rcases cut with ⟨pieces, part, read, was, is⟩
  refine ⟨pieces ++ [part], [], ?_, ?_, rfl⟩
  · rw [read, flatten_append]
    simp
  · have whole : part.flatten = r := by
      rw [is]
      exact take_of_length_le ended
    rw [was, map_append, map_singleton, whole]
    simp

theorem Cut.reply (cut : Cut reads replies cur later) (r : Bytes) :
    Cut reads (replies ++ [r]) cur (later ++ [r]) := by
  rcases cut with ⟨pieces, part, read, was, is⟩
  refine ⟨pieces, part, read, ?_, is⟩
  rw [was]
  simp only [append_assoc]

end pieces

section server

variable {s : Server} {t : Talk} {h : Host} {r : Bytes}

theorem push_eq (s : Server) (r : Bytes) :
    s.push r = { s with held := (s.answered r).held, done := s.done ++ [r] } := by
  simp only [Server.push, Server.answered]
  cases tagAt r 5 with
  | none => rfl
  | some tag =>
      dsimp only
      split <;> rfl

theorem push_host (s : Server) (h : Host) (r : Bytes) :
    ({ s with host := h } : Server).push r = { s.push r with host := h } := by
  simp only [Server.push, Server.answered]
  cases tagAt r 5 with
  | none => rfl
  | some tag =>
      dsimp only
      split <;> rfl

theorem held_answered {q : Req} (carries : tagAt r 5 = some q.tag)
    (recorded : s.held.find q.tag = some q.flushes) (tag : UInt16) :
    (s.answered r).held.find tag =
      if tag = q.tag ∨ q.flushes = some tag then none else s.held.find tag := by
  simp only [Server.answered, carries, recorded]
  cases flushed : q.flushes with
  | none =>
      dsimp only
      by_cases same : tag = q.tag
      · rw [if_pos (.inl same), same]
        exact Keyed.find_erase ..
      · rw [if_neg (not_or.mpr ⟨same, nofun⟩)]
        exact Keyed.find_erase_of_ne _ same
  | some f =>
      dsimp only
      split_ifs with is
      · by_cases same : tag = f
        · rw [same]
          exact Keyed.find_erase ..
        · rw [Keyed.find_erase_of_ne _ same]
          rcases is with rfl | other
          · exact Keyed.find_erase ..
          · exact absurd (Option.some.inj other).symm same
      · rw [not_or, Option.some.injEq] at is
        rw [Keyed.find_erase_of_ne _ (Ne.symm is.2), Keyed.find_erase_of_ne _ is.1]

variable (keeps : Keeps s t)

include keeps

theorem Keeps.take {o : Req × Bytes} {out : List (Req × Bytes)} (there : s.host.out = o :: out) :
    Keeps (({ s with host := { s.host with out := out } } : Server).push o.2) t := by
  rw [push_host, push_eq]
  have all : s.host.outstanding = o.1 :: (out.map Prod.fst ++ s.host.asked) := by
    rw [Host.outstanding, there, map_cons, cons_append]
  have first : o.1 ∈ s.host.outstanding := by
    rw [all]
    exact mem_cons_self
  have apart := keeps.apart
  rw [all, pairwise_cons] at apart
  have carries : tagAt o.2 5 = some o.1.tag := by
    apply keeps.carried o
    rw [there]
    exact mem_cons_self
  have held : ∀ tag, (s.answered o.2).held.find tag =
      if tag = o.1.tag ∨ o.1.flushes = some tag then none else s.held.find tag :=
    held_answered carries (keeps.recorded o.1 first)
  have later : ∀ q ∈ out.map Prod.fst ++ s.host.asked, q ∈ s.host.outstanding := by
    intro q mem
    rw [all]
    exact mem_cons_of_mem _ mem
  constructor
  · exact apart.2
  · intro q mem
    have other := apart.1 q mem
    rw [held, if_neg (not_or.mpr ⟨Ne.symm other.1, other.2⟩)]
    exact keeps.recorded q (later q mem)
  · intro tag is
    rw [held] at is
    split_ifs at is with gone
    · exact absurd rfl is
    · rw [not_or] at gone
      rcases keeps.owed tag is with ⟨q, mem, tagged⟩ | ⟨p, mem, flushes⟩
      · rw [all, mem_cons] at mem
        rcases mem with rfl | mem
        · exact absurd tagged.symm gone.1
        · exact .inl ⟨q, mem, tagged⟩
      · rw [there, mem_cons] at mem
        rcases mem with rfl | mem
        · exact absurd flushes gone.2
        · exact .inr ⟨p, mem, flushes⟩
  · exact fun q mem => keeps.convs q (later q mem)
  · intro p mem
    exact keeps.carried p (by rw [there]; exact mem_cons_of_mem _ mem)
  · exact keeps.whole
  · intro inuse
    have told := keeps.told inuse
    rw [there, map_cons] at told
    change Cut t.reads t.replies s.cur (s.done ++ [o.2] ++ out.map Prod.snd)
    rw [append_assoc]
    exact told

theorem Keeps.interrupt : Keeps s.interrupt t := by
  generalize is : s.host.out = out
  induction out generalizing s with
  | nil =>
      have same : s.interrupt = s := by
        simp only [Server.interrupt, Host.harvest, is, map_nil, foldl_nil]
        rw [← is]
      rw [same]
      exact keeps
  | cons o rest ih =>
      have same : s.interrupt =
          (({ s with host := { s.host with out := rest } } : Server).push o.2).interrupt := by
        simp only [Server.interrupt, Host.harvest, is, map_cons, foldl_cons, push_host]
      rw [same]
      apply ih (keeps.take is)
      rw [push_host]

theorem Keeps.next : Keeps s.next t := by
  rw [Server.next]
  split
  next r done none_ more =>
    refine ⟨keeps.apart, keeps.recorded, keeps.owed, keeps.convs, keeps.carried, keeps.whole, ?_⟩
    intro inuse
    have told := keeps.told inuse
    rw [none_, more] at told
    exact told.next
  · exact keeps

theorem Keeps.give (inuse : s.inuse = true) {n : Nat} {b : Bytes} (gives : (s.give n).1 = some b) :
    Keeps (s.give n).2 { t with reads := t.reads ++ [b] } := by
  have told := keeps.told inuse
  rw [Server.give] at gives ⊢
  rcases cur : s.cur with _ | ⟨reply, rp⟩
  · rw [cur] at gives
    cases gives
  · rw [cur] at gives told
    dsimp only at gives ⊢
    rw [Option.some.injEq] at gives
    subst gives
    have more := told.more (min n (reply.length - rp))
    refine ⟨keeps.apart, keeps.recorded, keeps.owed, keeps.convs, keeps.carried, more.whole, ?_⟩
    intro _
    dsimp only
    split_ifs with ended
    · exact more.finish ended
    · exact more

theorem Keeps.blank (inuse : s.inuse = true) : Keeps s { t with reads := t.reads ++ [[]] } := by
  have told := (keeps.told inuse).blank
  exact ⟨keeps.apart, keeps.recorded, keeps.owed, keeps.convs, keeps.carried, told.whole,
    fun _ => told⟩

theorem Keeps.give_none {n : Nat} (waits : (s.give n).1 = none) : Keeps (s.give n).2 t := by
  rw [Server.give] at waits ⊢
  rcases cur : s.cur with _ | p
  · exact keeps
  · rw [cur] at waits
    cases waits

theorem Keeps.begin (clear : s.host.outstanding = []) :
    Keeps { s.flush with inuse := true } ⟨t.conv + 1, [], []⟩ where
  __ := keeps
  convs q mem := by
    have mem : q ∈ s.host.outstanding := mem
    rw [clear] at mem
    cases mem
  whole := .nil
  told _ := by
    have none_ : s.host.out = [] := by
      rw [Host.outstanding, append_eq_nil_iff] at clear
      exact map_eq_nil_iff.1 clear.1
    change Cut [] [] none ([] ++ s.host.out.map Prod.snd)
    rw [none_]
    exact ⟨[], [], rfl, rfl, rfl⟩

theorem Keeps.ended : Keeps { s.flush with inuse := false } t :=
  ⟨keeps.apart, keeps.recorded, keeps.owed, keeps.convs, keeps.carried, keeps.whole, nofun⟩

omit keeps in
omit s t h r in
theorem around {α : Type} {l : List α} {k : Nat} {a : α} (there : l[k]? = some a) :
    ∃ before after, l = before ++ a :: after ∧ l.eraseIdx k = before ++ after ∧
      ∀ b, l.set k b = before ++ b :: after := by
  rcases List.getElem?_eq_some_iff.1 there with ⟨below, rfl⟩
  refine ⟨l.take k, l.drop (k + 1), ?_, eraseIdx_eq_take_drop_succ l k, ?_⟩
  · rw [getElem_cons_drop, take_append_drop]
  · intro b
    rw [set_eq_take_append_cons_drop, if_pos below]

theorem Keeps.completes {k : Nat} {q : Req} (asked : s.host.asked[k]? = some q)
    (carries : tagAt r 5 = some q.tag) :
    Keeps { s with host := s.host.completes k r } { t with replies := t.replies ++ [r] } := by
  have now : s.host.completes k r =
      ⟨Host.ends q (s.host.asked.eraseIdx k), s.host.out ++ [(q, r)]⟩ := by
    rw [Host.completes, asked]
  rcases around asked with ⟨before, after, was, erased, _⟩
  rw [now, erased]
  have all : s.host.outstanding = s.host.out.map Prod.fst ++ (before ++ q :: after) := by
    rw [Host.outstanding, was]
  have apart := keeps.apart
  rw [all, pairwise_append] at apart
  rcases apart with ⟨done, inside, across⟩
  have middle := (pairwise_append.1 inside).2
  have others : ∀ p ∈ before ++ after, p ∈ before ++ q :: after ∧ q.tag ≠ p.tag := by
    intro p mem
    rcases mem_append.1 mem with mem | mem
    · exact ⟨mem_append_left _ mem, (middle.2 p mem q mem_cons_self).1.symm⟩
    · exact ⟨mem_append_right _ (mem_cons_of_mem q mem),
        ((pairwise_cons.1 middle.1).1 p mem).1⟩
  have left : ∀ p ∈ Host.ends q (before ++ after),
      p ∈ before ++ after ∧ q.flushes ≠ some p.tag := by
    intro p mem
    rw [Host.ends, mem_filter] at mem
    exact ⟨mem.1, by simpa using mem.2⟩
  have self : q ∈ before ++ q :: after := mem_append_right _ mem_cons_self
  have still : ∀ p, p ∈ s.host.out.map Prod.fst ∨ p = q ∨ p ∈ Host.ends q (before ++ after) →
      p ∈ s.host.outstanding := by
    rintro p (mem | rfl | mem)
    · exact all ▸ mem_append_left _ mem
    · exact all ▸ mem_append_right _ self
    · exact all ▸ mem_append_right _ (others p (left p mem).1).1
  have outstanding : Host.outstanding ⟨Host.ends q (before ++ after), s.host.out ++ [(q, r)]⟩ =
      s.host.out.map Prod.fst ++ q :: Host.ends q (before ++ after) := by
    simp [Host.outstanding]
  have member : ∀ p, p ∈ Host.outstanding ⟨Host.ends q (before ++ after), s.host.out ++ [(q, r)]⟩ ↔
      p ∈ s.host.out.map Prod.fst ∨ p = q ∨ p ∈ Host.ends q (before ++ after) := by
    intro p
    rw [outstanding, mem_append, mem_cons]
  constructor
  · rw [outstanding, pairwise_append, pairwise_cons]
    refine ⟨done, ⟨?_, ?_⟩, ?_⟩
    · intro p mem
      exact ⟨(others p (left p mem).1).2, (left p mem).2⟩
    · have fewer : List.Sublist (before ++ after) (before ++ q :: after) :=
        List.Sublist.append_left (sublist_cons_self q after) before
      exact inside.sublist (filter_sublist.trans fewer)
    · intro o out p mem
      rcases mem_cons.1 mem with rfl | mem
      · exact across o out p self
      · exact across o out p (others p (left p mem).1).1
  · exact fun p mem => keeps.recorded p (still p ((member p).1 mem))
  · intro tag held
    rcases keeps.owed tag held with ⟨p, mem, rfl⟩ | ⟨o, mem, flushes⟩
    · rw [all, mem_append] at mem
      by_cases flushed : q.flushes = some p.tag
      · exact .inr ⟨(q, r), mem_append_right _ (mem_singleton.2 rfl), flushed⟩
      · refine .inl ⟨p, (member p).2 ?_, rfl⟩
        rcases mem with mem | mem
        · exact .inl mem
        · right
          rw [mem_append, mem_cons] at mem
          rw [Host.ends, mem_filter, mem_append]
          by_cases same : p = q
          · exact .inl same
          · refine .inr ⟨by tauto, by simpa using flushed⟩
    · exact .inr ⟨o, mem_append_left _ mem, flushes⟩
  · exact fun p mem => keeps.convs p (still p ((member p).1 mem))
  · intro o mem
    rcases mem_append.1 mem with mem | mem
    · exact keeps.carried o mem
    · rw [mem_singleton] at mem
      rw [mem]
      exact carries
  · exact keeps.whole.reply r
  · intro inuse
    have told := (keeps.told inuse).reply r
    change Cut t.reads _ s.cur (s.done ++ (s.host.out ++ [(q, r)]).map Prod.snd)
    rw [map_append, ← append_assoc]
    exact told

theorem Keeps.free {tag : UInt16}
    (free : ∀ q ∈ s.host.outstanding, q.tag ≠ tag ∧ q.flushes ≠ some tag) :
    s.held.find tag = none := by
  by_contra held
  rcases keeps.owed tag held with ⟨q, mem, is⟩ | ⟨o, mem, is⟩
  · exact (free q mem).1 is
  · exact (free o.1 (mem_append_left _ (mem_map_of_mem mem))).2 is

theorem Keeps.asks {q : Req} (conv : q.conv = t.conv)
    (free : ∀ p ∈ s.host.outstanding, p.tag ≠ q.tag ∧ p.flushes ≠ some q.tag) :
    Keeps { s with
      host := { s.host with asked := s.host.asked ++ [q] }
      held := s.held.insert q.tag q.flushes } t := by
  have all : Host.outstanding { s.host with asked := s.host.asked ++ [q] } =
      s.host.outstanding ++ [q] := by
    rw [Host.outstanding, Host.outstanding, append_assoc]
  have member : ∀ p, p ∈ Host.outstanding { s.host with asked := s.host.asked ++ [q] } ↔
      p ∈ s.host.outstanding ∨ p = q := by
    intro p
    rw [all, mem_append, mem_singleton]
  constructor
  · rw [all, pairwise_append]
    refine ⟨keeps.apart, pairwise_singleton _ q, ?_⟩
    intro p mem p' last
    rw [mem_singleton] at last
    rw [last]
    exact free p mem
  · intro p mem
    rcases (member p).1 mem with old | rfl
    · change (s.held.insert q.tag q.flushes).find p.tag = _
      rw [Keyed.find_insert_of_ne _ (free p old).1]
      exact keeps.recorded p old
    · exact Keyed.find_insert ..
  · intro tag held
    by_cases same : tag = q.tag
    · exact .inl ⟨q, (member q).2 (.inr rfl), same.symm⟩
    · change (s.held.insert q.tag q.flushes).find tag ≠ none at held
      rw [Keyed.find_insert_of_ne _ same] at held
      rcases keeps.owed tag held with ⟨p, mem, is⟩ | flushed
      · exact .inl ⟨p, (member p).2 (.inl mem), is⟩
      · exact .inr flushed
  · intro p mem
    rcases (member p).1 mem with old | rfl
    · exact keeps.convs p old
    · exact conv
  · exact keeps.carried
  · exact keeps.whole
  · exact keeps.told

def answers (t : Talk) : Answer → Talk
  | .now r => { t with replies := t.replies ++ [r] }
  | _ => t

theorem Keeps.write {data : Bytes} {tag : UInt16} {answer : Answer}
    (free : ∀ p ∈ s.host.outstanding, p.tag ≠ tag ∧ p.flushes ≠ some tag)
    (now : ∀ r, answer = .now r → tagAt r 5 = some tag ∧ s.host.out = []) :
    Keeps (s.write data tag fun h => h.submit ⟨t.conv, tag, flushes data⟩ answer).2
      (answers t answer) := by
  have asks := keeps.asks (q := ⟨t.conv, tag, flushes data⟩) rfl free
  cases answer with
  | later => exact asks
  | refused e =>
      have same : (s.held.insert tag (flushes data)).erase tag = s.held := by
        rw [Keyed.erase_insert]
        exact Keyed.erase_of_find (keeps.free free)
      simp only [Server.write, Host.submit, same]
      exact keeps
  | now r =>
      rcases now r rfl with ⟨carries, none_⟩
      have last : (s.host.asked ++ [(⟨t.conv, tag, flushes data⟩ : Req)])[s.host.asked.length]? =
          some ⟨t.conv, tag, flushes data⟩ := List.getElem?_concat_length
      have done := asks.completes last carries
      have out : (Host.completes ⟨s.host.asked ++ [⟨t.conv, tag, flushes data⟩], s.host.out⟩
          s.host.asked.length r) =
          ⟨Host.ends ⟨t.conv, tag, flushes data⟩ s.host.asked,
            [(⟨t.conv, tag, flushes data⟩, r)]⟩ := by
        rw [Host.completes, last, none_]
        simp [eraseIdx_append_of_length_le]
      dsimp only at done
      rw [out] at done
      have taken := done.take rfl
      dsimp only at taken
      rw [← none_] at taken
      exact taken

end server

section device

variable {d : Virtio9p} {c c' : Chan} {s : Sys} {i : Nat} {sv sv' : Server} {t : Talk}

/-- The index of the server that a channel is to, of so many. -/
def slot (n : Nat) (c : Chan) : Option Nat :=
  if c.isDir then none
  else if c.qid.path = qdir then none
  else if c.qid.path.toNat - 1 < n then some (c.qid.path.toNat - 1) else none

def Sys.files (s : Sys) : List Nat := s.chans.filterMap (slot s.dev.servers.length)

/-- Each server and what is told of it, and one channel at most to a server, which is then in
use. -/
structure Inv (s : Sys) : Prop where
  keeps : ∀ i sv, s.dev.servers[i]? = some sv → Keeps sv (s.talks i)
  alone : s.files.Nodup
  opened : ∀ i ∈ s.files, ∃ sv, s.dev.servers[i]? = some sv ∧ sv.inuse = true

theorem find_eq_some {path : UInt64} :
    d.find path = some (i, sv) ↔ d.index path = some i ∧ d.servers[i]? = some sv := by
  rw [find, Option.bind_eq_some_iff]
  constructor
  · rintro ⟨k, at_, found⟩
    rcases Option.map_eq_some_iff.1 found with ⟨sv', there, same⟩
    cases same
    exact ⟨at_, there⟩
  · rintro ⟨at_, there⟩
    exact ⟨i, at_, by rw [there]; rfl⟩

theorem file_eq_some :
    s.file c = some (i, sv) ↔
      slot s.dev.servers.length c = some i ∧ s.dev.servers[i]? = some sv := by
  rw [Sys.file, slot]
  by_cases dir : c.isDir = true
  · rw [if_pos dir, if_pos dir]
    simp
  · rw [if_neg dir, if_neg dir]
    exact find_eq_some

theorem slot_lt {n : Nat} (at_ : slot n c = some i) : i < n := by
  rw [slot] at at_
  split_ifs at at_ with _ _ below
  cases at_
  exact below

theorem slot_qid (n : Nat) (same : c'.qid = c.qid) : slot n c' = slot n c := by
  have dir : c'.isDir = c.isDir := congrArg Name.Qid.isDir same
  rw [slot, slot, dir, same]

theorem slot_opened (n : Nat) (m : UInt16) : slot n (c.opened m) = slot n c :=
  slot_qid n rfl

theorem file_find (file : s.file c = some (i, sv)) :
    c.isDir = false ∧ s.dev.find c.qid.path = some (i, sv) := by
  rw [Sys.file] at file
  split_ifs at file with dir
  exact ⟨by simpa using dir, file⟩

theorem tell_file (file : s.file c = some (i, sv)) (f : Talk → Talk) :
    s.tell c f = Function.update s.talks i (f (s.talks i)) := by
  rw [Sys.tell, file]

theorem tell_none (file : s.file c = none) (f : Talk → Talk) : s.tell c f = s.talks := by
  rw [Sys.tell, file]

theorem put_get (i k : Nat) :
    (d.put i sv).servers[k]? =
      if i = k then (d.servers[k]?).map fun _ => sv else d.servers[k]? := by
  rw [put, List.getElem?_set']
  split_ifs with same
  · cases d.servers[k]? <;> rfl
  · rfl

theorem put_length : (d.put i sv).servers.length = d.servers.length := length_set

theorem Inv.put (inv : Inv s) (found : s.dev.servers[i]? = some sv) (keeps : Keeps sv' t)
    (inuse : i ∈ s.files → sv'.inuse = true) :
    Inv ⟨s.dev.put i sv', s.chans, Function.update s.talks i t⟩ := by
  have files : Sys.files ⟨s.dev.put i sv', s.chans, Function.update s.talks i t⟩ = s.files := by
    rw [Sys.files, Sys.files, put_length]
  constructor
  · intro k sv'' there
    dsimp only at there ⊢
    rw [put_get] at there
    split_ifs at there with same
    · subst same
      rw [found] at there
      cases there
      rw [Function.update_self]
      exact keeps
    · rw [Function.update_of_ne (Ne.symm same)]
      exact inv.keeps k sv'' there
  · rw [files]
    exact inv.alone
  · rw [files]
    intro k mem
    dsimp only
    rw [put_get]
    split_ifs with same
    · subst same
      rw [found]
      exact ⟨sv', rfl, inuse mem⟩
    · exact inv.opened k mem

theorem Inv.change (inv : Inv s) (found : s.dev.servers[i]? = some sv)
    (keeps : Keeps sv' (s.talks i)) (inuse : i ∈ s.files → sv'.inuse = true) :
    Inv { s with dev := s.dev.put i sv' } := by
  have put := inv.put found keeps inuse
  rw [Function.update_eq_self] at put
  exact put

theorem Inv.chans (inv : Inv s) {chans : List Chan}
    (fewer : List.Sublist (chans.filterMap (slot s.dev.servers.length)) s.files) :
    Inv { s with chans := chans } where
  keeps := inv.keeps
  alone := inv.alone.sublist fewer
  opened i mem := inv.opened i (fewer.subset mem)

theorem Inv.set (inv : Inv s) {j : Nat} (held : s.chans[j]? = some c) (same : c'.qid = c.qid) :
    Inv { s with chans := s.chans.set j c' } := by
  apply inv.chans
  rcases around held with ⟨before, after, was, _, now⟩
  rw [now, Sys.files, was, filterMap_append, filterMap_append, filterMap_cons,
    filterMap_cons, slot_qid _ same]

theorem interrupt_get (k : Nat) :
    d.interrupt.servers[k]? = (d.servers[k]?).map Server.interrupt := List.getElem?_map ..

theorem interrupt_inuse (sv : Server) : sv.interrupt.inuse = sv.inuse := by
  rw [Server.interrupt]
  generalize sv.host.harvest.1 = rs
  generalize sv.host.harvest.2 = h
  induction rs generalizing sv h with
  | nil => rfl
  | cons r rs ih =>
      rw [foldl_cons, push_host]
      rw [ih, push_eq]

theorem Inv.interrupt (inv : Inv s) : Inv { s with dev := s.dev.interrupt } := by
  have files : Sys.files { s with dev := s.dev.interrupt } = s.files := by
    rw [Sys.files, Sys.files, Virtio9p.interrupt, length_map]
  constructor
  · intro k sv there
    dsimp only at there ⊢
    rw [interrupt_get, Option.map_eq_some_iff] at there
    rcases there with ⟨sv', was, rfl⟩
    exact (inv.keeps k sv' was).interrupt
  · rw [files]
    exact inv.alone
  · rw [files]
    intro k mem
    rcases inv.opened k mem with ⟨sv, there, inuse⟩
    refine ⟨sv.interrupt, ?_, ?_⟩
    · dsimp only
      rw [interrupt_get, there]
      rfl
    · rw [interrupt_inuse]
      exact inuse

theorem v9open_cases (s : Sys) (c : Chan) (mode : UInt16) :
    (∃ e, s.dev.v9open c mode = (.error e, s.dev)) ∨
      (∃ m, s.file c = none ∧ s.dev.v9open c mode = (.ok (c.opened m), s.dev)) ∨
      ∃ m i sv, s.file c = some (i, sv) ∧ sv.inuse = false ∧
        s.dev.v9open c mode = (.ok (c.opened m), s.dev.put i { sv.flush with inuse := true }) := by
  rw [v9open, Sys.file]
  by_cases dir : c.isDir = true
  · rw [if_pos dir, if_pos dir]
    split_ifs
    · exact .inl ⟨_, rfl⟩
    · cases openmode mode with
      | error e => exact .inl ⟨e, rfl⟩
      | ok m => exact .inr (.inl ⟨m, rfl, rfl⟩)
  · rw [if_neg dir, if_neg dir]
    cases openmode mode with
    | error e => exact .inl ⟨e, rfl⟩
    | ok m =>
        cases found : s.dev.find c.qid.path with
        | none => exact .inl ⟨_, rfl⟩
        | some at_ =>
            dsimp only
            split_ifs with inuse
            · exact .inl ⟨_, rfl⟩
            · rw [Bool.not_eq_true] at inuse
              exact .inr (.inr ⟨m, at_.1, at_.2, rfl, inuse, rfl⟩)

theorem v9read_none (file : s.file c = none) (n : Nat) :
    ∃ r c', c'.qid = c.qid ∧ s.dev.v9read c n = (r, c', s.dev) := by
  rw [Sys.file] at file
  rw [v9read]
  split_ifs at file with dir
  · rw [if_pos dir]
    refine ⟨_, _, ?_, rfl⟩
    rfl
  · rw [if_neg dir, file]
    split_ifs
    · exact ⟨_, c, rfl, rfl⟩
    · exact ⟨_, c, rfl, rfl⟩

theorem v9write_none (file : s.file c = none) (data : Bytes)
    (submit : Nat → Host → Except String (Option Bytes) × Host) :
    ∃ e, s.dev.v9write c data submit = (.error e, s.dev) := by
  rw [Sys.file] at file
  rw [v9write]
  split_ifs at file with dir
  · rw [if_pos dir]
    exact ⟨_, rfl⟩
  · rw [if_neg dir, file]
    cases tagAt data 5 with
    | none => exact ⟨_, rfl⟩
    | some tag => exact ⟨_, rfl⟩

theorem v9read_file (file : s.file c = some (i, sv)) {n : Nat} (some_ : n ≠ 0) :
    s.dev.v9read c n =
      if sv.cur.isNone && sv.done.isEmpty then
        (.ok (sv.interrupt.next.give n).1, c, s.dev.interrupt.put i (sv.interrupt.next.give n).2)
      else (.ok (sv.next.give n).1, c, s.dev.put i (sv.next.give n).2) := by
  rcases file_find file with ⟨dir, found⟩
  rw [v9read, dir, if_neg Bool.false_ne_true, if_neg some_, found]
  dsimp only
  split_ifs <;> rfl

section Inv

variable (inv : Inv s)

include inv

theorem Inv.opens {name : String} {mode : UInt16}
    (careful : Careful s (.v9open name mode)) : Inv (s.act (.v9open name mode)) := by
  rw [Sys.act]
  split
  next c walked =>
    rcases v9open_cases s c mode with ⟨e, is⟩ | ⟨m, file, is⟩ | ⟨m, i, sv, file, free, is⟩
    · rw [is]
      exact inv
    · rw [is, tell_none file]
      apply inv.chans
      have none_ : slot s.dev.servers.length (c.opened m) = none := by
        rw [slot_opened]
        by_contra some_
        rcases Option.ne_none_iff_exists'.1 some_ with ⟨i, at_⟩
        rcases List.getElem?_eq_some_iff.2 ⟨slot_lt at_, rfl⟩ with there
        rw [file_eq_some.2 ⟨at_, there⟩] at file
        cases file
      rw [filterMap_append, filterMap_cons, none_, filterMap_nil, append_nil]
      exact List.Sublist.refl _
    · have at_ := file_eq_some.1 file
      have unused : i ∉ s.files := by
        intro mem
        rcases inv.opened i mem with ⟨sv', there, inuse⟩
        rw [at_.2] at there
        cases there
        rw [free] at inuse
        cases inuse
      have begun := inv.put at_.2
        ((inv.keeps i sv at_.2).begin (careful c i sv walked file free)) (fun _ => rfl)
      rw [is, tell_file file]
      dsimp only
      have files : Sys.files ⟨s.dev.put i { sv.flush with inuse := true }, s.chans ++ [c.opened m],
          Function.update s.talks i ⟨(s.talks i).conv + 1, [], []⟩⟩ = s.files ++ [i] := by
        rw [Sys.files, Sys.files, put_length, filterMap_append, filterMap_cons,
          slot_opened, at_.1, filterMap_nil]
      constructor
      · exact begun.keeps
      · rw [files, ← concat_eq_append, nodup_concat]
        exact ⟨unused, inv.alone⟩
      · rw [files]
        intro k mem
        rcases mem_append.1 mem with old | new_
        · apply begun.opened k
          rw [Sys.files, put_length]
          exact old
        · rw [mem_singleton] at new_
          subst new_
          refine ⟨{ sv.flush with inuse := true }, ?_, rfl⟩
          rw [put_get, if_pos rfl, at_.2]
          rfl
  · exact inv

theorem Inv.inuse {j : Nat} (held : s.chans[j]? = some c)
    (file : s.file c = some (i, sv)) : i ∈ s.files ∧ sv.inuse = true := by
  have at_ := file_eq_some.1 file
  have mem : i ∈ s.files :=
    mem_filterMap.2 ⟨c, mem_of_getElem? held, at_.1⟩
  refine ⟨mem, ?_⟩
  rcases inv.opened i mem with ⟨sv', there, inuse⟩
  rw [at_.2] at there
  cases there
  exact inuse

theorem Inv.gives {j n : Nat} (held : s.chans[j]? = some c) (file : s.file c = some (i, sv)) :
    Inv ⟨s.dev.put i (sv.next.give n).2, s.chans,
      match (sv.next.give n).1 with
      | some b => Function.update s.talks i { s.talks i with reads := (s.talks i).reads ++ [b] }
      | none => s.talks⟩ := by
  have at_ := file_eq_some.1 file
  have inuse := inv.inuse held file
  have next_inuse : sv.next.inuse = true := by
    rw [Server.next]
    split
    · exact inuse.2
    · exact inuse.2
  have give_inuse : (sv.next.give n).2.inuse = true := by
    rw [Server.give]
    split
    · exact next_inuse
    · exact next_inuse
  have keeps := (inv.keeps i sv at_.2).next
  cases gives : (sv.next.give n).1 with
  | none => exact inv.change at_.2 (keeps.give_none gives) (fun _ => give_inuse)
  | some b => exact inv.put at_.2 (keeps.give next_inuse gives) (fun _ => give_inuse)

theorem Inv.reads (j n : Nat) : Inv (s.act (.v9read j n)) := by
  rw [Sys.act]
  cases held : s.chans[j]? with
  | none => exact inv
  | some c =>
      dsimp only
      cases file : s.file c with
      | none =>
          rcases v9read_none file n with ⟨r, c', same, is⟩
          have set_ := inv.set held same
          rw [is]
          rcases r with e | b
          · exact set_
          · cases b with
            | none => exact set_
            | some b =>
                dsimp only
                rw [tell_none file]
                exact set_
      | some at_ =>
          rcases at_ with ⟨i, sv⟩
          have there := file_eq_some.1 file
          have set_ : s.chans.set j c = s.chans := by
            rcases List.getElem?_eq_some_iff.1 held with ⟨below, rfl⟩
            exact set_getElem_self below
          by_cases zero : n = 0
          · subst zero
            rcases file_find file with ⟨dir, found⟩
            have inuse := (inv.inuse held file).2
            have blank := inv.put there.2 ((inv.keeps i sv there.2).blank inuse) fun _ => inuse
            have same : s.dev.put i sv = s.dev := by
              rcases List.getElem?_eq_some_iff.1 there.2 with ⟨below, is⟩
              rw [Virtio9p.put, ← is, set_getElem_self]
            rw [same] at blank
            rw [v9read, dir, if_neg Bool.false_ne_true, if_pos rfl]
            dsimp only
            rw [tell_file file, set_]
            exact blank
          · rw [v9read_file file zero]
            split_ifs with missed
            · have file' :
                  Sys.file { s with dev := s.dev.interrupt } c = some (i, sv.interrupt) := by
                rw [file_eq_some]
                dsimp only
                rw [Virtio9p.interrupt, length_map, List.getElem?_map, there.2]
                exact ⟨there.1, rfl⟩
              have gives := inv.interrupt.gives (n := n) held file'
              dsimp only at gives ⊢
              cases given : (sv.interrupt.next.give n).1 with
              | none =>
                  rw [given] at gives
                  dsimp only
                  rw [set_]
                  exact gives
              | some b =>
                  rw [given] at gives
                  dsimp only
                  rw [set_, tell_file file]
                  exact gives
            · have gives := inv.gives (n := n) held file
              cases given : (sv.next.give n).1 with
              | none =>
                  rw [given] at gives
                  dsimp only
                  rw [set_]
                  exact gives
              | some b =>
                  rw [given] at gives
                  dsimp only
                  rw [set_, tell_file file]
                  exact gives

omit inv in
theorem write_inuse (sv : Server) (data : Bytes) (tag : UInt16)
    (submit : Host → Except String (Option Bytes) × Host) :
    (sv.write data tag submit).2.inuse = sv.inuse := by
  rw [Server.write]
  dsimp only
  split
  · rw [push_eq]
  · rfl
  · rfl

theorem Inv.writes {j : Nat} {data : Bytes} {answer : Answer}
    (valid : s.Valid (.v9write j data answer)) (careful : Careful s (.v9write j data answer)) :
    Inv (s.act (.v9write j data answer)) := by
  rw [Sys.act]
  cases held : s.chans[j]? with
  | none => exact inv
  | some c =>
      dsimp only
      cases file : s.file c with
      | none =>
          rcases v9write_none file data (fun i h => h.submit (s.req i data) answer) with ⟨e, is⟩
          rw [is]
          cases answer <;> exact inv
      | some at_ =>
          rcases at_ with ⟨i, sv⟩
          have there := file_eq_some.1 file
          rcases file_find file with ⟨dir, found⟩
          rw [v9write, dir, if_neg Bool.false_ne_true]
          cases tagged : tagAt data 5 with
          | none => cases answer <;> exact inv
          | some tag =>
              rw [found]
              rcases careful c i sv tag held file tagged with ⟨free, clear⟩
              have req : s.req i data = ⟨(s.talks i).conv, tag, flushes data⟩ := by
                rw [Sys.req, tagged]
                rfl
              have now : ∀ r, answer = .now r → tagAt r 5 = some tag ∧ sv.host.out = [] := by
                rintro r rfl
                exact ⟨Eq.trans valid tagged, clear r rfl⟩
              have keeps : Keeps (sv.write data tag fun h =>
                  h.submit ⟨(s.talks i).conv, tag, flushes data⟩ answer).2
                  (answers (s.talks i) answer) :=
                (inv.keeps i sv there.2).write free now
              have inuse : ∀ submit, i ∈ s.files → (sv.write data tag submit).2.inuse = true := by
                intro submit mem
                rw [write_inuse]
                exact (inv.inuse held file).2
              dsimp only
              rw [req]
              cases answer with
              | later => exact inv.change there.2 keeps (inuse _)
              | refused e => exact inv.change there.2 keeps (inuse _)
              | now r =>
                  have put := inv.put there.2 keeps (inuse _)
                  change Inv ⟨_, s.chans, s.tell c _⟩
                  rw [tell_file file]
                  exact put

theorem Inv.closes (j : Nat) : Inv (s.act (.v9close j)) := by
  rw [Sys.act]
  cases held : s.chans[j]? with
  | none => exact inv
  | some c =>
      dsimp only
      rcases around held with ⟨before, after, was, erased, _⟩
      have fewer :
          List.Sublist ((s.chans.eraseIdx j).filterMap (slot s.dev.servers.length)) s.files :=
        (eraseIdx_sublist ..).filterMap _
      have less := inv.chans fewer
      rw [v9close]
      split_ifs with closed
      · exact less
      · cases found : s.dev.find c.qid.path with
        | none => exact less
        | some at_ =>
            rcases at_ with ⟨i, sv⟩
            have file : s.file c = some (i, sv) := by
              rw [Sys.file, if_neg (not_or.1 closed).1]
              exact found
            have there := file_eq_some.1 file
            have gone : i ∉ Sys.files { s with chans := s.chans.eraseIdx j } := by
              have alone := inv.alone
              rw [Sys.files, was, filterMap_append, filterMap_cons, there.1,
                nodup_middle, nodup_cons, ← filterMap_append] at alone
              rw [Sys.files]
              dsimp only
              rw [erased]
              exact alone.1
            exact less.change there.2 (inv.keeps i sv there.2).ended fun mem => absurd mem gone

theorem Inv.completed {k : Nat} {r : Bytes} (valid : s.Valid (.completes i k r)) :
    Inv (s.act (.completes i k r)) := by
  rw [Sys.act]
  cases there : s.dev.servers[i]? with
  | none => exact inv
  | some sv =>
      dsimp only
      cases asked : sv.host.asked[k]? with
      | none => exact inv
      | some q =>
          have keeps := inv.keeps i sv there
          have mine : q.conv = (s.talks i).conv :=
            keeps.convs q (mem_append_right _ (mem_of_getElem? asked))
          dsimp only
          rw [if_pos mine]
          refine inv.put there (keeps.completes asked (valid sv q there asked)) ?_
          intro mem
          rcases inv.opened i mem with ⟨sv', here, inuse⟩
          rw [there] at here
          cases here
          exact inuse

theorem Inv.act {op : Op} (valid : s.Valid op) (careful : Careful s op) : Inv (s.act op) := by
  cases op with
  | v9open name mode => exact inv.opens careful
  | v9read j n => exact inv.reads j n
  | v9write j data answer => exact inv.writes valid careful
  | v9close j => exact inv.closes j
  | completes i k r => exact inv.completed valid
  | interrupt => exact inv.interrupt

theorem Inv.talks : Talks s where
  whole i below := (inv.keeps i _ (List.getElem?_eq_getElem below)).whole
  waits waiting := by
    rw [Virtio9p.waiting, any_eq_true] at waiting
    rcases waiting with ⟨sv, mem, is⟩
    rw [Bool.and_eq_true, Bool.not_eq_true', isEmpty_eq_false_iff] at is
    rcases mem_iff_getElem?.1 mem with ⟨i, there⟩
    have keeps := inv.keeps i sv there
    refine ⟨i, sv, there, is.1, ?_⟩
    rcases exists_mem_of_ne_nil _ is.2 with ⟨⟨tag, fl⟩, entry⟩
    have held : sv.held.find tag ≠ none := by
      rw [Keyed.find_of_mem entry]
      nofun
    rcases keeps.owed tag held with ⟨q, out, _⟩ | ⟨o, out, _⟩
    · exact ⟨q, out, keeps.convs q out⟩
    · have mem : o.1 ∈ sv.host.outstanding :=
        mem_append_left _ (mem_map_of_mem out)
      exact ⟨o.1, mem, keeps.convs o.1 mem⟩

end Inv

theorem Inv.new (n : Nat) (eve : String) : Inv ⟨new n eve, [], fun _ => ⟨0, [], []⟩⟩ where
  keeps i sv there := by
    have is : sv = .new := by
      have mem := mem_of_getElem? there
      exact (mem_replicate.1 mem).2
    subst is
    exact ⟨List.Pairwise.nil, nofun, fun tag held => absurd rfl held, nofun, nofun, .nil, nofun⟩
  alone := nodup_nil
  opened := nofun

/-- In a run whose conversations begin with nothing outstanding, replies are read whole, as they
were completed, and in the conversation they are of. -/
theorem talks_kept (reached : talking.Reach Careful s) : Talks s := by
  apply Inv.talks
  refine reached.invariant Inv ?_ ?_
  · rintro _ ⟨n, eve, rfl⟩
    exact Inv.new n eve
  · rintro s op _ inv careful ⟨valid, rfl⟩
    exact inv.act valid careful

end device

def start : Sys := ⟨new 1 "eve", [], fun _ => ⟨0, [], []⟩⟩

def tread : Bytes := [7, 0, 0, 0, 116, 1, 0]

def rread : Bytes := [7, 0, 0, 0, 117, 1, 0]

theorem goes {ok : Sys → Op → Prop} {s : Sys} (reached : talking.Reach ok s) (op : Op)
    (allowed : ok s op) (valid : s.Valid op) : talking.Reach ok (s.act op) :=
  reached.step allowed ⟨valid, rfl⟩

def asked : Sys := (start.act (.v9open "0" ordwr)).act (.v9write 0 tread .later)

theorem valid_rread : asked.Valid (.completes 0 0 rread) := by
  intro sv q there was
  have tagged : tagAt rread 5 =
      ((asked.dev.servers[0]?).bind fun sv => sv.host.asked[0]?).map Req.tag := by
    decide
  rw [there, Option.bind_some, was] at tagged
  exact tagged

/-- It is answered, and its reply read in two pieces. -/
def heard : Sys :=
  (((asked.act (.completes 0 0 rread)).act .interrupt).act (.v9read 0 4)).act (.v9read 0 100)

theorem talks_kept_heard : talking.Reach Careful heard ∧
    (heard.talks 0).reads = [rread.take 4, rread.drop 4] ∧ Talks heard := by
  have opened : talking.Reach Careful (start.act (.v9open "0" ordwr)) := by
    refine goes (.init ⟨1, "eve", rfl⟩) (.v9open "0" ordwr) ?_ trivial
    intro c i sv _ file _
    have there := mem_of_getElem? (file_eq_some.1 file).2
    rw [(mem_replicate.1 there).2]
    rfl
  have first : talking.Reach Careful asked := by
    refine goes opened (.v9write 0 tread .later) ?_ trivial
    intro c i sv tag there file _
    have quiet : (((start.act (.v9open "0" ordwr)).chans[0]?).bind
        (start.act (.v9open "0" ordwr)).file).map (fun f => f.2.host.outstanding) = some [] := by
      decide
    rw [there, Option.bind_some, file, Option.map_some, Option.some.injEq] at quiet
    refine ⟨?_, fun r now => by cases now⟩
    rw [quiet]
    simp
  have done := goes first (.completes 0 0 rread) trivial valid_rread
  have taken := goes done .interrupt trivial trivial
  have read := goes taken (.v9read 0 4) trivial trivial
  have reached : talking.Reach Careful heard := goes read (.v9read 0 100) trivial trivial
  exact ⟨reached, by decide, talks_kept reached⟩

/-- It is answered once the conversation is over, and its reply read in another. -/
def late : Sys :=
  ((((asked.act (.completes 0 0 rread)).act (.v9close 0)).act (.v9open "0" ordwr)).act
    .interrupt).act (.v9read 0 100)

theorem talks_fails : talking.Reachable late ∧ ¬Talks late := by
  constructor
  · have first : talking.Reachable asked := by
      refine goes ?_ (.v9write 0 tread .later) trivial trivial
      exact goes (.init ⟨1, "eve", rfl⟩) (.v9open "0" ordwr) trivial trivial
    have done := goes first (.completes 0 0 rread) trivial valid_rread
    have closed := goes done (.v9close 0) trivial trivial
    have opened := goes closed (.v9open "0" ordwr) trivial trivial
    have taken := goes opened .interrupt trivial trivial
    exact goes taken (.v9read 0 100) trivial trivial
  · intro talks
    have read : (late.talks 0).reads = [rread] := by decide
    have none_ : (late.talks 0).replies = [] := by decide
    have one : late.dev.servers.length = 1 := by decide
    have whole := talks.whole 0 (by rw [one]; exact Nat.one_pos)
    rw [read, none_] at whole
    rcases whole with ⟨pieces, part, rest, is, was, first⟩
    rcases append_eq_nil_iff.1 was.symm with ⟨pieces_, rest_⟩
    rw [rest_, headD_nil, prefix_nil] at first
    rw [map_eq_nil_iff.1 pieces_] at is
    have part_ : part = [rread] := is.symm
    rw [part_] at first
    cases first

end Virtio9p

end Ipnx.Dev
