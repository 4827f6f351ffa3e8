import Ipnx.Host.Ledger

/-!
# The host's commands are kept apart

A run of the server, with how often each conversation's number has been given out. A fid goes with
the conversation its attach named.
-/

namespace Ipnx.Host.Oscmd

open Function (update)
open Ipnx.Ninep (Msg W T)

/-- The server, what has been given of its commands' files, how often each number has been given
out, and which of those each fid's attach named. -/
structure History extends Ledger where
  serial : UInt32 → Nat
  named : UInt32 → Nat

namespace History

variable (h : History)

/-- A fid is of the conversation its attach named, or of the one that the fid it was walked from
is. -/
def naming (req : Request) (answer : Option Answer) : UInt32 → Nat :=
  match req, answer with
  | .attach fid _ (some n), some (.attach _) => update h.named fid (h.serial n)
  | .walk src newfid nw _, some (.walk qids) =>
      if qids.length = nw then update h.named newfid (h.named src) else h.named
  | _, _ => h.named

def act (a : Action) : History where
  toLedger := h.toLedger.act a
  serial :=
    match a with
    | .start n _ _ => update h.serial n (h.serial n + 1)
    | _ => h.serial
  named :=
    match a with
    | .submit m refused => h.naming (.of m) (h.state.submit m.tag refused (.of m)).1
    | _ => h.named

/-- Every byte and record given of a conversation's files is its command's, in order, and what its
threads have brought and is not given is left; the command is the one the conversation is for; a
fid is of the conversation its attach named; and no flushed read's answer goes with its bytes. -/
structure Isolated : Prop where
  bytes : ∀ n c, h.state.convs n = some c → ∀ i, h.gave n i ++ (c.out i).left = h.brought n i
  recs : ∀ n c, h.state.convs n = some c → h.told n ++ c.status = h.ended n
  given : ∀ n i, h.gave n i <+: h.brought n i
  told : ∀ n, h.told n <+: h.ended n
  runs : ∀ n id, h.runs n = some id → h.asked n = some (h.state.threads id).cmd
  named : ∀ fid f, h.state.fids.find fid = some f → h.named fid = h.serial f.conv
  unflushed : ∀ tag, h.state.Told tag → h.flushed tag = false

/-- No start takes a number that a fid still names, no read comes back for a number that is another
command's by then, and no read is flushed whose answer has been made. -/
def Clear : Action → Prop
  | .start n _ _ => ∀ fid f, h.state.fids.find fid = some f → f.conv ≠ n
  | .fetched id _ _ =>
      h.state.convs (h.state.threads id).conv ≠ none → h.runs (h.state.threads id).conv = some id
  | .submit m _ => ∀ old, Request.of m = .flush (some old) → ¬ h.state.Told old
  | _ => True

end History

def server : System History Action where
  init h := ∃ threads, h = ⟨.new threads, fun _ => 0, fun _ => 0⟩
  step h a h' := h.state.Can a ∧ h' = h.act a

namespace History

variable {h : History}

/-- A fid is of the conversation its attach named. -/
def Named (h : History) : Prop :=
  ∀ fid f, h.state.fids.find fid = some f → h.named fid = h.serial f.conv

theorem Named.insert {fids : Keyed UInt32 Fid} {newfid : UInt32} {g : Fid} {serial : Nat}
    (named : h.Named) (same : fids = (h.state.fids.erase newfid).insert newfid g)
    (eq : serial = h.serial g.conv) (fid : UInt32) (f : Fid) (found : fids.find fid = some f) :
    update h.named newfid serial fid = h.serial f.conv := by
  subst same
  by_cases new : fid = newfid
  · subst fid
    rw [Keyed.find_insert] at found
    cases found
    rw [Function.update_self]
    exact eq
  · rw [Keyed.find_insert_of_ne _ new, Keyed.find_erase_of_ne _ new] at found
    rw [Function.update_of_ne new]
    exact named fid f found

theorem Named.erase {fids : Keyed UInt32 Fid} {fid : Option UInt32} (named : h.Named)
    (same : fids = fid.elim h.state.fids h.state.fids.erase) (other : UInt32) (f : Fid)
    (found : fids.find other = some f) : h.named other = h.serial f.conv := by
  subst same
  cases fid with
  | none => exact named other f found
  | some fid =>
      by_cases gone : other = fid
      · subst other
        rw [Option.elim_some, Keyed.find_erase] at found
        cases found
      · rw [Option.elim_some, Keyed.find_erase_of_ne _ gone] at found
        exact named other f found

theorem Named.submit (named : h.Named) (tag : UInt16) (refused : Option String) (req : Request)
    (fid : UInt32) (f : Fid)
    (found : (h.state.submit tag refused req).2.2.fids.find fid = some f) :
    h.naming req (h.state.submit tag refused req).1 fid = h.serial f.conv := by
  cases req with
  | attach newfid uname n =>
      simp only [State.submit] at found ⊢
      rcases State.tattach_cases (s := h.state) newfid uname n refused with
        ⟨_, e, answer⟩ | ⟨num, c, rfl, _, ⟨cmd, e, _, _, answer⟩ | ⟨_, answer⟩ |
          ⟨cmd, _, _, answer⟩⟩
      · rw [answer] at found ⊢
        simp only [naming]
        exact named fid f found
      · rw [answer] at found ⊢
        exact named fid f found
      · rw [answer] at found ⊢
        exact named.insert rfl rfl fid f found
      · rw [answer] at found ⊢
        exact named.insert rfl rfl fid f found
  | walk src newfid nw names =>
      simp only [State.submit, State.twalk] at found ⊢
      cases source : h.state.fids.find src with
      | none =>
          rw [source] at found
          exact named fid f found
      | some g =>
          rw [source] at found
          dsimp only at found ⊢
          cases walked : State.walkNames g.conv nw names g.q [] with
          | none =>
              rw [walked] at found
              exact named fid f found
          | some r =>
              rw [walked] at found
              dsimp only at found ⊢
              split at found <;> rename_i short
              · rw [if_pos short]
                exact named fid f found
              · rw [if_neg short]
                simp only [naming]
                split at found <;> rename_i whole
                · rw [if_pos whole]
                  have eq : h.named src = h.serial g.conv := named src g source
                  exact named.insert (g := ⟨g.conv, r.1, none⟩) rfl eq fid f found
                · rw [if_neg whole]
                  exact named fid f found
  | «open» opened mode =>
      simp only [State.submit, State.topen] at found ⊢
      change h.named fid = _
      cases source : h.state.fids.find opened with
      | none =>
          rw [source] at found
          exact named fid f found
      | some g =>
          rw [source] at found
          dsimp only at found
          split at found
          · exact named fid f found
          · split at found
            · exact named fid f found
            · have kept := named.insert (g := { g with mode := some (mode &&& 3) }) rfl
                (named opened g source) fid f found
              rwa [Function.update_eq_self] at kept
  | remove gone => exact named.erase (h.state.forget_fids gone) fid f found
  | clunk gone => exact named.erase (h.state.forget_fids gone) fid f found
  | read src off count =>
      simp only [State.submit, State.tread_fids] at found
      exact named fid f found
  | write src data =>
      simp only [State.submit, State.twrite_fids] at found
      exact named fid f found
  | flush old =>
      cases old <;> exact named fid f found
  | _ => exact named fid f found

theorem Named.act {a : Action} (named : h.Named) (clear : h.Clear a) : (h.act a).Named := by
  intro fid f found
  cases a with
  | start n cmd bg =>
      refine (named fid f found).trans ?_
      exact (Function.update_of_ne (clear fid f found) ..).symm
  | submit m refused => exact named.submit m.tag refused (.of m) fid f found
  | release n =>
      simp only [History.act, Ledger.act, Ledger.hear, State.act, State.letgo_fids] at found
      exact named fid f found
  | fetched id i r =>
      simp only [History.act, Ledger.act, Ledger.hear, State.act, State.fetched_fids] at found
      exact named fid f found
  | wrote id r =>
      simp only [History.act, Ledger.act, Ledger.hear, State.act] at found
      split at found
      · exact named fid f found
      · rw [State.wrote_fids] at found
        exact named fid f found
  | exited id record =>
      simp only [History.act, Ledger.act, Ledger.hear, State.act, State.exited_fids] at found
      exact named fid f found
  | harvest => exact named fid f found

/-- In a run that is clear, the commands are kept apart. -/
theorem isolated (reached : server.Reach Clear h) : h.Isolated := by
  have invariant : h.Kept ∧ h.Named := by
    refine reached.invariant (fun h => h.Kept ∧ h.Named) ?_ ?_
    · rintro _ ⟨threads, rfl⟩
      refine ⟨⟨nofun, fun _ _ => List.nil_prefix, fun _ => List.nil_prefix, nofun, nofun, nofun⟩,
        ?_⟩
      intro fid f found
      cases found
    · rintro h a _ ⟨kept, named⟩ clear ⟨can, rfl⟩
      refine ⟨kept.act can ?_ ?_, named.act clear⟩
      · rintro id i r rfl
        exact clear
      · rintro m refused rfl
        exact clear
  rcases invariant with ⟨kept, named⟩
  refine ⟨fun n c live => (kept.fits n c live).bytes, fun n c live => (kept.fits n c live).recs,
    kept.given, kept.told, fun n id started => (kept.runs n id started).2.2, named, ?_⟩
  intro tag told
  cases marked : h.flushed tag with
  | false => rfl
  | true => exact absurd told (kept.flushed tag marked).2

/-- What happens, one thing after another, each of them as it can and as a rule has it. -/
def Allows (ok : History → Action → Prop) : History → List Action → Prop
  | _, [] => True
  | h, a :: as => ok h a ∧ h.state.Can a ∧ Allows ok (h.act a) as

def run (h : History) (as : List Action) : History := as.foldl act h

theorem reach_run {ok : History → Action → Prop} {as : List Action} (reached : server.Reach ok h)
    (allowed : Allows ok h as) : server.Reach ok (h.run as) := by
  induction as generalizing h with
  | nil => exact reached
  | cons a as ih =>
      rcases allowed with ⟨first, can, rest⟩
      exact ih (reached.step first ⟨can, rfl⟩) rest

def fresh : History := ⟨.new fun _ => .new ⟨[], [], none, false⟩ 0, fun _ => 0, fun _ => 0⟩

def tattach (fid : UInt32) (aname : String) : Action :=
  .submit ⟨T.attach.code, 1, ((((W.new.u32 fid).u32 0xffffffff).s "").s aname).body⟩ none

def twalk (fid newfid : UInt32) (name : String) : Action :=
  .submit ⟨T.walk.code, 1, ((((W.new.u32 fid).u32 newfid).u16 1).s name).body⟩ none

def topen (fid : UInt32) (mode : UInt8) : Action :=
  .submit ⟨T.open.code, 1, ((W.new.u32 fid).u8 mode).body⟩ none

def tread (tag : UInt16) (fid count : UInt32) : Action :=
  .submit ⟨T.read.code, tag, (((W.new.u32 fid).u64 0).u32 count).body⟩ none

def tclunk (fid : UInt32) : Action := .submit ⟨T.clunk.code, 1, (W.new.u32 fid).body⟩ none

def output : List Action :=
  [.start 0 ⟨[], [], none, false⟩ false, tattach 1 "0", twalk 1 2 "data", topen 2 oread,
    tread 5 2 8, .fetched 0 .out (.ok [120])]

/-- Its reader has what the command has written. -/
theorem isolated_output : (fresh.run output).gave 0 .out = (fresh.run output).brought 0 .out ∧
    (fresh.run output).brought 0 .out = [120] := by
  have other (a : History) {m : Msg} (ty : m.ty ≠ T.flush.code) : a.Clear (.submit m none) :=
    fun old eq => absurd (Request.ty_of_flush eq) ty
  have reached : server.Reach Clear (fresh.run output) := by
    refine reach_run (.init ⟨_, rfl⟩) ⟨nofun, ⟨rfl, nofun⟩, other _ ?_, trivial,
        other _ ?_, trivial,
      other _ ?_, trivial, other _ ?_, trivial, fun _ => ?_, ⟨?_, 8, [], ?_, ?_⟩, trivial⟩
    · decide
    · decide
    · decide
    · decide
    · decide
    · decide
    · decide
    · rintro _ ⟨⟩
      decide
  have live : ∃ c, (fresh.run output).state.convs 0 = some c ∧ (c.out .out).left = [] := by
    have live : ((fresh.run output).state.convs 0).map (fun c => (c.out .out).left) = some [] := by
      decide
    exact Option.map_eq_some_iff.mp live
  rcases live with ⟨c, live, left⟩
  have bytes := (isolated reached).bytes 0 c live .out
  rw [left, List.append_nil] at bytes
  refine ⟨bytes, ?_⟩
  decide

/-- A command whose output is asked for and let go of, and one that has its number after. -/
def reused : List Action :=
  [.start 0 ⟨[], [], none, false⟩ true, tattach 1 "0", twalk 1 2 "data", topen 2 oread, .release 0,
    tread 5 2 8, tclunk 1, tclunk 2, .exited 0 [], .start 0 ⟨[], [], none, false⟩ false,
    tattach 1 "0", twalk 1 2 "data", topen 2 oread, tread 6 2 8, .fetched 0 .out (.ok [120])]

/-- A read of the later command's output has what the earlier wrote. -/
theorem reused_read : server.Reachable (fresh.run reused) ∧ (fresh.run reused).runs 0 = some 1 ∧
    (fresh.run reused).gave 0 .out = [120] ∧ ¬ (fresh.run reused).Isolated := by
  refine ⟨reach_run (.init ⟨_, rfl⟩) ?_, ?_, ?_, ?_⟩
  · refine ⟨trivial, ⟨rfl, nofun⟩, trivial, trivial, trivial, trivial, trivial, trivial, trivial,
      trivial, trivial, trivial, trivial, trivial, trivial, trivial, trivial, ?_, trivial, ?_,
      trivial, trivial, trivial, trivial, trivial, trivial, trivial, trivial, trivial, ?_, trivial⟩
    · exact ⟨by decide, by decide +kernel⟩
    · exact ⟨Option.isNone_iff_eq_none.mp (by decide), nofun⟩
    · refine ⟨by decide, 8, [], by decide +kernel, ?_⟩
      rintro _ ⟨⟩
      decide
  · decide
  · decide
  · intro isolated
    have given := isolated.given 0 .out
    rw [show (fresh.run reused).gave 0 .out = [120] by decide,
      show (fresh.run reused).brought 0 .out = [] by decide] at given
    cases List.prefix_nil.mp given

end History

end Ipnx.Host.Oscmd
