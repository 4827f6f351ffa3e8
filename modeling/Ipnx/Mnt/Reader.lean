import Ipnx.Mnt.Touch
import Mathlib.Data.List.Nodup

/-!
# The wire's reader

At most one process reads a wire, and where nobody reads it but somebody waits for a reply,
one of those who wait runs and reads next.
-/

namespace Ipnx.Mnt

open List

variable {κ : Type} [DecidableEq κ]

namespace Mounts

variable {w w' : Mounts κ} {p q : Pid} {k k' : κ} {r r' : Rpc κ} {t : Tag} {mine : Tag → Prop}

@[simp]
theorem gate_recs (w : Mounts κ) (k : κ) : (w.gate k).recs = w.recs := by
  simp only [gate]
  split <;> rfl

@[simp]
theorem gate_self (w : Mounts κ) (k : κ) :
    (w.gate k).muxes k = { w.muxes k with rip := none } := by
  simp only [gate]
  split <;> simp

theorem gate_other (w : Mounts κ) (away : k' ≠ k) : (w.gate k).muxes k' = w.muxes k' := by
  simp only [gate]
  split
  · rw [setStatus_muxes, onMux_other _ _ _ away]
  · rw [onMux_other _ _ _ away]

theorem gate_sent (w : Mounts κ) (k : κ) : (w.gate k).sent = w.sent := by
  simp only [gate]
  split <;> rfl

theorem gate_told (w : Mounts κ) (k : κ) : (w.gate k).told = w.told := by
  simp only [gate]
  split <;> rfl

theorem gate_nread (w : Mounts κ) (k : κ) : (w.gate k).nread = w.nread := by
  simp only [gate]
  split <;> rfl

theorem gate_hungup (w : Mounts κ) (k : κ) : (w.gate k).hungup = w.hungup := by
  simp only [gate]
  split <;> rfl

theorem gate_awake (awake : w.status p = .awake) : (w.gate k).status p = .awake := by
  simp only [gate]
  split
  case h_1 q _ =>
    rcases eq_or_ne p q with rfl | other
    · simp
    · rw [setStatus_other _ _ _ other]
      exact awake
  case h_2 => exact awake

theorem gate_status (w : Mounts κ) (k : κ) (q : Pid) :
    (w.gate k).status q = w.status q ∨ (w.gate k).status q = .awake := by
  simp only [gate]
  split
  case h_1 q' _ =>
    rcases eq_or_ne q q' with rfl | other
    · exact .inr (setStatus_self _ _ _)
    · exact .inl (setStatus_other _ _ _ other)
  case h_2 => exact .inl rfl

theorem gate_woken (w : Mounts κ) (k : κ) :
    (∀ t q, (t, some q) ∈ (w.muxes k).queue → w.status q ≠ .mntrpc) ∨
      ∃ t q, (t, some q) ∈ (w.muxes k).queue ∧ w.status q = .mntrpc ∧
        (w.gate k).status q = .awake := by
  cases first : ((w.muxes k).queue.filterMap (·.2)).find? (fun p => w.status p = .mntrpc) with
  | none =>
      left
      intro t q member sleeps
      have none := List.find?_eq_none.mp first q (mem_filterMap.mpr ⟨_, member, rfl⟩)
      simp [sleeps] at none
  | some q =>
      right
      rcases mem_filterMap.mp (mem_of_find?_eq_some first) with ⟨⟨t, o⟩, member, rfl⟩
      have sleeps := List.find?_some first
      refine ⟨t, q, member, by simpa using sleeps, ?_⟩
      simp [gate, first]

theorem Touch.gate (touch : Touch w w' p k mine) : Touch w (w'.gate k) p k mine := by
  have left := touch.onMux ({ · with rip := none }) (fun _ _ => ⟨rfl, fun _ => Iff.rfl⟩)
    fun _ _ _ member => member
  simp only [Mounts.gate]
  split
  · exact left.wake _
  · exact left

theorem Touch.woken (touch : Touch w w' p k mine) (core : w.Core) (awake : w.status p ≠ .mntrpc)
    (status : w'.status = w.status) :
    (∀ t q, q ≠ p → (t, some q) ∈ (w.muxes k).queue → w.status q ≠ .mntrpc) ∨
      ∃ t q, (t, some q) ∈ (w.muxes k).queue ∧ w.status q = .mntrpc ∧
        (w'.gate k).status q = .awake := by
  rcases w'.gate_woken k with nobody | ⟨t, q, member, sleeps, wakes⟩
  · left
    intro t q other member
    rcases (core.mine q).queued k t member with ⟨r, live, tag⟩
    rw [← status]
    exact nobody t q (((touch.same_of_live other live tag).2 _).mpr member)
  · right
    rw [status] at sleeps
    have other : q ≠ p := by
      rintro rfl
      exact awake sleeps
    exact ⟨t, q, touch.entries t (some q) (by simpa using other) member, sleeps, wakes⟩

theorem Touch.wakeup (touch : Touch w w' p k mine) (q : Pid) : Touch w (w'.wakeup q) p k mine := by
  simp only [Mounts.wakeup]
  split
  · exact touch.wake q
  · exact touch

theorem freeFrom_free {queue : List (Tag × Option Pid)} {fuel : Nat} {from' : Tag}
    (found : Mux.freeFrom queue fuel from' = some t) : t ≠ notag ∧ ∀ o, (t, o) ∉ queue := by
  induction fuel generalizing from' with
  | zero => simp [Mux.freeFrom] at found
  | succ fuel ih =>
      simp only [Mux.freeFrom] at found
      split at found
      case isTrue free =>
        obtain rfl := Option.some.inj found
        exact ⟨free.1, fun o member => free.2 _ member rfl⟩
      case isFalse => exact ih found

theorem passed_succ {s from' : Tag} (other : s ≠ from' + 1) :
    (s - from' - 1).toNat = (s - (from' + 1) - 1).toNat + 1 := by
  have differs : s.toNat ≠ (from' + 1).toNat := fun same => other (UInt16.toNat_inj.1 same)
  have below := s.toNat_lt
  have below' := from'.toNat_lt
  simp only [UInt16.toNat_sub, UInt16.toNat_add, UInt16.toNat_one] at *
  omega

/-- No tag off the queue is passed over. -/
theorem freeFrom_first {queue : List (Tag × Option Pid)} {fuel : Nat} {from' s : Tag}
    (found : Mux.freeFrom queue fuel from' = some t) (proper : s ≠ notag)
    (off : ∀ o, (s, o) ∉ queue) : (t - from' - 1).toNat ≤ (s - from' - 1).toNat := by
  induction fuel generalizing from' with
  | zero => simp [Mux.freeFrom] at found
  | succ fuel ih =>
      rcases freeFrom_free found with ⟨isTag, unqueued⟩
      simp only [Mux.freeFrom] at found
      split at found
      case isTrue free =>
        obtain rfl := Option.some.inj found
        have passed : from' + 1 - from' - 1 = 0 := by grind
        rw [passed]
        exact Nat.zero_le _
      case isFalse taken =>
        have apart (u : Tag) (proper : u ≠ notag) (off : ∀ o, (u, o) ∉ queue) : u ≠ from' + 1 := by
          rintro rfl
          refine taken ⟨proper, ?_⟩
          rintro ⟨v, o⟩ member rfl
          exact off o member
        rw [passed_succ (apart s proper off), passed_succ (apart t isTag unqueued)]
        exact Nat.succ_le_succ (ih found)

/-- A tag in use is on the queue, or after one that is neither as `newtag` counts. -/
def Clear (w : Mounts κ) (k : κ) : Prop :=
  ∀ t, w.InUse k t → t ≠ notag → (∃ o, (t, o) ∈ (w.muxes k).queue) ∨
    ∃ s, s ≠ notag ∧ (∀ o, (s, o) ∉ (w.muxes k).queue) ∧
      (s - (w.muxes k).tag - 1).toNat < (t - (w.muxes k).tag - 1).toNat

/-- The tag that the wire gives next, if it gives one, nobody has. -/
def Fresh (w : Mounts κ) (k : κ) : Prop := ∀ t, (w.muxes k).nexttag = some t → w.Free k t

omit [DecidableEq κ] in
theorem Clear.fresh (clear : w.Clear k) : w.Fresh k := by
  intro t next
  refine ⟨fun used => ?_, (freeFrom_free next).2 none⟩
  rcases clear t used (freeFrom_free next).1 with ⟨o, queued⟩ | ⟨s, proper, off, before⟩
  · exact (freeFrom_free next).2 o queued
  · exact absurd before (Nat.not_lt.2 (freeFrom_first next proper off))

theorem Inv.sent (inv : w.Inv) (live : w.Live p k r) (awake : w.status p = .awake)
    (unsent : r.sent = false) (put : Option Nat) :
    ((w.onMux k (·.push r.tag p)).setRec p (some { r with sent := true, put := put })).Inv := by
  have mine := inv.core.mine p
  have noflush := mine.unflushed r live.1 unsent
  rcases mine.unsent k r live unsent with ⟨undone, unqueued⟩
  have newest : r.newest = r.tag := by simp [Rpc.newest, noflush]
  have waiting : ¬w.Waits p k := live.unread (by simp [Rpc.lined, unsent]) k
  have touch : Touch w ((w.onMux k (·.push r.tag p)).setRec p
      (some { r with sent := true, put := put })) p k (· ∈ r.tags) := by
    refine ((inv.core.touch live).onMux _ (fun t other => ⟨rfl, fun o => ?_⟩) ?_).setRec _
    · have apart : t ≠ r.tag := fun same => other (same ▸ tag_mem_tags r)
      simp [Mux.push, apart]
    · intro t o other member
      simpa [Mux.push, other] using member
  have live' : ((w.onMux k (·.push r.tag p)).setRec p
      (some { r with sent := true, put := put })).Live p k { r with sent := true, put := put } :=
    ⟨by simp, live.2.1, live.2.2⟩
  refine touch.inv_of_live inv live live' (fun t tag => tag)
      (.of_live live' ?_ ?_ ?_ ?_ ?_ ?_) ?_ ?_
    (touch.held (inv.held k) ?_ ?_ ?_ ?_ ?_)
  · simp [awake]
  · simp [awake]
  · intro k' t member
    rcases eq_or_ne k' k with rfl | away
    · simp only [setRec_muxes, onMux_self, Mux.push, mem_append, mem_singleton,
        Prod.mk.injEq] at member
      rcases member with before | ⟨rfl, -⟩
      · exact ⟨rfl, (inv.core.entries live k' t before).2⟩
      · exact ⟨rfl, tag_mem_tags r⟩
    · rw [setRec_muxes, onMux_other _ _ _ away] at member
      exact inv.core.entries live k' t member
  · exact mine.nodup k r live
  · intro _
    left
    change (r.newest, some p) ∈ _
    simp [Mux.push, newest]
  · simp
  · simpa using (inv.core.tidy k).push undone unqueued
  · simp [awake]
  · simp [Mux.push]
  · exact fun rip => absurd rip ((inv.held k).not_rip waiting)
  · simp [awake]
  · exact fun _ before => absurd before waiting
  · exact fun _ _ => awake

theorem inv_rpc {version : Bool} (inv : w.Inv) (awake : w.status p = .awake)
    (again : ∀ r, w.recs p = some r → r.sent = false ∧ (w.setRec p none).Free k r.tag)
    (first : w.recs p = none → if version then w.Free k notag else w.Fresh k)
    (made : w.rpc p k version = some w') : w'.Inv := by
  have unsent : ∀ r, w.recs p = some r → r.sent = false := fun r found => (again r found).1
  simp only [rpc] at made
  cases found : w.recs p with
  | some r =>
      simp only [found, Option.some.injEq] at made
      subst made
      exact inv.begun (r := { r with put := none, on := k, finished := false }) unsent awake
        (again r found).2 (unsent r found) ((inv.core.mine p).unflushed r found (unsent r found))
        ⟨by simp, rfl, rfl⟩ (fun q other => setRec_other _ _ _ other) (fun _ _ => rfl) rfl
            rfl rfl rfl
  | none =>
      have bare : w.setRec p none = w := by
        simp only [setRec, ← found, Function.update_eq_self]
      have fresh := first found
      rw [← bare] at fresh
      cases version with
      | true =>
          simp only [found, if_true, Option.some.injEq] at made
          subst made
          have free : (w.setRec p none).Free k notag := by simpa using fresh
          exact inv.begun (k := k) (r := .new k notag) unsent awake free rfl rfl
            ⟨by simp, rfl, rfl⟩ (fun q other => setRec_other _ _ _ other) (fun _ _ => rfl) rfl rfl
            rfl rfl
      | false =>
          simp only [found, Bool.false_eq_true, if_false, newtag, Option.map_eq_some_iff,
            Prod.exists, Prod.mk.injEq] at made
          rcases made with ⟨_, _, ⟨t, next, rfl, rfl⟩, rfl⟩
          refine inv.begun (r := .new k t) unsent awake (fresh t next) rfl rfl
            ⟨by simp, rfl, rfl⟩ (fun q other => setRec_other _ _ _ other)
            (fun k' other => by rw [setRec_muxes, onMux_other _ _ _ other]) ?_ ?_ ?_ rfl
          · simp
          · simp
          · simp

def Returns (w : Mounts κ) (p : Pid) (k : κ) : Prop :=
  ∀ r, w.recs p = some r → r.on = k ∧ r.finished = false

theorem send_live {io : Io} {out : Outcome} (returns : w.Returns p k)
    (sends : w.send p k io = some (w', out)) : ∃ r, w.Live p k r ∧ r.sent = false := by
  simp only [send] at sends
  cases found : w.recs p with
  | none => simp [found] at sends
  | some r =>
      refine ⟨r, ⟨found, returns r found⟩, ?_⟩
      by_contra sent
      simp [found, sent] at sends

theorem sendflush_live {io : Io} {out : Outcome} (returns : w.Returns p k)
    (sends : w.sendflush p k io = some (w', out)) : ∃ r f, w.Live p k r ∧
      r.flush.tags.getLast? = some f ∧ r.flush.tags ≠ [] ∧ r.sent = true ∧
        r.flush.sent = false := by
  simp only [sendflush] at sends
  cases found : w.recs p with
  | none => simp [found] at sends
  | some r =>
      cases newest : r.flush.tags.getLast? with
      | none => simp [found, newest] at sends
      | some f =>
          have flushing : r.flush.tags ≠ [] := by
            intro none
            simp [none] at newest
          refine ⟨r, f, ⟨found, returns r found⟩, newest, flushing, ?_, ?_⟩
          all_goals
            by_contra off
            simp [found, newest, off] at sends

theorem inv_send {io : Io} {out : Outcome} (inv : w.Inv) (awake : w.status p = .awake)
    (returns : w.Returns p k) (sends : w.send p k io = some (w', out)) : w'.Inv := by
  rcases send_live returns sends with ⟨r, live, unsent⟩
  simp only [send, live.1] at sends
  rw [if_neg (by simp [unsent])] at sends
  have noflush := (inv.core.mine p).unflushed r live.1 unsent
  generalize (io.put && r.put.isNone) = goes at sends
  cases io with
  | ok =>
      simp only [Option.some.injEq, Prod.mk.injEq] at sends
      rcases sends with ⟨rfl, -⟩
      cases goes with
      | true => exact (inv.sent live awake unsent _).same rfl rfl rfl
      | false => exact inv.sent live awake unsent r.put
  | slept put =>
      simp only [Option.some.injEq, Prod.mk.injEq] at sends
      rcases sends with ⟨rfl, -⟩
      have marked (n : Option Nat) : ((w.setRec p (some { r with put := n })).setStatus p
          (.writing k)).Inv := by
        have live' : (w.setRec p (some { r with put := n })).Live p k { r with put := n } :=
          ⟨by simp, live.2⟩
        have noted : (w.setRec p (some { r with put := n })).Inv :=
          inv.marked live awake rfl rfl rfl rfl live.2.2 id
        refine noted.leaves live' _ (by simp) ?_ (by simp)
        intro _ _
        exact live'.unread (by simp [Rpc.lined, unsent]) k
      cases goes with
      | true => exact (marked _).same rfl rfl rfl
      | false => exact marked r.put
  | err put e =>
      simp only [Option.some.injEq, Prod.mk.injEq] at sends
      rcases sends with ⟨rfl, -⟩
      have finished (n : Option Nat) : (w.setRec p
          (some { r with put := n, finished := true })).Inv := by
        apply inv.unsent_over live awake unsent
        rintro _ ⟨⟩
        exact ⟨rfl, noflush⟩
      cases goes with
      | true => exact (finished _).same rfl rfl rfl
      | false => exact finished r.put

theorem Inv.left (inv : w.Inv) (live : w.Live p k r) (touch : Touch w w' p k (· ∈ r.tags))
    (awake : w.status p = .awake) (isRip : (w.muxes k).rip = some p)
    {v : Mounts κ} (off : Touch w v p k (· ∈ r.tags)) (same : v.status = w.status)
    (status : w'.status = (v.gate k).status) (free : (w'.muxes k).rip = none)
    (idle : ∀ k r, ¬w'.Live p k r)
    (unflushed : ∀ r, w'.recs p = some r → r.sent = false → r.flush.tags = [])
    (queue : ∀ t, (t, some p) ∈ (w'.muxes k).queue → t ∉ r.tags ∧ (t, some p) ∈ (w.muxes k).queue)
    (tidy : (w'.muxes k).Tidy) : w'.Inv := by
  have still : w'.status p = .awake := by
    rw [status]
    apply gate_awake
    rw [same, awake]
  refine inv.retired live touch still idle unflushed queue tidy
    (touch.held_left inv (by simp [awake]) isRip free ?_ ?_ ?_)
  · rintro ⟨r', live', -⟩
    exact idle k r' live'
  · simp [still]
  · rw [status]
    exact off.woken inv.core (by simp [awake]) same

theorem mem_off {m : Mux} {o : Option Pid} {ts : List Tag} :
    (t, o) ∈ m.queue.filter (fun e => e.1 ∉ ts) ↔ (t, o) ∈ m.queue ∧ t ∉ ts := by
  simp [mem_filter]

theorem inv_dropped (inv : w.Inv) (live : w.Live p k r) (awake : w.status p = .awake)
    (reader : (w.muxes k).rip = some p ∨ ¬w.Waits p k) (tags : r'.tags = r.tags)
    (unflushed : r'.sent = false → r'.flush.tags = []) (e : String) :
    (w.dropped p k r' e).1.Inv := by
  have off : Touch w (w.onMux k fun m => { m with queue := m.queue.filter fun e => e.1 ∉ r'.tags })
      p k (· ∈ r.tags) := by
    rw [tags]
    refine (inv.core.touch live).onMux _ (fun t other => ⟨rfl, fun o => ?_⟩) ?_
    · simp [other]
    · exact fun t q _ member => (mem_off.mp member).1
  have tidy : Mux.Tidy { w.muxes k with
      queue := (w.muxes k).queue.filter fun e => e.1 ∉ r'.tags } :=
    (inv.core.tidy k).mono filter_sublist fun _ => id
  have finished (r'' : Rpc κ) (same : some { r' with finished := true } = some r'') :
      r''.sent = false → r''.flush.tags = [] := by
    obtain rfl := Option.some.inj same
    exact unflushed
  simp only [dropped]
  split
  case isTrue isRip =>
    refine inv.left live (off.gate.setRec _) awake isRip off rfl rfl ?_
      (idle_of_over (setRec_self _ _ _) rfl) ?_ ?_ ?_
    · simp
    · intro r'' found
      rw [setRec_self] at found
      exact finished r'' found
    · intro t member
      simp only [setRec_muxes, gate_self, onMux_self] at member
      exact ⟨tags ▸ (mem_off.mp member).2, (mem_off.mp member).1⟩
    · simp only [setRec_muxes, gate_self, onMux_self]
      exact { tidy with }
  case isFalse notRip =>
    have waiting : ¬w.Waits p k := reader.resolve_left notRip
    have touch := off.setRec (some { r' with finished := true })
    refine inv.retired live touch awake (idle_of_over (setRec_self _ _ _) rfl) ?_ ?_ ?_
      (touch.held (inv.held k) ?_ (fun isRip => absurd isRip notRip) ?_ ?_ (fun _ _ => awake))
    · intro r'' found
      rw [setRec_self] at found
      exact finished r'' found
    · intro t member
      simp only [setRec_muxes, onMux_self] at member
      exact ⟨tags ▸ (mem_off.mp member).2, (mem_off.mp member).1⟩
    · simpa using tidy
    · simp
    · simp [awake]
    · exact fun _ waits => absurd waits waiting

theorem inv_sendflush {io : Io} {out : Outcome} (inv : w.Inv) (awake : w.status p = .awake)
    (returns : w.Returns p k) (sends : w.sendflush p k io = some (w', out)) : w'.Inv := by
  rcases sendflush_live returns sends with ⟨r, f, live, newest, flushing, sent, flushUnsent⟩
  simp only [sendflush, live.1, newest] at sends
  rw [if_neg (by simp [sent, flushUnsent])] at sends
  generalize (io.put && decide (r.flush.puts.length < r.flush.tags.length)) = goes at sends
  have unlined : r.lined = false := by simp [Rpc.lined, flushUnsent, flushing]
  have marked (ps : List Nat) (now : Bool) :
      (w.setRec p (some { r with flush := { r.flush with puts := ps, sent := now } })).Inv :=
    inv.marked live awake rfl rfl rfl rfl live.2.2 (by simp [unlined])
  have live' (ps : List Nat) :
      (w.setRec p (some { r with flush := { r.flush with puts := ps } })).Live p k
        { r with flush := { r.flush with puts := ps } } := ⟨by simp, live.2⟩
  have kept (ps : List Nat) :
      (w.setRec p (some { r with flush := { r.flush with puts := ps } })).Inv :=
    inv.marked live awake rfl rfl rfl rfl live.2.2 id
  cases io with
  | ok =>
      simp only [Option.some.injEq, Prod.mk.injEq] at sends
      rcases sends with ⟨rfl, -⟩
      cases goes with
      | true => exact (marked _ true).same rfl rfl rfl
      | false => exact marked r.flush.puts true
  | slept put =>
      simp only [Option.some.injEq, Prod.mk.injEq] at sends
      rcases sends with ⟨rfl, -⟩
      have leaves (ps : List Nat) :
          ((w.setRec p (some { r with flush := { r.flush with puts := ps } })).setStatus p
            (.writing k)).Inv := by
        refine (kept ps).leaves (live' ps) _ (by simp) ?_ (by simp)
        exact fun _ _ => (live' ps).unread (by simp [Rpc.lined, flushUnsent, flushing]) k
      cases goes with
      | true => exact (leaves _).same rfl rfl rfl
      | false => exact leaves r.flush.puts
  | err put e =>
      simp only [Option.some.injEq] at sends
      have finished (v : Mounts κ) (inv : v.Inv) (live : v.Live p k r)
          (awake : v.status p = .awake) (ps : List Nat) :
          (v.dropped p k { r with flush := { r.flush with puts := ps } } e).1.Inv := by
        refine inv_dropped inv live awake (.inr (live.unread unlined k)) ?_ ?_ e
        · rfl
        · simp [sent]
      have wrote (req : Req) : (w.write k req).Inv := inv.same rfl rfl rfl
      cases goes with
      | true =>
          obtain rfl := congrArg Prod.fst sends
          exact finished _ (wrote ⟨f, some r.tag⟩) live awake _
      | false =>
          obtain rfl := congrArg Prod.fst sends
          exact finished w inv live awake r.flush.puts

theorem flush_cases {out : Outcome} (given : w.flush p k r = some (w', out)) :
    ∃ f, (w.muxes k).nexttag = some f ∧ out = .again ∧
      w' = (((w.interrupted p).onMux k ({ · with tag := f })).onMux k (·.push f p)).setRec p
        (some (flushedBy r f)) := by
  simp only [flush, newtag, Option.map_map, Option.map_eq_some_iff, Function.comp_apply,
    Prod.mk.injEq] at given
  rcases given with ⟨f, next, rfl, rfl⟩
  exact ⟨f, next, rfl, rfl⟩

theorem Inv.flush {v : Mounts κ} {out : Outcome} (inv : w.Inv) (live : w.Live p k r)
    (sent : r.sent = true) (fresh : w.Fresh k) (given : v.flush p k r = some (w', out))
    (off : ∀ mine, Touch w w p k mine → Touch w v p k mine)
    (queue : (v.muxes k).queue = (w.muxes k).queue) (tag : (v.muxes k).tag = (w.muxes k).tag)
    (done : (v.muxes k).done = (w.muxes k).done) (awake : v.status p = .awake)
    (held : ∀ mine, Touch w w' p k mine → ¬w'.Waits p k → w'.Held k) : w'.Inv := by
  rcases flush_cases given with ⟨f, next, -, rfl⟩
  have next' : (w.muxes k).nexttag = some f := by
    simpa only [Mux.nexttag, queue, tag] using next
  have free := fresh f next'
  have unqueued := (freeFrom_free next').2
  have others : ∀ q r' t, q ≠ p → w.Live q k r' → t ∈ r'.tags → ¬(t = f ∨ t ∈ r.tags) := by
    rintro q r' t other there tag (rfl | own)
    · exact free.apart there tag
    · exact inv.core.others live q r' t other there tag own
  have lost : ∀ t, (t, none) ∈ (w.muxes k).queue → ¬(t = f ∨ t ∈ r.tags) := by
    rintro t member (rfl | own)
    · exact unqueued none member
    · exact inv.core.lost k t member p r live own
  generalize result : (((v.interrupted p).onMux k ({ · with tag := f })).onMux k
      (·.push f p)).setRec p
    (some (flushedBy r f)) = w' at held
  have touch : Touch w w' p k (fun t => t = f ∨ t ∈ r.tags) := by
    rw [← result]
    have noted : Touch w (v.interrupted p) p k (fun t => t = f ∨ t ∈ r.tags) :=
      (off _ (.refl others lost)).congr rfl rfl rfl
    have tagged := noted.onMux ({ · with tag := f }) (fun _ _ => ⟨rfl, fun _ => Iff.rfl⟩)
      fun _ _ _ member => member
    refine (tagged.onMux (·.push f p) (fun t other => ⟨rfl, fun o => ?_⟩) fun t q other member =>
      ?_).setRec _
    · have apart : t ≠ f := fun same => other (.inl same)
      simp [Mux.push, apart]
    · simpa [Mux.push, other] using member
  have live' : w'.Live p k (flushedBy r f) := by
    rw [← result]
    exact ⟨by simp, live.2⟩
  have mux : w'.muxes k = ({ v.muxes k with tag := f } : Mux).push f p := by
    rw [← result]
    simp [interrupted]
  have away (k' : κ) (other : k' ≠ k) : w'.muxes k' = w.muxes k' := touch.away k' other
  have unlined : ¬w'.Waits p k := live'.unread (by simp [Rpc.lined, flushedBy]) k
  have awake' : w'.status p = .awake := by
    rw [← result]
    exact awake
  have inQueue (t : Tag) (o : Option Pid) : (t, o) ∈ (w'.muxes k).queue ↔
      (t, o) ∈ (w.muxes k).queue ∨ t = f ∧ o = some p := by
    simp [mux, Mux.push, queue]
  refine touch.inv_of_live inv live live' ?_ (.of_live live' ?_ ?_ ?_ ?_ ?_ ?_) ?_ ?_
    (held _ touch unlined)
  · intro t tag
    rw [tags_flushedBy] at tag
    simpa [or_comm] using tag
  · simp [awake']
  · simp [awake']
  · intro k' t member
    rw [tags_flushedBy]
    rcases eq_or_ne k' k with rfl | other
    · rcases (inQueue t _).mp member with before | ⟨rfl, -⟩
      · exact ⟨rfl, mem_append_left _ (inv.core.entries live k' t before).2⟩
      · simp
    · rw [away k' other] at member
      exact absurd (inv.core.entries live k' t member).1 other
  · rw [tags_flushedBy]
    refine nodup_append.mpr ⟨(inv.core.mine p).nodup k r live, by simp, ?_⟩
    rintro t tag _ last rfl
    obtain rfl : t = f := by simpa using last
    exact free.apart live tag
  · intro _
    rw [newest_flushedBy]
    exact .inl ((inQueue f _).mpr (.inr ⟨rfl, rfl⟩))
  · intro unsent
    have still : (flushedBy r f).sent = true := sent
    rw [unsent] at still
    cases still
  · have tidy := (inv.core.tidy k).push free.undone unqueued (p := p)
    rw [mux]
    refine ⟨?_, ?_⟩
    · simpa [Mux.push, queue] using tidy.nodup
    · simpa only [Mux.push, queue, done] using tidy.parked
  · simp [awake']

theorem inv_interrupted {out : Outcome} (inv : w.Inv) (live : w.Live p k r)
    (lined : r.lined = true) (awake : w.status p = .awake) (fresh : w.Fresh k)
    (busy : ∃ q, (w.muxes k).rip = some q ∧ q ≠ p) (given : w.flush p k r = some (w', out)) :
    w'.Inv := by
  rcases busy with ⟨q, isRip, other⟩
  have sent := Rpc.sent_of_lined lined
  have rip : (w'.muxes k).rip = (w.muxes k).rip := by
    rcases flush_cases given with ⟨f, -, -, rfl⟩
    simp [Mux.push, interrupted]
  have status : w'.status = w.status := by
    rcases flush_cases given with ⟨f, -, -, rfl⟩
    rfl
  refine inv.flush live sent fresh given (fun _ touch => touch) rfl rfl rfl awake
    fun _ touch _ => touch.held (inv.held k) rip ?_ ?_ ?_ ?_
  · intro mine
    rw [isRip] at mine
    exact absurd (Option.some.inj mine) other
  · simp [status, awake]
  · simp [isRip]
  · simp [isRip]

/-- The reader takes a note: it leaves the wire, and its RPC is flushed. -/
theorem inv_eintr {out : Outcome} (inv : w.Inv) (live : w.Live p k r) (lined : r.lined = true)
    (awake : w.status p = .awake) (fresh : w.Fresh k) (isRip : (w.muxes k).rip = some p)
    (given : (w.gate k).flush p k r = some (w', out)) : w'.Inv := by
  have sent := Rpc.sent_of_lined lined
  have free : (w'.muxes k).rip = none := by
    rcases flush_cases given with ⟨f, -, -, rfl⟩
    simp [Mux.push, interrupted]
  have status : w'.status = (w.gate k).status := by
    rcases flush_cases given with ⟨f, -, -, rfl⟩
    rfl
  have still : w'.status p = .awake := by rw [status, gate_awake awake]
  refine inv.flush live sent fresh given (fun _ touch => touch.gate) (by simp) (by simp) (by simp)
    (gate_awake awake) fun mine touch unlined => touch.held_left inv (by simp [awake]) isRip
      free unlined ?_ ?_
  · simp [still]
  · rw [status]
    exact (inv.core.touch live).woken inv.core (by simp [awake]) rfl

/-- A process that waits on a wire nobody reads takes the reader's place. -/
theorem inv_took (inv : w.Inv) (waits : w.Waits p k) (awake : w.status p = .awake)
    (free : ∀ q, (w.muxes k).rip = some q → q = p) :
    (w.onMux k ({ · with rip := some p })).Inv := by
  rcases waits with ⟨r, live, rest⟩
  have mine := inv.core.mine p
  have touch := (inv.core.touch live).onMux ({ · with rip := some p })
    (fun _ _ => ⟨rfl, fun _ => Iff.rfl⟩) fun _ _ _ member => member
  have live' : (w.onMux k ({ · with rip := some p })).Live p k r := live
  refine touch.inv_of_live inv live live' (fun t tag => tag)
    (.of_live live' ?_ ?_ ?_ (mine.nodup k r live) ?_ ?_) ?_ ?_ ⟨?_, ?_, ?_⟩
  · simp [awake]
  · simp [awake]
  · intro k' t member
    rcases eq_or_ne k' k with rfl | away
    · rw [onMux_self] at member
      exact inv.core.entries live k' t member
    · rw [onMux_other _ _ _ away] at member
      exact inv.core.entries live k' t member
  · simpa using mine.awaited k r live
  · intro unsent
    refine ⟨mine.unflushed r live.1 unsent, ?_⟩
    simpa using mine.unsent k r live unsent
  · have tidy := inv.core.tidy k
    simpa using ({ tidy with } :
      Mux.Tidy { w.muxes k with rip := some p })
  · simp [awake]
  · intro q isRip
    obtain rfl : p = q := by simpa using isRip
    refine ⟨⟨r, live', rest.1, ?_⟩, by simp [awake]⟩
    simpa using rest.2
  · intro q reads
    have was := (inv.held k).reading q reads
    obtain rfl := free q was
    simp
  · simp

/-- The RPC is answered by its newest flush, which was put aside for it. -/
theorem inv_flushed (inv : w.Inv) (live : w.Live p k r) (awake : w.status p = .awake)
    (finished : ¬w.Waits p k) : (w.flushed p k r).1.Inv := by
  have off : Touch w (w.onMux k fun m =>
      { m with
        queue := m.queue.filter fun e => e.1 ∉ r.tags
        done := fun t => if t ∈ r.tags then none else m.done t }) p k (· ∈ r.tags) := by
    refine (inv.core.touch live).onMux _ (fun t other => ⟨if_neg other, fun o => ?_⟩) ?_
    · simp [other]
    · exact fun t q _ member => (mem_off.mp member).1
  refine inv.retired live (off.setRec none) awake (idle_of_none (setRec_self _ _ _)) ?_ ?_ ?_
    ((off.setRec none).held (inv.held k) ?_ ?_ ?_ ?_ (fun _ _ => awake))
  · simp [flushed]
  · intro t member
    simp only [flushed, setRec_muxes, onMux_self] at member
    exact ⟨(mem_off.mp member).2, (mem_off.mp member).1⟩
  · simp only [flushed, setRec_muxes, onMux_self]
    refine (inv.core.tidy k).mono filter_sublist fun t put => ?_
    dsimp only at put
    split at put
    case isTrue => exact absurd rfl put
    case isFalse => exact put
  · simp
  · exact fun isRip => absurd isRip ((inv.held k).not_rip finished)
  · simp [awake]
  · exact fun _ waits => absurd waits finished

theorem inv_finish {m : Msg} (inv : w.Inv) (live : w.Live p k r) (awake : w.status p = .awake)
    (put : (w.muxes k).done r.tag = some m) (noflush : r.flush.tags = []) :
    ((w.onMux k (·.undone r.tag)).finish p m).1.Inv := by
  have tags : r.tags = [r.tag] := by simp [Rpc.tags, noflush]
  have finished : ¬w.Waits p k := by
    rintro ⟨r', live', -, undone, -⟩
    rcases live.unique live' with ⟨-, rfl⟩
    rw [put] at undone
    cases undone
  have off : Touch w (w.onMux k (·.undone r.tag)) p k (· ∈ r.tags) := by
    refine (inv.core.touch live).onMux _ (fun t other => ⟨?_, fun o => Iff.rfl⟩)
      fun t q _ member => member
    have apart : t ≠ r.tag := fun same => other (same ▸ tag_mem_tags r)
    simp [Mux.undone, apart]
  have tidy := inv.core.tidy k
  refine inv.retired live (off.setRec none) awake (idle_of_none (setRec_self _ _ _)) ?_ ?_ ?_
    ((off.setRec none).held (inv.held k) ?_ ?_ ?_ ?_ (fun _ _ => awake))
  · simp [finish]
  · intro t member
    simp only [finish, setRec_muxes, onMux_self, Mux.undone] at member
    refine ⟨fun tag => ?_, member⟩
    obtain rfl : t = r.tag := by simpa [tags] using tag
    exact tidy.parked r.tag (by simp [put]) _ member
  · simp only [finish, setRec_muxes, onMux_self]
    refine tidy.mono (List.Sublist.refl _) fun t isPut => ?_
    rcases eq_or_ne t r.tag with rfl | apart
    · simp [put]
    · simpa [Mux.undone, apart] using isPut
  · simp [Mux.undone]
  · exact fun isRip => absurd isRip ((inv.held k).not_rip finished)
  · simp [awake]
  · exact fun _ waits => absurd waits finished

theorem Live.gave (live : w.Live p k r) (m : Msg) :
    ((w.onMux k (·.undone r.tag)).setRec p
      (some { r with flush := { r.flush with got := some m } })).Live p k
        { r with flush := { r.flush with got := some m } } :=
  ⟨by simp, live.2⟩

omit [DecidableEq κ] in
theorem newest_undone (undone : (w.muxes k).done r.tag = none)
    (notDone : ¬(r.flush.tags ≠ [] ∧ ((w.muxes k).done r.newest).isSome)) :
    (w.muxes k).done r.newest = none := by
  rcases eq_or_ne r.flush.tags [] with noflush | flushing
  · have same : r.newest = r.tag := by simp [Rpc.newest, noflush]
    rwa [same]
  · simpa [flushing] using notDone

theorem inv_got {m : Msg} (inv : w.Inv) (live : w.Live p k r) (awake : w.status p = .awake)
    (sent : r.sent = true) (flushing : r.flush.tags ≠ []) :
    ((w.onMux k (·.undone r.tag)).setRec p
      (some { r with flush := { r.flush with got := some m } })).Inv := by
  have apart := tag_ne_newest ((inv.core.mine p).nodup k r live) flushing
  have tidy := inv.core.tidy k
  have touch : Touch w ((w.onMux k (·.undone r.tag)).setRec p
      (some { r with flush := { r.flush with got := some m } })) p k (· ∈ r.tags) := by
    refine ((inv.core.touch live).onMux _ (fun t other => ⟨?_, fun o => Iff.rfl⟩)
      fun t q _ member => member).setRec _
    have differs : t ≠ r.tag := fun same => other (same ▸ tag_mem_tags r)
    simp [Mux.undone, differs]
  have live' := live.gave m
  refine inv.kept live sent touch live' rfl rfl rfl rfl ?_ ?_ ?_ ?_ ?_ awake
  · refine ⟨?_, fun o => ?_⟩
    · simp [Mux.undone, apart]
    · simp [Mux.undone]
  · simp [Mux.undone]
  · simp [Mux.undone]
  · simp only [setRec_muxes, onMux_self]
    refine tidy.mono (List.Sublist.refl _) fun t isPut => ?_
    rcases eq_or_ne t r.tag with rfl | differs
    · simp [Mux.undone] at isPut
    · simpa [Mux.undone, differs] using isPut
  · simp [Mux.undone]

def taken (w : Mounts κ) (k : κ) (t : Tag) : Mounts κ :=
  w.onMux k fun mux => { mux with queue := mux.queue.eraseP (·.1 == t) }

theorem touch_taken (core : w.Core) (live : w.Live p k r) (tag : t ∈ r.tags) :
    Touch w (w.taken k t) p k (· ∈ r.tags) := by
  refine (core.touch live).onMux _ (fun s other => ⟨rfl, fun o => ?_⟩) fun s q _ member => ?_
  · have apart : s ≠ t := fun same => other (same ▸ tag)
    exact Mux.mem_eraseP_iff apart
  · exact eraseP_sublist.subset member

theorem tidy_taken (core : w.Core) (k : κ) (t : Tag) : ((w.taken k t).muxes k).Tidy := by
  simp only [taken, onMux_self]
  exact (core.tidy k).mono eraseP_sublist fun _ => id

theorem mem_taken {s : Tag} {o : Option Pid} (core : w.Core)
    (member : (s, o) ∈ ((w.taken k t).muxes k).queue) : s ≠ t ∧ (s, o) ∈ (w.muxes k).queue := by
  simp only [taken, onMux_self] at member
  refine ⟨?_, eraseP_sublist.subset member⟩
  rintro rfl
  exact (core.tidy k).not_mem_eraseP o member

theorem inv_mine {m : Msg} (inv : w.Inv) (live : w.Live p k r) (awake : w.status p = .awake)
    (isRip : (w.muxes k).rip = some p) (tag : m.tag = r.tag) (noflush : r.flush.tags = []) :
    (((w.taken k m.tag).gate k).finish p m).1.Inv := by
  have tags : r.tags = [r.tag] := by simp [Rpc.tags, noflush]
  have off := touch_taken inv.core live (t := m.tag) (tag ▸ tag_mem_tags r)
  have tidy := tidy_taken inv.core k m.tag
  refine inv.left live (off.gate.setRec none) awake isRip off rfl rfl ?_
    (idle_of_none (setRec_self _ _ _)) ?_ ?_ ?_
  · simp [finish]
  · simp [finish]
  · intro t member
    simp only [finish, setRec_muxes, gate_self] at member
    rcases mem_taken inv.core member with ⟨other, before⟩
    refine ⟨fun mine => other ?_, before⟩
    rw [tag]
    simpa [tags] using mine
  · simp only [finish, setRec_muxes, gate_self]
    exact { tidy with }

theorem inv_newest {m : Msg} (inv : w.Inv) (live : w.Live p k r) (awake : w.status p = .awake)
    (isRip : (w.muxes k).rip = some p) (tag : m.tag ∈ r.tags) :
    (((w.taken k m.tag).gate k).flushed p k r).1.Inv := by
  have off := touch_taken inv.core live tag
  have tidy := tidy_taken inv.core k m.tag
  have touch : Touch w (((w.taken k m.tag).gate k).flushed p k r).1 p k (· ∈ r.tags) := by
    refine (off.gate.onMux _ (fun t other => ⟨if_neg other, fun o => ?_⟩) ?_).setRec none
    · simp [other]
    · exact fun t q _ member => (mem_off.mp member).1
  refine inv.left live touch awake isRip off rfl rfl ?_
    (idle_of_none (setRec_self _ _ _)) ?_ ?_ ?_
  · simp [flushed]
  · simp [flushed]
  · intro t member
    simp only [flushed, setRec_muxes, onMux_self, gate_self] at member
    rcases mem_off.mp member with ⟨left, other⟩
    exact ⟨other, (mem_taken inv.core left).2⟩
  · simp only [flushed, setRec_muxes, onMux_self, gate_self]
    refine tidy.mono filter_sublist fun t put => ?_
    dsimp only at put
    split at put
    case isTrue => exact absurd rfl put
    case isFalse => exact put

theorem inv_old {m : Msg} (inv : w.Inv) (live : w.Live p k r) (awake : w.status p = .awake)
    (sent : r.sent = true) (tag : m.tag ∈ r.tags) (other : m.tag ≠ r.newest) :
    (w.taken k m.tag).Inv := by
  refine inv.kept live sent (touch_taken inv.core live tag) live rfl rfl rfl rfl ?_ ?_ ?_
    (tidy_taken inv.core k m.tag) ?_ awake
  · refine ⟨by simp [taken], fun o => ?_⟩
    simp only [taken, onMux_self]
    exact Mux.mem_eraseP_iff (Ne.symm other)
  · simp [taken]
  · exact fun t member => (mem_taken inv.core member).2
  · simp [taken]

theorem inv_delivered {m : Msg} (inv : w.Inv) (live : w.Live q k r) (tag : m.tag ∈ r.tags)
    (queued : (m.tag, some q) ∈ (w.muxes k).queue) (isRip : (w.muxes k).rip = some p)
    (other : p ≠ q) :
    (((w.taken k m.tag).onMux k fun mux =>
      { mux with done := Function.update mux.done m.tag (some m) }).wakeup q).Inv := by
  have mine := inv.core.mine q
  generalize result : ((w.taken k m.tag).onMux k fun mux =>
      { mux with done := Function.update mux.done m.tag (some m) }).wakeup q = w'
  have touch : Touch w w' q k (· ∈ r.tags) := by
    rw [← result]
    refine ((touch_taken inv.core live tag).onMux _ (fun t apart => ⟨?_, fun o => Iff.rfl⟩)
      fun _ _ _ member => member).wakeup q
    have differs : t ≠ m.tag := fun same => apart (same ▸ tag)
    simp [differs]
  have recs : w'.recs = w.recs := by
    rw [← result]
    simp only [wakeup]
    split <;> rfl
  have live' : w'.Live q k r := (Live.congr (congrFun recs q)).mpr live
  have mux : w'.muxes k = { (w.taken k m.tag).muxes k with
      done := Function.update (w.muxes k).done m.tag (some m) } := by
    rw [← result]
    simp only [wakeup]
    split <;> simp [taken]
  have status : w'.status q ≠ .mntrpc ∧
      ∀ s, s ≠ .awake → w'.status q = s → w.status q = s := by
    rw [← result]
    simp only [wakeup]
    split
    case isTrue =>
      rw [setStatus_self]
      exact ⟨by simp, fun s asleep same => absurd same.symm asleep⟩
    case isFalse awake => exact ⟨awake, fun _ _ same => same⟩
  have waits (after : w'.Waits q k) : w.Waits q k := by
    rcases after with ⟨r', there, lined, own, last⟩
    rcases live'.unique there with ⟨-, rfl⟩
    simp only [mux] at own last
    refine ⟨r, live, lined, ?_, ?_⟩
    · rcases eq_or_ne r.tag m.tag with same | apart
      · simp [same] at own
      · simpa [apart] using own
    · rcases eq_or_ne r.newest m.tag with same | apart
      · simp [same] at last
      · simpa [apart] using last
  refine touch.inv_of_live inv live live' (fun _ member => member)
    (.of_live live' ?_ ?_ ?_ (mine.nodup k r live) ?_ ?_) ?_ ?_
    (touch.held (inv.held k) ?_ ?_ ?_ ?_ ?_)
  · exact fun sleeps => absurd sleeps status.1
  · intro k' writes after
    exact mine.writing k' k (status.2 _ (by simp) writes) (waits after)
  · intro k' t member
    rcases eq_or_ne k' k with rfl | away
    · rw [mux] at member
      exact inv.core.entries live k' t (mem_taken inv.core member).2
    · rw [touch.away k' away] at member
      exact inv.core.entries live k' t member
  · intro sent
    rw [mux]
    rcases eq_or_ne r.newest m.tag with same | apart
    · simp [same]
    · rcases mine.awaited k r live sent with member | done
      · left
        simp only [taken, onMux_self]
        exact (Mux.mem_eraseP_iff apart).mpr member
      · right
        simpa [apart] using done
  · intro unsent
    have noflush := mine.unflushed r live.1 unsent
    have isTag : m.tag = r.tag := by simpa [Rpc.tags, noflush] using tag
    rw [isTag] at queued
    exact absurd queued ((mine.unsent k r live unsent).2 _)
  · have tidy := inv.core.tidy k
    refine tidy.park (t := m.tag) ?_ ?_ ?_
    · simp only [mux, taken, onMux_self]
      exact eraseP_sublist
    · intro o member
      rw [mux] at member
      exact (mem_taken inv.core member).1 rfl
    · intro t apart
      simp [mux, apart]
  · intro k' reads
    have before := (inv.held k').reading q (status.2 _ (by simp) reads)
    rcases ((inv.held k').rips q before).1 with ⟨r', there, -⟩
    exact (live.unique there).1.symm
  · simp [mux, taken]
  · intro mineToo
    rw [isRip] at mineToo
    exact absurd (Option.some.inj mineToo) other
  · intro reads
    exact (inv.held k).reading q (status.2 _ (by simp) reads)
  · simp [isRip]
  · simp [isRip]

/-- The reply to a process that is gone is nobody's. -/
theorem inv_dead (inv : w.Inv) (queued : (t, none) ∈ (w.muxes k).queue) : (w.taken k t).Inv := by
  have nodup := (inv.core.tidy k).nodup
  refine inv.orphaned (k := k) rfl rfl (fun k' other => onMux_other _ _ _ other) ?_ ?_ ?_ ?_ ?_
  · simp [taken]
  · simp [taken]
  · intro s q
    simp only [taken, onMux_self]
    rcases eq_or_ne s t with rfl | other
    · refine iff_of_false ((inv.core.tidy k).not_mem_eraseP _) fun member => ?_
      have same := inj_on_of_nodup_map nodup member queued rfl
      cases same
    · exact Mux.mem_eraseP_iff other
  · exact (tidy_taken inv.core k t).nodup
  · exact fun s member => .inr (mem_taken inv.core member).2

theorem inv_mountmux (inv : w.Inv) (live : w.Live p k r) (lined : r.lined = true)
    (awake : w.status p = .awake) (isRip : (w.muxes k).rip = some p) (m : Msg) :
    (w.mountmux p k r m).1.Inv := by
  have sent := Rpc.sent_of_lined lined
  have nodup := (inv.core.mine p).nodup k r live
  simp only [mountmux]
  split
  case isTrue own =>
    split
    case isTrue noflush => exact inv_mine inv live awake isRip own noflush
    case isFalse flushing =>
      have apart := tag_ne_newest nodup flushing
      have old := inv_old inv live awake sent (own ▸ tag_mem_tags r) (by rw [own]; exact apart.symm)
      exact old.marked live awake rfl rfl rfl rfl live.2.2 id
  case isFalse notOwn =>
    split
    case isTrue newest =>
      have member : m.tag ∈ r.tags := mem_cons_of_mem _ (mem_of_getLast? newest)
      exact inv_newest inv live awake isRip member
    case isFalse notNewest =>
      have other : m.tag ≠ r.newest := by
        intro same
        cases last : r.flush.tags.getLast? with
        | none =>
            rw [Rpc.newest, last] at same
            exact notOwn same
        | some f =>
            rw [Rpc.newest, last] at same
            exact notNewest (by rw [last, same, Option.getD_some])
      split
      case isTrue old =>
        exact inv_old inv live awake sent (mem_cons_of_mem _ old) other
      case isFalse notOld =>
        split
        case h_1 t q owner =>
          have queued := mem_of_find?_eq_some owner
          have same := List.find?_some owner
          simp only [beq_iff_eq] at same
          subst same
          rcases (inv.core.mine q).queued k _ queued with ⟨r', live', tag⟩
          have apart : p ≠ q := by
            rintro rfl
            rcases live.unique live' with ⟨-, rfl⟩
            rcases mem_cons.mp tag with isOwn | isFlush
            · exact notOwn isOwn
            · exact notOld isFlush
          exact inv_delivered inv live' tag queued isRip apart
        case h_2 nobody =>
          cases found : (w.muxes k).queue.find? (·.1 == m.tag) with
          | some e =>
              rcases e with ⟨t, _ | q⟩
              · have same := List.find?_some found
                simp only [beq_iff_eq] at same
                subst same
                exact inv_dead inv (mem_of_find?_eq_some found)
              · exact absurd found (nobody t q)
          | none =>
              refine inv.same ?_ rfl rfl
              funext k'
              rcases eq_or_ne k' k with rfl | away
              · rw [onMux_self, eraseP_of_forall_not (List.find?_eq_none.mp found)]
              · rw [onMux_other _ _ _ away]

theorem inv_reader {rd : Rd} {out : Outcome} (inv : w.Inv) (live : w.Live p k r)
    (lined : r.lined = true) (awake : w.status p = .awake) (waits : w.Waits p k)
    (fresh : w.notepending p = true ∨ rd = .eintr → w.Fresh k)
    (reads : w.reader p k r rd = some (w', out)) : w'.Inv := by
  simp only [reader] at reads
  split at reads
  case isTrue free =>
    have took := inv_took inv waits awake free
    have isRip : ((w.onMux k ({ · with rip := some p })).muxes k).rip = some p := by simp
    have live' : (w.onMux k ({ · with rip := some p })).Live p k r := live
    have waits' := ((took.held k).rips p isRip).1
    cases rd with
    | slept =>
        simp only [mntrpcread, Option.some.injEq, Prod.mk.injEq] at reads
        rcases reads with ⟨rfl, -⟩
        refine took.leaves live' _ (by simp) (by simp) ?_
        rintro k' ⟨⟩
        exact ⟨rfl, isRip⟩
    | eintr =>
        have fresh' : (w.onMux k ({ · with rip := some p })).Fresh k := by
          intro t next
          rw [onMux_self] at next
          have free := fresh (.inr rfl) t next
          exact free_of_apart (by simpa using free.undone) (by simpa using free.unlost)
            fun q r' there => free.apart there
        exact inv_eintr took live' lined awake fresh' isRip reads
    | err e =>
        simp only [mntrpcread, Option.some.injEq] at reads
        obtain rfl := congrArg Prod.fst reads
        exact inv_dropped took live' awake (.inl isRip) rfl
          ((took.core.mine p).unflushed r live'.1) e
    | msg =>
        simp only [mntrpcread] at reads
        split at reads
        case h_1 => cases reads
        case h_2 m _ =>
          obtain rfl := congrArg Prod.fst (Option.some.inj reads)
          have told : ((w.onMux k ({ · with rip := some p })).read k).Inv := took.same rfl rfl rfl
          exact inv_mountmux told live' lined awake isRip m
  case isFalse busy =>
    simp only [not_forall, exists_prop] at busy
    split at reads
    case isTrue noted => exact inv_interrupted inv live lined awake (fresh (.inl noted)) busy reads
    case isFalse =>
      obtain rfl := congrArg Prod.fst (Option.some.inj reads)
      exact inv.leaves live _ (fun _ => ⟨waits, busy⟩) (by simp) (by simp)

theorem inv_answered {rd : Rd} {out : Outcome} (inv : w.Inv) (live : w.Live p k r)
    (lined : r.lined = true) (awake : w.status p = .awake)
    (undone : (w.muxes k).done r.tag = none)
    (fresh : w.notepending p = true ∨ rd = .eintr → w.Fresh k)
    (answers : w.answered p k r rd = some (w', out)) : w'.Inv := by
  simp only [answered] at answers
  split at answers
  case isTrue done =>
    obtain rfl := congrArg Prod.fst (Option.some.inj answers)
    apply inv_flushed inv live awake
    rintro ⟨r', live', -, -, last⟩
    rcases live.unique live' with ⟨-, rfl⟩
    simp [last] at done
  case isFalse notDone =>
    have last := newest_undone undone notDone
    exact inv_reader inv live lined awake ⟨r, live, lined, undone, last⟩ fresh answers

theorem inv_mountio {rd : Rd} {out : Outcome} (inv : w.Inv) (awake : w.status p = .awake)
    (returns : w.Returns p k) (fresh : w.notepending p = true ∨ rd = .eintr → w.Fresh k)
    (passes : w.mountio p k rd = some (w', out)) : w'.Inv := by
  simp only [mountio] at passes
  cases found : w.recs p with
  | none => simp [found] at passes
  | some r =>
      have live : w.Live p k r := ⟨found, returns r found⟩
      simp only [found] at passes
      split at passes
      case isFalse => cases passes
      case isTrue lined =>
        have sent := Rpc.sent_of_lined lined
        cases own : (w.muxes k).done r.tag with
        | none =>
            simp only [own] at passes
            exact inv_answered inv live lined awake own fresh passes
        | some m =>
            simp only [own] at passes
            split at passes
            case isTrue noflush =>
              obtain rfl := congrArg Prod.fst (Option.some.inj passes)
              exact inv_finish inv live awake own noflush
            case isFalse flushing =>
              have got := inv_got (m := m) inv live awake sent flushing
              have live' := live.gave m
              refine inv_answered got live' lined awake ?_ ?_ passes
              · simp [Mux.undone]
              · intro asks t next
                rw [setRec_muxes, onMux_self] at next
                have next' : (w.muxes k).nexttag = some t := next
                have free := fresh asks t next'
                have apart : t ≠ r.tag := fun same => free.apart live (same ▸ tag_mem_tags r)
                refine free_of_apart (by simpa [Mux.undone, apart] using free.undone)
                  (by simpa [Mux.undone] using free.unlost) fun q r' there => ?_
                rcases eq_or_ne q p with rfl | other
                · rcases there with ⟨same, -⟩
                  rw [setRec_self] at same
                  obtain rfl := Option.some.inj same
                  exact fun tag => free.apart live tag
                · exact free.apart ((Live.congr (setRec_other _ _ _ other)).mp there)

end Mounts

end Ipnx.Mnt
