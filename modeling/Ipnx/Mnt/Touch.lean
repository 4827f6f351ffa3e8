import Ipnx.Mnt.Mux

/-!
# What each process and each wire keeps

An RPC's traces on its wire are found by its tags. An operation touches the tags of one
process on one wire, so what holds of every other process and wire is kept for one reason,
`Touch`, and only the process and the wire themselves are looked at.
-/

namespace Ipnx.Mnt

open List

variable {κ : Type}

namespace Mux

def Same (m m' : Mux) (t : Tag) : Prop :=
  m'.done t = m.done t ∧ ∀ o, (t, o) ∈ m'.queue ↔ (t, o) ∈ m.queue

/-- A tag is on the queue once, or its reply is put aside. -/
structure Tidy (m : Mux) : Prop where
  nodup : (m.queue.map Prod.fst).Nodup
  parked : ∀ t, m.done t ≠ none → ∀ o, (t, o) ∉ m.queue

namespace Tidy

variable {m m' : Mux} {t : Tag} {p : Pid}

theorem mono (tidy : m.Tidy) (queue : m'.queue.Sublist m.queue)
    (done : ∀ t, m'.done t ≠ none → m.done t ≠ none) : m'.Tidy where
  nodup := tidy.nodup.sublist (queue.map _)
  parked t put o member := tidy.parked t (done t put) o (queue.subset member)

theorem push (tidy : m.Tidy) (undone : m.done t = none) (unqueued : ∀ o, (t, o) ∉ m.queue) :
    (m.push t p).Tidy where
  nodup := by
    simp only [Mux.push, map_append, map_cons, map_nil, nodup_append,
      nodup_cons, mem_singleton, mem_map]
    refine ⟨tidy.nodup, by simp, ?_⟩
    rintro _ ⟨⟨t', o⟩, member, rfl⟩ _ rfl rfl
    exact unqueued o member
  parked t' put o member := by
    rcases mem_append.mp member with before | last
    · exact tidy.parked t' put o before
    · obtain ⟨rfl, rfl⟩ : t' = t ∧ o = some p := by simpa using last
      exact put undone

theorem park (tidy : m.Tidy) (queue : m'.queue.Sublist m.queue) (left : ∀ o, (t, o) ∉ m'.queue)
    (done : ∀ t', t' ≠ t → m'.done t' = m.done t') : m'.Tidy where
  nodup := tidy.nodup.sublist (queue.map _)
  parked t' put o member := by
    rcases eq_or_ne t' t with rfl | other
    · exact left o member
    · exact tidy.parked t' (done t' other ▸ put) o (queue.subset member)

theorem not_mem_eraseP (tidy : m.Tidy) (o : Option Pid) : (t, o) ∉ m.queue.eraseP (·.1 == t) := by
  have nodup := tidy.nodup
  generalize m.queue = queue at nodup
  induction queue with
  | nil => simp
  | cons e rest ih =>
      simp only [map_cons, nodup_cons] at nodup
      rcases nodup with ⟨apart, nodup⟩
      rcases eq_or_ne e.1 t with rfl | other
      · simp only [eraseP_cons, beq_self_eq_true, cond_true]
        exact fun member => apart (mem_map.mpr ⟨_, member, rfl⟩)
      · have skip : (e.1 == t) = false := by simp [other]
        simp only [eraseP_cons, skip, cond_false, mem_cons, not_or]
        refine ⟨?_, ih nodup⟩
        rintro rfl
        exact other rfl

end Tidy

theorem mem_eraseP_iff {m : Mux} {t s : Tag} {o : Option Pid} (other : t ≠ s) :
    (t, o) ∈ m.queue.eraseP (·.1 == s) ↔ (t, o) ∈ m.queue := by
  rw [mem_eraseP_of_neg]
  simp [other]

end Mux

namespace Mounts

variable {w w' : Mounts κ} {p q : Pid} {k k' : κ} {r r' : Rpc κ} {t : Tag} {mine : Tag → Prop}

/-- The process has an RPC under way on the wire. -/
def Live (w : Mounts κ) (p : Pid) (k : κ) (r : Rpc κ) : Prop :=
  w.recs p = some r ∧ r.on = k ∧ r.finished = false

/-- It has sent what it has to send there, and what ends its RPC has not been read. -/
def Waits (w : Mounts κ) (p : Pid) (k : κ) : Prop :=
  ∃ r, w.Live p k r ∧ r.lined = true ∧ (w.muxes k).done r.tag = none ∧
    (w.muxes k).done r.newest = none

/-- Of those that wait on the wire nobody else runs. -/
def Sole (w : Mounts κ) (p : Pid) (k : κ) : Prop :=
  w.Waits p k ∧ w.status p = .awake ∧ ∀ q, q ≠ p → w.Waits q k → w.status q ≠ .awake

/-- An RPC under way on the wire has the tag, or a reply by it is put aside there. -/
def InUse (w : Mounts κ) (k : κ) (t : Tag) : Prop :=
  (w.muxes k).done t ≠ none ∨ ∃ p r, w.Live p k r ∧ t ∈ r.tags

/-- Nor is it on the queue for a process that is gone. -/
structure Free (w : Mounts κ) (k : κ) (t : Tag) : Prop where
  unused : ¬w.InUse k t
  unlost : (t, none) ∉ (w.muxes k).queue

theorem Free.undone (free : w.Free k t) : (w.muxes k).done t = none :=
  not_not.1 fun put => free.unused (.inl put)

theorem Free.apart (free : w.Free k t) (live : w.Live p k r) : t ∉ r.tags :=
  fun tag => free.unused (.inr ⟨p, r, live, tag⟩)

theorem free_of_apart (undone : (w.muxes k).done t = none) (unlost : (t, none) ∉ (w.muxes k).queue)
    (apart : ∀ p r, w.Live p k r → t ∉ r.tags) : w.Free k t := by
  refine ⟨?_, unlost⟩
  rintro (put | ⟨p, r, live, tag⟩)
  · exact put undone
  · exact apart p r live tag

structure Mine (w : Mounts κ) (p : Pid) : Prop where
  asleep : w.status p = .mntrpc → ∃ k, w.Waits p k
  writing : ∀ k k', w.status p = .writing k → ¬w.Waits p k'
  queued : ∀ k t, (t, some p) ∈ (w.muxes k).queue → ∃ r, w.Live p k r ∧ t ∈ r.tags
  nodup : ∀ k r, w.Live p k r → r.tags.Nodup
  awaited : ∀ k r, w.Live p k r → r.sent = true →
    (r.newest, some p) ∈ (w.muxes k).queue ∨ (w.muxes k).done r.newest ≠ none
  unflushed : ∀ r, w.recs p = some r → r.sent = false → r.flush.tags = []
  unsent : ∀ k r, w.Live p k r → r.sent = false →
    (w.muxes k).done r.tag = none ∧ ∀ o, (r.tag, o) ∉ (w.muxes k).queue

/-- What holds of all processes, the wires' queues and the replies put aside. -/
structure Core (w : Mounts κ) : Prop where
  mine : ∀ p, w.Mine p
  tidy : ∀ k, (w.muxes k).Tidy
  apart : ∀ p q k r r' t, w.Live p k r → w.Live q k r' → t ∈ r.tags → t ∈ r'.tags → p = q
  lost : ∀ k t, (t, none) ∈ (w.muxes k).queue → ∀ p r, w.Live p k r → t ∉ r.tags

/-- What holds of a wire's reader: it waits there, whoever sleeps reading is it, and where
there is none but somebody waits, one who waits runs. -/
structure Held (w : Mounts κ) (k : κ) : Prop where
  rips : ∀ p, (w.muxes k).rip = some p → w.Waits p k ∧ w.status p ≠ .mntrpc
  reading : ∀ p, w.status p = .reading k → (w.muxes k).rip = some p
  served : (w.muxes k).rip = none → ∀ q, w.Waits q k → ∃ p, w.Waits p k ∧ w.status p = .awake

structure Inv (w : Mounts κ) : Prop where
  core : w.Core
  held : ∀ k, w.Held k

/-- What changed is about tags of one process on one wire, and others may have been woken. -/
structure Touch (w w' : Mounts κ) (p : Pid) (k : κ) (mine : Tag → Prop) : Prop where
  recs : ∀ q, q ≠ p → w'.recs q = w.recs q
  away : ∀ k', k' ≠ k → w'.muxes k' = w.muxes k'
  same : ∀ t, ¬mine t → (w.muxes k).Same (w'.muxes k) t
  entries : ∀ t o, o ≠ some p → (t, o) ∈ (w'.muxes k).queue → (t, o) ∈ (w.muxes k).queue
  others : ∀ q r t, q ≠ p → w.Live q k r → t ∈ r.tags → ¬mine t
  lost : ∀ t, (t, none) ∈ (w.muxes k).queue → ¬mine t
  status : ∀ q, q ≠ p → w'.status q = w.status q ∨ w'.status q = .awake

theorem newest_mem_tags (r : Rpc κ) : r.newest ∈ r.tags := by
  simp only [Rpc.newest, Rpc.tags]
  cases last : r.flush.tags.getLast? with
  | none => simp
  | some f => simp [mem_of_getLast? last]

theorem tag_mem_tags (r : Rpc κ) : r.tag ∈ r.tags := mem_cons_self

theorem Live.unique (live : w.Live p k r) (live' : w.Live p k' r') : k = k' ∧ r = r' := by
  rcases live with ⟨found, rfl, -⟩
  rcases live' with ⟨found', rfl, -⟩
  rw [found] at found'
  cases found'
  exact ⟨rfl, rfl⟩

theorem Live.not_waits (live : w.Live p k r) (away : k' ≠ k) : ¬w.Waits p k' := by
  rintro ⟨r', live', -⟩
  exact away (live'.unique live).1

theorem Live.congr (same : w'.recs q = w.recs q) : w'.Live q k r ↔ w.Live q k r := by
  simp only [Live, same]

namespace Touch

variable (touch : Touch w w' p k mine)
include touch

theorem live (other : q ≠ p) : w'.Live q k' r ↔ w.Live q k' r :=
  Live.congr (touch.recs q other)

theorem same_of_live (other : q ≠ p) (live : w.Live q k' r) (tag : t ∈ r.tags) :
    (w.muxes k').Same (w'.muxes k') t := by
  rcases eq_or_ne k' k with rfl | away
  · exact touch.same t (touch.others q r t other live tag)
  · rw [touch.away k' away]
    exact ⟨rfl, fun _ => Iff.rfl⟩

theorem waits (other : q ≠ p) : w'.Waits q k' ↔ w.Waits q k' := by
  have same (r : Rpc κ) (live : w.Live q k' r) :
      (w'.muxes k').done r.tag = (w.muxes k').done r.tag ∧
        (w'.muxes k').done r.newest = (w.muxes k').done r.newest :=
    ⟨(touch.same_of_live other live (tag_mem_tags r)).1,
      (touch.same_of_live other live (newest_mem_tags r)).1⟩
  constructor
  · rintro ⟨r, live, lined, own, newest⟩
    have before := (touch.live other).mp live
    rcases same r before with ⟨sameOwn, sameNewest⟩
    exact ⟨r, before, lined, sameOwn ▸ own, sameNewest ▸ newest⟩
  · rintro ⟨r, live, lined, own, newest⟩
    rcases same r live with ⟨sameOwn, sameNewest⟩
    exact ⟨r, (touch.live other).mpr live, lined, sameOwn.trans own, sameNewest.trans newest⟩

/-- Another process sleeps where it did, or has been woken. -/
theorem still (other : q ≠ p) {st : Status κ} (now : w'.status q = st) (asleep : st ≠ .awake) :
    w.status q = st := by
  rcases touch.status q other with same | woken
  · exact same ▸ now
  · exact absurd (now.symm.trans woken) asleep

theorem runs (other : q ≠ p) (awake : w.status q = .awake) : w'.status q = .awake := by
  rcases touch.status q other with same | woken
  · exact same.trans awake
  · exact woken

theorem others_mine (other : q ≠ p) (kept : w.Mine q) : w'.Mine q where
  asleep sleeps := by
    rcases kept.asleep (touch.still other sleeps (by simp)) with ⟨k', waits⟩
    exact ⟨k', (touch.waits other).mpr waits⟩
  writing k' k'' writes waits :=
    kept.writing k' k'' (touch.still other writes (by simp)) ((touch.waits other).mp waits)
  queued k' t member := by
    have before : (t, some q) ∈ (w.muxes k').queue := by
      rcases eq_or_ne k' k with rfl | away
      · exact touch.entries t (some q) (by simpa using other) member
      · rwa [touch.away k' away] at member
    rcases kept.queued k' t before with ⟨r, live, tag⟩
    exact ⟨r, (touch.live other).mpr live, tag⟩
  nodup k' r live := kept.nodup k' r ((touch.live other).mp live)
  awaited k' r live sent := by
    have before := (touch.live other).mp live
    have same := touch.same_of_live other before (newest_mem_tags r)
    rcases kept.awaited k' r before sent with member | done
    · exact .inl ((same.2 _).mpr member)
    · exact .inr (same.1 ▸ done)
  unflushed r found := kept.unflushed r (touch.recs q other ▸ found)
  unsent k' r live unsent := by
    have before := (touch.live other).mp live
    have same := touch.same_of_live other before (tag_mem_tags r)
    rcases kept.unsent k' r before unsent with ⟨undone, unqueued⟩
    exact ⟨same.1.trans undone, fun o member => unqueued o ((same.2 o).mp member)⟩

theorem core (core : w.Core) (own : w'.Mine p) (tidy : (w'.muxes k).Tidy)
    (tags : ∀ k' r t, w'.Live p k' r → t ∈ r.tags → k' = k ∧ mine t) : w'.Core where
  mine q := by
    rcases eq_or_ne q p with rfl | other
    · exact own
    · exact touch.others_mine other (core.mine q)
  tidy k' := by
    rcases eq_or_ne k' k with rfl | away
    · exact tidy
    · rw [touch.away k' away]
      exact core.tidy k'
  apart q q' k' r r' t live live' tag tag' := by
    rcases eq_or_ne q p with rfl | other
    · rcases eq_or_ne q' q with rfl | other'
      · rfl
      · rcases tags k' r t live tag with ⟨rfl, own⟩
        exact absurd own (touch.others q' r' t other' ((touch.live other').mp live') tag')
    · rcases eq_or_ne q' p with rfl | other'
      · rcases tags k' r' t live' tag' with ⟨rfl, own⟩
        exact absurd own (touch.others q r t other ((touch.live other).mp live) tag)
      · exact core.apart q q' k' r r' t ((touch.live other).mp live) ((touch.live other').mp live')
          tag tag'
  lost k' t member q r live tag := by
    have before : (t, none) ∈ (w.muxes k').queue := by
      rcases eq_or_ne k' k with rfl | away
      · exact touch.entries t none nofun member
      · rwa [touch.away k' away] at member
    rcases eq_or_ne q p with rfl | other
    · rcases tags k' r t live tag with ⟨rfl, own⟩
      exact touch.lost t before own
    · exact core.lost k' t before q r ((touch.live other).mp live) tag

theorem rips (other : q ≠ p) (held : w.Held k') (rip : (w.muxes k').rip = some q) :
    w'.Waits q k' ∧ w'.status q ≠ .mntrpc := by
  rcases held.rips q rip with ⟨waits, woken⟩
  exact ⟨(touch.waits other).mpr waits, fun sleeps => woken (touch.still other sleeps (by simp))⟩

theorem reads (other : q ≠ p) (held : w.Held k') (reading : w'.status q = .reading k') :
    (w.muxes k').rip = some q := held.reading q (touch.still other reading (by simp))

theorem away_held (away : k' ≠ k) (held : w.Held k') (before : ¬w.Waits p k')
    (after : ¬w'.Waits p k') (reads : w'.status p ≠ .reading k') : w'.Held k' where
  rips q rip := by
    rw [touch.away k' away] at rip
    refine touch.rips ?_ held rip
    rintro rfl
    exact before (held.rips q rip).1
  reading q reading := by
    rw [touch.away k' away]
    refine touch.reads ?_ held reading
    rintro rfl
    exact reads reading
  served free q waits := by
    rw [touch.away k' away] at free
    have other : q ≠ p := by
      rintro rfl
      exact after waits
    rcases held.served free q ((touch.waits other).mp waits) with ⟨token, tokenWaits, awake⟩
    have apart : token ≠ p := by
      rintro rfl
      exact before tokenWaits
    exact ⟨token, (touch.waits apart).mpr tokenWaits, touch.runs apart awake⟩

theorem held (held : w.Held k) (rip : (w'.muxes k).rip = (w.muxes k).rip)
    (rips : (w.muxes k).rip = some p → w'.Waits p k ∧ w'.status p ≠ .mntrpc)
    (reading : w'.status p = .reading k → (w.muxes k).rip = some p)
    (before : (w.muxes k).rip = none → w.Waits p k → w'.Waits p k)
    (after : (w.muxes k).rip = none → w'.Waits p k → w'.status p = .awake) : w'.Held k where
  rips q isRip := by
    rw [rip] at isRip
    rcases eq_or_ne q p with rfl | other
    · exact rips isRip
    · exact touch.rips other held isRip
  reading q reads := by
    rw [rip]
    rcases eq_or_ne q p with rfl | other
    · exact reading reads
    · exact touch.reads other held reads
  served free q waits := by
    rw [rip] at free
    rcases eq_or_ne q p with rfl | other
    · exact ⟨q, waits, after free waits⟩
    · rcases held.served free q ((touch.waits other).mp waits) with ⟨token, tokenWaits, awake⟩
      rcases eq_or_ne token p with rfl | apart
      · have still := before free tokenWaits
        exact ⟨token, still, after free still⟩
      · exact ⟨token, (touch.waits apart).mpr tokenWaits, touch.runs apart awake⟩

theorem held_left (inv : w.Inv) (awake : w.status p ≠ .mntrpc)
    (isRip : (w.muxes k).rip = some p) (free : (w'.muxes k).rip = none) (finished : ¬w'.Waits p k)
    (reads : w'.status p ≠ .reading k)
    (woken : (∀ t q, q ≠ p → (t, some q) ∈ (w.muxes k).queue → w.status q ≠ .mntrpc) ∨
      ∃ t q, (t, some q) ∈ (w.muxes k).queue ∧ w.status q = .mntrpc ∧ w'.status q = .awake) :
    w'.Held k where
  rips q isRip' := by
    rw [free] at isRip'
    cases isRip'
  reading q reading := by
    have other : q ≠ p := by
      rintro rfl
      exact reads reading
    have asRip := touch.reads other (inv.held k) reading
    rw [isRip] at asRip
    exact absurd (Option.some.inj asRip).symm other
  served _ q waits := by
    have other : q ≠ p := by
      rintro rfl
      exact finished waits
    have waited := (touch.waits other).mp waits
    rcases woken with nobody | ⟨t, token, queued, sleeps, wakes⟩
    · refine ⟨q, waits, touch.runs other ?_⟩
      cases state : w.status q with
      | awake => rfl
      | mntrpc =>
          rcases waited with ⟨r, live, lined, -, newest⟩
          have sent := Rpc.sent_of_lined lined
          rcases (inv.core.mine q).awaited k r live sent with member | done
          · exact absurd state (nobody _ q other member)
          · exact absurd newest done
      | reading k' =>
          have asRip := (inv.held k').reading q state
          rcases ((inv.held k').rips q asRip).1 with ⟨r, live, -⟩
          rcases waited with ⟨r', live', -⟩
          rcases live.unique live' with ⟨rfl, -⟩
          rw [isRip] at asRip
          exact absurd (Option.some.inj asRip).symm other
      | writing k' => exact absurd waited ((inv.core.mine q).writing k' k state)
    · rcases (inv.core.mine token).queued k t queued with ⟨r, live, -⟩
      rcases (inv.core.mine token).asleep sleeps with ⟨k', there⟩
      have apart : token ≠ p := by
        rintro rfl
        exact awake sleeps
      have here : w.Waits token k := by
        rcases there with ⟨r', live', rest⟩
        rcases live.unique live' with ⟨rfl, rfl⟩
        exact ⟨r, live', rest⟩
      exact ⟨token, (touch.waits apart).mpr here, wakes⟩

theorem held_gone (held : w.Held k) (rip : (w'.muxes k).rip = (w.muxes k).rip)
    (notRip : (w.muxes k).rip ≠ some p) (finished : ¬w'.Waits p k) (awake : w'.status p = .awake)
    (left : (w.muxes k).rip = none → w.Sole p k → ∀ q, q ≠ p → ¬w.Waits q k) : w'.Held k where
  rips q isRip := by
    rw [rip] at isRip
    refine touch.rips ?_ held isRip
    rintro rfl
    exact notRip isRip
  reading q reads := by
    rw [rip]
    refine touch.reads ?_ held reads
    rintro rfl
    rw [awake] at reads
    cases reads
  served free q waits := by
    rw [rip] at free
    have other : q ≠ p := by
      rintro rfl
      exact finished waits
    have waited := (touch.waits other).mp waits
    have token : ∃ token, token ≠ p ∧ w.Waits token k ∧ w.status token = .awake := by
      rcases held.served free q waited with ⟨token, there, runs⟩
      rcases eq_or_ne token p with rfl | apart
      · by_contra nobody
        refine left free ⟨there, runs, fun q apart waits runs => ?_⟩ q other waited
        exact nobody ⟨q, apart, waits, runs⟩
      · exact ⟨token, apart, there, runs⟩
    rcases token with ⟨token, apart, there, runs⟩
    exact ⟨token, (touch.waits apart).mpr there, touch.runs apart runs⟩

theorem inv (inv : w.Inv) (own : w'.Mine p) (tidy : (w'.muxes k).Tidy)
    (tags : ∀ k' r t, w'.Live p k' r → t ∈ r.tags → k' = k ∧ mine t)
    (before : ∀ k', k' ≠ k → ¬w.Waits p k')
    (reads : ∀ k', w'.status p = .reading k' → k' = k) (held : w'.Held k) : w'.Inv where
  core := touch.core inv.core own tidy tags
  held k' := by
    rcases eq_or_ne k' k with rfl | away
    · exact held
    · apply touch.away_held away (inv.held k') (before k' away)
      · rintro ⟨r, live, -⟩
        exact away (tags k' r _ live (tag_mem_tags r)).1
      · exact fun reading => away (reads k' reading)

theorem setRec (ro : Option (Rpc κ)) : Touch w (w'.setRec p ro) p k mine where
  __ := touch
  recs q other := (w'.setRec_other p ro other).trans (touch.recs q other)

theorem setStatus (s : Status κ) : Touch w (w'.setStatus p s) p k mine where
  __ := touch
  status q other := by
    rw [w'.setStatus_other p s other]
    exact touch.status q other

theorem wake (q : Pid) : Touch w (w'.setStatus q .awake) p k mine where
  __ := touch
  status q' other := by
    rcases eq_or_ne q' q with rfl | apart
    · exact .inr (w'.setStatus_self q' .awake)
    · rw [w'.setStatus_other q .awake apart]
      exact touch.status q' other

theorem onMux [DecidableEq κ] (f : Mux → Mux)
    (same : ∀ t, ¬mine t → (w'.muxes k).Same (f (w'.muxes k)) t)
    (entries : ∀ t o, o ≠ some p → (t, o) ∈ (f (w'.muxes k)).queue →
      (t, o) ∈ (w'.muxes k).queue) : Touch w (w'.onMux k f) p k mine where
  __ := touch
  away k' away := (w'.onMux_other k f away).trans (touch.away k' away)
  same t other := by
    rw [w'.onMux_self]
    exact ⟨(same t other).1.trans (touch.same t other).1,
      fun o => ((same t other).2 o).trans ((touch.same t other).2 o)⟩
  entries t o other member := by
    rw [w'.onMux_self] at member
    exact touch.entries t o other (entries t o other member)

end Touch

theorem Touch.congr {v : Mounts κ} (touch : Touch w v p k mine) (muxes : w'.muxes = v.muxes)
    (recs : w'.recs = v.recs) (status : w'.status = v.status) : Touch w w' p k mine := by
  refine ⟨?_, ?_, ?_, ?_, touch.others, touch.lost, ?_⟩
  · simpa only [recs] using touch.recs
  · simpa only [muxes] using touch.away
  · simpa only [muxes] using touch.same
  · simpa only [muxes] using touch.entries
  · simpa only [status] using touch.status

theorem Touch.refl (others : ∀ q r t, q ≠ p → w.Live q k r → t ∈ r.tags → ¬mine t)
    (lost : ∀ t, (t, none) ∈ (w.muxes k).queue → ¬mine t) : Touch w w p k mine where
  recs _ _ := rfl
  away _ _ := rfl
  same _ _ := ⟨rfl, fun _ => Iff.rfl⟩
  entries _ _ _ member := member
  others := others
  lost := lost
  status _ _ := .inl rfl

theorem Mine.idle (idle : ∀ k r, ¬w.Live p k r) (awake : w.status p ≠ .mntrpc)
    (unqueued : ∀ k t, (t, some p) ∉ (w.muxes k).queue)
    (unflushed : ∀ r, w.recs p = some r → r.sent = false → r.flush.tags = []) : w.Mine p where
  asleep sleeps := absurd sleeps awake
  writing _ k' _ waits := by
    rcases waits with ⟨r, live, -⟩
    exact idle k' r live
  queued k t member := absurd member (unqueued k t)
  nodup k r live := absurd live (idle k r)
  awaited k r live := absurd live (idle k r)
  unflushed := unflushed
  unsent k r live := absurd live (idle k r)

theorem Core.others (core : w.Core) (live : w.Live p k r) :
    ∀ q r' t, q ≠ p → w.Live q k r' → t ∈ r'.tags → ¬t ∈ r.tags :=
  fun q r' t other live' tag' tag => other (core.apart q p k r' r t live' live tag' tag)

theorem Core.touch (core : w.Core) (live : w.Live p k r) : Touch w w p k (· ∈ r.tags) :=
  .refl (core.others live) fun t member => core.lost k t member p r live

theorem Inv.woken (inv : w.Inv) (muxes : w'.muxes = w.muxes) (recs : w'.recs = w.recs)
    (status : ∀ q, w'.status q = w.status q ∨ w'.status q = .awake) : w'.Inv := by
  have live (q : Pid) (k : κ) (r : Rpc κ) : w'.Live q k r ↔ w.Live q k r :=
    Live.congr (congrFun recs q)
  have waits (q : Pid) (k : κ) : w'.Waits q k ↔ w.Waits q k := by simp only [Waits, live, muxes]
  have still {q : Pid} {s : Status κ} (now : w'.status q = s) (asleep : s ≠ .awake) :
      w.status q = s := by
    rcases status q with same | awake
    · exact same ▸ now
    · exact absurd (now.symm.trans awake) asleep
  refine ⟨⟨fun q => ?_, fun k => ?_, fun q q' k r r' t => ?_, ?_⟩, fun k => ?_⟩
  · have mine := inv.core.mine q
    refine ⟨fun sleeps => ?_, fun k k' writes => ?_, ?_, ?_, ?_, ?_, ?_⟩
    · rcases mine.asleep (still sleeps (by simp)) with ⟨k, there⟩
      exact ⟨k, (waits q k).mpr there⟩
    · rw [waits q k']
      exact mine.writing k k' (still writes (by simp))
    · simpa only [live, muxes] using mine.queued
    · simpa only [live] using mine.nodup
    · simpa only [live, muxes] using mine.awaited
    · simpa only [recs] using mine.unflushed
    · simpa only [live, muxes] using mine.unsent
  · rw [muxes]
    exact inv.core.tidy k
  · simpa only [live] using inv.core.apart q q' k r r' t
  · simpa only [live, muxes] using inv.core.lost
  · have held := inv.held k
    refine ⟨fun q rip => ?_, fun q reads => ?_, fun free q there => ?_⟩
    · rw [muxes] at rip
      rcases held.rips q rip with ⟨there, awake⟩
      exact ⟨(waits q k).mpr there, fun sleeps => awake (still sleeps (by simp))⟩
    · rw [muxes]
      exact held.reading q (still reads (by simp))
    · rw [muxes] at free
      rcases held.served free q ((waits q k).mp there) with ⟨token, tokenWaits, awake⟩
      refine ⟨token, (waits token k).mpr tokenWaits, ?_⟩
      rcases status token with same | awake'
      · exact same.trans awake
      · exact awake'

theorem Inv.awaken (inv : w.Inv) (p : Pid) : (w.setStatus p .awake).Inv := by
  refine inv.woken rfl rfl fun q => ?_
  rcases eq_or_ne q p with rfl | other
  · exact .inr (setStatus_self _ _ _)
  · exact .inl (setStatus_other _ _ _ other)

/-- Nothing but what is on a queue for processes that are gone has changed. -/
theorem Inv.orphaned (inv : w.Inv) (recs : w'.recs = w.recs) (status : w'.status = w.status)
    (away : ∀ k', k' ≠ k → w'.muxes k' = w.muxes k') (rip : (w'.muxes k).rip = (w.muxes k).rip)
    (done : (w'.muxes k).done = (w.muxes k).done)
    (owned : ∀ t q, (t, some q) ∈ (w'.muxes k).queue ↔ (t, some q) ∈ (w.muxes k).queue)
    (nodup : ((w'.muxes k).queue.map Prod.fst).Nodup)
    (lost : ∀ t, (t, none) ∈ (w'.muxes k).queue → w.Free k t ∨ (t, none) ∈ (w.muxes k).queue) :
    w'.Inv := by
  have live (q : Pid) (k' : κ) (r : Rpc κ) : w'.Live q k' r ↔ w.Live q k' r :=
    Live.congr (congrFun recs q)
  have dones (k' : κ) : (w'.muxes k').done = (w.muxes k').done := by
    rcases eq_or_ne k' k with rfl | other
    · exact done
    · rw [away k' other]
  have rips (k' : κ) : (w'.muxes k').rip = (w.muxes k').rip := by
    rcases eq_or_ne k' k with rfl | other
    · exact rip
    · rw [away k' other]
  have owner (k' : κ) (t : Tag) (q : Pid) :
      (t, some q) ∈ (w'.muxes k').queue ↔ (t, some q) ∈ (w.muxes k').queue := by
    rcases eq_or_ne k' k with rfl | other
    · exact owned t q
    · rw [away k' other]
  have gone (k' : κ) (t : Tag) (member : (t, none) ∈ (w'.muxes k').queue) :
      (∀ q r, w.Live q k' r → t ∉ r.tags) ∧ (w.muxes k').done t = none := by
    have before (member : (t, none) ∈ (w.muxes k').queue) :
        (∀ q r, w.Live q k' r → t ∉ r.tags) ∧ (w.muxes k').done t = none := by
      refine ⟨inv.core.lost k' t member, ?_⟩
      by_contra put
      exact (inv.core.tidy k').parked t put none member
    rcases eq_or_ne k' k with rfl | other
    · rcases lost t member with free | member
      · exact ⟨fun q r there => free.apart there, free.undone⟩
      · exact before member
    · rw [away k' other] at member
      exact before member
  have waits (q : Pid) (k' : κ) : w'.Waits q k' ↔ w.Waits q k' := by
    simp only [Waits, live, dones]
  refine ⟨⟨fun q => ?_, fun k' => ?_, ?_, ?_⟩, fun k' => ?_⟩
  · have mine := inv.core.mine q
    refine ⟨?_, ?_, ?_, ?_, ?_, ?_, fun k' r there unsent => ?_⟩
    · simpa only [status, waits] using mine.asleep
    · simpa only [status, waits] using mine.writing
    · simpa only [owner, live] using mine.queued
    · simpa only [live] using mine.nodup
    · simpa only [live, owner, dones] using mine.awaited
    · simpa only [recs] using mine.unflushed
    · have before := (live q k' r).mp there
      rcases mine.unsent k' r before unsent with ⟨undone, unqueued⟩
      refine ⟨dones k' ▸ undone, fun o member => ?_⟩
      cases o with
      | none => exact (gone k' _ member).1 q r before (tag_mem_tags r)
      | some q' => exact unqueued _ ((owner k' _ q').mp member)
  · refine ⟨?_, fun t put o member => ?_⟩
    · rcases eq_or_ne k' k with rfl | other
      · exact nodup
      · rw [away k' other]
        exact (inv.core.tidy k').nodup
    · rw [dones] at put
      cases o with
      | none => exact put (gone k' t member).2
      | some q => exact (inv.core.tidy k').parked t put _ ((owner k' t q).mp member)
  · simpa only [live] using inv.core.apart
  · intro k' t member q r there
    exact (gone k' t member).1 q r ((live q k' r).mp there)
  · have held := inv.held k'
    refine ⟨?_, ?_, ?_⟩
    · simpa only [rips, waits, status] using held.rips
    · simpa only [rips, status] using held.reading
    · simpa only [rips, waits, status] using held.served

theorem Mine.of_live (live : w.Live p k r) (asleep : w.status p = .mntrpc → w.Waits p k)
    (writing : ∀ k', w.status p = .writing k' → ¬w.Waits p k)
    (queued : ∀ k' t, (t, some p) ∈ (w.muxes k').queue → k' = k ∧ t ∈ r.tags)
    (nodup : r.tags.Nodup)
    (awaited : r.sent = true →
      (r.newest, some p) ∈ (w.muxes k).queue ∨ (w.muxes k).done r.newest ≠ none)
    (unsent : r.sent = false → r.flush.tags = [] ∧
      (w.muxes k).done r.tag = none ∧ ∀ o, (r.tag, o) ∉ (w.muxes k).queue) : w.Mine p where
  asleep sleeps := ⟨k, asleep sleeps⟩
  writing k' k'' writes waits := by
    rcases eq_or_ne k'' k with rfl | away
    · exact writing k' writes waits
    · exact live.not_waits away waits
  queued k' t member := by
    rcases queued k' t member with ⟨rfl, tag⟩
    exact ⟨r, live, tag⟩
  nodup k' r' live' := by
    rcases live.unique live' with ⟨rfl, rfl⟩
    exact nodup
  awaited k' r' live' := by
    rcases live.unique live' with ⟨rfl, rfl⟩
    exact awaited
  unflushed r' found sent := by
    obtain rfl : r = r' := Option.some.inj (live.1.symm.trans found)
    exact (unsent sent).1
  unsent k' r' live' sent := by
    rcases live.unique live' with ⟨rfl, rfl⟩
    exact (unsent sent).2

theorem Core.entries (core : w.Core) (live : w.Live p k r) :
    ∀ k' t, (t, some p) ∈ (w.muxes k').queue → k' = k ∧ t ∈ r.tags := by
  intro k' t member
  rcases (core.mine p).queued k' t member with ⟨r', live', tag⟩
  rcases live.unique live' with ⟨rfl, rfl⟩
  exact ⟨rfl, tag⟩

theorem Touch.inv_of_live (touch : Touch w w' p k mine) (inv : w.Inv) (live : w.Live p k r)
    (live' : w'.Live p k r') (tags : ∀ t ∈ r'.tags, mine t) (own : w'.Mine p)
    (tidy : (w'.muxes k).Tidy) (reads : ∀ k', w'.status p = .reading k' → k' = k)
    (held : w'.Held k) : w'.Inv := by
  refine touch.inv inv own tidy ?_ (fun k' away => live.not_waits away) reads held
  intro k' r'' t there tag
  rcases live'.unique there with ⟨rfl, rfl⟩
  exact ⟨rfl, tags t tag⟩

theorem Live.unread (live : w.Live p k r) (unlined : r.lined = false) (k' : κ) :
    ¬w.Waits p k' := by
  rintro ⟨r', live', lined, -⟩
  rcases live.unique live' with ⟨rfl, rfl⟩
  rw [unlined] at lined
  cases lined

theorem Held.not_rip (held : w.Held k) (busy : ¬w.Waits p k) : (w.muxes k).rip ≠ some p :=
  fun rip => busy (held.rips p rip).1

theorem Inv.marked (inv : w.Inv) (live : w.Live p k r) (awake : w.status p = .awake)
    (tag : r'.tag = r.tag) (sent : r'.sent = r.sent) (tags : r'.flush.tags = r.flush.tags)
    (on : r'.on = r.on) (finished : r'.finished = false)
    (lined : r.lined = true → r'.lined = true) :
    (w.setRec p (some r')).Inv := by
  have mine := inv.core.mine p
  have live' : (w.setRec p (some r')).Live p k r' := ⟨by simp, on.trans live.2.1, finished⟩
  have sameTags : r'.tags = r.tags := by simp [Rpc.tags, tag, tags]
  have newest : r'.newest = r.newest := by simp [Rpc.newest, tag, tags]
  have touch := (inv.core.touch live).setRec (some r')
  have still (waits : w.Waits p k) : (w.setRec p (some r')).Waits p k := by
    rcases waits with ⟨r'', there, isLined, own, last⟩
    rcases live.unique there with ⟨-, rfl⟩
    exact ⟨r', live', lined isLined, tag ▸ own, newest ▸ last⟩
  refine touch.inv_of_live inv live live' (fun t member => sameTags ▸ member)
    (.of_live live' ?_ ?_ ?_ ?_ ?_ ?_) (inv.core.tidy k) ?_
    (touch.held (inv.held k) rfl ?_ ?_ ?_ ?_)
  · simp [awake]
  · simp [awake]
  · simpa only [setRec_muxes, sameTags] using inv.core.entries live
  · simpa only [sameTags] using mine.nodup k r live
  · simpa only [setRec_muxes, sent, newest] using mine.awaited k r live
  · intro unsent
    rw [sent] at unsent
    rw [tags, tag]
    exact ⟨mine.unflushed r live.1 unsent, mine.unsent k r live unsent⟩
  · simp [awake]
  · intro rip
    refine ⟨still ((inv.held k).rips p rip).1, ?_⟩
    simp [awake]
  · simp [awake]
  · exact fun _ => still
  · exact fun _ _ => awake

theorem Inv.leaves (inv : w.Inv) (live : w.Live p k r) (s : Status κ)
    (sleeps : s = .mntrpc → w.Waits p k ∧ ∃ q, (w.muxes k).rip = some q ∧ q ≠ p)
    (writes : ∀ k', s = .writing k' → ¬w.Waits p k)
    (reads : ∀ k', s = .reading k' → k' = k ∧ (w.muxes k).rip = some p)  :
    (w.setStatus p s).Inv := by
  have mine := inv.core.mine p
  have live' : (w.setStatus p s).Live p k r := live
  have touch := (inv.core.touch live).setStatus s
  refine touch.inv_of_live inv live live' (fun t member => member)
    (.of_live live' ?_ ?_ (inv.core.entries live) (mine.nodup k r live) (mine.awaited k r live) ?_)
    (inv.core.tidy k) ?_ (touch.held (inv.held k) rfl ?_ ?_ ?_ ?_)
  · intro asleep
    rw [setStatus_self] at asleep
    exact (sleeps asleep).1
  · intro k' writing
    rw [setStatus_self] at writing
    exact writes k' writing
  · exact fun unsent => ⟨mine.unflushed r live.1 unsent, mine.unsent k r live unsent⟩
  · intro k' reading
    rw [setStatus_self] at reading
    exact (reads k' reading).1
  · intro rip
    refine ⟨((inv.held k).rips p rip).1, fun asleep => ?_⟩
    rw [setStatus_self] at asleep
    rcases (sleeps asleep).2 with ⟨q, isRip, other⟩
    rw [rip] at isRip
    exact other (Option.some.inj isRip).symm
  · intro reading
    rw [setStatus_self] at reading
    exact (reads k reading).2
  · exact fun _ waits => waits
  · intro free waits
    rw [setStatus_self]
    cases s with
    | awake => rfl
    | mntrpc =>
        rcases (sleeps rfl).2 with ⟨q, isRip, -⟩
        rw [free] at isRip
        cases isRip
    | reading k' =>
        have isRip := (reads k' rfl).2
        rw [free] at isRip
        cases isRip
    | writing k' => exact absurd waits (writes k' rfl)

theorem Inv.retired (inv : w.Inv) (live : w.Live p k r) (touch : Touch w w' p k (· ∈ r.tags))
    (awake : w'.status p = .awake) (idle : ∀ k r, ¬w'.Live p k r)
    (unflushed : ∀ r, w'.recs p = some r → r.sent = false → r.flush.tags = [])
    (queue : ∀ t, (t, some p) ∈ (w'.muxes k).queue → t ∉ r.tags ∧ (t, some p) ∈ (w.muxes k).queue)
    (tidy : (w'.muxes k).Tidy) (held : w'.Held k) : w'.Inv := by
  refine touch.inv inv (.idle idle ?_ ?_ unflushed) tidy
    (fun k' r' t there => absurd there (idle k' r')) (fun k' away => live.not_waits away) ?_ held
  · simp [awake]
  · intro k' t member
    rcases eq_or_ne k' k with rfl | away
    · rcases queue t member with ⟨apart, before⟩
      exact apart (inv.core.entries live k' t before).2
    · rw [touch.away k' away] at member
      exact away (inv.core.entries live k' t member).1
  · simp [awake]

theorem idle_of_none (none : w.recs p = none) (k : κ) (r : Rpc κ) : ¬w.Live p k r := by
  rintro ⟨found, -⟩
  rw [none] at found
  cases found

theorem idle_of_over (found : w.recs p = some r) (finished : r.finished = true) (k : κ)
    (r' : Rpc κ) : ¬w.Live p k r' := by
  rintro ⟨found', -, still⟩
  obtain rfl := Option.some.inj (found.symm.trans found')
  rw [finished] at still
  cases still

theorem Core.unqueued (core : w.Core) (unsent : ∀ r, w.recs p = some r → r.sent = false) (k : κ)
    (t : Tag) : (t, some p) ∉ (w.muxes k).queue := by
  intro member
  rcases (core.mine p).queued k t member with ⟨r, live, tag⟩
  have notSent := unsent r live.1
  have noflush := (core.mine p).unflushed r live.1 notSent
  obtain rfl : t = r.tag := by simpa [Rpc.tags, noflush] using tag
  exact ((core.mine p).unsent k r live notSent).2 _ member

theorem Core.not_waits_of_unsent (unsent : ∀ r, w.recs p = some r → r.sent = false) (k : κ) :
    ¬w.Waits p k := by
  rintro ⟨r, live, lined, -⟩
  simp [Rpc.lined, unsent r live.1] at lined

theorem Inv.begun (inv : w.Inv) (unsent : ∀ r, w.recs p = some r → r.sent = false)
    (awake : w.status p = .awake) (free : (w.setRec p none).Free k r.tag)
    (isUnsent : r.sent = false) (noflush : r.flush.tags = []) (live' : w'.Live p k r)
    (recs : ∀ q, q ≠ p → w'.recs q = w.recs q) (away : ∀ k', k' ≠ k → w'.muxes k' = w.muxes k')
    (queue : (w'.muxes k).queue = (w.muxes k).queue) (done : (w'.muxes k).done = (w.muxes k).done)
    (rip : (w'.muxes k).rip = (w.muxes k).rip) (status : w'.status = w.status) : w'.Inv := by
  have tags : r.tags = [r.tag] := by simp [Rpc.tags, noflush]
  have others : ∀ q r' t, q ≠ p → w.Live q k r' → t ∈ r'.tags → ¬t ∈ r.tags := by
    intro q r' t other live tag mine
    obtain rfl : t = r.tag := by simpa [tags] using mine
    exact free.apart ((Live.congr (w.setRec_other p none other)).mpr live) tag
  have lost : ∀ t, (t, none) ∈ (w.muxes k).queue → ¬t ∈ r.tags := by
    intro t member mine
    obtain rfl : t = r.tag := by simpa [tags] using mine
    exact free.unlost member
  have unqueued : ∀ k' t, (t, some p) ∉ (w'.muxes k').queue := by
    intro k' t
    rcases eq_or_ne k' k with rfl | other
    · rw [queue]
      exact inv.core.unqueued unsent k' t
    · rw [away k' other]
      exact inv.core.unqueued unsent k' t
  have idle := Core.not_waits_of_unsent unsent
  have touch : Touch w w' p k (· ∈ r.tags) := by
    refine ⟨recs, away, fun t _ => ⟨congrFun done t, fun o => by rw [queue]⟩, ?_, others, lost, ?_⟩
    · intro t o _ member
      rwa [queue] at member
    · exact fun q _ => .inl (congrFun status q)
  have isAwake : w'.status p = .awake := by rw [status, awake]
  have unlined : ¬w'.Waits p k := live'.unread (by simp [Rpc.lined, isUnsent]) k
  refine touch.inv inv (.of_live live' ?_ ?_ ?_ ?_ ?_ ?_) ?_ ?_ (fun k' _ => idle k') ?_
    (touch.held (inv.held k) rip ?_ ?_ ?_ ?_)
  · simp [isAwake]
  · simp [isAwake]
  · exact fun k' t member => absurd member (unqueued k' t)
  · simp [tags]
  · simp [isUnsent]
  · intro _
    refine ⟨noflush, by rw [done]; exact free.undone,
      fun o member => ?_⟩
    rw [queue] at member
    cases owner : o with
    | none =>
        subst o
        exact free.unlost member
    | some q =>
        subst o
        rcases (inv.core.mine q).queued k _ member with ⟨r', live, tag⟩
        have other : q ≠ p := by
          rintro rfl
          exact inv.core.unqueued unsent k _ member
        exact others q r' r.tag other live tag (tag_mem_tags r)
  · have tidy := inv.core.tidy k
    refine ⟨?_, ?_⟩
    · rw [queue]
      exact tidy.nodup
    · rw [queue, done]
      exact tidy.parked
  · intro k' r' t there tag
    rcases live'.unique there with ⟨rfl, rfl⟩
    exact ⟨rfl, tag⟩
  · simp [isAwake]
  · exact fun isRip => absurd isRip ((inv.held k).not_rip (idle k))
  · simp [isAwake]
  · exact fun _ waits => absurd waits (idle k)
  · exact fun _ _ => isAwake

theorem Inv.same (inv : w.Inv) (muxes : w'.muxes = w.muxes) (recs : w'.recs = w.recs)
    (status : w'.status = w.status) : w'.Inv :=
  inv.woken muxes recs fun q => .inl (congrFun status q)

theorem Inv.unsent_over (inv : w.Inv) (live : w.Live p k r) (awake : w.status p = .awake)
    (unsent : r.sent = false) (ro : Option (Rpc κ))
    (finished : ∀ r', ro = some r' → r'.finished = true ∧ r'.flush.tags = []) :
    (w.setRec p ro).Inv := by
  have waiting := live.unread (by simp [Rpc.lined, unsent]) k
  have touch := (inv.core.touch live).setRec ro
  have idle : ∀ k r, ¬(w.setRec p ro).Live p k r := by
    rintro k r ⟨found, -, still⟩
    rw [setRec_self] at found
    rw [(finished r found).1] at still
    cases still
  have unqueued := inv.core.unqueued (p := p)
    fun r' found => (Option.some.inj (live.1.symm.trans found)) ▸ unsent
  refine inv.retired live touch awake idle ?_ ?_ (inv.core.tidy k)
    (touch.held (inv.held k) rfl ?_ ?_ ?_ ?_)
  · intro r' found _
    rw [setRec_self] at found
    exact (finished r' found).2
  · exact fun t member => absurd member (unqueued k t)
  · exact fun rip => absurd rip ((inv.held k).not_rip waiting)
  · simp [awake]
  · exact fun _ waits => absurd waits waiting
  · exact fun _ _ => awake

def flushedBy (r : Rpc κ) (f : Tag) : Rpc κ :=
  { r with flush := { r.flush with tags := r.flush.tags ++ [f], sent := false } }

theorem newest_flushedBy (r : Rpc κ) (f : Tag) : (flushedBy r f).newest = f := by
  simp [Rpc.newest, flushedBy]

theorem tags_flushedBy (r : Rpc κ) (f : Tag) : (flushedBy r f).tags = r.tags ++ [f] := by
  simp [Rpc.tags, flushedBy]

theorem Inv.kept (inv : w.Inv) (live : w.Live p k r) (sent : r.sent = true)
    (touch : Touch w w' p k (· ∈ r.tags)) (live' : w'.Live p k r') (tag : r'.tag = r.tag)
    (tags : r'.flush.tags = r.flush.tags) (still : r'.sent = r.sent) (lined : r'.lined = r.lined)
    (newest : (w.muxes k).Same (w'.muxes k) r.newest)
    (own : (w.muxes k).done r.tag = none → (w'.muxes k).done r.tag = none)
    (entries : ∀ t, (t, some p) ∈ (w'.muxes k).queue → (t, some p) ∈ (w.muxes k).queue)
    (tidy : (w'.muxes k).Tidy) (rip : (w'.muxes k).rip = (w.muxes k).rip)
    (awake : w'.status p = .awake) : w'.Inv := by
  have mine := inv.core.mine p
  have sameTags : r'.tags = r.tags := by simp [Rpc.tags, tag, tags]
  have sameNewest : r'.newest = r.newest := by simp [Rpc.newest, tag, tags]
  have waits (before : w.Waits p k) : w'.Waits p k := by
    rcases before with ⟨r'', there, isLined, undone, last⟩
    rcases live.unique there with ⟨-, rfl⟩
    refine ⟨r', live', lined.trans isLined, ?_, ?_⟩
    · rw [tag]
      exact own undone
    · rw [sameNewest]
      exact newest.1.trans last
  refine touch.inv_of_live inv live live' (fun t member => sameTags ▸ member)
    (.of_live live' ?_ ?_ ?_ ?_ ?_ ?_) tidy ?_ (touch.held (inv.held k) rip ?_ ?_ ?_ ?_)
  · simp [awake]
  · simp [awake]
  · intro k' t member
    rw [sameTags]
    rcases eq_or_ne k' k with rfl | away
    · exact inv.core.entries live k' t (entries t member)
    · rw [touch.away k' away] at member
      exact inv.core.entries live k' t member
  · rw [sameTags]
    exact mine.nodup k r live
  · intro _
    rw [sameNewest, newest.1, newest.2]
    exact mine.awaited k r live sent
  · intro unsent
    rw [still, sent] at unsent
    cases unsent
  · simp [awake]
  · exact fun isRip => ⟨waits ((inv.held k).rips p isRip).1, by simp [awake]⟩
  · simp [awake]
  · exact fun _ => waits
  · exact fun _ _ => awake

/-- An interrupted RPC's own tag is not the one that ends it. -/
theorem tag_ne_newest (nodup : r.tags.Nodup) (flushing : r.flush.tags ≠ []) : r.newest ≠ r.tag := by
  intro same
  rcases nodup_cons.mp nodup with ⟨apart, -⟩
  apply apart
  rw [← same, Rpc.newest, List.getLast?_eq_some_getLast flushing]
  exact getLast_mem flushing

theorem Core.entries_others (core : w.Core) (live : w.Live p k r) :
    ∀ t o, o ≠ some p → (t, o) ∈ (w.muxes k).queue → t ∉ r.tags := by
  rintro t (_ | q) other member
  · exact core.lost k t member p r live
  · rcases (core.mine q).queued k t member with ⟨r', there, tag⟩
    exact core.others live q r' t (by simpa using other) there tag

end Mounts

end Ipnx.Mnt
