import Ipnx.Mnt.Reader

/-!
# Who reads a wire next

In every run in which a call comes back to the RPC that it left, and no tag is handed out
that somebody has, a wire that nobody reads is read next by one of those who wait on it. A
call that goes on after one of its RPCs has failed is taken to be in that RPC still, is on
no queue, and sleeps for a reply that nobody reads.
-/

namespace Ipnx.Mnt

open List

variable {κ : Type} [DecidableEq κ]

namespace Mounts

variable {w w' : Mounts κ} {p q : Pid} {k : κ} {r : Rpc κ} {out : Outcome}

/-- The process's call has nothing under way that has gone: an RPC that failed, or one
whose request was never queued. -/
def Done (w : Mounts κ) (p : Pid) : Prop :=
  ∀ r, w.recs p = some r → r.finished = true ∨ r.sent = false

/-- What has to hold of a step. A tag that a process is given nobody has, and a call that
sleeps in an RPC comes back to it: it neither ends nor sends anything else first, and once
an RPC of its that had gone has failed it sends nothing more. -/
def Kept (w : Mounts κ) : MntAct κ → Prop
  | .rpc p k version =>
    (∀ r, w.recs p = some r → r.sent = false ∧ (w.setRec p none).Free k r.tag) ∧
      (w.recs p = none → if version then w.Free k notag else w.Clear k)
  | .send p k _ | .sendflush p k _ => w.Returns p k
  | .mountio p k rd => w.Returns p k ∧ (w.notepending p = true ∨ rd = .eintr → w.Clear k)
  | .endcall p => w.Done p
  | .forget p _ => ∀ k, (w.muxes k).rip = none → w.Sole p k → ∀ q, q ≠ p → ¬w.Waits q k
  | _ => True

omit [DecidableEq κ] in
theorem Done.not_waits (done : w.Done p) (k : κ) : ¬w.Waits p k := by
  rintro ⟨r', live, lined, -⟩
  rcases done r' live.1 with finished | unsent
  · rw [live.2.2] at finished
    cases finished
  · simp [Rpc.lined, unsent] at lined

omit [DecidableEq κ] in
theorem Done.unqueued (done : w.Done p) (inv : w.Inv) (k : κ) (t : Tag) :
    (t, some p) ∉ (w.muxes k).queue := by
  intro member
  rcases (inv.core.mine p).queued k t member with ⟨r', live, -⟩
  rcases done r' live.1 with finished | unsent
  · rw [live.2.2] at finished
    cases finished
  · refine inv.core.unqueued (fun r'' found' => ?_) k t member
    obtain rfl := Option.some.inj (live.1.symm.trans found')
    exact unsent

omit [DecidableEq κ] in
theorem Inv.endcall (inv : w.Inv) (done : w.Done p) : (w.endcall p).Inv := by
  cases found : w.recs p with
  | none =>
      have bare : w.endcall p = w := by
        simp only [Mounts.endcall, setRec, ← found, Function.update_eq_self]
      rw [bare]
      exact inv
  | some r =>
      have waiting := done.not_waits
      have reads (k : κ) : w.status p ≠ .reading k := fun reading =>
        waiting k (((inv.held k).rips p ((inv.held k).reading p reading)).1)
      have touch : Touch w (w.endcall p) p r.on (fun _ => False) :=
        (Touch.refl (fun _ _ _ _ _ _ => id) fun _ _ => id).setRec none
      have idle : ∀ k r, ¬(w.endcall p).Live p k r := idle_of_none (setRec_self _ _ _)
      refine touch.inv inv (.idle idle ?_ (done.unqueued inv) ?_) (inv.core.tidy r.on)
        (fun k r' _ live => absurd live (idle k r')) (fun k _ => waiting k)
        (fun k reading => absurd reading (reads k))
        (touch.held (inv.held r.on) rfl ?_ ?_ ?_ ?_)
      · intro sleeps
        rcases (inv.core.mine p).asleep sleeps with ⟨k, waits⟩
        exact waiting k waits
      · intro r' same
        simp [Mounts.endcall] at same
      · exact fun isRip => absurd isRip ((inv.held r.on).not_rip (waiting r.on))
      · exact fun reading => absurd reading (reads r.on)
      · exact fun _ waits => absurd waits (waiting r.on)
      · rintro - ⟨r', live, -⟩
        exact absurd live (idle r.on r')

omit [DecidableEq κ] in
theorem mem_orphan {mux : Mux} {t : Tag} {o : Option Pid} :
    (t, o) ∈ (orphan p mux).queue ↔
      o ≠ some p ∧ (t, o) ∈ mux.queue ∨ o = none ∧ (t, some p) ∈ mux.queue := by
  simp only [orphan, mem_map]
  constructor
  · rintro ⟨⟨s, o'⟩, member, same⟩
    split at same
    case isTrue mine =>
      obtain rfl : o' = some p := mine
      cases same
      exact .inr ⟨rfl, member⟩
    case isFalse other =>
      cases same
      exact .inl ⟨other, member⟩
  · rintro (⟨other, member⟩ | ⟨rfl, member⟩)
    · exact ⟨_, member, if_neg other⟩
    · exact ⟨_, member, if_pos rfl⟩

omit [DecidableEq κ] in
theorem orphan_tags (p : Pid) (mux : Mux) :
    (orphan p mux).queue.map Prod.fst = mux.queue.map Prod.fst := by
  rw [orphan, map_map]
  refine map_congr_left fun e _ => ?_
  simp only [Function.comp_apply]
  split <;> rfl

/-- A wire that the process has nothing on stays as it is. -/
theorem forgetAt_eq (unqueued : ∀ t, (t, some p) ∉ (w.muxes k).queue)
    (notRip : (w.muxes k).rip ≠ some p) : forgetAt p w k = w := by
  have same : orphan p (w.muxes k) = w.muxes k := by
    have queue : (w.muxes k).queue.map (fun e => if e.2 = some p then (e.1, none) else e) =
        (w.muxes k).queue := by
      refine (map_congr_left fun e member => if_neg fun mine => ?_).trans (map_id _)
      rcases e with ⟨t, o⟩
      obtain rfl : o = some p := mine
      exact unqueued t member
    rw [orphan, queue]
  rw [forgetAt, if_neg notRip]
  simp only [onMux, same, Function.update_eq_self]

theorem forgetAt_other (w : Mounts κ) (p : Pid) {k k' : κ} (other : k' ≠ k) :
    (forgetAt p w k).muxes k' = w.muxes k' := by
  rw [forgetAt]
  split_ifs
  · rw [gate_other _ other, onMux_other _ _ _ other]
  · rw [onMux_other _ _ _ other]

theorem forgetAt_self (w : Mounts κ) (p : Pid) (k : κ) :
    (forgetAt p w k).muxes k =
      { orphan p (w.muxes k) with
        rip := if (w.muxes k).rip = some p then none else (w.muxes k).rip }
      := by
  rw [forgetAt]
  dsimp only
  split_ifs
  · rw [gate_self, onMux_self]
  · rw [onMux_self]
    rfl

theorem forgetAt_recs (w : Mounts κ) (p : Pid) (k : κ) : (forgetAt p w k).recs = w.recs := by
  rw [forgetAt]
  split_ifs
  · rw [gate_recs, onMux_recs]
  · rfl

theorem forgetAt_status (w : Mounts κ) (p : Pid) (k : κ) (q : Pid) :
    (forgetAt p w k).status q = w.status q ∨ (forgetAt p w k).status q = .awake := by
  rw [forgetAt]
  split_ifs
  · exact gate_status _ k q
  · exact .inl rfl

/-- A process has something on one wire at most, and of the table's keys that one alone matters. -/
theorem forget_at (unqueued : ∀ k', k' ≠ k → ∀ t, (t, some p) ∉ (w.muxes k').queue)
    (notRip : ∀ k', k' ≠ k → (w.muxes k').rip ≠ some p) (keys : List κ) :
    keys.foldl (forgetAt p) w = if k ∈ keys then forgetAt p w k else w := by
  have again : forgetAt p (forgetAt p w k) k = forgetAt p w k := by
    apply forgetAt_eq
    · intro t member
      rw [forgetAt_self] at member
      rcases mem_orphan.mp member with ⟨mine, -⟩ | ⟨mine, -⟩
      · exact mine rfl
      · cases mine
    · rw [forgetAt_self]
      dsimp only
      split_ifs with isRip
      · exact nofun
      · exact isRip
  have rest (keys : List κ) : keys.foldl (forgetAt p) (forgetAt p w k) = forgetAt p w k := by
    refine foldl_fixed' (fun k' => ?_) keys
    rcases eq_or_ne k' k with rfl | other
    · exact again
    · apply forgetAt_eq
      · rw [forgetAt_other _ _ other]
        exact unqueued k' other
      · rw [forgetAt_other _ _ other]
        exact notRip k' other
  induction keys with
  | nil => rfl
  | cons k' keys ih =>
      rw [foldl_cons]
      rcases eq_or_ne k' k with rfl | other
      · rw [if_pos mem_cons_self, rest]
      · rw [forgetAt_eq (unqueued k' other) (notRip k' other), ih]
        simp only [mem_cons, other.symm, false_or]

/-- A process that has sent dies: its entries are nobody's, and its reading is handed on. -/
theorem Inv.died (inv : w.Inv) (live : w.Live p k r)
    (left : (w.muxes k).rip = none → w.Sole p k → ∀ q, q ≠ p → ¬w.Waits q k) :
    ((forgetAt p (w.setRec p none) k).setStatus p .awake).Inv := by
  generalize died : (forgetAt p (w.setRec p none) k).setStatus p .awake = w'
  have recs : w'.recs = (w.setRec p none).recs := by
    rw [← died, setStatus_recs, forgetAt_recs]
  have away : ∀ k', k' ≠ k → w'.muxes k' = w.muxes k' := by
    intro k' other
    rw [← died, setStatus_muxes, forgetAt_other _ _ other, setRec_muxes]
  have mux : w'.muxes k = { orphan p (w.muxes k) with
      rip := if (w.muxes k).rip = some p then none else (w.muxes k).rip } := by
    rw [← died, setStatus_muxes, forgetAt_self, setRec_muxes]
  have awake : w'.status p = .awake := by rw [← died, setStatus_self]
  have status : ∀ q, q ≠ p → w'.status q = w.status q ∨ w'.status q = .awake := by
    intro q other
    rw [← died, setStatus_other _ _ _ other]
    exact forgetAt_status _ p k q
  let v := w'.onMux k fun m => { m with queue := (w.muxes k).queue.filter fun e => e.1 ∉ r.tags }
  have vmux : v.muxes k = { w.muxes k with
      queue := (w.muxes k).queue.filter fun e => e.1 ∉ r.tags
      rip := if (w.muxes k).rip = some p then none else (w.muxes k).rip } := by
    rw [onMux_self, mux]
    rfl
  have gone : v.recs p = none := by rw [onMux_recs, recs, setRec_self]
  have touch : Touch w v p k (· ∈ r.tags) := by
    refine ⟨fun q other => ?_, fun k' other => ?_, fun t other => ?_, fun t o _ member => ?_,
      inv.core.others live, fun t member => inv.core.lost k t member p r live, status⟩
    · rw [onMux_recs, recs, setRec_other _ _ _ other]
    · rw [onMux_other _ _ _ other, away k' other]
    · rw [vmux]
      exact ⟨rfl, fun o => by simp [other]⟩
    · rw [vmux] at member
      exact (mem_off.mp member).1
  have idle : ∀ k r, ¬v.Live p k r := idle_of_none gone
  have finished : ¬v.Waits p k := by
    rintro ⟨r', live', -⟩
    exact idle k r' live'
  have first : v.Inv := by
    refine inv.retired live touch awake idle ?_ ?_ ?_ ?_
    · intro r' found
      rw [gone] at found
      cases found
    · intro t member
      rw [vmux] at member
      exact (mem_off.mp member).symm
    · rw [vmux]
      exact (inv.core.tidy k).mono filter_sublist fun _ => id
    · by_cases isRip : (w.muxes k).rip = some p
      · have runs := ((inv.held k).rips p isRip).2
        refine touch.held_left inv runs isRip ?_ finished (by simp [v, awake]) ?_
        · rw [vmux]
          exact if_pos isRip
        · have gated : w' = (((w.setRec p none).onMux k (orphan p)).gate k).setStatus p .awake := by
            rw [← died, forgetAt, setRec_muxes, if_pos isRip]
          rcases ((w.setRec p none).onMux k (orphan p)).gate_woken k with
            nobody | ⟨t, q, member, sleeps, wakes⟩
          · left
            intro t q other member
            refine nobody t q ?_
            rw [onMux_self]
            exact mem_orphan.mpr (.inl ⟨by simpa using other, member⟩)
          · right
            rw [onMux_self] at member
            rcases mem_orphan.mp member with ⟨-, before⟩ | ⟨mine, -⟩
            · refine ⟨t, q, before, sleeps, ?_⟩
              have other : q ≠ p := by
                rintro rfl
                exact runs sleeps
              rw [onMux_status, gated, setStatus_other _ _ _ other]
              exact wakes
            · cases mine
      · refine touch.held_gone (inv.held k) ?_ isRip finished awake left
        rw [vmux]
        exact if_neg isRip
  refine first.orphaned (k := k) rfl rfl (fun k' other => (onMux_other _ _ _ other).symm)
      ?_ ?_ ?_ ?_
    fun t member => ?_
  · rw [vmux, mux]
  · rw [vmux, mux]
    rfl
  · intro t q
    rw [vmux, mux]
    refine mem_orphan.trans (.trans ?_ mem_off.symm)
    constructor
    · rintro (⟨other, member⟩ | ⟨mine, -⟩)
      · exact ⟨member, inv.core.entries_others live t (some q) other member⟩
      · cases mine
    · rintro ⟨member, apart⟩
      refine .inl ⟨?_, member⟩
      rintro ⟨⟩
      exact apart (inv.core.entries live k t member).2
  · rw [mux]
    exact (orphan_tags p _).symm ▸ (inv.core.tidy k).nodup
  · rw [mux] at member
    rcases mem_orphan.mp member with ⟨-, before⟩ | ⟨-, mine⟩
    · right
      rw [vmux]
      exact mem_off.mpr ⟨before, inv.core.lost k t before p r live⟩
    · left
      have tag := (inv.core.entries live k t mine).2
      refine free_of_apart ?_ ?_ fun q r' there => ?_
      · rw [vmux]
        by_contra put
        exact (inv.core.tidy k).parked t put _ mine
      · rw [vmux]
        exact fun member => (mem_off.mp member).2 tag
      · rcases eq_or_ne q p with rfl | other
        · exact absurd there (idle k r')
        · exact fun tag' => inv.core.others live q r' t other ((touch.live other).mp there) tag' tag

/-- A process that has nothing on a wire leaves them all as they are, and of the others' wires
the one that it has something on alone is changed. -/
theorem Inv.forget_cases (inv : w.Inv) {keys : List κ} (keyed : w.Keyed (.forget p keys)) :
    w.Done p ∧ w.forget p keys = w.endcall p ∨ ∃ k r, w.Live p k r ∧ r.sent = true ∧
      w.forget p keys = forgetAt p (w.setRec p none) k := by
  by_cases done : w.Done p
  · refine .inl ⟨done, foldl_fixed' (fun k => ?_) keys⟩
    have ended := inv.endcall done
    exact forgetAt_eq (done.unqueued inv k) ((inv.held k).not_rip (done.not_waits k))
  · right
    simp only [Done, not_forall, not_or, Bool.not_eq_true, Bool.not_eq_false] at done
    rcases done with ⟨r, found, unfinished, sent⟩
    have live : w.Live p r.on r := ⟨found, rfl, unfinished⟩
    have key : r.on ∈ keys := by
      by_contra unkeyed
      rcases (inv.core.mine p).awaited r.on r live sent with member | put
      · rw [keyed _ unkeyed] at member
        cases member
      · rw [keyed _ unkeyed] at put
        exact put rfl
    refine ⟨r.on, r, live, sent,
      (forget_at (fun k other t member => ?_) (fun k other isRip => ?_) keys).trans (if_pos key)⟩
    · exact other (inv.core.entries live k t member).1
    · rcases ((inv.held k).rips p isRip).1 with ⟨r', live', -⟩
      exact other (live.unique live').1.symm

theorem Inv.forget (inv : w.Inv) {keys : List κ} (keyed : w.Keyed (.forget p keys))
    (left : ∀ k, (w.muxes k).rip = none → w.Sole p k → ∀ q, q ≠ p → ¬w.Waits q k) :
    ((w.forget p keys).setStatus p .awake).Inv := by
  rcases inv.forget_cases keyed with ⟨done, same⟩ | ⟨k, r, live, -, same⟩
  · rw [same]
    exact (inv.endcall done).awaken p
  · rw [same]
    exact inv.died live (left k)

omit [DecidableEq κ] in
theorem inv_new : (new : Mounts κ).Inv := by
  have idle (p : Pid) : ∀ k r, ¬(new : Mounts κ).Live p k r := idle_of_none rfl
  refine ⟨⟨fun p => ?_, fun k => ⟨nodup_nil, ?_⟩, ?_, ?_⟩, fun k => ?_⟩
  · exact .idle (idle p) (by simp [new]) (by simp [new, Mux.new]) (by simp [new])
  · simp [new, Mux.new]
  · exact fun p q k r r' t live => absurd live (idle p k r)
  · exact fun k t _ p r live => absurd live (idle p k r)
  · refine ⟨?_, ?_, ?_⟩
    · simp [new, Mux.new]
    · simp [new]
    · rintro - q ⟨r, live, -⟩
      exact absurd live (idle q k r)

theorem Inv.step {a : MntAct κ} (inv : w.Inv) (kept : w.Kept a) (keyed : w.Keyed a)
    (moved : w.step a = some w') : w'.Inv := by
  cases a with
  | rpc p k version =>
      simp only [Mounts.step] at moved
      split at moved
      case isTrue awake =>
        refine inv_rpc inv awake kept.1 (fun none_ => ?_) moved
        have clear := kept.2 none_
        cases version with
        | true => exact clear
        | false => exact Clear.fresh clear
      case isFalse => cases moved
  | send p k io =>
      simp only [Mounts.step] at moved
      split at moved
      case isTrue awake =>
        rcases Option.map_eq_some_iff.mp moved with ⟨⟨_, out⟩, sends, rfl⟩
        exact inv_send inv awake kept sends
      case isFalse => cases moved
  | sendflush p k io =>
      simp only [Mounts.step] at moved
      split at moved
      case isTrue awake =>
        rcases Option.map_eq_some_iff.mp moved with ⟨⟨_, out⟩, sends, rfl⟩
        exact inv_sendflush inv awake kept sends
      case isFalse => cases moved
  | mountio p k rd =>
      simp only [Mounts.step] at moved
      split at moved
      case isTrue awake =>
        rcases Option.map_eq_some_iff.mp moved with ⟨⟨_, out⟩, passes, rfl⟩
        exact inv_mountio inv awake kept.1 (fun asks => (kept.2 asks).fresh) passes
      case isFalse => cases moved
  | endcall p =>
      obtain rfl := Option.some.inj moved
      exact inv.endcall kept
  | forget p keys =>
      obtain rfl := Option.some.inj moved
      exact inv.forget keyed kept
  | note p =>
      obtain rfl := Option.some.inj moved
      have noted : ({ w with notepending := Function.update w.notepending p true }).Inv :=
        inv.same rfl rfl rfl
      simp only [wakeup]
      split
      · exact noted.awaken p
      · exact noted
  | interrupted p =>
      obtain rfl := Option.some.inj moved
      exact inv.same rfl rfl rfl
  | wake p =>
      simp only [Mounts.step] at moved
      split at moved
      · obtain rfl := Option.some.inj moved
        exact inv.awaken p
      · obtain rfl := Option.some.inj moved
        exact inv.awaken p
      · cases moved
  | reply k m =>
      simp only [Mounts.step] at moved
      split at moved
      · cases moved
      · obtain rfl := Option.some.inj moved
        exact inv.same rfl rfl rfl
  | hangup k =>
      obtain rfl := Option.some.inj moved
      exact inv.same rfl rfl rfl

theorem inv_of_reach (reached : mounts.Reach Kept w) : w.Inv := by
  apply reached.invariant Inv
  · rintro s rfl
    exact inv_new
  · exact fun s a s' inv kept moved => inv.step kept moved.2 moved.1

/-- The process is to have a reply on the wire: it sleeps for one, or has sent what it has
to send and nothing has been read that ends its RPC. -/
def Expects (w : Mounts κ) (p : Pid) (k : κ) : Prop :=
  w.Waits p k ∨ w.status p = .mntrpc ∧ ∃ r, w.Live p k r

/-- Its next pass through the loop reads the wire, as the wire's reader. -/
def Reads (w : Mounts κ) (p : Pid) (k : κ) : Prop :=
  ∃ r, w.recs p = some r ∧
    ∀ rd, w.mountio p k rd = (w.onMux k ({ · with rip := some p })).mntrpcread p k r rd

theorem reads_of_waits (waits : w.Waits p k) (free : (w.muxes k).rip = none) : w.Reads p k := by
  rcases waits with ⟨r, live, lined, own, last⟩
  refine ⟨r, live.1, fun rd => ?_⟩
  simp [mountio, live.1, lined, own, answered, last, reader, free]

/-- Whoever sleeps reading a wire is its one reader; and where a wire has none, but a process
expects a reply there, one that waits runs and reads next. -/
structure Handed (w : Mounts κ) : Prop where
  reader : ∀ k p, w.status p = .reading k →
    (w.muxes k).rip = some p ∧ ∀ q, w.status q = .reading k → q = p
  next : ∀ k, (w.muxes k).rip = none → ∀ q, w.Expects q k →
    ∃ p, w.Waits p k ∧ w.status p = .awake ∧ w.Reads p k

def run (w : Mounts κ) : List (MntAct κ) → Option (Mounts κ)
  | [] => some w
  | a :: rest => (w.step a).bind fun w' => w'.run rest

theorem reach_run {ok : Mounts κ → MntAct κ → Prop} {as : List (MntAct κ)}
    (reached : mounts.Reach ok w) (ran : w.run as = some w')
    (allowed : ∀ v a, a ∈ as → ok v a ∧ v.Keyed a) : mounts.Reach ok w' := by
  induction as generalizing w with
  | nil =>
      obtain rfl := Option.some.inj ran
      exact reached
  | cons a rest ih =>
      rcases Option.bind_eq_some_iff.mp ran with ⟨v, moved, ran'⟩
      rcases allowed w a mem_cons_self with ⟨fine, keyed⟩
      exact ih (.step reached fine ⟨moved, keyed⟩) ran'
        fun v b member => allowed v b (mem_cons_of_mem _ member)

/-- Process 2 is interrupted while 1 reads the wire, and a second note comes as its `Tflush`
sleeps in the wire's write: its RPC fails. Its call goes on to clunk a fid; process 1 has
its reply and leaves. -/
def failing : List (MntAct Unit) :=
  [.rpc 1 () false, .send 1 () .ok, .mountio 1 () .slept,
    .rpc 2 () false, .send 2 () .ok, .mountio 2 () .slept,
    .note 2, .mountio 2 () .slept, .sendflush 2 () (.slept true),
    .note 2, .wake 2, .sendflush 2 () (.err true eintr), .interrupted 2,
    .rpc 2 () false, .sendflush 2 () .ok, .mountio 2 () .slept,
    .reply () ⟨1, 0⟩, .wake 1, .mountio 1 () .msg]

/-- What has to be seen of where it leads. -/
def Stranded (w : Mounts Unit) : Prop :=
  (w.muxes ()).rip = none ∧ w.status 2 = .mntrpc ∧ (w.recs 1).isNone = true ∧
    (w.recs 2).any (·.finished == false) = true

instance (w : Mounts Unit) : Decidable w.Stranded :=
  inferInstanceAs (Decidable (_ ∧ _ ∧ _ ∧ _))

end Mounts

end Ipnx.Mnt
