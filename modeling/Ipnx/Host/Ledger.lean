import Ipnx.Host.Given

/-!
# What a command's readers have been given

The server, with what each conversation's number stands for: what it was last given out for, the
command that started, and what reads of its files have been answered with since. What was given and
what is left of a conversation's files is what its command's threads have said, whatever happens,
unless a read comes back for a number that is another command's by then.
-/

namespace Ipnx.Host.Oscmd

open List
open Function (update)
open Ipnx.Ninep (Msg)
open Function (update_idem update_of_ne update_self)

/-- The server, and what reads of each conversation's files have been answered with. -/
structure Ledger where
  state : State
  asked : UInt32 → Option Cmd
  runs : UInt32 → Option Nat
  gave : UInt32 → Out → Bytes
  told : UInt32 → List Bytes
  flushed : UInt16 → Bool

namespace Ledger

variable (h : Ledger)

def new (threads : Nat → Threads) : Ledger :=
  ⟨.new threads, fun _ => none, fun _ => none, fun _ _ => [], fun _ => [], fun _ => false⟩

/-- What the reads of a conversation's command have brought. -/
def brought (n : UInt32) (i : Out) : Bytes :=
  match h.runs n with
  | some id => (h.state.threads id).brought i
  | none => []

/-- The records of the end of a conversation's command. -/
def ended (n : UInt32) : List Bytes :=
  match h.runs n with
  | some id => (h.state.threads id).ended
  | none => []

/-- What a step gives goes to what its conversation's number has been given since. -/
def hear (r : Option Given × State) (flushed : UInt16 → Bool) : Ledger :=
  { h with
    state := r.2
    gave := fun n i => h.gave n i ++ Given.bytesOf r.1 n i
    told := fun n => h.told n ++ Given.recsOf r.1 n
    flushed := flushed }

def start (n : UInt32) (cmd : Cmd) (bg : Bool) : Ledger :=
  { h with
    state := h.state.start n cmd bg
    asked := update h.asked n (some cmd)
    runs := update h.runs n none
    gave := update h.gave n fun _ => []
    told := update h.told n [] }

def spawned (started : Nat) : Ledger :=
  { h with
    runs := if h.state.started = started then h.runs
      else update h.runs (h.state.threads started).conv (some started) }

/-- A tag is flushed until it is used again. -/
def flushing (tag : UInt16) (req : Request) : UInt16 → Bool :=
  match req with
  | .flush (some old) => update (update h.flushed tag false) old true
  | _ => update h.flushed tag false

def act : Action → Ledger
  | .start n cmd bg => h.start n cmd bg
  | .submit m refused =>
      (h.hear (h.state.submit m.tag refused (.of m)).2 (h.flushing m.tag (.of m))).spawned
        h.state.started
  | a => h.hear (h.state.act a).2 h.flushed

end Ledger

/-- What the threads have said of a command is what they had, and more. -/
structure Threads.Says (t t' : Threads) (new : Out → Bytes) (recs : List Bytes) : Prop where
  cmd : t'.cmd = t.cmd
  conv : t'.conv = t.conv
  brought : ∀ i, t'.brought i = t.brought i ++ new i
  ended : t'.ended = t.ended ++ recs

namespace Ledger

/-- A conversation's part of what is kept: its command is the number's, and one that has not started
is to be the one asked for. -/
structure Fits (h : Ledger) (n : UInt32) (c : Conv) : Prop where
  bytes : ∀ i, h.gave n i ++ (c.out i).left = h.brought n i
  recs : h.told n ++ c.status = h.ended n
  child : ∀ id, c.child = some id → h.runs n = some id
  unstarted : ∀ cmd, c.cmd = some cmd →
    h.runs n = none ∧ c.child = none ∧ h.asked n = some cmd

/-- What is kept: and a command that is waited for is its conversation's. -/
structure Kept (h : Ledger) : Prop where
  fits : ∀ n c, h.state.convs n = some c → h.Fits n c
  given : ∀ n i, h.gave n i <+: h.brought n i
  told : ∀ n, h.told n <+: h.ended n
  runs : ∀ n id, h.runs n = some id → id < h.state.started ∧ (h.state.threads id).conv = n ∧
    h.asked n = some (h.state.threads id).cmd
  waits : ∀ id < h.state.started, (h.state.threads id).waits = true →
    ∃ c, h.state.convs (h.state.threads id).conv = some c ∧ c.child = some id
  flushed : ∀ tag, h.flushed tag = true → ¬ h.state.Waits tag ∧ ¬ h.state.Told tag

variable {h h' : Ledger}

theorem brought_congr {n : UInt32} (runs : h'.runs n = h.runs n)
    (threads : ∀ id, h.runs n = some id →
      (h'.state.threads id).brought = (h.state.threads id).brought) (i : Out) :
    h'.brought n i = h.brought n i := by
  unfold brought
  rw [runs]
  cases started : h.runs n with
  | none => rfl
  | some id => exact congrFun (threads id started) i

theorem ended_congr {n : UInt32} (runs : h'.runs n = h.runs n)
    (threads : ∀ id, h.runs n = some id →
      (h'.state.threads id).ended = (h.state.threads id).ended) :
    h'.ended n = h.ended n := by
  unfold ended
  rw [runs]
  cases started : h.runs n with
  | none => rfl
  | some id => exact threads id started

theorem Kept.gives {s' : State} {g : Option Given} {came : Option UInt16} (kept : h.Kept)
    (flushed : UInt16 → Bool) (moved : h.state.Gives s' g came)
    (quiet : ∀ tag, flushed tag = true →
      (h.flushed tag = true ∧ came ≠ some tag) ∨ ¬ s'.Waits tag ∧ ¬ s'.Told tag) :
    (h.hear (g, s') flushed).Kept := by
  have brought (n : UInt32) (i : Out) : (h.hear (g, s') flushed).brought n i = h.brought n i := by
    apply brought_congr
    · rfl
    · exact fun id _ => (moved.threads id).brought
  have ended (n : UInt32) : (h.hear (g, s') flushed).ended n = h.ended n := by
    apply ended_congr
    · rfl
    · exact fun id _ => (moved.threads id).ended
  refine ⟨?_, ?_, ?_, ?_, ?_, ?_⟩
  · intro n c' live'
    rcases moved.convs n with ⟨out, _⟩ | ⟨c, d, live, again, same⟩
    · rw [show s'.convs n = some c' from live'] at out
      cases out
    · cases again.symm.trans live'
      have fits := kept.fits n c live
      refine ⟨fun i => ?_, ?_, ?_, ?_⟩
      · rw [brought, ← fits.bytes i, ← same.bytes i]
        apply append_assoc
      · rw [ended, ← fits.recs, ← same.recs]
        apply append_assoc
      · intro id running
        exact fits.child id (same.child.symm.trans running)
      · intro cmd asked
        rcases fits.unstarted cmd (same.cmd.symm.trans asked) with ⟨none, idle, eq⟩
        exact ⟨none, same.child.trans idle, eq⟩
  · intro n i
    rw [brought]
    rcases moved.convs n with ⟨_, gone⟩ | ⟨c, d, live, _, same⟩
    · simp only [hear, gone.bytes i, append_nil]
      exact kept.given n i
    · rw [← (kept.fits n c live).bytes i, ← same.bytes i, ← append_assoc]
      exact prefix_append _ _
  · intro n
    rw [ended]
    rcases moved.convs n with ⟨_, gone⟩ | ⟨c, d, live, _, same⟩
    · simp only [hear, gone.recs, append_nil]
      exact kept.told n
    · rw [← (kept.fits n c live).recs, ← same.recs, ← append_assoc]
      exact prefix_append _ _
  · intro n id started
    rcases kept.runs n id started with ⟨below, conv, cmd⟩
    refine ⟨moved.started.symm ▸ below, (moved.threads id).conv.trans conv, ?_⟩
    exact cmd.trans (congrArg some (moved.threads id).cmd.symm)
  · intro id below waited
    have same := moved.threads id
    rcases kept.waits id (moved.started ▸ below) (same.waits.symm.trans waited) with
      ⟨c, live, running⟩
    rcases moved.convs (h.state.threads id).conv with ⟨_, gone⟩ | ⟨c', d, again, live', kept⟩
    · have idle := gone.child c live
      rw [running] at idle
      cases idle
    · cases live.symm.trans again
      refine ⟨d, ?_, kept.child.trans running⟩
      exact (congrArg s'.convs same.conv).trans live'
  · intro tag marked
    rcases quiet tag marked with ⟨before, other⟩ | clear
    · rcases kept.flushed tag before with ⟨unwaited, untold⟩
      constructor
      · intro waiting
        rcases moved.waits waiting with waited | came
        · exact unwaited waited
        · exact other came
      · intro told
        rcases moved.told tag told with told | waited | came
        · exact untold told
        · exact unwaited waited
        · exact other came
    · exact clear

theorem Kept.serves {s' : State} {g : Option Given} (kept : h.Kept)
    (moved : h.state.Gives s' g none) : (h.hear (g, s') h.flushed).Kept :=
  kept.gives h.flushed moved fun _ marked => .inl ⟨marked, nofun⟩

/-- A step of one number's conversation, which the others' commands have no part in. -/
structure Apart (h h' : Ledger) (n : UInt32) : Prop where
  convs : ∀ m ≠ n, h'.state.convs m = h.state.convs m
  asked : ∀ m ≠ n, h'.asked m = h.asked m
  runs : ∀ m ≠ n, h'.runs m = h.runs m
  gave : ∀ m ≠ n, h'.gave m = h.gave m
  told : ∀ m ≠ n, h'.told m = h.told m
  threads : ∀ m ≠ n, ∀ id, h.runs m = some id → h'.state.threads id = h.state.threads id
  started : h.state.started ≤ h'.state.started
  flushed : h'.flushed = h.flushed
  done : ∀ tag, h'.state.Told tag → h.state.Told tag

theorem Kept.apart {n : UInt32} (kept : h.Kept) (other : h.Apart h' n)
    (fits : ∀ c, h'.state.convs n = some c → h'.Fits n c)
    (given : ∀ i, h'.gave n i <+: h'.brought n i) (told : h'.told n <+: h'.ended n)
    (runs : ∀ id, h'.runs n = some id → id < h'.state.started ∧
      (h'.state.threads id).conv = n ∧ h'.asked n = some (h'.state.threads id).cmd)
    (waits : ∀ id < h'.state.started, (h'.state.threads id).waits = true →
      ∃ c, h'.state.convs (h'.state.threads id).conv = some c ∧ c.child = some id)
    (queued : ∀ c tag, h'.state.convs n = some c → c.Waits tag → h.state.Waits tag) :
    h'.Kept := by
  have brought (m : UInt32) (apart : m ≠ n) : h'.brought m = h.brought m := by
    funext i
    apply brought_congr
    · exact other.runs m apart
    · intro id started
      rw [other.threads m apart id started]
  have ended (m : UInt32) (apart : m ≠ n) : h'.ended m = h.ended m := by
    apply ended_congr
    · exact other.runs m apart
    · intro id started
      rw [other.threads m apart id started]
  refine ⟨?_, ?_, ?_, ?_, waits, ?_⟩
  · intro m c live
    by_cases same : m = n
    · exact same ▸ fits c (same ▸ live)
    · rw [other.convs m same] at live
      have before := kept.fits m c live
      refine ⟨?_, ?_, ?_, ?_⟩
      · rw [other.gave m same, brought m same]
        exact before.bytes
      · rw [other.told m same, ended m same]
        exact before.recs
      · rw [other.runs m same]
        exact before.child
      · rw [other.runs m same, other.asked m same]
        exact before.unstarted
  · intro m
    by_cases same : m = n
    · exact same ▸ given
    · rw [other.gave m same, brought m same]
      exact kept.given m
  · intro m
    by_cases same : m = n
    · exact same ▸ told
    · rw [other.told m same, ended m same]
      exact kept.told m
  · intro m id started
    by_cases same : m = n
    · exact same ▸ runs id (same ▸ started)
    · rw [other.runs m same] at started
      rcases kept.runs m id started with ⟨below, conv, cmd⟩
      rw [other.threads m same id started, other.asked m same]
      exact ⟨below.trans_le other.started, conv, cmd⟩
  · intro tag marked
    rw [other.flushed] at marked
    rcases kept.flushed tag marked with ⟨unwaited, untold⟩
    refine ⟨?_, fun made => untold (other.done tag made)⟩
    rintro ⟨m, c, live, waiting⟩
    by_cases same : m = n
    · exact unwaited (queued c tag (same ▸ live) waiting)
    · rw [other.convs m same] at live
      exact unwaited ⟨m, c, live, waiting⟩

theorem Kept.start {n : UInt32} (cmd : Cmd) (bg : Bool) (kept : h.Kept)
    (free : h.state.convs n = none) : (h.start n cmd bg).Kept := by
  have conv : (h.start n cmd bg).state.convs n = some (.new cmd bg) := update_self ..
  have unstarted : (h.start n cmd bg).runs n = none := update_self ..
  have gave : (h.start n cmd bg).gave n = fun _ => [] := update_self ..
  have told : (h.start n cmd bg).told n = [] := update_self ..
  have apart : h.Apart (h.start n cmd bg) n :=
    ⟨fun _ other => update_of_ne other .., fun _ other => update_of_ne other ..,
      fun _ other => update_of_ne other .., fun _ other => update_of_ne other ..,
      fun _ other => update_of_ne other .., fun _ _ _ _ => rfl, le_rfl, rfl, fun _ => id⟩
  apply kept.apart apart
  · intro c live
    cases conv.symm.trans live
    refine ⟨fun i => ?_, ?_, nofun, fun asked eq => ?_⟩
    · rw [gave]
      simp only [brought, unstarted]
      rfl
    · rw [told]
      simp only [ended, unstarted]
      rfl
    · cases eq
      exact ⟨unstarted, rfl, update_self ..⟩
  · intro i
    rw [gave]
    exact nil_prefix
  · rw [told]
    exact nil_prefix
  · intro id started
    cases unstarted.symm.trans started
  · intro id below waited
    rcases kept.waits id below waited with ⟨c, live, running⟩
    have other : (h.state.threads id).conv ≠ n := fun same => by
      rw [same, free] at live
      cases live
    exact ⟨c, (apart.convs _ other).trans live, running⟩
  · intro c tag live waiting
    cases conv.symm.trans live
    rcases waiting with ⟨_, queued⟩ | queued <;> cases queued

theorem Kept.spawn {n : UInt32} {c : Conv} {cmd : Cmd} (kept : h.Kept)
    (live : h.state.convs n = some c) (unstarted : c.cmd = some cmd) :
    ({ h with state := h.state.spawn n c cmd }.spawned h.state.started).Kept := by
  rcases (kept.fits n c live).unstarted cmd unstarted with ⟨none, idle, asked⟩
  have fresh (m : UInt32) (id : Nat) (started : h.runs m = some id) : id ≠ h.state.started :=
    fun eq => absurd (kept.runs m id started).1 (by omega)
  have thread : (h.state.spawn n c cmd).threads h.state.started = .new cmd n :=
    update_self ..
  have others (id : Nat) (other : id ≠ h.state.started) :
      (h.state.spawn n c cmd).threads id = h.state.threads id := update_of_ne other ..
  have conv : (h.state.spawn n c cmd).convs n = some (c.running h.state.started) :=
    update_self ..
  have runs : ({ h with state := h.state.spawn n c cmd }.spawned h.state.started).runs =
      update h.runs n (some h.state.started) := by
    have moved : (h.state.spawn n c cmd).started ≠ h.state.started := Nat.succ_ne_self _
    simp only [spawned, moved, if_false, thread]
    rfl
  have starts : ({ h with state := h.state.spawn n c cmd }.spawned h.state.started).runs n =
      some h.state.started := by rw [runs, update_self]
  have nothing (i : Out) : h.gave n i = [] ∧ (c.out i).left = [] := by
    have bytes := (kept.fits n c live).bytes i
    simp only [brought, none] at bytes
    exact append_eq_nil_iff.mp bytes
  have unended : h.told n = [] ∧ c.status = [] := by
    have recs := (kept.fits n c live).recs
    simp only [ended, none] at recs
    exact append_eq_nil_iff.mp recs
  refine kept.apart (n := n) ⟨?_, fun _ _ => rfl, ?_, fun _ _ => rfl, fun _ _ => rfl, ?_, ?_, rfl,
    fun _ => id⟩ ?_ ?_ ?_ ?_ ?_ ?_
  · exact fun m other => update_of_ne other ..
  · intro m other
    rw [runs, update_of_ne other]
  · exact fun m other id started => others id (fresh m id started)
  · exact Nat.le_succ _
  · intro d again
    cases conv.symm.trans again
    refine ⟨fun i => ?_, ?_, ?_, nofun⟩
    · simp only [brought, starts]
      exact (append_eq_nil_iff.mpr (nothing i)).trans
        (congrArg (fun t => t.brought i) thread.symm)
    · simp only [ended, starts]
      exact (append_eq_nil_iff.mpr unended).trans (congrArg Threads.ended thread.symm)
    · intro id eq
      cases eq
      exact starts
  · intro i
    change h.gave n i <+: _
    rw [(nothing i).1]
    exact nil_prefix
  · change h.told n <+: _
    rw [unended.1]
    exact nil_prefix
  · intro id started
    cases starts.symm.trans started
    refine ⟨Nat.lt_succ_self _, congrArg Threads.conv thread, ?_⟩
    exact asked.trans (congrArg (fun t => some t.cmd) thread.symm)
  · intro id below waited
    by_cases new : id = h.state.started
    · subst id
      refine ⟨c.running h.state.started, ?_, rfl⟩
      exact (congrArg (h.state.spawn n c cmd).convs (congrArg Threads.conv thread)).trans conv
    · have eq := others id new
      have waited : (h.state.threads id).waits = true :=
        (congrArg Threads.waits eq).symm.trans waited
      have before : id < h.state.started := by
        have below : id < h.state.started + 1 := below
        omega
      rcases kept.waits id before waited with ⟨d, live', running⟩
      have other : (h.state.threads id).conv ≠ n := fun same => by
        rw [same, live] at live'
        cases live'
        rw [idle] at running
        cases running
      refine ⟨d, ?_, running⟩
      refine (congrArg (h.state.spawn n c cmd).convs (congrArg Threads.conv eq)).trans ?_
      exact (update_of_ne other ..).trans live'
  · intro d tag again waiting
    cases conv.symm.trans again
    exact ⟨n, c, live, waiting⟩

theorem Kept.arrives {id : Nat} {t' : Threads} {new : Out → Bytes} {recs : List Bytes}
    {c c' : Conv} (kept : h.Kept) (said : (h.state.threads id).Says t' new recs)
    (live : h.state.convs t'.conv = some c) (own : h.runs t'.conv = some id)
    (cmd : c'.cmd = c.cmd) (left : ∀ i, (c'.out i).left = (c.out i).left ++ new i)
    (status : c'.status = c.status ++ recs)
    (child : c'.child = c.child ∧ t'.waits = (h.state.threads id).waits ∨
      c'.child = none ∧ t'.waits = false)
    (queued : ∀ tag, c'.Waits tag → c.Waits tag) :
    { h with state := (h.state.setThreads id t').setConv t'.conv (some c') }.Kept := by
  have thread : ((h.state.setThreads id t').setConv t'.conv (some c')).threads id = t' :=
    update_self ..
  have others (j : Nat) (other : j ≠ id) :
      ((h.state.setThreads id t').setConv t'.conv (some c')).threads j = h.state.threads j :=
    update_of_ne other ..
  have conv : ((h.state.setThreads id t').setConv t'.conv (some c')).convs t'.conv = some c' :=
    update_self ..
  have fits := kept.fits t'.conv c live
  rcases kept.runs t'.conv id own with ⟨below, _, asked⟩
  have brought (i : Out) :
      { h with state := (h.state.setThreads id t').setConv t'.conv (some c') }.brought t'.conv i =
        h.brought t'.conv i ++ new i := by
    simp only [brought, own, thread]
    exact said.brought i
  have ended :
      { h with state := (h.state.setThreads id t').setConv t'.conv (some c') }.ended t'.conv =
        h.ended t'.conv ++ recs := by
    simp only [ended, own, thread]
    exact said.ended
  refine kept.apart (n := t'.conv) ⟨?_, fun _ _ => rfl, fun _ _ => rfl, fun _ _ => rfl,
    fun _ _ => rfl, ?_, le_rfl, rfl, fun _ => fun made => made⟩ ?_ ?_ ?_ ?_ ?_ ?_
  · exact fun m other => update_of_ne other ..
  · intro m other j started
    refine others j fun same => other ?_
    subst j
    exact (kept.runs m id started).2.1.symm.trans said.conv.symm
  · intro d again
    cases conv.symm.trans again
    refine ⟨fun i => ?_, ?_, ?_, ?_⟩
    · rw [brought, left, ← fits.bytes i, append_assoc]
    · rw [ended, status, ← fits.recs, append_assoc]
    · intro j running
      rcases child with ⟨eq, _⟩ | ⟨eq, _⟩
      · exact fits.child j (eq.symm.trans running)
      · rw [eq] at running
        cases running
    · intro asked eq
      rcases fits.unstarted asked (cmd.symm.trans eq) with ⟨none, _⟩
      cases none.symm.trans own
  · intro i
    rw [brought, ← fits.bytes i, append_assoc]
    exact prefix_append _ _
  · rw [ended, ← fits.recs, append_assoc]
    exact prefix_append _ _
  · intro j started
    cases own.symm.trans started
    refine ⟨below, congrArg Threads.conv thread, ?_⟩
    refine asked.trans (congrArg some ?_)
    exact said.cmd.symm.trans (congrArg Threads.cmd thread.symm)
  · intro j below waited
    by_cases same : j = id
    · subst j
      have waited : t'.waits = true := (congrArg Threads.waits thread).symm.trans waited
      rcases child with ⟨eq, before⟩ | ⟨_, ended⟩
      · rcases kept.waits id below (before.symm.trans waited) with ⟨d, live', running⟩
        rw [← said.conv, live] at live'
        cases live'
        exact ⟨c', (congrArg _ (congrArg Threads.conv thread)).trans conv, eq.trans running⟩
      · rw [ended] at waited
        cases waited
    · have eq := others j same
      have waited : (h.state.threads j).waits = true :=
        (congrArg Threads.waits eq).symm.trans waited
      rcases kept.waits j below waited with ⟨d, live', running⟩
      have other : (h.state.threads j).conv ≠ t'.conv := fun at_ => by
        rw [at_, live] at live'
        cases live'
        have runs := fits.child j running
        rw [own] at runs
        cases runs
        exact same rfl
      refine ⟨d, (congrArg _ (congrArg Threads.conv eq)).trans ?_, running⟩
      exact (update_of_ne other ..).trans live'
  · intro d tag again waiting
    cases conv.symm.trans again
    exact ⟨t'.conv, c, live, queued tag waiting⟩

theorem Kept.unheard {id : Nat} {t' : Threads} {new : Out → Bytes} {recs : List Bytes}
    (kept : h.Kept) (said : (h.state.threads id).Says t' new recs)
    (dead : h.state.convs t'.conv = none) (waits : t'.waits = (h.state.threads id).waits) :
    { h with state := h.state.setThreads id t' }.Kept := by
  have thread : (h.state.setThreads id t').threads id = t' := update_self ..
  have others (j : Nat) (other : j ≠ id) :
      (h.state.setThreads id t').threads j = h.state.threads j := update_of_ne other ..
  refine kept.apart (n := t'.conv) ⟨fun _ _ => rfl, fun _ _ => rfl, fun _ _ => rfl, fun _ _ => rfl,
    fun _ _ => rfl, ?_, le_rfl, rfl, fun _ => fun made => made⟩ ?_ ?_ ?_ ?_ ?_ ?_
  · intro m other j started
    refine others j fun same => other ?_
    subst j
    exact (kept.runs m id started).2.1.symm.trans said.conv.symm
  · intro c live
    cases dead.symm.trans live
  · intro i
    refine (kept.given t'.conv i).trans ?_
    cases started : h.runs t'.conv with
    | none => simp only [brought, started, prefix_refl]
    | some j =>
        simp only [brought, started]
        by_cases same : j = id
        · subst j
          rw [thread, said.brought i]
          exact prefix_append _ _
        · rw [others j same]
  · refine (kept.told t'.conv).trans ?_
    cases started : h.runs t'.conv with
    | none => simp only [ended, started, prefix_refl]
    | some j =>
        simp only [ended, started]
        by_cases same : j = id
        · subst j
          rw [thread, said.ended]
          exact prefix_append _ _
        · rw [others j same]
  · intro j started
    rcases kept.runs t'.conv j started with ⟨below, conv, cmd⟩
    refine ⟨below, ?_⟩
    by_cases same : j = id
    · subst j
      exact ⟨congrArg Threads.conv thread,
        cmd.trans (congrArg some (said.cmd.symm.trans (congrArg Threads.cmd thread.symm)))⟩
    · have eq := others j same
      exact ⟨(congrArg Threads.conv eq).trans conv,
        cmd.trans (congrArg (fun t => some t.cmd) eq.symm)⟩
  · intro j below waited
    by_cases same : j = id
    · subst j
      rcases kept.waits id below (waits.symm.trans ((congrArg Threads.waits thread).symm.trans
        waited)) with ⟨c, live, _⟩
      rw [← said.conv, dead] at live
      cases live
    · have eq := others j same
      rcases kept.waits j below ((congrArg Threads.waits eq).symm.trans waited) with
        ⟨c, live, running⟩
      exact ⟨c, (congrArg h.state.convs (congrArg Threads.conv eq)).trans live, running⟩
  · intro c tag live _
    cases dead.symm.trans live

def fetchedBytes (i : Out) (r : Except String Bytes) : Out → Bytes :=
  update (fun _ => []) i (r.toOption.getD [])

theorem fetched_says (t : Threads) (i : Out) (r : Except String Bytes) :
    t.Says (t.fetched i r) (fetchedBytes i r) [] ∧ (t.fetched i r).waits = t.waits := by
  have nothing (j : Out) : update (fun _ => ([] : Bytes)) i [] j = [] := by
    by_cases same : j = i
    · subst j
      exact update_self ..
    · exact update_of_ne same ..
  cases r with
  | error e =>
      refine ⟨⟨rfl, rfl, fun j => ?_, (append_nil _).symm⟩, rfl⟩
      exact ((congrArg _ (nothing j)).trans (append_nil _)).symm
  | ok b =>
      cases b with
      | nil =>
          refine ⟨⟨rfl, rfl, fun j => ?_, (append_nil _).symm⟩, rfl⟩
          exact ((congrArg _ (nothing j)).trans (append_nil _)).symm
      | cons byte rest =>
          refine ⟨⟨rfl, rfl, fun j => ?_, (append_nil _).symm⟩, rfl⟩
          by_cases same : j = i
          · subst j
            simp only [Threads.fetched, fetchedBytes, update_self]
            rfl
          · simp only [Threads.fetched, fetchedBytes, update_of_ne same, append_nil]

theorem take_left (str : Stream) (r : Except String Bytes) :
    (str.take r).2.left = str.left ++ r.toOption.getD [] := by
  cases r with
  | error e => simp [Stream.take, Except.toOption]
  | ok b =>
      simp only [Stream.take, Except.toOption, Option.getD_some]
      split
      · simp_all
      · rfl

theorem Kept.fetched {id : Nat} (i : Out) (r : Except String Bytes) (kept : h.Kept)
    (own : h.state.convs (h.state.threads id).conv ≠ none →
      h.runs (h.state.threads id).conv = some id) :
    (h.hear ((h.state.setThreads id ((h.state.threads id).fetched i r)).fetched
      (h.state.threads id).conv i r) h.flushed).Kept := by
  rcases fetched_says (h.state.threads id) i r with ⟨said, waits⟩
  rw [← said.conv] at own ⊢
  generalize (h.state.threads id).fetched i r = t' at said waits own ⊢
  cases live : h.state.convs t'.conv with
  | none =>
      have dead : (h.state.setThreads id t').convs t'.conv = none := live
      simp only [State.fetched, dead]
      exact (kept.unheard said live waits).serves (.refl _)
  | some c =>
      have still : (h.state.setThreads id t').convs t'.conv = some c := live
      simp only [State.fetched, still]
      have suffix := ((c.out i).take_held r).map Prod.fst
      generalize hc : ({ c with out := update c.out i ((c.out i).take r).2 } : Conv) = c'
      have stream : c'.out i = ((c.out i).take r).2 := by
        rw [← hc]
        exact update_self ..
      have streams (j : Out) (other : j ≠ i) : c'.out j = c.out j := by
        rw [← hc]
        exact update_of_ne other ..
      have arrived : { h with
          state := (h.state.setThreads id t').setConv t'.conv (some c') }.Kept := by
        apply kept.arrives said live (own (by rw [live]; nofun))
        · rw [← hc]
        · intro j
          by_cases same : j = i
          · subst j
            rw [stream, take_left]
            simp only [fetchedBytes, update_self]
          · rw [streams j same]
            simp only [fetchedBytes, update_of_ne same, append_nil]
        · rw [← hc]
          exact (append_nil _).symm
        · refine .inl ⟨?_, waits⟩
          rw [← hc]
        · rintro tag (⟨j, queued⟩ | queued)
          · by_cases same : j = i
            · subst j
              rw [stream] at queued
              exact .inl ⟨i, suffix.subset queued⟩
            · rw [streams j same] at queued
              exact .inl ⟨j, queued⟩
          · rw [← hc] at queued
            exact .inr queued
      refine arrived.serves ?_
      have waiting : ∀ tag ∈ ((c.out i).take r).2.held.map Prod.fst, c'.Waits tag := by
        intro tag queued
        rw [← stream] at queued
        exact .inl ⟨i, queued⟩
      have conv : ((h.state.setThreads id t').setConv t'.conv (some c')).convs t'.conv =
          some c' := update_self ..
      have served : State.Gives _ _ _ none := State.gives_serve i ((c.out i).take r).2 conv
        (congrArg Stream.left stream.symm) fun tag queued => .inl (waiting tag queued)
      rw [State.serve_setConv] at served
      refine served.congr rfl rfl rfl ?_
      rintro tag ⟨b, made⟩
      rcases mem_append.mp made with before | made
      · rcases mem_append.mp before with before | failed
        · exact .inl ⟨b, (congrArg _ (State.askFor_done _ _ i _)).mpr before⟩
        · exfalso
          cases r with
          | ok b => cases failed
          | error e =>
              rcases mem_map.mp failed with ⟨_, _, eq⟩
              cases eq
      · exact .inr (.inl ⟨t'.conv, c', conv, waiting tag (State.serve_tags made)⟩)

theorem Kept.exited {id : Nat} (record : Bytes) (kept : h.Kept) (below : id < h.state.started)
    (waited : (h.state.threads id).waits = true) :
    (h.hear ((h.state.setThreads id { h.state.threads id with
      waits := false
      ended := (h.state.threads id).ended ++ [record] }).exited
        (h.state.threads id).conv record) h.flushed).Kept := by
  rcases kept.waits id below waited with ⟨c, live, running⟩
  have own := (kept.fits _ c live).child id running
  generalize eq : ({ h.state.threads id with
    waits := false
    ended := (h.state.threads id).ended ++ [record] } : Threads) = t'
  have said : (h.state.threads id).Says t' (fun _ => []) [record] := by
    subst t'
    exact ⟨rfl, rfl, fun _ => (append_nil _).symm, rfl⟩
  have unwaited : t'.waits = false := by
    subst t'
    rfl
  rw [← said.conv] at live own ⊢
  have still : (h.state.setThreads id t').convs t'.conv = some c := live
  have arrived : { h with
      state := (h.state.setThreads id t').setConv t'.conv
        (some { c with child := none, status := c.status ++ [record] }) }.Kept := by
    apply kept.arrives said live own
    · rfl
    · exact fun _ => (append_nil _).symm
    · rfl
    · exact .inr ⟨rfl, unwaited⟩
    · exact fun _ => fun queued => queued
  have conv : ((h.state.setThreads id t').setConv t'.conv (some { c with
      child := none
      status := c.status ++ [record] })).convs t'.conv =
        some { c with child := none, status := c.status ++ [record] } := update_self ..
  simp only [State.exited, still]
  split
  · refine arrived.serves ?_
    rw [← State.setConv_setConv _ t'.conv
      (some { c with child := none, status := c.status ++ [record] }) none]
    refine State.forgets_setConv fun d again => ?_
    cases conv.symm.trans again
    rfl
  · refine arrived.serves ?_
    have recs := State.waited_recs (c.status ++ [record]) c.waiting
    have tags := State.waited_tags (c.status ++ [record]) c.waiting
    generalize State.waited (c.status ++ [record]) c.waiting = w at recs tags ⊢
    have kept : Conv.Gives { c with child := none, status := c.status ++ [record] }
        { c with child := none, status := w.2.2.1, waiting := w.2.2.2 } (fun _ => []) w.2.1
        none := by
      refine ⟨rfl, rfl, fun _ => rfl, recs, ?_⟩
      rintro tag (queued | queued)
      · exact .inl (.inl queued)
      · refine .inl (.inr ?_)
        change tag ∈ c.waiting.map Prod.fst
        rw [← tags]
        exact mem_append_right _ queued
    have given := State.gives_setConv conv kept
    simp only [State.setConv, update_idem] at given
    refine given.congr rfl rfl rfl ?_
    rintro tag ⟨b, made⟩
    rcases mem_append.mp made with before | made
    · exact .inl ⟨b, before⟩
    · refine .inr (.inl ⟨t'.conv, _, conv, .inr ?_⟩)
      change tag ∈ c.waiting.map Prod.fst
      rw [← tags]
      exact mem_append_left _ (mem_map_of_mem made)

theorem flushing_quiet (s' : State) {tag : UInt16} {req : Request} {other : UInt16}
    (marked : h.flushing tag req other = true)
    (flushed : ∀ old, req = .flush (some old) → ¬ s'.Waits old ∧ ¬ s'.Told old) :
    (h.flushed other = true ∧ some tag ≠ some other) ∨ ¬ s'.Waits other ∧ ¬ s'.Told other := by
  have cleared (marked : update h.flushed tag false other = true) :
      h.flushed other = true ∧ some tag ≠ some other := by
    by_cases same : other = tag
    · subst other
      rw [update_self] at marked
      cases marked
    · rw [update_of_ne same] at marked
      exact ⟨marked, fun eq => same (Option.some.inj eq).symm⟩
  cases req with
  | flush old =>
      cases old with
      | none => exact .inl (cleared marked)
      | some old =>
          by_cases same : other = old
          · subst other
            exact .inr (flushed old rfl)
          · simp only [flushing, update_of_ne same] at marked
            exact .inl (cleared marked)
  | _ => exact .inl (cleared marked)

theorem Kept.submit {m : Msg} (refused : Option String) (kept : h.Kept)
    (clear : ∀ old, Request.of m = .flush (some old) → ¬ h.state.Told old) :
    (h.act (.submit m refused)).Kept := by
  simp only [act]
  generalize Request.of m = req at clear ⊢
  have keeps {s' : State} {g : Option Given} (moved : h.state.Gives s' g (some m.tag))
      (flushed : ∀ old, req = .flush (some old) → ¬ s'.Waits old ∧ ¬ s'.Told old) :
      ((h.hear (g, s') (h.flushing m.tag req)).spawned h.state.started).Kept := by
    have idle : (h.hear (g, s') (h.flushing m.tag req)).spawned h.state.started =
        h.hear (g, s') (h.flushing m.tag req) := by
      have same : s'.started = h.state.started := moved.started
      simp only [spawned, hear, same, if_true]
    rw [idle]
    exact kept.gives _ moved fun tag marked => flushing_quiet s' marked flushed
  by_cases other : ∀ fid uname n, req ≠ .attach fid uname n
  · refine keeps (State.gives_submit m.tag refused other) fun old flush => ?_
    subst flush
    exact ⟨State.flush_waits _ old, clear old rfl⟩
  · simp only [not_forall, not_not] at other
    rcases other with ⟨fid, uname, n, rfl⟩
    simp only [State.submit]
    rcases State.tattach_cases (s := h.state) fid uname n refused with
      ⟨_, e, answer⟩ | ⟨num, c, _, live, ⟨cmd, e, unstarted, _, answer⟩ | ⟨begun, answer⟩ |
        ⟨cmd, unstarted, _, answer⟩⟩
    · rw [answer]
      exact keeps (.refl _) nofun
    · rw [answer]
      refine keeps (State.forgets_setConv fun d again => ?_) nofun
      cases live.symm.trans again
      exact ((kept.fits num c live).unstarted cmd unstarted).2.1
    · rw [answer]
      refine keeps ?_ nofun
      exact (State.keeps_setConv live (State.Conv.keeps_owned c uname)).congr rfl rfl rfl
        fun _ => .inl
    · rw [answer]
      have started := kept.spawn live unstarted
      have owned : (h.state.spawn num c cmd).Gives
          (((h.state.spawn num c cmd).setConv num
            (some ((c.running h.state.started).owned uname))).naming fid num .dir) none
          (some m.tag) :=
        (State.keeps_setConv (update_self ..) (State.Conv.keeps_owned _ uname)).congr
          rfl rfl rfl fun _ => .inl
      exact started.gives (h.flushing m.tag (.attach fid uname n)) owned fun tag marked =>
        flushing_quiet (h := h) _ marked nofun

theorem Kept.act {a : Action} (kept : h.Kept) (can : h.state.Can a)
    (own : ∀ id i r, a = .fetched id i r → h.state.convs (h.state.threads id).conv ≠ none →
      h.runs (h.state.threads id).conv = some id)
    (clear : ∀ m refused, a = .submit m refused →
      ∀ old, Request.of m = .flush (some old) → ¬ h.state.Told old) :
    (h.act a).Kept := by
  cases a with
  | start n cmd bg => exact kept.start cmd bg can.1
  | submit m refused => exact kept.submit refused (clear m refused rfl)
  | release n => exact kept.serves (State.keeps_letgo n false)
  | fetched id i r => exact kept.fetched i r (own id i r rfl)
  | wrote id r => exact kept.serves (State.gives_wrote h.state id r)
  | exited id record => exact kept.exited record can.1 can.2
  | harvest =>
      refine kept.serves ((State.Gives.refl h.state).congr rfl rfl rfl ?_)
      rintro tag ⟨b, made⟩
      cases made

end Ledger

end Ipnx.Host.Oscmd
