import Ipnx.Fd.Exec
import Ipnx.Fd.Made

/-!
# What a failed `exec` leaves

A failed `exec` has changed nothing of its caller itself: what the opens and the reads of the
script and of its interpreter keep is kept, the descriptors and the wires are as they were, and
every channel it opened that nothing else holds is closed. It opens at most the file it was given
and one interpreter. All that rests on a call that is not left asleep once it has opened something:
one that is runs again, and opens again what it does not close again.
-/

namespace Ipnx.Exec

open List
open Making (step opens lift)
open Prog (Ends ends_pure ends_throw ends_get ends_modify ends_ite)

variable {M N H : Type}

/-- What is told of a process by what `exec` may change: its text's name and segments, its notes
and handler, its priority, what it is to stop for, its namespace, and the image it runs with its
arguments. -/
structure Caller (M N : Type) where
  text : String
  tseg : Option Nat
  seg : Nat
  note : List Note
  notepending : Bool
  notify : Nat
  notified : Bool
  basepri : Nat
  priority : Nat
  procctl : Option Procctl
  hang : Bool
  ns : N
  execd : Option (M × List String)
  fiber : Option (Option (M × List String))

def World.caller (w : World M N H) (pid : Pid) : Option (Caller M N) :=
  (w.procs.tab pid).map fun p =>
    { text := p.text
      tseg := w.tseg pid
      seg := w.seg pid
      note := p.note
      notepending := p.notepending
      notify := p.notify
      notified := p.notified
      basepri := p.basepri
      priority := p.priority
      procctl := p.procctl
      hang := p.hang
      ns := w.ns pid
      execd := w.machine.execd pid
      fiber := w.machine.procs pid }

/-- What an `exec` may meet: the states, before an open is answered and after, and the names it
opens, the channels these are and what it has read of them, of the file and of its interpreter. -/
structure Course (M N H : Type) where
  state : Bool → Site M N H → Prop
  name : Bool → String → Prop
  chan : Bool → Cell → Prop
  part : Bool → List UInt8 → Prop

variable {others : Cell → Nat} {k : Files M N H} {pid : Pid} {path : String}
  {args : List String} {R : Course M N H} {b : Bool} {w₀ w : Making (Site M N H)} {c : Cell}
  {cells : List Cell} {n : Nat} {caller : Option (Caller M N)}
  {E : String → Making (Site M N H) → Prop}

/-- The devices leave the caller alone, and leave no open asleep for a reply once an open is
answered, and no read. What they write in the record is behind the call, also where a read has left
the processor. -/
structure Files.Calm (k : Files M N H) (pid : Pid) (path : String) (args : List String)
    (caller : Option (Caller M N)) (R : Course M N H) : Prop where
  spares : ∀ b d, R.state b d → d.1.caller pid = caller
  first : R.name false path ∧ ∀ b, R.part b []
  opens : ∀ b d name, R.state b d → R.name b name → R.state b (k.walkOpen d name oexec).2
  opened : ∀ b d name c, R.state b d → R.name b name → (k.walkOpen d name oexec).1 = .ok c →
    R.state true (k.walkOpen d name oexec).2 ∧ (k.walkOpen d name oexec).2.2.Fresh ∧ R.chan b c
  awake : ∀ d name, R.state true d → R.name true name → (k.walkOpen d name oexec).1 ≠ .error slept
  reads : ∀ b d c image, R.state true d → R.chan b c → R.part b image →
    R.state true (k.read d c 8192 image.length).2 ∧
      (d.2.Fresh → (k.read d c 8192 image.length).2.2.Fresh)
  answered : ∀ b d c image, R.state true d → R.chan b c → R.part b image →
    (k.dread d c 8192 image.length).1 ≠ .error slept
  grows : ∀ b d c image got, R.state true d → R.chan b c → R.part b image →
    (k.dread d c 8192 image.length).1 = .ok got → R.part b (image ++ got)
  follows : ∀ image file progarg, R.part false image →
    interpreter image path args (elem path) = .ok (file, progarg) → R.name true file
  closes : ∀ d, R.state true d → R.state true (d.1, d.2.once.2)
  again : ∀ d, R.state false d → R.state false (d.1, d.2.rewind)

/-- Nothing of the caller has been changed, what the devices keep is kept, and no channel is left
open. -/
structure Atomic (others : Cell → Nat) (R : Course M N H) (pid : Pid)
    (w₀ w : Making (Site M N H)) : Prop where
  kept : ∃ b, R.state b w.dev
  caller : w.dev.1.caller pid = w₀.dev.1.caller pid
  fds : w.fds = w₀.fds
  wires : w.wires = w₀.wires
  held : w.held = []
  closed : ∀ c ∈ w.opened, w.refs others c = 0 → c ∈ w.closing
  spared : ∀ c ∈ w.closing, c ∈ w.opened ∧ w.refs others c = 0

/-- In the middle of an `exec` that has these references. -/
structure During (others : Cell → Nat) (R : Course M N H) (b : Bool)
    (w₀ : Making (Site M N H)) (cells : List Cell) (n : Nat) (w : Making (Site M N H)) : Prop where
  kept : R.state b w.dev
  fresh : cells ≠ [] → w.dev.2.Fresh
  fds : w.fds = w₀.fds
  wires : w.wires = w₀.wires
  held : w.held = cells
  mine : ∀ c ∈ cells, c ∈ w.opened
  opened : w.opened.length = n
  back : ∀ c ∈ w.opened, c ∈ cells ∨ w.refs others c ≠ 0 ∨ c ∈ w.closing
  spared : ∀ c ∈ w.closing, c ∈ w.opened ∧ w.refs others c = 0

theorem during_new (others : Cell → Nat) (fds : Fds) (dev : Site M N H)
    (wires : List (Nat × Cell)) (kept : R.state b dev) :
    During others R b (.new fds dev wires) [] 0 (.new fds dev wires) := by
  refine ⟨kept, fun none_ => absurd rfl none_, rfl, rfl, rfl, ?_, rfl, ?_, ?_⟩
  · rintro c ⟨⟩
  · rintro c ⟨⟩
  · rintro c ⟨⟩

theorem ends_step {α : Type} {call : Site M N H → Except String α × Site M N H}
    {G : Except String α → Making (Site M N H) → Prop} (during : During others R b w₀ cells n w)
    (keeps : R.state b (call w.dev).2) (fresh : cells ≠ [] → (call w.dev).2.2.Fresh)
    (ok : ∀ w', w'.dev = (call w.dev).2 → During others R b w₀ cells n w' → G (call w.dev).1 w') :
    Ends (step call) w G E := by
  apply Ends.get
  apply Ends.modify
  apply ends_pure
  apply ok _ rfl
  exact ⟨keeps, fresh, during.fds, during.wires, during.held, during.mine, during.opened,
    during.back, during.spared⟩

theorem ends_opens {name : String} {G : Except String Cell → Making (Site M N H) → Prop}
    (calm : k.Calm pid path args caller R) (during : During others R b w₀ [] n w)
    (named : R.name b name)
    (error : ∀ e w', (b = true → e ≠ slept) → During others R b w₀ [] n w' → G (.error e) w')
    (ok : ∀ c w', R.chan b c → During others R true w₀ [c] (n + 1) w' → G (.ok c) w') :
    Ends (opens (k.walkOpen · name oexec)) w G E := by
  apply Ends.bind
  apply ends_step during (calm.opens b _ name during.kept named) fun none_ => absurd rfl none_
  intro w' here now
  have opened (c : Cell) := calm.opened b w.dev name c during.kept named
  have awake (e : String) (failed : (k.walkOpen w.dev name oexec).1 = .error e) (later : b = true) :
      e ≠ slept := by
    rintro rfl
    subst later
    exact calm.awake w.dev name during.kept named failed
  rcases asked : (k.walkOpen w.dev name oexec).1 with e | c
  · exact ends_pure (error e w' (awake e asked) now)
  apply Ends.modify
  apply ends_pure
  rcases opened c asked with ⟨kept, fresh, there⟩
  apply ok c _ there
  rw [← here] at kept fresh
  refine ⟨kept, fun _ => fresh, now.fds, now.wires, congrArg (· ++ [c]) now.held, ?_, ?_, ?_, ?_⟩
  · rintro d mine
    exact mem_append_right _ mine
  · simp only [length_append, length_singleton, now.opened]
  · intro d there
    rcases mem_append.1 there with old | new
    · rcases now.back d old with none_ | rest
      · cases none_
      · exact .inr rest
    · exact .inl new
  · intro d there
    exact ⟨mem_append_left _ (now.spared d there).1, (now.spared d there).2⟩

theorem ends_cclose {G : Unit → Making (Site M N H) → Prop}
    (calm : k.Calm pid path args caller R)
    (during : During others R true w₀ [c] n w)
    (ok : ∀ w', During others R true w₀ [] n w' → G () w') : Ends (cclose others c) w G E := by
  apply ends_modify
  apply ok
  have held : w.held.erase c = [] := by
    rw [during.held]
    exact erase_cons_head ..
  have mine := during.mine c (mem_singleton_self c)
  have none_left : ∀ d ∈ ([] : List Cell), d ∈ w.opened := by
    rintro d ⟨⟩
  have none_next (record : Record) : ([] : List Cell) ≠ [] → record.Fresh := fun some_ =>
    absurd rfl some_
  have first : w.dev.2.once.1 = true := by
    rw [Record.once, if_neg (during.fresh (cons_ne_nil c []))]
  dsimp only
  rw [first, if_pos rfl]
  split_ifs with last
  · refine ⟨calm.closes _ during.kept, none_next _, during.fds, during.wires, held, none_left,
      during.opened, ?_, ?_⟩
    · intro d there
      rcases during.back d there with mine | some_ | gone
      · rcases mem_singleton.1 mine with rfl
        exact .inr (.inr (mem_append_right _ (mem_singleton_self d)))
      · exact .inr (.inl some_)
      · exact .inr (.inr (mem_append_left _ gone))
    · intro d there
      rcases mem_append.1 there with old | new
      · exact during.spared d old
      · rcases mem_singleton.1 new with rfl
        exact ⟨mine, last.1⟩
  · refine ⟨during.kept, none_next _, during.fds, during.wires, held, none_left, during.opened, ?_,
      during.spared⟩
    intro d there
    rcases during.back d there with mine | rest
    · rcases mem_singleton.1 mine with rfl
      right
      left
      intro none_
      apply last
      rw [held]
      exact ⟨none_, not_mem_nil⟩
    · exact .inr rest

theorem ends_readall (calm : k.Calm pid path args caller R)
    {G : Except String (List UInt8) → Making (Site M N H) → Prop} {b : Bool} (there : R.chan b c)
    (m : Nat) (image : List UInt8) (part : R.part b image)
    (during : During others R true w₀ [c] n w)
    (error : ∀ e w', e ≠ slept → During others R true w₀ [c] n w' → G (.error e) w')
    (ok : ∀ image w', R.part b image → During others R true w₀ [c] n w' → G (.ok image) w')
    (stays : ∀ w', E endless w') : Ends (readall k c m image) w G E := by
  induction m generalizing image w with
  | zero => exact ends_throw (stays w)
  | succ m ih =>
      have reads := calm.reads b w.dev c image during.kept there part
      apply Ends.bind
      apply ends_step during reads.1
      · exact fun _ => reads.2 (during.fresh (cons_ne_nil c []))
      intro w' _ now
      have answered : (k.read w.dev c 8192 image.length).1 ≠ .error slept :=
        calm.answered b w.dev c image during.kept there part
      have grows (got : List UInt8) (asked : (k.read w.dev c 8192 image.length).1 = .ok got) :
          R.part b (image ++ got) :=
        calm.grows b w.dev c image got during.kept there part asked
      rcases asked : (k.read w.dev c 8192 image.length).1 with e | got
      · apply ends_pure
        apply error e w' _ now
        rintro rfl
        exact answered asked
      · apply ends_ite
        · exact fun _ => ends_pure (ok image w' part now)
        · exact fun _ => ih (image ++ got) (grows got asked) now

/-- It has failed, having opened no more than this, or it is not over; or it is asleep, having
opened nothing. -/
def Failed (others : Cell → Nat) (R : Course M N H) (w₀ : Making (Site M N H))
    (most : Nat) (e : String) (w : Making (Site M N H)) : Prop :=
  e ≠ endless → (∃ b, ∃ n ≤ most, During others R b w₀ [] n w) ∧
    (e = slept → During others R false w₀ [] 0 w)

theorem During.failed {most : Nat} {e : String} (few : n ≤ most) (awake : e ≠ slept)
    (during : During others R b w₀ [] n w) : Failed others R w₀ most e w :=
  fun _ => ⟨⟨b, n, few, during⟩, fun asleep => absurd asleep awake⟩

theorem ends_closefds {G : Unit → Making (Site M N H) → Prop} (fds : List Nat)
    (ok : ∀ w', w'.opened = w.opened → G () w') : Ends (closefds others k fds) w G E := by
  induction fds generalizing w with
  | nil => exact ends_pure (ok w rfl)
  | cons fd fds ih =>
      apply Ends.modify
      apply ih
      intro w' same
      apply ok
      rw [same]
      split
      · rfl
      · dsimp only
        split_ifs
        · rfl
        · rfl
        · rfl

/-- The rest of an `exec` the machine has taken the image of, which cannot fail. -/
theorem ends_committed {G : Unit → Making (Site M N H) → Prop}
    (ok : ∀ w', w'.opened = w.opened → G () w') :
    Ends (do Making.cclose others c; exec_closeonexec others k pid : Call M N H Unit) w G E := by
  apply Ends.modify
  apply Ends.modify
  apply Ends.get
  apply ends_closefds
  intro w' same
  apply ok
  rw [same]
  dsimp only
  split_ifs
  · rfl
  · rfl

theorem commit_refused {v : Site M N H} {image : List UInt8} {elem e : String}
    {args : List String} (refused : (exec_commit k pid v c image elem args).1 = .error e) :
    (exec_commit k pid v c image elem args).2 = v ∧ e = ebadexec := by
  rw [exec_commit] at refused ⊢
  have same : (v.1.machine.touser k.engine pid image args).1 = .error e →
      (v.1.machine.touser k.engine pid image args).2 = v.1.machine ∧ e = ebadexec :=
    Wasm.touser_refused
  rcases asked : v.1.machine.touser k.engine pid image args with ⟨e' | ⟨⟩, machine⟩
  · rw [asked] at refused same
    cases refused
    rcases same rfl with ⟨back, text⟩
    have back' : machine = v.1.machine := back
    subst back'
    exact ⟨rfl, text⟩
  · rw [asked] at refused
    cases refused

theorem interpreter_error {image : List UInt8} {path elem e : String} {args : List String}
    (bad : interpreter image path args elem = .error e) : e = ebadexec := by
  rw [interpreter] at bad
  split at bad
  · cases bad
    rfl
  · cases bad
    rfl
  · split_ifs at bad
    cases bad
    rfl

theorem ebadexec_ne_slept : ebadexec ≠ slept := by decide

theorem ends_commit {image : List UInt8} {elem : String} {args : List String}
    {G : Except String Unit → Making (Site M N H) → Prop}
    (during : During others R b w₀ cells n w)
    (error : ∀ e w', e ≠ slept → During others R b w₀ cells n w' → G (.error e) w')
    (ok : ∀ w', w'.opened.length = n → G (.ok ()) w') :
    Ends (step (exec_commit k pid · c image elem args)) w G E := by
  apply Ends.get
  apply Ends.modify
  apply ends_pure
  rcases asked : (exec_commit k pid w.dev c image elem args).1 with e | ⟨⟩
  · rcases commit_refused asked with ⟨same, rfl⟩
    apply error _ _ ebadexec_ne_slept
    rw [same]
    exact { during with }
  · exact ok _ during.opened

theorem ends_exec_read {m most : Nat} {named text : String} {given : List String}
    {follow : Option (Cell → String → List String → Call M N H Unit)}
    (calm : k.Calm pid path args caller R) {b : Bool} (there : R.chan b c)
    (during : During others R true w₀ [c] n w) (few : n ≤ most)
    (follows : ∀ next, follow = some next → ∀ image file progarg, R.part b image →
      interpreter image named given text = .ok (file, progarg) → R.name true file ∧
        ∀ c w', R.chan true c → During others R true w₀ [c] (n + 1) w' →
          Ends (next c file progarg) w' (fun _ w => w.opened.length ≤ most)
            (Failed others R w₀ most)) :
    Ends (exec_read others k pid m follow c named given text) w
      (fun _ w => w.opened.length ≤ most) (Failed others R w₀ most) := by
  have refused {w' : Making (Site M N H)} (now : During others R true w₀ [c] n w') {e : String}
      (awake : e ≠ slept) : Ends (do cclose others c; throw e : Call M N H Unit) w'
        (fun _ w => w.opened.length ≤ most) (Failed others R w₀ most) := by
    apply Ends.bind
    apply ends_cclose calm now
    exact fun w'' back => ends_throw (back.failed few awake)
  apply Ends.bind
  apply ends_readall calm there m [] (calm.first.2 b) during _ _ fun _ stays => absurd rfl stays
  · exact fun e w' awake now => refused now awake
  intro image w' part now
  apply ends_ite
  · exact fun _ => refused now ebadexec_ne_slept
  intro _
  apply ends_ite
  · intro _
    apply Ends.bind
    apply ends_cclose calm now
    intro w'' back
    rcases follow with _ | next
    · exact ends_throw (back.failed few ebadexec_ne_slept)
    apply Ends.bind
    apply Making.ends_lift
    · intro e bad
      apply back.failed few
      rw [interpreter_error bad]
      exact ebadexec_ne_slept
    rintro ⟨file, progarg⟩ asked
    rcases follows next rfl image file progarg part asked with ⟨name, rest⟩
    apply Ends.bind
    apply ends_opens calm back name
    · intro e v awake now
      apply Ends.bind
      exact ends_throw (now.failed few (awake rfl))
    · intro c v there now
      apply Ends.bind
      exact ends_pure (rest c v there now)
  · intro _
    apply Ends.bind
    apply ends_commit now
    · exact fun e v awake now => refused now awake
    · intro v opened
      apply ends_committed
      intro v' same
      rw [same, opened]
      exact few

theorem ends_exec (calm : k.Calm pid path args caller R)
    (start : During others R false w₀ [] 0 w) (m : Nat) :
    Ends (exec others k pid m path args) w (fun _ w => w.opened.length ≤ 2)
      (Failed others R w₀ 2) := by
  apply Ends.bind
  apply ends_opens calm start calm.first.1
  · intro e w _ now
    apply Ends.bind
    exact ends_throw fun _ => ⟨⟨false, 0, Nat.zero_le 2, now⟩, fun _ => now⟩
  intro c w there now
  apply Ends.bind
  apply ends_pure
  apply ends_exec_read calm there now (Nat.le_succ 1)
  intro next found image file progarg part asked
  cases found
  refine ⟨calm.follows image file progarg part asked, ?_⟩
  intro c' w' there' now'
  apply ends_exec_read calm there' now' le_rfl
  rintro _ ⟨⟩

theorem ends_rerun (calm : k.Calm pid path args caller R)
    (start : During others R false w₀ [] 0 w) (n m : Nat) :
    Ends (rerun others k pid n path args m) w (fun _ w => w.opened.length ≤ 2)
      (Failed others R w₀ 2) := by
  induction m generalizing w with
  | zero => exact ends_throw fun stays => absurd rfl stays
  | succ m ih =>
      apply Prog.Ends.catching (ends_exec calm start n)
      intro e w' failed
      apply ends_ite
      · rintro rfl
        have now := (failed (by decide)).2 rfl
        apply Ends.get
        apply ends_ite
        · exact fun _ => ends_throw (now.failed (Nat.zero_le 2) (by decide))
        intro _
        apply Ends.modify
        apply ih
        exact { now with
          kept := calm.again _ now.kept
          fresh := fun none_ => absurd rfl none_ }
      · exact fun awake => ends_throw failed

theorem atomic_of_during {fds : Fds} {world : World M N H} {wires : List (Nat × Cell)}
    (calm : k.Calm pid path args (world.caller pid) R)
    (left : During others R b (.new fds (world, .new) wires) [] n w) :
    Atomic others R pid (.new fds (world, .new) wires) w := by
  refine ⟨⟨b, left.kept⟩, calm.spares b w.dev left.kept, left.fds, left.wires, left.held, ?_,
    left.spared⟩
  intro c there none_
  rcases left.back c there with mine | some_ | gone
  · cases mine
  · exact absurd none_ some_
  · exact gone

def quiet : World Unit Unit Nat where
  procs := .new
  ns := fun _ => ()
  tseg := fun _ => none
  seg := fun _ => 0
  segs := 1
  images := []
  machine := ⟨fun _ => none, fun _ => none, fun _ => none, fun _ => none, fun _ => none, none⟩
  host := 0

/-- Every file is a script for `/bin/i`, and each open makes a channel; an open that sleeps does so
until the record has its reply. -/
def scripts (sleeps : Nat → String → Bool) : Files Unit Unit Nat where
  walkOpen d path _ :=
    let world := { d.1 with host := d.1.host + 1 }
    if sleeps d.1.host path then
      if d.2.steps[d.2.at_]? = some (.wire 0) then
        (.ok (7 + d.1.host), world, { d.2 with at_ := d.2.at_ + 1 })
      else (.error slept, d.1, { d.2 with steps := d.2.steps.take d.2.at_ ++ [.wire 0] })
    else (.ok (7 + d.1.host), world, d.2)
  dread d _ _ off := (.ok (if off = 0 then "#!/bin/i\n".toUTF8.data.toList else []), d)
  leaves _ _ _ _ := false
  isroot _ := false
  ccexec _ := false
  imagekey c := c
  engine _ := none

def ran (sleeps : Nat → String → Bool) : Except String Unit × Making (Site Unit Unit Nat) :=
  (rerun (fun _ => 0) (scripts sleeps) 1 3 "/env/s" ["s"] 3).exec (.new .empty (quiet, .new) [])

/-- Only the first open sleeps. -/
def first (opened : Nat) (_ : String) : Bool := opened == 0

/-- What the first open sleeps in, and what comes then. -/
def scripts_course : Course Unit Unit Nat where
  state b d := d.1.caller 1 = quiet.caller 1 ∧
    if b then d.1.host ≠ 0 ∧ d.2.Fresh else .once ∉ d.2.steps
  name b name := name = if b then "/bin/i" else "/env/s"
  chan _ _ := True
  part _ image := image = [] ∨ image = "#!/bin/i\n".toUTF8.data.toList

theorem fresh_of_wires {r : Record} (wires : .once ∉ r.steps) : r.Fresh :=
  fun here => wires (mem_of_getElem? here)

theorem fresh_once {r : Record} (fresh : r.Fresh) : r.once.2.Fresh := by
  rw [Record.once, if_neg fresh, Record.Fresh, List.getElem?_eq_none]
  · rintro ⟨⟩
  · rw [length_append, length_singleton]
    exact Nat.succ_le_succ (length_take_le ..)

/-- What an open of the scripts comes to. -/
theorem scripts_walkOpen (d : Site Unit Unit Nat) (path : String) (mode : UInt16) :
    (d.1.host ≠ 0 ∧ (scripts first).walkOpen d path mode =
      (.ok (7 + d.1.host), { d.1 with host := d.1.host + 1 }, d.2)) ∨
    (d.1.host = 0 ∧ (scripts first).walkOpen d path mode =
      (.ok (7 + d.1.host), { d.1 with host := d.1.host + 1 }, { d.2 with at_ := d.2.at_ + 1 })) ∨
    (d.1.host = 0 ∧ (scripts first).walkOpen d path mode =
      (.error slept, d.1, { d.2 with steps := d.2.steps.take d.2.at_ ++ [.wire 0] })) := by
  by_cases none_ : d.1.host = 0
  · have sleeps : first d.1.host path = true := by simp only [first, none_, beq_self_eq_true]
    by_cases replied : d.2.steps[d.2.at_]? = some (.wire 0)
    · refine .inr (.inl ⟨none_, ?_⟩)
      simp only [scripts, sleeps, replied, if_true]
    · refine .inr (.inr ⟨none_, ?_⟩)
      simp only [scripts, sleeps, replied, if_true, if_false]
  · refine .inl ⟨none_, ?_⟩
    have awake : first d.1.host path = false := by simpa only [first, beq_eq_false_iff_ne]
    simp only [scripts, awake, Bool.false_eq_true, if_false]

theorem calm_scripts :
    (scripts first).Calm 1 "/env/s" ["s"] (quiet.caller 1) scripts_course where
  spares b d has := has.1
  first := ⟨rfl, fun _ => .inl rfl⟩
  opens b d path has _ := by
    rcases scripts_walkOpen d path oexec with ⟨some_, met⟩ | ⟨none_, met⟩ | ⟨none_, met⟩
    · rw [met]
      cases b with
      | false => exact has
      | true => exact ⟨has.1, Nat.succ_ne_zero _, has.2.2⟩
    · rw [met]
      cases b with
      | false => exact has
      | true => exact absurd none_ has.2.1
    · rw [met]
      cases b with
      | false =>
          refine ⟨has.1, ?_⟩
          intro there
          rcases mem_append.1 there with old | new
          · exact has.2 (mem_of_mem_take old)
          · cases mem_singleton.1 new
      | true => exact absurd none_ has.2.1
  opened b d path c has _ found := by
    rcases scripts_walkOpen d path oexec with ⟨some_, met⟩ | ⟨none_, met⟩ | ⟨none_, met⟩
    · rw [met]
      have fresh : d.2.Fresh := by
        cases b with
        | false => exact fresh_of_wires has.2
        | true => exact has.2.2
      exact ⟨⟨has.1, Nat.succ_ne_zero _, fresh⟩, fresh, trivial⟩
    · rw [met]
      cases b with
      | false =>
          have fresh : Record.Fresh { d.2 with at_ := d.2.at_ + 1 } := fresh_of_wires has.2
          exact ⟨⟨has.1, Nat.succ_ne_zero _, fresh⟩, fresh, trivial⟩
      | true => exact absurd none_ has.2.1
    · rw [met] at found
      cases found
  awake d path has _ := by
    rcases scripts_walkOpen d path oexec with ⟨some_, met⟩ | ⟨none_, met⟩ | ⟨none_, met⟩
    · rw [met]
      rintro ⟨⟩
    · exact absurd none_ has.2.1
    · exact absurd none_ has.2.1
  reads b d c image has _ _ := ⟨has, fun fresh => fresh⟩
  answered b d c image has _ _ := by
    rintro ⟨⟩
  grows b d c image got has _ part asked := by
    cases asked
    rcases part with rfl | rfl
    · exact .inr rfl
    · right
      rw [if_neg (by decide), append_nil]
  follows image file progarg part asked := by
    rcases part with rfl | rfl
    · cases asked
    · have known : interpreter "#!/bin/i\n".toUTF8.data.toList "/env/s" ["s"] (elem "/env/s") =
          .ok ("/bin/i", ["s", "/env/s"]) := by decide +kernel
      rw [known] at asked
      cases asked
      rfl
  closes d has := ⟨has.1, has.2.1, fresh_once has.2.2⟩
  again d has := has

end Ipnx.Exec
