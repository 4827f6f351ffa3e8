import Ipnx.Proc.Await

/-!
# What is left of processes that have exited

An entry leaves the table only when the parent takes the wait record in it. A process that
nobody can wait for any more, when it exits or when it is let go after a fault, keeps its entry
for ever. While every process that ends is either kept `Broken` or has a living parent to take
its record, the table holds nothing else.
-/

namespace Ipnx

open List
open Function (update update_of_ne update_self)

namespace Ledger

variable {l l' : Ledger} {c pid : Pid}

/-- The parent lives, and may take the process's record. -/
def Claimed (l : Ledger) (c : Pid) : Prop :=
  ∀ k, l.kin c = some k → k.waited = false ∧ ∃ q, l.kin k.ppid = some q ∧ q.status = none

structure Reaped (l : Ledger) : Prop where
  first : 0 < l.next
  /-- A parent is older than its children. -/
  older : ∀ c k, l.kin c = some k → k.ppid < c
  /-- A process that has exited is kept `Broken`, or waited for. -/
  finished : ∀ c k, l.kin c = some k → k.status.isSome → c ∈ l.broken ∨ l.Claimed c
  few : l.broken.length ≤ nbroken

theorem Reaped.akin (reaped : l.Reaped) (akin : l.Akin l') : l'.Reaped where
  first := akin.next ▸ reaped.first
  older c k here := reaped.older c k (akin.kin ▸ here)
  finished c k here ended := by
    rcases reaped.finished c k (akin.kin ▸ here) ended with kept | claimed
    · exact .inl (akin.broken ▸ kept)
    · right
      rw [Claimed, akin.kin]
      exact claimed
  few := akin.broken ▸ reaped.few

theorem Reaped.insert {k : Kin} (reaped : l.Reaped) (fresh : l.kin l.next = none)
    (kin : l'.kin = update l.kin l.next (some k)) (next : l'.next = l.next + 1)
    (broken : l'.broken = l.broken) (living : k.status = none) (older : k.ppid < l.next) :
    l'.Reaped where
  first := next ▸ Nat.succ_pos _
  older c k' here := by
    rcases eq_or_ne c l.next with rfl | differs
    · rw [kin, update_self, Option.some_inj] at here
      exact here ▸ older
    · rw [kin, update_of_ne differs] at here
      exact reaped.older c k' here
  finished c k' here ended := by
    rcases eq_or_ne c l.next with rfl | differs
    · rw [kin, update_self, Option.some_inj] at here
      rw [← here, living] at ended
      cases ended
    · rw [kin, update_of_ne differs] at here
      rcases reaped.finished c k' here ended with kept | claimed
      · exact .inl (broken ▸ kept)
      · right
        intro j found
        rw [kin, update_of_ne differs] at found
        rcases claimed j found with ⟨alone, q, parent, alive⟩
        have known : j.ppid ≠ l.next := by
          rintro same
          rw [same, fresh] at parent
          cases parent
        exact ⟨alone, q, by rw [kin, update_of_ne known, parent], alive⟩
  few := broken ▸ reaped.few

theorem Reaped.remove {k : Kin} (reaped : l.Reaped) (here : l.kin pid = some k)
    (ended : k.status.isSome) (kin : l'.kin = update l.kin pid none)
    (next : l'.next = l.next) (broken : l'.broken = l.broken) : l'.Reaped where
  first := next ▸ reaped.first
  older c j found := by
    rcases eq_or_ne c pid with rfl | differs
    · rw [kin, update_self] at found
      cases found
    · rw [kin, update_of_ne differs] at found
      exact reaped.older c j found
  finished c j found finished := by
    rcases eq_or_ne c pid with rfl | differs
    · rw [kin, update_self] at found
      cases found
    · rw [kin, update_of_ne differs] at found
      rcases reaped.finished c j found finished with kept | claimed
      · exact .inl (broken ▸ kept)
      · right
        intro i found'
        rw [kin, update_of_ne differs] at found'
        rcases claimed i found' with ⟨alone, q, parent, alive⟩
        have other : i.ppid ≠ pid := by
          rintro same
          rw [same, here, Option.some_inj] at parent
          rw [parent, alive] at ended
          cases ended
        exact ⟨alone, q, by rw [kin, update_of_ne other, parent], alive⟩
  few := broken ▸ reaped.few

theorem Reaped.exits {k : Kin} {msg : String} {times : Nat × Nat × Nat} (reaped : l.Reaped)
    (here : l.kin pid = some k)
    (kin : l'.kin = update l.kin pid (some ⟨k.ppid, k.waited, some msg, times⟩))
    (next : l'.next = l.next) (few : l'.broken.length ≤ nbroken)
    (own : pid ∈ l'.broken ∨ l.Claimed pid)
    (children : ∀ c j, l.kin c = some j → j.ppid = pid → j.waited = false → j.status.isSome →
      c ∈ l'.broken)
    (gone : ∀ c ∈ l.broken, c ≠ pid → c ∈ l'.broken ∨ l.Claimed c) : l'.Reaped := by
  have claimed {c : Pid} (claim : l.Claimed c)
      (apart : ∀ j, l.kin c = some j → j.waited = false → j.ppid ≠ pid) : l'.Claimed c := by
    intro j found
    have was : ∃ i, l.kin c = some i ∧ i.ppid = j.ppid ∧ i.waited = j.waited := by
      rcases eq_or_ne c pid with rfl | differs
      · rw [kin, update_self, Option.some_inj] at found
        exact ⟨k, here, by rw [← found], by rw [← found]⟩
      · rw [kin, update_of_ne differs] at found
        exact ⟨j, found, rfl, rfl⟩
    rcases was with ⟨i, there, parent, alone⟩
    rcases claim i there with ⟨unwaited, q, found', alive⟩
    refine ⟨alone ▸ unwaited, q, ?_, alive⟩
    rw [kin, ← parent, update_of_ne (apart i there unwaited), found']
  refine ⟨next ▸ reaped.first, fun c j found => ?_, fun c j found finished => ?_, few⟩
  · rcases eq_or_ne c pid with rfl | differs
    · rw [kin, update_self, Option.some_inj] at found
      rw [← found]
      exact reaped.older c k here
    · rw [kin, update_of_ne differs] at found
      exact reaped.older c j found
  · rcases eq_or_ne c pid with rfl | differs
    · apply own.imp_right
      intro claim
      apply claimed claim
      intro i there _
      exact (reaped.older c i there).ne
    · rw [kin, update_of_ne differs] at found
      by_cases kept : c ∈ l'.broken
      · exact .inl kept
      · right
        have claim : l.Claimed c := by
          rcases reaped.finished c j found finished with was | claim
          · exact (gone c was differs).resolve_left kept
          · exact claim
        apply claimed claim
        rintro i there alone mine
        rw [found, Option.some_inj] at there
        subst there
        exact kept (children c j found mine alone finished)

theorem Reaped.letgo (reaped : l.Reaped) (kin : l'.kin = l.kin) (next : l'.next = l.next)
    (few : l'.broken.length ≤ nbroken)
    (gone : ∀ c ∈ l.broken, c ∈ l'.broken ∨ l.Claimed c) : l'.Reaped where
  first := next ▸ reaped.first
  older c k here := reaped.older c k (kin ▸ here)
  finished c k here ended := by
    have same : l'.Claimed c = l.Claimed c := by rw [Claimed, Claimed, kin]
    rw [same]
    rcases reaped.finished c k (kin ▸ here) ended with kept | claimed
    · exact gone c kept
    · exact .inr claimed
  few := few

end Ledger

namespace Family

variable {w : Family} {s : Procs} {c pid : Pid}

/-- The parent of a process lives, and may take its record. -/
def Claimed (w : Family) (c : Pid) : Prop :=
  ∀ t, w.procs.tab c = some t →
    t.waited = false ∧ ∃ q, w.procs.tab t.ppid = some q ∧ q.status = none

/-- A process that ends has a living parent to take its record, or is kept `Broken`, and has
taken the records of its own children; one that is let go has a living parent. -/
def Orphanless (w : Family) : FamAct → Prop
  | .pexit pid _ freemem =>
      (freemem = true → w.Claimed pid) ∧
        (∀ c t, w.procs.tab c = some t → t.ppid = pid → t.waited = false → t.status.isSome →
          c ∈ w.procs.broken) ∧
        (freemem = false → w.procs.broken.length = nbroken → ∀ old ∈ w.procs.broken.head?,
          w.Claimed old ∧ ∀ t, w.procs.tab old = some t → t.ppid ≠ pid)
  | .table (.unbreak pid) => pid ∈ w.procs.broken → w.Claimed pid
  | _ => True

theorem claimed_ledger (claimed : w.Claimed c) : w.procs.ledger.Claimed c := by
  intro k here
  rcases Procs.tab_of_kin here with ⟨t, found, rfl⟩
  rcases claimed t found with ⟨alone, q, parent, alive⟩
  exact ⟨alone, q.kin, Procs.kin_eq parent, alive⟩

theorem claimed_of_ledger (claimed : w.procs.ledger.Claimed c) : w.Claimed c := by
  intro t found
  rcases claimed t.kin (Procs.kin_eq found) with ⟨alone, k, parent, alive⟩
  rcases Procs.tab_of_kin parent with ⟨q, there, rfl⟩
  exact ⟨alone, q, there, alive⟩

theorem fresh_kin (still : Still s) : s.ledger.kin s.ledger.next = none :=
  Procs.part_none (still.fresh le_rfl)

theorem broken_pexit {p : Proc} (status : String) (freemem : Bool) (found : s.tab pid = some p) :
    (s.pexit pid status freemem).ledger.broken =
      if freemem then s.broken
      else (if s.broken.length = nbroken then s.broken.tail else s.broken) ++ [pid] := by
  have exited := Procs.ledger_exits status found
  rw [Procs.pexit]
  cases freemem with
  | true => rw [if_pos rfl, if_pos rfl, exited]; rfl
  | false =>
      have same : (s.exits pid status).broken = s.broken := congrArg Ledger.broken exited
      rw [if_neg (by simp), if_neg (by simp), Procs.ledger_addbroken, same]

theorem kin_pexit {p : Proc} (status : String) (freemem : Bool) (found : s.tab pid = some p) :
    ∃ msg times, (s.pexit pid status freemem).ledger.kin =
        update s.ledger.kin pid (some ⟨p.ppid, p.waited, some msg, times⟩) ∧
      (s.pexit pid status freemem).ledger.next = s.ledger.next := by
  rcases kin_exits status found with ⟨msg, times, kin, next⟩
  refine ⟨msg, times, ?_⟩
  rw [Procs.pexit]
  split_ifs
  · exact ⟨kin, next⟩
  · rw [Procs.ledger_addbroken]
    exact ⟨kin, next⟩

theorem reaped_pexit {status : String} {freemem : Bool} (reaped : w.procs.ledger.Reaped)
    (source : w.procs.Active pid ∨ w.procs.Unentered pid)
    (orphanless : w.Orphanless (.pexit pid status freemem)) :
    (w.procs.pexit pid status freemem).ledger.Reaped := by
  rcases found_of_source source with ⟨p, found, -⟩
  rcases kin_pexit status freemem found with ⟨msg, times, kin, next⟩
  have broken := broken_pexit status freemem found
  rcases orphanless with ⟨own, children, oldest⟩
  have gone (c : Pid) (was : c ∈ w.procs.broken) :
      c ∈ (w.procs.pexit pid status freemem).ledger.broken ∨
        freemem = false ∧ w.procs.broken.length = nbroken ∧ c ∈ w.procs.broken.head? := by
    rw [broken]
    cases freemem with
    | true => exact .inl was
    | false =>
        rw [if_neg (by simp)]
        split_ifs with full
        · rcases kept : w.procs.broken with _ | ⟨old, rest⟩
          · rw [kept] at was
            cases was
          · rw [kept] at was full
            rcases mem_cons.mp was with rfl | later
            · exact .inr ⟨rfl, full, rfl⟩
            · exact .inl (mem_append_left _ later)
        · exact .inl (mem_append_left _ was)
  apply reaped.exits (Procs.kin_eq found) kin next
  · rw [broken]
    have few := reaped.few
    have count : w.procs.ledger.broken = w.procs.broken := rfl
    rw [count] at few
    split_ifs with kept full
    · exact few
    · simp only [length_append, length_tail, length_singleton, full, nbroken]
      omega
    · simp only [length_append, length_singleton]
      omega
  · cases freemem with
    | true => exact .inr (claimed_ledger (own rfl))
    | false => exact .inl (by simp [broken])
  · intro c j here mine alone finished
    rcases Procs.tab_of_kin here with ⟨t, there, rfl⟩
    rcases gone c (children c t there mine alone finished) with kept | ⟨plain, full, first⟩
    · exact kept
    · exact absurd mine ((oldest plain full c first).2 t there)
  · intro c was _
    rcases gone c was with kept | ⟨plain, full, first⟩
    · exact .inl kept
    · exact .inr (claimed_ledger (oldest plain full c first).1)

theorem reaped_table {a : Act} (reaped : w.procs.ledger.Reaped) (still : Still w.procs)
    (apart : w.Apart a) (orphanless : w.Orphanless (.table a)) :
    (w.procs.step a).ledger.Reaped := by
  rcases akin_step (s := w.procs) apart with akin | ⟨up, name, user, rfl⟩ | ⟨pid, rfl⟩
  · exact reaped.akin akin
  · have made : (w.procs.step (.kproc up name user)).ledger = _ :=
      Procs.ledger_kproc up name user
    rw [made]
    exact reaped.insert (fresh_kin still) Ledger.part_update rfl rfl rfl reaped.first
  · have same : (w.procs.step (.unbreak pid)).ledger = _ := Procs.ledger_unbreak
    rw [same]
    apply reaped.letgo
    · rfl
    · rfl
    · exact length_erase_le.trans reaped.few
    · intro c kept
      rcases eq_or_ne c pid with rfl | differs
      · exact .inr (claimed_ledger (orphanless kept))
      · exact .inl ((mem_erase_of_ne differs).mpr kept)

theorem reaped_rfork {flags : Nat} (reaped : w.procs.ledger.Reaped) (still : Still w.procs) :
    (w.rfork pid flags).procs.ledger.Reaped := by
  rcases forked : w.procs.sysrfork pid flags with _ | ⟨made, s⟩
  · simp only [Family.rfork, forked]
    exact reaped
  rcases Procs.ledger_sysrfork forked with ⟨parent, found, ⟨rfl, born⟩ | ⟨rfl, changed⟩⟩
  · simp only [Family.rfork, forked]
    rw [born]
    exact reaped.insert (fresh_kin still) Ledger.part_update rfl rfl rfl
      (still.board.wf.known (Procs.board_view found))
  · simp only [Family.rfork, forked]
    rw [changed]
    apply reaped.akin
    apply Ledger.like_edit
    intro o
    split_ifs <;> rfl

theorem reaped_take {order : List Pid} (reaped : w.procs.ledger.Reaped) :
    (w.take order pid).2.procs.ledger.Reaped := by
  rcases waitrecord_cases (s := w.procs) order pid with
    ⟨c, p, found, -, -, finished, same⟩ | ⟨same, -⟩
  · simp only [Family.take, same]
    rw [Procs.ledger_reap]
    exact reaped.remove (Procs.kin_eq found) finished Ledger.part_remove rfl rfl
  · simp only [Family.take, same]
    exact reaped

theorem reaped_step {a : FamAct} (reaped : w.procs.ledger.Reaped) (still : Still w.procs)
    (called : w.Called a) (orphanless : w.Orphanless a) : (w.step a).procs.ledger.Reaped := by
  cases a with
  | table a => exact reaped_table reaped still called.2.1 orphanless
  | rfork pid flags => exact reaped_rfork reaped still
  | pexit pid status freemem =>
      exact reaped_pexit reaped (called.1.imp_right And.left) orphanless
  | await pid order =>
      have slept : (w.procs.sleep pid (.proc pid .waitr) false).2.ledger = w.procs.ledger :=
        Procs.ledger_sleep _ _
      simp only [step, Family.await]
      split_ifs
      · exact reaped_take reaped
      · exact reaped
      · exact (slept ▸ reaped).akin (akin_interrupted pid)
      · exact slept ▸ reaped
  | resume pid order =>
      have noted := reaped.akin (akin_interrupted pid)
      simp only [step, Family.resume]
      split_ifs
      · exact noted
      · exact reaped_take (w := { w with
          waits := update w.waits pid false, procs := (w.procs.interrupted pid).2 }) noted

/-- Called as promised, and nobody ends whose record nobody can take. -/
def Settling (w : Family) (a : FamAct) : Prop := w.Called a ∧ w.Orphanless a

theorem reaped_new : new.procs.ledger.Reaped := by
  have only (c : Pid) (k : Kin) (here : new.procs.ledger.kin c = some k) :
      c = 1 ∧ k.ppid = 0 ∧ k.status = none := by
    rcases Procs.tab_of_kin here with ⟨t, found, rfl⟩
    simp only [new, Procs.new] at found
    split_ifs at found with first
    cases found
    exact ⟨first, rfl, rfl⟩
  refine ⟨Nat.succ_pos _, fun c k here => ?_, fun c k here finished => ?_, Nat.zero_le _⟩
  · rcases only c k here with ⟨rfl, parent, -⟩
    rw [parent]
    exact Nat.one_pos
  · rcases only c k here with ⟨-, -, living⟩
    rw [living] at finished
    cases finished

theorem reaped_of_reach (reached : family.Reach Settling w) :
    Still w.procs ∧ w.procs.ledger.Reaped := by
  refine System.Reach.invariant (fun w => Still w.procs ∧ w.procs.ledger.Reaped)
    (fun w first => ?_) (fun w a w' inv allowed moved => ?_) reached
  · exact first ▸ ⟨still_new, reaped_new⟩
  · obtain rfl : w' = w.step a := moved
    exact ⟨inv.1.called allowed.1, reaped_step inv.2 inv.1 allowed.1 allowed.2⟩

theorem mem_pids (still : Still s) : c ∈ s.pids ↔ (s.tab c).isSome := by
  simp only [Procs.pids, mem_filter, mem_range, and_iff_right_iff_imp]
  intro there
  by_contra unmade
  rw [still.fresh (not_lt.mp unmade)] at there
  cases there

/-- The table, and `#p`, hold nobody but the living, those whose parent lives and may take
their record, and the few kept `Broken`. -/
structure Housed (w : Family) : Prop where
  entry : ∀ c t, w.procs.tab c = some t → t.status = none ∨ w.Claimed c ∨ c ∈ w.procs.broken
  few : w.procs.broken.length ≤ nbroken
  listed : ∀ c, c ∈ w.procs.pids ↔ ∃ t, w.procs.tab c = some t ∧
    (t.status = none ∨ w.Claimed c ∨ c ∈ w.procs.broken)

/-- In every run in which each process that ends is kept `Broken` or has a living parent to take
its record, none leaves a record of a child untaken, and none is let go whose parent is gone,
there are no zombies. -/
theorem no_zombies (reached : family.Reach Settling w) : w.Housed := by
  rcases reaped_of_reach reached with ⟨still, reaped⟩
  have entry (c : Pid) (t : Proc) (found : w.procs.tab c = some t) :
      t.status = none ∨ w.Claimed c ∨ c ∈ w.procs.broken := by
    rcases finished : t.status with _ | msg
    · exact .inl rfl
    · right
      have ended : t.kin.status.isSome := by
        have same : t.kin.status = t.status := rfl
        simp [same, finished]
      rcases reaped.finished c t.kin (Procs.kin_eq found) ended with kept | claimed
      · exact .inr kept
      · exact .inl (claimed_of_ledger claimed)
  refine ⟨entry, reaped.few, fun c => ?_⟩
  rw [mem_pids still, Option.isSome_iff_exists]
  apply exists_congr
  intro t
  exact ⟨fun found => ⟨found, entry c t found⟩, And.left⟩

def child (flags : Nat) : Family :=
  (((new.step (.rfork 1 flags)).step (.table (.ready 2))).step (.table (.leave 1 .sched))).step
    (.table .sched)

theorem reach_child {flags : Nat} (plain : flags = Rf.proc ∨ flags = Rf.proc + Rf.nowait) :
    family.Reach Settling (child flags) := by
  have made := reach_step (.rfork 1 flags) (.init rfl : family.Reach Settling new)
    ⟨⟨active_new, rfl⟩, trivial⟩
  have fresh : ∃ p, (new.step (.rfork 1 flags)).procs.tab 2 = some p ∧ p.state = .scheding := by
    rcases plain with rfl | rfl <;> exact ⟨_, rfl, rfl⟩
  have idle (d : Pid) : (new.step (.rfork 1 flags)).waits d = false := by
    rcases plain with rfl | rfl <;> rfl
  have readied := reach_step (.table (.ready 2)) made
    ⟨⟨fresh.imp fun _ => And.imp_right .inl, trivial, fun d _ => idle d⟩, trivial⟩
  have left := reach_step (.table (.leave 1 .sched)) readied
    ⟨⟨by simp [Procs.Callers], trivial, fun d _ => idle d⟩, trivial⟩
  exact reach_step (.table .sched) left ⟨⟨trivial, trivial, fun d _ => idle d⟩, trivial⟩

/-- The child's record is still to be taken. -/
theorem no_zombies_child : ((child Rf.proc).step (.pexit 2 "" true)).Housed ∧
    ((child Rf.proc).step (.pexit 2 "" true)).procs.pids = [1, 2] := by
  have exits : family.Reach Settling ((child Rf.proc).step (.pexit 2 "" true)) := by
    apply reach_step (.pexit 2 "" true) (reach_child (.inl rfl))
    refine ⟨⟨.inl ⟨rfl, _, rfl, rfl, rfl⟩, rfl⟩, fun _ => ?_, fun c t found mine => ?_, by simp⟩
    · rintro t ⟨⟩
      exact ⟨rfl, _, rfl, rfl⟩
    · rcases reaped_of_reach (reach_child (.inl rfl)) with ⟨still, reaped⟩
      have older : t.ppid < c := reaped.older c t.kin (Procs.kin_eq found)
      have known : c < 3 := still.board.wf.known (Procs.board_view found)
      exact absurd (Nat.le_of_lt_succ known) (not_le.mpr (mine ▸ older))
  exact ⟨no_zombies exits, rfl⟩

/-- A child made with `RFNOWAIT` keeps its entry when it has exited. -/
theorem no_zombies_fails : ¬∀ w, family.Reach Called w → w.Housed := by
  intro holds
  have ran := (reach_child (.inr rfl)).mono fun _ _ settling => settling.1
  have exits := reach_step (.pexit 2 "" true) ran ⟨.inl ⟨rfl, _, rfl, rfl, rfl⟩, rfl⟩
  rcases (holds _ exits).entry 2 _ rfl with living | claimed | kept
  · cases living
  · cases (claimed _ rfl).1
  · cases kept

end Family

end Ipnx
