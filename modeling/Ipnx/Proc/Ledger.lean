import Ipnx.Proc.Leaves

/-!
# What a process's own calls are kept in

Scheduling reads and writes one half of a process; its parent, its wait record, its notes,
its alarm and its rendezvous are the other half. A `Ledger` is that half of the table. The
operations of the scheduler, the sleeps and the clock leave it as it is, the clock but for
the time, and each other operation is one entry.
-/

namespace Ipnx

open Function (update update_eq_iff)

/-- The half of a process that its calls and its notes are kept in. -/
structure Own where
  ppid : Pid
  kp : Bool
  waited : Bool
  status : Option String
  wait : Nat × Nat × Nat
  note : List Note
  notified : Bool
  notify : Nat
  notepending : Bool
  alarm : Nat
  rgrp : Nat
  rendtag : Nat
  rendval : Nat

def Proc.own (p : Proc) : Own where
  ppid := p.ppid
  kp := p.kp
  waited := p.waited
  status := p.status
  wait := p.wait
  note := p.note
  notified := p.notified
  notify := p.notify
  notepending := p.notepending
  alarm := p.alarm
  rgrp := p.rgrp
  rendtag := p.rendtag
  rendval := p.rendval

/-- That half of the table, and the lists that go with it. -/
@[ext]
structure Ledger where
  own : Pid → Option Own
  alarms : List Pid
  broken : List Pid
  rgrps : Nat → List Pid
  next : Pid
  ticks : Nat

def Ledger.edit (l : Ledger) (pid : Pid) (f : Own → Own) : Ledger :=
  { l with own := update l.own pid ((l.own pid).map f) }

/-- `Proc.addnote`, of what the notes are kept in. -/
def Own.addnote (msg : String) (flag : NoteFlag) (o : Own) : Own :=
  let note := if flag ≠ .nuser ∧ (o.notify = 0 ∨ o.notified) then [] else o.note
  { o with
    note := if note.length < nnote then note ++ [⟨floor msg (errmax - 1), flag⟩] else note
    notepending := true }

def Ledger.pull (l : Ledger) (pid : Pid) (g : Nat) : Ledger :=
  { l.edit pid (fun o => { o with rendval := 2 ^ 64 - 1 }) with
    rgrps := update l.rgrps g ((l.rgrps g).filter (· != pid)) }

namespace Procs

def ledger (s : Procs) : Ledger where
  own pid := (s.tab pid).map Proc.own
  alarms := s.alarms
  broken := s.broken
  rgrps := s.rgrps
  next := s.next
  ticks := s.m.ticks

variable {s s' : Procs} {pid : Pid}

theorem own_eq {p : Proc} (found : s.tab pid = some p) : s.ledger.own pid = some p.own := by
  simp [ledger, found]

theorem tab_of_own {o : Own} (here : s.ledger.own pid = some o) :
    ∃ p, s.tab pid = some p ∧ p.own = o :=
  Option.map_eq_some_iff.mp here

theorem ledger_change {f : Proc → Proc} {g : Own → Own}
    (same : ∀ p, s.tab pid = some p → (f p).own = g p.own) :
    (s.modify pid f).ledger = s.ledger.edit pid g := by
  simp only [ledger, modify, Ledger.edit, Ledger.mk.injEq, and_true]
  funext q
  rcases eq_or_ne q pid with rfl | differs
  · cases found : s.tab q with
    | none => simp
    | some p => simp [same p found]
  · simp [differs]

theorem ledger_modify {f : Proc → Proc} {g : Own → Own} (same : ∀ p, (f p).own = g p.own) :
    (s.modify pid f).ledger = s.ledger.edit pid g :=
  ledger_change fun p _ => same p

theorem ledger_keep {f : Proc → Proc} (same : ∀ p, (f p).own = p.own) :
    (s.modify pid f).ledger = s.ledger := by
  rw [ledger_modify (g := id) same]
  simp [Ledger.edit]

theorem ledger_setRendez (r : Rid) (who : Option Pid) : (s.setRendez r who).ledger = s.ledger := by
  rcases r with ⟨q, _ | _⟩ | _ | _ | _ | _ | _ | _
  case proc.sleep | proc.waitr => exact ledger_keep fun _ => rfl
  all_goals rfl

theorem ledger_claim : (s.claim pid).ledger = s.ledger := by
  rw [claim]
  split_ifs <;> rfl

theorem own_updatecpuAt (ticks : Nat) (running : Bool) (p : Proc) :
    (updatecpuAt ticks running p).own = p.own := by
  simp only [updatecpuAt]
  split_ifs <;> rfl

theorem ledger_updatecpu (running : Bool) : (s.updatecpu pid running).ledger = s.ledger :=
  ledger_keep (own_updatecpuAt s.m.ticks running)

theorem ledger_setstate (st : State) : (s.setstate pid st).ledger = s.ledger :=
  ledger_keep fun _ => rfl

theorem ledger_setlabel : (s.setlabel pid).ledger = s.ledger := ledger_keep fun _ => rfl

theorem ledger_queueproc (pri : Nat) : (s.queueproc pri pid).ledger = s.ledger :=
  ledger_keep (f := fun p => { p with priority := pri }) fun _ => rfl

theorem ledger_dequeueproc (pri : Nat) : (s.dequeueproc pri pid).2.ledger = s.ledger := by
  rw [dequeueproc]
  split_ifs <;> rfl

theorem ledger_ready : (s.ready pid).ledger = s.ledger := by
  rw [ready, ledger_queueproc, ledger_setstate, ledger_updatecpu, ledger_claim]

theorem ledger_takereadied (picked : s.takereadied = some (pid, s')) : s'.ledger = s.ledger := by
  simp only [takereadied] at picked
  split_ifs at picked
  split at picked
  · cases picked
  · split at picked
    · cases picked
    · split_ifs at picked
      simp only [Option.some_inj, Prod.mk.injEq] at picked
      rcases picked with ⟨-, rfl⟩
      exact ledger_dequeueproc _

theorem ledger_takehighest (picked : s.takehighest = some (pid, s')) : s'.ledger = s.ledger := by
  simp only [takehighest, Option.map_eq_some_iff, Prod.mk.injEq, Prod.exists] at picked
  rcases picked with ⟨place, q, -, -, rfl⟩
  exact ledger_dequeueproc _

theorem ledger_runproc (picked : s.runproc = some (pid, s')) : s'.ledger = s.ledger := by
  simp only [runproc, Option.map_eq_some_iff, Prod.mk.injEq, Prod.exists] at picked
  rcases picked with ⟨q, t, taken, -, rfl⟩
  rw [ledger_setstate]
  rcases readied : s.takereadied with _ | ⟨q', t'⟩
  · rw [readied, Option.none_or] at taken
    exact ledger_takehighest taken
  · rw [readied, Option.some_or, Option.some_inj] at taken
    exact ledger_takereadied (taken ▸ readied)

theorem ledger_enter : (s.enter pid).ledger = s.ledger := by
  let t := s.updatecpu pid (s.up == some pid)
  have charged : t.ledger = s.ledger := ledger_updatecpu _
  have prioritized : (t.modify pid fun p => { p with priority := t.reprioritize pid }).ledger =
      s.ledger := by rw [ledger_keep (by intro p; rfl), charged]
  rw [enter]
  simp only
  rw [ledger_setstate]
  split_ifs <;> exact prioritized

theorem ledger_sched (picked : s.sched = some (pid, s')) : s'.ledger = s.ledger := by
  simp only [sched, Option.map_eq_some_iff, Prod.mk.injEq, Prod.exists] at picked
  rcases picked with ⟨q, t, run, -, rfl⟩
  exact ledger_enter.trans (ledger_runproc run)

theorem ledger_leave (how : Left) : (s.leave pid how).ledger = s.ledger := by
  let t : Procs := ({ s with m := { s.m with cs := s.m.cs + 1 } } : Procs).modify pid fun p =>
    { p with delaysched := 0 }
  have left : t.ledger = s.ledger := ledger_keep fun _ => rfl
  unfold leave
  simp only
  split
  · exact left
  · exact (ledger_setstate _).trans left
  · exact ledger_ready.trans left
  · exact (ledger_setstate _).trans left
  · exact left

theorem ledger_putup : s.putup.ledger = s.ledger := by
  rw [putup]
  split
  · exact ledger_updatecpu true
  · rfl

theorem ledger_procpriority (pri : Nat) (fixed : Bool) :
    (s.procpriority pid pri fixed).ledger = s.ledger := ledger_keep fun _ => rfl

theorem ledger_execpri (root : Bool) : (s.execpri pid root).ledger = s.ledger :=
  ledger_keep fun _ => rfl

theorem ledger_countsleep (r : Rid) : (s.countsleep pid r).ledger = s.ledger := by
  rw [countsleep]
  split_ifs <;> rfl

theorem ledger_sleep (r : Rid) (happened : Bool) :
    (s.sleep pid r happened).2.ledger = s.ledger := by
  rw [sleep]
  simp only
  split_ifs
  · rw [ledger_setRendez, ledger_countsleep]
  · rw [ledger_setlabel, ledger_keep (f := Proc.sleepat r) fun _ => rfl, ledger_setRendez,
      ledger_countsleep]

theorem ledger_tsleep (r : Rid) (happened : Bool) (deadline : Nat) :
    (s.tsleep pid r happened deadline).2.ledger = s.ledger := by
  have timed : (s.modify pid (Proc.settimer (some r) (some deadline))).ledger = s.ledger :=
    ledger_keep fun _ => rfl
  rw [tsleep]
  simp only
  split_ifs
  · rw [ledger_sleep, timed]
  · rw [ledger_keep (f := Proc.settimer none none) fun _ => rfl, ledger_sleep, timed]

theorem ledger_wakeup (r : Rid) : (s.wakeup r).2.ledger = s.ledger := by
  rw [wakeup]
  split
  · rfl
  · split_ifs
    · rw [ledger_ready, ledger_keep (f := Proc.unslept) fun _ => rfl, ledger_setRendez]
    · rfl

theorem ledger_stop : (s.stop pid).ledger = s.ledger := by
  rw [stop]
  split
  · rfl
  · simp only
    rw [ledger_setlabel]
    split
    · rw [ledger_wakeup, ledger_keep (f := Proc.stopped) fun _ => rfl]
    · exact ledger_keep fun _ => rfl

theorem ledger_qlock (l : QLock) : (s.qlock l pid).2.2.ledger = s.ledger := by
  rw [qlock]
  split_ifs
  · rw [ledger_setlabel, ledger_setstate]
  · rfl

theorem ledger_qunlock (l : QLock) : (s.qunlock l).2.ledger = s.ledger := by
  unfold qunlock
  split
  · exact ledger_ready
  · rfl

theorem ledger_foldl {α : Type} {turn : Procs → α → Procs} (list : List α)
    (keeps : ∀ s a, (turn s a).ledger = s.ledger) : (list.foldl turn s).ledger = s.ledger := by
  induction list generalizing s with
  | nil => rfl
  | cons a rest ih => exact ih.trans (keeps s a)

theorem ledger_another (pri : Nat) : (s.another pri).ledger = s.ledger := by
  fun_induction another s pri with
  | case1 => rfl
  | case2 => rfl
  | case3 => exact ledger_updatecpu _
  | case4 s pid rest first elsewhere t npri differs ih =>
      rw [ih, ledger_queueproc, ledger_dequeueproc]
      exact ledger_updatecpu _

theorem ledger_rebalance : s.rebalance.ledger = s.ledger := by
  rw [rebalance]
  simp only
  split_ifs
  · rfl
  · exact ledger_foldl _ fun _ => ledger_another

theorem ledger_hzsched (up : Pid) : (s.hzsched up).ledger = s.ledger := by
  have rebalanced : s.rebalance.ledger = s.ledger := ledger_rebalance
  rw [hzsched]
  simp only
  split_ifs
  · rw [ledger_keep (by intro p; rfl)]
    exact rebalanced
  · exact rebalanced

theorem ledger_accounttime (now : Nat) : (s.accounttime now).ledger = s.ledger := by
  have charged : s.charge.ledger = s.ledger := by
    rw [charge]
    split
    · rfl
    · apply ledger_keep
      intro p
      split_ifs <;> rfl
  exact charged

theorem ledger_checkalarms : s.checkalarms.ledger = s.ledger := by
  rw [checkalarms]
  split_ifs
  · exact ledger_wakeup _
  · rfl

theorem ledger_hzclock (now : Nat) :
    (s.hzclock now).ledger = { s.ledger with ticks := s.ledger.ticks + 1 } := by
  have ticked : ((({ s with m := { s.m with ticks := s.m.ticks + 1 } } : Procs).accounttime
      now).checkalarms).ledger = { s.ledger with ticks := s.ledger.ticks + 1 } := by
    rw [ledger_checkalarms, ledger_accounttime]
    rfl
  rw [hzclock]
  simp only
  split
  · split_ifs
    · exact (ledger_hzsched _).trans ticked
    · exact ticked
  · exact ticked

theorem ledger_twakeup : (s.twakeup pid).ledger = s.ledger := by
  rw [twakeup]
  split
  · rw [ledger_wakeup, ledger_keep (f := Proc.untimed) fun _ => rfl]
  · rfl

theorem ledger_profintr (now : Nat) : (s.profintr now).ledger = s.ledger := by
  rw [profintr]
  split
  · split_ifs <;> rfl
  · rfl

theorem ledger_hzintr (now : Nat) :
    (s.hzintr now).ledger = s.ledger ∨
      (s.hzintr now).ledger = { s.ledger with ticks := s.ledger.ticks + 1 } := by
  rw [hzintr]
  split
  · split_ifs
    · exact .inr (ledger_hzclock now)
    · exact .inl rfl
  · exact .inl rfl

theorem ledger_timerintr (order : List Pid) (now : Nat) :
    (s.timerintr order now).ledger = s.ledger ∨
      (s.timerintr order now).ledger = { s.ledger with ticks := s.ledger.ticks + 1 } := by
  let t := ((s.profintr now).due order now).foldl twakeup (s.profintr now)
  have fired : t.ledger = s.ledger :=
    (ledger_foldl _ fun _ _ => ledger_twakeup).trans (ledger_profintr now)
  have ticked : (t.hzintr now).ledger = _ ∨ (t.hzintr now).ledger = _ := ledger_hzintr now
  rw [fired] at ticked
  exact ticked

theorem ledger_addnote (msg : String) (flag : NoteFlag) :
    (s.modify pid (Proc.addnote msg flag)).ledger = s.ledger.edit pid (Own.addnote msg flag) :=
  ledger_modify fun _ => rfl

theorem ledger_postnote {p : Proc} (msg : String) (flag : NoteFlag) (found : s.tab pid = some p) :
    (s.postnote pid msg flag).2.ledger =
      if p.state = .rendezvous then
        (s.ledger.edit pid (Own.addnote msg flag)).pull pid p.rgrp
      else s.ledger.edit pid (Own.addnote msg flag) := by
  have noted : (s.modify pid (Proc.addnote msg flag)).ledger =
      s.ledger.edit pid (Own.addnote msg flag) := ledger_addnote msg flag
  rw [postnote, found]
  simp only
  split
  case h_1 r asleep link =>
    rw [if_neg (by simp [asleep]), ledger_ready, ledger_setRendez,
      ledger_keep (f := Proc.unslept) fun _ => rfl, noted]
  case h_2 waiting =>
    let t := s.modify pid (Proc.addnote msg flag)
    have pulled : (t.modify pid fun p => { p with rendval := 2 ^ 64 - 1 }).ledger =
        t.ledger.edit pid fun o => { o with rendval := 2 ^ 64 - 1 } := ledger_modify fun _ => rfl
    have left : ((t.modify pid fun p => { p with rendval := 2 ^ 64 - 1 }).leavergrp p.rgrp
        pid).ledger = t.ledger.pull pid p.rgrp := by
      rw [Ledger.pull, ← pulled]
      rfl
    rw [if_pos waiting, ledger_ready, ← noted]
    exact left
  case h_3 elsewhere _ =>
    rw [if_neg elsewhere, noted]

theorem ledger_postnote_none (msg : String) (flag : NoteFlag) (absent : s.tab pid = none) :
    (s.postnote pid msg flag).2 = s := by
  rw [postnote, absent]

theorem ledger_insert {p : Proc} {nextrgrp noteidalloc : Nat} :
    ({ s.insert s.next p with
        next := s.next + 1
        noteidalloc := noteidalloc
        nextrgrp := nextrgrp } : Procs).ledger =
      { s.ledger with
        own := update s.ledger.own s.next (some p.own)
        next := s.next + 1 } := by
  simp only [ledger, insert, Ledger.mk.injEq, and_true]
  funext q
  rcases eq_or_ne q s.next with rfl | differs
  · simp
  · simp [differs]

theorem ledger_rforkself (flags : Nat) :
    (s.rforkself pid flags).ledger = s.ledger.edit pid fun o =>
      if Rf.has flags Rf.rend then { o with rgrp := s.nextrgrp } else o := by
  have numbered (t : Procs) :
      (if Rf.has flags Rf.noteg then t.newnoteid pid else t).ledger = t.ledger := by
    split_ifs
    · exact ledger_keep fun _ => rfl
    · rfl
  rw [rforkself, numbered]
  split_ifs
  · exact ledger_modify fun _ => rfl
  · simp [Ledger.edit]

theorem ledger_sysrfork {flags : Nat} {made : Option Pid}
    (forked : s.sysrfork pid flags = .ok (made, s')) :
    ∃ parent, s.tab pid = some parent ∧
      (made = some s.next ∧
          s'.ledger =
            { s.ledger with
              own := update s.ledger.own s.next (some (s.child pid parent flags).own)
              next := s.next + 1 } ∨
        made = none ∧
          s'.ledger = s.ledger.edit pid fun o =>
            if Rf.has flags Rf.rend then { o with rgrp := s.nextrgrp } else o) := by
  simp only [sysrfork, bind, Except.bind] at forked
  split at forked
  · cases forked
  · split at forked
    · cases forked
    case h_2 parent found =>
      refine ⟨parent, found, ?_⟩
      split_ifs at forked
      · simp only [pure, Except.pure, Except.ok.injEq, Prod.mk.injEq] at forked
        rcases forked with ⟨rfl, rfl⟩
        exact .inl ⟨rfl, ledger_insert⟩
      · simp only [pure, Except.pure, Except.ok.injEq, Prod.mk.injEq] at forked
        rcases forked with ⟨rfl, rfl⟩
        exact .inr ⟨rfl, ledger_rforkself flags⟩

theorem ledger_kproc (up : Pid) (name user : String) :
    (s.kproc up name user).2.ledger =
      { s.ledger with
        own := update s.ledger.own s.next (some (s.kchild up name user).own)
        next := s.next + 1 } := by
  rw [kproc]
  simp only
  rw [ledger_ready, ledger_procpriority, ledger_insert]

theorem ledger_unready (p : Proc) : (s.unready pid p).ledger = s.ledger := by
  simp only [unready, dequeueproc]
  split_ifs <;> rfl

theorem ledger_exits {p : Proc} (status : String) (found : s.tab pid = some p) :
    (s.exits pid status).ledger =
      s.ledger.edit pid fun _ => (p.ended s.m.ticks status).own := by
  have fixed : (s.modify pid (Proc.ended s.m.ticks status)).ledger =
      s.ledger.edit pid fun _ => (p.ended s.m.ticks status).own := by
    apply ledger_change
    intro q here
    rw [Option.some_inj.mp (found.symm.trans here)]
  rw [exits, found]
  simp only
  rw [ledger_wakeup, ledger_setstate, ledger_unready,
    ledger_keep (f := Proc.addchild p) fun _ => rfl, fixed]

theorem ledger_letgo : s.letgo.ledger =
    { s.ledger with
      broken := if s.broken.length = nbroken then s.broken.tail else s.broken } := by
  rw [letgo]
  split
  case h_1 old rest oldest =>
    split_ifs with full
    · have gone : (s.setstate old .dead).ledger = s.ledger := ledger_setstate _
      rw [← gone, oldest]
      rfl
    · rfl
  case h_2 none =>
    split_ifs with full
    · simp [none, nbroken] at full
    · rfl

theorem ledger_addbroken : (s.addbroken pid).ledger =
    { s.ledger with
      broken := (if s.broken.length = nbroken then s.broken.tail else s.broken) ++ [pid] } := by
  have letgo := ledger_letgo (s := s)
  rw [addbroken]
  simp only
  rw [ledger_keep (by intro p; rfl)]
  simp only [ledger, Ledger.mk.injEq] at letgo ⊢
  rcases letgo with ⟨own, alarms, broken, rest⟩
  exact ⟨own, alarms, by rw [broken], rest⟩

theorem ledger_unbreak : (s.unbreak pid).ledger =
    { s.ledger with broken := s.broken.erase pid } := by
  rw [unbreak]
  split_ifs with kept
  · have gone : (s.setstate pid .dead).ledger = s.ledger := ledger_setstate _
    rw [← gone]
    rfl
  · rw [List.erase_of_not_mem kept]
    rfl

theorem ledger_reap (c : Pid) :
    ({ s with tab := update s.tab c none } : Procs).ledger =
      { s.ledger with own := update s.ledger.own c none } := by
  simp only [ledger, Ledger.mk.injEq, and_true]
  funext q
  rcases eq_or_ne q c with rfl | differs
  · simp
  · simp [differs]

theorem ledger_awaitChild (order : List Pid) (pid : Pid) :
    (∃ c p, s.tab c = some p ∧ p.status.isSome ∧ (s.awaitChild order pid).2.ledger =
        { s.ledger with own := update s.ledger.own c none }) ∨
      (s.awaitChild order pid).2 = s := by
  rw [awaitChild]
  split
  case h_1 c first =>
    left
    have record := List.find?_some first
    rcases (Option.any_eq_true _ _).mp record with ⟨p, found, holds⟩
    simp only [Bool.and_eq_true] at holds
    exact ⟨c, p, found, holds.2, ledger_reap c⟩
  case h_2 => exact .inr rfl

theorem ledger_meet {g val : Nat} : (s.meet g pid val).ledger =
    { s.ledger.edit pid (fun o => { o with rendval := val }) with
      rgrps := update s.rgrps g ((s.rgrps g).erase pid) } := by
  let left : Procs := { s with rgrps := update s.rgrps g ((s.rgrps g).erase pid) }
  have given : (left.modify pid fun p => { p with rendval := val }).ledger =
      left.ledger.edit pid fun o => { o with rendval := val } := ledger_modify fun _ => rfl
  rw [meet]
  simp only
  rw [ledger_ready, given]
  rfl

theorem ledger_gather {g tag val : Nat} : (s.gather g pid tag val).ledger =
    { s.ledger.edit pid (fun o => { o with rendtag := tag, rendval := val }) with
      rgrps := update s.rgrps g (s.rgrps g ++ [pid]) } := by
  let waits := s.modify pid fun p => { p with rendtag := tag, rendval := val, state := .rendezvous }
  have given : waits.ledger =
      s.ledger.edit pid fun o => { o with rendtag := tag, rendval := val } :=
    ledger_modify fun _ => rfl
  rw [gather]
  simp only
  rw [ledger_setlabel, ← given]
  rfl

def waiter (s : Procs) (g tag : Nat) : Option Pid :=
  (s.rgrps g).find? fun q => (s.tab q).any (·.rendtag == tag)

theorem rendezvous_cases {p : Proc} (tag val : Nat) (found : s.tab pid = some p) :
    (∃ q, s.waiter p.rgrp tag = some q ∧
      s.rendezvous pid tag val =
        (s.modify pid fun p => { p with rendval := 2 ^ 64 - 1 }).meet p.rgrp q val) ∨
      s.waiter p.rgrp tag = none ∧
        s.rendezvous pid tag val =
          (s.modify pid fun p => { p with rendval := 2 ^ 64 - 1 }).gather p.rgrp pid tag val := by
  let t := s.modify pid fun p => { p with rendval := 2 ^ 64 - 1 }
  have same : t.waiter p.rgrp tag = s.waiter p.rgrp tag := by
    have tags (q : Pid) :
        (t.tab q).any (·.rendtag == tag) = (s.tab q).any (·.rendtag == tag) := by
      rcases eq_or_ne q pid with rfl | differs
      · simp [t, found]
      · simp [t, differs]
    simp only [waiter, tags]
    rfl
  rcases met : s.waiter p.rgrp tag with _ | q
  · right
    refine ⟨rfl, ?_⟩
    rw [met, waiter] at same
    simp only [rendezvous, found, t] at same ⊢
    rw [same]
  · left
    refine ⟨q, rfl, ?_⟩
    rw [met, waiter] at same
    simp only [rendezvous, found, t] at same ⊢
    rw [same]

/-- The scheduler's operations, the sleeps and the clock. -/
def Calm : Act → Prop
  | .postnote .. | .pgrpnote .. | .rfork .. | .kproc .. | .exits .. | .addbroken _ | .unbreak _
  | .awaitChild .. | .rendezvous .. | .edit .. => False
  | _ => True

def Ticking : Act → Prop
  | .timerintr .. | .hzclock _ => True
  | _ => False

theorem ledger_still {a : Act} (calm : Calm a) (still : ¬Ticking a) :
    (s.step a).ledger = s.ledger := by
  cases a with
  | ready pid => exact ledger_ready
  | leave pid how => exact ledger_leave how
  | putup => exact ledger_putup
  | sched =>
      rcases picked : s.sched with _ | ⟨pid, s'⟩
      · simp only [step, picked]
        rfl
      · simp only [step, picked]
        exact ledger_sched picked
  | sleep pid r happened => exact ledger_sleep r happened
  | tsleep pid r happened deadline => exact ledger_tsleep r happened deadline
  | wakeup r => exact ledger_wakeup r
  | procpriority pid pri fixed => exact ledger_procpriority pri fixed
  | execpri pid root => exact ledger_execpri root
  | rebalance => exact ledger_rebalance
  | stop pid => exact ledger_stop
  | qlock l pid => exact ledger_qlock l
  | qunlock l => exact ledger_qunlock l
  | timerintr | hzclock => exact absurd trivial still
  | postnote | pgrpnote | rfork | kproc | exits | addbroken | unbreak | awaitChild | rendezvous
  | edit => exact absurd calm id

theorem ledger_calm {a : Act} (calm : Calm a) :
    ∃ ticks, (s.step a).ledger = { s.ledger with ticks := ticks } := by
  by_cases still : Ticking a
  · cases a with
    | timerintr order now => exact (ledger_timerintr order now).elim (⟨_, ·⟩) (⟨_, ·⟩)
    | hzclock now => exact ⟨_, ledger_hzclock now⟩
    | _ => exact absurd still id
  · exact ⟨_, ledger_still calm still⟩

end Procs

universe u

def Ledger.part {β : Type u} (f : Own → β) (l : Ledger) (pid : Pid) : Option β :=
  (l.own pid).map f

/-- Two ledgers that are alike in what `f` reads. -/
structure Ledger.Like {β : Type u} (f : Own → β) (l l' : Ledger) : Prop where
  part : l'.part f = l.part f
  next : l'.next = l.next
  broken : l'.broken = l.broken
  alarms : l'.alarms = l.alarms

/-- `f` does not read what a rendezvous goes by, nor whether a note is pending. -/
structure Own.Aside {β : Type u} (f : Own → β) : Prop where
  taken : ∀ o : Own, f { o with notepending := false } = f o
  met : ∀ (o : Own) tag val, f { o with rendtag := tag, rendval := val } = f o
  regrouped : ∀ (o : Own) g, f { o with rgrp := g } = f o

/-- `f` reads neither notes nor what a rendezvous goes by. -/
structure Own.Apart {β : Type u} (f : Own → β) : Prop extends Own.Aside f where
  noted : ∀ msg flag o, f (Own.addnote msg flag o) = f o

namespace Ledger

variable {β : Type u} {f : Own → β} {l l' l'' : Ledger} {pid : Pid}

theorem Like.refl : l.Like f l := ⟨rfl, rfl, rfl, rfl⟩

theorem Like.trans (before : l.Like f l') (after : l'.Like f l'') : l.Like f l'' where
  part := after.part.trans before.part
  next := after.next.trans before.next
  broken := after.broken.trans before.broken
  alarms := after.alarms.trans before.alarms

theorem part_update {own : Own} {next : Pid} : ({ l with
      own := update l.own pid (some own), next := next } : Ledger).part f =
    update (l.part f) pid (some (f own)) := by
  funext c
  rcases eq_or_ne c pid with rfl | differs
  · simp [part]
  · simp [part, differs]

theorem part_remove : ({ l with own := update l.own pid none } : Ledger).part f =
    update (l.part f) pid none := by
  funext c
  rcases eq_or_ne c pid with rfl | differs
  · simp [part]
  · simp [part, differs]

theorem part_edit {g : Own → Own} : (l.edit pid g).part f =
    update (l.part f) pid ((l.own pid).map fun o => f (g o)) := by
  funext c
  rcases eq_or_ne c pid with rfl | differs
  · simp [part, edit, Function.comp_def]
  · simp [part, edit, differs]

theorem like_edit {g : Own → Own} (keeps : ∀ o, f (g o) = f o) : l.Like f (l.edit pid g) := by
  refine ⟨?_, rfl, rfl, rfl⟩
  rw [part_edit, update_eq_iff]
  exact ⟨by simp [part, keeps], fun _ _ => rfl⟩

theorem like_pull (aside : Own.Aside f) (g : Nat) : l.Like f (l.pull pid g) := by
  have edited : l.Like f (l.edit pid fun o => { o with rendval := 2 ^ 64 - 1 }) :=
    like_edit fun o => aside.met o o.rendtag _
  exact { edited with }

end Ledger

namespace Procs

variable {β : Type u} {f : Own → β} {s s' : Procs} {pid : Pid}

theorem part_eq {p : Proc} (found : s.tab pid = some p) : s.ledger.part f pid = some (f p.own) := by
  simp [Ledger.part, own_eq found]

theorem part_none (absent : s.tab pid = none) : s.ledger.part f pid = none := by
  simp [Ledger.part, ledger, absent]

theorem tab_of_part {x : β} (here : s.ledger.part f pid = some x) :
    ∃ p, s.tab pid = some p ∧ f p.own = x := by
  rcases Option.map_eq_some_iff.mp here with ⟨o, own, rfl⟩
  rcases tab_of_own own with ⟨p, found, rfl⟩
  exact ⟨p, found, rfl⟩

theorem like_postnote (apart : Own.Apart f) (msg : String) (flag : NoteFlag) :
    s.ledger.Like f (s.postnote pid msg flag).2.ledger := by
  rcases found : s.tab pid with _ | p
  · rw [ledger_postnote_none msg flag found]
    exact .refl
  · have noted : s.ledger.Like f (s.ledger.edit pid (Own.addnote msg flag)) :=
      Ledger.like_edit (apart.noted msg flag)
    rw [ledger_postnote msg flag found]
    split_ifs
    · exact noted.trans (Ledger.like_pull apart.toAside _)
    · exact noted

section Like

variable (aside : Own.Aside f)

include aside

theorem like_rendezvous (tag val : Nat) : s.ledger.Like f (s.rendezvous pid tag val).ledger := by
  rcases found : s.tab pid with _ | p
  · simp only [rendezvous, found]
    exact .refl
  · let t := s.modify pid fun p => { p with rendval := 2 ^ 64 - 1 }
    have reset : t.ledger = s.ledger.edit pid fun o => { o with rendval := 2 ^ 64 - 1 } :=
      ledger_modify fun _ => rfl
    have like : s.ledger.Like f t.ledger := by
      rw [reset]
      exact Ledger.like_edit fun o => aside.met o o.rendtag _
    rcases rendezvous_cases tag val found with ⟨q, -, same⟩ | ⟨-, same⟩
    · have edited : t.ledger.Like f (t.ledger.edit q fun o => { o with rendval := val }) :=
        Ledger.like_edit fun o => aside.met o o.rendtag _
      rw [same, ledger_meet]
      exact like.trans { edited with }
    · have edited : t.ledger.Like f
          (t.ledger.edit pid fun o => { o with rendtag := tag, rendval := val }) :=
        Ledger.like_edit fun o => aside.met o _ _
      rw [same, ledger_gather]
      exact like.trans { edited with }

theorem like_interrupted : s.ledger.Like f (s.interrupted pid).2.ledger := by
  have noted : (s.interrupted pid).2.ledger =
      s.ledger.edit pid fun o => { o with notepending := false } := ledger_modify fun _ => rfl
  rw [noted]
  exact Ledger.like_edit aside.taken

end Like

theorem like_foldl {α : Type} {turn : Procs → α → Procs} (list : List α)
    (keeps : ∀ (s : Procs) (a : α), s.ledger.Like f (turn s a).ledger) :
    s.ledger.Like f (list.foldl turn s).ledger := by
  induction list generalizing s with
  | nil => exact .refl
  | cons a rest ih => exact (keeps s a).trans ih

theorem like_modify {g : Proc → Proc} (keeps : ∀ p, f (g p).own = f p.own) :
    s.ledger.Like f (s.modify pid g).ledger := by
  refine ⟨?_, rfl, rfl, rfl⟩
  funext c
  simp only [Ledger.part, ledger, Option.map_map]
  rcases eq_or_ne c pid with rfl | differs
  · rw [modify_tab_self, Option.map_map]
    congr 1
    funext p
    exact keeps p
  · rw [modify_tab_of_ne s pid g differs]

/-- What an operation does to who is in the table, and to what `f` reads of them. -/
inductive Turn {γ : Type u} (g : Own → γ) (t : Procs) : Act → Prop
  | like {a : Act} : t.ledger.Like g (t.step a).ledger → Turn g t a
  | rfork {pid : Pid} {flags : Nat} {parent : Proc} : t.tab pid = some parent →
      (t.step (.rfork pid flags)).ledger = { t.ledger with
        own := update t.ledger.own t.next (some (t.child pid parent flags).own)
        next := t.next + 1 } → Turn g t (.rfork pid flags)
  | kproc (up : Pid) (name user : String) : Turn g t (.kproc up name user)
  | exits {pid : Pid} {p : Proc} (status : String) : t.tab pid = some p →
      Turn g t (.exits pid status)
  | addbroken (pid : Pid) : Turn g t (.addbroken pid)
  | unbreak (pid : Pid) : Turn g t (.unbreak pid)
  | awaitChild (order : List Pid) (pid : Pid) : Turn g t (.awaitChild order pid)
  | edit (pid : Pid) (h : Proc → Proc) : Turn g t (.edit pid h)

theorem turn_quiet (aside : Own.Aside f) (a : Act)
    (quiet : ∀ pid msg flag, a ≠ .postnote pid msg flag)
    (alone : ∀ order up noteid msg flag, a ≠ .pgrpnote order up noteid msg flag) :
    Turn f s a := by
  by_cases calm : Calm a
  · rcases ledger_calm (s := s) calm with ⟨ticks, same⟩
    apply Turn.like
    rw [same]
    exact ⟨rfl, rfl, rfl, rfl⟩
  · cases a with
    | postnote pid msg flag => exact absurd rfl (quiet pid msg flag)
    | pgrpnote order up noteid msg flag => exact absurd rfl (alone order up noteid msg flag)
    | rfork pid flags =>
        rcases forked : s.sysrfork pid flags with _ | ⟨made, s'⟩
        · apply Turn.like
          simp only [step, forked]
          exact .refl
        · rcases ledger_sysrfork forked with ⟨parent, found, ⟨-, born⟩ | ⟨-, changed⟩⟩
          · apply Turn.rfork found
            simp only [step, forked]
            exact born
          · apply Turn.like
            simp only [step, forked]
            rw [changed]
            apply Ledger.like_edit
            intro o
            split_ifs
            · exact aside.regrouped o _
            · rfl
    | kproc up name user => exact .kproc up name user
    | exits pid status =>
        rcases found : s.tab pid with _ | p
        · apply Turn.like
          simp only [step, Procs.exits, found]
          exact .refl
        · exact .exits status found
    | addbroken pid => exact .addbroken pid
    | unbreak pid => exact .unbreak pid
    | awaitChild order pid => exact .awaitChild order pid
    | rendezvous pid tag val => exact .like (like_rendezvous aside tag val)
    | edit pid g => exact .edit pid g
    | _ => exact absurd trivial calm

theorem turn (apart : Own.Apart f) (a : Act) : Turn f s a := by
  cases a with
  | postnote pid msg flag => exact .like (like_postnote apart msg flag)
  | pgrpnote order up noteid msg flag =>
      exact .like (like_foldl _ fun _ _ => like_postnote apart msg flag)
  | _ => exact turn_quiet apart.toAside _ (by simp) (by simp)

end Procs

end Ipnx
