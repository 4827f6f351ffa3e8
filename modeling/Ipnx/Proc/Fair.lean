import Ipnx.Proc.Leaves

/-!
# The scheduler's arithmetic

What `updatecpu`, `reprioritize` and `rebalance` keep over every run of the table in which the
clock shows any ticks at all: how much processor a process has had stays a part of a thousand, no
product that it is computed from leaves 32 bits, and a process's priority is at most its base.
-/

namespace Ipnx

/-- What the arithmetic keeps of a process. -/
def Proc.Fair (p : Proc) : Prop := p.cpu ≤ 1000 ∧ p.priority ≤ p.basepri ∧ p.basepri < Pri.npriq

/-- What happens to the table: an operation, one process's account, the accounts of a tick, or the
machine's clocks set to anything. -/
inductive Beat
  | act (a : Act)
  | update (pid : Pid) (running : Bool)
  | account (now : Nat)
  | clocks (ticks : Nat) (hz profclock : Option Nat)

namespace Procs

def setclocks (s : Procs) (ticks : Nat) (hz profclock : Option Nat) : Procs :=
  { s with m := { s.m with ticks := ticks, hz := hz }, profclock := profclock }

def clockstep (s : Procs) : Beat → Procs
  | .act a => s.step a
  | .update pid running => s.updatecpu pid running
  | .account now => s.accounttime now
  | .clocks ticks hz profclock => s.setclocks ticks hz profclock

def clocked : System Procs Beat where
  init s := s = Procs.new
  step s t s' := s' = s.clockstep t

/-- A change of other fields leaves the scheduler's. -/
def Unscheduled : Beat → Prop
  | .act (.edit _ f) =>
      ∀ p, (f p).cpu = p.cpu ∧ (f p).priority = p.priority ∧ (f p).basepri = p.basepri
  | _ => True

variable {s s' : Procs} {pid : Pid}

/-- A product in 32 bits, and a difference. -/
def mul32 (a b : Nat) : Option Nat := if a * b < 2 ^ 32 then some (a * b) else none

def sub32 (a b : Nat) : Option Nat := if b ≤ a then some (a - b) else none

/-- `updatecpu` with an answer only where nothing it computes leaves 32 bits. -/
def updatecpu32 (ticks : Nat) (running : Bool) (p : Proc) : Option Proc := do
  let d := schedgain * hz * scaling
  let t := (ticks * scaling + scaling / 2) % 2 ^ 32
  let n := min (t - p.lastupdate % 2 ^ 32) d
  if n = 0 then some { p with lastupdate := t }
  else if running then
    let x ← mul32 (1000 - p.cpu) (← sub32 d n)
    let cpu ← sub32 1000 (x / d)
    some { p with lastupdate := t, cpu := cpu }
  else
    let x ← mul32 p.cpu (← sub32 d n)
    some { p with lastupdate := t, cpu := x / d }

theorem mul32_part {x d n : Nat} (part : x ≤ 1000) (short : d ≤ 6000) :
    mul32 x (d - n) = some (x * (d - n)) := by
  have small : x * (d - n) ≤ 1000 * 6000 := Nat.mul_le_mul part (by omega)
  exact if_pos (by omega)

theorem part_le {x d n : Nat} : x * (d - n) / d ≤ x :=
  Nat.div_le_of_le_mul (by rw [Nat.mul_comm d]; exact Nat.mul_le_mul_left x (Nat.sub_le d n))

theorem updatecpu32_eq {p : Proc} (ticks : Nat) (running : Bool) (part : p.cpu ≤ 1000) :
    updatecpu32 ticks running p = some (updatecpuAt ticks running p) := by
  have short (t : Nat) : min t (schedgain * hz * scaling) ≤ schedgain * hz * scaling :=
    Nat.min_le_right _ _
  have whole : schedgain * hz * scaling ≤ 6000 := by decide
  have left (n : Nat) : (1000 - p.cpu) * (schedgain * hz * scaling - n) /
      (schedgain * hz * scaling) ≤ 1000 := part_le.trans (Nat.sub_le _ _)
  rw [updatecpu32, updatecpuAt]
  split
  · rfl
  · cases running <;>
      simp [sub32, short, mul32_part part whole, mul32_part (Nat.sub_le 1000 p.cpu) whole, left]

theorem fair_updatecpuAt {p : Proc} (ticks : Nat) (running : Bool) (fair : p.Fair) :
    (updatecpuAt ticks running p).Fair := by
  rcases fair with ⟨part, low, inside⟩
  rw [updatecpuAt]
  split
  · exact ⟨part, low, inside⟩
  · cases running
    · exact ⟨part_le.trans part, low, inside⟩
    · exact ⟨Nat.sub_le _ _, low, inside⟩

theorem updatecpuAt_priority (ticks : Nat) (running : Bool) (p : Proc) :
    (updatecpuAt ticks running p).priority = p.priority :=
  congrArg View.priority ((quiet_updatecpuAt ticks running).view p)

/-- Every process is as the arithmetic keeps it. -/
def Fair (s : Procs) : Prop := ∀ pid p, s.tab pid = some p → p.Fair

theorem fair_modify {f : Proc → Proc} (fair : s.Fair)
    (keeps : ∀ p, s.tab pid = some p → p.Fair → (f p).Fair) : (s.modify pid f).Fair := by
  intro q p' found
  rcases eq_or_ne q pid with rfl | differs
  · rw [modify_tab_self, Option.map_eq_some_iff] at found
    rcases found with ⟨p, there, rfl⟩
    exact keeps p there (fair q p there)
  · rw [modify_tab_of_ne s pid f differs] at found
    exact fair q p' found

theorem fair_of_tab {t : Procs} (fair : t.Fair) (tab : s.tab = t.tab) : s.Fair :=
  fun q p found => fair q p (tab ▸ found)

theorem fair_insert {p : Proc} (fair : s.Fair) (new : p.Fair) : (s.insert pid p).Fair := by
  intro q p' found
  rcases eq_or_ne q pid with rfl | differs
  · simp only [insert, Function.update_self, Option.some_inj] at found
    exact found ▸ new
  · simp only [insert, Function.update_of_ne differs] at found
    exact fair q p' found

theorem fair_foldl {α : Type} {next : Procs → α → Procs} (list : List α)
    (keeps : ∀ s a, Fair s → Fair (next s a)) (fair : s.Fair) : (list.foldl next s).Fair := by
  induction list generalizing s with
  | nil => exact fair
  | cons a rest ih => exact ih (keeps s a fair)

theorem fair_setRendez (r : Rid) (who : Option Pid) (fair : s.Fair) : (s.setRendez r who).Fair := by
  unfold setRendez
  split
  · exact fair_modify fair fun _ _ => id
  · exact fair_modify fair fun _ _ => id
  · exact fair

theorem fair_updatecpu (running : Bool) (fair : s.Fair) : (s.updatecpu pid running).Fair :=
  fair_modify fair fun _ _ => fair_updatecpuAt _ _

theorem fair_queueproc {pri : Nat} (low : ∀ p, s.tab pid = some p → pri ≤ p.basepri)
    (fair : s.Fair) : (s.queueproc pri pid).Fair := by
  have placed : (s.modify pid fun p => { p with priority := pri }).Fair :=
    fair_modify fair fun p found kept => ⟨kept.1, low p found, kept.2.2⟩
  exact placed

theorem fair_ready (fair : s.Fair) : (s.ready pid).Fair := by
  have claimed : (s.claim pid).Fair := fair_of_tab fair tab_claim
  have updated : ((s.claim pid).updatecpu pid (s.up == some pid)).Fair := fair_updatecpu _ claimed
  rw [ready]
  generalize (s.claim pid).updatecpu pid (s.up == some pid) = t at updated
  have ready : (t.setstate pid .ready).Fair := fair_modify updated fun _ _ => id
  apply fair_queueproc _ ready
  intro p found
  rw [setstate, modify_tab_self, Option.map_eq_some_iff] at found
  rcases found with ⟨q, there, rfl⟩
  have low : t.reprioritize pid ≤ q.basepri := reprioritize_le there
  exact low

theorem fair_wakeup (r : Rid) (fair : s.Fair) : (s.wakeup r).2.Fair := by
  rw [wakeup]
  split
  · exact fair
  · split_ifs
    · exact fair_ready (fair_modify (fair_setRendez r none fair) fun _ _ => id)
    · exact fair

theorem fair_postnote (msg : String) (flag : NoteFlag) (fair : s.Fair) :
    (s.postnote pid msg flag).2.Fair := by
  have noted : (s.modify pid (Proc.addnote msg flag)).Fair := fair_modify fair fun _ _ => id
  unfold postnote
  split
  · exact fair
  · simp only
    split
    · exact fair_ready (fair_setRendez _ none (fair_modify noted fun _ _ => id))
    · have left : ((s.modify pid (Proc.addnote msg flag)).modify pid
          fun p => { p with rendval := 2 ^ 64 - 1 }).Fair := fair_modify noted fun _ _ => id
      exact fair_ready left
    · exact noted

theorem fair_another (pri : Nat) (fair : s.Fair) : (s.another pri).Fair := by
  fun_induction another s pri with
  | case1 => exact fair
  | case2 => exact fair
  | case3 => exact fair_updatecpu _ fair
  | case4 s pid rest first elsewhere t npri differs ih =>
      have updated : t.Fair := fair_updatecpu _ fair
      apply ih
      apply fair_queueproc _ (fair_of_tab updated (tab_dequeueproc pri).1)
      intro p found
      apply reprioritize_le
      exact (tab_dequeueproc pri).1 ▸ found

theorem fair_rebalance (fair : s.Fair) : s.rebalance.Fair := by
  rw [rebalance]
  simp only
  split_ifs
  · exact fair
  · exact fair_foldl _ (fun _ => fair_another) fair

theorem fair_accounttime (now : Nat) (fair : s.Fair) : (s.accounttime now).Fair := by
  have charged : s.charge.Fair := by
    rw [charge]
    split
    · exact fair
    · have run : ({ s with m := { s.m with nrun := s.m.nrun + 1 } } : Procs).Fair := fair
      apply fair_modify run
      intro p _ kept
      split_ifs <;> exact kept
  exact charged

theorem fair_hzclock (now : Nat) (fair : s.Fair) : (s.hzclock now).Fair := by
  have ticked : ({ s with m := { s.m with ticks := s.m.ticks + 1 } } : Procs).Fair := fair
  have counted := fair_accounttime now ticked
  rw [hzclock]
  generalize ({ s with m := { s.m with ticks := s.m.ticks + 1 } } : Procs).accounttime now = t
    at counted
  have checked : t.checkalarms.Fair := by
    rw [checkalarms]
    split_ifs
    · exact fair_wakeup _ counted
    · exact counted
  have balanced := fair_rebalance checked
  split
  · split_ifs
    · rw [hzsched]
      simp only
      split_ifs
      · exact fair_modify (fair_of_tab balanced rfl) fun _ _ => id
      · exact balanced
    · exact checked
  · exact checked

theorem fair_timerintr (order : List Pid) (now : Nat) (fair : s.Fair) :
    (s.timerintr order now).Fair := by
  have profiled : (s.profintr now).Fair := by
    rw [profintr]
    split
    · split_ifs <;> exact fair
    · exact fair
  have woken (t : Procs) (q : Pid) (fair : t.Fair) : (t.twakeup q).Fair := by
    rw [twakeup]
    split
    · exact fair_wakeup _ (fair_modify fair fun _ _ => id)
    · exact fair
  have fired := fair_foldl ((s.profintr now).due order now) woken profiled
  rw [timerintr, hzintr]
  split
  · split_ifs
    · exact fair_hzclock now fired
    · exact fired
  · exact fired

theorem fair_sched (fair : s.Fair) (picked : s.sched = some (pid, s')) : s'.Fair := by
  simp only [sched, runproc, Option.map_map, Option.map_eq_some_iff, Function.comp_apply,
    Prod.mk.injEq, Prod.exists] at picked
  rcases picked with ⟨q, t, taken, rfl, rfl⟩
  have same : t.tab = s.tab := by
    rcases readied : s.takereadied with _ | ⟨q', t'⟩
    · exact (takehighest_tab (by simpa [readied] using taken)).1
    · exact (takereadied_tab (by simpa [readied] using taken)).1
  have off : (t.setstate q .scheding).Fair := fair_modify (fair_of_tab fair same) fun _ _ => id
  rw [enter]
  generalize t.setstate q .scheding = t at off
  have updated : (t.updatecpu q (t.up == some q)).Fair := fair_updatecpu _ off
  generalize t.updatecpu q (t.up == some q) = t at updated
  have placed : (t.modify q fun p => { p with priority := t.reprioritize q }).Fair :=
    fair_modify updated fun p found kept => by
      have low : t.reprioritize q ≤ p.basepri := reprioritize_le found
      exact ⟨kept.1, low, kept.2.2⟩
  exact fair_modify (fair_of_tab placed rfl) fun _ _ => id

theorem fair_leave (how : Left) (fair : s.Fair) : (s.leave pid how).Fair := by
  have left : (({ s with m := { s.m with cs := s.m.cs + 1 } } : Procs).modify pid fun p =>
      { p with delaysched := 0 }).Fair := fair_modify (fair_of_tab fair rfl) fun _ _ => id
  unfold leave
  simp only
  split
  · exact left
  · exact fair_modify left fun _ _ => id
  · exact fair_ready left
  · exact fair_modify left fun _ _ => id
  · exact left

theorem fair_sleep (r : Rid) (happened : Bool) (fair : s.Fair) :
    (s.sleep pid r happened).2.Fair := by
  have counted : (s.countsleep pid r).Fair := fair_of_tab fair tab_countsleep
  rw [sleep]
  simp only
  split_ifs
  · exact fair_setRendez r none counted
  · exact fair_modify (fair_modify (fair_setRendez r _ counted) fun _ _ => id) fun _ _ => id

theorem fair_sysrfork {flags : Nat} {made : Option Pid} (fair : s.Fair)
    (forked : s.sysrfork pid flags = .ok (made, s')) : s'.Fair := by
  simp only [sysrfork, bind, Except.bind] at forked
  split at forked
  · cases forked
  · split at forked
    · cases forked
    · rename_i parent found
      split_ifs at forked
      all_goals
        simp only [pure, Except.pure, Except.ok.injEq, Prod.mk.injEq] at forked
        rcases forked with ⟨-, rfl⟩
      · have born : (s.insert s.next (s.child pid parent flags)).Fair :=
          fair_insert fair ⟨Nat.zero_le _, le_rfl, (fair pid parent found).2.2⟩
        exact born
      · have grouped : (if Rf.has flags Rf.rend then s.newrgrp pid else s).Fair := by
          split_ifs
          · exact fair_modify (fair_of_tab fair rfl) fun _ _ => id
          · exact fair
        rw [rforkself]
        generalize (if Rf.has flags Rf.rend then s.newrgrp pid else s) = t at grouped
        split_ifs
        · exact fair_modify (fair_of_tab grouped rfl) fun _ _ => id
        · exact grouped

theorem fair_procpriority (pri : Nat) (fixed : Bool)
    (others : ∀ q p, q ≠ pid → s.tab q = some p → p.Fair)
    (part : ∀ p, s.tab pid = some p → p.cpu ≤ 1000) : (s.procpriority pid pri fixed).Fair := by
  intro q p' found
  rcases eq_or_ne q pid with rfl | differs
  · rw [procpriority, modify_tab_self, Option.map_eq_some_iff] at found
    rcases found with ⟨p, there, rfl⟩
    exact ⟨part p there, le_rfl, Nat.lt_of_le_of_lt (Nat.min_le_right _ _) (by decide)⟩
  · rw [procpriority, modify_tab_of_ne _ pid _ differs] at found
    exact others q p' differs found

theorem fair_kproc (up : Pid) (name user : String) (fair : s.Fair) :
    (s.kproc up name user).2.Fair := by
  apply fair_ready
  apply fair_procpriority
  · intro q p differs found
    apply fair q p
    simpa [insert, differs] using found
  · intro p found
    simp only [insert, Function.update_self, Option.some_inj] at found
    rw [← found]
    exact Nat.zero_le _

theorem fair_exits (status : String) (fair : s.Fair) : (s.exits pid status).Fair := by
  rw [exits]
  split
  · exact fair
  · rename_i p _
    have told : ((s.modify pid (Proc.ended s.m.ticks status)).modify p.ppid
        (Proc.addchild p)).Fair := fair_modify (fair_modify fair fun _ _ => id) fun _ _ => id
    have tab (t : Procs) : (t.unready pid p).tab = t.tab := by
      simp only [unready, dequeueproc]
      split_ifs <;> rfl
    exact fair_wakeup _ (fair_modify (fair_of_tab told (tab _)) fun _ _ => id)

theorem fair_letgo (fair : s.Fair) : s.letgo.Fair := by
  rw [letgo]
  split
  · rename_i old _ _
    split_ifs
    · have gone : (s.setstate old .dead).Fair := fair_modify fair fun _ _ => id
      exact gone
    · exact fair
  · exact fair

theorem fair_rendezvous (tag val : Nat) (fair : s.Fair) : (s.rendezvous pid tag val).Fair := by
  rw [rendezvous]
  split
  · exact fair
  · have reset : (s.modify pid fun p => { p with rendval := 2 ^ 64 - 1 }).Fair :=
      fair_modify fair fun _ _ => id
    simp only
    split
    · exact fair_ready (fair_modify (fair_of_tab reset rfl) fun _ _ => id)
    · have waits : ((s.modify pid fun p => { p with rendval := 2 ^ 64 - 1 }).modify pid fun p =>
          { p with rendtag := tag, rendval := val, state := .rendezvous }).Fair :=
        fair_modify reset fun _ _ => id
      exact fair_modify (fair_of_tab waits rfl) fun _ _ => id

theorem fair_step {a : Act} (fair : s.Fair) (kept : Unscheduled (.act a)) : (s.step a).Fair := by
  cases a with
  | ready pid => exact fair_ready fair
  | leave pid how => exact fair_leave how fair
  | putup =>
      rw [step, putup]
      split
      · exact fair_updatecpu _ (fair_of_tab fair rfl)
      · exact fair
  | sched =>
      rcases picked : s.sched with _ | ⟨pid, s'⟩
      · simp only [step, picked]
        exact fair
      · simp only [step, picked]
        exact fair_sched fair picked
  | sleep pid r happened => exact fair_sleep r happened fair
  | tsleep pid r happened deadline =>
      have timed : (s.modify pid (Proc.settimer (some r) (some deadline))).Fair :=
        fair_modify fair fun _ _ => id
      have slept : ((s.modify pid (Proc.settimer (some r) (some deadline))).sleep pid r
          happened).2.Fair := fair_sleep r happened timed
      rw [step, tsleep]
      simp only
      split_ifs
      · exact slept
      · exact fair_modify slept fun _ _ => id
  | wakeup r => exact fair_wakeup r fair
  | postnote pid msg flag => exact fair_postnote msg flag fair
  | pgrpnote order up noteid msg flag =>
      exact fair_foldl _ (fun _ _ fair => fair_postnote msg flag fair) fair
  | procpriority pid pri fixed =>
      exact fair_procpriority pri fixed (fun q p _ => fair q p) fun p found => (fair pid p found).1
  | execpri pid root =>
      apply fair_modify fair
      intro p _ fair
      have inside : (if root then Pri.root else p.basepri) < Pri.npriq := by
        split_ifs
        · decide
        · exact fair.2.2
      exact ⟨fair.1, le_rfl, inside⟩
  | timerintr order now => exact fair_timerintr order now fair
  | hzclock now => exact fair_hzclock now fair
  | rebalance => exact fair_rebalance fair
  | rfork pid flags =>
      rcases forked : s.sysrfork pid flags with _ | ⟨made, s'⟩
      · simpa only [step, forked] using fair
      · simpa only [step, forked] using fair_sysrfork fair forked
  | kproc up name user => exact fair_kproc up name user fair
  | exits pid status => exact fair_exits status fair
  | addbroken pid => exact fair_modify (fair_of_tab (fair_letgo fair) rfl) fun _ _ => id
  | unbreak pid =>
      rw [step, unbreak]
      split_ifs
      · have gone : (s.setstate pid .dead).Fair := fair_modify fair fun _ _ => id
        exact gone
      · exact fair
  | awaitChild order pid =>
      rw [step, awaitChild]
      split
      · rename_i c _
        intro q p found
        rcases eq_or_ne q c with rfl | differs
        · simp at found
        · exact fair q p (by simpa [differs] using found)
      · exact fair
  | rendezvous pid tag val => exact fair_rendezvous tag val fair
  | stop pid =>
      rw [step, stop]
      split
      · exact fair
      · have stopped : (s.modify pid Proc.stopped).Fair := fair_modify fair fun _ _ => id
        simp only
        split
        · exact fair_modify (fair_wakeup _ stopped) fun _ _ => id
        · exact fair_modify stopped fun _ _ => id
  | qlock l pid =>
      rw [step, qlock]
      split_ifs
      · exact fair_modify (fair_modify fair fun _ _ => id) fun _ _ => id
      · exact fair
  | qunlock l =>
      rw [step, qunlock]
      split
      · exact fair_ready fair
      · exact fair
  | edit pid f =>
      apply fair_modify fair
      intro p _ fair
      rcases kept p with ⟨cpu, priority, basepri⟩
      simpa only [Proc.Fair, cpu, priority, basepri] using fair

theorem fair_of_reach (reached : clocked.Reach (fun _ => Unscheduled) s) : s.Fair := by
  refine System.Reach.invariant Fair (fun s first => ?_) (fun s t s' fair kept moved => ?_) reached
  · obtain rfl : s = Procs.new := first
    intro pid p found
    simp only [new] at found
    split at found
    · obtain rfl : Proc.root 1 = p := Option.some_inj.mp found
      exact ⟨Nat.zero_le _, le_rfl, by decide⟩
    · cases found
  · obtain rfl : s' = s.clockstep t := moved
    cases t with
    | act a => exact fair_step fair kept
    | update pid running => exact fair_updatecpu running fair
    | account now => exact fair_accounttime now fair
    | clocks ticks hz profclock => exact fair_of_tab fair rfl

/-- The priority of a process, and `reprioritize`'s for one that is not there. -/
def level (s : Procs) (pid : Pid) : Nat := ((s.tab pid).map (·.priority)).getD Pri.normal

/-- Where a process is queued is as it was, or is the queue of its new priority. -/
def Settled (s s' : Procs) (pid : Pid) : Prop :=
  (s'.level pid = s.level pid ∧ ∀ pri, (s'.runq pri).count pid = (s.runq pri).count pid) ∨
    pid ∈ s'.runq (s'.level pid)

theorem Settled.trans {s'' : Procs} (before : Settled s s' pid) (after : Settled s' s'' pid) :
    Settled s s'' pid := by
  rcases after with ⟨level, counts⟩ | there
  · rcases before with ⟨level', counts'⟩ | there
    · exact .inl ⟨level.trans level', fun pri => (counts pri).trans (counts' pri)⟩
    · rw [← List.count_pos_iff] at there
      right
      rw [level, ← List.count_pos_iff, counts]
      exact there
  · exact .inr there

theorem settled_updatecpu (q : Pid) (running : Bool) : Settled s (s.updatecpu q running) pid := by
  refine .inl ⟨?_, fun _ => rfl⟩
  simp only [level, updatecpu]
  rcases eq_or_ne pid q with rfl | differs
  · simp [Function.comp_def, updatecpuAt_priority]
  · simp [differs]

theorem settled_move {q : Pid} (pri : Nat) {npri : Nat}
    (absent : s.tab q = none → npri = Pri.normal) :
    Settled s ((s.dequeueproc pri q).2.queueproc npri q) pid := by
  have tab : (s.dequeueproc pri q).2.tab = s.tab := (tab_dequeueproc pri).1
  rcases eq_or_ne pid q with rfl | differs
  · right
    have place : ((s.dequeueproc pri pid).2.queueproc npri pid).level pid = npri := by
      simp only [level, queueproc, modify_tab_self, tab]
      rcases found : s.tab pid with _ | p
      · simp [absent found]
      · rfl
    rw [place]
    simp [queueproc, Queues.push]
  · refine .inl ⟨?_, fun place => ?_⟩
    · simp [level, queueproc, differs, tab]
    · simp only [queueproc, dequeueproc, Queues.count_push, differs, and_false, if_false, add_zero]
      split_ifs <;> simp [Queues.count_take, differs]

theorem settled_another (pri : Nat) : Settled s (s.another pri) pid := by
  fun_induction another s pri with
  | case1 => exact .inl ⟨rfl, fun _ => rfl⟩
  | case2 => exact .inl ⟨rfl, fun _ => rfl⟩
  | case3 => exact settled_updatecpu _ _
  | case4 s q rest first elsewhere t npri differs ih =>
      have updated : Settled s t pid := settled_updatecpu _ _
      have moved : Settled t ((t.dequeueproc pri q).2.queueproc npri q) pid := by
        apply settled_move pri
        intro absent
        simp [npri, reprioritize, absent]
      exact (updated.trans moved).trans ih

theorem settled_rebalance (pid : Pid) : Settled s s.rebalance pid := by
  have loops (list : List Nat) (t : Procs) : Settled t (list.foldl another t) pid := by
    induction list generalizing t with
    | nil => exact .inl ⟨rfl, fun _ => rfl⟩
    | cons pri rest ih => exact (settled_another pri).trans (ih _)
  rw [rebalance]
  simp only
  split_ifs
  · exact .inl ⟨rfl, fun _ => rfl⟩
  · exact loops _ _

/-- In every run, with the clock at any ticks, a process's account is a part of a thousand that 32
bits hold on the way, its priority is at most its base and has a queue, and whatever `rebalance`
moves is then on the queue of its new priority. -/
theorem scheduler_arithmetic (reached : clocked.Reach (fun _ => Unscheduled) s) :
    (∀ pid p, s.tab pid = some p →
      p.cpu ≤ 1000 ∧ p.priority ≤ p.basepri ∧ p.basepri < Pri.npriq ∧
        ∀ ticks running, updatecpu32 ticks running p = some (updatecpuAt ticks running p)) ∧
    (∀ pid, s.reprioritize pid < Pri.npriq) ∧
    ∀ pid, Settled s s.rebalance pid := by
  have fair := fair_of_reach reached
  refine ⟨fun pid p found => ?_, fun pid => ?_, settled_rebalance⟩
  · rcases fair pid p found with ⟨part, low, inside⟩
    exact ⟨part, low, inside, fun ticks running => updatecpu32_eq ticks running part⟩
  · rcases found : s.tab pid with _ | p
    · simp [reprioritize, found, Pri.normal, Pri.npriq]
    · exact (reprioritize_le found).trans_lt (fair pid p found).2.2

/-- A queued process was given another priority, and the ticks are the last before they wrap. -/
theorem scheduler_arithmetic_last :
    Settled ((forked.procpriority 2 5 false).setclocks (2 ^ 64 - 1) none none)
      ((forked.procpriority 2 5 false).setclocks (2 ^ 64 - 1) none none).rebalance 2 := by
  have reached : clocked.Reach (fun _ => Unscheduled)
      ((forked.procpriority 2 5 false).setclocks (2 ^ 64 - 1) none none) := by
    refine .step (a := .clocks (2 ^ 64 - 1) none none) (.step (a := .act (.procpriority 2 5 false))
      (.step (a := .act (.ready 2)) (.step (a := .act (.rfork 1 Rf.proc)) (.init rfl) ?_ rfl)
        ?_ rfl) ?_ rfl) ?_ rfl <;> exact trivial
  exact (scheduler_arithmetic reached).2.2 2

end Procs

end Ipnx
