import Ipnx.Lib.Agenda
import Ipnx.Proc.Ledger
import Ipnx.Proc.Waits

/-!
# Alarms

The list of who has an alarm set, soonest first; the clock, which looks at the first of it and
wakes `alarmkproc`; and `alarmkproc`, which takes what is due off the list and posts the notes.
`pexit` clears the process's alarm and leaves the list alone, so all of this is kept only while
no process begins its `pexit` with its alarm set.

What has been set, and what became of it, is kept for the account only.
-/

namespace Ipnx

open List
open Function (update update_eq_self update_of_ne update_self)

namespace Procs

def ms2tk (ms : Nat) : Nat := (ms * hz + 999) / 1000

/-- `procalarm`: set the process's alarm `ms` from now, or clear it with 0, and answer how long
the old one had to go. -/
def procalarm (s : Procs) (pid : Pid) (ms : Nat) : Nat × Procs :=
  match s.tab pid with
  | none => (0, s)
  | some p =>
      let old := if p.alarm ≠ 0 then tk2ms (p.alarm - s.m.ticks) else 0
      let s := { s with alarms := s.alarms.filter (· != pid) }
      if ms = 0 then (old, s.modify pid fun p => { p with alarm := 0 })
      else
        let when_ := ms2tk ms + s.m.ticks
        let s := s.modify pid fun p => { p with alarm := max when_ 1 }
        let place := (s.alarms.findIdx? fun q => (s.tab q).any (when_ ≤ ·.alarm)).getD
          s.alarms.length
        (old, { s with alarms := s.alarms.insertIdx place pid })

/-- `closefgrp`, of which this is what concerns the alarm. -/
def closefgrp (s : Procs) (pid : Pid) : Procs := s.modify pid fun p => { p with alarm := 0 }

/-- When an alarm of a process is due. A process with none, or that is gone, is at 0. -/
def duetime (s : Procs) (pid : Pid) : Nat := (s.tab pid).elim 0 (·.alarm)

/-- `duealarms`, of what is left of the list. -/
def takedue (now : Nat) (s : Procs) : List Pid → List Pid × Procs
  | [] => ([], { s with alarms := [] })
  | p :: rest =>
      let when_ := (s.tab p).elim 0 (·.alarm)
      if now < when_ ∧ when_ ≠ 0 then ([], { s with alarms := p :: rest })
      else if when_ ≠ 0 then
        let (due, s) := takedue now (s.modify p fun p => { p with alarm := 0 }) rest
        (p :: due, s)
      else takedue now s rest

/-- `duealarms`: take the alarms that are due off the list, clearing each, and answer who is
owed *"alarm"*. -/
def duealarms (s : Procs) : List Pid × Procs := s.takedue s.m.ticks s.alarms

/-- The walk of `alarmkproc`: a note to each process whose alarm is due. -/
def postalarms (s : Procs) : List Pid × Procs :=
  let (due, s) := s.duealarms
  (due, due.foldl (fun s p => (s.postnote p "alarm" .nuser).2) s)

/-- `alarmkproc`, once it is entered. -/
def alarmkproc (s : Procs) (me : Pid) : List Pid × Procs :=
  let (due, s) := s.postalarms
  (due, (s.sleep me .alarmr false).2)

end Procs

/-- An alarm that was set, by its place among all of them, and the tick it is due on. -/
structure Alarm where
  serial : Nat
  due : Nat
  deriving DecidableEq, Repr

structure Alarms where
  procs : Procs
  /-- The process whose body is `alarmkproc`. -/
  kproc : Pid
  /-- Who has begun its `pexit`. -/
  closing : Pid → Bool
  /-- The alarm of each process, until it is replaced, cleared, or taken off the list. -/
  set : Pid → Option Alarm
  /-- Every alarm that was set. -/
  made : List (Pid × Alarm)
  /-- Those that the process replaced, cleared, or left behind as it exited. -/
  gone : List (Pid × Alarm)
  /-- Those that were taken off the list, and at which tick. -/
  owed : List ((Pid × Alarm) × Nat)

inductive AlarmAct
  | table (a : Act)
  | alarm (pid : Pid) (ms : Nat)
  | closefgrp (pid : Pid)
  | alarmkproc

namespace Alarms

/-- What a process has set is set no more. -/
def drop (w : Alarms) (pid : Pid) : Alarms :=
  { w with
    set := update w.set pid none
    gone := w.gone ++ ((w.set pid).map (pid, ·)).toList }

def add (w : Alarms) (pid : Pid) (due : Nat) : Alarms :=
  { w with
    set := update w.set pid (some ⟨w.made.length, due⟩)
    made := w.made ++ [(pid, ⟨w.made.length, due⟩)] }

def alarm (w : Alarms) (pid : Pid) (ms : Nat) : Alarms :=
  let v := { w.drop pid with procs := (w.procs.procalarm pid ms).2 }
  if ms = 0 then v else v.add pid (Procs.ms2tk ms + w.procs.m.ticks)

def closefgrp (w : Alarms) (pid : Pid) : Alarms :=
  { w.drop pid with
    procs := w.procs.closefgrp pid
    closing := update w.closing pid true }

def alarmkproc (w : Alarms) : Alarms :=
  let (due, procs) := w.procs.alarmkproc w.kproc
  { w with
    procs
    set := fun pid => if pid ∈ due then none else w.set pid
    owed := w.owed ++
      due.filterMap fun pid => (w.set pid).map fun a => ((pid, a), w.procs.m.ticks) }

def step (w : Alarms) : AlarmAct → Alarms
  | .table a => { w with procs := w.procs.step a }
  | .alarm pid ms => w.alarm pid ms
  | .closefgrp pid => w.closefgrp pid
  | .alarmkproc => w.alarmkproc

def alarms : System Alarms AlarmAct where
  init w := w.procs = Procs.new ∧ w.closing = (fun _ => false) ∧ w.set = (fun _ => none) ∧
    w.made = [] ∧ w.gone = [] ∧ w.owed = []
  step w a w' := w' = w.step a

/-- Nobody else sleeps where `alarmkproc` does, a process exits in its `pexit`, and a change of
other fields leaves what alarms go by. -/
def Apart (w : Alarms) : Act → Prop
  | .sleep _ r _ | .tsleep _ r _ _ => r ≠ .alarmr
  | .exits pid _ => w.closing pid = true
  | .edit _ f => ∀ p, (f p).alarm = p.alarm ∧ (f p).status = p.status
  | _ => True

def Called (w : Alarms) : AlarmAct → Prop
  | .table a => Procs.Callers Procs.Active w.procs a ∧ w.Apart a
  | .alarm pid _ => w.procs.Active pid ∧ w.closing pid = false
  | .closefgrp pid => w.procs.Active pid ∨ w.procs.Unentered pid
  | .alarmkproc => w.procs.Active w.kproc

/-- No process begins its `pexit` with its alarm set. -/
def Disarmed (w : Alarms) : AlarmAct → Prop
  | .closefgrp pid => ∀ p, w.procs.tab pid = some p → p.alarm = 0
  | _ => True

end Alarms

structure Bell where
  alarm : Nat
  status : Option String

def Own.bell (o : Own) : Bell := ⟨o.alarm, o.status⟩

theorem apart_bell : Own.Apart Own.bell :=
  ⟨⟨fun _ => rfl, fun _ _ _ => rfl, fun _ _ => rfl⟩, fun _ _ _ => rfl⟩

namespace Ledger

variable {l l' : Ledger} {pid : Pid}

def due (l : Ledger) (pid : Pid) : Nat := (l.part Own.bell pid).elim 0 (·.alarm)

def Living (l : Ledger) : Prop :=
  ∀ pid b, l.part Own.bell pid = some b → 0 < b.alarm → b.status = none

/-- The list is that of who has an alarm, soonest first. -/
structure Alarmed (l : Ledger) : Prop where
  nodup : l.alarms.Nodup
  sorted : Agenda.Sorted l.due l.alarms
  listed : ∀ pid, pid ∈ l.alarms ↔ 0 < l.due pid
  living : l.Living

theorem Alarmed.frame (alarmed : l.Alarmed) (alarms : l'.alarms = l.alarms)
    (due : l'.due = l.due) (living : l'.Living) : l'.Alarmed where
  nodup := alarms ▸ alarmed.nodup
  sorted := by
    rw [alarms, due]
    exact alarmed.sorted
  listed pid := by
    rw [alarms, due]
    exact alarmed.listed pid
  living := living

theorem due_of_part {b : Option Bell}
    (part : l'.part Own.bell = update (l.part Own.bell) pid b) :
    l'.due = update l.due pid (b.elim 0 (·.alarm)) := by
  funext q
  rw [due, part]
  rcases eq_or_ne q pid with rfl | differs
  · rw [update_self, update_self]
  · rw [update_of_ne differs, update_of_ne differs]
    rfl

theorem due_update {b : Option Bell}
    (part : l'.part Own.bell = update (l.part Own.bell) pid b)
    (same : b.elim 0 (·.alarm) = l.due pid) : l'.due = l.due := by
  rw [due_of_part part, same, update_eq_self]

theorem Living.update {b : Option Bell} (living : l.Living)
    (part : l'.part Own.bell = update (l.part Own.bell) pid b)
    (alive : ∀ c ∈ b, 0 < c.alarm → c.status = none) : l'.Living := by
  intro q c here set
  rw [part] at here
  rcases eq_or_ne q pid with rfl | differs
  · rw [update_self] at here
    exact alive c here set
  · rw [update_of_ne differs] at here
    exact living q c here set

theorem Alarmed.sorted_others {d : Nat} (alarmed : l.Alarmed) (due : l'.due = update l.due pid d) :
    Agenda.Sorted l'.due (l.alarms.filter (· != pid)) := by
  apply (alarmed.sorted.filter _).congr
  intro q there
  have differs : q ≠ pid := by simpa using (mem_filter.mp there).2
  rw [due, update_of_ne differs]

theorem Alarmed.clear (alarmed : l.Alarmed) (alarms : l'.alarms = l.alarms.filter (· != pid))
    (due : l'.due = update l.due pid 0) (living : l'.Living) : l'.Alarmed where
  nodup := alarms ▸ alarmed.nodup.filter _
  sorted := by
    rw [alarms]
    exact alarmed.sorted_others due
  listed q := by
    rw [alarms, mem_filter, alarmed.listed, due]
    rcases eq_or_ne q pid with rfl | differs
    · simp
    · simp [differs]
  living := living

theorem Alarmed.arm {d : Nat} (alarmed : l.Alarmed) (later : 0 < d)
    (alarms : l'.alarms = Agenda.add l'.due (l.alarms.filter (· != pid)) pid)
    (due : l'.due = update l.due pid d) (living : l'.Living) : l'.Alarmed where
  nodup := by
    rw [alarms]
    exact Agenda.nodup_add (alarmed.nodup.filter _) (by simp)
  sorted := by
    rw [alarms]
    apply Agenda.Sorted.add
    exact alarmed.sorted_others due
  listed q := by
    rw [alarms, Agenda.mem_add, mem_filter, alarmed.listed, due]
    rcases eq_or_ne q pid with rfl | differs
    · simp [later]
    · simp [differs]
  living := living

theorem Alarmed.take {now : Nat} (alarmed : l.Alarmed)
    (alarms : l'.alarms = l.alarms.dropWhile (l.due · ≤ now))
    (due : ∀ q, l'.due q = if q ∈ l.alarms.takeWhile (l.due · ≤ now) then 0 else l.due q)
    (living : l'.Living) : l'.Alarmed := by
  have parts := takeWhile_append_dropWhile (p := (l.due · ≤ now)) (l := l.alarms)
  have nodup := alarmed.nodup
  rw [← parts, nodup_append] at nodup
  have left (q : Pid) (there : q ∈ l'.alarms) : l'.due q = l.due q := by
    rw [due, if_neg]
    intro taken
    rw [alarms] at there
    exact nodup.2.2 q taken q there rfl
  refine ⟨alarms ▸ nodup.2.1, ?_, fun q => ?_, living⟩
  · have sorted : Agenda.Sorted l.due l'.alarms := by
      rw [alarms]
      exact alarmed.sorted.sublist (dropWhile_sublist _)
    exact sorted.congr left
  · constructor
    · intro there
      rw [left q there, ← alarmed.listed]
      rw [alarms] at there
      exact (dropWhile_sublist _).subset there
    · intro set
      rw [due] at set
      split_ifs at set with taken
      · exact absurd set (lt_irrefl 0)
      · have there := (alarmed.listed q).mpr set
        rw [← parts, mem_append] at there
        exact alarms ▸ there.resolve_left taken

theorem due_none (absent : l.part Own.bell pid = none) : l.due pid = 0 := by
  rw [due, absent]
  rfl

theorem due_some {b : Bell} (here : l.part Own.bell pid = some b) : l.due pid = b.alarm := by
  rw [due, here]
  rfl

end Ledger

namespace Procs

variable {s : Procs} {pid : Pid}

theorem due_eq {p : Proc} (found : s.tab pid = some p) : s.ledger.due pid = p.alarm :=
  Ledger.due_some (part_eq found)

theorem due_duetime : s.duetime pid = s.ledger.due pid := by
  rcases found : s.tab pid with _ | p
  · rw [Ledger.due_none (part_none found), duetime, found]
    rfl
  · rw [due_eq found, duetime, found]
    rfl

end Procs

namespace Procs

variable {s : Procs} {pid : Pid} {now : Nat}

theorem quiet_alarm (f : Proc → Nat) : Quiet fun p => { p with alarm := f p } :=
  ⟨fun _ => rfl, fun _ => rfl, fun _ => rfl⟩

theorem board_procalarm (ms : Nat) : (s.procalarm pid ms).2.board = s.board := by
  rw [procalarm]
  split
  · rfl
  · by_cases clear : ms = 0
    · rw [if_pos clear]
      exact board_quiet (s := { s with alarms := s.alarms.filter (· != pid) })
        (quiet_alarm fun _ => 0)
    · rw [if_neg clear]
      exact board_quiet (s := { s with alarms := s.alarms.filter (· != pid) })
        (quiet_alarm fun _ => max (ms2tk ms + s.m.ticks) 1)

theorem board_closefgrp : (s.closefgrp pid).board = s.board := board_quiet (quiet_alarm fun _ => 0)

theorem part_alarm {p : Proc} (d : Nat) (found : s.tab pid = some p) :
    (s.modify pid fun p => { p with alarm := d }).ledger.part Own.bell =
      update (s.ledger.part Own.bell) pid (some ⟨d, p.status⟩) := by
  have edited : (s.modify pid fun p => { p with alarm := d }).ledger =
      s.ledger.edit pid fun o => { o with alarm := d } := ledger_modify fun _ => rfl
  rw [edited, Ledger.part_edit, own_eq found]
  rfl

theorem ms2tk_pos {ms : Nat} (some : ms ≠ 0) : 0 < ms2tk ms := by
  have scaled : 1 ≤ ms := Nat.one_le_iff_ne_zero.mpr some
  simp only [ms2tk, hz]
  omega

/-- What `procalarm` leaves set, and for when. -/
def alarmtime (s : Procs) (ms : Nat) : Nat := if ms = 0 then 0 else ms2tk ms + s.m.ticks

theorem alarmed_procalarm {p : Proc} (ms : Nat) (alarmed : s.ledger.Alarmed)
    (found : s.tab pid = some p) (alive : p.status = none) :
    (s.procalarm pid ms).2.ledger.Alarmed ∧
      (s.procalarm pid ms).2.ledger.due =
        update s.ledger.due pid (s.alarmtime ms) := by
  let t : Procs := { s with alarms := s.alarms.filter (· != pid) }
  have found' : t.tab pid = some p := found
  by_cases clear : ms = 0
  · simp only [procalarm, found, alarmtime, if_pos clear]
    have part : (t.modify pid fun p => { p with alarm := 0 }).ledger.part Own.bell =
        update (s.ledger.part Own.bell) pid (some ⟨0, p.status⟩) := part_alarm 0 found'
    have due := Ledger.due_of_part part
    refine ⟨alarmed.clear rfl due (alarmed.living.update part ?_), due⟩
    rintro b ⟨⟩ -
    exact alive
  · simp only [procalarm, found, alarmtime, if_neg clear]
    have later : 0 < ms2tk ms + s.m.ticks := Nat.add_pos_left (ms2tk_pos clear) _
    have same : max (ms2tk ms + s.m.ticks) 1 = ms2tk ms + s.m.ticks := max_eq_left later
    let t' := t.modify pid fun p => { p with alarm := max (ms2tk ms + s.m.ticks) 1 }
    have part : t'.ledger.part Own.bell =
        update (s.ledger.part Own.bell) pid (some ⟨ms2tk ms + s.m.ticks, p.status⟩) := by
      rw [← same]
      exact part_alarm _ found'
    have due := Ledger.due_of_part part
    refine ⟨alarmed.arm later ?_ due (alarmed.living.update part ?_), due⟩
    · have mine : t'.ledger.due pid = ms2tk ms + s.m.ticks := by
        rw [due, update_self]
        rfl
      have place (q : Pid) : (t'.tab q).any (ms2tk ms + s.m.ticks ≤ ·.alarm) =
          decide (t'.ledger.due pid ≤ t'.ledger.due q) := by
        rw [mine, ← due_duetime, duetime]
        cases t'.tab q with
        | none => exact (decide_eq_false (not_le.mpr later)).symm
        | some q => rfl
      have places : (t'.alarms.findIdx? fun q => (t'.tab q).any (ms2tk ms + s.m.ticks ≤ ·.alarm)) =
          t'.alarms.findIdx? fun q => decide (t'.ledger.due pid ≤ t'.ledger.due q) :=
        congrArg (t'.alarms.findIdx? ·) (funext place)
      exact congrArg (fun n => t'.alarms.insertIdx (n.getD t'.alarms.length) pid) places
    · rintro b ⟨⟩ -
      exact alive

theorem takedue_spec {due : Pid → Nat} {list : List Pid} (now : Nat) (nodup : list.Nodup)
    (same : ∀ q ∈ list, s.ledger.due q = due q) (set : ∀ q ∈ list, 0 < due q) :
    (s.takedue now list).1 = list.takeWhile (due · ≤ now) ∧
      (s.takedue now list).2.board = s.board ∧
      (s.takedue now list).2.ledger = { s.ledger with
        own := fun q => (s.ledger.own q).map fun o =>
          if q ∈ list.takeWhile (due · ≤ now) then { o with alarm := 0 } else o
        alarms := list.dropWhile (due · ≤ now) } := by
  induction list generalizing s with
  | nil =>
      refine ⟨rfl, rfl, ?_⟩
      simp only [takedue, ledger, takeWhile_nil, dropWhile_nil, not_mem_nil,
        if_false, Option.map_map]
      rfl
  | cons p rest ih =>
      rcases nodup_cons.mp nodup with ⟨apart, nodup⟩
      have time : (s.tab p).elim 0 (·.alarm) = due p := by
        rw [← same p mem_cons_self, ← due_duetime, duetime]
      have later : due p ≠ 0 := (set p mem_cons_self).ne'
      by_cases come : due p ≤ now
      · let t := s.modify p fun p => { p with alarm := 0 }
        have cleared : t.ledger = s.ledger.edit p fun o => { o with alarm := 0 } :=
          ledger_modify fun _ => rfl
        have walked := ih (s := t) nodup (by
          intro q there
          have differs : q ≠ p := by
            rintro rfl
            exact apart there
          rw [cleared, Ledger.due_of_part Ledger.part_edit, update_of_ne differs]
          exact same q (mem_cons_of_mem p there)) fun q there =>
            set q (mem_cons_of_mem p there)
        rcases walked with ⟨taken, board, ledger⟩
        have still : t.board = s.board := board_quiet (quiet_alarm fun _ => 0)
        have walk : s.takedue now (p :: rest) =
            (p :: (t.takedue now rest).1, (t.takedue now rest).2) := by
          simp [takedue, time, later, come, t]
        rw [walk]
        refine ⟨by simp [taken, come], board.trans still, ledger.trans ?_⟩
        rw [cleared]
        simp only [Ledger.edit, takeWhile_cons_of_pos, dropWhile_cons_of_pos, come,
          decide_true, Ledger.mk.injEq, and_true]
        funext q
        rcases eq_or_ne q p with rfl | differs
        · simp [Option.map_map, Function.comp_def]
        · simp [differs]
      · have walk : s.takedue now (p :: rest) = ([], { s with alarms := p :: rest }) := by
          simp [takedue, time, later, not_le.mp come]
        rw [walk]
        refine ⟨by simp [come], rfl, ?_⟩
        simp only [ledger, come, decide_false, takeWhile_cons, dropWhile_cons,
          Bool.false_eq_true, if_false, not_mem_nil, Option.map_map]
        rfl

/-- What the walk takes, and what it leaves. -/
structure Walked (s : Procs) (due : List Pid) (s' : Procs) : Prop where
  taken : due = s.alarms.takeWhile (s.ledger.due · ≤ s.m.ticks)
  rises : Rises s s'
  next : s'.next = s.next
  alarmed : s'.ledger.Alarmed
  left : ∀ q, s'.ledger.due q = if q ∈ due then 0 else s.ledger.due q

theorem walked_duealarms (alarmed : s.ledger.Alarmed) : s.Walked s.duealarms.1 s.duealarms.2 := by
  rcases takedue_spec s.m.ticks alarmed.nodup (fun _ _ => rfl)
    (fun q there => (alarmed.listed q).mp there) with ⟨taken, board, ledger⟩
  have bell (q : Pid) : (s.duealarms.2).ledger.part Own.bell q =
      (s.ledger.part Own.bell q).map fun b =>
        if q ∈ s.duealarms.1 then { b with alarm := 0 } else b := by
    have ledger' : s.duealarms.2.ledger = _ := ledger
    have taken' : s.duealarms.1 = _ := taken
    rw [ledger', taken']
    simp only [Ledger.part, Option.map_map]
    congr 1
    funext o
    simp only [Function.comp_apply]
    split_ifs <;> rfl
  have left (q : Pid) : s.duealarms.2.ledger.due q =
      if q ∈ s.duealarms.1 then 0 else s.ledger.due q := by
    rw [Ledger.due, bell, Ledger.due]
    cases s.ledger.part Own.bell q <;> split_ifs <;> rfl
  refine ⟨taken, .of_board board, congrArg Ledger.next ledger, ?_, left⟩
  have living : s.duealarms.2.ledger.Living := by
    intro q b here set
    rw [bell, Option.map_eq_some_iff] at here
    rcases here with ⟨c, there, rfl⟩
    by_cases due : q ∈ s.duealarms.1
    · rw [if_pos due] at set
      exact absurd set (lt_irrefl 0)
    · rw [if_neg due] at set ⊢
      exact alarmed.living q c there set
  apply alarmed.take (congrArg Ledger.alarms ledger) _ living
  intro q
  rw [← taken]
  exact left q

theorem Walked.posts {s' : Procs} {due : List Pid} (walked : s.Walked due s') (inv : s.board.Inv)
    (list : List Pid) :
    s.Walked due (list.foldl (fun s p => (s.postnote p "alarm" .nuser).2) s') := by
  have like : s'.ledger.Like Own.bell
      (list.foldl (fun s p => (s.postnote p "alarm" .nuser).2) s').ledger :=
    like_foldl list fun _ _ => like_postnote apart_bell "alarm" .nuser
  have same : (list.foldl (fun s p => (s.postnote p "alarm" .nuser).2) s').ledger.due =
      s'.ledger.due := by
    funext q
    rw [Ledger.due, like.part]
    rfl
  refine ⟨walked.taken, walked.rises.trans ?_, like.next.trans walked.next, ?_, fun q => ?_⟩
  · exact Steps.foldl (fun _ _ _ => steps_postnote "alarm" .nuser) _ (walked.rises.riseInv inv)
  · apply walked.alarmed.frame like.alarms same
    intro q b here
    rw [like.part] at here
    exact walked.alarmed.living q b here
  · rw [same, walked.left]

theorem not_asleep_hzclock {q : Pid} (inv : s.board.Inv) (named : s.board.Named .alarmr)
    (alarmed : s.ledger.Alarmed) (set : 0 < s.ledger.due pid)
    (come : s.ledger.due pid ≤ s.m.ticks + 1) : ¬(s.hzclock now).board.Asleep .alarmr q := by
  let t : Procs := ({ s with m := { s.m with ticks := s.m.ticks + 1 } } : Procs).accounttime now
  have board : t.board = s.board := board_accounttime now
  have ledger : t.ledger = { s.ledger with ticks := s.m.ticks + 1 } := ledger_accounttime now
  have rung : t.checkalarms = (t.wakeup .alarmr).2 := by
    rcases alarmed.sorted.head ((alarmed.listed pid).mpr set) with ⟨first, head, sooner⟩
    have head' : t.alarms.head? = some first := by
      have same : t.alarms = s.alarms := congrArg Ledger.alarms ledger
      rw [same]
      exact head
    have there : 0 < s.ledger.due first :=
      (alarmed.listed first).mp (mem_of_mem_head? head)
    have same : t.duetime first = s.ledger.due first := by
      rw [due_duetime, ledger]
      rfl
    have ticks : t.m.ticks = s.m.ticks + 1 := congrArg Ledger.ticks ledger
    rw [checkalarms, head', if_pos]
    rw [Option.bind_some, ticks]
    rcases found : t.tab first with _ | p
    · rw [duetime, found] at same
      exact absurd (same ▸ there) (lt_irrefl 0)
    · rw [duetime, found] at same
      have alarm : p.alarm = s.ledger.due first := same
      simpa [alarm] using sooner.trans come
  have quiet : ¬t.checkalarms.board.Asleep .alarmr q := by
    rw [rung]
    exact not_asleep_wakeup (board ▸ named)
  have checked : Rises t t.checkalarms := steps_checkalarms
  have inv' : t.checkalarms.board.Inv := checked.riseInv (board ▸ inv)
  rw [hzclock]
  simp only
  have resched (up : Pid) : ¬(t.checkalarms.hzsched up).board.Asleep .alarmr q := by
    have moves : Moves { Scope.any with sleeps := fun _ => False } t.checkalarms
        (t.checkalarms.hzsched up) := (steps_hzsched up inv').rise
    exact fun asleep => quiet (Board.Asleep.of_moves moves id asleep)
  split
  · split_ifs
    · exact resched _
    · exact quiet
  · exact quiet

theorem not_asleep_timerintr {q : Pid} {order : List Pid} (inv : s.board.Inv)
    (named : s.board.Named .alarmr) (alarmed : s.ledger.Alarmed) (set : 0 < s.ledger.due pid)
    (come : s.ledger.due pid ≤ s.m.ticks + 1)
    (ticked : (s.timerintr order now).m.ticks = s.m.ticks + 1) :
    ¬(s.timerintr order now).board.Asleep .alarmr q := by
  let t := ((s.profintr now).due order now).foldl twakeup (s.profintr now)
  have ledger : t.ledger = s.ledger :=
    (ledger_foldl _ fun _ _ => ledger_twakeup).trans (ledger_profintr now)
  have profiled : (s.profintr now).board = s.board := board_profintr now
  have fired : Rises s t := (Steps.of_board profiled).trans
    (Steps.foldl (fun _ _ => steps_twakeup) _ (profiled ▸ inv))
  have moves : Moves { Scope.any with sleeps := fun _ => False } s t := fired.rise
  have named' : t.board.Named .alarmr := named.moves moves id rfl
  have ticks : t.m.ticks = s.m.ticks := congrArg Ledger.ticks ledger
  have intr : s.timerintr order now = t.hzintr now := rfl
  rw [intr, hzintr] at ticked ⊢
  split at ticked
  · split_ifs at ticked ⊢
    · exact not_asleep_hzclock (fired.riseInv inv) named' (ledger ▸ alarmed) (ledger ▸ set)
        (by rw [← ledger, ← ticks] at come; exact come)
    · rw [ticks] at ticked
      exact absurd ticked (Nat.lt_succ_self _).ne
  · rw [ticks] at ticked
    exact absurd ticked (Nat.lt_succ_self _).ne

end Procs

namespace Alarms

variable {w : Alarms} {s : Procs} {pid : Pid}

theorem bells_step {a : Act} (living : s.ledger.Living) (fresh : s.tab s.next = none)
    (apart : w.Apart a) (closing : ∀ pid, w.closing pid = true → s.ledger.due pid = 0) :
    (s.step a).ledger.alarms = s.ledger.alarms ∧ (s.step a).ledger.due = s.ledger.due ∧
      (s.step a).ledger.Living ∧ s.next ≤ (s.step a).next := by
  have unset : s.ledger.due s.next = 0 := Ledger.due_none (Procs.part_none fresh)
  have alike {l : Ledger} (like : s.ledger.Like Own.bell l) :
      l.alarms = s.ledger.alarms ∧ l.due = s.ledger.due ∧ l.Living ∧ s.next ≤ l.next := by
    refine ⟨like.alarms, ?_, ?_, like.next.ge⟩
    · funext q
      rw [Ledger.due, like.part]
      rfl
    · intro q b here
      rw [like.part] at here
      exact living q b here
  cases Procs.turn (s := s) apart_bell a with
  | like like => exact alike like
  | @rfork pid flags parent found made =>
      rw [made]
      refine ⟨rfl, Ledger.due_update Ledger.part_update unset.symm,
        living.update Ledger.part_update (by rintro b ⟨⟩ -; rfl), ?_⟩
      have next : (s.step (.rfork pid flags)).next = s.next + 1 := congrArg Ledger.next made
      exact next ▸ Nat.le_succ _
  | kproc up name user =>
      have made : (s.step (.kproc up name user)).ledger = _ := Procs.ledger_kproc up name user
      rw [made]
      refine ⟨rfl, Ledger.due_update Ledger.part_update unset.symm,
        living.update Ledger.part_update (by rintro b ⟨⟩ -; rfl), ?_⟩
      have next : (s.step (.kproc up name user)).next = s.next + 1 := congrArg Ledger.next made
      exact next ▸ Nat.le_succ _
  | @exits pid p status found =>
      have ended : (s.step (.exits pid status)).ledger = _ := Procs.ledger_exits status found
      have silent : p.alarm = 0 := (Procs.due_eq found).symm.trans (closing pid apart)
      have part : (s.step (.exits pid status)).ledger.part Own.bell =
          update (s.ledger.part Own.bell) pid
            (some (p.ended s.m.ticks status).own.bell) := by
        rw [ended, Ledger.part_edit, Procs.own_eq found]
        rfl
      refine ⟨by rw [ended]; rfl, Ledger.due_update part ?_, living.update part ?_,
        (congrArg Ledger.next ended).ge⟩
      · exact (Procs.due_eq found).symm
      · rintro b ⟨⟩ set
        exact absurd (silent ▸ set : 0 < 0) (lt_irrefl 0)
  | addbroken pid =>
      have kept : (s.step (.addbroken pid)).ledger = _ := Procs.ledger_addbroken
      rw [kept]
      exact ⟨rfl, rfl, living, (congrArg Ledger.next kept).ge⟩
  | unbreak pid =>
      have gone : (s.step (.unbreak pid)).ledger = _ := Procs.ledger_unbreak
      rw [gone]
      exact ⟨rfl, rfl, living, (congrArg Ledger.next gone).ge⟩
  | awaitChild order pid =>
      rcases Procs.ledger_awaitChild (s := s) order pid with ⟨c, p, found, finished, taken⟩ | same
      · have removed : (s.step (.awaitChild order pid)).ledger = _ := taken
        have silent : s.ledger.due c = 0 := by
          rw [Procs.due_eq found]
          by_contra set
          have alive : p.status = none :=
            living c p.own.bell (Procs.part_eq found) (Nat.pos_of_ne_zero set)
          rw [alive] at finished
          cases finished
        rw [removed]
        exact ⟨rfl, Ledger.due_update Ledger.part_remove silent.symm,
          living.update Ledger.part_remove (by rintro b ⟨⟩), (congrArg Ledger.next removed).ge⟩
      · have same' : s.step (.awaitChild order pid) = s := same
        rw [same']
        exact ⟨rfl, rfl, living, le_rfl⟩
  | edit pid f =>
      apply alike
      apply Procs.like_modify
      intro p
      rcases apart p with ⟨alarm, status⟩
      simp [Proc.own, Own.bell, alarm, status]

/-- Each alarm that was set has one place: it is set still, or is gone, or is owed. -/
structure Accounted (w : Alarms) : Prop where
  serial : ∀ (i : Nat) (x : Pid × Alarm), w.made[i]? = some x → x.2.serial = i
  fate : ∀ x ∈ w.made, w.set x.1 = some x.2 ∨ x ∈ w.gone ∨ x ∈ w.owed.map Prod.fst
  made : ∀ pid a, w.set pid = some a → (pid, a) ∈ w.made
  past : ∀ x ∈ w.gone ++ w.owed.map Prod.fst, x ∈ w.made
  still : ∀ pid a, w.set pid = some a → (pid, a) ∉ w.gone ++ w.owed.map Prod.fst
  once : (w.gone ++ w.owed.map Prod.fst).Nodup
  due : ∀ o ∈ w.owed, o.1.2.due ≤ o.2

theorem Accounted.drop (acct : w.Accounted) (pid : Pid) : (w.drop pid).Accounted := by
  rcases was : w.set pid with _ | a
  · have same : w.drop pid = w := by
      have unset : update w.set pid none = w.set := by
        rw [← was, update_eq_self]
      simp only [Alarms.drop, was, unset, Option.map_none, Option.toList_none, append_nil]
    rw [same]
    exact acct
  · have gone : (w.drop pid).gone = w.gone ++ [(pid, a)] := by simp [Alarms.drop, was]
    have perm : ((w.drop pid).gone ++ w.owed.map Prod.fst).Perm
        ((pid, a) :: (w.gone ++ w.owed.map Prod.fst)) := by
      rw [gone, append_assoc]
      exact perm_middle
    have left {q : Pid} {b : Alarm} (here : (w.drop pid).set q = some b) :
        q ≠ pid ∧ w.set q = some b := by
      rcases eq_or_ne q pid with rfl | differs
      · simp [Alarms.drop] at here
      · exact ⟨differs, by simpa [Alarms.drop, differs] using here⟩
    refine ⟨acct.serial, fun x there => ?_, fun q b here => acct.made q b (left here).2,
      fun x there => ?_, fun q b here there => ?_, ?_, acct.due⟩
    · rcases acct.fate x there with set | past | owed
      · rcases eq_or_ne x.1 pid with same | differs
        · right
          left
          rw [same, was, Option.some_inj] at set
          rw [gone, mem_append, mem_singleton]
          exact .inr (Prod.ext same set.symm)
        · exact .inl (by simpa [Alarms.drop, differs] using set)
      · exact .inr (.inl (by rw [gone]; exact mem_append_left _ past))
      · exact .inr (.inr owed)
    · rcases mem_cons.mp (perm.mem_iff.mp there) with rfl | past
      · exact acct.made pid a was
      · exact acct.past x past
    · rcases mem_cons.mp (perm.mem_iff.mp there) with same | past
      · exact (left here).1 (congrArg Prod.fst same)
      · exact acct.still q b (left here).2 past
    · apply perm.nodup_iff.mpr
      exact nodup_cons.mpr ⟨acct.still pid a was, acct.once⟩

theorem Accounted.add {due : Nat} (acct : w.Accounted) (free : w.set pid = none) :
    (w.add pid due).Accounted := by
  have new {x : Pid × Alarm} (there : x ∈ w.made) : x ≠ (pid, ⟨w.made.length, due⟩) := by
    rintro rfl
    rcases mem_iff_getElem?.mp there with ⟨i, at_⟩
    have serial := acct.serial i _ at_
    have inside := (List.getElem?_eq_some_iff.mp at_).1
    exact absurd serial inside.ne'
  have left {q : Pid} {b : Alarm} (here : (w.add pid due).set q = some b) :
      (q, b) = (pid, ⟨w.made.length, due⟩) ∨ w.set q = some b := by
    rcases eq_or_ne q pid with rfl | differs
    · left
      simp only [Alarms.add, update_self, Option.some_inj] at here
      rw [here]
    · exact .inr (by simpa [Alarms.add, differs] using here)
  refine ⟨fun i x there => ?_, fun x there => ?_, fun q b here => ?_, fun x there => ?_,
    fun q b here there => ?_, acct.once, acct.due⟩
  · simp only [Alarms.add, List.getElem?_append] at there
    split_ifs at there with old
    · exact acct.serial i x there
    · rw [List.getElem?_singleton] at there
      split_ifs at there with last
      · rw [Option.some_inj] at there
        subst there
        simp only
        omega
  · rcases mem_append.mp there with old | last
    · rcases acct.fate x old with set | past
      · left
        have differs : x.1 ≠ pid := by
          rintro same
          rw [same, free] at set
          cases set
        simpa [Alarms.add, differs] using set
      · exact .inr past
    · rw [mem_singleton] at last
      subst last
      exact .inl (by simp [Alarms.add])
  · rcases left here with same | set
    · rw [same]
      exact mem_append_right _ (mem_singleton_self _)
    · exact mem_append_left _ (acct.made q b set)
  · exact mem_append_left _ (acct.past x there)
  · rcases left here with same | set
    · exact new (acct.past _ there) same
    · exact acct.still q b set there

def owing (w : Alarms) (due : List Pid) : List ((Pid × Alarm) × Nat) :=
  due.filterMap fun pid => (w.set pid).map fun a => ((pid, a), w.procs.m.ticks)

theorem mem_owing {due : List Pid} {o : (Pid × Alarm) × Nat} : o ∈ w.owing due ↔
    o.1.1 ∈ due ∧ w.set o.1.1 = some o.1.2 ∧ o.2 = w.procs.m.ticks := by
  rcases o with ⟨⟨q, a⟩, tick⟩
  simp only [owing, mem_filterMap, Option.map_eq_some_iff, Prod.mk.injEq]
  constructor
  · rintro ⟨p, member, b, set, ⟨rfl, rfl⟩, rfl⟩
    exact ⟨member, set, rfl⟩
  · rintro ⟨member, set, rfl⟩
    exact ⟨q, member, a, set, ⟨rfl, rfl⟩, rfl⟩

theorem Accounted.take {due : List Pid} (acct : w.Accounted) (nodup : due.Nodup)
    (come : ∀ pid ∈ due, ∀ a, w.set pid = some a → a.due ≤ w.procs.m.ticks) : Accounted { w with
      set := fun pid => if pid ∈ due then none else w.set pid
      owed := w.owed ++ w.owing due } := by
  have left {q : Pid} {b : Alarm} (here : (if q ∈ due then none else w.set q) = some b) :
      q ∉ due ∧ w.set q = some b := by
    split_ifs at here with taken
    exact ⟨taken, here⟩
  have names : (w.owing due).map Prod.fst =
      due.filterMap fun pid => (w.set pid).map (pid, ·) := by
    rw [owing, map_filterMap]
    congr 1
    funext q
    cases w.set q <;> rfl
  have fresh : ((w.owing due).map Prod.fst).Nodup := by
    rw [names]
    apply nodup.filterMap
    intro p q x first second
    rcases Option.map_eq_some_iff.mp first with ⟨a, -, rfl⟩
    rcases Option.map_eq_some_iff.mp second with ⟨b, -, same⟩
    exact (congrArg Prod.fst same).symm
  have taken {x : Pid × Alarm} (there : x ∈ (w.owing due).map Prod.fst) :
      x.1 ∈ due ∧ w.set x.1 = some x.2 := by
    rcases mem_map.mp there with ⟨o, member, rfl⟩
    rcases mem_owing.mp member with ⟨inside, set, -⟩
    exact ⟨inside, set⟩
  have split {x : Pid × Alarm} :
      x ∈ w.gone ++ (w.owed ++ w.owing due).map Prod.fst ↔
        x ∈ w.gone ++ w.owed.map Prod.fst ∨ x ∈ (w.owing due).map Prod.fst := by
    rw [map_append, ← append_assoc, mem_append]
  refine ⟨acct.serial, fun x there => ?_, fun q b here => acct.made q b (left here).2,
    fun x there => ?_, fun q b here there => ?_, ?_, fun o there => ?_⟩
  · rcases acct.fate x there with set | past | owed
    · by_cases inside : x.1 ∈ due
      · right
        right
        rw [map_append, mem_append]
        exact .inr (mem_map.mpr ⟨(x, w.procs.m.ticks), mem_owing.mpr ⟨inside, set, rfl⟩, rfl⟩)
      · exact .inl (by simpa [inside] using set)
    · exact .inr (.inl past)
    · exact .inr (.inr (by rw [map_append]; exact mem_append_left _ owed))
  · rcases split.mp there with past | new
    · exact acct.past x past
    · exact acct.made _ _ (taken new).2
  · rcases split.mp there with past | new
    · exact acct.still q b (left here).2 past
    · exact (left here).1 (taken new).1
  · rw [map_append, ← append_assoc, nodup_append]
    refine ⟨acct.once, fresh, fun x old y new => ?_⟩
    rintro rfl
    exact acct.still _ _ (taken new).2 old
  · rcases mem_append.mp there with old | new
    · exact acct.due o old
    · rcases mem_owing.mp new with ⟨inside, set, same⟩
      rw [same]
      exact come _ inside _ set

theorem Accounted.keep {v : Alarms} (acct : w.Accounted) (set : v.set = w.set)
    (made : v.made = w.made) (gone : v.gone = w.gone) (owed : v.owed = w.owed) : v.Accounted := by
  rcases acct with ⟨serial, fate, known, past, still, once, due⟩
  constructor
  all_goals
    simp only [set, made, gone, owed]
    assumption

structure Inv (w : Alarms) : Prop where
  board : w.procs.board.Inv
  named : w.procs.board.Named .alarmr
  alone : ∀ q, w.procs.board.Asleep .alarmr q → q = w.kproc
  alarmed : w.procs.ledger.Alarmed
  closing : ∀ pid, w.closing pid = true → pid < w.procs.next ∧ w.procs.ledger.due pid = 0
  set : ∀ pid, (w.set pid).elim 0 Alarm.due = w.procs.ledger.due pid
  armed : ∀ pid a, w.set pid = some a → 0 < a.due
  acct : w.Accounted

def awake : Scope := { Scope.any with sleeps := (· ≠ .alarmr) }

theorem within_awake {a : Act} (apart : w.Apart a) : s.Within awake a := by
  cases a with
  | sleep | tsleep => exact apart
  | _ => simp [Procs.Within, awake, Scope.any]

theorem fresh (inv : w.procs.board.Inv) : w.procs.tab w.procs.next = none := by
  have view := (inv.wf.fresh w.procs.next le_rfl).1
  rcases found : w.procs.tab w.procs.next with _ | p
  · rfl
  · rw [Procs.board_view found] at view
    cases view

theorem Inv.table {a : Act} (inv : w.Inv) (called : w.Called (.table a)) :
    Inv { w with procs := w.procs.step a } := by
  have moves : Procs.Moves awake w.procs (w.procs.step a) :=
    Procs.moves_step inv.board called.1 (within_awake called.2)
  rcases bells_step inv.alarmed.living (fresh inv.board) called.2
    (fun pid closing => (inv.closing pid closing).2) with ⟨alarms, due, living, next⟩
  refine ⟨moves.inv inv.board, inv.named.moves moves (by simp [awake]) rfl, fun q asleep => ?_,
    inv.alarmed.frame alarms due living, fun pid closing => ?_, fun pid => ?_, inv.armed,
    inv.acct.keep rfl rfl rfl rfl⟩
  · exact inv.alone q (Board.Asleep.of_moves moves (by simp [awake]) asleep)
  · rcases inv.closing pid closing with ⟨known, unset⟩
    exact ⟨known.trans_le next, by rw [due, unset]⟩
  · rw [due]
    exact inv.set pid

theorem Inv.reset {d : Nat} (v : Alarms) (inv : w.Inv) (board : s.board = w.procs.board)
    (alarmed : s.ledger.Alarmed) (due : s.ledger.due = update w.procs.ledger.due pid d)
    (silent : w.closing pid = true → d = 0) (procs : v.procs = s)
    (kproc : v.kproc = w.kproc) (closing : v.closing = w.closing)
    (others : ∀ q ≠ pid, v.set q = w.set q) (mine : (v.set pid).elim 0 Alarm.due = d)
    (armed : ∀ a, v.set pid = some a → 0 < a.due) (acct : v.Accounted) : v.Inv := by
  have next : s.next = w.procs.next := congrArg Board.next board
  refine ⟨?_, ?_, fun q asleep => ?_, ?_, fun q shut => ?_, fun q => ?_, fun q a here => ?_, acct⟩
  · rw [procs, board]
    exact inv.board
  · rw [procs, board]
    exact inv.named
  · rw [procs, board] at asleep
    exact kproc ▸ inv.alone q asleep
  · exact procs ▸ alarmed
  · rw [closing] at shut
    rcases inv.closing q shut with ⟨known, unset⟩
    rw [procs, next, due]
    refine ⟨known, ?_⟩
    rcases eq_or_ne q pid with rfl | differs
    · rw [update_self, silent shut]
    · rw [update_of_ne differs, unset]
  · rw [procs, due]
    rcases eq_or_ne q pid with rfl | differs
    · rw [update_self, mine]
    · rw [update_of_ne differs, others q differs, inv.set]
  · rcases eq_or_ne q pid with rfl | differs
    · exact armed a here
    · exact inv.armed q a ((others q differs).symm.trans here)

theorem Inv.alarm {ms : Nat} (inv : w.Inv) (called : w.Called (.alarm pid ms)) :
    (w.alarm pid ms).Inv := by
  rcases called with ⟨⟨-, p, found, -, alive⟩, opened⟩
  rcases Procs.alarmed_procalarm ms inv.alarmed found alive with ⟨alarmed, due⟩
  have silent : w.closing pid = true → w.procs.alarmtime ms = 0 := by
    intro shut
    rw [opened] at shut
    cases shut
  have board : (w.procs.procalarm pid ms).2.board = w.procs.board := Procs.board_procalarm ms
  have dropped : Accounted { w.drop pid with procs := (w.procs.procalarm pid ms).2 } :=
    (inv.acct.drop pid).keep rfl rfl rfl rfl
  have free : (w.drop pid).set pid = none := update_self ..
  by_cases clear : ms = 0
  · have unset : w.procs.alarmtime ms = 0 := if_pos clear
    rw [Alarms.alarm, if_pos clear]
    apply inv.reset { w.drop pid with procs := (w.procs.procalarm pid ms).2 } board alarmed due
      silent rfl rfl rfl
    · intro q differs
      exact update_of_ne differs ..
    · rw [unset]
      exact congrArg (Option.elim · 0 Alarm.due) free
    · intro a here
      rw [free] at here
      cases here
    · exact dropped
  · have later : w.procs.alarmtime ms = Procs.ms2tk ms + w.procs.m.ticks := if_neg clear
    rw [Alarms.alarm, if_neg clear]
    apply inv.reset (Alarms.add { w.drop pid with procs := (w.procs.procalarm pid ms).2 } pid
      (Procs.ms2tk ms + w.procs.m.ticks)) board alarmed due silent rfl rfl rfl
    · intro q differs
      simp [Alarms.add, Alarms.drop, differs]
    · rw [later]
      simp [Alarms.add]
    · intro a here
      simp only [Alarms.add, update_self, Option.some_inj] at here
      rw [← here]
      exact Nat.add_pos_left (Procs.ms2tk_pos clear) _
    · exact dropped.add free

theorem Inv.closefgrp (inv : w.Inv) (called : w.Called (.closefgrp pid))
    (disarmed : w.Disarmed (.closefgrp pid)) : (w.closefgrp pid).Inv := by
  have found : ∃ p, w.procs.tab pid = some p := by
    rcases called with ⟨-, p, found, -⟩ | ⟨p, found, -⟩ <;> exact ⟨p, found⟩
  rcases found with ⟨p, found⟩
  have silent : p.alarm = 0 := disarmed p found
  have unset : w.procs.ledger.due pid = 0 := (Procs.due_eq found).trans silent
  have part : (w.procs.closefgrp pid).ledger.part Own.bell =
      update (w.procs.ledger.part Own.bell) pid (some ⟨0, p.status⟩) :=
    Procs.part_alarm 0 found
  have due : (w.procs.closefgrp pid).ledger.due = w.procs.ledger.due :=
    Ledger.due_update part unset.symm
  have living : (w.procs.closefgrp pid).ledger.Living := by
    apply inv.alarmed.living.update part
    rintro b ⟨⟩ set
    exact absurd set (lt_irrefl 0)
  have board : (w.procs.closefgrp pid).board = w.procs.board := Procs.board_closefgrp
  have known : pid < w.procs.next := inv.board.wf.known (Procs.board_view found)
  have free : w.set pid = none := by
    rcases here : w.set pid with _ | a
    · rfl
    · have set := inv.set pid
      rw [here, unset] at set
      exact absurd (set ▸ inv.armed pid a here : 0 < 0) (lt_irrefl 0)
  have kept : w.drop pid = w := by
    have same : update w.set pid none = w.set := by
      rw [← free, update_eq_self]
    simp [Alarms.drop, free, same]
  rw [Alarms.closefgrp, kept]
  refine ⟨board ▸ inv.board, board ▸ inv.named, fun q asleep => ?_,
    inv.alarmed.frame rfl due living, fun q shut => ?_, fun q => ?_, inv.armed, ?_⟩
  · exact inv.alone q (board ▸ asleep)
  · rw [due]
    rcases eq_or_ne q pid with rfl | differs
    · exact ⟨known, unset⟩
    · exact inv.closing q (by simpa [differs] using shut)
  · rw [due]
    exact inv.set q
  · exact inv.acct.keep rfl rfl rfl rfl

theorem Inv.due (inv : w.Inv) {a : Alarm} (here : w.set pid = some a) :
    w.procs.ledger.due pid = a.due := by
  rw [← inv.set pid, here]
  rfl

theorem Inv.walked (inv : w.Inv) :
    w.procs.Walked w.procs.postalarms.1 w.procs.postalarms.2 :=
  (Procs.walked_duealarms inv.alarmed).posts inv.board w.procs.duealarms.1

theorem Inv.alarmkproc (inv : w.Inv) (active : w.procs.Active w.kproc) : w.alarmkproc.Inv := by
  let due := w.procs.postalarms.1
  let t := w.procs.postalarms.2
  let u := (t.sleep w.kproc .alarmr false).2
  have walked : w.procs.Walked due t := inv.walked
  have same : u.ledger = t.ledger := Procs.ledger_sleep _ _
  have runs : w.procs.board.Runs w.kproc := by
    rcases active with ⟨-, p, found, running, alive⟩
    exact ⟨p.view, Procs.board_view found, running, by simp [Proc.view, alive]⟩
  have moves : Procs.Moves awake w.procs t := walked.rises.rise
  rcases runs.rouses walked.rises with ⟨v, view, running, ended⟩
  rcases Procs.tab_of_board_view view with ⟨p, found, rfl⟩
  have open_ : Rid.alarmr.OpenTo w.kproc := by simp [Rid.OpenTo, Rid.owner]
  have vacant (q : Pid) : ¬t.board.Asleep .alarmr q := by
    intro asleep
    have before := Board.Asleep.of_moves moves (by simp [awake]) asleep
    obtain rfl := inv.alone q before
    exact runs.not_asleep .alarmr before
  rcases Procs.asleep_sleep false (by simp [found]) open_ vacant with ⟨named, only⟩
  have slept : Procs.Moves Scope.any t u := by
    apply Procs.steps_sleep found running _ open_ trivial
    simpa [Proc.view] using ended
  have next : u.next = w.procs.next := (congrArg Ledger.next same).trans walked.next
  refine ⟨slept.inv (walked.rises.riseInv inv.board), named, fun q asleep => (only q asleep).1,
    ?_, fun q shut => ?_, fun q => ?_, fun q a here => ?_, ?_⟩
  · have alarmed : u.ledger.Alarmed := same ▸ walked.alarmed
    exact alarmed
  · rcases inv.closing q shut with ⟨known, unset⟩
    refine ⟨next ▸ known, ?_⟩
    have left : u.ledger.due q = if q ∈ due then 0 else w.procs.ledger.due q := by
      rw [same, walked.left]
    rw [unset, ite_self] at left
    exact left
  · have left : u.ledger.due q = if q ∈ due then 0 else w.procs.ledger.due q := by
      rw [same, walked.left]
    refine Eq.trans ?_ left.symm
    show (if q ∈ due then none else w.set q).elim 0 Alarm.due = _
    split_ifs
    · rfl
    · exact inv.set q
  · have set : (if q ∈ due then none else w.set q) = some a := here
    split_ifs at set
    exact inv.armed q a set
  · have sublist : due.Sublist w.procs.alarms := by
      rw [walked.taken]
      exact takeWhile_sublist _
    have taken : Accounted { w with
        set := fun pid => if pid ∈ due then none else w.set pid
        owed := w.owed ++ w.owing due } := by
      apply inv.acct.take (sublist.nodup inv.alarmed.nodup)
      intro q member a here
      rw [← inv.due here]
      rw [walked.taken] at member
      exact Agenda.come member
    exact taken.keep rfl rfl rfl rfl

theorem Inv.step {a : AlarmAct} (inv : w.Inv) (called : w.Called a) (disarmed : w.Disarmed a) :
    (w.step a).Inv := by
  cases a with
  | table a => exact inv.table called
  | alarm pid ms => exact inv.alarm called
  | closefgrp pid => exact inv.closefgrp called disarmed
  | alarmkproc => exact inv.alarmkproc called

theorem inv_init (first : alarms.init w) : w.Inv := by
  rcases first with ⟨procs, closing, set, made, gone, owed⟩
  have unset (q : Pid) : w.procs.ledger.due q = 0 := by
    rw [procs, ← Procs.due_duetime]
    simp only [Procs.duetime, Procs.new]
    split_ifs <;> rfl
  have vacant (q : Pid) : ¬w.procs.board.Asleep .alarmr q := by
    rintro ⟨v, found, asleep, -⟩
    rw [procs] at found
    rcases Procs.new_view found with ⟨-, rfl⟩
    cases asleep
  refine ⟨procs ▸ Procs.inv_new, fun q asleep => absurd asleep (vacant q),
    fun q asleep => absurd asleep (vacant q), ⟨?_, ?_, fun q => ?_, fun q b here set => ?_⟩,
    fun q shut => ?_, fun q => ?_, fun q a here => ?_, ?_⟩
  · rw [procs]
    exact nodup_nil
  · rw [procs]
    exact List.Pairwise.nil
  · rw [unset, procs]
    simp [Procs.ledger, Procs.new]
  · rw [← Ledger.due_some here, unset] at set
    exact absurd set (lt_irrefl 0)
  · rw [closing] at shut
    cases shut
  · rw [set, unset]
    rfl
  · rw [set] at here
    cases here
  · constructor <;> simp [set, made, gone, owed]

/-- Called as promised, and no alarm left behind. -/
def Kept (w : Alarms) (a : AlarmAct) : Prop := w.Called a ∧ w.Disarmed a

theorem inv_of_reach (reached : alarms.Reach Kept w) : w.Inv := by
  refine System.Reach.invariant Inv (fun w first => inv_init first)
    (fun w a w' inv kept moved => ?_) reached
  obtain rfl : w' = w.step a := moved
  exact inv.step kept.1 kept.2

structure Timely (w : Alarms) : Prop where
  sorted : w.procs.alarms.Pairwise fun p q => w.procs.duetime p ≤ w.procs.duetime q
  /-- The list names living processes, each once. -/
  living : w.procs.alarms.Nodup ∧ ∀ pid ∈ w.procs.alarms, ∃ p, w.procs.tab pid = some p ∧
    p.status = none ∧ p.alarm ≠ 0
  /-- After a tick at which the alarm of a living process is due, `alarmkproc` sleeps no more. -/
  rung : ∀ a pid p, Procs.Ticking a → (w.procs.step a).m.ticks = w.procs.m.ticks + 1 →
    w.procs.tab pid = some p → p.status = none → p.alarm ≠ 0 → p.alarm ≤ w.procs.m.ticks + 1 →
      ∀ q, ¬(w.procs.step a).board.Asleep .alarmr q
  /-- An alarm that is set is on the list, for its time. -/
  waits : ∀ pid a, w.set pid = some a → pid ∈ w.procs.alarms ∧ w.procs.duetime pid = a.due
  /-- Each that was set is set still, was replaced or cleared, or is owed; and is one of these. -/
  fate : ∀ x ∈ w.made, w.set x.1 = some x.2 ∨ x ∈ w.gone ∨ x ∈ w.owed.map Prod.fst
  still : ∀ pid a, w.set pid = some a → (pid, a) ∉ w.gone ++ w.owed.map Prod.fst
  once : (w.gone ++ w.owed.map Prod.fst).Nodup
  /-- None is owed before it is due. -/
  due : ∀ o ∈ w.owed, o.1.2.due ≤ o.2
  /-- `alarmkproc` owes all that is due, and leaves the rest. -/
  taken : ∀ pid a, w.set pid = some a →
    if a.due ≤ w.procs.m.ticks then ((pid, a), w.procs.m.ticks) ∈ w.alarmkproc.owed
    else w.alarmkproc.set pid = some a

theorem Inv.timely (inv : w.Inv) : w.Timely where
  sorted := by
    apply List.Pairwise.imp _ inv.alarmed.sorted
    intro p q before
    rwa [Procs.due_duetime, Procs.due_duetime]
  living := by
    refine ⟨inv.alarmed.nodup, fun pid there => ?_⟩
    have set := (inv.alarmed.listed pid).mp there
    rcases found : w.procs.tab pid with _ | p
    · rw [Ledger.due_none (Procs.part_none found)] at set
      exact absurd set (lt_irrefl 0)
    · rw [Procs.due_eq found] at set
      exact ⟨p, rfl, inv.alarmed.living pid p.own.bell (Procs.part_eq found) set, set.ne'⟩
  rung a pid p ticking ticked found alive set come q := by
    have due : w.procs.ledger.due pid = p.alarm := Procs.due_eq found
    have set' : 0 < w.procs.ledger.due pid := due ▸ Nat.pos_of_ne_zero set
    cases a with
    | hzclock now =>
        exact Procs.not_asleep_hzclock inv.board inv.named inv.alarmed set' (due ▸ come)
    | timerintr order now =>
        exact Procs.not_asleep_timerintr inv.board inv.named inv.alarmed set' (due ▸ come) ticked
    | _ => exact absurd ticking id
  waits pid a here := by
    rw [Procs.due_duetime, inv.due here]
    refine ⟨(inv.alarmed.listed pid).mpr ?_, rfl⟩
    rw [inv.due here]
    exact inv.armed pid a here
  fate := inv.acct.fate
  still := inv.acct.still
  once := inv.acct.once
  due := inv.acct.due
  taken pid a here := by
    have walked := inv.walked
    have time := inv.due here
    have listed : pid ∈ w.procs.alarms :=
      (inv.alarmed.listed pid).mpr (time ▸ inv.armed pid a here)
    split_ifs with come
    · have member : pid ∈ w.procs.postalarms.1 := by
        rw [walked.taken]
        exact inv.alarmed.sorted.taken listed (time ▸ come)
      exact mem_append_right _ (mem_owing.mpr ⟨member, here, rfl⟩)
    · have left : pid ∉ w.procs.postalarms.1 := by
        rw [walked.taken]
        intro taken
        exact come (time ▸ Agenda.come taken)
      exact (if_neg left).trans here

/-- In every run in which no process begins its `pexit` with its alarm set, the list is sorted
and of living processes, each tick at which one is due wakes `alarmkproc`, and each alarm that is
not replaced or cleared is owed once, and not before its time. -/
theorem alarms_timely (reached : alarms.Reach Kept w) : w.Timely :=
  (inv_of_reach reached).timely

def new (kproc : Pid) : Alarms where
  procs := Procs.new
  kproc := kproc
  closing := fun _ => false
  set := fun _ => none
  made := []
  gone := []
  owed := []

theorem reach_new {ok : Alarms → AlarmAct → Prop} (kproc : Pid) : alarms.Reach ok (new kproc) :=
  .init ⟨rfl, rfl, rfl, rfl, rfl, rfl⟩

theorem reach_step {ok : Alarms → AlarmAct → Prop} (a : AlarmAct) (reached : alarms.Reach ok w)
    (kept : ok w a) : alarms.Reach ok (w.step a) :=
  .step reached kept rfl

def ringing : Alarms :=
  (((((((new 2).step (.table (.kproc 1 "alarm" "eve"))).step (.alarm 1 30)).step
    (.table (.hzclock 0))).step (.table (.hzclock 0))).step (.table (.hzclock 0))).step
      (.table (.leave 1 .sched))).step (.table .sched)

/-- `alarmkproc` has taken it off the list. -/
theorem alarms_timely_ringing : (ringing.step .alarmkproc).Timely ∧
    (ringing.step .alarmkproc).owed = [((1, ⟨0, 3⟩), 3)] := by
  have kproc := reach_step (.table (.kproc 1 "alarm" "eve")) (reach_new 2 : alarms.Reach Kept _)
    ⟨⟨trivial, trivial⟩, trivial⟩
  have set := reach_step (.alarm 1 30) kproc ⟨⟨⟨rfl, _, rfl, rfl, rfl⟩, rfl⟩, trivial⟩
  have first := reach_step (.table (.hzclock 0)) set ⟨⟨trivial, trivial⟩, trivial⟩
  have second := reach_step (.table (.hzclock 0)) first ⟨⟨trivial, trivial⟩, trivial⟩
  have third := reach_step (.table (.hzclock 0)) second ⟨⟨trivial, trivial⟩, trivial⟩
  have left := reach_step (.table (.leave 1 .sched)) third
    ⟨⟨by simp [Procs.Callers], trivial⟩, trivial⟩
  have runs := reach_step (.table .sched) left ⟨⟨trivial, trivial⟩, trivial⟩
  have walked := reach_step .alarmkproc runs ⟨⟨rfl, _, rfl, rfl, rfl⟩, trivial⟩
  exact ⟨alarms_timely walked, by decide⟩

def leaving : Alarms :=
  ((((((new 0).step (.table (.rfork 1 Rf.proc))).step (.table (.ready 2))).step
    (.table (.leave 1 .sched))).step (.table .sched)).step (.alarm 2 30)).step (.closefgrp 2)

/-- It exits, and the list names it still. -/
theorem alarms_timely_fails : ¬∀ w, alarms.Reach Called w → w.Timely := by
  intro holds
  have made := reach_step (.table (.rfork 1 Rf.proc)) (reach_new 0 : alarms.Reach Called _)
    ⟨⟨rfl, _, rfl, rfl, rfl⟩, trivial⟩
  have readied := reach_step (.table (.ready 2)) made ⟨⟨_, rfl, .inl rfl⟩, trivial⟩
  have left := reach_step (.table (.leave 1 .sched)) readied ⟨by simp [Procs.Callers], trivial⟩
  have runs := reach_step (.table .sched) left ⟨trivial, trivial⟩
  have set := reach_step (.alarm 2 30) runs ⟨⟨rfl, _, rfl, rfl, rfl⟩, rfl⟩
  have closed := reach_step (.closefgrp 2) set (.inl ⟨rfl, _, rfl, rfl, rfl⟩)
  have exits : alarms.Reach Called (leaving.step (.table (.exits 2 ""))) :=
    reach_step (.table (.exits 2 "")) closed ⟨.inl ⟨rfl, _, rfl, rfl, rfl⟩, rfl⟩
  rcases (holds _ exits).living.2 2 (by decide) with ⟨p, found, alive, -⟩
  cases found
  cases alive

end Alarms

end Ipnx
