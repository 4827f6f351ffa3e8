import Ipnx.Host.Emca.Desk
import Ipnx.Host.Emca.Tree

/-!
# The reads that wait

`hosts/web/www/emca.mjs`: `type`, `post`, `feed`, `drain`, `interrupt`, `close`, a read of a console
or of `events`, and `Tflush`, with the log of what each does to the readers and what they wait for.
The replies are the log's, and each step is one of the log's happenings after another.
-/

namespace Ipnx.Host.Emca

open List
open Ipnx.Ninep (utf8)

def Entry.frame : Entry → List Bytes
  | .given _ r b => [data b r.1]
  | .gone _ r => [error r.1 edeleted]
  | _ => []

def fedLog (w : Nat) : List Waiting → List Bytes → List Entry
  | [], _ => []
  | _ :: _, [] => []
  | r :: rs, b :: input =>
      if r.2 < b.length then
        let n := relative b.length r.2
        .given (w, .cons) r (b.take n) :: fedLog w rs (b.drop n :: input)
      else .given (w, .cons) r b :: fedLog w rs input

def drainedLog (w : Nat) : List Waiting → Bytes → List Entry
  | [], _ => []
  | r :: rs, events =>
      if events = [] then []
      else
        let n := relative events.length (min r.2 events.length)
        .given (w, .events) r (events.take n) :: drainedLog w rs (events.drop n)

namespace Manager

variable {m m' m'' : Manager} {w v p : Nat} {log log' : List Entry}

def typeLog (m : Manager) (w : Nat) (text : String) : List Entry :=
  .typed w (utf8 text) :: fedLog w (m.win w).reads ((m.win w).input ++ [utf8 text])

def postLog (m : Manager) (w : Nat) (line : String) : List Entry :=
  .posted w (utf8 line) :: drainedLog w (m.win w).eventreads ((m.win w).events ++ utf8 line)

def askLog (m : Manager) (line : String) : List Entry := m.postLog root (line ++ "\n")

/-- A read of a file that is waited on; of any other there is nothing to say. -/
def readLog (m : Manager) (f : Fid) (tag : UInt16) (count : Int) : List Entry :=
  match f.node.kind with
  | .file w name =>
      if name = "cons" then
        if w ∉ m.windows then [.refused (w, .cons) (tag, count)]
        else
          .asked (w, .cons) (tag, count) ::
            fedLog w ((m.win w).reads ++ [(tag, count)]) (m.win w).input
      else if name = "events" then
        if w ∉ m.windows then [.refused (w, .events) (tag, count)]
        else
          .asked (w, .events) (tag, count) ::
            drainedLog w ((m.win w).eventreads ++ [(tag, count)]) (m.win w).events
      else []
  | _ => []

def flushedLog (old : UInt16) (p : Place) (rs : List Waiting) : List Entry :=
  (rs.filter (·.1 = old)).map (.flushed p)

def unflushed (old : UInt16) (w : Window) : Window :=
  { w with
    reads := w.reads.filter (·.1 ≠ old)
    eventreads := w.eventreads.filter (·.1 ≠ old) }

def flushLogOf (old : UInt16) : List Nat → Manager → List Entry
  | [], _ => []
  | w :: ws, m =>
      flushedLog old (w, .cons) (m.win w).reads ++
        flushedLog old (w, .events) (m.win w).eventreads ++
        flushLogOf old ws (m.alter w (unflushed old))

def flushLog (m : Manager) (old : UInt16) : List Entry := flushLogOf old m.windows m

def interruptLog (m : Manager) (w : Nat) : List Entry :=
  .dropped w ::
    if (m.win w).pid = 0 then []
    else
      (m.alter w ({ · with input := [] })).askLog
        ("echo interrupt >[2]/dev/null >/proc/" ++ toString (m.win w).pid ++ "/notepg")

def hangupLog (m : Manager) (w : Nat) : List Entry :=
  if (m.win w).pid = 0 then []
  else m.askLog ("echo hangup >[2]/dev/null >/proc/" ++ toString (m.win w).pid ++ "/notepg")

def endreadsLog (m : Manager) (w : Nat) : List Entry :=
  (m.win w).reads.map (.gone (w, .cons)) ++ (m.win w).eventreads.map (.gone (w, .events))

def closeLogIn : Nat → Manager → Nat → List Entry
  | 0, _, _ => []
  | n + 1, m, w =>
      if w = root ∨ (m.win w).gone then []
      else
        let closed := (m.win w).children.foldl
          (fun r c => (r.1 ++ closeLogIn n r.2 c, closeIn n r.2 c)) ([], m)
        let out := (closed.2.hangup w).endreads w
        let left := (out.orphan w).forget w
        closed.1 ++ (closed.2.hangupLog w ++ (closed.2.hangup w).endreadsLog w ++
          match (out.win w).parent with
          | none => []
          | some p => if p ≠ root ∧ (left.win p).children = [] then closeLogIn n left p else [])

def closeLog (m : Manager) (w : Nat) : List Entry := closeLogIn (2 * m.next + 1) m w

def desk (m : Manager) : Desk where
  input w := (m.win w).input
  events w := (m.win w).events
  waiting p := if p.2 = .cons then (m.win p.1).reads else (m.win p.1).eventreads

/-- Nothing waits on a window that is not there. -/
def Shut (m : Manager) : Prop := ∀ w ∉ m.windows, ∀ k, m.desk.waiting (w, k) = []

structure Moves (m : Manager) (log : List Entry) (m' : Manager) : Prop where
  run : Desk.Run m.desk log m'.desk
  replies : m'.replies = m.replies ++ log.flatMap Entry.frame
  shut : m.Shut → m'.Shut

/-- One that leaves no reader waiting where there is something to give. -/
structure Turns (m : Manager) (log : List Entry) (m' : Manager) : Prop extends
    m.Moves log m' where
  idle : ∀ p, m.desk.Idle p → m'.desk.Idle p

theorem Moves.trans (first : m.Moves log m') (rest : m'.Moves log' m'') :
    m.Moves (log ++ log') m'' where
  run := first.run.append rest.run
  replies := by rw [rest.replies, first.replies, flatMap_append, append_assoc]
  shut was := rest.shut (first.shut was)

theorem turns_rfl (m : Manager) : m.Turns [] m where
  run := .done
  replies := (append_nil _).symm
  shut := id
  idle _ := id

theorem Turns.trans (first : m.Turns log m') (rest : m'.Turns log' m'') :
    m.Turns (log ++ log') m'' where
  toMoves := first.toMoves.trans rest.toMoves
  idle p was := rest.idle p (first.idle p was)

theorem turns_other (desk : m'.desk = m.desk) (replies : m'.replies = m.replies)
    (windows : m.windows ⊆ m'.windows) : m.Turns [] m' where
  run := desk ▸ .done
  replies := replies.trans (append_nil _).symm
  shut was w out k := by
    rw [desk]
    exact was w (fun there => out (windows there)) k
  idle p was := desk ▸ was

theorem desk_alter (m : Manager) (w : Nat) (f : Window → Window) :
    (m.alter w f).desk = (((m.desk.hold w (f (m.win w)).input).tell w
      (f (m.win w)).events).wait (w, .cons) (f (m.win w)).reads).wait (w, .events)
        (f (m.win w)).eventreads := by
  have own := win_alter_self m w f
  have others {v : Nat} (other : v ≠ w) := win_alter_of_ne m other f
  ext1
  · funext v
    refine Eq.trans ?_ (Function.update_apply ..).symm
    split_ifs with same
    · rw [same]
      exact congrArg Window.input own
    · exact congrArg Window.input (others same)
  · funext v
    refine Eq.trans ?_ (Function.update_apply ..).symm
    split_ifs with same
    · rw [same]
      exact congrArg Window.events own
    · exact congrArg Window.events (others same)
  · funext ⟨v, k⟩
    refine Eq.trans ?_ (Function.update_apply ..).symm
    by_cases same : v = w
    · subst same
      cases k with
      | cons =>
          rw [if_neg (by simp), Desk.wait_self]
          exact congrArg Window.reads own
      | events =>
          rw [if_pos rfl]
          exact congrArg Window.eventreads own
    · have apart (k' : Source) : (v, k) ≠ (w, k') := fun both => same (congrArg Prod.fst both)
      rw [if_neg (apart _), Desk.wait_of_ne (apart _)]
      cases k with
      | cons => exact congrArg Window.reads (others same)
      | events => exact congrArg Window.eventreads (others same)

theorem desk_kept {f : Window → Window} (input : (f (m.win w)).input = (m.win w).input)
    (events : (f (m.win w)).events = (m.win w).events)
    (reads : (f (m.win w)).reads = (m.win w).reads)
    (eventreads : (f (m.win w)).eventreads = (m.win w).eventreads) :
    (m.alter w f).desk = m.desk := by
  have first : m.desk.hold w (f (m.win w)).input = m.desk := Desk.hold_same input.symm
  have second : m.desk.tell w (f (m.win w)).events = m.desk := Desk.tell_same events.symm
  have third : m.desk.wait (w, .cons) (f (m.win w)).reads = m.desk := Desk.wait_same reads.symm
  have fourth : m.desk.wait (w, .events) (f (m.win w)).eventreads = m.desk :=
    Desk.wait_same eventreads.symm
  rw [desk_alter, first, second, third, fourth]

theorem turns_kept {f : Window → Window} (input : (f (m.win w)).input = (m.win w).input)
    (events : (f (m.win w)).events = (m.win w).events)
    (reads : (f (m.win w)).reads = (m.win w).reads)
    (eventreads : (f (m.win w)).eventreads = (m.win w).eventreads) : m.Turns [] (m.alter w f) :=
  turns_other (desk_kept input events reads eventreads) rfl fun _ => id

theorem waiting_cons (m : Manager) (w : Nat) : m.desk.waiting (w, .cons) = (m.win w).reads := rfl

theorem waiting_events (m : Manager) (w : Nat) :
    m.desk.waiting (w, .events) = (m.win w).eventreads := rfl

theorem desk_cons {f : Window → Window} (events : (f (m.win w)).events = (m.win w).events)
    (eventreads : (f (m.win w)).eventreads = (m.win w).eventreads) :
    (m.alter w f).desk =
      (m.desk.wait (w, .cons) (f (m.win w)).reads).hold w (f (m.win w)).input := by
  have told : (m.desk.hold w (f (m.win w)).input).tell w (f (m.win w)).events =
      m.desk.hold w (f (m.win w)).input := Desk.tell_same events.symm
  have waits : ((m.desk.hold w (f (m.win w)).input).wait (w, .cons) (f (m.win w)).reads).wait
      (w, .events) (f (m.win w)).eventreads =
        (m.desk.hold w (f (m.win w)).input).wait (w, .cons) (f (m.win w)).reads := by
    apply Desk.wait_same
    rw [Desk.wait_of_ne (by simp), eventreads]
    rfl
  rw [desk_alter, told, waits]
  rfl

theorem desk_events {f : Window → Window} (input : (f (m.win w)).input = (m.win w).input)
    (reads : (f (m.win w)).reads = (m.win w).reads) :
    (m.alter w f).desk =
      (m.desk.wait (w, .events) (f (m.win w)).eventreads).tell w (f (m.win w)).events := by
  have held : m.desk.hold w (f (m.win w)).input = m.desk := Desk.hold_same input.symm
  have waits : (m.desk.tell w (f (m.win w)).events).wait (w, .cons) (f (m.win w)).reads =
      m.desk.tell w (f (m.win w)).events := Desk.wait_same reads.symm
  rw [desk_alter, held, waits]
  rfl

theorem fed_run {d : Desk} {rs : List Waiting} {input : List Bytes}
    (waiting : d.waiting (w, .cons) = rs) (there : d.input w = input) :
    Desk.Run d (fedLog w rs input)
      ((d.wait (w, .cons) (fed rs input).2.1).hold w (fed rs input).2.2) := by
  induction rs generalizing d input with
  | nil =>
      rw [fedLog, fed, Desk.wait_same waiting, Desk.hold_same there]
      exact .done
  | cons r rs ih =>
      induction input generalizing d with
      | nil =>
          rw [fedLog, fed, Desk.wait_same waiting, Desk.hold_same there]
          exact .done
      | cons b input _ =>
          rw [fedLog, fed]
          split_ifs with short
          · generalize relative b.length r.2 = n
            have cut : d.input w = (b.take n ++ b.drop n) :: input := by
              rw [take_append_drop, there]
            have rest := ih (d := (d.wait (w, .cons) rs).hold w (b.drop n :: input))
              (Desk.wait_self _) (Desk.hold_self _)
            rw [Desk.hold_wait_hold] at rest
            exact .step (.part waiting cut) rest
          · have rest := ih (d := (d.wait (w, .cons) rs).hold w input) (Desk.wait_self _)
              (Desk.hold_self _)
            rw [Desk.hold_wait_hold] at rest
            exact .step (.piece waiting there) rest

theorem fed_frames (rs : List Waiting) (input : List Bytes) :
    (fed rs input).1 = (fedLog w rs input).flatMap Entry.frame := by
  induction rs generalizing input with
  | nil => rfl
  | cons r rs ih =>
      rcases input with _ | ⟨b, input⟩
      · rfl
      · rw [fedLog, fed]
        split_ifs
        · exact congrArg _ (ih _)
        · exact congrArg _ (ih _)

theorem fed_idle (rs : List Waiting) (input : List Bytes) :
    (fed rs input).2.1 = [] ∨ (fed rs input).2.2 = [] := by
  induction rs generalizing input with
  | nil => exact .inl rfl
  | cons r rs ih =>
      rcases input with _ | ⟨b, input⟩
      · exact .inr rfl
      · rw [fed]
        split_ifs
        · exact ih _
        · exact ih _

theorem drained_run {d : Desk} {rs : List Waiting} {events : Bytes}
    (waiting : d.waiting (w, .events) = rs) (there : d.events w = events) :
    Desk.Run d (drainedLog w rs events)
      ((d.wait (w, .events) (drained rs events).2.1).tell w (drained rs events).2.2) := by
  induction rs generalizing d events with
  | nil =>
      rw [drainedLog, drained, Desk.wait_same waiting, Desk.tell_same there]
      exact .done
  | cons r rs ih =>
      rw [drainedLog, drained]
      split_ifs with none
      · rw [Desk.wait_same waiting, Desk.tell_same there]
        exact .done
      · generalize relative events.length (min r.2 events.length) = n
        have cut : d.events w = events.take n ++ events.drop n := by
          rw [take_append_drop, there]
        have rest := ih (d := (d.wait (w, .events) rs).tell w (events.drop n)) (Desk.wait_self _)
          (Desk.tell_self _)
        rw [Desk.tell_wait_tell] at rest
        exact .step (.event waiting cut) rest

theorem drained_frames (rs : List Waiting) (events : Bytes) :
    (drained rs events).1 = (drainedLog w rs events).flatMap Entry.frame := by
  induction rs generalizing events with
  | nil => rfl
  | cons r rs ih =>
      rw [drainedLog, drained]
      split_ifs
      · rfl
      · exact congrArg _ (ih _)

theorem drained_idle (rs : List Waiting) (events : Bytes) :
    (drained rs events).2.1 = [] ∨ (drained rs events).2.2 = [] := by
  induction rs generalizing events with
  | nil => exact .inl rfl
  | cons r rs ih =>
      rw [drained]
      split_ifs with none
      · exact .inr none
      · exact ih _

theorem desk_feed (m : Manager) (w : Nat) :
    (m.feed w).desk = (m.desk.wait (w, .cons) (fed (m.win w).reads (m.win w).input).2.1).hold w
      (fed (m.win w).reads (m.win w).input).2.2 := by
  have altered : (m.feed w).desk = (m.alter w ({ · with
      reads := (fed (m.win w).reads (m.win w).input).2.1
      input := (fed (m.win w).reads (m.win w).input).2.2 })).desk := rfl
  rw [altered, desk_cons rfl rfl]

theorem moves_feed (m : Manager) (w : Nat) :
    m.Moves (fedLog w (m.win w).reads (m.win w).input) (m.feed w) where
  run := by
    rw [desk_feed]
    exact fed_run (waiting_cons m w) rfl
  replies := congrArg (m.replies ++ ·) (fed_frames _ _)
  shut was v out k := by
    rw [desk_feed]
    by_cases same : (v, k) = (w, Source.cons)
    · rcases Prod.mk.inj same with ⟨rfl, rfl⟩
      have none := was v out .cons
      rw [waiting_cons] at none
      rw [none]
      exact Desk.wait_self _
    · exact (Desk.wait_of_ne same _).trans (was v out k)

theorem idle_feed (m : Manager) (w : Nat) {p : Place} (was : p ≠ (w, .cons) → m.desk.Idle p) :
    (m.feed w).desk.Idle p := by
  rw [desk_feed]
  by_cases same : p = (w, .cons)
  · subst same
    rw [Desk.Idle, if_pos rfl, Desk.hold_self]
    rcases fed_idle (m.win w).reads (m.win w).input with none | none
    · exact .inl ((Desk.wait_self _).trans none)
    · exact .inr none
  · exact ((was same).wait same).hold same

theorem desk_drain (m : Manager) (w : Nat) :
    (m.drain w).desk =
      (m.desk.wait (w, .events) (drained (m.win w).eventreads (m.win w).events).2.1).tell w
        (drained (m.win w).eventreads (m.win w).events).2.2 := by
  have altered : (m.drain w).desk = (m.alter w ({ · with
      eventreads := (drained (m.win w).eventreads (m.win w).events).2.1
      events := (drained (m.win w).eventreads (m.win w).events).2.2 })).desk := rfl
  rw [altered, desk_events rfl rfl]

theorem moves_drain (m : Manager) (w : Nat) :
    m.Moves (drainedLog w (m.win w).eventreads (m.win w).events) (m.drain w) where
  run := by
    rw [desk_drain]
    exact drained_run (waiting_events m w) rfl
  replies := congrArg (m.replies ++ ·) (drained_frames _ _)
  shut was v out k := by
    rw [desk_drain]
    by_cases same : (v, k) = (w, Source.events)
    · rcases Prod.mk.inj same with ⟨rfl, rfl⟩
      have none := was v out .events
      rw [waiting_events] at none
      rw [none]
      exact Desk.wait_self _
    · exact (Desk.wait_of_ne same _).trans (was v out k)

theorem idle_drain (m : Manager) (w : Nat) {p : Place} (was : p ≠ (w, .events) → m.desk.Idle p) :
    (m.drain w).desk.Idle p := by
  rw [desk_drain]
  by_cases same : p = (w, .events)
  · subst same
    rw [Desk.Idle, if_neg (by simp), Desk.tell_self]
    rcases drained_idle (m.win w).eventreads (m.win w).events with none | none
    · exact .inl ((Desk.wait_self _).trans none)
    · exact .inr none
  · exact ((was same).wait same).tell same

theorem Moves.feed (moves : m.Moves log m')
    (idle : ∀ p ≠ (w, .cons), m.desk.Idle p → m'.desk.Idle p) :
    m.Turns (log ++ fedLog w (m'.win w).reads (m'.win w).input) (m'.feed w) where
  toMoves := moves.trans (moves_feed m' w)
  idle p was := idle_feed m' w fun other => idle p other was

theorem Moves.drain (moves : m.Moves log m')
    (idle : ∀ p ≠ (w, .events), m.desk.Idle p → m'.desk.Idle p) :
    m.Turns (log ++ drainedLog w (m'.win w).eventreads (m'.win w).events) (m'.drain w) where
  toMoves := moves.trans (moves_drain m' w)
  idle p was := idle_drain m' w fun other => idle p other was

theorem Shut.of_waiting (shut : m.Shut) (windows : m'.windows = m.windows)
    (waiting : m'.desk.waiting = m.desk.waiting) : m'.Shut := by
  intro v out k
  rw [waiting]
  exact shut v (windows ▸ out) k

theorem desk_input (m : Manager) (w : Nat) (input : List Bytes) :
    (m.alter w ({ · with input := input })).desk = m.desk.hold w input := by
  have same : m.desk.wait (w, .cons) (m.win w).reads = m.desk := Desk.wait_same rfl
  rw [desk_cons rfl rfl]
  exact congrArg (Desk.hold · w input) same

theorem turns_type (m : Manager) (w : Nat) (text : String) :
    m.Turns (m.typeLog w text) (m.type w text) := by
  rw [type]
  generalize shown : (m.alter w fun w =>
    if w.raw then w else { w with body := w.body ++ text, saved := some (w.body ++ text) }) = m₁
  have kept : m.Turns [] m₁ := by
    rw [← shown]
    apply turns_kept <;> split_ifs <;> rfl
  have input : (m₁.win w).input = (m.win w).input := by
    rw [← shown, win_alter_self]
    split_ifs <;> rfl
  have reads : (m₁.win w).reads = (m.win w).reads := by
    rw [← shown, win_alter_self]
    split_ifs <;> rfl
  have desk : (m₁.alter w fun x => { x with input := x.input ++ [utf8 text] }).desk =
      m₁.desk.hold w (m₁.desk.input w ++ [utf8 text]) := desk_input m₁ w _
  have typed : m₁.Moves [.typed w (utf8 text)]
      (m₁.alter w fun x => { x with input := x.input ++ [utf8 text] }) := by
    refine ⟨?_, (append_nil _).symm, fun was => was.of_waiting rfl (by rw [desk]; rfl)⟩
    rw [desk]
    exact Desk.Does.typed.run
  have fed := typed.feed (w := w) fun p other idle => by
    rw [desk]
    exact idle.hold other
  rw [win_alter_self, reads, input] at fed
  exact kept.trans fed

theorem turns_post (m : Manager) (w : Nat) (line : String) :
    m.Turns (m.postLog w line) (m.post w line) := by
  have same : m.desk.wait (w, .events) (m.win w).eventreads = m.desk := Desk.wait_same rfl
  have desk : (m.alter w fun x => { x with events := x.events ++ utf8 line }).desk =
      m.desk.tell w (m.desk.events w ++ utf8 line) := by
    rw [desk_events rfl rfl]
    exact congrArg (Desk.tell · w _) same
  have posted : m.Moves [.posted w (utf8 line)]
      (m.alter w fun x => { x with events := x.events ++ utf8 line }) := by
    refine ⟨?_, (append_nil _).symm, fun was => was.of_waiting rfl (by rw [desk]; rfl)⟩
    rw [desk]
    exact Desk.Does.posted.run
  have drained := posted.drain (w := w) fun p other idle => by
    rw [desk]
    exact idle.tell other
  rw [win_alter_self] at drained
  exact drained

theorem turns_ask (m : Manager) (line : String) : m.Turns (m.askLog line) (m.ask line) :=
  turns_post m root _

theorem turns_interrupt (m : Manager) (w : Nat) : m.Turns (m.interruptLog w) (m.interrupt w) := by
  have desk := desk_input m w []
  have dropped : m.Turns [.dropped w] (m.alter w ({ · with input := [] })) := by
    refine ⟨⟨?_, (append_nil _).symm, fun was => was.of_waiting rfl (by rw [desk]; rfl)⟩,
      fun p idle => ?_⟩
    · rw [desk]
      exact Desk.Does.dropped.run
    · rw [desk]
      by_cases same : p = (w, .cons)
      · subst same
        exact .inr (Desk.hold_self _)
      · exact idle.hold same
  have pid : ((m.alter w ({ · with input := [] })).win w).pid = (m.win w).pid := by
    rw [win_alter_self]
  rw [interrupt, interruptLog, pid]
  split_ifs
  · exact dropped
  · exact dropped.trans (turns_ask _ _)

theorem turns_hangup (m : Manager) (w : Nat) : m.Turns (m.hangupLog w) (m.hangup w) := by
  rw [hangup, hangupLog]
  split_ifs
  · exact turns_rfl _
  · exact turns_ask _ _

theorem turns_refused (p : Place) (r : Waiting) : m.Turns [.refused p r] m where
  run := Desk.Does.refused.run
  replies := (append_nil _).symm
  shut := id
  idle _ := id

theorem moves_asked {p : Place} {r : Waiting} (there : p.1 ∈ m.windows)
    (desk : m'.desk = m.desk.wait p (m.desk.waiting p ++ [r])) (replies : m'.replies = m.replies)
    (windows : m'.windows = m.windows) : m.Moves [.asked p r] m' where
  run := by
    rw [desk]
    exact Desk.Does.asked.run
  replies := replies.trans (append_nil _).symm
  shut was v out k := by
    rw [windows] at out
    have other : (v, k) ≠ p := by
      rintro rfl
      exact out there
    rw [desk, Desk.wait_of_ne other]
    exact was v out k

theorem turns_readCons (there : w ∈ m.windows) (r : Waiting) :
    m.Turns (.asked (w, .cons) r :: fedLog w ((m.win w).reads ++ [r]) (m.win w).input)
      ((m.alter w fun w => { w with reads := w.reads ++ [r] }).feed w) := by
  have same {d : Desk} (input : d.input w = (m.win w).input) : d.hold w (m.win w).input = d :=
    Desk.hold_same input
  have desk : (m.alter w fun x => { x with reads := x.reads ++ [r] }).desk =
      m.desk.wait (w, .cons) (m.desk.waiting (w, .cons) ++ [r]) := by
    rw [desk_cons rfl rfl]
    exact same rfl
  have asked : m.Moves [.asked (w, .cons) r]
      (m.alter w fun x => { x with reads := x.reads ++ [r] }) := moves_asked there desk rfl rfl
  have fed := asked.feed (w := w) fun p other idle => by
    rw [desk]
    exact idle.wait other
  rw [win_alter_self] at fed
  exact fed

theorem turns_readEvents (there : w ∈ m.windows) (r : Waiting) :
    m.Turns (.asked (w, .events) r :: drainedLog w ((m.win w).eventreads ++ [r]) (m.win w).events)
      ((m.alter w fun w => { w with eventreads := w.eventreads ++ [r] }).drain w) := by
  have same {d : Desk} (events : d.events w = (m.win w).events) : d.tell w (m.win w).events = d :=
    Desk.tell_same events
  have desk : (m.alter w fun x => { x with eventreads := x.eventreads ++ [r] }).desk =
      m.desk.wait (w, .events) (m.desk.waiting (w, .events) ++ [r]) := by
    rw [desk_events rfl rfl]
    exact same rfl
  have asked : m.Moves [.asked (w, .events) r]
      (m.alter w fun x => { x with eventreads := x.eventreads ++ [r] }) :=
    moves_asked there desk rfl rfl
  have drained := asked.drain (w := w) fun p other idle => by
    rw [desk]
    exact idle.wait other
  rw [win_alter_self] at drained
  exact drained

theorem turns_readWindow (m : Manager) (f : Fid) (tag : UInt16) (off : UInt64) (count : Int)
    {name : String} (file : f.node.kind = .file w name) :
    m.Turns (m.readLog f tag count) (m.readWindow f w name tag off count).2.2 := by
  rw [readLog, file, readWindow]
  dsimp only
  split_ifs with cons there events there
  · exact turns_readCons there (tag, count)
  · exact turns_refused _ _
  · exact turns_readEvents there (tag, count)
  · exact turns_refused _ _
  · exact turns_rfl _

theorem readEntries_rest (m : Manager) (f : Fid) (off : UInt64) (count : Int) :
    (m.readEntries f off count).2.2 = m := by
  rw [readEntries]
  dsimp only
  split <;> rfl

theorem turns_read (m : Manager) (f : Fid) (tag : UInt16) (off : UInt64) (count : Int) :
    m.Turns (m.readLog f tag count) (m.read f tag off count).2.2 := by
  rw [read]
  cases file : f.node.kind with
  | file w name =>
      have plain : (qid f.node).qtype &&& Name.qtdir = 0 := by
        rw [qid, file]
        exact UInt8.zero_and
      rw [if_neg (not_not.2 plain)]
      exact turns_readWindow m f tag off count file
  | _ =>
      have none : m.readLog f tag count = [] := by rw [readLog, file]
      have rest : (if (qid f.node).qtype &&& Name.qtdir ≠ 0 then m.readEntries f off count
          else m.readContents f off count).2.2 = m := by
        split_ifs
        · exact readEntries_rest m f off count
        · rfl
      rw [none, rest]
      exact turns_rfl _

theorem flushed_run {d : Desk} {p : Place} {old : UInt16} {before rs : List Waiting}
    (waiting : d.waiting p = before ++ rs) :
    Desk.Run d (flushedLog old p rs) (d.wait p (before ++ rs.filter (·.1 ≠ old))) := by
  induction rs generalizing d before with
  | nil =>
      rw [filter_nil, Desk.wait_same waiting]
      exact .done
  | cons r rs ih =>
      by_cases same : r.1 = old
      · rw [flushedLog, filter_cons_of_pos (by simpa using same),
          filter_cons_of_neg (by simpa using same), map_cons]
        have rest := ih (d := d.wait p (before ++ rs)) (Desk.wait_self _)
        rw [Desk.wait_wait] at rest
        exact .step (.flushed waiting) rest
      · rw [flushedLog, filter_cons_of_neg (by simpa using same),
          filter_cons_of_pos (by simpa using same)]
        rw [append_cons] at waiting
        have rest := ih waiting
        rw [append_assoc] at rest
        exact rest

theorem flushed_frames (old : UInt16) (p : Place) (rs : List Waiting) :
    (flushedLog old p rs).flatMap Entry.frame = [] := by
  rw [flushedLog, flatMap_map]
  exact flatMap_eq_nil_iff.2 fun _ _ => rfl

theorem turns_unflushed (m : Manager) (old : UInt16) (w : Nat) :
    m.Turns (flushedLog old (w, .cons) (m.win w).reads ++
      flushedLog old (w, .events) (m.win w).eventreads) (m.alter w (unflushed old)) := by
  have held : m.desk.hold w (m.win w).input = m.desk := Desk.hold_same rfl
  have told : m.desk.tell w (m.win w).events = m.desk := Desk.tell_same rfl
  have desk : (m.alter w (unflushed old)).desk =
      (m.desk.wait (w, .cons) ((m.win w).reads.filter (·.1 ≠ old))).wait (w, .events)
        ((m.win w).eventreads.filter (·.1 ≠ old)) := by
    rw [desk_alter]
    dsimp only [unflushed]
    rw [held, told]
  have waiting (p : Place) : (m.alter w (unflushed old)).desk.waiting p =
      if p.1 = w then (m.desk.waiting p).filter (·.1 ≠ old) else m.desk.waiting p := by
    rcases p with ⟨v, k⟩
    split_ifs with same
    · have own := win_alter_self m w (unflushed old)
      dsimp only at same
      subst same
      cases k with
      | cons => exact congrArg Window.reads own
      | events => exact congrArg Window.eventreads own
    · have others := win_alter_of_ne m same (unflushed old)
      cases k with
      | cons => exact congrArg Window.reads others
      | events => exact congrArg Window.eventreads others
  have none {p : Place} (was : m.desk.waiting p = []) :
      (m.alter w (unflushed old)).desk.waiting p = [] := by
    rw [waiting, was]
    split_ifs <;> rfl
  refine ⟨⟨?_, ?_, fun shut v out k => none (shut v out k)⟩, fun p idle => ?_⟩
  · rw [desk]
    have other : (w, Source.events) ≠ (w, .cons) := by simp
    have first : m.desk.waiting (w, .cons) = [] ++ (m.win w).reads := rfl
    have second : (m.desk.wait (w, .cons) ((m.win w).reads.filter (·.1 ≠ old))).waiting
        (w, .events) = [] ++ (m.win w).eventreads := Desk.wait_of_ne other _
    exact (flushed_run first).append (flushed_run second)
  · rw [flatMap_append, flushed_frames, flushed_frames]
    exact (append_nil _).symm
  · rcases idle with nobody | nothing
    · exact .inl (none nobody)
    · right
      rw [desk]
      exact nothing

theorem turns_flushOf (old : UInt16) (ws : List Nat) (m : Manager) :
    m.Turns (flushLogOf old ws m) (ws.foldl (fun m w => m.alter w (unflushed old)) m) := by
  induction ws generalizing m with
  | nil => exact turns_rfl _
  | cons w ws ih => exact (turns_unflushed m old w).trans (ih _)

theorem turns_flush (m : Manager) (old : UInt16) : m.Turns (m.flushLog old) (m.flush old) :=
  turns_flushOf old m.windows m

theorem gone_run {d : Desk} {p : Place} {rs : List Waiting} (waiting : d.waiting p = rs) :
    Desk.Run d (rs.map (.gone p)) (d.wait p []) := by
  induction rs generalizing d with
  | nil =>
      rw [Desk.wait_same waiting]
      exact .done
  | cons r rs ih =>
      have rest := ih (d := d.wait p rs) (Desk.wait_self _)
      rw [Desk.wait_wait] at rest
      exact .step (.gone waiting) rest

theorem gone_frames (p : Place) (rs : List Waiting) :
    (rs.map (.gone p)).flatMap Entry.frame = rs.map fun r => error r.1 edeleted := by
  induction rs with
  | nil => rfl
  | cons r rs ih => exact congrArg (error r.1 edeleted :: ·) ih

theorem turns_endreads (m : Manager) (w : Nat) : m.Turns (m.endreadsLog w) (m.endreads w) := by
  have desk : (m.endreads w).desk = (m.desk.wait (w, .cons) []).wait (w, .events) [] := by
    have altered : (m.endreads w).desk =
        (m.alter w ({ · with gone := true, reads := [], eventreads := [] })).desk := rfl
    have held : m.desk.hold w (m.win w).input = m.desk := Desk.hold_same rfl
    have told : m.desk.tell w (m.win w).events = m.desk := Desk.tell_same rfl
    rw [altered, desk_alter]
    dsimp only
    rw [held, told]
  have none {p : Place} (was : m.desk.waiting p = []) : (m.endreads w).desk.waiting p = [] := by
    rw [desk]
    by_cases last : p = (w, .events)
    · rw [last, Desk.wait_self]
    · rw [Desk.wait_of_ne last]
      by_cases first : p = (w, .cons)
      · rw [first, Desk.wait_self]
      · rw [Desk.wait_of_ne first, was]
  refine ⟨⟨?_, ?_, fun shut v out k => none (shut v out k)⟩, fun p idle => ?_⟩
  · rw [desk]
    have other : (w, Source.events) ≠ (w, .cons) := by simp
    have waits : (m.desk.wait (w, .cons) []).waiting (w, .events) = (m.win w).eventreads :=
      Desk.wait_of_ne other _
    exact (gone_run (waiting_cons m w)).append (gone_run waits)
  · rw [endreadsLog, flatMap_append, gone_frames, gone_frames, ← map_append]
    rfl
  · rcases idle with nobody | nothing
    · exact .inl (none nobody)
    · right
      rw [desk]
      exact nothing

theorem desk_orphan (m : Manager) (w : Nat) : (m.orphan w).desk = m.desk := by
  rcases named : (m.win w).parent with _ | p
  · rw [orphan_of_alone named]
  · rw [orphan_of_parent named]
    exact (desk_kept rfl rfl rfl rfl).trans (desk_kept rfl rfl rfl rfl)

theorem turns_orphan (m : Manager) (w : Nat) : m.Turns [] (m.orphan w) := by
  have desk := desk_orphan m w
  rcases named : (m.win w).parent with _ | p
  · rw [orphan_of_alone named]
    exact turns_rfl _
  · rw [orphan_of_parent named] at desk ⊢
    exact turns_other desk rfl fun _ => id

theorem turns_refocus (m : Manager) (w : Nat) : m.Turns [] (m.refocus w) := by
  rw [refocus]
  split_ifs <;> exact turns_other rfl rfl fun _ => id

theorem turns_forget (none : ∀ k, m.desk.waiting (w, k) = []) : m.Turns [] (m.forget w) where
  run := .done
  replies := (append_nil _).symm
  shut was v out k := by
    by_cases same : v = w
    · subst same
      exact none k
    · exact was v (fun there => out (mem_filter.2 ⟨there, by simpa using same⟩)) k
  idle _ := id

theorem turns_closings {log : Manager → Nat → List Entry} {f : Manager → Nat → Manager}
    (each : ∀ m w, Turns m (log m w) (f m w)) (cs : List Nat) (before : List Entry)
    (start : m.Turns before m') :
    m.Turns (cs.foldl (fun r c => (r.1 ++ log r.2 c, f r.2 c)) (before, m')).1
      (cs.foldl f m') := by
  induction cs generalizing before m' with
  | nil => exact start
  | cons c cs ih => exact ih _ (start.trans (each m' c))

theorem closings_rest (log : Manager → Nat → List Entry) (f : Manager → Nat → Manager)
    (cs : List Nat) (before : List Entry) (m : Manager) :
    (cs.foldl (fun r c => (r.1 ++ log r.2 c, f r.2 c)) (before, m)).2 = cs.foldl f m := by
  induction cs generalizing before m with
  | nil => rfl
  | cons c cs ih => exact ih _ _

theorem turns_out (m : Manager) (w : Nat) :
    m.Turns (m.hangupLog w ++ (m.hangup w).endreadsLog w)
      ((((m.hangup w).endreads w).orphan w).forget w) := by
  have ended := (turns_hangup m w).trans (turns_endreads (m.hangup w) w)
  have none (k : Source) : (((m.hangup w).endreads w).orphan w).desk.waiting (w, k) = [] := by
    have own : ((m.hangup w).endreads w).win w =
        { (m.hangup w).win w with gone := true, reads := [], eventreads := [] } := by
      rw [endreads, win_reply, win_alter_self]
    rw [desk_orphan]
    cases k with
    | cons => exact congrArg Window.reads own
    | events => exact congrArg Window.eventreads own
  have forgot := (turns_orphan ((m.hangup w).endreads w) w).trans (turns_forget none)
  have both := ended.trans forgot
  rw [append_nil, append_nil] at both
  exact both

theorem turns_closeIn (n : Nat) (m : Manager) (w : Nat) :
    m.Turns (closeLogIn n m w) (closeIn n m w) := by
  induction n generalizing m w with
  | zero => exact turns_rfl _
  | succ n ih =>
      rw [closeIn, closeLogIn]
      split_ifs with top
      · exact turns_rfl _
      · have children := turns_closings ih (m.win w).children [] (m.turns_rfl)
        have rest := closings_rest (closeLogIn n) (closeIn n) (m.win w).children [] m
        dsimp only
        rw [← rest] at children ⊢
        generalize (m.win w).children.foldl
          (fun r c => (r.1 ++ closeLogIn n r.2 c, closeIn n r.2 c)) ([], m) = closed
          at children ⊢
        have out := turns_out closed.2 w
        rcases (((closed.2.hangup w).endreads w).win w).parent with _ | p
        · have all := (children.trans out).trans (turns_refocus _ w)
          simp only [append_nil] at all ⊢
          exact all
        · dsimp only
          split_ifs
          · have all := ((children.trans out).trans (ih _ p)).trans (turns_refocus _ w)
            simp only [append_nil, append_assoc] at all ⊢
            exact all
          · have all := (children.trans out).trans (turns_refocus _ w)
            simp only [append_nil] at all ⊢
            exact all

theorem turns_close (m : Manager) (w : Nat) : m.Turns (m.closeLog w) (m.close w) :=
  turns_closeIn _ m w

/-- A step, and its log. What is neither of the readers nor of what they wait for is any other. -/
inductive Waits : Manager → List Entry → Manager → Prop
  | type {m : Manager} (w : Nat) (text : String) : Waits m (m.typeLog w text) (m.type w text)
  | post {m : Manager} (w : Nat) (line : String) : Waits m (m.postLog w line) (m.post w line)
  | read {m : Manager} (f : Fid) (tag : UInt16) (off : UInt64) (count : Int) :
      Waits m (m.readLog f tag count) (m.read f tag off count).2.2
  | flush {m : Manager} (old : UInt16) : Waits m (m.flushLog old) (m.flush old)
  | interrupt {m : Manager} (w : Nat) : Waits m (m.interruptLog w) (m.interrupt w)
  | close {m : Manager} (w : Nat) : Waits m (m.closeLog w) (m.close w)
  | other {m m' : Manager} :
      m'.desk = m.desk → m'.replies = m.replies → m.windows ⊆ m'.windows → Waits m [] m'

/-- A manager, and all that was done with its readers since it began. -/
inductive Logged : Manager → List Entry → Prop
  | boot (now room : Nat) : Logged (boot now room) []
  | step {m m' : Manager} {log log' : List Entry} :
      Logged m log → Waits m log' m' → Logged m' (log ++ log')

theorem Waits.turns (waits : m.Waits log m') : m.Turns log m' := by
  cases waits with
  | type w text => exact turns_type m w text
  | post w line => exact turns_post m w line
  | read f tag off count => exact turns_read m f tag off count
  | flush old => exact turns_flush m old
  | interrupt w => exact turns_interrupt m w
  | close w => exact turns_close m w
  | other desk replies windows => exact turns_other desk replies windows

theorem Logged.turns (logged : Logged m log) :
    ∃ now room, (Manager.boot now room).Turns log m := by
  induction logged with
  | boot now room => exact ⟨now, room, turns_rfl _⟩
  | step _ waits ih =>
      rcases ih with ⟨now, room, before⟩
      exact ⟨now, room, before.trans waits.turns⟩

theorem waits_make {x : Window} (input : x.input = (m.win m.next).input)
    (events : x.events = (m.win m.next).events) (reads : x.reads = (m.win m.next).reads)
    (eventreads : x.eventreads = (m.win m.next).eventreads) : m.Waits [] (m.make x) := by
  have desk : (m.make x).desk = (m.alter m.next fun _ => x).desk := rfl
  refine .other ?_ rfl fun w there => mem_append_left _ there
  rw [desk]
  exact desk_kept input events reads eventreads

theorem desk_boot (now room : Nat) :
    (boot now room).desk = ⟨fun _ => [], fun _ => [], fun _ => []⟩ := by
  have none : Desk.waiting { (boot now room) with win := fun _ => Window.new }.desk =
      fun _ => [] := funext fun p => ite_self _
  have kept := desk_kept (m := { (boot now room) with win := fun _ => Window.new }) (w := root)
    (f := fun w => { w with
      title := "/", type := "inode/system", role := "manage", kind := some .row }) rfl rfl rfl rfl
  refine Eq.trans kept ?_
  ext1
  · rfl
  · rfl
  · exact none

theorem kept_boot (now room : Nat) : (boot now room).desk.Kept [] := by
  rw [desk_boot]
  exact
    { tallied := fun _ => .refl _
      told := fun _ => rfl
      streaming := fun _ => ⟨rfl, fun _ none => absurd none not_mem_nil⟩
      uncrossed := fun _ before _ _ _ split => absurd split (by simp) }

theorem Logged.kept (logged : Logged m log) : m.desk.Kept log := by
  rcases logged.turns with ⟨now, room, turns⟩
  exact (kept_boot now room).run turns.run

theorem read_waits (m : Manager) (f : Fid) (tag : UInt16) (off : UInt64) (count : Int)
    {name : String} (file : f.node.kind = .file w name)
    (waits : name = "cons" ∨ name = "events") :
    (m.read f tag off count).1 = if w ∈ m.windows then .ok none else .error edeleted := by
  have plain : (qid f.node).qtype &&& Name.qtdir = 0 := by
    rw [qid, file]
    exact UInt8.zero_and
  rw [read, if_neg (not_not.2 plain), file]
  dsimp only
  rw [readWindow]
  rcases waits with rfl | rfl
  · rw [if_pos rfl]
    split_ifs <;> rfl
  · rw [if_neg (by decide), if_pos rfl]
    split_ifs <;> rfl

/-- Whatever is typed, posted, read, flushed, interrupted and closed, in any order: the replies are
the log's; each read was answered once, or flushed, or waits; what was given and what is there still
is what was typed and not dropped, and what was posted; no read of a console goes over the end of a
piece; and none waits where there is something to give, or on a window that has gone, where it is
refused. -/
theorem reads_answered (logged : Logged m log) :
    m.replies = log.flatMap Entry.frame ∧
      (∀ p, (askedAt p log).Perm (answeredAt p log ++ flushedAt p log ++ m.desk.waiting p)) ∧
      (∀ w, givenAt (w, .cons) log ++ (m.win w).input.flatten = (streamOf w log).typed) ∧
      (∀ w, givenAt (w, .events) log ++ (m.win w).events = postedTo w log) ∧
      (∀ w, Uncrossed w log) ∧
      (∀ p, m.desk.Idle p) ∧
      (∀ w ∉ m.windows, ∀ k, m.desk.waiting (w, k) = []) ∧
      ∀ (f : Fid) (tag : UInt16) (off : UInt64) (count : Int) (w : Nat) (name : String),
        f.node.kind = .file w name → name = "cons" ∨ name = "events" →
          (m.read f tag off count).1 = if w ∈ m.windows then .ok none else .error edeleted := by
  have kept := logged.kept
  rcases logged.turns with ⟨now, room, turns⟩
  have first := desk_boot now room
  have idle (p : Place) : (boot now room).desk.Idle p := by
    rw [first]
    exact .inl rfl
  have shut : (boot now room).Shut := by
    intro w _ k
    rw [first]
  refine ⟨turns.replies, kept.tallied, fun w => ?_, kept.told, kept.uncrossed,
    fun p => turns.idle p (idle p), turns.shut shut, fun f tag off count w name file =>
      m.read_waits f tag off count file⟩
  rw [← streamOf_given]
  exact (kept.streaming w).typed

/-- A read that waits is given as much of what is typed as it asks for, and the rest is there. -/
theorem reads_answered_typed :
    ∃ m log, Logged m log ∧ m.replies = [data [97, 98] 7] ∧ (m.win 2).input = [[99]] ∧
      givenAt (2, .cons) log ++ (m.win 2).input.flatten = (streamOf 2 log).typed := by
  have made := Logged.step (.boot 0 0) (waits_make (x := .on "/a" "/") rfl rfl rfl rfl)
  have asked := made.step (.read ⟨⟨.file 2 "cons", []⟩, none, .none⟩ 7 0 2)
  have typed := asked.step (.type 2 "abc")
  exact ⟨_, _, typed, by decide, by decide, (reads_answered typed).2.2.1 2⟩

end Manager

end Ipnx.Host.Emca
