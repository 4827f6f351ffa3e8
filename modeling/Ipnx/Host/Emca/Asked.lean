import Ipnx.Host.Emca.Tree

/-!
# What is asked of the system

`hosts/web/www/emca.mjs`: a line for IPNX is put in the root's `events`, and the readers that wait
there are given what there is. Laying windows out asks for them to be filled, and closing one for
its command to be hung up; nothing else of it is heard by the system.
-/

namespace Ipnx.Host.Emca

open List
open Ipnx.Ninep (utf8)

/-- An answer to a read that waited: its window has gone, or what it was given. -/
inductive Answer
  | gone (tag : UInt16)
  | given (reader : Waiting) (b : Bytes)

namespace Answer

def frame : Answer → Bytes
  | gone tag => error tag edeleted
  | given reader b => data b reader.1

/-- The readers that were given something, in the order they were. -/
def readers (log : List Answer) : List Waiting :=
  log.flatMap fun
    | gone _ => []
    | given reader _ => [reader]

def bytes (log : List Answer) : Bytes :=
  log.flatMap fun
    | gone _ => []
    | given _ b => b

end Answer

namespace Manager

variable {m m' m'' : Manager} {w p : Nat} {b b' : Bytes}

/-- What was asked of the system meanwhile: the readers of the root's `events` that waited were
given it in their order, and the rest is there for the next. -/
def Asked (m m' : Manager) (b : Bytes) : Prop :=
  ∃ log : List Answer,
    m'.replies = m.replies ++ log.map Answer.frame ∧
    (m.win root).eventreads = Answer.readers log ++ (m'.win root).eventreads ∧
    (m.win root).events ++ b = Answer.bytes log ++ (m'.win root).events

theorem asked_nothing (replies : m'.replies = m.replies)
    (reads : (m'.win root).eventreads = (m.win root).eventreads)
    (events : (m'.win root).events = (m.win root).events) : m.Asked m' [] :=
  ⟨[], by rw [replies]; simp, by rw [reads]; rfl, by rw [events]; simp [Answer.bytes]⟩

theorem Asked.trans (first : m.Asked m' b) (rest : m'.Asked m'' b') :
    m.Asked m'' (b ++ b') := by
  rcases first with ⟨log, replies, reads, events⟩
  rcases rest with ⟨log', replies', reads', events'⟩
  refine ⟨log ++ log', ?_, ?_, ?_⟩
  · rw [replies', replies, map_append, append_assoc]
  · rw [reads, reads', Answer.readers, Answer.readers, Answer.readers, flatMap_append,
      append_assoc]
  · rw [← append_assoc, events, append_assoc, events', Answer.bytes, Answer.bytes,
      Answer.bytes, flatMap_append, append_assoc]

theorem drained_log (rs : List Waiting) (events : Bytes) :
    ∃ log : List Answer, (drained rs events).1 = log.map Answer.frame ∧
      rs = Answer.readers log ++ (drained rs events).2.1 ∧
      events = Answer.bytes log ++ (drained rs events).2.2 := by
  induction rs generalizing events with
  | nil => exact ⟨[], rfl, rfl, rfl⟩
  | cons r rs ih =>
      rw [drained]
      split_ifs with none
      · exact ⟨[], rfl, rfl, rfl⟩
      · generalize relative events.length (min r.2 events.length) = n
        rcases ih (events.drop n) with ⟨log, replies, reads, rest⟩
        refine ⟨.given r (events.take n) :: log, ?_, ?_, ?_⟩
        · rw [map_cons, ← replies]
          rfl
        · exact congrArg (r :: ·) reads
        · have cut := take_append_drop n events
          rw [rest] at cut
          have all : Answer.bytes (.given r (events.take n) :: log) =
              events.take n ++ Answer.bytes log := rfl
          rw [all, append_assoc]
          exact cut.symm

theorem asked_ask (line : String) : m.Asked (m.ask line) (utf8 (line ++ "\n")) := by
  rw [ask, post, drain]
  generalize posted :
    m.alter root (fun w => { w with events := w.events ++ utf8 (line ++ "\n") }) = m₁
  have reads : (m₁.win root).eventreads = (m.win root).eventreads := by
    rw [← posted, win_alter_self]
  have events : (m₁.win root).events = (m.win root).events ++ utf8 (line ++ "\n") := by
    rw [← posted, win_alter_self]
  have replies : m₁.replies = m.replies := by
    rw [← posted]
    rfl
  rcases drained_log (m₁.win root).eventreads (m₁.win root).events with ⟨log, framed, given, told⟩
  refine ⟨log, ?_, ?_, ?_⟩
  · rw [← replies, ← framed]
    rfl
  · rw [← reads, win_reply, win_alter_self]
    exact given
  · rw [← events, win_reply, win_alter_self]
    exact told

theorem asked_rfl : m.Asked m [] := asked_nothing rfl rfl rfl

theorem asked_alter {f : Window → Window} (reads : ∀ x, (f x).eventreads = x.eventreads)
    (events : ∀ x, (f x).events = x.events) : m.Asked (m.alter w f) [] :=
  asked_nothing rfl (field_alter Window.eventreads reads root)
    (field_alter Window.events events root)

theorem asked_orphan : m.Asked (m.orphan w) [] := by
  rcases named : (m.win w).parent with _ | p
  · rw [orphan_of_alone named]
    exact asked_rfl
  · rw [orphan_of_parent named]
    apply Asked.trans (b := []) (asked_alter _ _) (asked_alter _ _) <;> exact fun _ => rfl

theorem asked_adopt (index : Int) : m.Asked (m.adopt p w index) [] := by
  have orphaned : m.Asked (if (m.win w).parent.isSome then m.orphan w else m) [] := by
    split_ifs
    · exact asked_orphan
    · exact asked_rfl
  rw [adopt]
  apply Asked.trans (b := []) (orphaned.trans (asked_alter _ _)) (asked_alter _ _) <;>
    exact fun _ => rfl

theorem asked_make (made : root < m.next) (x : Window) : m.Asked (m.make x) [] := by
  have old := win_make_of_ne (m := m) x made.ne
  exact asked_nothing rfl (by rw [old]) (by rw [old])

theorem asked_refocus : m.Asked (m.refocus w) [] := by
  rw [refocus]
  split_ifs <;> exact asked_nothing rfl rfl rfl

def hung (pid : Nat) : Bytes :=
  utf8 ("echo hangup >[2]/dev/null >/proc/" ++ toString pid ++ "/notepg" ++ "\n")

/-- Meanwhile commands of the windows were hung up. -/
def Hung (m m' : Manager) : Prop :=
  (∀ w, (m'.win w).pid = (m.win w).pid) ∧ ∃ pids : List Nat,
    (∀ pid ∈ pids, pid ≠ 0 ∧ ∃ w, (m.win w).pid = pid) ∧ m.Asked m' (pids.flatMap hung)

theorem Asked.hung (asked : m.Asked m' []) (same : ∀ w, (m'.win w).pid = (m.win w).pid) :
    m.Hung m' := ⟨same, [], by simp, asked⟩

theorem Hung.trans (first : m.Hung m') (rest : m'.Hung m'') : m.Hung m'' := by
  rcases first with ⟨same, pids, of, first⟩
  rcases rest with ⟨same', pids', of', rest⟩
  refine ⟨fun w => (same' w).trans (same w), pids ++ pids', ?_, ?_⟩
  · intro pid member
    rcases mem_append.1 member with member | member
    · exact of pid member
    · rcases of' pid member with ⟨some_, w, its⟩
      exact ⟨some_, w, (same w).symm.trans its⟩
  · rw [flatMap_append]
    exact first.trans rest

theorem hung_hangup : m.Hung (m.hangup w) := by
  rw [hangup]
  split_ifs with none
  · exact asked_rfl.hung fun _ => rfl
  · refine ⟨fun v => ?_, [(m.win w).pid], ?_, ?_⟩
    · rw [ask, post, drain, win_reply, field_alter Window.pid (by exact fun _ => rfl),
        field_alter Window.pid (by exact fun _ => rfl)]
    · rintro pid member
      cases mem_singleton.1 member
      exact ⟨none, w, rfl⟩
    · rw [flatMap_singleton]
      exact asked_ask _

theorem asked_endreads (other : root ≠ w) : m.Asked (m.endreads w) [] := by
  refine ⟨((m.win w).reads ++ (m.win w).eventreads).map fun r => .gone r.1, ?_, ?_, ?_⟩
  · rw [map_map]
    rfl
  · have none : Answer.readers (((m.win w).reads ++ (m.win w).eventreads).map fun r =>
        .gone r.1) = [] := by
      rw [Answer.readers, flatMap_map]
      exact flatMap_eq_nil_iff.2 fun _ _ => rfl
    rw [endreads, win_reply, win_alter_of_ne m other, none]
    rfl
  · have none : Answer.bytes (((m.win w).reads ++ (m.win w).eventreads).map fun r =>
        .gone r.1) = [] := by
      rw [Answer.bytes, flatMap_map]
      exact flatMap_eq_nil_iff.2 fun _ _ => rfl
    rw [endreads, win_reply, win_alter_of_ne m other, none, append_nil]
    rfl

theorem hung_closeIn (n : Nat) (m : Manager) (w : Nat) : m.Hung (closeIn n m w) := by
  apply closeIn_rule
  · exact fun _ => asked_rfl.hung fun _ => rfl
  · exact fun _ _ _ => Hung.trans
  · exact fun _ _ => hung_hangup
  · exact fun _ _ other => (asked_endreads other).hung (field_endreads Window.pid fun _ => rfl)
  · exact fun _ _ => (asked_orphan.trans (asked_nothing rfl rfl rfl)).hung
      (field_orphan Window.pid (fun _ _ => rfl) fun _ _ _ => rfl)
  · intro m w
    refine asked_refocus.hung fun v => ?_
    rw [refocus]
    split_ifs <;> rfl

theorem hung_closings {f : Manager → Nat → Manager} (each : ∀ m w, Hung m (f m w))
    (cs : List Nat) (m : Manager) : m.Hung (cs.foldl f m) := by
  induction cs generalizing m with
  | nil => exact asked_rfl.hung fun _ => rfl
  | cons c cs ih => exact (each m c).trans (ih _)

end Manager

end Ipnx.Host.Emca
