import Ipnx.Lib.Mailbox
import Ipnx.Proc.Notes

/-!
# What becomes of a note

A process holds at most `NNOTE` notes; its handler is handed them one at a time, in the order
they were posted. A note that waits leaves its queue only as it is handed over or read, or is
cleared by `exec` or by a note that is not a user's; and one that must end the process is what
the next `notify_` ends it with.
-/

namespace Ipnx

open Function (update update_of_ne update_self)

/-- Of a process, what its notes are dealt out by. -/
structure Box where
  note : List Note
  notified : Bool
  notify : Nat

def Own.box (o : Own) : Box := ⟨o.note, o.notified, o.notify⟩

theorem aside_box : Own.Aside Own.box := ⟨fun _ => rfl, fun _ _ _ => rfl, fun _ _ => rfl⟩

/-- What was decided for the machine, if it is a note for the handler. -/
def Answer.text : Answer → List String
  | .handler _ msg => [msg]
  | _ => []

namespace Box

/-- A note that is not a user's replaces those queued. -/
def Flushes (flag : NoteFlag) (b : Box) : Prop :=
  flag ≠ .nuser ∧ (b.notify = 0 ∨ b.notified = true)

instance (flag : NoteFlag) (b : Box) : Decidable (b.Flushes flag) := by
  unfold Flushes
  infer_instance

def left (flag : NoteFlag) (b : Box) : List Note := if b.Flushes flag then [] else b.note

def add (msg : String) (flag : NoteFlag) (b : Box) : Box :=
  { b with
    note :=
      if (b.left flag).length < nnote then b.left flag ++ [Note.cut msg flag] else b.left flag }

theorem left_sublist (flag : NoteFlag) (b : Box) : (b.left flag).Sublist b.note := by
  rw [left]
  split_ifs
  · exact List.nil_sublist _
  · exact List.Sublist.refl _

end Box

namespace Procs

variable {s s' : Procs} {pid : Pid}

def box (s : Procs) : Pid → Option Box := s.ledger.part Own.box

theorem box_eq {p : Proc} (found : s.tab pid = some p) :
    s.box pid = some ⟨p.note, p.notified, p.notify⟩ :=
  part_eq found

theorem box_none : s.box pid = none ↔ s.tab pid = none := by
  simp [box, Ledger.part, ledger]

theorem tab_of_box {b : Box} (here : s.box pid = some b) :
    ∃ p, s.tab pid = some p ∧ b = ⟨p.note, p.notified, p.notify⟩ := by
  rcases tab_of_part here with ⟨p, found, rfl⟩
  exact ⟨p, found, rfl⟩

theorem box_modify {f : Proc → Proc} {g : Box → Box}
    (same : ∀ p, (f p).own.box = g p.own.box) :
    (s.modify pid f).box = update s.box pid ((s.box pid).map g) := by
  funext q
  rcases eq_or_ne q pid with rfl | differs
  · cases found : s.tab q with
    | none => simp [box, Ledger.part, ledger, found]
    | some p => simp [box, Ledger.part, ledger, found, same]
  · simp [box, Ledger.part, ledger, differs]

theorem box_keep {f : Proc → Proc} (same : ∀ p, (f p).own.box = p.own.box) :
    (s.modify pid f).box = s.box :=
  (like_modify same).part

theorem box_postnote (msg : String) (flag : NoteFlag) :
    (s.postnote pid msg flag).2.box =
      update s.box pid ((s.box pid).map (Box.add msg flag)) := by
  rcases found : s.tab pid with _ | p
  · have absent := box_none.mpr found
    rw [ledger_postnote_none msg flag found]
    simp [absent]
  · have edited : (s.ledger.edit pid (Own.addnote msg flag)).part Own.box =
        update s.box pid ((s.box pid).map (Box.add msg flag)) := by
      rw [Ledger.part_edit]
      simp only [box, Ledger.part, Option.map_map]
      rfl
    rw [box, ledger_postnote msg flag found]
    split_ifs
    · rw [(Ledger.like_pull aside_box p.rgrp).part]
      exact edited
    · exact edited

theorem posted_eq {p : Proc} (found : s.tab pid = some p) (msg : String) (flag : NoteFlag) :
    (s.postnote pid msg flag).1 =
      decide (((⟨p.note, p.notified, p.notify⟩ : Box).left flag).length < nnote) := by
  simp only [postnote, found, Proc.hasroom, Box.left, Box.Flushes]
  split_ifs with flushed
  · simp [flushed, nnote]
  · simp [flushed]

theorem same_pexit (pid : Pid) (status : String) (freemem : Bool) :
    (s.pexit pid status freemem).box = s.box ∧ (s.pexit pid status freemem).next = s.next := by
  have exits : (s.exits pid status).box = s.box ∧ (s.exits pid status).next = s.next := by
    rcases found : s.tab pid with _ | p
    · simp only [Procs.exits, found, and_self]
    · have made := ledger_exits status found
      refine ⟨?_, congrArg Ledger.next made⟩
      funext q
      simp only [box, Ledger.part, made, Ledger.edit]
      rcases eq_or_ne q pid with rfl | differs
      · simp only [update_self, own_eq found]
        rfl
      · simp [differs]
  rw [pexit]
  split_ifs
  · exact exits
  · have kept : ((s.exits pid status).addbroken pid).ledger = _ := ledger_addbroken
    have next := congrArg Ledger.next kept
    refine ⟨?_, next.trans exits.2⟩
    rw [box, kept]
    exact exits.1

end Procs

namespace Noting

variable {w w' : Noting} {pid q : Pid}

structure Same (w w' : Noting) : Prop where
  box : w'.procs.box = w.procs.box
  next : w'.procs.next = w.procs.next
  posted : w'.posted = w.posted
  handed : w'.handed = w.handed
  entered : w'.entered = w.entered
  notes : w'.notes = w.notes

theorem Same.refl : Same w w := ⟨rfl, rfl, rfl, rfl, rfl, rfl⟩

theorem Same.trans {w'' : Noting} (first : Same w w') (second : Same w' w'') : Same w w'' where
  box := second.box.trans first.box
  next := second.next.trans first.next
  posted := second.posted.trans first.posted
  handed := second.handed.trans first.handed
  entered := second.entered.trans first.entered
  notes := second.notes.trans first.notes

theorem same_pexit (status : String) (freemem waits : Bool) :
    Same w (w.pexit pid status freemem waits) := by
  rw [pexit]
  split_ifs
  · exact ⟨rfl, rfl, rfl, rfl, rfl, rfl⟩
  · rcases Procs.same_pexit (s := w.procs) pid status freemem with ⟨box, next⟩
    exact ⟨box, next, rfl, rfl, rfl, rfl⟩

theorem same_closed : Same w (w.closed pid) := by
  rw [closed]
  split
  case h_1 status freemem _ =>
    rcases Procs.same_pexit (s := w.procs) pid status freemem with ⟨box, next⟩
    exact ⟨box, next, rfl, rfl, rfl, rfl⟩
  case h_2 => exact .refl

theorem same_modify {f : Proc → Proc} (same : ∀ p, (f p).own.box = p.own.box) :
    Same w { w with procs := w.procs.modify pid f } :=
  ⟨Procs.box_keep same, rfl, rfl, rfl, rfl, rfl⟩

theorem same_stop : Same w { w with procs := w.procs.stop pid } := by
  have stopped : (w.procs.stop pid).ledger = w.procs.ledger := Procs.ledger_stop
  refine ⟨?_, congrArg Ledger.next stopped, rfl, rfl, rfl, rfl⟩
  simp only [Procs.box, stopped]

theorem same_procctl (waits : Bool) : Same w (w.procctl pid waits).2 := by
  rw [procctl]
  split
  · exact .refl
  · split
    · apply Same.trans (same_modify (f := fun p => { p with procctl := none }) fun _ => rfl)
      exact same_pexit "Killed" true waits
    · split_ifs
      · exact .refl
      · exact same_stop
    · exact same_stop
    · exact .refl
    · exact .refl

theorem same_control (place : NoteAt) (waits : Bool) : Same w (w.control pid place waits).2 := by
  rw [control]
  split_ifs
  · exact .refl
  · exact same_procctl waits

theorem control_cases (pid : Pid) (place : NoteAt) (waits : Bool) :
    w.control pid place waits = (none, w) ∨
      ∃ n w', w.control pid place waits = (some n, w') ∧ n.text = [] := by
  rw [control]
  split_ifs
  · exact .inl rfl
  · rw [procctl]
    split
    · exact .inl rfl
    · split
      · exact .inr ⟨_, _, rfl, rfl⟩
      · split_ifs
        · exact .inl rfl
        · exact .inr ⟨_, _, rfl, rfl⟩
      · exact .inr ⟨_, _, rfl, rfl⟩
      · exact .inl rfl
      · exact .inl rfl

def Ready (w : Noting) (pid : Pid) (n : Note) (rest : List Note) : Prop :=
  ∃ f, f ≠ 0 ∧ w.procs.box pid = some ⟨n :: rest, false, f⟩

/-- What was decided of a process's first note: nothing, its end, or that it is handed over. -/
inductive Decided (w : Noting) (pid : Pid) : NoteAt → Answer × Noting → Prop
  | same {place : NoteAt} {r : Answer × Noting} : Same w r.2 → r.1.text = [] → Decided w pid place r
  | hands {n : Note} {rest : List Note} {f : Nat} : w.Ready pid n rest →
      Decided w pid .syscall (.handler f n.msg, w.hand pid n)

theorem decided_decide {p : Proc} (found : w.procs.tab pid = some p) (place : NoteAt)
    (waits : Bool) : w.Decided pid place (w.decide pid p place waits) := by
  have dies (n : Note) :
      w.Decided pid place (.pexit, w.pexit pid n.msg (n.flag != .ndebug) waits) :=
    .same (same_pexit _ _ _) rfl
  rw [decide]
  split
  · exact .same .refl rfl
  next n rest first =>
    simp only
    split_ifs with fatal running unhandled
    · exact dies n
    · exact .same .refl rfl
    · exact dies n
    · have ready : w.Ready pid n rest := by
        refine ⟨p.notify, unhandled, ?_⟩
        rw [Procs.box_eq found, first, Bool.eq_false_of_not_eq_true running]
      cases place with
      | clock => exact .same .refl rfl
      | fault => exact dies n
      | syscall => exact .hands ready

theorem decided_notify (place : NoteAt) (waits : Bool) :
    w.Decided pid place (w.notify_ pid place waits) := by
  rw [notify_]
  split
  · exact .same .refl rfl
  next p found =>
    split_ifs
    · exact .same .refl rfl
    · have asked : Same w (w.control pid place waits).2 := same_control place waits
      rcases control_cases (w := w) pid place waits with none | ⟨n, w', some, quiet⟩
      · rw [none]
        exact decided_decide found place waits
      · rw [some] at asked ⊢
        exact .same asked quiet

theorem box_hand (n : Note) : (w.hand pid n).procs.box =
    update w.procs.box pid
      ((w.procs.box pid).map fun b => { b with notified := true, note := b.note.tail }) :=
  Procs.box_modify fun _ => rfl

/-- What an operation makes of a process's box, with the notes it posts and those it hands
over. -/
inductive Dealt (w : Noting) (pid : Pid) : NoteAct → Option Box → List Note → List Note → Prop
  | same {a : NoteAct} : Dealt w pid a (w.procs.box pid) [] []
  | gone {a : Act} {p : Proc} : w.procs.tab pid = some p → p.status.isSome →
      Dealt w pid (.table a) none [] []
  | born {a : NoteAct} {b : Box} : w.procs.tab pid = none →
      (b.note = [] ∨ ∃ maker m, w.procs.box maker = some m ∧ b.note = m.note) →
      Dealt w pid a (some b) b.note []
  | posted {msg : String} {flag : NoteFlag} {b : Box} : w.procs.box pid = some b →
      Dealt w pid (.post pid msg flag) (some (b.add msg flag))
        (if (b.left flag).length < nnote then [Note.cut msg flag] else []) []
  | handed {rfork waits : Bool} {n : Note} {rest : List Note} {f : Nat} : f ≠ 0 →
      w.procs.box pid = some ⟨n :: rest, false, f⟩ →
      Dealt w pid (.callend pid rfork waits) (some ⟨rest, true, f⟩) [] [n]
  | sysnotify {f : Nat} {b : Box} : w.procs.box pid = some b →
      Dealt w pid (.sysnotify pid f) (some { b with notify := f }) [] []
  | noted {how : Int} {waits : Bool} {b : Box} : w.procs.box pid = some b →
      Dealt w pid (.noted pid how waits) (some { b with notified := false }) [] []
  | exec {b : Box} : w.procs.box pid = some b → Dealt w pid (.exec pid) (some ⟨[], false, 0⟩) [] []
  | read {count : Nat} {n : Note} {rest : List Note} {b : Box} : w.procs.box pid = some b →
      b.note = n :: rest → Dealt w pid (.readnote pid count) (some { b with note := rest }) [] []

structure After (w : Noting) (pid : Pid) (a : NoteAct) (w' : Noting) : Prop where
  dealt : ∃ posted handed, w.Dealt pid a (w'.procs.box pid) posted handed ∧
    w'.posted pid = w.posted pid ++ posted ∧ w'.handed pid = w.handed pid ++ handed
  next : w.procs.next ≤ w'.procs.next
  born : w.procs.box pid = none → w'.procs.box pid ≠ none → pid < w'.procs.next

variable {a : NoteAct}

theorem After.of_box (box : w'.procs.box pid = w.procs.box pid)
    (next : w'.procs.next = w.procs.next) (posted : w'.posted pid = w.posted pid)
    (handed : w'.handed pid = w.handed pid) : w.After pid a w' := by
  refine ⟨⟨[], [], ?_, by simp [posted], by simp [handed]⟩, next.ge, ?_⟩
  · rw [box]
    exact .same
  · intro none some
    exact absurd (box.trans none) some

theorem After.of_procs {procs : Procs} (box : procs.box pid = w.procs.box pid)
    (next : procs.next = w.procs.next) : w.After pid a { w with procs } :=
  .of_box box next rfl rfl

theorem Same.after (same : Same w w') : w.After pid a w' :=
  .of_box (congrFun same.box pid) same.next (congrFun same.posted pid) (congrFun same.handed pid)

theorem After.then_same {w'' : Noting} (after : w.After pid a w') (same : Same w' w'') :
    w.After pid a w'' := by
  rcases after with ⟨⟨posted, handed, dealt, puts, hands⟩, next, born⟩
  refine ⟨⟨posted, handed, ?_, ?_, ?_⟩, ?_, ?_⟩
  · rw [same.box]
    exact dealt
  · rw [same.posted, puts]
  · rw [same.handed, hands]
  · rw [same.next]
    exact next
  · rw [same.box, same.next]
    exact born

theorem After.of_update {procs : Procs} {b' : Option Box}
    (box : procs.box = update w.procs.box q b') (next : procs.next = w.procs.next)
    (dealt : pid = q → w.Dealt pid a b' [] []) (there : w.procs.box q = none → b' = none) :
    w.After pid a { w with procs } := by
  rcases eq_or_ne pid q with rfl | differs
  · have here : procs.box pid = b' := by rw [box, update_self]
    refine ⟨⟨[], [], ?_, by simp, by simp⟩, next.ge, ?_⟩
    · simp only [here]
      exact dealt rfl
    · intro none some
      exact absurd (here.trans (there none)) some
  · apply After.of_procs _ next
    rw [box, update_of_ne differs]

theorem After.of_modify {f : Proc → Proc} {g : Box → Box}
    (same : ∀ p, (f p).own.box = g p.own.box)
    (dealt : ∀ b, w.procs.box q = some b → pid = q → w.Dealt pid a (some (g b)) [] []) :
    w.After pid a { w with procs := w.procs.modify q f } := by
  apply After.of_update (Procs.box_modify same) rfl
  · intro mine
    rcases here : w.procs.box q with _ | b
    · rw [Option.map_none, ← here, mine]
      exact .same
    · exact dealt b here mine
  · intro none
    rw [none, Option.map_none]

theorem Decided.after_syscall {r : Answer × Noting} (decided : w.Decided q .syscall r)
    (rfork waits : Bool) : w.After pid (.callend q rfork waits) r.2 := by
  cases decided with
  | same same => exact same.after
  | @hands n rest f ready =>
      rcases ready with ⟨f, handles, here⟩
      rcases eq_or_ne pid q with rfl | differs
      · refine ⟨⟨[], [n], ?_, by simp [hand], by simp [hand]⟩, le_rfl, ?_⟩
        · simp only [box_hand, here, update_self, Option.map_some, List.tail_cons]
          exact .handed handles here
        · simp [here]
      · exact .of_box (by rw [box_hand, update_of_ne differs]) rfl rfl
          (by simp [hand, differs])

theorem Decided.same_of_ne {place : NoteAt} {r : Answer × Noting} (decided : w.Decided q place r)
    (elsewhere : place ≠ .syscall) : Same w r.2 := by
  cases decided with
  | same same => exact same
  | hands => exact absurd rfl elsewhere

theorem After.of_born {maker : Pid} {procs : Procs} {b : Box}
    (fresh : w.procs.tab w.procs.next = none) (next : procs.next = w.procs.next + 1)
    (box : procs.box = update w.procs.box w.procs.next (some b))
    (notes : b.note = [] ∨ ∃ maker m, w.procs.box maker = some m ∧ b.note = m.note) :
    w.After pid a (w.born maker w.procs.next procs) := by
  have here : procs.box w.procs.next = some b := by rw [box, update_self]
  rcases Procs.tab_of_box here with ⟨p, found, rfl⟩
  have later : w.procs.next ≤ procs.next := next.ge.trans' (Nat.le_succ _)
  rcases eq_or_ne pid w.procs.next with rfl | differs
  · refine ⟨⟨p.note, [], ?_, by simp [Noting.born, found], by simp [Noting.born]⟩, later, ?_⟩
    · simp only [Noting.born, here]
      exact .born fresh notes
    · intro _ _
      simp only [Noting.born, next]
      exact Nat.lt_succ_self _
  · have same : procs.box pid = w.procs.box pid := by rw [box, update_of_ne differs]
    refine ⟨⟨[], [], ?_, by simp [Noting.born, differs], by simp [Noting.born]⟩, later, ?_⟩
    · simp only [Noting.born, same]
      exact .same
    · intro none some
      exact absurd (same.trans none) some

def Known (w : Noting) : Prop := ∀ pid, (w.procs.tab pid).isSome → pid < w.procs.next

theorem Known.fresh (known : w.Known) : w.procs.tab w.procs.next = none := by
  rw [← Option.not_isSome_iff_eq_none]
  intro there
  exact absurd (known _ there) (lt_irrefl _)

theorem after_table {a : Act} (apart : Apart a) :
    w.After pid (.table a) (w.step (.table a)) := by
  have turn := Procs.turn_quiet (s := w.procs) aside_box a
    (by rintro _ _ _ rfl; exact apart) (by rintro _ _ _ _ _ rfl; exact apart)
  cases turn with
  | like like => exact .of_procs (congrFun like.part pid) like.next
  | rfork | kproc | exits | addbroken => exact absurd apart id
  | unbreak q =>
      have same : (w.procs.unbreak q).ledger = _ := Procs.ledger_unbreak
      apply After.of_procs _ (congrArg Ledger.next same)
      simp only [Procs.box, same]
      rfl
  | awaitChild order q =>
      rcases Procs.ledger_awaitChild (s := w.procs) order q with ⟨c, p, found, ended, same⟩ | same
      · have box : (w.procs.step (.awaitChild order q)).box =
            update w.procs.box c none := by
          simp only [Procs.step, Procs.box, same]
          exact Ledger.part_remove
        apply After.of_update box (congrArg Ledger.next same)
        · rintro rfl
          exact .gone found ended
        · exact fun _ => rfl
      · apply After.of_procs
        · simp only [Procs.step, same]
        · simp only [Procs.step, same]
  | edit q f =>
      have like : w.procs.ledger.Like Own.box (w.procs.modify q f).ledger := by
        apply Procs.like_modify
        intro p
        rcases apart p with ⟨note, notified, notify, -⟩
        simp only [Own.box, Proc.own, note, notified, notify]
      exact .of_procs (congrFun like.part pid) like.next

theorem after_rfork (known : w.Known) (flags : Nat) :
    w.After pid (.rfork q flags) (w.step (.rfork q flags)) := by
  simp only [step, rfork]
  rcases forked : w.procs.sysrfork q flags with _ | ⟨made, procs⟩
  · exact Same.refl.after
  · rcases Procs.ledger_sysrfork forked with ⟨parent, found, ⟨rfl, born⟩ | ⟨rfl, changed⟩⟩
    · apply After.of_born known.fresh (congrArg Ledger.next born)
      · simp only [Procs.box, born]
        exact Ledger.part_update
      · exact .inr ⟨q, _, Procs.box_eq found, rfl⟩
    · have like : w.procs.ledger.Like Own.box procs.ledger := by
        rw [changed]
        apply Ledger.like_edit
        intro o
        split_ifs <;> rfl
      exact .of_procs (congrFun like.part pid) like.next

theorem after_kproc (known : w.Known) (up : Pid) (name user : String) :
    w.After pid (.kproc up name user) (w.step (.kproc up name user)) := by
  have made := Procs.ledger_kproc (s := w.procs) up name user
  apply After.of_born known.fresh (congrArg Ledger.next made)
  · simp only [Procs.box, made]
    exact Ledger.part_update
  · rcases found : w.procs.tab up with _ | p
    · left
      simp [Procs.kchild, found, Proc.own, Own.box, Proc.root]
    · right
      refine ⟨up, _, Procs.box_eq found, ?_⟩
      simp [Procs.kchild, found, Proc.own, Own.box]

theorem next_postnote (q : Pid) (msg : String) (flag : NoteFlag) :
    (w.procs.postnote q msg flag).2.next = w.procs.next := by
  rcases found : w.procs.tab q with _ | p
  · rw [Procs.ledger_postnote_none msg flag found]
  · have posted := congrArg Ledger.next (Procs.ledger_postnote msg flag found)
    split_ifs at posted <;> exact posted

theorem after_post (q : Pid) (msg : String) (flag : NoteFlag) :
    w.After pid (.post q msg flag) (w.step (.post q msg flag)) := by
  simp only [step, postnote]
  have box : (w.procs.postnote q msg flag).2.box = _ := Procs.box_postnote msg flag
  have next := next_postnote (w := w) q msg flag
  rcases eq_or_ne pid q with rfl | differs
  · rcases found : w.procs.tab pid with _ | p
    · have absent := Procs.box_none.mpr found
      apply After.of_box
      · simp [box, absent]
      · exact next
      · simp [Procs.postnote, found]
      · rfl
    · let b : Box := ⟨p.note, p.notified, p.notify⟩
      refine ⟨⟨if (b.left flag).length < nnote then [Note.cut msg flag] else [], [], ?_, ?_, ?_⟩,
        next.ge, ?_⟩
      · simp only [box, update_self, Procs.box_eq found, Option.map_some]
        exact .posted (Procs.box_eq found)
      · simp [Procs.posted_eq found, b]
      · simp
      · simp [Procs.box_eq found]
  · apply After.of_box
    · simp [box, differs]
    · exact next
    · simp [differs]
    · rfl

theorem after_noted (how : Int) (waits : Bool) :
    w.After pid (.noted q how waits) (w.step (.noted q how waits)) := by
  have cleared : w.After pid (.noted q how waits)
      { w with procs := w.procs.modify q fun p => { p with notified := false } } := by
    apply After.of_modify (g := fun b => { b with notified := false }) fun _ => rfl
    rintro b here rfl
    exact .noted here
  simp only [step, noted]
  split_ifs
  · exact (same_pexit _ _ _).after
  · exact cleared
  · exact cleared.then_same (same_pexit _ _ _)
  · exact cleared.then_same (same_pexit _ _ _)

theorem after_step (known : w.Known) (called : w.Called a) : w.After pid a (w.step a) := by
  cases a with
  | table a => exact after_table called
  | rfork q flags => exact after_rfork known flags
  | kproc up name user => exact after_kproc known up name user
  | post q msg flag => exact after_post q msg flag
  | sysnotify q f =>
      apply After.of_modify (g := fun b => { b with notify := f }) fun _ => rfl
      rintro b here rfl
      exact .sysnotify here
  | noted q how waits => exact after_noted how waits
  | exec q =>
      apply After.of_modify (g := fun _ => ⟨[], false, 0⟩) fun _ => rfl
      rintro b here rfl
      exact .exec here
  | readnote q count =>
      simp only [step, readnote]
      split_ifs
      · exact Same.refl.after
      · split
        · exact Same.refl.after
        next p found =>
          split
          · exact Same.refl.after
          next n rest first =>
            apply After.of_modify (g := fun b => { b with note := rest }) fun _ => rfl
            rintro b here rfl
            apply Dealt.read here
            rw [Procs.box_eq found, Option.some_inj] at here
            rw [← here, first]
  | notify q place waits =>
      cases place with
      | syscall => exact .of_box rfl rfl rfl rfl
      | clock => exact ((decided_notify _ _).same_of_ne (by simp)).after
      | fault => exact ((decided_notify _ _).same_of_ne (by simp)).after
  | callend q rfork waits =>
      have ended : w.After pid (.callend q rfork waits)
          (if rfork then (Answer.no, w) else w.notify_ q .syscall waits).2 := by
        split_ifs
        · exact Same.refl.after
        · exact (decided_notify _ _).after_syscall rfork waits
      simp only [step, callend]
      generalize (if rfork then (Answer.no, w) else w.notify_ q .syscall waits) = r at ended
      split_ifs
      · exact ended
      · exact ⟨ended.dealt, ended.next, ended.born⟩
  | pexit q status freemem waits => exact (same_pexit _ _ _).after
  | closed q => exact same_closed.after

end Noting

end Ipnx
