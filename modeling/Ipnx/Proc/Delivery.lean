import Ipnx.Proc.Handlers

/-!
# Notes in every run

The account of every process's notes holds in every run, and each operation does to a queue only
what it may. A note that must end its process ends it at the next `notify_` that no control
message cuts short. What is handed over as a call ends is lost when the call ends a second time
before the machine has asked for it, and only then.
-/

namespace Ipnx

open List
open Procs (box_eq box_none own_eq tab_of_box)
open Option (elim_some map_some some_inj)

namespace Noting

variable {w w' : Noting} {a : NoteAct} {pid q : Pid}

def mailbox (w : Noting) (pid : Pid) : Mailbox Note :=
  ⟨(w.procs.box pid).elim [] Box.note, w.posted pid, w.handed pid⟩

/-- What was decided for the machine, or taken by it to the handler. -/
def told (w : Noting) (pid : Pid) : List String := w.entered pid ++ (w.notes pid).text

structure Inv (w : Noting) : Prop where
  known : w.Known
  boxes : ∀ pid, (w.mailbox pid).Inv nnote
  told : ∀ pid, (w.told pid).Sublist ((w.handed pid).map Note.msg)

theorem Inv.short {b : Box} (inv : w.Inv) (here : w.procs.box pid = some b) :
    b.note.length ≤ nnote := by
  have short := (inv.boxes pid).short
  simpa only [mailbox, here, elim_some] using short

theorem Dealt.change {b' : Option Box} {posted handed : List Note} (inv : w.Inv)
    (dealt : w.Dealt pid a b' posted handed) :
    Mailbox.Change nnote (w.mailbox pid)
      ⟨b'.elim [] Box.note, w.posted pid ++ posted, w.handed pid ++ handed⟩ := by
  cases dealt with
  | same =>
      simp only [append_nil]
      exact .refl
  | gone =>
      simp only [append_nil]
      exact .lose (nil_sublist _)
  | @born a b fresh notes =>
      have short : b.note.length ≤ nnote := by
        rcases notes with none | ⟨maker, m, here, same⟩
        · simp [none]
        · rw [same]
          exact inv.short here
      simp only [append_nil, elim_some]
      have none : ([] : List Note).Sublist (w.mailbox pid).queue := nil_sublist _
      exact .post none short
  | @posted msg flag b here =>
      have kept : (b.left flag).Sublist (w.mailbox pid).queue := by
        simp only [mailbox, here, elim_some]
        exact b.left_sublist flag
      simp only [Box.add, append_nil, elim_some]
      split_ifs with room
      · exact .post kept (by simpa [Nat.succ_le_iff] using room)
      · simp only [append_nil]
        exact .lose kept
  | handed handles here =>
      simp only [append_nil, elim_some]
      exact .hand (by simp [mailbox, here])
  | sysnotify here =>
      simp only [append_nil, elim_some]
      exact .lose (by simp [mailbox, here])
  | noted here =>
      simp only [append_nil, elim_some]
      exact .lose (by simp [mailbox, here])
  | exec here =>
      simp only [append_nil]
      exact .lose (nil_sublist _)
  | read here first =>
      simp only [append_nil, elim_some]
      exact .lose (by simp [mailbox, here, first])

@[simp]
theorem notes_pexit (status : String) (freemem waits : Bool) :
    (w.pexit pid status freemem waits).notes = w.notes :=
  (same_pexit status freemem waits).notes

@[simp]
theorem entered_pexit (status : String) (freemem waits : Bool) :
    (w.pexit pid status freemem waits).entered = w.entered :=
  (same_pexit status freemem waits).entered

theorem slots_step (quiet : ∀ q rfork waits, a ≠ .callend q rfork waits)
    (unasked : ∀ q waits, a ≠ .notify q .syscall waits) :
    (w.step a).notes = w.notes ∧ (w.step a).entered = w.entered := by
  have of_same {w' : Noting} (same : Same w w') : w'.notes = w.notes ∧ w'.entered = w.entered :=
    ⟨same.notes, same.entered⟩
  cases a with
  | table | kproc | post | sysnotify | exec => exact ⟨rfl, rfl⟩
  | rfork q flags =>
      simp only [step, rfork]
      split <;> exact ⟨rfl, rfl⟩
  | noted q how waits =>
      simp only [step, noted]
      split_ifs <;> simp
  | readnote q count =>
      simp only [step, readnote]
      repeat' split
      all_goals exact ⟨rfl, rfl⟩
  | notify q place waits =>
      have same (elsewhere : place ≠ .syscall) : Same w (w.notify_ q place waits).2 :=
        (decided_notify place waits).same_of_ne elsewhere
      cases place with
      | syscall => exact absurd rfl (unasked q waits)
      | clock => exact of_same (same (by simp))
      | fault => exact of_same (same (by simp))
  | callend q rfork waits => exact absurd rfl (quiet q rfork waits)
  | pexit q status freemem waits => exact of_same (same_pexit _ _ _)
  | closed q => exact of_same same_closed

theorem hands_step (known : w.Known) (called : w.Called a)
    (quiet : ∀ rfork waits, a ≠ .callend pid rfork waits) :
    (w.step a).handed pid = w.handed pid := by
  have after : w.After pid a (w.step a) := after_step known called
  rcases after.dealt with ⟨posted, handed, dealt, -, hands⟩
  have none : handed = [] := by
    generalize (w.step a).procs.box pid = b at dealt
    cases dealt with
    | @handed rfork waits => exact absurd rfl (quiet rfork waits)
    | _ => rfl
  rw [hands, none, append_nil]

theorem told_callend (pid q : Pid) (rfork waits : Bool) :
    let v := w.step (.callend q rfork waits)
    v.entered = w.entered ∧ (v.handed pid = w.handed pid ∧
        (v.notes pid = w.notes pid ∨ pid = q ∧ (v.notes pid).text = []) ∨
      ∃ n, pid = q ∧ v.handed pid = w.handed pid ++ [n] ∧ (v.notes pid).text = [n.msg]) := by
  have decided : w.Decided q .syscall
      (if rfork then (Answer.no, w) else w.notify_ q .syscall waits) := by
    split_ifs
    · exact .same .refl rfl
    · exact decided_notify _ _
  simp only [step, callend]
  generalize (if rfork then (Answer.no, w) else w.notify_ q .syscall waits) = r at decided
  cases decided with
  | same same quiet =>
      have handed := congrFun same.handed pid
      split_ifs
      · exact ⟨same.entered, .inl ⟨handed, .inl (congrFun same.notes pid)⟩⟩
      · refine ⟨same.entered, .inl ⟨handed, ?_⟩⟩
        rcases eq_or_ne pid q with rfl | differs
        · exact .inr ⟨rfl, by simp [quiet]⟩
        · exact .inl (by simp [differs, same.notes])
  | @hands n rest f ready =>
      refine ⟨rfl, ?_⟩
      rcases eq_or_ne pid q with rfl | differs
      · exact .inr ⟨n, rfl, by simp [hand], by simp [Answer.text]⟩
      · exact .inl ⟨by simp [hand, differs], .inl (by simp [hand, differs])⟩

theorem told_step (quiet : ∀ q rfork waits, a ≠ .callend q rfork waits) :
    (w.step a).told pid = w.told pid := by
  by_cases unasked : ∀ q waits, a ≠ .notify q .syscall waits
  · rcases slots_step (w := w) quiet unasked with ⟨notes, entered⟩
    rw [told, told, notes, entered]
  · simp only [not_forall, not_not] at unasked
    rcases unasked with ⟨q, waits, rfl⟩
    simp only [told, step, notify, Noting.taken]
    rcases eq_or_ne pid q with rfl | differs
    · cases w.notes pid <;> simp [Answer.text]
    · cases w.notes q <;> simp [differs]

theorem told_sublist (known : w.Known) (called : w.Called a)
    (before : (w.told pid).Sublist ((w.handed pid).map Note.msg)) :
    ((w.step a).told pid).Sublist (((w.step a).handed pid).map Note.msg) := by
  by_cases quiet : ∀ q rfork waits, a ≠ .callend q rfork waits
  · rw [told_step quiet, hands_step known called fun _ _ => quiet _ _ _]
    exact before
  · simp only [not_forall, not_not] at quiet
    rcases quiet with ⟨q, rfork, waits, rfl⟩
    have entered := (sublist_append_left _ _).trans before
    rcases told_callend (w := w) pid q rfork waits with
      ⟨same, ⟨handed, notes | ⟨-, none⟩⟩ | ⟨n, -, handed, text⟩⟩
    · rw [told, same, handed, notes]
      exact before
    · rw [told, same, handed, none, append_nil]
      exact entered
    · rw [told, same, handed, text, map_append]
      exact List.Sublist.append_right entered _

theorem Inv.step (inv : w.Inv) (called : w.Called a) : (w.step a).Inv := by
  have after (pid : Pid) : w.After pid a (w.step a) := after_step inv.known called
  refine ⟨?_, ?_, ?_⟩
  · intro pid there
    rcases here : w.procs.box pid with _ | b
    · apply (after pid).born here
      simpa [box_none, Option.isSome_iff_ne_none] using there
    · rcases tab_of_box here with ⟨p, found, -⟩
      exact (inv.known pid (by simp [found])).trans_le (after pid).next
  · intro pid
    rcases (after pid).dealt with ⟨posted, handed, dealt, puts, hands⟩
    apply (inv.boxes pid).change
    have same : (w.step a).mailbox pid = ⟨((w.step a).procs.box pid).elim [] Box.note,
        w.posted pid ++ posted, w.handed pid ++ handed⟩ := by
      rw [mailbox, puts, hands]
    rw [same]
    exact dealt.change inv
  · exact fun pid => told_sublist inv.known called (inv.told pid)

theorem inv_new : new.Inv where
  known pid there := by
    simp only [new, Procs.new] at there ⊢
    split_ifs at there with first
    · rw [first]
      decide
    · simp at there
  boxes pid := by
    have none : ((Procs.new.box pid).elim [] Box.note) = [] := by
      rcases here : Procs.new.box pid with _ | b
      · rfl
      · rcases tab_of_box here with ⟨p, found, rfl⟩
        simp only [Procs.new] at found
        split_ifs at found
        rw [← some_inj.mp found]
        rfl
    simp only [mailbox, new, none]
    exact Mailbox.inv_empty
  told pid := nil_sublist _

theorem inv_of_reach (reached : noting.Reach Called w) : w.Inv :=
  reached.invariant Inv (by rintro _ rfl; exact inv_new)
    (by rintro _ _ _ inv called rfl; exact inv.step called)

/-- No queue is too long, and the notes handed to a handler are of those posted, in their order. -/
structure Orderly (w : Noting) : Prop where
  short : ∀ pid p, w.procs.tab pid = some p → p.note.length ≤ nnote
  ordered : ∀ pid p, w.procs.tab pid = some p → (w.handed pid ++ p.note).Sublist (w.posted pid)
  handed : ∀ pid, (w.handed pid).Sublist (w.posted pid)
  entered : ∀ pid, (w.entered pid).Sublist ((w.handed pid).map Note.msg)

theorem Inv.orderly (inv : w.Inv) : w.Orderly where
  short pid p found := inv.short (box_eq found)
  ordered pid p found := by
    have ordered := (inv.boxes pid).ordered
    simpa only [mailbox, box_eq found, elim_some] using ordered
  handed pid := (inv.boxes pid).handed
  entered pid := (sublist_append_left _ _).trans (inv.told pid)

/-- What an operation may do with the notes of a process. -/
structure Dealing (w : Noting) (a : NoteAct) (pid : Pid) (p p' : Proc) : Prop where
  /-- A note is handed over while no handler runs, and then one does. -/
  enters : (w.step a).handed pid ≠ w.handed pid → p.notified = false ∧ p'.notified = true
  /-- It runs until `noted` or `exec`. -/
  running : p.notified = true →
    p'.notified = true ∨ (∃ how waits, a = .noted pid how waits) ∨ a = .exec pid
  /-- Notes stay queued, or the first is handed over, or they go by `exec`, by a read, or by a
  note that is not a user's where there is no handler or one runs. -/
  leaves : p.note <+: p'.note ∨
    (∃ n, p.note = n :: p'.note ∧ (w.step a).handed pid = w.handed pid ++ [n]) ∨
    a = .exec pid ∨ (∃ count, a = .readnote pid count) ∨
    ∃ msg flag, a = .post pid msg flag ∧ flag ≠ .nuser ∧ (p.notify = 0 ∨ p.notified = true)
  /-- A note that is refused finds the queue full. -/
  refused : ∀ msg flag, a = .post pid msg flag → (w.postnote pid msg flag).1 = false →
    p.note.length = nnote ∧ p'.note = p.note

/-- A process leaves the table with its notes once it has ended. -/
def Ended (w : Noting) (a : NoteAct) (pid : Pid) (p : Proc) : Prop :=
  (w.step a).procs.tab pid = none → p.status.isSome

theorem ended_step (inv : w.Inv) (called : w.Called a) {p : Proc}
    (found : w.procs.tab pid = some p) : w.Ended a pid p := by
  intro none
  have after : w.After pid a (w.step a) := after_step inv.known called
  rcases after.dealt with ⟨posted, handed, dealt, -, -⟩
  have gone := box_none.mpr none
  have here := box_eq found
  generalize (w.step a).procs.box pid = b at dealt gone
  cases dealt with
  | same => exact absurd (gone.symm.trans here) (by simp)
  | gone there ended =>
      rw [some_inj.mp (found.symm.trans there)]
      exact ended
  | _ => exact absurd gone (by simp)

theorem posted_box {p p' : Proc} {msg : String} {flag : NoteFlag}
    (found : w.procs.tab pid = some p)
    (found' : (w.step (.post pid msg flag)).procs.tab pid = some p') :
    ⟨p'.note, p'.notified, p'.notify⟩ = Box.add msg flag ⟨p.note, p.notified, p.notify⟩ := by
  have box : (w.step (.post pid msg flag)).procs.box pid = _ :=
    congrFun (Procs.box_postnote msg flag) pid
  rw [box_eq found', Function.update_self, box_eq found, map_some,
    some_inj] at box
  exact box

theorem refused_step (inv : w.Inv) {p p' : Proc} {msg : String} {flag : NoteFlag}
    (found : w.procs.tab pid = some p)
    (found' : (w.step (.post pid msg flag)).procs.tab pid = some p')
    (refused : (w.postnote pid msg flag).1 = false) :
    p.note.length = nnote ∧ p'.note = p.note := by
  have short : p.note.length ≤ nnote := inv.short (box_eq found)
  have added := posted_box found found'
  simp only [Box.add, Box.left, Box.mk.injEq] at added
  rcases added with ⟨note, -, -⟩
  simp only [postnote, Procs.posted_eq found, Box.left] at refused
  by_cases flushed : Box.Flushes flag ⟨p.note, p.notified, p.notify⟩
  · simp [flushed, nnote] at refused
  · rw [if_neg flushed, decide_eq_false_iff_not, not_lt] at refused
    rw [if_neg flushed, if_neg (not_lt.mpr refused)] at note
    exact ⟨le_antisymm short refused, note⟩

theorem Dealing.of_step (inv : w.Inv) {p p' : Proc} (found : w.procs.tab pid = some p)
    (found' : (w.step a).procs.tab pid = some p')
    (enters : (w.step a).handed pid ≠ w.handed pid → p.notified = false ∧ p'.notified = true)
    (running : p.notified = true →
      p'.notified = true ∨ (∃ how waits, a = .noted pid how waits) ∨ a = .exec pid)
    (leaves : p.note <+: p'.note ∨
      (∃ n, p.note = n :: p'.note ∧ (w.step a).handed pid = w.handed pid ++ [n]) ∨
      a = .exec pid ∨ (∃ count, a = .readnote pid count) ∨
      ∃ msg flag, a = .post pid msg flag ∧ flag ≠ .nuser ∧ (p.notify = 0 ∨ p.notified = true)) :
    w.Dealing a pid p p' := by
  refine ⟨enters, running, leaves, ?_⟩
  rintro msg flag rfl
  exact refused_step inv found found'

theorem dealing_step (inv : w.Inv) (called : w.Called a) {p p' : Proc}
    (found : w.procs.tab pid = some p) (found' : (w.step a).procs.tab pid = some p') :
    w.Dealing a pid p p' := by
  have after : w.After pid a (w.step a) := after_step inv.known called
  rcases after.dealt with
    ⟨posted, handed, dealt, -, hands⟩
  have here := box_eq found
  have here' := box_eq found'
  have idle (none : handed = []) : (w.step a).handed pid ≠ w.handed pid →
      p.notified = false ∧ p'.notified = true := by
    intro more
    rw [hands, none, append_nil] at more
    exact absurd rfl more
  generalize (w.step a).procs.box pid = b at dealt here'
  cases dealt with
  | same =>
      simp only [here, Option.some.injEq, Box.mk.injEq] at here'
      rcases here' with ⟨note, notified, -⟩
      apply Dealing.of_step inv found found' (idle rfl)
      · intro now
        exact .inl (by rw [← notified, now])
      · exact .inl (by rw [note])
  | gone => cases here'
  | born fresh => exact absurd (found.symm.trans fresh) (by simp)
  | @posted msg flag b there =>
      have added := posted_box found found'
      simp only [Box.add, Box.left, Box.mk.injEq] at added
      rcases added with ⟨note, notified, -⟩
      apply Dealing.of_step inv found found' (idle rfl)
      · intro now
        exact .inl (by rw [notified, now])
      · by_cases flushed : Box.Flushes flag ⟨p.note, p.notified, p.notify⟩
        · exact .inr (.inr (.inr (.inr ⟨msg, flag, rfl, flushed.1, flushed.2⟩)))
        · left
          rw [note, if_neg flushed]
          split_ifs
          · exact prefix_append _ _
          · exact prefix_rfl
  | handed handles there =>
      simp only [here, Option.some.injEq, Box.mk.injEq] at there here'
      rcases there with ⟨note, notified, -⟩
      rcases here' with ⟨note', notified', -⟩
      apply Dealing.of_step inv found found'
      · exact fun _ => ⟨notified, notified'.symm⟩
      · exact fun _ => .inl notified'.symm
      · exact .inr (.inl ⟨_, by rw [note, note'], hands⟩)
  | @sysnotify f b there =>
      simp only [here, Option.some.injEq] at there
      simp only [← there, Option.some.injEq, Box.mk.injEq] at here'
      rcases here' with ⟨note, notified, -⟩
      apply Dealing.of_step inv found found' (idle rfl)
      · intro now
        exact .inl (by rw [← notified, now])
      · exact .inl (by rw [note])
  | @noted how waits b there =>
      simp only [here, Option.some.injEq] at there
      simp only [← there, Option.some.injEq, Box.mk.injEq] at here'
      apply Dealing.of_step inv found found' (idle rfl)
      · exact fun _ => .inr (.inl ⟨how, waits, rfl⟩)
      · exact .inl (by rw [here'.1])
  | exec there =>
      apply Dealing.of_step inv found found' (idle rfl)
      · exact fun _ => .inr (.inr rfl)
      · exact .inr (.inr (.inl rfl))
  | @read count n rest b there first =>
      simp only [here, Option.some.injEq] at there
      simp only [← there, Option.some.injEq, Box.mk.injEq] at here'
      apply Dealing.of_step inv found found' (idle rfl)
      · intro now
        exact .inl (by rw [← here'.2.1, now])
      · exact .inr (.inr (.inr (.inl ⟨count, rfl⟩)))

/-- The first note is not a user's, and there is no handler or it runs. -/
def Doomed (w : Noting) (pid : Pid) (n : Note) : Prop :=
  ∃ b rest, w.procs.box pid = some b ∧ b.note = n :: rest ∧ n.flag ≠ .nuser ∧
    (b.notified = true ∨ b.notify = 0)

/-- The operation is the process's own `noted`, `exec` or `notify`, a read of its note file, or a
note to it that is not a user's. -/
def Stirs (pid : Pid) : NoteAct → Prop
  | .noted q _ _ | .exec q | .sysnotify q _ | .readnote q _ => q = pid
  | .post q _ flag => q = pid ∧ flag ≠ .nuser
  | _ => False

/-- The status the process is left with is of that message. -/
def Records (w w' : Noting) (pid : Pid) (msg : String) : Prop :=
  ∃ p p', w.procs.tab pid = some p ∧ w'.procs.tab pid = some p' ∧
    p'.status = (p.ended 0 msg).status

/-- The process has ended with that message, or is in its `pexit` with it. -/
def Ends (w w' : Noting) (pid : Pid) (msg : String) : Prop :=
  (∃ freemem, w'.ending pid = some (msg, freemem)) ∨ w.Records w' pid msg

/-- What a note that is to end its process comes to. -/
structure Fatal (w : Noting) : Prop where
  /-- `notify_` ends the process with it, unless a control message comes first. -/
  ends : ∀ pid n place waits, w.Doomed pid n → w.procs.state pid ≠ .moribund →
    w.procs.state pid ≠ .dead → (w.control pid place waits).1 = none →
    (w.notify_ pid place waits).1 = .pexit ∧ w.Ends (w.notify_ pid place waits).2 pid n.msg
  /-- Until then it stays the first. -/
  lasts : ∀ a pid n, w.Called a → w.Doomed pid n → ¬Stirs pid a →
    (w.step a).Doomed pid n ∨ (w.step a).procs.tab pid = none
  /-- One that comes later takes its place. -/
  replaced : ∀ pid n msg flag, w.Doomed pid n → flag ≠ .nuser →
    (w.step (.post pid msg flag)).Doomed pid (Note.cut msg flag)
  /-- A `pexit` that waits for a close ends with the message it began with. -/
  closes : ∀ a pid msg freemem, w.Called a → w.ending pid = some (msg, freemem) →
    (w.step a).ending pid = some (msg, freemem) ∨
      a = .closed pid ∧ (w.Records (w.step a) pid msg ∨ w.procs.tab pid = none)

theorem records_pexit {p : Proc} (found : w.procs.tab pid = some p) (status : String)
    (freemem : Bool) (same : w'.procs = w.procs.pexit pid status freemem) :
    w.Records w' pid status := by
  have exits := Procs.ledger_exits status found
  have own : w'.procs.ledger.own pid = some (p.ended w.procs.m.ticks status).own := by
    rw [same, Procs.pexit]
    split_ifs
    · rw [exits]
      simp [Ledger.edit, own_eq found]
    · rw [Procs.ledger_addbroken]
      simp only [exits]
      simp [Ledger.edit, own_eq found]
  rcases Procs.tab_of_own own with ⟨p', found', mine⟩
  exact ⟨p, p', found, found', congrArg Own.status mine⟩

theorem ends_pexit {p : Proc} (found : w.procs.tab pid = some p) (status : String)
    (freemem waits : Bool) : w.Ends (w.pexit pid status freemem waits) pid status := by
  simp only [pexit]
  split_ifs
  · exact .inl ⟨freemem, by simp⟩
  · exact .inr (records_pexit found status freemem rfl)

theorem Doomed.decide {n : Note} {p : Proc} (doomed : w.Doomed pid n)
    (found : w.procs.tab pid = some p) (place : NoteAt) (waits : Bool) :
    w.decide pid p place waits = (.pexit, w.pexit pid n.msg (n.flag != .ndebug) waits) := by
  rcases doomed with ⟨b, rest, here, first, grave, unhandled⟩
  rw [box_eq found, some_inj] at here
  subst here
  simp only at first unhandled
  simp only [Noting.decide, first, grave, unhandled, ne_eq, not_false_eq_true, and_self, if_true]

theorem Doomed.ends {n : Note} (doomed : w.Doomed pid n) (place : NoteAt) (waits : Bool)
    (moribund : w.procs.state pid ≠ .moribund) (dead : w.procs.state pid ≠ .dead)
    (unasked : (w.control pid place waits).1 = none) :
    (w.notify_ pid place waits).1 = .pexit ∧ w.Ends (w.notify_ pid place waits).2 pid n.msg := by
  rcases doomed with ⟨b, rest, here, whole⟩
  rcases tab_of_box here with ⟨p, found, -⟩
  simp only [Procs.state, found] at moribund dead
  have decided : w.notify_ pid place waits =
      (.pexit, w.pexit pid n.msg (n.flag != .ndebug) waits) := by
    rcases control_cases (w := w) pid place waits with none | ⟨m, w', some, -⟩
    · simp only [notify_, found, moribund, dead, or_self, if_false, none]
      exact Doomed.decide ⟨b, rest, here, whole⟩ found place waits
    · simp [some] at unasked
  rw [decided]
  exact ⟨rfl, ends_pexit found _ _ _⟩

theorem Doomed.lasts {n : Note} (inv : w.Inv) (called : w.Called a) (doomed : w.Doomed pid n)
    (calm : ¬Stirs pid a) : (w.step a).Doomed pid n ∨ (w.step a).procs.tab pid = none := by
  rcases doomed with ⟨b, rest, here, first, grave, unhandled⟩
  have after : w.After pid a (w.step a) := after_step inv.known called
  rcases after.dealt with ⟨posted, handed, dealt, -, -⟩
  rw [← box_none]
  generalize after : (w.step a).procs.box pid = b' at dealt
  cases dealt with
  | same => exact .inl ⟨b, rest, after.trans here, first, grave, unhandled⟩
  | gone => exact .inr rfl
  | born fresh =>
      rcases tab_of_box here with ⟨p, found, -⟩
      exact absurd (found.symm.trans fresh) (by simp)
  | @posted msg flag c there =>
      rw [here, some_inj] at there
      subst there
      have user : flag = .nuser := by
        by_contra other
        exact calm ⟨rfl, other⟩
      left
      refine ⟨_, rest ++ if b.note.length < nnote then [Note.cut msg flag] else [], after,
          ?_, grave,
        unhandled⟩
      have kept : b.left flag = b.note := by simp [Box.left, Box.Flushes, user]
      simp only [Box.add, kept]
      split_ifs <;> simp [first]
  | handed handles there =>
      rw [here, some_inj] at there
      subst there
      rcases unhandled with running | none
      · cases running
      · exact absurd none handles
  | sysnotify | noted | exec | read => exact absurd rfl calm

theorem Doomed.replaced {n : Note} {msg : String} {flag : NoteFlag} (doomed : w.Doomed pid n)
    (grave : flag ≠ .nuser) : (w.step (.post pid msg flag)).Doomed pid (Note.cut msg flag) := by
  rcases doomed with ⟨b, rest, here, -, -, unhandled⟩
  have box : (w.step (.post pid msg flag)).procs.box pid = _ :=
    congrFun (Procs.box_postnote msg flag) pid
  rw [Function.update_self, here, map_some] at box
  refine ⟨_, [], box, ?_, grave, unhandled⟩
  have flushed : b.Flushes flag := ⟨grave, unhandled.symm⟩
  simp [Box.add, Box.left, flushed, nnote]

theorem ending_pexit (differs : pid ≠ q) (status : String) (freemem waits : Bool) :
    (w.pexit q status freemem waits).ending pid = w.ending pid := by
  rw [pexit]
  split_ifs
  · simp [differs]
  · rfl

theorem ending_notify (differs : pid ≠ q) (place : NoteAt) (waits : Bool) :
    (w.notify_ q place waits).2.ending pid = w.ending pid := by
  have decided (p : Proc) : (w.decide q p place waits).2.ending pid = w.ending pid := by
    simp only [Noting.decide]
    repeat' split
    all_goals first | rfl | exact ending_pexit differs _ _ _
  have controlled : (w.control q place waits).2.ending pid = w.ending pid := by
    simp only [control, procctl]
    repeat' split
    all_goals first | rfl | exact ending_pexit differs _ _ _
  rw [notify_]
  split
  · rfl
  next p found =>
    split_ifs
    · rfl
    · rcases control_cases (w := w) q place waits with none | ⟨n, w', some, -⟩
      · rw [none]
        exact decided p
      · rw [some] at controlled ⊢
        exact controlled

theorem closes_step {msg : String} {freemem : Bool} (called : w.Called a)
    (ends : w.ending pid = some (msg, freemem)) :
    (w.step a).ending pid = some (msg, freemem) ∨
      a = .closed pid ∧ (w.Records (w.step a) pid msg ∨ w.procs.tab pid = none) := by
  have other (q : Pid) (idle : w.ending q = none) : pid ≠ q := by
    rintro rfl
    rw [ends] at idle
    cases idle
  cases a with
  | table | kproc | post | sysnotify | exec => exact .inl ends
  | rfork q flags =>
      left
      simp only [step, rfork]
      split <;> exact ends
  | noted q how waits =>
      left
      simp only [step, noted]
      split_ifs
      all_goals first | exact ends | exact (ending_pexit (other q called) _ _ _).trans ends
  | readnote q count =>
      left
      simp only [step, readnote]
      repeat' split
      all_goals exact ends
  | notify q place waits =>
      left
      rcases called with rfl | idle
      · exact ends
      · cases place with
        | syscall => exact ends
        | clock => exact (ending_notify (other q idle) .clock waits).trans ends
        | fault => exact (ending_notify (other q idle) .fault waits).trans ends
  | callend q rfork waits =>
      left
      have kept := (ending_notify (w := w) (other q called) .syscall waits).trans ends
      simp only [step, callend]
      split_ifs <;> first | exact ends | exact kept
  | pexit q status freemem waits => exact .inl ((ending_pexit (other q called) _ _ _).trans ends)
  | closed q =>
      rcases eq_or_ne pid q with rfl | differs
      · right
        refine ⟨rfl, ?_⟩
        rcases found : w.procs.tab pid with _ | p
        · exact .inr rfl
        · apply Or.inl
          apply records_pexit found msg freemem
          simp [step, closed, ends]
      · left
        simp only [step, closed]
        split
        · simp [differs, ends]
        · exact ends

theorem Inv.fatal (inv : w.Inv) : w.Fatal where
  ends _ _ place waits doomed := doomed.ends place waits
  lasts _ _ _ called doomed := doomed.lasts inv called
  replaced _ _ _ _ doomed := doomed.replaced
  closes _ _ _ _ := closes_step

theorem reach_step (a : NoteAct) (reached : noting.Reach Called w) (called : w.Called a) :
    noting.Reach Called (w.step a) :=
  .step reached called rfl

def calling : Noting := (new.step (.sysnotify 1 42)).step (.post 1 "one" .nuser)

theorem reach_calling : noting.Reach Called calling :=
  reach_step _ (reach_step _ (.init rfl) trivial) trivial

end Noting

end Ipnx
