import Ipnx.Proc.Delivery

/-!
# A note pending and no note

A sleep fails when a note is pending for the process that sleeps. `postnote` says that one is,
and leaves one queued; the handler's taking of the first note and `exec` say that none is. A read
of `/proc/n/note` takes a note and says nothing, so that the last one may go and leave its
process to be interrupted for it.
-/

namespace Ipnx

def Ledger.Each (P : Own → Prop) (l : Ledger) : Prop := ∀ pid o, l.own pid = some o → P o

/-- A note is pending only while one is queued. -/
def Own.Backed (o : Own) : Prop := o.notepending = true → o.note ≠ []

namespace Ledger

variable {P : Own → Prop} {l : Ledger} {pid : Pid}

theorem Each.edit {g : Own → Own} (each : l.Each P) (keeps : ∀ o, P o → P (g o)) :
    (l.edit pid g).Each P := by
  intro q o here
  simp only [Ledger.edit] at here
  rcases eq_or_ne q pid with rfl | differs
  · rw [Function.update_self] at here
    rcases Option.map_eq_some_iff.mp here with ⟨before, was, rfl⟩
    exact keeps before (each q before was)
  · rw [Function.update_of_ne differs] at here
    exact each q o here

theorem Each.update {own : Own} {next : Pid} (each : l.Each P) (fresh : P own) :
    ({ l with own := Function.update l.own pid (some own), next := next } : Ledger).Each P := by
  intro q o here
  simp only at here
  rcases eq_or_ne q pid with rfl | differs
  · rw [Function.update_self, Option.some.injEq] at here
    exact here ▸ fresh
  · rw [Function.update_of_ne differs] at here
    exact each q o here

theorem Each.remove (each : l.Each P) :
    ({ l with own := Function.update l.own pid none } : Ledger).Each P := by
  intro q o here
  simp only at here
  rcases eq_or_ne q pid with rfl | differs
  · simp at here
  · rw [Function.update_of_ne differs] at here
    exact each q o here

end Ledger

theorem Own.backed_addnote (msg : String) (flag : NoteFlag) (o : Own) :
    (Own.addnote msg flag o).Backed := by
  intro _
  simp only [Own.addnote]
  generalize (if flag ≠ .nuser ∧ (o.notify = 0 ∨ o.notified) then [] else o.note) = queue
  split_ifs with room
  · exact List.append_ne_nil_of_right_ne_nil queue (by simp)
  · rintro rfl
    simp [nnote] at room

namespace Procs

variable {s s' : Procs} {pid : Pid}

/-- No process has a note pending and none queued. -/
def Backed (s : Procs) : Prop := s.ledger.Each Own.Backed

theorem backed_iff :
    s.Backed ↔ ∀ pid p, s.tab pid = some p → p.notepending = true → p.note ≠ [] := by
  constructor
  · intro backed pid p found
    exact backed pid p.own (own_eq found)
  · intro all pid o here
    rcases tab_of_own here with ⟨p, found, rfl⟩
    exact all pid p found

theorem Backed.modify {f : Proc → Proc} (backed : s.Backed)
    (keeps : ∀ p, p.own.Backed → (f p).own.Backed) : (s.modify pid f).Backed := by
  rw [backed_iff] at backed ⊢
  intro q p here
  rcases eq_or_ne q pid with rfl | differs
  · rw [modify_tab_self] at here
    rcases Option.map_eq_some_iff.mp here with ⟨before, was, rfl⟩
    exact keeps before (backed q before was)
  · rw [modify_tab_of_ne s pid f differs] at here
    exact backed q p here

theorem Backed.of_own (backed : s.Backed) (same : s'.ledger.own = s.ledger.own) : s'.Backed := by
  intro q o here
  rw [same] at here
  exact backed q o here

theorem Backed.postnote (backed : s.Backed) (msg : String) (flag : NoteFlag) :
    (s.postnote pid msg flag).2.Backed := by
  rcases found : s.tab pid with _ | p
  · rw [ledger_postnote_none msg flag found]
    exact backed
  · have noted : (s.ledger.edit pid (Own.addnote msg flag)).Each Own.Backed :=
      Ledger.Each.edit backed fun o _ => Own.backed_addnote msg flag o
    rw [Backed, ledger_postnote msg flag found]
    split_ifs
    · exact noted.edit fun _ => id
    · exact noted

theorem Backed.pexit (backed : s.Backed) (status : String) (freemem : Bool) :
    (s.pexit pid status freemem).Backed := by
  have exits : (s.exits pid status).Backed := by
    rcases found : s.tab pid with _ | p
    · simp only [Procs.exits, found]
      exact backed
    · rw [Backed, ledger_exits status found]
      exact Ledger.Each.edit backed fun _ _ => backed pid p.own (own_eq found)
  rw [Procs.pexit]
  split_ifs
  · exact exits
  · apply exits.of_own
    rw [ledger_addbroken]

theorem Backed.rendezvous (backed : s.Backed) (tag val : Nat) :
    (s.rendezvous pid tag val).Backed := by
  rcases found : s.tab pid with _ | p
  · simp only [Procs.rendezvous, found]
    exact backed
  · have reset : (s.modify pid fun p => { p with rendval := 2 ^ 64 - 1 }).Backed :=
      backed.modify fun _ => id
    rcases rendezvous_cases tag val found with ⟨q, -, same⟩ | ⟨-, same⟩
    · rw [same, Backed, ledger_meet]
      exact Ledger.Each.edit reset fun _ => id
    · rw [same, Backed, ledger_gather]
      exact Ledger.Each.edit reset fun _ => id

theorem Backed.sysrfork {flags : Nat} {made : Option Pid} (backed : s.Backed)
    (forked : s.sysrfork pid flags = .ok (made, s')) : s'.Backed := by
  rcases ledger_sysrfork forked with ⟨parent, -, ⟨-, born⟩ | ⟨-, changed⟩⟩
  · rw [Backed, born]
    exact Ledger.Each.update backed (by rintro ⟨⟩)
  · rw [Backed, changed]
    apply Ledger.Each.edit backed
    intro o was
    split_ifs
    · exact was
    · exact was

theorem Backed.kproc (backed : s.Backed) (up : Pid) (name user : String) :
    (s.kproc up name user).2.Backed := by
  rw [Backed, ledger_kproc]
  exact Ledger.Each.update backed (by rintro ⟨⟩)

theorem Backed.stop (backed : s.Backed) : (s.stop pid).Backed :=
  backed.of_own (congrArg Ledger.own ledger_stop)

end Procs

namespace Noting

variable {w w' : Noting} {a : NoteAct} {pid : Pid}

/-- What is promised besides: no other call says that a note is pending. -/
def Hushed : NoteAct → Prop
  | .table (.edit _ f) => ∀ p, (f p).notepending = true → p.notepending = true
  | _ => True

/-- The note file is read of the one note of a process that has it pending. -/
def Strands (w : Noting) : NoteAct → Prop
  | .readnote pid count =>
      1 ≤ count ∧ ∃ p, w.procs.tab pid = some p ∧ p.notepending = true ∧ p.note.length = 1
  | _ => False

theorem backed_table {a : Act} (backed : w.procs.Backed) (apart : Apart a)
    (hushed : Hushed (.table a)) : (w.procs.step a).Backed := by
  by_cases calm : Procs.Calm a
  · rcases Procs.ledger_calm (s := w.procs) calm with ⟨ticks, same⟩
    apply backed.of_own
    rw [same]
  · cases a with
    | postnote | pgrpnote | rfork | kproc | exits | addbroken => exact absurd apart id
    | unbreak pid =>
        apply backed.of_own
        rw [Procs.step, Procs.ledger_unbreak]
    | awaitChild order pid =>
        rcases Procs.ledger_awaitChild (s := w.procs) order pid with ⟨c, p, -, -, same⟩ | same
        · simp only [Procs.step, Procs.Backed, same]
          exact Ledger.Each.remove backed
        · simp only [Procs.step, same]
          exact backed
    | rendezvous pid tag val => exact backed.rendezvous tag val
    | edit pid f =>
        apply backed.modify
        intro p was pending
        rw [show (f p).own.note = p.note from (apart p).1]
        exact was (hushed p pending)
    | _ => exact absurd trivial calm

section Backed

variable (backed : w.procs.Backed)

include backed

theorem backed_pexit (status : String) (freemem waits : Bool) :
    (w.pexit pid status freemem waits).procs.Backed := by
  rw [pexit]
  split_ifs
  · exact backed
  · exact backed.pexit status freemem

theorem backed_closed : (w.closed pid).procs.Backed := by
  rw [closed]
  split
  · exact backed.pexit _ _
  · exact backed

theorem backed_procctl (waits : Bool) : (w.procctl pid waits).2.procs.Backed := by
  rw [procctl]
  split
  · exact backed
  · split
    · apply backed_pexit
      exact backed.modify fun _ => id
    · split_ifs
      · exact backed
      · exact backed.stop
    · exact backed.stop
    · exact backed
    · exact backed

theorem backed_control (place : NoteAt) (waits : Bool) :
    (w.control pid place waits).2.procs.Backed := by
  rw [control]
  split_ifs
  · exact backed
  · exact backed_procctl backed waits

theorem backed_hand (n : Note) : (w.hand pid n).procs.Backed :=
  backed.modify fun _ _ => by rintro ⟨⟩

theorem backed_decide (p : Proc) (place : NoteAt) (waits : Bool) :
    (w.decide pid p place waits).2.procs.Backed := by
  rw [Noting.decide]
  split
  · exact backed
  case h_2 n rest _ =>
    have dies : (w.pexit pid n.msg (n.flag != .ndebug) waits).procs.Backed :=
      backed_pexit backed _ _ _
    simp only
    split_ifs
    · exact dies
    · exact backed
    · exact dies
    · cases place with
      | syscall => exact backed_hand backed n
      | clock => exact backed
      | fault => exact dies

theorem backed_notify (place : NoteAt) (waits : Bool) :
    (w.notify_ pid place waits).2.procs.Backed := by
  have controlled : (w.control pid place waits).2.procs.Backed := backed_control backed place waits
  rw [notify_]
  split
  · exact backed
  · split_ifs
    · exact backed
    · split
      case h_1 same =>
        rw [same] at controlled
        exact controlled
      case h_2 same =>
        rw [same] at controlled
        exact backed_decide controlled _ place waits

theorem backed_callend (rfork waits : Bool) : (w.callend pid rfork waits).procs.Backed := by
  rw [callend]
  cases rfork with
  | true => exact backed
  | false =>
      have notified : (w.notify_ pid .syscall waits).2.procs.Backed :=
        backed_notify backed .syscall waits
      simp only [Bool.false_eq_true, if_false]
      split_ifs
      · exact notified
      · exact notified

theorem backed_noted (how : Int) (waits : Bool) : (w.noted pid how waits).2.procs.Backed := by
  have back : (w.procs.modify pid fun p => { p with notified := false }).Backed :=
    backed.modify fun _ => id
  rw [noted]
  split_ifs
  · exact backed_pexit backed _ _ _
  · exact back
  · exact backed_pexit back _ _ _
  · exact backed_pexit back _ _ _

theorem backed_readnote (count : Nat) :
    (w.readnote pid count).2.procs.Backed ↔ ¬w.Strands (.readnote pid count) := by
  simp only [readnote, Strands]
  split_ifs with short
  · exact iff_of_true backed fun strands => by omega
  · rcases found : w.procs.tab pid with _ | p
    · exact iff_of_true backed (by simp)
    · rcases queue : p.note with _ | ⟨n, rest⟩
      · exact iff_of_true (by simpa only [queue] using backed) (by simp [queue])
      · simp only [queue]
        constructor
        · rintro left ⟨-, q, same, pending, one⟩
          rw [Option.some.injEq] at same
          subst same
          rw [queue, List.length_cons] at one
          have gone : rest = [] := List.eq_nil_of_length_eq_zero (by omega)
          rw [Procs.backed_iff] at left
          exact left pid { p with note := rest } (by simp [found]) pending gone
        · intro spared
          rw [Procs.backed_iff] at backed ⊢
          intro q p' here pending
          rcases eq_or_ne q pid with rfl | differs
          · simp only [Procs.modify_tab_self, found, Option.map_some, Option.some.injEq] at here
            subst here
            rintro rfl
            exact spared ⟨by omega, p, rfl, pending, by rw [queue]; rfl⟩
          · rw [Procs.modify_tab_of_ne _ _ _ differs] at here
            exact backed q p' here pending

theorem backed_step (called : w.Called a) (hushed : Hushed a) :
    (w.step a).procs.Backed ↔ ¬w.Strands a := by
  cases a with
  | readnote pid count => exact backed_readnote backed count
  | table a => exact iff_of_true (backed_table backed called hushed) id
  | rfork pid flags =>
      refine iff_of_true ?_ id
      rw [step, rfork]
      rcases forked : w.procs.sysrfork pid flags with _ | ⟨_ | c, procs⟩
      · exact backed
      · exact backed.sysrfork forked
      · exact backed.sysrfork forked
  | kproc up name user => exact iff_of_true (backed.kproc up name user) id
  | post pid msg flag => exact iff_of_true (backed.postnote msg flag) id
  | sysnotify pid f => exact iff_of_true (backed.modify fun _ => id) id
  | noted pid how waits => exact iff_of_true (backed_noted backed how waits) id
  | exec pid => exact iff_of_true (backed.modify fun _ _ => by rintro ⟨⟩) id
  | notify pid place waits =>
      refine iff_of_true ?_ id
      cases place with
      | syscall => exact backed
      | clock => exact backed_notify backed .clock waits
      | fault => exact backed_notify backed .fault waits
  | callend pid rfork waits => exact iff_of_true (backed_callend backed rfork waits) id
  | pexit pid status freemem waits => exact iff_of_true (backed_pexit backed _ _ _) id
  | closed pid => exact iff_of_true (backed_closed backed) id

end Backed

theorem backed_of_reach
    (reached : noting.Reach (fun w a => w.Called a ∧ Hushed a ∧ ¬w.Strands a) w) :
    w.procs.Backed := by
  apply reached.invariant fun w => w.procs.Backed
  · rintro _ rfl
    rw [Procs.backed_iff]
    intro pid p found pending
    simp only [new, Procs.new] at found
    split_ifs at found
    cases found
    cases pending
  · rintro w a _ backed ⟨called, hushed, spared⟩ rfl
    exact (backed_step backed called hushed).mpr spared

/-- Where the note file is never read of the one note its process has pending, a process with a
note pending has one queued, and a sleep is interrupted only for a note there is to take. -/
theorem eintr_noted
    (reached : noting.Reach (fun w a => w.Called a ∧ Hushed a ∧ ¬w.Strands a) w) (pid : Pid) :
    (∀ p, w.procs.tab pid = some p → p.notepending = true → p.note ≠ []) ∧
      ((w.procs.interrupted pid).1 = true →
        ∃ p n rest, w.procs.tab pid = some p ∧ p.note = n :: rest) := by
  have backed := Procs.backed_iff.mp (backed_of_reach reached) pid
  refine ⟨backed, ?_⟩
  intro interrupted
  rcases (Option.any_eq_true _ _).mp interrupted with ⟨p, found, pending⟩
  rcases queue : p.note with _ | ⟨n, rest⟩
  · exact absurd queue (backed p found pending)
  · exact ⟨p, n, rest, found, queue⟩

theorem reach_next {ok : Noting → NoteAct → Prop} (a : NoteAct) (reached : noting.Reach ok w)
    (allowed : ok w a) : noting.Reach ok (w.step a) :=
  .step reached allowed rfl

/-- A process is told of two notes, and one of them is read out. -/
theorem eintr_noted_two :
    ((((new.step (.post 1 "one" .nuser)).step (.post 1 "two" .nuser)).step
      (.readnote 1 100)).procs.interrupted 1).1 = true ∧
    ∃ p n rest, (((new.step (.post 1 "one" .nuser)).step (.post 1 "two" .nuser)).step
      (.readnote 1 100)).procs.tab 1 = some p ∧ p.note = n :: rest := by
  have interrupted : ((((new.step (.post 1 "one" .nuser)).step (.post 1 "two" .nuser)).step
      (.readnote 1 100)).procs.interrupted 1).1 = true := by decide
  refine ⟨interrupted, (eintr_noted ?_ 1).2 interrupted⟩
  have first := reach_next (.post 1 "one" .nuser)
    (.init rfl : noting.Reach (fun w a => w.Called a ∧ Hushed a ∧ ¬w.Strands a) new)
    ⟨trivial, trivial, id⟩
  have second := reach_next (.post 1 "two" .nuser) first ⟨trivial, trivial, id⟩
  apply reach_next (.readnote 1 100) second
  refine ⟨trivial, trivial, ?_⟩
  rintro ⟨-, p, found, -, one⟩
  cases found
  cases one

/-- A process that waits is posted a note, and another reads it out of the note file: the wait
ends in an interruption that nothing explains. -/
theorem eintr_noted_fails : ¬∀ w, noting.Reach (fun w a => w.Called a ∧ Hushed a) w → ∀ pid,
    (∀ p, w.procs.tab pid = some p → p.notepending = true → p.note ≠ []) ∧
      ((w.procs.interrupted pid).1 = true →
        ∃ p n rest, w.procs.tab pid = some p ∧ p.note = n :: rest) := by
  intro always
  have posted := reach_next (.post 1 "one" .nuser)
    (.init rfl : noting.Reach (fun w a => w.Called a ∧ Hushed a) new) ⟨trivial, trivial⟩
  have read := reach_next (.readnote 1 100) posted ⟨trivial, trivial⟩
  exact (always _ read 1).1 _ rfl rfl rfl

end Noting

end Ipnx
