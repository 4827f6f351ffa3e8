import Ipnx.Pipe.Ends

/-!
# The pipes over whole runs

Every pipe of the device is sound for the channels open on its ends, whatever is attached, walked,
opened, read, written and closed. From that: the counts of opens, what the readers and the writers
of an end get once the other has gone, who sleeps on a queue that was hung up, and the queues of a
pipe whose ends are both closed.
-/

namespace Ipnx

open List
open End
open Function (update update_eq_self update_of_ne update_self)

namespace Plumbing

/-- Each pipe is sound, each channel is one of a pipe there is, and the others have no history. -/
structure Kept (s : Plumbing) : Prop where
  inside : ∀ ch, some ch ∈ s.chans → ch.devno < s.dev.pipes.length
  sound : ∀ i p, s.dev.pipes[i]? = some p → Sound (s.opens i) p (s.use i)
  later : ∀ i, s.dev.pipes.length ≤ i → s.use i = .new

variable {s s' : Plumbing} {i c : Nat} {ch : PipeChan} {e : End}

theorem chan_eq_some (there : s.chan c = some ch) : s.chans[c]? = some (some ch) := by
  rw [chan] at there
  cases entry : s.chans[c]? with
  | none =>
      rw [entry] at there
      cases there
  | some found =>
      rw [entry] at there
      exact congrArg some there

theorem Kept.devno_lt (kept : Kept s) (there : s.chan c = some ch) :
    ch.devno < s.dev.pipes.length :=
  kept.inside ch (mem_of_getElem? (chan_eq_some there))

theorem counted_closed {ch : PipeChan} (shut : ch.isOpen = false) (i : Nat) (e : End) :
    counted i e (some ch) = 0 := by
  rw [counted, if_neg]
  rintro ⟨isOpen, _⟩
  rw [shut] at isOpen
  cases isOpen

theorem counted_apart (differs : i ≠ ch.devno) (e : End) : counted i e (some ch) = 0 := by
  rw [counted, if_neg]
  exact fun here => differs here.2.1.symm

theorem tally_chan (there : s.chan c = some ch) (ch' : Option PipeChan) (i : Nat) (e : End) :
    tally (counted i e) (s.chans.set c ch') + counted i e (some ch) =
      s.opens i e + counted i e ch' :=
  tally_set _ (chan_eq_some there) ch'

theorem opens_append {ch : PipeChan} (shut : ch.isOpen = false) (i : Nat) :
    (fun e => tally (counted i e) (s.chans ++ [some ch])) = s.opens i := by
  funext e
  rw [tally_append, tally_cons, tally_nil, counted_closed shut]
  rfl

theorem Kept.start (procs : Procs) : Kept (start procs) where
  inside ch member := by cases member
  sound i p there := by cases there
  later _ _ := rfl

theorem Kept.opens_later (kept : Kept s) (past : s.dev.pipes.length ≤ i) (e : End) :
    s.opens i e = 0 := by
  refine tally_eq_zero _ fun ch member => ?_
  cases ch with
  | none => rfl
  | some ch =>
      have inside := kept.inside ch member
      exact counted_apart (by omega) e

theorem Kept.set (kept : Kept s) {p : Pipe} {u : Use} (lt : i < s.dev.pipes.length)
    (pipes : s'.dev.pipes = s.dev.pipes.set i p) (use : s'.use = update s.use i u)
    (inside : ∀ ch, some ch ∈ s'.chans → ch.devno < s.dev.pipes.length)
    (apart : ∀ j, j ≠ i → s'.opens j = s.opens j) (sound : Sound (s'.opens i) p u) : Kept s' := by
  refine ⟨?_, ?_, ?_⟩
  · intro ch member
    rw [pipes, length_set]
    exact inside ch member
  · intro j p' there
    rw [pipes] at there
    rcases eq_or_ne j i with rfl | differs
    · rw [List.getElem?_set_self lt] at there
      rw [use, update_self]
      exact Option.some.inj there ▸ sound
    · rw [List.getElem?_set_ne differs.symm] at there
      rw [use, update_of_ne differs, apart j differs]
      exact kept.sound j p' there
  · intro j past
    rw [pipes, length_set] at past
    rw [use, update_of_ne (by omega)]
    exact kept.later j past

theorem Kept.chans (kept : Kept s) (dev : s'.dev.pipes = s.dev.pipes) (use : s'.use = s.use)
    (inside : ∀ ch, some ch ∈ s'.chans → ch.devno < s.dev.pipes.length)
    (opens : ∀ i, s'.opens i = s.opens i) : Kept s' where
  inside ch member := dev ▸ inside ch member
  sound i p there := by
    rw [use, opens]
    exact kept.sound i p (dev ▸ there)
  later i past := by
    rw [use]
    exact kept.later i (dev ▸ past)

theorem Kept.attach (kept : Kept s) : Kept (s.step .attach) := by
  have length : (s.step .attach).dev.pipes.length = s.dev.pipes.length + 1 := length_append
  have opens (i : Nat) : (s.step .attach).opens i = s.opens i :=
    opens_append rfl i
  refine ⟨?_, ?_, ?_⟩
  · intro ch member
    rw [length]
    rcases mem_append.1 member with old | new
    · exact Nat.lt_succ_of_lt (kept.inside ch old)
    · have same : ch = s.dev.attach.1 := by simpa using new
      rw [same]
      exact Nat.lt_succ_self _
  · intro i p there
    rw [opens]
    rcases Nat.lt_or_ge i s.dev.pipes.length with lt | past
    · refine kept.sound i p ?_
      rw [← there]
      exact (List.getElem?_append_left lt).symm
    · have none_ : s.opens i = fun _ => 0 := funext (kept.opens_later past)
      have new : (s.step .attach).use i = .new := kept.later i past
      have pipe : (s.dev.pipes ++ [.new])[i]? = some p := there
      rw [List.getElem?_append_right past] at pipe
      have same : p = .new := by
        have member := mem_of_getElem? pipe
        simpa using member
      rw [none_, new, same]
      exact .new
  · intro i past
    rw [length] at past
    exact kept.later i (by omega)

theorem walk_keeps {ch ch' : PipeChan} {name : String}
    (walked : PipeDev.walk ch name = .ok (some ch')) :
    ch'.devno = ch.devno ∧ ch'.isOpen = false := by
  rw [PipeDev.walk] at walked
  split at walked
  · cases walked
  · have found := Except.ok.inj walked
    split_ifs at found <;> cases found <;> exact ⟨rfl, rfl⟩

theorem Kept.walk (kept : Kept s) (c : Nat) (name : String) : Kept (s.step (.walk c name)) := by
  rw [step]
  split
  case h_1 ch' walked =>
    cases found : s.chan c with
    | none =>
        rw [found] at walked
        cases walked
    | some ch =>
        rw [found] at walked
        have same := walk_keeps (Option.some.inj walked)
        refine kept.chans rfl rfl ?_ (opens_append same.2)
        intro ch₁ member
        rcases mem_append.1 member with old | new
        · exact kept.inside ch₁ old
        · have eq : ch₁ = ch' := by simpa using new
          rw [eq, same.1]
          exact kept.devno_lt found
  case h_2 => exact kept

theorem Kept.inside_set (kept : Kept s) (there : s.chan c = some ch) {ch' : Option PipeChan}
    (same : ∀ ch₁, ch' = some ch₁ → ch₁.devno = ch.devno) :
    ∀ ch₁, some ch₁ ∈ s.chans.set c ch' → ch₁.devno < s.dev.pipes.length := by
  intro ch₁ member
  rcases mem_or_eq_of_mem_set member with old | new
  · exact kept.inside ch₁ old
  · rw [same ch₁ new.symm]
    exact kept.devno_lt there

theorem opens_apart (there : s.chan c = some ch) {ch' : Option PipeChan}
    (same : ∀ ch₁, ch' = some ch₁ → ch₁.devno = ch.devno) {j : Nat} (differs : j ≠ ch.devno) :
    (fun e => tally (counted j e) (s.chans.set c ch')) = s.opens j := by
  funext e
  have moved := tally_chan there ch' j e
  have after : counted j e ch' = 0 := by
    cases ch' with
    | none => rfl
    | some ch₁ => exact counted_apart (same ch₁ rfl ▸ differs) e
  rw [counted_apart differs, after] at moved
  exact moved

def Room (s : Plumbing) : PipeAct → Prop
  | .openChan c _ => ∀ ch ∈ s.chan c, ∀ e ∈ ch.path, ∀ p ∈ s.dev.pipes[ch.devno]?,
      p.qref e ≠ 0xffffffff
  | _ => True

instance (s : Plumbing) : DecidablePred (Room s)
  | .openChan c _ => inferInstanceAs (Decidable (∀ ch ∈ s.chan c, ∀ e ∈ ch.path,
      ∀ p ∈ s.dev.pipes[ch.devno]?, p.qref e ≠ 0xffffffff))
  | .attach | .walk _ _ | .close _ | .read _ _ _ | .write _ _ _ _ | .table _ =>
      inferInstanceAs (Decidable True)

theorem openChan_ok {d d' : PipeDev} {ch' : PipeChan} {mode : UInt16}
    (opened : d.openChan ch mode = (.ok ch', d')) :
    (∃ m, ch' = ⟨ch.devno, ch.path, m, true⟩) ∧
      match ch.path with
      | none => d' = d
      | some e => ∃ p, d.pipes[ch.devno]? = some p ∧
          d' = d.setPipe ch.devno (p.setref e (p.qref e + 1)) := by
  rw [PipeDev.openChan] at opened
  cases path : ch.path with
  | none =>
      rw [path] at opened
      dsimp only at opened
      split_ifs at opened
      · cases opened
      · cases opened
        exact ⟨⟨mode, rfl⟩, rfl⟩
  | some e =>
      rw [path] at opened
      dsimp only at opened
      split at opened
      · cases opened
      split at opened
      · cases opened
      · rename_i m _ _ p there
        cases opened
        exact ⟨⟨m, rfl⟩, p, there, rfl⟩

theorem Kept.openChan (kept : Kept s) {mode : UInt16} (room : Room s (.openChan c mode)) :
    Kept (s.step (.openChan c mode)) := by
  rw [step]
  split
  case h_1 => exact kept
  case h_2 ch there =>
    split
    case isTrue => exact kept
    case isFalse shut =>
      have was : ch.isOpen = false := by simpa using shut
      split
      case h_1 => exact kept
      case h_2 ch' d' opened =>
        rcases openChan_ok opened with ⟨⟨m, rfl⟩, dev⟩
        have same (ch₁ : PipeChan) (eq : some ⟨ch.devno, ch.path, m, true⟩ = some ch₁) :
            ch₁.devno = ch.devno := by
          cases eq
          rfl
        have moved (i : Nat) (e : End) :=
          tally_chan there (some ⟨ch.devno, ch.path, m, true⟩) i e
        cases path : ch.path with
        | none =>
            rw [path] at dev same moved
            refine kept.chans (congrArg PipeDev.pipes dev) rfl (kept.inside_set there same)
              fun i => ?_
            funext e
            have after : counted i e (some ⟨ch.devno, none, m, true⟩) = 0 := by simp [counted]
            have now := moved i e
            rw [counted_closed was, after] at now
            exact now
        | some e =>
            rw [path] at dev same moved
            rcases dev with ⟨p, pipe, rfl⟩
            have sound := (kept.sound _ _ pipe).opened (room ch there e path p pipe)
            refine kept.set (kept.devno_lt there) rfl rfl (kept.inside_set there same)
              (fun j differs => opens_apart there same differs) ?_
            have opens : (fun e' => tally (counted ch.devno e')
                (s.chans.set c (some ⟨ch.devno, some e, m, true⟩))) =
                update (s.opens ch.devno) e (s.opens ch.devno e + 1) := by
              funext e'
              have now := moved ch.devno e'
              rw [counted_closed was] at now
              rcases eq_or_ne e' e with rfl | differs
              · rw [update_self]
                simpa [counted] using now
              · rw [update_of_ne differs]
                simpa [counted, differs.symm] using now
            show Sound (fun e' => tally (counted ch.devno e')
              (s.chans.set c (some ⟨ch.devno, some e, m, true⟩))) _ _
            rw [opens]
            exact sound

theorem Kept.closed (kept : Kept s) (there : s.chan c = some ch)
    (uncounted : ∀ i e, counted i e (some ch) = 0) :
    Kept { s with chans := s.chans.set c none } := by
  refine kept.chans rfl rfl (kept.inside_set there (fun _ eq => by cases eq)) fun i => ?_
  funext e
  have moved := tally_chan there none i e
  rw [uncounted i e] at moved
  exact moved

theorem close_pipes {p : Pipe} (d : PipeDev) (isOpen : ch.isOpen = true) (path : ch.path = some e)
    (pipe : d.pipes[ch.devno]? = some p) :
    (d.close ch).pipes = d.pipes.set ch.devno (p.close e) := by
  rw [PipeDev.close, isOpen, path, pipe, Bool.not_true, if_neg Bool.false_ne_true]
  dsimp only
  split
  · rfl
  · rfl

theorem close_dev (d : PipeDev) (none_ : ch.isOpen = false ∨ ch.path = none) :
    d.close ch = d := by
  rw [PipeDev.close]
  rcases none_ with shut | path
  · rw [shut]
    rfl
  · rw [path]
    split <;> rfl

theorem Kept.close (kept : Kept s) (c : Nat) : Kept (s.step (.close c)) := by
  rw [step]
  split
  case h_1 => exact kept
  case h_2 ch there =>
    dsimp only
    split
    case h_1 e isOpen path =>
      have lt := kept.devno_lt there
      have pipe := List.getElem?_eq_some_iff.2 ⟨lt, rfl⟩
      have sound := kept.sound _ _ pipe
      refine kept.set lt (close_pipes s.dev isOpen path pipe) rfl
        (kept.inside_set there (fun _ eq => by cases eq))
        (fun j differs => opens_apart there (fun _ eq => by cases eq) differs) ?_
      have mine : counted ch.devno e (some ch) = 1 := by simp [counted, isOpen, path]
      have some_ : s.opens ch.devno e ≠ 0 := by
        have le := le_tally (counted ch.devno e) (chan_eq_some there)
        rw [mine] at le
        exact Nat.one_le_iff_ne_zero.1 le
      have opens : (fun e' => tally (counted ch.devno e') (s.chans.set c none)) =
          update (s.opens ch.devno) e (s.opens ch.devno e - 1) := by
        funext e'
        have moved := tally_chan there none ch.devno e'
        rcases eq_or_ne e' e with rfl | differs
        · rw [update_self]
          rw [mine] at moved
          have none_ : counted ch.devno e' none = 0 := rfl
          omega
        · rw [update_of_ne differs]
          have other : counted ch.devno e' (some ch) = 0 := by
            simp [counted, path, differs.symm]
          rw [other] at moved
          exact moved
      show Sound (fun e' => tally (counted ch.devno e') (s.chans.set c none)) _ _
      rw [opens, closedUse, pipe]
      dsimp only
      split_ifs with more others
      · exact sound.stays some_ fun last => more ((Sound.last_iff some_ sound).1 last)
      · exact sound.whole some_ ((Sound.last_iff some_ sound).2 (not_not.1 more))
          ((sound.qref_eq_zero_iff e.other).2 others)
      · exact sound.leaves some_ ((Sound.last_iff some_ sound).2 (not_not.1 more))
          fun zero => others ((sound.qref_eq_zero_iff e.other).1 zero)
    case h_2 unmatched =>
      have none_ : ch.isOpen = false ∨ ch.path = none := by
        rcases path : ch.path with _ | e
        · exact Or.inr rfl
        · cases isOpen : ch.isOpen with
          | false => exact Or.inl rfl
          | true => exact absurd path (unmatched e isOpen)
      rw [close_dev s.dev none_]
      refine kept.closed there fun i e => ?_
      rcases none_ with shut | path
      · exact counted_closed shut i e
      · simp [counted, path]

theorem qref_ne_zero (kept : Kept s) {m : UInt16} {p : Pipe}
    (there : s.chan c = some ⟨i, some e, m, true⟩) (pipe : s.dev.pipes[i]? = some p) :
    p.qref e ≠ 0 := by
  intro zero
  have count := (kept.sound i p pipe).count e
  have le := le_tally (counted i e) (chan_eq_some there)
  have mine : counted i e (some ⟨i, some e, m, true⟩) = 1 := by simp [counted]
  rw [zero] at count
  rw [mine] at le
  have none_ : tally (counted i e) s.chans = 0 := count.symm
  omega

theorem Kept.read (kept : Kept s) (pid : Pid) (c n : Nat) : Kept (s.step (.read pid c n)) := by
  rw [step]
  split
  case h_1 i e m there =>
    have lt : i < s.dev.pipes.length := kept.devno_lt there
    have pipe := List.getElem?_eq_some_iff.2 ⟨lt, rfl⟩
    have sound := kept.sound _ _ pipe
    have after := sound.read (PipeDev.qid i e) pid (d := s.dev.qio (s.dev.pipes[i].q e)) (n := n)
      (qref_ne_zero kept there pipe) rfl
    dsimp only
    rw [PipeDev.read, pipe]
    exact kept.set lt rfl rfl kept.inside (fun _ _ => rfl) after
  case h_2 => exact kept

theorem Kept.write (kept : Kept s) (pid : Pid) (c : Nat) (data : Bytes) (mounted : Bool) :
    Kept (s.step (.write pid c data mounted)) := by
  rw [step]
  split
  case h_1 i e m there =>
    have lt : i < s.dev.pipes.length := kept.devno_lt there
    have pipe := List.getElem?_eq_some_iff.2 ⟨lt, rfl⟩
    have sound := kept.sound _ _ pipe
    have after := sound.write (PipeDev.qid i e.other) pid (e := e.other)
      (d := s.dev.qio (s.dev.pipes[i].q e.other)) (qref_ne_zero kept there pipe) rfl data
      (if mounted then none else some epipenote)
    rw [PipeDev.write, pipe]
    exact kept.set lt rfl (update_eq_self i s.use).symm kept.inside (fun _ _ => rfl) after
  case h_2 => exact kept

theorem Kept.step (kept : Kept s) {a : PipeAct} (room : Room s a) : Kept (s.step a) := by
  cases a with
  | attach => exact kept.attach
  | walk c name => exact kept.walk c name
  | openChan c mode => exact kept.openChan room
  | close c => exact kept.close c
  | read pid c n => exact kept.read pid c n
  | write pid c data mounted => exact kept.write pid c data mounted
  | table procs => exact kept.chans rfl rfl kept.inside fun _ => rfl

theorem Kept.of_reach (reached : system.Reach Room s) : Kept s := by
  refine reached.invariant Kept ?_ ?_
  · rintro _ ⟨procs, rfl⟩
    exact .start procs
  · rintro s a _ kept room rfl
    exact kept.step room

def wakeups (procs : Procs) (rs : List Rid) : Procs :=
    rs.foldl (fun procs r => (procs.wakeup r).2) procs

theorem asleep_of_wakeups {procs : Procs} {rs : List Rid} {r : Rid} {p : Pid}
    (asleep : (wakeups procs rs).board.Asleep r p) : procs.board.Asleep r p := by
  induction rs generalizing procs with
  | nil => exact asleep
  | cons r' rs ih => exact Procs.asleep_of_wakeup (ih asleep)

/-- Whoever sleeps on is not the one that the `Rendez` names. -/
theorem rendez_of_wakeups {procs : Procs} {rs : List Rid} {r : Rid} (listed : r ∈ rs) {p : Pid}
    (asleep : (wakeups procs rs).board.Asleep r p) : procs.board.rendez r ≠ some p := by
  induction rs generalizing procs with
  | nil => cases listed
  | cons r' rs ih =>
      rcases eq_or_ne r r' with rfl | differs
      · exact fun there => Procs.not_asleep_of_rendez there (asleep_of_wakeups asleep)
      · rcases mem_cons.1 listed with same | later
        · exact absurd same differs
        · rw [← Procs.rendez_wakeup differs]
          exact ih later asleep

theorem roused {d : PipeDev} {p : Pipe} (isOpen : ch.isOpen = true) (path : ch.path = some e)
    (pipe : d.pipes[ch.devno]? = some p) (last : (p.drop e).qref e = 0) {e' : End} {side : Side}
    {pid : Pid} (asleep : (d.close ch).procs.board.Asleep
    ((PipeDev.qid ch.devno e').rendez side) pid) :
    d.procs.board.Asleep ((PipeDev.qid ch.devno e').rendez side) pid ∧
      d.procs.board.rendez ((PipeDev.qid ch.devno e').rendez side) ≠ some pid := by
  have same : (d.close ch).procs = wakeups d.procs
      [(PipeDev.qid ch.devno e.other).rendez .rd, (PipeDev.qid ch.devno e.other).rendez .wr,
        (PipeDev.qid ch.devno e).rendez .rd, (PipeDev.qid ch.devno e).rendez .wr] := by
    rw [PipeDev.close, isOpen, path, pipe, Bool.not_true, if_neg Bool.false_ne_true]
    dsimp only
    rw [if_pos last]
    rfl
  rw [same] at asleep
  refine ⟨asleep_of_wakeups asleep, rendez_of_wakeups ?_ asleep⟩
  rcases eq_or_other e e' with rfl | rfl <;> cases side <;> simp

def run (s : Plumbing) (acts : List PipeAct) : Plumbing := acts.foldl step s

theorem reach_run {acts : List PipeAct} (reached : system.Reach Room s)
    (allowed : ∀ n, n < acts.length → ∀ a ∈ acts[n]?, Room (run s (acts.take n)) a) :
    system.Reach Room (run s acts) := by
  induction acts generalizing s with
  | nil => exact reached
  | cons a acts ih =>
      have first : Room s a := allowed 0 (Nat.succ_pos _) a rfl
      refine ih (reached.step first rfl) fun n lt b member => ?_
      exact allowed (n + 1) (Nat.succ_lt_succ lt) b member

def hungup : List PipeAct :=
  [.attach, .walk 0 "data", .walk 0 "data1", .openChan 1 1, .openChan 2 0, .write 1 1 [120] false,
    .close 1]

def waiting : List PipeAct :=
  [.attach, .walk 0 "data", .walk 0 "data1", .openChan 1 1, .openChan 2 0, .table .forked,
    .read 1 2 10]

def leftover : List PipeAct :=
  [.attach, .walk 0 "data", .openChan 1 1, .write 1 1 [120] false, .close 1]

end Plumbing

end Ipnx
