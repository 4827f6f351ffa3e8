import Ipnx.Lib.First
import Ipnx.Proc.Tracing

/-!
# Semaphores

`semacquire`, `tsemacquire` and `semrelease` of `kernel/src/lib.rs`, of the processes that share
one memory. Each that waits has a `Sema` on the segment's list, whose `waiting` is cleared before
it is woken; and one that was woken, and then did not take the semaphore, wakes another.

How often each word was released and acquired is kept for the account only.
-/

namespace Ipnx

open List
open Function (update update_of_ne update_self)

structure Sema where
  addr : Nat
  waiting : Bool
  p : Pid
  deriving DecidableEq, Repr

/-- What `semwait` keeps for when its caller is entered again. -/
structure Semwait where
  addr : Nat
  /-- How long it still waits, or for as long as it takes. -/
  ms : Option Nat
  t : Nat
  deriving DecidableEq, Repr

structure Semas where
  procs : Procs
  /-- The memory, by address. -/
  word : Nat → Int
  /-- `s->sema`. -/
  sema : List Sema
  label : Pid → Option Semwait
  first : Nat → Int
  released : Nat → Int
  acquired : Nat → Nat

inductive SemaAct
  | table (a : Act)
  | semacquire (pid : Pid) (addr : Nat) (block : Bool)
  | tsemacquire (pid : Pid) (addr ms now : Nat)
  | semrelease (pid : Pid) (addr : Nat) (delta : Int)
  /-- The caller is entered again. -/
  | resume (pid : Pid) (now : Nat)
  /-- A program stores into its memory. -/
  | store (addr : Nat) (val : Int)

/-- A `long`, of an addition that wraps. -/
def wrapped (v : Int) : Int := v.bmod (2 ^ 32)

namespace Semas

/-- What a call answers, and whether its caller has left. -/
abbrev Answer := Except String (Option Nat)

def canacquire (w : Semas) (addr : Nat) : Bool × Semas :=
  if 0 < w.word addr then
    (true, { w with word := update w.word addr (w.word addr - 1) })
  else (false, w)

/-- `semwakeup`: wake up `n` waiters on `addr`, oldest first. -/
def semwakeup (w : Semas) (addr n : Nat) : Semas :=
  let (woken, sema) := changeFirst (fun e => e.addr == addr && e.waiting)
    (fun e => { e with waiting := false }) n w.sema
  { w with sema, procs := woken.foldl (fun s e => (s.wakeup (.sema e.p)).2) w.procs }

def setwaiting (w : Semas) (up : Pid) : Semas :=
  { w with sema := (changeFirst (·.p == up) (fun e => { e with waiting := true }) 1 w.sema).2 }

/-- `semdone`: off the list, and a wakeup that was not used is passed on. -/
def semdone (w : Semas) (up : Pid) (addr : Nat) : Semas :=
  let v := { w with sema := w.sema.eraseP (·.p == up) }
  if (w.sema.find? (·.p == up)).any (!·.waiting) then v.semwakeup addr 1 else v

/-- The sleep of `semwait`. -/
def semsleep (s : Procs) (up : Pid) (ms : Option Nat) (now : Nat) : Bool × Procs :=
  match ms with
  | none => s.sleep up (.sema up) false
  | some ms => s.tsleep up (.sema up) false (now + ms * 1000000)

/-- `semwait`, from its top. -/
def semwait (w : Semas) (up : Pid) (addr : Nat) (ms : Option Nat) (now : Nat) : Answer × Semas :=
  match (w.setwaiting up).canacquire addr with
  | (true, w) => (.ok (some 1), w.semdone up addr)
  | (false, w) =>
      match semsleep w.procs up ms now with
      | (true, procs) =>
          let left : Semwait := ⟨addr, ms, w.procs.m.ticks⟩
          (.ok none, { w with procs, label := update w.label up (some left) })
      | (false, procs) =>
          (.error eintr, { w with procs := (procs.interrupted up).2 }.semdone up addr)

/-- `semacquire` and `tsemacquire`. -/
def acquire (w : Semas) (up : Pid) (addr : Nat) (ms : Option Nat) (now : Nat) : Answer × Semas :=
  match w.canacquire addr with
  | (true, w) => (.ok (some 1), w)
  | (false, w) =>
      if ms = some 0 then (.ok (some 0), w)
      else
        let phore : Sema := ⟨addr, false, up⟩
        { w with sema := w.sema ++ [phore] }.semwait up addr ms now

/-- `Call::Semacquire` and `Call::Tsemacquire`, past the check of the word. -/
def sysacquire (w : Semas) (up : Pid) (addr : Nat) (ms : Option Nat) (now : Nat) : Answer × Semas :=
  if w.word addr < 0 then (.error ebadarg, w) else w.acquire up addr ms now

/-- `Call::Semrelease`, by `semrelease`. -/
def sysrelease (w : Semas) (addr : Nat) (delta : Int) : Answer × Semas :=
  if delta < 0 ∨ w.word addr < 0 then (.error ebadarg, w)
  else
    let value := wrapped (w.word addr + delta)
    let v := { w with word := update w.word addr value }
    (.ok (some (value % 2 ^ 32).toNat), v.semwakeup addr delta.toNat)

/-- The rest of `semwait`, when its caller is entered again. -/
def resume (w : Semas) (up : Pid) (c : Semwait) (now : Nat) : Answer × Semas :=
  let (noted, procs) := w.procs.interrupted up
  let w := { w with procs, label := update w.label up none }
  if noted then (.error eintr, w.semdone up c.addr)
  else
    match c.ms with
    | none => w.semwait up c.addr none now
    | some ms =>
        let elms := tk2ms (w.procs.m.ticks - c.t)
        if ms ≤ elms then (.ok (some 0), w.semdone up c.addr)
        else w.semwait up c.addr (some (ms - elms)) now

def call (w : Semas) : SemaAct → Option Answer × Semas
  | .table a => (none, { w with procs := w.procs.step a })
  | .semacquire pid addr block =>
      let (r, w) := w.sysacquire pid addr (if block then none else some 0) 0
      (some r, w)
  | .tsemacquire pid addr ms now =>
      let (r, w) := w.sysacquire pid addr (some ms) now
      (some r, w)
  | .semrelease _ addr delta =>
      let (r, w) := w.sysrelease addr delta
      (some r, w)
  | .resume pid now =>
      match w.label pid with
      | none => (none, w)
      | some c =>
          let (r, w) := w.resume pid c now
          (some r, w)
  | .store addr val => (none, { w with word := update w.word addr val })

def acquires (w : Semas) : SemaAct → Option Nat
  | .semacquire _ addr _ | .tsemacquire _ addr _ _ => some addr
  | .resume pid _ => (w.label pid).map (·.addr)
  | _ => none

def took : Option Answer → Bool
  | some (.ok (some 1)) => true
  | _ => false

def releases (w : Semas) (addr : Nat) : SemaAct → Int
  | .semrelease _ addr' delta => if addr' = addr ∧ 0 ≤ delta ∧ 0 ≤ w.word addr then delta else 0
  | _ => 0

def step (w : Semas) (a : SemaAct) : Semas :=
  let (r, v) := w.call a
  { v with
    released := fun addr => w.released addr + w.releases addr a
    acquired := fun addr => w.acquired addr + if took r ∧ w.acquires a = some addr then 1 else 0 }

def semas : System Semas SemaAct where
  init w := w.procs = Procs.new ∧ w.sema = [] ∧ w.label = (fun _ => none) ∧
    (∀ addr, -2 ^ 31 ≤ w.word addr ∧ w.word addr < 2 ^ 31) ∧ w.first = w.word ∧
    w.released = (fun _ => 0) ∧ w.acquired = fun _ => 0
  step w a w' := w' = w.step a

def AtSema (r : Rid) : Prop := ∃ d, r = .sema d

def Apart : Act → Prop
  | .sleep _ r _ | .tsleep _ r _ _ => ¬AtSema r
  | _ => True

/-- What the callers promise. A process in a call does nothing but come back to it. -/
def Called (w : Semas) : SemaAct → Prop
  | .table a =>
      Procs.Callers Procs.Active w.procs a ∧ Apart a ∧ ∀ d, a.actor = some d → w.label d = none
  | .semacquire pid _ _ | .tsemacquire pid _ _ _ | .semrelease pid _ _ =>
      w.procs.Active pid ∧ w.label pid = none
  | .resume pid _ => w.procs.Active pid ∧ (w.label pid).isSome
  | .store _ _ => True

/-- One word is changed only by these calls, and never passes the largest `long`. -/
def Fits (addr : Nat) (w : Semas) (a : SemaAct) : Prop :=
  w.Called a ∧
    match a with
    | .store addr' _ => addr' ≠ addr
    | .semrelease _ addr' delta => addr' = addr → w.word addr + delta < 2 ^ 31
    | _ => True

/-- How many of a word's waiters were woken, and how many were not. -/
def roused (l : List Sema) (addr : Nat) : Nat := l.countP fun e => e.addr == addr && !e.waiting

def idle (l : List Sema) (addr : Nat) : Nat := l.countP fun e => e.addr == addr && e.waiting

/-- Of a word's waiters as many were woken as the word has to give, or all of them were. -/
def Law (word : Int) (l : List Sema) (addr : Nat) : Prop :=
  word ≤ roused l addr ∨ idle l addr = 0

section List

variable {l l' : List Sema} {word : Int} {addr addr' n : Nat} {up : Pid} {e : Sema}

def wakeList (addr n : Nat) (l : List Sema) : List Sema :=
  (changeFirst (fun e => e.addr == addr && e.waiting) (fun e => { e with waiting := false }) n l).2

theorem roused_wakeList (addr n : Nat) (l : List Sema) :
    roused (wakeList addr n l) addr = roused l addr + min n (idle l addr) := by
  apply countP_changeFirst <;> simp +contextual

theorem idle_wakeList (addr n : Nat) (l : List Sema) :
    idle (wakeList addr n l) addr + min n (idle l addr) = idle l addr := by
  apply countP_changeFirst_loss <;> simp +contextual

theorem wakeList_apart (apart : addr' ≠ addr) :
    roused (wakeList addr n l) addr' = roused l addr' ∧
      idle (wakeList addr n l) addr' = idle l addr' := by
  constructor <;> apply countP_changeFirst_same <;> simp +contextual [apart.symm]

theorem Law.wake (law : Law word l addr) : Law (word + n) (wakeList addr n l) addr := by
  have woken := roused_wakeList addr n l
  have left := idle_wakeList addr n l
  simp only [Law] at law ⊢
  omega

theorem law_of_le (empty : word ≤ 0) : Law word l addr := by
  left
  omega

theorem counts_erase (addr : Nat) (found : l.find? (·.p == up) = some e) :
    roused l addr = roused (l.eraseP (·.p == up)) addr +
        (if e.addr == addr && !e.waiting then 1 else 0) ∧
      idle l addr = idle (l.eraseP (·.p == up)) addr +
        if e.addr == addr && e.waiting then 1 else 0 :=
  ⟨countP_eraseP found, countP_eraseP found⟩

theorem counts_apart (found : l.find? (·.p == up) = some e) (apart : e.addr ≠ addr) :
    roused (l.eraseP (·.p == up)) addr = roused l addr ∧
      idle (l.eraseP (·.p == up)) addr = idle l addr := by
  rcases counts_erase addr found with ⟨woken, left⟩
  simp only [beq_eq_false_iff_ne.mpr apart, Bool.false_and, Bool.false_eq_true, if_false,
    Nat.add_zero] at woken left
  exact ⟨woken.symm, left.symm⟩

theorem Law.congr (law : Law word l addr) (woken : roused l' addr = roused l addr)
    (left : idle l' addr = idle l addr) : Law word l' addr := by
  rw [Law, woken, left]
  exact law

variable (law : Law word l addr) (found : l.find? (·.p == up) = some e) (mine : e.addr = addr)

include law found mine

theorem Law.take : Law (word - 1) (l.eraseP (·.p == up)) addr := by
  rcases counts_erase addr found with ⟨woken, left⟩
  simp only [Law] at law ⊢
  cases waiting : e.waiting
  · simp only [mine, waiting, beq_self_eq_true, Bool.not_false, Bool.and_self, Bool.and_false,
      if_true, Bool.false_eq_true, if_false] at woken left
    omega
  · simp only [mine, waiting, beq_self_eq_true, Bool.not_true, Bool.and_self, Bool.and_false,
      if_true, Bool.false_eq_true, if_false] at woken left
    omega

theorem Law.pass (had : e.waiting = false) :
    Law word (wakeList addr 1 (l.eraseP (·.p == up))) addr := by
  rcases counts_erase addr found with ⟨woken, left⟩
  have woken' := roused_wakeList addr 1 (l.eraseP (·.p == up))
  have left' := idle_wakeList addr 1 (l.eraseP (·.p == up))
  simp only [mine, had, beq_self_eq_true, Bool.not_false, Bool.and_self, Bool.and_false, if_true,
    Bool.false_eq_true, if_false] at woken left
  simp only [Law] at law ⊢
  omega

theorem Law.quit (had : e.waiting = true) : Law word (l.eraseP (·.p == up)) addr := by
  rcases counts_erase addr found with ⟨woken, left⟩
  simp only [mine, had, beq_self_eq_true, Bool.not_true, Bool.and_self, Bool.and_false, if_true,
    Bool.false_eq_true, if_false] at woken left
  simp only [Law] at law ⊢
  omega

end List

/-- Who sleeps at a semaphore's `Rendez` is the one it is for, and the `Rendez` names it. -/
structure Beds (s : Procs) : Prop where
  named : ∀ d, s.board.Named (.sema d)
  own : ∀ d q, s.board.Asleep (.sema d) q → q = d

section Beds

variable {s s' : Procs} {scope : Scope} {d up : Pid}

theorem Beds.moves (beds : Beds s) (moves : Procs.Moves scope s s')
    (apart : ∀ d, ¬scope.sleeps (.sema d)) : Beds s' where
  named d := (beds.named d).moves moves (apart d) rfl
  own d q asleep := beds.own d q (asleep.of_moves moves (apart d))

theorem wakes (list : List Sema) (beds : Beds s) :
    Procs.Moves Scope.still s (list.foldl (fun s e => (s.wakeup (.sema e.p)).2) s) ∧
      ∀ e ∈ list, ¬(list.foldl (fun s e => (s.wakeup (.sema e.p)).2) s).board.Asleep
        (.sema e.p) e.p := by
  induction list generalizing s with
  | nil => exact ⟨.refl s, fun e there => by cases there⟩
  | cons e rest ih =>
      have woken : Procs.Moves Scope.still s (s.wakeup (.sema e.p)).2 :=
        (Procs.steps_wakeup _).rise
      rcases ih (beds.moves woken fun _ => id) with ⟨moves, awake⟩
      refine ⟨woken.trans moves, fun e' there => ?_⟩
      rcases mem_cons.mp there with rfl | later
      · intro asleep
        exact Procs.not_asleep_wakeup (beds.named e'.p) (asleep.of_moves moves id)
      · exact awake e' later

theorem asleep_settimer {trend : Option Rid} {twhen : Option Nat} {r : Rid}
    (asleep : (s.modify up (Proc.settimer trend twhen)).board.Asleep r d) :
    s.board.Asleep r d := by
  rw [Procs.board_settimer] at asleep
  exact asleep.of_edit fun _ _ sleeps link => ⟨sleeps, link⟩

theorem Beds.settimer (beds : Beds s) (trend : Option Rid) (twhen : Option Nat) :
    Beds (s.modify up (Proc.settimer trend twhen)) := by
  refine ⟨fun d q asleep => ?_, fun d q asleep => beds.own d q (asleep_settimer asleep)⟩
  rw [Procs.board_settimer]
  exact beds.named d q (asleep_settimer asleep)

theorem asleep_sleep_other {r r' : Rid} {happened : Bool} (there : s.tab up ≠ none)
    (mine : r'.OpenTo up) (differs : d ≠ up)
    (asleep : (s.sleep up r' happened).2.board.Asleep r d) :
    s.board.Asleep r d := by
  rw [Procs.board_sleep happened there mine] at asleep
  split_ifs at asleep
  · rcases asleep with ⟨v, found, sleeps, link⟩
    rcases Board.view_of_edit found with ⟨-, was⟩ | ⟨is, -⟩
    · exact ⟨v, by simpa [Board.setRendez] using was, sleeps, link⟩
    · exact absurd is differs
  · simpa [Board.Asleep, Board.setRendez] using asleep

theorem asleep_step {a : Act} {r : Rid} (inv : s.board.Inv)
    (called : Procs.Callers Procs.Active s a) (other : ∀ q, a.actor = some q → d ≠ q)
    (asleep : (s.step a).board.Asleep r d) : s.board.Asleep r d := by
  have still (within : s.Within { Scope.any with sleeps := fun _ => False } a) :
      s.board.Asleep r d :=
    Board.Asleep.of_moves (Procs.moves_step inv called within) id asleep
  cases a with
  | sleep pid r' happened =>
      rcases called with ⟨⟨-, p, found, -⟩, mine⟩
      exact asleep_sleep_other (by simp [found]) mine (other pid rfl) asleep
  | tsleep pid r' happened deadline =>
      rcases called with ⟨⟨-, p, found, -⟩, mine⟩
      let t := s.modify pid (Proc.settimer (some r') (some deadline))
      have slept : (t.sleep pid r' happened).2.board.Asleep r d := by
        have whole : (s.tsleep pid r' happened deadline).2.board.Asleep r d := asleep
        rw [Procs.tsleep] at whole
        simp only at whole
        split_ifs at whole
        · exact whole
        · exact asleep_settimer whole
      exact asleep_settimer
        (asleep_sleep_other (by simp [found]) mine (other pid rfl) slept)
  | _ => exact still (by simp [Procs.Within, Scope.any])

theorem Beds.sleep (beds : Beds s) (active : s.Active up) :
    Beds (s.sleep up (.sema up) false).2 := by
  rcases active with ⟨-, p, found, running, alive⟩
  have mine : (Rid.sema up).OpenTo up := by simp [Rid.OpenTo, Rid.owner]
  have steps : Procs.Moves { Scope.still with sleeps := fun r => r = .sema up } s
      (s.sleep up (.sema up) false).2 := Procs.steps_sleep found running alive mine rfl
  have vacant (q : Pid) : ¬s.board.Asleep (.sema up) q := by
    intro asleep
    obtain rfl := beds.own up q asleep
    rcases asleep with ⟨v, view, sleeps, -⟩
    rw [Procs.board_view found, Option.some_inj] at view
    subst view
    rw [Proc.view, running] at sleeps
    cases sleeps
  have slept := Procs.asleep_sleep (s := s) (r := .sema up) false (by simp [found]) mine vacant
  refine ⟨fun d => ?_, fun d q asleep => ?_⟩ <;> rcases eq_or_ne d up with rfl | differs
  · exact slept.1
  · exact (beds.named d).moves steps (by simp [differs]) rfl
  · exact (slept.2 q asleep).1
  · exact beds.own d q (asleep.of_moves steps (by simp [differs]))

theorem Beds.semsleep (beds : Beds s) (active : s.Active up) (ms : Option Nat) (now : Nat) :
    Beds (semsleep s up ms now).2 := by
  cases ms with
  | none => exact beds.sleep active
  | some ms =>
      rcases active with ⟨entered, p, found, running, alive⟩
      let t := s.modify up (Proc.settimer (some (.sema up)) (some (now + ms * 1000000)))
      have active' : t.Active up :=
        ⟨entered, Proc.settimer (some (.sema up)) (some (now + ms * 1000000)) p,
          by simp [t, found], running, alive⟩
      have slept : Beds (t.sleep up (.sema up) false).2 := (beds.settimer _ _).sleep active'
      rw [Semas.semsleep, Procs.tsleep]
      simp only
      split_ifs
      · exact slept
      · exact slept.settimer none none

theorem steps_semsleep (active : s.Active up) (ms : Option Nat) (now : Nat) :
    Procs.Moves { Scope.still with sleeps := fun r => r = .sema up } s
      (semsleep s up ms now).2 := by
  rcases active with ⟨-, p, found, running, alive⟩
  have mine : (Rid.sema up).OpenTo up := by simp [Rid.OpenTo, Rid.owner]
  cases ms with
  | none => exact Procs.steps_sleep found running alive mine rfl
  | some ms => exact Procs.steps_tsleep found running alive mine rfl

end Beds

def Sema.place (e : Sema) : Pid × Nat := (e.p, e.addr)

/-- The waiters on the list are the processes in a call, and those that were woken are not
asleep. All of this but of a process that the kernel works for. -/
structure Listed (but : Pid → Prop) (w : Semas) : Prop where
  board : w.procs.board.Inv
  beds : Beds w.procs
  once : (w.sema.map (·.p)).Nodup
  calls : ∀ d a, (d, a) ∈ w.sema.map Sema.place → ¬but d → ∃ c, w.label d = some c ∧ c.addr = a
  waits : ∀ d c, w.label d = some c →
    w.procs.board.Alive d ∧ (d, c.addr) ∈ w.sema.map Sema.place
  woken : ∀ e ∈ w.sema, ¬but e.p → e.waiting = false → ¬w.procs.board.Asleep (.sema e.p) e.p
  there : ∀ d c, w.label d = some c → ∀ r, w.procs.board.Asleep r d → r = .sema d

/-- Nobody is left out. -/
abbrev All (w : Semas) : Prop := Listed (fun _ => False) w

/-- A process is in `semwait`, with its place on the list. -/
structure Mid (up : Pid) (e : Sema) (w : Semas) : Prop where
  listed : Listed (· = up) w
  mine : w.sema.find? (·.p == up) = some e
  free : w.label up = none

section Calls

variable {w : Semas} {but : Pid → Prop} {up : Pid} {e : Sema} {addr n : Nat}

section Listed

variable (listed : Listed but w)

include listed

theorem Listed.still {s : Procs} (moves : Procs.Moves Scope.still w.procs s) :
    Listed but { w with procs := s } where
  __ := listed
  board := moves.inv listed.board
  beds := listed.beds.moves moves fun _ => id
  waits d c here := (listed.waits d c here).imp_left fun alive => alive.moves moves listed.board id
  woken e there other waiting asleep :=
    listed.woken e there other waiting (asleep.of_moves moves id)
  there d c here r asleep := listed.there d c here r (asleep.of_moves moves id)

theorem Listed.congr {v : Semas} (procs : v.procs = w.procs)
    (sema : v.sema = w.sema) (label : v.label = w.label) : Listed but v := by
  rcases v with ⟨s, word, l, left, first, released, acquired⟩
  subst procs sema label
  exact { listed with }

theorem Listed.store (word : Nat → Int) : Listed but { w with word := word } :=
  listed.congr rfl rfl rfl

theorem Listed.interrupted : Listed but { w with procs := (w.procs.interrupted up).2 } := by
  apply listed.still
  exact .of_board (Procs.board_quiet ⟨fun _ => rfl, fun _ => rfl, fun _ => rfl⟩)

theorem Listed.semwakeup (addr n : Nat) : Listed but (w.semwakeup addr n) := by
  let woken := (changeFirst (fun e => e.addr == addr && e.waiting)
    (fun e : Sema => { e with waiting := false }) n w.sema).1
  rcases wakes woken listed.beds with ⟨moves, awake⟩
  have still := listed.still moves
  have places : (wakeList addr n w.sema).map Sema.place = w.sema.map Sema.place :=
    map_changeFirst fun _ => rfl
  have owners : (wakeList addr n w.sema).map (·.p) = w.sema.map (·.p) :=
    map_changeFirst fun _ => rfl
  refine ⟨still.board, still.beds, owners ▸ still.once, fun d a => ?_, fun d c here => ?_,
    fun e there other waiting => ?_, still.there⟩
  · change (d, a) ∈ (wakeList addr n w.sema).map Sema.place → _
    rw [places]
    exact still.calls d a
  · change _ ∧ (d, c.addr) ∈ (wakeList addr n w.sema).map Sema.place
    rw [places]
    exact still.waits d c here
  · rcases mem_changeFirst there with old | ⟨b, mine, rfl⟩
    · exact still.woken e old other waiting
    · exact awake b mine

end Listed

theorem Mid.find (mid : Mid up e w) : e ∈ w.sema ∧ e.p = up :=
  ⟨mem_of_find?_eq_some mid.mine, by simpa using List.find?_some mid.mine⟩

theorem Mid.only (mid : Mid up e w) {e' : Sema} (there : e' ∈ w.sema) (mine : e'.p = up) :
    e' = e :=
  inj_on_of_nodup_map mid.listed.once there mid.find.1 (mine.trans mid.find.2.symm)

theorem Mid.erase (mid : Mid up e w) :
    All { w with sema := w.sema.eraseP (·.p == up) } := by
  have others := key_eraseP (k := up) mid.listed.once
  refine ⟨mid.listed.board, mid.listed.beds,
    mid.listed.once.sublist (eraseP_sublist.map _), fun d a there _ => ?_,
    fun d c here => ?_, fun e' there _ waiting => ?_, mid.listed.there⟩
  · rcases mem_map.mp there with ⟨e', left, same⟩
    have owner : e'.p = d := congrArg Prod.fst same
    have differs : d ≠ up := owner ▸ others e' left
    exact mid.listed.calls d a
      (mem_map.mpr ⟨e', eraseP_sublist.subset left, same⟩) differs
  · rcases mid.listed.waits d c here with ⟨alive, there⟩
    rcases mem_map.mp there with ⟨e', left, same⟩
    refine ⟨alive, mem_map.mpr ⟨e', ?_, same⟩⟩
    rw [mem_eraseP_of_neg]
    · exact left
    · have owner : e'.p = d := congrArg Prod.fst same
      rw [beq_iff_eq, owner]
      rintro rfl
      simp [mid.free] at here
  · exact mid.listed.woken e' (eraseP_sublist.subset there) (others e' there) waiting

theorem Mid.semdone (mid : Mid up e w) (addr : Nat) : All (w.semdone up addr) := by
  rw [Semas.semdone]
  split_ifs
  · exact mid.erase.semwakeup addr 1
  · exact mid.erase

theorem Mid.setwaiting (mid : Mid up e w) :
    Mid up { e with waiting := true } (w.setwaiting up) := by
  have places : (w.setwaiting up).sema.map Sema.place = w.sema.map Sema.place :=
    map_changeFirst fun _ => rfl
  have owners : (w.setwaiting up).sema.map (·.p) = w.sema.map (·.p) :=
    map_changeFirst fun _ => rfl
  refine ⟨⟨mid.listed.board, mid.listed.beds, owners ▸ mid.listed.once, ?_, ?_, ?_,
    mid.listed.there⟩, ?_, mid.free⟩
  · rw [places]
    exact mid.listed.calls
  · rw [places]
    exact mid.listed.waits
  · intro e' there other waiting
    rcases mem_changeFirst there with old | ⟨b, mine, rfl⟩
    · exact mid.listed.woken e' old other waiting
    · cases waiting
  · have same := find?_changeFirst (p := (·.p == up)) (l := w.sema)
      (f := fun e => { e with waiting := true }) fun _ => rfl
    rw [mid.mine] at same
    exact same

theorem not_asleep_of_active {s : Procs} (active : s.Active up) (r : Rid) :
    ¬s.board.Asleep r up := by
  rcases active with ⟨-, p, found, running, -⟩
  rintro ⟨v, view, asleep, -⟩
  rw [Procs.board_view found, Option.some_inj] at view
  rw [← view, Proc.view, running] at asleep
  cases asleep

theorem Mid.sleep (mid : Mid up e w) (active : w.procs.Active up) {c : Semwait}
    (same : c.addr = e.addr) (waiting : e.waiting = true) (ms : Option Nat) (now : Nat) :
    All { w with
      procs := (semsleep w.procs up ms now).2, label := update w.label up (some c) } := by
  have steps := steps_semsleep active ms now
  have alive (d : Pid) (alive : w.procs.board.Alive d) :
      (semsleep w.procs up ms now).2.board.Alive d := alive.moves steps mid.listed.board id
  refine ⟨steps.inv mid.listed.board, mid.listed.beds.semsleep active ms now, mid.listed.once,
    fun d a there _ => ?_, fun d c' here => ?_, fun e' there _ woken asleep => ?_,
    fun d c' here r asleep => ?_⟩
  · rcases eq_or_ne d up with rfl | differs
    · rcases mem_map.mp there with ⟨e', left, place⟩
      obtain rfl := mid.only left (congrArg Prod.fst place)
      exact ⟨c, update_self .., same.trans (congrArg Prod.snd place)⟩
    · rcases mid.listed.calls d a there differs with ⟨c', here, mine⟩
      exact ⟨c', (update_of_ne differs ..).trans here, mine⟩
  · rcases eq_or_ne d up with rfl | differs
    · obtain rfl : c = c' := by simpa using here
      rcases active with ⟨-, p, found, -, lives⟩
      refine ⟨alive d ⟨p.view, Procs.board_view found, by simp [Proc.view, lives]⟩, ?_⟩
      exact mem_map.mpr ⟨e, mid.find.1, Prod.ext mid.find.2 same.symm⟩
    · have here' : w.label d = some c' := by simpa [differs] using here
      exact (mid.listed.waits d c' here').imp_left (alive d)
  · rcases eq_or_ne e'.p up with mine | differs
    · rw [mid.only there mine, waiting] at woken
      cases woken
    · refine mid.listed.woken e' there differs woken (asleep.of_moves steps ?_)
      simp [differs]
  · by_contra elsewhere
    rcases eq_or_ne d up with rfl | differs
    · exact not_asleep_of_active active r (asleep.of_moves steps elsewhere)
    · have here' : w.label d = some c' := by simpa [differs] using here
      have away : r ≠ .sema up := by
        rintro rfl
        exact differs ((mid.listed.beds.semsleep active ms now).own up d asleep)
      exact elsewhere (mid.listed.there d c' here' r (asleep.of_moves steps away))

theorem Mid.spared (mid : Mid up e w) (active : w.procs.Active up) (ms : Option Nat) (now : Nat) :
    All { w with
      procs := (semsleep w.procs up ms now).2, sema := w.sema.eraseP (·.p == up) } := by
  have steps := steps_semsleep active ms now
  have erased := mid.erase
  have others := key_eraseP (k := up) mid.listed.once
  refine ⟨steps.inv mid.listed.board, mid.listed.beds.semsleep active ms now, erased.once,
    erased.calls, fun d c here => ?_, fun e' there other woken asleep => ?_,
    fun d c here r asleep => ?_⟩
  · exact (erased.waits d c here).imp_left fun alive => alive.moves steps mid.listed.board id
  · refine erased.woken e' there other woken (asleep.of_moves steps ?_)
    simpa using others e' there
  · by_contra elsewhere
    have away : r ≠ .sema up := by
      rintro rfl
      exact elsewhere (congrArg Rid.sema
        ((mid.listed.beds.semsleep active ms now).own up d asleep).symm)
    exact elsewhere (erased.there d c here r (asleep.of_moves steps away))

theorem semdone_waiting (found : w.sema.find? (·.p == up) = some e) (waiting : e.waiting = true)
    (addr : Nat) : w.semdone up addr = { w with sema := w.sema.eraseP (·.p == up) } := by
  rw [Semas.semdone, found]
  simp [waiting]

/-- One turn of `semwait`: the word is acquired, or its caller sleeps, or a note is pending. -/
theorem Mid.semwait_cases (mid : Mid up e w) (addr : Nat) (ms : Option Nat) (now : Nat) :
    0 < w.word addr ∧ w.semwait up addr ms now =
        (.ok (some 1), { w with
          word := update w.word addr (w.word addr - 1)
          sema := w.sema.eraseP (·.p == up) }) ∨
      w.word addr ≤ 0 ∧
        ((∃ t, w.semwait up addr ms now =
          (.ok none, { w.setwaiting up with
            procs := (semsleep w.procs up ms now).2
            label := update w.label up (some ⟨addr, ms, t⟩) })) ∨
        w.semwait up addr ms now =
          (.error eintr, { w with
            procs := ((semsleep w.procs up ms now).2.interrupted up).2
            sema := w.sema.eraseP (·.p == up) })) := by
  have waits := mid.setwaiting
  have same : (w.setwaiting up).sema.eraseP (·.p == up) = w.sema.eraseP (·.p == up) :=
    eraseP_changeFirst fun _ => rfl
  by_cases some : 0 < w.word addr
  · left
    refine ⟨some, ?_⟩
    have can : (w.setwaiting up).canacquire addr = (true, { w.setwaiting up with
        word := update w.word addr (w.word addr - 1) }) := if_pos some
    rw [semwait, can]
    simp only
    rw [semdone_waiting (w := { w.setwaiting up with
      word := update w.word addr (w.word addr - 1) }) waits.mine rfl]
    simp only [same]
    rfl
  · right
    refine ⟨not_lt.mp some, ?_⟩
    have cannot : (w.setwaiting up).canacquire addr = (false, w.setwaiting up) := if_neg some
    rw [semwait, cannot]
    simp only
    split
    case h_1 procs slept =>
      refine .inl ⟨(w.setwaiting up).procs.m.ticks, ?_⟩
      have left : (semsleep w.procs up ms now).2 = procs := congrArg Prod.snd slept
      rw [left]
      rfl
    case h_2 procs awake =>
      right
      have left : (semsleep w.procs up ms now).2 = procs := congrArg Prod.snd awake
      rw [semdone_waiting (w := { w.setwaiting up with procs := (procs.interrupted up).2 })
        waits.mine rfl, left]
      simp only [same]
      rfl

/-- What a call that is to acquire a word leaves, with its answer. -/
structure Outcome (addr : Nat) (w v : Semas) (r : Answer) : Prop where
  all : All v
  word : v.word =
    if took (some r) then update w.word addr (w.word addr - 1) else w.word
  had : took (some r) = true → 0 < w.word addr
  law : ∀ a, Law (w.word a) w.sema a → Law (v.word a) v.sema a
  first : v.first = w.first
  released : v.released = w.released
  acquired : v.acquired = w.acquired

theorem Law.update {f : Nat → Int} {l l' : List Sema} {a : Nat} {v : Int}
    (law : Law (f a) l a) (here : a = addr → Law v l' addr)
    (apart : a ≠ addr → roused l' a = roused l a ∧ idle l' a = idle l a) :
    Law (update f addr v a) l' a := by
  rcases eq_or_ne a addr with rfl | differs
  · rw [update_self]
    exact here rfl
  · rw [update_of_ne differs]
    exact law.congr (apart differs).1 (apart differs).2

theorem Law.other {f : Nat → Int} {l l' : List Sema} {a : Nat} (law : Law (f a) l a)
    (empty : f addr ≤ 0)
    (apart : a ≠ addr → roused l' a = roused l a ∧ idle l' a = idle l a) : Law (f a) l' a := by
  rcases eq_or_ne a addr with rfl | differs
  · exact law_of_le empty
  · exact law.congr (apart differs).1 (apart differs).2

theorem Mid.semwait (mid : Mid up e w) (active : w.procs.Active up) (mine : e.addr = addr)
    (ms : Option Nat) (now : Nat) :
    Outcome addr w (w.semwait up addr ms now).2 (w.semwait up addr ms now).1 := by
  have waits := mid.setwaiting
  have same : (w.setwaiting up).sema.eraseP (·.p == up) = w.sema.eraseP (·.p == up) :=
    eraseP_changeFirst fun _ => rfl
  have erased (a : Nat) (differs : a ≠ addr) := counts_apart mid.mine (mine.trans_ne differs.symm)
  rcases mid.semwait_cases addr ms now with ⟨some, acquired⟩ | ⟨empty, ⟨t, slept⟩ | noted⟩
  · rw [acquired]
    refine ⟨mid.erase.store _, rfl, fun _ => some, fun a law => ?_, rfl, rfl, rfl⟩
    apply law.update
    · rintro rfl
      exact law.take mid.mine mine
    · exact erased a
  · rw [slept]
    refine ⟨waits.sleep active mine.symm rfl ms now, rfl, nofun, fun a law => ?_, rfl, rfl, rfl⟩
    apply law.other empty
    intro differs
    rcases counts_apart waits.mine (mine.trans_ne differs.symm) with ⟨woken, left⟩
    rw [same] at woken left
    exact ⟨woken.symm.trans (erased a differs).1, left.symm.trans (erased a differs).2⟩
  · rw [noted]
    exact ⟨(mid.spared active ms now).interrupted, rfl, nofun,
      fun a law => law.other empty (erased a), rfl, rfl, rfl⟩

theorem Outcome.after {v v' : Semas} {r : Answer} (outcome : Outcome addr v v' r)
    (word : v.word = w.word) (law : ∀ a, Law (w.word a) w.sema a → Law (w.word a) v.sema a)
    (first : v.first = w.first) (released : v.released = w.released)
    (acquired : v.acquired = w.acquired) : Outcome addr w v' r where
  all := outcome.all
  word := word ▸ outcome.word
  had := word ▸ outcome.had
  law a before := outcome.law a (by rw [word]; exact law a before)
  first := outcome.first.trans first
  released := outcome.released.trans released
  acquired := outcome.acquired.trans acquired

theorem Mid.quits (mid : Mid up e w) (mine : e.addr = addr) {r : Answer}
    (failed : took (some r) = false) : Outcome addr w (w.semdone up addr) r := by
  have erased (a : Nat) (differs : a ≠ addr) := counts_apart mid.mine (mine.trans_ne differs.symm)
  refine ⟨mid.semdone addr, ?_, fun had => ?_, fun a law => ?_, ?_, ?_, ?_⟩
  · rw [failed, if_neg Bool.false_ne_true, Semas.semdone]
    split_ifs <;> rfl
  · rw [failed] at had
    cases had
  · cases waiting : e.waiting
    · have done : w.semdone up addr =
          { w with sema := w.sema.eraseP (·.p == up) }.semwakeup addr 1 := by
        rw [Semas.semdone, mid.mine]
        simp [waiting]
      rw [done]
      rcases eq_or_ne a addr with rfl | differs
      · exact law.pass mid.mine mine waiting
      · rcases wakeList_apart (n := 1) (l := w.sema.eraseP (·.p == up)) differs with ⟨woken, left⟩
        exact law.congr (woken.trans (erased a differs).1) (left.trans (erased a differs).2)
    · rw [semdone_waiting mid.mine waiting]
      rcases eq_or_ne a addr with rfl | differs
      · exact law.quit mid.mine mine waiting
      · exact law.congr (erased a differs).1 (erased a differs).2
  all_goals
    rw [Semas.semdone]
    split_ifs <;> rfl

theorem Listed.push (all : All w) (free : w.label up = none) :
    Mid up ⟨addr, false, up⟩ { w with sema := w.sema ++ [⟨addr, false, up⟩] } := by
  have absent (e : Sema) (there : e ∈ w.sema) : e.p ≠ up := by
    rintro rfl
    rcases all.calls e.p e.addr (mem_map.mpr ⟨e, there, rfl⟩) id with ⟨c, here, -⟩
    simp [free] at here
  refine ⟨⟨all.board, all.beds, ?_, fun d a there differs => ?_, fun d c here => ?_,
    fun e there differs waiting => ?_, all.there⟩, ?_, free⟩
  · rw [map_append, nodup_append]
    refine ⟨all.once, nodup_singleton _, fun d there d' last => ?_⟩
    rcases mem_map.mp there with ⟨e, old, rfl⟩
    rw [map_singleton, mem_singleton] at last
    exact last ▸ absent e old
  · rw [map_append, mem_append] at there
    rcases there with old | last
    · exact all.calls d a old id
    · exact absurd (congrArg Prod.fst (mem_singleton.mp last)) differs
  · rw [map_append, mem_append]
    exact (all.waits d c here).imp_right .inl
  · rcases mem_append.mp there with old | last
    · exact all.woken e old id waiting
    · exact absurd (congrArg Sema.p (mem_singleton.mp last)) differs
  · rw [List.find?_append, List.find?_eq_none.mpr]
    · simp
    · simpa using absent

theorem Listed.back (all : All w) {c : Semwait} (here : w.label up = some c) :
    ∃ e, e.addr = c.addr ∧ Mid up e { w with
      procs := (w.procs.interrupted up).2, label := update w.label up none } := by
  rcases (all.waits up c here).2 with there
  rcases mem_map.mp there with ⟨e, mine, place⟩
  have owner : e.p = up := congrArg Prod.fst place
  have same : All { w with procs := (w.procs.interrupted up).2 } := all.interrupted
  refine ⟨e, congrArg Prod.snd place, ⟨same.board, same.beds, same.once,
      fun d a there differs => ?_,
    fun d c' here' => ?_, fun e' there _ => same.woken e' there id, fun d c' here' => ?_⟩, ?_,
    update_self ..⟩
  · rcases same.calls d a there id with ⟨c', here', mine'⟩
    exact ⟨c', (update_of_ne differs ..).trans here', mine'⟩
  · rcases eq_or_ne d up with rfl | differs
    · simp at here'
    · exact same.waits d c' (by simpa [differs] using here')
  · rcases eq_or_ne d up with rfl | differs
    · simp at here'
    · exact same.there d c' (by simpa [differs] using here')
  · rcases found : w.sema.find? (·.p == up) with _ | e'
    · have none := List.find?_eq_none.mp found e mine
      simp [owner] at none
    · have owner' : e'.p = up := by simpa using List.find?_some found
      have same : e' = e := inj_on_of_nodup_map all.once (mem_of_find?_eq_some found)
        mine (owner'.trans owner.symm)
      exact same ▸ found

theorem Listed.acquire (all : All w) (active : w.procs.Active up) (free : w.label up = none)
    (addr : Nat) (ms : Option Nat) (now : Nat) :
    Outcome addr w (w.acquire up addr ms now).2 (w.acquire up addr ms now).1 := by
  by_cases some : 0 < w.word addr
  · have can : w.canacquire addr =
        (true, { w with word := update w.word addr (w.word addr - 1) }) := if_pos some
    rw [Semas.acquire, can]
    refine ⟨all.store _, rfl, fun _ => some, fun a law => ?_, rfl, rfl, rfl⟩
    apply law.update
    · rintro rfl
      simp only [Law] at law ⊢
      omega
    · exact fun _ => ⟨rfl, rfl⟩
  · have cannot : w.canacquire addr = (false, w) := if_neg some
    rw [Semas.acquire, cannot]
    simp only
    split_ifs
    · exact ⟨all, rfl, nofun, fun _ => id, rfl, rfl, rfl⟩
    · have mid : Mid up ⟨addr, false, up⟩ { w with sema := w.sema ++ [⟨addr, false, up⟩] } :=
        all.push free
      have same : (⟨addr, false, up⟩ : Sema).addr = addr := rfl
      refine (mid.semwait active same ms now).after rfl (fun a law => ?_) rfl rfl rfl
      apply law.other (not_lt.mp some)
      intro differs
      simp [roused, idle, countP_append, differs.symm]

theorem Listed.sysacquire (all : All w) (active : w.procs.Active up) (free : w.label up = none)
    (addr : Nat) (ms : Option Nat) (now : Nat) :
    Outcome addr w (w.sysacquire up addr ms now).2 (w.sysacquire up addr ms now).1 := by
  rw [Semas.sysacquire]
  split_ifs
  · exact ⟨all, rfl, nofun, fun _ => id, rfl, rfl, rfl⟩
  · exact all.acquire active free addr ms now

theorem Listed.resume (all : All w) (active : w.procs.Active up) {c : Semwait}
    (here : w.label up = some c) (now : Nat) :
    Outcome c.addr w (w.resume up c now).2 (w.resume up c now).1 := by
  rcases all.back here with ⟨e, mine, mid⟩
  have runs : (w.procs.interrupted up).2.Active up := by
    rcases active with ⟨entered, p, found, running, alive⟩
    exact ⟨entered, { p with notepending := false }, by simp [Procs.interrupted, found], running,
      alive⟩
  rw [Semas.resume]
  simp only
  split_ifs
  · exact (mid.quits mine rfl).after rfl (fun _ => id) rfl rfl rfl
  · split
    · exact (mid.semwait runs mine none now).after rfl (fun _ => id) rfl rfl rfl
    · split_ifs
      · exact (mid.quits mine rfl).after rfl (fun _ => id) rfl rfl rfl
      · exact (mid.semwait runs mine _ now).after rfl (fun _ => id) rfl rfl rfl

theorem wrapped_of_fits {v : Int} (low : -2 ^ 31 ≤ v) (high : v < 2 ^ 31) : wrapped v = v := by
  rw [wrapped, Int.bmod_def]
  omega

theorem Listed.sysrelease (all : All w) (addr : Nat) (delta : Int) :
    All (w.sysrelease addr delta).2 := by
  rw [Semas.sysrelease]
  split_ifs
  · exact all
  · exact (all.store _).semwakeup addr delta.toNat

end Calls

structure Inv (addr : Nat) (w : Semas) : Prop where
  all : All w
  law : Law (w.word addr) w.sema addr
  count : w.word addr = w.first addr + w.released addr - w.acquired addr
  sound : 0 ≤ w.first addr → 0 ≤ w.word addr
  bounded : -2 ^ 31 ≤ w.word addr ∧ w.word addr < 2 ^ 31

section Runs

variable {w : Semas} {addr : Nat}

theorem inv_init (first : semas.init w) : Inv addr w := by
  rcases w with ⟨s, word, l, label, start, released, acquired⟩
  rcases first with ⟨rfl, rfl, rfl, bounded, same, rfl, rfl⟩
  have same' : start = word := same
  subst same'
  have awake (r : Rid) (d : Pid) : ¬Procs.new.board.Asleep r d := by
    rintro ⟨v, found, asleep, -⟩
    rcases Procs.new_view found with ⟨-, rfl⟩
    cases asleep
  refine ⟨⟨Procs.inv_new, ⟨fun d q asleep => absurd asleep (awake _ q),
    fun d q asleep => absurd asleep (awake _ q)⟩, nodup_nil, nofun, nofun, nofun, nofun⟩, ?_, ?_,
    fun pos => pos, bounded addr⟩
  · exact .inr rfl
  · simp

theorem Listed.outcome {a : SemaAct} {b : Nat} (all : All w) (called : w.Called a)
    (mine : w.acquires a = some b) :
    ∃ r v, w.call a = (some r, v) ∧ Outcome b w v r ∧ ∀ c, w.releases c a = 0 := by
  cases a with
  | semacquire pid addr' block =>
      obtain rfl : addr' = b := Option.some_inj.mp mine
      exact ⟨_, _, rfl, all.sysacquire called.1 called.2 addr' _ _, fun _ => rfl⟩
  | tsemacquire pid addr' ms now =>
      obtain rfl : addr' = b := Option.some_inj.mp mine
      exact ⟨_, _, rfl, all.sysacquire called.1 called.2 addr' _ _, fun _ => rfl⟩
  | resume pid now =>
      rcases Option.isSome_iff_exists.mp called.2 with ⟨c, here⟩
      obtain rfl : c.addr = b := by simpa [acquires, here] using mine
      exact ⟨_, _, by simp only [call, here], all.resume called.1 here now,
        fun _ => rfl⟩
  | table | semrelease | store => cases mine

theorem Inv.acquire {a : SemaAct} {b : Nat} (inv : Inv addr w) (valid : w.Called a)
    (mine : w.acquires a = some b) : Inv addr (w.step a) := by
  rcases inv.all.outcome valid mine with ⟨r, v, called, outcome, kept⟩
  have word := congrFun outcome.word addr
  have stepped : (w.step a).word = v.word ∧ (w.step a).first = w.first ∧
      (w.step a).released addr = w.released addr ∧
      (w.step a).acquired addr =
        w.acquired addr + if took (some r) = true ∧ b = addr then 1 else 0 := by
    rw [step, called]
    simp [mine, kept, outcome.first]
  rcases stepped with ⟨same, first, released, acquired⟩
  have count := inv.count
  have bounded := inv.bounded
  have listed : All (w.step a) := by
    rw [step, called]
    exact outcome.all.congr rfl rfl rfl
  have law : Law ((w.step a).word addr) (w.step a).sema addr := by
    rw [step, called]
    exact outcome.law addr inv.law
  have moved : v.word addr = w.word addr - if took (some r) = true ∧ b = addr then 1 else 0 := by
    rw [word]
    by_cases had : took (some r) = true
    · rcases eq_or_ne b addr with rfl | differs
      · simp [had]
      · simp [had, differs, differs.symm]
    · simp [had]
  have some : took (some r) = true ∧ b = addr → 0 < w.word addr := by
    rintro ⟨had, rfl⟩
    exact outcome.had had
  refine ⟨listed, law, ?_, fun pos => ?_, ?_⟩ <;> rw [same, moved]
  · rw [first, released, acquired]
    split_ifs <;> push_cast <;> omega
  · have before := inv.sound (first ▸ pos)
    split_ifs with had
    · have empty := some had
      omega
    · omega
  · split_ifs with had
    · have empty := some had
      omega
    · omega

theorem Inv.table {a : Act} (inv : Inv addr w) (called : w.Called (.table a)) :
    Inv addr (w.step (.table a)) := by
  let scope : Scope :=
    { Scope.any with sleeps := fun r => ¬AtSema r, exits := fun d => w.label d = none }
  rcases called with ⟨callers, apart, actor⟩
  have within : w.procs.Within scope a := by
    cases a with
    | sleep | tsleep => exact apart
    | exits pid status => exact actor pid rfl
    | _ => simp [Procs.Within, scope, Scope.any]
  have moves := Procs.moves_step inv.all.board callers within
  have unslept (d : Pid) : ¬scope.sleeps (.sema d) := fun away => away ⟨d, rfl⟩
  refine ⟨⟨moves.inv inv.all.board, inv.all.beds.moves moves unslept, inv.all.once, inv.all.calls,
    fun d c here => ?_, fun e there other waiting asleep => ?_, fun d c here r asleep => ?_⟩,
    inv.law, ?_, inv.sound, inv.bounded⟩
  · refine (inv.all.waits d c here).imp_left fun alive => ?_
    apply alive.moves moves inv.all.board
    intro free
    have none : w.label d = none := free
    have some : w.label d = some c := here
    simp [none] at some
  · exact inv.all.woken e there other waiting (asleep.of_moves moves (unslept e.p))
  · have differs (q : Pid) (mine : a.actor = some q) : d ≠ q := by
      rintro rfl
      have free := actor d mine
      have here' : w.label d = some c := here
      simp [free] at here'
    exact inv.all.there d c here r (asleep_step inv.all.board callers differs asleep)
  · have count := inv.count
    simpa [Semas.step, call, releases, acquires] using count

theorem Inv.release {pid : Pid} {addr' : Nat} {delta : Int} (inv : Inv addr w)
    (fits : addr' = addr → w.word addr + delta < 2 ^ 31) :
    Inv addr (w.step (.semrelease pid addr' delta)) := by
  have listed : All (w.step (.semrelease pid addr' delta)) :=
    (inv.all.sysrelease addr' delta).congr rfl rfl rfl
  have count := inv.count
  have bounded := inv.bounded
  have first : (w.step (.semrelease pid addr' delta)).first = w.first := by
    simp only [Semas.step, call, sysrelease]
    split_ifs <;> rfl
  have account : (w.step (.semrelease pid addr' delta)).released addr =
        w.released addr + w.releases addr (.semrelease pid addr' delta) ∧
      (w.step (.semrelease pid addr' delta)).acquired addr = w.acquired addr := by
    simp [Semas.step, acquires]
  rcases account with ⟨released, acquired⟩
  by_cases refused : delta < 0 ∨ w.word addr' < 0
  · have same : w.sysrelease addr' delta = (.error ebadarg, w) := if_pos refused
    have word : (w.step (.semrelease pid addr' delta)).word = w.word := by
      simp only [Semas.step, call, same]
    have sema : (w.step (.semrelease pid addr' delta)).sema = w.sema := by
      simp only [Semas.step, call, same]
    have nothing : w.releases addr (.semrelease pid addr' delta) = 0 := by
      apply if_neg
      rintro ⟨rfl, up, above⟩
      omega
    refine ⟨listed, ?_, ?_, ?_, ?_⟩
    · rw [word, sema]
      exact inv.law
    · rw [word, first, released, acquired, nothing]
      omega
    · rw [word, first]
      exact inv.sound
    · rw [word]
      exact bounded
  · have same : w.sysrelease addr' delta =
        (.ok (some (wrapped (w.word addr' + delta) % 2 ^ 32).toNat),
        { w with word := update w.word addr' (wrapped (w.word addr' + delta)) }.semwakeup
          addr' delta.toNat) := if_neg refused
    have word : (w.step (.semrelease pid addr' delta)).word =
        update w.word addr' (wrapped (w.word addr' + delta)) := by
      simp only [Semas.step, call, same]
      rfl
    have sema : (w.step (.semrelease pid addr' delta)).sema =
        wakeList addr' delta.toNat w.sema := by
      simp only [Semas.step, call, same]
      rfl
    rcases eq_or_ne addr' addr with rfl | differs
    · have fits := fits rfl
      have plain := wrapped_of_fits (v := w.word addr' + delta) (by omega) fits
      have given : w.releases addr' (.semrelease pid addr' delta) = delta := by
        apply if_pos
        exact ⟨rfl, by omega, by omega⟩
      rw [plain] at word
      have here : (w.step (.semrelease pid addr' delta)).word addr' = w.word addr' + delta := by
        rw [word, update_self]
      refine ⟨listed, ?_, ?_, fun pos => ?_, ?_⟩
      · have woken : Law (w.word addr' + delta.toNat) (wakeList addr' delta.toNat w.sema) addr' :=
          inv.law.wake
        rw [here, sema]
        rwa [Int.toNat_of_nonneg (by omega)] at woken
      · rw [here, first, released, acquired, given]
        omega
      · rw [here]
        omega
      · rw [here]
        omega
    · have here : (w.step (.semrelease pid addr' delta)).word addr = w.word addr := by
        rw [word, update_of_ne differs.symm]
      have nothing : w.releases addr (.semrelease pid addr' delta) = 0 := by
        apply if_neg
        exact fun mine => differs mine.1
      have kept := wakeList_apart (n := delta.toNat) (l := w.sema) differs.symm
      refine ⟨listed, ?_, ?_, ?_, ?_⟩
      · rw [here, sema]
        exact inv.law.congr kept.1 kept.2
      · rw [here, first, released, acquired, nothing]
        omega
      · rw [here, first]
        exact inv.sound
      · rw [here]
        exact bounded

theorem Inv.store {addr' : Nat} {val : Int} (inv : Inv addr w) (apart : addr' ≠ addr) :
    Inv addr (w.step (.store addr' val)) := by
  have same : (w.step (.store addr' val)).word addr = w.word addr :=
    update_of_ne apart.symm ..
  have count := inv.count
  refine ⟨inv.all.congr rfl rfl rfl, ?_, ?_, fun pos => ?_, ?_⟩
  · rw [same]
    exact inv.law
  · rw [same]
    simpa [Semas.step, call, releases, acquires] using count
  · rw [same]
    exact inv.sound pos
  · rw [same]
    exact inv.bounded

theorem Inv.step {a : SemaAct} (inv : Inv addr w) (fits : Fits addr w a) : Inv addr (w.step a) := by
  rcases fits with ⟨called, fits⟩
  cases a with
  | table a => exact inv.table called
  | semacquire | tsemacquire => exact inv.acquire called rfl
  | semrelease pid addr' delta => exact inv.release fits
  | resume pid now =>
      rcases Option.isSome_iff_exists.mp called.2 with ⟨c, here⟩
      exact inv.acquire called (b := c.addr) (by simp [acquires, here])
  | store addr' val => exact inv.store fits

theorem inv_of_reach (reached : semas.Reach (Fits addr) w) : Inv addr w :=
  reached.invariant (Inv addr) (fun _ first => inv_init first) fun _ _ _ inv fits moved =>
    moved ▸ inv.step fits

def Waits (w : Semas) (addr : Nat) (d : Pid) : Prop := ∃ c, w.label d = some c ∧ c.addr = addr

/-- It was woken, and has not run: it lives and sleeps nowhere, and its call is still to be gone
back to. -/
def Roused (w : Semas) (addr : Nat) (d : Pid) : Prop :=
  w.Waits addr d ∧ (∃ e ∈ w.sema, e.p = d ∧ e.waiting = false) ∧
    ∃ p, w.procs.tab d = some p ∧ p.status = none ∧ ∀ r, ¬(p.state = .wakeme ∧ p.r = some r)

structure Counted (addr : Nat) (w : Semas) : Prop where
  count : w.word addr = w.first addr + w.released addr - w.acquired addr
  sound : 0 ≤ w.first addr → 0 ≤ w.word addr
  takes : ∀ a, Fits addr w a → w.acquires a = some addr →
    (w.step a).word addr = w.word addr - if took (w.call a).1 then 1 else 0
  roused : 0 < w.word addr → (∃ d, w.Waits addr d) → ∃ d, w.Roused addr d

theorem Inv.roused (inv : Inv addr w) (some : 0 < w.word addr) (waits : ∃ d, w.Waits addr d) :
    ∃ d, w.Roused addr d := by
  rcases waits with ⟨d, c, here, rfl⟩
  rcases (inv.all.waits d c here).2 with there
  rcases mem_map.mp there with ⟨e, mine, place⟩
  have same : e.addr = c.addr := congrArg Prod.snd place
  have woken : 0 < Semas.roused w.sema c.addr := by
    rcases inv.law with enough | none
    · omega
    · have waiting := countP_eq_zero.mp none e mine
      apply countP_pos_iff.mpr
      exact ⟨e, mine, by simpa [same] using waiting⟩
  rcases countP_pos_iff.mp woken with ⟨e', mine', holds⟩
  simp only [Bool.and_eq_true, beq_iff_eq, Bool.not_eq_true'] at holds
  rcases inv.all.calls e'.p e'.addr (mem_map.mpr ⟨e', mine', rfl⟩) id with ⟨c', here', same'⟩
  rcases (inv.all.waits e'.p c' here').1 with ⟨v, view, lives⟩
  rcases Procs.tab_of_board_view view with ⟨p, found, rfl⟩
  refine ⟨e'.p, ⟨c', here', same'.trans holds.1⟩, ⟨e', mine', rfl, holds.2⟩, p, found, ?_, ?_⟩
  · simpa [Proc.view] using lives
  · rintro r ⟨asleep, link⟩
    have sleeps : w.procs.board.Asleep r e'.p := ⟨p.view, view, asleep, link⟩
    rw [inv.all.there e'.p c' here' r sleeps] at sleeps
    exact inv.all.woken e' mine' id holds.2 sleeps

theorem Inv.takes (inv : Inv addr w) {a : SemaAct} (fits : Fits addr w a)
    (mine : w.acquires a = some addr) :
    (w.step a).word addr = w.word addr - if took (w.call a).1 then 1 else 0 := by
  rcases inv.all.outcome fits.1 mine with ⟨r, v, called, outcome, -⟩
  have word := congrFun outcome.word addr
  have stepped : (w.step a).word = v.word := by rw [Semas.step, called]
  rw [stepped, word, called]
  split_ifs <;> simp

/-- In every run in which only these calls change a word, and it never passes the largest `long`,
it is what it was at first, with what was released and without what was acquired; an acquire
takes one or nothing; and while it has something to give and is waited for, some waiter has been
woken and has not run. -/
theorem semaphores_counted (reached : semas.Reach (Fits addr) w) : w.Counted addr :=
  let inv := inv_of_reach reached
  ⟨inv.count, inv.sound, fun _ => inv.takes, inv.roused⟩

theorem reach_step (a : SemaAct) (reached : semas.Reach (Fits addr) w) (fits : Fits addr w a) :
    semas.Reach (Fits addr) (w.step a) :=
  .step reached fits rfl

end Runs

def new : Semas := ⟨Procs.new, fun _ => 0, [], fun _ => none, fun _ => 0, fun _ => 0, fun _ => 0⟩

def given : Semas :=
  (((((new.step (.table (.rfork 1 Rf.proc))).step (.table (.ready 2))).step
    (.semacquire 1 0 true)).step (.table (.leave 1 .sched))).step (.table .sched)).step
      (.semrelease 2 0 1)

theorem semaphores_counted_given : given.Counted 0 ∧ given.word 0 = 1 ∧
    given.sema = [⟨0, false, 1⟩] := by
  have zeros : ∀ addr, -2 ^ 31 ≤ new.word addr ∧ new.word addr < 2 ^ 31 := fun _ => by
    simp [new]
  have made := reach_step (.table (.rfork 1 Rf.proc))
    (.init ⟨rfl, rfl, rfl, zeros, rfl, rfl, rfl⟩ : semas.Reach (Fits 0) new)
    ⟨⟨⟨rfl, _, rfl, rfl, rfl⟩, trivial, fun _ _ => rfl⟩, trivial⟩
  have readied := reach_step (.table (.ready 2)) made
    ⟨⟨⟨_, rfl, .inl rfl⟩, trivial, fun _ _ => rfl⟩, trivial⟩
  have waits := reach_step (.semacquire 1 0 true) readied ⟨⟨⟨rfl, _, rfl, rfl, rfl⟩, rfl⟩, trivial⟩
  have left := reach_step (.table (.leave 1 .sched)) waits
    ⟨⟨by simp [Procs.Callers], trivial, by simp [Act.actor]⟩, trivial⟩
  have runs := reach_step (.table .sched) left ⟨⟨trivial, trivial, by simp [Act.actor]⟩, trivial⟩
  have released := reach_step (.semrelease 2 0 1) runs
    ⟨⟨⟨rfl, _, rfl, rfl, rfl⟩, rfl⟩, fun _ => by decide⟩
  exact ⟨semaphores_counted released, by decide, by decide⟩

end Semas

end Ipnx
