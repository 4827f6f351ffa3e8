import Ipnx.Lib.Queues
import Ipnx.Proc.Table

/-!
# What the table's operations may do

The process table seen through what scheduling depends on: each process's state, its
priorities, the `Rendez` it sleeps on and its timer, the run queues, and who waits at each
`Rendez`. A `Move` is one thing that may happen to that picture. The operations are shown
elsewhere to be sequences of moves, and the invariants are shown here to survive each
move, so none of them is proved by unfolding an operation.

A `Scope` says which moves a part of a run may make: whether the priorities of queued
processes change, where processes go to sleep, who is handed a lock and who exits. The
invariant of the queues takes a scope in which queued priorities stay.
-/

namespace Ipnx

open List
open Function (update update_of_ne update_self)

def State.Exited (st : State) : Prop := st = .moribund ∨ st = .dead ∨ st = .broken

def Rid.owner : Rid → Option Pid
  | .proc pid _ => some pid
  | _ => none

/-- A process sleeps on its own `Rendez` or on one that is nobody's. -/
def Rid.OpenTo (r : Rid) (pid : Pid) : Prop := ∀ q, r.owner = some q → q = pid

/-- What of a process scheduling depends on. -/
structure View where
  state : State
  priority : Nat
  basepri : Nat
  r : Option Rid
  trend : Option Rid
  twhen : Option Nat
  /-- `exits` has fixed its status. -/
  ended : Bool
  rgrp : Nat

/-- A process that waits has not ended, and one in an ended state has. -/
def View.Sound (v : View) : Prop :=
  (v.state = .wakeme ∨ v.state = .rendezvous ∨ v.state = .queueing → v.ended = false) ∧
    (v.state.Exited → v.ended = true)

@[ext]
structure Board where
  view : Pid → Option View
  runq : Nat → List Pid
  nrdy : Nat
  rendez : Rid → Option Pid
  doublesleep : Nat
  rgrps : Nat → List Pid
  broken : List Pid
  next : Pid

/-- Which moves a part of a run may make. -/
structure Scope where
  /-- The priority of a queued process stays as it is. -/
  sorted : Prop
  sleeps : Rid → Prop
  hands : Pid → Prop
  exits : Pid → Prop

def Scope.any : Scope where
  sorted := False
  sleeps _ := True
  hands _ := True
  exits _ := True

/-- The moves that end waits, pick, stop and make processes. -/
def Scope.still : Scope where
  sorted := False
  sleeps _ := False
  hands _ := False
  exits _ := False

namespace Board

def edit (b : Board) (pid : Pid) (f : View → View) : Board :=
  { b with view := update b.view pid ((b.view pid).map f) }

def queue (b : Board) (pri : Nat) (pid : Pid) : Board :=
  { b with runq := Queues.push b.runq pri pid, nrdy := b.nrdy + 1 }

def unqueue (b : Board) (pri : Nat) (pid : Pid) : Board :=
  { b with runq := Queues.take b.runq pri pid, nrdy := b.nrdy - 1 }

def setRendez (b : Board) (r : Rid) (who : Option Pid) : Board :=
  { b with rendez := update b.rendez r who }

/-- `sleep`'s count of finding somebody else on the `Rendez`. -/
def sleepOn (b : Board) (pid : Pid) (r : Rid) : Board :=
  if (b.rendez r).any (· != pid) then { b with doublesleep := b.doublesleep + 1 } else b

def leavergrp (b : Board) (g : Nat) (pid : Pid) : Board :=
  { b with rgrps := update b.rgrps g ((b.rgrps g).filter (· != pid)) }

def joinrgrp (b : Board) (g : Nat) (pid : Pid) : Board :=
  { b with rgrps := update b.rgrps g (b.rgrps g ++ [pid]) }

/-- A sleep ended: both ends of the link and the timer gone, and the process queued. -/
def roused (b : Board) (pid : Pid) (r : Rid) (pri : Nat) : Board :=
  ((b.setRendez r none).edit pid fun v =>
    { v with
      state := .ready, priority := pri, r := none, trend := none,
      twhen := none }).queue pri pid

/-- The moves that end a wait, or change where the processes that wait for nothing are
queued. -/
inductive Rouse : Board → Board → Prop
  | woken {b : Board} {pid : Pid} {v : View} {r : Rid} {pri : Nat}
      (found : b.view pid = some v) (asleep : v.state = .wakeme) (link : v.r = some r)
      (low : pri ≤ v.basepri) :
      Rouse b (b.roused pid r pri)
  /-- A timer fires and wakes nobody, which takes a double sleep. -/
  | untimed {b : Board} {pid : Pid} (double : b.doublesleep ≠ 0) :
      Rouse b (b.edit pid fun v => { v with trend := none })
  /-- A process leaves its rendezvous group and is queued. -/
  | met {b : Board} {pid : Pid} {v : View} {pri : Nat} (found : b.view pid = some v)
      (waiting : v.state = .rendezvous) (low : pri ≤ v.basepri) :
      Rouse b
        (((b.leavergrp v.rgrp pid).edit pid fun v =>
          { v with state := .ready, priority := pri }).queue pri pid)
  /-- A process is moved to the queue of a new priority. -/
  | shifted {b : Board} {pid : Pid} {place pri : Nat} (queued : pid ∈ b.runq place)
      (low : ∀ v, b.view pid = some v → pri ≤ v.basepri) (inside : pri < Pri.npriq) :
      Rouse b
        (((b.unqueue place pid).edit pid fun v => { v with priority := pri }).queue pri pid)

/-- One thing that may happen to the board. -/
inductive Move (scope : Scope) : Board → Board → Prop
  /-- A process that is neither queued nor asleep is put on a run queue. -/
  | ready {b : Board} {pid : Pid} {v : View} {pri : Nat} (found : b.view pid = some v)
      (source : v.state = .scheding ∨ v.state = .running ∨ v.state = .stopped ∨
        v.state = .queueing ∧ scope.hands pid)
      (low : pri ≤ v.basepri) :
      Move scope b
        ((b.edit pid fun v => { v with state := .ready, priority := pri }).queue pri pid)
  /-- The running process goes to sleep, with its timer as it was or a new one. -/
  | slept {b : Board} {pid : Pid} {v : View} {r : Rid} (trend : Option Rid)
      (twhen : Option Nat) (found : b.view pid = some v) (running : v.state = .running)
      (alive : v.ended = false) (mine : r.OpenTo pid) (there : scope.sleeps r)
      (timer : trend = v.trend ∧ twhen = v.twhen ∨ trend = some r ∧ twhen ≠ none) :
      Move scope b
        (((b.sleepOn pid r).setRendez r (some pid)).edit pid fun v =>
          { v with state := .wakeme, r := some r, trend := trend, twhen := twhen })
  /-- It does not sleep after all, because the condition holds or a note is pending. -/
  | spared {b : Board} {pid : Pid} {v : View} (r : Rid) (timed : Bool)
      (found : b.view pid = some v) (running : v.state = .running) (there : scope.sleeps r) :
      Move scope b
        (((b.sleepOn pid r).setRendez r none).edit pid fun v =>
          if timed then { v with trend := none, twhen := none } else v)
  | rouse {b b' : Board} (moved : Rouse b b') : Move scope b b'
  /-- The running process waits in its rendezvous group. -/
  | gathered {b : Board} {pid : Pid} {v : View} (found : b.view pid = some v)
      (running : v.state = .running) (alive : v.ended = false) :
      Move scope b
        ((b.edit pid fun v => { v with state := .rendezvous }).joinrgrp v.rgrp pid)
  /-- The running process stops, or waits for a `QLock`. -/
  | parked {b : Board} {pid : Pid} {v : View} {st : State} (found : b.view pid = some v)
      (running : v.state = .running) (alive : v.ended = false)
      (target : st = .stopped ∨ st = .queueing) :
      Move scope b (b.edit pid fun v => { v with state := st })
  /-- A process that is on no queue ends. -/
  | exited {b : Board} {pid : Pid} {v : View} (found : b.view pid = some v)
      (source : v.state = .running ∨ v.state = .scheding) (leaves : scope.exits pid) :
      Move scope b (b.edit pid fun v => { v with state := .moribund, ended := true })
  /-- A queued process ends, and comes off the queue of its priority if it is there. -/
  | culled {b : Board} {pid : Pid} {v : View} (found : b.view pid = some v)
      (source : v.state = .ready) (leaves : scope.exits pid) :
      Move scope b
        ((if pid ∈ b.runq v.priority then b.unqueue v.priority pid else b).edit pid fun v =>
          { v with state := .moribund, ended := true })
  /-- What is left of an ended process: `Dead`, or kept `Broken`. -/
  | buried {b : Board} (pid : Pid) (st : State) (broken : List Pid)
      (finished : ∀ v, b.view pid = some v → v.ended = true) (target : st = .dead ∨ st = .broken)
      (kept : ∀ q ∈ broken, q ∈ b.broken ∨ q = pid ∧ b.view pid ≠ none) :
      Move scope b { b.edit pid (fun v => { v with state := st }) with broken := broken }
  /-- A process comes off the queue it is on, and runs. -/
  | picked {b : Board} {pid : Pid} {place pri : Nat} (queued : pid ∈ b.runq place)
      (source : ∀ v, b.view pid = some v → v.state = .ready ∨ v.state.Exited)
      (low : ∀ v, b.view pid = some v → pri ≤ v.basepri) :
      Move scope b
        ((b.unqueue place pid).edit pid fun v => { v with state := .running, priority := pri })
  /-- A new process, on no queue. -/
  | made {b : Board} {v : View} (fresh : v.state = .scheding) (alive : v.ended = false)
      (awake : v.r = none ∧ v.trend = none ∧ v.twhen = none)
      (bounded : v.basepri < Pri.npriq ∧ v.priority < Pri.npriq) :
      Move scope b
        { b with view := update b.view b.next (some v), next := b.next + 1 }
  /-- An ended process leaves the table, and its own `Rendez` with it. -/
  | reaped {b : Board} {pid : Pid} {v : View} (found : b.view pid = some v)
      (finished : v.ended = true) :
      Move scope b
        { b with
          view := update b.view pid none
          rendez := fun r => if r.owner = some pid then none else b.rendez r }
  /-- A process is given other priorities. -/
  | reprioritized {b : Board} (pid : Pid) {basepri pri : Nat}
      (bounded : basepri < Pri.npriq ∧ pri < Pri.npriq)
      (unqueued : scope.sorted → ∀ v, b.view pid = some v → v.state = .ready → pri = v.priority) :
      Move scope b (b.edit pid fun v => { v with basepri := basepri, priority := pri })
  /-- The running process changes its rendezvous group. -/
  | regrouped {b : Board} {pid : Pid} {v : View} {g : Nat} (found : b.view pid = some v)
      (running : v.state = .running) :
      Move scope b (b.edit pid fun v => { v with rgrp := g })

variable {b b' : Board} {scope : Scope} {pid : Pid}

theorem edit_view (b : Board) (pid other : Pid) (f : View → View) :
    (b.edit pid f).view other =
      if other = pid then (b.view other).map f else b.view other := by
  rcases eq_or_ne other pid with rfl | differs
  · simp [edit]
  · simp [edit, differs]

theorem view_of_edit {f : View → View} {other : Pid} {w : View}
    (found : (b.edit pid f).view other = some w) :
    other ≠ pid ∧ b.view other = some w ∨
      other = pid ∧ ∃ v, b.view pid = some v ∧ f v = w := by
  rw [edit_view] at found
  split at found
  case isTrue same =>
    subst same
    exact .inr ⟨rfl, Option.map_eq_some_iff.mp found⟩
  case isFalse differs => exact .inl ⟨differs, found⟩

@[simp]
theorem sleepOn_view (r : Rid) : (b.sleepOn pid r).view = b.view := by
  simp only [sleepOn]; split <;> rfl

@[simp]
theorem sleepOn_runq (r : Rid) : (b.sleepOn pid r).runq = b.runq := by
  simp only [sleepOn]; split <;> rfl

@[simp]
theorem sleepOn_rendez (r : Rid) : (b.sleepOn pid r).rendez = b.rendez := by
  simp only [sleepOn]; split <;> rfl

@[simp]
theorem sleepOn_rgrps (r : Rid) : (b.sleepOn pid r).rgrps = b.rgrps := by
  simp only [sleepOn]; split <;> rfl

/-- What every move keeps, whatever becomes of the queued processes' priorities. -/
structure Wf (b : Board) : Prop where
  fresh : ∀ pid, b.next ≤ pid → b.view pid = none ∧ ∀ place, pid ∉ b.runq place
  grouped : ∀ g pid, pid ∈ b.rgrps g →
    ∃ v, b.view pid = some v ∧ v.state = .rendezvous ∧ v.rgrp = g
  nodup : ∀ g, (b.rgrps g).Nodup
  sound : ∀ pid v, b.view pid = some v → v.Sound
  laid : ∀ pid ∈ b.broken, pid < b.next ∧ ∀ v, b.view pid = some v → v.ended = true
  bounded : ∀ pid v, b.view pid = some v → v.basepri < Pri.npriq ∧ v.priority < Pri.npriq
  inside : ∀ place pid, pid ∈ b.runq place → place < Pri.nrq
  counted : b.nrdy = Queues.total b.runq (Finset.range Pri.nrq)

theorem lt_nrq {pri : Nat} (low : pri < Pri.npriq) : pri < Pri.nrq := by
  simp only [Pri.nrq] at *
  omega

namespace Wf

variable (wf : b.Wf)

include wf

theorem alive (pid : Pid) (v : View) (found : b.view pid = some v)
    (waits : v.state = .wakeme ∨ v.state = .rendezvous ∨ v.state = .queueing) :
    v.ended = false :=
  (wf.sound pid v found).1 waits

theorem known {v : View} (found : b.view pid = some v) : pid < b.next := by
  by_contra unknown
  have absent := (wf.fresh pid (not_lt.mp unknown)).1
  simp [absent] at found

theorem known_of_mem {place : Nat} (queued : pid ∈ b.runq place) : pid < b.next := by
  by_contra unknown
  exact (wf.fresh pid (not_lt.mp unknown)).2 place queued

theorem edit {f : View → View}
    (bounds : ∀ v, b.view pid = some v → (f v).basepri < Pri.npriq ∧ (f v).priority < Pri.npriq)
    (sound : ∀ v, b.view pid = some v → (f v).Sound)
    (finished : ∀ v, b.view pid = some v → v.ended = true → (f v).ended = true)
    (apart : ∀ v, b.view pid = some v →
      (f v).state = v.state ∧ (f v).rgrp = v.rgrp ∨ ∀ g, pid ∉ b.rgrps g) :
    (b.edit pid f).Wf where
  __ := wf
  fresh other unmade := by
    have unknown := wf.fresh other unmade
    refine ⟨?_, unknown.2⟩
    rw [edit_view]
    split <;> simp [unknown.1]
  grouped g other member := by
    rcases wf.grouped g other member with ⟨v, found, waiting, rfl⟩
    rw [edit_view]
    split
    case isTrue same =>
      subst same
      rcases apart v found with ⟨keeps, stays⟩ | absent
      · exact ⟨f v, by simp [found], by rw [keeps, waiting], stays⟩
      · exact absurd member (absent _)
    case isFalse => exact ⟨v, found, waiting, rfl⟩
  sound other w found := by
    rcases view_of_edit found with ⟨-, here⟩ | ⟨rfl, v, here, rfl⟩
    · exact wf.sound other w here
    · exact sound v here
  laid other member := by
    refine ⟨(wf.laid other member).1, fun w found => ?_⟩
    rcases view_of_edit found with ⟨-, here⟩ | ⟨rfl, v, here, rfl⟩
    · exact (wf.laid other member).2 w here
    · exact finished v here ((wf.laid other member).2 v here)
  bounded other w found := by
    rcases view_of_edit found with ⟨-, here⟩ | ⟨rfl, v, here, rfl⟩
    · exact wf.bounded other w here
    · exact bounds v here

theorem queue {pri : Nat} (low : pri < Pri.npriq) (known : pid < b.next) :
    (b.queue pri pid).Wf where
  __ := wf
  fresh other unmade := by
    refine ⟨(wf.fresh other unmade).1, fun place => ?_⟩
    rw [← count_eq_zero]
    have absent := count_eq_zero.mpr ((wf.fresh other unmade).2 place)
    have differs : other ≠ pid := by
      rintro rfl
      exact absurd unmade (by simpa [Board.queue] using known)
    simp [Board.queue, Queues.count_push, absent, differs]
  inside place other member := by
    rcases eq_or_ne place pri with rfl | differs
    · exact lt_nrq low
    · simp only [Board.queue, Queues.push_of_ne differs] at member
      exact wf.inside place other member
  counted := by
    simp only [Board.queue]
    rw [Queues.total_push (Finset.mem_range.mpr (lt_nrq low)), wf.counted]

theorem unqueue {place : Nat} (queued : pid ∈ b.runq place) : (b.unqueue place pid).Wf where
  __ := wf
  fresh other unmade := by
    refine ⟨(wf.fresh other unmade).1, fun place => ?_⟩
    rw [← count_eq_zero]
    have absent := count_eq_zero.mpr ((wf.fresh other unmade).2 place)
    simp [Board.unqueue, Queues.count_take, absent]
  inside index other member := by
    apply wf.inside index other
    rw [← count_pos_iff] at member ⊢
    simp only [Board.unqueue, Queues.count_take] at member
    omega
  counted := by
    simp only [Board.unqueue]
    rw [Queues.total_take (Finset.mem_range.mpr (wf.inside _ _ queued)) queued, wf.counted]

theorem setRendez {r : Rid} {who : Option Pid} : (b.setRendez r who).Wf :=
  { wf with }

theorem sleepOn {r : Rid} : (b.sleepOn pid r).Wf := by
  simp only [Board.sleepOn]
  split
  · exact { wf with }
  · exact wf

theorem unjoined {v : View} (found : b.view pid = some v)
    (apart : v.state ≠ .rendezvous) (g : Nat) : pid ∉ b.rgrps g := by
  intro member
  rcases wf.grouped g pid member with ⟨w, here, waiting, -⟩
  rw [found, Option.some_inj] at here
  exact apart (here ▸ waiting)

theorem leavergrp {g : Nat} : (b.leavergrp g pid).Wf where
  __ := wf
  grouped g' other member := by
    apply wf.grouped g' other
    rcases eq_or_ne g' g with rfl | differs
    · simp only [Board.leavergrp, update_self, mem_filter] at member
      exact member.1
    · simpa [Board.leavergrp, differs] using member
  nodup g' := by
    rcases eq_or_ne g' g with rfl | differs
    · simpa [Board.leavergrp] using (wf.nodup g').filter _
    · simpa [Board.leavergrp, differs] using wf.nodup g'

theorem not_mem_leavergrp {v : View} (found : b.view pid = some v) (g : Nat) :
    pid ∉ (b.leavergrp v.rgrp pid).rgrps g := by
  rcases eq_or_ne g v.rgrp with rfl | differs
  · simp [Board.leavergrp]
  · intro member
    simp only [Board.leavergrp, update_of_ne differs] at member
    rcases wf.grouped g pid member with ⟨w, here, -, rfl⟩
    rw [found, Option.some_inj] at here
    exact differs (by rw [here])

theorem joinrgrp {v : View} (found : b.view pid = some v)
    (waiting : v.state = .rendezvous) (absent : pid ∉ b.rgrps v.rgrp) :
    (b.joinrgrp v.rgrp pid).Wf where
  __ := wf
  grouped g other member := by
    rcases eq_or_ne g v.rgrp with rfl | differs
    · simp only [Board.joinrgrp, update_self, mem_append, mem_singleton]
        at member
      rcases member with member | rfl
      · exact wf.grouped _ other member
      · exact ⟨v, found, waiting, rfl⟩
    · exact wf.grouped g other (by simpa [Board.joinrgrp, differs] using member)
  nodup g := by
    rcases eq_or_ne g v.rgrp with rfl | differs
    · simp only [Board.joinrgrp, update_self]
      exact nodup_append.mpr ⟨wf.nodup _, nodup_singleton _, by
        simp only [mem_singleton, ne_eq]
        rintro other member _ rfl rfl
        exact absent member⟩
    · simpa [Board.joinrgrp, differs] using wf.nodup g

theorem made {v : View} (fresh : v.state = .scheding)
    (bounded : v.basepri < Pri.npriq ∧ v.priority < Pri.npriq) :
    { b with view := update b.view b.next (some v), next := b.next + 1 : Board }.Wf where
  __ := wf
  fresh other unmade := by
    have later : b.next < other := unmade
    have unknown := wf.fresh other later.le
    exact ⟨by simpa [later.ne'] using unknown.1, unknown.2⟩
  grouped g other member := by
    rcases wf.grouped g other member with ⟨w, here, waiting, same⟩
    exact ⟨w, by simpa [(wf.known here).ne] using here, waiting, same⟩
  sound other w here := by
    rcases eq_or_ne other b.next with rfl | differs
    · simp only [update_self, Option.some_inj] at here
      simp [← here, View.Sound, State.Exited, fresh]
    · exact wf.sound other w (by simpa [differs] using here)
  laid other member := by
    have known := (wf.laid other member).1
    refine ⟨Nat.lt_succ_of_lt known, fun w here => ?_⟩
    exact (wf.laid other member).2 w (by simpa [known.ne] using here)
  bounded other w here := by
    rcases eq_or_ne other b.next with rfl | differs
    · simp only [update_self, Option.some_inj] at here
      exact here ▸ bounded
    · exact wf.bounded other w (by simpa [differs] using here)

theorem reaped {v : View} (found : b.view pid = some v) (finished : v.ended = true)
    {rendez : Rid → Option Pid} :
    { b with view := update b.view pid none, rendez := rendez : Board }.Wf where
  __ := wf
  fresh other unmade := by
    have unknown := wf.fresh other unmade
    have differs : other ≠ pid := fun same => (wf.known found).not_ge (same ▸ unmade)
    exact ⟨by simpa [differs] using unknown.1, unknown.2⟩
  grouped g other member := by
    rcases wf.grouped g other member with ⟨w, here, waiting, same⟩
    have differs : other ≠ pid := by
      rintro rfl
      have alive := wf.alive other w here (.inr (.inl waiting))
      rw [found, Option.some_inj] at here
      simp [here ▸ finished] at alive
    exact ⟨w, by simpa [differs] using here, waiting, same⟩
  sound other w here := by
    rcases eq_or_ne other pid with rfl | differs
    · simp at here
    · exact wf.sound other w (by simpa [differs] using here)
  laid other member := by
    refine ⟨(wf.laid other member).1, fun w here => ?_⟩
    rcases eq_or_ne other pid with rfl | differs
    · simp at here
    · exact (wf.laid other member).2 w (by simpa [differs] using here)
  bounded other w here := by
    rcases eq_or_ne other pid with rfl | differs
    · simp at here
    · exact wf.bounded other w (by simpa [differs] using here)

theorem keepBroken {broken : List Pid}
    (laid : ∀ q ∈ broken, q < b.next ∧ ∀ v, b.view q = some v → v.ended = true) :
    { b with broken := broken : Board }.Wf :=
  ⟨wf.fresh, wf.grouped, wf.nodup, wf.sound, laid, wf.bounded, wf.inside, wf.counted⟩

theorem editAt {f : View → View} {v : View} (found : b.view pid = some v)
    (bounds : (f v).basepri < Pri.npriq ∧ (f v).priority < Pri.npriq)
    (sound : (f v).Sound)
    (finished : v.ended = true → (f v).ended = true)
    (apart : ∀ g, pid ∉ b.rgrps g) : (b.edit pid f).Wf := by
  have only : ∀ w, b.view pid = some w → w = v := fun w here => by
    simpa using here.symm.trans found
  exact wf.edit (fun w here => only w here ▸ bounds) (fun w here => only w here ▸ sound)
    (fun w here => only w here ▸ finished) (fun _ _ => .inr apart)

theorem move (moved : Move scope b b') : b'.Wf := by
  cases moved with
  | ready found source low =>
      have bounds := wf.bounded _ _ found
      have apart := wf.unjoined found (by rcases source with h | h | h | h <;> simp [h])
      exact (wf.editAt found ⟨bounds.1, low.trans_lt bounds.1⟩
        (by simp [View.Sound, State.Exited]) (by simp) apart).queue (low.trans_lt bounds.1)
        (wf.known found)
  | @slept _ v _ _ _ found running alive mine there timer =>
      have bounds := wf.bounded _ _ found
      have apart := wf.unjoined found (by simp [running])
      exact (wf.sleepOn.setRendez).editAt (v := v) (by simpa [Board.setRendez] using found)
        bounds (by simp [View.Sound, State.Exited, alive]) (by simp)
        (by simpa [Board.setRendez] using apart)
  | @spared pid v _ timed found running =>
      refine (wf.sleepOn.setRendez).edit ?_ ?_ ?_ ?_ <;> intro w here <;>
        replace here : b.view pid = some w := by simpa [Board.setRendez] using here
      · have bounds := wf.bounded _ _ here
        cases timed <;> simpa using bounds
      · have sound := wf.sound _ _ here
        cases timed <;> simpa [View.Sound] using sound
      · cases timed <;> simp
      · cases timed <;> simp
  | rouse moved =>
      cases moved with
      | @woken _ v _ _ found asleep link low =>
          have bounds := wf.bounded _ _ found
          have apart := wf.unjoined found (by simp [asleep])
          exact (wf.setRendez.editAt (v := v) found ⟨bounds.1, low.trans_lt bounds.1⟩
            (by simp [View.Sound, State.Exited]) (by simp) apart).queue
              (low.trans_lt bounds.1) (wf.known found)
      | untimed double =>
          exact wf.edit (fun w here => wf.bounded _ w here) (fun w here => wf.sound _ w here)
            (by simp) (by simp)
      | @met _ v _ found waiting low =>
          have bounds := wf.bounded _ _ found
          exact (wf.leavergrp.editAt (v := v) found ⟨bounds.1, low.trans_lt bounds.1⟩
            (by simp [View.Sound, State.Exited]) (by simp)
            (wf.not_mem_leavergrp found)).queue (low.trans_lt bounds.1) (wf.known found)
      | @shifted pid place pri queued low inside =>
          have moved : ((b.unqueue place pid).edit pid fun v => { v with priority := pri }).Wf :=
            (wf.unqueue queued).edit (fun w here => ⟨(wf.bounded _ w here).1, inside⟩)
                (fun w here => wf.sound _ w here)
            (by simp) (by simp)
          exact moved.queue inside (wf.known_of_mem queued)
  | @gathered pid v found running alive =>
      have bounds := wf.bounded _ _ found
      have apart := wf.unjoined found (by simp [running])
      have joined := wf.editAt (f := fun v => { v with state := .rendezvous }) found
        bounds (by simp [View.Sound, State.Exited, alive]) (by simp) apart
      exact joined.joinrgrp (v := { v with state := .rendezvous }) (by simp [edit_view, found])
        rfl (apart _)
  | parked found running alive target =>
      have bounds := wf.bounded _ _ found
      have apart := wf.unjoined found (by simp [running])
      refine wf.editAt found bounds ?_ (by simp) apart
      rcases target with rfl | rfl <;> simp [View.Sound, State.Exited, alive]
  | exited found source =>
      have bounds := wf.bounded _ _ found
      have apart := wf.unjoined found (by rcases source with h | h <;> simp [h])
      exact wf.editAt found bounds (by simp [View.Sound]) (by simp) apart
  | @culled _ v found source =>
      have bounds := wf.bounded _ _ found
      have apart := wf.unjoined found (by simp [source])
      split
      case isTrue queued =>
        exact (wf.unqueue queued).editAt (v := v) found bounds (by simp [View.Sound])
            (by simp) apart
      case isFalse => exact wf.editAt found bounds (by simp [View.Sound]) (by simp) apart
  | @buried pid st broken finished target kept =>
      have dead : st ≠ .wakeme ∧ st ≠ .rendezvous ∧ st ≠ .queueing := by
        rcases target with rfl | rfl <;> simp
      have apart (w : View) (here : b.view pid = some w) : w.state ≠ .rendezvous := by
        intro waiting
        simpa [finished w here] using wf.alive _ w here (.inr (.inl waiting))
      have buried : (b.edit pid fun v => { v with state := st }).Wf := wf.edit
        (fun w here => wf.bounded _ w here)
        (fun w here => by simp [View.Sound, dead, finished w here]) (by simp)
        (fun w here => .inr (wf.unjoined here (apart w here)))
      refine buried.keepBroken fun q member => ?_
      rcases kept q member with member | ⟨rfl, there⟩
      · exact buried.laid q member
      · rcases Option.ne_none_iff_exists'.mp there with ⟨v, found⟩
        exact ⟨wf.known found, fun w here => by
          rcases view_of_edit here with ⟨differs, -⟩ | ⟨-, v, was, rfl⟩
          · exact absurd rfl differs
          · exact finished v was⟩
  | @picked pid place pri queued source low =>
      refine (wf.unqueue queued).edit (fun w here => ?_)
        (by simp [View.Sound, State.Exited]) (by simp) fun w here => ?_
      · have bounds := wf.bounded _ w here
        exact ⟨bounds.1, (low w here).trans_lt bounds.1⟩
      · refine .inr (wf.unjoined here fun waiting => ?_)
        rcases source w here with h | h | h | h <;> simp [h] at waiting
  | made fresh alive awake bounded => exact wf.made fresh bounded
  | reaped found finished => exact wf.reaped found finished
  | reprioritized pid bounded unqueued =>
      exact wf.edit (fun _ _ => bounded) (fun w here => wf.sound _ w here) (by simp) (by simp)
  | regrouped found running =>
      have bounds := wf.bounded _ _ found
      have apart := wf.unjoined found (by simp [running])
      exact wf.editAt found bounds (by simp [View.Sound, State.Exited, running]) (by simp) apart

end Wf

end Board

end Ipnx
