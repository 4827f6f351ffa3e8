import Ipnx.Machine.Forks

/-!
# The terminal's machine

`hosts/ipnx/src/machine.rs`: a process is a fiber, and entering it is one poll of it. What a
process does in a poll is a list of events. A fork unwinds the parent's stack inside the poll,
and the children it made are taken in when the poll ends.
-/

namespace Ipnx

open List
open Function (update update_of_ne update_self)

inductive Fiber
  | image
  | user
  | call (c : Trap)
  deriving DecidableEq, Repr

/-- What becomes of a stack that unwinds for a fork. -/
inductive Unwind
  /-- It cannot be unwound: the image is not built for it. -/
  | refused
  /-- It traps on the way. -/
  | trapped
  /-- It is unwound, the copy taken, and wound back, unless winding it back traps. -/
  | unwound (traps : Bool)
  deriving DecidableEq, Repr

/-- How a call goes, what `notify` says after it, and what its stack does if it forks. -/
structure Going where
  how : Course
  note : Notify
  unwind : Unwind
  deriving DecidableEq, Repr

inductive Event
  | call (c : Trap) (go : Going)
  | clock (note : Notify) (sched : Bool)
  | fault
  deriving DecidableEq, Repr

inductive Polled
  | pending (fiber : Fiber)
  | ready
  | execd
  deriving DecidableEq, Repr

/-- The kernel during a poll, and the children the poll has told the machine of: `FORKING`,
with whether the fork failed, and `FORKED`. -/
structure Poll where
  kern : Tasks
  forking : List (Pid × Bool)
  forked : List Pid

inductive Left
  | sched | exited
  deriving DecidableEq, Repr

structure Terminal where
  kern : Tasks
  procs : Pid → Option Fiber
  forking : Pid → Bool
  unforked : Pid → Bool
  born : List Pid
  stillborn : List Pid
  ran : List Pid
  failed : Option String

namespace Poll

/-- `deliver`: a note may end the process. -/
def deliver (p : Poll) (note : Notify) : Poll × Option Polled :=
  (p, if note = .pexit then some .ready else none)

/-- A call's answer, as its import takes it; `none` is the process going on. -/
def returned (p : Poll) (c : Trap) (v : Value) (go : Going) : Poll × Option Polled :=
  match v with
  | .sched => (p, some (.pending (.call c)))
  | .pid child =>
      if c.forks then
        match go.unwind with
        | .refused =>
            { p with forking := p.forking ++ [(child, false), (child, true)] }.deliver go.note
        | .trapped => ({ p with forking := p.forking ++ [(child, false)] }, some .ready)
        | .unwound traps =>
            ({ p with
                forking := p.forking ++ [(child, false)]
                forked := p.forked ++ [child] },
              some (if traps then .ready else .pending .user))
      else p.deliver go.note
  | .ok | .failed =>
      match c with
      | .exits => (p, some .ready)
      | .exec => if v = .ok then (p, some .execd) else p.deliver go.note
      | _ => p.deliver go.note

def kcall (p : Poll) (pid : Pid) (c : Trap) (go : Going) : Poll × Option Polled :=
  let r := p.kern.syscall pid c go.how
  { p with kern := r.1 }.returned c r.2 go

def recallTrap (p : Poll) (pid : Pid) (c : Trap) (go : Going) : Poll × Option Polled :=
  let r := p.kern.resume pid go.how
  { p with kern := r.1 }.returned c r.2 go

def event (p : Poll) (pid : Pid) : Event → Poll × Option Polled
  | .call c go => p.kcall pid c go
  | .clock note sched =>
      match note with
      | .pexit => (p, some .ready)
      | .sched => (p, some (.pending .user))
      | _ => (p, if sched then some (.pending .user) else none)
  | .fault => (p, some .ready)

def run (p : Poll) (pid : Pid) : List Event → Poll × Polled
  | [] => (p, .pending .user)
  | e :: rest =>
      let r := p.event pid e
      match r.2 with
      | some polled => (r.1, polled)
      | none => r.1.run pid rest

end Poll

namespace Terminal

def note (m : Terminal) (e : Pid × Bool) : Terminal :=
  if e.2 then
    { m with
      forking := update m.forking e.1 false
      unforked := update m.unforked e.1 true
      stillborn := m.stillborn ++ [e.1] }
  else { m with forking := update m.forking e.1 true }

def child (m : Terminal) (pid : Pid) : Terminal :=
  { m with
    forking := update m.forking pid false
    procs := update m.procs pid (some .user)
    born := m.born ++ [pid] }

/-- The end of a poll: what it told the machine is taken in. -/
def takein (m : Terminal) (p : Poll) : Terminal :=
  p.forked.foldl child (p.forking.foldl note { m with kern := p.kern })

def put (m : Terminal) (pid : Pid) (fiber : Fiber) : Terminal :=
  { m with procs := update m.procs pid (some fiber) }

/-- One poll. `go` is how the call it is in goes on, if it is in one. -/
def poll (m : Terminal) (pid : Pid) (fiber : Fiber) (go : Going) (script : List Event) :
    Poll × Polled :=
  let p : Poll := ⟨m.kern, [], []⟩
  match fiber with
  | .call c =>
      let r := p.recallTrap pid c go
      match r.2 with
      | some polled => (r.1, polled)
      | none => r.1.run pid script
  | _ => p.run pid script

/-- The fiber is taken out of the table for the length of the poll. -/
def takeout (m : Terminal) (pid : Pid) : Terminal :=
  { m with procs := update m.procs pid none, ran := m.ran ++ [pid] }

def giveup (m : Terminal) (pid : Pid) : Terminal :=
  { m with unforked := update m.unforked pid false }

/-- What is left of a process when its poll ends. -/
def polled (m : Terminal) (pid : Pid) (r : Poll × Polled) : Terminal × Except String Left :=
  let m := m.takein r.1
  match r.2 with
  | .pending fiber => (m.put pid fiber, .ok .sched)
  | .execd => (m.put pid .image, .ok .sched)
  | .ready => (m, .ok .exited)

def gotolabel (m : Terminal) (pid : Pid) (go : Going) (script : List Event) :
    Terminal × Except String Left :=
  if m.forking pid && (m.procs pid).isNone then (m, .ok .sched)
  else if m.unforked pid then (m.giveup pid, .ok .exited)
  else
    match m.procs pid with
    | none => (m, .error "no such process")
    | some fiber =>
        (m.takeout pid).polled pid ((m.takeout pid).poll pid fiber go script)

inductive Act
  | enter (pid : Pid) (go : Going) (script : List Event)
  | ctl (pid : Pid) (c : Option Procctl)

/-- `schedinit`'s loop body, for the process it chose. -/
def enter (m : Terminal) (pid : Pid) (go : Going) (script : List Event) : Terminal :=
  let r := m.gotolabel pid go script
  match r.2 with
  | .ok .sched => r.1
  | .ok .exited => { r.1 with kern := r.1.kern.exited pid }
  | .error e => { r.1 with failed := some e }

def step (m : Terminal) : Act → Terminal
  | .enter pid go script => m.enter pid go script
  | .ctl pid c => { m with kern := m.kern.ctl pid c }

def view (m : Terminal) : Forks where
  kern := m.kern
  known pid := m.forking pid || m.unforked pid || (m.procs pid).isSome
  making := m.forking
  born := m.born
  stillborn := m.stillborn
  ran := m.ran
  failed := m.failed

def boot : Terminal where
  kern := .boot
  procs pid := if pid = firstPid then some .image else none
  forking _ := false
  unforked _ := false
  born := []
  stillborn := []
  ran := []
  failed := none

def system : System Terminal Act where
  init m := m = boot
  step m a m' := m' = m.step a ∧ m.failed = none ∧
    match a with
    | .enter pid _ _ => m.view.Live pid
    | .ctl _ _ => True

/-- No tracer stops an `rfork` between its child and its answer, and no stack traps as it
unwinds for one. -/
def Smooth (m : Terminal) : Act → Prop
  | .enter pid go script =>
      (∀ t c, m.procs pid = some (.call c) → m.kern.tab pid = some t →
        t.label = some (.dispatch c) → c.forks = true → t.procctl ≠ some .tracesyscall) ∧
      go.unwind ≠ .trapped ∧ ∀ c go, .call c go ∈ script → go.unwind ≠ .trapped
  | .ctl _ _ => True

/-- Between polls with `out = none`; during the poll of `pid` with `out = some pid`, when the
fiber is out of the table. -/
structure Inv (out : Option Pid) (m : Terminal) : Prop where
  sound : m.failed = none
  whole : ∀ q, m.forking q = false
  fresh : ∀ q, m.kern.next ≤ q → m.kern.tab q = none ∧ m.procs q = none ∧ m.unforked q = false
  made : ∀ q, q ≠ firstPid → (m.kern.tab q).isSome →
    m.born.count q + m.stillborn.count q = 1
  unmade : ∀ q, m.kern.next ≤ q → m.born.count q + m.stillborn.count q = 0
  known : ∀ q t, m.kern.tab q = some t → t.ended = false → out ≠ some q →
    (m.procs q).isSome ∨ m.unforked q = true
  polled : ∀ q, out = some q → (∃ t, m.kern.tab q = some t ∧ t.ended = false) ∧
    m.unforked q = false
  given : ∀ q, m.unforked q = true → m.procs q = none
  fits : ∀ q c, m.procs q = some (.call c) → ∃ t, m.kern.tab q = some t ∧ t.Fits c
  copied : ∀ q, (m.procs q).isSome → q = firstPid ∨ q ∈ m.born
  ran : ∀ q, q ∈ m.ran → q = firstPid ∨ q ∈ m.born

theorem Inv.handed {m : Terminal} (inv : Inv none m) : m.view.Handed := by
  refine ⟨inv.sound, ?_, ?_, ?_, ?_⟩
  · rintro pid ⟨t, found, live⟩
    rcases inv.known pid t found live (by simp) with there | there <;> simp [view, there]
  · intro pid making
    simp [view, inv.whole pid] at making
  · rintro pid ⟨other, found⟩
    have once := inv.made pid other found
    simp only [view, inv.whole pid]
    simpa using once
  · rintro pid ran ⟨other, _⟩
    rcases inv.ran pid ran with first | born
    · exact absurd first other
    · exact born

theorem inv_boot : Inv none boot := by
  refine ⟨rfl, fun _ => rfl, ?_, ?_, ?_, ?_, by simp, by simp [boot], ?_, ?_, ?_⟩
  · intro q past
    have other : q ≠ firstPid := by
      rintro rfl
      simp [boot, Tasks.boot, firstPid] at past
    simp [boot, Tasks.boot, other]
  · intro q other found
    simp [boot, Tasks.boot, other] at found
  · intro q _
    rfl
  · intro q t found _ _
    left
    by_cases first : q = firstPid
    · simp [boot, first]
    · simp [boot, Tasks.boot, first] at found
  · intro q c call
    simp only [boot] at call
    split at call <;> simp at call
  · intro q there
    left
    by_contra other
    simp [boot, other] at there
  · simp [boot]

theorem foldl_note_kern (l : List (Pid × Bool)) (m : Terminal) (k : Tasks) :
    l.foldl note { m with kern := k } = { l.foldl note m with kern := k } := by
  induction l generalizing m with
  | nil => rfl
  | cons e l ih =>
      have first : note { m with kern := k } e = { note m e with kern := k } := by
        simp only [note]
        split <;> rfl
      simp only [foldl_cons, first, ih]

variable {m : Terminal} {pid : Pid} {c : Trap} {k' : Tasks}

theorem Inv.rekern {out : Option Pid} {t : Task} (inv : Inv out m) (found : m.kern.tab pid = some t)
    (touched : Tasks.Touched pid m.kern k')
    (fits : ∀ c t', m.procs pid = some (.call c) → k'.tab pid = some t' → t'.Fits c) :
    Inv out { m with kern := k' } := by
  refine ⟨inv.sound, inv.whole, ?_, ?_, ?_, ?_, ?_, inv.given, ?_, inv.copied, inv.ran⟩
  · intro q past
    have absent := inv.fresh q (touched.next ▸ past)
    exact ⟨touched.absent found absent.1, absent.2⟩
  · exact fun q other there => inv.made q other (touched.isSome found there)
  · exact fun q past => inv.unmade q (touched.next ▸ past)
  · intro q t' there alive
    rcases touched.back found there with ⟨t₀, found₀, ended⟩
    exact inv.known q t₀ found₀ (ended.trans alive)
  · intro q isOut
    rcases inv.polled q isOut with ⟨⟨t, there, alive⟩, notGiven⟩
    rcases touched.entry there with ⟨t', there', ended, _⟩
    exact ⟨⟨t', there', ended.trans alive⟩, notGiven⟩
  · exact touched.fits inv.fits fits

theorem Inv.touched (inv : Inv (some pid) m) (gone : m.procs pid = none)
    (touched : Tasks.Touched pid m.kern k') : Inv (some pid) { m with kern := k' } := by
  rcases inv.polled pid rfl with ⟨⟨t, found, _⟩, _⟩
  apply inv.rekern found touched
  simp [gone]

theorem Inv.forked {m' : Terminal} {parent : Task} (inv : Inv (some pid) m)
    (gone : m.procs pid = none)
    (touched : Tasks.Touched pid (m.kern.fork pid parent) m'.kern)
    (sound : m'.failed = m.failed) (ran : m'.ran = m.ran)
    (whole : ∀ q, m'.forking q = false)
    (procs : ∀ q, q ≠ m.kern.next → m'.procs q = m.procs q)
    (unforked : ∀ q, q ≠ m.kern.next → m'.unforked q = m.unforked q)
    (count : ∀ q, m'.born.count q + m'.stillborn.count q =
      m.born.count q + m.stillborn.count q + if q = m.kern.next then 1 else 0)
    (born : ∀ q, q ∈ m.born → q ∈ m'.born)
    (settled : m'.procs m.kern.next = some .user ∧ m.kern.next ∈ m'.born ∧
        m'.unforked m.kern.next = false ∨
      m'.procs m.kern.next = none ∧ m'.unforked m.kern.next = true) :
    Inv (some pid) m' := by
  rcases inv.polled pid rfl with ⟨⟨t, found, live⟩, notGiven⟩
  have old : pid ≠ m.kern.next := by
    rintro rfl
    simp [(inv.fresh _ le_rfl).1] at found
  have found' : (m.kern.fork pid parent).tab pid = some t := by
    simp [Tasks.fork, update_of_ne old, found]
  rcases touched.self t found' with ⟨t', there', ended, _⟩
  have same (q : Pid) (other : q ≠ pid) (else' : q ≠ m.kern.next) :
      m'.kern.tab q = m.kern.tab q := by
    rw [touched.others q other]
    simp [Tasks.fork, update_of_ne else']
  have next : m'.kern.next = m.kern.next + 1 := touched.next
  have later {q : Pid} (past : m.kern.next + 1 ≤ q) : q ≠ m.kern.next := by
    rintro rfl
    exact absurd past (Nat.not_succ_le_self _)
  refine ⟨sound.trans inv.sound, whole, ?_, ?_, ?_, ?_, ?_, ?_, ?_, ?_, ?_⟩
  · intro q past
    rw [next] at past
    have new := later past
    have absent := inv.fresh q (Nat.le_of_succ_le past)
    have self : q ≠ pid := by
      rintro rfl
      simp [absent.1] at found
    rw [same q self new, procs q new, unforked q new]
    exact absent
  · intro q other there
    rw [count q]
    by_cases new : q = m.kern.next
    · rw [if_pos new, new, inv.unmade _ le_rfl]
    · rw [if_neg new]
      apply inv.made q other
      by_cases self : q = pid
      · simp [self, found]
      · rw [same q self new] at there
        exact there
  · intro q past
    rw [next] at past
    have new := later past
    rw [count q, if_neg new]
    exact inv.unmade q (Nat.le_of_succ_le past)
  · intro q t there alive out
    have self : q ≠ pid := fun eq => out (by rw [eq])
    by_cases new : q = m.kern.next
    · rw [new]
      rcases settled with ⟨there, _⟩ | ⟨_, there⟩
      · left
        rw [there]
        rfl
      · exact .inr there
    · rw [same q self new] at there
      rw [procs q new, unforked q new]
      exact inv.known q t there alive out
  · rintro q ⟨⟩
    exact ⟨⟨t', there', ended.trans live⟩, by rw [unforked pid old]; exact notGiven⟩
  · intro q there
    by_cases new : q = m.kern.next
    · rw [new] at there ⊢
      rcases settled with ⟨_, _, none⟩ | ⟨none, _⟩
      · simp [none] at there
      · exact none
    · rw [unforked q new] at there
      rw [procs q new]
      exact inv.given q there
  · intro q c call
    by_cases new : q = m.kern.next
    · rw [new] at call
      rcases settled with ⟨there, _⟩ | ⟨there, _⟩ <;> simp [there] at call
    · rw [procs q new] at call
      have self : q ≠ pid := by
        rintro rfl
        simp [gone] at call
      rw [same q self new]
      exact inv.fits q c call
  · intro q there
    by_cases new : q = m.kern.next
    · rw [new] at there ⊢
      rcases settled with ⟨_, there', _⟩ | ⟨none, _⟩
      · exact .inr there'
      · simp [none] at there
    · rw [procs q new] at there
      exact (inv.copied q there).imp_right (born q)
  · intro q there
    rw [ran] at there
    exact (inv.ran q there).imp_right (born q)

/-- A poll that goes on, seen from the machine that its news is taken into. -/
structure Polling (m : Terminal) (pid : Pid) (p : Poll) : Prop where
  forked : p.forked = []
  inv : Inv (some pid) (m.takein p)
  gone : (m.takein p).procs pid = none

structure Ended (m : Terminal) (pid : Pid) (r : Poll × Polled) : Prop where
  inv : Inv (some pid) (m.takein r.1)
  gone : (m.takein r.1).procs pid = none
  fits : ∀ c, r.2 = .pending (.call c) → ∃ t, r.1.kern.tab pid = some t ∧ t.Fits c

theorem takein_news {p : Poll} (none : p.forked = []) (k' : Tasks) (news : List (Pid × Bool))
    (made : List Pid) :
    m.takein ⟨k', p.forking ++ news, p.forked ++ made⟩ =
      made.foldl child (news.foldl note { m.takein p with kern := k' }) := by
  simp only [takein, none, nil_append, foldl_nil, foldl_append, foldl_note_kern]

theorem takein_kern {p : Poll} (none : p.forked = []) (k' : Tasks) :
    m.takein { p with kern := k' } = { m.takein p with kern := k' } := by
  have news := takein_news (m := m) none k' [] []
  simpa using news

@[simp]
theorem takein_kern_eq {p : Poll} (none : p.forked = []) : (m.takein p).kern = p.kern := by
  simp [takein, none, foldl_note_kern]

/-- A poll goes on or has ended, and the machine is in order either way. -/
def Goes (m : Terminal) (pid : Pid) (r : Poll × Option Polled) : Prop :=
  match r.2 with
  | none => Polling m pid r.1
  | some polled => Ended m pid (r.1, polled)

theorem Polling.ended {p : Poll} {polled : Polled} (polling : Polling m pid p)
    (left : ∀ c, polled ≠ .pending (.call c)) : Ended m pid (p, polled) :=
  ⟨polling.inv, polling.gone, fun c eq => absurd eq (left c)⟩

theorem Polling.deliver {p : Poll} (polling : Polling m pid p) (note : Notify) :
    Goes m pid (p.deliver note) := by
  simp only [Goes, Poll.deliver]
  split
  next none =>
    exact polling
  next polled some =>
    apply polling.ended
    intro c left
    rw [left] at some
    split at some <;> simp at some

theorem Polling.touched {p : Poll} (polling : Polling m pid p)
    (touched : Tasks.Touched pid p.kern k') : Polling m pid { p with kern := k' } := by
  have kern := takein_kern_eq (m := m) polling.forked
  rw [← kern] at touched
  have next := polling.inv.touched polling.gone touched
  refine ⟨polling.forked, ?_, ?_⟩
  · rw [takein_kern polling.forked]
    exact next
  · rw [takein_kern polling.forked]
    exact polling.gone

theorem Polling.refused {p : Poll} {parent : Task} (polling : Polling m pid p)
    (touched : Tasks.Touched pid (p.kern.fork pid parent) k') :
    Polling m pid ⟨k', p.forking ++ [(p.kern.next, false), (p.kern.next, true)], p.forked⟩ := by
  have kern := takein_kern_eq (m := m) polling.forked
  have news := takein_news (m := m) polling.forked k'
    [(p.kern.next, false), (p.kern.next, true)] []
  have inv := polling.inv
  have gone := polling.gone
  rw [append_nil] at news
  rw [← kern] at touched news ⊢
  generalize m.takein p = M at *
  simp only [foldl_cons, foldl_nil, note, if_true, Bool.false_eq_true, if_false]
    at news
  refine ⟨polling.forked, ?_, ?_⟩
  · rw [news]
    apply inv.forked gone touched
    · rfl
    · rfl
    · exact fun q => by simp [Function.update_apply, inv.whole q]
    · intro q _
      rfl
    · intro q new
      simp [update_of_ne new]
    · intro q
      dsimp only
      rw [count_snoc]
      omega
    · intro q there
      exact there
    · right
      exact ⟨(inv.fresh _ le_rfl).2.1, by simp⟩
  · rw [news]
    exact gone

theorem Polling.unwound {p : Poll} {parent : Task} (polling : Polling m pid p)
    (touched : Tasks.Touched pid (p.kern.fork pid parent) k') {polled : Polled}
    (left : ∀ c, polled ≠ .pending (.call c)) :
    Ended m pid
      (⟨k', p.forking ++ [(p.kern.next, false)], p.forked ++ [p.kern.next]⟩, polled) := by
  have kern := takein_kern_eq (m := m) polling.forked
  have news := takein_news (m := m) polling.forked k' [(p.kern.next, false)] [p.kern.next]
  have inv := polling.inv
  have gone := polling.gone
  rw [← kern] at touched news ⊢
  generalize m.takein p = M at *
  simp only [foldl_cons, foldl_nil, note, child, Bool.false_eq_true, if_false] at news
  rcases inv.polled pid rfl with ⟨⟨t, found, _⟩, _⟩
  have old : pid ≠ M.kern.next := by
    rintro rfl
    simp [(inv.fresh _ le_rfl).1] at found
  refine ⟨?_, ?_, fun c eq => absurd eq (left c)⟩
  · rw [news]
    apply inv.forked gone touched
    · rfl
    · rfl
    · exact fun q => by simp [Function.update_apply, inv.whole q]
    · intro q new
      simp [update_of_ne new]
    · intro q _
      rfl
    · intro q
      dsimp only
      rw [count_snoc]
      omega
    · intro q there
      exact mem_append_left _ there
    · left
      exact ⟨by simp, by simp, (inv.fresh _ le_rfl).2.2⟩
  · rw [news]
    simp [update_of_ne old, gone]

theorem Polling.returned {p : Poll} {v : Value} {go : Going} (polling : Polling m pid p)
    (went : Tasks.Went pid c p.kern (k', v)) (smooth : go.unwind ≠ .trapped) :
    Goes m pid ({ p with kern := k' }.returned c v go) := by
  cases went with
  | left touched found fits =>
      have next := polling.touched touched
      refine ⟨next.inv, next.gone, ?_⟩
      rintro c' ⟨⟩
      exact ⟨_, found, fits⟩
  | answered touched finished childless =>
      have next := polling.touched touched
      cases v with
      | sched => exact absurd rfl finished
      | pid child =>
          by_cases forks : c.forks = true
          · exact absurd (childless forks) (by simp)
          · simp only [Poll.returned, forks, Bool.false_eq_true, if_false]
            exact next.deliver go.note
      | ok =>
          cases c with
          | exits => exact next.ended (by simp)
          | exec => exact next.ended (by simp)
          | rfork | other => exact next.deliver go.note
      | failed =>
          cases c with
          | exits => exact next.ended (by simp)
          | exec => exact next.deliver go.note
          | rfork | other => exact next.deliver go.note
  | forked forks before touched =>
      have first := polling.touched before
      rw [← before.next]
      simp only [Poll.returned, forks, if_true]
      cases unwinding : go.unwind with
      | refused => exact (first.refused touched).deliver go.note
      | trapped => exact absurd unwinding smooth
      | unwound traps =>
          apply first.unwound touched
          intro c
          split <;> simp

theorem Polling.fresh {p : Poll} (polling : Polling m pid p) :
    ∃ t, p.kern.tab pid = some t ∧ p.kern.next ≠ pid := by
  rcases polling.inv.polled pid rfl with ⟨⟨t, found, _⟩, _⟩
  have kern := takein_kern_eq (m := m) polling.forked
  refine ⟨t, by rw [← kern]; exact found, ?_⟩
  rintro rfl
  have absent := (polling.inv.fresh p.kern.next (by rw [kern])).1
  simp [absent] at found

theorem Polling.event {p : Poll} {e : Event} (polling : Polling m pid p)
    (smooth : ∀ c go, e = .call c go → go.unwind ≠ .trapped) : Goes m pid (p.event pid e) := by
  cases e with
  | call c go =>
      rcases polling.fresh with ⟨t, found, fresh⟩
      exact polling.returned (Tasks.went_syscall found fresh c go.how) (smooth c go rfl)
  | clock note sched =>
      cases note with
      | pexit => exact polling.ended (by simp)
      | sched => exact polling.ended (by simp)
      | no | handler =>
          simp only [Goes, Poll.event]
          cases sched with
          | true => exact polling.ended (by simp)
          | false => exact polling
  | fault => exact polling.ended (by simp)

theorem Polling.run {p : Poll} {script : List Event} (polling : Polling m pid p)
    (smooth : ∀ c go, .call c go ∈ script → go.unwind ≠ .trapped) :
    Ended m pid (p.run pid script) := by
  induction script generalizing p with
  | nil => exact polling.ended (by simp)
  | cons e rest ih =>
      have one : Goes m pid (p.event pid e) := polling.event fun c go eq =>
        smooth c go (by simp [eq])
      simp only [Poll.run]
      simp only [Goes] at one
      split
      next polled left =>
        rw [left] at one
        exact one
      next going =>
        rw [going] at one
        exact ih one fun c go member => smooth c go (by simp [member])

theorem ended_poll (fiber : Fiber) {go : Going} {script : List Event} (inv : Inv (some pid) m)
    (gone : m.procs pid = none)
    (back : ∀ c, fiber = .call c → ∃ t, m.kern.tab pid = some t ∧ t.Fits c ∧
      (t.label = some (.dispatch c) → c.forks = true → t.procctl ≠ some .tracesyscall))
    (smooth : go.unwind ≠ .trapped)
    (later : ∀ c go, .call c go ∈ script → go.unwind ≠ .trapped) :
    Ended m pid (m.poll pid fiber go script) := by
  have start : Polling m pid ⟨m.kern, [], []⟩ := ⟨rfl, inv, gone⟩
  simp only [poll]
  cases fiber with
  | image | user => exact start.run later
  | call c =>
      rcases back c rfl with ⟨t, found, fits, untraced⟩
      rcases start.fresh with ⟨_, _, fresh⟩
      have one : Goes m pid ((⟨m.kern, [], []⟩ : Poll).recallTrap pid c go) :=
        start.returned (Tasks.went_resume found fits fresh untraced go.how) smooth
      simp only [Goes] at one
      dsimp only
      split
      next polled left =>
        rw [left] at one
        exact one
      next going =>
        rw [going] at one
        exact one.run later

theorem Inv.put {fiber : Fiber} (inv : Inv (some pid) m)
    (born : pid = firstPid ∨ pid ∈ m.born)
    (fits : ∀ c, fiber = .call c → ∃ t, m.kern.tab pid = some t ∧ t.Fits c) :
    Inv none (m.put pid fiber) := by
  rcases inv.polled pid rfl with ⟨⟨t, found, live⟩, notGiven⟩
  refine ⟨inv.sound, inv.whole, ?_, inv.made, inv.unmade, ?_, by simp, ?_, ?_, ?_, inv.ran⟩
  · intro q past
    have self : q ≠ pid := by
      rintro rfl
      simp [(inv.fresh q past).1] at found
    simp only [Terminal.put, update_of_ne self]
    exact inv.fresh q past
  · intro q t there alive _
    by_cases self : q = pid
    · simp [Terminal.put, self]
    · simp only [Terminal.put, update_of_ne self]
      exact inv.known q t there alive fun eq => self (Option.some.inj eq).symm
  · intro q there
    have self : q ≠ pid := by
      rintro rfl
      simp [Terminal.put, notGiven] at there
    simp only [Terminal.put, update_of_ne self]
    exact inv.given q there
  · intro q c call
    by_cases self : q = pid
    · subst self
      simp only [Terminal.put, update_self, Option.some.injEq] at call
      exact fits c call
    · simp only [Terminal.put, update_of_ne self] at call
      exact inv.fits q c call
  · intro q there
    by_cases self : q = pid
    · rw [self]
      exact born
    · simp only [Terminal.put, update_of_ne self] at there
      exact inv.copied q there

theorem Inv.exited (inv : Inv (some pid) m) (gone : m.procs pid = none) :
    Inv none { m with kern := m.kern.exited pid } := by
  have same (q : Pid) (other : q ≠ pid) : (m.kern.exited pid).tab q = m.kern.tab q := by
    simp [Tasks.exited, Tasks.modify, update_of_ne other]
  have there (q : Pid) : ((m.kern.exited pid).tab q).isSome = (m.kern.tab q).isSome := by
    by_cases self : q = pid
    · simp [self, Tasks.exited]
    · rw [same q self]
  refine ⟨inv.sound, inv.whole, ?_, ?_, inv.unmade, ?_, by simp, inv.given, ?_, inv.copied,
    inv.ran⟩
  · intro q past
    have absent := inv.fresh q past
    have none := there q
    rw [absent.1] at none
    exact ⟨by simpa using none, absent.2⟩
  · intro q other found
    dsimp only at found
    rw [there q] at found
    exact inv.made q other found
  · intro q t found alive _
    by_cases self : q = pid
    · subst self
      simp only [Tasks.exited, Tasks.tab_modify, Option.map_eq_some_iff] at found
      rcases found with ⟨_, _, rfl⟩
      simp at alive
    · dsimp only at found
      rw [same q self] at found
      exact inv.known q t found alive fun eq => self (Option.some.inj eq).symm
  · intro q c call
    have self : q ≠ pid := by
      rintro rfl
      simp [gone] at call
    dsimp only
    rw [same q self]
    exact inv.fits q c call

theorem Inv.takeout {fiber : Fiber} {t : Task} (inv : Inv none m) (there : m.procs pid = some fiber)
    (found : m.kern.tab pid = some t) (alive : t.ended = false) :
    Inv (some pid) (m.takeout pid) := by
  have fewer (q : Pid) : (m.takeout pid).procs q = none ∨
      (m.takeout pid).procs q = m.procs q := by
    by_cases self : q = pid
    · simp [Terminal.takeout, self]
    · simp [Terminal.takeout, update_of_ne self]
  refine ⟨inv.sound, inv.whole, ?_, inv.made, inv.unmade, ?_, ?_, ?_, ?_, ?_, ?_⟩
  · intro q past
    have absent := inv.fresh q past
    refine ⟨absent.1, ?_, absent.2.2⟩
    rcases fewer q with none | same
    · exact none
    · exact same.trans absent.2.1
  · intro q t found alive out
    have self : q ≠ pid := fun eq => out (by rw [eq])
    simp only [Terminal.takeout, update_of_ne self]
    exact inv.known q t found alive (by simp)
  · rintro q ⟨⟩
    refine ⟨⟨t, found, alive⟩, ?_⟩
    by_contra given
    rw [Bool.not_eq_false] at given
    have none := inv.given pid given
    simp [none] at there
  · intro q given
    rcases fewer q with none | same
    · exact none
    · exact same.trans (inv.given q given)
  · intro q c call
    rcases fewer q with none | same
    · simp [none] at call
    · exact inv.fits q c (same.symm.trans call)
  · intro q there
    rcases fewer q with none | same
    · simp [none] at there
    · exact inv.copied q (by rw [← same]; exact there)
  · intro q member
    rcases mem_append.mp member with before | now
    · exact inv.ran q before
    · rw [mem_singleton.mp now]
      exact inv.copied pid (by simp [there])

theorem ran_takein (m : Terminal) (p : Poll) : (m.takein p).ran = m.ran := by
  have notes (l : List (Pid × Bool)) (m : Terminal) : (l.foldl note m).ran = m.ran := by
    induction l generalizing m with
    | nil => rfl
    | cons e l ih =>
        rw [foldl_cons, ih, note]
        split <;> rfl
  have children (l : List Pid) (m : Terminal) : (l.foldl child m).ran = m.ran := by
    induction l generalizing m with
    | nil => rfl
    | cons e l ih =>
        rw [foldl_cons, ih, child]
  rw [takein, children, notes]

theorem kern_takein (m : Terminal) (p : Poll) : (m.takein p).kern = p.kern := by
  have children (l : List Pid) (m : Terminal) : (l.foldl child m).kern = m.kern := by
    induction l generalizing m with
    | nil => rfl
    | cons e l ih =>
        rw [foldl_cons, ih, child]
  rw [takein, children, foldl_note_kern]

theorem Inv.giveup {t : Task} (inv : Inv none m) (found : m.kern.tab pid = some t)
    (alive : t.ended = false) : Inv (some pid) (m.giveup pid) := by
  refine ⟨inv.sound, inv.whole, ?_, inv.made, inv.unmade, ?_, ?_, ?_, inv.fits, inv.copied,
    inv.ran⟩
  · intro q past
    have absent := inv.fresh q past
    refine ⟨absent.1, absent.2.1, ?_⟩
    by_cases self : q = pid
    · simp [Terminal.giveup, self]
    · simp [Terminal.giveup, update_of_ne self, absent.2.2]
  · intro q t found alive out
    have self : q ≠ pid := fun eq => out (by rw [eq])
    simp only [Terminal.giveup, update_of_ne self]
    exact inv.known q t found alive (by simp)
  · rintro q ⟨⟩
    exact ⟨⟨t, found, alive⟩, by simp [Terminal.giveup]⟩
  · intro q there
    by_cases self : q = pid
    · simp [Terminal.giveup, self] at there
    · simp only [Terminal.giveup, update_of_ne self] at there
      exact inv.given q there

theorem inv_enter {go : Going} {script : List Event} (inv : Inv none m)
    (live : m.view.Live pid) (smooth : m.Smooth (.enter pid go script)) :
    Inv none (m.enter pid go script) := by
  rcases live with ⟨t, found, alive⟩
  rcases smooth with ⟨untraced, unwinds, later⟩
  have found : m.kern.tab pid = some t := found
  have start (x y : Terminal × Except String Left) :
      (if m.forking pid && (m.procs pid).isNone then x else y) = y := by
    simp [inv.whole pid]
  simp only [enter, gotolabel, start]
  by_cases given : m.unforked pid = true
  · simp only [given, if_true]
    exact (inv.giveup found alive).exited (inv.given pid given)
  · rw [if_neg given]
    rcases inv.known pid t found alive (by simp) with there | none
    · rcases Option.isSome_iff_exists.mp there with ⟨fiber, there⟩
      simp only [there]
      have out := inv.takeout there found alive
      have gone : (m.takeout pid).procs pid = none := by simp [takeout]
      have back : ∀ c, fiber = .call c → ∃ t, (m.takeout pid).kern.tab pid = some t ∧
          t.Fits c ∧ (t.label = some (.dispatch c) → c.forks = true →
            t.procctl ≠ some .tracesyscall) := by
        rintro c rfl
        rcases inv.fits pid c there with ⟨t', found', fits⟩
        exact ⟨t', found', fits, untraced t' c there found'⟩
      have ended := ended_poll fiber out gone back unwinds later
      have ran : pid ∈ (m.takeout pid).ran := by simp [takeout]
      generalize m.takeout pid = m₁ at *
      generalize m₁.poll pid fiber go script = r at *
      have born := ended.inv.ran pid (by rw [ran_takein]; exact ran)
      rcases r with ⟨p, polled⟩
      cases polled with
      | pending fiber =>
          apply ended.inv.put born
          intro c eq
          rw [kern_takein]
          exact ended.fits c (by rw [eq])
      | execd => exact ended.inv.put born (by simp)
      | ready => exact ended.inv.exited ended.gone
    · exact absurd none given

theorem inv_ctl (inv : Inv none m) (pid : Pid) (c : Option Procctl) :
    Inv none { m with kern := m.kern.ctl pid c } := by
  cases found : m.kern.tab pid with
  | none =>
      rw [Tasks.ctl_absent found]
      exact inv
  | some t =>
      have touched : Tasks.Touched pid m.kern (m.kern.ctl pid c) :=
        Tasks.touched_modify _ _ fun _ => ⟨rfl, rfl⟩
      apply inv.rekern found touched
      intro c' t' call there
      rw [Tasks.ctl, Tasks.tab_modify, found, Option.map_some, Option.some_inj] at there
      rcases inv.fits pid c' call with ⟨t₀, found₀, fits⟩
      cases found.symm.trans found₀
      exact there ▸ fits

theorem inv_of_reach (reached : system.Reach Smooth m) : Inv none m := by
  apply System.Reach.invariant (Inv none) _ _ reached
  · rintro m rfl
    exact inv_boot
  · rintro m a m' inv smooth ⟨rfl, _, allowed⟩
    cases a with
    | enter pid go script => exact inv_enter inv allowed smooth
    | ctl pid c => exact inv_ctl inv pid c

end Terminal

end Ipnx
