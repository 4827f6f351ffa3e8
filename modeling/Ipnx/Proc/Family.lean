import Ipnx.Proc.Ledger
import Ipnx.Proc.Tracing

/-!
# Parents and children

`rfork`, `exits` and `await`, with what else the table does in between. A process leaves its
entry when it exits; the entry holds its wait record until its parent takes it. `pwait` sleeps
until there is a record, and its caller comes back to `Kernel::resume`.

`made` and `taken` are kept for the account only: who made each process and whether with
`RFNOWAIT`, and each record taken, with the process that took it.
-/

namespace Ipnx

def enochild : String := "no living children"

structure Waitmsg where
  pid : Pid
  /-- User, system and real, in milliseconds. -/
  time : Nat × Nat × Nat
  msg : String
  deriving DecidableEq, Repr

/-- `Proc.status` and `Proc.wait` as the parent is told of them. -/
def Proc.waitmsg (c : Pid) (p : Proc) : Waitmsg := ⟨c, p.wait, p.status.getD ""⟩

namespace Procs

/-- The child whose record the parent may take. -/
def hasrecord (s : Procs) (pid c : Pid) : Bool :=
  (s.tab c).any fun p => p.ppid == pid && !p.waited && p.status.isSome

/-- `haswaitq`, with the table walked in an order. -/
def haswaitq (s : Procs) (order : List Pid) (pid : Pid) : Bool := order.any (s.hasrecord pid)

def nchild (s : Procs) (order : List Pid) (pid : Pid) : Nat :=
  order.countP fun c => (s.tab c).any fun p => p.ppid == pid && !p.waited

/-- `waitrecord`: the record `pwait` takes, and the child out of the table. -/
def waitrecord (s : Procs) (order : List Pid) (pid : Pid) : Except String Waitmsg × Procs :=
  match s.awaitChild order pid with
  | (some c, t) => (((s.tab c).elim (.error enochild) fun p => .ok (p.waitmsg c)), t)
  | (none, t) => (.error enochild, t)

/-- `pids`, as `#p` lists them. -/
def pids (s : Procs) : List Pid := (List.range s.next).filter fun pid => (s.tab pid).isSome

/-- The end of `pexit`, once what the process held is closed: its record made, and the process
kept `Broken` when a fault or a suicide ended it. -/
def pexit (s : Procs) (pid : Pid) (status : String) (freemem : Bool) : Procs :=
  if freemem then s.exits pid status else (s.exits pid status).addbroken pid

end Procs

structure Family where
  procs : Procs
  /-- Who is asleep in `pwait`, or woken there and not yet entered. -/
  waits : Pid → Bool
  made : Pid → Option (Pid × Bool)
  taken : List (Pid × Waitmsg)

inductive FamAct
  | table (a : Act)
  | rfork (pid : Pid) (flags : Nat)
  | pexit (pid : Pid) (status : String) (freemem : Bool)
  | await (pid : Pid) (order : List Pid)
  /-- The caller of `await` is entered again. -/
  | resume (pid : Pid) (order : List Pid)

namespace Family

def new : Family := ⟨Procs.new, fun _ => false, fun _ => none, []⟩

/-- A record is taken, and goes into the account. -/
def take (w : Family) (order : List Pid) (pid : Pid) :
    Except String (Option Waitmsg) × Family :=
  match w.procs.waitrecord order pid with
  | (.ok m, procs) => (.ok (some m), { w with procs, taken := w.taken ++ [(pid, m)] })
  | (.error e, procs) => (.error e, { w with procs })

/-- `Call::Await`. `none` is that the caller has left. -/
def await (w : Family) (order : List Pid) (pid : Pid) :
    Except String (Option Waitmsg) × Family :=
  if w.procs.haswaitq order pid then w.take order pid
  else if w.procs.nchild order pid = 0 then (.error enochild, w)
  else
    let (slept, procs) := w.procs.sleep pid (.proc pid .waitr) false
    let (noted, woken) := procs.interrupted pid
    if !slept && noted then (.error eintr, { w with procs := woken })
    else (.ok none, { w with procs, waits := Function.update w.waits pid true })

/-- The rest of `await`, when its caller is entered again. -/
def resume (w : Family) (order : List Pid) (pid : Pid) :
    Except String (Option Waitmsg) × Family :=
  let w := { w with waits := Function.update w.waits pid false }
  let (noted, procs) := w.procs.interrupted pid
  if noted then (.error eintr, { w with procs }) else { w with procs }.take order pid

def rfork (w : Family) (pid : Pid) (flags : Nat) : Family :=
  match w.procs.sysrfork pid flags with
  | .ok (some c, procs) =>
      { w with procs, made := Function.update w.made c (some (pid, Rf.has flags Rf.nowait)) }
  | .ok (none, procs) => { w with procs }
  | .error _ => w

def step (w : Family) : FamAct → Family
  | .table a => { w with procs := w.procs.step a }
  | .rfork pid flags => w.rfork pid flags
  | .pexit pid status freemem => { w with procs := w.procs.pexit pid status freemem }
  | .await pid order => (w.await order pid).2
  | .resume pid order => (w.resume order pid).2

def family : System Family FamAct where
  init w := w = new
  step w a w' := w' = w.step a

/-- A wait for a child is at one's own `waitr`. -/
def AtWaitr (r : Rid) : Prop := ∃ d, r = .proc d .waitr

/-- The operation is neither of those that have their own action here, nor one on a `waitr`,
and a change of other fields leaves what a wait goes by. -/
def Apart (w : Family) : Act → Prop
  | .rfork _ _ | .exits _ _ | .addbroken _ | .awaitChild _ _ => False
  | .sleep _ r _ | .tsleep _ r _ _ | .wakeup r => ¬AtWaitr r
  | .edit pid f =>
      (∀ p, (f p).ppid = p.ppid ∧ (f p).waited = p.waited ∧ (f p).status = p.status ∧
        (f p).wait = p.wait) ∧
        (w.waits pid = true → ∀ p, (f p).notepending = p.notepending)
  | _ => True

def Whole (w : Family) (order : List Pid) : Prop := ∀ c, (w.procs.tab c).isSome → c ∈ order

/-- What the callers promise. A process in `await` does nothing but come back to it. -/
def Called (w : Family) : FamAct → Prop
  | .table a =>
      Procs.Callers Procs.Active w.procs a ∧ w.Apart a ∧
        ∀ d, a.actor = some d → w.waits d = false
  | .rfork pid _ => w.procs.Active pid ∧ w.waits pid = false
  | .pexit pid _ freemem =>
      (w.procs.Active pid ∨ w.procs.Unentered pid ∧ freemem = true) ∧ w.waits pid = false
  | .await pid order => w.procs.Active pid ∧ w.waits pid = false ∧ w.Whole order
  | .resume pid order => w.procs.Active pid ∧ w.waits pid = true ∧ w.Whole order

end Family

structure Kin where
  ppid : Pid
  waited : Bool
  status : Option String
  wait : Nat × Nat × Nat

def Own.kin (o : Own) : Kin := ⟨o.ppid, o.waited, o.status, o.wait⟩

def Proc.kin (p : Proc) : Kin := p.own.kin

theorem apart_kin : Own.Apart Own.kin :=
  ⟨⟨fun _ => rfl, fun _ _ _ => rfl, fun _ _ => rfl⟩, fun _ _ _ => rfl⟩

abbrev Ledger.kin (l : Ledger) : Pid → Option Kin := l.part Own.kin

abbrev Ledger.Akin (l l' : Ledger) : Prop := l.Like Own.kin l'

theorem Ledger.Akin.kin {l l' : Ledger} (akin : l.Akin l') : l'.kin = l.kin := akin.part

namespace Procs

variable {s : Procs} {pid : Pid}

theorem kin_eq {p : Proc} (found : s.tab pid = some p) : s.ledger.kin pid = some p.kin :=
  part_eq found

theorem tab_of_kin {k : Kin} (here : s.ledger.kin pid = some k) :
    ∃ p, s.tab pid = some p ∧ p.kin = k :=
  tab_of_part here

end Procs

namespace Family

variable {w : Family} {s : Procs}

theorem akin_step {a : Act} (apart : w.Apart a) :
    s.ledger.Akin (s.step a).ledger ∨
      (∃ up name user, a = .kproc up name user) ∨ ∃ pid, a = .unbreak pid := by
  cases Procs.turn (s := s) apart_kin a with
  | like akin => exact .inl akin
  | rfork | exits | addbroken | awaitChild => exact absurd apart id
  | kproc up name user => exact .inr (.inl ⟨up, name, user, rfl⟩)
  | unbreak pid => exact .inr (.inr ⟨pid, rfl⟩)
  | edit pid f =>
      left
      apply Procs.like_modify
      intro p
      rcases apart.1 p with ⟨ppid, waited, status, wait⟩
      simp [Proc.own, Own.kin, ppid, waited, status, wait]

theorem kin_step {a : Act} (apart : w.Apart a) :
    (s.step a).ledger.kin = s.ledger.kin ∧ (s.step a).next = s.next ∨
      ∃ x, (s.step a).ledger.kin =
          Function.update s.ledger.kin s.next (some ⟨0, true, none, x⟩) ∧
        (s.step a).next = s.next + 1 := by
  rcases akin_step (s := s) apart with akin | ⟨up, name, user, rfl⟩ | ⟨pid, rfl⟩
  · exact .inl ⟨akin.kin, akin.next⟩
  · right
    have made : (s.step (.kproc up name user)).ledger = _ := Procs.ledger_kproc up name user
    rw [made]
    exact ⟨_, Ledger.part_update, congrArg Ledger.next made⟩
  · left
    have same : (s.step (.unbreak pid)).ledger = _ := Procs.ledger_unbreak
    rw [same]
    exact ⟨rfl, congrArg Ledger.next same⟩

end Family

end Ipnx
