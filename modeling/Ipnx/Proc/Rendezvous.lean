import Ipnx.Lib.Exchange
import Ipnx.Proc.Ledger
import Ipnx.Proc.Tracing

/-!
# Rendezvous

Who waits in a rendezvous group is spread over three places: the group's list, the process's
own tag and value, and the scheduler. A call and the notes that may end it are an exchange: the
caller is met by the next call of its group with its tag, or leaves when it is noted.

The exchange and the values that were answered are kept for the account only.
-/

namespace Ipnx

open List
open Function (update update_of_ne update_self)
open Option (isSome_iff_exists map_some some_inj toList_some)
open Procs (board_view moves_step own_eq tab_of_own within_any)

/-- A call of `rendezvous`. -/
structure Ask where
  pid : Pid
  group : Nat
  tag : Nat
  val : Nat
  deriving DecidableEq, Repr

def Ask.key (a : Ask) : Nat × Nat := (a.group, a.tag)

structure Meets where
  procs : Procs
  /-- The call that each process waits in, or was woken in and has not come back to. -/
  pending : Pid → Option Nat
  exchange : Exchange Ask
  /-- Each call that is over, and the value it answered. -/
  out : List (Nat × Nat)

inductive MeetAct
  | table (a : Act)
  | rendezvous (pid : Pid) (tag val : Nat)
  /-- The caller is entered again. -/
  | resume (pid : Pid)

namespace Meets

def new : Meets := ⟨Procs.new, fun _ => none, .empty, []⟩

/-- `up->rendval`. -/
def rendval (s : Procs) (pid : Pid) : Nat := (s.tab pid).elim (2 ^ 64 - 1) (·.rendval)

def stays (e : Exchange Ask) (s : Procs) (n : Nat) : Bool :=
  (e.asks[n]?).any fun a => a.pid ∈ s.rgrps a.group

def table (w : Meets) (a : Act) : Meets :=
  { w with
    procs := w.procs.step a
    exchange := w.exchange.withdraw (stays w.exchange (w.procs.step a)) }

/-- `Call::Rendezvous`: it answers at once when it meets another, and is left waiting when it
does not. -/
def rendezvous (w : Meets) (pid : Pid) (tag val : Nat) : Meets :=
  match w.procs.tab pid with
  | none => w
  | some me =>
      let n := w.exchange.asks.length
      let w' : Meets :=
        { w with
          procs := w.procs.rendezvous pid tag val
          exchange := w.exchange.arrive Ask.key ⟨pid, me.rgrp, tag, val⟩ }
      match w.procs.waiter me.rgrp tag with
      | some q => { w' with out := w.out ++ [(n, rendval w.procs q)] }
      | none => { w' with pending := update w.pending pid (some n) }

/-- *"sched(); return up->rendval;"* -/
def resume (w : Meets) (pid : Pid) : Meets :=
  { w with
    pending := update w.pending pid none
    out := w.out ++ ((w.pending pid).map fun n => (n, rendval w.procs pid)).toList }

def step (w : Meets) : MeetAct → Meets
  | .table a => w.table a
  | .rendezvous pid tag val => w.rendezvous pid tag val
  | .resume pid => w.resume pid

def meets : System Meets MeetAct where
  init w := w = new
  step w a w' := w' = w.step a

/-- The operation is not one that has its own action here, and a change of other fields leaves
what a rendezvous goes by. -/
def Apart : Act → Prop
  | .rendezvous .. => False
  | .edit _ f => ∀ p, (f p).rendtag = p.rendtag ∧ (f p).rendval = p.rendval ∧
      (f p).status = p.status
  | _ => True

/-- What the callers promise. A process in `rendezvous` does nothing but come back to it. -/
def Called (w : Meets) : MeetAct → Prop
  | .table a =>
      Procs.Callers Procs.Active w.procs a ∧ Apart a ∧ ∀ d, a.actor = some d → w.pending d = none
  | .rendezvous pid _ _ => w.procs.Active pid ∧ w.pending pid = none
  | .resume pid => w.procs.Active pid ∧ (w.pending pid).isSome

end Meets

/-- What a call is answered: its partner's value, or `~0` if it left. -/
def Exchange.Answer (e : Exchange Ask) (n v : Nat) : Prop :=
  (∃ m b, e.Partners n m ∧ e.asks[m]? = some b ∧ v = b.val) ∨ n ∈ e.left ∧ v = 2 ^ 64 - 1

namespace Board

variable {b b' : Board} {scope : Scope}

def Joined (b : Board) : Prop :=
  ∀ pid v, b.view pid = some v → v.state = .rendezvous → pid ∈ b.rgrps v.rgrp

theorem Joined.edit {pid : Pid} (joined : b.Joined) {f : View → View}
    (keeps : ∀ v, b.view pid = some v → (f v).state = .rendezvous →
      v.state = .rendezvous ∧ (f v).rgrp = v.rgrp) : (b.edit pid f).Joined := by
  intro q w found waiting
  rcases view_of_edit found with ⟨-, there⟩ | ⟨rfl, v, there, rfl⟩
  · exact joined q w there waiting
  · rcases keeps v there waiting with ⟨was, same⟩
    rw [same]
    exact joined q v there was

theorem Joined.rouse (joined : b.Joined) (moved : Rouse b b') : b'.Joined := by
  cases moved with
  | woken => exact Joined.edit (b := b.setRendez _ none) joined fun _ _ waiting => by cases waiting
  | untimed => exact joined.edit fun _ _ waiting => ⟨waiting, rfl⟩
  | @met pid v pri found waiting low =>
      intro q w here still
      rcases view_of_edit here with ⟨differs, there⟩ | ⟨-, u, -, rfl⟩
      · have inside := joined q w there still
        rcases eq_or_ne w.rgrp v.rgrp with same | apart
        · simpa [queue, Board.edit, leavergrp, same, differs] using same ▸ inside
        · simpa [queue, Board.edit, leavergrp, apart] using inside
      · cases still
  | shifted => exact Joined.edit (b := b.unqueue _ _) joined fun _ _ waiting => ⟨waiting, rfl⟩

theorem Joined.move (joined : b.Joined) (moved : Move scope b b') : b'.Joined := by
  cases moved with
  | ready => exact Joined.edit (b := b) joined fun _ _ waiting => by cases waiting
  | @slept q v r trend twhen found running alive mine there timer =>
      have still : ((b.sleepOn q r).setRendez r (some q)).Joined := by
        simpa [Joined, setRendez] using joined
      exact still.edit fun _ _ waiting => by cases waiting
  | @spared q v r timer found running there =>
      have still : ((b.sleepOn q r).setRendez r none).Joined := by
        simpa [Joined, setRendez] using joined
      apply still.edit
      intro u _ waiting
      cases timer <;> exact ⟨waiting, rfl⟩
  | rouse moved => exact joined.rouse moved
  | @gathered pid v found running alive =>
      intro q w here waiting
      rcases view_of_edit here with ⟨-, there⟩ | ⟨rfl, u, there, rfl⟩
      · have inside := joined q w there waiting
        rcases eq_or_ne w.rgrp v.rgrp with same | apart
        · simpa [joinrgrp, Board.edit, same] using .inl (same ▸ inside)
        · simpa [joinrgrp, Board.edit, apart] using inside
      · obtain rfl : v = u := some_inj.mp (found.symm.trans there)
        simp [joinrgrp, Board.edit]
  | parked found running alive target =>
      apply joined.edit
      intro _ _ waiting
      rcases target with rfl | rfl <;> cases waiting
  | exited => exact joined.edit fun _ _ waiting => by cases waiting
  | culled =>
      split
      · exact Joined.edit (b := b.unqueue _ _) joined fun _ _ waiting => by cases waiting
      · exact joined.edit fun _ _ waiting => by cases waiting
  | buried q st broken finished target kept =>
      apply Joined.edit (b := b) joined
      intro _ _ waiting
      rcases target with rfl | rfl <;> cases waiting
  | picked => exact Joined.edit (b := b.unqueue _ _) joined fun _ _ waiting => by cases waiting
  | @made v fresh alive awake bounded =>
      intro q u here waiting
      rcases eq_or_ne q b.next with rfl | differs
      · simp only [update_self, some_inj] at here
        rw [← here, fresh] at waiting
        cases waiting
      · exact joined q u (by simpa [differs] using here) waiting
  | @reaped q v found finished =>
      intro p u here waiting
      rcases eq_or_ne p q with rfl | differs
      · simp at here
      · exact joined p u (by simpa [differs] using here) waiting
  | reprioritized => exact joined.edit fun _ _ waiting => ⟨waiting, rfl⟩
  | @regrouped pid v g found running =>
      apply joined.edit
      intro u here waiting
      have was : u.state = .running := by
        rw [← some_inj.mp (found.symm.trans here)]
        exact running
      rw [was] at waiting
      cases waiting

theorem Joined.moves (joined : b.Joined) (moved : Relation.ReflTransGen (Move scope) b b') :
    b'.Joined := by
  induction moved with
  | refl => exact joined
  | tail _ moved ih => exact ih.move moved

end Board

namespace Ledger

variable {l l' l'' : Ledger} {d pid : Pid}

/-- A process is where it was, with its tag and its value, or it was taken out of its group and
answered with `~0`. -/
def Keeps (l l' : Ledger) (d : Pid) : Prop :=
  ∀ o, l.own d = some o → ∃ o', l'.own d = some o' ∧ o'.rendtag = o.rendtag ∧
    o'.status = o.status ∧ (o'.rendval = o.rendval ∧ (∀ g, d ∈ l.rgrps g → d ∈ l'.rgrps g) ∨
      o'.rendval = 2 ^ 64 - 1 ∧ (∃ g, d ∈ l.rgrps g) ∧ ∀ g, d ∉ l'.rgrps g)

/-- Groups only lose members, and those of some processes as `Keeps` says. -/
structure Thins (who : Pid → Prop) (l l' : Ledger) : Prop where
  groups : ∀ g, (l'.rgrps g).Sublist (l.rgrps g)
  keeps : ∀ d, who d → l.Keeps l' d

variable {who : Pid → Prop}

theorem Thins.trans (before : l.Thins who l') (after : l'.Thins who l'') : l.Thins who l'' where
  groups g := (after.groups g).trans (before.groups g)
  keeps d mine o here := by
    rcases before.keeps d mine o here with ⟨o', there, tag, status, how⟩
    rcases after.keeps d mine o' there with ⟨o'', found, tag', status', how'⟩
    refine ⟨o'', found, tag'.trans tag, status'.trans status, ?_⟩
    rcases how with ⟨same, stays⟩ | ⟨out, was, gone⟩
    · rcases how' with ⟨same', stays'⟩ | ⟨out', ⟨g, was'⟩, gone'⟩
      · exact .inl ⟨same'.trans same, fun g inside => stays' g (stays g inside)⟩
      · exact .inr ⟨out', ⟨g, (before.groups g).subset was'⟩, gone'⟩
    · rcases how' with ⟨same', -⟩ | ⟨-, ⟨g, was'⟩, -⟩
      · exact .inr ⟨same'.trans out, was, fun g inside => gone g ((after.groups g).subset inside)⟩
      · exact absurd was' (gone g)

theorem Thins.of_own (groups : l'.rgrps = l.rgrps)
    (keeps : ∀ d, who d → ∀ o, l.own d = some o → ∃ o', l'.own d = some o' ∧
      o'.rendtag = o.rendtag ∧ o'.rendval = o.rendval ∧ o'.status = o.status) :
    l.Thins who l' where
  groups g := by rw [groups]
  keeps d mine o here := by
    rcases keeps d mine o here with ⟨o', there, tag, val, status⟩
    exact ⟨o', there, tag, status, .inl ⟨val, fun g inside => groups ▸ inside⟩⟩

theorem Thins.same (own : l'.own = l.own) (groups : l'.rgrps = l.rgrps) : l.Thins who l' :=
  .of_own groups fun _ _ o here => ⟨o, own ▸ here, rfl, rfl, rfl⟩

theorem Thins.edit {f : Own → Own} (same : who pid → ∀ o, l.own pid = some o →
    (f o).rendtag = o.rendtag ∧ (f o).rendval = o.rendval ∧ (f o).status = o.status) :
    l.Thins who (l.edit pid f) := by
  have groups : (l.edit pid f).rgrps = l.rgrps := rfl
  apply Thins.of_own groups
  intro d mine o here
  rcases eq_or_ne d pid with rfl | differs
  · exact ⟨f o, by simp [Ledger.edit, here], same mine o here⟩
  · exact ⟨o, by simp [Ledger.edit, differs, here], rfl, rfl, rfl⟩

theorem Thins.update {o : Option Own} {next : Pid} (apart : ¬who pid) : l.Thins who { l with
    own := update l.own pid o, next := next } := by
  apply Thins.of_own (by rfl)
  intro d mine o' here
  have differs : d ≠ pid := by
    rintro rfl
    exact apart mine
  exact ⟨o', by simpa [differs] using here, rfl, rfl, rfl⟩

theorem Thins.pull {g : Nat} (inside : pid ∈ l.rgrps g)
    (alone : ∀ g', pid ∈ l.rgrps g' → g' = g) : l.Thins who (l.pull pid g) where
  groups g' := by
    rcases eq_or_ne g' g with rfl | differs
    · simp [Ledger.pull]
    · simp [Ledger.pull, differs]
  keeps d _ o here := by
    rcases eq_or_ne d pid with rfl | differs
    · refine ⟨{ o with rendval := 2 ^ 64 - 1 }, by simp [Ledger.pull, Ledger.edit, here], rfl,
        rfl, .inr ⟨rfl, ⟨g, inside⟩, fun g' there => ?_⟩⟩
      rcases eq_or_ne g' g with rfl | apart
      · simp [Ledger.pull] at there
      · exact apart (alone g' (by simpa [Ledger.pull, apart] using there))
    · refine ⟨o, by simp [Ledger.pull, Ledger.edit, differs, here], rfl, rfl, .inl ⟨rfl, ?_⟩⟩
      intro g' there
      rcases eq_or_ne g' g with rfl | apart
      · simp [Ledger.pull, there, differs]
      · simpa [Ledger.pull, apart] using there

end Ledger

namespace Procs

variable {s s' : Procs} {pid : Pid} {who : Pid → Prop}

theorem thins_postnote (msg : String) (flag : NoteFlag) (wf : s.board.Wf)
    (joined : s.board.Joined) :
    s.ledger.Thins who (s.postnote pid msg flag).2.ledger := by
  rcases found : s.tab pid with _ | p
  · rw [ledger_postnote_none msg flag found]
    exact .same rfl rfl
  · have noted : s.ledger.Thins who (s.ledger.edit pid (Own.addnote msg flag)) :=
      .edit fun _ _ _ => ⟨rfl, rfl, rfl⟩
    rw [ledger_postnote msg flag found]
    split_ifs with waiting
    · apply noted.trans
      apply Ledger.Thins.pull
      · exact joined pid p.view (board_view found) waiting
      · intro g inside
        rcases wf.grouped g pid inside with ⟨v, here, -, same⟩
        rw [board_view found, some_inj] at here
        rw [← same, ← here]
        rfl
    · exact noted

theorem thins_pgrpnote (order : List Pid) (up : Pid) (noteid : Nat) (msg : String)
    (flag : NoteFlag) (inv : s.board.Inv) (joined : s.board.Joined) :
    s.ledger.Thins who (s.pgrpnote order up noteid msg flag).ledger := by
  have walk (list : List Pid) (s : Procs) (inv : s.board.Inv) (joined : s.board.Joined) :
      s.ledger.Thins who (list.foldl (fun s pid => (s.postnote pid msg flag).2) s).ledger := by
    induction list generalizing s with
    | nil => exact .same rfl rfl
    | cons d rest ih =>
        have posted : Moves Scope.any s (s.postnote d msg flag).2 := (steps_postnote msg flag).rise
        exact (thins_postnote msg flag inv.wf joined).trans
          (ih _ (posted.inv inv) (joined.moves posted))
  exact walk _ s inv joined

theorem state_postnote {p : Proc} {msg : String} {flag : NoteFlag} (found : s.tab pid = some p)
    (waiting : p.state = .rendezvous) : (s.postnote pid msg flag).2.state pid = .ready := by
  let t := ((s.modify pid (Proc.addnote msg flag)).modify pid fun p =>
    { p with rendval := 2 ^ 64 - 1 }).leavergrp p.rgrp pid
  have there : t.tab pid = some { Proc.addnote msg flag p with rendval := 2 ^ 64 - 1 } := by
    change ((s.modify pid (Proc.addnote msg flag)).modify pid _).tab pid = _
    rw [modify_tab_self, modify_tab_self, found]
    rfl
  rcases board_ready (board_view there) with ⟨pri, -, same⟩
  have view : (t.ready pid).board.view pid ≠ none ∧
      ∀ v, (t.ready pid).board.view pid = some v → v.state = .ready := by
    rw [same]
    simp [Board.queue, Board.edit, board_view there]
  have posted : (s.postnote pid msg flag).2 = t.ready pid := by
    simp only [postnote, found, waiting]
    rfl
  rw [posted]
  rcases readied : (t.ready pid).tab pid with _ | q
  · exact absurd (by simp [board, readied]) view.1
  · rw [state, readied]
    exact view.2 q.view (board_view readied)

def Noting : Act → Prop
  | .postnote .. | .pgrpnote .. => True
  | _ => False

theorem rgrps_step {a : Act} (quiet : ¬Noting a) (apart : Meets.Apart a) :
    (s.step a).rgrps = s.rgrps := by
  by_cases calm : Calm a
  · rcases ledger_calm (s := s) calm with ⟨ticks, same⟩
    exact congrArg Ledger.rgrps same
  · cases a with
    | rfork pid flags =>
        rcases forked : s.sysrfork pid flags with _ | ⟨made, s'⟩
        · simp only [step, forked]
        · simp only [step, forked]
          rcases ledger_sysrfork forked with ⟨parent, -, ⟨-, born⟩ | ⟨-, changed⟩⟩
          · exact congrArg Ledger.rgrps born
          · exact congrArg Ledger.rgrps changed
    | kproc up name user => exact congrArg Ledger.rgrps (ledger_kproc up name user)
    | exits pid status =>
        rcases found : s.tab pid with _ | p
        · simp only [step, exits, found]
        · exact congrArg Ledger.rgrps (ledger_exits status found)
    | addbroken pid =>
        have kept : (s.step (.addbroken pid)).ledger = _ := ledger_addbroken
        exact congrArg Ledger.rgrps kept
    | unbreak pid =>
        have gone : (s.step (.unbreak pid)).ledger = _ := ledger_unbreak
        exact congrArg Ledger.rgrps gone
    | awaitChild order pid =>
        rcases ledger_awaitChild (s := s) order pid with ⟨c, p, -, -, same⟩ | same
        · exact congrArg Ledger.rgrps same
        · exact congrArg Procs.rgrps same
    | edit pid f => rfl
    | postnote | pgrpnote => exact absurd trivial quiet
    | rendezvous => exact absurd apart id
    | _ => exact absurd trivial calm

theorem thins_step {a : Act} (inv : s.board.Inv) (joined : s.board.Joined)
    (apart : Meets.Apart a) (actor : ∀ d, a.actor = some d → ¬who d)
    (lives : ∀ d, who d → ∃ o, s.ledger.own d = some o ∧ o.status = none) :
    s.ledger.Thins who (s.step a).ledger := by
  have fresh : ¬who s.next := by
    intro mine
    rcases lives s.next mine with ⟨o, own, -⟩
    rcases tab_of_own own with ⟨p, found, -⟩
    exact absurd (inv.wf.known (board_view found)) (lt_irrefl _)
  by_cases calm : Calm a
  · rcases ledger_calm (s := s) calm with ⟨ticks, same⟩
    rw [same]
    exact .same rfl rfl
  · cases a with
    | postnote pid msg flag => exact thins_postnote msg flag inv.wf joined
    | pgrpnote order up noteid msg flag => exact thins_pgrpnote order up noteid msg flag inv joined
    | rfork pid flags =>
        rcases forked : s.sysrfork pid flags with _ | ⟨made, s'⟩
        · simp only [step, forked]
          exact .same rfl rfl
        · simp only [step, forked]
          rcases ledger_sysrfork forked with ⟨parent, -, ⟨-, born⟩ | ⟨-, changed⟩⟩
          · rw [born]
            exact .update fresh
          · rw [changed]
            exact .edit fun mine => absurd mine (actor pid rfl)
    | kproc up name user =>
        have made : (s.step (.kproc up name user)).ledger = _ := ledger_kproc up name user
        rw [made]
        exact .update fresh
    | exits pid status =>
        rcases found : s.tab pid with _ | p
        · simp only [step, exits, found]
          exact .same rfl rfl
        · have ended : (s.step (.exits pid status)).ledger = _ := ledger_exits status found
          rw [ended]
          exact .edit fun mine => absurd mine (actor pid rfl)
    | addbroken pid =>
        have kept : (s.step (.addbroken pid)).ledger = _ := ledger_addbroken
        rw [kept]
        exact .same rfl rfl
    | unbreak pid =>
        have gone : (s.step (.unbreak pid)).ledger = _ := ledger_unbreak
        rw [gone]
        exact .same rfl rfl
    | awaitChild order pid =>
        rcases ledger_awaitChild (s := s) order pid with ⟨c, p, found, finished, same⟩ | same
        · have left : (s.step (.awaitChild order pid)).ledger = _ := same
          rw [left]
          apply Ledger.Thins.update
          intro mine
          rcases lives c mine with ⟨o, own, alive⟩
          rw [own_eq found, some_inj] at own
          subst own
          have none : p.status = none := alive
          simp [none] at finished
        · have left : s.step (.awaitChild order pid) = s := same
          rw [left]
          exact .same rfl rfl
    | rendezvous => exact absurd apart id
    | edit pid f =>
        apply Ledger.Thins.of_own
        · rfl
        · intro d _ o here
          rcases tab_of_own here with ⟨p, found, rfl⟩
          rcases eq_or_ne d pid with rfl | differs
          · refine ⟨(f p).own, ?_, apart p⟩
            have there : (s.modify d f).tab d = some (f p) := by rw [modify_tab_self, found]; rfl
            exact own_eq there
          · refine ⟨p.own, ?_, rfl, rfl, rfl⟩
            have there : (s.modify pid f).tab d = some p := by
              rw [modify_tab_of_ne s pid f differs, found]
            exact own_eq there
    | _ => exact absurd trivial calm

end Procs

namespace Procs

variable {s : Procs} {pid q : Pid} {p : Proc} {tag val : Nat}

theorem ledger_reset : (s.modify pid fun p => { p with rendval := 2 ^ 64 - 1 }).ledger =
    s.ledger.edit pid fun o => { o with rendval := 2 ^ 64 - 1 } := ledger_modify fun _ => rfl

theorem ledger_met (found : s.tab pid = some p) (waiter : s.waiter p.rgrp tag = some q) :
    (s.rendezvous pid tag val).ledger =
      { (s.ledger.edit pid fun o => { o with rendval := 2 ^ 64 - 1 }).edit q
          fun o => { o with rendval := val } with
        rgrps := update s.rgrps p.rgrp ((s.rgrps p.rgrp).erase q) } := by
  rcases rendezvous_cases tag val found with ⟨q', waiter', same⟩ | ⟨absent, -⟩
  · obtain rfl : q = q' := some_inj.mp (waiter.symm.trans waiter')
    rw [same, ledger_meet, ledger_reset]
    rfl
  · simp [waiter] at absent

theorem ledger_gathered (found : s.tab pid = some p) (absent : s.waiter p.rgrp tag = none) :
    (s.rendezvous pid tag val).ledger =
      { (s.ledger.edit pid fun o => { o with rendval := 2 ^ 64 - 1 }).edit pid
          fun o => { o with rendtag := tag, rendval := val } with
        rgrps := update s.rgrps p.rgrp (s.rgrps p.rgrp ++ [pid]) } := by
  rcases rendezvous_cases tag val found with ⟨q', waiter, -⟩ | ⟨-, same⟩
  · simp [absent] at waiter
  · rw [same, ledger_gather, ledger_reset]
    rfl

end Procs

namespace Exchange

variable {e : Exchange Ask} {n v : Nat} {a : Ask}

theorem Answer.arrive (answer : e.Answer n v) (a : Ask) : (e.arrive Ask.key a).Answer n v := by
  have grows (m n : Nat) (partners : e.Partners m n) : (e.arrive Ask.key a).Partners m n := by
    rw [Exchange.arrive]
    split
    · exact partners.imp (mem_append_left _) (mem_append_left _)
    · exact partners
  rcases answer with ⟨m, b, partners, here, same⟩ | ⟨gone, none⟩
  · exact .inl ⟨m, b, grows n m partners, asks_arrive here, same⟩
  · refine .inr ⟨?_, none⟩
    rw [Exchange.arrive]
    split <;> exact gone

theorem Answer.placed (answer : e.Answer n v) : n ∈ e.places := by
  rw [Exchange.mem_places]
  rcases answer with ⟨m, b, partners, -⟩ | ⟨gone, -⟩
  · rcases partners.mem with first | second
    · exact .inr (.inl first)
    · exact .inr (.inr (.inl second))
  · exact .inr (.inr (.inr gone))

theorem Answer.withdraw (answer : e.Answer n v) (stays : Nat → Bool) :
    (e.withdraw stays).Answer n v := by
  rcases answer with partner | ⟨gone, none⟩
  · exact .inl partner
  · exact .inr ⟨mem_append_left _ gone, none⟩

end Exchange

namespace Meets

/-- The calls, the groups and the processes agree. -/
structure Inv (w : Meets) : Prop where
  board : w.procs.board.Inv
  joined : w.procs.board.Joined
  exchange : w.exchange.Inv Ask.key
  mine : ∀ d n, w.pending d = some n →
    (∃ o, w.procs.ledger.own d = some o ∧ o.status = none) ∧
      ∃ a, w.exchange.asks[n]? = some a ∧ a.pid = d
  groups : ∀ g d, d ∈ w.procs.rgrps g → ∃ n ∈ w.exchange.waits, w.pending d = some n
  waits : ∀ n ∈ w.exchange.waits, ∃ a, w.exchange.asks[n]? = some a ∧ w.pending a.pid = some n ∧
    a.pid ∈ w.procs.rgrps a.group ∧ ∃ o, w.procs.ledger.own a.pid = some o ∧
      o.rendtag = a.tag ∧ o.rendval = a.val
  answers : ∀ d n, w.pending d = some n → n ∉ w.exchange.waits →
    ∃ o, w.procs.ledger.own d = some o ∧ w.exchange.Answer n o.rendval
  strangers : ∀ m n a b, (m, n) ∈ w.exchange.met → w.exchange.asks[m]? = some a →
    w.exchange.asks[n]? = some b → a.pid ≠ b.pid
  out : ∀ n v, (n, v) ∈ w.out → w.exchange.Answer n v
  once : (w.out.map Prod.fst).Nodup
  apart : ∀ d n, w.pending d = some n → n ∉ w.out.map Prod.fst
  each : ∀ n < w.exchange.asks.length, n ∈ w.out.map Prod.fst ∨ ∃ d, w.pending d = some n

variable {w : Meets} {pid q : Pid} {g tag val n : Nat}

theorem inv_new : Inv new where
  board := Procs.inv_new
  joined := by
    intro pid v found waiting
    rcases Procs.new_view found with ⟨-, rfl⟩
    cases waiting
  exchange := Exchange.inv_empty
  mine _ _ here := by cases here
  groups _ _ inside := by cases inside
  waits _ there := by cases there
  answers _ _ here := by cases here
  strangers _ _ _ _ there := by cases there
  out _ _ there := by cases there
  once := nodup_nil
  apart _ _ here := by cases here
  each _ less := by cases less

section Inv

variable (inv : w.Inv)

include inv

theorem Inv.one {g' : Nat} (inside : q ∈ w.procs.rgrps g)
    (inside' : q ∈ w.procs.rgrps g') : g = g' := by
  rcases inv.board.wf.grouped g q inside with ⟨v, found, -, rfl⟩
  rcases inv.board.wf.grouped g' q inside' with ⟨v', found', -, rfl⟩
  rw [some_inj.mp (found.symm.trans found')]

theorem Inv.member (inside : q ∈ w.procs.rgrps g) :
    ∃ n ∈ w.exchange.waits, ∃ a, w.exchange.asks[n]? = some a ∧ a.pid = q ∧ a.group = g ∧
      w.pending q = some n ∧
      ∃ o, w.procs.ledger.own q = some o ∧ o.rendtag = a.tag ∧ o.rendval = a.val := by
  rcases inv.groups g q inside with ⟨n, waits, pending⟩
  rcases inv.waits n waits with ⟨a, here, -, grouped, own⟩
  rcases (inv.mine q n pending).2 with ⟨b, there, mine⟩
  obtain rfl : a = b := some_inj.mp (here.symm.trans there)
  subst mine
  exact ⟨n, waits, a, here, rfl, inv.one grouped inside, pending, own⟩

theorem Inv.waiter (found : w.procs.waiter g tag = some q) :
    q ∈ w.procs.rgrps g ∧ ∃ m a, w.exchange.partner Ask.key (g, tag) = some m ∧
      m ∈ w.exchange.waits ∧ w.exchange.asks[m]? = some a ∧ a.pid = q ∧ a.group = g ∧
        w.pending q = some m ∧ rendval w.procs q = a.val := by
  have inside : q ∈ w.procs.rgrps g := mem_of_find?_eq_some found
  have tagged := List.find?_some found
  rcases inv.member inside with ⟨m, waits, a, here, mine, group, pending, o, own, tag', val⟩
  rcases tab_of_own own with ⟨p, there, rfl⟩
  have same : p.rendtag = tag := by simpa [there] using tagged
  have key : a.key = (g, tag) := Prod.ext group (tag'.symm.trans same)
  refine ⟨inside, m, a, ?_, waits, here, mine, group, pending, ?_⟩
  · rw [← key]
    exact inv.exchange.partner_eq waits here
  · rw [rendval, there]
    exact val

theorem Inv.no_waiter (absent : w.procs.waiter g tag = none) :
    w.exchange.partner Ask.key (g, tag) = none := by
  rcases found : w.exchange.partner Ask.key (g, tag) with _ | m
  · rfl
  · rcases Exchange.partner_some found with ⟨waits, a, here, key⟩
    rcases inv.waits m waits with ⟨b, there, -, inside, o, own, tagged, -⟩
    obtain rfl : a = b := some_inj.mp (here.symm.trans there)
    rcases tab_of_own own with ⟨p, found', rfl⟩
    rw [Ask.key, Prod.mk.injEq] at key
    have inside' : a.pid ∈ w.procs.rgrps g := key.1 ▸ inside
    have tagged' : p.rendtag = a.tag := tagged
    have not := List.find?_eq_none.mp absent a.pid inside'
    simp [found', tagged', key.2] at not

theorem Inv.outside (active : w.procs.Active pid) (g : Nat) : pid ∉ w.procs.rgrps g := by
  intro inside
  rcases active with ⟨-, p, found, running, -⟩
  rcases inv.board.wf.grouped g pid inside with ⟨v, here, waiting, -⟩
  rw [board_view found, some_inj] at here
  subst here
  rw [Proc.view, running] at waiting
  cases waiting

omit inv in
theorem Inv.table {a : Act} (inv : w.Inv) (called : w.Called (.table a)) : (w.table a).Inv := by
  have thins : w.procs.ledger.Thins (fun d => (w.pending d).isSome) (w.procs.step a).ledger := by
    apply Procs.thins_step inv.board inv.joined called.2.1
    · intro d mine
      simp [called.2.2 d mine]
    · intro d mine
      rcases isSome_iff_exists.mp mine with ⟨n, pending⟩
      exact (inv.mine d n pending).1
  have moves : Procs.Moves Scope.any w.procs (w.procs.step a) :=
    moves_step inv.board called.1 (within_any a)
  have board := moves.inv inv.board
  have stayed (n : Nat) (ask : Ask) (here : w.exchange.asks[n]? = some ask) :
      stays w.exchange (w.procs.step a) n = true ↔
        ask.pid ∈ (w.procs.step a).rgrps ask.group := by
    simp [stays, here]
  have keep (d : Pid) (n : Nat) (pending : w.pending d = some n) :=
    thins.keeps d (isSome_iff_exists.mpr ⟨n, pending⟩)
  refine ⟨board, inv.joined.moves moves, inv.exchange.withdraw _, fun d n pending => ?_,
    fun g d inside => ?_, fun n there => ?_, fun d n pending gone => ?_, inv.strangers,
    fun n v there => (inv.out n v there).withdraw _, inv.once, inv.apart, inv.each⟩
  · rcases inv.mine d n pending with ⟨⟨o, own, alive⟩, asked⟩
    rcases keep d n pending o own with ⟨o', own', -, status, -⟩
    exact ⟨⟨o', own', status.trans alive⟩, asked⟩
  · have before : d ∈ w.procs.rgrps g := (thins.groups g).subset inside
    rcases inv.member before with ⟨n, waits, ask, here, rfl, rfl, pending, -⟩
    exact ⟨n, mem_filter.mpr ⟨waits, (stayed n ask here).mpr inside⟩, pending⟩
  · rcases mem_filter.mp there with ⟨waits, still⟩
    rcases inv.waits n waits with ⟨ask, here, pending, inside, o, own, tag, val⟩
    have inside' := (stayed n ask here).mp still
    rcases keep ask.pid n pending o own with ⟨o', own', tag', -, ⟨val', -⟩ | ⟨-, -, gone⟩⟩
    · exact ⟨ask, here, pending, inside', o', own', tag'.trans tag, val'.trans val⟩
    · exact absurd inside' (gone ask.group)
  · by_cases waits : n ∈ w.exchange.waits
    · rcases inv.waits n waits with ⟨ask, here, pending', inside, o, own, -⟩
      rcases (inv.mine d n pending).2 with ⟨ask', there, rfl⟩
      obtain rfl : ask = ask' := some_inj.mp (here.symm.trans there)
      have left : stays w.exchange (w.procs.step a) n = false := by
        rw [← Bool.not_eq_true]
        exact fun still => gone (mem_filter.mpr ⟨waits, still⟩)
      rcases keep ask.pid n pending o own with ⟨o', own', -, -, ⟨-, stayed'⟩ | ⟨none, -, -⟩⟩
      · have still := (stayed n ask here).mpr (stayed' ask.group inside)
        simp [left] at still
      · refine ⟨o', own', .inr ⟨mem_append_right _ ?_, none⟩⟩
        exact mem_filter.mpr ⟨waits, by rw [left]; rfl⟩
    · rcases inv.answers d n pending waits with ⟨o, own, answer⟩
      rcases keep d n pending o own with ⟨o', own', -, -, ⟨val, -⟩ | ⟨-, ⟨g, inside⟩, -⟩⟩
      · exact ⟨o', own', val ▸ answer.withdraw _⟩
      · rcases inv.member inside with ⟨m, waits', -, -, -, -, pending', -⟩
        obtain rfl : n = m := some_inj.mp (pending.symm.trans pending')
        exact absurd waits' waits

theorem Inv.pending_lt {d : Pid} (pending : w.pending d = some n) : n < w.exchange.asks.length := by
  rcases (inv.mine d n pending).2 with ⟨a, here, -⟩
  exact (List.getElem?_eq_some_iff.mp here).1

theorem Inv.out_lt (finished : n ∈ w.out.map Prod.fst) : n < w.exchange.asks.length := by
  rcases mem_map.mp finished with ⟨⟨n, v⟩, there, rfl⟩
  exact inv.exchange.known (inv.out n v there).placed

theorem Inv.strangers_old {m k : Nat} {x y : Ask} (a : Ask)
    (there : (m, k) ∈ w.exchange.met) (here : (w.exchange.asks ++ [a])[m]? = some x)
    (here' : (w.exchange.asks ++ [a])[k]? = some y) : x.pid ≠ y.pid := by
  rcases inv.exchange.paired m k there with ⟨x', y', first, second, -⟩
  rw [List.getElem?_append_left (List.getElem?_eq_some_iff.mp first).1] at here
  rw [List.getElem?_append_left (List.getElem?_eq_some_iff.mp second).1] at here'
  exact inv.strangers m k x y there here here'

theorem Inv.met {p : Proc} (called : w.Called (.rendezvous pid tag val))
    (found : w.procs.tab pid = some p) (waiter : w.procs.waiter p.rgrp tag = some q) :
    Inv { w with
      procs := w.procs.rendezvous pid tag val
      exchange := w.exchange.arrive Ask.key ⟨pid, p.rgrp, tag, val⟩
      out := w.out ++ [(w.exchange.asks.length, rendval w.procs q)] } := by
  rcases called with ⟨active, free⟩
  rcases inv.waiter waiter with ⟨inside, m, b, partner, waits, here, mine, group, pending, given⟩
  have moves : Procs.Moves Scope.any w.procs (w.procs.rendezvous pid tag val) :=
    moves_step (a := .rendezvous pid tag val) inv.board active (within_any _)
  have ledger : (w.procs.rendezvous pid tag val).ledger = _ := Procs.ledger_met found waiter
  have groups : (w.procs.rendezvous pid tag val).rgrps =
      update w.procs.rgrps p.rgrp ((w.procs.rgrps p.rgrp).erase q) :=
    congrArg Ledger.rgrps ledger
  have members : (w.procs.rgrps p.rgrp).Nodup := inv.board.wf.nodup p.rgrp
  have differs : q ≠ pid := by
    rintro rfl
    simp [free] at pending
  have same (d : Pid) (elsewhere : d ≠ q) (away : d ≠ pid) :
      (w.procs.rendezvous pid tag val).ledger.own d = w.procs.ledger.own d := by
    rw [ledger]
    simp [Ledger.edit, elsewhere, away]
  have answered (o : Own) (own : w.procs.ledger.own q = some o) :
      (w.procs.rendezvous pid tag val).ledger.own q = some { o with rendval := val } := by
    rw [ledger]
    simp [Ledger.edit, differs, own]
  have away (d : Pid) (n : Nat) (pending : w.pending d = some n) : d ≠ pid := by
    rintro rfl
    simp [free] at pending
  have whose (d : Pid) (n : Nat) (pending' : w.pending d = some n) : n = m ↔ d = q := by
    constructor
    · rintro rfl
      rcases (inv.mine d n pending').2 with ⟨a, there, rfl⟩
      rw [← mine, some_inj.mp (here.symm.trans there)]
    · rintro rfl
      exact some_inj.mp (pending'.symm.trans pending)
  have exchange := inv.exchange.arrive ⟨pid, p.rgrp, tag, val⟩
  have arrived := Exchange.arrive_met (a := (⟨pid, p.rgrp, tag, val⟩ : Ask)) partner
  have nodup : w.exchange.waits.Nodup := (nodup_append.mp inv.exchange.nodup).1
  have met : (w.exchange.arrive Ask.key ⟨pid, p.rgrp, tag, val⟩).Partners m
      w.exchange.asks.length := by
    rw [arrived]
    exact .inl (mem_append_right _ (mem_singleton_self _))
  refine ⟨moves.inv inv.board, inv.joined.moves moves, exchange, fun d n pending' => ?_,
    fun g d inside' => ?_, fun n there => ?_, fun d n pending' gone => ?_,
    fun k n x y there first second => ?_, fun n v there => ?_, ?_, fun d n pending' finished => ?_,
    fun n less => ?_⟩
  · rcases inv.mine d n pending' with ⟨⟨o, own, alive⟩, a, asked, whom⟩
    refine ⟨?_, a, Exchange.asks_arrive asked, whom⟩
    by_cases here' : d = q
    · subst here'
      exact ⟨_, answered o own, alive⟩
    · exact ⟨o, (same d here' (away d n pending')).trans own, alive⟩
  · have before : d ∈ w.procs.rgrps g ∧ d ≠ q := by
      change d ∈ (w.procs.rendezvous pid tag val).rgrps g at inside'
      rw [groups] at inside'
      rcases eq_or_ne g p.rgrp with rfl | apart
      · rw [update_self, members.mem_erase_iff] at inside'
        exact inside'.symm
      · rw [update_of_ne apart] at inside'
        refine ⟨inside', ?_⟩
        rintro rfl
        exact apart (inv.one inside' inside)
    rcases inv.member before.1 with ⟨n, waits', a, -, -, -, pending', -⟩
    refine ⟨n, ?_, pending'⟩
    rw [arrived]
    exact (mem_erase_of_ne fun is => before.2 ((whose d n pending').mp is)).mpr waits'
  · rw [arrived, nodup.mem_erase_iff] at there
    rcases inv.waits n there.2 with ⟨a, asked, pending', inside', o, own, tagged, valued⟩
    have elsewhere : a.pid ≠ q := fun is => there.1 ((whose _ n pending').mpr is)
    refine ⟨a, Exchange.asks_arrive asked, pending', ?_, o, ?_, tagged, valued⟩
    · change a.pid ∈ (w.procs.rendezvous pid tag val).rgrps a.group
      rw [groups]
      rcases eq_or_ne a.group p.rgrp with is | apart
      · rw [is] at inside' ⊢
        rw [update_self]
        exact (mem_erase_of_ne elsewhere).mpr inside'
      · rwa [update_of_ne apart]
    · exact (same _ elsewhere (away _ n pending')).trans own
  · rcases eq_or_ne d q with rfl | elsewhere
    · obtain rfl := (whose d n pending').mpr rfl
      rcases inv.mine d n pending with ⟨⟨o, own, -⟩, -⟩
      exact ⟨_, answered o own, .inl ⟨_, _, met, Exchange.asks_arrive_self, rfl⟩⟩
    · have out : n ∉ w.exchange.waits := by
        intro waits'
        apply gone
        rw [arrived]
        exact (mem_erase_of_ne fun is => elsewhere ((whose d n pending').mp is)).mpr waits'
      rcases inv.answers d n pending' out with ⟨o, own, answer⟩
      exact ⟨o, (same d elsewhere (away d n pending')).trans own, answer.arrive _⟩
  · rw [arrived] at there first second
    rcases mem_append.mp there with before | last
    · exact inv.strangers_old _ before first second
    · simp only [mem_singleton, Prod.mk.injEq] at last
      rcases last with ⟨rfl, rfl⟩
      rw [List.getElem?_append_left (List.getElem?_eq_some_iff.mp here).1, here,
        some_inj] at first
      have caller : y = ⟨pid, p.rgrp, tag, val⟩ := by simpa using second.symm
      rw [← first, mine, caller]
      exact differs
  · rcases mem_append.mp there with before | last
    · exact (inv.out n v before).arrive _
    · simp only [mem_singleton, Prod.mk.injEq] at last
      rcases last with ⟨rfl, rfl⟩
      exact .inl ⟨m, b, met.symm, Exchange.asks_arrive here, given⟩
  · rw [map_append, nodup_append]
    refine ⟨inv.once, nodup_singleton _, fun x before y last => ?_⟩
    have less := inv.out_lt before
    simp only [map_cons, map_nil, mem_singleton] at last
    omega
  · rw [map_append, mem_append] at finished
    rcases finished with before | last
    · exact inv.apart d n pending' before
    · have less := inv.pending_lt pending'
      simp only [map_cons, map_nil, mem_singleton] at last
      omega
  · rw [map_append, mem_append]
    rcases eq_or_ne n w.exchange.asks.length with rfl | earlier
    · exact .inl (.inr (by simp))
    · rw [Exchange.length_arrive] at less
      exact (inv.each n (by omega)).imp .inl id

theorem Inv.gathered {p : Proc} (called : w.Called (.rendezvous pid tag val))
    (found : w.procs.tab pid = some p) (absent : w.procs.waiter p.rgrp tag = none) :
    Inv { w with
      procs := w.procs.rendezvous pid tag val
      exchange := w.exchange.arrive Ask.key ⟨pid, p.rgrp, tag, val⟩
      pending := update w.pending pid (some w.exchange.asks.length) } := by
  rcases called with ⟨active, free⟩
  have moves : Procs.Moves Scope.any w.procs (w.procs.rendezvous pid tag val) :=
    moves_step (a := .rendezvous pid tag val) inv.board active (within_any _)
  have ledger : (w.procs.rendezvous pid tag val).ledger = _ :=
    Procs.ledger_gathered found absent
  have groups : (w.procs.rendezvous pid tag val).rgrps =
      update w.procs.rgrps p.rgrp (w.procs.rgrps p.rgrp ++ [pid]) :=
    congrArg Ledger.rgrps ledger
  have same (d : Pid) (away : d ≠ pid) :
      (w.procs.rendezvous pid tag val).ledger.own d = w.procs.ledger.own d := by
    rw [ledger]
    simp [Ledger.edit, away]
  have left : (w.procs.rendezvous pid tag val).ledger.own pid =
      some { p.own with rendtag := tag, rendval := val } := by
    rw [ledger]
    simp [Ledger.edit, own_eq found]
  have alive : p.status = none := by
    rcases active with ⟨-, p', found', -, alive⟩
    rwa [some_inj.mp (found.symm.trans found')]
  have exchange := inv.exchange.arrive ⟨pid, p.rgrp, tag, val⟩
  have arrived := Exchange.arrive_wait (a := (⟨pid, p.rgrp, tag, val⟩ : Ask)) (inv.no_waiter absent)
  have waits' : (w.exchange.arrive Ask.key ⟨pid, p.rgrp, tag, val⟩).waits =
      w.exchange.waits ++ [w.exchange.asks.length] := congrArg Exchange.waits arrived
  have new : w.exchange.asks.length ∈
      (w.exchange.arrive Ask.key ⟨pid, p.rgrp, tag, val⟩).waits := by
    rw [waits']
    exact mem_append_right _ (mem_singleton_self _)
  have away (d : Pid) (n : Nat) (pending : w.pending d = some n) : d ≠ pid := by
    rintro rfl
    simp [free] at pending
  have caller (d : Pid) (n : Nat)
      (pending : update w.pending pid (some w.exchange.asks.length) d = some n) :
      d = pid ∧ n = w.exchange.asks.length ∨ d ≠ pid ∧ w.pending d = some n := by
    rcases eq_or_ne d pid with rfl | differs
    · rw [update_self, some_inj] at pending
      exact .inl ⟨rfl, pending.symm⟩
    · rw [update_of_ne differs] at pending
      exact .inr ⟨differs, pending⟩
  refine ⟨moves.inv inv.board, inv.joined.moves moves, exchange, fun d n pending => ?_,
    fun g d inside => ?_, fun n there => ?_, fun d n pending gone => ?_,
    fun k n x y there first second => ?_, fun n v there => (inv.out n v there).arrive _, inv.once,
    fun d n pending finished => ?_, fun n less => ?_⟩
  · rcases caller d n pending with ⟨rfl, rfl⟩ | ⟨differs, pending⟩
    · exact ⟨⟨_, left, alive⟩, _, Exchange.asks_arrive_self, rfl⟩
    · rcases inv.mine d n pending with ⟨⟨o, own, alive⟩, a, asked, whom⟩
      exact ⟨⟨o, (same d differs).trans own, alive⟩, a, Exchange.asks_arrive asked, whom⟩
  · change d ∈ (w.procs.rendezvous pid tag val).rgrps g at inside
    rw [groups] at inside
    rcases eq_or_ne d pid with rfl | differs
    · exact ⟨_, new, update_self ..⟩
    · have before : d ∈ w.procs.rgrps g := by
        rcases eq_or_ne g p.rgrp with rfl | apart
        · rw [update_self, mem_append, mem_singleton] at inside
          exact inside.resolve_right differs
        · rwa [update_of_ne apart] at inside
      rcases inv.groups g d before with ⟨n, waits, pending⟩
      refine ⟨n, ?_, (update_of_ne differs ..).trans pending⟩
      exact waits' ▸ mem_append_left _ waits
  · rw [waits', mem_append, mem_singleton] at there
    rcases there with waits | rfl
    · rcases inv.waits n waits with ⟨a, asked, pending, inside, o, own, tagged, valued⟩
      have differs := away a.pid n pending
      refine ⟨a, Exchange.asks_arrive asked, (update_of_ne differs ..).trans pending, ?_,
        o, (same _ differs).trans own, tagged, valued⟩
      change a.pid ∈ (w.procs.rendezvous pid tag val).rgrps a.group
      rw [groups]
      rcases eq_or_ne a.group p.rgrp with is | apart
      · rw [is] at inside ⊢
        rw [update_self]
        exact mem_append_left _ inside
      · rwa [update_of_ne apart]
    · refine ⟨_, Exchange.asks_arrive_self, update_self .., ?_, _, left, rfl, rfl⟩
      change pid ∈ (w.procs.rendezvous pid tag val).rgrps p.rgrp
      rw [groups, update_self]
      exact mem_append_right _ (mem_singleton_self _)
  · rcases caller d n pending with ⟨rfl, rfl⟩ | ⟨differs, pending⟩
    · exact absurd new gone
    · have out : n ∉ w.exchange.waits := fun waits =>
        gone (waits' ▸ mem_append_left _ waits)
      rcases inv.answers d n pending out with ⟨o, own, answer⟩
      exact ⟨o, (same d differs).trans own, answer.arrive _⟩
  · rw [arrived] at there first second
    exact inv.strangers_old _ there first second
  · rcases caller d n pending with ⟨rfl, rfl⟩ | ⟨differs, pending⟩
    · exact absurd (inv.out_lt finished) (lt_irrefl _)
    · exact inv.apart d n pending finished
  · rcases eq_or_ne n w.exchange.asks.length with rfl | earlier
    · exact .inr ⟨pid, update_self ..⟩
    · rw [Exchange.length_arrive] at less
      rcases inv.each n (by omega) with finished | ⟨d, pending⟩
      · exact .inl finished
      · exact .inr ⟨d, (update_of_ne (away d n pending) ..).trans pending⟩

theorem Inv.rendezvous (called : w.Called (.rendezvous pid tag val)) :
    (w.rendezvous pid tag val).Inv := by
  rw [Meets.rendezvous]
  split
  · exact inv
  · simp only
    split
    · exact inv.met called ‹_› ‹_›
    · exact inv.gathered called ‹_› ‹_›

theorem Inv.resume (called : w.Called (.resume pid)) : (w.resume pid).Inv := by
  rcases called with ⟨active, waiting⟩
  rcases isSome_iff_exists.mp waiting with ⟨k, mine⟩
  have still : k ∉ w.exchange.waits := by
    intro waits
    rcases inv.waits k waits with ⟨a, here, -, inside, -⟩
    rcases (inv.mine pid k mine).2 with ⟨b, there, rfl⟩
    rw [some_inj.mp (here.symm.trans there)] at inside
    exact inv.outside active _ inside
  have answer : w.exchange.Answer k (rendval w.procs pid) := by
    rcases inv.answers pid k mine still with ⟨o, own, answer⟩
    rcases tab_of_own own with ⟨p, found, rfl⟩
    rw [rendval, found]
    exact answer
  have other (d : Pid) (n : Nat) (pending : update w.pending pid none d = some n) :
      d ≠ pid ∧ w.pending d = some n := by
    rcases eq_or_ne d pid with rfl | differs
    · simp at pending
    · exact ⟨differs, by rwa [update_of_ne differs] at pending⟩
  have single (d : Pid) (pending : w.pending d = some k) : d = pid := by
    rcases (inv.mine d k pending).2 with ⟨a, here, rfl⟩
    rcases (inv.mine pid k mine).2 with ⟨b, there, rfl⟩
    rw [some_inj.mp (here.symm.trans there)]
  rw [Meets.resume, mine]
  refine ⟨inv.board, inv.joined, inv.exchange,
    fun d n pending => inv.mine d n (other d n pending).2, fun g d inside => ?_, fun n there => ?_,
    fun d n pending => inv.answers d n (other d n pending).2, inv.strangers,
        fun n v there => ?_, ?_,
    fun d n pending finished => ?_, fun n less => ?_⟩
  · rcases inv.groups g d inside with ⟨n, waits, pending⟩
    refine ⟨n, waits, (update_of_ne ?_ ..).trans pending⟩
    rintro rfl
    exact inv.outside active g inside
  · rcases inv.waits n there with ⟨a, asked, pending, inside, own⟩
    refine ⟨a, asked, (update_of_ne ?_ ..).trans pending, inside, own⟩
    rintro rfl
    exact inv.outside active _ inside
  · rcases mem_append.mp there with before | last
    · exact inv.out n v before
    · simp only [map_some, toList_some, mem_singleton, Prod.mk.injEq] at last
      rcases last with ⟨rfl, rfl⟩
      exact answer
  · simp only [map_some, toList_some, map_append, map_cons, map_nil]
    rw [nodup_append]
    refine ⟨inv.once, nodup_singleton _, fun x before y last => ?_⟩
    rw [mem_singleton] at last
    rintro rfl
    exact inv.apart pid k mine (last ▸ before)
  · simp only [map_some, toList_some, map_append, map_cons, map_nil,
      mem_append, mem_singleton] at finished
    rcases other d n pending with ⟨differs, pending'⟩
    rcases finished with before | rfl
    · exact inv.apart d n pending' before
    · exact differs (single d pending')
  · simp only [map_some, toList_some, map_append, map_cons, map_nil,
      mem_append, mem_singleton]
    rcases inv.each n less with finished | ⟨d, pending⟩
    · exact .inl (.inl finished)
    · rcases eq_or_ne d pid with rfl | differs
      · exact .inl (.inr (some_inj.mp (pending.symm.trans mine)))
      · exact .inr ⟨d, (update_of_ne differs ..).trans pending⟩

theorem Inv.step {a : MeetAct} (called : w.Called a) : (w.step a).Inv := by
  cases a with
  | table a => exact inv.table called
  | rendezvous pid tag val => exact inv.rendezvous called
  | resume pid => exact inv.resume called

omit inv in
theorem inv_of_reach (reached : meets.Reach Called w) : w.Inv := by
  refine System.Reach.invariant Inv (fun w first => ?_) (fun w a w' inv called moved => ?_) reached
  · exact first ▸ inv_new
  · exact moved ▸ inv.step called

def Waits (s : Procs) (g : Nat) (q : Pid) (tag : Nat) : Prop :=
  ∃ p, s.tab q = some p ∧ p.state = .rendezvous ∧ p.rgrp = g ∧ p.rendtag = tag

/-- What a call is due: what it answered, or will answer when its caller comes back to it. -/
def Due (w : Meets) (n v : Nat) : Prop :=
  (∀ v', (n, v') ∈ w.out → v' = v) ∧
    ∀ d, w.pending d = some n → rendval w.procs d = v ∧ w.procs.state d ≠ .rendezvous

structure Exchanged (w : Meets) : Prop where
  distinct : ∀ g q q' tag, Waits w.procs g q tag → Waits w.procs g q' tag → q = q'
  listed : ∀ g q, q ∈ w.procs.rgrps g ↔ ∃ tag, Waits w.procs g q tag
  two : ∀ m n, w.exchange.Partners m n → ∃ a b, w.exchange.asks[m]? = some a ∧
    w.exchange.asks[n]? = some b ∧ a.pid ≠ b.pid ∧ a.group = b.group ∧ a.tag = b.tag
  one : ∀ m n n', w.exchange.Partners m n → w.exchange.Partners m n' → n = n'
  met : ∀ m n b, w.exchange.Partners m n → w.exchange.asks[n]? = some b → w.Due m b.val
  left : ∀ n ∈ w.exchange.left, (∀ m, ¬w.exchange.Partners n m) ∧ w.Due n (2 ^ 64 - 1)
  answered : ∀ n ∈ w.out.map Prod.fst, n ∈ w.exchange.left ∨ ∃ m, w.exchange.Partners n m
  once : (w.out.map Prod.fst).Nodup
  each : ∀ n < w.exchange.asks.length, n ∈ w.out.map Prod.fst ∨ ∃ d, w.pending d = some n
  apart : ∀ d n, w.pending d = some n → n ∉ w.out.map Prod.fst

/-- A note takes a waiting process out of its group, answered with `~0`. -/
def Noted (w : Meets) : Prop :=
  ∀ q p msg flag, w.procs.tab q = some p → p.state = .rendezvous →
    (∀ g, q ∉ (w.table (.postnote q msg flag)).procs.rgrps g) ∧
      (w.table (.postnote q msg flag)).procs.state q = .ready ∧
      rendval (w.table (.postnote q msg flag)).procs q = 2 ^ 64 - 1 ∧
      ∃ n, w.pending q = some n ∧ n ∈ (w.table (.postnote q msg flag)).exchange.left

def Undisturbed (w : Meets) : Prop :=
  ∀ a, w.Called (.table a) → ¬Procs.Noting a → (w.table a).exchange = w.exchange

theorem Inv.waits_iff : q ∈ w.procs.rgrps g ↔ ∃ tag, Waits w.procs g q tag := by
  constructor
  · intro inside
    rcases inv.board.wf.grouped g q inside with ⟨v, here, waiting, group⟩
    rcases Procs.tab_of_board_view here with ⟨p, found, rfl⟩
    exact ⟨p.rendtag, p, found, waiting, group, rfl⟩
  · rintro ⟨tag, p, found, waiting, rfl, -⟩
    exact inv.joined q p.view (board_view found) waiting

theorem Inv.due {v : Nat} (out : n ∉ w.exchange.waits)
    (one : ∀ v', w.exchange.Answer n v' → v' = v) : w.Due n v := by
  refine ⟨fun v' there => one v' (inv.out n v' there), fun d pending => ?_⟩
  rcases inv.answers d n pending out with ⟨o, own, answer⟩
  rcases tab_of_own own with ⟨p, found, rfl⟩
  refine ⟨?_, fun waiting => ?_⟩
  · rw [rendval, found]
    exact one _ answer
  · rw [Procs.state, found] at waiting
    rcases inv.member (inv.joined d p.view (board_view found) waiting) with
      ⟨m, waits, -, -, -, -, pending', -⟩
    rw [some_inj.mp (pending.symm.trans pending')] at out
    exact out waits

theorem Inv.exchanged : w.Exchanged where
  __ := inv
  distinct g q q' tag waits waits' := by
    rcases inv.member (inv.waits_iff.mpr ⟨tag, waits⟩) with
      ⟨n, there, a, here, rfl, group, -, o, own, tagged, -⟩
    rcases inv.member (inv.waits_iff.mpr ⟨tag, waits'⟩) with
      ⟨n', there', a', here', rfl, group', -, o', own', tagged', -⟩
    rcases waits with ⟨p, found, -, -, same⟩
    rcases waits' with ⟨p', found', -, -, same'⟩
    rw [own_eq found, some_inj] at own
    rw [own_eq found', some_inj] at own'
    subst own own'
    have keys : a.key = a'.key := Prod.ext (group.trans group'.symm)
      (tagged.symm.trans ((same.trans same'.symm).trans tagged'))
    obtain rfl := inv.exchange.apart n there n' there' a a' here here' keys
    rw [some_inj.mp (here.symm.trans here')]
  listed g q := inv.waits_iff
  two m n partners := by
    rcases partners with first | second
    · rcases inv.exchange.paired m n first with ⟨a, b, here, there, keys⟩
      rw [Ask.key, Ask.key, Prod.mk.injEq] at keys
      exact ⟨a, b, here, there, inv.strangers m n a b first here there, keys⟩
    · rcases inv.exchange.paired n m second with ⟨a, b, here, there, keys⟩
      rw [Ask.key, Ask.key, Prod.mk.injEq] at keys
      exact ⟨b, a, there, here, (inv.strangers n m a b second here there).symm, keys.1.symm,
        keys.2.symm⟩
  one m n n' first second := inv.exchange.partner_unique first second
  met m n b partners here := by
    apply inv.due
    · exact fun waits => (inv.exchange.waiting waits).1 n partners
    · rintro v (⟨m', b', partners', here', rfl⟩ | ⟨gone, -⟩)
      · obtain rfl := inv.exchange.partner_unique partners partners'
        rw [some_inj.mp (here.symm.trans here')]
      · exact absurd partners (inv.exchange.gone gone n)
  left n gone := by
    refine ⟨inv.exchange.gone gone, ?_⟩
    apply inv.due
    · exact fun waits => (inv.exchange.waiting waits).2 gone
    · rintro v (⟨m', -, partners', -, -⟩ | ⟨-, rfl⟩)
      · exact absurd partners' (inv.exchange.gone gone m')
      · rfl
  answered n finished := by
    rcases mem_map.mp finished with ⟨⟨n, v⟩, there, rfl⟩
    rcases inv.out n v there with ⟨m, -, partners, -⟩ | ⟨gone, -⟩
    · exact .inr ⟨m, partners⟩
    · exact .inl gone

theorem Inv.noted : w.Noted := by
  intro q p msg flag found waiting
  have ledger : (w.procs.postnote q msg flag).2.ledger = _ := Procs.ledger_postnote msg flag found
  rw [if_pos waiting] at ledger
  have inside : q ∈ w.procs.rgrps p.rgrp :=
    inv.joined q p.view (board_view found) waiting
  rcases inv.member inside with ⟨n, waits, a, here, mine, group, pending, -⟩
  have out (g : Nat) : q ∉ (w.procs.postnote q msg flag).2.rgrps g := by
    have groups : (w.procs.postnote q msg flag).2.rgrps =
        update w.procs.rgrps p.rgrp ((w.procs.rgrps p.rgrp).filter (· != q)) :=
      congrArg Ledger.rgrps ledger
    rw [groups]
    rcases eq_or_ne g p.rgrp with rfl | apart
    · simp
    · rw [update_of_ne apart]
      exact fun inside' => apart (inv.one inside' inside)
  have own : (w.procs.postnote q msg flag).2.ledger.own q =
      some { Own.addnote msg flag p.own with rendval := 2 ^ 64 - 1 } := by
    rw [ledger]
    simp [Ledger.pull, Ledger.edit, own_eq found]
  rcases tab_of_own own with ⟨p', found', same⟩
  refine ⟨out, Procs.state_postnote found waiting, ?_, n, pending, ?_⟩
  · change rendval (w.procs.postnote q msg flag).2 q = _
    rw [rendval, found']
    exact congrArg Own.rendval same
  · apply mem_append_right
    refine mem_filter.mpr ⟨waits, ?_⟩
    have gone : stays w.exchange (w.procs.postnote q msg flag).2 n = false := by
      simp [stays, here, mine, group, out]
    exact congrArg Bool.not gone

theorem Inv.undisturbed : w.Undisturbed := by
  intro a called quiet
  have groups : (w.procs.step a).rgrps = w.procs.rgrps := Procs.rgrps_step quiet called.2.1
  have all (n : Nat) (waits : n ∈ w.exchange.waits) :
      stays w.exchange (w.procs.step a) n = true := by
    rcases inv.waits n waits with ⟨ask, here, -, inside, -⟩
    rw [← groups] at inside
    simp [stays, here, inside]
  rw [Meets.table, Exchange.withdraw, filter_eq_self.mpr all, filter_eq_nil_iff.mpr]
  · rw [append_nil]
  · intro n waits
    simp [all n waits]

end Inv

/-- In every run the waiting tags of a group are distinct, two that meet have each other's values
and nobody else has them, and a note is what takes a waiting process out, with `~0`. -/
theorem rendezvous_exchanged (reached : meets.Reach Called w) :
    w.Exchanged ∧ w.Noted ∧ w.Undisturbed :=
  let inv := inv_of_reach reached
  ⟨inv.exchanged, inv.noted, inv.undisturbed⟩

theorem reach_step (a : MeetAct) (reached : meets.Reach Called w) (called : w.Called a) :
    meets.Reach Called (w.step a) :=
  .step reached called rfl

def waiting : Meets :=
  ((((new.step (.table (.rfork 1 Rf.proc))).step (.table (.ready 2))).step
    (.rendezvous 1 7 5)).step (.table (.leave 1 .sched))).step (.table .sched)

def paired : Meets :=
  (((waiting.step (.rendezvous 2 7 9)).step (.table (.leave 2 .sched))).step
    (.table .sched)).step (.resume 1)

theorem rendezvous_exchanged_paired : (paired.Exchanged ∧ paired.Noted ∧ paired.Undisturbed) ∧
    paired.out = [(1, 5), (0, 9)] := by
  have idle (d : Pid) : new.pending d = none := rfl
  have made := reach_step (.table (.rfork 1 Rf.proc)) (.init rfl)
    ⟨⟨rfl, _, rfl, rfl, rfl⟩, trivial, fun d _ => idle d⟩
  have readied := reach_step (.table (.ready 2)) made
    ⟨⟨_, rfl, .inl rfl⟩, trivial, fun d _ => idle d⟩
  have waits := reach_step (.rendezvous 1 7 5) readied ⟨⟨rfl, _, rfl, rfl, rfl⟩, rfl⟩
  have left := reach_step (.table (.leave 1 .sched)) waits
    ⟨by simp [Procs.Callers], trivial, by simp [Act.actor]⟩
  have runs := reach_step (.table .sched) left ⟨trivial, trivial, by simp [Act.actor]⟩
  have met := reach_step (.rendezvous 2 7 9) runs ⟨⟨rfl, _, rfl, rfl, rfl⟩, rfl⟩
  have left' := reach_step (.table (.leave 2 .sched)) met
    ⟨by simp [Procs.Callers], trivial, by simp [Act.actor]⟩
  have runs' := reach_step (.table .sched) left' ⟨trivial, trivial, by simp [Act.actor]⟩
  have finished := reach_step (.resume 1) runs' ⟨⟨rfl, _, rfl, rfl, rfl⟩, rfl⟩
  exact ⟨rendezvous_exchanged finished, rfl⟩

end Meets

end Ipnx
