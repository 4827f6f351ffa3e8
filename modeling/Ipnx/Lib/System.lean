import Mathlib.Order.Basic

/-!
# Labelled transition systems

States, the states a system starts in, and what each action may do to a state.
`Reach ok` collects the states reached by steps that all satisfy `ok`, so a property of
every run and a property of every run that keeps to a rule are two instances of one
notion. The rules below are the induction over such runs.
-/

namespace Ipnx

universe u v

/-- The first states of a system, and the states each action may lead to. -/
structure System (State : Type u) (Action : Type v) where
  init : State → Prop
  step : State → Action → State → Prop

namespace System

variable {State : Type u} {Action : Type v} {sys : System State Action}
  {ok ok' : State → Action → Prop}

/-- The states reached from a first state by steps that all satisfy `ok`. -/
inductive Reach (sys : System State Action) (ok : State → Action → Prop) : State → Prop
  | init {s : State} : sys.init s → Reach sys ok s
  | step {s s' : State} {a : Action} :
      Reach sys ok s → ok s a → sys.step s a s' → Reach sys ok s'

/-- The states reached by any steps at all. -/
def Reachable (sys : System State Action) : State → Prop :=
  sys.Reach fun _ _ => True

/-- A run that keeps to a rule keeps to a weaker one. -/
theorem Reach.mono {s : State} (reached : sys.Reach ok s) (weaker : ∀ s a, ok s a → ok' s a) :
    sys.Reach ok' s := by
  induction reached with
  | init first => exact .init first
  | step _ allowed moved ih => exact .step ih (weaker _ _ allowed) moved

theorem Reach.reachable {s : State} (reached : sys.Reach ok s) : sys.Reachable s :=
  reached.mono fun _ _ _ => trivial

/-- An invariant that holds at first and across every allowed step holds of every run. -/
theorem Reach.invariant (Inv : State → Prop)
    (first : ∀ s, sys.init s → Inv s)
    (next : ∀ s a s', Inv s → ok s a → sys.step s a s' → Inv s')
    {s : State} (reached : sys.Reach ok s) : Inv s := by
  induction reached with
  | init start => exact first _ start
  | step _ allowed moved ih => exact next _ _ _ ih allowed moved

/-- The listed actions one after another, each of them allowed. -/
def runs (next : State → Action → Option State) (ok : State → Action → Prop)
    [∀ s a, Decidable (ok s a)] : State → List Action → Option State
  | s, [] => some s
  | s, a :: as => if ok s a then (next s a).bind fun s' => runs next ok s' as else none

theorem Reach.runs {next : State → Action → Option State} [∀ s a, Decidable (ok s a)]
    (step : ∀ s a s', next s a = some s' → sys.step s a s') {as : List Action} {s s' : State}
    (reached : sys.Reach ok s) (ran : System.runs next ok s as = some s') : sys.Reach ok s' := by
  induction as generalizing s with
  | nil =>
      cases ran
      exact reached
  | cons a as ih =>
      rw [System.runs] at ran
      split_ifs at ran with allowed
      rcases Option.bind_eq_some_iff.1 ran with ⟨s'', moved, rest⟩
      exact ih (reached.step allowed (step s a s'' moved)) rest

end System

end Ipnx
