import Mathlib.Algebra.Order.Ring.Nat

/-!
# What a fair run comes to

An endless run is its states and its actions, time by time. What holds until a helpful action is
taken, and what that action then brings, is brought; and a run that comes ever closer to something
comes to it.
-/

namespace Ipnx.Fair

variable {State Action : Type} {run : Nat → State} {acts : Nat → Action} {A B : State → Prop}

/-- What holds until a helpful action comes, there being one to come, leads to what that brings. -/
theorem ensures {helpful : Action → Prop} {t : Nat} (holds : A (run t))
    (comes : ∃ t', t ≤ t' ∧ helpful (acts t'))
    (keep : ∀ t', t ≤ t' → A (run t') → ¬helpful (acts t') → A (run (t' + 1)))
    (brings : ∀ t', t ≤ t' → A (run t') → helpful (acts t') → B (run (t' + 1))) :
    ∃ t', t < t' ∧ B (run t') := by
  rcases comes with ⟨last, later, helps⟩
  induction left : last - t generalizing t with
  | zero =>
      have now : t = last := by omega
      subst now
      exact ⟨t + 1, by omega, brings t le_rfl holds helps⟩
  | succ left ih =>
      by_cases already : helpful (acts t)
      · exact ⟨t + 1, by omega, brings t le_rfl holds already⟩
      · rcases ih (keep t le_rfl holds already) (fun t' after => keep t' (by omega))
          (fun t' after => brings t' (by omega)) (by omega) (by omega) with ⟨t', after, brought⟩
        exact ⟨t', by omega, brought⟩

/-- What comes ever closer to something, by a measure, comes to it. -/
theorem closer (measure : State → Nat)
    (step : ∀ t, A (run t) → ∃ t', t ≤ t' ∧
      (B (run t') ∨ A (run t') ∧ measure (run t') < measure (run t))) {t : Nat}
    (holds : A (run t)) : ∃ t', t ≤ t' ∧ B (run t') := by
  induction left : measure (run t) using Nat.strong_induction_on generalizing t with
  | h left' ih =>
      subst left
      rcases step t holds with ⟨t', after, brought | ⟨still, less⟩⟩
      · exact ⟨t', after, brought⟩
      · rcases ih _ less still rfl with ⟨t'', later, brought⟩
        exact ⟨t'', le_trans after later, brought⟩

end Ipnx.Fair
