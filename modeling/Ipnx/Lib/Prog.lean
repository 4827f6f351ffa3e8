import Mathlib.Order.Defs.Unbundled

/-!
# Programs that change a state and may fail

A program takes a state to an answer or an error, and to a state either way: what it did
before it failed stays done. A relation that every step of a program keeps, it keeps; and a
program fails where its first part does, or where the rest does after every answer of it.
-/

namespace Ipnx

abbrev Prog (σ α : Type) := ExceptT String (StateM σ) α

namespace Prog

variable {σ α β : Type} {s : σ} {m : Prog σ α} {f : α → Prog σ β} {R : σ → σ → Prop}

/-- What a program answers from a state, and the state it leaves. -/
def exec (m : Prog σ α) (s : σ) : Except String α × σ := m s

@[simp]
theorem exec_pure (a : α) (s : σ) : exec (pure a : Prog σ α) s = (.ok a, s) := rfl

@[simp]
theorem exec_throw (e : String) (s : σ) : exec (throw e : Prog σ α) s = (.error e, s) := rfl

@[simp]
theorem exec_get (s : σ) : exec (get : Prog σ σ) s = (.ok s, s) := rfl

@[simp]
theorem exec_modify (g : σ → σ) (s : σ) :
    exec (modify g : Prog σ Unit) s = (.ok ⟨⟩, g s) := rfl

theorem exec_bind (m : Prog σ α) (f : α → Prog σ β) (s : σ) :
    exec (m >>= f) s =
      match exec m s with
      | (.ok a, s') => exec (f a) s'
      | (.error e, s') => (.error e, s') := by
  have unfolded : exec (m >>= f) s = (fun r : Except String α × σ =>
      (ExceptT.bindCont f r.1).run r.2) (exec m s) := rfl
  rw [unfolded]
  rcases exec m s with ⟨_ | _, _⟩ <;> rfl

theorem exec_bind_ok {a : α} {s' : σ} (first : exec m s = (.ok a, s')) :
    exec (m >>= f) s = exec (f a) s' := by
  rw [exec_bind, first]

theorem exec_bind_error {e : String} {s' : σ} (first : exec m s = (.error e, s')) :
    exec (m >>= f) s = (.error e, s') := by
  rw [exec_bind, first]

/-- What comes after does not see how its start was come to. -/
theorem exec_bind_congr {m' : Prog σ α} {s' : σ} (same : exec m s = exec m' s')
    (g : α → Prog σ β) : exec (m >>= g) s = exec (m' >>= g) s' := by
  rw [exec_bind, exec_bind, same]

/-- What is known to be an answer or an error already. -/
def of (r : Except String α) : Prog σ α := fun s => (r, s)

theorem exec_bind_of {g : α → Except String β} {r : Except String α} {s' : σ}
    (first : exec m s = (r, s')) : exec (m >>= fun a => of (g a)) s = (r.bind g, s') := by
  rcases r with e | a
  · exact exec_bind_error first
  · exact exec_bind_ok first

/-- A program, and another where it fails, told the error. -/
def catching (m : Prog σ α) (f : String → Prog σ α) : Prog σ α := fun s =>
  match exec m s with
  | (.ok a, s') => (.ok a, s')
  | (.error e, s') => exec (f e) s'

theorem exec_catching_ok {g : String → Prog σ α} {a : α} {s' : σ} (done : exec m s = (.ok a, s')) :
    exec (catching m g) s = (.ok a, s') := by
  rw [exec] at done ⊢
  rw [catching, exec, done]

theorem exec_catching_error {g : String → Prog σ α} {e : String} {s' : σ}
    (failed : exec m s = (.error e, s')) : exec (catching m g) s = exec (g e) s' := by
  rw [exec] at failed ⊢
  rw [catching, exec, failed]

/-- Every run of the program relates the state before to the state after. -/
def Keeps (R : σ → σ → Prop) (m : Prog σ α) : Prop := ∀ s, R s (exec m s).2

theorem keeps_pure [Std.Refl R] (a : α) : Keeps R (pure a : Prog σ α) := fun s => refl_of R s

theorem keeps_throw [Std.Refl R] (e : String) : Keeps R (throw e : Prog σ α) :=
  fun s => refl_of R s

theorem keeps_get [Std.Refl R] : Keeps R (get : Prog σ σ) := fun s => refl_of R s

theorem keeps_modify {g : σ → σ} (each : ∀ s, R s (g s)) : Keeps R (modify g : Prog σ Unit) :=
  each

theorem Keeps.bind [IsTrans σ R] (first : Keeps R m) (rest : ∀ a, Keeps R (f a)) :
    Keeps R (m >>= f) := by
  intro s
  have before := first s
  rw [exec_bind]
  rcases run : exec m s with ⟨e | a, s'⟩ <;> rw [run] at before
  · exact before
  · exact trans_of R before (rest a s')

theorem keeps_ite {c : Prop} [Decidable c] {m' : Prog σ α} (yes : Keeps R m) (no : Keeps R m') :
    Keeps R (if c then m else m') := by
  by_cases holds : c
  · rw [if_pos holds]
    exact yes
  · rw [if_neg holds]
    exact no

variable {I : σ → Prop} {P : α → Prop} {Q : β → Prop}

/-- From a state with the invariant the program ends in one, and its answer is as said. -/
def Ensures (I : σ → Prop) (m : Prog σ α) (P : α → Prop) : Prop :=
  ∀ s, I s → I (exec m s).2 ∧ ∀ a, (exec m s).1 = .ok a → P a

theorem ensures_pure {a : α} (holds : P a) : Ensures I (pure a : Prog σ α) P := by
  intro s inv
  refine ⟨inv, ?_⟩
  rintro _ ⟨⟩
  exact holds

theorem ensures_throw (e : String) : Ensures I (throw e : Prog σ α) P := by
  intro s inv
  refine ⟨inv, ?_⟩
  rintro _ ⟨⟩

theorem ensures_get : Ensures I (get : Prog σ σ) I := by
  intro s inv
  refine ⟨inv, ?_⟩
  rintro _ ⟨⟩
  exact inv

theorem ensures_modify {g : σ → σ} (each : ∀ s, I s → I (g s)) :
    Ensures I (modify g : Prog σ Unit) fun _ => True := by
  intro s inv
  exact ⟨each s inv, fun _ _ => trivial⟩

theorem Ensures.bind (first : Ensures I m P) (rest : ∀ a, P a → Ensures I (f a) Q) :
    Ensures I (m >>= f) Q := by
  intro s inv
  rcases run : exec m s with ⟨e | a, s'⟩
  · have before := first s inv
    rw [run] at before
    rw [exec_bind_error run]
    refine ⟨before.1, ?_⟩
    rintro _ ⟨⟩
  · have before := first s inv
    rw [run] at before
    rw [exec_bind_ok run]
    exact rest a (before.2 a rfl) s' before.1

theorem ensures_ite {c : Prop} [Decidable c] {m' : Prog σ α} (yes : Ensures I m P)
    (no : Ensures I m' P) : Ensures I (if c then m else m') P := by
  by_cases holds : c
  · rw [if_pos holds]
    exact yes
  · rw [if_neg holds]
    exact no

theorem Ensures.weaken {P' : α → Prop} (ensures : Ensures I m P) (weaker : ∀ a, P a → P' a) :
    Ensures I m P' := by
  intro s inv
  exact ⟨(ensures s inv).1, fun a ok => weaker a ((ensures s inv).2 a ok)⟩

variable {G : β → σ → Prop} {E : String → σ → Prop}

/-- From this state the program answers and leaves a state as the first says, or it fails and
leaves one as the second says. -/
def Ends (m : Prog σ α) (s : σ) (G : α → σ → Prop) (E : String → σ → Prop) : Prop :=
  match exec m s with
  | (.ok a, s') => G a s'
  | (.error e, s') => E e s'

theorem Ends.bind (first : Ends m s (fun a s' => Ends (f a) s' G E) E) : Ends (m >>= f) s G E := by
  rw [Ends] at first ⊢
  rw [exec_bind]
  rcases run : exec m s with ⟨e | a, s'⟩ <;> rw [run] at first
  · exact first
  · exact first

theorem ends_pure {G : α → σ → Prop} {a : α} (holds : G a s) : Ends (pure a : Prog σ α) s G E :=
  holds

theorem ends_throw {G : α → σ → Prop} {e : String} (holds : E e s) :
    Ends (throw e : Prog σ α) s G E :=
  holds

theorem ends_get {G : σ → σ → Prop} (holds : G s s) : Ends (get : Prog σ σ) s G E := holds

theorem ends_modify {G : Unit → σ → Prop} {g : σ → σ} (holds : G () (g s)) :
    Ends (modify g : Prog σ Unit) s G E :=
  holds

theorem Ends.get {f : σ → Prog σ β} (rest : Ends (f s) s G E) :
    Ends (get >>= f) s G E :=
  Ends.bind (ends_get rest)

theorem Ends.modify {f : Unit → Prog σ β} {g : σ → σ} (rest : Ends (f ()) (g s) G E) :
    Ends (modify g >>= f) s G E :=
  Ends.bind (ends_modify rest)

theorem Ends.mono {G G' : α → σ → Prop} {E E' : String → σ → Prop} (ends : Ends m s G E)
    (ok : ∀ a s', G a s' → G' a s') (error : ∀ e s', E e s' → E' e s') : Ends m s G' E' := by
  rw [Ends] at ends ⊢
  rcases run : exec m s with ⟨e | a, s'⟩ <;> rw [run] at ends
  · exact error e s' ends
  · exact ok a s' ends

theorem Ends.catching {f : String → Prog σ α} {G : α → σ → Prop} {E E' : String → σ → Prop}
    (ends : Ends m s G E') (caught : ∀ e s', E' e s' → Ends (f e) s' G E) :
    Ends (catching m f) s G E := by
  rw [Ends] at ends ⊢
  rcases run : exec m s with ⟨e | a, s'⟩ <;> rw [run] at ends
  · rw [exec_catching_error run]
    exact caught e s' ends
  · rw [exec_catching_ok run]
    exact ends

/-- Of a program that keeps a relation, that relation is known. -/
theorem Keeps.ends {G : α → σ → Prop} (keeps : Keeps R m) (ok : ∀ a s', R s s' → G a s')
    (error : ∀ e s', R s s' → E e s') : Ends m s G E := by
  have before := keeps s
  rw [Ends]
  rcases run : exec m s with ⟨e | a, s'⟩ <;> rw [run] at before
  · exact error e s' before
  · exact ok a s' before

theorem ends_ite {G : α → σ → Prop} {c : Prop} [Decidable c] {m' : Prog σ α}
    (yes : c → Ends m s G E) (no : ¬c → Ends m' s G E) : Ends (if c then m else m') s G E := by
  by_cases holds : c
  · rw [if_pos holds]
    exact yes holds
  · rw [if_neg holds]
    exact no holds

def Fails (m : Prog σ α) (s : σ) : Prop := ∃ e, (exec m s).1 = .error e

theorem Fails.bind (first : Fails m s) (f : α → Prog σ β) : Fails (m >>= f) s := by
  obtain ⟨e, failed⟩ := first
  rcases run : exec m s with ⟨answer, s'⟩
  rw [run] at failed
  subst failed
  exact ⟨e, by rw [exec_bind_error run]⟩

theorem fails_bind (rest : ∀ a s', exec m s = (.ok a, s') → Fails (f a) s') :
    Fails (m >>= f) s := by
  rcases run : exec m s with ⟨e | a, s'⟩
  · exact ⟨e, by rw [exec_bind_error run]⟩
  · obtain ⟨e, failed⟩ := rest a s' run
    exact ⟨e, by rw [exec_bind_ok run, failed]⟩

end Prog

end Ipnx
