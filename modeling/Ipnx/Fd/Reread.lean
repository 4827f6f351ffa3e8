import Ipnx.Fd.Unionread

/-!
# A union's read that is left asleep

A run that is left asleep comes to the same elements as the one that is not, as far as it comes.
What it asks of those that mounts serve is in the record, and the later runs do not ask it again. So
the runs of a call do together what one run does that is never left asleep, if those that are left
asleep do nothing to an element of a kernel device; and where one does, that is done again.
-/

namespace Ipnx.Unionread

open List

variable {ms : List Elem} {c : Chan} {n made : Nat} {replied : Nat → Bool} {s : Pass}

/-- What an element is asked, in its place in a run. -/
structure Entry where
  elem : Nat
  wired : Bool
  ask : Ask

def Entry.log (e : Entry) : Log := e.ask.acts.map fun act => (e.elem, act)

def entries (i : Nat) (wired : Bool) (asks : List Ask) : List Entry :=
  asks.map fun a => ⟨i, wired, a⟩

/-- What a run asks that is not left asleep. -/
def plan (ms : List Elem) (c : Chan) (n : Nat) : List Entry :=
  match _found : ms[c.uri]? with
  | none => []
  | some el =>
      entries c.uri el.wired (el.serve c.umc n).2 ++
        if (el.serve c.umc n).1 = none then plan ms c.advance n else []
termination_by ms.length - c.uri
decreasing_by exact c.advance_lt _found

def Pass.run (replied : Nat → Bool) (s : Pass) : List Entry → Bool × Pass
  | [] => (true, s)
  | e :: es =>
      match s.ask replied e.elem e.wired e.ask with
      | (true, s) => s.run replied es
      | (false, s) => (false, s)

/-- What is done in a run to its end by the record it has, from an RPC on. -/
def shown (made : Nat) : Nat → List Entry → Log
  | _, [] => []
  | k, e :: es =>
      if e.wired then (if k < made then [] else e.log) ++ shown made (k + 1) es
      else e.log ++ shown made k es

/-- Every element of a kernel device that a run comes to is not open and cannot be cloned. -/
def Still (ms : List Elem) (replied : Nat → Bool) (c : Chan) (n : Nat) (s : Pass) : Prop :=
  match _found : ms[c.uri]? with
  | none => True
  | some el =>
      (el.wired = true ∨ c.umc = none ∧ el.clones = false) ∧
        ((s.asks replied c.uri el.wired (el.serve c.umc n).2).1 = true →
          (el.serve c.umc n).1 = none →
            Still ms replied c.advance n (s.asks replied c.uri el.wired (el.serve c.umc n).2).2)
termination_by ms.length - c.uri
decreasing_by exact c.advance_lt _found

/-- The runs of a call that are left asleep are such. -/
def Calm (ms : List Elem) (c : Chan) (n : Nat) : List (Nat → Bool) → Nat → Prop
  | [], _ => True
  | replied :: later, made =>
      (unionread ms replied c n (.new made)).2.asleep = true →
        Still ms replied c n (.new made) ∧
          Calm ms c n later (unionread ms replied c n (.new made)).2.made

/-- Those of every read, to the first that is empty. -/
def Calms (ms : List Elem) (c : Chan) : List (Nat × List (Nat → Bool)) → Prop
  | [] => True
  | (n, runs) :: ns => Calm ms c.rewound n runs 0 ∧
      ((pread ms c n runs).1 ≠ [] → Calms ms (pread ms c n runs).2.1 ns)

theorem asks_eq (i : Nat) (wired : Bool) (asks : List Ask) (s : Pass) :
    s.asks replied i wired asks = s.run replied (entries i wired asks) := by
  induction asks generalizing s with
  | nil => rfl
  | cons a asks ih =>
      rw [Pass.asks, entries, map_cons, Pass.run]
      rcases s.ask replied i wired a with ⟨_ | _, s'⟩
      · rfl
      · exact ih s'

theorem run_append {s' : Pass} {es : List Entry} (ran : s.run replied es = (true, s'))
    (es' : List Entry) : s.run replied (es ++ es') = s'.run replied es' := by
  induction es generalizing s with
  | nil =>
      cases ran
      rfl
  | cons e es ih =>
      rw [Pass.run] at ran
      rw [cons_append, Pass.run]
      rcases asked : s.ask replied e.elem e.wired e.ask with ⟨_ | _, t⟩
      · rw [asked] at ran
        cases ran
      · rw [asked] at ran
        exact ih ran

theorem run_stops {s' : Pass} {es : List Entry} (ran : s.run replied es = (false, s'))
    (es' : List Entry) : s.run replied (es ++ es') = (false, s') := by
  induction es generalizing s with
  | nil => cases ran
  | cons e es ih =>
      rw [Pass.run] at ran
      rw [cons_append, Pass.run]
      rcases asked : s.ask replied e.elem e.wired e.ask with ⟨_ | _, t⟩
      · rw [asked] at ran
        exact ran
      · rw [asked] at ran
        exact ih ran

theorem plan_none (none_ : ms[c.uri]? = none) : plan ms c n = [] := by
  rw [plan]
  split
  · rfl
  · next found =>
      rw [none_] at found
      cases found

theorem plan_some {el : Elem} (found : ms[c.uri]? = some el) :
    plan ms c n = entries c.uri el.wired (el.serve c.umc n).2 ++
      if (el.serve c.umc n).1 = none then plan ms c.advance n else [] := by
  rw [plan]
  split
  · next none_ =>
      rw [none_] at found
      cases found
  · next el' found' =>
      rw [found', Option.some.injEq] at found
      rw [found]

theorem awake_none (none_ : ms[c.uri]? = none) : Awake.unionread ms c n = ([], c, []) := by
  rw [Awake.unionread]
  split
  · rfl
  · next found =>
      rw [none_] at found
      cases found

theorem awake_some {el : Elem} (found : ms[c.uri]? = some el) :
    Awake.unionread ms c n =
      (el.serve c.umc n).1.elim
        ((Awake.unionread ms c.advance n).1, (Awake.unionread ms c.advance n).2.1,
          c.acts (acted (el.serve c.umc n).2) ++ (Awake.unionread ms c.advance n).2.2)
        fun gave =>
          (gave.1, { c with umc := some gave.2 }, c.acts (acted (el.serve c.umc n).2)) := by
  rw [Awake.unionread]
  split
  · next none_ =>
      rw [none_] at found
      cases found
  · next el' found' =>
      rw [found', Option.some.injEq] at found
      subst found
      rcases el'.serve c.umc n with ⟨_ | ⟨d, k⟩, asks⟩
      · rfl
      · rfl

theorem awake_plan (ms : List Elem) (c : Chan) (n : Nat) :
    (Awake.unionread ms c n).2.2 = (plan ms c n).flatMap Entry.log := by
  have acts (i : Nat) (wired : Bool) (asks : List Ask) : (entries i wired asks).flatMap Entry.log =
      (acted asks).map fun act => (i, act) := by
    rw [entries, flatMap_map, acted, map_flatMap]
    rfl
  fun_induction Awake.unionread ms c n with
  | case1 c none_ =>
      rw [plan_none none_]
      rfl
  | case2 c el found d k asks is =>
      rw [plan_some found, is, if_neg (by simp), append_nil, acts]
      rfl
  | case3 c el found asks is r ih =>
      rw [plan_some found, is, if_pos rfl, flatMap_append, acts, ← ih]
      rfl

/-- A run asks what is planned, as far as it comes. -/
theorem unionread_plan (ms : List Elem) (replied : Nat → Bool) (c : Chan) (n : Nat) (s : Pass) :
    (unionread ms replied c n s).2 = (s.run replied (plan ms c n)).2 ∧
      (unionread ms replied c n s).1 = if (s.run replied (plan ms c n)).1 then
        some ((Awake.unionread ms c n).1, (Awake.unionread ms c n).2.1) else none := by
  fun_induction unionread ms replied c n s with
  | case1 c s none_ =>
      rw [plan_none none_, awake_none none_]
      exact ⟨rfl, rfl⟩
  | case2 c s el found s' stops =>
      rw [asks_eq] at stops
      rw [plan_some found, run_stops stops]
      exact ⟨rfl, rfl⟩
  | case3 c s el found s' goes d k is =>
      rw [asks_eq] at goes
      rw [plan_some found, run_append goes, if_neg (by rw [is]; nofun), awake_some found, is]
      exact ⟨rfl, rfl⟩
  | case4 c s el found s' goes is ih =>
      rw [asks_eq] at goes
      rw [plan_some found, run_append goes, if_pos is, ih.1, ih.2, awake_some found, is]
      exact ⟨rfl, rfl⟩

section Run

variable {e : Entry} {es : List Entry} {k : Nat} {log : Log}

theorem ask_kernel (kernel : e.wired = false) :
    s.ask replied e.elem e.wired e.ask = (true, { s with log := s.log ++ e.log }) := by
  rw [Pass.ask, kernel]
  rfl

theorem ask_asleep (wired : e.wired = true) (asleep : s.asleep = true) :
    s.ask replied e.elem e.wired e.ask = (!e.ask.waits, s) := by
  simp only [Pass.ask, wired, asleep, Bool.not_true, Bool.false_eq_true, if_false, if_true]

theorem ask_replied (wired : e.wired = true) (has : replied k = true) :
    Pass.ask replied e.elem e.wired ⟨k, made, false, log⟩ e.ask =
      (true, ⟨k + 1, max made (k + 1), false, log ++ if k < made then [] else e.log⟩) := by
  rw [Pass.ask, wired]
  by_cases before : k < made
  · rw [max_eq_left before]
    simp [before, has]
  · have most : max made (k + 1) = k + 1 := max_eq_right (by omega)
    simp [before, has, most, Entry.log]

theorem ask_slept (wired : e.wired = true) (none_ : replied k = false) :
    Pass.ask replied e.elem e.wired ⟨k, made, false, log⟩ e.ask =
      (!e.ask.waits, ⟨k, max made (k + 1), true, log ++ if k < made then [] else e.log⟩) := by
  rw [Pass.ask, wired]
  by_cases before : k < made
  · rw [max_eq_left before]
    simp [before, none_]
  · have most : max made (k + 1) = k + 1 := max_eq_right (by omega)
    simp [before, none_, most, Entry.log]

theorem run_asleep (es : List Entry) (asleep : s.asleep = true) :
    (s.run replied es).2.asleep = true := by
  induction es generalizing s with
  | nil => exact asleep
  | cons e es ih =>
      rw [Pass.run]
      rcases Bool.eq_false_or_eq_true e.wired with wired | kernel
      · rw [ask_asleep wired asleep]
        cases e.ask.waits with
        | true => exact asleep
        | false => exact ih asleep
      · rw [ask_kernel kernel]
        exact ih asleep

theorem shown_max {j : Nat} (below : j ≤ k) : shown (max made j) k es = shown made k es := by
  induction es generalizing k with
  | nil => rfl
  | cons e es ih =>
      have same : k < max made j ↔ k < made := by omega
      rw [shown, shown, ih below, ih (Nat.le_succ_of_le below)]
      simp only [same]

/-- A run that is not left asleep comes to its end, and does what is shown. -/
theorem run_awake (es : List Entry)
    (awake : (Pass.run replied ⟨k, made, false, log⟩ es).2.asleep = false) :
    (Pass.run replied ⟨k, made, false, log⟩ es).1 = true ∧
      (Pass.run replied ⟨k, made, false, log⟩ es).2.log = log ++ shown made k es := by
  induction es generalizing k made log with
  | nil => exact ⟨rfl, (append_nil log).symm⟩
  | cons e es ih =>
      rw [Pass.run] at awake ⊢
      rw [shown]
      rcases Bool.eq_false_or_eq_true e.wired with wired | kernel
      · rw [if_pos wired]
        rcases Bool.eq_false_or_eq_true (replied k) with has | none_
        · rw [ask_replied wired has] at awake ⊢
          rcases ih awake with ⟨ends, tells⟩
          refine ⟨ends, tells.trans ?_⟩
          rw [append_assoc, shown_max le_rfl]
        · rw [ask_slept wired none_] at awake
          cases waits : e.ask.waits with
          | true =>
              rw [waits] at awake
              cases awake
          | false =>
              rw [waits] at awake
              cases awake.symm.trans (run_asleep es rfl)
      · rw [ask_kernel kernel] at awake ⊢
        rw [kernel, if_neg Bool.false_ne_true, ← append_assoc]
        exact ih awake

/-- What a run asks of kernel devices as far as it comes does nothing. -/
def Idle (replied : Nat → Bool) (s : Pass) : List Entry → Prop
  | [] => True
  | e :: es => (e.wired = false → e.log = []) ∧
      ((s.ask replied e.elem e.wired e.ask).1 = true →
        Idle replied (s.ask replied e.elem e.wired e.ask).2 es)

theorem ask_idle (kernel : e.wired = false) (nothing : e.log = []) :
    s.ask replied e.elem e.wired e.ask = (true, s) := by
  rw [ask_kernel kernel, nothing, append_nil]

theorem run_idle (es : List Entry) (asleep : s.asleep = true) (idle : Idle replied s es) :
    (s.run replied es).2 = s := by
  induction es generalizing s with
  | nil => rfl
  | cons e es ih =>
      rw [Idle] at idle
      rw [Pass.run]
      rcases Bool.eq_false_or_eq_true e.wired with wired | kernel
      · rw [ask_asleep wired asleep] at idle ⊢
        cases waits : e.ask.waits with
        | true => rfl
        | false =>
            rw [waits] at idle
            exact ih asleep (idle.2 rfl)
      · rw [ask_idle kernel (idle.1 kernel)] at idle ⊢
        exact ih asleep (idle.2 rfl)

/-- With what a run has done that is left asleep, a later one shows what it would itself. -/
theorem run_shown (es : List Entry) (idle : Idle replied ⟨k, made, false, log⟩ es)
    (asleep : (Pass.run replied ⟨k, made, false, log⟩ es).2.asleep = true) :
    made ≤ (Pass.run replied ⟨k, made, false, log⟩ es).2.made ∧
      (Pass.run replied ⟨k, made, false, log⟩ es).2.log ++
        shown (Pass.run replied ⟨k, made, false, log⟩ es).2.made k es = log ++ shown made k es := by
  induction es generalizing k made log with
  | nil => cases asleep
  | cons e es ih =>
      rw [Idle] at idle
      rw [Pass.run] at asleep ⊢
      rw [shown, shown]
      rcases Bool.eq_false_or_eq_true e.wired with wired | kernel
      · rw [if_pos wired, if_pos wired]
        have later : k < max made (k + 1) := lt_max_of_lt_right (Nat.lt_succ_self k)
        rcases Bool.eq_false_or_eq_true (replied k) with has | none_
        · rw [ask_replied wired has] at asleep idle ⊢
          rcases ih (idle.2 rfl) asleep with ⟨more, tells⟩
          refine ⟨(le_max_left made (k + 1)).trans more, ?_⟩
          rw [if_pos (later.trans_le more), nil_append, tells, shown_max le_rfl,
            append_assoc]
        · have left (pass : Pass)
              (is : pass = ⟨k, max made (k + 1), true, log ++ if k < made then [] else e.log⟩) :
              made ≤ pass.made ∧
                pass.log ++ ((if k < pass.made then [] else e.log) ++ shown pass.made (k + 1) es) =
                  log ++ ((if k < made then [] else e.log) ++ shown made (k + 1) es) := by
            subst is
            refine ⟨le_max_left made (k + 1), ?_⟩
            rw [if_pos later, nil_append, shown_max le_rfl, append_assoc]
          rw [ask_slept wired none_] at idle ⊢
          cases waits : e.ask.waits with
          | true => exact left _ rfl
          | false =>
              rw [waits] at idle
              exact left _ (run_idle es rfl (idle.2 rfl))
      · rw [ask_idle kernel (idle.1 kernel)] at asleep idle ⊢
        rw [if_neg (by rw [kernel]; nofun), if_neg (by rw [kernel]; nofun)]
        rw [idle.1 kernel, nil_append, nil_append]
        exact ih (idle.2 rfl) asleep

theorem idle_append {es' : List Entry} (nothing : ∀ e ∈ es, e.wired = false → e.log = [])
    (rest : (s.run replied es).1 = true → Idle replied (s.run replied es).2 es') :
    Idle replied s (es ++ es') := by
  induction es generalizing s with
  | nil => exact rest rfl
  | cons e es ih =>
      refine ⟨nothing e mem_cons_self, fun goes => ?_⟩
      apply ih (fun e' there => nothing e' (mem_cons_of_mem e there))
      intro ends
      have ran : s.run replied (e :: es) =
          (s.ask replied e.elem e.wired e.ask).2.run replied es := by
        rw [Pass.run]
        rcases asked : s.ask replied e.elem e.wired e.ask with ⟨_ | _, t⟩
        · rw [asked] at goes
          cases goes
        · rfl
      rw [← ran] at ends ⊢
      exact rest ends

end Run

/-- A clone that is refused does nothing. -/
theorem entries_idle {el : Elem} (i : Nat)
    (idle : el.wired = true ∨ c.umc = none ∧ el.clones = false) :
    ∀ e ∈ entries i el.wired (el.serve c.umc n).2, e.wired = false → e.log = [] := by
  intro e there kernel
  rcases mem_map.1 there with ⟨a, asked, rfl⟩
  rcases idle with wired | ⟨none_, clones⟩
  · rw [wired] at kernel
    cases kernel
  · have refused : el.serve c.umc n = (none, [⟨true, []⟩]) := by
      rw [none_, Elem.serve, Elem.reach, clones]
      rfl
    rw [refused] at asked
    cases mem_singleton.1 asked
    rfl

theorem idle_of_still (still : Still ms replied c n s) : Idle replied s (plan ms c n) := by
  fun_induction Still ms replied c n s with
  | case1 c s none_ =>
      rw [plan_none none_]
      trivial
  | case2 c s el found ih =>
      rw [plan_some found]
      apply idle_append (entries_idle c.uri still.1)
      intro ends
      rw [← asks_eq] at ends ⊢
      split_ifs with gives
      · exact ih (still.2 ends gives)
      · trivial

theorem unionread_awake (awake : (unionread ms replied c n (.new made)).2.asleep = false) :
    (unionread ms replied c n (.new made)).1 =
        some ((Awake.unionread ms c n).1, (Awake.unionread ms c n).2.1) ∧
      (unionread ms replied c n (.new made)).2.log = shown made 0 (plan ms c n) := by
  rcases unionread_plan ms replied c n (.new made) with ⟨left, answer⟩
  rw [left] at awake ⊢
  rcases run_awake (plan ms c n) awake with ⟨ends, tells⟩
  refine ⟨answer.trans (if_pos ends), tells.trans (nil_append _)⟩

theorem replied_awake (ms : List Elem) (c : Chan) (n made : Nat) :
    (unionread ms (fun _ => true) c n (.new made)).2.asleep = false := by
  have always (es : List Entry) : ∀ s : Pass, s.asleep = false →
      (s.run (fun _ => true) es).2.asleep = false := by
    induction es with
    | nil => exact fun _ awake => awake
    | cons e es ih =>
        rintro ⟨k, made, asleep, log⟩ rfl
        rw [Pass.run]
        rcases Bool.eq_false_or_eq_true e.wired with wired | kernel
        · rw [ask_replied wired rfl]
          exact ih _ rfl
        · rw [ask_kernel kernel]
          exact ih _ rfl
  rw [(unionread_plan ms _ c n _).1]
  exact always _ _ rfl

/-- However often a call is left asleep, it answers as one that is not. -/
theorem rerun_answers (ms : List Elem) (c : Chan) (n : Nat) (runs : List (Nat → Bool))
    (made : Nat) : (rerun ms c n runs made).1 = (Awake.unionread ms c n).1 ∧
      (rerun ms c n runs made).2.1 = (Awake.unionread ms c n).2.1 := by
  induction runs generalizing made with
  | nil =>
      rw [rerun, (unionread_awake (replied_awake ms c n made)).1]
      exact ⟨rfl, rfl⟩
  | cons replied later ih =>
      rw [rerun]
      dsimp only
      split_ifs with asleep
      · exact ih _
      · rw [(unionread_awake (Bool.eq_false_of_not_eq_true asleep)).1]
        exact ⟨rfl, rfl⟩

theorem rerun_log (runs : List (Nat → Bool)) (calm : Calm ms c n runs made) :
    (rerun ms c n runs made).2.2 = shown made 0 (plan ms c n) := by
  induction runs generalizing made with
  | nil => exact (unionread_awake (replied_awake ms c n made)).2
  | cons replied later ih =>
      rw [rerun]
      rw [Calm] at calm
      dsimp only
      split_ifs with asleep
      · rcases calm asleep with ⟨still, calm⟩
        have left := (unionread_plan ms replied c n (.new made)).1
        dsimp only
        rw [ih calm]
        rw [left] at asleep ⊢
        exact (run_shown (plan ms c n) (idle_of_still still) asleep).2
      · exact (unionread_awake (Bool.eq_false_of_not_eq_true asleep)).2

theorem shown_none (k : Nat) (es : List Entry) : shown 0 k es = es.flatMap Entry.log := by
  induction es generalizing k with
  | nil => rfl
  | cons e es ih =>
      rw [shown, ih, ih, if_neg (Nat.not_lt_zero k), flatMap_cons, ite_self]

/-- What is done to an element of a kernel device is done in each run that comes to its end. -/
theorem mem_shown {e : Entry} {x : Nat × Act} {es : List Entry} (made k : Nat) (there : e ∈ es)
    (kernel : e.wired = false) (does : x ∈ e.log) : x ∈ shown made k es := by
  induction es generalizing k with
  | nil => cases there
  | cons e' es ih =>
      rw [shown]
      rcases mem_cons.1 there with rfl | later
      · rw [if_neg (by rw [kernel]; nofun)]
        exact mem_append_left _ does
      · split_ifs
        · exact mem_append_right _ (ih (k + 1) later)
        · exact mem_append_right _ (ih (k + 1) later)
        · exact mem_append_right _ (ih k later)

theorem mem_rerun {e : Entry} {x : Nat × Act} (runs : List (Nat → Bool)) (made : Nat)
    (there : e ∈ plan ms c n) (kernel : e.wired = false) (does : x ∈ e.log) :
    x ∈ (rerun ms c n runs made).2.2 := by
  induction runs generalizing made with
  | nil =>
      rw [rerun, (unionread_awake (replied_awake ms c n made)).2]
      exact mem_shown made 0 there kernel does
  | cons replied later ih =>
      rw [rerun]
      dsimp only
      split_ifs with asleep
      · exact mem_append_right _ (ih _)
      · dsimp only
        rw [(unionread_awake (Bool.eq_false_of_not_eq_true asleep)).2]
        exact mem_shown made 0 there kernel does

theorem run_extends (replied : Nat → Bool) (s : Pass) (es : List Entry) :
    s.log <+: (s.run replied es).2.log := by
  induction es generalizing s with
  | nil => exact prefix_rfl
  | cons e es ih =>
      have first : s.log <+: (s.ask replied e.elem e.wired e.ask).2.log := by
        rcases Bool.eq_false_or_eq_true e.wired with wired | kernel
        · rcases s with ⟨k, made, _ | _, log⟩
          · rcases Bool.eq_false_or_eq_true (replied k) with has | none_
            · rw [ask_replied wired has]
              exact prefix_append ..
            · rw [ask_slept wired none_]
              exact prefix_append ..
          · have asleep : (⟨k, made, true, log⟩ : Pass).asleep = true := rfl
            simp [ask_asleep wired asleep]
        · rw [ask_kernel kernel]
          exact prefix_append ..
      rw [Pass.run]
      rcases asked : s.ask replied e.elem e.wired e.ask with ⟨_ | _, t⟩
      · rw [asked] at first
        exact first
      · rw [asked] at first
        exact first.trans (ih t)

theorem run_kernel (replied : Nat → Bool) (s : Pass) {es : List Entry}
    (kernel : ∀ e ∈ es, e.wired = false) :
    s.run replied es = (true, { s with log := s.log ++ es.flatMap Entry.log }) := by
  induction es generalizing s with
  | nil =>
      rw [flatMap_nil, append_nil]
      rfl
  | cons e es ih =>
      rw [Pass.run, ask_kernel (kernel e mem_cons_self)]
      dsimp only
      rw [ih _ fun e' there => kernel e' (mem_cons_of_mem e there), flatMap_cons,
        append_assoc]

/-- An element that is open, or can be cloned, is cloned, or closed unless it gives something. -/
theorem serve_touches {el : Elem} {umc : Option Nat}
    (touched : ¬(umc = none ∧ el.clones = false)) :
    (∃ a ∈ (el.serve umc n).2, ∃ act ∈ a.acts, act = .cloned ∨ act = .closed) ∨
      umc ≠ none ∧ (el.serve umc n).1 ≠ none := by
  cases umc with
  | none =>
      left
      have clones : el.clones = true := by
        cases clones : el.clones with
        | true => rfl
        | false => exact absurd ⟨rfl, clones⟩ touched
      have cloned : ⟨true, [.cloned]⟩ ∈ (el.reach none).2 := by
        rw [Elem.reach, clones]
        cases el.opens with
        | true => exact mem_cons_self
        | false => exact mem_cons_self
      refine ⟨⟨true, [.cloned]⟩, ?_, .cloned, mem_singleton_self _, .inl rfl⟩
      rw [Elem.serve]
      rcases reached : el.reach none with ⟨_ | k, asks⟩
      · rw [reached] at cloned
        exact cloned
      · rw [reached] at cloned
        dsimp only
        rcases el.dread n k with _ | ⟨d, k'⟩
        · exact mem_append_left _ cloned
        · dsimp only
          split_ifs
          · exact mem_append_left _ cloned
          · exact mem_append_left _ cloned
  | some k =>
      rw [Elem.serve, Elem.reach]
      dsimp only
      rcases el.dread n k with _ | ⟨d, k'⟩
      · exact .inl ⟨⟨false, [.closed]⟩, by simp, .closed, mem_singleton_self _, .inr rfl⟩
      · dsimp only
        split_ifs
        · exact .inl ⟨⟨false, [.closed]⟩, by simp, .closed, mem_singleton_self _, .inr rfl⟩
        · exact .inr ⟨Option.some_ne_none k, Option.some_ne_none _⟩

/-- A run left asleep that is not still clones or closes an element of a kernel device. -/
theorem stirs (stirs : ¬Still ms replied c n s) (start : c.umc ≠ none → s.asleep = false)
    (asleep : (s.run replied (plan ms c n)).2.asleep = true) :
    ∃ e ∈ plan ms c n, e.wired = false ∧ ∃ act, (act = .cloned ∨ act = .closed) ∧
      (e.elem, act) ∈ e.log ∧ (e.elem, act) ∈ (s.run replied (plan ms c n)).2.log := by
  fun_induction Still ms replied c n s with
  | case1 c s none_ => exact absurd trivial stirs
  | case2 c s el found ih =>
      rw [plan_some found] at asleep ⊢
      by_cases idle : el.wired = true ∨ c.umc = none ∧ el.clones = false
      · rcases Classical.not_imp.1 fun later => stirs ⟨idle, later⟩ with ⟨goes, rest⟩
        rcases Classical.not_imp.1 rest with ⟨gives, later⟩
        rcases ran : s.asks replied c.uri el.wired (el.serve c.umc n).2 with ⟨ends, s'⟩
        rw [ran] at goes later ih
        obtain rfl : ends = true := goes
        rw [asks_eq] at ran
        rw [if_pos gives, run_append ran] at asleep ⊢
        rcases ih later (fun some_ => absurd rfl some_) asleep with
          ⟨e, there, kernel, act, which, does, logged⟩
        exact ⟨e, mem_append_right _ there, kernel, act, which, does, logged⟩
      · rcases not_or.1 idle with ⟨kernel, touched⟩
        have kernel : el.wired = false := Bool.eq_false_of_not_eq_true kernel
        have all : ∀ e ∈ entries c.uri el.wired (el.serve c.umc n).2, e.wired = false := by
          intro e there
          rcases mem_map.1 there with ⟨a, _, rfl⟩
          exact kernel
        have ran := run_kernel replied s all
        rw [run_append ran] at asleep ⊢
        rcases serve_touches (n := n) touched with ⟨a, asked, act, does, which⟩ | ⟨some_, gives⟩
        · have there : (⟨c.uri, el.wired, a⟩ : Entry) ∈
              entries c.uri el.wired (el.serve c.umc n).2 := mem_map_of_mem asked
          have logged : (c.uri, act) ∈ Entry.log ⟨c.uri, el.wired, a⟩ := mem_map_of_mem does
          refine ⟨_, mem_append_left _ there, kernel, act, which, logged, ?_⟩
          apply (run_extends ..).subset
          exact mem_append_right _ (mem_flatMap_of_mem there logged)
        · rw [if_neg gives] at asleep
          have asleep : s.asleep = true := asleep
          rw [start some_] at asleep
          cases asleep

theorem rerun_twice (runs : List (Nat → Bool)) (stirred : ¬Calm ms c n runs made) :
    ∃ i act, (act = .cloned ∨ act = .closed) ∧
      2 ≤ (rerun ms c n runs made).2.2.count (i, act) := by
  induction runs generalizing made with
  | nil => exact absurd trivial stirred
  | cons replied later ih =>
      rw [Calm] at stirred
      rw [rerun]
      simp only [Classical.not_imp, not_and_or] at stirred
      rcases stirred with ⟨asleep, now | after⟩
      · have left := (unionread_plan ms replied c n (.new made)).1
        rw [left] at asleep
        rcases stirs now (fun _ => rfl) asleep with ⟨e, there, kernel, act, which, does, logged⟩
        rw [← left] at asleep logged
        refine ⟨e.elem, act, which, ?_⟩
        dsimp only
        rw [if_pos asleep]
        dsimp only
        rw [count_append]
        have first := one_le_count_iff.2 logged
        have again := one_le_count_iff.2 (mem_rerun later
          (unionread ms replied c n (.new made)).2.made there kernel does)
        omega
      · rcases ih after with ⟨i, act, which, twice⟩
        refine ⟨i, act, which, ?_⟩
        dsimp only
        rw [if_pos asleep]
        dsimp only
        rw [count_append]
        omega

theorem pread_answer (ms : List Elem) (c : Chan) (n : Nat) (runs : List (Nat → Bool)) :
    (pread ms c n runs).1 = (Awake.pread ms c n).1 ∧
      (pread ms c n runs).2.1 = (Awake.pread ms c n).2.1 := by
  rcases rerun_answers ms c.rewound n runs 0 with ⟨answer, left⟩
  rw [pread, Awake.pread, answer, left]
  exact ⟨rfl, rfl⟩

theorem pread_calm {runs : List (Nat → Bool)} (calm : Calm ms c.rewound n runs 0) :
    (pread ms c n runs).2.2 = (Awake.pread ms c n).2.2 := by
  rw [pread, Awake.pread, rerun_log runs calm, shown_none, ← awake_plan]

theorem preads_eq (ns : List (Nat × List (Nat → Bool))) (calms : Calms ms c ns) :
    preads ms c ns = Awake.preads ms c (ns.map Prod.fst) := by
  induction ns generalizing c with
  | nil => rfl
  | cons read ns ih =>
      rcases read with ⟨n, runs⟩
      rcases pread_answer ms c n runs with ⟨answer, left⟩
      have log := pread_calm calms.1
      rw [preads, map_cons, Awake.preads, ← answer, ← left, ← log]
      dsimp only
      split_ifs with empty
      · rfl
      · rw [ih (calms.2 empty)]

theorem preads_twice (ns : List (Nat × List (Nat → Bool))) (stirred : ¬Calms ms c ns) :
    ∃ i act, (act = .cloned ∨ act = .closed) ∧ 2 ≤ (preads ms c ns).2.2.count (i, act) := by
  induction ns generalizing c with
  | nil => exact absurd trivial stirred
  | cons read ns ih =>
      rcases read with ⟨n, runs⟩
      have within (i : Nat) (act : Act)
          (twice : 2 ≤ (rerun ms c.rewound n runs 0).2.2.count (i, act)) :
          2 ≤ (preads ms c ((n, runs) :: ns)).2.2.count (i, act) := by
        have here : 2 ≤ (pread ms c n runs).2.2.count (i, act) := by
          rw [pread, count_append]
          exact twice.trans (Nat.le_add_left ..)
        rw [preads]
        dsimp only
        split_ifs
        · exact here
        · rw [count_append]
          exact here.trans (Nat.le_add_right ..)
      rw [Calms, not_and_or, Classical.not_imp] at stirred
      rcases stirred with now | ⟨some_, after⟩
      · rcases rerun_twice runs now with ⟨i, act, which, twice⟩
        exact ⟨i, act, which, within i act twice⟩
      · rcases ih after with ⟨i, act, which, twice⟩
        refine ⟨i, act, which, ?_⟩
        rw [preads]
        dsimp only
        rw [if_neg some_, count_append]
        exact twice.trans (Nat.le_add_left ..)

theorem count_mine (i : Nat) (act : Act) (log : Log) :
    (mine i log).count act = log.count (i, act) := by
  induction log with
  | nil => rfl
  | cons x log ih =>
      rcases x with ⟨j, act'⟩
      rw [mine, filter_cons, count_cons, ← ih, mine]
      by_cases same : j = i
      · subst same
        simp [count_cons]
      · simp [same]

/-- A directory of one entry, of two bytes, that is read whole or not at all. -/
def pair : Elem where
  wired := false
  clones := true
  opens := true
  entries := [[1, 2]]
  gives k n := if k = 0 ∧ 2 ≤ n then some 1 else some 0
  entry := by decide
  room k n m gives := by
    split_ifs at gives with first
    · cases gives
      rcases first with ⟨rfl, _⟩
      exact fun _ => Nat.le_refl 1
    · cases gives
      exact id
  fits k n m gives := by
    split_ifs at gives with first
    · cases gives
      rcases first with ⟨rfl, room⟩
      exact room
    · cases gives
      exact Nat.zero_le n
  goes k n e there room gives := by
    split_ifs at gives with first
    · cases gives
    · rcases List.getElem?_eq_some_iff.1 there with ⟨below, rfl⟩
      have zero : k = 0 := by simpa using below
      subst zero
      exact first ⟨rfl, room⟩

/-- The same, served over a mount. -/
def mounted : Elem := { pair with wired := true }

end Ipnx.Unionread
