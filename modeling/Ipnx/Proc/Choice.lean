import Ipnx.Proc.Run

/-!
# Who runs next

The scheduler over whole runs of the table: the processor is left idle only when nobody is
`Ready`, and who is taken was just readied, or nobody outranks it.
-/

namespace Ipnx

namespace Procs

variable {s s' : Procs} {pid : Pid}

/-- The first of the highest queue, where there is one. -/
theorem highest_spec (s : Procs) (n : Nat) :
    (s.highest n = none ∧ ∀ pri < n, s.runq pri = []) ∨
      ∃ pri pid, s.highest n = some (pri, pid) ∧ (s.runq pri).head? = some pid ∧
        ∀ above, pri < above → above < n → s.runq above = [] := by
  induction n with
  | zero => exact .inl ⟨rfl, by simp⟩
  | succ n ih =>
      rcases top : s.runq n with _ | ⟨pid, later⟩
      · have down : s.highest (n + 1) = s.highest n := by simp [highest, top]
        simp only [down, Nat.lt_succ_iff_lt_or_eq]
        rcases ih with ⟨nobody, empty⟩ | ⟨pri, pid, picked, first, empty⟩
        · left
          refine ⟨nobody, ?_⟩
          rintro pri (less | rfl)
          · exact empty pri less
          · exact top
        · right
          refine ⟨pri, pid, picked, first, ?_⟩
          rintro above higher (less | rfl)
          · exact empty above higher less
          · exact top
      · right
        exact ⟨n, pid, by simp [highest, top], by simp [top], fun above higher low => by omega⟩

theorem sched_eq_none : s.sched = none ↔ s.takereadied = none ∧ s.highest Pri.nrq = none := by
  simp [sched, runproc, takehighest, Option.or_eq_none_iff]

/-- Who is taken was just readied, or is the first of the highest queue. -/
theorem sched_choice (picked : s.sched = some (pid, s')) :
    s.m.readied = some pid ∨ ∃ pri, s.highest Pri.nrq = some (pri, pid) := by
  simp only [sched, runproc, Option.map_map, Option.map_eq_some_iff, Function.comp_apply,
    Prod.mk.injEq, Prod.exists] at picked
  rcases picked with ⟨q, t, taken, rfl, rfl⟩
  rcases readied : s.takereadied with _ | ⟨q', t'⟩
  · right
    simp only [readied, Option.none_or, takehighest, Option.map_eq_some_iff, Prod.mk.injEq,
      Prod.exists] at taken
    rcases taken with ⟨pri, q', first, rfl, -⟩
    exact ⟨pri, first⟩
  · left
    simp only [readied, Option.some_or, Option.some.injEq, Prod.mk.injEq] at taken
    rcases taken with ⟨rfl, rfl⟩
    simp only [takereadied] at readied
    split_ifs at readied
    rcases just : s.m.readied with _ | p <;> simp only [just] at readied
    · cases readied
    · rcases found : s.tab p with _ | here <;> simp only [found] at readied
      · cases readied
      · split_ifs at readied
        cases readied
        rfl

/-- In every run whose priority changes are not of a queued process: the processor is left idle
just when nobody is `Ready`. Otherwise a `Ready` process is taken off its queue, no other queue
being touched, and it was just readied, or no `Ready` process is of a higher priority and it is
the first of its own. -/
theorem highest_taken (reached : table.Reach Sorting s) :
    (s.sched = none ↔ ∀ pid, s.state pid ≠ .ready) ∧
      ∀ pid s', s.sched = some (pid, s') → ∃ p, s.tab pid = some p ∧ p.state = .ready ∧
        s'.runq = Queues.take s.runq p.priority pid ∧
        (s.m.readied = some pid ∨ (s.runq p.priority).head? = some pid ∧
          ∀ q p', s.tab q = some p' → p'.state = .ready → p'.priority ≤ p.priority) := by
  rcases sorted_of_reach reached with ⟨inv, sorted⟩
  have kept := runqInv_of_sorted inv sorted
  have queued {q : Pid} {p : Proc} (found : s.tab q = some p) (ready : p.state = .ready) :
      q ∈ s.runq p.priority ∧ p.priority < Pri.nrq := by
    refine ⟨?_, Board.lt_nrq (inv.wf.bounded q _ (board_view found)).2⟩
    apply List.count_pos_iff.1
    simp [kept.ready q p found ready]
  have source {q : Pid} {place : Nat} (there : q ∈ s.runq place) :
      ∃ p, s.tab q = some p ∧ p.state = .ready ∧ p.priority = place := by
    rcases sorted.source there with ⟨v, found, ready, -⟩
    rcases tab_of_board_view found with ⟨p, here, rfl⟩
    refine ⟨p, here, ready, ?_⟩
    have count := List.count_pos_iff.2 there
    rw [kept.ready q p here ready] at count
    split_ifs at count with same
    · exact same.symm
    · cases count
  constructor
  · constructor
    · intro idle pid ready
      rcases found : s.tab pid with _ | p
      · simp [state, found] at ready
      · have there := queued found (by simpa [state, found] using ready)
        rcases s.highest_spec Pri.nrq with ⟨-, empty⟩ | ⟨pri, q, first, -, -⟩
        · simp [empty _ there.2] at there
        · simp [(sched_eq_none.1 idle).2] at first
    · intro nobody
      rcases picked : s.sched with _ | ⟨pid, s'⟩
      · rfl
      · rcases sched_picked picked with ⟨place, _, there, -⟩
        rcases source there with ⟨p, found, ready, -⟩
        exact absurd (by simp [state, found, ready]) (nobody pid)
  · intro pid s' picked
    rcases sched_picked picked with ⟨place, pri, there, -, board⟩
    rcases source there with ⟨p, found, ready, rfl⟩
    refine ⟨p, found, ready, congrArg Board.runq board, ?_⟩
    rcases sched_choice picked with readied | ⟨place, first⟩
    · exact .inl readied
    · right
      rcases s.highest_spec Pri.nrq with ⟨nobody, -⟩ | ⟨pri', q, first', head, empty⟩
      · simp [nobody] at first
      · rw [first] at first'
        cases first'
        rcases source (List.mem_of_mem_head? head) with ⟨p', found', -, rfl⟩
        rw [found] at found'
        cases found'
        refine ⟨head, ?_⟩
        intro q p' found' ready'
        by_contra higher
        have there' := queued found' ready'
        simp [empty _ (Nat.lt_of_not_le higher) there'.2] at there'

theorem highest_taken_forked : table.Reach Sorting forked ∧
    (forked.sched = none ↔ ∀ pid, forked.state pid ≠ .ready) := by
  have reached : table.Reach Sorting forked :=
    reach_forked ⟨callers_forked.1, trivial⟩ ⟨callers_forked.2, trivial⟩
  exact ⟨reached, (highest_taken reached).1⟩

end Procs

end Ipnx
