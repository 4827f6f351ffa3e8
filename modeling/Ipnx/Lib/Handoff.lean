import Mathlib.Data.List.Basic

/-!
# Locks that are handed over

A lock with a queue: whoever finds it taken joins the queue, and whoever lets go of it hands
it to the first waiting. The lock itself knows only that it is taken; `Handoff` relates it
to who took it or was handed it and has not let go, and to who is inside what it protects.
-/

namespace Ipnx

open List

variable {Elem : Type}

/-- Those inside hold the lock or wait for it, each once; it is taken exactly when one of
them holds it. -/
structure Handoff (locked : Bool) (queue holders : List Elem) (inside waits : Elem → Prop) :
    Prop where
  free : locked = false → holders = [] ∧ queue = []
  taken : locked = true → ∃ p, holders = [p]
  nodup : queue.Nodup
  holding : ∀ p ∈ holders, inside p ∧ p ∉ queue
  waiting : ∀ p ∈ queue, inside p ∧ waits p
  entered : ∀ p, inside p → p ∈ holders ∨ p ∈ queue

namespace Handoff

variable {locked : Bool} {queue holders : List Elem} {inside inside' waits waits' : Elem → Prop}
  {p : Elem}

section Lock

variable (lock : Handoff locked queue holders inside waits)

include lock

/-- The lock is at most one's. -/
theorem length_le_one : holders.length ≤ 1 := by
  cases locked with
  | false => simp [(lock.free rfl).1]
  | true =>
      rcases lock.taken rfl with ⟨p, rfl⟩
      simp

theorem taken_iff : locked = true ↔ holders ≠ [] := by
  cases locked with
  | false => simp [(lock.free rfl).1]
  | true =>
      rcases lock.taken rfl with ⟨p, rfl⟩
      simp

theorem eq_of_mem (held : p ∈ holders) : holders = [p] ∧ locked = true := by
  have isTaken := lock.taken_iff.mpr (ne_nil_of_mem held)
  rcases lock.taken isTaken with ⟨q, rfl⟩
  exact ⟨by simp [mem_singleton.mp held], isTaken⟩

/-- The same lock, for the same inside. -/
theorem congr (same : ∀ q, inside' q ↔ inside q) (still : ∀ q ∈ queue, waits q → waits' q) :
    Handoff locked queue holders inside' waits' where
  __ := lock
  holding q held := ⟨(same q).mpr (lock.holding q held).1, (lock.holding q held).2⟩
  waiting q member :=
    ⟨(same q).mpr (lock.waiting q member).1, still q member (lock.waiting q member).2⟩
  entered q isInside := lock.entered q ((same q).mp isInside)

end Lock

/-- A free lock is taken by one who comes in. -/
theorem acquire (lock : Handoff false queue holders inside waits)
    (same : ∀ q, inside' q ↔ inside q ∨ q = p) :
    Handoff true queue (holders ++ [p]) inside' waits := by
  rcases lock.free rfl with ⟨rfl, rfl⟩
  refine ⟨by simp, fun _ => ⟨p, rfl⟩, nodup_nil, ?_, by simp, fun q isInside => ?_⟩
  · intro q held
    simp only [nil_append, mem_singleton] at held
    exact ⟨(same q).mpr (.inr held), by simp⟩
  · rcases (same q).mp isInside with before | rfl
    · simpa using lock.entered q before
    · simp

/-- One who comes in finds the lock taken and waits. -/
theorem wait (lock : Handoff true queue holders inside waits) (outside : ¬inside p)
    (same : ∀ q, inside' q ↔ inside q ∨ q = p) (waits_p : waits' p)
    (still : ∀ q ∈ queue, waits q → waits' q) :
    Handoff true (queue ++ [p]) holders inside' waits' := by
  have unqueued : p ∉ queue := fun member => outside (lock.waiting p member).1
  refine ⟨by simp, lock.taken, ?_, fun q held => ?_, fun q member => ?_, fun q isInside => ?_⟩
  · simpa [nodup_append, lock.nodup] using fun q member => by
      rintro rfl
      exact unqueued member
  · have was := lock.holding q held
    refine ⟨(same q).mpr (.inl was.1), ?_⟩
    have differs : q ≠ p := by
      rintro rfl
      exact outside was.1
    simp [was.2, differs]
  · rcases mem_append.mp member with before | last
    · have was := lock.waiting q before
      exact ⟨(same q).mpr (.inl was.1), still q before was.2⟩
    · obtain rfl : q = p := by simpa using last
      exact ⟨(same q).mpr (.inr rfl), waits_p⟩
  · rcases (same q).mp isInside with before | rfl
    · rcases lock.entered q before with held | member
      · exact .inl held
      · exact .inr (mem_append_left _ member)
    · simp

/-- Whoever holds the lock goes out, and the first waiting holds it, or nobody. -/
theorem release [DecidableEq Elem] (lock : Handoff locked queue holders inside waits)
    (held : p ∈ holders)
    (same : ∀ q, inside' q ↔ inside q ∧ q ≠ p)
    (still : ∀ q ∈ queue.tail, waits q → waits' q) :
    Handoff (!queue.isEmpty) queue.tail (holders.erase p ++ queue.head?.toList) inside' waits' := by
  rcases lock.eq_of_mem held with ⟨rfl, rfl⟩
  have mine := lock.holding p held
  have others (q : Elem) (member : q ∈ queue) : inside' q := by
    refine (same q).mpr ⟨(lock.waiting q member).1, ?_⟩
    rintro rfl
    exact mine.2 member
  have stays (q : Elem) (isInside : inside' q) : q ∈ queue := by
    rcases (same q).mp isInside with ⟨before, differs⟩
    simpa [differs] using lock.entered q before
  rcases queue with _ | ⟨first, rest⟩
  · exact ⟨by simp, by simp, by simp, by simp, by simp, fun q isInside => absurd (stays q isInside)
      (by simp)⟩
  · rcases nodup_cons.mp lock.nodup with ⟨apart, nodup⟩
    refine ⟨by simp, fun _ => ⟨first, by simp⟩, nodup, fun q isFirst => ?_, fun q member => ?_,
      fun q isInside => ?_⟩
    · obtain rfl : q = first := by simpa using isFirst
      exact ⟨others q (by simp), apart⟩
    · have queued : q ∈ first :: rest := mem_cons_of_mem _ member
      exact ⟨others q queued, still q member (lock.waiting q queued).2⟩
    · simpa using stays q isInside

end Handoff

end Ipnx
