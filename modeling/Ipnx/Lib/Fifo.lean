import Mathlib.Data.List.Flatten

/-!
# First in, first out, by blocks

What may be drawn from a queue of blocks: the front of the first block, which stays at the
head with what was left of it, or all of it. Whatever is drawn in that way is, put together,
a prefix of what was queued, and no draw reaches past the end of a block.
-/

namespace Ipnx

variable {Elem : Type}

/-- From the blocks queued so far, these draws were made, and these blocks are left. -/
inductive Drawn : List (List Elem) → List (List Elem) → List (List Elem) → Prop
  | empty : Drawn [] [] []
  | queue {queued draws left : List (List Elem)} (drawn : Drawn queued draws left)
      (block : List Elem) : Drawn (queued ++ [block]) draws (left ++ [block])
  /-- A draw of nothing. -/
  | none {queued draws left : List (List Elem)} (drawn : Drawn queued draws left) :
      Drawn queued (draws ++ [[]]) left
  | part {queued draws left : List (List Elem)} {front back : List Elem}
      (drawn : Drawn queued draws ((front ++ back) :: left)) :
      Drawn queued (draws ++ [front]) (back :: left)
  | whole {queued draws left : List (List Elem)} {block : List Elem}
      (drawn : Drawn queued draws (block :: left)) : Drawn queued (draws ++ [block]) left

namespace Drawn

variable {queued draws left : List (List Elem)}

/-- Nothing is lost, repeated or put in another order. -/
theorem flatten (drawn : Drawn queued draws left) :
    draws.flatten ++ left.flatten = queued.flatten := by
  induction drawn with
  | empty => rfl
  | queue drawn block ih => simp [← ih]
  | none drawn ih => simpa using ih
  | part drawn ih => simp [← ih]
  | whole drawn ih => simp [← ih]

/-- What is left begins inside one of the blocks queued, or there is nothing left. -/
theorem place (drawn : Drawn queued draws left) :
    left = [] ∧ draws.flatten = queued.flatten ∨
      ∃ gone front back later, left = back :: later ∧
        queued = gone ++ (front ++ back) :: later ∧ draws.flatten = gone.flatten ++ front := by
  induction drawn with
  | empty => exact .inl ⟨rfl, rfl⟩
  | @queue queued draws left drawn block ih =>
      rcases ih with ⟨rfl, same⟩ | ⟨gone, front, back, later, rfl, rfl, same⟩
      · exact .inr ⟨queued, [], block, [], rfl, by simp, by simp [same]⟩
      · exact .inr ⟨gone, front, back, later ++ [block], rfl, by simp, same⟩
  | none drawn ih => simpa using ih
  | @part queued draws left front back drawn ih =>
      rcases ih with ⟨absurd, -⟩ | ⟨gone, before, back', later, same, rfl, prior⟩
      · simp at absurd
      · rcases List.cons.inj same with ⟨rfl, rfl⟩
        exact .inr ⟨gone, before ++ front, back, left, rfl, by simp, by simp [prior]⟩
  | @whole queued draws left block drawn ih =>
      rcases ih with ⟨absurd, -⟩ | ⟨gone, before, back', later, same, rfl, prior⟩
      · simp at absurd
      · rcases List.cons.inj same with ⟨rfl, rfl⟩
        rcases left with _ | ⟨next, rest⟩
        · exact .inl ⟨rfl, by simp [prior]⟩
        · exact .inr ⟨gone ++ [before ++ block], [], next, rest, rfl, by simp, by simp [prior]⟩

/-- One of a list of draws to which one was added is the last, or was there before. -/
theorem last_or_before {draws before after : List (List Elem)} {last draw : List Elem}
    (made : draws ++ [last] = before ++ draw :: after) :
    draws = before ∧ last = draw ∨ ∃ after', draws = before ++ draw :: after' := by
  rcases List.eq_nil_or_concat after with rfl | ⟨after', final, rfl⟩
  · have split := List.append_inj' made rfl
    exact .inl ⟨split.1, by simpa using split.2⟩
  · have same : draws ++ [last] = (before ++ draw :: after') ++ [final] := by simpa using made
    exact .inr ⟨after', List.append_inj_left' same rfl⟩

/-- A draw lies inside one block, right after what was drawn before it. -/
theorem inside (drawn : Drawn queued draws left) {before after : List (List Elem)}
    {draw : List Elem} (made : draws = before ++ draw :: after) :
    draw = [] ∨ ∃ gone front back later, queued = gone ++ (front ++ draw ++ back) :: later ∧
      before.flatten = gone.flatten ++ front := by
  induction drawn generalizing before draw after with
  | empty => simp at made
  | queue drawn block ih =>
      rcases ih made with nothing | ⟨gone, front, back, later, rfl, prior⟩
      · exact .inl nothing
      · exact .inr ⟨gone, front, back, later ++ [block], by simp, prior⟩
  | none drawn ih =>
      rcases last_or_before made with ⟨-, rfl⟩ | ⟨after', earlier⟩
      · exact .inl rfl
      · exact ih earlier
  | @part queued draws left front back drawn ih =>
      rcases last_or_before made with ⟨rfl, rfl⟩ | ⟨after', earlier⟩
      · rcases drawn.place with ⟨absurd, -⟩ | ⟨gone, start, back', later, same, rfl, prior⟩
        · simp at absurd
        · rcases List.cons.inj same with ⟨rfl, rfl⟩
          exact .inr ⟨gone, start, back, left, by simp, prior⟩
      · exact ih earlier
  | @whole queued draws left block drawn ih =>
      rcases last_or_before made with ⟨rfl, rfl⟩ | ⟨after', earlier⟩
      · rcases drawn.place with ⟨absurd, -⟩ | ⟨gone, start, back', later, same, rfl, prior⟩
        · simp at absurd
        · rcases List.cons.inj same with ⟨rfl, rfl⟩
          exact .inr ⟨gone, start, [], left, by simp, prior⟩
      · exact ih earlier

end Drawn

end Ipnx
