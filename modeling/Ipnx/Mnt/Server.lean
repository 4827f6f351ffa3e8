import Ipnx.Mnt.Mux

/-!
# A server that keeps to the protocol

It answers a request once, with the request's tag, answers the flushes of one request in the
order they were sent, and does not answer a request after one of its flushes. A request is
pending as long as an answer to it may still be read.
-/

namespace Ipnx.Mnt

open List

/-- The server may write the message, when it has had the requests and written the others. -/
structure Answerable (sent : List Req) (told : List Msg) (m : Msg) : Prop where
  req : ∃ req, sent[m.re]? = some req ∧ req.tag = m.tag
  once : ∀ m' ∈ told, m'.re ≠ m.re
  unflushed : ∀ req, sent[m.re]? = some req → req.oldtag = none → ∀ j f, m.re < j →
    sent[j]? = some f → f.oldtag = some req.tag → ∀ m' ∈ told, m'.re ≠ j
  inorder : ∀ req t, sent[m.re]? = some req → req.oldtag = some t → ∀ j f, j < m.re →
    sent[j]? = some f → f.oldtag = some t → ∃ m' ∈ told, m'.re = j

/-- Every message could be written when it was. -/
def Conforms (sent : List Req) (told : List Msg) : Prop :=
  ∀ pre m post, told = pre ++ m :: post → Answerable sent pre m

namespace Conforms

variable {sent : List Req} {told : List Msg} {m m' : Msg} {n i j : Nat}

section Conforms

variable (conforms : Conforms sent told)

include conforms

theorem req_of_mem (member : m ∈ told) : ∃ req, sent[m.re]? = some req ∧ req.tag = m.tag := by
  rcases append_of_mem member with ⟨pre, post, split⟩
  exact (conforms pre m post split).req

theorem lt_length (member : m ∈ told) : m.re < sent.length := by
  rcases conforms.req_of_mem member with ⟨req, found, -⟩
  exact (List.getElem?_eq_some_iff.mp found).1

theorem apart (first : m ∈ told.take n) (next : told[n]? = some m') : m.re ≠ m'.re := by
  rcases List.getElem?_eq_some_iff.mp next with ⟨bound, rfl⟩
  have split : told = told.take n ++ told[n] :: told.drop (n + 1) := by
    rw [getElem_cons_drop, take_append_drop]
  exact (conforms _ _ _ split).once m first

theorem eq_of_re (member : m ∈ told) (member' : m' ∈ told) (same : m.re = m'.re) : m = m' := by
  rcases append_of_mem member with ⟨pre, post, rfl⟩
  rcases mem_append.mp member' with before | after
  · exact absurd same.symm ((conforms pre m post rfl).once m' before)
  · rcases mem_cons.mp after with rfl | later
    · rfl
    · rcases append_of_mem later with ⟨mid, last, rfl⟩
      have split : pre ++ m :: (mid ++ m' :: last) = (pre ++ m :: mid) ++ m' :: last := by simp
      exact absurd same ((conforms _ m' last split).once m (by simp))

theorem append (answers : Answerable sent told m) : Conforms sent (told ++ [m]) := by
  intro pre m' post split
  rcases eq_nil_or_concat post with rfl | ⟨post', last, rfl⟩
  · have same := append_inj' split (by simp)
    rcases same with ⟨rfl, tail⟩
    obtain rfl : m = m' := by simpa using tail
    exact answers
  · have same : told ++ [m] = (pre ++ m' :: post') ++ [last] := by simpa using split
    exact conforms pre m' post' (append_inj_left' same (by simp))

theorem send (req : Req) : Conforms (sent ++ [req]) told := by
  intro pre m post split
  have answers := conforms pre m post split
  have member : m ∈ told := by simp [split]
  have old (m : Msg) (member : m ∈ told) : (sent ++ [req])[m.re]? = sent[m.re]? :=
    List.getElem?_append_left (conforms.lt_length member)
  have earlier (m' : Msg) (before : m' ∈ pre) : m' ∈ told := by simp [split, before]
  refine ⟨?_, answers.once, fun req' found plain j f after sentF oldtag m' before => ?_,
    fun req' t found flushes j f before' sentF oldtag => ?_⟩
  · rw [old m member]
    exact answers.req
  · rw [old m member] at found
    rcases Nat.lt_or_ge j sent.length with inside | outside
    · rw [List.getElem?_append_left inside] at sentF
      exact answers.unflushed req' found plain j f after sentF oldtag m' before
    · have bound := conforms.lt_length (earlier m' before)
      omega
  · rw [old m member] at found
    have bound := conforms.lt_length member
    rw [List.getElem?_append_left (Nat.lt_trans before' bound)] at sentF
    exact answers.inorder req' t found flushes j f before' sentF oldtag

end Conforms

theorem read_of_flush {req f : Req} (conforms : Conforms sent told) (isReq : sent[i]? = some req)
    (plain : req.oldtag = none) (later : i < j) (isFlush : sent[j]? = some f)
    (flushes : f.oldtag = some req.tag) (answered : ∃ m ∈ told.take n, m.re = j)
    (told_i : ∃ m ∈ told, m.re = i) : ∃ m ∈ told.take n, m.re = i := by
  rcases told_i with ⟨m, member, rfl⟩
  rw [← take_append_drop n told] at member
  rcases mem_append.mp member with before | after
  · exact ⟨m, before, rfl⟩
  · rcases append_of_mem after with ⟨mid, last, split⟩
    have whole : told = (told.take n ++ mid) ++ m :: last := by
      rw [append_assoc, ← split, take_append_drop]
    rcases answered with ⟨m', read, rfl⟩
    exact absurd rfl ((conforms _ m last whole).unflushed req isReq plain _ f later isFlush
        flushes m'
      (mem_append_left _ read))

theorem read_of_later {f f' : Req} {t : Tag} (conforms : Conforms sent told)
    (isFlush : sent[i]? = some f) (flushes : f.oldtag = some t) (later : i < j)
    (isFlush' : sent[j]? = some f') (flushes' : f'.oldtag = some t)
    (answered : ∃ m ∈ told.take n, m.re = j) : ∃ m ∈ told.take n, m.re = i := by
  rcases answered with ⟨m, read, rfl⟩
  rcases append_of_mem read with ⟨pre, post, split⟩
  have whole : told = pre ++ m :: (post ++ told.drop n) := by
    have both := take_append_drop n told
    rw [split, append_assoc] at both
    exact both.symm
  rcases (conforms pre m _ whole).inorder f' t isFlush' flushes' i f later isFlush flushes with
    ⟨m', before, same⟩
  exact ⟨m', by simp [split, before], same⟩

end Conforms

namespace Mounts

variable {κ : Type}

/-- A message that answers the request has been written. -/
def Answered (w : Mounts κ) (k : κ) (i : Nat) : Prop := ∃ m ∈ w.told k, m.re = i

/-- A message that answers the request has been read. -/
def Read (w : Mounts κ) (k : κ) (i : Nat) : Prop := ∃ m ∈ (w.told k).take (w.nread k), m.re = i

/-- A flush of the request has been answered. -/
def Flushed (w : Mounts κ) (k : κ) (i : Nat) : Prop :=
  ∃ req, (w.sent k)[i]? = some req ∧ req.oldtag = none ∧ ∃ j f, i < j ∧ (w.sent k)[j]? = some f ∧
    f.oldtag = some req.tag ∧ w.Answered k j

/-- An answer to the request may still be read: one is on its way, or the server may yet
write one. -/
def Pending (w : Mounts κ) (k : κ) (i : Nat) : Prop :=
  i < (w.sent k).length ∧ ¬w.Read k i ∧
    (w.Answered k i ∨ ¬w.Flushed k i ∧ w.hungup k = false)

end Mounts

end Ipnx.Mnt
