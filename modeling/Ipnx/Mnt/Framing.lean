import Ipnx.Lib.Codec
import Ipnx.Lib.System

/-!
# Messages out of a wire's bytes

`mntrpcread`, the loop of `Wire::rpc` that fills the wire's `inbuf`: it asks the device for what
is missing of a message, first of its size and then of the rest, and is given what there is. The
reader may leave at any byte and another go on from there.
-/

namespace Ipnx.Mnt

open List

/-- The size that the bytes at hand say; the size of a size, before they do. -/
def size (inbuf : Bytes) : Nat := if 4 ≤ inbuf.length then ofLe (inbuf.take 4) else 4

/-- How a turn of the loop goes on: out of it with an error or a message, or to ask for more. -/
inductive Turn
  | short
  | msg (m left : Bytes)
  | ask (n : Nat)
deriving DecidableEq

def turn (inbuf : Bytes) : Turn :=
  if 4 ≤ inbuf.length ∧ size inbuf < 7 then .short
  else if size inbuf ≤ inbuf.length ∧ 4 ≤ inbuf.length then
    .msg (inbuf.take (size inbuf)) (inbuf.drop (size inbuf))
  else .ask (size inbuf - inbuf.length)

/-- A wire: the bytes that came on it and those not read, what is kept of a message read in part,
and the messages handed on. -/
structure Stream where
  came : Bytes
  unread : Bytes
  inbuf : Bytes
  taken : List Bytes
deriving DecidableEq

inductive StreamAct
  /-- The server writes. -/
  | come (b : Bytes)
  /-- The device answers so many bytes. -/
  | read (n : Nat)
  | take
  /-- The reader sleeps, is interrupted or fails. -/
  | leave
deriving DecidableEq

namespace Stream

def new : Stream := ⟨[], [], [], []⟩

def step (s : Stream) : StreamAct → Option Stream
  | .come b => some { s with came := s.came ++ b, unread := s.unread ++ b }
  | .read n =>
      match turn s.inbuf with
      | .ask most =>
          if 0 < n ∧ n ≤ most ∧ n ≤ s.unread.length then
            some { s with inbuf := s.inbuf ++ s.unread.take n, unread := s.unread.drop n }
          else none
      | _ => none
  | .take =>
      match turn s.inbuf with
      | .msg m left => some { s with inbuf := left, taken := s.taken ++ [m] }
      | _ => none
  | .leave => some s

def system : System Stream StreamAct where
  init s := s = new
  step s a s' := s.step a = some s'

end Stream

/-- A message that is as long as it says, and long enough to have a type and a tag. -/
def Framed (m : Bytes) : Prop := 7 ≤ m.length ∧ size m = m.length

theorem size_append {m : Bytes} (long : 4 ≤ m.length) (more : Bytes) :
    size (m ++ more) = size m := by
  have long' : 4 ≤ (m ++ more).length := by simp; omega
  simp only [size, if_pos long, if_pos long', take_append_of_le_length long]

/-- The first message of some bytes is the one it is. -/
theorem Framed.first {m m' more more' : Bytes} (framed : Framed m) (framed' : Framed m')
    (same : m ++ more = m' ++ more') : m = m' ∧ more = more' := by
  apply append_inj same
  have sizes := congrArg size same
  simp only [size_append (Nat.le_trans (by omega) framed.1),
    size_append (Nat.le_trans (by omega) framed'.1), framed.2, framed'.2] at sizes
  exact sizes

theorem split_frames {frames taken : List Bytes} {more : Bytes} (mine : ∀ m ∈ taken, Framed m)
    (framed : ∀ f ∈ frames, Framed f) (bytes : taken.flatten ++ more <+: frames.flatten) :
    ∃ left, frames = taken ++ left ∧ more <+: left.flatten := by
  induction taken generalizing frames with
  | nil => exact ⟨frames, rfl, by simpa using bytes⟩
  | cons m taken ih =>
      have here := mine m (mem_cons_self ..)
      rcases bytes with ⟨after, whole⟩
      rcases frames with _ | ⟨f, frames⟩
      · have long := here.1
        simp only [flatten_cons, flatten_nil, append_eq_nil_iff] at whole
        simp [whole.1.1.1] at long
      · simp only [flatten_cons, append_assoc] at whole
        rcases here.first (framed f (mem_cons_self ..)) whole with ⟨rfl, rest⟩
        rcases ih (fun m' member => mine m' (mem_cons_of_mem _ member))
          (fun f' member => framed f' (mem_cons_of_mem _ member))
          ⟨after, by simpa using rest⟩ with ⟨left, rfl, begins⟩
        exact ⟨left, rfl, begins⟩

namespace Stream

variable {s s' : Stream}

structure Inv (s : Stream) : Prop where
  came : s.came = s.taken.flatten ++ s.inbuf ++ s.unread
  framed : ∀ m ∈ s.taken, Framed m
  short : s.inbuf.length ≤ max 4 (size s.inbuf)

/-- What is handed on is all of what was kept, as long as it says. -/
theorem Inv.msg (inv : Inv s) {m left : Bytes} (out : turn s.inbuf = .msg m left) :
    m = s.inbuf ∧ left = [] ∧ Framed m := by
  simp only [turn] at out
  split_ifs at out with tiny whole
  cases out
  have short := inv.short
  have all : s.inbuf.take (size s.inbuf) = s.inbuf := take_of_length_le (by omega)
  refine ⟨all, drop_of_length_le (by omega), ?_⟩
  rw [all]
  exact ⟨by omega, by omega⟩

theorem Inv.step {a : StreamAct} (inv : Inv s) (moved : s.step a = some s') : Inv s' := by
  cases a with
  | come b =>
      cases moved
      exact ⟨by simp [inv.came], inv.framed, inv.short⟩
  | read n =>
      have short := inv.short
      simp only [Stream.step] at moved
      rcases out : turn s.inbuf with _ | _ | most <;> simp only [out] at moved
      · cases moved
      · cases moved
      split_ifs at moved with room
      cases moved
      have asked : most = size s.inbuf - s.inbuf.length := by
        simp only [turn] at out
        split_ifs at out
        cases out
        rfl
      refine ⟨by simp [inv.came], inv.framed, ?_⟩
      have length : (s.inbuf ++ s.unread.take n).length = s.inbuf.length + n := by
        simp [room.2.2]
      rcases Nat.lt_or_ge s.inbuf.length 4 with few | enough
      · have four : size s.inbuf = 4 := by simp [size, few]
        simp only [length]
        omega
      · simp only [length, size_append enough]
        omega
  | take =>
      simp only [Stream.step] at moved
      rcases out : turn s.inbuf with _ | ⟨m, left⟩ | n <;> simp only [out] at moved <;> cases moved
      rcases inv.msg out with ⟨rfl, rfl, framed⟩
      refine ⟨by simp [inv.came], ?_, Nat.zero_le _⟩
      simpa [or_imp, forall_and] using ⟨inv.framed, framed⟩
  | leave =>
      cases moved
      exact inv

theorem inv_of_reach (reached : system.Reachable s) : Inv s := by
  apply reached.invariant Inv
  · rintro _ rfl
    exact ⟨rfl, by simp [new], Nat.zero_le _⟩
  · intro s a s' inv _ moved
    exact inv.step moved

/-- In every run, whatever came: what was handed on, what is kept and what is unread are the bytes
that came, in order; every message handed on is as long as it says, and no more than one is kept.
Where what came is messages, so far, the wire never fails for its bytes, the messages handed on are
the first of those, the next one handed on is the next of those, and once all of them came and
were read, they were all handed on. -/
theorem messages_whole (reached : system.Reachable s) :
    s.came = s.taken.flatten ++ s.inbuf ++ s.unread ∧ (∀ m ∈ s.taken, Framed m) ∧
      s.inbuf.length ≤ max 4 (size s.inbuf) ∧
      ∀ frames : List Bytes, (∀ f ∈ frames, Framed f) → s.came <+: frames.flatten →
        turn s.inbuf ≠ .short ∧ s.taken <+: frames ∧
          (∀ m left, turn s.inbuf = .msg m left → frames[s.taken.length]? = some m) ∧
          (s.came = frames.flatten → s.unread = [] → (∀ m left, turn s.inbuf ≠ .msg m left) →
            s.taken = frames) := by
  have inv := inv_of_reach reached
  refine ⟨inv.came, inv.framed, inv.short, ?_⟩
  intro frames framed begins
  rw [inv.came, append_assoc] at begins
  rcases split_frames inv.framed framed begins with ⟨left, rfl, ⟨after, rest⟩⟩
  rcases left with _ | ⟨f, left⟩
  · have kept : s.inbuf = [] := by simp_all
    simp [kept, turn, size]
  · have here := framed f (by simp)
    have long := here.1
    rw [flatten_cons, append_assoc] at rest
    have tells : 4 ≤ s.inbuf.length → size s.inbuf = f.length := by
      intro enough
      rw [← size_append enough, rest, size_append (by omega), here.2]
    refine ⟨?_, prefix_append _ _, ?_, ?_⟩
    · intro short
      simp only [turn] at short
      split_ifs at short with tiny
      have same := tells tiny.1
      omega
    · intro m more out
      rcases inv.msg out with ⟨rfl, -, whole⟩
      simp [(whole.first here rest).1]
    · intro all none_ stuck
      have kept : s.inbuf = f ++ left.flatten := by simpa [inv.came, none_] using all
      have enough : f.length ≤ s.inbuf.length := by simp [kept]
      have same := tells (by omega)
      have tiny : ¬(4 ≤ s.inbuf.length ∧ size s.inbuf < 7) := by omega
      exact absurd (by rw [turn, if_neg tiny, if_pos (by omega)]) (stuck _ _)

def rclunk : Bytes := [7, 0, 0, 0, 121, 1, 0]

/-- It comes with the beginning of another, and is read in three pieces, by two readers. -/
theorem messages_whole_pieces : ∃ s : Stream, system.Reachable s ∧ s.taken = [rclunk] ∧
    s.taken <+: [rclunk, rclunk] := by
  let acts : List StreamAct := [.come (rclunk ++ [7]), .read 3, .leave, .read 1, .read 3, .take]
  have ran : System.runs step (fun _ _ => True) new acts =
      some ⟨rclunk ++ [7], [7], [], [rclunk]⟩ := by decide
  have reached : system.Reachable ⟨rclunk ++ [7], [7], [], [rclunk]⟩ :=
    (System.Reach.init rfl).runs (fun _ _ _ moved => moved) ran
  have framed : ∀ f ∈ [rclunk, rclunk], Framed f := by simp [Framed, size, rclunk, ofLe]
  exact ⟨_, reached, rfl, ((messages_whole reached).2.2.2 _ framed ⟨rclunk.tail, rfl⟩).2.1⟩

end Stream

end Ipnx.Mnt
