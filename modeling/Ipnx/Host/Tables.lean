import Ipnx.Host.Confined
import Ipnx.Host.Emca
import Ipnx.Host.Fids

/-!
# The fid tables of the host's servers

The host's file server and the page's, by the bytes they are sent: what a message does to the
table is a turn of the table, as the reply says. A message that is not one changes nothing.
-/

namespace Ipnx.Host

open Ipnx.Ninep (W Msg T Turn)

def Backend.any {B : Type} (k : Backend B) : k.Deeds where
  holds _ _ _ := True
  refl _ := trivial
  before _ _ := trivial
  after _ _ := trivial
  stat _ _ := trivial
  list _ _ := trivial
  read _ _ _ _ := trivial
  write _ _ _ _ := trivial
  truncate _ _ _ := trivial
  mkdir _ _ _ := trivial
  mkfile _ _ _ := trivial
  chmod _ _ _ := trivial
  touch _ _ _ := trivial
  rename _ _ _ := trivial
  remove _ _ := trivial

namespace Store

variable {B : Type} {m : Msg} {s s' : Store B} {k : Backend B}

/-- A version, which leaves the old fids; an attach or an open that fails once its fid is
changed. -/
def Lapse (m : Msg) (s : Store B) (ty : UInt8) : Prop :=
  m.ty = T.version.code ∨ ty = T.error.code ∧
    (m.ty = T.attach.code ∧ m.fid ≠ none ∨
      m.ty = T.open.code ∧ ∃ fid mode, m.opens = some (fid, mode) ∧ s.fids fid ≠ none)

theorem Lapsed.lapse {d : k.Deeds} (lapsed : Lapsed d m s s') : Lapse m s T.error.code := by
  rcases lapsed with ⟨ty, _⟩ | ⟨ty, args, _⟩ | ⟨ty, args, there, _⟩
  · exact Or.inl ty
  · refine Or.inr ⟨rfl, Or.inl ⟨ty, ?_⟩⟩
    rw [args]
    simp
  · refine Or.inr ⟨rfl, Or.inr ⟨ty, _, _, args, ?_⟩⟩
    rw [there]
    simp

/-- The table follows the message sent, but for the lapses. -/
def Follows (k : Backend B) (s : Store (Kept B)) (b : Bytes) : Prop :=
  match Ninep.unframe b with
  | none => (rpc k.renaming s b).2 = s
  | some m => ∃ r, (rpc k.renaming s b).1 = .ok (reply m.tag r) ∧
      (¬Lapse m s (answer r).1 → ∃ made,
        (rpc k.renaming s b).2.files.2 = s.files.2 ++ made ∧
          Turn named m (some (answer r)) made s.table (rpc k.renaming s b).2.table)

theorem rpc_follows (k : Backend B) (s : Store (Kept B)) (b : Bytes) : Follows k s b := by
  rw [Follows]
  rcases whole : Ninep.unframe b with _ | m
  · simp only [rpc, whole]
  · have turn := serve_turn (d := k.any.written) (s := s) (m := m)
    rw [Served, Prog.Ends] at turn
    simp only [rpc, whole]
    rcases run : (serve k.renaming m).exec s with ⟨e | a, s'⟩ <;> rw [run] at turn
    · refine ⟨_, rfl, ?_⟩
      intro none_
      rcases turn with ⟨x, ⟨_, log⟩, turn⟩ | late
      · exact ⟨x.renames, log, turn⟩
      · exact absurd late.lapse none_
    · refine ⟨_, rfl, ?_⟩
      intro none_
      rcases turn with ⟨x, ⟨_, log⟩, turn⟩ | ⟨ty, _⟩
      · exact ⟨x.renames, log, turn⟩
      · exact absurd (Or.inl ty) none_

end Store

namespace Emca

variable {P : Type}

/-- The table follows the message sent, but for a removal. -/
def Follows (g : Page P) (s : Emca P) (b : Bytes) : Prop :=
  match header b with
  | none => (serve g s b).2 = s
  | some m => ∃ r, (serve g s b).1 = .ok (reply m.tag r) ∧
      (m.ty ≠ T.remove.code → Took m s (answer r) (serve g s b).2)

theorem serve_follows (g : Page P) (s : Emca P) (b : Bytes) : Follows g s b := by
  rw [Follows]
  rcases whole : header b with _ | m
  · simp only [serve, whole]
  · simp only [serve, whole]
    rcases run : (t g m).exec s with ⟨e | a, s'⟩
    · refine ⟨_, rfl, ?_⟩
      intro kept
      have turn := t_turn (g := g) (s := s) kept
      rw [Answers, Prog.Ends, run] at turn
      dsimp only at turn
      rw [Took, turn]
      exact Ninep.Turn.error fun removed => absurd removed kept
    · refine ⟨_, rfl, ?_⟩
      intro kept
      have turn := t_turn (g := g) (s := s) kept
      rw [Answers, Prog.Ends, run] at turn
      exact turn

end Emca

/-- Whatever is sent in whatever state, and whatever the keeper or the page does, both tables
follow 9P2000, with the keeper's own renames. -/
theorem tables_follow :
    (∀ (B : Type) (k : Backend B) (s : Store (Kept B)) (b : Bytes), s.Follows k b) ∧
    ∀ (P : Type) (g : Emca.Page P) (s : Emca P) (b : Bytes), s.Follows g b :=
  ⟨fun _ => Store.rpc_follows, fun _ => Emca.serve_follows⟩

def walked : Store Unit :=
  (Store.rpc willing (Store.rpc willing (Store.new ()) (Sent.attach 0)).2 (Sent.walk 0 1 ["a"])).2

/-- A rename answered with `Rwstat` does change the table: its fid is at the new name. -/
theorem renamed_fid :
    let wstat := Sent.rename 1 "b"
    walked.table 1 = some ⟨[.normal "a"], none⟩ ∧
      (Store.rpc willing walked wstat).1.toOption = some (W.new.frame T.wstat.reply 1) ∧
      (Store.rpc willing walked wstat).2.table 1 = some ⟨[.normal "b"], none⟩ := by
  decide

end Ipnx.Host
