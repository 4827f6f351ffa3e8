import Ipnx.Pipe.Dev

/-!
# The two ends of a pipe

What the count of opens, the hangups and the history say of one another, and that every open,
close, read and write keeps it. Once an end has gone both queues are closed: the one it read is
empty, and the other keeps what was queued for the other end, less what that has read. When both
ends are closed the queues are as new, but for what is queued for an end that was not opened.
-/

namespace Ipnx

open List
open End
open Function (update update_eq_self update_of_ne update_self)

namespace Queue

/-- The queue is open again, and has its limit. -/
structure Fresh (q : Queue) : Prop where
  isOpen : q.closed = false
  eof : q.eof = 0
  room : q.limit = pipeqsize

end Queue

/-- What a queue of a pipe is at any time. -/
structure Plain (q : Queue) : Prop where
  whole : q.coalesce = false
  waits : q.noblock = false
  limit : q.limit = pipeqsize
  inilim : q.inilim = pipeqsize
  early : q.closed = false → q.eof = 0
  sized : q.len = tally Prod.snd q.blocks

/-- A pipe with so many channels on each end, after this history. -/
structure Sound (opens : End → Nat) (p : Pipe) (u : Use) : Prop where
  count : ∀ e, (p.qref e).toNat = opens e
  plain : ∀ e, Plain (p.q e)
  closed : ∀ e, (p.q e).closed = true ↔ u.gone e = true ∨ u.gone e.other = true
  cleared : ∀ e, u.gone e = true → (p.q e).blocks = []
  left : ∀ e, u.opened e = true → p.qref e = 0 → u.gone e = true
  owed : ∀ e, u.gone e.other = true → u.gone e = false →
    (p.q e).err = ehungup ∧ u.got e ++ (p.q e).bytes = u.owed e
  fresh : (∀ e, p.qref e = 0) → ∀ e, (p.q e).Fresh ∧ (u.idle e = false → (p.q e).blocks = [])

namespace Sound

variable {opens opens' : End → Nat} {p : Pipe} {u : Use} {e : End}

theorem new : Sound (fun _ => 0) .new .new where
  count _ := rfl
  plain _ := ⟨rfl, rfl, rfl, rfl, fun _ => rfl, rfl⟩
  closed e := by simp [Pipe.new, Queue.new, Use.new]
  cleared e gone := by cases gone
  left e opened := by cases opened
  owed e gone := by cases gone
  fresh _ _ := ⟨⟨rfl, rfl, rfl⟩, fun _ => rfl⟩

theorem opened (sound : Sound opens p u) (room : p.qref e ≠ 0xffffffff) :
    Sound (update opens e (opens e + 1)) (p.setref e (p.qref e + 1)) (u.opens e) := by
  have bound : (p.qref e).toNat + 1 < 2 ^ 32 := by
    have lt := (p.qref e).toNat_lt
    have ne : (p.qref e).toNat ≠ 4294967295 := fun eq => room (UInt32.toNat.inj eq)
    omega
  have more : (p.qref e + 1).toNat = (p.qref e).toNat + 1 := by
    rw [UInt32.toNat_add]
    exact Nat.mod_eq_of_lt bound
  have some : p.qref e + 1 ≠ 0 := by
    intro zero
    rw [zero] at more
    exact absurd more (by simp)
  refine ⟨?_, sound.plain, sound.closed, sound.cleared, ?_, sound.owed, ?_⟩
  · intro e'
    rw [Pipe.setref]
    dsimp only
    rcases eq_or_ne e' e with rfl | differs
    · rw [update_self, update_self, more, sound.count]
    · rw [update_of_ne differs, update_of_ne differs, sound.count]
  · intro e' was zero
    rw [Pipe.setref] at zero
    rw [Use.opens] at was ⊢
    dsimp only at was zero ⊢
    rcases eq_or_ne e' e with rfl | differs
    · rw [update_self] at zero
      exact absurd zero some
    · rw [update_of_ne differs] at zero was
      exact sound.left e' was zero
  · intro all
    have zero := all e
    rw [Pipe.setref] at zero
    dsimp only at zero
    rw [update_self] at zero
    exact absurd zero some

theorem drop_qref (some : opens e ≠ 0) (sound : Sound opens p u) :
    ((p.drop e).qref e).toNat = opens e - 1 := by
  have count := sound.count e
  have positive : p.qref e ≠ 0 := by
    intro zero
    rw [zero] at count
    exact some count.symm
  rw [Pipe.drop, Pipe.setref, if_neg positive]
  dsimp only
  rw [update_self, UInt32.toNat_sub_of_le, count]
  · rfl
  · rw [UInt32.le_iff_toNat_le, count]
    exact Nat.one_le_iff_ne_zero.2 some

theorem drop_qref_other : (p.drop e).qref e.other = p.qref e.other := by
  rw [Pipe.drop, Pipe.setref]
  exact update_of_ne (other_ne e) _ _

theorem count_drop (some : opens e ≠ 0) (sound : Sound opens p u) (e' : End) :
    ((p.drop e).qref e').toNat = update opens e (opens e - 1) e' := by
  rcases eq_or_other e e' with rfl | rfl
  · rw [update_self, drop_qref some sound]
  · rw [update_of_ne (other_ne e), drop_qref_other, sound.count]

theorem both_zero (qref : End → UInt32) (e : End) :
    qref .data = 0 ∧ qref .data1 = 0 ↔ qref e = 0 ∧ qref e.other = 0 := by
  cases e
  · rfl
  · exact and_comm

theorem last_iff (some : opens e ≠ 0) (sound : Sound opens p u) :
    (p.drop e).qref e = 0 ↔ opens e = 1 := by
  rw [← UInt32.toNat_inj, drop_qref some sound, UInt32.toNat_zero]
  omega

theorem qref_eq_zero_iff (sound : Sound opens p u) (e : End) : p.qref e = 0 ↔ opens e = 0 := by
  rw [← UInt32.toNat_inj, sound.count, UInt32.toNat_zero]

theorem stays (sound : Sound opens p u) (some : opens e ≠ 0) (more : (p.drop e).qref e ≠ 0) :
    Sound (update opens e (opens e - 1)) (p.close e) u := by
  have same : p.close e = p.drop e := by
    rw [Pipe.close]
    rw [if_neg more, if_neg]
    rw [both_zero _ e]
    exact fun both => more both.1
  rw [same]
  refine ⟨count_drop some sound, sound.plain, sound.closed, sound.cleared, ?_, sound.owed, ?_⟩
  · intro e' was zero
    rcases eq_or_other e e' with rfl | rfl
    · exact absurd zero more
    · rw [drop_qref_other] at zero
      exact sound.left _ was zero
  · intro all
    exact absurd (all e) more

theorem plain_hangup {q : Queue} (plain : Plain q) : Plain q.hangup :=
  ⟨plain.whole, plain.waits, plain.limit, plain.inilim, nofun, plain.sized⟩

theorem plain_close {q : Queue} (plain : Plain q) : Plain q.close :=
  ⟨plain.whole, rfl, plain.limit, plain.inilim, nofun, rfl⟩

theorem hangup_q (p : Pipe) (e : End) :
    (p.hangup e).q e = (p.q e).close ∧ (p.hangup e).q e.other = (p.q e.other).hangup := by
  constructor
  · exact update_self ..
  · rw [Pipe.hangup, Pipe.setq]
    dsimp only
    rw [update_of_ne (other_ne e), Pipe.setq]
    exact update_self ..

theorem plain_hangup_q {p : Pipe} (plain : ∀ e, Plain (p.q e)) (e e' : End) :
    Plain ((p.hangup e).q e') := by
  rcases eq_or_other e e' with rfl | rfl
  · rw [(hangup_q p e').1]
    exact plain_close (plain e')
  · rw [(hangup_q p e).2]
    exact plain_hangup (plain e.other)

theorem leaves (sound : Sound opens p u) (some : opens e ≠ 0) (last : (p.drop e).qref e = 0)
    (others : p.qref e.other ≠ 0) : Sound (update opens e (opens e - 1)) (p.close e)
      (u.leaves e (p.q e.other).bytes) := by
  have same : p.close e = (p.drop e).hangup e := by
    rw [Pipe.close]
    rw [if_pos last, if_neg]
    rw [both_zero _ e]
    intro both
    have zero : (p.drop e).qref e.other = 0 := both.2
    rw [drop_qref_other] at zero
    exact others zero
  have own : ((p.drop e).hangup e).q e = (p.q e).close := (hangup_q (p.drop e) e).1
  have across : ((p.drop e).hangup e).q e.other = (p.q e.other).hangup := (hangup_q (p.drop e) e).2
  have gone : (u.leaves e (p.q e.other).bytes).gone e = true := update_self ..
  have gone' : (u.leaves e (p.q e.other).bytes).gone e.other = u.gone e.other :=
    update_of_ne (other_ne e) ..
  rw [same]
  refine ⟨count_drop some sound, ?_, ?_, ?_, ?_, ?_, ?_⟩
  · exact plain_hangup_q (p := p.drop e) sound.plain e
  · intro e'
    rcases eq_or_other e e' with rfl | rfl
    · rw [own, gone]
      simp [Queue.close, Queue.hangup]
    · rw [across, other_other, gone]
      simp [Queue.hangup]
  · intro e' was
    rcases eq_or_other e e' with rfl | rfl
    · rw [own]
      rfl
    · rw [gone'] at was
      rw [across]
      exact sound.cleared _ was
  · intro e' was zero
    rcases eq_or_other e e' with rfl | rfl
    · exact gone
    · have zero' : (p.drop e).qref e.other = 0 := zero
      rw [drop_qref_other] at zero'
      exact absurd zero' others
  · intro e' was still
    rcases eq_or_other e e' with rfl | rfl
    · rw [gone] at still
      cases still
    · rw [gone'] at still
      rw [across]
      refine ⟨rfl, ?_⟩
      rw [Use.leaves]
      split_ifs with before
      · exact (sound.owed e.other (by rw [other_other]; exact before) still).2
      · dsimp only
        rw [update_self, update_self]
        rfl
  · intro all
    have zero : (p.drop e).qref e.other = 0 := all e.other
    rw [drop_qref_other] at zero
    exact absurd zero others

/-- The last close of all. What is queued for an end that was not opened stays. -/
theorem whole (sound : Sound opens p u) (some : opens e ≠ 0) (last : (p.drop e).qref e = 0)
    (others : p.qref e.other = 0) :
    Sound (update opens e (opens e - 1)) (p.close e) u.over_ := by
  have same : p.close e = ((p.drop e).hangup e).reopen := by
    rw [Pipe.close]
    rw [if_pos last, if_pos]
    rw [both_zero _ e]
    refine ⟨last, ?_⟩
    rw [← drop_qref_other (e := e)] at others
    exact others
  have plain : ∀ e', Plain (((p.drop e).hangup e).q e') :=
    plain_hangup_q (p := p.drop e) sound.plain e
  rw [same]
  refine ⟨count_drop some sound, ?_, ?_, ?_, ?_, ?_, ?_⟩
  · intro e'
    rcases plain e' with ⟨coalesce, noblock, limit, inilim, early, sized⟩
    exact ⟨coalesce, noblock, inilim, inilim, fun _ => rfl, sized⟩
  · intro e'
    simp [Pipe.reopen, Queue.reopen, Use.over_, Use.new]
  · intro e' gone
    cases gone
  · intro e' was
    cases was
  · intro e' gone
    cases gone
  · intro _ e'
    refine ⟨⟨rfl, rfl, (plain e').inilim⟩, ?_⟩
    intro busy
    have was : u.opened e' = true := by simpa [Use.over_] using busy
    rcases eq_or_other e e' with rfl | rfl
    · show (((p.drop e').hangup e').q e').blocks = []
      rw [(hangup_q (p.drop e') e').1]
      rfl
    · show (((p.drop e).hangup e).q e.other).blocks = []
      rw [(hangup_q (p.drop e) e).2]
      exact sound.cleared _ (sound.left _ was others)

theorem plain_of_face {q q' : Queue} (plain : Plain q) (face : Qio.Face.of q' = Qio.Face.of q)
    (sized : q'.len = tally Prod.snd q'.blocks) : Plain q' := by
  rcases plain with ⟨whole, waits, limit, inilim, early, _⟩
  simp only [Qio.Face.of, Qio.Face.mk.injEq] at face
  rcases face with ⟨closed, _, coalesce, noblock, limits, inilims, ends⟩
  refine ⟨coalesce.trans whole, noblock.trans waits, limits.trans limit, inilims.trans inilim, ?_,
    sized⟩
  intro still
  have open_ : q.closed = false := closed ▸ still
  rw [still, open_] at ends
  simpa [early open_] using ends

theorem setq (sound : Sound opens p u) {e' : End} (some : p.qref e' ≠ 0) {q : Queue}
    (face : Qio.Face.of q = Qio.Face.of (p.q e)) (sized : q.len = tally Prod.snd q.blocks)
    (cleared : (p.q e).blocks = [] → (p.q e).closed = true → q.blocks = []) (got : Bytes)
    (kept : (p.q e).closed = true → got ++ q.bytes = u.got e ++ (p.q e).bytes) :
    Sound opens (p.setq e q) { u with got := update u.got e got } := by
  have closed : q.closed = (p.q e).closed := congrArg Qio.Face.closed face
  have err : q.err = (p.q e).err := congrArg Qio.Face.err face
  have here : (p.setq e q).q e = q := update_self ..
  have apart {e₁ : End} (differs : e₁ ≠ e) : (p.setq e q).q e₁ = p.q e₁ :=
    update_of_ne differs ..
  refine ⟨sound.count, ?_, ?_, ?_, sound.left, ?_, ?_⟩
  · intro e₁
    rcases eq_or_ne e₁ e with rfl | differs
    · rw [here]
      exact plain_of_face (sound.plain e₁) face sized
    · rw [apart differs]
      exact sound.plain e₁
  · intro e₁
    rcases eq_or_ne e₁ e with rfl | differs
    · rw [here, closed]
      exact sound.closed e₁
    · rw [apart differs]
      exact sound.closed e₁
  · intro e₁ gone
    rcases eq_or_ne e₁ e with rfl | differs
    · rw [here]
      exact cleared (sound.cleared e₁ gone) ((sound.closed e₁).2 (Or.inl gone))
    · rw [apart differs]
      exact sound.cleared e₁ gone
  · intro e₁ gone still
    dsimp only at gone still ⊢
    rcases eq_or_ne e₁ e with rfl | differs
    · rw [here, err, update_self, kept ((sound.closed e₁).2 (Or.inr gone))]
      exact sound.owed e₁ gone still
    · rw [apart differs, update_of_ne differs]
      exact sound.owed e₁ gone still
  · intro all
    exact absurd (all e') some

variable {d : Qio} (id : Qid3) (pid : Pid) {n : Nat}

theorem read (sound : Sound opens p u) (some : p.qref e ≠ 0) (here : d.q = p.q e) :
    Sound opens (p.setq e (d.qread id pid n noKick).2.q)
        (u.reads e (d.qread id pid n noKick).1) := by
  have plain : Plain d.q := here ▸ sound.plain e
  have face : Qio.Face.of (d.qread id pid n noKick).2.q = Qio.Face.of (p.q e) := by
    rw [← here]
    exact Qio.face_qread plain.whole n
  have sized := plain.sized
  have took : Qio.Took pid n d (d.qread id pid n noKick) := Qio.took_qread plain.whole n
  cases took with
  | nothing same empty =>
      have blocks : (d.qread id pid n noKick).2.q.blocks = (p.q e).blocks := by
        rw [← here]
        exact congrArg Qio.Content.blocks same
      have len : (d.qread id pid n noKick).2.q.len = (p.q e).len := by
        rw [← here]
        exact congrArg Qio.Content.len same
      have after := sound.setq some face (by rw [len, blocks, (sound.plain e).sized])
        (fun none_ _ => blocks.trans none_) (u.got e) fun _ => by
          rw [Queue.bytes, blocks]
          rfl
      rw [update_eq_self] at after
      cases answer : (d.qread id pid n noKick).1 with
      | error err => exact after
      | ok b =>
          rw [empty b answer, Use.reads, append_nil, update_eq_self]
          exact after
  | @part next alloc rest _ first answer left =>
      have blocks : (d.qread id pid n noKick).2.q.blocks = (next.drop n, alloc) :: rest :=
        congrArg Qio.Content.blocks left
      have len : (d.qread id pid n noKick).2.q.len = d.q.len := congrArg Qio.Content.len left
      rw [answer, Use.reads]
      refine sound.setq some face ?_ ?_ _ fun _ => ?_
      · rw [len, blocks, sized, first, tally_cons, tally_cons]
      · intro none_
        rw [← here, first] at none_
        cases none_
      · rw [Queue.bytes, blocks, Queue.bytes, ← here, first]
        simp only [map_cons, flatten_cons, append_assoc]
        rw [← append_assoc (next.take n), take_append_drop]
  | @whole next alloc rest _ first answer left =>
      have blocks : (d.qread id pid n noKick).2.q.blocks = rest := congrArg Qio.Content.blocks left
      have len : (d.qread id pid n noKick).2.q.len = d.q.len - alloc :=
        congrArg Qio.Content.len left
      rw [answer, Use.reads]
      refine sound.setq some face ?_ ?_ _ fun _ => ?_
      · rw [len, blocks, sized, first, tally_cons]
        dsimp only
        omega
      · intro none_
        rw [← here, first] at none_
        cases none_
      · rw [Queue.bytes, blocks, Queue.bytes, ← here, first]
        simp

theorem sized_of_grows {pid : Pid} {c c' : Qio.Content} (grows : Qio.Grows pid c c')
    (sized : c.len = tally Prod.snd c.blocks) : c'.len = tally Prod.snd c'.blocks := by
  induction grows with
  | refl => exact sized
  | tail _ pushed ih =>
      rcases pushed with ⟨b, rfl⟩
      rw [Qio.Content.push, tally_append, tally_cons, tally_nil]
      dsimp only
      omega

theorem write (sound : Sound opens p u) {e' : End} (some : p.qref e' ≠ 0) (here : d.q = p.q e)
    (data : Bytes) (failnote : Option String) :
    Sound opens (p.setq e (d.qwrite id pid data failnote noKick).2.q) u := by
  have plain : Plain d.q := here ▸ sound.plain e
  have face : Qio.Face.of (d.qwrite id pid data failnote noKick).2.q = Qio.Face.of (p.q e) := by
    rw [← here]
    exact Qio.face_qwrite data failnote
  have same (closed : (p.q e).closed = true) :
      (d.qwrite id pid data failnote noKick).2.q.blocks = (p.q e).blocks := by
    rw [← here] at closed ⊢
    exact congrArg Qio.Content.blocks (Qio.refused_qwrite id pid closed data failnote).1
  have grows : Qio.Grows pid d.content (d.qwrite id pid data failnote noKick).2.content :=
    Qio.grows_qwrite plain.waits failnote
  have after := sound.setq some face (sized_of_grows grows plain.sized)
    (fun none_ closed => (same closed).trans none_) (u.got e) fun closed => by
      rw [Queue.bytes, same closed]
      rfl
  rw [update_eq_self] at after
  exact after

end Sound

end Ipnx
