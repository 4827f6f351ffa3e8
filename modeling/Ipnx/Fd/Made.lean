import Ipnx.Fd.Making

/-!
# Descriptors made, all or none

What a call that makes descriptors leaves: the descriptors it answers, or the table as it was, and
every channel it opened closed once when nothing refers to it.
-/

namespace Ipnx.Making

open List
open Fds (Takes)
open Prog (Ends ends_pure ends_throw ends_get ends_modify ends_ite)

variable {D : Type} {others : Cell → Nat} {k : Devs D} {w : Making D} {f : Fds} {c : Cell}
  {cells : List Cell}

/-- These descriptors were free and are on channels the call opened, and nothing else moved. -/
structure Adds (opened : List Cell) (f : Fds) (fds : List Fd) (f' : Fds) : Prop where
  nodup : fds.Nodup
  made : ∀ fd ∈ fds, f.get fd = none ∧ ∃ c ∈ opened, f'.get fd = some c
  kept : ∀ i, i ∉ fds → f'.get i = f.get i

/-- Every channel opened that nothing refers to has been closed once, no other has been closed, and
so has every attach. -/
structure Closed (others : Cell → Nat) (w : Making D) : Prop where
  closing : ∀ c, tally (one c) w.closing = if c ∈ w.opened ∧ w.refs others c = 0 then 1 else 0
  letgo : w.letgo = w.attached

/-- What a call comes to: exactly the descriptors it answers are added, or the table is as it was;
and what it opened is closed. One put to sleep is not over. -/
def Whole (others : Cell → Nat) (f : Fds) : Except String (List Fd) × Making D → Prop
  | (.ok fds, w) => Adds w.opened f fds w.fds ∧ Closed others w
  | (.error e, w) => e ≠ slept → w.fds = f ∧ Closed others w

/-- Nothing is closed yet, the call has these references, and every channel it opened is one of
them or is referred to. -/
structure Opening (others : Cell → Nat) (f : Fds) (cells : List Cell) (attached letgo : List Temp)
    (w : Making D) : Prop where
  fds : w.fds = f
  held : w.held = cells
  attached : w.attached = attached
  letgo : w.letgo = letgo
  closing : w.closing = []
  opened : ∀ c ∈ cells, c ∈ w.opened
  kept : ∀ c ∈ w.opened, c ∈ cells ∨ w.refs others c ≠ 0

/-- The call has these references left, and what it opened and nobody has is closed, once. -/
structure Letting (others : Cell → Nat) (f : Fds) (cells : List Cell) (attached letgo : List Temp)
    (w : Making D) : Prop where
  fds : w.fds = f
  held : w.held = cells
  attached : w.attached = attached
  letgo : w.letgo = letgo
  opened : ∀ c ∈ cells, c ∈ w.opened
  closing : ∀ c, tally (one c) w.closing =
    if c ∈ w.opened ∧ c ∉ cells ∧ w.refs others c = 0 then 1 else 0

variable {attached letgo : List Temp} {E : String → Making D → Prop}

theorem opening_new (f : Fds) (dev : D) (wires : List (Nat × Cell)) :
    Opening others f [] [] [] (new f dev wires) := by
  refine ⟨rfl, rfl, rfl, rfl, rfl, ?_, ?_⟩
  · rintro c ⟨⟩
  · rintro c ⟨⟩

theorem Opening.letting (opening : Opening others f cells attached letgo w) :
    Letting others f cells attached letgo w := by
  refine ⟨opening.fds, opening.held, opening.attached, opening.letgo, opening.opened, ?_⟩
  intro c
  rw [opening.closing, tally_nil, if_neg]
  rintro ⟨mine, gone, none_⟩
  rcases opening.kept c mine with there | some_
  · exact gone there
  · exact some_ none_

theorem Letting.closed (letting : Letting others f [] attached attached w) : Closed others w := by
  refine ⟨fun c => ?_, letting.letgo.trans letting.attached.symm⟩
  rw [letting.closing c]
  apply if_congr _ rfl rfl
  exact and_congr_right fun _ => and_iff_right (not_mem_nil)

theorem ends_step {α : Type} {call : D → Except String α × D}
    {G : Except String α → Making D → Prop} (opening : Opening others f cells attached letgo w)
    (ok : ∀ r w', Opening others f cells attached letgo w' → G r w') : Ends (step call) w G E := by
  apply Ends.get
  apply Ends.modify
  apply ends_pure
  apply ok
  exact { opening with }

theorem ends_opens {call : D → Except String Cell × D} {G : Except String Cell → Making D → Prop}
    (opening : Opening others f cells attached letgo w)
    (error : ∀ e w', Opening others f cells attached letgo w' → G (.error e) w')
    (ok : ∀ c w', Opening others f (cells ++ [c]) attached letgo w' → G (.ok c) w') :
    Ends (opens call) w G E := by
  apply Ends.bind
  apply ends_step opening
  rintro (e | c) w' now
  · exact ends_pure (error e w' now)
  apply Ends.modify
  apply ends_pure
  apply ok
  refine ⟨now.fds, congrArg (· ++ [c]) now.held, now.attached, now.letgo, now.closing, ?_, ?_⟩
  · intro d member
    rcases mem_append.1 member with old | new
    · exact mem_append_left _ (now.opened d old)
    · exact mem_append_right _ new
  · intro d member
    rcases mem_append.1 member with old | new
    · exact (now.kept d old).imp_left (mem_append_left _)
    · exact .inl (mem_append_right _ new)

theorem ends_lift {α : Type} {r : Except String α} {G : α → Making D → Prop}
    (error : ∀ e, r = .error e → E e w) (ok : ∀ a, r = .ok a → G a w) :
    Ends (lift r : Make D α) w G E := by
  rcases r with e | a
  · exact ends_throw (error e rfl)
  · exact ends_pure (ok a rfl)

theorem ends_cclose {G : Unit → Making D → Prop} (mine : c ∈ cells)
    (letting : Letting others f cells attached letgo w)
    (ok : ∀ w', w'.opened = w.opened → w'.wires = w.wires →
      Letting others f (cells.erase c) attached letgo w' → G () w') :
    Ends (cclose others c) w G E := by
  apply ends_modify
  apply ok
  · dsimp only
    split_ifs <;> rfl
  · dsimp only
    split_ifs <;> rfl
  have there := letting.opened c mine
  have left : ∀ d ∈ cells.erase c, d ∈ w.opened := fun d member =>
    letting.opened d (mem_of_mem_erase member)
  have before := letting.closing c
  rw [if_neg (fun all => all.2.1 mine)] at before
  have apart (d : Cell) (other : d ≠ c) : tally (one d) w.closing =
      if d ∈ w.opened ∧ d ∉ cells.erase c ∧ w.refs others d = 0 then 1 else 0 := by
    rw [letting.closing d]
    apply if_congr _ rfl rfl
    rw [mem_erase_of_ne other]
  have held : w.held.erase c = cells.erase c := by rw [letting.held]
  dsimp only
  split_ifs with last
  · refine ⟨letting.fds, held, letting.attached, letting.letgo, left, ?_⟩
    intro d
    rw [tally_append, tally_cons, tally_nil, Nat.add_zero]
    rcases eq_or_ne d c with rfl | other
    · have gone : d ∉ cells.erase d := by
        rw [← held]
        exact last.2
      rw [before, one, if_pos rfl, if_pos ⟨there, gone, last.1⟩]
    · rw [one, if_neg other]
      exact apart d other
  · refine ⟨letting.fds, held, letting.attached, letting.letgo, left, ?_⟩
    intro d
    rcases eq_or_ne d c with rfl | other
    · refine before.trans (if_neg ?_).symm
      rintro ⟨_, gone, none_⟩
      rw [← held] at gone
      exact last ⟨none_, gone⟩
    · exact apart d other

theorem ends_closeall {G : Unit → Making D → Prop}
    (letting : Letting others f cells attached letgo w)
    (ok : ∀ w', Letting others f [] attached letgo w' → G () w') :
    Ends (closeall others cells) w G E := by
  induction cells generalizing w with
  | nil => exact ends_pure (ok w letting)
  | cons c cells ih =>
      apply Ends.bind
      apply ends_cclose (mem_cons_self ..) letting
      intro w' _ _ now
      rw [erase_cons_head] at now
      exact ih now

theorem Opening.put {fd : Fd} {f' : Fds} {c : Cell}
    (opening : Opening others f (c :: cells) attached letgo w) (made : f.newfd c = some (fd, f')) :
    Opening others f' cells attached letgo
      { w with fds := f', held := w.held.erase c } := by
  have more (d : Cell) :
      w.refs others d ≤ refs others { w with fds := f', held := w.held.erase c } d ∧
      (d = c → refs others { w with fds := f', held := w.held.erase c } d ≠ 0) := by
    have counted := Fds.refs_newfd made d
    have before := opening.fds
    simp only [refs, before, counted]
    refine ⟨by omega, ?_⟩
    rintro rfl
    rw [one, if_pos rfl]
    omega
  refine ⟨rfl, ?_, opening.attached, opening.letgo, opening.closing, ?_, ?_⟩
  · dsimp only
    rw [opening.held, erase_cons_head]
  · exact fun d there => opening.opened d (mem_cons_of_mem c there)
  · intro d mine
    rcases opening.kept d mine with there | some_
    · rcases mem_cons.1 there with same | later
      · exact .inr ((more d).2 same)
      · exact .inl later
    · have least := (more d).1
      right
      omega

theorem ends_newfd {G : Fd → Making D → Prop} {c : Cell}
    (opening : Opening others f (c :: cells) attached letgo w)
    (ok : ∀ fd f' w', Takes f fd c f' → f'.room + 1 = f.room → w'.opened = w.opened →
      w'.wires = w.wires → Opening others f' cells attached letgo w' → G fd w')
    (error : ∀ w', f.room = 0 → w'.opened = w.opened → w'.wires = w.wires →
      Letting others f cells attached letgo w' → E enofd w') : Ends (newfd others c) w G E := by
  apply Ends.get
  rw [opening.fds]
  rcases Fds.newfd_room f c with ⟨none_, full⟩ | ⟨fd, f', made, takes, room⟩
  · rw [none_]
    apply Ends.bind
    apply ends_cclose (mem_cons_self ..) opening.letting
    intro w' opened wires now
    rw [erase_cons_head] at now
    exact ends_throw (error w' full opened wires now)
  · rw [made]
    apply Ends.modify
    apply ends_pure
    exact ok fd f' _ takes room rfl rfl (opening.put made)

theorem Adds.nil (opened : List Cell) (f : Fds) : Adds opened f [] f := by
  refine ⟨nodup_nil, ?_, fun _ _ => rfl⟩
  rintro fd ⟨⟩

theorem Adds.cons {opened : List Cell} {fd : Fd} {fds : List Fd} {f' f'' : Fds} {c : Cell}
    (takes : Takes f fd c f') (mine : c ∈ opened) (adds : Adds opened f' fds f'') :
    Adds opened f (fd :: fds) f'' := by
  have here := takes.placed fd
  rw [if_pos rfl] at here
  have fresh : fd ∉ fds := by
    intro there
    have free := (adds.made fd there).1
    rw [here] at free
    cases free
  refine ⟨nodup_cons.2 ⟨fresh, adds.nodup⟩, ?_, ?_⟩
  · intro i there
    rcases mem_cons.1 there with rfl | later
    · rcases takes.lowest with ⟨j, rfl, least⟩
      exact ⟨least.1, c, mine, (adds.kept _ fresh).trans here⟩
    · have made := adds.made i later
      have other : i ≠ fd := by
        rintro rfl
        exact fresh later
      have was := takes.placed i
      rw [if_neg other] at was
      exact ⟨was ▸ made.1, made.2⟩
  · intro i apart
    rw [mem_cons, not_or] at apart
    have was := takes.placed i
    rw [if_neg apart.1] at was
    exact (adds.kept i apart.2).trans was

/-- Descriptors one after another: all of them; or those there is room for, and of what is left the
first is let go of and the others are only dropped. -/
theorem ends_newfds {G : List Fd → Making D → Prop}
    (opening : Opening others f cells attached letgo w)
    (ok : ∀ fds w', cells.length ≤ f.room → Adds w.opened f fds w'.fds → w'.opened = w.opened →
      Opening others w'.fds [] attached letgo w' → G fds w')
    (error : ∀ f' w', f.room < cells.length → f'.room = 0 → (f.room = 0 → f' = f) →
      w'.opened = w.opened →
      w'.wires = w.wires → Letting others f' (cells.drop (f.room + 1)) attached letgo w' →
      E enofd w') : Ends (newfds others cells) w G E := by
  induction cells generalizing w f G E with
  | nil =>
      apply ends_pure
      have same := opening.fds
      apply ok [] w (Nat.zero_le _) (same ▸ .nil _ _) rfl (same ▸ opening)
  | cons c cells ih =>
      apply Ends.bind
      apply ends_newfd opening
      · intro fd f' w' takes room opened wires now
        have mine := opening.opened c (mem_cons_self ..)
        apply Ends.bind
        apply ih now
        · intro fds w'' enough adds opened' now'
          apply ends_pure
          apply ok _ _ _ _ (opened'.trans opened) now'
          · rw [length_cons]
            omega
          · rw [opened] at adds
            exact adds.cons takes mine
        · intro f'' w'' few full same opened' wires' now'
          apply error f'' w'' _ full _ (opened'.trans opened) (wires'.trans wires)
          · rw [← room, drop_succ_cons]
            exact now'
          · rw [length_cons]
            omega
          · intro none_
            omega
      · intro w' full opened wires now
        apply error f w' _ full (fun _ => rfl) opened wires
        · rw [full, drop_succ_cons, drop_zero]
          exact now
        · rw [full]
          exact Nat.succ_pos _

/-- A call comes to descriptors that are added, or to the table as it was. -/
abbrev Ending (others : Cell → Nat) (f : Fds) (m : Make D (List Fd)) (w : Making D) : Prop :=
  Ends m w (fun fds w' => Adds w'.opened f fds w'.fds ∧ Closed others w')
    fun e w' => e ≠ slept → w'.fds = f ∧ Closed others w'

theorem whole_iff {m : Make D (List Fd)} : Whole others f (m.exec w) ↔ Ending others f m w := by
  rw [Ending, Ends]
  rcases m.exec w with ⟨e | fds, w'⟩
  · exact Iff.rfl
  · exact Iff.rfl

theorem Opening.refused (opening : Opening others f [] attached attached w) :
    w.fds = f ∧ Closed others w :=
  ⟨opening.fds, opening.letting.closed⟩

theorem Letting.refused (letting : Letting others f [] attached attached w) :
    w.fds = f ∧ Closed others w :=
  ⟨letting.fds, letting.closed⟩

theorem ends_one {c : Cell} (opening : Opening others f [c] attached attached w) :
    Ending others f (do pure [← newfd others c]) w := by
  apply Ends.bind
  apply ends_newfd opening
  · intro fd f' w' takes _ opened _ now
    apply ends_pure
    have mine := opening.opened c (mem_cons_self ..)
    rw [opened, now.fds]
    exact ⟨(Adds.nil _ f').cons takes mine, now.letting.closed⟩
  · intro w' _ _ _ now _
    exact now.refused

theorem open_ending (path : String) (mode : Int) (opening : Opening others f [] [] [] w) :
    Ending others f (sysopen others k path mode) w := by
  apply Ends.bind
  apply ends_lift
  · exact fun _ _ _ => opening.refused
  rintro _ -
  apply Ends.bind
  apply ends_opens opening
  · intro e w' now
    apply Ends.bind
    exact ends_throw fun _ => now.refused
  · intro c w' now
    apply Ends.bind
    apply ends_pure
    exact ends_one now

theorem create_ending (path : String) (mode : Int) (perm : UInt32)
    (opening : Opening others f [] [] [] w) :
    Ending others f (syscreate others k path mode perm) w := by
  apply Ends.bind
  apply ends_lift
  · exact fun _ _ _ => opening.refused
  rintro _ -
  apply Ends.bind
  apply ends_opens opening
  · intro e w' now
    apply Ends.bind
    exact ends_throw fun _ => now.refused
  · intro c w' now
    apply Ends.bind
    apply ends_pure
    exact ends_one now

theorem ends_pipeend {dir : Temp} {name : String} {G : Except String Cell → Making D → Prop}
    (opening : Opening others f cells attached letgo w)
    (error : ∀ e w', Opening others f cells attached letgo w' → G (.error e) w')
    (ok : ∀ c w', Opening others f (cells ++ [c]) attached letgo w' → G (.ok c) w') :
    Ends (pipeend k dir name) w G E := by
  apply Ends.bind
  apply ends_step opening
  rintro (e | _ | c) w' now
  · exact ends_pure (error e w' now)
  · exact ends_pure (error _ w' now)
  · exact ends_opens now error ok

theorem pipe_ending (opening : Opening others f [] [] [] w) :
    Ending others f (syspipe others k) w := by
  apply Ends.bind
  apply ends_step opening
  rintro (e | dir) w₁ now₁
  · apply Ends.bind
    exact ends_throw fun _ => now₁.refused
  apply Ends.bind
  apply ends_pure
  apply Ends.bind
  apply ends_pipeend now₁
  · intro e w₂ now₂
    apply Ends.bind
    exact ends_throw fun _ => now₂.refused
  intro data w₂ now₂
  apply Ends.bind
  apply ends_pure
  apply Ends.bind
  apply ends_pipeend now₂
  · intro e w₃ now₃
    apply Ends.bind
    apply ends_cclose (mem_cons_self ..) now₃.letting
    intro w₄ _ _ now₄
    rw [erase_cons_head] at now₄
    exact ends_throw fun _ => now₄.refused
  intro data1 w₃ now₃
  apply Ends.get
  rw [now₃.fds]
  rcases Fds.newfd2_room f data data1 with none_ | ⟨fd0, fd1, mid, f', made, first, second⟩
  · rw [none_]
    apply Ends.bind
    apply ends_cclose (mem_cons_self ..) now₃.letting
    intro w₄ _ _ now₄
    rw [erase_cons_head] at now₄
    apply Ends.bind
    apply ends_cclose (mem_cons_self ..) now₄
    intro w₅ _ _ now₅
    rw [erase_cons_head] at now₅
    exact ends_throw fun _ => now₅.refused
  · rw [made]
    apply Ends.modify
    apply ends_pure
    have now₄ := (now₃.put first).put second
    have mine0 := now₃.opened data (mem_cons_self ..)
    have mine1 := now₃.opened data1 (mem_cons_of_mem _ (mem_cons_self ..))
    refine ⟨?_, now₄.letting.closed⟩
    exact ((Adds.nil _ f').cons (Fds.newfd_takes second) mine1).cons (Fds.newfd_takes first) mine0

theorem Opening.keepwire (opening : Opening others f cells attached letgo w) (c : Cell) :
    Ends (keepwire k c) w (fun _ w' => Opening others f cells attached letgo w') E := by
  apply ends_modify
  split_ifs
  · exact opening
  · refine ⟨opening.fds, opening.held, opening.attached, opening.letgo, opening.closing,
      opening.opened, ?_⟩
    intro d mine
    refine (opening.kept d mine).imp_right fun some_ => ?_
    simp only [refs, map_append, tally_append] at some_ ⊢
    omega

theorem fauth_ending (fd : Fd) (aname : String) (opening : Opening others f [] [] [] w) :
    Ending others f (sysfauth others k fd aname) w := by
  apply Ends.get
  rcases w.fds.get fd with _ | c
  · exact ends_throw fun _ => opening.refused
  apply Ends.bind
  apply ends_lift
  · exact fun _ _ _ => opening.refused
  rintro _ -
  apply Ends.bind
  apply ends_opens opening
  · intro e w' now
    apply Ends.bind
    exact ends_throw fun _ => now.refused
  intro ac w' now
  apply Ends.bind
  apply ends_pure
  apply Ends.bind
  apply (now.keepwire c).mono
  · exact fun _ w'' now => ends_one now
  · exact fun _ _ failed => failed

/-- Until its descriptors, a host's call that fails closes what it opened. -/
abbrev Refusing (others : Cell → Nat) (f : Fds) (e : String) (w : Making D) : Prop :=
  e ≠ slept → w.fds = f ∧ Closed others w

theorem ends_hostwire {server : Nat} (opening : Opening others f [] [] [] w) :
    Ends (hostwire k server) w (fun _ w' => Opening others f [] [] [] w') (Refusing others f) := by
  apply Ends.get
  split
  · exact ends_pure opening
  · apply Ends.bind
    apply ends_opens opening
    · intro e w' now
      apply Ends.bind
      exact ends_throw fun _ => now.refused
    intro c w' now
    apply Ends.bind
    apply ends_pure
    apply Ends.modify
    apply ends_pure
    refine ⟨now.fds, ?_, now.attached, now.letgo, now.closing, ?_, ?_⟩
    · dsimp only
      rw [now.held]
      exact erase_cons_head ..
    · rintro d ⟨⟩
    · intro d mine
      right
      simp only [refs, map_append, map_cons, map_nil, tally_append, tally_cons]
      rcases now.kept d mine with there | some_
      · rw [mem_singleton.1 there, one, if_pos rfl]
        omega
      · simp only [refs] at some_
        omega

theorem ends_unopen {α : Type} {root : Temp} {e : String} {G : α → Making D → Prop}
    (opening : Opening others f cells [root] [] w) :
    Ends (unopen others cells root e : Make D α) w G (Refusing others f) := by
  apply ends_ite
  · exact fun asleep => ends_throw fun other => absurd asleep other
  intro _
  apply Ends.bind
  apply ends_closeall opening.letting
  intro w' now
  apply Ends.modify
  apply ends_throw
  intro _
  have done : Letting others f [] [root] [root] { w' with letgo := w'.letgo ++ [root] } :=
    ⟨now.fds, now.held, now.attached, congrArg (· ++ [root]) now.letgo, now.opened, now.closing⟩
  exact done.refused

theorem ends_openfiles {root : Temp} (files : List (String × Int))
    (opening : Opening others f cells [root] [] w) :
    Ends (openfiles others k root files cells) w
      (fun opened w' => Opening others f opened [root] [] w' ∧
        opened.length = cells.length + files.length) (Refusing others f) := by
  induction files generalizing cells w with
  | nil => exact ends_pure ⟨opening, rfl⟩
  | cons file files ih =>
      rcases file with ⟨name, mode⟩
      apply Ends.bind
      apply ends_step opening
      rintro (e | _ | c) w₁ now₁
      · exact ends_unopen now₁
      · exact ends_unopen now₁
      apply Ends.bind
      apply ends_opens now₁
      · exact fun e w₂ now₂ => ends_unopen now₂
      intro c w₂ now₂
      apply (ih now₂).mono
      · rintro opened w₃ ⟨now₃, count⟩
        refine ⟨now₃, ?_⟩
        rw [count, length_append, length_singleton, length_cons]
        omega
      · exact fun _ _ failed => failed

theorem ends_oscmdfiles (noattach : Bool) (server : Nat) (aname : String)
    (files : List (String × Int)) (opening : Opening others f [] [] [] w) :
    Ends (oscmdfiles others k noattach server aname files) w
      (fun cells w' => ∃ root, Opening others f cells [root] [root] w' ∧
        cells.length = files.length) (Refusing others f) := by
  apply Ends.bind
  have permitted : Ends (permit noattach) w (fun _ w' => Opening others f [] [] [] w')
      (Refusing others f) := by
    apply ends_ite
    · exact fun _ => ends_throw fun _ => opening.refused
    · exact fun _ => ends_pure opening
  apply permitted.mono
  · rintro _ w₁ now₁
    apply Ends.bind
    apply ends_lift
    · exact fun _ _ _ => now₁.refused
    rintro _ -
    apply Ends.bind
    apply (ends_hostwire now₁).mono
    · rintro wire w₂ now₂
      apply Ends.bind
      apply ends_step now₂
      rintro (e | root) w₃ now₃
      · apply Ends.bind
        exact ends_throw fun _ => now₃.refused
      apply Ends.bind
      apply ends_pure
      apply Ends.modify
      have attached : Opening others f [] [root] []
          { w₃ with attached := w₃.attached ++ [root] } :=
        ⟨now₃.fds, now₃.held, congrArg (· ++ [root]) now₃.attached, now₃.letgo, now₃.closing,
          now₃.opened, now₃.kept⟩
      apply Ends.bind
      apply (ends_openfiles files attached).mono
      · rintro cells w₄ ⟨now₄, count⟩
        apply Ends.modify
        apply ends_pure
        rw [length_nil, Nat.zero_add] at count
        exact ⟨root, ⟨now₄.fds, now₄.held, now₄.attached,
          congrArg (· ++ [root]) now₄.letgo, now₄.closing, now₄.opened, now₄.kept⟩, count⟩
      · exact fun _ _ failed => failed
    · exact fun _ _ failed => failed
  · exact fun _ _ failed => failed

/-- The descriptors of a host's call: there is room for them all, or there is none and of the
channels only the first is not referred to. -/
theorem newfds_iff (opening : Opening others f cells attached attached w) :
    Ending others f (newfds others cells) w ↔
      cells.length ≤ f.room ∨ f.room = 0 ∧ ∀ c ∈ cells.tail, w.refs others c ≠ 0 := by
  have same {w' : Making D} (fds : w'.fds = f) (wires : w'.wires = w.wires) (c : Cell) :
      w'.refs others c = w.refs others c := by
    rw [refs, refs, fds, wires, opening.fds]
  constructor
  · intro ending
    have known : Ends (newfds others cells) w (fun _ _ => cells.length ≤ f.room)
        fun e w' => (e ≠ slept → w'.fds = f ∧ Closed others w') →
          f.room = 0 ∧ ∀ c ∈ cells.tail, w.refs others c ≠ 0 := by
      apply ends_newfds opening
      · exact fun _ _ enough _ _ _ => enough
      · intro f' w' _ full none_ opened wires now whole
        rcases whole (by decide) with ⟨back, closed⟩
        rw [now.fds] at back
        rw [back] at full now
        refine ⟨full, ?_⟩
        intro c there zero
        rw [full, drop_one] at now
        have left := now.closing c
        rw [closed.closing c, if_pos ⟨now.opened c there, (same now.fds wires c).trans zero⟩,
          if_neg fun all => all.2.1 there] at left
        cases left
    rw [Ending, Ends] at ending
    rw [Ends] at known
    rcases ran : (newfds others cells).exec w with ⟨e | fds, w'⟩ <;> rw [ran] at ending known
    · exact .inr (known ending)
    · exact .inl known
  · intro enough
    apply ends_newfds opening
    · intro fds w' _ adds opened now
      rw [opened]
      exact ⟨adds, now.letting.closed⟩
    · intro f' w' few full none_ _ wires now _
      rcases enough with enough | ⟨empty, referred⟩
      · omega
      rw [none_ empty, empty, drop_one] at now
      refine ⟨now.fds, fun c => ?_, now.letgo.trans now.attached.symm⟩
      rw [now.closing c]
      apply if_congr _ rfl rfl
      apply and_congr_right
      intro _
      constructor
      · exact fun both => both.2
      · intro zero
        refine ⟨fun there => ?_, zero⟩
        rw [same now.fds wires c] at zero
        exact referred c there zero

/-- What a call comes to is whole on this condition: where a host's call has opened its files, the
table has room for them all, or it has none and the channels after the first are referred to
elsewhere. -/
def Enough (others : Cell → Nat) (k : Devs D) (w : Making D) : Call → Prop
  | .oscmd noattach server aname files => ∀ cells w',
      (oscmdfiles others k noattach server aname files).exec w = (.ok cells, w') →
      files.length ≤ w.fds.room ∨ w.fds.room = 0 ∧ ∀ c ∈ cells.tail, w'.refs others c ≠ 0
  | _ => True

theorem oscmd_iff (noattach : Bool) (server : Nat) (aname : String) (files : List (String × Int))
    (opening : Opening others f [] [] [] w) :
    Ending others f (sysoscmd others k noattach server aname files) w ↔
      ∀ cells w', (oscmdfiles others k noattach server aname files).exec w = (.ok cells, w') →
        files.length ≤ f.room ∨ f.room = 0 ∧ ∀ c ∈ cells.tail, w'.refs others c ≠ 0 := by
  have ends := ends_oscmdfiles (k := k) noattach server aname files opening
  rw [Ends] at ends
  rw [Ending, Ends, sysoscmd]
  rcases ran : (oscmdfiles others k noattach server aname files).exec w with
    ⟨e | cells, w'⟩ <;> rw [ran] at ends
  · rw [Prog.exec_bind_error ran]
    refine iff_of_true ends ?_
    rintro cells w'' ⟨⟩
  · rw [Prog.exec_bind_ok ran]
    rcases ends with ⟨root, opened, count⟩
    have iff := newfds_iff opened
    rw [Ending, Ends, count] at iff
    rw [iff]
    constructor
    · rintro enough _ _ ⟨⟩
      exact enough
    · exact fun enough => enough cells w' rfl

/-- A call leaves the descriptors it answers or the table as it was, and nothing open that nobody
has, just where a host's call has room for its files. -/
theorem descriptors_whole (others : Cell → Nat) (k : Devs D) (f : Fds) (dev : D)
    (wires : List (Nat × Cell)) (call : Call) :
    Whole others f ((sys others k call).exec (new f dev wires)) ↔
      Enough others k (new f dev wires) call := by
  have opening : Opening others f [] [] [] (new f dev wires) := opening_new f dev wires
  rw [whole_iff]
  rcases call with ⟨path, mode⟩ | ⟨path, mode, perm⟩ | _ | ⟨fd, aname⟩ |
    ⟨noattach, server, aname, files⟩
  · exact iff_of_true (open_ending path mode opening) trivial
  · exact iff_of_true (create_ending path mode perm opening) trivial
  · exact iff_of_true (pipe_ending opening) trivial
  · exact iff_of_true (fauth_ending fd aname opening) trivial
  · exact oscmd_iff noattach server aname files opening

/-- Devices that refuse nothing, and number the channels. -/
def counter : Devs Nat where
  walkOpen n _ _ := (.ok n, n + 1)
  walkCreate n _ _ _ := (.ok n, n + 1)
  attach n := (.ok n, n + 1)
  dwalk n _ _ := (.ok (some n), n + 1)
  dopen n _ _ := (.ok n, n + 1)
  dauth n _ _ := (.ok n, n + 1)
  dmount n _ _ := (.ok n, n + 1)
  fdtochan _ _ := .ok ()
  wirekey c := c
  hostkey server := server

theorem one_free : ∃ f : Fds, f.room = 1 := by
  refine ⟨⟨List.replicate 4999 (some 0)⟩, ?_⟩
  rw [Fds.room, Fds.taken, tally_replicate, Fds.nfd, length_replicate]
  decide

theorem two_fail {f : Fds} (room : f.room = 1) :
    ¬Ending (fun _ => 0) f
      (sysoscmd (fun _ => 0) counter false 0 "" [("data", 2), ("wait", 0)]) (new f 1 []) := by
  rw [oscmd_iff _ _ _ _ (opening_new f 1 [])]
  intro enough
  rcases enough _ _ rfl with enough | ⟨none_, -⟩
  · rw [room] at enough
    revert enough
    decide
  · rw [room] at none_
    cases none_

/-- A host's call of two files leaves a descriptor on the one, and fails. -/
theorem descriptors_fails :
    ¬∀ (f : Fds) (call : Call),
      Whole (fun _ => 0) f ((sys (fun _ => 0) counter call).exec (new f 1 [])) := by
  intro whole
  rcases one_free with ⟨f, room⟩
  exact two_fail room (whole_iff.1 (whole f (.oscmd false 0 "" _)))

end Ipnx.Making
