import Ipnx.Name.Spaces
import Ipnx.Name.Walk

/-!
# A copy's names are the original's

Of what is in a mount table a walk does not see the mounts' numbers, and they are all that a copy
has of its own. So every walk in the copy is the walk in the original, by the same messages to the
same devices; and either of the two stays so until it is itself mounted in.
-/

namespace Ipnx.Name

open List

def Element.unnumber (e : Element) : Element := { e with mountid := 0 }

def Mhead.unnumber (h : Mhead) : Mhead := { h with mount := h.mount.map Element.unnumber }

def Ns.unnumber (ns : Ns) : Ns :=
  { ns with mnthash := fun b => (ns.mnthash b).map Mhead.unnumber, id := 0 }

def Walking.unnumber (w : Walking) : Walking := { w with mh := w.mh.map Element.unnumber }

namespace Ns

theorem unnumber_renumber (cs : List (UInt32 × Loc)) (ns : Ns) (n : Ids) :
    (renumber cs ns n).1.unnumber = ns.unnumber := by
  induction cs generalizing ns n with
  | nil => rfl
  | cons c cs ih =>
      have untouched (h : Mhead) (i : Nat) : Mhead.unnumber { h with
          mount := h.mount.modify i fun e => { e with mountid := n.newmountid.1 } } =
              h.unnumber := by
        simp only [Mhead.unnumber, Mhead.mk.injEq, true_and]
        apply ext_getElem?
        intro k
        simp only [List.getElem?_map, List.getElem?_modify]
        split_ifs <;> rcases h.mount[k]? with _ | e <;> rfl
      have chains := map_setMountid Mhead.unnumber ns c.2 n.newmountid.1 untouched
      rw [renumber, ih]
      simp only [unnumber, chains]
      rfl

theorem unnumber_clone (ns : Ns) (n : Ids) : (ns.clone n).1.unnumber = ns.unnumber := by
  have sorted : (ns.clone n).1.unnumber = { (renumber (ns.copies.mergeSort fun c d => c.1 ≤ d.1)
    (renumber ns.copies ns n).1 (renumber ns.copies ns n).2).1.unnumber with
      noattach := ns.noattach } := rfl
  rw [sorted, unnumber_renumber, unnumber_renumber]
  rfl

theorem findmount_unnumber (ns : Ns) (on : Chan) :
    ns.unnumber.findmount on = (ns.findmount on).map Mhead.unnumber := by
  have found : (ns.unnumber.mnthash (mounth on)).find? (Mhead.isOn on) =
      ((ns.mnthash (mounth on)).find? (Mhead.isOn on)).map Mhead.unnumber := List.find?_map ..
  simp only [findmount, found, Option.filter_map]
  congr 2
  funext h
  simp [Mhead.unnumber]

theorem elements_unnumber (ns : Ns) (on : Chan) :
    ns.unnumber.elements on = (ns.elements on).map (List.map Element.unnumber) := by
  simp [elements, findmount_unnumber, Function.comp_def, Mhead.unnumber]

end Ns

variable {σ : Type} (tab : Devtab σ) (ns : Ns) (nomount : Bool)

theorem domount_unnumber (c : Chan) : domount ns.unnumber c =
    ((domount ns c).1, (domount ns c).2.map Element.unnumber) := by
  simp only [domount, Ns.findmount_unnumber]
  rcases ns.findmount c with _ | ⟨f, _ | ⟨e, es⟩⟩ <;> rfl

theorem firstMount_unnumber (c : Chan) (qids : List Qid) : firstMount ns.unnumber c qids =
    (firstMount ns c qids).map fun found => (found.1, found.2.map Element.unnumber) := by
  induction qids with
  | nil => rfl
  | cons q qids ih =>
      simp only [firstMount, Ns.elements_unnumber, ih]
      rcases ns.elements { c with qid := q } with _ | m
      · simp [Function.comp_def]
      · rfl

theorem tryunion_unnumber (batch : List String) (alts : List Element) (err : String) (s : σ) :
    tryunion tab batch (alts.map Element.unnumber) err s = tryunion tab batch alts err s := by
  induction alts generalizing err s with
  | nil => rfl
  | cons alt alts ih =>
      simp only [map_cons, tryunion, ih]
      rfl

theorem ewalk_unnumber (c : Chan) (mh : List Element) (batch : List String) (s : σ) :
    ewalk tab nomount c (mh.map Element.unnumber) batch s = ewalk tab nomount c mh batch s := by
  simp only [ewalk, ← map_drop, tryunion_unnumber]

def turned : Except (Nat × String) Walking × σ → Except (Nat × String) Walking × σ
  | (r, s) => (r.map Walking.unnumber, s)

theorem stepon_unnumber (dotdot : Bool) (w : Walking) (s : σ) :
    stepon tab ns.unnumber nomount dotdot w.unnumber s =
      ((stepon tab ns nomount dotdot w s).1.unnumber, (stepon tab ns nomount dotdot w s).2) := by
  simp only [stepon, Walking.unnumber, domount_unnumber]
  split_ifs
  · rcases domount ns w.c with ⟨first, _ | ⟨e, es⟩⟩ <;> rfl
  · rfl

theorem advance_unnumber (dotdot : Bool) (n : Nat) (wq : Walkqid) (on : Chan) (w : Walking)
    (s : σ) : advance tab ns.unnumber nomount dotdot n wq on w.unnumber s =
      turned (advance tab ns nomount dotdot n wq on w s) := by
  simp only [advance, firstMount_unnumber, Walking.unnumber]
  by_cases looks : (!dotdot && !nomount) = true
  · simp only [looks, if_true]
    rcases firstMount ns on (wq.qids.take (n - 1)) with _ | ⟨i, _ | ⟨e, es⟩⟩ <;>
      rcases wq.clone with _ | clone <;> rfl
  · simp only [looks]
    rcases wq.clone with _ | clone <;> rfl

theorem walkTurn_unnumber (n : Nat) (dotdot : Bool) (w : Walking)
    (r : Except String (Walkqid × Chan) × σ) :
    walkTurn tab ns.unnumber nomount n dotdot w.unnumber r =
      turned (walkTurn tab ns nomount n dotdot w r) := by
  rcases r with ⟨e | ⟨wq, on⟩, s⟩
  · simp only [walkTurn]
    split_ifs <;> rfl
  · exact advance_unnumber ..

theorem walkStep_unnumber (w : Walking) (s : σ) :
    walkStep tab ns.unnumber nomount w.unnumber s = turned (walkStep tab ns nomount w s) := by
  have dir : w.unnumber.c = w.c := rfl
  simp only [walkStep, stepon_unnumber, dir]
  split_ifs
  · rfl
  · exact (congrArg _ (ewalk_unnumber ..)).trans (walkTurn_unnumber ..)

theorem walkLoop_unnumber (turns : Nat) (w : Walking) (s : σ) :
    walkLoop tab ns.unnumber nomount turns w.unnumber s = walkLoop tab ns nomount turns w s := by
  induction turns generalizing w s with
  | zero => rfl
  | succ turns ih =>
      simp only [walkLoop, walkStep_unnumber]
      rcases walkStep tab ns nomount w s with ⟨_ | w', s'⟩
      · rfl
      · simp only [turned, Except.map, ih]
        rfl

theorem walk_unnumber (c : Chan) (src : Option (Rc Chan)) (names : List String) (s : σ) :
    walk tab ns.unnumber nomount c src names s = walk tab ns nomount c src names s :=
  walkLoop_unnumber tab ns nomount names.length ⟨c, src, src.isNone, c.path, [], false, 0, names⟩ s

def NsAct.changes : NsAct → Option Nat
  | .new | .clone _ => none
  | .cmount i .. | .cunmount i .. | .closepgrp i => some i

namespace Spaces

variable {s s' : Spaces} {k : Nat} {ns : Ns}

theorem act_other {a : NsAct} (there : s.spaces[k]? = some ns) (other : a.changes ≠ some k)
    (moved : s.act a = some s') : s'.spaces[k]? = some ns := by
  have inside := (List.getElem?_eq_some_iff.1 there).1
  have kept {i : Nat} {ns' : Ns} (differs : some i ≠ some k) :
      (s.spaces.set i ns')[k]? = some ns := by
    rw [← there]
    exact List.getElem?_set_ne fun same => differs (congrArg some same)
  cases a with
  | new =>
      cases moved
      simpa [List.getElem?_append_left inside] using there
  | clone i =>
      rcases Option.map_eq_some_iff.1 moved with ⟨ns', _, rfl⟩
      simpa [List.getElem?_append_left inside] using there
  | cmount i on new union how =>
      rcases Option.map_eq_some_iff.1 moved with ⟨ns', _, rfl⟩
      exact kept other
  | cunmount i on named =>
      rcases Option.map_eq_some_iff.1 moved with ⟨ns', _, rfl⟩
      exact kept other
  | closepgrp i =>
      rcases Option.map_eq_some_iff.1 moved with ⟨ns', _, rfl⟩
      exact kept other

theorem acts_other {acts : List NsAct} (there : s.spaces[k]? = some ns)
    (others : ∀ a ∈ acts, a.changes ≠ some k) (ran : acts.foldlM act s = some s') :
    s'.spaces[k]? = some ns := by
  induction acts generalizing s with
  | nil =>
      cases ran
      exact there
  | cons a acts ih =>
      rw [foldlM_cons] at ran
      rcases Option.bind_eq_some_iff.1 ran with ⟨s'', moved, rest⟩
      exact ih (act_other there (others a (mem_cons_self ..)) moved)
        (fun a' member => others a' (mem_cons_of_mem a member)) rest

/-- A namespace is copied, and then anything is done with the others. As long as nothing is done
in the copy every walk in it is the walk there was in the original when it was copied; and so is
every walk in the original as long as nothing is done in that. -/
theorem copy_walks {i : Nat} {s₁ : Spaces} {acts : List NsAct} (there : s.spaces[i]? = some ns)
    (copied : s.act (.clone i) = some s₁) (ran : acts.foldlM act s₁ = some s')
    (which : k = i ∨ k = s.spaces.length) (others : ∀ a ∈ acts, a.changes ≠ some k) :
    ∃ ns', s'.spaces[k]? = some ns' ∧
      ∀ {σ : Type} (tab : Devtab σ) nomount c src names (st : σ),
        walk tab ns' nomount c src names st = walk tab ns nomount c src names st := by
  simp only [act, there, Option.map_some, Option.some.injEq] at copied
  subst copied
  have inside := (List.getElem?_eq_some_iff.1 there).1
  rcases which with rfl | rfl
  · refine ⟨ns, acts_other ?_ others ran, fun _ _ _ _ _ _ => rfl⟩
    simpa [List.getElem?_append_left inside] using there
  · refine ⟨(ns.clone s.ids).1, acts_other (by simp) others ran, ?_⟩
    intro σ tab nomount c src names st
    rw [← walk_unnumber, Ns.unnumber_clone, walk_unnumber]

def copied : Spaces := (mounted.act (.clone 0)).getD mounted

/-- The original is closed, and the copy is as it was. -/
theorem copy_walks_closed : ∃ ns s', mounted.spaces[0]? = some ns ∧
    [NsAct.closepgrp 0].foldlM act copied = some s' ∧ ∃ ns', s'.spaces[1]? = some ns' ∧
      ∀ {σ : Type} (tab : Devtab σ) nomount c src names (st : σ),
        walk tab ns' nomount c src names st = walk tab ns nomount c src names st := by
  have ran : [NsAct.closepgrp 0].foldlM act copied = some _ := rfl
  have others : ∀ a ∈ [NsAct.closepgrp 0], a.changes ≠ some 1 := by simp [NsAct.changes]
  exact ⟨_, _, rfl, ran, copy_walks (s := mounted) (i := 0) rfl rfl ran (.inr rfl) others⟩

end Spaces

end Ipnx.Name
