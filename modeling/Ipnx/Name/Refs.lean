import Ipnx.Name.Union

/-!
# Channel references in namespaces

A namespace holds its channels by reference: the one each head is on and the one of each
element. Every operation accounts for what it holds: what there was and what it takes on is
what there is and what it hands back. What is handed back is closed by the caller where it was
the last reference, so over any run a channel is closed once, when nothing holds it.
-/

namespace Ipnx.Name

open List

namespace Ns

def refs (ns : Ns) : Multiset (Rc Chan) :=
  weigh (fun h => (h.held : Multiset (Rc Chan))) ns.mnthash

/-- The references a mount takes on: the new element's and those of the union it brings, and
for a new head the file's, and once more if the directory itself is an element. -/
def takes (ns : Ns) (on : Rc Chan) (new : Element) (union : List Element) (how : Bind) :
    Multiset (Rc Chan) :=
  (if ns.lookup on.val = none then on ::ₘ (if how = .replace then 0 else {on}) else 0) +
    (new.chan :: (union.drop 1).map Element.chan : List (Rc Chan))

variable {ns : Ns} {n : Ids} {on : Rc Chan} {new : Element} {union : List Element} {how : Bind}

theorem refs_setHead {b : Fin Name.mnthash} {j : Nat} {h : Mhead} (h' : Mhead)
    (there : (ns.mnthash b)[j]? = some h) :
    (ns.setHead b j h').refs + h.held = ns.refs + h'.held := by
  have table := weigh_set (fun h : Mhead => (h.held : Multiset (Rc Chan))) ns.mnthash
      (b := h') there
  rw [refs, setHead, setChain_mnthash, refs]
  exact table

theorem refs_push (ns : Ns) (b : Fin Name.mnthash) (h : Mhead) :
    (ns.push b h).refs = ns.refs + h.held := by
  have table := weigh_push (fun h : Mhead => (h.held : Multiset (Rc Chan))) ns.mnthash b h
  rw [refs, push, setChain_mnthash, refs]
  exact table

theorem refs_unlink {b : Fin Name.mnthash} {j : Nat} {h : Mhead}
    (there : (ns.mnthash b)[j]? = some h) : (ns.unlink b j).refs + h.held = ns.refs := by
  have table := weigh_eraseIdx (fun h : Mhead => (h.held : Multiset (Rc Chan))) ns.mnthash there
  rw [refs, unlink, setChain_mnthash, refs]
  exact table

theorem bare_fst (es : List Element) :
    (es.map Element.bare).map Prod.fst = es.map Element.chan := by
  rw [map_map]
  rfl

theorem brought_fst (new : Element) (union : List Element) (how : Bind) :
    (brought new union how).map Prod.fst = new.chan :: (union.drop 1).map Element.chan := by
  simp [brought, Element.bare, Function.comp_def]

theorem spliced_fst (how : Bind) (list : List Element) (fresh : List Bare) :
    ((spliced how (list.map Element.bare) fresh).map Prod.fst : Multiset (Rc Chan)) +
        (replaced how list : List (Rc Chan)) =
      (list.map Element.chan : List (Rc Chan)) + (fresh.map Prod.fst : List (Rc Chan)) := by
  cases how
  · simp only [spliced, replaced]
    exact add_comm _ _
  · simp only [spliced, replaced, map_append, bare_fst, Multiset.coe_nil, add_zero,
      ← Multiset.coe_add]
    exact add_comm _ _
  · simp only [spliced, replaced, map_append, bare_fst, Multiset.coe_nil, add_zero,
      ← Multiset.coe_add]

theorem held_coe (h : Mhead) : (h.held : Multiset (Rc Chan)) =
    (h.mfrom.toList : List (Rc Chan)) + (h.mount.map Element.chan : List (Rc Chan)) := by
  rw [Mhead.held, Multiset.coe_add]

theorem held_mountedList (h : Mhead) (how : Bind) (new : Element) (union : List Element)
    (n : Ids) :
    (({ h with mount := mountedList how h.mount new union n } : Mhead).held :
        Multiset (Rc Chan)) + (replaced how h.mount : List (Rc Chan)) =
      (h.held : List (Rc Chan)) +
        (new.chan :: (union.drop 1).map Element.chan : List (Rc Chan)) := by
  rw [held_coe, held_coe, ← bare_fst, mountedList_bare, add_assoc, spliced_fst, brought_fst,
    add_assoc]

theorem held_newmhead (on : Rc Chan) (how : Bind) (n : Ids) :
    ((newmhead on how n).1.held : Multiset (Rc Chan)) =
      on ::ₘ (if how = .replace then 0 else {on}) := by
  unfold newmhead
  split_ifs <;> rfl

theorem refs_cmount {r : UInt32 × List (Rc Chan)}
    (ok : (ns.cmount n on new union how).1 = .ok r) :
    ns.refs + ns.takes on new union how = (ns.cmount n on new union how).2.1.refs + r.2 := by
  rcases cmount_cases ns n on new union how with ⟨e, r'⟩ | ⟨j, h, found, there, r'⟩ | ⟨absent, r'⟩
  · rw [r'] at ok
    cases ok
  · rw [r'] at ok ⊢
    cases ok
    have list := held_mountedList h how new union n
    have table := refs_setHead { h with mount := mountedList how h.mount new union n } there
    rw [takes, if_neg (by simp [found]), zero_add]
    apply add_right_cancel (b := (h.held : Multiset (Rc Chan)))
    calc ns.refs + ↑(new.chan :: (union.drop 1).map Element.chan) + ↑h.held
        = ns.refs + (↑h.held + ↑(new.chan :: (union.drop 1).map Element.chan)) := by
          rw [add_assoc, add_comm (h.held : Multiset (Rc Chan))]
      _ = ns.refs + ↑(Mhead.held { h with mount := mountedList how h.mount new union n }) +
            ↑(replaced how h.mount) := by
          rw [← list, add_assoc]
      _ = _ := by
          rw [← table, add_right_comm]
  · rw [r'] at ok ⊢
    cases ok
    have list := held_mountedList (newmhead on how n).1 how new union (newmhead on how n).2
    rw [newmhead_mfrom, held_newmhead] at list
    rw [takes, if_pos absent, ← list, ← add_assoc, refs_push]

theorem refs_cunmount {on : Chan} {named : Option (Chan → Bool)} {gone : List (Rc Chan)}
    (ok : (ns.cunmount on named).1 = .ok gone) :
    ns.refs = (ns.cunmount on named).2.refs + gone := by
  rcases cunmount_cases ns on named with
    ⟨e, r⟩ | ⟨j, h, gone', _, there, same, r⟩ | ⟨j, h, i, e, _, there, the, _, r⟩
  · rw [r] at ok
    cases ok
  · rw [r] at ok ⊢
    cases ok
    rw [Multiset.coe_eq_coe.2 same, refs_unlink there]
  · rw [r] at ok ⊢
    cases ok
    have table := refs_setHead { h with mount := h.mount.eraseIdx i } there
    have list : (h.held : Multiset (Rc Chan)) =
        ↑(Mhead.held { h with mount := h.mount.eraseIdx i }) + ↑[e.chan] := by
      obtain ⟨bound, is⟩ := List.getElem?_eq_some_iff.1 the
      have perm := (getElem_cons_eraseIdx_perm bound).map Element.chan
      rw [is] at perm
      rw [held_coe, held_coe, add_assoc, ← Multiset.coe_eq_coe.2 perm, map_cons,
        ← Multiset.cons_coe, ← Multiset.singleton_add, Multiset.coe_singleton]
      exact congrArg (_ + ·) (add_comm _ _)
    apply add_right_cancel (b := (Mhead.held { h with mount := h.mount.eraseIdx i } :
      Multiset (Rc Chan)))
    rw [← table, list, add_assoc, add_comm (↑[e.chan] : Multiset (Rc Chan))]

theorem refs_closepgrp (ns : Ns) : ns.refs = ns.closepgrp.2.refs + ns.closepgrp.1 := by
  have none : ns.closepgrp.2.refs = 0 := weigh_empty _
  rw [none, zero_add, refs, weigh_coe, closepgrp, heads, flatMap_assoc]

theorem refs_congr {ns' : Ns}
    (same : ∀ b, (ns'.mnthash b).map Mhead.held = (ns.mnthash b).map Mhead.held) :
    ns'.refs = ns.refs := by
  have chain : ∀ l : List Mhead, load (fun h : Mhead => (h.held : Multiset (Rc Chan))) l =
      ((l.map Mhead.held).map Multiset.ofList).sum := by
    intro l
    rw [load, map_map]
    rfl
  rw [refs, refs, weigh, weigh]
  simp only [chain, same]

theorem held_modify (h : Mhead) (i : Nat) (u : UInt32) :
    Mhead.held { h with mount := h.mount.modify i fun e => { e with mountid := u } } = h.held := by
  rw [Mhead.held, Mhead.held]
  congr 1
  apply ext_getElem?
  intro k
  simp only [List.getElem?_map, List.getElem?_modify]
  split_ifs
  · simp [Option.map_map, Function.comp_def]
  · simp

theorem refs_renumber (cs : List (UInt32 × Loc)) (ns : Ns) (n : Ids) :
    (renumber cs ns n).1.refs = ns.refs := by
  induction cs generalizing ns n with
  | nil => rfl
  | cons c cs ih =>
      rw [renumber, ih]
      exact refs_congr fun b => map_setMountid Mhead.held ns c.2 _ (fun h i => held_modify h i _) b

theorem refs_clone (ns : Ns) (n : Ids) : (ns.clone n).1.refs = ns.refs := by
  have sorted : (ns.clone n).1.refs = (renumber (ns.copies.mergeSort fun c d => c.1 ≤ d.1)
      (renumber ns.copies ns n).1 (renumber ns.copies ns n).2).1.refs := rfl
  rw [sorted, refs_renumber, refs_renumber]

end Ns

/-- The channels whose last reference is among these, given what else is held: each reference
in turn is let go of, and closes its channel if nothing has another. -/
def lastrefs (held : Multiset (Rc Chan)) : List (Rc Chan) → List (Rc Chan)
  | [] => []
  | r :: gone => if r ∈ held + gone then lastrefs held gone else r :: lastrefs held gone

theorem count_lastrefs (held : Multiset (Rc Chan)) (gone : List (Rc Chan)) (r : Rc Chan) :
    (lastrefs held gone).count r = if r ∈ gone ∧ r ∉ held then 1 else 0 := by
  induction gone with
  | nil => simp [lastrefs]
  | cons c gone ih =>
      rw [lastrefs]
      by_cases more : c ∈ held + gone
      · rw [if_pos more, ih]
        rcases Multiset.mem_add.1 more with there | later
        · by_cases same : r = c
          · subst same
            simp [there]
          · simp [same]
        · by_cases same : r = c
          · subst same
            simp [Multiset.mem_coe.1 later]
          · simp [same]
      · rw [if_neg more, count_cons, ih]
        rw [Multiset.mem_add, Multiset.mem_coe, not_or] at more
        by_cases same : r = c
        · subst same
          simp [more.1, more.2]
        · simp [same, Ne.symm same]

/-- The namespaces, the references held elsewhere (descriptors, directories, calls), every
channel made, and the closes made of them. -/
structure Holding where
  ids : Ids
  spaces : List Ns
  others : Multiset (Rc Chan)
  made : List (Rc Chan)
  closed : List (Rc Chan)

inductive HoldAct
  | walk (c : Chan)
  | share (r : Rc Chan)
  | cclose (r : Rc Chan)
  | new
  | cmount (i : Nat) (on : Rc Chan) (new : Element) (union : List Element) (how : Bind)
  | cunmount (i : Nat) (on : Rc Chan) (named : Option (Chan → Bool))
  | clone (i : Nat)
  | closepgrp (i : Nat)

namespace Holding

def boot : Holding := ⟨(Ns.new Ids.boot).2, [(Ns.new Ids.boot).1], 0, [], []⟩

def held (s : Holding) : Multiset (Rc Chan) := load Ns.refs s.spaces + s.others

/-- Let go of some references, making the closes that are then due. -/
def settle (s : Holding) (gone : List (Rc Chan)) : Holding :=
  { s with closed := s.closed ++ lastrefs s.held gone }

def handed {α : Type} (gone : α → List (Rc Chan)) : Except String α → List (Rc Chan)
  | .ok a => gone a
  | .error _ => []

/-- One operation of the kernel on them. A mount and an unmount end by closing the call's own
references, after what they were handed back. -/
def act (s : Holding) : HoldAct → Option Holding
  | .walk c => some { s with
      others := ⟨s.made.length, c⟩ ::ₘ s.others
      made := s.made ++ [⟨s.made.length, c⟩] }
  | .share r => if r ∈ s.held then some { s with others := r ::ₘ s.others } else none
  | .cclose r =>
      if r ∈ s.others then some (settle { s with others := s.others.erase r } [r]) else none
  | .new => some { s with
      ids := (Ns.new s.ids).2
      spaces := s.spaces ++ [(Ns.new s.ids).1] }
  | .cmount i on new union how =>
      if on ::ₘ {new.chan} ≤ s.others ∧ ∀ e ∈ union, e.chan ∈ s.held then
        s.spaces[i]?.map fun ns =>
          let r := ns.cmount s.ids on new union how
          settle { s with
            ids := r.2.2
            spaces := s.spaces.set i r.2.1
            others := s.others - on ::ₘ {new.chan} } (handed Prod.snd r.1 ++ [on, new.chan])
      else none
  | .cunmount i on named =>
      if on ∈ s.others then
        s.spaces[i]?.map fun ns =>
          let r := ns.cunmount on.val named
          settle { s with
            spaces := s.spaces.set i r.2
            others := s.others.erase on } (handed id r.1 ++ [on])
      else none
  | .clone i => s.spaces[i]?.map fun ns => { s with
      ids := (ns.clone s.ids).2
      spaces := s.spaces ++ [(ns.clone s.ids).1] }
  | .closepgrp i => s.spaces[i]?.map fun ns =>
      settle { s with spaces := s.spaces.set i ns.closepgrp.2 } ns.closepgrp.1

def system : System Holding HoldAct where
  init s := s = boot
  step s a s' := s.act a = some s'

/-- Every channel made is either held or has been closed, once. -/
structure Accounted (s : Holding) : Prop where
  placed : ∀ r ∈ s.made, r.ptr < s.made.length
  known : ∀ r ∈ s.held, r ∈ s.made
  closes : ∀ r ∈ s.closed, r ∈ s.made
  once : ∀ r ∈ s.made, s.closed.count r = if r ∈ s.held then 0 else 1

variable {s s' t : Holding} {a : HoldAct} {r : Rc Chan}

theorem Accounted.settle (acc : Accounted s) (gone : List (Rc Chan)) (made : t.made = s.made)
    (closed : t.closed = s.closed) (all : ∀ r, r ∈ s.held ↔ r ∈ t.held ∨ r ∈ gone) :
    Accounted (t.settle gone) where
  placed := by
    intro r member
    have same : (t.settle gone).made = s.made := made
    rw [same] at member ⊢
    exact acc.placed r member
  known := by
    intro r member
    have same : (t.settle gone).made = s.made := made
    rw [same]
    exact acc.known r ((all r).2 (.inl member))
  closes := by
    intro r member
    have same : (t.settle gone).made = s.made := made
    rw [same]
    rcases mem_append.1 member with old | new
    · rw [closed] at old
      exact acc.closes r old
    · have count := count_pos_iff.2 new
      rw [count_lastrefs] at count
      split_ifs at count with due
      · exact acc.known r ((all r).2 (.inr due.1))
      · omega
  once := by
    intro r member
    have same : (t.settle gone).made = s.made := made
    rw [same] at member
    have before := acc.once r member
    have after : (t.settle gone).closed.count r =
        s.closed.count r + if r ∈ gone ∧ r ∉ t.held then 1 else 0 := by
      rw [Holding.settle, count_append, count_lastrefs, closed]
    have still : (t.settle gone).held = t.held := rfl
    rw [after, before, still]
    have both := all r
    by_cases now : r ∈ t.held
    · simp [now, both.2 (.inl now)]
    · by_cases went : r ∈ gone
      · simp [now, went, both.2 (.inr went)]
      · have not : r ∉ s.held := fun h => (both.1 h).elim now went
        simp [now, went, not]

theorem Accounted.of_held (acc : Accounted s) (made : t.made = s.made)
    (closed : t.closed = s.closed) (all : ∀ r, r ∈ s.held ↔ r ∈ t.held) : Accounted t := by
  have settled := acc.settle [] made closed (by simpa using all)
  have same : t.settle [] = t := by simp [Holding.settle, lastrefs]
  rwa [same] at settled

theorem held_set {i : Nat} {ns : Ns} (ns' : Ns) (there : s.spaces[i]? = some ns) :
    load Ns.refs (s.spaces.set i ns') + ns.refs = load Ns.refs s.spaces + ns'.refs :=
  load_set Ns.refs there

theorem mem_held_set {i : Nat} {ns ns' : Ns} {others : Multiset (Rc Chan)}
    {gone : List (Rc Chan)} (taken : Multiset (Rc Chan)) (there : s.spaces[i]? = some ns)
    (kept : ns.refs + s.others + taken = ns'.refs + others + gone)
    (had : ∀ r ∈ taken, r ∈ s.held) (r : Rc Chan) :
    r ∈ s.held ↔ r ∈ load Ns.refs (s.spaces.set i ns') + others ∨ r ∈ gone := by
  have total : s.held + taken =
      load Ns.refs (s.spaces.set i ns') + others + gone := by
    apply add_right_cancel (b := ns.refs)
    have table := held_set ns' there
    calc s.held + taken + ns.refs
        = load Ns.refs s.spaces + (ns.refs + s.others + taken) := by
          rw [held]
          ac_rfl
      _ = load Ns.refs s.spaces + ns'.refs + (others + ↑gone) := by
          rw [kept]
          ac_rfl
      _ = load Ns.refs (s.spaces.set i ns') + others + ↑gone + ns.refs := by
          rw [← table]
          ac_rfl
  rw [← Multiset.mem_coe (l := gone), ← Multiset.mem_add, ← total, Multiset.mem_add]
  constructor
  · exact .inl
  · intro either
    exact either.elim id (had r)

theorem mem_held_of_mem_takes {ns : Ns} {on : Rc Chan} {new : Element} {union : List Element}
    {how : Bind} (own : on ::ₘ {new.chan} ≤ s.others) (rest : ∀ e ∈ union, e.chan ∈ s.held)
    (member : r ∈ ns.takes on new union how) : r ∈ s.held := by
  have mine : on ∈ s.others ∧ new.chan ∈ s.others := by
    constructor
    · exact Multiset.mem_of_le own (Multiset.mem_cons_self ..)
    · exact Multiset.mem_of_le own (by simp)
  have onHeld : on ∈ s.held := Multiset.mem_add.2 (.inr mine.1)
  rcases Multiset.mem_add.1 member with head | list
  · have same : r = on := by
      split_ifs at head
      · simpa using head
      · simpa using head
      · simp at head
    rw [same]
    exact onHeld
  · rcases mem_cons.1 (Multiset.mem_coe.1 list) with rfl | extra
    · exact Multiset.mem_add.2 (.inr mine.2)
    · obtain ⟨e, inUnion, rfl⟩ := mem_map.1 extra
      exact rest e (mem_of_mem_drop inUnion)

theorem act_accounted (acc : Accounted s) (step : s.act a = some s') : Accounted s' := by
  cases a with
  | walk c =>
      cases step
      have fresh : (⟨s.made.length, c⟩ : Rc Chan) ∉ s.made := by
        intro member
        exact absurd (acc.placed _ member) (Nat.lt_irrefl _)
      have unclosed : s.closed.count ⟨s.made.length, c⟩ = 0 :=
        count_eq_zero.2 fun member => fresh (acc.closes _ member)
      have grown : ∀ r, r ∈ held { s with
          others := ⟨s.made.length, c⟩ ::ₘ s.others
          made := s.made ++ [⟨s.made.length, c⟩] } ↔ r ∈ s.held ∨ r = ⟨s.made.length, c⟩ := by
        intro r
        simp only [held, Multiset.mem_add, Multiset.mem_cons]
        tauto
      constructor
      · intro r member
        rw [length_append, length_singleton]
        rcases mem_append.1 member with old | new
        · exact Nat.lt_succ_of_lt (acc.placed r old)
        · rw [mem_singleton.1 new]
          exact Nat.lt_succ_self _
      · intro r member
        rcases (grown r).1 member with old | rfl
        · exact mem_append_left _ (acc.known r old)
        · exact mem_append_right _ (mem_singleton_self _)
      · intro r member
        exact mem_append_left _ (acc.closes r member)
      · intro r member
        rcases mem_append.1 member with old | new
        · have differ : r ≠ ⟨s.made.length, c⟩ := fun same => fresh (same ▸ old)
          simp only [grown, differ, or_false]
          exact acc.once r old
        · have same := mem_singleton.1 new
          simp only [grown, same, or_true, if_true]
          exact unclosed
  | share r =>
      rw [act] at step
      split_ifs at step with had
      cases step
      refine acc.of_held rfl rfl ?_
      intro c
      have cons : c ∈ held { s with others := r ::ₘ s.others } ↔ c ∈ s.held ∨ c = r := by
        simp only [held, Multiset.mem_add, Multiset.mem_cons]
        tauto
      rw [cons]
      constructor
      · exact .inl
      · rintro (h | rfl)
        · exact h
        · exact had
  | cclose r =>
      rw [act] at step
      split_ifs at step with own
      cases step
      refine acc.settle [r] rfl rfl ?_
      intro c
      have split : s.others = r ::ₘ s.others.erase r := (Multiset.cons_erase own).symm
      have before : c ∈ s.held ↔ c ∈ load Ns.refs s.spaces ∨ c = r ∨ c ∈ s.others.erase r := by
        rw [held, split]
        simp
        tauto
      rw [before]
      simp only [held, Multiset.mem_add, mem_singleton]
      tauto
  | new =>
      cases step
      refine acc.of_held rfl rfl ?_
      intro c
      have none : (Ns.new s.ids).1.refs = 0 := weigh_empty _
      simp [held, none]
  | cmount i on new union how =>
      rw [act] at step
      split_ifs at step with call
      obtain ⟨ns, there, rfl⟩ := Option.map_eq_some_iff.1 step
      have own : s.others = s.others - on ::ₘ {new.chan} + ([on, new.chan] : List (Rc Chan)) :=
        (tsub_add_cancel_of_le call.1).symm
      rcases result : (ns.cmount s.ids on new union how).1 with e | ok
      · have same : (ns.cmount s.ids on new union how).2.1 = ns := by
          rw [Ns.cmount_error result]
        refine acc.settle _ rfl rfl (mem_held_set 0 there ?_ (by simp))
        rw [same, result, handed, nil_append, add_zero, add_assoc, ← own]
      · refine acc.settle _ rfl rfl (mem_held_set (ns.takes on new union how) there ?_
          fun r member => mem_held_of_mem_takes call.1 call.2 member)
        have kept := Ns.refs_cmount result
        rw [result, handed, ← Multiset.coe_add, add_right_comm, kept]
        nth_rewrite 1 [own]
        dsimp only
        ac_rfl
  | cunmount i on named =>
      rw [act] at step
      split_ifs at step with own
      obtain ⟨ns, there, rfl⟩ := Option.map_eq_some_iff.1 step
      have split : s.others = s.others.erase on + ([on] : List (Rc Chan)) := by
        rw [Multiset.coe_singleton, add_comm, Multiset.singleton_add, Multiset.cons_erase own]
      refine acc.settle _ rfl rfl (mem_held_set 0 there ?_ (by simp))
      rcases result : (ns.cunmount on.val named).1 with e | gone
      · rw [Ns.cunmount_error result, handed, nil_append, add_zero, add_assoc, ← split]
      · have kept := Ns.refs_cunmount result
        rw [handed, id, ← Multiset.coe_add, add_zero, kept]
        nth_rewrite 1 [split]
        dsimp only
        ac_rfl
  | clone i =>
      obtain ⟨ns, there, rfl⟩ := Option.map_eq_some_iff.1 step
      refine acc.of_held rfl rfl ?_
      intro c
      have among : c ∈ ns.refs → c ∈ load Ns.refs s.spaces := by
        intro member
        have split := load_eraseIdx Ns.refs there
        rw [← split]
        exact Multiset.mem_add.2 (.inr member)
      simp only [held, load_append, load_cons, load_nil, Ns.refs_clone, add_zero,
        Multiset.mem_add]
      tauto
  | closepgrp i =>
      obtain ⟨ns, there, rfl⟩ := Option.map_eq_some_iff.1 step
      refine acc.settle _ rfl rfl (mem_held_set 0 there ?_ (by simp))
      have kept := ns.refs_closepgrp
      nth_rewrite 1 [kept]
      rw [add_zero]
      ac_rfl

theorem accounted_boot : Accounted boot where
  placed := by simp [boot]
  known := by
    intro r member
    have none : boot.held = 0 := by
      have empty : (Ns.new Ids.boot).1.refs = 0 := weigh_empty _
      simp [held, boot, empty]
    rw [none] at member
    exact absurd member (Multiset.notMem_zero r)
  closes := by simp [boot]
  once := by simp [boot]

theorem accounted_reachable (reached : system.Reachable s) : Accounted s := by
  apply reached.invariant Accounted
  · rintro _ rfl
    exact accounted_boot
  · intro s a s' acc _ step
    exact act_accounted acc step

/-- A mount, an unmount and the end of a namespace account for every reference; and in every
state of every run, no channel a namespace holds has been closed, and every channel made that
nothing holds has been closed once. -/
theorem refs_conserved (reached : system.Reachable s) :
    (∀ (ns : Ns) n on new union how, match (ns.cmount n on new union how).1 with
      | .ok r => ns.refs + ns.takes on new union how =
          (ns.cmount n on new union how).2.1.refs + r.2
      | .error _ => ns.refs = (ns.cmount n on new union how).2.1.refs) ∧
    (∀ (ns : Ns) on named, match (ns.cunmount on named).1 with
      | .ok gone => ns.refs = (ns.cunmount on named).2.refs + gone
      | .error _ => ns.refs = (ns.cunmount on named).2.refs) ∧
    (∀ ns : Ns, ns.refs = ns.closepgrp.2.refs + ns.closepgrp.1) ∧
    (∀ ns ∈ s.spaces, ∀ r ∈ ns.refs, r ∉ s.closed) ∧
    (∀ r ∈ s.made, r ∉ s.held → s.closed.count r = 1) := by
  have acc := accounted_reachable reached
  refine ⟨?_, ?_, Ns.refs_closepgrp, ?_, ?_⟩
  · intro ns n on new union how
    rcases result : (ns.cmount n on new union how).1 with e | r
    · dsimp only
      rw [Ns.cmount_error result]
    · exact Ns.refs_cmount result
  · intro ns on named
    rcases result : (ns.cunmount on named).1 with e | gone
    · dsimp only
      rw [Ns.cunmount_error result]
    · exact Ns.refs_cunmount result
  · intro ns member r inRefs closed
    obtain ⟨i, there⟩ := mem_iff_getElem?.1 member
    have holds : r ∈ s.held := by
      have split := load_eraseIdx Ns.refs there
      rw [held, ← split]
      exact Multiset.mem_add.2 (.inl (Multiset.mem_add.2 (.inr inRefs)))
    have count := acc.once r (acc.known r holds)
    rw [if_pos holds] at count
    exact absurd closed (count_eq_zero.1 count)
  · intro r made free
    rw [acc.once r made, if_neg free]

def dir (path : UInt64) : Chan := { Chan.attach .root 0 with qid := ⟨qtdir, 0, path⟩ }

def boundRun : List HoldAct :=
  [.walk (dir 1), .walk (dir 2),
    .cmount 0 ⟨0, dir 1⟩ (Element.shared ⟨1, dir 2⟩ Mflag.mrepl "") [] .replace, .closepgrp 0]

theorem reachable_foldlM {acts : List HoldAct} {s t : Holding} (reached : system.Reachable s)
    (ran : acts.foldlM act s = some t) : system.Reachable t := by
  induction acts generalizing s with
  | nil =>
      cases ran
      exact reached
  | cons a acts ih =>
      rw [foldlM_cons] at ran
      obtain ⟨s', step, rest⟩ := Option.bind_eq_some_iff.1 ran
      exact ih (.step reached trivial step) rest

theorem refs_conserved_bound : ∃ s, boundRun.foldlM act boot = some s ∧
    s.closed = [⟨0, dir 1⟩, ⟨1, dir 2⟩] ∧
    (∀ ns ∈ s.spaces, ∀ r ∈ ns.refs, r ∉ s.closed) ∧
    ∀ r ∈ s.made, r ∉ s.held → s.closed.count r = 1 := by
  have closes : (boundRun.foldlM act boot).map closed = some [⟨0, dir 1⟩, ⟨1, dir 2⟩] := by decide
  obtain ⟨s, ran, closed⟩ := Option.map_eq_some_iff.1 closes
  have conserved := refs_conserved (reachable_foldlM (.init rfl) ran)
  exact ⟨s, ran, closed, conserved.2.2.2⟩

end Holding

end Ipnx.Name
