import Ipnx.Name.Copy
import Ipnx.Lib.System

/-!
# The mount table over any run

Namespaces are made, mounted in, unmounted in, copied and closed in any order. Every head
stays on the chain its file hashes to, with a list that is not empty, and is the only head of
its file; so a lookup finds the one head of a file whichever channel names it. Mounts are
numbered from one counter of 32 bits, and no two have the same number until it has gone
round.
-/

namespace Ipnx.Name

open List

/-- Heads on these two channels are of different files. -/
def Apart (o o' : Option (Rc Chan)) : Prop :=
  ∀ f f', o = some f → o' = some f' → eqchan f.val f'.val = false

instance : Std.Symm Apart where
  symm := by
    intro o o' apart f' f from' from_
    have differ := apart f f' from_ from'
    rw [Bool.eq_false_iff] at differ ⊢
    exact fun same => differ (eqchan_symm same)

namespace Ns

/-- What holds of a namespace however it was made. -/
structure Formed (ns : Ns) : Prop where
  hashed : ∀ b, ∀ h ∈ ns.mnthash b, ∃ f, h.mfrom = some f ∧ mounth f.val = b
  filled : ∀ b, ∀ h ∈ ns.mnthash b, h.mount ≠ []
  single : ∀ b, (ns.froms b).Pairwise Apart

variable {ns : Ns} {n : Ids} {on : Chan} {b : Fin Name.mnthash} {j : Nat} {h h' : Mhead}

theorem mountedList_ne_nil (how : Bind) (list : List Element) (new : Element)
    (union : List Element) (n : Ids) : mountedList how list new union n ≠ [] := by
  intro none
  have length := congrArg List.length none
  cases how <;> simp [mountedList, place, insertAll_eq, group] at length

theorem Formed.of_froms {ns' : Ns} (formed : ns.Formed) (froms : ∀ b, ns'.froms b = ns.froms b)
    (sizes : ∀ b, ns'.sizes b = ns.sizes b) : ns'.Formed where
  hashed := by
    intro b h member
    have inFroms : h.mfrom ∈ ns.froms b := by
      rw [← froms]
      exact mem_map_of_mem member
    obtain ⟨g, memberG, same⟩ := mem_map.1 inFroms
    rw [← same]
    exact formed.hashed b g memberG
  filled := by
    intro b h member empty
    have inSizes : 0 ∈ ns.sizes b := by
      rw [← sizes]
      exact mem_map.2 ⟨h, member, by simp [empty]⟩
    obtain ⟨g, memberG, none⟩ := mem_map.1 inSizes
    exact formed.filled b g memberG (length_eq_zero_iff.1 none)
  single := by
    intro b
    rw [froms]
    exact formed.single b

section Formed

variable (formed : ns.Formed)

include formed

theorem Formed.setChain {chain : List Mhead}
    (hashed : ∀ h ∈ chain, ∃ f, h.mfrom = some f ∧ mounth f.val = b)
    (filled : ∀ h ∈ chain, h.mount ≠ []) (single : (chain.map Mhead.mfrom).Pairwise Apart) :
    (ns.setChain b chain).Formed where
  hashed := forall_setChain
    (P := fun b chain => ∀ h ∈ chain, ∃ f, h.mfrom = some f ∧ mounth f.val = b)
    formed.hashed hashed
  filled := forall_setChain (P := fun _ chain => ∀ h ∈ chain, h.mount ≠ []) formed.filled filled
  single := forall_setChain (P := fun _ chain => (chain.map Mhead.mfrom).Pairwise Apart)
    formed.single single

theorem Formed.push {f : Rc Chan} (from_ : h.mfrom = some f)
    (list : h.mount ≠ []) (absent : ns.lookup f.val = none) :
    (ns.push (mounth f.val) h).Formed := by
  apply formed.setChain
  · intro g member
    rcases mem_append.1 member with old | new
    · exact formed.hashed _ g old
    · rw [mem_singleton.1 new]
      exact ⟨f, from_, rfl⟩
  · intro g member
    rcases mem_append.1 member with old | new
    · exact formed.filled _ g old
    · rw [mem_singleton.1 new]
      exact list
  · rw [map_append, map_singleton, pairwise_append]
    refine ⟨formed.single _, pairwise_singleton _ _, ?_⟩
    intro o member o' new g k hg hk
    obtain ⟨head, inChain, rfl⟩ := mem_map.1 member
    rw [mem_singleton.1 new, from_, Option.some.injEq] at hk
    subst hk
    have other := lookup_eq_none.1 absent head inChain
    simpa [Mhead.isOn, hg] using other

theorem Formed.setHead (there : (ns.mnthash b)[j]? = some h)
    (same : h'.mfrom = h.mfrom) (list : h'.mount ≠ []) : (ns.setHead b j h').Formed := by
  have member : h ∈ ns.mnthash b := mem_of_getElem? there
  apply formed.setChain
  · intro g inChain
    rcases mem_or_eq_of_mem_set inChain with old | rfl
    · exact formed.hashed _ g old
    · rw [same]
      exact formed.hashed _ h member
  · intro g inChain
    rcases mem_or_eq_of_mem_set inChain with old | rfl
    · exact formed.filled _ g old
    · exact list
  · have froms : ((ns.mnthash b).set j h').map Mhead.mfrom = ns.froms b := by
      apply ext_getElem?
      intro k
      rw [Ns.froms, List.getElem?_map, List.getElem?_map, List.getElem?_set]
      split_ifs with here bound
      · rw [← here, there, Option.map_some, Option.map_some, same]
      · rw [← here, List.getElem?_eq_none (Nat.le_of_not_lt bound), Option.map_none]
      · rfl
    rw [froms]
    exact formed.single b

theorem Formed.unlink (b : Fin Name.mnthash) (j : Nat) : (ns.unlink b j).Formed := by
  have less : ((ns.mnthash b).eraseIdx j).Sublist (ns.mnthash b) := eraseIdx_sublist ..
  exact formed.setChain (fun g member => formed.hashed _ g (less.subset member))
    (fun g member => formed.filled _ g (less.subset member))
    ((formed.single b).sublist (less.map _))

theorem Formed.cmount (n : Ids) (on : Rc Chan) (new : Element)
    (union : List Element) (how : Bind) : (ns.cmount n on new union how).2.1.Formed := by
  rcases cmount_cases ns n on new union how with ⟨e, r⟩ | ⟨j, h, _, there, r⟩ | ⟨absent, r⟩
  · rw [r]
    exact formed
  · rw [r]
    exact formed.setHead there rfl (mountedList_ne_nil _ _ _ _ _)
  · rw [r]
    exact formed.push rfl (mountedList_ne_nil _ _ _ _ _) absent

theorem Formed.cunmount (on : Chan) (named : Option (Chan → Bool)) :
    (ns.cunmount on named).2.Formed := by
  rcases cunmount_cases ns on named with
    ⟨e, r⟩ | ⟨j, h, gone, _, _, _, r⟩ | ⟨j, h, i, e, _, there, _, others, r⟩
  · rw [r]
    exact formed
  · rw [r]
    exact formed.unlink _ _
  · rw [r]
    exact formed.setHead there rfl others

theorem Formed.clone (n : Ids) : (ns.clone n).1.Formed :=
  formed.of_froms (froms_clone ns n) (sizes_clone ns n)

end Formed

theorem formed_empty (id : UInt32) (noattach : Bool) :
    (⟨fun _ => [], id, noattach⟩ : Ns).Formed where
  hashed := by simp
  filled := by simp
  single := by simp [froms]

theorem find_eq_of_eqchan {c c' : Chan} (same : eqchan c c' = true) :
    ns.findmount c = ns.findmount c' := by
  have is : Mhead.isOn c = Mhead.isOn c' := by
    funext h
    rw [Bool.eq_iff_iff, isOn_iff, isOn_iff]
    constructor
    · rintro ⟨f, from_, on⟩
      exact ⟨f, from_, eqchan_trans on same⟩
    · rintro ⟨f, from_, on⟩
      exact ⟨f, from_, eqchan_trans on (eqchan_symm same)⟩
  simp only [findmount, is, mounth_eq_of_eqchan same]

theorem mem_heads : h ∈ ns.heads ↔ ∃ b, h ∈ ns.mnthash b := by
  simp [heads]

theorem mem_of_findmount (found : ns.findmount on = some h) : h ∈ ns.heads ∧ h.isOn on = true := by
  obtain ⟨there, _⟩ := Option.filter_eq_some_iff.1 found
  exact ⟨mem_heads.2 ⟨_, mem_of_find?_eq_some there⟩, List.find?_some there⟩

theorem Formed.apart (formed : ns.Formed) (member : h ∈ ns.mnthash b) (member' : h' ∈ ns.mnthash b)
    (differ : h ≠ h') : Apart h.mfrom h'.mfrom := by
  obtain ⟨j, bound, rfl⟩ := getElem_of_mem member
  obtain ⟨k, bound', rfl⟩ := getElem_of_mem member'
  have pairs := pairwise_iff_getElem.1 (pairwise_map.1 (formed.single b))
  rcases Nat.lt_trichotomy j k with less | same | more
  · exact pairs j k bound bound' less
  · subst same
    exact absurd rfl differ
  · exact symm_of Apart (pairs k j bound' bound more)

theorem Formed.findmount (formed : ns.Formed) (member : h ∈ ns.heads) (is : h.isOn on = true) :
    ns.findmount on = some h := by
  obtain ⟨b, inChain⟩ := mem_heads.1 member
  obtain ⟨f, from_, chain⟩ := formed.hashed b h inChain
  obtain ⟨f', from', same⟩ := isOn_iff.1 is
  have one : f' = f := Option.some.inj (from'.symm.trans from_)
  subst one
  rw [mounth_eq_of_eqchan same] at chain
  subst chain
  have found : (ns.mnthash (mounth on)).find? (Mhead.isOn on) = some h := by
    rcases first : (ns.mnthash (mounth on)).find? (Mhead.isOn on) with _ | g
    · exact absurd is (by simpa using List.find?_eq_none.1 first h inChain)
    · obtain ⟨fg, fromG, sameG⟩ := isOn_iff.1 (List.find?_some first)
      by_cases one : g = h
      · rw [one]
      · have memberG : g ∈ ns.mnthash (mounth on) := mem_of_find?_eq_some first
        have apart : Apart g.mfrom h.mfrom := formed.apart memberG inChain one
        have joined := eqchan_trans sameG (eqchan_symm same)
        rw [apart fg f' fromG from_] at joined
        exact absurd joined Bool.false_ne_true
  rw [Ns.findmount, found]
  simp [Option.filter, formed.filled _ h inChain]

end Ns

end Ipnx.Name
