import Ipnx.Name.Spaces

/-!
# What is mounted on a file is of its kind

A mount is of a directory on a directory or of a file on a file. `cmount` compares the two
channels it is given; the rest of a union comes from the head the mounted channel was found
on, so it was compared when it was mounted there.
-/

namespace Ipnx.Name

open List

def Mhead.chans (h : Mhead) : Option (Rc Chan) × List (Rc Chan) :=
  (h.mfrom, h.mount.map Element.chan)

def Mhead.Kind (h : Mhead) : Prop :=
  ∀ f, h.chans.1 = some f → ∀ r ∈ h.chans.2, r.val.isDir = f.val.isDir

namespace Ns

variable {ns : Ns} {n : Ids} {b : Fin Name.mnthash} {j : Nat} {h h' : Mhead}

def Kinds (ns : Ns) : Prop := ∀ b, ∀ h ∈ ns.mnthash b, h.Kind

/-- What `bind` and `mount` pass for the rest of a union: nothing, or the list of the head
that the mounted channel came from. -/
def Found (ns : Ns) (new : Element) (union : List Element) : Prop :=
  union = [] ∨ ∃ h ∈ ns.heads, h.mount = union ∧ new.chan ∈ union.map Element.chan

theorem isDir_of_cmount (on : Rc Chan) (new : Element) (union : List Element) (how : Bind)
    (differ : new.chan.val.isDir ≠ on.val.isDir) :
    ns.cmount n on new union how = (.error emount, ns, n) := by
  unfold cmount
  apply if_pos
  rw [bne_iff_ne]
  intro same
  apply differ
  have bits : (on.val.qid.qtype &&& qtdir) ^^^ (new.chan.val.qid.qtype &&& qtdir) = 0 := by
    apply UInt8.toNat_inj.1
    rw [UInt8.toNat_xor, UInt8.toNat_and, UInt8.toNat_and, ← Nat.and_xor_distrib_right,
      ← UInt8.toNat_xor, ← UInt8.toNat_and, same]
  simp only [Chan.isDir, Qid.isDir, UInt8.xor_eq_zero_iff.1 bits]

theorem mem_mountedList {how : Bind} {list union : List Element} {new : Element} {r : Rc Chan}
    (member : r ∈ (mountedList how list new union n).map Element.chan) :
    r ∈ list.map Element.chan ∨ r = new.chan ∨ r ∈ union.map Element.chan := by
  have numbered : ∀ r, r ∈ ((number (group new union how) n).1).map Element.chan →
      r = new.chan ∨ r ∈ union.map Element.chan := by
    intro r member
    rw [number_chan, group, map_cons, map_map, mem_cons] at member
    rcases member with rfl | rest
    · exact .inl rfl
    · obtain ⟨e, inUnion, rfl⟩ := mem_map.1 rest
      exact .inr (mem_map.2 ⟨e, mem_of_mem_drop inUnion, rfl⟩)
  cases how with
  | replace => exact .inr (numbered r member)
  | before =>
      rw [mountedList, place, insertAll_eq, map_append, mem_append] at member
      exact member.symm.imp_right (numbered r)
  | after =>
      rw [mountedList, place, map_append, mem_append] at member
      exact member.imp_right (numbered r)

theorem chans_renumber (cs : List (UInt32 × Loc)) (ns : Ns) (n : Ids) (b : Fin Name.mnthash) :
    ((renumber cs ns n).1.mnthash b).map Mhead.chans = (ns.mnthash b).map Mhead.chans := by
  induction cs generalizing ns n with
  | nil => rfl
  | cons c cs ih =>
      rw [renumber, ih]
      apply map_setMountid
      intro h i
      have same : (h.mount.modify i fun e => { e with mountid := n.newmountid.1 }).map
          Element.chan = h.mount.map Element.chan := by
        apply ext_getElem?
        intro k
        simp only [List.getElem?_map, List.getElem?_modify]
        split_ifs <;> simp [Option.map_map, Function.comp_def]
      simp only [Mhead.chans, same]

variable (kinds : ns.Kinds)

include kinds

theorem Kinds.setChain {chain : List Mhead} (each : ∀ h ∈ chain, h.Kind) :
    (ns.setChain b chain).Kinds :=
  forall_setChain (P := fun _ chain => ∀ h ∈ chain, h.Kind) kinds each

theorem Kinds.push (kind : h.Kind) : (ns.push b h).Kinds := by
  apply kinds.setChain
  intro g member
  rcases mem_append.1 member with old | new
  · exact kinds b g old
  · rw [mem_singleton.1 new]
    exact kind

theorem Kinds.setHead (kind : h.Kind) : (ns.setHead b j h).Kinds := by
  apply kinds.setChain
  intro g member
  rcases mem_or_eq_of_mem_set member with old | rfl
  · exact kinds b g old
  · exact kind

theorem Kinds.unlink (b : Fin Name.mnthash) (j : Nat) : (ns.unlink b j).Kinds := by
  apply kinds.setChain
  intro g member
  exact kinds b g ((eraseIdx_sublist ..).subset member)

theorem Kinds.cmount (formed : ns.Formed) (n : Ids) (on : Rc Chan)
    (new : Element) (union : List Element) (how : Bind) (found : ns.Found new union) :
    (ns.cmount n on new union how).2.1.Kinds := by
  by_cases same : new.chan.val.isDir = on.val.isDir
  case neg =>
    rw [isDir_of_cmount on new union how same]
    exact kinds
  have rest : ∀ r ∈ union.map Element.chan, r.val.isDir = on.val.isDir := by
    intro r member
    rcases found with rfl | ⟨h, inHeads, rfl, inUnion⟩
    · cases member
    · obtain ⟨b, inChain⟩ := mem_heads.1 inHeads
      obtain ⟨f, from_, _⟩ := formed.hashed b h inChain
      have kind := kinds b h inChain f from_
      rw [← same, kind r member, kind new.chan inUnion]
  have mounted : ∀ list n, (∀ r ∈ list.map Element.chan, r.val.isDir = on.val.isDir) →
      ∀ r ∈ (mountedList how list new union n).map Element.chan, r.val.isDir = on.val.isDir := by
    intro list n old r member
    rcases mem_mountedList member with before | rfl | other
    · exact old r before
    · exact same
    · exact rest r other
  rcases cmount_cases ns n on new union how with ⟨e, r⟩ | ⟨j, h, place, there, r⟩ | ⟨absent, r⟩
  · rw [r]
    exact kinds
  · rw [r]
    apply kinds.setHead
    intro f from_
    obtain ⟨h', there', is⟩ := lookup_eq_some place
    have one : h' = h := Option.some.inj (there'.symm.trans there)
    subst one
    obtain ⟨f', from', eq⟩ := isOn_iff.1 is
    have one : f' = f := Option.some.inj (from'.symm.trans from_)
    subst one
    have level : f'.val.isDir = on.val.isDir := by
      simp only [Chan.isDir, Qid.isDir, (eqchan_iff.1 eq).2.1]
    rw [level]
    apply mounted
    intro r member
    rw [← level]
    exact kinds _ h' (mem_of_getElem? there) f' from' r member
  · rw [r]
    apply kinds.push
    intro f from_
    have one : on = f := Option.some.inj from_
    subst one
    apply mounted
    intro r member
    unfold newmhead at member
    split_ifs at member
    · cases member
    · rw [map_singleton, mem_singleton] at member
      rw [member]
      rfl

theorem Kinds.cunmount (on : Chan) (named : Option (Chan → Bool)) :
    (ns.cunmount on named).2.Kinds := by
  rcases cunmount_cases ns on named with
    ⟨e, r⟩ | ⟨j, h, gone, _, _, _, r⟩ | ⟨j, h, i, e, _, there, _, others, r⟩
  · rw [r]
    exact kinds
  · rw [r]
    exact kinds.unlink _ _
  · rw [r]
    apply kinds.setHead
    intro f from_ c member
    apply kinds _ h (mem_of_getElem? there) f from_ c
    exact ((eraseIdx_sublist h.mount i).map Element.chan).subset member

theorem Kinds.clone (n : Ids) : (ns.clone n).1.Kinds := by
  intro b h member
  have chans : ((ns.clone n).1.mnthash b).map Mhead.chans = (ns.mnthash b).map Mhead.chans := by
    rw [← chans_renumber ns.copies ns n]
    exact chans_renumber (ns.copies.mergeSort fun c d => c.1 ≤ d.1) _ _ b
  have old : h.chans ∈ (ns.mnthash b).map Mhead.chans := by
    rw [← chans]
    exact mem_map_of_mem member
  obtain ⟨g, inChain, same⟩ := mem_map.1 old
  have kind := kinds b g inChain
  rw [Mhead.Kind, same] at kind
  exact kind

theorem Kinds.findmount {c : Chan} (found : ns.findmount c = some h) :
    ∀ e ∈ h.mount, e.chan.val.isDir = c.isDir := by
  intro e member
  obtain ⟨inHeads, is⟩ := mem_of_findmount found
  obtain ⟨b, inChain⟩ := mem_heads.1 inHeads
  obtain ⟨f, from_, eq⟩ := isOn_iff.1 is
  rw [kinds b h inChain f from_ e.chan (mem_map_of_mem member)]
  simp only [Chan.isDir, Qid.isDir, (eqchan_iff.1 eq).2.1]

end Ns

namespace Spaces

def found (s : Spaces) : NsAct → Prop
  | .cmount i _ new union _ => ∀ ns, s.spaces[i]? = some ns → ns.Found new union
  | _ => True

theorem kinds_of_reach {s : Spaces} (reached : system.Reach found s) :
    ∀ ns ∈ s.spaces, ns.Kinds := by
  suffices both : (∀ ns ∈ s.spaces, ns.Formed) ∧ ∀ ns ∈ s.spaces, ns.Kinds from both.2
  apply reached.invariant (fun s => (∀ ns ∈ s.spaces, ns.Formed) ∧ ∀ ns ∈ s.spaces, ns.Kinds)
  · rintro _ rfl
    refine ⟨?_, ?_⟩ <;> intro ns member <;> rw [mem_singleton.1 member]
    · exact Ns.formed_empty _ _
    · simp [Ns.Kinds, Ns.new]
  · intro s a s' inv allowed moved
    refine ⟨act_formed moved inv.1, ?_⟩
    have changed : ∀ {i : Nat} {ns' : Ns}, ns'.Kinds → ∀ ns ∈ s.spaces.set i ns', ns.Kinds := by
      intro i ns' kinds ns member
      rcases mem_or_eq_of_mem_set member with old | rfl
      · exact inv.2 ns old
      · exact kinds
    have added : ∀ {ns' : Ns}, ns'.Kinds → ∀ ns ∈ s.spaces ++ [ns'], ns.Kinds := by
      intro ns' kinds ns member
      rcases mem_append.1 member with old | new
      · exact inv.2 ns old
      · rw [mem_singleton.1 new]
        exact kinds
    cases a with
    | new =>
        cases moved
        apply added
        simp [Ns.Kinds, Ns.new]
    | cmount i on new union how =>
        obtain ⟨ns, here, rfl⟩ := Option.map_eq_some_iff.1 moved
        have member := mem_of_getElem? here
        apply changed
        exact (inv.2 ns member).cmount (inv.1 ns member) s.ids on new union how (allowed ns here)
    | cunmount i on named =>
        obtain ⟨ns, here, rfl⟩ := Option.map_eq_some_iff.1 moved
        apply changed
        exact (inv.2 ns (mem_of_getElem? here)).cunmount on named
    | clone i =>
        obtain ⟨ns, here, rfl⟩ := Option.map_eq_some_iff.1 moved
        apply added
        exact (inv.2 ns (mem_of_getElem? here)).clone s.ids
    | closepgrp i =>
        obtain ⟨ns, here, rfl⟩ := Option.map_eq_some_iff.1 moved
        apply changed
        simp [Ns.Kinds, Ns.closepgrp]

end Spaces

end Ipnx.Name
