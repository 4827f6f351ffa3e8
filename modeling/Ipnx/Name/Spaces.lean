import Ipnx.Name.Heads

/-!
# Namespaces made, mounted in, copied and closed

The run of a whole set of namespaces on the kernel's two counters. The numbers of all the
mounts of all of them are accounted for together: what an operation adds is what it drew.
-/

namespace Ipnx.Name

open List
open Function (update update_apply update_eq_self update_idem update_of_ne update_self)

/-- The namespaces there are, and the counters they draw from. -/
structure Spaces where
  ids : Ids
  spaces : List Ns

inductive NsAct
  | new
  | cmount (i : Nat) (on : Rc Chan) (new : Element) (union : List Element) (how : Bind)
  | cunmount (i : Nat) (on : Chan) (named : Option (Chan → Bool))
  | clone (i : Nat)
  | closepgrp (i : Nat)

namespace Spaces

def boot : Spaces := ⟨(Ns.new Ids.boot).2, [(Ns.new Ids.boot).1]⟩

def act (s : Spaces) : NsAct → Option Spaces
  | .new => some ⟨(Ns.new s.ids).2, s.spaces ++ [(Ns.new s.ids).1]⟩
  | .cmount i on new union how => s.spaces[i]?.map fun ns =>
      ⟨(ns.cmount s.ids on new union how).2.2,
        s.spaces.set i (ns.cmount s.ids on new union how).2.1⟩
  | .cunmount i on named => s.spaces[i]?.map fun ns =>
      ⟨s.ids, s.spaces.set i (ns.cunmount on named).2⟩
  | .clone i => s.spaces[i]?.map fun ns =>
      ⟨(ns.clone s.ids).2, s.spaces ++ [(ns.clone s.ids).1]⟩
  | .closepgrp i => s.spaces[i]?.map fun ns => ⟨s.ids, s.spaces.set i ns.closepgrp.2⟩

def system : System Spaces NsAct where
  init s := s = boot
  step s a s' := s.act a = some s'

def mountids (s : Spaces) : Multiset UInt32 := load Ns.mountids s.spaces

end Spaces

def drawn (k len : Nat) : Multiset UInt32 := ((List.range' k len).map UInt32.ofNat : List UInt32)

/-- Numbers that are all different and were all drawn before the counter came to `k`. -/
structure Numbered (ids : Multiset UInt32) (k : Nat) : Prop where
  nodup : ids.Nodup
  before : ∀ u ∈ ids, ∃ i, 1 ≤ i ∧ i < k ∧ u = UInt32.ofNat i

theorem ofNat_inj {i k : Nat} (hi : 1 ≤ i) (hi' : i ≤ 2 ^ 32) (hk : 1 ≤ k) (hk' : k ≤ 2 ^ 32)
    (same : UInt32.ofNat i = UInt32.ofNat k) : i = k := by
  have mods := congrArg UInt32.toNat same
  simp only [UInt32.toNat_ofNat'] at mods
  omega

theorem drawn_nodup {k len : Nat} (first : 1 ≤ k) (room : k + len ≤ 2 ^ 32 + 1) :
    (drawn k len).Nodup := by
  rw [drawn, Multiset.coe_nodup]
  apply List.Nodup.map_on _ nodup_range'
  intro i hi j hj same
  rw [mem_range'_1] at hi hj
  exact ofNat_inj (by omega) (by omega) (by omega) (by omega) same

theorem Numbered.add {ids ids' : Multiset UInt32} {n k len m : Nat} (numbered : Numbered ids n)
    (first : 1 ≤ n) (since : n ≤ k) (upto : k + len ≤ m) (room : m ≤ 2 ^ 32 + 1)
    (added : ids' ≤ ids + drawn k len) : Numbered ids' m where
  nodup := by
    apply Multiset.nodup_of_le added
    rw [Multiset.nodup_add]
    refine ⟨numbered.nodup, drawn_nodup (by omega) (by omega), ?_⟩
    rw [Multiset.disjoint_left]
    intro u old new
    obtain ⟨i, hi, before, rfl⟩ := numbered.before u old
    obtain ⟨j, hj, same⟩ := mem_map.1 (Multiset.mem_coe.1 new)
    rw [mem_range'_1] at hj
    have one := ofNat_inj (by omega) (by omega) hi (by omega) same
    omega
  before := by
    intro u member
    rcases Multiset.mem_add.1 (Multiset.mem_of_le added member) with old | new
    · obtain ⟨i, hi, before, rfl⟩ := numbered.before u old
      exact ⟨i, hi, by omega, rfl⟩
    · obtain ⟨j, hj, rfl⟩ := mem_map.1 (Multiset.mem_coe.1 new)
      rw [mem_range'_1] at hj
      exact ⟨j, by omega, by omega, rfl⟩

namespace Ns

variable {ns : Ns}

def numbers (es : List Element) : Multiset UInt32 := (es.map Element.mountid : List UInt32)

theorem numbers_append (es es' : List Element) :
    numbers (es ++ es') = numbers es + numbers es' := by
  rw [numbers, map_append, ← Multiset.coe_add, numbers, numbers]

theorem numbers_mountedList (how : Bind) (list : List Element) (new : Element)
    (union : List Element) (n : Ids) : numbers (mountedList how list new union n) ≤
      numbers list + drawn n.mountid (group new union how).length := by
  have fresh : numbers (number (group new union how) n).1 =
      drawn n.mountid (group new union how).length := by
    rw [numbers, number_mountid, drawn]
  rw [← fresh]
  cases how
  · exact Multiset.le_add_left _ _
  · rw [mountedList, place, insertAll_eq, numbers_append, add_comm]
  · rw [mountedList, place, numbers_append]

theorem numbers_newmhead (on : Rc Chan) (how : Bind) (n : Ids) :
    ∃ len, (newmhead on how n).2.mountid = n.mountid + len ∧
      numbers (newmhead on how n).1.mount = drawn n.mountid len := by
  unfold newmhead
  split_ifs
  · exact ⟨0, rfl, rfl⟩
  · exact ⟨1, rfl, rfl⟩

theorem drawn_add (k len more : Nat) :
    drawn k len + drawn (k + len) more = drawn k (len + more) := by
  rw [drawn, drawn, drawn, Multiset.coe_add, ← map_append, List.range'_append_1]

theorem mountids_cmount (ns : Ns) (n : Ids) (on : Rc Chan) (new : Element) (union : List Element)
    (how : Bind) : ∃ len, (ns.cmount n on new union how).2.2.mountid = n.mountid + len ∧
      (ns.cmount n on new union how).2.1.mountids ≤ ns.mountids + drawn n.mountid len := by
  rcases cmount_cases ns n on new union how with ⟨e, r⟩ | ⟨j, h, _, there, r⟩ | ⟨absent, r⟩
  · refine ⟨0, by rw [r]; rfl, ?_⟩
    rw [r]
    exact Multiset.le_add_right _ _
  · refine ⟨(group new union how).length, by rw [r], ?_⟩
    rw [r]
    have table := weigh_set (fun h => numbers h.mount) ns.mnthash
      (b := { h with mount := mountedList how h.mount new union n }) there
    apply le_of_add_le_add_right (a := numbers h.mount)
    calc (ns.setHead _ j { h with mount := mountedList how h.mount new union n }).mountids +
          numbers h.mount
        = ns.mountids + numbers (mountedList how h.mount new union n) := table
      _ ≤ ns.mountids + (numbers h.mount + drawn n.mountid (group new union how).length) :=
          add_le_add le_rfl (numbers_mountedList ..)
      _ = ns.mountids + drawn n.mountid (group new union how).length + numbers h.mount := by
          rw [add_comm (numbers h.mount), add_assoc]
  · obtain ⟨len, count, old⟩ := numbers_newmhead on how n
    refine ⟨len + (group new union how).length, by rw [r, ← add_assoc, ← count], ?_⟩
    rw [r]
    have table := weigh_push (fun h => numbers h.mount) ns.mnthash (mounth on.val)
      ⟨some on, mountedList how (newmhead on how n).1.mount new union (newmhead on how n).2⟩
    have list := numbers_mountedList how (newmhead on how n).1.mount new union (newmhead on how n).2
    rw [old, count, drawn_add] at list
    calc _ = ns.mountids + _ := table
      _ ≤ _ := add_le_add le_rfl list

theorem mountids_unlink_le (ns : Ns) (b : Fin Name.mnthash) (j : Nat) :
    (ns.unlink b j).mountids ≤ ns.mountids := by
  rcases there : (ns.mnthash b)[j]? with _ | h
  · have same : ns.unlink b j = ns := by
      rw [unlink, eraseIdx_of_length_le (List.getElem?_eq_none_iff.1 there), setChain,
        update_eq_self]
    rw [same]
  · have table := weigh_eraseIdx (fun h => numbers h.mount) ns.mnthash there
    calc (ns.unlink b j).mountids ≤ (ns.unlink b j).mountids + numbers h.mount :=
          Multiset.le_add_right _ _
      _ = ns.mountids := table

theorem mountids_cunmount_le (ns : Ns) (on : Chan) (named : Option (Chan → Bool)) :
    (ns.cunmount on named).2.mountids ≤ ns.mountids := by
  rcases cunmount_cases ns on named with
    ⟨e, r⟩ | ⟨j, h, gone, _, _, _, r⟩ | ⟨j, h, i, e, _, there, _, _, r⟩
  · rw [r]
  · rw [r]
    exact mountids_unlink_le ..
  · rw [r]
    have table := weigh_set (fun h => numbers h.mount) ns.mnthash
      (b := { h with mount := h.mount.eraseIdx i }) there
    have fewer : numbers (h.mount.eraseIdx i) ≤ numbers h.mount :=
      Multiset.coe_le.2 (List.Sublist.subperm ((eraseIdx_sublist ..).map _))
    apply le_of_add_le_add_right (a := numbers h.mount)
    calc _ = ns.mountids + numbers (h.mount.eraseIdx i) := table
      _ ≤ ns.mountids + numbers h.mount := add_le_add le_rfl fewer

end Ns

namespace Spaces

variable {s s' : Spaces} {a : NsAct}

theorem mountids_set {i : Nat} {ns ns' : Ns} (there : s.spaces[i]? = some ns) :
    load Ns.mountids (s.spaces.set i ns') + ns.mountids = s.mountids + ns'.mountids :=
  load_set Ns.mountids there

theorem mountids_set_le {i : Nat} {ns ns' : Ns} {more : Multiset UInt32}
    (there : s.spaces[i]? = some ns) (added : ns'.mountids ≤ ns.mountids + more) :
    load Ns.mountids (s.spaces.set i ns') ≤ s.mountids + more := by
  apply le_of_add_le_add_right (a := ns.mountids)
  calc _ = s.mountids + ns'.mountids := mountids_set there
    _ ≤ s.mountids + (ns.mountids + more) := add_le_add le_rfl added
    _ = s.mountids + more + ns.mountids := by rw [add_comm ns.mountids, add_assoc]

theorem act_numbers (step : s.act a = some s') :
    ∃ k len, s.ids.mountid ≤ k ∧ k + len = s'.ids.mountid ∧
      s'.mountids ≤ s.mountids + drawn k len := by
  cases a with
  | new =>
      cases step
      refine ⟨s.ids.mountid, 0, le_rfl, rfl, ?_⟩
      have none : (Ns.new s.ids).1.mountids = 0 := weigh_empty _
      have same : (⟨(Ns.new s.ids).2, s.spaces ++ [(Ns.new s.ids).1]⟩ : Spaces).mountids =
          s.mountids := by
        rw [mountids, load_append, load_cons, load_nil, none, add_zero, add_zero, mountids]
      rw [same]
      exact Multiset.le_add_right _ _
  | cmount i on new union how =>
      obtain ⟨ns, there, rfl⟩ := Option.map_eq_some_iff.1 step
      obtain ⟨len, count, added⟩ := ns.mountids_cmount s.ids on new union how
      exact ⟨s.ids.mountid, len, le_rfl, count.symm, mountids_set_le there added⟩
  | cunmount i on named =>
      obtain ⟨ns, there, rfl⟩ := Option.map_eq_some_iff.1 step
      refine ⟨s.ids.mountid, 0, le_rfl, rfl, mountids_set_le there ?_⟩
      exact (ns.mountids_cunmount_le on named).trans (Multiset.le_add_right _ _)
  | clone i =>
      obtain ⟨ns, there, rfl⟩ := Option.map_eq_some_iff.1 step
      refine ⟨s.ids.mountid + ns.copies.length, ns.copies.length, Nat.le_add_right _ _, ?_, ?_⟩
      · rw [Ns.clone_snd]
        dsimp only
        omega
      · rw [mountids, load_append, load_cons, load_nil, add_zero, Ns.mountids_clone]
        exact le_rfl
  | closepgrp i =>
      obtain ⟨ns, there, rfl⟩ := Option.map_eq_some_iff.1 step
      refine ⟨s.ids.mountid, 0, le_rfl, rfl, mountids_set_le there ?_⟩
      rw [Ns.closepgrp, Ns.mountids, weigh_empty]
      exact Multiset.zero_le _

theorem act_formed (step : s.act a = some s') (formed : ∀ ns ∈ s.spaces, ns.Formed) :
    ∀ ns ∈ s'.spaces, ns.Formed := by
  have changed : ∀ {i : Nat} {ns' : Ns}, ns'.Formed → ∀ ns ∈ s.spaces.set i ns', ns.Formed := by
    intro i ns' formed' ns member
    rcases mem_or_eq_of_mem_set member with old | rfl
    · exact formed ns old
    · exact formed'
  have added : ∀ {ns' : Ns}, ns'.Formed → ∀ ns ∈ s.spaces ++ [ns'], ns.Formed := by
    intro ns' formed' ns member
    rcases mem_append.1 member with old | new
    · exact formed ns old
    · rw [mem_singleton.1 new]
      exact formed'
  cases a with
  | new =>
      cases step
      exact added (Ns.formed_empty _ _)
  | cmount i on new union how =>
      obtain ⟨ns, there, rfl⟩ := Option.map_eq_some_iff.1 step
      exact changed ((formed ns (mem_of_getElem? there)).cmount s.ids on new union how)
  | cunmount i on named =>
      obtain ⟨ns, there, rfl⟩ := Option.map_eq_some_iff.1 step
      exact changed ((formed ns (mem_of_getElem? there)).cunmount on named)
  | clone i =>
      obtain ⟨ns, there, rfl⟩ := Option.map_eq_some_iff.1 step
      exact added ((formed ns (mem_of_getElem? there)).clone s.ids)
  | closepgrp i =>
      obtain ⟨ns, there, rfl⟩ := Option.map_eq_some_iff.1 step
      exact changed (Ns.formed_empty _ _)

/-- Formed namespaces, and the numbers all different while the counter is in its first turn. -/
structure Inv (s : Spaces) : Prop where
  formed : ∀ ns ∈ s.spaces, ns.Formed
  counting : 1 ≤ s.ids.mountid
  numbered : s.ids.mountid ≤ 2 ^ 32 + 1 → Numbered s.mountids s.ids.mountid

theorem inv_boot : Inv boot where
  formed := by
    intro ns member
    rw [boot, mem_singleton] at member
    rw [member]
    exact Ns.formed_empty _ _
  counting := le_rfl
  numbered := by
    intro _
    have none : boot.mountids = 0 := by simp [mountids, boot, Ns.new, Ns.mountids]
    rw [none]
    exact ⟨Multiset.nodup_zero, by simp⟩

theorem inv_act (inv : Inv s) (step : s.act a = some s') : Inv s' := by
  obtain ⟨k, len, since, upto, added⟩ := act_numbers step
  have counting := inv.counting
  refine ⟨act_formed step inv.formed, by omega, ?_⟩
  intro room
  exact (inv.numbered (by omega)).add counting since (by omega) room added

theorem inv_reachable (reached : system.Reachable s) : Inv s := by
  apply reached.invariant Inv
  · rintro _ rfl
    exact inv_boot
  · intro s a s' inv _ step
    exact inv_act inv step

def dirAt (path : UInt64) : Rc Chan :=
  ⟨path.toNat, { Chan.attach .root 0 with qid := ⟨qtdir, 0, path⟩ }⟩

def remount (path : UInt64) : NsAct :=
  .cmount 0 (dirAt path) (Element.shared (dirAt 2) Mflag.mrepl "") [] .replace

def mounted : Spaces :=
  ⟨⟨2, 2⟩, [⟨update (fun _ => []) (mounth (dirAt 0).val)
    [⟨some (dirAt 0), [⟨dirAt 2, 0, "", 1⟩]⟩], 1, false⟩]⟩

theorem boot_remount : boot.act (remount 0) = some mounted := by
  have chains : ∀ (b : Fin mnthash) (h h' : Mhead),
      update (update (fun _ => ([] : List Mhead)) b [h]) b [h'] =
        update (fun _ => []) b [h'] := by
    intro b h h'
    exact update_idem ..
  have ran : (⟨fun _ => [], 1, false⟩ : Ns).cmount ⟨1, 2⟩ (dirAt 0)
      (Element.shared (dirAt 2) Mflag.mrepl "") [] .replace =
      (.ok (1, []),
        ⟨update (update (fun _ => []) (mounth (dirAt 0).val)
            [⟨some (dirAt 0), []⟩]) (mounth (dirAt 0).val)
          [⟨some (dirAt 0), [⟨dirAt 2, 0, "", 1⟩]⟩], 1, false⟩,
        ⟨2, 2⟩) := rfl
  have start : boot = ⟨⟨1, 2⟩, [⟨fun _ => [], 1, false⟩]⟩ := rfl
  simp only [act, remount, start, List.getElem?_cons_zero, Option.map_some, ran,
    set_cons_zero, chains, mounted]

/-- After any run every head is on the chain of its file, has a list, and is the only head of
its file; a lookup asks for a file and not for a channel, and finds that head. And as long as
the counter has given no more than 2^32 numbers, no two mounts have the same one. -/
theorem mount_table_formed (reached : system.Reachable s) :
    (∀ ns ∈ s.spaces, ns.Formed ∧
      (∀ c c', eqchan c c' = true → ns.findmount c = ns.findmount c') ∧
      (∀ c h, ns.findmount c = some h ↔ h ∈ ns.heads ∧ h.isOn c = true)) ∧
    (s.ids.mountid ≤ 2 ^ 32 + 1 → s.mountids.Nodup) := by
  have inv := inv_reachable reached
  constructor
  · intro ns member
    have formed := inv.formed ns member
    refine ⟨formed, fun c c' same => Ns.find_eq_of_eqchan same, ?_⟩
    intro c h
    constructor
    · exact Ns.mem_of_findmount
    · intro found
      exact formed.findmount found.1 found.2
  · intro room
    exact (inv.numbered room).nodup

/-- A directory bound in front of what is in the directory on which it is bound. -/
def join (on new : UInt64) : NsAct :=
  .cmount 0 (dirAt on) (Element.shared (dirAt new) Mflag.mbefore "") [] .before

def joined : Spaces := (mounted.act (join 3 4)).getD boot

def cloned : Spaces := (joined.act (.clone 0)).getD boot

def joinedNs : Ns := joined.spaces.headD (Ns.new Ids.boot).1

theorem cloned_eq : cloned =
    ⟨(joinedNs.clone joined.ids).2, [joinedNs, (joinedNs.clone joined.ids).1]⟩ := rfl

/-- A mount, a union of two and a copy of the namespace that has both. -/
theorem mount_table_formed_cloned : cloned.ids.mountid ≤ 2 ^ 32 + 1 ∧ cloned.mountids.Nodup ∧
    (∀ ns ∈ cloned.spaces, ns.Formed) ∧
    cloned.spaces.map Ns.mountids = [{1, 3, 2}, {7, 8, 9}] := by
  have mount : system.Reachable mounted := .step (.init rfl) trivial boot_remount
  have union : system.Reachable joined := .step (a := join 3 4) mount trivial rfl
  have copy : system.Reachable cloned := .step (a := .clone 0) union trivial rfl
  have formed := mount_table_formed copy
  have numbers : joinedNs.copies.map Prod.fst = [1, 3, 2] := by decide
  have three : joinedNs.copies.length = 3 := by decide
  have few : cloned.ids.mountid = 10 := by
    rw [cloned_eq, Ns.clone_snd, three]
    rfl
  refine ⟨by omega, formed.2 (by omega), fun ns member => (formed.1 ns member).1, ?_⟩
  rw [cloned_eq, map_cons, map_cons, map_nil, Ns.mountids_clone, Ns.mountids_eq, numbers, three]
  rfl

/-- The chains once a directory is mounted over, and another `k + 1` times, each time in the
place of the last. -/
def twice (k : Nat) (b : Fin mnthash) : List Mhead :=
  if b = mounth (dirAt 0).val then [⟨some (dirAt 0), [⟨dirAt 2, 0, "", 1⟩]⟩]
  else if b = mounth (dirAt 1).val then
    [⟨some (dirAt 1), [⟨dirAt 2, 0, "", UInt32.ofNat (k + 2)⟩]⟩]
  else []

def remounted (k : Nat) : Spaces := ⟨⟨k + 3, 2⟩, [⟨twice k, 1, false⟩]⟩

theorem twice_again (k : Nat) : update (twice k) (mounth (dirAt 1).val)
    [⟨some (dirAt 1), [⟨dirAt 2, 0, "", UInt32.ofNat (k + 3)⟩]⟩] = twice (k + 1) := by
  funext b
  have differ : mounth (dirAt 1).val ≠ mounth (dirAt 0).val := by decide
  by_cases one : b = mounth (dirAt 1).val
  · subst one
    rw [update_self, twice, if_neg differ, if_pos rfl]
  · rw [update_of_ne one, twice, twice, if_neg one, if_neg one]

theorem remounted_again (k : Nat) : (remounted k).act (remount 1) = some (remounted (k + 1)) := by
  have chain : twice k (mounth (dirAt 1).val) =
      [⟨some (dirAt 1), [⟨dirAt 2, 0, "", UInt32.ofNat (k + 2)⟩]⟩] := rfl
  have ran : (⟨twice k, 1, false⟩ : Ns).cmount ⟨k + 3, 2⟩ (dirAt 1)
      (Element.shared (dirAt 2) Mflag.mrepl "") [] .replace =
      (.ok (UInt32.ofNat (k + 3), [dirAt 2]),
        ⟨update (twice k) (mounth (dirAt 1).val)
          [⟨some (dirAt 1), [⟨dirAt 2, 0, "", UInt32.ofNat (k + 3)⟩]⟩], 1, false⟩,
        ⟨k + 4, 2⟩) := rfl
  simp only [act, remount, remounted, List.getElem?_cons_zero, Option.map_some, ran,
    set_cons_zero, twice_again]

theorem mounted_remount : mounted.act (remount 1) = some (remounted 0) := by
  have chains : update (update (update (fun _ => [])
      (mounth (dirAt 0).val) [⟨some (dirAt 0), [⟨dirAt 2, 0, "", 1⟩]⟩]) (mounth (dirAt 1).val)
      [⟨some (dirAt 1), []⟩]) (mounth (dirAt 1).val)
      [⟨some (dirAt 1), [⟨dirAt 2, 0, "", 2⟩]⟩] = twice 0 := by
    funext b
    have differ : mounth (dirAt 1).val ≠ mounth (dirAt 0).val := by decide
    rw [update_idem]
    by_cases one : b = mounth (dirAt 1).val
    · subst one
      rw [update_self, twice, if_neg differ, if_pos rfl]
      rfl
    · rw [update_of_ne one, twice, if_neg one, update_apply]
  have ran : (⟨update (fun _ => []) (mounth (dirAt 0).val)
      [⟨some (dirAt 0), [⟨dirAt 2, 0, "", 1⟩]⟩], 1, false⟩ : Ns).cmount ⟨2, 2⟩ (dirAt 1)
      (Element.shared (dirAt 2) Mflag.mrepl "") [] .replace =
      (.ok (2, []), ⟨update (update (update (fun _ => [])
        (mounth (dirAt 0).val) [⟨some (dirAt 0), [⟨dirAt 2, 0, "", 1⟩]⟩]) (mounth (dirAt 1).val)
        [⟨some (dirAt 1), []⟩]) (mounth (dirAt 1).val)
        [⟨some (dirAt 1), [⟨dirAt 2, 0, "", 2⟩]⟩], 1, false⟩, ⟨3, 2⟩) := rfl
  simp only [act, remount, mounted, List.getElem?_cons_zero, Option.map_some, ran,
    set_cons_zero, chains, remounted]

theorem reachable_remounted (k : Nat) : system.Reachable (remounted k) := by
  induction k with
  | zero => exact .step (.step (.init rfl) trivial boot_remount) trivial mounted_remount
  | succ k ih => exact .step ih trivial (remounted_again k)

/-- The counter comes round: after 2^32 more mounts a number is given to a second mount while
the first still has it. -/
theorem mount_table_formed_fails :
    ∃ s, system.Reachable s ∧ ∃ ns ∈ s.spaces, ¬ ns.mountids.Nodup := by
  refine ⟨remounted (2 ^ 32 - 1), reachable_remounted _, _, mem_singleton_self _, ?_⟩
  intro nodup
  rw [Ns.mountids_eq, Multiset.coe_nodup] at nodup
  have numbers : (⟨twice (2 ^ 32 - 1), 1, false⟩ : Ns).copies.map Prod.fst = [1, 1] := by decide
  rw [numbers] at nodup
  exact absurd nodup (by decide)

end Spaces

end Ipnx.Name
