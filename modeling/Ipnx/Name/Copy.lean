import Ipnx.Name.Table

/-!
# Copying a namespace

A copy has the heads of the original and elements in the same places, and its numbers are the
last ones drawn: each place is numbered once in each of the two passes, so what the second
pass leaves is what it drew.
-/

namespace Ipnx.Name

open List

namespace Ns

def mountids (ns : Ns) : Multiset UInt32 :=
  weigh (fun h => ((h.mount.map Element.mountid : List UInt32) : Multiset UInt32)) ns.mnthash

def froms (ns : Ns) (b : Fin Name.mnthash) : List (Option (Rc Chan)) :=
  (ns.mnthash b).map Mhead.mfrom

def sizes (ns : Ns) (b : Fin Name.mnthash) : List Nat :=
  (ns.mnthash b).map fun h => h.mount.length

def mountidAt (ns : Ns) (l : Loc) : Option UInt32 :=
  ((ns.mnthash l.1)[l.2.1]?).bind fun h => (h.mount[l.2.2]?).map Element.mountid

def locs (ns : Ns) : List Loc := ns.copies.map Prod.snd

variable {ns : Ns} {n : Ids} {l l' : Loc} {u v : UInt32}

theorem locs_eq (ns : Ns) : ns.locs = (List.finRange Name.mnthash).flatMap fun b =>
    (ns.sizes b).zipIdx.flatMap fun m => (List.range m.1).map fun i => (b, m.2, i) := by
  simp only [locs, copies, map_flatMap, sizes, zipIdx_map, flatMap_map,
    map_map]
  congr
  funext b
  congr
  funext h
  apply ext_getElem?
  intro i
  simp only [List.getElem?_map, List.getElem?_zipIdx, Option.map_map]
  rcases Nat.lt_or_ge i h.1.mount.length with bound | bound
  · simp [bound]
  · simp [bound]

theorem nodup_locs (ns : Ns) : ns.locs.Nodup := by
  rw [locs_eq, nodup_flatMap]
  constructor
  · intro b _
    rw [nodup_flatMap]
    constructor
    · intro m _
      exact List.Nodup.map (fun i i' same => by simpa using same) nodup_range
    · have places : (ns.sizes b).zipIdx.Pairwise fun m m' => m.2 ≠ m'.2 := by
        have indices := (ns.sizes b).zipIdx_map_snd 0
        have apart : ((ns.sizes b).zipIdx.map Prod.snd).Nodup := by
          rw [indices]
          exact nodup_range'
        exact pairwise_map.1 apart
      apply places.imp
      intro m m' differ
      simp only [Function.onFun, disjoint_left, mem_map, not_exists, not_and]
      rintro _ ⟨i, _, rfl⟩ i' _ same
      exact differ (by simpa using (congrArg (fun l : Loc => l.2.1) same).symm)
  · apply (nodup_finRange _).imp
    intro b b' differ
    simp only [Function.onFun, disjoint_left, mem_flatMap, mem_map, not_exists,
      not_and]
    rintro _ ⟨m, _, i, _, rfl⟩ m' _ i' _ same
    exact differ (congrArg Prod.fst same).symm

theorem mountidAt_of_mem_copies {c : UInt32 × Loc} (member : c ∈ ns.copies) :
    ns.mountidAt c.2 = some c.1 := by
  simp only [copies, mem_flatMap, mem_map, Prod.exists] at member
  obtain ⟨b, _, h, j, there, e, i, the, rfl⟩ := member
  have head := mem_zipIdx_iff_getElem?.1 there
  have elem := mem_zipIdx_iff_getElem?.1 the
  simp [mountidAt, head, elem]

theorem mountids_eq (ns : Ns) : ns.mountids = (ns.copies.map Prod.fst : List UInt32) := by
  have chains : ns.copies.map Prod.fst = (List.finRange Name.mnthash).flatMap fun b =>
      (ns.mnthash b).flatMap fun h => h.mount.map Element.mountid := by
    simp only [copies, map_flatMap, map_map]
    congr
    funext b
    have each : ∀ h : Mhead × Nat, (h.1.mount.zipIdx.map (Prod.fst ∘ fun e =>
        (e.1.mountid, (b, h.2, e.2)))) = h.1.mount.map Element.mountid := by
      intro h
      apply ext_getElem?
      intro i
      simp only [List.getElem?_map, List.getElem?_zipIdx, Option.map_map]
      rfl
    simp only [each]
    conv_rhs => rw [← zipIdx_map_fst 0 (ns.mnthash b), flatMap_map]
  rw [chains, mountids, weigh_coe]

theorem map_setMountid {β : Type} (g : Mhead → β) (ns : Ns) (l : Loc) (u : UInt32)
    (untouched : ∀ h i,
      g { h with mount := h.mount.modify i fun e => { e with mountid := u } } = g h)
    (b : Fin Name.mnthash) :
    ((ns.setMountid l u).mnthash b).map g = (ns.mnthash b).map g := by
  by_cases same : b = l.1
  · subst same
    simp only [setMountid, setChain_mnthash, Function.update_self]
    apply ext_getElem?
    intro j
    simp only [List.getElem?_map, List.getElem?_modify]
    split_ifs
    · simp [Option.map_map, Function.comp_def, untouched]
    · simp
  · simp [setMountid, Function.update_of_ne same]

@[simp]
theorem froms_setMountid (ns : Ns) (l : Loc) (u : UInt32) (b : Fin Name.mnthash) :
    (ns.setMountid l u).froms b = ns.froms b :=
  map_setMountid Mhead.mfrom ns l u (fun _ _ => rfl) b

@[simp]
theorem sizes_setMountid (ns : Ns) (l : Loc) (u : UInt32) (b : Fin Name.mnthash) :
    (ns.setMountid l u).sizes b = ns.sizes b :=
  map_setMountid (fun h => h.mount.length) ns l u (by simp) b

theorem mountidAt_setMountid_ne (differ : l' ≠ l) :
    (ns.setMountid l u).mountidAt l' = ns.mountidAt l' := by
  obtain ⟨b, j, i⟩ := l
  obtain ⟨b', j', i'⟩ := l'
  simp only [mountidAt, setMountid, setChain_mnthash]
  by_cases chain : b' = b
  · subst chain
    simp only [Function.update_self, List.getElem?_modify]
    split_ifs with head
    · subst head
      have elem : i ≠ i' := by
        rintro rfl
        exact differ rfl
      rcases (ns.mnthash b')[j]? with _ | h
      · rfl
      · simp [elem]
    · simp
  · simp [Function.update_of_ne chain]

theorem mountids_setMountid (there : ns.mountidAt l = some v) :
    (ns.setMountid l u).mountids + {v} = ns.mountids + {u} := by
  obtain ⟨h, head, elem⟩ := Option.bind_eq_some_iff.1 there
  obtain ⟨e, the, rfl⟩ := Option.map_eq_some_iff.1 elem
  have list := load_modify (fun e : Element => ({e.mountid} : Multiset UInt32))
    (fun e => { e with mountid := u }) the
  have table := weigh_modify
    (fun h => ((h.mount.map Element.mountid : List UInt32) : Multiset UInt32)) ns.mnthash
    (fun h => { h with mount := h.mount.modify l.2.2 fun e => { e with mountid := u } }) head
  have single : ∀ es : List Element, load (fun e : Element => ({e.mountid} : Multiset UInt32)) es =
      ((es.map Element.mountid : List UInt32) : Multiset UInt32) := by
    intro es
    induction es with
    | nil => rfl
    | cons e es ih => simp [ih]
  simp only [single] at list
  apply add_right_cancel (b := ((h.mount.map Element.mountid : List UInt32) : Multiset UInt32))
  calc (ns.setMountid l u).mountids + {e.mountid} + ↑(h.mount.map Element.mountid)
      = (ns.setMountid l u).mountids + ↑(h.mount.map Element.mountid) + {e.mountid} :=
        add_right_comm _ _ _
    _ = ns.mountids + (↑((h.mount.modify l.2.2 fun e => { e with mountid := u }).map
          Element.mountid) + {e.mountid}) := by
        rw [mountids, setMountid, setChain_mnthash, table, add_assoc]
        rfl
    _ = ns.mountids + {u} + ↑(h.mount.map Element.mountid) := by
        rw [list, add_comm (↑(h.mount.map Element.mountid) : Multiset UInt32), add_assoc]

@[simp]
theorem renumber_snd (cs : List (UInt32 × Loc)) (ns : Ns) (n : Ids) :
    (renumber cs ns n).2 = { n with mountid := n.mountid + cs.length } := by
  induction cs generalizing ns n with
  | nil => rfl
  | cons c cs ih => simp [renumber, ih, Ids.newmountid, add_assoc, add_comm 1]

@[simp]
theorem froms_renumber (cs : List (UInt32 × Loc)) (ns : Ns) (n : Ids) (b : Fin Name.mnthash) :
    (renumber cs ns n).1.froms b = ns.froms b := by
  induction cs generalizing ns n with
  | nil => rfl
  | cons c cs ih => simp [renumber, ih]

@[simp]
theorem sizes_renumber (cs : List (UInt32 × Loc)) (ns : Ns) (n : Ids) (b : Fin Name.mnthash) :
    (renumber cs ns n).1.sizes b = ns.sizes b := by
  induction cs generalizing ns n with
  | nil => rfl
  | cons c cs ih => simp [renumber, ih]

theorem mountids_renumber {cs : List (UInt32 × Loc)} (ns : Ns) (n : Ids) (old : Loc → UInt32)
    (apart : (cs.map Prod.snd).Nodup) (there : ∀ c ∈ cs, ns.mountidAt c.2 = some (old c.2)) :
    (renumber cs ns n).1.mountids + (cs.map (old ∘ Prod.snd) : List UInt32) =
      ns.mountids + ((List.range' n.mountid cs.length).map UInt32.ofNat : List UInt32) := by
  induction cs generalizing ns n with
  | nil => simp [renumber]
  | cons c cs ih =>
      simp only [map_cons, nodup_cons, mem_map, not_exists, not_and] at apart
      have first := mountids_setMountid (u := n.newmountid.1)
        (there c (mem_cons_self ..))
      have rest := ih (ns.setMountid c.2 n.newmountid.1) n.newmountid.2 apart.2 (by
        intro d member
        have differ : d.2 ≠ c.2 := apart.1 d member
        rw [mountidAt_setMountid_ne differ]
        exact there d (mem_cons_of_mem _ member))
      simp only [renumber, map_cons, length_cons, List.range'_succ, Function.comp_apply,
        newmountid_fst, newmountid_snd_mountid] at first rest ⊢
      rw [← Multiset.cons_coe, ← Multiset.cons_coe, ← Multiset.singleton_add,
        ← Multiset.singleton_add, add_left_comm, rest, ← add_assoc, ← add_assoc,
        add_comm {old c.2}, first]

theorem locs_congr {ns' : Ns} (same : ∀ b, ns'.sizes b = ns.sizes b) : ns'.locs = ns.locs := by
  rw [locs_eq, locs_eq]
  simp only [same]

theorem clone_snd (ns : Ns) (n : Ids) :
    (ns.clone n).2 = ⟨n.mountid + 2 * ns.copies.length, n.pgrpid + 1⟩ := by
  simp [clone, Ids.newpgrpid]
  omega

theorem froms_clone (ns : Ns) (n : Ids) (b : Fin Name.mnthash) :
    (ns.clone n).1.froms b = ns.froms b := by
  have sorted : (ns.clone n).1.froms b = (renumber (ns.copies.mergeSort fun c d => c.1 ≤ d.1)
      (renumber ns.copies ns n).1 (renumber ns.copies ns n).2).1.froms b := rfl
  rw [sorted, froms_renumber, froms_renumber]

theorem sizes_clone (ns : Ns) (n : Ids) (b : Fin Name.mnthash) :
    (ns.clone n).1.sizes b = ns.sizes b := by
  have sorted : (ns.clone n).1.sizes b = (renumber (ns.copies.mergeSort fun c d => c.1 ≤ d.1)
      (renumber ns.copies ns n).1 (renumber ns.copies ns n).2).1.sizes b := rfl
  rw [sorted, sizes_renumber, sizes_renumber]

theorem mountids_clone (ns : Ns) (n : Ids) : (ns.clone n).1.mountids =
    ((List.range' (n.mountid + ns.copies.length) ns.copies.length).map UInt32.ofNat :
      List UInt32) := by
  set made := renumber ns.copies ns n with made_eq
  set sorted := ns.copies.mergeSort fun c d => c.1 ≤ d.1 with sorted_eq
  have perm : sorted.Perm ns.copies := mergeSort_perm _ _
  have places : made.1.locs = ns.locs := locs_congr (by simp [made_eq])
  let old := fun l => (made.1.mountidAt l).getD 0
  have here : ∀ c ∈ made.1.copies, made.1.mountidAt c.2 = some (old c.2) ∧ c.1 = old c.2 := by
    intro c member
    simp [old, mountidAt_of_mem_copies member]
  have there : ∀ c ∈ sorted, made.1.mountidAt c.2 = some (old c.2) := by
    intro c member
    have inLocs : c.2 ∈ made.1.locs := by
      rw [places]
      exact mem_map_of_mem (perm.mem_iff.1 member)
    obtain ⟨d, memberD, same⟩ := mem_map.1 inLocs
    rw [← same]
    exact (here d memberD).1
  have apart : (sorted.map Prod.snd).Nodup := (perm.map Prod.snd).nodup_iff.2 ns.nodup_locs
  have second := mountids_renumber made.1 made.2 old apart there
  have olds : (sorted.map (old ∘ Prod.snd) : Multiset UInt32) = made.1.mountids := by
    rw [mountids_eq]
    have keys : made.1.copies.map Prod.fst = made.1.locs.map old := by
      rw [locs, map_map]
      exact map_congr_left fun c member => (here c member).2
    rw [keys, places, locs, map_map]
    exact Multiset.coe_eq_coe.2 (perm.map _)
  rw [olds, add_comm] at second
  have drawn := add_left_cancel second
  have length : sorted.length = ns.copies.length := perm.length_eq
  rw [length] at drawn
  have whole : (ns.clone n).1.mountids = (renumber sorted made.1 made.2).1.mountids := rfl
  rw [whole, drawn, made_eq, renumber_snd]

end Ns

end Ipnx.Name
