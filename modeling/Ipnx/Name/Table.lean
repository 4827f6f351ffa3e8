import Ipnx.Name.Ns
import Ipnx.Lib.Chains

/-!
# What the mount table's operations do

One lemma for each way a mount or an unmount can end, and what each does to the numbers and to
the references the table holds. Everything about a namespace below is derived from these.
-/

namespace Ipnx.Name

open List

namespace Ns

variable {ns : Ns} {n : Ids} {on : Chan} {b : Fin Name.mnthash} {j : Nat} {h : Mhead}

theorem lookup_eq_some (found : ns.lookup on = some j) :
    ∃ h, (ns.mnthash (mounth on))[j]? = some h ∧ h.isOn on = true := by
  obtain ⟨bound, is, _⟩ := List.findIdx?_eq_some_iff_getElem.1 found
  exact ⟨_, List.getElem?_eq_getElem bound, is⟩

theorem lookup_eq_none : ns.lookup on = none ↔
    ∀ h ∈ ns.mnthash (mounth on), h.isOn on = false := by
  simp [lookup, List.findIdx?_eq_none_iff]

theorem isOn_iff : h.isOn on = true ↔ ∃ f, h.mfrom = some f ∧ eqchan f.val on = true := by
  rw [Mhead.isOn, Option.any_eq_true]

@[simp]
theorem setChain_mnthash (ns : Ns) (b : Fin Name.mnthash) (chain : List Mhead) :
    (ns.setChain b chain).mnthash = Function.update ns.mnthash b chain := rfl

theorem forall_setChain {P : Fin Name.mnthash → List Mhead → Prop} {chain : List Mhead}
    (others : ∀ a, P a (ns.mnthash a)) (changed : P b chain) (a : Fin Name.mnthash) :
    P a ((ns.setChain b chain).mnthash a) := by
  by_cases same : a = b
  · subst same
    simpa using changed
  · simpa [Function.update_of_ne same] using others a

theorem push_setHead (ns : Ns) (b : Fin Name.mnthash) (h h' : Mhead) :
    (ns.push b h).setHead b (ns.mnthash b).length h' = ns.push b h' := by
  simp [push, setHead, setChain]

@[simp]
theorem newmountid_fst (n : Ids) : n.newmountid.1 = UInt32.ofNat n.mountid := rfl

@[simp]
theorem newmountid_snd_mountid (n : Ids) : n.newmountid.2.mountid = n.mountid + 1 := rfl

theorem insertIdx_length (before list : List Element) (e : Element) :
    (before ++ list).insertIdx before.length e = before ++ e :: list := by
  induction before with
  | nil => simp
  | cons c before ih => simp [ih]

theorem insertAll_append (list : List Element) (before group : List Element) :
    (group.zipIdx before.length).foldl (fun l e => l.insertIdx e.2 e.1) (before ++ list) =
      before ++ group ++ list := by
  induction group generalizing before with
  | nil => simp
  | cons e group ih =>
      have next := ih (before ++ [e])
      simp only [length_append, length_singleton, append_assoc,
        singleton_append] at next
      simp only [zipIdx_cons, foldl_cons, insertIdx_length, next, append_assoc,
        cons_append]

theorem insertAll_eq (list group : List Element) : insertAll list group = group ++ list := by
  have whole := insertAll_append list [] group
  simpa [insertAll] using whole

@[simp]
theorem number_length (es : List Element) (n : Ids) : (number es n).1.length = es.length := by
  induction es generalizing n with
  | nil => rfl
  | cons e es ih => simp [number, ih]

@[simp]
theorem number_snd (es : List Element) (n : Ids) :
    (number es n).2 = { n with mountid := n.mountid + es.length } := by
  induction es generalizing n with
  | nil => rfl
  | cons e es ih => simp [number, ih, Ids.newmountid, add_assoc, add_comm 1]

theorem number_mountid (es : List Element) (n : Ids) : (number es n).1.map Element.mountid =
    (List.range' n.mountid es.length).map UInt32.ofNat := by
  induction es generalizing n with
  | nil => rfl
  | cons e es ih => simp [number, ih, List.range'_succ, Ids.newmountid]

@[simp]
theorem number_chan (es : List Element) (n : Ids) :
    (number es n).1.map Element.chan = es.map Element.chan := by
  induction es generalizing n with
  | nil => rfl
  | cons e es ih => simp [number, ih]

def mountedList (how : Bind) (list : List Element) (new : Element) (union : List Element)
    (n : Ids) : List Element :=
  place how list (number (group new union how) n).1

theorem newmhead_mfrom (on : Rc Chan) (how : Bind) (n : Ids) :
    (newmhead on how n).1.mfrom = some on := by
  unfold newmhead
  split_ifs <;> rfl

/-- How a mount ends: an error and nothing changed, a list changed at the head there is, or a
new head at the end of its chain. -/
theorem cmount_cases (ns : Ns) (n : Ids) (on : Rc Chan) (new : Element) (union : List Element)
    (how : Bind) :
    (∃ e, ns.cmount n on new union how = (.error e, ns, n)) ∨
    (∃ j h, ns.lookup on.val = some j ∧ (ns.mnthash (mounth on.val))[j]? = some h ∧
      ns.cmount n on new union how =
        (.ok (UInt32.ofNat n.mountid, replaced how h.mount),
          ns.setHead (mounth on.val) j { h with mount := mountedList how h.mount new union n },
          { n with mountid := n.mountid + (group new union how).length })) ∨
    (ns.lookup on.val = none ∧
      ns.cmount n on new union how =
        (.ok (UInt32.ofNat (newmhead on how n).2.mountid, replaced how (newmhead on how n).1.mount),
          ns.push (mounth on.val)
            ⟨some on, mountedList how (newmhead on how n).1.mount new union (newmhead on how n).2⟩,
          { n with mountid := (newmhead on how n).2.mountid + (group new union how).length })) := by
  unfold cmount
  split_ifs with kinds file creates
  · exact .inl ⟨_, rfl⟩
  · exact .inl ⟨_, rfl⟩
  · exact .inl ⟨_, rfl⟩
  · right
    rcases found : ns.lookup on.val with _ | j
    · right
      refine ⟨rfl, ?_⟩
      have kept : (newmhead on how n).2.pgrpid = n.pgrpid := by
        unfold newmhead
        split_ifs <;> rfl
      simp only [headFor, found, push_setHead, number_snd, newmountid_fst, mountedList, kept,
        newmhead_mfrom]
    · left
      obtain ⟨h, there, _⟩ := lookup_eq_some found
      refine ⟨j, h, rfl, there, ?_⟩
      simp [headFor, found, there, mountedList]

section Unmount

variable {is : Chan → Bool} {i : Nat} {e : Element}

section Found

variable (found : ns.lookup on = some j) (there : (ns.mnthash (mounth on))[j]? = some h)

include found there

theorem cunmount_whole : ns.cunmount on none =
      (.ok (h.mount.map Element.chan ++ h.mfrom.toList), ns.unlink (mounth on) j) := by
  simp [cunmount, found, there]

theorem cunmount_missing (missing : h.mount.findIdx? (fun e => is e.chan.val) = none) :
    ns.cunmount on (some is) = (.error eunion, ns) := by
  simp [cunmount, found, there, missing]

theorem cunmount_last
    (first : h.mount.findIdx? (fun e => is e.chan.val) = some i) (the : h.mount[i]? = some e)
    (last : h.mount.eraseIdx i = []) :
    ns.cunmount on (some is) = (.ok (e.chan :: h.mfrom.toList), ns.unlink (mounth on) j) := by
  simp [cunmount, found, there, first, the, last]

theorem cunmount_one
    (first : h.mount.findIdx? (fun e => is e.chan.val) = some i) (the : h.mount[i]? = some e)
    (others : h.mount.eraseIdx i ≠ []) :
    ns.cunmount on (some is) =
      (.ok [e.chan], ns.setHead (mounth on) j { h with mount := h.mount.eraseIdx i }) := by
  simp [cunmount, found, there, first, the, others]

end Found

theorem eq_singleton_of_eraseIdx {l : List Element} (the : l[i]? = some e)
    (last : l.eraseIdx i = []) : l = [e] := by
  rcases l with _ | ⟨c, l⟩
  · simp at the
  · rcases i with _ | i
    · simp only [eraseIdx_cons_zero] at last
      simp_all
    · simp at last

end Unmount

/-- How an unmount ends: an error and nothing changed, the head off its chain, or one element
off a list that has others. -/
theorem cunmount_cases (ns : Ns) (on : Chan) (named : Option (Chan → Bool)) :
    (∃ e, ns.cunmount on named = (.error e, ns)) ∨
    (∃ j h gone, ns.lookup on = some j ∧ (ns.mnthash (mounth on))[j]? = some h ∧
      gone.Perm h.held ∧ ns.cunmount on named = (.ok gone, ns.unlink (mounth on) j)) ∨
    (∃ j h i e, ns.lookup on = some j ∧ (ns.mnthash (mounth on))[j]? = some h ∧
      h.mount[i]? = some e ∧ h.mount.eraseIdx i ≠ [] ∧
      ns.cunmount on named = (.ok [e.chan],
        ns.setHead (mounth on) j { h with mount := h.mount.eraseIdx i })) := by
  rcases found : ns.lookup on with _ | j
  · left
    exact ⟨eunmount, by simp [cunmount, found]⟩
  obtain ⟨h, there, _⟩ := lookup_eq_some found
  rcases named with _ | is
  · right
    left
    exact ⟨j, h, _, rfl, there, perm_append_comm, cunmount_whole found there⟩
  rcases first : h.mount.findIdx? (fun e => is e.chan.val) with _ | i
  · left
    exact ⟨eunion, cunmount_missing found there first⟩
  obtain ⟨bound, _, _⟩ := List.findIdx?_eq_some_iff_getElem.1 first
  obtain ⟨e, the⟩ : ∃ e, h.mount[i]? = some e := ⟨_, List.getElem?_eq_getElem bound⟩
  right
  by_cases last : h.mount.eraseIdx i = []
  · left
    refine ⟨j, h, _, rfl, there, ?_, cunmount_last found there first the last⟩
    rw [Mhead.held, eq_singleton_of_eraseIdx the last]
    exact (perm_append_singleton _ _).symm
  · right
    exact ⟨j, h, i, _, rfl, there, the, last, cunmount_one found there first the last⟩

end Ns

end Ipnx.Name
