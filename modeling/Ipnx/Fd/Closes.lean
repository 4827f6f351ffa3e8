import Ipnx.Fd.Sharing

/-!
# The last close

Each channel is in use, or its close is owed by somebody, or its close is made: `Ledger`
balances the three over every step that keeps to `Kept`. `Lets` says what the calls that
take descriptors away have in common, so that the balance is shown for them once.
-/

namespace Ipnx

open Option (getD_none getD_some join_none map_some toList_none toList_some)

theorem one_eq (c d : Cell) : (if some d = some c then 1 else 0) = one c d := by
  simp only [one, Option.some.injEq, eq_comm]

theorem tally_guard (p : Prop) [Decidable p] (c d : Cell) :
    tally (one c) (if p then [d] else []) = if p then one c d else 0 := by
  split <;> simp

namespace Fds

variable {f f' : Fds} {c d : Cell} {fd : Int}

theorem refs_grow (f : Fds) (i : Nat) (c : Cell) : (f.grow i).refs c = f.refs c := by
  simp [refs, grow, tally_replicate]

theorem grow_slot (f : Fds) (i : Nat) : (f.grow i).slots[i]? = some (f.slots[i]?).join := by
  simp only [grow]
  by_cases inside : i < f.slots.length
  · rw [List.getElem?_append_left inside, List.getElem?_eq_getElem inside]
    rfl
  · have past : f.slots[i]? = none := List.getElem?_eq_none (by omega)
    rw [List.getElem?_append_right (by omega), past, List.getElem?_replicate,
      if_pos (by omega), join_none]

theorem refs_put (f : Fds) (i : Nat) (d c : Cell) :
    (f.put i d).refs c + tally (one c) (f.slots[i]?).join.toList = f.refs c + one c d := by
  have written := tally_set (fun s => if s = some c then 1 else 0) (f.grow_slot i) (some d)
  have grown := f.refs_grow i c
  simp only [one_eq] at written
  cases before : (f.slots[i]?).join with
  | none =>
      simp only [before, reduceCtorEq, if_false] at written
      simp only [put, refs, toList_none, tally_nil] at *
      omega
  | some e =>
      simp only [before, one_eq] at written
      simp only [put, refs, toList_some, tally_cons, tally_nil] at *
      omega

theorem get_eq (fdPos : 0 ≤ fd) : f.get fd = (f.slots[fd.toNat]?).join := by
  rw [get, if_neg (by omega)]

theorem nonneg_of_get (held : f.get fd = some c) : 0 ≤ fd := by
  by_contra negative
  rw [get, if_pos (by omega)] at held
  simp at held

theorem refs_pos_of_get (held : f.get fd = some c) : 0 < f.refs c := by
  rw [get_eq (nonneg_of_get held), Option.join_eq_some_iff] at held
  have entry := le_tally (fun s => if s = some c then 1 else 0) held
  simp only [if_true] at entry
  exact entry

theorem refs_close (closed : f.close fd = some (d, f')) :
    f.get fd = some d ∧ ∀ c, f'.refs c + one c d = f.refs c := by
  simp only [close] at closed
  cases held : f.get fd with
  | none => simp [held] at closed
  | some e =>
      simp only [held, Option.some.injEq, Prod.mk.injEq] at closed
      rcases closed with ⟨rfl, rfl⟩
      refine ⟨rfl, ?_⟩
      intro c
      rw [get_eq (nonneg_of_get held), Option.join_eq_some_iff] at held
      have written := tally_set (fun s => if s = some c then 1 else 0) held none
      simp only [one_eq, reduceCtorEq, if_false] at written
      exact written

theorem findfreefd_free {start i : Nat} (found : f.findfreefd start = some i) :
    (f.slots[i]?).join = none := by
  simp only [findfreefd] at found
  split at found
  · simp at found
  · cases search : (List.range' start (f.slots.length - start)).find?
        (fun i => f.slots[i]? == some none) with
    | none =>
        simp only [search, getD_none, Option.some.injEq] at found
        rw [List.getElem?_eq_none (by omega), join_none]
    | some j =>
        simp only [search, getD_some, Option.some.injEq] at found
        have free := List.find?_some search
        simp only [beq_iff_eq] at free
        rw [← found, free]
        rfl

theorem refs_newfd (made : f.newfd d = some (fd, f')) (c : Cell) :
    f'.refs c = f.refs c + one c d := by
  simp only [newfd] at made
  split at made
  next i found =>
    simp only [Option.some.injEq, Prod.mk.injEq] at made
    rcases made with ⟨_, rfl⟩
    have written := f.refs_put i d c
    rw [findfreefd_free found] at written
    simpa using written
  · simp at made

theorem refs_newfd2 {e : Cell} {fd2 : Int} (made : f.newfd2 d e = some (fd, fd2, f')) (c : Cell) :
    f'.refs c = f.refs c + one c d + one c e := by
  simp only [newfd2] at made
  split at made
  · simp at made
  next a foundA =>
    split at made
    · simp at made
    next b foundB =>
      simp only [Option.some.injEq, Prod.mk.injEq] at made
      rcases made with ⟨_, _, rfl⟩
      have first := f.refs_put a d c
      have second := (f.put a d).refs_put b e c
      rw [findfreefd_free foundA] at first
      rw [findfreefd_free foundB] at second
      simp only [toList_none, tally_nil] at first second
      omega

theorem place_free (f : Fds) : (f.slots[f.place]?).join = none := by
  simp only [place]
  cases search : f.slots.findIdx? (· == none) with
  | none =>
      rw [getD_none, List.getElem?_eq_none (by omega), join_none]
  | some i =>
      rcases List.findIdx?_eq_some_iff_getElem.mp search with ⟨inside, free, _⟩
      simp only [beq_iff_eq] at free
      rw [getD_some, List.getElem?_eq_getElem inside, free]
      rfl

theorem refs_dup {old new : Int} {oc : Option Cell} (made : f.dup old new = some (fd, oc, f')) :
    ∃ d, f.get old = some d ∧ (oc = none ∨ oc = f.get new) ∧
      ∀ c, f'.refs c + tally (one c) oc.toList = f.refs c + one c d := by
  simp only [dup] at made
  split at made
  · simp at made
  next d held =>
    refine ⟨d, held, ?_⟩
    split at made
    · simp only [Option.some.injEq, Prod.mk.injEq] at made
      rcases made with ⟨_, rfl, rfl⟩
      refine ⟨.inl rfl, ?_⟩
      intro c
      have written := f.refs_put f.place d c
      rw [place_free] at written
      exact written
    · split at made
      · simp at made
      next bounded =>
        simp only [Option.some.injEq, Prod.mk.injEq] at made
        rcases made with ⟨_, rfl, rfl⟩
        refine ⟨.inr rfl, ?_⟩
        intro c
        have written := f.refs_put new.toNat d c
        rw [← get_eq (by omega)] at written
        exact written

end Fds

namespace Descs

variable {k k' : Descs} {c : Cell} {up : Pid}

theorem slots_setTab {t : Nat} {f : Fds} (old : k.tabs[t]? = some f) (f' : Fds) (c : Cell) :
    (k.setTab t f').slots c + f.refs c = k.slots c + f'.refs c :=
  tally_set (Fds.refs · c) old f'

@[simp]
theorem calls_setTab (t : Nat) (f : Fds) (c : Cell) : (k.setTab t f).calls c = k.calls c := rfl

@[simp]
theorem held_setTab (t : Nat) (f : Fds) (c : Cell) : (k.setTab t f).held c = k.held c := rfl

@[simp]
theorem label_setTab (t : Nat) (f : Fds) : (k.setTab t f).label up = k.label up := rfl

theorem held_le_calls (k : Descs) (c : Cell) : k.held c ≤ k.calls c := by
  simp only [held, calls, Keyed.sum]
  induction k.labels.entries with
  | nil => simp
  | cons l rest ih =>
      have first : l.2.holds c ≤ l.2.uses c := by
        cases l.2 <;> simp [Label.holds, Label.uses]
      simp only [tally_cons]
      omega

theorem calls_setlabel (free : k.label up = none) (l : Label) (c : Cell) :
    (k.setlabel up l).calls c = l.uses c + k.calls c :=
  Keyed.sum_insert (Label.uses c) free l

theorem owed_setlabel (free : k.label up = none) (l : Label) (c : Cell) :
    (k.setlabel up l).owed c = l.owes c + k.owed c := by
  simp only [owed, setlabel, Keyed.sum_insert (Label.owes c) free l]
  omega

theorem calls_takelabel {l : Label} (left : k.label up = some l) (c : Cell) :
    (k.takelabel up).calls c + l.uses c = k.calls c :=
  Keyed.sum_erase (Label.uses c) left

theorem owed_takelabel {l : Label} (left : k.label up = some l) (c : Cell) :
    (k.takelabel up).owed c + l.owes c = k.owed c := by
  have taken := Keyed.sum_erase (Label.owes c) left
  simp only [owed, takelabel]
  omega

theorem slots_pos_of_chancell {fd : Int} (found : k.chancell up fd = some c) :
    0 < k.slots c := by
  simp only [chancell, fgrp] at found
  split at found
  next t f isTab =>
    split at isTab
    next t' _ =>
      simp only [Option.map_eq_some_iff, Prod.mk.injEq] at isTab
      rcases isTab with ⟨f', entry, rfl, rfl⟩
      have pos := Fds.refs_pos_of_get found
      have below := le_tally (Fds.refs · c) entry
      simp only [slots]
      omega
    · simp at isTab
  · simp at found

/-- The closes of `cs` are made or left to be made, and nothing else moves. -/
structure Settles (cs : List Cell) (k k' : Descs) : Prop where
  slots : ∀ c, k'.slots c = k.slots c
  calls : ∀ c, k'.calls c = k.calls c
  chans : k'.chans.length = k.chans.length
  owes : ∀ c, k'.owed c + k'.closed c = k.owed c + k.closed c + tally (one c) cs

theorem settles_finish (k : Descs) (up : Pid) (rest : Rest) :
    Settles [] k (k.finish up rest).1 := by
  cases rest with
  | answer r => exact ⟨fun _ => rfl, fun _ => rfl, rfl, fun _ => rfl⟩
  | exits =>
      simp only [finish]
      split <;> exact ⟨fun _ => rfl, fun _ => rfl, rfl, fun _ => rfl⟩

theorem closed_dclose (k : Descs) (d c : Cell) :
    (k.dclose d).closed c = k.closed c + one c d := by
  simp [closed, dclose]

theorem Settles.after_dclose {cs : List Cell} {d : Cell} (rest : Settles cs (k.dclose d) k') :
    Settles (d :: cs) k k' := by
  refine ⟨rest.slots, rest.calls, rest.chans, ?_⟩
  intro c
  have made := rest.owes c
  rw [closed_dclose] at made
  simp only [tally_cons]
  have same : (k.dclose d).owed c = k.owed c := rfl
  omega

theorem settles_setlabel {l : Label} {cs : List Cell} (free : k.label up = none)
    (idle : ∀ c, l.uses c = 0) (owes : ∀ c, l.owes c = tally (one c) cs) :
    Settles cs k (k.setlabel up l) := by
  refine ⟨fun _ => rfl, ?_, rfl, ?_⟩
  · intro c
    rw [calls_setlabel free, idle c, Nat.zero_add]
  · intro c
    rw [owed_setlabel free, owes c]
    have same : (k.setlabel up l).closed c = k.closed c := rfl
    omega

theorem settles_closing (free : k.label up = none) (cs : List Cell) (rest : Rest)
    (waits : List Bool) : Settles cs k (k.closing up cs rest waits).1 := by
  induction cs generalizing k waits with
  | nil => exact settles_finish k up rest
  | cons d cs ih =>
      simp only [closing]
      split
      · exact settles_setlabel free (fun _ => rfl) (fun _ => rfl)
      · have free : (k.dclose d).label up = none := free
        exact (ih free waits.tail).after_dclose

theorem Settles.after_ccloseq (cs : List Cell) {ds : List Cell}
    (rest : Settles cs { k with clunkq := k.clunkq ++ ds } k') : Settles (cs ++ ds) k k' := by
  refine ⟨rest.slots, rest.calls, rest.chans, ?_⟩
  intro c
  have made := rest.owes c
  simp only [owed, closed, tally_append] at made ⊢
  omega

theorem settles_closingfgrp (free : k.label up = none) (cs : List Cell) (rest : Rest)
    (begun : Bool) (waits : List Bool) :
    Settles cs k (k.closingfgrp up cs rest begun waits).1 := by
  induction cs generalizing k begun waits with
  | nil => exact settles_finish k up rest
  | cons d cs ih =>
      simp only [closingfgrp]
      split
      · split
        · split
          · apply Settles.after_ccloseq [d]
            apply settles_setlabel
            · exact free
            · intro c
              rfl
            · intro c
              rfl
          · apply Settles.after_ccloseq [d]
            apply Settles.after_dclose
            exact settles_finish _ up rest
        · apply Settles.after_ccloseq []
          exact settles_finish _ up rest
      · split
        · exact settles_setlabel free (fun _ => rfl) (fun _ => rfl)
        · have free : (k.dclose d).label up = none := free
          exact (ih free false waits.tail).after_dclose

/-- Descriptors are taken away, and `gone` is the channels whose last reference went. -/
structure Lets (gone : List Cell) (k k' : Descs) : Prop where
  labels : k'.labels = k.labels
  clunkq : k'.clunkq = k.clunkq
  closes : k'.closes = k.closes
  chans : k'.chans = k.chans
  unheld : ∀ c, k.slots c = 0 → k'.slots c = 0
  gone : ∀ c, tally (one c) gone =
    if 0 < k.slots c ∧ k'.slots c = 0 ∧ k.held c = 0 then 1 else 0

namespace Lets

variable {gone gone' : List Cell} {k'' : Descs}

theorem label (lets : Lets gone k k') (up : Pid) : k'.label up = k.label up := by
  simp only [Descs.label, lets.labels]

theorem calls (lets : Lets gone k k') (c : Cell) : k'.calls c = k.calls c := by
  simp only [Descs.calls, lets.labels]

theorem held (lets : Lets gone k k') (c : Cell) : k'.held c = k.held c := by
  simp only [Descs.held, lets.labels]

theorem shared (labels : k'.labels = k.labels) (clunkq : k'.clunkq = k.clunkq)
    (closes : k'.closes = k.closes) (chans : k'.chans = k.chans)
    (unheld : ∀ c, k.slots c = 0 → k'.slots c = 0) (more : ∀ c, k.slots c ≤ k'.slots c) :
    Lets [] k k' := by
  refine ⟨labels, clunkq, closes, chans, unheld, ?_⟩
  intro c
  have kept := more c
  rw [tally_nil, if_neg (by omega)]

theorem trans (first : Lets gone k k') (second : Lets gone' k' k'') :
    Lets (gone ++ gone') k k'' := by
  refine ⟨second.labels.trans first.labels, second.clunkq.trans first.clunkq,
    second.closes.trans first.closes, second.chans.trans first.chans, ?_, ?_⟩
  · intro c none
    exact second.unheld c (first.unheld c none)
  · intro c
    have start := first.unheld c
    have middle := second.unheld c
    rw [tally_append, first.gone c, second.gone c, first.held c]
    split_ifs <;> omega

end Lets

/-- A channel is in use, or its close is owed, or it is made. -/
structure Ledger (k : Descs) : Prop where
  used : ∀ c, 0 < k.calls c → 0 < k.slots c
  balance : ∀ c : Nat, k.owed c + k.closed c + (if 0 < k.slots c then 1 else 0) =
    if c < k.chans.length then 1 else 0

theorem Ledger.let_go {gone : List Cell} {k'' : Descs} (ledger : Ledger k)
    (lets : Lets gone k k') (kept : ∀ c, 0 < k.calls c → 0 < k'.slots c)
    (settles : Settles gone k' k'') : Ledger k'' := by
  refine ⟨?_, ?_⟩
  · intro c busy
    rw [settles.calls, lets.calls] at busy
    rw [settles.slots]
    exact kept c busy
  · intro c
    have before := ledger.balance c
    have after := settles.owes c
    have unheld := lets.unheld c
    have busy := kept c
    have below := k.held_le_calls c
    have owed : k'.owed c = k.owed c := by
      simp only [Descs.owed, lets.labels, lets.clunkq]
    have closed : k'.closed c = k.closed c := by
      simp only [Descs.closed, lets.closes]
    rw [lets.gone c, owed, closed] at after
    rw [after, settles.slots, settles.chans, lets.chans, ← before]
    split_ifs <;> omega

theorem lets_fdclose {t : Nat} {fd : Int} {gone : List Cell}
    (closed : k.fdclose t fd = some (gone, k')) :
    Lets gone k k' ∧ ∃ f f' d, k.tabs[t]? = some f ∧ f.get fd = some d ∧ k'.tabs[t]? = some f' ∧
      (∀ c, f'.refs c + one c d = f.refs c) ∧ ∀ c, k'.slots c + one c d = k.slots c := by
  simp only [fdclose] at closed
  split at closed
  · simp at closed
  next f isTab =>
    split at closed
    · simp at closed
    next d f' taken =>
      simp only [Option.some.injEq, Prod.mk.injEq] at closed
      rcases closed with ⟨rfl, rfl⟩
      rcases Fds.refs_close taken with ⟨got, refs⟩
      have slots : ∀ c, (k.setTab t f').slots c + one c d = k.slots c := by
        intro c
        have moved := slots_setTab isTab f' c
        have fewer := refs c
        omega
      have inside : t < k.tabs.length := (List.getElem?_eq_some_iff.mp isTab).1
      refine ⟨⟨rfl, rfl, rfl, rfl, ?_, ?_⟩, f, f', d, isTab, got, ?_, refs, slots⟩
      · intro c none
        have fewer := slots c
        omega
      · intro c
        have fewer := slots c
        rw [tally_guard]
        simp only [last, beq_iff_eq, held_setTab]
        by_cases same : c = d
        · subst same
          simp only [one, if_true] at fewer ⊢
          split_ifs <;> omega
        · simp only [one, same, if_false] at fewer ⊢
          split_ifs <;> omega
      · simp [setTab, inside]

theorem tally_lastrefs (k : Descs) (l : List (Option Cell)) (c : Cell) :
    tally (one c) (k.lastrefs l) =
      if 0 < tally (fun s => if s = some c then 1 else 0) l ∧ k.last c then 1 else 0 := by
  induction l with
  | nil => simp [lastrefs]
  | cons s rest ih =>
      cases s with
      | none => simpa [lastrefs] using ih
      | some d =>
          simp only [lastrefs, tally_cons, one_eq]
          by_cases same : c = d
          · subst same
            by_cases isLast : k.last c = true <;>
              by_cases more : tally (fun s => if s = some c then 1 else 0) rest = 0 <;>
              simp [isLast, more, ih, one]
          · simp only [one, same, if_false, Nat.zero_add]
            split
            · simpa [one, same] using ih
            · exact ih

theorem lets_closefgrp (k : Descs) (t : Nat) :
    Lets (k.closefgrp t).1 k (k.closefgrp t).2 ∧
      ∀ c, k.slots c ≤ (k.closefgrp t).2.slots c +
        (if k.sharers t = 0 then ((k.tabs[t]?).map (·.refs c)).getD 0 else 0) := by
  have still : Lets [] k k := by
    apply Lets.shared rfl rfl rfl rfl
    · intro c none
      exact none
    · intro c
      exact le_rfl
  simp only [closefgrp]
  split
  next alone =>
    split
    next f isTab =>
      have slots : ∀ c, (k.setTab t .empty).slots c + f.refs c = k.slots c := by
        intro c
        have moved := slots_setTab isTab .empty c
        simpa using moved
      refine ⟨⟨rfl, rfl, rfl, rfl, ?_, ?_⟩, ?_⟩
      · intro c none
        have fewer := slots c
        dsimp only
        omega
      · intro c
        have fewer := slots c
        rw [tally_lastrefs]
        simp only [last, beq_iff_eq, held_setTab]
        simp only [Fds.refs] at fewer
        split_ifs <;> omega
      · intro c
        have fewer := slots c
        simp only [isTab, map_some, getD_some]
        exact fewer.ge
    · refine ⟨still, ?_⟩
      intro c
      exact Nat.le_add_right _ _
  · refine ⟨still, ?_⟩
    intro c
    exact Nat.le_add_right _ _

theorem lets_closeonexec (k : Descs) (t fd n : Nat) :
    Lets (k.closeonexec t fd n).1 k (k.closeonexec t fd n).2 ∧
      ∀ c, k.slots c ≤ (k.closeonexec t fd n).2.slots c +
        (if (k.chans[c]?).any (·.ccexec) then ((k.tabs[t]?).map (·.refs c)).getD 0 else 0) := by
  induction n generalizing k fd with
  | zero =>
      refine ⟨.shared rfl rfl rfl rfl (fun _ none => none) (fun _ => le_rfl), ?_⟩
      intro c
      simp only [closeonexec]
      omega
  | succ n ih =>
      simp only [closeonexec]
      split
      next gone k1 taken =>
        split at taken
        next marked =>
          rcases lets_fdclose taken with ⟨first, f, f', d, isTab, got, isTab', refs, slots⟩
          rcases ih k1 (fd + 1) with ⟨rest, bound⟩
          refine ⟨first.trans rest, ?_⟩
          intro c
          have fewer := slots c
          have less := refs c
          have after := bound c
          simp only [isTab, Option.bind_some, got, Option.any_some] at marked
          rw [first.chans, isTab'] at after
          rw [isTab]
          simp only [map_some, getD_some] at after ⊢
          by_cases same : c = d
          · subst same
            simp only [marked, if_true] at after ⊢
            omega
          · simp only [one, same, if_false] at fewer less
            split_ifs at after ⊢ <;> omega
        · simp at taken
      · exact ih k (fd + 1)

theorem fgrp_eq {t : Nat} {f : Fds} (found : k.fgrp up = some (t, f)) :
    k.tabs[t]? = some f ∧ ∃ u, k.user up = some u ∧ u.fds = some t := by
  simp only [fgrp] at found
  split at found
  next t' isFds =>
    simp only [Option.map_eq_some_iff, Prod.mk.injEq] at found
    rcases found with ⟨f', entry, rfl, rfl⟩
    exact ⟨entry, by simpa [Option.bind_eq_some_iff] using isFds⟩
  · simp at found

theorem chancell_eq {t : Nat} {f : Fds} (found : k.fgrp up = some (t, f)) (fd : Int) :
    k.chancell up fd = f.get fd := by
  simp only [chancell, found]

theorem Ledger.sysclose (ledger : Ledger k) (free : k.label up = none) (fd : Int)
    (waits : List Bool) (kept : ∀ c, 0 < k.calls c → k.drops c up (.sysclose fd) < k.slots c) :
    Ledger (k.sysclose up fd waits).1 := by
  simp only [Descs.sysclose]
  split
  · exact ledger
  next t f isTab =>
    split
    · exact ledger
    next gone k1 taken =>
      rcases lets_fdclose taken with ⟨lets, f', _, d, entry, got, _, _, slots⟩
      rw [(fgrp_eq isTab).1, Option.some.injEq] at entry
      apply ledger.let_go lets
      · intro c busy
        have some := kept c busy
        have fewer := slots c
        simp only [drops, chancell_eq isTab, entry, got, toList_some, tally_cons,
          tally_nil] at some
        omega
      · exact settles_closing ((lets.label up).trans free) _ _ _

theorem lets_dup {t : Nat} {f f' : Fds} {fd old new : Int} {oc : Option Cell}
    (isTab : k.tabs[t]? = some f) (made : f.dup old new = some (fd, oc, f')) :
    Lets (oc.toList.filter (k.setTab t f').last) k (k.setTab t f') := by
  rcases Fds.refs_dup made with ⟨d, got, _, refs⟩
  have pos : 0 < k.slots d :=
    lt_of_lt_of_le (Fds.refs_pos_of_get got) (le_tally (Fds.refs · d) isTab)
  have slots : ∀ c, (k.setTab t f').slots c + tally (one c) oc.toList = k.slots c + one c d := by
    intro c
    have moved := slots_setTab isTab f' c
    have changed := refs c
    omega
  have some : ∀ c, one c d = 0 ∨ c = d := by
    intro c
    simp only [one]
    split_ifs <;> simp_all
  refine ⟨rfl, rfl, rfl, rfl, ?_, ?_⟩
  · intro c none
    have changed := slots c
    rcases some c with other | same
    · omega
    · rw [same] at none
      omega
  · intro c
    have changed := slots c
    cases oc with
    | none =>
        simp only [toList_none, List.filter_nil, tally_nil] at changed ⊢
        rw [if_neg (by omega)]
    | some e =>
        simp only [toList_some, List.filter_singleton, Bool.cond_eq_ite, tally_guard,
          tally_cons, tally_nil] at changed ⊢
        simp only [last, beq_iff_eq, held_setTab]
        have copied := some c
        by_cases same : c = e
        · subst same
          rcases copied with other | copied
          · simp only [other] at changed
            simp only [one, if_true] at changed ⊢
            split_ifs <;> omega
          · subst copied
            simp only [one, if_true] at changed ⊢
            split_ifs <;> omega
        · simp only [show one c e = 0 by simp [one, same], ite_self] at changed ⊢
          rw [if_neg (by omega)]

theorem Ledger.sysdup (ledger : Ledger k) (free : k.label up = none) (old new : Int)
    (waits : List Bool)
    (kept : ∀ c, 0 < k.calls c → k.drops c up (.sysdup old new) < k.slots c) :
    Ledger (k.sysdup up old new waits).1 := by
  simp only [Descs.sysdup]
  split
  · exact ledger
  next t f isTab =>
    split
    · exact ledger
    next fd oc f' made =>
      have entry := (fgrp_eq isTab).1
      apply ledger.let_go (lets_dup entry made)
      · intro c busy
        rcases Fds.refs_dup made with ⟨d, got, was, refs⟩
        have some := kept c busy
        have moved := slots_setTab entry f' c
        have changed := refs c
        simp only [drops, chancell_eq isTab, got, reduceCtorEq, false_or, Option.some.injEq]
          at some
        rcases was with rfl | rfl
        · simp only [toList_none, tally_nil] at changed
          have used := ledger.used c busy
          omega
        · split_ifs at some with same
          · subst same
            have most : tally (one d) (f.get new).toList ≤ 1 := by
              cases f.get new with
              | none => simp
              | some e =>
                  simp only [toList_some, tally_cons, tally_nil, one]
                  split_ifs <;> omega
            simp only [one, if_true] at changed most
            omega
          · omega
      · have free : (k.setTab t f').label up = none := free
        exact settles_closing free _ _ _

end Descs

end Ipnx
