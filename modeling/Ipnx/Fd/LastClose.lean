import Ipnx.Fd.Closes

/-!
# Exactly one close

The balance of `Ledger` over each call and so over every run, and what becomes of it when
the last descriptor goes while a read is asleep.
-/

namespace Ipnx

open List

namespace Descs

variable {k k' : Descs} {c : Cell} {up : Pid}

theorem sharers_setUser {u u' : User} {t : Nat} (found : k.user up = some u)
    (was : u.fds = some t) (now : u'.fds ≠ some t) :
    (k.setUser up u').sharers t + 1 = k.sharers t := by
  have moved := tally_set (fun u => if u.fds = some t then 1 else 0) found u'
  simp only [was, if_true, now, if_false] at moved
  exact moved

theorem Ledger.leave {u u' : User} {t : Nat} {rest : Rest} {waits : List Bool}
    (ledger : Ledger k) (free : k.label up = none) (found : k.user up = some u)
    (was : u.fds = some t) (now : u'.fds ≠ some t) (lets : Lets [] k k')
    (tabs : k'.tabs[t]? = k.tabs[t]?) (users : k'.users = k.users)
    (kept : ∀ c, 0 < k.calls c → k.only up c < k'.slots c) :
    Ledger (((k'.setUser up u').closefgrp t).2.closingfgrp up
      ((k'.setUser up u').closefgrp t).1 rest false waits).1 := by
  have moved : Lets [] k (k'.setUser up u') :=
    { lets with }
  rcases lets_closefgrp (k'.setUser up u') t with ⟨dropped, bound⟩
  have whole := moved.trans dropped
  apply ledger.let_go whole
  · intro c busy
    have left := kept c busy
    have most := bound c
    have alone : (k'.setUser up u').sharers t + 1 = k.sharers t := by
      have found' : k'.user up = some u := by rw [user, users]; exact found
      rw [sharers_setUser found' was now]
      simp only [sharers, users]
    have same : (k'.setUser up u').slots c = k'.slots c := rfl
    simp only [only, fgrp, found, Option.bind_some, was] at left
    rw [same, show (k'.setUser up u').tabs[t]? = k.tabs[t]? from tabs] at most
    cases isTab : k.tabs[t]? with
    | none =>
        simp only [isTab, Option.map_none] at left most
        simp only [Option.getD_none, ite_self] at most
        omega
    | some f =>
        simp only [isTab, Option.map_some, Option.getD_some] at left most
        split_ifs at left most <;> omega
  · exact settles_closingfgrp ((whole.label up).trans free) _ _ _ _

theorem Ledger.pexit (ledger : Ledger k) (free : k.label up = none) (waits : List Bool)
    (kept : ∀ c, 0 < k.calls c → k.drops c up .pexit < k.slots c) :
    Ledger (k.pexit up waits).1 := by
  have still : Lets [] k k := .shared rfl rfl rfl rfl (fun _ none => none) (fun _ => le_rfl)
  simp only [Descs.pexit]
  split
  · exact ledger
  next u found =>
    split
    · have free : (k.setUser up { u with fds := none }).label up = none := free
      have moved : Lets [] k (k.setUser up { u with fds := none }) :=
        ⟨rfl, rfl, rfl, rfl, still.unheld, still.gone⟩
      apply ledger.let_go moved
      · exact ledger.used
      · exact settles_closingfgrp free _ _ _ _
    next t was =>
      exact ledger.leave free found was (by simp) still rfl rfl kept

theorem only_obeyed {u : User} (found : k.user up = some u) (c : Cell) :
    (k.setUser up { u with exitme := false }).only up c = k.only up c := by
  have there : (k.setUser up { u with exitme := false }).user up =
      some { u with exitme := false } :=
    List.getElem?_set_self (List.getElem?_eq_some_iff.mp found).1
  have shared (t : Nat) :
      (k.setUser up { u with exitme := false }).sharers t = k.sharers t := by
    have moved := tally_set (fun u => if u.fds = some t then 1 else 0) found
      { u with exitme := false }
    exact Nat.add_right_cancel moved
  have same : (k.setUser up { u with exitme := false }).fgrp up = k.fgrp up := by
    rw [fgrp, fgrp, there, found]
    rfl
  rw [only, only, same]
  split
  · rw [shared]
  · rfl

theorem Ledger.procctl (ledger : Ledger k) (free : k.label up = none) (waits : List Bool)
    (kept : ∀ c, 0 < k.calls c → k.drops c up .procctl < k.slots c) :
    Ledger (k.procctl up waits).1 := by
  simp only [Descs.procctl]
  split
  · exact ledger
  next u found =>
    split
    · have obeyed : Ledger (k.setUser up { u with exitme := false }) :=
        ⟨ledger.used, ledger.balance⟩
      refine obeyed.pexit free waits fun c busy => ?_
      rw [drops, only_obeyed found]
      exact kept c busy
    · exact ledger

theorem slots_table (k : Descs) (f : Fds) (c : Cell) :
    { k with tabs := k.tabs ++ [f] }.slots c = k.slots c + f.refs c := by
  simp [slots]

theorem refs_le_slots {t : Nat} {f : Fds} (isTab : k.tabs[t]? = some f) (c : Cell) :
    f.refs c ≤ k.slots c :=
  le_tally (Fds.refs · c) isTab

theorem lets_table (k : Descs) (fds : Option Nat) (clear copy : Bool) :
    Lets [] k (k.table fds clear copy).2 ∧ ∀ c, k.slots c ≤ (k.table fds clear copy).2.slots c := by
  have grown (f : Fds) (old : ∀ c, f.refs c ≤ k.slots c) :
      Lets [] k { k with tabs := k.tabs ++ [f] } ∧
        ∀ c, k.slots c ≤ { k with tabs := k.tabs ++ [f] }.slots c := by
    have more : ∀ c, k.slots c ≤ { k with tabs := k.tabs ++ [f] }.slots c := by
      intro c
      rw [slots_table]
      omega
    refine ⟨.shared rfl rfl rfl rfl ?_ more, more⟩
    intro c none
    have some := old c
    rw [slots_table]
    omega
  simp only [table]
  split
  · exact grown .empty (by simp)
  · split
    · apply grown
      intro c
      cases fds with
      | none => simp
      | some t =>
          cases isTab : k.tabs[t]? with
          | none => simp [isTab]
          | some f =>
              simp only [Option.bind_some, isTab, Option.getD_some]
              exact refs_le_slots isTab c
    · exact ⟨.shared rfl rfl rfl rfl (fun _ none => none) (fun _ => le_rfl), fun _ => le_rfl⟩

theorem table_number (fds : Option Nat) {clear copy : Bool} {t : Nat}
    (inside : t < k.tabs.length) (own : clear || copy) :
    (k.table fds clear copy).1 ≠ some t ∧
      (k.table fds clear copy).2.tabs[t]? = k.tabs[t]? ∧
      (k.table fds clear copy).2.users = k.users := by
  have other : k.tabs.length ≠ t := by omega
  simp only [table]
  split
  · exact ⟨by simpa using other, List.getElem?_append_left inside, rfl⟩
  · split
    · exact ⟨by simpa using other, List.getElem?_append_left inside, rfl⟩
    · simp_all

theorem Ledger.sysrfork (ledger : Ledger k) (free : k.label up = none) (flags : Nat)
    (waits : List Bool)
    (kept : ∀ c, 0 < k.calls c → k.drops c up (.sysrfork flags) < k.slots c) :
    Ledger (k.sysrfork up flags waits).1 := by
  simp only [Descs.sysrfork]
  split
  · exact ledger
  · exact ledger
  next u _ found =>
    rcases lets_table k u.fds (Rf.has flags Rf.cfdg) (Rf.has flags Rf.fdg) with ⟨made, more⟩
    have used : ∀ c, 0 < k.calls c →
        0 < (k.table u.fds (Rf.has flags Rf.cfdg) (Rf.has flags Rf.fdg)).2.slots c := by
      intro c busy
      exact lt_of_lt_of_le (ledger.used c busy) (more c)
    split
    · apply ledger.let_go made used
      exact ⟨fun _ => rfl, fun _ => rfl, rfl, fun _ => rfl⟩
    next self =>
      split
      next own =>
        split
        · have moved : Lets [] k ((k.table u.fds (Rf.has flags Rf.cfdg)
              (Rf.has flags Rf.fdg)).2.setUser up
                { u with fds := (k.table u.fds (Rf.has flags Rf.cfdg) (Rf.has flags Rf.fdg)).1 }) :=
            { made with }
          apply ledger.let_go moved used
          exact settles_closingfgrp ((moved.label up).trans free) _ _ _ _
        next t f isTab =>
          rcases fgrp_eq isTab with ⟨entry, u', found', was⟩
          rw [found, Option.some.injEq] at found'
          subst found'
          have inside : t < k.tabs.length := (List.getElem?_eq_some_iff.mp entry).1
          rw [Rf.has_or, Bool.or_comm] at own
          rcases table_number u.fds inside own with ⟨other, tabs, users⟩
          apply ledger.leave free found was other made tabs users
          intro c busy
          have left := kept c busy
          have used := ledger.used c busy
          simp only [drops, self, Bool.not_false, Bool.true_and] at left
          by_cases clear : Rf.has flags Rf.cfdg = true
          · rw [if_pos clear] at left
            exact lt_of_lt_of_le left (more c)
          · rw [Bool.not_eq_true] at clear
            rw [clear, Bool.false_or] at own
            simp only [table, clear, Bool.false_eq_true, if_false, own, if_true, slots_table,
              was, Option.bind_some, entry, Option.getD_some, only, isTab]
            split_ifs <;> omega
      · exact ledger

theorem Ledger.sysexec (ledger : Ledger k) (free : k.label up = none) (waits : List Bool)
    (kept : ∀ c, 0 < k.calls c → k.drops c up .sysexec < k.slots c) :
    Ledger (k.sysexec up waits).1 := by
  simp only [Descs.sysexec]
  split
  · exact ledger
  next t f isTab =>
    rcases lets_closeonexec k t 0 f.slots.length with ⟨lets, bound⟩
    apply ledger.let_go lets
    · intro c busy
      have left := kept c busy
      have most := bound c
      simp only [drops, isTab] at left
      simp only [(fgrp_eq isTab).1, Option.map_some, Option.getD_some] at most
      omega
    · exact settles_closing ((lets.label up).trans free) _ _ _

theorem Ledger.fresh (ledger : Ledger k) {c : Nat} (unmade : k.chans.length ≤ c) :
    k.slots c = 0 ∧ k.owed c + k.closed c = 0 ∧ k.calls c = 0 := by
  have balance := ledger.balance c
  have used := ledger.used c
  split_ifs at balance <;> omega

theorem Ledger.newfd (ledger : Ledger k) {d : Cell}
    (held : 0 < k.slots d) (waits : List Bool) : Ledger (k.newfd up d waits).1 := by
  simp only [Descs.newfd]
  split
  · exact ledger
  next t f isTab =>
    split
    next fd f' made =>
      have more : ∀ c, (k.setTab t f').slots c = k.slots c + one c d := by
        intro c
        have moved := slots_setTab (fgrp_eq isTab).1 f' c
        rw [Fds.refs_newfd made c] at moved
        omega
      have lets : Lets [] k (k.setTab t f') := by
        refine .shared rfl rfl rfl rfl ?_ ?_
        · intro c none
          rw [more c, none, one, if_neg (by rintro rfl; omega)]
        · intro c
          rw [more c]
          omega
      apply ledger.let_go lets
      · intro c busy
        have used := ledger.used c busy
        rw [more c]
        omega
      · exact ⟨fun _ => rfl, fun _ => rfl, rfl, fun _ => rfl⟩
    · rw [if_neg (by simp only [last, beq_iff_eq]; omega)]
      exact ledger

theorem Ledger.fill {t : Nat} {f f' : Fds} {made : List Chan} (ledger : Ledger k)
    (isTab : k.tabs[t]? = some f)
    (filled : ∀ c : Nat, f'.refs c = f.refs c +
      if k.chans.length ≤ c ∧ c < k.chans.length + made.length then 1 else 0) :
    Ledger ({ k with chans := k.chans ++ made }.setTab t f') := by
  have more : ∀ c : Nat, ({ k with chans := k.chans ++ made }.setTab t f').slots c =
      k.slots c + if k.chans.length ≤ c ∧ c < k.chans.length + made.length then 1 else 0 := by
    intro c
    have moved : ({ k with chans := k.chans ++ made }.setTab t f').slots c + f.refs c =
      k.slots c + f'.refs c := slots_setTab isTab f' c
    rw [filled c] at moved
    omega
  refine ⟨?_, ?_⟩
  · intro c busy
    have used := ledger.used c busy
    rw [more c]
    omega
  · intro c
    have before := ledger.balance c
    have owed : ({ k with chans := k.chans ++ made }.setTab t f').owed c = k.owed c := rfl
    have closed : ({ k with chans := k.chans ++ made }.setTab t f').closed c = k.closed c := rfl
    have chans : ({ k with chans := k.chans ++ made }.setTab t f').chans.length =
      k.chans.length + made.length := length_append
    rw [more c, owed, closed, chans]
    rcases Nat.lt_or_ge c k.chans.length with inside | unmade
    · split_ifs at before ⊢ <;> omega
    · rcases ledger.fresh unmade with ⟨unheld, unowed, _⟩
      split_ifs <;> omega

theorem Ledger.refuse {made : List Chan} {gone : List Cell} (ledger : Ledger k)
    (settles : Settles gone { k with chans := k.chans ++ made } k')
    (filled : ∀ c : Nat, tally (one c) gone =
      if k.chans.length ≤ c ∧ c < k.chans.length + made.length then 1 else 0) :
    Ledger k' := by
  refine ⟨?_, ?_⟩
  · intro c busy
    rw [settles.calls] at busy
    rw [settles.slots]
    exact ledger.used c busy
  · intro c
    have before := ledger.balance c
    have after := settles.owes c
    have owed : { k with chans := k.chans ++ made }.owed c = k.owed c := rfl
    have closed : { k with chans := k.chans ++ made }.closed c = k.closed c := rfl
    have slots : { k with chans := k.chans ++ made }.slots c = k.slots c := rfl
    rw [filled c, owed, closed] at after
    rw [settles.slots, settles.chans, after, slots, length_append]
    rcases Nat.lt_or_ge c k.chans.length with inside | unmade
    · split_ifs at before ⊢ <;> omega
    · rcases ledger.fresh unmade with ⟨unheld, unowed, _⟩
      split_ifs <;> omega

theorem Ledger.sysopen (ledger : Ledger k) (free : k.label up = none) (ch : Chan)
    (waits : List Bool) : Ledger (k.sysopen up ch waits).1 := by
  have single (c : Nat) : one c k.chans.length =
      if k.chans.length ≤ c ∧ c < k.chans.length + [ch].length then 1 else 0 := by
    simp only [one, length_singleton]
    split_ifs <;> omega
  simp only [Descs.sysopen]
  split
  · exact ledger
  next t isTab =>
    have same : (k.alloc ch).fgrp up = k.fgrp up := rfl
    simp only [Descs.newfd, same, isTab]
    split
    next fd f' made =>
      apply ledger.fill (fgrp_eq isTab).1
      intro c
      rw [Fds.refs_newfd made c, single]
    · split
      · have free : (k.alloc ch).label up = none := free
        apply ledger.refuse (settles_closing free _ _ _)
        intro c
        rw [tally_cons, tally_nil, single, Nat.add_zero]
      next kept =>
        have fresh := ledger.fresh (le_refl k.chans.length)
        have none : (k.alloc ch).slots k.chans.length = 0 := fresh.1
        have below : (k.alloc ch).held k.chans.length ≤ k.calls k.chans.length :=
          k.held_le_calls k.chans.length
        simp only [last, beq_iff_eq] at kept
        omega

theorem Ledger.dupopen (ledger : Ledger k) (fd : Int) (waits : List Bool) :
    Ledger (k.dupopen up fd waits).1 := by
  simp only [Descs.dupopen]
  split
  · exact ledger
  next d found => exact ledger.newfd (slots_pos_of_chancell found) waits

theorem Ledger.syspipe (ledger : Ledger k) (free : k.label up = none) (waits : List Bool) :
    Ledger (k.syspipe up waits).1 := by
  have pair (c : Nat) : one c k.chans.length + one c (k.chans.length + 1) =
      if k.chans.length ≤ c ∧ c < k.chans.length + [Chan.pipe, Chan.pipe].length then 1
      else 0 := by
    simp only [one, length_cons, length_nil]
    split_ifs <;> omega
  have both : (k.alloc .pipe).alloc .pipe = { k with chans := k.chans ++ [.pipe, .pipe] } := by
    simp [alloc]
  simp only [Descs.syspipe, both]
  split
  · exact ledger
  next t f isTab =>
    split
    next a b f' made =>
      apply ledger.fill (fgrp_eq isTab).1
      intro c
      rw [Fds.refs_newfd2 made c, Nat.add_assoc, pair]
    · have free : { k with chans := k.chans ++ [Chan.pipe, Chan.pipe] }.label up = none := free
      apply ledger.refuse (settles_closing free _ _ _)
      intro c
      rw [tally_cons, tally_cons, tally_nil, Nat.add_zero, pair]

theorem Ledger.setOffset (ledger : Ledger k) (d : Cell) (offset : UInt64) :
    Ledger (k.setOffset d offset) := by
  refine ⟨ledger.used, ?_⟩
  intro c
  have balance := ledger.balance c
  simp only [Descs.setOffset, length_modify]
  exact balance

theorem Ledger.setlabel {l : Label} {d : Cell} (ledger : Ledger k) (free : k.label up = none)
    (uses : ∀ c, l.uses c = one c d) (owes : ∀ c, l.owes c = 0) (held : 0 < k.slots d) :
    Ledger (k.setlabel up l) := by
  refine ⟨?_, ?_⟩
  · intro c busy
    have used := ledger.used c
    have same : (k.setlabel up l).slots c = k.slots c := rfl
    rw [calls_setlabel free, uses c, one] at busy
    rw [same]
    split_ifs at busy with on
    · rw [on]
      exact held
    · exact used (by omega)
  · intro c
    have balance := ledger.balance c
    rw [owed_setlabel free, owes c, Nat.zero_add]
    exact balance

theorem Ledger.pread (ledger : Ledger k) (free : k.label up = none) {d : Cell}
    (held : 0 < k.slots d) (fd : Option Int) (ch : Chan) (n : Nat) (off : Int)
    (out : Outcome Octets) : Ledger (k.pread up fd d ch n off out).1 := by
  simp only [Descs.pread]
  split
  · exact ledger
  · split
    · exact ledger
    · split
      · split
        · split
          · exact ledger.setlabel free (fun _ => rfl) (fun _ => rfl) held
          · exact ledger.setlabel free (fun _ => rfl) (fun _ => rfl) held
        · exact ledger.setlabel free (fun _ => rfl) (fun _ => rfl) held
      · exact ledger
      · exact ledger.setOffset _ _

theorem Ledger.pwriteat (ledger : Ledger k) (free : k.label up = none) {d : Cell}
    (held : 0 < k.slots d) (data : Octets) (place : UInt64) (taken : Bool) (out : Outcome Nat) :
    Ledger (k.pwriteat up d data place taken out).1 := by
  simp only [Descs.pwriteat]
  split
  · exact ledger.setlabel free (fun _ => rfl) (fun _ => rfl) held
  · exact ledger.setOffset _ _
  · exact ledger.setOffset _ _

theorem chancell_of_fdtochan {fd : Int} {mode : Option Nat} {chkmnt : Bool} {ch : Chan}
    (found : k.fdtochan up fd mode chkmnt = .ok (c, ch)) : k.chancell up fd = some c := by
  simp only [fdtochan] at found
  split at found
  · simp at found
  next d isCell =>
    split at found
    · simp at found
    · split at found
      · simp only [Except.ok.injEq, Prod.mk.injEq] at found
        rw [isCell, found.1]
      · simp at found

theorem Ledger.syspread (ledger : Ledger k) (free : k.label up = none) (fd : Int) (n : Nat)
    (off : Int) (out : Outcome Octets) : Ledger (k.syspread up fd n off out).1 := by
  simp only [Descs.syspread]
  split
  · exact ledger
  next d ch found =>
    have held := slots_pos_of_chancell (chancell_of_fdtochan found)
    exact ledger.pread free held _ _ _ _ _

theorem Ledger.syspwrite (ledger : Ledger k) (free : k.label up = none) (fd : Int)
    (data : Octets) (off : Int) (out : Outcome Nat) :
    Ledger (k.syspwrite up fd data off out).1 := by
  simp only [Descs.syspwrite]
  split
  · exact ledger
  next d ch found =>
    have held := slots_pos_of_chancell (chancell_of_fdtochan found)
    split
    · exact ledger
    · split
      · exact ledger
      · split
        · exact (ledger.setOffset _ _).pwriteat free held _ _ _ _
        · exact ledger.pwriteat free held _ _ _ _

theorem Ledger.dispatch (ledger : Ledger k) (free : k.label up = none) (waits : List Bool)
    (call : FdCall) (kept : ∀ c, 0 < k.calls c → k.drops c up call < k.slots c) :
    Ledger (k.dispatch up waits call).1 := by
  cases call with
  | sysopen ch => exact ledger.sysopen free ch waits
  | dupopen fd => exact ledger.dupopen fd waits
  | syspipe => exact ledger.syspipe free waits
  | sysclose fd => exact ledger.sysclose free fd waits kept
  | sysdup old new => exact ledger.sysdup free old new waits kept
  | sysrfork flags => exact ledger.sysrfork free flags waits kept
  | sysexec => exact ledger.sysexec free waits kept
  | pexit => exact ledger.pexit free waits kept
  | procctl => exact ledger.procctl free waits kept
  | syspread fd n off out => exact ledger.syspread free fd n off out
  | syspwrite fd data off out => exact ledger.syspwrite free fd data off out

theorem Ledger.takelabel {l : Label} (ledger : Ledger k) (left : k.label up = some l)
    (owes : ∀ c, l.owes c = 0) : Ledger (k.takelabel up) := by
  refine ⟨?_, ?_⟩
  · intro c busy
    have taken := calls_takelabel left c
    exact ledger.used c (by omega)
  · intro c
    have balance := ledger.balance c
    have taken := owed_takelabel left c
    rw [owes c, Nat.add_zero] at taken
    rw [taken]
    exact balance

theorem Ledger.reclose {l : Label} {cs : List Cell} (ledger : Ledger k)
    (left : k.label up = some l)
    (owes : ∀ c, l.owes c = tally (one c) cs) (settles : Settles cs (k.takelabel up) k') :
    Ledger k' := by
  refine ⟨?_, ?_⟩
  · intro c busy
    have taken := calls_takelabel left c
    have used := ledger.used c
    rw [settles.calls] at busy
    rw [settles.slots]
    exact used (by omega)
  · intro c
    have balance := ledger.balance c
    have taken := owed_takelabel left c
    have after := settles.owes c
    have closed : (k.takelabel up).closed c = k.closed c := rfl
    have slots : (k.takelabel up).slots c = k.slots c := rfl
    have chans : (k.takelabel up).chans = k.chans := rfl
    rw [owes c] at taken
    rw [settles.slots, settles.chans, slots, chans]
    omega

theorem Ledger.resume {l : Label} (ledger : Ledger k) (left : k.label up = some l)
    (read : Outcome Octets) (write : Outcome Nat) (waits : List Bool) :
    Ledger (k.resume up l read write waits).1 := by
  have free : (k.takelabel up).label up = none := k.labels.find_erase up
  have used (c : Cell) (on : l.uses c = 1) : 0 < (k.takelabel up).slots c := by
    have taken := calls_takelabel left c
    exact ledger.used c (by omega)
  simp only [Descs.resume]
  cases l with
  | pread d n off =>
      have taken := ledger.takelabel left (fun _ => rfl)
      have held := used d (by simp [Label.uses, one])
      dsimp only
      split
      · exact taken.pread free held _ _ _ _ _
      · exact taken
  | rerun fd n off on =>
      exact (ledger.takelabel left (fun _ => rfl)).syspread free fd n off read
  | pwriteat d data place taken =>
      have held := used d (by simp [Label.uses, one])
      exact (ledger.takelabel left (fun _ => rfl)).pwriteat free held _ _ _ _
  | closing cs rest =>
      exact ledger.reclose left (fun _ => rfl) (settles_closing free _ _ _)
  | closingfgrp cs rest begun =>
      exact ledger.reclose left (fun _ => rfl) (settles_closingfgrp free _ _ _ _)

theorem Ledger.closeproc (ledger : Ledger k) (free : k.label up = none) (waits : List Bool) :
    Ledger (k.closeproc up waits).1 := by
  simp only [Descs.closeproc]
  split
  · exact ledger
  next d rest queued =>
    have free : { k with clunkq := rest }.label up = none := free
    have settles := settles_closing free [d] (.answer (.ok .ok)) waits
    refine ⟨?_, ?_⟩
    · intro c busy
      rw [settles.calls] at busy
      rw [settles.slots]
      exact ledger.used c busy
    · intro c
      have balance := ledger.balance c
      have after := settles.owes c
      have slots : { k with clunkq := rest }.slots c = k.slots c := rfl
      rw [settles.slots, settles.chans, slots, after, ← balance]
      simp only [owed, closed, queued, tally_cons, tally_nil]
      omega

theorem Ledger.act {a : FdAct} {r : Except String Ret} (ledger : Ledger k) (kept : k.Kept a)
    (made : k.act a = some (k', r)) : Ledger k' := by
  cases a with
  | call up call waits =>
      simp only [Descs.act] at made
      split at made
      next running =>
        simp only [Option.some.injEq] at made
        have next := ledger.dispatch running.1 waits call kept
        rw [made] at next
        exact next
      · simp at made
  | resume up read write waits =>
      simp only [Descs.act, Option.map_eq_some_iff] at made
      rcases made with ⟨l, left, eq⟩
      have next := ledger.resume left read write waits
      rw [eq] at next
      exact next
  | kill pid =>
      simp only [Descs.act, Option.map_eq_some_iff, Prod.mk.injEq] at made
      rcases made with ⟨u, _, rfl, _⟩
      exact ⟨ledger.used, ledger.balance⟩
  | closeproc up waits =>
      simp only [Descs.act] at made
      split at made
      next free =>
        simp only [Option.some.injEq] at made
        have next := ledger.closeproc free waits
        rw [made] at next
        exact next
      · simp at made

theorem ledger_boot : Ledger boot := by
  refine ⟨?_, ?_⟩
  · intro c busy
    simp [calls, boot, Keyed.sum, Keyed.empty] at busy
  · intro c
    simp [boot, owed, closed, slots, Keyed.sum, Keyed.empty, Fds.empty, Fds.refs]

theorem ledger_of_reach (reached : sharing.Reach Kept k) : Ledger k := by
  apply System.Reach.invariant Ledger _ _ reached
  · rintro k rfl
    exact ledger_boot
  · rintro k a k' ledger kept ⟨r, made⟩
    exact ledger.act kept made

/-- A channel is closed at its device once, when the last descriptor of it and the last call
on it are gone, in every run in which a channel in use keeps a descriptor. -/
theorem closed_once (reached : sharing.Reach Kept k) (made : c < k.chans.length) :
    k.Once c := by
  have ledger := ledger_of_reach reached
  have balance := ledger.balance c
  have used := ledger.used c
  rw [if_pos made] at balance
  refine ⟨?_, ?_, ?_⟩
  · intro busy
    have held : 0 < k.slots c := by
      by_contra none
      exact none (used (by omega))
    rw [if_pos held] at balance
    omega
  · intro free
    rw [if_neg (by omega)] at balance
    omega
  · intro labels clunkq free
    rw [if_neg (by omega)] at balance
    simp only [owed, Keyed.sum, labels, clunkq, tally_nil] at balance
    omega

theorem kept_of_quiet (a : FdAct) (quiet : k.labels.entries = []) : k.Kept a := by
  cases a with
  | call up call waits =>
      intro c busy
      simp [calls, Keyed.sum, quiet] at busy
  | resume | kill | closeproc => trivial

theorem reach_act {ok : Descs → FdAct → Prop} (reached : sharing.Reach ok k) (a : FdAct)
    (kept : ok k a) (made : (k.act a).map Prod.fst = some k') : sharing.Reach ok k' := by
  rcases Option.map_eq_some_iff.mp made with ⟨r, moved, rfl⟩
  exact .step reached kept ⟨r.2, moved⟩

/-- A read of a pipe sleeps and ends before the descriptor its process shares is closed. -/
theorem closed_once_read : ∃ k, sharing.Reach Kept k ∧ k.closes = [0] ∧ k.Once 0 := by
  have piped := reach_act (.init rfl) (.call 0 .syspipe []) (kept_of_quiet _ rfl) rfl
  have forked := reach_act piped (.call 0 (.sysrfork Rf.proc) []) (kept_of_quiet _ rfl) rfl
  have asleep := reach_act forked (.call 1 (.syspread 0 8 (-1) .slept) [])
    (kept_of_quiet _ rfl) rfl
  have read := reach_act asleep (.resume 1 (.ok [7]) .slept []) trivial rfl
  have closed := reach_act read (.call 0 (.sysclose 0) []) (kept_of_quiet _ rfl) rfl
  exact ⟨_, closed, rfl, closed_once closed (by decide)⟩

/-- The descriptor is closed while the read sleeps: the read's own reference is then the last,
nobody closes the channel when it goes, and nobody is left to. -/
theorem closed_once_fails : ∃ k, sharing.Reachable k ∧ 0 < k.chans.length ∧
    k.labels.entries = [] ∧ k.slots 0 = 0 ∧ k.closes = [] ∧ ¬k.Once 0 := by
  have booted : sharing.Reach (fun _ _ => True) boot := .init rfl
  have piped := reach_act booted (.call 0 .syspipe []) trivial rfl
  have forked := reach_act piped (.call 0 (.sysrfork Rf.proc) []) trivial rfl
  have asleep := reach_act forked (.call 1 (.syspread 0 8 (-1) .slept) []) trivial rfl
  have closed := reach_act asleep (.call 0 (.sysclose 0) []) trivial rfl
  have read := reach_act closed (.resume 1 (.ok [7]) .slept []) trivial rfl
  refine ⟨_, read, by decide, rfl, rfl, rfl, ?_⟩
  intro once
  have closed := once.letGo rfl
  revert closed
  decide

end Descs

end Ipnx
