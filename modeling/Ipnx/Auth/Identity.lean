import Ipnx.Auth.Users
import Mathlib.Data.List.Count

/-!
# How a process becomes another user

A name changes in four ways: a process drops to `none`, eve renames the host owner, eve gives
a process away, or a process spends a capability. A capability is spent as often as eve has
minted it at most; and its text names the user it is for, or no user at all, in which case it
is anyone's.
-/

namespace Ipnx.Auth

open List
open Function (update update_of_ne update_self)

theorem cutLast_eq {t f k : List Char} (cut : cutLast t = some (f, k)) : t = f ++ '@' :: k := by
  induction t generalizing f with
  | nil => cases cut
  | cons c cs ih =>
      rw [cutLast] at cut
      rcases rest : cutLast cs with _ | ⟨before, after⟩
      · rw [rest] at cut
        simp only at cut
        split_ifs at cut with at_
        cases cut
        rw [at_, nil_append]
      · rw [rest] at cut
        cases cut
        rw [ih rest, cons_append]

theorem cutFirst_eq {t f k : List Char} (cut : cutFirst t = some (f, k)) :
    t = f ++ '@' :: k ∧ '@' ∉ f := by
  induction t generalizing f with
  | nil => cases cut
  | cons c cs ih =>
      rw [cutFirst] at cut
      split_ifs at cut with at_
      · cases cut
        exact ⟨by rw [at_, nil_append], not_mem_nil⟩
      · obtain ⟨⟨before, after⟩, rest, same⟩ := Option.map_eq_some_iff.1 cut
        cases same
        obtain ⟨whole, none⟩ := ih rest
        refine ⟨by rw [whole, cons_append], ?_⟩
        rw [mem_cons, not_or]
        exact ⟨fun same => at_ same.symm, none⟩

theorem cutFirst_none {t : List Char} (uncut : cutFirst t = none) : '@' ∉ t := by
  induction t with
  | nil => exact not_mem_nil
  | cons c cs ih =>
      rw [cutFirst] at uncut
      split_ifs at uncut with at_
      rw [mem_cons, not_or]
      exact ⟨fun same => at_ same.symm, ih (Option.map_eq_none_iff.1 uncut)⟩

namespace Users

variable {Hash : Type} [DecidableEq Hash] {hmac : String → String → Hash} {s s' : Users Hash}
  {p q : Nat} {a : UserAct Hash}

def userOf (s : Users Hash) (p : Nat) : Option String := (s.procs p).map UserProc.user

/-- What a successful spending does. The capability's text names the spender, or nobody. -/
theorem capwrite_cases (hmac : String → String → Hash) (s : Users Hash) (p : Nat) (text : String) :
    (∃ e, capwrite hmac s p text = (.error e, s)) ∨
    (∃ t key new, text = t ++ "@" ++ key ∧
      (t = s.name p ++ "@" ++ new ∧ '@' ∉ (s.name p).toList ∨ t = new ∧ '@' ∉ new.toList) ∧
      hmac t key ∈ s.caps ∧
      capwrite hmac s p text = (.ok (), { s.setuser p new with
        caps := s.caps.erase (hmac t key), spent := s.spent ++ [(t, key)] })) := by
  unfold capwrite
  rcases last : cutLast text.toList with _ | ⟨t, key⟩
  · exact .inl ⟨_, rfl⟩
  have whole : text = String.ofList t ++ "@" ++ String.ofList key := by
    apply String.toList_inj.1
    rw [cutLast_eq last]
    simp
  have spending : ∀ new, (∃ e, spend hmac s p (String.ofList t) (String.ofList key) new =
        (.error e, s)) ∨
      (hmac (String.ofList t) (String.ofList key) ∈ s.caps ∧
        spend hmac s p (String.ofList t) (String.ofList key) new = (.ok (), { s.setuser p new with
          caps := s.caps.erase (hmac (String.ofList t) (String.ofList key))
          spent := s.spent ++ [(String.ofList t, String.ofList key)] })) := by
    intro new
    unfold spend remcap
    split_ifs with there
    · exact .inr ⟨there, rfl⟩
    · exact .inl ⟨_, rfl⟩
  simp only
  rcases first : cutFirst t with _ | ⟨user, new⟩
  · rcases spending (String.ofList t) with ⟨e, failed⟩ | ⟨there, done⟩
    · exact .inl ⟨e, failed⟩
    · refine .inr ⟨_, _, _, whole, .inr ⟨rfl, ?_⟩, there, done⟩
      rw [String.toList_ofList]
      exact cutFirst_none first
  · simp only
    split_ifs with match_
    · exact .inl ⟨_, rfl⟩
    · rw [ne_eq, not_not] at match_
      obtain ⟨parts, none⟩ := cutFirst_eq first
      rcases spending (String.ofList new) with ⟨e, failed⟩ | ⟨there, done⟩
      · exact .inl ⟨e, failed⟩
      · refine .inr ⟨_, _, _, whole, .inl ⟨?_, ?_⟩, there, done⟩
        · apply String.toList_inj.1
          rw [← match_, parts]
          simp
        · rw [← match_, String.toList_ofList]
          exact none

omit [DecidableEq Hash] in
theorem wstat_cases (s : Users Hash) (p pid : Nat) (isDir : Bool)
    (entry : Option (String × UInt32)) :
    (∃ e, s.wstat p pid isDir entry = (.error e, s)) ∨
    (∃ q uid mode procmode, s.procs pid = some q ∧ isDir = false ∧ entry = some (uid, mode) ∧
      (uid ≠ "" ∧ uid ≠ q.user → s.name p = s.eve) ∧
      s.wstat p pid isDir entry = (.ok (), s.edit pid fun _ =>
        ⟨if uid ≠ "" ∧ uid ≠ q.user then uid else q.user, procmode⟩)) := by
  unfold wstat
  split_ifs with dir none
  · exact .inl ⟨_, rfl⟩
  · exact .inl ⟨_, rfl⟩
  rcases there : s.procs pid with _ | q
  · exact .inl ⟨_, rfl⟩
  simp only
  split_ifs with owner
  · exact .inl ⟨_, rfl⟩
  rcases entry with _ | ⟨uid, mode⟩
  · exact .inl ⟨_, rfl⟩
  simp only
  by_cases gives : uid ≠ "" ∧ uid ≠ q.user ∧ s.name p ≠ s.eve
  · exact .inl ⟨_, if_pos gives⟩
  · refine .inr ⟨q, uid, mode, if mode ≠ 0xffffffff then mode &&& 0o777 else q.procmode, rfl,
      by simpa using dir, rfl, ?_, ?_⟩
    · intro other
      by_contra eve
      exact gives ⟨other.1, other.2, eve⟩
    · rw [if_neg gives]
      simp only [edit, there, Option.map_some]

omit [DecidableEq Hash] in
theorem userOf_setuser (s : Users Hash) (p q : Nat) (name : String) :
    (s.setuser p name).userOf q = if q = p then (s.userOf q).map fun _ => name else s.userOf q := by
  by_cases same : q = p
  · subst same
    simp only [userOf, setuser, edit, update_self, if_true, Option.map_map]
    rfl
  · simp only [userOf, setuser, edit, update_of_ne same, if_neg same]

inductive Why (hmac : String → String → Hash) (s s' : Users Hash) (p q : Nat) (u v : String) :
    UserAct Hash → Prop
  | dropped {data : String} : q = p → v = "none" → trimEnd data = "none" →
      Why hmac s s' p q u v (.user data)
  | renamed {data : String} : s.name p = s.eve → u = s.eve → v = s'.eve →
      Why hmac s s' p q u v (.hostowner data)
  | given {mode : UInt32} : s.name p = s.eve → Why hmac s s' p q u v
      (.wstat q false (some (v, mode)))
  | spent {text key : String} : q = p →
      text = u ++ "@" ++ v ∧ '@' ∉ u.toList ∨ text = v ∧ '@' ∉ v.toList →
      hmac text key ∈ s.caps → Why hmac s s' p q u v (.capuse (text ++ "@" ++ key))

def Below (s : Users Hash) : Prop := ∀ p, (s.procs p).isSome = true → p < s.next

theorem why_act (below : s.Below) (caller : (s.procs p).isSome = true) {u v : String}
    (before : s.userOf q = some u) (after : (s.act hmac p a).2.userOf q = some v)
    (changed : v ≠ u) :
    Why hmac s (s.act hmac p a).2 p q u v a := by
  have stays : (s.act hmac p a).2.userOf q ≠ s.userOf q := by
    rw [before, after]
    exact fun same => changed (Option.some.inj same)
  have name : q = p → s.name p = u := by
    rintro rfl
    rw [userOf] at before
    rw [Users.name, before, Option.getD_some]
  have other : q ≠ s.next := by
    have known : (s.procs q).isSome = true := by
      obtain ⟨q0, entry, _⟩ := Option.map_eq_some_iff.1 before
      rw [entry]
      rfl
    exact Nat.ne_of_lt (below q known)
  cases a with
  | user data =>
      simp only [act, userwrite] at after stays ⊢
      split_ifs at after stays ⊢ with is
      · exact absurd rfl stays
      · rw [not_not] at is
        rw [userOf_setuser] at after stays
        split_ifs at after stays with same
        · rw [before] at after
          exact .dropped same (Option.some.inj after).symm is
        · exact absurd rfl stays
  | hostowner data =>
      simp only [act, hostownerwrite] at after stays ⊢
      split_ifs at after stays ⊢ with eve empty
      · exact absurd rfl stays
      · exact absurd rfl stays
      · simp only [Bool.not_eq_true', Bool.not_eq_false, iseve, beq_iff_eq] at eve
        obtain ⟨q0, entry, rfl⟩ := Option.map_eq_some_iff.1 before
        simp only [userOf, renameuser, entry, Option.map_some, Option.some.injEq] at after
        split_ifs at after with old
        · exact .renamed eve.symm old after.symm
        · exact absurd after.symm changed
  | caphash data =>
      simp only [act, addcap] at stays
      split_ifs at stays
      · exact absurd rfl stays
      · cases data <;> exact absurd rfl stays
  | capuse text =>
      rcases capwrite_cases hmac s p text with ⟨e, failed⟩ | ⟨t, key, new, rfl, names, there, done⟩
      · simp only [act, failed] at stays
        exact absurd rfl stays
      · have taken : (s.act hmac p (.capuse (t ++ "@" ++ key))).2.userOf q =
            (s.setuser p new).userOf q := by
          simp only [act, done]
          rfl
        rw [taken, userOf_setuser] at after stays
        split_ifs at after stays with same
        · rw [before] at after
          have became : new = v := Option.some.inj after
          rw [name same, became] at names
          exact .spent same names there
        · exact absurd rfl stays
  | wstat pid isDir entry =>
      rcases wstat_cases s p pid isDir entry with
        ⟨e, failed⟩ | ⟨q0, uid, mode, procmode, there, rfl, rfl, eve, done⟩
      · simp only [act, failed] at stays
        exact absurd rfl stays
      · by_cases same : q = pid
        · subst same
          simp only [act, done, userOf, edit, there, update_self, Option.map_some,
            Option.some.injEq] at after before
          split_ifs at after with gives
          · rw [after] at eve gives
            rw [after]
            exact .given (eve gives)
          · exact absurd (after.symm.trans before) changed
        · simp only [act, done, userOf, edit, update_of_ne same] at stays
          exact absurd rfl stays
  | rfork =>
      simp only [act, userOf, update_of_ne other] at stays
      exact absurd rfl stays
  | kproc =>
      simp only [act, userOf, update_of_ne other] at stays
      exact absurd rfl stays
  | exits =>
      by_cases same : q = p
      · subst same
        simp [act, userOf] at after
      · simp only [act, userOf, update_of_ne same] at stays
        exact absurd rfl stays

def mints (s : Users Hash) (h : Hash) : Nat := (s.minted.map Mint.hash).count h

def spends (hmac : String → String → Hash) (s : Users Hash) (h : Hash) : Nat :=
  (s.spent.map fun t => hmac t.1 t.2).count h

/-- Every capability minted is there or spent, and eve minted it. -/
structure Inv (hmac : String → String → Hash) (s : Users Hash) : Prop where
  below : s.Below
  account : ∀ h, s.spends hmac h + s.caps.count h = s.mints h
  minter : ∀ m ∈ s.minted, m.writer = m.eve

theorem Inv.of_names (inv : Inv hmac s) (below : s'.Below) (caps : s'.caps = s.caps)
    (minted : s'.minted = s.minted) (spent : s'.spent = s.spent) : Inv hmac s' where
  below := below
  account := by
    intro h
    rw [spends, mints, caps, minted, spent]
    exact inv.account h
  minter := by
    rw [minted]
    exact inv.minter

omit [DecidableEq Hash] in
theorem Below.edit (below : s.Below) (p : Nat) (g : UserProc → UserProc) : (s.edit p g).Below := by
  intro q known
  apply below q
  by_cases same : q = p
  · subst same
    simpa [Users.edit] using known
  · simpa [Users.edit, update_of_ne same] using known

theorem Inv.spend (inv : Inv hmac s) {t key : String} (there : hmac t key ∈ s.caps) (new : String) :
    Inv hmac { s.setuser p new with
      caps := s.caps.erase (hmac t key), spent := s.spent ++ [(t, key)] } where
  below := inv.below.edit p _
  account := by
    intro h
    have account := inv.account h
    simp only [spends, mints, map_append, map_cons, map_nil, count_append,
      count_singleton, setuser, edit] at account ⊢
    by_cases same : hmac t key = h
    · subst same
      have more := count_pos_iff.2 there
      rw [count_erase_self, beq_self_eq_true, if_pos rfl]
      omega
    · rw [count_erase_of_ne (Ne.symm same), beq_eq_false_iff_ne.2 same, if_neg (by simp)]
      omega
  minter := inv.minter

theorem Inv.act (inv : Inv hmac s) (p : Nat) (caller : (s.procs p).isSome = true)
    (a : UserAct Hash) : Inv hmac (s.act hmac p a).2 := by
  have added : ∀ entry : Option UserProc, ∀ q, (update s.procs s.next entry q).isSome = true →
      q < s.next + 1 := by
    intro entry q known
    by_cases same : q = s.next
    · rw [same]
      exact Nat.lt_succ_self _
    · rw [update_of_ne same] at known
      exact Nat.lt_succ_of_lt (inv.below q known)
  cases a with
  | user data =>
      simp only [Users.act, userwrite]
      split_ifs
      · exact inv
      · exact inv.of_names (inv.below.edit p _) rfl rfl rfl
  | hostowner data =>
      simp only [Users.act, hostownerwrite]
      split_ifs
      · exact inv
      · exact inv
      · refine inv.of_names ?_ rfl rfl rfl
        intro q known
        apply inv.below q
        simpa [renameuser] using known
  | caphash data =>
      simp only [Users.act, addcap]
      split_ifs with eve
      · exact inv
      cases data with
      | none => exact inv
      | some h =>
          refine ⟨inv.below, ?_, ?_⟩
          · intro h'
            have account := inv.account h'
            simp only [spends, mints, map_append, map_cons, map_nil,
              count_append] at account ⊢
            omega
          · intro m member
            rcases mem_append.1 member with old | new
            · exact inv.minter m old
            · rw [mem_singleton.1 new]
              simp only [Bool.not_eq_true', Bool.not_eq_false, iseve, beq_iff_eq] at eve
              exact eve.symm
  | capuse text =>
      rcases capwrite_cases hmac s p text with ⟨e, failed⟩ | ⟨t, key, new, rfl, _, there, done⟩
      · simp only [Users.act, failed]
        exact inv
      · simp only [Users.act, done]
        exact inv.spend there new
  | wstat pid isDir entry =>
      rcases wstat_cases s p pid isDir entry with
        ⟨e, failed⟩ | ⟨q0, uid, mode, procmode, _, _, _, _, done⟩
      · simp only [Users.act, failed]
        exact inv
      · simp only [Users.act, done]
        exact inv.of_names (inv.below.edit pid _) rfl rfl rfl
  | rfork => exact inv.of_names (added _) rfl rfl rfl
  | kproc => exact inv.of_names (added _) rfl rfl rfl
  | exits =>
      refine inv.of_names ?_ rfl rfl rfl
      intro q known
      apply inv.below q
      by_cases same : q = p
      · rw [same]
        exact caller
      · simpa [Users.act, update_of_ne same] using known

theorem inv_reachable (reached : (system hmac).Reachable s) : Inv hmac s := by
  apply reached.invariant (Inv hmac)
  · rintro _ rfl
    refine ⟨?_, fun h => rfl, by simp [boot]⟩
    intro p known
    simp only [boot] at known
    split_ifs at known with one
    · rw [one]
      exact Nat.lt_succ_self _
    · cases known
  · rintro s a _ inv _ ⟨caller, rfl⟩
    exact inv.act a.1 caller a.2

/-- After any run: a step changes a name in one of the four ways only; every capability there
is was minted by eve, for one text and key; and none is spent more often than it was minted. -/
theorem identity_changes (injective : ∀ t k t' k', hmac t k = hmac t' k' → t = t' ∧ k = k')
    (reached : (system hmac).Reachable s) :
    (∀ p a q u v, (s.procs p).isSome = true → s.userOf q = some u →
      (s.act hmac p a).2.userOf q = some v → v ≠ u → Why hmac s (s.act hmac p a).2 p q u v a) ∧
    (∀ t k, hmac t k ∈ s.caps → s.spent.count (t, k) < s.mints (hmac t k) ∧
      ∃ m ∈ s.minted, m.writer = m.eve ∧ ∀ t' k', hmac t' k' = m.hash ↔ t' = t ∧ k' = k) ∧
    (∀ t k, s.spent.count (t, k) ≤ s.mints (hmac t k)) := by
  have inv := inv_reachable reached
  have spent : ∀ t k, s.spent.count (t, k) ≤ s.spends hmac (hmac t k) := by
    intro t k
    exact count_le_count_map (f := fun t : String × String => hmac t.1 t.2) (x := (t, k))
  refine ⟨?_, ?_, ?_⟩
  · intro p a q u v caller before after changed
    exact why_act inv.below caller before after changed
  · intro t k there
    have account := inv.account (hmac t k)
    have more := count_pos_iff.2 there
    have once := spent t k
    refine ⟨by omega, ?_⟩
    have minted : hmac t k ∈ s.minted.map Mint.hash := by
      apply count_pos_iff.1
      rw [mints] at account
      omega
    obtain ⟨m, member, hash⟩ := mem_map.1 minted
    refine ⟨m, member, inv.minter m member, ?_⟩
    intro t' k'
    rw [hash]
    constructor
    · exact fun same => injective _ _ _ _ same
    · rintro ⟨rfl, rfl⟩
      rfl
  · intro t k
    have account := inv.account (hmac t k)
    have once := spent t k
    omega

/-- Hashes that are the text and the key themselves. -/
abbrev Plain := String × String

/-- The first process names the host owner and forks; the child drops to none; and eve mints a
capability to become `bob` that names no other user. -/
def bobMinted : Users Plain :=
  let named := (boot.act Prod.mk 1 (.hostowner "eve")).2
  let forked := (named.act Prod.mk 1 .rfork).2
  let dropped := (forked.act Prod.mk 2 (.user "none")).2
  (dropped.act Prod.mk 1 (.caphash (some ("bob", "key")))).2

theorem reachable_bobMinted : (system Prod.mk).Reachable bobMinted := by
  have step : ∀ {s : Users Plain} (a : Nat × UserAct Plain), (system Prod.mk).Reachable s →
      (s.procs a.1).isSome = true → (system Prod.mk).Reachable (s.act Prod.mk a.1 a.2).2 :=
    fun a reached caller => .step (a := a) reached trivial ⟨caller, rfl⟩
  have named := step (1, .hostowner "eve") (.init rfl) (by decide)
  have forked := step (1, .rfork) named (by decide)
  have dropped := step (2, .user "none") forked (by decide)
  exact step (1, .caphash (some ("bob", "key"))) dropped (by decide)

theorem identity_changes_bob : (system Prod.mk).Reachable bobMinted ∧
    bobMinted.userOf 2 = some "none" ∧
    (bobMinted.act Prod.mk 2 (.capuse "bob@key")).2.userOf 2 = some "bob" ∧
    Why Prod.mk bobMinted (bobMinted.act Prod.mk 2 (.capuse "bob@key")).2 2 2 "none" "bob"
      (.capuse "bob@key") ∧
    bobMinted.spent.count ("bob", "key") ≤ bobMinted.mints ("bob", "key") := by
  have changes := identity_changes (fun _ _ _ _ => Prod.mk.inj) reachable_bobMinted
  have before : bobMinted.userOf 2 = some "none" := by decide
  have after : (bobMinted.act Prod.mk 2 (.capuse "bob@key")).2.userOf 2 = some "bob" := by decide
  exact ⟨reachable_bobMinted, before, after,
    changes.1 2 (.capuse "bob@key") 2 "none" "bob" (by decide) before after (by decide),
    changes.2.2 "bob" "key"⟩

/-- A name changes by a capability only if that was minted for this name and the next. -/
def OwnCapability (hmac : String → String → Hash) (s : Users Hash) (p : Nat) (text : String) :
    Prop :=
  ∀ u v, s.userOf p = some u → (s.act hmac p (.capuse text)).2.userOf p = some v → v ≠ u →
    ∃ key, text = u ++ "@" ++ v ++ "@" ++ key ∧ hmac (u ++ "@" ++ v) key ∈ s.minted.map Mint.hash

/-- A process that has dropped to none becomes `bob` by a capability that was not minted for
none. -/
theorem identity_changes_fails : ¬∀ (s : Users Plain) (p : Nat) (text : String),
    (system Prod.mk).Reachable s → OwnCapability Prod.mk s p text := by
  intro all
  have before : bobMinted.userOf 2 = some "none" := by decide
  have after : (bobMinted.act Prod.mk 2 (.capuse "bob@key")).2.userOf 2 = some "bob" := by decide
  obtain ⟨key, _, minted⟩ := all bobMinted 2 "bob@key" reachable_bobMinted "none" "bob" before after
    (by decide)
  have one : bobMinted.minted.map Mint.hash = [("bob", "key")] := by decide
  rw [one, mem_singleton] at minted
  have texts : "none" ++ "@" ++ "bob" = "bob" := congrArg Prod.fst minted
  exact absurd texts (by decide)

end Users

end Ipnx.Auth
