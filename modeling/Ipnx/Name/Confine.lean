import Ipnx.Name.Sandbox
import Ipnx.Name.Table

/-!
# A sandbox is not left

A namespace's flag is never taken back, and a process keeps its namespace or gets one that has
the flag. So a process that has been shut in, and every process it forks from then on, is in a
namespace that refuses what the sandbox refuses.
-/

namespace Ipnx.Name

open Prog
open Function (update update_of_ne update_self)

namespace NameKernel

variable {k k' : NameKernel} {p : Nat} {w : World}

/-- No call but `rfork` and `exits` gives a process another namespace, and no namespace loses
its flag. -/
structure Calm (k k' : NameKernel) : Prop where
  spaces : ∀ (i : Nat) (ns : Ns), k.spaces[i]? = some ns →
    ∃ ns', k'.spaces[i]? = some ns' ∧ (ns.noattach = true → ns'.noattach = true)
  procs : ∀ p, (k'.procs p).map (fun q => (q.ns, q.exiting)) =
    (k.procs p).map fun q => (q.ns, q.exiting)
  next : k'.next = k.next

def Shut (k : NameKernel) (p : Nat) : Prop :=
  ∃ q i ns, k.procs p = some q ∧ q.ns = some i ∧ k.spaces[i]? = some ns ∧ ns.noattach = true

/-- What a process that is shut in has not done: attached a device outside the sandbox,
attached a server, or started a command. -/
structure Tame (p : Nat) (k k' : NameKernel) : Prop where
  calm : Calm k k'
  attached : k.Shut p → ∃ l, k'.attached = k.attached ++ l ∧
    ∀ e ∈ l, (e.2 : DevId).letter ∈ sandbox
  servers : k.Shut p → k'.servers = k.servers
  commands : k.Shut p → k'.commands = k.commands

instance : Std.Refl Calm where
  refl _ := ⟨fun _ ns there => ⟨ns, there, id⟩, fun _ => rfl, rfl⟩

instance : IsTrans NameKernel Calm where
  trans := by
    intro k1 k2 k3 first second
    refine ⟨?_, fun p => (second.procs p).trans (first.procs p), second.next.trans first.next⟩
    intro i ns there
    obtain ⟨ns', there', kept⟩ := first.spaces i ns there
    obtain ⟨ns'', there'', kept'⟩ := second.spaces i ns' there'
    exact ⟨ns'', there'', fun shut => kept' (kept shut)⟩

theorem Calm.shut (calm : Calm k k') (shut : k.Shut p) : k'.Shut p := by
  obtain ⟨q, i, ns, entry, of, there, flag⟩ := shut
  have same := calm.procs p
  rw [entry, Option.map_some, Option.map_eq_some_iff] at same
  obtain ⟨q', entry', same⟩ := same
  rw [Prod.mk.injEq] at same
  obtain ⟨ns', there', kept⟩ := calm.spaces i ns there
  exact ⟨q', i, ns', entry', same.1.trans of, there', kept flag⟩

instance (p : Nat) : Std.Refl (Tame p) where
  refl k := ⟨refl_of Calm k, fun _ => ⟨[], by simp, by simp⟩, fun _ => rfl, fun _ => rfl⟩

instance (p : Nat) : IsTrans NameKernel (Tame p) where
  trans := by
    intro k1 k2 k3 first second
    refine ⟨trans_of Calm first.calm second.calm, ?_, ?_, ?_⟩
    · intro shut
      obtain ⟨l, grew, allowed⟩ := first.attached shut
      obtain ⟨l', grew', allowed'⟩ := second.attached (first.calm.shut shut)
      refine ⟨l ++ l', by rw [grew', grew, List.append_assoc], ?_⟩
      intro e member
      rcases List.mem_append.1 member with old | new
      · exact allowed e old
      · exact allowed' e new
    · intro shut
      rw [second.servers (first.calm.shut shut), first.servers shut]
    · intro shut
      rw [second.commands (first.calm.shut shut), first.commands shut]

theorem Calm.tame (calm : Calm k k') (attached : k'.attached = k.attached)
    (servers : k'.servers = k.servers) (commands : k'.commands = k.commands) : Tame p k k' :=
  ⟨calm, fun _ => ⟨[], by simp [attached], by simp⟩, fun _ => servers, fun _ => commands⟩

theorem keeps_lift {α : Type} {R : NameKernel → NameKernel → Prop} [Std.Refl R]
    (r : Except String α) : Keeps R (lift r) := by
  cases r
  · exact keeps_throw _
  · exact keeps_pure _

theorem pgrp_cases (k : NameKernel) (p : Nat) :
    (∃ e, exec (pgrp p) k = (.error e, k)) ∨
    (∃ q i ns, k.procs p = some q ∧ q.ns = some i ∧ k.spaces[i]? = some ns ∧
      exec (pgrp p) k = (.ok (i, ns), k)) := by
  rcases entry : k.procs p with _ | q
  · exact .inl ⟨enoproc, by simp [pgrp, exec_bind, entry]⟩
  rcases of : q.ns with _ | i
  · exact .inl ⟨enoproc, by simp [pgrp, exec_bind, entry, of]⟩
  rcases there : k.spaces[i]? with _ | ns
  · exact .inl ⟨enoproc, by simp [pgrp, exec_bind, entry, of, there]⟩
  · exact .inr ⟨q, i, ns, rfl, of, there, by simp [pgrp, exec_bind, entry, of, there]⟩

theorem names_cases (k : NameKernel) (p : Nat) :
    (∃ e, exec (names p) k = (.error e, k)) ∨ (∃ at_, exec (names p) k = (.ok at_, k)) := by
  unfold names
  rw [exec_bind, exec_get]
  simp only
  split
  · exact .inr ⟨_, rfl⟩
  · exact .inl ⟨_, rfl⟩

theorem pgrp_of_shut (shut : k.Shut p) :
    ∃ i ns, exec (pgrp p) k = (.ok (i, ns), k) ∧ ns.noattach = true := by
  obtain ⟨q, i, ns, entry, of, there, flag⟩ := shut
  exact ⟨i, ns, by simp [pgrp, exec_bind, entry, of, there], flag⟩

theorem exec_lift {α : Type} (r : Except String α) (k : NameKernel) : exec (lift r) k = (r, k) := by
  cases r <;> rfl

/-- A name either fails and nothing is done, or starts and what it attaches is noted. -/
theorem namec_cases (w : World) (p : Nat) (name : String) (k : NameKernel) :
    (∃ e, exec (namec w p name) k = (.error e, k)) ∨
    (∃ i ns slash dot s, exec (pgrp p) k = (.ok (i, ns), k) ∧
      start w.attach ns name slash dot = .ok s ∧ exec (namec w p name) k = (w.namec name,
        { k with attached := k.attached ++ (attaches name).toList.map fun d => (p, d) })) := by
  rcases names_cases k p with ⟨e, at_⟩ | ⟨⟨slash, dot⟩, at_⟩
  · exact .inl ⟨e, by rw [namec, exec_bind_error at_]⟩
  rcases pgrp_cases k p with ⟨e, on⟩ | ⟨q, i, ns, _, _, _, on⟩
  · exact .inl ⟨e, by rw [namec, exec_bind_ok at_, exec_bind_error on]⟩
  rcases started : start w.attach ns name slash dot with e | s
  · refine .inl ⟨e, ?_⟩
    rw [namec, exec_bind_ok at_, exec_bind_ok on, exec_bind_error (by rw [exec_lift, started])]
  · refine .inr ⟨i, ns, slash, dot, s, on, started, ?_⟩
    rw [namec, exec_bind_ok at_, exec_bind_ok on, exec_bind_ok (by rw [exec_lift, started]),
      exec_bind_ok (exec_modify _ _), exec_lift]

theorem tame_namec (w : World) (p : Nat) (name : String) : Keeps (Tame p) (namec w p name) := by
  intro k
  rcases namec_cases w p name k with ⟨e, ran⟩ | ⟨i, ns, slash, dot, s, on, started, ran⟩
  · rw [ran]
    exact refl_of (Tame p) k
  · rw [ran]
    refine ⟨⟨fun _ ns there => ⟨ns, there, id⟩, fun _ => rfl, rfl⟩, ?_, fun _ => rfl, fun _ => rfl⟩
    intro shut
    obtain ⟨i', ns', on', flag⟩ := pgrp_of_shut shut
    rw [on] at on'
    cases on'
    refine ⟨_, rfl, ?_⟩
    intro e member
    obtain ⟨d, named, rfl⟩ := List.mem_map.1 member
    exact attaches_of_start flag started d (Option.mem_toList.1 named)

theorem fails_namec {name : String} (shut : k.Shut p) (outside : Outside name) :
    Fails (namec w p name) k := by
  rcases namec_cases w p name k with ⟨e, ran⟩ | ⟨i, ns, slash, dot, s, on, started, ran⟩
  · exact ⟨e, by rw [ran]⟩
  · obtain ⟨i', ns', on', flag⟩ := pgrp_of_shut shut
    rw [on] at on'
    cases on'
    have refused : ∃ e, start w.attach ns name slash dot = .error e := start_outside flag outside
    rcases refused with ⟨e, failed⟩
    rw [failed] at started
    cases started

theorem noattach_cmount (ns : Ns) (n : Ids) (on : Rc Chan) (new : Element) (union : List Element)
    (how : Bind) : (ns.cmount n on new union how).2.1.noattach = ns.noattach := by
  rcases ns.cmount_cases n on new union how with ⟨e, r⟩ | ⟨j, h, _, _, r⟩ | ⟨_, r⟩ <;>
      rw [r] <;> rfl

theorem noattach_cunmount (ns : Ns) (on : Chan) (named : Option (Chan → Bool)) :
    (ns.cunmount on named).2.noattach = ns.noattach := by
  rcases ns.cunmount_cases on named with ⟨e, r⟩ | ⟨j, h, gone, _, _, _, r⟩ | ⟨j, h, i, e, _, _, _,
      _, r⟩ <;>
    rw [r] <;> rfl

theorem tame_set {i : Nat} {ns ns' : Ns} {ids : Ids} (there : k.spaces[i]? = some ns)
    (flag : ns'.noattach = ns.noattach) :
    Tame p k { k with spaces := k.spaces.set i ns', ids := ids } := by
  refine Calm.tame ⟨?_, fun _ => rfl, rfl⟩ rfl rfl rfl
  intro j m at_
  simp only [List.getElem?_set]
  split_ifs with here bound
  · subst here
    have same : m = ns := Option.some.inj (at_.symm.trans there)
    subst same
    exact ⟨ns', rfl, by rw [flag]; exact id⟩
  · subst here
    rw [List.getElem?_eq_none (Nat.le_of_not_lt bound)] at there
    cases there
  · exact ⟨m, at_, id⟩

theorem tame_cmount (p : Nat) (on new : Rc Chan) (union : List Element) (flag : UInt32)
    (spec : String) : Keeps (Tame p) (cmount p on new union flag spec) := by
  intro k
  rcases pgrp_cases k p with ⟨e, of⟩ | ⟨q, i, ns, _, _, there, of⟩
  · rw [cmount, exec_bind_error of]
    exact refl_of (Tame p) k
  · rw [cmount, exec_bind_ok of, exec_bind_ok (exec_get k), exec_bind_ok (exec_modify _ _),
      exec_lift]
    exact tame_set there (noattach_cmount ..)

theorem tame_cunmount (p : Nat) (on : Rc Chan) (named : Option (Chan → Bool)) :
    Keeps (Tame p) (cunmount p on named) := by
  intro k
  rcases pgrp_cases k p with ⟨e, of⟩ | ⟨q, i, ns, _, _, there, of⟩
  · rw [cunmount, exec_bind_error of]
    exact refl_of (Tame p) k
  · rw [cunmount, exec_bind_ok of, exec_bind_ok (exec_modify _ _), exec_lift]
    exact tame_set there (noattach_cunmount ..)

theorem tame_chdir (p : Nat) (c : Rc Chan) : Keeps (Tame p) (chdir p c) := by
  apply keeps_modify
  intro k
  refine Calm.tame ⟨fun _ ns there => ⟨ns, there, id⟩, ?_, rfl⟩ rfl rfl rfl
  intro p'
  by_cases same : p' = p
  · subst same
    simp only [edit, update_self, Option.map_map]
    rfl
  · simp only [edit, update_of_ne same]

theorem tame_syspath (w : World) (p : Nat) (a : Amode) (name : String) :
    Keeps (Tame p) (syspath w p a name) := by
  refine (tame_namec w p name).bind fun c => ?_
  split
  split_ifs
  · exact tame_chdir p _
  · exact keeps_pure _

theorem tame_sysbind (w : World) (p : Nat) (name old : String) (flag : UInt32) :
    Keeps (Tame p) (sysbind w p name old flag) := by
  refine (keeps_lift _).bind fun _ => (tame_namec w p name).bind fun c0 => ?_
  exact (tame_namec w p old).bind fun c1 => tame_cmount p _ _ _ _ _

theorem tame_sysunmount (w : World) (p : Nat) (name : Option String) (old : String) :
    Keeps (Tame p) (sysunmount w p name old) := by
  refine (tame_namec w p old).bind fun on => ?_
  cases name with
  | none => exact tame_cunmount p _ _
  | some n => exact (tame_namec w p n).bind fun _ => tame_cunmount p _ _

theorem exec_permit_of_shut (shut : k.Shut p) : exec (permit p) k = (.error enoattach, k) := by
  obtain ⟨i, ns, on, flag⟩ := pgrp_of_shut shut
  rw [permit, exec_bind_ok on]
  simp [flag]

theorem calm_permit (p : Nat) : Keeps Calm (permit p) := by
  intro k
  rcases pgrp_cases k p with ⟨e, of⟩ | ⟨q, i, ns, _, _, there, of⟩
  · rw [permit, exec_bind_error of]
    exact refl_of Calm k
  · rw [permit, exec_bind_ok of]
    simp only
    split_ifs <;> exact refl_of Calm k

theorem calm_of_tame {α : Type} {m : Prog NameKernel α} (tame : Keeps (Tame p) m) : Keeps Calm m :=
  fun k => (tame k).calm

theorem exec_sysmount_of_shut (shut : k.Shut p) (old : String) (flag : UInt32) (aname : String) :
    ∃ e, exec (sysmount w p old flag aname) k = (.error e, k) := by
  rcases flags : bindflag flag with e | _
  · exact ⟨e, by rw [sysmount, exec_bind_error (by rw [exec_lift, flags])]⟩
  rcases valid : validname aname true with e | _
  · exact ⟨e, by rw [sysmount, exec_bind_ok (by rw [exec_lift, flags]),
      exec_bind_error (by rw [exec_lift, valid])]⟩
  · exact ⟨enoattach, by rw [sysmount, exec_bind_ok (by rw [exec_lift, flags]),
      exec_bind_ok (by rw [exec_lift, valid]), exec_bind_error (exec_permit_of_shut shut)]⟩

theorem calm_sysmount (w : World) (p : Nat) (old : String) (flag : UInt32) (aname : String) :
    Keeps Calm (sysmount w p old flag aname) := by
  refine (keeps_lift _).bind fun _ => (keeps_lift _).bind fun _ => (calm_permit p).bind fun _ => ?_
  refine (keeps_lift _).bind fun _ => (keeps_lift _).bind fun c0 => Keeps.bind ?_ fun _ => ?_
  · exact keeps_modify fun _ => ⟨fun _ ns there => ⟨ns, there, id⟩, fun _ => rfl, rfl⟩
  · refine (calm_of_tame (tame_namec w p old)).bind fun c1 => ?_
    exact calm_of_tame (tame_cmount p _ _ _ _ _)

theorem exec_sysoscmd_of_shut (shut : k.Shut p) (server : Nat) (files : List (String × Int)) :
    exec (sysoscmd w p server files) k = (.error enoattach, k) := by
  rw [sysoscmd, exec_bind_error (exec_permit_of_shut shut)]

theorem calm_sysoscmd (w : World) (p server : Nat) (files : List (String × Int)) :
    Keeps Calm (sysoscmd w p server files) := by
  refine (calm_permit p).bind fun _ => (keeps_lift _).bind fun _ => ?_
  have rest : Keeps Calm (do
      let _ ← lift w.dmount
      modify fun k => { k with commands := k.commands ++ [p] }
      lift w.opened : Prog NameKernel Unit) := by
    refine (keeps_lift _).bind fun _ => Keeps.bind ?_ fun _ => keeps_lift _
    exact keeps_modify fun _ => ⟨fun _ ns there => ⟨ns, there, id⟩, fun _ => rfl, rfl⟩
  split
  · exact (calm_of_tame (tame_namec w p _)).bind fun _ => rest
  · exact rest

theorem tame_of_refused {α : Type} {m : Prog NameKernel α} (calm : Keeps Calm m)
    (refused : ∀ k, k.Shut p → ∃ e, exec m k = (.error e, k)) : Keeps (Tame p) m := by
  intro k
  by_cases shut : k.Shut p
  · obtain ⟨e, ran⟩ := refused k shut
    rw [ran]
    exact refl_of (Tame p) k
  · exact ⟨calm k, fun shut' => absurd shut' shut, fun shut' => absurd shut' shut,
      fun shut' => absurd shut' shut⟩

theorem tame_syspipe (w : World) (p : Nat) : Keeps (Tame p) (syspipe w p) := by
  refine (keeps_lift _).bind fun _ => Keeps.bind ?_ fun _ => keeps_lift _
  apply keeps_modify
  intro k
  refine ⟨⟨fun _ ns there => ⟨ns, there, id⟩, fun _ => rfl, rfl⟩, ?_, fun _ => rfl, fun _ => rfl⟩
  intro _
  refine ⟨[(p, .pipe)], rfl, ?_⟩
  intro e member
  rw [List.mem_singleton.1 member]
  exact List.mem_cons_self

theorem tame_call (w : World) (p : Nat) (k : NameKernel) (c : NameCall)
    (other : ∀ flags, c ≠ .rfork flags) (stays : c ≠ .exits) : Tame p k (k.call w p c).2 := by
  cases c with
  | path a name => exact tame_syspath w p a name k
  | bind name old flag => exact tame_sysbind w p name old flag k
  | unmount name old => exact tame_sysunmount w p name old k
  | mount fd afd old flag aname =>
      refine tame_of_refused (calm_sysmount w p old flag aname) ?_ k
      exact fun k shut => exec_sysmount_of_shut shut old flag aname
  | oscmd server aname files =>
      refine tame_of_refused (calm_sysoscmd w p server files) ?_ k
      exact fun k shut => ⟨_, exec_sysoscmd_of_shut shut server files⟩
  | pipe => exact tame_syspipe w p k
  | dup old new => exact keeps_lift w.fdtochan k
  | rfork flags => exact absurd rfl (other flags)
  | exits => exact absurd rfl stays

theorem fails_call {c : NameCall} (shut : k.Shut p) (outside : c.Outside) :
    ∃ e, (k.call w p c).1 = .error e := by
  have fails : ∀ {m : Prog NameKernel Unit}, Fails m k →
      ∃ e, (call.done (exec m k)).1 = .error e := by
    rintro m ⟨e, failed⟩
    exact ⟨e, by rw [call.done, failed]; rfl⟩
  cases c with
  | path a name =>
      obtain ⟨n, member, out⟩ := outside
      rw [NameCall.names, List.mem_singleton] at member
      subst member
      exact fails ((fails_namec shut out).bind _)
  | bind name old flag =>
      obtain ⟨n, member, out⟩ := outside
      apply fails
      apply fails_bind
      intro _ k1 ran
      rw [exec_lift, Prod.mk.injEq] at ran
      obtain ⟨_, rfl⟩ := ran
      rcases List.mem_cons.1 member with rfl | rest
      · exact (fails_namec shut out).bind _
      · rw [List.mem_singleton] at rest
        subst rest
        apply fails_bind
        intro c0 k1 ran
        have calm := (tame_namec w p name k).calm
        rw [ran] at calm
        exact (fails_namec (calm.shut shut) out).bind _
  | unmount name old =>
      obtain ⟨n, member, out⟩ := outside
      apply fails
      cases name with
      | none =>
          rw [NameCall.names, List.mem_singleton] at member
          subst member
          exact (fails_namec shut out).bind _
      | some name =>
          rcases List.mem_cons.1 member with rfl | rest
          · exact (fails_namec shut out).bind _
          · rw [List.mem_singleton] at rest
            subst rest
            apply fails_bind
            intro on k1 ran
            have calm := (tame_namec w p old k).calm
            rw [ran] at calm
            exact (fails_namec (calm.shut shut) out).bind _
  | mount fd afd old flag aname =>
      obtain ⟨e, refused⟩ := exec_sysmount_of_shut (w := w) shut old flag aname
      exact fails ⟨e, by rw [refused]⟩
  | oscmd server aname files =>
      exact fails ⟨enoattach, by rw [exec_sysoscmd_of_shut shut]⟩
  | pipe => obtain ⟨n, member, _⟩ := outside; cases member
  | dup old new => obtain ⟨n, member, _⟩ := outside; cases member
  | rfork flags => obtain ⟨n, member, _⟩ := outside; cases member
  | exits => obtain ⟨n, member, _⟩ := outside; cases member

theorem setNoattach_get {j : Nat} {m : Ns} (there : k.spaces[j]? = some m) (on : Bool) :
    (k.setNoattach (some j) on).spaces[j]? = some (m.setNoattach on) := by
  simp [setNoattach, there]

theorem calm_setNoattach (k : NameKernel) (j : Nat) (on : Bool) :
    Calm k (k.setNoattach (some j) on) := by
  refine ⟨?_, fun _ => rfl, rfl⟩
  intro i ns there
  refine ⟨if j = i then ns.setNoattach on else ns, ?_, ?_⟩
  · simp only [setNoattach, List.getElem?_modify, there]
    split_ifs <;> rfl
  · intro flag
    split_ifs
    · simp [Ns.setNoattach, flag]
    · exact flag

theorem calm_append (k : NameKernel) (ns : Ns) (ids : Ids) :
    Calm k { k with spaces := k.spaces ++ [ns], ids := ids } := by
  refine ⟨?_, fun _ => rfl, rfl⟩
  intro i m there
  have bound := (List.getElem?_eq_some_iff.1 there).1
  exact ⟨m, by rw [List.getElem?_append_left bound, there], id⟩

theorem table_spec {i : Nat} {ns : Ns} (there : k.spaces[i]? = some ns) (clear copy : Bool) :
    ∃ j m, (k.table (some i) clear copy).1 = some j ∧
      (k.table (some i) clear copy).2.spaces[j]? = some m ∧
      ((clear || copy) = false → j = i ∧ m = ns) ∧ Calm k (k.table (some i) clear copy).2 := by
  cases clear with
  | true => exact ⟨k.spaces.length, (Ns.new k.ids).1, rfl, by simp [table], by simp, calm_append ..⟩
  | false =>
      cases copy with
      | true =>
          refine ⟨k.spaces.length, (ns.clone k.ids).1, ?_, ?_, by simp, ?_⟩
          · simp [table, there]
          · simp [table, there]
          · simp only [table, Option.bind_some, there]
            exact calm_append ..
      | false => exact ⟨i, ns, rfl, there, fun _ => ⟨rfl, rfl⟩, refl_of Calm k⟩

theorem forkNs_others (k : NameKernel) (src : Option Nat) (flags : Nat) :
    (k.forkNs src flags).2.procs = k.procs ∧ (k.forkNs src flags).2.attached = k.attached ∧
    (k.forkNs src flags).2.servers = k.servers ∧
    (k.forkNs src flags).2.commands = k.commands := by
  have set : ∀ (k : NameKernel) (i : Option Nat) (on : Bool),
      (k.setNoattach i on).procs = k.procs ∧ (k.setNoattach i on).attached = k.attached ∧
      (k.setNoattach i on).servers = k.servers ∧ (k.setNoattach i on).commands = k.commands := by
    intro k i on
    cases i <;> exact ⟨rfl, rfl, rfl, rfl⟩
  have table : ∀ (clear copy : Bool), (k.table src clear copy).2.procs = k.procs ∧
      (k.table src clear copy).2.attached = k.attached ∧
      (k.table src clear copy).2.servers = k.servers ∧
      (k.table src clear copy).2.commands = k.commands := by
    intro clear copy
    unfold NameKernel.table
    split_ifs
    · exact ⟨rfl, rfl, rfl, rfl⟩
    · split <;> exact ⟨rfl, rfl, rfl, rfl⟩
    · exact ⟨rfl, rfl, rfl, rfl⟩
  simp only [forkNs]
  split_ifs <;> simp [set, table]

/-- The namespace a fork gives is the caller's or has the caller's flag, and has the flag if
the fork asks for it; no other namespace is touched. -/
theorem forkNs_spec {i : Nat} {ns : Ns} (there : k.spaces[i]? = some ns) (flags : Nat) :
    ∃ j m, (k.forkNs (some i) flags).1 = some j ∧ (k.forkNs (some i) flags).2.spaces[j]? = some m ∧
      (ns.noattach = true → m.noattach = true) ∧
      (Rf.has flags Rf.nomnt = true → m.noattach = true) ∧
      (Rf.has flags (Rf.nameg ||| Rf.cnameg) = false → j = i) ∧
      Calm k (k.forkNs (some i) flags).2 := by
  obtain ⟨j, m, at_, here, shared, calm⟩ :=
    table_spec there (Rf.has flags Rf.cnameg) (Rf.has flags Rf.nameg)
  rcases made : k.table (some i) (Rf.has flags Rf.cnameg) (Rf.has flags Rf.nameg) with ⟨ns', k1⟩
  rw [made] at at_ here calm
  simp only at at_ here calm
  subst at_
  have inherited : k.noattach (some i) = ns.noattach := by
    simp [noattach, there]
  have own := Rf.has_or flags Rf.nameg Rf.cnameg
  rw [Bool.or_comm] at own
  obtain ⟨m1, here1, kept, calm1⟩ : ∃ m1,
      (if Rf.has flags (Rf.nameg ||| Rf.cnameg) then k1.setNoattach (some j) ns.noattach
        else k1).spaces[j]? = some m1 ∧ (ns.noattach = true → m1.noattach = true) ∧
      Calm k (if Rf.has flags (Rf.nameg ||| Rf.cnameg) then k1.setNoattach (some j) ns.noattach
        else k1) := by
    split_ifs with new
    · refine ⟨_, setNoattach_get here _, ?_, trans_of Calm calm (calm_setNoattach ..)⟩
      intro flag
      simp [Ns.setNoattach, flag]
    · rw [Bool.not_eq_true] at new
      obtain ⟨_, same⟩ := shared (by rw [← own, new])
      exact ⟨m, here, by rw [same]; exact id, calm⟩
  have answer : k.forkNs (some i) flags = (some j, if Rf.has flags Rf.nomnt then
      (if Rf.has flags (Rf.nameg ||| Rf.cnameg) then k1.setNoattach (some j) ns.noattach
        else k1).setNoattach (some j) true else
      if Rf.has flags (Rf.nameg ||| Rf.cnameg) then k1.setNoattach (some j) ns.noattach
        else k1) := by
    simp only [forkNs, made, inherited]
  rw [answer]
  generalize (if Rf.has flags (Rf.nameg ||| Rf.cnameg) then k1.setNoattach (some j) ns.noattach
    else k1) = k2 at here1 calm1
  have place : Rf.has flags (Rf.nameg ||| Rf.cnameg) = false → j = i := by
    intro none
    exact (shared (by rw [← own, none])).1
  split_ifs with asked
  · refine ⟨j, _, rfl, setNoattach_get here1 true, ?_, ?_, place,
      trans_of Calm calm1 (calm_setNoattach ..)⟩
    · intro _
      simp [Ns.setNoattach]
    · intro _
      simp [Ns.setNoattach]
  · exact ⟨j, m1, rfl, here1, kept, fun yes => absurd yes asked, place, calm1⟩

theorem done_sysrfork (k : NameKernel) (p flags : Nat) :
    (k.sysrfork p flags).2.attached = k.attached ∧ (k.sysrfork p flags).2.servers = k.servers ∧
    (k.sysrfork p flags).2.commands = k.commands := by
  unfold sysrfork
  split
  · exact ⟨rfl, rfl, rfl⟩
  · exact ⟨rfl, rfl, rfl⟩
  · rename_i me _ _
    have others := k.forkNs_others me.ns flags
    simp only
    split_ifs <;> exact others.2

end NameKernel

/-- The kernel, and which processes are in a sandbox: those that have set `RFNOMNT`, for
themselves or for the child they made, and every child made since by one of them. -/
structure Sandboxes where
  kern : NameKernel
  boxed : Nat → Bool

namespace Sandboxes

def boot (slash : Rc Chan) : Sandboxes where
  kern :=
    { procs := fun p => if p = 1 then some ⟨some 0, slash, some slash, false⟩ else none
      next := 2
      spaces := [(Ns.new Ids.boot).1]
      ids := (Ns.new Ids.boot).2
      attached := []
      servers := []
      commands := [] }
  boxed := fun _ => false

def boxes (boxed : Nat → Bool) (p : Nat) (c : NameCall) (answer : Except String (Option Nat)) :
    Nat → Bool :=
  match c, answer with
  | .rfork flags, .ok none => fun q => boxed q || (q == p && Rf.has flags Rf.nomnt)
  | .rfork flags, .ok (some child) => fun q =>
      boxed q || (q == child && (boxed p || Rf.has flags Rf.nomnt)) ||
        (q == p && Rf.has flags Rf.nomnt && !Rf.has flags (Rf.nameg ||| Rf.cnameg))
  | _, _ => boxed

/-- A call of a process that is not exiting. -/
def act (r : Sandboxes) (p : Nat) (c : NameCall) (w : World) : Option Sandboxes :=
  match r.kern.procs p with
  | some ⟨_, _, _, false⟩ =>
      some ⟨(r.kern.call w p c).2, boxes r.boxed p c (r.kern.call w p c).1⟩
  | _ => none

def system : System Sandboxes (Nat × NameCall × World) where
  init r := ∃ slash, r = boot slash
  step r a r' := r.act a.1 a.2.1 a.2.2 = some r'

/-- Every process that runs is in a namespace, and those in a sandbox in one with the flag. -/
structure Inv (r : Sandboxes) : Prop where
  made : ∀ p, r.boxed p = true ∨ (r.kern.procs p).isSome = true → p < r.kern.next
  shut : ∀ p q, r.kern.procs p = some q → q.exiting = false → ∃ i ns, q.ns = some i ∧
    r.kern.spaces[i]? = some ns ∧ (r.boxed p = true → ns.noattach = true)

variable {r r' : Sandboxes} {p : Nat} {c : NameCall} {w : World}

theorem Inv.calm {k' : NameKernel} (inv : Inv r) (calm : NameKernel.Calm r.kern k') :
    Inv ⟨k', r.boxed⟩ where
  made := by
    intro p is
    have same := congrArg Option.isSome (calm.procs p)
    rw [Option.isSome_map, Option.isSome_map] at same
    rw [calm.next]
    apply inv.made p
    rwa [← same]
  shut := by
    intro p q entry runs
    have same := calm.procs p
    simp only at entry
    rw [entry, Option.map_some, eq_comm, Option.map_eq_some_iff] at same
    obtain ⟨q0, entry0, same⟩ := same
    rw [Prod.mk.injEq] at same
    obtain ⟨i, ns, of, there, flag⟩ := inv.shut p q0 entry0 (same.2.trans runs)
    obtain ⟨ns', there', kept⟩ := calm.spaces i ns there
    exact ⟨i, ns', same.1.symm.trans of, there', fun boxed => kept (flag boxed)⟩

theorem Inv.exits (inv : Inv r) (p : Nat) : Inv ⟨r.kern.exits p, r.boxed⟩ where
  made := by
    intro p' is
    apply inv.made p'
    refine is.imp_right ?_
    intro some
    by_cases same : p' = p
    · subst same
      simpa [NameKernel.exits, NameKernel.edit] using some
    · simpa [NameKernel.exits, NameKernel.edit, update_of_ne same] using some
  shut := by
    intro p' q entry runs
    by_cases same : p' = p
    · subst same
      simp only [NameKernel.exits, NameKernel.edit, update_self,
        Option.map_eq_some_iff] at entry
      obtain ⟨q0, _, rfl⟩ := entry
      cases runs
    · simp only [NameKernel.exits, NameKernel.edit, update_of_ne same] at entry
      exact inv.shut p' q entry runs

section Fork

variable {boxed : Nat → Bool} {k : NameKernel} {j : Nat} {m : Ns} {nomnt own : Bool}

theorem Inv.forkself (inv : Inv ⟨k, boxed⟩) (known : p < k.next) (here : k.spaces[j]? = some m)
    (flag : boxed p = true ∨ nomnt = true → m.noattach = true) :
    Inv ⟨k.edit p fun me => { me with ns := some j }, fun q => boxed q || (q == p && nomnt)⟩ where
  made := by
    intro p' is
    by_cases same : p' = p
    · rw [same]
      exact known
    · refine inv.made p' ?_
      simpa [same, NameKernel.edit, update_of_ne same] using is
  shut := by
    intro p' q entry runs
    by_cases same : p' = p
    · subst same
      simp only [NameKernel.edit, update_self, Option.map_eq_some_iff] at entry
      obtain ⟨q0, _, rfl⟩ := entry
      refine ⟨j, m, rfl, here, ?_⟩
      simpa using flag
    · simp only [NameKernel.edit, update_of_ne same] at entry
      obtain ⟨i, ns, of, there, flag'⟩ := inv.shut p' q entry runs
      refine ⟨i, ns, of, there, ?_⟩
      simpa [same] using flag'

theorem Inv.forkchild {me : NameProc} (inv : Inv ⟨k, boxed⟩) (entry : k.procs p = some me)
    (here : k.spaces[j]? = some m) (flag : boxed p = true ∨ nomnt = true → m.noattach = true)
    (shared : own = false → me.ns = some j) :
    Inv ⟨{ k with
        procs := update k.procs k.next (some { me with ns := some j, exiting := false })
        next := k.next + 1 },
      fun q => boxed q || (q == k.next && (boxed p || nomnt)) || (q == p && nomnt && !own)⟩ where
  made := by
    intro p' is
    by_cases same : p' = k.next
    · rw [same]
      exact Nat.lt_succ_self _
    · apply Nat.lt_succ_of_lt
      by_cases caller : p' = p
      · rw [caller]
        exact inv.made p (.inr (by rw [entry]; rfl))
      · refine inv.made p' ?_
        simpa [same, caller, update_of_ne same] using is
  shut := by
    intro p' q entry' runs
    have fresh : boxed k.next = false := by
      by_contra old
      exact Nat.lt_irrefl _ (inv.made k.next (.inl (by simpa using old)))
    have caller : p ≠ k.next := by
      rintro rfl
      exact Nat.lt_irrefl _ (inv.made k.next (.inr (by rw [entry]; rfl)))
    by_cases same : p' = k.next
    · subst same
      simp only [update_self, Option.some.injEq] at entry'
      subst entry'
      refine ⟨j, m, rfl, here, ?_⟩
      simpa [fresh, caller.symm] using flag
    · simp only [update_of_ne same] at entry'
      obtain ⟨i, ns, of, there, flag'⟩ := inv.shut p' q entry' runs
      refine ⟨i, ns, of, there, ?_⟩
      intro is
      simp only [Bool.or_eq_true, Bool.and_eq_true, beq_iff_eq, Bool.not_eq_true'] at is
      rcases is with (old | ⟨is, _⟩) | ⟨⟨rfl, asked⟩, none⟩
      · exact flag' old
      · exact absurd is same
      · have one : me = q := Option.some.inj (entry.symm.trans entry')
        subst one
        have place : j = i := Option.some.inj ((shared none).symm.trans of)
        subst place
        rw [← Option.some.inj (here.symm.trans there)]
        exact flag (.inr asked)

end Fork

theorem Inv.rfork {me : NameProc} (inv : Inv r) (entry : r.kern.procs p = some me)
    (runs : me.exiting = false) (flags : Nat) :
    Inv ⟨(r.kern.sysrfork p flags).2,
      boxes r.boxed p (.rfork flags) (r.kern.sysrfork p flags).1⟩ := by
  rcases valid : Procs.rforkcheck flags with e | _
  · simp only [NameKernel.sysrfork, valid]
    exact inv
  obtain ⟨i, ns, of, there, flag⟩ := inv.shut p me entry runs
  obtain ⟨j, m, at_, here, kept, asked, shared, calm⟩ := NameKernel.forkNs_spec there flags
  have old := inv.calm calm
  have procs := (r.kern.forkNs_others (some i) flags).1
  have next := calm.next
  have new : r.boxed p = true ∨ Rf.has flags Rf.nomnt = true → m.noattach = true := by
    rintro (boxed | nomnt)
    · exact kept (flag boxed)
    · exact asked nomnt
  rcases made : r.kern.forkNs (some i) flags with ⟨ns', k'⟩
  rw [made] at at_ here calm old next procs
  simp only at at_ here calm old next procs
  subst at_
  rcases child : Rf.has flags Rf.proc with _ | _
  · have answer : r.kern.sysrfork p flags =
        (.ok none, k'.edit p fun me => { me with ns := some j }) := by
      simp [NameKernel.sysrfork, valid, entry, of, made, child]
    rw [answer]
    refine old.forkself ?_ here new
    rw [next]
    exact inv.made p (.inr (by rw [entry]; rfl))
  · have answer : r.kern.sysrfork p flags = (.ok (some k'.next), { k' with
        procs := update k'.procs k'.next
          (some { me with ns := some j, exiting := false })
        next := k'.next + 1 }) := by
      simp [NameKernel.sysrfork, valid, entry, of, made, child, next]
    rw [answer]
    refine old.forkchild (by rw [procs, entry]) here new ?_
    intro none
    rw [of, shared none]

theorem act_inv (inv : Inv r) (step : r.act p c w = some r') : Inv r' := by
  unfold act at step
  split at step
  case h_2 => cases step
  case h_1 me slash dot entry =>
    cases step
    by_cases fork : ∃ flags, c = .rfork flags
    · obtain ⟨flags, rfl⟩ := fork
      exact inv.rfork entry rfl flags
    have same : boxes r.boxed p c (r.kern.call w p c).1 = r.boxed := by
      unfold boxes
      split
      · exact absurd ⟨_, rfl⟩ fork
      · exact absurd ⟨_, rfl⟩ fork
      · rfl
    rw [same]
    by_cases exits : c = .exits
    · subst exits
      exact inv.exits p
    · exact inv.calm (r.kern.tame_call w p c (fun flags is => fork ⟨flags, is⟩) exits).calm

theorem inv_reachable (reached : system.Reachable r) : Inv r := by
  apply reached.invariant Inv
  · rintro _ ⟨slash, rfl⟩
    constructor
    · intro p is
      simp only [boot, Bool.false_eq_true, false_or] at is
      split_ifs at is with one
      · rw [one]
        exact Nat.lt_succ_self _
      · cases is
    · intro p q entry _
      simp only [boot] at entry
      split_ifs at entry
      cases entry
      exact ⟨0, _, rfl, rfl, fun boxed => by cases boxed⟩
  · intro r a r' inv _ step
    exact act_inv inv step

/-- Whatever a process in a sandbox calls, in whatever world: it attaches no device but those
of the sandbox, no server, and starts no command; and every call that asks for one of these
fails. -/
theorem sandbox_one_way (reached : system.Reachable r) {q : NameProc} (boxed : r.boxed p = true)
    (entry : r.kern.procs p = some q) (runs : q.exiting = false) (c : NameCall) (w : World) :
    (∃ l, (r.kern.call w p c).2.attached = r.kern.attached ++ l ∧
      ∀ e ∈ l, (e.2 : DevId).letter ∈ sandbox) ∧
    (r.kern.call w p c).2.servers = r.kern.servers ∧
    (r.kern.call w p c).2.commands = r.kern.commands ∧
    (c.Outside → ∃ e, (r.kern.call w p c).1 = .error e) := by
  obtain ⟨i, ns, of, there, flag⟩ := (inv_reachable reached).shut p q entry runs
  have shut : r.kern.Shut p := ⟨q, i, ns, entry, of, there, flag boxed⟩
  by_cases fork : ∃ flags, c = .rfork flags
  · obtain ⟨flags, rfl⟩ := fork
    obtain ⟨attached, servers, commands⟩ := r.kern.done_sysrfork p flags
    exact ⟨⟨[], by simp [NameKernel.call, attached], by simp⟩, servers, commands,
      fun outside => NameKernel.fails_call shut outside⟩
  by_cases exits : c = .exits
  · subst exits
    exact ⟨⟨[], by simp [NameKernel.call, NameKernel.exits, NameKernel.edit], by simp⟩, rfl, rfl,
      fun outside => NameKernel.fails_call shut outside⟩
  · have tame := r.kern.tame_call w p c (fun flags is => fork ⟨flags, is⟩) exits
    exact ⟨tame.attached shut, tame.servers shut, tame.commands shut,
      fun outside => NameKernel.fails_call shut outside⟩

def bare : World where
  attach dev spec := .ok (Chan.attachSpec dev 0 spec)
  namec _ := .error enonexist
  fdtochan := .ok ()
  dmount := .error enonexist
  kept := false
  opened := .ok ()
  is _ := false

def root : Rc Chan := ⟨0, Chan.attach .root 0⟩

def shutIn : Sandboxes where
  kern := ((boot root).kern.call bare 1 (.rfork Rf.nomnt)).2
  boxed := boxes (boot root).boxed 1 (.rfork Rf.nomnt)
    ((boot root).kern.call bare 1 (.rfork Rf.nomnt)).1

theorem sandbox_one_way_srv : system.Reachable shutIn ∧ shutIn.boxed 1 = true ∧
    shutIn.kern.procs 1 = some ⟨some 0, root, some root, false⟩ ∧
    (NameCall.path .open "#s/boot").Outside ∧
    ∃ e, (shutIn.kern.call bare 1 (.path .open "#s/boot")).1 = .error e := by
  have reached : system.Reachable shutIn :=
    .step (a := (1, .rfork Rf.nomnt, bare)) (.init ⟨root, rfl⟩) trivial rfl
  have boxed : shutIn.boxed 1 = true := by decide
  have entry : shutIn.kern.procs 1 = some ⟨some 0, root, some root, false⟩ := rfl
  have outside : (NameCall.path .open "#s/boot").Outside := by
    refine ⟨"#s/boot", List.mem_singleton.2 rfl, by decide, ?_⟩
    intro dev named
    have srv : attaches "#s/boot" = some .srv := by decide
    rw [srv] at named
    cases named
    decide
  exact ⟨reached, boxed, entry, outside,
    (sandbox_one_way reached boxed entry rfl (.path .open "#s/boot") bare).2.2.2 outside⟩

end Sandboxes

end Ipnx.Name
