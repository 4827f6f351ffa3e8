import Ipnx.Host.Store
import Ipnx.Lib.System

/-!
# No way out of the root

Names come in by walks, creations and renames, and each is joined with a path kept from before;
what is kept or handed to the keeper has gone through `real` first, or was kept. So every path
is relative and normal over any messages. The keeper here is any keeper that also writes down
the paths it is handed.
-/

namespace Ipnx.Host

open List
open Ipnx.Ninep (W R Msg T)
open Prog (Ensures ensures_pure ensures_throw ensures_get ensures_modify ensures_ite)

/-- A keeper that also writes down the paths it is handed. -/
def Backend.logged {B : Type} (k : Backend B) : Backend (B × List Path) where
  stat b p := ((k.stat b.1 p).1, (k.stat b.1 p).2, b.2 ++ [p])
  list b p := ((k.list b.1 p).1, (k.list b.1 p).2, b.2 ++ [p])
  read b p off n := ((k.read b.1 p off n).1, (k.read b.1 p off n).2, b.2 ++ [p])
  write b p off data := ((k.write b.1 p off data).1, (k.write b.1 p off data).2, b.2 ++ [p])
  truncate b p len := ((k.truncate b.1 p len).1, (k.truncate b.1 p len).2, b.2 ++ [p])
  mkdir b p perm := ((k.mkdir b.1 p perm).1, (k.mkdir b.1 p perm).2, b.2 ++ [p])
  mkfile b p perm := ((k.mkfile b.1 p perm).1, (k.mkfile b.1 p perm).2, b.2 ++ [p])
  chmod b p perm := ((k.chmod b.1 p perm).1, (k.chmod b.1 p perm).2, b.2 ++ [p])
  touch b p mtime := ((k.touch b.1 p mtime).1, (k.touch b.1 p mtime).2, b.2 ++ [p])
  rename b p q := ((k.rename b.1 p q).1, (k.rename b.1 p q).2, b.2 ++ [p, q])
  remove b p := ((k.remove b.1 p).1, (k.remove b.1 p).2, b.2 ++ [p])

/-- A keeper with a file of every name, to which everything may be done. -/
def willing : Backend Unit where
  stat _ p := (some ⟨decide (p = []), false, 0o777, 0, 0, 0, 1⟩, ())
  list _ _ := ([], ())
  read _ _ _ _ := (.ok [], ())
  write _ _ _ _ := (.ok (), ())
  truncate _ _ _ := (.ok (), ())
  mkdir _ _ _ := (.ok (), ())
  mkfile _ _ _ := (.ok (), ())
  chmod _ _ _ := (.ok (), ())
  touch _ _ _ := (.ok (), ())
  rename _ _ _ := (.ok (), ())
  remove _ _ := (.ok (), ())

/-- Calls with normal paths keep what is said of the keeper's state. -/
structure Backend.Guarded {B : Type} (k : Backend B) (J : B → Prop) : Prop where
  stat : ∀ b p, p.Normal → J b → J (k.stat b p).2
  list : ∀ b p, p.Normal → J b → J (k.list b p).2
  read : ∀ b p off n, p.Normal → J b → J (k.read b p off n).2
  write : ∀ b p off data, p.Normal → J b → J (k.write b p off data).2
  truncate : ∀ b p len, p.Normal → J b → J (k.truncate b p len).2
  mkdir : ∀ b p perm, p.Normal → J b → J (k.mkdir b p perm).2
  mkfile : ∀ b p perm, p.Normal → J b → J (k.mkfile b p perm).2
  chmod : ∀ b p perm, p.Normal → J b → J (k.chmod b p perm).2
  touch : ∀ b p mtime, p.Normal → J b → J (k.touch b p mtime).2
  rename : ∀ b p q, p.Normal → q.Normal → J b → J (k.rename b p q).2
  remove : ∀ b p, p.Normal → J b → J (k.remove b p).2

theorem normal_nil : Path.Normal [] := fun c member => by cases member

theorem normal_concat {p : Path} (normal : p.Normal) (n : String) :
    Path.Normal (p ++ [.normal n]) := by
  intro c member
  rcases mem_append.1 member with old | new
  · exact normal c old
  · exact ⟨n, mem_singleton.1 new⟩

theorem foldlM_keeps {α β : Type} {keeps : β → Prop} {f : β → α → Option β}
    (step : ∀ b a b', keeps b → f b a = some b' → keeps b') (l : List α) {b b' : β}
    (first : keeps b) (folded : l.foldlM f b = some b') : keeps b' := by
  induction l generalizing b with
  | nil =>
      cases folded
      exact first
  | cons a l ih =>
      rw [foldlM_cons] at folded
      cases next : f b a with
      | none =>
          rw [next] at folded
          cases folded
      | some b₁ =>
          rw [next] at folded
          exact ih (step b a b₁ first next) folded

theorem real_normal {p q : Path} (inside : real p = some q) : q.Normal := by
  rw [real] at inside
  refine foldlM_keeps ?_ p normal_nil inside
  intro out part out' normal next
  cases part with
  | normal n =>
      cases next
      exact normal_concat normal n
  | curDir =>
      cases next
      exact normal
  | rootDir => cases next
  | parentDir =>
      dsimp only at next
      split_ifs at next
      cases next
      exact fun c member => normal c (dropLast_subset _ member)

namespace Store

variable {B : Type} {k : Backend B} {J : B → Prop} {s : Store B}

/-- The paths of the fids are normal, and the keeper's state is as said. -/
structure Safe (J : B → Prop) (s : Store B) : Prop where
  paths : ∀ fid f, s.fids fid = some f → f.path.Normal
  kept : J s.files

variable {α : Type} {P : α → Prop}

theorem ask_safe {call : B → α × B} (keeps : ∀ b, J b → J (call b).2) :
    Ensures (Safe J) (ask call) fun _ => True := by
  apply Ensures.bind ensures_get
  intro s safe
  apply Ensures.bind (ensures_modify _)
  · intro _ _
    exact ensures_pure trivial
  · intro s safe
    exact ⟨safe.paths, keeps _ safe.kept⟩

theorem must_safe {call : B → Except String α × B} (keeps : ∀ b, J b → J (call b).2) :
    Ensures (Safe J) (must call) fun _ => True := by
  apply Ensures.bind (ask_safe keeps)
  rintro (e | a) _
  · exact ensures_throw e
  · exact ensures_pure trivial

theorem tell_safe {call : B → α × B} (keeps : ∀ b, J b → J (call b).2) :
    Ensures (Safe J) (tell call) fun _ => True := by
  apply Ensures.bind (ask_safe keeps)
  intro _ _
  exact ensures_pure trivial

theorem refuse_safe (c : Prop) [Decidable c] (e : String) :
    Ensures (Safe J) (refuse c e : Serve B _) fun _ => True := by
  rw [refuse]
  split_ifs
  · exact ensures_throw e
  · exact ensures_pure trivial

theorem onlyIf_safe {c : Prop} [Decidable c] {m : Serve B Unit}
    (done : Ensures (Safe J) m fun _ => True) : Ensures (Safe J) (onlyIf c m) fun _ => True := by
  rw [onlyIf]
  split_ifs
  · exact done
  · exact ensures_pure trivial

theorem parse_safe (r : R α) (b : Bytes) (e : String) :
    Ensures (Safe J) (parse r b e) fun _ => True := by
  rw [parse]
  rcases r.on b with ⟨_ | a, rest⟩
  · exact ensures_throw e
  · exact ensures_pure trivial

theorem lookup_safe (fid : UInt32) : Ensures (Safe J) (lookup fid) fun f => f.path.Normal := by
  apply Ensures.bind ensures_get
  intro s safe
  rcases there : s.fids fid with _ | f
  · exact ensures_throw _
  · exact ensures_pure (safe.paths fid f there)

theorem stat_safe (guarded : k.Guarded J) (rel : Path) :
    Ensures (Safe J) (stat k rel) fun md => md.isSome = true → (real rel).isSome = true := by
  rw [stat]
  rcases inside : real rel with _ | p
  · exact ensures_pure (by simp)
  · apply (ask_safe fun b held => guarded.stat b p (real_normal inside) held).weaken
    intro _ _ _
    rfl

theorem statOr_safe (guarded : k.Guarded J) (rel : Path) (e : String) :
    Ensures (Safe J) (statOr k rel e) fun _ => True := by
  apply Ensures.bind (stat_safe guarded rel)
  rintro (_ | md) _
  · exact ensures_throw e
  · exact ensures_pure trivial

theorem dirof_safe (guarded : k.Guarded J) (rel : Path) (name : String) :
    Ensures (Safe J) (dirof k rel name) fun _ => True := by
  apply Ensures.bind (stat_safe guarded rel)
  rintro (_ | md) _
  · exact ensures_pure trivial
  · apply Ensures.bind ensures_get
    intro _ _
    exact ensures_pure trivial

theorem insert_safe (fid : UInt32) {f : Fid} (normal : f.path.Normal) (safe : Safe J s) :
    Safe J (s.insert fid f) where
  paths := by
    intro fid' f' there
    rw [insert] at there
    dsimp only at there
    rw [Function.update_apply] at there
    split_ifs at there
    · cases there
      exact normal
    · exact safe.paths fid' f' there
  kept := safe.kept

theorem edit_safe (fid : UInt32) {g : Fid → Fid}
    (normal : ∀ f, f.path.Normal → (g f).path.Normal) (safe : Safe J s) :
    Safe J (s.edit fid g) where
  paths := by
    intro fid' f' there
    rw [edit] at there
    dsimp only at there
    rw [Function.update_apply] at there
    split_ifs at there
    · rcases Option.map_eq_some_iff.1 there with ⟨f, old, rfl⟩
      exact normal f (safe.paths fid f old)
    · exact safe.paths fid' f' there
  kept := safe.kept

theorem erase_safe (fid : UInt32) (safe : Safe J s) : Safe J (s.erase fid) where
  paths := by
    intro fid' f' there
    rw [erase] at there
    dsimp only at there
    rw [Function.update_apply] at there
    split_ifs at there
    exact safe.paths fid' f' there
  kept := safe.kept

variable (b : Bytes)

theorem version_safe : Ensures (Safe J) (version b : Serve B _) fun _ => True :=
  ensures_pure trivial

theorem setUname_safe (u : Option String) : Ensures (Safe J) (setUname u : Serve B _)
    fun _ => True :=
  ensures_modify fun _ safe => ⟨safe.paths, safe.kept⟩

section Guarded

variable (guarded : k.Guarded J)

include guarded

theorem attach_safe : Ensures (Safe J) (attach k b) fun _ => True := by
  apply Ensures.bind (parse_safe _ _ _)
  rintro ⟨fid, rest⟩ _
  apply Ensures.bind (setUname_safe _)
  intro _ _
  apply Ensures.bind (ensures_modify fun s safe => insert_safe fid normal_nil safe)
  intro _ _
  apply Ensures.bind (statOr_safe guarded _ _)
  intro _ _
  exact ensures_pure trivial

theorem walkNames_safe (n : Nat) (at_ : Path) (qids : List _)
    (normal : at_.Normal) : Ensures (Safe J) (walkNames k n at_ qids b) fun r => r.1.Normal := by
  induction n generalizing at_ qids b with
  | zero => exact ensures_pure normal
  | succ n ih =>
      apply Ensures.bind (parse_safe _ _ _)
      rintro ⟨name, rest⟩ _
      apply Ensures.bind (stat_safe guarded _)
      rintro (_ | md) inside
      · exact ensures_pure normal
      · rcases Option.isSome_iff_exists.1 (inside rfl) with ⟨q, here⟩
        apply ih
        rw [here]
        exact real_normal here

theorem walk_safe : Ensures (Safe J) (walk k b) fun _ => True := by
  apply Ensures.bind (parse_safe _ _ _)
  rintro ⟨⟨src, newfid, n⟩, rest⟩ _
  apply Ensures.bind (lookup_safe src)
  intro start normal
  apply Ensures.bind (walkNames_safe rest guarded n.toNat start.path [] normal)
  rintro ⟨at_, qids⟩ inside
  apply Ensures.bind (refuse_safe _ _)
  intro _ _
  apply Ensures.bind
  · exact onlyIf_safe (ensures_modify fun s safe => insert_safe newfid inside safe)
  intro _ _
  exact ensures_pure trivial

theorem topen_safe : Ensures (Safe J) (topen k b) fun _ => True := by
  apply Ensures.bind (parse_safe _ _ _)
  rintro ⟨⟨fid, mode⟩, _⟩ _
  apply Ensures.bind (lookup_safe fid)
  intro f normal
  have opened : ∀ s : Store B, Safe J s →
      Safe J (s.edit fid fun f => { f with mode := mode, isOpen := true }) := by
    intro s safe
    apply edit_safe fid _ safe
    exact fun _ inside => inside
  apply Ensures.bind (ensures_modify opened)
  intro _ _
  apply Ensures.bind (statOr_safe guarded _ _)
  intro md _
  apply Ensures.bind
  · exact onlyIf_safe (tell_safe fun b held => guarded.truncate b _ 0 normal held)
  intro _ _
  exact ensures_pure trivial

theorem make_safe {next : Path} (normal : next.Normal)
    (perm given : UInt32) : Ensures (Safe J) (make k next perm given) fun _ => True := by
  rw [make]
  split_ifs
  · exact must_safe fun b held => guarded.mkdir b next _ normal held
  · exact must_safe fun b held => guarded.mkfile b next _ normal held

theorem create_safe : Ensures (Safe J) (create k b) fun _ => True := by
  apply Ensures.bind (parse_safe _ _ _)
  rintro ⟨⟨fid, name, perm, mode⟩, _⟩ _
  apply Ensures.bind (lookup_safe fid)
  intro dir _
  rcases here : real (dir.path.join (.new name)) with _ | next
  · exact ensures_throw _
  have normal := real_normal here
  apply Ensures.bind (stat_safe guarded _)
  intro parent _
  apply Ensures.bind (make_safe guarded normal _ _)
  intro _ _
  apply Ensures.bind (statOr_safe guarded _ _)
  intro md _
  apply Ensures.bind (ensures_modify fun s safe => edit_safe fid (fun _ _ => normal) safe)
  intro _ _
  exact ensures_pure trivial

theorem entries_safe (path : Path) (off : UInt64) (count : UInt32)
    (names : List String) (at_ : Nat) (out : Bytes) :
    Ensures (Safe J) (entries k path off count names at_ out) fun _ => True := by
  induction names generalizing at_ out with
  | nil => exact ensures_pure trivial
  | cons name names ih =>
      apply Ensures.bind (dirof_safe guarded _ _)
      rintro (_ | d) _
      · exact ih at_ out
      · dsimp only
        split_ifs
        · exact ih _ out
        · exact ensures_pure trivial
        · exact ih at_ _

theorem contents_safe {path : Path} (normal : path.Normal) (dir : Bool)
    (off : UInt64) (count : UInt32) :
    Ensures (Safe J) (contents k path dir off count) fun _ => True := by
  rw [contents]
  split_ifs
  · apply Ensures.bind (ask_safe fun b held => guarded.list b path normal held)
    intro names _
    exact entries_safe guarded _ _ _ _ _ _
  · exact must_safe fun b held => guarded.read b path off _ normal held

theorem read_safe : Ensures (Safe J) (read k b) fun _ => True := by
  apply Ensures.bind (parse_safe _ _ _)
  rintro ⟨⟨fid, off, count⟩, _⟩ _
  apply Ensures.bind (lookup_safe fid)
  intro f normal
  apply Ensures.bind (statOr_safe guarded _ _)
  intro md _
  apply Ensures.bind (contents_safe guarded normal _ _ _)
  intro _ _
  exact ensures_pure trivial

theorem write_safe : Ensures (Safe J) (write k b) fun _ => True := by
  apply Ensures.bind (parse_safe _ _ _)
  rintro ⟨⟨fid, off, count⟩, rest⟩ _
  apply Ensures.bind (lookup_safe fid)
  intro f normal
  apply Ensures.bind (refuse_safe _ _)
  intro _ _
  apply Ensures.bind (must_safe fun b held => guarded.write b f.path off _ normal held)
  intro _ _
  exact ensures_pure trivial

theorem tstat_safe : Ensures (Safe J) (tstat k b) fun _ => True := by
  apply Ensures.bind (parse_safe _ _ _)
  rintro ⟨fid, _⟩ _
  apply Ensures.bind (lookup_safe fid)
  intro f _
  apply Ensures.bind (dirof_safe guarded _ _)
  rintro (_ | d) _
  · exact ensures_throw _
  · exact ensures_pure trivial

theorem renamed_safe (fid : UInt32) {path : Path} (normal : path.Normal)
    (name : String) : Ensures (Safe J) (renamed k fid path name) Path.Normal := by
  rw [renamed]
  split_ifs
  · exact ensures_pure normal
  rcases here : real (path.withFileName name) with _ | new
  · exact ensures_throw _
  have inside := real_normal here
  dsimp only
  split_ifs
  · exact ensures_pure normal
  · apply Ensures.bind (must_safe fun b held => guarded.rename b path new normal inside held)
    intro _ _
    apply Ensures.bind (ensures_modify fun s safe => edit_safe fid (fun _ _ => inside) safe)
    intro _ _
    exact ensures_pure inside

theorem wstat_safe : Ensures (Safe J) (wstat k b) fun _ => True := by
  apply Ensures.bind (parse_safe _ _ _)
  rintro ⟨⟨fid, n⟩, rest⟩ _
  dsimp only
  rcases Ninep.Dir.convM2D (rest.take n.toNat) with _ | d
  · exact ensures_throw _
  apply Ensures.bind (lookup_safe fid)
  intro f normal
  apply Ensures.bind (statOr_safe guarded _ _)
  intro md _
  apply Ensures.bind (refuse_safe _ _)
  intro _ _
  apply Ensures.bind (refuse_safe _ _)
  intro _ _
  apply Ensures.bind
  · exact onlyIf_safe (must_safe fun b held => guarded.chmod b f.path _ normal held)
  intro _ _
  apply Ensures.bind
  · exact onlyIf_safe (must_safe fun b held => guarded.touch b f.path _ normal held)
  intro _ _
  apply Ensures.bind (renamed_safe guarded fid normal d.name)
  intro path inside
  apply Ensures.bind
  · exact onlyIf_safe (must_safe fun b held => guarded.truncate b path _ inside held)
  intro _ _
  exact ensures_pure trivial

theorem letgo_safe {o : Option Fid} (normal : ∀ f, o = some f → f.path.Normal) :
    Ensures (Safe J) (letgo k o) fun _ => True := by
  rcases o with _ | f
  · exact ensures_pure trivial
  · exact onlyIf_safe (tell_safe fun b held => guarded.remove b f.path (normal f rfl) held)

theorem clunk_safe : Ensures (Safe J) (clunk k b) fun _ => True := by
  apply Ensures.bind ensures_get
  intro s safe
  rcases (R.u32.on b).1 with _ | fid
  · exact ensures_pure trivial
  · apply Ensures.bind (ensures_modify fun s safe => erase_safe fid safe)
    intro _ _
    apply Ensures.bind (letgo_safe guarded (safe.paths fid))
    intro _ _
    exact ensures_pure trivial

theorem remove_safe : Ensures (Safe J) (remove k b) fun _ => True := by
  apply Ensures.bind (parse_safe _ _ _)
  rintro ⟨fid, _⟩ _
  apply Ensures.bind (lookup_safe fid)
  intro f normal
  apply Ensures.bind (ensures_modify fun s safe => erase_safe fid safe)
  intro _ _
  apply Ensures.bind (must_safe fun b held => guarded.remove b f.path normal held)
  intro _ _
  exact ensures_pure trivial

theorem serve_safe (m : Msg) : Ensures (Safe J) (serve k m) fun _ => True := by
  apply ensures_ite (version_safe m.body)
  apply ensures_ite (ensures_throw _)
  apply ensures_ite (attach_safe m.body guarded)
  apply ensures_ite (walk_safe m.body guarded)
  apply ensures_ite (topen_safe m.body guarded)
  apply ensures_ite (create_safe m.body guarded)
  apply ensures_ite (read_safe m.body guarded)
  apply ensures_ite (write_safe m.body guarded)
  apply ensures_ite (tstat_safe m.body guarded)
  apply ensures_ite (wstat_safe m.body guarded)
  apply ensures_ite (ensures_pure trivial)
  apply ensures_ite (clunk_safe m.body guarded)
  apply ensures_ite (remove_safe m.body guarded)
  exact ensures_throw _

theorem rpc_safe (t : Bytes) (safe : Safe J s) : Safe J (rpc k s t).2 := by
  rw [rpc]
  rcases Ninep.unframe t with _ | m
  · exact safe
  · exact (serve_safe guarded m s safe).1

/-- Any messages, one after another, to a server of `files`. -/
def sessions (k : Backend B) (files : B) : System (Store B) Bytes where
  init s := s = new files
  step s t s' := s' = (rpc k s t).2

theorem safe_reachable {files : B} (held : J files)
    (reached : (sessions k files).Reachable s) : Safe J s := by
  apply reached.invariant (Safe J)
  · rintro _ rfl
    refine ⟨?_, held⟩
    intro fid f there
    cases there
  · rintro s t _ safe _ rfl
    exact rpc_safe guarded t safe

end Guarded

theorem logged_guarded (k : Backend B) : k.logged.Guarded fun b => ∀ p ∈ b.2, p.Normal := by
  have add : ∀ {l : List Path} {p : Path}, p.Normal → (∀ q ∈ l, q.Normal) →
      ∀ q ∈ l ++ [p], q.Normal := by
    intro l p normal all q member
    rcases mem_append.1 member with old | new
    · exact all q old
    · rw [mem_singleton.1 new]
      exact normal
  refine ⟨fun _ _ => add, fun _ _ => add, fun _ _ _ _ => add, fun _ _ _ _ => add,
    fun _ _ _ => add, fun _ _ _ => add, fun _ _ _ => add, fun _ _ _ => add, fun _ _ _ => add,
    fun b p q normal normal' all => ?_, fun _ _ => add⟩
  have both := add normal' (add normal all)
  rwa [append_assoc] at both

/-- Whatever keeps the files and whatever is sent, every path in the fid table and every path
the keeper has been handed is relative and made of normal components. -/
theorem store_confined (k : Backend B) (files : B) (s : Store (B × List Path))
    (reached : (sessions k.logged (files, [])).Reachable s) :
    (∀ fid f, s.fids fid = some f → f.path.Normal) ∧ ∀ p ∈ s.files.2, p.Normal := by
  have safe := safe_reachable (logged_guarded k) (by simp) reached
  exact ⟨safe.paths, safe.kept⟩

theorem sessions_foldl {files : B} (ts : List Bytes) (reached : (sessions k files).Reachable s) :
    (sessions k files).Reachable (ts.foldl (fun s t => (rpc k s t).2) s) := by
  induction ts generalizing s with
  | nil => exact reached
  | cons t ts ih => exact ih (reached.step trivial rfl)

/-- Walks, creations and renames by names that climb, that start at the root and that have
slashes. -/
def hostile : List Bytes :=
  [Sent.attach 7, Sent.walk 7 8 ["..", "etc"], Sent.walk 7 8 ["a", "..", "b/../c"],
    Sent.create 8 "/etc/passwd" 0o666 1, Sent.create 8 "../d/e" 0o666 1,
    Sent.rename 8 "/etc/passwd", Sent.rename 8 "../../../etc", Sent.rename 8 "../f"]

/-- What the keeper is handed of them. -/
theorem store_confined_hostile :
    let s := hostile.foldl (fun s t => (rpc willing.logged s t).2) (new ((), []))
    s.files.2 = [[], [.normal "a"], [], [.normal "c"], [.normal "c"], [.normal "d", .normal "e"],
        [.normal "d", .normal "e"], [.normal "d", .normal "e"], [.normal "d", .normal "e"],
        [.normal "d", .normal "e"], [.normal "d", .normal "e"], [.normal "f"]] ∧
      (s.fids 8).map Fid.path = some [.normal "f"] ∧
      (∀ fid f, s.fids fid = some f → f.path.Normal) ∧ ∀ p ∈ s.files.2, p.Normal := by
  intro s
  have reached : (sessions willing.logged ((), [])).Reachable s :=
    sessions_foldl hostile (.init rfl)
  refine ⟨?_, ?_, store_confined willing () s reached⟩
  · decide +kernel
  · decide +kernel

end Store

end Ipnx.Host
