import Ipnx.Host.Store
import Ipnx.Lib.System
import Ipnx.Ninep.Fids

/-!
# The fids of the host's file server

Each handler changes the table at one point, or at none, and everything else it does leaves the
table alone. So does the keeper: a message makes, removes or renames one name at most, and what is
known of the keeper across such a deed is known across the message.
-/

namespace Ipnx.Host

open List
open Ipnx.Ninep (W R Msg T Fids Named Files Reply Turn)
open Prog (Keeps Ends keeps_pure keeps_throw keeps_get keeps_modify keeps_ite ends_ite
  ends_pure ends_throw ends_get ends_modify)
open Function (update update_apply update_eq_self)

/-- What a message has the keeper do to the names. -/
inductive Deed
  | nothing
  | made (p : Path)
  | removed (p : Path)
  | renamed (p q : Path)

namespace Deed

/-- A deed the keeper was asked for, as it answered. -/
def of (x : Deed) : Except String Unit → Deed
  | .ok _ => x
  | .error _ => nothing

def renames : Deed → List (Path × Path)
  | renamed p q => [(p, q)]
  | _ => []

end Deed

/-- What is known of a keeper across its calls, deed by deed. -/
structure Backend.Deeds {B : Type} (k : Backend B) where
  holds : Deed → B → B → Prop
  refl : ∀ b, holds .nothing b b
  before : ∀ {x a b c}, holds .nothing a b → holds x b c → holds x a c
  after : ∀ {x a b c}, holds x a b → holds .nothing b c → holds x a c
  stat : ∀ b p, holds .nothing b (k.stat b p).2
  list : ∀ b p, holds .nothing b (k.list b p).2
  read : ∀ b p off n, holds .nothing b (k.read b p off n).2
  write : ∀ b p off data, holds .nothing b (k.write b p off data).2
  truncate : ∀ b p len, holds .nothing b (k.truncate b p len).2
  mkdir : ∀ b p perm, holds ((Deed.made p).of (k.mkdir b p perm).1) b (k.mkdir b p perm).2
  mkfile : ∀ b p perm, holds ((Deed.made p).of (k.mkfile b p perm).1) b (k.mkfile b p perm).2
  chmod : ∀ b p perm, holds .nothing b (k.chmod b p perm).2
  touch : ∀ b p mtime, holds .nothing b (k.touch b p mtime).2
  rename : ∀ b p q, holds ((Deed.renamed p q).of (k.rename b p q).1) b (k.rename b p q).2
  remove : ∀ b p, holds ((Deed.removed p).of (k.remove b p).1) b (k.remove b p).2

def Fid.named (f : Fid) : Named Path := ⟨f.path, if f.isOpen then some f.mode else none⟩

namespace Store

variable {B : Type}

def table (s : Store B) : Fids Path := fun fid => (s.fids fid).map Fid.named

/-- An open gives the file itself; the child of a name is at the path joined with it. -/
def named : Files Path where
  opened p q := q = p
  child p name q := real (p.join (.new name)) = some q

def answer : Except String (UInt8 × W) → UInt8 × Bytes
  | .ok (ty, w) => (ty, w.body)
  | .error e => (T.error.code, (W.new.s e).body)

@[simp]
theorem table_insert (s : Store B) (fid : UInt32) (f : Fid) :
    (s.insert fid f).table = update s.table fid (some f.named) := by
  funext fid'
  simp only [table, insert, update_apply]
  split_ifs <;> rfl

@[simp]
theorem table_erase (s : Store B) (fid : UInt32) :
    (s.erase fid).table = update s.table fid none := by
  funext fid'
  simp only [table, erase, update_apply]
  split_ifs <;> rfl

theorem table_edit {s : Store B} {fid : UInt32} {f : Fid} (there : s.fids fid = some f)
    (g : Fid → Fid) : (s.edit fid g).table = update s.table fid (some (g f).named) := by
  funext fid'
  simp only [table, edit, update_apply, there]
  split_ifs <;> rfl

variable {α : Type} {k : Backend B} {d : k.Deeds} {x : Deed} {s s' : Store B} {m : Msg}

/-- The keeper did something, and the table is as it was. -/
def Did (d : k.Deeds) (x : Deed) (s s' : Store B) : Prop :=
  s'.fids = s.fids ∧ d.holds x s.files s'.files

def Same (d : k.Deeds) (s s' : Store B) : Prop := Did d .nothing s s'

instance : Std.Refl (Same d) := ⟨fun s => ⟨rfl, d.refl s.files⟩⟩

instance : IsTrans (Store B) (Same d) :=
  ⟨fun _ _ _ first second => ⟨second.1.trans first.1, d.before first.2 second.2⟩⟩

theorem Did.table (did : Did d x s s') : s'.table = s.table := by
  funext fid
  rw [Store.table, Store.table, did.1]

theorem Same.table (same : Same d s s') : s'.table = s.table := Did.table same

theorem Same.then {s₁ : Store B} (same : Same d s s₁) (did : Did d x s₁ s') : Did d x s s' :=
  ⟨did.1.trans same.1, d.before same.2 did.2⟩

theorem Did.then {s₁ : Store B} (did : Did d x s s₁) (same : Same d s₁ s') : Did d x s s' :=
  ⟨same.1.trans did.1, d.after did.2 same.2⟩

theorem ask_same {call : B → α × B} (quiet : ∀ b, d.holds .nothing b (call b).2) :
    Keeps (Same d) (ask call) := by
  refine Keeps.bind keeps_get ?_
  intro _
  refine Keeps.bind (keeps_modify ?_) fun _ => keeps_pure _
  intro s
  exact ⟨rfl, quiet s.files⟩

theorem must_same {call : B → Except String α × B}
    (quiet : ∀ b, d.holds .nothing b (call b).2) : Keeps (Same d) (must call) := by
  apply Keeps.bind (ask_same quiet)
  rintro (e | a)
  · exact keeps_throw e
  · exact keeps_pure a

theorem tell_same {call : B → α × B} (quiet : ∀ b, d.holds .nothing b (call b).2) :
    Keeps (Same d) (tell call) :=
  Keeps.bind (ask_same quiet) fun _ => keeps_pure _

theorem refuse_same (c : Prop) [Decidable c] (e : String) :
    Keeps (Same d) (refuse c e : Serve B _) :=
  keeps_ite (keeps_throw e) (keeps_pure _)

theorem onlyIf_same {c : Prop} [Decidable c] {m : Serve B Unit} (keeps : Keeps (Same d) m) :
    Keeps (Same d) (onlyIf c m) :=
  keeps_ite keeps (keeps_pure _)

theorem parse_same (r : R α) (b : Bytes) (e : String) :
    Keeps (Same d) (parse r b e : Serve B _) := by
  rw [parse]
  rcases r.on b with ⟨_ | a, rest⟩
  · exact keeps_throw e
  · exact keeps_pure _

theorem lookup_same (fid : UInt32) : Keeps (Same d) (lookup fid : Serve B _) := by
  refine Keeps.bind keeps_get ?_
  intro s
  rcases s.fids fid with _ | f
  · exact keeps_throw _
  · exact keeps_pure f

theorem stat_same (rel : Path) : Keeps (Same d) (stat k rel) := by
  rw [stat]
  rcases real rel with _ | p
  · exact keeps_pure _
  · exact ask_same fun b => d.stat b p

theorem statOr_same (rel : Path) (e : String) : Keeps (Same d) (statOr k rel e) := by
  apply Keeps.bind (stat_same rel)
  rintro (_ | md)
  · exact keeps_throw e
  · exact keeps_pure md

theorem dirof_same (rel : Path) (name : String) : Keeps (Same d) (dirof k rel name) := by
  apply Keeps.bind (stat_same rel)
  rintro (_ | md)
  · exact keeps_pure _
  · exact Keeps.bind keeps_get fun _ => keeps_pure _

theorem entries_same (path : Path) (off : UInt64) (count : UInt32) (names : List String)
    (at_ : Nat) (out : Bytes) : Keeps (Same d) (entries k path off count names at_ out) := by
  induction names generalizing at_ out with
  | nil => exact keeps_pure out
  | cons name names ih =>
      apply Keeps.bind (dirof_same _ _)
      rintro (_ | e)
      · exact ih at_ out
      · exact keeps_ite (ih _ out) (keeps_ite (keeps_pure out) (ih at_ _))

theorem contents_same (path : Path) (dir : Bool) (off : UInt64) (count : UInt32) :
    Keeps (Same d) (contents k path dir off count) := by
  apply keeps_ite
  · apply Keeps.bind (ask_same fun b => d.list b path)
    intro names
    exact entries_same _ _ _ _ _ _
  · exact must_same fun b => d.read b path off _

variable {G : Unit → Store B → Prop} {E : String → Store B → Prop}

theorem must_did {call : B → Except String Unit × B}
    (does : ∀ b, d.holds (x.of (call b).1) b (call b).2) :
    Ends (must call) s (fun _ s' => Did d x s s') fun _ s' => Same d s s' := by
  have done := does s.files
  apply Ends.bind
  apply Ends.get
  apply Ends.modify
  apply ends_pure
  rcases answered : (call s.files).1 with e | _ <;> rw [answered] at done
  · exact ends_throw ⟨rfl, done⟩
  · exact ends_pure ⟨rfl, done⟩

theorem make_did (next : Path) (perm given : UInt32) :
    Ends (make k next perm given) s (fun _ s' => Did d (.made next) s s')
      fun _ s' => Same d s s' := by
  apply ends_ite
  · intro _
    exact must_did fun b => d.mkdir b next _
  · intro _
    exact must_did fun b => d.mkfile b next _

theorem tell_did {call : B → Except String Unit × B}
    (does : ∀ b, d.holds (x.of (call b).1) b (call b).2) (plain : x.renames = []) :
    Ends (tell call) s (fun _ s' => ∃ y, y.renames = [] ∧ Did d y s s') E := by
  have done := does s.files
  apply Ends.bind
  apply Ends.get
  apply Ends.modify
  apply ends_pure
  apply ends_pure
  refine ⟨_, ?_, rfl, done⟩
  rcases (call s.files).1 with e | _
  · rfl
  · exact plain

theorem letgo_did (o : Option Fid) :
    Ends (letgo k o) s (fun _ s' => ∃ y, y.renames = [] ∧ Did d y s s') E := by
  rcases o with _ | f
  · exact ends_pure ⟨.nothing, rfl, refl_of (Same d) s⟩
  apply ends_ite
  · intro _
    exact tell_did (fun b => d.remove b f.path) rfl
  · intro _
    exact ends_pure ⟨.nothing, rfl, refl_of (Same d) s⟩

/-- What the keeper did, the answer and the table fit the message. -/
def Took (d : k.Deeds) (m : Msg) (s : Store B) (r : UInt8 × Bytes) (s' : Store B) : Prop :=
  ∃ x, d.holds x s.files s'.files ∧ Turn named m (some r) x.renames s.table s'.table

/-- A handler done, or an error where there may be none. -/
abbrev Answers (d : k.Deeds) (m : Msg) (s : Store B) (h : Serve B (UInt8 × W))
    (E : String → Store B → Prop) : Prop :=
  Ends h s (fun a s' => Took d m s (a.1, a.2.body) s') E

def Failed (d : k.Deeds) (s : Store B) (_ : String) (s' : Store B) : Prop := Same d s s'

theorem took_did {r : UInt8 × Bytes} (did : Did d x s s')
    (turn : Turn named m (some r) x.renames s.table s.table) : Took d m s r s' := by
  refine ⟨x, did.2, ?_⟩
  rw [did.table]
  exact turn

theorem took_change {s₀ s₁ : Store B} {r : UInt8 × Bytes} (files : s₁.files = s₀.files)
    (before : Did d x s s₀) (after : Same d s₁ s') (plain : x.renames = [])
    (turn : Turn named m (some r) [] s₀.table s₁.table) : Took d m s r s' := by
  refine ⟨x, ?_, ?_⟩
  · apply d.after before.2
    rw [← files]
    exact after.2
  · rw [after.table, ← before.table, plain]
    exact turn

theorem early_bind {β : Type} {h : Serve B α} {f : α → Serve B β}
    {G : β → Store B → Prop} {s₁ : Store B}
    (early : ∀ e s₂, Same d s s₂ → E e s₂) (keeps : Keeps (Same d) h) (same : Same d s s₁)
    (rest : ∀ a s₂, Same d s s₂ → Ends (f a) s₂ G E) : Ends (h >>= f) s₁ G E := by
  apply Ends.bind
  apply keeps.ends
  · intro a s₂ after
    exact rest a s₂ (trans_of (Same d) same after)
  · intro e s₂ after
    exact early e s₂ (trans_of (Same d) same after)

theorem quiet_bind {β : Type} {h : Serve B α} {f : α → Serve B β} {G : β → Store B → Prop}
    {s₁ : Store B} (keeps : Keeps (Same d) h) (same : Same d s s₁)
    (rest : ∀ a s₂, Same d s s₂ → Ends (f a) s₂ G (Failed d s)) :
    Ends (h >>= f) s₁ G (Failed d s) :=
  early_bind (fun _ _ same => same) keeps same rest

theorem ends_parse {r : R α} {b : Bytes} {e : String} {G : α × Bytes → Store B → Prop}
    (ok : ∀ a rest, r.on b = (some a, rest) → G (a, rest) s) (error : E e s) :
    Ends (parse r b e) s G E := by
  rw [parse]
  rcases read : r.on b with ⟨_ | a, rest⟩
  · exact ends_throw error
  · exact ends_pure (ok a rest read)

theorem ends_lookup {fid : UInt32} {G : Fid → Store B → Prop}
    (ok : ∀ f, s.fids fid = some f → G f s) (error : E "unknown fid" s) :
    Ends (lookup fid) s G E := by
  apply Ends.get
  rcases there : s.fids fid with _ | f
  · exact ends_throw error
  · exact ends_pure (ok f there)

theorem table_of_fids {fid : UInt32} {f : Fid} (there : s.fids fid = some f) :
    s.table fid = some f.named := by
  rw [table, there]
  rfl

/-- What an attach or an open leaves when it fails after its fid was changed, and what a
version leaves. -/
inductive Lapsed (d : k.Deeds) (m : Msg) (s s' : Store B) : Prop
  | version : m.ty = T.version.code → Same d s s' → Lapsed d m s s'
  | attach {fid b} : m.ty = T.attach.code → m.fid = some fid →
      s'.fids = update s.fids fid (some (.walked [])) →
      d.holds .nothing s.files s'.files → d.holds .nothing s.files b →
      (k.stat b []).1 = none → Lapsed d m s s'
  | open {fid mode f} : m.ty = T.open.code → m.opens = some (fid, mode) → s.fids fid = some f →
      s'.fids = update s.fids fid (some ⟨f.path, mode, true⟩) →
      d.holds .nothing s.files s'.files → Lapsed d m s s'

theorem root_ends {e : String} : Ends (statOr k [] e) s (fun _ s' => Same d s s')
    fun _ s' => Same d s s' ∧ (k.stat s.files []).1 = none := by
  have same : Same d s { s with files := (k.stat s.files []).2 } := ⟨rfl, d.stat s.files []⟩
  apply Ends.bind
  apply Ends.get
  apply Ends.modify
  apply ends_pure
  rcases answered : (k.stat s.files []).1 with _ | md
  · exact ends_throw ⟨same, rfl⟩
  · exact ends_pure same

theorem attach_turn (ty : m.ty = T.attach.code) : Answers d m s (attach k m.body)
    fun _ s' => Same d s s' ∨ Lapsed d m s s' := by
  apply Ends.bind
  apply ends_parse _ (Or.inl (refl_of (Same d) s))
  intro fid rest read
  have args : m.fid = some fid := congrArg Prod.fst read
  apply Ends.modify
  apply Ends.modify
  apply Ends.bind
  apply root_ends.mono
  · intro md s' after
    apply ends_pure
    apply took_change _ (refl_of (Same d) s) after rfl
    · rw [table_insert]
      exact Turn.attach ty args
    · rfl
  · rintro e s' ⟨after, none_⟩
    exact Or.inr (Lapsed.attach ty args after.1 after.2 (d.refl s.files) none_)

theorem walkNames_turn (n : Nat) (at_ : Path) (qids : List Name.Qid) (b : Bytes) :
    Ends (walkNames k n at_ qids b) s
      (fun r s' => Same d s s' ∧ r.2.length ≤ qids.length + n) (Failed d s) := by
  induction n generalizing at_ qids b s with
  | zero => exact ends_pure ⟨refl_of (Same d) s, le_rfl⟩
  | succ n ih =>
      apply Ends.bind
      apply ends_parse _ (refl_of (Same d) s)
      intro name rest _
      apply Ends.bind
      apply (stat_same _).ends _ fun _ _ same => same
      rintro (_ | md) s₁ same
      · exact ends_pure ⟨same, by simp⟩
      · apply (ih _ _ _).mono
        · intro r s₂ after
          rw [length_append, length_singleton] at after
          exact ⟨trans_of (Same d) same after.1, by omega⟩
        · intro _ s₂ after
          exact trans_of (Same d) same after

theorem walk_turn (ty : m.ty = T.walk.code) :
    Answers d m s (walk k m.body) (Failed d s) := by
  apply Ends.bind
  apply ends_parse _ (refl_of (Same d) s)
  rintro ⟨src, newfid, n⟩ rest read
  have args : m.walks = some (src, newfid, n) := congrArg Prod.fst read
  apply Ends.bind
  apply ends_lookup _ (refl_of (Same d) s)
  intro start there
  apply Ends.bind
  apply (walkNames_turn _ _ _ _).mono _ fun _ _ same => same
  rintro ⟨at_, qids⟩ s₁ ⟨same, count⟩
  rw [length_nil, Nat.zero_add] at count
  dsimp only at count ⊢
  have bound := n.toNat_lt
  apply quiet_bind (refuse_same _ _) same
  intro _ s₂ before
  apply Ends.bind
  apply ends_ite
  · intro all
    apply ends_modify
    apply ends_pure
    apply took_change _ before (refl_of (Same d) _) rfl
    · rw [table_insert]
      apply Turn.walk ty args
      · rw [before.table]
        exact table_of_fids there
      · rw [Ninep.count_of_walked, all, UInt16.ofNat_toNat]
    · rfl
  · intro short
    apply ends_pure
    apply ends_pure
    apply took_did before
    apply Turn.stopped ty args (Ninep.count_of_walked _ _)
    have fits : qids.length < UInt16.size := by
      rw [UInt16.size]
      omega
    rw [UInt16.lt_iff_toNat_lt, UInt16.toNat_ofNat_of_lt' fits]
    omega

theorem topen_turn (ty : m.ty = T.open.code) : Answers d m s (topen k m.body)
    fun _ s' => Same d s s' ∨ Lapsed d m s s' := by
  apply Ends.bind
  apply ends_parse _ (Or.inl (refl_of (Same d) s))
  rintro ⟨fid, mode⟩ rest read
  have args : m.opens = some (fid, mode) := congrArg Prod.fst read
  apply Ends.bind
  apply ends_lookup _ (Or.inl (refl_of (Same d) s))
  intro f there
  apply Ends.modify
  have late (s' : Store B)
      (after : Same d (s.edit fid fun f => { f with mode := mode, isOpen := true }) s') :
      Same d s s' ∨ Lapsed d m s s' := by
    refine Or.inr (Lapsed.open ty args there ?_ after.2)
    rw [after.1, edit, there]
    rfl
  apply Ends.bind
  apply (statOr_same _ _).ends _ fun _ s' after => late s' after
  intro md s₁ after
  apply Ends.bind
  apply (onlyIf_same (tell_same fun b => d.truncate b f.path 0)).ends
  · intro _ s₂ after'
    apply ends_pure
    apply took_change _ (refl_of (Same d) s) (trans_of (Same d) after after') rfl
    · rw [table_edit there]
      exact Turn.open ty args (table_of_fids there) rfl
    · rfl
  · intro _ s₂ after'
    exact late s₂ (trans_of (Same d) after after')

theorem failed_took {e : String} (other : m.ty ≠ T.remove.code) (did : Did d x s s')
    (plain : x.renames = []) : Took d m s (answer (.error e)) s' := by
  apply took_did did
  rw [plain]
  apply Turn.error
  intro ty
  exact absurd ty other

theorem early_took (other : m.ty ≠ T.remove.code) (e : String) (s' : Store B)
    (same : Same d s s') : Took d m s (answer (.error e)) s' :=
  failed_took other same rfl

theorem create_turn (ty : m.ty = T.create.code) : Answers d m s (create k m.body)
    fun e s' => Took d m s (answer (.error e)) s' := by
  have early := early_took (d := d) (s := s) (by rw [ty]; decide)
  apply Ends.bind
  apply ends_parse _ (early _ _ (refl_of (Same d) s))
  rintro ⟨fid, name, perm, mode⟩ rest read
  apply Ends.bind
  apply ends_lookup _ (early _ _ (refl_of (Same d) s))
  intro dir there
  rcases here : real (dir.path.join (.new name)) with _ | next
  · exact ends_throw (early _ _ (refl_of (Same d) s))
  apply early_bind early (stat_same _) (refl_of (Same d) s)
  intro parent s₁ same₁
  apply Ends.bind
  apply (make_did _ _ _).mono _ fun e s' same => early e s' (trans_of (Same d) same₁ same)
  intro _ s₂ made
  apply Ends.bind
  apply (statOr_same _ _).ends
  · intro md s₃ same₃
    have before := (same₁.then made).then same₃
    have there' : s₃.fids fid = some dir := by
      rw [before.1]
      exact there
    apply Ends.modify
    apply ends_pure
    apply took_change _ before (refl_of (Same d) _) rfl
    · rw [table_edit there']
      apply Turn.create ty
      · exact congrArg Prod.fst read
      · exact table_of_fids there'
      · exact here
    · rfl
  · intro e s₃ same₃
    apply failed_took _ ((same₁.then made).then same₃) rfl
    rw [ty]
    decide

theorem read_turn (ty : m.ty = T.read.code) :
    Answers d m s (read k m.body) (Failed d s) := by
  apply quiet_bind (parse_same _ _ _) (refl_of (Same d) s)
  rintro ⟨⟨fid, off, count⟩, _⟩ s₁ same₁
  apply quiet_bind (lookup_same fid) same₁
  intro f s₂ same₂
  apply quiet_bind (statOr_same _ _) same₂
  intro md s₃ same₃
  apply quiet_bind (contents_same _ _ _ _) same₃
  intro data s₄ same₄
  apply ends_pure
  exact took_did same₄ (Turn.still (t := .read) (by decide) ty)

theorem write_turn (ty : m.ty = T.write.code) :
    Answers d m s (write k m.body) (Failed d s) := by
  apply quiet_bind (parse_same _ _ _) (refl_of (Same d) s)
  rintro ⟨⟨fid, off, count⟩, rest⟩ s₁ same₁
  apply quiet_bind (lookup_same fid) same₁
  intro f s₂ same₂
  apply quiet_bind (refuse_same _ _) same₂
  intro _ s₃ same₃
  apply quiet_bind (must_same fun b => d.write b f.path off _) same₃
  intro _ s₄ same₄
  apply ends_pure
  exact took_did same₄ (Turn.still (t := .write) (by decide) ty)

theorem tstat_turn (ty : m.ty = T.stat.code) :
    Answers d m s (tstat k m.body) (Failed d s) := by
  apply quiet_bind (parse_same _ _ _) (refl_of (Same d) s)
  rintro ⟨fid, _⟩ s₁ same₁
  apply quiet_bind (lookup_same fid) same₁
  intro f s₂ same₂
  apply quiet_bind (dirof_same _ _) same₂
  rintro (_ | d) s₃ same₃
  · exact ends_throw same₃
  · apply ends_pure
    exact took_did same₃ (Turn.still (t := .stat) (by decide) ty)

/-- A rename made through a fid moves it, or nothing happened. -/
def Moved (d : k.Deeds) (fid : UInt32) (s s' : Store B) : Prop :=
  Same d s s' ∨ ∃ f new, s.fids fid = some f ∧ d.holds (.renamed f.path new) s.files s'.files ∧
    s'.table = update s.table fid (some ⟨new, f.named.mode⟩)

theorem renamed_moved {fid : UInt32} {f : Fid} {s₁ : Store B} (there : s.fids fid = some f)
    (same : Same d s s₁) (name : String) :
    Ends (renamed k fid f.path name) s₁ (fun _ s' => Moved d fid s s') (Failed d s) := by
  apply ends_ite
  · intro _
    exact ends_pure (Or.inl same)
  intro _
  rcases real (f.path.withFileName name) with _ | new
  · exact ends_throw same
  apply ends_ite
  · intro _
    exact ends_pure (Or.inl same)
  intro _
  apply Ends.bind
  apply (must_did fun b => d.rename b f.path new).mono _ fun _ _ after =>
    trans_of (Same d) same after
  intro _ s₂ made
  have did := same.then made
  apply Ends.modify
  apply ends_pure
  have there' : s₂.fids fid = some f := by
    rw [did.1]
    exact there
  refine Or.inr ⟨f, new, there, did.2, ?_⟩
  rw [table_edit there', did.table]
  rfl

theorem moved_took {fid : UInt32} {code : UInt8} {body : Bytes} {s₁ : Store B}
    (ty : m.ty = T.wstat.code) (read : m.fid = some fid) (moved : Moved d fid s s₁)
    (after : Same d s₁ s') (replied : code = T.wstat.reply ∨ code = T.error.code) :
    Took d m s (code, body) s' := by
  rcases moved with same | ⟨f, new, there, holds, tab⟩
  · apply took_did (trans_of (Same d) same after)
    rcases replied with rfl | rfl
    · exact Turn.still (t := .wstat) (by decide) ty
    · apply Turn.error
      intro removed
      rw [ty] at removed
      exact absurd removed (by decide)
  · refine ⟨.renamed f.path new, d.after holds after.2, ?_⟩
    rw [after.table, tab]
    exact Turn.renamed ty read (table_of_fids there) replied

theorem wstat_turn (ty : m.ty = T.wstat.code) : Answers d m s (wstat k m.body)
    fun e s' => Took d m s (answer (.error e)) s' := by
  have early := early_took (d := d) (s := s) (by rw [ty]; decide)
  apply Ends.bind
  apply ends_parse _ (early _ _ (refl_of (Same d) s))
  rintro ⟨fid, n⟩ rest read
  rcases Reader.bind_some read with ⟨fid', mid, first, others⟩
  rcases Reader.bind_some others with ⟨n', mid', _, last⟩
  cases last
  have args : m.fid = some fid := congrArg Prod.fst first
  dsimp only
  rcases Ninep.Dir.convM2D (rest.take n.toNat) with _ | e
  · exact ends_throw (early _ _ (refl_of (Same d) s))
  apply Ends.bind
  apply ends_lookup _ (early _ _ (refl_of (Same d) s))
  intro f there
  apply early_bind early (statOr_same _ _) (refl_of (Same d) s)
  intro md s₁ same₁
  apply early_bind early (refuse_same _ _) same₁
  intro _ s₂ same₂
  apply early_bind early (refuse_same _ _) same₂
  intro _ s₃ same₃
  apply early_bind early (onlyIf_same (must_same fun b => d.chmod b f.path _)) same₃
  intro _ s₄ same₄
  apply early_bind early (onlyIf_same (must_same fun b => d.touch b f.path _)) same₄
  intro _ s₅ same₅
  apply Ends.bind
  apply (renamed_moved there same₅ e.name).mono _ early
  intro path s₆ moved
  apply Ends.bind
  apply (onlyIf_same (must_same fun b => d.truncate b path _)).ends
  · intro _ s₇ after
    apply ends_pure
    exact moved_took ty args moved after (Or.inl rfl)
  · intro e s₇ after
    exact moved_took ty args moved after (Or.inr rfl)

theorem clunk_turn (ty : m.ty = T.clunk.code) :
    Answers d m s (clunk k m.body) (Failed d s) := by
  apply Ends.get
  rcases read : (R.u32.on m.body).1 with _ | fid
  · apply ends_pure
    exact took_did (refl_of (Same d) s) (Turn.nothing ty read)
  apply Ends.modify
  apply Ends.bind
  apply (letgo_did (d := d) (s.fids fid)).mono _ fun _ _ failed => failed
  rintro _ s₁ ⟨x, plain, did⟩
  apply ends_pure
  refine ⟨x, did.2, ?_⟩
  rw [did.table, table_erase, plain]
  exact Turn.clunk ty read

theorem remove_turn (ty : m.ty = T.remove.code) : Answers d m s (remove k m.body)
    fun e s' => Took d m s (answer (.error e)) s' := by
  apply Ends.bind
  rw [parse]
  rcases read : R.u32.on m.body with ⟨_ | fid, rest⟩
  · apply ends_throw
    apply took_did (refl_of (Same d) s)
    apply Turn.error
    intro _
    rw [Msg.fid, read]
  have args : m.fid = some fid := congrArg Prod.fst read
  apply ends_pure
  apply Ends.bind
  rw [lookup]
  apply Ends.get
  rcases there : s.fids fid with _ | f
  · apply ends_throw
    refine ⟨.nothing, d.refl s.files, ?_⟩
    have none_ : s.table fid = none := by
      rw [table, there]
      rfl
    have turn : Turn named m (some (answer (.error "unknown fid"))) [] s.table
        (update s.table fid none) := Turn.remove ty args (Or.inr rfl)
    rw [← none_, update_eq_self] at turn
    exact turn
  apply ends_pure
  apply Ends.modify
  apply Ends.bind
  apply (must_did fun b => d.remove b f.path).mono
  · intro _ s₁ did
    apply ends_pure
    refine ⟨.removed f.path, did.2, ?_⟩
    rw [did.table, table_erase]
    exact Turn.remove ty args (Or.inl rfl)
  · intro e s₁ same
    refine ⟨.nothing, same.2, ?_⟩
    rw [same.table, table_erase]
    exact Turn.remove ty args (Or.inr rfl)

/-- The message and its answer are a turn of the table, or a lapse. -/
abbrev Served (d : k.Deeds) (m : Msg) (s : Store B) (h : Serve B (UInt8 × W)) : Prop :=
  Ends h s (fun a s' => Took d m s (a.1, a.2.body) s' ∨ m.ty = T.version.code ∧ Lapsed d m s s')
    fun e s' => Took d m s (answer (.error e)) s' ∨ Lapsed d m s s'

theorem Served.quiet {h : Serve B (UInt8 × W)} (other : m.ty ≠ T.remove.code)
    (turn : Answers d m s h (Failed d s)) : Served d m s h := by
  apply turn.mono
  · intro a s' took
    exact Or.inl took
  · intro e s' failed
    exact Or.inl (failed_took other failed rfl)

theorem Served.lapsing {h : Serve B (UInt8 × W)} (other : m.ty ≠ T.remove.code)
    (turn : Answers d m s h fun _ s' => Same d s s' ∨ Lapsed d m s s') : Served d m s h := by
  apply turn.mono
  · intro a s' took
    exact Or.inl took
  · rintro e s' (failed | late)
    · exact Or.inl (failed_took other failed rfl)
    · exact Or.inr late

theorem Served.all {h : Serve B (UInt8 × W)}
    (turn : Answers d m s h fun e s' => Took d m s (answer (.error e)) s') : Served d m s h := by
  apply turn.mono
  · intro a s' took
    exact Or.inl took
  · intro e s' took
    exact Or.inl took

theorem serve_turn : Served d m s (serve k m) := by
  have other {t : T} (ty : m.ty = t.code) (kept : t ≠ .remove) : m.ty ≠ T.remove.code := by
    rw [ty]
    intro removed
    cases t with
    | remove => exact kept rfl
    | _ => exact absurd removed (by decide)
  have same := refl_of (Same d) s
  apply ends_ite
  · intro ty
    exact ends_pure (Or.inr ⟨ty, Lapsed.version ty same⟩)
  intro _
  apply ends_ite
  · intro ty
    exact ends_throw (Or.inl (failed_took (other ty (by decide)) same rfl))
  intro _
  apply ends_ite
  · intro ty
    exact Served.lapsing (other ty (by decide)) (attach_turn ty)
  intro _
  apply ends_ite
  · intro ty
    exact Served.quiet (other ty (by decide)) (walk_turn ty)
  intro _
  apply ends_ite
  · intro ty
    exact Served.lapsing (other ty (by decide)) (topen_turn ty)
  intro _
  apply ends_ite
  · intro ty
    exact Served.all (create_turn ty)
  intro _
  apply ends_ite
  · intro ty
    exact Served.quiet (other ty (by decide)) (read_turn ty)
  intro _
  apply ends_ite
  · intro ty
    exact Served.quiet (other ty (by decide)) (write_turn ty)
  intro _
  apply ends_ite
  · intro ty
    exact Served.quiet (other ty (by decide)) (tstat_turn ty)
  intro _
  apply ends_ite
  · intro ty
    exact Served.all (wstat_turn ty)
  intro _
  apply ends_ite
  · intro ty
    exact ends_pure (Or.inl (took_did same (Turn.still (t := .flush) (by decide) ty)))
  intro _
  apply ends_ite
  · intro ty
    exact Served.quiet (other ty (by decide)) (clunk_turn ty)
  intro _
  apply ends_ite
  · intro ty
    exact Served.all (remove_turn ty)
  intro last
  exact ends_throw (Or.inl (failed_took last same rfl))

end Store

/-- A keeper that also writes down the renames it makes. -/
def Backend.renaming {B : Type} (k : Backend B) : Backend (B × List (Path × Path)) where
  stat b p := ((k.stat b.1 p).1, (k.stat b.1 p).2, b.2)
  list b p := ((k.list b.1 p).1, (k.list b.1 p).2, b.2)
  read b p off n := ((k.read b.1 p off n).1, (k.read b.1 p off n).2, b.2)
  write b p off data := ((k.write b.1 p off data).1, (k.write b.1 p off data).2, b.2)
  truncate b p len := ((k.truncate b.1 p len).1, (k.truncate b.1 p len).2, b.2)
  mkdir b p perm := ((k.mkdir b.1 p perm).1, (k.mkdir b.1 p perm).2, b.2)
  mkfile b p perm := ((k.mkfile b.1 p perm).1, (k.mkfile b.1 p perm).2, b.2)
  chmod b p perm := ((k.chmod b.1 p perm).1, (k.chmod b.1 p perm).2, b.2)
  touch b p mtime := ((k.touch b.1 p mtime).1, (k.touch b.1 p mtime).2, b.2)
  rename b p q :=
    let r := k.rename b.1 p q
    (r.1, r.2, b.2 ++ ((Deed.renamed p q).of r.1).renames)
  remove b p := ((k.remove b.1 p).1, (k.remove b.1 p).2, b.2)

/-- A keeper's state, with the renames it made. -/
abbrev Kept (B : Type) := B × List (Path × Path)

/-- Across a deed the renames written down are the deed's. -/
def Backend.Deeds.written {B : Type} {k : Backend B} (d : k.Deeds) : k.renaming.Deeds where
  holds x b b' := d.holds x b.1 b'.1 ∧ b'.2 = b.2 ++ x.renames
  refl b := ⟨d.refl b.1, (append_nil b.2).symm⟩
  before := by
    rintro x a b c ⟨first, log⟩ ⟨second, log'⟩
    refine ⟨d.before first second, ?_⟩
    rw [log', log]
    exact congrArg (· ++ _) (append_nil _)
  after := by
    rintro x a b c ⟨first, log⟩ ⟨second, log'⟩
    refine ⟨d.after first second, ?_⟩
    rw [log', log]
    exact append_nil _
  stat b p := ⟨d.stat b.1 p, (append_nil b.2).symm⟩
  list b p := ⟨d.list b.1 p, (append_nil b.2).symm⟩
  read b p off n := ⟨d.read b.1 p off n, (append_nil b.2).symm⟩
  write b p off data := ⟨d.write b.1 p off data, (append_nil b.2).symm⟩
  truncate b p len := ⟨d.truncate b.1 p len, (append_nil b.2).symm⟩
  chmod b p perm := ⟨d.chmod b.1 p perm, (append_nil b.2).symm⟩
  touch b p mtime := ⟨d.touch b.1 p mtime, (append_nil b.2).symm⟩
  rename b p q := ⟨d.rename b.1 p q, rfl⟩
  mkdir b p perm := by
    refine ⟨d.mkdir b.1 p perm, ?_⟩
    rcases (k.renaming.mkdir b p perm).1 with e | _ <;> exact (append_nil b.2).symm
  mkfile b p perm := by
    refine ⟨d.mkfile b.1 p perm, ?_⟩
    rcases (k.renaming.mkfile b p perm).1 with e | _ <;> exact (append_nil b.2).symm
  remove b p := by
    refine ⟨d.remove b.1 p, ?_⟩
    rcases (k.renaming.remove b p).1 with e | _ <;> exact (append_nil b.2).symm

end Ipnx.Host
