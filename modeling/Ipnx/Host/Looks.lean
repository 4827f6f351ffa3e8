import Ipnx.Host.Tables
import Ipnx.Lib.Extent

/-!
# Looking at the keeper's files

What a handler makes of a keeper whose looks change nothing: the server's word on a path is a
function of its state, and each part of a handler ends as that says.
-/

namespace Ipnx.Host

open Ipnx.Ninep (W R Msg T)
open Prog (Ends ends_pure ends_throw ends_get ends_modify)

/-- A look at a file or a directory changes nothing. -/
structure Backend.Looks {B : Type} (k : Backend B) : Prop where
  stat : ∀ b p, (k.stat b p).2 = b
  list : ∀ b p, (k.list b p).2 = b

theorem real_append (p : Path) (n : String) :
    real (p ++ [.normal n]) = (real p).map (· ++ [.normal n]) := by
  rw [real, List.foldlM_append]
  change (real p).bind _ = _
  rcases real p with _ | out
  · rfl
  · rfl

theorem real_of_normal {p : Path} (normal : p.Normal) : real p = some p := by
  induction p using List.reverseRecOn with
  | nil => rfl
  | append_singleton p c ih =>
      rcases normal c (List.mem_append_right _ (List.mem_singleton_self c)) with ⟨n, rfl⟩
      rw [real_append, ih fun d member => normal d (List.mem_append_left _ member)]
      rfl

namespace Store

variable {B : Type}

/-- The keeper's word on a path, as the server asks for it. -/
def found (k : Backend B) (s : Store B) (rel : Path) : Option Meta :=
  (real rel).bind fun p => (k.stat s.files p).1

variable {k : Backend B} {s : Store B} {m : Msg} {α : Type}

theorem any_guarded (k : Backend B) : k.Guarded fun _ => True :=
  ⟨fun _ _ _ _ => trivial, fun _ _ _ _ => trivial, fun _ _ _ _ _ _ => trivial,
    fun _ _ _ _ _ _ => trivial, fun _ _ _ _ _ => trivial, fun _ _ _ _ _ => trivial,
    fun _ _ _ _ _ => trivial, fun _ _ _ _ _ => trivial, fun _ _ _ _ _ => trivial,
    fun _ _ _ _ _ _ => trivial, fun _ _ _ _ => trivial⟩

theorem exec_stat (looks : k.Looks) (s : Store B) (rel : Path) :
    (stat k rel).exec s = (.ok (found k s rel), s) := by
  rw [stat, found]
  rcases real rel with _ | p
  · rfl
  · have same : { s with files := (k.stat s.files p).2 } = s := by rw [looks.stat]
    exact congrArg (Prod.mk _) same

theorem ends_statOr (looks : k.Looks) {rel : Path} {e : String} {G : Meta → Store B → Prop}
    {E : String → Store B → Prop} (ok : ∀ md, found k s rel = some md → G md s)
    (error : found k s rel = none → E e s) : Ends (statOr k rel e) s G E := by
  apply Ends.bind
  rw [Ends, exec_stat looks]
  rcases here : found k s rel with _ | md
  · exact ends_throw (error here)
  · exact ends_pure (ok md here)

theorem tell_ends {call : B → α × B} {G : Unit → Store B → Prop} {E : String → Store B → Prop}
    (told : G () { s with files := (call s.files).2 }) : Ends (tell call) s G E := by
  apply Ends.bind
  apply Ends.get
  apply Ends.modify
  apply ends_pure
  exact ends_pure told

theorem ends_parsed {r : R α} {b rest : Bytes} {e : String} {a : α}
    {G : α × Bytes → Store B → Prop} {E : String → Store B → Prop} (read : r.on b = (some a, rest))
    (ok : G (a, rest) s) : Ends (parse r b e) s G E := by
  rw [Store.parse, read]
  exact ends_pure ok

theorem ends_known {fid : UInt32} {f : Fid} {G : Fid → Store B → Prop}
    {E : String → Store B → Prop} (there : s.fids fid = some f) (ok : G f s) :
    Ends (lookup fid) s G E := by
  apply Ends.get
  rw [there]
  exact ends_pure ok

theorem ends_here (looks : k.Looks) {rel : Path} {e : String} {md : Meta}
    {G : Meta → Store B → Prop} {E : String → Store B → Prop} (here : found k s rel = some md)
    (ok : G md s) : Ends (statOr k rel e) s G E := by
  apply Ends.bind
  rw [Ends, exec_stat looks, here]
  exact ends_pure ok

theorem serve_version (ty : m.ty = T.version.code) : serve k m = version m.body := by
  rw [serve, ty]
  rfl

theorem serve_open (ty : m.ty = T.open.code) : serve k m = topen k m.body := by
  rw [serve, ty]
  rfl

theorem serve_read (ty : m.ty = T.read.code) : serve k m = read k m.body := by
  rw [serve, ty]
  rfl

theorem serve_write (ty : m.ty = T.write.code) : serve k m = write k m.body := by
  rw [serve, ty]
  rfl

end Store

end Ipnx.Host
