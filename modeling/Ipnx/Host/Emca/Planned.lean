import Ipnx.Host.Emca.Asked
import Ipnx.Host.Emca.Whole

/-!
# A layout's text, laid out

`hosts/web/www/emca.mjs`: the layout file is a tree of rows, columns and tabs with paths for leaves,
written one to a line and nested by indentation. Laid out, the windows under the root are that tree,
made in the order of the lines, and what is asked of the system is to fill each leaf in its turn.
The stack of depths is what it was, at every depth that could still be met, once what is inside a
container has been read.
-/

namespace Ipnx.Host.Emca

open List
open Ipnx.Ninep (utf8)

/-- What is laid out: leaves, each a path and the role it is opened in, and what is divided, each
with what comes after it. -/
inductive Plan
  | done
  | leaf (path role : String) (next : Plan)
  | divided (kind : Division) (inside next : Plan)
deriving DecidableEq, Repr

def Division.word : Division → String
  | .row => "row"
  | .column => "column"
  | .tabs => "tabs"

def Unbroken (s : String) : Prop := ∀ c ∈ s.toList, isSpace c = false ∧ c ≠ '#'

instance (s : String) : Decidable (Unbroken s) := List.decidableBAll _ s.toList

def Blank (cs : List Char) : Prop := ∀ c ∈ cs, c = ' ' ∨ c = '\t'

def width (cs : List Char) : Nat := (cs.map fun c => if c = '\t' then 4 else 1).sum

def roleText (role : String) : List Char := if role = "" then [] else ' ' :: role.toList

namespace Plan

def size : Plan → Nat
  | done => 0
  | leaf _ _ next => 1 + next.size
  | divided _ inside next => 1 + inside.size + next.size

/-- The windows that stand beside each other, with the first one's id. -/
def tops : Nat → Plan → List Nat
  | _, done => []
  | n, leaf _ _ next => n :: next.tops (n + 1)
  | n, divided _ inside next => n :: next.tops (n + 1 + inside.size)

/-- The leaves in order: the window, the path and the role. -/
def leaves : Nat → Plan → List (Nat × String × String)
  | _, done => []
  | n, leaf path role next => (n, path, role) :: next.leaves (n + 1)
  | n, divided _ inside next => inside.leaves (n + 1) ++ next.leaves (n + 1 + inside.size)

/-- Its lines, indented as much as they are given and what is inside a container more. A path may be
any but a container's word. -/
inductive Written : List Char → Plan → List (List Char) → Prop
  | done {indent : List Char} : Written indent done []
  | leaf {indent : List Char} {path role : String} {next : Plan} {lines : List (List Char)} :
      path ≠ "" → Unbroken path → Unbroken role → Manager.division path = none →
      Written indent next lines →
      Written indent (leaf path role next)
        ((indent ++ (path.toList ++ roleText role)) :: lines)
  | divided {indent more : List Char} {kind : Division} {inside next : Plan}
      {lines lines' : List (List Char)} :
      Blank more → more ≠ [] → Written (indent ++ more) inside lines →
      Written indent next lines' →
      Written indent (divided kind inside next)
        ((indent ++ kind.word.toList) :: lines ++ lines')

end Plan

/-- What a window is in the tree, and its title. -/
def Window.face (w : Window) : Option Division × String × Option Nat × List Nat × Bool :=
  (w.kind, w.title, w.parent, w.children, w.gone)

/-- The plan stands under a window, its own numbered in the order of its lines. -/
def Plan.Stands (m : Manager) : Nat → Nat → Plan → Prop
  | _, _, .done => True
  | p, n, .leaf path _ next =>
      n ∈ m.windows ∧ (m.win n).face = (none, path, some p, [], false) ∧ next.Stands m p (n + 1)
  | p, n, .divided kind inside next =>
      n ∈ m.windows ∧ (m.win n).face = (some kind, "", some p, inside.tops (n + 1), false) ∧
        inside.Stands m n (n + 1) ∧ next.Stands m p (n + 1 + inside.size)

def filling (l : Nat × String × String) : Bytes :=
  utf8 ("cd " ++ rcquote (dirname l.2.1) ++ "; emcaopen -w " ++ toString l.1 ++ " " ++
    rcquote l.2.1 ++ (if l.2.2 = "" then "" else " " ++ rcquote l.2.2) ++ " >/dev/null" ++ "\n")

section

variable {cs indent w : List Char} {c : Char}

theorem uncomment_unbroken (none : '#' ∉ cs) : Manager.uncomment cs = cs := by
  induction cs with
  | nil => rfl
  | cons c cs ih =>
      rw [mem_cons, not_or] at none
      rw [Manager.uncomment, if_neg (Ne.symm none.1), ih none.2]

def wordsOf (cs : List Char) : List (List Char) := (cs.splitOnP isSpace).filter (· ≠ [])

theorem wordsOf_space (space : isSpace c) : wordsOf (c :: cs) = wordsOf cs := by
  rw [wordsOf, splitOnP_cons_eq_if_modifyHead, if_pos space, filter_cons_of_neg (by simp),
    wordsOf]

theorem isSpace_of_blank (blank : Blank cs) (inside : c ∈ cs) : isSpace c := by
  rcases blank c inside with rfl | rfl <;> rfl

theorem wordsOf_indent (blank : Blank indent) : wordsOf (indent ++ cs) = wordsOf cs := by
  induction indent with
  | nil => rfl
  | cons c indent ih =>
      rw [cons_append, wordsOf_space (isSpace_of_blank blank mem_cons_self)]
      exact ih fun c inside => blank c (mem_cons_of_mem _ inside)

theorem wordsOf_last (some : w ≠ []) (whole : ∀ c ∈ w, isSpace c = false) : wordsOf w = [w] := by
  rw [wordsOf, splitOnP_eq_singleton whole]
  simp [some]

theorem wordsOf_first (some : w ≠ []) (whole : ∀ c ∈ w, isSpace c = false) (space : isSpace c) :
    wordsOf (w ++ c :: cs) = w :: wordsOf cs := by
  rw [wordsOf, splitOnP_append_cons_of_forall_mem whole _ space]
  simp [some, wordsOf]

theorem depth_indented (blank : Blank indent) (some : w ≠ [])
    (whole : ∀ c ∈ w, isSpace c = false) : Manager.depth (indent ++ (w ++ cs)) = width indent := by
  rcases w with _ | ⟨c, w⟩
  · exact absurd rfl some
  have stops : (c :: w ++ cs).takeWhile isSpace = [] := by
    rw [cons_append, takeWhile_cons_of_neg]
    rw [whole c mem_cons_self]
    exact Bool.false_ne_true
  have all : ∀ c ∈ indent, isSpace c = true := fun c inside => isSpace_of_blank blank inside
  rw [Manager.depth, takeWhile_append_of_pos all, stops, append_nil, width]

theorem words_leaf {path role : String} (blank : Blank indent) (some : path ≠ "")
    (whole : Unbroken path) (whole' : Unbroken role) :
    words (.ofList (indent ++ (path.toList ++ roleText role))) =
      path :: if role = "" then [] else [role] := by
  have some' : path.toList ≠ [] := fun none => some (String.toList_eq_nil_iff.1 none)
  have path' := fun c inside => (whole c inside).1
  have all : wordsOf (indent ++ (path.toList ++ roleText role)) =
      path.toList :: if role = "" then [] else [role.toList] := by
    rw [wordsOf_indent blank, roleText]
    split_ifs with none
    · rw [append_nil, wordsOf_last some' path']
    · rw [wordsOf_first some' path' rfl, wordsOf_last _ fun c inside => (whole' c inside).1]
      exact fun none' => none (String.toList_eq_nil_iff.1 none')
  rw [words, String.toList_ofList, ← wordsOf, all, map_cons, String.ofList_toList]
  split_ifs <;> simp

theorem uncomment_leaf {path role : String} (blank : Blank indent) (whole : Unbroken path)
    (whole' : Unbroken role) : Manager.uncomment (indent ++ (path.toList ++ roleText role)) =
      indent ++ (path.toList ++ roleText role) := by
  apply uncomment_unbroken
  have role : '#' ∉ roleText role := by
    rw [roleText]
    split_ifs
    · exact not_mem_nil
    · rw [mem_cons, not_or]
      exact ⟨by decide, fun inside => (whole' _ inside).2 rfl⟩
  rw [mem_append, mem_append, not_or, not_or]
  refine ⟨fun inside => ?_, fun inside => (whole _ inside).2 rfl, role⟩
  rcases blank _ inside with same | same <;> cases same

end

namespace Manager

variable {m m' m'' : Manager} {p w v : Nat} {indent : List Char} {path role : String}
  {stack : List (Int × Nat)}

def leafUnder (m : Manager) (p : Nat) (path role : String) : Manager :=
  ((m.make (.on path (dirname path))).adoptLast p m.next).fill m.next path role

def dividedUnder (m : Manager) (p : Nat) (kind : Division) : Manager :=
  (m.make (.container kind (m.win p).dir)).adoptLast p m.next

theorem layoutLine_leaf (blank : Blank indent) (some : path ≠ "") (whole : Unbroken path)
    (whole' : Unbroken role) (other : division path = none)
    (head : (popped (width indent) stack).head?.map (·.2) = .some p) :
    layoutLine (stack, m) (.ofList (indent ++ (path.toList ++ roleText role))) =
      (popped (width indent) stack, m.leafUnder p path role) := by
  have some' : path.toList ≠ [] := fun none => some (String.toList_eq_nil_iff.1 none)
  rw [layoutLine, String.toList_ofList, uncomment_leaf blank whole whole',
    words_leaf blank some whole whole',
    depth_indented blank some' fun c inside => (whole c inside).1]
  dsimp only
  rw [other, head]
  dsimp only [Option.getD_some]
  split_ifs with none
  · rw [none]
    rfl
  · rfl

theorem layoutLine_divided (blank : Blank indent) {kind : Division}
    (head : (popped (width indent) stack).head?.map (·.2) = .some p) :
    layoutLine (stack, m) (.ofList (indent ++ kind.word.toList)) =
      (((width indent : Int), m.next) :: popped (width indent) stack, m.dividedUnder p kind) := by
  have whole : Unbroken kind.word := by
    cases kind <;> decide
  have some : kind.word ≠ "" := by
    cases kind <;> decide
  have named : division kind.word = .some kind := by
    cases kind <;> decide
  have unroled : roleText "" = [] := rfl
  have unbroken : Unbroken "" := by decide
  have read := words_leaf blank some whole unbroken
  have bare := uncomment_leaf blank whole unbroken
  rw [unroled, append_nil] at read bare
  have some' : kind.word.toList ≠ [] := by
    cases kind <;> decide
  have deep : depth (indent ++ (kind.word.toList ++ [])) = width indent :=
    depth_indented blank some' fun c inside => (whole c inside).1
  rw [append_nil] at deep
  rw [layoutLine, String.toList_ofList, bare, read, deep]
  dsimp only
  rw [named, head]
  rfl

/-- What laying a plan under a window does. -/
structure Grown (m m' : Manager) (p : Nat) (plan : Plan) : Prop where
  next : m'.next = m.next + plan.size
  windows : m'.windows = m.windows ++ List.range' m.next plan.size
  kept : ∀ v < m.next, v ≠ p → (m'.win v).face = (m.win v).face
  under : (m'.win p).face = ((m.win p).kind, (m.win p).title, (m.win p).parent,
    (m.win p).children ++ plan.tops m.next, (m.win p).gone)
  stands : plan.Stands m' p m.next
  asked : m.Asked m' ((plan.leaves m.next).flatMap filling)

theorem stands_kept {plan : Plan} {n : Nat} (windows : m.windows ⊆ m'.windows)
    (kept : ∀ v, n ≤ v → v < n + plan.size → (m'.win v).face = (m.win v).face)
    (stands : plan.Stands m p n) : plan.Stands m' p n := by
  induction plan generalizing p n with
  | done => trivial
  | leaf path role next ih =>
      rcases stands with ⟨there, face, rest⟩
      rw [Plan.size] at kept
      refine ⟨windows there, (kept n (by omega) (by omega)).trans face, ih ?_ rest⟩
      exact fun v low high => kept v (by omega) (by omega)
  | divided kind inside next ih ih' =>
      rcases stands with ⟨there, face, within, rest⟩
      rw [Plan.size] at kept
      refine ⟨windows there, (kept n (by omega) (by omega)).trans face, ih ?_ within, ih' ?_ rest⟩
      · exact fun v low high => kept v (by omega) (by omega)
      · exact fun v low high => kept v (by omega) (by omega)

theorem putOne_last {α : Type} (cs : List α) (a : α) : putOne cs cs.length a = cs ++ [a] := by
  have all : relative cs.length cs.length = cs.length := by
    rw [relative, if_neg (by omega)]
    omega
  rw [putOne, all, take_length, drop_length]

/-- What making a window and putting it last under another does. -/
structure Put (m m' : Manager) (p : Nat) (kind : Option Division) (title : String) (b : Bytes) :
    Prop where
  next : m'.next = m.next + 1
  windows : m'.windows = m.windows ++ [m.next]
  own : (m'.win m.next).face = (kind, title, some p, [], false)
  under : (m'.win p).face = ((m.win p).kind, (m.win p).title, (m.win p).parent,
    (m.win p).children ++ [m.next], (m.win p).gone)
  kept : ∀ v < m.next, v ≠ p → (m'.win v).face = (m.win v).face
  asked : m.Asked m' b

theorem put_make {x : Window} (bare : Bare x) (base : root < m.next) (made : p < m.next) :
    m.Put ((m.make x).adoptLast p m.next) p x.kind x.title [] := by
  have own : (m.make x).win m.next = x := win_make_self x
  have old {v : Nat} (low : v < m.next) : (m.make x).win v = m.win v := win_make_of_ne x low.ne
  have alone : ((m.make x).win m.next).parent = none := by rw [own, bare.parent]
  have title (v : Nat) : (((m.make x).adoptLast p m.next).win v).title = ((m.make x).win v).title :=
    field_adopt Window.title (fun _ _ => rfl) (fun _ _ _ => rfl) _ v
  rw [adoptLast] at title ⊢
  refine ⟨next_adopt _, windows_adopt _, ?_, ?_, fun v low other => ?_,
    (asked_make base x).trans (asked_adopt _)⟩ <;>
    simp only [Window.face, title, kind_adopt, gone_adopt, parent_adopt alone, children_adopt alone]
  · rw [own, if_pos trivial, if_neg made.ne', bare.children, bare.gone]
  · rw [old made, if_neg made.ne, if_pos trivial, putOne_last]
  · rw [old low, if_neg low.ne, if_neg other]

theorem face_ask (line : String) : ((m.ask line).win v).face = (m.win v).face := by
  rw [ask, post, drain, win_reply]
  refine (field_alter Window.face ?_ v).trans (field_alter Window.face ?_ v) <;> exact fun _ => rfl

theorem put_leaf (base : root < m.next) (made : p < m.next) :
    m.Put (m.leafUnder p path role) p none path (filling (m.next, path, role)) := by
  have put := put_make (x := .on path (dirname path)) ⟨rfl, rfl, rfl, rfl⟩ base made
  have dir : (((m.make (.on path (dirname path))).adoptLast p m.next).win m.next).dir =
      dirname path := by
    rw [adoptLast, field_adopt Window.dir (fun _ _ => rfl) (fun _ _ _ => rfl), win_make_self]
    rfl
  refine ⟨put.next, put.windows, ?_, ?_, fun v low other => ?_, ?_⟩
  · exact (face_ask _).trans put.own
  · exact (face_ask _).trans put.under
  · exact (face_ask _).trans (put.kept v low other)
  · apply put.asked.trans
    rw [leafUnder, fill, dir]
    exact asked_ask _

theorem put_divided {kind : Division} (base : root < m.next) (made : p < m.next) :
    m.Put (m.dividedUnder p kind) p (some kind) "" [] :=
  put_make (x := .container kind (m.win p).dir) ⟨rfl, rfl, rfl, rfl⟩ base made

theorem grown_done : m.Grown m p .done where
  next := rfl
  windows := (append_nil _).symm
  kept _ _ _ := rfl
  under := by
    rw [Plan.tops, append_nil]
    rfl
  stands := trivial
  asked := asked_rfl

theorem Grown.beside {plan : Plan} (grown : m'.Grown m'' p plan)
    (there : (m'.win p).face = ((m.win p).kind, (m.win p).title, (m.win p).parent,
      (m.win p).children ++ [m.next], (m.win p).gone)) :
    (m''.win p).face = ((m.win p).kind, (m.win p).title, (m.win p).parent,
      (m.win p).children ++ m.next :: plan.tops m'.next, (m.win p).gone) := by
  simp only [Window.face, Prod.mk.injEq] at there
  rw [grown.under, there.1, there.2.1, there.2.2.1, there.2.2.2.1, there.2.2.2.2, append_assoc]
  rfl

theorem Put.leaf {next : Plan} (made : p < m.next)
    (put : m.Put m' p none path (filling (m.next, path, role))) (rest : m'.Grown m'' p next) :
    m.Grown m'' p (.leaf path role next) where
  next := by
    rw [rest.next, put.next, Plan.size]
    omega
  windows := by
    rw [rest.windows, put.windows, put.next, Plan.size, Nat.add_comm 1, List.range'_succ,
      append_assoc]
    rfl
  kept v low other := by
    rw [rest.kept v (by rw [put.next]; omega) other, put.kept v low other]
  under := by
    rw [rest.beside put.under, put.next]
    rfl
  stands := by
    refine ⟨?_, ?_, ?_⟩
    · rw [rest.windows, put.windows]
      simp
    · rw [rest.kept m.next (by rw [put.next]; omega) made.ne', put.own]
    · rw [← put.next]
      exact rest.stands
  asked := by
    rw [Plan.leaves, flatMap_cons, ← put.next]
    exact put.asked.trans rest.asked

theorem Put.divided {last : Manager} {kind : Division} {inside next : Plan} (made : p < m.next)
    (put : m.Put m' p (some kind) "" []) (within : m'.Grown m'' m.next inside)
    (rest : m''.Grown last p next) : m.Grown last p (.divided kind inside next) := by
  have first := put.next
  have count : m''.next = m.next + 1 + inside.size := by rw [within.next, first]
  refine
    { next := ?_
      windows := ?_
      kept := fun v low other => ?_
      under := ?_
      stands := ⟨?_, ?_, ?_, ?_⟩
      asked := ?_ }
  · rw [rest.next, count, Plan.size]
    omega
  · have ids : List.range' m.next (1 + inside.size + next.size) =
        m.next :: (List.range' (m.next + 1) inside.size ++
          List.range' (m.next + 1 + inside.size) next.size) := by
      rw [List.range'_append_1, Nat.add_assoc, Nat.add_comm 1, List.range'_succ]
    rw [rest.windows, within.windows, put.windows, count, first, Plan.size, ids, append_assoc,
      append_assoc]
    rfl
  · rw [rest.kept v (by omega) other, within.kept v (by omega) low.ne, put.kept v low other]
  · have there := (within.kept p (by omega) made.ne).trans put.under
    rw [rest.beside there, count]
    rfl
  · rw [rest.windows, within.windows, put.windows]
    simp
  · have own := put.own
    simp only [Window.face, Prod.mk.injEq] at own
    rw [rest.kept m.next (by omega) made.ne', within.under, own.1, own.2.1, own.2.2.1, own.2.2.2.1,
      own.2.2.2.2, first]
    rfl
  · rw [← first]
    apply stands_kept _ _ within.stands
    · rw [rest.windows]
      exact subset_append_left _ _
    · exact fun v low high => rest.kept v (by omega) (by omega)
  · rw [← count]
    exact rest.stands
  · rw [Plan.leaves, flatMap_append, ← first, ← within.next]
    exact (put.asked.trans within.asked).trans rest.asked

theorem popped_top {k : Nat} {d : Int} {below : List (Int × Nat)} (low : d < k) :
    popped k ((d, p) :: below) = (d, p) :: below := by
  rcases below with _ | ⟨e, below⟩
  · rfl
  · rw [popped, if_neg (by omega)]

theorem popped_push {k : Nat} {e d : Int} {c : Nat} {below : List (Int × Nat)} (deep : k ≤ e) :
    popped k ((e, c) :: (d, p) :: below) = popped k ((d, p) :: below) := by
  rw [popped, if_pos deep]

theorem width_append {more : List Char} : width (indent ++ more) = width indent + width more := by
  rw [width, map_append, sum_append, width, width]

theorem width_pos {more : List Char} (some : more ≠ []) : 0 < width more := by
  rcases more with _ | ⟨c, more⟩
  · exact absurd rfl some
  · rw [width, map_cons, sum_cons]
    split_ifs <;> omega

theorem grown_lines {plan : Plan} {ls : List (List Char)} (written : plan.Written indent ls)
    (blank : Blank indent) {below : List (Int × Nat)} {d : Int} (low : d < width indent)
    (same : ∀ k ≤ width indent, popped k stack = popped k ((d, p) :: below))
    (base : root < m.next) (made : p < m.next) :
    m.Grown ((ls.map String.ofList).foldl layoutLine (stack, m)).2 p plan ∧
      ∀ k ≤ width indent, popped k ((ls.map String.ofList).foldl layoutLine (stack, m)).1 =
        popped k ((d, p) :: below) := by
  induction written generalizing stack m p d below with
  | done => exact ⟨grown_done, same⟩
  | @leaf indent path role next lines some whole whole' other _ ih =>
      have head := same _ le_rfl
      rw [popped_top low] at head
      have read := @layoutLine_leaf m p indent path role stack blank some whole whole' other
        (by rw [head]; rfl)
      have put : m.Put (m.leafUnder p path role) p none path _ := put_leaf base made
      rw [map_cons, foldl_cons, read, head]
      have base' : root < (m.leafUnder p path role).next := by
        rw [put.next]
        omega
      have made' : p < (m.leafUnder p path role).next := by
        rw [put.next]
        omega
      have here : ∀ k ≤ width indent, popped k ((d, p) :: below) = popped k ((d, p) :: below) :=
        fun _ _ => rfl
      have rest := ih blank low here base' made'
      exact ⟨put.leaf made rest.1, rest.2⟩
  | @divided indent more kind inside next lines lines' blank' some within after ih ih' =>
      have head := same _ le_rfl
      rw [popped_top low] at head
      have read := @layoutLine_divided m p indent stack blank kind (by rw [head]; rfl)
      have put : m.Put (m.dividedUnder p kind) p (.some kind) "" [] := put_divided base made
      have deeper := width_pos some
      have longer := @width_append indent more
      rw [cons_append, map_cons, foldl_cons, read, head, map_append,
        foldl_append]
      have base' : root < (m.dividedUnder p kind).next := by
        rw [put.next]
        omega
      have live : m.next < (m.dividedUnder p kind).next := by
        rw [put.next]
        omega
      have blank'' : Blank (indent ++ more) := fun c member =>
        (mem_append.1 member).elim (blank c) (blank' c)
      have low' : (width indent : Int) < width (indent ++ more) := by omega
      have here : ∀ k ≤ width (indent ++ more),
          popped k (((width indent : Int), m.next) :: (d, p) :: below) =
            popped k (((width indent : Int), m.next) :: (d, p) :: below) := fun _ _ => rfl
      rcases ih blank'' low' here base' live with ⟨inner, back⟩
      generalize (lines.map String.ofList).foldl layoutLine
        (((width indent : Int), m.next) :: (d, p) :: below, m.dividedUnder p kind) = r
        at inner back ⊢
      have same' : ∀ k ≤ width indent, popped k r.1 = popped k ((d, p) :: below) := by
        intro k deep
        rw [back k (by omega), popped_push (by omega)]
      have base'' : root < r.2.next := by
        rw [inner.next]
        omega
      have made'' : p < r.2.next := by
        rw [inner.next, put.next]
        omega
      have rest := ih' blank low same' base'' made''
      exact ⟨put.divided made inner rest.1, rest.2⟩

theorem written_line {plan : Plan} {ls : List (List Char)} (written : plan.Written indent ls)
    (blank : Blank indent) : ∀ l ∈ ls, '\n' ∉ l := by
  have unbroken {s : String} (whole : Unbroken s) : '\n' ∉ s.toList := fun inside =>
    absurd (whole _ inside).1 (by decide)
  have blanks {cs : List Char} (blank : Blank cs) : '\n' ∉ cs := fun inside =>
    (blank _ inside).elim (absurd · (by decide)) (absurd · (by decide))
  induction written with
  | done => exact fun l inside => absurd inside not_mem_nil
  | @leaf indent path role next lines _ whole whole' _ _ ih =>
      intro l inside
      rcases mem_cons.1 inside with rfl | below
      · have roled : '\n' ∉ roleText role := by
          rw [roleText]
          split_ifs
          · exact not_mem_nil
          · rw [mem_cons, not_or]
            exact ⟨by decide, unbroken whole'⟩
        rw [mem_append, mem_append, not_or, not_or]
        exact ⟨blanks blank, unbroken whole, roled⟩
      · exact ih blank l below
  | @divided indent more kind inside next lines lines' blank' _ _ _ ih ih' =>
      intro l member
      rw [cons_append, mem_cons, mem_append] at member
      rcases member with rfl | within | after
      · rw [mem_append, not_or]
        exact ⟨blanks blank, by cases kind <;> decide⟩
      · exact ih (fun c member => (mem_append.1 member).elim (blank c) (blank' c)) l within
      · exact ih' blank l after

theorem layoutLine_empty (r : List (Int × Nat) × Manager) : layoutLine r "" = r := rfl

theorem foldl_lines {ls : List (List Char)} (whole : ∀ l ∈ ls, '\n' ∉ l) {text : String}
    (said : text.toList = ['\n'].intercalate ls ∨ text.toList = ['\n'].intercalate (ls ++ [[]]))
    (r : List (Int × Nat) × Manager) :
    (lines text).foldl layoutLine r = (ls.map String.ofList).foldl layoutLine r := by
  have ended : (['\n'].intercalate (ls ++ [[]])).splitOn '\n' = ls ++ [[]] := by
    apply splitOn_intercalate
    · intro l inside
      rcases mem_append.1 inside with inside | last
      · exact whole l inside
      · rw [mem_singleton.1 last]
        exact not_mem_nil
    · simp
  have skipped : ((ls ++ [[]]).map String.ofList).foldl layoutLine r =
      (ls.map String.ofList).foldl layoutLine r := by
    rw [map_append, foldl_append]
    exact layoutLine_empty _
  rw [lines]
  rcases said with said | said
  · rw [said]
    rcases ls with _ | ⟨l, ls⟩
    · exact layoutLine_empty r
    · rw [splitOn_intercalate '\n' whole (cons_ne_nil _ _)]
  · rw [said, ended, skipped]

/-- Whatever windows were there, the text of a plan laid out leaves under the root the windows of
the plan, and what is asked of the system is to hang up commands of the windows and to fill the
plan's leaves in their order. -/
theorem layout_laid {plan : Plan} {ls : List (List Char)} {text : String} (lived : m.Lived)
    (blank : Blank indent) (written : plan.Written indent ls)
    (said : text.toList = ['\n'].intercalate ls ∨
      text.toList = ['\n'].intercalate (ls ++ [[]])) :
    ((m.layout text).win root).children = plan.tops m.next ∧
      plan.Stands (m.layout text) root m.next ∧
      ∃ pids : List Nat, (∀ pid ∈ pids, pid ≠ 0 ∧ ∃ w, (m.win w).pid = pid) ∧
        m.Asked (m.layout text)
          (pids.flatMap hung ++ (plan.leaves m.next).flatMap filling) := by
  have like : m.Like { m with layoutText := text } := ⟨fun _ => rfl, rfl, rfl, rfl⟩
  have tree := lived.tree
  have shut : Hung { m with layoutText := text }
      ((m.win root).children.foldl close { m with layoutText := text }) :=
    hung_closings (fun m w => hung_closeIn _ m w) _ _
  rw [layout]
  rcases (like.tree tree).cleared with ⟨⟨⟨_, _, _, _, next⟩, _, _, _⟩, none⟩
  dsimp only at next none ⊢
  generalize (m.win root).children.foldl close { m with layoutText := text } = closed
    at shut next none ⊢
  have base : root < closed.next := by
    rw [next]
    exact (tree.made root tree.base).2
  have above : (-1 : Int) < width indent := by omega
  have same : ∀ k ≤ width indent, popped k [((-1 : Int), root)] = popped k [((-1 : Int), root)] :=
    fun _ _ => rfl
  rcases grown_lines written blank above same base base with ⟨grown, _⟩
  rw [foldl_lines (written_line written blank) said]
  generalize ((ls.map String.ofList).foldl layoutLine ([(-1, root)], closed)).2 = laid at grown ⊢
  have top := grown.under
  simp only [Window.face, Prod.mk.injEq] at top
  have stands := grown.stands
  rw [next] at stands top
  refine ⟨?_, stands_kept (m := laid) (fun _ => id) (fun _ _ _ => rfl) stands, ?_⟩
  · exact top.2.2.2.1.trans (by rw [none, nil_append])
  · rcases shut with ⟨-, pids, of, shut⟩
    refine ⟨pids, of, ?_⟩
    have asked := shut.trans grown.asked
    rw [next] at asked
    exact asked

/-- A row of a column of two files and a listing, over a window that was there. -/
theorem layout_laid_row :
    ((((boot 0 0).created.2).layout "row\n\tcolumn\n\t\t/a edit\n\t\t/b\n\t/c\n").win
      root).children = [3] ∧
    (Plan.divided .row (.divided .column (.leaf "/a" "edit" (.leaf "/b" "" .done))
      (.leaf "/c" "" .done)) .done).Stands
      (((boot 0 0).created.2).layout "row\n\tcolumn\n\t\t/a edit\n\t\t/b\n\t/c\n") root 3 := by
  have made : Lived (boot 0 0).created.2 := Lived.boot.act (a := .newctl) nofun rfl
  have one : Blank ['\t'] := fun c member => .inr (mem_singleton.1 member)
  have last (indent : List Char) :
      (Plan.leaf "/c" "" .done).Written indent [indent ++ ("/c".toList ++ roleText "")] :=
    .leaf (by decide) (by decide) (by decide) (by decide) .done
  have files (indent : List Char) :
      (Plan.leaf "/a" "edit" (.leaf "/b" "" .done)).Written indent
        [indent ++ ("/a".toList ++ roleText "edit"), indent ++ ("/b".toList ++ roleText "")] :=
    .leaf (by decide) (by decide) (by decide) (by decide)
      (.leaf (by decide) (by decide) (by decide) (by decide) .done)
  have inside : (Plan.divided .column (.leaf "/a" "edit" (.leaf "/b" "" .done))
      (.leaf "/c" "" .done)).Written ['\t'] _ :=
    .divided one (by decide) (files _) (last _)
  have written : (Plan.divided .row (.divided .column (.leaf "/a" "edit" (.leaf "/b" "" .done))
      (.leaf "/c" "" .done)) .done).Written [] _ := .divided one (by decide) inside .done
  have laid := layout_laid made (fun _ none => absurd none not_mem_nil)
    written (.inr (by decide :
      "row\n\tcolumn\n\t\t/a edit\n\t\t/b\n\t/c\n".toList = _))
  exact ⟨laid.1, laid.2.1⟩

/-- A leaf whose path is a container's word is laid as a container. -/
theorem layout_laid_fails :
    ¬(Plan.leaf "row" "" .done).Stands ((boot 0 0).layout "row") root (boot 0 0).next := by
  rintro ⟨_, face, _⟩
  revert face
  decide

end Manager

end Ipnx.Host.Emca
