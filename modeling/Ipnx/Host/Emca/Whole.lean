import Ipnx.Host.Emca.Placing
import Ipnx.Lib.System

/-!
# The window tree is whole

`hosts/web/www/emca.mjs`: whatever the person does, and whatever is written to `ctl` or to the
layout, the table's windows are the tree's, each in one place of it. A message that closes a window
and then shows it is the exception: the window that has gone is in focus after.
-/

namespace Ipnx.Host.Emca

open List

namespace Manager

inductive Reached (m : Manager) : Nat → Prop
  | root : Reached m root
  | child {p w : Nat} : Reached m p → w ∈ (m.win p).children → Reached m w

/-- The table's windows are the tree's, each in one place of it, and what is shown and in focus is
there. -/
structure Whole (m : Manager) : Prop where
  reached : ∀ w, w ∈ m.windows ↔ m.Reached w
  once : ∀ w ∈ m.windows, w ≠ root → ∃ p, (m.win w).parent = some p ∧
    (m.win p).children.count w = 1 ∧ ∀ q, w ∈ (m.win q).children → q = p
  top : (m.win root).parent = none
  shown : ∀ w ∈ m.windows, (m.win w).kind = some .tabs → (m.win w).children ≠ [] →
    (m.win w).current ≠ none
  current : ∀ w ∈ m.windows, ∀ c, (m.win w).current = some c → c ∈ (m.win w).children
  leaf : ∀ w ∈ m.windows, (m.win w).leaf → (m.win w).children = []
  focus : ∀ f, m.focus = some f → f ∈ m.windows ∧ (m.win f).leaf

end Manager

/-- What the person and the system's messages do with the tree. -/
inductive TreeAct
  | layout (text : String)
  | openPath (w : Nat) (text : String)
  | run (w : Nat) (text selection : String)
  | duplicate (w : Nat) (how : Division)
  | newshell (near : Option Nat)
  | newctl
  | select (w : Nat)
  | minimise (w : Nat)
  | maximise (w : Nat)
  | retitle (w : Nat) (title : String)
  | close (w : Nat)
  | ctl (w : Nat) (text : String)

namespace TreeAct

def window : TreeAct → Option Nat
  | openPath w _ | run w _ _ | duplicate w _ | select w | minimise w | maximise w | retitle w _ |
    close w | ctl w _ => some w
  | newshell near => near
  | layout _ | newctl => none

end TreeAct

namespace Manager

def act (m : Manager) : TreeAct → Option Manager
  | .layout text => some (m.layout text)
  | .openPath w text => m.openPath w text
  | .run w text selection => m.run w text selection
  | .duplicate w how => m.duplicate w how
  | .newshell near => m.newshell (near.or m.focus)
  | .newctl => some m.created.2
  | .select w => some (m.select w)
  | .minimise w => some (m.minimise w)
  | .maximise w => some (m.maximise w)
  | .retitle w title => some (m.retitle w title)
  | .close w => some (m.close w)
  | .ctl w text => some (m.ctl w text)

def tree : System Manager TreeAct where
  init m := ∃ now room, m = boot now room
  step m a m' := (∀ w, a.window = some w → w ∈ m.windows) ∧ m.act a = some m'

def Closes (line : String) : Prop :=
  (words line).head? = some "delete" ∨ (words line).head? = some "del"

def Shows (line : String) : Prop := (words line).head? = some "current"

instance (line : String) : Decidable (Closes line) := inferInstanceAs (Decidable (_ ∨ _))

instance (line : String) : Decidable (Shows line) := inferInstanceAs (Decidable (_ = _))

/-- A message to a leaf's `ctl` does not show the window once it has closed it. -/
def Orderly (m : Manager) : TreeAct → Prop
  | .ctl w text =>
      (m.win w).leaf → ∀ front line rest, lines text = front ++ line :: rest → Closes line →
        ∀ line' ∈ rest, ¬Shows line'
  | _ => True

variable {m m' : Manager} {w v p c : Nat} {full : Prop} {ws : List Nat}

theorem like_hide (cs : List Nat) (hidden : Bool) :
    m.Like (cs.foldl (fun m c => m.alter c ({ · with hidden := hidden })) m) := by
  induction cs generalizing m with
  | nil => exact like_rfl
  | cons c cs ih => exact (like_alter rfl).trans ih

theorem bare_on (title dir : String) : Bare (.on title dir) := ⟨rfl, rfl, rfl, rfl⟩

theorem like_filter (how : Char) (cmd selection : String) :
    m.Like (m.filter w how cmd selection) := (like_alter rfl).trans (like_ask _)

section Settled

variable (settled : m.Settled full [])

include settled

theorem Settled.put {x : Window} (bare : Bare x) {near : Option Nat}
    (placed : (m.make x).astab near m.next = some m') :
    m'.Settled full [] ∧ m.next ∈ m'.windows :=
  ⟨(settled.spare bare).astab placed, subset_astab placed (settled.spare bare).there⟩

theorem Settled.focusing {f : Option Nat}
    (ok : ∀ l, f = some l → (root ≤ l ∧ l < m.next) ∧ (m.win l).leaf ∧ (full → l ∈ m.windows)) :
    Settled { m with focus := f } full [] where
  tree := { settled.tree with focus := fun l there => ⟨(ok l there).1, (ok l there).2.1⟩ }
  focused all l there := (ok l there).2.2 all
  loose := settled.loose

theorem Settled.currents (n c : Nat) : (Manager.current n m c).Settled full [] ∧
    (Manager.current n m c).windows = m.windows ∧ (Manager.current n m c).next = m.next ∧
      ∀ v, ((Manager.current n m c).win v).kind = (m.win v).kind := by
  induction n generalizing m c with
  | zero => exact ⟨settled, rfl, rfl, fun _ => rfl⟩
  | succ n ih =>
      rw [Manager.current]
      rcases parent : (m.win c).parent with _ | p
      · exact ⟨settled, rfl, rfl, fun _ => rfl⟩
      · have shown := settled.show (settled.tree.mem_children.2 parent)
        rcases ih shown p with ⟨settled', windows, next, kind⟩
        refine ⟨settled', windows, next, fun v => (kind v).trans ?_⟩
        apply field_alter Window.kind
        exact fun _ => rfl

theorem Settled.select (made : root ≤ w ∧ w < m.next)
    (shown : full → w ∉ m.windows → ¬(m.win w).leaf) : (m.select w).Settled full [] ∧
      (m.select w).windows = m.windows ∧ (m.select w).next = m.next ∧
        ∀ v, ((m.select w).win v).kind = (m.win v).kind := by
  have raised : ∀ m', m' = (if (m.win w).parent.isSome then
        Manager.current m.next (m.alter w ({ · with hidden := false })) w else m) →
      m'.Settled full [] ∧ m'.windows = m.windows ∧ m'.next = m.next ∧
        ∀ v, (m'.win v).kind = (m.win v).kind := by
    rintro m' rfl
    split_ifs
    · have like : m.Like (m.alter w ({ · with hidden := false })) := like_alter rfl
      rcases (settled.like like).currents m.next w with ⟨settled', windows, next, kind⟩
      exact ⟨settled', windows.trans like.windows, next, fun v => (kind v).trans (like.kind v)⟩
    · exact ⟨settled, rfl, rfl, fun _ => rfl⟩
  rw [Manager.select]
  rcases raised _ rfl with ⟨settled', windows, next, kind⟩
  generalize (if (m.win w).parent.isSome then
    Manager.current m.next (m.alter w ({ · with hidden := false })) w else m) = m'
    at settled' windows next kind ⊢
  have ok (l : Nat) (found : (if (m'.win w).leaf then some w else m'.firstleaf w) = some l) :
      (root ≤ l ∧ l < m'.next) ∧ (m'.win l).leaf ∧ (full → l ∈ m'.windows) := by
    split_ifs at found with leaf
    · cases found
      refine ⟨next ▸ made, leaf, fun all => ?_⟩
      rw [Window.leaf, kind, ← Window.leaf] at leaf
      rw [windows]
      by_contra out
      exact shown all out leaf
    · by_cases there : w ∈ m'.windows
      · rcases settled'.tree.firstleafIn there found with ⟨inside, leaf⟩
        exact ⟨settled'.tree.made l inside, leaf, fun _ => inside⟩
      · have gone := (settled'.tree.gone w (next ▸ made)).2 there
        have none (n : Nat) : Manager.firstleafIn n m' w = none := by
          cases n with
          | zero => rfl
          | succ n => rw [Manager.firstleafIn, if_pos gone]
        rw [firstleaf, none] at found
        cases found
  rcases first : (if (m'.win w).leaf then some w else m'.firstleaf w) with _ | l
  · exact ⟨settled', windows, next, kind⟩
  · rw [first] at ok
    exact ⟨settled'.focusing ok, windows, next, kind⟩

theorem Settled.raised (there : w ∈ m.windows) : (m.select w).Settled full [] :=
  (settled.select (settled.tree.made w there) fun _ out => absurd there out).1

theorem Settled.minimise (there : w ∈ m.windows) : (m.minimise w).Settled full [] := by
  have like : m.Like (m.alter w fun w => { w with hidden := !w.hidden }) := like_alter rfl
  rw [Manager.minimise]
  split_ifs
  · exact settled.like like
  · exact (settled.like like).raised (like.windows ▸ there)

theorem Settled.maximise (there : w ∈ m.windows) : (m.maximise w).Settled full [] := by
  rw [Manager.maximise]
  rcases (m.win w).parent with _ | p
  · exact settled
  · have like (hidden : Bool) : m.Like ((((m.win p).children.filter (· ≠ w)).foldl
        (fun m c => m.alter c ({ · with hidden := hidden })) m).alter w
          ({ · with hidden := false })) := (like_hide _ hidden).trans (like_alter rfl)
    exact (settled.like (like _)).raised ((like _).windows ▸ there)

theorem Settled.filled (there : w ∈ m.windows) (path role : String) :
    ((m.fill w path role).select w).Settled full [] := by
  have like : m.Like (m.fill w path role) := like_fill path role
  exact (settled.like like).raised (like.windows ▸ there)

theorem Settled.duplicate (there : w ∈ m.windows) {how : Division}
    (done : m.duplicate w how = some m') : m'.Settled full [] := by
  rw [Manager.duplicate] at done
  by_cases leaf : (m.win w).leaf
  swap
  · rw [if_pos leaf] at done
    cases done
    exact settled
  rw [if_neg (not_not.2 leaf)] at done
  have top : w ≠ root := by
    rintro rfl
    exact settled.tree.root_not_leaf leaf
  have bare := bare_on (m.win w).title (m.win w).dir
  have spare := settled.spare bare
  have inside := subset_make (.on (m.win w).title (m.win w).dir) there
  have beside (axis : Division) := spare.split inside top (settled.tree.made w there).2.ne' axis
  rcases Option.map_eq_some_iff.1 done with ⟨m₁, copied, rfl⟩
  cases how with
  | tabs =>
      have placed : (m.make (.on (m.win w).title (m.win w).dir)).astab (some w) m.next = some m₁ :=
        copied
      rcases settled.put bare placed with ⟨settled', live⟩
      exact settled'.filled live _ _
  | column =>
      cases copied
      exact (beside .row).filled (subset_split _ spare.there) _ _
  | row =>
      cases copied
      exact (beside .column).filled (subset_split _ spare.there) _ _

theorem Settled.openPath {text : String} (done : m.openPath w text = some m') :
    m'.Settled full [] := by
  rw [Manager.openPath] at done
  by_cases empty : text = ""
  · rw [if_pos empty] at done
    cases done
    exact settled
  rw [if_neg empty] at done
  dsimp only at done
  split at done
  next o held =>
    cases done
    exact settled.raised (List.mem_of_find?_eq_some held)
  · rcases Option.map_eq_some_iff.1 done with ⟨m₁, placed, rfl⟩
    have bare := bare_on (m.resolve w text) (dirname (m.resolve w text))
    rcases settled.put bare placed with ⟨settled', live⟩
    split_ifs
    · have like : m₁.Like (m₁.ask ("mkdir -p " ++ rcquote (m.resolve w text))) := like_ask _
      exact (settled'.like like).filled (like.windows ▸ live) _ _
    · exact settled'.filled live _ _

theorem Settled.output {cmd : String} {stdin : Option String}
    (done : m.output w cmd stdin = some m') : m'.Settled full [] := by
  have bare : Bare (.log (m.outputs.length + 1) (m.win w).dir cmd) := ⟨rfl, rfl, rfl, rfl⟩
  have logged (outputs : List Output) :
      (m.make (.log (m.outputs.length + 1) (m.win w).dir cmd)).Like
        { m.make (.log (m.outputs.length + 1) (m.win w).dir cmd) with outputs := outputs } :=
    ⟨fun _ => rfl, rfl, rfl, rfl⟩
  rw [Manager.output] at done
  rcases Option.map_eq_some_iff.1 done with ⟨m₁, placed, rfl⟩
  have spare (outputs : List Output) := (settled.spare bare).like (logged outputs)
  have live := subset_astab placed (spare _).there
  exact (((spare _).astab placed).raised live).like (like_ask _)

theorem Settled.run {text selection : String} (done : m.run w text selection = some m') :
    m'.Settled full [] := by
  rw [Manager.run] at done
  rcases said : text.toList with _ | ⟨c, rest⟩
  · rw [said] at done
    cases done
    exact settled
  rw [said] at done
  dsimp only at done
  by_cases fed : c = '>'
  · rw [if_pos fed] at done
    exact settled.output done
  rw [if_neg fed] at done
  by_cases piped : c = '|' ∨ c = '<'
  · rw [if_pos piped] at done
    cases done
    exact settled.like (like_filter ..)
  · rw [if_neg piped] at done
    exact settled.output done

theorem Settled.retitle (title : String) : (m.retitle w title).Settled full [] := by
  rw [Manager.retitle]
  dsimp only
  split_ifs
  · exact settled
  · exact settled
  · exact settled.like ((like_alter rfl).trans (like_fill _ _))

theorem Settled.newshell {near : Option Nat} (done : m.newshell near = some m') :
    m'.Settled full [] := by
  rw [Manager.newshell] at done
  rcases Option.map_eq_some_iff.1 done with ⟨m₁, placed, rfl⟩
  rcases settled.put (bare_on "/bin/rc" _) placed with ⟨settled', live⟩
  exact settled'.filled live _ _

theorem Settled.placed (all : full) : m.placed ≠ none := by
  have bare := bare_on "" ((m.focus.map fun f => (m.win f).dir).getD "/")
  have beside := (settled.spare bare).astab_isSome all fun v named =>
    ⟨subset_make _ (settled.focused all v named), (settled.tree.focus v named).1.2.ne⟩
  rw [Manager.placed, ne_eq, Option.map_eq_none_iff]
  exact beside

theorem Settled.created : m.created.2.Settled full [] := by
  have bare := bare_on "" ((m.focus.map fun f => (m.win f).dir).getD "/")
  rw [Manager.created]
  rcases placed : m.placed with _ | m'
  · exact ⟨settled.tree.make bare, fun all => absurd placed (settled.placed all),
      fun all => absurd placed (settled.placed all)⟩
  · rw [Manager.placed] at placed
    rcases Option.map_eq_some_iff.1 placed with ⟨m₁, put, rfl⟩
    rcases settled.put bare put with ⟨settled', live⟩
    exact settled'.raised live

end Settled

/-- The containers a layout's line may be in are there. -/
structure Stacked (full : Prop) (stack : List (Int × Nat)) (m : Manager) : Prop where
  settled : m.Settled full []
  live : ∀ e ∈ stack, e.2 ∈ m.windows ∧ ¬(m.win e.2).leaf

theorem popped_subset (depth : Nat) (stack : List (Int × Nat)) : popped depth stack ⊆ stack := by
  fun_induction popped depth stack with
  | case1 top below rest deeper ih => exact fun _ inside => mem_cons_of_mem _ (ih inside)
  | case2 => exact fun _ => id
  | case3 => exact fun _ => id

theorem live_put {stack : List (Int × Nat)} (tree : m.Tree) {x : Window}
    (live : ∀ e ∈ stack, e.2 ∈ m.windows ∧ ¬(m.win e.2).leaf) :
    (∀ e ∈ stack, e.2 ∈ ((m.make x).adoptLast p m.next).windows ∧
        ¬(((m.make x).adoptLast p m.next).win e.2).leaf) ∧
      m.next ∈ ((m.make x).adoptLast p m.next).windows ∧
      (((m.make x).adoptLast p m.next).win m.next).leaf = x.leaf := by
  refine ⟨fun e inside => ?_, ?_, ?_⟩
  · rcases live e inside with ⟨there, divides⟩
    rw [windows_adoptLast, adoptLast, leaf_adopt, win_make_of_ne x (tree.made _ there).2.ne]
    exact ⟨subset_make x there, divides⟩
  · rw [windows_adoptLast]
    exact mem_append_right _ mem_cons_self
  · rw [adoptLast, leaf_adopt, win_make_self]

theorem Stacked.layoutLine {r : List (Int × Nat) × Manager} (stacked : Stacked full r.1 r.2)
    (raw : String) : Stacked full (layoutLine r raw).1 (layoutLine r raw).2 := by
  rw [Manager.layoutLine]
  rcases words (.ofList (uncomment raw.toList)) with _ | ⟨word, more⟩
  · exact ⟨stacked.settled, stacked.live⟩
  have live (e) (inside : e ∈ popped (depth (uncomment raw.toList)) r.1) :=
    stacked.live e (popped_subset _ r.1 inside)
  have innermost : ((popped (depth (uncomment raw.toList)) r.1).head?.map (·.2)).getD root ∈
      r.2.windows ∧ ¬(r.2.win
        (((popped (depth (uncomment raw.toList)) r.1).head?.map (·.2)).getD root)).leaf := by
    rcases within : popped (depth (uncomment raw.toList)) r.1 with _ | ⟨e, rest⟩
    · exact ⟨stacked.settled.tree.base, stacked.settled.tree.root_not_leaf⟩
    · exact live e (within ▸ mem_cons_self)
  dsimp only
  generalize ((popped (depth (uncomment raw.toList)) r.1).head?.map (·.2)).getD root = p
    at innermost
  have put {x : Window} (bare : Bare x) : ((r.2.make x).adoptLast p r.2.next).Settled full [] := by
    have old : p ≠ r.2.next := (stacked.settled.tree.made p innermost.1).2.ne
    apply (stacked.settled.spare bare).adopt _ (subset_make x innermost.1) old
    rw [win_make_of_ne x old]
    exact innermost.2
  rcases division word with _ | kind
  · have like := @like_fill ((r.2.make (.on word (dirname word))).adoptLast p r.2.next) r.2.next
      word (more.head?.getD "")
    refine ⟨(put (bare_on word _)).like like, fun e inside => ?_⟩
    rw [like.windows, like.leaf]
    exact (live_put stacked.settled.tree live).1 e inside
  · rcases live_put (p := p) (x := .container kind (r.2.win p).dir) stacked.settled.tree live with
      ⟨stays, made, leaf⟩
    refine ⟨put (bare_container kind _), fun e inside => ?_⟩
    rcases mem_cons.1 inside with rfl | inside
    · exact ⟨made, leaf ▸ Bool.false_ne_true⟩
    · exact stays e inside

theorem Stacked.layoutLines {r : List (Int × Nat) × Manager} (stacked : Stacked full r.1 r.2)
    (ls : List String) : (ls.foldl Manager.layoutLine r).2.Settled full [] := by
  induction ls generalizing r with
  | nil => exact stacked.settled
  | cons l ls ih => exact ih (stacked.layoutLine l)

theorem Tree.cleared (tree : m.Tree) :
    m.Closings root (m.win root).children ((m.win root).children.foldl Manager.close m) ∧
      (((m.win root).children.foldl Manager.close m).win root).children = [] := by
  have closed : m.Closings root (m.win root).children
      ((m.win root).children.foldl Manager.close m) := by
    apply closings _ tree tree.base
    · exact tree.sound.once root
    · exact fun c child => tree.mem_children.1 child
    · exact Nat.le_refl _
    · exact fun m w tree there other _ => tree.close there other
  refine ⟨closed, ?_⟩
  rw [eq_nil_iff_forall_not_mem]
  intro c child
  have live := closed.tree.live_of_child child
  have parent := closed.tree.mem_children.1 child
  rw [closed.parent live] at parent
  exact closed.out c (tree.mem_children.2 parent) live

theorem Settled.layout (settled : m.Settled full []) (text : String) :
    (m.layout text).Settled full [] := by
  have like : m.Like { m with layoutText := text } := ⟨fun _ => rfl, rfl, rfl, rfl⟩
  have before := settled.like like
  have closed := before.tree.cleared.1
  have cleared := before.left closed.toLeft closed.focused
  have stacked : Stacked full [(-1, root)] ((({ m with layoutText := text } : Manager).win
      root).children.foldl Manager.close { m with layoutText := text }) := by
    refine ⟨cleared, fun e inside => ?_⟩
    cases mem_singleton.1 inside
    exact ⟨cleared.tree.base, cleared.tree.root_not_leaf⟩
  have laid := @Stacked.layoutLines _ ([(-1, root)], _) stacked (lines text)
  rw [Manager.layout]
  refine laid.focusing fun l found => ?_
  rcases laid.tree.firstleafIn laid.tree.base found with ⟨inside, leaf⟩
  exact ⟨laid.tree.made l inside, leaf, fun _ => inside⟩

/-- What one control does: a window that has gone is not shown if it is a leaf. -/
structure Controlled (m : Manager) (full : Prop) (w : Nat) (line : String) (m' : Manager) :
    Prop where
  settled : m'.Settled full []
  made : root ≤ w ∧ w < m'.next
  leaf : (m'.win w).leaf = (m.win w).leaf
  out : w ∉ m'.windows → w ∉ m.windows ∨ Closes line

section Controlled

variable {line : String} (settled : m.Settled full []) (made : root ≤ w ∧ w < m.next)

include settled made

theorem Settled.controlled (like : m.Like m') : m.Controlled full w line m' where
  settled := settled.like like
  made := like.next ▸ made
  leaf := like.leaf w
  out := fun lost => .inl (like.windows ▸ lost)

theorem Settled.closing (closes : Closes line) : m.Controlled full w line (m.close w) := by
  by_cases there : w ∈ m.windows
  · by_cases top : w = root
    · rw [Manager.close, closeIn_of_gone (.inl top)]
      exact settled.controlled made like_rfl
    · have closed := settled.tree.close there top
      refine ⟨settled.left closed.toLeft fun _ => closed.focused, closed.next.symm ▸ made, ?_,
        fun _ => .inr closes⟩
      rw [Window.leaf, Window.leaf, closed.kind]
  · rw [Manager.close, closeIn_of_gone (.inr ((settled.tree.gone w made).2 there))]
    exact settled.controlled made like_rfl

theorem Settled.showing (shown : full → w ∉ m.windows → ¬(m.win w).leaf) :
    m.Controlled full w line (m.select w) := by
  rcases settled.select made shown with ⟨settled', windows, next, kind⟩
  refine ⟨settled', next.symm ▸ made, ?_, fun lost => .inl (windows ▸ lost)⟩
  rw [Window.leaf, Window.leaf, kind]

theorem Settled.ctlLine (shown : full → w ∉ m.windows → (m.win w).leaf → ¬Shows line) :
    m.Controlled full w line (Manager.ctlLine w m line) := by
  have same : m.Controlled full w line m := settled.controlled made like_rfl
  have alter (f : Window → Window) (keeps : ∀ x, (f x).shape = x.shape) :
      m.Controlled full w line (m.alter w f) := settled.controlled made (like_alter (keeps _))
  rw [Manager.ctlLine]
  rcases said : words line with _ | ⟨word, more⟩
  · exact same
  have first : (words line).head? = some word := by
    rw [said]
    rfl
  dsimp only
  split_ifs with set delete hide unhide current clean dirty name
  · split
    · exact same
    · exact alter _ fun _ => rfl
  · apply settled.closing made
    rcases delete with rfl | rfl
    · exact .inl first
    · exact .inr first
  · exact alter _ fun _ => rfl
  · exact alter _ fun _ => rfl
  · apply settled.showing made
    exact fun all out leaf => shown all out leaf (first.trans (congrArg some current))
  · exact alter _ fun _ => rfl
  · exact alter _ fun _ => rfl
  · exact alter _ fun _ => rfl
  · exact same

omit settled made in
theorem Settled.ctlLines {ls : List String} (settled : m.Settled full [])
    (made : root ≤ w ∧ w < m.next)
    (shown : full → w ∉ m.windows → (m.win w).leaf → ∀ line ∈ ls, ¬Shows line)
    (orderly : full → (m.win w).leaf → ∀ front line rest, ls = front ++ line :: rest →
      Closes line → ∀ line' ∈ rest, ¬Shows line') :
    (ls.foldl (Manager.ctlLine w) m).Settled full [] := by
  induction ls generalizing m with
  | nil => exact settled
  | cons l ls ih =>
      have first : m.Controlled full w l (Manager.ctlLine w m l) :=
        settled.ctlLine made fun all out leaf => shown all out leaf l mem_cons_self
      apply ih first.settled first.made
      · intro all out leaf line inside
        rw [first.leaf] at leaf
        rcases first.out out with early | closes
        · exact shown all early leaf line (mem_cons_of_mem _ inside)
        · exact orderly all leaf [] l ls rfl closes line inside
      · intro all leaf front line rest same
        rw [first.leaf] at leaf
        exact orderly all leaf (l :: front) line rest (congrArg (l :: ·) same)

end Controlled

theorem settled_boot (now room : Nat) : (boot now room).Settled full [] := by
  have blank (v : Nat) : Bare ((boot now room).win v) := by
    by_cases top : v = root
    · rw [top]
      exact ⟨rfl, rfl, rfl, rfl⟩
    · rw [boot]
      dsimp only
      rw [Function.update_of_ne top]
      exact ⟨rfl, rfl, rfl, rfl⟩
  have windows : (boot now room).windows = [root] := rfl
  refine ⟨?_, fun _ => nofun, fun _ v there _ => .inl (mem_singleton.1 there)⟩
  refine
    { sound := ?_
      nodup := nodup_singleton _
      base := mem_singleton_self _
      top := (blank root).parent
      divided := rfl
      made := ?_
      gone := ?_
      leaf := fun v _ => (blank v).children
      current := ?_
      shown := fun v _ some => absurd (blank v).children some
      focus := nofun }
  · constructor
    · intro d k child
      have child : k ∈ ((boot now room).win d).children := child
      rw [(blank d).children] at child
      cases child
    · intro d
      have childless : (boot now room).grove.kids d = [] := (blank d).children
      rw [childless]
      exact nodup_nil
    · intro k d parent
      cases (blank k).parent.symm.trans parent
    · exact fun v _ => ⟨v, .refl, (blank v).parent⟩
  · intro v there
    rw [windows, mem_singleton] at there
    rw [there]
    exact ⟨Nat.le_refl root, Nat.lt_succ_self root⟩
  · rintro v ⟨low, high⟩
    have own : v = root := Nat.le_antisymm (Nat.le_of_lt_succ high) low
    rw [own, windows, (blank root).gone]
    simp
  · intro v c current
    cases (blank v).current.symm.trans current

theorem Settled.act (settled : m.Settled full []) {a : TreeAct}
    (there : ∀ w, a.window = some w → w ∈ m.windows) (orderly : full → m.Orderly a)
    (done : m.act a = some m') : m'.Settled full [] := by
  cases a with
  | layout text =>
      cases done
      exact settled.layout text
  | openPath w text => exact settled.openPath done
  | run w text selection => exact settled.run done
  | duplicate w how => exact settled.duplicate (there w rfl) done
  | newshell near => exact settled.newshell done
  | newctl =>
      cases done
      exact settled.created
  | select w =>
      cases done
      exact settled.raised (there w rfl)
  | minimise w =>
      cases done
      exact settled.minimise (there w rfl)
  | maximise w =>
      cases done
      exact settled.maximise (there w rfl)
  | retitle w title =>
      cases done
      exact settled.retitle title
  | close w =>
      cases done
      exact (settled.closing (settled.tree.made w (there w rfl))
        (show Closes "delete" by decide)).settled
  | ctl w text =>
      cases done
      exact settled.ctlLines (settled.tree.made w (there w rfl))
        (fun _ out => absurd (there w rfl) out) orderly

theorem Settled.of_reach (reached : Manager.tree.Reach Orderly m) : m.Settled True [] := by
  apply reached.invariant
  · rintro _ ⟨now, room, rfl⟩
    exact settled_boot now room
  · rintro m a m' settled orderly ⟨there, done⟩
    exact settled.act there (fun _ => orderly) done

theorem Settled.reached (settled : m.Settled True []) : w ∈ m.windows ↔ m.Reached w := by
  constructor
  · intro there
    rcases settled.tree.sound.up w there with ⟨r, below, alone⟩
    have top : r = root := by
      rcases settled.loose trivial r (settled.tree.sound.live_of_below there below)
          alone with top | none
      · exact top
      · cases none
    subst top
    induction below using Relation.ReflTransGen.head_induction_on with
    | refl => exact .root
    | head rises _ ih =>
        exact .child (ih (settled.tree.live_of_parent rises).1) (settled.tree.mem_children.2 rises)
  · intro reached
    induction reached with
    | root => exact settled.tree.base
    | child _ child _ => exact settled.tree.live_of_child child

theorem Settled.whole (settled : m.Settled True []) : m.Whole where
  reached w := settled.reached
  once w there other := by
    have ⟨p, parent⟩ : ∃ p, (m.win w).parent = some p := by
      refine Option.ne_none_iff_exists'.1 fun alone => ?_
      rcases settled.loose trivial w there alone with top | none
      · exact other top
      · cases none
    have child := settled.tree.mem_children.2 parent
    refine ⟨p, parent, ?_, fun q inside => ?_⟩
    · exact count_eq_one_of_mem (settled.tree.sound.once p) child
    · exact Option.some.inj ((settled.tree.mem_children.1 inside).symm.trans parent)
  top := settled.tree.top
  shown w _ := settled.tree.shown w
  current w _ := settled.tree.current w
  leaf w _ := settled.tree.leaf w
  focus f there := ⟨settled.focused trivial f there, (settled.tree.focus f there).2⟩

/-- The states a page comes to: by what is done with the tree, by a window made before something
throws, and by what leaves the tree as it is. -/
inductive Lived : Manager → Prop
  | boot {now room : Nat} : Lived (boot now room)
  | act {m m' : Manager} {a : TreeAct} : Lived m →
      (∀ w, a.window = some w → w ∈ m.windows) → m.act a = some m' → Lived m'
  | thrown {m : Manager} {x : Window} : Lived m → Bare x → Lived (m.make x)
  | like {m m' : Manager} : Lived m → m.Like m' → Lived m'

theorem Lived.tree (lived : m.Lived) : m.Tree := by
  have settled {m : Manager} (tree : m.Tree) : m.Settled False [] := ⟨tree, nofun, nofun⟩
  induction lived with
  | boot => exact (settled_boot _ _ : Manager.Settled _ False []).tree
  | act _ there done ih => exact ((settled ih).act there nofun done).tree
  | thrown _ bare ih => exact ih.make bare
  | like _ like ih => exact like.tree ih

/-- In every run whose messages to a leaf's `ctl` do not show it once they have closed it, the tree
is whole. -/
theorem windows_whole (reached : Manager.tree.Reach Orderly m) : m.Whole :=
  (Settled.of_reach reached).whole

/-- A window made, minimised, and shown and deleted with one message. -/
theorem windows_whole_deleted :
    ((((boot 0 0).created.2).minimise 2).ctl 2 "current\ndelete\n").Whole := by
  have first : Manager.tree.Reach Orderly (boot 0 0) := .init ⟨0, 0, rfl⟩
  have made : Manager.tree.Reach Orderly (boot 0 0).created.2 :=
    first.step (a := .newctl) trivial ⟨nofun, rfl⟩
  have hidden : Manager.tree.Reach Orderly (((boot 0 0).created.2).minimise 2) := by
    refine made.step (a := .minimise 2) trivial ⟨?_, rfl⟩
    rintro w named
    cases named
    decide
  apply windows_whole
  refine hidden.step (a := .ctl 2 "current\ndelete\n") ?_ ⟨?_, rfl⟩
  · intro _ front line rest said closes
    have two : lines "current\ndelete\n" = ["current", "delete", ""] := by decide
    rw [two] at said
    rcases front with _ | ⟨_, _ | ⟨_, _ | ⟨_, front⟩⟩⟩
    · cases said
      exact absurd closes (by decide)
    · cases said
      decide
    · cases said
      nofun
    · simp at said
  · rintro w named
    cases named
    decide

/-- One made, and deleted and shown with one message: it is in focus, and has gone. -/
theorem windows_whole_fails : ¬∀ m, Manager.tree.Reachable m → m.Whole := by
  intro all
  have first : Manager.tree.Reachable (boot 0 0) := .init ⟨0, 0, rfl⟩
  have made : Manager.tree.Reachable (boot 0 0).created.2 :=
    first.step (a := .newctl) trivial ⟨nofun, rfl⟩
  have shown : Manager.tree.Reachable (((boot 0 0).created.2).ctl 2 "delete\ncurrent\n") := by
    refine made.step (a := .ctl 2 "delete\ncurrent\n") trivial ⟨?_, rfl⟩
    rintro w named
    cases named
    decide
  have focus : (((boot 0 0).created.2).ctl 2 "delete\ncurrent\n").focus = some 2 := by
    decide
  have out : 2 ∉ (((boot 0 0).created.2).ctl 2 "delete\ncurrent\n").windows := by decide
  exact out ((all _ shown).focus 2 focus).1

end Manager

end Ipnx.Host.Emca
