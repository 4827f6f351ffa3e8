import Ipnx.Machine.Rfmem

/-!
# The stacks of the sharers

The sharers of a memory that do not run have their stacks kept for them, or, the occupant, in the
region as it left it. That is an invariant of everything the machine does: who is in which group,
which memory and which cell is whose, and what is saved. From it, what a sharer finds when it is
entered.
-/

namespace Ipnx.Rfmem

open Function (update update_apply update_of_ne update_self)

/-- A process belongs to a group: it runs the group's image, in its memory, and the group knows its
cell. -/
structure Belongs (g : Sharing) (pid : Pid) (p : Proc) : Prop where
  program : p.execd = none
  mem : p.mem = g.mem
  top : p.stacktop = g.top
  low : g.lows pid = some p.low

/-- A child that waits for the end of the poll of its parent. -/
structure Pending (w : Wasm) (active : Option Pid) (k : Fork) : Prop where
  parent : active = some k.parent
  unused : w.procs k.pid = none
  low_lt : k.low < w.ncell
  low_ne : ∀ pid p, w.procs pid = some p → p.low ≠ k.low
  of : ∃ p, w.procs k.parent = some p ∧ p.execd = none ∧ p.low = k.parentLow ∧
    p.stacktop = k.stacktop ∧ ∀ mem low stack, k.mem = .share mem low stack → mem = p.mem

/-- Who is in which group, and whose each memory and each cell is, while `active` is polled. -/
structure Wf (w : Wasm) (active : Option Pid) : Prop where
  runs : ∀ pid, active = some pid → w.procs pid ≠ none
  mem_lt : ∀ pid p, w.procs pid = some p → p.mem < w.nmem
  low_lt : ∀ pid p, w.procs pid = some p → p.low < w.ncell
  low_inj : ∀ pid pid' p p', w.procs pid = some p → w.procs pid' = some p' → p.low = p'.low →
    pid = pid'
  member : ∀ pid i, w.sharing pid = some i →
    i < w.ngroup ∧ ∃ p, w.procs pid = some p ∧ Belongs (w.groups i) pid p
  joined : ∀ pid p i, w.procs pid = some p → p.execd = none → i < w.ngroup →
    p.mem = (w.groups i).mem → w.sharing pid = some i
  alone : ∀ pid pid' p p', w.procs pid = some p → w.procs pid' = some p' → p.execd = none →
    p'.execd = none → p.mem = p'.mem → pid ≠ pid' → w.sharing pid ≠ none
  group_lt : ∀ i, i < w.ngroup → (w.groups i).mem < w.nmem
  occupant : ∀ i o, i < w.ngroup → (w.groups i).occupant = some o → w.sharing o = some i
  inplace : ∀ pid i, active = some pid → w.sharing pid = some i →
    (w.groups i).occupant = some pid
  forked : ∀ k, w.forked = some k → Pending w active k

open Shares

/-- The sharers that are not polled have what they left. -/
structure Kept (w : Wasm) (active : Option Pid) (left : Pid → Nat × List UInt8) : Prop where
  shaped : ∀ pid i, w.sharing pid = some i → active ≠ some pid →
    (left pid).1 ≤ (w.groups i).top ∧ (left pid).2.length = (w.groups i).top - (left pid).1
  aside : ∀ pid i, w.sharing pid = some i → active ≠ some pid →
    (w.groups i).occupant ≠ some pid → (w.groups i).stacks_ pid = some (left pid)
  inside : ∀ pid i p, w.sharing pid = some i → active ≠ some pid →
    (w.groups i).occupant = some pid → w.procs pid = some p → left pid = leaves w p
  given : ∀ k mem low stack, w.forked = some k → k.mem = .share mem low stack →
    left k.pid = (low, stack) ∧ low ≤ k.stacktop ∧ stack.length = k.stacktop - low

variable {w : Wasm} {active : Option Pid} {left : Pid → Nat × List UInt8} {pid : Pid} {p : Proc}
  {i : Nat}

theorem clamp_le (x : Int) (top : Nat) : clamp x top ≤ top := Nat.min_le_right _ _

theorem Wf.sharing_none (wf : Wf w active) (none_ : w.procs pid = none) : w.sharing pid = none := by
  cases there : w.sharing pid with
  | none => rfl
  | some i =>
      rcases (wf.member pid i there).2 with ⟨p, found, _⟩
      rw [none_] at found
      cases found

theorem saved_of (wf : Wf w none) (kept : Kept w none left) {q : Pid}
    (there : w.sharing q = some i) : w.saved (w.groups i) q = some (left q) := by
  rcases (wf.member q i there).2 with ⟨p, found, belongs⟩
  rw [Wasm.saved]
  cases occupant : (w.groups i).occupant with
  | none =>
      refine kept.aside q i there (by simp) ?_
      rw [occupant]
      simp
  | some o =>
      dsimp only
      rcases eq_or_ne q o with rfl | other
      · rw [update_self, kept.inside q i p there (by simp) occupant found, leaves,
          belongs.low, belongs.mem, belongs.top]
        rfl
      · rw [update_of_ne other]
        refine kept.aside q i there (by simp) ?_
        rw [occupant]
        exact fun same => other (Option.some.inj same).symm

/-- The group as it is, but for its occupant and the stacks kept. -/
def occupied (g : Sharing) (stacks_ : Pid → Option (Nat × List UInt8)) (pid : Pid) : Sharing :=
  { g with stacks_ := stacks_, occupant := some pid }

theorem Belongs.occupied {g : Sharing} (belongs : Belongs g pid p)
    (stacks_ : Pid → Option (Nat × List UInt8)) (o : Pid) : Belongs (occupied g stacks_ o) pid p :=
  { belongs with }

theorem Wf.occupied (wf : Wf w none) (there : w.sharing pid = some i)
    (stacks_ : Pid → Option (Nat × List UInt8)) :
    Wf (w.setGroup i (occupied (w.groups i) stacks_ pid)) (some pid) := by
  have groups (j : Nat) : (w.setGroup i (Rfmem.occupied (w.groups i) stacks_ pid)).groups j =
      if j = i then Rfmem.occupied (w.groups i) stacks_ pid else w.groups j :=
    update_apply ..
  have mems (j : Nat) : ((w.setGroup i (Rfmem.occupied (w.groups i) stacks_ pid)).groups j).mem =
      (w.groups j).mem := by
    rw [groups]
    split_ifs with same
    · rw [same]
      rfl
    · rfl
  refine ⟨?_, wf.mem_lt, wf.low_lt, wf.low_inj, ?_, ?_, wf.alone, ?_, ?_, ?_, ?_⟩
  · rintro q same
    rcases (wf.member pid i there).2 with ⟨p, found, _⟩
    rw [← Option.some.inj same]
    exact found ▸ Option.some_ne_none p
  · intro q j shares
    rcases wf.member q j shares with ⟨lt, p, found, belongs⟩
    refine ⟨lt, p, found, ?_⟩
    rw [groups]
    split_ifs with same
    · exact (same ▸ belongs).occupied stacks_ pid
    · exact belongs
  · intro q p j found program lt same
    exact wf.joined q p j found program lt (same.trans (mems j))
  · intro j lt
    rw [mems]
    exact wf.group_lt j lt
  · intro j o lt
    rw [groups]
    split_ifs with same
    · rintro ⟨⟩
      exact same ▸ there
    · exact wf.occupant j o lt
  · rintro q j same shares
    cases same
    rw [groups, if_pos (Option.some.inj (shares.symm.trans there))]
    rfl
  · intro k waits
    have parent := (wf.forked k waits).parent
    cases parent

section Wf

variable (wf : Wf w none) (kept : Kept w none left) (there : w.sharing pid = some i)

include wf kept there

theorem occupy_eq (out : (w.groups i).occupant ≠ some pid) : w.occupy pid = { w with
        mems := update w.mems (w.groups i).mem
          (splice (w.mems (w.groups i).mem) (left pid).1 (left pid).2) }.setGroup i
        (occupied (w.groups i) (update (w.saved (w.groups i)) pid none) pid) := by
  rw [Wasm.occupy, there]
  dsimp only
  rw [if_neg out, saved_of wf kept there]
  rfl

theorem occupy_finds (found : w.procs pid = some p) :
    slice ((w.occupy pid).mems p.mem) (left pid).1 p.stacktop = (left pid).2 ∧
      ∀ m a, p.stacktop ≤ a → (w.occupy pid).mems m a = w.mems m a := by
  rcases (wf.member pid i there).2 with ⟨p', found', belongs⟩
  have same : p' = p := Option.some.inj (found'.symm.trans found)
  subst same
  by_cases out : (w.groups i).occupant = some pid
  · have unmoved : w.occupy pid = w := by
      rw [Wasm.occupy, there]
      exact if_pos out
    rw [unmoved, kept.inside pid i p' there (by simp) out found]
    exact ⟨rfl, fun _ _ _ => rfl⟩
  · rw [occupy_eq wf kept there out]
    have shaped := kept.shaped pid i there (by simp)
    rw [← belongs.top] at shaped
    constructor
    · rw [belongs.mem]
      show slice (update w.mems _ _ _) _ _ = _
      rw [update_self]
      exact slice_splice shaped.2
    · intro m a above
      show update w.mems _ _ m a = _
      rcases eq_or_ne m (w.groups i).mem with rfl | differs
      · rw [update_self]
        exact splice_above (by omega)
      · rw [update_of_ne differs]

theorem Kept.occupied
    (out : (w.groups i).occupant ≠ some pid) : Kept (w.occupy pid) (some pid) left := by
  rw [occupy_eq wf kept there out]
  set w' : Wasm := { w with
    mems := update w.mems (w.groups i).mem
      (splice (w.mems (w.groups i).mem) (left pid).1 (left pid).2) }.setGroup i
    (Rfmem.occupied (w.groups i) (update (w.saved (w.groups i)) pid none) pid) with w'_def
  have here : w'.groups i =
      Rfmem.occupied (w.groups i) (update (w.saved (w.groups i)) pid none) pid :=
    update_self ..
  have apart {j : Nat} (differs : j ≠ i) : w'.groups j = w.groups j :=
    update_of_ne differs ..
  refine ⟨?_, ?_, ?_, ?_⟩
  · intro q j shares _
    rcases eq_or_ne j i with rfl | differs
    · rw [here]
      exact kept.shaped q j shares (by simp)
    · rw [apart differs]
      exact kept.shaped q j shares (by simp)
  · intro q j shares other
    rcases eq_or_ne j i with rfl | differs
    · intro _
      rw [here]
      have ne : q ≠ pid := fun same => other (congrArg some same.symm)
      show update (w.saved (w.groups j)) pid none q = _
      rw [update_of_ne ne]
      exact saved_of wf kept shares
    · rw [apart differs]
      exact kept.aside q j shares (by simp)
  · intro q j p shares other occupant found
    rcases eq_or_ne j i with rfl | differs
    · rw [here] at occupant
      exact absurd occupant other
    · rw [apart differs] at occupant
      rw [kept.inside q j p shares (by simp) occupant found]
      rcases wf.member q j shares with ⟨lt, p', found', belongs⟩
      have same : p' = p := Option.some.inj (found'.symm.trans found)
      subst same
      have ne : p'.mem ≠ (w.groups i).mem := by
        intro eq
        have joined := wf.joined q p' i found belongs.program (wf.member pid i there).1 eq
        exact differs (Option.some.inj (shares.symm.trans joined))
      rw [leaves, leaves]
      show _ = (_, slice (update w.mems (w.groups i).mem _ p'.mem) _ _)
      rw [update_of_ne ne]
      rfl
  · intro k mem low stack waits
    exact kept.given k mem low stack waits

end Wf

/-- What of a process its program does not change. -/
structure Like (p p' : Proc) : Prop where
  mem : p'.mem = p.mem
  low : p'.low = p.low
  top : p'.stacktop = p.stacktop
  execd : p'.execd = p.execd

theorem Belongs.like {g : Sharing} {p' : Proc} (belongs : Belongs g pid p) (like : Like p p') :
    Belongs g pid p' :=
  ⟨like.execd.trans belongs.program, like.mem.trans belongs.mem, like.top.trans belongs.top,
    belongs.low.trans (congrArg some like.low.symm)⟩

section Revise

variable {p' : Proc} (found : w.procs pid = some p) (like : Like p p')

include found like

theorem setProc_like {q : Pid} {r' : Proc} (there : (w.setProc pid (some p')).procs q = some r') :
    ∃ r, w.procs q = some r ∧ Like r r' := by
  have procs : update w.procs pid (some p') q = some r' := there
  rcases eq_or_ne q pid with rfl | differs
  · rw [update_self] at procs
    cases procs
    exact ⟨p, found, like⟩
  · rw [update_of_ne differs] at procs
    exact ⟨r', procs, rfl, rfl, rfl, rfl⟩

theorem setProc_of {q : Pid} {r : Proc} (there : w.procs q = some r) :
    ∃ r', (w.setProc pid (some p')).procs q = some r' ∧ Like r r' := by
  rcases eq_or_ne q pid with rfl | differs
  · have same : r = p := Option.some.inj (there.symm.trans found)
    subst same
    exact ⟨p', update_self .., like⟩
  · refine ⟨r, ?_, rfl, rfl, rfl, rfl⟩
    show update w.procs pid (some p') q = _
    rw [update_of_ne differs, there]

theorem Wf.revise (wf : Wf w active) : Wf (w.setProc pid (some p')) active := by
  refine ⟨?_, ?_, ?_, ?_, ?_, ?_, ?_, wf.group_lt, wf.occupant, wf.inplace, ?_⟩
  · intro q polled
    rcases Option.ne_none_iff_exists'.1 (wf.runs q polled) with ⟨r, there⟩
    rcases setProc_of found like there with ⟨r', there', _⟩
    rw [there']
    exact Option.some_ne_none r'
  · intro q r' there
    rcases setProc_like found like there with ⟨r, was, same⟩
    rw [same.mem]
    exact wf.mem_lt q r was
  · intro q r' there
    rcases setProc_like found like there with ⟨r, was, same⟩
    rw [same.low]
    exact wf.low_lt q r was
  · intro q q' r r' there there' eq
    rcases setProc_like found like there with ⟨r₁, was, same⟩
    rcases setProc_like found like there' with ⟨r₂, was', same'⟩
    rw [same.low, same'.low] at eq
    exact wf.low_inj q q' r₁ r₂ was was' eq
  · intro q i shares
    rcases wf.member q i shares with ⟨lt, r, there, belongs⟩
    rcases setProc_of found like there with ⟨r', there', same⟩
    exact ⟨lt, r', there', belongs.like same⟩
  · intro q r' i there program lt eq
    rcases setProc_like found like there with ⟨r, was, same⟩
    exact wf.joined q r i was (same.execd.symm.trans program) lt (same.mem.symm.trans eq)
  · intro q q' r r' there there' program program' eq
    rcases setProc_like found like there with ⟨r₁, was, same⟩
    rcases setProc_like found like there' with ⟨r₂, was', same'⟩
    rw [same.mem, same'.mem] at eq
    exact wf.alone q q' r₁ r₂ was was' (same.execd.symm.trans program)
      (same'.execd.symm.trans program') eq
  · intro k waits
    rcases wf.forked k waits with ⟨parent, unused, low_lt, low_ne, r, there, program, low, top, mem⟩
    have ne : k.pid ≠ pid := by
      intro same
      rw [same, found] at unused
      cases unused
    rcases setProc_of found like there with ⟨r', there', same⟩
    refine ⟨parent, ?_, low_lt, ?_, r', there', same.execd.trans program, same.low.trans low,
      same.top.trans top, fun m l st shares => (mem m l st shares).trans same.mem.symm⟩
    · show update w.procs pid (some p') k.pid = none
      rw [update_of_ne ne, unused]
    · intro q r₁ there₁
      rcases setProc_like found like there₁ with ⟨r₂, was, same₁⟩
      rw [same₁.low]
      exact low_ne q r₂ was

end Revise

theorem Kept.revise (found : w.procs pid = some p) (wf : Wf w (some pid))
    (kept : Kept w (some pid) left)
    (program : p.execd = none) (mem : Mem) (p' : Proc) :
    Kept ({ w with mems := update w.mems p.mem mem }.setProc pid (some p')) (some pid)
      left := by
  refine ⟨kept.shaped, kept.aside, ?_, kept.given⟩
  intro q i r' shares other occupant there
  have ne : q ≠ pid := fun same => other (congrArg some same.symm)
  have was : w.procs q = some r' := by
    have procs : update w.procs pid (some p') q = some r' := there
    rw [update_of_ne ne] at procs
    exact procs
  rw [kept.inside q i r' shares other occupant was]
  rcases wf.member q i shares with ⟨lt, r, found', belongs⟩
  have same : r = r' := Option.some.inj (found'.symm.trans was)
  subst same
  have apart : r.mem ≠ p.mem := by
    intro eq
    have joined := wf.joined pid p i found program lt (eq.symm.trans belongs.mem)
    have mine := wf.inplace pid i rfl joined
    exact ne (Option.some.inj (occupant.symm.trans mine))
  rw [leaves, leaves]
  show _ = (_, slice (update w.mems p.mem mem r.mem) _ _)
  rw [update_of_ne apart]
  rfl

theorem leaves_congr {w' : Wasm} (mems : w'.mems p.mem = w.mems p.mem)
    (cells : w'.cells p.low = w.cells p.low) : leaves w' p = leaves w p := by
  rw [leaves, leaves, mems, cells]

/-- A process that shares nothing has a memory and a cell that are nobody's. -/
structure Born (w w' : Wasm) (pid : Pid) (r : Proc) : Prop where
  apart : w.sharing pid = none
  procs : w'.procs = update w.procs pid (some r)
  mem : r.mem = w.nmem
  low_lt : r.low < w'.ncell
  low_ne : ∀ q r', w.procs q = some r' → r'.low ≠ r.low
  nmem : w'.nmem = w.nmem + 1
  ncell : w.ncell ≤ w'.ncell
  ngroup : w'.ngroup = w.ngroup
  sharing : w'.sharing = w.sharing
  groups : w'.groups = w.groups
  forked : w'.forked = w.forked
  waits : ∀ k, w.forked = some k → k.pid ≠ pid ∧ k.parent ≠ pid ∧ k.low ≠ r.low
  mems : ∀ m, m < w.nmem → w'.mems m = w.mems m
  cells : ∀ c, c < w.ncell → w'.cells c = w.cells c

section Born

variable {w' : Wasm} {r : Proc} (born : Born w w' pid r)

include born

theorem Born.old {q : Pid} {r' : Proc} (there : w'.procs q = some r') :
    q = pid ∧ r' = r ∨ q ≠ pid ∧ w.procs q = some r' := by
  rw [born.procs] at there
  rcases eq_or_ne q pid with rfl | differs
  · rw [update_self] at there
    exact Or.inl ⟨rfl, (Option.some.inj there).symm⟩
  · rw [update_of_ne differs] at there
    exact Or.inr ⟨differs, there⟩

theorem Born.kept {q : Pid} (differs : q ≠ pid) : w'.procs q = w.procs q := by
  rw [born.procs, update_of_ne differs]

theorem Wf.add (wf : Wf w active) : Wf w' active := by
  refine ⟨?_, ?_, ?_, ?_, ?_, ?_, ?_, ?_, ?_, ?_, ?_⟩
  · intro q polled
    rw [born.procs]
    rcases eq_or_ne q pid with rfl | differs
    · rw [update_self]
      exact Option.some_ne_none _
    · rw [update_of_ne differs]
      exact wf.runs q polled
  · intro q r' there
    rw [born.nmem]
    rcases born.old there with ⟨_, rfl⟩ | ⟨_, was⟩
    · rw [born.mem]
      exact Nat.lt_succ_self _
    · exact Nat.lt_succ_of_lt (wf.mem_lt q r' was)
  · intro q r' there
    rcases born.old there with ⟨_, rfl⟩ | ⟨_, was⟩
    · exact born.low_lt
    · exact Nat.lt_of_lt_of_le (wf.low_lt q r' was) born.ncell
  · intro q q' r₁ r₂ there there' eq
    rcases born.old there with ⟨rfl, rfl⟩ | ⟨_, was⟩ <;>
      rcases born.old there' with ⟨rfl, rfl⟩ | ⟨_, was'⟩
    · rfl
    · exact absurd eq.symm (born.low_ne q' r₂ was')
    · exact absurd eq (born.low_ne q r₁ was)
    · exact wf.low_inj q q' r₁ r₂ was was' eq
  · intro q i shares
    rw [born.sharing] at shares
    rw [born.ngroup, born.groups]
    rcases wf.member q i shares with ⟨lt, r', there, belongs⟩
    have ne : q ≠ pid := by
      rintro rfl
      exact absurd (born.apart.symm.trans shares) (by simp)
    exact ⟨lt, r', (born.kept ne).trans there, belongs⟩
  · intro q r' i there program lt eq
    rw [born.ngroup] at lt
    rw [born.groups] at eq
    rw [born.sharing]
    rcases born.old there with ⟨_, rfl⟩ | ⟨_, was⟩
    · have small := wf.group_lt i lt
      rw [← eq, born.mem] at small
      exact absurd small (Nat.lt_irrefl _)
    · exact wf.joined q r' i was program lt eq
  · intro q q' r₁ r₂ there there' program program' eq ne
    rw [born.sharing]
    rcases born.old there with ⟨rfl, rfl⟩ | ⟨_, was⟩ <;>
      rcases born.old there' with ⟨rfl, rfl⟩ | ⟨_, was'⟩
    · exact absurd rfl ne
    · have small := wf.mem_lt q' r₂ was'
      rw [← eq, born.mem] at small
      exact absurd small (Nat.lt_irrefl _)
    · have small := wf.mem_lt q r₁ was
      rw [eq, born.mem] at small
      exact absurd small (Nat.lt_irrefl _)
    · exact wf.alone q q' r₁ r₂ was was' program program' eq ne
  · intro i lt
    rw [born.ngroup] at lt
    rw [born.groups, born.nmem]
    exact Nat.lt_succ_of_lt (wf.group_lt i lt)
  · intro i o lt
    rw [born.ngroup] at lt
    rw [born.groups, born.sharing]
    exact wf.occupant i o lt
  · intro q i
    rw [born.groups, born.sharing]
    exact wf.inplace q i
  · intro k waiting
    rw [born.forked] at waiting
    rcases wf.forked k waiting with ⟨parent, unused, low_lt, low_ne, r₁, there, rest⟩
    rcases born.waits k waiting with ⟨ne, ne', low⟩
    refine ⟨parent, (born.kept ne).trans unused, Nat.lt_of_lt_of_le low_lt born.ncell, ?_, r₁,
      (born.kept ne').trans there, rest⟩
    intro q r' there'
    rcases born.old there' with ⟨_, rfl⟩ | ⟨_, was⟩
    · exact low.symm
    · exact low_ne q r' was

theorem Kept.add (wf : Wf w active) (kept : Kept w active left) : Kept w' active left := by
  refine ⟨?_, ?_, ?_, ?_⟩
  · intro q i
    rw [born.sharing, born.groups]
    exact kept.shaped q i
  · intro q i
    rw [born.sharing, born.groups]
    exact kept.aside q i
  · intro q i r' shares other occupant there
    rw [born.sharing] at shares
    rw [born.groups] at occupant
    rcases born.old there with ⟨rfl, rfl⟩ | ⟨_, was⟩
    · exact absurd (born.apart.symm.trans shares) (by simp)
    · rw [kept.inside q i r' shares other occupant was]
      exact (leaves_congr (born.mems _ (wf.mem_lt q r' was))
        (born.cells _ (wf.low_lt q r' was))).symm
  · intro k mem low stack
    rw [born.forked]
    exact kept.given k mem low stack

end Born

theorem born_make (wf : Wf w active) (image : Image) (apart : w.sharing pid = none)
    (waits : ∀ k, w.forked = some k → k.pid ≠ pid ∧ k.parent ≠ pid) :
    Born w (w.make pid image) pid
      ⟨w.nmem, none, w.ncell, 0, image.stacktop, image.tos, none⟩ where
  apart := apart
  procs := rfl
  mem := rfl
  low_lt := Nat.lt_succ_self _
  low_ne q r there := Nat.ne_of_lt (wf.low_lt q r there)
  nmem := rfl
  ncell := Nat.le_succ _
  ngroup := rfl
  sharing := rfl
  groups := rfl
  forked := rfl
  waits k waiting :=
    ⟨(waits k waiting).1, (waits k waiting).2, Nat.ne_of_lt (wf.forked k waiting).low_lt⟩
  mems _ lt := update_of_ne (Nat.ne_of_lt lt) _ _
  cells _ lt := update_of_ne (Nat.ne_of_lt lt) _ _

theorem Wf.fork (wf : Wf w (some pid)) (found : w.procs pid = some p) (program : p.execd = none)
    (sp : Int) {child : Pid} (unused : w.procs child = none) (share : Bool) :
    Wf (w.fork pid p sp child share) (some pid) := by
  refine ⟨wf.runs, wf.mem_lt, ?_, wf.low_inj, wf.member, wf.joined, wf.alone, wf.group_lt,
    wf.occupant, wf.inplace, ?_⟩
  · intro q r there
    exact Nat.lt_succ_of_lt (wf.low_lt q r there)
  · rintro k ⟨⟩
    refine ⟨rfl, unused, Nat.lt_succ_self _, ?_, p, found, program, rfl, rfl, ?_⟩
    · intro q r there
      exact Nat.ne_of_lt (wf.low_lt q r there)
    · intro mem low stack
      cases share with
      | true =>
          rintro ⟨⟩
          rfl
      | false => rintro ⟨⟩

theorem Kept.fork (wf : Wf w (some pid)) (kept : Kept w (some pid) left) (sp : Int) {child : Pid}
    (unused : w.procs child = none) (share : Bool) :
    Kept (w.fork pid p sp child share) (some pid)
      (update left child (Shares.given w p sp child)) := by
  have ne {q : Pid} {i : Nat} (shares : w.sharing q = some i) : q ≠ child := by
    rintro rfl
    exact absurd ((wf.sharing_none unused).symm.trans shares) (by simp)
  refine ⟨?_, ?_, ?_, ?_⟩
  · intro q i shares other
    rw [update_of_ne (ne shares)]
    exact kept.shaped q i shares other
  · intro q i shares other occupant
    rw [update_of_ne (ne shares)]
    exact kept.aside q i shares other occupant
  · intro q i r shares other occupant there
    rw [update_of_ne (ne shares), kept.inside q i r shares other occupant there]
    refine (leaves_congr ?_ ?_).symm
    · rfl
    · exact update_of_ne (Nat.ne_of_lt (wf.low_lt q r there)) _ _
  · rintro k mem low stack ⟨⟩
    cases share with
    | false => rintro ⟨⟩
    | true =>
        rintro ⟨⟩
        rw [update_self, Shares.given]
        dsimp only
        split_ifs with inside
        · have four : (pidBytes child).length = 4 := rfl
          rw [overwrite_slice inside.1 (four ▸ inside.2)]
          exact ⟨rfl, clamp_le _ _, length_slice⟩
        · exact ⟨rfl, clamp_le _ _, length_slice⟩

def without (g : Sharing) (pid : Pid) : Sharing :=
  { g with
    stacks_ := update g.stacks_ pid none
    lows := update g.lows pid none
    occupant := if g.occupant = some pid then none else g.occupant }

theorem leave_groups (w : Wasm) (pid : Pid) (j : Nat) :
    (w.leave pid).groups j =
      if w.sharing pid = some j then without (w.groups j) pid else w.groups j := by
  rw [Wasm.leave]
  cases there : w.sharing pid with
  | none => rw [if_neg (by simp)]
  | some i =>
      show update w.groups i (without (w.groups i) pid) j = _
      rcases eq_or_ne j i with rfl | differs
      · rw [update_self, if_pos rfl]
      · rw [update_of_ne differs, if_neg fun same => differs (Option.some.inj same).symm]

theorem leave_sharing (w : Wasm) (pid q : Pid) :
    (w.leave pid).sharing q = if q = pid then none else w.sharing q := by
  rw [Wasm.leave]
  cases there : w.sharing pid with
  | none =>
      split_ifs with same
      · rw [same, there]
      · rfl
  | some i => exact update_apply ..

theorem leave_frame (w : Wasm) (pid : Pid) :
    (w.leave pid).procs = w.procs ∧ (w.leave pid).mems = w.mems ∧ (w.leave pid).cells = w.cells ∧
      (w.leave pid).nmem = w.nmem ∧ (w.leave pid).ncell = w.ncell ∧
      (w.leave pid).ngroup = w.ngroup ∧ (w.leave pid).forked = w.forked := by
  rw [Wasm.leave]
  split <;> exact ⟨rfl, rfl, rfl, rfl, rfl, rfl, rfl⟩

theorem leave_mem (w : Wasm) (pid : Pid) (j : Nat) :
    ((w.leave pid).groups j).mem = (w.groups j).mem := by
  rw [leave_groups]
  split_ifs <;> rfl

theorem leave_top (w : Wasm) (pid : Pid) (j : Nat) :
    ((w.leave pid).groups j).top = (w.groups j).top := by
  rw [leave_groups]
  split_ifs <;> rfl

theorem Belongs.leave {q : Pid} (belongs : Belongs (w.groups i) q p) (differs : q ≠ pid) :
    Belongs ((w.leave pid).groups i) q p := by
  refine ⟨belongs.program, belongs.mem.trans (leave_mem w pid i).symm,
    belongs.top.trans (leave_top w pid i).symm, ?_⟩
  rw [leave_groups]
  split_ifs
  · exact (update_of_ne differs _ _).trans belongs.low
  · exact belongs.low

/-- The process has `exec`d, or is no more. -/
structure Gone (p : Proc) (o : Option Proc) : Prop where
  mem : ∀ r, o = some r → r.mem = p.mem
  low : ∀ r, o = some r → r.low = p.low
  program : ∀ r, o = some r → r.execd ≠ none

section Quit

variable {o : Option Proc} (gone : Gone p o) (found : w.procs pid = some p)

include gone found

omit gone in
theorem quit_procs {q : Pid} {r : Proc} (there : ((w.leave pid).setProc pid o).procs q = some r) :
    q = pid ∧ o = some r ∨ q ≠ pid ∧ w.procs q = some r := by
  have procs : update (w.leave pid).procs pid o q = some r := there
  rcases eq_or_ne q pid with rfl | differs
  · rw [update_self] at procs
    exact Or.inl ⟨rfl, procs⟩
  · rw [update_of_ne differs, (leave_frame w pid).1] at procs
    exact Or.inr ⟨differs, procs⟩

theorem quit_was {q : Pid} {r : Proc} (there : ((w.leave pid).setProc pid o).procs q = some r) :
    ∃ r', w.procs q = some r' ∧ r.mem = r'.mem ∧ r.low = r'.low ∧
      (r.execd = none → q ≠ pid ∧ r = r') := by
  rcases quit_procs found there with ⟨rfl, same⟩ | ⟨ne, was⟩
  · exact ⟨p, found, gone.mem r same, gone.low r same,
      fun program => absurd program (gone.program r same)⟩
  · exact ⟨r, was, rfl, rfl, fun _ => ⟨ne, rfl⟩⟩

theorem Wf.quit (wf : Wf w active) (none_ : w.forked = none) {active' : Option Pid}
    (polled : ∀ q, active' = some q → q = pid ∧ o ≠ none) :
    Wf ((w.leave pid).setProc pid o) active' := by
  rcases leave_frame w pid with ⟨procs, _, _, nmem, ncell, ngroup, forked⟩
  have sharing (q : Pid) : ((w.leave pid).setProc pid o).sharing q =
      if q = pid then none else w.sharing q := leave_sharing w pid q
  have kept {q : Pid} (differs : q ≠ pid) :
      ((w.leave pid).setProc pid o).procs q = w.procs q := by
    show update (w.leave pid).procs pid o q = _
    rw [update_of_ne differs, procs]
  have mems (j : Nat) : (((w.leave pid).setProc pid o).groups j).mem = (w.groups j).mem :=
    leave_mem w pid j
  refine ⟨?_, ?_, ?_, ?_, ?_, ?_, ?_, ?_, ?_, ?_, ?_⟩
  · intro q same
    rcases polled q same with ⟨rfl, some_⟩
    show update (w.leave q).procs q o q ≠ none
    rw [update_self]
    exact some_
  · intro q r there
    rcases quit_was gone found there with ⟨r', was, mem, _, _⟩
    rw [mem]
    exact nmem.symm ▸ wf.mem_lt q r' was
  · intro q r there
    rcases quit_was gone found there with ⟨r', was, _, low, _⟩
    rw [low]
    exact ncell.symm ▸ wf.low_lt q r' was
  · intro q q' r r' there there' eq
    rcases quit_was gone found there with ⟨r₁, was, _, low, _⟩
    rcases quit_was gone found there' with ⟨r₂, was', _, low', _⟩
    exact wf.low_inj q q' r₁ r₂ was was' (low.symm.trans (eq.trans low'))
  · intro q i shares
    rw [sharing] at shares
    split_ifs at shares with same
    rcases wf.member q i shares with ⟨lt, r, there, belongs⟩
    exact ⟨ngroup.symm ▸ lt, r, (kept same).trans there, belongs.leave same⟩
  · intro q r j there program lt eq
    rcases quit_was gone found there with ⟨r', was, _, _, same⟩
    rcases same program with ⟨ne, rfl⟩
    rw [sharing, if_neg ne]
    exact wf.joined q r j was program (ngroup ▸ lt) (eq.trans (mems j))
  · intro q q' r r' there there' program program' eq ne
    rcases quit_was gone found there with ⟨r₁, was, _, _, same⟩
    rcases quit_was gone found there' with ⟨r₂, was', _, _, same'⟩
    rcases same program with ⟨ne₁, rfl⟩
    rcases same' program' with ⟨_, rfl⟩
    rw [sharing, if_neg ne₁]
    exact wf.alone q q' r r' was was' program program' eq ne
  · intro j lt
    rw [mems]
    exact nmem.symm ▸ wf.group_lt j (ngroup ▸ lt)
  · intro j q lt occupant
    have was : (w.groups j).occupant = some q ∧ q ≠ pid := by
      have there : ((w.leave pid).groups j).occupant = some q := occupant
      rw [leave_groups] at there
      split_ifs at there with shares
      · have there' : (if (w.groups j).occupant = some pid then none else (w.groups j).occupant) =
          some q := there
        split_ifs at there' with mine
        exact ⟨there', fun same => mine (same ▸ there')⟩
      · refine ⟨there, ?_⟩
        rintro rfl
        exact shares (wf.occupant j q (ngroup ▸ lt) there)
    rw [sharing, if_neg was.2]
    exact wf.occupant j q (ngroup ▸ lt) was.1
  · intro q i same shares
    rw [sharing, if_pos (polled q same).1] at shares
    cases shares
  · intro k waits
    have waits' : (w.leave pid).forked = some k := waits
    rw [forked, none_] at waits'
    cases waits'

omit gone in
theorem Kept.quit (kept : Kept w (some pid) left) (none_ : w.forked = none)
    (active' : Option Pid) : Kept ((w.leave pid).setProc pid o) active' left := by
  rcases leave_frame w pid with ⟨procs, mems, cells, _, _, _, forked⟩
  have was {q : Pid} {i : Nat} (shares : ((w.leave pid).setProc pid o).sharing q = some i) :
      q ≠ pid ∧ w.sharing q = some i := by
    have there : (w.leave pid).sharing q = some i := shares
    rw [leave_sharing] at there
    split_ifs at there with same
    exact ⟨same, there⟩
  have ne {q : Pid} (differs : q ≠ pid) : some pid ≠ some q := fun same =>
    differs (Option.some.inj same).symm
  have occupants {q : Pid} {j : Nat} (differs : q ≠ pid) :
      (((w.leave pid).setProc pid o).groups j).occupant = some q ↔
        (w.groups j).occupant = some q := by
    show ((w.leave pid).groups j).occupant = some q ↔ _
    rw [leave_groups]
    split_ifs
    · show (if (w.groups j).occupant = some pid then none else (w.groups j).occupant) = _ ↔ _
      split_ifs with mine
      · rw [mine]
        exact ⟨nofun, fun same => absurd same (ne differs)⟩
      · rfl
    · rfl
  refine ⟨?_, ?_, ?_, ?_⟩
  · intro q j shares _
    rcases was shares with ⟨differs, before⟩
    have top : (((w.leave pid).setProc pid o).groups j).top = (w.groups j).top := leave_top w pid j
    rw [top]
    exact kept.shaped q j before (ne differs)
  · intro q j shares _ out
    rcases was shares with ⟨differs, before⟩
    rw [Ne, occupants differs] at out
    rw [← kept.aside q j before (ne differs) out]
    show ((w.leave pid).groups j).stacks_ q = _
    rw [leave_groups]
    split_ifs
    · exact update_of_ne differs _ _
    · rfl
  · intro q j r shares _ there procs'
    rcases was shares with ⟨differs, before⟩
    rw [occupants differs] at there
    rcases quit_procs found procs' with ⟨same, _⟩ | ⟨_, found'⟩
    · exact absurd same differs
    · rw [kept.inside q j r before (ne differs) there found']
      exact (leaves_congr (congrFun mems r.mem) (congrFun cells r.low)).symm
  · intro k mem low stack waits
    have waits' : (w.leave pid).forked = some k := waits
    rw [forked, none_] at waits'
    cases waits'

end Quit

/-- The machine with no child waiting, and nobody polled. -/
def Wasm.taken (w : Wasm) : Wasm := { w with forked := none, running := none }

theorem Wf.taken (wf : Wf w active) : Wf w.taken active where
  __ := wf
  forked _ waits := by cases waits

theorem Kept.taken (kept : Kept w active left) : Kept w.taken active left where
  __ := kept
  given _ _ _ _ waits := by cases waits

variable {k : Fork}

theorem Wf.found (wf : Wf w (some k.parent)) (none_ : w.forked = none)
    (there : w.procs k.parent = some p) (program : p.execd = none) (low : p.low = k.parentLow)
    (top : p.stacktop = k.stacktop) :
    Wf (w.found k p.mem).2 (some k.parent) ∧
      (w.found k p.mem).2.sharing k.parent = some (w.found k p.mem).1 := by
  rw [Wasm.found]
  cases shares : w.sharing k.parent with
  | some i => exact ⟨wf, shares⟩
  | none =>
      dsimp only
      have old {j : Nat} (lt : j < w.ngroup) (g : Sharing) :
          update w.groups w.ngroup g j = w.groups j :=
        update_of_ne (Nat.ne_of_lt lt) _ _
      have other {q : Pid} {i : Nat} (before : w.sharing q = some i) : q ≠ k.parent := by
        rintro rfl
        exact absurd (shares.symm.trans before) (by simp)
      refine ⟨⟨wf.runs, wf.mem_lt, wf.low_lt, wf.low_inj, ?_, ?_, ?_, ?_, ?_, ?_, ?_⟩,
        update_self ..⟩
      · intro q i now
        dsimp only at now ⊢
        rcases eq_or_ne q k.parent with rfl | differs
        · rw [update_self] at now
          cases now
          refine ⟨Nat.lt_succ_self _, p, there, ?_⟩
          rw [update_self]
          refine ⟨program, rfl, top, ?_⟩
          show update (fun _ : Pid => (none : Option Nat)) _ _ k.parent = _
          rw [update_self, low]
        · rw [update_of_ne differs] at now
          rcases wf.member q i now with ⟨lt, r, found, belongs⟩
          rw [old lt]
          exact ⟨Nat.lt_succ_of_lt lt, r, found, belongs⟩
      · intro q r i found free lt eq
        dsimp only at lt eq ⊢
        rcases Nat.lt_or_ge i w.ngroup with before | past
        · rw [old before] at eq
          have joined := wf.joined q r i found free before eq
          rw [update_of_ne (other joined)]
          exact joined
        · have new : i = w.ngroup := by omega
          subst new
          rw [update_self] at eq
          rcases eq_or_ne q k.parent with rfl | differs
          · exact update_self ..
          · exact absurd shares (wf.alone k.parent q p r there found program free eq.symm
                differs.symm)
      · intro q q' r r' found found' free free' eq ne
        dsimp only
        rcases eq_or_ne q k.parent with rfl | differs
        · rw [update_self]
          exact Option.some_ne_none _
        · rw [update_of_ne differs]
          exact wf.alone q q' r r' found found' free free' eq ne
      · intro i lt
        dsimp only at lt ⊢
        rcases Nat.lt_or_ge i w.ngroup with before | past
        · rw [old before]
          exact wf.group_lt i before
        · have new : i = w.ngroup := by omega
          subst new
          rw [update_self]
          exact wf.mem_lt k.parent p there
      · intro i o lt occupant
        dsimp only at lt occupant ⊢
        rcases Nat.lt_or_ge i w.ngroup with before | past
        · rw [old before] at occupant
          have joined := wf.occupant i o before occupant
          rw [update_of_ne (other joined)]
          exact joined
        · have new : i = w.ngroup := by omega
          subst new
          rw [update_self] at occupant
          cases occupant
          exact update_self ..
      · intro q i same now
        cases same
        dsimp only at now ⊢
        rw [update_self] at now
        cases now
        rw [update_self]
      · intro k' waits
        have waits' : w.forked = some k' := waits
        rw [none_] at waits'
        cases waits'

theorem found_frame (w : Wasm) (k : Fork) (mem : Nat) :
    (w.found k mem).2.procs = w.procs ∧ (w.found k mem).2.ncell = w.ncell ∧
      (w.found k mem).2.forked = w.forked ∧ (w.found k mem).2.mems = w.mems ∧
      (w.found k mem).2.cells = w.cells := by
  rw [Wasm.found]
  split <;> exact ⟨rfl, rfl, rfl, rfl, rfl⟩

theorem Kept.found (wf : Wf w (some k.parent)) (kept : Kept w (some k.parent) left)
    (none_ : w.forked = none) (mem : Nat) : Kept (w.found k mem).2 (some k.parent) left := by
  rw [Wasm.found]
  cases shares : w.sharing k.parent with
  | some i => exact kept
  | none =>
      dsimp only
      have before {q : Pid} {i : Nat} (other : some k.parent ≠ some q)
          (now : update w.sharing k.parent (some w.ngroup) q = some i) :
          w.sharing q = some i ∧ ∀ g, update w.groups w.ngroup g i = w.groups i := by
        rw [update_of_ne fun same => other (congrArg some same.symm)] at now
        have lt := (wf.member q i now).1
        exact ⟨now, fun g => update_of_ne (Nat.ne_of_lt lt) _ _⟩
      refine ⟨?_, ?_, ?_, ?_⟩
      · intro q i now other
        rcases before other now with ⟨was, same⟩
        dsimp only
        rw [same]
        exact kept.shaped q i was other
      · intro q i now other
        rcases before other now with ⟨was, same⟩
        dsimp only
        rw [same]
        exact kept.aside q i was other
      · intro q i r now other
        rcases before other now with ⟨was, same⟩
        dsimp only
        rw [same]
        exact kept.inside q i r was other
      · intro k' m low stack waits
        have waits' : w.forked = some k' := waits
        rw [none_] at waits'
        cases waits'

def joinedBy (g : Sharing) (k : Fork) (low : Nat) (stack : List UInt8) : Sharing :=
  { g with
    stacks_ := update g.stacks_ k.pid (some (low, stack))
    lows := update g.lows k.pid (some k.low) }

def childProc (k : Fork) (mem : Nat) : Proc :=
  ⟨mem, none, k.low, k.regionLow, k.stacktop, k.tos, none⟩

def Wasm.join (w : Wasm) (k : Fork) (i mem low : Nat) (stack : List UInt8) : Wasm :=
  ({ w with sharing := update w.sharing k.pid (some i) }.setGroup i
    (joinedBy (w.groups i) k low stack)).setProc k.pid (some (childProc k mem))

section Join

variable {low mem : Nat} {stack : List UInt8}

theorem join_groups (i j : Nat) : ((w.join k i mem low stack).groups j) =
    if j = i then joinedBy (w.groups i) k low stack else w.groups j :=
  update_apply ..

theorem join_mem (i j : Nat) :
    ((w.join k i mem low stack).groups j).mem = (w.groups j).mem := by
  rw [join_groups]
  split_ifs with same
  · rw [same]
    rfl
  · rfl

theorem join_occupant (i j : Nat) :
    ((w.join k i mem low stack).groups j).occupant = (w.groups j).occupant := by
  rw [join_groups]
  split_ifs with same
  · rw [same]
    rfl
  · rfl

theorem join_procs {q : Pid} {r : Proc} (there : (w.join k i mem low stack).procs q = some r) :
    q = k.pid ∧ r = childProc k mem ∨ q ≠ k.pid ∧ w.procs q = some r := by
  have procs : update w.procs k.pid (some (childProc k mem)) q = some r := there
  rcases eq_or_ne q k.pid with rfl | differs
  · rw [update_self] at procs
    exact Or.inl ⟨rfl, (Option.some.inj procs).symm⟩
  · rw [update_of_ne differs] at procs
    exact Or.inr ⟨differs, procs⟩

theorem Belongs.join {q : Pid} {j : Nat} (belongs : Belongs (w.groups j) q p)
    (differs : q ≠ k.pid) : Belongs ((w.join k i mem low stack).groups j) q p := by
  rw [join_groups]
  split_ifs with same
  · rw [same] at belongs
    refine ⟨belongs.program, belongs.mem, belongs.top, ?_⟩
    show update (w.groups i).lows k.pid (some k.low) q = _
    rw [update_of_ne differs]
    exact belongs.low
  · exact belongs

theorem Wf.join (wf : Wf w (some k.parent)) (none_ : w.forked = none)
    (unused : w.procs k.pid = none) (low_lt : k.low < w.ncell)
    (low_ne : ∀ q r, w.procs q = some r → r.low ≠ k.low) (there : w.procs k.parent = some p)
    (program : p.execd = none) (top : p.stacktop = k.stacktop)
    (shares : w.sharing k.parent = some i) :
    Wf (w.join k i p.mem low stack) (some k.parent) := by
  rcases wf.member k.parent i shares with ⟨i_lt, p', found', parent⟩
  have same : p' = p := Option.some.inj (found'.symm.trans there)
  subst same
  have sharing (q : Pid) : (w.join k i p'.mem low stack).sharing q =
      if q = k.pid then some i else w.sharing q := update_apply ..
  have kept {q : Pid} (differs : q ≠ k.pid) :
      (w.join k i p'.mem low stack).procs q = w.procs q := update_of_ne differs ..
  have member {q : Pid} {r : Proc} (found : w.procs q = some r) : q ≠ k.pid := by
    rintro rfl
    rw [unused] at found
    cases found
  refine ⟨?_, ?_, ?_, ?_, ?_, ?_, ?_, ?_, ?_, ?_, ?_⟩
  · intro q same
    have ne : q ≠ k.pid := Option.some.inj same ▸ member there
    rw [kept ne]
    exact wf.runs q same
  · intro q r found
    rcases join_procs found with ⟨_, rfl⟩ | ⟨_, was⟩
    · exact wf.mem_lt k.parent p' there
    · exact wf.mem_lt q r was
  · intro q r found
    rcases join_procs found with ⟨_, rfl⟩ | ⟨_, was⟩
    · exact low_lt
    · exact wf.low_lt q r was
  · intro q q' r r' found found' eq
    rcases join_procs found with ⟨rfl, rfl⟩ | ⟨_, was⟩ <;>
      rcases join_procs found' with ⟨rfl, rfl⟩ | ⟨_, was'⟩
    · rfl
    · exact absurd eq.symm (low_ne q' r' was')
    · exact absurd eq (low_ne q r was)
    · exact wf.low_inj q q' r r' was was' eq
  · intro q j now
    rw [sharing] at now
    split_ifs at now with same
    · cases now
      refine ⟨i_lt, childProc k p'.mem, ?_, rfl, ?_, ?_, ?_⟩
      · rw [same]
        exact update_self ..
      · rw [join_mem]
        exact parent.mem
      · rw [join_groups, if_pos rfl]
        exact top.symm.trans parent.top
      · rw [join_groups, if_pos rfl, same]
        exact update_self ..
    · rcases wf.member q j now with ⟨lt, r, found, belongs⟩
      exact ⟨lt, r, (kept same).trans found, belongs.join same⟩
  · intro q r j found free lt eq
    rw [join_mem] at eq
    rcases join_procs found with ⟨rfl, rfl⟩ | ⟨ne, was⟩
    · have joined := wf.joined k.parent p' j there program lt eq
      rw [sharing, if_pos rfl]
      exact shares.symm.trans joined
    · rw [sharing, if_neg ne]
      exact wf.joined q r j was free lt eq
  · intro q q' r r' found found' free free' eq ne
    rw [sharing]
    split_ifs with same
    · exact Option.some_ne_none i
    · rcases join_procs found with ⟨rfl, _⟩ | ⟨_, was⟩
      · exact absurd rfl same
      · rcases join_procs found' with ⟨rfl, rfl⟩ | ⟨_, was'⟩
        · have joined := wf.joined q r i was free i_lt (eq.trans parent.mem)
          rw [joined]
          exact Option.some_ne_none i
        · exact wf.alone q q' r r' was was' free free' eq ne
  · intro j lt
    rw [join_mem]
    exact wf.group_lt j lt
  · intro j o lt occupant
    rw [join_occupant] at occupant
    have before := wf.occupant j o lt occupant
    rcases (wf.member o j before).2 with ⟨r, found, _⟩
    rw [sharing, if_neg (member found)]
    exact before
  · intro q j same now
    rw [join_occupant]
    have ne : q ≠ k.pid := Option.some.inj same ▸ member there
    rw [sharing, if_neg ne] at now
    exact wf.inplace q j same now
  · intro k' waits
    have waits' : w.forked = some k' := waits
    rw [none_] at waits'
    cases waits'

theorem Kept.join (wf : Wf w (some k.parent)) (kept : Kept w (some k.parent) left)
    (none_ : w.forked = none) (shares : w.sharing k.parent = some i)
    (top : (w.groups i).top = k.stacktop)
    (given : left k.pid = (low, stack)) (shaped : low ≤ k.stacktop)
    (length : stack.length = k.stacktop - low) :
    Kept (w.join k i mem low stack) (some k.parent) left := by
  have sharing (q : Pid) : (w.join k i mem low stack).sharing q =
      if q = k.pid then some i else w.sharing q := update_apply ..
  have tops (j : Nat) : ((w.join k i mem low stack).groups j).top = (w.groups j).top := by
    rw [join_groups]
    split_ifs with same
    · rw [same]
      rfl
    · rfl
  refine ⟨?_, ?_, ?_, ?_⟩
  · intro q j now other
    rw [sharing] at now
    rw [tops]
    split_ifs at now with same
    · cases now
      rw [same, given, top]
      exact ⟨shaped, length⟩
    · exact kept.shaped q j now other
  · intro q j now other out
    rw [sharing] at now
    rw [join_occupant] at out
    rw [join_groups]
    split_ifs at now with same
    · cases now
      rw [if_pos rfl, same, given]
      exact update_self ..
    · rw [← kept.aside q j now other out]
      split_ifs with here
      · rw [here]
        exact update_of_ne same _ _
      · rfl
  · intro q j r now other occupant found
    rw [sharing] at now
    rw [join_occupant] at occupant
    split_ifs at now with same
    · cases now
      rw [same] at occupant
      have parent := wf.inplace k.parent i rfl shares
      rw [parent] at occupant
      exact absurd (occupant.trans (congrArg some same.symm)) other
    · rcases join_procs found with ⟨is, _⟩ | ⟨_, was⟩
      · exact absurd is same
      · exact kept.inside q j r now other occupant was
  · intro k' m l st waits
    have waits' : w.forked = some k' := waits
    rw [none_] at waits'
    cases waits'

end Join

theorem born_child (wf : Wf w active) {low : Nat} {bytes : Mem} (copy : k.mem = .copy low bytes)
    (none_ : w.forked = none) (unused : w.procs k.pid = none) (low_lt : k.low < w.ncell)
    (low_ne : ∀ q r, w.procs q = some r → r.low ≠ k.low) :
    Born w (w.child k) k.pid ⟨w.nmem, none, k.low, k.regionLow, k.stacktop, k.tos, none⟩ := by
  rw [Wasm.child, copy]
  exact {
    apart := wf.sharing_none unused
    procs := rfl
    mem := rfl
    low_lt := low_lt
    low_ne := low_ne
    nmem := rfl
    ncell := Nat.le_refl _
    ngroup := rfl
    sharing := rfl
    groups := rfl
    forked := rfl
    waits := fun k' waiting => by
      rw [none_] at waiting
      cases waiting
    mems := fun _ lt => update_of_ne (Nat.ne_of_lt lt) _ _
    cells := fun _ _ => rfl }

theorem settle_none (none_ : w.forked = none) : w.settle = w.taken := by
  rw [Wasm.settle, none_]
  rfl

theorem settle_copy {low : Nat} {bytes : Mem} (waits : w.forked = some k)
    (mem : k.mem = .copy low bytes) : w.settle = w.taken.child k := by
  rw [Wasm.settle, waits]
  dsimp only
  rw [mem]
  rfl

theorem settle_share {m low : Nat} {stack : List UInt8} (waits : w.forked = some k)
    (mem : k.mem = .share m low stack) :
    w.settle = (w.taken.found k m).2.join k (w.taken.found k m).1 m low stack := by
  rw [Wasm.settle, waits]
  dsimp only
  rw [mem]
  dsimp only
  rw [Wasm.child, mem]
  rfl

theorem settle_frame (wf : Wf w active) :
    (∀ q r, w.procs q = some r → w.settle.procs q = some r) ∧
      (∀ m, m < w.nmem → w.settle.mems m = w.mems m) ∧ w.settle.cells = w.cells ∧
      w.settle.forked = none ∧ w.settle.running = none := by
  cases waits : w.forked with
  | none =>
      rw [settle_none waits]
      exact ⟨fun _ _ there => there, fun _ _ => rfl, rfl, rfl, rfl⟩
  | some k =>
      have unused := (wf.forked k waits).unused
      have ne {q : Pid} {r : Proc} (there : w.procs q = some r) : q ≠ k.pid := by
        rintro rfl
        rw [unused] at there
        cases there
      cases mem : k.mem with
      | copy low bytes =>
          rw [settle_copy waits mem, Wasm.child, mem]
          refine ⟨?_, ?_, rfl, rfl, rfl⟩
          · intro q r there
            exact (update_of_ne (ne there) _ _).trans there
          · intro m lt
            exact update_of_ne (Nat.ne_of_lt lt) _ _
      | share m low stack =>
          rw [settle_share waits mem, Wasm.found]
          split
          all_goals
            refine ⟨?_, fun _ _ => rfl, rfl, rfl, rfl⟩
            intro q r there
            exact (update_of_ne (ne there) _ _).trans there

theorem settled (wf : Wf w (some pid)) (kept : Kept w (some pid) left) :
    Wf w.settle (some pid) ∧ Kept w.settle (some pid) left := by
  cases waits : w.forked with
  | none =>
      rw [settle_none waits]
      exact ⟨wf.taken, kept.taken⟩
  | some k =>
      rcases wf.forked k waits with ⟨parent, unused, low_lt, low_ne, p, there, program, low,
          top, mems⟩
      have same : pid = k.parent := Option.some.inj parent
      subst same
      cases mem : k.mem with
      | copy low bytes =>
          have born := born_child wf.taken mem rfl unused low_lt low_ne
          rw [settle_copy waits mem]
          exact ⟨wf.taken.add born, kept.taken.add born wf.taken⟩
      | share m low' stack =>
          have is : m = p.mem := mems m low' stack mem
          subst is
          rcases kept.given k _ _ _ waits mem with ⟨given, shaped, length⟩
          rcases wf.taken.found rfl there program low top with ⟨wf', shares⟩
          have kept' := kept.taken.found wf.taken rfl p.mem
          rcases found_frame w.taken k p.mem with ⟨procs, ncell, forked, _, _⟩
          have there' : (w.taken.found k p.mem).2.procs k.parent = some p := procs.symm ▸ there
          have tops : ((w.taken.found k p.mem).2.groups (w.taken.found k p.mem).1).top =
              k.stacktop := by
            rcases (wf'.member _ _ shares).2 with ⟨p', found, belongs⟩
            have same : p' = p := Option.some.inj (found.symm.trans there')
            rw [← belongs.top, same]
            exact top
          rw [settle_share waits mem]
          refine ⟨wf'.join forked (procs.symm ▸ unused) (ncell.symm ▸ low_lt) (procs.symm ▸ low_ne)
            there' program top shares, ?_⟩
          exact kept'.join wf' forked shares tops given shaped length

end Ipnx.Rfmem
