import Ipnx.Machine.Sharers

/-!
# What a sharer finds

Every step of the machine keeps the sharers' stacks, and so a sharer that is entered finds its
region as it left it, or as it was given it, whatever the others have done in between.
-/

namespace Ipnx.Rfmem

open Function (update update_eq_self update_of_ne update_self)

variable {w : Wasm} {active : Option Pid} {left : Pid → Nat × List UInt8} {pid : Pid} {p : Proc}
  {i : Nat}

theorem Wf.polled (wf : Wf w active) (running : Option Pid) :
    Wf { w with running := running } active where
  __ := wf
  forked k waits :=
    have pending := wf.forked k waits
    { pending with }

theorem Kept.polled (kept : Kept w active left) (running : Option Pid) :
    Kept { w with running := running } active left where
  __ := kept

theorem Wf.bytes (wf : Wf w active) (mems : Nat → Mem) (cells : Nat → Int) :
    Wf { w with mems := mems, cells := cells } active where
  __ := wf
  forked k waits :=
    have pending := wf.forked k waits
    { pending with }

theorem Wf.enters (wf : Wf w none) (there : w.procs pid ≠ none)
    (mine : ∀ i, w.sharing pid = some i → (w.groups i).occupant = some pid) : Wf w (some pid) where
  __ := wf
  runs q same := Option.some.inj same ▸ there
  inplace q i same shares := by
    cases same
    exact mine i shares
  forked k waits := by
    have parent := (wf.forked k waits).parent
    cases parent

theorem Kept.enters (kept : Kept w none left) : Kept w (some pid) left where
  shaped q i shares _ := kept.shaped q i shares (by simp)
  aside q i shares _ := kept.aside q i shares (by simp)
  inside q i r shares _ := kept.inside q i r shares (by simp)
  given := kept.given

theorem occupies (wf : Wf w none) (kept : Kept w none left) (there : w.procs pid ≠ none) :
    Wf (w.occupy pid) (some pid) ∧ Kept (w.occupy pid) (some pid) left := by
  cases shares : w.sharing pid with
  | none =>
      have same : w.occupy pid = w := by rw [Wasm.occupy, shares]
      rw [same]
      refine ⟨wf.enters there fun i now => ?_, kept.enters⟩
      rw [shares] at now
      cases now
  | some i =>
      by_cases out : (w.groups i).occupant = some pid
      · have same : w.occupy pid = w := by
          rw [Wasm.occupy, shares]
          exact if_pos out
        rw [same]
        refine ⟨wf.enters there fun j now => ?_, kept.enters⟩
        rw [shares] at now
        cases now
        exact out
      · refine ⟨?_, kept.occupied wf shares out⟩
        rw [occupy_eq wf kept shares out]
        exact (wf.bytes (update w.mems (w.groups i).mem
          (splice (w.mems (w.groups i).mem) (left pid).1 (left pid).2)) w.cells).occupied shares _

theorem Wf.leaves (wf : Wf w (some pid)) (none_ : w.forked = none) : Wf w none where
  __ := wf
  runs q same := by cases same
  inplace q i same := by cases same
  forked k waits := by
    rw [none_] at waits
    cases waits

theorem Kept.leaves (wf : Wf w (some pid)) (kept : Kept w (some pid) left) (none_ : w.forked = none)
    (found : w.procs pid = some p) :
    Kept w none (update left pid (Shares.leaves w p)) := by
  have other {q : Pid} (differs : q ≠ pid) : some pid ≠ some q := fun same =>
    differs (Option.some.inj same).symm
  refine ⟨?_, ?_, ?_, ?_⟩
  · intro q i shares _
    rcases eq_or_ne q pid with rfl | differs
    · rcases (wf.member q i shares).2 with ⟨p', found', belongs⟩
      have same : p' = p := Option.some.inj (found'.symm.trans found)
      subst same
      rw [update_self, Shares.leaves, ← belongs.top]
      exact ⟨clamp_le _ _, length_slice⟩
    · rw [update_of_ne differs]
      exact kept.shaped q i shares (other differs)
  · intro q i shares _ out
    rcases eq_or_ne q pid with rfl | differs
    · exact absurd (wf.inplace q i rfl shares) out
    · rw [update_of_ne differs]
      exact kept.aside q i shares (other differs) out
  · intro q i r shares _ occupant there
    rcases eq_or_ne q pid with rfl | differs
    · rw [update_self, Option.some.inj (there.symm.trans found)]
    · rw [update_of_ne differs]
      exact kept.inside q i r shares (other differs) occupant there
  · intro k mem low stack waits
    rw [none_] at waits
    cases waits

theorem Kept.alone (kept : Kept w (some pid) left) (none_ : w.forked = none)
    (apart : w.sharing pid = none) : Kept w none left := by
  have other {q : Pid} {i : Nat} (shares : w.sharing q = some i) : some pid ≠ some q := by
    rintro ⟨⟩
    rw [apart] at shares
    cases shares
  refine ⟨?_, ?_, ?_, ?_⟩
  · intro q i shares _
    exact kept.shaped q i shares (other shares)
  · intro q i shares _
    exact kept.aside q i shares (other shares)
  · intro q i r shares _
    exact kept.inside q i r shares (other shares)
  · intro k mem low stack waits
    rw [none_] at waits
    cases waits

theorem publish_eq (w : Wasm) (p : Proc) :
    ∃ cells, w.publish p = { w with cells := cells } ∧
      ∀ c, c ≠ p.low → cells c = w.cells c := by
  rw [Wasm.publish]
  split
  · exact ⟨w.cells, rfl, fun _ _ => rfl⟩
  · exact ⟨_, rfl, fun c differs => update_of_ne differs _ _⟩

theorem Kept.publish (wf : Wf w (some pid)) (kept : Kept w (some pid) left)
    (found : w.procs pid = some p) : Kept (w.publish p) (some pid) left := by
  rcases publish_eq w p with ⟨cells, same, apart⟩
  rw [same]
  refine ⟨kept.shaped, kept.aside, ?_, kept.given⟩
  intro q i r shares other occupant there
  rw [kept.inside q i r shares other occupant there]
  refine (leaves_congr ?_ ?_).symm
  · rfl
  · refine apart r.low fun eq => ?_
    exact other (congrArg some (wf.low_inj pid q p r found there eq.symm))

def Inv (s : Shares) : Prop :=
  Wf s.wasm s.wasm.running ∧ Kept s.wasm s.wasm.running s.left

open Shares

theorem current_eq {s : Shares} (current : s.current = some (pid, p)) :
    s.wasm.running = some pid ∧ s.wasm.procs pid = some p := by
  rw [Shares.current] at current
  cases running : s.wasm.running with
  | none =>
      rw [running] at current
      cases current
  | some q =>
      rw [running, Option.bind_some, Option.map_eq_some_iff] at current
      rcases current with ⟨r, found, same⟩
      cases same
      exact ⟨rfl, found⟩

theorem leave_running (w : Wasm) (pid : Pid) : (w.leave pid).running = w.running := by
  rw [Wasm.leave]
  split <;> rfl

theorem Inv.start (mems : Nat → Mem) : Inv (start mems) := by
  constructor
  · refine ⟨?_, ?_, ?_, ?_, ?_, ?_, ?_, ?_, ?_, ?_, ?_⟩
    · rintro _ ⟨⟩
    · rintro _ _ ⟨⟩
    · rintro _ _ ⟨⟩
    · rintro _ _ _ _ ⟨⟩
    · rintro _ _ ⟨⟩
    · rintro _ _ _ ⟨⟩
    · rintro _ _ _ _ ⟨⟩
    · intro _ lt
      exact absurd lt (Nat.not_lt_zero _)
    · rintro _ _ lt
      exact absurd lt (Nat.not_lt_zero _)
    · rintro _ _ ⟨⟩
    · rintro _ ⟨⟩
  · refine ⟨?_, ?_, ?_, ?_⟩
    · rintro _ _ ⟨⟩
    · rintro _ _ ⟨⟩
    · rintro _ _ _ ⟨⟩
    · rintro _ _ _ _ ⟨⟩

theorem Inv.step {s s' : Shares} {a : Act} (inv : Inv s) (moved : Step s a s') : Inv s' := by
  rcases inv with ⟨wf, kept⟩
  cases moved with
  | @boot pid image unused =>
      have apart := wf.sharing_none unused.1
      have born := born_make wf image apart fun k waits => by
        refine ⟨unused.2 k waits, ?_⟩
        rintro rfl
        exact wf.runs k.parent (wf.forked k waits).parent unused.1
      exact ⟨wf.add born, kept.add born wf⟩
  | @enter pid idle there =>
      rw [idle] at wf kept
      rcases occupies wf kept there with ⟨wf', kept'⟩
      exact ⟨wf'.polled _, kept'.polled _⟩
  | @run pid p mem sp current program =>
      rcases current_eq current with ⟨running, found⟩
      rw [running] at wf kept
      have like : Like p { p with spg := sp } := ⟨rfl, rfl, rfl, rfl⟩
      have wf' := Wf.revise (w := { s.wasm with mems := update s.wasm.mems p.mem mem })
        found like (wf.bytes _ _)
      have kept' := kept.revise found wf program mem { p with spg := sp }
      rw [Inv]
      show Wf _ s.wasm.running ∧ Kept _ s.wasm.running _
      rw [running]
      exact ⟨wf', kept'⟩
  | @moved pid p sp next current program =>
      rcases current_eq current with ⟨running, found⟩
      rw [running] at wf kept
      have like : Like p { p.moved sp next with spg := some next } := by
        rw [Proc.moved]
        split_ifs <;> exact ⟨rfl, rfl, rfl, rfl⟩
      have kept' := kept.revise found wf program (s.wasm.mems p.mem)
        { p.moved sp next with spg := some next }
      rw [update_eq_self] at kept'
      rw [Inv]
      show Wf _ s.wasm.running ∧ Kept _ s.wasm.running _
      rw [running]
      exact ⟨wf.revise found like, kept'⟩
  | @fork pid child p sp share current program stack unused first =>
      rcases current_eq current with ⟨running, found⟩
      rw [running] at wf kept
      rw [Inv]
      show Wf _ s.wasm.running ∧ Kept _ s.wasm.running _
      rw [running]
      exact ⟨wf.fork found program sp unused.1 share, kept.fork wf sp unused.1 share⟩
  | @exec pid p image current program first =>
      rcases current_eq current with ⟨running, found⟩
      rw [running] at wf kept
      have gone : Gone p (some { p with execd := some image }) := by
        refine ⟨?_, ?_, ?_⟩
        · rintro r ⟨⟩
          rfl
        · rintro r ⟨⟩
          rfl
        · rintro r ⟨⟩
          exact Option.some_ne_none image
      rw [Inv]
      show Wf _ (s.wasm.leave pid).running ∧ Kept _ (s.wasm.leave pid).running _
      rw [leave_running, running]
      refine ⟨wf.quit gone found first ?_, kept.quit found first _⟩
      rintro q ⟨⟩
      exact ⟨rfl, Option.some_ne_none _⟩
  | @leave pid p current =>
      rcases current_eq current with ⟨running, found⟩
      rw [running] at wf kept
      have wf₁ : Wf (s.wasm.publish p) (some pid) := by
        rcases publish_eq s.wasm p with ⟨cells, same, _⟩
        rw [same]
        exact wf.bytes s.wasm.mems cells
      have found₁ : (s.wasm.publish p).procs pid = some p := by
        rcases publish_eq s.wasm p with ⟨cells, same, _⟩
        rw [same]
        exact found
      rcases settled wf₁ (kept.publish wf found) with ⟨wf₂, kept₂⟩
      rcases settle_frame wf₁ with ⟨procs, mems, cells, forked, idle⟩
      have kept₃ := kept₂.leaves wf₂ forked (procs pid p found₁)
      have same : leaves (s.wasm.publish p).settle p = leaves (s.wasm.publish p) p :=
        leaves_congr (mems _ (wf₁.mem_lt pid p found₁)) (congrFun cells _)
      rw [same] at kept₃
      rw [Inv, idle]
      exact ⟨wf₂.leaves forked, kept₃⟩
  | @exited pid p current ends =>
      rcases current_eq current with ⟨running, found⟩
      rw [running] at wf kept
      rcases settled wf kept with ⟨wf', kept'⟩
      rcases settle_frame wf with ⟨procs, _, _, forked, idle⟩
      have gone : Gone p none := ⟨nofun, nofun, nofun⟩
      rw [Inv]
      show Wf _ (s.wasm.settle.leave pid).running ∧ Kept _ (s.wasm.settle.leave pid).running _
      rw [leave_running, idle]
      refine ⟨wf'.quit gone (procs pid p found) forked ?_, kept'.quit (procs pid p found) forked _⟩
      rintro q ⟨⟩
  | @execd pid p image current next =>
      rcases current_eq current with ⟨running, found⟩
      rw [running] at wf kept
      rcases settled wf kept with ⟨wf', kept'⟩
      rcases settle_frame wf with ⟨procs, _, _, forked, idle⟩
      have apart : s.wasm.settle.sharing pid = none := by
        cases shares : s.wasm.settle.sharing pid with
        | none => rfl
        | some i =>
            rcases (wf'.member pid i shares).2 with ⟨p', found', belongs⟩
            have same : p' = p := Option.some.inj (found'.symm.trans (procs pid p found))
            subst same
            exact absurd (next.symm.trans belongs.program) (Option.some_ne_none image)
      have left := kept'.alone forked apart
      have wf₂ := wf'.leaves forked
      have born := born_make wf₂ image apart fun k waits => by
        rw [forked] at waits
        cases waits
      rw [Inv]
      show Wf _ s.wasm.settle.running ∧ Kept _ s.wasm.settle.running _
      rw [idle]
      exact ⟨wf₂.add born, left.add born wf₂⟩

theorem Inv.of_reach {s : Shares} (reached : system.Reachable s) : Inv s := by
  refine System.Reach.invariant Inv ?_ ?_ reached
  · rintro _ ⟨mems, rfl⟩
    exact .start mems
  · intro s a s' inv _ moved
    exact inv.step moved

theorem occupy_outside (wf : Wf w none) (kept : Kept w none left) (shares : w.sharing pid = some i)
    (found : w.procs pid = some p) (q : Pid) {x : Nat} (above : p.stacktop ≤ x) :
    (w.occupy q).mems p.mem x = w.mems p.mem x := by
  cases theirs : w.sharing q with
  | none => rw [Wasm.occupy, theirs]
  | some j =>
      rcases wf.member pid i shares with ⟨lt, p', found', belongs⟩
      rcases wf.member q j theirs with ⟨lt', r, there, belongs'⟩
      have same : p' = p := Option.some.inj (found'.symm.trans found)
      subst same
      by_cases mine : p'.mem = (w.groups j).mem
      · have joined := wf.joined pid p' j found belongs.program lt' mine
        have group : j = i := Option.some.inj (joined.symm.trans shares)
        subst group
        have tops : r.stacktop = p'.stacktop := belongs'.top.trans belongs.top.symm
        exact (occupy_finds wf kept theirs there).2 p'.mem x (tops ▸ above)
      · by_cases out : (w.groups j).occupant = some q
        · rw [Wasm.occupy, theirs]
          exact congrFun (congrFun (congrArg Wasm.mems (if_pos out)) _) x
        · rw [occupy_eq wf kept theirs out]
          exact congrFun (update_of_ne mine _ _) x

/-- In every run a sharer that is entered finds its region, from the low address it left to the
top, as it left it or was given it. The sharers of a group have one memory; and what is past the
region nothing changes but a program that runs. -/
theorem sharers_find {s : Shares} (reached : system.Reachable s) {pid : Pid} {i : Nat}
    (shares : s.wasm.sharing pid = some i) :
    ∃ p, s.wasm.procs pid = some p ∧ p.mem = (s.wasm.groups i).mem ∧
      p.stacktop = (s.wasm.groups i).top ∧
      (∀ s', Step s (.enter pid) s' →
        slice (s'.wasm.mems p.mem) (s.left pid).1 p.stacktop = (s.left pid).2) ∧
      ∀ a s', Step s a s' → (∀ mem sp, a ≠ .run mem sp) → ∀ x, p.stacktop ≤ x →
        s'.wasm.mems p.mem x = s.wasm.mems p.mem x := by
  rcases Inv.of_reach reached with ⟨wf, kept⟩
  rcases wf.member pid i shares with ⟨lt, p, found, belongs⟩
  have mem_lt := wf.mem_lt pid p found
  refine ⟨p, found, belongs.mem, belongs.top, ?_, ?_⟩
  · intro s' moved
    cases moved with
    | enter idle there =>
        rw [idle] at wf kept
        exact (occupy_finds wf kept shares found).1
  · intro a s' moved still x above
    cases moved with
    | boot unused => exact congrFun (update_of_ne (Nat.ne_of_lt mem_lt) _ _) x
    | @enter q idle there =>
        rw [idle] at wf kept
        exact occupy_outside wf kept shares found q above
    | run current program => exact absurd rfl (still _ _)
    | moved current program => rfl
    | fork current program stack unused first => rfl
    | exec current program first => exact congrFun (congrFun (leave_frame _ _).2.1 _) x
    | @leave q r current =>
        rcases current_eq current with ⟨running, there⟩
        rcases publish_eq s.wasm r with ⟨cells, same, _⟩
        rw [same]
        exact congrFun ((settle_frame (wf.bytes s.wasm.mems cells)).2.1 _ mem_lt) x
    | @exited q r current ends =>
        have same := (settle_frame wf).2.1 _ mem_lt
        have left := congrFun (leave_frame s.wasm.settle q).2.1 p.mem
        exact congrFun (left.trans same) x
    | @execd q r image current next =>
        rcases settle_frame wf with ⟨procs, mems, _⟩
        rw [(current_eq current).1] at wf kept
        have small := (settled wf kept).1.mem_lt pid p (procs pid p found)
        exact congrFun ((update_of_ne (Nat.ne_of_lt small) _ _).trans (mems _ mem_lt)) x

/-- A process forks with its stack from 64 on in use, and its child finds that stack. -/
theorem sharers_find_child : ∃ s p, system.Reachable s ∧ s.wasm.sharing 2 = some 0 ∧
    s.wasm.procs 2 = some p ∧ (s.left 2).1 = 64 ∧
    ∀ s', Step s (.enter 2) s' →
      slice (s'.wasm.mems p.mem) (s.left 2).1 p.stacktop = (s.left 2).2 := by
  have booted : system.Reachable _ := System.Reach.step (.init ⟨fun _ _ => 7, rfl⟩) trivial
    (@Step.boot _ 1 ⟨128, 48⟩ ⟨rfl, nofun⟩)
  have entered := booted.step trivial (@Step.enter _ 1 rfl nofun)
  have placed := entered.step trivial (@Step.run _ 1 _ (fun _ => 7) (some 64) rfl rfl)
  have forked := placed.step trivial (@Step.fork _ 1 2 _ 64 true rfl rfl rfl ⟨rfl, nofun⟩ rfl)
  have left := forked.step trivial (@Step.leave _ 1 _ rfl)
  rcases @sharers_find _ left 2 0 rfl with ⟨p, found, _, _, finds, _⟩
  exact ⟨_, p, left, rfl, found, rfl, finds⟩

end Ipnx.Rfmem
