import Ipnx.Host.Oscmd

/-!
# What the requests give of a command's files

A stream's reads are answered from its front, and so is `wait` from the front of the status: what
was left before is what is given and what is left after. The steps of the server are of this kind,
other than a start of a command and what its threads say.
-/

namespace Ipnx.Host.Oscmd

open List
open Function (update)
open Function (update_idem update_of_ne update_self)

namespace Stream

variable (alive : Bool)

theorem serve_left (s : Stream) (held : List (UInt16 × UInt32)) :
    ((s.serve alive held).1.map Prod.snd).flatten ++ (s.serve alive held).2.2.left = s.left := by
  fun_induction serve alive s held with
  | case1 s => simp
  | case2 s tag count rest some_left k r ih =>
      simp only [map_cons, flatten_cons, append_assoc]
      rw [ih, take_append_drop]
  | case3 s tag count rest none_left ended r ih => simpa using ih
  | case4 s tag count rest none_left more asked => simp
  | case5 s tag count rest none_left more idle alive => simp
  | case6 s tag count rest none_left more idle gone r ih => simpa using ih

theorem serve_held (s : Stream) (held : List (UInt16 × UInt32)) :
    (s.serve alive held).1.map Prod.fst ++ (s.serve alive held).2.2.held.map Prod.fst =
      held.map Prod.fst := by
  fun_induction serve alive s held with
  | case1 s => rfl
  | case2 s tag count rest some_left k r ih => simp [ih, r]
  | case3 s tag count rest none_left ended r ih => simp [ih, r]
  | case4 s tag count rest none_left more asked => rfl
  | case5 s tag count rest none_left more idle alive => rfl
  | case6 s tag count rest none_left more idle gone r ih => simp [ih, r]

theorem take_held (str : Stream) (r : Except String Bytes) :
    (str.take r).2.held <:+ str.held := by
  cases r with
  | error e => exact tail_suffix _
  | ok b =>
      simp only [Stream.take]
      split <;> exact suffix_refl _

end Stream

namespace Given

/-- What a step gives of a stream of a conversation. -/
def bytesOf (g : Option Given) (n : UInt32) : Out → Bytes :=
  match g with
  | some g => if g.conv = n then g.bytes else fun _ => []
  | none => fun _ => []

def recsOf (g : Option Given) (n : UInt32) : List Bytes :=
  match g with
  | some g => if g.conv = n then g.recs else []
  | none => []

end Given

def Conv.Waits (c : Conv) (tag : UInt16) : Prop :=
  (∃ i, tag ∈ (c.out i).held.map Prod.fst) ∨ tag ∈ c.waiting.map Prod.fst

/-- A conversation's command is as it was, what was left of its files is given, or left, and no read
of them waits that did not, other than the one that came. -/
structure Conv.Gives (c c' : Conv) (bytes : Out → Bytes) (recs : List Bytes)
    (came : Option UInt16) : Prop where
  cmd : c'.cmd = c.cmd
  child : c'.child = c.child
  bytes : ∀ i, bytes i ++ (c'.out i).left = (c.out i).left
  recs : recs ++ c'.status = c.status
  waits : ∀ tag, c'.Waits tag → c.Waits tag ∨ came = some tag

/-- What the threads have said of a command is as it was. -/
structure Threads.Same (t t' : Threads) : Prop where
  cmd : t'.cmd = t.cmd
  conv : t'.conv = t.conv
  brought : t'.brought = t.brought
  ended : t'.ended = t.ended
  waits : t'.waits = t.waits

theorem Threads.Same.refl (t : Threads) : t.Same t := ⟨rfl, rfl, rfl, rfl, rfl⟩

theorem Threads.Same.trans {t u v : Threads} (first : t.Same u) (second : u.Same v) : t.Same v :=
  ⟨second.cmd.trans first.cmd, second.conv.trans first.conv, second.brought.trans first.brought,
    second.ended.trans first.ended, second.waits.trans first.waits⟩

/-- A conversation that is gone has no command running, and nothing of it is given. -/
structure Gone (old : Option Conv) (bytes : Out → Bytes) (recs : List Bytes) : Prop where
  bytes : ∀ i, bytes i = []
  recs : recs = []
  child : ∀ c, old = some c → c.child = none

namespace State

def Waits (s : State) (tag : UInt16) : Prop := ∃ n c, s.convs n = some c ∧ c.Waits tag

def Told (s : State) (tag : UInt16) : Prop := ∃ b, (tag, Answer.read b) ∈ s.done

/-- A step after which each conversation either is gone or is the one it was, what was left of its
files given, or left; and no reply is made but to a read that waited, or came. -/
structure Gives (s s' : State) (g : Option Given) (came : Option UInt16) : Prop where
  convs : ∀ n, (s'.convs n = none ∧ Gone (s.convs n) (Given.bytesOf g n) (Given.recsOf g n)) ∨
    ∃ c c', s.convs n = some c ∧ s'.convs n = some c' ∧
      c.Gives c' (Given.bytesOf g n) (Given.recsOf g n) came
  threads : ∀ id, (s.threads id).Same (s'.threads id)
  started : s'.started = s.started
  told : ∀ tag, s'.Told tag → s.Told tag ∨ s.Waits tag ∨ came = some tag

variable {s s' s'' : State} {g : Option Given} {came : Option UInt16}

theorem Gives.waits (moved : s.Gives s' g came) {tag : UInt16} (waiting : s'.Waits tag) :
    s.Waits tag ∨ came = some tag := by
  rcases waiting with ⟨n, c', live', queued⟩
  rcases moved.convs n with ⟨out, _⟩ | ⟨c, d', live, again, kept⟩
  · rw [out] at live'
    cases live'
  · cases again.symm.trans live'
    exact (kept.waits tag queued).imp_left fun waited => ⟨n, c, live, waited⟩

theorem gives_of_eq (convs : s'.convs = s.convs) (threads : s'.threads = s.threads)
    (started : s'.started = s.started) (done : s'.done = s.done) : s.Gives s' none came where
  convs n := by
    rw [convs]
    cases found : s.convs n with
    | none => exact .inl ⟨rfl, ⟨fun _ => rfl, rfl, nofun⟩⟩
    | some c => exact .inr ⟨c, c, rfl, rfl, ⟨rfl, rfl, fun _ => rfl, rfl, fun _ => .inl⟩⟩
  threads id := by
    rw [threads]
    exact .refl _
  started := started
  told tag made := by
    simp only [Told, done] at made
    exact .inl made

theorem Gives.refl (s : State) : s.Gives s none came := gives_of_eq rfl rfl rfl rfl

theorem Gives.congr (first : s.Gives s' g came) (convs : s''.convs = s'.convs)
    (threads : s''.threads = s'.threads) (started : s''.started = s'.started)
    (told : ∀ tag, s''.Told tag → s'.Told tag ∨ s.Waits tag ∨ came = some tag) :
    s.Gives s'' g came where
  convs n := by
    rw [convs]
    exact first.convs n
  threads id := by
    rw [threads]
    exact first.threads id
  started := started.trans first.started
  told tag made := by
    rcases told tag made with before | other
    · exact first.told tag before
    · exact .inr other

theorem Gives.trans (first : s.Gives s' none none) (second : s'.Gives s'' g came) :
    s.Gives s'' g came where
  convs n := by
    rcases first.convs n with ⟨out, gone⟩ | ⟨c, c', live, live', kept⟩
    · rcases second.convs n with ⟨out', gone'⟩ | ⟨d, d', live', _⟩
      · exact .inl ⟨out', ⟨gone'.bytes, gone'.recs, gone.child⟩⟩
      · rw [out] at live'
        cases live'
    · rcases second.convs n with ⟨out', gone'⟩ | ⟨d, d', again, live'', kept'⟩
      · refine .inl ⟨out', ⟨gone'.bytes, gone'.recs, ?_⟩⟩
        intro d eq
        cases live.symm.trans eq
        exact kept.child.symm.trans (gone'.child c' live')
      · cases live'.symm.trans again
        refine .inr ⟨c, d', live, live'', ?_⟩
        refine ⟨kept'.cmd.trans kept.cmd, kept'.child.trans kept.child,
          fun i => (kept'.bytes i).trans (kept.bytes i), kept'.recs.trans kept.recs, ?_⟩
        intro tag queued
        rcases kept'.waits tag queued with waited | new
        · exact (kept.waits tag waited).imp_right nofun
        · exact .inr new
  threads id := (first.threads id).trans (second.threads id)
  started := second.started.trans first.started
  told tag made := by
    rcases second.told tag made with made' | queued | new
    · exact (first.told tag made').imp_right (Or.imp_right nofun)
    · exact .inr ((first.waits queued).imp_right nofun)
    · exact .inr (.inr new)

theorem gives_setConv {n : UInt32} {c c' : Conv} {bytes : Out → Bytes} {recs : List Bytes}
    (live : s.convs n = some c) (kept : c.Gives c' bytes recs came) :
    s.Gives (s.setConv n (some c')) (some ⟨n, bytes, recs⟩) came where
  convs m := by
    by_cases same : m = n
    · subst m
      refine .inr ⟨c, c', live, update_self .., ?_⟩
      simpa only [Given.bytesOf, Given.recsOf, if_true] using kept
    · have other : n ≠ m := fun eq => same eq.symm
      simp only [setConv, update_of_ne same, Given.bytesOf, Given.recsOf, other, if_false]
      exact (Gives.refl s).convs m
  threads id := .refl _
  started := rfl
  told _ := .inl

theorem keeps_setConv {n : UInt32} {c c' : Conv} (live : s.convs n = some c)
    (kept : c.Gives c' (fun _ => []) [] came) : s.Gives (s.setConv n (some c')) none came where
  convs m := by
    rcases (gives_setConv live kept).convs m with ⟨out, gone⟩ | ⟨d, d', live', live'', kept'⟩
    · exact .inl ⟨out, ⟨fun _ => rfl, rfl, gone.child⟩⟩
    · refine .inr ⟨d, d', live', live'', ?_⟩
      simpa only [Given.bytesOf, Given.recsOf, ite_self] using kept'
  threads id := .refl _
  started := rfl
  told _ := .inl

theorem forgets_setConv {n : UInt32} (idle : ∀ c, s.convs n = some c → c.child = none) :
    s.Gives (s.setConv n none) none came where
  convs m := by
    by_cases same : m = n
    · subst m
      exact .inl ⟨update_self .., ⟨fun _ => rfl, rfl, idle⟩⟩
    · simp only [setConv, update_of_ne same]
      exact (Gives.refl s).convs m
  threads id := .refl _
  started := rfl
  told _ := .inl

theorem keeps_setThreads {id : Nat} {t : Threads} (same : (s.threads id).Same t) :
    s.Gives (s.setThreads id t) none came where
  convs := (Gives.refl s).convs
  threads id' := by
    by_cases eq : id' = id
    · subst id'
      simpa only [setThreads, update_self] using same
    · simp only [setThreads, update_of_ne eq]
      exact .refl _
  started := rfl
  told _ := .inl

theorem keeps_askFor (str : Stream) (i : Out) (want : Option Nat) :
    s.Gives (s.askFor str i want) none came := by
  unfold askFor
  split
  · exact keeps_setThreads ⟨rfl, rfl, rfl, rfl, rfl⟩
  · exact .refl s

theorem askFor_convs (str : Stream) (i : Out) (want : Option Nat) :
    (s.askFor str i want).convs = s.convs := by
  unfold askFor
  split <;> rfl

theorem askFor_done (s : State) (str : Stream) (i : Out) (want : Option Nat) :
    (s.askFor str i want).done = s.done := by
  unfold askFor
  split <;> rfl

theorem gives_serve {n : UInt32} {c : Conv} (i : Out) (str : Stream) (live : s.convs n = some c)
    (left : str.left = (c.out i).left)
    (held : ∀ tag ∈ str.held.map Prod.fst, c.Waits tag ∨ came = some tag) :
    s.Gives (s.serve n c i str).2 (some (given n i (s.serve n c i str).1)) came := by
  have queue := Stream.serve_held (s.alive str i) str str.held
  refine (keeps_askFor str i _).trans (gives_setConv (c := c) ?_ ⟨rfl, rfl, ?_, rfl, ?_⟩)
  · rw [askFor_convs]
    exact live
  · intro j
    have split := Stream.serve_left (s.alive str i) str str.held
    by_cases same : j = i
    · subst j
      simp only [update_self]
      rw [← left, ← split]
      rfl
    · simp only [update_of_ne same, nil_append]
  · rintro tag (⟨j, queued⟩ | queued)
    · by_cases same : j = i
      · subst j
        simp only [update_self] at queued
        apply held tag
        rw [← queue]
        exact mem_append_right _ queued
      · simp only [update_of_ne same] at queued
        exact .inl (.inl ⟨j, queued⟩)
    · exact .inl (.inr queued)

theorem serve_tags {n : UInt32} {c : Conv} {i : Out} {str : Stream} {tag : UInt16} {b : Bytes}
    (made : (tag, Answer.read b) ∈ reading (s.serve n c i str).1) :
    tag ∈ str.held.map Prod.fst := by
  rw [← Stream.serve_held (s.alive str i) str str.held]
  rcases mem_map.mp made with ⟨r, member, eq⟩
  cases eq
  exact mem_append_left _ (mem_map_of_mem member)

theorem serve_setConv (s : State) (n : UInt32) (c : Conv) (i : Out) (str : Stream) :
    (s.setConv n (some c)).serve n c i str = s.serve n c i str := by
  have asked (want : Option Nat) (c' : Option Conv) :
      ((s.setConv n (some c)).askFor str i want).setConv n c' =
        (s.askFor str i want).setConv n c' := by
    unfold askFor
    split <;> simp only [setConv, setThreads, update_idem]
  simp only [serve, setStream, asked]
  rfl

theorem waited_recs (status : List Bytes) (waiting : List (UInt16 × UInt32)) :
    (waited status waiting).2.1 ++ (waited status waiting).2.2.1 = status := by
  fun_induction waited status waiting with
  | case1 record status tag count waiting r ih => exact congrArg (record :: ·) ih
  | case2 status waiting => rfl

theorem waited_tags (status : List Bytes) (waiting : List (UInt16 × UInt32)) :
    (waited status waiting).1.map Prod.fst ++ (waited status waiting).2.2.2.map Prod.fst =
      waiting.map Prod.fst := by
  fun_induction waited status waiting with
  | case1 record status tag count waiting r ih => exact congrArg (tag :: ·) ih
  | case2 status waiting => rfl

theorem keeps_letgo (n : UInt32) (wait : Bool) : s.Gives (s.letgo n wait) none came := by
  unfold letgo
  cases live : s.convs n with
  | none => exact .refl s
  | some c =>
      have kept (killed : Bool) (child : Option Nat) (same : child = c.child) :
          s.Gives (s.setConv n (some { c with
            inuse := c.inuse - 1, killed := killed, child := child })) none came :=
        keeps_setConv live ⟨rfl, same, fun _ => rfl, rfl, fun _ => .inl⟩
      cases running : c.child with
      | some id =>
          simp only [running]
          split
          · exact (kept true _ running.symm).congr rfl rfl rfl fun _ => .inl
          · exact kept c.killed _ running.symm
      | none =>
          simp only [running]
          split
          · refine forgets_setConv fun d eq => ?_
            cases live.symm.trans eq
            exact running
          · exact kept c.killed _ running.symm

theorem Conv.keeps_fdclose (c : Conv) (q : Q) (mode : UInt8) :
    c.Gives (c.fdclose q mode) (fun _ => []) [] came := by
  have outs (c : Conv) (i : Out) : c.Gives (c.outclose i) (fun _ => []) [] came := by
    have closed (j : Out) : ∃ ask, (c.outclose i).out j = { c.out j with ask := ask } := by
      simp only [Conv.outclose]
      split
      · by_cases same : j = i
        · subst j
          exact ⟨none, update_self ..⟩
        · exact ⟨(c.out j).ask, update_of_ne same ..⟩
      · exact ⟨(c.out j).ask, rfl⟩
    refine ⟨rfl, rfl, fun j => ?_, rfl, ?_⟩
    · rcases closed j with ⟨ask, eq⟩
      rw [eq]
      rfl
    · rintro tag (⟨j, queued⟩ | queued)
      · rcases closed j with ⟨ask, eq⟩
        rw [eq] at queued
        exact .inl (.inl ⟨j, queued⟩)
      · exact .inl (.inr queued)
  have ins (c : Conv) : c.Gives c.inpclose (fun _ => []) [] came :=
    ⟨rfl, rfl, fun _ => rfl, rfl, fun _ => .inl⟩
  have same (c : Conv) : c.Gives c (fun _ => []) [] came :=
    ⟨rfl, rfl, fun _ => rfl, rfl, fun _ => .inl⟩
  unfold Conv.fdclose
  cases q with
  | data =>
      dsimp only
      split
      · split
        · have second := outs c.inpclose .out
          exact { second with }
        · exact outs c .out
      · split
        · exact ins c
        · exact same c
  | stderr => exact outs c .err
  | dir => exact same c
  | wait => exact same c

theorem Conv.keeps_fdopen (c : Conv) (q : Q) (mode : UInt8) :
    c.Gives (c.fdopen q mode) (fun _ => []) [] came := by
  cases q <;> exact ⟨rfl, rfl, fun _ => rfl, rfl, fun _ => .inl⟩

theorem keeps_clunked (f : Fid) : s.Gives (s.clunked f) none came := by
  unfold clunked
  split
  · exact .refl s
  · split
    · exact .refl s
    · rename_i mode _ _
      refine Gives.trans ?_ (keeps_letgo f.conv _)
      cases live : s.convs f.conv with
      | none => exact .refl s
      | some c => exact keeps_setConv live (Conv.keeps_fdclose c f.q mode)

theorem keeps_forget (fid : Option UInt32) : s.Gives (s.forget fid) none came := by
  unfold forget
  cases fid with
  | none => exact .refl s
  | some fid =>
      dsimp only
      cases s.fids.find fid with
      | none => exact .refl s
      | some f =>
          have erased : s.Gives { s with fids := s.fids.erase fid } none none :=
            gives_of_eq rfl rfl rfl rfl
          exact erased.trans (keeps_clunked f)

theorem flush_convs (s : State) (old : UInt16) (n : UInt32) :
    (s.flush old).convs n = (s.convs n).map fun c =>
      { c with
        waiting := c.waiting.filter (·.1 ≠ old)
        out := fun i => { c.out i with held := (c.out i).held.filter (·.1 ≠ old) } } := rfl

theorem flush_held {held : List (UInt16 × UInt32)} {tag old : UInt16}
    (queued : tag ∈ (held.filter (·.1 ≠ old)).map Prod.fst) :
    tag ∈ held.map Prod.fst ∧ tag ≠ old := by
  rcases mem_map.mp queued with ⟨r, member, rfl⟩
  rcases mem_filter.mp member with ⟨member, other⟩
  exact ⟨mem_map_of_mem member, of_decide_eq_true other⟩

theorem keeps_flush (old : UInt16) : s.Gives (s.flush old) none came where
  convs n := by
    rw [flush_convs]
    cases live : s.convs n with
    | none => exact .inl ⟨rfl, ⟨fun _ => rfl, rfl, nofun⟩⟩
    | some c =>
        refine .inr ⟨c, _, rfl, rfl, ⟨rfl, rfl, fun _ => rfl, rfl, ?_⟩⟩
        rintro tag (⟨i, queued⟩ | queued)
        · exact .inl (.inl ⟨i, (flush_held queued).1⟩)
        · exact .inl (.inr (flush_held queued).1)
  threads id := .refl _
  started := rfl
  told _ := .inl

theorem flush_waits (s : State) (old : UInt16) : ¬ (s.flush old).Waits old := by
  rintro ⟨n, c', live', queued⟩
  rw [flush_convs] at live'
  rcases Option.map_eq_some_iff.mp live' with ⟨c, _, rfl⟩
  rcases queued with ⟨i, queued⟩ | queued
  · exact (flush_held queued).2 rfl
  · exact (flush_held queued).2 rfl

theorem keeps_twalk (src newfid : UInt32) (nw : Nat) (names : List String) :
    s.Gives (s.twalk src newfid nw names).2 none came := by
  unfold twalk
  repeat' split
  all_goals exact gives_of_eq rfl rfl rfl rfl

theorem keeps_topen (fid : UInt32) (mode : UInt8) : s.Gives (s.topen fid mode).2 none came := by
  unfold topen
  dsimp only
  cases s.fids.find fid with
  | none => exact .refl s
  | some f =>
      dsimp only
      cases live : s.convs f.conv with
      | none => exact .refl s
      | some c =>
          dsimp only
          split
          · exact .refl s
          · exact (keeps_setConv live (Conv.keeps_fdopen c f.q _)).congr rfl rfl rfl fun _ => .inl

theorem keeps_twrite (tag : UInt16) (fid : UInt32) (data : Bytes) :
    s.Gives (s.twrite tag fid data).2 none came := by
  unfold twrite
  cases s.fids.find fid with
  | none => exact .refl s
  | some f =>
      dsimp only
      split
      · exact .refl s
      · cases s.convs f.conv with
        | none => exact .refl s
        | some c =>
            dsimp only
            cases c.stdin with
            | none => exact .refl s
            | some id =>
                have sent : (s.threads id).Same { s.threads id with
                    writes := (s.threads id).writes ++ [(tag, data)] } :=
                  ⟨rfl, rfl, rfl, rfl, rfl⟩
                exact (keeps_setThreads sent).congr rfl rfl rfl fun _ => .inl

theorem Conv.keeps_owned (c : Conv) (uname : String) :
    c.Gives (c.owned uname) (fun _ => []) [] came := by
  unfold Conv.owned
  split <;> exact ⟨rfl, rfl, fun _ => rfl, rfl, fun _ => .inl⟩

/-- What an attach does: it names what is not there, or the command does not start, or has been
started, or starts. -/
theorem tattach_cases (fid : UInt32) (uname : String) (n : Option UInt32)
    (refused : Option String) :
    ((∀ m, n = some m → s.convs m = none) ∧
      ∃ e, s.tattach fid uname n refused = (.error e, s)) ∨
    ∃ m c, n = some m ∧ s.convs m = some c ∧
      ((∃ cmd e, c.cmd = some cmd ∧ refused = some e ∧
        s.tattach fid uname n refused = (.error e, s.setConv m none)) ∨
      (c.cmd = none ∧ s.tattach fid uname n refused =
        (.attach (Q.dir.qid m), (s.setConv m (some (c.owned uname))).naming fid m .dir)) ∨
      ∃ cmd, c.cmd = some cmd ∧ refused = none ∧ s.tattach fid uname n refused =
        (.attach (Q.dir.qid m),
          ((s.spawn m c cmd).setConv m (some ((c.running s.started).owned uname))).naming
            fid m .dir)) := by
  unfold tattach
  cases n with
  | none => exact .inl ⟨nofun, enonexist, rfl⟩
  | some m =>
      dsimp only
      cases live : s.convs m with
      | none =>
          refine .inl ⟨fun num eq => ?_, enonexist, rfl⟩
          cases eq
          exact live
      | some c =>
          refine .inr ⟨m, c, rfl, live, ?_⟩
          simp only [attach, live]
          cases unstarted : c.cmd with
          | none =>
              refine .inr (.inl ⟨rfl, ?_⟩)
              simp only [live, Option.map_some]
          | some cmd =>
              cases refused with
              | some e => exact .inl ⟨cmd, e, rfl, rfl, rfl⟩
              | none =>
                  refine .inr (.inr ⟨cmd, rfl, rfl, ?_⟩)
                  simp only [spawn, setConv, update_self, Option.map_some]

theorem gives_twait {n : UInt32} {c : Conv} (tag : UInt16) (count : UInt32)
    (live : s.convs n = some c) :
    s.Gives (s.twait n c tag count).2.2 (s.twait n c tag count).2.1 (some tag) := by
  unfold twait
  split
  · rename_i record status queued _
    refine gives_setConv live ⟨rfl, rfl, fun _ => rfl, ?_, fun _ => .inl⟩
    rw [queued]
    rfl
  · refine keeps_setConv live ⟨rfl, rfl, fun _ => rfl, rfl, ?_⟩
    rintro other (queued | queued)
    · exact .inl (.inl queued)
    · simp only [map_append, map_cons, map_nil, mem_append,
        mem_singleton] at queued
      rcases queued with before | rfl
      · exact .inl (.inr before)
      · exact .inr rfl

theorem gives_tstream {n : UInt32} {c : Conv} (i : Out) (tag : UInt16) (count : UInt32)
    (live : s.convs n = some c) :
    s.Gives (s.tstream n c i tag count).2.2 (s.tstream n c i tag count).2.1 (some tag) := by
  have held : ∀ other ∈ ((c.out i).held ++ [(tag, count)]).map Prod.fst,
      c.Waits other ∨ some tag = some other := by
    intro other queued
    simp only [map_append, map_cons, map_nil, mem_append,
      mem_singleton] at queued
    rcases queued with before | rfl
    · exact .inl (.inl ⟨i, before⟩)
    · exact .inr rfl
  refine (gives_serve i { c.out i with held := (c.out i).held ++ [(tag, count)] } live rfl
    held).congr rfl rfl rfl ?_
  rintro other ⟨b, made⟩
  rcases mem_append.mp made with before | made
  · exact .inl ⟨b, (congrArg _ (askFor_done s _ i _)).mpr before⟩
  · have answered := (eraseP_sublist.map fun r : UInt16 × Bytes =>
      (r.1, Answer.read r.2)).subset made
    exact .inr ((held other (serve_tags answered)).imp_left fun queued => ⟨n, c, live, queued⟩)

theorem gives_tread (tag : UInt16) (fid : UInt32) (off : UInt64) (count : UInt32) :
    s.Gives (s.tread tag fid off count).2.2 (s.tread tag fid off count).2.1 (some tag) := by
  unfold tread
  cases s.fids.find fid with
  | none => exact .refl s
  | some f =>
      dsimp only
      cases f.mode with
      | none => exact .refl s
      | some mode =>
          dsimp only
          cases f.q with
          | dir => exact .refl s
          | wait =>
              dsimp only
              cases live : s.convs f.conv with
              | none => exact .refl s
              | some c => exact gives_twait tag count live
          | data | stderr =>
              dsimp only
              split
              · exact .refl s
              · cases live : s.convs f.conv with
                | none => exact .refl s
                | some c => exact gives_tstream _ tag count live

theorem gives_submit (tag : UInt16) (refused : Option String) {req : Request}
    (other : ∀ fid uname n, req ≠ .attach fid uname n) :
    s.Gives (s.submit tag refused req).2.2 (s.submit tag refused req).2.1 (some tag) := by
  cases req with
  | attach fid uname n => exact absurd rfl (other fid uname n)
  | walk src newfid nw names => exact keeps_twalk src newfid nw names
  | «open» fid mode => exact keeps_topen fid mode
  | remove fid => exact keeps_forget fid
  | read fid off count => exact gives_tread tag fid off count
  | write fid data => exact keeps_twrite tag fid data
  | flush old =>
      cases old with
      | none => exact .refl s
      | some old => exact keeps_flush old
  | clunk fid => exact keeps_forget fid
  | _ => exact .refl s

theorem gives_wrote (s : State) (id : Nat) (r : Except String Nat) :
    s.Gives (s.act (.wrote id r)).2.2 (s.act (.wrote id r)).2.1 none := by
  simp only [act]
  cases pending : (s.threads id).writes with
  | nil => exact .refl s
  | cons write writes =>
      dsimp only
      have sent : s.Gives (s.setThreads id { s.threads id with writes := writes }) none none :=
        keeps_setThreads ⟨rfl, rfl, rfl, rfl, rfl⟩
      unfold wrote
      split
      · refine sent.congr rfl rfl rfl ?_
        rintro tag ⟨b, made⟩
        rcases mem_append.mp made with before | made
        · exact .inl ⟨b, before⟩
        · exfalso
          rw [mem_singleton, Prod.mk.injEq] at made
          replace made := made.2
          repeat' split at made
          all_goals cases made
      · exact sent

end State

end Ipnx.Host.Oscmd
