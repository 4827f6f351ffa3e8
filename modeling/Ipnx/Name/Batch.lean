import Ipnx.Name.Tree
import Ipnx.Name.Kinds

/-!
# A batched walk is the plain one

The plain walk takes one name at a time. At each it steps onto what is mounted where it
stands, and a name that is missing there is looked for in the other elements of the union in
order. `walk` sends up to `MAXWELEM` names to a device at once and looks for mount points
among the qids that come back; it ends where the plain walk ends, and fails where it fails.
-/

namespace Ipnx.Name

open List
open Option (bind_none bind_some map_eq_none_iff map_eq_some_iff map_none map_some none_or)

section Plain

variable (t : Tree) (ns : Ns)

/-- The files a name is looked for in: what is mounted here, or this file itself. -/
def candidates (c : Chan) : List Chan :=
  (domount ns c).1 :: ((domount ns c).2.drop 1).map (·.chan.val)

/-- One name, from the first file that has it. -/
def walkone (c : Chan) (name : String) : Option Chan :=
  if !c.isDir then none
  else (candidates ns c).findSome? fun d => (t.next d.file name).map fun q =>
    { d.walked name q with path := addelem c.path name }

/-- The walk one name at a time. What it answers after a name is its own. -/
def plainwalk : Chan → Option (Rc Chan) → List String → Option (Chan × Option (Rc Chan))
  | c, src, [] => some (c, src)
  | c, _, name :: names => (walkone t ns c name).bind fun d => plainwalk d none names

end Plain

variable {t : Tree} {ns : Ns} {c d p x on : Chan} {name : String} {names : List String}

theorem elements_of_less (like : c.less = d.less) : ns.elements c = ns.elements d := by
  rw [Ns.elements, Ns.elements, Ns.find_eq_of_eqchan (eqchan_of_less like)]

theorem elements_ne_nil {m : List Element} (found : ns.elements c = some m) :
    ∃ e es, m = e :: es := by
  obtain ⟨h, head, rfl⟩ := map_eq_some_iff.1 found
  obtain ⟨_, filled⟩ := Option.filter_eq_some_iff.1 head
  rcases list : h.mount with _ | ⟨e, es⟩
  · simp [list] at filled
  · exact ⟨e, es, rfl⟩

theorem domount_of_elements {e : Element} {es : List Element}
    (found : ns.elements c = some (e :: es)) :
    domount ns c = ({ e.chan.val with path := c.path }, e :: es) := by
  obtain ⟨h, head, list⟩ := map_eq_some_iff.1 found
  rcases h with ⟨f, m⟩
  cases list
  simp only [domount, head]

theorem domount_of_none (absent : ns.elements c = none) : domount ns c = (c, []) := by
  have none : ns.findmount c = none := map_eq_none_iff.1 absent
  simp only [domount, none]

/-- Where the first of some files to have a name is, and the qid it has for it. -/
def firstHit (t : Tree) (name : String) (ds : List Chan) : Option (Chan × Qid) :=
  ds.findSome? fun d => (t.next d.file name).map fun q => (d, q)

theorem firstHit_cons (t : Tree) (name : String) (d : Chan) (ds : List Chan) :
    firstHit t name (d :: ds) =
      ((t.next d.file name).map fun q => (d, q)).or (firstHit t name ds) := by
  rw [firstHit, List.findSome?_cons]
  rcases t.next d.file name with _ | q <;> rfl

theorem next_of_firstHit {ds : List Chan} {q : Qid} (hit : firstHit t name ds = some (d, q)) :
    t.next d.file name = some q := by
  obtain ⟨d', _, found⟩ := exists_of_findSome?_eq_some hit
  obtain ⟨q', next, same⟩ := map_eq_some_iff.1 found
  cases same
  exact next

theorem firstHit_of_less (t : Tree) (name : String) {ds es : List Chan}
    (like : ds.map Chan.less = es.map Chan.less) :
    (firstHit t name ds).map (fun f => (f.1.less, f.2)) =
      (firstHit t name es).map fun f => (f.1.less, f.2) := by
  induction ds generalizing es with
  | nil =>
      rw [map_nil, eq_comm, map_eq_nil_iff] at like
      rw [like]
  | cons d ds ih =>
      rcases es with _ | ⟨e, es⟩
      · cases like
      rw [map_cons, map_cons, List.cons.injEq] at like
      rw [firstHit_cons, firstHit_cons, file_of_less like.1]
      rcases t.next e.file name with _ | q
      · exact ih like.2
      · simp [like.1]

theorem walkone_eq (dir : c.isDir = true) : walkone t ns c name =
    (firstHit t name (candidates ns c)).map fun f =>
      { f.1.walked name f.2 with path := addelem c.path name } := by
  rw [walkone, if_neg (by simp [dir]), firstHit]
  induction candidates ns c with
  | nil => rfl
  | cons d ds ih =>
      rw [List.findSome?_cons, List.findSome?_cons]
      rcases t.next d.file name with _ | q
      · exact ih
      · rfl

/-- What a device that has the first of some names answers for them all. -/
def Answered (t : Tree) (d : Chan) (batch : List String) (wq : Walkqid) : Prop :=
  wq.qids = t.qids d.file batch ∧ wq.clone.map Chan.less = (t.along d batch).map Chan.less

theorem tryunion_spec (t : Tree) (name : String) (names : List String) (alts : List Element)
    (err : String) (fid : UInt32) (awake : err ≠ slept) :
    match firstHit t name (alts.map (·.chan.val)) with
    | some (d, _) => ∃ wq fid', tryunion t.tab (name :: names) alts err fid = (.ok (wq, d), fid') ∧
        Answered t d (name :: names) wq
    | none => ∃ e fid', tryunion t.tab (name :: names) alts err fid = (.error e, fid') ∧
        e ≠ slept := by
  induction alts generalizing err fid with
  | nil => exact ⟨err, fid, rfl, awake⟩
  | cons alt alts ih =>
      rw [map_cons, firstHit_cons]
      rcases hit : t.next alt.chan.val.file name with _ | q
      · obtain ⟨e, fid', said, awake'⟩ := Tree.dwalkn_miss hit names fid
        rw [tryunion, said]
        simp only [if_neg awake', map_none, none_or]
        exact ih e fid' awake'
      · obtain ⟨wq, fid', said, answered⟩ := Tree.dwalkn_hit hit names fid
        rw [tryunion, said]
        exact ⟨wq, fid', rfl, answered⟩

theorem ewalk_spec (t : Tree) (name : String) (names : List String) (c : Chan)
    (mh : List Element) (fid : UInt32) :
    match firstHit t name (c :: (mh.drop 1).map (·.chan.val)) with
    | some (d, _) => ∃ wq fid', ewalk t.tab false c mh (name :: names) fid = (.ok (wq, d), fid') ∧
        Answered t d (name :: names) wq
    | none => ∃ e fid', ewalk t.tab false c mh (name :: names) fid = (.error e, fid') ∧
        e ≠ slept := by
  rw [firstHit_cons]
  rcases hit : t.next c.file name with _ | q
  · obtain ⟨e, fid', said, awake⟩ := Tree.dwalkn_miss hit names fid
    rw [ewalk, said]
    simp only [if_neg awake, Bool.false_eq_true, if_false, map_none, none_or]
    exact tryunion_spec t name names (mh.drop 1) e fid' awake
  · obtain ⟨wq, fid', said, answered⟩ := Tree.dwalkn_hit hit names fid
    rw [ewalk, said]
    exact ⟨wq, fid', rfl, answered⟩

theorem walkone_of_none (absent : ns.elements x = none) :
    walkone t ns x name = (t.next x.file name).map fun q => x.walked name q := by
  have alone : candidates ns x = [x] := by
    rw [candidates, domount_of_none absent]
    rfl
  by_cases dir : x.isDir = true
  · rw [walkone_eq dir, alone, firstHit, List.findSome?_cons]
    rcases t.next x.file name with _ | q <;> rfl
  · rw [walkone, if_pos (by simpa using dir)]
    rcases hit : t.next x.file name with _ | q
    · rfl
    · exact absurd (Tree.isDir_of_next hit) dir

/-- The plain walk from the first file of a batch on: it comes to the first mount point that
the batch finds, or to the end of the batch, or the device has not got that far. -/
theorem plainwalk_batch (t : Tree) (ns : Ns) (batch more : List String) {x on : Chan}
    (dev : on.dev = x.dev) (devno : on.devno = x.devno) :
    match firstMount ns on ((x.qid :: t.qids x.file batch).take batch.length), t.along x batch with
    | some (i, m), _ => ∃ y, plainwalk t ns x none (batch ++ more) =
        plainwalk t ns y none (batch.drop i ++ more) ∧ i < batch.length ∧
        ns.elements y = some m ∧ y.path = (batch.take i).foldl addelem x.path
    | none, some z => ∃ y, plainwalk t ns x none (batch ++ more) = plainwalk t ns y none more ∧
        y.less = z.less ∧ y.path = batch.foldl addelem x.path ∧
        (t.qids x.file batch).length = batch.length
    | none, none => plainwalk t ns x none (batch ++ more) = none := by
  induction batch generalizing x with
  | nil => exact ⟨x, rfl, rfl, rfl, rfl⟩
  | cons name batch ih =>
      have here : ns.elements { on with qid := x.qid } = ns.elements x := by
        rw [Ns.elements, Ns.elements]
        congr 1
        exact Ns.find_eq_of_eqchan (eqchan_iff.2 ⟨rfl, rfl, dev, devno⟩)
      rw [length_cons, take_succ_cons, firstMount, here]
      rcases mount : ns.elements x with _ | m
      · simp only
        have first : walkone t ns x name = _ := walkone_of_none mount
        rcases hit : t.next x.file name with _ | q
        · rw [Tree.along_miss hit, Tree.qids_miss hit, take_nil]
          rw [hit] at first
          simp [firstMount, plainwalk, first]
        · rw [hit, map_some] at first
          rw [Tree.along_cons hit, Tree.qids_cons hit]
          have rest := @ih (x.walked name q) dev devno
          have gone : plainwalk t ns x none (name :: batch ++ more) =
              plainwalk t ns (x.walked name q) none (batch ++ more) := by
            rw [cons_append, plainwalk, first, bind_some]
          have qid : (x.walked name q).qid = q := rfl
          rw [qid] at rest
          rcases stop : firstMount ns on ((q :: t.qids (x.walked name q).file batch).take
              batch.length) with _ | ⟨i, m⟩
          · rw [stop] at rest
            rcases clone : t.along (x.walked name q) batch with _ | z
            · rw [clone] at rest
              exact gone.trans rest
            · rw [clone] at rest
              obtain ⟨y, walked, like, path, all⟩ := rest
              refine ⟨y, gone.trans walked, like, path, ?_⟩
              rw [length_cons, all]
          · rw [stop] at rest
            obtain ⟨y, walked, bound, elems, path⟩ := rest
            exact ⟨y, gone.trans walked, Nat.succ_lt_succ bound, elems, path⟩
      · exact ⟨x, rfl, Nat.succ_pos _, mount, rfl⟩

/-- A walk that has come to where the plain walk is: on its channel, or already on the mount
of it. -/
structure Follows (ns : Ns) (w : Walking) (p : Chan) (src : Option (Rc Chan)) : Prop where
  path : w.path = p.path
  here : w.didmount = false → w.c.less = p.less ∧ w.src = src
  on : w.didmount = true → w.names ≠ [] ∧ ∃ e es, w.mh = e :: es ∧ w.c = e.chan.val ∧
    ns.elements p = some (e :: es)

variable {w : Walking} {src : Option (Rc Chan)}

theorem Follows.isDir (follows : Follows ns w p src) (kinds : ns.Kinds) :
    w.c.isDir = p.isDir := by
  rcases did : w.didmount with _ | _
  · exact isDir_of_less (follows.here did).1
  · obtain ⟨_, e, es, _, first, found⟩ := follows.on did
    obtain ⟨h, head, list⟩ := map_eq_some_iff.1 found
    rw [first]
    apply kinds.findmount head
    rw [list]
    exact mem_cons_self

theorem Follows.stepon (follows : Follows ns w p src) (fid : UInt32) :
    ∃ w' fid', stepon t.tab ns false false w fid = (w', fid') ∧ w'.names = w.names ∧
      w'.path = w.path ∧ w'.nhave = w.nhave ∧
      (w'.c :: (w'.mh.drop 1).map (·.chan.val)).map Chan.less =
        (candidates ns p).map Chan.less := by
  rcases did : w.didmount with _ | _
  · have like := (follows.here did).1
    rcases mount : ns.elements p with _ | m
    · have absent : ns.elements w.c = none := (elements_of_less like).trans mount
      refine ⟨{ w with c := w.c, mh := [] }, fid, ?_, rfl, rfl, rfl, ?_⟩
      · simp [Name.stepon, did, domount_of_none absent]
      · simp [candidates, domount_of_none mount, like]
    · obtain ⟨e, es, rfl⟩ := elements_ne_nil mount
      have found : ns.elements w.c = some (e :: es) := (elements_of_less like).trans mount
      refine ⟨{ w with c := { e.chan.val with path := w.c.path }, mh := e :: es, owned := false },
        drop t.tab w.c w.owned fid, ?_, rfl, rfl, rfl, ?_⟩
      · simp [Name.stepon, did, domount_of_elements found]
      · simp [candidates, domount_of_elements mount]
  · obtain ⟨_, e, es, list, first, found⟩ := follows.on did
    refine ⟨w, fid, by simp [Name.stepon, did], rfl, rfl, rfl, ?_⟩
    simp [candidates, domount_of_elements found, list, first]

theorem ntry_of_nodots (nodots : ".." ∉ names) :
    ntry names = (min names.length maxwelem, false) := by
  have none : (names.take maxwelem).findIdx? (· == "..") = none := by
    rw [List.findIdx?_eq_none_iff]
    intro name member
    rw [beq_eq_false_iff_ne]
    rintro rfl
    exact nodots (mem_of_mem_take member)
  simp only [ntry, none]

/-- The end of a turn, from where the plain walk is after the first name of the batch. -/
theorem advance_spec (t : Tree) (ns : Ns) {w : Walking} {x on : Chan} {name : String}
    {rest : List String} {k : Nat} {wq : Walkqid} (fid : UInt32) (names : w.names = name :: rest)
    (path : x.path = addelem w.path name) (bound : k ≤ rest.length) (dev : on.dev = x.dev)
    (devno : on.devno = x.devno) (qids : wq.qids = x.qid :: t.qids x.file (rest.take k))
    (clone : wq.clone.map Chan.less = (t.along x (rest.take k)).map Chan.less) :
    (∃ e fid', advance t.tab ns false false (k + 1) wq on w fid = (.error e, fid') ∧
      plainwalk t ns x none rest = none) ∨
    (∃ w' fid' p' n, advance t.tab ns false false (k + 1) wq on w fid = (.ok w', fid') ∧
      Follows ns w' p' none ∧ w'.names = rest.drop n ∧
      plainwalk t ns x none rest = plainwalk t ns p' none w'.names) := by
  have run := plainwalk_batch t ns (rest.take k) (rest.drop k) dev devno
  rw [length_take, Nat.min_eq_left bound, ← qids, take_append_drop] at run
  simp only [advance, Nat.add_sub_cancel, Bool.not_false, Bool.and_self, if_true]
  rcases stop : firstMount ns on (wq.qids.take k) with _ | ⟨i, m⟩
  · rw [stop] at run
    rcases made : wq.clone with _ | nc
    · rw [made, map_none, eq_comm, map_eq_none_iff] at clone
      rw [clone] at run
      exact .inl ⟨_, _, rfl, run⟩
    · rw [made, map_some, eq_comm, map_eq_some_iff] at clone
      obtain ⟨z, along, likez⟩ := clone
      rw [along] at run
      obtain ⟨y, walked, like, pathy, all⟩ := run
      have size : wq.qids.length = k + 1 := by
        rw [qids, length_cons, all]
      refine .inr ⟨_, _, y, k, rfl, ⟨?_, ?_, ?_⟩, ?_, ?_⟩
      · rw [pathy, path, size, names, take_succ_cons, foldl_cons]
      · intro _
        exact ⟨likez.symm.trans like.symm, rfl⟩
      · intro did
        cases did
      · rw [size, names, drop_succ_cons]
      · rw [walked, size, names, drop_succ_cons]
  · rw [stop] at run
    obtain ⟨y, walked, short, elems, pathy⟩ := run
    obtain ⟨e, es, rfl⟩ := elements_ne_nil elems
    have left : w.names.drop (i + 1) = (rest.take k).drop i ++ rest.drop k := by
      rw [names, drop_succ_cons, ← drop_append_of_le_length (by rw [length_take]; omega),
        take_append_drop]
    refine .inr ⟨_, _, y, i, rfl, ⟨?_, ?_, ?_⟩, ?_, ?_⟩
    · rw [pathy, path, names, take_succ_cons, foldl_cons, take_take,
        Nat.min_eq_left (by omega)]
    · intro did
      cases did
    · intro _
      refine ⟨?_, e, es, rfl, rfl, elems⟩
      intro none
      have lengths := congrArg List.length none
      rw [left] at lengths
      simp only [length_append, length_drop, length_take, length_nil] at lengths
      omega
    · rw [names, drop_succ_cons]
    · rw [walked, left]

theorem Follows.step (follows : Follows ns w p src) (kinds : ns.Kinds) (nodots : ".." ∉ w.names)
    (going : w.names ≠ []) (fid : UInt32) :
    (∃ e fid', walkStep t.tab ns false w fid = (.error e, fid') ∧
      plainwalk t ns p src w.names = none) ∨
    (∃ w' fid' p' n, walkStep t.tab ns false w fid = (.ok w', fid') ∧ Follows ns w' p' none ∧
      w'.names = w.names.drop (n + 1) ∧
      plainwalk t ns p src w.names = plainwalk t ns p' none w'.names) := by
  obtain ⟨name, rest, names⟩ := exists_cons_of_ne_nil going
  by_cases dir : w.c.isDir = true
  case neg =>
    left
    refine ⟨(w.nhave, enotdir), _, by rw [walkStep, if_pos (by simpa using dir)], ?_⟩
    rw [follows.isDir kinds] at dir
    rw [names, plainwalk, walkone, if_pos (by simpa using dir), bind_none]
  have pdir : p.isDir = true := (follows.isDir kinds).symm.trans dir
  obtain ⟨k, size⟩ : ∃ k, min w.names.length maxwelem = k + 1 := by
    apply Nat.exists_eq_succ_of_ne_zero
    simp [names, maxwelem]
  have bound : k ≤ rest.length := by
    rw [names, length_cons] at size
    omega
  have batch : w.names.take (k + 1) = name :: rest.take k := by
    rw [names, take_succ_cons]
  obtain ⟨w1, fid1, stepped, names1, path1, nhave1, cands⟩ := follows.stepon (t := t) fid
  have turn : walkStep t.tab ns false w fid =
      walkTurn t.tab ns false (k + 1) false w1
        (ewalk t.tab false w1.c w1.mh (name :: rest.take k) fid1) := by
    rw [walkStep, if_neg (by simp [dir]), ntry_of_nodots nodots, size]
    simp only [stepped, names1, batch]
  have device := ewalk_spec t name (rest.take k) w1.c w1.mh fid1
  have plain := firstHit_of_less t name cands
  rcases hit : firstHit t name (w1.c :: (w1.mh.drop 1).map (·.chan.val)) with _ | ⟨d, q⟩
  · left
    rw [hit] at device plain
    obtain ⟨e, fid2, said, awake⟩ := device
    refine ⟨(w1.nhave + 1, e), drop t.tab w1.c w1.owned fid2, ?_, ?_⟩
    · rw [turn, said, walkTurn, if_neg awake]
    · rw [map_none, eq_comm, map_eq_none_iff] at plain
      rw [names, plainwalk, walkone_eq pdir, plain, map_none, bind_none]
  rw [hit] at device plain
  obtain ⟨wq, fid2, said, qids, clone⟩ := device
  rw [map_some, eq_comm, map_eq_some_iff] at plain
  obtain ⟨⟨d', q'⟩, hit', same⟩ := plain
  rw [Prod.mk.injEq] at same
  obtain ⟨like, rfl⟩ := same
  have next := next_of_firstHit hit
  let x : Chan := { d'.walked name q' with path := addelem p.path name }
  have first : walkone t ns p name = some x := by
    rw [walkone_eq pdir, hit', map_some]
  have likex : (d.walked name q').less = x.less := (walked_of_less like name q').symm
  have gone : plainwalk t ns p src w.names = plainwalk t ns x none rest := by
    rw [names, plainwalk, first, bind_some]
  rw [Tree.qids_cons next, file_of_less likex] at qids
  rw [Tree.along_cons next, Tree.along_of_less likex] at clone
  have dropped : ∀ n, w.names.drop (n + 1) = rest.drop n := by
    intro n
    rw [names, drop_succ_cons]
  rw [turn, said, walkTurn, gone]
  simp only [dropped]
  exact advance_spec t ns fid2 (names1.trans names) (by rw [path1, follows.path]) bound
    (less_iff.1 like).1.symm (less_iff.1 like).2.1.symm qids clone

theorem Follows.ended (follows : Follows ns w p src) (names : w.names = []) (turns : Nat)
    (fid : UInt32) :
    match plainwalk t ns p src w.names with
    | some (d, src') => ∃ f last,
        walkLoop t.tab ns false turns w fid = some (.ok ({ d with fid := f }, src'), last)
    | none => ∃ e last, walkLoop t.tab ns false turns w fid = some (.error e, last) := by
  have did : w.didmount = false := by
    rcases did : w.didmount with _ | _
    · rfl
    · exact absurd names (follows.on did).1
  obtain ⟨like, same⟩ := follows.here did
  have chan : { w.c with path := w.path } = { p with fid := w.c.fid } := by
    obtain ⟨dev, devno, qid, mode, flag, ismtpt, aux⟩ := less_iff.1 like
    rw [Chan.mk.injEq]
    exact ⟨dev, devno, qid, mode, flag, rfl, ismtpt, follows.path, aux⟩
  rw [names, plainwalk]
  refine ⟨w.c.fid, fid, ?_⟩
  cases turns <;> rw [walkLoop, names, isEmpty_nil, if_pos rfl, chan, same]

theorem Follows.loop (kinds : ns.Kinds) (turns : Nat) {w : Walking} {p : Chan}
    {src : Option (Rc Chan)} (follows : Follows ns w p src) (nodots : ".." ∉ w.names)
    (enough : w.names.length ≤ turns) (fid : UInt32) :
    match plainwalk t ns p src w.names with
    | some (d, src') => ∃ f last,
        walkLoop t.tab ns false turns w fid = some (.ok ({ d with fid := f }, src'), last)
    | none => ∃ e last, walkLoop t.tab ns false turns w fid = some (.error e, last) := by
  induction turns generalizing w p src fid with
  | zero =>
      have names : w.names = [] := length_eq_zero_iff.1 (Nat.le_zero.1 enough)
      exact follows.ended names 0 fid
  | succ turns ih =>
      by_cases names : w.names = []
      · exact follows.ended names (turns + 1) fid
      have empty : w.names.isEmpty = false := by simpa using names
      rcases follows.step (t := t) kinds nodots names fid with
        ⟨e, fid', turn, failed⟩ | ⟨w', fid', p', n, turn, follows', fewer, gone⟩
      · rw [failed]
        refine ⟨e, fid', ?_⟩
        rw [walkLoop, empty, turn]
        rfl
      · have rest := ih follows' (by
          rw [fewer]
          exact fun member => nodots (mem_of_mem_drop member)) (by
          rw [fewer, length_drop]
          omega) fid'
        rw [gone, walkLoop, empty, turn]
        exact rest

/-- From any channel in any namespace, on any tree, the batched walk answers just when the
plain one does: the same channel but for its fid, and the same reference. -/
theorem batched_walk (t : Tree) {s : Spaces} (reached : Spaces.system.Reach Spaces.found s)
    {ns : Ns} (member : ns ∈ s.spaces) (c : Chan) (src : Option (Rc Chan)) (names : List String)
    (nodots : ".." ∉ names) (fid : UInt32) :
    match plainwalk t ns c src names with
    | some (d, src') => ∃ f last,
        walk t.tab ns false c src names fid = some (.ok ({ d with fid := f }, src'), last)
    | none => ∃ e last, walk t.tab ns false c src names fid = some (.error e, last) := by
  have follows : Follows ns ⟨c, src, src.isNone, c.path, [], false, 0, names⟩ c src := by
    refine ⟨rfl, fun _ => ⟨rfl, rfl⟩, ?_⟩
    intro did
    cases did
  exact follows.loop (Spaces.kinds_of_reach reached ns member) names.length nodots
    (Nat.le_refl _) fid

/-- A tree whose `usr/bin` has another behind it, in the directory bound in front of `usr`. -/
def usrTree : Tree where
  child f name :=
    if f.qid.isDir then
      .ok <|
        if f.qid.path = 2 ∧ name = "usr" then some ⟨qtdir, 0, 3⟩
        else if f.qid.path = 3 ∧ name = "bin" then some ⟨qtdir, 0, 8⟩
        else if f.qid.path = 3 ∧ name = "lib" then some ⟨qtdir, 0, 7⟩
        else if f.qid.path = 4 ∧ name = "bin" then some ⟨qtdir, 0, 5⟩
        else if f.qid.path = 5 ∧ name = "ls" then some ⟨qtdir, 0, 6⟩
        else none
    else .error enotdir
  leaf f name q hit := by
    by_contra file
    rw [if_neg file] at hit
    cases hit
  awake f name said := by
    split_ifs at said
    simp [enotdir, Name.slept] at said

/-- Over a mount on the root and a union at `usr`: one name is in the union's first directory,
the other only in its second. -/
theorem batched_walk_union : Spaces.system.Reach Spaces.found Spaces.joined ∧
    (∃ f last, walk usrTree.tab Spaces.joinedNs false (Spaces.dirAt 0).val
        (some (Spaces.dirAt 0)) ["usr", "bin", "ls"] 0 =
      some (.ok ({ (Spaces.dirAt 6).val with path := "#/usr/bin/ls", fid := f }, none), last)) ∧
    ∃ f last, walk usrTree.tab Spaces.joinedNs false (Spaces.dirAt 0).val
        (some (Spaces.dirAt 0)) ["usr", "lib"] 0 =
      some (.ok ({ (Spaces.dirAt 7).val with path := "#/usr/lib", fid := f }, none), last) := by
  have mount : Spaces.system.Reach Spaces.found Spaces.mounted :=
    .step (a := Spaces.remount 0) (.init rfl) (fun _ _ => .inl rfl) Spaces.boot_remount
  have reached : Spaces.system.Reach Spaces.found Spaces.joined :=
    .step (a := Spaces.join 3 4) mount (fun _ _ => .inl rfl) rfl
  have member : Spaces.joinedNs ∈ Spaces.joined.spaces := mem_cons_self ..
  have bin := batched_walk usrTree reached member (Spaces.dirAt 0).val (some (Spaces.dirAt 0))
    ["usr", "bin", "ls"] (by decide) 0
  have lib := batched_walk usrTree reached member (Spaces.dirAt 0).val (some (Spaces.dirAt 0))
    ["usr", "lib"] (by decide) 0
  have plainBin : plainwalk usrTree Spaces.joinedNs (Spaces.dirAt 0).val (some (Spaces.dirAt 0))
      ["usr", "bin", "ls"] = some ({ (Spaces.dirAt 6).val with path := "#/usr/bin/ls" }, none) := by
    decide
  have plainLib : plainwalk usrTree Spaces.joinedNs (Spaces.dirAt 0).val (some (Spaces.dirAt 0))
      ["usr", "lib"] = some ({ (Spaces.dirAt 7).val with path := "#/usr/lib" }, none) := by decide
  rw [plainBin] at bin
  rw [plainLib] at lib
  exact ⟨reached, bin, lib⟩

end Ipnx.Name
