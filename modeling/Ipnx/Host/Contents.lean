import Ipnx.Host.Shaped
import Ipnx.Lib.Extent

/-!
# What a file of the page's tree holds

The reads, the writes and the truncations of one file against an array of bytes. The array takes
a request at the 64 bits it was made with; the tree narrows them to the 32 of the page's machine.
-/

namespace Ipnx.Host

def Data.held : Data → Option Bytes
  | .here b => some b
  | _ => none

namespace Tree

inductive Ask
  | read (off : UInt64) (n : UInt32)
  | write (off : UInt64) (data : Bytes)
  | truncate (len : UInt64)
deriving Repr

/-- What is asked, what the page answers if the file is to be fetched, and the time. -/
structure Request where
  ask : Ask
  fetched : Option Bytes
  now : UInt32
deriving Repr

def Request.op (r : Request) (p : Path) : Op :=
  match r.ask with
  | .read off n => .read p off n.toNat r.fetched
  | .write off data => .write p off data r.fetched r.now
  | .truncate len => .truncate p len r.fetched r.now

/-- What an array of bytes answers, and the array after it; nothing, where no vector holds what
is asked for. -/
def Ask.on (b : Bytes) : Ask → Option (Bytes × Bytes)
  | .read off n => some (extent b off.toNat n.toNat, b)
  | .write off data =>
      if off.toNat + data.length < vecMax then some ([], laid 0 b off.toNat data) else none
  | .truncate len => if len.toNat < vecMax then some ([], sized 0 b len.toNat) else none

/-- What is known of a file once a request was made of it: what the array holds after it, if the
bytes were here or were fetched. -/
def Request.after (r : Request) (c : Option Bytes) : Option Bytes :=
  (c.or r.fetched).map fun b => ((r.ask.on b).map Prod.snd).getD b

/-- A file's node with other bytes, and maybe another time. -/
def SameFile (n n' : Node) : Prop :=
  n'.name = n.name ∧ n'.parent = n.parent ∧ n'.perm = n.perm ∧ n'.atime = n.atime ∧
    n'.path = n.path

/-- The file is left with these bytes, and every other file as it was. -/
def Leaves (t : Tree) (i : Nat) (n : Node) (b : Bytes) (t' : Tree) : Prop :=
  (∃ n', t'.node i = some n' ∧ n'.data = .here b ∧ SameFile n n') ∧
    ∀ j, j ≠ i → t'.node j = t.node j

/-- The call ends as an array of bytes has it: with its answer, and the file left as the array
is; or with an error and nothing changed, where the array has no answer or the bytes cannot be
had. -/
def Right (t : Tree) (i : Nat) (n : Node) (r : Request) (out : Option (Call Bytes)) : Prop :=
  match (n.data.held.or r.fetched).bind r.ask.on with
  | some (answer, b) => ∃ t', out = some (.ok answer, t') ∧ Leaves t i n b t'
  | none => ∃ e, out = some (.error e, t)

/-- Every request of a run ends as the array has it. -/
def Faithful (p : Path) (i : Nat) : Tree → List Request → Prop
  | _, [] => True
  | t, r :: rs => (∀ n, t.node i = some n → Right t i n r (t.op (r.op p))) ∧
      ∀ out t', t.op (r.op p) = some (out, t') → Faithful p i t' rs

/-- The bytes asked for can be indexed, and they are the ones at the offset; what is written or
set fits in a vector, and so does the offset. -/
def Ask.Fits (b : Bytes) : Ask → Prop
  | .read off n => min (usize off) b.length + n.toNat < 2 ^ 32 ∧
      (off.toNat < 2 ^ 32 ∨ b.length ≤ usize off ∨ n = 0)
  | .write off data => off.toNat + data.length < vecMax
  | .truncate len => len.toNat < vecMax

/-- Every request of a run fits the bytes it finds. -/
def Fit : Option Bytes → List Request → Prop
  | _, [] => True
  | c, r :: rs => (∀ b, c.or r.fetched = some b → r.ask.Fits b) ∧ Fit (r.after c) rs

theorem usize_of_lt {n : UInt64} (narrow : n.toNat < 2 ^ 32) : usize n = n.toNat :=
  Nat.mod_eq_of_lt narrow

theorem overwrite_laid (b : Bytes) {off : UInt64} {data : Bytes}
    (fits : off.toNat + data.length < vecMax) :
    overwrite off data b = some (laid 0 b off.toNat data) := by
  have narrow : usize off = off.toNat := usize_of_lt (by rw [vecMax] at fits; omega)
  have indexed : ¬2 ^ 32 ≤ off.toNat + data.length := by
    rw [vecMax] at fits
    omega
  rw [overwrite, narrow, if_neg indexed]
  by_cases short : b.length < off.toNat + data.length
  · rw [if_pos short, resize_some b fits]
    exact congrArg some (laid_sized short)
  · rw [if_neg short]
    exact congrArg some (laid_of_le (Nat.not_lt.1 short)).symm

theorem resize_sized (b : Bytes) {len : UInt64} (fits : len.toNat < vecMax) :
    resize b (usize len) = some (sized 0 b len.toNat) := by
  rw [usize_of_lt (by rw [vecMax] at fits; omega), resize_some b fits, sized]

variable {t t' : Tree} {p : Path} {i : Nat} {n n' : Node} {b b' : Bytes} {r : Request}

theorem SameFile.refl (n : Node) : SameFile n n := ⟨rfl, rfl, rfl, rfl, rfl⟩

theorem bytes_file (there : t.node i = some n) (file : n.isDir = false)
    (fetched : Option Bytes) :
    (n.data.held.or fetched = none ∧ ∃ e, t.bytes i fetched = some (.error e, t)) ∨
    ∃ b t', n.data.held.or fetched = some b ∧ t.bytes i fetched = some (.ok b, t') ∧
      Leaves t i n b t' := by
  rcases holds : n.data with kids | ⟨len, at_⟩ | b
  · rw [Node.isDir, holds] at file
    cases file
  · rcases fetched with _ | b
    · left
      exact ⟨rfl, _, by simp [bytes, there, holds]; rfl⟩
    · right
      have live := node_lt there
      refine ⟨b, t.set i (some { n with data := .here b }), rfl, ?_, ⟨{ n with data := .here b },
        ?_, rfl, rfl, rfl, rfl, rfl, rfl⟩, ?_⟩
      · simp [bytes, there, holds, edit_eq there]
      · rw [node_set live, if_pos rfl]
      · intro j other
        rw [node_set live, if_neg other]
  · right
    exact ⟨b, t, rfl, by simp [bytes, there, holds], ⟨n, there, holds, .refl n⟩, fun _ _ => rfl⟩

theorem on_vector (vector : b.length < vecMax) {ask : Ask} {answer : Bytes}
    (on : ask.on b = some (answer, b')) : b'.length < vecMax := by
  rcases ask with ⟨off, k⟩ | ⟨off, data⟩ | ⟨len⟩
  · cases on
    exact vector
  · rw [Ask.on] at on
    split_ifs at on with fits
    cases on
    rw [length_laid]
    omega
  · rw [Ask.on] at on
    split_ifs at on with fits
    cases on
    rw [length_sized]
    exact fits

section Found

variable (found : t.find p = some (some i))

include found

theorem change_file {fetched : Option Bytes} (now : UInt32)
    (f : Bytes → Option Bytes) (held : t.bytes i fetched = some (.ok b, t'))
    (left : Leaves t i n b t') :
    (f b = none ∧ t.change p fetched now f = none) ∨
    ∃ b' t'', f b = some b' ∧ t.change p fetched now f = some (.ok (), t'') ∧
      Leaves t i n b' t'' := by
  rcases left with ⟨⟨n', there, -, same⟩, others⟩
  rcases after : f b with _ | b'
  · left
    exact ⟨rfl, by simp [change, found, held, after]⟩
  right
  refine ⟨b', t'.set i (some { n' with data := .here b', mtime := now }), rfl, ?_,
    ⟨{ n' with data := .here b', mtime := now }, ?_, rfl, same⟩, ?_⟩
  · simp [change, found, held, after, edit_eq there]
  · rw [node_set (node_lt there), if_pos rfl]
  · intro j other
    rw [node_set (node_lt there), if_neg other, others j other]

theorem op_file (held : t.bytes i r.fetched = some (.ok b, t')) (left : Leaves t i n b t') :
    (t.op (r.op p) = none ∧ ¬r.ask.Fits b) ∨
    ∃ answer b' t'', t.op (r.op p) = some (.ok answer, t'') ∧ Leaves t i n b' t'' ∧
      (r.ask.Fits b → r.ask.on b = some (answer, b')) ∧
      (r.ask.on b = some (answer, b') → b.length < vecMax → r.ask.Fits b) := by
  rcases asked : r.ask with ⟨off, k⟩ | ⟨off, data⟩ | ⟨len⟩
  · by_cases beyond : 2 ^ 32 ≤ min (usize off) b.length + k.toNat
    · left
      refine ⟨by simp [Request.op, asked, op, Tree.read, found, held]; omega, ?_⟩
      rintro ⟨indexed, -⟩
      omega
    · right
      refine ⟨extent b (usize off) k.toNat, b, t', ?_, left, ?_, ?_⟩
      · rw [← extent_min]
        simp [Request.op, asked, op, Tree.read, found, held, extent]
        omega
      · rintro ⟨-, narrow | past | none⟩
        · rw [Ask.on, usize_of_lt narrow]
        · have past' : b.length ≤ off.toNat := le_trans past (Nat.mod_le _ _)
          rw [Ask.on, extent_of_le past, extent_of_le past']
        · subst none
          simp [Ask.on]
      · intro same vector
        refine ⟨by omega, ?_⟩
        by_contra wide
        push Not at wide
        rcases wide with ⟨wide, within, some_⟩
        have empty : extent b off.toNat k.toNat = [] :=
          extent_of_le (by rw [vecMax] at vector; omega)
        rw [Ask.on, empty, Option.some.injEq, Prod.mk.injEq] at same
        exact extent_ne_nil within (fun zero => some_ (UInt32.toNat_inj.1 zero)) same.1.symm
  · rcases change_file found r.now (overwrite off data) held left with
      ⟨none, stopped⟩ | ⟨b', t'', written, called, after⟩
    · left
      refine ⟨by simp [Request.op, asked, op, write, stopped, op.done], ?_⟩
      intro fits
      rw [overwrite_laid b fits] at none
      cases none
    · right
      refine ⟨[], b', t'', by simp [Request.op, asked, op, write, called, op.done, Except.map],
        after, ?_, ?_⟩
      · intro fits
        rw [overwrite_laid b fits] at written
        cases written
        exact if_pos fits
      · intro same _
        rw [Ask.on] at same
        split_ifs at same with fits
        exact fits
  · rcases change_file found r.now (fun b => resize b (usize len)) held left with
      ⟨none, stopped⟩ | ⟨b', t'', set_, called, after⟩
    · left
      refine ⟨by simp [Request.op, asked, op, truncate, stopped, op.done], ?_⟩
      intro fits
      rw [resize_sized b fits] at none
      cases none
    · right
      refine ⟨[], b', t'', by simp [Request.op, asked, op, truncate, called, op.done, Except.map],
        after, ?_, ?_⟩
      · intro fits
        rw [resize_sized b fits] at set_
        cases set_
        exact if_pos fits
      · intro same _
        rw [Ask.on] at same
        split_ifs at same with fits
        exact fits

theorem op_unfetched {e : String} (failed : t.bytes i r.fetched = some (.error e, t)) :
    t.op (r.op p) = some (.error e, t) := by
  rcases asked : r.ask with ⟨off, k⟩ | ⟨off, data⟩ | ⟨len⟩
  · simp [Request.op, asked, op, Tree.read, found, failed]
  · simp [Request.op, asked, op, write, change, found, failed, op.done, Except.map]
  · simp [Request.op, asked, op, truncate, change, found, failed, op.done, Except.map]

theorem right_file
    (held : t.bytes i r.fetched = some (.ok b, t')) (known : n.data.held.or r.fetched = some b)
    (left : Leaves t i n b t')
    (vector : b.length < vecMax) :
    (Right t i n r (t.op (r.op p)) ↔ r.ask.Fits b) ∧
      ∀ out t'', r.ask.Fits b → t.op (r.op p) = some (out, t'') →
        ∃ b', r.after n.data.held = some b' ∧ Leaves t i n b' t'' ∧ b'.length < vecMax := by
  have answers : (n.data.held.or r.fetched).bind r.ask.on = r.ask.on b := by rw [known]; rfl
  rcases op_file found held left with ⟨stopped, wide⟩ | ⟨answer, b', t'', called, after, fits, same⟩
  · refine ⟨⟨fun right => ?_, fun fits => absurd fits wide⟩, fun _ _ fits => absurd fits wide⟩
    rw [Right, answers, stopped] at right
    rcases on : r.ask.on b with _ | ⟨answer, b'⟩ <;> rw [on] at right
    · rcases right with ⟨e, failed⟩
      cases failed
    · rcases right with ⟨t'', called, -⟩
      cases called
  · constructor
    · rw [Right, answers, called]
      constructor
      · intro right
        rcases on : r.ask.on b with _ | ⟨answer', b''⟩ <;> rw [on] at right
        · rcases right with ⟨e, failed⟩
          cases failed
        · rcases right with ⟨t3, ended, ⟨n1, there, data, -⟩, -⟩
          cases ended
          rcases after with ⟨⟨n2, there', data', -⟩, -⟩
          rw [there] at there'
          cases there'
          rw [data] at data'
          cases data'
          exact same on vector
      · intro fit
        rw [fits fit]
        exact ⟨t'', rfl, after⟩
    · intro out t3 fit ended
      rw [called] at ended
      cases ended
      have on := fits fit
      refine ⟨b', ?_, after, ?_⟩
      · rw [Request.after, known, Option.map_some, on]
        rfl
      · exact on_vector vector on

end Found

theorem Right.called {out : Option (Call Bytes)} (right : Right t i n r out) :
    ∃ a t', out = some (a, t') := by
  rw [Right] at right
  rcases on : (n.data.held.or r.fetched).bind r.ask.on with _ | ⟨answer, b⟩ <;> rw [on] at right
  · rcases right with ⟨e, same⟩
    exact ⟨_, t, same⟩
  · rcases right with ⟨t', same, -⟩
    exact ⟨_, t', same⟩

theorem walk_congr (same : ∀ j, (t'.node j).map (fun n => (n.name, n.kids)) =
      (t.node j).map fun n => (n.name, n.kids)) (names : List String) (at_ : Nat) :
    t'.walk at_ names = t.walk at_ names := by
  have named (name : String) (ks : List Nat) : t'.named name ks = t.named name ks := by
    induction ks with
    | nil => rfl
    | cons k ks ih =>
        have here := same k
        rcases old : t.node k with _ | m <;> rcases new : t'.node k with _ | m' <;>
          rw [old, new] at here
        · simp [Tree.named, old, new]
        · cases here
        · cases here
        · rw [Option.map_some, Option.map_some, Option.some.injEq, Prod.mk.injEq] at here
          simp [Tree.named, old, new, here.1, ih]
  have child (dir : Nat) (name : String) : t'.child dir name = t.child dir name := by
    have here := same dir
    rcases old : t.node dir with _ | m <;> rcases new : t'.node dir with _ | m' <;>
      rw [old, new] at here
    · simp [Tree.child, old, new]
    · cases here
    · cases here
    · rw [Option.map_some, Option.map_some, Option.some.injEq, Prod.mk.injEq] at here
      simp [Tree.child, old, new, here.2, named]
  induction names generalizing at_ with
  | nil => rfl
  | cons name names ih =>
      rw [walk_cons, walk_cons, child]
      rcases t.child at_ name with _ | _ | k
      · rfl
      · rfl
      · exact ih k

theorem Leaves.find (left : Leaves t i n b t') (there : t.node i = some n)
    (file : n.isDir = false) : t'.find p = t.find p := by
  rcases left with ⟨⟨n', there', data, name, -⟩, others⟩
  refine walk_congr (fun j => ?_) _ _
  by_cases this : j = i
  · subst this
    have leaf : n.kids = [] := by
      rcases holds : n.data with kids | ⟨len, at_⟩ | b
      · rw [Node.isDir, holds] at file
        cases file
      · rw [Node.kids, holds]
      · rw [Node.kids, holds]
    rw [there, there', Option.map_some, Option.map_some, name, leaf, Node.kids, data]
  · rw [others j this]

/-- Every read, write and truncation of a run on a file ends as an array of bytes has it exactly
if every one of them fits the bytes it finds: those that the page answers, and those that the
file holds, being such as a vector holds. -/
theorem requests_exact {rs : List Request} (found : t.find p = some (some i))
    (there : t.node i = some n) (file : n.isDir = false)
    (vector : ∀ b, n.data.held = some b → b.length < vecMax)
    (answered : ∀ r ∈ rs, ∀ b, r.fetched = some b → b.length < vecMax) :
    Faithful p i t rs ↔ Fit n.data.held rs := by
  induction rs generalizing t n with
  | nil => exact Iff.rfl
  | cons r rs ih =>
      have rest : ∀ r ∈ rs, ∀ b, r.fetched = some b → b.length < vecMax :=
        fun r' member => answered r' (List.mem_cons_of_mem r member)
      rcases bytes_file there file r.fetched with ⟨none, e, failed⟩ | ⟨b, t', known, held, left⟩
      · have called := op_unfetched found failed
        have stays : r.after n.data.held = n.data.held := by
          rw [Request.after, none, (Option.or_eq_none_iff.1 none).1]
          rfl
        have right : Right t i n r (t.op (r.op p)) := by
          rw [Right, none]
          exact ⟨e, called⟩
        rw [Faithful, Fit, none, stays, ← ih found there file vector rest]
        constructor
        · rintro ⟨-, later⟩
          refine ⟨?_, later _ _ called⟩
          rintro b ⟨⟩
        · rintro ⟨-, later⟩
          constructor
          · intro n' here
            rw [there] at here
            cases here
            exact right
          · intro out t' same
            rw [called] at same
            cases same
            exact later
      · have short : b.length < vecMax := by
          rcases here : n.data.held with _ | b'
          · rw [here] at known
            exact answered r (List.mem_cons_self ..) b known
          · rw [here] at known
            cases known
            exact vector _ here
        rcases right_file found held known left short with ⟨right, after⟩
        have step (fits : r.ask.Fits b) (out : Except String Bytes) (t'' : Tree)
            (called : t.op (r.op p) = some (out, t'')) :
            Faithful p i t'' rs ↔ Fit (r.after n.data.held) rs := by
          rcases after out t'' fits called with ⟨b', known', left', short'⟩
          have found' := (left'.find there file).trans found
          rcases left' with ⟨⟨n', there', data', -⟩, -⟩
          have held' : n'.data.held = some b' := by rw [data', Data.held]
          rw [known', ← held']
          apply ih found' there' (by rw [Node.isDir, data']) _ rest
          intro b'' same
          rw [held'] at same
          cases same
          exact short'
        rw [Faithful, Fit, known]
        constructor
        · rintro ⟨now, later⟩
          have fits := right.1 (now n there)
          rcases (now n there).called with ⟨out, t'', called⟩
          refine ⟨?_, (step fits out t'' called).1 (later out t'' called)⟩
          rintro b' ⟨⟩
          exact fits
        · rintro ⟨now, later⟩
          have fits := now b rfl
          constructor
          · intro n' here
            rw [there] at here
            cases here
            exact right.2 fits
          · intro out t'' called
            exact (step fits out t'' called).2 later

def three : Tree where
  nodes := [some ⟨"", 0, 0o775, 0, 0, 0, .dir [1]⟩, some ⟨"a", 0, 0o644, 0, 0, 1, .here [1, 2, 3]⟩]
  next := 2

theorem requests_exact_three : Faithful [.normal "a"] 1 three
    [⟨.write 5 [7], none, 0⟩, ⟨.read 2 10, none, 0⟩, ⟨.truncate 1, none, 0⟩] := by
  refine (requests_exact (n := ⟨"a", 0, 0o644, 0, 0, 1, .here [1, 2, 3]⟩) (by decide) rfl
    rfl ?_ ?_).2 ?_
  · rintro b ⟨⟩
    decide
  · simp
  · refine ⟨?_, ?_, ?_, trivial⟩
    · rintro b ⟨⟩
      exact (by decide : 5 + 1 < vecMax)
    · rintro b ⟨⟩
      exact ⟨by decide, Or.inl (by decide)⟩
    · rintro b ⟨⟩
      exact (by decide : 1 < vecMax)

def cut : Tree where
  nodes := [some ⟨"", 0, 0o775, 0, 0, 0, .dir [1]⟩, some ⟨"a", 0, 0o644, 0, 0, 1, .here []⟩]
  next := 2

/-- A length of 2^32 is a length of no bytes to the tree. -/
theorem requests_exact_fails : ∃ p i t n rs, t.find p = some (some i) ∧ t.node i = some n ∧
    n.data = .here [1, 2, 3] ∧ ¬Faithful p i t rs := by
  refine ⟨[.normal "a"], 1, three, ⟨"a", 0, 0o644, 0, 0, 1, .here [1, 2, 3]⟩,
    [⟨.truncate (2 ^ 32), none, 0⟩], by decide, rfl, rfl, ?_⟩
  rintro ⟨now, -⟩
  rcases now _ rfl with ⟨e, failed⟩
  have called : three.op (.truncate [.normal "a"] (2 ^ 32) none 0) = some (.ok [], cut) := by
    decide
  rw [Request.op, called] at failed
  cases failed

end Tree

end Ipnx.Host
