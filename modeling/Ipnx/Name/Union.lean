import Ipnx.Name.Heads
import Mathlib.Data.Nat.Bitwise

/-!
# What a mount does to a union

A mount changes the list at one head and nothing else: the new element, and after it the rest
of the union it came from, take the place of the list or go to one end of it. An unmount takes
the first element that is the one named. What either refuses changes nothing.
-/

namespace Ipnx.Name

open List

/-- What a mount says of an element: all of it but the number it will be given. -/
abbrev Bare := Rc Chan × UInt32 × String

def Element.bare (e : Element) : Bare := (e.chan, e.mflag, e.spec)

def spliced (how : Bind) (old fresh : List Bare) : List Bare :=
  match how with
  | .replace => fresh
  | .before => fresh ++ old
  | .after => old ++ fresh

/-- What a mount brings: the new element as it is, and the others of its union in their order,
each with its own spec and the flag of the bind, where a replacement's others come after. -/
def brought (new : Element) (union : List Element) (how : Bind) : List Bare :=
  new.bare :: (union.drop 1).map fun e =>
    (e.chan, if how = .before then Mflag.mbefore else Mflag.mafter, e.spec)

/-- The list a new head starts from: the directory itself, unless it is replaced. -/
def first (on : Rc Chan) (how : Bind) : List Bare :=
  if how = .replace then [] else [(on, 0, "")]

/-- A directory over a file or a file over a directory, a union onto a file, and a `-c` of what
no file can be made in. -/
def Refused (on : Chan) (new : Element) (union : List Element) (how : Bind) : Prop :=
  new.chan.val.isDir ≠ on.isDir ∨ (on.isDir = false ∧ how ≠ .replace) ∨
    (new.create = true ∧ union ≠ [] ∧ ∀ u, union = [u] → u.create = false)

namespace Ns

theorem number_bare (es : List Element) (n : Ids) :
    (number es n).1.map Element.bare = es.map Element.bare := by
  induction es generalizing n with
  | nil => rfl
  | cons e es ih =>
      simp only [number, map_cons, ih]
      rfl

theorem group_bare (new : Element) (union : List Element) (how : Bind) :
    (group new union how).map Element.bare = brought new union how := by
  simp only [group, brought, map_cons, map_map]
  congr
  funext e
  cases how <;> rfl

theorem mountedList_bare (how : Bind) (list : List Element) (new : Element)
    (union : List Element) (n : Ids) : (mountedList how list new union n).map Element.bare =
      spliced how (list.map Element.bare) (brought new union how) := by
  have fresh : (number (group new union how) n).1.map Element.bare = brought new union how := by
    rw [number_bare, group_bare]
  rw [mountedList]
  cases how
  · exact fresh
  · rw [place, insertAll_eq, map_append, fresh]
    rfl
  · rw [place, map_append, fresh]
    rfl

theorem newmhead_bare (on : Rc Chan) (how : Bind) (n : Ids) :
    (newmhead on how n).1.mount.map Element.bare = first on how := by
  unfold newmhead first
  split_ifs <;> rfl

theorem forbids_iff {new : Element} {union : List Element} : forbids new union = true ↔
    new.create = true ∧ union ≠ [] ∧ ∀ u, union = [u] → u.create = false := by
  rcases union with _ | ⟨u, _ | ⟨v, us⟩⟩
  · simp [forbids]
  · simp [forbids]
  · simp [forbids]

theorem xor_isDir {a b : Chan} : ((a.qid.qtype ^^^ b.qid.qtype) &&& qtdir != 0) = true ↔
    b.isDir ≠ a.isDir := by
  have one (q : UInt8) : q &&& qtdir = 0 ∨ q &&& qtdir = qtdir := by
    have bit : (q &&& qtdir).toNat = (q.toNat.testBit 7).toNat * 2 ^ 7 :=
      (UInt8.toNat_and ..).trans (Nat.and_two_pow q.toNat 7)
    rcases top : q.toNat.testBit 7 with _ | _ <;> rw [top] at bit
    · exact .inl (UInt8.toNat_inj.1 bit)
    · exact .inr (UInt8.toNat_inj.1 bit)
  have bits : (a.qid.qtype ^^^ b.qid.qtype) &&& qtdir =
      (a.qid.qtype &&& qtdir) ^^^ (b.qid.qtype &&& qtdir) := by
    apply UInt8.toNat_inj.1
    simp only [UInt8.toNat_and, UInt8.toNat_xor, Nat.and_xor_distrib_right]
  rw [bits, Chan.isDir, Chan.isDir, Qid.isDir, Qid.isDir]
  rcases one a.qid.qtype with p | p <;> rcases one b.qid.qtype with q | q <;> rw [p, q] <;> decide

theorem cmount_refused {ns : Ns} {n : Ids} {on : Rc Chan} {new : Element} {union : List Element}
    {how : Bind} : (Refused on.val new union how →
      ns.cmount n on new union how = (.error emount, ns, n)) ∧
    (¬Refused on.val new union how → ∃ r, (ns.cmount n on new union how).1 = .ok r) := by
  have kinds := @xor_isDir on.val new.chan.val
  have creates := @forbids_iff new union
  rw [Refused]
  unfold cmount
  constructor
  · intro refused
    split_ifs with differ file create
    · rfl
    · rfl
    · rfl
    · rcases refused with differ' | ⟨file', how'⟩ | create'
      · exact absurd (kinds.2 differ') differ
      · simp [file', how'] at file
      · exact absurd (creates.2 create') create
  · intro fit
    push Not at fit
    rcases fit with ⟨same, union', create'⟩
    rw [if_neg fun differ => kinds.1 differ same, if_neg, if_neg]
    · exact ⟨_, rfl⟩
    · intro create
      rcases creates.1 create with ⟨makes, some_, only⟩
      rcases create' makes some_ with ⟨u, one, wrong⟩
      exact wrong (only u one)
    · intro file
      simp only [Bool.and_eq_true, Bool.not_eq_true', bne_iff_ne] at file
      exact file.2 (union' file.1)

theorem eq_append_of_findIdx? {is : Chan → Bool} {l : List Element} {i : Nat}
    (found : l.findIdx? (fun e => is e.chan.val) = some i) :
    ∃ pre e post, l = pre ++ e :: post ∧ (∀ x ∈ pre, is x.chan.val = false) ∧
      is e.chan.val = true ∧ l[i]? = some e ∧ l.eraseIdx i = pre ++ post := by
  obtain ⟨bound, that, before⟩ := List.findIdx?_eq_some_iff_getElem.1 found
  refine ⟨l.take i, l[i], l.drop (i + 1), ?_, ?_, that, List.getElem?_eq_getElem bound, ?_⟩
  · rw [cons_getElem_drop_succ, take_append_drop]
  · intro x member
    obtain ⟨k, less, rfl⟩ := mem_take_iff_getElem.1 member
    exact Bool.eq_false_iff.2 (before k (by omega))
  · exact eraseIdx_eq_take_drop_succ ..

theorem cmount_error {ns : Ns} {n : Ids} {on : Rc Chan} {new : Element} {union : List Element}
    {how : Bind} {e : String} (error : (ns.cmount n on new union how).1 = .error e) :
    (ns.cmount n on new union how).2 = (ns, n) := by
  rcases cmount_cases ns n on new union how with ⟨e', r⟩ | ⟨j, h, _, _, r⟩ | ⟨_, r⟩
  · rw [r]
  · rw [r] at error
    cases error
  · rw [r] at error
    cases error

theorem cunmount_error {ns : Ns} {on : Chan} {named : Option (Chan → Bool)} {e : String}
    (error : (ns.cunmount on named).1 = .error e) : (ns.cunmount on named).2 = ns := by
  rcases cunmount_cases ns on named with
    ⟨e', r⟩ | ⟨j, h, gone, _, _, _, r⟩ | ⟨j, h, i, e', _, _, _, _, r⟩
  · rw [r]
  · rw [r] at error
    cases error
  · rw [r] at error
    cases error

end Ns

end Ipnx.Name
