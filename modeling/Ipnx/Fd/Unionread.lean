import Ipnx.Lib.Codec
import Mathlib.Data.List.Count
import Mathlib.Data.List.Range

/-!
# Reading a union

`unionread` of `kernel/src/lib.rs`, and `pread` where the channel is a union's: each element is
cloned, opened and read in its turn, and closed once it gives nothing. What is done to each element
is written down, and the answers are held to it.

An element that a mount serves is asked by RPCs, and a call that waits for a reply is left asleep
and runs again from the top. Its record gives the RPCs made before their replies, and these are not
made again; what it did to a kernel device's element it does again. How often a call is left asleep,
and which replies each run of it finds, is any: each read has a list of the runs that may be.
-/

namespace Ipnx.Unionread

open List

/-- An element of a union: whether a mount serves it, whether its directory can be cloned and
opened, its entries, and how many it gives to a read of so many bytes after so many entries, unless
it fails. What it gives are whole entries, and some of them if there is room for the next. -/
structure Elem where
  wired : Bool
  clones : Bool
  opens : Bool
  entries : List Bytes
  gives : Nat → Nat → Option Nat
  entry : ∀ e ∈ entries, e ≠ []
  room : ∀ k n m, gives k n = some m → k ≤ entries.length → k + m ≤ entries.length
  fits : ∀ k n m, gives k n = some m → ((entries.drop k).take m).flatten.length ≤ n
  goes : ∀ k n e, entries[k]? = some e → e.length ≤ n → gives k n ≠ some 0

inductive Act
  | cloned
  | opened
  | gave (d : Bytes)
  | failed
  | closed
deriving DecidableEq, Repr

abbrev Log := List (Nat × Act)

/-- What an element's device is asked, and whether a read that is left asleep in it ends there, as
it does not in a close. -/
structure Ask where
  waits : Bool
  acts : List Act

def acted (asks : List Ask) : List Act := asks.flatMap Ask.acts

namespace Elem

variable (el : Elem) (umc : Option Nat) (n : Nat)

/-- The bytes of a read, and the place after it. -/
def dread (k : Nat) : Option (Bytes × Nat) :=
  (el.gives k n).map fun m => (((el.entries.drop k).take m).flatten, k + m)

/-- The place in the element that is open, which is opened if it is not. The clone that could not be
opened is closed. -/
def reach : Option Nat × List Ask :=
  match umc with
  | some k => (some k, [])
  | none =>
      if !el.clones then (none, [⟨true, []⟩])
      else if !el.opens then (none, [⟨true, [.cloned]⟩, ⟨true, []⟩, ⟨false, [.closed]⟩])
      else (some 0, [⟨true, [.cloned]⟩, ⟨true, [.opened]⟩])

/-- An element read, or closed and done with. -/
def serve : Option (Bytes × Nat) × List Ask :=
  match el.reach umc with
  | (none, asks) => (none, asks)
  | (some k, asks) =>
      match el.dread n k with
      | none => (none, asks ++ [⟨true, [.failed]⟩, ⟨false, [.closed]⟩])
      | some (d, k') =>
          if d = [] then (none, asks ++ [⟨true, []⟩, ⟨false, [.closed]⟩])
          else (some (d, k'), asks ++ [⟨true, [.gave d]⟩])

end Elem

/-- A channel to a union: its offset, the element it is at and the place in that, if it is open. -/
structure Chan where
  offset : Nat
  uri : Nat
  umc : Option Nat
deriving DecidableEq, Repr

def Chan.opened : Chan := ⟨0, 0, none⟩

def Chan.advance (c : Chan) : Chan := { c with uri := c.uri + 1, umc := none }

theorem Chan.advance_lt (c : Chan) {ms : List α} {el : α} (found : ms[c.uri]? = some el) :
    ms.length - c.advance.uri < ms.length - c.uri := by
  have below := (List.getElem?_eq_some_iff.1 found).1
  simp only [advance]
  omega

/-- Acts on the element that a channel is at. -/
def Chan.acts (c : Chan) (acts : List Act) : Log := acts.map fun a => (c.uri, a)

/-- The element open in a channel that is closed or rewound is closed. -/
def Chan.close (c : Chan) : Log :=
  match c.umc with
  | some _ => c.acts [.closed]
  | none => []

/-- A run of a call: the RPC of its record that it has come to, how many have been made, whether it
has been left asleep, and what is done. -/
structure Pass where
  at_ : Nat
  made : Nat
  asleep : Bool
  log : Log

def Pass.new (made : Nat) : Pass := ⟨0, made, false, []⟩

/-- Whether the run goes on. An RPC that has no reply leaves it asleep, and then it makes no more.
-/
def Pass.ask (replied : Nat → Bool) (i : Nat) (wired : Bool) (s : Pass) (a : Ask) : Bool × Pass :=
  let log := s.log ++ a.acts.map fun act => (i, act)
  if !wired then (true, { s with log })
  else if s.asleep then (!a.waits, s)
  else
    let s := if s.at_ < s.made then s else { s with made := s.at_ + 1, log }
    if replied s.at_ then (true, { s with at_ := s.at_ + 1 })
    else (!a.waits, { s with asleep := true })

def Pass.asks (replied : Nat → Bool) (i : Nat) (wired : Bool) (s : Pass) :
    List Ask → Bool × Pass
  | [] => (true, s)
  | a :: as =>
      match s.ask replied i wired a with
      | (true, s) => s.asks replied i wired as
      | (false, s) => (false, s)

/-- No answer when it returns asleep. -/
def unionread (ms : List Elem) (replied : Nat → Bool) (c : Chan) (n : Nat) (s : Pass) :
    Option (Bytes × Chan) × Pass :=
  match _found : ms[c.uri]? with
  | none => (some ([], c), s)
  | some el =>
      match s.asks replied c.uri el.wired (el.serve c.umc n).2 with
      | (false, s) => (none, s)
      | (true, s) =>
          match (el.serve c.umc n).1 with
          | some (d, k) => (some (d, { c with umc := some k }), s)
          | none => unionread ms replied c.advance n s
termination_by ms.length - c.uri
decreasing_by exact c.advance_lt _found

/-- A run that is left asleep leaves the channel as it was, and its answer too if it has one. After
those of the list a run finds every reply. -/
def rerun (ms : List Elem) (c : Chan) (n : Nat) : List (Nat → Bool) → Nat → Bytes × Chan × Log
  | [], made =>
      let r := unionread ms (fun _ => true) c n (.new made)
      let answer := r.1.getD ([], c)
      (answer.1, answer.2, r.2.log)
  | replied :: later, made =>
      let r := unionread ms replied c n (.new made)
      if r.2.asleep then
        let rest := rerun ms c n later r.2.made
        (rest.1, rest.2.1, r.2.log ++ rest.2.2)
      else
        let answer := r.1.getD ([], c)
        (answer.1, answer.2, r.2.log)

/-- The offset is moved once the read is over. -/
def Chan.rewound (c : Chan) : Chan := if c.offset = 0 then { c with uri := 0, umc := none } else c

def pread (ms : List Elem) (c : Chan) (n : Nat) (runs : List (Nat → Bool)) : Bytes × Chan × Log :=
  let r := rerun ms c.rewound n runs 0
  (r.1, { r.2.1 with offset := r.2.1.offset + r.1.length },
    (if c.offset = 0 then c.close else []) ++ r.2.2)

/-- Reads one after another, to the first that is empty. -/
def preads (ms : List Elem) (c : Chan) :
    List (Nat × List (Nat → Bool)) → List Bytes × Chan × Log
  | [] => ([], c, [])
  | (n, runs) :: ns =>
      let r := pread ms c n runs
      if r.1 = [] then ([[]], r.2.1, r.2.2)
      else
        let rest := preads ms r.2.1 ns
        (r.1 :: rest.1, rest.2.1, r.2.2 ++ rest.2.2)

namespace Awake

/-- The same, never left asleep. -/
def unionread (ms : List Elem) (c : Chan) (n : Nat) : Bytes × Chan × Log :=
  match _found : ms[c.uri]? with
  | none => ([], c, [])
  | some el =>
      match el.serve c.umc n with
      | (some (d, k), asks) => (d, { c with umc := some k }, c.acts (acted asks))
      | (none, asks) =>
          let r := unionread ms c.advance n
          (r.1, r.2.1, c.acts (acted asks) ++ r.2.2)
termination_by ms.length - c.uri
decreasing_by exact c.advance_lt _found

def pread (ms : List Elem) (c : Chan) (n : Nat) : Bytes × Chan × Log :=
  let r := unionread ms c.rewound n
  (r.1, { r.2.1 with offset := r.2.1.offset + r.1.length },
    (if c.offset = 0 then c.close else []) ++ r.2.2)

def preads (ms : List Elem) (c : Chan) : List Nat → List Bytes × Chan × Log
  | [] => ([], c, [])
  | n :: ns =>
      let r := pread ms c n
      if r.1 = [] then ([[]], r.2.1, r.2.2)
      else
        let rest := preads ms r.2.1 ns
        (r.1 :: rest.1, rest.2.1, r.2.2 ++ rest.2.2)

end Awake

def mine (i : Nat) (log : Log) : List Act := (log.filter fun e => e.1 == i).map Prod.snd

def given (acts : List Act) : Bytes :=
  acts.flatMap fun
    | .gave d => d
    | _ => []

/-- The answers give the entries of the elements in their order, all those of each that did not fail
and is done with; at the empty one all are done with. An element is opened once at most, and closed
as often as it was cloned, once the channel is closed. -/
structure Exact (ms : List Elem) (answers : List Bytes) (c : Chan) (log : Log) : Prop where
  order : answers.flatten = (List.range ms.length).flatMap fun i => given (mine i log)
  part : ∀ i e, ms[i]? = some e → ∃ k, given (mine i log) = (e.entries.take k).flatten
  whole : ∀ i e, ms[i]? = some e → .closed ∈ mine i log → .opened ∈ mine i log →
    .failed ∉ mine i log → given (mine i log) = e.entries.flatten
  ends : [] ∈ answers → ∀ i e, ms[i]? = some e → e.clones = true → e.opens = true →
    .opened ∈ mine i log ∧ .closed ∈ mine i log
  once : ∀ i, (mine i (log ++ c.close)).count .opened ≤ 1 ∧
    (mine i (log ++ c.close)).count .cloned ≤ 1 ∧
    (mine i (log ++ c.close)).count .closed = (mine i (log ++ c.close)).count .cloned

/-- A read of an element has room for the next entry, if there is one, or fails. -/
def Elem.Roomy (el : Elem) (umc : Option Nat) (n : Nat) : Prop :=
  ∀ k e, (el.reach umc).1 = some k → el.entries[k]? = some e →
    e.length ≤ n ∨ el.gives k n = none

/-- And of each that it comes to, until one gives something. -/
def Fits (ms : List Elem) (c : Chan) (n : Nat) : Prop :=
  match _found : ms[c.uri]? with
  | none => True
  | some el => el.Roomy c.umc n ∧ ((el.serve c.umc n).1 = none → Fits ms c.advance n)
termination_by ms.length - c.uri
decreasing_by exact c.advance_lt _found

/-- Every read does, to the first that is empty. -/
def Roomy (ms : List Elem) (c : Chan) : List Nat → Prop
  | [] => True
  | n :: ns => Fits ms c n ∧
      ((Awake.pread ms c n).1 ≠ [] → Roomy ms (Awake.pread ms c n).2.1 ns)

inductive Done (e : Elem) : List Act → Prop
  | unreached : e.clones = false → Done e []
  | unopened : e.opens = false → Done e [.cloned, .closed]
  | read (k : Nat) (ds : List Bytes) : k ≤ e.entries.length →
      ds.flatten = (e.entries.take k).flatten →
      Done e (.cloned :: .opened :: ds.map .gave ++ [.closed])
  | failed (k : Nat) (ds : List Bytes) : ds.flatten = (e.entries.take k).flatten →
      Done e (.cloned :: .opened :: ds.map .gave ++ [.failed, .closed])

structure Opened (e : Elem) (k : Nat) (acts : List Act) : Prop where
  within : k ≤ e.entries.length
  given : ∃ ds : List Bytes, acts = .cloned :: .opened :: ds.map .gave ∧
    ds.flatten = (e.entries.take k).flatten

/-- Not opened, not failed, or read to its end. -/
def Complete (e : Elem) (acts : List Act) : Prop :=
  .opened ∈ acts → .failed ∉ acts → given acts = e.entries.flatten

/-- An element before it is read: not come to yet, or open. -/
def Here (e : Elem) (umc : Option Nat) (acts : List Act) : Prop :=
  match umc with
  | none => acts = []
  | some k => Opened e k acts

variable {el : Elem} {umc : Option Nat} {acts : List Act} {k m n : Nat}

theorem here_cases (here : Here el umc acts) :
    umc = none ∧ acts = [] ∨ ∃ k, umc = some k ∧ Opened el k acts := by
  cases umc with
  | none => exact .inl ⟨rfl, here⟩
  | some k => exact .inr ⟨k, rfl, here⟩

theorem given_append (acts acts' : List Act) : given (acts ++ acts') = given acts ++ given acts' :=
  flatMap_append

theorem given_gave (ds : List Bytes) : given (ds.map .gave) = ds.flatten := by
  rw [given, flatMap_map]
  exact flatMap_id

theorem given_read (ds : List Bytes) (acts : List Act) :
    given (.cloned :: .opened :: ds.map .gave ++ acts) = ds.flatten ++ given acts := by
  rw [given_append, ← given_gave]
  rfl

theorem Opened.given_eq (isOpen : Opened el k acts) :
    Ipnx.Unionread.given acts = (el.entries.take k).flatten := by
  rcases isOpen.given with ⟨ds, rfl, is⟩
  rw [← is, ← given_gave]
  rfl

theorem Elem.whole_iff (el : Elem) (k : Nat) :
    (el.entries.take k).flatten = el.entries.flatten ↔ el.entries[k]? = none := by
  have split := take_append_drop k el.entries
  rw [List.getElem?_eq_none_iff]
  constructor
  · intro same
    rw [← split, flatten_append, take_append_drop, self_eq_append_right] at same
    by_contra more
    have below : k < el.entries.length := by omega
    have first : el.entries[k] ∈ el.entries.drop k := by
      rw [drop_eq_getElem_cons below]
      exact mem_cons_self
    exact el.entry _ (mem_of_mem_drop first) (flatten_eq_nil_iff.1 same _ first)
  · intro past
    rw [take_of_length_le past]

theorem Elem.taken_nil (gives : el.gives k n = some m) (within : k ≤ el.entries.length) :
    ((el.entries.drop k).take m).flatten = [] ↔ m = 0 := by
  constructor
  · intro none_
    by_contra some_
    have more := el.room k n m gives within
    have long : 0 < ((el.entries.drop k).take m).length := by
      rw [length_take, length_drop]
      omega
    have first := getElem_mem long
    have nonempty := el.entry _ (mem_of_mem_drop (mem_of_mem_take first))
    exact nonempty (flatten_eq_nil_iff.1 none_ _ first)
  · rintro rfl
    rw [take_zero, flatten_nil]

theorem acted_append (asks asks' : List Ask) : acted (asks ++ asks') = acted asks ++ acted asks' :=
  flatMap_append

theorem reach_cases (here : Here el umc acts) :
    ((el.reach umc).1 = none ∧ Done el (acts ++ acted (el.reach umc).2) ∧
        .opened ∉ acts ++ acted (el.reach umc).2 ∧ given (acted (el.reach umc).2) = []) ∨
      ∃ k, (el.reach umc).1 = some k ∧ Opened el k (acts ++ acted (el.reach umc).2) ∧
        given (acted (el.reach umc).2) = [] := by
  rcases here_cases here with ⟨rfl, rfl⟩ | ⟨k, rfl, isOpen⟩
  · rw [Elem.reach]
    cases clones : el.clones with
    | false => exact .inl ⟨rfl, .unreached clones, not_mem_nil, rfl⟩
    | true =>
        cases opens : el.opens with
        | false => exact .inl ⟨rfl, .unopened opens, by decide, rfl⟩
        | true => exact .inr ⟨0, rfl, ⟨Nat.zero_le _, [], rfl, by simp⟩, rfl⟩
  · right
    refine ⟨k, rfl, ?_, rfl⟩
    rw [Elem.reach, acted, flatMap_nil, append_nil]
    exact isOpen

theorem serve_cases (here : Here el umc acts) (n : Nat) :
    (∃ d k, (el.serve umc n).1 = some (d, k) ∧ d ≠ [] ∧ given (acted (el.serve umc n).2) = d ∧
        Opened el k (acts ++ acted (el.serve umc n).2) ∧ el.Roomy umc n) ∨
      ((el.serve umc n).1 = none ∧ given (acted (el.serve umc n).2) = [] ∧
        Done el (acts ++ acted (el.serve umc n).2) ∧
        (Complete el (acts ++ acted (el.serve umc n).2) ↔ el.Roomy umc n)) := by
  rcases reach_cases here with ⟨none_, done, unopened, nothing⟩ | ⟨k, at_, isOpen, nothing⟩
  · right
    have is : el.serve umc n = (none, (el.reach umc).2) := by
      rw [Elem.serve]
      rcases reached : el.reach umc with ⟨at_, asks⟩
      rw [reached] at none_
      cases none_
      rfl
    rw [is]
    refine ⟨rfl, nothing, done, ?_⟩
    constructor
    · intro _ k e at_
      rw [none_] at at_
      cases at_
    · intro _ opened
      exact absurd opened unopened
  · rcases reached : el.reach umc with ⟨at', asks⟩
    rw [reached] at at_ isOpen nothing
    have at_ : at' = some k := at_
    subst at_
    have roomy : el.Roomy umc n ↔
        ∀ e, el.entries[k]? = some e → e.length ≤ n ∨ el.gives k n = none := by
      rw [Elem.Roomy, reached]
      constructor
      · exact fun roomy e => roomy k e rfl
      · rintro roomy _ e ⟨⟩
        exact roomy e
    rcases isOpen.given with ⟨ds, are, flat⟩
    rw [roomy, Elem.serve, reached]
    dsimp only
    cases gives : el.gives k n with
    | none =>
        right
        have read : el.dread n k = none := by
          rw [Elem.dread, gives]
          rfl
        have failed : acted [⟨true, [.failed]⟩, ⟨false, [.closed]⟩] = [.failed, .closed] := rfl
        rw [read]
        dsimp only
        rw [acted_append, failed, ← append_assoc, given_append, nothing, are]
        refine ⟨rfl, rfl, .failed k ds flat, ?_⟩
        exact iff_of_true (fun _ no => absurd (by simp) no) fun _ _ => .inr rfl
    | some m =>
        have read : el.dread n k = some (((el.entries.drop k).take m).flatten, k + m) := by
          rw [Elem.dread, gives]
          rfl
        rw [read]
        dsimp only
        by_cases done : ((el.entries.drop k).take m).flatten = []
        · right
          have ended : acted [⟨true, []⟩, ⟨false, [.closed]⟩] = [.closed] := rfl
          rw [if_pos done]
          dsimp only
          rw [acted_append, ended, ← append_assoc, given_append, nothing, are]
          refine ⟨rfl, rfl, .read k ds isOpen.within flat, ?_⟩
          have all : given (.cloned :: .opened :: ds.map .gave ++ [.closed]) =
              (el.entries.take k).flatten := by
            rw [given_read, flat]
            exact append_nil _
          have ended : Complete el (.cloned :: .opened :: ds.map .gave ++ [.closed]) ↔
              el.entries[k]? = none := by
            rw [Complete, all, el.whole_iff]
            constructor
            · exact fun complete => complete (by simp) (by simp)
            · exact fun past _ _ => past
          rw [ended]
          constructor
          · intro past e there
            rw [past] at there
            cases there
          · intro fits
            cases there : el.entries[k]? with
            | none => rfl
            | some e =>
                rcases fits e there with room | no
                · have zero := (el.taken_nil gives isOpen.within).1 done
                  rw [zero] at gives
                  exact absurd gives (el.goes k n e there room)
                · cases no
        · left
          have gave (d : Bytes) : acted [⟨true, [.gave d]⟩] = [.gave d] := rfl
          rw [if_neg done]
          dsimp only
          rw [acted_append, gave, ← append_assoc, given_append, nothing, are]
          refine ⟨_, _, rfl, done, by simp [given], ⟨el.room k n m gives isOpen.within, ?_⟩, ?_⟩
          · refine ⟨ds ++ [((el.entries.drop k).take m).flatten], by simp, ?_⟩
            rw [flatten_append, flat, take_add, flatten_append,
              flatten_singleton]
          · intro e there
            left
            rcases List.getElem?_eq_some_iff.1 there with ⟨below, rfl⟩
            have some_ : m ≠ 0 := fun zero => done ((el.taken_nil gives isOpen.within).2 zero)
            rcases Nat.exists_eq_succ_of_ne_zero some_ with ⟨m', rfl⟩
            have fits := el.fits k n _ gives
            rw [drop_eq_getElem_cons below, take_succ_cons, flatten_cons,
              length_append] at fits
            omega

/-- The bytes that elements gave, in the elements' order. -/
def told (ms : List Elem) (log : Log) : Bytes :=
  (List.range ms.length).flatMap fun i => given (mine i log)

/-- The elements behind a channel are done with, those ahead not come to. -/
structure At (ms : List Elem) (c : Chan) (log : Log) : Prop where
  within : c.uri ≤ ms.length
  ahead : ∀ i, c.uri < i → mine i log = []
  behind : ∀ i el, i < c.uri → ms[i]? = some el → Done el (mine i log)
  here : ∀ el, ms[c.uri]? = some el → Here el c.umc (mine c.uri log)
  past : ms[c.uri]? = none → c.umc = none ∧ mine c.uri log = []

/-- Those behind it that were read gave all they have. -/
def Wholes (ms : List Elem) (c : Chan) (log : Log) : Prop :=
  ∀ i el, i < c.uri → ms[i]? = some el → Complete el (mine i log)

variable {ms : List Elem} {c : Chan} {log : Log}

theorem mine_append (i : Nat) (log log' : Log) :
    mine i (log ++ log') = mine i log ++ mine i log' := by
  simp only [mine, filter_append, map_append]

theorem mine_acts (c : Chan) (acts : List Act) (i : Nat) :
    mine i (c.acts acts) = if c.uri = i then acts else [] := by
  rw [mine, Chan.acts, filter_map, map_map]
  split_ifs with same
  · rw [filter_eq_self.2 (fun a _ => by simp [same])]
    exact map_id acts
  · rw [filter_eq_nil_iff.2 (fun a _ => by simp [same])]
    rfl

theorem mine_here (c : Chan) (log : Log) (acts : List Act) :
    mine c.uri (log ++ c.acts acts) = mine c.uri log ++ acts := by
  rw [mine_append, mine_acts, if_pos rfl]

theorem mine_other {i : Nat} (other : c.uri ≠ i) (log : Log) (acts : List Act) :
    mine i (log ++ c.acts acts) = mine i log := by
  rw [mine_append, mine_acts, if_neg other, append_nil]

theorem told_acts (at_ : At ms c log) (below : c.uri < ms.length) (acts : List Act) :
    told ms (log ++ c.acts acts) = told ms log ++ given acts := by
  have upto : ∀ log' : Log, (∀ i, c.uri < i → mine i log' = []) → ∀ k,
      (List.range (c.uri + 1 + k)).flatMap (fun i => given (mine i log')) =
        (List.range c.uri).flatMap (fun i => given (mine i log')) ++ given (mine c.uri log') := by
    intro log' ahead k
    induction k with
    | zero => rw [Nat.add_zero, range_succ, flatMap_append, flatMap_singleton]
    | succ k ih =>
        have last : mine (c.uri + 1 + k) log' = [] := by
          apply ahead
          omega
        rw [← Nat.add_assoc, range_succ, flatMap_append, ih, flatMap_singleton, last]
        exact append_nil _
  have whole : ms.length = c.uri + 1 + (ms.length - (c.uri + 1)) := by omega
  have ahead : ∀ i, c.uri < i → mine i (log ++ c.acts acts) = [] := by
    intro i more
    rw [mine_other (Nat.ne_of_lt more)]
    exact at_.ahead i more
  have before : (List.range c.uri).flatMap (fun i => given (mine i (log ++ c.acts acts))) =
      (List.range c.uri).flatMap (fun i => given (mine i log)) := by
    apply flatMap_congr
    intro i mem
    rw [mine_other (Nat.ne_of_gt (mem_range.1 mem))]
  rw [told, told, whole, upto _ ahead, upto _ at_.ahead, before, mine_here, given_append,
    append_assoc]

theorem At.advance (at_ : At ms c log) {el : Elem} {acts : List Act} (found : ms[c.uri]? = some el)
    (done : Done el (mine c.uri log ++ acts)) : At ms c.advance (log ++ c.acts acts) where
  within := (List.getElem?_eq_some_iff.1 found).1
  ahead i more := by
    have more : c.uri + 1 < i := more
    rw [mine_other (by omega)]
    exact at_.ahead i (by omega)
  behind i el' less there := by
    have less : i < c.uri + 1 := less
    by_cases same : c.uri = i
    · subst same
      rw [found, Option.some.injEq] at there
      rw [mine_here, ← there]
      exact done
    · rw [mine_other same]
      exact at_.behind i el' (by omega) there
  here el' _ := by
    change mine (c.uri + 1) _ = []
    rw [mine_other (by omega)]
    exact at_.ahead _ (Nat.lt_succ_self _)
  past _ := by
    refine ⟨rfl, ?_⟩
    change mine (c.uri + 1) _ = []
    rw [mine_other (by omega)]
    exact at_.ahead _ (Nat.lt_succ_self _)

theorem At.stay (at_ : At ms c log) {el : Elem} {acts : List Act} {k : Nat}
    (found : ms[c.uri]? = some el) (isOpen : Opened el k (mine c.uri log ++ acts)) :
    At ms { c with umc := some k } (log ++ c.acts acts) where
  within := at_.within
  ahead i more := by
    have more : c.uri < i := more
    rw [mine_other (Nat.ne_of_lt more)]
    exact at_.ahead i more
  behind i el' less there := by
    have less : i < c.uri := less
    rw [mine_other (Nat.ne_of_gt less)]
    exact at_.behind i el' less there
  here el' there := by
    have there : ms[c.uri]? = some el' := there
    rw [found, Option.some.injEq] at there
    change Opened el' k (mine c.uri (log ++ c.acts acts))
    rw [mine_here, ← there]
    exact isOpen
  past none_ := by
    have none_ : ms[c.uri]? = none := none_
    rw [found] at none_
    cases none_

theorem fits_none (none_ : ms[c.uri]? = none) : Fits ms c n := by
  rw [Fits]
  split
  · trivial
  · next el found =>
      rw [none_] at found
      cases found

theorem fits_some (found : ms[c.uri]? = some el) :
    Fits ms c n ↔ el.Roomy c.umc n ∧ ((el.serve c.umc n).1 = none → Fits ms c.advance n) := by
  rw [Fits]
  split
  · next none_ =>
      rw [none_] at found
      cases found
  · next el' found' =>
      rw [found', Option.some.injEq] at found
      rw [found]

theorem Wholes.advance {el : Elem} {acts : List Act} (found : ms[c.uri]? = some el) :
    Wholes ms c.advance (log ++ c.acts acts) ↔
      Wholes ms c log ∧ Complete el (mine c.uri log ++ acts) := by
  constructor
  · intro wholes
    constructor
    · intro i el' less there
      have complete := wholes i el' (Nat.lt_succ_of_lt less) there
      rw [mine_other (Nat.ne_of_gt less)] at complete
      exact complete
    · have complete := wholes c.uri el (Nat.lt_succ_self _) found
      rw [mine_here] at complete
      exact complete
  · rintro ⟨wholes, complete⟩ i el' less there
    have less : i < c.uri + 1 := less
    by_cases same : c.uri = i
    · subst same
      rw [found, Option.some.injEq] at there
      rw [mine_here, ← there]
      exact complete
    · rw [mine_other same]
      exact wholes i el' (by omega) there

theorem Wholes.stay (k : Nat) (acts : List Act) :
    Wholes ms { c with umc := some k } (log ++ c.acts acts) ↔ Wholes ms c log := by
  have same : ∀ i, i < c.uri → mine i (log ++ c.acts acts) = mine i log :=
    fun i less => mine_other (Nat.ne_of_gt less) log acts
  constructor
  · intro wholes i el less there
    rw [← same i less]
    exact wholes i el less there
  · intro wholes i el less there
    have less : i < c.uri := less
    rw [same i less]
    exact wholes i el less there

/-- A read: where it leaves the channel, what it tells of the elements, when those it is done with
gave all, and when it gives nothing. -/
theorem unionread_spec (at_ : At ms c log) (n : Nat) :
    At ms (Awake.unionread ms c n).2.1 (log ++ (Awake.unionread ms c n).2.2) ∧
      told ms (log ++ (Awake.unionread ms c n).2.2) = told ms log ++ (Awake.unionread ms c n).1 ∧
      (Wholes ms (Awake.unionread ms c n).2.1 (log ++ (Awake.unionread ms c n).2.2) ↔
        Wholes ms c log ∧ Fits ms c n) ∧
      ((Awake.unionread ms c n).1 = [] → (Awake.unionread ms c n).2.1.uri = ms.length) := by
  fun_induction Awake.unionread ms c n generalizing log with
  | case1 c none_ =>
      rw [append_nil, append_nil]
      refine ⟨at_, rfl, ?_, fun _ => ?_⟩
      · exact ⟨fun wholes => ⟨wholes, fits_none none_⟩, fun both => both.1⟩
      · exact Nat.le_antisymm at_.within (List.getElem?_eq_none_iff.1 none_)
  | case2 c el found d k acts is =>
      have below := (List.getElem?_eq_some_iff.1 found).1
      rw [fits_some found, is]
      rcases serve_cases (at_.here el found) n with
        ⟨d', k', gives, some_, gave, isOpen, roomy⟩ | none_
      · rw [is] at gives gave isOpen
        cases gives
        rw [told_acts at_ below, gave, Wholes.stay]
        refine ⟨at_.stay found isOpen, rfl, ?_, fun no => absurd no some_⟩
        exact ⟨fun wholes => ⟨wholes, roomy, nofun⟩, fun both => both.1⟩
      · rw [is] at none_
        cases none_.1
  | case3 c el found acts is r =>
      rename_i ih
      have below := (List.getElem?_eq_some_iff.1 found).1
      rcases serve_cases (at_.here el found) n with ⟨d', k', gives, _⟩ | ⟨_, nothing, done, whole⟩
      · rw [is] at gives
        cases gives
      · rw [is] at nothing done whole
        rcases ih (at_.advance found done) with ⟨later, tells, wholes, ended⟩
        rw [fits_some found, is]
        dsimp only
        rw [← append_assoc]
        refine ⟨later, ?_, ?_, ended⟩
        · rw [tells, told_acts at_ below, nothing, append_nil]
        · rw [wholes, Wholes.advance found, whole, and_assoc]
          simp

/-- What is kept between reads: with nothing read yet the channel is where it was opened. -/
structure Begun (ms : List Elem) (c : Chan) (log : Log) : Prop extends At ms c log where
  start : c.offset = 0 → c.uri = 0 ∧ c.umc = none

theorem pread_eq (start : c.offset = 0 → c.uri = 0 ∧ c.umc = none) (n : Nat) :
    Awake.pread ms c n = ((Awake.unionread ms c n).1,
      { (Awake.unionread ms c n).2.1 with
        offset := (Awake.unionread ms c n).2.1.offset + (Awake.unionread ms c n).1.length },
      (Awake.unionread ms c n).2.2) := by
  rw [Awake.pread, Chan.rewound]
  by_cases zero : c.offset = 0
  · rcases start zero with ⟨first, none_⟩
    have same : ({ c with uri := 0, umc := none } : Chan) = c := by
      rcases c with ⟨offset, uri, umc⟩
      cases first
      cases none_
      rfl
    have nothing : c.close = [] := by
      rw [Chan.close, none_]
    rw [if_pos zero, if_pos zero, same, nothing]
    rfl
  · rw [if_neg zero, if_neg zero]
    rfl

theorem preads_spec (ns : List Nat) (c : Chan) (log : Log) (begun : Begun ms c log) :
    At ms (Awake.preads ms c ns).2.1 (log ++ (Awake.preads ms c ns).2.2) ∧
      told ms (log ++ (Awake.preads ms c ns).2.2) =
          told ms log ++ (Awake.preads ms c ns).1.flatten ∧
      (Wholes ms (Awake.preads ms c ns).2.1 (log ++ (Awake.preads ms c ns).2.2) ↔
        Wholes ms c log ∧ Roomy ms c ns) ∧
      ([] ∈ (Awake.preads ms c ns).1 → (Awake.preads ms c ns).2.1.uri = ms.length) := by
  induction ns generalizing c log with
  | nil =>
      rw [Awake.preads]
      dsimp only
      rw [append_nil, flatten_nil, append_nil, Roomy, and_true]
      exact ⟨begun.toAt, rfl, Iff.rfl, nofun⟩
  | cons n ns ih =>
      rcases unionread_spec begun.toAt n with ⟨at_, tells, wholes, ended⟩
      have moved : At ms (Awake.pread ms c n).2.1 (log ++ (Awake.unionread ms c n).2.2) := by
        rw [pread_eq begun.start]
        exact { at_ with }
      have wholes' : Wholes ms (Awake.pread ms c n).2.1 (log ++ (Awake.unionread ms c n).2.2) ↔
          Wholes ms c log ∧ Fits ms c n := by
        rw [← wholes, pread_eq begun.start]
        exact Iff.rfl
      have answer : (Awake.pread ms c n).1 = (Awake.unionread ms c n).1 := by
        rw [pread_eq begun.start]
      have acts : (Awake.pread ms c n).2.2 = (Awake.unionread ms c n).2.2 := by
        rw [pread_eq begun.start]
      rw [Awake.preads, Roomy]
      dsimp only
      rw [answer, acts]
      split_ifs with empty
      · rw [empty] at tells
        refine ⟨moved, ?_, ?_, fun _ => ?_⟩
        · rw [tells]
          rfl
        · rw [wholes']
          exact ⟨fun both => ⟨both.1, both.2, fun some_ => absurd empty some_⟩,
            fun both => ⟨both.1, both.2.1⟩⟩
        · rw [pread_eq begun.start]
          exact ended empty
      · have begun' : Begun ms (Awake.pread ms c n).2.1 (log ++ (Awake.unionread ms c n).2.2) := by
          refine ⟨moved, fun zero => ?_⟩
          rw [pread_eq begun.start] at zero
          have long := length_pos_iff.2 empty
          dsimp only at zero
          omega
        rcases ih _ _ begun' with ⟨later, told_, whole_, ends⟩
        dsimp only
        rw [← append_assoc]
        refine ⟨later, ?_, ?_, ?_⟩
        · rw [told_, tells, append_assoc]
          rfl
        · rw [whole_, wholes', and_assoc]
          simp [empty]
        · intro mem
          rcases mem_cons.1 mem with now | mem
          · exact absurd now.symm empty
          · exact ends mem

theorem begun_opened (ms : List Elem) : Begun ms .opened [] where
  within := Nat.zero_le _
  ahead _ _ := rfl
  behind _ _ less _ := absurd less (Nat.not_lt_zero _)
  here _ _ := rfl
  past _ := ⟨rfl, rfl⟩
  start _ := ⟨rfl, rfl⟩

theorem told_nil (ms : List Elem) : told ms [] = [] := by
  rw [told, flatMap_eq_nil_iff]
  exact fun _ _ => rfl

/-- An element was opened once, cloned once and closed once, or as often as it was cloned. -/
def Once (acts : List Act) : Prop :=
  acts.count .opened ≤ 1 ∧ acts.count .cloned ≤ 1 ∧ acts.count .closed = acts.count .cloned

theorem once_read (ds : List Bytes) (rest : List Act) (ended : rest = [] ∨ rest = [.failed]) :
    Once (.cloned :: .opened :: ds.map .gave ++ (rest ++ [.closed])) := by
  have none_ : ∀ a : Act, (∀ d, a ≠ .gave d) → (ds.map Act.gave).count a = 0 := by
    intro a other
    rw [count_eq_zero]
    intro mem
    rcases mem_map.1 mem with ⟨d, _, is⟩
    exact other d is.symm
  have opened := none_ .opened nofun
  have cloned := none_ .cloned nofun
  have closed := none_ .closed nofun
  rcases ended with rfl | rfl
  · simp [Once, count_append, opened, cloned, closed]
  · simp [Once, count_append, opened, cloned, closed]

theorem Done.once (done : Done el acts) : Once acts := by
  cases done with
  | unreached => exact ⟨Nat.zero_le _, Nat.zero_le _, rfl⟩
  | unopened => exact ⟨by decide, by decide, by decide⟩
  | read k ds _ _ => exact once_read ds [] (.inl rfl)
  | failed k ds _ => exact once_read ds [.failed] (.inr rfl)

theorem Done.part (done : Done el acts) : ∃ k, given acts = (el.entries.take k).flatten := by
  cases done with
  | unreached => exact ⟨0, rfl⟩
  | unopened => exact ⟨0, rfl⟩
  | read k ds _ flat | failed k ds flat =>
      refine ⟨k, ?_⟩
      rw [given_read, flat]
      exact append_nil _

theorem Done.closed (done : Done el acts) (opened : .opened ∈ acts) : .closed ∈ acts := by
  cases done with
  | unreached => cases opened
  | unopened => simp
  | read k ds _ _ => simp
  | failed k ds _ => simp

theorem Done.opened (done : Done el acts) (clones : el.clones = true) (opens : el.opens = true) :
    .opened ∈ acts := by
  cases done with
  | unreached no => cases clones.symm.trans no
  | unopened no => cases opens.symm.trans no
  | read k ds _ _ => simp
  | failed k ds _ => simp

theorem At.behind_of_closed (at_ : At ms c log) {i : Nat} (found : ms[i]? = some el)
    (closed : .closed ∈ mine i log) : i < c.uri := by
  by_contra more
  rcases Nat.eq_or_lt_of_le (Nat.not_lt.1 more) with rfl | ahead
  · rcases here_cases (at_.here el found) with ⟨_, none_⟩ | ⟨k, _, isOpen⟩
    · rw [none_] at closed
      cases closed
    · rcases isOpen.given with ⟨ds, are, _⟩
      rw [are] at closed
      simp at closed
  · rw [at_.ahead i ahead] at closed
    cases closed

theorem At.once (at_ : At ms c log) (i : Nat) : Once (mine i (log ++ c.close)) := by
  have nothing : Once [] := ⟨Nat.zero_le _, Nat.zero_le _, rfl⟩
  rcases Nat.lt_trichotomy i c.uri with less | rfl | more
  · have same : mine i (log ++ c.close) = mine i log := by
      rw [Chan.close]
      split
      · exact mine_other (Nat.ne_of_gt less) log _
      · rw [append_nil]
    have below : i < ms.length := Nat.lt_of_lt_of_le less at_.within
    rw [same]
    exact (at_.behind i _ less (List.getElem?_eq_getElem below)).once
  · have closed (umc : c.umc = none) (none_ : mine c.uri log = []) :
        Once (mine c.uri (log ++ c.close)) := by
      rw [Chan.close, umc]
      dsimp only
      rw [append_nil, none_]
      exact nothing
    cases found : ms[c.uri]? with
    | none => exact closed (at_.past found).1 (at_.past found).2
    | some el =>
        rcases here_cases (at_.here el found) with ⟨umc, none_⟩ | ⟨k, umc, isOpen⟩
        · exact closed umc none_
        · rcases isOpen.given with ⟨ds, are, _⟩
          rw [Chan.close, umc]
          dsimp only
          rw [mine_here, are]
          exact once_read ds [] (.inl rfl)
  · have same : mine i (log ++ c.close) = [] := by
      rw [mine_append, at_.ahead i more, Chan.close]
      split
      · rw [mine_acts, if_neg (Nat.ne_of_lt more)]
        rfl
      · rfl
    rw [same]
    exact nothing

theorem At.part (at_ : At ms c log) {i : Nat} (found : ms[i]? = some el) :
    ∃ k, given (mine i log) = (el.entries.take k).flatten := by
  rcases Nat.lt_trichotomy i c.uri with less | rfl | more
  · exact (at_.behind i el less found).part
  · rcases here_cases (at_.here el found) with ⟨_, none_⟩ | ⟨k, _, isOpen⟩
    · rw [none_]
      exact ⟨0, rfl⟩
    · exact ⟨k, isOpen.given_eq⟩
  · rw [at_.ahead i more]
    exact ⟨0, rfl⟩

/-- Reads that are not left asleep are exact just when each has room for the next entry of every
element it comes to. -/
theorem awake_exact (ms : List Elem) (ns : List Nat) :
    Exact ms (Awake.preads ms .opened ns).1 (Awake.preads ms .opened ns).2.1
        (Awake.preads ms .opened ns).2.2 ↔
      Roomy ms .opened ns := by
  rcases preads_spec ns .opened [] (begun_opened ms) with ⟨at_, tells, wholes, ends⟩
  rw [nil_append] at at_ tells wholes
  rw [told_nil, nil_append] at tells
  have start : Wholes ms .opened [] := fun i _ less _ => absurd less (Nat.not_lt_zero i)
  rw [iff_true_intro start, true_and] at wholes
  rw [← wholes]
  constructor
  · intro exact_ i el less there opened whole
    exact exact_.whole i el there ((at_.behind i el less there).closed opened) opened whole
  · intro wholes
    refine ⟨tells.symm, fun i el there => at_.part there, ?_, ?_, at_.once⟩
    · intro i el there closed opened whole
      exact wholes i el (at_.behind_of_closed there closed) there opened whole
    · intro empty i el there clones opens
      have less : i < (Awake.preads ms .opened ns).2.1.uri := by
        rw [ends empty]
        exact (List.getElem?_eq_some_iff.1 there).1
      have done := at_.behind i el less there
      exact ⟨done.opened clones opens, done.closed (done.opened clones opens)⟩

end Ipnx.Unionread
