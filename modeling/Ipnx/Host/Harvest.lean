import Ipnx.Lib.Codec
import Ipnx.Lib.Fair
import Ipnx.Lib.Ring
import Ipnx.Lib.System

/-!
# The ring of the page's replies

`answer` of `saranos.mjs`, which runs in the page, `harvest` of `kernel.mjs` and `Wsys::harvest` of
the web host's `lib.rs`, which run in the kernel's worker, and the shared memory between them: two
counters of 32 bits and a ring of bytes. Each load and store of what is shared is a step, and the
two sides take them in any order.
-/

namespace Ipnx.Host.Harvest

open List

def nring : Nat := 2 ^ 20

/-- An R-message: its first four bytes say how long it is. -/
structure Reply where
  bytes : Bytes
  sized : ofLe (bytes.take 4) = bytes.length
  least : 4 ≤ bytes.length
  fits : bytes.length ≤ nring

/-- Where `answer` is: not running, at the top of its loop, or with so many bytes of a reply copied
to the place the counter was at. -/
inductive Page
  | idle
  | head
  | copy (m : Reply) (w : BitVec 32) (i : Nat)

/-- Where the kernel's `harvest` is, with room for so many bytes: not running, about to load the
counters, reading a reply's size, or its bytes. -/
inductive Kernel
  | idle
  | load (cap : Nat)
  | size (cap : Nat) (r : BitVec 32) (got : Bytes)
  | copy (cap : Nat) (r : BitVec 32) (size : Int) (out : Bytes)

structure State where
  /-- How many bytes were put in the ring, `N[0]`. -/
  put : BitVec 32
  /-- How many were taken from it, `N[1]`. -/
  taken : BitVec 32
  nb : Nat → UInt8
  waiting : List Reply
  /-- The calls of `answer` that a timer is to make. -/
  timers : Nat
  page : Page
  kernel : Kernel
  /-- What `answer` was given, and what `harvest` has given. -/
  answered : List Reply
  harvested : List Bytes

inductive Act
  | answer (r : Reply)
  | timer
  | page
  | harvest (cap : Nat)
  | kernel

def index (w : BitVec 32) (i : Nat) : Nat :=
  ((w + BitVec.ofNat 32 i) &&& BitVec.ofNat 32 (nring - 1)).toNat

def signed (got : Bytes) : Int := (BitVec.ofNat 32 (ofLe got)).toInt

namespace State

variable (s : State)

def pageStep : Option State :=
  match s.page with
  | .idle => none
  | .head =>
      match s.waiting with
      | [] => some { s with page := .idle }
      | m :: _ =>
          if (nring : Int) - (s.put - s.taken).toInt < m.bytes.length then
            some { s with timers := s.timers + 1, page := .idle }
          else some { s with page := .copy m s.put 0 }
  | .copy m w i =>
      match m.bytes[i]? with
      | some b =>
          some { s with
            nb := Function.update s.nb (index w i) b
            page := .copy m w (i + 1) }
      | none =>
          some { s with
            put := w + BitVec.ofNat 32 m.bytes.length
            waiting := s.waiting.tail
            page := .head }

/-- The next step of a call of `harvest`. A reply that the buffer is too small for is left where it
is, and asked for again with a buffer of its size. -/
def kernelStep : Option State :=
  match s.kernel with
  | .idle => none
  | .load cap =>
      if s.put = s.taken then some { s with kernel := .idle }
      else some { s with kernel := .size cap s.taken [] }
  | .size cap r got =>
      if got.length < 4 then
        some { s with kernel := .size cap r (got ++ [s.nb (index r got.length)]) }
      else if (cap : Int) < signed got then some { s with kernel := .load (signed got).toNat }
      else some { s with kernel := .copy cap r (signed got) [] }
  | .copy cap r size out =>
      if (out.length : Int) < size then
        some { s with kernel := .copy cap r size (out ++ [s.nb (index r out.length)]) }
      else
        let s := { s with taken := r + BitVec.ofInt 32 size }
        if size = 0 then some { s with kernel := .idle }
        else if size < 0 then some { s with kernel := .load (-size).toNat }
        else some { s with harvested := s.harvested ++ [out], kernel := .load cap }

def act : Act → Option State
  | .answer r =>
      match s.page with
      | .idle => some { s with
          waiting := s.waiting ++ [r], answered := s.answered ++ [r], page := .head }
      | _ => none
  | .timer =>
      match s.page with
      | .idle =>
          if s.timers = 0 then none else some { s with timers := s.timers - 1, page := .head }
      | _ => none
  | .page => s.pageStep
  | .harvest cap =>
      match s.kernel with
      | .idle => some { s with kernel := .load cap }
      | _ => none
  | .kernel => s.kernelStep

/-- How many bytes were put in the ring and not taken from it. -/
def unread : Nat := (s.put - s.taken).toNat

end State

/-- At first the ring is empty, whatever its counters and its bytes are. -/
structure First (s : State) : Prop where
  empty : s.put = s.taken
  waiting : s.waiting = []
  timers : s.timers = 0
  page : s.page = .idle
  kernel : s.kernel = .idle
  answered : s.answered = []
  harvested : s.harvested = []

def system : System State Act where
  init := First
  step s a s' := s.act a = some s'

theorem index_eq (w : BitVec 32) (i : Nat) : index w i = (w.toNat + i) % nring := by
  have mask : (BitVec.ofNat 32 (nring - 1)).toNat = 2 ^ 20 - 1 := by decide
  rw [index, BitVec.toNat_and, mask, Nat.and_two_pow_sub_one_eq_mod, BitVec.toNat_add,
    BitVec.toNat_ofNat, nring]
  omega

theorem toNat_add_ofNat (w : BitVec 32) (k : Nat) :
    (w + BitVec.ofNat 32 k).toNat ≡ w.toNat + k [MOD nring] := by
  rw [Nat.ModEq, BitVec.toNat_add, BitVec.toNat_ofNat, nring]
  omega

theorem index_add (w : BitVec 32) (k i : Nat) :
    index (w + BitVec.ofNat 32 k) i = (w.toNat + (k + i)) % nring := by
  rw [index_eq, ← Nat.add_assoc]
  exact (toNat_add_ofNat w k).add_right i

theorem toInt_sub {w : BitVec 32} {k : Nat} (small : k ≤ nring) :
    (w + BitVec.ofNat 32 k - w).toInt = k := by
  have same : w + BitVec.ofNat 32 k - w = BitVec.ofNat 32 k := by
    rw [BitVec.add_comm, BitVec.add_sub_cancel]
  rw [nring] at small
  rw [same, BitVec.toInt_eq_toNat_of_lt] <;> rw [BitVec.toNat_ofNat] <;> omega

theorem toNat_sub {w : BitVec 32} {k : Nat} (small : k ≤ nring) :
    (w + BitVec.ofNat 32 k - w).toNat = k := by
  have same : w + BitVec.ofNat 32 k - w = BitVec.ofNat 32 k := by
    rw [BitVec.add_comm, BitVec.add_sub_cancel]
  rw [nring] at small
  rw [same, BitVec.toNat_ofNat]
  omega

def flat (ms : List Reply) : Bytes := ms.flatMap Reply.bytes

@[simp]
theorem flat_nil : flat [] = [] := rfl

@[simp]
theorem flat_cons (m : Reply) (ms : List Reply) : flat (m :: ms) = m.bytes ++ flat ms := rfl

@[simp]
theorem flat_append (ms ms' : List Reply) : flat (ms ++ ms') = flat ms ++ flat ms' :=
  flatMap_append

/-- What the page's copying has in the ring, of a reply that there is room for. -/
def Copied (s : State) (held : List Reply) : Page → Prop
  | .idle => s.waiting ≠ [] → 0 < s.timers
  | .head => True
  | .copy m w i =>
      s.waiting.head? = some m ∧ w = s.put ∧ i ≤ m.bytes.length ∧
        (flat held).length + m.bytes.length ≤ nring ∧
        Ring.Holds nring s.nb s.taken.toNat (flat held ++ m.bytes.take i)

/-- What the kernel has read is how the first of the replies in the ring begins. -/
def Read (taken : BitVec 32) (held : List Reply) : Kernel → Prop
  | .idle => True
  | .load _ => True
  | .size _ r got =>
      r = taken ∧ ∃ m rest, held = m :: rest ∧ got.length ≤ 4 ∧ got = m.bytes.take got.length
  | .copy _ r size out =>
      r = taken ∧ ∃ m rest, held = m :: rest ∧ size = m.bytes.length ∧
        out.length ≤ m.bytes.length ∧ out = m.bytes.take out.length

/-- Of the replies that `answer` was given some are harvested, the next are in the ring, and the
rest wait. -/
structure Inv (s : State) (gone held : List Reply) : Prop where
  answered : s.answered = gone ++ (held ++ s.waiting)
  harvested : s.harvested = gone.map Reply.bytes
  put : s.put = s.taken + BitVec.ofNat 32 (flat held).length
  room : (flat held).length ≤ nring
  holds : Ring.Holds nring s.nb s.taken.toNat (flat held)
  page : Copied s held s.page
  kernel : Read s.taken held s.kernel

theorem First.inv {s : State} (first : First s) : Inv s [] [] where
  answered := by rw [first.answered, first.waiting]; rfl
  harvested := first.harvested
  put := by rw [first.empty]; simp
  room := Nat.zero_le _
  holds := Ring.holds_nil
  page := by rw [first.page]; exact fun some => absurd first.waiting some
  kernel := by rw [first.kernel]; trivial

variable {s s' : State} {gone held : List Reply}

/-- What a step of `answer` does. -/
inductive Paged (s : State) : State → Prop
  | wake (at_ : s.page = .head) (none : s.waiting = []) : Paged s { s with page := .idle }
  | full {m : Reply} {rest : List Reply} (at_ : s.page = .head) (waits : s.waiting = m :: rest)
      (full : (nring : Int) - (s.put - s.taken).toInt < m.bytes.length) :
      Paged s { s with timers := s.timers + 1, page := .idle }
  | fits {m : Reply} {rest : List Reply} (at_ : s.page = .head) (waits : s.waiting = m :: rest)
      (fits : ¬(nring : Int) - (s.put - s.taken).toInt < m.bytes.length) :
      Paged s { s with page := .copy m s.put 0 }
  | byte {m : Reply} {w : BitVec 32} {i : Nat} {b : UInt8} (at_ : s.page = .copy m w i)
      (byte : m.bytes[i]? = some b) :
      Paged s { s with nb := Function.update s.nb (index w i) b, page := .copy m w (i + 1) }
  | publish {m : Reply} {w : BitVec 32} {i : Nat} (at_ : s.page = .copy m w i)
      (whole : m.bytes[i]? = none) :
      Paged s { s with
        put := w + BitVec.ofNat 32 m.bytes.length
        waiting := s.waiting.tail
        page := .head }

theorem State.paged (step : s.pageStep = some s') : Paged s s' := by
  rcases at_ : s.page with _ | _ | ⟨m, w, i⟩
  · simp only [pageStep, at_] at step
    cases step
  · rcases waits : s.waiting with _ | ⟨m, rest⟩
    · simp only [pageStep, at_, waits, Option.some.injEq] at step
      rw [← step, ← waits]
      exact .wake at_ waits
    · simp only [pageStep, at_, waits] at step
      split_ifs at step with less <;> rw [← Option.some.inj step, ← waits]
      · exact .full at_ waits less
      · exact .fits at_ waits less
  · rcases byte : m.bytes[i]? with _ | b
    · simp only [pageStep, at_, byte, Option.some.injEq] at step
      rw [← step]
      exact .publish at_ byte
    · simp only [pageStep, at_, byte, Option.some.injEq] at step
      rw [← step]
      exact .byte at_ byte

/-- What a step of `harvest` does. -/
inductive Kerneled (s : State) : State → Prop
  | none {cap : Nat} (at_ : s.kernel = .load cap) (empty : s.put = s.taken) :
      Kerneled s { s with kernel := .idle }
  | load {cap : Nat} (at_ : s.kernel = .load cap) (some : s.put ≠ s.taken) :
      Kerneled s { s with kernel := .size cap s.taken [] }
  | size {cap : Nat} {r : BitVec 32} {got : Bytes} (at_ : s.kernel = .size cap r got)
      (less : got.length < 4) :
      Kerneled s { s with kernel := .size cap r (got ++ [s.nb (index r got.length)]) }
  | short {cap : Nat} {r : BitVec 32} {got : Bytes} (at_ : s.kernel = .size cap r got)
      (all : ¬got.length < 4) (short : (cap : Int) < signed got) :
      Kerneled s { s with kernel := .load (signed got).toNat }
  | begin {cap : Nat} {r : BitVec 32} {got : Bytes} (at_ : s.kernel = .size cap r got)
      (all : ¬got.length < 4) (room : ¬(cap : Int) < signed got) :
      Kerneled s { s with kernel := .copy cap r (signed got) [] }
  | byte {cap : Nat} {r : BitVec 32} {size : Int} {out : Bytes}
      (at_ : s.kernel = .copy cap r size out) (less : (out.length : Int) < size) :
      Kerneled s { s with kernel := .copy cap r size (out ++ [s.nb (index r out.length)]) }
  | take {cap : Nat} {r : BitVec 32} {size : Int} {out : Bytes} {kernel : Kernel}
      {harvested : List Bytes} (at_ : s.kernel = .copy cap r size out)
      (whole : ¬(out.length : Int) < size)
      (given : 0 < size → harvested = s.harvested ++ [out] ∧ kernel = .load cap) :
      Kerneled s { s with
        taken := r + BitVec.ofInt 32 size
        harvested := harvested
        kernel := kernel }

theorem State.kerneled (step : s.kernelStep = some s') : Kerneled s s' := by
  rcases at_ : s.kernel with _ | cap | ⟨cap, r, got⟩ | ⟨cap, r, size, out⟩ <;>
    simp only [kernelStep, at_] at step
  · cases step
  · split_ifs at step with empty <;> rw [← Option.some.inj step]
    · exact .none at_ empty
    · exact .load at_ empty
  · split_ifs at step with less short <;> rw [← Option.some.inj step]
    · exact .size at_ less
    · exact .short at_ less short
    · exact .begin at_ less short
  · split_ifs at step with less zero negative <;> rw [← Option.some.inj step]
    · exact .byte at_ less
    · exact .take at_ less fun positive => by omega
    · exact .take at_ less fun positive => by omega
    · exact .take at_ less fun _ => ⟨rfl, rfl⟩

/-- What an act does. -/
inductive Acted (s : State) : Act → State → Prop
  | answer (r : Reply) (idle : s.page = .idle) :
      Acted s (.answer r) { s with
        waiting := s.waiting ++ [r], answered := s.answered ++ [r], page := .head }
  | timer (idle : s.page = .idle) : Acted s .timer { s with timers := s.timers - 1, page := .head }
  | page {s' : State} (paged : Paged s s') : Acted s .page s'
  | harvest (cap : Nat) : Acted s (.harvest cap) { s with kernel := .load cap }
  | kernel {s' : State} (kerneled : Kerneled s s') : Acted s .kernel s'

theorem State.acted {a : Act} (step : s.act a = some s') : Acted s a s' := by
  cases a with
  | answer r =>
      rcases at_ : s.page with _ | _ | _ <;> simp only [act, at_] at step
      · exact Option.some.inj step ▸ .answer r at_
      · cases step
      · cases step
  | timer =>
      rcases at_ : s.page with _ | _ | _ <;> simp only [act, at_] at step
      · split_ifs at step
        exact Option.some.inj step ▸ .timer at_
      · cases step
      · cases step
  | page => exact .page (paged step)
  | harvest cap =>
      rcases at_ : s.kernel with _ | _ | _ | _ <;> simp only [act, at_] at step
      · exact Option.some.inj step ▸ .harvest cap
      · cases step
      · cases step
      · cases step
  | kernel => exact .kernel (kerneled step)

theorem Read.more {taken : BitVec 32} {k : Kernel} (read : Read taken held k) (m : Reply) :
    Read taken (held ++ [m]) k := by
  rcases k with _ | _ | _ | _
  · trivial
  · trivial
  · rcases read with ⟨place, m', rest, rfl, begins⟩
    exact ⟨place, m', rest ++ [m], rfl, begins⟩
  · rcases read with ⟨place, m', rest, rfl, begins⟩
    exact ⟨place, m', rest ++ [m], rfl, begins⟩

namespace Inv

theorem read_byte {m : Reply} {rest : List Reply} (inv : Inv s gone (m :: rest)) {got : Bytes}
    (begins : got = m.bytes.take got.length) (less : got.length < m.bytes.length) :
    got ++ [s.nb (index s.taken got.length)] =
      m.bytes.take (got ++ [s.nb (index s.taken got.length)]).length := by
  have there : (flat (m :: rest))[got.length]? = some (m.bytes[got.length]) := by
    rw [flat_cons, List.getElem?_append_left less, List.getElem?_eq_getElem less]
  have byte : s.nb (index s.taken got.length) = m.bytes[got.length] := by
    rw [index_eq]
    exact inv.holds _ _ there
  rw [byte, length_append, length_singleton, take_add_one,
    List.getElem?_eq_getElem less, ← begins]
  rfl

theorem paged (inv : Inv s gone held) (step : Paged s s') : ∃ held', Inv s' gone held' := by
  rcases inv with ⟨answered, harvested, put, room, holds, page, kernel⟩
  cases step with
  | wake at_ none =>
      exact ⟨held, answered, harvested, put, room, holds, fun some => absurd none some, kernel⟩
  | full at_ waits full =>
      exact ⟨held, answered, harvested, put, room, holds, fun _ => Nat.succ_pos _, kernel⟩
  | @fits m rest at_ waits fits =>
      rw [put, toInt_sub room] at fits
      have begun : Ring.Holds nring s.nb s.taken.toNat (flat held ++ m.bytes.take 0) := by
        rw [take_zero, append_nil]
        exact holds
      have first : s.waiting.head? = some m := by rw [waits, List.head?_cons]
      exact ⟨held, answered, harvested, put, room, holds,
        ⟨first, rfl, Nat.zero_le _, by omega, begun⟩, kernel⟩
  | @byte m w i b at_ byte =>
      rw [at_] at page
      rcases page with ⟨first, rfl, most, fits, copied⟩
      rcases List.getElem?_eq_some_iff.1 byte with ⟨less, rfl⟩
      have length : (flat held ++ m.bytes.take i).length = (flat held).length + i := by
        rw [length_append, length_take, min_eq_left most]
      have next := copied.put (x := m.bytes[i]) (by omega)
      rw [length, ← index_add, ← put, append_assoc, take_append_getElem] at next
      exact ⟨held, answered, harvested, put, room, (Ring.holds_append.1 next).1,
        ⟨first, rfl, less, fits, next⟩, kernel⟩
  | @publish m w i at_ whole =>
      rw [at_] at page
      rcases page with ⟨first, rfl, most, fits, copied⟩
      have all : m.bytes.take i = m.bytes :=
        take_of_length_le (List.getElem?_eq_none_iff.1 whole)
      rw [all] at copied
      rcases waits : s.waiting with _ | ⟨m', rest⟩ <;> rw [waits] at first <;> cases first
      refine ⟨held ++ [m], ?_, harvested, ?_, ?_, ?_, trivial, ?_⟩
      · simp only [answered, waits, tail_cons, append_assoc, singleton_append]
      · change s.put + BitVec.ofNat 32 m.bytes.length = _
        rw [put, BitVec.add_assoc, ← BitVec.ofNat_add, flat_append, length_append, flat_cons,
          flat_nil, append_nil]
      · rw [flat_append, length_append, flat_cons, flat_nil, append_nil]
        exact fits
      · rw [flat_append, flat_cons, flat_nil, append_nil]
        exact copied
      · exact kernel.more m

theorem kerneled (inv : Inv s gone held) (step : Kerneled s s') :
    ∃ gone' held', Inv s' gone' held' := by
  have copy := inv
  rcases copy with ⟨answered, harvested, put, room, holds, page, kernel⟩
  cases step with
  | none at_ empty =>
      exact ⟨gone, held, answered, harvested, put, room, holds, page, trivial⟩
  | load at_ some =>
      rcases held with _ | ⟨m, rest⟩
      · rw [flat_nil, length_nil, BitVec.add_zero] at put
        exact absurd put some
      · exact ⟨gone, m :: rest, answered, harvested, put, room, holds, page,
          rfl, m, rest, rfl, Nat.zero_le _, rfl⟩
  | @size cap r got at_ less =>
      rw [at_] at kernel
      rcases kernel with ⟨rfl, m, rest, rfl, most, begins⟩
      have next := inv.read_byte begins (by have := m.least; omega)
      refine ⟨gone, m :: rest, answered, harvested, put, room, holds, page, rfl, m, rest, rfl, ?_,
        next⟩
      rw [length_append, length_singleton]
      omega
  | short at_ all short =>
      exact ⟨gone, held, answered, harvested, put, room, holds, page, trivial⟩
  | @begin cap r got at_ all enough =>
      rw [at_] at kernel
      rcases kernel with ⟨rfl, m, rest, rfl, most, begins⟩
      have four : got.length = 4 := by omega
      have size : signed got = m.bytes.length := by
        have fits := m.fits
        rw [nring] at fits
        rw [four] at begins
        rw [signed, begins, m.sized, BitVec.toInt_eq_toNat_of_lt] <;> rw [BitVec.toNat_ofNat] <;>
          omega
      exact ⟨gone, m :: rest, answered, harvested, put, room, holds, page,
        rfl, m, rest, rfl, size, Nat.zero_le _, rfl⟩
  | @byte cap r size out at_ less =>
      rw [at_] at kernel
      rcases kernel with ⟨rfl, m, rest, rfl, rfl, most, begins⟩
      have next := inv.read_byte begins (by omega)
      refine ⟨gone, m :: rest, answered, harvested, put, room, holds, page,
        rfl, m, rest, rfl, rfl, ?_, next⟩
      rw [length_append, length_singleton]
      omega
  | @take cap r size out k hs at_ whole given =>
      rw [at_] at kernel
      rcases kernel with ⟨rfl, m, rest, rfl, rfl, most, begins⟩
      have least := m.least
      rcases given (by omega) with ⟨rfl, rfl⟩
      have all : out = m.bytes := by
        rw [begins, take_of_length_le (by omega)]
      have moved := toNat_add_ofNat s.taken m.bytes.length
      have same : BitVec.ofInt 32 (m.bytes.length : Int) = BitVec.ofNat 32 m.bytes.length :=
        BitVec.ofInt_natCast ..
      rw [flat_cons] at put room holds
      refine ⟨gone ++ [m], rest, ?_, ?_, ?_, ?_, ?_, ?_, trivial⟩
      · rw [answered]
        simp
      · simp only [harvested, map_append, map_cons, map_nil, all]
      · simp only [same]
        rw [put, BitVec.add_assoc, ← BitVec.ofNat_add, length_append]
      · rw [length_append] at room
        omega
      · simp only [same]
        exact (Ring.holds_append.1 holds).2.congr moved
      · simp only [same]
        rcases copying : s.page with _ | _ | ⟨m', w, i⟩ <;> rw [copying] at page
        · exact page
        · trivial
        · rcases page with ⟨first, place, most', fits, copied⟩
          rw [flat_cons, append_assoc] at copied
          rw [flat_cons, length_append] at fits
          exact ⟨first, place, most', by omega, (Ring.holds_append.1 copied).2.congr moved⟩

theorem act (inv : Inv s gone held) {a : Act} (step : s.act a = some s') :
    ∃ gone' held', Inv s' gone' held' := by
  have copy := inv
  rcases copy with ⟨answered, harvested, put, room, holds, page, kernel⟩
  cases State.acted step with
  | answer r idle =>
      refine ⟨gone, held, ?_, harvested, put, room, holds, trivial, kernel⟩
      simp only [answered, append_assoc]
  | timer idle => exact ⟨gone, held, answered, harvested, put, room, holds, trivial, kernel⟩
  | page paged => exact ⟨gone, inv.paged paged⟩
  | harvest cap => exact ⟨gone, held, answered, harvested, put, room, holds, page, trivial⟩
  | kernel kerneled => exact inv.kerneled kerneled

end Inv

theorem reachable_inv (reached : system.Reachable s) : ∃ gone held, Inv s gone held := by
  refine reached.invariant (fun s => ∃ gone held, Inv s gone held) ?_ ?_
  · exact fun _ first => ⟨[], [], first.inv⟩
  · rintro _ _ _ ⟨_, _, inv⟩ _ step
    exact inv.act step

/-- The replies given are those answered, whole and in order, but for the ones in the ring and the
ones that wait. -/
def Exact (s : State) : Prop :=
  ∃ held : List Reply,
    s.answered.map Reply.bytes = s.harvested ++ (held ++ s.waiting).map Reply.bytes ∧
      s.unread = (flat held).length

/-- A step writes at most one slot, and none that holds a byte that is yet to be taken. -/
def Spares (s : State) : Prop :=
  ∀ a s', s.act a = some s' → s'.nb = s.nb ∨
    ∃ slot b, s'.nb = Function.update s.nb slot b ∧ ∀ i < s.unread, index s.taken i ≠ slot

theorem Inv.unread (inv : Inv s gone held) : s.unread = (flat held).length := by
  rw [State.unread, inv.put]
  exact toNat_sub inv.room

theorem Inv.exact (inv : Inv s gone held) : Exact s := by
  refine ⟨held, ?_, inv.unread⟩
  rw [inv.answered, inv.harvested, map_append]

theorem Inv.spares (inv : Inv s gone held) : Spares s := by
  intro a s' step
  cases State.acted step with
  | answer r idle => exact .inl rfl
  | timer idle => exact .inl rfl
  | page paged =>
      cases paged with
      | wake at_ none => exact .inl rfl
      | full at_ waits full => exact .inl rfl
      | fits at_ waits fits => exact .inl rfl
      | publish at_ whole => exact .inl rfl
      | @byte m w i b at_ byte =>
          have page := inv.page
          rw [at_] at page
          rcases page with ⟨_, rfl, most, fits, _⟩
          have less := (List.getElem?_eq_some_iff.1 byte).1
          refine .inr ⟨_, _, rfl, ?_⟩
          intro k inside
          rw [inv.unread] at inside
          rw [inv.put, index_add, index_eq]
          exact Ring.slot_ne (by omega) (by omega)
  | harvest cap => exact .inl rfl
  | kernel kerneled => cases kerneled <;> exact .inl rfl

/-- So many replies are put in the ring, or were, and enough is harvested for one of those that
were answered. -/
structure Due (put which : Nat) (s : State) : Prop where
  reached : system.Reachable s
  puts : s.answered.length = put + s.waiting.length
  answered : which < s.answered.length
  enough : (flat (s.answered.take (which + 1))).length ≤ s.harvested.flatten.length + nring

variable {put which : Nat}

theorem flat_length_le {ms ms' : List Reply} (front : ms <+: ms') :
    (flat ms).length ≤ (flat ms').length := by
  rcases front with ⟨rest, rfl⟩
  rw [flat_append, length_append]
  omega

theorem Due.fits (due : Due put which s) (next : put ≤ which) : ∃ m rest, s.waiting = m :: rest ∧
    ¬(nring : Int) - (s.put - s.taken).toInt < m.bytes.length := by
  rcases reachable_inv due.reached with ⟨gone, held, inv⟩
  have puts := due.puts
  rw [inv.answered, length_append, length_append] at puts
  rcases waits : s.waiting with _ | ⟨m, rest⟩
  · have answered := due.answered
    have all := due.puts
    rw [waits, length_nil] at all
    omega
  · refine ⟨m, rest, rfl, ?_⟩
    have front : gone ++ (held ++ [m]) <+: s.answered.take (which + 1) := by
      rw [inv.answered, waits]
      refine prefix_take_iff.2 ⟨⟨rest, by simp⟩, ?_⟩
      simp only [length_append, length_singleton]
      omega
    have whole := flat_length_le front
    have enough := due.enough
    have given : s.harvested.flatten = flat gone := by
      rw [inv.harvested, flat, flatMap_def]
    simp only [flat_append, flat_cons, flat_nil, append_nil, length_append] at whole
    rw [given] at enough
    rw [inv.put, toInt_sub inv.room]
    omega

theorem Inv.positive (inv : Inv s gone held) {cap : Nat} {r : BitVec 32} {size : Int} {out : Bytes}
    (at_ : s.kernel = .copy cap r size out) : 0 < size := by
  have kernel := inv.kernel
  rw [at_] at kernel
  rcases kernel with ⟨_, m, _, _, rfl, _⟩
  have least := m.least
  omega

/-- How far `answer` is from having put the next reply in the ring. -/
def rank : Page → Nat
  | .idle => nring + 3
  | .head => nring + 2
  | .copy m _ i => m.bytes.length + 1 - i

def Helps (p : Page) : Act → Prop
  | .answer _ => p = .idle
  | .timer => p = .idle
  | .page => p ≠ .idle
  | .harvest _ => False
  | .kernel => False

theorem Due.keep {a : Act} (due : Due put which s) (step : s.act a = some s')
    (other : ¬Helps s.page a) : Due put which s' ∧ s'.page = s.page := by
  have reached : system.Reachable s' := .step due.reached trivial step
  rcases due with ⟨before, puts, answered, enough⟩
  cases State.acted step with
  | answer r idle => exact absurd idle other
  | timer idle => exact absurd idle other
  | page paged =>
      have idle : s.page = .idle := not_not.1 other
      cases paged <;> simp_all only [reduceCtorEq]
  | harvest cap => exact ⟨⟨reached, puts, answered, enough⟩, rfl⟩
  | kernel kerneled =>
      rcases reachable_inv before with ⟨gone, held, inv⟩
      cases kerneled with
      | none at_ empty => exact ⟨⟨reached, puts, answered, enough⟩, rfl⟩
      | load at_ some => exact ⟨⟨reached, puts, answered, enough⟩, rfl⟩
      | size at_ less => exact ⟨⟨reached, puts, answered, enough⟩, rfl⟩
      | short at_ all short => exact ⟨⟨reached, puts, answered, enough⟩, rfl⟩
      | begin at_ all room => exact ⟨⟨reached, puts, answered, enough⟩, rfl⟩
      | byte at_ less => exact ⟨⟨reached, puts, answered, enough⟩, rfl⟩
      | take at_ whole given =>
          rcases given (inv.positive at_) with ⟨rfl, rfl⟩
          refine ⟨⟨reached, puts, answered, ?_⟩, rfl⟩
          change (flat (s.answered.take (which + 1))).length ≤ _
          rw [flatten_append, length_append]
          omega

theorem Due.brings {a : Act} (due : Due put which s) (next : put ≤ which)
    (step : s.act a = some s') (helps : Helps s.page a) :
    Due (put + 1) which s' ∨ Due put which s' ∧ rank s'.page < rank s.page := by
  have reached : system.Reachable s' := .step due.reached trivial step
  rcases due.fits next with ⟨m, rest, waits, fits⟩
  rcases reachable_inv due.reached with ⟨gone, held, inv⟩
  rcases due with ⟨_, puts, answered, enough⟩
  cases State.acted step with
  | answer r idle =>
      refine .inr ⟨⟨reached, ?_, ?_, ?_⟩, ?_⟩
      · simp only [length_append, length_singleton]
        omega
      · simp only [length_append, length_singleton]
        omega
      · rwa [take_append_of_le_length (by omega)]
      · rw [idle]
        exact Nat.lt_succ_self _
  | timer idle =>
      refine .inr ⟨⟨reached, puts, answered, enough⟩, ?_⟩
      rw [idle]
      exact Nat.lt_succ_self _
  | page paged =>
      cases paged with
      | wake at_ none =>
          rw [none] at waits
          cases waits
      | full at_ waits' full =>
          rw [waits] at waits'
          cases waits'
          exact absurd full fits
      | @fits m' rest' at_ waits' fits =>
          have most := m'.fits
          refine .inr ⟨⟨reached, puts, answered, enough⟩, ?_⟩
          change m'.bytes.length + 1 - 0 < rank s.page
          rw [at_, rank]
          omega
      | @byte m' w i b at_ byte =>
          have less := (List.getElem?_eq_some_iff.1 byte).1
          refine .inr ⟨⟨reached, puts, answered, enough⟩, ?_⟩
          rw [at_, rank, rank]
          omega
      | publish at_ whole =>
          refine .inl ⟨reached, ?_, answered, enough⟩
          change s.answered.length = put + 1 + s.waiting.tail.length
          rw [waits, length_cons] at puts
          rw [waits, tail_cons]
          omega
  | harvest cap => exact helps.elim
  | kernel kerneled => exact helps.elim

structure Runs (run : Nat → State) (acts : Nat → Act) : Prop where
  first : First (run 0)
  next : ∀ t, (run t).act (acts t) = some (run (t + 1))

/-- The page goes on with a call of `answer`, and a timer's call comes. -/
structure Fair (run : Nat → State) (acts : Nat → Act) : Prop where
  page : ∀ t, (run t).page ≠ .idle → ∃ t', t ≤ t' ∧ acts t' = .page
  timer : ∀ t, 0 < (run t).timers → ∃ t', t ≤ t' ∧ acts t' = .timer

variable {run : Nat → State} {acts : Nat → Act}

theorem Runs.reached (runs : Runs run acts) (t : Nat) : system.Reachable (run t) := by
  induction t with
  | zero => exact .init runs.first
  | succ t ih => exact .step ih trivial (runs.next t)

theorem comes (fair : Fair run acts) {t : Nat} (due : Due put which (run t)) (next : put ≤ which) :
    ∃ t', t ≤ t' ∧ Helps (run t).page (acts t') := by
  by_cases idle : (run t).page = .idle
  · rcases due.fits next with ⟨m, rest, waits, _⟩
    rcases reachable_inv due.reached with ⟨gone, held, inv⟩
    have page := inv.page
    rw [idle] at page
    have some : (run t).waiting ≠ [] := by
      rw [waits]
      exact cons_ne_nil _ _
    rcases fair.timer t (page some) with ⟨t', after, act⟩
    refine ⟨t', after, ?_⟩
    rw [act]
    exact idle
  · rcases fair.page t idle with ⟨t', after, act⟩
    refine ⟨t', after, ?_⟩
    rw [act]
    exact idle

theorem Due.next (runs : Runs run acts) (fair : Fair run acts) {t : Nat}
    (due : Due put which (run t)) (next : put ≤ which) :
    ∃ t', t ≤ t' ∧ Due (put + 1) which (run t') := by
  refine Fair.closer (A := Due put which) (B := Due (put + 1) which) (fun s => rank s.page) ?_ due
  intro t due
  have brought := Ipnx.Fair.ensures (A := fun s => Due put which s ∧ s.page = (run t).page)
    (B := fun s => Due (put + 1) which s ∨ Due put which s ∧ rank s.page < rank (run t).page)
    ⟨due, rfl⟩ (comes fair due next)
    (by
      rintro t' _ ⟨still, same⟩ other
      rw [← same] at other
      rcases still.keep (runs.next t') other with ⟨kept, page⟩
      exact ⟨kept, page.trans same⟩)
    (by
      rintro t' _ ⟨still, same⟩ helps
      rw [← same] at helps ⊢
      exact still.brings next (runs.next t') helps)
  rcases brought with ⟨t', after, brought⟩
  exact ⟨t', after.le, brought⟩

theorem put_in_turn (runs : Runs run acts) (fair : Fair run acts) {t : Nat}
    (answered : which < (run t).answered.length)
    (enough : (flat ((run t).answered.take (which + 1))).length ≤
      (run t).harvested.flatten.length + nring) :
    ∃ t', t ≤ t' ∧ (run t').waiting.length + which < (run t').answered.length := by
  rcases reachable_inv (runs.reached t) with ⟨gone, held, inv⟩
  have puts := congrArg List.length inv.answered
  rw [← append_assoc, length_append] at puts
  have turn : ∀ t put, Due put which (run t) →
      ∃ t', t ≤ t' ∧ (run t').waiting.length + which < (run t').answered.length := by
    intro t put due
    induction left : which + 1 - put generalizing put t with
    | zero =>
        have all := due.puts
        refine ⟨t, le_rfl, ?_⟩
        omega
    | succ left ih =>
        rcases due.next runs fair (by omega) with ⟨t', after, next⟩
        rcases ih t' (put + 1) next (by omega) with ⟨t'', later, done⟩
        exact ⟨t'', le_trans after later, done⟩
  exact turn t _ ⟨runs.reached t, puts, answered, enough⟩

end Ipnx.Host.Harvest
