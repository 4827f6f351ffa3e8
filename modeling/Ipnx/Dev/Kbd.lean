import Ipnx.Lib.Codec
import Ipnx.Lib.Keyed
import Ipnx.Lib.System
import Ipnx.Lib.Utf8

/-!
# The console's keyboard

`kbdputcclock`, `linedisc` and `consread` of `devcons.rs`. What is typed waits in one queue, is
edited in a line, and a line that is ended moves to another queue, which a read takes it from. The
edited lines are told over the runes typed, and the reads are held to them.
-/

namespace Ipnx.Dev

open List

/-- A line this long is sent whether or not it has been ended. -/
def kbdline : Nat := 1024

def eintr : String := "interrupted"

/-- The keyboard: the line being edited, the queues of unprocessed and of processed input, and each
reader that left in the middle of its read, with whether it had slept. -/
structure Kbd where
  raw : Bool
  line : Bytes
  kbdq : Bytes
  lineq : Bytes
  eof : Bool
  reading : Keyed Nat Bool
  clock : UInt64

namespace Kbd

/-- What the process table answers a reader: whether the lock is its own at once, whether it is put
to sleep, and whether a note has come. -/
structure Procs where
  qlock : Bool
  sleep : Bool
  interrupted : Bool
deriving DecidableEq, Repr

def new : Kbd := ⟨false, [], [], [], false, .empty, 0⟩

def sendline (k : Kbd) : Kbd := { k with lineq := k.lineq ++ k.line, line := [] }

/-- A character edits the line, and may send it. In raw mode the last that has come does. -/
def edit (raw : Bool) (line : Bytes) (ch : UInt8) (last : Bool) : Bytes × Bool :=
  if ch = 0 then (line, !line.isEmpty && last)
  else if raw then (line ++ [ch], last)
  else if ch = 0x08 then (line.dropLast, false)
  else if ch = 0x15 then ([], false)
  else if ch = 0x0a then (line ++ [ch], true)
  else if ch = 0x04 then (line, true)
  else (line ++ [ch], false)

def key (k : Kbd) (ch : UInt8) (last : Bool) : Kbd :=
  let e := edit k.raw k.line ch last
  let k := { k with line := e.1 }
  if e.2 ∨ k.line.length = kbdline then k.sendline else k

/-- Characters are taken until there is a processed line. The end of the input is taken for a
`^D`. -/
def discipline (k : Kbd) : Bytes → Kbd
  | [] =>
      let k := { k with kbdq := [] }
      if k.lineq.isEmpty && k.eof then k.sendline else k
  | ch :: q =>
      if k.lineq.isEmpty then discipline (k.key ch q.isEmpty) q else { k with kbdq := ch :: q }

def linedisc (k : Kbd) : Kbd := k.discipline k.kbdq

/-- What the keyboard has produced is taken in at the clock, and typed-ahead goes at the interrupt
key. -/
def kbdputcclock (k : Kbd) (now : UInt64) (chars : Option Bytes) (interrupt : Bool) : Kbd :=
  if now < k.clock then k
  else
    let k := { k with clock := now + 22000000 }
    let k :=
      if k.eof then k
      else
        match chars with
        | none => { k with eof := true }
        | some b => { k with kbdq := k.kbdq ++ b }
    if interrupt then { k with kbdq := [], line := [] } else k

/-- The reader that has the lock: a whole line, or as much of it as was asked for. -/
def take (k : Kbd) (pid n : Nat) (p : Procs) : Except String (Option Bytes) × Kbd :=
  let k := k.linedisc
  if k.lineq.isEmpty && !k.eof then
    if p.sleep then (.ok none, { k with reading := k.reading.insert pid true })
    else (.error eintr, k)
  else (.ok (some (k.lineq.take n)), { k with lineq := k.lineq.drop n })

/-- A read of `cons`, unless the reader is left waiting. -/
def consread (k : Kbd) (pid n : Nat) (p : Procs) : Except String (Option Bytes) × Kbd :=
  let left := { k with reading := k.reading.erase pid }
  match k.reading.find pid with
  | some true => if p.interrupted then (.error eintr, left) else left.take pid n p
  | some false => left.take pid n p
  | none =>
      if p.qlock then left.take pid n p
      else (.ok none, { k with reading := k.reading.insert pid false })

end Kbd

namespace Kbd

/-- The keyboard, all that was typed and what the reads that were completed gave. -/
structure Sys where
  kbd : Kbd
  typed : Bytes
  reads : List Bytes

/-- The keyboard is typed at and goes on, and processes read. -/
inductive Op
  | kbdputcclock (now : UInt64) (b : Bytes)
  | consread (pid n : Nat) (p : Procs)
deriving DecidableEq, Repr

/-- What a read leaves, and what it gave if it was completed. -/
def Sys.after (s : Sys) (r : Except String (Option Bytes) × Kbd) : Sys :=
  match r.1 with
  | .ok (some b) => { s with kbd := r.2, reads := s.reads ++ [b] }
  | _ => { s with kbd := r.2 }

def Sys.act (s : Sys) : Op → Sys
  | .kbdputcclock now b =>
      { s with
        kbd := s.kbd.kbdputcclock now (some b) false
        typed := if now < s.kbd.clock then s.typed else s.typed ++ b }
  | .consread pid n p => s.after (s.kbd.consread pid n p)

def typing : System Sys Op where
  init s := s = ⟨new, [], []⟩
  step s op s' := s' = s.act op

def Ample (s : Sys) : Op → Prop
  | .consread _ n _ => s.kbd.linedisc.lineq.length ≤ n
  | _ => True

def text (rs : List Char) : Bytes := rs.flatMap String.utf8EncodeChar

/-- The lines that runes are edited to, and the line that is not ended. -/
def edited (line : List Char) : List Char → List (List Char) × List Char
  | [] => ([], line)
  | r :: rs =>
      if r = '\x08' then edited line.dropLast rs
      else if r = '\x15' then edited [] rs
      else if r = '\n' then ((line ++ [r]) :: (edited [] rs).1, (edited [] rs).2)
      else if r = '\x04' then (line :: (edited [] rs).1, (edited [] rs).2)
      else edited (line ++ [r]) rs

def lines (rs : List Char) : List Bytes := (edited [] rs).1.map text

/-- The reads that were completed gave the edited lines, one each; and when all the runes have been
typed, a read gives the next line, or waits if there is none. -/
structure Lined (s : Sys) (rs : List Char) : Prop where
  reads : s.reads <+: lines rs
  next : s.typed = text rs → ∀ pid n, s.kbd.linedisc.lineq.length ≤ n →
    (s.kbd.consread pid n ⟨true, true, false⟩).1 = .ok (lines rs)[s.reads.length]?

/-- Nothing is typed that the line does not edit as runes: a backspace erases a rune of one byte, no
line is ended with nothing in it by a `^D`, none is as long as is sent at once, and no rune is
NUL. -/
def Plain (line : List Char) : List Char → Prop
  | [] => True
  | r :: rs =>
      if r = '\x08' then (∀ c ∈ line.getLast?, c.utf8Size = 1) ∧ Plain line.dropLast rs
      else if r = '\x15' then Plain [] rs
      else if r = '\n' then Plain [] rs
      else if r = '\x04' then line ≠ [] ∧ Plain [] rs
      else r ≠ '\x00' ∧ (text (line ++ [r])).length < kbdline ∧ Plain (line ++ [r]) rs

/-- The lines that bytes are edited to, the empty ones too, and the line that is not ended. -/
def feed (line : Bytes) : Bytes → List Bytes × Bytes
  | [] => ([], line)
  | ch :: q =>
      let e := edit false line ch false
      if e.2 ∨ e.1.length = kbdline then (e.1 :: (feed [] q).1, (feed [] q).2) else feed e.1 q

/-- Bytes that the line discipline moves as they are edited. -/
structure Clean (b : Bytes) : Prop where
  nul : 0 ∉ b
  ended : [] ∉ (feed [] b).1

variable {k : Kbd} {line b q : Bytes} {ch : UInt8}

theorem feed_append (line a b : Bytes) :
    feed line (a ++ b) =
      ((feed line a).1 ++ (feed (feed line a).2 b).1, (feed (feed line a).2 b).2) := by
  induction a generalizing line with
  | nil => rfl
  | cons ch a ih =>
      rw [cons_append, feed, feed]
      split_ifs with sends
      · rw [ih]
        rfl
      · exact ih _

theorem Clean.prefix_ (clean : Clean b) (more : q <+: b) : Clean q := by
  rcases more with ⟨rest, rfl⟩
  refine ⟨fun mem => clean.nul (mem_append_left _ mem), fun mem => clean.ended ?_⟩
  rw [feed_append]
  exact mem_append_left _ mem

theorem edit_last (nul : ch ≠ 0) (last : Bool) :
    edit false line ch last = edit false line ch false := by
  rw [edit, edit, if_neg nul, if_neg nul]
  rfl

theorem key_cooked (cooked : k.raw = false) (nul : ch ≠ 0) (last : Bool) :
    k.key ch last =
      if (edit false k.line ch false).2 ∨ (edit false k.line ch false).1.length = kbdline then
        { k with lineq := k.lineq ++ (edit false k.line ch false).1, line := [] }
      else { k with line := (edit false k.line ch false).1 } := by
  rw [key, cooked, edit_last nul]
  dsimp only
  split_ifs <;> rfl

theorem discipline_full (q : Bytes) (k : Kbd) (some_ : k.lineq ≠ []) :
    k.discipline q = { k with kbdq := q } := by
  have full : k.lineq.isEmpty = false := isEmpty_eq_false_iff.2 some_
  cases q with
  | nil =>
      rw [discipline]
      dsimp only
      rw [full, Bool.false_and, if_neg Bool.false_ne_true]
  | cons ch q => rw [discipline, full, if_neg Bool.false_ne_true]

theorem discipline_spec (q : Bytes) (k : Kbd) (cooked : k.raw = false) (goes : k.eof = false)
    (empty : k.lineq = []) (nul : 0 ∉ q) (ended : [] ∉ (feed k.line q).1) :
    (∃ line q', k.discipline q = { k with lineq := line, line := [], kbdq := q' } ∧ line ≠ [] ∧
        feed k.line q = (line :: (feed [] q').1, (feed [] q').2) ∧ q' <:+ q) ∨
      (k.discipline q = { k with kbdq := [], line := (feed k.line q).2 } ∧
        (feed k.line q).1 = []) := by
  induction q generalizing k with
  | nil =>
      right
      rw [discipline]
      dsimp only
      rw [goes, Bool.and_false, if_neg Bool.false_ne_true]
      exact ⟨rfl, rfl⟩
  | cons ch q ih =>
      rw [mem_cons, not_or] at nul
      have nothing : k.lineq.isEmpty = true := isEmpty_iff.2 empty
      rw [discipline, if_pos nothing, key_cooked cooked (Ne.symm nul.1)]
      rw [feed] at ended ⊢
      split_ifs at ended ⊢ with sends
      · left
        rw [mem_cons, not_or] at ended
        refine ⟨(edit false k.line ch false).1, q, ?_, Ne.symm ended.1, rfl, suffix_cons ch q⟩
        rw [empty, nil_append]
        exact discipline_full q _ (Ne.symm ended.1)
      · have later :=
          ih { k with line := (edit false k.line ch false).1 } cooked goes empty nul.2 ended
        rcases later with ⟨line, q', is, some_, fed, rest⟩ | later
        · exact .inl ⟨line, q', is, some_, fed, rest.trans (suffix_cons ch q)⟩
        · exact .inr later

def ready : Bytes → List Bytes
  | [] => []
  | ch :: line => [ch :: line]

theorem ready_some (some_ : line ≠ []) : ready line = [line] := by
  cases line with
  | nil => exact absurd rfl some_
  | cons ch line => rfl

/-- What is kept of the bytes typed: the lines read, the line that is processed if there is one, and
what the rest is edited to. -/
structure Kept (s : Sys) : Prop where
  cooked : s.kbd.raw = false
  goes : s.kbd.eof = false
  moved : feed [] s.typed =
    (s.reads ++ ready s.kbd.lineq ++ (feed s.kbd.line s.kbd.kbdq).1,
      (feed s.kbd.line s.kbd.kbdq).2)
  nul : 0 ∉ s.kbd.kbdq

variable {s : Sys}

theorem Kept.linedisc (kept : Kept s) (clean : Clean s.typed) :
    Kept { s with kbd := s.kbd.linedisc } ∧
      (s.kbd.linedisc.lineq = [] → (feed s.kbd.linedisc.line s.kbd.linedisc.kbdq).1 = []) := by
  by_cases empty : s.kbd.lineq = []
  · have moved := kept.moved
    rw [empty, ready, append_nil] at moved
    have ended : [] ∉ (feed s.kbd.line s.kbd.kbdq).1 := by
      intro mem
      apply clean.ended
      rw [moved]
      exact mem_append_right _ mem
    rw [Kbd.linedisc]
    rcases discipline_spec s.kbd.kbdq s.kbd kept.cooked kept.goes empty kept.nul ended with
      ⟨line, q, is, some_, fed, rest⟩ | ⟨is, none_⟩
    · rw [is]
      refine ⟨⟨kept.cooked, kept.goes, ?_, ?_⟩, fun no => absurd no some_⟩
      · rw [moved, fed, ready_some some_, append_assoc, singleton_append]
      · exact fun mem => kept.nul (rest.mem mem)
    · rw [is]
      refine ⟨⟨kept.cooked, kept.goes, ?_, not_mem_nil⟩, fun _ => rfl⟩
      rw [moved, none_, empty]
      simp [feed, ready]
  · have same : s.kbd.linedisc = s.kbd := discipline_full s.kbd.kbdq s.kbd empty
    rw [same]
    exact ⟨kept, fun no => absurd no empty⟩

theorem Kept.reading (kept : Kept s) (reading : Keyed Nat Bool) :
    Kept { s with kbd := { s.kbd with reading := reading } } :=
  { kept with }

theorem key_reading (k : Kbd) (ch : UInt8) (last : Bool) (reading : Keyed Nat Bool) :
    ({ k with reading := reading } : Kbd).key ch last =
      { k.key ch last with reading := reading } := by
  simp only [key]
  split_ifs <;> rfl

theorem discipline_reading (q : Bytes) (k : Kbd) (reading : Keyed Nat Bool) :
    ({ k with reading := reading } : Kbd).discipline q =
      { k.discipline q with reading := reading } := by
  induction q generalizing k with
  | nil =>
      simp only [discipline]
      split_ifs <;> rfl
  | cons ch q ih =>
      simp only [discipline]
      split_ifs
      · rw [key_reading]
        exact ih _
      · rfl

theorem Kept.take (kept : Kept s) (clean : Clean s.typed) (pid : Nat) {n : Nat}
    (ample : s.kbd.linedisc.lineq.length ≤ n) (p : Procs) :
    Kept (s.after (s.kbd.take pid n p)) ∧
      (p.sleep = true → (s.kbd.take pid n p).1 = .ok (feed [] s.typed).1[s.reads.length]?) := by
  rcases kept.linedisc clean with ⟨kept', none_⟩
  rw [kept'.moved, Kbd.take]
  dsimp only
  by_cases empty : s.kbd.linedisc.lineq = []
  · have waits : (s.kbd.linedisc.lineq.isEmpty && !s.kbd.linedisc.eof) = true := by
      rw [isEmpty_iff.2 empty, kept'.goes]
      rfl
    have nothing : ready s.kbd.linedisc.lineq = [] := by
      rw [empty]
      rfl
    rw [if_pos waits, nothing, none_ empty, append_nil, append_nil]
    cases p.sleep with
    | true =>
        refine ⟨kept'.reading _, fun _ => ?_⟩
        rw [if_pos rfl, List.getElem?_eq_none_iff.2 (Nat.le_refl _)]
    | false => exact ⟨kept', nofun⟩
  · have gives : (s.kbd.linedisc.lineq.isEmpty && !s.kbd.linedisc.eof) = false := by
      rw [isEmpty_eq_false_iff.2 empty]
      rfl
    rw [gives, if_neg Bool.false_ne_true, ready_some empty, take_of_length_le ample,
      drop_of_length_le ample]
    refine ⟨⟨kept'.cooked, kept'.goes, ?_, kept'.nul⟩, fun _ => ?_⟩
    · have moved := kept'.moved
      rw [ready_some empty] at moved
      dsimp only [Sys.after]
      rw [ready, append_nil]
      exact moved
    · rw [append_assoc, List.getElem?_append_right (Nat.le_refl _), Nat.sub_self]
      rfl

theorem Kept.consread (kept : Kept s) (clean : Clean s.typed) (pid : Nat) {n : Nat}
    (ample : s.kbd.linedisc.lineq.length ≤ n) (p : Procs) :
    Kept (s.after (s.kbd.consread pid n p)) ∧
      (p = ⟨true, true, false⟩ →
        (s.kbd.consread pid n p).1 = .ok (feed [] s.typed).1[s.reads.length]?) := by
  have left : Kept { s with kbd := { s.kbd with reading := s.kbd.reading.erase pid } } :=
    kept.reading _
  have ample' :
      ({ s.kbd with reading := s.kbd.reading.erase pid } : Kbd).linedisc.lineq.length ≤ n := by
    rw [Kbd.linedisc, discipline_reading]
    exact ample
  rcases left.take clean pid ample' p with ⟨takes, gives⟩
  have gives' : p = ⟨true, true, false⟩ → _ := fun is => gives (by rw [is])
  rw [Kbd.consread]
  split
  · split_ifs with noted
    · refine ⟨left, fun is => ?_⟩
      rw [is] at noted
      cases noted
    · exact ⟨takes, gives'⟩
  · exact ⟨takes, gives'⟩
  · split_ifs with locks
    · exact ⟨takes, gives'⟩
    · refine ⟨kept.reading _, fun is => ?_⟩
      rw [is] at locks
      exact absurd rfl locks

theorem kbdputcclock_eq (goes : k.eof = false) (now : UInt64) (b : Bytes) :
    k.kbdputcclock now (some b) false =
      if now < k.clock then k else { k with clock := now + 22000000, kbdq := k.kbdq ++ b } := by
  simp only [kbdputcclock, goes, if_neg Bool.false_ne_true]

theorem Kept.kbdputcclock (kept : Kept s) {now : UInt64} {b : Bytes}
    (clean : Clean (s.act (.kbdputcclock now b)).typed) : Kept (s.act (.kbdputcclock now b)) := by
  rw [Sys.act] at clean ⊢
  dsimp only at clean ⊢
  rw [kbdputcclock_eq kept.goes]
  split_ifs at clean ⊢ with early
  · exact kept
  · refine ⟨kept.cooked, kept.goes, ?_, ?_⟩
    · rw [feed_append, kept.moved]
      dsimp only
      rw [feed_append, append_assoc]
    · intro mem
      rcases mem_append.1 mem with old | new_
      · exact kept.nul old
      · exact clean.nul (mem_append_right _ new_)

theorem kept_run (reached : typing.Reach Ample s) : Clean s.typed → Kept s := by
  refine reached.invariant (fun s => Clean s.typed → Kept s) ?_ ?_
  · rintro _ rfl _
    exact ⟨rfl, rfl, rfl, not_mem_nil⟩
  · rintro s op _ ih ample rfl clean
    cases op with
    | kbdputcclock now b =>
        refine Kept.kbdputcclock (ih (clean.prefix_ ?_)) clean
        rw [Sys.act]
        dsimp only
        split_ifs
        · exact prefix_refl _
        · exact prefix_append _ _
    | consread pid n p =>
        have same : (s.act (.consread pid n p)).typed = s.typed := by
          rw [Sys.act, Sys.after]
          split <;> rfl
        rw [same] at clean
        exact ((ih clean).consread clean pid ample p).1

def Ordinary (b : UInt8) : Prop := b ≠ 0 ∧ b ≠ 0x08 ∧ b ≠ 0x15 ∧ b ≠ 0x0a ∧ b ≠ 0x04

theorem edit_ordinary {b : UInt8} (ordinary : Ordinary b) (line : Bytes) :
    edit false line b false = (line ++ [b], false) := by
  rcases ordinary with ⟨nul, back, kill, newline, eot⟩
  simp only [edit, if_neg nul, if_neg back, if_neg kill, if_neg newline, if_neg eot,
    if_neg Bool.false_ne_true]

theorem feed_ordinary {bs : Bytes} (ordinary : ∀ b ∈ bs, Ordinary b) (line q : Bytes)
    (short : (line ++ bs).length < kbdline) : feed line (bs ++ q) = feed (line ++ bs) q := by
  induction bs generalizing line with
  | nil => rw [append_nil, nil_append]
  | cons b bs ih =>
      have below : (line ++ [b]).length ≠ kbdline := by
        rw [length_append, length_cons] at short
        rw [length_append, length_singleton]
        omega
      rw [cons_append, feed, edit_ordinary (ordinary b mem_cons_self)]
      dsimp only
      have stays : ¬(false = true ∨ (line ++ [b]).length = kbdline) := not_or.mpr ⟨nofun, below⟩
      rw [if_neg stays, ih (fun b' mem => ordinary b' (mem_cons_of_mem b mem))]
      · rw [append_assoc, singleton_append]
      · rw [append_assoc, singleton_append]
        exact short

theorem ordinary_encode {c : Char} (nul : c ≠ '\x00') (back : c ≠ '\x08') (kill : c ≠ '\x15')
    (newline : c ≠ '\n') (eot : c ≠ '\x04') : ∀ b ∈ String.utf8EncodeChar c, Ordinary b := by
  intro b mem
  rcases Utf8.encode_cases c with ⟨_, below, is⟩ | ⟨_, high⟩
  · rw [is, mem_singleton] at mem
    have same : b.toNat = c.toNat := by
      rw [mem, UInt8.toNat_ofNat']
      omega
    have apart : ∀ (k : UInt8) (r : Char), r.toNat = k.toNat → c ≠ r → b ≠ k := by
      rintro k r value other rfl
      exact other (Char.toNat_inj.1 (same.symm.trans value.symm))
    exact ⟨apart 0 _ rfl nul, apart 0x08 _ rfl back, apart 0x15 _ rfl kill,
      apart 0x0a _ rfl newline, apart 0x04 _ rfl eot⟩
  · have above := high b mem
    refine ⟨?_, ?_, ?_, ?_, ?_⟩
    all_goals
      rintro rfl
      exact absurd above (by decide)

theorem text_append (rs rs' : List Char) : text (rs ++ rs') = text rs ++ text rs' :=
  flatMap_append

theorem text_singleton (c : Char) : text [c] = String.utf8EncodeChar c := append_nil _

theorem text_cons (c : Char) (rs : List Char) :
    text (c :: rs) = String.utf8EncodeChar c ++ text rs := rfl

theorem text_dropLast {line : List Char} (one : ∀ c ∈ line.getLast?, c.utf8Size = 1) :
    (text line).dropLast = text line.dropLast := by
  rcases eq_nil_or_concat line with rfl | ⟨rs, c, rfl⟩
  · rfl
  · rw [concat_eq_append] at one ⊢
    have size : c.utf8Size = 1 := one c (by rw [List.getLast?_concat]; rfl)
    rcases Utf8.encode_cases c with ⟨_, _, is⟩ | ⟨more, _⟩
    · rw [dropLast_concat, text_append, text_singleton, is, dropLast_concat]
    · exact absurd size more

theorem text_eq_nil {line : List Char} (none_ : text line = []) : line = [] := by
  cases line with
  | nil => rfl
  | cons c rs =>
      rw [text_cons, append_eq_nil_iff] at none_
      have size := String.length_utf8EncodeChar c
      rw [none_.1] at size
      exact absurd size.symm (Nat.pos_iff_ne_zero.1 c.utf8Size_pos)

theorem feed_text (rs : List Char) (line : List Char) (plain : Plain line rs)
    (short : (text line).length < kbdline) :
    feed (text line) (text rs) = ((edited line rs).1.map text, text (edited line rs).2) ∧
      [] ∉ (edited line rs).1 ∧ 0 ∉ text rs := by
  have empty : (text []).length < kbdline := by decide
  induction rs generalizing line with
  | nil => exact ⟨rfl, not_mem_nil, not_mem_nil⟩
  | cons r rs ih =>
      rw [Plain] at plain
      rw [edited]
      split_ifs at plain ⊢ with back kill newline eot
      · subst back
        have less : (text line.dropLast).length < kbdline := by
          rw [← text_dropLast plain.1, length_dropLast]
          omega
        have stays : ¬(false = true ∨ (text line).dropLast.length = kbdline) := by
          rw [length_dropLast]
          simp
          omega
        rcases ih _ plain.2 less with ⟨fed, ended, clean⟩
        refine ⟨?_, ended, not_mem_cons_of_ne_of_not_mem (by decide) clean⟩
        rw [← fed, ← text_dropLast plain.1]
        exact (if_neg stays : feed (text line) (0x08 :: text rs) = _)
      · subst kill
        rcases ih _ plain empty with ⟨fed, ended, clean⟩
        exact ⟨fed, ended, not_mem_cons_of_ne_of_not_mem (by decide) clean⟩
      · subst newline
        rcases ih _ plain empty with ⟨fed, ended, clean⟩
        refine ⟨?_, not_mem_cons_of_ne_of_not_mem (by simp) ended,
          not_mem_cons_of_ne_of_not_mem (by decide) clean⟩
        have sent : text (line ++ ['\n']) = text line ++ [0x0a] := text_append line ['\n']
        rw [map_cons, sent]
        change ((text line ++ [0x0a]) :: (feed [] (text rs)).1, (feed [] (text rs)).2) = _
        have fed' : feed [] (text rs) = _ := fed
        rw [fed']
      · subst eot
        rcases ih _ plain.2 empty with ⟨fed, ended, clean⟩
        refine ⟨?_, not_mem_cons_of_ne_of_not_mem (Ne.symm plain.1) ended,
          not_mem_cons_of_ne_of_not_mem (by decide) clean⟩
        rw [map_cons]
        change (text line :: (feed [] (text rs)).1, (feed [] (text rs)).2) = _
        have fed' : feed [] (text rs) = _ := fed
        rw [fed']
      · rcases plain with ⟨nul, below, rest⟩
        have ordinary := ordinary_encode nul back kill newline eot
        have below' : (text line ++ String.utf8EncodeChar r).length < kbdline := by
          rw [← text_singleton, ← text_append]
          exact below
        rcases ih _ rest below with ⟨fed, ended, clean⟩
        rw [text_cons, feed_ordinary ordinary _ _ below', ← text_singleton, ← text_append, fed]
        refine ⟨rfl, ended, ?_⟩
        intro mem
        rcases mem_append.1 mem with here | later
        · rw [text_singleton] at here
          exact (ordinary 0 here).1 rfl
        · exact clean later

theorem clean_text {rs : List Char} (plain : Plain [] rs) :
    Clean (text rs) ∧ (feed [] (text rs)).1 = lines rs := by
  rcases feed_text rs [] plain (by decide) with ⟨fed, ended, nul⟩
  have fed' : feed [] (text rs) = _ := fed
  have is : (feed [] (text rs)).1 = lines rs := by
    rw [fed']
    rfl
  refine ⟨⟨nul, ?_⟩, is⟩
  rw [is]
  intro mem
  rcases mem_map.1 mem with ⟨line, there, none_⟩
  rw [text_eq_nil none_] at there
  exact ended there

/-- Of plain runes, typed in whatever pieces and read between them, each read gives the next edited
line. -/
theorem reads_lines {rs : List Char} (reached : typing.Reach Ample s) (plain : Plain [] rs)
    (typed : s.typed <+: text rs) : Lined s rs := by
  rcases clean_text plain with ⟨clean, is⟩
  have kept := kept_run reached (clean.prefix_ typed)
  constructor
  · rcases typed with ⟨rest, whole⟩
    rw [← is, ← whole, feed_append, kept.moved]
    dsimp only
    rw [append_assoc, append_assoc]
    exact prefix_append _ _
  · intro all pid n ample
    rw [← is, ← all]
    exact (kept.consread (clean.prefix_ typed) pid ample _).2 rfl

def type_ (rs : List Char) : Sys := (⟨new, [], []⟩ : Sys).act (.kbdputcclock 0 (text rs))

theorem type_reached (rs : List Char) : typing.Reach Ample (type_ rs) :=
  .step (a := .kbdputcclock 0 (text rs)) (.init rfl) trivial rfl

theorem reads_lines_command :
    typing.Reach Ample (type_ ['l', 's', '\n']) ∧ Plain [] ['l', 's', '\n'] ∧
      (type_ ['l', 's', '\n']).typed <+: text ['l', 's', '\n'] ∧
      Lined (type_ ['l', 's', '\n']) ['l', 's', '\n'] := by
  have reached := type_reached ['l', 's', '\n']
  have plain : Plain [] ['l', 's', '\n'] := by
    simp [Plain, text, kbdline]
    decide
  have typed : (type_ ['l', 's', '\n']).typed <+: text ['l', 's', '\n'] := prefix_refl _
  exact ⟨reached, plain, typed, reads_lines reached plain typed⟩

/-- No read is given the empty line that a `^D` ends. -/
theorem reads_lines_fails :
    typing.Reach Ample (type_ ['\x04']) ∧ (type_ ['\x04']).typed <+: text ['\x04'] ∧
      ¬Lined (type_ ['\x04']) ['\x04'] := by
  refine ⟨type_reached ['\x04'], prefix_refl _, ?_⟩
  intro lined
  have next := lined.next rfl 1 kbdline (by decide)
  have waits : ((type_ ['\x04']).kbd.consread 1 kbdline ⟨true, true, false⟩).1 = .ok none := rfl
  have owed : (lines ['\x04'])[(type_ ['\x04']).reads.length]? = some [] := rfl
  rw [waits, owed] at next
  cases next

end Kbd

end Ipnx.Dev
