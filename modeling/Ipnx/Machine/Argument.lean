import Ipnx.Machine.Memory

/-!
# The argument block

`start` of `hosts/ipnx/src/machine.rs`: the `Tos` goes at the top of an image's stack, the
arguments' strings end at the `Tos`, and the array of pointers to them, with a nil after them, is
below, where the stack pointer is set. An image with no stack pointer has the block past the end of
its memory.
-/

namespace Ipnx.Argument

open List

/-- An instance, with how many pages it may have and its stack pointer, if it exports one. -/
structure Image where
  mem : Memory
  max : Nat
  sp : Option Word

def tossize : Word := 72

def tospid : Word := 48

/-- `as usize`. -/
def usize (p : Word) : Nat := (p.signExtend 64).toNat

def settos (img : Image) (pid : Word) : Option (Word × Image) :=
  match img.sp with
  | none => some (0, img)
  | some top =>
      let tos := (top - tossize) &&& ~~~15
      (img.mem.writeAt (usize tos) (List.replicate 72 0)).bind fun mem =>
        (mem.writeAt (usize (tos + tospid)) (leBytes 4 pid.toNat)).map fun mem =>
          (tos, { img with mem := mem, sp := some tos })

def tstksiz : Nat := 100 * 4096

def strs (args : List Bytes) : Bytes := args.flatMap (· ++ [0])

/-- The pointers to strings from `charp` on, and a nil one. -/
def ptrs (charp : Nat) : List Bytes → Bytes
  | [] => leBytes 4 0
  | a :: args => leBytes 4 charp ++ ptrs (charp + (a.length + 1)) args

/-- The array and the strings, each where it goes. -/
def put (img : Image) (argv charp : Nat) (args : List Bytes) : Option (Word × Word) × Image :=
  match img.mem.writeAt argv (ptrs charp args) with
  | none => (none, img)
  | some mem =>
      match mem.writeAt charp (strs args) with
      | none => (none, { img with mem := mem })
      | some mem' =>
          (some (.ofNat 32 args.length, .ofNat 32 argv), { img with mem := mem' })

/-- Where `argc` and `argv` are, or that there is no room for the arguments. -/
def place (img : Image) (tos : Word) (args : List Bytes) : Option (Word × Word) × Image :=
  let nbytes := (args.map fun a => a.length + 1).sum
  let nptr := (args.length + 1) * 4
  if img.sp.isSome ∧ 0 < tos.toInt then
    if nptr + nbytes > tstksiz ∨ nptr + nbytes + 16 > tos.toNat then (none, img)
    else
      let charp := tos.toNat - nbytes
      let argv := (charp - nptr) / 16 * 16
      put { img with sp := some (.ofNat 32 argv) } argv charp args
  else
    let base := img.mem.size
    match img.mem.grow (max ((nptr + nbytes + 65535) / 65536) 1) img.max with
    | none => (none, img)
    | some mem => put { img with mem := mem } base (base + nptr) args

/-- A text with no NUL in it. -/
structure Arg where
  text : String
  plain : '\x00' ∉ text.toList

def Arg.bytes (a : Arg) : Bytes := Utf8.encode a.text

variable {m : Memory} {args : List Bytes} {rest : Bytes} {argv charp start stop : Nat}

theorem ptrs_length (charp : Nat) (args : List Bytes) :
    (ptrs charp args).length = (args.length + 1) * 4 := by
  induction args generalizing charp with
  | nil => rfl
  | cons a args ih =>
      rw [ptrs, length_append, ih, leBytes_length, length_cons]
      omega

theorem strs_length (args : List Bytes) :
    (strs args).length = (args.map fun a => a.length + 1).sum := by
  simp [strs, length_flatMap]

theorem vector_ptrs (args : List Arg) (there : 0 < charp)
    (strings : m.bytes.drop charp = strs (args.map Arg.bytes) ++ rest)
    (low : charp + (strs (args.map Arg.bytes)).length ≤ 2 ^ 31) (after : Bytes) :
    Memory.vector m.cstr (ptrs charp (args.map Arg.bytes) ++ after) =
      some (args.map Arg.text) := by
  induction args generalizing charp with
  | nil => exact Memory.vector_nil after
  | cons a args ih =>
      have whole : strs ((a :: args).map Arg.bytes) =
          a.bytes ++ 0 :: strs (args.map Arg.bytes) := by simp [strs]
      rw [whole, length_append, length_cons] at low
      rw [whole, append_assoc, cons_append] at strings
      have plain : (0 : UInt8) ∉ a.bytes := by
        intro zero
        rcases mem_flatMap.1 zero with ⟨c, member, zero⟩
        rw [Utf8.zero_encode zero] at member
        exact a.plain member
      have first : m.cstr (.ofNat 32 charp) = some a.text := by
        rw [Memory.cstr, Memory.cbytes_string (by omega) strings plain, Option.map_some, Arg.bytes,
          Utf8.lossy_encode]
      have next : m.bytes.drop (charp + (a.bytes.length + 1)) =
          strs (args.map Arg.bytes) ++ rest := by
        rw [← drop_drop, strings, ← drop_drop, drop_left]
        rfl
      rw [map_cons, ptrs, append_assoc, Memory.vector_cons (by omega) (by omega), first,
        Option.bind_some, ih (by omega) next (by omega), Option.map_some, map_cons]

/-- Memory with the array at `argv`, the strings from `charp` to `stop`, and elsewhere as it was. -/
structure Block (before after : Bytes) (argv charp stop : Nat) (args : List Bytes) : Prop where
  apart : argv + (args.length + 1) * 4 ≤ charp
  ends : charp + (strs args).length = stop
  layout : after = before.take argv ++ ptrs charp args ++
    (before.drop (argv + (args.length + 1) * 4)).take (charp - (argv + (args.length + 1) * 4)) ++
      strs args ++ before.drop stop

theorem put_block (img : Image) (apart : argv + (args.length + 1) * 4 ≤ charp)
    (fits : charp + (strs args).length ≤ img.mem.size) :
    ∃ mem, put img argv charp args =
        (some (.ofNat 32 args.length, .ofNat 32 argv), { img with mem := mem }) ∧
      Block img.mem.bytes mem.bytes argv charp (charp + (strs args).length) args := by
  have array := ptrs_length charp args
  rcases Memory.writeAt_some img.mem argv (ptrs charp args) (by omega) with
    ⟨mem, one, first⟩
  have same : mem.size = img.mem.size := by
    rw [Memory.size, first, Memory.overwrite_length (by rw [Memory.size] at fits; omega)]
    rfl
  rcases Memory.writeAt_some mem charp (strs args) (by omega) with
    ⟨mem', two, second⟩
  refine ⟨mem', ?_, apart, rfl, ?_⟩
  · rw [put, one]
    simp only [two]
  · rw [second, first, Memory.overwrite_two (by omega) (by rw [Memory.size] at fits; omega), array]

theorem Block.cargv {before : Bytes} {args : List Arg}
    (block : Block before m.bytes argv charp stop (args.map Arg.bytes))
    (inside : stop ≤ before.length) (low : stop ≤ 2 ^ 31) :
    m.cargv (.ofNat 32 argv) = some (args.map Arg.text) := by
  rcases block with ⟨apart, ends, layout⟩
  have first : (before.take argv).length = argv := by simp; omega
  have array := ptrs_length charp (args.map Arg.bytes)
  have upto : (before.take argv ++ ptrs charp (args.map Arg.bytes) ++
      (before.drop (argv + ((args.map Arg.bytes).length + 1) * 4)).take
        (charp - (argv + ((args.map Arg.bytes).length + 1) * 4))).length = charp := by
    rw [length_append, length_append, first, array, length_take, length_drop]
    omega
  have strings : m.bytes.drop charp = strs (args.map Arg.bytes) ++ before.drop stop := by
    rw [layout, append_assoc, drop_left' upto]
  have pointers : m.bytes.drop argv = ptrs charp (args.map Arg.bytes) ++
      ((before.drop (argv + ((args.map Arg.bytes).length + 1) * 4)).take
        (charp - (argv + ((args.map Arg.bytes).length + 1) * 4)) ++
          (strs (args.map Arg.bytes) ++ before.drop stop)) := by
    rw [layout]
    simp only [append_assoc]
    rw [drop_left' first]
  rw [Memory.cargv, Memory.clamp_ofNat (by omega), pointers]
  exact vector_ptrs args (by omega) strings (by omega) _

theorem writeAt_room {m m' : Memory} {b : Bytes} (written : m.writeAt start b = some m') :
    start + b.length ≤ m.size ∧ m'.size = m.size := by
  rw [Memory.writeAt] at written
  split_ifs at written with fits
  cases written
  exact ⟨fits, Memory.overwrite_length fits⟩

theorem usize_pos {p : Word} (above : 0 ≤ p.toInt) : usize p = p.toNat := by
  have plain : p.msb = false := by
    rw [BitVec.msb_eq_toInt]
    simpa using above
  rw [usize, BitVec.signExtend_eq_setWidth_of_msb_false plain, BitVec.toNat_setWidth]
  exact Nat.mod_eq_of_lt (by omega)

theorem settos_room {img img' : Image} {pid tos : Word} (made : settos img pid = some (tos, img'))
    (stack : img'.sp.isSome) : usize tos + 72 ≤ img'.mem.size := by
  rw [settos] at made
  rcases sp : img.sp with _ | top
  · rw [sp] at made
    cases made
    rw [sp] at stack
    cases stack
  · rw [sp] at made
    rcases Option.bind_eq_some_iff.1 made with ⟨mem, zeros, made⟩
    rcases Option.map_eq_some_iff.1 made with ⟨mem', pids, made⟩
    cases made
    rcases writeAt_room zeros with ⟨room, same⟩
    rw [length_replicate] at room
    have same' := (writeAt_room pids).2
    dsimp only
    omega

/-- A block placed on the stack of an image. -/
structure Stacked (before after : Image) (tos argv : Word) (args : List Arg) : Prop where
  above : 0 < argv.toNat
  aligned : argv.toNat % 16 = 0
  block : Block before.mem.bytes after.mem.bytes argv.toNat
    (tos.toNat - (strs (args.map Arg.bytes)).length) tos.toNat (args.map Arg.bytes)
  exposed : after.sp = some argv
  again : after.mem.cargv argv = some (args.map Arg.text)

/-- A block placed past the end of a memory that has grown. -/
structure Past (before after : Image) (argv : Word) (args : List Arg) : Prop where
  start : argv = .ofNat 32 before.mem.size
  aligned : before.mem.size % 16 = 0
  layout : ∃ rest, after.mem.bytes = before.mem.bytes ++
    ptrs (before.mem.size + (args.length + 1) * 4) (args.map Arg.bytes) ++
      strs (args.map Arg.bytes) ++ rest
  stack : after.sp = before.sp
  again : before.mem.size + (args.length + 1) * 4 + (strs (args.map Arg.bytes)).length ≤ 2 ^ 31 →
    after.mem.cargv argv = some (args.map Arg.text)

/-- What `place` does with a `Tos`: it fails and all is as it was, or the block is placed. -/
def Places (img : Image) (tos : Word) (args : List Arg) (placed : Image → Word → Prop) : Prop :=
  place img tos (args.map Arg.bytes) = (none, img) ∨
    ∃ argv after, place img tos (args.map Arg.bytes) =
      (some (.ofNat 32 args.length, argv), after) ∧ placed after argv

theorem place_stacked {img : Image} {tos : Word} (stack : img.sp.isSome) (above : 0 < tos.toInt)
    (room : tos.toNat ≤ img.mem.size) (args : List Arg) :
    Places img tos args fun after argv => Stacked img after tos argv args := by
  have low : tos.toNat < 2 ^ 31 := by
    have value := BitVec.toInt_eq_toNat_cond tos
    split_ifs at value <;> omega
  have count : (args.map Arg.bytes).length = args.length := length_map ..
  have nbytes := strs_length (args.map Arg.bytes)
  rw [Places, place]
  simp only [← nbytes, if_pos (And.intro stack above), count]
  split_ifs with full
  · exact .inl rfl
  · right
    generalize charp_ : tos.toNat - (strs (args.map Arg.bytes)).length = charp
    generalize argv_ : (charp - (args.length + 1) * 4) / 16 * 16 = argv
    have apart : argv + ((args.map Arg.bytes).length + 1) * 4 ≤ charp := by omega
    have fits : charp + (strs (args.map Arg.bytes)).length ≤ img.mem.size := by omega
    have ends : charp + (strs (args.map Arg.bytes)).length = tos.toNat := by omega
    have same : (BitVec.ofNat 32 argv).toNat = argv := by
      rw [BitVec.toNat_ofNat]
      exact Nat.mod_eq_of_lt (by omega)
    rcases put_block { img with sp := some (.ofNat 32 argv) } apart fits with
      ⟨mem, put_, block⟩
    rw [ends] at block
    refine ⟨_, _, by rw [put_, count], ?_⟩
    constructor
    · omega
    · omega
    · rw [same, charp_]
      exact block
    · rfl
    · exact block.cargv (by rw [Memory.size] at room; exact room) (by omega)

theorem place_past {img : Image} {tos : Word} (none_ : ¬(img.sp.isSome ∧ 0 < tos.toInt))
    (args : List Arg) : Places img tos args fun after argv => Past img after argv args := by
  have count : (args.map Arg.bytes).length = args.length := length_map ..
  have nbytes := strs_length (args.map Arg.bytes)
  rw [Places, place]
  simp only [← nbytes, if_neg none_, count]
  generalize pages_ : max (((args.length + 1) * 4 + (strs (args.map Arg.bytes)).length + 65535) /
    65536) 1 = pages
  rcases grown : img.mem.grow pages img.max with _ | mem
  · exact .inl rfl
  · right
    have grown_ : mem.bytes = img.mem.bytes ++ List.replicate (65536 * pages) 0 := by
      rw [Memory.grow] at grown
      split_ifs at grown
      cases grown
      rfl
    have size : mem.size = img.mem.size + 65536 * pages := by
      rw [Memory.size, grown_, length_append, length_replicate, Memory.size]
    have apart : img.mem.size + ((args.map Arg.bytes).length + 1) * 4 ≤
        img.mem.size + (args.length + 1) * 4 := by omega
    have fits : img.mem.size + (args.length + 1) * 4 + (strs (args.map Arg.bytes)).length ≤
        mem.size := by omega
    rcases put_block { img with mem := mem } apart fits with ⟨mem', put_, block⟩
    refine ⟨_, _, by dsimp only; rw [put_, count], ?_⟩
    constructor
    · rfl
    · have whole := img.mem.whole
      rw [Memory.size]
      omega
    · refine ⟨mem.bytes.drop (img.mem.size + (args.length + 1) * 4 +
        (strs (args.map Arg.bytes)).length), ?_⟩
      have old : mem.bytes.take img.mem.size = img.mem.bytes := by
        rw [grown_]
        exact take_left' rfl
      rw [block.layout, old, count, Nat.sub_self, take_zero, append_nil]
    · rfl
    · intro low
      exact block.cargv (by rw [Memory.size] at fits; exact fits) low

theorem settos_below {img img' : Image} {pid tos : Word} (made : settos img pid = some (tos, img'))
    (stack : img'.sp.isSome) (above : 0 < tos.toInt) : tos.toNat ≤ img'.mem.size := by
  have room := settos_room made stack
  rw [usize_pos (by omega)] at room
  omega

/-- An instance is given its `Tos` or does not start; then its arguments are refused, and all is as
it was, or they are on the stack, below the `Tos` and above 0, with the stack pointer at the array,
and are read back. Where there is no stack, or no `Tos` above 0, they are past the end of the
memory. -/
theorem place_block (img : Image) (pid : Word) (args : List Arg) :
    settos img pid = none ∨ ∃ tos img', settos img pid = some (tos, img') ∧
      (img'.sp.isSome ∧ 0 < tos.toInt →
        Places img' tos args fun after argv => Stacked img' after tos argv args) ∧
      (¬(img'.sp.isSome ∧ 0 < tos.toInt) →
        Places img' tos args fun after argv => Past img' after argv args) := by
  rcases made : settos img pid with _ | ⟨tos, img'⟩
  · exact .inl rfl
  · right
    refine ⟨tos, img', rfl, ?_, fun none_ => place_past none_ args⟩
    rintro ⟨stack, above⟩
    exact place_stacked stack above (settos_below made stack above) args

def shallow : Image where
  mem := ⟨List.replicate 65536 0, by rw [length_replicate],
    by rw [length_replicate]; omega⟩
  max := 2
  sp := some 80

theorem settos_shallow : ∃ mem, settos shallow 1 = some (0, ⟨mem, 2, some 0⟩) ∧
    mem.size = 65536 := by
  have size : shallow.mem.size = 65536 := length_replicate ..
  have tos : ((80 : Word) - tossize) &&& ~~~15 = 0 := by decide
  have at_ : usize 0 = 0 ∧ usize (0 + tospid) = 48 := by decide
  rcases Memory.writeAt_some shallow.mem 0 (List.replicate 72 0)
    (by rw [size, length_replicate]; omega) with ⟨mem, zeros, -⟩
  have same := (writeAt_room zeros).2
  rcases Memory.writeAt_some mem 48 (leBytes 4 (1 : Word).toNat)
    (by rw [same, size, leBytes_length]; omega) with ⟨mem', pids, -⟩
  refine ⟨mem', ?_, by rw [(writeAt_room pids).2, same, size]⟩
  have sp : shallow.sp = some 80 := rfl
  rw [settos, sp]
  simp only [tos, at_.1, at_.2, zeros, pids, Option.bind_some, Option.map_some]
  rfl

/-- With its `Tos` at 0, an image's arguments are above it. -/
theorem place_block_fails : ∃ tos img', settos shallow 1 = some (tos, img') ∧ img'.sp = some tos ∧
    ¬Places img' tos [] fun after argv => Stacked img' after tos argv [] := by
  rcases settos_shallow with ⟨mem, made, size⟩
  refine ⟨_, _, made, rfl, ?_⟩
  rintro (failed | ⟨argv, after, -, stacked⟩)
  · have grown : ∃ mem', mem.grow 1 2 = some mem' ∧ mem'.size = 131072 := by
      rw [Memory.grow, dif_pos (by rw [Memory.size] at size; omega)]
      refine ⟨_, rfl, ?_⟩
      rw [Memory.size, length_append, length_replicate, ← Memory.size, size]
    rcases grown with ⟨mem', grown, size'⟩
    have apart : 65536 + (([] : List Bytes).length + 1) * 4 ≤ 65540 := by decide
    have fits : 65540 + (strs []).length ≤ (Image.mk mem' 2 (some 0)).mem.size := by
      rw [size']
      decide
    rcases put_block _ apart fits with ⟨mem'', put_, -⟩
    have placed : place ⟨mem, 2, some 0⟩ 0 [] = put ⟨mem', 2, some 0⟩ 65536 65540 [] := by
      simp [place, grown, size]
    rw [map_nil, placed, put_] at failed
    cases failed
  · have apart := stacked.block.apart
    simp [strs] at apart

end Ipnx.Argument
