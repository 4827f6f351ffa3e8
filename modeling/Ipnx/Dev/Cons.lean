import Ipnx.Ninep.Wire

/-!
# Files of the console device

`Cons::read` of `devcons.rs`, as far as it reads files that have a content: what each of them says,
and how much of it a read answers. An offset is within the file, as it is for who reads on from
where the last read ended. The keyboard, the generators and the directory are streams, and answer
what they have.
-/

namespace Ipnx.Cons

open List
open Ninep (utf8)

inductive Q where
  | dir | bintime | cons | consctl | cputime | drivers | hostdomain | hostowner | kmesg | kprint
  | null | osversion | pgrpid | pid | ppid | random | reboot | swap | sysname | sysstat | time
  | user | zero | config
deriving DecidableEq, Repr

def numsize : Nat := 12
def vlnumsize : Nat := 22

/-- The number at the right of `size - 1` columns, and a space. -/
def readnum (val : UInt64) (size : Nat) : Bytes :=
  let digits := (toString val.toNat).toList
  utf8 (String.ofList (List.replicate (size - 1 - digits.length) ' ' ++ digits ++ [' ']))

def name : Name.DevId → String
  | .root => "root"
  | .pipe => "pipe"
  | .srv => "srv"
  | .mnt => "mnt"
  | .proc => "proc"
  | .dup => "dup"
  | .env => "env"
  | .cons => "cons"
  | .cap => "cap"
  | .virtio9p => "virtio9p"

structure Machine where
  nsec : UInt64
  ticks : UInt64
  hz : UInt64
  drivers : List String
  mem : UInt64
  pagesize : UInt64
  used : UInt64
  config : String

structure Mach where
  cs : UInt64
  intr : UInt64
  syscall : UInt64
  load : UInt64
  period : UInt64
  avgInidle : UInt64
  avgInintr : UInt64

/-- The reading process, by the process table. -/
structure Up where
  pid : UInt32
  ppid : Option UInt32
  pgrpid : Option UInt32
  user : Option String
  cputime : List UInt64

structure Dev where
  eve : String
  hostdomain : String
  sysname : String
  kmesg : Bytes
  letters : List Name.DevId
  up : Up
  mach : Mach
  host : Machine
  /-- What a file with no content answers to a count. -/
  stream : Q → Nat → Except String Bytes

namespace Dev

variable (k : Dev)

def pct (v : UInt64) : UInt64 := if k.mach.period = 0 then 0 else v * 100 / k.mach.period

def drivers : String :=
  String.join (k.letters.map fun d => "#" ++ toString d.letter ++ " " ++ name d ++ "\n") ++
    String.join (k.host.drivers.map (· ++ "\n"))

def time : Bytes :=
  readnum (k.host.nsec / 1000000000) numsize ++
    [k.host.nsec, k.host.ticks, k.host.hz, k.host.nsec].flatMap (readnum · vlnumsize)

/-- A number's bytes, the highest first. -/
def toBeBytes (v : UInt64) : Bytes := (leBytes 8 v.toNat).reverse

def bintime : Bytes :=
  [k.host.nsec, k.host.ticks, k.host.hz, k.host.nsec].flatMap toBeBytes

def swap : String :=
  let mem := toString k.host.mem.toNat
  let used := toString k.host.used.toNat
  mem ++ " memory\n" ++ toString k.host.pagesize.toNat ++ " pagesize\n0 kernel\n" ++
    used ++ "/" ++ mem ++ " user\n0/0 swap\n" ++ used ++ "/" ++ mem ++
    " kernel malloc\n0/0 kernel draw\n"

def sysstat : Bytes :=
  [0, k.mach.cs, k.mach.intr, k.mach.syscall, 0, 0, 0, k.mach.load, k.pct k.mach.avgInidle,
    k.pct k.mach.avgInintr].flatMap (readnum · numsize) ++ utf8 "\n"

def content : Q → Option Bytes
  | .pid => some (readnum k.up.pid.toUInt64 numsize)
  | .ppid => some (readnum (k.up.ppid.getD 0).toUInt64 numsize)
  | .pgrpid => some (readnum (k.up.pgrpid.getD 0).toUInt64 numsize)
  | .cputime => some (k.up.cputime.flatMap (readnum · numsize))
  | .user => some (utf8 (k.up.user.getD ""))
  | .hostowner => some (utf8 k.eve)
  | .hostdomain => some (utf8 k.hostdomain)
  | .sysname => some (utf8 k.sysname)
  | .osversion => some (utf8 "2000")
  | .kmesg => some k.kmesg
  | .drivers => some (utf8 k.drivers)
  | .config => some (utf8 k.host.config)
  | .time => some k.time
  | .bintime => some k.bintime
  | .swap => some (utf8 k.swap)
  | .sysstat => some k.sysstat
  | .dir | .cons | .consctl | .kprint | .null | .random | .reboot | .zero => none

def eperm : String := "permission denied"

end Dev

def readstr (b : Bytes) (n off : Nat) : Bytes :=
  if b.length ≤ off then [] else (b.drop off).take (min (off + n) b.length - off)

namespace Dev

variable (k : Dev)

/-- What a file's branch makes: the numbers whole, the strings from the offset on. -/
def got (q : Q) (s : Bytes) (n off : Nat) : Bytes :=
  match q with
  | .pid | .ppid | .pgrpid | .cputime => s
  | .bintime => s.take (n - n % 8)
  | _ => readstr s n off

def read (q : Q) (n off : Nat) : Except String Bytes :=
  match k.content q with
  | some s => .ok (readstr (got q s n off) n off)
  | none =>
      match q with
      | .consctl | .reboot => .error eperm
      | .zero => .ok (List.replicate n 0)
      | .null => .ok []
      | _ => k.stream q n

/-- Reads one after another, each from where the one before it ended. -/
def reads (q : Q) : Nat → List Nat → List (Except String Bytes)
  | _, [] => []
  | off, n :: ns =>
      k.read q n off :: reads q (off + ((k.read q n off).toOption.getD []).length) ns

end Dev

def piece (s : Bytes) (n off : Nat) : Bytes := (s.drop off).take n

def pieces (s : Bytes) : Nat → List Nat → List Bytes
  | _, [] => []
  | off, n :: ns => piece s n off :: pieces s (off + (piece s n off).length) ns

/-- Where a read is answered right: a number anywhere, a string only from its start. -/
def Plain (q : Q) (s : Bytes) (n off : Nat) : Prop :=
  match q with
  | .pid | .ppid | .pgrpid | .cputime => True
  | .bintime => (off = 0 ∧ n % 8 = 0) ∨ s.length ≤ n ∨ s.length ≤ off ∨ n = 0
  | _ => off = 0 ∨ s.length ≤ off ∨ n = 0

/-- Each read is, at the place it is made at. -/
def Plains (q : Q) (s : Bytes) : Nat → List Nat → Prop
  | _, [] => True
  | off, n :: ns => Plain q s n off ∧ Plains q s (off + (piece s n off).length) ns

theorem readstr_eq (b : Bytes) (n off : Nat) : readstr b n off = piece b n off := by
  rw [readstr, piece]
  split_ifs with past
  · rw [drop_eq_nil_of_le past, take_nil]
  · rcases Nat.le_total (off + n) b.length with inside | out
    · rw [Nat.min_eq_left inside, Nat.add_sub_cancel_left]
    · rw [Nat.min_eq_right out, take_of_length_le, take_of_length_le]
      · rw [length_drop]
        omega
      · rw [length_drop]

theorem length_piece (s : Bytes) (n off : Nat) :
    (piece s n off).length = min n (s.length - off) := by
  rw [piece, length_take, length_drop]

theorem piece_take (s : Bytes) (m n off : Nat) :
    piece (s.take m) n off = piece s n off ↔
      min n (min m s.length - off) = min n (s.length - off) := by
  rw [piece, piece, drop_take, take_take, take_eq_take_iff, length_drop]
  constructor
  · intro same
    omega
  · intro same
    omega

theorem piece_zero (s : Bytes) (n : Nat) : piece s n 0 = s.take n := by
  rw [piece, drop_zero]

theorem piece_piece (s : Bytes) (n off : Nat) :
    piece (piece s n off) n off = piece s n off ↔ off = 0 ∨ s.length ≤ off ∨ n = 0 := by
  constructor
  · intro same
    have long := congrArg List.length same
    simp only [length_piece] at long
    omega
  · rintro (rfl | past | rfl)
    · rw [piece_zero, piece_zero, take_take, Nat.min_self]
    · have none_ : piece s n off = [] := by
        rw [piece, drop_eq_nil_of_le past, take_nil]
      rw [none_, piece, drop_nil, take_nil]
    · rfl

theorem length_bintime (k : Dev) : k.bintime.length = 32 := by
  simp [Dev.bintime, Dev.toBeBytes]

theorem read_iff {k : Dev} {q : Q} {s : Bytes} (is : k.content q = some s) (n off : Nat) :
    k.read q n off = .ok (piece s n off) ↔ Plain q s n off := by
  have said : k.read q n off = .ok (readstr (Dev.got q s n off) n off) := by
    unfold Dev.read
    rw [is]
  rw [said, Except.ok.injEq, readstr_eq]
  cases q with
  | pid => exact ⟨fun _ => trivial, fun _ => rfl⟩
  | ppid => exact ⟨fun _ => trivial, fun _ => rfl⟩
  | pgrpid => exact ⟨fun _ => trivial, fun _ => rfl⟩
  | cputime => exact ⟨fun _ => trivial, fun _ => rfl⟩
  | bintime =>
      have long : s.length = 32 := by
        rw [Dev.content, Option.some.injEq] at is
        rw [← is, length_bintime]
      rw [Dev.got, piece_take, Plain]
      omega
  | _ =>
      simp only [Dev.got, readstr_eq, Plain]
      exact piece_piece s n off

theorem reads_iff {k : Dev} {q : Q} {s : Bytes} (is : k.content q = some s) (ns : List Nat)
    (off : Nat) : k.reads q off ns = (pieces s off ns).map .ok ↔ Plains q s off ns := by
  induction ns generalizing off with
  | nil => exact ⟨fun _ => trivial, fun _ => rfl⟩
  | cons n ns ih =>
      rw [Dev.reads, pieces, Plains, map_cons, List.cons.injEq, read_iff is]
      apply and_congr_right
      intro plain
      rw [(read_iff is n off).2 plain]
      exact ih (off + (piece s n off).length)

theorem drop_length_take (l : Bytes) (n : Nat) : l.drop (l.take n).length = l.drop n := by
  rw [length_take]
  rcases Nat.le_total n l.length with inside | past
  · rw [Nat.min_eq_left inside]
  · rw [Nat.min_eq_right past, drop_length, drop_eq_nil_of_le past]

theorem pieces_flatten (s : Bytes) (ns : List Nat) (off : Nat) :
    (pieces s off ns).flatten = piece s ns.sum off := by
  induction ns generalizing off with
  | nil => rfl
  | cons n ns ih =>
      rw [pieces, flatten_cons, ih, sum_cons, piece, piece, piece, take_add,
        ← drop_drop, drop_length_take]

/-- The reads of a file give it in pieces just when each is made where its branch does not take the
offset a second time. -/
theorem cons_reads (k : Dev) (q : Q) (s : Bytes) (is : k.content q = some s) (ns : List Nat) :
    (k.reads q 0 ns = (pieces s 0 ns).map .ok ↔ Plains q s 0 ns) ∧
      (pieces s 0 ns).flatten = s.take ns.sum := by
  refine ⟨reads_iff is ns 0, ?_⟩
  rw [pieces_flatten, piece_zero]

def quiet : Dev :=
  { eve := "kitty", hostdomain := "", sysname := "ipnx", kmesg := [], letters := []
    up := ⟨7, some 1, some 1, some "kitty", [0, 0, 0, 0, 0, 0]⟩
    mach := ⟨0, 0, 0, 0, 0, 0, 0⟩
    host := ⟨0, 0, 0, [], 0, 0, 0, ""⟩
    stream := fun _ _ => .ok [] }

theorem cons_reads_pid :
    quiet.content .pid = some (readnum 7 numsize) ∧
      (quiet.reads .pid 0 [5, 5, 5] = (pieces (readnum 7 numsize) 0 [5, 5, 5]).map .ok ↔
        Plains .pid (readnum 7 numsize) 0 [5, 5, 5]) :=
  ⟨rfl, (cons_reads quiet .pid (readnum 7 numsize) rfl [5, 5, 5]).1⟩

/-- `osversion`, two bytes at a time: its `00` is never given. -/
theorem cons_reads_fails :
    quiet.content .osversion = some (utf8 "2000") ∧
      quiet.reads .osversion 0 [2, 2] ≠ (pieces (utf8 "2000") 0 [2, 2]).map .ok := by
  decide

end Ipnx.Cons
