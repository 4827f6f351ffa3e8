import Ipnx.Host.Looks
import Ipnx.Host.Oscmd
import Ipnx.Lib.Pages
import Ipnx.Mnt.Rdwr
import Ipnx.Ninep.Listing

/-!
# Reading the directories of the host's servers

Reads of a directory that does not change, each from where the last one ended: of the file server,
which packs whole entries, and of the commands' server, which cuts its listing at the count.
-/

namespace Ipnx.Host

open List
open Ipnx.Ninep (W R Msg T Dir)

/-- Reads one after another, each from where the last ended; an error moves nothing. -/
def treads {σ : Type} (tread : σ → UInt64 → UInt32 → Option Bytes × σ) :
    σ → UInt64 → List UInt32 → List (Option Bytes)
  | _, _, [] => []
  | s, off, n :: ns =>
      let r := tread s off n
      r.1 :: treads tread r.2 (off + .ofNat (r.1.getD []).length) ns

/-- The answers are the entries in turn, each whole and none twice, one with no bytes at the end
only and an error only where the next entry does not fit; after one with no bytes every entry
was given. -/
structure Exact (left : List Dir) (ns : List UInt32) (answers : List (Option Bytes)) : Prop where
  paged : Paged Dir.convD2M left (ns.map UInt32.toNat) answers
  whole : some [] ∈ answers → answers.reduceOption.flatten = left.flatMap Dir.convD2M

theorem exact_iff {left : List Dir} {ns : List UInt32} {answers : List (Option Bytes)} :
    Exact left ns answers ↔ Paged Dir.convD2M left (ns.map UInt32.toNat) answers :=
  ⟨Exact.paged, fun paged => ⟨paged, paged.whole Dir.convD2M_ne_nil⟩⟩

theorem paged_treads {σ : Type} {read : σ → UInt64 → UInt32 → Option Bytes × σ} {s : σ}
    {ds : List Dir} {room : List Dir → Nat → Prop} (got : List Dir → Nat → Bytes)
    (fits : (ds.flatMap Dir.convD2M).length < 2 ^ 64)
    (answer : ∀ taken left off n, ds = taken ++ left →
      UInt64.toNat off = (taken.flatMap Dir.convD2M).length →
        read s off n = (some (got left n.toNat), s))
    (paged : ∀ left n ns pages, Paged Dir.convD2M left (n :: ns) (some (got left n) :: pages) ↔
      room left n ∧ Paged Dir.convD2M (left.drop (packs Dir.convD2M n left).length) ns pages)
    (packed : ∀ left n, room left n →
      got left n = (packs Dir.convD2M n left).flatMap Dir.convD2M)
    {taken left : List Dir} (whole : ds = taken ++ left) (ns : List UInt32) :
    Paged Dir.convD2M left (ns.map UInt32.toNat)
        (treads read s (.ofNat (taken.flatMap Dir.convD2M).length) ns) ↔
      Along Dir.convD2M room left (ns.map UInt32.toNat) := by
  induction ns generalizing taken left with
  | nil => exact Iff.rfl
  | cons n ns ih =>
      have total := congrArg (fun ds => (ds.flatMap Dir.convD2M).length) whole
      rw [flatMap_append, length_append] at total
      have off : (UInt64.ofNat (taken.flatMap Dir.convD2M).length).toNat =
          (taken.flatMap Dir.convD2M).length :=
        UInt64.toNat_ofNat_of_lt' (by rw [UInt64.size]; omega)
      rw [treads, answer taken left _ n whole off, map_cons, paged, Along]
      refine and_congr_right fun fit => ?_
      have after : UInt64.ofNat (taken.flatMap Dir.convD2M).length + .ofNat
          (got left n.toNat).length =
          .ofNat ((taken ++ packs Dir.convD2M n.toNat left).flatMap Dir.convD2M).length := by
        rw [packed left _ fit, flatMap_append, length_append, UInt64.ofNat_add]
      have split_ : ds = (taken ++ packs Dir.convD2M n.toNat left) ++
          left.drop (packs Dir.convD2M n.toNat left).length := by
        rw [whole, append_assoc, packs_append]
      dsimp only [Option.getD_some]
      rw [after, ih split_]

namespace Store

variable {B : Type} {k : Backend B} {s : Store B}

/-- A `Tread`, and what its `Rread` brings. -/
def tread (k : Backend B) (fid : UInt32) (s : Store B) (off : UInt64) (n : UInt32) :
    Option Bytes × Store B :=
  let r := (serve k ⟨T.read.code, 0, (Rdwr.ask fid off n).body⟩).exec s
  (r.1.toOption.map fun a => a.2.body.drop 4, r.2)

def entryOf (s : Store B) (name : String) (md : Meta) : Dir where
  dtype := 0x39
  dev := 0
  qid := stat2qid md
  mode := plan9mode md
  atime := md.atime
  mtime := md.mtime
  length := md.len
  name := name
  uid := s.uname
  gid := s.uname
  muid := s.uname

/-- A directory's entries, in the order of their names. What is listed and is not there has
none. -/
def listing (k : Backend B) (s : Store B) (path : Path) : List Dir :=
  ((k.list s.files path).1.mergeSort fun a b => decide (a ≤ b)).filterMap fun name =>
    (found k s (path.join (.new name))).map (entryOf s name)

/-- The loop of a directory's read, over its entries. -/
def fill (off count : Nat) : List Dir → Nat → Bytes → Bytes
  | [], _, out => out
  | d :: ds, at_, out =>
      if at_ < off then fill off count ds (at_ + d.convD2M.length) out
      else if count < out.length + d.convD2M.length then out
      else fill off count ds at_ (out ++ d.convD2M)

theorem exec_dirof (looks : k.Looks) (s : Store B) (rel : Path) (name : String) :
    (dirof k rel name).exec s = (.ok ((found k s rel).map (entryOf s name)), s) := by
  rw [dirof, Prog.exec_bind_ok (exec_stat looks s rel)]
  rcases found k s rel with _ | md
  · rfl
  · rfl

theorem exec_entries (looks : k.Looks) (s : Store B) (path : Path) (off : UInt64) (count : UInt32)
    (names : List String) (at_ : Nat) (out : Bytes) :
    (entries k path off count names at_ out).exec s =
      (.ok (fill off.toNat count.toNat (names.filterMap fun name =>
        (found k s (path.join (.new name))).map (entryOf s name)) at_ out), s) := by
  induction names generalizing at_ out with
  | nil => rfl
  | cons name names ih =>
      rw [entries, Prog.exec_bind_ok (exec_dirof looks s _ name), filterMap_cons]
      rcases found k s (path.join (.new name)) with _ | md
      · exact ih at_ out
      · dsimp only [Option.map_some]
        rw [fill]
        split_ifs
        · exact ih _ out
        · rfl
        · exact ih at_ _

theorem fill_taken {taken left : List Dir} {off count at_ : Nat}
    (there : at_ + (taken.flatMap Dir.convD2M).length = off) :
    fill off count (taken ++ left) at_ [] = fill off count left off [] := by
  induction taken generalizing at_ with
  | nil =>
      rw [flatMap_nil, length_nil] at there
      rw [nil_append, ← there, Nat.add_zero]
  | cons d ds ih =>
      have long := length_pos_iff.2 d.convD2M_ne_nil
      rw [flatMap_cons, length_append] at there
      rw [cons_append, fill, if_pos (by omega), ih (by omega)]

theorem fill_left {left : List Dir} {off count : Nat} {out : Bytes} (short : out.length ≤ count) :
    fill off count left off out =
      out ++ (packs Dir.convD2M (count - out.length) left).flatMap Dir.convD2M := by
  induction left generalizing out with
  | nil => rw [fill, packs, flatMap_nil, append_nil]
  | cons d ds ih =>
      rw [fill, if_neg (Nat.lt_irrefl off), packs]
      by_cases big : count < out.length + d.convD2M.length
      · rw [if_pos big, if_pos (by omega), flatMap_nil, append_nil]
      · rw [if_neg big, if_neg (by omega), ih (by rw [length_append]; omega),
          flatMap_cons, length_append, append_assoc, Nat.sub_sub]

theorem exec_contents (looks : k.Looks) (s : Store B) (path : Path) (off : UInt64)
    (count : UInt32) : (contents k path true off count).exec s =
      (.ok (fill off.toNat count.toNat (listing k s path) 0 []), s) := by
  have listed : (ask (k.list · path)).exec s = (.ok (k.list s.files path).1, s) := by
    have same : { s with files := (k.list s.files path).2 } = s := by rw [looks.list]
    exact congrArg (Prod.mk _) same
  rw [contents, if_pos rfl, Prog.exec_bind_ok listed, exec_entries looks, listing]

theorem askArgs_body (fid : UInt32) (off : UInt64) (n : UInt32) :
    Rdwr.askArgs.on (Rdwr.ask fid off n).body = (some (fid, off, n), []) := by
  have read := Rdwr.askArgs_ask fid off n []
  rw [W.raw, append_nil] at read
  exact read

theorem tread_fill (looks : k.Looks) {fid : UInt32} {f : Fid} {md : Meta}
    (there : s.fids fid = some f) (here : found k s f.path = some md) (dir : md.dir = true)
    (off : UInt64) (n : UInt32) :
    tread k fid s off n = (some (fill off.toNat n.toNat (listing k s f.path) 0 []), s) := by
  have ends : Prog.Ends (serve k ⟨T.read.code, 0, (Rdwr.ask fid off n).body⟩) s
      (fun a s' => a.2.body.drop 4 = fill off.toNat n.toNat (listing k s f.path) 0 [] ∧ s' = s)
      fun _ _ => False := by
    rw [serve_read rfl]
    apply Prog.Ends.bind
    apply ends_parsed (askArgs_body fid off n)
    apply Prog.Ends.bind
    apply ends_known there
    apply Prog.Ends.bind
    apply ends_here looks here
    apply Prog.Ends.bind
    rw [dir, Prog.Ends, exec_contents looks]
    apply Prog.ends_pure
    refine ⟨?_, rfl⟩
    simp [W.new, W.u32, W.raw]
  rw [Prog.Ends] at ends
  rw [tread]
  rcases ran : (serve k ⟨T.read.code, 0, (Rdwr.ask fid off n).body⟩).exec s with ⟨e | a, s'⟩ <;>
    rw [ran] at ends
  · exact absurd ends not_false
  · rw [ends.2, ← ends.1]
    rfl

theorem treads_exact (looks : k.Looks) {fid : UInt32} {f : Fid} {md : Meta}
    (there : s.fids fid = some f) (here : found k s f.path = some md) (dir : md.dir = true)
    {taken left : List Dir} (whole : listing k s f.path = taken ++ left)
    (fits : ((listing k s f.path).flatMap Dir.convD2M).length < 2 ^ 64) (ns : List UInt32) :
    Paged Dir.convD2M left (ns.map UInt32.toNat)
        (treads (tread k fid) s (.ofNat (taken.flatMap Dir.convD2M).length) ns) ↔
      Along Dir.convD2M (Room Dir.convD2M) left (ns.map UInt32.toNat) := by
  apply paged_treads (fun left n => (packs Dir.convD2M n left).flatMap Dir.convD2M) fits
  · intro taken left off n whole there'
    rw [tread_fill looks there here dir, there', whole, fill_taken (by rw [Nat.zero_add]),
      fill_left (Nat.zero_le _)]
    rfl
  · exact fun left n ns pages => paged_packs Dir.convD2M_ne_nil
  · exact fun left n room => rfl
  · exact whole

end Store

namespace Oscmd.State

def treadAt (tag : UInt16) (fid : UInt32) (s : State) (off : UInt64) (n : UInt32) :
    Option Bytes × State :=
  match s.tread tag fid off n with
  | (some (.read b), _, s) => (some b, s)
  | (_, _, s) => (none, s)

/-- The entries of a conversation's directory. -/
def listing (s : State) (conv : UInt32) : List Dir := [Q.data, .stderr, .wait].map (s.dirof conv)

theorem treadAt_eq {s : State} {tag : UInt16} {fid : UInt32} {f : Fid} {mode : UInt8}
    (there : s.fids.find fid = some f) (isOpen : f.mode = some mode) (dir : f.q = .dir)
    (off : UInt64) (n : UInt32) : s.treadAt tag fid off n =
      (some (extent ((s.listing f.conv).flatMap Dir.convD2M) off.toNat n.toNat), s) := by
  have listed : ([Q.data, .stderr, .wait].map fun q => (s.dirof f.conv q).convD2M).flatten =
      (s.listing f.conv).flatMap Dir.convD2M := by
    rw [listing, flatMap_map, List.flatMap]
  rw [treadAt, State.tread, there]
  simp only [isOpen, dir, listed]
  rw [← extent_min]
  rfl

theorem treads_exact {s : State} {tag : UInt16} {fid : UInt32} {f : Fid} {mode : UInt8}
    (there : s.fids.find fid = some f) (isOpen : f.mode = some mode) (dir : f.q = .dir)
    {taken left : List Dir} (whole : s.listing f.conv = taken ++ left)
    (fits : ((s.listing f.conv).flatMap Dir.convD2M).length < 2 ^ 64) (ns : List UInt32) :
    Paged Dir.convD2M left (ns.map UInt32.toNat)
        (treads (treadAt tag fid) s (.ofNat (taken.flatMap Dir.convD2M).length) ns) ↔
      Along Dir.convD2M (Even Dir.convD2M) left (ns.map UInt32.toNat) := by
  apply paged_treads (fun left n => (left.flatMap Dir.convD2M).take n) fits
  · intro taken left off n whole there'
    rw [treadAt_eq there isOpen dir, there', whole, flatMap_append, extent, drop_left]
  · exact fun left n ns pages => paged_take Dir.convD2M_ne_nil
  · exact fun left n even => take_of_even even
  · exact whole

end Oscmd.State

/-- A directory of the file server's is read exactly just when each read has room for the next
entry; a conversation's just when each read asks for whole entries, and for one at least, or for
all that is left. -/
theorem directories_exact (ns : List UInt32) :
    (∀ (B : Type) (k : Backend B) (s : Store B) (fid : UInt32) (f : Fid) (md : Meta), k.Looks →
      s.fids fid = some f → Store.found k s f.path = some md → md.dir = true →
      ((Store.listing k s f.path).flatMap Dir.convD2M).length < 2 ^ 64 →
      (Exact (Store.listing k s f.path) ns (treads (Store.tread k fid) s 0 ns) ↔
        Along Dir.convD2M (Room Dir.convD2M) (Store.listing k s f.path) (ns.map UInt32.toNat))) ∧
    ∀ (s : Oscmd.State) (tag : UInt16) (fid : UInt32) (f : Oscmd.Fid) (mode : UInt8),
      s.fids.find fid = some f → f.mode = some mode → f.q = .dir →
      ((s.listing f.conv).flatMap Dir.convD2M).length < 2 ^ 64 →
      (Exact (s.listing f.conv) ns (treads (Oscmd.State.treadAt tag fid) s 0 ns) ↔
        Along Dir.convD2M (Even Dir.convD2M) (s.listing f.conv) (ns.map UInt32.toNat)) := by
  constructor
  · intro B k s fid f md looks there here dir fits
    rw [exact_iff]
    exact Store.treads_exact looks there here dir (nil_append _).symm fits ns
  · intro s tag fid f mode there isOpen dir fits
    rw [exact_iff]
    exact Oscmd.State.treads_exact there isOpen dir (nil_append _).symm fits ns

def rack : Backend Unit where
  stat _ p := (some ⟨decide (p = []), false, 0o777, 0, 0, 0, .ofNat p.length⟩, ())
  list _ _ := (["path", "user"], ())
  read _ _ _ _ := (.ok [], ())
  write _ _ _ _ := (.error "permission denied", ())
  truncate _ _ _ := (.error "permission denied", ())
  mkdir _ _ _ := (.error "permission denied", ())
  mkfile _ _ _ := (.error "permission denied", ())
  chmod _ _ _ := (.error "permission denied", ())
  touch _ _ _ := (.error "permission denied", ())
  rename _ _ _ := (.error "permission denied", ())
  remove _ _ := (.error "permission denied", ())

def racked : Store Unit := (Store.new ()).insert 0 (.walked [])

theorem rack_looks : rack.Looks := ⟨fun _ _ => rfl, fun _ _ => rfl⟩

def spoken : Oscmd.State :=
  { Oscmd.State.new fun _ => .new ⟨[], [], none, false⟩ 0 with
    fids := Keyed.empty.insert 0 ⟨0, .dir, some Oscmd.oread⟩ }

def racks : List Dir :=
  ["path", "user"].map fun name => Store.entryOf racked name ⟨false, false, 0o777, 0, 0, 0, 1⟩

theorem rack_listing : Store.listing rack racked [] = racks := by
  have sorted : (rack.list racked.files []).1.mergeSort (fun a b => decide (a ≤ b)) =
      ["path", "user"] :=
    mergeSort_of_pairwise (by decide +kernel)
  rw [Store.listing, sorted]
  decide +kernel

theorem rack_fits : ((Store.listing rack racked []).flatMap Dir.convD2M).length < 2 ^ 64 := by
  rw [rack_listing]
  decide +kernel

theorem spoken_fits : ((spoken.listing 0).flatMap Dir.convD2M).length < 2 ^ 64 := by
  decide +kernel

theorem racked_fid : racked.fids 0 = some (.walked []) := rfl

theorem spoken_fid : spoken.fids.find 0 = some ⟨0, .dir, some Oscmd.oread⟩ := by
  decide +kernel

theorem directories_exact_two :
    (Exact (Store.listing rack racked []) [60, 4096]
        (treads (Store.tread rack 0) racked 0 [60, 4096]) ↔
      Along Dir.convD2M (Room Dir.convD2M) (Store.listing rack racked []) [60, 4096]) ∧
    (Exact (spoken.listing 0) [4096] (treads (Oscmd.State.treadAt 1 0) spoken 0 [4096]) ↔
      Along Dir.convD2M (Even Dir.convD2M) (spoken.listing 0) [4096]) :=
  ⟨(directories_exact [60, 4096]).1 Unit rack racked 0 (.walked [])
      ⟨true, false, 0o777, 0, 0, 0, 0⟩ rack_looks racked_fid rfl rfl rack_fits,
    (directories_exact [4096]).2 spoken 1 0 ⟨0, .dir, some Oscmd.oread⟩ Oscmd.oread spoken_fid rfl
      rfl spoken_fits⟩

/-- A read of 20 bytes: the file server answers as at the end of the directory, and the commands'
server in the middle of an entry. -/
theorem directories_exact_fails :
    ¬Exact (Store.listing rack racked []) [20] (treads (Store.tread rack 0) racked 0 [20]) ∧
    ¬Exact (spoken.listing 0) [20] (treads (Oscmd.State.treadAt 1 0) spoken 0 [20]) := by
  constructor
  · intro exact_
    have root : Store.found rack racked [] = some ⟨true, false, 0o777, 0, 0, 0, 0⟩ := rfl
    have along := (Store.treads_exact rack_looks racked_fid root rfl (nil_append _).symm
      rack_fits [20]).1 exact_.paged
    have room : Room Dir.convD2M (Store.listing rack racked []) 20 := along.1
    rw [rack_listing] at room
    have fits := room _ rfl
    revert fits
    decide +kernel
  · intro exact_
    rcases (Oscmd.State.treads_exact spoken_fid rfl rfl (nil_append _).symm
      spoken_fits [20]).1 exact_.paged with ⟨empty | ⟨-, even⟩, -⟩
    · cases empty
    · revert even
      decide +kernel

end Ipnx.Host
