import Ipnx.Host.Listings

/-!
# The sizes of the host servers' replies

What a session agreed on is what the last `Rversion` said. A reply's bytes are counted as they go
on the wire, and an open's or a create's says how much one read or write may move.
-/

namespace Ipnx.Host

open List
open Ipnx.Ninep (W R Msg T Dir utf8)
open Prog (Ends ends_pure ends_throw ends_get ends_modify ends_ite)

/-- The reply is no longer than the size, and what it says one message may move fits in one. -/
structure Within (msize : UInt32) (b : Bytes) : Prop where
  length : b.length ≤ msize.toNat
  iounit : b[4]? = some T.open.reply ∨ b[4]? = some T.create.reply →
    ∀ n, (R.u32.on (b.drop 20)).1 = some n → n.toNat + 24 ≤ msize.toNat

/-- What is agreed on after a message and its reply: what the last `Rversion` says. -/
def agreedAfter (agreed : Option UInt32) (m : Msg) (b : Bytes) : Option UInt32 :=
  if m.ty = T.version.code then (R.u32.on (b.drop 7)).1 else agreed

/-- A server, what is agreed on, and every reply of it with what was agreed on then. -/
structure Session (S : Type) where
  server : S
  agreed : Option UInt32
  sent : List (Option UInt32 × Bytes)

namespace Session

variable {S : Type}

def new (server : S) : Session S := ⟨server, none, []⟩

def say (x : Session S) (server : S) (agreed : Option UInt32) (replies : List Bytes) : Session S :=
  ⟨server, agreed, x.sent ++ replies.map (agreed, ·)⟩

def Kept (x : Session S) : Prop := ∀ r ∈ x.sent, ∀ msize ∈ r.1, Within msize r.2

theorem Kept.say {x : Session S} (kept : x.Kept) {server : S} {agreed : Option UInt32}
    {replies : List Bytes} (within : ∀ b ∈ replies, ∀ msize ∈ agreed, Within msize b) :
    (x.say server agreed replies).Kept := by
  intro r member
  rcases mem_append.1 member with old | made
  · exact kept r old
  · rcases mem_map.1 made with ⟨b, there, rfl⟩
    exact within b there

end Session

/-- The least size that has room for every error of the servers' own. -/
def least : UInt32 := 50

/-- A text that an error's reply has room for. -/
def Short (msize : UInt32) (e : String) : Prop := (utf8 e).length + 9 ≤ msize.toNat

instance (msize : UInt32) (e : String) : Decidable (Short msize e) :=
  inferInstanceAs (Decidable (_ ≤ _))

/-- A size that has room for the servers' own errors. -/
def Roomy (msize : UInt32) : Prop := least.toNat ≤ msize.toNat

theorem Roomy.short {msize : UInt32} {e : String} (roomy : Roomy msize) (short : Short least e) :
    Short msize e :=
  Nat.le_trans short roomy

/-- A body that a reply has room for. An open's or a create's is a qid and the servers' own size of
one message's bytes, which the size agreed on must not be below. -/
structure Fits (msize : UInt32) (ty : UInt8) (w : W) : Prop where
  length : w.body.length + 7 ≤ msize.toNat
  opened : ty = T.open.reply ∨ ty = T.create.reply →
    msizeMax ≤ msize ∧ ∃ qid, w = (W.new.qid qid).u32 (msizeMax - 24)

section

variable (w : W)

@[simp]
theorem length_new : W.new.body.length = 0 := rfl

@[simp]
theorem length_raw (b : Bytes) : (w.raw b).body.length = w.body.length + b.length :=
  length_append

@[simp]
theorem length_u8 (v : UInt8) : (w.u8 v).body.length = w.body.length + 1 := by
  rw [W.u8, length_raw, leBytes_length]

@[simp]
theorem length_u16 (v : UInt16) : (w.u16 v).body.length = w.body.length + 2 := by
  rw [W.u16, length_raw, leBytes_length]

@[simp]
theorem length_u32 (v : UInt32) : (w.u32 v).body.length = w.body.length + 4 := by
  rw [W.u32, length_raw, leBytes_length]

@[simp]
theorem length_u64 (v : UInt64) : (w.u64 v).body.length = w.body.length + 8 := by
  rw [W.u64, length_raw, leBytes_length]

@[simp]
theorem length_s (v : String) : (w.s v).body.length = w.body.length + 2 + (utf8 v).length := by
  rw [W.s, length_raw, length_u16]

@[simp]
theorem length_qid (q : Name.Qid) : (w.qid q).body.length = w.body.length + 13 := by
  rw [W.qid, length_u64, length_u32, length_u8]

theorem length_qids (qids : List Name.Qid) :
    (qids.foldl W.qid w).body.length = w.body.length + 13 * qids.length := by
  induction qids generalizing w with
  | nil => rfl
  | cons q qids ih =>
      rw [foldl_cons, ih, length_qid, length_cons]
      omega

end

theorem frame_eq (w : W) (ty : UInt8) (tag : UInt16) : ∃ size,
    w.frame ty tag = leBytes 4 size ++ ([ty] ++ (leBytes 2 tag.toNat ++ w.body)) := by
  refine ⟨(UInt32.ofNat (4 + 1 + 2 + w.body.length)).toNat, ?_⟩
  rw [W.frame, append_assoc, append_assoc]

theorem frame_length (w : W) (ty : UInt8) (tag : UInt16) :
    (w.frame ty tag).length = 7 + w.body.length := by
  rcases frame_eq w ty tag with ⟨size, eq⟩
  rw [eq]
  simp only [length_append, leBytes_length, length_singleton]
  omega

theorem frame_type (w : W) (ty : UInt8) (tag : UInt16) : (w.frame ty tag)[4]? = some ty := by
  rcases frame_eq w ty tag with ⟨size, eq⟩
  rw [eq, List.getElem?_append_right (by rw [leBytes_length])]
  simp [leBytes_length]

theorem frame_drop (w : W) (ty : UInt8) (tag : UInt16) : (w.frame ty tag).drop 7 = w.body := by
  rcases frame_eq w ty tag with ⟨size, eq⟩
  have front : (leBytes 4 size ++ ([ty] ++ leBytes 2 tag.toNat)).length = 7 := by
    simp [leBytes_length]
  rw [eq, ← append_assoc, ← append_assoc, append_assoc (leBytes 4 size), ← front,
    drop_left]

section

variable {msize : UInt32} {ty : UInt8} {w : W}

theorem Fits.within (fits : Fits msize ty w) (tag : UInt16) :
    Within msize (w.frame ty tag) where
  length := by
    have room := fits.length
    rw [frame_length]
    omega
  iounit opened n read := by
    rw [frame_type, Option.some.injEq, Option.some.injEq] at opened
    rcases fits.opened opened with ⟨enough, qid, rfl⟩
    have rest : (((W.new.qid qid).u32 (msizeMax - 24)).frame ty tag).drop 20 =
        leBytes 4 (msizeMax - 24).toNat := by
      have twenty : 20 = 7 + 13 := rfl
      rw [twenty, ← drop_drop, frame_drop]
      simp [W.new, W.qid, W.u8, W.u32, W.u64, W.raw, leBytes]
    rw [rest] at read
    have same := Codec.u32.read_write (a := msizeMax - 24) trivial []
    rw [append_nil] at same
    have first : (R.u32.on (leBytes 4 (msizeMax - 24).toNat)).1 = some (msizeMax - 24) :=
      congrArg Prod.fst same
    rw [first] at read
    cases read
    have whole : (msizeMax - 24).toNat + 24 = msizeMax.toNat := by decide
    rw [whole]
    exact UInt32.le_iff_toNat_le.1 enough

theorem fits_of_length (room : w.body.length + 7 ≤ msize.toNat)
    (other : ty ≠ T.open.reply ∧ ty ≠ T.create.reply) :
    Fits msize ty w where
  length := room
  opened either := by
    rcases either with same | same
    · exact absurd same other.1
    · exact absurd same other.2

theorem Short.fits {e : String} (short : Short msize e) :
    Fits msize T.error.code (W.new.s e) := by
  apply fits_of_length _ (by decide)
  rw [Short] at short
  rw [length_s, length_new]
  omega

theorem Roomy.le (roomy : Roomy msize) : 50 ≤ msize.toNat := roomy

/-- A qid and the servers' own size, where that is not above the size agreed on. -/
theorem fits_opened (enough : msizeMax ≤ msize) (qid : Name.Qid) :
    Fits msize ty ((W.new.qid qid).u32 (msizeMax - 24)) where
  length := by
    have large := UInt32.le_iff_toNat_le.1 enough
    have own : msizeMax.toNat = 8216 := rfl
    rw [length_u32, length_qid, length_new]
    omega
  opened _ := ⟨enough, qid, rfl⟩

theorem fits_new (roomy : Roomy msize)
    (other : ty ≠ T.open.reply ∧ ty ≠ T.create.reply) :
    Fits msize ty W.new := by
  apply fits_of_length _ other
  have least := roomy.le
  rw [length_new]
  omega

theorem version_within (roomy : Roomy msize) {v : String} (named : (utf8 v).length ≤ 7)
    (tag : UInt16) :
    Within msize (((W.new.u32 msize).s v).frame T.version.reply tag) ∧
      (R.u32.on ((((W.new.u32 msize).s v).frame T.version.reply tag).drop 7)).1 = some msize := by
  refine ⟨⟨?_, ?_⟩, ?_⟩
  · have least := roomy.le
    rw [frame_length, length_s, length_u32, length_new]
    omega
  · intro either
    rw [frame_type] at either
    exact absurd either (by decide)
  · have body : ((W.new.u32 msize).s v).body =
        leBytes 4 msize.toNat ++ (leBytes 2 (UInt16.ofNat (utf8 v).length).toNat ++ utf8 v) := by
      simp [W.new, W.s, W.u16, W.u32, W.raw]
    rw [frame_drop, body]
    exact congrArg Prod.fst (Codec.u32.read_write (a := msize) trivial _)

end

namespace Store

variable {B : Type} {k : Backend B} {msize : UInt32} {s : Store B} {m : Msg} {α β : Type}

/-- A keeper whose looks change nothing, and that reads no more than it is asked. -/
structure Plain (k : Backend B) : Prop extends k.Looks where
  bytes : ∀ b p off n data, (k.read b p off n).1 = .ok data → data.length ≤ n

structure Brief (k : Backend B) (msize : UInt32) : Prop where
  read : ∀ b p off n e, (k.read b p off n).1 = .error e → Short msize e
  write : ∀ b p off data e, (k.write b p off data).1 = .error e → Short msize e
  truncate : ∀ b p len e, (k.truncate b p len).1 = .error e → Short msize e
  mkdir : ∀ b p perm e, (k.mkdir b p perm).1 = .error e → Short msize e
  mkfile : ∀ b p perm e, (k.mkfile b p perm).1 = .error e → Short msize e
  chmod : ∀ b p perm e, (k.chmod b p perm).1 = .error e → Short msize e
  touch : ∀ b p mtime e, (k.touch b p mtime).1 = .error e → Short msize e
  rename : ∀ b p q e, (k.rename b p q).1 = .error e → Short msize e
  remove : ∀ b p e, (k.remove b p).1 = .error e → Short msize e

/-- What a `Tversion` comes to has room for the servers' own errors. -/
def Offers (m : Msg) : Prop :=
  m.ty = T.version.code → Roomy (min ((R.u32.on m.body).1.getD msizeMax) msizeMax)

/-- A message, other than a `Tversion`, that a size has room for: it opens or makes a file only
where that is not below the server's own, walks by no more names than a reply has room for, reads
no more than that, and asks for no longer stat. -/
structure Moderate (k : Backend B) (msize : UInt32) (s : Store B) (m : Msg) : Prop where
  roomy : Roomy msize
  opens : m.ty = T.open.code ∨ m.ty = T.create.code → msizeMax ≤ msize
  walk : ∀ src newfid n, m.ty = T.walk.code → m.walks = some (src, newfid, n) →
    9 + 13 * n.toNat ≤ msize.toNat
  read : ∀ fid off count f md, m.ty = T.read.code →
    (Rdwr.askArgs.on m.body).1 = some (fid, off, count) → s.fids fid = some f →
    found k s f.path = some md →
    (if md.dir then
      count.toNat + 11 ≤ msize.toNat ∨
        ((listing k s f.path).flatMap Dir.convD2M).length + 11 ≤ msize.toNat
    else (min count (msizeMax - 24)).toNat + 11 ≤ msize.toNat)
  stat : ∀ fid f md, m.ty = T.stat.code → m.fid = some fid → s.fids fid = some f →
    found k s f.path = some md →
    (entryOf s (f.path.fileName.getD "/") md).convD2M.length + 9 ≤ msize.toNat

abbrev Fitting (msize : UInt32) (h : Serve B (UInt8 × W)) (s : Store B) : Prop :=
  Ends h s (fun a _ => Fits msize a.1 a.2) fun e _ => Short msize e

theorem ends_reply {ty : UInt8} {w : W} (fits : Fits msize ty w) :
    Fitting msize (pure (ty, w) : Serve B _) s :=
  ends_pure fits

theorem part {h : Serve B α} {f : α → Serve B β} {P : α → Prop} {G : β → Store B → Prop}
    (first : Ends h s (fun a _ => P a) fun e _ => Short msize e)
    (rest : ∀ a s', P a → Ends (f a) s' G fun e _ => Short msize e) :
    Ends (h >>= f) s G fun e _ => Short msize e := by
  apply Ends.bind
  exact first.mono (fun a s' holds => rest a s' holds) fun _ _ short => short

theorem short_parse {r : R α} {b : Bytes} {e : String} (short : Short msize e) :
    Ends (parse r b e) s (fun a _ => r.on b = (some a.1, a.2)) fun e _ => Short msize e := by
  apply ends_parse
  · intro a rest read
    exact read
  · exact short

theorem short_lookup (roomy : Roomy msize) {fid : UInt32} :
    Ends (lookup fid) s (fun f _ => s.fids fid = some f) fun e _ => Short msize e := by
  apply ends_lookup
  · intro f there
    exact there
  · exact roomy.short (by decide)

theorem short_must {call : B → Except String α × B} {P : α → Prop}
    (ok : ∀ b a, (call b).1 = .ok a → P a) (short : ∀ b e, (call b).1 = .error e → Short msize e) :
    Ends (must call) s (fun a _ => P a) fun e _ => Short msize e := by
  apply Ends.bind
  apply Ends.get
  apply Ends.modify
  apply ends_pure
  rcases called : (call s.files).1 with e | a
  · exact ends_throw (short s.files e called)
  · exact ends_pure (ok s.files a called)

theorem short_done {call : B → Except String Unit × B}
    (short : ∀ b e, (call b).1 = .error e → Short msize e) :
    Ends (must call) s (fun _ _ => True) fun e _ => Short msize e :=
  short_must (fun _ _ _ => trivial) short

theorem short_refuse {c : Prop} [Decidable c] {e : String} (short : Short msize e) :
    Ends (refuse c e : Serve B _) s (fun _ _ => True) fun e _ => Short msize e := by
  apply ends_ite
  · intro _
    exact ends_throw short
  · intro _
    exact ends_pure trivial

theorem short_onlyIf {c : Prop} [Decidable c] {h : Serve B Unit}
    (done : Ends h s (fun _ _ => True) fun e _ => Short msize e) :
    Ends (onlyIf c h) s (fun _ _ => True) fun e _ => Short msize e := by
  apply ends_ite
  · intro _
    exact done
  · intro _
    exact ends_pure trivial

theorem short_statOr (looks : k.Looks) {rel : Path} {e : String} (short : Short msize e) :
    Ends (statOr k rel e) s (fun md _ => found k s rel = some md) fun e _ => Short msize e := by
  apply ends_statOr looks
  · intro md here
    exact here
  · intro _
    exact short

section Looks

variable (looks : k.Looks) (roomy : Roomy msize)

include looks roomy

theorem attach_fits (b : Bytes) : Fitting msize (attach k b) s := by
  apply part (short_parse (roomy.short (by decide)))
  rintro ⟨fid, rest⟩ s₁ -
  apply Ends.modify
  apply Ends.modify
  apply part (short_statOr looks (roomy.short (by decide)))
  rintro md s₂ -
  apply ends_reply
  apply fits_of_length _ (by decide)
  have least := roomy.le
  rw [length_qid, length_new]
  omega

theorem walkNames_fits (n : Nat) (at_ : Path) (qids : List Name.Qid) (b : Bytes) :
    Ends (walkNames k n at_ qids b) s (fun r _ => r.2.length ≤ qids.length + n)
      fun e _ => Short msize e := by
  induction n generalizing at_ qids b s with
  | zero => exact ends_pure le_rfl
  | succ n ih =>
      apply part (short_parse (roomy.short (by decide)))
      rintro ⟨name, rest⟩ s₁ -
      apply Ends.bind
      rw [Ends, exec_stat looks]
      rcases found k s₁ (at_.join (.new name)) with _ | md
      · exact ends_pure (Nat.le_add_right _ _)
      · apply (ih _ _ _).mono
        · intro r s₂ few
          rw [length_append, length_singleton] at few
          omega
        · intro e s₂ short
          exact short

theorem walk_fits {b : Bytes} (few : ∀ src newfid n,
    (Msg.walkArgs.on b).1 = some (src, newfid, n) → 9 + 13 * n.toNat ≤ msize.toNat) :
    Fitting msize (walk k b) s := by
  apply part (short_parse (roomy.short (by decide)))
  rintro ⟨⟨src, newfid, n⟩, rest⟩ s₁ parsed
  have room := few src newfid n (congrArg Prod.fst parsed)
  apply part (short_lookup roomy)
  rintro start s₂ -
  apply part (walkNames_fits looks roomy _ _ _ _)
  rintro ⟨at_, qids⟩ s₃ count
  apply part (short_refuse (roomy.short (by decide)))
  rintro _ s₄ -
  apply part (short_onlyIf (ends_modify trivial))
  rintro _ s₅ -
  apply ends_reply
  apply fits_of_length _ (by decide)
  rw [length_qids, length_u16, length_new]
  rw [length_nil, Nat.zero_add] at count
  dsimp only at count
  omega

theorem topen_fits (enough : msizeMax ≤ msize) (b : Bytes) : Fitting msize (topen k b) s := by
  apply part (short_parse (roomy.short (by decide)))
  rintro ⟨⟨fid, mode⟩, rest⟩ s₁ -
  apply part (short_lookup roomy)
  rintro f s₂ -
  apply Ends.modify
  apply part (short_statOr looks (roomy.short (by decide)))
  rintro md s₃ -
  apply part (short_onlyIf (tell_ends trivial))
  rintro _ s₄ -
  exact ends_reply (fits_opened enough _)

end Looks

theorem create_fits (looks : k.Looks) (brief : Brief k msize) (roomy : Roomy msize)
    (enough : msizeMax ≤ msize) (b : Bytes) : Fitting msize (create k b) s := by
  apply part (short_parse (roomy.short (by decide)))
  rintro ⟨⟨fid, name, perm, mode⟩, rest⟩ s₁ -
  apply part (short_lookup roomy)
  rintro dir s₂ -
  rcases real (dir.path.join (.new name)) with _ | next
  · exact ends_throw (roomy.short (by decide))
  apply Ends.bind
  rw [Ends, exec_stat looks]
  have made (parent : Option Meta) : Ends (make k next perm
      (created perm ((parent.map Meta.perm).getD 0o777))) s₂ (fun _ _ => True)
      fun e _ => Short msize e := by
    apply ends_ite
    · intro _
      exact short_done fun b => brief.mkdir b next _
    · intro _
      exact short_done fun b => brief.mkfile b next _
  apply part (made _)
  rintro _ s₃ -
  apply part (short_statOr looks (roomy.short (by decide)))
  rintro md s₄ -
  apply Ends.modify
  exact ends_reply (fits_opened enough _)

theorem length_fill_le (off count : Nat) (ds : List Dir) (at_ : Nat) (out : Bytes) :
    (fill off count ds at_ out).length ≤ max out.length count ∧
      (fill off count ds at_ out).length ≤ out.length + (ds.flatMap Dir.convD2M).length := by
  induction ds generalizing at_ out with
  | nil => exact ⟨Nat.le_max_left _ _, Nat.le_add_right _ _⟩
  | cons d ds ih =>
      rw [flatMap_cons, length_append, fill]
      split_ifs with before big
      · have rest := ih (at_ + d.convD2M.length) out
        omega
      · omega
      · have rest := ih at_ (out ++ d.convD2M)
        rw [length_append] at rest
        omega

theorem read_fits (plain : Plain k) (brief : Brief k msize) (roomy : Roomy msize) {b : Bytes}
    (few : ∀ fid off count f md, (Rdwr.askArgs.on b).1 = some (fid, off, count) →
      s.fids fid = some f → found k s f.path = some md →
      (if md.dir then
        count.toNat + 11 ≤ msize.toNat ∨
          ((listing k s f.path).flatMap Dir.convD2M).length + 11 ≤ msize.toNat
      else (min count (msizeMax - 24)).toNat + 11 ≤ msize.toNat)) :
    Fitting msize (read k b) s := by
  have looks := plain.toLooks
  apply Ends.bind
  apply ends_parse _ (roomy.short (by decide))
  rintro ⟨fid, off, count⟩ rest parsed
  apply Ends.bind
  apply ends_lookup _ (roomy.short (by decide))
  intro f there
  apply Ends.bind
  apply ends_statOr looks _ fun _ => roomy.short (by decide)
  intro md here
  have room := few fid off count f md (congrArg Prod.fst parsed) there here
  have data : Ends (contents k f.path md.dir off count) s
      (fun data _ => data.length + 11 ≤ msize.toNat) fun e _ => Short msize e := by
    rcases dir : md.dir with _ | _ <;> rw [dir] at room
    · rw [if_neg (by decide)] at room
      rw [contents, if_neg (by decide)]
      apply short_must
      · intro b data read
        have most := plain.bytes b f.path off _ data read
        omega
      · intro b e failed
        exact brief.read b f.path off _ e failed
    · rw [if_pos rfl] at room
      rw [Ends, exec_contents looks]
      have most := length_fill_le off.toNat count.toNat (listing k s f.path) 0 []
      rw [length_nil] at most
      dsimp only
      omega
  apply part data
  intro data s' room
  apply ends_reply
  apply fits_of_length _ (by decide)
  rw [length_raw, length_u32, length_new]
  omega

theorem write_fits (brief : Brief k msize) (roomy : Roomy msize) (b : Bytes) :
    Fitting msize (write k b) s := by
  apply part (short_parse (roomy.short (by decide)))
  rintro ⟨⟨fid, off, count⟩, rest⟩ s₁ -
  apply part (short_lookup roomy)
  rintro f s₂ -
  apply part (short_refuse (roomy.short (by decide)))
  rintro _ s₃ -
  apply part (short_done fun b => brief.write b f.path off _)
  rintro _ s₄ -
  apply ends_reply
  apply fits_of_length _ (by decide)
  have least := roomy.le
  rw [length_u32, length_new]
  omega

theorem tstat_fits (looks : k.Looks) (roomy : Roomy msize) {b : Bytes}
    (few : ∀ fid f md, (R.u32.on b).1 = some fid → s.fids fid = some f →
      found k s f.path = some md →
      (entryOf s (f.path.fileName.getD "/") md).convD2M.length + 9 ≤ msize.toNat) :
    Fitting msize (tstat k b) s := by
  apply Ends.bind
  apply ends_parse _ (roomy.short (by decide))
  intro fid rest parsed
  apply Ends.bind
  apply ends_lookup _ (roomy.short (by decide))
  intro f there
  apply Ends.bind
  rw [Ends, exec_dirof looks]
  rcases here : found k s f.path with _ | md
  · exact ends_throw (roomy.short (by decide))
  · have room := few fid f md (congrArg Prod.fst parsed) there here
    apply ends_reply
    apply fits_of_length _ (by decide)
    rw [length_raw, length_u16, length_new]
    omega

theorem renamed_short (brief : Brief k msize) (roomy : Roomy msize) (fid : UInt32) (path : Path)
    (name : String) :
    Ends (renamed k fid path name) s (fun _ _ => True) fun e _ => Short msize e := by
  apply ends_ite
  · intro _
    exact ends_pure trivial
  intro _
  rcases real (path.withFileName name) with _ | new
  · exact ends_throw (roomy.short (by decide))
  apply ends_ite
  · intro _
    exact ends_pure trivial
  intro _
  apply part (short_done fun b => brief.rename b path new)
  rintro _ s₁ -
  apply Ends.modify
  exact ends_pure trivial

theorem wstat_fits (looks : k.Looks) (brief : Brief k msize) (roomy : Roomy msize) (b : Bytes) :
    Fitting msize (wstat k b) s := by
  apply part (short_parse (roomy.short (by decide)))
  rintro ⟨⟨fid, n⟩, rest⟩ s₁ -
  dsimp only
  rcases Ninep.Dir.convM2D (rest.take n.toNat) with _ | d
  · exact ends_throw (roomy.short (by decide))
  apply part (short_lookup roomy)
  rintro f s₂ -
  apply part (short_statOr looks (roomy.short (by decide)))
  rintro md s₃ -
  apply part (short_refuse (roomy.short (by decide)))
  rintro _ s₄ -
  apply part (short_refuse (roomy.short (by decide)))
  rintro _ s₅ -
  apply part (short_onlyIf (short_done fun b => brief.chmod b f.path _))
  rintro _ s₆ -
  apply part (short_onlyIf (short_done fun b => brief.touch b f.path _))
  rintro _ s₇ -
  apply part (renamed_short brief roomy fid f.path d.name)
  rintro path s₈ -
  apply part (short_onlyIf (short_done fun b => brief.truncate b path _))
  rintro _ s₉ -
  exact ends_reply (fits_new roomy (by decide))

theorem clunk_fits (roomy : Roomy msize) (b : Bytes) : Fitting msize (clunk k b) s := by
  apply Ends.get
  rcases (R.u32.on b).1 with _ | fid
  · exact ends_reply (fits_new roomy (by decide))
  apply Ends.modify
  have let_go (o : Option Fid) {s : Store B} :
      Ends (letgo k o) s (fun _ _ => True) fun e _ => Short msize e := by
    rcases o with _ | f
    · exact ends_pure trivial
    · exact short_onlyIf (tell_ends trivial)
  apply part (let_go _)
  rintro _ s₁ -
  exact ends_reply (fits_new roomy (by decide))

theorem remove_fits (brief : Brief k msize) (roomy : Roomy msize) (b : Bytes) :
    Fitting msize (remove k b) s := by
  apply part (short_parse (roomy.short (by decide)))
  rintro ⟨fid, rest⟩ s₁ -
  apply part (short_lookup roomy)
  rintro f s₂ -
  apply Ends.modify
  apply part (short_done fun b => brief.remove b f.path)
  rintro _ s₃ -
  exact ends_reply (fits_new roomy (by decide))

theorem serve_fits (plain : Plain k) (brief : Brief k msize) (moderate : Moderate k msize s m)
    (other : m.ty ≠ T.version.code) : Fitting msize (serve k m) s := by
  have looks := plain.toLooks
  have roomy := moderate.roomy
  apply ends_ite
  · exact fun ty => absurd ty other
  intro _
  apply ends_ite
  · exact fun _ => ends_throw (roomy.short (by decide))
  intro _
  apply ends_ite
  · exact fun _ => attach_fits looks roomy m.body
  intro _
  apply ends_ite
  · exact fun ty => walk_fits looks roomy fun src newfid n => moderate.walk src newfid n ty
  intro _
  apply ends_ite
  · exact fun ty => topen_fits looks roomy (moderate.opens (.inl ty)) m.body
  intro _
  apply ends_ite
  · exact fun ty => create_fits looks brief roomy (moderate.opens (.inr ty)) m.body
  intro _
  apply ends_ite
  · exact fun ty => read_fits plain brief roomy fun fid off count f md =>
      moderate.read fid off count f md ty
  intro _
  apply ends_ite
  · exact fun _ => write_fits brief roomy m.body
  intro _
  apply ends_ite
  · exact fun ty => tstat_fits looks roomy fun fid f md => moderate.stat fid f md ty
  intro _
  apply ends_ite
  · exact fun _ => wstat_fits looks brief roomy m.body
  intro _
  apply ends_ite
  · exact fun _ => ends_reply (fits_new roomy (by decide))
  intro _
  apply ends_ite
  · exact fun _ => clunk_fits roomy m.body
  intro _
  apply ends_ite
  · exact fun _ => remove_fits brief roomy m.body
  intro _
  exact ends_throw (roomy.short (by decide))

theorem exec_version (b : Bytes) (s : Store B) : ∃ v, (utf8 v).length ≤ 7 ∧
    (version b).exec s = (.ok (T.version.reply,
      (W.new.u32 (min ((R.u32.on b).1.getD msizeMax) msizeMax)).s v), s) := by
  rcases read : R.u32.on b with ⟨_ | offered, rest⟩
  · refine ⟨_, ?_, by rw [version, read]; rfl⟩
    split_ifs <;> decide
  · refine ⟨_, ?_, by rw [version, read]; rfl⟩
    split_ifs <;> decide

/-- Where a message keeps to the size agreed on so does its reply; and so does one that agrees on a
size, if that has room for the servers' errors. -/
theorem rpc_within (plain : Plain k) {t b : Bytes} {agreed : Option UInt32}
    (framed : Ninep.unframe t = some m) (offers : Offers m)
    (moderate : m.ty ≠ T.version.code → ∀ msize ∈ agreed, Brief k msize ∧ Moderate k msize s m)
    (replied : (rpc k s t).1 = .ok b) : ∀ msize ∈ agreedAfter agreed m b, Within msize b := by
  rw [rpc, framed] at replied
  cases replied
  intro msize known
  by_cases ty : m.ty = T.version.code
  · rcases exec_version m.body s with ⟨v, named, ran⟩
    rw [agreedAfter, if_pos ty] at known
    rw [serve_version ty, ran] at known ⊢
    have made := version_within (offers ty) named m.tag
    cases made.2.symm.trans known
    exact made.1
  · rw [agreedAfter, if_neg ty] at known
    rcases moderate ty msize known with ⟨brief, moderate⟩
    have fits := serve_fits plain brief moderate ty
    rw [Fitting, Ends] at fits
    rcases ran : (serve k m).exec s with ⟨e | a, s'⟩ <;> rw [ran] at fits
    · exact fits.fits.within m.tag
    · exact fits.within m.tag

def talk (k : Backend B) (x : Session (Store B)) (t : Bytes) : Session (Store B) :=
  let r := rpc k x.server t
  match r.1, Ninep.unframe t with
  | .ok b, some m => x.say r.2 (agreedAfter x.agreed m b) [b]
  | _, _ => { x with server := r.2 }

/-- The file server, from when nobody is attached. -/
def talking (k : Backend B) : System (Session (Store B)) Bytes where
  init x := ∃ files, x = .new (.new files)
  step x t x' := x' = talk k x t

/-- A message that there is room for in the size agreed on, or one that agrees on enough. -/
def Modest (k : Backend B) (x : Session (Store B)) (t : Bytes) : Prop :=
  ∀ m, Ninep.unframe t = some m → Offers m ∧
    (m.ty ≠ T.version.code → ∀ msize ∈ x.agreed, Brief k msize ∧ Moderate k msize x.server m)

theorem kept_talk (plain : Plain k) {x : Session (Store B)} {t : Bytes} (kept : x.Kept)
    (modest : Modest k x t) : (talk k x t).Kept := by
  rcases framed : Ninep.unframe t with _ | m
  · rw [talk, rpc, framed]
    exact kept
  rcases modest m framed with ⟨offers, moderate⟩
  rcases replied : (rpc k x.server t).1 with e | b
  · rw [talk, framed, replied]
    exact kept
  · rw [talk, framed, replied]
    apply kept.say
    intro _ same
    cases mem_singleton.1 same
    exact rpc_within plain framed offers moderate replied

/-- Every reply of the file server is within the size agreed on, where the messages are modest. -/
theorem kept_of_reach (plain : Plain k) {x : Session (Store B)}
    (reached : (talking k).Reach (Modest k) x) : x.Kept := by
  apply reached.invariant Session.Kept
  · rintro x ⟨files, rfl⟩ r ⟨⟩
  · rintro x t x' kept modest rfl
    exact kept_talk plain kept modest

end Store

end Ipnx.Host
