import Ipnx.Host.Page
import Ipnx.Host.Sizes

/-!
# A file of the host's, mounted

Both ends of a mount: the kernel's loop of messages (`devmnt.rs`) over the wire to the host's file
server (`store.rs`). What the two come to, over any calls, is the array of bytes that the keeper
keeps.
-/

namespace Ipnx.Host

open List
open Ipnx.Ninep (W R Msg T)
open Ipnx.Rdwr (Line File Log Transport Comes messages)
open Prog (Ends ends_pure)
open Function (update update_apply update_eq_self update_idem update_self)

namespace Store

variable {B : Type} {k : Backend B}

/-- The wire to the host's server. -/
def wire (k : Backend B) : Transport (Store B) := fun req s => rpc k s req

/-- A session whose messages' size was agreed on with the server. -/
def Agreed (k : Backend B) (mnt : Rdwr.Mnt) : Prop :=
  ∃ iounit msize v name s s', (Ninep.utf8 v).length < 2 ^ 16 ∧
    (Rdwr.version iounit (wire k) msize v).exec s = (.ok (mnt.msize, name), s')

/-- The server over a sound keeper, its fids, and the files' bytes. -/
structure Held (sound : B → Prop) (bytes : B → Path → Option Bytes) (fids : UInt32 → Option Fid)
    (view : Path → Option Bytes) (s : Store B) : Prop where
  sound : sound s.files
  kept : bytes s.files = view
  fids : s.fids = fids

/-- What a process asks of a file it has open. -/
inductive Io
  | read (off : UInt64) (n : Nat)
  | write (off : UInt64) (data : Bytes)
deriving Repr

def Io.on (b : Bytes) : Io → Bytes
  | .read _ _ => b
  | .write off data => Rdwr.splice b off.toNat data

/-- It is of the first `most` bytes. -/
def Io.Within (most : Nat) : Io → Prop
  | .read off _ => off.toNat < most
  | .write off data => off.toNat + data.length < most

/-- What is asked, through which session and of which of its fids. -/
structure Call where
  mnt : Rdwr.Mnt
  fid : UInt32
  io : Io
deriving Repr

/-- A fid on the file. -/
def On (fids : UInt32 → Option Fid) (fid : UInt32) (p : Path) : Prop :=
  ∃ f, fids fid = some f ∧ f.path = p

/-- A fid on the file that it may be written through. -/
def Writable (fids : UInt32 → Option Fid) (fid : UInt32) (p : Path) : Prop :=
  ∃ f, fids fid = some f ∧ f.path = p ∧ f.isOpen = true ∧ f.mode &&& 3 ≠ 0

/-- The call is of the file, and a write is through a fid that is open for it. -/
def Call.Of (fids : UInt32 → Option Fid) (c : Call) (p : Path) : Prop :=
  match c.io with
  | .read _ _ => On fids c.fid p
  | .write _ _ => Writable fids c.fid p

/-- The call is answered as an array answers it, in as many messages as it takes. -/
def Call.Answered (k : Backend B) (c : Call) (b : Bytes) (s s' : Store B) : Prop :=
  match c.io with
  | .read off n => ∃ mnt, Comes (Rdwr.Mnt.read (wire k) c.fid n off) (messages c.mnt.payload n)
      ⟨c.mnt, s⟩ (.ok (some (extent b off.toNat n))) ⟨mnt, s'⟩
  | .write off data => ∃ mnt, Comes (Rdwr.Mnt.write (wire k) c.fid data off)
      (messages c.mnt.payload data.length) ⟨c.mnt, s⟩ (.ok (some data.length)) ⟨mnt, s'⟩

/-- Every call of a run is answered as the array of its file answers it, and between any two the
keeper keeps the arrays, each as its own calls left it. -/
def Bytewise (k : Backend B) (bytes : B → Path → Option Bytes) (fids : UInt32 → Option Fid) :
    (Path → Option Bytes) → Store B → List Call → Prop
  | view, s, [] => bytes s.files = view
  | view, s, c :: cs => bytes s.files = view ∧
      ∃ p b s', c.Of fids p ∧ view p = some b ∧ c.Answered k b s s' ∧
        Bytewise k bytes fids (update view p (some (c.io.on b))) s' cs

section Message

variable {p : Path} {most : Nat} {sound : B → Prop} {bytes : B → Path → Option Bytes}
  {fids : UInt32 → Option Fid} {view : Path → Option Bytes} {s s' : Store B} {data : Bytes}
  {fid : UInt32} {off : UInt64} {want : Nat}

theorem exec_of_ends {α : Type} {h : Serve B α} {a : α}
    (ends : Ends h s (fun a' t => a' = a ∧ t = s') fun _ _ => False) : h.exec s = (.ok a, s') := by
  rw [Ends] at ends
  rcases ran : h.exec s with ⟨e | a', t⟩ <;> rw [ran] at ends
  · exact absurd ends not_false
  · rw [ends.1, ends.2]

theorem exec_wire {m : Msg} {ty : UInt8} {w : W} (fits : 4 + 1 + 2 + m.body.length < 2 ^ 32)
    (served : (serve k m).exec s = (.ok (ty, w), s')) :
    (wire k ((⟨m.body⟩ : W).frame m.ty m.tag)).exec s = (.ok (w.frame ty m.tag), s') := by
  rw [Prog.exec, wire, rpc, Ninep.unframe_frame fits]
  simp only [served, reply]

theorem exec_rpc_wire {ty : T} {body : Bytes} {w : W} {mnt : Rdwr.Mnt}
    (fits : 4 + 1 + 2 + body.length < 2 ^ 32) (fits' : 4 + 1 + 2 + w.body.length < 2 ^ 32)
    (served : (serve k ⟨ty.code, mnt.newtag.tag, body⟩).exec s = (.ok (ty.reply, w), s')) :
    (Rdwr.rpc (wire k) ty ⟨body⟩).exec ⟨mnt, s⟩ = (.ok w.body, ⟨mnt.newtag, s'⟩) := by
  have sent := exec_wire (m := ⟨ty.code, mnt.newtag.tag, body⟩) fits served
  have run := Rdwr.exec_rpc (l := (⟨mnt, s⟩ : Line (Store B))) sent
  rw [Except.bind, Rdwr.received_frame fits'] at run
  exact run

theorem ends_said {b : B} {md : Meta} {e : String} {G : Meta → Store B → Prop}
    {E : String → Store B → Prop} (normal : p.Normal) (said : k.stat s.files p = (some md, b))
    (ok : G md { s with files := b }) : Ends (statOr k p e) s G E := by
  apply Ends.bind
  rw [stat, real_of_normal normal]
  apply Ends.get
  apply Ends.modify
  apply ends_pure
  dsimp only
  rw [said]
  exact ends_pure ok

theorem Held.exec_read (held : Held sound bytes fids view s) (filed : k.Filed most sound bytes)
    (may : On fids fid p) (there : view p = some data) (within : off.toNat < most)
    (count : UInt32) (few : count.toNat ≤ 8192) (tag : UInt16) :
    ∃ s', Held sound bytes fids view s' ∧
      (serve k ⟨T.read.code, tag, (Rdwr.ask fid off count).body⟩).exec s =
        (.ok (T.read.reply, (W.new.u32 (.ofNat (extent data off.toNat count.toNat).length)).raw
          (extent data off.toNat count.toNat)), s') := by
  rw [← held.fids] at may
  rcases may with ⟨f, known, rfl⟩
  rw [← held.kept] at there
  rcases filed.stat _ _ _ held.sound there with ⟨md, b, said, file, sound', same⟩
  rcases filed.read b f.path data off count.toNat sound' (by rw [same, there]) within few with
    ⟨b', got, sound'', same'⟩
  have most : count ≤ msizeMax - 24 := UInt32.le_iff_toNat_le.2 few
  have all : min count (msizeMax - 24) = count := if_pos most
  refine ⟨{ s with files := b' }, ⟨sound'', same'.trans (same.trans held.kept), held.fids⟩, ?_⟩
  apply exec_of_ends
  rw [serve_read rfl]
  apply Ends.bind
  apply ends_parsed (askArgs_body fid off count)
  apply Ends.bind
  apply ends_known known
  apply Ends.bind
  apply ends_said (filed.normal _ _ _ there) said
  apply Ends.bind
  rw [contents, file, all, if_neg Bool.false_ne_true]
  apply Ends.bind
  apply Ends.get
  apply Ends.modify
  apply ends_pure
  dsimp only
  rw [got]
  exact ends_pure (ends_pure ⟨rfl, rfl⟩)

theorem Held.exec_write (held : Held sound bytes fids view s) (filed : k.Filed most sound bytes)
    (may : Writable fids fid p) (there : view p = some data) {new : Bytes} (some_ : new ≠ [])
    (within : off.toNat + new.length < most) {count : UInt32} (whole : count.toNat = new.length)
    (tag : UInt16) : ∃ s', Held sound bytes fids
        (update view p (some (Rdwr.splice data off.toNat new))) s' ∧
      (serve k ⟨T.write.code, tag, ((Rdwr.ask fid off count).raw new).body⟩).exec s =
        (.ok (T.write.reply, W.new.u32 count), s') := by
  rcases held with ⟨sound, rfl, rfl⟩
  rcases may with ⟨f, known, rfl, open_, mode⟩
  rcases filed.write _ _ _ off new sound there some_ within with ⟨b', put, sound', kept⟩
  refine ⟨{ s with files := b' }, ⟨sound', kept, rfl⟩, ?_⟩
  have taken : new.take count.toNat = new := by rw [whole, take_length]
  have counted : UInt32.ofNat new.length = count := by rw [← whole, UInt32.ofNat_toNat]
  apply exec_of_ends
  rw [serve_write rfl]
  apply Ends.bind
  apply ends_parsed (Rdwr.askArgs_ask fid off count new)
  apply Ends.bind
  apply ends_known known
  apply Ends.bind
  rw [refuse, if_neg (by simp [open_, mode])]
  apply ends_pure
  apply Ends.bind
  apply Ends.bind
  apply Ends.get
  apply Ends.modify
  apply ends_pure
  dsimp only
  rw [taken, put]
  apply ends_pure
  rw [counted]
  exact ends_pure ⟨rfl, rfl⟩

theorem came_all {b : Bytes} (short : b.length ≤ want) (few : b.length < 2 ^ 32) :
    Rdwr.came want ((W.new.u32 (.ofNat b.length)).raw b).body = .ok b := by
  have count : (UInt32.ofNat b.length).toNat = b.length := UInt32.toNat_ofNat_of_lt' few
  have parsed : R.u32.on ((W.new.u32 (.ofNat b.length)).raw b).body = (some (.ofNat b.length), b) :=
    Codec.u32.read_write (a := UInt32.ofNat b.length) trivial b
  simp only [Rdwr.came, parsed, count, min_self, min_eq_left short, take_length]

theorem went_all {chunk : Bytes} {count : UInt32} (whole : count.toNat = chunk.length) :
    Rdwr.went chunk (W.new.u32 count).body = .ok chunk := by
  have read := Codec.u32.read_write (a := count) trivial []
  rw [append_nil] at read
  have parsed : R.u32.on (W.new.u32 count).body = (some count, []) := read
  simp only [Rdwr.went, parsed, whole, min_self, take_length]

/-- A message of the loop's, and its reply. -/
theorem Held.exec_readOne (held : Held sound bytes fids view s)
    (filed : k.Filed most sound bytes) (may : On fids fid p) (there : view p = some data)
    (few : want ≤ 8192) {done : Nat} (place : (off + .ofNat done).toNat < most) (mnt : Rdwr.Mnt) :
    ∃ s', Held sound bytes fids view s' ∧
      (Rdwr.readOne (wire k) fid off done want).exec ⟨mnt, s⟩ =
        (.ok (extent data (off + .ofNat done).toNat want), ⟨mnt.newtag, s'⟩) := by
  have count : (UInt32.ofNat want).toNat = want :=
    UInt32.toNat_ofNat_of_lt' (by rw [UInt32.size]; omega)
  have short : (extent data (off + .ofNat done).toNat want).length ≤ want := by
    rw [extent, length_take]
    omega
  rcases held.exec_read filed may there place (.ofNat want) (by rw [count]; exact few)
    mnt.newtag.tag with ⟨s', left, served⟩
  rw [count] at served
  have length := Rdwr.ask_length fid (off + .ofNat done) (UInt32.ofNat want) []
  rw [W.raw, append_nil, length_nil] at length
  have ran := exec_rpc_wire (by rw [length]; omega)
    (by rw [length_raw, length_u32, length_new]; omega) served
  refine ⟨s', left, (Prog.exec_bind_of ran).trans ?_⟩
  rw [Except.bind, came_all short (by omega)]

theorem Held.exec_writeOne (held : Held sound bytes fids view s)
    (filed : k.Filed most sound bytes) (may : Writable fids fid p) (there : view p = some data)
    {new : Bytes} {done : Nat} (few : want ≤ 8192) (some_ : 0 < want)
    (inside : done + want ≤ new.length) (place : (off + .ofNat done).toNat = off.toNat + done)
    (within : off.toNat + new.length < most) (mnt : Rdwr.Mnt) :
    ∃ s', Held sound bytes fids (update view p
        (some (Rdwr.splice data (off.toNat + done) ((new.drop done).take want)))) s' ∧
      (Rdwr.writeOne (wire k) fid new off done want).exec ⟨mnt, s⟩ =
        (.ok ((new.drop done).take want), ⟨mnt.newtag, s'⟩) := by
  have length : ((new.drop done).take want).length = want := by
    rw [length_take, length_drop]
    omega
  have whole : (UInt32.ofNat ((new.drop done).take want).length).toNat =
      ((new.drop done).take want).length :=
    UInt32.toNat_ofNat_of_lt' (by rw [UInt32.size]; omega)
  have nonempty : (new.drop done).take want ≠ [] := by
    apply ne_nil_of_length_pos
    omega
  have inside' : (off + .ofNat done).toNat + ((new.drop done).take want).length < most := by
    rw [place, length]
    omega
  rcases held.exec_write filed may there nonempty inside' whole mnt.newtag.tag with
    ⟨s', left, served⟩
  rw [place] at left
  have size := Rdwr.ask_length fid (off + .ofNat done)
    (UInt32.ofNat ((new.drop done).take want).length) ((new.drop done).take want)
  have ran := exec_rpc_wire (by rw [size]; omega)
    (by rw [length_u32, length_new]; omega) served
  refine ⟨s', left, (Prog.exec_bind_of ran).trans ?_⟩
  rw [Except.bind, went_all whole]

end Message

section Loop

variable {p : Path} {most : Nat} {sound : B → Prop} {bytes : B → Path → Option Bytes}
  {fids : UInt32 → Option Fid} {view : Path → Option Bytes} {s : Store B} {data : Bytes}
  {fid : UInt32} {off : UInt64} {m : Rdwr.Mnt}

theorem payload_le (agreed : m.msize ≤ msizeMax) : m.payload ≤ 8192 := by
  have size := UInt32.le_iff_toNat_le.1 agreed
  have own : msizeMax.toNat = 8216 := rfl
  rw [Rdwr.Mnt.payload, Rdwr.iohdrsz]
  omega

/-- A read so far: the files are as they were, and the server of a file would have given as
much. -/
def Reading (sound : B → Prop) (bytes : B → Path → Option Bytes) (fids : UInt32 → Option Fid)
    (view : Path → Option Bytes) (f : File) (off n : Nat) (out : Bytes)
    (l : Line (Store B)) : Prop :=
  Held sound bytes fids view l.far ∧ ∃ l', Rdwr.Reading f off n out l'

/-- A write so far: the file holds what the server of a file would hold. -/
def Writing (sound : B → Prop) (bytes : B → Path → Option Bytes) (fids : UInt32 → Option Fid)
    (view : Path → Option Bytes) (p : Path) (f : File) (off : Nat) (new out : Bytes)
    (l : Line (Store B)) : Prop :=
  ∃ l', Rdwr.Writing f off new out l' ∧
    Held sound bytes fids (update view p (some l'.far.1.bytes)) l.far

theorem Reading.step {f : File} {n : Nat} {out : Bytes} {l : Line (Store B)}
    (filed : k.Filed most sound bytes) (may : On fids fid p)
    (there : view p = some f.bytes) (short : f.bytes.length < most) (small : m.payload ≤ 8192)
    (within : off.toNat < most)
    (reading : Reading sound bytes fids view f off.toNat n out l) (less : out.length < n) :
    ∃ got l', (Rdwr.readOne (wire k) fid off out.length (min (n - out.length) m.payload)).exec l =
        (.ok got, l') ∧
      (got.length = min (n - out.length) m.payload →
        Reading sound bytes fids view f off.toNat n (out ++ got) l') ∧
      (got.length ≠ min (n - out.length) m.payload →
        Held sound bytes fids view l'.far ∧ out ++ got = extent f.bytes off.toNat n) := by
  rcases l with ⟨mnt, s'⟩
  rcases reading with ⟨held, ⟨mnt', f', log⟩, reading⟩
  rcases @Rdwr.Reading.step m fid _ off _ _ _ reading less with ⟨got, l', run, more, last⟩
  have length := congrArg List.length reading.out_eq
  rw [length_take, length_drop] at length
  have fits := f.fits
  have place : (off + UInt64.ofNat out.length).toNat = off.toNat + out.length := by
    have start := off.toNat_lt
    apply Rdwr.toNat_add_ofNat
    omega
  have file : f' = f := reading.file
  subst file
  rcases Rdwr.exec_readOne mnt' fid f' log off out.length
    (min_le_right (n - out.length) m.payload) with ⟨e, ran⟩
  cases ran.symm.trans run
  have place' : (off + UInt64.ofNat out.length).toNat < most := by
    rw [place]
    omega
  have few : min (n - out.length) m.payload ≤ 8192 := by omega
  rcases held.exec_readOne filed may there few place' mnt with ⟨s'', left, ran'⟩
  refine ⟨_, _, ran', ?_, ?_⟩
  · exact fun whole => ⟨left, _, more whole⟩
  · exact fun few => ⟨left, (last few).2⟩

theorem Writing.step {f : File} {new out : Bytes} {l : Line (Store B)}
    (filed : k.Filed most sound bytes) (range : most ≤ 2 ^ 64) (may : Writable fids fid p)
    (small : m.payload ≤ 8192) (some_ : 0 < m.payload) (within : off.toNat + new.length < most)
    (writing : Writing sound bytes fids view p f off.toNat new out l)
    (less : out.length < new.length) :
    ∃ moved l', (Rdwr.writeOne (wire k) fid new off out.length
        (min (new.length - out.length) m.payload)).exec l = (.ok moved, l') ∧
      (moved.length = min (new.length - out.length) m.payload →
        Writing sound bytes fids view p f off.toNat new (out ++ moved) l') ∧
      (moved.length ≠ min (new.length - out.length) m.payload →
        Held sound bytes fids
          (update view p (some (Rdwr.splice f.bytes off.toNat new))) l'.far ∧
        out ++ moved = new) := by
  rcases l with ⟨mnt, s'⟩
  rcases writing with ⟨⟨mnt', f', log⟩, writing, held⟩
  have room : off.toNat + new.length < 2 ^ 64 := by omega
  rcases @Rdwr.Writing.step m fid _ off _ _ _ room writing less with ⟨moved, l', run, more, last⟩
  have inside : out.length + min (new.length - out.length) m.payload ≤ new.length := by omega
  rcases Rdwr.exec_writeOne mnt' fid f' log room
    (min_le_right (new.length - out.length) m.payload) inside with ⟨e, f'', put, ran⟩
  cases ran.symm.trans run
  have place : (off + UInt64.ofNat out.length).toNat = off.toNat + out.length :=
    Rdwr.toNat_add_ofNat (by omega)
  rcases held.exec_writeOne filed may (update_self ..) (by omega) (by omega) inside
    place within mnt with ⟨s'', left, ran'⟩
  rw [update_idem, ← put] at left
  refine ⟨_, _, ran', fun whole => ⟨_, more whole, left⟩, ?_⟩
  intro few
  rcases last few with ⟨all, done⟩
  refine ⟨?_, done⟩
  rw [← all]
  exact left

theorem Reading.finish {f : File} {n : Nat} {out : Bytes} {l : Line (Store B)}
    (reading : Reading sound bytes fids view f off.toNat n out l) (whole : n ≤ out.length) :
    Held sound bytes fids view l.far ∧ out = extent f.bytes off.toNat n := by
  rcases reading with ⟨held, l', reading⟩
  exact ⟨held, (reading.finish whole).2⟩

theorem Writing.finish {f : File} {new out : Bytes} {l : Line (Store B)}
    (writing : Writing sound bytes fids view p f off.toNat new out l)
    (whole : new.length ≤ out.length) :
    Held sound bytes fids (update view p (some (Rdwr.splice f.bytes off.toNat new)))
      l.far ∧ out = new := by
  rcases writing with ⟨l', writing, held⟩
  rcases writing.finish whole with ⟨all, done⟩
  rw [all] at held
  exact ⟨held, done⟩

/-- The messages of a read go as those to a server that holds the file's bytes. -/
theorem Held.read (held : Held sound bytes fids view s) (filed : k.Filed most sound bytes)
    (range : most ≤ 2 ^ 64) (may : On fids fid p) (there : view p = some data)
    (least : 256 ≤ m.msize.toNat) (agreed : m.msize ≤ msizeMax) (n : Nat)
    (within : off.toNat < most) :
    ∃ mnt s', Held sound bytes fids view s' ∧
      Comes (Rdwr.Mnt.read (wire k) fid n off) (messages m.payload n) ⟨m, s⟩
        (.ok (some (extent data off.toNat n))) ⟨mnt, s'⟩ := by
  have short : data.length < most := filed.short _ _ _ (held.kept ▸ there)
  have none : ([] : Bytes).length ≤ n := Nat.zero_le n
  have start : Reading sound bytes fids view ⟨data, by omega⟩ off.toNat n [] ⟨m, s⟩ :=
    ⟨held, ⟨m, ⟨data, by omega⟩, []⟩, rfl, none, rfl⟩
  rcases Rdwr.rdwr_ends (Rdwr.bounded_read (wire k) fid off) (Rdwr.payload_pos least) none
    ⟨m, s⟩ with ⟨r, l, ended, -, same⟩
  rcases Rdwr.rdwr_rule
    (Q := fun out l => Held sound bytes fids view l.far ∧ out = extent data off.toNat n)
    (fun _ _ reading less =>
      reading.step filed may there short (payload_le agreed) within less)
    (fun _ _ reading whole => reading.finish whole) start (same _ le_rfl)
    with none | ⟨_, rfl, left, rfl⟩
  · exact absurd none ended
  · refine ⟨l.mnt, l.far, left, ?_⟩
    rintro (_ | fuel) enough
    · omega
    · rw [Rdwr.exec_read, same fuel (Nat.le_of_lt_succ enough)]

theorem Held.write (held : Held sound bytes fids view s) (filed : k.Filed most sound bytes)
    (range : most ≤ 2 ^ 64) (may : Writable fids fid p) (there : view p = some data)
    (least : 256 ≤ m.msize.toNat) (agreed : m.msize ≤ msizeMax) {new : Bytes}
    (within : off.toNat + new.length < most) :
    ∃ mnt s', Held sound bytes fids
        (update view p (some (Rdwr.splice data off.toNat new))) s' ∧
      Comes (Rdwr.Mnt.write (wire k) fid new off) (messages m.payload new.length) ⟨m, s⟩
        (.ok (some new.length)) ⟨mnt, s'⟩ := by
  have short : data.length < most := filed.short _ _ _ (held.kept ▸ there)
  have some_ := Rdwr.payload_pos least
  have none : ([] : Bytes).length ≤ new.length := Nat.zero_le _
  have start : Writing sound bytes fids view p ⟨data, by omega⟩ off.toNat new [] ⟨m, s⟩ := by
    refine ⟨⟨m, ⟨data, by omega⟩, []⟩, ⟨rfl, none, rfl⟩, ?_⟩
    rw [← there, update_eq_self]
    exact held
  rcases Rdwr.rdwr_ends (Rdwr.bounded_write (wire k) fid new off) some_ none ⟨m, s⟩ with
    ⟨r, l, ended, -, same⟩
  rcases Rdwr.rdwr_rule
    (Q := fun out l => Held sound bytes fids
      (update view p (some (Rdwr.splice data off.toNat new))) l.far ∧ out = new)
    (fun _ _ writing less => writing.step filed range may (payload_le agreed) some_ within less)
    (fun _ _ writing whole => writing.finish whole) start (same _ le_rfl)
    with none | ⟨_, rfl, left, rfl⟩
  · exact absurd none ended
  · refine ⟨l.mnt, l.far, left, ?_⟩
    rintro (_ | fuel) enough
    · omega
    · exact Rdwr.exec_write (l := (⟨m, s⟩ : Line (Store B))) (same fuel (Nat.le_of_lt_succ enough))

end Loop

/-- The size in the reply to a `Tversion` is no more than the server's own. -/
theorem ensures_wire_version (k : Backend B) (msize : UInt32) {v : String}
    (short : (Ninep.utf8 v).length < 2 ^ 16) :
    Prog.Ensures (fun _ => True) (wire k (((W.new.u32 msize).s v).frame T.version.code 0xffff))
      fun r => ∃ m, Ninep.unframe r = some m ∧
        ∀ got, (R.u32.on m.body).1 = some got → got ≤ msizeMax := by
  intro s _
  refine ⟨trivial, ?_⟩
  let m : Msg := ⟨T.version.code, 0xffff, ((W.new.u32 msize).s v).body⟩
  have fits : 4 + 1 + 2 + m.body.length < 2 ^ 32 := by
    rw [length_s, length_u32, length_new]
    omega
  rcases exec_version m.body s with ⟨v', named, ran⟩
  have served : (serve k m).exec s = _ := (congrArg (·.exec s) (serve_version rfl)).trans ran
  have parsed (got : UInt32) : (R.u32.on ((W.new.u32 got).s v').body).1 = some got := by
    have body : ((W.new.u32 got).s v').body = leBytes 4 got.toNat ++
        (leBytes 2 (UInt16.ofNat (Ninep.utf8 v').length).toNat ++ Ninep.utf8 v') := by
      simp [W.new, W.s, W.u16, W.u32, W.raw]
    rw [body]
    exact congrArg Prod.fst (Codec.u32.read_write (a := got) trivial _)
  have fits' (got : UInt32) : 4 + 1 + 2 + ((W.new.u32 got).s v').body.length < 2 ^ 32 := by
    rw [length_s, length_u32, length_new]
    omega
  rw [exec_wire fits served]
  rintro _ ⟨⟩
  refine ⟨_, Ninep.unframe_frame (fits' _) _ _, ?_⟩
  intro got read
  cases (parsed _).symm.trans read
  exact Std.min_le_right

theorem ensures_version (k : Backend B) (iounit msize : UInt32) {v : String}
    (short : (Ninep.utf8 v).length < 2 ^ 16) :
    Prog.Ensures (fun _ => True) (Rdwr.version iounit (wire k) msize v)
      fun agreed => agreed.1 ≤ msizeMax := by
  rw [Rdwr.version]
  apply Prog.ensures_ite
  · exact Prog.ensures_throw _
  apply Prog.Ensures.bind
  · apply ensures_wire_version
    split_ifs
    · decide
    · exact short
  rintro reply ⟨m, whole, small⟩
  rw [whole]
  apply Prog.ensures_ite
  · exact Prog.ensures_throw _
  rcases read : R.u32.on m.body with ⟨_ | got, rest⟩
  · exact Prog.ensures_throw _
  dsimp only
  rcases R.s.on rest with ⟨_ | name, _⟩
  · exact Prog.ensures_throw _
  apply Prog.ensures_ite
  · exact Prog.ensures_throw _
  apply Prog.ensures_ite
  · exact Prog.ensures_throw _
  apply Prog.ensures_ite
  · exact Prog.ensures_throw _
  · exact Prog.ensures_pure (small got (congrArg Prod.fst read))

theorem Agreed.range {m : Rdwr.Mnt} (agreed : Agreed k m) :
    256 ≤ m.msize.toNat ∧ m.msize ≤ msizeMax := by
  rcases agreed with ⟨iounit, msize, v, name, s, s', short, ran⟩
  have least := Rdwr.version_range iounit (wire k) msize v s trivial
  have most := ensures_version k iounit msize short s trivial
  rw [ran] at least most
  exact ⟨(least.2 _ rfl).1, most.2 _ rfl⟩

/-- Files a keeper keeps are arrays of bytes to the processes that have them open: of any reads and
writes, through any sessions and in pieces of any sizes, each is answered as its file's array has
it, and changes no other. -/
theorem mounted_bytes {most : Nat} {sound : B → Prop} {bytes : B → Path → Option Bytes}
    {fids : UInt32 → Option Fid} {view : Path → Option Bytes} {s : Store B}
    (filed : k.Filed most sound bytes) (range : most ≤ 2 ^ 64)
    (held : Held sound bytes fids view s) (cs : List Call)
    (fit : ∀ c ∈ cs, Agreed k c.mnt ∧ c.io.Within most ∧
      ∃ p, c.Of fids p ∧ view p ≠ none) : Bytewise k bytes fids view s cs := by
  induction cs generalizing view s with
  | nil => exact held.kept
  | cons c cs ih =>
      rcases fit c (mem_cons_self ..) with ⟨agreed, within, p, may, known⟩
      rcases Option.ne_none_iff_exists'.1 known with ⟨data, there⟩
      rcases agreed.range with ⟨least, own⟩
      have rest (b : Bytes) (c' : Call) (member : c' ∈ cs) : Agreed k c'.mnt ∧ c'.io.Within most ∧
          ∃ q, c'.Of fids q ∧ update view p (some b) q ≠ none := by
        rcases fit c' (mem_cons_of_mem c member) with ⟨agreed', within', q, may', known'⟩
        refine ⟨agreed', within', q, may', ?_⟩
        rw [update_apply]
        split_ifs
        · exact Option.some_ne_none b
        · exact known'
      refine ⟨held.kept, p, data, ?_⟩
      rcases c with ⟨mnt, fid, ⟨off, n⟩ | ⟨off, new⟩⟩
      · rcases held.read filed range may there least own n within with ⟨mnt', s', held', comes⟩
        refine ⟨s', may, there, ⟨mnt', comes⟩, ih ?_ (rest _)⟩
        rw [Io.on, ← there, update_eq_self]
        exact held'
      · rcases held.write filed range may there least own within with ⟨mnt', s', held', comes⟩
        exact ⟨s', may, there, ⟨mnt', comes⟩, ih held' (rest _)⟩

/-- So are the files of the page's tree, those that are here and those not yet fetched. -/
theorem mounted_page {site : Site} {t : Tree} {n : Nat} {s : Store Site.Keeper}
    (kept : s.files = some (t, n)) (shaped : t.Shaped) (cs : List Call)
    (fit : ∀ c ∈ cs, Agreed site.page c.mnt ∧ c.io.Within Tree.vecMax ∧
      ∃ p, c.Of s.fids p ∧ site.bytes s.files p ≠ none) :
    Bytewise site.page site.bytes s.fids (site.bytes s.files) s cs :=
  mounted_bytes site.page_filed (by decide) ⟨⟨t, n, kept, shaped⟩, rfl, rfl⟩ cs fit

def sheets : Tree where
  nodes := [some ⟨"", 0, 0o775, 0, 0, 0, .dir [1, 2]⟩,
    some ⟨"a", 0, 0o644, 0, 0, 1, .remote 3 "a"⟩, some ⟨"b", 0, 0o644, 0, 0, 2, .here [4]⟩]
  next := 3

theorem shaped_sheets : sheets.Shaped := by
  have first := Tree.make_ends Tree.shaped_root [.normal "a"] 0o644 0 (.remote 3 "a")
    fun _ _ => rfl
  have made : Tree.root.make [.normal "a"] 0o644 0 (.remote 3 "a") = some (.ok (), ⟨[
      some ⟨"", 0, 0o775, 0, 0, 0, .dir [1]⟩,
      some ⟨"a", 0, 0o644, 0, 0, 1, .remote 3 "a"⟩], 2⟩) := by
    decide
  rw [made] at first
  exact Site.shaped_of_ends (a := ()) (Tree.make_ends (Site.shaped_of_ends first) [.normal "b"]
    0o644 0 (.here [4]) fun _ _ => rfl)

def noted : Store Site.Keeper where
  files := some (sheets, 0)
  uname := ""
  fids fid := some ⟨[.normal (if fid = 2 then "b" else "a")], if fid = 3 then 0 else 2, true⟩

def root : Site := ⟨fun at_ => if at_ = "a" then some [1, 2, 3] else none, fun _ => 0⟩

def own : Rdwr.Mnt := ⟨msizeMax, 0⟩

theorem own_agreed : Agreed root.page own := by
  have said : ((Rdwr.version 0 (wire root.page) 0 "9P2000").exec noted).1 =
      .ok (own.msize, "9P2000") := by
    decide +kernel
  exact ⟨0, 0, "9P2000", "9P2000", noted, _, by decide, Prod.ext said rfl⟩

theorem mounted_page_sheets : Bytewise root.page root.bytes noted.fids (root.bytes noted.files)
    noted [⟨own, 1, .write 5 [9]⟩, ⟨own, 2, .write 0 [7]⟩, ⟨own, 3, .read 2 10⟩] := by
  refine mounted_page rfl shaped_sheets _ ?_
  intro c member
  simp only [mem_cons, not_mem_nil, or_false] at member
  rcases member with rfl | rfl | rfl
  · exact ⟨own_agreed, (by decide : 5 + 1 < Tree.vecMax), [.normal "a"],
      ⟨_, rfl, rfl, rfl, by decide⟩, by decide⟩
  · exact ⟨own_agreed, (by decide : 0 + 1 < Tree.vecMax), [.normal "b"],
      ⟨_, rfl, rfl, rfl, by decide⟩, by decide⟩
  · exact ⟨own_agreed, (by decide : 2 < Tree.vecMax), [.normal "a"], ⟨_, rfl, rfl⟩,
      by decide⟩

end Store

end Ipnx.Host
