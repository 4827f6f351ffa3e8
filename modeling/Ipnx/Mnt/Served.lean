import Ipnx.Mnt.Rdwr

/-!
# What a mount's reads and writes come to

A server that holds one file, and what the loop reads from it and leaves in it; and what can be
said of the loop whatever the server answers.
-/

namespace Ipnx.Rdwr

open List
open Ninep

structure File where
  bytes : Bytes
  fits : bytes.length < 2 ^ 64

/-- Bytes with others put in at a place. What is skipped past the end is zeros. -/
def splice (bytes : Bytes) (at_ : Nat) (data : Bytes) : Bytes :=
  if data.isEmpty then bytes
  else bytes.take at_ ++ List.replicate (at_ - bytes.length) 0 ++ data ++
    bytes.drop (at_ + data.length)

theorem splice_nil (bytes : Bytes) (at_ : Nat) : splice bytes at_ [] = bytes := rfl

theorem splice_length_le {bytes data : Bytes} {at_ most : Nat} (short : bytes.length < most)
    (room : at_ + data.length < most) : (splice bytes at_ data).length < most := by
  rw [splice]
  split_ifs
  · exact short
  · simp only [length_append, length_take, length_replicate, length_drop]
    omega

theorem splice_of_ne {data : Bytes} (some : data ≠ []) (bytes : Bytes) (at_ : Nat) :
    splice bytes at_ data = bytes.take at_ ++ List.replicate (at_ - bytes.length) 0 ++ data ++
      bytes.drop (at_ + data.length) := by
  rw [splice, if_neg (by simpa using some)]

theorem splice_front {front data : Bytes} (some : data ≠ []) (rest : Bytes) :
    splice (front ++ rest) front.length data = front ++ data ++ rest.drop data.length := by
  have full : front.length - (front ++ rest).length = 0 := by
    rw [length_append]
    omega
  rw [splice_of_ne some, take_left, full, replicate_zero, append_nil,
    drop_length_add_append]

theorem splice_splice (bytes : Bytes) (at_ : Nat) (first second : Bytes) :
    splice (splice bytes at_ first) (at_ + first.length) second =
      splice bytes at_ (first ++ second) := by
  by_cases none : first = []
  · subst none
    rfl
  by_cases last : second = []
  · subst last
    rw [splice_nil, append_nil]
  have front : (bytes.take at_ ++ List.replicate (at_ - bytes.length) 0 ++ first).length =
      at_ + first.length := by
    simp only [length_append, length_take, length_replicate]
    omega
  have both : first ++ second ≠ [] := by simp [none]
  rw [splice_of_ne none, ← front, splice_front last, splice_of_ne both, front, drop_drop,
    length_append, append_assoc _ first second, Nat.add_assoc]

def File.put (f : File) (at_ : Nat) (data : Bytes) (room : at_ + data.length < 2 ^ 64) : File :=
  ⟨splice f.bytes at_ data, splice_length_le f.fits room⟩

def refuse (e : String) : UInt8 × Bytes := (T.error.code, (W.new.s e).body)

/-- What the server of a file says to a message about it, and what it leaves in the file. -/
def answer (known : UInt32) (m : Msg) (f : File) : (UInt8 × Bytes) × File :=
  if m.ty = T.read.code then
    match askArgs.on m.body with
    | (none, _) => (refuse "short Tread", f)
    | (some (fid, off, count), _) =>
        if fid ≠ known then (refuse "unknown fid", f)
        else
          let data := (f.bytes.drop off.toNat).take count.toNat
          ((T.read.reply, ((W.new.u32 (UInt32.ofNat data.length)).raw data).body), f)
  else if m.ty = T.write.code then
    match askArgs.on m.body with
    | (none, _) => (refuse "short Twrite", f)
    | (some (fid, off, count), rest) =>
        if fid ≠ known then (refuse "unknown fid", f)
        else if rest.length < count.toNat then (refuse "short Twrite", f)
        else if room : off.toNat + (rest.take count.toNat).length < 2 ^ 64 then
          ((T.write.reply, (W.new.u32 count).body), f.put off.toNat (rest.take count.toNat) room)
        else (refuse "file too big", f)
  else (refuse "illegal message", f)

def serve (known : UInt32) : Transport File := fun req f =>
  match unframe req with
  | none => (.error "malformed request", f)
  | some m =>
      let (reply, f) := answer known m f
      (.ok ((⟨reply.2⟩ : W).frame reply.1 m.tag), f)

theorem received_frame {ty : T} {body : Bytes} (fits : 4 + 1 + 2 + body.length < 2 ^ 32)
    (tag : UInt16) : received ty ((⟨body⟩ : W).frame ty.reply tag) = .ok body := by
  rw [received, unframe_frame fits]
  simp

theorem exec_serve {known : UInt32} {body : Bytes} {ty : UInt8} {tag : UInt16} {f f' : File}
    {reply : UInt8 × Bytes} (fits : 4 + 1 + 2 + body.length < 2 ^ 32)
    (answered : answer known ⟨ty, tag, body⟩ f = (reply, f')) :
    (serve known ((⟨body⟩ : W).frame ty tag)).exec f =
      (.ok ((⟨reply.2⟩ : W).frame reply.1 tag), f') := by
  rw [Prog.exec, serve, unframe_frame fits]
  simp only [answered]

theorem exec_rpc_serve {known : UInt32} {ty : T} {body reply : Bytes} {mnt : Mnt} {f f' : File}
    (log : Log) (fits : 4 + 1 + 2 + body.length < 2 ^ 32)
    (fits' : 4 + 1 + 2 + reply.length < 2 ^ 32)
    (answered : answer known ⟨ty.code, mnt.newtag.tag, body⟩ f = ((ty.reply, reply), f')) :
    ∃ e, (rpc (logged (serve known)) ty ⟨body⟩).exec ⟨mnt, f, log⟩ =
      (.ok reply, ⟨mnt.newtag, f', log ++ [e]⟩) := by
  have sent := exec_serve fits answered
  have kept : (logged (serve known) ((⟨body⟩ : W).frame ty.code mnt.newtag.tag)).exec (f, log) =
      (.ok ((⟨reply⟩ : W).frame ty.reply mnt.newtag.tag), (f', log ++
        [((⟨body⟩ : W).frame ty.code mnt.newtag.tag,
          .ok ((⟨reply⟩ : W).frame ty.reply mnt.newtag.tag))])) := by
    rw [Prog.exec, logged, sent]
  have run := exec_rpc (l := (⟨mnt, f, log⟩ : Line (File × Log))) kept
  rw [Except.bind, received_frame fits'] at run
  exact ⟨_, run⟩

section Messages

variable {m : Mnt} {off : UInt64} {done want : Nat}

theorem toNat_add_ofNat (room : off.toNat + done < 2 ^ 64) :
    (off + UInt64.ofNat done).toNat = off.toNat + done := by
  have less : done < 2 ^ 64 := by omega
  have small : (UInt64.ofNat done).toNat = done := UInt64.toNat_ofNat_of_lt' less
  rw [UInt64.toNat_add, small]
  exact Nat.mod_eq_of_lt room

theorem exec_readOne (mnt : Mnt) (known : UInt32) (f : File) (log : Log) (off : UInt64)
    (done : Nat) (most : want ≤ m.payload) :
    ∃ e, (readOne (logged (serve known)) known off done want).exec ⟨mnt, f, log⟩ =
      (.ok ((f.bytes.drop (off + UInt64.ofNat done).toNat).take want),
        ⟨mnt.newtag, f, log ++ [e]⟩) := by
  have bound := payload_lt m
  have args := askArgs_ask known (off + UInt64.ofNat done) (UInt32.ofNat want) []
  simp only [W.raw, append_nil] at args
  let data := (f.bytes.drop (off + UInt64.ofNat done).toNat).take want
  have short : data.length ≤ want := by
    rw [length_take]
    omega
  have answered : answer known ⟨T.read.code, mnt.newtag.tag,
      (ask known (off + UInt64.ofNat done) (UInt32.ofNat want)).body⟩ f =
        ((T.read.reply, ((W.new.u32 (UInt32.ofNat data.length)).raw data).body), f) := by
    simp only [answer, args, toNat_ofNat_payload most]
    simp [data]
  have length := ask_length known (off + UInt64.ofNat done) (UInt32.ofNat want) []
  simp only [W.raw, append_nil, length_nil] at length
  rcases exec_rpc_serve log (by rw [length]; omega) (by simp [W.new, W.u32, W.raw]; omega)
    answered with ⟨e, run⟩
  refine ⟨e, (Prog.exec_bind_of run).trans ?_⟩
  have count : (UInt32.ofNat data.length).toNat = data.length :=
    toNat_ofNat_payload (short.trans most)
  have read := Codec.u32.read_write (a := UInt32.ofNat data.length) trivial data
  have whole : came want ((W.new.u32 (UInt32.ofNat data.length)).raw data).body = .ok data := by
    have parsed : R.u32.on ((W.new.u32 (UInt32.ofNat data.length)).raw data).body =
        (some (UInt32.ofNat data.length), data) := read
    simp only [came, parsed, count, min_self, min_eq_left short, take_length]
  rw [Except.bind, whole]

theorem exec_writeOne (mnt : Mnt) (known : UInt32) (f : File) (log : Log) {data : Bytes}
    (room : off.toNat + data.length < 2 ^ 64)
    (most : want ≤ m.payload) (inside : done + want ≤ data.length) :
    ∃ e f', f'.bytes = splice f.bytes (off.toNat + done) ((data.drop done).take want) ∧
      (writeOne (logged (serve known)) known data off done want).exec ⟨mnt, f, log⟩ =
        (.ok ((data.drop done).take want), ⟨mnt.newtag, f', log ++ [e]⟩) := by
  have bound := payload_lt m
  have length : ((data.drop done).take want).length = want := by
    rw [length_take, length_drop]
    omega
  let chunk := (data.drop done).take want
  have place : (off + UInt64.ofNat done).toNat = off.toNat + done := toNat_add_ofNat (by omega)
  have args := askArgs_ask known (off + UInt64.ofNat done) (UInt32.ofNat chunk.length) chunk
  have count : (UInt32.ofNat chunk.length).toNat = chunk.length :=
    toNat_ofNat_payload (by rw [length]; exact most)
  have fits : (off + UInt64.ofNat done).toNat +
      (chunk.take (UInt32.ofNat chunk.length).toNat).length < 2 ^ 64 := by
    rw [place, count, take_length, length]
    omega
  have answered : answer known ⟨T.write.code, mnt.newtag.tag,
      ((ask known (off + UInt64.ofNat done) (UInt32.ofNat chunk.length)).raw chunk).body⟩ f =
        ((T.write.reply, (W.new.u32 (UInt32.ofNat chunk.length)).body), f.put _ _ fits) := by
    have whole : ¬chunk.length < (UInt32.ofNat chunk.length).toNat := by omega
    have other : T.write.code ≠ T.read.code := by decide
    simp only [answer, if_neg other, if_true, args, ne_eq, not_true_eq_false, if_false,
        if_neg whole,
      dif_pos fits]
  have size := ask_length known (off + UInt64.ofNat done) (UInt32.ofNat chunk.length) chunk
  rcases exec_rpc_serve log (by rw [size, length]; omega) (by simp [W.new, W.u32, W.raw])
    answered with ⟨e, run⟩
  have took : went chunk (W.new.u32 (UInt32.ofNat chunk.length)).body = .ok chunk := by
    have read := Codec.u32.read_write (a := UInt32.ofNat chunk.length) trivial []
    have parsed : R.u32.on (W.new.u32 (UInt32.ofNat chunk.length)).body =
        (some (UInt32.ofNat chunk.length), []) := by
      rw [append_nil] at read
      exact read
    simp only [went, parsed, count, min_self, take_length]
  have ran := Prog.exec_bind_of (g := went chunk) run
  rw [Except.bind, took] at ran
  refine ⟨e, f.put _ _ fits, ?_, ran⟩
  simp only [File.put, place, count, take_length, chunk]

end Messages

section Served

variable {m : Mnt} {known : UInt32} {f : File} {off : UInt64}

structure Reading (f : File) (off n : Nat) (out : Bytes) (l : Line (File × Log)) : Prop where
  file : l.far.1 = f
  most : out.length ≤ n
  out_eq : out = (f.bytes.drop off).take out.length

theorem Reading.step {n : Nat} {out : Bytes} {l : Line (File × Log)}
    (reading : Reading f off.toNat n out l) (less : out.length < n) :
    ∃ data l', (readOne (logged (serve known)) known off out.length
        (min (n - out.length) m.payload)).exec l = (.ok data, l') ∧
      (data.length = min (n - out.length) m.payload → Reading f off.toNat n (out ++ data) l') ∧
      (data.length ≠ min (n - out.length) m.payload →
        l'.far.1 = f ∧ out ++ data = (f.bytes.drop off.toNat).take n) := by
  rcases l with ⟨mnt, far, log⟩
  rcases reading with ⟨file, most, same⟩
  change far = f at file
  subst file
  rcases exec_readOne mnt known far log off out.length
    (min_le_right (n - out.length) m.payload) with ⟨e, run⟩
  have length := congrArg List.length same
  rw [length_take, length_drop] at length
  have start := off.toNat_lt
  have place : (off + UInt64.ofNat out.length).toNat = off.toNat + out.length := by
    have fits := far.fits
    apply toNat_add_ofNat
    omega
  rw [place] at run
  have joined (w : Nat) : out ++ (far.bytes.drop (off.toNat + out.length)).take w =
      (far.bytes.drop off.toNat).take (out.length + w) := by
    rw [take_add, ← same, drop_drop]
  refine ⟨_, _, run, ?_, ?_⟩
  · intro whole
    refine ⟨rfl, ?_, ?_⟩
    · rw [length_append, whole]
      omega
    · rw [length_append, whole, joined]
  · intro short
    refine ⟨rfl, ?_⟩
    rw [length_take, length_drop] at short
    rw [joined, take_of_length_le, take_of_length_le] <;> rw [length_drop] <;> omega

theorem Reading.finish {n : Nat} {out : Bytes} {l : Line (File × Log)}
    (reading : Reading f off.toNat n out l) (whole : n ≤ out.length) :
    l.far.1 = f ∧ out = (f.bytes.drop off.toNat).take n := by
  rcases reading with ⟨file, most, same⟩
  have all : out.length = n := by omega
  rw [all] at same
  exact ⟨file, same⟩

structure Writing (f : File) (off : Nat) (data out : Bytes) (l : Line (File × Log)) : Prop where
  file : l.far.1.bytes = splice f.bytes off out
  most : out.length ≤ data.length
  out_eq : out = data.take out.length

theorem Writing.step {data out : Bytes} {l : Line (File × Log)}
    (room : off.toNat + data.length < 2 ^ 64) (writing : Writing f off.toNat data out l)
    (less : out.length < data.length) :
    ∃ moved l', (writeOne (logged (serve known)) known data off out.length
        (min (data.length - out.length) m.payload)).exec l = (.ok moved, l') ∧
      (moved.length = min (data.length - out.length) m.payload →
        Writing f off.toNat data (out ++ moved) l') ∧
      (moved.length ≠ min (data.length - out.length) m.payload →
        l'.far.1.bytes = splice f.bytes off.toNat data ∧ out ++ moved = data) := by
  rcases l with ⟨mnt, far, log⟩
  rcases writing with ⟨file, most, same⟩
  have inside : out.length + min (data.length - out.length) m.payload ≤ data.length := by omega
  rcases exec_writeOne mnt known far log room (min_le_right (data.length - out.length) m.payload)
    inside with ⟨e, f', put, run⟩
  have length : ((data.drop out.length).take (min (data.length - out.length) m.payload)).length =
      min (data.length - out.length) m.payload := by
    rw [length_take, length_drop]
    omega
  refine ⟨_, _, run, ?_, fun short => absurd length short⟩
  intro _
  refine ⟨?_, ?_, ?_⟩
  · change far.bytes = splice f.bytes off.toNat out at file
    change f'.bytes = _
    rw [put, file, splice_splice]
  · rw [length_append, length]
    omega
  · rw [length_append, length, take_add, ← same]

theorem Writing.finish {data out : Bytes} {l : Line (File × Log)}
    (writing : Writing f off.toNat data out l) (whole : data.length ≤ out.length) :
    l.far.1.bytes = splice f.bytes off.toNat data ∧ out = data := by
  rcases writing with ⟨file, most, same⟩
  have all : out = data := by
    rw [same, take_of_length_le whole]
  rw [← all]
  exact ⟨file, rfl⟩

end Served

section Whole

variable {σ α : Type} {m : Mnt}

/-- What a loop comes to, given messages enough. -/
def Comes (loop : Nat → Prog (Line σ) α) (enough : Nat) (l : Line σ) (r : Except String α)
    (l' : Line σ) : Prop :=
  ∀ fuel, enough < fuel → (loop fuel).exec l = (r, l')

/-- Every request asks for no more than a message of the session can carry. -/
def Asks (m : Mnt) (es : Log) : Prop := ∀ e ∈ es, ∃ k, asked e.1 = some k ∧ k ≤ m.payload

theorem exec_read (t : Transport σ) (fid : UInt32) (n : Nat) (off : UInt64) (fuel : Nat)
    (l : Line σ) : (Mnt.read t fid n off fuel).exec l =
      (rdwr (readOne t fid off) l.mnt.payload n fuel []).exec l := by
  rw [Mnt.read, Prog.exec_bind, Prog.exec_get]

theorem exec_write {t : Transport σ} {fid : UInt32} {data : Bytes} {off : UInt64} {fuel : Nat}
    {l l' : Line σ} {r : Except String (Option Bytes)}
    (run : (rdwr (writeOne t fid data off) l.mnt.payload data.length fuel []).exec l = (r, l')) :
    (Mnt.write t fid data off fuel).exec l = (r.map (Option.map List.length), l') := by
  rw [Mnt.write, Prog.exec_bind, Prog.exec_get]
  rcases r with e | moved
  · exact Prog.exec_bind_error run
  · exact Prog.exec_bind_ok run

theorem payload_pos (agreed : 256 ≤ m.msize.toNat) : 0 < m.payload := by
  rw [Mnt.payload, iohdrsz]
  omega

/-- Whatever the server is, a read ends with no more than was asked for, and no message brought
more than it asked. -/
theorem read_any (agreed : 256 ≤ m.msize.toNat) (t : Transport σ) (s : σ) (fid : UInt32) (n : Nat)
    (off : UInt64) : ∃ r l', r ≠ .ok none ∧
      Comes (Mnt.read (logged t) fid n off) (messages m.payload n) ⟨m, s, []⟩ r l' ∧
      Asks m l'.far.2 ∧
      ∀ out, r = .ok (some out) → out.length ≤ n ∧ Pieces out l'.far.2 := by
  have none : ([] : Bytes).length ≤ n := Nat.zero_le n
  rcases rdwr_ends (bounded_read (logged t) fid off) (payload_pos agreed) none ⟨m, s, []⟩ with
    ⟨r, l', ended, short, same⟩
  rcases rdwr_trace (moves_read t fid off m n) none (same _ le_rfl) with ⟨es, log, asks, pieces⟩
  rw [nil_append] at log
  subst log
  refine ⟨r, l', ended, ?_, asks, ?_⟩
  · rintro (_ | fuel) enough
    · omega
    · rw [exec_read]
      exact same fuel (Nat.le_of_lt_succ enough)
  · intro out ok
    rcases pieces out ok with ⟨rest, rfl, each⟩
    exact ⟨short _ ok, each⟩

/-- Whatever the server is, a write ends with no more said to be written than was asked, and no
message said to have taken more than it offered. -/
theorem write_any (agreed : 256 ≤ m.msize.toNat) (t : Transport σ) (s : σ) (fid : UInt32)
    (data : Bytes) (off : UInt64) : ∃ r l', r ≠ .ok none ∧
      Comes (Mnt.write (logged t) fid data off) (messages m.payload data.length) ⟨m, s, []⟩ r l' ∧
      Asks m l'.far.2 ∧
      ∀ k, r = .ok (some k) →
        k ≤ data.length ∧ ∃ moved : Bytes, moved.length = k ∧ Pieces moved l'.far.2 := by
  have none : ([] : Bytes).length ≤ data.length := Nat.zero_le _
  rcases rdwr_ends (bounded_write (logged t) fid data off) (payload_pos agreed) none ⟨m, s, []⟩
    with ⟨r, l', ended, short, same⟩
  rcases rdwr_trace (moves_write t fid data off m) none (same _ le_rfl) with ⟨es, log, asks, pieces⟩
  rw [nil_append] at log
  subst log
  refine ⟨r.map (Option.map List.length), l', ?_, ?_, asks, ?_⟩
  · rcases r with e | _ | moved
    · exact nofun
    · exact absurd rfl ended
    · exact nofun
  · rintro (_ | fuel) enough
    · omega
    · exact exec_write (same fuel (Nat.le_of_lt_succ enough))
  · rcases r with e | _ | moved
    · exact nofun
    · exact nofun
    · rintro _ ⟨⟩
      rcases pieces moved rfl with ⟨rest, same, each⟩
      rw [nil_append] at same
      subst same
      exact ⟨short _ rfl, moved, rfl, each⟩

variable {known : UInt32} {f : File} {off : UInt64}

theorem read_served (agreed : 256 ≤ m.msize.toNat) (known : UInt32) (f : File) (n : Nat)
    (off : UInt64) : ∃ l', l'.far.1 = f ∧ Asks m l'.far.2 ∧
      Comes (Mnt.read (logged (serve known)) known n off) (messages m.payload n) ⟨m, f, []⟩
        (.ok (some ((f.bytes.drop off.toNat).take n))) l' := by
  rcases read_any agreed (serve known) f known n off with ⟨r, l', ended, comes, asks, _⟩
  have run := comes _ (Nat.lt_succ_self _)
  rw [exec_read] at run
  have start : Reading f off.toNat n [] ⟨m, f, []⟩ := ⟨rfl, Nat.zero_le n, rfl⟩
  rcases rdwr_rule (fun _ _ reading less => reading.step less)
    (fun _ _ reading whole => reading.finish whole) start run with none | ⟨_, rfl, file, rfl⟩
  · exact absurd none ended
  · exact ⟨l', file, asks, comes⟩

/-- A server that holds a file has it written as asked, where a file can be so long. -/
theorem write_served (agreed : 256 ≤ m.msize.toNat) (known : UInt32) (f : File) (data : Bytes)
    (off : UInt64) (room : off.toNat + data.length < 2 ^ 64) :
    ∃ l', l'.far.1.bytes = splice f.bytes off.toNat data ∧ Asks m l'.far.2 ∧
      Comes (Mnt.write (logged (serve known)) known data off) (messages m.payload data.length)
        ⟨m, f, []⟩ (.ok (some data.length)) l' := by
  rcases write_any agreed (serve known) f known data off with ⟨r, l', ended, comes, asks, _⟩
  rcases moved : (rdwr (writeOne (logged (serve known)) known data off) m.payload data.length
    (messages m.payload data.length + 1) []).exec ⟨m, f, []⟩ with ⟨r', l''⟩
  have run := (exec_write (l := (⟨m, f, []⟩ : Line (File × Log))) moved).symm.trans
      (comes _ (Nat.lt_succ_self _))
  rw [Prod.mk.injEq] at run
  rcases run with ⟨rfl, rfl⟩
  have start : Writing f off.toNat data [] ⟨m, f, []⟩ := ⟨rfl, Nat.zero_le _, rfl⟩
  rcases rdwr_rule (fun _ _ writing less => writing.step room less)
    (fun _ _ writing whole => writing.finish whole) start moved with none | ⟨_, rfl, file, rfl⟩
  · rw [none] at ended
    exact absurd rfl ended
  · exact ⟨l'', file, asks, comes⟩

end Whole

theorem version_range {σ : Type} (iounit : UInt32) (t : Transport σ) (msize : UInt32) (v : String) :
    Prog.Ensures (fun _ => True) (version iounit t msize v)
      fun agreed => 256 ≤ agreed.1.toNat ∧ agreed.1.toNat ≤ 1024 * 1024 := by
  rw [version]
  apply Prog.ensures_ite
  · exact Prog.ensures_throw _
  · apply Prog.Ensures.bind (P := fun _ => True)
    · exact fun _ _ => ⟨trivial, fun _ _ => trivial⟩
    intro reply _
    rcases unframe reply with _ | msg
    · exact Prog.ensures_throw _
    apply Prog.ensures_ite
    · exact Prog.ensures_throw _
    rcases R.u32.on msg.body with ⟨_ | got, rest⟩
    · exact Prog.ensures_throw _
    dsimp only
    rcases R.s.on rest with ⟨_ | name, _⟩
    · exact Prog.ensures_throw _
    apply Prog.ensures_ite
    · exact Prog.ensures_throw _
    by_cases nonsense : got < 256 ∨ 1024 * 1024 < got
    · rw [if_pos nonsense]
      exact Prog.ensures_throw _
    · rw [if_neg nonsense]
      apply Prog.ensures_ite
      · exact Prog.ensures_throw _
      · apply Prog.ensures_pure
        rw [UInt32.lt_iff_toNat_lt, UInt32.lt_iff_toNat_lt, not_or, not_lt, not_lt] at nonsense
        exact nonsense

/-- Reads and writes through a mount. What the server says of the session leaves its messages'
size in bounds; and in such a session a file that a server holds is read and written as asked, in
requests that each ask for no more than a message carries, while of any server at all the loop
ends, with no more than was asked for and no more of it from a message than that one asked. -/
theorem mntrdwr {m : Mnt} (agreed : 256 ≤ m.msize.toNat) :
    (∀ {σ : Type} (iounit : UInt32) (t : Transport σ) (msize : UInt32) (v : String) (s s' : σ) got,
      (version iounit t msize v).exec s = (.ok got, s') →
        256 ≤ got.1.toNat ∧ got.1.toNat ≤ 1024 * 1024) ∧
    (∀ known f n (off : UInt64), ∃ l', l'.far.1 = f ∧ Asks m l'.far.2 ∧
      Comes (Mnt.read (logged (serve known)) known n off) (messages m.payload n) ⟨m, f, []⟩
        (.ok (some ((f.bytes.drop off.toNat).take n))) l') ∧
    (∀ known f (data : Bytes) (off : UInt64), off.toNat + data.length < 2 ^ 64 →
      ∃ l', l'.far.1.bytes = splice f.bytes off.toNat data ∧ Asks m l'.far.2 ∧
        Comes (Mnt.write (logged (serve known)) known data off) (messages m.payload data.length)
          ⟨m, f, []⟩ (.ok (some data.length)) l') ∧
    (∀ {σ : Type} (t : Transport σ) (s : σ) fid n off, ∃ r l', r ≠ .ok none ∧
      Comes (Mnt.read (logged t) fid n off) (messages m.payload n) ⟨m, s, []⟩ r l' ∧
        Asks m l'.far.2 ∧ ∀ out, r = .ok (some out) → out.length ≤ n ∧ Pieces out l'.far.2) ∧
    ∀ {σ : Type} (t : Transport σ) (s : σ) fid (data : Bytes) off, ∃ r l', r ≠ .ok none ∧
      Comes (Mnt.write (logged t) fid data off) (messages m.payload data.length) ⟨m, s, []⟩ r l' ∧
        Asks m l'.far.2 ∧ ∀ k, r = .ok (some k) →
          k ≤ data.length ∧ ∃ moved : Bytes, moved.length = k ∧ Pieces moved l'.far.2 := by
  refine ⟨?_, read_served agreed, write_served agreed, read_any agreed, write_any agreed⟩
  intro σ iounit t msize v s s' got run
  apply (version_range iounit t msize v s trivial).2 got
  rw [run]

def smallest : Mnt := ⟨256, 0⟩

theorem mntrdwr_smallest : 256 ≤ smallest.msize.toNat ∧
    ∃ l', Comes (Mnt.read (logged (serve 1)) 1 2 1) (messages smallest.payload 2)
      ⟨smallest, ⟨[7, 8, 9], by decide⟩, []⟩ (.ok (some [8, 9])) l' := by
  have agreed : 256 ≤ smallest.msize.toNat := by decide
  rcases (mntrdwr agreed).2.1 1 ⟨[7, 8, 9], by decide⟩ 2 1 with ⟨l', _, _, comes⟩
  exact ⟨agreed, l', comes⟩

end Ipnx.Rdwr
