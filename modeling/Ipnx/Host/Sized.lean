import Ipnx.Host.Given
import Ipnx.Host.Sizes

/-!
# Every reply within the size agreed on

The commands' server's replies, made at once or when the host has something to say, and both
servers over every run.
-/

namespace Ipnx.Host

open List
open Ipnx.Ninep (W R Msg T Dir utf8)

namespace Oscmd

variable {msize : UInt32}

/-- Whatever its tag, the reply is within the size. -/
def Answer.Fits (msize : UInt32) (a : Answer) : Prop := ∀ tag, Within msize (a.frame tag)

theorem Answer.fits_error {e : String} (short : Short msize e) : (Answer.error e).Fits msize :=
  fun tag => short.fits.within tag

theorem Answer.fits_read {b : Bytes} (room : b.length + 11 ≤ msize.toNat) :
    (Answer.read b).Fits msize := by
  intro tag
  apply Fits.within
  apply fits_of_length _ (by decide)
  rw [length_raw, length_u32, length_new]
  omega

theorem Answer.Fits.mono {a : Answer} {msize' : UInt32} (fits : a.Fits msize)
    (le : msize.toNat ≤ msize'.toNat) : a.Fits msize' := by
  intro tag
  have within := fits tag
  refine ⟨within.length.trans le, fun opened n read => ?_⟩
  exact (within.iounit opened n read).trans le

/-- Each read gets no more of the bytes in hand than a reply has room for. -/
def Room (msize : UInt32) : Nat → List (UInt16 × UInt32) → Prop
  | _, [] => True
  | length, (_, count) :: reads =>
      min count.toNat length + 11 ≤ msize.toNat ∧ Room msize (length - count.toNat) reads

/-- A request, other than of a version, that a size has room for: it opens no file where that is
below the server's own, walks by no more names than a reply has room for, and reads or asks for no
more than that; and a host that says why it starts no command in few words. -/
def Polite (msize : UInt32) (s : State) (refused : Option String) : Request → Prop
  | .attach _ _ _ => ∀ e, refused = some e → Short msize e
  | .walk _ _ nw _ => 9 + 13 * nw ≤ msize.toNat
  | .open _ _ => Host.msizeMax ≤ msize
  | .read fid _ count => ∀ f, s.fids.find fid = some f →
      match f.q with
      | .dir => count.toNat + 11 ≤ msize.toNat ∨
          ((s.listing f.conv).flatMap Dir.convD2M).length + 11 ≤ msize.toNat
      | .wait => ∀ c, s.convs f.conv = some c → ∀ record ∈ c.status.head?,
          min record.length count.toNat + 11 ≤ msize.toNat
      | q => ∀ c, s.convs f.conv = some c →
          let i := if q = .data then Out.out else .err
          Room msize (c.out i).left.length ((c.out i).held ++ [(0, count)])
  | .stat fid => ∀ f, s.fids.find fid = some f →
      (s.dirof f.conv f.q).convD2M.length + 9 ≤ msize.toNat
  | _ => True

/-- What a size has room for, of what is not a request: short errors of the host's, and reads and
records that are no more than a reply has room for. -/
def Terse (msize : UInt32) (s : State) : Action → Prop
  | .fetched id i r =>
      (∀ e, r = .error e → Short msize e) ∧ ∀ c, s.convs (s.threads id).conv = some c →
        Room msize ((c.out i).take r).2.left.length ((c.out i).take r).2.held
  | .wrote _ r => ∀ e, r = .error e → Short msize e
  | .exited id record => ∀ c, s.convs (s.threads id).conv = some c →
      ∀ r ∈ (c.status ++ [record]).zip c.waiting,
        min r.1.length r.2.2.toNat + 11 ≤ msize.toNat
  | _ => True

namespace State

variable {s : State}

theorem letgo_done (n : UInt32) (wait : Bool) : (s.letgo n wait).done = s.done := by
  unfold letgo
  cases s.convs n with
  | none => rfl
  | some c =>
      dsimp only
      cases c.child <;> dsimp only <;> split <;> rfl

theorem clunked_done (f : Fid) : (s.clunked f).done = s.done := by
  unfold clunked
  repeat' split
  all_goals first | rfl | exact letgo_done _ _

theorem forget_done (fid : Option UInt32) : (s.forget fid).done = s.done := by
  unfold forget
  repeat' split
  all_goals first | rfl | exact clunked_done _

theorem attach_done (n : UInt32) (refused : Option String) :
    (s.attach n refused).2.done = s.done := by
  unfold attach
  repeat' split
  all_goals rfl

theorem tattach_done (fid : UInt32) (uname : String) (n : Option UInt32)
    (refused : Option String) : (s.tattach fid uname n refused).2.done = s.done := by
  unfold tattach
  rcases n with _ | n
  · rfl
  dsimp only
  have same := attach_done (s := s) n refused
  rcases s.convs n with _ | c
  · rfl
  dsimp only
  rcases attached : s.attach n refused with ⟨e | _, s'⟩ <;> rw [attached] at same <;> exact same

theorem twalk_done (src newfid : UInt32) (nw : Nat) (names : List String) :
    (s.twalk src newfid nw names).2.done = s.done := by
  unfold twalk
  repeat' split
  all_goals rfl

theorem topen_done (fid : UInt32) (mode : UInt8) : (s.topen fid mode).2.done = s.done := by
  unfold topen
  cases s.fids.find fid with
  | none => rfl
  | some f =>
      dsimp only
      cases s.convs f.conv with
      | none => rfl
      | some c =>
          dsimp only
          split <;> rfl

theorem twrite_done (tag : UInt16) (fid : UInt32) (data : Bytes) :
    (s.twrite tag fid data).2.done = s.done := by
  unfold twrite
  repeat' split
  all_goals rfl

theorem serve_room {alive : Bool} {str : Stream} {reads : List (UInt16 × UInt32)}
    (roomy : Roomy msize) (room : Room msize str.left.length reads) :
    ∀ r ∈ (str.serve alive reads).1, r.2.length + 11 ≤ msize.toNat := by
  have least := roomy.le
  fun_induction Stream.serve alive str reads with
  | case1 str =>
      intro r member
      cases member
  | case2 str tag count rest some_left k r ih =>
      intro x member
      rcases room with ⟨first, room⟩
      rcases mem_cons.1 member with rfl | later
      · rw [length_take]
        omega
      · apply ih _ x later
        have left : (str.left.drop k).length = str.left.length - count.toNat := by
          rw [length_drop]
          omega
        rw [left]
        exact room
  | case3 str tag count rest none_left ended r ih =>
      intro x member
      rcases mem_cons.1 member with rfl | later
      · rw [length_nil]
        omega
      · apply ih _ x later
        have none_ : str.left.length = str.left.length - count.toNat := by
          rw [not_not.1 none_left, length_nil, Nat.zero_sub]
        rw [none_]
        exact room.2
  | case4 str tag count rest none_left more asked =>
      intro r member
      cases member
  | case5 str tag count rest none_left more idle alive =>
      intro r member
      cases member
  | case6 str tag count rest none_left more idle gone r ih =>
      intro x member
      rcases mem_cons.1 member with rfl | later
      · rw [length_nil]
        omega
      · apply ih _ x later
        have none_ : str.left.length = str.left.length - count.toNat := by
          rw [not_not.1 none_left, length_nil, Nat.zero_sub]
        dsimp only
        rw [none_]
        exact room.2

/-- The replies that are added to those not yet taken fit. -/
def Adds (msize : UInt32) (s s' : State) : Prop := ∀ x ∈ s'.done, x ∈ s.done ∨ x.2.Fits msize

theorem Adds.of_done {s' : State} (same : s'.done = s.done) : Adds msize s s' := by
  intro x member
  left
  rwa [← same]

theorem adds_reading {done : List (UInt16 × Answer)} {replies : List (UInt16 × Bytes)} {s' : State}
    (room : ∀ r ∈ replies, r.2.length + 11 ≤ msize.toNat)
    (same : s'.done = done ++ reading replies) : ∀ x ∈ s'.done, x ∈ done ∨ x.2.Fits msize := by
  intro x member
  rw [same, mem_append] at member
  refine member.imp_right fun made => ?_
  rcases mem_map.1 made with ⟨r, there, rfl⟩
  exact Answer.fits_read (room r there)

/-- What is answered at once fits, and what is added to the replies not yet taken does. -/
def Answers (msize : UInt32) (s : State) (r : Option Answer × Option Given × State) : Prop :=
  (∀ a, r.1 = some a → a.Fits msize) ∧ Adds msize s r.2.2

theorem Answers.once {a : Answer} {g : Option Given} {s' : State} (fits : a.Fits msize)
    (same : s'.done = s.done) : Answers msize s (some a, g, s') := by
  refine ⟨?_, .of_done same⟩
  rintro _ ⟨⟩
  exact fits

theorem Answers.later {g : Option Given} {s' : State} (same : s'.done = s.done) :
    Answers msize s (none, g, s') := by
  refine ⟨?_, .of_done same⟩
  rintro _ ⟨⟩

theorem tstream_fits {n : UInt32} {c : Conv} {i : Out} {tag : UInt16} {count : UInt32}
    (roomy : Roomy msize)
    (room : Room msize (c.out i).left.length ((c.out i).held ++ [(tag, count)])) :
    Answers msize s (s.tstream n c i tag count) := by
  let str := { c.out i with held := (c.out i).held ++ [(tag, count)] }
  have replies : ∀ r ∈ (s.serve n c i str).1, r.2.length + 11 ≤ msize.toNat :=
    serve_room roomy room
  constructor
  · intro a answered
    rcases Option.map_eq_some_iff.1 answered with ⟨r, there, rfl⟩
    exact Answer.fits_read (replies r (mem_of_find?_eq_some there))
  · apply adds_reading _ rfl
    intro r there
    exact replies r (mem_of_mem_eraseP there)

theorem twait_fits {n : UInt32} {c : Conv} {tag : UInt16} {count : UInt32}
    (room : ∀ record ∈ c.status.head?, min record.length count.toNat + 11 ≤ msize.toNat) :
    Answers msize s (s.twait n c tag count) := by
  rcases status : c.status with _ | ⟨record, left⟩
  · simp only [twait, status]
    exact .later rfl
  rcases waiting : c.waiting with _ | ⟨w, others⟩
  · simp only [twait, status, waiting]
    apply Answers.once _ rfl
    have fits := room record (by rw [status]; rfl)
    apply Answer.fits_read
    rw [length_take]
    omega
  · simp only [twait, status, waiting]
    exact .later rfl

theorem waited_fits {status : List Bytes} {waiting : List (UInt16 × UInt32)}
    (room : ∀ r ∈ status.zip waiting, min r.1.length r.2.2.toNat + 11 ≤ msize.toNat) :
    ∀ x ∈ (waited status waiting).1, x.2.Fits msize := by
  induction status generalizing waiting with
  | nil =>
      intro x member
      cases waiting <;> cases member
  | cons record status ih =>
      cases waiting with
      | nil =>
          intro x member
          cases member
      | cons w waiting =>
          intro x member
          rcases mem_cons.1 member with rfl | later
          · have fits := room (record, w) (mem_cons_self ..)
            apply Answer.fits_read
            rw [length_take]
            dsimp only at fits
            omega
          · apply ih _ x later
            intro r there
            exact room r (mem_cons_of_mem _ there)

theorem room_tag {length : Nat} {reads : List (UInt16 × UInt32)} {tag tag' : UInt16}
    {count : UInt32} (room : Room msize length (reads ++ [(tag, count)])) :
    Room msize length (reads ++ [(tag', count)]) := by
  induction reads generalizing length with
  | nil => exact room
  | cons r reads ih => exact ⟨room.1, ih room.2⟩

theorem tread_fits {refused : Option String} {tag : UInt16} {fid : UInt32} {off : UInt64}
    {count : UInt32} (roomy : Roomy msize) (polite : Polite msize s refused (.read fid off count)) :
    Answers msize s (s.tread tag fid off count) := by
  have refusal {e : String} (short : Short least e) : Answers msize s
      (some (Answer.error e), none, s) := .once (Answer.fits_error (roomy.short short)) rfl
  rcases found : s.fids.find fid with _ | ⟨conv, q, mode⟩
  · simp only [tread, found]
    exact refusal (by decide)
  have bounds := polite _ found
  rcases mode with _ | mode
  · simp only [tread, found]
    exact refusal (by decide)
  have streams {c : Conv} (i : Out)
      (room : Room msize (c.out i).left.length ((c.out i).held ++ [(0, count)])) : Answers msize s
      (if mode = owrite then (some (.error eperm), none, s) else s.tstream conv c i tag count) := by
    split_ifs
    · exact refusal (by decide)
    · exact tstream_fits roomy (room_tag room)
  rcases q with _ | _ | _ | _
  · simp only [tread, found]
    apply Answers.once _ rfl
    apply Answer.fits_read
    have whole : ([Q.data, .stderr, .wait].map fun q => (s.dirof conv q).convD2M).flatten =
        (s.listing conv).flatMap Dir.convD2M := by
      rw [listing, flatMap_map, List.flatMap]
    rw [whole, length_take, length_drop]
    dsimp only at bounds
    omega
  · rcases live : s.convs conv with _ | c
    · simp only [tread, found, live]
      split_ifs <;> exact refusal (by decide)
    · simp only [tread, found, live]
      exact streams .out (bounds c live)
  · rcases live : s.convs conv with _ | c
    · simp only [tread, found, live]
      split_ifs <;> exact refusal (by decide)
    · simp only [tread, found, live]
      exact streams .err (bounds c live)
  · rcases live : s.convs conv with _ | c
    · simp only [tread, found, live]
      exact refusal (by decide)
    · simp only [tread, found, live]
      exact twait_fits (bounds c live)

theorem attach_refused {n : UInt32} {refused : Option String} {e : String}
    (failed : (s.attach n refused).1 = .error e) : refused = some e := by
  rcases live : s.convs n with _ | c
  · simp only [attach, live] at failed
    cases failed
  rcases cmd : c.cmd with _ | cmd
  · simp only [attach, live, cmd] at failed
    cases failed
  rcases refused with _ | e'
  · simp only [attach, live, cmd] at failed
    cases failed
  · simp only [attach, live, cmd] at failed
    cases failed
    rfl

theorem tattach_fits {fid : UInt32} {uname : String} {n : Option UInt32} {refused : Option String}
    (roomy : Roomy msize) (short : ∀ e, refused = some e → Short msize e) :
    (s.tattach fid uname n refused).1.Fits msize := by
  have none_ : (Answer.error enonexist).Fits msize :=
    Answer.fits_error (roomy.short (by decide))
  rcases n with _ | n
  · exact none_
  rcases live : s.convs n with _ | c
  · simp only [tattach, live]
    exact none_
  rcases attached : s.attach n refused with ⟨e | _, s'⟩
  · simp only [tattach, live, attached]
    exact Answer.fits_error (short e (attach_refused (congrArg Prod.fst attached)))
  · simp only [tattach, live, attached]
    intro tag
    apply Fits.within
    apply fits_of_length _ (by decide)
    have least := roomy.le
    rw [length_qid, length_new]
    omega

theorem walkNames_length {conv : UInt32} {n : Nat} {names : List String} {q q' : Q}
    {qids qids' : List Name.Qid} (walked : walkNames conv n names q qids = some (q', qids')) :
    qids'.length ≤ qids.length + n := by
  fun_induction walkNames conv n names q qids with
  | case1 names q qids =>
      cases walked
      exact le_rfl
  | case2 n q qids => cases walked
  | case3 q qids n name names stopped =>
      cases walked
      exact Nat.le_add_right _ _
  | case4 qids n name names q next there ih =>
      have rest := ih walked
      rw [length_append, length_singleton] at rest
      omega

theorem twalk_fits {src newfid : UInt32} {nw : Nat} {names : List String} (roomy : Roomy msize)
    (few : 9 + 13 * nw ≤ msize.toNat) : (s.twalk src newfid nw names).1.Fits msize := by
  unfold twalk
  rcases s.fids.find src with _ | f
  · exact Answer.fits_error (roomy.short (by decide))
  dsimp only
  rcases walked : walkNames f.conv nw names f.q [] with _ | ⟨q, qids⟩
  · exact Answer.fits_error (roomy.short (by decide))
  have short := walkNames_length walked
  have reply : (Answer.walk qids).Fits msize := by
    intro tag
    apply Fits.within
    apply fits_of_length _ (by decide)
    rw [length_qids, length_u16, length_new]
    rw [length_nil] at short
    omega
  dsimp only
  split_ifs
  · exact Answer.fits_error (roomy.short (by decide))
  · exact reply
  · exact reply

theorem topen_fits {fid : UInt32} {mode : UInt8} (roomy : Roomy msize)
    (enough : Host.msizeMax ≤ msize) : (s.topen fid mode).1.Fits msize := by
  unfold topen
  rcases s.fids.find fid with _ | f
  · exact Answer.fits_error (roomy.short (by decide))
  dsimp only
  rcases s.convs f.conv with _ | c
  · exact Answer.fits_error (roomy.short (by decide))
  dsimp only
  split_ifs
  · exact Answer.fits_error (roomy.short (by decide))
  · exact fun tag => (fits_opened enough _).within tag

theorem twrite_fits {tag : UInt16} {fid : UInt32} {data : Bytes} (roomy : Roomy msize) (a : Answer)
    (answered : (s.twrite tag fid data).1 = some a) : a.Fits msize := by
  have refusal {e : String} (short : Short least e) (same : some (Answer.error e) = some a) :
      a.Fits msize := by
    cases same
    exact Answer.fits_error (roomy.short short)
  rcases found : s.fids.find fid with _ | f
  · simp only [twrite, found] at answered
    exact refusal (by decide) answered
  simp only [twrite, found] at answered
  split_ifs at answered
  · exact refusal (by decide) answered
  rcases live : s.convs f.conv with _ | c
  · simp only [live] at answered
    exact refusal (by decide) answered
  rcases input : c.stdin with _ | id
  · simp only [live, input] at answered
    exact refusal (by decide) answered
  · simp only [live, input] at answered
    cases answered

theorem tstat_fits {fid : UInt32} (roomy : Roomy msize) (few : ∀ f, s.fids.find fid = some f →
    (s.dirof f.conv f.q).convD2M.length + 9 ≤ msize.toNat) : (s.tstat fid).Fits msize := by
  unfold tstat
  rcases found : s.fids.find fid with _ | f
  · exact Answer.fits_error (roomy.short (by decide))
  · have room := few f found
    intro tag
    apply Fits.within
    apply fits_of_length _ (by decide)
    rw [length_raw, length_u16, length_new]
    omega

end State

namespace Request

/-- A request of a version is of a message that says so, and what one is told that is too short
is short. -/
def Told (m : Msg) : Request → Prop
  | .version _ _ => m.ty = T.version.code
  | .short what => Short least what
  | _ => True

theorem of_told (m : Msg) : Told m (of m) := by
  have attach : Told m (ofAttach m.body) := by
    unfold ofAttach
    split
    · trivial
    · exact (by decide : Short least "short Tattach")
  have walk : Told m (ofWalk m.body) := by
    unfold ofWalk
    split
    · trivial
    · exact (by decide : Short least "short Twalk")
  have opened : Told m (ofOpen m.body) := by
    unfold ofOpen
    split
    · trivial
    · exact (by decide : Short least "short Topen")
  have read : Told m (ofRead m.body) := by
    unfold ofRead
    split
    · trivial
    · exact (by decide : Short least "short Tread")
  have write : Told m (ofWrite m.body) := by
    unfold ofWrite
    split
    · trivial
    · exact (by decide : Short least "short Twrite")
  have stat : Told m (ofStat m.body) := by
    unfold ofStat
    split
    · trivial
    · exact (by decide : Short least "short Tstat")
  have either {p : Prop} [Decidable p] {r r' : Request} (first : p → Told m r)
      (second : Told m r') : Told m (if p then r else r') := by
    split
    · exact first ‹p›
    · exact second
  rw [of]
  apply either
  · intro ty
    exact ty
  apply either
  · intro _
    exact trivial
  apply either
  · intro _
    exact attach
  apply either
  · intro _
    exact walk
  apply either
  · intro _
    exact opened
  apply either
  · intro _
    exact trivial
  apply either
  · intro _
    exact trivial
  apply either
  · intro _
    exact trivial
  apply either
  · intro _
    exact read
  apply either
  · intro _
    exact write
  apply either
  · intro _
    exact stat
  apply either
  · intro _
    exact trivial
  apply either
  · intro _
    exact trivial
  trivial

end Request

namespace State

variable {s : State}

theorem submit_fits {m : Msg} {refused : Option String} (roomy : Roomy msize)
    (other : m.ty ≠ T.version.code) (polite : Polite msize s refused (.of m)) :
    Answers msize s (s.submit m.tag refused (.of m)) := by
  have refusal {e : String} (short : Short least e) : (Answer.error e).Fits msize :=
    Answer.fits_error (roomy.short short)
  have plain {ty : UInt8} (other : ty ≠ T.open.reply ∧ ty ≠ T.create.reply) (tag : UInt16) :
      Within msize (W.new.frame ty tag) := (fits_new roomy other).within tag
  have told := Request.of_told m
  rcases asked : Request.of m with _ | _ | _ | _ | _ | _ | _ | _ | _ | _ | _ | _ | _ | _ | _ <;>
    rw [asked] at polite told
  · exact absurd told other
  · exact .once (refusal (by decide)) rfl
  · exact .once (tattach_fits roomy polite) (tattach_done ..)
  · exact .once (twalk_fits roomy polite) (twalk_done ..)
  · exact .once (topen_fits roomy polite) (topen_done ..)
  · exact .once (refusal (by decide)) rfl
  · exact .once (refusal (by decide)) (forget_done _)
  · exact .once (refusal (by decide)) rfl
  · exact tread_fits roomy polite
  · exact ⟨twrite_fits roomy, .of_done (twrite_done ..)⟩
  · exact .once (tstat_fits roomy polite) rfl
  · rename_i old
    refine .once (plain (by decide)) ?_
    cases old <;> rfl
  · exact .once (plain (by decide)) (forget_done _)
  · exact .once (refusal told) rfl
  · exact .once (refusal (by decide)) rfl

theorem fetched_fits {n : UInt32} {i : Out} {r : Except String Bytes} (roomy : Roomy msize)
    (short : ∀ e, r = .error e → Short msize e) (room : ∀ c, s.convs n = some c →
      Room msize ((c.out i).take r).2.left.length ((c.out i).take r).2.held) :
    Adds msize s (s.fetched n i r).2 := by
  unfold fetched
  rcases live : s.convs n with _ | c
  · exact .of_done rfl
  have failed : ∀ x ∈ ((c.out i).take r).1, x.2.Fits msize := by
    rcases r with e | b
    · intro x member
      rcases mem_map.1 member with ⟨h, _, rfl⟩
      exact Answer.fits_error (short e rfl)
    · rintro x ⟨⟩
  have replies : ∀ r' ∈ (((c.out i).take r).2.serve (s.alive ((c.out i).take r).2 i)
      ((c.out i).take r).2.held).1, r'.2.length + 11 ≤ msize.toNat :=
    serve_room roomy (room c live)
  intro x member
  rcases mem_append.1 member with before | made
  · rcases mem_append.1 before with old | made
    · exact .inl old
    · exact .inr (failed x made)
  · rcases mem_map.1 made with ⟨r', there, rfl⟩
    exact .inr (Answer.fits_read (replies r' there))

theorem wrote_fits {tag : UInt16} {r : Except String Nat} (roomy : Roomy msize)
    (short : ∀ e, r = .error e → Short msize e) : Adds msize s (s.wrote tag r) := by
  have added {a : Answer} {s' : State} (fits : a.Fits msize)
      (made : s'.done = s.done ++ [(tag, a)]) : Adds msize s s' := by
    intro x member
    rw [made] at member
    rcases mem_append.1 member with old | made
    · exact .inl old
    · cases mem_singleton.1 made
      exact .inr fits
  unfold wrote
  split_ifs
  · rcases r with e | k
    · exact added (Answer.fits_error (short e rfl)) rfl
    · dsimp only
      split_ifs
      · exact added (Answer.fits_error (roomy.short (by decide))) rfl
      · apply added _ rfl
        intro tag
        apply Fits.within
        apply fits_of_length _ (by decide)
        have least := roomy.le
        rw [length_u32, length_new]
        omega
  · exact .of_done rfl

theorem exited_fits {n : UInt32} {record : Bytes}
    (room : ∀ c, s.convs n = some c → ∀ r ∈ (c.status ++ [record]).zip c.waiting,
      min r.1.length r.2.2.toNat + 11 ≤ msize.toNat) : Adds msize s (s.exited n record).2 := by
  unfold exited
  rcases live : s.convs n with _ | c
  · exact .of_done rfl
  dsimp only
  split_ifs
  · exact .of_done rfl
  · intro x member
    rcases mem_append.1 member with old | made
    · exact .inl old
    · exact .inr (waited_fits (room c live) x made)

theorem act_fits {a : Action} (roomy : Roomy msize) (terse : Terse msize s a)
    (other : ∀ m refused, a ≠ .submit m refused) : Adds msize s (s.act a).2.2 := by
  cases a with
  | start n cmd bg => exact .of_done rfl
  | submit m refused => exact absurd rfl (other m refused)
  | release n => exact .of_done (letgo_done n false)
  | fetched id i r => exact fetched_fits roomy terse.1 terse.2
  | wrote id r =>
      rcases writes : (s.threads id).writes with _ | ⟨w, writes'⟩
      · simp only [act, writes]
        exact .of_done rfl
      · simp only [act, writes]
        exact wrote_fits roomy terse
  | exited id record => exact exited_fits terse
  | harvest =>
      rintro x ⟨⟩

end State

/-- The replies of a step: at once to a request, or those the kernel takes. -/
def replies (s : State) : Action → List Bytes
  | .submit m refused => ((s.act (.submit m refused)).1.map (·.frame m.tag)).toList
  | .harvest => s.done.map fun r => r.2.frame r.1
  | _ => []

def agreedBy (agreed : Option UInt32) (s : State) : Action → Option UInt32
  | .submit m refused => (replies s (.submit m refused)).foldl (agreedAfter · m) agreed
  | _ => agreed

def talk (x : Session State) (a : Action) : Session State :=
  x.say (x.server.act a).2.2 (agreedBy x.agreed x.server a) (replies x.server a)

def talking : System (Session State) Action where
  init x := ∃ threads, x = .new (.new threads)
  step x a x' := x.server.Can a ∧ x' = talk x a

/-- What a size is agreed on with: it has room for the servers' errors, and for the replies not yet
taken where one was agreed on that is no more. -/
def Agrees (x : Session State) (m : Msg) : Prop :=
  Store.Offers m ∧ (x.server.done = [] ∨ ∃ msize ∈ x.agreed,
    msize.toNat ≤ (min ((R.u32.on m.body).1.getD Host.msizeMax) Host.msizeMax).toNat)

/-- What there is room for in the size agreed on, or what agrees on enough. -/
def Modest (x : Session State) (a : Action) : Prop :=
  (∀ m refused, a = .submit m refused →
    if m.ty = T.version.code then Agrees x m
    else ∀ msize ∈ x.agreed, Polite msize x.server refused (.of m)) ∧
  ∀ msize ∈ x.agreed, Terse msize x.server a

/-- Every reply so far is within what was agreed on, and those not yet taken are within what is. -/
structure Keeps (x : Session State) : Prop where
  kept : x.Kept
  roomy : ∀ msize ∈ x.agreed, Roomy msize
  done : ∀ msize ∈ x.agreed, ∀ r ∈ x.server.done, r.2.Fits msize

theorem keeps_version {x : Session State} {m : Msg} {refused : Option String} (keeps : Keeps x)
    (ty : m.ty = T.version.code) (agrees : Agrees x m) : Keeps (talk x (.submit m refused)) := by
  have asked : Request.of m = .ofVersion m.body := by rw [Request.of, if_pos ty]
  have answered : ∃ v, (utf8 v).length ≤ 7 ∧ x.server.act (.submit m refused) =
      (some (.version (min ((R.u32.on m.body).1.getD Host.msizeMax) Host.msizeMax) v), none,
        x.server) := by
    rw [State.act, asked, Request.ofVersion]
    refine ⟨_, ?_, rfl⟩
    split_ifs <;> decide
  rcases answered with ⟨v, named, answered⟩
  rcases agrees with ⟨offers, before⟩
  have made := version_within (offers ty) named m.tag
  have reply : replies x.server (.submit m refused) = [(Answer.version
      (min ((R.u32.on m.body).1.getD Host.msizeMax) Host.msizeMax) v).frame m.tag] := by
    rw [replies, answered]
    rfl
  have agreed : agreedBy x.agreed x.server (.submit m refused) =
      some (min ((R.u32.on m.body).1.getD Host.msizeMax) Host.msizeMax) := by
    rw [agreedBy, reply]
    exact (if_pos ty).trans made.2
  rw [talk, agreed, reply, answered]
  refine ⟨keeps.kept.say ?_, ?_, ?_⟩
  · intro b there msize known
    cases mem_singleton.1 there
    cases known
    exact made.1
  · intro msize known
    cases known
    exact offers ty
  · intro msize known r waits
    cases known
    rcases before with none_ | ⟨old, known, le⟩
    · have member : r ∈ x.server.done := waits
      rw [none_] at member
      cases member
    · exact (keeps.done old known r waits).mono le

theorem keeps_request {x : Session State} {m : Msg} {refused : Option String} (keeps : Keeps x)
    (ty : m.ty ≠ T.version.code)
    (polite : ∀ msize ∈ x.agreed, Polite msize x.server refused (.of m)) :
    Keeps (talk x (.submit m refused)) := by
  have answers (msize : UInt32) (known : msize ∈ x.agreed) :=
    State.submit_fits (keeps.roomy msize known) ty (polite msize known)
  have agreed : agreedBy x.agreed x.server (.submit m refused) = x.agreed := by
    rw [agreedBy, replies]
    rcases (x.server.act (.submit m refused)).1 with _ | a
    · rfl
    · exact if_neg ty
  rw [talk, agreed]
  refine ⟨keeps.kept.say ?_, keeps.roomy, ?_⟩
  · intro b there msize known
    rcases Option.map_eq_some_iff.1 (Option.mem_toList.1 there) with ⟨a, answered, rfl⟩
    exact (answers msize known).1 a answered m.tag
  · intro msize known r waits
    exact ((answers msize known).2 r waits).elim (keeps.done msize known r) id

theorem keeps_talk {x : Session State} {a : Action} (keeps : Keeps x) (modest : Modest x a) :
    Keeps (talk x a) := by
  rcases modest with ⟨asked, terse⟩
  have quiet (other : ∀ m refused, a ≠ .submit m refused)
      (same : agreedBy x.agreed x.server a = x.agreed)
      (said : ∀ b ∈ replies x.server a, ∀ msize ∈ x.agreed, Within msize b) :
      Keeps (talk x a) := by
    rw [talk, same]
    refine ⟨keeps.kept.say said, keeps.roomy, ?_⟩
    intro msize known r waits
    have adds := State.act_fits (keeps.roomy msize known) (terse msize known) other
    exact (adds r waits).elim (keeps.done msize known r) id
  cases a with
  | submit m refused =>
      have asks := asked m refused rfl
      split_ifs at asks with ty
      · exact keeps_version keeps ty asks
      · exact keeps_request keeps ty asks
  | harvest =>
      apply quiet (by rintro m refused ⟨⟩) rfl
      intro b there msize known
      rcases mem_map.1 there with ⟨r, waits, rfl⟩
      exact keeps.done msize known r waits r.1
  | start n cmd bg => exact quiet (by rintro m refused ⟨⟩) rfl (by rintro b ⟨⟩)
  | release n => exact quiet (by rintro m refused ⟨⟩) rfl (by rintro b ⟨⟩)
  | fetched id i r => exact quiet (by rintro m refused ⟨⟩) rfl (by rintro b ⟨⟩)
  | wrote id r => exact quiet (by rintro m refused ⟨⟩) rfl (by rintro b ⟨⟩)
  | exited id record => exact quiet (by rintro m refused ⟨⟩) rfl (by rintro b ⟨⟩)

/-- Every reply of the commands' server is within the size agreed on, where what is asked of it and
what the host says are modest. -/
theorem kept_of_reach {x : Session State} (reached : talking.Reach Modest x) : x.Kept := by
  have keeps : Keeps x := by
    apply reached.invariant Keeps
    · rintro x ⟨threads, rfl⟩
      refine ⟨?_, ?_, ?_⟩
      · rintro r ⟨⟩
      · rintro msize ⟨⟩
      · rintro msize ⟨⟩
    · rintro x a x' keeps modest ⟨_, rfl⟩
      exact keeps_talk keeps modest
  exact keeps.kept

end Oscmd

/-- Every reply of either server is within the size agreed on, where what it is asked is modest. -/
theorem replies_within {B : Type} {k : Backend B} (plain : Store.Plain k) :
    (∀ x, (Store.talking k).Reach (Store.Modest k) x → x.Kept) ∧
      ∀ x, Oscmd.talking.Reach Oscmd.Modest x → x.Kept :=
  ⟨fun _ reached => Store.kept_of_reach plain reached,
    fun _ reached => Oscmd.kept_of_reach reached⟩

/-- A keeper whose files all have one text. -/
def stand : Backend Unit :=
  { rack with read := fun _ _ _ n => (.ok ((utf8 "text").take n), ()) }

theorem stand_plain : Store.Plain stand where
  toLooks := ⟨fun _ _ => rfl, fun _ _ => rfl⟩
  bytes := by
    rintro b p off n data ⟨⟩
    exact length_take_le ..

theorem stand_brief : Store.Brief stand msizeMax where
  read := by rintro b p off n e ⟨⟩
  write := by
    rintro b p off data e ⟨⟩
    decide
  truncate := by
    rintro b p len e ⟨⟩
    decide
  mkdir := by
    rintro b p perm e ⟨⟩
    decide
  mkfile := by
    rintro b p perm e ⟨⟩
    decide
  chmod := by
    rintro b p perm e ⟨⟩
    decide
  touch := by
    rintro b p mtime e ⟨⟩
    decide
  rename := by
    rintro b p q e ⟨⟩
    decide
  remove := by
    rintro b p e ⟨⟩
    decide

/-- A request that the servers' own size has room for, whatever is asked of it. -/
def Mild (m : Msg) : Prop :=
  m.ty ≠ T.version.code ∧ m.ty ≠ T.stat.code ∧
    (m.ty = T.walk.code → m.walks.all fun w => 9 + 13 * w.2.2.toNat ≤ msizeMax.toNat) ∧
    (m.ty = T.read.code →
      (Rdwr.askArgs.on m.body).1.all fun r => r.2.2.toNat + 11 ≤ msizeMax.toNat)

instance (m : Msg) : Decidable (Mild m) := inferInstanceAs (Decidable (_ ∧ _))

theorem mild_modest {x : Session (Store Unit)} {t : Bytes} (agreed : x.agreed = some msizeMax)
    (mild : Mild (heard t)) : Store.Modest stand x t := by
  intro m framed
  rw [heard, framed, Option.getD_some] at mild
  rcases mild with ⟨other, stat, walk, read⟩
  refine ⟨fun ty => absurd ty other, fun _ msize known => ?_⟩
  cases agreed.symm.trans known
  refine ⟨stand_brief, by rw [Roomy]; decide, fun _ => by decide, ?_, ?_, ?_⟩
  · intro src newfid n ty walks
    have room := walk ty
    rw [walks] at room
    exact of_decide_eq_true room
  · intro fid off count f md ty asked _ _
    have room := read ty
    rw [asked] at room
    replace room := of_decide_eq_true room
    have few : (min count (msizeMax - 24)).toNat ≤ count.toNat := by
      simp only [min]
      split_ifs with more
      · exact le_rfl
      · exact Nat.le_of_not_le more
    split_ifs
    · exact .inl room
    · exact Nat.le_trans (Nat.add_le_add_right few _) room
  · exact fun fid f md ty => absurd ty stat

/-- A session that agrees on the servers' own size, walks, opens and reads. -/
def asked : List Bytes :=
  [Sent.attach 0, Sent.walk 0 1 ["a"], Sent.open 1 0, Sent.read 1 0 8192]

def versioned (msize : UInt32) : Session (Store Unit) :=
  Store.talk stand (.new (.new ())) (Sent.version msize)

def served : Session (Store Unit) := asked.foldl (Store.talk stand) (versioned msizeMax)

theorem served_modest : (Store.talking stand).Reach (Store.Modest stand) served := by
  suffices run : ∀ ts : List Bytes, (∀ t ∈ ts, Mild (heard t)) → ∀ x,
      (Store.talking stand).Reach (Store.Modest stand) x → x.agreed = some msizeMax →
      (Store.talking stand).Reach (Store.Modest stand) (ts.foldl (Store.talk stand) x) by
    refine run asked (by decide) (versioned msizeMax) (.step (.init ⟨(), rfl⟩) ?_ rfl) (by decide)
    intro m framed
    have whole : Ninep.unframe (Sent.version msizeMax) = some (heard (Sent.version msizeMax)) := by
      decide
    cases whole.symm.trans framed
    refine ⟨fun _ => ?_, fun other => absurd (by decide) other⟩
    rw [Roomy]
    decide
  intro ts mild
  induction ts with
  | nil => exact fun x reached _ => reached
  | cons t ts ih =>
      intro x reached agreed
      have first := mild t (mem_cons_self ..)
      refine ih (fun t' member => mild t' (mem_cons_of_mem _ member)) _
        (.step reached (mild_modest agreed first) rfl) ?_
      rw [← agreed, Store.talk]
      split
      case h_1 b m _ framed =>
        rw [heard, framed] at first
        exact if_neg first.1
      case h_2 => rfl

def attach0 : Msg :=
  ⟨T.attach.code, 1, ((((W.new.u32 0).u32 Ninep.nofid).s "glenda").s "0").body⟩

def begun : Session Oscmd.State :=
  Oscmd.talk (.new (.new fun _ => .new ⟨[], [], none, false⟩ 0))
    (.start 0 ⟨[], [], none, false⟩ false)

def told (x : Session Oscmd.State) (m : Msg) : Session Oscmd.State := Oscmd.talk x (.submit m none)

def offered (msize : UInt32) : Session Oscmd.State :=
  told (told begun (heard (Sent.version msize))) attach0

def entered : Session Oscmd.State := told (offered msizeMax) (heard (Sent.walk 0 1 ["data"]))
def opened : Session Oscmd.State := told entered (heard (Sent.open 0 0))
def listed : Session Oscmd.State := told opened (heard (Sent.read 0 0 8192))

theorem begun_modest : Oscmd.talking.Reach Oscmd.Modest begun := by
  refine .step (a := .start 0 ⟨[], [], none, false⟩ false) (.init ⟨_, rfl⟩) ⟨?_, ?_⟩
    ⟨⟨rfl, ?_⟩, rfl⟩
  · rintro m refused ⟨⟩
  · rintro msize ⟨⟩
  · intro m before
    exact absurd before (UInt32.not_lt_zero)

theorem told_modest {x : Session Oscmd.State} {m : Msg} {r : Oscmd.Request}
    (reached : Oscmd.talking.Reach Oscmd.Modest x) (agreed : x.agreed = some msizeMax)
    (other : m.ty ≠ T.version.code) (asks : Oscmd.Request.of m = r)
    (polite : Oscmd.Polite msizeMax x.server none r) :
    Oscmd.talking.Reach Oscmd.Modest (told x m) := by
  refine .step (a := .submit m none) reached ⟨?_, fun _ _ => trivial⟩ ⟨trivial, rfl⟩
  rintro m' refused ⟨⟩
  rw [if_neg other, asks]
  intro msize known
  cases agreed.symm.trans known
  exact polite

theorem listed_modest : Oscmd.talking.Reach Oscmd.Modest listed := by
  have agreed : Oscmd.talking.Reach Oscmd.Modest
      (told begun (heard (Sent.version msizeMax))) := by
    refine .step (a := .submit (heard (Sent.version msizeMax)) none) begun_modest
      ⟨?_, fun _ _ => trivial⟩ ⟨trivial, rfl⟩
    rintro m refused ⟨⟩
    rw [if_pos (by decide)]
    refine ⟨fun _ => ?_, .inl rfl⟩
    rw [Roomy]
    decide
  have attach : Oscmd.talking.Reach Oscmd.Modest (offered msizeMax) :=
    told_modest (r := .attach 0 "glenda" (some 0)) agreed (by decide) (by decide) (by decide)
      (by rintro e ⟨⟩)
  have walk : Oscmd.talking.Reach Oscmd.Modest entered :=
    told_modest (r := .walk 0 1 1 ["data"]) attach (by decide) (by decide) (by decide)
      (by rw [Oscmd.Polite]; decide)
  have «open» : Oscmd.talking.Reach Oscmd.Modest opened :=
    told_modest (r := .open 0 0) walk (by decide) (by decide) (by decide)
      (by rw [Oscmd.Polite]; decide)
  refine told_modest (r := .read 0 0 8192) «open» (by decide) (by decide) (by decide) ?_
  intro f there
  have found : opened.server.fids.find 0 = some ⟨0, .dir, some 0⟩ := by decide
  cases found.symm.trans there
  left
  decide

theorem replies_within_read :
    (served.agreed = some msizeMax ∧ served.sent.length = 5 ∧ served.Kept) ∧
      listed.agreed = some msizeMax ∧ listed.sent.length = 5 ∧ listed.Kept := by
  have within := replies_within stand_plain
  refine ⟨⟨?_, ?_, within.1 served served_modest⟩, ?_, ?_, within.2 listed listed_modest⟩
  · decide
  · decide
  · decide
  · decide

/-- Where 100 bytes are agreed on, an open still says that 8192 may be moved at once. -/
theorem replies_within_fails :
    (¬∀ x, (Store.talking stand).Reachable x → x.Kept) ∧
      ¬∀ x, Oscmd.talking.Reachable x → x.Kept := by
  have unkept {S : Type} {x : Session S} (qid : Name.Qid)
      (said : (some 100, ((W.new.qid qid).u32 8192).frame T.open.reply 1) ∈ x.sent)
      (iounit : (R.u32.on ((((W.new.qid qid).u32 8192).frame T.open.reply 1).drop 20)).1 =
        some 8192) : ¬x.Kept := by
    intro kept
    have fits := (kept _ said 100 rfl).iounit (.inl (frame_type ..)) 8192 iounit
    revert fits
    decide
  constructor
  · intro kept
    have reached : (Store.talking stand).Reachable
        ([Sent.attach 0, Sent.open 0 0].foldl (Store.talk stand) (versioned 100)) :=
      .step (a := Sent.open 0 0) (.step (a := Sent.attach 0) (.step (a := Sent.version 100)
        (.init ⟨(), rfl⟩) trivial rfl) trivial rfl) trivial rfl
    refine unkept ⟨Name.qtdir, 0, 0⟩ ?_ ?_ (kept _ reached)
    · decide
    · decide
  · intro kept
    have reached : Oscmd.talking.Reachable (told (offered 100) (heard (Sent.open 0 0))) :=
      .step (a := .submit _ none) (.step (a := .submit _ none) (.step (a := .submit _ none)
        begun_modest.reachable trivial ⟨trivial, rfl⟩) trivial ⟨trivial, rfl⟩) trivial
        ⟨trivial, rfl⟩
    refine unkept (Oscmd.Q.dir.qid 0) ?_ ?_ (kept _ reached)
    · decide
    · decide

end Ipnx.Host
