import Ipnx.Host.Looks
import Ipnx.Mnt.Rdwr

/-!
# Access by the mode a fid is open with

The server beside what its messages and replies say of the fids: the mode of the last open or
create of a fid that was answered with success, since the fid was bound.
-/

namespace Ipnx.Host

open Ipnx.Ninep (W R Msg T Turn)
open Prog (Ends ends_pure ends_throw ends_get ends_modify ends_ite)
open Function (update update_apply)

def oread : UInt8 := 0
def owrite : UInt8 := 1
def ordwr : UInt8 := 2
def oexec : UInt8 := 3

/-- The modes that read, and those that write. -/
def Reads (mode : UInt8) : Prop := mode &&& 3 = oread ∨ mode &&& 3 = ordwr ∨ mode &&& 3 = oexec
def Writes (mode : UInt8) : Prop := mode &&& 3 = owrite ∨ mode &&& 3 = ordwr

theorem low_bits (mode : UInt8) : mode &&& 3 = 0 ∨ mode &&& 3 = owrite ∨ mode &&& 3 = ordwr ∨
    mode &&& 3 = oexec := by
  have low : (mode &&& 3).toNat = mode.toNat % 4 := by
    rw [UInt8.toNat_and]
    exact Nat.and_two_pow_sub_one_eq_mod mode.toNat 2
  simp only [← UInt8.toNat_inj, low, owrite, ordwr, oexec, UInt8.toNat_ofNat]
  omega

/-- A look changes nothing, and a file cut to no length has none. -/
structure Backend.Steady {B : Type} (k : Backend B) : Prop extends k.Looks where
  cut : ∀ b p md, (k.truncate b p 0).1 = .ok () → (k.stat b p).1 = some md → md.dir = false →
    ∃ md', (k.stat (k.truncate b p 0).2 p).1 = some md' ∧ md'.len = 0

namespace Store

variable {B : Type}

/-- The server, and the modes its fids were opened with. -/
structure Opened (B : Type) where
  store : Store B
  modes : UInt32 → Option UInt8

/-- The modes after a message, by its reply. -/
def modesAfter (modes : UInt32 → Option UInt8) (m : Msg) (code : UInt8) (body : Bytes) :
    UInt32 → Option UInt8 :=
  if code = T.open.reply then m.opens.elim modes fun a => update modes a.1 (some a.2)
  else if code = T.create.reply then
    m.creates.elim modes fun a => update modes a.1 (some a.2.2.2)
  else if code = T.attach.reply ∨ code = T.clunk.reply ∨ m.ty = T.remove.code then
    m.fid.elim modes fun fid => update modes fid none
  else if code = T.walk.reply then
    m.walks.elim modes fun a =>
      if (R.u16.on body).1 = some a.2.2 then update modes a.2.1 none else modes
  else modes

/-- A message handled, and the reply's type and body. -/
def Opened.answers (k : Backend B) (w : Opened B) (m : Msg) : UInt8 × Bytes :=
  answer ((serve k m).exec w.store).1

def Opened.send (k : Backend B) (w : Opened B) (b : Bytes) : Opened B where
  store := (rpc k w.store b).2
  modes := match Ninep.unframe b with
    | none => w.modes
    | some m => modesAfter w.modes m (w.answers k m).1 (w.answers k m).2

/-- Any messages, one after another, to a server of `files`. -/
def opening (k : Backend B) (files : B) : System (Opened B) Bytes where
  init w := w = ⟨new files, fun _ => none⟩
  step w b w' := w' = w.send k b

/-- The fid of the message was opened with success, with a mode that is allowed. -/
def May (allowed : UInt8 → Prop) (w : Opened B) (m : Msg) : Prop :=
  ∃ fid mode, m.fid = some fid ∧ w.modes fid = some mode ∧ allowed mode

def Denied (k : Backend B) (w : Opened B) (m : Msg) : Prop :=
  ∃ e, (serve k m).exec w.store = (.error e, w.store)

/-- A read that is answered is of a fid opened to be read, a write of one opened to be written,
and a file opened to be cut has no length. -/
structure Proper (k : Backend B) (w : Opened B) (m : Msg) : Prop where
  read : m.ty = T.read.code → May Reads w m ∨ Denied k w m
  write : m.ty = T.write.code → May Writes w m ∨ Denied k w m
  cut : ∀ fid mode f md, m.ty = T.open.code → (w.answers k m).1 = T.open.reply →
    m.opens = some (fid, mode) → mode &&& otrunc ≠ 0 → w.store.fids fid = some f →
    found k w.store f.path = some md → md.dir = false →
    ∃ md', found k ((serve k m).exec w.store).2 f.path = some md' ∧ md'.len = 0

/-- A client that reads only what it opened to be read (or what is not there), writes nothing
that it opened to be executed, and opens only what is there; and a keeper that cuts a file when
it is to. -/
structure Orderly (k : Backend B) (w : Opened B) (m : Msg) : Prop where
  read : m.ty = T.read.code → May Reads w m ∨
    ∀ a f, (Rdwr.askArgs.on m.body).1 = some a → w.store.fids a.1 = some f →
      found k w.store f.path = none
  write : m.ty = T.write.code → ∀ fid f, m.fid = some fid → w.store.fids fid = some f →
    f.isOpen → f.mode &&& 3 ≠ oexec
  opens : ∀ fid mode f, m.ty = T.open.code → m.opens = some (fid, mode) →
    w.store.fids fid = some f → ∃ md, found k w.store f.path = some md ∧
      (mode &&& otrunc ≠ 0 → md.dir = false → (k.truncate w.store.files f.path 0).1 = .ok ())

variable {k : Backend B} {s : Store B} {w : Opened B} {m : Msg} {α : Type}

theorem Denied.of_ends {h : Serve B α} (ends : Ends h s (fun _ _ => False) fun _ s' => s' = s) :
    ∃ e, h.exec s = (.error e, s) := by
  rw [Ends] at ends
  rcases ran : h.exec s with ⟨e | a, s'⟩ <;> rw [ran] at ends
  · exact ⟨e, congrArg _ ends⟩
  · exact absurd ends not_false

theorem read_denied (looks : k.Looks) {b : Bytes}
    (absent : ∀ a f, (Rdwr.askArgs.on b).1 = some a → s.fids a.1 = some f →
      found k s f.path = none) : ∃ e, (read k b).exec s = (.error e, s) := by
  apply Denied.of_ends
  apply Ends.bind
  apply ends_parse _ rfl
  rintro ⟨fid, off, count⟩ rest parsed
  apply Ends.bind
  apply ends_lookup _ rfl
  intro f there
  apply Ends.bind
  apply ends_statOr looks _ fun _ => rfl
  intro md here
  rw [absent _ f (congrArg Prod.fst parsed) there] at here
  cases here

theorem write_denied {b : Bytes} (closed : ∀ fid f, (R.u32.on b).1 = some fid →
    s.fids fid = some f → !f.isOpen ∨ f.mode &&& 3 = 0) :
    ∃ e, (write k b).exec s = (.error e, s) := by
  apply Denied.of_ends
  apply Ends.bind
  apply ends_parse _ rfl
  rintro ⟨fid, off, count⟩ rest parsed
  rcases Reader.bind_some parsed with ⟨fid', mid, first, others⟩
  rcases Reader.bind_some others with ⟨_, _, _, last⟩
  rcases Reader.bind_some last with ⟨_, _, _, same⟩
  cases same
  apply Ends.bind
  apply ends_lookup _ rfl
  intro f there
  apply Ends.bind
  apply ends_ite
  · intro _
    exact ends_throw rfl
  · intro may
    exact absurd (closed fid f (congrArg Prod.fst first) there) may

theorem topen_ends (steady : k.Steady) {b : Bytes} {fid : UInt32} {mode : UInt8} {f : Fid}
    {md : Meta} (args : (Msg.openArgs.on b).1 = some (fid, mode)) (there : s.fids fid = some f)
    (here : found k s f.path = some md) :
    Ends (topen k b) s (fun _ s' => s'.files = if mode &&& otrunc ≠ 0 ∧ !md.dir then
      (k.truncate s.files f.path 0).2 else s.files) fun _ _ => False := by
  rcases read : Msg.openArgs.on b with ⟨_ | a, rest⟩ <;> rw [read] at args
  · cases args
  cases args
  apply Ends.bind
  apply ends_parsed read
  apply Ends.bind
  apply ends_known there
  apply Ends.modify
  have here' : found k (s.edit fid fun f => { f with mode := mode, isOpen := true }) f.path =
      some md := here
  apply Ends.bind
  apply ends_here steady.toLooks here'
  apply Ends.bind
  apply ends_ite
  · intro cuts
    rw [if_pos cuts]
    apply tell_ends
    exact ends_pure rfl
  · intro plain
    rw [if_neg plain]
    apply ends_pure
    exact ends_pure rfl

/-- What is known of the server and the modes: a fid that is open has the mode it was opened with,
and its path is normal. -/
structure Known (w : Opened B) : Prop where
  modes : ∀ fid n mode, w.store.table fid = some n → n.mode = some mode →
    w.modes fid = some mode
  safe : Safe (fun _ => True) w.store

theorem known_update {tab : Ninep.Fids Path} {modes : UInt32 → Option UInt8} {fid : UInt32}
    {o : Option (Ninep.Named Path)} {mode : Option UInt8} (here : ∀ n, o = some n → n.mode = mode)
    (known : ∀ fid n mode, tab fid = some n → n.mode = some mode → modes fid = some mode)
    (fid' : UInt32) (n : Ninep.Named Path) (mode' : UInt8)
    (there : update tab fid o fid' = some n) (open_ : n.mode = some mode') :
    update modes fid mode fid' = some mode' := by
  rw [update_apply] at there ⊢
  split_ifs at there ⊢ with same
  · exact (here n there).symm.trans open_
  · exact known fid' n mode' there open_

theorem known_closed {tab : Ninep.Fids Path} {modes : UInt32 → Option UInt8} {fid : UInt32}
    {n : Ninep.Named Path} (closed : n.mode = none)
    (known : ∀ fid n mode, tab fid = some n → n.mode = some mode → modes fid = some mode)
    (fid' : UInt32) (n' : Ninep.Named Path) (mode' : UInt8)
    (there : update tab fid (some n) fid' = some n') (open_ : n'.mode = some mode') :
    modes fid' = some mode' := by
  rw [update_apply] at there
  split_ifs at there with same
  · cases there
    rw [closed] at open_
    cases open_
  · exact known fid' n' mode' there open_

theorem modesAfter_still {modes : UInt32 → Option UInt8} {code : UInt8} {body : Bytes}
    (opens : code ≠ T.open.reply) (creates : code ≠ T.create.reply)
    (attaches : code ≠ T.attach.reply) (clunks : code ≠ T.clunk.reply)
    (walks : code ≠ T.walk.reply) (removes : m.ty = T.remove.code → m.fid = none) :
    modesAfter modes m code body = modes := by
  rw [modesAfter, if_neg opens, if_neg creates]
  by_cases removed : m.ty = T.remove.code
  · rw [if_pos (Or.inr (Or.inr removed)), removes removed]
    rfl
  · rw [if_neg (by simp [attaches, clunks, removed]), if_neg walks]

theorem turn_modes {tab tab' : Ninep.Fids Path} {modes : UInt32 → Option UInt8} {code : UInt8}
    {body : Bytes} {made : List (Path × Path)}
    (turn : Turn named m (some (code, body)) made tab tab')
    (known : ∀ fid n mode, tab fid = some n → n.mode = some mode → modes fid = some mode) :
    ∀ fid n mode, tab' fid = some n → n.mode = some mode →
      modesAfter modes m code body fid = some mode := by
  cases turn with
  | version ty =>
      intro fid n mode there
      cases there
  | attach ty args =>
      rw [modesAfter, if_neg (by decide), if_neg (by decide), if_pos (Or.inl rfl), args]
      exact known_update (fun n same => by cases same; rfl) known
  | walk ty args src count =>
      rw [modesAfter, if_neg (by decide), if_neg (by decide),
        if_neg (by rw [ty]; decide), if_pos rfl, args]
      dsimp only [Option.elim]
      rw [if_pos count]
      exact known_update (fun n same => by cases same; rfl) known
  | stopped ty args count less =>
      rw [modesAfter, if_neg (by decide), if_neg (by decide),
        if_neg (by rw [ty]; decide), if_pos rfl, args]
      dsimp only [Option.elim]
      rw [if_neg (by rw [count]; rintro ⟨⟩; exact absurd less (UInt16.lt_irrefl _))]
      exact known
  | «open» ty args there opened =>
      rw [modesAfter, if_pos rfl, args]
      exact known_update (fun n same => by cases same; rfl) known
  | create ty args there child =>
      rw [modesAfter, if_neg (by decide), if_pos rfl, args]
      exact known_update (fun n same => by cases same; rfl) known
  | clunk ty args =>
      rw [modesAfter, if_neg (by decide), if_neg (by decide), if_pos (Or.inr (Or.inl rfl)), args]
      exact known_update (fun n same => by cases same) known
  | nothing ty args =>
      rw [modesAfter, if_neg (by decide), if_neg (by decide), if_pos (Or.inr (Or.inl rfl)), args]
      exact known
  | remove ty args ends =>
      rcases ends with rfl | rfl <;>
      · rw [modesAfter, if_neg (by decide), if_neg (by decide), if_pos (Or.inr (Or.inr ty)), args]
        exact known_update (fun n same => by cases same) known
  | renamed ty args there ends =>
      have kept : ∀ (body : Bytes) (code : UInt8), code = T.wstat.reply ∨ code = T.error.code →
          modesAfter modes m code body = modes := by
        rintro body code (rfl | rfl) <;>
        · apply modesAfter_still (by decide) (by decide) (by decide) (by decide) (by decide)
          rw [ty]
          exact fun removed => absurd removed (by decide)
      rw [kept _ _ ends]
      intro fid n mode here open_
      rw [update_apply] at here
      split_ifs at here with same
      · cases here
        subst same
        exact known _ _ mode there open_
      · exact known fid n mode here open_
  | @still _ _ t kind ty =>
      have kept : modesAfter modes m t.reply body = modes := by
        cases t with
        | flush | read | write | stat | wstat =>
            apply modesAfter_still (by decide) (by decide) (by decide) (by decide) (by decide)
            rw [ty]
            exact fun removed => absurd removed (by decide)
        | _ => exact absurd kind (by decide)
      rw [kept]
      exact known
  | error removed =>
      rw [modesAfter_still (by decide) (by decide) (by decide) (by decide) (by decide) removed]
      exact known

theorem known_after (steady : k.Steady) (known : Known w) (orderly : Orderly k w m) :
    ∀ fid n mode, ((serve k m).exec w.store).2.table fid = some n → n.mode = some mode →
      modesAfter w.modes m (w.answers k m).1 (w.answers k m).2 fid = some mode := by
  by_cases version : m.ty = T.version.code
  · have same : modesAfter w.modes m (w.answers k m).1 (w.answers k m).2 = w.modes := by
      have code : (w.answers k m).1 = T.version.reply := by
        rw [Opened.answers, serve_version version]
        rfl
      rw [code]
      apply modesAfter_still (by decide) (by decide) (by decide) (by decide) (by decide)
      rw [version]
      exact fun removed => absurd removed (by decide)
    rw [same, serve_version version]
    exact known.modes
  have turn := serve_turn (d := k.any) (s := w.store) (m := m)
  rw [Served, Ends] at turn
  rw [Opened.answers]
  rcases ran : (serve k m).exec w.store with ⟨e | a, s'⟩ <;> rw [ran] at turn
  · rcases turn with ⟨x, -, turn⟩ | ⟨ty, -⟩ | @⟨fid, _, ty, args, fids, -⟩ |
      ⟨ty, args, there, fids, -⟩
    · exact turn_modes turn known.modes
    · exact absurd ty version
    · have same : modesAfter w.modes m (answer (.error e)).1 (answer (.error e)).2 = w.modes := by
        have code : (answer (.error e)).1 = T.error.code := rfl
        rw [code]
        apply modesAfter_still (by decide) (by decide) (by decide)
          (by decide) (by decide)
        rw [ty]
        exact fun removed => absurd removed (by decide)
      have tab : s'.table = (w.store.insert fid (.walked [])).table := by
        funext fid'
        rw [Store.table, fids]
        rfl
      rw [same, tab, table_insert]
      exact known_closed rfl known.modes
    · rcases orderly.opens _ _ _ ty args there with ⟨md, here, -⟩
      have ends := topen_ends steady args there here
      rw [Ends, ← serve_open ty, ran] at ends
      exact absurd ends not_false
  · rcases turn with ⟨x, -, turn⟩ | ⟨ty, -⟩
    · exact turn_modes turn known.modes
    · exact absurd ty version

theorem Known.send (steady : k.Steady) {b : Bytes} (known : Known w)
    (orderly : ∀ m, Ninep.unframe b = some m → Orderly k w m) : Known (w.send k b) := by
  refine ⟨?_, rpc_safe (any_guarded k) b known.safe⟩
  rcases framed : Ninep.unframe b with _ | m
  · have same : w.send k b = w := by
      rw [Opened.send, framed, rpc, framed]
    rw [same]
    exact known.modes
  · have sent : w.send k b = ⟨((serve k m).exec w.store).2,
        modesAfter w.modes m (w.answers k m).1 (w.answers k m).2⟩ := by
      rw [Opened.send, framed, rpc, framed]
    rw [sent]
    exact known_after steady known (orderly m framed)

theorem Known.proper (steady : k.Steady) (known : Known w) (orderly : Orderly k w m) :
    Proper k w m where
  read ty := by
    rcases orderly.read ty with may | absent
    · exact Or.inl may
    · right
      rw [Denied, serve_read ty]
      exact read_denied steady.toLooks absent
  write ty := by
    by_cases closed : ∀ fid f, m.fid = some fid → w.store.fids fid = some f →
        !f.isOpen ∨ f.mode &&& 3 = 0
    · right
      rw [Denied, serve_write ty]
      exact write_denied closed
    · left
      push Not at closed
      rcases closed with ⟨fid, f, args, there, isOpen, some_⟩
      have isOpen : f.isOpen = true := by simpa using isOpen
      have mode : w.modes fid = some f.mode := by
        apply known.modes fid f.named f.mode (table_of_fids there)
        rw [Fid.named, if_pos isOpen]
      refine ⟨fid, f.mode, args, mode, ?_⟩
      rcases low_bits f.mode with zero | one | two | three
      · exact absurd zero some_
      · exact Or.inl one
      · exact Or.inr two
      · exact absurd three (orderly.write ty fid f args there isOpen)
  cut fid mode f md ty done args cuts there here plain := by
    have ends := topen_ends steady args there here
    rcases orderly.opens fid mode f ty args there with ⟨md', here', cut⟩
    rw [here] at here'
    cases here'
    rw [Ends, ← serve_open ty] at ends
    rcases ran : (serve k m).exec w.store with ⟨e | a, s'⟩ <;> rw [ran] at ends
    · exact absurd ends not_false
    · rw [if_pos ⟨cuts, by rw [plain]; rfl⟩] at ends
      have path := real_of_normal (known.safe.paths fid f there)
      rw [found, path] at here ⊢
      rw [ends]
      exact steady.cut _ _ md (cut cuts plain) here plain

/-- In every run of orderly messages each of them is answered as it should be. -/
theorem access_by_mode {files : B} (steady : k.Steady)
    (reached : (opening k files).Reach
      (fun w b => ∀ m, Ninep.unframe b = some m → Orderly k w m) w)
    (orderly : Orderly k w m) : Proper k w m := by
  have known : Known w := by
    apply reached.invariant Known
    · rintro _ rfl
      constructor
      · intro fid n mode there
        cases there
      · refine ⟨?_, trivial⟩
        intro fid f there
        cases there
    · rintro w b _ known orderly rfl
      exact known.send steady orderly
  exact known.proper steady orderly

def sheet : Backend Bytes where
  stat b p := (some ⟨decide (p = []), false, 0o777, .ofNat b.length, 0, 0, 1⟩, b)
  list b _ := ([], b)
  read b _ off n := (.ok (extent b off.toNat n), b)
  write b _ off data := (.ok (), laid 0 b off.toNat data)
  truncate b _ len := (.ok (), sized 0 b len.toNat)
  mkdir b _ _ := (.error "permission denied", b)
  mkfile b _ _ := (.error "permission denied", b)
  chmod b _ _ := (.error "permission denied", b)
  touch b _ _ := (.error "permission denied", b)
  rename b _ _ := (.error "permission denied", b)
  remove b _ := (.error "permission denied", b)

theorem sheet_steady : sheet.Steady where
  stat _ _ := rfl
  list _ _ := rfl
  cut b p md _ here _ := by
    refine ⟨_, rfl, ?_⟩
    simp [sheet, length_sized]

def afterSent (bs : List Bytes) : Opened Bytes :=
  bs.foldl (fun w b => w.send sheet b) ⟨new [1, 2, 3], fun _ => none⟩

def walkedSheet : Opened Bytes := afterSent [Sent.attach 0, Sent.walk 0 1 ["a"]]

def openSheet : Msg := heard (Sent.open 1 (ordwr ||| otrunc))
def writeSheet : Msg := heard (Sent.write 1 0 [4, 5])
def readSheet : Msg := heard (Sent.read 1 0 8)

def openedSheet : Opened Bytes := walkedSheet.send sheet (Sent.open 1 (ordwr ||| otrunc))
def writtenSheet : Opened Bytes := openedSheet.send sheet (Sent.write 1 0 [4, 5])

theorem Orderly.other {k : Backend B} {w : Opened B} {m : Msg} (reads : m.ty ≠ T.read.code)
    (writes : m.ty ≠ T.write.code) (opens : m.ty ≠ T.open.code) : Orderly k w m :=
  ⟨fun ty => absurd ty reads, fun ty => absurd ty writes, fun _ _ _ ty => absurd ty opens⟩

abbrev Sheet (w : Opened Bytes) : Prop :=
  (opening sheet [1, 2, 3]).Reach (fun w b => ∀ m, Ninep.unframe b = some m → Orderly sheet w m) w

theorem Sheet.send {w : Opened Bytes} (reached : Sheet w) (b : Bytes)
    (orderly : Orderly sheet w (heard b)) : Sheet (w.send sheet b) := by
  refine .step (a := b) reached ?_ rfl
  intro m framed
  rwa [heard, framed] at orderly

theorem sheet_walked : Sheet walkedSheet := by
  have attached : Sheet (afterSent [Sent.attach 0]) :=
    Sheet.send (.init rfl) _ (.other (by decide) (by decide) (by decide))
  exact attached.send _ (.other (by decide) (by decide) (by decide))

theorem walkedSheet_fid : walkedSheet.store.fids 1 = some (.walked [.normal "a"]) := by
  decide

theorem openSheet_orderly : Orderly sheet walkedSheet openSheet := by
  refine ⟨fun ty => absurd ty (by decide), fun ty => absurd ty (by decide), ?_⟩
  intro fid mode f _ args there
  have same : openSheet.opens = some (1, ordwr ||| otrunc) := by decide
  rw [same] at args
  cases args
  rw [walkedSheet_fid] at there
  cases there
  exact ⟨_, rfl, fun _ _ => rfl⟩

theorem writeSheet_orderly {w : Opened Bytes} {f : Fid} (there : w.store.fids 1 = some f)
    (other : f.isOpen → f.mode &&& 3 ≠ oexec) : Orderly sheet w writeSheet := by
  refine ⟨fun ty => absurd ty (by decide), ?_, fun _ _ _ ty => absurd ty (by decide)⟩
  intro _ fid f' args there'
  have same : writeSheet.fid = some 1 := by decide
  cases same.symm.trans args
  cases there.symm.trans there'
  exact other

theorem openedSheet_fid :
    openedSheet.store.fids 1 = some ⟨[.normal "a"], ordwr ||| otrunc, true⟩ := by
  decide

theorem sheet_written : Sheet openedSheet ∧ Sheet writtenSheet := by
  have opened : Sheet openedSheet := sheet_walked.send _ openSheet_orderly
  exact ⟨opened, opened.send _ (writeSheet_orderly openedSheet_fid (by decide))⟩

theorem not_denied {w : Opened Bytes} {m : Msg}
    (answered : ((serve sheet m).exec w.store).1.isOk = true) : ¬Denied sheet w m := by
  rintro ⟨e, failed⟩
  rw [failed] at answered
  cases answered

/-- The file is cut as it is opened, written and read; what was not opened is not written. -/
theorem access_by_mode_cut :
    (∃ md, found sheet ((serve sheet openSheet).exec walkedSheet.store).2 [.normal "a"] = some md ∧
      md.len = 0) ∧
    May Writes openedSheet writeSheet ∧ May Reads writtenSheet readSheet ∧
      Denied sheet walkedSheet writeSheet := by
  have open_ := access_by_mode sheet_steady sheet_walked openSheet_orderly
  refine ⟨?_, ?_, ?_, ?_⟩
  · exact open_.cut 1 (ordwr ||| otrunc) (.walked [.normal "a"])
      ⟨false, false, 0o777, 3, 0, 0, 1⟩ rfl (by decide) (by decide) (by decide) walkedSheet_fid
      (by decide +kernel) rfl
  · have write := access_by_mode sheet_steady sheet_written.1
      (writeSheet_orderly openedSheet_fid (by decide))
    exact (write.write rfl).resolve_right (not_denied (by decide))
  · have may : May Reads writtenSheet readSheet :=
      ⟨1, ordwr ||| otrunc, by decide, by decide, .inr (.inl (by decide))⟩
    have read := access_by_mode sheet_steady sheet_written.2 (m := readSheet)
      ⟨fun _ => .inl may, fun ty => absurd ty (by decide), fun _ _ _ ty => absurd ty (by decide)⟩
    exact (read.read rfl).resolve_right (not_denied (by decide))
  · have write := access_by_mode sheet_steady sheet_walked
      (writeSheet_orderly walkedSheet_fid (by decide))
    refine (write.write rfl).resolve_left ?_
    rintro ⟨fid, mode, args, opened, -⟩
    have same : writeSheet.fid = some 1 := by decide
    cases same.symm.trans args
    have closed : walkedSheet.modes 1 = none := by decide
    cases closed.symm.trans opened

/-- A read of a fid that nobody opened is answered with the file's bytes. -/
theorem access_by_mode_fails :
    ∃ w m, (opening sheet [1, 2, 3]).Reachable w ∧ ¬Proper sheet w m := by
  refine ⟨walkedSheet, readSheet, sheet_walked.reachable, ?_⟩
  intro proper
  rcases proper.read rfl with ⟨fid, mode, args, opened, -⟩ | denied
  · have same : readSheet.fid = some 1 := by decide
    cases same.symm.trans args
    have closed : walkedSheet.modes 1 = none := by decide
    cases closed.symm.trans opened
  · exact not_denied (by decide) denied

end Store

end Ipnx.Host
