import Ipnx.Lib.Prog
import Ipnx.Ninep.Wire

/-!
# Reads and writes through a mount

`version`, `rpc`, `read` and `write` of `devmnt.rs`. One message is not one read: what a caller
asks for goes in as many as the session's payload needs, each of which is answered with what the
server likes. A reply that is short of what was asked ends it.
-/

namespace Ipnx.Rdwr

open List
open Ninep

/-- What a `Tread` or a `Twrite` needs besides its data. -/
def iohdrsz : Nat := 24

def maxrpc : UInt32 := UInt32.ofNat (iohdrsz + 16 * 1024)

def version9p : String := "9P2000"

/-- The wire: a message goes out, and its reply comes back. -/
abbrev Transport (σ : Type) := Bytes → Prog σ Bytes

structure Mnt where
  msize : UInt32
  tag : UInt16
deriving DecidableEq, Repr

/-- A tag is the last one's successor, round past the largest. -/
def Mnt.newtag (m : Mnt) : Mnt := { m with tag := m.tag + 1 }

/-- A mount, and what is at the far end of its wire. -/
structure Line (σ : Type) where
  mnt : Mnt
  far : σ
deriving DecidableEq, Repr

variable {σ : Type}

def rerror (body : Bytes) : Option String := (R.s.on body).1

/-- The session's message size: what was asked, or less. The wire's own chunk, where it has one,
bounds what is asked. -/
def version (iounit : UInt32) (t : Transport σ) (msize : UInt32) (v : String) :
    Prog σ (UInt32 × String) := do
  let msize := if msize = 0 then maxrpc else msize
  let msize := if iounit ≠ 0 ∧ iounit < msize then iounit else msize
  let v := if v.isEmpty then version9p else v
  if !v.startsWith version9p then throw "bad 9P version specification"
  else do
    let reply ← t ((W.new.u32 msize |>.s v).frame T.version.code 0xffff)
    match unframe reply with
    | none => throw "bad fversion conversion on reply"
    | some m =>
        if m.ty ≠ T.version.reply then
          throw ((rerror m.body).getD "unexpected reply type in fversion")
        else
          match R.u32.on m.body with
          | (none, _) => throw "bad fversion conversion on reply"
          | (some got, rest) =>
              match R.s.on rest with
              | (none, _) => throw "bad fversion conversion on reply"
              | (some name, _) =>
                  if msize < got then throw "server tries to increase msize in fversion"
                  else if got < 256 ∨ 1024 * 1024 < got then
                    throw "nonsense value of msize in fversion"
                  else if name.isEmpty || !v.startsWith name then
                    throw ("bad 9P version returned from server: " ++ name)
                  else pure (got, name)

def send (t : Transport σ) (req : Bytes) : Prog (Line σ) Bytes := fun l =>
  let (reply, far) := (t req).exec l.far
  (reply, { l with far := far })

/-- A reply's body, of the type that answers the request. -/
def received (ty : T) (reply : Bytes) : Except String Bytes :=
  match unframe reply with
  | none => .error "malformed reply"
  | some m =>
      if m.ty ≠ ty.reply then
        .error ((rerror m.body).getD ("unexpected reply " ++ toString m.ty.toNat))
      else .ok m.body

def rpc (t : Transport σ) (ty : T) (body : W) : Prog (Line σ) Bytes := do
  modify fun l => { l with mnt := l.mnt.newtag }
  let l ← get
  let reply ← send t (body.frame ty.code l.mnt.tag)
  Prog.of (received ty reply)

/-- The loop of both: what has been moved, and one more message for what a message may carry of
the rest, until there is no rest or a message moved less. It is run for so many messages. -/
def rdwr (one : Nat → Nat → Prog (Line σ) Bytes) (cap n : Nat) :
    Nat → Bytes → Prog (Line σ) (Option Bytes)
  | 0, _ => pure none
  | fuel + 1, out =>
      if n ≤ out.length then pure (some out)
      else do
        let want := min (n - out.length) cap
        let data ← one out.length want
        if data.length ≠ want then pure (some (out ++ data)) else rdwr one cap n fuel (out ++ data)

/-- The fields of a `Tread`, and those before a `Twrite`'s data. -/
def ask (fid : UInt32) (off : UInt64) (count : UInt32) : W := W.new.u32 fid |>.u64 off |>.u32 count

/-- The bytes that came: no more than were asked for, however many the reply says. -/
def came (want : Nat) (body : Bytes) : Except String Bytes :=
  match R.u32.on body with
  | (none, _) => .error "short Rread"
  | (some count, rest) => .ok (rest.take (min (min count.toNat rest.length) want))

/-- The bytes that were taken: no more than were offered. -/
def went (chunk : Bytes) (body : Bytes) : Except String Bytes :=
  match R.u32.on body with
  | (none, _) => .error "short Rwrite"
  | (some count, _) => .ok (chunk.take (min count.toNat chunk.length))

/-- One `Tread`, of so many bytes at a place past the offset. -/
def readOne (t : Transport σ) (fid : UInt32) (off : UInt64) (done want : Nat) :
    Prog (Line σ) Bytes := do
  let body ← rpc t .read (ask fid (off + UInt64.ofNat done) (UInt32.ofNat want))
  Prog.of (came want body)

/-- One `Twrite`, of so many of the bytes that are left. -/
def writeOne (t : Transport σ) (fid : UInt32) (data : Bytes) (off : UInt64) (done want : Nat) :
    Prog (Line σ) Bytes := do
  let chunk := (data.drop done).take want
  let body ← rpc t .write ((ask fid (off + UInt64.ofNat done)
      (UInt32.ofNat chunk.length)).raw chunk)
  Prog.of (went chunk body)

namespace Mnt

def payload (m : Mnt) : Nat := m.msize.toNat - iohdrsz

def read (t : Transport σ) (fid : UInt32) (n : Nat) (off : UInt64) (fuel : Nat) :
    Prog (Line σ) (Option Bytes) := do
  let l ← get
  rdwr (readOne t fid off) l.mnt.payload n fuel []

def write (t : Transport σ) (fid : UInt32) (data : Bytes) (off : UInt64) (fuel : Nat) :
    Prog (Line σ) (Option Nat) := do
  let l ← get
  let moved ← rdwr (writeOne t fid data off) l.mnt.payload data.length fuel []
  pure (moved.map List.length)

end Mnt

variable {one : Nat → Nat → Prog (Line σ) Bytes} {cap n : Nat}

def Bounded (one : Nat → Nat → Prog (Line σ) Bytes) : Prop :=
  ∀ done want l, Prog.Ends (one done want) l (fun data _ => data.length ≤ want) fun _ _ => True

def messages (cap left : Nat) : Nat := (left + cap - 1) / cap

theorem messages_sub {left : Nat} (room : 0 < cap) (some : 0 < left) :
    messages cap (left - min left cap) < messages cap left := by
  rcases le_total cap left with more | last
  · have split : left + cap - 1 = (left - cap + cap - 1) + cap := by omega
    rw [messages, messages, min_eq_right more, split, Nat.add_div_right _ room]
    omega
  · have none : messages cap (left - min left cap) = 0 := by
      rw [messages, min_eq_left last]
      exact Nat.div_eq_of_lt (by omega)
    rw [none]
    exact Nat.div_pos (by omega) room

/-- However the messages are answered, there is an end, after as many as carry what is left; and
no more is moved than was asked for. -/
theorem rdwr_ends (bounded : Bounded one) (room : 0 < cap) {out : Bytes} (most : out.length ≤ n)
    (l : Line σ) : ∃ r l', r ≠ .ok none ∧ (∀ moved, r = .ok (some moved) → moved.length ≤ n) ∧
      ∀ fuel, messages cap (n - out.length) ≤ fuel →
        (rdwr one cap n (fuel + 1) out).exec l = (r, l') := by
  induction left : n - out.length using Nat.strong_induction_on generalizing out l with
  | h left' ih =>
      subst left
      by_cases whole : n ≤ out.length
      · refine ⟨.ok (some out), l, by simp, ?_, ?_⟩
        · rintro moved ⟨⟩
          exact most
        · intro fuel _
          rw [rdwr, if_pos whole]
          exact Prog.exec_pure ..
      · have answer := bounded out.length (min (n - out.length) cap) l
        rw [Prog.Ends] at answer
        rcases run : (one out.length (min (n - out.length) cap)).exec l with ⟨e | data, l'⟩
        · refine ⟨.error e, l', by simp, by simp, ?_⟩
          intro fuel _
          rw [rdwr, if_neg whole]
          exact Prog.exec_bind_error run
        rw [run] at answer
        have bound : data.length ≤ min (n - out.length) cap := answer
        have length : (out ++ data).length = out.length + data.length := length_append
        by_cases all : data.length = min (n - out.length) cap
        · have rest : n - (out ++ data).length =
              n - out.length - min (n - out.length) cap := by omega
          have less : n - (out ++ data).length < n - out.length := by omega
          have most' : (out ++ data).length ≤ n := by omega
          rcases ih _ less most' l' rfl with ⟨r, l'', ended, short, same⟩
          refine ⟨r, l'', ended, short, ?_⟩
          intro fuel enough
          have fewer : messages cap (n - out.length - min (n - out.length) cap) <
              messages cap (n - out.length) := messages_sub room (by omega)
          rcases fuel with _ | fuel
          · omega
          · rw [rdwr, if_neg whole, Prog.exec_bind_ok run, if_neg (not_not.2 all)]
            apply same
            rw [rest]
            omega
        · refine ⟨.ok (some (out ++ data)), l', by simp, ?_, ?_⟩
          · rintro moved ⟨⟩
            omega
          · intro fuel _
            rw [rdwr, if_neg whole, Prog.exec_bind_ok run, if_pos all]
            exact Prog.exec_pure ..

/-- What went over a wire: each request, and how it was answered. -/
abbrev Log := List (Bytes × Except String Bytes)

def logged (t : Transport σ) : Transport (σ × Log) := fun req l =>
  let (reply, far) := (t req).exec l.1
  (reply, (far, l.2 ++ [(req, reply)]))

def askArgs : R (UInt32 × UInt64 × UInt32) := do
  let fid ← R.u32
  let off ← R.u64
  let count ← R.u32
  pure (fid, off, count)

def asked (req : Bytes) : Option Nat := do
  let m ← unframe req
  let args ← (askArgs.on m.body).1
  pure args.2.2.toNat

theorem exec_rpc {t : Transport σ} {ty : T} {body : W} {l : Line σ} {reply : Except String Bytes}
    {far : σ} (run : (t (body.frame ty.code l.mnt.newtag.tag)).exec l.far = (reply, far)) :
    (rpc t ty body).exec l = (reply.bind (received ty), ⟨l.mnt.newtag, far⟩) := by
  have sent : (send t (body.frame ty.code l.mnt.newtag.tag)).exec ⟨l.mnt.newtag, l.far⟩ =
      (reply, ⟨l.mnt.newtag, far⟩) := by
    rw [Prog.exec, send, run]
  exact Prog.exec_bind_of sent

theorem exec_rpc_logged (t : Transport σ) (ty : T) (body : W) (l : Line (σ × Log)) :
    ∃ reply far, (rpc (logged t) ty body).exec l = (reply.bind (received ty),
      ⟨l.mnt.newtag, far, l.far.2 ++ [(body.frame ty.code l.mnt.newtag.tag, reply)]⟩) := by
  rcases run : (t (body.frame ty.code l.mnt.newtag.tag)).exec l.far.1 with ⟨reply, far⟩
  refine ⟨reply, far, exec_rpc ?_⟩
  rw [Prog.exec, logged, run]

theorem askArgs_ask (fid : UInt32) (off : UInt64) (count : UInt32) (rest : Bytes) :
    askArgs.on ((ask fid off count).raw rest).body = (some (fid, off, count), rest) := by
  have read := (Codec.u32.pair (Codec.u64.pair Codec.u32)).read_write (a := (fid, off, count))
    ⟨trivial, trivial, trivial⟩ rest
  have written : ((ask fid off count).raw rest).body =
      (Codec.u32.pair (Codec.u64.pair Codec.u32)).write (fid, off, count) ++ rest := by
    simp [ask, W.new, W.u32, W.u64, W.raw, Codec.pair, Codec.u32, Codec.u64, Codec.le]
  have parsed : (Codec.u32.pair (Codec.u64.pair Codec.u32)).read = askArgs := by
    simp only [Codec.pair, askArgs, R.u32, R.u64, bind_assoc, pure_bind]
  rw [written, ← parsed, read]

theorem ask_length (fid : UInt32) (off : UInt64) (count : UInt32) (rest : Bytes) :
    ((ask fid off count).raw rest).body.length = 16 + rest.length := by
  simp [ask, W.new, W.u32, W.u64, W.raw]
  omega

theorem asked_frame (fid : UInt32) (off : UInt64) (count : UInt32) {rest : Bytes}
    (fits : 4 + 1 + 2 + (16 + rest.length) < 2 ^ 32) (ty : UInt8) (tag : UInt16) :
    asked (((ask fid off count).raw rest).frame ty tag) = some count.toNat := by
  rw [← ask_length fid off count rest] at fits
  have whole := unframe_frame fits ty tag
  simp only [asked, whole, Option.bind_eq_bind, Option.bind_some, askArgs_ask]
  rfl

theorem payload_lt (m : Mnt) : 4 + 1 + 2 + (16 + m.payload) < 2 ^ 32 := by
  have bound := m.msize.toNat_lt
  rw [Mnt.payload, iohdrsz]
  omega

/-- One message: what it asked for is on the wire, and it moves no more. -/
def Moves (one : Nat → Nat → Prog (Line (σ × Log)) Bytes) (cap n : Nat) : Prop :=
  ∀ done want l, want ≤ cap → done + want ≤ n → ∃ r l' e, (one done want).exec l = (r, l') ∧
    l'.far.2 = l.far.2 ++ [e] ∧ asked e.1 = some want ∧ ∀ data, r = .ok data → data.length ≤ want

theorem toNat_ofNat_payload {want : Nat} {m : Mnt} (most : want ≤ m.payload) :
    (UInt32.ofNat want).toNat = want := by
  have bound := payload_lt m
  have small : want < 2 ^ 32 := by omega
  exact UInt32.toNat_ofNat_of_lt' small

theorem came_length {want : Nat} {body data : Bytes} (ok : came want body = .ok data) :
    data.length ≤ want := by
  rw [came] at ok
  rcases read : R.u32.on body with ⟨_ | count, rest⟩ <;> rw [read] at ok
  · cases ok
  · cases ok
    rw [length_take]
    omega

theorem went_length {chunk body data : Bytes} (ok : went chunk body = .ok data) :
    data.length ≤ chunk.length := by
  rw [went] at ok
  rcases read : R.u32.on body with ⟨_ | count, rest⟩ <;> rw [read] at ok
  · cases ok
  · cases ok
    rw [length_take]
    omega

theorem of_bind_ok {r : Except String Bytes} {g : Bytes → Except String Bytes} {b : Bytes}
    (ok : r.bind g = .ok b) : ∃ a, g a = .ok b := by
  rcases r with e | a
  · cases ok
  · exact ⟨a, ok⟩

theorem moves_read (t : Transport σ) (fid : UInt32) (off : UInt64) (m : Mnt) (n : Nat) :
    Moves (readOne (logged t) fid off) m.payload n := by
  intro done want l most _
  rcases exec_rpc_logged t .read (ask fid (off + UInt64.ofNat done) (UInt32.ofNat want)) l with
    ⟨reply, far, run⟩
  have fits : 4 + 1 + 2 + (16 + ([] : Bytes).length) < 2 ^ 32 := by decide
  have request := asked_frame fid (off + UInt64.ofNat done) (UInt32.ofNat want) fits T.read.code
    l.mnt.newtag.tag
  rw [toNat_ofNat_payload most] at request
  refine ⟨_, _, _, Prog.exec_bind_of run, rfl, ?_, ?_⟩
  · simpa [W.raw] using request
  · intro data ok
    rcases of_bind_ok ok with ⟨body, ok⟩
    exact came_length ok

theorem moves_write (t : Transport σ) (fid : UInt32) (data : Bytes) (off : UInt64) (m : Mnt) :
    Moves (writeOne (logged t) fid data off) m.payload data.length := by
  intro done want l most inside
  have length : ((data.drop done).take want).length = want := by
    rw [length_take, length_drop]
    omega
  have bound := payload_lt m
  rcases exec_rpc_logged t .write
    ((ask fid (off + UInt64.ofNat done) (UInt32.ofNat ((data.drop done).take want).length)).raw
      ((data.drop done).take want)) l with ⟨reply, far, run⟩
  have fits : 4 + 1 + 2 + (16 + ((data.drop done).take want).length) < 2 ^ 32 := by omega
  have request := asked_frame fid (off + UInt64.ofNat done)
    (UInt32.ofNat ((data.drop done).take want).length) fits T.write.code l.mnt.newtag.tag
  rw [length, toNat_ofNat_payload most] at request
  refine ⟨_, _, _, Prog.exec_bind_of run, rfl, ?_, ?_⟩
  · rw [length]
    exact request
  · intro moved ok
    rcases of_bind_ok ok with ⟨body, ok⟩
    have short := went_length ok
    omega

theorem bounded_of {one : Nat → Nat → Prog (Line σ) Bytes}
    (answers : ∀ done want l, ∃ r l', (one done want).exec l = (r, l') ∧
      ∀ data, r = .ok data → data.length ≤ want) : Bounded one := by
  intro done want l
  rcases answers done want l with ⟨r, l', run, short⟩
  rw [Prog.Ends, run]
  rcases r with e | data
  · trivial
  · exact short data rfl

theorem bounded_read (t : Transport σ) (fid : UInt32) (off : UInt64) :
    Bounded (readOne t fid off) := by
  apply bounded_of
  intro done want l
  refine ⟨_, _, Prog.exec_bind_of (exec_rpc rfl), ?_⟩
  intro data ok
  rcases of_bind_ok ok with ⟨body, ok⟩
  exact came_length ok

theorem bounded_write (t : Transport σ) (fid : UInt32) (data : Bytes) (off : UInt64) :
    Bounded (writeOne t fid data off) := by
  apply bounded_of
  intro done want l
  refine ⟨_, _, Prog.exec_bind_of (exec_rpc rfl), ?_⟩
  intro moved ok
  rcases of_bind_ok ok with ⟨body, ok⟩
  have short := went_length ok
  rw [length_take] at short
  omega

/-- What is moved came in pieces, one for each message and no longer than it asked for. -/
def Pieces (moved : Bytes) (es : Log) : Prop :=
  ∃ pieces : List Bytes, moved = pieces.flatten ∧
    List.Forall₂ (fun piece e => ∃ k, asked e.1 = some k ∧ piece.length ≤ k) pieces es

theorem rdwr_trace {one : Nat → Nat → Prog (Line (σ × Log)) Bytes} (moves : Moves one cap n)
    {fuel : Nat} {out : Bytes} {l l' : Line (σ × Log)} {r : Except String (Option Bytes)}
    (most : out.length ≤ n) (run : (rdwr one cap n fuel out).exec l = (r, l')) :
    ∃ es, l'.far.2 = l.far.2 ++ es ∧ (∀ e ∈ es, ∃ k, asked e.1 = some k ∧ k ≤ cap) ∧
      ∀ moved, r = .ok (some moved) → ∃ rest, moved = out ++ rest ∧ Pieces rest es := by
  induction fuel generalizing out l with
  | zero =>
      cases run
      exact ⟨[], (append_nil _).symm, nofun, nofun⟩
  | succ fuel ih =>
      rw [rdwr] at run
      split_ifs at run with whole
      · cases run
        refine ⟨[], (append_nil _).symm, nofun, ?_⟩
        rintro moved ⟨⟩
        exact ⟨[], (append_nil _).symm, [], rfl, .nil⟩
      · rcases moves out.length (min (n - out.length) cap) l (by omega) (by omega) with
          ⟨first, mid, e, ran, log, ask, short⟩
        have one_asks : ∃ k, asked e.1 = some k ∧ k ≤ cap := ⟨_, ask, by omega⟩
        rcases first with err | data
        · have failed := (Prog.exec_bind_error ran).symm.trans run
          cases failed
          exact ⟨[e], log, forall_mem_singleton.2 one_asks, nofun⟩
        · have bound := short data rfl
          have next := (Prog.exec_bind_ok ran).symm.trans run
          have length : (out ++ data).length = out.length + data.length := length_append
          split_ifs at next with less
          · cases next
            refine ⟨[e], log, forall_mem_singleton.2 one_asks, ?_⟩
            rintro moved ⟨⟩
            exact ⟨data, rfl, [data], by simp, .cons ⟨_, ask, bound⟩ .nil⟩
          · have most' : (out ++ data).length ≤ n := by omega
            rcases ih most' next with ⟨es, log', asks, moved⟩
            refine ⟨e :: es, ?_, forall_mem_cons.2 ⟨one_asks, asks⟩, ?_⟩
            · rw [log', log, append_assoc]
              rfl
            · intro whole ok
              rcases moved whole ok with ⟨rest, same, pieces, flat, each⟩
              refine ⟨data ++ rest, by rw [same, append_assoc], data :: pieces, ?_, ?_⟩
              · rw [flatten_cons, flat]
              · exact .cons ⟨_, ask, bound⟩ each

/-- What each message keeps, until there is no rest or a message moves less, holds of a run that
ends. -/
theorem rdwr_rule {J Q : Bytes → Line σ → Prop}
    (step : ∀ out l, J out l → out.length < n → ∃ data l',
      (one out.length (min (n - out.length) cap)).exec l = (.ok data, l') ∧
        (data.length = min (n - out.length) cap → J (out ++ data) l') ∧
        (data.length ≠ min (n - out.length) cap → Q (out ++ data) l'))
    (finish : ∀ out l, J out l → n ≤ out.length → Q out l) {fuel : Nat} {out : Bytes}
    {l l' : Line σ} {r : Except String (Option Bytes)} (inv : J out l)
    (run : (rdwr one cap n fuel out).exec l = (r, l')) :
    r = .ok none ∨ ∃ moved, r = .ok (some moved) ∧ Q moved l' := by
  induction fuel generalizing out l with
  | zero =>
      cases run
      exact .inl rfl
  | succ fuel ih =>
      rw [rdwr] at run
      split_ifs at run with whole
      · cases run
        exact .inr ⟨out, rfl, finish out _ inv whole⟩
      · rcases step out l inv (not_le.1 whole) with ⟨data, mid, ran, more, less⟩
        have next := (Prog.exec_bind_ok ran).symm.trans run
        split_ifs at next with short
        · cases next
          exact .inr ⟨out ++ data, rfl, less short⟩
        · exact ih (more (not_not.1 short)) next

end Ipnx.Rdwr
