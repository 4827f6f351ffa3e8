import Ipnx.Ninep.Dir

/-!
# The fid table of a server

What 9P2000 says of a server's fids: which a message and its reply bind, open, move and let go,
whatever the server's files are. What a request asks is read off its body, and whether it was done
is read off its reply.
-/

namespace Ipnx.Ninep

open Function (update)

/-- What a fid names, and the mode it is open with. -/
structure Named (N : Type) where
  file : N
  mode : Option UInt8
deriving DecidableEq, Repr

abbrev Fids (N : Type) := UInt32 → Option (Named N)

/-- A reply's type and its body, or nothing as yet. -/
abbrev Reply := Option (UInt8 × Bytes)

namespace Msg

variable (m : Msg)

def fid : Option UInt32 := (R.u32.on m.body).1

def walkArgs : R (UInt32 × UInt32 × UInt16) := do
  let src ← R.u32
  let newfid ← R.u32
  let n ← R.u16
  pure (src, newfid, n)

/-- A walk's fid, its new one, and how many names. -/
def walks : Option (UInt32 × UInt32 × UInt16) := (walkArgs.on m.body).1

def openArgs : R (UInt32 × UInt8) := do
  let fid ← R.u32
  let mode ← R.u8
  pure (fid, mode)

def opens : Option (UInt32 × UInt8) := (openArgs.on m.body).1

def createArgs : R (UInt32 × String × UInt32 × UInt8) := do
  let fid ← R.u32
  let name ← R.s
  let perm ← R.u32
  let mode ← R.u8
  pure (fid, name, perm, mode)

def creates : Option (UInt32 × String × UInt32 × UInt8) := (createArgs.on m.body).1

end Msg

/-- The messages a table is as it was after, done or not, but for a rename. -/
def still : List T := [.flush, .read, .write, .stat, .wstat]

/-- How a server's files hang together: what an open of one may give instead, and the file of a
name in a directory. -/
structure Files (N : Type) where
  opened : N → N → Prop
  child : N → String → N → Prop

/-- The turns of a table: a message, its reply and the renames it made take one table to the
next. -/
inductive Turn {N : Type} (v : Files N) (m : Msg) :
    Reply → List (N × N) → Fids N → Fids N → Prop
  | version {tab body} : m.ty = T.version.code →
      Turn v m (some (T.version.reply, body)) [] tab fun _ => none
  | attach {tab body fid file} : m.ty = T.attach.code → m.fid = some fid →
      Turn v m (some (T.attach.reply, body)) [] tab
        (update tab fid (some ⟨file, none⟩))
  | walk {tab body src newfid n f file} : m.ty = T.walk.code → m.walks = some (src, newfid, n) →
      tab src = some f → (R.u16.on body).1 = some n →
      Turn v m (some (T.walk.reply, body)) [] tab
        (update tab newfid (some ⟨file, none⟩))
  | stopped {tab body src newfid n count} : m.ty = T.walk.code →
      m.walks = some (src, newfid, n) → (R.u16.on body).1 = some count → count < n →
      Turn v m (some (T.walk.reply, body)) [] tab tab
  | open {tab body fid mode f file} : m.ty = T.open.code → m.opens = some (fid, mode) →
      tab fid = some f → v.opened f.file file →
      Turn v m (some (T.open.reply, body)) [] tab
        (update tab fid (some ⟨file, some mode⟩))
  | create {tab body fid name perm mode f file} : m.ty = T.create.code →
      m.creates = some (fid, name, perm, mode) → tab fid = some f → v.child f.file name file →
      Turn v m (some (T.create.reply, body)) [] tab
        (update tab fid (some ⟨file, some mode⟩))
  | clunk {tab body fid} : m.ty = T.clunk.code → m.fid = some fid →
      Turn v m (some (T.clunk.reply, body)) [] tab (update tab fid none)
  | nothing {tab body} : m.ty = T.clunk.code → m.fid = none →
      Turn v m (some (T.clunk.reply, body)) [] tab tab
  | remove {tab ty body fid} : m.ty = T.remove.code → m.fid = some fid →
      ty = T.remove.reply ∨ ty = T.error.code →
      Turn v m (some (ty, body)) [] tab (update tab fid none)
  | renamed {tab ty body fid f file} : m.ty = T.wstat.code → m.fid = some fid →
      tab fid = some f → ty = T.wstat.reply ∨ ty = T.error.code →
      Turn v m (some (ty, body)) [(f.file, file)] tab
        (update tab fid (some ⟨file, f.mode⟩))
  | still {tab body t} : t ∈ still → m.ty = t.code → Turn v m (some (t.reply, body)) [] tab tab
  | error {tab body} : (m.ty = T.remove.code → m.fid = none) →
      Turn v m (some (T.error.code, body)) [] tab tab
  | waits {tab} : Turn v m none [] tab tab

theorem foldl_qid_body (qids : List Name.Qid) (w : W) :
    ∃ rest, (qids.foldl W.qid w).body = w.body ++ rest := by
  induction qids generalizing w with
  | nil => exact ⟨[], (List.append_nil _).symm⟩
  | cons q qids ih =>
      rcases ih (w.qid q) with ⟨rest, whole⟩
      refine ⟨W.new.qid q |>.body |>.append rest, ?_⟩
      rw [List.foldl_cons, whole]
      simp [W.qid, W.u8, W.u32, W.u64, W.raw, W.new]

theorem count_of_walked (qids : List Name.Qid) (n : UInt16) :
    (R.u16.on (qids.foldl W.qid (W.new.u16 n)).body).1 = some n := by
  rcases foldl_qid_body qids (W.new.u16 n) with ⟨rest, whole⟩
  have read := Codec.u16.read_write (a := n) trivial rest
  rw [whole]
  simp only [W.new, W.u16, W.raw, List.nil_append]
  exact congrArg Prod.fst read

end Ipnx.Ninep
