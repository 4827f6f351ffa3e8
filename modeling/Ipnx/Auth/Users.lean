import Ipnx.Lib.System

/-!
# Who a process is

The user name of each process, the host owner's, and the capabilities minted and not spent.
The files that change them: `#c/user` and `#c/hostowner`, `#¤/caphash` and `#¤/capuse`, and
the `wstat` of a file of `#p`. What eve mints is a hash; `hmac` is the hash of a capability's
text under its key, over any type of hashes.
-/

namespace Ipnx.Auth

def eperm : String := "permission denied"
def eshort : String := "i/o count too small"
def ebadarg : String := "bad arg in system call"
def eprocdied : String := "process exited"
def estat : String := "stat buffer too small"
def emismatch : String := "capability must match user"
def enocap : String := "invalid capability "

def cutLast : List Char → Option (List Char × List Char)
  | [] => none
  | c :: cs =>
      match cutLast cs with
      | some (before, after) => some (c :: before, after)
      | none => if c = '@' then some ([], cs) else none

def cutFirst : List Char → Option (List Char × List Char)
  | [] => none
  | c :: cs => if c = '@' then some ([], cs) else (cutFirst cs).map fun t => (c :: t.1, t.2)

def trimEnd (data : String) : String :=
  String.ofList (data.toList.reverse.dropWhile (· == '\n')).reverse

structure UserProc where
  user : String
  procmode : UInt32
deriving DecidableEq, Repr

/-- A hash eve wrote: the name of the process that wrote it, eve's name then, and the hash. -/
structure Mint (Hash : Type) where
  writer : String
  eve : String
  hash : Hash
deriving DecidableEq, Repr

/-- The processes' names, eve's, the capabilities there are; and for the record, those that
were minted and the texts and keys that were spent. -/
structure Users (Hash : Type) where
  procs : Nat → Option UserProc
  next : Nat
  eve : String
  caps : List Hash
  minted : List (Mint Hash)
  spent : List (String × String)

/-- What a process does. The data of `caphash` is its first `HASHLEN` bytes, if it has them;
a `wstat`'s is the user and the mode of the entry, if it is one. -/
inductive UserAct (Hash : Type)
  | user (data : String)
  | hostowner (data : String)
  | caphash (data : Option Hash)
  | capuse (text : String)
  | wstat (pid : Nat) (isDir : Bool) (entry : Option (String × UInt32))
  | rfork
  | kproc
  | exits

namespace Users

variable {Hash : Type} [DecidableEq Hash] (hmac : String → String → Hash)

def name (s : Users Hash) (p : Nat) : String := ((s.procs p).map UserProc.user).getD ""

def iseve (s : Users Hash) (p : Nat) : Bool := s.eve == s.name p

def edit (s : Users Hash) (p : Nat) (g : UserProc → UserProc) : Users Hash :=
  { s with procs := Function.update s.procs p ((s.procs p).map g) }

def setuser (s : Users Hash) (p : Nat) (name : String) : Users Hash :=
  s.edit p fun q => { q with user := name }

/-- Every process of the old name takes the new one. -/
def renameuser (s : Users Hash) (old new : String) : Users Hash :=
  { s with procs := fun p => (s.procs p).map fun q =>
      if q.user = old then { q with user := new } else q }

/-- The four bytes `none`, and nothing else. -/
def userwrite (s : Users Hash) (p : Nat) (data : String) : Except String Unit × Users Hash :=
  if trimEnd data ≠ "none" then (.error eperm, s) else (.ok (), s.setuser p "none")

def hostownerwrite (s : Users Hash) (p : Nat) (data : String) : Except String Unit × Users Hash :=
  if !s.iseve p then (.error eperm, s)
  else if (trimEnd data).isEmpty then (.error ebadarg, s)
  else (.ok (), { s.renameuser s.eve (trimEnd data) with eve := trimEnd data })

def addcap (s : Users Hash) (p : Nat) (data : Option Hash) : Except String Unit × Users Hash :=
  if !s.iseve p then (.error eperm, s)
  else
    match data with
    | none => (.error eshort, s)
    | some h => (.ok (), { s with
        caps := s.caps ++ [h]
        minted := s.minted ++ [⟨s.name p, s.eve, h⟩] })

def remcap (s : Users Hash) (h : Hash) : Option (Users Hash) :=
  if h ∈ s.caps then some { s with caps := s.caps.erase h } else none

/-- Spend a capability and become `user`. -/
def spend (s : Users Hash) (p : Nat) (text key user : String) : Except String Unit × Users Hash :=
  match s.remcap (hmac text key) with
  | none => (.error (enocap ++ text ++ "@" ++ key), s)
  | some s => (.ok (), { s.setuser p user with spent := s.spent ++ [(text, key)] })

/-- The key is what follows the last `@`. If a from user is supplied, it must match. -/
def capwrite (s : Users Hash) (p : Nat) (text : String) : Except String Unit × Users Hash :=
  match cutLast text.toList with
  | none => (.error eshort, s)
  | some (text, key) =>
      match cutFirst text with
      | some (user, new) =>
          if String.ofList user ≠ s.name p then (.error emismatch, s)
          else spend hmac s p (String.ofList text) (String.ofList key) (String.ofList new)
      | none => spend hmac s p (String.ofList text) (String.ofList key) (String.ofList text)

/-- A process running as none is kept from the others' state. -/
def nonone (s : Users Hash) (p pid : Nat) : Bool :=
  pid == p || s.name p != "none" || s.iseve p

/-- A process's user or eve may set its mode, and only eve may give it to another user. -/
def wstat (s : Users Hash) (p pid : Nat) (isDir : Bool) (entry : Option (String × UInt32)) :
    Except String Unit × Users Hash :=
  if isDir then (.error eperm, s)
  else if !s.nonone p pid then (.error eperm, s)
  else
    match s.procs pid, entry with
    | none, _ => (.error eprocdied, s)
    | some q, entry =>
        if s.name p ≠ q.user ∧ s.name p ≠ s.eve then (.error eperm, s)
        else
          match entry with
          | none => (.error estat, s)
          | some (uid, mode) =>
              if uid ≠ "" ∧ uid ≠ q.user ∧ s.name p ≠ s.eve then (.error eperm, s)
              else (.ok (), s.edit pid fun q =>
                { q with
                  user := if uid ≠ "" ∧ uid ≠ q.user then uid else q.user
                  procmode := if mode ≠ 0xffffffff then mode &&& 0o777 else q.procmode })

def act (s : Users Hash) (p : Nat) : UserAct Hash → Except String Unit × Users Hash
  | .user data => s.userwrite p data
  | .hostowner data => s.hostownerwrite p data
  | .caphash data => s.addcap p data
  | .capuse text => capwrite hmac s p text
  | .wstat pid isDir entry => s.wstat p pid isDir entry
  | .rfork => (.ok (), { s with
      procs := Function.update s.procs s.next (s.procs p)
      next := s.next + 1 })
  | .kproc => (.ok (), { s with
      procs := Function.update s.procs s.next (some ⟨s.eve, 0o640⟩)
      next := s.next + 1 })
  | .exits => (.ok (), { s with procs := Function.update s.procs p none })

def boot : Users Hash where
  procs p := if p = 1 then some ⟨"", 0o640⟩ else none
  next := 2
  eve := ""
  caps := []
  minted := []
  spent := []

def system : System (Users Hash) (Nat × UserAct Hash) where
  init s := s = boot
  step s a s' := (s.procs a.1).isSome = true ∧ s' = (s.act hmac a.1 a.2).2

end Users

end Ipnx.Auth
