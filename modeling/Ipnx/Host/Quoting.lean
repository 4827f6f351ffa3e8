import Ipnx.Lib.Quoted
import Ipnx.Proc.Family

/-!
# Words in quotes, in the kernel and on the host

`quote` and `tokenize` of `kernel/src/proc.rs` and `kernel/src/dev.rs`, and `rcquote` and `tokenize`
of `hosts/ipnx/src/lib.rs`, with what is written by the one and read by the other: a wait message,
and the command that init is given.
-/

namespace Ipnx

open List

def isSep (c : Char) : Bool := c = ' ' || c = '\t' || c = '\r' || c = '\n'

def joined (ws : List String) : String := .ofList ([' '].intercalate (ws.map String.toList))

/-- In quotes, with each quote of it doubled. -/
def inQuotes (w : String) : String := .ofList (Quoted.quoted '\'' w.toList)

def quote (s : String) : String :=
  if s.isEmpty ∨ s.toList.any fun c => c ≤ ' ' || c == '\'' then inQuotes s else s

/-- A quoted section belongs to its field, and a doubled quote in it is a quote. -/
def tokenize (s : String) : List String :=
  (Quoted.tokens isSep '\'' s.toList).map String.ofList

def Waitmsg.format (m : Waitmsg) : String :=
  joined [toString m.pid, toString m.time.1, toString m.time.2.1, toString m.time.2.2, quote m.msg]

namespace Host

/-- A letter or a digit; of those beyond ASCII it is for `beyond` to say. -/
def isAlphanumeric (beyond : Char → Bool) (c : Char) : Bool :=
  if c.toNat < 0x80 then c.isAlphanum else beyond c

/-- Whether a word may have the character and be bare. -/
def isPlain (beyond : Char → Bool) (c : Char) : Bool :=
  isAlphanumeric beyond c || "-_./+,:=@%".toList.contains c

def rcquote (beyond : Char → Bool) (w : String) : String :=
  if w ≠ "" ∧ w.toList.all (isPlain beyond) then w else inQuotes w

def tokenize (s : String) : List String :=
  (Quoted.tokens isSep '\'' s.toList).map String.ofList

def objtype : String := "wasm"

/-- The command is one word of init's, and each of its words is quoted in it. -/
def initcmd (beyond : Char → Bool) (args : List String) : String × String :=
  ("init", "/" ++ objtype ++ "/init -t " ++
    rcquote beyond (joined (args.map (rcquote beyond))))

def plan9ini (beyond : Char → Bool) (cmd : List String) : List (String × String) :=
  ("user", "kitty") :: if cmd.isEmpty then [] else [initcmd beyond cmd]

def confget (conf : List (String × String)) (name : String) : Option String :=
  (conf.find? fun entry => entry.1 == name).map Prod.snd

def basename (path : String) : String :=
  .ofList (path.toList.reverse.takeWhile (· ≠ '/')).reverse

def execinit (conf : List (String × String)) : String × List String :=
  let cmd := (confget conf "init").getD ("/" ++ objtype ++ "/init -t")
  let argv := tokenize cmd
  (argv.head?.getD "", argv.modifyHead basename)

end Host

variable {beyond : Char → Bool} {s w : String}

theorem isSep_quote : isSep '\'' = false := by decide

theorem isSep_blank : isSep ' ' = true := by decide

abbrev Spells : List Char → List Char → Prop := Quoted.Spells isSep '\''

theorem spells_inQuotes (w : String) : Spells w.toList (inQuotes w).toList := by
  right
  rw [inQuotes, String.toList_ofList]

theorem spells_bare (some_ : w ≠ "") (plain : ∀ c ∈ w.toList, isSep c = false ∧ c ≠ '\'') :
    Spells w.toList w.toList := by
  left
  refine ⟨rfl, ?_, plain⟩
  intro empty
  exact some_ (String.toList_eq_nil_iff.1 empty)

theorem plain_of {p : Char → Bool} {c : Char} (holds : p c = true)
    (none_ : ∀ d ∈ [' ', '\t', '\r', '\n', '\''], p d = false) : isSep c = false ∧ c ≠ '\'' := by
  have apart : ∀ d ∈ [' ', '\t', '\r', '\n', '\''], c ≠ d := by
    rintro d member rfl
    rw [none_ c member] at holds
    cases holds
  simp only [mem_cons, not_mem_nil, or_false, forall_eq_or_imp, forall_eq] at apart
  simp [isSep, apart]

theorem spells_quote (s : String) : Spells s.toList (quote s).toList := by
  rw [quote]
  split_ifs with needs
  · exact spells_inQuotes s
  · rw [not_or] at needs
    apply spells_bare
    · rintro rfl
      exact needs.1 rfl
    · intro c member
      apply plain_of (p := fun c => !(c ≤ ' ' || c == '\''))
      · by_contra special
        rw [Bool.not_eq_true, Bool.not_eq_false'] at special
        exact needs.2 (any_eq_true.2 ⟨c, member, special⟩)
      · simp

theorem spells_rcquote (w : String) : Spells w.toList (Host.rcquote beyond w).toList := by
  rw [Host.rcquote]
  split_ifs with bare
  · apply spells_bare bare.1
    intro c member
    refine plain_of (all_eq_true.1 bare.2 c member) ?_
    simp [Host.isPlain, Host.isAlphanumeric]
  · exact spells_inQuotes w

theorem spells_number (n : Nat) : Spells (toString n).toList (toString n).toList := by
  have digits : (toString n).toList = Nat.toDigits 10 n := by
    rw [Nat.toString_eq_repr, Nat.repr, String.toList_ofList]
  apply spells_bare
  · intro empty
    have none_ : (toString n).toList = [] := by rw [empty]; rfl
    rw [digits] at none_
    exact Nat.toDigits_ne_nil none_
  · intro c member
    rw [digits] at member
    exact plain_of (Nat.isDigit_of_mem_toDigits (by decide) (by decide) member) (by simp)

theorem tokens_joined {ws fs : List String}
    (spells : List.Forall₂ (fun w f => Spells w.toList f.toList) ws fs) :
    (Quoted.tokens isSep '\'' (joined fs).toList).map String.ofList = ws := by
  have each : List.Forall₂ Spells (ws.map String.toList) (fs.map String.toList) :=
    forall₂_map_left_iff.2 (forall₂_map_right_iff.2 spells)
  rw [joined, String.toList_ofList, Quoted.tokens_intercalate each isSep_quote isSep_blank,
    map_map]
  have same : String.ofList ∘ String.toList = id := funext fun _ => String.ofList_toList
  rw [same, map_id]

theorem forall₂_map_self {f : String → String} (spells : ∀ w, Spells w.toList (f w).toList)
    (ws : List String) : List.Forall₂ (fun w f => Spells w.toList f.toList) ws (ws.map f) := by
  induction ws with
  | nil => exact .nil
  | cons w ws ih => exact .cons (spells w) ih

theorem tokenize_quote (ws : List String) : tokenize (joined (ws.map quote)) = ws :=
  tokens_joined (forall₂_map_self spells_quote ws)

theorem tokenize_rcquote (ws : List String) :
    Host.tokenize (joined (ws.map (Host.rcquote beyond))) = ws :=
  tokens_joined (forall₂_map_self spells_rcquote ws)

theorem tokenize_format (m : Waitmsg) : tokenize m.format =
    [toString m.pid, toString m.time.1, toString m.time.2.1, toString m.time.2.2, m.msg] :=
  tokens_joined (.cons (spells_number _) (.cons (spells_number _) (.cons (spells_number _)
    (.cons (spells_number _) (.cons (spells_quote m.msg) .nil)))))

namespace Host

theorem initcmd_joined (args : List String) : (initcmd beyond args).2 =
    joined ["/wasm/init", "-t", rcquote beyond (joined (args.map (rcquote beyond)))] := by
  rw [initcmd]
  generalize rcquote beyond (joined (args.map (rcquote beyond))) = line
  apply String.toList_inj.1
  simp [joined, objtype, List.intercalate, List.intersperse]

theorem execinit_plan9ini (w : String) (ws : List String) :
    execinit (plan9ini beyond (w :: ws)) =
      ("/wasm/init", ["init", "-t", joined ((w :: ws).map (rcquote beyond))]) := by
  have conf : confget (plan9ini beyond (w :: ws)) "init" = some (initcmd beyond (w :: ws)).2 := by
    simp [confget, plan9ini, initcmd]
  have argv : tokenize (initcmd beyond (w :: ws)).2 =
      ["/wasm/init", "-t", joined ((w :: ws).map (rcquote beyond))] := by
    rw [initcmd_joined]
    apply tokens_joined
    refine .cons (spells_bare ?_ ?_) (.cons (spells_bare ?_ ?_) (.cons (spells_rcquote _) .nil))
    all_goals simp [isSep]
  rw [execinit, conf, Option.getD_some, argv]
  have last : basename "/wasm/init" = "init" := by decide
  simp [last]

end Host

/-- For each quoter and its tokenizer, the words quoted and joined are read as they were; a wait
message has five fields, and its last is the exit string; and init is given its path and three
arguments, of which the last is read as the command it was started with. -/
theorem quoting_round_trip (beyond : Char → Bool) (ws : List String) :
    tokenize (joined (ws.map quote)) = ws ∧
    Host.tokenize (joined (ws.map (Host.rcquote beyond))) = ws ∧
    (∀ m : Waitmsg, tokenize m.format =
      [toString m.pid, toString m.time.1, toString m.time.2.1, toString m.time.2.2, m.msg]) ∧
    ∀ w, ∃ line, Host.execinit (Host.plan9ini beyond (w :: ws)) =
      ("/wasm/init", ["init", "-t", line]) ∧ Host.tokenize line = w :: ws :=
  ⟨tokenize_quote ws, tokenize_rcquote ws, tokenize_format, fun w =>
    ⟨_, Host.execinit_plan9ini w ws, tokenize_rcquote (w :: ws)⟩⟩

end Ipnx
