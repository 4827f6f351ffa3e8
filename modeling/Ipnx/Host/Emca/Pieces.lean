import Ipnx.Host.Emca.Files
import Ipnx.Lib.System

/-!
# A text written in pieces

`hosts/web/www/emca.mjs`: a text that is written through a fid in pieces, one after another, while
others write too. What is gathered in the fid is decoded when it is clunked; a console's transcript
and an output's have a decoder that goes on from piece to piece, whoever writes; a status and verbs
decode each piece by itself.
-/

namespace Ipnx.Host.Emca

open List
open Ipnx.Ninep (utf8)

inductive Target
  | layout
  | body (w : Nat)
  | replace (w : Nat)
  | status (w : Nat)
  | verbs (w : Nat)
  | cons (w : Nat)
  | one (n : Nat)
  | two (n : Nat)
  | log (n : Nat)
deriving DecidableEq, Repr

inductive Taking
  | gathered | appended | streamed
deriving DecidableEq, Repr

namespace Target

def kind : Target → Kind
  | layout => .layout
  | body w => .file w "body"
  | replace w => .file w "replace"
  | status w => .file w "status"
  | verbs w => .file w "verbs"
  | cons w => .file w "cons"
  | one n => .out n "1"
  | two n => .out n "2"
  | log n => .out n "log"

def taking : Target → Taking
  | layout | body _ | replace _ => .gathered
  | status _ | verbs _ => .appended
  | cons _ | one _ | two _ | log _ => .streamed

variable (m : Manager)

def Here : Target → Prop
  | layout => True
  | body w | replace w | status w | verbs w | cons w => w ∈ m.windows
  | one n | two n | log n => m.outputs[n - 1]?.isSome

def shown : Target → String
  | status w => (m.win w).status
  | verbs w => (m.win w).verbs
  | cons w => (m.win w).body
  | one n => (m.outputs[n - 1]?.map Output.out).getD ""
  | two n => (m.outputs[n - 1]?.map Output.err).getD ""
  | log n => (m.outputs[n - 1]?.map fun o => (m.win o.win).body).getD ""
  | _ => ""

def decoder : Target → Utf8
  | cons w => (m.win w).consdec
  | one n => (m.outputs[n - 1]?.map Output.dec1).getD .new
  | two n => (m.outputs[n - 1]?.map Output.dec2).getD .new
  | log n => (m.outputs[n - 1]?.map Output.declog).getD .new
  | _ => .new

end Target

/-- The windows, the fid that it is written through, the pieces so far, and what each of them added
to what shows. -/
structure Writing where
  page : Manager
  fid : Fid
  pieces : List Bytes
  grown : String

inductive WriteAct
  | own (off : UInt64) (b : Bytes)
  | other (f : Fid) (off : UInt64) (b : Bytes)

def more (before after : String) : String := .ofList (after.toList.drop before.toList.length)

namespace Writing

def written (s : Writing) : Bytes := s.pieces.flatten

def own (s : Writing) (t : Target) (off : UInt64) (b : Bytes) : Writing :=
  let r := s.page.write s.fid off b
  { page := r.2.2
    fid := { s.fid with held := r.2.1 }
    pieces := s.pieces ++ [b]
    grown := s.grown ++ more (t.shown s.page) (t.shown r.2.2) }

def other (s : Writing) (f : Fid) (off : UInt64) (b : Bytes) : Writing :=
  { s with page := (s.page.write f off b).2.2 }

end Writing

/-- A text written to a file opened with `OTRUNC`, each piece where the last one ended, and whatever
else is written meanwhile. -/
def writing (t : Target) (text : String) : System Writing WriteAct where
  init s := t.Here s.page ∧ s.fid.node.kind = t.kind ∧ s.pieces = [] ∧ s.grown = "" ∧
    ∃ mode, mode &&& otrunc ≠ 0 ∧ s.fid.held = opened manager s.page (.bound s.fid.node) mode
  step s a s' :=
    match a with
    | .own off b =>
        off.toNat = s.written.length ∧ s.written ++ b <+: utf8 text ∧ s' = s.own t off b
    | .other f off b => s' = s.other f off b

/-- A piece that is whole characters, the first of them no byte order mark. -/
def Entire (b : Bytes) : Prop := ∃ u, b = utf8 u ∧ Utf8.mark ∉ u.toList.head?

/-- Where a fid's write would change the same. -/
def Target.Marred (t : Target) (m : Manager) (f : Fid) : Prop :=
  f.node.kind = t.kind ∨
    ∃ n o, f.node.kind = .out n "status" ∧ m.outputs[n - 1]? = some o ∧ t = .status o.win

/-- What a piece, or another's, must be for the text to come as it is. What is gathered has no mark
at first, and room; what is decoded by itself is whole characters, and no other writes there; a
decoder has read of the character that goes on what was written of it, and drops no mark. -/
def Meets (t : Target) (text : String) (s : Writing) : WriteAct → Prop
  | .own _ b => t.Here s.page ∧
      match t.taking with
      | .gathered =>
          Utf8.mark ∉ text.toList.head? ∧ (s.written ++ b).length ≤ s.page.room
      | .appended => Entire b
      | .streamed =>
          { t.decoder s.page with begun := false } = (Utf8.new.run s.written).2 ∧
            ¬(t.decoder s.page).Skims b
  | .other f _ _ => t.taking = .appended → s.pieces ≠ [] → ¬t.Marred s.page f

/-- The text came as it is: what a clunk does is done with it, or it is what shows, or what was
added to what shows. -/
def Writing.Came (s : Writing) (text : String) : Target → Prop
  | .layout => s.page.clunked s.fid = s.page.layout text
  | .body w => w ∈ s.page.windows →
      s.page.clunked s.fid = s.page.alter w ({ · with body := text, saved := some text })
  | .replace w => w ∈ s.page.windows →
      s.page.clunked s.fid = s.page.alter w fun w => Manager.replaced w text
  | .status w => s.pieces ≠ [] → (s.page.win w).status = text
  | .verbs w => s.pieces ≠ [] → (s.page.win w).verbs = text
  | .cons _ | .one _ | .two _ | .log _ => s.grown = text

theorem splice_end (buf b : Bytes) : splice buf buf.length b = buf ++ b := by
  have room : List.replicate (buf.length + b.length - buf.length) (0 : UInt8) =
      List.replicate b.length 0 := by rw [Nat.add_sub_cancel_left]
  rw [splice, room, take_left' rfl, drop_of_length_le (by simp), append_nil]

namespace Manager

variable {m m' m'' : Manager} {t : Target} {f : Fid} {off : UInt64} {b : Bytes} {w : Nat}

theorem write_gathered {done : Bytes} (file : f.node.kind = t.kind) (takes : t.taking = .gathered)
    (here : t.Here m) (buf : f.held.buf = some done) (next : off.toNat = done.length)
    (room : (done ++ b).length ≤ m.room) :
    m.write f off b = (.ok (), { f.held with buf := some (done ++ b) }, m) := by
  have most : max done.length (off.toNat + b.length) = (done ++ b).length := by
    rw [next, length_append]
    omega
  have put : m.gathered f done off b = (.ok (), { f.held with buf := some (done ++ b) }, m) := by
    rw [gathered, most, if_neg (Nat.not_lt.2 room), next, splice_end]
  cases t with
  | layout =>
      rw [write, file, Target.kind, buf]
      exact put
  | body w =>
      have there : w ∈ m.windows := here
      rw [write, file, Target.kind, buf]
      dsimp only
      rw [if_neg (not_not.2 there), if_pos rfl]
      exact put
  | replace w =>
      have there : w ∈ m.windows := here
      rw [write, file, Target.kind, buf]
      dsimp only
      rw [if_neg (not_not.2 there), if_neg (by decide), if_pos rfl]
      exact put
  | _ => cases takes

theorem writeWindow_status : m.writeWindow w "status" off b =
    (.ok (), m.alter w fun w => { w with
      status := if off = 0 then Utf8.decode b else w.status ++ Utf8.decode b }) := by
  simp only [writeWindow, String.reduceEq, or_self, reduceIte]

theorem writeWindow_verbs : m.writeWindow w "verbs" off b =
    (.ok (), m.alter w fun w => { w with
      verbs := if off = 0 then Utf8.decode b else w.verbs ++ Utf8.decode b }) := by
  simp only [writeWindow, String.reduceEq, or_self, reduceIte]

theorem write_appended (off : UInt64) (b : Bytes) (file : f.node.kind = t.kind)
    (takes : t.taking = .appended) (here : t.Here m) :
    t.shown (m.write f off b).2.2 =
      if off = 0 then Utf8.decode b else t.shown m ++ Utf8.decode b := by
  cases t with
  | status w =>
      have there : w ∈ m.windows := here
      rw [write, file, Target.kind]
      dsimp only
      rw [if_neg (not_not.2 there), if_neg (by decide), if_neg (by decide), writeWindow_status]
      dsimp only [Target.shown]
      rw [win_alter_self]
  | verbs w =>
      have there : w ∈ m.windows := here
      rw [write, file, Target.kind]
      dsimp only
      rw [if_neg (not_not.2 there), if_neg (by decide), if_neg (by decide), writeWindow_verbs]
      dsimp only [Target.shown]
      rw [win_alter_self]
  | _ => cases takes

theorem writeWindow_cons : m.writeWindow w "cons" off b =
    (.ok (), (m.alter w ({ · with consdec := ((m.win w).consdec.stream b).2 })).grow w
      ((m.win w).consdec.stream b).1) := by
  simp only [writeWindow, String.reduceEq, or_self, reduceIte]

theorem win_grow_self (m : Manager) (w : Nat) (text : String) :
    ((m.grow w text).win w).body = (m.win w).body ++ text :=
  congrArg Window.body (win_alter_self ..)

theorem outputs_grow (m : Manager) (w : Nat) (text : String) :
    (m.grow w text).outputs = m.outputs := rfl

theorem outputs_setOutput {n : Nat} {o : Output} (there : m.outputs[n - 1]? = some o)
    (f : Output → Output) : (m.setOutput n f).outputs[n - 1]? = some (f o) := by
  rw [setOutput, List.getElem?_modify_eq, there]
  rfl

theorem write_streamed (off : UInt64) (b : Bytes) (file : f.node.kind = t.kind)
    (takes : t.taking = .streamed) (here : t.Here m) :
    t.shown (m.write f off b).2.2 = t.shown m ++ ((t.decoder m).stream b).1 := by
  have output {n : Nat} (here : m.outputs[n - 1]?.isSome) : ∃ o, m.outputs[n - 1]? = some o :=
    Option.isSome_iff_exists.1 here
  cases t with
  | cons w =>
      have there : w ∈ m.windows := here
      rw [write, file, Target.kind]
      dsimp only
      rw [if_neg (not_not.2 there), if_neg (by decide), if_neg (by decide), writeWindow_cons]
      have kept : ((m.alter w ({ · with consdec := ((m.win w).consdec.stream b).2 })).win w).body =
          (m.win w).body := by rw [win_alter_self]
      have grown := win_grow_self (m.alter w ({ · with
        consdec := ((m.win w).consdec.stream b).2 })) w ((m.win w).consdec.stream b).1
      rw [kept] at grown
      exact grown
  | one n =>
      rcases output here with ⟨o, there⟩
      rw [write, file, Target.kind]
      dsimp only
      rw [writeOutput, there]
      dsimp only
      rw [if_pos rfl, Target.shown, Target.shown, outputs_grow, outputs_setOutput there, there,
        Target.decoder, there]
      rfl
  | two n =>
      rcases output here with ⟨o, there⟩
      rw [write, file, Target.kind]
      dsimp only
      rw [writeOutput, there]
      dsimp only
      rw [if_neg (by decide), if_pos rfl, Target.shown, Target.shown, outputs_grow,
        outputs_setOutput there, there, Target.decoder, there]
      rfl
  | log n =>
      rcases output here with ⟨o, there⟩
      rw [write, file, Target.kind]
      dsimp only
      rw [writeOutput, there]
      dsimp only
      rw [if_neg (by decide), if_neg (by decide), if_pos rfl, Target.shown, Target.shown,
        outputs_grow, outputs_setOutput there, there, Target.decoder, there]
      exact win_grow_self _ _ _
  | _ => cases takes

/-- Every window's status and verbs are as they were. -/
def Labels (m m' : Manager) : Prop :=
  ∀ v, (m'.win v).status = (m.win v).status ∧ (m'.win v).verbs = (m.win v).verbs

theorem labels_rfl (m : Manager) : m.Labels m := fun _ => ⟨rfl, rfl⟩

theorem Labels.trans (first : m.Labels m') (rest : m'.Labels m'') : m.Labels m'' := fun v =>
  ⟨(rest v).1.trans (first v).1, (rest v).2.trans (first v).2⟩

theorem labels_alter {f : Window → Window} (status : (f (m.win w)).status = (m.win w).status)
    (verbs : (f (m.win w)).verbs = (m.win w).verbs) : m.Labels (m.alter w f) := by
  intro v
  by_cases here : v = w
  · rw [here, win_alter_self]
    exact ⟨status, verbs⟩
  · rw [win_alter_of_ne m here]
    exact ⟨rfl, rfl⟩

theorem labels_reply (m : Manager) (bs : List Bytes) : m.Labels (m.reply bs) := labels_rfl m

theorem labels_ask (m : Manager) (line : String) : m.Labels (m.ask line) := by
  have drained (m : Manager) (w : Nat) : m.Labels (m.drain w) :=
    Labels.trans (labels_alter rfl rfl) (labels_reply _ _)
  rw [ask, post]
  exact Labels.trans (labels_alter rfl rfl) (drained _ root)

theorem labels_hangup (m : Manager) (w : Nat) : m.Labels (m.hangup w) := by
  rw [hangup]
  split_ifs
  · exact labels_rfl m
  · exact labels_ask m _

theorem labels_orphan (m : Manager) (w : Nat) : m.Labels (m.orphan w) := by
  rw [orphan]
  rcases (m.win w).parent with _ | p
  · exact labels_rfl m
  · exact Labels.trans (labels_alter rfl rfl) (labels_alter rfl rfl)

theorem labels_close (m : Manager) (w : Nat) : m.Labels (m.close w) := by
  apply closeIn_rule
  · exact labels_rfl
  · exact fun _ _ _ => Labels.trans
  · exact labels_hangup
  · exact fun _ _ _ => Labels.trans (labels_alter rfl rfl) (labels_reply _ _)
  · exact labels_orphan
  · intro m w
    rw [refocus]
    split_ifs <;> exact labels_rfl m

theorem labels_current (n : Nat) (m : Manager) (w : Nat) : m.Labels (Manager.current n m w) := by
  induction n generalizing m w with
  | zero => exact labels_rfl m
  | succ n ih =>
      rw [Manager.current]
      rcases (m.win w).parent with _ | p
      · exact labels_rfl m
      · exact Labels.trans (labels_alter rfl rfl) (ih _ p)

theorem labels_select (m : Manager) (w : Nat) : m.Labels (m.select w) := by
  have shown : m.Labels (if (m.win w).parent.isSome then
      Manager.current m.next (m.alter w ({ · with hidden := false })) w else m) := by
    split_ifs
    · exact Labels.trans (labels_alter rfl rfl) (labels_current _ _ _)
    · exact labels_rfl m
  rw [select]
  generalize (if (m.win w).parent.isSome then
    Manager.current m.next (m.alter w ({ · with hidden := false })) w else m) = m' at shown ⊢
  rcases (if (m'.win w).leaf then some w else m'.firstleaf w) with _ | l
  · exact shown
  · exact shown.trans (labels_rfl m')

theorem labels_ctlLine (w : Nat) (m : Manager) (line : String) : m.Labels (ctlLine w m line) := by
  rw [ctlLine]
  rcases words line with _ | ⟨word, rest⟩
  · exact labels_rfl m
  · dsimp only
    split_ifs
    · rcases (word :: rest).idxOf? "-pid" with _ | i
      · exact labels_rfl m
      · exact labels_alter rfl rfl
    · exact labels_close m w
    · exact labels_alter rfl rfl
    · exact labels_alter rfl rfl
    · exact labels_select m w
    · exact labels_alter rfl rfl
    · exact labels_alter rfl rfl
    · exact labels_alter rfl rfl
    · exact labels_rfl m

theorem labels_ctl (m : Manager) (w : Nat) (text : String) : m.Labels (m.ctl w text) := by
  rw [ctl]
  generalize lines text = ls
  induction ls generalizing m with
  | nil => exact labels_rfl m
  | cons l ls ih => exact (labels_ctlLine w m l).trans (ih _)

theorem labels_grow (m : Manager) (w : Nat) (text : String) : m.Labels (m.grow w text) :=
  labels_alter rfl rfl

theorem labels_writeWindow {name : String} (status : name ≠ "status") (verbs : name ≠ "verbs") :
    m.Labels (m.writeWindow w name off b).2 := by
  have done (f : Window → Window) (status : (f (m.win w)).status = (m.win w).status)
      (verbs : (f (m.win w)).verbs = (m.win w).verbs) :
      m.Labels ((.ok (), m.alter w f) : Except String Unit × Manager).2 := labels_alter status verbs
  rw [writeWindow]
  dsimp only
  split_ifs
  · exact Labels.trans (labels_alter rfl rfl) (labels_grow _ _ _)
  · exact done _ rfl rfl
  · exact done _ rfl rfl
  · exact done _ rfl rfl
  · exact done _ rfl rfl
  · exact done _ rfl rfl
  · exact done _ rfl rfl
  · exact done _ rfl rfl
  · exact labels_ctl m w _
  · exact labels_rfl m

theorem labels_writeOutput {n : Nat} {name : String} (status : name ≠ "status") :
    m.Labels (m.writeOutput n name b) := by
  rw [writeOutput]
  rcases m.outputs[n - 1]? with _ | o
  · exact labels_rfl m
  · dsimp only
    split_ifs
    all_goals first
      | exact labels_grow _ _ _
      | exact labels_rfl m

theorem gathered_rest (f : Fid) (buf : Bytes) : (m.gathered f buf off b).2.2 = m := by
  rw [gathered]
  dsimp only
  split_ifs <;> rfl

theorem writeOutput_status {n v : Nat}
    (apart : ∀ o, m.outputs[n - 1]? = some o → o.win ≠ v) :
    ((m.writeOutput n "status" b).win v).status = (m.win v).status := by
  rw [writeOutput]
  rcases there : m.outputs[n - 1]? with _ | o
  · rfl
  · dsimp only
    rw [if_neg (by decide), if_neg (by decide), if_neg (by decide), if_pos rfl]
    refine (labels_grow _ _ _ v).1.trans ?_
    rw [win_alter_of_ne _ (Ne.symm (apart o there))]
    rfl

theorem writeOutput_verbs {n : Nat} (v : Nat) :
    ((m.writeOutput n "status" b).win v).verbs = (m.win v).verbs := by
  rw [writeOutput]
  rcases m.outputs[n - 1]? with _ | o
  · rfl
  · dsimp only
    rw [if_neg (by decide), if_neg (by decide), if_neg (by decide), if_pos rfl]
    refine (labels_grow _ _ _ v).2.trans ?_
    by_cases here : v = o.win
    · rw [here, win_alter_self]
      rfl
    · rw [win_alter_of_ne _ here]
      rfl

theorem field_alter_of {α : Type} (field : Window → α) {f : Window → Window} {v : Nat}
    (keeps : w = v → field (f (m.win v)) = field (m.win v)) :
    field ((m.alter v f).win w) = field (m.win w) := by
  by_cases here : w = v
  · rw [here, win_alter_self, keeps here]
  · rw [win_alter_of_ne m here]

theorem write_file (off : UInt64) (b : Bytes) {v : Nat} {name : String}
    (file : f.node.kind = .file v name) :
    (m.write f off b).2.2 = m ∨ (m.write f off b).2.2 = (m.writeWindow v name off b).2 := by
  rw [write, file]
  dsimp only
  split_ifs
  · exact .inl (gathered_rest f _)
  · exact .inl (gathered_rest f _)
  · exact .inr rfl
  · exact .inl rfl

theorem shown_write (takes : t.taking = .appended) (clean : ¬t.Marred m f) :
    t.shown (m.write f off b).2.2 = t.shown m := by
  have label (labels : m.Labels (m.write f off b).2.2) :
      t.shown (m.write f off b).2.2 = t.shown m := by
    cases t with
    | status w => exact (labels w).1
    | verbs w => exact (labels w).2
    | _ => cases takes
  rw [Target.Marred, not_or] at clean
  cases file : f.node.kind with
  | layout =>
      apply label
      rw [write, file]
      exact (gathered_rest f _).symm ▸ labels_rfl m
  | out n name =>
      by_cases ended : name = "status"
      · subst ended
        have wrote : (m.write f off b).2.2 = m.writeOutput n "status" b := by rw [write, file]
        rw [wrote]
        cases t with
        | status w =>
            apply writeOutput_status
            rintro o there rfl
            exact clean.2 ⟨n, o, file, there, rfl⟩
        | verbs w => exact writeOutput_verbs w
        | _ => cases takes
      · apply label
        rw [write, file]
        exact labels_writeOutput ended
  | file v name =>
      rcases write_file off b file with rest | wrote
      · rw [rest]
      · by_cases status : name = "status"
        · subst status
          rw [wrote, writeWindow_status]
          dsimp only
          cases t with
          | status w =>
              apply field_alter_of Window.status
              rintro rfl
              exact absurd file clean.1
          | verbs w => exact field_alter_of Window.verbs fun _ => rfl
          | _ => cases takes
        · by_cases verbs : name = "verbs"
          · subst verbs
            rw [wrote, writeWindow_verbs]
            dsimp only
            cases t with
            | status w => exact field_alter_of Window.status fun _ => rfl
            | verbs w =>
                apply field_alter_of Window.verbs
                rintro rfl
                exact absurd file clean.1
            | _ => cases takes
          · apply label
            rw [wrote]
            exact labels_writeWindow status verbs
  | _ =>
      apply label
      rw [write, file]
      exact labels_rfl m

end Manager

namespace Writing

variable {t : Target} {text : String} {s : Writing} {off : UInt64} {b : Bytes}

/-- What is so while the text is being written. -/
structure Going (s : Writing) (t : Target) (text : String) : Prop where
  file : s.fid.node.kind = t.kind
  gathered : t.taking = .gathered → s.fid.held.buf = some s.written ∧
    (s.written ≠ [] → Utf8.mark ∉ text.toList.head?)
  appended : t.taking = .appended → s.pieces ≠ [] → s.written = utf8 (t.shown s.page)
  streamed : t.taking = .streamed → s.grown = .ofList (Utf8.new.run s.written).1

theorem written_own : (s.own t off b).written = s.written ++ b := by
  rw [written, own, written, flatten_append, flatten_singleton]

theorem more_append (before after : String) : more before (before ++ after) = after := by
  rw [more, String.toList_append, drop_left, String.ofList_toList]

theorem going_init (first : (writing t text).init s) : s.Going t text := by
  rcases first with ⟨here, file, none, empty, mode, trunc, held⟩
  have nothing : s.written = [] := by rw [written, none, flatten_nil]
  refine ⟨file, fun takes => ?_, fun _ some => absurd none some, fun _ => ?_⟩
  · refine ⟨?_, fun some => absurd nothing some⟩
    have kind : (Fid.bound s.fid.node).node.kind = t.kind := file
    rw [held, nothing, opened, kind]
    cases t with
    | layout => rfl
    | body w | replace w =>
        have there : w ∈ s.page.windows := here
        have body : manager.body s.page w = some (utf8 (s.page.win w).body) := if_pos there
        simp [Target.kind, body, trunc]
    | _ => cases takes
  · rw [empty, nothing]
    rfl

theorem Going.own (going : s.Going t text) (next : off.toNat = s.written.length)
    (meets : Meets t text s (.own off b)) : (s.own t off b).Going t text := by
  rcases meets with ⟨here, meets⟩
  refine ⟨going.file, fun takes => ?_, fun takes _ => ?_, fun takes => ?_⟩
  · rw [takes] at meets
    have wrote := Manager.write_gathered going.file takes here (going.gathered takes).1 next meets.2
    refine ⟨?_, fun _ => meets.1⟩
    rw [written_own]
    exact congrArg (fun r => r.2.1.buf) wrote
  · rw [takes] at meets
    rcases meets with ⟨u, rfl, unmarked⟩
    have wrote := Manager.write_appended off (utf8 u) going.file takes here
    have read : Utf8.decode (utf8 u) = u := by
      rw [utf8_eq_encode]
      exact Utf8.decode_text unmarked
    have shown : t.shown (s.own t off (utf8 u)).page = _ := wrote
    rw [written_own, shown, read]
    split_ifs with first
    · have nothing : s.written = [] := by
        rw [first] at next
        exact length_eq_zero_iff.1 next.symm
      rw [nothing, nil_append]
    · have some : s.pieces ≠ [] := by
        intro none
        rw [written, none, flatten_nil] at next
        exact first (UInt64.toNat_inj.1 next)
      rw [going.appended takes some, utf8_append]
  · rw [takes] at meets
    rcases meets with ⟨read, whole⟩
    have wrote := Manager.write_streamed off b going.file takes here
    have same : ((t.decoder s.page).run b).1 = ((Utf8.new.run s.written).2.run b).1 := by
      rw [← read]
      exact (congrArg Prod.fst (Utf8.run_begun false _ b)).symm
    have grown : (s.own t off b).grown = s.grown ++ ((t.decoder s.page).stream b).1 := by
      rw [← more_append (t.shown s.page) ((t.decoder s.page).stream b).1, ← wrote]
      rfl
    rw [grown, going.streamed takes, Utf8.stream_of_not_skims whole, same, written_own,
      Utf8.run_append, String.ofList_append]

theorem Going.other {f : Fid} (going : s.Going t text) (meets : Meets t text s (.other f off b)) :
    (s.other f off b).Going t text where
  __ := going
  appended takes some := by
    have shown : t.shown (s.other f off b).page = t.shown s.page :=
      Manager.shown_write takes (meets takes some)
    rw [shown]
    exact going.appended takes some

theorem going_step {a : WriteAct} {s' : Writing} (going : s.Going t text) (meets : Meets t text s a)
    (step : (writing t text).step s a s') : s'.Going t text := by
  cases a with
  | own off b =>
      rcases step with ⟨next, _, rfl⟩
      exact going.own next meets
  | other f off b =>
      cases step
      exact going.other meets

theorem Going.decoded {buf : Bytes} (going : s.Going t text) (takes : t.taking = .gathered)
    (all : s.written = utf8 text) (held : s.fid.held.buf = some buf) : Utf8.decode buf = text := by
  rcases going.gathered takes with ⟨gathered, unmarked⟩
  rw [gathered, Option.some.injEq] at held
  rw [← held, all, utf8_eq_encode]
  by_cases none : text.toList = []
  · apply Utf8.decode_text
    rw [none]
    exact Option.not_mem_none _
  · apply Utf8.decode_text
    apply unmarked
    rw [all, utf8_eq_encode]
    intro empty
    have same : text = "" := Utf8.encode_injective empty
    rw [same] at none
    exact none rfl

theorem Going.came (going : s.Going t text) (all : s.written = utf8 text) : s.Came text t := by
  have file := going.file
  cases t with
  | layout =>
      have buf := (going.gathered rfl).1
      rw [Came, Manager.clunked, file, buf]
      exact congrArg s.page.layout (going.decoded rfl all buf)
  | body w =>
      intro there
      have buf := (going.gathered rfl).1
      have read := going.decoded rfl all buf
      rw [Manager.clunked, file, buf]
      dsimp only [Target.kind]
      rw [if_neg (not_not.2 there), if_pos rfl, read]
  | replace w =>
      intro there
      have buf := (going.gathered rfl).1
      have read := going.decoded rfl all buf
      rw [Manager.clunked, file, buf]
      dsimp only [Target.kind]
      rw [if_neg (not_not.2 there), if_neg (by decide), if_pos rfl, read]
  | status w | verbs w =>
      intro some
      have wrote := going.appended rfl some
      rw [all, utf8_eq_encode, utf8_eq_encode] at wrote
      exact (Utf8.encode_injective wrote).symm
  | cons w | one n | two n | log n =>
      have read : Utf8.new.run (Utf8.encode text) = (text.toList, Utf8.idle false) :=
        Utf8.run_text false text.toList
      rw [Came, going.streamed rfl, all, utf8_eq_encode, read, String.ofList_toList]

/-- In every run whose pieces meet what they must, whatever else is written meanwhile, a text that
is all written came as it is. -/
theorem text_came (reached : (writing t text).Reach (Meets t text) s)
    (all : s.written = utf8 text) : s.Came text t :=
  (reached.invariant (fun s : Writing => s.Going t text) (fun _ first => going_init first)
    (fun _ _ _ going meets step => going_step going meets step)).came all

section

variable {ok : Writing → WriteAct → Prop}

theorem reach_own (off : UInt64) (b : Bytes) (reached : (writing t text).Reach ok s)
    (allowed : ok s (.own off b)) (next : off.toNat = s.written.length)
    (more : s.written ++ b <+: utf8 text) :
    (writing t text).Reach ok (s.own t off b) := reached.step allowed ⟨next, more, rfl⟩

theorem reach_other (f : Fid) (off : UInt64) (b : Bytes) (reached : (writing t text).Reach ok s)
    (allowed : ok s (.other f off b)) : (writing t text).Reach ok (s.other f off b) :=
  reached.step allowed rfl

end

def opening (name : String) : Writing where
  page := (Manager.boot 0 0).make (.on "/a" "/")
  fid := ⟨⟨.file 2 name, []⟩, some 0x11, .none⟩
  pieces := []
  grown := ""

theorem opening_there (name : String) : 2 ∈ (opening name).page.windows :=
  show 2 ∈ ((Manager.boot 0 0).make (.on "/a" "/")).windows by decide

theorem opening_init (text : String) (file : t.kind = .file 2 name)
    (here : t.Here (opening name).page)
    (held : opened manager (opening name).page (.bound ⟨.file 2 name, []⟩) 0x11 = .none) :
    (writing t text).init (opening name) :=
  ⟨here, file.symm, rfl, rfl, 0x11, by decide, held.symm⟩

/-- A text of two characters, the second cut in two by the pieces, comes as it is to a window's
`cons`, with the window's status written between them. -/
theorem text_came_cons : ∃ s : Writing, s.written = utf8 "aé" ∧ s.pieces = [[97, 0xC3], [0xA9]] ∧
    s.Came "aé" (.cons 2) := by
  have start : (writing (.cons 2) "aé").Reach (Meets (.cons 2) "aé") (opening "cons") :=
    .init (opening_init "aé" rfl (opening_there _) rfl)
  have here (s : Writing) (there : 2 ∈ s.page.windows) : Target.Here s.page (.cons 2) := there
  have one := reach_own 0 [97, 0xC3] start
    ⟨opening_there _, by decide, fun skims => absurd skims.2 (by decide)⟩ (by decide) (by decide)
  have two := reach_other ⟨⟨.file 2 "status", []⟩, none, .none⟩ 0 [118] one nofun
  have three := reach_own 2 [0xA9] two
    ⟨here _ (by decide), by decide, fun skims => absurd skims.2 (by decide)⟩ (by decide) (by decide)
  exact ⟨_, by decide, by decide, text_came three (by decide)⟩

/-- One cut inside a character is not what was written. -/
theorem text_came_fails : ¬∀ t text s, (writing t text).Reachable s → s.pieces ≠ [] →
    s.written = utf8 text → s.Came text t := by
  intro claim
  have start : (writing (.status 2) "é").Reachable (opening "status") :=
    .init (opening_init "é" rfl (opening_there _) rfl)
  have one := reach_own 0 [0xC3] start trivial (by decide) (by decide)
  have two := reach_own 1 [0xA9] one trivial (by decide) (by decide)
  have came := claim _ _ _ two (by decide) (by decide) (by decide)
  exact absurd came (by decide)

end Writing

end Ipnx.Host.Emca
