import Ipnx.Host.Emca.Files
import Ipnx.Lib.System

/-!
# Reading the windows' files

Messages that open for reading only, and the person's edits between them. What a fid gathers is
taken at its open, whether or not it is opened to write, and put back at its clunk: `Spared` is when
putting it back changes nothing, and every other message leaves the windows as they are but for
what waits in them, which a read takes from the front.
-/

namespace Ipnx.Host.Emca

open List
open Ipnx.Ninep (Msg T R utf8)
open Prog (Ends ends_ite ends_pure ends_throw ends_get ends_modify exec_bind_ok)
open Function (update update_of_ne update_self)

def Window.still (w : Window) : Window :=
  { w with input := [], reads := [], events := [], eventreads := [] }

namespace Manager

/-- The windows, their tree and the layout, but for what waits in them. -/
def still (m : Manager) : Manager := { m with win := fun w => (m.win w).still, replies := [] }

/-- Nothing changed but what waits, and of what was typed and of the events only the front went. -/
structure Unchanged (m m' : Manager) : Prop where
  still : m'.still = m.still
  input : ∀ w, (m'.win w).input.flatten <:+ (m.win w).input.flatten
  events : ∀ w, (m'.win w).events <:+ (m.win w).events

/-- What a fid gathered is what is there: the body and what was saved of it, nothing selected and
no body, or a layout of nothing. -/
def Spared (m : Manager) (f : Fid) : Prop :=
  match f.node.kind, f.held.buf with
  | .layout, some _ =>
      m.layoutText = "" ∧ (∀ c ∈ (m.win root).children, c = root ∨ (m.win c).gone) ∧
        m.focus = m.firstleaf root
  | .file w name, some buf =>
      if w ∉ m.windows then True
      else if name = "body" then
        (m.win w).body = Utf8.decode buf ∧ (m.win w).saved = some (Utf8.decode buf)
      else if name = "replace" then (m.win w).body = "" ∧ (m.win w).selection = none
      else True
  | _, _ => True

end Manager

/-- An open for reading, and not of `new/ctl`; and no write. -/
def Reads (s : Emca Manager) (m : Msg) : Prop :=
  m.ty ≠ T.write.code ∧
    (m.ty = T.open.code → ∀ fid mode, m.opens = some (fid, mode) →
      mode &&& 3 = 0 ∧ mode &&& otrunc = 0 ∧
        ∀ f, s.fids fid = some f → f.node.kind ≠ .newctl)

/-- The message is not a clunk of a fid whose gathering changes anything. -/
def Harmless (s : Emca Manager) (m : Msg) : Prop :=
  m.ty = T.clunk.code → ∀ fid f, (R.u32.on m.body).1 = some fid → s.fids fid = some f →
    s.page.Spared f

def after (s : Emca Manager) (m : Msg) : Emca Manager := ((t manager m).exec s).2

inductive ReadAct
  | msg (m : Msg)
  | person (page : Manager)

/-- Messages that only read, and the person, who may make anything of the windows. -/
def reading : System (Emca Manager) ReadAct where
  init s := ∀ fid f, s.fids fid = some f → f.held.buf = none
  step s a s' :=
    match a with
    | .msg m => Reads s m ∧ s' = after s m
    | .person page => s' = { s with page := page }

namespace Manager

variable {m m' m'' : Manager} {w : Nat}

theorem unchanged_rfl : m.Unchanged m :=
  ⟨rfl, fun _ => suffix_rfl, fun _ => suffix_rfl⟩

theorem Unchanged.trans (first : m.Unchanged m') (rest : m'.Unchanged m'') : m.Unchanged m'' :=
  ⟨rest.still.trans first.still, fun w => (rest.input w).trans (first.input w),
    fun w => (rest.events w).trans (first.events w)⟩

theorem unchanged_reply (bs : List Bytes) : m.Unchanged (m.reply bs) :=
  ⟨rfl, fun _ => suffix_rfl, fun _ => suffix_rfl⟩

theorem unchanged_alter {f : Window → Window} (still : (f (m.win w)).still = (m.win w).still)
    (input : (f (m.win w)).input.flatten <:+ (m.win w).input.flatten)
    (events : (f (m.win w)).events <:+ (m.win w).events) : m.Unchanged (m.alter w f) := by
  have self : (m.alter w f).win w = f (m.win w) := update_self ..
  have other {v : Nat} (differs : v ≠ w) : (m.alter w f).win v = m.win v :=
    update_of_ne differs ..
  constructor
  · have wins : (fun v => ((m.alter w f).win v).still) = fun v => (m.win v).still := by
      funext v
      by_cases here : v = w
      · rw [here, self, still]
      · rw [other here]
    simp only [Manager.still, wins]
    rfl
  · intro v
    by_cases here : v = w
    · rw [here, self]
      exact input
    · rw [other here]
  · intro v
    by_cases here : v = w
    · rw [here, self]
      exact events
    · rw [other here]

end Manager

theorem fed_suffix (rs : List Waiting) (input : List Bytes) :
    (fed rs input).2.2.flatten <:+ input.flatten := by
  induction rs generalizing input with
  | nil => exact suffix_rfl
  | cons r rs ih =>
      cases input with
      | nil => exact suffix_rfl
      | cons b input =>
          rw [fed, flatten_cons]
          split_ifs with short
          · apply (ih _).trans
            rw [flatten_cons]
            rcases drop_suffix (relative b.length r.2) b with ⟨front, whole⟩
            exact ⟨front, by rw [← append_assoc, whole]⟩
          · exact (ih _).trans (suffix_append b _)

theorem drained_suffix (rs : List Waiting) (events : Bytes) :
    (drained rs events).2.2 <:+ events := by
  induction rs generalizing events with
  | nil => exact suffix_rfl
  | cons r rs ih =>
      rw [drained]
      split_ifs with none
      · exact suffix_rfl
      · exact (ih _).trans (drop_suffix _ _)

namespace Manager

variable {m m' m'' : Manager} {w : Nat}

theorem unchanged_feed : m.Unchanged (m.feed w) := by
  refine (unchanged_alter ?_ ?_ ?_).trans (unchanged_reply _)
  · rfl
  · exact fed_suffix _ _
  · exact suffix_rfl

theorem unchanged_drain : m.Unchanged (m.drain w) := by
  refine (unchanged_alter ?_ ?_ ?_).trans (unchanged_reply _)
  · rfl
  · exact suffix_rfl
  · exact drained_suffix _ _

theorem unchanged_flush (old : UInt16) : m.Unchanged (m.flush old) := by
  rw [flush]
  generalize m.windows = ws
  induction ws generalizing m with
  | nil => exact unchanged_rfl
  | cons w ws ih =>
      exact (unchanged_alter rfl suffix_rfl suffix_rfl).trans ih

theorem readEntries_unchanged (f : Fid) (off : UInt64) (count : Int) :
    (m.readEntries f off count).2.1.buf = f.held.buf ∧
      m.Unchanged (m.readEntries f off count).2.2 := by
  have kept : (if off = 0 then
        { f.held with entries := some ((m.list f.node).map m.stat), at_ := 0 }
      else f.held : Held).buf = f.held.buf := by
    split_ifs <;> rfl
  rw [readEntries]
  dsimp only
  split
  · exact ⟨kept, unchanged_rfl⟩
  · exact ⟨kept, unchanged_rfl⟩

theorem readWindow_unchanged (f : Fid) (name : String) (tag : UInt16) (off : UInt64) (count : Int) :
    (m.readWindow f w name tag off count).2.1.buf = f.held.buf ∧
      m.Unchanged (m.readWindow f w name tag off count).2.2 := by
  rw [readWindow]
  split_ifs
  · refine ⟨rfl, Unchanged.trans ?_ unchanged_feed⟩
    exact unchanged_alter rfl suffix_rfl suffix_rfl
  · exact ⟨rfl, unchanged_rfl⟩
  · refine ⟨rfl, Unchanged.trans ?_ unchanged_drain⟩
    exact unchanged_alter rfl suffix_rfl suffix_rfl
  · exact ⟨rfl, unchanged_rfl⟩
  · exact ⟨rfl, unchanged_rfl⟩

theorem read_unchanged (f : Fid) (tag : UInt16) (off : UInt64) (count : Int) :
    (m.read f tag off count).2.1.buf = f.held.buf ∧
      m.Unchanged (m.read f tag off count).2.2 := by
  rw [read]
  split_ifs
  · exact readEntries_unchanged f off count
  · rcases f.node.kind with _ | _ | _ | _ | _ | _ | _ | _ | _ | _ | ⟨w, name⟩
    case file => exact readWindow_unchanged f name tag off count
    all_goals exact ⟨rfl, unchanged_rfl⟩

end Manager

/-- What a fid that only reads has gathered: the layout's and a replacement's, nothing. -/
def Fid.Taken (f : Fid) : Prop :=
  ∀ b, f.held.buf = some b → f.node.kind = .layout ∨ (∃ w, f.node.kind = .file w "replace") → b = []

def Taken (s : Emca Manager) : Prop := ∀ fid f, s.fids fid = some f → f.Taken

/-- The windows are unchanged, and what fids gather is as it was taken. -/
structure Quiet (s s' : Emca Manager) : Prop where
  unchanged : s.page.Unchanged s'.page
  taken : Taken s → Taken s'

variable {s : Emca Manager} {m : Msg}

theorem quiet_rfl : Quiet s s := ⟨Manager.unchanged_rfl, id⟩

theorem Taken.insert (taken : Taken s) {fid : UInt32} {f : Fid} (own : f.Taken) :
    Taken (s.insert fid f) := by
  intro fid' f' there
  by_cases same : fid' = fid
  · subst same
    cases (update_self (f := s.fids) ..).symm.trans there
    exact own
  · exact taken fid' f' ((update_of_ne same ..).symm.trans there)

theorem taken_bound (node : Node) : (Fid.bound node).Taken := nofun

theorem Fid.Taken.opened {f : Fid} (taken : f.Taken) (p : Manager) (mode : UInt8) :
    Fid.Taken { f with mode := some mode, held := opened manager p f mode } := by
  intro b gathered special
  have gathered : (Emca.opened manager p f mode).buf = some b := gathered
  have special : f.node.kind = .layout ∨ ∃ w, f.node.kind = .file w "replace" := special
  rw [Emca.opened] at gathered
  rcases special with layout | ⟨w, replace⟩
  · rw [layout] at gathered
    exact (Option.some.inj gathered).symm
  · rw [replace] at gathered
    rcases there : manager.body p w with _ | body <;> simp only [there] at gathered
    · exact taken b gathered (.inr ⟨w, replace⟩)
    · have other : "replace" ≠ "body" := by decide
      rw [if_neg other, if_pos trivial] at gathered
      exact (Option.some.inj gathered).symm

abbrev Quietly {α : Type} (s : Emca Manager) (h : Serve Manager α) : Prop :=
  Ends h s (fun _ s' => Quiet s s') fun _ s' => Quiet s s'

theorem tversion_quiet : Quietly s (tversion manager m.body) := by
  apply Ends.bind
  apply ends_parse _ quiet_rfl
  rintro ⟨msize, v⟩ rest _
  apply Ends.modify
  exact ends_pure ⟨Manager.unchanged_rfl, fun _ => nofun⟩

theorem tattach_quiet : Quietly s (tattach manager m.body) := by
  apply Ends.bind
  apply ends_parse _ quiet_rfl
  rintro ⟨fid, aname⟩ rest _
  apply Ends.get
  rcases attached manager s.page aname with e | node
  · exact ends_throw quiet_rfl
  apply Ends.modify
  exact ends_pure ⟨Manager.unchanged_rfl, fun taken => taken.insert (taken_bound node)⟩

theorem tflush_quiet : Quietly s (tflush manager m.body) := by
  apply Ends.bind
  apply ends_parse _ quiet_rfl
  intro old rest _
  apply Ends.get
  apply Ends.modify
  exact ends_pure ⟨Manager.unchanged_flush old, id⟩

theorem twalk_quiet : Quietly s (twalk manager m.body) := by
  apply Ends.bind
  apply ends_parse _ quiet_rfl
  rintro ⟨fid, newfid, n⟩ rest _
  apply Ends.bind
  apply ends_lookup _ quiet_rfl
  intro f there
  apply Ends.bind
  apply (walkNames_turn _ _ _ _).mono
  · rintro ⟨node, qids⟩ s₁ ⟨rfl, count⟩
    dsimp only
    apply ends_ite
    · intro _
      exact ends_throw quiet_rfl
    intro _
    apply Ends.modify
    apply ends_pure
    split_ifs
    · exact ⟨Manager.unchanged_rfl, fun taken => taken.insert (taken_bound node)⟩
    · exact quiet_rfl
  · rintro _ _ rfl
    exact quiet_rfl

theorem topen_quiet (reads : Reads s m) (ty : m.ty = T.open.code) :
    Quietly s (topen manager m.body) := by
  apply Ends.bind
  apply ends_parse _ quiet_rfl
  rintro ⟨fid, mode⟩ rest read
  have args : m.opens = some (fid, mode) := congrArg Prod.fst read
  apply Ends.bind
  apply ends_lookup _ quiet_rfl
  intro f there
  have old := (reads.2 ty fid mode args).2.2 f there
  apply Ends.bind
  rw [opening, if_neg old]
  apply ends_pure
  apply Ends.modify
  apply ends_pure
  refine ⟨Manager.unchanged_rfl, fun taken => taken.insert ?_⟩
  exact (taken fid f there).opened s.page mode

theorem tread_quiet : Quietly s (tread manager m.tag m.body) := by
  apply Ends.bind
  apply ends_parse _ quiet_rfl
  rintro ⟨fid, off, count⟩ rest _
  apply Ends.bind
  apply ends_lookup _ quiet_rfl
  intro f there
  apply Ends.get
  apply Ends.modify
  have read (count : Int) : Quiet s
      { s.insert fid { f with held := (manager.read s.page f m.tag off count).2.1 } with
        page := (manager.read s.page f m.tag off count).2.2 } := by
    rcases Manager.read_unchanged (m := s.page) f m.tag off count with ⟨kept, unchanged⟩
    refine ⟨unchanged, fun taken => taken.insert ?_⟩
    intro b gathered special
    exact taken fid f there b (kept.symm.trans gathered) special
  rcases (manager.read _ f _ _ _).1 with e | _ | data
  · exact ends_throw (read _)
  · exact ends_pure (read _)
  · exact ends_pure (read _)

theorem tstat_quiet : Quietly s (tstat manager m.body) := by
  apply Ends.bind
  apply ends_parse _ quiet_rfl
  intro fid rest _
  apply Ends.bind
  apply ends_lookup _ quiet_rfl
  intro f there
  apply Ends.get
  exact ends_pure quiet_rfl

theorem t_quiet (reads : Reads s m) (other : m.ty ≠ T.clunk.code) : Quietly s (t manager m) := by
  apply ends_ite fun _ => tversion_quiet
  intro _
  apply ends_ite fun _ => ends_throw quiet_rfl
  intro _
  apply ends_ite fun _ => tattach_quiet
  intro _
  apply ends_ite fun _ => tflush_quiet
  intro _
  apply ends_ite fun _ => twalk_quiet
  intro _
  apply ends_ite fun ty => topen_quiet reads ty
  intro _
  apply ends_ite fun _ => ends_throw quiet_rfl
  intro _
  apply ends_ite fun _ => tread_quiet
  intro _
  apply ends_ite fun ty => absurd ty reads.1
  intro _
  apply ends_ite fun ty => absurd ty other
  intro _
  apply ends_ite fun _ => ends_throw quiet_rfl
  intro _
  apply ends_ite fun _ => tstat_quiet
  intro _
  exact ends_ite (fun _ => ends_pure quiet_rfl) fun _ => ends_throw quiet_rfl

theorem after_quiet (reads : Reads s m) (other : m.ty ≠ T.clunk.code) : Quiet s (after s m) := by
  have ends := t_quiet reads other
  rw [Quietly, Ends] at ends
  rw [after]
  rcases run : (t manager m).exec s with ⟨e | a, s'⟩ <;> rw [run] at ends
  · exact ends
  · exact ends

namespace Manager

variable {m m' m'' : Manager} {w v : Nat}

def Gone (m m' : Manager) : Prop := ∀ v, (m.win v).gone → (m'.win v).gone

theorem gone_rfl : m.Gone m := fun _ => id

theorem Gone.trans (first : m.Gone m') (rest : m'.Gone m'') : m.Gone m'' :=
  fun v gone => rest v (first v gone)

theorem gone_alter (f : Window → Window) (keeps : (m.win w).gone → (f (m.win w)).gone) :
    m.Gone (m.alter w f) := by
  intro v gone
  by_cases here : v = w
  · subst here
    rw [win_alter_self]
    exact keeps gone
  · rw [win_alter_of_ne m here]
    exact gone

theorem gone_reply (bs : List Bytes) : m.Gone (m.reply bs) := fun _ => id

theorem gone_post (line : String) : m.Gone (m.post w line) :=
  Gone.trans (gone_alter _ id) (Gone.trans (gone_alter _ id) (gone_reply _))

theorem gone_hangup : m.Gone (m.hangup w) := by
  rw [hangup]
  split_ifs
  · exact gone_rfl
  · exact gone_post _

theorem gone_endreads : m.Gone (m.endreads w) :=
  Gone.trans (gone_alter _ fun _ => rfl) (gone_reply _)

theorem gone_orphan : m.Gone (m.orphan w) := by
  rw [orphan]
  rcases (m.win w).parent with _ | p
  · exact gone_rfl
  · exact Gone.trans (gone_alter _ id) (gone_alter _ id)

theorem gone_refocus : m.Gone (m.refocus w) := by
  rw [refocus]
  split_ifs <;> exact gone_rfl

theorem gone_left {n : Nat} (each : ∀ m w, Gone m (closeIn n m w)) :
    m.Gone (match (m.win w).parent with
      | none => (m.orphan w).forget w
      | some p =>
          if p ≠ root ∧ (((m.orphan w).forget w).win p).children = [] then
            closeIn n ((m.orphan w).forget w) p
          else (m.orphan w).forget w) := by
  have out : m.Gone ((m.orphan w).forget w) := gone_orphan
  rcases (m.win w).parent with _ | p
  · exact out
  · dsimp only
    split_ifs
    · exact out.trans (each _ p)
    · exact out

theorem gone_closeIn (n : Nat) (m : Manager) (w : Nat) : m.Gone (closeIn n m w) := by
  apply closeIn_rule
  · exact fun _ => gone_rfl
  · exact fun _ _ _ => Gone.trans
  · exact fun _ _ => gone_hangup
  · exact fun _ _ _ => gone_endreads
  · exact fun _ _ => gone_orphan
  · exact fun _ _ => gone_refocus

theorem endreads_gone : ((m.endreads w).win w).gone := by
  rw [endreads, win_reply, win_alter_self]

theorem close_gone (other : w ≠ root) : ((m.close w).win w).gone := by
  by_cases gone : (m.win w).gone
  · exact gone_closeIn _ m w w gone
  · rw [close, closeIn, if_neg (not_or.2 ⟨other, gone⟩)]
    apply Gone.trans (gone_left (gone_closeIn _)) gone_refocus w
    exact endreads_gone

theorem unchanged_alter_iff {f : Window → Window} (input : (f (m.win w)).input = (m.win w).input)
    (events : (f (m.win w)).events = (m.win w).events) :
    m.Unchanged (m.alter w f) ↔ (f (m.win w)).still = (m.win w).still := by
  constructor
  · intro unchanged
    have same := congrFun (congrArg Manager.win unchanged.still) w
    have self := congrArg Window.still (win_alter_self m w f)
    exact self.symm.trans same
  · intro still
    exact unchanged_alter still (by rw [input]) (by rw [events])

theorem closings_of_gone {cs : List Nat} (done : ∀ c ∈ cs, c = root ∨ (m.win c).gone) :
    cs.foldl close m = m := by
  induction cs with
  | nil => rfl
  | cons c cs ih =>
      have first : m.close c = m := closeIn_of_gone (done c mem_cons_self)
      rw [foldl_cons, first]
      exact ih fun c member => done c (mem_cons_of_mem _ member)

theorem gone_of_closings {cs : List Nat} {c : Nat} (member : c ∈ cs) (other : c ≠ root) :
    ((cs.foldl close m).win c).gone := by
  induction cs generalizing m with
  | nil => cases member
  | cons d cs ih =>
      rcases mem_cons.1 member with rfl | below
      · have closings : ∀ (cs : List Nat) (m : Manager), m.Gone (cs.foldl close m) := by
          intro cs
          induction cs with
          | nil => exact fun _ => gone_rfl
          | cons d cs ih => exact fun m => (gone_closeIn _ m d).trans (ih _)
        exact closings cs _ c (close_gone other)
      · exact ih below

theorem layout_unchanged : m.Unchanged (m.layout "") ↔
    m.layoutText = "" ∧ (∀ c ∈ (m.win root).children, c = root ∨ (m.win c).gone) ∧
      m.focus = m.firstleaf root := by
  have laid : m.layout "" =
      let m' := (m.win root).children.foldl close { m with layoutText := "" }
      { m' with focus := m'.firstleaf root } := rfl
  rw [laid]
  dsimp only
  constructor
  · intro unchanged
    have children (c : Nat) (member : c ∈ (m.win root).children) : c = root ∨ (m.win c).gone := by
      by_cases top : c = root
      · exact .inl top
      · have gone := gone_of_closings (m := { m with layoutText := "" }) member top
        have same := congrArg Window.gone (congrFun (congrArg win unchanged.still) c)
        exact .inr (same.symm.trans gone)
    have still := unchanged.still
    rw [closings_of_gone (m := { m with layoutText := "" }) children] at still
    have text : m.layoutText = "" := (congrArg layoutText still).symm
    have first : firstleaf { m with layoutText := "" } root = m.firstleaf root := by
      rw [← text]
    exact ⟨text, children, ((congrArg focus still).symm.trans first :)⟩
  · rintro ⟨text, children, focused⟩
    rw [closings_of_gone (m := { m with layoutText := "" }) children]
    refine ⟨?_, fun _ => suffix_rfl, fun _ => suffix_rfl⟩
    have same : { m with
        layoutText := ""
        focus := firstleaf { m with layoutText := "" } root } = m := by
      have first : firstleaf { m with layoutText := "" } root = m.firstleaf root := by
        rw [← text]
      rw [first, ← focused, ← text]
    rw [same]

theorem still_replaced {w : Window} : (replaced w "").still = w.still ↔
    w.body = "" ∧ w.selection = none := by
  constructor
  · intro still
    have selection : none = w.selection := (congrArg Window.selection still :)
    have body : (replaced w "").body = w.body := (congrArg Window.body still :)
    rw [replaced, ← selection] at body
    exact ⟨body.symm, selection.symm⟩
  · rintro ⟨body, selection⟩
    have kept : replaced w "" = w := by
      rw [replaced, selection]
      cases w
      cases body
      cases selection
      rfl
    rw [kept]

theorem still_filled {w : Window} (b : String) :
    ({ w with body := b, saved := some b } : Window).still = w.still ↔
      w.body = b ∧ w.saved = some b := by
  constructor
  · intro still
    exact ⟨(congrArg Window.body still).symm, (congrArg Window.saved still).symm⟩
  · rintro ⟨body, saved⟩
    rw [← saved, ← body]

theorem clunked_unchanged {f : Fid} (taken : f.Taken) :
    m.Unchanged (m.clunked f) ↔ m.Spared f := by
  have nothing : Utf8.decode [] = "" := rfl
  rw [clunked, Spared]
  rcases gathered : f.held.buf with _ | b
  · rcases f.node.kind <;> exact iff_of_true unchanged_rfl trivial
  rcases kind : f.node.kind with _ | _ | _ | _ | _ | _ | _ | _ | _ | _ | ⟨w, name⟩
  case layout =>
    cases taken b gathered (.inl kind)
    exact layout_unchanged
  case file =>
    dsimp only
    by_cases there : w ∈ m.windows
    · rw [if_neg (not_not.2 there), if_neg (not_not.2 there)]
      by_cases body : name = "body"
      · rw [if_pos body, if_pos body]
        exact (unchanged_alter_iff rfl rfl).trans (still_filled _)
      · rw [if_neg body, if_neg body]
        by_cases replace : name = "replace"
        · subst replace
          cases taken b gathered (.inr ⟨w, kind⟩)
          rw [if_pos rfl, if_pos rfl, nothing]
          exact (unchanged_alter_iff rfl rfl).trans still_replaced
        · rw [if_neg replace, if_neg replace]
          exact iff_of_true unchanged_rfl trivial
    · rw [if_pos there, if_pos there]
      exact iff_of_true unchanged_rfl trivial
  all_goals exact iff_of_true unchanged_rfl trivial

end Manager

theorem Taken.erase (taken : Taken s) (fid : UInt32) : Taken (s.erase fid) := by
  intro fid' f there
  by_cases same : fid' = fid
  · subst same
    cases (update_self (f := s.fids) ..).symm.trans there
  · exact taken fid' f ((update_of_ne same ..).symm.trans there)

theorem t_clunk (ty : m.ty = T.clunk.code) : t manager m = tclunk manager m.body := by
  simp only [t, ty]
  rfl

theorem after_clunk (ty : m.ty = T.clunk.code) (taken : Taken s) : Taken (after s m) ∧
    (s.page.Unchanged (after s m).page ↔ Harmless s m) := by
  have ends : Ends (tclunk manager m.body) s
      (fun _ s' => Taken s' ∧ (s.page.Unchanged s'.page ↔ Harmless s m))
      fun _ s' => Taken s' ∧ (s.page.Unchanged s'.page ↔ Harmless s m) := by
    apply Ends.bind
    rw [parse]
    rcases read : R.u32.on m.body with ⟨_ | fid, rest⟩
    · refine ends_throw ⟨taken, iff_of_true Manager.unchanged_rfl ?_⟩
      intro _ fid f named
      rw [read] at named
      cases named
    apply ends_pure
    apply Ends.get
    apply Ends.modify
    rcases there : s.fids fid with _ | f
    · refine ends_pure ⟨taken.erase fid, iff_of_true Manager.unchanged_rfl ?_⟩
      intro _ fid' f named found
      rw [read] at named
      cases named
      rw [there] at found
      cases found
    · apply Ends.modify
      refine ends_pure ⟨taken.erase fid, ?_⟩
      refine (Manager.clunked_unchanged (taken fid f there)).trans ⟨?_, ?_⟩
      · intro spared _ fid' f' named found
        rw [read] at named
        cases named
        rw [there] at found
        cases found
        exact spared
      · intro harmless
        exact harmless ty fid f (congrArg Prod.fst read) there
  rw [Ends] at ends
  rw [after, t_clunk ty]
  rcases run : (tclunk manager m.body).exec s with ⟨e | a, s'⟩ <;> rw [run] at ends
  · exact ends
  · exact ends

theorem taken_of_reachable (reached : reading.Reachable s) : Taken s := by
  apply reached.invariant Taken
  · intro s first fid f there b gathered
    rw [first fid f there] at gathered
    cases gathered
  · rintro s a s' taken _ step
    cases a with
    | msg m =>
        rcases step with ⟨reads, rfl⟩
        by_cases ty : m.ty = T.clunk.code
        · exact (after_clunk ty taken).1
        · exact (after_quiet reads ty).taken taken
    | person page =>
        cases step
        exact taken

/-- Of messages that only read, each leaves the windows as they are just when it is not the clunk of
a fid that puts back what is no longer there. -/
theorem reads_unchanged (s : Emca Manager) (m : Msg) (reached : reading.Reachable s)
    (reads : Reads s m) : s.page.Unchanged (after s m).page ↔ Harmless s m := by
  by_cases ty : m.ty = T.clunk.code
  · exact (after_clunk ty (taken_of_reachable reached)).2
  · apply iff_of_true (after_quiet reads ty).unchanged
    exact fun clunk => absurd clunk ty

def lettered : Emca Manager where
  page :=
    ((Manager.boot 0 8192).make { Window.new with body := "a", saved := some "a" }).adoptLast root 2
  msize := 8192
  fids := update (fun _ => none) 1 (some (.bound ⟨.file 2 "body", []⟩))

theorem fids_lettered {fid : UInt32} {f : Fid} (there : lettered.fids fid = some f) :
    f = .bound ⟨.file 2 "body", []⟩ := by
  have update : lettered.fids =
      update (fun _ => none) 1 (some (.bound ⟨.file 2 "body", []⟩)) := rfl
  rw [update] at there
  by_cases own : fid = 1
  · rw [own, update_self] at there
    exact (Option.some.inj there).symm
  · rw [update_of_ne own] at there
    cases there

def openOne : Msg := ⟨T.open.code, 0, [1, 0, 0, 0, 0]⟩

def clunkOne : Msg := ⟨T.clunk.code, 0, [1, 0, 0, 0]⟩

theorem reads_open : Reads lettered openOne := by
  refine ⟨by decide, fun _ fid mode args => ?_⟩
  have args : some ((1 : UInt32), (0 : UInt8)) = some (fid, mode) := args
  cases args
  refine ⟨rfl, rfl, fun f there => ?_⟩
  rw [fids_lettered there]
  exact nofun

theorem reads_clunk (s : Emca Manager) : Reads s clunkOne :=
  ⟨by decide, fun ty => absurd ty (by decide)⟩

theorem reach_opened : reading.Reachable (after lettered openOne) := by
  have first : reading.init lettered := by
    intro fid f there
    rw [fids_lettered there]
    rfl
  exact .step (.init first) trivial (a := .msg openOne) ⟨reads_open, rfl⟩

/-- Opened, and clunked with nothing done between. -/
theorem reads_unchanged_letter :
    (after lettered openOne).page.Unchanged (after (after lettered openOne) clunkOne).page := by
  apply (reads_unchanged _ _ reach_opened (reads_clunk _)).2
  intro _ fid f named there
  have named : some (1 : UInt32) = some fid := named
  cases named
  have found : (after lettered openOne).fids 1 =
      some ⟨⟨.file 2 "body", []⟩, some 0, ⟨some [97], none, 0⟩⟩ := by
    rfl
  cases found.symm.trans there
  exact ⟨by decide, by decide +kernel⟩

/-- The person types a letter while a fid only read is open: its clunk takes the letter back. -/
theorem reads_unchanged_fails : ¬∀ s m, reading.Reachable s → Reads s m →
    s.page.Unchanged (after s m).page := by
  intro all
  let typed : Emca Manager :=
    { after lettered openOne with
      page := (after lettered openOne).page.alter 2 ({ · with body := "ab" }) }
  have reached : reading.Reachable typed :=
    .step reach_opened trivial (a := .person typed.page) rfl
  have unchanged := all typed clunkOne reached (reads_clunk typed)
  have same := congrArg Window.body (congrFun (congrArg Manager.win unchanged.still) 2)
  revert same
  decide

end Ipnx.Host.Emca
