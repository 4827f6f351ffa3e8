import Ipnx.Dev.Env

/-!
# What the environment device keeps

`devenv.rs` over any operations of any processes: a name has its qid path for good, no value grows
too long, and a group is changed by the processes that have it.
-/

namespace Ipnx.Dev.Env

open List

def Sys.run (s : Sys) (ops : List (Up × Op)) : Sys := ops.foldl (fun s o => s.act o.1 o.2) s

def Egrp.Small (g : Egrp) : Prop := ∀ name v, g.find name = some v → v.length ≤ maxenvsize

/-- No value is longer than a write may make it. -/
def EnvDev.Small (d : EnvDev) : Prop := Egrp.Small d.confegrp ∧ ∀ g, Egrp.Small (d.egrps g)

/-- What an operation of a process keeps: names only come, no name comes twice, no value grows too
long, and other groups than its own are as they were. -/
structure Grows (up : Up) (d d' : EnvDev) : Prop where
  names : d.names <+: d'.names
  nodup : d.names.Nodup → d'.names.Nodup
  small : d.Small → d'.Small
  apart : ∀ g, up.egrp ≠ some g → d'.egrps g = d.egrps g

def Named (d : EnvDev) (c : Chan) : Prop :=
  c.isDir = false → ∃ i, i < d.names.length ∧ c.qid.path = UInt64.ofNat (i + 1)

variable {d d' d'' : EnvDev} {up : Up} {c c' : Chan}

namespace Grows

theorem refl (up : Up) (d : EnvDev) : Grows up d d := ⟨prefix_rfl, id, id, fun _ _ => rfl⟩

theorem trans (first : Grows up d d') (second : Grows up d' d'') : Grows up d d'' where
  names := first.names.trans second.names
  nodup distinct := second.nodup (first.nodup distinct)
  small short := second.small (first.small short)
  apart g other := (second.apart g other).trans (first.apart g other)

theorem named (grows : Grows up d d') (same : c'.qid = c.qid) (named : Named d c) :
    Named d' c' := by
  intro file
  rw [Name.Chan.isDir, same] at file
  rcases named file with ⟨i, inside, path⟩
  exact ⟨i, Nat.lt_of_lt_of_le inside grows.names.length_le, by rw [same, path]⟩

end Grows

theorem Egrp.Small.insert {g : Egrp} (small : g.Small) (name : String) {v : Bytes}
    (short : v.length ≤ maxenvsize) : Egrp.Small (g.insert name v) := by
  intro other v' found
  by_cases same : other = name
  · rw [same, g.find_insert] at found
    cases found
    exact short
  · rw [g.find_insert_of_ne same] at found
    exact small other v' found

theorem Egrp.Small.erase {g : Egrp} (small : g.Small) (name : String) :
    Egrp.Small (g.erase name) := by
  intro other v' found
  by_cases same : other = name
  · rw [same, g.find_erase] at found
    cases found
  · rw [g.find_erase_of_ne same] at found
    exact small other v' found

theorem EnvDev.Small.egrp (small : d.Small) (up : Up) (c : Chan) : Egrp.Small (d.egrp up c) := by
  rw [EnvDev.egrp]
  split_ifs
  · exact small.1
  · rcases up.egrp with _ | g
    · intro name v found
      cases found
    · exact small.2 g

theorem grows_qid (up : Up) (d : EnvDev) (name : String) : Grows up d (d.qid name).2 := by
  rw [EnvDev.qid]
  rcases found : d.names.findIdx? (· == name) with _ | i
  · have new : name ∉ d.names := by
      intro member
      have missed := List.findIdx?_eq_none_iff.1 found name member
      rw [beq_self_eq_true] at missed
      cases missed
    refine ⟨prefix_append .., fun distinct => ?_, id, fun _ _ => rfl⟩
    exact distinct.append (nodup_singleton name) (by simpa using new)
  · exact .refl up d

theorem named_qid (d : EnvDev) (name : String) : ∃ i, i < (d.qid name).2.names.length ∧
    (d.qid name).1 = UInt64.ofNat (i + 1) := by
  rw [EnvDev.qid]
  rcases found : d.names.findIdx? (· == name) with _ | i
  · exact ⟨d.names.length, by simp, rfl⟩
  · exact ⟨i, (List.findIdx?_eq_some_iff_findIdx_eq.1 found).1, rfl⟩

theorem grows_setEgrp (c : Chan) {g : Egrp} (small : d.Small → g.Small) :
    Grows up d (d.setEgrp up c g) := by
  rw [EnvDev.setEgrp]
  split_ifs
  · exact ⟨prefix_rfl, id, fun short => ⟨small short, short.2⟩, fun _ _ => rfl⟩
  · rcases own : up.egrp with _ | i
    · exact .refl up d
    · refine ⟨prefix_rfl, id, fun short => ⟨short.1, fun j => ?_⟩, fun j other => ?_⟩
      · by_cases same : j = i
        · rw [same]
          dsimp only
          rw [Function.update_self]
          exact small short
        · dsimp only
          rw [Function.update_of_ne same]
          exact short.2 j
      · apply Function.update_of_ne
        rintro rfl
        exact other own

theorem grows_dirs (named : List (String × Nat)) (d : EnvDev) (c : Chan) :
    Grows up d (d.dirs c named).2 := by
  induction named generalizing d with
  | nil => exact .refl up d
  | cons e named ih => exact (grows_qid up d e.1).trans (ih (d.qid e.1).2)

theorem grows_access (mode : UInt16) : Grows up d (d.access up c mode).2 := by
  rw [EnvDev.access]
  by_cases dir : c.isDir = true
  · rw [if_pos dir]
    exact .refl up d
  rw [if_neg dir]
  rcases d.name c.qid.path with _ | name
  · exact .refl up d
  dsimp only
  rcases (d.egrp up c).find name with _ | v
  · exact .refl up d
  dsimp only
  split_ifs
  · exact grows_setEgrp c fun small => (small.egrp up c).insert name (Nat.zero_le _)
  · exact .refl up d

theorem of_error {α : Type} {e : String} {P : α → Prop} :
    ∀ a, (.error e : Except String α) = .ok a → P a := by
  rintro _ ⟨⟩

theorem grows_envwalk (name : String) : Grows up d (d.envwalk up c name).2 ∧
    ∀ c', (d.envwalk up c name).1 = .ok (some c') → Named (d.envwalk up c name).2 c' := by
  rw [EnvDev.envwalk]
  split_ifs
  · exact ⟨.refl up d, fun _ => False.elim⟩
  · refine ⟨.refl up d, ?_⟩
    rintro _ ⟨⟩ file
    have root : (⟨Name.qtdir, 0, 0⟩ : Name.Qid).isDir ≠ false := by decide
    exact absurd file root
  · refine ⟨.refl up d, ?_⟩
    rintro _ ⟨⟩
  · refine ⟨grows_qid up d name, ?_⟩
    rintro _ ⟨⟩ _
    exact named_qid d name

theorem grows_envopen (mode : UInt16) : Grows up d (d.envopen up c mode).2 ∧
    ∀ c', (d.envopen up c mode).1 = .ok c' → c'.qid = c.qid := by
  have grows : Grows up d (d.access up c mode).2 := grows_access mode
  rw [EnvDev.envopen]
  split_ifs
  · exact ⟨.refl up d, fun _ => False.elim⟩
  rcases reached : d.access up c mode with ⟨e | _, d'⟩ <;> rw [reached] at grows
  · exact ⟨grows, of_error⟩
  dsimp only
  rcases openmode mode with e | m
  · exact ⟨grows, of_error⟩
  · refine ⟨grows, ?_⟩
    rintro _ ⟨⟩
    rfl

theorem grows_envcreate (name : String) (mode : UInt16) :
    Grows up d (d.envcreate up c name mode).2 ∧
      ∀ c', (d.envcreate up c name mode).1 = .ok c' → Named (d.envcreate up c name mode).2 c' := by
  have small : d.Small → Egrp.Small ((d.egrp up c).insert name []) := fun small =>
    (small.egrp up c).insert name (Nat.zero_le _)
  rw [EnvDev.envcreate]
  split_ifs
  · exact ⟨.refl up d, fun _ => False.elim⟩
  · exact ⟨.refl up d, fun _ => False.elim⟩
  · rcases openmode mode with e | m
    · exact ⟨.refl up d, of_error⟩
    · exact ⟨.refl up d, of_error⟩
  · rcases openmode mode with e | m
    · exact ⟨.refl up d, of_error⟩
    · refine ⟨(grows_setEgrp c small).trans (grows_qid up _ name), ?_⟩
      rintro _ ⟨⟩ _
      exact named_qid _ name

theorem grows_envread (n : Nat) (off : UInt64) : Grows up d (d.envread up c n off).2 ∧
    ∀ b, (d.envread up c n off).1 = .ok b → b.2.qid = c.qid := by
  rw [EnvDev.envread]
  split_ifs
  · refine ⟨grows_dirs _ d c, ?_⟩
    rintro _ ⟨⟩
    rfl
  · rcases (d.name c.qid.path).bind (d.egrp up c).find with _ | v
    · exact ⟨.refl up d, of_error⟩
    · refine ⟨.refl up d, ?_⟩
      rintro _ ⟨⟩
      rfl

theorem grows_envwrite (data : Bytes) (off : UInt64) :
    Grows up d (d.envwrite up c data off).2 := by
  rw [EnvDev.envwrite]
  split_ifs with dir large
  · exact .refl up d
  · exact .refl up d
  rcases d.name c.qid.path with _ | name
  · exact .refl up d
  dsimp only
  rcases found : (d.egrp up c).find name with _ | v
  · exact .refl up d
  refine grows_setEgrp c fun small => (small.egrp up c).insert name ?_
  have short := small.egrp up c name v found
  rw [EnvDev.written, overwrite]
  simp only [length_append, length_take, length_drop, length_replicate]
  omega

theorem grows_envremove : Grows up d (d.envremove up c).2 := by
  rcases envremove_cases d up c with ⟨-, same⟩ | ⟨name, v, -, -, erased⟩
  · rw [same]
    exact .refl up d
  · rw [erased]
    exact grows_setEgrp c fun small => (small.egrp up c).erase name

/-- What holds of the device and of the channels in hand. -/
structure Held (s : Sys) : Prop where
  nodup : s.dev.names.Nodup
  small : s.dev.Small
  named : ∀ c ∈ s.chans, Named s.dev c

theorem grows_on {s : Sys} {i : Nat} (named : ∀ c ∈ s.chans, Named s.dev c)
    (there : s.chans[i]? = some c) (call : Call) :
    Grows up s.dev (s.on up i c call).dev ∧
      ∀ c' ∈ (s.on up i c call).chans, Named (s.on up i c call).dev c' := by
  have own := named c (mem_of_getElem? there)
  have put {d' : EnvDev} {new : Option Chan} (grows : Grows up s.dev d')
      (fresh : ∀ c' ∈ new, Named d' c') : Grows up s.dev (s.put d' new).dev ∧
        ∀ c' ∈ (s.put d' new).chans, Named d' c' := by
    refine ⟨grows, ?_⟩
    intro c' member
    rcases mem_append.1 member with old | new_
    · exact grows.named rfl (named c' old)
    · exact fresh c' (Option.mem_toList.1 new_)
  cases call with
  | envwalk name =>
      rcases grows_envwalk (d := s.dev) (c := c) name with ⟨grows, walked⟩
      exact put grows fun c' new => walked c' (ok_of_mem (Option.join_eq_some_iff.1 new))
  | envopen mode =>
      rcases grows_envopen (d := s.dev) (c := c) mode with ⟨grows, same⟩
      exact put grows fun c' new => grows.named (same c' (ok_of_mem new)) own
  | envcreate name mode =>
      rcases grows_envcreate (d := s.dev) (c := c) name mode with ⟨grows, made⟩
      exact put grows fun c' new => made c' (ok_of_mem new)
  | envread n off =>
      rcases grows_envread (d := s.dev) (c := c) n off with ⟨grows, same⟩
      rw [Sys.on]
      rcases reads : (s.dev.envread up c n off).1 with e | b
      · exact ⟨grows, fun c' member => grows.named rfl (named c' member)⟩
      · refine ⟨grows, ?_⟩
        intro c' member
        rcases mem_or_eq_of_mem_set member with old | rfl
        · exact grows.named rfl (named c' old)
        · exact grows.named (same b reads) own
  | envwrite data off =>
      rw [Sys.on]
      split_ifs
      · have grows : Grows up s.dev (s.dev.envwrite up c data off).2 := grows_envwrite data off
        exact ⟨grows, fun c' member => grows.named rfl (named c' member)⟩
      · exact ⟨.refl up s.dev, named⟩
  | envstat => exact ⟨.refl up s.dev, named⟩
  | envwstat => exact ⟨.refl up s.dev, named⟩
  | envremove =>
      have grows : Grows up s.dev (s.dev.envremove up c).2 := grows_envremove
      exact ⟨grows, fun c' member => grows.named rfl (named c' member)⟩
  | envclose =>
      exact ⟨.refl up s.dev, fun c' member => named c' (mem_of_mem_eraseIdx member)⟩

theorem Held.act {s : Sys} (held : Held s) (up : Up) (op : Op) :
    Held (s.act up op) ∧ Grows up s.dev (s.act up op).dev := by
  have moved : Grows up s.dev (s.act up op).dev ∧
      ∀ c ∈ (s.act up op).chans, Named (s.act up op).dev c := by
    cases op with
    | envattach spec =>
        refine ⟨.refl up s.dev, ?_⟩
        intro c member
        rcases mem_append.1 member with old | new
        · exact held.named c old
        · have attached := ok_of_mem (Option.mem_toList.1 new)
          intro file
          have root : (⟨Name.qtdir, 0, 0⟩ : Name.Qid).isDir ≠ false := by decide
          rw [EnvDev.envattach] at attached
          split_ifs at attached <;> cases attached
          · exact absurd file root
          · exact absurd file root
    | on i call =>
        rw [Sys.act]
        rcases there : s.chans[i]? with _ | c
        · exact ⟨.refl up s.dev, held.named⟩
        · exact grows_on held.named there call
  exact ⟨⟨moved.1.nodup held.nodup, moved.1.small held.small, moved.2⟩, moved.1⟩

theorem Held.run {s : Sys} (held : Held s) (ops : List (Up × Op)) :
    Held (s.run ops) ∧ s.dev.names <+: (s.run ops).dev.names ∧
      ∀ g, (∀ o ∈ ops, o.1.egrp ≠ some g) → (s.run ops).dev.egrps g = s.dev.egrps g := by
  induction ops generalizing s with
  | nil => exact ⟨held, prefix_rfl, fun _ _ => rfl⟩
  | cons o ops ih =>
      rcases held.act o.1 o.2 with ⟨next, grows⟩
      rcases ih next with ⟨held', names, apart⟩
      refine ⟨held', grows.names.trans names, ?_⟩
      intro g others
      rw [← grows.apart g (others o (mem_cons_self ..))]
      exact apart g fun o' member => others o' (mem_cons_of_mem o member)

/-- With a qid path for each name there is, a name's path is the only one that names it. -/
theorem name_iff {i : Nat} (distinct : d.names.Nodup) (room : d.names.length + 1 < 2 ^ 64)
    (inside : i < d.names.length) (path : UInt64) :
    d.name path = some d.names[i] ↔ path = UInt64.ofNat (i + 1) := by
  have number : (UInt64.ofNat (i + 1)).toNat = i + 1 := UInt64.toNat_ofNat_of_lt' (by
    rw [UInt64.size]
    omega)
  rw [EnvDev.name]
  constructor
  · intro named
    split_ifs at named with zero
    rcases List.getElem?_eq_some_iff.1 named with ⟨inside', same⟩
    have index := distinct.getElem_inj_iff.1 same
    have positive : path.toNat ≠ 0 := fun none_ => zero (UInt64.toNat_inj.1 none_)
    apply UInt64.toNat_inj.1
    omega
  · rintro rfl
    have some_ : UInt64.ofNat (i + 1) ≠ 0 := by
      intro zero
      rw [zero] at number
      cases number
    rw [if_neg some_, number, Nat.add_sub_cancel, List.getElem?_eq_getElem inside]

/-- In every run, as long as there are qid paths for the names: no value is longer than a write may
make it; the file of a channel in hand has a name, it has that name ever after, and no other qid
path comes to have it; and no process changes another group than its own. -/
theorem variables_kept {d : EnvDev} (unnamed : d.names = []) (small : d.Small)
    (ops later : List (Up × Op))
    (room : ((Sys.run ⟨d, []⟩ ops).run later).dev.names.length + 1 < 2 ^ 64) :
    ((Sys.run ⟨d, []⟩ ops).run later).dev.Small ∧
      (∀ c ∈ (Sys.run ⟨d, []⟩ ops).chans, c.isDir = false →
        ∃ name, (Sys.run ⟨d, []⟩ ops).dev.name c.qid.path = some name ∧ ∀ path,
          ((Sys.run ⟨d, []⟩ ops).run later).dev.name path = some name ↔ path = c.qid.path) ∧
      ∀ g, (∀ o ∈ later, o.1.egrp ≠ some g) →
        ((Sys.run ⟨d, []⟩ ops).run later).dev.egrps g = (Sys.run ⟨d, []⟩ ops).dev.egrps g := by
  have start : Held ⟨d, []⟩ := by
    refine ⟨?_, small, fun c member => absurd member not_mem_nil⟩
    rw [unnamed]
    exact nodup_nil
  rcases start.run ops with ⟨held, -, -⟩
  rcases held.run later with ⟨held', names, apart⟩
  refine ⟨held'.small, ?_, apart⟩
  intro c member file
  rcases held.named c member file with ⟨i, inside, path⟩
  have longer := names.length_le
  have kept := names.getElem inside
  refine ⟨_, (name_iff held.nodup (by omega) inside c.qid.path).2 path, ?_⟩
  rw [kept, path]
  exact name_iff held'.nodup room (Nat.lt_of_lt_of_le inside longer)

/-- A variable made and written, and another made by a process of another group. -/
theorem variables_kept_two :
    let ops := [((⟨"kitty", some 1⟩ : Up), Op.envattach ""),
      (⟨"kitty", some 1⟩, .on 0 (.envcreate "path" owrite)),
      (⟨"kitty", some 1⟩, .on 1 (.envwrite [47] 0))]
    let later := [((⟨"glenda", some 2⟩ : Up), Op.on 0 (.envcreate "user" owrite))]
    ((Sys.run ⟨fresh, []⟩ ops).run later).dev.egrps 1 = (Sys.run ⟨fresh, []⟩ ops).dev.egrps 1 := by
  intro ops later
  have small : fresh.Small := by
    constructor
    · intro name v found
      cases found
    · intro g name v found
      cases found
  exact (variables_kept rfl small ops later (by decide)).2.2 1 (by decide)

end Ipnx.Dev.Env
