import Ipnx.Ninep.Dir

/-!
# What an entry's decoder reads

`conv_m2d` wants as many bytes as the entry's size says, and then reads the fields from all the
bytes it was given. An entry whose own counts run past its size is completed by whatever comes
after it, so that the same entry is refused or read by what its neighbour holds. A buffer that
`statcheck` has passed is never read so.
-/

namespace Ipnx.Ninep

open List

namespace Dir

/-- The bytes that an entry's size says are its own. -/
def entry (b : Bytes) : Bytes := b.take (2 + countAt b 0)

/-- Whether the fields end within the entry, by the strings' counts. -/
def Fit (b : Bytes) : Prop :=
  ∃ n, skips (entry b) 4 (statfixlen - 4 * 2) = some n ∧ n ≤ (entry b).length

/-- The result depends on the entry alone, and an entry that its fields do not fit in is refused. -/
def Own (b : Bytes) : Prop :=
  (∀ b', b'.take (2 + countAt b 0) = entry b → convM2D b' = convM2D b) ∧
    (¬Fit b → convM2D b = none)

end Dir

/-- Bytes that UTF-8 of `n` bytes begins with. -/
def Begins (n : Nat) (p : Bytes) : Prop := ∃ q v, (p ++ q).length = n ∧ fromUtf8 (p ++ q) = some v

/-- A counted string is there whose bytes, or those of them that are, no UTF-8 begins with. -/
def Garbled (buf : Bytes) : Nat → Nat → Prop
  | 0, _ => False
  | k + 1, at_ =>
      at_ + 2 ≤ buf.length ∧
        (¬Begins (countAt buf at_) ((buf.drop (at_ + 2)).take (countAt buf at_)) ∨
          Garbled buf k (at_ + 2 + countAt buf at_))

theorem countAt_longer {buf : Bytes} {at_ : Nat} (there : at_ + 2 ≤ buf.length) (rest : Bytes) :
    countAt (buf ++ rest) at_ = countAt buf at_ := by
  have enough : 2 ≤ (buf.drop at_).length := by
    rw [length_drop]
    omega
  rw [countAt, countAt, drop_append_of_le_length (by omega),
    take_append_of_le_length enough]

theorem skips_longer {buf : Bytes} {k at_ n : Nat} (ends : skips buf k at_ = some n)
    (rest : Bytes) : skips (buf ++ rest) k at_ = some n := by
  induction k generalizing at_ with
  | zero => exact ends
  | succ k ih =>
      rw [skips] at ends
      split_ifs at ends with short
      have longer : ¬(buf ++ rest).length < at_ + 2 := by
        rw [length_append]
        omega
      rw [skips, if_neg longer, countAt_longer (by omega)]
      exact ih ends

theorem not_garbled_strs {ss : List String} (short : ∀ v ∈ ss, (utf8 v).length < 2 ^ 16)
    {buf pre rest post : Bytes} (whole : buf ++ rest = pre ++ (strs ss ++ post)) :
    ¬Garbled buf ss.length pre.length := by
  induction ss generalizing pre with
  | nil => exact id
  | cons v ss ih =>
      rintro ⟨there, bad⟩
      have fits := short v (mem_cons_self ..)
      have count : (UInt16.ofNat (utf8 v).length).toNat = (utf8 v).length :=
        UInt16.toNat_ofNat_of_lt' fits
      rw [strs_cons, count, append_assoc, append_assoc] at whole
      have size : countAt buf pre.length = (utf8 v).length := by
        rw [← countAt_longer there rest, whole]
        exact countAt_append fits
      have next : (pre ++ (leBytes 2 (utf8 v).length ++ utf8 v)).length =
          pre.length + 2 + (utf8 v).length := by
        simp only [length_append, leBytes_length]
        omega
      have behind : buf ++ rest =
          pre ++ (leBytes 2 (utf8 v).length ++ utf8 v) ++ (strs ss ++ post) := by
        rw [whole, append_assoc, append_assoc]
      have others := ih (fun v' member => short v' (mem_cons_of_mem _ member)) behind
      rw [next] at others
      rw [size] at bad
      refine bad.elim (fun hopeless => hopeless ?_) others
      have bytes : (buf.drop (pre.length + 2) ++ rest).take (utf8 v).length = utf8 v := by
        rw [← drop_append_of_le_length there, whole]
        have front : pre.length + 2 = (pre ++ leBytes 2 (utf8 v).length).length := by
          rw [length_append, leBytes_length]
        rw [front, ← append_assoc, ← append_assoc, append_assoc _ (utf8 v),
          drop_left, take_left]
      rw [take_append] at bytes
      exact ⟨_, v, congrArg List.length bytes, by rw [bytes, fromUtf8_utf8]⟩

theorem exists_utf8_length (n : Nat) : ∃ v, (utf8 v).length = n := by
  induction n with
  | zero => exact ⟨"", rfl⟩
  | succ n ih =>
      rcases ih with ⟨v, length⟩
      refine ⟨v ++ "a", ?_⟩
      have bytes : utf8 (v ++ "a") = utf8 v ++ utf8 "a" := by
        simp [utf8, String.toByteArray_append, ByteArray.data_append]
      rw [bytes, length_append, length]
      rfl

theorem prefix_strs {p : Bytes} {v : String} (fits : (utf8 v).length < 2 ^ 16) (ss : List String)
    (starts : p <+: leBytes 2 (utf8 v).length) : p <+: strs (v :: ss) := by
  rw [strs_cons, UInt16.toNat_ofNat_of_lt' fits, append_assoc]
  exact starts.trans (prefix_append ..)

/-- Strings that are cut, and not garbled, can be completed. -/
theorem strs_of_cut {buf : Bytes} {k at_ : Nat} (clean : ¬Garbled buf k at_)
    (cut : ∀ n, skips buf k at_ = some n → buf.length < n) :
    ∃ ss : List String, ss.length = k ∧ (∀ v ∈ ss, (utf8 v).length < 2 ^ 16) ∧
      buf.drop at_ <+: strs ss := by
  induction k generalizing at_ with
  | zero =>
      have past := cut at_ rfl
      refine ⟨[], rfl, by simp, ?_⟩
      rw [drop_of_length_le past.le]
      exact nil_prefix
  | succ k ih =>
      by_cases there : at_ + 2 ≤ buf.length
      · have first : Begins (countAt buf at_) ((buf.drop (at_ + 2)).take (countAt buf at_)) :=
          not_not.1 fun bad => clean ⟨there, .inl bad⟩
        have others : ¬Garbled buf k (at_ + 2 + countAt buf at_) :=
          fun bad => clean ⟨there, .inr bad⟩
        have short : ¬buf.length < at_ + 2 := by omega
        simp only [skips, if_neg short] at cut
        rcases ih others cut with ⟨ss, length, shorts, starts⟩
        rcases first with ⟨q, v, size, read⟩
        have same := utf8_fromUtf8 read
        have fits : (utf8 v).length < 2 ^ 16 := by
          rw [same, size]
          exact countAt_lt there
        refine ⟨v :: ss, by rw [length_cons, length], ?_, ?_⟩
        · intro v' member
          rcases mem_cons.1 member with rfl | member
          · exact fits
          · exact shorts v' member
        · rw [drop_counted, strs_cons, same, size, leBytes_countAt there, append_assoc,
            append_assoc, prefix_append_right_inj, prefix_append_right_inj]
          rcases q with _ | ⟨x, q⟩
          · exact starts
          · rw [length_append, length_take, length_cons] at size
            rw [← drop_drop, drop_of_length_le (by omega)]
            exact nil_prefix
      · have size : (buf.drop at_).length < 2 := by
          rw [length_drop]
          omega
        have blank : ∀ v ∈ List.replicate k "", (utf8 v).length < 2 ^ 16 := by
          intro v member
          rw [eq_of_mem_replicate member]
          decide
        rcases left : buf.drop at_ with _ | ⟨x, _ | ⟨y, others⟩⟩
        · exact ⟨List.replicate (k + 1) "", length_replicate,
            forall_mem_cons.2 ⟨by decide, blank⟩, nil_prefix⟩
        · rcases exists_utf8_length x.toNat with ⟨v, length⟩
          have fits : (utf8 v).length < 2 ^ 16 := by
            have bound := x.toNat_lt
            omega
          refine ⟨v :: List.replicate k "", by rw [length_cons, length_replicate],
            forall_mem_cons.2 ⟨fits, blank⟩, prefix_strs fits _ ?_⟩
          rw [length, leBytes, UInt8.ofNat_toNat]
          exact ⟨_, rfl⟩
        · rw [left, length_cons, length_cons] at size
          omega

variable {b : Bytes} {d : Dir}

theorem on_fields {r : Bytes} : (Dir.fields.on r).1 = some d ↔ d.Short ∧ d.body <+: r := by
  rw [← Wire.dir_fits, ← Wire.dir_write, ← Wire.dir_read]
  constructor
  · intro read
    rcases decoded : Wire.dir.read.on r with ⟨v, rest⟩
    rw [decoded] at read
    rcases Wire.dir.write_read (decoded.trans (congrArg (·, rest) read)) with ⟨fits, whole⟩
    exact ⟨fits, rest, whole.symm⟩
  · rintro ⟨fits, rest, rfl⟩
    rw [Wire.dir.read_write fits]

theorem on_size (long : 2 ≤ b.length) :
    R.u16.on b = (some (UInt16.ofNat (countAt b 0)), b.drop 2) := by
  have read := (Reader.reads_take (b.take 2)).bind (k := fun n => pure (UInt16.ofNat (ofLe n)))
    (Reader.reads_pure _) (b.drop 2)
  rw [append_nil, take_append_drop, length_take, min_eq_left long] at read
  exact read

theorem convM2D_eq_some : Dir.convM2D b = some d ↔
    2 + countAt b 0 ≤ b.length ∧ 2 ≤ b.length ∧ d.Short ∧ d.body <+: b.drop 2 := by
  by_cases long : 2 ≤ b.length
  · have size : (UInt16.ofNat (countAt b 0)).toNat = countAt b 0 :=
      UInt16.toNat_ofNat_of_lt' (countAt_lt (by rwa [Nat.zero_add]))
    simp only [Dir.convM2D, on_size long, size]
    split_ifs with short
    · have cut : ¬2 + countAt b 0 ≤ b.length := by omega
      simp [cut]
    · have whole : 2 + countAt b 0 ≤ b.length := by omega
      rw [on_fields]
      simp [long, whole]
  · have none : R.u16.on b = (none, b) := by
      simp only [R.u16, Codec.u16, Codec.le, Reader.on_bind, Reader.on_take, if_pos (not_le.1 long)]
    simp [Dir.convM2D, none, long]

theorem entry_length (whole : 2 + countAt b 0 ≤ b.length) :
    (Dir.entry b).length = 2 + countAt b 0 := by
  rw [Dir.entry, length_take, min_eq_left whole]

theorem body_eq (long : 2 ≤ b.length) (short : d.Short) : ∃ fixed : Bytes,
    (b.take 2 ++ fixed).length = statfixlen - 4 * 2 ∧
      d.body = fixed ++ strs [d.name, d.uid, d.gid, d.muid] ∧
      ∀ v ∈ [d.name, d.uid, d.gid, d.muid], (utf8 v).length < 2 ^ 16 := by
  rcases convD2M_eq d with ⟨fixed, length, body, _⟩
  refine ⟨fixed, ?_, body, by simpa [Dir.Short] using short⟩
  rw [length_append, length_take, min_eq_left long, length]
  rfl

theorem skips_of_body (long : 2 ≤ b.length) (short : d.Short) (starts : d.body <+: b.drop 2) :
    skips b 4 (statfixlen - 4 * 2) = some (2 + d.body.length) := by
  rcases body_eq long short with ⟨fixed, front, body, shorts⟩
  rcases starts with ⟨rest, whole⟩
  have walk := skips_longer (skips_strs shorts (b.take 2 ++ fixed)) rest
  have bytes : b.take 2 ++ fixed ++ strs [d.name, d.uid, d.gid, d.muid] ++ rest = b := by
    rw [append_assoc (b.take 2), ← body, append_assoc, whole, take_append_drop]
  rw [front, bytes] at walk
  rw [show 2 + d.body.length =
    (b.take 2 ++ fixed ++ strs [d.name, d.uid, d.gid, d.muid]).length by
      rw [append_assoc, ← body, length_append, length_take, min_eq_left long]]
  exact walk

theorem not_garbled_of_body {rest : Bytes} (long : 2 ≤ b.length) (short : d.Short)
    (starts : d.body <+: (b ++ rest).drop 2) : ¬Garbled b 4 (statfixlen - 4 * 2) := by
  rcases body_eq long short with ⟨fixed, front, body, shorts⟩
  rcases starts with ⟨post, whole⟩
  have bytes : b ++ rest = b.take 2 ++ fixed ++ (strs [d.name, d.uid, d.gid, d.muid] ++ post) := by
    rw [append_assoc, ← append_assoc fixed, ← body, whole,
      drop_append_of_le_length long, ← append_assoc, take_append_drop]
  have clean := not_garbled_strs shorts bytes
  rwa [front] at clean

theorem exists_body (clean : ¬Garbled b 4 (statfixlen - 4 * 2))
    (cut : ∀ n, skips b 4 (statfixlen - 4 * 2) = some n → b.length < n) :
    ∃ d : Dir, d.Short ∧ b.drop 2 <+: d.body := by
  rcases strs_of_cut clean cut with ⟨ss, length, shorts, starts⟩
  rcases ss with _ | ⟨name, _ | ⟨uid, _ | ⟨gid, _ | ⟨muid, _ | ⟨_, _⟩⟩⟩⟩⟩ <;> simp at length
  let padded := b.drop 2 ++ List.replicate 39 0
  rcases Wire.fixed_total padded (by simp [padded]) with ⟨v, _, whole⟩
  let d : Dir := ⟨v.1, v.2.1, v.2.2.1, v.2.2.2.1, v.2.2.2.2.1, v.2.2.2.2.2.1, v.2.2.2.2.2.2,
    name, uid, gid, muid⟩
  have body : d.body = Wire.fixed.write v ++ strs [name, uid, gid, muid] := by
    rw [← Wire.dir_write, ← four_write d]
    rfl
  have fixed : Wire.fixed.write v <+: padded := ⟨_, whole.symm⟩
  have most : (Wire.fixed.write v).length = 39 := Wire.fixed_length v
  refine ⟨d, by simpa [Dir.Short, d] using shorts, ?_⟩
  rw [body]
  rcases le_total (b.drop 2).length 39 with few | enough
  · have inside : b.drop 2 <+: Wire.fixed.write v :=
      prefix_of_prefix_length_le (prefix_append ..) fixed (by rw [most]; exact few)
    exact inside.trans (prefix_append ..)
  · have inside : Wire.fixed.write v <+: b.drop 2 :=
      prefix_of_prefix_length_le fixed (prefix_append ..) (by rw [most]; exact enough)
    rcases inside with ⟨rest, split⟩
    have last : rest = b.drop (statfixlen - 4 * 2) := by
      calc rest = (b.drop 2).drop 39 := by rw [← split, ← most, drop_left]
        _ = b.drop (statfixlen - 4 * 2) := drop_drop ..
    rw [← split, prefix_append_right_inj, last]
    exact starts

namespace Dir

section Whole

variable (whole : 2 + countAt b 0 ≤ b.length)

include whole

theorem countAt_entry (rest : Bytes) : countAt (entry b ++ rest) 0 = countAt b 0 := by
  have length := entry_length whole
  calc countAt (entry b ++ rest) 0 = countAt (entry b) 0 := countAt_longer (by omega) rest
    _ = countAt (entry b ++ b.drop (2 + countAt b 0)) 0 := (countAt_longer (by omega) _).symm
    _ = countAt b 0 := by rw [entry, take_append_drop]

theorem convM2D_entry (rest : Bytes) :
    convM2D (entry b ++ rest) = some d ↔ d.Short ∧ d.body <+: (entry b ++ rest).drop 2 := by
  have length := entry_length whole
  rw [convM2D_eq_some, countAt_entry whole, length_append, length]
  constructor
  · rintro ⟨_, _, read⟩
    exact read
  · intro read
    exact ⟨by omega, by omega, read⟩

theorem convM2D_of_fit (fit : Fit b) (rest : Bytes) :
    convM2D (entry b ++ rest) = some d ↔ d.Short ∧ d.body <+: (entry b).drop 2 := by
  have length := entry_length whole
  have long : 2 ≤ (entry b).length := by omega
  rw [convM2D_entry whole, drop_append_of_le_length long, and_congr_right_iff]
  intro short
  constructor
  · intro starts
    rcases fit with ⟨n, walk, most⟩
    have ends : skips (entry b ++ rest) 4 (statfixlen - 4 * 2) = some (2 + d.body.length) := by
      apply skips_of_body _ short
      · rwa [drop_append_of_le_length long]
      · rw [length_append]
        omega
    rw [skips_longer walk rest, Option.some.injEq] at ends
    apply prefix_of_prefix_length_le starts (prefix_append ..)
    rw [length_drop]
    omega
  · exact fun starts => starts.trans (prefix_append ..)

theorem convM2D_of_garbled (garbled : Garbled (entry b) 4 (statfixlen - 4 * 2)) (rest : Bytes) :
    convM2D (entry b ++ rest) = none := by
  have length := entry_length whole
  rcases read : convM2D (entry b ++ rest) with _ | d
  · rfl
  · rcases (convM2D_entry whole rest).1 read with ⟨short, starts⟩
    exact absurd garbled (not_garbled_of_body (by omega) short starts)

end Whole

/-- The result is that of the entry alone exactly when the entry is not all there, or its fields
end within it, or a string of it is not UTF-8 whatever would complete it. -/
theorem own_iff (b : Bytes) : Own b ↔
    b.length < 2 + countAt b 0 ∨ Fit b ∨ Garbled (entry b) 4 (statfixlen - 4 * 2) := by
  have split : entry b ++ b.drop (2 + countAt b 0) = b := take_append_drop ..
  constructor
  · rintro ⟨same, refused⟩
    by_contra neither
    simp only [not_or, not_lt] at neither
    rcases neither with ⟨whole, unfit, clean⟩
    have length := entry_length whole
    have long : 2 ≤ (entry b).length := by omega
    rcases exists_body clean (fun n walk => not_le.1 fun most => unfit ⟨n, walk, most⟩) with
      ⟨d, short, q, body⟩
    have read : convM2D (entry b ++ q) = some d := by
      rw [convM2D_entry whole, drop_append_of_le_length long, body]
      exact ⟨short, prefix_rfl⟩
    rw [same _ (take_left' length), refused unfit] at read
    cases read
  · intro cases
    by_cases whole : 2 + countAt b 0 ≤ b.length
    · have length := entry_length whole
      rcases cases.resolve_left (not_lt.2 whole) with fit | garbled
      · refine ⟨?_, fun unfit => absurd fit unfit⟩
        intro b' head
        rw [← take_append_drop (2 + countAt b 0) b', head]
        apply Option.ext
        intro d
        have alone := convM2D_of_fit (d := d) whole fit (b.drop (2 + countAt b 0))
        rw [split] at alone
        rw [convM2D_of_fit whole fit, alone]
      · have none : convM2D b = none := by
          rw [← split]
          exact convM2D_of_garbled whole garbled _
        refine ⟨?_, fun _ => none⟩
        intro b' head
        rw [none, ← take_append_drop (2 + countAt b 0) b', head]
        exact convM2D_of_garbled whole garbled _
    · have none : convM2D b = none := by
        rcases read : convM2D b with _ | d
        · rfl
        · exact absurd (convM2D_eq_some.1 read).1 whole
      refine ⟨?_, fun _ => none⟩
      intro b' head
      have short : entry b = b := take_of_length_le (by omega)
      have size := congrArg List.length head
      rw [short, length_take] at size
      rw [take_of_length_le (by omega), short] at head
      rw [head]

theorem own_of_statcheck (checked : statcheck b = true) : Own b := by
  rw [statcheck] at checked
  split_ifs at checked with long
  rcases walk : skips b 4 (statfixlen - 4 * 2) with _ | at_
  · rw [walk] at checked
    cases checked
  rw [walk, beq_iff_eq] at checked
  have all : entry b = b := take_of_length_le (by omega)
  refine (own_iff b).2 (.inr (.inl ⟨at_, ?_, ?_⟩))
  · rwa [all]
  · rw [all, checked]

/-- An entry that says it has no bytes of its own is read out of those that follow. -/
theorem not_own : ¬Own (List.replicate 49 0) := by
  rintro ⟨same, _⟩
  have alone := same [0, 0] (by decide)
  exact absurd alone (by decide)

end Dir

end Ipnx.Ninep
