import Ipnx.Mnt.Tags

/-!
# Tags agree

In every run in which no RPC fails or is left while its server may still answer it by a tag
that is off the queue, and none leaves a reply put aside, a reply that `rpc` returns answers
its own request.
-/

namespace Ipnx.Mnt

open List

variable {κ : Type} [DecidableEq κ]

namespace Mounts

variable {w w' : Mounts κ} {p q : Pid} {k k' : κ} {r r' : Rpc κ} {t : Tag} {i j : Nat} {m : Msg}
  {out : Outcome}

/-- Nothing of the RPC is to be answered any more. -/
def Ended (w : Mounts κ) (k : κ) (r : Rpc κ) : Prop := ∀ i ∈ r.places, ¬w.Pending k i

/-- What has to hold of a step, besides: the server keeps to the protocol, an RPC that fails
has nothing on the wire that may be answered and no reply put aside, and one whose process
dies has no reply put aside, nor anything to be answered that it has not queued. -/
def Sound (w : Mounts κ) : MntAct κ → Prop
  | .rpc p _ _ => ∀ r, w.recs p = some r → r.finished = false → w.Ended r.on r
  | .send p k (.err put _) =>
    ∀ r, w.recs p = some r → (r.put = none → put = false) ∧ w.Ended k r
  | .sendflush p k (.err put _) =>
    ∀ r, w.recs p = some r → (r.flush.puts.length < r.flush.tags.length → put = false) ∧
      w.Ended k r ∧ ∀ t ∈ r.tags, (w.muxes k).done t = none
  | .mountio p k (.err _) =>
    ∀ r, w.recs p = some r → (w.muxes k).done r.newest = none →
      (∀ q, (w.muxes k).rip = some q → q = p) →
        w.Ended k r ∧ ∀ t ∈ r.flush.tags, (w.muxes k).done t = none
  | .endcall p => ∀ r, w.recs p = some r → r.finished = false → w.Ended r.on r
  | .forget p _ => ∀ r, w.recs p = some r → r.finished = false →
    (r.sent = false → w.Ended r.on r) ∧ ∀ t ∈ r.tags, (w.muxes r.on).done t = none
  | .reply k m => Answerable (w.sent k) (w.told k) m
  | _ => True

omit [DecidableEq κ] in
theorem Ghost.tag_of_place (ghost : w.Ghost) (live : w.Live p k r) (place : m.re ∈ r.places)
    (member : m ∈ w.told k) : m.tag ∈ r.tags := by
  rcases (ghost.serves k).req_of_mem member with ⟨req, found, tag⟩
  rcases (ghost.tracked p k r live).req place with ⟨req', found', mine⟩
  obtain rfl := Option.some.inj (found.symm.trans found')
  rwa [← tag]

omit [DecidableEq κ] in
theorem Ghost.re_of_tag {req : Req} (ghost : w.Ghost) (core : w.Core) (live : w.Live p k r)
    (place : i ∈ r.places) (found : (w.sent k)[i]? = some req) (member : m ∈ w.told k)
    (owner : ∃ q r', w.Live q k r' ∧ m.re ∈ r'.places) (tag : m.tag = req.tag) : m.re = i := by
  rcases owner with ⟨q, r', live', place'⟩
  rcases (ghost.serves k).req_of_mem member with ⟨req', found', tag'⟩
  rcases (ghost.tracked p k r live).req place with ⟨req'', found'', mine⟩
  obtain rfl := Option.some.inj (found.symm.trans found'')
  have isTag : req'.tag ∈ r.tags := by rwa [tag', tag]
  rcases core.eq_of_tag ghost live live' place' found' isTag with ⟨rfl, rfl⟩
  exact (ghost.tracked q k r' live).eq_of_tag ((core.mine q).nodup k r' live) place' place found'
    found (tag'.trans tag)

omit [DecidableEq κ] in
theorem Tracked.newest (tracked : w.Tracked p k r) (lined : r.lined = true)
    (flushing : r.flush.tags ≠ []) : ∃ j, r.flush.puts.getLast? = some j ∧
      (w.sent k)[j]? = some ⟨r.newest, some r.tag⟩ := by
  have count := tracked.lined lined
  have some_put : r.flush.puts ≠ [] := by
    rintro none
    rw [none, length_nil] at count
    exact flushing (length_eq_zero_iff.mp count.symm)
  refine ⟨r.flush.puts.getLast some_put, List.getLast?_eq_some_getLast some_put, ?_⟩
  have last : r.flush.puts[r.flush.puts.length - 1]? = some (r.flush.puts.getLast some_put) := by
    rw [← List.getLast?_eq_getElem?, List.getLast?_eq_some_getLast some_put]
  rcases tracked.flushes _ _ last with ⟨f, tag, found⟩
  rw [count, ← List.getLast?_eq_getElem?] at tag
  have newest : r.newest = f := by simp [Rpc.newest, tag]
  rw [newest]
  exact found

omit [DecidableEq κ] in
theorem Ghost.settled_of_newest (ghost : w.Ghost) (core : w.Core) (live : w.Live p k r)
    (lined : r.lined = true) (flushing : r.flush.tags ≠ [])
    (member : m ∈ (w.told k).take (w.nread k)) (tag : m.tag = r.newest)
    (owner : ∃ q r', w.Live q k r' ∧ m.re ∈ r'.places) : w.Ended k r := by
  rcases (ghost.tracked p k r live).newest lined flushing with ⟨j, last, found⟩
  have place : j ∈ r.places := mem_places.mpr (.inr (mem_of_getLast? last))
  have same := ghost.re_of_tag core live place found (mem_of_mem_take member) owner tag
  exact ghost.settled live j last ⟨m, member, same⟩

omit [DecidableEq κ] in
theorem Ended.of_read (unflushed : r.flush.puts = []) (own : ∀ i, r.put = some i → w.Read k i) :
    w.Ended k r := by
  rintro i place ⟨-, unread, -⟩
  rcases mem_places.mp place with put | flush
  · exact unread (own i put)
  · simp [unflushed] at flush

omit [DecidableEq κ] in
theorem Tracked.no_puts (tracked : w.Tracked p k r) (noflush : r.flush.tags = []) :
    r.flush.puts = [] := by
  by_contra some_put
  rcases exists_cons_of_ne_nil some_put with ⟨j, rest, whole⟩
  rcases tracked.flushes 0 j (by simp [whole]) with ⟨f, tag, -⟩
  simp [noflush] at tag

theorem ghost_rpc {version : Bool} (inv : w.Inv) (ghost : w.Ghost)
    (unsent : ∀ r, w.recs p = some r → r.sent = false)
    (ended : ∀ r, w.recs p = some r → r.finished = false → w.Ended r.on r)
    (made : w.rpc p k version = some w') : w'.Ghost := by
  have apart (k : κ) (t : Tag) (m : Msg) (put : (w.muxes k).done t = some m) :
      ∀ r, w.Live p k r → m.re ∉ r.places := by
    intro r live place
    have notSent := unsent r live.1
    rcases ghost.parked k t m put with ⟨rfl, member, -⟩
    have tag := ghost.tag_of_place live place (mem_of_mem_take member)
    have noflush := (inv.core.mine p).unflushed r live.1 notSent
    obtain same : m.tag = r.tag := by simpa [Rpc.tags, noflush] using tag
    have undone := ((inv.core.mine p).unsent k r live notSent).1
    rw [← same, put] at undone
    cases undone
  have settled (k : κ) (r : Rpc κ) (i : Nat) (live : w.Live p k r) (place : i ∈ r.places) :
      ¬w.Pending k i := by
    have ends := ended r live.1 live.2.2 i place
    rwa [live.2.1] at ends
  simp only [rpc] at made
  cases found : w.recs p with
  | some r =>
      simp only [found, Option.some.injEq] at made
      subst made
      have notSent := unsent r found
      exact ghost.begun (r := { r with put := none, on := k, finished := false })
          ⟨rfl, rfl, rfl, rfl⟩
        ⟨by simp, rfl, rfl⟩ (fun q other => setRec_other _ _ _ other) rfl notSent
        (ghost.plain p r found notSent) (fun _ => rfl)
            (fun k t m put => ⟨put, apart k t m put⟩) settled
  | none =>
      cases version with
      | true =>
          simp only [found, if_true, Option.some.injEq] at made
          subst made
          exact ghost.begun (k := k) (r := .new k notag) ⟨rfl, rfl, rfl, rfl⟩ ⟨by simp, rfl, rfl⟩
            (fun q other => setRec_other _ _ _ other) rfl rfl rfl (fun _ => rfl)
            (fun k t m put => ⟨put, apart k t m put⟩) settled
      | false =>
          simp only [found, Bool.false_eq_true, if_false, newtag, Option.map_eq_some_iff,
            Prod.exists, Prod.mk.injEq] at made
          rcases made with ⟨_, _, ⟨t, next, rfl, rfl⟩, rfl⟩
          have mux (k' : κ) :
              (((w.onMux k ({ · with tag := t })).setRec p (some (.new k t))).muxes k').queue =
                (w.muxes k').queue ∧
              (((w.onMux k ({ · with tag := t })).setRec p (some (.new k t))).muxes k').done =
                (w.muxes k').done := by
            rcases eq_or_ne k' k with rfl | away
            · simp
            · simp [onMux_other _ _ _ away]
          refine ghost.begun (k := k) (r := .new k t) ⟨rfl, rfl, rfl, rfl⟩ ⟨by simp, rfl, rfl⟩
            (fun q other => setRec_other _ _ _ other) rfl rfl rfl (fun k' => (mux k').1)
            (fun k' s m put => ?_) settled
          rw [(mux k').2] at put
          exact ⟨put, apart k' s m put⟩

theorem mem_push {mux : Mux} {s : Tag} {o : Option Pid} (member : (s, o) ∈ mux.queue) :
    (s, o) ∈ (mux.push t p).queue := mem_append_left _ member

omit [DecidableEq κ] in
/-- Nothing that may be answered has a tag of the RPC's but its own requests. -/
theorem Ghost.apart_of_places (ghost : w.Ghost) (core : w.Core) (live : w.Live p k r)
    (tag : t ∈ r.tags)
    (own : ∀ i req, i ∈ r.places → (w.sent k)[i]? = some req → req.tag ≠ t) :
    ∀ i req, w.Pending k i → (w.sent k)[i]? = some req → req.tag ≠ t := by
  rintro i req pending found rfl
  rcases ghost.pending k i pending with ⟨q, r', live', place⟩ | ⟨req', found', lost⟩
  · rcases core.eq_of_tag ghost live live' place found tag with ⟨rfl, rfl⟩
    exact own i req place found rfl
  · obtain rfl := Option.some.inj (found.symm.trans found')
    exact core.lost k req.tag lost p r live tag

theorem Ghost.put (core : w.Core) (ghost : w.Ghost) (live : w.Live p k r) (unsent : r.sent = false)
    (bare : r.put = none) :
    ((w.write k ⟨r.tag, none⟩).setRec p (some { r with put := some (w.sent k).length })).Ghost := by
  have plain := ghost.plain p r live.1 unsent
  refine ghost.goes live { r with put := some (w.sent k).length } ⟨by simp, live.2⟩
    (fun q other => setRec_other _ _ _ other)
    (.inr ⟨⟨r.tag, none⟩, by simp, fun k' away => write_other _ _ away, by simp [Rpc.places], ?_⟩)
    rfl rfl rfl (fun _ _ _ _ => id) (fun _ _ _ => id) ?_ (fun _ => plain)
    (.of_plain plain (by simp) ?_ (by simp [unsent]))
  · refine ghost.apart_of_places core live (tag_mem_tags r) fun i req place => ?_
    simp [mem_places, bare, plain] at place
  · intro i place
    simp [mem_places, bare, plain] at place
  · rintro i ⟨⟩
    simp

theorem Ghost.sent (ghost : w.Ghost) (live : w.Live p k r) (unsent : r.sent = false)
    (put : r.put = some i) :
    ((w.onMux k (·.push r.tag p)).setRec p (some { r with sent := true })).Ghost := by
  have plain := ghost.plain p r live.1 unsent
  have tracked := ghost.tracked p k r live
  refine ghost.goes live { r with sent := true } ⟨by simp, live.2⟩
    (fun q other => setRec_other _ _ _ other) (.inl rfl) rfl rfl rfl ?_ ?_ (fun _ => id) (by simp)
    (.of_plain plain (fun _ => ⟨i, put⟩) tracked.own ?_)
  · intro k' s o _ member
    rcases eq_or_ne k' k with rfl | away
    · simpa using mem_push member
    · simpa [onMux_other _ _ _ away] using member
  · intro k' s m put
    rcases eq_or_ne k' k with rfl | away
    · simpa [Mux.push] using put
    · simpa [onMux_other _ _ _ away] using put
  · simp [Mux.push]

omit [DecidableEq κ] in
theorem Ghost.fails (ghost : w.Ghost) (live : w.Live p k r) (quiet : Quiet w w')
    (recs : ∀ q, q ≠ p → w'.recs q = w.recs q) (idle : ∀ k r, ¬w'.Live p k r)
    (plain : ∀ r, w'.recs p = some r → r.sent = false → r.flush = ⟨[], false, none, []⟩)
    (queue : ∀ k t o, o ≠ some p → (t, o) ∈ (w.muxes k).queue → (t, o) ∈ (w'.muxes k).queue)
    (done : ∀ k t m, (w'.muxes k).done t = some m → (w.muxes k).done t = some m)
    (undone : ∀ t ∈ r.tags, (w'.muxes k).done t = none)
    (left : ∀ i ∈ r.places, w.Pending k i → w'.Orphan k i) : w'.Ghost := by
  refine ghost.retire quiet recs (fun k r live => absurd live (idle k r)) queue
    (fun k' t m put => ⟨done k' t m put, ?_⟩) ?_ plain
  · intro r' live' place
    rcases live.unique live' with ⟨rfl, rfl⟩
    rcases ghost.parked k t m (done k t m put) with ⟨rfl, member, -⟩
    have tag := ghost.tag_of_place live place (mem_of_mem_take member)
    rw [undone m.tag tag] at put
    cases put
  · intro k' r' i live' place
    rcases live.unique live' with ⟨rfl, rfl⟩
    exact left i place

omit [DecidableEq κ] in
theorem Ended.left (ended : w.Ended k r) : ∀ i ∈ r.places, w.Pending k i → w'.Orphan k i :=
  fun i place pending => absurd pending (ended i place)

theorem ghost_send {io : Io} (inv : w.Inv) (ghost : w.Ghost) (returns : w.Returns p k)
    (sound : w.Sound (.send p k io)) (sends : w.send p k io = some (w', out)) : w'.Ghost := by
  rcases send_live returns sends with ⟨r, live, unsent⟩
  have found := live.1
  simp only [send, found] at sends
  rw [if_neg (by simp [unsent])] at sends
  have plain := ghost.plain p r found unsent
  have tags : r.tags = [r.tag] := by simp [Rpc.tags, plain]
  cases io with
  | ok =>
      simp only [Io.put, Bool.true_and] at sends
      obtain rfl := congrArg Prod.fst (Option.some.inj sends)
      cases bare : r.put with
      | none =>
          have gone := ghost.put inv.core live unsent bare
          have live' : ((w.write k ⟨r.tag, none⟩).setRec p
              (some { r with put := some (w.sent k).length })).Live p k
                { r with put := some (w.sent k).length } := ⟨by simp, live.2⟩
          refine (gone.sent live' unsent rfl).same ⟨rfl, rfl, rfl, rfl⟩ ?_ (fun _ => rfl)
            fun _ => rfl
          simp [setRec, Function.update_idem, write]
      | some n => exact ghost.sent live unsent bare
  | slept put =>
      obtain rfl := congrArg Prod.fst (Option.some.inj sends)
      generalize goes : ((Io.slept put).put && r.put.isNone) = now
      cases now with
      | true =>
          simp only [Bool.and_eq_true, Option.isNone_iff_eq_none] at goes
          exact (ghost.put inv.core live unsent goes.2).same ⟨rfl, rfl, rfl, rfl⟩ rfl (fun _ => rfl)
            fun _ => rfl
      | false =>
          have same : (w.setRec p (some r)).recs = w.recs := by
            simp only [setRec, ← found, Function.update_eq_self]
          exact ghost.same ⟨rfl, rfl, rfl, rfl⟩ same (fun _ => rfl) fun _ => rfl
  | err put e =>
      obtain rfl := congrArg Prod.fst (Option.some.inj sends)
      rcases sound r found with ⟨unput, ended⟩
      have stays : ((Io.err put e).put && r.put.isNone) = false := by
        cases bare : r.put with
        | none => simp [Io.put, unput bare]
        | some n => simp
      simp only [stays, Bool.false_eq_true, if_false]
      refine ghost.fails live ⟨rfl, rfl, rfl, rfl⟩ (fun q other => setRec_other _ _ _ other)
        (idle_of_over (setRec_self _ _ _) rfl) ?_ (fun _ _ _ _ => id) (fun _ _ _ => id) ?_
            ended.left
      · intro r' found'
        rw [setRec_self] at found'
        obtain rfl := Option.some.inj found'
        exact fun _ => plain
      · intro t tag
        obtain rfl : t = r.tag := by simpa [tags] using tag
        exact ((inv.core.mine p).unsent k r live unsent).1

omit [DecidableEq κ] in
theorem Tracked.count (tracked : w.Tracked p k r) :
    r.flush.puts.length ≤ r.flush.tags.length := by
  by_contra more
  have bound : r.flush.tags.length < r.flush.puts.length := by omega
  rcases tracked.flushes _ _ (List.getElem?_eq_getElem bound) with ⟨f, tag, -⟩
  have inside := (List.getElem?_eq_some_iff.mp tag).1
  omega

theorem Ghost.putflush {f : Tag} (core : w.Core) (ghost : w.Ghost) (live : w.Live p k r)
    (sent : r.sent = true) (last : r.flush.tags.getLast? = some f)
    (unput : r.flush.puts.length < r.flush.tags.length) (now : Bool) :
    ((w.write k ⟨f, some r.tag⟩).setRec p (some { r with flush :=
      { r.flush with puts := r.flush.puts ++ [(w.sent k).length], sent := now } })).Ghost := by
  have tracked := ghost.tracked p k r live
  have near := tracked.near
  have newest : r.newest = f := by simp [Rpc.newest, last]
  have at_last : r.flush.tags[r.flush.puts.length]? = some f := by
    rw [List.getLast?_eq_getElem?] at last
    rwa [show r.flush.puts.length = r.flush.tags.length - 1 by omega]
  have unput : ∀ i req, i ∈ r.places → (w.sent k)[i]? = some req → req.tag ≠ f := by
    rintro i req place found rfl
    rcases nodup_cons.mp ((core.mine p).nodup k r live) with ⟨apart, nodup⟩
    rcases mem_places.mp place with own | flush
    · obtain rfl := Option.some.inj (found.symm.trans (tracked.own _ own))
      exact apart (mem_of_getLast? last)
    · rcases mem_iff_getElem?.mp flush with ⟨n, at_n⟩
      rcases tracked.flushes n _ at_n with ⟨f', tag', found'⟩
      obtain rfl := Option.some.inj (found.symm.trans found')
      have inside := (List.getElem?_eq_some_iff.mp at_n).1
      have bound := (List.getElem?_eq_some_iff.mp tag').1
      have same := (List.getElem?_inj bound nodup).mp (tag'.trans at_last.symm)
      omega
  have queued : (f, some p) ∈ (w.muxes k).queue := by
    rcases (core.mine p).awaited k r live sent with member | parked
    · rwa [newest] at member
    · rw [newest] at parked
      rcases Option.ne_none_iff_exists'.mp parked with ⟨m, put⟩
      rcases ghost.parked k f m put with ⟨tag, member, q, r', live', place⟩
      have isTag : m.tag ∈ r.tags := by
        rw [tag]
        exact mem_cons_of_mem _ (mem_of_getLast? last)
      rcases (ghost.serves k).req_of_mem (mem_of_mem_take member) with ⟨req, found, reqTag⟩
      rcases core.eq_of_tag ghost live live' place found (reqTag ▸ isTag) with ⟨rfl, rfl⟩
      exact absurd (reqTag.trans tag) (unput m.re req place found)
  refine ghost.goes live { r with flush :=
      { r.flush with puts := r.flush.puts ++ [(w.sent k).length], sent := now } }
    ⟨by simp, live.2⟩ (fun q other => setRec_other _ _ _ other)
    (.inr ⟨⟨f, some r.tag⟩, by simp, fun k' away => write_other _ _ away, by simp [Rpc.places],
      ghost.apart_of_places core live (mem_cons_of_mem _ (mem_of_getLast? last)) unput⟩)
    rfl rfl rfl (fun _ _ _ _ => id) (fun _ _ _ => id) ?_ ?_ ?_
  · intro i place
    rcases mem_places.mp place with own | flush
    · exact mem_places.mpr (.inl own)
    · exact mem_places.mpr (.inr (mem_append_left _ flush))
  · simp [sent]
  · have old (i : Nat) (req : Req) (found : (w.sent k)[i]? = some req) :
        (w.sent k ++ [⟨f, some r.tag⟩])[i]? = some req := by
      rw [List.getElem?_append_left (List.getElem?_eq_some_iff.mp found).1]
      exact found
    have place (n j : Nat) (at_n : (r.flush.puts ++ [(w.sent k).length])[n]? = some j) :
        r.flush.puts[n]? = some j ∨ n = r.flush.puts.length ∧ j = (w.sent k).length := by
      rcases Nat.lt_or_ge n r.flush.puts.length with inside | outside
      · rw [List.getElem?_append_left inside] at at_n
        exact .inl at_n
      · have bound := (List.getElem?_eq_some_iff.mp at_n).1
        rw [length_append, length_singleton] at bound
        obtain rfl : n = r.flush.puts.length := by omega
        right
        simpa using at_n.symm
    refine ⟨tracked.gone, ?_, ?_, ?_, ?_, ?_, ?_, ?_, ?_, ?_⟩
    · intro i own
      simpa using old i _ (tracked.own i own)
    · intro n j at_n
      rcases place n j at_n with before | ⟨rfl, rfl⟩
      · rcases tracked.flushes n j before with ⟨f', tag, found⟩
        exact ⟨f', tag, by simpa using old j _ found⟩
      · exact ⟨f, at_last, by simp⟩
    · simp only [length_append, length_singleton]
      omega
    · intro _
      simp only [length_append, length_singleton]
      omega
    · intro i own j member
      rcases mem_append.mp member with before | isLast
      · exact tracked.after i own j before
      · obtain rfl : j = (w.sent k).length := by simpa using isLast
        exact (List.getElem?_eq_some_iff.mp (tracked.own i own)).1
    · refine pairwise_append.mpr ⟨tracked.sorted, by simp, ?_⟩
      intro i member j isLast
      obtain rfl : j = (w.sent k).length := by simpa using isLast
      rcases mem_iff_getElem?.mp member with ⟨n, at_n⟩
      rcases tracked.flushes n i at_n with ⟨f', -, found⟩
      exact (List.getElem?_eq_some_iff.mp found).1
    · exact tracked.waitsOwn
    · intro n j f' at_n tag unread
      rcases place n j at_n with before | ⟨rfl, rfl⟩
      · exact tracked.waitsFlush n j f' before tag unread
      · obtain rfl := Option.some.inj (tag.symm.trans at_last)
        exact queued
    · exact tracked.got

omit [DecidableEq κ] in
theorem Ghost.marked (ghost : w.Ghost) (live : w.Live p k r) (now : Bool)
    (sent : r.sent = true) (put : now = true → r.flush.puts.length = r.flush.tags.length)
    (flushing : r.flush.tags ≠ []) :
    (w.setRec p (some { r with flush := { r.flush with sent := now } })).Ghost := by
  have tracked := ghost.tracked p k r live
  refine ghost.goes live { r with flush := { r.flush with sent := now } } ⟨by simp, live.2⟩
    (fun q other => setRec_other _ _ _ other) (.inl rfl) rfl rfl rfl (fun _ _ _ _ => id)
    (fun _ _ _ => id) (fun _ => id) ?_ ?_
  · simp [sent]
  · refine ⟨tracked.gone, tracked.own, tracked.flushes, tracked.near, ?_, tracked.after,
      tracked.sorted, tracked.waitsOwn, tracked.waitsFlush, tracked.got⟩
    intro lined
    apply put
    simpa [Rpc.lined, sent, flushing] using lined

theorem dropped_done (r' : Rpc κ) (e : String) (k' : κ) :
    ((w.dropped p k r' e).1.muxes k').done = (w.muxes k').done := by
  simp only [dropped, setRec_muxes]
  rcases eq_or_ne k' k with rfl | away
  · split
    · simp
    · simp
  · split
    · simp [gate_other _ away, onMux_other _ _ _ away]
    · simp [onMux_other _ _ _ away]

theorem dropped_recs (other : p ≠ q) (e : String) : (w.dropped q k r e).1.recs p = w.recs p := by
  simp only [dropped]
  rw [setRec_other _ _ _ other]
  split <;> simp

theorem ghost_dropped (core : w.Core) (ghost : w.Ghost) (live : w.Live p k r)
    (tags : r'.tags = r.tags) (sent : r'.sent = true) (ended : w.Ended k r)
    (undone : ∀ t ∈ r.tags, (w.muxes k).done t = none) (e : String) :
    (w.dropped p k r' e).1.Ghost := by
  have mux : ∀ k' t o, o ≠ some p → (t, o) ∈ (w.muxes k').queue →
      (t, o) ∈ ((w.dropped p k r' e).1.muxes k').queue := by
    intro k' t o other member
    rcases eq_or_ne k' k with rfl | away
    · have apart : t ∉ r'.tags := by
        rw [tags]
        exact core.entries_others live t o other member
      have kept := mem_off.mpr ⟨member, apart⟩
      simp only [dropped, setRec_muxes]
      split
      · simpa using kept
      · simpa using kept
    · simp only [dropped, setRec_muxes]
      split
      · simpa [gate_other _ away, onMux_other _ _ _ away] using member
      · simpa [onMux_other _ _ _ away] using member
  have recs : (w.dropped p k r' e).1.recs p = some { r' with finished := true } := by
    simp [dropped]
  refine ghost.fails live ?_ (fun q other => dropped_recs other e) (idle_of_over recs rfl) ?_
      mux ?_ ?_
    ended.left
  · simp only [dropped]
    split
    · exact ⟨gate_sent _ _, gate_told _ _, gate_nread _ _, gate_hungup _ _⟩
    · exact ⟨rfl, rfl, rfl, rfl⟩
  · intro r'' found
    obtain rfl := Option.some.inj (recs.symm.trans found)
    simp [sent]
  · intro k' t m put
    rwa [dropped_done] at put
  · intro t tag
    rw [dropped_done]
    exact undone t tag

theorem ghost_sendflush {io : Io} (inv : w.Inv) (ghost : w.Ghost) (returns : w.Returns p k)
    (sound : w.Sound (.sendflush p k io)) (sends : w.sendflush p k io = some (w', out)) :
    w'.Ghost := by
  rcases sendflush_live returns sends with ⟨r, f, live, newest, flushing, sent, flushUnsent⟩
  have found := live.1
  simp only [sendflush, found, newest] at sends
  rw [if_neg (by simp [sent, flushUnsent])] at sends
  have count := (ghost.tracked p k r live).count
  cases io with
  | ok =>
      simp only [Io.put, Bool.true_and, decide_eq_true_eq] at sends
      obtain rfl := congrArg Prod.fst (Option.some.inj sends)
      rcases Nat.lt_or_ge r.flush.puts.length r.flush.tags.length with less | all
      · simp only [less, if_true]
        exact ghost.putflush inv.core live sent newest less true
      · simp only [Nat.not_lt.mpr all, if_false]
        exact ghost.marked live true sent (fun _ => by omega) flushing
  | slept put =>
      obtain rfl := congrArg Prod.fst (Option.some.inj sends)
      generalize goes : ((Io.slept put).put &&
        decide (r.flush.puts.length < r.flush.tags.length)) = now
      cases now with
      | true =>
          simp only [Bool.and_eq_true, decide_eq_true_eq] at goes
          exact (ghost.putflush inv.core live sent newest goes.2 r.flush.sent).same
            ⟨rfl, rfl, rfl, rfl⟩ rfl (fun _ => rfl) fun _ => rfl
      | false =>
          have same : (w.setRec p (some r)).recs = w.recs := by
            simp only [setRec, ← found, Function.update_eq_self]
          exact ghost.same ⟨rfl, rfl, rfl, rfl⟩ same (fun _ => rfl) fun _ => rfl
  | err put e =>
      rcases sound r found with ⟨unput, ended, undone⟩
      have stays : ((Io.err put e).put &&
          decide (r.flush.puts.length < r.flush.tags.length)) = false := by
        rcases Nat.lt_or_ge r.flush.puts.length r.flush.tags.length with less | all
        · simp [Io.put, unput less]
        · simp [Nat.not_lt.mpr all]
      simp only [stays, Bool.false_eq_true, if_false, Option.some.injEq] at sends
      obtain rfl := congrArg Prod.fst sends
      exact ghost_dropped inv.core ghost live rfl sent ended undone e

omit [DecidableEq κ] in
theorem Ghost.own (core : w.Core) (ghost : w.Ghost) (live : w.Live p k r) (sent : r.sent = true)
    (member : m ∈ (w.told k).take (w.nread k)) (owner : ∃ q r', w.Live q k r' ∧ m.re ∈ r'.places)
    (tag : m.tag = r.tag) : r.put = some m.re := by
  have tracked := ghost.tracked p k r live
  rcases tracked.gone sent with ⟨i, put⟩
  rw [ghost.re_of_tag core live (mem_places.mpr (.inl put)) (tracked.own i put)
    (mem_of_mem_take member) owner tag]
  exact put

section Ghost

variable (ghost : w.Ghost)

include ghost

theorem Ghost.gate (k : κ) : (w.gate k).Ghost := by
  have mux (k' : κ) : ((w.gate k).muxes k').queue = (w.muxes k').queue ∧
      ((w.gate k).muxes k').done = (w.muxes k').done := by
    rcases eq_or_ne k' k with rfl | away
    · simp
    · simp [gate_other _ away]
  exact ghost.same ⟨gate_sent w k, gate_told w k, gate_nread w k, gate_hungup w k⟩ (gate_recs w k)
    (fun k' => (mux k').1) fun k' => (mux k').2

theorem Ghost.onMux (k : κ) (f : Mux → Mux) (queue : ∀ m, (f m).queue = m.queue)
    (done : ∀ m, (f m).done = m.done) : (w.onMux k f).Ghost := by
  have mux (k' : κ) : ((w.onMux k f).muxes k').queue = (w.muxes k').queue ∧
      ((w.onMux k f).muxes k').done = (w.muxes k').done := by
    rcases eq_or_ne k' k with rfl | away
    · simp [queue, done]
    · simp [onMux_other _ _ _ away]
  exact ghost.same ⟨rfl, rfl, rfl, rfl⟩ rfl (fun k' => (mux k').1) fun k' => (mux k').2

theorem ghost_flush (live : w.Live p k r) (lined : r.lined = true)
    (given : w.flush p k r = some (w', out)) : w'.Ghost := by
  rcases flush_cases given with ⟨f, -, -, rfl⟩
  have noted : (w.interrupted p).Ghost :=
    ghost.same ⟨rfl, rfl, rfl, rfl⟩ rfl (fun _ => rfl) fun _ => rfl
  have tagged := noted.onMux k ({ · with tag := f }) (fun _ => rfl) fun _ => rfl
  have live' : ((w.interrupted p).onMux k ({ · with tag := f })).Live p k r := live
  have tracked := tagged.tracked p k r live'
  have count := tracked.lined lined
  have sent := Rpc.sent_of_lined lined
  generalize (w.interrupted p).onMux k ({ · with tag := f }) = v at tagged live' tracked
  have queue : ∀ k' t o, (t, o) ∈ (v.muxes k').queue →
      (t, o) ∈ (((v.onMux k (·.push f p)).setRec p (some (flushedBy r f))).muxes k').queue := by
    intro k' t o member
    rcases eq_or_ne k' k with rfl | away
    · simpa using mem_push member
    · simpa [onMux_other _ _ _ away] using member
  refine tagged.goes live' (flushedBy r f) ⟨by simp, live'.2⟩
    (fun q other => setRec_other _ _ _ other) (.inl rfl) rfl rfl rfl
    (fun k' t o _ => queue k' t o) ?_ (fun _ => id) ?_ ?_
  · intro k' t m put
    rcases eq_or_ne k' k with rfl | away
    · simpa [Mux.push] using put
    · simpa [onMux_other _ _ _ away] using put
  · intro unsent
    have still : (flushedBy r f).sent = true := sent
    rw [unsent] at still
    cases still
  · refine ⟨tracked.gone, tracked.own, ?_, ?_, ?_, tracked.after, tracked.sorted,
      fun sent i put unread => queue k _ _ (tracked.waitsOwn sent i put unread), ?_, tracked.got⟩
    · intro n j at_n
      rcases tracked.flushes n j at_n with ⟨f', tag, found⟩
      refine ⟨f', ?_, found⟩
      simp only [flushedBy]
      rw [List.getElem?_append_left (List.getElem?_eq_some_iff.mp tag).1]
      exact tag
    · simp only [flushedBy, length_append, length_singleton]
      omega
    · simp [flushedBy, Rpc.lined]
    · intro n j f' at_n tag unread
      apply queue k
      refine tracked.waitsFlush n j f' at_n ?_ unread
      have inside : n < r.flush.tags.length := by
        have bound := (List.getElem?_eq_some_iff.mp at_n).1
        have same : (flushedBy r f).flush.puts = r.flush.puts := rfl
        rw [same] at bound
        omega
      simp only [flushedBy] at tag
      rwa [List.getElem?_append_left inside] at tag

theorem ghost_flushed (live : w.Live p k r)
    (others : ∀ t o, o ≠ some p → (t, o) ∈ (w.muxes k).queue → t ∉ r.tags)
    (ended : w.Ended k r) : (w.flushed p k r).1.Ghost := by
  have mux (k' : κ) (t : Tag) (m : Msg) (put : ((w.flushed p k r).1.muxes k').done t = some m) :
      (w.muxes k').done t = some m := by
    simp only [flushed, setRec_muxes] at put
    rcases eq_or_ne k' k with rfl | away
    · simp only [onMux_self] at put
      split at put
      · cases put
      · exact put
    · simpa [onMux_other _ _ _ away] using put
  refine ghost.fails live ⟨rfl, rfl, rfl, rfl⟩ (fun q other => setRec_other _ _ _ other)
    (idle_of_none (setRec_self _ _ _)) ?_ ?_ mux ?_ ended.left
  · simp [flushed]
  · intro k' t o other member
    rcases eq_or_ne k' k with rfl | away
    · simpa [flushed] using mem_off.mpr ⟨member, others t o other member⟩
    · simpa [flushed, onMux_other _ _ _ away] using member
  · intro t tag
    simp [flushed, tag]

theorem ghost_finish (live : w.Live p k r) (noflush : r.flush.tags = [])
    (read : ∀ i, r.put = some i → w.Read k i) :
    ((w.onMux k (·.undone r.tag)).finish p m).1.Ghost := by
  have tags : r.tags = [r.tag] := by simp [Rpc.tags, noflush]
  have ended : w.Ended k r := .of_read ((ghost.tracked p k r live).no_puts noflush) read
  refine ghost.fails live ⟨rfl, rfl, rfl, rfl⟩ (fun q other => setRec_other _ _ _ other)
    (idle_of_none (setRec_self _ _ _)) ?_ ?_ ?_ ?_ ended.left
  · simp [finish]
  · intro k' t o _ member
    rcases eq_or_ne k' k with rfl | away
    · simpa [finish, Mux.undone] using member
    · simpa [finish, onMux_other _ _ _ away] using member
  · intro k' t m put
    rcases eq_or_ne k' k with rfl | away
    · rcases eq_or_ne t r.tag with rfl | apart
      · simp [finish, Mux.undone] at put
      · simpa [finish, Mux.undone, apart] using put
    · simpa [finish, onMux_other _ _ _ away] using put
  · intro t tag
    obtain rfl : t = r.tag := by simpa [tags] using tag
    simp [finish, Mux.undone]

omit [DecidableEq κ] in
theorem Ghost.gets (live : w.Live p k r) (sent : r.sent = true)
    (put : r.put = some m.re) (member : m ∈ (w.told k).take (w.nread k)) :
    (w.setRec p (some { r with flush := { r.flush with got := some m } })).Ghost := by
  have tracked := ghost.tracked p k r live
  refine ghost.goes live { r with flush := { r.flush with got := some m } } ⟨by simp, live.2⟩
    (fun q other => setRec_other _ _ _ other) (.inl rfl) rfl rfl rfl (fun _ _ _ _ => id)
    (fun _ _ _ => id) (fun _ => id) ?_ ?_
  · simp [sent]
  · refine ⟨tracked.gone, tracked.own, tracked.flushes, tracked.near, tracked.lined, tracked.after,
      tracked.sorted, tracked.waitsOwn, tracked.waitsFlush, ?_⟩
    rintro m' ⟨⟩
    exact ⟨put, member⟩

theorem Ghost.undone (t : Tag) : (w.onMux k (·.undone t)).Ghost := by
  have done (k' : κ) (s : Tag) (m : Msg)
      (put : ((w.onMux k (·.undone t)).muxes k').done s = some m) :
      (w.muxes k').done s = some m := by
    rcases eq_or_ne k' k with rfl | away
    · rcases eq_or_ne s t with rfl | apart
      · simp [Mux.undone] at put
      · simpa [Mux.undone, apart] using put
    · simpa [onMux_other _ _ _ away] using put
  have queue (k' : κ) : ((w.onMux k (·.undone t)).muxes k').queue = (w.muxes k').queue := by
    rcases eq_or_ne k' k with rfl | away
    · simp [Mux.undone]
    · rw [onMux_other _ _ _ away]
  refine ⟨ghost.serves, fun p k' r live => ?_, fun k' s m put =>
      ghost.parked k' s m (done k' s m put),
    fun k' i pending => ?_, ghost.single, ghost.plain⟩
  · refine (ghost.tracked p k' r live).mono (fun _ _ found => found) (fun _ => id) ?_
    intro s i req _ _ _ _ member
    rwa [queue]
  · refine (ghost.pending k' i pending).imp_right fun orphan =>
        orphan.mono (fun _ _ => id) fun s => ?_
    rw [queue]
    exact id

/-- A reply that is returned answers the RPC's own request. -/
def Answers (r : Rpc κ) (out : Outcome) : Prop := ∀ m, out = .ended (.ok m) → r.put = some m.re

theorem flushed_answers (live : w.Live p k r) : Answers r (w.flushed p k r).2 := by
  intro m same
  simp only [flushed, Outcome.ended.injEq] at same
  split at same
  · obtain rfl := Except.ok.inj same
    exact ((ghost.tracked p k r live).got _ ‹_›).1
  · cases same

end Ghost

/-- A reply to a process that is gone is nobody's. -/
theorem mountmux_orphan (core : w.Core) (live : w.Live p k r)
    (lost : (m.tag, none) ∈ (w.muxes k).queue) :
    w.mountmux p k r m = (w.taken k m.tag, .again) := by
  have apart := core.lost k m.tag lost p r live
  have own : m.tag ≠ r.tag := fun same => apart (same ▸ tag_mem_tags r)
  have flush : m.tag ∉ r.flush.tags := fun member => apart (mem_cons_of_mem _ member)
  have newest : r.flush.tags.getLast? ≠ some m.tag := fun last => flush (mem_of_getLast? last)
  rw [mountmux, if_neg own, if_neg newest, if_neg flush]
  split
  case h_1 t q owner =>
    have queued := mem_of_find?_eq_some owner
    have same := List.find?_some owner
    simp only [beq_iff_eq] at same
    subst same
    rcases (core.mine q).queued k _ queued with ⟨r', live', tag⟩
    exact absurd tag (core.lost k _ lost q r' live')
  case h_2 => rfl

theorem ghost_mountmux (core : w.Core) (ghost : w.Ghost) (live : w.Live p k r)
    (lined : r.lined = true) (undone : (w.muxes k).done r.tag = none)
    (member : m ∈ (w.told k).take (w.nread k))
    (owner : (∃ q r', w.Live q k r' ∧ m.re ∈ r'.places) ∨ w.Orphan k m.re)
    (spent : ∀ i req, w.Pending k i → (w.sent k)[i]? = some req → req.tag ≠ m.tag) :
    (w.mountmux p k r m).1.Ghost ∧ Answers r (w.mountmux p k r m).2 := by
  have sent := Rpc.sent_of_lined lined
  rcases owner with owner | ⟨req, found, lost⟩
  rotate_left
  · rcases (ghost.serves k).req_of_mem (mem_of_mem_take member) with ⟨req', found', tag'⟩
    obtain rfl := Option.some.inj (found.symm.trans found')
    rw [tag'] at lost
    rw [mountmux_orphan core live lost]
    refine ⟨ghost.taken m.tag (fun q r' i req' there place found' same => ?_) spent, ?_⟩
    · rcases (ghost.tracked q k r' there).req place with ⟨req'', found'', tag⟩
      obtain rfl := Option.some.inj (found'.symm.trans found'')
      rw [same] at tag
      exact absurd tag (core.lost k _ lost q r' there)
    · rintro m' ⟨⟩
  have off : (w.taken k m.tag).Ghost := by
    refine ghost.taken m.tag (fun q r' i req there place found tag => ?_) spent
    exact ⟨m, member, ghost.re_of_tag core there place found (mem_of_mem_take member) owner
      tag.symm⟩
  have live' : (w.taken k m.tag).Live p k r := live
  have gated := off.gate k
  have gatedLive : ((w.taken k m.tag).gate k).Live p k r :=
    (Live.congr (congrFun (gate_recs (w.taken k m.tag) k) p)).mpr live
  have quiet : Quiet w ((w.taken k m.tag).gate k) :=
    ⟨gate_sent _ _, gate_told _ _, gate_nread _ _, gate_hungup _ _⟩
  simp only [mountmux]
  split
  case isTrue own =>
    have put := ghost.own core live sent member owner own
    split
    case isTrue noflush =>
      have tags : r.tags = [r.tag] := by simp [Rpc.tags, noflush]
      refine ⟨?_, ?_⟩
      · refine gated.fails gatedLive ⟨rfl, rfl, rfl, rfl⟩ (fun q other => setRec_other _ _ _ other)
          (idle_of_none (setRec_self _ _ _)) ?_ (fun _ _ _ _ => id) (fun _ _ _ => id) ?_ ?_
        · simp [finish]
        · intro t tag
          obtain rfl : t = r.tag := by simpa [tags] using tag
          simpa [finish, taken] using undone
        · have ended : ((w.taken k m.tag).gate k).Ended k r := by
            refine .of_read ((ghost.tracked p k r live).no_puts noflush) fun i isPut => ?_
            obtain rfl := Option.some.inj (put.symm.trans isPut)
            exact quiet.read.mpr ⟨m, member, rfl⟩
          exact ended.left
      · rintro m' ⟨⟩
        exact put
    case isFalse =>
      refine ⟨off.gets live' sent put member, ?_⟩
      rintro m' ⟨⟩
  case isFalse notOwn =>
    split
    case isTrue newest =>
      have flushing : r.flush.tags ≠ [] := by
        intro none
        simp [none] at newest
      have tag : m.tag = r.newest := by simp [Rpc.newest, newest]
      have ended := ghost.settled_of_newest core live lined flushing member tag owner
      refine ⟨ghost_flushed gated gatedLive (fun t o other queued => ?_)
        (fun i place pending => ended i place (quiet.pending.mp pending)),
        flushed_answers gated gatedLive⟩
      rw [gate_self] at queued
      exact core.entries_others live t o other (mem_taken core queued).2
    case isFalse =>
      split
      case isTrue => exact ⟨off, by rintro m' ⟨⟩⟩
      case isFalse =>
        split
        case h_1 t q isOwner =>
          have queued := mem_of_find?_eq_some isOwner
          have same := List.find?_some isOwner
          simp only [beq_iff_eq] at same
          subst same
          rcases (core.mine q).queued k _ queued with ⟨r', there, tag⟩
          rcases owner with ⟨q', r'', live'', place⟩
          rcases (ghost.serves k).req_of_mem (mem_of_mem_take member) with ⟨req, found, reqTag⟩
          rcases core.eq_of_tag ghost there live'' place found (reqTag ▸ tag) with ⟨rfl, rfl⟩
          have thereOff : (w.taken k m.tag).Live q' k r'' := there
          have parked := off.park thereOff place member
          refine ⟨?_, by rintro m' ⟨⟩⟩
          refine parked.same ?_ ?_ ?_ ?_
          · simp only [wakeup]
            split <;> exact ⟨rfl, rfl, rfl, rfl⟩
          · simp only [wakeup]
            split <;> rfl
          · intro k'
            simp only [wakeup]
            split <;> rfl
          · intro k'
            simp only [wakeup]
            split <;> rfl
        case h_2 => exact ⟨off, by rintro m' ⟨⟩⟩

theorem ghost_reader {rd : Rd} (inv : w.Inv) (ghost : w.Ghost) (live : w.Live p k r)
    (lined : r.lined = true) (awake : w.status p = .awake) (waits : w.Waits p k)
    (sound : ∀ e, rd = .err e → (∀ q, (w.muxes k).rip = some q → q = p) →
      w.Ended k r ∧ ∀ t ∈ r.tags, (w.muxes k).done t = none)
    (reads : w.reader p k r rd = some (w', out)) : w'.Ghost ∧ Answers r out := by
  have sent := Rpc.sent_of_lined lined
  simp only [reader] at reads
  split at reads
  case isTrue free =>
    have took := inv_took inv waits awake free
    have taken := ghost.onMux k ({ · with rip := some p }) (fun _ => rfl) fun _ => rfl
    have isRip : ((w.onMux k ({ · with rip := some p })).muxes k).rip = some p := by simp
    have live' : (w.onMux k ({ · with rip := some p })).Live p k r := live
    have waits' := ((took.held k).rips p isRip).1
    cases rd with
    | slept =>
        simp only [mntrpcread, Option.some.injEq, Prod.mk.injEq] at reads
        rcases reads with ⟨rfl, rfl⟩
        exact ⟨taken.same ⟨rfl, rfl, rfl, rfl⟩ rfl (fun _ => rfl) fun _ => rfl, by rintro m ⟨⟩⟩
    | eintr =>
        have gatedLive : ((w.onMux k ({ · with rip := some p })).gate k).Live p k r :=
          (Live.congr (congrFun (gate_recs _ k) p)).mpr live'
        refine ⟨ghost_flush (taken.gate k) gatedLive lined reads, ?_⟩
        rcases flush_cases reads with ⟨f, -, rfl, -⟩
        rintro m ⟨⟩
    | err e =>
        simp only [mntrpcread, Option.some.injEq] at reads
        rcases sound e rfl free with ⟨ended, undone⟩
        have ends := ghost_dropped took.core taken live' rfl sent ended (by simpa using undone) e
        rw [reads] at ends
        refine ⟨ends, ?_⟩
        obtain rfl := congrArg Prod.snd reads
        rintro m ⟨⟩
    | msg =>
        simp only [mntrpcread] at reads
        split at reads
        case h_1 => cases reads
        case h_2 m next =>
          have told : ((w.onMux k ({ · with rip := some p })).read k).Inv := took.same rfl rfl rfl
          have owner := taken.pending k m.re (taken.next next)
          rcases read_next next with ⟨m', member, same⟩
          obtain rfl : m' = m := by
            have here := mem_of_getElem? next
            exact (taken.serves k).eq_of_re (mem_of_mem_take member) here same
          rcases waits' with ⟨r', live'', -, own, -⟩
          rcases live'.unique live'' with ⟨-, rfl⟩
          have result := ghost_mountmux told.core (taken.read k) live' lined own member owner
            (taken.spent next)
          rw [Option.some.inj reads] at result
          exact result
  case isFalse busy =>
    split at reads
    case isTrue =>
      refine ⟨ghost_flush ghost live lined reads, ?_⟩
      rcases flush_cases reads with ⟨f, -, rfl, -⟩
      rintro m ⟨⟩
    case isFalse =>
      simp only [Option.some.injEq, Prod.mk.injEq] at reads
      rcases reads with ⟨rfl, rfl⟩
      exact ⟨ghost.same ⟨rfl, rfl, rfl, rfl⟩ rfl (fun _ => rfl) fun _ => rfl, by rintro m ⟨⟩⟩

theorem ghost_answered {rd : Rd} (inv : w.Inv) (ghost : w.Ghost) (live : w.Live p k r)
    (lined : r.lined = true) (awake : w.status p = .awake)
    (undone : (w.muxes k).done r.tag = none)
    (sound : ∀ e, rd = .err e → (w.muxes k).done r.newest = none →
      (∀ q, (w.muxes k).rip = some q → q = p) →
        w.Ended k r ∧ ∀ t ∈ r.flush.tags, (w.muxes k).done t = none)
    (answers : w.answered p k r rd = some (w', out)) : w'.Ghost ∧ Answers r out := by
  simp only [answered] at answers
  split at answers
  case isTrue done =>
    rcases done with ⟨flushing, isSome⟩
    rcases Option.isSome_iff_exists.mp isSome with ⟨m, put⟩
    rcases ghost.parked k _ m put with ⟨tag, member, owner⟩
    have ended := ghost.settled_of_newest inv.core live lined flushing member tag owner
    have flushes := ghost_flushed ghost live (inv.core.entries_others live) ended
    have result := flushed_answers ghost live
    rw [Option.some.inj answers] at flushes result
    exact ⟨flushes, result⟩
  case isFalse notDone =>
    have last := newest_undone undone notDone
    refine ghost_reader inv ghost live lined awake ⟨r, live, lined, undone, last⟩ ?_ answers
    intro e same free
    rcases sound e same last free with ⟨ended, flushDone⟩
    refine ⟨ended, fun t tag => ?_⟩
    rcases mem_cons.mp tag with rfl | flush
    · exact undone
    · exact flushDone t flush

theorem ghost_mountio {rd : Rd} (inv : w.Inv) (ghost : w.Ghost) (awake : w.status p = .awake)
    (returns : w.Returns p k) (sound : w.Sound (.mountio p k rd))
    (passes : w.mountio p k rd = some (w', out)) :
    w'.Ghost ∧ ∀ r, w.recs p = some r → Answers r out := by
  simp only [mountio] at passes
  cases found : w.recs p with
  | none => simp [found] at passes
  | some r =>
      have live : w.Live p k r := ⟨found, returns r found⟩
      have same (result : w'.Ghost ∧ Answers r out) :
          w'.Ghost ∧ ∀ r', some r = some r' → Answers r' out :=
        ⟨result.1, fun r' isSame => Option.some.inj isSame ▸ result.2⟩
      apply same
      simp only [found] at passes
      split at passes
      case isFalse => cases passes
      case isTrue lined =>
        have sent := Rpc.sent_of_lined lined
        have sound' (e : String) (isErr : rd = .err e) := by
          subst isErr
          exact sound r found
        cases own : (w.muxes k).done r.tag with
        | none =>
            simp only [own] at passes
            exact ghost_answered inv ghost live lined awake own sound' passes
        | some m =>
            rcases ghost.parked k _ m own with ⟨tag, member, owner⟩
            have put := ghost.own inv.core live sent member owner tag
            simp only [own] at passes
            split at passes
            case isTrue noflush =>
              have finished := ghost_finish (m := m) ghost live noflush fun i isPut => by
                obtain rfl := Option.some.inj (put.symm.trans isPut)
                exact ⟨m, member, rfl⟩
              rw [Option.some.inj passes] at finished
              refine ⟨finished, ?_⟩
              obtain rfl := congrArg Prod.snd (Option.some.inj passes)
              rintro m' ⟨⟩
              exact put
            case isFalse flushing =>
              have got := inv_got (m := m) inv live awake sent flushing
              have taken := ghost.undone (k := k) r.tag
              have takenLive : (w.onMux k (·.undone r.tag)).Live p k r := live
              have live' := live.gave m
              have gets := taken.gets takenLive sent put member
              have result : w'.Ghost ∧ Answers { r with flush := { r.flush with got := some m } }
                  out := by
                refine ghost_answered got gets live' lined awake ?_ ?_ passes
                · simp [Mux.undone]
                · intro e isErr last free
                  have apart := tag_ne_newest ((inv.core.mine p).nodup k r live) flushing
                  have last' : (w.muxes k).done r.newest = none := by
                    rw [setRec_muxes, onMux_self] at last
                    have unfolded : Function.update (w.muxes k).done r.tag none r.newest =
                        none := last
                    rwa [Function.update_of_ne apart] at unfolded
                  rcases sound' e isErr last' (by simpa [Mux.undone] using free) with
                    ⟨ended, undone⟩
                  refine ⟨ended, fun t flush => ?_⟩
                  have before := undone t flush
                  rcases eq_or_ne t r.tag with rfl | other
                  · simp [Mux.undone]
                  · simpa [Mux.undone, other] using before
              exact result

omit [DecidableEq κ] in
theorem Ghost.endcall (ghost : w.Ghost) (inv : w.Inv) (done : w.Done p)
    (ended : ∀ r, w.recs p = some r → r.finished = false → w.Ended r.on r) :
    (w.endcall p).Ghost := by
  refine ghost.retire ⟨rfl, rfl, rfl, rfl⟩ (fun q other => setRec_other _ _ _ other)
    (fun k r live => absurd live (idle_of_none (setRec_self _ _ _) k r)) (fun _ _ _ _ => id)
    (fun k t m put => ⟨put, ?_⟩) ?_ ?_
  · intro r live place
    rcases ghost.parked k t m put with ⟨rfl, member, -⟩
    have tag := ghost.tag_of_place live place (mem_of_mem_take member)
    have unsent : r.sent = false := by
      rcases done r live.1 with finished | unsent
      · rw [live.2.2] at finished
        cases finished
      · exact unsent
    have noflush := (inv.core.mine p).unflushed r live.1 unsent
    obtain same : m.tag = r.tag := by simpa [Rpc.tags, noflush] using tag
    have undone := ((inv.core.mine p).unsent k r live unsent).1
    have before : (w.muxes k).done m.tag = some m := put
    rw [← same, before] at undone
    cases undone
  · intro k r i live place pending
    have ends := ended r live.1 live.2.2 i place
    rw [live.2.1] at ends
    exact absurd pending ends
  · simp [Mounts.endcall]

theorem Ghost.forget (ghost : w.Ghost) (inv : w.Inv) {keys : List κ}
    (keyed : w.Keyed (.forget p keys))
    (sound : w.Sound (.forget p keys)) : ((w.forget p keys).setStatus p .awake).Ghost := by
  rcases inv.forget_cases keyed with ⟨done, same⟩ | ⟨k, r, live, sent, same⟩
  · rw [same]
    have ended := ghost.endcall inv done fun r found unfinished =>
      (sound r found unfinished).1 (((done r found).resolve_left (by simp [unfinished])))
    exact ended.same ⟨rfl, rfl, rfl, rfl⟩ rfl (fun _ => rfl) fun _ => rfl
  rw [same]
  have quiet : Quiet w (forgetAt p (w.setRec p none) k) := by
    rw [forgetAt]
    split
    · exact ⟨gate_sent _ _, gate_told _ _, gate_nread _ _, gate_hungup _ _⟩
    · exact ⟨rfl, rfl, rfl, rfl⟩
  have recs : (forgetAt p (w.setRec p none) k).recs = (w.setRec p none).recs := forgetAt_recs _ _ _
  have queue (t : Tag) (o : Option Pid) :
      (t, o) ∈ ((forgetAt p (w.setRec p none) k).muxes k).queue ↔
        o ≠ some p ∧ (t, o) ∈ (w.muxes k).queue ∨ o = none ∧ (t, some p) ∈ (w.muxes k).queue := by
    rw [forgetAt_self]
    exact mem_orphan
  have tracked := ghost.tracked p k r live
  have died : (forgetAt p (w.setRec p none) k).Ghost := by
    refine ghost.fails live quiet (fun q other => ?_) (idle_of_none ?_) ?_ ?_ ?_ ?_ ?_
    · rw [recs, setRec_other _ _ _ other]
    · rw [recs, setRec_self]
    · intro r' found
      rw [recs, setRec_self] at found
      cases found
    · intro k' t o other member
      rcases eq_or_ne k' k with rfl | away
      · exact (queue t o).mpr (.inl ⟨other, member⟩)
      · rwa [forgetAt_other _ _ away]
    · intro k' t m put
      rcases eq_or_ne k' k with rfl | away
      · rwa [forgetAt_self] at put
      · rwa [forgetAt_other _ _ away] at put
    · intro t tag
      rw [forgetAt_self]
      have undone := (sound r live.1 live.2.2).2 t tag
      rwa [live.2.1] at undone
    · intro i place pending
      have queued : ∃ req, (w.sent k)[i]? = some req ∧ (req.tag, some p) ∈ (w.muxes k).queue := by
        rcases mem_places.mp place with own | flush
        · exact ⟨_, tracked.own i own, tracked.waitsOwn sent i own pending.2.1⟩
        · rcases mem_iff_getElem?.mp flush with ⟨n, at_n⟩
          rcases tracked.flushes n i at_n with ⟨f, tag, found⟩
          exact ⟨_, found, tracked.waitsFlush n i f at_n tag pending.2.1⟩
      rcases queued with ⟨req, found, member⟩
      exact ⟨req, by rwa [quiet.sent], (queue req.tag none).mpr (.inr ⟨rfl, member⟩)⟩
  exact died.same ⟨rfl, rfl, rfl, rfl⟩ rfl (fun _ => rfl) fun _ => rfl

omit [DecidableEq κ] in
theorem ghost_new : (new : Mounts κ).Ghost := by
  refine ⟨fun k => ?_, fun p k r live => absurd live (idle_of_none rfl k r), fun k t m put => ?_,
    fun k i pending => ?_, fun k i _ _ _ pending => ?_, fun p r found => ?_⟩
  · intro pre m post split
    simp [new] at split
  · cases put
  · rcases pending with ⟨bound, -⟩
    simp [new] at bound
  · rcases pending with ⟨bound, -⟩
    simp [new] at bound
  · cases found

theorem Ghost.step {a : MntAct κ} (ghost : w.Ghost) (inv : w.Inv) (kept : w.Kept a)
    (keyed : w.Keyed a) (sound : w.Sound a) (moved : w.step a = some w') : w'.Ghost := by
  cases a with
  | rpc p k version =>
      simp only [Mounts.step] at moved
      split at moved
      case isTrue =>
        exact ghost_rpc inv ghost (fun r found => (kept.1 r found).1) sound moved
      case isFalse => cases moved
  | send p k io =>
      simp only [Mounts.step] at moved
      split at moved
      case isTrue =>
        rcases Option.map_eq_some_iff.mp moved with ⟨⟨_, out⟩, sends, rfl⟩
        exact ghost_send inv ghost kept sound sends
      case isFalse => cases moved
  | sendflush p k io =>
      simp only [Mounts.step] at moved
      split at moved
      case isTrue =>
        rcases Option.map_eq_some_iff.mp moved with ⟨⟨_, out⟩, sends, rfl⟩
        exact ghost_sendflush inv ghost kept sound sends
      case isFalse => cases moved
  | mountio p k rd =>
      simp only [Mounts.step] at moved
      split at moved
      case isTrue awake =>
        rcases Option.map_eq_some_iff.mp moved with ⟨⟨_, out⟩, passes, rfl⟩
        exact (ghost_mountio inv ghost awake kept.1 sound passes).1
      case isFalse => cases moved
  | endcall p =>
      obtain rfl := Option.some.inj moved
      exact ghost.endcall inv kept sound
  | forget p keys =>
      obtain rfl := Option.some.inj moved
      exact ghost.forget inv keyed sound
  | note p =>
      obtain rfl := Option.some.inj moved
      refine ghost.same ?_ ?_ ?_ ?_
      · simp only [wakeup]
        split <;> exact ⟨rfl, rfl, rfl, rfl⟩
      · simp only [wakeup]
        split <;> rfl
      · intro k
        simp only [wakeup]
        split <;> rfl
      · intro k
        simp only [wakeup]
        split <;> rfl
  | interrupted p =>
      obtain rfl := Option.some.inj moved
      exact ghost.same ⟨rfl, rfl, rfl, rfl⟩ rfl (fun _ => rfl) fun _ => rfl
  | wake p =>
      have woken : (w.setStatus p .awake).Ghost :=
        ghost.same ⟨rfl, rfl, rfl, rfl⟩ rfl (fun _ => rfl) fun _ => rfl
      simp only [Mounts.step] at moved
      split at moved
      · obtain rfl := Option.some.inj moved
        exact woken
      · obtain rfl := Option.some.inj moved
        exact woken
      · cases moved
  | reply k m =>
      simp only [Mounts.step] at moved
      split at moved
      · cases moved
      case isFalse isOpen =>
        obtain rfl := Option.some.inj moved
        exact ghost.tell sound (by simpa using isOpen)
  | hangup k =>
      obtain rfl := Option.some.inj moved
      exact ghost.hangup k

theorem ghost_of_reach (reached : mounts.Reach (fun w a => w.Kept a ∧ w.Sound a) w) :
    w.Inv ∧ w.Ghost := by
  apply reached.invariant fun w => w.Inv ∧ w.Ghost
  · rintro s rfl
    exact ⟨inv_new, ghost_new⟩
  · exact fun s a s' holds allowed moved =>
      ⟨holds.1.step allowed.1 moved.2 moved.1,
        holds.2.step holds.1 allowed.1 moved.2 allowed.2 moved.1⟩

/-- A pass of `rpc` returns a reply only to the RPC's own request. A request that may still be
answered is of an RPC under way, and has its tag on the queue unless the write of it has not
returned, or its process is gone and its tag there for nobody; and `newtag` gives its tag to no
other, where it comes to a tag in use on the queue or not at all. A reply put aside answers an RPC
under way, or a flush of it, by its tag. -/
structure Agreed (w : Mounts κ) : Prop where
  answers : ∀ p k rd w' m, w.status p = .awake → w.Kept (.mountio p k rd) →
    w.Sound (.mountio p k rd) → w.mountio p k rd = some (w', .ended (.ok m)) →
      ∃ r, w.Live p k r ∧ r.put = some m.re ∧ (w.sent k)[m.re]? = some ⟨r.tag, none⟩
  pending : ∀ k i, w.Pending k i → w.Orphan k i ∨ ∃ p r req, w.Live p k r ∧ i ∈ r.places ∧
    (w.sent k)[i]? = some req ∧ req.tag ∈ r.tags ∧
      ((req.tag, some p) ∈ (w.muxes k).queue ∨ r.sent = false ∧ r.put = some i)
  handed : ∀ k t w', w.Clear k → w.newtag k = some (t, w') →
    ∀ i req, w.Pending k i → (w.sent k)[i]? = some req → req.tag ≠ t
  done : ∀ k t m, (w.muxes k).done t = some m → m.tag = t ∧
    ∃ p r, w.Live p k r ∧ m.re ∈ r.places ∧ t ∈ r.tags

/-- In every run in which the server keeps to the protocol, every call comes back to its RPC,
the counter comes to no tag in use that is off the queue, and an RPC that fails or whose process
dies has no reply put aside and nothing on the wire that may be answered by a tag off the queue. -/
theorem tags_agree (reached : mounts.Reach (fun w a => w.Kept a ∧ w.Sound a) w) : w.Agreed := by
  rcases ghost_of_reach reached with ⟨inv, ghost⟩
  refine ⟨fun p k rd w' m awake kept sound passes => ?_, fun k i pending => ?_,
    fun k t w' clear given i req pending found => ?_, fun k t m put => ?_⟩
  · cases found : w.recs p with
    | none => simp [mountio, found] at passes
    | some r =>
        have live : w.Live p k r := ⟨found, kept.1 r found⟩
        have put := (ghost_mountio inv ghost awake kept.1 sound passes).2 r found m rfl
        exact ⟨r, live, put, (ghost.tracked p k r live).own _ put⟩
  · rcases ghost.pending k i pending with ⟨p, r, live, place⟩ | orphan
    · have tracked := ghost.tracked p k r live
      rcases tracked.req place with ⟨req, found, tag⟩
      refine .inr ⟨p, r, req, live, place, found, tag, ?_⟩
      rcases mem_places.mp place with own | flush
      · obtain rfl := Option.some.inj (found.symm.trans (tracked.own i own))
        cases sent : r.sent with
        | true => exact .inl (tracked.waitsOwn sent i own pending.2.1)
        | false => exact .inr ⟨rfl, own⟩
      · rcases mem_iff_getElem?.mp flush with ⟨n, at_n⟩
        rcases tracked.flushes n i at_n with ⟨f, isTag, found'⟩
        obtain rfl := Option.some.inj (found.symm.trans found')
        exact .inl (tracked.waitsFlush n i f at_n isTag pending.2.1)
    · exact .inl orphan
  · rcases Option.map_eq_some_iff.mp given with ⟨t', next, same⟩
    obtain rfl : t' = t := congrArg Prod.fst same
    have free := clear.fresh t' next
    rintro rfl
    rcases ghost.pending k i pending with ⟨p, r, live, place⟩ | ⟨req', found', lost⟩
    · rcases (ghost.tracked p k r live).req place with ⟨req', found', tag⟩
      obtain rfl := Option.some.inj (found.symm.trans found')
      exact free.apart live tag
    · obtain rfl := Option.some.inj (found.symm.trans found')
      exact free.unlost lost
  · rcases ghost.parked k t m put with ⟨rfl, member, p, r, live, place⟩
    exact ⟨rfl, p, r, live, place, ghost.tag_of_place live place (mem_of_mem_take member)⟩

/-- A first process sends a request and dies, and a second has the reply to its own. -/
theorem tags_agree_orphan : ∃ w w' : Mounts Unit, w.Agreed ∧
    (w.muxes ()).queue = [(1, none), (2, some 2)] ∧
      w.mountio 2 () .msg = some (w', .ended (.ok ⟨2, 1⟩)) := by
  have first : mounts.Reach (fun w a => w.Kept a ∧ w.Sound a) (new : Mounts Unit) := .init rfl
  have clear (w : Mounts Unit) (nobody : ∀ p, w.recs p = none)
      (undone : ∀ t, (w.muxes ()).done t = none) : w.Clear () := by
    rintro t (put | ⟨p, r, live, -⟩)
    · exact absurd (undone t) put
    · exact absurd live (idle_of_none (nobody p) () r)
  have asked := System.Reach.step first (show new.Kept (.rpc 1 () false) ∧ _ from
    ⟨⟨by rintro r ⟨⟩, fun _ => clear _ (fun _ => rfl) fun _ => rfl⟩, by rintro r ⟨⟩⟩) ⟨rfl, trivial⟩
  have sent := System.Reach.step asked (show Kept _ (.send 1 () .ok) ∧ _ from
    ⟨by rintro r ⟨⟩; exact ⟨rfl, rfl⟩, trivial⟩) ⟨rfl, trivial⟩
  have dies := System.Reach.step sent (show Kept _ (.forget 1 [()]) ∧ _ by
    refine ⟨?_, ?_⟩
    · rintro ⟨⟩ _ _ q other ⟨r, live, -⟩
      rcases q with _ | _ | n
      · exact absurd live (idle_of_none rfl () r)
      · exact other rfl
      · exact absurd live (idle_of_none rfl () r)
    · rintro r ⟨⟩ -
      exact ⟨by rintro ⟨⟩, fun _ _ => rfl⟩) ⟨rfl, fun k unkeyed => absurd mem_cons_self unkeyed⟩
  have asked' := System.Reach.step dies (show Kept _ (.rpc 2 () false) ∧ _ by
    refine ⟨⟨by rintro r ⟨⟩, fun _ => clear _ (fun p => ?_) fun _ => rfl⟩, by rintro r ⟨⟩⟩
    rcases p with _ | _ | n
    all_goals rfl) ⟨rfl, trivial⟩
  have sent' := System.Reach.step asked' (show Kept _ (.send 2 () .ok) ∧ _ from
    ⟨by rintro r ⟨⟩; exact ⟨rfl, rfl⟩, trivial⟩) ⟨rfl, trivial⟩
  have answered := System.Reach.step sent' (show Kept _ (.reply () ⟨2, 1⟩) ∧ _ from
    ⟨trivial, ⟨_, rfl, rfl⟩, by rintro m ⟨⟩, by rintro req _ _ j f _ _ _ m ⟨⟩,
      by rintro req t ⟨⟩ ⟨⟩⟩) ⟨rfl, trivial⟩
  exact ⟨_, _, tags_agree answered, rfl, rfl⟩

def Conforming (w : Mounts κ) (a : MntAct κ) : Prop :=
  ∀ k m, a = .reply k m → Answerable (w.sent k) (w.told k) m

/-- Process 2 is interrupted while 1 reads the wire, and its `Tflush` sleeps in the wire's
write. -/
def interrupting : List (MntAct Unit) :=
  [.rpc 1 () false, .send 1 () .ok, .mountio 1 () .slept,
    .rpc 2 () false, .send 2 () .ok, .mountio 2 () .slept,
    .note 2, .mountio 2 () .slept, .sendflush 2 () (.slept true)]

def putting : List (MntAct Unit) :=
  [.wake 1, .mountio 1 () .msg, .mountio 1 () .slept, .note 2, .wake 2]

def interrupted2 : Mounts Unit := (new.run interrupting).getD new

def parked2 : Mounts Unit := ((interrupted2.tell () ⟨2, 1⟩).run putting).getD new

theorem some_getD {α : Type} {o : Option α} (isSome : o.isSome = true) (a : α) :
    o = some (o.getD a) := by
  cases o with
  | none => cases isSome
  | some b => rfl

theorem run_interrupting : new.run interrupting = some interrupted2 :=
  some_getD (by decide) new

theorem run_putting : (interrupted2.tell () ⟨2, 1⟩).run putting = some parked2 :=
  some_getD (by decide) new

theorem reach_parked2 : mounts.Reach Conforming parked2 := by
  have first : mounts.Reach Conforming (new : Mounts Unit) := .init rfl
  have asked : mounts.Reach Conforming interrupted2 := by
    have keyed : ∀ a ∈ interrupting, ∀ v : Mounts Unit, v.Keyed a := by simp [interrupting, Keyed]
    refine reach_run first run_interrupting fun v a member => ⟨?_, keyed a member v⟩
    rintro k m rfl
    simp [interrupting] at member
  have answers : Answerable (interrupted2.sent ()) (interrupted2.told ()) ⟨2, 1⟩ := by
    have untold : interrupted2.told () = [] := by decide
    have sent : (interrupted2.sent ())[1]? = some ⟨2, none⟩ := by decide
    rw [untold]
    refine ⟨⟨_, sent, rfl⟩, by simp, by simp, fun req t found => ?_⟩
    obtain rfl := Option.some.inj (sent.symm.trans found)
    simp
  have told : mounts.Reach Conforming (interrupted2.tell () ⟨2, 1⟩) := by
    refine .step (a := .reply () ⟨2, 1⟩) asked ?_ ?_
    · rintro k m ⟨⟩
      exact answers
    · have isOpen : interrupted2.hungup () = false := by decide
      simp [mounts, step, isOpen, Keyed]
  have keyed : ∀ a ∈ putting, ∀ v : Mounts Unit, v.Keyed a := by simp [putting, Keyed]
  refine reach_run told run_putting fun v a member => ⟨?_, keyed a member v⟩
  rintro k m rfl
  simp [putting] at member

/-- A second note makes the write fail: the RPC is over, and its reply lies put aside. -/
theorem tags_agree_fails :
    ¬∀ w : Mounts Unit, mounts.Reach Conforming w → w.Agreed := by
  intro holds
  have isSome : (parked2.step (.sendflush 2 () (.err true eintr))).isSome = true := by decide
  rcases Option.isSome_iff_exists.mp isSome with ⟨w, moved⟩
  have reached : mounts.Reach Conforming w := .step (a := .sendflush 2 () (.err true eintr))
    reach_parked2 (by rintro k m ⟨⟩) ⟨moved, trivial⟩
  have lies : (parked2.step (.sendflush 2 () (.err true eintr))).map
      (fun w => (((w.muxes ()).done 2), (w.recs 1).map (·.tags), (w.recs 2).map (·.finished))) =
        some (some ⟨2, 1⟩, some [1], some true) := by decide
  rw [moved] at lies
  simp only [Option.map_some, Option.some.injEq, Prod.mk.injEq] at lies
  rcases lies with ⟨put, one, two⟩
  rcases (holds w reached).done () 2 _ put with ⟨-, p, r, live, -, tag⟩
  have rest (n : Nat) : (parked2.step (.sendflush 2 () (.err true eintr))).bind
    (·.recs (n + 3)) = none := rfl
  have nobody : (parked2.step (.sendflush 2 () (.err true eintr))).bind (·.recs 0) = none := rfl
  simp only [moved, Option.bind_some] at rest nobody
  rcases p with _ | _ | _ | n
  · rw [live.1] at nobody
    cases nobody
  · rw [live.1] at one
    simp only [Option.map_some, Option.some.injEq] at one
    simp [one] at tag
  · rw [live.1] at two
    simp [live.2.2] at two
  · have absent := rest n
    rw [live.1] at absent
    cases absent

end Mounts

end Ipnx.Mnt
