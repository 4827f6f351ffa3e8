import Ipnx.Mnt.Handed
import Ipnx.Mnt.Server

/-!
# Whose a reply is

A request that may still be answered is an RPC's under way or one of its flushes', or its
process is gone and its tag on the queue for nobody, and a reply put aside answers one under
way. So a reply that `rpc` returns answers the request that it was made for.
-/

namespace Ipnx.Mnt

open List

variable {κ : Type}

/-- The requests of an RPC on its wire: its own and its flushes'. -/
def Rpc.places (r : Rpc κ) : List Nat := r.put.toList ++ r.flush.puts

namespace Mounts

variable {w w' : Mounts κ} {p q : Pid} {k k' : κ} {r r' : Rpc κ} {t : Tag} {i j : Nat} {m : Msg}

/-- An RPC's requests are on its wire, its own first and then its flushes in order, and as
long as one has not been answered its tag is on the queue. -/
structure Tracked (w : Mounts κ) (p : Pid) (k : κ) (r : Rpc κ) : Prop where
  gone : r.sent = true → ∃ i, r.put = some i
  own : ∀ i : Nat, r.put = some i → (w.sent k)[i]? = some ⟨r.tag, none⟩
  flushes : ∀ n j : Nat, r.flush.puts[n]? = some j →
    ∃ f, r.flush.tags[n]? = some f ∧ (w.sent k)[j]? = some ⟨f, some r.tag⟩
  near : r.flush.tags.length ≤ r.flush.puts.length + 1
  lined : r.lined = true → r.flush.puts.length = r.flush.tags.length
  after : ∀ i, r.put = some i → ∀ j ∈ r.flush.puts, i < j
  sorted : r.flush.puts.Pairwise (· < ·)
  waitsOwn : r.sent = true → ∀ i, r.put = some i → ¬w.Read k i →
    (r.tag, some p) ∈ (w.muxes k).queue
  waitsFlush : ∀ (n j : Nat) (f : Tag), r.flush.puts[n]? = some j → r.flush.tags[n]? = some f →
      ¬w.Read k j →
    (f, some p) ∈ (w.muxes k).queue
  got : ∀ m, r.flush.got = some m → r.put = some m.re ∧ m ∈ (w.told k).take (w.nread k)

/-- Its tag is on the queue for nobody. -/
def Orphan (w : Mounts κ) (k : κ) (i : Nat) : Prop :=
  ∃ req, (w.sent k)[i]? = some req ∧ (req.tag, none) ∈ (w.muxes k).queue

/-- No two requests that may still be answered have one tag. -/
def Single (w : Mounts κ) (k : κ) : Prop :=
  ∀ i j req req', w.Pending k i → w.Pending k j → (w.sent k)[i]? = some req →
    (w.sent k)[j]? = some req' → req.tag = req'.tag → i = j

/-- What holds of the requests and the messages. -/
structure Ghost (w : Mounts κ) : Prop where
  serves : ∀ k, Conforms (w.sent k) (w.told k)
  tracked : ∀ p k r, w.Live p k r → w.Tracked p k r
  parked : ∀ k t m, (w.muxes k).done t = some m →
    m.tag = t ∧ m ∈ (w.told k).take (w.nread k) ∧ ∃ p r, w.Live p k r ∧ m.re ∈ r.places
  pending : ∀ k i, w.Pending k i → (∃ p r, w.Live p k r ∧ i ∈ r.places) ∨ w.Orphan k i
  single : ∀ k, w.Single k
  plain : ∀ p r, w.recs p = some r → r.sent = false → r.flush = ⟨[], false, none, []⟩

theorem mem_places : i ∈ r.places ↔ r.put = some i ∨ i ∈ r.flush.puts := by
  simp [Rpc.places]

theorem Tracked.req (tracked : w.Tracked p k r) (place : i ∈ r.places) :
    ∃ req, (w.sent k)[i]? = some req ∧ req.tag ∈ r.tags := by
  rcases mem_places.mp place with own | flush
  · exact ⟨_, tracked.own i own, tag_mem_tags r⟩
  · rcases mem_iff_getElem?.mp flush with ⟨n, at_n⟩
    rcases tracked.flushes n i at_n with ⟨f, tag, found⟩
    exact ⟨_, found, mem_cons_of_mem _ (mem_of_getElem? tag)⟩

theorem Tracked.eq_of_tag {req req' : Req} (tracked : w.Tracked p k r) (nodup : r.tags.Nodup)
    (place : i ∈ r.places) (place' : j ∈ r.places) (found : (w.sent k)[i]? = some req)
    (found' : (w.sent k)[j]? = some req') (same : req.tag = req'.tag) : i = j := by
  rcases nodup_cons.mp nodup with ⟨apart, nodupFlush⟩
  rcases mem_places.mp place with own | flush
  · obtain rfl := Option.some.inj (found.symm.trans (tracked.own i own))
    rcases mem_places.mp place' with own' | flush'
    · exact Option.some.inj (own.symm.trans own')
    · rcases mem_iff_getElem?.mp flush' with ⟨n, at_n⟩
      rcases tracked.flushes n j at_n with ⟨f, tag, there⟩
      obtain rfl := Option.some.inj (found'.symm.trans there)
      obtain rfl : r.tag = f := same
      exact absurd (mem_of_getElem? tag) apart
  · rcases mem_iff_getElem?.mp flush with ⟨n, at_n⟩
    rcases tracked.flushes n i at_n with ⟨f, tag, there⟩
    obtain rfl := Option.some.inj (found.symm.trans there)
    rcases mem_places.mp place' with own' | flush'
    · obtain rfl := Option.some.inj (found'.symm.trans (tracked.own j own'))
      obtain rfl : f = r.tag := same
      exact absurd (mem_of_getElem? tag) apart
    · rcases mem_iff_getElem?.mp flush' with ⟨n', at_n'⟩
      rcases tracked.flushes n' j at_n' with ⟨f', tag', there'⟩
      obtain rfl := Option.some.inj (found'.symm.trans there')
      obtain rfl : f = f' := same
      rcases List.getElem?_eq_some_iff.mp tag with ⟨bound, -⟩
      obtain rfl := (List.getElem?_inj bound nodupFlush).mp (tag.trans tag'.symm)
      exact Option.some.inj (at_n.symm.trans at_n')

theorem Core.eq_of_tag {req : Req} (core : w.Core) (ghost : w.Ghost) (live : w.Live p k r)
    (live' : w.Live q k r') (place : i ∈ r'.places) (found : (w.sent k)[i]? = some req)
    (tag : req.tag ∈ r.tags) : q = p ∧ r' = r := by
  rcases (ghost.tracked q k r' live').req place with ⟨req', found', tag'⟩
  obtain rfl := Option.some.inj (found.symm.trans found')
  obtain rfl := core.apart q p k r' r req.tag live' live tag' tag
  exact ⟨rfl, (live'.unique live).2⟩

theorem Tracked.mono (tracked : w.Tracked p k r)
    (sent : ∀ (i : Nat) (req : Req), (w.sent k)[i]? = some req → (w'.sent k)[i]? = some req)
    (read : ∀ m, m ∈ (w.told k).take (w.nread k) → m ∈ (w'.told k).take (w'.nread k))
    (queue : ∀ (t : Tag) (i : Nat) (req : Req), i ∈ r.places → (w.sent k)[i]? = some req →
      req.tag = t → ¬w'.Read k i →
      (t, some p) ∈ (w.muxes k).queue → (t, some p) ∈ (w'.muxes k).queue) : w'.Tracked p k r where
  __ := tracked
  own i put := sent i _ (tracked.own i put)
  flushes n j put := by
    rcases tracked.flushes n j put with ⟨f, tag, found⟩
    exact ⟨f, tag, sent j _ found⟩
  waitsOwn gone i put unread := by
    refine queue _ i _ (mem_places.mpr (.inl put)) (tracked.own i put) rfl unread
      (tracked.waitsOwn gone i put ?_)
    rintro ⟨m, member, same⟩
    exact unread ⟨m, read m member, same⟩
  waitsFlush n j f put tag unread := by
    rcases tracked.flushes n j put with ⟨f', tag', found⟩
    obtain rfl := Option.some.inj (tag.symm.trans tag')
    refine queue _ j _ (mem_places.mpr (.inr (mem_of_getElem? put))) found rfl unread
      (tracked.waitsFlush n j f put tag ?_)
    rintro ⟨m, member, same⟩
    exact unread ⟨m, read m member, same⟩
  got m got := by
    rcases tracked.got m got with ⟨put, member⟩
    exact ⟨put, read m member⟩

theorem Single.mono (single : w.Single k) (sent : w'.sent k = w.sent k)
    (pending : ∀ i, w'.Pending k i → w.Pending k i) : w'.Single k := by
  intro i j req req' waits waits' found found' same
  rw [sent] at found found'
  exact single i j req req' (pending i waits) (pending j waits') found found' same

theorem Orphan.mono (orphan : w.Orphan k i)
    (sent : ∀ (i : Nat) (req : Req), (w.sent k)[i]? = some req → (w'.sent k)[i]? = some req)
    (queue : ∀ t, (t, none) ∈ (w.muxes k).queue → (t, none) ∈ (w'.muxes k).queue) :
    w'.Orphan k i := by
  rcases orphan with ⟨req, found, lost⟩
  exact ⟨req, sent i req found, queue req.tag lost⟩

/-- What the requests and messages are, nothing having been sent or read. -/
structure Quiet (w w' : Mounts κ) : Prop where
  sent : w'.sent = w.sent
  told : w'.told = w.told
  nread : w'.nread = w.nread
  hungup : w'.hungup = w.hungup

namespace Quiet

variable (quiet : Quiet w w')
include quiet

theorem read : w'.Read k i ↔ w.Read k i := by simp only [Read, quiet.told, quiet.nread]

theorem pending : w'.Pending k i ↔ w.Pending k i := by
  simp only [Pending, Read, Answered, Flushed, quiet.sent, quiet.told, quiet.nread, quiet.hungup]

theorem orphan (orphan : w.Orphan k i)
    (queue : ∀ t, (t, none) ∈ (w.muxes k).queue → (t, none) ∈ (w'.muxes k).queue) :
    w'.Orphan k i := by
  refine orphan.mono (fun i req found => ?_) queue
  rwa [quiet.sent]

theorem single (single : w.Single k) : w'.Single k :=
  single.mono (congrFun quiet.sent k) fun _ => quiet.pending.mp

theorem tracked (before : w.Tracked p k r)
    (queue : ∀ t, (t, some p) ∈ (w.muxes k).queue → (t, some p) ∈ (w'.muxes k).queue) :
    w'.Tracked p k r := by
  refine before.mono (fun i req found => ?_) (fun m member => ?_) fun t i req _ _ _ _ => queue t
  · rwa [quiet.sent]
  · rwa [quiet.told, quiet.nread]

end Quiet

theorem Tracked.of_plain (plain : r.flush = ⟨[], false, none, []⟩)
    (gone : r.sent = true → ∃ i, r.put = some i)
    (own : ∀ i : Nat, r.put = some i → (w.sent k)[i]? = some ⟨r.tag, none⟩)
    (queued : r.sent = true → (r.tag, some p) ∈ (w.muxes k).queue) : w.Tracked p k r := by
  refine ⟨gone, own, ?_, ?_, ?_, ?_, ?_, fun sent _ _ _ => queued sent, ?_, ?_⟩
  · simp [plain]
  · simp [plain]
  · simp [plain]
  · simp [plain]
  · simp [plain]
  · simp [plain]
  · simp [plain]

theorem Ghost.retire (ghost : w.Ghost) (quiet : Quiet w w')
    (recs : ∀ q, q ≠ p → w'.recs q = w.recs q) (own : ∀ k r, w'.Live p k r → w'.Tracked p k r)
    (queue : ∀ k t o, o ≠ some p → (t, o) ∈ (w.muxes k).queue → (t, o) ∈ (w'.muxes k).queue)
    (done : ∀ k t m, (w'.muxes k).done t = some m → (w.muxes k).done t = some m ∧
      ∀ r, w.Live p k r → m.re ∉ r.places)
    (left : ∀ k r i, w.Live p k r → i ∈ r.places → w.Pending k i → w'.Orphan k i)
    (plain : ∀ r, w'.recs p = some r → r.sent = false → r.flush = ⟨[], false, none, []⟩) :
    w'.Ghost where
  serves k := by
    rw [quiet.sent, quiet.told]
    exact ghost.serves k
  plain q r found := by
    rcases eq_or_ne q p with rfl | other
    · exact plain r found
    · exact ghost.plain q r (recs q other ▸ found)
  tracked q k r live := by
    rcases eq_or_ne q p with rfl | other
    · exact own k r live
    · exact quiet.tracked (ghost.tracked q k r ((Live.congr (recs q other)).mp live))
        fun t => queue k t (some q) (by simpa using other)
  parked k t m put := by
    rcases done k t m put with ⟨before, apart⟩
    rcases ghost.parked k t m before with ⟨tag, member, q, r, live, place⟩
    rw [quiet.told, quiet.nread]
    have other : q ≠ p := by
      rintro rfl
      exact apart r live place
    exact ⟨tag, member, q, r, (Live.congr (recs q other)).mpr live, place⟩
  pending k i pending := by
    have before := quiet.pending.mp pending
    rcases ghost.pending k i before with ⟨q, r, live, place⟩ | orphan
    · rcases eq_or_ne q p with rfl | other
      · exact .inr (left k r i live place before)
      · exact .inl ⟨q, r, (Live.congr (recs q other)).mpr live, place⟩
    · exact .inr (quiet.orphan orphan fun t => queue k t none (by simp))
  single k := quiet.single (ghost.single k)

theorem Ghost.goes (ghost : w.Ghost) (live : w.Live p k r) (r' : Rpc κ) (live' : w'.Live p k r')
    (recs : ∀ q, q ≠ p → w'.recs q = w.recs q)
    (sent : w'.sent = w.sent ∨ ∃ req, w'.sent k = w.sent k ++ [req] ∧
      (∀ k', k' ≠ k → w'.sent k' = w.sent k') ∧ (w.sent k).length ∈ r'.places ∧
      ∀ i old, w.Pending k i → (w.sent k)[i]? = some old → old.tag ≠ req.tag)
    (told : w'.told = w.told) (nread : w'.nread = w.nread) (hungup : w'.hungup = w.hungup)
    (queue : ∀ k t o, o ≠ some p → (t, o) ∈ (w.muxes k).queue → (t, o) ∈ (w'.muxes k).queue)
    (done : ∀ k t m, (w'.muxes k).done t = some m → (w.muxes k).done t = some m)
    (places : ∀ i ∈ r.places, i ∈ r'.places)
    (plain : r'.sent = false → r'.flush = ⟨[], false, none, []⟩) (tracked : w'.Tracked p k r') :
    w'.Ghost := by
  have extends_ (k' : κ) : ∃ more, w'.sent k' = w.sent k' ++ more := by
    rcases sent with same | ⟨req, here, away, -, -⟩
    · exact ⟨[], by rw [same, append_nil]⟩
    · rcases eq_or_ne k' k with rfl | other
      · exact ⟨[req], here⟩
      · exact ⟨[], by rw [away k' other, append_nil]⟩
  have keeps (k' : κ) (i : Nat) (req : Req) (found : (w.sent k')[i]? = some req) :
      (w'.sent k')[i]? = some req := by
    rcases extends_ k' with ⟨more, same⟩
    rw [same, List.getElem?_append_left (List.getElem?_eq_some_iff.mp found).1]
    exact found
  have carried {q : Pid} {k' : κ} {i : Nat} {r'' : Rpc κ} (there : w.Live q k' r'')
      (place : i ∈ r''.places) : ∃ q r, w'.Live q k' r ∧ i ∈ r.places := by
    rcases eq_or_ne q p with rfl | other
    · rcases live.unique there with ⟨rfl, rfl⟩
      exact ⟨q, r', live', places i place⟩
    · exact ⟨q, r'', (Live.congr (recs q other)).mpr there, place⟩
  have before {k' : κ} {i : Nat} (pending : w'.Pending k' i) (old : i < (w.sent k').length) :
      w.Pending k' i := by
    rcases pending with ⟨-, unread, answer⟩
    refine ⟨old, by simpa only [Read, told, nread] using unread, ?_⟩
    rcases answer with answered | ⟨unflushed, open_⟩
    · left
      simpa only [Answered, told] using answered
    · right
      rw [hungup] at open_
      refine ⟨?_, open_⟩
      rintro ⟨req, found, plain, j, f, later, found', flushes, answered⟩
      refine unflushed
        ⟨req, keeps k' i req found, plain, j, f, later, keeps k' j f found', flushes, ?_⟩
      simpa only [Answered, told] using answered
  have new {k' : κ} {i : Nat} {req : Req} (found : (w'.sent k')[i]? = some req) :
      (w.sent k')[i]? = some req ∨ k' = k ∧ i = (w.sent k).length ∧ i ∈ r'.places ∧
        ∀ i old, w.Pending k i → (w.sent k)[i]? = some old → old.tag ≠ req.tag := by
    rcases sent with same | ⟨req', here, away, place, apart⟩
    · left
      rwa [same] at found
    · rcases eq_or_ne k' k with rfl | other
      · rw [here] at found
        rcases Nat.lt_or_ge i (w.sent k').length with inside | outside
        · left
          rwa [List.getElem?_append_left inside] at found
        · have bound := (List.getElem?_eq_some_iff.mp found).1
          rw [length_append, length_singleton] at bound
          obtain rfl : i = (w.sent k').length := by omega
          right
          rw [List.getElem?_concat_length] at found
          obtain rfl := Option.some.inj found
          exact ⟨rfl, rfl, place, apart⟩
      · left
        rwa [away k' other] at found
  have inside {k' : κ} {i : Nat} {req : Req} (found : (w.sent k')[i]? = some req) :
      i < (w.sent k').length := (List.getElem?_eq_some_iff.mp found).1
  refine ⟨fun k' => ?_, fun q k' r'' there => ?_, fun k' t m put => ?_, fun k' i pending => ?_,
    fun k' i j req req' pending pending' found found' same => ?_, fun q r'' found => ?_⟩
  · rw [told]
    rcases sent with same | ⟨req, here, away, -, -⟩
    · rw [same]
      exact ghost.serves k'
    · rcases eq_or_ne k' k with rfl | other
      · rw [here]
        exact (ghost.serves k').send req
      · rw [away k' other]
        exact ghost.serves k'
  · rcases eq_or_ne q p with rfl | other
    · rcases live'.unique there with ⟨rfl, rfl⟩
      exact tracked
    · refine (ghost.tracked q k' r'' ((Live.congr (recs q other)).mp there)).mono (keeps k') ?_ ?_
      · intro m member
        rwa [told, nread]
      · exact fun t i req _ _ _ _ => queue k' t (some q) (by simpa using other)
  · rcases ghost.parked k' t m (done k' t m put) with ⟨tag, member, q, r'', there, place⟩
    rw [told, nread]
    exact ⟨tag, member, carried there place⟩
  · rcases new (List.getElem?_eq_getElem pending.1) with old | ⟨rfl, -, place, -⟩
    · rcases ghost.pending k' i (before pending (inside old)) with ⟨q, r'', there, place⟩ | orphan
      · exact .inl (carried there place)
      · exact .inr (orphan.mono (keeps k') fun t => queue k' t none (by simp))
    · exact .inl ⟨p, r', live', place⟩
  · rcases new found with old | ⟨rfl, rfl, -, apart⟩
    · rcases new found' with old' | ⟨rfl, rfl, -, apart⟩
      · exact ghost.single k' i j req req' (before pending (inside old))
          (before pending' (inside old')) old old' same
      · exact absurd same (apart i req (before pending (inside old)) old)
    · rcases new found' with old' | ⟨-, rfl, -, -⟩
      · exact absurd same.symm (apart j req' (before pending' (inside old')) old')
      · rfl
  · rcases eq_or_ne q p with rfl | other
    · obtain rfl := Option.some.inj (live'.1.symm.trans found)
      exact plain
    · exact ghost.plain q r'' (recs q other ▸ found)

theorem Ghost.same (ghost : w.Ghost) (quiet : Quiet w w') (recs : w'.recs = w.recs)
    (queue : ∀ k, (w'.muxes k).queue = (w.muxes k).queue)
    (done : ∀ k, (w'.muxes k).done = (w.muxes k).done) : w'.Ghost where
  serves k := by
    rw [quiet.sent, quiet.told]
    exact ghost.serves k
  tracked p k r live := by
    refine quiet.tracked (ghost.tracked p k r ((Live.congr (congrFun recs p)).mp live)) fun t => ?_
    rw [queue k]
    exact id
  parked k t m put := by
    rw [done k] at put
    rcases ghost.parked k t m put with ⟨tag, member, p, r, live, place⟩
    rw [quiet.told, quiet.nread]
    exact ⟨tag, member, p, r, (Live.congr (congrFun recs p)).mpr live, place⟩
  pending k i pending := by
    rcases ghost.pending k i (quiet.pending.mp pending) with ⟨p, r, live, place⟩ | orphan
    · exact .inl ⟨p, r, (Live.congr (congrFun recs p)).mpr live, place⟩
    · refine .inr (quiet.orphan orphan fun t => ?_)
      rw [queue k]
      exact id
  single k := quiet.single (ghost.single k)
  plain p r found := ghost.plain p r (congrFun recs p ▸ found)

theorem Ghost.begun (ghost : w.Ghost) (quiet : Quiet w w') (live' : w'.Live p k r)
    (recs : ∀ q, q ≠ p → w'.recs q = w.recs q) (bare : r.put = none) (notSent : r.sent = false)
    (noflush : r.flush = ⟨[], false, none, []⟩)
    (queue : ∀ k, (w'.muxes k).queue = (w.muxes k).queue)
    (done : ∀ k t m, (w'.muxes k).done t = some m → (w.muxes k).done t = some m ∧
      ∀ r, w.Live p k r → m.re ∉ r.places)
    (settled : ∀ k r i, w.Live p k r → i ∈ r.places → ¬w.Pending k i) : w'.Ghost := by
  refine ghost.retire quiet recs (fun k' r' live => ?_) (fun k' t o _ => ?_) done
    (fun k r i live place pending => absurd pending (settled k r i live place)) fun r' found => ?_
  · rcases live'.unique live with ⟨rfl, rfl⟩
    exact .of_plain noflush (by simp [notSent]) (by simp [bare]) (by simp [notSent])
  · rw [queue k']
    exact id
  · obtain rfl := Option.some.inj (live'.1.symm.trans found)
    exact fun _ => noflush

variable [DecidableEq κ]

theorem take_read {k' : κ} (w : Mounts κ) (k : κ) (member : m ∈ (w.told k').take (w.nread k')) :
    m ∈ ((w.read k).told k').take ((w.read k).nread k') := by
  rcases eq_or_ne k' k with rfl | away
  · simp only [read, Function.update_self]
    exact (take_subset_take_left _ (Nat.le_succ _)) member
  · simpa [read, away] using member

theorem pending_read (w : Mounts κ) (k : κ) (pending : (w.read k).Pending k' i) :
    w.Pending k' i := by
  rcases pending with ⟨bound, unread, answer⟩
  refine ⟨bound, ?_, answer⟩
  rintro ⟨m, member, same⟩
  exact unread ⟨m, take_read w k member, same⟩

theorem read_next (next : (w.told k)[w.nread k]? = some m) : (w.read k).Read k m.re := by
  refine ⟨m, ?_, rfl⟩
  simp only [read, Function.update_self]
  rcases List.getElem?_eq_some_iff.mp next with ⟨bound, found⟩
  exact mem_take_iff_getElem.mpr ⟨w.nread k, by omega, found⟩

variable (ghost : w.Ghost)

include ghost

theorem Ghost.read (k : κ) : (w.read k).Ghost where
  __ := ghost
  tracked p k' r live := by
    refine (ghost.tracked p k' r live).mono (fun _ _ found => found) (fun m => take_read w k) ?_
    exact fun _ _ _ _ _ _ _ member => member
  parked k' t m put := by
    rcases ghost.parked k' t m put with ⟨tag, member, owner⟩
    exact ⟨tag, take_read w k member, owner⟩
  pending k' i pending := ghost.pending k' i (pending_read w k pending)
  single k' := (ghost.single k').mono rfl fun _ => pending_read w k

omit [DecidableEq κ] in
theorem Ghost.next (next : (w.told k)[w.nread k]? = some m) : w.Pending k m.re := by
  have member : m ∈ w.told k := mem_of_getElem? next
  refine ⟨(ghost.serves k).lt_length member, ?_, .inl ⟨m, member, rfl⟩⟩
  rintro ⟨m', before, same⟩
  exact (ghost.serves k).apart before next same

/-- Once it is read nothing that may still be answered has its tag. -/
theorem Ghost.spent (next : (w.told k)[w.nread k]? = some m) :
    ∀ i req, (w.read k).Pending k i → (w.sent k)[i]? = some req → req.tag ≠ m.tag := by
  intro i req pending found same
  rcases (ghost.serves k).req_of_mem (mem_of_getElem? next) with ⟨req', found', tag⟩
  obtain rfl := ghost.single k i m.re req req' (pending_read w k pending) (ghost.next next)
      found found'
    (same.trans tag.symm)
  exact pending.2.1 (read_next next)

theorem Ghost.taken (t : Tag)
    (read : ∀ p r i req, w.Live p k r → i ∈ r.places → (w.sent k)[i]? = some req → req.tag = t →
      w.Read k i)
    (gone : ∀ i req, w.Pending k i → (w.sent k)[i]? = some req → req.tag ≠ t) :
    (w.taken k t).Ghost where
  __ := ghost
  pending k' i pending := by
    rcases ghost.pending k' i pending with live | ⟨req, found, lost⟩
    · exact .inl live
    · refine .inr ⟨req, found, ?_⟩
      rcases eq_or_ne k' k with rfl | away
      · simp only [Mounts.taken, onMux_self]
        exact (Mux.mem_eraseP_iff (gone i req pending found)).mpr lost
      · simpa [Mounts.taken, onMux_other _ _ _ away] using lost
  tracked p k' r live := by
    refine (ghost.tracked p k' r live).mono (fun _ _ found => found) (fun _ => id) ?_
    intro s i req place found tag unread member
    rcases eq_or_ne k' k with rfl | away
    · simp only [Mounts.taken, onMux_self]
      refine (Mux.mem_eraseP_iff fun same => unread ?_).mpr member
      exact read p r i req live place found (tag.trans same)
    · simpa [Mounts.taken, onMux_other _ _ _ away] using member
  parked k' s m put := by
    refine ghost.parked k' s m ?_
    rcases eq_or_ne k' k with rfl | away
    · simpa [Mounts.taken] using put
    · simpa [Mounts.taken, onMux_other _ _ _ away] using put

theorem Ghost.park (live : w.Live q k r) (place : m.re ∈ r.places)
    (member : m ∈ (w.told k).take (w.nread k)) :
    (w.onMux k fun mux => { mux with done := Function.update mux.done m.tag (some m) }).Ghost where
  __ := ghost
  pending k' i pending := by
    refine (ghost.pending k' i pending).imp_right fun orphan =>
        orphan.mono (fun _ _ => id) fun t => ?_
    rcases eq_or_ne k' k with rfl | away
    · simp
    · simp [onMux_other _ _ _ away]
  tracked p k' r live := by
    refine (ghost.tracked p k' r live).mono (fun _ _ found => found) (fun _ => id) ?_
    intro s i req _ _ _ _ queued
    rcases eq_or_ne k' k with rfl | away
    · simpa using queued
    · simpa [onMux_other _ _ _ away] using queued
  parked k' s m' put := by
    rcases eq_or_ne k' k with rfl | away
    · simp only [onMux_self] at put
      rcases eq_or_ne s m.tag with rfl | apart
      · obtain rfl : m = m' := by simpa using put
        exact ⟨rfl, member, q, r, live, place⟩
      · exact ghost.parked k' s m' (by simpa [apart] using put)
    · rw [onMux_other _ _ _ away] at put
      exact ghost.parked k' s m' put

theorem Ghost.tell (answers : Answerable (w.sent k) (w.told k) m)
    (isOpen : w.hungup k = false) : (w.tell k m).Ghost := by
  have told (k' : κ) : ∃ more, (w.tell k m).told k' = w.told k' ++ more := by
    rcases eq_or_ne k' k with rfl | away
    · exact ⟨[m], by simp [Mounts.tell]⟩
    · exact ⟨[], by simp [Mounts.tell, away]⟩
  have take (k' : κ) (m' : Msg) (member : m' ∈ (w.told k').take (w.nread k')) :
      m' ∈ ((w.tell k m).told k').take (w.nread k') := by
    rcases told k' with ⟨more, same⟩
    rw [same, take_append]
    exact mem_append_left _ member
  have unread {k' : κ} {i : Nat} (after : ¬(w.tell k m).Read k' i) : ¬w.Read k' i := by
    rintro ⟨m', member, same⟩
    exact after ⟨m', take k' m' member, same⟩
  have before {k' : κ} {i : Nat} (pending : (w.tell k m).Pending k' i) : w.Pending k' i := by
    rcases pending with ⟨bound, notRead, answer⟩
    refine ⟨bound, unread notRead, ?_⟩
    rcases answer with ⟨m', member, same⟩ | ⟨unflushed, open_⟩
    · rcases eq_or_ne k' k with rfl | away
      · simp only [Mounts.tell, Function.update_self, mem_append, mem_singleton] at member
        rcases member with before | rfl
        · exact .inl ⟨m', before, same⟩
        · right
          refine ⟨?_, isOpen⟩
          rintro ⟨req, found, plain, j, f, later, found', flushes, ⟨m, before, answered⟩⟩
          subst same
          exact answers.unflushed req found plain j f later found' flushes m before answered
      · simp only [Mounts.tell, Function.update_of_ne away] at member
        exact .inl ⟨m', member, same⟩
    · right
      refine ⟨?_, open_⟩
      rintro ⟨req, found, plain, j, f, later, found', flushes, ⟨m', before, same⟩⟩
      rcases told k' with ⟨more, all⟩
      exact unflushed ⟨req, found, plain, j, f, later, found', flushes,
        ⟨m', by rw [all]; exact mem_append_left _ before, same⟩⟩
  refine ⟨fun k' => ?_, fun p k' r live => ?_, fun k' t m' put => ?_,
    fun k' i pending => ghost.pending k' i (before pending),
    fun k' => (ghost.single k').mono rfl fun _ => before, ghost.plain⟩
  · rcases eq_or_ne k' k with rfl | away
    · simpa [Mounts.tell] using (ghost.serves k').append answers
    · simpa [Mounts.tell, away] using ghost.serves k'
  · exact (ghost.tracked p k' r live).mono (fun _ _ found => found) (take k')
      fun _ _ _ _ _ _ _ member => member
  · rcases ghost.parked k' t m' put with ⟨tag, member, owner⟩
    exact ⟨tag, take k' m' member, owner⟩

omit ghost in
theorem pending_hangup (w : Mounts κ) (k : κ)
    (pending : Pending { w with hungup := Function.update w.hungup k true } k' i) :
    w.Pending k' i := by
  rcases pending with ⟨bound, unread, answer⟩
  refine ⟨bound, unread, answer.imp_right ?_⟩
  rintro ⟨unflushed, isOpen⟩
  rcases eq_or_ne k' k with rfl | away
  · simp at isOpen
  · exact ⟨unflushed, by simpa [away] using isOpen⟩

theorem Ghost.hangup (k : κ) : Ghost { w with hungup := Function.update w.hungup k true } where
  __ := ghost
  tracked p k' r live := (ghost.tracked p k' r live).mono (fun _ _ found => found) (fun _ => id)
    fun _ _ _ _ _ _ _ member => member
  pending k' i pending := ghost.pending k' i (pending_hangup w k pending)
  single k' := (ghost.single k').mono rfl fun _ => pending_hangup w k

omit [DecidableEq κ] in
theorem Ghost.settled (live : w.Live p k r) (newest : Nat)
    (last : r.flush.puts.getLast? = some newest) (read : w.Read k newest) :
    ∀ i ∈ r.places, ¬w.Pending k i := by
  have tracked := ghost.tracked p k r live
  have isLast : newest ∈ r.flush.puts := mem_of_getLast? last
  rcases mem_iff_getElem?.mp isLast with ⟨n, at_n⟩
  rcases tracked.flushes n newest at_n with ⟨f, -, found⟩
  rintro i place ⟨-, unread, answer⟩
  apply unread
  rcases mem_places.mp place with own | flush
  · have before := tracked.after i own newest isLast
    have isOwn := tracked.own i own
    have told : w.Answered k i := by
      rcases answer with answered | ⟨unflushed, -⟩
      · exact answered
      · rcases read with ⟨m, member, same⟩
        exact absurd ⟨_, isOwn, rfl, newest, _, before, found, rfl, m, mem_of_mem_take member,
          same⟩ unflushed
    exact (ghost.serves k).read_of_flush isOwn rfl before found rfl read told
  · rcases mem_iff_getElem?.mp flush with ⟨n', at_n'⟩
    rcases tracked.flushes n' i at_n' with ⟨f', -, found'⟩
    rcases eq_or_ne i newest with rfl | other
    · exact read
    · have before : i < newest := by
        rcases List.getLast?_eq_some_iff.mp last with ⟨init, whole⟩
        rw [whole] at flush
        have sorted := tracked.sorted
        rw [whole] at sorted
        rcases mem_append.mp flush with old | isNewest
        · exact (pairwise_append.mp sorted).2.2 i old newest (by simp)
        · exact absurd (by simpa using isNewest) other
      exact (ghost.serves k).read_of_later found' rfl before found rfl read

end Mounts

end Ipnx.Mnt
