import Mathlib.Data.List.Nodup
import Mathlib.Data.List.Perm.Basic

/-!
# Exchanges

Those who come are paired by a key: one who finds another waiting with its key is met with it,
and one who finds nobody waits, to be met or to leave. Everyone who came is in one place, and
the partner of one who was met is settled by the meeting.
-/

namespace Ipnx

open List

universe u v

/-- Everyone who came, by their places in the order they came in. -/
structure Exchange (α : Type u) where
  asks : List α
  waits : List Nat
  /-- Who waited, and who came. -/
  met : List (Nat × Nat)
  left : List Nat

namespace Exchange

variable {α : Type u} {κ : Type v} [DecidableEq κ] {key : α → κ} {e : Exchange α} {k : κ}
  {m n : Nat} {a b : α}

def empty : Exchange α := ⟨[], [], [], []⟩

def partner (key : α → κ) (e : Exchange α) (k : κ) : Option Nat :=
  e.waits.find? fun n => e.asks[n]?.any fun a => key a = k

def arrive (key : α → κ) (e : Exchange α) (a : α) : Exchange α :=
  match e.partner key (key a) with
  | some m =>
      { e with
        asks := e.asks ++ [a]
        waits := e.waits.erase m
        met := e.met ++ [(m, e.asks.length)] }
  | none => { e with asks := e.asks ++ [a], waits := e.waits ++ [e.asks.length] }

def withdraw (e : Exchange α) (stays : Nat → Bool) : Exchange α :=
  { e with
    waits := e.waits.filter stays
    left := e.left ++ e.waits.filter fun n => !stays n }

def places (e : Exchange α) : List Nat :=
  e.waits ++ (e.met.map Prod.fst ++ (e.met.map Prod.snd ++ e.left))

def Partners (e : Exchange α) (m n : Nat) : Prop := (m, n) ∈ e.met ∨ (n, m) ∈ e.met

structure Inv (key : α → κ) (e : Exchange α) : Prop where
  /-- Everyone who came is in one place. -/
  placed : e.places.Perm (List.range e.asks.length)
  /-- No two that wait have one key. -/
  apart : ∀ m ∈ e.waits, ∀ n ∈ e.waits, ∀ a b, e.asks[m]? = some a → e.asks[n]? = some b →
    key a = key b → m = n
  paired : ∀ m n, (m, n) ∈ e.met → ∃ a b, e.asks[m]? = some a ∧ e.asks[n]? = some b ∧
    key a = key b

omit [DecidableEq κ] in
theorem inv_empty : Inv key (empty : Exchange α) := by
  refine ⟨.refl _, ?_, ?_⟩ <;> simp [empty]

omit [DecidableEq κ] in
theorem Inv.nodup (inv : Inv key e) : e.places.Nodup :=
  inv.placed.nodup_iff.mpr nodup_range

omit [DecidableEq κ] in
theorem Inv.known (inv : Inv key e) (there : n ∈ e.places) : n < e.asks.length :=
  mem_range.mp (inv.placed.mem_iff.mp there)

theorem mem_places : n ∈ e.places ↔
    n ∈ e.waits ∨ n ∈ e.met.map Prod.fst ∨ n ∈ e.met.map Prod.snd ∨ n ∈ e.left := by
  simp only [places, mem_append]

theorem Partners.symm (partners : e.Partners m n) : e.Partners n m := Or.symm partners

theorem Partners.mem (partners : e.Partners m n) :
    m ∈ e.met.map Prod.fst ∨ m ∈ e.met.map Prod.snd := by
  rcases partners with first | second
  · exact .inl (mem_map.mpr ⟨_, first, rfl⟩)
  · exact .inr (mem_map.mpr ⟨_, second, rfl⟩)

omit [DecidableEq κ] in
/-- One who was met is met once. -/
theorem Inv.partner_unique (inv : Inv key e) {n' : Nat} (first : e.Partners m n)
    (second : e.Partners m n') : n = n' := by
  have nodup := inv.nodup
  rw [places, nodup_append, nodup_append, nodup_append] at nodup
  rcases nodup with ⟨-, ⟨firsts, ⟨seconds, -, -⟩, apart⟩, -⟩
  have clash (x : Nat) (fst : x ∈ e.met.map Prod.fst) (snd : x ∈ e.met.map Prod.snd) : False :=
    apart x fst x (mem_append_left _ snd) rfl
  rcases first with here | here <;> rcases second with there | there
  · exact congrArg Prod.snd (inj_on_of_nodup_map firsts here there rfl)
  · exact absurd (mem_map.mpr ⟨_, there, rfl⟩)
      (clash m (mem_map.mpr ⟨_, here, rfl⟩))
  · exact absurd (mem_map.mpr ⟨_, here, rfl⟩)
      (clash m (mem_map.mpr ⟨_, there, rfl⟩))
  · exact congrArg Prod.fst (inj_on_of_nodup_map seconds here there rfl)

omit [DecidableEq κ] in
/-- Who waits was not met, and has not left. -/
theorem Inv.waiting (inv : Inv key e) (waits : n ∈ e.waits) :
    (∀ m, ¬e.Partners n m) ∧ n ∉ e.left := by
  have nodup := inv.nodup
  rw [places, nodup_append] at nodup
  refine ⟨fun m partners => ?_, fun gone => ?_⟩
  · apply nodup.2.2 n waits n _ rfl
    rcases partners.mem with first | second
    · exact mem_append_left _ first
    · exact mem_append_right _ (mem_append_left _ second)
  · apply nodup.2.2 n waits n _ rfl
    exact mem_append_right _ (mem_append_right _ gone)

omit [DecidableEq κ] in
/-- Who left was not met. -/
theorem Inv.gone (inv : Inv key e) (gone : n ∈ e.left) (m : Nat) : ¬e.Partners n m := by
  intro partners
  have nodup := inv.nodup
  rw [places, nodup_append, nodup_append, nodup_append] at nodup
  rcases nodup with ⟨-, ⟨-, ⟨-, -, seconds⟩, firsts⟩, -⟩
  rcases partners.mem with first | second
  · exact firsts n first n (mem_append_right _ gone) rfl
  · exact seconds n second n gone rfl

/-- Who waits with a key is found. -/
theorem Inv.partner_eq (inv : Inv key e) (waits : m ∈ e.waits) (here : e.asks[m]? = some a) :
    e.partner key (key a) = some m := by
  rcases found : e.partner key (key a) with _ | n
  · have none := List.find?_eq_none.mp found m waits
    simp [here] at none
  · have same := List.find?_some found
    have member := mem_of_find?_eq_some found
    rcases there : e.asks[n]? with _ | b
    · simp [there] at same
    · have keys : key b = key a := by simpa [there] using same
      rw [inv.apart n member m waits b a there here keys]

theorem partner_some (found : e.partner key k = some m) :
    m ∈ e.waits ∧ ∃ a, e.asks[m]? = some a ∧ key a = k := by
  refine ⟨mem_of_find?_eq_some found, ?_⟩
  have same := List.find?_some found
  rcases there : e.asks[m]? with _ | b
  · simp [there] at same
  · exact ⟨b, rfl, by simpa [there] using same⟩

theorem partner_none (absent : e.partner key k = none) (waits : m ∈ e.waits)
    (here : e.asks[m]? = some a) : key a ≠ k := by
  intro same
  have none := List.find?_eq_none.mp absent m waits
  simp [here, same] at none

theorem arrive_met (found : e.partner key (key a) = some m) : e.arrive key a =
    { e with
      asks := e.asks ++ [a]
      waits := e.waits.erase m
      met := e.met ++ [(m, e.asks.length)] } := by
  rw [arrive, found]

theorem arrive_wait (absent : e.partner key (key a) = none) : e.arrive key a =
    { e with asks := e.asks ++ [a], waits := e.waits ++ [e.asks.length] } := by
  rw [arrive, absent]

/-- Those who came before keep their places in the order. -/
theorem asks_arrive (here : e.asks[m]? = some a) : (e.arrive key b).asks[m]? = some a := by
  have before := (List.getElem?_eq_some_iff.mp here).1
  have grown : (e.asks ++ [b])[m]? = some a := by
    rw [List.getElem?_append_left before]
    exact here
  rw [arrive]
  split <;> exact grown

theorem asks_arrive_self : (e.arrive key a).asks[e.asks.length]? = some a := by
  rw [arrive]
  split <;> simp

theorem length_arrive : (e.arrive key a).asks.length = e.asks.length + 1 := by
  rw [arrive]
  split <;> simp

theorem Inv.arrive (inv : Inv key e) (a : α) : Inv key (e.arrive key a) := by
  have old {m : Nat} {x : α} (there : m ∈ e.places) (here : (e.asks ++ [a])[m]? = some x) :
      e.asks[m]? = some x := by
    rwa [List.getElem?_append_left (inv.known there)] at here
  have pairs (m n : Nat) (member : (m, n) ∈ e.met) : ∃ x y,
      (e.asks ++ [a])[m]? = some x ∧ (e.asks ++ [a])[n]? = some y ∧ key x = key y := by
    rcases inv.paired m n member with ⟨x, y, first, second, same⟩
    refine ⟨x, y, ?_, ?_, same⟩
    · rw [List.getElem?_append_left (List.getElem?_eq_some_iff.mp first).1]
      exact first
    · rw [List.getElem?_append_left (List.getElem?_eq_some_iff.mp second).1]
      exact second
  have range : (List.range (e.asks ++ [a]).length) =
      List.range e.asks.length ++ [e.asks.length] := by
    rw [length_append, length_singleton, range_succ]
  rw [Exchange.arrive]
  split
  case h_1 m found =>
    rcases partner_some found with ⟨waits, x, here, same⟩
    refine ⟨?_, fun p first q second => ?_, fun p q member => ?_⟩
    · rw [range]
      refine List.Perm.trans ?_ (inv.placed.append_right [e.asks.length])
      simp only [places, map_append, map_cons, map_nil]
      refine List.Perm.trans ?_ (((perm_cons_erase waits).symm.append_right _).append_right _)
      rw [perm_iff_count]
      intro x
      simp only [count_append, count_cons, count_nil]
      omega
    · intro x y here' there'
      have first' := mem_of_mem_erase first
      have second' := mem_of_mem_erase second
      exact inv.apart p first' q second' x y (old (mem_places.mpr (.inl first')) here')
        (old (mem_places.mpr (.inl second')) there')
    · rcases mem_append.mp member with before | last
      · exact pairs p q before
      · simp only [mem_singleton, Prod.mk.injEq] at last
        rcases last with ⟨rfl, rfl⟩
        refine ⟨x, a, ?_, by simp, same⟩
        rw [List.getElem?_append_left (List.getElem?_eq_some_iff.mp here).1]
        exact here
  case h_2 absent =>
    refine ⟨?_, fun p first q second => ?_, pairs⟩
    · rw [range]
      refine List.Perm.trans ?_ (inv.placed.append_right [e.asks.length])
      rw [perm_iff_count]
      intro x
      simp only [places, count_append, count_cons, count_nil]
      omega
    · intro x y here there same
      have mine {z : α} (at_ : (e.asks ++ [a])[e.asks.length]? = some z) : a = z := by
        simpa using at_
      rcases mem_append.mp first with first | first <;>
        rcases mem_append.mp second with second | second
      · exact inv.apart p first q second x y (old (mem_places.mpr (.inl first)) here)
          (old (mem_places.mpr (.inl second)) there) same
      · obtain rfl := mem_singleton.mp second
        obtain rfl := mine there
        exact absurd same (partner_none absent first (old (mem_places.mpr (.inl first)) here))
      · obtain rfl := mem_singleton.mp first
        obtain rfl := mine here
        exact absurd same.symm
          (partner_none absent second (old (mem_places.mpr (.inl second)) there))
      · exact (mem_singleton.mp first).trans (mem_singleton.mp second).symm

omit [DecidableEq κ] in
theorem Inv.withdraw (inv : Inv key e) (stays : Nat → Bool) : Inv key (e.withdraw stays) where
  placed := by
    refine List.Perm.trans ?_ inv.placed
    have split := filter_append_perm stays e.waits
    rw [perm_iff_count] at split ⊢
    intro x
    have counts := split x
    simp only [places, Exchange.withdraw, count_append] at counts ⊢
    omega
  apart m first n second := by
    exact inv.apart m (mem_filter.mp first).1 n (mem_filter.mp second).1
  paired := inv.paired

end Exchange

end Ipnx
