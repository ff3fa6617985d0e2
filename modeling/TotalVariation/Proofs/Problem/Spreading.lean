import Mathlib
import TotalVariation.Problem.Proximal

/-! # Spreading arguments

Single numbers and lists of one entry are repeated where they are combined with longer lists. What
is combined has the length of the longest list, and at each place it reads an entry of each
argument.
-/

namespace TotalVariation

/-- The array of the values that a function has at the entries. -/
def Tensor.map {β γ : Type} (f : β → γ) (t : Tensor β) : Tensor γ := ⟨t.shape, t.entries.map f⟩

namespace Proximal

variable {α β γ : Type} {n : Nat} {t : Tensor β}

/-- A single number, or a list of one or `n` entries. -/
inductive IsSpread (n : Nat) (t : Tensor β) : Prop where
  | number : t.shape = [] → t.entries.size = 1 → IsSpread n t
  | list : t.shape = [t.entries.size] → t.entries.size = n ∨ t.entries.size = 1 → IsSpread n t

@[simp] theorem lengthOf_map (f : β → γ) (t : Tensor β) : lengthOf (t.map f) = lengthOf t := by
  simp [lengthOf, Tensor.rank, Tensor.map]

theorem IsSpread.size_eq (h : IsSpread n t) : t.entries.size = n ∨ t.entries.size = 1 := by
  cases h with
  | number _ hsize => exact .inr hsize
  | list _ hsize => exact hsize

theorem IsSpread.lengthOf_eq (h : IsSpread n t) :
    lengthOf t = none ∨ lengthOf t = some 1 ∨ lengthOf t = some n := by
  cases h with
  | number hshape _ => simp [lengthOf, Tensor.rank, hshape]
  | list hshape hsize =>
      rcases hsize with hsize | hsize <;> simp [lengthOf, Tensor.rank, hshape, hsize]

theorem IsSpread.lengthOf_eq_some (h : IsSpread n t) (hshape : t.shape = [n]) :
    lengthOf t = some n := by
  cases h with
  | number hnone _ => simp [hshape] at hnone
  | list hlist _ =>
      have hsize : n = t.entries.size := by simpa [hshape] using hlist
      simp [lengthOf, Tensor.rank, hshape, ← hsize]

/-- Lengths of arguments, none for a single number, that fit `n` places and no fewer. -/
structure FillPlaces (n : Nat) (lengths : List (Option Nat)) : Prop where
  fits : ∀ m ∈ lengths, m = none ∨ m = some 1 ∨ m = some n
  filled : n = 1 ∨ some n ∈ lengths

/-- Two lengths that fit combine to one that fits, and to the number of places if one is that. -/
theorem exists_combined {first second : Option Nat}
    (hfirst : first = none ∨ first = some 1 ∨ first = some n)
    (hsecond : second = none ∨ second = some 1 ∨ second = some n) (rest : List (Option Nat)) :
    ∃ m : Option Nat, (m = none ∨ m = some 1 ∨ m = some n) ∧
      (first = some n ∨ second = some n → m = some n) ∧
      commonLength? (α := α) (first :: second :: rest) = commonLength? (m :: rest) := by
  cases first with
  | none => exact ⟨second, hsecond, fun h => h.resolve_left (by simp), by cases second <;> rfl⟩
  | some a =>
      cases second with
      | none => exact ⟨some a, hfirst, fun h => h.resolve_right (by simp), rfl⟩
      | some b =>
          have hpair : ∀ k, TotalVariation.commonLength? a b = some k →
              commonLength? (α := α) (some a :: some b :: rest) = commonLength? (some k :: rest) := by
            intro k hk
            simp only [commonLength?, List.foldlM_cons, pure_bind, hk]
          simp only [reduceCtorEq, Option.some.injEq, false_or] at hfirst hsecond ⊢
          refine ⟨some (if a = 1 then b else a), ?_, ?_, hpair _ ?_⟩
          · split <;> simpa
          · grind
          · unfold TotalVariation.commonLength?
            grind

/-- Lengths that fill the places of an answer combine to the length of the answer. -/
theorem FillPlaces.commonLength?_eq {lengths : List (Option Nat)} (h : FillPlaces n lengths) :
    ∃ length, commonLength? (α := α) lengths = .ok length ∧ length.getD 1 = n := by
  have hall : ∀ (rest : List (Option Nat)) (first : Option Nat),
      (∀ m ∈ first :: rest, m = none ∨ m = some 1 ∨ m = some n) →
      ∃ length, commonLength? (α := α) (first :: rest) = .ok length ∧
        (length = none ∨ length = some 1 ∨ length = some n) ∧
        (some n ∈ first :: rest → length = some n) := by
    intro rest
    induction rest with
    | nil =>
        intro first hfits
        refine ⟨first, by cases first <;> rfl, hfits first List.mem_cons_self, fun hmem => ?_⟩
        exact (List.mem_singleton.mp hmem).symm
    | cons second rest ih =>
        intro first hfits
        rw [List.forall_mem_cons, List.forall_mem_cons] at hfits
        obtain ⟨m, hm, hfilled, heq⟩ := exists_combined (α := α) hfits.1 hfits.2.1 rest
        obtain ⟨length, hok, hlength, hlast⟩ :=
          ih m (List.forall_mem_cons.mpr ⟨hm, hfits.2.2⟩)
        refine ⟨length, heq.trans hok, hlength, fun hmem => hlast ?_⟩
        rcases List.mem_cons.mp hmem with hfirst | hmem
        · exact hfilled (.inl hfirst.symm) ▸ List.mem_cons_self
        · rcases List.mem_cons.mp hmem with hsecond | hrest
          · exact hfilled (.inr hsecond.symm) ▸ List.mem_cons_self
          · exact List.mem_cons_of_mem _ hrest
  -- a first argument without a length changes nothing
  obtain ⟨length, hok, hfits, hlast⟩ := hall lengths none
    (List.forall_mem_cons.mpr ⟨.inl rfl, h.fits⟩)
  refine ⟨length, hok, ?_⟩
  rcases h.filled with rfl | hfilled
  · rcases hfits with rfl | rfl | rfl <;> rfl
  · rw [hlast (List.mem_cons_of_mem _ hfilled)]
    rfl

theorem fillPlaces_map {args : List (Tensor β)} (hspread : ∀ t ∈ args, IsSpread n t)
    (hfilled : n = 1 ∨ ∃ t ∈ args, t.shape = [n]) : FillPlaces n (args.map lengthOf) where
  fits m hm := by
    obtain ⟨t, ht, rfl⟩ := List.mem_map.mp hm
    exact (hspread t ht).lengthOf_eq
  filled := by
    refine hfilled.imp id ?_
    rintro ⟨t, ht, hshape⟩
    exact List.mem_map.mpr ⟨t, ht, (hspread t ht).lengthOf_eq_some hshape⟩

theorem map_tabulate {f : Nat → β} {g : β → γ} {f' : Nat → γ} (h : ∀ i < n, g (f i) = f' i) :
    (Vec.tabulate n f).map g = Vec.tabulate n f' := by
  refine Array.ext (by simp) fun i hi _ => ?_
  rw [Array.size_map, Vec.size_tabulate] at hi
  simpa [Vec.tabulate] using h i hi

theorem entries_shaped (length : Option Nat) (r : Array β) :
    (if length.isNone then (⟨[], r⟩ : Tensor β) else .ofArray r).entries = r := by
  split <;> rfl

theorem map_shaped (length : Option Nat) (r : Array β) (f : β → γ) :
    (if length.isNone then (⟨[], r⟩ : Tensor β) else .ofArray r).map f =
      if length.isNone then ⟨[], r.map f⟩ else .ofArray (r.map f) := by
  split
  · rfl
  · simp [Tensor.map, Tensor.ofArray]

variable [Scalar α]

/-- What stands at a place when an argument is spread over `n` places. -/
def placed (n : Nat) (t : Tensor α) (i : Nat) : α := Vec.entry (stretch n t.entries) i

theorem IsSpread.placed_mem {t : Tensor α} (h : IsSpread n t) {i : Nat} (hi : i < n) :
    placed n t i ∈ t.entries := by
  rcases h.size_eq with hsize | hsize
  · rw [placed, stretch_of_size_eq hsize]
    simp [Vec.entry, hsize, hi]
  · have hpos : 0 < t.entries.size := by omega
    simp [placed, stretch, hsize, Vec.entry, hi]

end Proximal
end TotalVariation
