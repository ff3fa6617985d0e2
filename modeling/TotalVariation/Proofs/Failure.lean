import Mathlib
import TotalVariation.Failure

/-! # Computations that succeed

A sequence of computations succeeds if each of them does; a failing test ends it.
-/

namespace TotalVariation

variable {ε β γ : Type}

theorem bind_eq_ok {x : Except ε β} {next : β → Except ε γ} {c : γ} :
    x >>= next = .ok c ↔ ∃ b, x = .ok b ∧ next b = .ok c := by
  cases x with
  | error e =>
      constructor
      · intro h
        cases h
      · rintro ⟨b, h, -⟩
        cases h
  | ok b =>
      constructor
      · exact fun h => ⟨b, rfl, h⟩
      · rintro ⟨b', h, hnext⟩
        cases h
        exact hnext

theorem ok_bind (b : β) (next : β → Except ε γ) : (.ok b >>= next : Except ε γ) = next b := rfl

theorem throw_ne_ok {e : ε} {b : β} : (throw e : Except ε β) ≠ .ok b := by
  intro h
  cases h

/-- A test that may fail stands before what follows. -/
theorem test_eq_ok {c : Prop} [Decidable c] {e : ε} {failed : β → Except ε γ} {next : Except ε γ}
    {d : γ} : (if c then throw e >>= failed else next) = .ok d ↔ ¬c ∧ next = .ok d := by
  by_cases hc : c
  · rw [if_pos hc, bind_eq_ok]
    constructor
    · rintro ⟨b, h, -⟩
      exact absurd h throw_ne_ok
    · exact fun h => absurd hc h.1
  · rw [if_neg hc]
    exact (and_iff_right hc).symm

theorem map_eq_ok {f : β → γ} {x : Except ε β} {c : γ} :
    x.map f = .ok c ↔ ∃ b, x = .ok b ∧ f b = c := by
  cases x with
  | error e => simp [Except.map]
  | ok b => simp [Except.map]

/-- What a successful computation answers can be computed. -/
theorem eq_ok_of_toOption {x : Except ε β} {f : β → γ} {c : γ}
    (h : x.toOption.map f = some c) : ∃ b, x = .ok b ∧ f b = c := by
  cases x with
  | error e => cases h
  | ok b => exact ⟨b, rfl, Option.some.inj h⟩

/-- Units with one outcome each succeed together if each succeeds. -/
theorem mapM_eq_ok {f : β → Except ε γ} {units : List β} {found : List γ} :
    units.mapM f = .ok found ↔ List.Forall₂ (fun u c => f u = .ok c) units found := by
  induction units generalizing found with
  | nil =>
      rw [List.mapM_nil, List.forall₂_nil_left_iff]
      constructor
      · exact fun h => (Except.ok.inj h).symm
      · rintro rfl
        rfl
  | cons u units ih =>
      rw [List.mapM_cons, bind_eq_ok, List.forall₂_cons_left_iff]
      constructor
      · rintro ⟨c, hc, h⟩
        obtain ⟨cs, hcs, h⟩ := bind_eq_ok.mp h
        exact ⟨c, cs, hc, ih.mp hcs, (Except.ok.inj h).symm⟩
      · rintro ⟨c, cs, hc, hcs, rfl⟩
        exact ⟨c, hc, bind_eq_ok.mpr ⟨cs, ih.mpr hcs, rfl⟩⟩

/-- Units that all succeed have the list of their outcomes. -/
theorem mapM_map_eq_ok {f : β → Except ε γ} {g : β → γ} {units : List β}
    (h : ∀ u ∈ units, f u = .ok (g u)) : units.mapM f = .ok (units.map g) :=
  mapM_eq_ok.mpr (List.forall₂_map_right_iff.mpr (List.forall₂_same.mpr h))

theorem array_mapM_map_eq_ok {f : β → Except ε γ} {g : β → γ} {units : Array β}
    (h : ∀ u ∈ units, f u = .ok (g u)) : units.mapM f = .ok (units.map g) := by
  have hlist : units.toList.mapM f = .ok (units.toList.map g) :=
    mapM_map_eq_ok fun u hu => h u (Array.mem_toList_iff.mp hu)
  rw [Array.mapM_eq_mapM_toList, hlist, ← Array.toList_map]
  rfl

/-- Only the outcomes of the units themselves count. -/
theorem mapM_congr {f g : β → Except ε γ} {units : List β} (h : ∀ u ∈ units, f u = g u) :
    units.mapM f = units.mapM g := by
  induction units with
  | nil => rfl
  | cons u units ih =>
      rw [List.mapM_cons, List.mapM_cons, h u List.mem_cons_self,
        ih fun v hv => h v (List.mem_cons_of_mem _ hv)]

end TotalVariation
