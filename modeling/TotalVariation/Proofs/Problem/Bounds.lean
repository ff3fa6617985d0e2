import Mathlib
import TotalVariation.Proofs.Numeric.Exact
import TotalVariation.Solver.Reduced

/-! # Bounds

A lower and an upper bound that do not exclude each other leave room for a value, and both clamping
and the separable proximal map find one. The tightest of several bounds is one of them.
-/

namespace TotalVariation

namespace Bound

variable {K : Type} [ExactField K]

/-- A value between two bounds, of which each may be missing. -/
def IsBetween (low upp : Bound K) (x : K) : Prop :=
  (∀ l, low = some l → l ≤ x) ∧ ∀ u, upp = some u → x ≤ u

/-- Two bounds that do not exclude each other. -/
def AreUncrossed (low upp : Bound K) : Prop :=
  ∀ l u, low = some l → upp = some u → l ≤ u

theorem isBetween_cap_raise {low upp : Bound K} (h : AreUncrossed low upp) (x : K) :
    IsBetween low upp (upp.cap (low.raise x)) := by
  cases low with
  | none =>
      cases upp with
      | none => exact ⟨by simp, by simp⟩
      | some u =>
          refine ⟨by simp, fun u' hu => ?_⟩
          obtain rfl := Option.some.inj hu
          simp only [Bound.cap, Scalar.min_eq]
          exact min_le_right _ _
  | some l =>
      cases upp with
      | none =>
          refine ⟨fun l' hl => ?_, by simp⟩
          obtain rfl := Option.some.inj hl
          simp only [Bound.cap, Bound.raise, Scalar.max_eq]
          exact le_max_right _ _
      | some u =>
          have hlu : l ≤ u := h l u rfl rfl
          simp only [Bound.cap, Bound.raise, Scalar.max_eq, Scalar.min_eq]
          refine ⟨fun l' hl => ?_, fun u' hu => ?_⟩
          · obtain rfl := Option.some.inj hl
            exact le_min (le_max_right _ _) hlu
          · obtain rfl := Option.some.inj hu
            exact min_le_right _ _

/-- Clamping between two bounds brings a value up to the lower and then down to the upper one. -/
theorem clamp_eq (low upp : Bound K) (x : K) :
    Solver.clamp low upp x = upp.cap (low.raise x) := by
  have hraise : ∀ l : K, (if x < l then l else x) = Max.max x l := by
    intro l
    split
    next h => exact (max_eq_right h.le).symm
    next h => exact (max_eq_left (not_lt.mp h)).symm
  have hcap : ∀ u y : K, (if u < y then u else y) = Min.min y u := by
    intro u y
    split
    next h => exact (min_eq_right h.le).symm
    next h => exact (min_eq_left (not_lt.mp h)).symm
  cases low <;> cases upp <;>
    simp only [Solver.clamp, cap, raise, Scalar.max_eq, Scalar.min_eq, hraise, hcap]

theorem isBetween_clamp {low upp : Bound K} (h : AreUncrossed low upp) (x : K) :
    IsBetween low upp (Solver.clamp low upp x) := by
  rw [clamp_eq]
  exact isBetween_cap_raise h x

/-! ## The tightest of several bounds -/

/-- An operation that keeps the bound which is further along a relation. -/
structure Tightens (rel : K → K → Prop) (f : Bound K → Bound K → Bound K) : Prop where
  none_left : ∀ b, f none b = b
  none_right : ∀ a, f a none = a
  pick : ∀ a b, ∃ c, f (some a) (some b) = some c ∧ (c = a ∨ c = b) ∧ rel a c ∧ rel b c

theorem tightens_maxLower : Tightens (K := K) (· ≤ ·) maxLower where
  none_left b := by cases b <;> rfl
  none_right a := by cases a <;> rfl
  pick a b := by
    refine ⟨Max.max a b, ?_, max_choice a b, le_max_left a b, le_max_right a b⟩
    rw [maxLower, Scalar.max_eq]

theorem tightens_minUpper : Tightens (K := K) (· ≥ ·) minUpper where
  none_left b := by cases b <;> rfl
  none_right a := by cases a <;> rfl
  pick a b := by
    refine ⟨Min.min a b, ?_, min_choice a b, min_le_left a b, min_le_right a b⟩
    rw [minUpper, Scalar.min_eq]

omit [ExactField K] in
/-- The tightest of several bounds is one of them, and no other goes further. -/
theorem Tightens.foldl {rel : K → K → Prop} {f : Bound K → Bound K → Bound K}
    (h : Tightens rel f) [Std.Refl rel] [IsTrans K rel] (bounds : List (Bound K))
    (first : Bound K) :
    (∀ c, bounds.foldl f first = some c → some c ∈ first :: bounds) ∧
      ∀ b, some b ∈ first :: bounds → ∃ c, bounds.foldl f first = some c ∧ rel b c := by
  induction bounds generalizing first with
  | nil =>
      refine ⟨fun c hc => List.mem_singleton.mpr hc.symm, fun b hb => ?_⟩
      exact ⟨b, (List.mem_singleton.mp hb).symm, refl b⟩
  | cons second rest ih =>
      obtain ⟨hmem, hbound⟩ := ih (f first second)
      rw [List.foldl_cons]
      cases first with
      | none =>
          rw [h.none_left] at hmem hbound ⊢
          refine ⟨fun c hc => List.mem_cons_of_mem _ (hmem c hc), fun b hb => ?_⟩
          exact hbound b (by simpa using hb)
      | some a =>
          cases second with
          | none =>
              rw [h.none_right] at hmem hbound ⊢
              refine ⟨fun c hc => ?_, fun b hb => hbound b ?_⟩
              · rcases List.mem_cons.mp (hmem c hc) with heq | hrest
                · exact heq ▸ List.mem_cons_self
                · exact List.mem_cons_of_mem _ (List.mem_cons_of_mem _ hrest)
              · simpa using hb
          | some a' =>
              obtain ⟨d, hd, hchoice, had, had'⟩ := h.pick a a'
              rw [hd] at hmem hbound ⊢
              constructor
              · intro c hc
                rcases List.mem_cons.mp (hmem c hc) with heq | hrest
                · rcases hchoice with rfl | rfl
                  · exact heq ▸ List.mem_cons_self
                  · exact heq ▸ List.mem_cons_of_mem _ List.mem_cons_self
                · exact List.mem_cons_of_mem _ (List.mem_cons_of_mem _ hrest)
              · intro b hb
                obtain ⟨c, hc, hdc⟩ := hbound d List.mem_cons_self
                rcases List.mem_cons.mp hb with heq | hb
                · obtain rfl := Option.some.inj heq
                  exact ⟨c, hc, IsTrans.trans _ _ _ had hdc⟩
                · rcases List.mem_cons.mp hb with heq | hb
                  · obtain rfl := Option.some.inj heq
                    exact ⟨c, hc, IsTrans.trans _ _ _ had' hdc⟩
                  · exact hbound b (List.mem_cons_of_mem _ hb)

/-- The bound `tight` is one of the bounds of a set of vertices, and none of them goes further. -/
structure IsTightest (rel : K → K → Prop) (S : Finset Nat) (bound : Nat → Bound K)
    (tight : Bound K) : Prop where
  attained : ∀ c, tight = some c → ∃ v ∈ S, bound v = some c
  dominates : ∀ v ∈ S, ∀ b, bound v = some b → ∃ c, tight = some c ∧ rel b c

omit [ExactField K] in
theorem Tightens.isTightest {rel : K → K → Prop} {f : Bound K → Bound K → Bound K}
    (h : Tightens rel f) [Std.Refl rel] [IsTrans K rel] (bound : Nat → Bound K) (first : Nat)
    (rest : List Nat) :
    IsTightest rel (first :: rest).toFinset bound
      (rest.foldl (fun acc v => f acc (bound v)) (bound first)) := by
  obtain ⟨hmem, hbound⟩ := h.foldl (rest.map bound) (bound first)
  rw [List.foldl_map] at hmem hbound
  constructor
  · intro c hc
    have hin : some c ∈ (first :: rest).map bound := hmem c hc
    obtain ⟨v, hv, heq⟩ := List.mem_map.mp hin
    exact ⟨v, List.mem_toFinset.mpr hv, heq⟩
  · intro v hv b hb
    exact hbound b (List.mem_map.mpr ⟨v, List.mem_toFinset.mp hv, hb⟩)

omit [ExactField K] in
/-- A common bound is the tightest of any vertices. -/
theorem isTightest_common {rel : K → K → Prop} [Std.Refl rel] {S : Finset Nat}
    (hS : S.Nonempty) (common : Bound K) : IsTightest rel S (fun _ => common) common where
  attained c hc := by
    obtain ⟨v, hv⟩ := hS
    exact ⟨v, hv, hc⟩
  dominates _ _ b hb := ⟨b, hb, refl b⟩

section Pair

variable {S : Finset Nat} {lower upper : Nat → Bound K} {low upp : Bound K}

theorem IsTightest.areUncrossed (hlow : IsTightest (· ≤ ·) S lower low)
    (hupp : IsTightest (· ≥ ·) S upper upp)
    (h : ∀ u ∈ S, ∀ w ∈ S, AreUncrossed (lower u) (upper w)) : AreUncrossed low upp := by
  intro l u hl hu
  obtain ⟨v, hv, hlv⟩ := hlow.attained l hl
  obtain ⟨w, hw, huw⟩ := hupp.attained u hu
  exact h v hv w hw l u hlv huw

/-- A value between the tightest bounds is between the bounds of every vertex. -/
theorem IsTightest.isBetween (hlow : IsTightest (· ≤ ·) S lower low)
    (hupp : IsTightest (· ≥ ·) S upper upp) {x : K} (hx : IsBetween low upp x) {v : Nat}
    (hv : v ∈ S) : IsBetween (lower v) (upper v) x := by
  constructor
  · intro l hl
    obtain ⟨c, hc, hlc⟩ := hlow.dominates v hv l hl
    exact hlc.trans (hx.1 c hc)
  · intro u hu
    obtain ⟨c, hc, hcu⟩ := hupp.dominates v hv u hu
    exact (hx.2 c hc).trans hcu

/-- The tightest bounds exclude what some vertex excludes and nothing else. -/
theorem IsTightest.isBetween_iff (hlow : IsTightest (· ≤ ·) S lower low)
    (hupp : IsTightest (· ≥ ·) S upper upp) {x : K} :
    IsBetween low upp x ↔ ∀ v ∈ S, IsBetween (lower v) (upper v) x := by
  constructor
  · exact fun hx v hv => hlow.isBetween hupp hx hv
  · intro hx
    constructor
    · intro l hl
      obtain ⟨v, hv, hlv⟩ := hlow.attained l hl
      exact (hx v hv).1 l hlv
    · intro u hu
      obtain ⟨v, hv, huv⟩ := hupp.attained u hu
      exact (hx v hv).2 u huv

end Pair

end Bound

end TotalVariation
