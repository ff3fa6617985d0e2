import Mathlib
import TotalVariation.Proofs.Problem.Slope
import TotalVariation.Proofs.Problem.Splitting
import TotalVariation.Proofs.Problem.Subgradient
import TotalVariation.Proofs.Quadratic.Region

/-! # Fixed points of the splitting

The iterate is the mean of the copies of the values at every head of the loop. From such a state an
iteration changes no copy exactly if the multipliers that the copies stand for are subgradients of
their terms; they always balance the gradient. For a convex problem the iterate is then minimal.
-/

namespace TotalVariation

open TotalVariation.Bound

theorem Vec.getD_tabulate {β : Type} {n i : Nat} (f : Nat → β) (default : β) (hi : i < n) :
    (Vec.tabulate n f).getD i default = f i := by
  simp [Vec.tabulate, hi]

namespace Splitting

/-! ## The heads of the loop -/

section Heads

variable {α : Type} [Scalar α] {p : Problem α} {k : Parameters α} {init : Option (Vec α)} {n : Nat}
  {s : State α}

/-- The evolution in the iteration that follows a state. -/
def evolutionAfter (p : Problem α) (k : Parameters α) (s : State α) : α :=
  (step p k.relaxation (shares p) s).evolution.getD 0

/-- The states at the head of the loop, with the number of iterations made before. -/
inductive IsHead (p : Problem α) (k : Parameters α) (init : Option (Vec α)) :
    Nat → State α → Prop where
  | first : IsHead p k init 0 (start p k init)
  | next {n : Nat} {s : State α} : IsHead p k init n s → n < k.maxIterations →
      ¬evolutionAfter p k s < k.tolerance →
      IsHead p k init (n + 1)
        (recondition p k (evolutionAfter p k s) (step p k.relaxation (shares p) s))

/-- One turn of the loop either ends it or leads to the next head. -/
theorem iterate_succ (p : Problem α) (k : Parameters α) (fuel done : Nat) (s : State α)
    (events : List (Event α)) : ∃ reported,
    iterate p k (shares p) (fuel + 1) done s events =
      if evolutionAfter p k s < k.tolerance then
        (step p k.relaxation (shares p) s, done + 1, reported)
      else iterate p k (shares p) fuel (done + 1)
        (recondition p k (evolutionAfter p k s) (step p k.relaxation (shares p) s)) reported :=
  ⟨_, rfl⟩

/-- The loop goes on from every head. -/
theorem IsHead.iterate_eq (h : IsHead p k init n s) : n ≤ k.maxIterations ∧ ∃ reported,
    iterate p k (shares p) k.maxIterations 0 (start p k init) [] =
      iterate p k (shares p) (k.maxIterations - n) n s reported := by
  induction h with
  | first => exact ⟨Nat.zero_le _, [], rfl⟩
  | @next n s _ hn hmoving ih =>
      obtain ⟨-, earlier, heq⟩ := ih
      obtain ⟨fuel, hfuel⟩ : ∃ fuel, k.maxIterations - n = fuel + 1 :=
        Nat.exists_eq_succ_of_ne_zero (Nat.sub_ne_zero_of_lt hn)
      obtain ⟨reported, hturn⟩ := iterate_succ p k fuel n s earlier
      have hrest : k.maxIterations - (n + 1) = fuel := by omega
      rw [hfuel, hturn, if_neg hmoving] at heq
      exact ⟨hn, reported, hrest ▸ heq⟩

end Heads

variable {K : Type} [ExactField K] {p : Problem K} {k : Parameters K} {init : Option (Vec K)}
  {n : Nat} {s : State K}

/-! ## Copies and their mean -/

theorem size_assemble (p : Problem K) (shares atFrom atTo atVertex : Vec K) :
    (assemble p shares atFrom atTo atVertex).size = p.size := Vec.size_tabulate _ _

/-- The number of copies of a vertex. -/
def copies (p : Problem K) (v : Nat) : K :=
  1 + (∑ e ∈ Finset.range p.edges.size, if p.edgeFrom e = v then 1 else 0) +
    ∑ e ∈ Finset.range p.edges.size, if p.edgeTo e = v then 1 else 0

theorem copies_pos (p : Problem K) (v : Nat) : 0 < copies p v := by
  have hcount : ∀ f : Nat → Nat,
      (0 : K) ≤ ∑ e ∈ Finset.range p.edges.size, if f e = v then 1 else 0 :=
    fun f => Finset.sum_nonneg fun e _ => by split <;> norm_num
  have hfrom := hcount p.edgeFrom
  have hto := hcount p.edgeTo
  rw [copies]
  linarith

theorem entry_shares {v : Nat} (hv : v < p.size) : Vec.entry (shares p) v = 1 / copies p v := by
  rw [shares, Vec.entry_tabulate, if_pos hv, Vec.entry_scatter _ _ _ hv, Vec.entry_scatter _ _ _ hv]
  rfl

theorem shares_pos {v : Nat} (hv : v < p.size) : 0 < Vec.entry (shares p) v := by
  rw [entry_shares hv]
  exact one_div_pos.mpr (copies_pos p v)

theorem entry_assemble (shares atFrom atTo atVertex : Vec K) {v : Nat} (hv : v < p.size) :
    Vec.entry (assemble p shares atFrom atTo atVertex) v = Vec.entry shares v *
      ((∑ e ∈ Finset.range p.edges.size, if p.edgeFrom e = v then Vec.entry atFrom e else 0) +
        (∑ e ∈ Finset.range p.edges.size, if p.edgeTo e = v then Vec.entry atTo e else 0) +
        Vec.entry atVertex v) := by
  rw [assemble, Vec.entry_tabulate, if_pos hv, Vec.entry_scatter _ _ _ hv, Vec.entry_scatter _ _ _ hv]

/-- There is a copy for each end of an edge and for each vertex, and the iterate is their mean. -/
structure State.IsAssembled (p : Problem K) (s : State K) : Prop where
  size_atFrom : s.atFrom.size = p.edges.size
  size_atTo : s.atTo.size = p.edges.size
  size_atVertex : s.atVertex.size = p.size
  x_eq : s.x = assemble p (shares p) s.atFrom s.atTo s.atVertex

theorem State.IsAssembled.size_x (h : s.IsAssembled p) : s.x.size = p.size := by
  rw [h.x_eq, size_assemble]

/-- Copies that agree with the iterate have it as their mean. -/
theorem isAssembled_restart (metric : Vec K) (reconditioning : K) {x : Vec K}
    (hx : x.size = p.size) (separable : Vec K) (evolution : Option K) :
    (restart p metric reconditioning x separable evolution).IsAssembled p where
  size_atFrom := Vec.size_tabulate _ _
  size_atTo := Vec.size_tabulate _ _
  size_atVertex := hx
  x_eq := by
    refine Vec.ext_entry (hx.trans (size_assemble _ _ _ _ _).symm) fun v hv => ?_
    have hvp : v < p.size := hx ▸ hv
    have hends : ∀ f : Nat → Nat, (∑ e ∈ Finset.range p.edges.size, if f e = v then
          Vec.entry (Vec.tabulate p.edges.size fun e => Vec.entry x (f e)) e else 0) =
        (∑ e ∈ Finset.range p.edges.size, if f e = v then 1 else 0) * Vec.entry x v := by
      intro f
      rw [Finset.sum_mul]
      apply Finset.sum_congr rfl
      intro e he
      rw [Vec.entry_tabulate, if_pos (Finset.mem_range.mp he)]
      split
      next heq => rw [heq, one_mul]
      next => rw [zero_mul]
    rw [entry_assemble _ _ _ _ hvp, entry_shares hvp]
    simp only [restart]
    rw [hends, hends]
    -- each of the copies has the value of the vertex, and the share is one over their number
    have hcopies := (copies_pos p v).ne'
    rw [one_div, eq_comm, inv_mul_eq_iff_eq_mul₀ hcopies, copies]
    ring

theorem isAssembled_step (p : Problem K) (relaxation : K) (s : State K) :
    (step p relaxation (shares p) s).IsAssembled p where
  size_atFrom := Vec.size_tabulate _ _
  size_atTo := Vec.size_tabulate _ _
  size_atVertex := Vec.size_tabulate _ _
  x_eq := rfl

theorem State.IsAssembled.recondition (h : s.IsAssembled p) (k : Parameters K) (c : K) :
    (recondition p k c s).IsAssembled p := by
  unfold Splitting.recondition
  split
  next => exact isAssembled_restart _ _ h.size_x _ _
  next => exact h

/-- The iterate is the mean of the copies at every head of the loop. -/
theorem IsHead.isAssembled (h : IsHead p k init n s)
    (hinit : ∀ x, init = some x → x.size = p.size) : s.IsAssembled p := by
  induction h with
  | first => exact isAssembled_restart _ _ (fits_start hinit).size_x _ _
  | next _ _ _ _ => exact (isAssembled_step p k.relaxation _).recondition k _

/-! ## Multipliers -/

/-- The multiplier that a copy of a vertex stands for. -/
def multiplier (p : Problem K) (s : State K) (v : Nat) (copy : K) : K :=
  Vec.entry (shares p) v / Vec.entry s.metric v *
    (Vec.entry s.x v - copy -
      Vec.entry s.metric v * Vec.entry (p.quadratic.gradientAt s.x) v)

/-- The multipliers are subgradients of the terms of their copies, and balance the gradient. -/
structure IsStationary (p : Problem K) (s : State K) : Prop where
  edges : ∀ e < p.edges.size, IsPairSubgradient (Vec.entry p.edgeWeights e)
    (Vec.entry s.x (p.edgeFrom e)) (Vec.entry s.x (p.edgeTo e))
    (multiplier p s (p.edgeFrom e) (Vec.entry s.atFrom e))
    (multiplier p s (p.edgeTo e) (Vec.entry s.atTo e))
  vertices : ∀ v < p.size, IsBoundedSubgradient (p.penalty v) (Vec.entry p.targets v)
    (p.lowerAt v) (p.upperAt v) (Vec.entry s.x v) (multiplier p s v (Vec.entry s.atVertex v))
  balance : ∀ v < p.size, Vec.entry (p.quadratic.gradientAt s.x) v +
    ((∑ e ∈ Finset.range p.edges.size,
        if p.edgeFrom e = v then multiplier p s v (Vec.entry s.atFrom e) else 0) +
      (∑ e ∈ Finset.range p.edges.size,
        if p.edgeTo e = v then multiplier p s v (Vec.entry s.atTo e) else 0) +
      multiplier p s v (Vec.entry s.atVertex v)) = 0

/-- Since the iterate is the mean of the copies, their multipliers balance the gradient. -/
theorem State.IsAssembled.balance (h : s.IsAssembled p) {v : Nat} (hv : v < p.size)
    (hmetric : 0 < Vec.entry s.metric v) : Vec.entry (p.quadratic.gradientAt s.x) v +
    ((∑ e ∈ Finset.range p.edges.size,
        if p.edgeFrom e = v then multiplier p s v (Vec.entry s.atFrom e) else 0) +
      (∑ e ∈ Finset.range p.edges.size,
        if p.edgeTo e = v then multiplier p s v (Vec.entry s.atTo e) else 0) +
      multiplier p s v (Vec.entry s.atVertex v)) = 0 := by
  set x := Vec.entry s.x v with hx
  set m := Vec.entry s.metric v with hm
  set g := Vec.entry (p.quadratic.gradientAt s.x) v
  -- over the ends of edges at the vertex, the multipliers count the ends and add up the copies
  have hends : ∀ (f : Nat → Nat) (copy : Vec K), (∑ e ∈ Finset.range p.edges.size,
        if f e = v then multiplier p s v (Vec.entry copy e) else 0) =
      Vec.entry (shares p) v / m *
        ((∑ e ∈ Finset.range p.edges.size, if f e = v then 1 else 0) * (x - m * g) -
          ∑ e ∈ Finset.range p.edges.size, if f e = v then Vec.entry copy e else 0) := by
    intro f copy
    rw [Finset.sum_mul, ← Finset.sum_sub_distrib, Finset.mul_sum]
    apply Finset.sum_congr rfl
    intro e _
    split
    · rw [multiplier]
      ring
    · ring
  have hvertex : multiplier p s v (Vec.entry s.atVertex v) =
      Vec.entry (shares p) v / m * (x - m * g - Vec.entry s.atVertex v) := by
    rw [multiplier]
    ring
  have hmean := entry_assemble (shares p) s.atFrom s.atTo s.atVertex hv
  have hcopies := (copies_pos p v).ne'
  rw [← h.x_eq, ← hx, entry_shares hv, one_div, eq_inv_mul_iff_mul_eq₀ hcopies] at hmean
  calc _ = g + Vec.entry (shares p) v / m * (copies p v * (x - m * g) -
          ((∑ e ∈ Finset.range p.edges.size, if p.edgeFrom e = v then Vec.entry s.atFrom e else 0) +
            (∑ e ∈ Finset.range p.edges.size, if p.edgeTo e = v then Vec.entry s.atTo e else 0) +
            Vec.entry s.atVertex v)) := by
        rw [hends, hends, hvertex, copies]
        ring
    _ = g + 1 / copies p v / m * (copies p v * (x - m * g) - copies p v * x) := by
        rw [← hmean, entry_shares hv]
    _ = 0 := by
        field_simp
        ring

/-! ## One iteration -/

section Maps

variable {α : Type} [Scalar α] {p : Problem α} {s : State α}

/-- The argument of a proximal map: the iterate reflected at a copy after a forward step. -/
def reflected (p : Problem α) (s : State α) (v : Nat) (copy : α) : α :=
  Scalar.two * Vec.entry s.x v - copy -
    Vec.entry s.metric v * Vec.entry (p.quadratic.gradientAt s.x) v

/-- The outcome of the proximal map of an edge. -/
def edgeMap (p : Problem α) (s : State α) (e : Nat) : α × α :=
  Proximal.pair (Vec.entry (shares p) (p.edgeFrom e) / Vec.entry s.metric (p.edgeFrom e))
    (Vec.entry (shares p) (p.edgeTo e) / Vec.entry s.metric (p.edgeTo e))
    (Vec.entry p.edgeWeights e) (reflected p s (p.edgeFrom e) (Vec.entry s.atFrom e))
    (reflected p s (p.edgeTo e) (Vec.entry s.atTo e))

/-- The outcome of the separable proximal map. -/
def vertexMap (p : Problem α) (s : State α) (v : Nat) : α :=
  Proximal.separable (Vec.entry (shares p) v / Vec.entry s.metric v) (p.targetWeightAt v)
    (Vec.entry p.targets v) (p.lowerAt v) (p.upperAt v) (reflected p s v (Vec.entry s.atVertex v))

variable (relaxation : α)

theorem forward_eq {v : Nat} (hv : v < p.size) (copy : α) :
    Scalar.two * Vec.entry s.x v - copy -
        Vec.entry (Vec.tabulate p.size fun v =>
          Vec.entry s.metric v * Vec.entry (p.quadratic.gradientAt s.x) v) v =
      reflected p s v copy := by
  rw [Vec.entry_tabulate, if_pos hv, reflected]

theorem entry_step_atFrom {e : Nat} (he : e < p.edges.size)
    (hends : p.edgeFrom e < p.size ∧ p.edgeTo e < p.size) :
    Vec.entry (step p relaxation (shares p) s).atFrom e = Vec.entry s.atFrom e +
      relaxation * ((edgeMap p s e).1 - Vec.entry s.x (p.edgeFrom e)) := by
  simp only [step]
  rw [Vec.entry_tabulate, if_pos he, Vec.getD_tabulate _ _ he, forward_eq hends.1,
    forward_eq hends.2, edgeMap]

theorem entry_step_atTo {e : Nat} (he : e < p.edges.size)
    (hends : p.edgeFrom e < p.size ∧ p.edgeTo e < p.size) :
    Vec.entry (step p relaxation (shares p) s).atTo e = Vec.entry s.atTo e +
      relaxation * ((edgeMap p s e).2 - Vec.entry s.x (p.edgeTo e)) := by
  simp only [step]
  rw [Vec.entry_tabulate, if_pos he, Vec.getD_tabulate _ _ he, forward_eq hends.1,
    forward_eq hends.2, edgeMap]

theorem entry_step_separable {v : Nat} (hv : v < p.size) :
    Vec.entry (step p relaxation (shares p) s).separable v = vertexMap p s v := by
  rw [step_separable, separableStep, Vec.entry_tabulate, if_pos hv, forward_eq hv]
  rfl

theorem entry_step_atVertex {v : Nat} (hv : v < p.size) :
    Vec.entry (step p relaxation (shares p) s).atVertex v = Vec.entry s.atVertex v +
      relaxation * (vertexMap p s v - Vec.entry s.x v) := by
  rw [← entry_step_separable relaxation hv]
  simp only [step]
  rw [Vec.entry_tabulate, if_pos hv]

end Maps

/-- Edges between variables with weights that are not negative, and bounds that do not exclude each
other. -/
structure IsRegular (p : Problem K) : Prop where
  ends_lt : ∀ e < p.edges.size, p.edgeFrom e < p.size ∧ p.edgeTo e < p.size
  edgeWeights_nonneg : ∀ e < p.edges.size, 0 ≤ Vec.entry p.edgeWeights e
  penalty_nonneg : ∀ v < p.size, 0 ≤ p.penalty v
  uncrossed : ∀ v < p.size, AreUncrossed (p.lowerAt v) (p.upperAt v)

variable (relaxation : K)

/-- An iteration changes no copy. -/
structure State.IsFixed (p : Problem K) (relaxation : K) (s : State K) : Prop where
  atFrom : (step p relaxation (shares p) s).atFrom = s.atFrom
  atTo : (step p relaxation (shares p) s).atTo = s.atTo
  atVertex : (step p relaxation (shares p) s).atVertex = s.atVertex

variable {relaxation}

/-- The copies stay if all proximal maps answer the iterate. -/
theorem State.IsAssembled.isFixed_iff (h : s.IsAssembled p) (hp : IsRegular p)
    (hrelaxation : relaxation ≠ 0) : s.IsFixed p relaxation ↔
      (∀ e < p.edges.size,
        edgeMap p s e = (Vec.entry s.x (p.edgeFrom e), Vec.entry s.x (p.edgeTo e))) ∧
      ∀ v < p.size, vertexMap p s v = Vec.entry s.x v := by
  have hstays : ∀ a b c : K, a + relaxation * (b - c) = a ↔ b = c := by
    intro a b c
    rw [add_eq_left, mul_eq_zero, or_iff_right hrelaxation, sub_eq_zero]
  constructor
  · intro hfixed
    refine ⟨fun e he => Prod.ext ?_ ?_, fun v hv => ?_⟩
    · have hentry := entry_step_atFrom (s := s) relaxation he (hp.ends_lt e he)
      rw [hfixed.atFrom] at hentry
      exact (hstays _ _ _).mp hentry.symm
    · have hentry := entry_step_atTo (s := s) relaxation he (hp.ends_lt e he)
      rw [hfixed.atTo] at hentry
      exact (hstays _ _ _).mp hentry.symm
    · have hentry := entry_step_atVertex (s := s) relaxation hv
      rw [hfixed.atVertex] at hentry
      exact (hstays _ _ _).mp hentry.symm
  · rintro ⟨hedges, hvertices⟩
    have hstep := isAssembled_step p relaxation s
    refine ⟨?_, ?_, ?_⟩
    · refine Vec.ext_entry (hstep.size_atFrom.trans h.size_atFrom.symm) fun e he => ?_
      have he' : e < p.edges.size := hstep.size_atFrom ▸ he
      rw [entry_step_atFrom relaxation he' (hp.ends_lt e he'), hstays, hedges e he']
    · refine Vec.ext_entry (hstep.size_atTo.trans h.size_atTo.symm) fun e he => ?_
      have he' : e < p.edges.size := hstep.size_atTo ▸ he
      rw [entry_step_atTo relaxation he' (hp.ends_lt e he'), hstays, hedges e he']
    · refine Vec.ext_entry (hstep.size_atVertex.trans h.size_atVertex.symm) fun v hv => ?_
      have hv' : v < p.size := hstep.size_atVertex ▸ hv
      rw [entry_step_atVertex relaxation hv', hstays, hvertices v hv']

theorem pull_eq (p : Problem K) (s : State K) (v : Nat) (copy : K) :
    Vec.entry (shares p) v / Vec.entry s.metric v *
      (reflected p s v copy - Vec.entry s.x v) = multiplier p s v copy := by
  have htwo : (Scalar.two : K) = 2 := one_add_one_eq_two
  rw [reflected, multiplier, htwo]
  ring

/-- An iteration changes no copy exactly if the multipliers are subgradients. -/
theorem State.IsAssembled.isFixed_iff_isStationary (h : s.IsAssembled p) (hp : IsRegular p)
    (hmetric : ∀ v < p.size, 0 < Vec.entry s.metric v) (hrelaxation : relaxation ≠ 0) :
    s.IsFixed p relaxation ↔ IsStationary p s := by
  have hpos : ∀ v < p.size, 0 < Vec.entry (shares p) v / Vec.entry s.metric v :=
    fun v hv => div_pos (shares_pos hv) (hmetric v hv)
  have hedge : ∀ e < p.edges.size,
      (edgeMap p s e = (Vec.entry s.x (p.edgeFrom e), Vec.entry s.x (p.edgeTo e)) ↔
        IsPairSubgradient (Vec.entry p.edgeWeights e) (Vec.entry s.x (p.edgeFrom e))
          (Vec.entry s.x (p.edgeTo e)) (multiplier p s (p.edgeFrom e) (Vec.entry s.atFrom e))
          (multiplier p s (p.edgeTo e) (Vec.entry s.atTo e))) := by
    intro e he
    obtain ⟨hfrom, hto⟩ := hp.ends_lt e he
    rw [edgeMap, Proximal.pair_eq_iff (hpos _ hfrom) (hpos _ hto) (hp.edgeWeights_nonneg e he),
      pull_eq, pull_eq]
  have hvertex : ∀ v < p.size, (vertexMap p s v = Vec.entry s.x v ↔
      IsBoundedSubgradient (p.penalty v) (Vec.entry p.targets v) (p.lowerAt v) (p.upperAt v)
        (Vec.entry s.x v) (multiplier p s v (Vec.entry s.atVertex v))) := by
    intro v hv
    rw [vertexMap, Proximal.separable_eq_iff (hpos v hv) (hp.penalty_nonneg v hv) (hp.uncrossed v hv),
      pull_eq]
    rfl
  rw [h.isFixed_iff hp hrelaxation]
  constructor
  · rintro ⟨hedges, hvertices⟩
    exact ⟨fun e he => (hedge e he).mp (hedges e he), fun v hv => (hvertex v hv).mp (hvertices v hv),
      fun v hv => h.balance hv (hmetric v hv)⟩
  · intro hstationary
    exact ⟨fun e he => (hedge e he).mpr (hstationary.edges e he),
      fun v hv => (hvertex v hv).mpr (hstationary.vertices v hv)⟩

/-! ## Minimal points -/

/-- What is counted at the ends of edges, vertex by vertex, is counted edge by edge. -/
theorem sum_ends_mul {m count : Nat} {f : Nat → Nat} (hf : ∀ e < m, f e < count)
    (g : Nat → Nat → K) (d : Nat → K) :
    ∑ v ∈ Finset.range count, (∑ e ∈ Finset.range m, if f e = v then g v e else 0) * d v =
      ∑ e ∈ Finset.range m, g (f e) e * d (f e) := by
  simp only [Finset.sum_mul, ite_mul, zero_mul]
  rw [Finset.sum_comm]
  apply Finset.sum_congr rfl
  intro e he
  rw [Finset.sum_ite_eq, if_pos (Finset.mem_range.mpr (hf e (Finset.mem_range.mp he)))]

namespace IsStationary

/-- Along every direction the multipliers take back the slope of the quadratic term. -/
theorem sum_slopeAt_add (h : IsStationary p s) (hp : IsRegular p)
    (hfits : p.quadratic.Fits p.size) (hx : s.x.size = p.size) (d : Nat → K) :
    ∑ v ∈ Finset.range p.size, p.quadratic.slopeAt s.x v * d v +
      (∑ e ∈ Finset.range p.edges.size,
        (multiplier p s (p.edgeFrom e) (Vec.entry s.atFrom e) * d (p.edgeFrom e) +
          multiplier p s (p.edgeTo e) (Vec.entry s.atTo e) * d (p.edgeTo e)) +
        ∑ v ∈ Finset.range p.size, multiplier p s v (Vec.entry s.atVertex v) * d v) = 0 := by
  have hfrom := sum_ends_mul (fun e he => (hp.ends_lt e he).1)
    (fun v e => multiplier p s v (Vec.entry s.atFrom e)) d
  have hto := sum_ends_mul (fun e he => (hp.ends_lt e he).2)
    (fun v e => multiplier p s v (Vec.entry s.atTo e)) d
  rw [Finset.sum_add_distrib, ← hfrom, ← hto, ← Finset.sum_add_distrib, ← Finset.sum_add_distrib,
    ← Finset.sum_add_distrib]
  refine Finset.sum_eq_zero fun v hv => ?_
  -- vertex by vertex, what remains is the balance at the vertex
  have hbalance := h.balance v (Finset.mem_range.mp hv)
  rw [hfits.entry_gradientAt hx (Finset.mem_range.mp hv)] at hbalance
  rw [← add_mul, ← add_mul, ← add_mul, hbalance, zero_mul]

/-- At a stationary state every feasible point is worse by at least half the curvature towards
it. -/
theorem objective_add_form_le (h : IsStationary p s) (hp : IsRegular p)
    (hfits : p.quadratic.Fits p.size) (hsymmetric : p.quadratic.IsSymmetric)
    (hx : s.x.size = p.size) {z : Vec K} (hz : z.size = p.size) (hfeasible : p.isFeasible z = true) {d : Nat → K}
    (hd : ∀ v < p.size, Vec.entry z v = Vec.entry s.x v + d v) :
    p.objective s.x + p.quadratic.form d d / 2 ≤ p.objective z := by
  have hedges : ∑ e ∈ Finset.range p.edges.size, Vec.entry p.edgeWeights e *
        |Vec.entry s.x (p.edgeFrom e) - Vec.entry s.x (p.edgeTo e)| +
      ∑ e ∈ Finset.range p.edges.size,
        (multiplier p s (p.edgeFrom e) (Vec.entry s.atFrom e) * d (p.edgeFrom e) +
          multiplier p s (p.edgeTo e) (Vec.entry s.atTo e) * d (p.edgeTo e)) ≤
      ∑ e ∈ Finset.range p.edges.size, Vec.entry p.edgeWeights e *
        |Vec.entry z (p.edgeFrom e) - Vec.entry z (p.edgeTo e)| := by
    rw [← Finset.sum_add_distrib]
    apply Finset.sum_le_sum
    intro e he
    obtain ⟨hfrom, hto⟩ := hp.ends_lt e (Finset.mem_range.mp he)
    have hedge := h.edges e (Finset.mem_range.mp he) (Vec.entry z (p.edgeFrom e))
      (Vec.entry z (p.edgeTo e))
    rw [hd _ hfrom, hd _ hto, add_sub_cancel_left, add_sub_cancel_left] at hedge
    rwa [hd _ hfrom, hd _ hto, ← add_assoc]
  have hvertices : ∑ v ∈ Finset.range p.size, p.penalty v *
        |Vec.entry s.x v - Vec.entry p.targets v| +
      ∑ v ∈ Finset.range p.size, multiplier p s v (Vec.entry s.atVertex v) * d v ≤
      ∑ v ∈ Finset.range p.size, p.penalty v * |Vec.entry z v - Vec.entry p.targets v| := by
    rw [← Finset.sum_add_distrib]
    apply Finset.sum_le_sum
    intro v hv
    rw [Finset.mem_range] at hv
    have hvertex := (h.vertices v hv).le _ (Problem.isFeasible_iff.mp hfeasible v hv)
    rw [hd v hv, add_sub_cancel_left] at hvertex
    rwa [hd v hv]
  have hquadratic := hfits.valueAt_add hsymmetric hx hz hd
  have hslope := h.sum_slopeAt_add hp hfits hx d
  rw [p.objective_eq hx, p.objective_eq hz, hquadratic]
  linarith

theorem isFeasible (h : IsStationary p s) : p.isFeasible s.x = true :=
  Problem.isFeasible_iff.mpr fun v hv => (h.vertices v hv).between

/-- The iterate of a stationary state of a convex problem is minimal. -/
theorem isMinimal (h : IsStationary p s) (hp : IsRegular p) (hfits : p.quadratic.Fits p.size)
    (hconvex : p.quadratic.IsConvex) (hx : s.x.size = p.size) : p.IsMinimal s.x where
  size_eq := hx
  feasible := h.isFeasible
  le z hz hfeasible := by
    have hle := h.objective_add_form_le hp hfits hconvex.isSymmetric hx hz hfeasible
      (d := fun v => Vec.entry z v - Vec.entry s.x v) fun v _ => by ring
    have hform := hconvex.form_self_nonneg fun v => Vec.entry z v - Vec.entry s.x v
    linarith

end IsStationary

/-- At every head of the loop the iterate is the mean of the copies. From such a state an iteration
changes no copy exactly if the multipliers are subgradients that balance the gradient; if the
quadratic term is convex, the iterate is then minimal. -/
theorem isFixed_iff_of_isAssembled (hp : IsRegular p) :
    (∀ (k : Parameters K) (init : Option (Vec K)) (n : Nat) (s : State K),
      (∀ x, init = some x → x.size = p.size) → IsHead p k init n s → s.IsAssembled p) ∧
    ∀ (relaxation : K) (s : State K), 0 < relaxation → relaxation < 2 →
      (∀ v < p.size, 0 < Vec.entry s.metric v) → s.IsAssembled p →
        (s.IsFixed p relaxation ↔ IsStationary p s) ∧
        (p.quadratic.Fits p.size → p.quadratic.IsConvex → s.IsFixed p relaxation →
          p.IsMinimal s.x) := by
  refine ⟨fun k init n s hinit hhead => hhead.isAssembled hinit, ?_⟩
  intro relaxation s hrelaxation _ hmetric hs
  have hiff := hs.isFixed_iff_isStationary hp hmetric hrelaxation.ne'
  refine ⟨hiff, fun hfits hconvex hfixed => ?_⟩
  exact (hiff.mp hfixed).isMinimal hp hfits hconvex hs.size_x

/-- Two values apart that an edge of weight two brings together. -/
def drawnPair : Problem ℚ :=
  ⟨.diagonal #[1, 1] (some #[-2, 2]), #[(0, 1)], #[2], none, #[0, 0], #[none, none], #[none, none]⟩

/-- Parameters with the metric kept. -/
def plainParameters : Parameters ℚ := ⟨1, 1 / 1000, 0, 1 / 10000, 1000, false⟩

/-- The copies of the two values at rest. -/
def restingPair : State ℚ where
  x := #[0, 0]
  atFrom := #[2]
  atTo := #[-2]
  atVertex := #[-2, 2]
  separable := #[0, 0]
  metric := #[1, 1]
  reconditioning := 0
  evolution := none

theorem isRegular_drawnPair : IsRegular drawnPair where
  ends_lt := by
    change ∀ e < 1, _
    decide +kernel
  edgeWeights_nonneg := by
    change ∀ e < 1, _
    decide +kernel
  penalty_nonneg := fun _ _ => le_rfl
  uncrossed := by
    change ∀ v < 2, _
    intro v hv l u hl
    interval_cases v <;> cases hl

theorem isFixed_iff_of_isAssembled_restingPair :
    (start drawnPair plainParameters (some #[-1, 1])).IsAssembled drawnPair ∧
      restingPair.IsFixed drawnPair 1 ∧ IsStationary drawnPair restingPair ∧
      drawnPair.IsMinimal #[0, 0] := by
  have hassembled : restingPair.IsAssembled drawnPair := by
    refine ⟨rfl, rfl, rfl, ?_⟩
    decide +kernel
  have hmetric : ∀ v < drawnPair.size, 0 < Vec.entry restingPair.metric v := by
    change ∀ v < 2, _
    decide +kernel
  have hfixed : restingPair.IsFixed drawnPair 1 := by
    constructor <;> decide +kernel
  obtain ⟨hheads, hfixes⟩ := isFixed_iff_of_isAssembled isRegular_drawnPair
  obtain ⟨hiff, hminimal⟩ := hfixes 1 restingPair one_pos one_lt_two hmetric hassembled
  refine ⟨hheads plainParameters (some #[-1, 1]) 0 _ ?_ .first, hfixed, hiff.mp hfixed,
    hminimal ⟨rfl, ?_⟩ ?_ hfixed⟩
  · rintro x ⟨⟩
    rfl
  · rintro l ⟨⟩
    rfl
  · change ∀ i < 2, _
    decide +kernel

end Splitting
end TotalVariation
