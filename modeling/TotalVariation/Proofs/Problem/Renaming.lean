import Mathlib
import TotalVariation.Proofs.Numeric.Renaming
import TotalVariation.Proofs.Problem.FixedPoint

/-! # Splitting under another description

A problem can be described with its variables and edges under other names and with edges stored in
the opposite direction. Every iteration of the splitting then does the same under these names: the
proximal map of an edge treats its ends alike, and what is gathered at a variable is a sum.
-/

namespace TotalVariation

variable {K : Type} [ExactField K] {ρ τ : Equiv.Perm ℕ} {flip : ℕ → Bool}

/-- One quadratic term is the other with its variables renamed, as far as the splitting can tell. -/
structure Quadratic.ActsAs (ρ : Equiv.Perm ℕ) (q q' : Quadratic K) : Prop where
  preserves : Preserves ρ q.size
  size_eq : q'.size = q.size
  gradientAt : ∀ {x x' : Vec K}, x.size = q.size → Renames ρ x x' → ∀ v < q.size,
    Vec.entry (q'.gradientAt x') (ρ v) = Vec.entry (q.gradientAt x) v
  majorant : Renames ρ q.majorant q'.majorant

/-- One problem is the other with its variables and edges renamed and some edges turned around. -/
structure Problem.Renames (ρ τ : Equiv.Perm ℕ) (flip : ℕ → Bool) (p p' : Problem K) : Prop where
  quadratic : p.quadratic.ActsAs ρ p'.quadratic
  preserves_edges : Preserves τ p.edges.size
  edges_size : p'.edges.size = p.edges.size
  ends_lt : ∀ e < p.edges.size, p.edgeFrom e < p.size ∧ p.edgeTo e < p.size
  ends : ∀ e < p.edges.size,
    (p'.edgeFrom (τ e), p'.edgeTo (τ e)) = orient (flip e) (ρ (p.edgeFrom e), ρ (p.edgeTo e))
  edgeWeights : ∀ e < p.edges.size, Vec.entry p'.edgeWeights (τ e) = Vec.entry p.edgeWeights e
  targetWeights : Option.Rel (TotalVariation.Renames ρ) p.targetWeights p'.targetWeights
  targets : TotalVariation.Renames ρ p.targets p'.targets
  lower : TotalVariation.Renames ρ p.lower p'.lower
  upper : TotalVariation.Renames ρ p.upper p'.upper

namespace Problem.Renames

variable {p p' : Problem K}

theorem preserves (h : Problem.Renames ρ τ flip p p') : Preserves ρ p.size := h.quadratic.preserves

theorem targetWeightAt_eq (h : Problem.Renames ρ τ flip p p') (v : ℕ) :
    p'.targetWeightAt (ρ v) = p.targetWeightAt v := by
  rw [Problem.targetWeightAt, Problem.targetWeightAt]
  have hrenames := h.targetWeights
  generalize p.targetWeights = w, p'.targetWeights = w' at hrenames ⊢
  cases hrenames with
  | none => rfl
  | some hrenames => exact congrArg some (hrenames.entry_eq v)

theorem isSeparable_eq (h : Problem.Renames ρ τ flip p p') : p'.isSeparable = p.isSeparable := by
  rw [Problem.isSeparable, Problem.isSeparable, h.lower.any_eq, h.upper.any_eq]
  have hrenames := h.targetWeights
  generalize p.targetWeights = w, p'.targetWeights = w' at hrenames ⊢
  cases hrenames <;> rfl

/-- Two terms that act alike under the same names make alike problems. -/
theorem of_actsAs {q' : Quadratic K} (h : p.quadratic.ActsAs (Equiv.refl ℕ) q')
    (hends : ∀ e < p.edges.size, p.edgeFrom e < p.size ∧ p.edgeTo e < p.size) :
    Problem.Renames (Equiv.refl ℕ) (Equiv.refl ℕ) (fun _ => false) p { p with quadratic := q' } where
  quadratic := h
  preserves_edges := .refl _
  edges_size := rfl
  ends_lt := hends
  ends _ _ := rfl
  edgeWeights _ _ := rfl
  targetWeights := TotalVariation.Renames.option_refl _
  targets := .refl _
  lower := .refl _
  upper := .refl _

theorem end_lt' (h : Problem.Renames ρ τ flip p p') {e : ℕ} (he : e < p.edges.size) :
    p'.edgeFrom (τ e) < p'.size ∧ p'.edgeTo (τ e) < p'.size := by
  have hsize : p'.size = p.size := h.quadratic.size_eq
  obtain ⟨hfrom, hto⟩ := h.ends_lt e he
  have hends := h.ends e he
  rw [hsize]
  unfold orient at hends
  split at hends
  all_goals
    obtain ⟨heq, heq'⟩ := Prod.mk.inj hends
    rw [heq, heq', h.preserves, h.preserves]
  · exact ⟨hto, hfrom⟩
  · exact ⟨hfrom, hto⟩

theorem ends_lt' (h : Problem.Renames ρ τ flip p p') :
    ∀ e < p'.edges.size, p'.edgeFrom e < p'.size ∧ p'.edgeTo e < p'.size := by
  intro e he
  have he' : τ.symm e < p.edges.size := (h.preserves_edges.symm e).mpr (h.edges_size ▸ he)
  have hlt := h.end_lt' he'
  rwa [τ.apply_symm_apply] at hlt

end Problem.Renames

namespace Splitting

/-! ## Sums at the ends of edges -/

/-- What the edges place at a variable, given a value for each end of each edge. -/
def incident (m : ℕ) (start stop : ℕ → ℕ) (a b : ℕ → K) (v : ℕ) : K :=
  ∑ e ∈ Finset.range m, ((if start e = v then a e else 0) + if stop e = v then b e else 0)

theorem scatter_add_scatter {n m v : ℕ} (start stop : ℕ → ℕ) (a b : ℕ → K) (hv : v < n) :
    Vec.entry (Vec.scatter n m start a) v + Vec.entry (Vec.scatter n m stop b) v =
      incident m start stop a b v := by
  rw [Vec.entry_scatter _ _ _ hv, Vec.entry_scatter _ _ _ hv, incident, ← Finset.sum_add_distrib]

/-- Which end of an edge comes first does not matter. -/
theorem incident_renames {m : ℕ} (hτ : Preserves τ m) {start stop start' stop' : ℕ → ℕ}
    {a b a' b' : ℕ → K}
    (hends : ∀ e < m, (start' (τ e), stop' (τ e)) = orient (flip e) (ρ (start e), ρ (stop e)))
    (hvalues : ∀ e < m, (a' (τ e), b' (τ e)) = orient (flip e) (a e, b e)) (v : ℕ) :
    incident m start' stop' a' b' (ρ v) = incident m start stop a b v := by
  refine hτ.sum_range fun e he => ?_
  have hend := hends e he
  have hvalue := hvalues e he
  unfold orient at hend hvalue
  cases hflip : flip e with
  | true =>
      rw [hflip, if_pos rfl] at hend hvalue
      obtain ⟨hstart, hstop⟩ := Prod.mk.inj hend
      obtain ⟨ha, hb⟩ := Prod.mk.inj hvalue
      rw [hstart, hstop, ha, hb, add_comm]
      simp only [EmbeddingLike.apply_eq_iff_eq]
  | false =>
      rw [hflip, if_neg Bool.false_ne_true] at hend hvalue
      obtain ⟨hstart, hstop⟩ := Prod.mk.inj hend
      obtain ⟨ha, hb⟩ := Prod.mk.inj hvalue
      rw [hstart, hstop, ha, hb]
      simp only [EmbeddingLike.apply_eq_iff_eq]

/-! ## Metrics -/

theorem invertCurvature_renames {c c' : Vec K} (h : Renames ρ c c') (conditioning : K) :
    Renames ρ (invertCurvature conditioning c) (invertCurvature conditioning c') := by
  unfold invertCurvature
  rw [h.largest?_eq, h.size_eq]
  dsimp only
  split
  next => exact .replicate h.preserves 1
  next => exact h.map _

theorem edgeCurvature_comm (tolerance weight a b : K) :
    edgeCurvature tolerance weight a b = edgeCurvature tolerance weight b a := by
  rw [edgeCurvature, edgeCurvature, Scalar.abs_eq, Scalar.abs_eq, abs_sub_comm]

section Problems

variable {p p' : Problem K} (h : Problem.Renames ρ τ flip p p')

include h

theorem metricAt_renames {x x' : Vec K} (hx : Renames ρ x x') (conditioning tolerance : K) :
    Renames ρ (metricAt conditioning tolerance p.quadratic p.edges p.edgeWeights x)
      (metricAt conditioning tolerance p'.quadratic p'.edges p'.edgeWeights x') := by
  have hmajorant := h.quadratic.majorant
  apply invertCurvature_renames
  rw [hmajorant.size_eq, h.edges_size]
  refine .tabulate hmajorant.preserves fun v hv => ?_
  have hcurvature : ∀ e < p.edges.size,
      edgeCurvature tolerance (Vec.entry p'.edgeWeights (τ e)) (Vec.entry x' (p'.edgeFrom (τ e)))
          (Vec.entry x' (p'.edgeTo (τ e))) =
        edgeCurvature tolerance (Vec.entry p.edgeWeights e) (Vec.entry x (p.edgeFrom e))
          (Vec.entry x (p.edgeTo e)) := by
    intro e he
    have hends := h.ends e he
    rw [h.edgeWeights e he]
    unfold orient at hends
    split at hends
    next =>
      obtain ⟨hfrom, hto⟩ := Prod.mk.inj hends
      rw [hfrom, hto, hx.entry_eq, hx.entry_eq, edgeCurvature_comm]
    next =>
      obtain ⟨hfrom, hto⟩ := Prod.mk.inj hends
      rw [hfrom, hto, hx.entry_eq, hx.entry_eq]
  rw [add_assoc, add_assoc, hmajorant.entry_eq,
    scatter_add_scatter _ _ _ _ ((hmajorant.preserves v).mpr hv),
    scatter_add_scatter _ _ _ _ hv]
  refine congrArg _ (incident_renames h.preserves_edges h.ends (fun e he => ?_) v)
  have hvalue := hcurvature e he
  rw [Vec.entry_tabulate, Vec.entry_tabulate, if_pos ((h.preserves_edges e).mpr he), if_pos he]
  unfold orient
  split <;> exact Prod.ext hvalue hvalue

theorem shares_renames : Renames ρ (shares p) (shares p') := by
  have hsize : p'.size = p.size := h.quadratic.size_eq
  rw [shares, shares, hsize, h.edges_size]
  refine .tabulate h.preserves fun v hv => ?_
  have hv' : ρ v < p.size := (h.preserves v).mpr hv
  rw [add_assoc, add_assoc, scatter_add_scatter _ _ _ _ hv', scatter_add_scatter _ _ _ _ hv,
    incident_renames h.preserves_edges h.ends fun e _ => ?_]
  unfold orient
  split <;> rfl

/-! ## One iteration -/

theorem assemble_renames {shares shares' atFrom atTo atFrom' atTo' atVertex atVertex' : Vec K}
    (hshares : Renames ρ shares shares') (hvertex : Renames ρ atVertex atVertex')
    (hedges : ∀ e < p.edges.size, (Vec.entry atFrom' (τ e), Vec.entry atTo' (τ e)) =
      orient (flip e) (Vec.entry atFrom e, Vec.entry atTo e)) :
    Renames ρ (assemble p shares atFrom atTo atVertex)
      (assemble p' shares' atFrom' atTo' atVertex') := by
  have hsize : p'.size = p.size := h.quadratic.size_eq
  rw [assemble, assemble, hsize, h.edges_size]
  refine .tabulate h.preserves fun v hv => ?_
  have hv' : ρ v < p.size := (h.preserves v).mpr hv
  rw [scatter_add_scatter _ _ _ _ hv', scatter_add_scatter _ _ _ _ hv, hshares.entry_eq,
    hvertex.entry_eq, incident_renames h.preserves_edges h.ends hedges]

theorem separable_renames {metric metric' point point' : ℕ → K}
    (hmetric : ∀ v < p.size, metric' (ρ v) = metric v)
    (hpoint : ∀ v < p.size, point' (ρ v) = point v) :
    Renames ρ (separableStep p metric point) (separableStep p' metric' point') := by
  have hsize : p'.size = p.size := h.quadratic.size_eq
  rw [separableStep, separableStep, hsize]
  refine .tabulate h.preserves fun v hv => ?_
  rw [hmetric v hv, hpoint v hv, h.targetWeightAt_eq, h.targets.entry_eq, Problem.lowerAt,
    Problem.upperAt, h.lower.getD_eq, h.upper.getD_eq]
  rfl

end Problems

theorem pair_swap (cu cv w pu pv : K) :
    Proximal.pair cv cu w pv pu = (Proximal.pair cu cv w pu pv).swap := by
  unfold Proximal.pair
  have habs : Scalar.abs (pv - pu) = Scalar.abs (pu - pv) := by
    rw [Scalar.abs_eq, Scalar.abs_eq, abs_sub_comm]
  have hsign : Scalar.sign (pv - pu) = -Scalar.sign (pu - pv) := by
    rw [Scalar.sign_eq, Scalar.sign_eq]
    rcases lt_trichotomy pu pv with hlt | rfl | hlt
    · simp [hlt, hlt.not_gt]
    · simp
    · simp [hlt, hlt.not_gt]
  simp only [habs, hsign, add_comm (1 / cv)]
  split
  next =>
    rw [add_comm (cv * pv), add_comm cv]
    rfl
  next => exact Prod.ext (by simp only [Prod.swap]; ring) (by simp only [Prod.swap]; ring)

theorem evolution_eq {x x' next next' : Vec K} (hx : Renames ρ x x') (hnext : Renames ρ next next') :
    evolution x' next' = evolution x next := by
  have hchange : Renames ρ
      (Vec.tabulate next.size fun v => Vec.entry next v - Vec.entry x v)
      (Vec.tabulate next'.size fun v => Vec.entry next' v - Vec.entry x' v) := by
    rw [hnext.size_eq]
    refine .tabulate hnext.preserves fun v _ => ?_
    rw [hnext.entry_eq, hx.entry_eq]
  rw [evolution, evolution, hnext.norm_eq, hchange.norm_eq]

/-- One state is the other with its variables and edges renamed and some edges turned around. -/
structure State.Renames (p : Problem K) (ρ τ : Equiv.Perm ℕ) (flip : ℕ → Bool) (s s' : State K) :
    Prop where
  size_x : s.x.size = p.size
  x : TotalVariation.Renames ρ s.x s'.x
  atEnds : ∀ e < p.edges.size, (Vec.entry s'.atFrom (τ e), Vec.entry s'.atTo (τ e)) =
    orient (flip e) (Vec.entry s.atFrom e, Vec.entry s.atTo e)
  atVertex : TotalVariation.Renames ρ s.atVertex s'.atVertex
  separable : TotalVariation.Renames ρ s.separable s'.separable
  metric : TotalVariation.Renames ρ s.metric s'.metric
  reconditioning : s'.reconditioning = s.reconditioning
  evolution : s'.evolution = s.evolution

section Problems

variable {p p' : Problem K} (h : Problem.Renames ρ τ flip p p') {s s' : State K}

include h

theorem reflected_eq (hs : s.Renames p ρ τ flip s') {v : ℕ} (hv : v < p.size) (copy : K) :
    reflected p' s' (ρ v) copy = reflected p s v copy := by
  rw [reflected, reflected, hs.x.entry_eq, hs.metric.entry_eq,
    h.quadratic.gradientAt hs.size_x hs.x v hv]

theorem weight_eq (hs : s.Renames p ρ τ flip s') (v : ℕ) :
    Vec.entry (shares p') (ρ v) / Vec.entry s'.metric (ρ v) =
      Vec.entry (shares p) v / Vec.entry s.metric v := by
  rw [(shares_renames h).entry_eq, hs.metric.entry_eq]

theorem edgeMap_eq (hs : s.Renames p ρ τ flip s') {e : ℕ} (he : e < p.edges.size) :
    edgeMap p' s' (τ e) = orient (flip e) (edgeMap p s e) := by
  obtain ⟨hfrom, hto⟩ := h.ends_lt e he
  have hends := h.ends e he
  have hcopies := hs.atEnds e he
  rw [edgeMap, edgeMap, h.edgeWeights e he]
  unfold orient at hends hcopies ⊢
  split at hends
  next hflip =>
    obtain ⟨heq, heq'⟩ := Prod.mk.inj hends
    rw [if_pos hflip] at hcopies ⊢
    obtain ⟨hcopy, hcopy'⟩ := Prod.mk.inj hcopies
    rw [heq, heq', hcopy, hcopy', weight_eq h hs, weight_eq h hs, reflected_eq h hs hto,
      reflected_eq h hs hfrom, pair_swap]
  next hflip =>
    obtain ⟨heq, heq'⟩ := Prod.mk.inj hends
    rw [if_neg hflip] at hcopies ⊢
    obtain ⟨hcopy, hcopy'⟩ := Prod.mk.inj hcopies
    rw [heq, heq', hcopy, hcopy', weight_eq h hs, weight_eq h hs, reflected_eq h hs hto,
      reflected_eq h hs hfrom]

theorem step_separable_renames (hs : s.Renames p ρ τ flip s') (relaxation : K) :
    Renames ρ (step p relaxation (shares p) s).separable
      (step p' relaxation (shares p') s').separable := by
  have hsize : p'.size = p.size := h.quadratic.size_eq
  rw [step_separable, step_separable]
  refine separable_renames h (fun v _ => weight_eq h hs v) fun v hv => ?_
  rw [forward_eq hv, forward_eq (hsize ▸ (h.preserves v).mpr hv), hs.atVertex.entry_eq,
    reflected_eq h hs hv]

theorem step_atVertex_renames (hs : s.Renames p ρ τ flip s') (relaxation : K) :
    Renames ρ (step p relaxation (shares p) s).atVertex
      (step p' relaxation (shares p') s').atVertex := by
  have hsize : p'.size = p.size := h.quadratic.size_eq
  refine .of_entry h.preserves (isAssembled_step p relaxation s).size_atVertex
    ((isAssembled_step p' relaxation s').size_atVertex.trans hsize) fun v hv => ?_
  have hv' : ρ v < p'.size := hsize ▸ (h.preserves v).mpr hv
  rw [entry_step_atVertex relaxation hv, entry_step_atVertex relaxation hv', hs.atVertex.entry_eq,
    hs.x.entry_eq, ← entry_step_separable relaxation hv, ← entry_step_separable relaxation hv',
    (step_separable_renames h hs relaxation).entry_eq]

theorem step_atEnds_renames (hs : s.Renames p ρ τ flip s') (relaxation : K) {e : ℕ}
    (he : e < p.edges.size) :
    (Vec.entry (step p' relaxation (shares p') s').atFrom (τ e),
        Vec.entry (step p' relaxation (shares p') s').atTo (τ e)) =
      orient (flip e) (Vec.entry (step p relaxation (shares p) s).atFrom e,
        Vec.entry (step p relaxation (shares p) s).atTo e) := by
  have he' : τ e < p'.edges.size := h.edges_size ▸ (h.preserves_edges e).mpr he
  have hends := h.ends e he
  have hcopies := hs.atEnds e he
  rw [entry_step_atFrom relaxation he' (h.end_lt' he),
    entry_step_atTo relaxation he' (h.end_lt' he), entry_step_atFrom relaxation he
    (h.ends_lt e he), entry_step_atTo relaxation he (h.ends_lt e he), edgeMap_eq h hs he]
  unfold orient at hends hcopies ⊢
  split at hends
  next hflip =>
    obtain ⟨heq, heq'⟩ := Prod.mk.inj hends
    rw [if_pos hflip] at hcopies
    obtain ⟨hcopy, hcopy'⟩ := Prod.mk.inj hcopies
    rw [if_pos hflip, if_pos hflip, heq, heq', hcopy, hcopy', hs.x.entry_eq, hs.x.entry_eq]
    rfl
  next hflip =>
    obtain ⟨heq, heq'⟩ := Prod.mk.inj hends
    rw [if_neg hflip] at hcopies
    obtain ⟨hcopy, hcopy'⟩ := Prod.mk.inj hcopies
    rw [if_neg hflip, if_neg hflip, heq, heq', hcopy, hcopy', hs.x.entry_eq, hs.x.entry_eq]

/-- An iteration keeps the names. -/
theorem step_renames (hs : s.Renames p ρ τ flip s') (relaxation : K) :
    (step p relaxation (shares p) s).Renames p ρ τ flip
      (step p' relaxation (shares p') s') := by
  have hatVertex := step_atVertex_renames h hs relaxation
  have hatEnds := fun e he => step_atEnds_renames h hs relaxation (e := e) he
  have hx : Renames ρ (step p relaxation (shares p) s).x
      (step p' relaxation (shares p') s').x := by
    rw [(isAssembled_step p relaxation s).x_eq, (isAssembled_step p' relaxation s').x_eq]
    exact assemble_renames h (shares_renames h) hatVertex hatEnds
  exact
    { size_x := (isAssembled_step p relaxation s).size_x
      x := hx
      atEnds := hatEnds
      atVertex := hatVertex
      separable := step_separable_renames h hs relaxation
      metric := hs.metric
      reconditioning := hs.reconditioning
      evolution := congrArg some (evolution_eq hs.x hx) }

/-! ## The whole iteration -/

theorem restart_renames {metric metric' x x' separable separable' : Vec K} (hx : x.size = p.size)
    (hmetric : Renames ρ metric metric') (hrenames : Renames ρ x x')
    (hseparable : Renames ρ separable separable') (reconditioning : K) (evolution : Option K) :
    (restart p metric reconditioning x separable evolution).Renames p ρ τ flip
      (restart p' metric' reconditioning x' separable' evolution) where
  size_x := hx
  x := hrenames
  atEnds := by
    intro e he
    have he' : τ e < p'.edges.size := h.edges_size ▸ (h.preserves_edges e).mpr he
    have hends := h.ends e he
    simp only [restart]
    rw [Vec.entry_tabulate, Vec.entry_tabulate, Vec.entry_tabulate, Vec.entry_tabulate, if_pos he,
      if_pos he, if_pos he', if_pos he']
    unfold orient at hends ⊢
    split at hends
    next hflip =>
      obtain ⟨heq, heq'⟩ := Prod.mk.inj hends
      rw [if_pos hflip, heq, heq', hrenames.entry_eq, hrenames.entry_eq]
      rfl
    next hflip =>
      obtain ⟨heq, heq'⟩ := Prod.mk.inj hends
      rw [if_neg hflip, heq, heq', hrenames.entry_eq, hrenames.entry_eq]
  atVertex := hrenames
  separable := hseparable
  metric := hmetric
  reconditioning := rfl
  evolution := rfl

theorem recondition_renames (hs : s.Renames p ρ τ flip s') (k : Parameters K) (change : K) :
    (recondition p k change s).Renames p ρ τ flip (recondition p' k change s') := by
  unfold recondition
  rw [hs.reconditioning, hs.evolution, (hs.x.map Scalar.abs).largest?_eq]
  split
  next =>
    exact restart_renames h hs.size_x (metricAt_renames h hs.x _ _) hs.x hs.separable _ _
  next => exact hs

theorem firstIterate_renames {metric metric' : Vec K} (hmetric : Renames ρ metric metric') :
    Renames ρ (firstIterate p metric) (firstIterate p' metric') := by
  have hsize : p'.size = p.size := h.quadratic.size_eq
  have hzero : (Vec.constant p.size (0 : K)).size = p.size := Array.size_replicate
  rw [firstIterate, firstIterate, hsize]
  refine separable_renames h (fun v _ => by rw [hmetric.entry_eq]) fun v hv => ?_
  have hzeros : Renames ρ (Vec.constant p.size (0 : K)) (Vec.constant p.size 0) :=
    .replicate h.preserves 0
  rw [hmetric.entry_eq, h.quadratic.gradientAt hzero hzeros v hv]

theorem start_renames (k : Parameters K) {init init' : Option (Vec K)}
    (hinit : Option.Rel (Renames ρ) init init') (hsize : ∀ x ∈ init, x.size = p.size) :
    (start p k init).Renames p ρ τ flip (start p' k init') := by
  have hmetric := invertCurvature_renames h.quadratic.majorant k.conditioning
  cases hinit with
  | none =>
      have hx := firstIterate_renames h hmetric
      exact restart_renames h (Vec.size_tabulate _ _) hmetric hx hx _ _
  | some hx => exact restart_renames h (hsize _ rfl) hmetric hx hx _ _

theorem iterate_renames (k : Parameters K) (hs : s.Renames p ρ τ flip s') (fuel done : ℕ)
    (events events' : List (Event K)) :
    (iterate p k (shares p) fuel done s events).1.Renames p ρ τ flip
        (iterate p' k (shares p') fuel done s' events').1 ∧
      (iterate p' k (shares p') fuel done s' events').2.1 =
        (iterate p k (shares p) fuel done s events).2.1 := by
  induction fuel generalizing done s s' events events' with
  | zero => exact ⟨hs, rfl⟩
  | succ fuel ih =>
      have hstep := step_renames h hs k.relaxation
      obtain ⟨reported, hturn⟩ := iterate_succ p k fuel done s events
      obtain ⟨reported', hturn'⟩ := iterate_succ p' k fuel done s' events'
      have hchange : evolutionAfter p' k s' = evolutionAfter p k s := by
        rw [evolutionAfter, evolutionAfter, hstep.evolution]
      rw [hturn, hturn', hchange]
      split
      next => exact ⟨hstep, rfl⟩
      next => exact ih (recondition_renames h hstep k _) _ _ _

/-- From initial values under other names the iteration makes as many turns and comes to the same
values under these names. -/
theorem solve_renames (k : Parameters K) {init init' : Option (Vec K)}
    (hinit : Option.Rel (Renames ρ) init init') (hsize : ∀ x ∈ init, x.size = p.size) :
    Renames ρ (solve p k init).x (solve p' k init').x ∧
      (solve p' k init').iterations = (solve p k init).iterations := by
  obtain ⟨hstate, hcount⟩ := iterate_renames h k (start_renames h k hinit hsize) k.maxIterations 0
    [] []
  unfold solve
  refine ⟨?_, hcount⟩
  rw [h.isSeparable_eq]
  dsimp only
  split
  next => exact hstate.separable
  next => exact hstate.x

end Problems

end Splitting

/-- The method of splitting answers both descriptions of a problem, after as many iterations and
with the same values under the other names. -/
theorem Solver.innerMethod_renames {p p' : Problem K} (h : Problem.Renames ρ τ flip p p')
    {k : InnerParameters K} (hbackend : k.backend = .splitting) (tolerance : K)
    {init init' : Option (Vec K)} (hinit : Option.Rel (Renames ρ) init init')
    (hsize : ∀ x ∈ init, x.size = p.size) :
    ∃ x x' iterations, innerMethod k tolerance p init = .ok (x, iterations) ∧
      innerMethod k tolerance p' init' = .ok (x', iterations) ∧ Renames ρ x x' := by
  have hsize' : ∀ x ∈ init', x.size = p'.size := by
    cases hinit with
    | none => exact fun _ hx => absurd hx (Option.not_mem_none _)
    | some hrenames =>
        intro x hx
        obtain rfl := Option.mem_some_iff.mp hx
        exact hrenames.size_eq.trans ((hsize _ rfl).trans h.quadratic.size_eq.symm)
  have hanswer := Splitting.solve?_eq_of_size (splittingParameters k tolerance) h.ends_lt hsize
  have hanswer' := Splitting.solve?_eq_of_size (splittingParameters k tolerance) h.ends_lt' hsize'
  obtain ⟨hx, hcount⟩ := Splitting.solve_renames h (splittingParameters k tolerance) hinit hsize
  refine ⟨_, _, (Splitting.solve p (splittingParameters k tolerance) init).iterations, ?_, ?_, hx⟩
  · unfold innerMethod
    rw [hbackend]
    simp only [hanswer]
    rfl
  · unfold innerMethod
    rw [hbackend, ← hcount]
    simp only [hanswer']
    rfl

end TotalVariation
