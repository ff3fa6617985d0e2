import Mathlib
import TotalVariation.Proofs.Quadratic.Accepted
import TotalVariation.Proofs.Quadratic.Renaming
import TotalVariation.Proofs.Solver.Retuning

/-! # Runs and representations

A multiple of the identity can be given as a scale, as a diagonal or as a table. Two premultiplied
terms with the same Hessian and the same linear part have the same constant part, slope, value and
majorant, also once they are reduced to regions, whatever the representation. So the runs of two
solvers that differ in the representation of their term are the same at every step.
-/

namespace TotalVariation.Solver

open Step TotalVariation.Partition

variable {K : Type} [ExactField K] {q q' : Quadratic K} {s s' t t' : Solver K} {r : Recording}

/-- The solver with another quadratic term and nothing else changed. -/
def withQuadratic {α : Type} (s : Solver α) (q : Quadratic α) : Solver α := { s with quadratic := q }

/-- The second solver is the first with the quadratic term in another representation. -/
structure Represents (q q' : Quadratic K) (t t' : Solver K) : Prop where
  quadratic : t.quadratic = q
  eq : t' = t.withQuadratic q'

/-- Two terms over `n` variables that are not direct and do not differ but in the representation. -/
structure SameTerm (n : ℕ) (q q' : Quadratic K) : Prop where
  isDirect : q.isDirect = false
  isDirect' : q'.isDirect = false
  renames : q.Renames (Equiv.refl ℕ) n q'

theorem SameTerm.of_sameSettings (hsame : SameSettings s t)
    (h : SameTerm s.partition.vertexCount q q') : SameTerm t.partition.vertexCount q q' := by
  have hcount : t.partition.vertexCount = s.partition.vertexCount := hsame.vertexCount
  rw [hcount]
  exact h

omit [ExactField K] in
/-- Solvers that differ in the representation of the term stay so. -/
theorem isRetuning_represents (q q' : Quadratic K) : IsRetuning (Represents q q') where
  exists_eq := by
    rintro t _ ⟨-, rfl⟩
    exact ⟨q', t.targetWeights, rfl⟩
  update P residual x lastX history h := by
    obtain ⟨hq, rfl⟩ := h
    exact ⟨hq, rfl⟩

theorem regionTargets_alike (h : Represents q q' t t') :
    Alike (· = ·) (Represents q q') regionTargets t regionTargets t' := by
  obtain ⟨hterm, rfl⟩ := h
  have hsorted : (t.withQuadratic q').sorted = t.sorted.withQuadratic q' := by
    have hweights : (t.withQuadratic q').regionWeights? = t.regionWeights? := rfl
    have htargets : (t.withQuadratic q').targets = t.targets := rfl
    unfold sorted
    rw [hweights, htargets]
    split <;> rfl
  exact .answers (regionTargets_answers.mpr ⟨⟨rfl, rfl⟩, rfl⟩)
    (regionTargets_answers.mpr ⟨⟨rfl, rfl⟩, rfl⟩) rfl
    ⟨t.sameSettings_sorted.quadratic.trans hterm, hsorted⟩

/-- A term that is not direct has no residual to renew. -/
theorem renewResidual_alike (hq : q.isDirect = false) (hq' : q'.isDirect = false)
    (h : Represents q q' t t') :
    Alike (fun _ _ => True) (Represents q q') renewResidual t renewResidual t' := by
  obtain ⟨hterm, rfl⟩ := h
  have hdirect : t.quadratic.isDirect = false := hterm ▸ hq
  unfold renewResidual
  refine .get_bind ?_
  dsimp only [withQuadratic]
  rw [hdirect, hq']
  exact .of_pure trivial ⟨hterm, rfl⟩

/-! ## Steps that look at the term -/

/-- The edges of the problem over the regions join its variables. -/
theorem regionProblem_ends_lt (hs : t.partition.IsCoherent) (hsize : q.size = t.partition.regionCount)
    {weights targets : Option (Vec K)} {e : ℕ}
    (he : e < (t.regionProblem q weights targets).edges.size) :
    (t.regionProblem q weights targets).edgeFrom e < (t.regionProblem q weights targets).size ∧
      (t.regionProblem q weights targets).edgeTo e < (t.regionProblem q weights targets).size := by
  have he' : e < t.partition.reducedEdges.size := he
  have hget : t.partition.reducedEdges.getD e (0, 0) = t.partition.reducedEdges[e] := by simp [he']
  have hlt := hs.reducedEdges_lt (Array.getElem_mem he')
  rw [← hget, ← hsize] at hlt
  exact hlt

section Terms

variable (hterm : SameTerm t.partition.vertexCount q q') (h : Represents q q' t t')

/-- Nothing is asked of the residual for terms that are not direct. -/
theorem residual_of_isDirect {q : Quadratic K} (hdirect : q.isDirect = false) (P : Partition K)
    (x : Vec K) (residual : Option (Vec K)) : ∀ A y, q = .direct A y →
      residual = some (Quadratic.residualOf A y (P.expand x)) := by
  rintro A y rfl
  cases hdirect

include hterm h

theorem gradient?_eq (hs : t.IsSolved) (hassigns : t.AssignsVertices) :
    t'.gradient? = t.gradient? := by
  obtain ⟨rfl, rfl⟩ := h
  obtain ⟨x, hx, hsize⟩ := hs.iterate
  have hassignment := hs.partition.assignment_lt hassigns
  obtain ⟨g, hg, hgsize, hentry⟩ := hterm.renames.fits.regionGradient?_eq_ok
    hterm.renames.isSymmetric hs.partition.toIsArranged hs.partition.isIndexed hassignment hsize
    (residual_of_isDirect hterm.isDirect _ x t.residual)
  obtain ⟨g', hg', hgsize', hentry'⟩ := hterm.renames.fits'.regionGradient?_eq_ok
    hterm.renames.isSymmetric' hs.partition.toIsArranged hs.partition.isIndexed hassignment hsize
    (residual_of_isDirect hterm.isDirect' _ x t.residual)
  have hsame : g' = g := by
    refine Vec.ext_entry (hgsize'.trans hgsize.symm) fun v hv => ?_
    have hlt : v < t.partition.vertexCount := hgsize' ▸ hv
    rw [hentry v hlt, hentry' v hlt]
    exact hterm.renames.slopeAt_eq (.refl _) (.refl _) hlt
  have hslope : (t.withQuadratic q').quadratic.regionGradient? t.partition t.x t.residual =
      t.quadratic.regionGradient? t.partition t.x t.residual := by
    rw [hx, hg, ← hsame]
    exact hg'
  unfold gradient?
  exact congrArg (· >>= _) hslope

theorem objective?_eq (hs : t.IsSolved) : t'.objective? = t.objective? := by
  obtain ⟨rfl, rfl⟩ := h
  obtain ⟨x, hx, hsize⟩ := hs.iterate
  have hvalue : (t.withQuadratic q').quadratic.regionValue? t.partition t.x t.residual =
      t.quadratic.regionValue? t.partition t.x t.residual := by
    rw [hx, hterm.renames.fits.regionValue?_eq_ok hterm.renames.isSymmetric
        hs.partition.toIsArranged hs.partition.isIndexed hsize
        (residual_of_isDirect hterm.isDirect _ x t.residual),
      ← hterm.renames.valueAt_eq (.refl _) (.refl _) (t.partition.size_expand x)]
    exact hterm.renames.fits'.regionValue?_eq_ok hterm.renames.isSymmetric'
      hs.partition.toIsArranged hs.partition.isIndexed hsize
      (residual_of_isDirect hterm.isDirect' _ x t.residual)
  unfold objective?
  exact congrArg (· >>= _) hvalue

theorem split_alike (hs : t.IsSolved) (hassigns : t.AssignsVertices) :
    Alike (· = ·) (Represents q q') split t split t' := by
  have hslope := gradient?_eq hterm h hs hassigns
  obtain ⟨hq, rfl⟩ := h
  unfold split modifyPartition
  refine .get_bind ?_
  rw [hslope]
  refine .lift_bind fun slope _ => ?_
  exact .lift_bind fun found _ => .modify_bind (.of_pure rfl ⟨hq, rfl⟩)

omit hterm in
theorem wholeMedian_represents : t'.wholeMedian.1 = t.wholeMedian.1 ∧
    Represents q q' t.wholeMedian.2 t'.wholeMedian.2 := by
  obtain ⟨rfl, rfl⟩ := h
  have hwhole : (t.withQuadratic q').wholeMedian =
      (t.wholeMedian.1, t.wholeMedian.2.withQuadratic q') := by
    have hweight : (t.withQuadratic q').totalTargetWeight? = t.totalTargetWeight? := rfl
    have htargets : (t.withQuadratic q').targets = t.targets := rfl
    unfold wholeMedian
    rw [hweight, htargets]
    split <;> rfl
  rw [hwhole]
  refine ⟨rfl, ?_, rfl⟩
  unfold wholeMedian
  split <;> rfl

theorem constantSolution_alike :
    Alike (· = ·) (Represents q q') constantSolution t constantSolution t' := by
  obtain ⟨hmedian, hwhole⟩ := wholeMedian_represents h
  have hparts := hterm.renames.constantPart_eq (.refl _)
  have hstays : ∀ {p : Quadratic K}, p.isDirect = false → ∀ c former,
      constantResidual p c former = former := by
    intro p hp c former
    cases p with
    | direct A y => cases hp
    | _ => rfl
  have hleft : ∀ c, Represents q q'
      { t.wholeMedian.2 with residual := constantResidual t.quadratic c t.wholeMedian.2.residual }
      { t'.wholeMedian.2 with
        residual := constantResidual t'.quadratic c t'.wholeMedian.2.residual } := by
    intro c
    obtain ⟨hq, rfl⟩ := id h
    obtain ⟨hwholeq, hwhole⟩ := hwhole
    have hq' : (t.withQuadratic q').quadratic = q' := rfl
    rw [hstays (hq ▸ hterm.isDirect), hstays (hq' ▸ hterm.isDirect'), hwhole]
    exact ⟨hwholeq, rfl⟩
  obtain ⟨rfl, rfl⟩ := id h
  have hweight : (t.withQuadratic q').totalTargetWeight? = t.totalTargetWeight? := rfl
  have hquadratic : (t.withQuadratic q').quadratic.constantPart = t.quadratic.constantPart := hparts
  refine constantSolution_alike_of_eq ?_ rfl rfl hleft
  rw [hweight, hmedian, hquadratic]

/-- Reduced to regions the terms are still the same, and so are the solutions over the regions. -/
theorem reducedSolution_alike (hs : t.partition.IsCoherent) (hbackend : t.inner.backend = .splitting) :
    Alike (· = ·) (Represents q q') (reducedSolution innerMethod) t (reducedSolution innerMethod)
      t' := by
  have hreduced := hterm.renames.fits.reduce?_eq_ok true
  have hreduced' := hterm.renames.fits'.reduce?_eq_ok true
  have hregions := hterm.renames.reduce hs.toIsConsistent hs.toIsConsistent (.refl _) true
  obtain ⟨rfl, rfl⟩ := id h
  refine .congr (reducedSolution_run _ _) (reducedSolution_run _ _) ?_
  refine .lift_bind_ok (premultiplies?_of_isDirect hterm.isDirect)
    (premultiplies?_of_isDirect hterm.isDirect') ?_
  unfold chosenSolution solutionWith
  refine .lift_bind_ok hreduced hreduced' ?_
  refine .bind (regionTargets_alike h) ?_
  rintro ⟨weights, targets⟩ _ u u' htargets - rfl hrelated
  obtain ⟨hcoherent, hcount⟩ := isCoherent_of_regionTargets hs htargets
  obtain ⟨hu, rfl⟩ := hrelated
  refine .get_bind (.lift_bind fun init hinit => ?_)
  have hproblem : Problem.Renames (Equiv.refl ℕ) (Equiv.refl ℕ) (fun _ => false)
      (u.regionProblem (t.quadratic.reduce t.partition true).1 weights targets)
      (u.regionProblem (q'.reduce t.partition true).1 weights targets) := by
    have hsize := size_reduce t.quadratic t.partition true
    refine .of_actsAs (hregions.actsAs (.refl _)) fun e he => ?_
    exact regionProblem_ends_lt hcoherent (hsize.trans hcount.symm) he
  have hbackend' : u.inner.backend = .splitting := by
    rw [(sameSettings_of_regionTargets htargets).inner, hbackend]
  have hinit' : ∀ y ∈ init,
      y.size = (u.regionProblem (t.quadratic.reduce t.partition true).1 weights targets).size := by
    intro y hy
    rw [size_of_warmStart? hinit hy, hcount]
    exact (size_reduce t.quadratic t.partition true).symm
  obtain ⟨x, x', iterations, hx, hx', hsame⟩ := innerMethod_renames hproblem hbackend'
    u.innerTolerance (Renames.option_refl init) hinit'
  obtain rfl := hsame.eq_of_refl
  refine .lift_bind_ok hx hx' (.modify_bind ?_)
  refine .answers (b := ()) (c := ()) (storeResidual_answers.mpr rfl) (storeResidual_answers.mpr rfl)
    rfl ⟨hu, ?_⟩
  have hdirect : u.quadratic.isDirect = false := hu ▸ hterm.isDirect
  dsimp only [withQuadratic]
  rw [solvedResidual_of_isDirect hdirect, solvedResidual_of_isDirect hterm.isDirect']

end Terms

/-! ## Runs -/

/-- The two solvers make the same run. -/
theorem lockstep_of_represents (hs : s.partition.IsArranged) (hbackend : s.inner.backend = .splitting)
    (hterm : SameTerm s.partition.vertexCount q q') (h : Represents q q' s s') :
    Lockstep standardSteps r s s' (Represents q q') (Represents q q') := by
  have hsolve : AnswersInSize innerMethod s.inner := answersInSize_innerMethod hbackend
  refine (isRetuning_represents q q').lockstep h ?_ ?_ ?_ ?_ ?_
  · rintro _ t' rfl - hbegun
    have hterm' : SameTerm (components s.partition).vertexCount q q' := hterm
    exact constantSolution_alike hterm' hbegun
  · intro t t' hsolves hrelated
    have hsame := hsolves.sameSettings
    exact reducedSolution_alike (hterm.of_sameSettings hsame) hrelated (hsolves.isCoherent hs hsolve)
      (hsame.inner ▸ hbackend)
  · intro t t' hsplits hrelated
    exact split_alike (hterm.of_sameSettings hsplits.sameSettings) hrelated
      (hsplits.isSolved hs hsolve) hsplits.assignsVertices
  · exact fun hrelated => renewResidual_alike hterm.isDirect hterm.isDirect' hrelated
  · intro t t' hrecords hrelated
    exact objective?_eq (hterm.of_sameSettings hrecords.sameSettings) hrelated
      (hrecords.isSolved hs hsolve)

/-! ## A multiple of the identity -/

variable {n : ℕ} {a : K} {y : Option (Vec K)}

/-- The shaped array of a multiple of the identity. -/
def scaledIdentity (n : ℕ) (a : K) : Tensor K :=
  ⟨[n, n], Vec.tabulate (n * n) fun k => if k / n = k % n then a else 0⟩

/-- A term that is not direct, with a multiple of the identity as its Hessian. -/
structure IsScaled (n : ℕ) (a : K) (y : Option (Vec K)) (q : Quadratic K) : Prop where
  premultiplied : q.IsPremultiplied n
  hessian : ∀ i < n, ∀ j < n, q.hessian.entry i j = if i = j then a else 0
  linear : q.linear = Quadratic.linearPart n y

namespace IsScaled

theorem sameTerm (h : IsScaled n a y q) (h' : IsScaled n a y q') : SameTerm n q q' where
  isDirect := h.premultiplied.isDirect
  isDirect' := h'.premultiplied.isDirect
  renames := .premultiplied h.premultiplied h'.premultiplied
    (fun i hi j hj => (h'.hessian i hi j hj).trans (h.hessian i hi j hj).symm)
    fun i _ => by rw [h.linear, h'.linear]; rfl

variable (hy : ∀ l ∈ y, l.size = n)

include hy

theorem identity : IsScaled n a y (.identity n a y) :=
  ⟨⟨⟨rfl, hy⟩, trivial, rfl⟩,
    fun _ hi _ hj => Quadratic.entry_hessian_identity a y hi hj, rfl⟩

theorem diagonal : IsScaled n a y (.diagonal (Vec.constant n a) y) := by
  have hsize : (Vec.constant n a).size = n := Array.size_replicate
  refine ⟨⟨⟨hsize, hy⟩, trivial, rfl⟩, fun i hi j hj => ?_, ?_⟩
  · rw [Quadratic.entry_hessian_diagonal _ y (hsize.symm ▸ hi) (hsize.symm ▸ hj),
      Vec.entry_constant, if_pos hi]
  · rw [Quadratic.linear, hsize]

omit hy in
theorem entry_table {i j : ℕ} (hi : i < n) (hj : j < n) :
    (Quadratic.table n n (scaledIdentity n a).entries).entry i j = if i = j then a else 0 :=
  Quadratic.entry_table_tabulate (fun i j => if i = j then a else 0) hi hj

theorem gram : IsScaled n a y (.gram (Quadratic.table n n (scaledIdentity n a).entries) y) := by
  refine ⟨⟨⟨rfl, rfl, hy⟩, ?_, rfl⟩, fun i hi j hj => entry_table hi hj, rfl⟩
  intro i (hi : i < n) j (hj : j < n)
  rw [entry_table hi hj, entry_table hj hi]
  exact if_congr eq_comm rfl rfl

end IsScaled

/-- The term that a representation stores where the observation fits, and what is refused where it
does not. -/
def accepted? (s : Solver K) (y : Option (Vec K)) (q : Quadratic K) :
    Except (Failure K) (Solver K) :=
  match y with
  | some l =>
    if l.size = s.vertexCount then .ok { s with quadratic := q, residual := none }
    else .error (.premultipliedShape s.vertexCount l.size)
  | none => .ok { s with quadratic := q, residual := none }

omit [ExactField K] in
theorem checked?_map (hsize : q.size = s.vertexCount) (hdirect : q.isDirect = false)
    (hobservation : q.observation? = y) :
    (Quadratic.checked? (some (Int.ofNat s.vertexCount)) q).map
      (fun q => { s with quadratic := q, residual := none }) = s.accepted? y q := by
  have hcount : ¬(q.size : ℤ) ≠ Int.ofNat s.vertexCount := not_not.mpr (congrArg Int.ofNat hsize)
  have hlinear : ∀ l : Vec K, (if l.size ≠ q.size then
        .error (Failure.premultipliedShape q.size l.size) else Except.ok q).map
      (fun q => { s with quadratic := q, residual := none }) = s.accepted? (some l) q := by
    intro l
    rw [accepted?, hsize, ite_not]
    split <;> rfl
  subst hobservation
  unfold Quadratic.checked?
  dsimp only
  rw [if_neg hcount]
  cases q with
  | none m => rfl
  | direct A y => cases hdirect
  | identity m c y =>
      cases y with
      | none => rfl
      | some l => exact hlinear l
  | diagonal d y =>
      cases y with
      | none => rfl
      | some l => exact hlinear l
  | gram H y =>
      cases y with
      | none => rfl
      | some l => exact hlinear l

section Configuration

variable (s) (observation : Option (Tensor K)) (a)

theorem setQuadratic_identity : s.setQuadratic observation none a (some "identity") =
    ([], s.accepted? (observation.map (·.entries))
      (.identity s.vertexCount a (observation.map (·.entries)))) :=
  Prod.ext rfl (checked?_map rfl rfl rfl)

theorem setQuadratic_diagonal :
    s.setQuadratic observation (some (.ofArray (Vec.constant s.vertexCount a))) 1
      (some "diagonal") = ([], s.accepted? (observation.map (·.entries))
        (.diagonal (Vec.constant s.vertexCount a) (observation.map (·.entries)))) :=
  Prod.ext rfl (checked?_map Array.size_replicate rfl rfl)

theorem isSymmetric_table (n : ℕ) :
    Quadratic.isSymmetric (Quadratic.table n n (scaledIdentity n a).entries) = true := by
  refine Quadratic.isSymmetric_of_comm fun i (hi : i < n) j (hj : j < n) => ?_
  rw [IsScaled.entry_table hi hj, IsScaled.entry_table hj hi]
  exact if_congr eq_comm rfl rfl

theorem setQuadratic_gram :
    s.setQuadratic observation (some (scaledIdentity s.vertexCount a)) 1 (some "gram") =
      ([], s.accepted? (observation.map (·.entries))
        (.gram (Quadratic.table s.vertexCount s.vertexCount (scaledIdentity s.vertexCount a).entries)
          (observation.map (·.entries)))) := by
  have hgram : Quadratic.gramMatrix? (scaledIdentity s.vertexCount a) =
      .ok (Quadratic.table s.vertexCount s.vertexCount (scaledIdentity s.vertexCount a).entries,
        []) := by
    change (if s.vertexCount = s.vertexCount then
      if Quadratic.isSymmetric (Quadratic.table s.vertexCount s.vertexCount
        (scaledIdentity s.vertexCount a).entries) then _ else _ else _) = _
    rw [if_pos rfl, if_pos (isSymmetric_table a _)]
    rfl
  have hbuilt : Quadratic.build ⟨observation, some (scaledIdentity s.vertexCount a), 1, some "gram",
      some (Int.ofNat s.vertexCount)⟩ = ([], Quadratic.checked? (some (Int.ofNat s.vertexCount))
        (.gram (Quadratic.table s.vertexCount s.vertexCount (scaledIdentity s.vertexCount a).entries)
          (observation.map (·.entries)))) :=
    Quadratic.build_gram rfl rfl hgram
  rw [setQuadratic, hbuilt]
  exact Prod.ext rfl (checked?_map rfl rfl rfl)

end Configuration

/-- The two solvers agree in everything but the representation of the quadratic term. -/
def AgreesApart {α : Type} (t u : Solver α) : Prop := u = t.withQuadratic u.quadratic

/-- The runs of the two solvers have the same outcome, and where one of them comes in its loop the
other comes too; there and at the end the two agree in all but the representation of the term. -/
structure RunsAlike {α : Type} [Scalar α] (r : Recording) (t u : Solver α) : Prop where
  run : Alike (· = ·) AgreesApart (run standardSteps true r) t (run standardSteps true r) u
  head : ∀ {left done : ℕ} {e : Option α} {t' : Solver α},
    LoopHead standardSteps r t left done e t' →
      ∃ u', LoopHead standardSteps r u left done e u' ∧ AgreesApart t' u'
  head' : ∀ {left done : ℕ} {e : Option α} {u' : Solver α},
    LoopHead standardSteps r u left done e u' →
      ∃ t', LoopHead standardSteps r t left done e t' ∧ AgreesApart t' u'

omit [ExactField K] in
theorem Represents.symm (h : Represents q q' t t') : Represents q' q t' t := by
  obtain ⟨rfl, rfl⟩ := h
  exact ⟨rfl, rfl⟩

omit [ExactField K] in
theorem Represents.agreesApart (h : Represents q q' t t') : AgreesApart t t' := by
  obtain ⟨-, rfl⟩ := h
  rfl

/-- Solvers with the same term in two representations have the same runs. -/
theorem SameTerm.runsAlike (hs : s.partition.IsArranged) (hbackend : s.inner.backend = .splitting)
    (hterm : SameTerm s.partition.vertexCount q q') (hterm' : SameTerm s.partition.vertexCount q' q)
    (r : Recording) : RunsAlike r (s.withQuadratic q) (s.withQuadratic q') := by
  have hlockstep : Lockstep standardSteps r (s.withQuadratic q) (s.withQuadratic q')
      (Represents q q') (Represents q q') :=
    lockstep_of_represents (s := s.withQuadratic q) hs hbackend hterm ⟨rfl, rfl⟩
  have hlockstep' : Lockstep standardSteps r (s.withQuadratic q') (s.withQuadratic q)
      (Represents q' q) (Represents q' q) :=
    lockstep_of_represents (s := s.withQuadratic q') hs hbackend hterm' ⟨rfl, rfl⟩
  constructor
  · refine hlockstep.run_alike.imp (fun _ _ heq => heq) fun t t' hrelated => ?_
    exact (hrelated.elim id id).agreesApart
  · intro left done e t hhead
    obtain ⟨t', hhead', hrelated⟩ := hlockstep.exists_head hhead
    exact ⟨t', hhead', hrelated.agreesApart⟩
  · intro left done e t hhead
    obtain ⟨t', hhead', hrelated⟩ := hlockstep'.exists_head hhead
    exact ⟨t', hhead', hrelated.symm.agreesApart⟩

/-- A multiple of the identity given as a scale, as a diagonal and as a table: the three solvers
refuse the same observations, and those that they accept have the same runs. -/
theorem runsAlike_of_setQuadratic (hs : s.partition.IsArranged)
    (hbackend : s.inner.backend = .splitting) (observation : Option (Tensor K)) (a : K)
    (r : Recording) :
    let asScale := s.setQuadratic observation none a (some "identity")
    let asDiagonal := s.setQuadratic observation (some (.ofArray (Vec.constant s.vertexCount a))) 1
      (some "diagonal")
    let asTable := s.setQuadratic observation (some (scaledIdentity s.vertexCount a)) 1 (some "gram")
    (∀ y ∈ observation, y.entries.size ≠ s.vertexCount →
      asScale = ([], .error (.premultipliedShape s.vertexCount y.entries.size)) ∧
        asDiagonal = asScale ∧ asTable = asScale) ∧
    ((∀ y ∈ observation, y.entries.size = s.vertexCount) →
      ∃ t u v, asScale = ([], .ok t) ∧ asDiagonal = ([], .ok u) ∧ asTable = ([], .ok v) ∧
        RunsAlike r t u ∧ RunsAlike r t v ∧ RunsAlike r u v) := by
  intro asScale asDiagonal asTable
  have hscale : asScale = _ := setQuadratic_identity s a observation
  have hdiagonal : asDiagonal = _ := setQuadratic_diagonal s a observation
  have htable : asTable = _ := setQuadratic_gram s a observation
  rw [hscale, hdiagonal, htable]
  constructor
  · intro y hy hsize
    obtain rfl := Option.mem_def.mp hy
    simp only [accepted?, Option.map_some, if_neg hsize, and_self]
  · intro hsize
    have hfits : ∀ l ∈ observation.map (·.entries), l.size = s.partition.vertexCount := by
      intro l hl
      obtain ⟨y, hy, rfl⟩ := Option.mem_map.mp hl
      exact hsize y hy
    have haccepted : ∀ q, s.accepted? (observation.map (·.entries)) q =
        .ok { s with quadratic := q, residual := none } := by
      intro q
      cases observation with
      | none => rfl
      | some y => exact if_pos (hsize y rfl)
    simp only [haccepted]
    have halike : ∀ {q q' : Quadratic K},
        IsScaled s.partition.vertexCount a (observation.map (·.entries)) q →
        IsScaled s.partition.vertexCount a (observation.map (·.entries)) q' →
        RunsAlike r { s with quadratic := q, residual := none }
          { s with quadratic := q', residual := none } := fun hq hq' =>
      SameTerm.runsAlike (s := { s with residual := none }) hs hbackend (hq.sameTerm hq')
        (hq'.sameTerm hq) r
    have hidentity := IsScaled.identity (a := a) hfits
    exact ⟨_, _, _, rfl, rfl, rfl, halike hidentity (.diagonal hfits),
      halike hidentity (.gram hfits), halike (.diagonal hfits) (.gram hfits)⟩

/-- A solver of a pair of vertices that makes one iteration for each solution. -/
def onePassPair : Solver ℚ :=
  { ofPartition (.whole ⟨#[0, 1, 1], #[0], #[1]⟩ ⟨none, 1⟩) with
    inner := { defaultInner with maxIterations := 1 } }

/-- Twice the identity and observations far from each other, in three representations: each of the
runs divides the pair. -/
theorem runsAlike_of_setQuadratic_onePassPair : ∃ t u v,
    onePassPair.setQuadratic (some (.ofArray #[0, 10])) none 2 (some "identity") = ([], .ok t) ∧
      onePassPair.setQuadratic (some (.ofArray #[0, 10])) (some (.ofArray #[2, 2])) 1
        (some "diagonal") = ([], .ok u) ∧
      onePassPair.setQuadratic (some (.ofArray #[0, 10])) (some ⟨[2, 2], #[2, 0, 0, 2]⟩) 1
        (some "gram") = ([], .ok v) ∧
      RunsAlike ⟨true, false⟩ t u ∧ RunsAlike ⟨true, false⟩ t v ∧ RunsAlike ⟨true, false⟩ u v ∧
      ∃ t', (run standardSteps true ⟨true, false⟩).Answers t 1 t' ∧ t'.x = some #[1 / 2, 9 / 2] ∧
        t'.history.objectives = [-25 / 2, -41 / 2] := by
  have hP : Partition.ofIndex? #[0, 1, 1] #[1] none (1 : ℚ) = .ok onePassPair.partition := by
    with_unfolding_all rfl
  have htable : scaledIdentity 2 (2 : ℚ) = ⟨[2, 2], #[2, 0, 0, 2]⟩ :=
    congrArg (Tensor.mk [2, 2]) (by decide +kernel)
  obtain ⟨t, u, v, ht, hu, hv, htu, htv, huv⟩ :=
    (runsAlike_of_setQuadratic (s := onePassPair) (Partition.isArranged_of_ofIndex? hP) rfl
      (some (.ofArray #[0, 10])) 2 ⟨true, false⟩).2 (by rintro _ ⟨⟩; rfl)
  have hterm : t = { onePassPair with quadratic := .identity 2 2 (some #[0, 10]) } :=
    Except.ok.inj ((congrArg Prod.snd ht).symm.trans
      (congrArg Prod.snd (setQuadratic_identity onePassPair 2 (some (.ofArray #[0, 10])))))
  have hrun : (run standardSteps true ⟨true, false⟩).Answers t 1 _ :=
    answers_of_toOption (by rw [hterm]; decide +kernel)
  refine ⟨t, u, v, ht, hu, ?_, htu, htv, huv, _, hrun, ?_⟩
  · rw [← htable]
    exact hv
  · rw [hterm]
    decide +kernel

end TotalVariation.Solver
