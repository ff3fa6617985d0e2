import Mathlib
import TotalVariation.Solver.Minimise
import TotalVariation.Proofs.Problem.Bounds

/-! # Solutions by splitting

A solution by splitting has one value for each variable. If an iteration was made, it respects the
bounds of every variable whose bounds do not exclude each other.
-/

namespace TotalVariation.Splitting

section Size

variable {α : Type} [Scalar α] {p : Problem α}

/-- The iterate and the values of the separable map are as many as variables. -/
structure State.Fits (p : Problem α) (s : State α) : Prop where
  size_x : s.x.size = p.size
  size_separable : s.separable.size = p.size

theorem step_separable (p : Problem α) (relaxation : α) (shares : Vec α) (s : State α) :
    (step p relaxation shares s).separable =
      separableStep p (fun v => Vec.entry shares v / Vec.entry s.metric v) fun v =>
        Scalar.two * Vec.entry s.x v - Vec.entry s.atVertex v -
          Vec.entry (Vec.tabulate p.size fun v =>
            Vec.entry s.metric v * Vec.entry (p.quadratic.gradientAt s.x) v) v := rfl

theorem fits_step (p : Problem α) (relaxation : α) (shares : Vec α) (s : State α) :
    (step p relaxation shares s).Fits p where
  size_x := Vec.size_tabulate _ _
  size_separable := Vec.size_tabulate _ _

@[simp] theorem recondition_x (p : Problem α) (k : Parameters α) (change : α) (s : State α) :
    (recondition p k change s).x = s.x := by
  unfold recondition
  split <;> rfl

@[simp] theorem recondition_separable (p : Problem α) (k : Parameters α) (change : α)
    (s : State α) : (recondition p k change s).separable = s.separable := by
  unfold recondition
  split <;> rfl

/-- The last state of the iteration has every property of the first that an iteration and a new
metric keep. -/
theorem iterate_induction {motive : State α → Prop} {p : Problem α} {k : Parameters α}
    {shares : Vec α} (hstep : ∀ s, motive s → motive (step p k.relaxation shares s))
    (hrecondition : ∀ change s, motive s → motive (recondition p k change s))
    (fuel done : Nat) {s : State α} (events : List (Event α)) (hs : motive s) :
    motive (iterate p k shares fuel done s events).1 := by
  induction fuel generalizing done s events with
  | zero => exact hs
  | succ fuel ih =>
      unfold iterate
      dsimp only
      split
      next => exact hstep s hs
      next => exact ih _ _ (hrecondition _ _ (hstep s hs))

/-- After at least one iteration the last state has every property that each iteration brings about
and a new metric keeps. -/
theorem iterate_succ_induction {motive : State α → Prop} {p : Problem α} {k : Parameters α}
    {shares : Vec α} (hstep : ∀ s, motive (step p k.relaxation shares s))
    (hrecondition : ∀ change s, motive s → motive (recondition p k change s))
    (fuel done : Nat) (s : State α) (events : List (Event α)) :
    motive (iterate p k shares (fuel + 1) done s events).1 := by
  unfold iterate
  dsimp only
  split
  next => exact hstep s
  next =>
    exact iterate_induction (fun s _ => hstep s) hrecondition _ _ _ (hrecondition _ _ (hstep s))

theorem fits_start {k : Parameters α} {init : Option (Vec α)}
    (hinit : ∀ x, init = some x → x.size = p.size) : (start p k init).Fits p := by
  cases init with
  | none =>
      have hfirst (metric : Vec α) : (firstIterate p metric).size = p.size :=
        Vec.size_tabulate _ _
      exact ⟨hfirst _, hfirst _⟩
  | some x => exact ⟨hinit x rfl, hinit x rfl⟩

/-- A solution has one value for each variable. -/
theorem size_solve {k : Parameters α} {init : Option (Vec α)}
    (hinit : ∀ x, init = some x → x.size = p.size) : (solve p k init).x.size = p.size := by
  have hlast : (iterate p k (shares p) k.maxIterations 0 (start p k init) []).1.Fits p := by
    refine iterate_induction (fun s _ => fits_step p _ _ s) ?_ _ _ _ (fits_start hinit)
    exact fun change s hs => ⟨by simpa using hs.size_x, by simpa using hs.size_separable⟩
  unfold solve
  dsimp only
  split
  next => exact hlast.size_separable
  next => exact hlast.size_x

theorem solve?_eq_ok {k : Parameters α} {init : Option (Vec α)} {answer : Answer α}
    (h : solve? p k init = .ok answer) : answer = solve p k init := by
  unfold solve? at h
  split at h
  next => exact (Except.ok.inj h).symm
  next =>
    split at h
    next => cases h
    next =>
      split at h
      next => cases h
      next => exact (Except.ok.inj h).symm

/-- Initial values that are as many as variables are not refused. -/
theorem solve?_eq_of_size (k : Parameters α) {init : Option (Vec α)}
    (hends : ∀ e < p.edges.size, p.edgeFrom e < p.size ∧ p.edgeTo e < p.size)
    (hsize : ∀ x ∈ init, x.size = p.size) : solve? p k init = .ok (solve p k init) := by
  cases init with
  | none => rfl
  | some x =>
      have hx : x.size = p.size := hsize x rfl
      have hrange : p.edges.any (fun e => decide (x.size ≤ e.1 ∨ x.size ≤ e.2)) = false := by
        rw [Array.any_eq_false]
        intro e he
        obtain ⟨hfrom, hto⟩ := hends e he
        have hget : p.edges.getD e (0, 0) = p.edges[e] := by simp [he]
        rw [Problem.edgeFrom, hget] at hfrom
        rw [Problem.edgeTo, hget] at hto
        rw [decide_eq_true_eq, hx]
        omega
      rw [solve?, hrange, if_neg Bool.false_ne_true, if_neg fun h => h.1 hx]
      rfl

/-- With targets or bounds a solution is an outcome of the separable map, if an iteration was made
for it or no iterate was given. -/
theorem exists_solve_eq {k : Parameters α} {init : Option (Vec α)} (hseparable : p.isSeparable = true)
    (hk : k.maxIterations ≠ 0 ∨ init = none) :
    ∃ metric point, (solve p k init).x = separableStep p metric point := by
  have hlast : ∃ metric point,
      (iterate p k (shares p) k.maxIterations 0 (start p k init) []).1.separable =
        separableStep p metric point := by
    cases hfuel : k.maxIterations with
    | zero =>
        obtain rfl := hk.resolve_left fun hne => hne hfuel
        rw [iterate, start, restart, Option.getD_none, firstIterate]
        dsimp only
        exact ⟨_, _, rfl⟩
    | succ fuel =>
        refine iterate_succ_induction
          (motive := fun s => ∃ metric point, s.separable = separableStep p metric point)
          (fun s => ⟨_, _, step_separable p _ _ s⟩) (fun change s hs => ?_) fuel 0 _ _
        rwa [recondition_separable]
  obtain ⟨metric, point, hlast⟩ := hlast
  refine ⟨metric, point, ?_⟩
  rw [← hlast]
  simp only [solve, hseparable, if_true]

/-- So it is the outcome of raising some value to the lower and lowering it to the upper bound. -/
theorem exists_entry_solve_eq {k : Parameters α} {init : Option (Vec α)}
    (hseparable : p.isSeparable = true) (hk : k.maxIterations ≠ 0 ∨ init = none) {v : Nat}
    (hv : v < p.size) :
    ∃ y, Vec.entry (solve p k init).x v = (p.upperAt v).cap ((p.lowerAt v).raise y) := by
  obtain ⟨metric, point, hx⟩ := exists_solve_eq hseparable hk
  rw [hx, separableStep, Vec.entry_tabulate, if_pos hv]
  exact ⟨_, rfl⟩

/-- Without targets and ordinary bounds no bound of a variable is ordinary. -/
theorem isFinite_eq_false_of_not_isSeparable (h : p.isSeparable = false) (v : Nat) :
    (p.lowerAt v).isFinite = false ∧ (p.upperAt v).isFinite = false := by
  simp only [Problem.isSeparable, Bool.or_eq_false_iff] at h
  obtain ⟨⟨-, hlower⟩, hupper⟩ := h
  have hread : ∀ bounds : Array (Bound α), bounds.any Bound.isFinite = false →
      (bounds.getD v none).isFinite = false := by
    intro bounds hall
    by_cases hv : v < bounds.size
    · rw [Array.any_eq_false'] at hall
      simpa [hv] using hall _ (Array.getElem_mem hv)
    · simp [hv, Bound.isFinite]
  exact ⟨hread _ hlower, hread _ hupper⟩

end Size

open TotalVariation.Bound

variable {K : Type} [ExactField K]

/-- Without targets and bounds nothing is to be respected. -/
theorem isBetween_of_not_isSeparable {p : Problem K} (h : p.isSeparable = false) (v : Nat) (x : K) :
    IsBetween (p.lowerAt v) (p.upperAt v) x := by
  obtain ⟨hlower, hupper⟩ := isFinite_eq_false_of_not_isSeparable h v
  -- among exact numbers a bound that is there is an ordinary number
  refine ⟨fun l hl => ?_, fun u hu => ?_⟩
  · rw [hl] at hlower
    cases hlower
  · rw [hu] at hupper
    cases hupper

/-- A solution that an iteration was made for, or that starts from no given iterate, respects the
bounds that do not exclude each other. -/
theorem isBetween_solve {p : Problem K} {k : Parameters K} {init : Option (Vec K)}
    (hk : k.maxIterations ≠ 0 ∨ init = none) {v : Nat} (hv : v < p.size)
    (h : AreUncrossed (p.lowerAt v) (p.upperAt v)) :
    IsBetween (p.lowerAt v) (p.upperAt v) (Vec.entry (solve p k init).x v) := by
  cases hseparable : p.isSeparable with
  | true =>
      obtain ⟨y, hy⟩ := exists_entry_solve_eq hseparable hk hv
      rw [hy]
      exact isBetween_cap_raise h y
  | false => exact isBetween_of_not_isSeparable hseparable v _

/-- A solution from an initial iterate that respects the bounds, or from none, respects them,
however many iterations are made. -/
theorem isBetween_solve_of_init {p : Problem K} {k : Parameters K} {init : Option (Vec K)} {v : Nat}
    (hv : v < p.size) (h : AreUncrossed (p.lowerAt v) (p.upperAt v))
    (hinit : ∀ x, init = some x → IsBetween (p.lowerAt v) (p.upperAt v) (Vec.entry x v)) :
    IsBetween (p.lowerAt v) (p.upperAt v) (Vec.entry (solve p k init).x v) := by
  by_cases hk : k.maxIterations ≠ 0 ∨ init = none
  · exact isBetween_solve hk hv h
  · -- no iteration is made, and all copies agree with the initial iterate
    rw [not_or, not_not] at hk
    obtain ⟨x, rfl⟩ := Option.ne_none_iff_exists'.mp hk.2
    have hfirst : (solve p k (some x)).x = x := by
      simp only [solve, hk.1, iterate, start, restart, ite_self, Option.getD_some]
    rw [hfirst]
    exact hinit x rfl

end TotalVariation.Splitting
