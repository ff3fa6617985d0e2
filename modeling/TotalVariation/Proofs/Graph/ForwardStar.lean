import Mathlib
import TotalVariation.Graph.ForwardStar

/-! # Valid forward stars

An accepted index of first edges gives a graph whose edges join vertices, and in which the edges
that start from a vertex are those listed for it.
-/

namespace TotalVariation.ForwardStar

variable {α : Type}

/-- Every edge joins two vertices, and the positions listed for a vertex are the edges that start
from it. -/
structure IsValid (G : ForwardStar) : Prop where
  tail_lt : ∀ e < G.edges, G.tailOf e < G.vertices
  head_lt : ∀ e < G.edges, G.headOf e < G.vertices
  mem_edgesOf : ∀ v < G.vertices, ∀ e, e ∈ G.edgesOf v ↔ e < G.edges ∧ G.tailOf e = v

theorem mem_edgesOf_iff (G : ForwardStar) (v e : Nat) :
    e ∈ G.edgesOf v ↔ G.firstOf v ≤ e ∧ e < G.firstOf (v + 1) := by
  simp only [edgesOf, List.mem_map, List.mem_range]
  constructor
  · rintro ⟨i, hi, rfl⟩
    omega
  · rintro ⟨hlow, hupp⟩
    exact ⟨e - G.firstOf v, by omega, by omega⟩

/-! ## Running sums -/

theorem getD_runningSums (start : Nat) (ns : List Nat) {k : Nat} (hk : k ≤ ns.length) :
    (runningSums start ns).getD k 0 = start + (ns.take k).sum := by
  induction ns generalizing start k with
  | nil =>
      obtain rfl : k = 0 := by simpa using hk
      simp [runningSums]
  | cons n ns ih =>
      cases k with
      | zero => simp [runningSums]
      | succ k =>
          rw [runningSums, List.getD_cons_succ, ih _ (by simpa using hk), List.take_succ_cons,
            List.sum_cons, Nat.add_assoc]

/-! ## Starts read off an index -/

theorem tails?_cons_cons {v : Nat} {a b : Int} {rest : List Int} {ts : List Nat}
    (h : tails? (α := α) v (a :: b :: rest) = .ok ts) :
    a ≤ b ∧ ∃ later, tails? (α := α) (v + 1) (b :: rest) = .ok later ∧
      ts = List.replicate (b - a).toNat v ++ later := by
  rw [tails?] at h
  split at h
  next => cases h
  next hab =>
    cases hlater : tails? (α := α) (v + 1) (b :: rest) with
    | error => rw [hlater] at h; cases h
    | ok later =>
        rw [hlater] at h
        exact ⟨Int.not_lt.mp hab, later, rfl, (Except.ok.inj h).symm⟩

/-- The first entry of an accepted index is its smallest. -/
theorem le_getD_of_tails {v : Nat} {a : Int} {fs : List Int} {ts : List Nat}
    (h : tails? (α := α) v (a :: fs) = .ok ts) {k : Nat} (hk : k ≤ fs.length) :
    a ≤ (a :: fs).getD k 0 := by
  induction fs generalizing v a ts k with
  | nil =>
      obtain rfl : k = 0 := by simpa using hk
      simp
  | cons b rest ih =>
      obtain ⟨hab, later, hlater, -⟩ := tails?_cons_cons h
      cases k with
      | zero => simp
      | succ k =>
          have hb : b ≤ (b :: rest).getD k 0 := ih hlater (by simpa using hk)
          rw [List.getD_cons_succ]
          omega

/-- The entries of an accepted index do not decrease. -/
theorem getD_le_getD_of_tails {v : Nat} {a : Int} {fs : List Int} {ts : List Nat}
    (h : tails? (α := α) v (a :: fs) = .ok ts) {k : Nat} (hk : k < fs.length) :
    (a :: fs).getD k 0 ≤ fs.getD k 0 := by
  induction fs generalizing v a ts k with
  | nil => simp at hk
  | cons b rest ih =>
      obtain ⟨hab, later, hlater, -⟩ := tails?_cons_cons h
      cases k with
      | zero => simpa using hab
      | succ k =>
          rw [List.getD_cons_succ, List.getD_cons_succ]
          exact ih hlater (by simpa using hk)

/-- The starts are vertices from the first on, one fewer than the index has entries. -/
theorem mem_tails_bounds {v : Nat} {fs : List Int} {ts : List Nat}
    (h : tails? (α := α) v fs = .ok ts) {w : Nat} (hw : w ∈ ts) :
    v ≤ w ∧ w + 1 < v + fs.length := by
  induction fs generalizing v ts with
  | nil =>
      cases h
      simp at hw
  | cons a fs ih =>
      cases fs with
      | nil =>
          cases h
          simp at hw
      | cons b rest =>
          obtain ⟨-, later, hlater, rfl⟩ := tails?_cons_cons h
          rcases List.mem_append.mp hw with hmem | hmem
          · obtain rfl := List.eq_of_mem_replicate hmem
            simp
          · have hlow := ih hlater hmem
            simp only [List.length_cons] at hlow ⊢
            omega

theorem length_tails {v : Nat} {a : Int} {fs : List Int} {ts : List Nat}
    (h : tails? (α := α) v (a :: fs) = .ok ts) :
    (ts.length : Int) = (a :: fs).getD fs.length 0 - a := by
  induction fs generalizing v a ts with
  | nil =>
      cases h
      simp
  | cons b rest ih =>
      obtain ⟨hab, later, hlater, rfl⟩ := tails?_cons_cons h
      have hlen := ih hlater
      rw [List.length_append, List.length_replicate, List.length_cons, List.getD_cons_succ]
      push_cast
      omega

/-- The starts read off an index hold a vertex at each position from its entry up to the next. -/
theorem getElem?_tails {v : Nat} {a : Int} {fs : List Int} {ts : List Nat}
    (h : tails? (α := α) v (a :: fs) = .ok ts) {k : Nat} (hk : k < fs.length) (e : Nat) :
    ts[e]? = some (v + k) ↔ (a :: fs).getD k 0 - a ≤ e ∧ (e : Int) < fs.getD k 0 - a := by
  -- The first vertex fills the positions before `b - a`; the others are those of the rest.
  induction fs generalizing v a ts k e with
  | nil => simp at hk
  | cons b rest ih =>
      obtain ⟨hab, later, hlater, rfl⟩ := tails?_cons_cons h
      rw [List.getElem?_append, List.length_replicate]
      split
      next he =>
        rw [List.getElem?_replicate, if_pos he]
        cases k with
        | zero =>
            simp only [List.getD_cons_zero, Nat.add_zero, true_iff]
            omega
        | succ k =>
            have hb : b ≤ (b :: rest).getD k 0 :=
              le_getD_of_tails hlater (Nat.le_of_lt (by simpa using hk))
            rw [List.getD_cons_succ, List.getD_cons_succ]
            constructor
            · intro heq
              have := Option.some.inj heq
              omega
            · rintro ⟨hlow, -⟩
              omega
      next he =>
        cases k with
        | zero =>
            simp only [List.getD_cons_zero, Nat.add_zero]
            constructor
            · intro hget
              have := (mem_tails_bounds hlater (List.mem_of_getElem? hget)).1
              omega
            · rintro ⟨-, hupp⟩
              omega
        | succ k =>
            have hih := ih hlater (by simpa using hk) (e - (b - a).toNat)
            rw [show v + (k + 1) = v + 1 + k by omega, hih, List.getD_cons_succ,
              List.getD_cons_succ]
            omega

/-! ## Accepted graphs -/

theorem ofIndex?_eq_ok {first adjacent : Array Int} {G : ForwardStar}
    (h : ofIndex? (α := α) first adjacent = .ok G) :
    2 ≤ first.size ∧ first.getD 0 0 = 0 ∧ first.getD (first.size - 1) 0 = adjacent.size ∧
      (∀ v ∈ adjacent, 0 ≤ v ∧ v < (first.size - 1 : Nat)) ∧
      ∃ tails, tails? (α := α) 0 first.toList = .ok tails ∧
        G = ⟨first.map Int.toNat, tails.toArray, adjacent.map Int.toNat⟩ := by
  dsimp only [ofIndex?] at h
  split at h
  next => cases h
  next hsize =>
    split at h
    next => cases h
    next hends =>
      split at h
      next => cases h
      next hrange =>
        obtain ⟨hstart, hstop⟩ := not_or.mp hends
        refine ⟨Nat.not_lt.mp hsize, not_not.mp hstart, not_not.mp hstop, ?_, ?_⟩
        · intro v hv
          by_contra hout
          exact hrange (Array.any_eq_true'.mpr ⟨v, hv, by simp only [decide_eq_true_eq]; omega⟩)
        · cases htails : tails? (α := α) 0 first.toList with
          | error =>
              rw [htails] at h
              cases h
          | ok tails =>
              rw [htails] at h
              exact ⟨tails, rfl, (Except.ok.inj h).symm⟩

/-- An accepted graph has the given index of first edges. -/
theorem firstOf_of_ofIndex? {first adjacent : Array Int} {G : ForwardStar}
    (h : ofIndex? (α := α) first adjacent = .ok G) (k : Nat) :
    (G.firstOf k : Int) = first.getD k 0 := by
  obtain ⟨hsize, hstart, -, -, tails, htails, rfl⟩ := ofIndex?_eq_ok h
  obtain ⟨fs⟩ := first
  cases fs with
  | nil => simp at hsize
  | cons a rest =>
      obtain rfl : a = 0 := by simpa using hstart
      by_cases hk : k ≤ rest.length
      · have hget : firstOf ⟨(List.toArray ((0 : Int) :: rest)).map Int.toNat, tails.toArray,
            adjacent.map Int.toNat⟩ k = (((0 : Int) :: rest).getD k 0).toNat := by
          cases k with
          | zero => simp [firstOf]
          | succ k => simp [firstOf, Nat.lt_of_succ_le hk]
        rw [hget, Int.toNat_of_nonneg (le_getD_of_tails htails hk)]
        simp
      · obtain ⟨j, rfl⟩ : ∃ j, k = j + 1 := ⟨k - 1, by omega⟩
        have hout : rest.length ≤ j := by omega
        simp [firstOf, hout]

/-- In an accepted graph the edges of a vertex do not end before they begin. -/
theorem firstOf_le_of_ofIndex? {first adjacent : Array Int} {G : ForwardStar}
    (h : ofIndex? (α := α) first adjacent = .ok G) {v : Nat} (hv : v < G.vertices) :
    G.firstOf v ≤ G.firstOf (v + 1) := by
  obtain ⟨-, -, -, -, tails, htails, hG⟩ := ofIndex?_eq_ok h
  have hlow := firstOf_of_ofIndex? h v
  have hupp := firstOf_of_ofIndex? h (v + 1)
  obtain ⟨fs⟩ := first
  cases fs with
  | nil => simp [hG, vertices] at hv
  | cons a rest =>
      have hle := getD_le_getD_of_tails htails (k := v) (by simpa [hG, vertices] using hv)
      simp only [Array.getD_eq_getD_getElem?, List.getElem?_toArray, List.getElem?_cons_succ,
        ← List.getD_eq_getElem?_getD] at hlow hupp
      omega

/-- An accepted graph is valid. -/
theorem isValid_of_ofIndex? {first adjacent : Array Int} {G : ForwardStar}
    (h : ofIndex? (α := α) first adjacent = .ok G) : G.IsValid := by
  have hfirst := firstOf_of_ofIndex? h
  obtain ⟨hsize, hstart, hstop, hrange, tails, htails, hG⟩ := ofIndex?_eq_ok h
  obtain ⟨fs⟩ := first
  cases fs with
  | nil => simp at hsize
  | cons a rest =>
      obtain rfl : a = 0 := by simpa using hstart
      have hlen : (tails.length : Int) = adjacent.size := by
        rw [length_tails htails, Int.sub_zero, ← hstop]
        simp
      have hvertices : G.vertices = rest.length := by simp [hG, vertices]
      have hedges : G.edges = tails.length := by
        simp only [hG, edges, Array.size_map]
        omega
      have htail (e : Nat) : G.tailOf e = tails.getD e 0 := by simp [hG, tailOf]
      refine ⟨?_, ?_, ?_⟩
      · intro e he
        have he' : e < tails.length := hedges ▸ he
        have hmem : G.tailOf e ∈ tails := by simp [htail, he']
        have hlt := (mem_tails_bounds htails hmem).2
        rw [hvertices]
        simpa using hlt
      · intro e he
        have he' : e < adjacent.size := by omega
        have hget : G.headOf e = adjacent[e].toNat := by simp [hG, headOf, he']
        have hbounds := hrange adjacent[e] (by simp)
        rw [hget, hvertices]
        simp only [List.size_toArray, List.length_cons] at hbounds
        omega
      · intro v hv e
        have hv' : v < rest.length := hvertices ▸ hv
        have hspec := getElem?_tails htails hv' e
        rw [Nat.zero_add, Int.sub_zero, Int.sub_zero] at hspec
        have hthis : (G.firstOf v : Int) = ((0 : Int) :: rest).getD v 0 := by simp [hfirst]
        have hnext : (G.firstOf (v + 1) : Int) = rest.getD v 0 := by simp [hfirst]
        rw [mem_edgesOf_iff, hedges, htail]
        have hiff : tails[e]? = some v ↔ e < tails.length ∧ tails.getD e 0 = v := by
          rw [List.getElem?_eq_some_iff]
          constructor
          · rintro ⟨he, hget⟩
            exact ⟨he, by simpa [he] using hget⟩
          · rintro ⟨he, hget⟩
            exact ⟨he, by simpa [he] using hget⟩
        rw [← hiff, hspec, ← hthis, ← hnext]
        omega

end TotalVariation.ForwardStar
