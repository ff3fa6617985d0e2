import Mathlib
import TotalVariation.Proofs.Partition.MergedRegions

/-! # The values that a merger leaves

The value of a merged region is the mean of the values that a chain joined there, each weighted by
the size of its region. Whether two neighbours differ after a merger is therefore decided by the
means of the chains and not by the values that were next to each other. Without a tolerance the
values of a chain are equal, and so is their mean.
-/

namespace TotalVariation.Partition

variable {K : Type} [ExactField K] {P Q : Partition K} {x y : Vec K} {tolerance : K} {merged : Int}

open scoped Classical in
/-- The regions that chains of close values join to a region. -/
noncomputable def chain (P : Partition K) (x : Vec K) (tolerance : K) (r : Nat) : Finset Nat :=
  {o ∈ Finset.range P.regionCount | P.Chained x tolerance o r}

/-- The mean of the values that chains join to a region, weighted by the sizes of their regions. -/
noncomputable def chainMean (P : Partition K) (x : Vec K) (tolerance : K) (r : Nat) : K :=
  (∑ o ∈ P.chain x tolerance r, Vec.entry x o * (P.sizeOf o : K)) /
    ∑ o ∈ P.chain x tolerance r, (P.sizeOf o : K)

/-- The edges of the graph of the regions join different values. -/
def JoinsDistinct (P : Partition K) (x : Vec K) : Prop :=
  ∀ a b, (a, b) ∈ P.reducedEdges → Vec.entry x a ≠ Vec.entry x b

theorem mem_chain {r o : Nat} :
    o ∈ P.chain x tolerance r ↔ o < P.regionCount ∧ P.Chained x tolerance o r := by
  simp [chain]

/-! ## The edges of the graph of the regions -/

omit [ExactField K] in
/-- What holds between regions in either order holds along the graph of the regions exactly if it
holds across the boundaries. -/
theorem IsCoherent.forall_reducedEdges_iff (h : P.IsCoherent) {p : Nat → Nat → Prop}
    (hsymm : ∀ a b, p a b → p b a) :
    (∀ a b, (a, b) ∈ P.reducedEdges → p a b) ↔ ∀ e < P.edgeCount, P.isActive e = true →
      p (P.regionOf (P.graph.tailOf e)) (P.regionOf (P.graph.headOf e)) := by
  constructor
  · intro hall e he hactive
    rcases lt_or_gt_of_ne ((h.isActive_iff e he).mp hactive) with hlt | hlt
    · exact hall _ _ ((h.mem_reducedEdges _ _).mpr ⟨hlt, e, he, joins_iff.mpr (.inl ⟨rfl, rfl⟩)⟩)
    · exact hsymm _ _
        (hall _ _ ((h.mem_reducedEdges _ _).mpr ⟨hlt, e, he, joins_iff.mpr (.inr ⟨rfl, rfl⟩)⟩))
  · intro hall a b hab
    obtain ⟨hlt, e, he, hjoin⟩ := (h.mem_reducedEdges a b).mp hab
    have hactive := (h.isActive_iff e he).mpr (separates_iff.mp (separates_of_joins hlt hjoin))
    rcases joins_iff.mp hjoin with ⟨rfl, rfl⟩ | ⟨rfl, rfl⟩
    · exact hall e he hactive
    · exact hsymm _ _ (hall e he hactive)

/-- The graph of the regions joins different values exactly if the ends of the boundaries differ. -/
theorem IsCoherent.joinsDistinct_iff (h : P.IsCoherent) :
    P.JoinsDistinct x ↔ ∀ e < P.edgeCount, P.isActive e = true →
      Vec.entry (P.expand x) (P.graph.tailOf e) ≠ Vec.entry (P.expand x) (P.graph.headOf e) := by
  rw [JoinsDistinct, h.forall_reducedEdges_iff fun _ _ => Ne.symm]
  refine forall₂_congr fun e he => ?_
  rw [P.entry_expand x (h.graph_valid.tail_lt e he), P.entry_expand x (h.graph_valid.head_lt e he)]

/-! ## The means of the chains -/

namespace IsUpToDate

/-- A merger that finds no close values leaves every region alone. -/
theorem isMerger_self (h : P.IsUpToDate) (hx : x.size = P.regionCount)
    (hnone : ∀ a b, ¬P.JoinsClose x tolerance a b) : P.IsMerger x tolerance P x 0 := by
  have hchained : ∀ a b, P.Chained x tolerance a b ↔ a = b := by
    intro a b
    rw [← linked_closePairs_iff, closePairs_eq_nil_iff.mpr hnone, Components.linked_nil_iff]
  have halone : ∀ r, P.IsAlone x tolerance r := fun r o ho => (hchained o r).mp ho
  refine ⟨h, fun u _ v _ => (hchained _ _).symm, (sub_self _).symm, ?_, fun _ _ _ => rfl,
    fun _ _ => (and_iff_left (halone _)).symm, fun _ _ => (and_iff_left (halone _)).symm, hx, ?_,
    rfl, rfl, rfl⟩
  · intro e he
    rw [hchained, and_iff_left_of_imp (h.isActive_iff e he).mp]
  · intro q hq
    have hvalue : ∀ v ∈ P.members q, Vec.entry (P.expand x) v = Vec.entry x q := by
      intro v hv
      obtain ⟨hlt, rfl⟩ := mem_members.mp hv
      exact P.entry_expand x hlt
    rw [Finset.sum_congr rfl hvalue, Finset.sum_const, nsmul_eq_mul, h.sizeOf_eq hq, mul_comm]

/-- A merger is not refused, and leaves the regions of the chains. -/
theorem exists_isMerger (h : P.IsUpToDate) (hx : x.size = P.regionCount) (tolerance : K) :
    ∃ Q y merged, P.merge? x tolerance = (Q, .ok (y, merged)) ∧
      P.IsMerger x tolerance Q y merged := by
  obtain ⟨y, merged, hok⟩ := h.exists_merge? (h.assignment_lt h.assignment_size) hx tolerance
  refine ⟨(P.merge? x tolerance).1, y, merged, Prod.ext rfl hok, ?_⟩
  rcases merge?_eq_ok hok with ⟨hnone, hsame, rfl, rfl⟩ | ⟨-, hrebuilt, rfl, rfl⟩
  · rw [hsame]
    exact h.isMerger_self hx (closePairs_eq_nil_iff.mp hnone)
  · rw [hrebuilt]
    exact h.isMerger x tolerance

end IsUpToDate

namespace IsMerger

theorem vertexCount_eq (hm : P.IsMerger x tolerance Q y merged) : Q.vertexCount = P.vertexCount :=
  congrArg ForwardStar.vertices hm.frame.1

theorem edgeCount_eq (hm : P.IsMerger x tolerance Q y merged) : Q.edgeCount = P.edgeCount :=
  congrArg ForwardStar.edges hm.frame.1

/-- A sum over a merged region is the sum over the regions that its chain joins. -/
theorem sum_members (hm : P.IsMerger x tolerance Q y merged) (h : P.IsUpToDate) (f : Nat → K)
    {v : Nat} (hv : v < P.vertexCount) :
    ∑ w ∈ Q.members (Q.regionOf v), f w =
      ∑ o ∈ P.chain x tolerance (P.regionOf v), ∑ w ∈ P.members o, f w := by
  have hmaps : ∀ w ∈ Q.members (Q.regionOf v),
      P.regionOf w ∈ P.chain x tolerance (P.regionOf v) := by
    intro w hw
    obtain ⟨hlt, hregion⟩ := mem_members.mp hw
    rw [hm.vertexCount_eq] at hlt
    exact mem_chain.mpr ⟨h.regionOf_lt hlt, (hm.regionOf_eq_iff w hlt v hv).mp hregion⟩
  rw [← Finset.sum_fiberwise_of_maps_to hmaps]
  refine Finset.sum_congr rfl fun o ho => Finset.sum_congr (Finset.ext fun w => ?_) fun _ _ => rfl
  rw [Finset.mem_filter, mem_members, mem_members, hm.vertexCount_eq]
  constructor
  · rintro ⟨⟨hlt, -⟩, hregion⟩
    exact ⟨hlt, hregion⟩
  · rintro ⟨hlt, rfl⟩
    exact ⟨⟨hlt, (hm.regionOf_eq_iff w hlt v hv).mpr (mem_chain.mp ho).2⟩, rfl⟩

/-- The value of a merged region is the mean over its chain. -/
theorem entry_eq_chainMean (hm : P.IsMerger x tolerance Q y merged) (h : P.IsUpToDate) {v : Nat}
    (hv : v < P.vertexCount) :
    Vec.entry y (Q.regionOf v) = P.chainMean x tolerance (P.regionOf v) := by
  have hlt : Q.regionOf v < Q.regionCount := hm.isUpToDate.regionOf_lt (hm.vertexCount_eq.symm ▸ hv)
  have hsum : Vec.entry y (Q.regionOf v) * (Q.sizeOf (Q.regionOf v) : K) =
      ∑ o ∈ P.chain x tolerance (P.regionOf v), Vec.entry x o * (P.sizeOf o : K) := by
    rw [hm.entry_mul_sizeOf _ hlt, hm.sum_members h _ hv]
    refine Finset.sum_congr rfl fun o ho => ?_
    have hvalue : ∀ w ∈ P.members o, Vec.entry (P.expand x) w = Vec.entry x o := by
      intro w hw
      obtain ⟨hw', rfl⟩ := mem_members.mp hw
      exact P.entry_expand x hw'
    rw [Finset.sum_congr rfl hvalue, Finset.sum_const, nsmul_eq_mul, mul_comm,
      h.sizeOf_eq (mem_chain.mp ho).1]
  have hsize : (Q.sizeOf (Q.regionOf v) : K) =
      ∑ o ∈ P.chain x tolerance (P.regionOf v), (P.sizeOf o : K) := by
    have hones := hm.sum_members h (fun _ => (1 : K)) hv
    simp only [Finset.sum_const, nsmul_one] at hones
    rw [hm.isUpToDate.sizeOf_eq hlt, hones]
    exact Finset.sum_congr rfl fun o ho => by rw [h.sizeOf_eq (mem_chain.mp ho).1]
  have hpos : (Q.sizeOf (Q.regionOf v) : K) ≠ 0 := by
    rw [hm.isUpToDate.sizeOf_eq hlt, Nat.cast_ne_zero, Finset.card_ne_zero]
    exact hm.isUpToDate.members_nonempty hlt
  rw [chainMean, ← hsum, ← hsize, mul_div_cancel_right₀ _ hpos]

/-- The value of a vertex is the mean over the chain of its former region. -/
theorem entry_expand (hm : P.IsMerger x tolerance Q y merged) (h : P.IsUpToDate) {v : Nat}
    (hv : v < P.vertexCount) :
    Vec.entry (Q.expand y) v = P.chainMean x tolerance (P.regionOf v) := by
  rw [Partition.entry_expand Q y (hm.vertexCount_eq.symm ▸ hv), hm.entry_eq_chainMean h hv]

/-- Merged neighbours differ exactly if the means of any two chains that an edge joins differ. -/
theorem joinsDistinct_iff (hm : P.IsMerger x tolerance Q y merged) (h : P.IsUpToDate) :
    Q.JoinsDistinct y ↔ ∀ a b, (a, b) ∈ P.reducedEdges → ¬P.Chained x tolerance a b →
      P.chainMean x tolerance a ≠ P.chainMean x tolerance b := by
  rw [hm.isUpToDate.joinsDistinct_iff, h.forall_reducedEdges_iff
    fun a b hab hba => (hab (mt (Relation.EqvGen.symm _ _) hba)).symm, hm.edgeCount_eq, hm.frame.1]
  refine forall₂_congr fun e he => ?_
  rw [hm.isActive_iff e he, hm.entry_expand h (h.graph_valid.tail_lt e he),
    hm.entry_expand h (h.graph_valid.head_lt e he), and_imp]

end IsMerger

/-! ## Mergers of equal values -/

/-- Without a tolerance the values of a chain are equal. -/
theorem Chained.entry_eq {a b : Nat} (h : P.Chained x 0 a b) : Vec.entry x a = Vec.entry x b :=
  eq_of_linked_closePairs (linked_closePairs_iff.mpr h)

namespace IsUpToDate

/-- Without a tolerance the mean over a chain is the value of each of its regions. -/
theorem chainMean_zero (h : P.IsUpToDate) (x : Vec K) {r : Nat} (hr : r < P.regionCount) :
    P.chainMean x 0 r = Vec.entry x r := by
  have hpos : ∀ o < P.regionCount, (0 : K) < P.sizeOf o := by
    intro o ho
    rw [h.sizeOf_eq ho, Nat.cast_pos, Finset.card_pos]
    exact h.members_nonempty ho
  have hself : r ∈ P.chain x 0 r := mem_chain.mpr ⟨hr, Relation.EqvGen.refl _⟩
  have htotal : (0 : K) < ∑ o ∈ P.chain x 0 r, (P.sizeOf o : K) :=
    Finset.sum_pos (fun o ho => hpos o (mem_chain.mp ho).1) ⟨r, hself⟩
  have hvalues : ∑ o ∈ P.chain x 0 r, Vec.entry x o * (P.sizeOf o : K) =
      Vec.entry x r * ∑ o ∈ P.chain x 0 r, (P.sizeOf o : K) := by
    rw [Finset.mul_sum]
    exact Finset.sum_congr rfl fun o ho => by rw [(mem_chain.mp ho).2.entry_eq]
  rw [chainMean, hvalues, mul_div_cancel_right₀ _ htotal.ne']

/-- A merger of equal values leaves no neighbours with equal values. -/
theorem joinsDistinct_of_isMerger (h : P.IsUpToDate) (hm : P.IsMerger x 0 Q y merged) :
    Q.JoinsDistinct y := by
  refine (hm.joinsDistinct_iff h).mpr fun a b hab hnot => ?_
  obtain ⟨ha, hb⟩ := h.reducedEdges_lt hab
  rw [h.chainMean_zero x ha, h.chainMean_zero x hb]
  intro heq
  refine hnot (Relation.EqvGen.rel _ _ ⟨hab, ?_⟩)
  rw [heq, sub_self, abs_zero, zero_mul]

/-- A merger of equal values keeps the value of every vertex. -/
theorem expand_eq_of_isMerger (h : P.IsUpToDate) (hm : P.IsMerger x 0 Q y merged) :
    Q.expand y = P.expand x := by
  refine Vec.ext_entry (by rw [size_expand, size_expand, hm.vertexCount_eq]) fun v hv => ?_
  rw [size_expand, hm.vertexCount_eq] at hv
  rw [hm.entry_expand h hv, h.chainMean_zero x (h.regionOf_lt hv), P.entry_expand x hv]

/-- Where neighbours have different values a merger of equal values changes nothing. -/
theorem merge?_of_joinsDistinct (h : P.IsUpToDate) (hx : x.size = P.regionCount)
    (hdistinct : P.JoinsDistinct x) : P.merge? x 0 = (P, .ok (x, 0)) := by
  have hnone : P.closePairs x 0 = [] := by
    refine closePairs_eq_nil_iff.mpr fun a b hclose => hdistinct a b hclose.1 ?_
    exact Chained.entry_eq (Relation.EqvGen.rel _ _ hclose)
  obtain ⟨y, merged, hok⟩ := h.exists_merge? (h.assignment_lt h.assignment_size) hx 0
  rcases merge?_eq_ok hok with ⟨-, hsame, rfl, rfl⟩ | ⟨hsome, -⟩
  · exact Prod.ext hsame hok
  · exact absurd hnone hsome

end IsUpToDate
end TotalVariation.Partition
