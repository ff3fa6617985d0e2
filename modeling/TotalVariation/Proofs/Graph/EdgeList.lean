import Mathlib
import TotalVariation.Proofs.Graph.ForwardStar

/-! # Forward stars of edge lists

The forward star of a list of edges loses nothing: the edges are those of the list, ordered by their
starts, and edges of one start keep the order of the list. The index of first edges tells all starts
again, so that the graph it gives is accepted.
-/

namespace TotalVariation.ForwardStar

variable {α : Type} {n : Nat} {source target : Array Nat}

/-! ## The order of the starts -/

theorem mem_sourceOrder (hsource : ∀ v ∈ source, v < n) {e : Nat} :
    e ∈ sourceOrder n source ↔ e < source.size := by
  simp only [sourceOrder, List.mem_flatMap, List.mem_range, List.mem_filter, beq_iff_eq]
  constructor
  · rintro ⟨v, -, he, -⟩
    exact he
  · intro he
    exact ⟨source.getD e n, by simpa [he] using hsource _ (Array.getElem_mem he), he, rfl⟩

theorem pairwise_sourceOrder (n : Nat) (source : Array Nat) : (sourceOrder n source).Pairwise
    fun e f => source.getD e n < source.getD f n ∨ source.getD e n = source.getD f n ∧ e < f := by
  have hstart : ∀ {v e : Nat},
      e ∈ (List.range source.size).filter (fun e => source.getD e n == v) → source.getD e n = v :=
    fun he => beq_iff_eq.mp (List.mem_filter.mp he).2
  rw [sourceOrder, List.pairwise_flatMap]
  constructor
  · intro v _
    refine (List.pairwise_lt_range.filter _).imp_of_mem fun he hf hlt => .inr ⟨?_, hlt⟩
    rw [hstart he, hstart hf]
  · refine List.pairwise_lt_range.imp fun hlt e he f hf => .inl ?_
    rwa [hstart he, hstart hf]

theorem sourceOrder_perm (hsource : ∀ v ∈ source, v < n) :
    (sourceOrder n source).Perm (List.range source.size) := by
  have hnodup : (sourceOrder n source).Nodup := by
    refine (pairwise_sourceOrder n source).imp ?_
    rintro e _ hlt rfl
    rcases hlt with hlt | ⟨-, hlt⟩ <;> exact lt_irrefl _ hlt
  refine (List.perm_ext_iff_of_nodup hnodup List.nodup_range).mpr fun e => ?_
  rw [mem_sourceOrder hsource, List.mem_range]

/-! ## The index of first edges -/

/-- The number of edges of a list that start from a vertex. -/
def degree (n : Nat) (source : Array Nat) (v : Nat) : Nat :=
  ((List.range source.size).filter fun e => source.getD e n == v).length

theorem ofEdges_eq (n : Nat) (source target : Array Nat) : ofEdges n source target =
    (⟨(runningSums 0 ((List.range n).map (degree n source))).toArray,
      ((sourceOrder n source).map fun e => source.getD e 0).toArray,
      ((sourceOrder n source).map fun e => target.getD e 0).toArray⟩, sourceOrder n source) :=
  rfl

/-- In the order of the starts each vertex comes as often as edges start from it. -/
theorem map_sourceOrder (n : Nat) (source : Array Nat) :
    (sourceOrder n source).map (fun e => source.getD e 0) =
      (List.range n).flatMap fun v => List.replicate (degree n source v) v := by
  rw [sourceOrder, List.map_flatMap]
  refine List.flatMap_congr fun v _ =>
    List.eq_replicate_iff.mpr ⟨by rw [List.length_map, degree], ?_⟩
  intro w hw
  obtain ⟨e, he, rfl⟩ := List.mem_map.mp hw
  obtain ⟨hlt, hstart⟩ := List.mem_filter.mp he
  rw [List.mem_range] at hlt
  simpa [hlt] using hstart

/-- From running sums the starts are read off again: each vertex as often as was counted. -/
theorem tails?_runningSums (count : Nat → Nat) (start v m : Nat) :
    tails? (α := α) v ((runningSums start ((List.range' v m).map count)).map Int.ofNat) =
      .ok ((List.range' v m).flatMap fun w => List.replicate (count w) w) := by
  induction m generalizing start v with
  | zero => rfl
  | succ m ih =>
      -- the sums go on with that of the first vertex
      obtain ⟨later, hlater⟩ : ∃ later, runningSums (start + count v)
          ((List.range' (v + 1) m).map count) = (start + count v) :: later := by
        cases m with
        | zero => exact ⟨_, rfl⟩
        | succ m => exact ⟨_, rfl⟩
      have hrest := ih (start + count v) (v + 1)
      rw [hlater] at hrest
      rw [List.range'_succ, List.map_cons, runningSums, hlater]
      simp only [List.map_cons] at hrest ⊢
      rw [tails?, hrest, if_neg (by simp), List.flatMap_cons]
      simp

theorem tails?_ofEdges (n : Nat) (source target : Array Nat) :
    tails? (α := α) 0 ((ofEdges n source target).1.first.toList.map Int.ofNat) =
      .ok (ofEdges n source target).1.tail.toList := by
  rw [ofEdges_eq]
  dsimp only
  rw [map_sourceOrder, List.range_eq_range']
  exact tails?_runningSums _ 0 0 n

theorem firstOf_ofEdges (source target : Array Nat) {v : Nat} (hv : v ≤ n) :
    (ofEdges n source target).1.firstOf v = ((List.range v).map (degree n source)).sum := by
  have hsum := getD_runningSums 0 ((List.range n).map (degree n source)) (k := v)
    (by simpa using hv)
  rw [← List.map_take, List.take_range, min_eq_left hv, Nat.zero_add] at hsum
  simpa [ofEdges_eq, firstOf] using hsum

/-! ## The stored edges -/

/-- The forward star stores the edges of a list on `n` vertices. At position `k` stands the edge at
place `order[k]` of the list; edges of one start keep the order of the list. -/
structure Stores (G : ForwardStar) (n : Nat) (source target : Array Nat) (order : List Nat) :
    Prop where
  order_perm : order.Perm (List.range source.size)
  order_stable : order.Pairwise fun e f => source.getD e 0 = source.getD f 0 → e < f
  first_size : G.first.size = n + 1
  first_zero : G.firstOf 0 = 0
  first_mono : ∀ v < n, G.firstOf v ≤ G.firstOf (v + 1)
  first_last : G.firstOf n = source.size
  tail_size : G.tail.size = source.size
  head_size : G.head.size = source.size
  tailOf_eq : ∀ k < source.size, G.tailOf k = source.getD (order.getD k 0) 0
  headOf_eq : ∀ k < source.size, G.headOf k = target.getD (order.getD k 0) 0

theorem stores_ofEdges (hsource : ∀ v ∈ source, v < n) (target : Array Nat) :
    (ofEdges n source target).1.Stores n source target (ofEdges n source target).2 := by
  have hperm := sourceOrder_perm hsource
  have hlength : (sourceOrder n source).length = source.size := by
    rw [hperm.length_eq, List.length_range]
  refine ⟨hperm, ?_, ?_, ?_, ?_, ?_, ?_, ?_, ?_, ?_⟩
  · refine (pairwise_sourceOrder n source).imp_of_mem fun {e f} he hf hlt heq => ?_
    have he' := (mem_sourceOrder hsource).mp he
    have hf' := (mem_sourceOrder hsource).mp hf
    simp only [Array.getD_eq_getD_getElem?, he', hf', getElem?_pos, Option.getD_some] at hlt heq
    exact (hlt.resolve_left (heq ▸ lt_irrefl _)).2
  · simp [ofEdges_eq, length_runningSums]
  · exact firstOf_ofEdges source target (Nat.zero_le n)
  · intro v hv
    rw [firstOf_ofEdges _ _ hv.le, firstOf_ofEdges _ _ hv, List.range_succ, List.map_append,
      List.sum_append]
    exact Nat.le_add_right _ _
  · have hcount := congrArg List.length (map_sourceOrder n source)
    rw [List.length_map, hlength, List.length_flatMap] at hcount
    rw [firstOf_ofEdges _ _ le_rfl, hcount]
    simp
  · simpa [ofEdges_eq] using hlength
  · simpa [ofEdges_eq] using hlength
  · intro k hk
    have hk' : k < (sourceOrder n source).length := hlength.symm ▸ hk
    simp [ofEdges_eq, tailOf, hk']
  · intro k hk
    have hk' : k < (sourceOrder n source).length := hlength.symm ▸ hk
    simp [ofEdges_eq, headOf, hk']

/-- What is read off the stored edges is what is read off the edges of the list, in another
order. -/
theorem Stores.map_perm {β : Type} {G : ForwardStar} {order : List Nat}
    (h : G.Stores n source target order) (f : Nat → Nat → Nat → β) :
    ((List.range G.edges).map fun k => f (order.getD k 0) (G.tailOf k) (G.headOf k)).Perm
      ((List.range source.size).map fun e => f e (source.getD e 0) (target.getD e 0)) := by
  have hlength : order.length = source.size := by rw [h.order_perm.length_eq, List.length_range]
  have hstored : ((List.range G.edges).map fun k =>
      f (order.getD k 0) (G.tailOf k) (G.headOf k)) =
        order.map fun e => f e (source.getD e 0) (target.getD e 0) := by
    refine List.ext_getElem (by simp [edges, h.head_size, hlength]) fun k hk _ => ?_
    have hk' : k < source.size := by simpa [edges, h.head_size] using hk
    have hplace : k < order.length := hlength.symm ▸ hk'
    simp [h.tailOf_eq k hk', h.headOf_eq k hk', hplace]
  rw [hstored]
  exact h.order_perm.map _

theorem map_toNat_map_ofNat (vs : Array Nat) : (vs.map Int.ofNat).map Int.toNat = vs := by
  rw [Array.map_map]
  exact Array.map_id vs

theorem not_any_outside {vs : Array Nat} (h : ∀ v ∈ vs, v < n) :
    ¬((vs.map Int.ofNat).any fun v => v < 0 ∨ (n : Int) ≤ v) = true := by
  simp only [Array.any_eq_true', Array.mem_map, decide_eq_true_eq]
  rintro ⟨_, ⟨v, hv, rfl⟩, hnegative | hlarge⟩
  · exact absurd hnegative (not_lt.mpr (Int.natCast_nonneg v))
  · exact absurd (h v hv) (not_lt.mpr (Int.ofNat_le.mp hlarge))

/-- The forward star of a list of edges between vertices is given and stores the edges of the list,
and the starts that are read off its index of first edges are theirs. -/
theorem ofEdges?_stores (hsize : source.size = target.size) (hsource : ∀ v ∈ source, v < n)
    (htarget : ∀ v ∈ target, v < n) :
    ofEdges? (α := α) n (source.map Int.ofNat) (target.map Int.ofNat) =
        .ok (ofEdges n source target) ∧
      tails? (α := α) 0 ((ofEdges n source target).1.first.toList.map Int.ofNat) =
        .ok (ofEdges n source target).1.tail.toList ∧
      (ofEdges n source target).1.Stores n source target (ofEdges n source target).2 := by
  have hends : ∀ v ∈ source ++ target, v < n := fun v hv =>
    (Array.mem_append.mp hv).elim (hsource v) (htarget v)
  have hinside := not_any_outside hends
  rw [Array.map_append] at hinside
  refine ⟨?_, tails?_ofEdges n source target, stores_ofEdges hsource target⟩
  rw [ofEdges?, if_neg (by simpa using hsize), if_neg hinside, if_neg (by simp),
    map_toNat_map_ofNat, map_toNat_map_ofNat]
  rfl

/-- Two edges are given twice, and no edge starts from the last two vertices. -/
theorem ofEdges?_stores_repeated :
    #[2, 0, 1, 0, 0, 2].size = #[3, 1, 2, 2, 1, 3].size ∧
      (∀ v ∈ #[2, 0, 1, 0, 0, 2], v < 5) ∧ (∀ v ∈ #[3, 1, 2, 2, 1, 3], v < 5) ∧
      ∃ G, ofEdges? (α := ℚ) (5 : Nat) (#[2, 0, 1, 0, 0, 2].map Int.ofNat)
          (#[3, 1, 2, 2, 1, 3].map Int.ofNat) = .ok (G, [1, 3, 4, 2, 0, 5]) ∧
        G.first = #[0, 3, 4, 6, 6, 6] ∧ G.head = #[1, 2, 1, 2, 3, 3] ∧
        tails? (α := ℚ) 0 (G.first.toList.map Int.ofNat) = .ok G.tail.toList ∧
        G.Stores 5 #[2, 0, 1, 0, 0, 2] #[3, 1, 2, 2, 1, 3] [1, 3, 4, 2, 0, 5] := by
  have hsize : #[2, 0, 1, 0, 0, 2].size = #[3, 1, 2, 2, 1, 3].size := rfl
  have hsource : ∀ v ∈ #[2, 0, 1, 0, 0, 2], v < 5 := by decide
  have htarget : ∀ v ∈ #[3, 1, 2, 2, 1, 3], v < 5 := by decide
  have hstar : ofEdges 5 #[2, 0, 1, 0, 0, 2] #[3, 1, 2, 2, 1, 3] =
      (⟨#[0, 3, 4, 6, 6, 6], #[0, 0, 0, 1, 2, 2], #[1, 2, 1, 2, 3, 3]⟩, [1, 3, 4, 2, 0, 5]) := by
    decide
  have hstores := ofEdges?_stores (α := ℚ) hsize hsource htarget
  rw [hstar] at hstores
  exact ⟨hsize, hsource, htarget, _, hstores.1, rfl, rfl, hstores.2⟩

/-! ## The index read again -/

/-- The forward star of a list of edges is accepted again from its index and the ends of its
edges. -/
theorem ofIndex?_ofEdges (hn : 0 < n) (hsize : source.size = target.size)
    (hsource : ∀ v ∈ source, v < n) (htarget : ∀ v ∈ target, v < n) :
    ofIndex? (α := α) ((ofEdges n source target).1.first.map Int.ofNat)
      ((ofEdges n source target).1.head.map Int.ofNat) = .ok (ofEdges n source target).1 := by
  have hstores := stores_ofEdges hsource target
  have htails := tails?_ofEdges (α := α) n source target
  have hhead : ∀ v ∈ (ofEdges n source target).1.head, v < n := by
    intro v hv
    obtain ⟨e, he, rfl⟩ := List.mem_map.mp (List.mem_toArray.mp hv)
    have he' : e < target.size := hsize ▸ (mem_sourceOrder hsource).mp he
    simpa [he'] using htarget _ (Array.getElem_mem he')
  generalize (ofEdges n source target).1 = G at hstores htails hhead
  have hfirst := hstores.first_size
  have hvertices : (G.first.map Int.ofNat).size - 1 = n := by simp [hfirst]
  have hstart : (G.first.map Int.ofNat).getD 0 0 = 0 := by
    have hzero := hstores.first_zero
    simpa [firstOf, hfirst] using hzero
  have hstop : (G.first.map Int.ofNat).getD n 0 = (G.head.map Int.ofNat).size := by
    have hlast := hstores.first_last
    simpa [firstOf, hfirst, hstores.head_size] using hlast
  unfold ofIndex?
  simp only [hvertices, hstart, hstop]
  rw [if_neg (by simp [hfirst]; omega), if_neg (by simp), if_neg (not_any_outside hhead),
    Array.toList_map, htails, map_toNat_map_ofNat, map_toNat_map_ofNat]
  rfl

end TotalVariation.ForwardStar
