import Mathlib
import TotalVariation.Graph.Labelled
import TotalVariation.Partition.Basic
import TotalVariation.Proofs.Graph.EdgeList
import TotalVariation.Proofs.Numeric.Exact

/-! # Forward stars of labelled graphs

The listing of a graph shows every edge once, from one of its ends. The forward star made of it
has the edges that are no loops, each with its own weight, so that values at the nodes have the same
variation in both. With weights that are not negative it makes a partition.
-/

namespace TotalVariation

variable {ν α β : Type}

/-- An edge from its other end. -/
def LabelledEdge.turned (e : LabelledEdge ν α) : LabelledEdge ν α :=
  ⟨e.target, e.source, e.attributes⟩

namespace LabelledGraph

variable [DecidableEq ν] {G : LabelledGraph ν α}

/-! ## Well-formed graphs -/

/-- The nodes of a graph differ, and the ends of its edges are among them. -/
structure IsWellFormed (G : LabelledGraph ν α) : Prop where
  nodes_nodup : G.nodes.Nodup
  source_mem : ∀ e ∈ G.edges, e.source ∈ G.nodes
  target_mem : ∀ e ∈ G.edges, e.target ∈ G.nodes

theorem mem_withNode {nodes : List ν} {v w : ν} : w ∈ withNode nodes v ↔ w ∈ nodes ∨ w = v := by
  unfold withNode
  split
  next hv => exact ⟨.inl, fun hw => hw.elim id fun heq => heq ▸ hv⟩
  next => simp

theorem nodup_withNode {nodes : List ν} (h : nodes.Nodup) (v : ν) : (withNode nodes v).Nodup := by
  unfold withNode
  split
  next => exact h
  next hv => exact List.nodup_append_comm.mp (List.nodup_cons.mpr ⟨hv, h⟩)

omit [DecidableEq ν] in
/-- An added edge renews the attributes of edges that are there or comes to them. -/
theorem exists_of_mem_withEdge {same : LabelledEdge ν α → Bool} {edges : List (LabelledEdge ν α)}
    {new e : LabelledEdge ν α} (he : e ∈ withEdge same edges new) :
    ∃ f ∈ new :: edges, e.source = f.source ∧ e.target = f.target := by
  unfold withEdge at he
  split at he
  next =>
    obtain ⟨f, hf, rfl⟩ := List.mem_map.mp he
    refine ⟨f, List.mem_cons_of_mem _ hf, ?_⟩
    split <;> exact ⟨rfl, rfl⟩
  next =>
    rcases List.mem_append.mp he with hf | hnew
    · exact ⟨e, List.mem_cons_of_mem _ hf, rfl, rfl⟩
    · rw [List.mem_singleton.mp hnew]
      exact ⟨new, List.mem_cons_self, rfl, rfl⟩

namespace IsWellFormed

omit [DecidableEq ν] in
theorem empty : (empty : LabelledGraph ν α).IsWellFormed :=
  ⟨List.nodup_nil, by simp [LabelledGraph.empty], by simp [LabelledGraph.empty]⟩

theorem addNode (hG : G.IsWellFormed) (v : ν) : (G.addNode v).IsWellFormed :=
  ⟨nodup_withNode hG.nodes_nodup v, fun e he => mem_withNode.mpr (.inl (hG.source_mem e he)),
    fun e he => mem_withNode.mpr (.inl (hG.target_mem e he))⟩

theorem addEdge (hG : G.IsWellFormed) (new : LabelledEdge ν α) : (G.addEdge new).IsWellFormed := by
  have hends : ∀ e ∈ (G.addEdge new).edges,
      e.source ∈ (G.addEdge new).nodes ∧ e.target ∈ (G.addEdge new).nodes := by
    intro e he
    obtain ⟨f, hf, hsource, htarget⟩ := exists_of_mem_withEdge he
    simp only [hsource, htarget, LabelledGraph.addEdge, nodesWith, mem_withNode]
    rcases List.mem_cons.mp hf with rfl | hf
    · exact ⟨.inl (.inr rfl), .inr rfl⟩
    · exact ⟨.inl (.inl (hG.source_mem f hf)), .inl (.inl (hG.target_mem f hf))⟩
  exact ⟨nodup_withNode (nodup_withNode hG.nodes_nodup _) _, fun e he => (hends e he).1,
    fun e he => (hends e he).2⟩

/-- New attributes leave the ends of the edges. -/
theorem mapListing (hG : G.IsWellFormed) (attributes : Nat → Attributes α → Attributes α) :
    (G.mapListing attributes).IsWellFormed := by
  have hends : ∀ e ∈ (G.mapListing attributes).edges,
      ∃ f ∈ G.edges, e.source = f.source ∧ e.target = f.target := by
    intro e he
    obtain ⟨f, hf, rfl⟩ := List.mem_map.mp he
    refine ⟨f, hf, ?_⟩
    split <;> exact ⟨rfl, rfl⟩
  refine ⟨hG.nodes_nodup, fun e he => ?_, fun e he => ?_⟩ <;>
    obtain ⟨f, hf, hsource, htarget⟩ := hends e he
  · exact hsource ▸ hG.source_mem f hf
  · exact htarget ▸ hG.target_mem f hf

end IsWellFormed

theorem isWellFormed_ofEdges (nodes : List ν) (edges : List (LabelledEdge ν α)) :
    (ofEdges nodes edges).IsWellFormed :=
  List.foldlRecOn edges _ (List.foldlRecOn nodes _ .empty fun _ h v _ => h.addNode v)
    fun _ h e _ => h.addEdge e

theorem isWellFormed_ofArcs (nodes : List ν) (arcs : List (LabelledEdge ν α)) :
    (ofArcs nodes arcs).IsWellFormed :=
  isWellFormed_ofEdges _ _

/-! ## The listing -/

theorem edgesAt_append (nodes : List ν) (es fs : List (LabelledEdge ν α)) (v : ν) :
    edgesAt ⟨nodes, es ++ fs⟩ v = edgesAt ⟨nodes, es⟩ v ++ edgesAt ⟨nodes, fs⟩ v :=
  List.filterMap_append

theorem edgesAt_singleton (nodes : List ν) (e : LabelledEdge ν α) (v : ν) :
    edgesAt ⟨nodes, [e]⟩ v =
      if e.source = v then [e] else if e.target = v then [e.turned] else [] := by
  unfold edgesAt
  split_ifs <;> simp [*, LabelledEdge.turned]

theorem listingAfter_nil (nodes seen rest : List ν) :
    listingAfter (⟨nodes, []⟩ : LabelledGraph ν α) seen rest = [] := by
  induction rest generalizing seen with
  | nil => rfl
  | cons v rest ih => exact ih (v :: seen)

theorem listingAfter_append_perm (nodes : List ν) (es fs : List (LabelledEdge ν α))
    (seen rest : List ν) : (listingAfter ⟨nodes, es ++ fs⟩ seen rest).Perm
      (listingAfter ⟨nodes, es⟩ seen rest ++ listingAfter ⟨nodes, fs⟩ seen rest) := by
  induction rest generalizing seen with
  | nil => exact .refl _
  | cons v rest ih =>
      simp only [listingAfter, edgesAt_append, List.filter_append, List.append_assoc]
      refine .append_left _ ((List.Perm.append_left _ (ih (v :: seen))).trans ?_)
      exact List.perm_append_comm_assoc _ _ _

/-- An edge is not listed at an end whose other end was seen. -/
theorem listingAfter_singleton_eq_nil (nodes : List ν) {e : LabelledEdge ν α} {seen rest : List ν}
    (hsource : e.source ∈ rest → e.target ∈ seen) (htarget : e.target ∈ rest → e.source ∈ seen) :
    listingAfter ⟨nodes, [e]⟩ seen rest = [] := by
  induction rest generalizing seen with
  | nil => rfl
  | cons v rest ih =>
      rw [listingAfter, ih (fun h => List.mem_cons_of_mem _ (hsource (List.mem_cons_of_mem _ h)))
        (fun h => List.mem_cons_of_mem _ (htarget (List.mem_cons_of_mem _ h))), List.append_nil,
        edgesAt_singleton]
      split_ifs with hs ht
      · simp [hsource (hs ▸ List.mem_cons_self)]
      · simp [LabelledEdge.turned, htarget (ht ▸ List.mem_cons_self)]
      · rfl

/-- An edge between nodes that are to come is listed once, from the end that comes first. -/
theorem listingAfter_singleton (nodes : List ν) {e : LabelledEdge ν α} {seen rest : List ν}
    (hrest : rest.Nodup) (hsource : e.source ∈ rest) (htarget : e.target ∈ rest)
    (hsource' : e.source ∉ seen) (htarget' : e.target ∉ seen) :
    listingAfter ⟨nodes, [e]⟩ seen rest = [e] ∨
      listingAfter ⟨nodes, [e]⟩ seen rest = [e.turned] := by
  induction rest generalizing seen with
  | nil => exact absurd hsource List.not_mem_nil
  | cons v rest ih =>
      obtain ⟨hv, hrest⟩ := List.nodup_cons.mp hrest
      rw [listingAfter, edgesAt_singleton]
      by_cases hs : e.source = v
      · left
        rw [listingAfter_singleton_eq_nil nodes (fun h => absurd (hs ▸ h) hv)
          (fun _ => hs ▸ List.mem_cons_self)]
        simp [hs, htarget']
      · by_cases ht : e.target = v
        · right
          rw [listingAfter_singleton_eq_nil nodes (fun _ => ht ▸ List.mem_cons_self)
            (fun h => absurd (ht ▸ h) hv)]
          simp [hs, ht, LabelledEdge.turned, hsource']
        · rw [if_neg hs, if_neg ht]
          refine ih hrest ((List.mem_cons.mp hsource).resolve_left hs)
            ((List.mem_cons.mp htarget).resolve_left ht) ?_ ?_
          · simp [hs, hsource']
          · simp [ht, htarget']

namespace IsWellFormed

/-- The listing shows every edge once, from one of its ends. -/
theorem map_listing_perm (hG : G.IsWellFormed) {f : LabelledEdge ν α → β}
    (hf : ∀ e, f e.turned = f e) : (G.listing.map f).Perm (G.edges.map f) := by
  obtain ⟨nodes, edges⟩ := G
  induction edges with
  | nil => rw [listing, listingAfter_nil]
  | cons e es ih =>
      have hone : (listingAfter ⟨nodes, [e]⟩ [] nodes).map f = [f e] := by
        rcases listingAfter_singleton nodes hG.nodes_nodup (hG.source_mem e List.mem_cons_self)
          (hG.target_mem e List.mem_cons_self) List.not_mem_nil List.not_mem_nil with h | h
        · rw [h, List.map_singleton]
        · rw [h, List.map_singleton, hf]
      have hrest := ih ⟨hG.nodes_nodup, fun e he => hG.source_mem e (List.mem_cons_of_mem _ he),
        fun e he => hG.target_mem e (List.mem_cons_of_mem _ he)⟩
      have hsplit := (listingAfter_append_perm nodes [e] es [] nodes).map f
      rw [List.map_append, hone] at hsplit
      exact hsplit.trans (hrest.cons _)

theorem ends_mem_of_mem_listing (hG : G.IsWellFormed) {e : LabelledEdge ν α} (he : e ∈ G.listing) :
    e.source ∈ G.nodes ∧ e.target ∈ G.nodes := by
  have hmem := (hG.map_listing_perm (f := fun e => s(e.source, e.target))
    fun e => Sym2.eq_swap).mem_iff.mp (List.mem_map_of_mem he)
  obtain ⟨f, hf, hends⟩ := List.mem_map.mp hmem
  rcases Sym2.eq_iff.mp hends with ⟨hs, ht⟩ | ⟨hs, ht⟩
  · exact ⟨hs ▸ hG.source_mem f hf, ht ▸ hG.target_mem f hf⟩
  · exact ⟨ht ▸ hG.target_mem f hf, hs ▸ hG.source_mem f hf⟩

theorem map_properEdges_perm (hG : G.IsWellFormed) {f : LabelledEdge ν α → β}
    (hf : ∀ e, f e.turned = f e) :
    (G.properEdges.map f).Perm ((G.edges.filter fun e => e.source ≠ e.target).map f) := by
  have hloop (e : LabelledEdge ν α) : e.turned.source ≠ e.turned.target ↔ e.source ≠ e.target :=
    ne_comm
  let keep (e : LabelledEdge ν α) : Option β := if e.source ≠ e.target then some (f e) else none
  have hkeep (e : LabelledEdge ν α) : keep e.turned = keep e := by simp only [keep, hf, hloop e]
  have hperm := (hG.map_listing_perm hkeep).filterMap id
  simp only [List.filterMap_map, Function.id_comp, keep] at hperm
  simpa only [properEdges, ← List.filterMap_eq_map, List.filterMap_filter, Function.comp_def,
    decide_eq_true_eq] using hperm

end IsWellFormed

/-! ## The forward star -/

/-- The numbers of the nodes that the edges start from, loops left out. -/
def starts (G : LabelledGraph ν α) : Array Nat :=
  (G.properEdges.map fun e => G.indexOf e.source).toArray

/-- The numbers of the nodes that the edges end at, loops left out. -/
def ends (G : LabelledGraph ν α) : Array Nat :=
  (G.properEdges.map fun e => G.indexOf e.target).toArray

theorem toForwardStar_eq (G : LabelledGraph ν α) (name : Option String) (default : α) :
    G.toForwardStar name default = ((ForwardStar.ofEdges G.nodes.length G.starts G.ends).1,
      ((ForwardStar.sourceOrder G.nodes.length G.starts).map fun e =>
        (G.properEdges.map (weightOf name default)).toArray.getD e default).toArray) :=
  rfl

namespace IsWellFormed

theorem starts_lt (hG : G.IsWellFormed) : ∀ v ∈ G.starts, v < G.nodes.length := by
  intro v hv
  obtain ⟨e, he, rfl⟩ := List.mem_map.mp (List.mem_toArray.mp hv)
  exact List.idxOf_lt_length_iff.mpr (hG.ends_mem_of_mem_listing (List.mem_filter.mp he).1).1

theorem ends_lt (hG : G.IsWellFormed) : ∀ v ∈ G.ends, v < G.nodes.length := by
  intro v hv
  obtain ⟨e, he, rfl⟩ := List.mem_map.mp (List.mem_toArray.mp hv)
  exact List.idxOf_lt_length_iff.mpr (hG.ends_mem_of_mem_listing (List.mem_filter.mp he).1).2

/-- The weights go with the edges into the order of the starts. -/
theorem map_toForwardStar_perm [Scalar α] (hG : G.IsWellFormed) (name : Option String) (default : α)
    (f : Nat → Nat → α → β) :
    ((List.range (G.toForwardStar name default).1.edges).map fun k =>
        f ((G.toForwardStar name default).1.tailOf k) ((G.toForwardStar name default).1.headOf k)
          (Vec.entry (G.toForwardStar name default).2 k)).Perm
      (G.properEdges.map fun e =>
        f (G.indexOf e.source) (G.indexOf e.target) (weightOf name default e)) := by
  have hstores := ForwardStar.stores_ofEdges hG.starts_lt G.ends
  have hsize : G.starts.size = G.properEdges.length := by simp [starts]
  let weight (e : Nat) : α := (G.properEdges.map (weightOf name default)).toArray.getD e default
  have hperm := hstores.map_perm fun e u v => f u v (weight e)
  have hentry : ∀ k < (G.toForwardStar name default).1.edges,
      Vec.entry (G.toForwardStar name default).2 k =
        weight ((ForwardStar.sourceOrder G.nodes.length G.starts).getD k 0) := by
    intro k hk
    have hplace : k < (ForwardStar.sourceOrder G.nodes.length G.starts).length := by
      simpa [toForwardStar_eq, ForwardStar.edges, ForwardStar.ofEdges_eq] using hk
    simp [toForwardStar_eq, Vec.entry, weight, hplace]
  have hproper : (List.range G.starts.size).map (fun e =>
      f (G.starts.getD e 0) (G.ends.getD e 0) (weight e)) = G.properEdges.map fun e =>
        f (G.indexOf e.source) (G.indexOf e.target) (weightOf name default e) := by
    refine List.ext_getElem (by simp [hsize]) fun k hk _ => ?_
    have hk' : k < G.properEdges.length := by simpa [hsize] using hk
    simp [weight, starts, ends, hk']
  rw [← hproper]
  refine (List.Perm.of_eq (List.map_congr_left fun k hk => ?_)).trans hperm
  rw [hentry k (List.mem_range.mp hk)]
  rfl

end IsWellFormed

/-! ## What a forward star stores -/

/-- A forward star with weights of its edges stores a graph: its vertices are the numbers of the
nodes, its edges those that are no loops, each once with its own weight. -/
structure IsStoredIn [Scalar α] (G : LabelledGraph ν α) (weight : LabelledEdge ν α → α)
    (star : ForwardStar) (weights : Vec α) : Prop where
  vertices_eq : star.vertices = G.nodes.length
  weights_size : weights.size = star.edges
  edges_perm : ((List.range star.edges).map fun k =>
      (s(G.nodes[star.tailOf k]?, G.nodes[star.headOf k]?), Vec.entry weights k)).Perm
    ((G.edges.filter fun e => e.source ≠ e.target).map fun e =>
      (s(some e.source, some e.target), weight e))

theorem IsWellFormed.isStoredIn [Scalar α] (hG : G.IsWellFormed) (name : Option String)
    (default : α) : G.IsStoredIn (weightOf name default) (G.toForwardStar name default).1
      (G.toForwardStar name default).2 := by
  have hstores := ForwardStar.stores_ofEdges hG.starts_lt G.ends
  refine ⟨?_, ?_, ?_⟩
  · change (ForwardStar.ofEdges G.nodes.length G.starts G.ends).1.first.size - 1 = G.nodes.length
    rw [hstores.first_size, Nat.add_sub_cancel]
  · simp [toForwardStar_eq, ForwardStar.edges, ForwardStar.ofEdges_eq]
  · have hstar := hG.map_toForwardStar_perm name default fun u v w =>
      (s(G.nodes[u]?, G.nodes[v]?), w)
    have hproper := hG.map_properEdges_perm
      (f := fun e => (s(G.nodes[G.indexOf e.source]?, G.nodes[G.indexOf e.target]?),
        weightOf name default e)) fun e => congrArg (·, weightOf name default e) Sym2.eq_swap
    refine (hstar.trans hproper).trans (.of_eq (List.map_congr_left fun e he => ?_))
    have hmem := (List.mem_filter.mp he).1
    rw [indexOf, indexOf, List.getElem?_idxOf (hG.source_mem e hmem),
      List.getElem?_idxOf (hG.target_mem e hmem)]

variable {K : Type} [ExactField K]

/-- The variation of values at the nodes across the edges of a graph. -/
def variation (G : LabelledGraph ν K) (weight : LabelledEdge ν K → K) (x : ν → K) : K :=
  (G.edges.map fun e => weight e * |x e.source - x e.target|).sum

namespace IsStoredIn

variable {G : LabelledGraph ν K} {weight : LabelledEdge ν K → K} {star : ForwardStar}
  {weights : Vec K}

theorem edgeWeighting?_eq_ok (h : G.IsStoredIn weight star weights)
    (hweight : ∀ e ∈ G.edges, e.source ≠ e.target → 0 ≤ weight e) (common : K) :
    Partition.edgeWeighting? star.edges (some weights) common = .ok ⟨some weights, common⟩ := by
  have hnonneg : ∀ w ∈ weights, 0 ≤ w := by
    intro w hw
    obtain ⟨k, hk, rfl⟩ := Array.mem_iff_getElem.mp hw
    have hmem := h.edges_perm.mem_iff.mp
      (List.mem_map_of_mem (List.mem_range.mpr (h.weights_size ▸ hk)))
    obtain ⟨e, he, heq⟩ := List.mem_map.mp hmem
    obtain ⟨hedge, hproper⟩ := List.mem_filter.mp he
    have hentry : weight e = weights[k] := by
      simpa [Vec.entry, hk] using congrArg Prod.snd heq
    exact hentry ▸ hweight e hedge (of_decide_eq_true hproper)
  have hnone : ¬(weights.any fun w => decide (w < 0)) = true := by
    rw [Array.any_eq_true']
    rintro ⟨w, hw, hnegative⟩
    exact absurd (hnonneg w hw) (not_le.mpr (of_decide_eq_true hnegative))
  rw [Partition.edgeWeighting?]
  dsimp only
  rw [if_neg (not_not.mpr h.weights_size), if_neg hnone]
  rfl

/-- Loops have no variation, and that of an edge is the same from both ends. -/
theorem variation_eq (h : G.IsStoredIn weight star weights) (x : ν → K) :
    G.variation weight x = Vec.total star.edges fun k => Vec.entry weights k *
      |Vec.entry (G.nodes.map x).toArray (star.tailOf k) -
        Vec.entry (G.nodes.map x).toArray (star.headOf k)| := by
  let across (edge : Sym2 (Option ν)) : K :=
    edge.lift ⟨fun u v => |(u.map x).getD 0 - (v.map x).getD 0|, fun u v => abs_sub_comm _ _⟩
  have hloops : ∀ e ∈ G.edges, decide (e.source ≠ e.target) = false →
      weight e * |x e.source - x e.target| = 0 := by
    intro e _ hloop
    have hsame : e.source = e.target := by simpa using hloop
    rw [hsame, sub_self, abs_zero, mul_zero]
  have hproper : (G.edges.filter fun e => e.source ≠ e.target).map
        (fun e => weight e * |x e.source - x e.target|) =
      ((G.edges.filter fun e => e.source ≠ e.target).map fun e =>
        (s(some e.source, some e.target), weight e)).map fun edge => edge.2 * across edge.1 := by
    simp [across, Function.comp_def]
  have hstored : (List.range star.edges).map (fun k => Vec.entry weights k *
        |Vec.entry (G.nodes.map x).toArray (star.tailOf k) -
          Vec.entry (G.nodes.map x).toArray (star.headOf k)|) =
      ((List.range star.edges).map fun k =>
        (s(G.nodes[star.tailOf k]?, G.nodes[star.headOf k]?), Vec.entry weights k)).map
          fun edge => edge.2 * across edge.1 := by
    simp [across, Vec.entry, Function.comp_def]
  rw [variation, Vec.total_eq_sum_map, ← sum_map_filter _ _ _ hloops, hproper, hstored]
  exact ((h.edges_perm.map _).sum_eq).symm

end IsStoredIn

/-- The forward star of a graph with a node stores the graph with its weights, or the default
where an edge has none. It makes a partition if the weights are not negative, and values at the
nodes have the variation of the graph across its edges. -/
theorem IsWellFormed.toForwardStar_spec {G : LabelledGraph ν K} (hG : G.IsWellFormed)
    (hnodes : G.nodes ≠ []) (name : Option String) (default : K) :
    let star := (G.toForwardStar name default).1
    let weights := (G.toForwardStar name default).2
    G.IsStoredIn (weightOf name default) star weights ∧
      ((∀ e ∈ G.edges, e.source ≠ e.target → 0 ≤ weightOf name default e) → ∀ common,
        Partition.ofIndex? (star.first.map Int.ofNat) (star.head.map Int.ofNat) (some weights)
          common = .ok (.whole star ⟨some weights, common⟩)) ∧
      ∀ x : ν → K, G.variation (weightOf name default) x =
        Vec.total star.edges fun k => Vec.entry weights k *
          |Vec.entry (G.nodes.map x).toArray (star.tailOf k) -
            Vec.entry (G.nodes.map x).toArray (star.headOf k)| := by
  intro star weights
  have hstored := hG.isStoredIn name default
  refine ⟨hstored, fun hweight common => ?_, hstored.variation_eq⟩
  have hsize : G.starts.size = G.ends.size := by simp [starts, ends]
  have hindex : ForwardStar.ofIndex? (α := K) (star.first.map Int.ofNat)
      (star.head.map Int.ofNat) = .ok star :=
    ForwardStar.ofIndex?_ofEdges (List.length_pos_iff.mpr hnodes) hsize hG.starts_lt hG.ends_lt
  rw [Partition.ofIndex?, hindex]
  change (Partition.edgeWeighting? star.edges (some weights) common).bind _ = _
  rw [hstored.edgeWeighting?_eq_ok hweight common]
  rfl

/-- A triangle with a loop, one of its edges without weight, and a node without edges. -/
def loopedTriangle : LabelledGraph String ℚ :=
  ofEdges ["d", "c"] [⟨"a", "b", [("weight", 2)]⟩, ⟨"b", "b", [("weight", -5)]⟩, ⟨"c", "a", []⟩,
    ⟨"b", "c", [("weight", 1 / 2)]⟩]

/-- The edge from `b` to `c` is stored from `c`, and the weights follow the order of the starts. -/
theorem toForwardStar_spec_loopedTriangle : loopedTriangle.IsWellFormed ∧
    loopedTriangle.nodes ≠ [] ∧
    (∀ e ∈ loopedTriangle.edges, e.source ≠ e.target → 0 ≤ weightOf (some "weight") 3 e) ∧
    ∃ star weights, loopedTriangle.toForwardStar (some "weight") 3 = (star, weights) ∧
      star = ⟨#[0, 0, 2, 3, 3], #[1, 1, 2], #[2, 3, 3]⟩ ∧ weights = #[3, 1 / 2, 2] ∧
      loopedTriangle.IsStoredIn (weightOf (some "weight") 3) star weights ∧
      Partition.ofIndex? #[0, 0, 2, 3, 3] #[2, 3, 3] (some #[3, 1 / 2, 2]) 1 =
        .ok (.whole star ⟨some weights, 1⟩) ∧
      loopedTriangle.variation (weightOf (some "weight") 3) (fun v => if v = "a" then 1 else 0) =
        5 := by
  have hG : loopedTriangle.IsWellFormed := isWellFormed_ofEdges _ _
  have hnodes : loopedTriangle.nodes ≠ [] := by decide +kernel
  have hweight : ∀ e ∈ loopedTriangle.edges, e.source ≠ e.target →
      0 ≤ weightOf (some "weight") 3 e := by decide +kernel
  have hstar : loopedTriangle.toForwardStar (some "weight") 3 =
      (⟨#[0, 0, 2, 3, 3], #[1, 1, 2], #[2, 3, 3]⟩, #[3, 1 / 2, 2]) := by decide +kernel
  obtain ⟨hstored, haccepted, hvariation⟩ := hG.toForwardStar_spec hnodes (some "weight") 3
  rw [hstar] at hstored haccepted hvariation
  refine ⟨hG, hnodes, hweight, _, _, hstar, rfl, rfl, hstored,
    by simpa using haccepted hweight 1, ?_⟩
  rw [hvariation]
  decide +kernel

end LabelledGraph
end TotalVariation
