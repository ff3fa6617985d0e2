import Mathlib
import TotalVariation.Flow.Cut
import TotalVariation.Proofs.Failure
import TotalVariation.Proofs.Flow.Arcs
import TotalVariation.Proofs.Flow.Maximal

/-! # Minimal cuts with prices

The cuts of the flow network of a cut problem are the sets of vertices that respect the bindings of
the terminals, and their capacity is the price of the sides and of the links that are cut.
-/

namespace TotalVariation

variable {ν : Type} {K : Type} [ExactField K]

/-! ## Arcs of prices and links -/

namespace CutProblem

variable {C : CutProblem ν K}

/-- The vertices with their prices. -/
def prices (C : CutProblem ν K) : List (ν × Terminal K) := C.vertices.zip C.terminals.toList

/-- Vertices and links are listed once, links join vertices, and no link is negative. -/
structure IsProper (C : CutProblem ν K) : Prop where
  vertices_nodup : C.vertices.Nodup
  terminals_size : C.terminals.size = C.vertices.length
  links_nodup : (C.links.map (·.1)).Nodup
  ends_mem : ∀ l ∈ C.links, l.1.1 ∈ C.vertices ∧ l.1.2 ∈ C.vertices
  nonneg : ∀ l ∈ C.links, 0 ≤ l.2

/-- The arc that stands for the price of a vertex. -/
def priceArc? (p : ν × Terminal K) : Option (Node ν × Node ν × Capacity K) :=
  match p.2 with
  | .sourceOnly => some (.source, .vertex p.1, .unlimited)
  | .sinkOnly => some (.vertex p.1, .sink, .unlimited)
  | .finite c =>
    if 0 < c then some (.source, .vertex p.1, .ofScalar c)
    else if c < 0 then some (.vertex p.1, .sink, .ofScalar (-c))
    else none

theorem terminalArcs_eq (C : CutProblem ν K) : C.terminalArcs = C.prices.filterMap priceArc? := rfl

/-- The arc of a price joins its vertex to the source or to the sink. -/
theorem ends_of_priceArc?_eq_some {p : ν × Terminal K} {a : Node ν × Node ν × Capacity K}
    (h : priceArc? p = some a) :
    (a.1 = .source ∧ a.2.1 = .vertex p.1) ∨ (a.1 = .vertex p.1 ∧ a.2.1 = .sink) := by
  unfold priceArc? at h
  split at h
  next => cases h; exact .inl ⟨rfl, rfl⟩
  next => cases h; exact .inr ⟨rfl, rfl⟩
  next c _ =>
    split at h
    next => cases h; exact .inl ⟨rfl, rfl⟩
    next =>
      split at h
      next => cases h; exact .inr ⟨rfl, rfl⟩
      next => cases h

/-- No arc of a price is negative. -/
theorem nonneg_of_priceArc?_eq_some {p : ν × Terminal K} {a : Node ν × Node ν × Capacity K} {b : K}
    (h : priceArc? p = some a) (hb : a.2.2 = .finite b) : 0 ≤ b := by
  unfold priceArc? at h
  split at h
  next => cases h; cases hb
  next => cases h; cases hb
  next c _ =>
    split at h
    next hpos => cases h; cases hb; exact hpos.le
    next =>
      split at h
      next hneg => cases h; cases hb; exact (neg_pos.mpr hneg).le
      next => cases h

theorem priceArc?_unlimited {p : ν × Terminal K} {a : Node ν × Node ν × Capacity K}
    (h : priceArc? p = some a) (hunlimited : a.2.2 = .unlimited) :
    (p.2 = .sourceOnly ∧ a.1 = .source ∧ a.2.1 = .vertex p.1) ∨
      (p.2 = .sinkOnly ∧ a.1 = .vertex p.1 ∧ a.2.1 = .sink) := by
  unfold priceArc? at h
  split at h
  next hp => cases h; exact .inl ⟨hp, rfl, rfl⟩
  next hp => cases h; exact .inr ⟨hp, rfl, rfl⟩
  next c _ =>
    split at h
    next => cases h; cases hunlimited
    next =>
      split at h
      next => cases h; cases hunlimited
      next => cases h

namespace IsProper

theorem prices_map_fst (h : C.IsProper) : C.prices.map Prod.fst = C.vertices := by
  apply List.map_fst_zip
  rw [Array.length_toList, h.terminals_size]

theorem mem_vertices_of_mem_prices (h : C.IsProper) {p : ν × Terminal K} (hp : p ∈ C.prices) :
    p.1 ∈ C.vertices :=
  h.prices_map_fst ▸ List.mem_map_of_mem hp

/-- An arc stands for a price or for a link. -/
theorem mem_arcs {a : Node ν × Node ν × Capacity K} : a ∈ C.arcs ↔
    (∃ p ∈ C.prices, priceArc? p = some a) ∨
      ∃ l ∈ C.links, 0 < l.2 ∧ a = (.vertex l.1.1, .vertex l.1.2, .finite l.2) := by
  rw [arcs, List.mem_append, terminalArcs_eq, List.mem_filterMap, List.mem_map]
  refine or_congr Iff.rfl ⟨?_, ?_⟩
  · rintro ⟨l, hl, rfl⟩
    obtain ⟨hmem, hpos⟩ := List.mem_filter.mp hl
    exact ⟨l, hmem, of_decide_eq_true hpos, rfl⟩
  · rintro ⟨l, hmem, hpos, rfl⟩
    exact ⟨l, List.mem_filter.mpr ⟨hmem, decide_eq_true hpos⟩, rfl⟩

/-- No two arcs have the same ends. -/
theorem arcs_nodup (h : C.IsProper) : (C.arcs.map fun a => (a.1, a.2.1)).Nodup := by
  rw [List.Nodup, List.pairwise_map, arcs, List.pairwise_append]
  refine ⟨?_, ?_, ?_⟩
  · rw [terminalArcs_eq, List.pairwise_filterMap]
    have hdistinct : C.prices.Pairwise fun p q => p.1 ≠ q.1 := by
      rw [← List.pairwise_map, h.prices_map_fst]
      exact h.vertices_nodup
    apply hdistinct.imp
    intro p q hne a ha b hb heq
    obtain ⟨hfrom, hto⟩ := Prod.mk.inj heq
    rcases ends_of_priceArc?_eq_some ha with ⟨hafrom, hato⟩ | ⟨hafrom, hato⟩ <;>
      rcases ends_of_priceArc?_eq_some hb with ⟨hbfrom, hbto⟩ | ⟨hbfrom, hbto⟩
    · rw [hato, hbto] at hto
      exact hne (Node.vertex.inj hto)
    · rw [hafrom, hbfrom] at hfrom
      cases hfrom
    · rw [hafrom, hbfrom] at hfrom
      cases hfrom
    · rw [hafrom, hbfrom] at hfrom
      exact hne (Node.vertex.inj hfrom)
  · rw [List.pairwise_map]
    have hdistinct : C.links.Pairwise fun l m => l.1 ≠ m.1 := by
      rw [← List.pairwise_map]
      exact h.links_nodup
    apply (hdistinct.filter _).imp
    intro l m hne heq
    simp only [Prod.mk.injEq, Node.vertex.injEq] at heq
    exact hne (Prod.ext heq.1 heq.2)
  · intro a ha b hb heq
    rw [terminalArcs_eq, List.mem_filterMap] at ha
    obtain ⟨p, -, hp⟩ := ha
    obtain ⟨l, -, rfl⟩ := List.mem_map.mp hb
    obtain ⟨hfrom, hto⟩ := Prod.mk.inj heq
    rcases ends_of_priceArc?_eq_some hp with ⟨hafrom, -⟩ | ⟨-, hato⟩
    · rw [hafrom] at hfrom
      cases hfrom
    · rw [hato] at hto
      cases hto

end IsProper

end CutProblem

/-! ## Sides and their prices -/

namespace Terminal

/-- The price of a side. -/
def sidePrice (onSink : Bool) : Terminal K → K
  | .finite c => if onSink then max c 0 else max (-c) 0
  | _ => 0

/-- Whether a side is allowed. -/
def Admits (onSink : Bool) : Terminal K → Prop
  | .finite _ => True
  | .sourceOnly => onSink = false
  | .sinkOnly => onSink = true

end Terminal

namespace CutProblem

variable [DecidableEq ν] {C : CutProblem ν K} {T : Finset ν} {S : Finset Nat}

/-- A set of vertices that may stand on the sink side. -/
structure IsSide (C : CutProblem ν K) (T : Finset ν) : Prop where
  subset : ∀ v ∈ T, v ∈ C.vertices
  admits : ∀ p ∈ C.prices, p.2.Admits (decide (p.1 ∈ T))

/-- The price of the sides and of the links from the source side to the sink side. -/
def cost (C : CutProblem ν K) (T : Finset ν) : K :=
  (C.prices.map fun p => p.2.sidePrice (decide (p.1 ∈ T))).sum +
    (C.links.map fun l => if l.1.1 ∉ T ∧ l.1.2 ∈ T then l.2 else 0).sum

/-! ## The nodes of the network -/

theorem foldl_insert_of_nodup (vs acc : List ν) (h : (acc ++ vs).Nodup) :
    vs.foldl (fun acc v => if v ∈ acc then acc else acc ++ [v]) acc = acc ++ vs := by
  induction vs generalizing acc with
  | nil => simp
  | cons v vs ih =>
      have hout : v ∉ acc := fun hin =>
        (List.nodup_append.mp h).2.2 v hin v List.mem_cons_self rfl
      rw [List.foldl_cons, if_neg hout, ih _ (by simpa using h), List.append_assoc,
        List.singleton_append]

namespace IsProper

theorem names_eq (h : C.IsProper) : C.names = C.vertices := by
  have hlinks : ∀ (links : List ((ν × ν) × K)) (acc : List ν),
      (∀ l ∈ links, l.1.1 ∈ acc ∧ l.1.2 ∈ acc) →
      links.foldl (fun acc l => (fun acc v => if v ∈ acc then acc else acc ++ [v])
        ((fun acc v => if v ∈ acc then acc else acc ++ [v]) acc l.1.1) l.1.2) acc = acc := by
    intro links acc hends
    induction links with
    | nil => rfl
    | cons l links ih =>
        obtain ⟨htail, hhead⟩ := hends l List.mem_cons_self
        rw [List.foldl_cons]
        dsimp only
        rw [if_pos htail, if_pos hhead]
        exact ih fun l hl => hends l (List.mem_cons_of_mem _ hl)
  have hvertices := foldl_insert_of_nodup C.vertices [] (by simpa using h.vertices_nodup)
  rw [names, hvertices]
  exact hlinks _ _ fun l hl => h.ends_mem l (List.mem_of_mem_filter hl)

theorem nodes_eq (h : C.IsProper) : C.nodes = .source :: .sink :: C.vertices.map .vertex := by
  rw [nodes, h.names_eq]

theorem nodes_nodup (h : C.IsProper) : C.nodes.Nodup := by
  rw [h.nodes_eq]
  simp [h.vertices_nodup.map fun v w (heq : Node.vertex v = Node.vertex w) => Node.vertex.inj heq]

/-- The first two nodes are the source and the sink. -/
theorem idxOf_source (h : C.IsProper) : C.nodes.idxOf .source = 0 := by
  rw [h.nodes_eq]
  exact List.idxOf_cons_self

theorem idxOf_sink (h : C.IsProper) : C.nodes.idxOf .sink = 1 := by
  rw [h.nodes_eq]
  rfl

theorem source_mem_nodes (h : C.IsProper) : .source ∈ C.nodes := by
  rw [h.nodes_eq]
  exact List.mem_cons_self

theorem sink_mem_nodes (h : C.IsProper) : .sink ∈ C.nodes := by
  rw [h.nodes_eq]
  exact List.mem_cons_of_mem _ List.mem_cons_self

theorem vertex_mem_nodes (h : C.IsProper) {v : ν} : .vertex v ∈ C.nodes ↔ v ∈ C.vertices := by
  rw [h.nodes_eq]
  simp

end IsProper

/-- Whether a node stands on the sink side. -/
def onSinkSide (T : Finset ν) : Node ν → Bool
  | .source => false
  | .sink => true
  | .vertex v => decide (v ∈ T)

/-- The numbers of the nodes on the sink side. -/
def sinkNodes (C : CutProblem ν K) (T : Finset ν) : Finset Nat :=
  ((C.nodes.filter (onSinkSide T)).map C.nodes.idxOf).toFinset

theorem idxOf_mem_sinkNodes {n : Node ν} (hn : n ∈ C.nodes) :
    C.nodes.idxOf n ∈ C.sinkNodes T ↔ onSinkSide T n = true := by
  rw [sinkNodes, List.mem_toFinset, List.mem_map]
  constructor
  · rintro ⟨m, hm, heq⟩
    obtain ⟨hmem, hside⟩ := List.mem_filter.mp hm
    rw [List.idxOf_inj hmem] at heq
    exact heq ▸ hside
  · exact fun h => ⟨n, List.mem_filter.mpr ⟨hn, h⟩, rfl⟩

namespace IsProper

theorem ends_mem_nodes (h : C.IsProper) {a : Node ν × Node ν × Capacity K} (ha : a ∈ C.arcs) :
    a.1 ∈ C.nodes ∧ a.2.1 ∈ C.nodes := by
  rcases mem_arcs.mp ha with ⟨p, hp, harc⟩ | ⟨l, hl, -, rfl⟩
  · have hvertex := h.vertex_mem_nodes.mpr (h.mem_vertices_of_mem_prices hp)
    rcases ends_of_priceArc?_eq_some harc with ⟨hfrom, hto⟩ | ⟨hfrom, hto⟩
    · exact ⟨hfrom ▸ h.source_mem_nodes, hto ▸ hvertex⟩
    · exact ⟨hfrom ▸ hvertex, hto ▸ h.sink_mem_nodes⟩
  · obtain ⟨htail, hhead⟩ := h.ends_mem l hl
    exact ⟨h.vertex_mem_nodes.mpr htail, h.vertex_mem_nodes.mpr hhead⟩

end IsProper

/-! ## The capacity of a cut -/

/-- The arc between the numbers of its ends. -/
def numbered (C : CutProblem ν K) (a : Node ν × Node ν × Capacity K) : Nat × Nat × Capacity K :=
  (C.nodes.idxOf a.1, C.nodes.idxOf a.2.1, a.2.2)

/-- The network without arcs. -/
def bare (C : CutProblem ν K) : Network K := .ofFn C.nodes.length fun _ _ => .finite 0

theorem isSquare_bare (C : CutProblem ν K) : C.bare.IsSquare := Network.isSquare_ofFn _ _

theorem left_bare (C : CutProblem ν K) (u v : Nat) : C.bare.left u v = .finite 0 :=
  Network.left_ofFn_zero _ _ _

theorem network_eq (C : CutProblem ν K) :
    C.network = C.bare.withArcs (C.arcs.map C.numbered) := rfl

theorem nodes_network (C : CutProblem ν K) : C.network.nodes = C.nodes.length := by
  rw [network_eq, Network.nodes_withArcs]
  rfl

/-- What an arc adds to the cut of a set of vertices. -/
def crossing (T : Finset ν) (a : Node ν × Node ν × Capacity K) : K :=
  if onSinkSide T a.1 = false ∧ onSinkSide T a.2.1 = true then a.2.2.amount else 0

/-- The arc of a price is cut when its vertex stands on the side that has the price. -/
theorem crossing_priceArc? (T : Finset ν) (p : ν × Terminal K) :
    ((priceArc? p).map (crossing T)).getD 0 = p.2.sidePrice (decide (p.1 ∈ T)) := by
  obtain ⟨v, t⟩ := p
  cases t with
  | sourceOnly => simp [priceArc?, crossing, Capacity.amount, Terminal.sidePrice]
  | sinkOnly => simp [priceArc?, crossing, Capacity.amount, Terminal.sidePrice]
  | finite c =>
      simp only [priceArc?, Terminal.sidePrice, Capacity.ofScalar]
      rcases lt_trichotomy 0 c with hpos | rfl | hneg
      · by_cases hv : v ∈ T <;>
          simp [crossing, onSinkSide, hv, hpos, hpos.le, Scalar.isFinite, Capacity.amount]
      · by_cases hv : v ∈ T <;> simp [hv]
      · by_cases hv : v ∈ T <;>
          simp [crossing, onSinkSide, hv, hneg, hneg.le, hneg.not_gt, Scalar.isFinite,
            Capacity.amount]

namespace IsProper

theorem numbered_lt (h : C.IsProper) : ∀ a ∈ C.arcs.map C.numbered,
    a.1 < C.bare.nodes ∧ a.2.1 < C.bare.nodes := by
  intro a ha
  obtain ⟨b, hb, rfl⟩ := List.mem_map.mp ha
  obtain ⟨hfrom, hto⟩ := h.ends_mem_nodes hb
  exact ⟨List.idxOf_lt_length_iff.mpr hfrom, List.idxOf_lt_length_iff.mpr hto⟩

theorem numbered_nodup (h : C.IsProper) :
    ((C.arcs.map C.numbered).map fun a => (a.1, a.2.1)).Nodup := by
  have hends := h.arcs_nodup
  rw [List.Nodup, List.pairwise_map] at hends ⊢
  rw [List.pairwise_map]
  apply hends.imp_of_mem
  intro a b ha hb hne heq
  obtain ⟨hfrom, hto⟩ := Prod.mk.inj heq
  rw [numbered, numbered, List.idxOf_inj (h.ends_mem_nodes ha).1] at hfrom
  rw [numbered, numbered, List.idxOf_inj (h.ends_mem_nodes ha).2] at hto
  exact hne (Prod.ext hfrom hto)

theorem left_network_of_mem (h : C.IsProper) {a : Node ν × Node ν × Capacity K} (ha : a ∈ C.arcs) :
    C.network.left (C.nodes.idxOf a.1) (C.nodes.idxOf a.2.1) = a.2.2 :=
  C.isSquare_bare.left_withArcs_of_mem h.numbered_lt h.numbered_nodup
    (List.mem_map_of_mem ha)

/-- The network has no other capacities than those of the arcs. -/
theorem left_network_cases (h : C.IsProper) (u v : Nat) :
    C.network.left u v = .finite 0 ∨ ∃ a ∈ C.arcs, C.nodes.idxOf a.1 = u ∧ C.nodes.idxOf a.2.1 = v ∧
      C.network.left u v = a.2.2 := by
  by_cases hmem : (u, v) ∈ (C.arcs.map C.numbered).map fun a => (a.1, a.2.1)
  · obtain ⟨b, hb, heq⟩ := List.mem_map.mp hmem
    obtain ⟨a, ha, rfl⟩ := List.mem_map.mp hb
    obtain ⟨rfl, rfl⟩ := Prod.mk.inj heq
    exact .inr ⟨a, ha, rfl, rfl, h.left_network_of_mem ha⟩
  · apply Or.inl
    rw [network_eq, C.isSquare_bare.left_withArcs_of_notMem h.numbered_lt hmem, left_bare]

theorem isProper_network (h : C.IsProper) : C.network.IsProper where
  toIsSquare := C.isSquare_bare.withArcs
  nonneg := by
    intro u v c hc
    rcases h.left_network_cases u v with hzero | ⟨a, ha, -, -, hleft⟩
    · rw [hzero] at hc
      cases hc
      exact le_rfl
    · rw [hleft] at hc
      rcases mem_arcs.mp ha with ⟨p, -, hp⟩ | ⟨l, hl, -, rfl⟩
      · exact nonneg_of_priceArc?_eq_some hp hc
      · cases hc
        exact h.nonneg l hl

/-- The capacity of a cut is the price of its sides and of the links that it cuts. -/
theorem cutCapacity_sinkNodes (h : C.IsProper) (T : Finset ν) :
    C.network.cutCapacity (C.sinkNodes T) = C.cost T := by
  have hbare : C.bare.cutCapacity (C.sinkNodes T) = 0 := by
    refine Finset.sum_eq_zero fun u _ => Finset.sum_eq_zero fun v _ => ?_
    rw [left_bare]
    rfl
  have hcrossing : (C.arcs.map C.numbered).map (fun a =>
      if a.1 ∉ C.sinkNodes T ∧ a.2.1 ∈ C.sinkNodes T then a.2.2.amount else 0) =
        C.arcs.map (crossing T) := by
    rw [List.map_map]
    apply List.map_congr_left
    intro a ha
    obtain ⟨hfrom, hto⟩ := h.ends_mem_nodes ha
    simp only [Function.comp_apply, numbered, crossing, idxOf_mem_sinkNodes hfrom,
      idxOf_mem_sinkNodes hto, Bool.not_eq_true]
  have hlinks : (C.openLinks.map fun l => crossing T
      (.vertex l.1.1, .vertex l.1.2, Capacity.ofScalar l.2)).sum =
        (C.links.map fun l => if l.1.1 ∉ T ∧ l.1.2 ∈ T then l.2 else 0).sum := by
    have hcut : ∀ l : (ν × ν) × K, crossing T
        (.vertex l.1.1, .vertex l.1.2, Capacity.ofScalar l.2) =
          if l.1.1 ∉ T ∧ l.1.2 ∈ T then l.2 else 0 := by
      intro l
      simp [crossing, onSinkSide, Capacity.ofScalar, Scalar.isFinite, Capacity.amount]
    simp only [hcut]
    apply sum_map_filter _ _ _
    intro l hl hzero
    have hle : l.2 ≤ 0 := not_lt.mp (of_decide_eq_false hzero)
    rw [le_antisymm hle (h.nonneg l hl), ite_self]
  rw [network_eq, Network.cutCapacity_withArcs C.isSquare_bare h.numbered_lt h.numbered_nodup
    (fun _ _ => C.left_bare _ _), hbare, zero_add, hcrossing, arcs, List.map_append,
    List.sum_append, List.map_map, terminalArcs_eq, sum_map_filterMap]
  simp only [crossing_priceArc?]
  exact congrArg _ hlinks

/-! ## Sides are cuts -/

/-- Arcs without limit bind a vertex to its side, so a set of vertices that respects the bindings
is a cut. -/
theorem isCut_sinkNodes (h : C.IsProper) (hT : C.IsSide T) :
    C.network.IsCut 0 1 (C.sinkNodes T) where
  lt_nodes := by
    intro u hu
    rw [sinkNodes, List.mem_toFinset, List.mem_map] at hu
    obtain ⟨n, hn, rfl⟩ := hu
    rw [nodes_network]
    exact List.idxOf_lt_length_iff.mpr (List.mem_of_mem_filter hn)
  sink_mem := by
    rw [← h.idxOf_sink]
    exact (idxOf_mem_sinkNodes h.sink_mem_nodes).mpr rfl
  source_notMem := by
    rw [← h.idxOf_source, idxOf_mem_sinkNodes h.source_mem_nodes]
    exact Bool.false_ne_true
  limited := by
    intro u v _ hout hin hunlimited
    rcases h.left_network_cases u v with hzero | ⟨a, ha, rfl, rfl, hleft⟩
    · rw [hunlimited] at hzero
      cases hzero
    · obtain ⟨hfrom, hto⟩ := h.ends_mem_nodes ha
      rw [idxOf_mem_sinkNodes hfrom] at hout
      rw [idxOf_mem_sinkNodes hto] at hin
      rcases mem_arcs.mp ha with ⟨p, hp, harc⟩ | ⟨l, -, -, rfl⟩
      · have hadmits := hT.admits p hp
        rcases priceArc?_unlimited harc (hleft.symm.trans hunlimited) with
          ⟨hterminal, -, hvertex⟩ | ⟨hterminal, hvertex, -⟩
        · rw [hvertex] at hin
          rw [hterminal] at hadmits
          exact Bool.false_ne_true (hadmits.symm.trans hin)
        · rw [hvertex] at hout
          rw [hterminal] at hadmits
          exact hout hadmits
      · rw [hunlimited] at hleft
        cases hleft

end IsProper

/-- The vertices among the nodes of a set. -/
def sideOf (C : CutProblem ν K) (S : Finset Nat) : Finset ν :=
  C.vertices.toFinset.filter fun v => C.nodes.idxOf (.vertex v) ∈ S

namespace IsProper

theorem mem_sideOf {v : ν} :
    v ∈ C.sideOf S ↔ v ∈ C.vertices ∧ C.nodes.idxOf (.vertex v) ∈ S := by
  rw [sideOf, Finset.mem_filter, List.mem_toFinset]

theorem sinkNodes_sideOf (h : C.IsProper) (hS : C.network.IsCut 0 1 S) :
    C.sinkNodes (C.sideOf S) = S := by
  have hnode : ∀ n ∈ C.nodes, (C.nodes.idxOf n ∈ C.sinkNodes (C.sideOf S) ↔ C.nodes.idxOf n ∈ S) := by
    intro n hn
    rw [idxOf_mem_sinkNodes hn]
    cases n with
    | source =>
        rw [h.idxOf_source]
        exact iff_of_false Bool.false_ne_true hS.source_notMem
    | sink =>
        rw [h.idxOf_sink]
        exact iff_of_true rfl hS.sink_mem
    | vertex v =>
        rw [onSinkSide, decide_eq_true_eq, mem_sideOf]
        exact and_iff_right (h.vertex_mem_nodes.mp hn)
  ext u
  by_cases hu : u < C.nodes.length
  · have hidx := h.nodes_nodup.idxOf_getElem u hu
    have hiff := hnode _ (List.getElem_mem hu)
    rwa [hidx] at hiff
  · refine iff_of_false (fun hin => hu ?_) fun hin => hu ?_
    · rw [sinkNodes, List.mem_toFinset, List.mem_map] at hin
      obtain ⟨n, hn, rfl⟩ := hin
      exact List.idxOf_lt_length_iff.mpr (List.mem_of_mem_filter hn)
    · exact nodes_network C ▸ hS.lt_nodes hin

theorem isSide_sideOf (h : C.IsProper) (hS : C.network.IsCut 0 1 S) : C.IsSide (C.sideOf S) where
  subset v hv := (mem_sideOf.mp hv).1
  admits := by
    rintro ⟨v, t⟩ hp
    have hv : v ∈ C.vertices := h.mem_vertices_of_mem_prices hp
    have hnode : C.nodes.idxOf (.vertex v) < C.network.nodes := by
      rw [nodes_network]
      exact List.idxOf_lt_length_iff.mpr (h.vertex_mem_nodes.mpr hv)
    cases t with
    | finite c => trivial
    | sourceOnly =>
        have hleft := h.left_network_of_mem (mem_arcs.mpr (.inl ⟨_, hp, rfl⟩))
        apply decide_eq_false
        intro hin
        have hpos : 0 < C.network.nodes := (Nat.zero_le _).trans_lt (hS.lt_nodes hS.sink_mem)
        refine hS.limited ?_ ?_ (mem_sideOf.mp hin).2 hleft
        · rwa [h.idxOf_source]
        · rw [h.idxOf_source]
          exact hS.source_notMem
    | sinkOnly =>
        have hleft := h.left_network_of_mem (mem_arcs.mpr (.inl ⟨_, hp, rfl⟩))
        refine decide_eq_true (by_contra fun hout => ?_)
        refine hS.limited hnode (fun hin => hout (mem_sideOf.mpr ⟨hv, hin⟩)) ?_ hleft
        exact h.idxOf_sink ▸ hS.sink_mem

/-- The vertices bound to the sink side may stand there alone. -/
theorem exists_isSide (h : C.IsProper) : ∃ T, C.IsSide T := by
  classical
  refine ⟨C.vertices.toFinset.filter fun v => (v, .sinkOnly) ∈ C.prices, ?_, ?_⟩
  · intro v hv
    exact List.mem_toFinset.mp (Finset.mem_filter.mp hv).1
  · rintro ⟨v, t⟩ hp
    have hv : v ∈ C.vertices := h.mem_vertices_of_mem_prices hp
    have hfst : (C.prices.map Prod.fst).Nodup := h.prices_map_fst.symm ▸ h.vertices_nodup
    cases t with
    | finite c => trivial
    | sourceOnly =>
        apply decide_eq_false
        intro hin
        have heq := List.inj_on_of_nodup_map hfst hp (Finset.mem_filter.mp hin).2 rfl
        cases heq
    | sinkOnly => exact decide_eq_true (Finset.mem_filter.mpr ⟨List.mem_toFinset.mpr hv, hp⟩)

end IsProper

/-! ## Minimal cuts -/

/-- The least of the cheapest sides, and its cost. -/
structure IsLeastSide (C : CutProblem ν K) (T : Finset ν) (value : K) : Prop where
  isSide : C.IsSide T
  cost_eq : C.cost T = value
  cost_le : ∀ U, C.IsSide U → value ≤ C.cost U
  subset_of_eq : ∀ U, C.IsSide U → C.cost U = value → T ⊆ U

/-- The solution has on the sink side the least of the cheapest sides. -/
theorem IsProper.solve_eq_ok (h : C.IsProper) : ∃ T value, C.IsLeastSide T value ∧
    C.solve = .ok { C with
      sinkSide := some (C.vertices.map fun v => decide (v ∈ T)).toArray
      cutValue := some value } := by
  obtain ⟨T₀, hT₀⟩ := h.exists_isSide
  have hcut := h.isCut_sinkNodes hT₀
  obtain ⟨value, flags, hflow, hleast⟩ :=
    Network.maximalFlow_eq_ok h.isProper_network (hcut.lt_nodes hcut.sink_mem) hcut
  set S := (Finset.range C.network.nodes).filter fun u => flags.getD u false with hS
  have hsinkNodes := h.sinkNodes_sideOf hleast.isCut
  refine ⟨C.sideOf S, value, ⟨h.isSide_sideOf hleast.isCut, ?_, ?_, ?_⟩, ?_⟩
  · rw [← h.cutCapacity_sinkNodes, hsinkNodes, hleast.capacity_eq]
  · intro U hU
    rw [← h.cutCapacity_sinkNodes]
    exact hleast.capacity_le _ (h.isCut_sinkNodes hU)
  · intro U hU hcost v hv
    rw [← h.cutCapacity_sinkNodes] at hcost
    have hsubset := hleast.subset_of_eq _ (h.isCut_sinkNodes hU) hcost
    obtain ⟨hmem, hin⟩ := IsProper.mem_sideOf.mp hv
    have hside := (idxOf_mem_sinkNodes (h.vertex_mem_nodes.mpr hmem)).mp (hsubset hin)
    exact of_decide_eq_true hside
  · have hflags : C.vertices.map (fun v => flags.getD (C.nodes.idxOf (.vertex v)) false) =
        C.vertices.map fun v => decide (v ∈ C.sideOf S) := by
      apply List.map_congr_left
      intro v hv
      have hlt : C.nodes.idxOf (.vertex v) < C.network.nodes := by
        rw [nodes_network]
        exact List.idxOf_lt_length_iff.mpr (h.vertex_mem_nodes.mpr hv)
      rw [Bool.eq_iff_iff, decide_eq_true_eq, IsProper.mem_sideOf, hS, Finset.mem_filter,
        Finset.mem_range]
      exact ⟨fun hflag => ⟨hv, hlt, hflag⟩, fun hin => hin.2.2⟩
    rw [solve, hflow, ← hflags]
    rfl

end CutProblem
end TotalVariation
