import Mathlib
import TotalVariation.Proofs.Flow.Cut

/-! # Cut problems with further ends of links

A link may end at a vertex that is not listed. The flow network has a node for it all the same, so
the problem has the same cuts as one that lists the vertex without a price.
-/

namespace TotalVariation.CutProblem

variable {ν : Type} [DecidableEq ν] {K : Type} [ExactField K] {C : CutProblem ν K}

/-- Vertices and links are listed once and no link is negative; links may end anywhere. -/
structure IsListed (C : CutProblem ν K) : Prop where
  vertices_nodup : C.vertices.Nodup
  terminals_size : C.terminals.size = C.vertices.length
  links_nodup : (C.links.map (·.1)).Nodup
  nonneg : ∀ l ∈ C.links, 0 ≤ l.2

/-- The terminals allow the sides that a set of vertices makes. -/
def Admits (C : CutProblem ν K) (T : Finset ν) : Prop :=
  ∀ p ∈ C.prices, p.2.Admits (decide (p.1 ∈ T))

/-! ## Names -/

/-- A list of names with one more, unless it is there. -/
def addName (acc : List ν) (v : ν) : List ν := if v ∈ acc then acc else acc ++ [v]

theorem names_eq_foldl (C : CutProblem ν K) : C.names =
    C.openLinks.foldl (fun acc l => addName (addName acc l.1.1) l.1.2)
      (C.vertices.foldl addName []) := rfl

@[simp] theorem mem_addName {acc : List ν} {v w : ν} : w ∈ addName acc v ↔ w ∈ acc ∨ w = v := by
  unfold addName
  split
  next h =>
    constructor
    · exact Or.inl
    · rintro (hw | rfl)
      · exact hw
      · exact h
  next => rw [List.mem_append, List.mem_singleton]

theorem initial_addName (acc : List ν) (v : ν) : acc <+: addName acc v := by
  unfold addName
  split
  next => exact List.prefix_rfl
  next => exact List.prefix_append _ _

theorem nodup_addName {acc : List ν} (h : acc.Nodup) (v : ν) : (addName acc v).Nodup := by
  unfold addName
  split
  next => exact h
  next hv =>
    refine List.nodup_append.mpr ⟨h, List.nodup_singleton v, ?_⟩
    intro a ha b hb heq
    rw [List.mem_singleton.mp hb] at heq
    exact hv (heq ▸ ha)

omit [ExactField K] in
/-- The ends of links are added behind the names that are there, each once. -/
theorem foldl_addName (links : List ((ν × ν) × K)) {acc : List ν} (h : acc.Nodup) :
    let names := links.foldl (fun acc l => addName (addName acc l.1.1) l.1.2) acc
    acc <+: names ∧ names.Nodup ∧
      ∀ v, v ∈ names ↔ v ∈ acc ∨ ∃ l ∈ links, v = l.1.1 ∨ v = l.1.2 := by
  induction links generalizing acc with
  | nil => exact ⟨List.prefix_rfl, h, by simp⟩
  | cons l links ih =>
      obtain ⟨hinitial, hnodup, hmem⟩ := ih (nodup_addName (nodup_addName h l.1.1) l.1.2)
      refine ⟨?_, hnodup, fun v => ?_⟩
      · exact ((initial_addName acc l.1.1).trans (initial_addName _ l.1.2)).trans hinitial
      · rw [List.foldl_cons, hmem]
        simp only [mem_addName, List.mem_cons, exists_eq_or_imp, or_assoc]

namespace IsListed

theorem names_spec (h : C.IsListed) : C.vertices <+: C.names ∧ C.names.Nodup ∧
    ∀ v, v ∈ C.names ↔ v ∈ C.vertices ∨ ∃ l ∈ C.openLinks, v = l.1.1 ∨ v = l.1.2 := by
  have hvertices : C.vertices.foldl addName [] = C.vertices :=
    foldl_insert_of_nodup C.vertices [] h.vertices_nodup
  rw [names_eq_foldl, hvertices]
  exact foldl_addName C.openLinks h.vertices_nodup

theorem ends_mem_names (h : C.IsListed) {l : (ν × ν) × K} (hl : l ∈ C.openLinks) :
    l.1.1 ∈ C.names ∧ l.1.2 ∈ C.names :=
  ⟨(h.names_spec.2.2 _).mpr (.inr ⟨l, hl, .inl rfl⟩),
    (h.names_spec.2.2 _).mpr (.inr ⟨l, hl, .inr rfl⟩)⟩

end IsListed

/-! ## The completed problem -/

/-- The problem that lists all ends of its positive links, the further ones without a price. -/
def completed (C : CutProblem ν K) : CutProblem ν K :=
  { C with
    vertices := C.names
    terminals := C.terminals ++ Array.replicate (C.names.length - C.vertices.length) (.finite 0)
    links := C.openLinks }

namespace IsListed

theorem isProper_completed (h : C.IsListed) : C.completed.IsProper where
  vertices_nodup := h.names_spec.2.1
  terminals_size := by
    have hle : C.vertices.length ≤ C.names.length := h.names_spec.1.length_le
    have hsize : C.completed.terminals.size =
        C.terminals.size + (C.names.length - C.vertices.length) := by
      rw [completed, Array.size_append, Array.size_replicate]
    rw [hsize, h.terminals_size]
    exact Nat.add_sub_cancel' hle
  links_nodup := h.links_nodup.sublist (List.filter_sublist.map _)
  ends_mem := fun _ hl => h.ends_mem_names hl
  nonneg := fun _ hl => h.nonneg _ (List.mem_of_mem_filter hl)

/-- The further vertices come last, with nothing to pay on either side. -/
theorem prices_completed (h : C.IsListed) : ∃ further : List ν,
    C.completed.prices = C.prices ++ further.map fun v => (v, .finite 0) := by
  obtain ⟨further, hfurther⟩ := h.names_spec.1
  refine ⟨further, ?_⟩
  have hcount : C.names.length - C.vertices.length = further.length := by
    rw [← hfurther, List.length_append, Nat.add_sub_cancel_left]
  have hlength : C.vertices.length = C.terminals.toList.length :=
    h.terminals_size.symm.trans Array.length_toList.symm
  have hpad : further.zip (List.replicate further.length (Terminal.finite (0 : K))) =
      further.map fun v => (v, .finite 0) :=
    List.ext_getElem (by simp) fun i _ _ => by simp
  rw [prices, completed, Array.toList_append, Array.toList_replicate, hcount, ← hfurther,
    List.zip_append hlength, hpad]
  rfl

theorem nodes_completed (h : C.IsListed) : C.completed.nodes = C.nodes :=
  h.isProper_completed.nodes_eq

theorem openLinks_completed (C : CutProblem ν K) : C.completed.openLinks = C.openLinks :=
  List.filter_eq_self.mpr fun _ hl => (List.mem_filter.mp hl).2

theorem network_completed (h : C.IsListed) : C.completed.network = C.network := by
  obtain ⟨further, hprices⟩ := h.prices_completed
  have hnone : (further.map fun v => (v, Terminal.finite (0 : K))).filterMap priceArc? = [] := by
    rw [List.filterMap_eq_nil_iff]
    intro p hp
    obtain ⟨v, -, rfl⟩ := List.mem_map.mp hp
    simp [priceArc?]
  have harcs : C.completed.arcs = C.arcs := by
    rw [arcs, arcs, terminalArcs_eq, terminalArcs_eq, hprices, List.filterMap_append, hnone,
      List.append_nil, openLinks_completed]
  rw [network_eq, network_eq, harcs, bare, bare, h.nodes_completed]
  refine congrArg _ (List.map_congr_left fun a _ => ?_)
  rw [numbered, numbered, h.nodes_completed]

theorem cost_completed (h : C.IsListed) (T : Finset ν) : C.completed.cost T = C.cost T := by
  obtain ⟨further, hprices⟩ := h.prices_completed
  have hfree : ((further.map fun v => (v, Terminal.finite (0 : K))).map fun p =>
      p.2.sidePrice (decide (p.1 ∈ T))).sum = 0 := by
    rw [List.map_map]
    refine List.sum_eq_zero fun c hc => ?_
    obtain ⟨v, -, rfl⟩ := List.mem_map.mp hc
    simp [Terminal.sidePrice]
  have hlinks : (C.openLinks.map fun l => if l.1.1 ∉ T ∧ l.1.2 ∈ T then l.2 else 0).sum =
      (C.links.map fun l => if l.1.1 ∉ T ∧ l.1.2 ∈ T then l.2 else 0).sum := by
    refine sum_map_filter _ _ _ fun l hl hclosed => ?_
    have hle : l.2 ≤ 0 := not_lt.mp (of_decide_eq_false hclosed)
    rw [le_antisymm hle (h.nonneg l hl), ite_self]
  rw [cost, cost, hprices, List.map_append, List.sum_append, hfree, add_zero]
  exact congrArg _ hlinks

/-- The sides of the completed problem are the sets of names that the terminals allow. -/
theorem isSide_completed_iff (h : C.IsListed) {T : Finset ν} :
    C.completed.IsSide T ↔ (∀ v ∈ T, v ∈ C.names) ∧ C.Admits T := by
  obtain ⟨further, hprices⟩ := h.prices_completed
  constructor
  · intro hside
    refine ⟨hside.subset, fun p hp => hside.admits p ?_⟩
    rw [hprices]
    exact List.mem_append_left _ hp
  · rintro ⟨hsubset, hadmits⟩
    refine ⟨hsubset, fun p hp => ?_⟩
    rw [hprices] at hp
    rcases List.mem_append.mp hp with hp | hp
    · exact hadmits p hp
    · obtain ⟨v, -, rfl⟩ := List.mem_map.mp hp
      trivial

/-- What a set of vertices costs is decided by its names. -/
theorem cost_inter_names (h : C.IsListed) (U : Finset ν) :
    C.cost (U ∩ C.names.toFinset) = C.cost U := by
  have hmem : ∀ v ∈ C.names, (v ∈ U ∩ C.names.toFinset ↔ v ∈ U) := by
    intro v hv
    rw [Finset.mem_inter, List.mem_toFinset]
    exact and_iff_left hv
  rw [← h.cost_completed, ← h.cost_completed, cost, cost]
  congr 2
  · refine List.map_congr_left fun p hp => ?_
    have hvertex := h.isProper_completed.mem_vertices_of_mem_prices hp
    rw [decide_eq_decide.mpr (hmem p.1 hvertex)]
  · refine List.map_congr_left fun l hl => ?_
    obtain ⟨hfrom, hto⟩ := h.ends_mem_names hl
    rw [if_congr (and_congr (not_congr (hmem _ hfrom)) (hmem _ hto)) rfl rfl]

theorem admits_inter_names (h : C.IsListed) {U : Finset ν} (hU : C.Admits U) :
    C.Admits (U ∩ C.names.toFinset) := by
  intro p hp
  have hvertex : p.1 ∈ C.names :=
    h.names_spec.1.subset (List.of_mem_zip hp).1
  have hmem : p.1 ∈ U ∩ C.names.toFinset ↔ p.1 ∈ U := by
    rw [Finset.mem_inter, List.mem_toFinset]
    exact and_iff_left hvertex
  rw [decide_eq_decide.mpr hmem]
  exact hU p hp

end IsListed

/-! ## Solutions -/

theorem solve_eq_ok_iff {D : CutProblem ν K} : C.solve = .ok D ↔ ∃ value sides,
    C.network.maximalFlow 0 1 = .ok (value, sides) ∧ { C with
      sinkSide := some (C.vertices.map fun v =>
        sides.getD (C.nodes.idxOf (.vertex v)) false).toArray
      cutValue := some value } = D := by
  rw [solve, bind_eq_ok]
  constructor
  · rintro ⟨⟨value, sides⟩, hflow, h⟩
    exact ⟨value, sides, hflow, Except.ok.inj h⟩
  · rintro ⟨value, sides, hflow, rfl⟩
    exact ⟨(value, sides), hflow, rfl⟩

/-- The solution flags the vertices of the least of the cheapest sets that the terminals allow. -/
theorem IsListed.solve_eq_ok (h : C.IsListed) : ∃ T value,
    C.solve = .ok { C with
      sinkSide := some (C.vertices.map fun v => decide (v ∈ T)).toArray
      cutValue := some value } ∧
    (∀ v ∈ T, v ∈ C.names) ∧ C.Admits T ∧ C.cost T = value ∧
    ∀ U, C.Admits U → value ≤ C.cost U ∧ (C.cost U = value → T ⊆ U) := by
  obtain ⟨T, value, hleast, hsolve⟩ := h.isProper_completed.solve_eq_ok
  obtain ⟨value', sides, hflow, heq⟩ := solve_eq_ok_iff.mp hsolve
  obtain rfl : value' = value := Option.some.inj (congrArg cutValue heq)
  rw [h.network_completed] at hflow
  -- the completed problem flags all names, and those of the vertices are among them
  have hflags : ∀ v ∈ C.names,
      sides.getD (C.nodes.idxOf (.vertex v)) false = decide (v ∈ T) := by
    have harray := Option.some.inj (congrArg sinkSide heq)
    rw [h.nodes_completed] at harray
    exact List.map_inj_left.mp (congrArg Array.toList harray)
  obtain ⟨hnames, hadmits⟩ := h.isSide_completed_iff.mp hleast.isSide
  refine ⟨T, value', ?_, hnames, hadmits, ?_, ?_⟩
  · refine solve_eq_ok_iff.mpr ⟨value', sides, hflow, ?_⟩
    rw [List.map_congr_left fun v hv => hflags v (h.names_spec.1.subset hv)]
  · exact (h.cost_completed T).symm.trans hleast.cost_eq
  · intro U hU
    have hside : C.completed.IsSide (U ∩ C.names.toFinset) := by
      refine h.isSide_completed_iff.mpr ⟨fun v hv => ?_, h.admits_inter_names hU⟩
      exact List.mem_toFinset.mp (Finset.mem_inter.mp hv).2
    have hcost : C.completed.cost (U ∩ C.names.toFinset) = C.cost U :=
      (h.cost_completed _).trans (h.cost_inter_names U)
    rw [← hcost]
    refine ⟨hleast.cost_le _ hside, fun hequal => ?_⟩
    exact (hleast.subset_of_eq _ hside hequal).trans Finset.inter_subset_left

end TotalVariation.CutProblem
