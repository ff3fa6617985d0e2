import Mathlib
import TotalVariation.Proofs.Flow.Building
import TotalVariation.Proofs.Flow.Completion

/-! # Cuts from instructions

A cut problem is built by instructions that set prices and add capacities. The last price of a
vertex counts, capacities between the same vertices add up. What the solution minimises can be read
off the instructions, with the forbidden sides at an infinite cost.
-/

namespace TotalVariation

variable {ν : Type} {K : Type}

/-- An instruction for building a cut problem. -/
inductive Instruction (ν K : Type) where
  /-- Set the prices of vertices; one price may stand for all. -/
  | setTerminals (vs : List ν) (prices : Array (Terminal K))
  /-- Add capacities between pairs of vertices, in both directions; one entry may stand for all. -/
  | addLinks (us vs : Array ν) (forth back : Array K)

namespace Instruction

/-- The pairs of vertices with their capacities in both directions. -/
def pairs (us vs : Array ν) (forth back : Array K) : List (ν × ν × K × K) :=
  match (commonLength? us.size vs.size).bind fun n =>
      (commonLength? n forth.size).bind fun n => commonLength? n back.size with
  | some n => (stretch n us).toList.zip ((stretch n vs).toList.zip
      ((stretch n forth).toList.zip (stretch n back).toList))
  | none => []

/-- The links of a pair, one in each direction. -/
def directed (p : ν × ν × K × K) : List ((ν × ν) × K) :=
  [((p.1, p.2.1), p.2.2.1), ((p.2.1, p.1), p.2.2.2)]

/-- The prices that instructions set, in the order in which they do. -/
def settings (is : List (Instruction ν K)) : List (ν × Terminal K) :=
  is.flatMap fun
    | setTerminals vs prices => vs.zip (stretch vs.length prices).toList
    | addLinks .. => []

/-- The capacities that instructions add to links. -/
def additions (is : List (Instruction ν K)) : List ((ν × ν) × K) :=
  is.flatMap fun
    | setTerminals .. => []
    | addLinks us vs forth back => (pairs us vs forth back).flatMap directed

/-- The vertices at the ends of the links. -/
def ends (is : List (Instruction ν K)) : List ν :=
  (additions is).flatMap fun l => [l.1.1, l.1.2]

end Instruction

/-- The price of a side, infinite if the side is forbidden. -/
def Terminal.fullPrice [ExactField K] (onSink : Bool) : Terminal K → WithTop K
  | .finite c => ((if onSink then max c 0 else max (-c) 0 : K) : WithTop K)
  | .sourceOnly => if onSink then ⊤ else 0
  | .sinkOnly => if onSink then 0 else ⊤

namespace CutProblem

open Instruction

variable [DecidableEq ν]

def perform? [Scalar K] (C : CutProblem ν K) :
    Instruction ν K → Except (Failure K) (CutProblem ν K)
  | .setTerminals vs prices => C.setTerminals? vs prices
  | .addLinks us vs forth back => C.addLinks? us vs forth back

/-- Perform instructions one after the other, starting without prices and links. -/
def build? [Scalar K] (vertices : List ν) (is : List (Instruction ν K)) :
    Except (Failure K) (CutProblem ν K) :=
  is.foldlM perform? (ofVertices vertices)

variable [ExactField K] {vertices : List ν} {is : List (Instruction ν K)} {C D : CutProblem ν K}
  {T : Finset ν}

/-- The price of a vertex is the last one that was set for it, at first zero. -/
def lastPrice (settings : List (ν × Terminal K)) (v : ν) : Terminal K :=
  (settings.reverse.lookup v).getD (.finite 0)

/-- Whether a link leads from outside a set of vertices into it. -/
def entersSide (T : Finset ν) (link : ν × ν) : Bool := decide (link.1 ∉ T ∧ link.2 ∈ T)

/-- What a set of vertices costs on the sink side, as the instructions say. -/
def costOf (vertices : List ν) (is : List (Instruction ν K)) (T : Finset ν) : WithTop K :=
  (vertices.map fun v => (lastPrice (settings is) v).fullPrice (decide (v ∈ T))).sum +
    (linkSum (entersSide T) (additions is) : K)

/-! ## Prices -/

theorem Terminal.fullPrice_of_admits {onSink : Bool} {t : Terminal K} (h : t.Admits onSink) :
    t.fullPrice onSink = t.sidePrice onSink := by
  cases t with
  | finite c => rfl
  | sourceOnly =>
      obtain rfl : onSink = false := h
      rfl
  | sinkOnly =>
      obtain rfl : onSink = true := h
      rfl

theorem Terminal.fullPrice_of_not_admits {onSink : Bool} {t : Terminal K}
    (h : ¬t.Admits onSink) : t.fullPrice onSink = ⊤ := by
  cases t with
  | finite c => exact absurd trivial h
  | sourceOnly => cases onSink with
    | false => exact absurd rfl h
    | true => rfl
  | sinkOnly => cases onSink with
    | false => rfl
    | true => exact absurd rfl h

/-- The prices of sides add up to a number if the sides are allowed. -/
theorem sum_fullPrice_of_admits {ps : List (ν × Terminal K)}
    (h : ∀ p ∈ ps, p.2.Admits (decide (p.1 ∈ T))) :
    (ps.map fun p => p.2.fullPrice (decide (p.1 ∈ T))).sum =
      ((ps.map fun p => p.2.sidePrice (decide (p.1 ∈ T))).sum : K) := by
  induction ps with
  | nil => rfl
  | cons p ps ih =>
      rw [List.map_cons, List.sum_cons, List.map_cons, List.sum_cons, WithTop.coe_add,
        Terminal.fullPrice_of_admits (h p List.mem_cons_self),
        ih fun q hq => h q (List.mem_cons_of_mem p hq)]

theorem sum_fullPrice_of_not_admits {ps : List (ν × Terminal K)}
    (h : ¬∀ p ∈ ps, p.2.Admits (decide (p.1 ∈ T))) :
    (ps.map fun p => p.2.fullPrice (decide (p.1 ∈ T))).sum = ⊤ := by
  induction ps with
  | nil => exact absurd (fun p hp => nomatch hp) h
  | cons p ps ih =>
      rw [List.map_cons, List.sum_cons]
      by_cases hp : p.2.Admits (decide (p.1 ∈ T))
      · rw [ih fun hps => h (List.forall_mem_cons.mpr ⟨hp, hps⟩), WithTop.add_top]
      · rw [Terminal.fullPrice_of_not_admits hp, WithTop.top_add]

/-- Later prices come before those that are kept. -/
theorem lastPrice_append (earlier later : List (ν × Terminal K)) (v : ν) :
    lastPrice (earlier ++ later) v = (later.reverse.lookup v).getD (lastPrice earlier v) := by
  rw [lastPrice, List.reverse_append, List.lookup_append, Option.getD_or, lastPrice]

/-! ## Links -/

omit [DecidableEq ν] in
theorem linkSum_flatMap_directed (chosen : ν × ν → Bool) (ps : List (ν × ν × K × K)) :
    linkSum chosen (ps.flatMap directed) =
      (ps.map fun p => (if chosen (p.1, p.2.1) then p.2.2.1 else 0) +
        if chosen (p.2.1, p.1) then p.2.2.2 else 0).sum := by
  induction ps with
  | nil => rfl
  | cons p ps ih =>
      rw [List.flatMap_cons, linkSum_append, ih, List.map_cons, List.sum_cons]
      simp [linkSum, directed]

theorem addLinks?_eq_ok {us vs : Array ν} {forth back : Array K}
    (h : C.addLinks? us vs forth back = .ok D) : D = C.addLinks (pairs us vs forth back) := by
  unfold addLinks? at h
  unfold pairs
  split at h
  next n hn =>
    rw [hn]
    exact (Except.ok.inj h).symm
  next => cases h

/-! ## Building -/

/-- The problem is what the instructions say: prices by vertex, and links between all ends. -/
structure IsBuiltBy (vertices : List ν) (is : List (Instruction ν K)) (C : CutProblem ν K) :
    Prop where
  vertices_eq : C.vertices = vertices
  terminals_size : C.terminals.size = vertices.length
  terminal_eq : ∀ v ∈ vertices,
    C.terminals[vertices.idxOf v]? = some (lastPrice (settings is) v)
  areLinks : AreLinks (ends is) C.links
  linkSum_eq : ∀ chosen, linkSum chosen C.links = linkSum chosen (additions is)

theorem isBuiltBy_ofVertices (vertices : List ν) :
    IsBuiltBy (K := K) vertices [] (ofVertices vertices) where
  vertices_eq := rfl
  terminals_size := Array.size_replicate
  terminal_eq v hv := by
    rw [ofVertices, Array.getElem?_replicate, if_pos (List.idxOf_lt_length_iff.mpr hv)]
    rfl
  areLinks := ⟨List.nodup_nil, by simp [ofVertices], by simp [ofVertices]⟩
  linkSum_eq _ := rfl

theorem IsBuiltBy.setTerminals (h : IsBuiltBy vertices is C) (hnodup : vertices.Nodup)
    {vs : List ν} {prices : Array (Terminal K)} (hD : C.setTerminals? vs prices = .ok D) :
    IsBuiltBy vertices (is ++ [.setTerminals vs prices]) D := by
  obtain ⟨hvertices, hsize, hterminal, hlinks, hsum⟩ := h
  subst hvertices
  obtain ⟨places, hplaces, hD⟩ := bind_eq_ok.mp hD
  obtain ⟨hmem, rfl⟩ := (places?_eq_ok_iff hnodup).mp hplaces
  obtain ⟨-, hD⟩ := test_eq_ok.mp hD
  have hzip : (vs.map C.vertices.idxOf).zip (stretch (vs.map C.vertices.idxOf).length prices).toList =
      (vs.zip (stretch vs.length prices).toList).map fun p => (C.vertices.idxOf p.1, p.2) := by
    rw [List.length_map, List.zip_map_left]
    rfl
  dsimp only at hD
  rw [hzip, List.foldl_map] at hD
  obtain rfl := Except.ok.inj hD
  have hadded : additions (is ++ [.setTerminals vs prices]) = additions is := by
    simp [additions]
  refine ⟨rfl, ?_, fun v hv => ?_, ?_, ?_⟩
  · exact (size_foldl_setIfInBounds _ _ _ _).trans hsize
  · have hset : settings (is ++ [.setTerminals vs prices]) =
        settings is ++ vs.zip (stretch vs.length prices).toList := by simp [settings]
    rw [hset, lastPrice_append]
    exact getElem?_foldl_settings _ hv (hterminal v hv)
  · rwa [ends, hadded]
  · rwa [hadded]

theorem IsBuiltBy.addLinks (h : IsBuiltBy vertices is C) {us vs : Array ν}
    {forth back : Array K} (hnonneg : ∀ l ∈ additions [.addLinks us vs forth back], 0 ≤ l.2)
    (hD : C.addLinks? us vs forth back = .ok D) :
    IsBuiltBy vertices (is ++ [.addLinks us vs forth back]) D := by
  obtain rfl := addLinks?_eq_ok hD
  have hadded : additions (is ++ [.addLinks us vs forth back]) =
      additions is ++ (pairs us vs forth back).flatMap directed := by simp [additions]
  have hset : settings (is ++ [.addLinks us vs forth back]) = settings is := by simp [settings]
  have hends : ∀ v ∈ ends is, v ∈ ends (is ++ [.addLinks us vs forth back]) := by
    intro v hv
    rw [ends, hadded, List.flatMap_append]
    exact List.mem_append_left _ hv
  have hpairs : ∀ p ∈ pairs us vs forth back,
      (p.1 ∈ ends (is ++ [.addLinks us vs forth back]) ∧
        p.2.1 ∈ ends (is ++ [.addLinks us vs forth back])) ∧ 0 ≤ p.2.2.1 ∧ 0 ≤ p.2.2.2 := by
    intro p hp
    have hforth : ((p.1, p.2.1), p.2.2.1) ∈ (pairs us vs forth back).flatMap directed :=
      List.mem_flatMap.mpr ⟨p, hp, List.mem_cons_self⟩
    have hback : ((p.2.1, p.1), p.2.2.2) ∈ (pairs us vs forth back).flatMap directed :=
      List.mem_flatMap.mpr ⟨p, hp, List.mem_cons_of_mem _ List.mem_cons_self⟩
    have hmem := List.mem_append_right (additions is) hforth
    rw [← hadded] at hmem
    refine ⟨⟨?_, ?_⟩, hnonneg ((p.1, p.2.1), p.2.2.1) ?_, hnonneg ((p.2.1, p.1), p.2.2.2) ?_⟩
    · exact List.mem_flatMap.mpr ⟨_, hmem, List.mem_cons_self⟩
    · exact List.mem_flatMap.mpr ⟨_, hmem, List.mem_cons_of_mem _ List.mem_cons_self⟩
    · simpa [additions] using hforth
    · simpa [additions] using hback
  obtain ⟨hvertices, hsize, hterminal, hlinks, hsum⟩ := h
  have hgrown := AreLinks.addLinks (pairs us vs forth back) (hlinks.mono hends) hpairs
  refine ⟨hvertices, hsize, ?_, (hgrown fun _ => true).1, fun chosen => ?_⟩
  · rwa [hset]
  · rw [hadded, linkSum_append, linkSum_flatMap_directed, ← hsum]
    exact (hgrown chosen).2

/-- Building performs every instruction. -/
theorem isBuiltBy_of_build? (hnodup : vertices.Nodup) (hnonneg : ∀ l ∈ additions is, 0 ≤ l.2)
    (h : build? vertices is = .ok C) : IsBuiltBy vertices is C := by
  -- by induction on what is left, with what is done as the history of the problem at hand
  have hrun : ∀ (left done : List (Instruction ν K)) (B : CutProblem ν K),
      IsBuiltBy vertices done B → (∀ l ∈ additions left, 0 ≤ l.2) →
      left.foldlM perform? B = .ok C → IsBuiltBy vertices (done ++ left) C := by
    intro left
    induction left with
    | nil =>
        intro done B hB _ hleft
        obtain rfl := Except.ok.inj hleft
        rwa [List.append_nil]
    | cons i left ih =>
        intro done B hB hnonneg hleft
        rw [List.foldlM_cons] at hleft
        obtain ⟨B', hB', hleft⟩ := bind_eq_ok.mp hleft
        have hadditions : additions (i :: left) = additions [i] ++ additions left := by
          simp [additions]
        rw [hadditions] at hnonneg
        have hnext : IsBuiltBy vertices (done ++ [i]) B' := by
          cases i with
          | setTerminals vs prices => exact hB.setTerminals hnodup hB'
          | addLinks us vs forth back =>
              exact hB.addLinks (fun l hl => hnonneg l (List.mem_append_left _ hl)) hB'
        have hrest := ih _ _ hnext (fun l hl => hnonneg l (List.mem_append_right _ hl)) hleft
        rwa [List.append_assoc] at hrest
  exact hrun is [] _ (isBuiltBy_ofVertices vertices) hnonneg h

namespace IsBuiltBy

theorem prices_eq (h : IsBuiltBy vertices is C) (hnodup : vertices.Nodup) :
    C.prices = vertices.map fun v => (v, lastPrice (settings is) v) := by
  obtain ⟨hvertices, hsize, hterminal, -, -⟩ := h
  subst hvertices
  apply List.ext_getElem
  · simp [prices, hsize]
  · intro i hi hi'
    have hlt : i < C.vertices.length := by simpa using hi'
    have hget := hterminal _ (List.getElem_mem hlt)
    rw [hnodup.idxOf_getElem i hlt, Array.getElem?_eq_getElem (hsize.symm ▸ hlt)] at hget
    simp [prices, Option.some.inj hget]

theorem isListed (h : IsBuiltBy vertices is C) (hnodup : vertices.Nodup) : C.IsListed where
  vertices_nodup := h.vertices_eq.symm ▸ hnodup
  terminals_size := h.terminals_size.trans (congrArg List.length h.vertices_eq.symm)
  links_nodup := h.areLinks.nodup
  nonneg := h.areLinks.nonneg

theorem costOf_eq_sum (h : IsBuiltBy vertices is C) (hnodup : vertices.Nodup) (T : Finset ν) :
    costOf vertices is T = (C.prices.map fun p => p.2.fullPrice (decide (p.1 ∈ T))).sum +
      ((C.links.map fun l => if l.1.1 ∉ T ∧ l.1.2 ∈ T then l.2 else 0).sum : K) := by
  have hlinks : linkSum (entersSide T) C.links =
      (C.links.map fun l => if l.1.1 ∉ T ∧ l.1.2 ∈ T then l.2 else 0).sum := by
    simp only [linkSum, entersSide, decide_eq_true_eq]
  rw [costOf, ← h.linkSum_eq, hlinks, h.prices_eq hnodup, List.map_map]
  rfl

/-- The instructions give an allowed set of vertices its cost in the problem that is built. -/
theorem costOf_of_admits (h : IsBuiltBy vertices is C) (hnodup : vertices.Nodup)
    (hT : C.Admits T) : costOf vertices is T = C.cost T := by
  rw [h.costOf_eq_sum hnodup, sum_fullPrice_of_admits hT, ← WithTop.coe_add, cost]

theorem costOf_of_not_admits (h : IsBuiltBy vertices is C) (hnodup : vertices.Nodup)
    (hT : ¬C.Admits T) : costOf vertices is T = ⊤ := by
  rw [h.costOf_eq_sum hnodup, sum_fullPrice_of_not_admits hT, WithTop.top_add]

end IsBuiltBy

/-- The solution of a problem built by instructions flags the least of the cheapest sets of
vertices, and its value is their cost. The set is one of listed vertices if no link ends
elsewhere. -/
theorem solve_of_build? (hnodup : vertices.Nodup) (hnonneg : ∀ l ∈ additions is, 0 ≤ l.2)
    (hC : build? vertices is = .ok C) :
    ∃ (T : Finset ν) (value : K), C.solve = .ok { C with
        sinkSide := some (vertices.map fun v => decide (v ∈ T)).toArray
        cutValue := some value } ∧
      costOf vertices is T = value ∧
      (∀ U, (value : WithTop K) ≤ costOf vertices is U) ∧
      (∀ U, costOf vertices is U = value → T ⊆ U) ∧
      ((∀ v ∈ ends is, v ∈ vertices) → ∀ v ∈ T, v ∈ vertices) := by
  have hbuilt := isBuiltBy_of_build? hnodup hnonneg hC
  have hlisted := hbuilt.isListed hnodup
  obtain ⟨T, value, hsolve, hnames, hadmits, hcost, hleast⟩ := hlisted.solve_eq_ok
  have hvertices := hbuilt.vertices_eq
  subst hvertices
  -- sets that the terminals forbid cost too much to matter
  refine ⟨T, value, hsolve, ?_, fun U => ?_, fun U hU => ?_, fun hends v hv => ?_⟩
  · rw [hbuilt.costOf_of_admits hnodup hadmits, hcost]
  · by_cases hallowed : C.Admits U
    · rw [hbuilt.costOf_of_admits hnodup hallowed, WithTop.coe_le_coe]
      exact (hleast U hallowed).1
    · rw [hbuilt.costOf_of_not_admits hnodup hallowed]
      exact le_top
  · by_cases hallowed : C.Admits U
    · rw [hbuilt.costOf_of_admits hnodup hallowed, WithTop.coe_inj] at hU
      exact (hleast U hallowed).2 hU
    · rw [hbuilt.costOf_of_not_admits hnodup hallowed] at hU
      exact absurd hU WithTop.top_ne_coe
  · rcases (hlisted.names_spec.2.2 v).mp (hnames v hv) with hin | ⟨l, hl, hend⟩
    · exact hin
    · obtain ⟨hfrom, hto⟩ := hbuilt.areLinks.ends_mem l (List.mem_of_mem_filter hl)
      rcases hend with rfl | rfl
      · exact hends _ hfrom
      · exact hends _ hto

/-- A chain of three vertices, one price of which is replaced by a binding. -/
def boundChain : List (Instruction Nat ℚ) :=
  [.setTerminals [0, 1] #[.finite (-5), .sinkOnly], .addLinks #[0] #[1] #[2] #[1],
    .addLinks #[0, 1] #[1, 2] #[1] #[1, 3], .setTerminals [0] #[.sourceOnly],
    .setTerminals [2] #[.finite (1 / 2)]]

theorem solve_of_build?_boundChain :
    ∃ C, build? [0, 1, 2] boundChain = .ok C ∧ ∃ (T : Finset Nat) (value : ℚ),
      C.solve = .ok { C with
        sinkSide := some ([0, 1, 2].map fun v => decide (v ∈ T)).toArray
        cutValue := some value } ∧
      costOf [0, 1, 2] boundChain T = value ∧
      (∀ U, (value : WithTop ℚ) ≤ costOf [0, 1, 2] boundChain U) ∧ ∀ v ∈ T, v ∈ [0, 1, 2] := by
  have hnonneg : ∀ l ∈ additions boundChain, 0 ≤ l.2 := by decide +kernel
  have hends : ∀ v ∈ ends boundChain, v ∈ [0, 1, 2] := by decide +kernel
  obtain ⟨C, hC⟩ : ∃ C, build? [0, 1, 2] boundChain = .ok C := ⟨_, by with_unfolding_all rfl⟩
  obtain ⟨T, value, hsolve, hcost, hle, -, hsubset⟩ := solve_of_build? (by decide) hnonneg hC
  exact ⟨C, hC, T, value, hsolve, hcost, hle, hsubset hends⟩

end CutProblem
end TotalVariation
