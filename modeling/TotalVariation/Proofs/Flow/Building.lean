import Mathlib
import TotalVariation.Proofs.Flow.Cut
import TotalVariation.Proofs.Marks

/-! # Building cut problems

Links are listed once for each ordered pair of vertices, with the sum of the capacities that were
added for it. Prices are kept in the order of the vertices.
-/

namespace TotalVariation

namespace CutProblem

variable {ν : Type} [DecidableEq ν] {K : Type} [ExactField K] {C : CutProblem ν K}
  {links : List ((ν × ν) × K)} {vs : List ν}

/-! ## Links -/

/-- Links between vertices, listed once and not negative. -/
structure AreLinks (vs : List ν) (links : List ((ν × ν) × K)) : Prop where
  nodup : (links.map (·.1)).Nodup
  ends_mem : ∀ l ∈ links, l.1.1 ∈ vs ∧ l.1.2 ∈ vs
  nonneg : ∀ l ∈ links, 0 ≤ l.2

/-- The capacities of the links between chosen pairs. -/
def linkSum (chosen : ν × ν → Bool) (links : List ((ν × ν) × K)) : K :=
  (links.map fun l => if chosen l.1 then l.2 else 0).sum

theorem linkSum_map_of_notMem (chosen : ν × ν → Bool) {pair : ν × ν} (c : K)
    (hout : pair ∉ links.map (·.1)) :
    linkSum chosen (links.map fun l => if l.1 == pair then (l.1, l.2 + c) else l) =
      linkSum chosen links := by
  rw [List.map_congr_left (g := id), List.map_id]
  intro l hl
  rw [if_neg]
  · rfl
  · exact fun heq => hout (List.mem_map.mpr ⟨l, hl, beq_iff_eq.mp heq⟩)

omit [DecidableEq ν] in
theorem AreLinks.mono {vs ws : List ν} {links : List ((ν × ν) × K)} (h : AreLinks vs links)
    (hsubset : ∀ v ∈ vs, v ∈ ws) : AreLinks ws links :=
  ⟨h.nodup, fun l hl => ⟨hsubset _ (h.ends_mem l hl).1, hsubset _ (h.ends_mem l hl).2⟩, h.nonneg⟩

omit [DecidableEq ν] in
theorem linkSum_append (chosen : ν × ν → Bool) (links more : List ((ν × ν) × K)) :
    linkSum chosen (links ++ more) = linkSum chosen links + linkSum chosen more := by
  rw [linkSum, List.map_append, List.sum_append]
  rfl

/-- Raising the capacity of a pair raises the sum once. -/
theorem linkSum_map_of_mem (chosen : ν × ν → Bool) {pair : ν × ν} (c : K)
    (hnodup : (links.map (·.1)).Nodup) (hmem : pair ∈ links.map (·.1)) :
    linkSum chosen (links.map fun l => if l.1 == pair then (l.1, l.2 + c) else l) =
      linkSum chosen links + if chosen pair then c else 0 := by
  induction links with
  | nil => cases hmem
  | cons l links ih =>
      rw [List.map_cons, List.nodup_cons] at hnodup
      have hcons : ∀ (m : (ν × ν) × K) (ms : List ((ν × ν) × K)),
          linkSum chosen (m :: ms) = (if chosen m.1 then m.2 else 0) + linkSum chosen ms :=
        fun _ _ => List.sum_cons
      rw [List.map_cons, hcons, hcons]
      rcases List.mem_cons.mp hmem with rfl | hrest
      · rw [linkSum_map_of_notMem chosen c hnodup.1]
        simp only [beq_self_eq_true, if_true]
        split <;> ring
      · have hne : ¬(l.1 == pair) = true := by
          rw [beq_iff_eq]
          rintro rfl
          exact hnodup.1 hrest
        rw [if_neg hne, ih hnodup.2 hrest, add_assoc]

theorem linkSum_addLink (chosen : ν × ν → Bool) (hnodup : (links.map (·.1)).Nodup) (a b : ν)
    (c : K) : linkSum chosen (addLink links a b c) =
      linkSum chosen links + if chosen (a, b) then c else 0 := by
  rw [addLink]
  split
  next hany =>
    apply linkSum_map_of_mem chosen c hnodup
    obtain ⟨l, hl, heq⟩ := List.any_eq_true.mp hany
    exact List.mem_map.mpr ⟨l, hl, beq_iff_eq.mp heq⟩
  next =>
    rw [linkSum, List.map_append, List.sum_append, zero_add]
    simp [linkSum]

theorem AreLinks.addLink (h : AreLinks vs links) {a b : ν} (ha : a ∈ vs) (hb : b ∈ vs) {c : K}
    (hc : 0 ≤ c) : AreLinks vs (addLink links a b c) := by
  rw [CutProblem.addLink]
  split
  next =>
    refine ⟨?_, ?_, ?_⟩
    · have hkeys : (links.map fun l => if l.1 == (a, b) then (l.1, l.2 + c) else l).map (·.1) =
          links.map (·.1) := by
        rw [List.map_map]
        apply List.map_congr_left
        intro l _
        simp only [Function.comp_apply]
        split <;> rfl
      rw [hkeys]
      exact h.nodup
    · intro m hm
      obtain ⟨l, hl, rfl⟩ := List.mem_map.mp hm
      split
      · exact h.ends_mem l hl
      · exact h.ends_mem l hl
    · intro m hm
      obtain ⟨l, hl, rfl⟩ := List.mem_map.mp hm
      split
      · exact add_nonneg (h.nonneg l hl) hc
      · exact h.nonneg l hl
  next hnone =>
    refine ⟨?_, ?_, ?_⟩
    · rw [List.map_append, List.nodup_append]
      refine ⟨h.nodup, List.nodup_singleton _, ?_⟩
      rintro key hkey other hother rfl
      obtain rfl := List.mem_singleton.mp hother
      obtain ⟨l, hl, heq⟩ := List.mem_map.mp hkey
      exact hnone (List.any_eq_true.mpr ⟨l, hl, beq_iff_eq.mpr heq⟩)
    · intro l hl
      rcases List.mem_append.mp hl with hl | hl
      · exact h.ends_mem l hl
      · obtain rfl := List.mem_singleton.mp hl
        exact ⟨ha, hb⟩
    · intro l hl
      rcases List.mem_append.mp hl with hl | hl
      · exact h.nonneg l hl
      · obtain rfl := List.mem_singleton.mp hl
        rwa [zero_add]

/-- Pairs of vertices with capacities in both directions become links. -/
theorem AreLinks.addLinks (pairs : List (ν × ν × K × K)) (h : AreLinks vs links)
    (hpairs : ∀ p ∈ pairs, (p.1 ∈ vs ∧ p.2.1 ∈ vs) ∧ 0 ≤ p.2.2.1 ∧ 0 ≤ p.2.2.2)
    (chosen : ν × ν → Bool) :
    let added := pairs.foldl (fun links (a, b, ab, ba) =>
      CutProblem.addLink (CutProblem.addLink links a b ab) b a ba) links
    AreLinks vs added ∧ linkSum chosen added = linkSum chosen links +
      (pairs.map fun p => (if chosen (p.1, p.2.1) then p.2.2.1 else 0) +
        if chosen (p.2.1, p.1) then p.2.2.2 else 0).sum := by
  induction pairs generalizing links with
  | nil => exact ⟨h, by simp⟩
  | cons p pairs ih =>
      obtain ⟨⟨ha, hb⟩, hforth, hback⟩ := hpairs p List.mem_cons_self
      have hone := h.addLink ha hb hforth
      obtain ⟨hlinks, hsum⟩ := ih (hone.addLink hb ha hback)
        fun q hq => hpairs q (List.mem_cons_of_mem _ hq)
      refine ⟨hlinks, hsum.trans ?_⟩
      rw [linkSum_addLink chosen hone.nodup, linkSum_addLink chosen h.nodup, List.map_cons,
        List.sum_cons]
      ring

end CutProblem

/-! ## Places and prices -/

namespace CutProblem

variable {ν : Type} [DecidableEq ν] {α : Type} {C : CutProblem ν α} {vs : List ν}

/-- A vertex that is listed once has its place. -/
theorem place?_eq_ok (hnodup : C.vertices.Nodup) {v : ν} (hv : v ∈ C.vertices) :
    C.place? v = .ok (C.vertices.idxOf v) := by
  have hsome : (C.vertices.reverse.findIdx? (· == v)).isSome := by
    rw [List.findIdx?_isSome, List.any_eq_true]
    exact ⟨v, List.mem_reverse.mpr hv, beq_self_eq_true v⟩
  obtain ⟨i, hi⟩ := Option.isSome_iff_exists.mp hsome
  obtain ⟨hlen, hget, -⟩ := List.findIdx?_eq_some_iff_getElem.mp hi
  rw [List.length_reverse] at hlen
  have hplace : C.vertices.length - 1 - i = C.vertices.idxOf v := by
    have hlast : C.vertices.length - 1 - i < C.vertices.length := by omega
    have hreverse : C.vertices[C.vertices.length - 1 - i] = v := by
      rw [← List.getElem_reverse (by rwa [List.length_reverse])]
      exact beq_iff_eq.mp hget
    rw [← hreverse, hnodup.idxOf_getElem]
  rw [place?, hi, ← hplace]
  rfl

theorem places?_eq_ok (hnodup : C.vertices.Nodup) (hvs : ∀ v ∈ vs, v ∈ C.vertices) :
    C.places? vs = .ok (vs.map C.vertices.idxOf) :=
  mapM_map_eq_ok fun v hv => place?_eq_ok hnodup (hvs v hv)

/-- Only listed vertices have a place. -/
theorem mem_of_place?_eq_ok {v : ν} {i : Nat} (h : C.place? v = .ok i) : v ∈ C.vertices := by
  by_contra hout
  have hnone : C.vertices.reverse.findIdx? (· == v) = none := by
    rw [List.findIdx?_eq_none_iff]
    intro w hw
    exact beq_eq_false_iff_ne.mpr fun heq => hout (heq ▸ List.mem_reverse.mp hw)
  rw [place?, hnone] at h
  cases h

theorem places?_eq_ok_iff (hnodup : C.vertices.Nodup) {vs : List ν} {places : List Nat} :
    C.places? vs = .ok places ↔
      (∀ v ∈ vs, v ∈ C.vertices) ∧ places = vs.map C.vertices.idxOf := by
  constructor
  · intro h
    have hmem : ∀ v ∈ vs, v ∈ C.vertices := by
      have hplaces := mapM_eq_ok.mp h
      clear h
      induction hplaces with
      | nil => simp
      | cons hplace _ ih => exact List.forall_mem_cons.mpr ⟨mem_of_place?_eq_ok hplace, ih⟩
    exact ⟨hmem, Except.ok.inj (h.symm.trans (places?_eq_ok hnodup hmem))⟩
  · rintro ⟨hmem, rfl⟩
    exact places?_eq_ok hnodup hmem

/-- Writing at the places of vertices leaves the last entry of each. -/
theorem getElem?_foldl_settings {β : Type} (ps : List (ν × β)) {v : ν} (hv : v ∈ C.vertices)
    {a : Array β} {old : β} (hold : a[C.vertices.idxOf v]? = some old) :
    (ps.foldl (fun a p => a.setIfInBounds (C.vertices.idxOf p.1) p.2) a)[C.vertices.idxOf v]? =
      some ((ps.reverse.lookup v).getD old) := by
  induction ps generalizing a old with
  | nil => exact hold
  | cons p ps ih =>
      have hlookup : (((p :: ps).reverse.lookup v).getD old : β) =
          (ps.reverse.lookup v).getD (if v = p.1 then p.2 else old) := by
        rw [List.reverse_cons, List.lookup_append, Option.getD_or, List.lookup_cons]
        by_cases heq : v = p.1
        · simp [heq]
        · rw [beq_eq_false_iff_ne.mpr heq, if_neg heq]
          rfl
      rw [List.foldl_cons, hlookup]
      apply ih
      rw [Array.getElem?_setIfInBounds]
      by_cases heq : v = p.1
      · have hlt : C.vertices.idxOf v < a.size := (Array.getElem?_eq_some_iff.mp hold).1
        rw [← heq, if_pos rfl, if_pos hlt, if_pos rfl]
      · have hplace : C.vertices.idxOf p.1 ≠ C.vertices.idxOf v :=
          fun h => heq ((List.idxOf_inj hv).mp h.symm)
        rw [if_neg hplace, if_neg heq, hold]

/-- The sides of listed vertices are known after a cut was found. -/
theorem sinkSideOf?_eq_ok (hnodup : C.vertices.Nodup) (side : ν → Bool)
    (hside : C.sinkSide = some (C.vertices.map side).toArray) (hvs : ∀ v ∈ vs, v ∈ C.vertices) :
    C.sinkSideOf? vs = .ok (vs.map side) := by
  have hget : ∀ v ∈ vs, (C.vertices.map side).toArray.getD (C.vertices.idxOf v) false = side v := by
    intro v hv
    have hlt : C.vertices.idxOf v < C.vertices.length := List.idxOf_lt_length_iff.mpr (hvs v hv)
    simp [hlt]
  rw [sinkSideOf?, places?_eq_ok hnodup hvs, hside]
  apply congrArg Except.ok
  rw [List.map_map]
  exact List.map_congr_left hget

/-- Wherever vertices are listed, each has one side. -/
theorem exists_side (C : CutProblem ν α) : ∃ side : ν → Bool, ∀ {vs : List ν} {sides : List Bool},
    C.sinkSideOf? vs = .ok sides → sides = vs.map side := by
  let place (v : ν) : Nat := (C.place? v).toOption.getD 0
  refine ⟨fun v => (C.sinkSide.getD #[]).getD (place v) false, ?_⟩
  intro vs sides h
  rw [sinkSideOf?, bind_eq_ok] at h
  obtain ⟨places, hplaces, h⟩ := h
  have hmap : vs.map place = places := by
    rw [places?, mapM_eq_ok] at hplaces
    have heq : List.Forall₂ Eq (vs.map place) places :=
      List.forall₂_map_left_iff.mpr (hplaces.imp fun v p hp => by simp only [place, hp]; rfl)
    rwa [List.forall₂_eq_eq_eq] at heq
  cases hsides : C.sinkSide with
  | none =>
      rw [hsides] at h
      exact (throw_ne_ok h).elim
  | some known =>
      rw [hsides] at h
      rw [← Except.ok.inj h, ← hmap, List.map_map]
      rfl

/-- Prices for all vertices replace the prices. -/
theorem setTerminals?_eq_ok [Scalar α] (hnodup : C.vertices.Nodup)
    (hsize : C.terminals.size = C.vertices.length) (price : ν → Terminal α) :
    C.setTerminals? C.vertices (C.vertices.map price).toArray =
      .ok { C with terminals := (C.vertices.map price).toArray } := by
  have hterminals : ((C.vertices.map C.vertices.idxOf).zip
      (C.vertices.map price)).foldl (fun t p => t.setIfInBounds p.1 p.2) C.terminals =
        (C.vertices.map price).toArray := by
    have hpairs : (C.vertices.map fun v => (C.vertices.idxOf v, price v)) =
        (C.vertices.map fun v => (v, price v)).map fun p => (C.vertices.idxOf p.1, p.2) := by
      rw [List.map_map]
      rfl
    rw [List.zip_map', hpairs, List.foldl_map]
    apply Array.ext_getElem?
    intro i
    by_cases hi : i < C.vertices.length
    · have hmem := List.getElem_mem hi
      have hold : C.terminals[C.vertices.idxOf C.vertices[i]]? = some C.terminals[i] := by
        rw [hnodup.idxOf_getElem i hi, Array.getElem?_eq_getElem]
      have hget := getElem?_foldl_settings (C.vertices.map fun v => (v, price v)) hmem hold
      rw [hnodup.idxOf_getElem i hi, ← List.map_reverse,
        List.lookup_graph price (List.mem_reverse.mpr hmem)] at hget
      rw [hget]
      simp [hi]
    · have hlength := (size_foldl_setIfInBounds (C.vertices.map fun v => (v, price v))
        (fun p => C.vertices.idxOf p.1) Prod.snd C.terminals).trans hsize
      rw [Array.getElem?_eq_none (hlength.le.trans (not_lt.mp hi))]
      simp [not_lt.mp hi]
  have hlength : (C.vertices.map price).toArray.size = (C.vertices.map C.vertices.idxOf).length := by
    simp
  rw [setTerminals?, places?_eq_ok hnodup fun v hv => hv, bind_eq_ok]
  refine ⟨_, rfl, ?_⟩
  rw [if_neg (fun h => h.1 hlength), stretch_of_size_eq hlength]
  apply congrArg Except.ok
  rw [List.toList_toArray, hterminals]

end CutProblem
end TotalVariation
