import Mathlib
import TotalVariation.Graph.Components

/-! # Labels of connected components

Two vertices carry one label exactly if a chain of links joins them.
-/

namespace TotalVariation.Components

/-- A chain of links, taken in either direction, joins two vertices. -/
abbrev Linked (links : List (Nat × Nat)) : Nat → Nat → Prop :=
  Relation.EqvGen fun u v => (u, v) ∈ links

/-- Without links only a vertex itself is joined to it. -/
theorem linked_nil_iff {u v : Nat} : Linked [] u v ↔ u = v := by
  refine ⟨fun h => ?_, fun h => h ▸ .refl _⟩
  induction h with
  | rel a b hab => exact absurd hab List.not_mem_nil
  | refl => rfl
  | symm _ _ _ ih => exact ih.symm
  | trans _ _ _ _ _ hab hbc => exact hab.trans hbc

/-- A chain of links between places of a range stays in it. -/
theorem Linked.lt_iff {n : Nat} {links : List (Nat × Nat)}
    (hlinks : ∀ link ∈ links, link.1 < n ∧ link.2 < n) {u v : Nat} (h : Linked links u v) :
    u < n ↔ v < n := by
  induction h with
  | rel a b hab => exact iff_of_true (hlinks _ hab).1 (hlinks _ hab).2
  | refl => exact Iff.rfl
  | symm _ _ _ ih => exact ih.symm
  | trans _ _ _ _ _ hab hbc => exact hab.trans hbc

theorem labelOf_range {n v : Nat} (h : v < n) : labelOf (Array.range n) v = v := by
  simp [labelOf, h]

/-- After a join the class of the second vertex carries the label of the first. -/
theorem labelOf_join {l : Array Nat} {w : Nat} (u v : Nat) (hw : w < l.size) :
    labelOf (join l u v) w = if labelOf l w = labelOf l v then labelOf l u else labelOf l w := by
  unfold join
  by_cases heq : labelOf l u = labelOf l v
  · simp only [heq, if_true]
    split
    next h => exact h
    next => rfl
  · have hget : labelOf l w = l[w] := by simp [labelOf, hw]
    simp only [heq, if_false]
    rw [hget]
    simp [labelOf, hw]

theorem labelOf_join_eq_of_eq {l : Array Nat} {w w' : Nat} (u v : Nat) (hw : w < l.size)
    (hw' : w' < l.size) (h : labelOf l w = labelOf l w') :
    labelOf (join l u v) w = labelOf (join l u v) w' := by
  rw [labelOf_join u v hw, labelOf_join u v hw', h]

theorem labelOf_join_ends {l : Array Nat} {u v : Nat} (hu : u < l.size) (hv : v < l.size) :
    labelOf (join l u v) u = labelOf (join l u v) v := by
  rw [labelOf_join u v hu, labelOf_join u v hv]
  split <;> simp

/-- Joining keeps within any equivalence that the labels stay in and that relates the two
vertices. -/
theorem rel_of_labelOf_join_eq {R : Nat → Nat → Prop} (hR : Equivalence R) {l : Array Nat}
    (hl : ∀ w w', w < l.size → w' < l.size → labelOf l w = labelOf l w' → R w w')
    {u v : Nat} (hu : u < l.size) (hv : v < l.size) (huv : R u v) {w w' : Nat} (hw : w < l.size)
    (hw' : w' < l.size) (h : labelOf (join l u v) w = labelOf (join l u v) w') : R w w' := by
  rw [labelOf_join u v hw, labelOf_join u v hw'] at h
  split at h
  next hwv =>
    have hRw : R w v := hl w v hw hv hwv
    split at h
    next hwv' => exact hR.trans hRw (hR.symm (hl w' v hw' hv hwv'))
    next => exact hR.trans hRw (hR.trans (hR.symm huv) (hl u w' hu hw' h))
  next =>
    split at h
    next hwv' =>
      exact hR.trans (hl w u hw hu h) (hR.trans huv (hR.symm (hl w' v hw' hv hwv')))
    next => exact hl w w' hw hw' h

/-- Joining along a list of links keeps equal labels equal. -/
theorem foldl_join_eq_of_eq (links : List (Nat × Nat)) {l : Array Nat} {w w' : Nat}
    (hw : w < l.size) (hw' : w' < l.size) (h : labelOf l w = labelOf l w') :
    labelOf (links.foldl (fun l link => join l link.1 link.2) l) w =
      labelOf (links.foldl (fun l link => join l link.1 link.2) l) w' := by
  induction links generalizing l with
  | nil => exact h
  | cons link rest ih =>
      exact ih (by simpa using hw) (by simpa using hw') (labelOf_join_eq_of_eq _ _ hw hw' h)

theorem foldl_join_ends {links : List (Nat × Nat)} {l : Array Nat}
    (hlinks : ∀ link ∈ links, link.1 < l.size ∧ link.2 < l.size) {link : Nat × Nat}
    (hmem : link ∈ links) :
    labelOf (links.foldl (fun l link => join l link.1 link.2) l) link.1 =
      labelOf (links.foldl (fun l link => join l link.1 link.2) l) link.2 := by
  induction links generalizing l with
  | nil => simp at hmem
  | cons head tail ih =>
      have hhead := hlinks head List.mem_cons_self
      rcases List.mem_cons.mp hmem with rfl | htail
      · exact foldl_join_eq_of_eq tail (by simpa using hhead.1) (by simpa using hhead.2)
          (labelOf_join_ends hhead.1 hhead.2)
      · exact ih (fun e he => by simpa using hlinks e (List.mem_cons_of_mem _ he)) htail

theorem rel_of_foldl_join_eq {R : Nat → Nat → Prop} (hR : Equivalence R)
    {links : List (Nat × Nat)} {l : Array Nat}
    (hl : ∀ w w', w < l.size → w' < l.size → labelOf l w = labelOf l w' → R w w')
    (hlinks : ∀ link ∈ links, link.1 < l.size ∧ link.2 < l.size ∧ R link.1 link.2) {w w' : Nat}
    (hw : w < l.size) (hw' : w' < l.size)
    (h : labelOf (links.foldl (fun l link => join l link.1 link.2) l) w =
      labelOf (links.foldl (fun l link => join l link.1 link.2) l) w') : R w w' := by
  induction links generalizing l with
  | nil => exact hl w w' hw hw' h
  | cons head tail ih =>
      obtain ⟨hu, hv, huv⟩ := hlinks head List.mem_cons_self
      refine ih ?_ ?_ (by simpa using hw) (by simpa using hw') h
      · intro a b ha hb hab
        exact rel_of_labelOf_join_eq hR hl hu hv huv (by simpa using ha) (by simpa using hb) hab
      · intro link hmem
        simpa using hlinks link (List.mem_cons_of_mem _ hmem)

/-- Two vertices carry one label exactly if a chain of links joins them. -/
theorem labelOf_labels_eq_iff {n : Nat} {links : List (Nat × Nat)}
    (hlinks : ∀ link ∈ links, link.1 < n ∧ link.2 < n) {u v : Nat} (hu : u < n) (hv : v < n) :
    labelOf (labels n links) u = labelOf (labels n links) v ↔ Linked links u v := by
  constructor
  · -- At first all labels differ, and joining never leaves the equivalence of the links.
    intro h
    refine rel_of_foldl_join_eq (l := Array.range n) (Relation.EqvGen.is_equivalence _) ?_ ?_
      (by simpa using hu) (by simpa using hv) h
    · intro w w' hw hw' hww
      rw [labelOf_range (by simpa using hw), labelOf_range (by simpa using hw')] at hww
      exact hww ▸ Relation.EqvGen.refl w
    · intro link hmem
      have hlt := hlinks link hmem
      exact ⟨by simpa using hlt.1, by simpa using hlt.2, Relation.EqvGen.rel _ _ hmem⟩
  · intro h
    clear hu hv
    induction h with
    | rel a b hab => exact foldl_join_ends (by simpa using hlinks) hab
    | refl => rfl
    | symm a b _ ih => exact ih.symm
    | trans a b c _ _ ihab ihbc => exact ihab.trans ihbc

end TotalVariation.Components
