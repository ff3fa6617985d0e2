import Mathlib
import TotalVariation.Proofs.Quadratic.Expansion

/-! # Renamings

Two arrays hold the same values in another order if one is the other with its places renamed. Sums,
tests and extreme values do not depend on the order.
-/

namespace TotalVariation

/-- The permutation maps the numbers below `n` to each other. -/
def Preserves (π : Equiv.Perm ℕ) (n : ℕ) : Prop := ∀ v, π v < n ↔ v < n

/-- The second array is the first with its places renamed. -/
def Renames {β : Type} (π : Equiv.Perm ℕ) (a a' : Array β) : Prop := ∀ v, a'[π v]? = a[v]?

/-- A pair, turned around on request. -/
def orient {β : Type} (flipped : Bool) (p : β × β) : β × β := if flipped then p.swap else p

/-- Turned around or not, a pair has the same two members. -/
theorem eq_or_eq_of_orient {β : Type} {a b c d : β} {flipped : Bool}
    (h : (a, b) = orient flipped (c, d)) : (a = c ∧ b = d) ∨ (a = d ∧ b = c) := by
  unfold orient at h
  split at h
  next => exact .inr (Prod.mk.inj h)
  next => exact .inl (Prod.mk.inj h)

namespace Preserves

variable {π : Equiv.Perm ℕ} {n : ℕ}

theorem refl (n : ℕ) : Preserves (Equiv.refl ℕ) n := fun _ => Iff.rfl

theorem symm (h : Preserves π n) : Preserves π.symm n := fun v => by
  rw [← h, Equiv.apply_symm_apply]

/-- Every number below `n` is the name of one. -/
theorem exists_eq (h : Preserves π n) {v : ℕ} (hv : v < n) : ∃ u < n, π u = v :=
  ⟨π.symm v, (h.symm v).mpr hv, π.apply_symm_apply v⟩

/-- A sum does not depend on the names of its summands. -/
theorem sum_range {M : Type} [AddCommMonoid M] (h : Preserves π n) {f f' : ℕ → M}
    (hf : ∀ v < n, f' (π v) = f v) :
    ∑ v ∈ Finset.range n, f' v = ∑ v ∈ Finset.range n, f v :=
  (Finset.sum_equiv π (fun v => by rw [Finset.mem_range, Finset.mem_range, h])
    fun v hv => (hf v (Finset.mem_range.mp hv)).symm).symm

/-- The numbers below `n` in the order of their names. -/
theorem map_range_perm (h : Preserves π n) : ((List.range n).map π).Perm (List.range n) := by
  refine (List.perm_ext_iff_of_nodup (List.nodup_range.map π.injective) List.nodup_range).mpr ?_
  intro v
  rw [List.mem_map, List.mem_range]
  constructor
  · rintro ⟨u, hu, rfl⟩
    exact (h u).mpr (List.mem_range.mp hu)
  · exact fun hv => ⟨π.symm v, List.mem_range.mpr ((h.symm v).mpr hv), π.apply_symm_apply v⟩

/-- A map of the numbers below `n` to each other that identifies none is a renaming. -/
theorem exists_perm {f : ℕ → ℕ} (hmaps : ∀ v < n, f v < n)
    (hinj : ∀ u < n, ∀ v < n, f u = f v → u = v) :
    ∃ π : Equiv.Perm ℕ, Preserves π n ∧ ∀ v < n, π v = f v := by
  let g : Fin n → Fin n := fun v => ⟨f v, hmaps v v.isLt⟩
  have hg : Function.Bijective g := Finite.injective_iff_bijective.mp fun u v huv =>
    Fin.ext (hinj u u.isLt v v.isLt (congrArg Fin.val huv))
  refine ⟨Equiv.Perm.extendDomain (Equiv.ofBijective g hg) Fin.equivSubtype, ?_, ?_⟩
  · intro v
    by_cases hv : v < n
    · rw [Equiv.Perm.extendDomain_apply_subtype (b := v) _ _ hv]
      exact iff_of_true (g (Fin.equivSubtype.symm ⟨v, hv⟩)).isLt hv
    · rw [Equiv.Perm.extendDomain_apply_not_subtype (b := v) _ _ hv]
  · intro v hv
    rw [Equiv.Perm.extendDomain_apply_subtype (b := v) _ _ hv]
    rfl

end Preserves

namespace Renames

variable {β γ : Type} {π : Equiv.Perm ℕ} {a a' : Array β}

theorem refl (a : Array β) : Renames (Equiv.refl ℕ) a a := fun _ => rfl

theorem option_refl (a : Option (Array β)) : Option.Rel (Renames (Equiv.refl ℕ)) a a := by
  cases a with
  | none => exact .none
  | some a => exact .some (refl a)

theorem lt_iff (h : Renames π a a') (v : ℕ) : π v < a'.size ↔ v < a.size := by
  have hv := h v
  by_cases hlt : v < a.size
  · rw [Array.getElem?_eq_getElem hlt, Array.getElem?_eq_some_iff] at hv
    exact iff_of_true hv.1 hlt
  · rw [Array.getElem?_eq_none (not_lt.mp hlt), Array.getElem?_eq_none_iff] at hv
    exact iff_of_false (not_lt.mpr hv) hlt

theorem size_eq (h : Renames π a a') : a'.size = a.size := by
  have hcard : (Finset.range a.size).card = (Finset.range a'.size).card :=
    Finset.card_equiv π fun v => by rw [Finset.mem_range, Finset.mem_range, h.lt_iff]
  rw [Finset.card_range, Finset.card_range] at hcard
  exact hcard.symm

theorem preserves (h : Renames π a a') : Preserves π a.size := fun v => by
  rw [← h.lt_iff v, h.size_eq]

theorem getD_eq (h : Renames π a a') (v : ℕ) (default : β) :
    a'.getD (π v) default = a.getD v default := by
  rw [Array.getD_eq_getD_getElem?, Array.getD_eq_getD_getElem?, h]

theorem eq_of_refl (h : Renames (Equiv.refl ℕ) a a') : a' = a := by
  refine Array.ext h.size_eq fun i hi' hi => ?_
  have hget := h i
  rw [Equiv.refl_apply, Array.getElem?_eq_getElem hi', Array.getElem?_eq_getElem hi] at hget
  exact Option.some.inj hget

theorem tabulate {n : ℕ} (hπ : Preserves π n) {f f' : ℕ → β} (h : ∀ v < n, f' (π v) = f v) :
    Renames π (Vec.tabulate n f) (Vec.tabulate n f') := by
  intro v
  by_cases hv : v < n
  · have hv' : π v < n := (hπ v).mpr hv
    simp [Vec.tabulate, hv, hv', h v hv]
  · have hv' : ¬π v < n := fun hlt => hv ((hπ v).mp hlt)
    simp [Vec.tabulate, hv, hv']

theorem map (h : Renames π a a') (f : β → γ) : Renames π (a.map f) (a'.map f) := fun v => by
  rw [Array.getElem?_map, Array.getElem?_map, h]

theorem replicate {n : ℕ} (hπ : Preserves π n) (b : β) :
    Renames π (Array.replicate n b) (Array.replicate n b) := fun v => by
  simp only [Array.getElem?_replicate, hπ v]

/-- The values are the same, each as often. -/
theorem toList_perm (h : Renames π a a') : a'.toList.Perm a.toList := by
  have hlist : ∀ b : Array β, b.toList.map some = (List.range b.size).map fun v => b[v]? := by
    intro b
    refine List.ext_getElem (by simp) fun i hi hi' => ?_
    have hib : i < b.size := by simpa using hi
    simp [hib]
  refine (List.map_perm_map_iff (Option.some_injective β)).mp ?_
  rw [hlist a', hlist a, h.size_eq]
  have hvalues : (List.range a.size).map (fun v => a[v]?) =
      ((List.range a.size).map π).map fun v => a'[v]? := by
    rw [List.map_map]
    exact List.map_congr_left fun v _ => (h v).symm
  rw [hvalues]
  exact (h.preserves.map_range_perm.map _).symm

theorem any_eq (h : Renames π a a') (test : β → Bool) : a'.any test = a.any test := by
  rw [← Array.any_toList, ← Array.any_toList]
  exact h.toList_perm.any_eq

/-- Combining the values in an order that does not matter. -/
theorem foldl_eq (h : Renames π a a') {f : γ → β → γ} (hf : ∀ c b b', f (f c b) b' = f (f c b') b)
    (c : γ) : a'.foldl f c = a.foldl f c := by
  rw [← Array.foldl_toList, ← Array.foldl_toList]
  exact h.toList_perm.foldl_eq' (fun _ _ _ _ _ => hf _ _ _) c

end Renames

variable {K : Type} [ExactField K] {π : Equiv.Perm ℕ} {x x' : Vec K}

namespace Renames

theorem entry_eq (h : Renames π x x') (v : ℕ) : Vec.entry x' (π v) = Vec.entry x v := h.getD_eq v 0

/-- A vector that has the entries of another under their new names. -/
theorem of_entry {n : ℕ} (hπ : Preserves π n) (hx : x.size = n) (hx' : x'.size = n)
    (h : ∀ v < n, Vec.entry x' (π v) = Vec.entry x v) : Renames π x x' := by
  intro v
  by_cases hv : v < n
  · have hentry := h v hv
    have hlt : v < x.size := hx ▸ hv
    have hlt' : π v < x'.size := hx' ▸ (hπ v).mpr hv
    rw [Array.getElem?_eq_getElem hlt, Array.getElem?_eq_getElem hlt']
    simpa [Vec.entry, hlt, hlt'] using hentry
  · have hout : x.size ≤ v := hx ▸ not_lt.mp hv
    have hout' : x'.size ≤ π v := hx' ▸ not_lt.mp fun hlt => hv ((hπ v).mp hlt)
    rw [Array.getElem?_eq_none hout, Array.getElem?_eq_none hout']

theorem sum_eq (h : Renames π x x') : Vec.sum x' = Vec.sum x := by
  rw [Vec.sum, Vec.sum, Vec.total_eq, Vec.total_eq, h.size_eq]
  exact h.preserves.sum_range fun v _ => h.entry_eq v

theorem dot_eq {y y' : Vec K} (h : Renames π x x') (hy : Renames π y y') :
    Vec.dot x' y' = Vec.dot x y := by
  rw [Vec.dot_eq, Vec.dot_eq, h.size_eq]
  exact h.preserves.sum_range fun v _ => by rw [h.entry_eq, hy.entry_eq]

theorem norm_eq (h : Renames π x x') : Vec.norm x' = Vec.norm x := by
  rw [Vec.norm, Vec.norm, h.dot_eq h]

end Renames

/-- The largest entry is an entry that no other exceeds. -/
theorem Vec.largest?_eq_some {c : K} :
    Vec.largest? x = some c ↔ c ∈ x.toList ∧ ∀ b ∈ x.toList, b ≤ c := by
  have hfold : ∀ (l : List K) (b : K), (l.foldl Scalar.max b = b ∨ l.foldl Scalar.max b ∈ l) ∧
      b ≤ l.foldl Scalar.max b ∧ ∀ d ∈ l, d ≤ l.foldl Scalar.max b := by
    intro l
    induction l with
    | nil => simp
    | cons d l ih =>
        intro b
        obtain ⟨hmem, hle, hall⟩ := ih (Scalar.max b d)
        rw [List.foldl_cons]
        generalize l.foldl Scalar.max (Scalar.max b d) = top at *
        rw [Scalar.max_eq] at hmem hle
        obtain ⟨hb, hd⟩ := max_le_iff.mp hle
        refine ⟨?_, hb, fun f hf => ?_⟩
        · rw [List.mem_cons]
          rcases hmem with htop | hmem
          · exact (max_choice b d).imp htop.trans fun h => .inl (htop.trans h)
          · exact .inr (.inr hmem)
        · rcases List.mem_cons.mp hf with rfl | hf
          · exact hd
          · exact hall f hf
  unfold Vec.largest?
  split
  next hempty =>
    rw [Array.eq_empty_of_size_eq_zero hempty]
    simp
  next hne =>
    have hpos : 0 < x.size := Nat.pos_of_ne_zero hne
    have hfirst : Vec.entry x 0 ∈ x.toList := by
      simp [Vec.entry, hpos]
    rw [← Array.foldl_toList]
    obtain ⟨hmem, -, hall⟩ := hfold x.toList (Vec.entry x 0)
    generalize x.toList.foldl Scalar.max (Vec.entry x 0) = top at *
    have htop : top ∈ x.toList := hmem.elim (fun h => h ▸ hfirst) id
    constructor
    · intro h
      exact Option.some.inj h ▸ ⟨htop, hall⟩
    · rintro ⟨hc, hle⟩
      exact congrArg some (le_antisymm (hle top htop) (hall c hc))

theorem Renames.largest?_eq (h : Renames π x x') : Vec.largest? x' = Vec.largest? x := by
  ext c
  rw [Vec.largest?_eq_some, Vec.largest?_eq_some, h.toList_perm.mem_iff]
  simp only [h.toList_perm.mem_iff]

end TotalVariation
