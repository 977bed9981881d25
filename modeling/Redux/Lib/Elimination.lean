import Mathlib.LinearAlgebra.Dimension.Constructions
import Mathlib.LinearAlgebra.Dimension.OrzechProperty
import Mathlib.LinearAlgebra.FiniteDimensional.Lemmas
import Mathlib.LinearAlgebra.Matrix.DotProduct

/-!
# Lib.Elimination — lists of vectors, each of which is taken out of those behind it

Whatever the multiples that are subtracted, the vectors stay in the subspace that they are from
(`mem_of_eliminate`) and stay independent (`Independent.eliminate`).  Vectors that are orthogonal to each other
are independent to begin with (`Independent.of_orthogonal`).  Independence is that of the images under a
linear map, such as the first coordinates.
-/

namespace Redux.Lib.Elimination

section Model

variable {K V W : Type*} [Field K] [AddCommGroup V] [Module K V] [AddCommGroup W] [Module K W]

/-- Each vector is taken out of the ones behind it, `coef v w` times. -/
def eliminate (coef : V → V → K) : List V → List V
  | [] => []
  | v :: vs => v :: eliminate coef (vs.map fun w => w - coef v w • v)
termination_by vs => vs.length

def Independent (f : V →ₗ[K] W) (vs : List V) : Prop := LinearIndependent K fun i : Fin vs.length => f (vs.get i)

end Model

section Eliminate

variable {K V W : Type*} [Field K] [AddCommGroup V] [Module K V] [AddCommGroup W] [Module K W]
  {coef : V → V → K} {f : V →ₗ[K] W} {v : V} {vs : List V}

@[simp] theorem eliminate_nil : eliminate coef ([] : List V) = [] := by rw [eliminate]

theorem eliminate_cons : eliminate coef (v :: vs) = v :: eliminate coef (vs.map fun w => w - coef v w • v) := by
  rw [eliminate]

/-- The induction on the vectors that are left. -/
theorem eliminate_induction {P : List V → List V → Prop} (nil : P [] [])
    (cons : ∀ v vs, P (vs.map fun w => w - coef v w • v) (eliminate coef (vs.map fun w => w - coef v w • v)) →
      P (v :: vs) (eliminate coef (v :: vs))) (vs : List V) : P vs (eliminate coef vs) := by
  induction hlen : vs.length generalizing vs with
  | zero =>
    obtain rfl := List.length_eq_zero_iff.1 hlen
    rw [eliminate_nil]
    exact nil
  | succ n ih =>
    obtain ⟨v, vs, rfl⟩ := List.exists_cons_of_length_eq_add_one hlen
    exact cons v vs (ih _ (by rw [List.length_map]; exact Nat.succ.inj hlen))

theorem length_eliminate (coef : V → V → K) (vs : List V) : (eliminate coef vs).length = vs.length := by
  refine eliminate_induction (P := fun vs out => out.length = vs.length) rfl (fun v vs ih => ?_) vs
  rw [eliminate_cons, List.length_cons, ih, List.length_map, List.length_cons]

/-- **The vectors stay in a subspace.** -/
theorem mem_of_eliminate {S : Submodule K V} (h : ∀ w ∈ vs, w ∈ S) : ∀ w ∈ eliminate coef vs, w ∈ S := by
  refine eliminate_induction (P := fun vs out => (∀ w ∈ vs, w ∈ S) → ∀ w ∈ out, w ∈ S) id (fun v vs ih h => ?_) vs h
  have hv := h v List.mem_cons_self
  rw [eliminate_cons]
  refine List.forall_mem_cons.2 ⟨hv, ih (List.forall_mem_map.2 fun w hw => ?_)⟩
  exact S.sub_mem (h w (List.mem_cons_of_mem _ hw)) (S.smul_mem _ hv)

/-! ## Independence -/

theorem range_get (f : V →ₗ[K] W) (vs : List V) : Set.range (fun i : Fin vs.length => f (vs.get i)) =
    f '' { w | w ∈ vs } := by
  rw [← Set.range_list_get, ← Set.range_comp]
  rfl

theorem independent_nil : Independent f [] :=
  haveI : IsEmpty (Fin ([] : List V).length) := Fin.isEmpty
  linearIndependent_empty_type

theorem independent_cons : Independent f (v :: vs) ↔
    Independent f vs ∧ f v ∉ Submodule.span K (f '' { w | w ∈ vs }) := by
  have hcons : (fun i : Fin (v :: vs).length => f ((v :: vs).get i)) =
      (Fin.cons (f v) fun i : Fin vs.length => f (vs.get i) : Fin (vs.length + 1) → W) := by
    funext i
    refine Fin.cases rfl (fun i => rfl) i
  rw [Independent, hcons, linearIndependent_finCons, range_get]
  rfl

/-- What the first vector is taken out of spans the same with it. -/
theorem span_map (c : V → K) (v : V) (vs : List V) :
    Submodule.span K (f '' { w | w ∈ v :: vs.map fun w => w - c w • v }) =
      Submodule.span K (f '' { w | w ∈ v :: vs }) := by
  apply le_antisymm
  · rw [Submodule.span_le]
    rintro _ ⟨w, hw, rfl⟩
    have hv : f v ∈ Submodule.span K (f '' { w | w ∈ v :: vs }) :=
      Submodule.subset_span ⟨v, List.mem_cons_self, rfl⟩
    rcases List.mem_cons.1 hw with rfl | hw
    · exact hv
    · obtain ⟨u, hu, rfl⟩ := List.mem_map.1 hw
      rw [map_sub, map_smul]
      exact Submodule.sub_mem _ (Submodule.subset_span ⟨u, List.mem_cons_of_mem _ hu, rfl⟩) (Submodule.smul_mem _ _ hv)
  · rw [Submodule.span_le]
    rintro _ ⟨w, hw, rfl⟩
    have hv : f v ∈ Submodule.span K (f '' { w | w ∈ v :: vs.map fun w => w - c w • v }) :=
      Submodule.subset_span ⟨v, List.mem_cons_self, rfl⟩
    rcases List.mem_cons.1 hw with rfl | hw
    · exact hv
    · have hsplit : f w = f (w - c w • v) + c w • f v := by
        rw [map_sub, map_smul, sub_add_cancel]
      rw [SetLike.mem_coe, hsplit]
      refine Submodule.add_mem _ (Submodule.subset_span ⟨_, List.mem_cons_of_mem _ ?_, rfl⟩) (Submodule.smul_mem _ _ hv)
      exact List.mem_map_of_mem hw

theorem span_eliminate (coef : V → V → K) (vs : List V) :
    Submodule.span K (f '' { w | w ∈ eliminate coef vs }) = Submodule.span K (f '' { w | w ∈ vs }) := by
  refine eliminate_induction (P := fun vs out => Submodule.span K (f '' { w | w ∈ out }) =
    Submodule.span K (f '' { w | w ∈ vs })) rfl (fun v vs ih => ?_) vs
  have hcons : ∀ us : List V, Submodule.span K (f '' { w | w ∈ v :: us }) =
      Submodule.span K {f v} ⊔ Submodule.span K (f '' { w | w ∈ us }) := by
    intro us
    rw [← Submodule.span_union, Set.singleton_union, ← Set.image_insert_eq]
    congr 2
    ext w
    exact List.mem_cons
  rw [← span_map (coef v), eliminate_cons, hcons, hcons, ih]

theorem independent_iff : Independent f vs ↔ vs.length = Module.finrank K (Submodule.span K (f '' { w | w ∈ vs })) := by
  rw [Independent, linearIndependent_iff_card_eq_finrank_span, Fintype.card_fin, Set.finrank, range_get]

/-- **Independent vectors stay independent**: as many vectors span the same. -/
theorem Independent.eliminate (h : Independent f vs) : Independent f (eliminate coef vs) := by
  rw [independent_iff] at h ⊢
  rw [length_eliminate, span_eliminate]
  exact h

end Eliminate

section Orthogonal

variable {K V ι : Type*} [Field K] [LinearOrder K] [IsStrictOrderedRing K] [AddCommGroup V] [Module K V] [Fintype ι]
  {f : V →ₗ[K] ι → K} {vs : List V}

/-- **Vectors that are orthogonal to each other are independent.** -/
theorem Independent.of_orthogonal (hne : ∀ v ∈ vs, f v ≠ 0) (h : vs.Pairwise fun v w => f v ⬝ᵥ f w = 0) :
    Independent f vs := by
  induction vs with
  | nil => exact independent_nil
  | cons v vs ih =>
    obtain ⟨hv, hrest⟩ := List.pairwise_cons.1 h
    refine independent_cons.2 ⟨ih (fun w hw => hne w (List.mem_cons_of_mem _ hw)) hrest, fun hspan => ?_⟩
    have hzero : ∀ u ∈ Submodule.span K (f '' { w | w ∈ vs }), f v ⬝ᵥ u = 0 := by
      intro u hu
      induction hu using Submodule.span_induction with
      | mem u hu =>
        obtain ⟨w, hw, rfl⟩ := hu
        exact hv w hw
      | zero => exact dotProduct_zero _
      | add u u' _ _ hu hu' => rw [dotProduct_add, hu, hu', add_zero]
      | smul c u _ hu => rw [dotProduct_smul, hu, smul_zero]
    exact hne v List.mem_cons_self (dotProduct_self_eq_zero.1 (hzero _ hspan))

end Orthogonal

end Redux.Lib.Elimination
