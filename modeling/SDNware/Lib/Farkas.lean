/-
# SDNware.Lib.Farkas — Farkas' lemma over a linearly ordered field, in the form linear programs use.

Two steps, both algebraic (no topology, so they hold over `ℚ` as well as over `ℝ`):

* `nonneg_combination_of_implied` — if the homogeneous inequalities `A i x ≤ 0` force `b x ≤ 0`, then
  `b` is a non-negative combination of the `A i`.  The induction is on the set of inequalities: a
  point that satisfies the old ones but violates the conclusion is used to project the new
  inequality away.
* `feasible_or_certificate` — a system `M x ≤ c, x ≥ 0` has a solution, or there are multipliers
  `y ≥ 0` with `Mᵀ y ≥ 0` and `y ⬝ c < 0`.  The right-hand side becomes one more coordinate.
-/
import Mathlib.Algebra.BigOperators.Field
import Mathlib.Data.Fintype.BigOperators
import Mathlib.Data.Fintype.Sum
import Mathlib.Algebra.Order.BigOperators.Ring.Finset
import Mathlib.Algebra.Module.LinearMap.Defs
import Mathlib.LinearAlgebra.Pi
import Mathlib.Algebra.Field.Basic
import Mathlib.GroupTheory.GroupAction.Ring
import Mathlib.Tactic.Linarith
import Mathlib.Tactic.FieldSimp
import Mathlib.Tactic.Ring

namespace Farkas

open Finset

variable {K : Type*} [Field K] [LinearOrder K] [IsStrictOrderedRing K]

section Homogeneous

variable {W : Type*} [AddCommGroup W] [Module K W] {ι : Type*} [DecidableEq ι]

omit [LinearOrder K] [IsStrictOrderedRing K] in
/-- A combination extended by one more term, its coefficient written over `U`. -/
theorem sum_insert_update {s : Finset ι} {k : ι} (hk : k ∉ s) (U F : ι → K) (c : K) :
    ∑ i ∈ insert k s, Function.update U k c i * F i = c * F k + ∑ i ∈ s, U i * F i := by
  rw [sum_insert hk, Function.update_self]
  congr 1
  refine sum_congr rfl fun i hi => ?_
  have hik : i ≠ k := by rintro rfl; exact hk hi
  rw [Function.update_of_ne hik]

omit [IsStrictOrderedRing K] in
theorem update_nonneg {U : ι → K} (hU : ∀ i, 0 ≤ U i) {c : K} (hc : 0 ≤ c) (k i : ι) :
    0 ≤ Function.update U k c i := by
  rcases eq_or_ne i k with rfl | hik
  · rw [Function.update_self]; exact hc
  · rw [Function.update_of_ne hik]; exact hU i

omit [LinearOrder K] [IsStrictOrderedRing K] in
/-- The functional `f` projected along `x₀`, for a `g` with `g x₀ = 1`: it vanishes at `x₀`. -/
def project (g : W →ₗ[K] K) (x₀ : W) (f : W →ₗ[K] K) : W →ₗ[K] K := f - f x₀ • g

omit [LinearOrder K] [IsStrictOrderedRing K] in
theorem project_apply (g : W →ₗ[K] K) (x₀ : W) (f : W →ₗ[K] K) (x : W) :
    project g x₀ f x = f x - f x₀ * g x := by
  simp only [project, LinearMap.sub_apply, LinearMap.smul_apply, smul_eq_mul]

variable {A : ι → W →ₗ[K] K} {b : W →ₗ[K] K} {s : Finset ι} {k : ι} {x₀ : W}

/-- The projected inequalities imply the projected conclusion, without the one projected away. -/
theorem project_implied (hk₀ : A k x₀ = 1)
    (himp : ∀ x, (∀ i ∈ insert k s, A i x ≤ 0) → b x ≤ 0) (x : W)
    (hx : ∀ i ∈ s, project (A k) x₀ (A i) x ≤ 0) : project (A k) x₀ b x ≤ 0 := by
  -- the point of `x + K x₀` on which the inequality projected away is tight
  have hy := himp (x - A k x • x₀) fun i hi => by
    rcases mem_insert.mp hi with rfl | hi
    · simp [hk₀]
    · have hxi := hx i hi
      rw [project_apply] at hxi
      rw [map_sub, map_smul, smul_eq_mul]
      linarith
  rw [map_sub, map_smul, smul_eq_mul] at hy
  rw [project_apply]
  linarith

/-- A combination of the projected inequalities lifts to one of all of them. -/
theorem combination_of_project (hk : k ∉ s) (hs₀ : ∀ i ∈ s, A i x₀ ≤ 0) (hb₀ : 0 ≤ b x₀)
    {U : ι → K} (hU : ∀ i, 0 ≤ U i)
    (hb : ∀ x, project (A k) x₀ b x = ∑ i ∈ s, U i * project (A k) x₀ (A i) x) :
    ∃ V : ι → K, (∀ i, 0 ≤ V i) ∧ ∀ x, b x = ∑ i ∈ insert k s, V i * A i x := by
  -- `b = Σ U i A i + (b x₀ - Σ U i A i x₀) A k`, and the last coefficient is not negative
  set c : K := b x₀ - ∑ i ∈ s, U i * A i x₀ with hc
  have hcnn : 0 ≤ c := by
    have hsum : ∑ i ∈ s, U i * A i x₀ ≤ 0 :=
      sum_nonpos fun i hi => mul_nonpos_of_nonneg_of_nonpos (hU i) (hs₀ i hi)
    rw [hc]
    linarith
  refine ⟨Function.update U k c, update_nonneg hU hcnn k, fun x => ?_⟩
  have hx := hb x
  simp only [project_apply] at hx
  have hsplit : ∑ i ∈ s, U i * (A i x - A i x₀ * A k x)
      = ∑ i ∈ s, U i * A i x - (∑ i ∈ s, U i * A i x₀) * A k x := by
    rw [sum_mul, ← sum_sub_distrib]
    exact sum_congr rfl fun i _ => by ring
  rw [hsplit] at hx
  rw [sum_insert_update hk, hc]
  linarith

/-- A point that satisfies the old inequalities but not the conclusion violates the new one, and can
be scaled to violate it by one. -/
theorem exists_violation (himp : ∀ x, (∀ i ∈ insert k s, A i x ≤ 0) → b x ≤ 0) {x₁ : W}
    (hx₁ : ∀ i ∈ s, A i x₁ ≤ 0) (hbx₁ : 0 < b x₁) :
    ∃ x₀, A k x₀ = 1 ∧ (∀ i ∈ s, A i x₀ ≤ 0) ∧ 0 ≤ b x₀ := by
  have hkpos : 0 < A k x₁ := by
    by_contra hle
    have hbx : b x₁ ≤ 0 := himp x₁ fun i hi => by
      rcases mem_insert.mp hi with rfl | hi
      · exact not_lt.mp hle
      · exact hx₁ i hi
    linarith
  have hinv : 0 < (A k x₁)⁻¹ := inv_pos.mpr hkpos
  refine ⟨(A k x₁)⁻¹ • x₁, ?_, fun i hi => ?_, ?_⟩
  · rw [map_smul, smul_eq_mul, inv_mul_cancel₀ hkpos.ne']
  · rw [map_smul, smul_eq_mul]
    exact mul_nonpos_of_nonneg_of_nonpos hinv.le (hx₁ i hi)
  · rw [map_smul, smul_eq_mul]
    exact (mul_pos hinv hbx₁).le

/-- **Farkas, homogeneous.** An implied inequality is a non-negative combination. -/
theorem nonneg_combination_of_implied (s : Finset ι) :
    ∀ (A : ι → W →ₗ[K] K) (b : W →ₗ[K] K),
      (∀ x, (∀ i ∈ s, A i x ≤ 0) → b x ≤ 0) →
      ∃ U : ι → K, (∀ i, 0 ≤ U i) ∧ ∀ x, b x = ∑ i ∈ s, U i * A i x := by
  induction s using Finset.induction_on with
  | empty =>
    intro A b himp
    refine ⟨fun _ => 0, fun _ => le_rfl, fun x => ?_⟩
    have hpos : b x ≤ 0 := himp x (by simp)
    have hneg : b (-x) ≤ 0 := himp (-x) (by simp)
    rw [map_neg] at hneg
    simp only [sum_empty]
    linarith
  | insert k s hk ih =>
    intro A b himp
    by_cases hold : ∀ x, (∀ i ∈ s, A i x ≤ 0) → b x ≤ 0
    · -- the new inequality is not needed
      obtain ⟨U, hU, hb⟩ := ih A b hold
      refine ⟨Function.update U k 0, update_nonneg hU le_rfl k, fun x => ?_⟩
      rw [sum_insert_update hk, hb x, zero_mul, zero_add]
    · -- a point that needs it: project along it
      push Not at hold
      obtain ⟨x₁, hx₁, hbx₁⟩ := hold
      obtain ⟨x₀, hk₀, hs₀, hb₀⟩ := exists_violation himp hx₁ hbx₁
      obtain ⟨U, hU, hb⟩ := ih (fun i => project (A k) x₀ (A i)) (project (A k) x₀ b)
        (project_implied hk₀ himp)
      exact combination_of_project hk hs₀ hb₀ hU hb

end Homogeneous

section Alternative

variable {I J : Type*} [Fintype I] [Fintype J] [DecidableEq I] [DecidableEq J]

/-- Row `i` of the homogenised system, `∑ⱼ M i j xⱼ - c i τ`, on points `(x, τ)`. -/
def row (M : I → J → K) (c : I → K) (i : I) : ((J → K) × K) →ₗ[K] K where
  toFun p := ∑ j, M i j * p.1 j - c i * p.2
  map_add' p q := by
    simp only [Prod.fst_add, Prod.snd_add, Pi.add_apply, mul_add, sum_add_distrib]
    ring
  map_smul' r p := by
    simp only [Prod.smul_fst, Prod.smul_snd, Pi.smul_apply, smul_eq_mul, RingHom.id_apply,
      mul_sub, mul_sum]
    congr 1
    · exact sum_congr rfl fun j _ => by ring
    · ring

/-- `- xⱼ` on points `(x, τ)`. -/
def negCoord (j : J) : ((J → K) × K) →ₗ[K] K :=
  -((LinearMap.proj j).comp (LinearMap.fst K (J → K) K))

/-- **The alternative.** `M x ≤ c` has a non-negative solution, or non-negative multipliers refute
it. -/
theorem feasible_or_certificate (M : I → J → K) (c : I → K) :
    (∃ x : J → K, (∀ j, 0 ≤ x j) ∧ ∀ i, ∑ j, M i j * x j ≤ c i) ∨
      ∃ y : I → K, (∀ i, 0 ≤ y i) ∧ (∀ j, 0 ≤ ∑ i, y i * M i j) ∧ ∑ i, y i * c i < 0 := by
  by_cases hfeas : ∃ x : J → K, (∀ j, 0 ≤ x j) ∧ ∀ i, ∑ j, M i j * x j ≤ c i
  · exact Or.inl hfeas
  refine Or.inr ?_
  -- with no solution the homogenised inequalities force `τ ≤ 0`
  let A : I ⊕ J → ((J → K) × K) →ₗ[K] K := Sum.elim (row M c) negCoord
  have himp : ∀ p, (∀ k ∈ (univ : Finset (I ⊕ J)), A k p ≤ 0) →
      LinearMap.snd K (J → K) K p ≤ 0 := by
    intro p hp
    by_contra hpos
    rw [not_le, LinearMap.snd_apply] at hpos
    refine hfeas ⟨fun j => p.2⁻¹ * p.1 j, fun j => ?_, fun i => ?_⟩
    · have hj : -(p.1 j) ≤ 0 := hp (Sum.inr j) (mem_univ _)
      exact mul_nonneg (inv_pos.mpr hpos).le (by linarith)
    · have hi : ∑ j, M i j * p.1 j - c i * p.2 ≤ 0 := hp (Sum.inl i) (mem_univ _)
      have hpull : ∑ j, M i j * (p.2⁻¹ * p.1 j) = p.2⁻¹ * ∑ j, M i j * p.1 j := by
        rw [mul_sum]
        exact sum_congr rfl fun j _ => by ring
      rw [hpull, inv_mul_le_iff₀ hpos]
      linarith
  obtain ⟨U, hU, hcomb⟩ := nonneg_combination_of_implied univ A _ himp
  have hexp : ∀ p : (J → K) × K, p.2 = ∑ i, U (Sum.inl i) * (∑ j, M i j * p.1 j - c i * p.2)
      + ∑ j, U (Sum.inr j) * -(p.1 j) := by
    intro p
    have := hcomb p
    rw [Fintype.sum_sum_type] at this
    exact this
  refine ⟨fun i => U (Sum.inl i), fun i => hU _, fun j => ?_, ?_⟩
  · -- the coefficient of `xⱼ` vanishes
    have hj := hexp (Pi.single j 1, 0)
    have hin : ∀ i, ∑ j', M i j' * (Pi.single j 1 : J → K) j' = M i j := fun i => by
      simp [Pi.single_apply]
    have hout : ∑ j', U (Sum.inr j') * -((Pi.single j 1 : J → K) j') = -U (Sum.inr j) := by
      simp [Pi.single_apply]
    simp only [hin, hout, mul_zero, sub_zero] at hj
    have := hU (Sum.inr j)
    linarith
  · -- the coefficient of `τ` is one
    have hτ := hexp (0, 1)
    simp only [Pi.zero_apply, mul_zero, sum_const_zero, mul_one, zero_sub, neg_zero,
      add_zero, mul_neg, sum_neg_distrib] at hτ
    linarith

end Alternative

end Farkas
