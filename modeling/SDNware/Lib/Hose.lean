/-
# SDNware.Lib.Hose — the hose polytope of traffic matrices and its LP dual.

A hose model bounds what every node sends and receives in total and leaves the matrix open: `T ≥ 0`,
no self-traffic, row and column sums at most `b`.  For weights `g u v` (how much of the demand
`u → v` crosses one link, say) the largest `∑ T u v · g u v` over the polytope is bounded by
`∑ b u (lam u + eta u)` for any `lam, eta ≥ 0` with `lam u + eta v ≥ g u v` off the diagonal
(`load_le_of_potentials`), and the bound is attained in the sense that every valid bound has such
potentials (`exists_potentials`).  The second half is where Farkas' lemma enters: the multipliers of
an infeasible system of potentials form, up to scale, a hose matrix that breaks the bound.
-/
import SDNware.Lib.Farkas

namespace Hose

open Finset

variable {K : Type*} [Field K]
variable {N : Type*} [Fintype N] [DecidableEq N]

/-- A traffic matrix inside the hoses `b`. -/
structure Matrix [LinearOrder K] (b : N → K) (T : N → N → K) : Prop where
  nonneg : ∀ u v, 0 ≤ T u v
  diag : ∀ u, T u u = 0
  out_le : ∀ u, ∑ v, T u v ≤ b u
  in_le : ∀ v, ∑ u, T u v ≤ b v

/-- Node potentials that cover the weights off the diagonal. -/
structure Potentials [LinearOrder K] (g : N → N → K) (lam eta : N → K) : Prop where
  lam_nonneg : ∀ u, 0 ≤ lam u
  eta_nonneg : ∀ u, 0 ≤ eta u
  cover : ∀ u v, u ≠ v → g u v ≤ lam u + eta v

/-- **Weak duality.** -/
theorem load_le_of_potentials [LinearOrder K] [IsStrictOrderedRing K] {b : N → K} {T g : N → N → K} {lam eta : N → K}
    (hT : Matrix b T) (hp : Potentials g lam eta) :
    ∑ u, ∑ v, T u v * g u v ≤ ∑ u, b u * (lam u + eta u) := by
  have hcell : ∀ u v, T u v * g u v ≤ T u v * lam u + T u v * eta v := by
    intro u v
    by_cases huv : u = v
    · subst huv
      simp [hT.diag u]
    · rw [← mul_add]
      exact mul_le_mul_of_nonneg_left (hp.cover u v huv) (hT.nonneg u v)
  have hrows : ∑ u, ∑ v, T u v * lam u ≤ ∑ u, b u * lam u :=
    sum_le_sum fun u _ => by
      rw [← sum_mul]
      exact mul_le_mul_of_nonneg_right (hT.out_le u) (hp.lam_nonneg u)
  have hcols : ∑ u, ∑ v, T u v * eta v ≤ ∑ v, b v * eta v := by
    rw [sum_comm]
    exact sum_le_sum fun v _ => by
      rw [← sum_mul]
      exact mul_le_mul_of_nonneg_right (hT.in_le v) (hp.eta_nonneg v)
  calc ∑ u, ∑ v, T u v * g u v
      ≤ ∑ u, ∑ v, (T u v * lam u + T u v * eta v) :=
        sum_le_sum fun u _ => sum_le_sum fun v _ => hcell u v
    _ = ∑ u, ∑ v, T u v * lam u + ∑ u, ∑ v, T u v * eta v := by simp only [sum_add_distrib]
    _ ≤ ∑ u, b u * lam u + ∑ v, b v * eta v := add_le_add hrows hcols
    _ = ∑ u, b u * (lam u + eta u) := by simp only [mul_add, sum_add_distrib]

/-! ## Strong duality -/

/-- Coefficients of the potential system: one covering row for each ordered pair (void on the
diagonal) and the budget row. -/
def coeff (b : N → K) : (N × N) ⊕ Unit → N ⊕ N → K
  | .inl (u, v), .inl w => if u ≠ v ∧ w = u then -1 else 0
  | .inl (u, v), .inr w => if u ≠ v ∧ w = v then -1 else 0
  | .inr _, .inl w => b w
  | .inr _, .inr w => b w

/-- Right-hand sides of the potential system for the budget `C`. -/
def rhs (g : N → N → K) (C : K) : (N × N) ⊕ Unit → K
  | .inl (u, v) => if u ≠ v then -g u v else 0
  | .inr _ => C

theorem sum_coeff_cover (b : N → K) (u v : N) (huv : u ≠ v) (x : N ⊕ N → K) :
    ∑ j, coeff b (.inl (u, v)) j * x j = -x (.inl u) - x (.inr v) := by
  simp [Fintype.sum_sum_type, coeff, huv, ite_mul]
  ring

theorem sum_coeff_budget (b : N → K) (x : N ⊕ N → K) :
    ∑ j, coeff b (.inr ()) j * x j = ∑ u, b u * (x (.inl u) + x (.inr u)) := by
  simp [Fintype.sum_sum_type, coeff, mul_add, sum_add_distrib]

/-- The off-diagonal multipliers of the covering rows. -/
def cells (y : (N × N) ⊕ Unit → K) (u v : N) : K := if u ≠ v then y (.inl (u, v)) else 0

theorem sum_mul_coeff_out (b : N → K) (y : (N × N) ⊕ Unit → K) (w : N) :
    ∑ i, y i * coeff b i (.inl w) = y (.inr ()) * b w - ∑ v, cells y w v := by
  rw [Fintype.sum_sum_type, Fintype.sum_prod_type]
  have hrow : ∀ u, ∑ v, y (.inl (u, v)) * coeff b (.inl (u, v)) (.inl w)
      = if u = w then -∑ v, cells y w v else 0 := by
    intro u
    by_cases huw : u = w
    · subst huw
      rw [if_pos rfl, ← sum_neg_distrib]
      refine sum_congr rfl fun v _ => ?_
      by_cases huv : u = v <;> simp [coeff, cells, huv]
    · rw [if_neg huw]
      refine sum_eq_zero fun v _ => ?_
      simp [coeff, Ne.symm huw]
  simp only [hrow, sum_ite_eq', mem_univ, if_true, univ_unique, sum_singleton]
  rw [coeff]
  ring

theorem sum_mul_coeff_in (b : N → K) (y : (N × N) ⊕ Unit → K) (w : N) :
    ∑ i, y i * coeff b i (.inr w) = y (.inr ()) * b w - ∑ u, cells y u w := by
  rw [Fintype.sum_sum_type, Fintype.sum_prod_type, sum_comm]
  have hcol : ∀ v, ∑ u, y (.inl (u, v)) * coeff b (.inl (u, v)) (.inr w)
      = if v = w then -∑ u, cells y u w else 0 := by
    intro v
    by_cases hvw : v = w
    · subst hvw
      rw [if_pos rfl, ← sum_neg_distrib]
      refine sum_congr rfl fun u _ => ?_
      by_cases huv : u = v <;> simp [coeff, cells, huv]
    · rw [if_neg hvw]
      refine sum_eq_zero fun u _ => ?_
      simp [coeff, Ne.symm hvw]
  simp only [hcol, sum_ite_eq', mem_univ, if_true, univ_unique, sum_singleton]
  rw [coeff]
  ring

theorem sum_mul_rhs (g : N → N → K) (C : K) (y : (N × N) ⊕ Unit → K) :
    ∑ i, y i * rhs g C i = y (.inr ()) * C - ∑ u, ∑ v, cells y u v * g u v := by
  rw [Fintype.sum_sum_type, Fintype.sum_prod_type]
  have hcell : ∀ u v, y (.inl (u, v)) * rhs g C (.inl (u, v)) = -(cells y u v * g u v) := by
    intro u v
    by_cases huv : u = v <;> simp [rhs, cells, huv]
  simp only [hcell, sum_neg_distrib, univ_unique, sum_singleton]
  rw [rhs]
  ring

/-- **Strong duality.** A bound on the load of every hose matrix comes from potentials. -/
theorem exists_potentials [LinearOrder K] [IsStrictOrderedRing K] {b : N → K} (g : N → N → K) (C : K)
    (hbound : ∀ T, Matrix b T → ∑ u, ∑ v, T u v * g u v ≤ C) :
    ∃ lam eta, Potentials g lam eta ∧ ∑ u, b u * (lam u + eta u) ≤ C := by
  rcases Farkas.feasible_or_certificate (coeff b) (rhs g C) with ⟨x, hx, hrow⟩ | ⟨y, hy, hcol, hneg⟩
  · refine ⟨fun u => x (.inl u), fun u => x (.inr u), ⟨fun u => hx _, fun u => hx _, ?_⟩, ?_⟩
    · intro u v huv
      have h := hrow (.inl (u, v))
      rw [sum_coeff_cover b u v huv, rhs, if_pos huv] at h
      linarith
    · have h := hrow (.inr ())
      rwa [sum_coeff_budget] at h
  · exfalso
    set σ := y (.inr ()) with hσ
    have hσ0 : 0 ≤ σ := hy _
    have hcells : ∀ u v, 0 ≤ cells y u v := fun u v => by
      unfold cells; split
      · exact hy _
      · exact le_rfl
    have hout : ∀ u, ∑ v, cells y u v ≤ σ * b u := fun u => by
      have h := hcol (.inl u)
      rw [sum_mul_coeff_out] at h
      linarith
    have hin : ∀ v, ∑ u, cells y u v ≤ σ * b v := fun v => by
      have h := hcol (.inr v)
      rw [sum_mul_coeff_in] at h
      linarith
    rw [sum_mul_rhs] at hneg
    rcases hσ0.eq_or_lt with hzero | hpos
    · -- no budget multiplier: every cell vanishes and the certificate reads `0 < 0`
      have hall : ∀ u v, cells y u v = 0 := fun u v => by
        have hle := (single_le_sum (fun v _ => hcells u v) (mem_univ v)).trans (hout u)
        rw [← hzero, zero_mul] at hle
        exact le_antisymm hle (hcells u v)
      rw [← hσ, ← hzero] at hneg
      simp [hall] at hneg
    · -- scaled by `σ` the multipliers are a hose matrix above the bound
      have hscaled : Matrix b fun u v => σ⁻¹ * cells y u v := by
        refine ⟨fun u v => mul_nonneg (inv_pos.mpr hpos).le (hcells u v), fun u => by simp [cells],
          fun u => ?_, fun v => ?_⟩
        · rw [← mul_sum, inv_mul_le_iff₀ hpos]
          exact hout u
        · rw [← mul_sum, inv_mul_le_iff₀ hpos]
          exact hin v
      have hload := hbound _ hscaled
      have hpull : ∑ u, ∑ v, σ⁻¹ * cells y u v * g u v = σ⁻¹ * ∑ u, ∑ v, cells y u v * g u v := by
        simp only [mul_sum, mul_assoc]
      rw [hpull, inv_mul_le_iff₀ hpos] at hload
      linarith

end Hose
