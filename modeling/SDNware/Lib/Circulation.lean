/-
# SDNware.Lib.Circulation — walks as flows, and flows without cycles.

A walk carries a unit from its first node to its last (`exists_walkFlow`); a flow with excess at a node
and none owed but at another leads from the one to the other (`reach_of_net_pos`).  A closed walk has no
excess anywhere, so it can be taken off a flow until one of its arcs is empty: below every flow there is
one with the same excesses and no cycle (`exists_acyclic_le`).
-/
import Mathlib.Data.Finset.Max
import Mathlib.Tactic.Ring
import SDNware.Lib.Flow

variable {ι K : Type} [Field K] [LinearOrder K] [IsStrictOrderedRing K] [DecidableEq ι]
  {r : ι → ι → Prop} {s : Finset ι} {a b : ι} {T : ι → ι → K}

/-! ## Walks -/

/-- A unit goes from `a` to `b` along the arcs of `r`, or nowhere if `a` is `b`. -/
structure WalkFlow (r : ι → ι → Prop) (s : Finset ι) (a b : ι) (c : ι → ι → K) : Prop where
  nonneg : ∀ p q, 0 ≤ c p q
  along : ∀ p q, c p q ≠ 0 → r p q
  excess : ∀ x, net s c x = (if x = a then 1 else 0) - if x = b then 1 else 0

omit [IsStrictOrderedRing K] in
theorem walkFlow_nil (r : ι → ι → Prop) (s : Finset ι) (a : ι) :
    WalkFlow r s a a (fun _ _ => (0 : K)) := by
  refine ⟨fun _ _ => le_refl 0, fun _ _ h => absurd rfl h, fun x => ?_⟩
  rw [sub_self]
  simp [net]

/-- One more arc. -/
theorem WalkFlow.snoc {c : ι → ι → K} (h : WalkFlow r s a b c) {d : ι} (hbd : r b d) (hb : b ∈ s)
    (hd : d ∈ s) : WalkFlow r s a d (reduce c b d (-1)) := by
  refine ⟨fun p q => ?_, fun p q hne => ?_, fun x => ?_⟩
  · have hc := h.nonneg p q
    rw [reduce_apply]
    split
    · linarith
    · linarith
  · by_cases harc : p = b ∧ q = d
    · rw [harc.1, harc.2]
      exact hbd
    · rw [reduce_apply, if_neg harc, sub_zero] at hne
      exact h.along p q hne
  · rw [net_reduce hb hd, h.excess]
    split_ifs <;> ring

/-- **A walk carries a unit from its first node to its last**, over at least one arc. -/
theorem exists_walkFlow (hs : ∀ p q, r p q → p ∈ s ∧ q ∈ s) (h : Relation.TransGen r a b) :
    ∃ c : ι → ι → K, WalkFlow r s a b c ∧ ∃ p q, 0 < c p q := by
  have hmoves : ∀ {c : ι → ι → K} {b d : ι}, WalkFlow r s a b c → 0 < reduce c b d (-1) b d := by
    intro c b d hc
    have hnonneg := hc.nonneg b d
    rw [reduce_self]
    linarith
  induction h with
  | @single b hab =>
    have hnil : WalkFlow r s a a (fun _ _ => (0 : K)) := walkFlow_nil r s a
    exact ⟨_, hnil.snoc hab (hs a b hab).1 (hs a b hab).2, a, b, hmoves hnil⟩
  | @tail b d _ hbd ih =>
    obtain ⟨c, hc, -⟩ := ih
    exact ⟨_, hc.snoc hbd (hs b d hbd).1 (hs b d hbd).2, b, d, hmoves hc⟩

omit [DecidableEq ι] in
/-- **Flow leads somewhere.** What leaves `u` along arcs of `r` can only be owed at a node that is
reached from `u`. -/
theorem reach_of_net_pos {u v : ι} (hnonneg : ∀ p q, 0 ≤ T p q)
    (halong : ∀ p q, T p q ≠ 0 → r p q) (hu : u ∈ s) (hpos : 0 < net s T u)
    (hnet : ∀ x ∈ s, x ≠ v → 0 ≤ net s T x) : Relation.ReflTransGen r u v := by
  classical
  by_contra hnot
  let S := s.filter fun x => Relation.ReflTransGen r u x
  have hsub : S ⊆ s := Finset.filter_subset _ _
  have huS : u ∈ S := Finset.mem_filter.mpr ⟨hu, .refl⟩
  have hsum : 0 < ∑ x ∈ S, net s T x := by
    refine Finset.sum_pos' (fun x hx => ?_) ⟨u, huS, hpos⟩
    obtain ⟨hxs, hreach⟩ := Finset.mem_filter.mp hx
    refine hnet x hxs ?_
    rintro rfl
    exact hnot hreach
  -- nothing leaves the nodes that are reached
  have hout : ∀ x ∈ S, ∑ q ∈ s, T x q = ∑ q ∈ S, T x q := by
    intro x hx
    symm
    apply Finset.sum_subset hsub
    intro q hq hqS
    by_contra hne
    exact hqS (Finset.mem_filter.mpr ⟨hq, (Finset.mem_filter.mp hx).2.tail (halong x q hne)⟩)
  have hin : ∀ x ∈ S, ∑ p ∈ S, T p x ≤ ∑ p ∈ s, T p x := fun x _ =>
    Finset.sum_le_sum_of_subset_of_nonneg hsub fun p _ _ => hnonneg p x
  have hle : ∑ x ∈ S, net s T x ≤ 0 := by
    unfold net
    rw [Finset.sum_sub_distrib, Finset.sum_congr rfl hout, Finset.sum_comm, sub_nonpos]
    exact Finset.sum_le_sum hin
  exact absurd hsum (not_lt.mpr hle)

/-! ## Cancelling cycles -/

/-- The arcs a flow uses. -/
def usedArcs (s : Finset ι) (T : ι → ι → K) : Finset (ι × ι) := (s ×ˢ s).filter fun e => T e.1 e.2 ≠ 0

omit [LinearOrder K] [IsStrictOrderedRing K] [DecidableEq ι] in
theorem net_sub_smul (s : Finset ι) (T c : ι → ι → K) (ε : K) (x : ι) :
    net s (fun p q => T p q - ε * c p q) x = net s T x - ε * net s c x := by
  unfold net
  rw [Finset.sum_sub_distrib, Finset.sum_sub_distrib, ← Finset.mul_sum, ← Finset.mul_sum]
  ring

/-- A closed walk is taken off until one of its arcs is empty. -/
theorem exists_cancel (hnonneg : ∀ p q, 0 ≤ T p q) (hsupp : ∀ p q, T p q ≠ 0 → p ∈ s ∧ q ∈ s)
    (hcycle : Relation.TransGen (fun p q => 0 < T p q) a a) :
    ∃ T' : ι → ι → K, (∀ p q, 0 ≤ T' p q ∧ T' p q ≤ T p q) ∧ (∀ x, net s T' x = net s T x) ∧
      (usedArcs s T').card < (usedArcs s T).card := by
  obtain ⟨c, hc, p₀, q₀, hpos⟩ := exists_walkFlow (K := K) (s := s)
    (fun p q h => hsupp p q h.ne') hcycle
  have hmem : ∀ p q, c p q ≠ 0 → (p, q) ∈ usedArcs s T := fun p q hne =>
    Finset.mem_filter.mpr ⟨Finset.mem_product.mpr (hsupp p q (hc.along p q hne).ne'),
      (hc.along p q hne).ne'⟩
  let E := (usedArcs s T).filter fun e => c e.1 e.2 ≠ 0
  have hE : E.Nonempty := ⟨(p₀, q₀), Finset.mem_filter.mpr ⟨hmem p₀ q₀ hpos.ne', hpos.ne'⟩⟩
  -- the arc of the walk that is empty first
  obtain ⟨e, he, hmin⟩ := Finset.exists_min_image E (fun e => T e.1 e.2 / c e.1 e.2) hE
  have hce : c e.1 e.2 ≠ 0 := (Finset.mem_filter.mp he).2
  let ε := T e.1 e.2 / c e.1 e.2
  have hε : 0 ≤ ε := div_nonneg (hnonneg e.1 e.2) (hc.nonneg e.1 e.2)
  have htake : ∀ p q, ε * c p q ≤ T p q := by
    intro p q
    by_cases hpq : c p q = 0
    · rw [hpq, mul_zero]
      exact hnonneg p q
    · have hle := hmin (p, q) (Finset.mem_filter.mpr ⟨hmem p q hpq, hpq⟩)
      exact (le_div_iff₀ (lt_of_le_of_ne (hc.nonneg p q) (Ne.symm hpq))).mp hle
  have hless : ∀ p q, T p q - ε * c p q ≤ T p q := fun p q =>
    sub_le_self _ (mul_nonneg hε (hc.nonneg p q))
  refine ⟨fun p q => T p q - ε * c p q, fun p q => ⟨sub_nonneg.mpr (htake p q), hless p q⟩,
    fun x => ?_, Finset.card_lt_card ?_⟩
  · rw [net_sub_smul, hc.excess, sub_self, mul_zero, sub_zero]
  · refine (Finset.ssubset_iff_of_subset fun f hf => ?_).mpr
      ⟨e, (Finset.mem_filter.mp he).1, fun hmem' => ?_⟩
    · obtain ⟨hfs, hne⟩ := Finset.mem_filter.mp hf
      refine Finset.mem_filter.mpr ⟨hfs, fun h0 => hne ?_⟩
      have hzero := htake f.1 f.2
      rw [h0] at hzero
      show T f.1 f.2 - ε * c f.1 f.2 = 0
      rw [h0, zero_sub, neg_eq_zero]
      exact le_antisymm hzero (mul_nonneg hε (hc.nonneg f.1 f.2))
    · refine (Finset.mem_filter.mp hmem').2 ?_
      show T e.1 e.2 - T e.1 e.2 / c e.1 e.2 * c e.1 e.2 = 0
      rw [div_mul_cancel₀ _ hce, sub_self]

/-- **Below every flow there is one with the same excesses and no cycle.** -/
theorem exists_acyclic_le (hnonneg : ∀ p q, 0 ≤ T p q)
    (hsupp : ∀ p q, T p q ≠ 0 → p ∈ s ∧ q ∈ s) :
    ∃ T' : ι → ι → K, (∀ p q, 0 ≤ T' p q ∧ T' p q ≤ T p q) ∧ (∀ x, net s T' x = net s T x) ∧
      ∀ x, ¬ Relation.TransGen (fun p q => 0 < T' p q) x x := by
  induction hcard : (usedArcs s T).card using Nat.strong_induction_on generalizing T with
  | _ n ih =>
    by_cases hacyclic : ∀ x, ¬ Relation.TransGen (fun p q => 0 < T p q) x x
    · exact ⟨T, fun p q => ⟨hnonneg p q, le_refl _⟩, fun _ => rfl, hacyclic⟩
    · push Not at hacyclic
      obtain ⟨x, hx⟩ := hacyclic
      obtain ⟨T₁, hT₁, hnet₁, hlt⟩ := exists_cancel hnonneg hsupp hx
      have hsupp₁ : ∀ p q, T₁ p q ≠ 0 → p ∈ s ∧ q ∈ s := by
        intro p q hne
        apply hsupp
        have hpos := lt_of_le_of_ne (hT₁ p q).1 hne.symm
        exact (hpos.trans_le (hT₁ p q).2).ne'
      obtain ⟨T', hT', hnet, hfree⟩ :=
        ih _ (hcard ▸ hlt) (fun p q => (hT₁ p q).1) hsupp₁ rfl
      exact ⟨T', fun p q => ⟨(hT' p q).1, (hT' p q).2.trans (hT₁ p q).2⟩,
        fun x => (hnet x).trans (hnet₁ x), hfree⟩
