/-
# SDNware.Planner.Loss — what `get_paths` loses on an acyclic routing.

A solver returns numbers, not multiples of a convenient amount.  `get_paths` passes over entries within
the tolerance and stops a loop once less than the tolerance is left, and what it then has in hand stays
where it is: it is on no path.  On an acyclic routing this is the only way to lose flow, and here it is
accounted for, switch by switch:

* a loop that stops early has emptied the last link it used, and leaves less than the tolerance behind;
* a loop that comes to its end leaves every link out of its switch within the tolerance, and the excess
  of a switch is never more than its links out can carry.

So at any time the excess of a switch whose calls have ended is at most the tolerance times the number
of its links that are within the tolerance (`LossLe`), and since excesses add up to zero the paths of a
pair carry all but `1e-5` for each link of the fabric (`getPaths_loss_le`), whatever the numbers are.
-/
import SDNware.Planner.Decompose

namespace SDNware.Planner

namespace LpMluRoute

variable {K : Type} [Field K] [LinearOrder K]

/-! ## §1 — stranded flow -/

/-- The number of directed links. -/
def nLink (P : LpMluRoute K) : Nat := ∑ i ∈ Finset.range P.nNode, (P.outs i).length

/-- The neighbours of a switch to which no more flow is handed. -/
def exhausted (P : LpMluRoute K) (T : Table K) (x : Nat) : Finset Nat :=
  (Finset.range P.nNode).filter fun j => P.Link x j ∧ T x j ≤ tol

/-- The excess of a switch is at most the tolerance for each of these. -/
def LossLe (P : LpMluRoute K) (T : Table K) (x : Nat) : Prop :=
  net (Finset.range P.nNode) T x ≤ (P.exhausted T x).card * tol

/-- The loop at the switch `i`, with the neighbours `js` and the flow `f` to go.  The switches above
`i` have no call in progress. -/
structure Draining (P : LpMluRoute K) (v : Nat) (rank : Nat → Nat) (vist : Nat → Bool) (i : Nat)
    (js : List Nat) (f : K) (T : Table K) : Prop where
  table : Ascending P rank T
  node : i < P.nNode
  ne : i ≠ v
  nodes : ∀ j ∈ js, j < P.nNode
  nonneg : 0 ≤ f
  pos : js ≠ [] → 0 < f
  marks : ∀ x, vist x = true → rank x ≤ rank i
  above : ∀ x < P.nNode, x ≠ v → x ≠ i → rank i ≤ rank x → LossLe P T x
  due : net (Finset.range P.nNode) T i - f ≤ (P.exhausted T i).card * tol
  swept : (∀ j < P.nNode, j ∉ js → T i j ≤ tol) ∨ LossLe P T i

/-- The loop at `i` has ended, and the shares of its paths have arrived at `v`. -/
structure Drained (P : LpMluRoute K) (v : Nat) (rank : Nat → Nat) (i : Nat) (T : Table K)
    (paths : List (Share K)) (T' : Table K) : Prop where
  table : Ascending P rank T'
  frame : ∀ a b, rank a < rank i → T' a b = T a b
  loss : ∀ x < P.nNode, x ≠ v → rank i ≤ rank x → LossLe P T' x
  arrived : net (Finset.range P.nNode) T' v = net (Finset.range P.nNode) T v + total paths

variable {P : LpMluRoute K} {u v i j x : Nat} {vist : Nat → Bool} {js : List Nat} {f g : K}
  {rank : Nat → Nat} {T T1 T' : Table K} {paths found : List (Share K)}

theorem mem_exhausted : j ∈ P.exhausted T x ↔ P.Link x j ∧ T x j ≤ tol := by
  unfold exhausted
  rw [Finset.mem_filter, Finset.mem_range]
  exact ⟨fun h => h.2, fun h => ⟨h.1.dst_lt, h⟩⟩

theorem exhausted_congr (h : ∀ b, T' x b = T x b) : P.exhausted T' x = P.exhausted T x := by
  unfold exhausted
  simp only [h]

/-- Only the two ends of a link are concerned when an amount is taken off it. -/
theorem LossLe.taken (h : LossLe P T x) (hi : i < P.nNode) (hj : j < P.nNode) (hxi : x ≠ i)
    (hxj : x ≠ j) (g : K) : LossLe P (reduce T i j g) x := by
  have hrow : ∀ b, reduce T i j g x b = T x b := by
    intro b
    rw [reduce_apply, if_neg fun hab => hxi hab.1, sub_zero]
  unfold LossLe
  rw [net_reduce (Finset.mem_range.mpr hi) (Finset.mem_range.mpr hj), if_neg hxi, if_neg hxj,
    sub_zero, add_zero, exhausted_congr hrow]
  exact h

/-- A call changes nothing at the switches below its own. -/
theorem LossLe.below {r : Nat} (h : LossLe P T x) (hT : Ascending P rank T)
    (hT' : Ascending P rank T') (hsame : ∀ a b, rank a < r → T' a b = T a b) (hx : rank x < r) :
    LossLe P T' x := by
  unfold LossLe
  rw [net_eq_of_climb hT.rank hT'.rank hsame hx, exhausted_congr fun b => hsame x b hx]
  exact h

variable [IsStrictOrderedRing K]

/-- A switch all of whose links are within the tolerance can owe no more than they carry. -/
theorem lossLe_of_all_le (hT : Ascending P rank T) (hall : ∀ j < P.nNode, T x j ≤ tol) :
    LossLe P T x := by
  have hin : 0 ≤ ∑ a ∈ Finset.range P.nNode, T a x := Finset.sum_nonneg fun a _ => hT.nonneg a x
  have hsub : P.exhausted T x ⊆ Finset.range P.nNode := Finset.filter_subset _ _
  have hout : ∑ b ∈ Finset.range P.nNode, T x b = ∑ b ∈ P.exhausted T x, T x b := by
    symm
    apply Finset.sum_subset hsub
    intro b hb hnot
    by_contra hne
    exact hnot (mem_exhausted.mpr ⟨hT.link x b hne, hall b (Finset.mem_range.mp hb)⟩)
  have hle : ∑ b ∈ P.exhausted T x, T x b ≤ (P.exhausted T x).card * tol := by
    rw [← nsmul_eq_mul]
    exact Finset.sum_le_card_nsmul _ _ _ fun b hb => (mem_exhausted.mp hb).2
  unfold LossLe net
  linarith

/-! ## §2 — one turn of the loop -/

omit [IsStrictOrderedRing K] in
theorem Draining.flow_pos (h : Draining P v rank vist i (j :: js) f T) : 0 < f :=
  h.pos (List.cons_ne_nil _ _)

/-- The loop has ended. -/
theorem Draining.done (h : Draining P v rank vist i [] f T) : Drained P v rank i T [] T := by
  refine ⟨h.table, fun _ _ _ => rfl, fun x hx hxv hr => ?_, by rw [total_nil, add_zero]⟩
  by_cases hxi : x = i
  · rw [hxi]
    rcases h.swept with hall | hloss
    · exact lossLe_of_all_le h.table fun k hk => hall k hk (by simp)
    · exact hloss
  · exact h.above x hx hxv hxi hr

/-- A neighbour is passed over for the tolerance only: no marked switch is above the present one. -/
theorem Draining.skip (h : Draining P v rank vist i (j :: js) f T) (hnot : ¬ Usable P vist T i j) :
    Draining P v rank vist i js f T := by
  have hij : T i j ≤ tol := by
    by_contra hlt
    have hflow := not_le.mp hlt
    have hne : T i j ≠ 0 := (tol_pos.trans hflow).ne'
    have hlink := h.table.link i j hne
    apply hnot
    refine ⟨?_, hlink.ne.symm, hlink.cap_ne, hflow⟩
    by_contra hmark
    have hle := h.marks j (by simpa using hmark)
    exact absurd (h.table.rank i j hne) (not_lt.mpr hle)
  refine ⟨h.table, h.node, h.ne, fun k hk => h.nodes k (List.mem_cons_of_mem _ hk), h.nonneg,
    fun _ => h.flow_pos, h.marks, h.above, h.due, h.swept.imp_left fun hall k hk hnotin => ?_⟩
  by_cases hkj : k = j
  · rw [hkj]
    exact hij
  · exact hall k hk (by simp [hkj, hnotin])

section Use

variable (h : Draining P v rank vist i (j :: js) f T) (huse : Usable P vist T i j)

include h huse

omit [IsStrictOrderedRing K] in
theorem Draining.link : P.Link i j :=
  ⟨h.node, h.nodes j List.mem_cons_self, huse.ne.symm, huse.cap⟩

theorem Draining.climbs : rank i < rank j :=
  h.table.rank i j (tol_pos.trans huse.flow).ne'

omit [IsStrictOrderedRing K] in
theorem Draining.net_handed (x : Nat) :
    net (Finset.range P.nNode) (reduce T i j (min f (T i j))) x =
      net (Finset.range P.nNode) T x - (if x = i then min f (T i j) else 0) +
        if x = j then min f (T i j) else 0 :=
  net_reduce (Finset.mem_range.mpr h.node)
    (Finset.mem_range.mpr (h.link huse).dst_lt) T _ x

/-- What a turn does to the links out of `i` never brings one back. -/
theorem Draining.exhausted_subset (hrow : ∀ k, T1 i k = reduce T i j (min f (T i j)) i k) :
    P.exhausted T i ⊆ P.exhausted T1 i := by
  intro k hk
  obtain ⟨hlink, hle⟩ := mem_exhausted.mp hk
  refine mem_exhausted.mpr ⟨hlink, ?_⟩
  have hg := min_pos_of_usable huse h.flow_pos
  rw [hrow, reduce_apply]
  split
  · linarith
  · rwa [sub_zero]

/-- A neighbour that could not take all of the flow is exhausted by the turn. -/
theorem Draining.exhausted_lt (hrow : ∀ k, T1 i k = reduce T i j (min f (T i j)) i k)
    (hleft : 0 < f - min f (T i j)) :
    T1 i j = 0 ∧ (P.exhausted T i).card + 1 ≤ (P.exhausted T1 i).card := by
  have hg : min f (T i j) = T i j := by
    rcases min_choice f (T i j) with hmin | hmin
    · rw [hmin, sub_self] at hleft
      exact absurd hleft (lt_irrefl 0)
    · exact hmin
  have hempty : T1 i j = 0 := by rw [hrow, reduce_self, hg, sub_self]
  refine ⟨hempty, Finset.card_lt_card ?_⟩
  refine (Finset.ssubset_iff_of_subset (h.exhausted_subset huse hrow)).mpr ⟨j, ?_, fun hmem => ?_⟩
  · exact mem_exhausted.mpr ⟨h.link huse, hempty.le.trans tol_pos.le⟩
  · exact absurd huse.flow (not_lt.mpr (mem_exhausted.mp hmem).2)

/-- The loop goes on with what is left. -/
theorem Draining.rest (htable : Ascending P rank T1)
    (hrow : ∀ k, T1 i k = reduce T i j (min f (T i j)) i k)
    (hnet : net (Finset.range P.nNode) T1 i = net (Finset.range P.nNode) T i - min f (T i j))
    (habove : ∀ x < P.nNode, x ≠ v → x ≠ i → rank i ≤ rank x → LossLe P T1 x) :
    Draining P v rank vist i (remaining (f - min f (T i j)) js) (f - min f (T i j)) T1 := by
  have hleft : 0 ≤ f - min f (T i j) := sub_nonneg.mpr (min_le_left ..)
  have hg := min_pos_of_usable huse h.flow_pos
  have hcard : ((P.exhausted T i).card : K) * tol ≤ (P.exhausted T1 i).card * tol := by
    have hle := Finset.card_le_card (h.exhausted_subset huse hrow)
    exact mul_le_mul_of_nonneg_right (by exact_mod_cast hle) tol_pos.le
  have hdue := h.due
  refine ⟨htable, h.node, h.ne, forall_mem_remaining h.nodes, hleft, pos_of_remaining_ne, h.marks,
    habove, by linarith, ?_⟩
  rcases hleft.eq_or_lt with hzero | hpos
  · -- all of the flow has been handed on
    apply Or.inr
    unfold LossLe
    linarith
  obtain ⟨hempty, hlt⟩ := h.exhausted_lt huse hrow hpos
  by_cases hstop : f - min f (T i j) < tol
  · -- the rest is paid for by the link the turn has exhausted
    apply Or.inr
    have hone : ((P.exhausted T i).card + 1 : K) * tol ≤ (P.exhausted T1 i).card * tol :=
      mul_le_mul_of_nonneg_right (by exact_mod_cast hlt) tol_pos.le
    unfold LossLe
    linarith
  rcases h.swept with hall | hloss
  · apply Or.inl
    intro k hk hnotin
    by_cases hkj : k = j
    · rw [hkj, hempty]
      exact tol_pos.le
    · have hnot : k ∉ j :: js := by
        rw [remaining, if_neg hstop] at hnotin
        simp [hkj, hnotin]
      rw [hrow, reduce_apply, if_neg fun hab => hkj hab.2, sub_zero]
      exact hall k hk hnot
  · apply Or.inr
    unfold LossLe at hloss ⊢
    linarith

/-- The neighbour owes what it has been handed, besides what it owed before. -/
theorem Draining.sub (hj : j ≠ v) :
    Draining P v rank (Function.update vist j true) j (List.range P.nNode) (min f (T i j))
      (reduce T i j (min f (T i j))) := by
  have hg := min_pos_of_usable huse h.flow_pos
  have hlink := h.link huse
  have hclimb := h.climbs huse
  refine ⟨ascending_reduce h.table h.nonneg i j, hlink.dst_lt, hj, fun k hk => List.mem_range.mp hk,
    hg.le, fun _ => hg, fun x hx => ?_, fun x hx hxv hxj hr => ?_, ?_,
    Or.inl fun k hk hnot => absurd (List.mem_range.mpr hk) hnot⟩
  · by_cases hxj : x = j
    · rw [hxj]
    · rw [Function.update_of_ne hxj] at hx
      exact (h.marks x hx).trans hclimb.le
  · have hxi : x ≠ i := by
      rintro rfl
      exact absurd hr (not_le.mpr hclimb)
    exact (h.above x hx hxv hxi (hclimb.le.trans hr)).taken h.node hlink.dst_lt hxi hxj _
  · have hrow : ∀ b, reduce T i j (min f (T i j)) j b = T j b := by
      intro b
      rw [reduce_apply, if_neg fun hab => huse.ne hab.1, sub_zero]
    have hloss := h.above j hlink.dst_lt hj huse.ne hclimb.le
    rw [h.net_handed huse, if_neg huse.ne, if_pos rfl, sub_zero, add_sub_cancel_right,
      exhausted_congr hrow]
    exact hloss

end Use

/-! ## §3 — the descent -/

omit [IsStrictOrderedRing K] in
theorem Drained.arrive (h : Draining P v rank vist i (v :: js) f T) (huse : Usable P vist T i v)
    (hrest : Drained P v rank i (reduce T i v (min f (T i v))) paths T') :
    Drained P v rank i T (([i, v], min f (T i v)) :: paths) T' := by
  refine ⟨hrest.table, fun a b hab => ?_, hrest.loss, ?_⟩
  · rw [hrest.frame a b hab, reduce_apply, if_neg fun hi => hab.ne (congrArg rank hi.1), sub_zero]
  · rw [hrest.arrived, h.net_handed huse, if_neg h.ne.symm, if_pos rfl, sub_zero, total_cons]
    ring

theorem Drained.enter (h : Draining P v rank vist i (j :: js) f T) (huse : Usable P vist T i j)
    (hj : j ≠ v) (hsub : Drained P v rank j (reduce T i j (min f (T i j))) found T1)
    (hrest : Drained P v rank i T1 paths T') :
    Drained P v rank i T (prepend i found ++ paths) T' := by
  refine ⟨hrest.table, fun a b hab => ?_, hrest.loss, ?_⟩
  · rw [hrest.frame a b hab, hsub.frame a b (hab.trans (h.climbs huse)), reduce_apply,
      if_neg fun hi => hab.ne (congrArg rank hi.1), sub_zero]
  · rw [hrest.arrived, hsub.arrived, h.net_handed huse, if_neg h.ne.symm, if_neg hj.symm, sub_zero,
      add_zero, total_append, total_prepend]
    ring

/-- **The descent strands at most the tolerance for every exhausted link.** -/
theorem drained_of_decomp (h : Decomp P v vist i js f T paths T')
    (hd : Draining P v rank vist i js f T) : Drained P v rank i T paths T' := by
  induction h with
  | done vist i f T => exact hd.done
  | skip hnot rest ih => exact ih (hd.skip hnot)
  | @arrive vist i js f T T' paths huse rest ih =>
    refine Drained.arrive hd huse (ih ?_)
    refine hd.rest huse (ascending_reduce hd.table hd.nonneg i v) (fun _ => rfl) ?_ ?_
    · rw [hd.net_handed huse, if_pos rfl, if_neg hd.ne, add_zero]
    · intro x hx hxv hxi hr
      exact (hd.above x hx hxv hxi hr).taken hd.node (hd.link huse).dst_lt hxi hxv _
  | @enter vist i j js f T T1 T' below paths huse hj sub rest ihsub ih =>
    have hbelow := ihsub (hd.sub huse hj)
    have hclimb := hd.climbs huse
    have htable := ascending_reduce hd.table hd.nonneg i j
    refine Drained.enter hd huse hj hbelow (ih ?_)
    refine hd.rest huse hbelow.table (fun k => hbelow.frame i k hclimb) ?_ ?_
    · rw [net_eq_of_climb htable.rank hbelow.table.rank hbelow.frame hclimb, hd.net_handed huse,
        if_pos rfl, if_neg huse.ne.symm, add_zero]
    · -- the call has settled the switches above `j`, and left those below it alone
      intro x hx hxv hxi hr
      by_cases hxj : rank j ≤ rank x
      · exact hbelow.loss x hx hxv hxj
      · have hlt := not_le.mp hxj
        have hne : x ≠ j := by
          rintro rfl
          exact lt_irrefl _ hlt
        exact ((hd.above x hx hxv hxi hr).taken hd.node (hd.link huse).dst_lt hxi hne _).below
          htable hbelow.table hbelow.frame hlt

/-! ## §4 — the loss of a pair -/

omit [IsStrictOrderedRing K] in
theorem exhausted_card_le (P : LpMluRoute K) (T : Table K) (x : Nat) :
    (P.exhausted T x).card ≤ (P.outs x).length := by
  rw [← List.toFinset_card_of_nodup (outs_nodup (P := P) (i := x))]
  refine Finset.card_le_card fun k hk => ?_
  exact List.mem_toFinset.mpr (mem_exhausted.mp hk).1.mem_outs

/-- A switch that owes nothing. -/
theorem UnitFlow.lossLe (hflow : UnitFlow P u v T) (hx : x < P.nNode) (hxu : x ≠ u) (hxv : x ≠ v) :
    LossLe P T x := by
  unfold LossLe
  rw [hflow.conserved x hx, if_neg hxu, if_neg hxv]
  exact mul_nonneg (Nat.cast_nonneg _) tol_pos.le

/-- The first call: only `u` owes anything. -/
theorem UnitFlow.draining (hflow : UnitFlow P u v T) (hu : u < P.nNode) (huv : u ≠ v)
    (hT : Ascending P rank T) :
    Draining P v rank (fun _ => false) u (List.range P.nNode) 1 T := by
  refine ⟨hT, hu, huv, fun k hk => List.mem_range.mp hk, zero_le_one, fun _ => zero_lt_one,
    fun x hx => absurd hx (by simp), fun x hx hxv hxu _ => hflow.lossLe hx hxu hxv, ?_,
    Or.inl fun k hk hnot => absurd (List.mem_range.mpr hk) hnot⟩
  rw [hflow.conserved u hu, if_pos rfl, sub_self]
  exact mul_nonneg (Nat.cast_nonneg _) tol_pos.le

/-- After the last call no switch but `v` owes more than the tolerance for each of its links. -/
theorem UnitFlow.net_le (hflow : UnitFlow P u v T) (hT : Ascending P rank T)
    (hdrained : Drained P v rank u T paths T') (hx : x < P.nNode) (hxv : x ≠ v) :
    net (Finset.range P.nNode) T' x ≤ (P.outs x).length * tol := by
  have hloss : LossLe P T' x := by
    by_cases hr : rank u ≤ rank x
    · exact hdrained.loss x hx hxv hr
    · have hlt := not_le.mp hr
      have hxu : x ≠ u := by
        rintro rfl
        exact lt_irrefl _ hlt
      exact (hflow.lossLe hx hxu hxv).below hT hdrained.table hdrained.frame hlt
  have hcard : ((P.exhausted T' x).card : K) ≤ (P.outs x).length := by
    exact_mod_cast exhausted_card_le P T' x
  exact hloss.trans (mul_le_mul_of_nonneg_right hcard tol_pos.le)

/-- The excesses add up to zero, so what has not arrived at `v` is owed somewhere. -/
theorem UnitFlow.loss_le (hflow : UnitFlow P u v T) (hv : v < P.nNode) (huv : u ≠ v)
    (hT : Ascending P rank T) (hdrained : Drained P v rank u T paths T') :
    1 - P.nLink * tol ≤ total paths := by
  have hvmem := Finset.mem_range.mpr hv
  have hsum := sum_net_eq_zero (Finset.range P.nNode) T'
  rw [← Finset.add_sum_erase _ _ hvmem, hdrained.arrived, hflow.conserved v hv, if_neg huv.symm,
    if_pos rfl] at hsum
  have howed : ∑ x ∈ (Finset.range P.nNode).erase v, net (Finset.range P.nNode) T' x ≤
      P.nLink * tol := by
    calc ∑ x ∈ (Finset.range P.nNode).erase v, net (Finset.range P.nNode) T' x
        ≤ ∑ x ∈ (Finset.range P.nNode).erase v, ((P.outs x).length : K) * tol := by
          refine Finset.sum_le_sum fun x hx => ?_
          obtain ⟨hxv, hx⟩ := Finset.mem_erase.mp hx
          exact hflow.net_le hT hdrained (Finset.mem_range.mp hx) hxv
      _ ≤ ∑ x ∈ Finset.range P.nNode, ((P.outs x).length : K) * tol := by
          refine Finset.sum_le_sum_of_subset_of_nonneg (Finset.erase_subset _ _) fun x _ _ => ?_
          exact mul_nonneg (Nat.cast_nonneg _) tol_pos.le
      _ = P.nLink * tol := by
          rw [← Finset.sum_mul, nLink, Nat.cast_sum]
  linarith

/-- What the call returns for a pair with an acyclic unit flow. -/
theorem UnitFlow.total_ge (hflow : UnitFlow P u v T) (hu : u < P.nNode) (hv : v < P.nNode)
    (huv : u ≠ v) (hacyclic : ∀ x, ¬ Relation.TransGen (fun a b => 0 < T a b) x x)
    (h : Decomp P v (fun _ => false) u (List.range P.nNode) 1 T paths T') :
    1 - P.nLink * tol ≤ total paths := by
  have hT := hflow.ascending hacyclic
  exact hflow.loss_le hv huv hT (drained_of_decomp h (hflow.draining hu huv hT))

/-- **An acyclic routing loses at most the tolerance for each link.** For every unit flow from `u` to
`v` whose positive entries form no cycle, whatever its numbers: the call returns, and the shares of its
paths, which never add up to more than the unit, add up to all of it but `1e-5` times the number of
directed links of the fabric. -/
theorem getPaths_loss_le (hu : u < P.nNode) (hv : v < P.nNode) (huv : u ≠ v)
    (hflow : UnitFlow P u v T)
    (hacyclic : ∀ x, ¬ Relation.TransGen (fun a b => 0 < T a b) x x) :
    ∃ paths T', (∀ fuel, P.nNode < fuel →
        getPaths P v fuel u 1 (fun _ => false) T = some (paths, T')) ∧
      1 - P.nLink * tol ≤ total paths ∧ total paths ≤ 1 := by
  obtain ⟨paths, T', hret, hdecomp⟩ := getPaths_returns P v u 1 (fun _ => false) T
  have hwithin := within_of_decomp hdecomp hu (fun k hk => List.mem_range.mp hk) zero_le_one
    fun _ => zero_lt_one
  exact ⟨paths, T', hret, hflow.total_ge hu hv huv hacyclic hdecomp, hwithin.total_le⟩

/-- Half of the tolerance goes the second way. -/
def diamondSliver : Table ℚ := fun a b =>
  if [(0, 1), (1, 3)].contains (a, b) then 1 - tol / 2
  else if [(0, 2), (2, 3)].contains (a, b) then tol / 2
  else 0

theorem diamondSliver_ne {a b : Nat} (h : diamondSliver a b ≠ 0) :
    (a, b) ∈ [(0, 1), (1, 3), (0, 2), (2, 3)] := by
  unfold diamondSliver at h
  split at h
  · rename_i hmem
    exact List.mem_append_left [(0, 2), (2, 3)] (List.contains_iff_mem.mp hmem)
  · split at h
    · rename_i hmem
      exact List.mem_append_right [(0, 1), (1, 3)] (List.contains_iff_mem.mp hmem)
    · exact absurd rfl h

theorem diamondSliver_unitFlow : UnitFlow diamond 0 3 diamondSliver := by
  have hlinks : ∀ e ∈ [(0, 1), (1, 3), (0, 2), (2, 3)], diamond.Link e.1 e.2 := by decide +kernel
  refine ⟨fun a b => ?_, fun a b h => hlinks _ (diamondSliver_ne h), by decide +kernel⟩
  unfold diamondSliver tol
  split
  · norm_num
  · split
    · norm_num
    · exact le_refl 0

/-- The sliver is lost, and it is less than the eight links of the diamond may lose. -/
theorem getPaths_loss_le_diamond :
    ∃ paths T', getPaths diamond 3 5 0 1 (fun _ => false) diamondSliver = some (paths, T') ∧
      1 - diamond.nLink * tol ≤ total paths ∧ total paths ≤ 1 := by
  have hup : ∀ a b, Relation.TransGen (fun a b => 0 < diamondSliver a b) a b → a < b := by
    have hclimb : ∀ e ∈ [(0, 1), (1, 3), (0, 2), (2, 3)], e.1 < e.2 := by decide
    intro a b h
    induction h with
    | single h => exact hclimb _ (diamondSliver_ne h.ne')
    | tail _ h ih => exact ih.trans (hclimb _ (diamondSliver_ne h.ne'))
  obtain ⟨paths, T', hret, hloss⟩ := getPaths_loss_le (P := diamond) (u := 0) (v := 3) (by decide)
    (by decide) (by decide) diamondSliver_unitFlow fun x h => (hup x x h).false
  exact ⟨paths, T', hret 5 (by decide), hloss⟩

end LpMluRoute

end SDNware.Planner
