/-
# SDNware.Planner.Decompose — `get_paths` on acyclic routings.

A unit flow from `u` to `v` whose positive entries form no cycle, with entries that are multiples of
some amount above the tolerance, is taken apart completely.  Inside the descent the table is no flow
any more: every switch on the way down owes what it has been handed and not yet passed on.  So the
induction is over tables with an excess (`Pending`), and a call that is given no more than the excess
of its switch passes on exactly that much (`Passed`), because

* a marked switch has no larger rank than the present one, and arcs climb the rank: no mark is in the
  way, and no call changes an arc out of a switch below it;
* amounts are multiples of `δ`: an entry or a remainder within the tolerance is zero;
* a loop that comes to its end with flow left would have emptied every arc out of its switch, against
  its excess.

What is left in the end has no excess and no cycle, so it is zero.
-/
import Mathlib.Algebra.Group.Subgroup.ZPowers.Basic
import SDNware.Planner.Paths

namespace SDNware.Planner

namespace LpMluRoute

variable {K : Type} [Field K] [LinearOrder K]

/-! ## §1 — unit flows -/

/-- A unit of flow from `u` to `v` over the links: what the conservation rows ask of the table of a
pair. -/
structure UnitFlow (P : LpMluRoute K) (u v : Nat) (T : Table K) : Prop where
  nonneg : ∀ a b, 0 ≤ T a b
  link : ∀ a b, T a b ≠ 0 → P.Link a b
  conserved : ∀ x < P.nNode,
    net (Finset.range P.nNode) T x = if x = u then 1 else if x = v then -1 else 0

instance (P : LpMluRoute K) (i j : Nat) : Decidable (P.Link i j) :=
  decidable_of_iff (i < P.nNode ∧ j < P.nNode ∧ i ≠ j ∧ P.capacity i j ≠ 0)
    ⟨fun ⟨h1, h2, h3, h4⟩ => ⟨h1, h2, h3, h4⟩, fun h => ⟨h.src_lt, h.dst_lt, h.ne, h.cap_ne⟩⟩

/-- `routing[u][v]` as read from the solution: there is an entry for every link. -/
def routing (P : LpMluRoute K) (a : Var → K) (u v : Nat) : Table K :=
  fun i j => if P.Link i j then a (.f u v i j) else 0

section Rows

variable {P : LpMluRoute K} {u v i j : Nat} {rows : List (Row K)} {a : Var → K}

/-- A construction that does not raise has found every link in both directions. -/
theorem Link.back (hrows : P.getRouting = .ok rows) (hu : u ∈ P.hosts) (hv : v ∈ P.peers u)
    (h : P.Link i j) : P.Link j i := by
  have hkeys := getRouting_returns_iff_keys.mp ⟨rows, hrows⟩ u hu v hv i h.src_lt j h.mem_outs
  obtain ⟨_, -, _, -, j', hj', i', hi', heq⟩ := mem_fVars.mp hkeys.back
  obtain ⟨-, -, rfl, rfl⟩ := Var.f.inj heq
  obtain ⟨hi, hne, hcap⟩ := LpMluRoute.mem_outs.mp hi'
  exact ⟨hj', hi, hne, hcap⟩

theorem outs_nodup : (P.outs i).Nodup := List.nodup_range.filter _

/-- Links in both directions: the conservation expression is the excess. -/
theorem net_routing_eq (hback : ∀ i j, P.Link i j → P.Link j i) (hi : i < P.nNode) :
    net (Finset.range P.nNode) (P.routing a u v) i =
      ((P.outs i).map fun j => a (.f u v i j) - a (.f u v j i)).sum := by
  have houts : (P.outs i).toFinset = (Finset.range P.nNode).filter fun j => P.Link i j := by
    ext j
    rw [List.mem_toFinset, mem_outs, Finset.mem_filter, Finset.mem_range]
    exact ⟨fun ⟨hj, hne, hcap⟩ => ⟨hj, hi, hj, hne, hcap⟩,
      fun ⟨hj, h⟩ => ⟨hj, h.ne, h.cap_ne⟩⟩
  have hcell : ∀ j, P.routing a u v i j - P.routing a u v j i =
      if P.Link i j then a (.f u v i j) - a (.f u v j i) else 0 := by
    intro j
    unfold routing
    by_cases h : P.Link i j
    · rw [if_pos h, if_pos h, if_pos (hback i j h)]
    · rw [if_neg h, if_neg h, if_neg fun h' => h (hback j i h'), sub_zero]
  unfold net
  rw [← List.sum_toFinset _ outs_nodup, houts, Finset.sum_filter, ← Finset.sum_sub_distrib]
  exact Finset.sum_congr rfl fun j _ => hcell j

/-- **A feasible routing gives every pair a unit flow.** -/
theorem unitFlow_of_feasible [IsStrictOrderedRing K] (hrows : P.getRouting = .ok rows)
    (ha : P.Feasible rows a) (hu : u ∈ P.hosts) (hv : v ∈ P.peers u) :
    UnitFlow P u v (P.routing a u v) where
  nonneg i j := by
    unfold routing
    split
    · rename_i h
      have hmem : Var.f u v i j ∈ P.fVars :=
        mem_fVars.mpr ⟨u, hu, v, hv, i, h.src_lt, j, h.mem_outs, rfl⟩
      exact ha.lower _ (by simp [vars, hmem])
    · exact le_refl 0
  link i j hne := by
    by_contra h
    exact hne (if_neg h)
  conserved i hi := by
    rw [net_routing_eq (fun _ _ h => h.back hrows hu hv) hi]
    have hmem := (getRouting_ok hrows _).mpr (Or.inl ⟨u, hu, v, hv, i, hi, Or.inr rfl⟩)
    exact (conservationRow_holds_iff a u v i).mp (ha.rows _ hmem)

end Rows

/-! ## §2 — the descent with an excess -/

variable {P : LpMluRoute K} {u v i j : Nat} {vist : Nat → Bool} {js : List Nat} {f g δ : K}
  {rank : Nat → Nat} {T T1 T' : Table K} {paths : List (Share K)}

/-- The table of an acyclic routing inside the descent: its entries are on links that climb the
rank. -/
structure Ascending (P : LpMluRoute K) (rank : Nat → Nat) (T : Table K) : Prop where
  nonneg : ∀ a b, 0 ≤ T a b
  link : ∀ a b, T a b ≠ 0 → P.Link a b
  rank : ∀ a b, T a b ≠ 0 → rank a < rank b

/-- The same with multiples of `δ` for its entries. -/
structure Climbing (P : LpMluRoute K) (δ : K) (rank : Nat → Nat) (T : Table K) : Prop
    extends Ascending P rank T where
  multiple : ∀ a b, T a b ∈ AddSubgroup.zmultiples δ

/-- The loop at the switch `i`, with the neighbours `js` and the flow `f` to go. -/
structure Pending (P : LpMluRoute K) (v : Nat) (δ : K) (rank : Nat → Nat) (vist : Nat → Bool)
    (i : Nat) (js : List Nat) (f : K) (T : Table K) : Prop where
  table : Climbing P δ rank T
  node : i < P.nNode
  ne : i ≠ v
  nodes : ∀ j ∈ js, j < P.nNode
  nonneg : 0 ≤ f
  multiple : f ∈ AddSubgroup.zmultiples δ
  pos : js ≠ [] → 0 < f
  marks : ∀ x, vist x = true → rank x ≤ rank i
  excess : ∀ x < P.nNode, x ≠ v → 0 ≤ net (Finset.range P.nNode) T x
  enough : f ≤ net (Finset.range P.nNode) T i
  emptied : f ≠ 0 → ∀ j < P.nNode, j ∉ js → T i j = 0

/-- The flow `g` has been brought from `i` to `v`. -/
structure Passed (P : LpMluRoute K) (v : Nat) (δ : K) (rank : Nat → Nat) (i : Nat) (g : K)
    (T T' : Table K) : Prop where
  table : Climbing P δ rank T'
  excess : ∀ x < P.nNode, net (Finset.range P.nNode) T' x =
    net (Finset.range P.nNode) T x - (if x = i then g else 0) + if x = v then g else 0
  frame : ∀ a b, rank a < rank i → T' a b = T a b

/-- The part of the flow a neighbour gets is a multiple of `δ` too. -/
theorem Climbing.min_mem (hT : Climbing P δ rank T) (hf : f ∈ AddSubgroup.zmultiples δ) (i j : Nat) :
    min f (T i j) ∈ AddSubgroup.zmultiples δ := by
  rcases min_choice f (T i j) with h | h
  · rw [h]
    exact hf
  · rw [h]
    exact hT.multiple i j

theorem Passed.trans {g' : K} {T2 : Table K} (h : Passed P v δ rank i g T T1)
    (h' : Passed P v δ rank i g' T1 T2) : Passed P v δ rank i (g + g') T T2 := by
  refine ⟨h'.table, fun x hx => ?_, fun a b hab => (h'.frame a b hab).trans (h.frame a b hab)⟩
  rw [h'.excess x hx, h.excess x hx]
  split_ifs <;> ring

theorem Pending.flow_pos (h : Pending P v δ rank vist i (j :: js) f T) : 0 < f :=
  h.pos (List.cons_ne_nil _ _)

theorem Pending.net_handed (h : Pending P v δ rank vist i (j :: js) f T) (x : Nat) :
    net (Finset.range P.nNode) (reduce T i j (min f (T i j))) x =
      net (Finset.range P.nNode) T x - (if x = i then min f (T i j) else 0) +
        if x = j then min f (T i j) else 0 :=
  net_reduce (Finset.mem_range.mpr h.node)
    (Finset.mem_range.mpr (h.nodes j List.mem_cons_self)) T _ x

variable [IsStrictOrderedRing K]

/-- A non-negative multiple of `δ` below `δ` is zero. -/
theorem eq_zero_of_multiple {x : K} (hx : x ∈ AddSubgroup.zmultiples δ) (h0 : 0 ≤ x)
    (hlt : x < δ) : x = 0 := by
  obtain ⟨k, rfl⟩ := AddSubgroup.mem_zmultiples_iff.mp hx
  have hδ : 0 < δ := h0.trans_lt hlt
  rw [zsmul_eq_mul] at h0 hlt ⊢
  have hk0 : (0 : K) ≤ k := nonneg_of_mul_nonneg_left h0 hδ
  have hk1 : (k : K) < 1 := by
    have hlt' : (k : K) * δ < 1 * δ := by rwa [one_mul]
    exact lt_of_mul_lt_mul_right hlt' hδ.le
  have hk : k = 0 := by
    have h0' : 0 ≤ k := by exact_mod_cast hk0
    have h1' : k < 1 := by exact_mod_cast hk1
    omega
  rw [hk, Int.cast_zero, zero_mul]

theorem ascending_reduce (hT : Ascending P rank T) (hf : 0 ≤ f) (i j : Nat) :
    Ascending P rank (reduce T i j (min f (T i j))) := by
  have hsupp : ∀ a b, reduce T i j (min f (T i j)) a b ≠ 0 → T a b ≠ 0 := by
    intro a b hne h0
    apply hne
    rw [reduce_apply, h0]
    split
    · rename_i hab
      obtain ⟨rfl, rfl⟩ := hab
      rw [h0, min_eq_right hf, sub_zero]
    · rw [sub_zero]
  exact ⟨fun a b => reduce_min_nonneg T i j f (hT.nonneg a b),
    fun a b hne => hT.link a b (hsupp a b hne), fun a b hne => hT.rank a b (hsupp a b hne)⟩

theorem climbing_reduce (hT : Climbing P δ rank T) (hf : f ∈ AddSubgroup.zmultiples δ) (hf0 : 0 ≤ f)
    (i j : Nat) : Climbing P δ rank (reduce T i j (min f (T i j))) := by
  refine ⟨ascending_reduce hT.toAscending hf0 i j, fun a b => ?_⟩
  rw [reduce_apply]
  refine sub_mem (hT.multiple a b) ?_
  split
  · exact hT.min_mem hf i j
  · exact zero_mem _

/-- A loop that comes to its end has nothing left. -/
theorem Pending.eq_zero (h : Pending P v δ rank vist i [] f T) : f = 0 := by
  by_contra hne
  have hout : ∑ b ∈ Finset.range P.nNode, T i b = 0 :=
    Finset.sum_eq_zero fun b hb => h.emptied hne b (Finset.mem_range.mp hb) (by simp)
  have hin : 0 ≤ ∑ a ∈ Finset.range P.nNode, T a i := Finset.sum_nonneg fun a _ => h.table.nonneg a i
  have henough := h.enough
  unfold net at henough
  have hpos : 0 < f := lt_of_le_of_ne h.nonneg (Ne.symm hne)
  linarith

section Cons

variable (hδ : tol < δ) (h : Pending P v δ rank vist i (j :: js) f T)

include hδ h

/-- Only an empty arc is passed over. -/
theorem Pending.skip (hnot : ¬ Usable P vist T i j) : Pending P v δ rank vist i js f T := by
  have hij : T i j = 0 := by
    by_contra hne
    apply hnot
    have hlink := h.table.link i j hne
    refine ⟨?_, hlink.ne.symm, hlink.cap_ne, ?_⟩
    · by_contra hmark
      have hle := h.marks j (by simpa using hmark)
      exact absurd (h.table.rank i j hne) (not_lt.mpr hle)
    · by_contra hle
      exact hne (eq_zero_of_multiple (h.table.multiple i j) (h.table.nonneg i j)
        ((not_lt.mp hle).trans_lt hδ))
  refine ⟨h.table, h.node, h.ne, fun k hk => h.nodes k (List.mem_cons_of_mem _ hk), h.nonneg,
    h.multiple, fun _ => h.flow_pos, h.marks, h.excess, h.enough, ?_⟩
  intro hf k hk hnotin
  by_cases hkj : k = j
  · rw [hkj]
    exact hij
  · exact h.emptied hf k hk (by simp [hkj, hnotin])

/-- The loop goes on with what is left, once the neighbour's part has been brought to `v`. -/
theorem Pending.rest (hpassed : Passed P v δ rank i (min f (T i j)) T T1)
    (hrow : ∀ k, T1 i k = reduce T i j (min f (T i j)) i k) :
    Pending P v δ rank vist i (remaining (f - min f (T i j)) js) (f - min f (T i j)) T1 := by
  have hleft : 0 ≤ f - min f (T i j) := sub_nonneg.mpr (min_le_left ..)
  have hmul : f - min f (T i j) ∈ AddSubgroup.zmultiples δ :=
    sub_mem h.multiple (h.table.min_mem h.multiple i j)
  have hnet : net (Finset.range P.nNode) T1 i = net (Finset.range P.nNode) T i - min f (T i j) := by
    rw [hpassed.excess i h.node, if_pos rfl, if_neg h.ne, add_zero]
  have henough : f - min f (T i j) ≤ net (Finset.range P.nNode) T1 i := by
    rw [hnet]
    exact sub_le_sub_right h.enough _
  refine ⟨hpassed.table, h.node, h.ne,
    forall_mem_remaining h.nodes, hleft, hmul, pos_of_remaining_ne, h.marks, fun x hx hxv => ?_, henough, ?_⟩
  · by_cases hxi : x = i
    · rw [hxi]
      exact hleft.trans henough
    · rw [hpassed.excess x hx, if_neg hxi, if_neg hxv, sub_zero, add_zero]
      exact h.excess x hx hxv
  · -- flow is left only if the neighbour's arc has been emptied
    intro hne k hk hnotin
    have hgo : remaining (f - min f (T i j)) js = js := by
      refine if_neg fun hlt => hne ?_
      exact eq_zero_of_multiple hmul hleft (hlt.trans hδ)
    have hg : min f (T i j) = T i j := by
      rcases min_choice f (T i j) with hmin | hmin
      · exact absurd (by rw [hmin, sub_self]) hne
      · exact hmin
    rw [hgo] at hnotin
    rw [hrow, reduce_apply]
    by_cases hkj : k = j
    · rw [hkj, if_pos ⟨rfl, rfl⟩, hg, sub_self]
    · rw [if_neg fun hab => hkj hab.2, sub_zero]
      exact h.emptied h.flow_pos.ne' k hk (by simp [hkj, hnotin])

end Cons

section Use

variable (h : Pending P v δ rank vist i (j :: js) f T) (huse : Usable P vist T i j)

include h huse

theorem Pending.climbs : rank i < rank j :=
  h.table.rank i j (tol_pos.trans huse.flow).ne'

/-- The neighbour owes what it has been handed. -/
theorem Pending.sub (hj : j ≠ v) :
    Pending P v δ rank (Function.update vist j true) j (List.range P.nNode) (min f (T i j))
      (reduce T i j (min f (T i j))) := by
  have hg := min_pos_of_usable huse h.flow_pos
  have hjn := h.nodes j List.mem_cons_self
  refine ⟨climbing_reduce h.table h.multiple h.nonneg i j, hjn, hj,
    fun k hk => List.mem_range.mp hk, hg.le, h.table.min_mem h.multiple i j, fun _ => hg,
    fun x hx => ?_, fun x hx hxv => ?_, ?_, fun _ k hk hnot => absurd (List.mem_range.mpr hk) hnot⟩
  · by_cases hxj : x = j
    · rw [hxj]
    · rw [Function.update_of_ne hxj] at hx
      exact (h.marks x hx).trans (h.climbs huse).le
  · have hxs := h.excess x hx hxv
    rw [h.net_handed]
    by_cases hxi : x = i
    · subst hxi
      have henough := h.enough
      have hle : min f (T x j) ≤ f := min_le_left ..
      rw [if_pos rfl, if_neg huse.ne.symm, add_zero]
      linarith
    · rw [if_neg hxi, sub_zero]
      split
      · exact add_nonneg hxs hg.le
      · rw [add_zero]
        exact hxs
  · rw [h.net_handed, if_neg huse.ne, if_pos rfl, sub_zero]
    exact le_add_of_nonneg_left (h.excess j hjn hj)

/-- What the neighbour has brought to `v`, seen from the switch that handed it on. -/
theorem Passed.above (hsub : Passed P v δ rank j (min f (T i j)) (reduce T i j (min f (T i j))) T1) :
    Passed P v δ rank i (min f (T i j)) T T1 := by
  refine ⟨hsub.table, fun x hx => ?_, fun a b hab => ?_⟩
  · rw [hsub.excess x hx, h.net_handed]
    ring
  · rw [hsub.frame a b (hab.trans (h.climbs huse)), reduce_apply,
      if_neg fun hi => hab.ne (congrArg rank hi.1), sub_zero]

end Use

/-- The last hop. -/
theorem Pending.passed (h : Pending P v δ rank vist i (v :: js) f T) :
    Passed P v δ rank i (min f (T i v)) T (reduce T i v (min f (T i v))) := by
  refine ⟨climbing_reduce h.table h.multiple h.nonneg i v, fun x _ => h.net_handed x,
    fun a b hab => ?_⟩
  rw [reduce_apply, if_neg fun hi => hab.ne (congrArg rank hi.1), sub_zero]

/-- **The descent brings all of its flow to `v`.** -/
theorem passed_of_decomp (hδ : tol < δ) (h : Decomp P v vist i js f T paths T')
    (hp : Pending P v δ rank vist i js f T) :
    Passed P v δ rank i f T T' ∧ total paths = f ∧
      ∀ a b, crossings paths a b = T a b - T' a b := by
  induction h with
  | done vist i f T =>
    obtain rfl := hp.eq_zero
    exact ⟨⟨hp.table, by simp, fun _ _ _ => rfl⟩, rfl, by simp⟩
  | skip hnot rest ih => exact ih (hp.skip hδ hnot)
  | @arrive vist i js f T T' paths huse rest ih =>
    obtain ⟨hrest, htotal, hcross⟩ := ih (hp.rest hδ hp.passed fun _ => rfl)
    refine ⟨?_, ?_, fun a b => ?_⟩
    · have := hp.passed.trans hrest
      rwa [add_sub_cancel] at this
    · rw [total_cons, htotal, add_sub_cancel]
    · rw [crossings_arrive, hcross, reduce_apply]
      ring
  | @enter vist i j js f T T1 T' below paths huse hj sub rest ihsub ih =>
    have hsub := hp.sub huse hj
    obtain ⟨hbelow, htotal1, hcross1⟩ := ihsub hsub
    have hpassed := hbelow.above hp huse
    obtain ⟨hrest, htotal, hcross⟩ := ih
      (hp.rest hδ hpassed fun k => hbelow.frame i k (hp.climbs huse))
    have hhead := (within_of_decomp sub hsub.node hsub.nodes hsub.nonneg hsub.pos).path
    refine ⟨?_, ?_, fun a b => ?_⟩
    · have := hpassed.trans hrest
      rwa [add_sub_cancel] at this
    · rw [total_append, total_prepend, htotal1, htotal, add_sub_cancel]
    · rw [crossings_append, crossings_prepend fun s hs => (hhead s hs).1.head, hcross1, hcross,
        htotal1, reduce_apply]
      ring

/-! ## §3 — complete decomposition -/

theorem share_le_crossings (hpos : ∀ s ∈ paths, 0 < s.2) {s : Share K} (hs : s ∈ paths) {a b : Nat}
    (hab : (a, b) ∈ pathArcs s.1) : s.2 ≤ crossings paths a b := by
  refine le_trans ?_ (crossing_le_crossings hpos a b)
  have hmem : s ∈ paths.filter fun s => (a, b) ∈ pathArcs s.1 :=
    List.mem_filter.mpr ⟨hs, by simpa using hab⟩
  refine List.single_le_sum (fun x hx => ?_) _ (List.mem_map_of_mem hmem)
  obtain ⟨s', hs', rfl⟩ := List.mem_map.mp hx
  exact (hpos s' (List.mem_filter.mp hs').1).le

omit [LinearOrder K] [IsStrictOrderedRing K] in
/-- Over paths that visit nothing twice, every share is counted once. -/
theorem crossing_eq_crossings (hnodup : ∀ s ∈ paths, s.1.Nodup) (a b : Nat) :
    crossing paths a b = crossings paths a b := by
  unfold crossing
  induction paths with
  | nil => rfl
  | cons s paths ih =>
    obtain ⟨hs, hrest⟩ := List.forall_mem_cons.mp hnodup
    rw [crossings_cons]
    by_cases hmem : (a, b) ∈ pathArcs s.1
    · rw [List.filter_cons_of_pos (by simpa using hmem), total_cons, ih hrest,
        List.count_eq_one_of_mem (nodup_pathArcs hs) hmem, Nat.cast_one, one_mul]
    · rw [List.filter_cons_of_neg (by simpa using hmem), ih hrest,
        List.count_eq_zero_of_not_mem hmem, Nat.cast_zero, zero_mul, zero_add]

/-- A path along which shares are counted follows arcs of the routing, so it climbs. -/
theorem nodup_of_crossings (hT : Climbing P δ rank T) (hpos : ∀ s ∈ paths, 0 < s.2)
    (hcross : ∀ a b, crossings paths a b = T a b) : ∀ s ∈ paths, s.1.Nodup := by
  intro s hs
  have hclimb : ∀ e ∈ pathArcs s.1, rank e.1 < rank e.2 := by
    intro e he
    have hshare : s.2 ≤ T e.1 e.2 := by
      rw [← hcross]
      exact share_le_crossings hpos hs he
    exact hT.rank e.1 e.2 ((hpos s hs).trans_le hshare).ne'
  exact nodup_of_climb hclimb

namespace UnitFlow

variable (hflow : UnitFlow P u v T)

include hflow

omit [IsStrictOrderedRing K] in
theorem ascending (hacyclic : ∀ x, ¬ Relation.TransGen (fun a b => 0 < T a b) x x) :
    Ascending P (rankBy (fun a b => 0 < T a b) (Finset.range P.nNode)) T := by
  refine ⟨hflow.nonneg, hflow.link, fun a b h => ?_⟩
  exact rank_lt_of_acyclic hacyclic (Finset.mem_range.mpr (hflow.link a b h).src_lt)
    (lt_of_le_of_ne (hflow.nonneg a b) h.symm)

omit [IsStrictOrderedRing K] in
theorem climbing (hacyclic : ∀ x, ¬ Relation.TransGen (fun a b => 0 < T a b) x x)
    (hmul : ∀ a b, ∃ k : ℤ, T a b = k * δ) :
    Climbing P δ (rankBy (fun a b => 0 < T a b) (Finset.range P.nNode)) T := by
  refine ⟨hflow.ascending hacyclic, fun a b => ?_⟩
  obtain ⟨k, hk⟩ := hmul a b
  exact AddSubgroup.mem_zmultiples_iff.mpr ⟨k, by rw [zsmul_eq_mul, hk]⟩

/-- The first call: nothing is marked, and `u` owes the unit. -/
theorem pending (hu : u < P.nNode) (huv : u ≠ v) (hT : Climbing P δ rank T) :
    Pending P v δ rank (fun _ => false) u (List.range P.nNode) 1 T := by
  have hnetu : net (Finset.range P.nNode) T u = 1 := by rw [hflow.conserved u hu, if_pos rfl]
  have hone : (1 : K) ∈ AddSubgroup.zmultiples δ := by
    rw [← hnetu]
    exact sub_mem (sum_mem fun b _ => hT.multiple u b) (sum_mem fun a _ => hT.multiple a u)
  refine ⟨hT, hu, huv, fun k hk => List.mem_range.mp hk, zero_le_one, hone,
    fun _ => zero_lt_one, fun x hx => absurd hx (by simp), fun x hx hxv => ?_, hnetu.ge,
    fun _ k hk hnot => absurd (List.mem_range.mpr hk) hnot⟩
  rw [hflow.conserved x hx, if_neg hxv]
  split
  · exact zero_le_one
  · exact le_refl 0

/-- Once the unit is brought to `v` no excess is left, and with it nothing. -/
theorem spent (huv : u ≠ v) (hpassed : Passed P v δ rank u 1 T T') : T' = fun _ _ => 0 := by
  have hlink := hpassed.table.link
  have hbalanced : ∀ x ∈ Finset.range P.nNode, net (Finset.range P.nNode) T' x = 0 := by
    intro x hx
    have hxn := Finset.mem_range.mp hx
    rw [hpassed.excess x hxn, hflow.conserved x hxn]
    by_cases hxu : x = u
    · rw [if_pos hxu, if_pos hxu, if_neg (hxu ▸ huv), sub_self, add_zero]
    · rw [if_neg hxu, if_neg hxu]
      split
      · ring
      · ring
  funext a b
  exact eq_zero_of_net_eq_zero hpassed.table.nonneg (fun a b h =>
    ⟨Finset.mem_range.mpr (hlink a b h).src_lt, Finset.mem_range.mpr (hlink a b h).dst_lt⟩)
    hpassed.table.rank hbalanced a b

end UnitFlow

/-- **An acyclic routing is taken apart completely.** For every unit flow from `u` to `v` whose
positive entries form no cycle and are multiples of some `δ` above the tolerance: the call returns
paths from `u` to `v` that visit nothing twice, with positive shares that sum to `1`, and to the
routing's entry over every link; the working table is left at zero. -/
theorem getPaths_complete (hu : u < P.nNode) (huv : u ≠ v) (hflow : UnitFlow P u v T)
    (hacyclic : ∀ x, ¬ Relation.TransGen (fun a b => 0 < T a b) x x) (hδ : tol < δ)
    (hmul : ∀ a b, ∃ k : ℤ, T a b = k * δ) :
    ∃ paths, (∀ fuel, P.nNode < fuel →
        getPaths P v fuel u 1 (fun _ => false) T = some (paths, fun _ _ => 0)) ∧
      (∀ s ∈ paths, IsPath P u v s.1 ∧ s.1.Nodup ∧ 0 < s.2) ∧ total paths = 1 ∧
      ∀ a b, crossing paths a b = T a b := by
  have htable := hflow.climbing hacyclic hmul
  have hpending := hflow.pending hu huv htable
  obtain ⟨paths, T', hret, hdecomp⟩ := getPaths_returns P v u 1 (fun _ => false) T
  obtain ⟨hpassed, htotal, hcross⟩ := passed_of_decomp hδ hdecomp hpending
  have hwithin := (within_of_decomp hdecomp hu hpending.nodes hpending.nonneg hpending.pos).path
  obtain rfl := hflow.spent huv hpassed
  simp only [sub_zero] at hcross
  have hnodup := nodup_of_crossings htable (fun s hs => (hwithin s hs).2) hcross
  refine ⟨paths, hret, fun s hs => ⟨(hwithin s hs).1, hnodup s hs, (hwithin s hs).2⟩, htotal,
    fun a b => ?_⟩
  rw [crossing_eq_crossings hnodup, hcross]

/-- Two ways from `0` to `3`. -/
def diamond : LpMluRoute ℚ where
  nNode := 4
  bwHost u := if u = 0 ∨ u = 3 then 1 else 0
  capacity i j := if i % 3 = 0 ∧ j % 3 ≠ 0 ∨ i % 3 ≠ 0 ∧ j % 3 = 0 then 1 else 0

/-- Half of the unit each way. -/
def diamondFlow : Table ℚ :=
  fun a b => if [(0, 1), (0, 2), (1, 3), (2, 3)].contains (a, b) then 1 / 2 else 0

theorem diamondFlow_ne {a b : Nat} (h : diamondFlow a b ≠ 0) :
    (a, b) ∈ [(0, 1), (0, 2), (1, 3), (2, 3)] := by
  by_contra hnot
  exact h (if_neg fun hmem => hnot (List.contains_iff_mem.mp hmem))

theorem getPaths_complete_diamond :
    ∃ paths, getPaths diamond 3 5 0 1 (fun _ => false) diamondFlow =
        some (paths, fun _ _ => 0) ∧ total paths = 1 ∧ crossing paths 0 2 = 1 / 2 := by
  have hcell : ∀ a b, diamondFlow a b = 0 ∨ diamondFlow a b = 1 / 2 := by
    intro a b
    unfold diamondFlow
    split
    · exact Or.inr rfl
    · exact Or.inl rfl
  have hlinks : ∀ e ∈ [(0, 1), (0, 2), (1, 3), (2, 3)], diamond.Link e.1 e.2 ∧ e.1 < e.2 := by
    decide +kernel
  have hflow : UnitFlow diamond 0 3 diamondFlow := by
    refine ⟨fun a b => ?_, fun a b h => (hlinks _ (diamondFlow_ne h)).1, by decide +kernel⟩
    rcases hcell a b with h | h
    · exact h.ge
    · rw [h]
      norm_num
  have hup : ∀ a b, Relation.TransGen (fun a b => 0 < diamondFlow a b) a b → a < b := by
    intro a b h
    induction h with
    | single h => exact (hlinks _ (diamondFlow_ne h.ne')).2
    | tail _ h ih => exact ih.trans (hlinks _ (diamondFlow_ne h.ne')).2
  have hmul : ∀ a b, ∃ k : ℤ, diamondFlow a b = k * (1 / 2) := by
    intro a b
    rcases hcell a b with h | h
    · exact ⟨0, by rw [h, Int.cast_zero, zero_mul]⟩
    · exact ⟨1, by rw [h, Int.cast_one, one_mul]⟩
  obtain ⟨paths, hret, -, htotal, hcross⟩ :=
    getPaths_complete (P := diamond) (u := 0) (v := 3) (δ := 1 / 2) (by decide) (by decide) hflow
      (fun x h => (hup x x h).false) (by norm_num [tol]) hmul
  exact ⟨paths, hret 5 (by decide), htotal, hcross 0 2⟩

end LpMluRoute

end SDNware.Planner
