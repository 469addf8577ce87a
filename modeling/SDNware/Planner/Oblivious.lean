/-
# SDNware.Planner.Oblivious — what the program of `get_routing` guarantees, and that it gives nothing away.

The planner does not know the traffic; it knows the host bandwidth `bw_host` of every switch.  The
matrices it must be ready for are the hose matrices (`HoseTraffic`).  For one link the rows
`lam + eta >= f` and `mlu >= ml/capacity` are exactly the potentials of `SDNware.Lib.Hose`, so

* weak duality bounds the load of every hose matrix under every feasible assignment
  (`load_le_mlu_mul_capacity`);
* strong duality produces the potentials for every routing and every valid bound, so that the values
  of `mlu` the program can reach are exactly the worst-case utilisations a fractional routing can
  guarantee (`getRouting_tight`).

The abstract duality lives over a finite type of nodes; the switches with hosts (`Host P`) are that
type, and `linkLoad_eq` / `HoseTraffic.matrix` / `extend` carry sums and matrices across.
-/
import SDNware.Lib.Hose
import SDNware.Planner.Lp

namespace SDNware.Planner

open Finset

variable {K : Type} [Field K] [LinearOrder K] {P : LpMluRoute K}

namespace LpMluRoute

/-! ## §1 — traffic, load, feasibility -/

/-- The directed link `(i, j)` of the fabric. -/
structure Link (P : LpMluRoute K) (i j : Nat) : Prop where
  src_lt : i < P.nNode
  dst_lt : j < P.nNode
  ne : i ≠ j
  cap_ne : P.capacity i j ≠ 0

/-- Non-negative bandwidths and capacities. -/
structure NonNeg (P : LpMluRoute K) : Prop where
  bw : ∀ u < P.nNode, 0 ≤ P.bwHost u
  cap : ∀ i < P.nNode, ∀ j < P.nNode, 0 ≤ P.capacity i j

/-- A traffic matrix within the host bandwidths: non-negative, zero on the diagonal and away from
switches with hosts, row and column sums at most `bw_host`. -/
structure HoseTraffic (P : LpMluRoute K) (T : Nat → Nat → K) : Prop where
  nonneg : ∀ u < P.nNode, ∀ v < P.nNode, 0 ≤ T u v
  diag : ∀ u < P.nNode, T u u = 0
  supp : ∀ u < P.nNode, ∀ v < P.nNode, T u v ≠ 0 → P.bwHost u ≠ 0 ∧ P.bwHost v ≠ 0
  out_le : ∀ u < P.nNode, ∑ v ∈ range P.nNode, T u v ≤ P.bwHost u
  in_le : ∀ v < P.nNode, ∑ u ∈ range P.nNode, T u v ≤ P.bwHost v

/-- The load of the link `(i, j)` under the routing `f` and the traffic `T`. -/
def linkLoad (P : LpMluRoute K) (f : Nat → Nat → Nat → Nat → K) (T : Nat → Nat → K) (i j : Nat) : K :=
  ∑ u ∈ range P.nNode, ∑ v ∈ range P.nNode, if u ≠ v then T u v * f u v i j else 0

/-- `m` bounds the utilisation of every link under every hose matrix. -/
def WorstCaseLe (P : LpMluRoute K) (f : Nat → Nat → Nat → Nat → K) (m : K) : Prop :=
  ∀ T, HoseTraffic P T → ∀ i j, P.Link i j → P.linkLoad f T i j ≤ m * P.capacity i j

/-- Unit flow from `u` to `v`, for every pair of switches with hosts. -/
def Conserves (P : LpMluRoute K) (f : Nat → Nat → Nat → Nat → K) : Prop :=
  ∀ u ∈ P.hosts, ∀ v ∈ P.peers u, ∀ i < P.nNode,
    ((P.outs i).map fun j => f u v i j - f u v j i).sum
      = if i = u then 1 else if i = v then -1 else 0

/-- An assignment within the bounds that satisfies every row. -/
structure Feasible (P : LpMluRoute K) (rows : List (Row K)) (a : Var → K) : Prop where
  lower : ∀ x ∈ P.vars, 0 ≤ a x
  rows : ∀ r ∈ rows, r.Holds a

/-! ## §2 — the switches with hosts as the nodes of the hose polytope -/

/-- The switches with hosts, as a finite set. -/
def hostSet (P : LpMluRoute K) : Finset Nat := (range P.nNode).filter fun u => P.bwHost u ≠ 0

abbrev Host (P : LpMluRoute K) := { u // u ∈ P.hostSet }

theorem mem_hostSet {u : Nat} : u ∈ P.hostSet ↔ u < P.nNode ∧ P.bwHost u ≠ 0 := by
  simp [hostSet]

theorem Host.lt (u : P.Host) : u.1 < P.nNode := (mem_hostSet.mp u.2).1

theorem Host.mem_hosts (u : P.Host) : u.1 ∈ P.hosts := LpMluRoute.mem_hosts.mpr (mem_hostSet.mp u.2)

theorem Host.mem_peers {u v : P.Host} (huv : u ≠ v) : v.1 ∈ P.peers u.1 :=
  LpMluRoute.mem_peers.mpr ⟨v.mem_hosts, fun h => huv (Subtype.ext h)⟩

/-- A sum over all switches whose terms vanish where there are no hosts. -/
theorem sum_range_eq_sum_host {g : Nat → K} (hg : ∀ u < P.nNode, g u ≠ 0 → P.bwHost u ≠ 0) :
    ∑ u ∈ range P.nNode, g u = ∑ u : P.Host, g u := by
  rw [sum_coe_sort P.hostSet g]
  refine (sum_subset (filter_subset _ _) fun u hu hnot => ?_).symm
  by_contra hne
  exact hnot (mem_hostSet.mpr ⟨mem_range.mp hu, hg u (mem_range.mp hu) hne⟩)

theorem linkLoad_eq {f : Nat → Nat → Nat → Nat → K} {T : Nat → Nat → K} (hT : HoseTraffic P T)
    (i j : Nat) : P.linkLoad f T i j = ∑ u : P.Host, ∑ v : P.Host, T u v * f u v i j := by
  have hcell : ∀ u < P.nNode, ∀ v < P.nNode,
      (if u ≠ v then T u v * f u v i j else 0) = T u v * f u v i j := by
    intro u hu v _
    by_cases huv : u = v
    · rw [if_neg (not_not.mpr huv), ← huv, hT.diag u hu, zero_mul]
    · rw [if_pos huv]
  have hrow : ∀ u < P.nNode, ∑ v ∈ range P.nNode, (if u ≠ v then T u v * f u v i j else 0)
      = ∑ v : P.Host, T u v * f u v i j := by
    intro u hu
    rw [sum_congr rfl fun v hv => hcell u hu v (mem_range.mp hv)]
    exact sum_range_eq_sum_host fun v hv hne => (hT.supp u hu v hv (left_ne_zero_of_mul hne)).2
  unfold linkLoad
  rw [sum_congr rfl fun u hu => hrow u (mem_range.mp hu)]
  refine sum_range_eq_sum_host fun u hu hne => ?_
  obtain ⟨v, -, hv⟩ := exists_ne_zero_of_sum_ne_zero hne
  exact (hT.supp u hu v v.lt (left_ne_zero_of_mul hv)).1

/-- Hose traffic restricted to the switches with hosts. -/
theorem HoseTraffic.matrix {T : Nat → Nat → K} (hT : HoseTraffic P T) :
    Hose.Matrix (fun u : P.Host => P.bwHost u) fun u v => T u v where
  nonneg u v := hT.nonneg u u.lt v v.lt
  diag u := hT.diag u u.lt
  out_le u := by
    rw [← sum_range_eq_sum_host fun v hv hne => (hT.supp u u.lt v hv hne).2]
    exact hT.out_le u u.lt
  in_le v := by
    rw [← sum_range_eq_sum_host fun u hu hne => (hT.supp u hu v v.lt hne).1]
    exact hT.in_le v v.lt

/-- A matrix on the switches with hosts, zero elsewhere. -/
def extend (T : P.Host → P.Host → K) (u v : Nat) : K :=
  if h : u ∈ P.hostSet ∧ v ∈ P.hostSet then T ⟨u, h.1⟩ ⟨v, h.2⟩ else 0

theorem extend_host (T : P.Host → P.Host → K) (u v : P.Host) : extend T u v = T u v := by
  simp [extend]

theorem extend_of_notMem (T : P.Host → P.Host → K) {u v : Nat}
    (h : ¬ (u ∈ P.hostSet ∧ v ∈ P.hostSet)) : extend T u v = 0 := dif_neg h

theorem extend_ne_zero {T : P.Host → P.Host → K} {u v : Nat} (h : extend T u v ≠ 0) :
    u ∈ P.hostSet ∧ v ∈ P.hostSet := by
  by_contra hnot
  exact h (extend_of_notMem T hnot)

theorem hoseTraffic_extend (hP : P.NonNeg) {T : P.Host → P.Host → K}
    (hT : Hose.Matrix (fun u : P.Host => P.bwHost u) T) : HoseTraffic P (extend T) where
  nonneg u _ v _ := by
    unfold extend
    split
    · exact hT.nonneg _ _
    · exact le_rfl
  diag u _ := by
    unfold extend
    split
    · exact hT.diag _
    · rfl
  supp u _ v _ hne := by
    obtain ⟨hu, hv⟩ := extend_ne_zero hne
    exact ⟨(mem_hostSet.mp hu).2, (mem_hostSet.mp hv).2⟩
  out_le u hu := by
    rw [sum_range_eq_sum_host fun v _ hne => (mem_hostSet.mp (extend_ne_zero hne).2).2]
    by_cases hhost : u ∈ P.hostSet
    · have hrow := hT.out_le ⟨u, hhost⟩
      simpa only [← extend_host] using hrow
    · rw [sum_eq_zero fun v _ => extend_of_notMem T fun h => hhost h.1]
      exact hP.bw u hu
  in_le v hv := by
    rw [sum_range_eq_sum_host fun u _ hne => (mem_hostSet.mp (extend_ne_zero hne).1).2]
    by_cases hhost : v ∈ P.hostSet
    · have hcol := hT.in_le ⟨v, hhost⟩
      simpa only [← extend_host] using hcol
    · rw [sum_eq_zero fun u _ => extend_of_notMem T fun h => hhost h.2]
      exact hP.bw v hv

/-! ## §3 — the rows under an assignment -/

theorem hosts_nodup : P.hosts.Nodup := List.nodup_range.filter _

theorem sum_map_hosts (g : Nat → K) : (P.hosts.map g).sum = ∑ u : P.Host, g u := by
  rw [← List.sum_toFinset g hosts_nodup, sum_coe_sort P.hostSet g]
  congr 1
  ext u
  rw [List.mem_toFinset, LpMluRoute.mem_hosts, mem_hostSet]

theorem eval_mlExpr (a : Var → K) (i j : Nat) :
    (P.mlExpr i j).eval a = ∑ u : P.Host, P.bwHost u * (a (.lam u i j) + a (.eta u i j)) := by
  have hfold : ∀ (us : List Nat) (e : LinExpr K),
      (us.foldl (fun ml u => ml.add
        (((LinExpr.ofVar (.lam u i j)).addVar (.eta u i j)).scale (P.bwHost u))) e).eval a
        = e.eval a + (us.map fun u => P.bwHost u * (a (.lam u i j) + a (.eta u i j))).sum := by
    intro us
    induction us with
    | nil => intro e; simp
    | cons u us ih =>
      intro e
      rw [List.foldl_cons, ih]
      simp only [LinExpr.eval_add, LinExpr.eval_scale, LinExpr.eval_addVar, LinExpr.eval_ofVar,
        List.map_cons, List.sum_cons]
      ring
  rw [mlExpr, hfold, LinExpr.eval_zero, zero_add, sum_map_hosts]

theorem Link.mem_outs {i j : Nat} (h : P.Link i j) : j ∈ P.outs i :=
  LpMluRoute.mem_outs.mpr ⟨h.dst_lt, h.ne, h.cap_ne⟩

theorem Link.cap_pos (hP : P.NonNeg) {i j : Nat} (h : P.Link i j) : 0 < P.capacity i j :=
  lt_of_le_of_ne (hP.cap i h.src_lt j h.dst_lt) h.cap_ne.symm

theorem coverRow_holds_iff (a : Var → K) (u v i j : Nat) :
    (coverRow u v i j : Row K).Holds a ↔ a (.f u v i j) ≤ a (.lam u i j) + a (.eta v i j) := by
  simp [coverRow, Row.Holds]

/-- The conservation row of a pair at a switch, as an equation. -/
theorem conservationRow_holds_iff (a : Var → K) (u v i : Nat) :
    (Row.eq (closeRouter u v i (routerExpr u v i LinExpr.zero (P.outs i))) LinExpr.zero).Holds a ↔
      ((P.outs i).map fun j => a (.f u v i j) - a (.f u v j i)).sum
        = if i = u then 1 else if i = v then -1 else 0 := by
  simp only [Row.Holds, LinExpr.eval_zero, eval_closeRouter, eval_routerExpr, zero_add]
  exact sub_eq_zero

/-- What a feasible assignment says about one link: potentials for the routing. -/
theorem Feasible.potentials {rows : List (Row K)} (hrows : P.getRouting = .ok rows) {a : Var → K}
    (ha : P.Feasible rows a) {i j : Nat} (h : P.Link i j) :
    Hose.Potentials (fun u v : P.Host => a (.f u v i j)) (fun u => a (.lam u i j))
      fun u => a (.eta u i j) where
  lam_nonneg u := by
    refine ha.lower _ ?_
    have hlam : Var.lam u i j ∈ P.dualVars .lam :=
      mem_dualVars.mpr ⟨u, u.mem_hosts, i, h.src_lt, j, h.mem_outs, rfl⟩
    simp [vars, hlam]
  eta_nonneg u := by
    refine ha.lower _ ?_
    have heta : Var.eta u i j ∈ P.dualVars .eta :=
      mem_dualVars.mpr ⟨u, u.mem_hosts, i, h.src_lt, j, h.mem_outs, rfl⟩
    simp [vars, heta]
  cover u v huv := by
    have hmem : coverRow (u : Nat) v i j ∈ rows := (getRouting_ok hrows _).mpr
      (Or.inl ⟨u, u.mem_hosts, v, Host.mem_peers huv, i, h.src_lt, Or.inl ⟨j, h.mem_outs, rfl⟩⟩)
    exact (coverRow_holds_iff a u v i j).mp (ha.rows _ hmem)

variable [IsStrictOrderedRing K]

/-- The utilisation row of a link, cleared of its denominator. -/
theorem mluRow_holds_iff (hP : P.NonNeg) {i j : Nat} (h : P.Link i j) (a : Var → K) :
    (P.mluRow i j).Holds a ↔
      ∑ u : P.Host, P.bwHost u * (a (.lam u i j) + a (.eta u i j)) ≤ a .mlu * P.capacity i j := by
  simp only [mluRow, Row.Holds, LinExpr.eval_ofVar, LinExpr.eval_scale, eval_mlExpr]
  rw [inv_mul_le_iff₀ (h.cap_pos hP), mul_comm]

theorem Feasible.budget (hP : P.NonNeg) {rows : List (Row K)} (hrows : P.getRouting = .ok rows)
    {a : Var → K} (ha : P.Feasible rows a) {i j : Nat} (h : P.Link i j) :
    ∑ u : P.Host, P.bwHost u * (a (.lam u i j) + a (.eta u i j)) ≤ a .mlu * P.capacity i j := by
  have hmem : P.mluRow i j ∈ rows :=
    (getRouting_ok hrows _).mpr (Or.inr ⟨i, h.src_lt, j, h.mem_outs, rfl⟩)
  exact (mluRow_holds_iff hP h a).mp (ha.rows _ hmem)

theorem Feasible.load_le (hP : P.NonNeg) {rows : List (Row K)} (hrows : P.getRouting = .ok rows)
    {a : Var → K} (ha : P.Feasible rows a) :
    P.WorstCaseLe (fun u v i j => a (.f u v i j)) (a .mlu) := by
  intro T hT i j h
  rw [linkLoad_eq hT]
  exact (Hose.load_le_of_potentials hT.matrix (ha.potentials hrows h)).trans
    (ha.budget hP hrows h)

/-! ## §4 — the guarantee -/

/-- **The oblivious guarantee.** Under every assignment that satisfies the rows `get_routing` adds,
no hose matrix loads a link above `mlu` times its capacity. -/
theorem load_le_mlu_mul_capacity (P : LpMluRoute K) (hP : P.NonNeg) (rows : List (Row K))
    (hrows : P.getRouting = .ok rows) (a : Var → K) (ha : P.Feasible rows a)
    (T : Nat → Nat → K) (hT : HoseTraffic P T) (i j : Nat) (h : P.Link i j) :
    P.linkLoad (fun u v i j => a (.f u v i j)) T i j ≤ a .mlu * P.capacity i j :=
  ha.load_le hP hrows T hT i j h

/-- Two switches with one host unit each, joined by a link of capacity 1 in both directions. -/
def twoSwitches : LpMluRoute ℚ where
  nNode := 2
  bwHost _ := 1
  capacity i j := if i = j then 0 else 1

/-- The direct routing, with the potentials of the sending side. -/
def twoSwitchesDirect : Var → ℚ
  | .f u v i j => if u = i ∧ v = j then 1 else 0
  | .lam u i _ => if u = i then 1 else 0
  | .eta _ _ _ => 0
  | .mlu => 1

/-- One unit each way. -/
def twoSwitchesTraffic (u v : Nat) : ℚ := if u = v then 0 else 1

theorem twoSwitches_nonNeg : twoSwitches.NonNeg := ⟨by decide +kernel, by decide +kernel⟩

theorem twoSwitches_feasible :
    ∃ rows, twoSwitches.getRouting = .ok rows ∧ twoSwitches.Feasible rows twoSwitchesDirect :=
  ⟨(twoSwitches.getRouting.toOption).getD [], by decide +kernel,
    ⟨by decide +kernel, by decide +kernel⟩⟩

theorem load_le_mlu_mul_capacity_twoSwitches :
    ∃ rows, twoSwitches.getRouting = .ok rows ∧ twoSwitches.Feasible rows twoSwitchesDirect ∧
      twoSwitches.linkLoad (fun u v i j => twoSwitchesDirect (.f u v i j)) twoSwitchesTraffic 0 1
        ≤ twoSwitchesDirect .mlu * twoSwitches.capacity 0 1 := by
  obtain ⟨rows, hrows, hfeas⟩ := twoSwitches_feasible
  have hT : HoseTraffic twoSwitches twoSwitchesTraffic :=
    ⟨by decide +kernel, by decide +kernel, by decide +kernel, by decide +kernel, by decide +kernel⟩
  have hlink : twoSwitches.Link 0 1 :=
    ⟨by decide, by decide, by decide, by decide +kernel⟩
  exact ⟨rows, hrows, hfeas, load_le_mlu_mul_capacity twoSwitches twoSwitches_nonNeg rows hrows
    twoSwitchesDirect hfeas twoSwitchesTraffic hT 0 1 hlink⟩

/-! ## §5 — tightness -/

/-- Potentials for every link at once, written as an assignment. -/
theorem exists_assignment (hP : P.NonNeg) {f : Nat → Nat → Nat → Nat → K} {m : K}
    (hf : ∀ u v i j, Var.f u v i j ∈ P.fVars → 0 ≤ f u v i j) (hm : 0 ≤ m)
    (hworst : P.WorstCaseLe f m) :
    ∃ a : Var → K, (∀ u v i j, a (.f u v i j) = f u v i j) ∧ a .mlu = m ∧
      (∀ x ∈ P.vars, 0 ≤ a x) ∧
      (∀ u ∈ P.hosts, ∀ v ∈ P.peers u, ∀ i < P.nNode, ∀ j ∈ P.outs i,
        (coverRow u v i j).Holds a) ∧
      ∀ i < P.nNode, ∀ j ∈ P.outs i, (P.mluRow i j).Holds a := by
  have hpot : ∀ i j, ∃ lam eta : P.Host → K, P.Link i j →
      Hose.Potentials (fun u v : P.Host => f u v i j) lam eta ∧
        ∑ u : P.Host, P.bwHost u * (lam u + eta u) ≤ m * P.capacity i j := by
    intro i j
    by_cases h : P.Link i j
    · obtain ⟨lam, eta, hp⟩ := Hose.exists_potentials (b := fun u : P.Host => P.bwHost u)
        (fun u v : P.Host => f u v i j) (m * P.capacity i j) fun T hT => by
          have hload := hworst _ (hoseTraffic_extend hP hT) i j h
          rw [linkLoad_eq (hoseTraffic_extend hP hT)] at hload
          simpa only [extend_host] using hload
      exact ⟨lam, eta, fun _ => hp⟩
    · exact ⟨0, 0, fun h' => absurd h' h⟩
  choose lam eta hle using hpot
  let a : Var → K
    | .f u v i j => f u v i j
    | .lam u i j => if hu : u ∈ P.hostSet then lam i j ⟨u, hu⟩ else 0
    | .eta u i j => if hu : u ∈ P.hostSet then eta i j ⟨u, hu⟩ else 0
    | .mlu => m
  have hlam : ∀ (u : P.Host) i j, a (.lam u i j) = lam i j u := fun u i j => dif_pos u.2
  have heta : ∀ (u : P.Host) i j, a (.eta u i j) = eta i j u := fun u i j => dif_pos u.2
  have hlink : ∀ {i j}, i < P.nNode → j ∈ P.outs i → P.Link i j := fun hi hj =>
    ⟨hi, (mem_outs.mp hj).1, (mem_outs.mp hj).2.1, (mem_outs.mp hj).2.2⟩
  refine ⟨a, fun u v i j => rfl, rfl, ?_, ?_, ?_⟩
  · intro x hx
    simp only [vars, List.mem_append, List.mem_singleton] at hx
    rcases hx with ((hx | hx) | hx) | rfl
    · obtain ⟨u, hu, v, hv, i, hi, j, hj, rfl⟩ := mem_fVars.mp hx
      exact hf u v i j hx
    · obtain ⟨u, hu, i, hi, j, hj, rfl⟩ := mem_dualVars.mp hx
      have hu' : u ∈ P.hostSet := mem_hostSet.mpr (mem_hosts.mp hu)
      rw [hlam ⟨u, hu'⟩ i j]
      exact (hle i j (hlink hi hj)).1.lam_nonneg _
    · obtain ⟨u, hu, i, hi, j, hj, rfl⟩ := mem_dualVars.mp hx
      have hu' : u ∈ P.hostSet := mem_hostSet.mpr (mem_hosts.mp hu)
      rw [heta ⟨u, hu'⟩ i j]
      exact (hle i j (hlink hi hj)).1.eta_nonneg _
    · exact hm
  · intro u hu v hv i hi j hj
    have hu' : u ∈ P.hostSet := mem_hostSet.mpr (mem_hosts.mp hu)
    have hv' : v ∈ P.hostSet := mem_hostSet.mpr (mem_hosts.mp (mem_peers.mp hv).1)
    rw [coverRow_holds_iff, hlam ⟨u, hu'⟩ i j, heta ⟨v, hv'⟩ i j]
    exact (hle i j (hlink hi hj)).1.cover ⟨u, hu'⟩ ⟨v, hv'⟩ fun h =>
      (mem_peers.mp hv).2 (congrArg Subtype.val h)
  · intro i hi j hj
    rw [mluRow_holds_iff hP (hlink hi hj)]
    simp only [hlam, heta]
    exact (hle i j (hlink hi hj)).2

/-- **The program is tight.** A routing whose worst-case utilisation over the hose matrices is at most
`m` extends, with `mlu = m`, to an assignment that satisfies every covering and utilisation row;
so the values of `mlu` feasible for the whole program are exactly the worst-case bounds of
fractional routings, and its optimum is the least of them. -/
theorem getRouting_tight (P : LpMluRoute K) (hP : P.NonNeg) :
    (∀ (f : Nat → Nat → Nat → Nat → K) (m : K),
      (∀ u v i j, Var.f u v i j ∈ P.fVars → 0 ≤ f u v i j) → 0 ≤ m → P.WorstCaseLe f m →
      ∃ a : Var → K, (∀ u v i j, a (.f u v i j) = f u v i j) ∧ a .mlu = m ∧
        (∀ x ∈ P.vars, 0 ≤ a x) ∧
        (∀ u ∈ P.hosts, ∀ v ∈ P.peers u, ∀ i < P.nNode, ∀ j ∈ P.outs i,
          (coverRow u v i j).Holds a) ∧
        ∀ i < P.nNode, ∀ j ∈ P.outs i, (P.mluRow i j).Holds a) ∧
    ∀ rows, P.getRouting = .ok rows → ∀ m : K,
      (∃ a, P.Feasible rows a ∧ a .mlu = m) ↔
        0 ≤ m ∧ ∃ f : Nat → Nat → Nat → Nat → K,
          (∀ u v i j, Var.f u v i j ∈ P.fVars → 0 ≤ f u v i j) ∧ P.Conserves f ∧
            P.WorstCaseLe f m := by
  refine ⟨fun f m hf hm hworst => exists_assignment hP hf hm hworst, ?_⟩
  intro rows hrows m
  constructor
  · rintro ⟨a, ha, rfl⟩
    refine ⟨ha.lower _ (by simp [vars]), fun u v i j => a (.f u v i j), ?_, ?_, ha.load_le hP hrows⟩
    · intro u v i j hx
      exact ha.lower _ (by simp [vars, hx])
    · intro u hu v hv i hi
      have hmem := (getRouting_ok hrows _).mpr (Or.inl ⟨u, hu, v, hv, i, hi, Or.inr rfl⟩)
      exact (conservationRow_holds_iff a u v i).mp (ha.rows _ hmem)
  · rintro ⟨hm, f, hf, hcons, hworst⟩
    obtain ⟨a, haf, hamlu, hlower, hcover, hmlu⟩ := exists_assignment hP hf hm hworst
    refine ⟨a, ⟨hlower, fun r hr => ?_⟩, hamlu⟩
    rcases (getRouting_ok hrows r).mp hr with ⟨u, hu, v, hv, i, hi, ⟨j, hj, rfl⟩ | rfl⟩ |
      ⟨i, hi, j, hj, rfl⟩
    · exact hcover u hu v hv i hi j hj
    · rw [conservationRow_holds_iff]
      simp only [haf]
      exact hcons u hu v hv i hi
    · exact hmlu i hi j hj

theorem getRouting_tight_twoSwitches :
    ∃ a : Var → ℚ, a (.f 0 1 0 1) = 1 ∧ a .mlu = 1 ∧ (coverRow 0 1 0 1).Holds a ∧
      (twoSwitches.mluRow 0 1).Holds a := by
  obtain ⟨rows, hrows, hfeas⟩ := twoSwitches_feasible
  obtain ⟨a, haf, hmlu, -, hcover, hrow⟩ :=
    (getRouting_tight twoSwitches twoSwitches_nonNeg).1
      (fun u v i j => twoSwitchesDirect (.f u v i j)) 1
      (fun u v i j hx => hfeas.lower _ (by simp [vars, hx])) zero_le_one
      (hfeas.load_le twoSwitches_nonNeg hrows)
  have hout : 1 ∈ twoSwitches.outs 0 := by decide +kernel
  exact ⟨a, haf 0 1 0 1, hmlu, hcover 0 (by decide +kernel) 1 (by decide +kernel) 0 (by decide) 1 hout,
    hrow 0 (by decide) 1 hout⟩

end LpMluRoute

end SDNware.Planner
