/-
# SDNware.Planner.Solvable — when the program has a solution, and which solutions suffice.

`get_routing` prints `solve fail` and raises when the solver finds nothing.  For a fabric whose links
have their reverses this happens exactly if some switch with hosts cannot be reached from another over
links of non-zero capacity (`feasible_iff_connected`): flow leads somewhere, and a walk for each pair,
with `mlu` large enough, is a solution.

Nothing in the program keeps circulations out of a solution, and `get_paths` may lose a pair to them.
They are never needed: every solution has one below it with the same `mlu` in which the routing of each
pair is acyclic, and from which `get_all_paths` makes paths for every pair that carry the unit but for
the tolerance on each link (`exists_acyclic_solution`).
-/
import SDNware.Lib.Circulation
import SDNware.Planner.Descent
import SDNware.Planner.Loss

namespace SDNware.Planner

namespace LpMluRoute

variable {K : Type} [Field K] [LinearOrder K] {P : LpMluRoute K} {rows : List (Row K)} {a : Var → K}
  {u v i j : Nat}

/-! ## §1 — rows from unit flows -/

/-- There is nothing of a unit flow beyond the links. -/
theorem UnitFlow.routing_eq {T : Table K} (hflow : UnitFlow P u v T)
    (hT : ∀ i j, a (.f u v i j) = T i j) : P.routing a u v = T := by
  funext i j
  unfold routing
  split
  · exact hT i j
  · rename_i hnot
    by_contra hne
    exact hnot (hflow.link i j (Ne.symm hne))

/-- Links in both directions: a unit flow satisfies the conservation rows of its pair. -/
theorem UnitFlow.conservation {T : Table K} (hflow : UnitFlow P u v T)
    (hback : ∀ i j, P.Link i j → P.Link j i) (hT : ∀ i j, a (.f u v i j) = T i j)
    (hi : i < P.nNode) :
    ((P.outs i).map fun j => a (.f u v i j) - a (.f u v j i)).sum
      = if i = u then 1 else if i = v then -1 else 0 := by
  rw [← net_routing_eq hback hi, hflow.routing_eq hT]
  exact hflow.conserved i hi

/-- What a solution is made of: a unit flow for each pair, covered by its potentials, within the
utilisation rows. -/
theorem feasible_of_flows (hrows : P.getRouting = .ok rows)
    (hflow : ∀ u ∈ P.hosts, ∀ v ∈ P.peers u, UnitFlow P u v fun i j => a (.f u v i j))
    (hdual : ∀ u ∈ P.hosts, ∀ i j, P.Link i j → 0 ≤ a (.lam u i j) ∧ 0 ≤ a (.eta u i j))
    (hmlu : 0 ≤ a .mlu)
    (hcover : ∀ u ∈ P.hosts, ∀ v ∈ P.peers u, ∀ i j, P.Link i j →
      a (.f u v i j) ≤ a (.lam u i j) + a (.eta v i j))
    (hload : ∀ i j, P.Link i j → (P.mluRow i j).Holds a) : P.Feasible rows a := by
  have hlink : ∀ {i j}, i < P.nNode → j ∈ P.outs i → P.Link i j := fun hi hj =>
    ⟨hi, (mem_outs.mp hj).1, (mem_outs.mp hj).2.1, (mem_outs.mp hj).2.2⟩
  refine ⟨fun x hx => ?_, fun r hr => ?_⟩
  · simp only [vars, List.mem_append, List.mem_singleton] at hx
    rcases hx with ((hx | hx) | hx) | rfl
    · obtain ⟨u, hu, v, hv, i, -, j, -, rfl⟩ := mem_fVars.mp hx
      exact (hflow u hu v hv).nonneg i j
    · obtain ⟨u, hu, i, hi, j, hj, rfl⟩ := mem_dualVars.mp hx
      exact (hdual u hu i j (hlink hi hj)).1
    · obtain ⟨u, hu, i, hi, j, hj, rfl⟩ := mem_dualVars.mp hx
      exact (hdual u hu i j (hlink hi hj)).2
    · exact hmlu
  · rcases (getRouting_ok hrows r).mp hr with ⟨u, hu, v, hv, i, hi, ⟨j, hj, rfl⟩ | rfl⟩ |
      ⟨i, hi, j, hj, rfl⟩
    · exact (coverRow_holds_iff a u v i j).mpr (hcover u hu v hv i j (hlink hi hj))
    · rw [conservationRow_holds_iff]
      exact (hflow u hu v hv).conservation (fun _ _ h => h.back hrows hu hv) (fun _ _ => rfl) hi
    · exact hload i j (hlink hi hj)

/-! ## §2 — solvable fabrics -/

variable [IsStrictOrderedRing K]

/-- Every switch with hosts can be reached from every other. -/
def Connected (P : LpMluRoute K) : Prop :=
  ∀ u ∈ P.hosts, ∀ v ∈ P.peers u, Relation.ReflTransGen P.Link u v

theorem Feasible.connected (hrows : P.getRouting = .ok rows) (ha : P.Feasible rows a) :
    P.Connected := by
  intro u hu v hv
  have hun := (mem_hosts.mp hu).1
  have hflow := unitFlow_of_feasible hrows ha hu hv
  refine reach_of_net_pos hflow.nonneg hflow.link (Finset.mem_range.mpr hun) ?_ fun x hx hxv => ?_
  · rw [hflow.conserved u hun, if_pos rfl]
    exact zero_lt_one
  · rw [hflow.conserved x (Finset.mem_range.mp hx), if_neg hxv]
    split
    · exact zero_le_one
    · exact le_refl 0

/-- A walk from `u` to `v`, as a table. -/
theorem exists_unitFlow (huv : u ≠ v) (h : Relation.ReflTransGen P.Link u v) :
    ∃ T : Table K, UnitFlow P u v T := by
  obtain rfl | hwalk := Relation.reflTransGen_iff_eq_or_transGen.mp h
  · exact absurd rfl huv
  obtain ⟨c, hc, -⟩ := exists_walkFlow (K := K) (s := Finset.range P.nNode)
    (fun p q hpq => ⟨Finset.mem_range.mpr hpq.src_lt, Finset.mem_range.mpr hpq.dst_lt⟩) hwalk
  refine ⟨c, hc.nonneg, hc.along, fun x _ => ?_⟩
  rw [hc.excess]
  by_cases hxu : x = u
  · rw [if_pos hxu, if_pos hxu, if_neg (hxu ▸ huv), sub_zero]
  · rw [if_neg hxu, if_neg hxu]
    split
    · rw [zero_sub]
    · rw [sub_zero]

/-- Potentials of the sending side, and the load they allow for. -/
def roomFor (P : LpMluRoute K) (R : Nat → Nat → Table K) : Var → K
  | .f u v i j => R u v i j
  | .lam u i j => ∑ v ∈ Finset.range P.nNode, R u v i j
  | .eta _ _ _ => 0
  | .mlu => ∑ i ∈ Finset.range P.nNode, ∑ j ∈ Finset.range P.nNode,
      (∑ u : P.Host, P.bwHost u * ∑ v ∈ Finset.range P.nNode, R u v i j) / P.capacity i j

/-- Unit flows for all pairs are a solution, with `mlu` large enough. -/
theorem roomFor_feasible (hP : P.NonNeg) (hrows : P.getRouting = .ok rows)
    {R : Nat → Nat → Table K} (hR : ∀ u v i j, 0 ≤ R u v i j)
    (hflow : ∀ u ∈ P.hosts, ∀ v ∈ P.peers u, UnitFlow P u v (R u v)) :
    P.Feasible rows (P.roomFor R) := by
  have hlam : ∀ u i j, 0 ≤ ∑ v ∈ Finset.range P.nNode, R u v i j := fun u i j =>
    Finset.sum_nonneg fun v _ => hR u v i j
  have hload : ∀ i j, 0 ≤ ∑ u : P.Host, P.bwHost u * ∑ v ∈ Finset.range P.nNode, R u v i j :=
    fun i j => Finset.sum_nonneg fun u _ => mul_nonneg (hP.bw u u.lt) (hlam u i j)
  have hterm : ∀ i ∈ Finset.range P.nNode, ∀ j ∈ Finset.range P.nNode,
      0 ≤ (∑ u : P.Host, P.bwHost u * ∑ v ∈ Finset.range P.nNode, R u v i j) / P.capacity i j :=
    fun i hi j hj => div_nonneg (hload i j)
      (hP.cap i (Finset.mem_range.mp hi) j (Finset.mem_range.mp hj))
  refine feasible_of_flows hrows hflow (fun u _ i j _ => ⟨hlam u i j, le_refl 0⟩) ?_ ?_ ?_
  · exact Finset.sum_nonneg fun i hi => Finset.sum_nonneg fun j hj => hterm i hi j hj
  · intro u _ v hv i j _
    have hvn := Finset.mem_range.mpr (mem_hosts.mp (mem_peers.mp hv).1).1
    show R u v i j ≤ ∑ v ∈ Finset.range P.nNode, R u v i j + 0
    rw [add_zero]
    exact Finset.single_le_sum (f := fun v => R u v i j) (fun w _ => hR u w i j) hvn
  · intro i j hlink
    have hi := Finset.mem_range.mpr hlink.src_lt
    have hrow := Finset.single_le_sum (hterm i hi) (Finset.mem_range.mpr hlink.dst_lt)
    have hall := Finset.single_le_sum
      (fun i hi => Finset.sum_nonneg fun j hj => hterm i hi j hj) hi
    rw [mluRow_holds_iff hP hlink, ← div_le_iff₀ (hlink.cap_pos hP)]
    simp only [roomFor, add_zero]
    exact hrow.trans hall

/-- **The program has a solution if and only if the hosts are connected.** For every fabric with
non-negative capacities for which `get_routing` builds its program: some assignment satisfies all rows
exactly if every switch with hosts can be reached from every other over links of non-zero capacity. -/
theorem feasible_iff_connected (P : LpMluRoute K) (hP : P.NonNeg) (rows : List (Row K))
    (hrows : P.getRouting = .ok rows) : (∃ a, P.Feasible rows a) ↔ P.Connected := by
  constructor
  · rintro ⟨a, ha⟩
    exact ha.connected hrows
  · intro hconn
    have hwalk : ∀ u v, ∃ T : Table K, (∀ i j, 0 ≤ T i j) ∧
        (u ∈ P.hosts → v ∈ P.peers u → UnitFlow P u v T) := by
      intro u v
      by_cases hpair : u ∈ P.hosts ∧ v ∈ P.peers u
      · obtain ⟨T, hT⟩ := exists_unitFlow (mem_peers.mp hpair.2).2 (hconn u hpair.1 v hpair.2)
        exact ⟨T, hT.nonneg, fun _ _ => hT⟩
      · exact ⟨fun _ _ => 0, fun _ _ => le_refl 0, fun hu hv => absurd ⟨hu, hv⟩ hpair⟩
    choose R hR hflow using hwalk
    exact ⟨P.roomFor R, roomFor_feasible hP hrows hR fun u hu v hv => hflow u v hu hv⟩

/-- Two switches of the three have hosts, and the third joins them. -/
def relay : LpMluRoute ℚ where
  nNode := 3
  bwHost u := if u = 1 then 0 else 1
  capacity i j := if i ≠ j ∧ (i = 1 ∨ j = 1) then 1 else 0

theorem feasible_iff_connected_relay : ∃ rows a, relay.getRouting = .ok rows ∧
    relay.Feasible rows a := by
  have hup : relay.Link 0 1 ∧ relay.Link 1 2 ∧ relay.Link 2 1 ∧ relay.Link 1 0 := by decide +kernel
  have hconn : relay.Connected := by
    intro u hu v hv
    have hcases : u = 0 ∧ v = 2 ∨ u = 2 ∧ v = 0 := by
      have hall : ∀ u ∈ relay.hosts, ∀ v ∈ relay.peers u, u = 0 ∧ v = 2 ∨ u = 2 ∧ v = 0 := by
        decide +kernel
      exact hall u hu v hv
    rcases hcases with ⟨rfl, rfl⟩ | ⟨rfl, rfl⟩
    · exact .tail (.tail .refl hup.1) hup.2.1
    · exact .tail (.tail .refl hup.2.2.1) hup.2.2.2
  obtain ⟨rows, hrows⟩ : ∃ rows, relay.getRouting = .ok rows :=
    ⟨(relay.getRouting.toOption).getD [], by decide +kernel⟩
  obtain ⟨a, ha⟩ := (feasible_iff_connected relay ⟨by decide +kernel, by decide +kernel⟩ rows
    hrows).mpr hconn
  exact ⟨rows, a, hrows, ha⟩

/-! ## §3 — solutions without circulations -/

/-- The solution with another routing. -/
def withRouting (a : Var → K) (R : Nat → Nat → Table K) : Var → K
  | .f u v i j => R u v i j
  | .lam u i j => a (.lam u i j)
  | .eta u i j => a (.eta u i j)
  | .mlu => a .mlu

/-- Below the routing of a pair there is an acyclic one. -/
theorem exists_acyclic_unitFlow {T : Table K} (hflow : UnitFlow P u v T) :
    ∃ T' : Table K, UnitFlow P u v T' ∧ (∀ i j, T' i j ≤ T i j) ∧
      ∀ x, ¬ Relation.TransGen (fun p q => 0 < T' p q) x x := by
  obtain ⟨T', hT', hnet, hacyclic⟩ := exists_acyclic_le (s := Finset.range P.nNode) hflow.nonneg
    fun p q h => ⟨Finset.mem_range.mpr (hflow.link p q h).src_lt,
      Finset.mem_range.mpr (hflow.link p q h).dst_lt⟩
  refine ⟨T', ⟨fun p q => (hT' p q).1, fun p q hne => ?_, fun x hx => ?_⟩, fun i j => (hT' i j).2,
    hacyclic⟩
  · apply hflow.link
    have hpos := lt_of_le_of_ne (hT' p q).1 hne.symm
    exact (hpos.trans_le (hT' p q).2).ne'
  · rw [hnet, hflow.conserved x hx]

omit [IsStrictOrderedRing K] in
/-- The rows keep holding for smaller unit flows. -/
theorem withRouting_feasible (hrows : P.getRouting = .ok rows) (ha : P.Feasible rows a)
    {R : Nat → Nat → Table K} (hflow : ∀ u ∈ P.hosts, ∀ v ∈ P.peers u, UnitFlow P u v (R u v))
    (hle : ∀ u ∈ P.hosts, ∀ v ∈ P.peers u, ∀ i j, R u v i j ≤ P.routing a u v i j) :
    P.Feasible rows (withRouting a R) := by
  refine feasible_of_flows hrows hflow (fun u hu i j hij => ?_) ?_ (fun u hu v hv i j hij => ?_) ?_
  · have hlam : Var.lam u i j ∈ P.dualVars .lam :=
      mem_dualVars.mpr ⟨u, hu, i, hij.src_lt, j, hij.mem_outs, rfl⟩
    have heta : Var.eta u i j ∈ P.dualVars .eta :=
      mem_dualVars.mpr ⟨u, hu, i, hij.src_lt, j, hij.mem_outs, rfl⟩
    exact ⟨ha.lower _ (by simp [vars, hlam]), ha.lower _ (by simp [vars, heta])⟩
  · exact ha.lower _ (by simp [vars])
  · have hrow : coverRow u v i j ∈ rows := (getRouting_ok hrows _).mpr
      (Or.inl ⟨u, hu, v, hv, i, hij.src_lt, Or.inl ⟨j, hij.mem_outs, rfl⟩⟩)
    have hcover := (coverRow_holds_iff a u v i j).mp (ha.rows _ hrow)
    have hentry : P.routing a u v i j = a (.f u v i j) := if_pos hij
    exact (hle u hu v hv i j).trans (hentry.le.trans hcover)
  · -- the utilisation rows do not mention the routing
    intro i j hij
    have hrow : P.mluRow i j ∈ rows :=
      (getRouting_ok hrows _).mpr (Or.inr ⟨i, hij.src_lt, j, hij.mem_outs, rfl⟩)
    have hholds := ha.rows _ hrow
    simp only [mluRow, Row.Holds, LinExpr.eval_ofVar, LinExpr.eval_scale, eval_mlExpr] at hholds ⊢
    exact hholds

/-- **Circulations are never needed.** For every solution of the program there is one with the same
`mlu` and no more flow of any pair on any link, in which the routing of each pair is acyclic; from it
`get_all_paths` makes a list of paths for every pair whose shares add up to the unit, but for `1e-5`
for each directed link. -/
theorem exists_acyclic_solution (P : LpMluRoute K) (rows : List (Row K))
    (hrows : P.getRouting = .ok rows) (a : Var → K) (ha : P.Feasible rows a) :
    ∃ a', P.Feasible rows a' ∧ a' .mlu = a .mlu ∧
      ∀ u ∈ P.hosts, ∀ v ∈ P.peers u,
        (∀ i j, P.Link i j → a' (.f u v i j) ≤ a (.f u v i j)) ∧
        (∀ x, ¬ Relation.TransGen (fun p q => 0 < P.routing a' u v p q) x x) ∧
        ∃ paths, getAllPaths P (P.routing a') u v = some paths ∧
          1 - P.nLink * tol ≤ total paths := by
  have hpair : ∀ u v, ∃ T : Table K, u ∈ P.hosts → v ∈ P.peers u → UnitFlow P u v T ∧
      (∀ i j, T i j ≤ P.routing a u v i j) ∧
      ∀ x, ¬ Relation.TransGen (fun p q => 0 < T p q) x x := by
    intro u v
    by_cases h : u ∈ P.hosts ∧ v ∈ P.peers u
    · obtain ⟨T, hT⟩ := exists_acyclic_unitFlow (unitFlow_of_feasible hrows ha h.1 h.2)
      exact ⟨T, fun _ _ => hT⟩
    · exact ⟨fun _ _ => 0, fun hu hv => absurd ⟨hu, hv⟩ h⟩
  choose R hR using hpair
  have hfeas := withRouting_feasible hrows ha (fun u hu v hv => (hR u v hu hv).1)
    fun u hu v hv => (hR u v hu hv).2.1
  refine ⟨withRouting a R, hfeas, rfl, fun u hu v hv => ?_⟩
  obtain ⟨hflow, hle, hfree⟩ := hR u v hu hv
  have htable : P.routing (withRouting a R) u v = R u v := hflow.routing_eq fun _ _ => rfl
  have hun := (mem_hosts.mp hu).1
  obtain ⟨hvh, huv⟩ := mem_peers.mp hv
  obtain ⟨paths, T', hret, hdecomp⟩ := getPaths_returns P v u 1 (fun _ => false) (R u v)
  refine ⟨fun i j hij => ?_, ?_, paths, ?_, ?_⟩
  · have hentry : P.routing a u v i j = a (.f u v i j) := if_pos hij
    exact (hle i j).trans hentry.le
  · rw [htable]
    exact hfree
  · rw [getAllPaths, if_pos ⟨hu, hv⟩, htable, hret _ (Nat.lt_succ_self _)]
    rfl
  · exact hflow.total_ge hun (mem_hosts.mp hvh).1 huv hfree hdecomp

theorem exists_acyclic_solution_twoSwitches :
    ∃ rows a', twoSwitches.getRouting = .ok rows ∧ twoSwitches.Feasible rows a' ∧ a' .mlu = 1 ∧
      ∃ paths, getAllPaths twoSwitches (twoSwitches.routing a') 0 1 = some paths ∧
        1 - twoSwitches.nLink * tol ≤ total paths := by
  obtain ⟨rows, hrows, hfeas⟩ := twoSwitches_feasible
  obtain ⟨a', ha', hmlu, hpairs⟩ :=
    exists_acyclic_solution twoSwitches rows hrows twoSwitchesDirect hfeas
  exact ⟨rows, a', hrows, ha', hmlu, (hpairs 0 (by decide +kernel) 1 (by decide +kernel)).2.2⟩

end LpMluRoute

end SDNware.Planner
