/-
# SDNware.Planner.Conserve — when `get_routing` gets its conservation rows built.

The variables `f[u][v][i][j]` are created for the directed links of non-zero capacity.  The loop that
builds the conservation row of a switch walks its outgoing links and takes `f[u][v][j][i]` off for each
of them, whether or not there is a link back.  Where there is none, the key is missing and the
construction stops; where every link has its reverse, walking the outgoing links meets every incoming
one, and the row is the one of flow conservation.

So the rows are right for all pairs and switches if and only if, as soon as there is a pair at all,
the support of the capacity matrix is symmetric (`conservationRows_iff`).
-/
import SDNware.Planner.Decompose

namespace SDNware.Planner

namespace LpMluRoute

variable {K : Type} [Field K] [LinearOrder K] {P : LpMluRoute K}

/-! ## §1 — a construction that does not raise -/

/-- With links both ways, the inner loop finds its keys. -/
theorem keys_of_links {u v i j : Nat} (hu : u ∈ P.hosts) (hv : v ∈ P.peers u) (hij : P.Link i j)
    (hji : P.Link j i) : P.Keys u v i j where
  out := mem_fVars.mpr ⟨u, hu, v, hv, i, hij.src_lt, j, hij.mem_outs, rfl⟩
  back := mem_fVars.mpr ⟨u, hu, v, hv, j, hji.src_lt, i, hji.mem_outs, rfl⟩
  lam := mem_dualVars.mpr ⟨u, hu, i, hij.src_lt, j, hij.mem_outs, rfl⟩
  eta := mem_dualVars.mpr ⟨v, (mem_peers.mp hv).1, i, hij.src_lt, j, hij.mem_outs, rfl⟩

/-- **No missing variable.**  The construction returns if and only if every link has its reverse, as
soon as two switches have hosts. -/
theorem getRouting_returns_iff :
    (∃ rows, P.getRouting = .ok rows) ↔
      ∀ u ∈ P.hosts, ∀ v ∈ P.peers u, ∀ i j, P.Link i j → P.Link j i := by
  constructor
  · rintro ⟨rows, hrows⟩ u hu v hv i j hij
    exact hij.back hrows hu hv
  · intro hback
    apply getRouting_returns_iff_keys.mpr
    intro u hu v hv i hi j hj
    obtain ⟨hlt, hne, hcap⟩ := mem_outs.mp hj
    have hij : P.Link i j := ⟨hi, hlt, hne, hcap⟩
    exact keys_of_links hu hv hij (hback u hu v hv i j hij)

/-- The condition on the pairs, said of the fabric. -/
theorem linksBack_iff :
    (∀ u ∈ P.hosts, ∀ v ∈ P.peers u, ∀ i j, P.Link i j → P.Link j i) ↔
      (∀ u ∈ P.hosts, P.peers u = []) ∨ ∀ i j, P.Link i j → P.Link j i := by
  constructor
  · intro h
    by_cases hnone : ∀ u ∈ P.hosts, P.peers u = []
    · exact .inl hnone
    · push Not at hnone
      obtain ⟨u, hu, hne⟩ := hnone
      obtain ⟨v, hv⟩ := List.exists_mem_of_ne_nil _ hne
      exact .inr (h u hu v hv)
  · rintro (hnone | hback) u hu v hv
    · rw [hnone u hu] at hv
      exact absurd hv List.not_mem_nil
    · exact hback

/-! ## §2 — the rows -/

/-- Flow conservation of the pair `(u, v)` at the switch `i`: what goes out over links of non-zero
capacity less what comes in, and less 1 at `u` and -1 at `v`. -/
def IsConservation (P : LpMluRoute K) (u v i : Nat) (e : LinExpr K) : Prop :=
  ∀ a : Var → K, e.eval a
    = ∑ j ∈ Finset.range P.nNode with P.Link i j, a (.f u v i j)
      - ∑ j ∈ Finset.range P.nNode with P.Link j i, a (.f u v j i)
      - if i = u then 1 else if i = v then -1 else 0

/-- With links both ways the expression of the inner loop is that of flow conservation. -/
theorem isConservation_closeRouter (hback : ∀ i j, P.Link i j → P.Link j i) (u v : Nat) {i : Nat}
    (hi : i < P.nNode) :
    P.IsConservation u v i (closeRouter u v i (routerExpr u v i LinExpr.zero (P.outs i))) := by
  intro a
  have hnet := net_routing_eq (a := a) (u := u) (v := v) hback hi
  unfold net routing at hnet
  rw [eval_closeRouter, eval_routerExpr, LinExpr.eval_zero, zero_add, ← hnet, Finset.sum_filter,
    Finset.sum_filter]

/-- **The conservation rows.**  `get_routing` builds, without a missing variable, the conservation row
of every pair of switches with hosts at every switch if and only if there is no such pair or every
link of non-zero capacity has one back. -/
theorem conservationRows_iff (P : LpMluRoute K) :
    (∃ rows, P.getRouting = .ok rows ∧ ∀ u ∈ P.hosts, ∀ v ∈ P.peers u, ∀ i < P.nNode,
        ∃ e, Row.eq e LinExpr.zero ∈ rows ∧ P.IsConservation u v i e) ↔
      (∀ u ∈ P.hosts, P.peers u = []) ∨ ∀ i j, P.Link i j → P.Link j i := by
  rw [← linksBack_iff, ← getRouting_returns_iff]
  constructor
  · rintro ⟨rows, hrows, -⟩
    exact ⟨rows, hrows⟩
  · rintro ⟨rows, hrows⟩
    refine ⟨rows, hrows, fun u hu v hv i hi => ?_⟩
    exact ⟨closeRouter u v i (routerExpr u v i LinExpr.zero (P.outs i)),
      (getRouting_ok hrows _).mpr (.inl ⟨u, hu, v, hv, i, hi, .inr rfl⟩),
      isConservation_closeRouter (fun _ _ hij => hij.back hrows hu hv) u v hi⟩

/-- Two switches with hosts and a link one way only. -/
def oneWay : LpMluRoute ℚ := ⟨2, fun _ => 1, fun i j => if i = 0 ∧ j = 1 then 1 else 0⟩

/-- The construction stops at the variable of the missing reverse. -/
theorem getRouting_oneWay :
    (∀ i j, 0 ≤ oneWay.capacity i j) ∧ 1 ∈ oneWay.peers 0 ∧
      oneWay.getRouting = .error (.missing (.f 0 1 1 0)) := by
  refine ⟨fun i j => ?_, by decide +kernel, rfl⟩
  unfold oneWay
  simp only
  split <;> decide

end LpMluRoute

end SDNware.Planner
