/-
# SDNware.Planner.Guarantee — from the linear program to the installed routes.

The program of `get_routing` bounds the load of every link for traffic that is split over the links in
any proportion.  What `get_s_to_d_routing` installs is one path for each server and destination switch.
Between the two stand `get_all_paths`, which loses a little of every pair's unit, and the assignment of
whole servers to shares of a path, which rounds.

Here the three are put together.  The routes of a pair cross a link as often as its paths do, each path
counted `⌈n·f⌉` times for a share `f` and `n` servers (`passes_le`), because what `get_paths` loses is
too little to leave a server without a share.  The shares over a link are within the solution's entry,
so under every traffic matrix within the host bandwidths, of which no server has more than an equal
part of its switch's, the installed routes load a link by at most `mlu` times its capacity and what is
added by rounding up to whole servers (`installed_load_le`).  Where every share is a whole number of
servers nothing is added.
-/
import Mathlib.Data.Rat.Floor
import SDNware.Lib.Loops
import SDNware.Planner.Loss
import SDNware.Planner.Ports

namespace SDNware.Planner

open LpMluRoute

variable {K : Type} [Field K] [LinearOrder K]

/-! ## §1 — loads of routes -/

/-- How often a route crosses the link. -/
def Route.passes (r : Route K) (i j : Nat) : Nat := (r.hops.map Hop.arc).count (i, j)

/-- The load of the link when server `uI` of switch `u` sends `d u uI v` to the servers of `v`. -/
def Plan.load (plan : Plan K) (d : Nat → Nat → Nat → K) (i j : Nat) : K :=
  (plan.routes.map fun r => (r.passes i j : K) * d r.u r.uI r.v).sum

section Rounding

variable [FloorRing K]

/-- How many of `n` servers cross the link when every share gets whole servers. -/
def wholeServers (n : Nat) (paths : List (Share K)) (i j : Nat) : K :=
  (paths.map fun s => ((pathArcs s.1).count (i, j) : K) * (⌈(n : K) * s.2⌉ : K)).sum

/-- What rounding up to whole servers adds. -/
def rounding (n : Nat) (paths : List (Share K)) (i j : Nat) : K :=
  (paths.map fun s => ((pathArcs s.1).count (i, j) : K) * ((⌈(n : K) * s.2⌉ : K) - n * s.2)).sum

theorem wholeServers_eq (n : Nat) (paths : List (Share K)) (i j : Nat) :
    wholeServers n paths i j = n * crossings paths i j + rounding n paths i j := by
  unfold wholeServers rounding
  induction paths with
  | nil => simp
  | cons s paths ih =>
    rw [List.map_cons, List.sum_cons, List.map_cons, List.sum_cons, crossings_cons, ih]
    ring

end Rounding

/-! ## §2 — the routes of a pair -/

section Pair

variable {F : Fabric K} {rand : Nat → Nat} {links : Links K} {paths : Nat → Nat → List (Share K)}
  {plan : Plan K} {u v i j : Nat}

/-- How often path `p` crosses the link. -/
def passesAt (paths : List (Share K)) (i j p : Nat) : Nat :=
  ((paths[p]?).map fun s => (pathArcs s.1).count (i, j)).getD 0

omit [LinearOrder K] [Field K] in
/-- A route crosses the link as often as the path it follows. -/
theorem Follows.passes (hf : Follows paths plan) {r : Route K} (hr : r ∈ plan.routes) :
    r.idx < (paths r.u r.v).length ∧ r.passes i j = passesAt (paths r.u r.v) i j r.idx := by
  obtain ⟨path, hpath, hhops⟩ := hf.arcs r hr
  rw [List.getElem?_map] at hpath
  obtain ⟨s, hs, rfl⟩ := Option.map_eq_some_iff.mp hpath
  constructor
  · exact (List.getElem?_eq_some_iff.mp hs).1
  · rw [Route.passes, hhops, passesAt, hs]
    rfl

omit [LinearOrder K] in
theorem sum_passes_eq (hf : Follows paths plan) :
    ((plan.routes.filter fun r => r.u = u ∧ r.v = v).map fun r => (r.passes i j : K)).sum
      = ((pairPicks plan.routes u v).map fun p => (passesAt (paths u v) i j p : K)).sum := by
  unfold pairPicks
  rw [List.map_map]
  refine congrArg List.sum (List.map_congr_left fun r hr => ?_)
  obtain ⟨hmem, hpair⟩ := List.mem_filter.mp hr
  obtain ⟨rfl, rfl⟩ := of_decide_eq_true hpair
  rw [Function.comp_apply, (hf.passes hmem).2]

omit [LinearOrder K] [Field K] in
theorem lt_length_of_mem_pairPicks (hf : Follows paths plan) {p : Nat}
    (hp : p ∈ pairPicks plan.routes u v) : p < (paths u v).length := by
  obtain ⟨r, hr, rfl⟩ := List.mem_map.mp hp
  obtain ⟨hmem, hpair⟩ := List.mem_filter.mp hr
  obtain ⟨rfl, rfl⟩ := of_decide_eq_true hpair
  exact (hf.passes (i := 0) (j := 0) hmem).1

variable [IsStrictOrderedRing K] [FloorRing K]

/-- **The routes of a pair cross a link as its rounded shares do**, if the shares leave something for
every server. -/
theorem passes_le (hplan : F.getSToDRouting rand links paths = some plan)
    (hnonneg : ∀ s ∈ paths u v, 0 ≤ s.2)
    (henough : ((F.server u).length : K) < (F.server u).length * total (paths u v) + 1) :
    ((plan.routes.filter fun r => r.u = u ∧ r.v = v).map fun r => (r.passes i j : K)).sum
      ≤ wholeServers (F.server u).length (paths u v) i j := by
  have hf := follows_of_run hplan
  obtain ⟨-, hpicks⟩ := run_picks hplan u v
  have hturns := countP_jobs_le (F := F) (List.prefix_refl _) u v
  have hcount : ∀ p, ((pairPicks plan.routes u v).count p : K)
      ≤ (⌈((F.server u).length : K) * shareAt (paths u v) p⌉ : K) := by
    intro p
    have hturns' : ((F.jobs.countP (Job.OfPair u v ·) : Nat) : K) ≤ (F.server u).length := by
      exact_mod_cast hturns
    have hlt := count_picks_lt_of_lt_total hnonneg (hturns'.trans_lt henough) p
    rw [← hpicks, ← sub_lt_iff_lt_add] at hlt
    have hceil : (((pairPicks plan.routes u v).count p : ℤ) - 1)
        < ⌈((F.server u).length : K) * shareAt (paths u v) p⌉ := by
      rw [Int.lt_ceil]
      push_cast
      exact hlt
    exact_mod_cast Int.sub_one_lt_iff.mp hceil
  have hshare : ∀ p, 0 ≤ (⌈((F.server u).length : K) * shareAt (paths u v) p⌉ : K) := by
    intro p
    exact (Nat.cast_nonneg _).trans (hcount p)
  rw [sum_passes_eq hf, Finset.sum_list_map_count]
  calc ∑ p ∈ (pairPicks plan.routes u v).toFinset,
        (pairPicks plan.routes u v).count p • (passesAt (paths u v) i j p : K)
      ≤ ∑ p ∈ (pairPicks plan.routes u v).toFinset, (passesAt (paths u v) i j p : K) *
          (⌈((F.server u).length : K) * shareAt (paths u v) p⌉ : K) := by
        refine Finset.sum_le_sum fun p _ => ?_
        rw [nsmul_eq_mul, mul_comm]
        exact mul_le_mul_of_nonneg_left (hcount p) (Nat.cast_nonneg _)
    _ ≤ ∑ p ∈ Finset.range (paths u v).length, (passesAt (paths u v) i j p : K) *
          (⌈((F.server u).length : K) * shareAt (paths u v) p⌉ : K) := by
        refine Finset.sum_le_sum_of_subset_of_nonneg (fun p hp => ?_) fun p _ _ => ?_
        · exact Finset.mem_range.mpr (lt_length_of_mem_pairPicks hf (List.mem_toFinset.mp hp))
        · exact mul_nonneg (Nat.cast_nonneg _) (hshare p)
    _ = wholeServers (F.server u).length (paths u v) i j := by
        unfold wholeServers
        rw [Loops.sum_map_eq_sum_range]
        refine Finset.sum_congr rfl fun p _ => ?_
        unfold passesAt shareAt
        cases (paths u v)[p]? with
        | none => simp
        | some s => rfl

end Pair

/-! ## §3 — the paths of a pair of the solution -/

section Solved

variable [IsStrictOrderedRing K] {P : LpMluRoute K} {rows : List (Row K)} {a : Var → K}
  {u v i j : Nat} {paths : List (Share K)}

/-- The paths `get_all_paths` makes of a solution: paths from `u` to `v` with positive shares, which
lose at most the tolerance for each link of the fabric and stay within the solution's entry over every
link. -/
structure Decomposes (P : LpMluRoute K) (a : Var → K) (u v : Nat) (paths : List (Share K)) : Prop where
  path : ∀ s ∈ paths, IsPath P u v s.1 ∧ 0 < s.2
  total_ge : 1 - P.nLink * tol ≤ total paths
  crossings_le : ∀ i j, P.Link i j → crossings paths i j ≤ a (.f u v i j)

theorem decomposes_of_getAllPaths (hrows : P.getRouting = .ok rows) (ha : P.Feasible rows a)
    (hu : u ∈ P.hosts) (hv : v ∈ P.peers u)
    (hacyclic : ∀ x, ¬ Relation.TransGen (fun p q => 0 < P.routing a u v p q) x x)
    (hpaths : getAllPaths P (P.routing a) u v = some paths) : Decomposes P a u v paths := by
  have hun := (mem_hosts.mp hu).1
  obtain ⟨hvh, huv⟩ := mem_peers.mp hv
  have hvn := (mem_hosts.mp hvh).1
  have hflow := unitFlow_of_feasible hrows ha hu hv
  rw [getAllPaths, if_pos ⟨hu, hv⟩] at hpaths
  obtain ⟨⟨paths', T'⟩, hret, rfl⟩ := Option.map_eq_some_iff.mp hpaths
  have hdecomp := decomp_of_getPaths hret
  have hwithin := within_of_decomp hdecomp hun (fun k hk => List.mem_range.mp hk) zero_le_one
    fun _ => zero_lt_one
  refine ⟨hwithin.path, ?_, fun i j hij => ?_⟩
  · exact hflow.total_ge hun hvn huv hacyclic hdecomp
  · have hle := hwithin.crossings_le i j
    have hleft := hwithin.nonneg i j (hflow.nonneg i j)
    have hentry : P.routing a u v i j = a (.f u v i j) := if_pos hij
    rw [hentry] at hle
    linarith

/-- Fewer servers than the loss could starve: each finds something left of the shares. -/
theorem Decomposes.enough (h : Decomposes P a u v paths) {n : Nat} (hn : n * P.nLink < 100000) :
    (n : K) < n * total paths + 1 := by
  have hcast : (n : K) * P.nLink < 100000 := by exact_mod_cast hn
  have hloss : (n : K) * (P.nLink * tol) < 1 := by
    unfold tol
    linarith
  have hmul := mul_le_mul_of_nonneg_left h.total_ge (Nat.cast_nonneg (α := K) n)
  rw [mul_sub, mul_one] at hmul
  linarith

end Solved

/-! ## §4 — the load of the installed routes -/

section Load

variable {F : Fabric K} {rand : Nat → Nat} {links : Links K} {paths : Nat → Nat → List (Share K)}
  {plan : Plan K}

/-- The pairs of the routes are pairs of switches with hosts. -/
theorem route_pair (hplan : F.getSToDRouting rand links paths = some plan) {r : Route K}
    (hr : r ∈ plan.routes) : r.u ∈ F.lp.hosts ∧ r.v ∈ F.lp.peers r.u := by
  have hjobs : plan.routes.map Route.job = F.jobs := run_jobs hplan
  have hmem : r.job ∈ F.jobs := by
    rw [← hjobs]
    exact List.mem_map_of_mem hr
  obtain ⟨hu, -, hv⟩ := mem_jobs.mp hmem
  exact ⟨hu, hv⟩

variable [IsStrictOrderedRing K]

/-- The load, pair by pair, if no server has more than an equal part of its switch's traffic. -/
theorem load_le_sum_pairs (hplan : F.getSToDRouting rand links paths = some plan)
    (T : Nat → Nat → K) (d : Nat → Nat → Nat → K)
    (hd : ∀ u uI v, d u uI v ≤ T u v / (F.server u).length) (i j : Nat) :
    plan.load d i j ≤ ∑ u ∈ Finset.range F.lp.nNode, ∑ v ∈ Finset.range F.lp.nNode,
      T u v / (F.server u).length *
        ((plan.routes.filter fun r => r.u = u ∧ r.v = v).map fun r => (r.passes i j : K)).sum := by
  have hkey : ∀ r ∈ plan.routes,
      (r.u, r.v) ∈ Finset.range F.lp.nNode ×ˢ Finset.range F.lp.nNode := by
    intro r hr
    obtain ⟨hu, hv⟩ := route_pair hplan hr
    have hvh := (mem_peers.mp hv).1
    exact Finset.mem_product.mpr ⟨Finset.mem_range.mpr (mem_hosts.mp hu).1,
      Finset.mem_range.mpr (mem_hosts.mp hvh).1⟩
  have heven : plan.load d i j ≤ (plan.routes.map fun r =>
      T r.u r.v / (F.server r.u).length * (r.passes i j : K)).sum := by
    refine List.sum_le_sum fun r _ => ?_
    rw [mul_comm]
    exact mul_le_mul_of_nonneg_right (hd r.u r.uI r.v) (Nat.cast_nonneg _)
  refine heven.trans_eq ?_
  rw [Loops.sum_map_eq_sum_filter (fun r : Route K => (r.u, r.v)) _ hkey, Finset.sum_product]
  refine Finset.sum_congr rfl fun u _ => Finset.sum_congr rfl fun v _ => ?_
  rw [← List.sum_map_mul_left]
  have hfilter : (plan.routes.filter fun r => (r.u, r.v) = (u, v))
      = plan.routes.filter fun r => r.u = u ∧ r.v = v :=
    List.filter_congr fun r _ => decide_eq_decide.mpr Prod.mk_inj
  rw [hfilter]
  refine congrArg List.sum (List.map_congr_left fun r hr => ?_)
  obtain ⟨rfl, rfl⟩ := of_decide_eq_true (List.mem_filter.mp hr).2
  rfl

variable [FloorRing K] {rows : List (Row K)} {a : Var → K}

/-- One pair: its traffic along the routes against its traffic along the solution. -/
theorem pair_load_le (hplan : F.getSToDRouting rand links paths = some plan) {u v i j : Nat}
    (hdec : Decomposes F.lp a u v (paths u v)) (hn : (F.server u).length * F.lp.nLink < 100000)
    (hij : F.lp.Link i j) (hf : 0 ≤ a (.f u v i j)) {t : K} (ht : 0 ≤ t) :
    t / (F.server u).length *
        ((plan.routes.filter fun r => r.u = u ∧ r.v = v).map fun r => (r.passes i j : K)).sum
      ≤ t * a (.f u v i j)
        + t / (F.server u).length * rounding (F.server u).length (paths u v) i j := by
  have hpasses := passes_le (i := i) (j := j) hplan (fun s hs => (hdec.path s hs).2.le) (hdec.enough hn)
  have hpart : 0 ≤ t / ((F.server u).length : K) := div_nonneg ht (Nat.cast_nonneg _)
  refine (mul_le_mul_of_nonneg_left hpasses hpart).trans ?_
  rw [wholeServers_eq, mul_add]
  apply add_le_add_left
  by_cases hzero : ((F.server u).length : K) = 0
  · rw [hzero, div_zero, zero_mul]
    exact mul_nonneg ht hf
  · rw [← mul_assoc, div_mul_cancel₀ t hzero]
    exact mul_le_mul_of_nonneg_left (hdec.crossings_le i j hij) ht

/-- The data of a run that has got its paths from a solution, with fewer than `100000` directed links
for each server of a switch. -/
structure Solved (F : Fabric K) (rows : List (Row K)) (a : Var → K)
    (paths : Nat → Nat → List (Share K)) : Prop where
  rows_eq : F.lp.getRouting = .ok rows
  feasible : F.lp.Feasible rows a
  decomposes : ∀ u ∈ F.lp.hosts, ∀ v ∈ F.lp.peers u, Decomposes F.lp a u v (paths u v)
  size : ∀ u ∈ F.lp.hosts, (F.server u).length * F.lp.nLink < 100000

/-- The traffic of the pairs along the routes, against the same traffic along the solution. -/
theorem Solved.load_le (h : Solved F rows a paths) (hP : F.lp.NonNeg)
    (hplan : F.getSToDRouting rand links paths = some plan)
    {T : Nat → Nat → K} (hT : HoseTraffic F.lp T) {d : Nat → Nat → Nat → K}
    (hd : ∀ u uI v, d u uI v ≤ T u v / (F.server u).length) {i j : Nat} (hij : F.lp.Link i j) :
    plan.load d i j ≤ a .mlu * F.lp.capacity i j +
      ∑ u ∈ Finset.range F.lp.nNode, ∑ v ∈ Finset.range F.lp.nNode,
        T u v / (F.server u).length * rounding (F.server u).length (paths u v) i j := by
  have hcell : ∀ u < F.lp.nNode, ∀ v < F.lp.nNode, T u v / (F.server u).length *
        ((plan.routes.filter fun r => r.u = u ∧ r.v = v).map fun r => (r.passes i j : K)).sum
      ≤ (if u ≠ v then T u v * a (.f u v i j) else 0)
        + T u v / (F.server u).length * rounding (F.server u).length (paths u v) i j := by
    intro u hu v hv
    by_cases hzero : T u v = 0
    · simp [hzero]
    · have huv : u ≠ v := by
        rintro rfl
        exact hzero (hT.diag u hu)
      obtain ⟨hbu, hbv⟩ := hT.supp u hu v hv hzero
      have hhost : u ∈ F.lp.hosts := mem_hosts.mpr ⟨hu, hbu⟩
      have hpeer : v ∈ F.lp.peers u := mem_peers.mpr ⟨mem_hosts.mpr ⟨hv, hbv⟩, huv⟩
      have hvar : Var.f u v i j ∈ F.lp.fVars :=
        mem_fVars.mpr ⟨u, hhost, v, hpeer, i, hij.src_lt, j, hij.mem_outs, rfl⟩
      rw [if_pos huv]
      exact pair_load_le hplan (h.decomposes u hhost v hpeer) (h.size u hhost) hij
        (h.feasible.lower _ (by simp [vars, hvar])) (hT.nonneg u hu v hv)
  have hlp := h.feasible.load_le hP h.rows_eq T hT i j hij
  calc plan.load d i j
      ≤ ∑ u ∈ Finset.range F.lp.nNode, ∑ v ∈ Finset.range F.lp.nNode, T u v / (F.server u).length *
          ((plan.routes.filter fun r => r.u = u ∧ r.v = v).map fun r => (r.passes i j : K)).sum :=
        load_le_sum_pairs hplan T d hd i j
    _ ≤ ∑ u ∈ Finset.range F.lp.nNode, ∑ v ∈ Finset.range F.lp.nNode,
          ((if u ≠ v then T u v * a (.f u v i j) else 0)
            + T u v / (F.server u).length * rounding (F.server u).length (paths u v) i j) :=
        Finset.sum_le_sum fun u hu => Finset.sum_le_sum fun v hv =>
          hcell u (Finset.mem_range.mp hu) v (Finset.mem_range.mp hv)
    _ = F.lp.linkLoad (fun u v i j => a (.f u v i j)) T i j +
          ∑ u ∈ Finset.range F.lp.nNode, ∑ v ∈ Finset.range F.lp.nNode,
            T u v / (F.server u).length * rounding (F.server u).length (paths u v) i j := by
        unfold linkLoad
        simp only [Finset.sum_add_distrib]
    _ ≤ _ := by
        apply add_le_add_left
        exact hlp

/-- **What the planner installs keeps the promise of its linear program.** For every fabric with
non-negative capacities, every solution of the program whose routing is acyclic for each pair, with
fewer than `100000` directed links for each server of a switch, and whatever ports are drawn: under
every traffic matrix within the host bandwidths, of which no server has more than an equal part of its
switch's traffic, the installed routes load a link by at most `mlu` times its capacity, and what
rounding shares up to whole servers adds. -/
theorem installed_load_le (F : Fabric K) (hP : F.lp.NonNeg) (rows : List (Row K))
    (hrows : F.lp.getRouting = .ok rows) (a : Var → K) (ha : F.lp.Feasible rows a)
    (hacyclic : ∀ u ∈ F.lp.hosts, ∀ v ∈ F.lp.peers u,
      ∀ x, ¬ Relation.TransGen (fun p q => 0 < F.lp.routing a u v p q) x x)
    (hn : ∀ u ∈ F.lp.hosts, (F.server u).length * F.lp.nLink < 100000)
    (paths : Nat → Nat → List (Share K))
    (hpaths : ∀ u ∈ F.lp.hosts, ∀ v ∈ F.lp.peers u,
      getAllPaths F.lp (F.lp.routing a) u v = some (paths u v))
    (rand : Nat → Nat) (links : Links K) (plan : Plan K)
    (hplan : F.getSToDRouting rand links paths = some plan)
    (T : Nat → Nat → K) (hT : HoseTraffic F.lp T) (d : Nat → Nat → Nat → K)
    (hd : ∀ u uI v, d u uI v ≤ T u v / (F.server u).length) (i j : Nat) (hij : F.lp.Link i j) :
    plan.load d i j ≤ a .mlu * F.lp.capacity i j +
      ∑ u ∈ Finset.range F.lp.nNode, ∑ v ∈ Finset.range F.lp.nNode,
        T u v / (F.server u).length * rounding (F.server u).length (paths u v) i j := by
  have hsolved : Solved F rows a paths := ⟨hrows, ha, fun u hu v hv =>
    decomposes_of_getAllPaths hrows ha hu hv (hacyclic u hu v hv) (hpaths u hu v hv), hn⟩
  exact hsolved.load_le hP hplan hT hd hij

end Load

/-- Each pair of leaves half over each spine. -/
def leafSpineSplit : Var → ℚ
  | .f u v i j => if u ≠ v ∧ (i = u ∧ 2 ≤ j ∨ 2 ≤ i ∧ j = v) then 1 / 2 else 0
  | .lam u i j => if i = u ∨ 2 ≤ i ∧ j ≠ u then 1 / 2 else 0
  | .eta _ _ _ => 0
  | .mlu => 1

/-- All of the host bandwidth from each leaf to the other. -/
def leafSpineTraffic (u v : Nat) : ℚ := if u < 2 ∧ v < 2 ∧ u ≠ v then 200 else 0

theorem leafSpineSplit_acyclic {u v : Nat} (hu : u ∈ leafSpine.lp.hosts)
    (hv : v ∈ leafSpine.lp.peers u) (x : Nat) :
    ¬ Relation.TransGen (fun p q => 0 < leafSpine.lp.routing leafSpineSplit u v p q) x x := by
  have hstep : ∀ u ∈ leafSpine.lp.hosts, ∀ v ∈ leafSpine.lp.peers u, ∀ p < 4, ∀ q < 4,
      0 < leafSpine.lp.routing leafSpineSplit u v p q →
        (if p = u then 0 else if p = v then 2 else 1)
          < if q = u then 0 else if q = v then 2 else 1 := by
    decide +kernel
  have hup : ∀ p q, Relation.TransGen
      (fun p q => 0 < leafSpine.lp.routing leafSpineSplit u v p q) p q →
        (if p = u then 0 else if p = v then 2 else 1)
          < if q = u then 0 else if q = v then 2 else 1 := by
    have hone : ∀ p q, 0 < leafSpine.lp.routing leafSpineSplit u v p q →
        (if p = u then 0 else if p = v then 2 else 1)
          < if q = u then 0 else if q = v then 2 else 1 := by
      intro p q h
      by_cases hlink : leafSpine.lp.Link p q
      · exact hstep u hu v hv p hlink.src_lt q hlink.dst_lt h
      · rw [routing, if_neg hlink] at h
        exact absurd h (lt_irrefl 0)
    intro p q h
    induction h with
    | single h => exact hone _ _ h
    | tail _ h ih => exact ih.trans (hone _ _ h)
  intro h
  exact lt_irrefl _ (hup x x h)

/-- Two servers to a leaf and half a unit over each spine: one server each, and nothing is added. -/
theorem installed_load_le_leafSpine :
    ∃ rows plan, leafSpine.lp.getRouting = .ok rows ∧ leafSpine.lp.Feasible rows leafSpineSplit ∧
      leafSpine.getSToDRouting id leafSpineLinks leafSpinePaths = some plan ∧
      plan.load (fun u _ v => leafSpineTraffic u v / (leafSpine.server u).length) 0 2
        ≤ leafSpineSplit .mlu * leafSpine.lp.capacity 0 2 := by
  obtain ⟨rows, hrows, hfeas⟩ : ∃ rows, leafSpine.lp.getRouting = .ok rows ∧
      leafSpine.lp.Feasible rows leafSpineSplit :=
    ⟨(leafSpine.lp.getRouting.toOption).getD [], by decide +kernel,
      ⟨by decide +kernel, by decide +kernel⟩⟩
  obtain ⟨plan, hplan⟩ := Option.isSome_iff_exists.mp
    (show (leafSpine.getSToDRouting id leafSpineLinks leafSpinePaths).isSome by decide +kernel)
  have hT : HoseTraffic leafSpine.lp leafSpineTraffic :=
    ⟨by decide +kernel, by decide +kernel, by decide +kernel, by decide +kernel, by decide +kernel⟩
  have hload := installed_load_le leafSpine ⟨by decide +kernel, by decide +kernel⟩ rows hrows
    leafSpineSplit hfeas (fun u hu v hv => leafSpineSplit_acyclic hu hv) (by decide +kernel)
    leafSpinePaths (by decide +kernel) id leafSpineLinks plan hplan leafSpineTraffic hT
    (fun u _ v => leafSpineTraffic u v / (leafSpine.server u).length) (fun _ _ _ => le_refl _) 0 2
    (by decide +kernel)
  have hnone : ∑ u ∈ Finset.range leafSpine.lp.nNode, ∑ v ∈ Finset.range leafSpine.lp.nNode,
      leafSpineTraffic u v / (leafSpine.server u).length
        * rounding (leafSpine.server u).length (leafSpinePaths u v) 0 2 = 0 := by
    decide +kernel
  rw [hnone, add_zero] at hload
  exact ⟨rows, plan, hrows, hfeas, hplan, hload⟩

end SDNware.Planner
