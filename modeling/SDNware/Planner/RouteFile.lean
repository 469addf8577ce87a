/-
# SDNware.Planner.RouteFile — from the topology files to `route.txt` and back.

`SDNroute.py` writes `switch.txt` and `topo.txt`, builds `lp_mlu_route(n_node)` from them and from the
operator's `server.txt`, solves it, calls `main` and loads `route.txt` into `nonblocking.routing`.
`main` does not write the routing that was solved: it builds and solves `lp_mlu_route(4)` from the
same files and writes that one.

* Reading the files for `n` switches either raises or yields a model in which `n` occurs as the number
  of switches only (`lpInit_eq_ok_iff`); it raises exactly if an index of the files is out of range.
* Two numbers of switches for which the files can be read give models with the same variables and the
  same solutions: the larger one has trivial rows more (`holds_rows_of_fits`).
* What is written from a solution of a model is read back as that solution (`readRoute_routeLines`).

So the routing that is loaded is the routing that was solved if and only if every index of the files
is below 4 (`loaded_eq_solved_iff`); beyond that `main` raises and nothing is loaded.

The files are taken as what their lines parse to, and numbers are written and read exactly.
-/
import SDNware.Lib.Loops
import SDNware.Planner.Assign
import SDNware.Planner.Conserve

namespace SDNware.Planner

open LpMluRoute
open SDNware.Server (Device)

/-! ## §1 — the source -/

/-- `switch.txt`, `topo.txt` and `server.txt`: the names, the capacities of pairs of indices, and for
every section its name and the bandwidths of its servers. -/
structure Files (K : Type) where
  switchs : List String
  topo : List ((Nat × Nat) × K)
  servers : List (String × List K)

/-- An exception of `routesolve.py` or of the reader of `route.txt`: an index out of range, an unknown
name, a missing variable, `None[mlu_v]`, a missing entry of `routing`. -/
inductive RouteError
  | index (i : Nat)
  | name (sw : String)
  | missing (key : KeyError)
  | unsolved
  | entry (u v i : Nat)
  deriving DecidableEq

/-- A line of `route.txt`. -/
structure RouteLine (K : Type) where
  u : Nat
  v : Nat
  i : Nat
  j : Nat
  f : K

def RouteLine.key {K : Type} (line : RouteLine K) : Nat × Nat × Nat × Nat :=
  (line.u, line.v, line.i, line.j)

/-- `routing[u][v][i][j]`, where there is such an entry. -/
abbrev Routing (K : Type) := Nat × Nat × Nat × Nat → Option K

/-- `model.solve()` of the variables and the rows. -/
abbrev Solver (K : Type) := List Var → List (Row K) → Option (Var → K)

section Source

variable {K : Type} [Field K] [LinearOrder K]

namespace Files

/-- `switchs[sw]`: the last line with that name. -/
def switchIdx (F : Files K) : String → Option Nat :=
  F.switchs.zipIdx.foldl (fun d line => Function.update d line.1 (some line.2)) fun _ => none

/-- `capacity[i][j] = c`. -/
def setCapacity (n : Nat) (capacity : Nat × Nat → K) (line : (Nat × Nat) × K) :
    Except RouteError (Nat × Nat → K) :=
  if line.1.1 < n then
    if line.1.2 < n then .ok (Function.update capacity line.1 line.2)
    else .error (.index line.1.2)
  else .error (.index line.1.1)

/-- `bw_host[switchs[sw]] += bw`. -/
def addServer (F : Files K) (n : Nat) (sw : String) (bwHost : Nat → K) (bw : K) :
    Except RouteError (Nat → K) :=
  match F.switchIdx sw with
  | none => .error (.name sw)
  | some i =>
    if i < n then .ok (Function.update bwHost i (bwHost i + bw)) else .error (.index i)

/-- The servers of one section. -/
def addListing (F : Files K) (n : Nat) (bwHost : Nat → K) (listing : String × List K) :
    Except RouteError (Nat → K) :=
  listing.2.foldlM (F.addServer n listing.1) bwHost

/-- `lp_mlu_route.__init__`. -/
def lpInit (F : Files K) (n : Nat) : Except RouteError (LpMluRoute K) := do
  let capacity ← F.topo.foldlM (setCapacity n) fun _ => 0
  let bwHost ← F.servers.foldlM (F.addListing n) fun _ => 0
  return ⟨n, bwHost, fun i j => capacity (i, j)⟩

end Files

namespace LpMluRoute

/-- `get_routing`, up to the solution it reads the routing from. -/
def solveRouting (P : LpMluRoute K) (solve : Solver K) : Except RouteError (Var → K) :=
  match P.getRouting with
  | .error e => .error (.missing e)
  | .ok rows =>
    match solve P.vars rows with
    | none => .error .unsolved
    | some res => .ok res

/-- `self.routing` after `get_routing`. -/
def solvedRouting (P : LpMluRoute K) (res : Var → K) : Routing K :=
  fun k => if Var.f k.1 k.2.1 k.2.2.1 k.2.2.2 ∈ P.fVars then
    some (res (.f k.1 k.2.1 k.2.2.1 k.2.2.2)) else none

/-- The lines `main` writes of a solved routing, in the order of its dictionaries. -/
def routeLines (P : LpMluRoute K) (res : Var → K) : List (RouteLine K) :=
  P.hosts.flatMap fun u => (P.peers u).flatMap fun v =>
    (List.range P.nNode).flatMap fun i => (P.outs i).map fun j => ⟨u, v, i, j, res (.f u v i j)⟩

/-- `self.routing[u][v][i][j] = fuvij`: the three outer dictionaries must have their key. -/
def readLine (P : LpMluRoute K) (T : Routing K) (line : RouteLine K) : Except RouteError (Routing K) :=
  if line.u ∈ P.hosts ∧ line.v ∈ P.peers line.u ∧ line.i < P.nNode then
    .ok (Function.update T line.key (some line.f))
  else .error (.entry line.u line.v line.i)

/-- The reader of `route.txt` in `nonblocking.__init__`, on its table of zeros. -/
def readRoute (P : LpMluRoute K) (lines : List (RouteLine K)) : Except RouteError (Routing K) :=
  lines.foldlM P.readLine (P.solvedRouting fun _ => 0)

end LpMluRoute

/-- `main`, which builds its own model. -/
def Files.main (F : Files K) (solve : Solver K) : Except RouteError (List (RouteLine K)) := do
  let route ← F.lpInit 4
  let res ← route.solveRouting solve
  return route.routeLines res

/-- What `nonblocking` loads after `main`, `P` being the model `SDNroute.py` has built. -/
def Files.loaded (F : Files K) (P : LpMluRoute K) (solve : Solver K) :
    Except RouteError (Routing K) := do
  let lines ← F.main solve
  P.readRoute lines

end Source

/-! ## §2 — reading the files -/

namespace Files

variable {K : Type} [Field K] {F : Files K} {n m : Nat}

/-- The capacities of the files. -/
def capacity (F : Files K) : Nat × Nat → K :=
  F.topo.foldl (fun capacity line => Function.update capacity line.1 line.2) fun _ => 0

/-- The host bandwidths of the files. -/
def bwHost (F : Files K) : Nat → K :=
  F.servers.foldl (fun bwHost listing => listing.2.foldl
    (fun bwHost bw => Function.update bwHost ((F.switchIdx listing.1).getD 0)
      (bwHost ((F.switchIdx listing.1).getD 0) + bw)) bwHost) fun _ => 0

/-- The model of the files with a given number of switches. -/
def model (F : Files K) (n : Nat) : LpMluRoute K := ⟨n, F.bwHost, fun i j => F.capacity (i, j)⟩

/-- Every index the reader of the files comes upon is below `n`. -/
structure Fits (F : Files K) (n : Nat) : Prop where
  topo : ∀ line ∈ F.topo, line.1.1 < n ∧ line.1.2 < n
  servers : ∀ listing ∈ F.servers, listing.2 ≠ [] → ∃ i < n, F.switchIdx listing.1 = some i

omit [Field K] in
theorem setCapacity_eq_ok_iff (capacity : Nat × Nat → K) (line : (Nat × Nat) × K)
    (capacity' : Nat × Nat → K) :
    setCapacity n capacity line = .ok capacity' ↔
      (line.1.1 < n ∧ line.1.2 < n) ∧ capacity' = Function.update capacity line.1 line.2 := by
  unfold setCapacity
  split_ifs with hi hj
  · simp [hi, hj, eq_comm]
  · simp [hj]
  · simp [hi]

theorem addServer_eq_ok_iff (sw : String) (bwHost : Nat → K) (bw : K) (bwHost' : Nat → K) :
    F.addServer n sw bwHost bw = .ok bwHost' ↔
      (∃ i < n, F.switchIdx sw = some i) ∧
        bwHost' = Function.update bwHost ((F.switchIdx sw).getD 0)
          (bwHost ((F.switchIdx sw).getD 0) + bw) := by
  unfold addServer
  cases hsw : F.switchIdx sw with
  | none => simp
  | some i =>
    by_cases hi : i < n
    · simp [hi, eq_comm]
    · simp [hi]

theorem addListing_eq_ok_iff (bwHost : Nat → K) (listing : String × List K) (bwHost' : Nat → K) :
    F.addListing n bwHost listing = .ok bwHost' ↔
      (listing.2 ≠ [] → ∃ i < n, F.switchIdx listing.1 = some i) ∧
        bwHost' = listing.2.foldl (fun bwHost bw =>
          Function.update bwHost ((F.switchIdx listing.1).getD 0)
            (bwHost ((F.switchIdx listing.1).getD 0) + bw)) bwHost := by
  unfold addListing
  rw [Loops.foldlM_eq_ok_iff (addServer_eq_ok_iff (F := F) (n := n) listing.1)]
  refine and_congr_left fun _ => ?_
  constructor
  · intro h hne
    obtain ⟨bw, hbw⟩ := List.exists_mem_of_ne_nil _ hne
    exact h bw hbw
  · exact fun h bw hbw => h (List.ne_nil_of_mem hbw)

/-- **Reading the files.**  The reader returns exactly if the indices of the files are below the
number of switches, and the rest of what it returns does not depend on that number. -/
theorem lpInit_eq_ok_iff {P : LpMluRoute K} : F.lpInit n = .ok P ↔ F.Fits n ∧ P = F.model n := by
  have htopo := Loops.foldlM_eq_ok_iff (setCapacity_eq_ok_iff (K := K) (n := n)) F.topo fun _ => 0
  have hservers := Loops.foldlM_eq_ok_iff (addListing_eq_ok_iff (F := F) (n := n)) F.servers fun _ => 0
  constructor
  · intro h
    obtain ⟨capacity, hcapacity, h⟩ := Loops.bind_eq_ok_iff.mp h
    obtain ⟨bwHost, hbwHost, h⟩ := Loops.bind_eq_ok_iff.mp h
    obtain ⟨hlines, rfl⟩ := (htopo capacity).mp hcapacity
    obtain ⟨hlistings, rfl⟩ := (hservers bwHost).mp hbwHost
    exact ⟨⟨hlines, hlistings⟩, (Except.ok.inj h).symm⟩
  · rintro ⟨hfits, rfl⟩
    unfold lpInit
    rw [(htopo F.capacity).mpr ⟨hfits.topo, rfl⟩]
    show (F.servers.foldlM (F.addListing n) (fun _ => 0) >>= _) = _
    rw [(hservers F.bwHost).mpr ⟨hfits.servers, rfl⟩]
    rfl

/-- Capacities are given to pairs of indices in range. -/
theorem Fits.of_capacity (h : F.Fits n) {i j : Nat} (hcap : F.capacity (i, j) ≠ 0) : i < n ∧ j < n := by
  by_contra hout
  apply hcap
  unfold capacity
  refine Loops.foldl_update_of_notMem Prod.fst (fun _ line => line.2) ?_ _
  intro hmem
  obtain ⟨line, hline, heq⟩ := List.mem_map.mp hmem
  have hlt := h.topo line hline
  rw [heq] at hlt
  exact hout hlt

/-- Bandwidths are given to indices in range. -/
theorem Fits.of_bwHost (h : F.Fits n) {u : Nat} (hbw : F.bwHost u ≠ 0) : u < n := by
  by_contra hout
  apply hbw
  -- no section assigns the entry `u`
  have hstep : ∀ (listings : List (String × List K)), (∀ l ∈ listings, l ∈ F.servers) →
      ∀ bwHost : Nat → K, (listings.foldl (fun bwHost listing => listing.2.foldl
        (fun bwHost bw => Function.update bwHost ((F.switchIdx listing.1).getD 0)
          (bwHost ((F.switchIdx listing.1).getD 0) + bw)) bwHost) bwHost) u = bwHost u := by
    intro listings
    induction listings with
    | nil => exact fun _ _ => rfl
    | cons listing listings ih =>
      intro hsub bwHost
      rw [List.foldl_cons, ih fun l hl => hsub l (List.mem_cons_of_mem listing hl)]
      refine Loops.foldl_update_of_notMem (fun _ => (F.switchIdx listing.1).getD 0)
        (fun bwHost bw => bwHost ((F.switchIdx listing.1).getD 0) + bw) ?_ bwHost
      intro hmem
      obtain ⟨bw, hbw, heq⟩ := List.mem_map.mp hmem
      obtain ⟨i, hi, hidx⟩ :=
        h.servers listing (hsub listing List.mem_cons_self) (List.ne_nil_of_mem hbw)
      rw [hidx] at heq
      exact hout (heq ▸ hi)
  exact hstep F.servers (fun _ hl => hl) fun _ => 0

end Files

/-! ## §3 — the models of two numbers of switches -/

namespace Files

variable {K : Type} [Field K] [LinearOrder K] {F : Files K} {n m : Nat}

omit [LinearOrder K] in
@[simp] theorem model_nNode (F : Files K) (n : Nat) : (F.model n).nNode = n := rfl

theorem hosts_model (hn : F.Fits n) (hm : F.Fits m) : (F.model n).hosts = (F.model m).hosts := by
  have hbw : ∀ u, decide (F.bwHost u ≠ 0) = true → F.bwHost u ≠ 0 := fun u hu => of_decide_eq_true hu
  apply Loops.filter_range_eq
  · exact fun u hu => hn.of_bwHost (hbw u hu)
  · exact fun u hu => hm.of_bwHost (hbw u hu)

theorem peers_model (hn : F.Fits n) (hm : F.Fits m) (u : Nat) :
    (F.model n).peers u = (F.model m).peers u := by
  unfold LpMluRoute.peers
  rw [hosts_model hn hm]

theorem outs_model (hn : F.Fits n) (hm : F.Fits m) (i : Nat) :
    (F.model n).outs i = (F.model m).outs i := by
  have hcap : ∀ j, decide (i ≠ j ∧ F.capacity (i, j) ≠ 0) = true → F.capacity (i, j) ≠ 0 :=
    fun j hj => (of_decide_eq_true hj).2
  apply Loops.filter_range_eq
  · exact fun j hj => (hn.of_capacity (hcap j hj)).2
  · exact fun j hj => (hm.of_capacity (hcap j hj)).2

/-- The source of a link is in range. -/
theorem lt_of_outs (hn : F.Fits n) {i j k : Nat} (h : j ∈ (F.model k).outs i) : i < n :=
  (hn.of_capacity (mem_outs.mp h).2.2).1

/-- A loop over the links. -/
theorem flatMap_outs_model (hn : F.Fits n) (hm : F.Fits m) {β : Type} (g : Nat → Nat → β) :
    ((List.range n).flatMap fun i => ((F.model n).outs i).map (g i))
      = (List.range m).flatMap fun i => ((F.model m).outs i).map (g i) := by
  have hround : ∀ i, ((F.model m).outs i).map (g i) ≠ [] → ∃ j, j ∈ (F.model m).outs i := by
    intro i hi
    exact List.exists_mem_of_ne_nil _ fun hnil => hi (by rw [hnil, List.map_nil])
  simp only [outs_model hn hm]
  apply Loops.flatMap_range_eq
  · intro i hi
    exact lt_of_outs hn (hround i hi).choose_spec
  · intro i hi
    exact lt_of_outs hm (hround i hi).choose_spec

/-- A loop over the pairs and the links. -/
theorem flatMap_pairs_model (hn : F.Fits n) (hm : F.Fits m) {β : Type}
    (g : Nat → Nat → Nat → Nat → β) :
    ((F.model n).hosts.flatMap fun u => ((F.model n).peers u).flatMap fun v =>
        (List.range n).flatMap fun i => ((F.model n).outs i).map (g u v i))
      = (F.model m).hosts.flatMap fun u => ((F.model m).peers u).flatMap fun v =>
        (List.range m).flatMap fun i => ((F.model m).outs i).map (g u v i) := by
  simp only [hosts_model hn hm, peers_model hn hm, flatMap_outs_model hn hm]

theorem fVars_model (hn : F.Fits n) (hm : F.Fits m) : (F.model n).fVars = (F.model m).fVars :=
  flatMap_pairs_model hn hm Var.f

theorem dualVars_model (hn : F.Fits n) (hm : F.Fits m) (mk : Nat → Nat → Nat → Var) :
    (F.model n).dualVars mk = (F.model m).dualVars mk := by
  simp only [LpMluRoute.dualVars, model_nNode, hosts_model hn hm, flatMap_outs_model hn hm]

/-- The models have the same variables. -/
theorem vars_model (hn : F.Fits n) (hm : F.Fits m) : (F.model n).vars = (F.model m).vars := by
  unfold LpMluRoute.vars
  rw [fVars_model hn hm, dualVars_model hn hm, dualVars_model hn hm]

/-- The same lines are written of a solution of either. -/
theorem routeLines_model (hn : F.Fits n) (hm : F.Fits m) (res : Var → K) :
    (F.model n).routeLines res = (F.model m).routeLines res :=
  flatMap_pairs_model hn hm fun u v i j => RouteLine.mk u v i j (res (.f u v i j))

omit [LinearOrder K] in
theorem link_model (hm : F.Fits m) {i j : Nat} (h : (F.model n).Link i j) : (F.model m).Link i j := by
  have hcap : F.capacity (i, j) ≠ 0 := h.cap_ne
  exact ⟨(hm.of_capacity hcap).1, (hm.of_capacity hcap).2, h.ne, hcap⟩

/-- If the construction returns for one number of switches, it does for the other. -/
theorem exists_rows_model (hn : F.Fits n) (hm : F.Fits m) {rows : List (Row K)}
    (h : (F.model n).getRouting = .ok rows) : ∃ rows', (F.model m).getRouting = .ok rows' := by
  have hback := getRouting_returns_iff.mp ⟨rows, h⟩
  apply getRouting_returns_iff.mpr
  intro u hu v hv i j hij
  rw [← hosts_model hn hm] at hu
  rw [← peers_model hn hm] at hv
  exact link_model hm (hback u hu v hv i j (link_model hn hij))

theorem mluRow_model (hn : F.Fits n) (hm : F.Fits m) (i j : Nat) :
    (F.model n).mluRow i j = (F.model m).mluRow i j := by
  unfold LpMluRoute.mluRow LpMluRoute.mlExpr
  rw [hosts_model hn hm]
  rfl

/-- **The models have the same solutions.**  What satisfies the rows for one number of switches
satisfies those for the other: the rows of a switch without links are trivial. -/
theorem holds_rows_of_fits (hn : F.Fits n) (hm : F.Fits m) {rows rows' : List (Row K)}
    (h : (F.model n).getRouting = .ok rows) (h' : (F.model m).getRouting = .ok rows') {a : Var → K}
    (ha : ∀ r ∈ rows, r.Holds a) : ∀ r ∈ rows', r.Holds a := by
  intro r hr
  rcases (getRouting_ok h' r).mp hr with ⟨u, hu, v, hv, i, hi, hrow⟩ | ⟨i, hi, j, hj, rfl⟩
  · rw [← hosts_model hn hm] at hu
    rw [← peers_model hn hm] at hv
    rw [← outs_model hn hm] at hrow
    by_cases hlt : i < n
    · apply ha
      exact (getRouting_ok h r).mpr (.inl ⟨u, hu, v, hv, i, hlt, hrow⟩)
    · -- beyond `n` there is no link, and neither end of the pair
      have hnone : (F.model n).outs i = [] := by
        by_contra hne
        obtain ⟨j, hj⟩ := List.exists_mem_of_ne_nil _ hne
        exact hlt (lt_of_outs hn hj)
      have hiu : i ≠ u := fun heq => hlt (heq ▸ (mem_hosts.mp hu).1)
      have hiv : i ≠ v := fun heq => hlt (heq ▸ (mem_hosts.mp (mem_peers.mp hv).1).1)
      rw [hnone] at hrow
      rcases hrow with ⟨j, hj, -⟩ | rfl
      · exact absurd hj List.not_mem_nil
      · show LinExpr.eval a _ = LinExpr.eval a _
        rw [eval_closeRouter, eval_routerExpr, if_neg hiu, if_neg hiv]
        simp
  · rw [← outs_model hn hm] at hj
    apply ha
    rw [← mluRow_model hn hm]
    exact (getRouting_ok h _).mpr (.inr ⟨i, lt_of_outs hn hj, j, hj, rfl⟩)

end Files

/-! ## §4 — `route.txt` -/

namespace LpMluRoute

variable {K : Type} [Field K] [LinearOrder K] {P : LpMluRoute K}

theorem readLine_eq_ok_iff (T : Routing K) (line : RouteLine K) (T' : Routing K) :
    P.readLine T line = .ok T' ↔
      (line.u ∈ P.hosts ∧ line.v ∈ P.peers line.u ∧ line.i < P.nNode) ∧
        T' = Function.update T line.key (some line.f) := by
  unfold readLine
  split_ifs with h
  · simp [h, eq_comm]
  · simp [h]

theorem mem_routeLines {res : Var → K} {line : RouteLine K} :
    line ∈ P.routeLines res ↔ ∃ u ∈ P.hosts, ∃ v ∈ P.peers u, ∃ i < P.nNode, ∃ j ∈ P.outs i,
      line = ⟨u, v, i, j, res (.f u v i j)⟩ := by
  simp only [routeLines, List.mem_flatMap, List.mem_map, List.mem_range, eq_comm]

/-- **The round trip of a solution.**  The lines written of a solution are read back as it. -/
theorem readRoute_routeLines (P : LpMluRoute K) (res : Var → K) :
    P.readRoute (P.routeLines res) = .ok (P.solvedRouting res) := by
  unfold readRoute
  rw [Loops.foldlM_eq_ok_iff readLine_eq_ok_iff]
  constructor
  · intro line hline
    obtain ⟨u, hu, v, hv, i, hi, j, hj, rfl⟩ := mem_routeLines.mp hline
    exact ⟨hu, hv, hi⟩
  · funext k
    have hval : ∀ line ∈ P.routeLines res,
        some line.f = some (res (.f line.key.1 line.key.2.1 line.key.2.2.1 line.key.2.2.2)) := by
      intro line hline
      obtain ⟨u, -, v, -, i, -, j, -, rfl⟩ := mem_routeLines.mp hline
      rfl
    have hkeys : k ∈ (P.routeLines res).map RouteLine.key ↔
        Var.f k.1 k.2.1 k.2.2.1 k.2.2.2 ∈ P.fVars := by
      rw [List.mem_map, mem_fVars]
      constructor
      · rintro ⟨line, hline, rfl⟩
        obtain ⟨u, hu, v, hv, i, hi, j, hj, rfl⟩ := mem_routeLines.mp hline
        exact ⟨u, hu, v, hv, i, hi, j, hj, rfl⟩
      · rintro ⟨u, hu, v, hv, i, hi, j, hj, heq⟩
        refine ⟨⟨u, v, i, j, res (.f u v i j)⟩, mem_routeLines.mpr ⟨u, hu, v, hv, i, hi, j, hj, rfl⟩, ?_⟩
        obtain ⟨rfl, rfl, rfl, rfl⟩ := Var.f.inj heq
        rfl
    rw [Loops.foldl_update_apply (fun k => some (res (.f k.1 k.2.1 k.2.2.1 k.2.2.2))) hval]
    unfold solvedRouting
    by_cases hk : Var.f k.1 k.2.1 k.2.2.1 k.2.2.2 ∈ P.fVars
    · rw [if_pos hk, if_pos (hkeys.mpr hk)]
    · rw [if_neg hk, if_neg (mt hkeys.mp hk), if_neg hk]

end LpMluRoute

/-! ## §5 — what is loaded -/

section Loaded

variable {K : Type} [Field K] [LinearOrder K]

/-- Models with the same variables and the same solutions get the same solution. -/
def Solver.Alike (solve : Solver K) : Prop :=
  ∀ vars rows rows', (∀ a, (∀ r ∈ rows, r.Holds a) ↔ ∀ r ∈ rows', r.Holds a) →
    solve vars rows = solve vars rows'

theorem solveRouting_eq_ok_iff {P : LpMluRoute K} {solve : Solver K} {res : Var → K} :
    P.solveRouting solve = .ok res ↔
      ∃ rows, P.getRouting = .ok rows ∧ solve P.vars rows = some res := by
  unfold solveRouting
  cases P.getRouting with
  | error e => simp
  | ok rows => cases hsolve : solve P.vars rows <;> simp [hsolve]

/-- The models of two numbers of switches have the same solution. -/
theorem solveRouting_model {F : Files K} {n m : Nat} (hn : F.Fits n) (hm : F.Fits m)
    {solve : Solver K} (hsolve : Solver.Alike solve) {res : Var → K}
    (h : (F.model n).solveRouting solve = .ok res) : (F.model m).solveRouting solve = .ok res := by
  obtain ⟨rows, hrows, hres⟩ := solveRouting_eq_ok_iff.mp h
  obtain ⟨rows', hrows'⟩ := Files.exists_rows_model hn hm hrows
  apply solveRouting_eq_ok_iff.mpr
  refine ⟨rows', hrows', ?_⟩
  rw [← Files.vars_model hn hm, ← hres]
  apply hsolve
  intro a
  exact ⟨Files.holds_rows_of_fits hm hn hrows' hrows, Files.holds_rows_of_fits hn hm hrows hrows'⟩

/-- **The routing that is loaded.**  For files that can be read for `n` switches and a model of them
that gets solved, `nonblocking` loads the routing of that solution if and only if no index of
`topo.txt` and no switch with servers in `server.txt` is beyond the four switches of `main`. -/
theorem loaded_eq_solved_iff (F : Files K) (n : Nat) (P : LpMluRoute K) (hP : F.lpInit n = .ok P)
    (solve : Solver K) (hsolve : Solver.Alike solve) (res : Var → K)
    (hres : P.solveRouting solve = .ok res) :
    F.loaded P solve = .ok (P.solvedRouting res) ↔ F.Fits 4 := by
  obtain ⟨hn, rfl⟩ := Files.lpInit_eq_ok_iff.mp hP
  constructor
  · intro h
    obtain ⟨lines, hmain, -⟩ := Loops.bind_eq_ok_iff.mp h
    obtain ⟨route, hroute, -⟩ := Loops.bind_eq_ok_iff.mp hmain
    exact (Files.lpInit_eq_ok_iff.mp hroute).1
  · intro hfour
    have hmain : F.main solve = .ok ((F.model 4).routeLines res) := by
      unfold Files.main
      rw [Files.lpInit_eq_ok_iff.mpr ⟨hfour, rfl⟩]
      show ((F.model 4).solveRouting solve >>= _) = _
      rw [solveRouting_model hn hfour hsolve hres]
      rfl
    unfold Files.loaded
    rw [hmain]
    show (F.model n).readRoute _ = _
    rw [← Files.routeLines_model hn hfour, readRoute_routeLines]

/-- Two switches with a server each and a link both ways. -/
def twoSwitchFiles : Files ℚ :=
  ⟨["Leaf1", "Leaf2"], [((0, 1), 1), ((1, 0), 1)], [("Leaf1", [1]), ("Leaf2", [1])]⟩

theorem loaded_twoSwitchFiles :
    twoSwitchFiles.loaded (twoSwitchFiles.model 2) (fun _ _ => some twoSwitchesDirect)
      = .ok ((twoSwitchFiles.model 2).solvedRouting twoSwitchesDirect) := by
  have hread : twoSwitchFiles.lpInit 2 = .ok (twoSwitchFiles.model 2) :=
    Files.lpInit_eq_ok_iff.mpr ⟨⟨by decide, by decide +kernel⟩, rfl⟩
  have hsolved : (twoSwitchFiles.model 2).solveRouting (fun _ _ => some twoSwitchesDirect)
      = .ok twoSwitchesDirect :=
    solveRouting_eq_ok_iff.mpr
      ⟨((twoSwitchFiles.model 2).getRouting.toOption).getD [], by decide +kernel, rfl⟩
  apply (loaded_eq_solved_iff twoSwitchFiles 2 _ hread _ (fun _ _ _ _ => rfl) _ hsolved).mpr
  exact ⟨by decide, by decide +kernel⟩

/-- Five switches, of which the first and the last have a server and a link both ways. -/
def fiveSwitchFiles : Files ℚ :=
  ⟨["Leaf1", "Leaf2", "Leaf3", "Leaf4", "Leaf5"], [((0, 4), 1), ((4, 0), 1)],
    [("Leaf1", [1]), ("Leaf5", [1])]⟩

/-- The files can be read for the five switches and their model can be built, but `main` raises for
the index 4 of the first line of `topo.txt`, whatever the solver. -/
theorem main_raises_fiveSwitchFiles :
    fiveSwitchFiles.lpInit 5 = .ok (fiveSwitchFiles.model 5) ∧
      (∃ rows, (fiveSwitchFiles.model 5).getRouting = .ok rows) ∧
      ∀ solve, fiveSwitchFiles.loaded (fiveSwitchFiles.model 5) solve = .error (.index 4) := by
  refine ⟨Files.lpInit_eq_ok_iff.mpr ⟨⟨by decide, by decide +kernel⟩, rfl⟩, ?_, fun solve => rfl⟩
  exact ⟨((fiveSwitchFiles.model 5).getRouting.toOption).getD [], by decide +kernel⟩

end Loaded

/-! ## §6 — the files of a topology -/

section Written

variable {K : Type} [Field K] [LinearOrder K]

/-- `name_to_idx`, for the name of a device. -/
def nameToIdx (nodes : List Device) (name : String) : Nat :=
  nodes.findIdx fun node => node.deviceName = name

/-- The elements `lll` of `links`, with the indices of their switches. -/
def cables (nodes : List Device) (links : Links K) : List ((Nat × Nat) × K) :=
  let names := (nodes.map Device.deviceName).dedup
  names.flatMap fun l => names.flatMap fun ll =>
    (links l ll).map fun lll => ((nameToIdx nodes l, nameToIdx nodes ll), lll.bw)

/-- `idx_topo`. -/
def idxTopo (nodes : List Device) (links : Links K) : Nat × Nat → K :=
  (cables nodes links).foldl (fun topo c => Function.update topo c.1 (topo c.1 + c.2)) fun _ => 0

/-- The files of `topo_to_file`, with the operator's `server.txt`. -/
def topoToFile (nodes : List Device) (links : Links K) (servers : List (String × List K)) :
    Files K where
  switchs := nodes.map Device.deviceName
  topo := (List.range nodes.length).flatMap fun u =>
    ((List.range nodes.length).filter fun v => idxTopo nodes links (u, v) ≠ 0).map fun v =>
      ((u, v), idxTopo nodes links (u, v))
  servers := servers

variable {nodes : List Device} {links : Links K} {servers : List (String × List K)}

theorem mem_topoToFile {line : (Nat × Nat) × K} :
    line ∈ (topoToFile nodes links servers).topo ↔
      line.1.1 < nodes.length ∧ line.1.2 < nodes.length ∧ idxTopo nodes links line.1 ≠ 0 ∧
        line.2 = idxTopo nodes links line.1 := by
  obtain ⟨⟨u, v⟩, c⟩ := line
  simp only [topoToFile, List.mem_flatMap, List.mem_map, List.mem_filter, List.mem_range]
  constructor
  · rintro ⟨u', hu, v', ⟨hv, hne⟩, heq⟩
    obtain ⟨hkey, rfl⟩ := Prod.mk.inj heq
    obtain ⟨rfl, rfl⟩ := Prod.mk.inj hkey
    exact ⟨hu, hv, of_decide_eq_true hne, rfl⟩
  · rintro ⟨hu, hv, hne, rfl⟩
    exact ⟨u, hu, v, ⟨hv, decide_eq_true hne⟩, rfl⟩

/-- The name of a device has an index in range. -/
theorem nameToIdx_lt {name : String} (h : name ∈ (nodes.map Device.deviceName).dedup) :
    nameToIdx nodes name < nodes.length := by
  obtain ⟨node, hnode, hname⟩ := List.mem_map.mp (List.mem_dedup.mp h)
  exact List.findIdx_lt_length_of_exists ⟨node, hnode, by simpa using hname⟩

omit [LinearOrder K] in
theorem idxTopo_ne_zero {k : Nat × Nat} (h : idxTopo nodes links k ≠ 0) :
    k.1 < nodes.length ∧ k.2 < nodes.length := by
  have hmem : k ∈ (cables nodes links).map Prod.fst := by
    by_contra hout
    apply h
    exact Loops.foldl_update_of_notMem Prod.fst (fun topo c => topo c.1 + c.2) hout _
  simp only [cables, List.mem_map, List.mem_flatMap] at hmem
  obtain ⟨c, ⟨l, hl, ll, hll, lll, -, rfl⟩, rfl⟩ := hmem
  exact ⟨nameToIdx_lt hl, nameToIdx_lt hll⟩

/-- The capacities that are read are those that were summed up. -/
theorem capacity_topoToFile : (topoToFile nodes links servers).capacity = idxTopo nodes links := by
  funext k
  unfold Files.capacity
  rw [Loops.foldl_update_apply (idxTopo nodes links) fun line hline =>
    (mem_topoToFile.mp hline).2.2.2]
  split_ifs with hk
  · rfl
  · by_contra hne
    obtain ⟨hu, hv⟩ := idxTopo_ne_zero (Ne.symm hne)
    apply hk
    exact List.mem_map.mpr ⟨(k, idxTopo nodes links k),
      mem_topoToFile.mpr ⟨hu, hv, Ne.symm hne, rfl⟩, rfl⟩

omit [Field K] [LinearOrder K] in
/-- A name of `switch.txt` is found. -/
theorem Files.exists_switchIdx {F : Files K} {sw : String} (h : sw ∈ F.switchs) :
    ∃ i < F.switchs.length, F.switchIdx sw = some i := by
  have hmem : sw ∈ F.switchs.zipIdx.map Prod.fst := by rwa [List.zipIdx_map_fst]
  obtain ⟨line, hline, -, hval⟩ :=
    Loops.exists_foldl_update (fun line : String × Nat => some line.2) hmem fun _ => none
  refine ⟨line.2, ?_, hval⟩
  simpa using List.snd_lt_add_of_mem_zipIdx hline

/-- **The files of a topology can be read.**  If the sections with servers name devices, the files
give a model of all switches, with the summed capacities. -/
theorem lpInit_topoToFile
    (hservers : ∀ listing ∈ servers, listing.2 ≠ [] → listing.1 ∈ nodes.map Device.deviceName) :
    (topoToFile nodes links servers).lpInit nodes.length
      = .ok ⟨nodes.length, (topoToFile nodes links servers).bwHost,
          fun i j => idxTopo nodes links (i, j)⟩ := by
  apply Files.lpInit_eq_ok_iff.mpr
  constructor
  · constructor
    · intro line hline
      obtain ⟨hu, hv, -⟩ := mem_topoToFile.mp hline
      exact ⟨hu, hv⟩
    · intro listing hlisting hne
      have hmem := hservers listing hlisting hne
      have hlen : (topoToFile nodes links servers).switchs.length = nodes.length := List.length_map _
      rw [← hlen]
      exact Files.exists_switchIdx hmem
  · unfold Files.model
    rw [capacity_topoToFile]

end Written

end SDNware.Planner
