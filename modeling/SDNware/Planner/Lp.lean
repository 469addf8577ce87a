/-
# SDNware.Planner.Lp — the linear program of `lp_mlu_route.get_routing`.

`get_routing` builds a docplex model: flow variables `f[u][v][i][j]` for every ordered pair of
switches with hosts and every directed link, two families of potentials `lam[u][i][j]`,
`eta[u][i][j]`, and `mlu`; then it adds, in three nested loops with skip conditions,

* `lam[u][i][j] + eta[v][i][j] >= f[u][v][i][j]`,
* one conservation row for each pair and switch,
* `mlu >= ml / capacity[i][j]` for each link,

and minimises `mlu`.  The model keeps the construction: expressions are lists of terms, variables
live in dictionaries (a missing key is the `KeyError` Python raises), rows come out in the order of
the loops.  `getRouting_returns_iff_keys` says when the construction returns and `getRouting_ok`
what it yields; everything about the program itself (`SDNware.Planner.Oblivious`) is derived from
them.

The numbers are exact: any linearly ordered field.
-/
import Mathlib.Algebra.Order.Field.Basic
import Mathlib.Algebra.BigOperators.Ring.List
import Mathlib.Algebra.BigOperators.Group.Finset.Basic
import Mathlib.Tactic.Ring
import SDNware.Lib.Loops

namespace SDNware.Planner

/-! ## §1 — variables, expressions, rows -/

/-- The model's variables. -/
inductive Var
  | f (u v i j : Nat)
  | lam (u i j : Nat)
  | eta (u i j : Nat)
  | mlu
  deriving DecidableEq

/-- A docplex linear expression: its terms in the order they were added, and a constant. -/
structure LinExpr (K : Type) where
  terms : List (K × Var)
  const : K
  deriving DecidableEq

variable {K : Type} [Field K]

namespace LinExpr

def zero : LinExpr K := ⟨[], 0⟩
def ofVar (x : Var) : LinExpr K := ⟨[(1, x)], 0⟩
def add (e e' : LinExpr K) : LinExpr K := ⟨e.terms ++ e'.terms, e.const + e'.const⟩
def scale (c : K) (e : LinExpr K) : LinExpr K := ⟨e.terms.map fun t => (c * t.1, t.2), c * e.const⟩
def addVar (e : LinExpr K) (x : Var) : LinExpr K := e.add (ofVar x)
def subVar (e : LinExpr K) (x : Var) : LinExpr K := e.add ((ofVar x).scale (-1))
def addConst (e : LinExpr K) (c : K) : LinExpr K := ⟨e.terms, e.const + c⟩

/-- The value of an expression under an assignment. -/
def eval (a : Var → K) (e : LinExpr K) : K := (e.terms.map fun t => t.1 * a t.2).sum + e.const

variable (a : Var → K)

@[simp] theorem eval_zero : (zero : LinExpr K).eval a = 0 := by simp [zero, eval]

@[simp] theorem eval_ofVar (x : Var) : (ofVar x : LinExpr K).eval a = a x := by simp [ofVar, eval]

@[simp] theorem eval_add (e e' : LinExpr K) : (e.add e').eval a = e.eval a + e'.eval a := by
  simp only [add, eval, List.map_append, List.sum_append]
  ring

@[simp] theorem eval_scale (c : K) (e : LinExpr K) : (e.scale c).eval a = c * e.eval a := by
  have hterms : ((e.terms.map fun t => (c * t.1, t.2)).map fun t => t.1 * a t.2).sum
      = c * (e.terms.map fun t => t.1 * a t.2).sum := by
    rw [List.map_map, ← List.sum_map_mul_left]
    exact congrArg List.sum (List.map_congr_left fun t _ => mul_assoc c t.1 (a t.2))
  simp only [scale, eval, hterms]
  ring

@[simp] theorem eval_addVar (e : LinExpr K) (x : Var) : (e.addVar x).eval a = e.eval a + a x := by
  simp [addVar]

@[simp] theorem eval_subVar (e : LinExpr K) (x : Var) : (e.subVar x).eval a = e.eval a - a x := by
  simp [subVar]
  ring

@[simp] theorem eval_addConst (e : LinExpr K) (c : K) :
    (e.addConst c).eval a = e.eval a + c := by
  simp only [addConst, eval]
  ring

end LinExpr

/-- A constraint of the model. -/
inductive Row (K : Type)
  | ge (lhs rhs : LinExpr K)
  | eq (lhs rhs : LinExpr K)
  deriving DecidableEq

/-- An assignment satisfies the row. -/
def Row.Holds [LE K] (a : Var → K) : Row K → Prop
  | .ge lhs rhs => rhs.eval a ≤ lhs.eval a
  | .eq lhs rhs => lhs.eval a = rhs.eval a

instance [LE K] [DecidableLE K] [DecidableEq K] (a : Var → K) (r : Row K) : Decidable (r.Holds a) :=
  match r with
  | .ge lhs rhs => inferInstanceAs (Decidable (rhs.eval a ≤ lhs.eval a))
  | .eq lhs rhs => inferInstanceAs (Decidable (lhs.eval a = rhs.eval a))

/-! ## §2 — the construction -/

/-- The data `lp_mlu_route.__init__` has read. -/
structure LpMluRoute (K : Type) where
  nNode : Nat
  bwHost : Nat → K
  capacity : Nat → Nat → K

/-- A dictionary access with an absent key. -/
inductive KeyError
  | missing (key : Var)
  deriving DecidableEq

namespace LpMluRoute

variable [DecidableEq K] (P : LpMluRoute K)

/-- `for u in range(n_node)` past `if bw_host[u]==0: continue`. -/
def hosts : List Nat := (List.range P.nNode).filter fun u => P.bwHost u ≠ 0

/-- The inner loop over `v`, past `u==v` and `bw_host[v]==0`. -/
def peers (u : Nat) : List Nat := P.hosts.filter fun v => u ≠ v

/-- `for j in range(n_node)` past `i==j` and `capacity[i][j]==0`. -/
def outs (i : Nat) : List Nat :=
  (List.range P.nNode).filter fun j => i ≠ j ∧ P.capacity i j ≠ 0

/-- The keys of the dictionary `f`. -/
def fVars : List Var :=
  P.hosts.flatMap fun u => (P.peers u).flatMap fun v =>
    (List.range P.nNode).flatMap fun i => (P.outs i).map fun j => .f u v i j

/-- The keys of the dictionaries `lam` and `eta`. -/
def dualVars (mk : Nat → Nat → Nat → Var) : List Var :=
  P.hosts.flatMap fun u => (List.range P.nNode).flatMap fun i => (P.outs i).map fun j => mk u i j

/-- Every variable of the model; each has lower bound 0. -/
def vars : List Var := P.fVars ++ P.dualVars .lam ++ P.dualVars .eta ++ [.mlu]

/-- `d[...]` for a dictionary with the given keys. -/
def lookup (keys : List Var) (x : Var) : Except KeyError Var :=
  if x ∈ keys then .ok x else .error (.missing x)

/-- The statements of the loop over `j`, for the pair `(u, v)` and the switch `i`: the conservation
expression under construction and the rows added so far. -/
def linkStep (u v i : Nat) (acc : LinExpr K × List (Row K)) (j : Nat) :
    Except KeyError (LinExpr K × List (Row K)) := do
  let fij ← lookup P.fVars (.f u v i j)
  let fji ← lookup P.fVars (.f u v j i)
  let lam ← lookup (P.dualVars .lam) (.lam u i j)
  let eta ← lookup (P.dualVars .eta) (.eta v i j)
  return ((acc.1.addVar fij).subVar fji,
    acc.2 ++ [.ge ((LinExpr.ofVar lam).addVar eta) (LinExpr.ofVar fij)])

/-- The conservation expression after `router-=1` at the source and `router+=1` at the sink. -/
def closeRouter (u v i : Nat) (router : LinExpr K) : LinExpr K :=
  if i = u then router.addConst (-1) else if i = v then router.addConst 1 else router

/-- The rows added for the pair `(u, v)` at the switch `i`. -/
def nodeRows (u v i : Nat) : Except KeyError (List (Row K)) := do
  let acc ← (P.outs i).foldlM (P.linkStep u v i) (LinExpr.zero, [])
  return acc.2 ++ [.eq (closeRouter u v i acc.1) LinExpr.zero]

/-- `ml += bw_host[u]*(lam[u][i][j]+eta[u][i][j])` over the switches with hosts. -/
def mlExpr (i j : Nat) : LinExpr K :=
  P.hosts.foldl (fun ml u =>
    ml.add (((LinExpr.ofVar (.lam u i j)).addVar (.eta u i j)).scale (P.bwHost u))) LinExpr.zero

/-- The row `mlu >= ml/capacity[i][j]`. -/
def mluRow (i j : Nat) : Row K :=
  .ge (LinExpr.ofVar .mlu) ((P.mlExpr i j).scale (P.capacity i j)⁻¹)

/-- A loop whose body may raise and otherwise adds rows. -/
def forRows (body : Nat → Except KeyError (List (Row K))) : List Nat → Except KeyError (List (Row K))
  | [] => return []
  | x :: xs => do
      let rows ← body x
      let rest ← forRows body xs
      return rows ++ rest

/-- The constraints `get_routing` adds, or the `KeyError` it stops with. -/
def getRouting : Except KeyError (List (Row K)) := do
  let pairRows ← forRows (fun u => forRows (fun v =>
    forRows (fun i => P.nodeRows u v i) (List.range P.nNode)) (P.peers u)) P.hosts
  let mluRows := (List.range P.nNode).flatMap fun i => (P.outs i).map fun j => P.mluRow i j
  return pairRows ++ mluRows

/-! ## §3 — what the construction yields -/

variable {P}

theorem mem_hosts {u : Nat} : u ∈ P.hosts ↔ u < P.nNode ∧ P.bwHost u ≠ 0 := by
  simp [hosts]

theorem mem_peers {u v : Nat} : v ∈ P.peers u ↔ v ∈ P.hosts ∧ u ≠ v := by
  simp [peers]

theorem mem_outs {i j : Nat} : j ∈ P.outs i ↔ j < P.nNode ∧ i ≠ j ∧ P.capacity i j ≠ 0 := by
  simp [outs]

theorem mem_fVars {x : Var} : x ∈ P.fVars ↔
    ∃ u ∈ P.hosts, ∃ v ∈ P.peers u, ∃ i < P.nNode, ∃ j ∈ P.outs i, x = .f u v i j := by
  simp only [fVars, List.mem_flatMap, List.mem_map, List.mem_range, eq_comm]

theorem mem_dualVars {mk : Nat → Nat → Nat → Var} {x : Var} : x ∈ P.dualVars mk ↔
    ∃ u ∈ P.hosts, ∃ i < P.nNode, ∃ j ∈ P.outs i, x = mk u i j := by
  simp only [dualVars, List.mem_flatMap, List.mem_map, List.mem_range, eq_comm]

theorem lookup_eq_ok_iff {keys : List Var} {x y : Var} :
    lookup keys x = .ok y ↔ x ∈ keys ∧ y = x := by
  unfold lookup
  split
  · rename_i hx
    simp [hx, eq_comm]
  · rename_i hx
    simp [hx]

/-- The row added for the pair `(u, v)` on the link `(i, j)`. -/
def coverRow (u v i j : Nat) : Row K :=
  .ge ((LinExpr.ofVar (.lam u i j)).addVar (.eta v i j)) (LinExpr.ofVar (.f u v i j))

/-- The conservation expression of the pair `(u, v)` at the switch `i`, over a list of neighbours. -/
def routerExpr (u v i : Nat) (router : LinExpr K) (js : List Nat) : LinExpr K :=
  js.foldl (fun e j => (e.addVar (.f u v i j)).subVar (.f u v j i)) router

omit [DecidableEq K] in
theorem eval_routerExpr (a : Var → K) (u v i : Nat) (js : List Nat) (e : LinExpr K) :
    (routerExpr u v i e js).eval a
      = e.eval a + (js.map fun j => a (.f u v i j) - a (.f u v j i)).sum := by
  induction js generalizing e with
  | nil => simp [routerExpr]
  | cons j js ih =>
    rw [routerExpr, List.foldl_cons, ← routerExpr, ih]
    simp only [LinExpr.eval_subVar, LinExpr.eval_addVar, List.map_cons, List.sum_cons]
    ring

omit [DecidableEq K] in
theorem eval_closeRouter (a : Var → K) (u v i : Nat) (e : LinExpr K) :
    (closeRouter u v i e).eval a = e.eval a - if i = u then 1 else if i = v then -1 else 0 := by
  unfold closeRouter
  split_ifs
  · rw [LinExpr.eval_addConst, sub_eq_add_neg]
  · rw [LinExpr.eval_addConst, sub_neg_eq_add]
  · rw [sub_zero]

/-- The keys the inner loop looks up for the pair `(u, v)` and the link `(i, j)`. -/
structure Keys (P : LpMluRoute K) (u v i j : Nat) : Prop where
  out : Var.f u v i j ∈ P.fVars
  back : Var.f u v j i ∈ P.fVars
  lam : Var.lam u i j ∈ P.dualVars .lam
  eta : Var.eta v i j ∈ P.dualVars .eta

theorem linkStep_eq_ok_iff {u v i : Nat} (acc : LinExpr K × List (Row K)) (j : Nat)
    (acc' : LinExpr K × List (Row K)) :
    P.linkStep u v i acc j = .ok acc' ↔ P.Keys u v i j ∧
      acc' = ((acc.1.addVar (.f u v i j)).subVar (.f u v j i), acc.2 ++ [coverRow u v i j]) := by
  unfold linkStep
  simp only [Loops.bind_eq_ok_iff, lookup_eq_ok_iff]
  constructor
  · rintro ⟨_, ⟨hout, rfl⟩, _, ⟨hback, rfl⟩, _, ⟨hlam, rfl⟩, _, ⟨heta, rfl⟩, h⟩
    exact ⟨⟨hout, hback, hlam, heta⟩, (Except.ok.inj h).symm⟩
  · rintro ⟨h, rfl⟩
    exact ⟨_, ⟨h.out, rfl⟩, _, ⟨h.back, rfl⟩, _, ⟨h.lam, rfl⟩, _, ⟨h.eta, rfl⟩, rfl⟩

theorem foldlM_linkStep_eq_ok_iff {u v i : Nat} {js : List Nat}
    {acc acc' : LinExpr K × List (Row K)} :
    js.foldlM (P.linkStep u v i) acc = .ok acc' ↔ (∀ j ∈ js, P.Keys u v i j) ∧
      acc' = (routerExpr u v i acc.1 js, acc.2 ++ js.map (coverRow u v i)) := by
  have hfold : ∀ (js : List Nat) (acc : LinExpr K × List (Row K)),
      js.foldl (fun acc j => ((acc.1.addVar (.f u v i j)).subVar (.f u v j i),
        acc.2 ++ [coverRow u v i j])) acc
        = (routerExpr u v i acc.1 js, acc.2 ++ js.map (coverRow u v i)) := by
    intro js
    induction js with
    | nil => intro acc; simp [routerExpr]
    | cons j js ih =>
      intro acc
      rw [List.foldl_cons, ih]
      simp [routerExpr]
  rw [Loops.foldlM_eq_ok_iff linkStep_eq_ok_iff, hfold]

theorem nodeRows_eq_ok_iff {u v i : Nat} {rows : List (Row K)} :
    P.nodeRows u v i = .ok rows ↔ (∀ j ∈ P.outs i, P.Keys u v i j) ∧
      rows = (P.outs i).map (coverRow u v i) ++
        [.eq (closeRouter u v i (routerExpr u v i LinExpr.zero (P.outs i))) LinExpr.zero] := by
  unfold nodeRows
  simp only [Loops.bind_eq_ok_iff, foldlM_linkStep_eq_ok_iff]
  constructor
  · rintro ⟨_, ⟨hkeys, rfl⟩, h⟩
    exact ⟨hkeys, by simpa using (Except.ok.inj h).symm⟩
  · rintro ⟨hkeys, rfl⟩
    exact ⟨_, ⟨hkeys, rfl⟩, rfl⟩

omit [Field K] [DecidableEq K] in
/-- A loop returns where all its iterations do. -/
theorem forRows_returns_iff {body : Nat → Except KeyError (List (Row K))} {xs : List Nat} :
    (∃ rows, forRows body xs = .ok rows) ↔ ∀ x ∈ xs, ∃ part, body x = .ok part := by
  induction xs with
  | nil => exact iff_of_true ⟨[], rfl⟩ (by simp)
  | cons x xs ih =>
    rw [List.forall_mem_cons, ← ih]
    simp only [forRows, Loops.bind_eq_ok_iff]
    constructor
    · rintro ⟨_, part, hx, rest, hxs, -⟩
      exact ⟨⟨part, hx⟩, rest, hxs⟩
    · rintro ⟨⟨part, hx⟩, rest, hxs⟩
      exact ⟨part ++ rest, part, hx, rest, hxs, rfl⟩

omit [Field K] [DecidableEq K] in
/-- What a loop has added is what its iterations have added. -/
theorem mem_forRows {body : Nat → Except KeyError (List (Row K))} {r : Row K} {xs : List Nat}
    {rows : List (Row K)} (h : forRows body xs = .ok rows) :
    r ∈ rows ↔ ∃ x ∈ xs, ∃ part, body x = .ok part ∧ r ∈ part := by
  induction xs generalizing rows with
  | nil =>
    obtain rfl : [] = rows := Except.ok.inj h
    simp
  | cons x xs ih =>
    obtain ⟨part, hx, h⟩ := Loops.bind_eq_ok_iff.mp h
    obtain ⟨rest, hxs, h⟩ := Loops.bind_eq_ok_iff.mp h
    obtain rfl : part ++ rest = rows := Except.ok.inj h
    rw [List.mem_append, ih hxs]
    simp [hx]

/-- The construction returns if and only if every key it looks up is there. -/
theorem getRouting_returns_iff_keys :
    (∃ rows, P.getRouting = .ok rows) ↔
      ∀ u ∈ P.hosts, ∀ v ∈ P.peers u, ∀ i < P.nNode, ∀ j ∈ P.outs i, P.Keys u v i j := by
  have hnode : ∀ u v i, (∃ part, P.nodeRows u v i = .ok part) ↔ ∀ j ∈ P.outs i, P.Keys u v i j := by
    intro u v i
    simp only [nodeRows_eq_ok_iff, exists_and_left, exists_eq, and_true]
  have hpairs : (∃ rows, P.getRouting = .ok rows) ↔ ∃ rows, forRows (fun u => forRows (fun v =>
      forRows (fun i => P.nodeRows u v i) (List.range P.nNode)) (P.peers u)) P.hosts = .ok rows := by
    unfold getRouting
    simp only [Loops.bind_eq_ok_iff]
    constructor
    · rintro ⟨_, pairRows, h, -⟩
      exact ⟨pairRows, h⟩
    · rintro ⟨pairRows, h⟩
      exact ⟨_, pairRows, h, rfl⟩
  rw [hpairs]
  simp only [forRows_returns_iff, hnode, List.mem_range]

/-- **The rows of the model.** A construction that does not raise adds the covering rows and the
conservation row of every pair of switches with hosts at every switch, the utilisation row of
every link, and nothing else. -/
theorem getRouting_ok {rows : List (Row K)} (h : P.getRouting = .ok rows) (r : Row K) :
    r ∈ rows ↔
      (∃ u ∈ P.hosts, ∃ v ∈ P.peers u, ∃ i < P.nNode, (∃ j ∈ P.outs i, r = coverRow u v i j) ∨
        r = .eq (closeRouter u v i (routerExpr u v i LinExpr.zero (P.outs i))) LinExpr.zero) ∨
      ∃ i < P.nNode, ∃ j ∈ P.outs i, r = P.mluRow i j := by
  obtain ⟨pairRows, hpairs, h⟩ := Loops.bind_eq_ok_iff.mp h
  obtain rfl := Except.ok.inj h
  rw [List.mem_append, mem_forRows hpairs]
  refine or_congr ?_ ?_
  · constructor
    · rintro ⟨u, hu, rowsU, hrowsU, hr⟩
      obtain ⟨v, hv, rowsV, hrowsV, hr⟩ := (mem_forRows hrowsU).mp hr
      obtain ⟨i, hi, rowsI, hrowsI, hr⟩ := (mem_forRows hrowsV).mp hr
      refine ⟨u, hu, v, hv, i, List.mem_range.mp hi, ?_⟩
      rw [(nodeRows_eq_ok_iff.mp hrowsI).2, List.mem_append, List.mem_map, List.mem_singleton] at hr
      simpa [eq_comm] using hr
    · rintro ⟨u, hu, v, hv, i, hi, hr⟩
      obtain ⟨rowsU, hrowsU⟩ := forRows_returns_iff.mp ⟨pairRows, hpairs⟩ u hu
      obtain ⟨rowsV, hrowsV⟩ := forRows_returns_iff.mp ⟨rowsU, hrowsU⟩ v hv
      obtain ⟨rowsI, hrowsI⟩ := forRows_returns_iff.mp ⟨rowsV, hrowsV⟩ i (List.mem_range.mpr hi)
      refine ⟨u, hu, rowsU, hrowsU, (mem_forRows hrowsU).mpr ⟨v, hv, rowsV, hrowsV, ?_⟩⟩
      refine (mem_forRows hrowsV).mpr ⟨i, List.mem_range.mpr hi, rowsI, hrowsI, ?_⟩
      rw [(nodeRows_eq_ok_iff.mp hrowsI).2, List.mem_append, List.mem_map, List.mem_singleton]
      simpa [eq_comm] using hr
  · simp only [List.mem_flatMap, List.mem_map, List.mem_range, eq_comm]

end LpMluRoute

end SDNware.Planner
