/-
# SDNware.Planner.Assign — `get_s_to_d_routing`: a path, ports and flow rules for every server.

For every server of every switch with hosts and every other such switch the planner takes the widest
path of the pair, chooses a port for each hop, takes `1 / n` of the path's share (`n` servers on the
source switch) and posts one request: the devices along the path and one permit rule for each server
of the destination switch.  Nothing interrupts the loops, so a run is a fold over the list of jobs
`(u, u_i, v)` in the order of the loops (`Fabric.jobs`); an index or key that is not there, and
`randint(0, -1)`, raise (`none`).

`Hop.avail` and `Route.idx` are not in the source: they keep, next to a hop and a route, the parallel
links the port was chosen from and the index of the path.

§3 is the quota: for shares that sum to 1 a path of share `f` never gets `n·f + 1` of the servers
(`assigned_lt_quota`).  The shares that are left sum to `1 - k/n` after `k` servers, so there is a
positive one, and the widest is taken.
-/
import Mathlib.Algebra.Order.BigOperators.Group.List
import SDNware.Lib.Run
import SDNware.Planner.Descent
import SDNware.Server.Topology

namespace SDNware.Planner

open SDNware.Server (Device IfEntry IfGroup)
open LpMluRoute

/-! ## §1 — the source -/

/-- An element of `self.server[u]`: ip, port and bandwidth. -/
structure ServerLine (K : Type) where
  ip : String
  port : Int
  bw : K

/-- An element of `links[a][b]`: its port on `a`, its port on `b`, its remaining bandwidth. -/
structure Cable (K : Type) where
  port1 : String
  port2 : String
  bw : K

/-- `links`, with the empty list for absent keys. -/
abbrev Links (K : Type) := String → String → List (Cable K)

/-- What the planner has read: `route.bw_host`, `deviceList`, the interface table, `server.txt`.
`n_node` is the length of `deviceList`. -/
structure Fabric (K : Type) where
  lp : LpMluRoute K
  nodes : List Device
  nNode_eq : lp.nNode = nodes.length
  interfaces : List IfGroup
  server : Nat → List (ServerLine K)

/-- A device of a request; `idx_to_if` may answer `None`. -/
structure PathDevice where
  deviceAlias : String
  portName : Option String
  deriving DecidableEq

/-- An element of `fabricFlowPathRuleEntityList`. -/
structure FlowRule where
  seq : Nat
  action : String
  srcIp : String
  dstIp : String
  deriving DecidableEq

/-- The body of a `flowpath/save` request. -/
structure FlowRoute where
  fabricName : String
  seq : Nat
  description : String
  inDevice : PathDevice
  passDeviceList : List PathDevice
  outDevice : PathDevice
  rules : List FlowRule
  deriving DecidableEq

/-- A hop `[s, idx_p, d]`, with the parallel links its port was chosen from. -/
structure Hop (K : Type) where
  s : Nat
  port : Nat
  d : Nat
  avail : List (Cable K)

/-- `route_u_i_v`, with the index of the path it follows. -/
structure Route (K : Type) where
  u : Nat
  uI : Nat
  v : Nat
  idx : Nat
  hops : List (Hop K)

/-- The rows of `route_u_i_v`: the header, then the hops. -/
def Route.rows {K : Type} (r : Route K) : List (Nat × Nat × Nat) :=
  (r.u, r.uI, r.v) :: r.hops.map fun h => (h.s, h.port, h.d)

/-- One turn of the three loops: server `uI` of switch `u`, destination switch `v`. -/
structure Job where
  u : Nat
  uI : Nat
  v : Nat
  deriving DecidableEq

/-- The planner's state: the bandwidths and shares left, the counters, and what it has emitted. -/
structure Plan (K : Type) where
  links : Links K
  paths : Nat → Nat → List (Share K)
  seqP : Nat
  seqF : Nat
  draws : Nat
  routes : List (Route K)
  requests : List FlowRoute

/-- The state of the loop over the hops of one path. -/
structure HopState (K : Type) where
  links : Links K
  draws : Nat
  hops : List (Hop K)

section Source

variable {K : Type} [Field K] [LinearOrder K]

/-- `links[a][b][k][2] -= bw`. -/
def Links.charge (L : Links K) (a b : String) (k : Nat) (bw : K) : Links K :=
  Function.update L a
    (Function.update (L a) b ((L a b).modify k fun c => { c with bw := c.bw - bw }))

/-- The loop over the parallel links of a hop: the same search as the one for the widest path. -/
def widestPort (avail : List (Cable K)) : Nat := widestIdx (avail.map fun c => ([], c.bw))

/-- `s[1:]`. -/
def tail (s : String) : List Char := s.toList.drop 1

/-- `name_to_ip`. -/
def nameToIp (nodes : List Device) (name : String) : Option String :=
  (nodes.find? fun node => name = node.deviceName).map Device.deviceIp

/-- The ports the interface table has for a device, in the order in which the lookups meet them. -/
def portsOf (nodes : List Device) (interfaces : List IfGroup) (name : String) : List IfEntry :=
  (interfaces.filter fun group => nameToIp nodes name = some group.value).flatMap IfGroup.children

/-- `idx_to_if`. It also stores the label it returns, which it would return again. -/
def idxToIf (nodes : List Device) (interfaces : List IfGroup) (name : String) (idx : Int) :
    Option String :=
  ((portsOf nodes interfaces name).find? fun inf => toString idx = inf.value).map fun inf =>
    String.ofList ('E' :: tail inf.label)

namespace Fabric

variable (F : Fabric K)

/-- `idx_to_name`. -/
def idxToName (idx : Nat) : Option String := (F.nodes[idx]?).map Device.deviceName

/-- One hop. The test is on `idx`, the index of the path; `rand` is what `random.randint` draws. -/
def hopStep (rand : Nat → Nat) (idx : Nat) (bw : K) (st : HopState K) (arc : Nat × Nat) :
    Option (HopState K) := do
  let s ← F.idxToName arc.1
  let d ← F.idxToName arc.2
  let avail := st.links s d
  if idx < avail.length then
    some
      { links := st.links.charge s d (widestPort avail) bw
        draws := st.draws
        hops := st.hops ++ [⟨arc.1, widestPort avail, arc.2, avail⟩] }
  else if avail.length = 0 then none
  else
    some
      { links := st.links
        draws := st.draws + 1
        hops := st.hops ++ [⟨arc.1, rand st.draws % avail.length, arc.2, avail⟩] }

/-- The device a row of `route_u_i_v` leads to, with its port on the link of that row. -/
def rowDevice (links : Links K) (row : Nat × Nat × Nat) : Option PathDevice := do
  let s ← F.idxToName row.1
  let d ← F.idxToName row.2.2
  let cable ← (links s d)[row.2.1]?
  some ⟨d, some cable.port2⟩

/-- The rules of a request. -/
def flowRules (seqF : Nat) (srcIp : String) (v : Nat) : List FlowRule :=
  (F.server v).mapIdx fun i server => ⟨seqF + i, "permit", srcIp, server.ip⟩

/-- `flow_route`. -/
def flowRoute (links : Links K) (seqP seqF : Nat) (r : Route K) : Option FlowRoute := do
  let name ← F.idxToName r.u
  let server ← (F.server r.u)[r.uI]?
  let pass ← r.rows.tail.dropLast.mapM (F.rowDevice links)
  let last ← r.rows.getLast?
  let out ← F.rowDevice links last
  some
    { fabricName := "test"
      seq := seqP
      description := ""
      inDevice := ⟨name, idxToIf F.nodes F.interfaces name server.port⟩
      passDeviceList := pass
      outDevice := out
      rules := F.flowRules seqF server.ip r.v }

/-- The route of a job whose hops have been walked. -/
def jobRoute (st : Plan K) (j : Job) (walked : HopState K) : Route K :=
  ⟨j.u, j.uI, j.v, widestIdx (st.paths j.u j.v), walked.hops⟩

/-- The state after a job whose hops have been walked and whose request has been posted. -/
def commit (st : Plan K) (j : Job) (walked : HopState K) (request : FlowRoute) : Plan K where
  links := walked.links
  paths := Function.update st.paths j.u (Function.update (st.paths j.u) j.v
    (takeShare (F.server j.u).length (st.paths j.u j.v)))
  seqP := st.seqP + 1
  seqF := st.seqF + (F.server j.v).length
  draws := walked.draws
  routes := st.routes ++ [jobRoute st j walked]
  requests := st.requests ++ [request]

/-- The body of the three loops. -/
def serve (rand : Nat → Nat) (st : Plan K) (j : Job) : Option (Plan K) := do
  let server ← (F.server j.u)[j.uI]?
  let path ← widestPath (st.paths j.u j.v)
  let walked ← (pathArcs path).foldlM
    (F.hopStep rand (widestIdx (st.paths j.u j.v)) server.bw) ⟨st.links, st.draws, []⟩
  let request ← F.flowRoute walked.links st.seqP st.seqF (jobRoute st j walked)
  some (F.commit st j walked request)

/-- The turns of the loops over `u`, `u_i` and `v`. -/
def jobs : List Job :=
  F.lp.hosts.flatMap fun u => (List.range (F.server u).length).flatMap fun uI =>
    (F.lp.peers u).map fun v => ⟨u, uI, v⟩

end Fabric

/-- The planner before its first job. -/
def Plan.start (links : Links K) (paths : Nat → Nat → List (Share K)) : Plan K :=
  ⟨links, paths, 128, 128, 0, [], []⟩

/-- `get_s_to_d_routing`, `paths` being what `get_all_paths` returns. -/
def Fabric.getSToDRouting (F : Fabric K) (rand : Nat → Nat) (links : Links K)
    (paths : Nat → Nat → List (Share K)) : Option (Plan K) :=
  F.jobs.foldlM (F.serve rand) (Plan.start links paths)

end Source

/-! ## §2 — jobs -/

section Jobs

variable {K : Type} [Field K] [LinearOrder K] {F : Fabric K}

theorem mem_jobs {j : Job} :
    j ∈ F.jobs ↔ j.u ∈ F.lp.hosts ∧ j.uI < (F.server j.u).length ∧ j.v ∈ F.lp.peers j.u := by
  obtain ⟨u, uI, v⟩ := j
  unfold Fabric.jobs
  simp only [List.mem_flatMap, List.mem_map, List.mem_range, Job.mk.injEq]
  constructor
  · rintro ⟨u', hu, uI', huI, v', hv, rfl, rfl, rfl⟩
    exact ⟨hu, huI, hv⟩
  · rintro ⟨hu, huI, hv⟩
    exact ⟨u, hu, uI, huI, v, hv, rfl, rfl, rfl⟩

/-- No job is done twice. -/
theorem jobs_nodup : F.jobs.Nodup := by
  have hhosts : F.lp.hosts.Nodup := hosts_nodup
  unfold Fabric.jobs
  refine List.nodup_flatMap.mpr ⟨fun u _ => ?_, hhosts.imp fun {u u'} hne => ?_⟩
  · refine List.nodup_flatMap.mpr ⟨fun uI _ => ?_, List.nodup_range.imp fun {i i'} hne => ?_⟩
    · exact (hhosts.filter _).map fun v v' h => congrArg Job.v h
    · intro j hj hj'
      obtain ⟨v, -, rfl⟩ := List.mem_map.mp hj
      obtain ⟨v', -, heq⟩ := List.mem_map.mp hj'
      exact hne (congrArg Job.uI heq).symm
  · intro j hj hj'
    obtain ⟨i, -, hi⟩ := List.mem_flatMap.mp hj
    obtain ⟨v, -, rfl⟩ := List.mem_map.mp hi
    obtain ⟨i', -, hi'⟩ := List.mem_flatMap.mp hj'
    obtain ⟨v', -, heq⟩ := List.mem_map.mp hi'
    exact hne (congrArg Job.u heq).symm

/-- The job is one of the pair `(u, v)`. -/
def Job.OfPair (u v : Nat) (j : Job) : Prop := j.u = u ∧ j.v = v

instance (u v : Nat) (j : Job) : Decidable (j.OfPair u v) := inferInstanceAs (Decidable (_ ∧ _))

/-- The servers of a pair of switches with hosts, each once. -/
theorem countP_jobs {u v : Nat} (hu : u ∈ F.lp.hosts) (hv : v ∈ F.lp.peers u) :
    F.jobs.countP (Job.OfPair u v ·) = (F.server u).length := by
  have hnodup : ((F.jobs.filter (Job.OfPair u v ·)).map Job.uI).Nodup := by
    refine List.Nodup.map_on ?_ (jobs_nodup.filter _)
    intro j hj j' hj' heq
    obtain ⟨-, hpair⟩ := List.mem_filter.mp hj
    obtain ⟨-, hpair'⟩ := List.mem_filter.mp hj'
    simp only [decide_eq_true_eq] at hpair hpair'
    obtain ⟨a, i, b⟩ := j
    obtain ⟨a', i', b'⟩ := j'
    obtain ⟨ha, hb⟩ := hpair
    obtain ⟨ha', hb'⟩ := hpair'
    simp only at ha hb ha' hb' heq
    rw [ha, hb, ha', hb', heq]
  have hperm : ((F.jobs.filter (Job.OfPair u v ·)).map Job.uI).Perm
      (List.range (F.server u).length) := by
    refine (List.perm_ext_iff_of_nodup hnodup List.nodup_range).mpr fun i => ?_
    rw [List.mem_map, List.mem_range]
    constructor
    · rintro ⟨j, hj, rfl⟩
      obtain ⟨hj, hpair⟩ := List.mem_filter.mp hj
      rw [decide_eq_true_eq] at hpair
      rw [← hpair.1]
      exact (mem_jobs.mp hj).2.1
    · intro hi
      exact ⟨⟨u, i, v⟩, List.mem_filter.mpr ⟨mem_jobs.mpr ⟨hu, hi, hv⟩, by simp [Job.OfPair]⟩, rfl⟩
  rw [List.countP_eq_length_filter, ← List.length_map Job.uI, hperm.length_eq, List.length_range]

/-- A part of the loops has at most one job for each server of a pair. -/
theorem countP_jobs_le {jobs : List Job} (hdone : jobs <+: F.jobs) (u v : Nat) :
    jobs.countP (Job.OfPair u v ·) ≤ (F.server u).length := by
  have hle := hdone.sublist.countP_le (p := (Job.OfPair u v ·))
  by_cases hpair : u ∈ F.lp.hosts ∧ v ∈ F.lp.peers u
  · rwa [countP_jobs hpair.1 hpair.2] at hle
  · have hnone : F.jobs.countP (Job.OfPair u v ·) = 0 := by
      rw [List.countP_eq_zero]
      rintro j hj hof
      rw [decide_eq_true_eq] at hof
      obtain ⟨hu, -, hv⟩ := mem_jobs.mp hj
      rw [hof.1] at hu hv
      rw [hof.2] at hv
      exact hpair ⟨hu, hv⟩
    omega

/-- Writing one cell of a table. -/
theorem update_update_apply {α β γ : Type} [DecidableEq α] [DecidableEq β] (f : α → β → γ) (a : α)
    (b : β) (c : γ) (a' : α) (b' : β) :
    Function.update f a (Function.update (f a) b c) a' b' = if a' = a ∧ b' = b then c else f a' b' := by
  by_cases ha : a' = a
  · subst ha
    rw [Function.update_self]
    by_cases hb : b' = b
    · subst hb
      rw [Function.update_self, if_pos ⟨rfl, rfl⟩]
    · rw [Function.update_of_ne hb, if_neg fun h => hb h.2]
  · rw [Function.update_of_ne ha, if_neg fun h => ha h.1]

/-- A job takes a share from the paths of its pair only. -/
theorem paths_commit (st : Plan K) (j : Job) (walked : HopState K) (request : FlowRoute) (u v : Nat) :
    (F.commit st j walked request).paths u v
      = if u = j.u ∧ v = j.v then takeShare (F.server j.u).length (st.paths j.u j.v)
        else st.paths u v :=
  update_update_apply ..

/-- What a job that is done has done. -/
theorem serve_eq_some {rand : Nat → Nat} {st st' : Plan K} {j : Job}
    (h : F.serve rand st j = some st') :
    ∃ server path walked request, (F.server j.u)[j.uI]? = some server ∧
      widestPath (st.paths j.u j.v) = some path ∧
      (pathArcs path).foldlM (F.hopStep rand (widestIdx (st.paths j.u j.v)) server.bw)
        ⟨st.links, st.draws, []⟩ = some walked ∧
      F.flowRoute walked.links st.seqP st.seqF (Fabric.jobRoute st j walked) = some request ∧
      st' = F.commit st j walked request := by
  unfold Fabric.serve at h
  simp only [Option.bind_eq_bind, Option.bind_eq_some_iff] at h
  obtain ⟨server, hserver, path, hpath, walked, hwalked, request, hrequest, hst⟩ := h
  exact ⟨server, path, walked, request, hserver, hpath, hwalked, hrequest, (Option.some.inj hst).symm⟩

end Jobs

/-! ## §3 — quotas -/

section Widest

variable {K : Type} [LinearOrder K]

/-- The search for the widest: it keeps what it has if nothing is wider, and ends at a widest
otherwise. -/
theorem widestLoop_spec : ∀ (rest : List (Share K)) (i idx : Nat) (bw : K),
    (widestLoop rest i idx bw = idx ∧ ∀ s ∈ rest, s.2 ≤ bw) ∨
      ∃ j s, rest[j]? = some s ∧ widestLoop rest i idx bw = i + j ∧ bw < s.2 ∧
        ∀ s' ∈ rest, s'.2 ≤ s.2
  | [], _, _, _ => .inl ⟨rfl, by simp⟩
  | s :: rest, i, idx, bw => by
      unfold widestLoop
      by_cases hlt : bw < s.2
      · rw [if_pos hlt]
        right
        rcases widestLoop_spec rest (i + 1) i s.2 with ⟨heq, hle⟩ | ⟨j, t, ht, heq, hst, hle⟩
        · exact ⟨0, s, rfl, heq, hlt, List.forall_mem_cons.mpr ⟨le_rfl, hle⟩⟩
        · refine ⟨j + 1, t, ht, ?_, hlt.trans hst, List.forall_mem_cons.mpr ⟨hst.le, hle⟩⟩
          rw [heq]
          omega
      · rw [if_neg hlt]
        rcases widestLoop_spec rest (i + 1) idx bw with ⟨heq, hle⟩ | ⟨j, t, ht, heq, hbt, hle⟩
        · exact .inl ⟨heq, List.forall_mem_cons.mpr ⟨not_lt.mp hlt, hle⟩⟩
        · refine .inr ⟨j + 1, t, ht, ?_, hbt, List.forall_mem_cons.mpr ⟨?_, hle⟩⟩
          · rw [heq]
            omega
          · exact (not_lt.mp hlt).trans hbt.le

variable [Field K]

/-- With a positive share the search ends at a positive and largest one. -/
theorem widestIdx_spec {paths : List (Share K)} (h : ∃ s ∈ paths, 0 < s.2) :
    ∃ s, paths[widestIdx paths]? = some s ∧ 0 < s.2 ∧ ∀ s' ∈ paths, s'.2 ≤ s.2 := by
  obtain ⟨s₀, hs₀, hpos⟩ := h
  rcases widestLoop_spec paths 0 0 0 with ⟨-, hle⟩ | ⟨j, s, hs, heq, hlt, hle⟩
  · exact absurd (hle s₀ hs₀) hpos.not_ge
  · refine ⟨s, ?_, hlt, hle⟩
    unfold widestIdx
    rw [heq, Nat.zero_add, hs]

end Widest

section Quota

variable {K : Type} [Field K] [LinearOrder K]

/-- The share of path `i`. -/
def shareAt (paths : List (Share K)) (i : Nat) : K := ((paths[i]?).map Prod.snd).getD 0

/-- The paths the next `m` servers get, by their index. -/
def picks (nServer : Nat) : Nat → List (Share K) → List Nat
  | 0, _ => []
  | m + 1, paths => widestIdx paths :: picks nServer m (takeShare nServer paths)

theorem picks_length (n m : Nat) (paths : List (Share K)) : (picks n m paths).length = m := by
  induction m generalizing paths with
  | zero => rfl
  | succ m ih => rw [picks, List.length_cons, ih]

theorem picks_succ (n m : Nat) (paths : List (Share K)) :
    picks n (m + 1) paths = picks n m paths ++ [widestIdx ((takeShare n)^[m] paths)] := by
  induction m generalizing paths with
  | zero => rfl
  | succ m ih =>
    show widestIdx paths :: picks n (m + 1) (takeShare n paths) = _
    rw [ih (takeShare n paths)]
    rfl

theorem shareAt_takeShare (n : Nat) (paths : List (Share K)) (i : Nat) (hi : i < paths.length) :
    shareAt (takeShare n paths) i = shareAt paths i - if i = widestIdx paths then 1 / (n : K) else 0 := by
  unfold shareAt takeShare
  rw [List.getElem?_modify, List.getElem?_eq_getElem hi]
  by_cases heq : widestIdx paths = i
  · simp [heq]
  · simp [heq, Ne.symm heq]

omit [LinearOrder K] in
theorem total_modify {c : K} : ∀ {paths : List (Share K)} {i : Nat}, i < paths.length →
    total (paths.modify i fun s => (s.1, s.2 - c)) = total paths - c
  | [], _, h => absurd h (by simp)
  | s :: paths, 0, _ => by
      simp only [List.modify_zero_cons, total_cons]
      ring
  | s :: paths, i + 1, h => by
      simp only [List.modify_succ_cons, total_cons]
      rw [total_modify (by simpa using h)]
      ring

theorem total_takeShare (n : Nat) {paths : List (Share K)} (h : paths ≠ []) :
    total (takeShare n paths) = total paths - 1 / (n : K) :=
  total_modify (widestIdx_lt h)

theorem iterate_takeShare_length (n m : Nat) (paths : List (Share K)) :
    ((takeShare n)^[m] paths).length = paths.length := by
  induction m generalizing paths with
  | zero => rfl
  | succ m ih =>
    rw [Function.iterate_succ_apply, ih]
    exact List.length_modify ..

/-- What is left of the shares after `m` servers. -/
theorem total_iterate_takeShare (n m : Nat) {paths : List (Share K)} (h : paths ≠ []) :
    total ((takeShare n)^[m] paths) = total paths - m / (n : K) := by
  induction m generalizing paths with
  | zero => simp
  | succ m ih =>
    rw [Function.iterate_succ_apply, ih (takeShare_ne_nil h), total_takeShare n h, Nat.cast_succ]
    ring

/-- What is left of one share. -/
theorem shareAt_iterate_takeShare (n m : Nat) (paths : List (Share K)) {i : Nat}
    (hi : i < paths.length) :
    shareAt ((takeShare n)^[m] paths) i = shareAt paths i - (picks n m paths).count i / (n : K) := by
  induction m with
  | zero => simp [picks]
  | succ m ih =>
    rw [Function.iterate_succ_apply', shareAt_takeShare, ih, picks_succ, List.count_append,
      List.count_singleton]
    · by_cases heq : i = widestIdx ((takeShare n)^[m] paths)
      · rw [if_pos heq, if_pos (by simp [heq])]
        push_cast
        ring
      · rw [if_neg heq, if_neg (by simpa using Ne.symm heq)]
        push_cast
        ring
    · rwa [iterate_takeShare_length]

variable [IsStrictOrderedRing K]

theorem exists_pos_of_total_pos {paths : List (Share K)} (h : 0 < total paths) :
    ∃ s ∈ paths, 0 < s.2 := by
  by_contra hnone
  push Not at hnone
  have hle : total paths ≤ 0 := by
    refine (List.sum_le_card_nsmul _ 0 fun x hx => ?_).trans_eq (smul_zero _)
    obtain ⟨s, hs, rfl⟩ := List.mem_map.mp hx
    exact hnone s hs
  exact hle.not_gt h

/-- **Greedy quotas.** Of the first `m` servers fewer than `n·f + 1` get a path of share `f`, as long
as something is left of the shares for each of them. -/
theorem count_picks_lt_of_lt_total {n m : Nat} {paths : List (Share K)}
    (hnonneg : ∀ s ∈ paths, 0 ≤ s.2) (hsum : (m : K) < n * total paths + 1) (i : Nat) :
    ((picks n m paths).count i : K) < n * shareAt paths i + 1 := by
  have hshare : 0 ≤ shareAt paths i := by
    unfold shareAt
    cases hi : paths[i]? with
    | none => simp
    | some s => exact hnonneg s (List.mem_of_getElem? hi)
  induction m with
  | zero =>
    have hprod : 0 ≤ (n : K) * shareAt paths i := mul_nonneg (Nat.cast_nonneg n) hshare
    simp only [picks, List.count_nil, Nat.cast_zero]
    linarith
  | succ m ih =>
    have hm : (m : K) < n * total paths := by
      push_cast at hsum
      linarith
    have hprod : 0 < (n : K) * total paths := (Nat.cast_nonneg m).trans_lt hm
    have hn : (0 : K) < n := (Nat.cast_nonneg n).lt_of_ne fun h0 => by simp [← h0] at hprod
    have hne : paths ≠ [] := by
      rintro rfl
      simp [total] at hprod
    -- something is left, so the widest share is positive
    have hleft : 0 < total ((takeShare n)^[m] paths) := by
      rw [total_iterate_takeShare n m hne, sub_pos, div_lt_iff₀ hn, mul_comm]
      exact hm
    obtain ⟨s, hs, hpos, -⟩ := widestIdx_spec (exists_pos_of_total_pos hleft)
    rw [picks_succ, List.count_append, List.count_singleton]
    by_cases heq : widestIdx ((takeShare n)^[m] paths) = i
    · have hi : i < paths.length := by
        rw [← heq, ← iterate_takeShare_length n m paths]
        exact (List.getElem?_eq_some_iff.mp hs).1
      have hrest : 0 < shareAt ((takeShare n)^[m] paths) i := by
        unfold shareAt
        rw [← heq, hs]
        exact hpos
      rw [shareAt_iterate_takeShare n m paths hi, sub_pos, div_lt_iff₀ hn] at hrest
      rw [if_pos (by simp [heq])]
      push_cast
      linarith
    · rw [if_neg (by simpa using heq), Nat.add_zero]
      exact ih (by linarith)

/-- Shares that sum to 1 are enough for `n` servers. -/
theorem count_picks_lt {n m : Nat} (hm : m ≤ n) {paths : List (Share K)}
    (hnonneg : ∀ s ∈ paths, 0 ≤ s.2) (hsum : total paths = 1) (i : Nat) :
    ((picks n m paths).count i : K) < n * shareAt paths i + 1 := by
  apply count_picks_lt_of_lt_total hnonneg
  rw [hsum, mul_one]
  exact_mod_cast Nat.lt_succ_of_le hm

end Quota

/-! ## §4 — quotas along the run -/

section Run

variable {K : Type} [Field K] [LinearOrder K] {F : Fabric K} {rand : Nat → Nat} {links : Links K}
  {paths : Nat → Nat → List (Share K)}

/-- The paths the servers of a pair have got, by their index. -/
def pairPicks (routes : List (Route K)) (u v : Nat) : List Nat :=
  (routes.filter fun r => r.u = u ∧ r.v = v).map Route.idx

/-- A pair's servers get the widest paths of the pair one after the other, whatever happens to the
other pairs in between. -/
theorem run_picks {jobs : List Job} {st : Plan K}
    (hrun : jobs.foldlM (F.serve rand) (Plan.start links paths) = some st) (u v : Nat) :
    st.paths u v
        = (takeShare (F.server u).length)^[jobs.countP (Job.OfPair u v ·)] (paths u v) ∧
      pairPicks st.routes u v
        = picks (F.server u).length (jobs.countP (Job.OfPair u v ·)) (paths u v) := by
  induction jobs using List.reverseRecOn generalizing st with
  | nil =>
    obtain rfl : Plan.start links paths = st := Option.some.inj hrun
    exact ⟨rfl, rfl⟩
  | append_singleton jobs j ih =>
    obtain ⟨mid, hmid, hlast⟩ := Run.foldlM_append_some hrun
    obtain ⟨st', hserve, hend⟩ := Run.foldlM_cons_some hlast
    obtain rfl : st' = st := Option.some.inj hend
    obtain ⟨hpaths, hpicks⟩ := ih hmid
    obtain ⟨-, -, walked, request, -, -, -, -, rfl⟩ := serve_eq_some hserve
    rw [List.countP_append, List.countP_singleton]
    by_cases hpair : j.OfPair u v
    · obtain ⟨rfl, rfl⟩ := id hpair
      rw [if_pos (by simpa using hpair), Function.iterate_succ_apply', picks_succ, ← hpaths, ← hpicks]
      constructor
      · rw [paths_commit, if_pos ⟨rfl, rfl⟩]
      · show ((mid.routes ++ [_]).filter _).map Route.idx = _
        rw [List.filter_append, List.map_append]
        simp [pairPicks, Fabric.jobRoute]
    · rw [if_neg (by simpa using hpair), Nat.add_zero, ← hpaths, ← hpicks]
      constructor
      · rw [paths_commit, if_neg fun h => hpair ⟨h.1.symm, h.2.symm⟩]
      · show ((mid.routes ++ [_]).filter _).map Route.idx = _
        have hskip : ¬ (j.u = u ∧ j.v = v) := hpair
        rw [List.filter_append, List.map_append]
        simp [pairPicks, Fabric.jobRoute, hskip]

omit [Field K] [LinearOrder K] in
theorem count_pairPicks (routes : List (Route K)) (u v i : Nat) :
    (pairPicks routes u v).count i = routes.countP fun r => r.u = u ∧ r.v = v ∧ r.idx = i := by
  unfold pairPicks
  rw [List.count_eq_countP, List.countP_map, List.countP_filter]
  refine List.countP_congr fun r _ => ?_
  simp only [Function.comp_apply, Bool.and_eq_true, beq_iff_eq, decide_eq_true_eq]
  tauto

/-- **Servers are spread over paths within quota.** At any time of the loops and for every pair of
switches whose path shares are non-negative and sum to 1: fewer than `n·f + 1` of the `n` servers of
`u` have got a path to `v` of share `f`; and when the loops have ended, every server of a switch with
hosts has got a path to every other such switch. -/
theorem assigned_lt_quota [IsStrictOrderedRing K] (F : Fabric K) (rand : Nat → Nat) (links : Links K)
    (paths : Nat → Nat → List (Share K)) (jobs : List Job) (hjobs : jobs <+: F.jobs) (plan : Plan K)
    (hrun : jobs.foldlM (F.serve rand) (Plan.start links paths) = some plan) (u v : Nat)
    (hnonneg : ∀ s ∈ paths u v, 0 ≤ s.2) (hsum : total (paths u v) = 1) :
    (∀ i, ((plan.routes.countP fun r => r.u = u ∧ r.v = v ∧ r.idx = i : Nat) : K)
        < (F.server u).length * shareAt (paths u v) i + 1) ∧
      (jobs = F.jobs → u ∈ F.lp.hosts → v ∈ F.lp.peers u →
        (plan.routes.countP fun r => r.u = u ∧ r.v = v) = (F.server u).length) := by
  obtain ⟨-, hpicks⟩ := run_picks hrun u v
  constructor
  · intro i
    rw [← count_pairPicks, hpicks]
    exact count_picks_lt (countP_jobs_le hjobs u v) hnonneg hsum i
  · rintro rfl hu hv
    have hlen := congrArg List.length hpicks
    rw [picks_length, countP_jobs hu hv] at hlen
    rw [List.countP_eq_length_filter, ← List.length_map Route.idx]
    exact hlen

end Run

/-- Two leaves with two servers each, and two spines. -/
def leafSpine : Fabric ℚ where
  lp := ⟨4, fun u => if u < 2 then 200 else 0, fun i j => if i < 2 ↔ j < 2 then 0 else 100⟩
  nodes := [⟨"Leaf1", "10.0.0.1"⟩, ⟨"Leaf2", "10.0.0.2"⟩, ⟨"Spine1", "10.0.0.3"⟩, ⟨"Spine2", "10.0.0.4"⟩]
  nNode_eq := rfl
  interfaces := [⟨"10.0.0.1", [⟨"1", "eth1"⟩, ⟨"2", "eth2"⟩]⟩]
  server := fun u =>
    if u = 0 then [⟨"172.16.1.1", 1, 100⟩, ⟨"172.16.1.2", 2, 100⟩]
    else if u = 1 then [⟨"172.16.2.1", 1, 100⟩, ⟨"172.16.2.2", 2, 100⟩]
    else []

/-- Every leaf is connected to every spine by one cable. -/
def leafSpineLinks : Links ℚ := fun a b =>
  if a ∈ ["Leaf1", "Leaf2"] ∧ b ∈ ["Spine1", "Spine2"] ∨
      a ∈ ["Spine1", "Spine2"] ∧ b ∈ ["Leaf1", "Leaf2"] then
    [⟨"to" ++ b, "to" ++ a, 100⟩]
  else []

/-- Half of the traffic goes over each spine. -/
def leafSpinePaths (u v : Nat) : List (Share ℚ) := [([u, 2, v], 1 / 2), ([u, 3, v], 1 / 2)]

/-- Each spine gets fewer than two of the two servers of the first leaf. -/
theorem assigned_lt_quota_leafSpine :
    ∃ plan, leafSpine.getSToDRouting id leafSpineLinks leafSpinePaths = some plan ∧
      ((plan.routes.countP fun r => r.u = 0 ∧ r.v = 1 ∧ r.idx = 0 : Nat) : ℚ)
        < (leafSpine.server 0).length * shareAt (leafSpinePaths 0 1) 0 + 1 := by
  obtain ⟨plan, hrun⟩ := Option.isSome_iff_exists.mp
    (show (leafSpine.getSToDRouting id leafSpineLinks leafSpinePaths).isSome by decide +kernel)
  exact ⟨plan, hrun, (assigned_lt_quota leafSpine id leafSpineLinks leafSpinePaths leafSpine.jobs
    (List.prefix_refl _) plan hrun 0 1 (by decide +kernel) (by decide +kernel)).1 0⟩

end SDNware.Planner
