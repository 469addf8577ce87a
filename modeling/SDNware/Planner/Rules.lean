/-
# SDNware.Planner.Rules — the requests `get_s_to_d_routing` posts.

A request is put together from the rows of `route_u_i_v`: the header row gives `inDevice`, the rows
up to the last one `passDeviceList`, the last row `outDevice`, and there is one permit rule for each
server of the destination switch.  `rules_cover` is what this amounts to for the fabric: if no two
servers share an IP and every pair of switches with hosts has a path, each over existing links, the
planner ends whatever it draws, every ordered pair of servers on different switches has exactly one
rule, sequence numbers do not repeat, and the request of a rule describes a connected path from the
switch of the source to the switch of the destination.

The ports of a request are read from the link table after the hops have been booked.  Booking leaves
the ports alone (`Kept.ports`), so they are ports of the table the planner started from.  The label
of the port `inDevice` enters by comes from `idx_to_if`, which may know none.
-/
import Mathlib.Data.List.Chain
import SDNware.Planner.Ports

namespace SDNware.Planner

open LpMluRoute

variable {K : Type} [Field K] [LinearOrder K]

/-! ## §1 — what a request describes -/

/-- `dev` is entered through the far port of a link from `prev`. -/
def Ingress (links : Links K) (prev dev : PathDevice) : Prop :=
  ∃ cable ∈ links prev.deviceAlias dev.deviceAlias, dev.portName = some cable.port2

/-- The devices of a request, from end to end. -/
def FlowRoute.devices (req : FlowRoute) : List PathDevice :=
  req.inDevice :: (req.passDeviceList ++ [req.outDevice])

/-- The two IPs of a rule. -/
def FlowRule.ends (rule : FlowRule) : String × String := (rule.srcIp, rule.dstIp)

/-- The devices are the switches of the path in order, each entered from the one before. -/
structure Describes (F : Fabric K) (links : Links K) (path : List Nat) (req : FlowRoute) : Prop where
  names : req.devices.map (fun dev => some dev.deviceAlias) = path.map F.idxToName
  chain : req.devices.IsChain (Ingress links)

/-- A path from `u` to `v` over existing links. -/
structure LinkedPath (F : Fabric K) (links : Links K) (u v : Nat) (path : List Nat) : Prop where
  head : path.head? = some u
  last : path.getLast? = some v
  arcs : ∀ arc ∈ pathArcs path, ∃ a ∈ F.idxToName arc.1, ∃ b ∈ F.idxToName arc.2, links a b ≠ []

instance (F : Fabric K) (links : Links K) (u v : Nat) (path : List Nat) :
    Decidable (LinkedPath F links u v path) :=
  decidable_of_iff (path.head? = some u ∧ path.getLast? = some v ∧ ∀ arc ∈ pathArcs path,
      ∃ a ∈ F.idxToName arc.1, ∃ b ∈ F.idxToName arc.2, links a b ≠ [])
    ⟨fun h => ⟨h.1, h.2.1, h.2.2⟩, fun h => ⟨h.head, h.last, h.arcs⟩⟩

/-- What the planner is given. -/
structure Routable (F : Fabric K) (links : Links K) (paths : Nat → Nat → List (Share K)) : Prop where
  ips : ((List.range F.lp.nNode).flatMap fun u => (F.server u).map ServerLine.ip).Nodup
  paths_ne : ∀ u ∈ F.lp.hosts, ∀ v ∈ F.lp.peers u, paths u v ≠ []
  linked : ∀ u ∈ F.lp.hosts, ∀ v ∈ F.lp.peers u, ∀ path ∈ (paths u v).map Prod.fst,
    LinkedPath F links u v path

instance (F : Fabric K) (links : Links K) (paths : Nat → Nat → List (Share K)) :
    Decidable (Routable F links paths) :=
  decidable_of_iff
    (((List.range F.lp.nNode).flatMap fun u => (F.server u).map ServerLine.ip).Nodup ∧
      (∀ u ∈ F.lp.hosts, ∀ v ∈ F.lp.peers u, paths u v ≠ []) ∧
      ∀ u ∈ F.lp.hosts, ∀ v ∈ F.lp.peers u, ∀ path ∈ (paths u v).map Prod.fst,
        LinkedPath F links u v path)
    ⟨fun h => ⟨h.1, h.2.1, h.2.2⟩, fun h => ⟨h.ips, h.paths_ne, h.linked⟩⟩

section Request

variable {F : Fabric K} {L L' : Links K} {idx : Nat}

omit [LinearOrder K] [Field K] in
theorem exists_of_ports {l l' : List (Cable K)} (h : l'.map Cable.ports = l.map Cable.ports) {k : Nat}
    (hk : k < l.length) : ∃ cable ∈ l, ∃ cable', l'[k]? = some cable' ∧ cable'.port2 = cable.port2 := by
  have hget := congrArg (·[k]?) h
  simp only [List.getElem?_map, List.getElem?_eq_getElem hk, Option.map_some] at hget
  obtain ⟨cable', hcable', hports⟩ := Option.map_eq_some_iff.mp hget
  exact ⟨l[k], List.getElem_mem hk, cable', hcable', congrArg Prod.snd hports⟩

/-- The device of a hop's row is entered through a port of the initial table. -/
theorem HopOk.rowDevice {h : Hop K} (hok : HopOk F L idx h)
    (hports : ∀ a b, (L' a b).map Cable.ports = (L a b).map Cable.ports) {a b : String}
    (ha : F.idxToName h.s = some a) (hb : F.idxToName h.d = some b) :
    ∃ cable ∈ L a b, F.rowDevice L' (h.s, h.port, h.d) = some ⟨b, some cable.port2⟩ := by
  obtain ⟨a', b', ha', hb', havail⟩ := hok.named
  obtain rfl : a' = a := Option.some.inj (ha'.symm.trans ha)
  obtain rfl : b' = b := Option.some.inj (hb'.symm.trans hb)
  have hlt : h.port < (L a' b').length := length_eq_of_ports havail ▸ hok.port_lt
  obtain ⟨cable, hmem, cable', hget, hport⟩ := exists_of_ports (hports a' b') hlt
  refine ⟨cable, hmem, ?_⟩
  simp [Fabric.rowDevice, ha, hb, hget, hport]

/-- The devices of the hops of a path, each entered from the one before. -/
theorem devices_of_walk (hports : ∀ a b, (L' a b).map Cable.ports = (L a b).map Cable.ports) :
    ∀ {rest : List Nat} {a : Nat} {hops : List (Hop K)} {dev : PathDevice},
      (∀ h ∈ hops, HopOk F L idx h) → hops.map Hop.arc = pathArcs (a :: rest) →
      F.idxToName a = some dev.deviceAlias →
      ∃ devs, (hops.map fun h => (h.s, h.port, h.d)).mapM (F.rowDevice L') = some devs ∧
        (dev :: devs).IsChain (Ingress L) ∧
        (dev :: devs).map (fun d => some d.deviceAlias) = (a :: rest).map F.idxToName
  | [], a, hops, dev, _, harcs, ha => by
      obtain rfl : hops = [] := List.map_eq_nil_iff.mp harcs
      exact ⟨[], rfl, List.isChain_singleton dev, by simp [ha]⟩
  | b :: rest, a, hops, dev, hok, harcs, ha => by
      obtain ⟨h, hops', rfl, harc, harcs'⟩ := List.map_eq_cons_iff.mp harcs
      obtain ⟨rfl, rfl⟩ : h.s = a ∧ h.d = b := Prod.mk.inj harc
      obtain ⟨-, name, -, hname, -⟩ := (hok h List.mem_cons_self).named
      obtain ⟨cable, hcable, hrow⟩ := (hok h List.mem_cons_self).rowDevice hports ha hname
      have hnext : F.idxToName h.d = some (PathDevice.mk name (some cable.port2)).deviceAlias := hname
      obtain ⟨devs, hdevs, hchain, hnames⟩ := devices_of_walk hports
        (fun h' hh' => hok h' (List.mem_cons_of_mem h hh')) harcs' hnext
      refine ⟨⟨name, some cable.port2⟩ :: devs, ?_, ?_, ?_⟩
      · simp [List.mapM_cons, hrow, hdevs]
      · exact List.isChain_cons_cons.mpr ⟨⟨cable, hcable, rfl⟩, hchain⟩
      · rw [List.map_cons, hnames, ← ha]
        rfl

omit [Field K] [LinearOrder K] in
theorem mapM_dropLast {α β : Type} {f : α → Option β} {l : List α} {bs : List β} (hne : l ≠ [])
    (h : l.mapM f = some bs) :
    ∃ bs' b, bs = bs' ++ [b] ∧ l.dropLast.mapM f = some bs' ∧ f (l.getLast hne) = some b := by
  rw [← List.dropLast_append_getLast hne, List.mapM_append] at h
  simp only [Option.bind_eq_bind, Option.bind_eq_some_iff, List.mapM_cons, List.mapM_nil] at h
  obtain ⟨bs', hinit, last, ⟨b, hb, rest, hrest, hlast⟩, hbs⟩ := h
  obtain rfl : [] = rest := Option.some.inj hrest
  obtain rfl : [b] = last := Option.some.inj hlast
  exact ⟨bs', b, (Option.some.inj hbs).symm, hinit, hb⟩

/-- **The request of a route.** If the hops of a route lead along a path, the request is assembled,
and it describes the path. -/
theorem flowRoute_spec (hports : ∀ a b, (L' a b).map Cable.ports = (L a b).map Cable.ports)
    {r : Route K} (hok : ∀ h ∈ r.hops, HopOk F L idx h) {path : List Nat}
    (hpath : LinkedPath F L r.u r.v path) (huv : r.u ≠ r.v) (harcs : r.hops.map Hop.arc = pathArcs path)
    {server : ServerLine K} (hserver : (F.server r.u)[r.uI]? = some server) (seqP seqF : Nat) :
    ∃ req, F.flowRoute L' seqP seqF r = some req ∧ req.seq = seqP ∧
      req.rules = F.flowRules seqF server.ip r.v ∧ Describes F L path req := by
  -- a path between different switches has a first arc
  obtain ⟨b, rest, rfl⟩ : ∃ b rest, path = r.u :: b :: rest := by
    obtain _ | ⟨a, _ | ⟨b, rest⟩⟩ := path
    · exact absurd hpath.head (by simp)
    · have hu : a = r.u := Option.some.inj hpath.head
      have hv : a = r.v := Option.some.inj hpath.last
      exact absurd (hu.symm.trans hv) huv
    · have hu : a = r.u := Option.some.inj hpath.head
      exact ⟨b, rest, by rw [hu]⟩
  obtain ⟨name, hname, -⟩ := hpath.arcs (r.u, b) List.mem_cons_self
  have hin : F.idxToName r.u
      = some (PathDevice.mk name (idxToIf F.nodes F.interfaces name server.port)).deviceAlias := hname
  obtain ⟨devs, hdevs, hchain, hnames⟩ := devices_of_walk hports hok harcs hin
  have hne : (r.hops.map fun h => (h.s, h.port, h.d)) ≠ [] := by
    intro hnil
    rw [List.map_eq_nil_iff.mp hnil] at harcs
    exact absurd harcs (by simp [pathArcs])
  obtain ⟨pass, out, rfl, hpass, hout⟩ := mapM_dropLast hne hdevs
  have hlast : r.rows.getLast? = some ((r.hops.map fun h => (h.s, h.port, h.d)).getLast hne) := by
    unfold Route.rows
    rw [List.getLast?_cons_of_ne_nil hne, List.getLast?_eq_some_getLast hne]
  refine ⟨⟨"test", seqP, "", ⟨name, idxToIf F.nodes F.interfaces name server.port⟩, pass, out,
    F.flowRules seqF server.ip r.v⟩, ?_, rfl, rfl, hnames, hchain⟩
  have htail : r.rows.tail.dropLast.mapM (F.rowDevice L') = some pass := hpass
  simp only [Fabric.flowRoute, hin, hserver, htail, hlast, hout, Option.bind_eq_bind, Option.bind_some]

end Request

/-! ## §2 — the requests of a run -/

/-- The request of a job: the rules of its server, along a path of its pair. -/
def Carries (F : Fabric K) (links : Links K) (paths : Nat → Nat → List (Share K)) (j : Job)
    (req : FlowRoute) : Prop :=
  ∃ server seqF, (F.server j.u)[j.uI]? = some server ∧ req.rules = F.flowRules seqF server.ip j.v ∧
    ∃ path ∈ (paths j.u j.v).map Prod.fst, Describes F links path req

/-- The requests so far are numbered without a gap. -/
structure Numbered (plan : Plan K) : Prop where
  seqP : plan.seqP = 128 + plan.requests.length
  seqs : plan.requests.map FlowRoute.seq = List.range' 128 plan.requests.length

/-- The requests so far: one for each job, its rules numbered without a gap too. -/
structure Emitted (F : Fabric K) (links : Links K) (paths : Nat → Nat → List (Share K))
    (plan : Plan K) : Prop extends Numbered plan where
  requests : List.Forall₂ (Carries F links paths) (plan.routes.map Route.job) plan.requests
  seqF : plan.seqF = 128 + (plan.requests.flatMap FlowRoute.rules).length
  ruleSeqs : (plan.requests.flatMap FlowRoute.rules).map FlowRule.seq
    = List.range' 128 (plan.requests.flatMap FlowRoute.rules).length

section Emit

variable {F : Fabric K} {links : Links K} {paths : Nat → Nat → List (Share K)} {rand : Nat → Nat}

omit [Field K] [LinearOrder K] in
theorem length_flowRules (seqF : Nat) (srcIp : String) (v : Nat) :
    (F.flowRules seqF srcIp v).length = (F.server v).length := List.length_mapIdx

omit [Field K] [LinearOrder K] in
theorem seq_flowRules (seqF : Nat) (srcIp : String) (v : Nat) :
    (F.flowRules seqF srcIp v).map FlowRule.seq = List.range' seqF (F.server v).length := by
  apply List.ext_getElem
  · simp [Fabric.flowRules]
  · intro i hi hi'
    simp [Fabric.flowRules]

omit [Field K] [LinearOrder K] in
theorem ends_flowRules (seqF : Nat) (srcIp : String) (v : Nat) :
    (F.flowRules seqF srcIp v).map FlowRule.ends = (F.server v).map fun d => (srcIp, d.ip) := by
  apply List.ext_getElem
  · simp [Fabric.flowRules]
  · intro i hi hi'
    simp [Fabric.flowRules, FlowRule.ends]

theorem Numbered.commit {st : Plan K} (h : Numbered st) {j : Job} {walked : HopState K} {req : FlowRoute}
    (hseq : req.seq = st.seqP) : Numbered (F.commit st j walked req) := by
  constructor
  · show st.seqP + 1 = 128 + (st.requests ++ [req]).length
    rw [h.seqP, List.length_append, List.length_singleton]
    omega
  · show (st.requests ++ [req]).map FlowRoute.seq = List.range' 128 (st.requests ++ [req]).length
    rw [List.map_append, h.seqs, List.map_singleton, hseq, h.seqP, List.length_append,
      List.length_singleton, ← List.range'_append_1]
    rfl

theorem Emitted.commit {st : Plan K} (he : Emitted F links paths st) {j : Job} {walked : HopState K}
    {req : FlowRoute} {server : ServerLine K} (hserver : (F.server j.u)[j.uI]? = some server)
    (hseq : req.seq = st.seqP) (hrules : req.rules = F.flowRules st.seqF server.ip j.v)
    {path : List Nat} (hpath : path ∈ (paths j.u j.v).map Prod.fst) (hdesc : Describes F links path req) :
    Emitted F links paths (F.commit st j walked req) := by
  have hlen : req.rules.length = (F.server j.v).length := by
    rw [hrules, length_flowRules]
  refine ⟨he.toNumbered.commit hseq, ?_, ?_, ?_⟩
  · show List.Forall₂ _ ((st.routes ++ [_]).map Route.job) (st.requests ++ [req])
    rw [List.map_append]
    exact List.rel_append he.requests
      (.cons ⟨server, st.seqF, hserver, hrules, path, hpath, hdesc⟩ .nil)
  · show st.seqF + (F.server j.v).length = 128 + ((st.requests ++ [req]).flatMap FlowRoute.rules).length
    rw [List.flatMap_append, List.length_append, List.flatMap_singleton, hlen, he.seqF]
    omega
  · show ((st.requests ++ [req]).flatMap FlowRoute.rules).map FlowRule.seq
      = List.range' 128 ((st.requests ++ [req]).flatMap FlowRoute.rules).length
    rw [List.flatMap_append, List.flatMap_singleton, List.map_append, he.ruleSeqs, List.length_append,
      hlen, ← List.range'_append_1, hrules, seq_flowRules, he.seqF]

/-- A hop between switches with a link can be taken. -/
theorem hopStep_exists {idx : Nat} {bw : K} {st : HopState K} {arc : Nat × Nat} {a b : String}
    (ha : F.idxToName arc.1 = some a) (hb : F.idxToName arc.2 = some b) (hne : st.links a b ≠ []) :
    ∃ st', F.hopStep rand idx bw st arc = some st' := by
  have hlen : (st.links a b).length ≠ 0 := fun h => hne (List.length_eq_zero_iff.mp h)
  simp only [Fabric.hopStep, ha, hb, Option.bind_eq_bind, Option.bind_some, if_neg hlen]
  split
  · exact ⟨_, rfl⟩
  · exact ⟨_, rfl⟩

omit [Field K] [LinearOrder K] in
theorem ne_nil_of_ports {l l' : List (Cable K)} (h : l'.map Cable.ports = l.map Cable.ports)
    (hne : l ≠ []) : l' ≠ [] := by
  rintro rfl
  exact hne (List.map_eq_nil_iff.mp h.symm)

/-- A path over existing links can be walked. -/
theorem walk_exists (rand : Nat → Nat) {L : Links K}
    (hports : ∀ a b, (L a b).map Cable.ports = (links a b).map Cable.ports) {arcs : List (Nat × Nat)} (harcs : ∀ arc ∈ arcs,
      ∃ a ∈ F.idxToName arc.1, ∃ b ∈ F.idxToName arc.2, links a b ≠ []) (idx : Nat) (bw : K) (draws : Nat) :
    ∃ walked, arcs.foldlM (F.hopStep rand idx bw) ⟨L, draws, []⟩ = some walked ∧
      Walked F L idx bw walked := by
  refine Run.exists_of_step (fun st arc harc hst => ?_) (Walked.start L draws)
  obtain ⟨a, ha, b, hb, hab⟩ := harcs arc harc
  obtain ⟨st', hst'⟩ := hopStep_exists ha hb
    (ne_nil_of_ports ((hst.ports a b).trans (hports a b)) hab)
  exact ⟨st', hst', hst.step hst'⟩

theorem widestPath_exists {ps : List (Share K)} (hne : ps ≠ []) :
    ∃ path ∈ ps.map Prod.fst, widestPath ps = some path := by
  have hlt := widestIdx_lt hne
  refine ⟨_, List.mem_map_of_mem (List.getElem_mem hlt), ?_⟩
  unfold widestPath
  rw [List.getElem?_eq_getElem hlt, Option.map_some]

/-- What a run keeps, of the links, the paths and the requests. -/
structure Planned (F : Fabric K) (links : Links K) (paths : Nat → Nat → List (Share K))
    (plan : Plan K) : Prop where
  kept : Kept F links plan
  follows : Follows paths plan
  emitted : Emitted F links paths plan

theorem Planned.start : Planned F links paths (Plan.start links paths) :=
  ⟨Kept.start links paths, Follows.start links paths, ⟨⟨rfl, rfl⟩, .nil, rfl, rfl⟩⟩

/-- **Every job gets done.** -/
theorem Planned.serve (h : Routable F links paths) {st : Plan K} (hp : Planned F links paths st)
    {j : Job} (hj : j ∈ F.jobs) : ∃ st', F.serve rand st j = some st' ∧ Planned F links paths st' := by
  obtain ⟨hu, huI, hv⟩ := mem_jobs.mp hj
  have huv : j.u ≠ j.v := of_decide_eq_true (List.mem_filter.mp hv).2
  obtain ⟨server, hserver⟩ : ∃ server, (F.server j.u)[j.uI]? = some server :=
    ⟨_, List.getElem?_eq_getElem huI⟩
  -- the pair has a path, and every hop of it has a link
  have hsame := hp.follows.same j.u j.v
  have hne : st.paths j.u j.v ≠ [] := by
    intro hnil
    rw [hnil] at hsame
    exact h.paths_ne j.u hu j.v hv (List.map_eq_nil_iff.mp hsame.symm)
  obtain ⟨path, hmem, hpath⟩ := widestPath_exists hne
  rw [hsame] at hmem
  have hlinked := h.linked j.u hu j.v hv path hmem
  obtain ⟨walked, hwalked, hw⟩ := walk_exists rand hp.kept.ports hlinked.arcs
    (widestIdx (st.paths j.u j.v)) server.bw st.draws
  -- so the request can be assembled
  have hports := fun a b => (hw.ports a b).trans (hp.kept.ports a b)
  obtain ⟨req, hreq, hseq, hrules, hdesc⟩ := flowRoute_spec hports
    (fun hop hhop => (hw.hops hop hhop).of_ports hp.kept.ports) (r := Fabric.jobRoute st j walked)
    hlinked huv (walk_arcs hwalked) hserver st.seqP st.seqF
  have hserve : F.serve rand st j = some (F.commit st j walked req) := by
    simp only [Fabric.serve, hserver, hpath, hwalked, hreq, Option.bind_eq_bind, Option.bind_some]
  exact ⟨_, hserve, hp.kept.step hserve, hp.follows.step hserve,
    hp.emitted.commit hserver hseq hrules hmem hdesc⟩

/-- **The planner ends**, whatever it draws. -/
theorem planned_of_routable (rand : Nat → Nat) (h : Routable F links paths) :
    ∃ plan, F.getSToDRouting rand links paths = some plan ∧ Planned F links paths plan :=
  Run.exists_of_step (fun _ _ hj hp => hp.serve h hj) Planned.start

end Emit

/-! ## §3 — one rule for each pair of servers -/

section Ends

omit [Field K] [LinearOrder K]

variable {F : Fabric K} {links : Links K} {paths : Nat → Nat → List (Share K)}

/-- The pairs of IPs the rules of a job are for. -/
def Fabric.jobEnds (F : Fabric K) (j : Job) : List (String × String) :=
  match (F.server j.u)[j.uI]? with
  | some s => (F.server j.v).map fun d => (s.ip, d.ip)
  | none => []

theorem mem_jobEnds {j : Job} {e : String × String} : e ∈ F.jobEnds j ↔
    ∃ s, (F.server j.u)[j.uI]? = some s ∧ ∃ d ∈ F.server j.v, (s.ip, d.ip) = e := by
  unfold Fabric.jobEnds
  cases (F.server j.u)[j.uI]? with
  | none => simp
  | some s => simp

theorem Carries.ends {j : Job} {req : FlowRoute} (h : Carries F links paths j req) :
    req.rules.map FlowRule.ends = F.jobEnds j := by
  obtain ⟨server, seqF, hserver, hrules, -⟩ := h
  unfold Fabric.jobEnds
  rw [hrules, ends_flowRules, hserver]

theorem ends_requests {jobs : List Job} {reqs : List FlowRoute}
    (h : List.Forall₂ (Carries F links paths) jobs reqs) :
    (reqs.flatMap FlowRoute.rules).map FlowRule.ends = jobs.flatMap F.jobEnds := by
  induction h with
  | nil => rfl
  | cons hreq _ ih => rw [List.flatMap_cons, List.flatMap_cons, List.map_append, hreq.ends, ih]

theorem exists_job {jobs : List Job} {reqs : List FlowRoute}
    (h : List.Forall₂ (Carries F links paths) jobs reqs) {req : FlowRoute} (hreq : req ∈ reqs) :
    ∃ j ∈ jobs, Carries F links paths j req := by
  induction h with
  | nil => exact absurd hreq (by simp)
  | @cons j _ jobs _ hcarries _ ih =>
    rcases List.mem_cons.mp hreq with rfl | hreq
    · exact ⟨j, List.mem_cons_self, hcarries⟩
    · obtain ⟨j', hj', hcarries'⟩ := ih hreq
      exact ⟨j', List.mem_cons_of_mem j hj', hcarries'⟩

theorem Carries.permit {j : Job} {req : FlowRoute} (h : Carries F links paths j req) {rule : FlowRule}
    (hrule : rule ∈ req.rules) : rule.action = "permit" := by
  obtain ⟨server, seqF, -, hrules, -⟩ := h
  rw [hrules] at hrule
  obtain ⟨i, hi, rfl⟩ := List.mem_mapIdx.mp hrule
  rfl

/-- A request that describes a path from `u` to `v` enters at `u` and leaves at `v`. -/
theorem Describes.switches {path : List Nat} {req : FlowRoute} (h : Describes F links path req)
    {u v : Nat} (hu : path.head? = some u) (hv : path.getLast? = some v) :
    F.idxToName u = some req.inDevice.deviceAlias ∧ F.idxToName v = some req.outDevice.deviceAlias := by
  have hhead := congrArg List.head? h.names
  have hlast := congrArg List.getLast? h.names
  rw [List.head?_map, List.head?_map, hu] at hhead
  rw [List.getLast?_map, List.getLast?_map, hv] at hlast
  have hout : req.devices.getLast? = some req.outDevice := by
    unfold FlowRoute.devices
    rw [← List.cons_append, List.getLast?_concat]
  rw [hout] at hlast
  exact ⟨(Option.some.inj hhead).symm, (Option.some.inj hlast).symm⟩

end Ends

section Ips

variable {F : Fabric K} {links : Links K} {paths : Nat → Nat → List (Share K)}

theorem Routable.nodup_ips (h : Routable F links paths) {u : Nat} (hu : u < F.lp.nNode) :
    ((F.server u).map ServerLine.ip).Nodup :=
  (List.nodup_flatMap.mp h.ips).1 u (List.mem_range.mpr hu)

/-- The IP of a server tells its switch. -/
theorem Routable.switch_eq (h : Routable F links paths) {u u' : Nat} (hu : u < F.lp.nNode)
    (hu' : u' < F.lp.nNode) {s s' : ServerLine K} (hs : s ∈ F.server u) (hs' : s' ∈ F.server u')
    (heq : s.ip = s'.ip) : u = u' := by
  by_contra hne
  have : Std.Symm (Function.onFun List.Disjoint fun u => (F.server u).map ServerLine.ip) :=
    ⟨fun _ _ hd => List.Disjoint.symm hd⟩
  have hdisj := (List.nodup_flatMap.mp h.ips).2.forall (List.mem_range.mpr hu) (List.mem_range.mpr hu')
    hne
  exact hdisj (List.mem_map_of_mem hs) (heq ▸ List.mem_map_of_mem hs')

theorem lt_of_mem_hosts {P : LpMluRoute K} {u : Nat} (hu : u ∈ P.hosts) : u < P.nNode :=
  List.mem_range.mp (List.mem_of_mem_filter hu)

theorem mem_hosts_of_mem_peers {P : LpMluRoute K} {u v : Nat} (hv : v ∈ P.peers u) : v ∈ P.hosts :=
  List.mem_of_mem_filter hv

/-- The pair of IPs of a rule tells the two switches of its job. -/
theorem Routable.pair_eq (h : Routable F links paths) {j : Job} (hj : j ∈ F.jobs) {u v : Nat}
    (hu : u < F.lp.nNode) (hv : v < F.lp.nNode) {s d : ServerLine K} (hs : s ∈ F.server u)
    (hd : d ∈ F.server v) (he : (s.ip, d.ip) ∈ F.jobEnds j) : j.u = u ∧ j.v = v := by
  obtain ⟨huj, -, hvj⟩ := mem_jobs.mp hj
  obtain ⟨s', hs', d', hd', heq⟩ := mem_jobEnds.mp he
  obtain ⟨hsrc, hdst⟩ := Prod.mk.inj heq
  exact ⟨h.switch_eq (lt_of_mem_hosts huj) hu (List.mem_of_getElem? hs') hs hsrc,
    h.switch_eq (lt_of_mem_hosts (mem_hosts_of_mem_peers hvj)) hv hd' hd hdst⟩

/-- It also tells the job. -/
theorem Routable.job_eq (h : Routable F links paths) {j j' : Job} (hj : j ∈ F.jobs) (hj' : j' ∈ F.jobs)
    {e : String × String} (he : e ∈ F.jobEnds j) (he' : e ∈ F.jobEnds j') : j = j' := by
  obtain ⟨u, uI, v⟩ := j
  obtain ⟨u', uI', v'⟩ := j'
  obtain ⟨hu, huI, -⟩ := mem_jobs.mp hj
  obtain ⟨hu', -, hv'⟩ := mem_jobs.mp hj'
  obtain ⟨s, hs, d, hd, heq⟩ := mem_jobEnds.mp he
  obtain ⟨s', hs', d', hd', rfl⟩ := mem_jobEnds.mp he'
  obtain ⟨rfl, rfl⟩ : u = u' ∧ v = v' := h.pair_eq hj (lt_of_mem_hosts hu')
    (lt_of_mem_hosts (mem_hosts_of_mem_peers hv')) (List.mem_of_getElem? hs') hd' he
  -- on one switch the IP tells the server
  have hip : ((F.server u).map ServerLine.ip)[uI]? = ((F.server u).map ServerLine.ip)[uI']? := by
    rw [List.getElem?_map, List.getElem?_map, hs, hs', Option.map_some, Option.map_some,
      (Prod.mk.inj heq).1]
  obtain rfl : uI = uI' :=
    (List.getElem?_inj (by simpa using huI) (h.nodup_ips (lt_of_mem_hosts hu))).mp hip
  rfl

theorem Routable.nodup_ends (h : Routable F links paths) : (F.jobs.flatMap F.jobEnds).Nodup := by
  refine List.nodup_flatMap.mpr ⟨fun j hj => ?_, jobs_nodup.pairwise_of_forall_ne fun j hj j' hj' hne => ?_⟩
  · obtain ⟨-, -, hv⟩ := mem_jobs.mp hj
    have hips := h.nodup_ips (lt_of_mem_hosts (mem_hosts_of_mem_peers hv))
    unfold Fabric.jobEnds
    cases (F.server j.u)[j.uI]? with
    | none => exact List.nodup_nil
    | some s =>
      have hpairs : (((F.server j.v).map ServerLine.ip).map fun ip => (s.ip, ip)).Nodup :=
        hips.map fun _ _ heq => (Prod.mk.inj heq).2
      rwa [List.map_map] at hpairs
  · intro e he he'
    exact hne (h.job_eq hj hj' he he')

end Ips

/-- **Rule coverage.** If no two servers share an IP and every pair of switches with hosts has paths,
each over existing links, then the planner ends, whatever it draws.  For every ordered pair of servers
on two such switches there is then exactly one rule; it is a permit rule, and its request leads from
the switch of the source along a path of the pair to the switch of the destination, every device
entered through the port of a link from the one before.  Rules and requests have distinct sequence
numbers. -/
theorem rules_cover (F : Fabric K) (rand : Nat → Nat) (links : Links K)
    (paths : Nat → Nat → List (Share K)) (h : Routable F links paths) :
    ∃ plan, F.getSToDRouting rand links paths = some plan ∧
      (∀ u ∈ F.lp.hosts, ∀ v ∈ F.lp.peers u, ∀ s ∈ F.server u, ∀ d ∈ F.server v,
        ((plan.requests.flatMap FlowRoute.rules).map FlowRule.ends).count (s.ip, d.ip) = 1 ∧
        ∀ req ∈ plan.requests, ∀ rule ∈ req.rules, rule.ends = (s.ip, d.ip) →
          rule.action = "permit" ∧ F.idxToName u = some req.inDevice.deviceAlias ∧
            F.idxToName v = some req.outDevice.deviceAlias ∧
            ∃ path ∈ (paths u v).map Prod.fst, Describes F links path req) ∧
      ((plan.requests.flatMap FlowRoute.rules).map FlowRule.seq).Nodup ∧
      (plan.requests.map FlowRoute.seq).Nodup := by
  obtain ⟨plan, hrun, hp⟩ := planned_of_routable rand h
  have hcarries := hp.emitted.requests
  rw [show plan.routes.map Route.job = F.jobs from run_jobs hrun] at hcarries
  refine ⟨plan, hrun, fun u hu v hv s hs d hd => ⟨?_, fun req hreq rule hrule hends => ?_⟩, ?_, ?_⟩
  · rw [ends_requests hcarries]
    obtain ⟨uI, hs⟩ := List.getElem?_of_mem hs
    have hlt := (List.getElem?_eq_some_iff.mp hs).1
    have hjob : Job.mk u uI v ∈ F.jobs := mem_jobs.mpr ⟨hu, hlt, hv⟩
    exact List.count_eq_one_of_mem h.nodup_ends
      (List.mem_flatMap.mpr ⟨⟨u, uI, v⟩, hjob, mem_jobEnds.mpr ⟨s, hs, d, hd, rfl⟩⟩)
  · obtain ⟨j, hj, hcarry⟩ := exists_job hcarries hreq
    have hmem : (s.ip, d.ip) ∈ F.jobEnds j := by
      rw [← hends, ← hcarry.ends]
      exact List.mem_map_of_mem hrule
    -- the job is one of this pair of switches
    obtain ⟨rfl, rfl⟩ := h.pair_eq hj (lt_of_mem_hosts hu)
      (lt_of_mem_hosts (mem_hosts_of_mem_peers hv)) hs hd hmem
    have hpermit := hcarry.permit hrule
    obtain ⟨-, -, -, -, path, hpath, hdesc⟩ := hcarry
    have hlinked := h.linked j.u hu j.v hv path hpath
    obtain ⟨hin, hout⟩ := hdesc.switches hlinked.head hlinked.last
    exact ⟨hpermit, hin, hout, path, hpath, hdesc⟩
  · rw [hp.emitted.ruleSeqs]
    exact List.nodup_range'
  · rw [hp.emitted.seqs]
    exact List.nodup_range'

/-- One rule leads from the first server of a leaf to the second server of the other. -/
theorem rules_cover_leafSpine :
    ∃ plan, leafSpine.getSToDRouting id leafSpineLinks leafSpinePaths = some plan ∧
      ((plan.requests.flatMap FlowRoute.rules).map FlowRule.ends).count ("172.16.1.1", "172.16.2.2")
        = 1 := by
  obtain ⟨plan, hrun, hcover, -⟩ :=
    rules_cover leafSpine id leafSpineLinks leafSpinePaths (by decide +kernel)
  exact ⟨plan, hrun, (hcover 0 (by decide +kernel) 1 (by decide +kernel) ⟨"172.16.1.1", 1, 100⟩
    (by simp [leafSpine]) ⟨"172.16.2.2", 2, 100⟩ (by simp [leafSpine])).1⟩

end SDNware.Planner
