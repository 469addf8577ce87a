/-
# SDNware.Planner.Ports — the bandwidth `get_s_to_d_routing` takes from the parallel links.

For a hop the planner looks for the parallel link with the most bandwidth left, `idx_p`, and books
the server's bandwidth on it.  The test in front of the booking is on `idx`, the index of the path
among the paths of the pair.  When the pair has more paths than the hop has parallel links, the hops
of the later paths take the other branch: a random port, and nothing booked.

`ports_accounted` says what this leaves of the bookkeeping.  If no hop takes the other branch, which
can be told from the path lists and the numbers of parallel links (`Roomy`), the bandwidth left on
every parallel link is its initial bandwidth minus what the emitted routes send through it, and every
port was a widest one.  With servers of positive bandwidth this is also necessary: one hop of the
other branch makes the account of its link wrong.
-/
import Mathlib.Algebra.Order.BigOperators.Group.List
import SDNware.Planner.Assign

namespace SDNware.Planner

open LpMluRoute

variable {K : Type} [Field K] [LinearOrder K]

/-! ## §1 — charging a link -/

section Charge

omit [LinearOrder K]

/-- The two ports of a cable. -/
def Cable.ports (c : Cable K) : String × String := (c.port1, c.port2)

theorem charge_apply (L : Links K) (a b : String) (k : Nat) (bw : K) (a' b' : String) :
    L.charge a b k bw a' b'
      = if a' = a ∧ b' = b then (L a b).modify k fun c => { c with bw := c.bw - bw } else L a' b' :=
  update_update_apply ..

/-- Charging leaves the ports alone. -/
theorem ports_charge (L : Links K) (a b : String) (k : Nat) (bw : K) (a' b' : String) :
    (L.charge a b k bw a' b').map Cable.ports = (L a' b').map Cable.ports := by
  rw [charge_apply]
  split
  · rename_i h
    obtain ⟨rfl, rfl⟩ := h
    apply List.ext_getElem?
    intro i
    rw [List.getElem?_map, List.getElem?_map, List.getElem?_modify, Option.map_eq_map, Option.map_map]
    congr 1
    funext c
    by_cases hi : k = i
    · simp [hi, Cable.ports]
    · simp [hi]
  · rfl

/-- Charging takes the bandwidth from one cable. -/
theorem bw_charge (L : Links K) (a b : String) (k : Nat) (bw : K) (a' b' : String) (i : Nat) :
    ((L.charge a b k bw a' b')[i]?).map Cable.bw
      = ((L a' b')[i]?).map fun c => c.bw - if a' = a ∧ b' = b ∧ i = k then bw else 0 := by
  rw [charge_apply]
  split
  · rename_i h
    obtain ⟨rfl, rfl⟩ := h
    rw [List.getElem?_modify, Option.map_eq_map, Option.map_map]
    congr 1
    funext c
    by_cases hi : k = i
    · simp [hi]
    · simp [hi, Ne.symm hi]
  · rename_i h
    congr 1
    funext c
    rw [if_neg fun hall => h ⟨hall.1, hall.2.1⟩, sub_zero]

end Charge

/-! ## §2 — the hops of one path -/

/-- The hop goes from `a` to `b` through port `k`. -/
def Hop.On (F : Fabric K) (a b : String) (k : Nat) (h : Hop K) : Prop :=
  F.idxToName h.s = some a ∧ F.idxToName h.d = some b ∧ h.port = k

instance (F : Fabric K) (a b : String) (k : Nat) (h : Hop K) : Decidable (h.On F a b k) :=
  inferInstanceAs (Decidable (_ ∧ _))

section Hops

variable {F : Fabric K} {rand : Nat → Nat} {idx : Nat} {bw : K}

/-- What a hop does: it books a widest port, or draws one. -/
theorem hopStep_eq_some {st st' : HopState K} {arc : Nat × Nat}
    (h : F.hopStep rand idx bw st arc = some st') :
    ∃ a b, F.idxToName arc.1 = some a ∧ F.idxToName arc.2 = some b ∧
      ((idx < (st.links a b).length ∧
          st' = ⟨st.links.charge a b (widestPort (st.links a b)) bw, st.draws,
            st.hops ++ [⟨arc.1, widestPort (st.links a b), arc.2, st.links a b⟩]⟩) ∨
        (¬ idx < (st.links a b).length ∧ 0 < (st.links a b).length ∧
          st' = ⟨st.links, st.draws + 1, st.hops ++
            [⟨arc.1, rand st.draws % (st.links a b).length, arc.2, st.links a b⟩]⟩)) := by
  unfold Fabric.hopStep at h
  simp only [Option.bind_eq_bind, Option.bind_eq_some_iff] at h
  obtain ⟨a, ha, b, hb, h⟩ := h
  refine ⟨a, b, ha, hb, ?_⟩
  split at h
  · rename_i hlt
    exact .inl ⟨hlt, (Option.some.inj h).symm⟩
  · rename_i hlt
    split at h
    · exact absurd h (by simp)
    · rename_i hne
      exact .inr ⟨hlt, Nat.pos_of_ne_zero hne, (Option.some.inj h).symm⟩

omit [Field K] [LinearOrder K] in
theorem on_iff {s d : Nat} {a b : String} (ha : F.idxToName s = some a) (hb : F.idxToName d = some b)
    {port : Nat} {avail : List (Cable K)} {a' b' : String} {k : Nat} :
    Hop.On F a' b' k ⟨s, port, d, avail⟩ ↔ a' = a ∧ b' = b ∧ k = port := by
  unfold Hop.On
  simp only [ha, hb, Option.some.injEq]
  constructor
  · rintro ⟨rfl, rfl, rfl⟩
    exact ⟨rfl, rfl, rfl⟩
  · rintro ⟨rfl, rfl, rfl⟩
    exact ⟨rfl, rfl, rfl⟩

/-- What is known of a hop: its two switches have names, its port is one of the parallel links
between them, and if the booking branch was taken it is the port the search has found. -/
structure HopOk (F : Fabric K) (L : Links K) (idx : Nat) (h : Hop K) : Prop where
  named : ∃ a b, F.idxToName h.s = some a ∧ F.idxToName h.d = some b ∧
    h.avail.map Cable.ports = (L a b).map Cable.ports
  port_lt : h.port < h.avail.length
  port_eq : idx < h.avail.length → h.port = widestPort h.avail

/-- What the loop over the hops keeps. -/
structure Walked (F : Fabric K) (L : Links K) (idx : Nat) (bw : K) (st : HopState K) : Prop where
  ports : ∀ a b, (st.links a b).map Cable.ports = (L a b).map Cable.ports
  left : ∀ a b k, ((st.links a b)[k]?).map Cable.bw = ((L a b)[k]?).map fun c =>
    c.bw - (st.hops.countP fun h => h.On F a b k ∧ idx < h.avail.length : Nat) * bw
  hops : ∀ h ∈ st.hops, HopOk F L idx h

omit [Field K] [LinearOrder K] in
theorem length_eq_of_ports {l l' : List (Cable K)} (h : l.map Cable.ports = l'.map Cable.ports) :
    l.length = l'.length := by
  simpa only [List.length_map] using congrArg List.length h

theorem widestPort_lt {avail : List (Cable K)} (h : avail ≠ []) : widestPort avail < avail.length := by
  have hlt : widestPort avail < (avail.map fun c => (([] : List Nat), c.bw)).length :=
    widestIdx_lt (by simpa using h)
  rwa [List.length_map] at hlt

theorem Walked.start (L : Links K) (draws : Nat) : Walked F L idx bw ⟨L, draws, []⟩ := by
  refine ⟨fun _ _ => rfl, fun a b k => ?_, fun h hh => absurd hh (by simp)⟩
  simp only [List.countP_nil, Nat.cast_zero, zero_mul, sub_zero]

theorem Walked.step {L : Links K} {st st' : HopState K} {arc : Nat × Nat}
    (hw : Walked F L idx bw st) (h : F.hopStep rand idx bw st arc = some st') :
    Walked F L idx bw st' := by
  obtain ⟨a, b, ha, hb, ⟨hlt, rfl⟩ | ⟨hlt, hpos, rfl⟩⟩ := hopStep_eq_some h
  · refine ⟨fun a' b' => ?_, fun a' b' k => ?_, fun h hh => ?_⟩
    · rw [ports_charge]
      exact hw.ports a' b'
    · have hleft := congrArg (Option.map (· - if a' = a ∧ b' = b ∧ k = widestPort (st.links a b) then bw
        else 0)) (hw.left a' b' k)
      rw [Option.map_map, Option.map_map] at hleft
      rw [bw_charge]
      refine hleft.trans ?_
      congr 1
      funext c
      rw [List.countP_append, List.countP_singleton]
      simp only [Function.comp_apply, on_iff ha hb, hlt, and_true, decide_eq_true_eq]
      split
      · push_cast
        ring
      · push_cast
        ring
    · rcases List.mem_append.mp hh with hh | hh
      · exact hw.hops h hh
      · rw [List.mem_singleton.mp hh]
        exact ⟨⟨a, b, ha, hb, hw.ports a b⟩, widestPort_lt (List.ne_nil_of_length_pos (by omega)),
          fun _ => rfl⟩
  · refine ⟨hw.ports, fun a' b' k => ?_, fun h hh => ?_⟩
    · rw [List.countP_append, List.countP_singleton]
      simp only [hlt, and_false, decide_false, Bool.false_eq_true, if_false, Nat.add_zero]
      exact hw.left a' b' k
    · rcases List.mem_append.mp hh with hh | hh
      · exact hw.hops h hh
      · rw [List.mem_singleton.mp hh]
        exact ⟨⟨a, b, ha, hb, hw.ports a b⟩, Nat.mod_lt _ hpos, fun hdirect => absurd hdirect hlt⟩

end Hops

/-! ## §3 — routes and their paths -/

section Follow

variable {F : Fabric K} {rand : Nat → Nat} {paths : Nat → Nat → List (Share K)}

/-- The two ends of a hop. -/
def Hop.arc (h : Hop K) : Nat × Nat := (h.s, h.d)

/-- The job a route was made for. -/
def Route.job (r : Route K) : Job := ⟨r.u, r.uI, r.v⟩

/-- There is a hop for each arc. -/
theorem walk_arcs {idx : Nat} {bw : K} {arcs : List (Nat × Nat)} {st st' : HopState K}
    (h : arcs.foldlM (F.hopStep rand idx bw) st = some st') :
    st'.hops.map Hop.arc = st.hops.map Hop.arc ++ arcs := by
  induction arcs generalizing st with
  | nil =>
    obtain rfl : st = st' := Option.some.inj h
    rw [List.append_nil]
  | cons arc arcs ih =>
    obtain ⟨mid, hstep, hrest⟩ := Run.foldlM_cons_some h
    obtain ⟨a, b, -, -, ⟨-, rfl⟩ | ⟨-, -, rfl⟩⟩ := hopStep_eq_some hstep
    · simp [ih hrest, Hop.arc]
    · simp [ih hrest, Hop.arc]

/-- There is a route for each job. -/
theorem run_jobs {jobs : List Job} {st st' : Plan K} (h : jobs.foldlM (F.serve rand) st = some st') :
    st'.routes.map Route.job = st.routes.map Route.job ++ jobs := by
  induction jobs generalizing st with
  | nil =>
    obtain rfl : st = st' := Option.some.inj h
    rw [List.append_nil]
  | cons j jobs ih =>
    obtain ⟨mid, hserve, hrest⟩ := Run.foldlM_cons_some h
    obtain ⟨-, -, walked, request, -, -, -, -, rfl⟩ := serve_eq_some hserve
    simp [ih hrest, Fabric.commit, Fabric.jobRoute, Route.job]

/-- Only the shares of the paths change, and every route goes along a path of its pair. -/
structure Follows (paths : Nat → Nat → List (Share K)) (plan : Plan K) : Prop where
  same : ∀ u v, (plan.paths u v).map Prod.fst = (paths u v).map Prod.fst
  arcs : ∀ r ∈ plan.routes, ∃ path, ((paths r.u r.v).map Prod.fst)[r.idx]? = some path ∧
    r.hops.map Hop.arc = pathArcs path

theorem map_fst_takeShare (n : Nat) (paths : List (Share K)) :
    (takeShare n paths).map Prod.fst = paths.map Prod.fst := by
  apply List.ext_getElem?
  intro i
  unfold takeShare
  rw [List.getElem?_map, List.getElem?_map, List.getElem?_modify, Option.map_eq_map, Option.map_map]
  congr 1
  funext s
  by_cases hi : widestIdx paths = i
  · simp [hi]
  · simp [hi]

theorem Follows.step {st st' : Plan K} {j : Job} (hf : Follows paths st)
    (h : F.serve rand st j = some st') : Follows paths st' := by
  obtain ⟨server, path, walked, request, -, hpath, hwalked, -, rfl⟩ := serve_eq_some h
  constructor
  · intro u v
    rw [paths_commit]
    split
    · rename_i h
      rw [h.1, h.2, map_fst_takeShare]
      exact hf.same j.u j.v
    · exact hf.same u v
  · intro r hr
    rcases List.mem_append.mp hr with hr | hr
    · exact hf.arcs r hr
    · rw [List.mem_singleton.mp hr]
      refine ⟨path, ?_, walk_arcs hwalked⟩
      show ((paths j.u j.v).map Prod.fst)[widestIdx (st.paths j.u j.v)]? = some path
      rw [← hf.same, List.getElem?_map]
      exact hpath

omit [Field K] [LinearOrder K] in
theorem Follows.start (links : Links K) (paths : Nat → Nat → List (Share K)) :
    Follows paths (Plan.start links paths) :=
  ⟨fun _ _ => rfl, fun _ hr => absurd hr (by simp [Plan.start])⟩

theorem follows_of_run {links : Links K} {jobs : List Job} {plan : Plan K}
    (hrun : jobs.foldlM (F.serve rand) (Plan.start links paths) = some plan) : Follows paths plan :=
  Run.invariant_of_step (fun _ _ _ hf hstep => hf.step hstep) jobs (Follows.start links paths) hrun

end Follow

/-! ## §4 — the account of a run -/

section Account

/-- `self.server[u][u_i][2]` of a route. -/
def routeBw (F : Fabric K) (r : Route K) : K := (((F.server r.u)[r.uI]?).map ServerLine.bw).getD 0

/-- What the routes send from `a` to `b` through port `k`. -/
def booked (F : Fabric K) (routes : List (Route K)) (a b : String) (k : Nat) : K :=
  (routes.map fun r => (r.hops.countP fun h => h.On F a b k : Nat) * routeBw F r).sum

/-- The part of it that comes from the selected hops. -/
def bookedBy (F : Fabric K) (sel : Route K → Hop K → Bool) (routes : List (Route K)) (a b : String)
    (k : Nat) : K :=
  (routes.map fun r => (r.hops.countP fun h => h.On F a b k ∧ sel r h : Nat) * routeBw F r).sum

/-- The hop has taken the booking branch. -/
def direct (r : Route K) (h : Hop K) : Bool := r.idx < h.avail.length

variable {F : Fabric K}

omit [LinearOrder K] in
/-- Every hop has taken one branch or the other. -/
theorem booked_eq (routes : List (Route K)) (a b : String) (k : Nat) :
    booked F routes a b k
      = bookedBy F direct routes a b k + bookedBy F (fun r h => !direct r h) routes a b k := by
  have hsplit : ∀ r : Route K, r.hops.countP (fun h => h.On F a b k)
      = r.hops.countP (fun h => h.On F a b k ∧ direct r h)
        + r.hops.countP (fun h => h.On F a b k ∧ (!direct r h) = true) := by
    intro r
    induction r.hops with
    | nil => rfl
    | cons h hops ih =>
      simp only [List.countP_cons, ih]
      by_cases hon : h.On F a b k <;> cases direct r h <;> simp [hon] <;> omega
  unfold booked bookedBy
  rw [← List.sum_map_add]
  congr 1
  refine List.map_congr_left fun r _ => ?_
  rw [hsplit r, Nat.cast_add, add_mul]

/-- What a run keeps. -/
structure Kept (F : Fabric K) (L : Links K) (plan : Plan K) : Prop where
  ports : ∀ a b, (plan.links a b).map Cable.ports = (L a b).map Cable.ports
  left : ∀ a b k, ((plan.links a b)[k]?).map Cable.bw = ((L a b)[k]?).map fun c =>
    c.bw - bookedBy F direct plan.routes a b k
  hops : ∀ r ∈ plan.routes, ∀ h ∈ r.hops, HopOk F L r.idx h
  served : ∀ r ∈ plan.routes, ∃ server, (F.server r.u)[r.uI]? = some server

theorem HopOk.of_ports {L L' : Links K} (hports : ∀ a b, (L' a b).map Cable.ports
    = (L a b).map Cable.ports) {idx : Nat} {h : Hop K} (hok : HopOk F L' idx h) : HopOk F L idx h := by
  obtain ⟨a, b, ha, hb, havail⟩ := hok.named
  exact ⟨⟨a, b, ha, hb, havail.trans (hports a b)⟩, hok.port_lt, hok.port_eq⟩

theorem Kept.start (L : Links K) (paths : Nat → Nat → List (Share K)) :
    Kept F L (Plan.start L paths) := by
  refine ⟨fun _ _ => rfl, fun a b k => ?_, fun r hr => absurd hr (by simp [Plan.start]),
    fun r hr => absurd hr (by simp [Plan.start])⟩
  simp [Plan.start, bookedBy]

theorem Kept.step {L : Links K} {rand : Nat → Nat} {st st' : Plan K} {j : Job} (hk : Kept F L st)
    (h : F.serve rand st j = some st') : Kept F L st' := by
  obtain ⟨server, path, walked, request, hserver, -, hwalked, -, rfl⟩ := serve_eq_some h
  have hw : Walked F st.links (widestIdx (st.paths j.u j.v)) server.bw walked :=
    Run.invariant_of_step (fun _ _ _ hst hstep => hst.step hstep) _ (Walked.start st.links st.draws)
      hwalked
  have hbw : routeBw F (Fabric.jobRoute st j walked) = server.bw := by
    unfold routeBw
    rw [show (F.server (Fabric.jobRoute st j walked).u)[(Fabric.jobRoute st j walked).uI]?
      = some server from hserver]
    rfl
  refine ⟨fun a b => (hw.ports a b).trans (hk.ports a b), fun a b k => ?_, fun r hr => ?_,
    fun r hr => ?_⟩
  · have hcount : (Fabric.jobRoute st j walked).hops.countP
          (fun h => h.On F a b k ∧ direct (Fabric.jobRoute st j walked) h)
        = walked.hops.countP fun h => h.On F a b k ∧ widestIdx (st.paths j.u j.v) < h.avail.length :=
      List.countP_congr fun h _ => by
        rw [decide_eq_true_eq, decide_eq_true_eq]
        exact and_congr_right fun _ => decide_eq_true_iff
    -- the new route is charged on top of the routes before
    have hleft := congrArg (Option.map (· - (walked.hops.countP fun h =>
      h.On F a b k ∧ widestIdx (st.paths j.u j.v) < h.avail.length : Nat) * server.bw)) (hk.left a b k)
    rw [Option.map_map, Option.map_map] at hleft
    refine (hw.left a b k).trans (hleft.trans ?_)
    congr 1
    funext c
    show c.bw - _ - _ = c.bw - bookedBy F direct (st.routes ++ [_]) a b k
    unfold bookedBy
    rw [List.map_append, List.sum_append, List.map_singleton, List.sum_singleton, hbw, hcount]
    ring
  · rcases List.mem_append.mp hr with hr | hr
    · exact hk.hops r hr
    · rw [List.mem_singleton.mp hr]
      exact fun h hh => (hw.hops h hh).of_ports hk.ports
  · rcases List.mem_append.mp hr with hr | hr
    · exact hk.served r hr
    · rw [List.mem_singleton.mp hr]
      exact ⟨server, hserver⟩

theorem kept_of_run {L : Links K} {paths : Nat → Nat → List (Share K)} {rand : Nat → Nat}
    {jobs : List Job} {plan : Plan K}
    (hrun : jobs.foldlM (F.serve rand) (Plan.start L paths) = some plan) : Kept F L plan :=
  Run.invariant_of_step (fun _ _ _ hk hstep => hk.step hstep) jobs (Kept.start L paths) hrun

/-- Every parallel link has what it had minus what the routes send through it. -/
def Accounted (F : Fabric K) (L : Links K) (plan : Plan K) : Prop :=
  ∀ a b k, ((plan.links a b)[k]?).map Cable.bw
    = ((L a b)[k]?).map fun c => c.bw - booked F plan.routes a b k

/-- Whenever a parallel link had bandwidth left, a hop has taken one with the most. -/
def ChoseWidest (plan : Plan K) : Prop :=
  ∀ r ∈ plan.routes, ∀ h ∈ r.hops, (∃ c ∈ h.avail, 0 < c.bw) →
    ∃ c, h.avail[h.port]? = some c ∧ ∀ c' ∈ h.avail, c'.bw ≤ c.bw

/-- Every hop has more parallel links than the index of its path. -/
def Booking (plan : Plan K) : Prop := ∀ r ∈ plan.routes, ∀ h ∈ r.hops, r.idx < h.avail.length

/-- The same of what the planner starts from: no index of a path that is given out reaches the number
of parallel links of an arc of the path. -/
def Roomy (F : Fabric K) (links : Links K) (paths : Nat → Nat → List (Share K)) : Prop :=
  ∀ u ∈ F.lp.hosts, ∀ v ∈ F.lp.peers u,
    ∀ i ∈ picks (F.server u).length (F.server u).length (paths u v),
      ∀ path ∈ ((paths u v).map Prod.fst)[i]?, ∀ arc ∈ pathArcs path,
        ∀ a ∈ F.idxToName arc.1, ∀ b ∈ F.idxToName arc.2, i < (links a b).length

instance (F : Fabric K) (links : Links K) (paths : Nat → Nat → List (Share K)) :
    Decidable (Roomy F links paths) := by
  unfold Roomy
  infer_instance

theorem booking_iff_roomy {rand : Nat → Nat} {links : Links K} {paths : Nat → Nat → List (Share K)}
    {plan : Plan K} (hrun : F.getSToDRouting rand links paths = some plan) :
    Booking plan ↔ Roomy F links paths := by
  have hk : Kept F links plan := kept_of_run hrun
  have hf : Follows paths plan := follows_of_run hrun
  have hjobs : plan.routes.map Route.job = F.jobs := run_jobs hrun
  have hpicks : ∀ u ∈ F.lp.hosts, ∀ v ∈ F.lp.peers u,
      pairPicks plan.routes u v = picks (F.server u).length (F.server u).length (paths u v) := by
    intro u hu v hv
    rw [(run_picks hrun u v).2, countP_jobs hu hv]
  constructor
  · intro hbooking u hu v hv i hi path hpath arc harc a ha b hb
    rw [← hpicks u hu v hv] at hi
    obtain ⟨r, hmem, rfl⟩ := List.mem_map.mp hi
    obtain ⟨hr, hpair⟩ := List.mem_filter.mp hmem
    obtain ⟨rfl, rfl⟩ := of_decide_eq_true hpair
    -- the route has a hop for this arc of its path
    obtain ⟨path', hpath', harcs⟩ := hf.arcs r hr
    obtain rfl : path' = path := Option.some.inj (hpath'.symm.trans hpath)
    rw [← harcs] at harc
    obtain ⟨h, hh, rfl⟩ := List.mem_map.mp harc
    obtain ⟨a', b', ha', hb', havail⟩ := (hk.hops r hr h hh).named
    obtain rfl : a' = a := Option.some.inj (ha'.symm.trans ha)
    obtain rfl : b' = b := Option.some.inj (hb'.symm.trans hb)
    rw [← length_eq_of_ports havail]
    exact hbooking r hr h hh
  · intro hroomy r hr h hh
    have hjob : r.job ∈ F.jobs := hjobs ▸ List.mem_map_of_mem hr
    obtain ⟨hu, -, hv⟩ := mem_jobs.mp hjob
    obtain ⟨path, hpath, harcs⟩ := hf.arcs r hr
    obtain ⟨a, b, ha, hb, havail⟩ := (hk.hops r hr h hh).named
    have hi : r.idx ∈ pairPicks plan.routes r.u r.v :=
      List.mem_map_of_mem (List.mem_filter.mpr ⟨hr, decide_eq_true ⟨rfl, rfl⟩⟩)
    rw [hpicks r.u hu r.v hv] at hi
    rw [length_eq_of_ports havail]
    exact hroomy r.u hu r.v hv r.idx hi path hpath h.arc (harcs ▸ List.mem_map_of_mem hh) a ha b hb

theorem HopOk.widest {L : Links K} {idx : Nat} {h : Hop K} (hok : HopOk F L idx h)
    (hdirect : idx < h.avail.length) (hpos : ∃ c ∈ h.avail, 0 < c.bw) :
    ∃ c, h.avail[h.port]? = some c ∧ ∀ c' ∈ h.avail, c'.bw ≤ c.bw := by
  obtain ⟨c₀, hc₀, hlt⟩ := hpos
  have hpaths : ∃ s ∈ h.avail.map fun c => (([] : List Nat), c.bw), 0 < s.2 :=
    ⟨_, List.mem_map_of_mem hc₀, hlt⟩
  obtain ⟨s, hs, -, hmax⟩ := widestIdx_spec hpaths
  rw [List.getElem?_map] at hs
  obtain ⟨c, hc, rfl⟩ := Option.map_eq_some_iff.mp hs
  refine ⟨c, ?_, fun c' hc' => hmax _ (List.mem_map_of_mem hc')⟩
  rw [hok.port_eq hdirect]
  exact hc

theorem Kept.accounted {L : Links K} {plan : Plan K} (hk : Kept F L plan) (h : Booking plan) :
    Accounted F L plan := by
  intro a b k
  have hnone : bookedBy F (fun r h => !direct r h) plan.routes a b k = 0 := by
    unfold bookedBy
    refine List.sum_eq_zero fun x hx => ?_
    obtain ⟨r, hr, rfl⟩ := List.mem_map.mp hx
    have hcount : r.hops.countP (fun h => h.On F a b k ∧ (!direct r h) = true) = 0 := by
      rw [List.countP_eq_zero]
      intro hop hhop
      simp [direct, h r hr hop hhop]
    rw [hcount, Nat.cast_zero, zero_mul]
  rw [booked_eq, hnone, add_zero]
  exact hk.left a b k

variable [IsStrictOrderedRing K]

/-- A hop of the other branch is missing from the account of its link. -/
theorem Kept.booking {L : Links K} {plan : Plan K} (hk : Kept F L plan)
    (hbw : ∀ u, ∀ server ∈ F.server u, 0 < server.bw) (h : Accounted F L plan) : Booking plan := by
  intro r hr hop hhop
  by_contra hfall
  have hok := hk.hops r hr hop hhop
  obtain ⟨a, b, ha, hb, havail⟩ := hok.named
  have hroute : ∀ r ∈ plan.routes, 0 < routeBw F r := by
    intro r hr
    obtain ⟨server, hserver⟩ := hk.served r hr
    unfold routeBw
    rw [hserver]
    exact hbw r.u server (List.mem_of_getElem? hserver)
  -- the two accounts of the port agree, so the other branch has sent nothing through it
  have hlen : hop.port < (L a b).length := length_eq_of_ports havail ▸ hok.port_lt
  have hzero : bookedBy F (fun r h => !direct r h) plan.routes a b hop.port = 0 := by
    have heq := (hk.left a b hop.port).symm.trans (h a b hop.port)
    rw [List.getElem?_eq_getElem hlen, Option.map_some, Option.map_some, booked_eq] at heq
    have := Option.some.inj heq
    linarith
  -- but this hop is there, with a positive bandwidth
  have hterm : ∀ x ∈ plan.routes.map fun r => ((r.hops.countP fun h => h.On F a b hop.port ∧
      (!direct r h) = true : Nat) : K) * routeBw F r, 0 ≤ x := by
    intro x hx
    obtain ⟨r', hr', rfl⟩ := List.mem_map.mp hx
    exact mul_nonneg (Nat.cast_nonneg _) (hroute r' hr').le
  have hle := List.single_le_sum hterm _ (List.mem_map_of_mem hr)
  have hcount : 0 < r.hops.countP fun h => h.On F a b hop.port ∧ (!direct r h) = true := by
    rw [List.countP_pos_iff]
    refine ⟨hop, hhop, ?_⟩
    simp only [direct, decide_eq_false hfall, Bool.not_false, and_true, decide_eq_true_eq]
    exact ⟨ha, hb, rfl⟩
  have hpos : (0 : K) < (r.hops.countP fun h => h.On F a b hop.port ∧ (!direct r h) = true : Nat)
      * routeBw F r := mul_pos (by exact_mod_cast hcount) (hroute r hr)
  exact (hle.trans_eq hzero).not_gt hpos

/-- **Port bandwidth accounting.** Whenever the planner ends: if no path is given out whose index
reaches the number of parallel links of one of its arcs, the bandwidth left on every parallel link is
its initial bandwidth minus that of the servers whose routes cross it, once for each crossing, and
every port was a widest one as long as a link had bandwidth left.  If the servers have positive
bandwidths, this holds only then. -/
theorem ports_accounted (F : Fabric K) (rand : Nat → Nat) (links : Links K)
    (paths : Nat → Nat → List (Share K)) (plan : Plan K)
    (hrun : F.getSToDRouting rand links paths = some plan) :
    (Roomy F links paths → Accounted F links plan ∧ ChoseWidest plan) ∧
      ((∀ u, ∀ server ∈ F.server u, 0 < server.bw) →
        (Accounted F links plan ∧ ChoseWidest plan ↔ Roomy F links paths)) := by
  have hk : Kept F links plan := kept_of_run hrun
  have henough : Roomy F links paths → Accounted F links plan ∧ ChoseWidest plan := by
    intro hroomy
    have h := (booking_iff_roomy hrun).mpr hroomy
    exact ⟨hk.accounted h, fun r hr hop hhop => (hk.hops r hr hop hhop).widest (h r hr hop hhop)⟩
  refine ⟨henough, fun hbw => ⟨fun h => ?_, henough⟩⟩
  exact (booking_iff_roomy hrun).mp (hk.booking hbw h.1)

end Account

/-- With one path for each pair everything is booked. -/
theorem ports_accounted_leafSpine :
    ∃ plan, leafSpine.getSToDRouting id leafSpineLinks (fun u v => [([u, 2, v], 1)]) = some plan ∧
      Accounted leafSpine leafSpineLinks plan ∧ ChoseWidest plan := by
  obtain ⟨plan, hrun⟩ := Option.isSome_iff_exists.mp
    (show (leafSpine.getSToDRouting id leafSpineLinks fun u v => [([u, 2, v], 1)]).isSome by
      decide +kernel)
  exact ⟨plan, hrun, (ports_accounted leafSpine id leafSpineLinks _ plan hrun).1 (by decide +kernel)⟩

/-- With a path over each spine and one cable to each of them, the second server of a leaf is sent
over the second spine and booked nowhere. -/
theorem not_accounted_leafSpine :
    ∃ plan, leafSpine.getSToDRouting id leafSpineLinks leafSpinePaths = some plan ∧
      ¬ Accounted leafSpine leafSpineLinks plan := by
  obtain ⟨plan, hrun, hplan⟩ := Option.map_eq_some_iff.mp
    (show (leafSpine.getSToDRouting id leafSpineLinks leafSpinePaths).map (fun plan =>
        (((plan.links "Leaf1" "Spine2")[0]?).map Cable.bw,
          booked leafSpine plan.routes "Leaf1" "Spine2" 0)) = some (some 100, 100) by decide +kernel)
  obtain ⟨hleft, hbooked⟩ := Prod.mk.inj hplan
  refine ⟨plan, hrun, fun haccount => ?_⟩
  have hport := haccount "Leaf1" "Spine2" 0
  rw [hleft, hbooked] at hport
  revert hport
  decide +kernel

end SDNware.Planner
