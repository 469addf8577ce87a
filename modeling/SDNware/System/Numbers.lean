/-
# SDNware.System.Numbers — the planner and the server on one controller.

`SDNroute.py` and the server send their routes to the same fabric `test` of the same controller, which
keeps one route under each sequence number.  The planner numbers its requests from 128 on; the server
numbers the pairs it routes from 1 on, in the order of their first routes, and never frees a number.

The controller is a service neither program contains.  What is assumed of it is `Executes`: it carries
out every request, of both programs, and keeps one entry under each number.  A request it refuses is
outside this module (`SDNware.Server.Refused`).

`both_held_iff`: however the requests of the two programs interleave at such a controller, it holds all
the routes of both exactly as long as the server has routed at most 127 pairs (or the planner has sent
nothing).  With the 128th pair one of two routes is gone: the controller has a single entry under 128,
and neither program ever reads back what it holds.
-/
import Mathlib
import SDNware.Planner.Rules
import SDNware.Server.Update

namespace SDNware.System

open SDNware.Server

/-! ## §1 — one table for both -/

/-- A request to the controller, by the program that sends it. -/
inductive Message
  | planner (req : Planner.FlowRoute)
  | server (req : Request)

/-- What the controller keeps under a number. -/
abbrev Stored := Planner.FlowRoute ⊕ FlowPath

/-- What a request of the server leaves under its number. -/
def leaves : Request → Option FlowPath
  | .delete _ => none
  | .save path => some path

/-- The number a request is about. -/
def Message.seq : Message → Int
  | .planner req => req.seq
  | .server req => req.seq

/-- What it leaves there. -/
def Message.leaves : Message → Option Stored
  | .planner req => some (.inl req)
  | .server req => (System.leaves req).map .inr

/-- The assumption on the controller: every request is executed, and an entry changes only by a request
under its number. -/
structure Executes (step : (Int → Option Stored) → Message → Int → Option Stored) : Prop where
  own : ∀ table m, step table m m.seq = m.leaves
  other : ∀ table m n, n ≠ m.seq → step table m n = table n

/-- The controller's table after some requests. -/
def shared (step : (Int → Option Stored) → Message → Int → Option Stored) (ms : List Message) :
    Int → Option Stored := ms.foldl step fun _ => none

/-- The requests of the planner among them. -/
def plannerPart (ms : List Message) : List Planner.FlowRoute :=
  ms.filterMap fun m => match m with
    | .planner req => some req
    | .server _ => none

/-- The requests of the server among them. -/
def serverPart (ms : List Message) : List Request :=
  ms.filterMap fun m => match m with
    | .planner _ => none
    | .server req => some req

theorem mem_plannerPart {ms : List Message} {req : Planner.FlowRoute} :
    req ∈ plannerPart ms ↔ .planner req ∈ ms := by
  unfold plannerPart
  rw [List.mem_filterMap]
  constructor
  · rintro ⟨m | q, hm, heq⟩
    · exact Option.some.inj heq ▸ hm
    · exact absurd heq (by simp)
  · exact fun h => ⟨_, h, rfl⟩

theorem mem_serverPart {ms : List Message} {req : Request} :
    req ∈ serverPart ms ↔ .server req ∈ ms := by
  unfold serverPart
  rw [List.mem_filterMap]
  constructor
  · rintro ⟨m | q, hm, heq⟩
    · exact absurd heq (by simp)
    · exact Option.some.inj heq ▸ hm
  · exact fun h => ⟨_, h, rfl⟩

section Table

variable {step : (Int → Option Stored) → Message → Int → Option Stored} {n : Int}

/-- The server's own view of the controller meets the assumption, request by request. -/
theorem execute_own (table : Int → Option FlowPath) (req : Request) :
    execute table req req.seq = leaves req := by
  cases req with
  | delete seq => exact Function.update_self ..
  | save path => exact Function.update_self ..

theorem execute_other (table : Int → Option FlowPath) {req : Request} (h : n ≠ req.seq) :
    execute table req n = table n := by
  cases req with
  | delete seq => exact Function.update_of_ne h ..
  | save path => exact Function.update_of_ne h ..

/-- An entry stays as long as the requests under its number leave the same there. -/
theorem foldl_of_same (hstep : Executes step) {entry : Option Stored} {ms : List Message}
    (hms : ∀ m ∈ ms, m.seq = n → m.leaves = entry) {table : Int → Option Stored}
    (htable : table n = entry) : ms.foldl step table n = entry := by
  induction ms generalizing table with
  | nil => exact htable
  | cons m ms ih =>
    obtain ⟨hm, hms⟩ := List.forall_mem_cons.mp hms
    apply ih hms
    by_cases hn : m.seq = n
    · rw [← hm hn, ← hn, hstep.own]
    · rw [hstep.other _ _ _ (Ne.symm hn), htable]

/-- Under a number the planner does not use the controller holds what it would hold for the server
alone. -/
theorem shared_of_server (hstep : Executes step) {ms : List Message}
    (h : ∀ req ∈ plannerPart ms, (req.seq : Int) ≠ n) :
    shared step ms n = (controller (serverPart ms) n).map .inr := by
  have hfold : ∀ (ms : List Message) (table : Int → Option Stored) (alone : Int → Option FlowPath),
      (∀ req ∈ plannerPart ms, (req.seq : Int) ≠ n) → table n = (alone n).map .inr →
        ms.foldl step table n = ((serverPart ms).foldl execute alone n).map .inr := by
    intro ms
    induction ms with
    | nil => exact fun _ _ _ htable => htable
    | cons m ms ih =>
      intro table alone h htable
      cases m with
      | planner req =>
        obtain ⟨hreq, hrest⟩ := List.forall_mem_cons.mp h
        apply ih _ alone hrest
        exact (hstep.other table (.planner req) n hreq.symm).trans htable
      | server req =>
        apply ih _ (execute alone req) h
        by_cases hn : n = req.seq
        · rw [hn, execute_own]
          exact hstep.own table (.server req)
        · rw [execute_other alone hn]
          exact (hstep.other table (.server req) n hn).trans htable
  exact hfold ms (fun _ => none) (fun _ => none) h rfl

/-- Under a number of one of the planner's requests that the server does not use, and no other request
of the planner does, the controller holds that request. -/
theorem shared_of_planner (hstep : Executes step) {ms : List Message} {req : Planner.FlowRoute}
    (hreq : req ∈ plannerPart ms) (hserver : ∀ q ∈ serverPart ms, q.seq ≠ req.seq)
    (hown : ∀ req' ∈ plannerPart ms, req'.seq = req.seq → req' = req) :
    shared step ms req.seq = some (.inl req) := by
  obtain ⟨before, later, hms⟩ := List.append_of_mem (mem_plannerPart.mp hreq)
  unfold shared
  rw [hms, List.foldl_append, List.foldl_cons]
  -- the request leaves itself there, and what comes later under the number is the same request
  refine foldl_of_same hstep (fun m hm hseq => ?_) (hstep.own _ (.planner req))
  have hmem : m ∈ ms := by
    rw [hms]
    exact List.mem_append_right before (List.mem_cons_of_mem _ hm)
  cases m with
  | planner req' =>
    rw [hown req' (mem_plannerPart.mpr hmem) (Int.ofNat_inj.mp hseq)]
    rfl
  | server q => exact absurd hseq (hserver q (mem_serverPart.mpr hmem))

end Table

/-! ## §2 — the numbers of the planner -/

section Planner

open SDNware.Planner

variable {K : Type}

theorem le_seq_of_numbered {plan : Plan K} (h : Numbered plan) {req : FlowRoute}
    (hreq : req ∈ plan.requests) : 128 ≤ req.seq := by
  have hmem : req.seq ∈ List.range' 128 plan.requests.length := h.seqs ▸ List.mem_map_of_mem hreq
  exact (List.mem_range'_1.mp hmem).1

theorem eq_of_numbered {plan : Plan K} (h : Numbered plan) {req req' : FlowRoute}
    (hreq : req ∈ plan.requests) (hreq' : req' ∈ plan.requests) (heq : req'.seq = req.seq) :
    req' = req := by
  have hnodup : (plan.requests.map FlowRoute.seq).Nodup := h.seqs ▸ List.nodup_range'
  exact List.inj_on_of_nodup_map hnodup hreq' hreq heq

/-- The first request has the number 128. -/
theorem exists_first_of_numbered {plan : Plan K} (h : Numbered plan) (hne : plan.requests ≠ []) :
    ∃ req ∈ plan.requests, req.seq = 128 := by
  have hpos : 0 < plan.requests.length := List.length_pos_iff.mpr hne
  have hmem : 128 ∈ plan.requests.map FlowRoute.seq := by
    rw [h.seqs, List.mem_range'_1]
    omega
  exact List.mem_map.mp hmem

variable [Field K] [LinearOrder K] {F : Fabric K} {rand : Nat → Nat}

theorem numbered_of_run {links : Planner.Links K} {paths : Nat → Nat → List (Share K)} {plan : Plan K}
    (hrun : F.getSToDRouting rand links paths = some plan) : Numbered plan := by
  refine Run.invariant_of_step (fun st j st' h hserve => ?_) F.jobs ⟨rfl, rfl⟩ hrun
  obtain ⟨server, path, walked, request, -, -, -, hrequest, rfl⟩ := serve_eq_some hserve
  refine h.commit ?_
  simp only [Fabric.flowRoute, Option.bind_eq_bind, Option.bind_eq_some_iff] at hrequest
  obtain ⟨_, _, _, _, _, _, _, _, _, _, hsome⟩ := hrequest
  rw [← Option.some.inj hsome]

end Planner

/-! ## §3 — the numbers of the server -/

section Server

variable {R : Type} [DoubleOps R] {E : Env} {r : Router}

/-- The numbers given out are 1, 2, … without a gap. -/
structure Dense (r : Router) : Prop where
  pos : ∀ p, (r.routes p).seq ≠ -1 → 1 ≤ (r.routes p).seq
  used : ∀ n, 1 ≤ n → n < r.seq → ∃ p, (r.routes p).seq = n

/-- A pair that has a route keeps its number. -/
theorem dense_update {rt : Route} {p : Flow} (h : Dense r) (hseq : rt.seq = (r.routes p).seq)
    {r' : Router} (hroutes : r'.routes = Function.update r.routes p rt)
    (hcounter : r'.seq = r.seq) : Dense r' := by
  have hsame : ∀ q, (r'.routes q).seq = (r.routes q).seq := by
    intro q
    rw [hroutes]
    by_cases hq : q = p
    · rw [hq, Function.update_self, hseq]
    · rw [Function.update_of_ne hq]
  constructor
  · intro q
    rw [hsame q]
    exact h.pos q
  · intro n hn hlt
    obtain ⟨q, hq⟩ := h.used n hn (by rwa [hcounter] at hlt)
    exact ⟨q, by rw [hsame q, hq]⟩

theorem dense_pairStep {rates : RateMap R} {fuel : Nat} {now : Int} {p : Flow} {r' : Router}
    (hwf : r.Wf E) (h : Dense r) (hstep : PairStep E rates fuel now r p r') : Dense r' := by
  cases hstep with
  | near _ => exact h
  | keep path =>
    refine dense_update h ?_ rfl rfl
    rfl
  | replace path =>
    refine dense_update h ?_ rfl rfl
    rfl
  | fresh path inport hne hfind hfresh =>
    have hcounter := hwf.counter
    -- the new number is the counter, and everything below was in use before
    have hother : ∀ q, q ≠ p → ∀ rt : Route, (Function.update r.routes p rt q).seq = (r.routes q).seq :=
      fun q hq rt => by rw [Function.update_of_ne hq]
    constructor
    · refine (Function.forall_update_iff r.routes fun _ rt => rt.seq ≠ -1 → 1 ≤ rt.seq).mpr ⟨?_, ?_⟩
      · exact fun _ => hcounter
      · exact fun q _ => h.pos q
    · intro n hn hlt
      have hlt : n < r.seq + 1 := hlt
      by_cases hlast : n = r.seq
      · refine ⟨p, ?_⟩
        show (Function.update r.routes p _ p).seq = n
        rw [Function.update_self]
        exact hlast.symm
      · obtain ⟨q, hq⟩ := h.used n hn (by omega)
        have hqp : q ≠ p := by
          rintro rfl
          rw [hfresh] at hq
          have : (-1 : Int) = n := hq
          omega
        exact ⟨q, (hother q hqp _).trans hq⟩

theorem dense_of_reached (h : Reached R E r) : r.Wf E ∧ Dense r := by
  induction h with
  | init =>
    refine ⟨wf_init E, fun _ hp => absurd rfl hp, fun n hn hlt => ?_⟩
    have : n < 1 := hlt
    omega
  | pair rates fuel clock p _ hstep ih =>
    have hcases := pairStep_cases ih.1 hstep
    exact ⟨wf_pairStep ih.1 hcases, dense_pairStep ih.1 ih.2 hcases⟩

/-- The pairs that have a route. -/
def routed (r : Router) : Set Flow := {p | (r.routes p).seq ≠ -1}

/-- There is one for each number below the counter. -/
theorem ncard_routed (h : Dense r) (hagrees : Agrees r) (hcounter : 1 ≤ r.seq) :
    ((routed r).ncard : Int) = r.seq - 1 := by
  have himage : (fun p => (r.routes p).seq) '' routed r = ↑(Finset.Ico 1 r.seq) := by
    ext n
    rw [Finset.coe_Ico, Set.mem_Ico]
    constructor
    · rintro ⟨p, hp, rfl⟩
      exact ⟨h.pos p hp, hagrees.below p hp⟩
    · rintro ⟨hn, hlt⟩
      obtain ⟨p, hp⟩ := h.used n hn hlt
      refine ⟨p, ?_, hp⟩
      show (r.routes p).seq ≠ -1
      omega
  have hinj : Set.InjOn (fun p => (r.routes p).seq) (routed r) :=
    fun p hp q _ heq => hagrees.distinct p q hp heq
  rw [← hinj.ncard_image, himage, Set.ncard_coe_finset, Int.card_Ico]
  omega

end Server

/-! ## §4 — the two together -/

section Both

open SDNware.Planner (Fabric Plan Share)

variable {K : Type} [Field K] [LinearOrder K] {R : Type} [DoubleOps R]

/-- The controller holds every route of the planner and the current route of every pair of the
server. -/
def BothHeld (table : Int → Option Stored) (plan : Plan K) (r : Router) : Prop :=
  (∀ req ∈ plan.requests, table req.seq = some (.inl req)) ∧
    ∀ p ∈ routed r, table (r.routes p).seq = some (.inr (flowPath p (r.routes p)))

/-- **Static and dynamic routes.** For a controller that executes every request and keeps one entry
under each number, every plan, every run of the server on a topology whose ports have names, and every
interleaving of their requests: the controller holds all the planner's routes and the current routes
of all pairs the server has routed if and only if the planner has sent nothing or those pairs are at
most 127. -/
theorem both_held_iff (step : (Int → Option Stored) → Message → Int → Option Stored)
    (hstep : Executes step) (F : Fabric K) (rand : Nat → Nat) (links : Planner.Links K)
    (paths : Nat → Nat → List (Share K)) (plan : Plan K)
    (hplan : F.getSToDRouting rand links paths = some plan) (E : Env)
    (hports : ∀ e ∈ E.linklist, e.port1 ≠ "" ∧ e.port2 ≠ "") (es : List Event) (s : State R)
    (hrun : es.foldlM (State.step E) (State.init E) = some s) (ms : List Message)
    (hplanner : plannerPart ms = plan.requests) (hserver : serverPart ms = s.router.log) :
    BothHeld (shared step ms) plan s.router ↔ plan.requests = [] ∨ (routed s.router).ncard ≤ 127 := by
  have hnumbered := numbered_of_run hplan
  have hreached := Reached.run hrun
  have hagrees := (updateInv_of_reached hports hreached).agrees
  obtain ⟨hwf, hdense⟩ := dense_of_reached hreached
  have hcard := ncard_routed hdense hagrees.toAgrees hwf.counter
  constructor
  · rintro ⟨hstatic, hdynamic⟩
    by_contra hnot
    rw [not_or, not_le] at hnot
    -- number 128 belongs to both
    obtain ⟨req, hreq, hseq⟩ := exists_first_of_numbered hnumbered hnot.1
    obtain ⟨p, hp⟩ := hdense.used 128 (by omega) (by omega)
    have hmine := hstatic req hreq
    have htheirs := hdynamic p (show (s.router.routes p).seq ≠ -1 by omega)
    rw [hseq] at hmine
    rw [hp] at htheirs
    exact absurd (hmine.symm.trans htheirs) (by simp)
  · intro h
    have hbelow : ∀ q ∈ serverPart ms, q.seq < s.router.seq := hserver ▸ hagrees.used
    constructor
    · intro req hreq
      have hle := le_seq_of_numbered hnumbered hreq
      have hfew : (routed s.router).ncard ≤ 127 := h.resolve_left (List.ne_nil_of_mem hreq)
      refine shared_of_planner hstep (hplanner ▸ hreq) (fun q hq => ?_) (fun req' hreq' heq => ?_)
      · have := hbelow q hq
        omega
      · exact eq_of_numbered hnumbered hreq (hplanner ▸ hreq') heq
    · intro p hp
      have hlt := hagrees.below p hp
      have hother : ∀ req ∈ plannerPart ms, (req.seq : Int) ≠ (s.router.routes p).seq := by
        intro req hreq
        rw [hplanner] at hreq
        have hle := le_seq_of_numbered hnumbered hreq
        have hfew : (routed s.router).ncard ≤ 127 := h.resolve_left (List.ne_nil_of_mem hreq)
        omega
      rw [shared_of_server hstep hother, hserver, (hagrees.table _ _).mpr ⟨p, hp, rfl, rfl⟩]
      rfl

/-- A controller as assumed. -/
def keeping (table : Int → Option Stored) (m : Message) : Int → Option Stored :=
  Function.update table m.seq m.leaves

theorem executes_keeping : Executes keeping :=
  ⟨fun _ _ => Function.update_self .., fun _ _ _ h => Function.update_of_ne h ..⟩

/-- Three pairs next to a plan: nothing is lost, whichever program comes first. -/
theorem both_held_iff_threeFlows :
    ∃ (plan : Plan ℚ) (s : State ℚ),
      Planner.leafSpine.getSToDRouting id Planner.leafSpineLinks Planner.leafSpinePaths = some plan ∧
      [threeFlows, oneRound].foldlM (State.step twoLeaves) (State.init twoLeaves) = some s ∧
      BothHeld (shared keeping (s.router.log.map .server ++ plan.requests.map .planner)) plan
        s.router := by
  obtain ⟨plan, hplan⟩ : ∃ plan, Planner.leafSpine.getSToDRouting id Planner.leafSpineLinks
      Planner.leafSpinePaths = some plan := Option.isSome_iff_exists.mp (by decide +kernel)
  obtain ⟨s, hrun, hseq⟩ := Option.map_eq_some_iff.mp
    (show ([threeFlows, oneRound].foldlM (State.step twoLeaves) (State.init (R := ℚ) twoLeaves)).map
      (fun s => s.router.seq) = some 4 by decide +kernel)
  have hports : ∀ e ∈ twoLeaves.linklist, e.port1 ≠ "" ∧ e.port2 ≠ "" := by decide
  have hreached := Reached.run hrun
  obtain ⟨hwf, hdense⟩ := dense_of_reached hreached
  have hcard := ncard_routed hdense (updateInv_of_reached hports hreached).agrees.toAgrees hwf.counter
  refine ⟨plan, s, hplan, hrun, ?_⟩
  apply (both_held_iff keeping executes_keeping Planner.leafSpine id _ _ plan hplan twoLeaves hports _
    s hrun _ ?_ ?_).mpr
  · exact Or.inr (by omega)
  · simp [plannerPart, List.filterMap_append, List.filterMap_map]
  · simp [serverPart, List.filterMap_append, List.filterMap_map]

end Both

end SDNware.System
