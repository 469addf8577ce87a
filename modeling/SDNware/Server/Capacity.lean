/-
# SDNware.Server.Capacity — `route_max` and the policy routes in use.

`add_route` is to keep at most `route_max` policy routes: when the list is full and the pair's old
route has been deleted, it frees the oldest nodes.  It decides by the flag `del`, which
`save_route_in_links` has reset by then (`addRoute_booked`), and where it frees nodes it neither
counts them off `n_route` nor tells the controller.  So `n_route` is the number of routes ever
installed, first ones and replacements alike, and `capacity_iff` says which runs stay within
`route_max`: those in which no pair changes its route once the list is full.
`not_capacity_crowd` is a single round over more pairs than that.
-/
import Mathlib.Data.List.Induction
import Mathlib.Data.List.ProdSigma
import SDNware.Server.Controller

namespace SDNware.Server

open SDNware.Wire

/-! ## §1 — routes in use -/

/-- The numbers of the `save` requests, in order. -/
def saveSeqs (log : List Request) : List Int :=
  log.filterMap fun
    | .save path => some path.seq
    | .delete _ => none

/-- The numbers saved and not deleted since. -/
def heldSeqs (log : List Request) : List Int :=
  (saveSeqs log).dedup.filter fun seq => (controller log seq).isSome

/-- The number of policy routes the controller holds. -/
def heldRoutes (log : List Request) : Nat := (heldSeqs log).length

/-- At most `route_max` policy routes, for the controller and for the server's own list. -/
structure Capacity (r : Router) : Prop where
  held : heldRoutes r.log ≤ routeMax
  list : r.nRoute = r.routeList.length
  count : r.nRoute ≤ routeMax

theorem saveSeqs_append (log : List Request) (path : FlowPath) :
    saveSeqs (log ++ [.save path]) = saveSeqs log ++ [path.seq] := by
  unfold saveSeqs
  rw [List.filterMap_append]
  rfl

theorem saveSeqs_delete (log : List Request) (seq : Int) :
    saveSeqs (log ++ [.delete seq]) = saveSeqs log := by
  unfold saveSeqs
  rw [List.filterMap_append]
  exact List.append_nil _

/-- What the controller holds has been saved. -/
theorem mem_heldSeqs {log : List Request} {seq : Int} :
    seq ∈ heldSeqs log ↔ (controller log seq).isSome := by
  have hsaved : (controller log seq).isSome → seq ∈ saveSeqs log := by
    -- by the last request: a `save` is the only one that can fill an entry
    induction log using List.reverseRecOn with
    | nil => exact fun h => absurd h (by simp [controller])
    | append_singleton log req ih =>
      intro h
      unfold controller at h
      rw [List.foldl_append] at h
      change (execute (controller log) req seq).isSome at h
      cases req with
      | delete other =>
        rw [saveSeqs_delete]
        by_cases hs : seq = other
        · exact absurd h (by simp [execute, hs])
        · exact ih (by simpa [execute, Function.update_of_ne hs] using h)
      | save path =>
        rw [saveSeqs_append, List.mem_append]
        by_cases hs : seq = path.seq
        · exact Or.inr (List.mem_singleton.mpr hs)
        · exact Or.inl (ih (by simpa [execute, Function.update_of_ne hs] using h))
  unfold heldSeqs
  rw [List.mem_filter, List.mem_dedup]
  exact ⟨And.right, fun h => ⟨hsaved h, h⟩⟩

theorem heldRoutes_le (log : List Request) : heldRoutes log ≤ (saveSeqs log).length := by
  unfold heldRoutes heldSeqs
  exact (List.length_filter_le _ _).trans (List.dedup_sublist _).length_le

/-! ## §2 — `n_route` only grows -/

section Step

variable {R : Type} [DoubleOps R] {E : Env} {rates : RateMap R} {fuel : Nat} {now : Int}
  {r r' : Router} {p : Flow}

/-- The pair keeps its route, or there is room for another one. -/
def HasRoom (E : Env) (rates : RateMap R) (fuel : Nat) (r : Router) (p : Flow) : Prop :=
  serverIdx E p.1 ≠ serverIdx E p.2 → ∀ path ∈ findRoute E rates r.links fuel p,
    (r.routes p).seq ≠ -1 ∧ (r.routes p).Follows path ∨ r.nRoute < routeMax

instance (E : Env) (rates : RateMap R) (fuel : Nat) (r : Router) (p : Flow) :
    Decidable (HasRoom E rates fuel r p) := by
  unfold HasRoom
  infer_instance

/-- Every route ever installed is counted. -/
theorem saves_pairStep (hI : (saveSeqs r.log).length = r.nRoute)
    (h : PairStep E rates fuel now r p r') : (saveSeqs r'.log).length = r'.nRoute := by
  cases h with
  | near _ => exact hI
  | keep path hne hfind hseq hfollows => exact hI
  | fresh path inport hne hfind hfresh =>
    show (saveSeqs (r.log ++ [.save _])).length = r.nRoute + 1
    rw [saveSeqs_append, List.length_append, hI, List.length_singleton]
  | replace path hne hfind hseq hnot =>
    show (saveSeqs (r.log ++ [.delete _] ++ [.save _])).length = r.nRoute + 1
    rw [saveSeqs_append, saveSeqs_delete, List.length_append, hI, List.length_singleton]

theorem count_pairStep (hI : r.nRoute ≤ routeMax) (hroom : HasRoom E rates fuel r p)
    (h : PairStep E rates fuel now r p r') : r'.nRoute ≤ routeMax := by
  cases h with
  | near _ => exact hI
  | keep path hne hfind hseq hfollows => exact hI
  | fresh path inport hne hfind hfresh =>
    have hlt : r.nRoute < routeMax :=
      (hroom hne path hfind).resolve_left fun h => h.1 (by rw [hfresh])
    exact hlt
  | replace path hne hfind hseq hnot =>
    have hlt : r.nRoute < routeMax := (hroom hne path hfind).resolve_left fun h => hnot h.2
    exact hlt

/-- A pair that ends within `route_max` had room. -/
theorem hasRoom_of_pairStep (h : PairStep E rates fuel now r p r') (hle : r'.nRoute ≤ routeMax) :
    r.nRoute ≤ routeMax ∧ HasRoom E rates fuel r p := by
  have hroom : r.nRoute + 1 ≤ routeMax → r.nRoute ≤ routeMax ∧ HasRoom E rates fuel r p :=
    fun hlt => ⟨Nat.le_of_succ_le hlt, fun _ _ _ => Or.inr hlt⟩
  cases h with
  | near heq => exact ⟨hle, fun hne => absurd heq hne⟩
  | keep path hne hfind hseq hfollows =>
    refine ⟨hle, fun _ path' hfind' => Or.inl ⟨hseq, ?_⟩⟩
    obtain rfl : path = path' := Option.some.inj (hfind.symm.trans hfind')
    exact hfollows
  | fresh path inport hne hfind hfresh => exact hroom hle
  | replace path hne hfind hseq hnot => exact hroom hle

end Step

/-! ## §3 — every run -/

section Runs

variable {R : Type} [DoubleOps R] {E : Env}

/-- Going back from a state within `route_max`, every pair of every round had room. -/
theorem hasRoom_of_step (s : State R) (e : Event) (s' : State R) (hwf : s.router.Wf E)
    (h : s.step E e = some s') : s'.router.Wf E ∧ (s'.router.nRoute ≤ routeMax →
      s.router.nRoute ≤ routeMax ∧ State.AlongPairs E (HasRoom E) s e) := by
  cases e with
  | batch samples =>
    obtain rfl := Option.some.inj h
    exact ⟨hwf, fun hle => ⟨hle, trivial⟩⟩
  | round fuel clock =>
    obtain ⟨r', hround, rfl⟩ := Option.map_eq_some_iff.mp h
    have hstep : ∀ r p r', r.Wf E → pairStep E s.collector.txRates fuel clock r p = some r' →
        r'.Wf E ∧ (r'.nRoute ≤ routeMax →
          r.nRoute ≤ routeMax ∧ HasRoom E s.collector.txRates fuel r p) := by
      intro r p r' hr h
      have hcases := pairStep_cases hr h
      exact ⟨wf_pairStep hr hcases, hasRoom_of_pairStep hcases⟩
    refine ⟨Run.invariant_of_step (fun r p r' hr h => (hstep r p r' hr h).1) _ hwf hround, ?_⟩
    exact Run.along_of_final hstep _ hwf hround

/-- **Capacity.** A run of batches and rounds ends with at most `route_max` policy routes, in the
controller and in the list, if and only if every pair that changed its route on the way found fewer
than `route_max` nodes in the list. -/
theorem capacity_iff (es : List Event) (s : State R)
    (hrun : es.foldlM (State.step E) (State.init E) = some s) :
    Capacity s.router ↔
      Run.Along (State.step E) (State.AlongPairs E (HasRoom E)) (State.init (R := R) E) es := by
  constructor
  · -- `n_route` never shrinks, so the bound at the end was there all along
    intro hcap
    exact (Run.along_of_final hasRoom_of_step es (wf_init E) hrun hcap.count).2
  · intro hroom
    obtain ⟨hwf, hsaves, hcount⟩ := router_invariant
      (I := fun r => (saveSeqs r.log).length = r.nRoute ∧ r.nRoute ≤ routeMax)
      (fun _ _ _ _ _ _ _ hI hP h => ⟨saves_pairStep hI.1 h, count_pairStep hI.2 hP h⟩)
      (wf_init E) ⟨rfl, Nat.zero_le _⟩ hroom hrun
    exact ⟨(heldRoutes_le _).trans (hsaves.le.trans hcount), hwf.list, hcount⟩

theorem capacity_iff_twoLeaves :
    ∃ s : State ℚ, [threeFlows, oneRound, oneRound].foldlM (State.step twoLeaves)
        (State.init twoLeaves) = some s ∧ s.router.nRoute = 4 ∧ heldRoutes s.router.log = 3 ∧
      Capacity s.router := by
  obtain ⟨s, hrun, hcounts⟩ := Option.map_eq_some_iff.mp
    (show ([threeFlows, oneRound, oneRound].foldlM (State.step twoLeaves)
      (State.init (R := ℚ) twoLeaves)).map (fun s => (s.router.nRoute, heldRoutes s.router.log))
        = some (4, 3) by decide +kernel)
  obtain ⟨hcount, hheld⟩ := Prod.mk.inj hcounts
  exact ⟨s, hrun, hcount, hheld, (capacity_iff _ s hrun).mpr (by decide +kernel)⟩

end Runs

/-! ## §4 — a crowd

Thirty-two servers on each of two leaves, and a flow from each server on the left to each one on the
right: more flows than `route_max`, all over one link.  The rates are small, so that the link stays
below the limit of the search. -/

section Direct

variable {R : Type} [DoubleOps R] {E : Env} {rates : RateMap R} {links : Links} {p : Flow}

/-- Between two switches joined by one link the search takes the link, if its load is below the
start value of the scan. -/
theorem findRoute_direct {l : Link} (hn : E.nSwitch = 2) (hs : serverIdx E p.1 = 0)
    (hd : serverIdx E p.2 = 1) (hl : links (E.switchIdxToName 0, E.switchIdxToName 1) = [l])
    (hload : DoubleOps.lt (getInterfaceRate E rates links 0 1 0 p) (DoubleOps.ofInt 4000000000000)
      = true) (fuel : Nat) :
    findRoute E rates links (fuel + 2) p = some [(E.switchIdxToName 1, l.port2)] := by
  have hcandidates : candidates E links (Function.update (fun _ => false) 0 true) = [(0, 1, 0)] := by
    simp [candidates, hn, hl, List.range_succ, Function.update_apply]
  have hscan : scan E rates links p (Function.update (fun _ => false) 0 true)
      = ⟨0, 1, 0, DoubleOps.toInt (getInterfaceRate E rates links 0 1 0 p)⟩ := by
    unfold scan
    rw [hcandidates, List.foldl_cons, List.foldl_nil]
    unfold scanStep
    simp only [hload, if_true]
  unfold findRoute
  simp only [hs, hd, search, hscan, if_true, Option.bind_some, walkBack]
  simp [hl]

end Direct

def hosts (net : String) : List ServerEntry :=
  (List.range 32).map fun i => ⟨net ++ toString i, toString i, 100⟩

def crowd : Env where
  nodes := [⟨"Leaf1", "10.0.0.1"⟩, ⟨"Leaf2", "10.0.0.2"⟩]
  linklist := [⟨"Leaf1", "Eth1", "Leaf2", "Eth1"⟩]
  interfaces := [⟨"10.0.0.1", (List.range 32).map fun i => ⟨toString i, "eth-0-" ++ toString i⟩⟩]
  serverList := [("Leaf1", hosts "172.16.1."), ("Leaf2", hosts "172.16.2.")]
  eraseEnd := eraseLast
  assignsRecycled := false

def crowdFlows : List Flow :=
  (hosts "172.16.1.").map ServerEntry.ip ×ˢ (hosts "172.16.2.").map ServerEntry.ip

/-- A record of 5000 bytes in the flow's first second. -/
def crowdSample (p : Flow) : Sample :=
  ⟨⟨strncpy 16 p.2, strncpy 64 "mlx5_0", strncpy 32 p.1, 5000, 66, 1000000000⟩, 2000000000,
    2000000000⟩

def crowdRun : List Event :=
  [.batch (crowdFlows.map crowdSample), .round 2 fun _ => 3000000000]

/-- What the server looks up for a flow of the crowd. -/
structure CrowdPair (p : Flow) : Prop where
  src : serverIdx crowd p.1 = 0
  dst : serverIdx crowd p.2 = 1
  inport : ((crowd.serverIpToIf p.1).bind (crowd.idxToIfname (crowd.switchIdxToIp 0))).isSome
  ip : cStr (strncpy 32 p.1) = p.1
  gid : cStr (strncpy 16 p.2) = p.2
  named : p.2 ≠ ""
  known : crowd.checkIp p.2 = true

/-- The two leaves have no ip in common: their networks differ. -/
theorem hosts_ip_ne {left right : ServerEntry} (hleft : left ∈ hosts "172.16.1.")
    (hright : right ∈ hosts "172.16.2.") : left.ip ≠ right.ip := by
  obtain ⟨i, -, rfl⟩ := List.mem_map.mp hleft
  obtain ⟨j, -, rfl⟩ := List.mem_map.mp hright
  intro h
  have hletters := congrArg String.toList h
  rw [String.toList_append, String.toList_append] at hletters
  have hnets := List.append_inj_left hletters (by decide +kernel)
  exact absurd hnets (by decide +kernel)

section Listing

variable {listing : String × List ServerEntry} {server : ServerEntry}

theorem checkIp_crowd (hlisting : listing ∈ crowd.serverList) (hserver : server ∈ listing.2) :
    crowd.checkIp server.ip = true := by
  refine Env.checkIp_iff.mpr ⟨listing.1, List.mem_map_of_mem hlisting, server, ?_, rfl⟩
  obtain rfl | rfl := List.mem_pair.mp hlisting
  · exact hserver
  · exact hserver

/-- A host is looked up under its own leaf. -/
theorem serverIpToSwitchName_crowd (hlisting : listing ∈ crowd.serverList)
    (hserver : server ∈ listing.2) : crowd.serverIpToSwitchName server.ip = listing.1 := by
  obtain ⟨found, hfound, hname, other, hother, hip⟩ :=
    Env.serverIpToSwitchName_mem (checkIp_crowd hlisting hserver)
  rw [hname]
  obtain rfl | rfl := List.mem_pair.mp hlisting <;> obtain rfl | rfl := List.mem_pair.mp hfound
  · rfl
  · exact absurd hip.symm (hosts_ip_ne hserver hother)
  · exact absurd hip (hosts_ip_ne hother hserver)
  · rfl

end Listing

/-- Every port a host is found at is a port of the first leaf. -/
theorem inport_crowd {ip : String} (h : crowd.checkIp ip = true) :
    ((crowd.serverIpToIf ip).bind (crowd.idxToIfname (crowd.switchIdxToIp 0))).isSome := by
  have hports : ∀ i < 32, (crowd.idxToIfname (crowd.switchIdxToIp 0) (toString i)).isSome := by
    decide +kernel
  obtain ⟨port, hport⟩ := Option.isSome_iff_exists.mp (Env.serverIpToIf_isSome h)
  rw [hport, Option.bind_some]
  obtain ⟨server, hfind, rfl⟩ := Option.map_eq_some_iff.mp hport
  obtain ⟨entry, hentry, hserver⟩ := List.mem_flatMap.mp (List.mem_of_find?_eq_some hfind)
  obtain ⟨sw, -, rfl⟩ := List.mem_map.mp hentry
  obtain ⟨listing, hlisting, -, hmem⟩ := Env.mem_of_lastListing hserver
  -- on either leaf the host at place i has port i
  obtain ⟨i, hi, hplace⟩ : ∃ i < 32, server.port = toString i := by
    obtain rfl | rfl := List.mem_pair.mp hlisting
    all_goals
      obtain ⟨i, hi, rfl⟩ := List.mem_map.mp hmem
      exact ⟨i, List.mem_range.mp hi, rfl⟩
  rw [hplace]
  exact hports i hi

theorem crowdPair_of_mem {p : Flow} (h : p ∈ crowdFlows) : CrowdPair p := by
  have hip : ∀ ip ∈ (hosts "172.16.1.").map ServerEntry.ip, cStr (strncpy 32 ip) = ip := by
    decide +kernel
  have hgid : ∀ ip ∈ (hosts "172.16.2.").map ServerEntry.ip,
      cStr (strncpy 16 ip) = ip ∧ ip ≠ "" := by decide +kernel
  have hleaf1 : ("Leaf1", hosts "172.16.1.") ∈ crowd.serverList := List.mem_pair.mpr (.inl rfl)
  have hleaf2 : ("Leaf2", hosts "172.16.2.") ∈ crowd.serverList := List.mem_pair.mpr (.inr rfl)
  obtain ⟨h1, h2⟩ := List.mem_product.mp h
  obtain ⟨left, hleft, hsrc⟩ := List.mem_map.mp h1
  obtain ⟨right, hright, hdst⟩ := List.mem_map.mp h2
  refine ⟨?_, ?_, ?_, hip _ h1, (hgid _ h2).1, (hgid _ h2).2, ?_⟩
  · rw [← hsrc, serverIdx, serverIpToSwitchName_crowd hleaf1 hleft]
    rfl
  · rw [← hdst, serverIdx, serverIpToSwitchName_crowd hleaf2 hright]
    rfl
  · rw [← hsrc]
    exact inport_crowd (checkIp_crowd hleaf1 hleft)
  · rw [← hdst]
    exact checkIp_crowd hleaf2 hright

theorem hosts_nodup (net : String) : ((hosts net).map ServerEntry.ip).Nodup := by
  have hnumbers : ((List.range 32).map toString).Nodup := by decide +kernel
  have hips : (hosts net).map ServerEntry.ip = ((List.range 32).map toString).map (net ++ ·) := by
    simp [hosts]
  rw [hips]
  refine hnumbers.map fun a b h => ?_
  have hletters := congrArg String.toList h
  rw [String.toList_append, String.toList_append] at hletters
  exact String.toList_inj.mp (List.append_cancel_left hletters)

theorem crowdFlows_nodup : crowdFlows.Nodup :=
  (hosts_nodup "172.16.1.").product (hosts_nodup "172.16.2.")

/-- The collector once the first record of a flow is counted, at a rate of 40000. -/
def countedFirst (c : Collector ℚ) (p : Flow) : Collector ℚ where
  timeLastFlow := Function.update c.timeLastFlow p 1000000000
  timeRateUpdate := Function.update c.timeRateUpdate p 2000000000
  txRates := c.txRates.set p 40000

theorem recordSample_crowd {p : Flow} (hp : CrowdPair p) {c : Collector ℚ}
    (hlast : c.timeLastFlow p = 0) (hupdate : c.timeRateUpdate p = 0)
    (hrate : c.txRates.rate p = 0) :
    recordSample crowd c (crowdSample p) = countedFirst c p := by
  have hblock : rateBlock txSpeed c p 5000 1000000000 2000000000 = some (countedFirst c p) := by
    have hwindow : windowRate (0 : ℚ) winS (txSpeed 5000 1000000000) = 40000 := by decide +kernel
    unfold rateBlock
    rw [if_pos (by decide), hlast, hupdate, hrate]
    simp only [show toInt64 ((1000000000 : UInt64).toNat - 0) = 1000000000 by decide,
      show toInt64 ((1000000000 : UInt64).toNat) = 1000000000 by decide]
    rw [if_neg (by decide), if_pos (by decide), hwindow]
    rfl
  unfold recordSample
  simp only [crowdSample, hp.ip, hp.gid, Prod.mk.eta, hp.known, if_true, hblock]
  rw [rateBlock_of_small rxSpeed _ _ (by decide), Option.getD_some]

/-- Rates after first records of distinct flows. -/
theorem addSendRec_crowd (ps : List Flow) (hnodup : ps.Nodup) (hps : ∀ p ∈ ps, CrowdPair p)
    (c : Collector ℚ) (hc : ∀ p ∈ ps, c.timeLastFlow p = 0 ∧ c.timeRateUpdate p = 0 ∧
      c.txRates.rate p = 0) (q : Flow) :
    (toLex q ∈ (addSendRec crowd c (ps.map crowdSample)).txRates.keys ↔
        q ∈ ps ∨ toLex q ∈ c.txRates.keys) ∧
      (addSendRec crowd c (ps.map crowdSample)).txRates.rate q
        = if q ∈ ps then 40000 else c.txRates.rate q := by
  induction ps generalizing c with
  | nil => simp [addSendRec]
  | cons p ps ih =>
    obtain ⟨hnot, hnodup⟩ := List.nodup_cons.mp hnodup
    have hp := hps p List.mem_cons_self
    obtain ⟨hlast, hupdate, hrate⟩ := hc p List.mem_cons_self
    have hgid : cStr (crowdSample p).amount.gid ≠ "" := by
      show cStr (strncpy 16 p.2) ≠ ""
      rw [hp.gid]
      exact hp.named
    simp only [List.map_cons, addSendRec, if_neg hgid, recordSample_crowd hp hlast hupdate hrate]
    -- counting one flow leaves the clocks and rates of the others alone
    have hfirst : ∀ p' ∈ ps, (countedFirst c p).timeLastFlow p' = 0 ∧
        (countedFirst c p).timeRateUpdate p' = 0 ∧ (countedFirst c p).txRates.rate p' = 0 := by
      intro p' hp'
      have hne : p' ≠ p := fun h => hnot (h ▸ hp')
      simp only [countedFirst, RateMap.set, Function.update_of_ne hne]
      exact hc p' (List.mem_cons_of_mem p hp')
    obtain ⟨hkeys, hrates⟩ :=
      ih hnodup (fun p' hp' => hps p' (List.mem_cons_of_mem p hp')) (countedFirst c p) hfirst
    have hkey : toLex q ∈ (countedFirst c p).txRates.keys ↔ q = p ∨ toLex q ∈ c.txRates.keys := by
      rw [← toLex_inj]
      exact RateMap.mem_insertKey
    have hrate : (countedFirst c p).txRates.rate q = if q = p then 40000 else c.txRates.rate q :=
      Function.update_apply ..
    simp only [hkeys, hrates, hkey, hrate, List.mem_cons]
    refine ⟨by rw [or_left_comm, or_assoc], ?_⟩
    by_cases hq : q ∈ ps
    · rw [if_pos hq, if_pos (Or.inr hq)]
    · simp only [if_neg hq, or_iff_left hq]

/-- The load of a link is bounded by the flows on it. -/
theorem load_le {rates : RateMap ℚ} (hrates : ∀ q, rates.rate q ≤ 40000) (p : Flow)
    (flows : List Flow) (init : ℚ) :
    flows.foldl (fun res flow => if flow = p then res else DoubleOps.add res (rates.rate flow)) init
      ≤ init + 40000 * flows.length := by
  induction flows generalizing init with
  | nil => simp
  | cons flow flows ih =>
    rw [List.foldl_cons, List.length_cons]
    refine (ih _).trans ?_
    push_cast
    split
    · linarith
    · have hadd : DoubleOps.add init (rates.rate flow) = init + rates.rate flow := rfl
      rw [hadd]
      linarith [hrates flow]

/-- With fewer than a million flows the link stays below the start value of the scan. -/
theorem crowd_load {rates : RateMap ℚ} (hrates : ∀ q, rates.rate q ≤ 40000) {links : Links}
    {flows : List Flow} (hlink : links ("Leaf1", "Leaf2") = [⟨"Eth1", "Eth1", flows⟩])
    (hfew : flows.length < 1000000) (p : Flow) :
    DoubleOps.lt (getInterfaceRate crowd rates links 0 1 0 p) (DoubleOps.ofInt 4000000000000)
      = true := by
  have hrate : getInterfaceRate crowd rates links 0 1 0 p = flows.foldl
      (fun res flow => if flow = p then res else DoubleOps.add res (rates.rate flow)) 0 := by
    unfold getInterfaceRate
    rw [show (crowd.switchIdxToName 0, crowd.switchIdxToName 1) = ("Leaf1", "Leaf2") from rfl, hlink]
    rfl
  have hle := load_le hrates p flows 0
  have hfew : (flows.length : ℚ) < 1000000 := by exact_mod_cast hfew
  rw [hrate]
  show decide (_ < ((4000000000000 : Int) : ℚ)) = true
  rw [decide_eq_true_eq]
  push_cast
  linarith

/-- The router while it works through the crowd. -/
structure CrowdInv (r : Router) : Prop where
  wf : r.Wf crowd
  link : ∃ flows, r.links ("Leaf1", "Leaf2") = [⟨"Eth1", "Eth1", flows⟩] ∧ flows.length = r.nRoute
  next : r.seq = r.nRoute + 1
  held : ∀ seq, 1 ≤ seq → seq < r.seq → (controller r.log seq).isSome

theorem crowdInv_init : CrowdInv (Router.init crowd) where
  wf := wf_init crowd
  link := ⟨[], by decide, rfl⟩
  next := rfl
  held := fun seq h1 h2 => absurd h2 (not_lt.mpr h1)

/-- One flow of the crowd is installed. -/
theorem crowdInv_pairStep {rates : RateMap ℚ} (hrates : ∀ q, rates.rate q ≤ 40000)
    (clock : Flow → Int) {r : Router} {p : Flow} (hI : CrowdInv r) (hp : CrowdPair p)
    (hfresh : r.routes p = {}) (hfew : r.nRoute < 1000000) :
    ∃ r', pairStep crowd rates 2 clock r p = some r' ∧ CrowdInv r' ∧ r'.nRoute = r.nRoute + 1 ∧
      ∀ q, q ≠ p → r'.routes q = r.routes q := by
  obtain ⟨flows, hlink, hlen⟩ := hI.link
  have hne : serverIdx crowd p.1 ≠ serverIdx crowd p.2 := by
    rw [hp.src, hp.dst]
    decide
  have hload := crowd_load hrates hlink (by rw [hlen]; exact hfew) p
  have hfind : findRoute crowd rates r.links 2 p = some [("Leaf2", "Eth1")] :=
    findRoute_direct rfl hp.src hp.dst hlink hload 0
  obtain ⟨inport, hinport⟩ := Option.isSome_iff_exists.mp hp.inport
  have hstep := pairStep_fresh clock hI.wf hne hfind hfresh
  rw [hp.src, hinport, Option.map_some] at hstep
  refine ⟨_, hstep, ?_, rfl, fun q hq => Function.update_of_ne hq ..⟩
  -- the new flow is recorded on the one link, and saved under the counter
  refine ⟨wf_pairStep hI.wf (pairStep_cases hI.wf hstep), ⟨flows ++ [p], ?_, ?_⟩, ?_, ?_⟩
  · show editHops (· ++ [p]) r.links [((crowd.switchIdxToName (serverIdx crowd p.1),
      crowd.switchIdxToName (serverIdx crowd p.2)), "Eth1")] ("Leaf1", "Leaf2") = _
    rw [hp.src, hp.dst]
    show Function.update r.links ("Leaf1", "Leaf2") _ ("Leaf1", "Leaf2") = _
    rw [Function.update_self]
    show (r.links ("Leaf1", "Leaf2")).map _ = _
    rw [hlink]
    rfl
  · show (flows ++ [p]).length = r.nRoute + 1
    rw [List.length_append, hlen, List.length_singleton]
  · show r.seq + 1 = ((r.nRoute + 1 : Nat) : Int) + 1
    rw [hI.next]
    push_cast
    ring
  · intro seq h1 h2
    show (controller (r.log ++ [.save (flowPath p (firstRoute crowd r p inport _))]) seq).isSome
    rw [controller_save]
    show (Function.update (controller r.log) r.seq _ seq).isSome
    by_cases hseq : seq = r.seq
    · subst hseq
      exact Option.isSome_iff_exists.mpr ⟨_, Function.update_self ..⟩
    · rw [Function.update_of_ne hseq]
      have h2 : seq < r.seq + 1 := h2
      exact hI.held seq h1 (by omega)

/-- A round over distinct flows of the crowd installs them all. -/
theorem crowdInv_round {rates : RateMap ℚ} (hrates : ∀ q, rates.rate q ≤ 40000)
    (clock : Flow → Int) (ps : List Flow) (hnodup : ps.Nodup) (hps : ∀ p ∈ ps, CrowdPair p)
    {r : Router} (hI : CrowdInv r) (hfresh : ∀ p ∈ ps, r.routes p = {})
    (hfew : r.nRoute + ps.length < 1000000) :
    ∃ r', ps.foldlM (pairStep crowd rates 2 clock) r = some r' ∧ CrowdInv r' ∧
      r'.nRoute = r.nRoute + ps.length := by
  induction ps generalizing r with
  | nil => exact ⟨r, rfl, hI, rfl⟩
  | cons p ps ih =>
    obtain ⟨hnot, hnodup⟩ := List.nodup_cons.mp hnodup
    rw [List.length_cons] at hfew
    obtain ⟨r₁, hstep, hI₁, hcount, hother⟩ := crowdInv_pairStep hrates clock hI
      (hps p List.mem_cons_self) (hfresh p List.mem_cons_self) (by omega)
    -- the flows are distinct: the later ones still have no route
    have hfresh₁ : ∀ q ∈ ps, r₁.routes q = {} := by
      intro q hq
      rw [hother q fun h => hnot (h ▸ hq)]
      exact hfresh q (List.mem_cons_of_mem p hq)
    obtain ⟨r', hrest, hI', hcount'⟩ := ih hnodup (fun q hq => hps q (List.mem_cons_of_mem p hq))
      hI₁ hfresh₁ (by omega)
    refine ⟨r', ?_, hI', by rw [hcount', hcount, List.length_cons]; omega⟩
    rw [List.foldlM_cons, hstep]
    exact hrest

theorem heldRoutes_crowd {r : Router} (hI : CrowdInv r) : r.nRoute ≤ heldRoutes r.log := by
  have hsub : (List.range r.nRoute).map (fun i : Nat => (i : Int) + 1) ⊆ heldSeqs r.log := by
    intro seq hseq
    obtain ⟨i, hi, rfl⟩ := List.mem_map.mp hseq
    have hi := List.mem_range.mp hi
    have hnext := hI.next
    exact mem_heldSeqs.mpr (hI.held _ (by omega) (by omega))
  have hnodup : ((List.range r.nRoute).map fun i : Nat => (i : Int) + 1).Nodup :=
    List.nodup_range.map fun i j h => by simpa using h
  have hle := (List.subperm_of_subset hnodup hsub).length_le
  rwa [List.length_map, List.length_range] at hle

/-- The flows of the crowd are those with a positive rate. -/
theorem activePairs_crowd {rates : RateMap ℚ}
    (hkeys : ∀ q : Flow, toLex q ∈ rates.keys ↔ q ∈ crowdFlows)
    (hrates : ∀ q, rates.rate q = if q ∈ crowdFlows then 40000 else 0) :
    (activePairs rates).Perm crowdFlows := by
  have hlt : ∀ x y : ℚ, DoubleOps.lt x y = decide (x < y) := fun _ _ => rfl
  have hzero : (DoubleOps.ofInt 0 : ℚ) = 0 := rfl
  refine (List.perm_ext_iff_of_nodup ?_ crowdFlows_nodup).mpr fun q => ?_
  · exact (rates.nodup.map ofLex.injective).filter _
  · unfold activePairs
    rw [List.mem_filter, hrates, hlt, hzero]
    constructor
    · rintro ⟨hq, -⟩
      obtain ⟨key, hkey, rfl⟩ := List.mem_map.mp hq
      exact (hkeys (ofLex key)).mp hkey
    · intro hq
      refine ⟨List.mem_map.mpr ⟨toLex q, (hkeys q).mpr hq, rfl⟩, ?_⟩
      rw [if_pos hq]
      decide

/-- One round, and the controller holds 1024 policy routes. -/
theorem not_capacity_crowd :
    ∃ s : State ℚ, crowdRun.foldlM (State.step crowd) (State.init crowd) = some s ∧
      s.router.nRoute = 1024 ∧ 1024 ≤ heldRoutes s.router.log ∧ ¬ Capacity s.router := by
  obtain ⟨c, hc⟩ : ∃ c, addSendRec crowd (Collector.init (R := ℚ)) (crowdFlows.map crowdSample) = c :=
    ⟨_, rfl⟩
  have hcollect := addSendRec_crowd crowdFlows crowdFlows_nodup (fun p => crowdPair_of_mem)
    Collector.init (fun _ _ => ⟨rfl, rfl, rfl⟩)
  rw [hc] at hcollect
  have hrates : ∀ q, c.txRates.rate q = if q ∈ crowdFlows then 40000 else 0 :=
    fun q => (hcollect q).2
  have hkeys : ∀ q : Flow, toLex q ∈ c.txRates.keys ↔ q ∈ crowdFlows := by
    intro q
    rw [(hcollect q).1]
    exact or_iff_left List.not_mem_nil
  have hperm := activePairs_crowd hkeys hrates
  have hlen : (activePairs c.txRates).length = 1024 := by
    rw [hperm.length_eq]
    decide +kernel
  have hle : ∀ q, c.txRates.rate q ≤ 40000 := by
    intro q
    rw [hrates]
    split <;> norm_num
  obtain ⟨r, hround, hI, hcount⟩ := crowdInv_round hle (fun _ => 3000000000)
    (activePairs c.txRates) (hperm.nodup_iff.mpr crowdFlows_nodup)
    (fun p hp => crowdPair_of_mem (hperm.mem_iff.mp hp)) crowdInv_init (fun _ _ => rfl)
    (by rw [hlen]; decide)
  have hcount : r.nRoute = 1024 := by rw [hcount, hlen]; rfl
  refine ⟨⟨c, r⟩, ?_, hcount, hcount ▸ heldRoutes_crowd hI, fun hcap => ?_⟩
  · simp only [crowdRun, List.foldlM_cons, List.foldlM_nil, State.step, State.init, hc,
      Option.bind_eq_bind, Option.bind_some, updateRoute, hround, Option.map_some]
    rfl
  · have hle : r.nRoute ≤ routeMax := hcap.count
    rw [hcount] at hle
    exact absurd hle (by decide)

end SDNware.Server
