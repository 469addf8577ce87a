/-
# SDNware.Server.Update — patching a stored route amounts to replacing it.

`get_route` patches the stored route in place: it appends, clears or overwrites `pass` entry by entry,
then the last port, and retires the old route at the first difference it meets.  `Updated` is what a
replacement would do: the new route holds the path, one delete request is sent if there was another
route before, the old links are freed as the old route names them, and nothing else changes.
`getRoute_updated` shows it for every router the server can reach and every path the search finds.
-/
import SDNware.Server.SearchEnds
import SDNware.Server.LinkUndo

namespace SDNware.Server

/-! ## §1 — what no update touches -/

section Frame

variable {E : Env} {p : Flow} {links : Links}

/-- A link without the entries of a pair. -/
def Link.others (p : Flow) (l : Link) : Link := { l with flows := l.flows.filter (· ≠ p) }

theorem filter_ne_erase (p : Flow) (flows : List Flow) :
    (flows.erase p).filter (· ≠ p) = flows.filter (· ≠ p) := by
  induction flows with
  | nil => rfl
  | cons q flows ih =>
    by_cases hq : q = p
    · subst hq
      rw [List.erase_cons_head, List.filter_cons_of_neg (by simp)]
    · rw [List.erase_cons_tail (by simpa using hq), List.filter_cons_of_pos (by simpa using hq),
        List.filter_cons_of_pos (by simpa using hq), ih]

/-- Loops that edit a pair's entries leave those of the others alone. -/
theorem others_editHops {op : List Flow → List Flow}
    (hop : ∀ flows, (op flows).filter (· ≠ p) = flows.filter (· ≠ p)) (hops : List Hop)
    (ab : String × String) :
    (editHops op links hops ab).map (Link.others p) = (links ab).map (Link.others p) := by
  induction hops generalizing links with
  | nil => rfl
  | cons h hops ih =>
    show (editHops op (editHop op links h) hops ab).map (Link.others p) = _
    rw [ih, editHop_apply, List.map_map]
    refine List.map_congr_left fun l _ => ?_
    rw [Function.comp_apply]
    split
    · unfold Link.others
      rw [hop]
    · rfl

theorem others_append (hops : List Hop) (ab : String × String) :
    (editHops (· ++ [p]) links hops ab).map (Link.others p) = (links ab).map (Link.others p) :=
  others_editHops (fun flows => by simp) hops ab

theorem others_erase (hend : ∀ flows, E.eraseEnd flows = some flows) (hops : List Hop)
    (ab : String × String) :
    (editHops (erased E p) links hops ab).map (Link.others p) =
      (links ab).map (Link.others p) := by
  refine others_editHops (fun flows => ?_) hops ab
  by_cases hmem : p ∈ flows
  · rw [erased_of_mem hmem]
    exact filter_ne_erase p flows
  · unfold erased eraseFlow
    rw [if_neg hmem, hend, Option.getD_some]

/-- Where erasing at the end is harmless all erases return. -/
theorem erasesReturn_of_end (hend : ∀ flows, E.eraseEnd flows = some flows) :
    ∀ (hops : List Hop) (links : Links), ErasesReturn E p links hops
  | [], _ => trivial
  | _ :: hops, _ => by
      refine ⟨fun l _ _ => Or.inr ?_, erasesReturn_of_end hend hops _⟩
      rw [hend]
      rfl

end Frame

/-! ## §2 — reachable routers -/

section Reached

variable {R : Type} [DoubleOps R] {E : Env}

/-- The routers between two pairs, whatever the rates, fuels and clocks. -/
inductive Reached (R : Type) [DoubleOps R] (E : Env) : Router → Prop
  | init : Reached R E (Router.init E)
  | pair {r r' : Router} (rates : RateMap R) (fuel : Nat) (clock : Flow → Int) (p : Flow)
      (hr : Reached R E r) (h : pairStep E rates fuel clock r p = some r') : Reached R E r'

theorem Reached.pairs {rates : RateMap R} {fuel : Nat} {clock : Flow → Int} {ps : List Flow}
    {r r' : Router} (hr : Reached R E r)
    (h : ps.foldlM (pairStep E rates fuel clock) r = some r') : Reached R E r' :=
  Run.invariant_of_step (fun _ p _ hr h => .pair rates fuel clock p hr h) ps hr h

/-- Every run of the server stays in them; with `Reached.pairs` also between the pairs of a round. -/
theorem Reached.run {es : List Event} {s : State R}
    (h : es.foldlM (State.step E) (State.init E) = some s) : Reached R E s.router := by
  refine Run.invariant_of_step (I := fun s : State R => Reached R E s.router) ?_ es .init h
  intro s e s' hs h
  cases e with
  | batch samples =>
    obtain rfl := Option.some.inj h
    exact hs
  | round fuel clock =>
    obtain ⟨r', hround, rfl⟩ := Option.map_eq_some_iff.mp h
    exact hs.pairs hround

/-- What the patching rests on. -/
structure UpdateInv (E : Env) (r : Router) : Prop where
  wf : r.Wf E
  agrees : AgreesInv r
  /-- Installed routes start at the source's switch. -/
  indev : ∀ p, (r.routes p).seq ≠ -1 →
    (r.routes p).indev = E.switchIdxToName (serverIdx E p.1)

theorem indev_update {routes : Flow → Route} {p : Flow} {rt : Route}
    (h : ∀ q, (routes q).seq ≠ -1 → (routes q).indev = E.switchIdxToName (serverIdx E q.1))
    (hrt : rt.indev = E.switchIdxToName (serverIdx E p.1)) (q : Flow)
    (hq : (Function.update routes p rt q).seq ≠ -1) :
    (Function.update routes p rt q).indev = E.switchIdxToName (serverIdx E q.1) :=
  (Function.forall_update_iff routes fun q rt =>
    rt.seq ≠ -1 → rt.indev = E.switchIdxToName (serverIdx E q.1)).mpr
      ⟨fun _ => hrt, fun q _ => h q⟩ q hq

theorem updateInv_pairStep {rates : RateMap R} {fuel : Nat} {now : Int} {r r' : Router} {p : Flow}
    (hr : UpdateInv E r) (h : PairStep E rates fuel now r p r') : UpdateInv E r' := by
  refine ⟨wf_pairStep hr.wf h, agreesInv_pairStep hr.wf hr.agrees h, ?_⟩
  cases h with
  | near _ => exact hr.indev
  | keep path hne hfind hseq hfollows => exact indev_update hr.indev (hr.indev p hseq)
  | fresh path inport hne hfind hfresh => exact indev_update hr.indev rfl
  | replace path hne hfind hseq hnot => exact indev_update hr.indev (hr.indev p hseq)

theorem updateInv_of_reached (hports : ∀ e ∈ E.linklist, e.port1 ≠ "" ∧ e.port2 ≠ "") {r : Router}
    (h : Reached R E r) : UpdateInv E r := by
  induction h with
  | init => exact ⟨wf_init E, agreesInv_init hports, fun _ hp => absurd rfl hp⟩
  | pair rates fuel clock p _ h ih => exact updateInv_pairStep ih (pairStep_cases ih.wf h)

end Reached

/-! ## §3 — the update -/

/-- The pair's stored route, as far as the path determines it. -/
def Route.along (rt : Route) : List PathHop × String := (rt.pass, rt.outport)

/-- Replacing the route of a pair by the path: `r` before, `r'` and the result after. -/
structure Updated (E : Env) (r : Router) (p : Flow) (path : List PathHop) (result : Bool)
    (r' : Router) : Prop where
  pass : (r'.routes p).pass = path.dropLast
  out : some ((r'.routes p).outdev, (r'.routes p).outport) = path.getLast?
  indev : (r'.routes p).indev = E.switchIdxToName (serverIdx E p.1)
  /-- True for a first route and for one that changed. -/
  result : result = true ↔ (r.routes p).seq = -1 ∨ (r.routes p).along ≠ (r'.routes p).along
  /-- One delete request if there was another route, none otherwise. -/
  log : r'.log =
    if (r.routes p).seq ≠ -1 ∧ (r.routes p).along ≠ (r'.routes p).along then
      r.log ++ [.delete (r.routes p).seq]
    else r.log
  /-- Such a route is freed as it was, before the new one is recorded. -/
  links : some r'.links =
    if (r.routes p).seq = -1 then
      some (editHops (· ++ [p]) r.links (saveHops E p (r'.routes p)))
    else if (r.routes p).along = (r'.routes p).along then some r.links
    else (delRouteInLinks E r p).map fun freed =>
      editHops (· ++ [p]) freed.links (saveHops E p (r'.routes p))
  routes : ∀ q, q ≠ p → r'.routes q = r.routes q
  others : ∀ ab, (r'.links ab).map (Link.others p) = (r.links ab).map (Link.others p)

section Update

variable {R : Type} [DoubleOps R] {E : Env} {rates : RateMap R} {fuel : Nat} {r : Router}
  {p : Flow} {path : List PathHop}

theorem follow_out (hpath : FoundPath E r.links p path) :
    some (outName E p, lastPort path) = path.getLast? := by
  obtain ⟨pass, port, rfl⟩ := hpath.last
  simp [lastPort, outName]

/-- A first route. -/
theorem updated_fresh (hfresh : r.routes p = {}) (hpath : FoundPath E r.links p path)
    (inport : String) :
    Updated E r p path true
      (booked E { r with seq := r.seq + 1 } p (firstRoute E r p inport path)) := by
  have hroute : (booked E { r with seq := r.seq + 1 } p (firstRoute E r p inport path)).routes p =
      firstRoute E r p inport path := Function.update_self ..
  have hseq : (r.routes p).seq = -1 := by rw [hfresh]
  refine ⟨by rw [hroute]; rfl, by rw [hroute]; exact follow_out hpath, by rw [hroute]; rfl, ?_, ?_, ?_,
    fun q hq => Function.update_of_ne hq .., fun ab => others_append _ ab⟩
  · simp [hseq]
  · rw [if_neg fun h => h.1 hseq]
    rfl
  · rw [if_pos hseq, hroute]
    rfl

/-- An installed route that follows the path. -/
theorem updated_keep (hr : UpdateInv E r) (hseq : (r.routes p).seq ≠ -1)
    (hpath : FoundPath E r.links p path) (hfollows : (r.routes p).Follows path) :
    Updated E r p path false (r.setRoute p ((r.routes p).follow E p path)) := by
  obtain ⟨-, hdel, hout⟩ := (hr.wf.route p).resolve_left fun hfresh => hseq (by rw [hfresh])
  have hport := hfollows.2.resolve_left (hr.agrees.outports p hseq)
  rw [follow_eq_self hdel hout (hr.agrees.outports p hseq) hfollows, setRoute_self]
  refine ⟨hfollows.1, by rw [hout, hport]; exact follow_out hpath, hr.indev p hseq, ?_, ?_, ?_,
    fun _ _ => rfl, fun _ => rfl⟩
  · simp [hseq]
  · rw [if_neg fun h => h.2 rfl]
  · rw [if_neg hseq, if_pos rfl]

/-- An installed route that does not. -/
theorem updated_replace (hend : ∀ flows, E.eraseEnd flows = some flows) (hr : UpdateInv E r)
    (hseq : (r.routes p).seq ≠ -1) (hpath : FoundPath E r.links p path)
    (hnot : ¬ (r.routes p).Follows path) :
    Updated E r p path true (booked E (retired E r p) p ((r.routes p).follow E p path)) := by
  have hroute : (booked E (retired E r p) p ((r.routes p).follow E p path)).routes p =
      (r.routes p).follow E p path := Function.update_self ..
  have hchanged : (r.routes p).along ≠ ((r.routes p).follow E p path).along := by
    intro h
    obtain ⟨hpass, hport⟩ := Prod.mk.inj h
    exact hnot ⟨hpass, .inr hport⟩
  refine ⟨by rw [hroute]; rfl, by rw [hroute]; exact follow_out hpath,
    by rw [hroute]; exact hr.indev p hseq, ?_, ?_, ?_, fun q hq => Function.update_of_ne hq ..,
    fun ab => ?_⟩
  · rw [hroute]
    simp [hchanged]
  · rw [hroute, if_pos ⟨hseq, hchanged⟩]
    rfl
  · rw [hroute, if_neg hseq, if_neg hchanged,
      delRouteInLinks_of_returns (erasesReturn_of_end hend _ _)]
    rfl
  · exact (others_append _ ab).trans (others_erase hend _ ab)

/-- **Patching is replacing.** In every router the server can reach, on a topology whose ports have
names and with `erase(end())` doing nothing: once the search has found a path for a pair on different
switches, `get_route` returns unless the `inport` of a first route is unknown, and what it has done
then is to replace the pair's route by the path. -/
theorem getRoute_updated (hports : ∀ e ∈ E.linklist, e.port1 ≠ "" ∧ e.port2 ≠ "")
    (hend : ∀ flows, E.eraseEnd flows = some flows) (hreached : Reached R E r)
    (hne : serverIdx E p.1 ≠ serverIdx E p.2)
    (hfind : findRoute E rates r.links fuel p = some path) :
    ((getRoute E rates fuel r p).isSome ↔ (r.routes p).seq ≠ -1 ∨ InportKnown E p.1) ∧
      ∀ result r', getRoute E rates fuel r p = some (result, r') →
        Updated E r p path result r' := by
  have hr := updateInv_of_reached hports hreached
  have hpath := findRoute_path hne hfind
  have hget : getRoute E rates fuel r p = applyRoute E r p path := by
    unfold getRoute
    rw [if_neg hne, hfind, Option.bind_some]
  rw [hget]
  rcases hr.wf.route p with hfresh | ⟨hseq, hdel, hout⟩
  · refine ⟨?_, fun result r' h => ?_⟩
    · rw [applyRoute_fresh_isSome_iff hfresh, hfresh]
      simp
    · rw [applyRoute_fresh hfresh] at h
      obtain ⟨inport, -, hres⟩ := Option.map_eq_some_iff.mp h
      obtain ⟨rfl, rfl⟩ := Prod.mk.inj hres
      exact updated_fresh hfresh hpath inport
  · obtain ⟨pass, port, hlast⟩ := hpath.last
    have happly := applyRoute_installed hseq hdel hout (by simp [hlast] : path ≠ [])
    have hreturns : r.RetireReturns E p := erasesReturn_of_end hend _ _
    rw [if_pos hreturns] at happly
    rw [happly]
    by_cases hfollows : (r.routes p).Follows path
    · rw [if_pos hfollows]
      refine ⟨by simp [hseq], fun result r' h => ?_⟩
      obtain ⟨rfl, rfl⟩ := Prod.mk.inj (Option.some.inj h)
      exact updated_keep hr hseq hpath hfollows
    · rw [if_neg hfollows]
      refine ⟨by simp [hseq], fun result r' h => ?_⟩
      obtain ⟨rfl, rfl⟩ := Prod.mk.inj (Option.some.inj h)
      exact updated_replace hend hr hseq hpath hfollows

/-- The first flow moves from link 1 to link 2. -/
theorem getRoute_updated_twoLeaves :
    ∃ (s : State ℚ) (r' : Router),
      [threeFlows, oneRound].foldlM (State.step twoLeaves) (State.init twoLeaves) = some s ∧
        Updated twoLeaves s.router leafFlow [("Leaf2", "Eth2")] true r' := by
  obtain ⟨s, hrun, hfacts⟩ := Option.map_eq_some_iff.mp
    (show ([threeFlows, oneRound].foldlM (State.step twoLeaves) (State.init (R := ℚ) twoLeaves)).map
      (fun s => (findRoute twoLeaves s.collector.txRates s.router.links 3 leafFlow,
        (getRoute twoLeaves s.collector.txRates 3 s.router leafFlow).map Prod.fst))
        = some (some [("Leaf2", "Eth2")], some true) by decide +kernel)
  obtain ⟨hfind, hget⟩ := Prod.mk.inj hfacts
  obtain ⟨⟨result, r'⟩, hget, rfl⟩ := Option.map_eq_some_iff.mp hget
  have hports : ∀ e ∈ twoLeaves.linklist, e.port1 ≠ "" ∧ e.port2 ≠ "" := by decide
  exact ⟨s, r', hrun, (getRoute_updated hports (fun _ => rfl) (Reached.run hrun)
    (by decide +kernel) hfind).2 _ _ hget⟩

end Update

end SDNware.Server
