/-
# SDNware.Server.LinkBook — the flows recorded on the links.

The search weighs a link by the flows recorded on it, so every link should name a pair exactly once
while the pair's route uses it, and never otherwise.  `save_route_in_links` and `del_route_in_links`
walk the route link by link, but not along the same links:

* between two passed switches both compare with the port of the first one;
* the last link is saved by `outport` and erased by the port of the last passed switch;
* a route that passes no switch is erased from the links to `routes[sip][sip].outdev`, which is never
  assigned, so its entry stays.

`Bookable` is what keeps a pair clear of the three, and `booked_of_bookable` the invariant for every
run of bookable pairs.  `not_booked_twoLeaves` is the entry that stays.
-/
import SDNware.Server.Controller

namespace SDNware.Server

/-! ## §1 — hops and books -/

/-- The hops of a route: the switches it visits in turn, each with the port it is entered by. -/
def Route.hops (rt : Route) : List Hop :=
  ((rt.indev :: rt.pass.map Prod.fst).zip (rt.pass ++ [(rt.outdev, rt.outport)])).map
    fun step => ((step.1, step.2.1), step.2.2)

/-- The hops of a pair's installed route. -/
def Router.hopsOf (r : Router) (p : Flow) : List Hop :=
  if (r.routes p).seq = -1 then [] else (r.routes p).hops

/-- Every link names every pair once if it is one of the pair's hops, and not at all otherwise. -/
def Books (links : Links) (hopsOf : Flow → List Hop) : Prop :=
  ∀ p ab, ∀ l ∈ links ab, l.flows.count p = if (ab, l.port2) ∈ hopsOf p then 1 else 0

/-- The link book-keeping of a router. -/
def Booked (r : Router) : Prop := Books r.links r.hopsOf

/-- Loops over different pairs of switches edit every link at most once. -/
theorem editHops_apply {hops : List Hop} (hnodup : (hops.map Prod.fst).Nodup)
    (op : List Flow → List Flow) (links : Links) (ab : String × String) :
    editHops op links hops ab = (links ab).map fun l =>
      if (ab, l.port2) ∈ hops then { l with flows := op l.flows } else l := by
  induction hops generalizing links with
  | nil => simp [editHops]
  | cons hop hops ih =>
    obtain ⟨hnot, hnodup⟩ := List.nodup_cons.mp hnodup
    show editHops op (editHop op links hop) hops ab = _
    rw [ih hnodup]
    unfold editHop
    by_cases hab : ab = hop.1
    · -- no later loop is over this pair
      have hlater : ∀ port, (ab, port) ∉ hops := fun port hmem =>
        hnot (hab ▸ List.mem_map_of_mem (f := Prod.fst) hmem)
      have hthis : ∀ port, (ab, port) ∈ hop :: hops ↔ port = hop.2 := by
        intro port
        rw [List.mem_cons, or_iff_left (hlater port), hab]
        exact ⟨fun h => congrArg Prod.snd h, fun h => by rw [h]⟩
      simp only [hlater, hthis, if_false, List.map_id']
      rw [hab, Function.update_self]
    · have hthis : ∀ port, (ab, port) ∈ hop :: hops ↔ (ab, port) ∈ hops := by
        intro port
        rw [List.mem_cons, or_iff_right]
        exact fun h => hab (congrArg Prod.fst h)
      simp only [hthis]
      rw [Function.update_of_ne hab]

section Books

variable {links : Links} {hopsOf : Flow → List Hop} {p : Flow} {hops : List Hop}

/-- An edit of the pair's entries on its hops, seen by the book. -/
theorem books_editHops {op : List Flow → List Flow} (hbooks : Books links hopsOf)
    (hnodup : (hops.map Prod.fst).Nodup) (hops' : List Hop)
    (hother : ∀ q, q ≠ p → ∀ flows, (op flows).count q = flows.count q)
    (hself : ∀ ab, ∀ l ∈ links ab, (ab, l.port2) ∈ hops →
      (op l.flows).count p = if (ab, l.port2) ∈ hops' then 1 else 0)
    (hrest : ∀ hop, hop ∉ hops → (hop ∈ hopsOf p ↔ hop ∈ hops')) :
    Books (editHops op links hops) (Function.update hopsOf p hops') := by
  intro q ab l hl
  rw [editHops_apply hnodup] at hl
  obtain ⟨old, hold, rfl⟩ := List.mem_map.mp hl
  have hport : (if (ab, old.port2) ∈ hops then { old with flows := op old.flows } else old).port2
      = old.port2 := by
    split <;> rfl
  rw [hport]
  by_cases hq : q = p
  · subst hq
    rw [Function.update_self]
    by_cases hmem : (ab, old.port2) ∈ hops
    · rw [if_pos hmem]
      exact hself ab old hold hmem
    · rw [if_neg hmem, hbooks q ab old hold]
      simp only [hrest _ hmem]
  · rw [Function.update_of_ne hq, ← hbooks q ab old hold]
    split
    · exact hother q hq old.flows
    · rfl

/-- Erasing a pair along its hops. -/
theorem books_erase (E : Env) (hbooks : Books links hopsOf) (hnodup : (hops.map Prod.fst).Nodup)
    (hp : hopsOf p = hops) :
    Books (editHops (erased E p) links hops) (Function.update hopsOf p []) := by
  have hcount : ∀ ab, ∀ l ∈ links ab, (ab, l.port2) ∈ hops → l.flows.count p = 1 := by
    intro ab l hl hmem
    rw [hbooks p ab l hl, hp, if_pos hmem]
  -- an entry is there to be erased wherever a loop looks, so `erase` never gets `end()`
  have hedit : editHops (erased E p) links hops = editHops (fun flows => flows.erase p) links hops := by
    funext ab
    rw [editHops_apply hnodup, editHops_apply hnodup]
    refine List.map_congr_left fun l hl => ?_
    by_cases hmem : (ab, l.port2) ∈ hops
    · have hin : p ∈ l.flows := List.one_le_count_iff.mp (hcount ab l hl hmem).ge
      rw [if_pos hmem, if_pos hmem, erased_of_mem hin]
    · rw [if_neg hmem, if_neg hmem]
  rw [hedit]
  refine books_editHops hbooks hnodup [] (fun q hq flows => ?_) (fun ab l hl hmem => ?_) ?_
  · exact List.count_erase_of_ne hq
  · rw [List.count_erase_self, hcount ab l hl hmem]
    rfl
  · intro hop hnot
    rw [hp]
    exact ⟨fun h => absurd h hnot, fun h => absurd h List.not_mem_nil⟩

/-- Recording a pair that is on no link. -/
theorem books_append (hbooks : Books links hopsOf) (hnodup : (hops.map Prod.fst).Nodup)
    (hp : hopsOf p = []) :
    Books (editHops (· ++ [p]) links hops) (Function.update hopsOf p hops) := by
  refine books_editHops hbooks hnodup hops (fun q hq flows => ?_) (fun ab l hl hmem => ?_) ?_
  · rw [List.count_append, List.count_singleton, beq_false_of_ne hq.symm]
    rfl
  · rw [List.count_append, hbooks p ab l hl, hp, if_pos hmem, List.count_singleton_self]
    rfl
  · intro hop hnot
    rw [hp]
    exact ⟨fun h => absurd h List.not_mem_nil, fun h => absurd h hnot⟩

end Books

/-! ## §2 — the loops of the source -/

section Loops

variable {E : Env} {p : Flow} {rt : Route}

/-- All entries have one port. -/
def OnePort (pass : List PathHop) : Prop := ∀ a ∈ pass, ∀ b ∈ pass, a.2 = b.2

instance (pass : List PathHop) : Decidable (OnePort pass) :=
  inferInstanceAs (Decidable (∀ a ∈ pass, ∀ b ∈ pass, a.2 = b.2))

/-- The hops behind the first passed switch, when all are entered by one port. -/
theorem middleHops_eq (port : String) (out : PathHop) (rest : List PathHop)
    (hport : ∀ b ∈ rest, b.2 = port) (first : PathHop) :
    ((first.1 :: rest.map Prod.fst).zip (rest ++ [out])).map
        (fun step => ((step.1, step.2.1), step.2.2))
      = ((first :: rest).zip rest).map (fun ab => ((ab.1.1, ab.2.1), port))
        ++ [(((rest.getLastD first).1, out.1), out.2)] := by
  -- `first` moves along with the induction, the port compared with does not
  induction rest generalizing first with
  | nil => rfl
  | cons b rest ih =>
    have htail := ih (fun c hc => hport c (List.mem_cons_of_mem b hc)) b
    simp only [List.map_cons, List.cons_append, List.zip_cons_cons, List.getLastD_cons,
      hport b List.mem_cons_self] at htail ⊢
    rw [htail]

/-- The links saved are the route's hops. -/
theorem saveHops_eq (hin : rt.indev = E.serverIpToSwitchName p.1) (hport : OnePort rt.pass) :
    saveHops E p rt = rt.hops := by
  unfold saveHops Route.hops
  cases hpass : rt.pass with
  | nil => rfl
  | cons first rest =>
    rw [hpass] at hport
    have htail := middleHops_eq first.2 (rt.outdev, rt.outport) rest
      (fun b hb => hport b (List.mem_cons_of_mem first hb) first List.mem_cons_self) first
    simp only [List.map_cons, List.cons_append, List.zip_cons_cons] at htail ⊢
    rw [htail, hin]
    rfl

/-- The links erased are those saved, if the last two ports have one name. -/
theorem delHops_eq_saveHops (hpass : rt.pass ≠ []) (hlast : lastPort rt.pass = rt.outport)
    (selfOutdev : String) : delHops E p rt selfOutdev = saveHops E p rt := by
  unfold delHops saveHops
  cases h : rt.pass with
  | nil => exact absurd h hpass
  | cons first rest =>
    unfold lastPort at hlast
    rw [h, List.getLastD_cons] at hlast
    dsimp only
    rw [hlast]

/-- A route that visits no switch twice has one hop for each pair of switches. -/
theorem hops_nodup (h : (rt.indev :: rt.pass.map Prod.fst).Nodup) : (rt.hops.map Prod.fst).Nodup := by
  -- already the switches the hops start from are distinct
  have hfrom : (rt.hops.map Prod.fst).map Prod.fst = rt.indev :: rt.pass.map Prod.fst := by
    unfold Route.hops
    rw [List.map_map, List.map_map]
    exact List.map_fst_zip (by simp)
  rw [← hfrom] at h
  exact h.of_map Prod.fst

end Loops

/-! ## §3 — one pair -/

section Step

variable {R : Type} [DoubleOps R] {E : Env} {r r' : Router} {p : Flow}

/-- What the pair must satisfy before its step. Its source is on one of the controller's devices;
the path the search finds enters all passed switches by one port; and if a stored route departs from
it, that route passes a switch and enters the last two by one port. -/
def Bookable (E : Env) (rates : RateMap R) (fuel : Nat) (r : Router) (p : Flow) : Prop :=
  serverIdx E p.1 ≠ serverIdx E p.2 →
    E.serverIpToSwitchName p.1 ∈ E.nodes.map Device.deviceName ∧
      ∀ path ∈ findRoute E rates r.links fuel p, OnePort path.dropLast ∧
        ((r.routes p).seq ≠ -1 → ¬ (r.routes p).Follows path →
          (r.routes p).pass ≠ [] ∧ lastPort (r.routes p).pass = (r.routes p).outport)

instance (E : Env) (rates : RateMap R) (fuel : Nat) (r : Router) (p : Flow) :
    Decidable (Bookable E rates fuel r p) := by
  unfold Bookable
  infer_instance

/-- The shape of a route whose loops follow its hops. -/
structure Route.Straight (rt : Route) (E : Env) (p : Flow) : Prop where
  indev : rt.indev = E.serverIpToSwitchName p.1
  nodup : (rt.indev :: rt.pass.map Prod.fst).Nodup
  onePort : OnePort rt.pass

/-- The book together with the shape of all installed routes. -/
structure BookInv (E : Env) (r : Router) : Prop where
  booked : Booked r
  straight : ∀ p, (r.routes p).seq ≠ -1 → (r.routes p).Straight E p

/-- Following a found path from the source's switch. -/
theorem straight_follow {rt : Route} {path : List PathHop} {links : Links} (hE : NamesDistinct E)
    (hdev : E.serverIpToSwitchName p.1 ∈ E.nodes.map Device.deviceName)
    (hin : rt.indev = E.serverIpToSwitchName p.1) (hpath : FoundPath E links p path)
    (hport : OnePort path.dropLast) : (rt.follow E p path).Straight E p := by
  refine ⟨hin, ?_, hport⟩
  have hnodup := hpath.nodup hE
  rw [show E.switchIdxToName (serverIdx E p.1) = rt.indev by
    rw [hin]; exact Env.switchIdxToName_switchNameToIdx hdev] at hnodup
  -- the destination, at the end of the path, is not among the passed switches
  refine List.Nodup.sublist ?_ hnodup
  exact List.Sublist.cons_cons _ ((List.dropLast_sublist path).map Prod.fst)

/-- The hops once the pair's route is replaced by an installed one. -/
theorem hopsOf_installed {rt : Route} (hseq : rt.seq ≠ -1) (now : Int) :
    (installed E r p rt now).hopsOf = Function.update r.hopsOf p rt.hops := by
  funext q
  show (if (Function.update r.routes p { rt with tm := now } q).seq = -1 then []
    else (Function.update r.routes p { rt with tm := now } q).hops) = _
  by_cases hq : q = p
  · subst hq
    rw [Function.update_self, Function.update_self]
    exact if_neg hseq
  · rw [Function.update_of_ne hq, Function.update_of_ne hq]
    rfl

/-- Installing a straight route for a pair that is on no link. -/
theorem bookInv_installed {rt : Route} {hopsOf : Flow → List Hop} (now : Int)
    (hbooks : Books r.links hopsOf) (hupdate : Function.update r.hopsOf p rt.hops
      = Function.update hopsOf p rt.hops) (hnone : hopsOf p = [])
    (hstraight : ∀ q, q ≠ p → (r.routes q).seq ≠ -1 → (r.routes q).Straight E q)
    (hseq : rt.seq ≠ -1) (hrt : rt.Straight E p) : BookInv E (installed E r p rt now) where
  booked := by
    unfold Booked
    rw [hopsOf_installed hseq, hupdate]
    show Books (editHops (· ++ [p]) r.links (saveHops E p rt)) _
    rw [saveHops_eq hrt.indev hrt.onePort]
    exact books_append hbooks (hops_nodup hrt.nodup) hnone
  straight := (Function.forall_update_iff r.routes fun q rt => rt.seq ≠ -1 → rt.Straight E q).mpr
    ⟨fun _ => ⟨hrt.indev, hrt.nodup, hrt.onePort⟩, hstraight⟩

theorem bookInv_pairStep {rates : RateMap R} {fuel : Nat} {now : Int} (hE : NamesDistinct E)
    (hr : r.Wf E) (hagrees : AgreesInv r) (hI : BookInv E r) (hok : Bookable E rates fuel r p)
    (h : PairStep E rates fuel now r p r') : BookInv E r' := by
  cases h with
  | near _ => exact hI
  | keep path hne hfind hseq hfollows =>
    obtain ⟨-, hdel, hout⟩ := (hr.route p).resolve_left fun hfresh => hseq (by rw [hfresh])
    rw [follow_eq_self hdel hout (hagrees.outports p hseq) hfollows, setRoute_self]
    exact hI
  | fresh path inport hne hfind hfresh =>
    obtain ⟨hdev, hpath⟩ := hok hne
    have hcounter := hr.counter
    refine bookInv_installed (r := { r with seq := r.seq + 1 }) now hI.booked rfl ?_
      (fun q _ => hI.straight q) (by show r.seq ≠ -1; omega) ?_
    · unfold Router.hopsOf
      rw [hfresh]
      rfl
    · refine straight_follow hE hdev ?_ (findRoute_path hne hfind) (hpath path hfind).1
      exact Env.switchIdxToName_switchNameToIdx hdev
  | replace path hne hfind hseq hnot =>
    obtain ⟨hdev, hpath⟩ := hok hne
    obtain ⟨hport, hstored⟩ := hpath path hfind
    obtain ⟨hpass, hlast⟩ := hstored hseq hnot
    have hold := hI.straight p hseq
    -- the old route leaves exactly its own hops
    have herase : Books (retired E r p).links (Function.update r.hopsOf p []) := by
      show Books (editHops (erased E p) r.links (delHops E p (r.routes p) _)) _
      rw [delHops_eq_saveHops hpass hlast, saveHops_eq hold.indev hold.onePort]
      refine books_erase E hI.booked (hops_nodup hold.nodup) ?_
      unfold Router.hopsOf
      rw [if_neg hseq]
    refine bookInv_installed now herase ?_ (Function.update_self ..) (fun q _ => hI.straight q) hseq
      (straight_follow hE hdev hold.indev (findRoute_path hne hfind) hport)
    rw [Function.update_idem]
    rfl

end Step

/-! ## §4 — every run -/

section Runs

variable {R : Type} [DoubleOps R] {E : Env}

theorem books_getLinks (E : Env) : Books E.getLinks fun _ => [] := by
  have hempty : Env.AllLinks (fun l => l.flows = []) E.getLinks :=
    Env.allLinks_getLinks fun _ _ => ⟨rfl, rfl⟩
  intro p ab l hl
  rw [hempty ab l hl]
  rfl

/-- The invariants of a run whose pairs are bookable. -/
theorem bookInv_run (hE : NamesDistinct E)
    (hports : ∀ e ∈ E.linklist, e.port1 ≠ "" ∧ e.port2 ≠ "") {es : List Event} {s : State R}
    (hok : Run.Along (State.step E) (State.AlongPairs E (Bookable (R := R) E)) (State.init E) es)
    (hrun : es.foldlM (State.step E) (State.init E) = some s) : BookInv E s.router := by
  have hinit : AgreesInv (Router.init E) ∧ BookInv E (Router.init E) :=
    ⟨agreesInv_init hports, books_getLinks E, fun p hp => absurd rfl hp⟩
  have hI := router_invariant (I := fun r => AgreesInv r ∧ BookInv E r) ?_ (wf_init E) hinit hok hrun
  · exact hI.2.2
  · rintro rates fuel now r p r' hr ⟨hagrees, hI⟩ hok h
    exact ⟨agreesInv_pairStep hr hagrees h, bookInv_pairStep hE hr hagrees hI hok h⟩

/-- **Link book-keeping.** On a topology with distinct device names and named ports, in every run
whose pairs are bookable, every link names every pair exactly once if it is a hop of the pair's
installed route, and not at all otherwise. -/
theorem booked_of_bookable (hE : NamesDistinct E)
    (hports : ∀ e ∈ E.linklist, e.port1 ≠ "" ∧ e.port2 ≠ "") (es : List Event) (s : State R)
    (hok : Run.Along (State.step E) (State.AlongPairs E (Bookable (R := R) E)) (State.init E) es)
    (hrun : es.foldlM (State.step E) (State.init E) = some s) : Booked s.router :=
  (bookInv_run hE hports hok hrun).booked

/-- The two leaves joined over two spines; both switches of a path are entered by ports of one
name. -/
def leafSpine : Env where
  nodes := twoLeaves.nodes ++ [⟨"Spine1", "10.0.0.3"⟩, ⟨"Spine2", "10.0.0.4"⟩]
  linklist :=
    [⟨"Leaf1", "Eth1", "Spine1", "Eth1"⟩, ⟨"Leaf1", "Eth2", "Spine2", "Eth2"⟩,
      ⟨"Spine1", "Eth2", "Leaf2", "Eth1"⟩, ⟨"Spine2", "Eth1", "Leaf2", "Eth2"⟩]
  interfaces := twoLeaves.interfaces
  serverList := twoLeaves.serverList
  eraseEnd := eraseLast
  assignsRecycled := false

/-- Three first routes over the spines and the replacement of one of them. -/
def spineRun : List Event :=
  [threeFlows, .round 5 fun _ => 3000000000, .round 5 fun _ => 3000000000]

theorem booked_of_bookable_leafSpine :
    ∃ s : State ℚ, spineRun.foldlM (State.step leafSpine) (State.init leafSpine) = some s ∧
      s.router.log.length = 5 ∧ Booked s.router := by
  obtain ⟨s, hrun, hlog⟩ := Option.map_eq_some_iff.mp
    (show (spineRun.foldlM (State.step leafSpine) (State.init (R := ℚ) leafSpine)).map
      (fun s => s.router.log.length) = some 5 by decide +kernel)
  have hE : NamesDistinct leafSpine := by
    unfold NamesDistinct
    decide
  have hports : ∀ e ∈ leafSpine.linklist, e.port1 ≠ "" ∧ e.port2 ≠ "" := by decide
  have hok : Run.Along (State.step leafSpine) (State.AlongPairs leafSpine (Bookable leafSpine))
      (State.init (R := ℚ) leafSpine) spineRun := by decide +kernel
  exact ⟨s, hrun, hlog, booked_of_bookable hE hports spineRun s hok hrun⟩

/-- No switch has two ports of one name. -/
def PortsDistinct (E : Env) : Prop :=
  (E.linklist.flatMap fun e => [(e.deviceName1, e.port1), (e.deviceName2, e.port2)]).Nodup

/-- The first flow moves from link 1 to link 2, and link 1 goes on naming it. -/
theorem not_booked_twoLeaves :
    PortsDistinct twoLeaves ∧
      ∃ s : State ℚ, [threeFlows, oneRound, oneRound].foldlM (State.step twoLeaves)
          (State.init twoLeaves) = some s ∧
        s.router.hopsOf ("172.16.1.1", "172.16.5.1") = [(("Leaf1", "Leaf2"), "Eth2")] ∧
        (∃ l ∈ s.router.links ("Leaf1", "Leaf2"), l.port2 = "Eth1" ∧
          ("172.16.1.1", "172.16.5.1") ∈ l.flows) ∧ ¬ Booked s.router := by
  refine ⟨by unfold PortsDistinct; decide, ?_⟩
  obtain ⟨s, hrun, hfacts⟩ := Option.map_eq_some_iff.mp
    (show ([threeFlows, oneRound, oneRound].foldlM (State.step twoLeaves)
      (State.init (R := ℚ) twoLeaves)).map (fun s => (s.router.hopsOf ("172.16.1.1", "172.16.5.1"),
        decide (∃ l ∈ s.router.links ("Leaf1", "Leaf2"), l.port2 = "Eth1" ∧
          ("172.16.1.1", "172.16.5.1") ∈ l.flows)))
        = some ([(("Leaf1", "Leaf2"), "Eth2")], true) by decide +kernel)
  obtain ⟨hhops, hstale⟩ := Prod.mk.inj hfacts
  have hstale := of_decide_eq_true hstale
  refine ⟨s, hrun, hhops, hstale, fun hbooked => ?_⟩
  obtain ⟨l, hl, hport, hflow⟩ := hstale
  have hcount := hbooked ("172.16.1.1", "172.16.5.1") ("Leaf1", "Leaf2") l hl
  rw [hhops, hport, if_neg (by decide)] at hcount
  exact absurd hflow (List.count_eq_zero.mp hcount)

end Runs

end SDNware.Server
