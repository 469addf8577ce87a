/-
# SDNware.Server.Forwarding — every route sent to the controller can be followed.

A `save` request tells the controller the devices of a route: where it enters the fabric, the switches
it passes with the port each is entered by, and the switch it leaves from.  The search works on
`links`, which the book-keeping of flows rewrites all the time; the ports it reads there end up in the
requests.

`saves_forward`: in every run on records of registered servers, each request ever sent starts at the
source's switch with the source's own port, follows cables of the controller's topology from switch to
switch, entering each by the port the cable has there, passes no switch twice, and ends at the
destination's switch.  It holds with all the faults of the book-keeping, since those touch `flows` only
(`cables_editHops`).  For an ip nobody has registered the lookups fall back to the first switch
(`SDNware.Server.Registered`), so the sources of the records have to be registered here too.
-/
import Mathlib.Data.List.Chain
import SDNware.Server.Registered

namespace SDNware.Server

/-! ## §1 — cables -/

/-- A cable of the topology from one switch to another, entering the second by `port`. -/
def Cabled (E : Env) (src dst port : String) : Prop :=
  ∃ e ∈ E.linklist, e.deviceName1 = src ∧ e.deviceName2 = dst ∧ e.port2 = port ∨
    e.deviceName2 = src ∧ e.deviceName1 = dst ∧ e.port1 = port

/-- The ports of the links between two switches. -/
def cables (links : Links) (ab : String × String) : List (String × String) :=
  (links ab).map fun l => (l.port1, l.port2)

/-- Recording flows changes no cable. -/
theorem cables_editHops (op : List Flow → List Flow) (hops : List Hop) (links : Links) :
    cables (editHops op links hops) = cables links := by
  induction hops generalizing links with
  | nil => rfl
  | cons hop hops ih =>
    show cables (editHops op (editHop op links hop) hops) = _
    rw [ih]
    funext ab
    unfold cables editHop
    by_cases hab : ab = hop.1
    · rw [hab, Function.update_self, List.map_map]
      refine List.map_congr_left fun l _ => ?_
      dsimp only [Function.comp_apply]
      split <;> rfl
    · rw [Function.update_of_ne hab]

/-- The links of the table are cables of the topology. -/
def WithinTopology (E : Env) (links : Links) : Prop :=
  ∀ ab, ∀ ports ∈ cables links ab, Cabled E ab.1 ab.2 ports.2

theorem withinTopology_pushLink {E : Env} {links : Links} {ab : String × String} {l : Link}
    (h : WithinTopology E links) (hl : Cabled E ab.1 ab.2 l.port2) :
    WithinTopology E (Env.pushLink links ab l) := by
  intro cd ports hports
  unfold cables Env.pushLink at hports
  by_cases hcd : cd = ab
  · rw [hcd, Function.update_self, List.map_append] at hports
    rw [hcd]
    rcases List.mem_append.mp hports with hold | hnew
    · exact h ab ports hold
    · rw [List.mem_singleton.mp hnew]
      exact hl
  · rw [Function.update_of_ne hcd] at hports
    exact h cd ports hports

theorem withinTopology_getLinks (E : Env) : WithinTopology E E.getLinks := by
  have hfold : ∀ (es : List LinkEntry) (links : Links), WithinTopology E links →
      (∀ e ∈ es, e ∈ E.linklist) → WithinTopology E (es.foldl Env.addLink links) := by
    intro es
    induction es with
    | nil => exact fun links hlinks _ => hlinks
    | cons e es ih =>
      intro links hlinks hes
      have he := hes e List.mem_cons_self
      apply ih
      · -- both directions of the new cable
        apply withinTopology_pushLink
        · apply withinTopology_pushLink hlinks
          exact ⟨e, he, Or.inl ⟨rfl, rfl, rfl⟩⟩
        · exact ⟨e, he, Or.inr ⟨rfl, rfl, rfl⟩⟩
      · exact fun e' he' => hes e' (List.mem_cons_of_mem e he')
  apply hfold E.linklist
  · exact fun _ _ hports => absurd hports (by simp [cables])
  · exact fun e he => he

/-! ## §2 — the path of the search -/

section Search

variable {R : Type} [DoubleOps R] {E : Env} {rates : RateMap R} {links : Links}

/-- From one device of a route to the next. -/
def Next (E : Env) (a b : String × String) : Prop := Cabled E a.1 b.1 b.2

/-- The reconstruction puts a cabled device in front at every step. -/
theorem walkBack_chain (hlinks : WithinTopology E links) {pre : Nat → Nat × Nat} {s : Nat}
    (port : String) : ∀ {fuel sw : Nat} {path path' : List PathHop},
      walkBack E links pre s fuel sw path = some path' →
      ((E.switchIdxToName sw, port) :: path).IsChain (Next E) →
        ((E.switchIdxToName s, port) :: path').IsChain (Next E)
  | 0, _, _, _, h, _ => absurd h (by simp [walkBack])
  | fuel + 1, sw, path, path', h, hchain => by
      unfold walkBack at h
      split at h
      · rename_i heq
        obtain rfl := Option.some.inj h
        rwa [heq] at hchain
      · cases hlink : (links (E.switchIdxToName (pre sw).1, E.switchIdxToName sw))[(pre sw).2]? with
        | none =>
          rw [hlink] at h
          exact absurd h (by simp)
        | some link =>
          rw [hlink] at h
          apply walkBack_chain hlinks port h
          rw [List.isChain_cons_cons]
          constructor
          · exact hlinks _ (link.port1, link.port2)
              (List.mem_map.mpr ⟨link, List.mem_of_getElem? hlink, rfl⟩)
          · -- the rest of the chain looks at the name of its first device only
            cases path with
            | nil => exact List.isChain_singleton _
            | cons hop path =>
              rw [List.isChain_cons_cons] at hchain ⊢
              exact hchain

theorem findRoute_chain (hlinks : WithinTopology E links) {fuel : Nat} {p : Flow}
    {path : List PathHop} (port : String) (h : findRoute E rates links fuel p = some path) :
    ((E.switchIdxToName (serverIdx E p.1), port) :: path).IsChain (Next E) := by
  unfold findRoute at h
  obtain ⟨pre, -, hwalk⟩ := Option.bind_eq_some_iff.mp h
  exact walkBack_chain hlinks port hwalk (List.isChain_singleton _)

end Search

/-! ## §3 — the requests -/

/-- The devices of a route in their order. -/
def FlowPath.devices (path : FlowPath) : List (String × String) :=
  path.inDevice :: (path.passDeviceList ++ [path.outDevice])

/-- The device and the port by which a server's traffic enters the fabric: the switch whose section
lists the server, and the name the switch has for the port of that line. -/
def EntersAt (E : Env) (ip : String) (device : String × String) : Prop :=
  E.serverIpToSwitchName ip = device.1 ∧ ∃ server ∈ E.lastListing device.1, server.ip = ip ∧
    E.idxToIfname (E.switchNameToIp device.1) server.port = some device.2

/-- A request that can be followed from its source to its destination. -/
structure FlowPath.Forwards (E : Env) (path : FlowPath) : Prop where
  /-- Every device but the first is entered by a cable from the one before. -/
  cabled : path.devices.IsChain (Next E)
  /-- No switch is passed twice. -/
  simple : (path.devices.map Prod.fst).Nodup
  /-- It leads from the source's switch and port to the destination's switch. -/
  ends : ∀ rule ∈ path.rules, EntersAt E rule.srcIp path.inDevice ∧
    AttachedTo E rule.dstIp path.outDevice.1

/-- `server_list.txt` lists no server twice either. -/
structure ListedOnce (E : Env) : Prop extends WellListed E where
  ips : (E.listedServers.map Prod.fst).Nodup

/-- Then the port `server_ip_to_if` finds is the one of the server's line on its own switch. -/
theorem ListedOnce.serverIpToIf {E : Env} (hE : ListedOnce E) {ip port : String}
    (hip : E.checkIp ip = true) (h : E.serverIpToIf ip = some port) :
    ∃ server ∈ E.lastListing (E.serverIpToSwitchName ip), server.ip = ip ∧ server.port = port := by
  obtain ⟨server, hfind, hport⟩ := Option.map_eq_some_iff.mp h
  have hserver : server.ip = ip := by simpa using List.find?_some hfind
  obtain ⟨sw, hsw, hmem⟩ := List.mem_flatMap.mp (List.mem_of_find?_eq_some hfind)
  obtain ⟨name, -, rfl⟩ := List.mem_map.mp hsw
  obtain ⟨listing, hlisting, rfl, hmem'⟩ := Env.mem_of_lastListing hmem
  -- the line found here and the one `server_ip_to_switch_name` was built from are the same
  obtain ⟨own, hown, hsame, server', hserver', hip'⟩ := Env.serverIpToSwitchName_mem hip
  have hline : (ip, listing.1) ∈ E.listedServers := List.mem_flatMap.mpr
    ⟨listing, hlisting, List.mem_map.mpr ⟨server, hmem', by rw [hserver]⟩⟩
  have hline' : (ip, own.1) ∈ E.listedServers := List.mem_flatMap.mpr
    ⟨own, hown, List.mem_map.mpr ⟨server', hserver', by rw [hip']⟩⟩
  have heq : (ip, own.1) = (ip, listing.1) := List.inj_on_of_nodup_map hE.ips hline' hline rfl
  refine ⟨server, ?_, hserver, hport⟩
  rw [hsame, (Prod.mk.inj heq).2]
  exact hmem

section Requests

variable {R : Type} [DoubleOps R] {E : Env} {rates : RateMap R} {p : Flow}

/-- A first route enters at its source's switch and port. -/
theorem entersAt_of_lookups (hE : ListedOnce E) {ip inport : String} (hip : E.checkIp ip = true)
    (h : (E.serverIpToIf ip).bind (E.idxToIfname (E.switchIdxToIp (serverIdx E ip))) = some inport) :
    EntersAt E ip (E.switchIdxToName (serverIdx E ip), inport) := by
  obtain ⟨port, hport, hname⟩ := Option.bind_eq_some_iff.mp h
  obtain ⟨server, hserver, hsame, rfl⟩ := hE.serverIpToIf hip hport
  unfold EntersAt
  rw [name_serverIdx hE.toWellListed hip]
  exact ⟨rfl, server, hserver, hsame, hname⟩

/-- The request for a route along a path the search has found. -/
theorem flowPath_forwards (hE : NamesDistinct E) (hlisted : WellListed E) {links : Links}
    (hlinks : WithinTopology E links) {fuel : Nat} {path : List PathHop}
    (hp : E.checkIp p.1 = true ∧ E.checkIp p.2 = true)
    (hne : serverIdx E p.1 ≠ serverIdx E p.2)
    (hfind : findRoute E rates links fuel p = some path) {rt : Route}
    (hin : EntersAt E p.1 (rt.indev, rt.inport)) :
    (flowPath p (rt.follow E p path)).Forwards E := by
  have hfound := findRoute_path hne hfind
  -- the last entry of the path is the device the route leaves from
  have hdevices : (flowPath p (rt.follow E p path)).devices = (rt.indev, rt.inport) :: path := by
    obtain ⟨pass, port, rfl⟩ := hfound.last
    simp [FlowPath.devices, flowPath, Route.follow, lastPort, outName]
  have hname : rt.indev = E.switchIdxToName (serverIdx E p.1) := by
    rw [name_serverIdx hlisted hp.1]
    exact hin.1.symm
  constructor
  · rw [hdevices, hname]
    exact findRoute_chain hlinks rt.inport hfind
  · rw [hdevices, List.map_cons, hname]
    exact hfound.nodup hE
  · intro rule hrule
    rw [List.mem_singleton.mp hrule]
    refine ⟨hin, ?_⟩
    show AttachedTo E p.2 (outName E p)
    unfold outName
    rw [name_serverIdx hlisted hp.2]
    exact attachedTo_of_checkIp hlisted hp.2

/-- What the runs preserve. -/
structure ForwardInv (E : Env) (r : Router) : Prop where
  wf : r.Wf E
  topology : WithinTopology E r.links
  entered : ∀ p, (r.routes p).seq ≠ -1 → EntersAt E p.1 ((r.routes p).indev, (r.routes p).inport)
  saves : ∀ path, .save path ∈ r.log → path.Forwards E

theorem withinTopology_editHops {links : Links} (h : WithinTopology E links)
    (op : List Flow → List Flow) (hops : List Hop) : WithinTopology E (editHops op links hops) := by
  unfold WithinTopology
  rw [cables_editHops]
  exact h

/-- Installing a route whose request can be followed. -/
theorem forwardInv_installed {r : Router} {rt : Route} {now : Int} (hI : ForwardInv E r)
    (hwf : (installed E r p rt now).Wf E) (hin : EntersAt E p.1 (rt.indev, rt.inport))
    (hpath : (flowPath p rt).Forwards E) : ForwardInv E (installed E r p rt now) where
  wf := hwf
  topology := withinTopology_editHops hI.topology _ _
  entered := (Function.forall_update_iff r.routes fun q rt =>
    rt.seq ≠ -1 → EntersAt E q.1 (rt.indev, rt.inport)).mpr ⟨fun _ => hin, fun q _ => hI.entered q⟩
  saves := by
    intro path hmem
    rcases List.mem_append.mp hmem with hmem | hmem
    · exact hI.saves path hmem
    · rw [Request.save.inj (List.mem_singleton.mp hmem)]
      exact hpath

theorem forwardInv_pairStep (hE : NamesDistinct E) (hlisted : ListedOnce E) {fuel : Nat}
    {clock : Flow → Int} {r r' : Router} (hI : ForwardInv E r)
    (hp : E.checkIp p.1 = true ∧ E.checkIp p.2 = true) (h : pairStep E rates fuel clock r p = some r') : ForwardInv E r' := by
  have hcases := pairStep_cases hI.wf h
  have hwf := wf_pairStep hI.wf hcases
  cases hcases with
  | near _ => exact hI
  | keep path hne hfind hseq hfollows =>
    refine ⟨hwf, hI.topology, ?_, hI.saves⟩
    exact (Function.forall_update_iff r.routes fun q rt =>
      rt.seq ≠ -1 → EntersAt E q.1 (rt.indev, rt.inport)).mpr
        ⟨fun _ => hI.entered p hseq, fun q _ => hI.entered q⟩
  | fresh path inport hne hfind hfresh =>
    -- the step itself says where the ingress port comes from
    rw [pairStep_fresh clock hI.wf hne hfind hfresh] at h
    obtain ⟨inport', hport, heq⟩ := Option.map_eq_some_iff.mp h
    rw [← heq] at hwf ⊢
    have hin := entersAt_of_lookups hlisted hp.1 hport
    apply forwardInv_installed _ hwf hin
    · exact flowPath_forwards hE hlisted.toWellListed hI.topology hp hne hfind hin
    · have hcounter := hI.wf.counter
      exact ⟨⟨hI.wf.route, hI.wf.list, by show 1 ≤ r.seq + 1; omega⟩, hI.topology, hI.entered, hI.saves⟩
  | replace path hne hfind hseq hnot =>
    have hin := hI.entered p hseq
    apply forwardInv_installed _ hwf hin
    · exact flowPath_forwards hE hlisted.toWellListed hI.topology hp hne hfind hin
    · refine ⟨⟨hI.wf.route, hI.wf.list, hI.wf.counter⟩, withinTopology_editHops hI.topology _ _,
        hI.entered, fun saved hmem => ?_⟩
      rcases List.mem_append.mp hmem with hmem | hmem
      · exact hI.saves saved hmem
      · exact absurd (List.mem_singleton.mp hmem) (by simp)

end Requests

/-! ## §4 — every run -/

section Runs

variable {R : Type} [DoubleOps R] {E : Env}

theorem forwardInv_init (E : Env) : ForwardInv E (Router.init E) where
  wf := wf_init E
  topology := withinTopology_getLinks E
  entered _ hp := absurd rfl hp
  saves _ hmem := absurd hmem (by simp [Router.init])

theorem forwardInv_step (hE : NamesDistinct E) (hlisted : ListedOnce E) (s : State R) (e : Event)
    (s' : State R) (hI : KeysRegistered E s.collector ∧ ForwardInv E s.router)
    (he : SourcesRegistered E e) (h : s.step E e = some s') :
    KeysRegistered E s'.collector ∧ ForwardInv E s'.router := by
  obtain ⟨hkeys, hrouter⟩ := hI
  cases e with
  | batch samples =>
    obtain rfl := Option.some.inj h
    exact ⟨keysRegistered_addSendRec hkeys he, hrouter⟩
  | round fuel clock =>
    obtain ⟨r', hround, rfl⟩ := Option.map_eq_some_iff.mp h
    refine ⟨hkeys, ?_⟩
    exact Run.invariant (fun _ _ _ hr hp h => forwardInv_pairStep hE hlisted hr hp h) _ hrouter
      (pairs_registered hkeys fuel clock s.router) hround

/-- **Every request can be followed.** On a topology with distinct device names, with a
`server_list.txt` that lists every switch and every server once, on the controller's devices, and with
registered sources in the records, whatever the batches and rounds and however wrong the book-keeping
of the flows: every `save` request ever sent leads from the switch and port of its source to the switch
of its destination, from switch to switch over cables of the topology, entering each by the cable's
port there, and passes no switch twice. -/
theorem saves_forward (hE : NamesDistinct E) (hlisted : ListedOnce E) (es : List Event)
    (hes : ∀ e ∈ es, SourcesRegistered E e) (s : State R)
    (hrun : es.foldlM (State.step E) (State.init E) = some s) :
    ∀ path, .save path ∈ s.router.log → path.Forwards E := by
  have hI := Run.invariant (forwardInv_step (R := R) hE hlisted) es
    ⟨keysRegistered_init E, forwardInv_init E⟩ (Run.along_of_mem (fun e he _ => hes e he) _) hrun
  exact hI.2.saves

/-- Three routes and the replacement of one. -/
theorem saves_forward_twoLeaves :
    ∃ s : State ℚ, [threeFlows, oneRound, oneRound].foldlM (State.step twoLeaves)
        (State.init twoLeaves) = some s ∧ s.router.log.length = 5 ∧
      ∀ path, .save path ∈ s.router.log → path.Forwards twoLeaves := by
  obtain ⟨s, hrun, hlog⟩ := Option.map_eq_some_iff.mp
    (show ([threeFlows, oneRound, oneRound].foldlM (State.step twoLeaves)
      (State.init (R := ℚ) twoLeaves)).map (fun s => s.router.log.length) = some 5 by decide +kernel)
  have hE : NamesDistinct twoLeaves := by
    unfold NamesDistinct
    decide
  have hes : ∀ e ∈ [threeFlows, oneRound, oneRound], SourcesRegistered twoLeaves e := by
    simp [sourcesRegistered_threeFlows, sourcesRegistered_oneRound]
  exact ⟨s, hrun, hlog, saves_forward hE ⟨wellListed_twoLeaves, by decide⟩ _ hes s hrun⟩

end Runs

end SDNware.Server
