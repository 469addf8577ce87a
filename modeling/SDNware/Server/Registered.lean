/-
# SDNware.Server.Registered — which ips get into the rates and the routes.

`add_send_rec` checks the destination of a record against `server_list.txt`, never its source.  A
record carries the source ip its client filled in, the empty string for a device the client does not
know, so the rates can name a server nobody is attached to; `get_route` then runs the lookups of
`SDNware.Server.Topology` on it and takes their fallbacks.

`attached_of_registered`: if every record that can be counted has a registered source, and
`server_list.txt` lists every switch once and only the controller's devices, then in every state of
every run all active pairs are registered, their lookups find their keys, and installed routes start
and end at the switches of their servers.
-/
import SDNware.Server.PairStep

namespace SDNware.Server

open SDNware.Wire

/-! ## §1 — what is to hold -/

/-- `sw` is the switch of the server `ip`, for both tables built from `server_list.txt`. -/
def AttachedTo (E : Env) (ip sw : String) : Prop :=
  E.serverIpToSwitchName ip = sw ∧ ∃ server ∈ E.lastListing sw, server.ip = ip

/-- The lookups of `get_route` find the ip: a line of its own, a device of the controller for its
switch, and a port. -/
structure LookupsFind (E : Env) (ip : String) : Prop where
  line : ∃ sw, (ip, sw) ∈ E.listedServers
  device : E.serverIpToSwitchName ip ∈ E.nodes.map Device.deviceName
  port : (E.serverIpToIf ip).isSome

/-- Only registered servers are routed. -/
structure OnlyRegistered {R : Type} [DoubleOps R] (E : Env) (s : State R) : Prop where
  rates : ∀ p ∈ activePairs s.collector.txRates, E.checkIp p.1 = true ∧ E.checkIp p.2 = true
  lookups : ∀ p ∈ activePairs s.collector.txRates, LookupsFind E p.1 ∧ LookupsFind E p.2
  routes : ∀ p, (s.router.routes p).seq ≠ -1 →
    AttachedTo E p.1 (s.router.routes p).indev ∧ AttachedTo E p.2 (s.router.routes p).outdev

/-- `server_list.txt` lists no switch twice, and servers only on the controller's devices. -/
structure WellListed (E : Env) : Prop where
  once : (E.serverList.map Prod.fst).Nodup
  devices : ∀ listing ∈ E.serverList, listing.2 ≠ [] →
    listing.1 ∈ E.nodes.map Device.deviceName

/-- Every record of a batch that can be counted, being before the first empty destination, to a
registered destination and above 4096 bytes in some direction, has a registered source. -/
def SourcesRegistered (E : Env) : Event → Prop
  | .batch samples => ∀ a ∈ samples.takeWhile fun a => cStr a.amount.gid ≠ "",
      E.checkIp (cStr a.amount.gid) = true → (a.amount.tx > 4096 ∨ a.amount.rx > 4096) →
        E.checkIp (cStr a.amount.ip) = true
  | .round _ _ => True

/-! ## §2 — lookups of registered ips -/

section Lookups

variable {E : Env} {ip : String}

/-- A switch listed once has that list. -/
theorem lastListing_eq (hE : WellListed E) {listing : String × List ServerEntry}
    (h : listing ∈ E.serverList) : E.lastListing listing.1 = listing.2 := by
  unfold Env.lastListing
  cases hfind : E.serverList.reverse.find? fun other => other.1 = listing.1 with
  | none =>
    have hnot := List.find?_eq_none.mp hfind listing (List.mem_reverse.mpr h)
    exact absurd (decide_eq_true rfl) hnot
  | some other =>
    have hother := List.mem_reverse.mp (List.mem_of_find?_eq_some hfind)
    have hname : other.1 = listing.1 := by simpa using List.find?_some hfind
    obtain rfl : other = listing := List.inj_on_of_nodup_map hE.once hother h hname
    rfl

theorem attachedTo_of_checkIp (hE : WellListed E) (h : E.checkIp ip = true) :
    AttachedTo E ip (E.serverIpToSwitchName ip) := by
  obtain ⟨listing, hlisting, hsw, server, hserver, hip⟩ := Env.serverIpToSwitchName_mem h
  refine ⟨rfl, server, ?_, hip⟩
  rw [hsw, lastListing_eq hE hlisting]
  exact hserver

theorem device_of_checkIp (hE : WellListed E) (h : E.checkIp ip = true) :
    E.serverIpToSwitchName ip ∈ E.nodes.map Device.deviceName := by
  obtain ⟨listing, hlisting, hsw, server, hserver, -⟩ := Env.serverIpToSwitchName_mem h
  rw [hsw]
  exact hE.devices listing hlisting (List.ne_nil_of_mem hserver)

theorem lookupsFind_of_checkIp (hE : WellListed E) (h : E.checkIp ip = true) : LookupsFind E ip where
  line := by
    obtain ⟨listing, hlisting, -, server, hserver, rfl⟩ := Env.serverIpToSwitchName_mem h
    exact ⟨listing.1, List.mem_flatMap.mpr ⟨listing, hlisting, List.mem_map.mpr ⟨server, hserver, rfl⟩⟩⟩
  device := device_of_checkIp hE h
  port := Env.serverIpToIf_isSome h

/-- The name read back from a registered server's switch index. -/
theorem name_serverIdx (hE : WellListed E) (h : E.checkIp ip = true) :
    E.switchIdxToName (serverIdx E ip) = E.serverIpToSwitchName ip :=
  Env.switchIdxToName_switchNameToIdx (device_of_checkIp hE h)

end Lookups

/-! ## §3 — the rates -/

section Rates

variable {R : Type} [DoubleOps R] {E : Env}

/-- Every assigned key is a pair of registered ips. -/
def KeysRegistered (E : Env) (c : Collector R) : Prop :=
  ∀ p : Flow, toLex p ∈ c.txRates.keys → E.checkIp p.1 = true ∧ E.checkIp p.2 = true

/-- A block assigns its own key, and only above 4096 bytes. -/
theorem keysRegistered_rateBlock {speedOf : UInt64 → Int → R} {c c' : Collector R} {p : Flow}
    {bytes tm : UInt64} {now : Int} (hc : KeysRegistered E c)
    (hp : bytes > 4096 → E.checkIp p.1 = true ∧ E.checkIp p.2 = true)
    (h : rateBlock speedOf c p bytes tm now = some c') : KeysRegistered E c' := by
  unfold rateBlock at h
  dsimp only at h
  split at h
  · rename_i hbytes
    split at h
    · exact absurd h (by simp)
    · obtain rfl := Option.some.inj h
      intro q hq
      rcases RateMap.mem_insertKey.mp hq with hqp | hq
      · obtain rfl : q = p := toLex.injective hqp
        exact hp hbytes
      · exact hc q hq
  · obtain rfl := Option.some.inj h
    exact hc

theorem keysRegistered_recordSample {c : Collector R} {a : Sample} (hc : KeysRegistered E c)
    (ha : E.checkIp (cStr a.amount.gid) = true → (a.amount.tx > 4096 ∨ a.amount.rx > 4096) →
      E.checkIp (cStr a.amount.ip) = true) : KeysRegistered E (recordSample E c a) := by
  unfold recordSample
  dsimp only
  split
  · rename_i hgid
    cases htx : rateBlock txSpeed c (cStr a.amount.ip, cStr a.amount.gid) a.amount.tx a.amount.tm
        a.nowTx with
    | none => exact hc
    | some c₁ =>
      -- the second block runs on the state the first one left
      have hc₁ : KeysRegistered E c₁ :=
        keysRegistered_rateBlock hc (fun h => ⟨ha hgid (Or.inl h), hgid⟩) htx
      dsimp only
      cases hrx : rateBlock rxSpeed c₁ (cStr a.amount.gid, cStr a.amount.ip) a.amount.rx a.amount.tm
          a.nowRx with
      | none => exact hc₁
      | some c₂ => exact keysRegistered_rateBlock hc₁ (fun h => ⟨hgid, ha hgid (Or.inr h)⟩) hrx
  · exact hc

theorem keysRegistered_addSendRec {samples : List Sample} {c : Collector R}
    (hc : KeysRegistered E c) (h : SourcesRegistered E (.batch samples)) :
    KeysRegistered E (addSendRec E c samples) := by
  induction samples generalizing c with
  | nil => exact hc
  | cons a samples ih =>
    unfold addSendRec
    split
    · exact hc
    · rename_i hgid
      -- the loop goes on exactly where `takeWhile` does
      have htake : (a :: samples).takeWhile (fun a => decide (cStr a.amount.gid ≠ ""))
          = a :: samples.takeWhile fun a => decide (cStr a.amount.gid ≠ "") :=
        List.takeWhile_cons_of_pos (by simpa using hgid)
      simp only [SourcesRegistered, htake] at h
      apply ih
      · exact keysRegistered_recordSample hc (h a List.mem_cons_self)
      · exact fun b hb => h b (List.mem_cons_of_mem a hb)

theorem keysRegistered_init (E : Env) : KeysRegistered E (State.init (R := R) E).collector :=
  fun _ hp => absurd hp (by simp [State.init, Collector.init, RateMap.empty])

theorem mem_keys_of_active {rates : RateMap R} {p : Flow} (h : p ∈ activePairs rates) :
    toLex p ∈ rates.keys := by
  obtain ⟨q, hq, rfl⟩ := List.mem_map.mp (List.mem_of_mem_filter h)
  exact hq

/-- The rates do not change during a round, so its pairs are registered whatever the router does. -/
theorem pairs_registered {c : Collector R} (hc : KeysRegistered E c) (fuel : Nat)
    (clock : Flow → Int) (r : Router) :
    Run.Along (pairStep E c.txRates fuel clock)
      (fun _ p => E.checkIp p.1 = true ∧ E.checkIp p.2 = true) r (activePairs c.txRates) :=
  Run.along_of_mem (fun p hp _ => hc p (mem_keys_of_active hp)) r

end Rates

/-! ## §4 — the routes -/

section Routes

variable {R : Type} [DoubleOps R] {E : Env} {r r' : Router} {p : Flow}

/-- Installed routes start and end at their servers' switches. -/
def RoutesAttached (E : Env) (r : Router) : Prop :=
  ∀ p, (r.routes p).seq ≠ -1 →
    AttachedTo E p.1 (r.routes p).indev ∧ AttachedTo E p.2 (r.routes p).outdev

theorem routesAttached_pairStep {rates : RateMap R} {fuel : Nat} {now : Int} (hE : WellListed E)
    (hI : RoutesAttached E r) (hp : E.checkIp p.1 = true ∧ E.checkIp p.2 = true)
    (h : PairStep E rates fuel now r p r') : RoutesAttached E r' := by
  have hout : AttachedTo E p.2 (outName E p) := by
    unfold outName
    rw [name_serverIdx hE hp.2]
    exact attachedTo_of_checkIp hE hp.2
  -- all outcomes assign one route: its `indev` must be right, its `outdev` is `outName`
  have hupdate : ∀ rt : Route, AttachedTo E p.1 rt.indev → rt.outdev = outName E p →
      ∀ q, (Function.update r.routes p rt q).seq ≠ -1 →
        AttachedTo E q.1 (Function.update r.routes p rt q).indev ∧
          AttachedTo E q.2 (Function.update r.routes p rt q).outdev := by
    intro rt hin hrt
    refine (Function.forall_update_iff r.routes fun q rt =>
      rt.seq ≠ -1 → AttachedTo E q.1 rt.indev ∧ AttachedTo E q.2 rt.outdev).mpr ⟨fun _ => ?_, ?_⟩
    · rw [hrt]
      exact ⟨hin, hout⟩
    · exact fun q _ => hI q
  cases h with
  | near _ => exact hI
  | keep path hne hfind hseq hfollows => exact hupdate _ (hI p hseq).1 rfl
  | fresh path inport hne hfind hfresh =>
    refine hupdate _ ?_ rfl
    show AttachedTo E p.1 (E.switchIdxToName (serverIdx E p.1))
    rw [name_serverIdx hE hp.1]
    exact attachedTo_of_checkIp hE hp.1
  | replace path hne hfind hseq hnot => exact hupdate _ (hI p hseq).1 rfl

/-- What the runs preserve. -/
structure RegisteredInv (E : Env) (s : State R) : Prop where
  wf : s.router.Wf E
  keys : KeysRegistered E s.collector
  attached : RoutesAttached E s.router

theorem registeredInv_step (hE : WellListed E) (s : State R) (e : Event) (s' : State R)
    (hI : RegisteredInv E s) (he : SourcesRegistered E e) (h : s.step E e = some s') :
    RegisteredInv E s' := by
  cases e with
  | batch samples =>
    obtain rfl := Option.some.inj h
    exact ⟨hI.wf, keysRegistered_addSendRec hI.keys he, hI.attached⟩
  | round fuel clock =>
    obtain ⟨r', hround, rfl⟩ := Option.map_eq_some_iff.mp h
    have hrouter : r'.Wf E ∧ RoutesAttached E r' := by
      refine Run.invariant (I := fun r => r.Wf E ∧ RoutesAttached E r) ?_ _ ⟨hI.wf, hI.attached⟩
        (pairs_registered hI.keys fuel clock s.router) hround
      rintro r p r' ⟨hwf, hr⟩ hp h
      have hcases := pairStep_cases hwf h
      exact ⟨wf_pairStep hwf hcases, routesAttached_pairStep hE hr hp hcases⟩
    exact ⟨hrouter.1, hI.keys, hrouter.2⟩

/-- **Only registered servers are routed**, provided the sources of the records are registered and
`server_list.txt` fits the controller's devices: after every run of batches and rounds the active
pairs are registered, their lookups find their keys, and every installed route leads from the switch
of its source to the switch of its destination. -/
theorem attached_of_registered (hE : WellListed E) (es : List Event)
    (hes : ∀ e ∈ es, SourcesRegistered E e) (s : State R)
    (hrun : es.foldlM (State.step E) (State.init E) = some s) : OnlyRegistered E s := by
  have hinit : RegisteredInv E (State.init (R := R) E) :=
    ⟨wf_init E, keysRegistered_init E, fun p hp => absurd rfl hp⟩
  have hI := Run.invariant (registeredInv_step hE) es hinit
    (Run.along_of_mem (fun e he _ => hes e he) _) hrun
  refine ⟨fun p hp => hI.keys p (mem_keys_of_active hp), fun p hp => ?_, hI.attached⟩
  obtain ⟨h1, h2⟩ := hI.keys p (mem_keys_of_active hp)
  exact ⟨lookupsFind_of_checkIp hE h1, lookupsFind_of_checkIp hE h2⟩

theorem wellListed_twoLeaves : WellListed twoLeaves := ⟨by decide, by decide⟩

theorem sourcesRegistered_threeFlows : SourcesRegistered twoLeaves threeFlows := by
  unfold threeFlows SourcesRegistered
  decide +kernel

theorem sourcesRegistered_oneRound : SourcesRegistered twoLeaves oneRound := trivial

theorem attached_of_registered_twoLeaves :
    ∃ s : State ℚ, [threeFlows, oneRound].foldlM (State.step twoLeaves) (State.init twoLeaves)
        = some s ∧ (activePairs s.collector.txRates).length = 3 ∧ OnlyRegistered twoLeaves s := by
  obtain ⟨s, hrun, hpairs⟩ := Option.map_eq_some_iff.mp
    (show ([threeFlows, oneRound].foldlM (State.step twoLeaves) (State.init (R := ℚ) twoLeaves)).map
      (fun s => (activePairs s.collector.txRates).length) = some 3 by decide +kernel)
  have hes : ∀ e ∈ [threeFlows, oneRound], SourcesRegistered twoLeaves e := by
    simp [sourcesRegistered_threeFlows, sourcesRegistered_oneRound]
  exact ⟨s, hrun, hpairs, attached_of_registered wellListed_twoLeaves _ hes s hrun⟩

/-- A record whose client did not know the device: its source is the empty string. -/
def namelessSource : Event := .batch [sampleFrom "" 5000]

/-- The empty source becomes an active pair, no lookup knows it, and the round on it does not
return: `server_ip_to_if` falls off its end. -/
theorem not_onlyRegistered_namelessSource :
    ∃ s : State ℚ, [namelessSource].foldlM (State.step twoLeaves) (State.init twoLeaves) = some s ∧
      ("", "172.16.5.1") ∈ activePairs s.collector.txRates ∧ ¬ OnlyRegistered twoLeaves s ∧
      ([namelessSource, oneRound].foldlM (State.step twoLeaves)
        (State.init (R := ℚ) twoLeaves)).isNone := by
  obtain ⟨s, hrun, hpairs⟩ := Option.map_eq_some_iff.mp
    (show ([namelessSource].foldlM (State.step twoLeaves) (State.init (R := ℚ) twoLeaves)).map
      (fun s => activePairs s.collector.txRates) = some [("", "172.16.5.1")] by decide +kernel)
  have hmem : ("", "172.16.5.1") ∈ activePairs s.collector.txRates := by
    rw [hpairs]
    exact List.mem_singleton_self _
  refine ⟨s, hrun, hmem, fun h => ?_, by decide +kernel⟩
  exact absurd (h.rates _ hmem).1 (by decide)

end Routes

end SDNware.Server
