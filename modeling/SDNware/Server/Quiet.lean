/-
# SDNware.Server.Quiet — rounds without requests.

`update_route` visits the pairs one after the other and moves each to the best path that the search
finds with the others where they are.  When does this come to rest, and where?

`quiet_round`: a round that sends no request has changed nothing at all, not even in the server, and
with the same rates no later round will, whatever its clock; the routes are then an equilibrium: no
pair can lower the bottleneck of its route by 1 or more by moving alone, as the links record the loads.

`linkLoad_eq_carried`: in the runs of `SDNware.Server.LinkBook` in which the records of the links are
right, the load the search weighs a link by is the sum of the rates of the other pairs whose routes
really use it; so there the equilibrium is one of the traffic itself.
-/
import Mathlib.Algebra.BigOperators.Finprod
import SDNware.Server.Widest
import SDNware.Server.LinkBook
import SDNware.Server.Update

namespace SDNware.Server

/-! ## §1 — fuel -/

section Fuel

variable {R : Type} [DoubleOps R] {E : Env} {rates : RateMap R} {links : Links} {p : Flow}

/-- More fuel does not change what the reconstruction returns. -/
theorem walkBack_mono {pre : Nat → Nat × Nat} {s : Nat} : ∀ {fuel fuel' sw : Nat}
    {path path' : List PathHop}, fuel ≤ fuel' → walkBack E links pre s fuel sw path = some path' →
      walkBack E links pre s fuel' sw path = some path'
  | 0, _, _, _, _, _, h => absurd h (by simp [walkBack])
  | fuel + 1, 0, _, _, _, hle, _ => absurd hle (by omega)
  | fuel + 1, fuel' + 1, sw, path, path', hle, h => by
      unfold walkBack at h ⊢
      split
      · rename_i heq
        rwa [if_pos heq] at h
      · rename_i hne
        rw [if_neg hne] at h
        cases hlink : (links (E.switchIdxToName (pre sw).1, E.switchIdxToName sw))[(pre sw).2]? with
        | none =>
          rw [hlink] at h
          exact absurd h (by simp)
        | some link =>
          rw [hlink] at h
          exact walkBack_mono (Nat.le_of_succ_le_succ hle) h

theorem findRoute_mono {fuel fuel' : Nat} {path : List PathHop} (hle : fuel ≤ fuel')
    (h : findRoute E rates links fuel p = some path) : findRoute E rates links fuel' p = some path := by
  unfold findRoute at h ⊢
  obtain ⟨pre, hsearch, hwalk⟩ := Option.bind_eq_some_iff.mp h
  exact Option.bind_eq_some_iff.mpr ⟨pre, search_mono hle hsearch, walkBack_mono hle hwalk⟩

end Fuel

/-! ## §2 — one pair -/

section Pair

variable {R : Type} [DoubleOps R] {E : Env} {rates : RateMap R} {r r' : Router} {p : Flow}

/-- The log only grows, and where it does not the pair has changed nothing. -/
theorem log_pairStep {fuel : Nat} {now : Int} (hr : UpdateInv E r)
    (h : PairStep E rates fuel now r p r') :
    r.log.length ≤ r'.log.length ∧ (r'.log.length = r.log.length → r' = r) := by
  have hgrow : ∀ {log : List Request} {req : Request}, r.log.length ≤ log.length →
      r.log.length ≤ (log ++ [req]).length ∧ ((log ++ [req]).length = r.log.length → r' = r) := by
    intro log req hle
    rw [List.length_append, List.length_singleton]
    exact ⟨by omega, fun heq => absurd heq (by omega)⟩
  cases h with
  | near _ => exact ⟨le_rfl, fun _ => rfl⟩
  | keep path hne hfind hseq hfollows =>
    obtain ⟨-, hdel, hout⟩ := (hr.wf.route p).resolve_left fun hfresh => hseq (by rw [hfresh])
    rw [follow_eq_self hdel hout (hr.agrees.outports p hseq) hfollows, setRoute_self]
    exact ⟨le_rfl, fun _ => rfl⟩
  | fresh => exact hgrow le_rfl
  | replace =>
    apply hgrow
    show r.log.length ≤ (r.log ++ [_]).length
    rw [List.length_append]
    exact Nat.le_add_right _ _

/-- A pair that sends no request stays on the path the search finds. -/
theorem follows_of_log_eq {fuel : Nat} {now : Int} (h : PairStep E rates fuel now r p r')
    (hlog : r'.log.length = r.log.length) (hne : serverIdx E p.1 ≠ serverIdx E p.2) :
    (r.routes p).seq ≠ -1 ∧ ∃ path, findRoute E rates r.links fuel p = some path ∧
      (r.routes p).Follows path := by
  cases h with
  | near hsame => exact absurd hsame hne
  | keep path _ hfind hseq hfollows => exact ⟨hseq, path, hfind, hfollows⟩
  | fresh path inport =>
    simp only [installed, List.length_append, List.length_singleton] at hlog
    omega
  | replace path =>
    simp only [installed, retired, List.length_append, List.length_singleton] at hlog
    omega

/-- It does so with any clock, and with any fuel that is enough. -/
theorem pairStep_fixed {fuel fuel' : Nat} {clock clock' : Flow → Int} (hr : UpdateInv E r)
    (h : pairStep E rates fuel clock r p = some r)
    (hfuel : serverIdx E p.1 ≠ serverIdx E p.2 → ∀ path, findRoute E rates r.links fuel p = some path →
      findRoute E rates r.links fuel' p = some path) :
    pairStep E rates fuel' clock' r p = some r := by
  by_cases hne : serverIdx E p.1 = serverIdx E p.2
  · unfold pairStep getRoute
    rw [if_pos hne]
    rfl
  · obtain ⟨hseq, path, hfind, hfollows⟩ := follows_of_log_eq (pairStep_cases hr.wf h) rfl hne
    obtain ⟨-, hdel, hout⟩ := (hr.wf.route p).resolve_left fun hfresh => hseq (by rw [hfresh])
    rw [pairStep_stored clock' hr.wf hne (hfuel hne path hfind) hseq, if_pos hfollows,
      follow_eq_self hdel hout (hr.agrees.outports p hseq) hfollows, setRoute_self]

end Pair

/-! ## §3 — an equilibrium -/

/-- A path of existing links between the pair's two switches, where no other such path has a
bottleneck that is lower by 1 or more. -/
structure NearLightest (E : Env) (rates : RateMap ℚ) (links : Links) (p : Flow) (es : List LinkIdx) :
    Prop where
  walk : EdgeWalk LinkIdx.src LinkIdx.dst (serverIdx E p.1) es (serverIdx E p.2)
  exist : ∀ c ∈ es, IsLink E links c
  least : ∀ qs, EdgeWalk LinkIdx.src LinkIdx.dst (serverIdx E p.1) qs (serverIdx E p.2) →
    (∀ c ∈ qs, IsLink E links c) →
      bottleneck (linkLoad E rates links p) es < bottleneck (linkLoad E rates links p) qs + 1

/-- The pair's stored route runs along a path of this kind, link by link. -/
def Settled (E : Env) (rates : RateMap ℚ) (r : Router) (p : Flow) : Prop :=
  ∃ es, NearLightest E rates r.links p es ∧
    es.map (linkHop E r.links) = (r.routes p).pass ++ [((r.routes p).outdev, (r.routes p).outport)]

section Rounds

variable {E : Env} {rates : RateMap ℚ} {r : Router} {p : Flow}

/-- What the search returns, over the links it took. -/
theorem exists_walk_of_findRoute (hrate : ∀ q, 0 ≤ rates.rate q) {links : Links} {fuel : Nat}
    {path : List PathHop} (hne : serverIdx E p.1 ≠ serverIdx E p.2)
    (h : findRoute E rates links fuel p = some path) :
    ∃ es, EdgeWalk LinkIdx.src LinkIdx.dst (serverIdx E p.1) es (serverIdx E p.2) ∧
      (∀ c ∈ es, IsLink E links c ∧ NearWidest E rates links p c) ∧
      path = es.map (linkHop E links) ∧
      ∀ fuel', E.nSwitch ≤ fuel' → findRoute E rates links fuel' p = some path := by
  have hreach : Reaches E rates links p (serverIdx E p.1) (serverIdx E p.2) := by
    by_contra hnot
    rw [findRoute_of_not_reaches hnot fuel] at h
    exact absurd h (by simp)
  have hscan : ∀ visit : Nat → Bool, visit (serverIdx E p.1) = true →
      visit (serverIdx E p.2) = false →
        (scan E rates links p visit).link ∈ candidates E links visit ∧
          NearWidest E rates links p (scan E rates links p visit).link := by
    intro visit hs hd
    have hmem := (scan_of_reaches hreach hs hd).1
    exact ⟨hmem, nearWidest_scan hrate hs hd hmem⟩
  obtain ⟨-, es, hwalk, hes, -, hfound⟩ := findRoute_of_scan hne hscan
  -- the two results are those of the larger of the two fuels
  have hpath : path = es.map (linkHop E links) := by
    have hmax := findRoute_mono (le_max_left fuel E.nSwitch) h
    rw [hfound _ (le_max_right fuel E.nSwitch)] at hmax
    exact (Option.some.inj hmax).symm
  exact ⟨es, hwalk, hes, hpath, fun fuel' hle => by rw [hpath, hfound fuel' hle]⟩

theorem settled_of_follows (hrate : ∀ q, 0 ≤ rates.rate q) (hr : UpdateInv E r) {fuel : Nat}
    {path : List PathHop} (hne : serverIdx E p.1 ≠ serverIdx E p.2) (hseq : (r.routes p).seq ≠ -1)
    (hfind : findRoute E rates r.links fuel p = some path) (hfollows : (r.routes p).Follows path) :
    Settled E rates r p := by
  obtain ⟨es, hwalk, hes, hpath, -⟩ := exists_walk_of_findRoute hrate hne hfind
  refine ⟨es, ⟨hwalk, fun c hc => (hes c hc).1, fun qs hqs hlinks => ?_⟩, ?_⟩
  · rw [bottleneck_lt_iff]
    constructor
    · exact add_pos_of_nonneg_of_pos (bottleneck_nonneg _ qs) one_pos
    · exact fun c hc => (hes c hc).2 qs hqs hlinks
  · -- the stored route is the path: its passed switches, its last switch and port
    obtain ⟨-, -, hout⟩ := (hr.wf.route p).resolve_left fun hfresh => hseq (by rw [hfresh])
    obtain ⟨pass, port, hlast⟩ := (findRoute_path hne hfind).last
    have hport := hfollows.2.resolve_left (hr.agrees.outports p hseq)
    rw [← hpath, hfollows.1, hout, hport, hlast]
    simp [lastPort, outName]

/-- **Quiet rounds.** Take any router the server can get to, whatever the rates so far, on a topology
whose ports have names, and a round with any non-negative rates that sends no request.  Then the round
has changed nothing; every active pair between two switches is on a path whose bottleneck no other
path undercuts by 1 or more, the others being where they are; and every round with the same rates and
any clock returns, sends nothing and changes nothing. -/
theorem quiet_round (hports : ∀ e ∈ E.linklist, e.port1 ≠ "" ∧ e.port2 ≠ "") (hr : Reached ℚ E r)
    (hrate : ∀ q, 0 ≤ rates.rate q) (fuel : Nat) (clock : Flow → Int) (r' : Router)
    (hround : updateRoute E rates fuel clock r = some r') (hquiet : r'.log = r.log) :
    r' = r ∧
      (∀ p ∈ activePairs rates, serverIdx E p.1 ≠ serverIdx E p.2 → Settled E rates r p) ∧
      ∀ fuel' clock', E.nSwitch ≤ fuel' → updateRoute E rates fuel' clock' r = some r := by
  have hI := updateInv_of_reached hports hr
  -- backwards from the end of the round: no pair can have added to the log
  have halong : Run.Along (pairStep E rates fuel clock)
      (fun r p => pairStep E rates fuel clock r p = some r) r (activePairs rates) := by
    refine (Run.along_of_final (Q := fun r₁ => r₁.log.length = r.log.length)
      (I := fun r₁ => UpdateInv E r₁ ∧ r.log.length ≤ r₁.log.length) ?_ _ ⟨hI, le_rfl⟩ hround
        (by rw [hquiet])).2
    rintro r₁ p r₂ ⟨hr₁, hle⟩ hstep
    have hcases := pairStep_cases hr₁.wf hstep
    obtain ⟨hgrow, hsame⟩ := log_pairStep hr₁ hcases
    refine ⟨⟨updateInv_pairStep hr₁ hcases, hle.trans hgrow⟩, fun hlen => ?_⟩
    have heq : r₁.log.length = r.log.length := by omega
    refine ⟨heq, ?_⟩
    rw [hstep, hsame (by omega)]
  have hfixed := halong.fixed
  refine ⟨?_, fun p hp hne => ?_, fun fuel' clock' hfuel => ?_⟩
  · have hsame := Run.foldlM_fixed hfixed
    exact Option.some.inj (hround.symm.trans hsame)
  · obtain ⟨hseq, path, hfind, hfollows⟩ := follows_of_log_eq
      (pairStep_cases hI.wf (hfixed p hp)) rfl hne
    exact settled_of_follows hrate hI hne hseq hfind hfollows
  · apply Run.foldlM_fixed
    intro p hp
    apply pairStep_fixed hI (hfixed p hp)
    intro hne path hfind
    obtain ⟨-, -, -, -, hmore⟩ := exists_walk_of_findRoute hrate hne hfind
    exact hmore fuel' hfuel

/-- Two pairs with the rates 5 and 6. -/
def twoRates : RateMap ℚ :=
  (RateMap.empty.set ("172.16.1.1", "172.16.5.1") 5).set ("172.16.1.2", "172.16.5.1") 6

/-- After the round that installs their routes the next one is quiet. -/
theorem quiet_round_twoLeaves :
    ∃ r, updateRoute twoLeaves twoRates 3 (fun _ => 0) (Router.init twoLeaves) = some r ∧
      r.log.length = 2 ∧ Settled twoLeaves twoRates r ("172.16.1.1", "172.16.5.1") := by
  obtain ⟨r, hround, hlog⟩ := Option.map_eq_some_iff.mp
    (show (updateRoute twoLeaves twoRates 3 (fun _ => 0) (Router.init twoLeaves)).map
      (fun r => (r.log.length, (updateRoute twoLeaves twoRates 3 (fun _ => 0) r).map
        fun r' => decide (r'.log = r.log))) = some (2, some true) by decide +kernel)
  obtain ⟨hlen, hnext⟩ := Prod.mk.inj hlog
  obtain ⟨r', hround', hquiet⟩ := Option.map_eq_some_iff.mp hnext
  have hports : ∀ e ∈ twoLeaves.linklist, e.port1 ≠ "" ∧ e.port2 ≠ "" := by decide
  have hrate : ∀ q, 0 ≤ twoRates.rate q := by
    intro q
    show 0 ≤ Function.update (Function.update (fun _ => (0 : ℚ)) _ 5) _ 6 q
    rw [Function.update_apply, Function.update_apply]
    split_ifs <;> norm_num
  have hr : Reached ℚ twoLeaves r := Reached.init.pairs hround
  refine ⟨r, hround, hlen, ?_⟩
  exact (quiet_round hports hr hrate 3 (fun _ => 0) r' hround' (of_decide_eq_true hquiet)).2.1 _
    (by decide +kernel) (by decide +kernel)

end Rounds

/-! ## §4 — the load that is really there -/

section Carried

variable {E : Env} {rates : RateMap ℚ} {p : Flow}

/-- The load of a link is the sum over its recorded flows but the pair itself. -/
theorem linkLoad_eq_sum (links : Links) (c : LinkIdx) {l : Link}
    (hl : (links (E.switchIdxToName c.src, E.switchIdxToName c.dst))[c.2.2]? = some l) :
    linkLoad E rates links p c = ((l.flows.filter (· ≠ p)).map rates.rate).sum := by
  have hfold : ∀ (flows : List Flow) (res : ℚ),
      flows.foldl (fun res flow => if flow = p then res else res + rates.rate flow) res
        = res + ((flows.filter (· ≠ p)).map rates.rate).sum := by
    intro flows
    induction flows with
    | nil => simp
    | cons q flows ih =>
      intro res
      rw [List.foldl_cons, ih]
      by_cases hq : q = p
      · simp [hq]
      · simp [hq, add_assoc]
  have hzero := hfold l.flows 0
  rw [zero_add] at hzero
  rw [← hzero]
  unfold linkLoad getInterfaceRate
  simp only [hl, Option.map_some, Option.getD_some]
  rfl

/-- A link as a hop of routes. -/
def hopOf (E : Env) (links : Links) (c : LinkIdx) : Hop :=
  ((E.switchIdxToName c.src, (linkHop E links c).1), (linkHop E links c).2)

/-- The traffic of the other pairs whose routes use a link. -/
noncomputable def carried (rates : RateMap ℚ) (r : Router) (p : Flow) (hop : Hop) : ℚ :=
  ∑ᶠ q ∈ {q | q ≠ p ∧ hop ∈ r.hopsOf q}, rates.rate q

/-- With the books right, a link records the pairs that use it, each once. -/
theorem linkLoad_of_booked {r : Router} (hr : Booked r) {c : LinkIdx} (hc : IsLink E r.links c) :
    linkLoad E rates r.links p c = carried rates r p (hopOf E r.links c) := by
  obtain ⟨l, hget⟩ : ∃ l, (r.links (E.switchIdxToName c.src, E.switchIdxToName c.dst))[c.2.2]? = some l :=
    ⟨_, List.getElem?_eq_getElem hc.2.2⟩
  have hmem : l ∈ r.links (E.switchIdxToName c.src, E.switchIdxToName c.dst) :=
    List.mem_of_getElem? hget
  have hhop : hopOf E r.links c = ((E.switchIdxToName c.src, E.switchIdxToName c.dst), l.port2) := by
    simp only [hopOf, linkHop, hget, Option.map_some, Option.getD_some]
  have hcount : ∀ q, l.flows.count q = if hopOf E r.links c ∈ r.hopsOf q then 1 else 0 := fun q => by
    rw [hhop]
    exact hr q _ l hmem
  have hnodup : l.flows.Nodup := List.nodup_iff_count_le_one.mpr fun q => by
    rw [hcount q]
    split <;> omega
  have hset : {q | q ≠ p ∧ hopOf E r.links c ∈ r.hopsOf q} = ↑(l.flows.filter (· ≠ p)).toFinset := by
    ext q
    have hiff : q ∈ l.flows ↔ hopOf E r.links c ∈ r.hopsOf q := by
      rw [← List.count_pos_iff, hcount q]
      split
      · rename_i huse
        exact ⟨fun _ => huse, fun _ => Nat.one_pos⟩
      · rename_i hnot
        exact ⟨fun h => absurd h (Nat.lt_irrefl 0), fun h => absurd h hnot⟩
    simp [hiff, and_comm]
  rw [linkLoad_eq_sum r.links c hget]
  unfold carried
  rw [hset, finsum_mem_coe_finset, List.sum_toFinset _ (hnodup.filter _)]

/-- **The recorded load is the real one.** On a topology with distinct device names and named ports, in
every run whose pairs are bookable, for any rates: the load by which the search weighs a link for a pair
is the sum of the rates of the other pairs whose installed routes use the link. -/
theorem linkLoad_eq_carried (hE : NamesDistinct E)
    (hports : ∀ e ∈ E.linklist, e.port1 ≠ "" ∧ e.port2 ≠ "") (es : List Event) (s : State ℚ)
    (hok : Run.Along (State.step E) (State.AlongPairs E (Bookable (R := ℚ) E)) (State.init E) es)
    (hrun : es.foldlM (State.step E) (State.init E) = some s) (rates : RateMap ℚ) (p : Flow)
    (c : LinkIdx) (hc : IsLink E s.router.links c) :
    linkLoad E rates s.router.links p c = carried rates s.router p (hopOf E s.router.links c) := by
  exact linkLoad_of_booked (bookInv_run hE hports hok hrun).booked hc

theorem linkLoad_eq_carried_leafSpine :
    ∃ s : State ℚ, spineRun.foldlM (State.step leafSpine) (State.init leafSpine) = some s ∧
      linkLoad leafSpine twoRates s.router.links ("172.16.1.1", "172.16.5.1") (0, 2, 0)
        = carried twoRates s.router ("172.16.1.1", "172.16.5.1")
            (hopOf leafSpine s.router.links (0, 2, 0)) := by
  obtain ⟨s, hrun, hlink⟩ := Option.map_eq_some_iff.mp
    (show (spineRun.foldlM (State.step leafSpine) (State.init (R := ℚ) leafSpine)).map
      (fun s => decide (IsLink leafSpine s.router.links (0, 2, 0))) = some true by decide +kernel)
  have hE : NamesDistinct leafSpine := by
    unfold NamesDistinct
    decide
  have hports : ∀ e ∈ leafSpine.linklist, e.port1 ≠ "" ∧ e.port2 ≠ "" := by decide
  have hok : Run.Along (State.step leafSpine) (State.AlongPairs leafSpine (Bookable leafSpine))
      (State.init (R := ℚ) leafSpine) spineRun := by decide +kernel
  exact ⟨s, hrun, linkLoad_eq_carried hE hports spineRun s hok hrun twoRates _ _
    (of_decide_eq_true hlink)⟩

end Carried

end SDNware.Server
