/-
# SDNware.Server.Widest — the search of `get_route` finds a widest path.

With exact, non-negative rates.  A scan chooses a link out of the visited set whose load, rounded
down to the `long long` `_u`, is a lower bound of the loads of all such links (`scan_le`): rounding
costs less than 1.  Every path from the source to the destination leaves the visited set as long as
the destination is not in it, so every link of the search tree is less than 1 above the bottleneck of
every path (`findRoute_widest`).
-/
import SDNware.Server.SearchEnds

namespace SDNware.Server

variable {E : Env} {rates : RateMap ℚ} {links : Links} {p : Flow}

/-! ## §1 — loads -/

theorem toInt_eq_floor {q : ℚ} (hq : 0 ≤ q) : DoubleOps.toInt q = ⌊q⌋ := by
  have hnum : 0 ≤ q.num := Rat.num_nonneg.mpr hq
  show q.num.tdiv q.den = ⌊q⌋
  rw [Int.tdiv_eq_ediv_of_nonneg hnum, Rat.floor_def']

variable (E links p) in
theorem linkLoad_nonneg (hrate : ∀ q, 0 ≤ rates.rate q) (c : LinkIdx) :
    0 ≤ linkLoad E rates links p c := by
  unfold linkLoad getInterfaceRate
  have hfold : ∀ (flows : List Flow) (acc : ℚ), 0 ≤ acc →
      0 ≤ flows.foldl (fun res flow => if flow = p then res else DoubleOps.add res (rates.rate flow))
        acc := by
    intro flows
    induction flows with
    | nil => exact fun _ hacc => hacc
    | cons flow flows ih =>
      intro acc hacc
      rw [List.foldl_cons]
      apply ih
      split
      · exact hacc
      · exact add_nonneg hacc (hrate flow)
  exact hfold _ _ (show (0 : ℚ) ≤ ((0 : Int) : ℚ) by simp)

/-! ## §2 — one scan -/

variable (E links p) in
/-- The key of a scan is at most the load of every link it looked at, and less than 1 below the load
of the link it chose. -/
theorem foldl_scanStep_le (hrate : ∀ q, 0 ≤ rates.rate q) (cs : List LinkIdx) (best : Choice) :
    (cs.foldl (scanStep E rates links p) best).u ≤ best.u ∧
    (∀ c ∈ cs, ((cs.foldl (scanStep E rates links p) best).u : ℚ) ≤ linkLoad E rates links p c) ∧
    (cs.foldl (scanStep E rates links p) best = best ∨
      linkLoad E rates links p (cs.foldl (scanStep E rates links p) best).link <
        (cs.foldl (scanStep E rates links p) best).u + 1) := by
  induction cs generalizing best with
  | nil => exact ⟨le_rfl, by simp, .inl rfl⟩
  | cons c cs ih =>
    have hfloor := toInt_eq_floor (linkLoad_nonneg E links p hrate c)
    rw [List.foldl_cons]
    cases hlt : DoubleOps.lt (linkLoad E rates links p c) (DoubleOps.ofInt best.u) with
    | false =>
      rw [scanStep_of_not_lt hlt]
      obtain ⟨hu, hall, hbest⟩ := ih best
      have hload : (best.u : ℚ) ≤ linkLoad E rates links p c := not_lt.mp (of_decide_eq_false hlt)
      refine ⟨hu, List.forall_mem_cons.mpr ⟨?_, hall⟩, hbest⟩
      exact le_trans (by exact_mod_cast hu) hload
    | true =>
      rw [scanStep_of_lt hlt]
      obtain ⟨hu, hall, hbest⟩ :=
        ih ⟨c.1, c.2.1, c.2.2, DoubleOps.toInt (linkLoad E rates links p c)⟩
      have hle := OrderedLoads.toInt_le hlt
      refine ⟨hu.trans hle, List.forall_mem_cons.mpr ⟨?_, hall⟩, .inr ?_⟩
      · refine le_trans (b := ((DoubleOps.toInt (linkLoad E rates links p c) : Int) : ℚ)) ?_ ?_
        · exact_mod_cast hu
        · rw [hfloor]
          exact Int.floor_le _
      · rcases hbest with hkeep | hbelow
        · rw [hkeep]
          show linkLoad E rates links p c < (DoubleOps.toInt (linkLoad E rates links p c) : ℚ) + 1
          rw [hfloor]
          exact Int.lt_floor_add_one _
        · exact hbelow

/-- A link the scan chooses is less than 1 above every link it looked at. -/
theorem scan_le (hrate : ∀ q, 0 ≤ rates.rate q) {visit : Nat → Bool}
    (hmem : (scan E rates links p visit).link ∈ candidates E links visit) {c : LinkIdx}
    (hc : c ∈ candidates E links visit) :
    linkLoad E rates links p (scan E rates links p visit).link < linkLoad E rates links p c + 1 := by
  obtain ⟨-, hall, hbest⟩ := foldl_scanStep_le E links p hrate (candidates E links visit)
    ⟨0, 0, 0, 4000000000000⟩
  rcases hbest with hkeep | hlt
  · -- the fallback enters switch 0 from switch 0, no link out of the visited set does
    unfold scan at hmem
    rw [hkeep] at hmem
    obtain ⟨-, hsrc, hdst⟩ := mem_candidates_iff.mp hmem
    exact absurd (hsrc.symm.trans hdst) (by simp)
  · exact hlt.trans_le (add_le_add_left (hall c hc) 1)

/-! ## §3 — the path -/

/-- The link is less than 1 above the bottleneck of every path between the two servers' switches. -/
def NearWidest (E : Env) (rates : RateMap ℚ) (links : Links) (p : Flow) (c : LinkIdx) : Prop :=
  ∀ qs, EdgeWalk LinkIdx.src LinkIdx.dst (serverIdx E p.1) qs (serverIdx E p.2) →
    (∀ c' ∈ qs, IsLink E links c') →
      linkLoad E rates links p c < bottleneck (linkLoad E rates links p) qs + 1

/-- Every path leaves the visited set by a link the scan has looked at. -/
theorem nearWidest_scan (hrate : ∀ q, 0 ≤ rates.rate q) {visit : Nat → Bool}
    (hs : visit (serverIdx E p.1) = true) (hd : visit (serverIdx E p.2) = false)
    (hmem : (scan E rates links p visit).link ∈ candidates E links visit) :
    NearWidest E rates links p (scan E rates links p visit).link := by
  intro qs hwalk hlinks
  obtain ⟨c, hc, hin, hout⟩ :=
    hwalk.exists_crossing (S := fun x => visit x = true) hs (by simp [hd])
  have hcand : c ∈ candidates E links visit :=
    mem_candidates_iff.mpr ⟨hlinks c hc, hin, by simpa using hout⟩
  exact (scan_le hrate hmem hcand).trans_le (add_le_add_left (le_bottleneck _ hc) 1)

/-- **Widest-path search.** If `d` is reachable over links below the bound, the search ends within
`n_switch - 1` rounds, its path is a simple one of existing links, listing for each the switch it
enters and the port, and no path from `s` to `d` has a bottleneck that is lower by 1 or more. -/
theorem findRoute_widest (hrate : ∀ q, 0 ≤ rates.rate q)
    (hne : serverIdx E p.1 ≠ serverIdx E p.2)
    (hreach : Reaches E rates links p (serverIdx E p.1) (serverIdx E p.2)) :
    (search E rates links p (serverIdx E p.2) (E.nSwitch - 1)
      (Function.update (fun _ => false) (serverIdx E p.1) true)
      (Function.update (fun _ => (0, 0)) (serverIdx E p.1) (serverIdx E p.1, 0))).isSome ∧
    ∃ es, EdgeWalk LinkIdx.src LinkIdx.dst (serverIdx E p.1) es (serverIdx E p.2) ∧
      (∀ c ∈ es, IsLink E links c) ∧ (serverIdx E p.1 :: es.map LinkIdx.dst).Nodup ∧
      (∀ fuel, E.nSwitch ≤ fuel →
        findRoute E rates links fuel p = some (es.map (linkHop E links))) ∧
      ∀ qs, EdgeWalk LinkIdx.src LinkIdx.dst (serverIdx E p.1) qs (serverIdx E p.2) →
        (∀ c ∈ qs, IsLink E links c) →
          bottleneck (linkLoad E rates links p) es < bottleneck (linkLoad E rates links p) qs + 1 := by
  have hscan : ∀ visit : Nat → Bool, visit (serverIdx E p.1) = true →
      visit (serverIdx E p.2) = false →
        (scan E rates links p visit).link ∈ candidates E links visit ∧
          NearWidest E rates links p (scan E rates links p visit).link := by
    intro visit hs hd
    obtain ⟨hmem, -⟩ := scan_of_reaches hreach hs hd
    exact ⟨hmem, nearWidest_scan hrate hs hd hmem⟩
  obtain ⟨hrounds, es, hwalk, hes, hnodup, hfound⟩ := findRoute_of_scan hne hscan
  refine ⟨hrounds, es, hwalk, fun c hc => (hes c hc).1, hnodup, hfound, fun qs hqs hlinks => ?_⟩
  rw [bottleneck_lt_iff]
  exact ⟨add_pos_of_nonneg_of_pos (bottleneck_nonneg _ qs) one_pos,
    fun c hc => (hes c hc).2 qs hqs hlinks⟩

theorem findRoute_widest_twoLeaves :
    ∃ es : List LinkIdx, (∀ c ∈ es, IsLink twoLeaves (Router.init twoLeaves).links c) ∧
      ∀ fuel, 2 ≤ fuel →
        findRoute twoLeaves (Collector.init (R := ℚ)).txRates (Router.init twoLeaves).links fuel
          ("172.16.1.1", "172.16.5.1") =
            some (es.map (linkHop twoLeaves (Router.init twoLeaves).links)) := by
  have hrate : ∀ q, 0 ≤ (Collector.init (R := ℚ)).txRates.rate q := fun _ => le_refl (0 : ℚ)
  obtain ⟨-, es, -, hlinks, -, hfound, -⟩ :=
    findRoute_widest hrate (by decide +kernel) reaches_twoLeaves
  exact ⟨es, hlinks, hfound⟩

end SDNware.Server
