/-
# SDNware.Server.Search — the widest-path search of `get_route`.

The search grows a set of visited switches: every round scans the links from visited to unvisited
switches for the smallest load, marks the switch it leads to and records its predecessor and the
index of the link.  A scan that finds nothing below 4·10¹² leaves the defaults, that is switch 0.
The loop ends when the switch just marked is the destination; the path is then read backwards through
the predecessors.  Both loops carry fuel, so every result below is about calls that return.

Nothing is assumed of the loads here.  What the later modules use is `findRoute_path`: whatever the
search did, the path it returns visits no switch twice, ends at the destination, and names for every
switch the ingress port of an existing link from the switch before.
-/
import SDNware.Lib.Orbit
import SDNware.Server.Collector

namespace SDNware.Server

/-- A switch on a path and the port it is entered by. -/
abbrev PathHop := String × String

section Search

variable {R : Type} [DoubleOps R] (E : Env) (rates : RateMap R) (links : Links)

/-- `get_interface_rate`. -/
def getInterfaceRate (idx1 idx2 idx : Nat) (p : Flow) : R :=
  (((links (E.switchIdxToName idx1, E.switchIdxToName idx2))[idx]?.map Link.flows).getD []).foldl
    (fun res flow => if flow = p then res else DoubleOps.add res (rates.rate flow))
    (DoubleOps.ofInt 0)

/-- `_s`, `_d`, `_i` and `_u`. -/
structure Choice where
  s : Nat
  d : Nat
  i : Nat
  u : Int

/-- The links the scan looks at, in its order. -/
def candidates (visit : Nat → Bool) : List (Nat × Nat × Nat) :=
  ((List.range E.nSwitch).filter fun i => visit i).flatMap fun i =>
    ((List.range E.nSwitch).filter fun j => !visit j).flatMap fun j =>
      (List.range (links (E.switchIdxToName i, E.switchIdxToName j)).length).map fun k => (i, j, k)

/-- One link of the scan; `_u` is a `long long` and truncates the load stored in it. -/
def scanStep (p : Flow) (best : Choice) (c : Nat × Nat × Nat) : Choice :=
  let rate := getInterfaceRate E rates links c.1 c.2.1 c.2.2 p
  if DoubleOps.lt rate (DoubleOps.ofInt best.u) then ⟨c.1, c.2.1, c.2.2, DoubleOps.toInt rate⟩
  else best

/-- One scan. -/
def scan (p : Flow) (visit : Nat → Bool) : Choice :=
  (candidates E links visit).foldl (scanStep E rates links p) ⟨0, 0, 0, 4000000000000⟩

/-- The rounds of the search up to the one that marks `d`; the predecessors at that point. -/
def search (p : Flow) (d : Nat) : Nat → (Nat → Bool) → (Nat → Nat × Nat) → Option (Nat → Nat × Nat)
  | 0, _, _ => none
  | fuel + 1, visit, pre =>
    let best := scan E rates links p visit
    let pre' := Function.update pre best.d (best.s, best.i)
    if best.d = d then some pre'
    else search p d fuel (Function.update visit best.d true) pre'

/-- The reconstruction, from `sw` back to `s`; an index out of range does not return. -/
def walkBack (pre : Nat → Nat × Nat) (s : Nat) : Nat → Nat → List PathHop → Option (List PathHop)
  | 0, _, _ => none
  | fuel + 1, sw, path =>
    if sw = s then some path
    else
      match (links (E.switchIdxToName (pre sw).1, E.switchIdxToName sw))[(pre sw).2]? with
      | none => none
      | some link => walkBack pre s fuel (pre sw).1 ((E.switchIdxToName sw, link.port2) :: path)

/-- The index of the switch of a server. -/
def serverIdx (ip : String) : Nat := E.switchNameToIdx (E.serverIpToSwitchName ip)

/-- `tmp_route`, for a flow between different switches. -/
def findRoute (fuel : Nat) (p : Flow) : Option (List PathHop) :=
  let s := serverIdx E p.1
  let d := serverIdx E p.2
  (search E rates links p d fuel (Function.update (fun _ => false) s true)
    (Function.update (fun _ => (0, 0)) s (s, 0))).bind fun pre => walkBack E links pre s fuel d []

end Search

/-! ## The path -/

section Path

variable {R : Type} [DoubleOps R] {E : Env} {rates : RateMap R} {links : Links}

theorem mem_candidates {visit : Nat → Bool} {c : Nat × Nat × Nat}
    (h : c ∈ candidates E links visit) : c.1 < E.nSwitch := by
  unfold candidates at h
  obtain ⟨i, hi, hc⟩ := List.mem_flatMap.mp h
  obtain ⟨j, -, hc⟩ := List.mem_flatMap.mp hc
  obtain ⟨k, -, rfl⟩ := List.mem_map.mp hc
  exact List.mem_range.mp (List.mem_of_mem_filter hi)

theorem scan_lt (hn : 0 < E.nSwitch) (p : Flow) (visit : Nat → Bool) :
    (scan E rates links p visit).s < E.nSwitch := by
  unfold scan
  have hfold : ∀ (cs : List (Nat × Nat × Nat)) (best : Choice), (∀ c ∈ cs, c.1 < E.nSwitch) →
      best.s < E.nSwitch → (cs.foldl (scanStep E rates links p) best).s < E.nSwitch := by
    intro cs
    induction cs with
    | nil => exact fun _ _ hbest => hbest
    | cons c cs ih =>
      intro best hcs hbest
      -- whether or not the candidate wins, the choice starts at a switch
      apply ih _ fun c' hc' => hcs c' (List.mem_cons_of_mem c hc')
      unfold scanStep
      dsimp only
      split
      · exact hcs c List.mem_cons_self
      · exact hbest
  exact hfold _ _ (fun c hc => mem_candidates hc) hn

/-- Predecessors are switches. -/
theorem search_lt (hn : 0 < E.nSwitch) {p : Flow} {d : Nat} :
    ∀ {fuel : Nat} {visit : Nat → Bool} {pre pre' : Nat → Nat × Nat},
      (∀ x, (pre x).1 < E.nSwitch) → search E rates links p d fuel visit pre = some pre' →
        ∀ x, (pre' x).1 < E.nSwitch
  | 0, _, _, _, _, h => absurd h (by simp [search])
  | fuel + 1, visit, pre, pre', hpre, h => by
      have hnext : ∀ x, (Function.update pre (scan E rates links p visit).d
          ((scan E rates links p visit).s, (scan E rates links p visit).i) x).1 < E.nSwitch := by
        intro x
        rw [Function.update_apply]
        split
        · exact scan_lt hn p visit
        · exact hpre x
      unfold search at h
      dsimp only at h
      split at h
      · exact Option.some.inj h ▸ hnext
      · exact search_lt hn hnext h

/-- The port by which the search entered a switch. -/
def entryPort (E : Env) (links : Links) (pre : Nat → Nat × Nat) (x : Nat) : Option String :=
  (links (E.switchIdxToName (pre x).1, E.switchIdxToName x))[(pre x).2]?.map Link.port2

/-- The reconstruction lists an orbit of the predecessor map. -/
theorem walkBack_orbit {pre : Nat → Nat × Nat} {s : Nat} :
    ∀ {fuel sw : Nat} {path path' : List PathHop},
      walkBack E links pre s fuel sw path = some path' →
        ∃ l, Orbit (fun x => (pre x).1) s sw l ∧ (∀ x ∈ l, (entryPort E links pre x).isSome) ∧
          path' = (l.map fun x => (E.switchIdxToName x, (entryPort E links pre x).getD "")).reverse
            ++ path
  | 0, _, _, _, h => absurd h (by simp [walkBack])
  | fuel + 1, sw, path, path', h => by
      unfold walkBack at h
      split at h
      · rename_i heq
        obtain rfl := Option.some.inj h
        subst heq
        exact ⟨[], .stop, by simp, by simp⟩
      · rename_i hne
        cases hlink : (links (E.switchIdxToName (pre sw).1, E.switchIdxToName sw))[(pre sw).2]? with
        | none =>
          rw [hlink] at h
          exact absurd h (by simp)
        | some link =>
          rw [hlink] at h
          have hport : entryPort E links pre sw = some link.port2 := by
            unfold entryPort
            rw [hlink]
            rfl
          obtain ⟨l, horbit, hsome, rfl⟩ := walkBack_orbit h
          refine ⟨sw :: l, .step hne horbit, ?_, ?_⟩
          · intro x hx
            rcases List.mem_cons.mp hx with rfl | hx
            · rw [hport]
              rfl
            · exact hsome x hx
          · simp [hport]

/-- Distinct device names. -/
def NamesDistinct (E : Env) : Prop := (E.nodes.map Device.deviceName).Nodup

theorem switchIdxToName_inj (hE : NamesDistinct E) {i j : Nat} (hi : i < E.nSwitch)
    (hj : j < E.nSwitch) (h : E.switchIdxToName i = E.switchIdxToName j) : i = j := by
  unfold Env.nSwitch at hi hj
  unfold Env.switchIdxToName at h
  rw [List.getElem?_eq_getElem hi, List.getElem?_eq_getElem hj] at h
  simp only [Option.map_some, Option.getD_some] at h
  have hi' : i < (E.nodes.map Device.deviceName).length := by simpa using hi
  have hj' : j < (E.nodes.map Device.deviceName).length := by simpa using hj
  have hname : (E.nodes.map Device.deviceName)[i] = (E.nodes.map Device.deviceName)[j] := by
    simpa using h
  exact hE.getElem_inj_iff.mp hname

theorem serverIdx_lt (hn : 0 < E.nSwitch) (ip : String) : serverIdx E ip < E.nSwitch := by
  unfold serverIdx Env.switchNameToIdx
  cases h : E.nodes.findIdx? fun node => node.deviceName = E.serverIpToSwitchName ip with
  | none => exact hn
  | some i => exact (List.findIdx?_eq_some_iff_getElem.mp h).1

/-- Two servers on different switches: there is a switch. -/
theorem nSwitch_pos {ip ip' : String} (hne : serverIdx E ip ≠ serverIdx E ip') : 0 < E.nSwitch := by
  rcases Nat.eq_zero_or_pos E.nSwitch with h0 | hpos
  · exfalso
    apply hne
    -- with no switch at all both indices are the default
    have hnil : E.nodes = [] := List.length_eq_zero_iff.mp h0
    simp [serverIdx, Env.switchNameToIdx, hnil]
  · exact hpos

/-- What is known of a path the search returns. -/
structure FoundPath (E : Env) (links : Links) (p : Flow) (path : List PathHop) : Prop where
  /-- It ends at the destination's switch. -/
  last : ∃ pass port, path = pass ++ [(E.switchIdxToName (serverIdx E p.2), port)]
  /-- Every port is the far port of some link. -/
  ports : ∀ hop ∈ path, ∃ ab, ∃ l ∈ links ab, l.port2 = hop.2
  /-- Distinct devices are visited once each. -/
  nodup : NamesDistinct E →
    (E.switchIdxToName (serverIdx E p.1) :: path.map Prod.fst).Nodup

/-- **The path of the search.** -/
theorem findRoute_path {fuel : Nat} {p : Flow} {path : List PathHop}
    (hne : serverIdx E p.1 ≠ serverIdx E p.2)
    (h : findRoute E rates links fuel p = some path) : FoundPath E links p path := by
  have hn : 0 < E.nSwitch := nSwitch_pos hne
  unfold findRoute at h
  dsimp only at h
  obtain ⟨pre, hsearch, hwalk⟩ := Option.bind_eq_some_iff.mp h
  have hpre : ∀ x, (pre x).1 < E.nSwitch := by
    refine search_lt hn (fun x => ?_) hsearch
    rw [Function.update_apply]
    split
    · exact serverIdx_lt hn p.1
    · exact hn
  obtain ⟨l, horbit, hsome, rfl⟩ := walkBack_orbit hwalk
  have hlt : ∀ x ∈ l, x < E.nSwitch :=
    horbit.forall_mem (fun x _ => hpre x) (serverIdx_lt hn p.2)
  refine ⟨?_, ?_, ?_⟩
  · obtain ⟨l', rfl⟩ := horbit.eq_cons hne.symm
    simp
  · intro hop hhop
    simp only [List.append_nil, List.mem_reverse, List.mem_map] at hhop
    obtain ⟨x, hx, rfl⟩ := hhop
    obtain ⟨port, hport⟩ := Option.isSome_iff_exists.mp (hsome x hx)
    obtain ⟨link, hlink, rfl⟩ := Option.map_eq_some_iff.mp hport
    exact ⟨_, link, List.mem_of_getElem? hlink, by rw [hport, Option.getD_some]⟩
  · intro hE
    simp only [List.append_nil, List.map_reverse, List.map_map]
    rw [List.nodup_cons, List.mem_reverse, List.nodup_reverse]
    refine ⟨fun hmem => ?_, ?_⟩
    · obtain ⟨x, hx, hname⟩ := List.mem_map.mp hmem
      exact horbit.ne_of_mem hx
        (switchIdxToName_inj hE (hlt x hx) (serverIdx_lt hn p.1) hname)
    · refine horbit.nodup.map_on fun x hx y hy hname => ?_
      exact switchIdxToName_inj hE (hlt x hx) (hlt y hy) hname

end Path

end SDNware.Server
