/-
# SDNware.Server.LinkUndo — `save_route_in_links` and `del_route_in_links` as a pair.

Both are sequences of loops over links, so what they do to a link depends only on how many of the
loops select it (`editHops_eq_iterate`).  From the two counts follows when the second function undoes
the first (`del_save_iff`), and from one of them when the first marks exactly the links of the route
(`saveRouteInLinks_marks_iff`).  The links table is arbitrary: nothing is assumed of the entries
already there.
-/
import SDNware.Lib.Trailing
import SDNware.Server.LinkBook

namespace SDNware.Server

/-! ## §1 — loops over links -/

section Edit

variable {op : List Flow → List Flow} {links : Links} {p : Flow}

theorem editHop_apply (op : List Flow → List Flow) (links : Links) (hop : Hop)
    (ab : String × String) :
    editHop op links hop ab = (links ab).map fun l =>
      if hop = (ab, l.port2) then { l with flows := op l.flows } else l := by
  unfold editHop
  by_cases hab : ab = hop.1
  · subst hab
    rw [Function.update_self]
    refine List.map_congr_left fun l _ => ?_
    have hiff : l.port2 = hop.2 ↔ hop = (hop.1, l.port2) :=
      ⟨fun h => by rw [h], fun h => (congrArg Prod.snd h).symm⟩
    simp only [hiff]
  · have hnot : ∀ l : Link, hop ≠ (ab, l.port2) := fun l h => hab (congrArg Prod.fst h).symm
    rw [Function.update_of_ne hab]
    simp [hnot]

/-- Loops over links edit every link as often as they select it. -/
theorem editHops_eq_iterate (op : List Flow → List Flow) (links : Links) (hops : List Hop)
    (ab : String × String) :
    editHops op links hops ab = (links ab).map fun l =>
      { l with flows := op^[hops.count (ab, l.port2)] l.flows } := by
  induction hops generalizing links with
  | nil => simp [editHops]
  | cons hop hops ih =>
    show editHops op (editHop op links hop) hops ab = _
    rw [ih, editHop_apply, List.map_map]
    refine List.map_congr_left fun l _ => ?_
    by_cases hhop : hop = (ab, l.port2)
    · simp only [Function.comp_apply, List.count_cons, hhop, beq_self_eq_true, if_true,
        Function.iterate_succ_apply]
    · simp only [Function.comp_apply, if_neg hhop, List.count_cons, beq_eq_false_iff_ne.mpr hhop,
        Bool.false_eq_true, if_false, Nat.add_zero]

/-- Every erasure of the loops finds its entry. -/
def ErasesFind (E : Env) (p : Flow) : Links → List Hop → Prop
  | _, [] => True
  | links, hop :: hops =>
    (∀ l ∈ links hop.1, l.port2 = hop.2 → p ∈ l.flows) ∧
      ErasesFind E p (editHop (erased E p) links hop) hops

/-- The erasures find their entries when every link has as many of them as it is selected. -/
theorem erasesFind_iff {E : Env} {hops : List Hop} :
    ErasesFind E p links hops ↔
      ∀ ab, ∀ l ∈ links ab, hops.count (ab, l.port2) ≤ l.flows.count p := by
  induction hops generalizing links with
  | nil => simp [ErasesFind]
  | cons hop hops ih =>
    unfold ErasesFind
    rw [ih]
    constructor
    · rintro ⟨hfind, hrest⟩ ab l hl
      have hmem := List.mem_map_of_mem
        (f := fun l => if hop = (ab, l.port2) then { l with flows := erased E p l.flows } else l) hl
      rw [← editHop_apply] at hmem
      have hcount := hrest ab _ hmem
      by_cases hhop : hop = (ab, l.port2)
      · have hin : p ∈ l.flows := by
          subst hhop
          exact hfind l hl rfl
        have hpos : 0 < l.flows.count p := List.count_pos_iff.mpr hin
        rw [if_pos hhop] at hcount
        simp only [erased_of_mem hin, List.count_erase_self] at hcount
        rw [List.count_cons, hhop, beq_self_eq_true, if_pos rfl]
        omega
      · rw [if_neg hhop] at hcount
        rwa [List.count_cons_of_ne hhop]
    · intro hall
      refine ⟨fun l hl hport => ?_, fun ab l' hl' => ?_⟩
      · have hcount := hall hop.1 l hl
        rw [hport, List.count_cons_self] at hcount
        exact List.count_pos_iff.mp (Nat.lt_of_lt_of_le (Nat.succ_pos _) hcount)
      · rw [editHop_apply] at hl'
        obtain ⟨l, hl, rfl⟩ := List.mem_map.mp hl'
        have hcount := hall ab l hl
        by_cases hhop : hop = (ab, l.port2)
        · rw [if_pos hhop]
          rw [List.count_cons, hhop, beq_self_eq_true, if_pos rfl] at hcount
          have hin : p ∈ l.flows := List.count_pos_iff.mp (Nat.lt_of_lt_of_le (Nat.succ_pos _) hcount)
          simp only [erased_of_mem hin, List.count_erase_self]
          omega
        · rw [if_neg hhop]
          rwa [List.count_cons_of_ne hhop] at hcount

/-- So they return, whatever the platform does at the end iterator. -/
theorem ErasesFind.returns {E : Env} : ∀ {hops : List Hop} {links : Links}, ErasesFind E p links hops →
    ErasesReturn E p links hops
  | [], _, _ => trivial
  | _ :: _, _, h => ⟨fun l hl hport => Or.inl (h.1 l hl hport), ErasesFind.returns h.2⟩

/-! ## §2 — appending and erasing -/

theorem iterate_append (p : Flow) (m : Nat) (flows : List Flow) :
    (fun flows => flows ++ [p])^[m] flows = flows ++ List.replicate m p := by
  induction m generalizing flows with
  | zero => simp
  | succ m ih =>
    rw [Function.iterate_succ_apply, ih, List.append_assoc, List.singleton_append,
      ← List.replicate_succ]

/-- As long as there is an entry to find, `erase(find(…))` is `erase`. -/
theorem iterate_erased (E : Env) {m : Nat} {flows : List Flow} (h : m ≤ flows.count p) :
    (erased E p)^[m] flows = (fun flows => List.erase flows p)^[m] flows ∧
      ((erased E p)^[m] flows).length = flows.length - m := by
  induction m generalizing flows with
  | zero => exact ⟨rfl, rfl⟩
  | succ m ih =>
    have hin : p ∈ flows := List.count_pos_iff.mp (Nat.lt_of_lt_of_le (Nat.succ_pos _) h)
    have hstep : erased E p flows = flows.erase p := erased_of_mem hin
    have hle : m ≤ (flows.erase p).count p := by
      rw [List.count_erase_self]
      omega
    obtain ⟨heq, hlen⟩ := ih hle
    rw [Function.iterate_succ_apply, Function.iterate_succ_apply, hstep]
    refine ⟨heq, ?_⟩
    rw [hlen, List.length_erase_of_mem hin]
    omega

/-- On one link: `k` erasures undo `m` appended entries, and find them all. -/
theorem iterate_erased_append_iff (E : Env) (p : Flow) (flows : List Flow) (m k : Nat) :
    ((erased E p)^[k] (flows ++ List.replicate m p) = flows ∧ k ≤ flows.count p + m) ↔
      (m = k ∧ (0 < m → Trailing p flows)) := by
  have hcount : (flows ++ List.replicate m p).count p = flows.count p + m := by
    rw [List.count_append, List.count_replicate_self]
  constructor
  · rintro ⟨heq, hfind⟩
    obtain ⟨herase, hlen⟩ := iterate_erased E (hcount ▸ hfind)
    have hmk : m = k := by
      rw [heq, List.length_append, List.length_replicate] at hlen
      have hle := List.count_le_length (a := p) (l := flows)
      omega
    subst hmk
    rw [herase] at heq
    exact ⟨rfl, fun hm => (iterate_erase_append_iff hm).mp heq⟩
  · rintro ⟨rfl, htrailing⟩
    have hle : m ≤ (flows ++ List.replicate m p).count p := by omega
    obtain ⟨herase, -⟩ := iterate_erased E hle
    refine ⟨?_, by omega⟩
    rw [herase]
    rcases Nat.eq_zero_or_pos m with rfl | hm
    · simp
    · exact (iterate_erase_append_iff hm).mpr (htrailing hm)

section Undo

variable (E : Env) (p : Flow) (links : Links) (marked cleared : List Hop)

theorem editHops_undo_iff :
    editHops (erased E p) (editHops (· ++ [p]) links marked) cleared = links ↔
      ∀ ab, ∀ l ∈ links ab, (erased E p)^[cleared.count (ab, l.port2)]
        (l.flows ++ List.replicate (marked.count (ab, l.port2)) p) = l.flows := by
  rw [funext_iff]
  refine forall_congr' fun ab => ?_
  rw [editHops_eq_iterate, editHops_eq_iterate, List.map_map]
  nth_rewrite 2 [← List.map_id (links ab)]
  rw [List.map_inj_left]
  refine forall₂_congr fun l _ => ?_
  simp only [Function.comp_apply, iterate_append, id_eq]
  exact ⟨fun h => congrArg Link.flows h, fun h => by rw [h]⟩

theorem erasesFind_append_iff :
    ErasesFind E p (editHops (· ++ [p]) links marked) cleared ↔
      ∀ ab, ∀ l ∈ links ab,
        cleared.count (ab, l.port2) ≤ l.flows.count p + marked.count (ab, l.port2) := by
  rw [erasesFind_iff]
  refine forall_congr' fun ab => ?_
  rw [editHops_eq_iterate, List.forall_mem_map]
  refine forall₂_congr fun l _ => ?_
  simp only [iterate_append, List.count_append, List.count_replicate_self]

/-- Erasing along some loops undoes appending along others, and always finds an entry, exactly when
both select every link equally often and the pair is not on a selected link already, unless at its
end. -/
theorem erase_append_iff :
    (editHops (erased E p) (editHops (· ++ [p]) links marked) cleared = links ∧
      ErasesFind E p (editHops (· ++ [p]) links marked) cleared) ↔
    ∀ ab, ∀ l ∈ links ab, marked.count (ab, l.port2) = cleared.count (ab, l.port2) ∧
      (0 < marked.count (ab, l.port2) → Trailing p l.flows) := by
  rw [editHops_undo_iff, erasesFind_append_iff]
  constructor
  · rintro ⟨heq, hfind⟩ ab l hl
    exact (iterate_erased_append_iff E p l.flows _ _).mp ⟨heq ab l hl, hfind ab l hl⟩
  · intro h
    have hlink := fun ab l hl => (iterate_erased_append_iff E p l.flows _ _).mpr (h ab l hl)
    exact ⟨fun ab l hl => (hlink ab l hl).1, fun ab l hl => (hlink ab l hl).2⟩

end Undo

end Edit

/-! ## §3 — saving and deleting a route -/

section Route

variable {E : Env} {p : Flow} {rt : Route} {r : Router}

/-- Every hop of the route is a link of the table. -/
def Route.IsPath (rt : Route) (links : Links) : Prop :=
  ∀ hop ∈ rt.hops, ∃ l ∈ links hop.1, l.port2 = hop.2

instance (rt : Route) (links : Links) : Decidable (rt.IsPath links) :=
  inferInstanceAs (Decidable (∀ hop ∈ rt.hops, ∃ l ∈ links hop.1, l.port2 = hop.2))

/-- The switch from which the route enters its last one. -/
def Route.lastFrom (rt : Route) : String := (rt.pass.map Prod.fst).getLastD rt.indev

/-- The last loop of `save_route_in_links`. -/
def Route.savedLast (rt : Route) : Hop := ((rt.lastFrom, rt.outdev), rt.outport)

/-- The last loop of `del_route_in_links`. -/
def Route.erasedLast (rt : Route) (selfOutdev : String) : Hop :=
  if rt.pass = [] then ((rt.lastFrom, selfOutdev), rt.outport)
  else ((rt.lastFrom, rt.outdev), lastPort rt.pass)

/-- The last loop of the saving selects the last hop of the route. -/
theorem savedLast_mem_hops (rt : Route) : rt.savedLast ∈ rt.hops := by
  unfold Route.hops Route.savedLast Route.lastFrom
  rcases List.eq_nil_or_concat rt.pass with hnil | ⟨pass, last, hpass⟩
  · simp [hnil]
  · rw [hpass, List.concat_eq_append]
    refine List.mem_map.mpr ⟨(last.1, (rt.outdev, rt.outport)), ?_, by simp⟩
    have hsplit : rt.indev :: (pass ++ [last]).map Prod.fst =
        (rt.indev :: pass.map Prod.fst) ++ [last.1] := by simp
    rw [hsplit, List.zip_append (by simp)]
    exact List.mem_append_right _ (by simp)

/-- The two functions run the same loops up to the last. -/
theorem saveHops_delHops_split (E : Env) (p : Flow) (rt : Route) (selfOutdev : String) :
    ∃ hops, saveHops E p rt = hops ++ [rt.savedLast] ∧
      delHops E p rt selfOutdev = hops ++ [rt.erasedLast selfOutdev] := by
  unfold saveHops delHops Route.savedLast Route.erasedLast Route.lastFrom lastPort
  cases hpass : rt.pass with
  | nil => exact ⟨[], rfl, rfl⟩
  | cons first rest =>
    have hfrom : ((first :: rest).map Prod.fst).getLastD rt.indev = (rest.getLastD first).1 := by
      rw [List.map_cons, List.getLastD_cons]
      rcases List.eq_nil_or_concat rest with hnil | ⟨init, last, hrest⟩
      · simp [hnil]
      · simp [hrest]
    rw [hfrom, List.getLastD_cons, if_neg (List.cons_ne_nil first rest)]
    exact ⟨((E.serverIpToSwitchName p.1, first.1), first.2) :: middleHops first rest, rfl, rfl⟩

theorem erasedLast_eq_iff (selfOutdev : String) :
    rt.erasedLast selfOutdev = rt.savedLast ↔
      (rt.pass = [] → selfOutdev = rt.outdev) ∧
        (rt.pass ≠ [] → lastPort rt.pass = rt.outport) := by
  unfold Route.erasedLast Route.savedLast
  split
  · rename_i hpass
    simp [hpass]
  · rename_i hpass
    simp [hpass]

/-- Saving leaves alone what the loops of the deletion depend on. -/
theorem delHops_saveRouteInLinks (E : Env) (r : Router) (p : Flow) :
    delHops E p ((saveRouteInLinks E r p).routes p)
        ((saveRouteInLinks E r p).routes (p.1, p.1)).outdev =
      delHops E p (r.routes p) (r.routes (p.1, p.1)).outdev := by
  have hself : (Function.update r.routes p { r.routes p with del := false } (p.1, p.1)).outdev =
      (r.routes (p.1, p.1)).outdev := by
    rw [Function.update_apply]
    split
    · rename_i heq
      rw [heq]
    · rfl
  show delHops E p (Function.update r.routes p { r.routes p with del := false } p)
    (Function.update r.routes p { r.routes p with del := false } (p.1, p.1)).outdev = _
  rw [hself, Function.update_self]
  rfl

/-- **Deleting a saved route.** For a route of existing links, `del_route_in_links` after
`save_route_in_links` gives the links back, and finds every entry it erases, exactly when

* a direct route has `outdev` equal to `routes[sip][sip].outdev`,
* any other has the port of its last passed switch equal to `outport`, and
* the pair was on none of the links saved, unless at the end of their `flows`. -/
theorem del_save_iff (hpath : (r.routes p).IsPath r.links) :
    ((delRouteInLinks E (saveRouteInLinks E r p) p).map Router.links = some r.links ∧
      ErasesFind E p (saveRouteInLinks E r p).links
        (delHops E p ((saveRouteInLinks E r p).routes p)
          ((saveRouteInLinks E r p).routes (p.1, p.1)).outdev)) ↔
    ((r.routes p).pass = [] → (r.routes (p.1, p.1)).outdev = (r.routes p).outdev) ∧
      ((r.routes p).pass ≠ [] → lastPort (r.routes p).pass = (r.routes p).outport) ∧
      ∀ hop ∈ saveHops E p (r.routes p), ∀ l ∈ r.links hop.1, l.port2 = hop.2 →
        Trailing p l.flows := by
  -- where all entries are found the deletion returns
  have hlinks : ErasesFind E p (saveRouteInLinks E r p).links
      (delHops E p ((saveRouteInLinks E r p).routes p)
        ((saveRouteInLinks E r p).routes (p.1, p.1)).outdev) →
      ((delRouteInLinks E (saveRouteInLinks E r p) p).map Router.links = some r.links ↔
        editHops (erased E p) (saveRouteInLinks E r p).links
          (delHops E p ((saveRouteInLinks E r p).routes p)
            ((saveRouteInLinks E r p).routes (p.1, p.1)).outdev) = r.links) := by
    intro hfind
    rw [delRouteInLinks_of_returns hfind.returns, Option.map_some, Option.some_inj]
  rw [and_congr_left hlinks, delHops_saveRouteInLinks, ← and_assoc, ← erasedLast_eq_iff]
  obtain ⟨hops, hsave, hdelete⟩ :=
    saveHops_delHops_split E p (r.routes p) (r.routes (p.1, p.1)).outdev
  refine (erase_append_iff E p r.links (saveHops E p (r.routes p)) _).trans ?_
  constructor
  · intro h
    refine ⟨?_, fun hop hhop l hl hport => ?_⟩
    · -- the last link is there, so the last loops select it both or neither
      obtain ⟨last, hlast, hport⟩ := hpath _ (savedLast_mem_hops (r.routes p))
      obtain ⟨hcount, -⟩ := h _ last hlast
      rw [hsave, hdelete, hport, Prod.mk.eta, List.count_append, List.count_append,
        List.count_singleton_self, List.count_singleton] at hcount
      by_contra hne
      rw [if_neg (by simpa using hne)] at hcount
      omega
    · refine (h _ l hl).2 ?_
      rw [hport]
      exact List.count_pos_iff.mpr hhop
  · rintro ⟨heq, htrailing⟩ ab l hl
    rw [heq, ← hsave] at hdelete
    rw [hdelete]
    exact ⟨rfl, fun hpos => htrailing _ (List.count_pos_iff.mp hpos) l hl rfl⟩

/-- A router with one route. -/
def routerWith (E : Env) (p : Flow) (rt : Route) : Router :=
  { Router.init E with routes := Function.update (fun _ => {}) p rt }

/-- The flow of the routers below. -/
def leafFlow : Flow := ("172.16.1.1", "172.16.5.1")

/-- From a leaf over a spine to a leaf, entering both switches by ports of one name. -/
def overSpine : Router :=
  routerWith leafSpine leafFlow
    { seq := 1, indev := "Leaf1", inport := "eth-0-1", pass := [("Spine1", "Eth1")],
      outdev := "Leaf2", outport := "Eth1" }

theorem del_save_iff_overSpine :
    (delRouteInLinks leafSpine (saveRouteInLinks leafSpine overSpine leafFlow) leafFlow).map
      Router.links = some overSpine.links :=
  ((del_save_iff (r := overSpine) (p := leafFlow) (by decide +kernel)).mpr
    ⟨by decide +kernel, by decide +kernel, by decide +kernel⟩).1

/-- From one leaf to the other over the first of their two links. -/
def overLink : Router :=
  routerWith twoLeaves leafFlow
    { seq := 1, indev := "Leaf1", inport := "eth-0-1", outdev := "Leaf2", outport := "Eth1" }

/-- The entry of a direct route stays. -/
theorem not_del_save_overLink :
    PortsDistinct twoLeaves ∧ (overLink.routes leafFlow).IsPath overLink.links ∧
      (overLink.links ("Leaf1", "Leaf2")).map Link.flows = [[], []] ∧
      (delRouteInLinks twoLeaves (saveRouteInLinks twoLeaves overLink leafFlow) leafFlow).map
        (fun r => (r.links ("Leaf1", "Leaf2")).map Link.flows) = some [[leafFlow], []] :=
  ⟨by unfold PortsDistinct; decide, by decide +kernel, by decide +kernel, by decide +kernel⟩

/-! ## §4 — the links a route marks -/

/-- The switches behind the first passed one, whatever their ports. -/
theorem middleHops_fst (out : PathHop) (rest : List PathHop) (first : PathHop) :
    ((first.1 :: rest.map Prod.fst).zip (rest ++ [out])).map (fun step => (step.1, step.2.1))
      = ((first :: rest).zip rest).map (fun ab => (ab.1.1, ab.2.1))
        ++ [((rest.getLastD first).1, out.1)] := by
  induction rest generalizing first with
  | nil => rfl
  | cons b rest ih =>
    have htail := ih b
    simp only [List.map_cons, List.cons_append, List.zip_cons_cons, List.getLastD_cons] at htail ⊢
    rw [htail]

/-- The loops of the saving and the hops of the route differ in the switch they start from and in
the ports of the middle, not in the switches between. -/
theorem saveHops_map_fst {first : PathHop} {rest : List PathHop} (hpass : rt.pass = first :: rest) :
    ∃ pairs, (saveHops E p rt).map Prod.fst = (E.serverIpToSwitchName p.1, first.1) :: pairs ∧
      rt.hops.map Prod.fst = (rt.indev, first.1) :: pairs := by
  have htail := middleHops_fst (rt.outdev, rt.outport) rest first
  refine ⟨((first :: rest).zip rest).map (fun ab => (ab.1.1, ab.2.1)) ++
    [((rest.getLastD first).1, rt.outdev)], ?_, ?_⟩
  · unfold saveHops
    rw [hpass]
    simp only [List.map_cons, List.map_append, middleHops, List.map_map]
    rfl
  · unfold Route.hops
    rw [hpass]
    simp only [List.map_cons, List.cons_append, List.zip_cons_cons, List.map_map] at htail ⊢
    exact congrArg _ htail

/-- Two lists of hops over the same pairs of switches, none twice, of which one contains the
other. -/
theorem hops_eq_of_subset {hops hops' : List Hop} (hfst : hops.map Prod.fst = hops'.map Prod.fst)
    (hnodup : (hops.map Prod.fst).Nodup) (hsubset : hops ⊆ hops') : hops = hops' := by
  induction hops generalizing hops' with
  | nil => simpa using hfst.symm
  | cons hop hops ih =>
    cases hops' with
    | nil => simp at hfst
    | cons hop' hops' =>
      rw [List.map_cons, List.map_cons, List.cons.injEq] at hfst
      rw [List.map_cons, List.nodup_cons] at hnodup
      have hhead : hop = hop' := by
        rcases List.mem_cons.mp (hsubset List.mem_cons_self) with heq | hmem
        · exact heq
        · exact absurd (hfst.2 ▸ List.mem_map_of_mem hmem) hnodup.1
      have htail : hops ⊆ hops' := by
        intro x hx
        rcases List.mem_cons.mp (hsubset (List.mem_cons_of_mem hop hx)) with heq | hmem
        · rw [hhead, ← heq] at hnodup
          exact absurd (List.mem_map_of_mem hx) hnodup.1
        · exact hmem
      rw [hhead, ih hfst.2 hnodup.2 htail]

theorem hops_map_snd (rt : Route) : rt.hops.map Prod.snd = rt.pass.map Prod.snd ++ [rt.outport] := by
  have hzip : ((rt.indev :: rt.pass.map Prod.fst).zip (rt.pass ++ [(rt.outdev, rt.outport)])).map
      Prod.snd = rt.pass ++ [(rt.outdev, rt.outport)] := List.map_snd_zip (by simp)
  have hports := congrArg (List.map Prod.snd) hzip
  rw [List.map_map, List.map_append] at hports
  unfold Route.hops
  rw [List.map_map]
  exact hports

/-- Loops that run along the hops of the route compare with one port. -/
theorem onePort_of_saveHops_eq (h : saveHops E p rt = rt.hops) : OnePort rt.pass := by
  have hports := congrArg (List.map Prod.snd) h
  rw [hops_map_snd] at hports
  unfold saveHops at hports
  cases hpass : rt.pass with
  | nil => exact fun a ha => absurd ha (by simp)
  | cons first rest =>
    rw [hpass] at hports
    simp only [List.map_cons, List.map_append, List.map_nil, middleHops, List.map_map,
      List.cons_append, List.cons.injEq, true_and] at hports
    have hrest := List.append_cancel_right hports
    have hfirst : ∀ b ∈ first :: rest, b.2 = first.2 := by
      intro b hb
      rcases List.mem_cons.mp hb with rfl | hb
      · rfl
      · have hmem : b.2 ∈ rest.map Prod.snd := List.mem_map_of_mem hb
        rw [← hrest] at hmem
        obtain ⟨ab, -, hab⟩ := List.mem_map.mp hmem
        exact hab.symm
    exact fun a ha b hb => (hfirst a ha).trans (hfirst b hb).symm

/-- If every hop of the route is marked, the loops select every one of them. -/
theorem hops_subset_of_marks (hpath : rt.IsPath links)
    (hmarks : ∀ ab, editHops (· ++ [p]) links (saveHops E p rt) ab = (links ab).map fun l =>
      if (ab, l.port2) ∈ rt.hops then { l with flows := l.flows ++ [p] } else l) :
    rt.hops ⊆ saveHops E p rt := by
  intro hop hhop
  obtain ⟨l, hl, hport⟩ := hpath hop hhop
  have hmap := hmarks hop.1
  rw [editHops_eq_iterate, List.map_inj_left] at hmap
  have hflows := congrArg (fun l => l.flows.length) (hmap l hl)
  rw [hport, Prod.mk.eta, if_pos hhop] at hflows
  simp only [iterate_append, List.length_append, List.length_replicate] at hflows
  exact List.count_pos_iff.mp (by simp at hflows; omega)

/-- Loops that select every hop run along the hops of the route, from the switch of the source. -/
theorem saveHops_eq_of_subset {first : PathHop} {rest : List PathHop}
    (hpass : rt.pass = first :: rest) (hsimple : (rt.hops.map Prod.fst).Nodup)
    (hsubset : rt.hops ⊆ saveHops E p rt) :
    E.serverIpToSwitchName p.1 = rt.indev ∧ saveHops E p rt = rt.hops := by
  obtain ⟨pairs, hsave, hhops⟩ := saveHops_map_fst (E := E) (p := p) hpass
  have hstart : E.serverIpToSwitchName p.1 = rt.indev := by
    have hmem : (rt.indev, first.1) ∈ (saveHops E p rt).map Prod.fst := by
      refine List.map_subset Prod.fst hsubset ?_
      rw [hhops]
      exact List.mem_cons_self
    rw [hsave] at hmem
    rcases List.mem_cons.mp hmem with heq | hmem
    · exact (congrArg Prod.fst heq).symm
    · rw [hhops] at hsimple
      exact absurd hmem (List.nodup_cons.mp hsimple).1
  exact ⟨hstart, (hops_eq_of_subset (by rw [hsave, hhops, hstart]) hsimple hsubset).symm⟩

/-- **The links a route marks.** For a route of existing links that runs between no two switches
twice, `save_route_in_links` appends the pair to the links of its hops, once each, and leaves every
other link alone, exactly when the route is direct, or starts at the switch of the source and enters
all passed switches by ports of one name. -/
theorem saveRouteInLinks_marks_iff (hpath : (r.routes p).IsPath r.links)
    (hsimple : ((r.routes p).hops.map Prod.fst).Nodup) :
    (∀ ab, (saveRouteInLinks E r p).links ab = (r.links ab).map fun l =>
      if (ab, l.port2) ∈ (r.routes p).hops then { l with flows := l.flows ++ [p] } else l) ↔
    (r.routes p).pass = [] ∨
      (E.serverIpToSwitchName p.1 = (r.routes p).indev ∧ OnePort (r.routes p).pass) := by
  have hsaved : (saveRouteInLinks E r p).links =
      editHops (· ++ [p]) r.links (saveHops E p (r.routes p)) := rfl
  rw [hsaved]
  generalize r.routes p = rt at hpath hsimple ⊢
  constructor
  · intro hmarks
    have hsubset := hops_subset_of_marks hpath hmarks
    cases hpass : rt.pass with
    | nil => exact .inl rfl
    | cons first rest =>
      obtain ⟨hstart, heq⟩ := saveHops_eq_of_subset hpass hsimple hsubset
      refine .inr ⟨hstart, ?_⟩
      rw [← hpass]
      exact onePort_of_saveHops_eq heq
  · intro hcond ab
    have heq : saveHops E p rt = rt.hops := by
      rcases hcond with hdirect | ⟨hstart, hport⟩
      · unfold saveHops Route.hops
        rw [hdirect]
        rfl
      · exact saveHops_eq hstart.symm hport
    rw [heq]
    exact editHops_apply hsimple _ _ ab

theorem saveRouteInLinks_marks_iff_overSpine :
    (saveRouteInLinks leafSpine overSpine leafFlow).links ("Leaf1", "Spine1") =
      (overSpine.links ("Leaf1", "Spine1")).map fun l =>
        if (("Leaf1", "Spine1"), l.port2) ∈ (overSpine.routes leafFlow).hops then
          { l with flows := l.flows ++ [leafFlow] } else l :=
  (saveRouteInLinks_marks_iff (r := overSpine) (p := leafFlow) (by decide +kernel)
    (by decide +kernel)).mpr (.inr ⟨by decide +kernel, by decide +kernel⟩) _

/-- The two leaves joined over two spines in a row. -/
def spineChain : Env :=
  { leafSpine with
    linklist :=
      [⟨"Leaf1", "Eth1", "Spine1", "Eth1"⟩, ⟨"Spine1", "Eth2", "Spine2", "Eth3"⟩,
        ⟨"Spine2", "Eth4", "Leaf2", "Eth1"⟩] }

/-- The route along the chain. -/
def overChain : Router :=
  routerWith spineChain leafFlow
    { seq := 1, indev := "Leaf1", inport := "eth-0-1",
      pass := [("Spine1", "Eth1"), ("Spine2", "Eth3")], outdev := "Leaf2", outport := "Eth1" }

/-- The link between the spines is not marked: the loop compares its port with the one of the link
before. -/
theorem not_saveRouteInLinks_marks_overChain :
    PortsDistinct spineChain ∧ (overChain.routes leafFlow).IsPath overChain.links ∧
      (("Spine1", "Spine2"), "Eth3") ∈ (overChain.routes leafFlow).hops ∧
      (saveRouteInLinks spineChain overChain leafFlow).links ("Spine1", "Spine2")
        = [⟨"Eth2", "Eth3", []⟩] :=
  ⟨by unfold PortsDistinct; decide, by decide +kernel, by decide +kernel, by decide +kernel⟩

end Route

end SDNware.Server
