/-
# SDNware.Server.PairStep — what one pair of `update_route` can do.

`get_route` compares the path it found with the stored route entry by entry, retires the old route
at the first difference and overwrites as it goes; the flag `del` keeps it from retiring twice.
`applyRoute_installed` shows that the net effect does not depend on where the difference was: either the
stored route already follows the path, or the old one is retired whole, while it is still in place,
and the new one installed.  Retiring erases the flow from links, and an `erase` that does not find it
returns only if the platform's does (`ErasesReturn`).  `PairStep` lists the four outcomes of a pair,
and `pairStep_cases` is the inversion every invariant of the router is proved from.
-/
import Mathlib.Data.List.GetD
import SDNware.Server.Router

namespace SDNware.Server

variable {E : Env} {r : Router} {p : Flow} {path : List PathHop}

/-! ## §1 — erasing -/

/-- What an `erase` leaves of the flows, those themselves if it does not return. -/
def erased (E : Env) (p : Flow) (flows : List Flow) : List Flow := (eraseFlow E p flows).getD flows

theorem erased_of_mem {flows : List Flow} (h : p ∈ flows) : erased E p flows = flows.erase p := by
  unfold erased eraseFlow
  rw [if_pos h, Option.getD_some]

theorem eraseFlow_isSome {flows : List Flow} :
    (eraseFlow E p flows).isSome ↔ p ∈ flows ∨ (E.eraseEnd flows).isSome := by
  unfold eraseFlow
  by_cases h : p ∈ flows <;> simp [h]

/-- The `erase` of the loop at a link returns: it finds the flow, or takes the end iterator. -/
def EraseReturns (E : Env) (p : Flow) (links : Links) (hop : Hop) : Prop :=
  ∀ l ∈ links hop.1, l.port2 = hop.2 → p ∈ l.flows ∨ (E.eraseEnd l.flows).isSome

/-- All of them return, one loop after the other. -/
def ErasesReturn (E : Env) (p : Flow) : Links → List Hop → Prop
  | _, [] => True
  | links, hop :: hops =>
    EraseReturns E p links hop ∧ ErasesReturn E p (editHop (erased E p) links hop) hops

instance (E : Env) (p : Flow) (links : Links) (hop : Hop) : Decidable (EraseReturns E p links hop) :=
  inferInstanceAs (Decidable (∀ l ∈ links hop.1, _))

instance ErasesReturn.decidable (E : Env) (p : Flow) :
    ∀ links hops, Decidable (ErasesReturn E p links hops)
  | _, [] => isTrue trivial
  | links, hop :: hops =>
    have := ErasesReturn.decidable E p (editHop (erased E p) links hop) hops
    inferInstanceAs (Decidable (_ ∧ _))

theorem eraseHop_of_returns {links : Links} {hop : Hop} (h : EraseReturns E p links hop) :
    eraseHop E p links hop = some (editHop (erased E p) links hop) := by
  unfold eraseHop editHop
  rw [Run.mapM_of_forall (g := fun l => if l.port2 = hop.2 then { l with flows := erased E p l.flows } else l)]
  · rfl
  · intro l hl
    by_cases hport : l.port2 = hop.2
    · obtain ⟨flows, hflows⟩ := Option.isSome_iff_exists.mp (eraseFlow_isSome.mpr (h l hl hport))
      rw [if_pos hport, if_pos hport, erased, hflows]
      rfl
    · rw [if_neg hport, if_neg hport]

theorem eraseHop_of_not {links : Links} {hop : Hop} (h : ¬ EraseReturns E p links hop) :
    eraseHop E p links hop = none := by
  unfold EraseReturns at h
  push Not at h
  obtain ⟨l, hl, hport, habsent, hend⟩ := h
  have hnone : eraseFlow E p l.flows = none := by
    rw [Option.eq_none_iff_forall_ne_some]
    intro flows hflows
    exact (eraseFlow_isSome.mp (Option.isSome_iff_exists.mpr ⟨flows, hflows⟩)).elim habsent hend
  unfold eraseHop
  rw [Run.mapM_of_none hl (by rw [if_pos hport, hnone]; rfl)]
  rfl

theorem eraseHops_of_returns {hops : List Hop} {links : Links} (h : ErasesReturn E p links hops) :
    hops.foldlM (eraseHop E p) links = some (editHops (erased E p) links hops) := by
  induction hops generalizing links with
  | nil => rfl
  | cons hop hops ih =>
    rw [List.foldlM_cons, eraseHop_of_returns h.1]
    exact ih h.2

theorem eraseHops_of_not {hops : List Hop} {links : Links} (h : ¬ ErasesReturn E p links hops) :
    hops.foldlM (eraseHop E p) links = none := by
  induction hops generalizing links with
  | nil => exact absurd trivial h
  | cons hop hops ih =>
    rw [List.foldlM_cons]
    by_cases hfirst : EraseReturns E p links hop
    · rw [eraseHop_of_returns hfirst]
      exact ih fun hrest => h ⟨hfirst, hrest⟩
    · rw [eraseHop_of_not hfirst]
      rfl

/-- The `erase` calls of `del_route_in_links` for a pair return. -/
def Router.RetireReturns (E : Env) (r : Router) (p : Flow) : Prop :=
  ErasesReturn E p r.links (delHops E p (r.routes p) (r.routes (p.1, p.1)).outdev)

instance (E : Env) (r : Router) (p : Flow) : Decidable (r.RetireReturns E p) :=
  inferInstanceAs (Decidable (ErasesReturn ..))

theorem delRouteInLinks_of_returns (h : r.RetireReturns E p) :
    delRouteInLinks E r p = some { r with
      links := editHops (erased E p) r.links
        (delHops E p (r.routes p) (r.routes (p.1, p.1)).outdev)
      routes := Function.update r.routes p { r.routes p with del := true } } := by
  unfold delRouteInLinks
  rw [eraseHops_of_returns h]
  rfl

theorem delRouteInLinks_of_not (h : ¬ r.RetireReturns E p) : delRouteInLinks E r p = none := by
  unfold delRouteInLinks
  rw [eraseHops_of_not h]
  rfl

/-! ## §2 — retiring and overwriting -/

@[simp] theorem setRoute_routes_self (r : Router) (p : Flow) (rt : Route) :
    (r.setRoute p rt).routes p = rt := Function.update_self ..

@[simp] theorem setRoute_setRoute (r : Router) (p : Flow) (rt rt' : Route) :
    (r.setRoute p rt).setRoute p rt' = r.setRoute p rt' := by
  unfold Router.setRoute
  simp only [Function.update_idem]

@[simp] theorem setRoute_self (r : Router) (p : Flow) : r.setRoute p (r.routes p) = r := by
  unfold Router.setRoute
  rw [Function.update_eq_self]

theorem retire_of_del (h : (r.routes p).del = true) : retire E r p = some r := by
  unfold retire
  rw [if_pos h]

/-- The router with the old route out of the links and out of the controller. -/
def retired (E : Env) (r : Router) (p : Flow) : Router :=
  { r with
    links := editHops (erased E p) r.links
      (delHops E p (r.routes p) (r.routes (p.1, p.1)).outdev)
    log := r.log ++ [.delete (r.routes p).seq] }

theorem retire_of_not_del (h : (r.routes p).del = false) :
    retire E r p = if r.RetireReturns E p then
      some ((retired E r p).setRoute p { r.routes p with del := true }) else none := by
  unfold retire
  rw [if_neg (by rw [h]; decide)]
  -- the request sent before does not matter to the links
  by_cases hreturns : r.RetireReturns E p
  · rw [if_pos hreturns]
    exact delRouteInLinks_of_returns (r := delRoute r (r.routes p).seq) hreturns
  · rw [if_neg hreturns]
    exact delRouteInLinks_of_not (r := delRoute r (r.routes p).seq) hreturns

/-- What retiring leaves of the route itself. -/
theorem retire_some {r' : Router} (h : retire E r p = some r') :
    (r'.routes p).del = true ∧ (r'.routes p).pass = (r.routes p).pass := by
  cases hdel : (r.routes p).del with
  | true =>
    rw [retire_of_del hdel] at h
    obtain rfl := Option.some.inj h
    exact ⟨hdel, rfl⟩
  | false =>
    rw [retire_of_not_del hdel] at h
    split at h
    · obtain rfl := Option.some.inj h
      rw [setRoute_routes_self]
      exact ⟨rfl, rfl⟩
    · exact absurd h (by simp)

theorem setPass_setPass (r : Router) (p : Flow) (a b : List PathHop) :
    (r.setPass p a).setPass p b = r.setPass p b := by
  unfold Router.setPass
  rw [setRoute_setRoute, setRoute_routes_self]

/-- Once retired, a route is overwritten without being retired again. -/
theorem retire_setPass {r' : Router} (hdel : (r'.routes p).del = true) (a : List PathHop) :
    retire E (r'.setPass p a) p = some (r'.setPass p a) := by
  apply retire_of_del
  show ((r'.setRoute p _).routes p).del = true
  rw [setRoute_routes_self]
  exact hdel

theorem setPass_pass (r : Router) (p : Flow) (a : List PathHop) :
    ((r.setPass p a).routes p).pass = a := by
  unfold Router.setPass
  rw [setRoute_routes_self]

/-! ## §3 — the comparison loop -/

theorem modify_eq_set {l : List PathHop} {k : Nat} (hk : k < l.length) (f : PathHop → PathHop) :
    l.modify k f = l.set k (f (l.getD k ("", ""))) := by
  rw [List.getD_eq_getElem l _ hk]
  exact List.modify_eq_set_get f hk

/-- One round: entry `k` becomes that of the path, the old route being retired if it was another. -/
theorem passStep_eq {st : Bool × Router} {k : Nat} (hk : k < (st.2.routes p).pass.length) :
    passStep E p path st k =
      if (st.2.routes p).pass.getD k ("", "") = path.getD k ("", "") then some st
      else (retire E st.2 p).map fun r =>
        (true, r.setPass p ((st.2.routes p).pass.set k (path.getD k ("", "")))) := by
  unfold passStep
  generalize hnew : path.getD k ("", "") = new
  generalize hold : (st.2.routes p).pass.getD k ("", "") = old
  obtain ⟨old1, old2⟩ := old
  obtain ⟨new1, new2⟩ := new
  have hmod : ∀ f, (st.2.routes p).pass.modify k f = (st.2.routes p).pass.set k (f (old1, old2)) := by
    intro f
    rw [modify_eq_set hk, hold]
  cases hretire : retire E st.2 p with
  | none => by_cases h1 : old1 = new1 <;> by_cases h2 : old2 = new2 <;> simp [h1, h2, hretire]
  | some r =>
    obtain ⟨hdel, hpass⟩ := retire_some hretire
    by_cases h1 : old1 = new1
    · by_cases h2 : old2 = new2
      · simp [h1, h2]
      · simp [h1, h2, hretire, hpass, hmod]
    · by_cases h2 : old2 = new2
      · simp [h1, h2, hpass, hmod]
      · -- the route is retired once, and the entry written in two steps
        have hset : ((st.2.routes p).pass.set k (new1, old2)).modify k (fun hop => (hop.1, new2))
            = (st.2.routes p).pass.set k (new1, new2) := by
          rw [modify_eq_set (by simpa using hk), List.set_set,
            List.getD_eq_getElem _ _ (by simpa using hk), List.getElem_set_self]
        simp [h1, h2, hpass, hmod, retire_setPass hdel, setPass_pass, setPass_setPass, hset]

/-- `old` with its first `k` entries overwritten by those of `path`. -/
def overwritten (path old : List PathHop) (k : Nat) : List PathHop := path.take k ++ old.drop k

section Overwritten

variable {old : List PathHop} {k : Nat}

theorem overwritten_length (hk : k ≤ old.length) (hp : k ≤ path.length) :
    (overwritten path old k).length = old.length := by
  simp only [overwritten, List.length_append, List.length_take, List.length_drop]
  omega

theorem overwritten_getD (hk : k < old.length) (hp : k < path.length) :
    (overwritten path old k).getD k ("", "") = old.getD k ("", "") := by
  have hlen : (path.take k).length = k := by rw [List.length_take]; omega
  unfold overwritten
  rw [List.getD_append_right _ _ _ _ hlen.le, hlen, Nat.sub_self,
    List.drop_eq_getElem_cons hk, List.getD_cons_zero, List.getD_eq_getElem _ _ hk]

theorem overwritten_set (hk : k < old.length) (hp : k < path.length) :
    (overwritten path old k).set k (path.getD k ("", "")) = overwritten path old (k + 1) := by
  have hlen : (path.take k).length = k := by rw [List.length_take]; omega
  unfold overwritten
  rw [List.set_append_right _ _ hlen.le, hlen, Nat.sub_self, List.drop_eq_getElem_cons hk,
    List.set_cons_zero, List.getD_eq_getElem _ _ hp, ← List.take_append_getElem hp,
    List.append_assoc, List.singleton_append]

/-- Overwriting an entry that is already the path's changes nothing. -/
theorem overwritten_succ_of_eq (hk : k < old.length) (hp : k < path.length)
    (h : old.getD k ("", "") = path.getD k ("", "")) :
    overwritten path old (k + 1) = overwritten path old k := by
  rw [← overwritten_set hk hp, ← h, ← overwritten_getD hk hp,
    List.getD_eq_getElem _ _ (by rw [overwritten_length hk.le hp.le]; exact hk), List.set_getElem_self]

theorem overwritten_of_take_eq (h : old.take k = path.take k) : overwritten path old k = old := by
  unfold overwritten
  rw [← h, List.take_append_drop]

theorem take_succ_eq_iff (hk : k < old.length) (hp : k < path.length) :
    old.take (k + 1) = path.take (k + 1) ↔
      old.take k = path.take k ∧ old.getD k ("", "") = path.getD k ("", "") := by
  have hlen : (old.take k).length = (path.take k).length := by
    simp only [List.length_take]
    omega
  rw [← List.take_append_getElem hk, ← List.take_append_getElem hp, List.getD_eq_getElem _ _ hk,
    List.getD_eq_getElem _ _ hp]
  constructor
  · intro h
    obtain ⟨htake, hentry⟩ := List.append_inj h hlen
    exact ⟨htake, List.singleton_inj.mp hentry⟩
  · rintro ⟨htake, hentry⟩
    rw [htake, hentry]

end Overwritten

/-- The first `k` rounds. -/
theorem passLoop_prefix (hlen : path.length = (r.routes p).pass.length + 1) :
    ∀ k ≤ (r.routes p).pass.length,
      (List.range k).foldlM (passStep E p path) (false, r) =
        if (r.routes p).pass.take k = path.take k then some (false, r)
        else (retire E r p).map fun r' =>
          (true, r'.setPass p (overwritten path (r.routes p).pass k)) := by
  intro k
  induction k with
  | zero => intro _; simp
  | succ k ih =>
    intro hle
    have hk : k < (r.routes p).pass.length := hle
    have hp : k < path.length := by omega
    rw [List.range_succ, List.foldlM_append, ih (by omega)]
    simp only [List.foldlM_cons, List.foldlM_nil, take_succ_eq_iff hk hp, bind_pure]
    by_cases hsame : (r.routes p).pass.take k = path.take k
    · -- nothing retired so far
      rw [if_pos hsame, Option.bind_eq_bind, Option.bind_some, passStep_eq hk]
      by_cases hentry : (r.routes p).pass.getD k ("", "") = path.getD k ("", "")
      · rw [if_pos hentry, if_pos ⟨hsame, hentry⟩]
      · rw [if_neg hentry, if_neg fun h => hentry h.2, ← overwritten_set hk hp,
          overwritten_of_take_eq hsame]
    · -- retired before: only the entry changes
      rw [if_neg hsame, if_neg fun h => hsame h.1]
      cases hretire : retire E r p with
      | none => rfl
      | some r' =>
        have hpass := setPass_pass r' p (overwritten path (r.routes p).pass k)
        simp only [Option.map_some, Option.bind_eq_bind, Option.bind_some]
        rw [passStep_eq, hpass, overwritten_getD hk hp]
        · by_cases hentry : (r.routes p).pass.getD k ("", "") = path.getD k ("", "")
          · rw [if_pos hentry, overwritten_succ_of_eq hk hp hentry]
          · rw [if_neg hentry, retire_setPass (retire_some hretire).1, Option.map_some,
              setPass_setPass, overwritten_set hk hp]
        · rw [hpass, overwritten_length hk.le hp.le]
          exact hk

/-- **The comparison with the stored route.** For an installed route, whichever branch is taken: no
change if the intermediate switches and ports are those of the path, else the old route is retired
and the new one written over it. -/
theorem assignPass_installed (hseq : (r.routes p).seq ≠ -1) (hpath : path ≠ []) :
    assignPass E r p path =
      if (r.routes p).pass = path.dropLast then some (false, r)
      else (retire E r p).map fun r' => (true, r'.setPass p path.dropLast) := by
  have hpos : 0 < path.length := List.length_pos_iff.mpr hpath
  unfold assignPass
  dsimp only
  rw [if_neg hseq]
  by_cases hlen : path.length = (r.routes p).pass.length + 1
  · rw [if_neg (not_not.mpr hlen)]
    have hk : path.length - 1 = (r.routes p).pass.length := by omega
    have hdrop : path.take (r.routes p).pass.length = path.dropLast := by
      rw [List.dropLast_eq_take, hk]
    rw [hk, passLoop_prefix hlen _ le_rfl, List.take_length, hdrop]
    unfold overwritten
    rw [hdrop, List.drop_length, List.append_nil]
  · rw [if_pos hlen]
    have hne : (r.routes p).pass ≠ path.dropLast := by
      intro heq
      rw [heq, List.length_dropLast] at hlen
      omega
    rw [if_neg hne]

/-! ## §4 — the outcome of `get_route` -/

/-- A route along a path. -/
def Route.follow (rt : Route) (E : Env) (p : Flow) (path : List PathHop) : Route :=
  { rt with
    del := false
    pass := path.dropLast
    outdev := outName E p
    outport := lastPort path }

/-- The stored route needs no change for the path. -/
def Route.Follows (rt : Route) (path : List PathHop) : Prop :=
  rt.pass = path.dropLast ∧ (rt.outport = "" ∨ rt.outport = lastPort path)

instance (rt : Route) (path : List PathHop) : Decidable (rt.Follows path) :=
  inferInstanceAs (Decidable (_ ∧ _))

/-- The route assigned to the pair and recorded on its links. -/
def booked (E : Env) (r : Router) (p : Flow) (rt : Route) : Router :=
  { r with
    links := editHops (· ++ [p]) r.links (saveHops E p rt)
    routes := Function.update r.routes p rt }

theorem saveRouteInLinks_setRoute (E : Env) (r : Router) (p : Flow) (rt : Route) :
    saveRouteInLinks E (r.setRoute p rt) p = booked E r p { rt with del := false } := by
  unfold saveRouteInLinks booked
  rw [setRoute_routes_self]
  simp only [Router.setRoute, Function.update_idem]
  rfl

/-- `outdev` and `outport` of a route that is new, or already marked deleted: nothing is retired. -/
theorem assignOut_setRoute {rt : Route} {u : Bool}
    (h : rt.outport = "" ∨ rt.del = true ∧ u = true) :
    assignOut E p path (u, r.setRoute p rt)
      = some (u, r.setRoute p { rt with outdev := outName E p, outport := lastPort path }) := by
  unfold assignOut
  simp only [setRoute_routes_self, setRoute_setRoute]
  by_cases hempty : rt.outport = ""
  · rw [if_pos hempty]
  · obtain ⟨hdel, rfl⟩ := h.resolve_left hempty
    rw [if_neg hempty]
    have hretire : retire E (r.setRoute p { rt with outdev := outName E p }) p
        = some (r.setRoute p { rt with outdev := outName E p }) :=
      retire_of_del (by rw [setRoute_routes_self]; exact hdel)
    split
    · simp only [hretire, Option.map_some, setRoute_routes_self, setRoute_setRoute]
    · rename_i hport
      rw [← not_not.mp hport]

/-- The assignments when the intermediate switches are those of the path. -/
theorem assignOut_of_not_del {u : Bool} (hdel : (r.routes p).del = false)
    (hout : (r.routes p).outdev = outName E p) :
    assignOut E p path (u, r) =
      if (r.routes p).outport = "" ∨ (r.routes p).outport = lastPort path then
        some (u, r.setRoute p { r.routes p with outport := lastPort path })
      else if r.RetireReturns E p then
        some (true, (retired E r p).setRoute p
          { r.routes p with del := true, outport := lastPort path })
      else none := by
  have hrt : { r.routes p with outdev := outName E p } = r.routes p := by rw [← hout]
  unfold assignOut
  simp only [hrt, setRoute_self]
  by_cases hempty : (r.routes p).outport = ""
  · rw [if_pos hempty, if_pos (Or.inl hempty)]
  · rw [if_neg hempty]
    by_cases hport : (r.routes p).outport = lastPort path
    · rw [if_neg (not_not.mpr hport), if_pos (Or.inr hport), ← hport, setRoute_self]
    · rw [if_pos hport, if_neg fun h => h.elim hempty hport, retire_of_not_del hdel]
      split
      · rw [Option.map_some, setRoute_routes_self, setRoute_setRoute]
      · rfl

/-- **An installed route and a path**: kept if it follows the path, else retired whole and replaced. -/
theorem applyRoute_installed (hseq : (r.routes p).seq ≠ -1) (hdel : (r.routes p).del = false)
    (hout : (r.routes p).outdev = outName E p) (hpath : path ≠ []) :
    applyRoute E r p path =
      if (r.routes p).Follows path then some (false, r.setRoute p ((r.routes p).follow E p path))
      else if r.RetireReturns E p then
        some (true, booked E (retired E r p) p ((r.routes p).follow E p path))
      else none := by
  unfold applyRoute
  rw [assignPass_installed hseq hpath]
  by_cases hpass : (r.routes p).pass = path.dropLast
  · -- only the last port can differ
    have hfollow : (r.routes p).follow E p path = { r.routes p with outport := lastPort path } := by
      unfold Route.follow
      rw [← hpass, ← hdel, ← hout]
    rw [if_pos hpass, Option.bind_some, hfollow, assignOut_of_not_del hdel hout]
    by_cases hport : (r.routes p).outport = "" ∨ (r.routes p).outport = lastPort path
    · simp only [if_pos hport, if_pos (show (r.routes p).Follows path from ⟨hpass, hport⟩),
        Option.map_some, Bool.false_eq_true, if_false]
    · rw [if_neg hport, if_neg (show ¬ (r.routes p).Follows path from fun h => hport h.2)]
      split
      · simp only [Option.map_some, if_true, saveRouteInLinks_setRoute, hdel]
      · rfl
  · rw [if_neg hpass, if_neg (show ¬ (r.routes p).Follows path from fun h => hpass h.1),
      retire_of_not_del hdel]
    split
    · unfold Router.setPass
      rw [Option.map_some, Option.bind_some, setRoute_routes_self, setRoute_setRoute,
        assignOut_setRoute (Or.inr ⟨rfl, rfl⟩)]
      simp only [Option.map_some, if_true, saveRouteInLinks_setRoute]
      rfl
    · rfl

/-- **A first route.** -/
theorem applyRoute_fresh (hfresh : r.routes p = {}) :
    applyRoute E r p path =
      ((E.serverIpToIf p.1).bind (E.idxToIfname (E.switchIdxToIp (serverIdx E p.1)))).map
        fun inport => (true, booked E { r with seq := r.seq + 1 } p
          (Route.follow { seq := r.seq, indev := E.switchIdxToName (serverIdx E p.1), inport := inport }
            E p path)) := by
  unfold applyRoute assignPass
  simp only [hfresh, if_true, List.nil_append]
  cases E.serverIpToIf p.1 with
  | none => rfl
  | some port =>
    simp only [Option.bind_some]
    cases E.idxToIfname (E.switchIdxToIp (serverIdx E p.1)) port with
    | none => rfl
    | some inport =>
      -- the counter is bumped around the assignment to the route
      have hst : ∀ rt : Route, { r.setRoute p rt with seq := r.seq + 1 }
          = Router.setRoute { r with seq := r.seq + 1 } p rt := fun _ => rfl
      simp only [Option.map_some, Option.bind_some, hst]
      rw [assignOut_setRoute (Or.inl rfl)]
      simp only [Option.map_some, if_true, saveRouteInLinks_setRoute]
      rfl

/-! ## §5 — the outcomes of a pair -/

/-- What every router between two pairs satisfies: a pair has no route at all or an installed one,
not marked deleted, to its destination's switch; `n_route` counts the list; sequence numbers start
at 1. -/
structure Router.Wf (E : Env) (r : Router) : Prop where
  route : ∀ p, r.routes p = {} ∨
    (r.routes p).seq ≠ -1 ∧ (r.routes p).del = false ∧ (r.routes p).outdev = outName E p
  list : r.nRoute = r.routeList.length
  counter : 1 ≤ r.seq

theorem wf_init (E : Env) : (Router.init E).Wf E := ⟨fun _ => Or.inl rfl, rfl, le_rfl⟩

/-- The router after `get_route`, `add_route` and `save_route` for a pair whose route is now `rt`. -/
def installed (E : Env) (r : Router) (p : Flow) (rt : Route) (now : Int) : Router :=
  { r with
    links := editHops (· ++ [p]) r.links (saveHops E p rt)
    routes := Function.update r.routes p { rt with tm := now }
    nRoute := r.nRoute + 1
    routeList := r.routeList ++ [⟨p, now⟩]
    log := r.log ++ [.save (flowPath p rt)] }

/-- The first route of a pair. -/
def firstRoute (E : Env) (r : Router) (p : Flow) (inport : String) (path : List PathHop) : Route :=
  Route.follow { seq := r.seq, indev := E.switchIdxToName (serverIdx E p.1), inport := inport } E p path

/-- A route that is not marked deleted evicts nothing. -/
theorem addRoute_of_not_del (hdel : (r.routes p).del = false)
    (hlist : r.nRoute = r.routeList.length) (now : Int) :
    addRoute E r p now = some (appendNode r p now r.routeList) := by
  unfold addRoute
  split
  · rename_i h0
    rw [hlist] at h0
    rw [List.length_eq_zero_iff.mp h0]
  · rw [if_neg (by rw [hdel]; simp)]

/-- So `add_route` never evicts after `get_route`: `save_route_in_links` has reset `del`. -/
theorem addRoute_booked (E : Env) (r : Router) (p : Flow) {rt : Route} (hdel : rt.del = false)
    (hlist : r.nRoute = r.routeList.length) (now : Int) :
    (addRoute E (booked E r p rt) p now).map (fun r' => saveRoute r' p)
      = some (installed E r p rt now) := by
  have hroute : (booked E r p rt).routes p = rt := Function.update_self ..
  rw [addRoute_of_not_del (r := booked E r p rt) (by rw [hroute]; exact hdel) hlist,
    Option.map_some]
  unfold saveRoute appendNode installed
  simp only [hroute, Function.update_self]
  unfold booked
  simp only [Function.update_idem]
  rfl

section Cases

variable {R : Type} [DoubleOps R] {rates : RateMap R} {fuel : Nat}

/-- The four outcomes of a pair. -/
inductive PairStep (E : Env) (rates : RateMap R) (fuel : Nat) (now : Int) (r : Router) (p : Flow) :
    Router → Prop
  /-- Both servers on one switch. -/
  | near (h : serverIdx E p.1 = serverIdx E p.2) : PairStep E rates fuel now r p r
  /-- The stored route follows the path. -/
  | keep (path : List PathHop) (hne : serverIdx E p.1 ≠ serverIdx E p.2)
      (hfind : findRoute E rates r.links fuel p = some path) (hseq : (r.routes p).seq ≠ -1)
      (hfollows : (r.routes p).Follows path) :
      PairStep E rates fuel now r p (r.setRoute p ((r.routes p).follow E p path))
  /-- A first route. -/
  | fresh (path : List PathHop) (inport : String) (hne : serverIdx E p.1 ≠ serverIdx E p.2)
      (hfind : findRoute E rates r.links fuel p = some path) (hfresh : r.routes p = {}) :
      PairStep E rates fuel now r p
        (installed E { r with seq := r.seq + 1 } p (firstRoute E r p inport path) now)
  /-- Another route. -/
  | replace (path : List PathHop) (hne : serverIdx E p.1 ≠ serverIdx E p.2)
      (hfind : findRoute E rates r.links fuel p = some path) (hseq : (r.routes p).seq ≠ -1)
      (hnot : ¬ (r.routes p).Follows path) (hreturns : r.RetireReturns E p) :
      PairStep E rates fuel now r p
        (installed E (retired E r p) p ((r.routes p).follow E p path) now)

/-- A far pair without a route, once its path is found. -/
theorem pairStep_fresh (clock : Flow → Int) (hr : r.Wf E) (hne : serverIdx E p.1 ≠ serverIdx E p.2)
    (hfind : findRoute E rates r.links fuel p = some path) (hfresh : r.routes p = {}) :
    pairStep E rates fuel clock r p =
      ((E.serverIpToIf p.1).bind (E.idxToIfname (E.switchIdxToIp (serverIdx E p.1)))).map fun inport =>
        installed E { r with seq := r.seq + 1 } p (firstRoute E r p inport path) (clock p) := by
  have hadd : ∀ inport, (addRoute E (booked E { r with seq := r.seq + 1 } p
      (firstRoute E r p inport path)) p (clock p)).map (fun r' => saveRoute r' p)
        = some (installed E { r with seq := r.seq + 1 } p (firstRoute E r p inport path) (clock p)) :=
    fun inport => addRoute_booked E { r with seq := r.seq + 1 } p rfl hr.list _
  unfold pairStep getRoute
  rw [if_neg hne, hfind, Option.bind_some, applyRoute_fresh hfresh]
  cases (E.serverIpToIf p.1).bind (E.idxToIfname (E.switchIdxToIp (serverIdx E p.1))) with
  | none => rfl
  | some inport => exact hadd inport

/-- A far pair with a route, once its path is found. -/
theorem pairStep_stored (clock : Flow → Int) (hr : r.Wf E)
    (hne : serverIdx E p.1 ≠ serverIdx E p.2)
    (hfind : findRoute E rates r.links fuel p = some path) (hseq : (r.routes p).seq ≠ -1) :
    pairStep E rates fuel clock r p =
      if (r.routes p).Follows path then some (r.setRoute p ((r.routes p).follow E p path))
      else if r.RetireReturns E p then
        some (installed E (retired E r p) p ((r.routes p).follow E p path) (clock p))
      else none := by
  obtain ⟨pass, port, hpath⟩ := (findRoute_path hne hfind).last
  have hpath : path ≠ [] := by simp [hpath]
  obtain ⟨-, hdel, hout⟩ := (hr.route p).resolve_left fun hfresh => hseq (by rw [hfresh])
  unfold pairStep getRoute
  rw [if_neg hne, hfind, Option.bind_some, applyRoute_installed hseq hdel hout hpath]
  by_cases hfollows : (r.routes p).Follows path
  · simp only [if_pos hfollows, Option.bind_some, Bool.false_eq_true, if_false]
  · rw [if_neg hfollows, if_neg hfollows]
    split
    · simp only [Option.bind_some, if_true]
      exact addRoute_booked E (retired E r p) p rfl hr.list _
    · rfl

/-- **What one pair can do.** -/
theorem pairStep_cases {clock : Flow → Int} {r' : Router} (hr : r.Wf E)
    (h : pairStep E rates fuel clock r p = some r') : PairStep E rates fuel (clock p) r p r' := by
  by_cases hne : serverIdx E p.1 = serverIdx E p.2
  · unfold pairStep getRoute at h
    rw [if_pos hne] at h
    obtain rfl : r = r' := by simpa using h
    exact .near hne
  · cases hfind : findRoute E rates r.links fuel p with
    | none =>
      unfold pairStep getRoute at h
      rw [if_neg hne, hfind] at h
      exact absurd h (by simp)
    | some path =>
      rcases hr.route p with hfresh | ⟨hseq, -, -⟩
      · rw [pairStep_fresh clock hr hne hfind hfresh] at h
        obtain ⟨inport, -, rfl⟩ := Option.map_eq_some_iff.mp h
        exact .fresh path inport hne hfind hfresh
      · rw [pairStep_stored clock hr hne hfind hseq] at h
        split at h
        · rename_i hfollows
          obtain rfl := Option.some.inj h
          exact .keep path hne hfind hseq hfollows
        · rename_i hnot
          split at h
          · rename_i hreturns
            obtain rfl := Option.some.inj h
            exact .replace path hne hfind hseq hnot hreturns
          · exact absurd h (by simp)

/-- Storing a route that is not the default one. -/
theorem wf_route_update {rt : Route} (hr : r.Wf E)
    (hrt : rt.seq ≠ -1 ∧ rt.del = false ∧ rt.outdev = outName E p) (q : Flow) :
    Function.update r.routes p rt q = {} ∨
      (Function.update r.routes p rt q).seq ≠ -1 ∧ (Function.update r.routes p rt q).del = false ∧
        (Function.update r.routes p rt q).outdev = outName E q :=
  (Function.forall_update_iff r.routes fun q rt =>
    rt = {} ∨ rt.seq ≠ -1 ∧ rt.del = false ∧ rt.outdev = outName E q).mpr
      ⟨Or.inr hrt, fun q _ => hr.route q⟩ q

/-- Installing a route that is not the default one keeps the router well formed. -/
theorem wf_installed {rt : Route} {now : Int} (hr : r.Wf E)
    (hrt : rt.seq ≠ -1 ∧ rt.del = false ∧ rt.outdev = outName E p) : (installed E r p rt now).Wf E := by
  refine ⟨@wf_route_update E r p { rt with tm := now } hr hrt, ?_, hr.counter⟩
  show r.nRoute + 1 = (r.routeList ++ [_]).length
  rw [List.length_append, hr.list, List.length_singleton]

theorem wf_pairStep {now : Int} {r' : Router} (hr : r.Wf E)
    (h : PairStep E rates fuel now r p r') : r'.Wf E := by
  cases h with
  | near _ => exact hr
  | keep path hne hfind hseq hfollows =>
    exact ⟨wf_route_update hr ⟨hseq, rfl, rfl⟩, hr.list, hr.counter⟩
  | fresh path inport hne hfind hfresh =>
    have hcounter := hr.counter
    apply wf_installed
    · exact ⟨hr.route, hr.list, by show 1 ≤ r.seq + 1; omega⟩
    · exact ⟨by show r.seq ≠ -1; omega, rfl, rfl⟩
  | replace path hne hfind hseq hnot =>
    apply wf_installed
    · exact ⟨hr.route, hr.list, hr.counter⟩
    · exact ⟨hseq, rfl, rfl⟩

end Cases

/-! ## §6 — runs of the server -/

section Runs

variable {R : Type} [DoubleOps R]

/-- A condition on every pair of every round, in the router before the pair. -/
def State.AlongPairs (E : Env) (P : RateMap R → Nat → Router → Flow → Prop) (s : State R) :
    Event → Prop
  | .batch _ => True
  | .round fuel clock =>
      Run.Along (pairStep E s.collector.txRates fuel clock) (P s.collector.txRates fuel) s.router
        (activePairs s.collector.txRates)

instance (P : RateMap R → Nat → Router → Flow → Prop)
    [∀ rates fuel r p, Decidable (P rates fuel r p)] (E : Env) (s : State R) :
    ∀ e, Decidable (State.AlongPairs E P s e)
  | .batch _ => isTrue trivial
  | .round _ _ => inferInstanceAs (Decidable (Run.Along _ _ _ _))

/-- **Invariants of the router.** What every admissible pair step preserves holds after every
admissible run. -/
theorem router_invariant {P : RateMap R → Nat → Router → Flow → Prop} {I : Router → Prop}
    (hstep : ∀ rates fuel now r p r', r.Wf E → I r → P rates fuel r p →
      PairStep E rates fuel now r p r' → I r')
    {es : List Event} {s s' : State R} (hs : s.router.Wf E) (hI : I s.router)
    (hP : Run.Along (State.step E) (State.AlongPairs E P) s es)
    (hrun : es.foldlM (State.step E) s = some s') : s'.router.Wf E ∧ I s'.router := by
  refine Run.invariant (I := fun s => s.router.Wf E ∧ I s.router) ?_ es ⟨hs, hI⟩ hP hrun
  rintro s e s' ⟨hwf, hI⟩ hP h
  cases e with
  | batch samples =>
    obtain rfl := Option.some.inj h
    exact ⟨hwf, hI⟩
  | round fuel clock =>
    obtain ⟨r', hround, rfl⟩ := Option.map_eq_some_iff.mp h
    refine Run.invariant (I := fun r => r.Wf E ∧ I r) ?_ _ ⟨hwf, hI⟩ hP hround
    rintro r p r' ⟨hwf, hI⟩ hP h
    have hcases := pairStep_cases hwf h
    exact ⟨wf_pairStep hwf hcases, hstep _ _ _ r p r' hwf hI hP hcases⟩

end Runs

/-! ## §7 — two leaves

A fabric of two switches joined by two parallel links, three servers on one and one on the other.
Three flows share the links: in the first round they take links 1, 2 and 1; in the second the first
flow moves to link 2. -/

def twoLeaves : Env where
  nodes := [⟨"Leaf1", "10.0.0.1"⟩, ⟨"Leaf2", "10.0.0.2"⟩]
  linklist := [⟨"Leaf1", "Eth1", "Leaf2", "Eth1"⟩, ⟨"Leaf1", "Eth2", "Leaf2", "Eth2"⟩]
  interfaces :=
    [⟨"10.0.0.1", [⟨"1", "eth-0-1"⟩, ⟨"2", "eth-0-2"⟩, ⟨"3", "eth-0-3"⟩]⟩,
      ⟨"10.0.0.2", [⟨"1", "eth-0-1"⟩]⟩]
  serverList :=
    [("Leaf1", [⟨"172.16.1.1", "1", 100⟩, ⟨"172.16.1.2", "2", 100⟩, ⟨"172.16.1.3", "3", 100⟩]),
      ("Leaf2", [⟨"172.16.5.1", "1", 100⟩])]
  eraseEnd := some
  assignsRecycled := false

/-- A record announcing `tx` bytes to `172.16.5.1`. -/
def sampleFrom (ip : String) (tx : UInt64) : Sample :=
  ⟨⟨SDNware.Wire.strncpy 16 "172.16.5.1", SDNware.Wire.strncpy 64 "mlx5_0",
    SDNware.Wire.strncpy 32 ip, tx, 66, 1000⟩, 2000000000, 2000000000⟩

def threeFlows : Event :=
  .batch [sampleFrom "172.16.1.1" 5000, sampleFrom "172.16.1.2" 6000, sampleFrom "172.16.1.3" 7000]

def oneRound : Event := .round 3 fun _ => 3000000000

example :
    ([threeFlows, oneRound, oneRound].foldlM (State.step twoLeaves)
        (State.init (R := ℚ) twoLeaves)).map (fun s => s.router.routeList.map RouteNode.flow)
      = some [("172.16.1.1", "172.16.5.1"), ("172.16.1.2", "172.16.5.1"),
          ("172.16.1.3", "172.16.5.1"), ("172.16.1.1", "172.16.5.1")] := by
  decide +kernel

end SDNware.Server
