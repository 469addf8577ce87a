/-
# SDNware.Server.Evict — what `add_route` removes when the list is full.

Every installed route leaves a node with its time behind, also when it replaces an older one, so the
list holds superseded nodes beside the live ones.  With `route_max` routes counted and the new pair's
`del` set, the loop of `add_route` is to drop the superseded nodes at the head of the list and then
the oldest live one.  It compares the heads with the time of the new pair and not with that of their
own pair, and `n_route` goes up whatever is removed.

The new node is then built in the block that was freed last, by assigning to strings that nothing has
constructed there; on glibc this ends the program.

So the eviction is right exactly if such an assignment returns, the new pair's time separates the
outdated head of the list from the rest and the counter is one short of that rest
(`evictsOldest_iff`).  The last is never so in a state that calls of `add_route` lead to, where the
counter is at least the length of the list (`not_evictsOldest_of_calls`).
-/
import SDNware.Server.PairStep

namespace SDNware.Server

/-! ## §1 — outdated and standing nodes -/

/-- A newer node of the same pair stands in the list. -/
def Router.Superseded (r : Router) (node : RouteNode) : Prop := node.tm < (r.routes node.flow).tm

instance (r : Router) (node : RouteNode) : Decidable (r.Superseded node) :=
  inferInstanceAs (Decidable (node.tm < (r.routes node.flow).tm))

/-- The superseded nodes at the head of the list. -/
def Router.outdated (r : Router) : List RouteNode := r.routeList.takeWhile fun node => r.Superseded node

/-- The list from its oldest live node on. -/
def Router.standing (r : Router) : List RouteNode := r.routeList.dropWhile fun node => r.Superseded node

/-- The list is in the order of its times, and the table holds for every listed pair the time of the
newest of its nodes. -/
structure Router.InOrder (r : Router) : Prop where
  order : r.routeList.Pairwise fun a b => a.tm ≤ b.tm
  newest : ∀ node ∈ r.routeList, node.tm ≤ (r.routes node.flow).tm ∧
    ⟨node.flow, (r.routes node.flow).tm⟩ ∈ r.routeList

/-- What the full branch of `add_route` is for: it drops superseded nodes, then the oldest live one,
returns, and `n_route` counts the nodes of the list. -/
def EvictsOldest (E : Env) (r : Router) (p : Flow) (now : Int) : Prop :=
  ∃ gone oldest rest r', r.routeList = gone ++ oldest :: rest ∧
    (∀ node ∈ gone, r.Superseded node) ∧ ¬ r.Superseded oldest ∧
    addRoute E r p now = some r' ∧ r'.routeList = rest ++ [⟨p, now⟩] ∧
    r'.nRoute = r'.routeList.length

section Evict

variable {E : Env} {r : Router} {p : Flow} {now : Int}

theorem outdated_append_standing (r : Router) : r.outdated ++ r.standing = r.routeList :=
  List.takeWhile_append_dropWhile

theorem superseded_of_mem_outdated {node : RouteNode} (h : node ∈ r.outdated) :
    r.Superseded node := by
  unfold Router.outdated at h
  simpa using List.mem_takeWhile_imp h

theorem not_superseded_of_standing {oldest : RouteNode} {rest : List RouteNode}
    (h : r.standing = oldest :: rest) : ¬ r.Superseded oldest := by
  unfold Router.standing at h
  have hne : r.routeList.dropWhile (fun node => decide (r.Superseded node)) ≠ [] := by
    rw [h]
    exact List.cons_ne_nil oldest rest
  simpa [h] using List.head_dropWhile_not (fun node => decide (r.Superseded node)) hne

/-- Superseded nodes in front of a live one are the outdated part of the list. -/
theorem outdated_eq {gone rest : List RouteNode} {oldest : RouteNode}
    (hlist : r.routeList = gone ++ oldest :: rest) (hgone : ∀ node ∈ gone, r.Superseded node)
    (hlive : ¬ r.Superseded oldest) : r.outdated = gone ∧ r.standing = oldest :: rest := by
  have hall : ∀ node ∈ gone, decide (r.Superseded node) = true :=
    fun node hnode => decide_eq_true (hgone node hnode)
  constructor
  · unfold Router.outdated
    rw [hlist, List.takeWhile_append_of_pos hall, List.takeWhile_cons_of_neg (by simpa using hlive),
      List.append_nil]
  · unfold Router.standing
    rw [hlist, List.dropWhile_append_of_pos hall, List.dropWhile_cons_of_neg (by simpa using hlive)]

/-! ## §2 — the loop -/

/-- What the loop leaves: the heads older than `tm` are gone, and one node more. -/
theorem evict_eq_some_iff {tm : Int} {list rest : List RouteNode} :
    evict tm list = some rest ↔
      ∃ old last, list = old ++ last :: rest ∧ (∀ node ∈ old, node.tm < tm) ∧ tm ≤ last.tm ∧
        rest ≠ [] := by
  induction list with
  | nil => simp [evict]
  | cons node list ih =>
    unfold evict
    by_cases hold : node.tm < tm
    · rw [if_pos hold, ih]
      constructor
      · rintro ⟨old, last, rfl, hall, hlast, hrest⟩
        exact ⟨node :: old, last, rfl, List.forall_mem_cons.mpr ⟨hold, hall⟩, hlast, hrest⟩
      · rintro ⟨old, last, hlist, hall, hlast, hrest⟩
        cases old with
        | nil =>
          obtain ⟨rfl, -⟩ := List.cons.inj hlist
          exact absurd hold hlast.not_gt
        | cons first old =>
          obtain ⟨rfl, rfl⟩ := List.cons.inj hlist
          exact ⟨old, last, rfl, (List.forall_mem_cons.mp hall).2, hlast, hrest⟩
    · rw [if_neg hold]
      constructor
      · intro h
        split at h
        · exact absurd h (by simp)
        · rename_i hrest
          obtain rfl := Option.some.inj h
          exact ⟨[], node, rfl, by simp, not_lt.mp hold, hrest⟩
      · rintro ⟨old, last, hlist, hall, hlast, hrest⟩
        cases old with
        | nil =>
          obtain ⟨rfl, rfl⟩ := List.cons.inj hlist
          exact if_neg hrest
        | cons first old =>
          obtain ⟨rfl, -⟩ := List.cons.inj hlist
          exact absurd (hall node List.mem_cons_self) hold

/-- The full branch of `add_route`. -/
theorem addRoute_full (hfull : routeMax ≤ r.nRoute) (hdel : (r.routes p).del = true) :
    addRoute E r p now = (evict (r.routes p).tm r.routeList).bind fun list =>
      if E.assignsRecycled then some (appendNode r p now list) else none := by
  have hsome : r.nRoute ≠ 0 := by
    unfold routeMax at hfull
    omega
  unfold addRoute
  rw [if_neg hsome, if_pos ⟨hfull, hdel⟩]

/-- Where the eviction is right, the new pair's time and the counter are as follows. -/
theorem EvictsOldest.spec (h : EvictsOldest E r p now) (hfull : routeMax ≤ r.nRoute)
    (hdel : (r.routes p).del = true) :
    E.assignsRecycled = true ∧ (∀ node ∈ r.outdated, node.tm < (r.routes p).tm) ∧
      (∀ node ∈ r.standing.head?, (r.routes p).tm ≤ node.tm) ∧
      r.standing.length = r.nRoute + 1 := by
  obtain ⟨gone, oldest, rest, r', hlist, hgone, hlive, hadd, hleft, hcount⟩ := h
  obtain ⟨houtdated, hstanding⟩ := outdated_eq hlist hgone hlive
  rw [addRoute_full hfull hdel] at hadd
  obtain ⟨rest', hevict, hadd⟩ := Option.bind_eq_some_iff.mp hadd
  obtain ⟨hassigns, hadd⟩ := Option.ite_none_right_eq_some.mp hadd
  obtain rfl := Option.some.inj hadd
  obtain rfl : rest' = rest := List.append_cancel_right hleft
  obtain ⟨old, last, hold, hall, hlast, -⟩ := evict_eq_some_iff.mp hevict
  -- the loop and the intended eviction leave the same rest, so they drop the same nodes
  obtain ⟨rfl, hcons⟩ := List.append_inj' (hlist.symm.trans hold) rfl
  obtain ⟨rfl, -⟩ := List.cons.inj hcons
  refine ⟨hassigns, houtdated ▸ hall, ?_, ?_⟩
  · rw [hstanding]
    intro node hnode
    obtain rfl := Option.some.inj hnode
    exact hlast
  · have hafter : r.nRoute + 1 = (rest' ++ [RouteNode.mk p now]).length := hcount
    rw [hstanding, hafter, List.length_append, List.length_cons, List.length_singleton]

/-- **What a full list evicts.**  `add_route` drops superseded nodes and then exactly the oldest live
one, returns, and leaves the number of nodes in `n_route`, if and only if the assignment to the strings
of the recycled block returns, the time of the new pair is above those of the outdated nodes and not
above that of the oldest live one, and the counter is one less than the number of nodes from that one
on. -/
theorem evictsOldest_iff (E : Env) (r : Router) (p : Flow) (now : Int) (hfull : routeMax ≤ r.nRoute)
    (hdel : (r.routes p).del = true) :
    EvictsOldest E r p now ↔
      E.assignsRecycled = true ∧ (∀ node ∈ r.outdated, node.tm < (r.routes p).tm) ∧
      (∀ node ∈ r.standing.head?, (r.routes p).tm ≤ node.tm) ∧
      r.standing.length = r.nRoute + 1 := by
  refine ⟨fun h => h.spec hfull hdel, ?_⟩
  rintro ⟨hassigns, hbelow, habove, hlength⟩
  cases hstanding : r.standing with
  | nil => simp [hstanding] at hlength
  | cons oldest rest =>
    have hlist : r.routeList = r.outdated ++ oldest :: rest := by
      rw [← hstanding, outdated_append_standing]
    have hrest : rest.length = r.nRoute := by
      rw [hstanding, List.length_cons] at hlength
      omega
    have hne : rest ≠ [] := by
      rintro rfl
      rw [List.length_nil] at hrest
      exact absurd (hrest ▸ hfull) (by decide)
    have hevict : evict (r.routes p).tm r.routeList = some rest :=
      evict_eq_some_iff.mpr ⟨r.outdated, oldest, hlist, hbelow,
        habove oldest (by rw [hstanding]; rfl), hne⟩
    refine ⟨r.outdated, oldest, rest, appendNode r p now rest, hlist,
      fun node hnode => superseded_of_mem_outdated hnode, not_superseded_of_standing hstanding, ?_,
      rfl, ?_⟩
    · rw [addRoute_full hfull hdel, hevict, Option.bind_some, if_pos hassigns]
    · show r.nRoute + 1 = (rest ++ [_]).length
      rw [List.length_append, hrest, List.length_singleton]

/-- A router of which only the route list and its times are read. -/
def ofList (time : Flow → Int) (list : List RouteNode) (count : Nat) : Router :=
  ⟨fun p => { tm := time p, del := true }, fun _ => [], 1, count, list, []⟩

/-- A platform on which the strings of a recycled block can be assigned. -/
def recycling : Env := { Env.ofNodes [] with assignsRecycled := true }

/-- A thousand and one live nodes under a counter of 1000, and a pair not yet listed. -/
def oneUncounted : Router :=
  ofList (fun p => if p = ("a", "b") then 5 else 0) (List.replicate 1001 ⟨("a", "b"), 5⟩) 1000

theorem evictsOldest_oneUncounted :
    oneUncounted.InOrder ∧ EvictsOldest recycling oneUncounted ("c", "d") 9 :=
  ⟨⟨List.pairwise_replicate.mpr (.inr le_rfl), by decide +kernel⟩,
    (evictsOldest_iff recycling oneUncounted ("c", "d") 9 (by decide) rfl).mpr
      ⟨rfl, by decide +kernel, by decide +kernel, by decide +kernel⟩⟩

/-- A thousand live nodes, all counted, the third of them of the pair `("c", "b")`. -/
def thirdMoves : Router :=
  ofList (fun p => if p.1 = "a" then 10 else if p.1 = "b" then 20 else if p.1 = "c" then 30 else 40)
    (⟨("a", "b"), 10⟩ :: ⟨("b", "a"), 20⟩ :: ⟨("c", "b"), 30⟩ ::
      List.replicate 997 ⟨("d", "b"), 40⟩) 1000

theorem evict_thirdMoves : evict (thirdMoves.routes ("c", "b")).tm thirdMoves.routeList =
    some (List.replicate 997 ⟨("d", "b"), 40⟩) := by
  decide +kernel

/-- The third pair moves: the live nodes of the first two pairs go with its own, three nodes in all,
and the call does not come back from the assignment to the block of the last one. Where it does, the
counter has gone up although the list is two nodes shorter. -/
theorem addRoute_evicts_live :
    thirdMoves.InOrder ∧ routeMax ≤ thirdMoves.nRoute ∧ (thirdMoves.routes ("c", "b")).del = true ∧
      ¬ thirdMoves.Superseded ⟨("a", "b"), 10⟩ ∧ ¬ thirdMoves.Superseded ⟨("b", "a"), 20⟩ ∧
      evict (thirdMoves.routes ("c", "b")).tm thirdMoves.routeList =
        some (List.replicate 997 ⟨("d", "b"), 40⟩) ∧
      addRoute (Env.ofNodes []) thirdMoves ("c", "b") 50 = none ∧
      (addRoute recycling thirdMoves ("c", "b") 50).map (fun r => (r.routeList, r.nRoute))
        = some (List.replicate 997 ⟨("d", "b"), 40⟩ ++ [⟨("c", "b"), 50⟩], 1001) ∧
      ¬ EvictsOldest (Env.ofNodes []) thirdMoves ("c", "b") 50 ∧
      ¬ EvictsOldest recycling thirdMoves ("c", "b") 50 := by
  refine ⟨⟨?_, by decide +kernel⟩, by decide, rfl, by decide, by decide, evict_thirdMoves, ?_, ?_,
    fun h => ?_, fun h => ?_⟩
  · simp [-List.reduceReplicate, thirdMoves, ofList, List.pairwise_replicate]
  · rw [addRoute_full (by decide) rfl, evict_thirdMoves]
    rfl
  · rw [addRoute_full (by decide) rfl, evict_thirdMoves]
    rfl
  · exact Bool.false_ne_true (h.spec (by decide) rfl).1
  · obtain ⟨-, -, -, hcount⟩ := h.spec (by decide) rfl
    revert hcount
    decide +kernel

/-! ## §3 — the counter over a run of calls -/

/-- A call of `add_route` on the table the rest of the server has made of it. -/
def addStep (E : Env) (r : Router) (call : (Flow → Route) × Flow × Int) : Option Router :=
  addRoute E { r with routes := call.1 } call.2.1 call.2.2

/-- One call adds one to the counter and at most one to the list. -/
theorem length_le_addRoute {r' : Router} (hlen : r.routeList.length ≤ r.nRoute)
    (h : addRoute E r p now = some r') : r'.routeList.length ≤ r'.nRoute := by
  have happend : ∀ list : List RouteNode, list.length ≤ r.nRoute →
      (appendNode r p now list).routeList.length ≤ (appendNode r p now list).nRoute := by
    intro list hlist
    show (list ++ [_]).length ≤ r.nRoute + 1
    rw [List.length_append, List.length_singleton]
    omega
  unfold addRoute at h
  split at h
  · obtain rfl := Option.some.inj h
    exact happend [] (Nat.zero_le _)
  · split at h
    · obtain ⟨rest, hevict, h⟩ := Option.bind_eq_some_iff.mp h
      obtain ⟨-, h⟩ := Option.ite_none_right_eq_some.mp h
      obtain rfl := Option.some.inj h
      obtain ⟨old, last, hlist, -⟩ := evict_eq_some_iff.mp hevict
      apply happend
      rw [hlist, List.length_append, List.length_cons] at hlen
      omega
    · obtain rfl := Option.some.inj h
      exact happend r.routeList hlen

/-- From the start of the server on, whatever the table is between the calls, no eviction is right:
the counter has kept every node ever removed. -/
theorem not_evictsOldest_of_calls {calls : List ((Flow → Route) × Flow × Int)}
    (hrun : calls.foldlM (addStep E) (Router.init E) = some r) (routes : Flow → Route)
    (hfull : routeMax ≤ r.nRoute) (hdel : (routes p).del = true) :
    ¬ EvictsOldest E { r with routes := routes } p now := by
  have hstep : ∀ (r : Router) (call : (Flow → Route) × Flow × Int) (r' : Router),
      r.routeList.length ≤ r.nRoute → addStep E r call = some r' →
        r'.routeList.length ≤ r'.nRoute :=
    fun r call r' hlen h => length_le_addRoute (r := { r with routes := call.1 }) hlen h
  have hlen := Run.invariant_of_step hstep calls (Nat.zero_le _) hrun
  intro h
  obtain ⟨-, -, -, hcount⟩ := h.spec hfull hdel
  have hall := congrArg List.length (outdated_append_standing { r with routes := routes })
  rw [List.length_append, hcount] at hall
  have hsame : r.nRoute + 1 ≤ r.routeList.length := le_of_le_of_eq (Nat.le_add_left _ _) hall
  omega

end Evict

end SDNware.Server
