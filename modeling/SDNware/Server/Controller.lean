/-
# SDNware.Server.Controller — the controller's table and the routes table agree.

The controller executes the requests in the order they are sent: `save` stores a flow path under its
sequence number, `delete` removes what is stored.  `controller_agrees`: after every event of every
run, the controller holds exactly the paths of the pairs that have a route, each under a number of
its own, and the requests came in the only two patterns the protocol allows: one `save` under a
number never used before, or one `delete` of the stored path followed by the `save` replacing it.

The agreement needs port names to be non-empty.  `get_route` takes an empty `outport` for "no route
yet" and would replace it without telling the controller.
-/
import SDNware.Server.PairStep

namespace SDNware.Server

/-! ## §1 — the controller -/

/-- The controller executing one request. -/
def execute (table : Int → Option FlowPath) : Request → Int → Option FlowPath
  | .delete seq => Function.update table seq none
  | .save path => Function.update table path.seq (some path)

/-- The controller's table after the requests sent so far. -/
def controller (log : List Request) : Int → Option FlowPath := log.foldl execute fun _ => none

/-- The number a request is about. -/
def Request.seq : Request → Int
  | .delete seq => seq
  | .save path => path.seq

/-- The requests are first saves and replacements. -/
inductive Disciplined : List Request → Prop
  | nil : Disciplined []
  /-- A save under a number no request has used. -/
  | first {log : List Request} {path : FlowPath} (h : Disciplined log)
      (hnew : ∀ req ∈ log, req.seq ≠ path.seq) : Disciplined (log ++ [.save path])
  /-- A stored path deleted and replaced by another one under its number. -/
  | replace {log : List Request} {old path : FlowPath} (h : Disciplined log)
      (hold : controller log old.seq = some old) (hseq : path.seq = old.seq) (hne : path ≠ old) :
      Disciplined (log ++ [.delete old.seq, .save path])

theorem controller_save (log : List Request) (path : FlowPath) :
    controller (log ++ [.save path]) = Function.update (controller log) path.seq (some path) := by
  unfold controller
  rw [List.foldl_append]
  rfl

theorem controller_replace (log : List Request) {seq : Int} {path : FlowPath} (h : path.seq = seq) :
    controller (log ++ [.delete seq, .save path])
      = Function.update (controller log) seq (some path) := by
  unfold controller
  rw [List.foldl_append]
  subst h
  exact Function.update_idem ..

/-- The two stores agree. -/
structure Agrees (r : Router) : Prop where
  /-- Pairs with a route have numbers of their own. -/
  distinct : ∀ p q, (r.routes p).seq ≠ -1 → (r.routes p).seq = (r.routes q).seq → p = q
  /-- Numbers in use are below the counter. -/
  below : ∀ p, (r.routes p).seq ≠ -1 → (r.routes p).seq < r.seq
  /-- The controller holds exactly the routes of the pairs that have one. -/
  table : ∀ seq path, controller r.log seq = some path ↔
    ∃ p, (r.routes p).seq ≠ -1 ∧ (r.routes p).seq = seq ∧ path = flowPath p (r.routes p)
  /-- One delete before each replacing save, and no other. -/
  requests : Disciplined r.log

/-! ## §2 — one pair -/

variable {E : Env} {r : Router} {p : Flow}

/-- What the agreement rests on: ports have names, and no request used a number not yet given out. -/
structure AgreesInv (r : Router) : Prop extends Agrees r where
  ports : Env.AllLinks (fun l => l.port2 ≠ "") r.links
  outports : ∀ p, (r.routes p).seq ≠ -1 → (r.routes p).outport ≠ ""
  used : ∀ req ∈ r.log, req.seq < r.seq

/-- Recording flows changes no port. -/
theorem allLinks_editHops {op : List Flow → List Flow} {links : Links} {name : String}
    (h : Env.AllLinks (fun l => l.port2 ≠ name) links) (hops : List Hop) :
    Env.AllLinks (fun l => l.port2 ≠ name) (editHops op links hops) := by
  induction hops generalizing links with
  | nil => exact h
  | cons hop hops ih =>
    apply ih
    intro ab l hl
    unfold editHop at hl
    by_cases hab : ab = hop.1
    · rw [hab, Function.update_self] at hl
      obtain ⟨l', hl', rfl⟩ := List.mem_map.mp hl
      have := h hop.1 l' hl'
      split
      · exact this
      · exact this
    · rw [Function.update_of_ne hab] at hl
      exact h ab l hl

theorem lastPort_ne_empty {links : Links} {path : List PathHop}
    (hlinks : Env.AllLinks (fun l => l.port2 ≠ "") links) (hpath : FoundPath E links p path) :
    lastPort path ≠ "" := by
  obtain ⟨pass, port, rfl⟩ := hpath.last
  obtain ⟨ab, l, hl, hport⟩ := hpath.ports _ (List.mem_append_right pass (List.mem_singleton_self _))
  unfold lastPort
  rw [List.getLastD_concat]
  exact hport ▸ hlinks ab l hl

/-- The table after one pair's route has been stored, under a number no other pair has. -/
theorem table_update {routes : Flow → Route} {table : Int → Option FlowPath} {rt : Route}
    (htable : ∀ seq path, table seq = some path ↔
      ∃ q, (routes q).seq ≠ -1 ∧ (routes q).seq = seq ∧ path = flowPath q (routes q))
    (hseq : rt.seq ≠ -1) (hown : (routes p).seq = -1 ∨ (routes p).seq = rt.seq)
    (hother : ∀ q, q ≠ p → (routes q).seq ≠ rt.seq) (seq : Int) (path : FlowPath) :
    Function.update table rt.seq (some (flowPath p rt)) seq = some path ↔
      ∃ q, (Function.update routes p rt q).seq ≠ -1 ∧ (Function.update routes p rt q).seq = seq ∧
        path = flowPath q (Function.update routes p rt q) := by
  by_cases hs : seq = rt.seq
  · subst hs
    rw [Function.update_self]
    constructor
    · intro h
      refine ⟨p, ?_⟩
      rw [Function.update_self]
      exact ⟨hseq, rfl, (Option.some.inj h).symm⟩
    · rintro ⟨q, -, hq, rfl⟩
      by_cases hqp : q = p
      · rw [hqp, Function.update_self]
      · rw [Function.update_of_ne hqp] at hq
        exact absurd hq (hother q hqp)
  · rw [Function.update_of_ne hs, htable]
    -- the pair itself is not under this number, before or after
    refine exists_congr fun q => ?_
    by_cases hqp : q = p
    · subst hqp
      rw [Function.update_self]
      constructor
      · rintro ⟨h1, h2, -⟩
        rcases hown with h | h
        · exact absurd h h1
        · exact absurd (h2.symm.trans h) hs
      · rintro ⟨-, h2, -⟩
        exact absurd h2.symm hs
    · rw [Function.update_of_ne hqp]

/-- Storing a pair's route under a number no other pair has. -/
theorem distinct_update {routes : Flow → Route} {rt : Route}
    (h : ∀ a b, (routes a).seq ≠ -1 → (routes a).seq = (routes b).seq → a = b)
    (hother : ∀ q, q ≠ p → (routes q).seq ≠ rt.seq) (a b : Flow)
    (ha : (Function.update routes p rt a).seq ≠ -1)
    (hab : (Function.update routes p rt a).seq = (Function.update routes p rt b).seq) : a = b := by
  by_cases hap : a = p
  · by_cases hbp : b = p
    · rw [hap, hbp]
    · rw [hap, Function.update_self, Function.update_of_ne hbp] at hab
      exact absurd hab.symm (hother b hbp)
  · rw [Function.update_of_ne hap] at ha hab
    by_cases hbp : b = p
    · rw [hbp, Function.update_self] at hab
      exact absurd hab (hother a hap)
    · rw [Function.update_of_ne hbp] at hab
      exact h a b ha hab

section Step

variable {R : Type} [DoubleOps R] {rates : RateMap R} {fuel : Nat} {now : Int} {r' : Router}

/-- With named ports, keeping a route changes nothing at all. -/
theorem follow_eq_self {rt : Route} {path : List PathHop} (hdel : rt.del = false)
    (hout : rt.outdev = outName E p) (hport : rt.outport ≠ "") (h : rt.Follows path) :
    rt.follow E p path = rt := by
  unfold Route.follow
  rw [← h.1, ← h.2.resolve_left hport, ← hout, ← hdel]

theorem agreesInv_installed (rt : Route) (log : List Request) (links : Links) (counter : Int)
    (hI : AgreesInv r) (hlinks : Env.AllLinks (fun l => l.port2 ≠ "") links)
    (hseq : rt.seq ≠ -1) (hown : (r.routes p).seq = -1 ∨ (r.routes p).seq = rt.seq)
    (hother : ∀ q, q ≠ p → (r.routes q).seq ≠ rt.seq) (hcounter : r.seq ≤ counter)
    (hlt : rt.seq < counter) (hport : rt.outport ≠ "")
    (hlog : controller (log ++ [.save (flowPath p rt)])
      = Function.update (controller r.log) rt.seq (some (flowPath p rt)))
    (hreq : Disciplined (log ++ [.save (flowPath p rt)]))
    (hused : ∀ req ∈ log, req.seq < counter) :
    AgreesInv (installed E { r with links := links, log := log, seq := counter } p rt now) where
  distinct := fun a b ha hab =>
    @distinct_update p r.routes { rt with tm := now } hI.distinct hother a b ha hab
  below := (Function.forall_update_iff r.routes fun _ rt => rt.seq ≠ -1 → rt.seq < counter).mpr
    ⟨fun _ => hlt, fun q _ hq => lt_of_lt_of_le (hI.below q hq) hcounter⟩
  table := by
    intro seq path
    show controller (log ++ [.save (flowPath p rt)]) seq = some path ↔ _
    rw [hlog]
    exact @table_update p r.routes _ { rt with tm := now } hI.table hseq hown hother seq path
  requests := hreq
  ports := allLinks_editHops hlinks _
  outports := (Function.forall_update_iff r.routes fun _ rt => rt.seq ≠ -1 → rt.outport ≠ "").mpr
    ⟨fun _ => hport, fun q _ => hI.outports q⟩
  used := by
    intro req hreq
    rcases List.mem_append.mp hreq with hreq | hreq
    · exact hused req hreq
    · rw [List.mem_singleton.mp hreq]
      exact hlt

/-- A first route is saved under the counter, which no pair and no request has used. -/
theorem agreesInv_fresh {path : List PathHop} (inport : String) (hr : r.Wf E) (hI : AgreesInv r)
    (hpath : FoundPath E r.links p path) (hfresh : r.routes p = {}) :
    AgreesInv (installed E { r with seq := r.seq + 1 } p (firstRoute E r p inport path) now) := by
  have hcounter := hr.counter
  -- numbers in use are below the counter
  have hnew : ∀ q, (r.routes q).seq ≠ r.seq := by
    intro q hq
    have := hI.below q (by omega)
    omega
  refine agreesInv_installed (firstRoute E r p inport path) r.log r.links (r.seq + 1) hI hI.ports
    (by show r.seq ≠ -1; omega) (Or.inl (by rw [hfresh])) (fun q _ => hnew q) (by omega)
    (by show r.seq < r.seq + 1; omega) (lastPort_ne_empty hI.ports hpath) ?_ ?_ ?_
  · exact controller_save r.log _
  · refine .first hI.requests fun req hreq => ?_
    exact ne_of_lt (hI.used req hreq)
  · intro req hreq
    have := hI.used req hreq
    omega

/-- Another route replaces the stored one under the pair's own number. -/
theorem agreesInv_replace {path : List PathHop} (hI : AgreesInv r)
    (hpath : FoundPath E r.links p path) (hseq : (r.routes p).seq ≠ -1)
    (hnot : ¬ (r.routes p).Follows path) :
    AgreesInv (installed E (retired E r p) p ((r.routes p).follow E p path) now) := by
  have hstored : controller r.log (r.routes p).seq = some (flowPath p (r.routes p)) :=
    (hI.table _ _).mpr ⟨p, hseq, rfl, rfl⟩
  have hlog : r.log ++ [.delete (r.routes p).seq] ++ [.save (flowPath p ((r.routes p).follow E p path))]
      = r.log ++ [.delete (r.routes p).seq, .save (flowPath p ((r.routes p).follow E p path))] := by
    rw [List.append_assoc]
    rfl
  have hother : ∀ q, q ≠ p → (r.routes q).seq ≠ (r.routes p).seq :=
    fun q hqp hq => hqp (hI.distinct p q hseq hq.symm).symm
  refine agreesInv_installed ((r.routes p).follow E p path) (r.log ++ [.delete (r.routes p).seq])
    (retired E r p).links r.seq hI (allLinks_editHops hI.ports _) hseq (Or.inr rfl) hother le_rfl
    (hI.below p hseq) (lastPort_ne_empty hI.ports hpath) ?_ ?_ ?_
  · rw [hlog]
    exact controller_replace r.log rfl
  · rw [hlog]
    refine @Disciplined.replace r.log (flowPath p (r.routes p)) _ hI.requests hstored rfl
      fun heq => hnot ?_
    -- the new path would be the stored one
    have hpass : path.dropLast = (r.routes p).pass := congrArg FlowPath.passDeviceList heq
    have hport : (_, lastPort path) = (_, (r.routes p).outport) := congrArg FlowPath.outDevice heq
    exact ⟨hpass.symm, Or.inr (Prod.mk.inj hport).2.symm⟩
  · intro req hreq
    rcases List.mem_append.mp hreq with hreq | hreq
    · exact hI.used req hreq
    · rw [List.mem_singleton.mp hreq]
      exact hI.below p hseq

theorem agreesInv_pairStep (hr : r.Wf E) (hI : AgreesInv r)
    (h : PairStep E rates fuel now r p r') : AgreesInv r' := by
  cases h with
  | near _ => exact hI
  | keep path hne hfind hseq hfollows =>
    obtain ⟨-, hdel, hout⟩ := (hr.route p).resolve_left fun hfresh => hseq (by rw [hfresh])
    rw [follow_eq_self hdel hout (hI.outports p hseq) hfollows, setRoute_self]
    exact hI
  | fresh path inport hne hfind hfresh =>
    exact agreesInv_fresh inport hr hI (findRoute_path hne hfind) hfresh
  | replace path hne hfind hseq hnot =>
    exact agreesInv_replace hI (findRoute_path hne hfind) hseq hnot

/-- A number once given to a pair stays. -/
theorem seq_pairStep (h : PairStep E rates fuel now r p r') (q : Flow)
    (hq : (r.routes q).seq ≠ -1) : (r'.routes q).seq = (r.routes q).seq := by
  have hupdate : ∀ rt : Route, rt.seq = (r.routes p).seq →
      (Function.update r.routes p rt q).seq = (r.routes q).seq := by
    intro rt hrt
    by_cases hqp : q = p
    · rw [hqp, Function.update_self, hrt]
    · rw [Function.update_of_ne hqp]
  cases h with
  | near _ => rfl
  | keep path hne hfind hseq hfollows => exact hupdate _ rfl
  | fresh path inport hne hfind hfresh =>
    have hqp : q ≠ p := by
      rintro rfl
      exact hq (by rw [hfresh])
    show (Function.update r.routes p _ q).seq = _
    rw [Function.update_of_ne hqp]
  | replace path hne hfind hseq hnot => exact hupdate _ rfl

end Step

/-! ## §3 — every run -/

section Runs

variable {R : Type} [DoubleOps R]

theorem agreesInv_init (hports : ∀ e ∈ E.linklist, e.port1 ≠ "" ∧ e.port2 ≠ "") :
    AgreesInv (Router.init E) where
  distinct := fun _ _ hp _ => absurd rfl hp
  below := fun _ hp => absurd rfl hp
  table := by
    intro seq path
    constructor
    · intro h
      exact absurd h (by simp [Router.init, controller])
    · rintro ⟨p, hp, -⟩
      exact absurd rfl hp
  requests := .nil
  ports := Env.allLinks_getLinks fun e he => ⟨(hports e he).2, (hports e he).1⟩
  outports := fun _ hp => absurd rfl hp
  used := fun _ h => absurd h (by simp [Router.init])

/-- No condition on the pairs. -/
theorem along_true (es : List Event) (s : State R) :
    Run.Along (State.step E) (State.AlongPairs E fun _ _ _ _ => True) s es := by
  refine Run.along_of_mem (fun e _ s => ?_) s
  cases e with
  | batch samples => trivial
  | round fuel clock => exact Run.along_of_mem (fun _ _ _ => trivial) _

/-- **Controller agreement.** On a topology whose ports have names, for every run of batches and
rounds whose calls return: the controller's table is exactly the routes of the pairs that have one,
under distinct numbers below the counter, the requests were first saves and replacements, and
whatever runs afterwards never changes a number once given. -/
theorem controller_agrees (hports : ∀ e ∈ E.linklist, e.port1 ≠ "" ∧ e.port2 ≠ "")
    (es : List Event) (s : State R) (hrun : es.foldlM (State.step E) (State.init E) = some s) :
    Agrees s.router ∧
      ∀ (es' : List Event) (s' : State R), es'.foldlM (State.step E) s = some s' →
        ∀ p, (s.router.routes p).seq ≠ -1 → (s'.router.routes p).seq = (s.router.routes p).seq := by
  obtain ⟨hwf, hI⟩ := router_invariant (I := AgreesInv)
    (fun _ _ _ _ _ _ hr hI _ h => agreesInv_pairStep hr hI h) (wf_init E) (agreesInv_init hports)
    (along_true es _) hrun
  refine ⟨hI.toAgrees, fun es' s' hrun' p hp => ?_⟩
  -- from here on the pair's number is an invariant of its own
  refine (router_invariant (I := fun r => (r.routes p).seq = (s.router.routes p).seq)
    (fun _ _ _ r q r' hr hI _ h => ?_) hwf rfl (along_true es' _) hrun').2
  rw [seq_pairStep h p (by rw [hI]; exact hp), hI]

theorem controller_agrees_twoLeaves :
    ∃ s : State ℚ, [threeFlows, oneRound, oneRound].foldlM (State.step twoLeaves)
        (State.init twoLeaves) = some s ∧ s.router.log.length = 5 ∧ Agrees s.router := by
  obtain ⟨s, hrun, hlog⟩ := Option.map_eq_some_iff.mp
    (show ([threeFlows, oneRound, oneRound].foldlM (State.step twoLeaves)
      (State.init (R := ℚ) twoLeaves)).map (fun s => s.router.log.length) = some 5 by decide +kernel)
  have hports : ∀ e ∈ twoLeaves.linklist, e.port1 ≠ "" ∧ e.port2 ≠ "" := by decide
  exact ⟨s, hrun, hlog, (controller_agrees hports _ s hrun).1⟩

end Runs

end SDNware.Server
