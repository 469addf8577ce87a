/-
# SDNware.Server.Refused — saves the controller refuses.

`save_route` and `del_route` print `request fail` when the reply is not OK and return all the same, so
a reply is no part of the state: a pattern of replies is a function on the positions of the request
log.  What the next round sends again is decided by the comparison of the stored route with the path
of the next search, and the stored route was written before the request was sent.  Nothing here
assumes anything of the router: `pairStep_effect` says what a pair does to the log in any state.

`resent_iff` draws the two conclusions: a refused save is repeated by the next round exactly when the
search has found another path meanwhile, and the route of a refused save is always on record.
-/
import Mathlib.Data.List.Nodup
import SDNware.Server.LinkUndo

namespace SDNware.Server

/-! ## §1 — what `get_route` does to other pairs and to the log -/

section Touches

variable {E : Env} {r r' r'' : Router} {p : Flow} {path : List PathHop}

/-- Only the pair's route may differ, and only delete requests have been sent. -/
def Touches (p : Flow) (r r' : Router) : Prop :=
  (∀ q, q ≠ p → r'.routes q = r.routes q) ∧
    ∃ seqs : List Int, r'.log = r.log ++ seqs.map Request.delete

theorem Touches.refl (p : Flow) (r : Router) : Touches p r r := ⟨fun _ _ => rfl, [], by simp⟩

theorem Touches.trans (h : Touches p r r') (h' : Touches p r' r'') : Touches p r r'' := by
  obtain ⟨hroutes, seqs, hlog⟩ := h
  obtain ⟨hroutes', seqs', hlog'⟩ := h'
  refine ⟨fun q hq => (hroutes' q hq).trans (hroutes q hq), seqs ++ seqs', ?_⟩
  rw [hlog', hlog, List.map_append, List.append_assoc]

theorem touches_setRoute (r : Router) (p : Flow) (rt : Route) : Touches p r (r.setRoute p rt) :=
  ⟨fun _ hq => Function.update_of_ne hq .., [], by simp [Router.setRoute]⟩

theorem retire_effect (h : retire E r p = some r') :
    (r'.routes p).outport = (r.routes p).outport ∧ Touches p r r' := by
  cases hdel : (r.routes p).del with
  | true =>
    obtain rfl := Option.some.inj ((retire_of_del hdel).symm.trans h)
    exact ⟨rfl, .refl p r⟩
  | false =>
    rw [retire_of_not_del hdel] at h
    split at h
    · obtain rfl := Option.some.inj h
      refine ⟨by rw [setRoute_routes_self], Touches.trans ?_ (touches_setRoute _ p _)⟩
      exact ⟨fun _ _ => rfl, [(r.routes p).seq], rfl⟩
    · exact absurd h (by simp)

theorem touches_saveRouteInLinks (E : Env) (r : Router) (p : Flow) :
    Touches p r (saveRouteInLinks E r p) :=
  ⟨fun _ hq => Function.update_of_ne hq .., [], by simp [saveRouteInLinks]⟩

/-- The stored route does not do for the path. -/
def Route.Moves (rt : Route) (path : List PathHop) : Prop := rt.seq = -1 ∨ ¬ rt.Follows path

instance (rt : Route) (path : List PathHop) : Decidable (rt.Moves path) :=
  inferInstanceAs (Decidable (_ ∨ _))

/-- After the comparison of `pass`: the flag, and the last port as it was. -/
theorem assignPass_effect (hpath : path ≠ []) {u : Bool} (h : assignPass E r p path = some (u, r')) :
    (u = true ↔ (r.routes p).seq = -1 ∨ (r.routes p).pass ≠ path.dropLast) ∧
      (r'.routes p).outport = (r.routes p).outport ∧ Touches p r r' := by
  by_cases hseq : (r.routes p).seq = -1
  · unfold assignPass at h
    dsimp only at h
    rw [if_pos hseq] at h
    obtain ⟨port, -, h⟩ := Option.bind_eq_some_iff.mp h
    obtain ⟨inport, -, h⟩ := Option.map_eq_some_iff.mp h
    obtain ⟨rfl, rfl⟩ := Prod.mk.inj h
    refine ⟨by simp [hseq], ?_, fun _ hq => Function.update_of_ne hq .., [], by simp [Router.setRoute]⟩
    simp [Router.setRoute]
  · rw [assignPass_installed hseq hpath] at h
    split at h
    · rename_i hpass
      obtain ⟨rfl, rfl⟩ := Prod.mk.inj (Option.some.inj h)
      exact ⟨by simp [hseq, hpass], rfl, .refl p r⟩
    · rename_i hpass
      obtain ⟨mid, hretire, h⟩ := Option.map_eq_some_iff.mp h
      obtain ⟨rfl, rfl⟩ := Prod.mk.inj h
      obtain ⟨hport, htouch⟩ := retire_effect hretire
      refine ⟨by simp [hpass], ?_, htouch.trans (touches_setRoute _ p _)⟩
      rw [Router.setPass, setRoute_routes_self]
      exact hport

theorem assignOut_effect {st : Bool × Router} {u : Bool} (h : assignOut E p path st = some (u, r')) :
    (u = true ↔ st.1 = true ∨
      ¬ ((st.2.routes p).outport = "" ∨ (st.2.routes p).outport = lastPort path)) ∧
      Touches p st.2 r' := by
  unfold assignOut at h
  simp only [setRoute_routes_self] at h
  split at h
  · rename_i hempty
    obtain ⟨rfl, rfl⟩ := Prod.mk.inj (Option.some.inj h)
    exact ⟨by simp [hempty], (touches_setRoute _ p _).trans (touches_setRoute _ p _)⟩
  · rename_i hempty
    split at h
    · rename_i hport
      obtain ⟨mid, hretire, h⟩ := Option.map_eq_some_iff.mp h
      obtain ⟨rfl, rfl⟩ := Prod.mk.inj h
      exact ⟨by simp [hempty, hport],
        ((touches_setRoute _ p _).trans (retire_effect hretire).2).trans (touches_setRoute _ p _)⟩
    · rename_i hport
      obtain ⟨rfl, rfl⟩ := Prod.mk.inj (Option.some.inj h)
      exact ⟨by simp [not_not.mp hport], touches_setRoute _ p _⟩

theorem applyRoute_effect (hpath : path ≠ []) {u : Bool} (h : applyRoute E r p path = some (u, r')) :
    (u = true ↔ (r.routes p).Moves path) ∧ (u = true → (r'.routes p).del = false) ∧
      Touches p r r' := by
  unfold applyRoute at h
  obtain ⟨⟨v, mid⟩, hassign, h⟩ := Option.bind_eq_some_iff.mp h
  obtain ⟨⟨w, out⟩, hout, h⟩ := Option.map_eq_some_iff.mp h
  obtain ⟨hflag, hport, htouch⟩ := assignPass_effect hpath hassign
  obtain ⟨hflag', htouch'⟩ := assignOut_effect hout
  have hmoves : w = true ↔ (r.routes p).Moves path := by
    rw [hflag', hflag, hport]
    unfold Route.Moves Route.Follows
    rw [not_and_or, or_assoc]
  cases w with
  | true =>
    obtain ⟨rfl, rfl⟩ := Prod.mk.inj h
    refine ⟨hmoves, fun _ => ?_, (htouch.trans htouch').trans (touches_saveRouteInLinks E _ p)⟩
    unfold saveRouteInLinks
    dsimp only
    rw [Function.update_self]
  | false =>
    obtain ⟨rfl, rfl⟩ := Prod.mk.inj h
    exact ⟨hmoves, fun h => absurd h Bool.false_ne_true, htouch.trans htouch'⟩

end Touches

/-! ## §2 — the saves of a round -/

/-- The pair of a save request. -/
def Request.pair : Request → Option Flow
  | .delete _ => none
  | .save path => path.rules.head?.map fun rule => (rule.srcIp, rule.dstIp)

section Round

variable {R : Type} [DoubleOps R] {E : Env} {rates : RateMap R} {fuel : Nat} {clock : Flow → Int}
  {r r' : Router} {p : Flow}

/-- The search finds a path the pair's stored route does not do for. -/
def Moves (E : Env) (rates : RateMap R) (fuel : Nat) (r : Router) (p : Flow) : Prop :=
  serverIdx E p.1 ≠ serverIdx E p.2 ∧
    ∃ path ∈ findRoute E rates r.links fuel p, (r.routes p).Moves path

/-- The requests of one pair. -/
structure PairEffect (E : Env) (rates : RateMap R) (fuel : Nat) (r : Router) (p : Flow)
    (r' : Router) (reqs : List Request) : Prop where
  log : r'.log = r.log ++ reqs
  others : ∀ q, q ≠ p → r'.routes q = r.routes q
  /-- There is a save, for this pair, if it moves. -/
  saves : ∀ q, (∃ req ∈ reqs, req.pair = some q) ↔ q = p ∧ Moves E rates fuel r p
  /-- What was saved is the stored route, not marked deleted. -/
  recorded : ∀ path, .save path ∈ reqs →
    (r'.routes p).del = false ∧ flowPath p (r'.routes p) = path

theorem addRoute_effect {now : Int} (h : addRoute E r p now = some r') :
    r'.log = r.log ∧ r'.routes = Function.update r.routes p { r.routes p with tm := now } := by
  unfold addRoute at h
  split at h
  · obtain rfl := Option.some.inj h
    exact ⟨rfl, rfl⟩
  · split at h
    · obtain ⟨list, -, h⟩ := Option.bind_eq_some_iff.mp h
      split at h
      · obtain rfl := Option.some.inj h
        exact ⟨rfl, rfl⟩
      · exact absurd h (by simp)
    · obtain rfl := Option.some.inj h
      exact ⟨rfl, rfl⟩

theorem pair_ne_of_mem_deletes {seqs : List Int} {req : Request}
    (h : req ∈ seqs.map Request.delete) (q : Flow) : req.pair ≠ some q := by
  obtain ⟨seq, -, rfl⟩ := List.mem_map.mp h
  exact fun h => absurd h (by simp [Request.pair])

/-- A pair that stays: at most deletions. -/
theorem pairEffect_kept (hstays : ¬ Moves E rates fuel r p) {seqs : List Int}
    (hroutes : ∀ q, q ≠ p → r'.routes q = r.routes q)
    (hlog : r'.log = r.log ++ seqs.map Request.delete) :
    PairEffect E rates fuel r p r' (seqs.map Request.delete) := by
  refine ⟨hlog, hroutes, fun q => ⟨?_, fun h => absurd h.2 hstays⟩, by simp⟩
  rintro ⟨req, hreq, hpair⟩
  exact absurd hpair (pair_ne_of_mem_deletes hreq q)

/-- A pair that moves: deletions, and the save of the route that is stored now. -/
theorem pairEffect_saved (hmoves : Moves E rates fuel r p) {mid added : Router} {seqs : List Int}
    {now : Int} (hroutes : ∀ q, q ≠ p → mid.routes q = r.routes q)
    (hlog : mid.log = r.log ++ seqs.map Request.delete) (hdel : (mid.routes p).del = false)
    (hadd : addRoute E mid p now = some added) :
    PairEffect E rates fuel r p (saveRoute added p)
      (seqs.map Request.delete ++ [.save (flowPath p (added.routes p))]) := by
  obtain ⟨hlogadd, hroutesadd⟩ := addRoute_effect hadd
  refine ⟨?_, fun q hq => ?_, fun q => ⟨?_, ?_⟩, fun body hbody => ?_⟩
  · show added.log ++ [.save (flowPath p (added.routes p))] = _
    rw [hlogadd, hlog, List.append_assoc]
  · show added.routes q = r.routes q
    rw [hroutesadd, Function.update_of_ne hq]
    exact hroutes q hq
  · rintro ⟨req, hreq, hpair⟩
    rcases List.mem_append.mp hreq with hreq | hreq
    · exact absurd hpair (pair_ne_of_mem_deletes hreq q)
    · rw [List.mem_singleton.mp hreq] at hpair
      exact ⟨(Option.some.inj hpair).symm, hmoves⟩
  · rintro ⟨rfl, -⟩
    exact ⟨_, List.mem_append_right _ (List.mem_singleton_self _), rfl⟩
  · have hbody : body = flowPath p (added.routes p) := by simpa using hbody
    refine ⟨?_, hbody.symm⟩
    show (added.routes p).del = false
    rw [hroutesadd, Function.update_self]
    exact hdel

/-- **One pair, in any state.** -/
theorem pairStep_effect (h : pairStep E rates fuel clock r p = some r') :
    ∃ reqs, PairEffect E rates fuel r p r' reqs := by
  unfold pairStep at h
  obtain ⟨⟨u, mid⟩, hget, h⟩ := Option.bind_eq_some_iff.mp h
  unfold getRoute at hget
  by_cases hne : serverIdx E p.1 = serverIdx E p.2
  · rw [if_pos hne] at hget
    obtain ⟨rfl, rfl⟩ := Prod.mk.inj (Option.some.inj hget)
    obtain rfl := Option.some.inj h
    have hlog : r.log = r.log ++ ([] : List Int).map Request.delete := by simp
    exact ⟨_, pairEffect_kept (fun h => h.1 hne) (fun _ _ => rfl) hlog⟩
  · rw [if_neg hne] at hget
    obtain ⟨path, hfind, happly⟩ := Option.bind_eq_some_iff.mp hget
    obtain ⟨pass, port, hlast⟩ := (findRoute_path hne hfind).last
    obtain ⟨hflag, hdel, hroutes, seqs, hlog⟩ := applyRoute_effect (by simp [hlast]) happly
    have hmoves : Moves E rates fuel r p ↔ u = true := by
      rw [hflag]
      refine ⟨fun ⟨_, path', hfind', hmoves⟩ => ?_, fun hmoves => ⟨hne, path, hfind, hmoves⟩⟩
      rw [hfind] at hfind'
      exact Option.some.inj hfind' ▸ hmoves
    cases u with
    | false =>
      obtain rfl := Option.some.inj h
      exact ⟨_, pairEffect_kept (fun h => absurd (hmoves.mp h) Bool.false_ne_true) hroutes hlog⟩
    | true =>
      obtain ⟨added, hadd, rfl⟩ := Option.map_eq_some_iff.mp h
      exact ⟨_, pairEffect_saved (hmoves.mpr rfl) hroutes hlog (hdel rfl) hadd⟩

/-- The route of a save request is the stored one of some pair, not marked deleted. -/
def Recorded (r : Router) (path : FlowPath) : Prop :=
  ∃ p, (r.routes p).del = false ∧ flowPath p (r.routes p) = path

/-- The requests of several pairs, each handled once. -/
structure RoundEffect (E : Env) (rates : RateMap R) (fuel : Nat) (clock : Flow → Int)
    (ps : List Flow) (r r' : Router) (reqs : List Request) : Prop where
  log : r'.log = r.log ++ reqs
  others : ∀ q, q ∉ ps → r'.routes q = r.routes q
  /-- Saved are the pairs that move at their turn. -/
  saves : ∀ p, (∃ req ∈ reqs, req.pair = some p) ↔
    p ∈ ps ∧ Run.Along (pairStep E rates fuel clock)
      (fun rt q => q = p → Moves E rates fuel rt q) r ps
  /-- Whatever was saved is on record. -/
  recorded : ∀ path, .save path ∈ reqs → Recorded r' path

/-- **The saves of a round.** -/
theorem foldlM_pairStep_effect : ∀ {ps : List Flow} {r r' : Router}, ps.Nodup →
    ps.foldlM (pairStep E rates fuel clock) r = some r' →
      ∃ reqs, RoundEffect E rates fuel clock ps r r' reqs
  | [], r, r', _, h => by
      obtain rfl : r = r' := Option.some.inj h
      exact ⟨[], by simp, fun _ _ => rfl, by simp, by simp⟩
  | p :: ps, r, r', hnodup, h => by
      obtain ⟨hnot, hnodup⟩ := List.nodup_cons.mp hnodup
      obtain ⟨mid, hstep, hrest⟩ := Run.foldlM_cons_some h
      obtain ⟨first, hpair⟩ := pairStep_effect hstep
      obtain ⟨rest, hround⟩ := foldlM_pairStep_effect hnodup hrest
      have halong : ∀ q, Run.Along (pairStep E rates fuel clock)
          (fun rt q' => q' = q → Moves E rates fuel rt q') r (p :: ps) ↔
          (p = q → Moves E rates fuel r p) ∧ Run.Along (pairStep E rates fuel clock)
            (fun rt q' => q' = q → Moves E rates fuel rt q') mid ps := by
        intro q
        refine and_congr_right fun _ => ⟨fun h => h mid hstep, fun h mid' hstep' => ?_⟩
        rw [hstep] at hstep'
        exact Option.some.inj hstep' ▸ h
      refine ⟨first ++ rest, ?_, fun q hq => ?_, fun q => ?_, fun body hbody => ?_⟩
      · rw [hround.log, hpair.log, List.append_assoc]
      · rw [hround.others q fun hmem => hq (List.mem_cons_of_mem p hmem)]
        exact hpair.others q fun heq => hq (heq ▸ List.mem_cons_self)
      · have happend : (∃ req ∈ first ++ rest, req.pair = some q) ↔
            (∃ req ∈ first, req.pair = some q) ∨ ∃ req ∈ rest, req.pair = some q := by
          simp only [List.mem_append, or_and_right, exists_or]
        rw [happend, hpair.saves, hround.saves, halong, List.mem_cons]
        by_cases hq : q = p
        · -- no later turn is this pair's
          subst hq
          have hlater : Run.Along (pairStep E rates fuel clock)
              (fun rt q' => q' = q → Moves E rates fuel rt q') mid ps := by
            refine Run.along_of_mem (fun q' hq' _ heq => ?_) mid
            subst heq
            exact absurd hq' hnot
          simp [hnot, hlater]
        · have hpq : p ≠ q := fun h => hq h.symm
          simp [hq, hpq]
      · rcases List.mem_append.mp hbody with hmem | hmem
        · obtain ⟨hdel, hbody⟩ := hpair.recorded body hmem
          refine ⟨p, ?_⟩
          rw [hround.others p hnot]
          exact ⟨hdel, hbody⟩
        · exact hround.recorded body hmem

theorem activePairs_nodup (rates : RateMap R) : (activePairs rates).Nodup :=
  (rates.nodup.map ofLex.injective).filter _

end Round

/-! ## §3 — refused saves -/

section Refused

variable {R : Type} [DoubleOps R] {E : Env} {rates : RateMap R} {r r1 r2 : Router}

/-- Between `r` and `r1` the save of a route was answered with an error. -/
def Refused (answers : Nat → Bool) (r r1 : Router) (path : FlowPath) : Prop :=
  ∃ i, r.log.length ≤ i ∧ r1.log[i]? = some (.save path) ∧ answers i = false

/-- The refused route was a pair's. -/
def RefusedPair (answers : Nat → Bool) (r r1 : Router) (p : Flow) : Prop :=
  ∃ path, Refused answers r r1 path ∧ (Request.save path).pair = some p

/-- Between `r1` and `r2` a save of the pair was sent. -/
def Resent (r1 r2 : Router) (p : Flow) : Prop :=
  ∃ req ∈ r2.log.drop r1.log.length, req.pair = some p

instance (r1 r2 : Router) (p : Flow) : Decidable (Resent r1 r2 p) :=
  inferInstanceAs (Decidable (∃ req ∈ r2.log.drop r1.log.length, req.pair = some p))

/-- **Refused saves.** For two rounds with the same rates, from any state and for any replies: the
second round sends the save of every refused pair again exactly when, at the turn of each of them, the
search finds a path its stored route does not do for; and the router after the first round has none of
the refused routes on record exactly when nothing was refused. -/
theorem resent_iff {fuel fuel' : Nat} {clock clock' : Flow → Int} (answers : Nat → Bool)
    (h1 : updateRoute E rates fuel clock r = some r1)
    (h2 : updateRoute E rates fuel' clock' r1 = some r2) :
    ((∀ p, RefusedPair answers r r1 p → Resent r1 r2 p) ↔
      ∀ p, RefusedPair answers r r1 p → Run.Along (pairStep E rates fuel' clock')
        (fun rt q => q = p → Moves E rates fuel' rt q) r1 (activePairs rates)) ∧
    ((∀ path, Refused answers r r1 path → ¬ Recorded r1 path) ↔
      ∀ path, ¬ Refused answers r r1 path) := by
  obtain ⟨reqs, hfirst⟩ := foldlM_pairStep_effect (activePairs_nodup rates) h1
  obtain ⟨reqs', hsecond⟩ := foldlM_pairStep_effect (activePairs_nodup rates) h2
  have hsent : ∀ path, Refused answers r r1 path → .save path ∈ reqs := by
    rintro path ⟨i, hi, hget, -⟩
    rw [hfirst.log, List.getElem?_append_right hi] at hget
    exact List.mem_of_getElem? hget
  constructor
  · refine forall₂_congr fun p hp => ?_
    obtain ⟨path, hrefused, hpair⟩ := hp
    have hactive := ((hfirst.saves p).mp ⟨_, hsent path hrefused, hpair⟩).1
    unfold Resent
    rw [hsecond.log, List.drop_left, hsecond.saves p]
    exact and_iff_right hactive
  · refine ⟨fun h path hrefused => ?_, fun h path hrefused => absurd hrefused (h path)⟩
    exact h path hrefused (hfirst.recorded path (hsent path hrefused))

theorem refusedPair_of_getElem {answers : Nat → Bool} {i : Nat} {p : Flow}
    (hi : r.log.length ≤ i) (hget : r1.log[i]?.bind Request.pair = some p)
    (hanswer : answers i = false) : RefusedPair answers r r1 p := by
  obtain ⟨req, hget, hpair⟩ := Option.bind_eq_some_iff.mp hget
  cases req with
  | delete seq => exact absurd hpair (by simp [Request.pair])
  | save path => exact ⟨path, ⟨i, hi, hget, hanswer⟩, hpair⟩

/-- The rates after one record of `172.16.1.1`. -/
def oneFlowRates : RateMap ℚ :=
  (addSendRec twoLeaves Collector.init [sampleFrom "172.16.1.1" 5000]).txRates

/-- Two rounds with these rates: the first saves the flow, the second sends nothing. -/
theorem oneFlow_rounds :
    ∃ r1 r2, updateRoute twoLeaves oneFlowRates 3 (fun _ => 3000000000) (Router.init twoLeaves)
        = some r1 ∧
      updateRoute twoLeaves oneFlowRates 3 (fun _ => 4000000000) r1 = some r2 ∧
      r1.log[0]?.bind Request.pair = some leafFlow ∧ ¬ Resent r1 r2 leafFlow := by
  have hruns : ((updateRoute twoLeaves oneFlowRates 3 (fun _ => 3000000000)
      (Router.init twoLeaves)).bind fun r1 =>
        (updateRoute twoLeaves oneFlowRates 3 (fun _ => 4000000000) r1).map fun r2 =>
          (r1.log[0]?.bind Request.pair, decide (Resent r1 r2 leafFlow)))
      = some (some leafFlow, false) := by decide +kernel
  obtain ⟨r1, h1, hrest⟩ := Option.bind_eq_some_iff.mp hruns
  obtain ⟨r2, h2, hfacts⟩ := Option.map_eq_some_iff.mp hrest
  obtain ⟨hsaved, hresent⟩ := Prod.mk.inj hfacts
  exact ⟨r1, r2, h1, h2, hsaved, of_decide_eq_false hresent⟩

theorem resent_iff_oneFlow :
    ∃ r1 : Router, updateRoute twoLeaves oneFlowRates 3 (fun _ => 3000000000)
        (Router.init twoLeaves) = some r1 ∧
      ¬ ∀ path, Refused (fun _ => false) (Router.init twoLeaves) r1 path → ¬ Recorded r1 path := by
  obtain ⟨r1, r2, h1, h2, hsaved, -⟩ := oneFlow_rounds
  have hpair : RefusedPair (fun _ => false) (Router.init twoLeaves) r1 leafFlow :=
    refusedPair_of_getElem (Nat.zero_le 0) hsaved rfl
  obtain ⟨path, hrefused, -⟩ := hpair
  exact ⟨r1, h1, fun h => (resent_iff _ h1 h2).2.mp h path hrefused⟩

theorem not_resent_oneFlow :
    ∃ r1 r2 : Router, updateRoute twoLeaves oneFlowRates 3 (fun _ => 3000000000)
        (Router.init twoLeaves) = some r1 ∧
      updateRoute twoLeaves oneFlowRates 3 (fun _ => 4000000000) r1 = some r2 ∧
      RefusedPair (fun _ => false) (Router.init twoLeaves) r1 leafFlow ∧
      ¬ Resent r1 r2 leafFlow := by
  obtain ⟨r1, r2, h1, h2, hsaved, hresent⟩ := oneFlow_rounds
  exact ⟨r1, r2, h1, h2, refusedPair_of_getElem (Nat.zero_le 0) hsaved rfl, hresent⟩

end Refused

end SDNware.Server
