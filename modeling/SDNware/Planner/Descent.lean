/-
# SDNware.Planner.Descent — `get_paths` on routings with circulations.

Nothing in the program of `get_routing` keeps flow from going round in circles, and the descent of
`get_paths` follows the circles too.  Two things it does then:

* it hands flow to a switch from which every way on is marked, and that flow is gone.  The first
  descent depends on nothing but the routing (`Descends`): if it gets to `v` the pair has a path, if
  it does not the shares sum to less than the unit (`getAllPaths_of_descends`), and the pair may be
  left without any path;
* it comes back to the switch it has started from, which is never marked.  It cannot if the routing has
  no cycle through that switch, and it does if the first descent goes round one
  (`getPaths_loopFree`).  In between it depends on what is left of the unit when the descent gets to the
  cycle: the cycle of `middleRouting` is walked, the same cycle at the switch with the larger number is
  not.
-/
import SDNware.Planner.Decompose

namespace SDNware.Planner

namespace LpMluRoute

variable {K : Type} [Field K] [LinearOrder K]

/-! ## §1 — the source -/

/-- `get_all_paths`: the entry `paths[u][v]`.  Every pair has a table of its own. -/
def getAllPaths (P : LpMluRoute K) (R : Nat → Nat → Table K) (u v : Nat) : Option (List (Share K)) :=
  if u ∈ P.hosts ∧ v ∈ P.peers u then
    (getPaths P v (P.nNode + 1) u 1 (fun _ => false) (R u v)).map Prod.fst
  else none

/-- The loop of `get_s_to_d_routing` that looks for the widest path. -/
def widestLoop : List (Share K) → Nat → Nat → K → Nat
  | [], _, idx, _ => idx
  | s :: rest, i, idx, bw =>
    if bw < s.2 then widestLoop rest (i + 1) i s.2 else widestLoop rest (i + 1) idx bw

def widestIdx (paths : List (Share K)) : Nat := widestLoop paths 0 0 0

/-- `paths[u][v][idx][0]`. -/
def widestPath (paths : List (Share K)) : Option (List Nat) :=
  (paths[widestIdx paths]?).map Prod.fst

/-- `paths[u][v][idx][1] -= 1/len(self.server[u])`. -/
def takeShare (nServer : Nat) (paths : List (Share K)) : List (Share K) :=
  paths.modify (widestIdx paths) fun s => (s.1, s.2 - 1 / nServer)

/-- The paths of the servers of `u` to the switch `v`, one server after the other. -/
def serverPaths (nServer : Nat) : Nat → List (Share K) → Option (List (List Nat))
  | 0, _ => some []
  | m + 1, paths =>
    (widestPath paths).bind fun p => (serverPaths nServer m (takeShare nServer paths)).map (p :: ·)

omit [Field K] in
theorem widestLoop_lt : ∀ {rest : List (Share K)} {i idx : Nat} {bw : K}, idx < i + rest.length →
    widestLoop rest i idx bw < i + rest.length
  | [], _, _, _, h => h
  | s :: rest, i, idx, bw, h => by
      have hlen : i + (s :: rest).length = i + 1 + rest.length := by
        rw [List.length_cons]
        omega
      unfold widestLoop
      rw [hlen] at h ⊢
      split
      · exact widestLoop_lt (by omega)
      · exact widestLoop_lt h

/-- Whatever the shares, the index is in range as soon as there is a path. -/
theorem widestIdx_lt {paths : List (Share K)} (h : paths ≠ []) : widestIdx paths < paths.length := by
  have hpos := List.length_pos_of_ne_nil h
  have hlt : widestLoop paths 0 0 0 < 0 + paths.length := widestLoop_lt (by omega)
  rwa [Nat.zero_add] at hlt

theorem takeShare_ne_nil {nServer : Nat} {paths : List (Share K)} (h : paths ≠ []) :
    takeShare nServer paths ≠ [] := by
  have hlen : (takeShare nServer paths).length = paths.length := List.length_modify ..
  exact List.ne_nil_of_length_pos (hlen ▸ List.length_pos_of_ne_nil h)

theorem serverPaths_isSome {nServer : Nat} : ∀ {m : Nat} {paths : List (Share K)}, paths ≠ [] →
    (serverPaths nServer m paths).isSome
  | 0, _, _ => rfl
  | m + 1, paths, h => by
      unfold serverPaths widestPath
      rw [List.getElem?_eq_getElem (widestIdx_lt h), Option.map_some, Option.bind_some,
        Option.isSome_map]
      exact serverPaths_isSome (takeShare_ne_nil h)

/-! ## §2 — the first descent -/

/-- The first neighbour that gets flow. -/
def firstUsable (P : LpMluRoute K) (vist : Nat → Bool) (T : Table K) (i : Nat) (js : List Nat) :
    Option Nat :=
  js.find? fun j => Usable P vist T i j

/-- From `i`, always on to the first neighbour that gets flow, the descent gets to `v`. -/
inductive Descends (P : LpMluRoute K) (v : Nat) (T : Table K) : (Nat → Bool) → Nat → Prop
  | arrive {vist : Nat → Bool} {i : Nat}
      (h : firstUsable P vist T i (List.range P.nNode) = some v) : Descends P v T vist i
  | enter {vist : Nat → Bool} {i j : Nat} (h : firstUsable P vist T i (List.range P.nNode) = some j)
      (rest : Descends P v T (Function.update vist j true) j) : Descends P v T vist i

/-- The same for a loop at `i` over `js`. -/
def Leads (P : LpMluRoute K) (v : Nat) (T : Table K) (vist : Nat → Bool) (i : Nat) (js : List Nat) :
    Prop :=
  ∃ j, firstUsable P vist T i js = some j ∧
    (j = v ∨ Descends P v T (Function.update vist j true) j)

variable {P : LpMluRoute K} {u v i j : Nat} {vist : Nat → Bool} {js : List Nat} {f : K}
  {T T0 T' : Table K} {paths : List (Share K)}

theorem descends_iff_leads : Descends P v T vist i ↔ Leads P v T vist i (List.range P.nNode) := by
  constructor
  · intro h
    cases h with
    | arrive h => exact ⟨v, h, Or.inl rfl⟩
    | enter h rest => exact ⟨_, h, Or.inr rest⟩
  · rintro ⟨j, h, rfl | rest⟩
    · exact .arrive h
    · exact .enter h rest

/-- Whether a neighbour gets flow is read off the arc into it. -/
theorem usable_congr (hagree : ∀ a b, vist b = false → T a b = T0 a b) :
    Usable P vist T i j ↔ Usable P vist T0 i j := by
  constructor
  · intro h
    exact ⟨h.fresh, h.ne, h.cap, by rw [← hagree i j h.fresh]; exact h.flow⟩
  · intro h
    exact ⟨h.fresh, h.ne, h.cap, by rw [hagree i j h.fresh]; exact h.flow⟩

theorem firstUsable_congr (hagree : ∀ a b, vist b = false → T a b = T0 a b) :
    firstUsable P vist T i js = firstUsable P vist T0 i js := by
  unfold firstUsable
  congr 1
  funext k
  exact decide_eq_decide.mpr (usable_congr hagree)

theorem firstUsable_some (h : firstUsable P vist T i js = some j) : j ∈ js ∧ Usable P vist T i j := by
  have huse := List.find?_some h
  exact ⟨List.mem_of_find?_eq_some h, of_decide_eq_true huse⟩

theorem firstUsable_skip (hnot : ¬ Usable P vist T i j) :
    firstUsable P vist T i (j :: js) = firstUsable P vist T i js :=
  List.find?_cons_of_neg (by simpa using hnot)

theorem firstUsable_use (huse : Usable P vist T i j) : firstUsable P vist T i (j :: js) = some j :=
  List.find?_cons_of_pos (by simpa using huse)

omit [LinearOrder K] in
/-- The descent only takes from arcs into switches it marks. -/
theorem agree_reduce {g : K} (hagree : ∀ a b, vist b = false → T a b = T0 a b) :
    ∀ a b, Function.update vist j true b = false → reduce T i j g a b = T0 a b := by
  intro a b hb
  obtain ⟨hbj, hfresh⟩ := fresh_of_update hb
  rw [reduce_apply, if_neg fun hab => hbj hab.2, sub_zero]
  exact hagree a b hfresh

theorem paths_of_nil (h : Decomp P v vist i [] f T paths T') : paths = [] := by
  cases h
  rfl

variable [IsStrictOrderedRing K]

/-- **The first descent decides.** If it gets to `v` there is a path; if not, flow is lost. -/
theorem leads_of_decomp (h : Decomp P v vist i js f T paths T')
    (hagree : ∀ a b, vist b = false → T a b = T0 a b) (hi : i < P.nNode)
    (hjs : ∀ j ∈ js, j < P.nNode) (hf : 0 < f) :
    (Leads P v T0 vist i js → paths ≠ []) ∧ (¬ Leads P v T0 vist i js → total paths < f) := by
  induction h with
  | done vist i f T =>
    exact ⟨fun ⟨_, h, _⟩ => absurd h (by simp [firstUsable]), fun _ => hf⟩
  | @skip vist i j js f T T' paths hnot rest ih =>
    have hskip : Leads P v T0 vist i (j :: js) ↔ Leads P v T0 vist i js := by
      unfold Leads
      rw [firstUsable_skip fun h => hnot ((usable_congr hagree).mpr h)]
    rw [hskip]
    exact ih hagree hi (fun k hk => hjs k (List.mem_cons_of_mem _ hk)) hf
  | @arrive vist i js f T T' paths huse rest ih =>
    have hlead : Leads P v T0 vist i (v :: js) :=
      ⟨v, firstUsable_use ((usable_congr hagree).mp huse), Or.inl rfl⟩
    exact ⟨fun _ => List.cons_ne_nil _ _, fun h => absurd hlead h⟩
  | @enter vist i j js f T T1 T' below paths huse hj sub rest ihsub ih =>
    have hg := min_pos_of_usable huse hf
    have hjn := hjs j List.mem_cons_self
    have hbelow := ihsub (agree_reduce hagree) hjn (fun k hk => List.mem_range.mp hk) hg
    have hfirst : firstUsable P vist T0 i (j :: js) = some j :=
      firstUsable_use ((usable_congr hagree).mp huse)
    constructor
    · rintro ⟨k, hk, hkv | hdesc⟩
      · obtain rfl := Option.some.inj (hfirst.symm.trans hk)
        exact absurd hkv hj
      · obtain rfl := Option.some.inj (hfirst.symm.trans hk)
        have hne := hbelow.1 (descends_iff_leads.mp hdesc)
        simp [prepend, hne]
    · intro hnot
      -- what the neighbour has lost is not handed out again
      have hlost := hbelow.2 fun hlead =>
        hnot ⟨j, hfirst, Or.inr (descends_iff_leads.mpr hlead)⟩
      have hrest := (within_of_decomp rest hi (forall_mem_remaining hjs)
        (sub_nonneg.mpr (min_le_left ..)) pos_of_remaining_ne).total_le
      rw [total_append, total_prepend]
      linarith

/-- Where every arc in use could carry all of the flow, there is no second descent. -/
theorem leads_of_ne_nil (h : Decomp P v vist i js f T paths T')
    (hagree : ∀ a b, vist b = false → T a b = T0 a b) (hwhole : ∀ a b, tol < T0 a b → f ≤ T0 a b)
    (hne : paths ≠ []) : Leads P v T0 vist i js := by
  induction h with
  | done => exact absurd rfl hne
  | @skip vist i j js f T T' paths hnot rest ih =>
    obtain ⟨k, hk, hlead⟩ := ih hagree hwhole hne
    refine ⟨k, ?_, hlead⟩
    rw [firstUsable_skip fun h => hnot ((usable_congr hagree).mpr h)]
    exact hk
  | @arrive vist i js f T T' paths huse rest ih =>
    exact ⟨v, firstUsable_use ((usable_congr hagree).mp huse), Or.inl rfl⟩
  | @enter vist i j js f T T1 T' below paths huse hj sub rest ihsub ih =>
    have huse0 := (usable_congr hagree).mp huse
    have hall : min f (T i j) = f := by
      rw [hagree i j huse.fresh]
      exact min_eq_left (hwhole i j huse0.flow)
    have hstop : remaining (f - min f (T i j)) js = [] := by
      rw [hall, sub_self]
      exact if_pos tol_pos
    rw [hstop] at rest
    have hbelow : below ≠ [] := by
      rintro rfl
      exact hne (paths_of_nil rest)
    have hlead := ihsub (agree_reduce hagree)
      (fun a b hab => (min_le_left ..).trans (hwhole a b hab)) hbelow
    exact ⟨j, firstUsable_use huse0, Or.inr (descends_iff_leads.mpr hlead)⟩

/-- **A pair whose first descent gets through has a path.** For every table, feasible or not, and
every pair of switches with hosts: `paths[u][v]` is there.  If the first descent gets to `v` it is not
empty and every access to a widest path is in range; if not, its shares sum to less than the unit, and
it is empty if the arcs in use carry whole units. -/
theorem getAllPaths_of_descends (R : Nat → Nat → Table K) (hu : u ∈ P.hosts) (hv : v ∈ P.peers u) :
    ∃ paths, getAllPaths P R u v = some paths ∧
      (Descends P v (R u v) (fun _ => false) u →
        paths ≠ [] ∧ ∀ nServer, (serverPaths nServer nServer paths).isSome) ∧
      (¬ Descends P v (R u v) (fun _ => false) u →
        total paths < 1 ∧ ((∀ a b, tol < R u v a b → 1 ≤ R u v a b) → paths = [])) := by
  have hun := (mem_hosts.mp hu).1
  obtain ⟨paths, T', hret, hdecomp⟩ := getPaths_returns P v u 1 (fun _ => false) (R u v)
  have hdecides := leads_of_decomp hdecomp (fun _ _ _ => rfl) hun
    (fun k hk => List.mem_range.mp hk) zero_lt_one
  rw [← descends_iff_leads] at hdecides
  refine ⟨paths, ?_, fun hdesc => ?_, fun hnot => ⟨hdecides.2 hnot, fun hwhole => ?_⟩⟩
  · rw [getAllPaths, if_pos ⟨hu, hv⟩, hret _ (Nat.lt_succ_self _)]
    rfl
  · have hne := hdecides.1 hdesc
    exact ⟨hne, fun nServer => serverPaths_isSome hne⟩
  · by_contra hne
    exact hnot (descends_iff_leads.mpr (leads_of_ne_nil hdecomp (fun _ _ _ => rfl) hwhole hne))

theorem getAllPaths_of_descends_diamond :
    ∃ paths, getAllPaths diamond (fun _ _ => diamondFlow) 0 3 = some paths ∧ paths ≠ [] ∧
      (serverPaths 2 2 paths).isSome := by
  have hdesc : Descends diamond 3 diamondFlow (fun _ => false) 0 :=
    .enter (j := 1) (by decide +kernel) (.arrive (by decide +kernel))
  obtain ⟨paths, hpaths, hthrough, -⟩ :=
    getAllPaths_of_descends (P := diamond) (u := 0) (v := 3) (fun _ _ => diamondFlow)
      (by decide +kernel) (by decide +kernel)
  exact ⟨paths, hpaths, (hthrough hdesc).1, (hthrough hdesc).2 2⟩

/-- A switch `2` that leads nowhere else, on the way from `0` over `1` to `3`. -/
def trap : LpMluRoute ℚ where
  nNode := 4
  bwHost u := if u = 0 ∨ u = 3 then 1 else 0
  capacity i j := if i = 1 ∨ j = 1 then 1 else 0

/-- A unit each way between `0` and `3`, and a unit in circles between `1` and `2`. -/
def trapRouting : Var → ℚ
  | .f 0 3 i j => if [(0, 1), (1, 2), (2, 1), (1, 3)].contains (i, j) then 1 else 0
  | .f 3 0 i j => if [(3, 1), (1, 0)].contains (i, j) then 1 else 0
  | .lam .. => 1
  | .mlu => 2
  | _ => 0

/-- The whole unit is handed to `2`, whose only neighbour is marked: a pair without a path. -/
theorem not_getAllPaths_trap :
    ∃ rows, trap.getRouting = .ok rows ∧ trap.Feasible rows trapRouting ∧
      0 ∈ trap.hosts ∧ 3 ∈ trap.peers 0 ∧
      getAllPaths trap (trap.routing trapRouting) 0 3 = some [] ∧
      serverPaths 1 1 ([] : List (Share ℚ)) = none :=
  ⟨(trap.getRouting.toOption).getD [], by decide +kernel, ⟨by decide +kernel, by decide +kernel⟩,
    by decide +kernel, by decide +kernel, by decide +kernel, rfl⟩

/-! ## §3 — coming back to the source -/

/-- A hop to a switch that is not the destination, over an entry the descent would follow if nothing
were marked. -/
def Hop (P : LpMluRoute K) (v : Nat) (T : Table K) (i j : Nat) : Prop :=
  Usable P (fun _ => false) T i j ∧ j ≠ v

/-- The table has a cycle through `u`, not by way of `v`, of entries above the tolerance. -/
def Circles (P : LpMluRoute K) (v : Nat) (T : Table K) (u : Nat) : Prop :=
  Relation.TransGen (Hop P v T) u u

omit [IsStrictOrderedRing K] in
/-- A hop of the descent, which only takes from the table, is a hop of the table it started with. -/
theorem hop_of_usable (huse : Usable P vist T i j) (hj : j ≠ v) (hT : ∀ a b, T a b ≤ T0 a b) :
    Hop P v T0 i j :=
  ⟨⟨rfl, huse.ne, huse.cap, huse.flow.trans_le (hT i j)⟩, hj⟩

theorem reduce_le {g : K} (hg : 0 ≤ g) (T : Table K) (i j a b : Nat) : reduce T i j g a b ≤ T a b := by
  rw [reduce_apply]
  split
  · exact sub_le_self _ hg
  · rw [sub_zero]

/-- The descent only takes from the table. -/
theorem table_le_of_decomp (h : Decomp P v vist i js f T paths T') (hf : js ≠ [] → 0 < f) (a b : Nat) :
    T' a b ≤ T a b := by
  induction h with
  | done => exact le_rfl
  | skip hnot rest ih => exact ih fun _ => hf (List.cons_ne_nil _ _)
  | @arrive vist i js f T T' paths huse rest ih =>
    have hg := min_pos_of_usable huse (hf (List.cons_ne_nil _ _))
    exact (ih pos_of_remaining_ne).trans (reduce_le hg.le ..)
  | @enter vist i j js f T T1 T' below paths huse hj sub rest ihsub ih =>
    have hg := min_pos_of_usable huse (hf (List.cons_ne_nil _ _))
    calc T' a b ≤ T1 a b := ih pos_of_remaining_ne
      _ ≤ reduce T i j (min f (T i j)) a b := ihsub fun _ => hg
      _ ≤ T a b := reduce_le hg.le ..

omit [IsStrictOrderedRing K] in
/-- After its first switch a path visits nothing twice, and nothing that was marked. -/
theorem tails_of_decomp (h : Decomp P v vist i js f T paths T') :
    ∀ s ∈ paths, ∃ q, s.1 = i :: q ∧ q.Nodup ∧ ∀ x ∈ q, vist x = false := by
  induction h with
  | done => simp
  | skip hnot rest ih => exact ih
  | @arrive vist i js f T T' paths huse rest ih =>
    refine List.forall_mem_cons.mpr ⟨⟨[v], rfl, List.nodup_singleton v, ?_⟩, ih⟩
    exact List.forall_mem_singleton.mpr huse.fresh
  | @enter vist i j js f T T1 T' below paths huse hj sub rest ihsub ih =>
    intro s hs
    rcases List.mem_append.mp hs with hs | hs
    · obtain ⟨s', hs', rfl⟩ := List.mem_map.mp hs
      obtain ⟨q, hq, hnodup, hfresh⟩ := ihsub s' hs'
      have hnot : j ∉ q := fun hmem => (fresh_of_update (hfresh j hmem)).1 rfl
      refine ⟨j :: q, by rw [hq], List.nodup_cons.mpr ⟨hnot, hnodup⟩, ?_⟩
      exact List.forall_mem_cons.mpr
        ⟨huse.fresh, fun x hx => (fresh_of_update (hfresh x hx)).2⟩
    · exact ih s hs

/-- A descent that has come from `u` to `i` does not get back to `u` if the table has no circle. -/
theorem avoids_of_decomp (huv : u ≠ v) (hcircles : ¬ Circles P v T0 u)
    (h : Decomp P v vist i js f T paths T') (hf : js ≠ [] → 0 < f) (hT : ∀ a b, T a b ≤ T0 a b)
    (hreach : Relation.ReflTransGen (Hop P v T0) u i) : ∀ s ∈ paths, u ∉ s.1.tail := by
  induction h with
  | done => simp
  | skip hnot rest ih => exact ih (fun _ => hf (List.cons_ne_nil _ _)) hT hreach
  | @arrive vist i js f T T' paths huse rest ih =>
    have hg := min_pos_of_usable huse (hf (List.cons_ne_nil _ _))
    refine List.forall_mem_cons.mpr ⟨by simpa using huv, ?_⟩
    exact ih pos_of_remaining_ne (fun a b => (reduce_le hg.le ..).trans (hT a b)) hreach
  | @enter vist i j js f T T1 T' below paths huse hj sub rest ihsub ih =>
    have hg := min_pos_of_usable huse (hf (List.cons_ne_nil _ _))
    have hhop : Hop P v T0 i j := hop_of_usable huse hj hT
    have hreduced : ∀ a b, reduce T i j (min f (T i j)) a b ≤ T0 a b :=
      fun a b => (reduce_le hg.le ..).trans (hT a b)
    intro s hs
    rcases List.mem_append.mp hs with hs | hs
    · obtain ⟨s', hs', rfl⟩ := List.mem_map.mp hs
      obtain ⟨q, hq, -, -⟩ := tails_of_decomp sub s' hs'
      -- a hop to `u` would close the circle
      have huj : u ≠ j := by
        rintro rfl
        exact hcircles (Relation.TransGen.tail' hreach hhop)
      have hnot := ihsub (fun _ => hg) hreduced (hreach.tail hhop) s' hs'
      rw [hq, List.tail_cons] at hnot
      rw [List.tail_cons, hq]
      exact List.not_mem_cons_of_ne_of_not_mem huj hnot
    · refine ih pos_of_remaining_ne (fun a b => ?_) hreach s hs
      exact (table_le_of_decomp sub (fun _ => hg) a b).trans (hreduced a b)

/-- The first descent comes from `i` to `u`, and from there gets to `v`. -/
inductive Returns (P : LpMluRoute K) (v : Nat) (T : Table K) (u : Nat) : (Nat → Bool) → Nat → Prop
  | back {vist : Nat → Bool} {i : Nat} (h : firstUsable P vist T i (List.range P.nNode) = some u)
      (rest : Descends P v T (Function.update vist u true) u) : Returns P v T u vist i
  | enter {vist : Nat → Bool} {i j : Nat} (h : firstUsable P vist T i (List.range P.nNode) = some j)
      (hj : j ≠ v) (rest : Returns P v T u (Function.update vist j true) j) : Returns P v T u vist i

omit [IsStrictOrderedRing K] in
/-- The paths found below the first neighbour that gets flow are among those of the loop. -/
theorem descent_of_firstUsable (h : Decomp P v vist i js f T paths T')
    (hfirst : firstUsable P vist T i js = some j) (hj : j ≠ v) :
    ∃ below T1, Decomp P v (Function.update vist j true) j (List.range P.nNode) (min f (T i j))
        (reduce T i j (min f (T i j))) below T1 ∧ ∀ s ∈ below, (i :: s.1, s.2) ∈ paths := by
  induction h with
  | done => exact absurd hfirst (by simp [firstUsable])
  | skip hnot rest ih =>
    rw [firstUsable_skip hnot] at hfirst
    exact ih hfirst
  | arrive huse rest ih =>
    rw [firstUsable_use huse] at hfirst
    exact absurd (Option.some.inj hfirst).symm hj
  | enter huse hne sub rest ihsub ih =>
    rw [firstUsable_use huse] at hfirst
    obtain rfl := Option.some.inj hfirst
    exact ⟨_, _, sub, fun s hs => List.mem_append_left _ (List.mem_map_of_mem hs)⟩

/-- A first descent that comes back to `u` leaves a path that does. -/
theorem revisits_of_returns (huv : u ≠ v) (hreturns : Returns P v T0 u vist i)
    (h : Decomp P v vist i (List.range P.nNode) f T paths T')
    (hagree : ∀ a b, vist b = false → T a b = T0 a b) (hf : 0 < f) :
    ∃ s ∈ paths, u ∈ s.1.tail := by
  induction hreturns generalizing f T paths T' with
  | @back vist i hfirst rest =>
    rw [← firstUsable_congr hagree] at hfirst
    obtain ⟨hu, huse⟩ := firstUsable_some hfirst
    obtain ⟨below, T1, hsub, hmem⟩ := descent_of_firstUsable h hfirst huv
    have hbelow := (leads_of_decomp hsub (agree_reduce hagree) (List.mem_range.mp hu)
      (fun k hk => List.mem_range.mp hk) (min_pos_of_usable huse hf)).1 (descends_iff_leads.mp rest)
    obtain ⟨s, hs⟩ := List.exists_mem_of_ne_nil _ hbelow
    obtain ⟨q, hq, -, -⟩ := tails_of_decomp hsub s hs
    exact ⟨_, hmem s hs, hq ▸ List.mem_cons_self⟩
  | @enter vist i j hfirst hj rest ih =>
    rw [← firstUsable_congr hagree] at hfirst
    have huse := (firstUsable_some hfirst).2
    obtain ⟨below, T1, hsub, hmem⟩ := descent_of_firstUsable h hfirst hj
    obtain ⟨s, hs, hu⟩ := ih hsub (agree_reduce hagree) (min_pos_of_usable huse hf)
    exact ⟨_, hmem s hs, List.mem_of_mem_tail hu⟩

/-- **Without a circle through the source the paths are loop-free.** For every table, feasible or not:
the call returns; if the entries above the tolerance form no cycle through `u` that avoids `v`, no
path visits a switch twice; and if the first descent comes back to `u` and gets to `v` from there, one
does. -/
theorem getPaths_loopFree (P : LpMluRoute K) (T : Table K) (huv : u ≠ v) :
    ∃ paths T', (∀ fuel, P.nNode < fuel →
        getPaths P v fuel u 1 (fun _ => false) T = some (paths, T')) ∧
      (¬ Circles P v T u → ∀ s ∈ paths, s.1.Nodup) ∧
      (Returns P v T u (fun _ => false) u → ∃ s ∈ paths, ¬ s.1.Nodup) := by
  obtain ⟨paths, T', hret, hdecomp⟩ := getPaths_returns P v u 1 (fun _ => false) T
  have htails := tails_of_decomp hdecomp
  refine ⟨paths, T', hret, fun hcircles s hs => ?_, fun hreturns => ?_⟩
  · have hnot := avoids_of_decomp huv hcircles hdecomp (fun _ => zero_lt_one) (fun _ _ => le_rfl)
      .refl s hs
    obtain ⟨q, hq, hnodup, -⟩ := htails s hs
    rw [hq] at hnot ⊢
    exact List.nodup_cons.mpr ⟨hnot, hnodup⟩
  · obtain ⟨s, hs, hu⟩ := revisits_of_returns huv hreturns hdecomp (fun _ _ _ => rfl) zero_lt_one
    obtain ⟨q, hq, -, -⟩ := htails s hs
    refine ⟨s, hs, fun hnodup => ?_⟩
    rw [hq] at hu hnodup
    exact (List.nodup_cons.mp hnodup).1 hu

/-- Nothing in the diamond leads back to the source. -/
theorem getPaths_loopFree_diamond :
    ∃ paths T', getPaths diamond 3 5 0 1 (fun _ => false) diamondFlow = some (paths, T') ∧
      ∀ s ∈ paths, s.1.Nodup := by
  have hcircles : ¬ Circles diamond 3 diamondFlow 0 := by
    intro h
    obtain ⟨i, -, hhop⟩ := Relation.TransGen.tail'_iff.mp h
    have hflow := hhop.1.flow
    have hzero : diamondFlow i 0 = 0 := by
      unfold diamondFlow
      simp
    rw [hzero] at hflow
    exact absurd hflow tol_pos.not_gt
  obtain ⟨paths, T', hret, hnodup, -⟩ :=
    getPaths_loopFree (u := 0) (v := 3) diamond diamondFlow (by decide)
  exact ⟨paths, T', hret 5 (by decide), hnodup hcircles⟩

/-- A switch `0` between `1` and `2`. -/
def middle : LpMluRoute ℚ where
  nNode := 3
  bwHost u := if u = 0 ∨ u = 2 then 1 else 0
  capacity i j := if i = 0 ∨ j = 0 then 1 else 0

/-- A unit each way between `0` and `2`, and a unit in circles between `0` and `1`. -/
def middleRouting : Var → ℚ
  | .f 0 2 i j => if [(0, 1), (1, 0), (0, 2)].contains (i, j) then 1 else 0
  | .f 2 0 i j => if (i, j) = (2, 0) then 1 else 0
  | .lam .. => 1
  | .mlu => 2
  | _ => 0

/-- The descent goes to `1` first and from there back to the source. -/
theorem not_getPaths_loopFree_middle :
    ∃ rows, middle.getRouting = .ok rows ∧ middle.Feasible rows middleRouting ∧
      (getPaths middle 2 4 0 1 (fun _ => false) (middle.routing middleRouting 0 2)).map Prod.fst =
        some [([0, 1, 0, 2], 1)] ∧ ¬ [0, 1, 0, 2].Nodup :=
  ⟨(middle.getRouting.toOption).getD [], by decide +kernel, ⟨by decide +kernel, by decide +kernel⟩,
    by decide +kernel, by decide⟩

/-- A cycle through the source that is never walked: all of the unit has gone to `1` before. -/
example :
    Circles middle 1 (fun i j => if (i, j) ∈ [(0, 1), (0, 2), (2, 0)] then 1 else 0) 0 ∧
      (getPaths middle 1 4 0 1 (fun _ => false)
        (fun i j => if (i, j) ∈ [(0, 1), (0, 2), (2, 0)] then 1 else 0)).map Prod.fst =
          some [([0, 1], 1)] := by
  refine ⟨.tail (.single (b := 2) ?_) ?_, by decide +kernel⟩ <;>
    exact ⟨by decide +kernel, by decide⟩

end LpMluRoute

end SDNware.Planner
