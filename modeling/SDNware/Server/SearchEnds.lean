/-
# SDNware.Server.SearchEnds — when the search of `get_route` ends.

Every round of the search looks for a link out of the visited set with a load below 4·10¹².  As long
as there is one, the round marks a new switch and records the link it was entered by: the visited
switches stay a tree rooted at the source (`SearchTree`), and the search ends within `n_switch - 1`
rounds.  When there is none, the round acts on switch 0 instead.  Whatever that leads to, a switch
outside the part reachable over such links never gets a predecessor inside it (`Cut`), so the
reconstruction from an unreachable destination does not arrive at the source.

Together: the search returns exactly when the destination is reachable (`findRoute_of_reaches`,
`findRoute_of_not_reaches`).  `get_route` as a whole also has to look up the ingress port of a first
route and to erase the route it replaces (`getRoute_returns_iff`).
-/
import Mathlib.Data.Rat.Floor
import SDNware.Lib.Walk
import SDNware.Server.PairStep

namespace SDNware.Server

/-! ## §1 — links by index -/

/-- A link between two switches, by their indices and its own among the parallel ones. -/
abbrev LinkIdx := Nat × Nat × Nat

/-- The switch a link leaves. -/
abbrev LinkIdx.src (c : LinkIdx) : Nat := c.1

/-- The switch a link enters. -/
abbrev LinkIdx.dst (c : LinkIdx) : Nat := c.2.1

/-- The link a scan has chosen. -/
def Choice.link (best : Choice) : LinkIdx := (best.s, best.d, best.i)

/-- The link by which a switch was entered. -/
def entryLink (pre : Nat → Nat × Nat) (x : Nat) : LinkIdx := ((pre x).1, x, (pre x).2)

/-- What the comparisons of a scan rest on: a load below a bound is below every larger one, and
storing it as a `long long` does not raise it above the bound. -/
class OrderedLoads (R : Type) [DoubleOps R] : Prop where
  lt_mono : ∀ {a : R} {u v : Int}, u ≤ v → DoubleOps.lt a (DoubleOps.ofInt u) →
    DoubleOps.lt a (DoubleOps.ofInt v)
  toInt_le : ∀ {a : R} {u : Int}, DoubleOps.lt a (DoubleOps.ofInt u) → DoubleOps.toInt a ≤ u

/-- The conversion to `long long` of an exact load is at most every integer the load is below. -/
theorem toInt_le_of_lt {q : ℚ} {u : Int} (h : q < u) : DoubleOps.toInt q ≤ u := by
  have hden : (0 : Int) < q.den := by exact_mod_cast q.den_pos
  have hnum : q.num < u * q.den := by
    rw [← Rat.num_div_den q, div_lt_iff₀ (by exact_mod_cast q.den_pos)] at h
    exact_mod_cast h
  have hmod := Int.lt_tmod_of_pos q.num hden
  have hsplit := Int.tdiv_mul_add_tmod q.num q.den
  have hlt : q.num.tdiv q.den * q.den < (u + 1) * q.den := by
    rw [add_mul, one_mul]
    omega
  exact Int.le_of_lt_add_one (lt_of_mul_lt_mul_right hlt hden.le)

instance : OrderedLoads ℚ where
  lt_mono := by
    intro a u v huv h
    have hlt : a < (u : ℚ) := of_decide_eq_true h
    have hcast : (u : ℚ) ≤ v := by exact_mod_cast huv
    exact decide_eq_true (hlt.trans_le hcast)
  toInt_le h := toInt_le_of_lt (of_decide_eq_true h)

section Links

variable {R : Type} [DoubleOps R] (E : Env) (rates : RateMap R) (links : Links) (p : Flow)

/-- The link exists. -/
def IsLink (c : LinkIdx) : Prop :=
  c.src < E.nSwitch ∧ c.dst < E.nSwitch ∧
    c.2.2 < (links (E.switchIdxToName c.src, E.switchIdxToName c.dst)).length

instance (c : LinkIdx) : Decidable (IsLink E links c) := inferInstanceAs (Decidable (_ ∧ _ ∧ _))

/-- The load of a link. -/
def linkLoad (c : LinkIdx) : R := getInterfaceRate E rates links c.src c.dst c.2.2 p

/-- The switch a link enters and its port there. -/
def linkHop (c : LinkIdx) : PathHop :=
  (E.switchIdxToName c.dst,
    ((links (E.switchIdxToName c.src, E.switchIdxToName c.dst))[c.2.2]?.map Link.port2).getD "")

/-- The link exists and its load is below the bound the search starts with. -/
def IsLight (c : LinkIdx) : Prop :=
  IsLink E links c ∧ DoubleOps.lt (linkLoad E rates links p c) (DoubleOps.ofInt 4000000000000)

/-- Reachability over links below that bound. -/
def Reaches : Nat → Nat → Prop :=
  Relation.ReflTransGen fun i j => ∃ c : LinkIdx, IsLight E rates links p c ∧ c.src = i ∧ c.dst = j

end Links

section Search

variable {R : Type} [DoubleOps R] {E : Env} {rates : RateMap R} {links : Links} {p : Flow}

theorem mem_candidates_iff {visit : Nat → Bool} {c : LinkIdx} :
    c ∈ candidates E links visit ↔
      IsLink E links c ∧ visit c.src = true ∧ visit c.dst = false := by
  obtain ⟨i, j, k⟩ := c
  simp only [candidates, IsLink, List.mem_flatMap, List.mem_filter, List.mem_range, List.mem_map,
    Prod.mk.injEq, Bool.not_eq_true']
  constructor
  · rintro ⟨i, ⟨hi, hvi⟩, j, ⟨hj, hvj⟩, k, hk, rfl, rfl, rfl⟩
    exact ⟨⟨hi, hj, hk⟩, hvi, hvj⟩
  · rintro ⟨⟨hi, hj, hk⟩, hvi, hvj⟩
    exact ⟨i, ⟨hi, hvi⟩, j, ⟨hj, hvj⟩, k, hk, rfl, rfl, rfl⟩

/-! ## §2 — the tree of the search -/

/-- From every visited switch the predecessors lead back to `s`, over existing links that meet
`Q`. -/
structure SearchTree (E : Env) (links : Links) (Q : LinkIdx → Prop) (s : Nat)
    (visit : Nat → Bool) (pre : Nat → Nat × Nat) : Prop where
  root : visit s = true
  back : ∀ x, visit x = true → ∃ l, Orbit (fun y => (pre y).1) s x l ∧
    ∀ y ∈ l, visit y = true ∧ IsLink E links (entryLink pre y) ∧ Q (entryLink pre y)

theorem tree_start (Q : LinkIdx → Prop) (s : Nat) (pre : Nat → Nat × Nat) :
    SearchTree E links Q s (Function.update (fun _ => false) s true) pre where
  root := Function.update_self ..
  back := by
    intro x hx
    have hxs : x = s := by
      by_contra hne
      rw [Function.update_of_ne hne] at hx
      exact absurd hx (by simp)
    subst hxs
    exact ⟨[], .stop, by simp⟩

/-- A link out of the visited set extends the tree. -/
theorem tree_update {Q : LinkIdx → Prop} {s : Nat} {visit : Nat → Bool} {pre : Nat → Nat × Nat}
    (h : SearchTree E links Q s visit pre) {c : LinkIdx} (hc : c ∈ candidates E links visit)
    (hQ : Q c) :
    SearchTree E links Q s (Function.update visit c.dst true)
      (Function.update pre c.dst (c.src, c.2.2)) := by
  obtain ⟨hlink, hsrc, hdst⟩ := mem_candidates_iff.mp hc
  have hold : ∀ {y : Nat}, visit y = true → y ≠ c.dst := by
    rintro y hy rfl
    rw [hdst] at hy
    exact absurd hy (by simp)
  -- the visited part keeps its predecessors, so the old orbits are orbits of the new table
  have hback : ∀ x, visit x = true → ∃ l,
      Orbit (fun y => (Function.update pre c.dst (c.src, c.2.2) y).1) s x l ∧
      ∀ y ∈ l, Function.update visit c.dst true y = true ∧
        IsLink E links (entryLink (Function.update pre c.dst (c.src, c.2.2)) y) ∧
        Q (entryLink (Function.update pre c.dst (c.src, c.2.2)) y) := by
    intro x hx
    obtain ⟨l, horbit, hl⟩ := h.back x hx
    refine ⟨l, horbit.congr fun y hy => ?_, fun y hy => ?_⟩
    · rw [Function.update_of_ne (hold (hl y hy).1)]
    · unfold entryLink
      rw [Function.update_of_ne (hold (hl y hy).1), Function.update_of_ne (hold (hl y hy).1)]
      exact hl y hy
  refine ⟨?_, fun x hx => ?_⟩
  · rw [Function.update_of_ne (hold h.root)]
    exact h.root
  · by_cases hxc : x = c.dst
    · subst hxc
      obtain ⟨l, horbit, hl⟩ := hback c.src hsrc
      refine ⟨c.dst :: l, .step (hold h.root).symm ?_, fun y hy => ?_⟩
      · rw [Function.update_self]
        exact horbit
      · rcases List.mem_cons.mp hy with rfl | hy
        · unfold entryLink
          rw [Function.update_self, Function.update_self]
          exact ⟨rfl, hlink, hQ⟩
        · exact hl y hy
    · rw [Function.update_of_ne hxc] at hx
      exact hback x hx

/-! ## §3 — a search that never falls back ends -/

/-- As long as the scans choose links out of the visited set, as many rounds as there are unvisited
switches reach `d`. -/
theorem search_of_scan {Q : LinkIdx → Prop} {s d : Nat} (hd : d < E.nSwitch)
    (hscan : ∀ visit : Nat → Bool, visit s = true → visit d = false →
      (scan E rates links p visit).link ∈ candidates E links visit ∧
        Q (scan E rates links p visit).link) :
    ∀ {fuel : Nat} {visit : Nat → Bool} {pre : Nat → Nat × Nat},
      SearchTree E links Q s visit pre → visit d = false → (unvisited E.nSwitch visit).card ≤ fuel →
        ∃ visit' pre', search E rates links p d fuel visit pre = some pre' ∧
          SearchTree E links Q s visit' pre' ∧ visit' d = true
  | 0, visit, _, _, hvd, hfuel => by
      have hmem : d ∈ unvisited E.nSwitch visit := by simp [unvisited, hd, hvd]
      rw [Finset.card_eq_zero.mp (Nat.le_zero.mp hfuel)] at hmem
      exact absurd hmem (by simp)
  | fuel + 1, visit, pre, htree, hvd, hfuel => by
      obtain ⟨hmem, hQ⟩ := hscan visit htree.root hvd
      have hnext := tree_update htree hmem hQ
      obtain ⟨hlink, -, hdst⟩ := mem_candidates_iff.mp hmem
      unfold search
      dsimp only
      split
      · rename_i heq
        refine ⟨_, _, rfl, hnext, ?_⟩
        rw [← heq]
        exact Function.update_self ..
      · rename_i hne
        refine search_of_scan hd hscan hnext ?_ ?_
        · rw [Function.update_of_ne (fun heq => hne heq.symm)]
          exact hvd
        · have hless := card_unvisited_update hlink.2.1 hdst
          exact Nat.le_of_lt_succ (hless.trans_le hfuel)

/-- More fuel does not change what a search returns. -/
theorem search_mono {d : Nat} : ∀ {fuel fuel' : Nat} {visit : Nat → Bool}
    {pre pre' : Nat → Nat × Nat}, fuel ≤ fuel' →
      search E rates links p d fuel visit pre = some pre' →
        search E rates links p d fuel' visit pre = some pre'
  | 0, _, _, _, _, _, h => absurd h (by simp [search])
  | fuel + 1, 0, _, _, _, hle, _ => absurd hle (by omega)
  | fuel + 1, fuel' + 1, visit, pre, pre', hle, h => by
      unfold search at h ⊢
      dsimp only at h ⊢
      split
      · rename_i heq
        rwa [if_pos heq] at h
      · rename_i hne
        rw [if_neg hne] at h
        exact search_mono (Nat.le_of_succ_le_succ hle) h

/-- The reconstruction along an orbit of existing links. -/
theorem walkBack_of_orbit {pre : Nat → Nat × Nat} {s x : Nat} {l : List Nat}
    (h : Orbit (fun y => (pre y).1) s x l) (hl : ∀ y ∈ l, IsLink E links (entryLink pre y)) :
    ∀ {fuel : Nat} (path : List PathHop), l.length < fuel →
      walkBack E links pre s fuel x path =
        some ((l.map fun y => linkHop E links (entryLink pre y)).reverse ++ path) := by
  induction h with
  | stop =>
    rintro (_ | fuel) path hfuel
    · exact absurd hfuel (by simp)
    · simp [walkBack]
  | @step x l hne rest ih =>
    rintro (_ | fuel) path hfuel
    · exact absurd hfuel (by simp)
    · obtain ⟨-, -, hidx⟩ := hl x List.mem_cons_self
      have hget : (links (E.switchIdxToName (pre x).1, E.switchIdxToName x))[(pre x).2]? =
          some (links (E.switchIdxToName (pre x).1, E.switchIdxToName x))[(pre x).2] :=
        List.getElem?_eq_getElem hidx
      have hhop : linkHop E links (entryLink pre x) = (E.switchIdxToName x,
          (links (E.switchIdxToName (pre x).1, E.switchIdxToName x))[(pre x).2].port2) := by
        simp only [linkHop, entryLink, LinkIdx.src, LinkIdx.dst, hget, Option.map_some,
          Option.getD_some]
      have hfuel' : l.length < fuel := by simpa using hfuel
      unfold walkBack
      rw [if_neg hne, hget]
      dsimp only
      rw [← hhop, ih (fun y hy => hl y (List.mem_cons_of_mem x hy)) _ hfuel']
      simp

/-- The path of a search whose scans all choose links out of the visited set. -/
theorem findRoute_of_scan {Q : LinkIdx → Prop} (hne : serverIdx E p.1 ≠ serverIdx E p.2)
    (hscan : ∀ visit : Nat → Bool, visit (serverIdx E p.1) = true →
      visit (serverIdx E p.2) = false →
        (scan E rates links p visit).link ∈ candidates E links visit ∧
          Q (scan E rates links p visit).link) :
    (search E rates links p (serverIdx E p.2) (E.nSwitch - 1)
      (Function.update (fun _ => false) (serverIdx E p.1) true)
      (Function.update (fun _ => (0, 0)) (serverIdx E p.1) (serverIdx E p.1, 0))).isSome ∧
    ∃ es, EdgeWalk LinkIdx.src LinkIdx.dst (serverIdx E p.1) es (serverIdx E p.2) ∧
      (∀ c ∈ es, IsLink E links c ∧ Q c) ∧ (serverIdx E p.1 :: es.map LinkIdx.dst).Nodup ∧
      ∀ fuel, E.nSwitch ≤ fuel →
        findRoute E rates links fuel p = some (es.map (linkHop E links)) := by
  have hn := nSwitch_pos hne
  have hs := serverIdx_lt hn p.1
  obtain ⟨visit, pre, hsearch, htree, hvisit⟩ := search_of_scan (serverIdx_lt hn p.2) hscan
    (tree_start Q (serverIdx E p.1)
      (Function.update (fun _ => (0, 0)) (serverIdx E p.1) (serverIdx E p.1, 0)))
    (Function.update_of_ne hne.symm ..) (card_unvisited_start hs)
  obtain ⟨l, horbit, hl⟩ := htree.back _ hvisit
  have hlength : l.length < E.nSwitch := horbit.length_lt hs fun y hy => (hl y hy).2.1.2.1
  have hdst : (l.map (entryLink pre)).map LinkIdx.dst = l := by
    rw [List.map_map]
    exact List.map_id'' (fun _ => rfl) l
  refine ⟨Option.isSome_iff_exists.mpr ⟨pre, hsearch⟩, (l.map (entryLink pre)).reverse,
    horbit.edgeWalk (entryLink pre) (fun _ _ => rfl) (fun _ _ => rfl), ?_, ?_, ?_⟩
  · intro c hc
    obtain ⟨y, hy, rfl⟩ := List.mem_map.mp (List.mem_reverse.mp hc)
    exact (hl y hy).2
  · rw [List.map_reverse, hdst, List.nodup_cons, List.mem_reverse, List.nodup_reverse]
    exact ⟨fun hmem => horbit.ne_of_mem hmem rfl, horbit.nodup⟩
  · intro fuel hfuel
    unfold findRoute
    dsimp only
    rw [search_mono (Nat.sub_le_of_le_add (Nat.le_succ_of_le hfuel)) hsearch, Option.bind_some,
      walkBack_of_orbit horbit (fun y hy => (hl y hy).2.1) [] (hlength.trans_le hfuel)]
    simp [List.map_reverse]

/-! ## §4 — one scan -/

theorem scanStep_of_lt {best : Choice} {c : LinkIdx}
    (h : DoubleOps.lt (linkLoad E rates links p c) (DoubleOps.ofInt best.u) = true) :
    scanStep E rates links p best c =
      ⟨c.1, c.2.1, c.2.2, DoubleOps.toInt (linkLoad E rates links p c)⟩ :=
  if_pos h

theorem scanStep_of_not_lt {best : Choice} {c : LinkIdx}
    (h : DoubleOps.lt (linkLoad E rates links p c) (DoubleOps.ofInt best.u) = false) :
    scanStep E rates links p best c = best :=
  if_neg (Bool.eq_false_iff.mp h)

section Reachable

variable [OrderedLoads R]

variable (E rates links p) in
/-- A scan either keeps what it started with, and then no link was below that, or chooses one of the
links it looked at, which is. -/
theorem foldl_scanStep (cs : List LinkIdx) (best : Choice) :
    (cs.foldl (scanStep E rates links p) best = best ∧
      ∀ c ∈ cs, DoubleOps.lt (linkLoad E rates links p c) (DoubleOps.ofInt best.u) = false) ∨
    ((cs.foldl (scanStep E rates links p) best).link ∈ cs ∧
      DoubleOps.lt (linkLoad E rates links p (cs.foldl (scanStep E rates links p) best).link)
        (DoubleOps.ofInt best.u) = true) := by
  induction cs generalizing best with
  | nil => exact .inl ⟨rfl, by simp⟩
  | cons c cs ih =>
    rw [List.foldl_cons]
    cases hlt : DoubleOps.lt (linkLoad E rates links p c) (DoubleOps.ofInt best.u) with
    | false =>
      rw [scanStep_of_not_lt hlt]
      rcases ih best with ⟨hkeep, hall⟩ | ⟨hmem, hbelow⟩
      · exact .inl ⟨hkeep, List.forall_mem_cons.mpr ⟨hlt, hall⟩⟩
      · exact .inr ⟨List.mem_cons_of_mem c hmem, hbelow⟩
    | true =>
      right
      rw [scanStep_of_lt hlt]
      rcases ih ⟨c.1, c.2.1, c.2.2, DoubleOps.toInt (linkLoad E rates links p c)⟩ with
        ⟨hkeep, -⟩ | ⟨hmem, hbelow⟩
      · rw [hkeep]
        exact ⟨List.mem_cons_self, hlt⟩
      · -- the key only goes down, so what beats the new one beats the old one
        exact ⟨List.mem_cons_of_mem c hmem,
          OrderedLoads.lt_mono (OrderedLoads.toInt_le hlt) hbelow⟩

variable (E rates links) in
/-- **One scan.** It falls back on switch 0 when no link below the bound leaves the visited set, and
chooses such a link otherwise. -/
theorem scan_cases (p : Flow) (visit : Nat → Bool) :
    ((scan E rates links p visit).link = (0, 0, 0) ∧
      ∀ c ∈ candidates E links visit, ¬ IsLight E rates links p c) ∨
    ((scan E rates links p visit).link ∈ candidates E links visit ∧
      IsLight E rates links p (scan E rates links p visit).link) := by
  unfold scan
  rcases foldl_scanStep E rates links p (candidates E links visit) ⟨0, 0, 0, 4000000000000⟩ with
    ⟨hkeep, hall⟩ | ⟨hmem, hbelow⟩
  · rw [hkeep]
    exact .inl ⟨rfl, fun c hc hlight => Bool.eq_false_iff.mp (hall c hc) hlight.2⟩
  · exact .inr ⟨hmem, (mem_candidates_iff.mp hmem).1, hbelow⟩

/-- While `d` is unvisited and reachable, the scan chooses a link below the bound. -/
theorem scan_of_reaches {s d : Nat} (h : Reaches E rates links p s d) {visit : Nat → Bool}
    (hs : visit s = true) (hd : visit d = false) :
    (scan E rates links p visit).link ∈ candidates E links visit ∧
      IsLight E rates links p (scan E rates links p visit).link := by
  obtain ⟨es, hwalk, hes⟩ := EdgeWalk.reflTransGen_iff.mp h
  obtain ⟨c, hc, hin, hout⟩ := hwalk.exists_crossing (S := fun x => visit x = true) hs (by simp [hd])
  rcases scan_cases E rates links p visit with ⟨-, hnone⟩ | hsome
  · have hcand : c ∈ candidates E links visit :=
      mem_candidates_iff.mpr ⟨(hes c hc).1, hin, by simpa using hout⟩
    exact absurd (hes c hc) (hnone c hcand)
  · exact hsome

/-! ## §5 — an unreachable destination -/

/-- No visited switch outside `U` has a predecessor in `U`. -/
def Cut (U : Nat → Prop) (visit : Nat → Bool) (pre : Nat → Nat × Nat) : Prop :=
  ∀ x, visit x = true → ¬ U x → visit (pre x).1 = true ∧ ¬ U (pre x).1

/-- One round keeps the cut around what is reachable, also when it falls back on switch 0: that
switch becomes its own predecessor. -/
theorem cut_round {s : Nat} {visit : Nat → Bool} {pre : Nat → Nat × Nat}
    (h : Cut (Reaches E rates links p s) visit pre) :
    Cut (Reaches E rates links p s)
      (Function.update visit (scan E rates links p visit).d true)
      (Function.update pre (scan E rates links p visit).d
        ((scan E rates links p visit).s, (scan E rates links p visit).i)) := by
  intro x hx hout
  by_cases hxd : x = (scan E rates links p visit).d
  · rw [hxd] at hout ⊢
    rw [Function.update_self]
    rcases scan_cases E rates links p visit with
      ⟨hzero, -⟩ | ⟨hcand, hlight⟩
    · obtain ⟨hs, hrest⟩ := Prod.mk.inj hzero
      obtain ⟨hd, -⟩ := Prod.mk.inj hrest
      have hsame : (scan E rates links p visit).s = (scan E rates links p visit).d := hs.trans hd.symm
      dsimp only
      rw [hsame, Function.update_self]
      exact ⟨rfl, hout⟩
    · obtain ⟨-, hvisit, -⟩ := mem_candidates_iff.mp hcand
      refine ⟨?_, fun hin => hout (hin.tail ⟨_, hlight, rfl, rfl⟩)⟩
      rw [Function.update_apply]
      split
      · rfl
      · exact hvisit
  · rw [Function.update_of_ne hxd] at hx
    obtain ⟨hvisit, hpre⟩ := h x hx hout
    rw [Function.update_of_ne hxd]
    refine ⟨?_, hpre⟩
    rw [Function.update_apply]
    split
    · rfl
    · exact hvisit

/-- The cut holds in the table a search returns, and the destination has been visited. -/
theorem cut_search {s d : Nat} : ∀ {fuel : Nat} {visit : Nat → Bool} {pre pre' : Nat → Nat × Nat},
    Cut (Reaches E rates links p s) visit pre →
      search E rates links p d fuel visit pre = some pre' →
        ∃ visit', visit' d = true ∧ Cut (Reaches E rates links p s) visit' pre'
  | 0, _, _, _, _, h => absurd h (by simp [search])
  | fuel + 1, visit, pre, pre', hcut, h => by
      unfold search at h
      dsimp only at h
      split at h
      · rename_i heq
        obtain rfl := Option.some.inj h
        refine ⟨_, ?_, cut_round hcut⟩
        rw [heq, Function.update_self]
      · exact cut_search (cut_round hcut) h

/-- A search for an unreachable destination does not return. -/
theorem findRoute_of_not_reaches
    (h : ¬ Reaches E rates links p (serverIdx E p.1) (serverIdx E p.2)) (fuel : Nat) :
    findRoute E rates links fuel p = none := by
  by_contra hsome
  obtain ⟨path, hpath⟩ := Option.ne_none_iff_exists'.mp hsome
  unfold findRoute at hpath
  dsimp only at hpath
  obtain ⟨pre, hsearch, hwalk⟩ := Option.bind_eq_some_iff.mp hpath
  have hstart : Cut (Reaches E rates links p (serverIdx E p.1))
      (Function.update (fun _ => false) (serverIdx E p.1) true)
      (Function.update (fun _ => (0, 0)) (serverIdx E p.1) (serverIdx E p.1, 0)) := by
    intro x hx hout
    rw [Function.update_apply] at hx
    split at hx
    · rename_i heq
      rw [heq] at hout
      exact absurd .refl hout
    · exact absurd hx (by simp)
  obtain ⟨visit, hvisit, hcut⟩ := cut_search hstart hsearch
  obtain ⟨l, horbit, -, -⟩ := walkBack_orbit hwalk
  -- the predecessors of the destination stay outside what is reachable, but the source is inside
  have hend := horbit.holds_end (P := fun x => visit x = true ∧
    ¬ Reaches E rates links p (serverIdx E p.1) x) (fun x hx => hcut x hx.1 hx.2) ⟨hvisit, h⟩
  exact hend.2 .refl

/-- A search for a reachable destination returns, with the same path whatever the fuel. -/
theorem findRoute_of_reaches (hne : serverIdx E p.1 ≠ serverIdx E p.2)
    (hreach : Reaches E rates links p (serverIdx E p.1) (serverIdx E p.2)) :
    ∃ path, ∀ fuel, E.nSwitch ≤ fuel → findRoute E rates links fuel p = some path := by
  obtain ⟨-, es, -, -, -, hfound⟩ := findRoute_of_scan hne fun visit hs hd =>
    scan_of_reaches hreach hs hd
  exact ⟨_, hfound⟩

/-! ## §6 — `get_route` -/

/-- `get_route` returns `res`: from some fuel on, whatever the fuel. -/
def Returns (E : Env) (rates : RateMap R) (r : Router) (p : Flow) (res : Bool × Router) : Prop :=
  ∃ n, ∀ fuel, n ≤ fuel → getRoute E rates fuel r p = some res

/-- The lookup of `inport` finds the server's port and its name at the switch. -/
def InportKnown (E : Env) (ip : String) : Prop :=
  ((E.serverIpToIf ip).bind (E.idxToIfname (E.switchIdxToIp (serverIdx E ip)))).isSome

instance (E : Env) (ip : String) : Decidable (InportKnown E ip) :=
  inferInstanceAs (Decidable (Option.isSome _ = true))

/-- Where the stored route departs from the path and is not marked deleted, the `erase` calls made to
retire it return. If only the last port differs, `outdev` has been assigned by then. -/
def Router.ReplaceReturns (E : Env) (r : Router) (p : Flow) (path : List PathHop) : Prop :=
  (r.routes p).del = true ∨
    if (r.routes p).pass = path.dropLast then
      (r.routes p).outport = "" ∨ (r.routes p).outport = lastPort path ∨
        (r.setRoute p { r.routes p with outdev := outName E p }).RetireReturns E p
    else r.RetireReturns E p

theorem retire_isSome_iff {r : Router} :
    (retire E r p).isSome ↔ (r.routes p).del = true ∨ r.RetireReturns E p := by
  cases hdel : (r.routes p).del with
  | true => simp [retire_of_del hdel]
  | false =>
    rw [retire_of_not_del hdel]
    by_cases hreturns : r.RetireReturns E p <;> simp [hreturns]

theorem assignOut_isSome_iff {r : Router} {path : List PathHop} {u : Bool} :
    (assignOut E p path (u, r)).isSome ↔
      (r.routes p).outport = "" ∨ (r.routes p).outport = lastPort path ∨ (r.routes p).del = true ∨
        (r.setRoute p { r.routes p with outdev := outName E p }).RetireReturns E p := by
  unfold assignOut
  simp only [setRoute_routes_self]
  by_cases hempty : (r.routes p).outport = ""
  · simp [hempty]
  · by_cases hport : (r.routes p).outport = lastPort path
    · simp [hport]
    · rw [if_neg hempty, if_pos hport, Option.isSome_map, retire_isSome_iff]
      simp [hempty, hport]

/-- A stored route, once a path is found. -/
theorem applyRoute_stored_isSome_iff {r : Router} {path : List PathHop} (hpath : path ≠ [])
    (hseq : (r.routes p).seq ≠ -1) :
    (applyRoute E r p path).isSome ↔ r.ReplaceReturns E p path := by
  unfold applyRoute Router.ReplaceReturns
  rw [assignPass_installed hseq hpath]
  by_cases hpass : (r.routes p).pass = path.dropLast
  · rw [if_pos hpass, if_pos hpass, Option.bind_some, Option.isSome_map, assignOut_isSome_iff]
    tauto
  · rw [if_neg hpass, if_neg hpass, ← retire_isSome_iff]
    cases hretire : retire E r p with
    | none => simp
    | some r' =>
      -- the route is marked by now, so the last port is assigned without further ado
      have hout : (assignOut E p path (true, r'.setPass p path.dropLast)).isSome := by
        refine assignOut_isSome_iff.mpr (Or.inr (Or.inr (Or.inl ?_)))
        unfold Router.setPass
        rw [setRoute_routes_self]
        exact (retire_some hretire).1
      rw [Option.map_some, Option.bind_some, Option.isSome_map]
      simp [hout]

theorem applyRoute_fresh_isSome_iff {r : Router} {path : List PathHop} (hfresh : r.routes p = {}) :
    (applyRoute E r p path).isSome ↔ InportKnown E p.1 := by
  rw [applyRoute_fresh hfresh, Option.isSome_map]
  rfl

/-- **When `get_route` returns.** For a pair whose entry without a number is the default one: it returns,
and leaves everything as it was if the destination is unreachable, exactly when the destination is
reachable and, for a pair between different switches, either it has no route and the lookup of `inport`
succeeds, or it has one and the `erase` calls made to replace it by the path found return. -/
theorem getRoute_returns_iff (rates : RateMap R) (r : Router) (p : Flow)
    (hdefault : (r.routes p).seq = -1 → r.routes p = {}) :
    ((∃ res, Returns E rates r p res) ∧
      (¬ Reaches E rates r.links p (serverIdx E p.1) (serverIdx E p.2) →
        Returns E rates r p (false, r))) ↔
    Reaches E rates r.links p (serverIdx E p.1) (serverIdx E p.2) ∧
      (serverIdx E p.1 = serverIdx E p.2 ∨ (r.routes p).seq = -1 ∧ InportKnown E p.1 ∨
        (r.routes p).seq ≠ -1 ∧ ∀ path, findRoute E rates r.links E.nSwitch p = some path →
          r.ReplaceReturns E p path) := by
  by_cases hne : serverIdx E p.1 = serverIdx E p.2
  · have hreach : Reaches E rates r.links p (serverIdx E p.1) (serverIdx E p.2) := by
      rw [hne]
      exact .refl
    have hret : Returns E rates r p (false, r) := ⟨0, fun fuel _ => if_pos hne⟩
    exact ⟨fun _ => ⟨hreach, .inl hne⟩, fun _ => ⟨⟨_, hret⟩, fun _ => hret⟩⟩
  · by_cases hreach : Reaches E rates r.links p (serverIdx E p.1) (serverIdx E p.2)
    · -- the search returns a path, the same whatever the fuel
      obtain ⟨path, hfound⟩ := findRoute_of_reaches hne hreach
      have hget : ∀ fuel, E.nSwitch ≤ fuel → getRoute E rates fuel r p = applyRoute E r p path := by
        intro fuel hfuel
        unfold getRoute
        rw [if_neg hne, hfound fuel hfuel, Option.bind_some]
      have hreturns : (∃ res, Returns E rates r p res) ↔ (applyRoute E r p path).isSome := by
        rw [Option.isSome_iff_exists]
        constructor
        · rintro ⟨res, n, hres⟩
          exact ⟨res, (hget _ (le_max_left ..)).symm.trans (hres _ (le_max_right E.nSwitch n))⟩
        · rintro ⟨res, hres⟩
          exact ⟨res, E.nSwitch, fun fuel hfuel => (hget fuel hfuel).trans hres⟩
      have hpath : path ≠ [] := by
        obtain ⟨pass, port, hlast⟩ := (findRoute_path hne (hfound _ le_rfl)).last
        simp [hlast]
      rw [and_iff_left fun h => absurd hreach h, hreturns, and_iff_right hreach, or_iff_right hne]
      by_cases hseq : (r.routes p).seq = -1
      · rw [applyRoute_fresh_isSome_iff (hdefault hseq)]
        simp [hseq]
      · rw [applyRoute_stored_isSome_iff hpath hseq]
        simp [hseq, hfound _ le_rfl]
    · have hnone : ∀ fuel, getRoute E rates fuel r p = none := by
        intro fuel
        unfold getRoute
        rw [if_neg hne, findRoute_of_not_reaches hreach]
        rfl
      refine ⟨?_, fun h => absurd h.1 hreach⟩
      rintro ⟨⟨res, n, hres⟩, -⟩
      exact absurd ((hnone n).symm.trans (hres n le_rfl)) (by simp)

end Reachable

end Search

theorem reaches_twoLeaves :
    Reaches twoLeaves (Collector.init (R := ℚ)).txRates (Router.init twoLeaves).links
      ("172.16.1.1", "172.16.5.1") (serverIdx twoLeaves "172.16.1.1")
      (serverIdx twoLeaves "172.16.5.1") := by
  have hlight : IsLight twoLeaves (Collector.init (R := ℚ)).txRates (Router.init twoLeaves).links
      ("172.16.1.1", "172.16.5.1") (0, 1, 0) := ⟨by decide +kernel, by decide +kernel⟩
  have hs : serverIdx twoLeaves "172.16.1.1" = 0 := by decide +kernel
  have hd : serverIdx twoLeaves "172.16.5.1" = 1 := by decide +kernel
  rw [hs, hd]
  exact .single ⟨_, hlight, rfl, rfl⟩

theorem getRoute_returns_iff_twoLeaves :
    ∃ res, Returns twoLeaves (Collector.init (R := ℚ)).txRates (Router.init twoLeaves)
      ("172.16.1.1", "172.16.5.1") res :=
  ((getRoute_returns_iff _ _ _ fun _ => rfl).mpr
    ⟨reaches_twoLeaves, .inr (.inl ⟨rfl, by decide +kernel⟩)⟩).1

/-- A stored route that the links do not know of is erased from a link without flows.  Where that is
harmless the route is replaced; libstdc++ does not survive it. -/
example :
    let stored : Route :=
      { seq := 1, indev := "Leaf1", pass := [("Leaf2", "Eth1")], outdev := "Leaf2", outport := "Eth1" }
    let r := (Router.init twoLeaves).setRoute ("172.16.1.1", "172.16.5.1") stored
    let returns := fun E => (getRoute E (Collector.init (R := ℚ)).txRates 2 r
      ("172.16.1.1", "172.16.5.1")).isSome
    returns { twoLeaves with eraseEnd := some } ∧ ¬ returns { twoLeaves with eraseEnd := eraseLast } := by
  decide +kernel

/-- The two leaves of `twoLeaves` with nothing between them. -/
def partitioned : Env := { twoLeaves with linklist := [] }

theorem not_getRoute_returns_partitioned :
    NamesDistinct partitioned ∧ partitioned.checkIp "172.16.1.1" ∧
      partitioned.checkIp "172.16.5.1" ∧
      ∀ (rates : RateMap ℚ) (fuel : Nat),
        getRoute partitioned rates fuel (Router.init partitioned) ("172.16.1.1", "172.16.5.1")
          = none := by
  refine ⟨by unfold NamesDistinct; decide, by decide +kernel, by decide +kernel,
    fun rates fuel => ?_⟩
  have hnone : ∀ c, ¬ IsLink partitioned (Router.init partitioned).links c := by
    rintro c ⟨-, -, hidx⟩
    exact absurd hidx (by simp [Router.init, Env.getLinks, partitioned])
  have hs : serverIdx partitioned "172.16.1.1" = 0 := by decide +kernel
  have hd : serverIdx partitioned "172.16.5.1" = 1 := by decide +kernel
  have hreach : ¬ Reaches partitioned rates (Router.init partitioned).links
      ("172.16.1.1", "172.16.5.1") (serverIdx partitioned "172.16.1.1")
      (serverIdx partitioned "172.16.5.1") := by
    rw [hs, hd]
    intro h
    rcases h.cases_head with heq | ⟨_, ⟨c, hlight, -⟩, -⟩
    · exact absurd heq (by decide)
    · exact hnone c hlight.1
  unfold getRoute
  rw [if_neg (by rw [hs, hd]; decide), findRoute_of_not_reaches hreach]
  rfl

end SDNware.Server
