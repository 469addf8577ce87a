/-
# SDNware.Planner.Paths — `get_paths`, from flows on links to paths.

`get_paths` takes the flow of a pair apart by a depth-first descent: at a switch it hands the flow it
has been given to the neighbours in the order of their numbers, as much to each as the link's entry in
the working table allows, and subtracts on the way down.  A neighbour that is the destination ends a
path; any other is marked while the descent is inside it.  Flow handed to a neighbour that finds no way
on is not given back.

`Decomp` says once what the loop over the neighbours can do.  Every result about the function is an
induction over it; here, for arbitrary tables: the calls return, and what they return never exceeds
what they took from the table (`getPaths_within`).

Numbers are exact, the table is the one of a fixed pair (`_routing[u][v]`), and the marks are passed
down instead of being set and cleared.
-/
import SDNware.Lib.Flow
import SDNware.Lib.Walk
import SDNware.Planner.Oblivious

namespace SDNware.Planner

/-- `_routing[u][v]`. -/
abbrev Table (K : Type) := Nat → Nat → K

/-- A path and its share of the flow. -/
abbrev Share (K : Type) := List Nat × K

namespace LpMluRoute

variable {K : Type} [Field K] [LinearOrder K]

/-! ## §1 — the source -/

/-- `1e-5`. -/
def tol : K := 1 / 100000

/-- `[i, *path]` for every path of a call. -/
def prepend (i : Nat) (paths : List (Share K)) : List (Share K) := paths.map fun s => (i :: s.1, s.2)

section Loop

variable (P : LpMluRoute K) (v i : Nat) (vist : Nat → Bool)
  (call : Nat → K → (Nat → Bool) → Table K → Option (List (Share K) × Table K))

/-- The neighbour `j` with its flow `g`: the path that ends there, or those of the recursive call. -/
def descend (j : Nat) (g : K) (T : Table K) : Option (List (Share K) × Table K) :=
  if j = v then some ([([i, j], g)], T)
  else (call j g (Function.update vist j true) T).map fun res => (prepend i res.1, res.2)

/-- The loop of `get_paths` over the neighbours `j`. -/
def pathsLoop : List Nat → K → Table K → Option (List (Share K) × Table K)
  | [], _, T => some ([], T)
  | j :: js, f, T =>
    if vist j then pathsLoop js f T
    else if j = i ∨ P.capacity i j = 0 then pathsLoop js f T
    else if T i j ≤ tol then pathsLoop js f T
    -- the assertion
    else if reduce T i j (min f (T i j)) i j < 0 then none
    else
      (descend v i vist call j (min f (T i j)) (reduce T i j (min f (T i j)))).bind fun found =>
        if f - min f (T i j) < tol then some found
        else (pathsLoop js (f - min f (T i j)) found.2).map fun rest => (found.1 ++ rest.1, rest.2)

end Loop

/-- `get_paths`. -/
def getPaths (P : LpMluRoute K) (v : Nat) :
    Nat → Nat → K → (Nat → Bool) → Table K → Option (List (Share K) × Table K)
  | 0, _, _, _, _ => none
  | fuel + 1, i, f, vist, T =>
    pathsLoop P v i vist (getPaths P v fuel) (List.range P.nNode) f T

/-! ## §2 — shares -/

section Shares

variable {K : Type} [Field K]

/-- The sum of the shares. -/
def total (paths : List (Share K)) : K := (paths.map Prod.snd).sum

/-- The sum of the shares of the paths that cross a link. -/
def crossing (paths : List (Share K)) (a b : Nat) : K :=
  total (paths.filter fun s => (a, b) ∈ pathArcs s.1)

/-- The same, with a share counted as often as its path crosses the link. -/
def crossings (paths : List (Share K)) (a b : Nat) : K :=
  (paths.map fun s => ((pathArcs s.1).count (a, b) : K) * s.2).sum

@[simp] theorem total_nil : total ([] : List (Share K)) = 0 := rfl

@[simp] theorem total_cons (s : Share K) (paths : List (Share K)) :
    total (s :: paths) = s.2 + total paths := rfl

@[simp] theorem total_append (paths paths' : List (Share K)) :
    total (paths ++ paths') = total paths + total paths' := by
  simp [total]

@[simp] theorem total_prepend (i : Nat) (paths : List (Share K)) :
    total (prepend i paths) = total paths := by
  simp [total, prepend, Function.comp_def]

@[simp] theorem crossings_nil (a b : Nat) : crossings ([] : List (Share K)) a b = 0 := rfl

@[simp] theorem crossings_cons (s : Share K) (paths : List (Share K)) (a b : Nat) :
    crossings (s :: paths) a b =
      ((pathArcs s.1).count (a, b) : K) * s.2 + crossings paths a b := rfl

@[simp] theorem crossings_append (paths paths' : List (Share K)) (a b : Nat) :
    crossings (paths ++ paths') a b = crossings paths a b + crossings paths' a b := by
  simp [crossings]

/-- A path that ends at the next switch crosses the link to it. -/
theorem crossings_arrive (i v : Nat) (g : K) (paths : List (Share K)) (a b : Nat) :
    crossings (([i, v], g) :: paths) a b =
      (if a = i ∧ b = v then g else 0) + crossings paths a b := by
  have hcount : ((pathArcs [i, v]).count (a, b) : K) * g = if a = i ∧ b = v then g else 0 := by
    show (([(i, v)] : List (Nat × Nat)).count (a, b) : K) * g = _
    rw [List.count_singleton]
    by_cases hab : a = i ∧ b = v
    · obtain ⟨rfl, rfl⟩ := hab
      simp
    · have hne : ((i, v) == (a, b)) = false := by
        rw [beq_eq_false_iff_ne]
        intro h
        obtain ⟨rfl, rfl⟩ := Prod.mk.inj h
        exact hab ⟨rfl, rfl⟩
      simp [hne, hab]
  rw [crossings_cons, hcount]

/-- Going on to `j` first crosses the link to it. -/
theorem crossings_prepend {j : Nat} {paths : List (Share K)} (hhead : ∀ s ∈ paths, s.1.head? = some j)
    (i a b : Nat) :
    crossings (prepend i paths) a b =
      crossings paths a b + if a = i ∧ b = j then total paths else 0 := by
  induction paths with
  | nil => simp [prepend]
  | cons s paths ih =>
    obtain ⟨hs, hrest⟩ := List.forall_mem_cons.mp hhead
    have hcons : prepend i (s :: paths) = (i :: s.1, s.2) :: prepend i paths := rfl
    rw [hcons, crossings_cons, crossings_cons, ih hrest, pathArcs_cons hs, total_cons]
    by_cases hab : a = i ∧ b = j
    · obtain ⟨rfl, rfl⟩ := hab
      simp only [List.count_cons_self, Nat.cast_add, Nat.cast_one, and_self, if_true]
      ring
    · have hne : (i, j) ≠ (a, b) := by
        intro h
        obtain ⟨rfl, rfl⟩ := Prod.mk.inj h
        exact hab ⟨rfl, rfl⟩
      rw [List.count_cons_of_ne hne, if_neg hab, if_neg hab]
      ring

end Shares

/-! ## §3 — what the loop can do -/

variable {P : LpMluRoute K} {u v i j : Nat} {vist : Nat → Bool} {js : List Nat} {f : K}
  {T T' : Table K} {paths : List (Share K)}

/-- The neighbour gets some of the flow. -/
structure Usable (P : LpMluRoute K) (vist : Nat → Bool) (T : Table K) (i j : Nat) : Prop where
  fresh : vist j = false
  ne : j ≠ i
  cap : P.capacity i j ≠ 0
  flow : tol < T i j

instance (P : LpMluRoute K) (vist : Nat → Bool) (T : Table K) (i j : Nat) :
    Decidable (Usable P vist T i j) :=
  decidable_of_iff (vist j = false ∧ j ≠ i ∧ P.capacity i j ≠ 0 ∧ tol < T i j)
    ⟨fun ⟨h1, h2, h3, h4⟩ => ⟨h1, h2, h3, h4⟩, fun h => ⟨h.fresh, h.ne, h.cap, h.flow⟩⟩

/-- The neighbours still to come, none if the flow is used up. -/
def remaining (f : K) (js : List Nat) : List Nat := if f < tol then [] else js

theorem forall_mem_remaining {p : Nat → Prop} (h : ∀ k ∈ j :: js, p k) :
    ∀ k ∈ remaining f js, p k := by
  unfold remaining
  split
  · exact fun k hk => absurd hk (by simp)
  · exact fun k hk => h k (List.mem_cons_of_mem j hk)

/-- A run of the loop over `js` at the switch `i` with the flow `f` and the table `T`: the paths it
returns and the table it leaves. -/
inductive Decomp (P : LpMluRoute K) (v : Nat) :
    (Nat → Bool) → Nat → List Nat → K → Table K → List (Share K) → Table K → Prop
  | done (vist : Nat → Bool) (i : Nat) (f : K) (T : Table K) : Decomp P v vist i [] f T [] T
  | skip {vist : Nat → Bool} {i j : Nat} {js : List Nat} {f : K} {T T' : Table K}
      {paths : List (Share K)} (hnot : ¬ Usable P vist T i j)
      (rest : Decomp P v vist i js f T paths T') : Decomp P v vist i (j :: js) f T paths T'
  | arrive {vist : Nat → Bool} {i : Nat} {js : List Nat} {f : K} {T T' : Table K}
      {paths : List (Share K)} (huse : Usable P vist T i v)
      (rest : Decomp P v vist i (remaining (f - min f (T i v)) js) (f - min f (T i v))
        (reduce T i v (min f (T i v))) paths T') :
      Decomp P v vist i (v :: js) f T (([i, v], min f (T i v)) :: paths) T'
  | enter {vist : Nat → Bool} {i j : Nat} {js : List Nat} {f : K} {T T1 T' : Table K}
      {below paths : List (Share K)} (huse : Usable P vist T i j) (hj : j ≠ v)
      (sub : Decomp P v (Function.update vist j true) j (List.range P.nNode) (min f (T i j))
        (reduce T i j (min f (T i j))) below T1)
      (rest : Decomp P v vist i (remaining (f - min f (T i j)) js) (f - min f (T i j)) T1
        paths T') :
      Decomp P v vist i (j :: js) f T (prepend i below ++ paths) T'

section Steps

variable {call : Nat → K → (Nat → Bool) → Table K → Option (List (Share K) × Table K)}

theorem pathsLoop_skip (hnot : ¬ Usable P vist T i j) :
    pathsLoop P v i vist call (j :: js) f T = pathsLoop P v i vist call js f T := by
  conv_lhs => unfold pathsLoop
  split
  · rfl
  · rename_i hfresh
    split
    · rfl
    · rename_i hlink
      obtain ⟨hne, hcap⟩ := not_or.mp hlink
      split
      · rfl
      · rename_i hflow
        exact absurd ⟨by simpa using hfresh, hne, hcap, not_le.mp hflow⟩ hnot

/-- No more is taken off an entry than it has: the assertion holds. -/
theorem pathsLoop_use [IsStrictOrderedRing K] (huse : Usable P vist T i j) :
    pathsLoop P v i vist call (j :: js) f T =
      (descend v i vist call j (min f (T i j)) (reduce T i j (min f (T i j)))).bind fun found =>
        if f - min f (T i j) < tol then some found
        else (pathsLoop P v i vist call js (f - min f (T i j)) found.2).map fun rest =>
          (found.1 ++ rest.1, rest.2) := by
  have hassert : ¬ reduce T i j (min f (T i j)) i j < 0 := by
    rw [reduce_self, not_lt, sub_nonneg]
    exact min_le_right ..
  conv_lhs => unfold pathsLoop
  rw [if_neg (by simp [huse.fresh]), if_neg (by simp [huse.ne, huse.cap]),
    if_neg (not_le.mpr huse.flow), if_neg hassert]

end Steps

variable [IsStrictOrderedRing K]

/-- The loop with a recursive call that does what it should. -/
theorem decomp_of_pathsLoop
    {call : Nat → K → (Nat → Bool) → Table K → Option (List (Share K) × Table K)}
    (hcall : ∀ j g vist T res, call j g vist T = some res →
      Decomp P v vist j (List.range P.nNode) g T res.1 res.2) :
    ∀ {js : List Nat} {f : K} {T : Table K} {res : List (Share K) × Table K},
      pathsLoop P v i vist call js f T = some res → Decomp P v vist i js f T res.1 res.2
  | [], f, T, res, h => by
      obtain rfl := Option.some.inj h
      exact .done ..
  | j :: js, f, T, res, h => by
      by_cases huse : Usable P vist T i j
      · rw [pathsLoop_use huse] at h
        obtain ⟨found, hfound, h⟩ := Option.bind_eq_some_iff.mp h
        have hrest : ∃ paths, res.1 = found.1 ++ paths ∧ Decomp P v vist i
            (remaining (f - min f (T i j)) js) (f - min f (T i j)) found.2 paths res.2 := by
          unfold remaining
          split at h
          · rename_i hstop
            obtain rfl := Option.some.inj h
            rw [if_pos hstop]
            exact ⟨[], by simp, .done ..⟩
          · rename_i hgo
            obtain ⟨rest, hloop, rfl⟩ := Option.map_eq_some_iff.mp h
            rw [if_neg hgo]
            exact ⟨rest.1, rfl, decomp_of_pathsLoop hcall hloop⟩
        obtain ⟨paths, hres, hrest⟩ := hrest
        rw [hres]
        unfold descend at hfound
        split at hfound
        · rename_i hjv
          subst hjv
          obtain rfl := Option.some.inj hfound
          exact .arrive huse hrest
        · rename_i hjv
          obtain ⟨below, hbelow, rfl⟩ := Option.map_eq_some_iff.mp hfound
          exact .enter huse hjv (hcall _ _ _ _ _ hbelow) hrest
      · rw [pathsLoop_skip huse] at h
        exact .skip huse (decomp_of_pathsLoop hcall h)

/-- **What `get_paths` can do.** -/
theorem decomp_of_getPaths : ∀ {fuel i : Nat} {f : K} {vist : Nat → Bool} {T : Table K}
    {res : List (Share K) × Table K}, getPaths P v fuel i f vist T = some res →
      Decomp P v vist i (List.range P.nNode) f T res.1 res.2
  | 0, _, _, _, _, _, h => absurd h (by simp [getPaths])
  | _ + 1, _, _, _, _, _, h =>
      decomp_of_pathsLoop (fun _ _ _ _ _ h => decomp_of_getPaths h) h

/-! ## §4 — the calls return -/

theorem pathsLoop_isSome
    {call : Nat → K → (Nat → Bool) → Table K → Option (List (Share K) × Table K)}
    (hcall : ∀ j < P.nNode, vist j = false → ∀ g T,
      (call j g (Function.update vist j true) T).isSome) :
    ∀ {js : List Nat} {f : K} {T : Table K}, (∀ j ∈ js, j < P.nNode) →
      (pathsLoop P v i vist call js f T).isSome
  | [], _, _, _ => rfl
  | j :: js, f, T, hjs => by
      obtain ⟨hj, hjs⟩ := List.forall_mem_cons.mp hjs
      by_cases huse : Usable P vist T i j
      · have hfound : ∀ g T, (descend v i vist call j g T).isSome := by
          intro g T
          unfold descend
          split
          · rfl
          · rw [Option.isSome_map]
            exact hcall j hj huse.fresh g T
        obtain ⟨found, hfound⟩ := Option.isSome_iff_exists.mp
          (hfound (min f (T i j)) (reduce T i j (min f (T i j))))
        rw [pathsLoop_use huse, hfound, Option.bind_some]
        split
        · rfl
        · rw [Option.isSome_map]
          exact pathsLoop_isSome hcall hjs
      · rw [pathsLoop_skip huse]
        exact pathsLoop_isSome hcall hjs

/-- Every call marks one more switch, so the depth is bounded. -/
theorem getPaths_isSome : ∀ {fuel i : Nat} {f : K} {vist : Nat → Bool} {T : Table K},
    (unvisited P.nNode vist).card < fuel → (getPaths P v fuel i f vist T).isSome
  | 0, _, _, _, _, h => absurd h (by simp)
  | fuel + 1, i, f, vist, T, h => by
      refine pathsLoop_isSome (fun j hj hfresh g T => ?_) fun j hj => List.mem_range.mp hj
      exact getPaths_isSome (Nat.lt_of_lt_of_le (card_unvisited_update hj hfresh)
        (Nat.le_of_lt_succ h))

section Mono

variable {call call' : Nat → K → (Nat → Bool) → Table K → Option (List (Share K) × Table K)}
  (hcall : ∀ j g vist T res, call j g vist T = some res → call' j g vist T = some res)

include hcall

omit [Field K] [LinearOrder K] [IsStrictOrderedRing K] in
theorem descend_mono {g : K} {found : List (Share K) × Table K}
    (h : descend v i vist call j g T = some found) : descend v i vist call' j g T = some found := by
  unfold descend at h ⊢
  split
  · rename_i hjv
    rwa [if_pos hjv] at h
  · rename_i hjv
    rw [if_neg hjv] at h
    obtain ⟨below, hbelow, rfl⟩ := Option.map_eq_some_iff.mp h
    rw [hcall _ _ _ _ _ hbelow]
    rfl

/-- A recursive call that returns more often returns the same where the other did. -/
theorem pathsLoop_mono :
    ∀ {js : List Nat} {f : K} {T : Table K} {res : List (Share K) × Table K},
      pathsLoop P v i vist call js f T = some res → pathsLoop P v i vist call' js f T = some res
  | [], _, _, _, h => h
  | j :: js, f, T, res, h => by
      by_cases huse : Usable P vist T i j
      · rw [pathsLoop_use huse] at h ⊢
        obtain ⟨found, hfound, h⟩ := Option.bind_eq_some_iff.mp h
        rw [descend_mono hcall hfound, Option.bind_some]
        split
        · rename_i hstop
          rwa [if_pos hstop] at h
        · rename_i hgo
          rw [if_neg hgo] at h
          obtain ⟨rest, hloop, rfl⟩ := Option.map_eq_some_iff.mp h
          rw [pathsLoop_mono hloop]
          rfl
      · rw [pathsLoop_skip huse] at h ⊢
        exact pathsLoop_mono h

end Mono

theorem getPaths_mono : ∀ {fuel fuel' i : Nat} {f : K} {vist : Nat → Bool} {T : Table K}
    {res : List (Share K) × Table K}, fuel ≤ fuel' → getPaths P v fuel i f vist T = some res →
      getPaths P v fuel' i f vist T = some res
  | 0, _, _, _, _, _, _, _, h => absurd h (by simp [getPaths])
  | fuel + 1, 0, _, _, _, _, _, hle, _ => absurd hle (by omega)
  | fuel + 1, fuel' + 1, _, _, _, _, _, hle, h =>
      pathsLoop_mono (fun _ _ _ _ _ h => getPaths_mono (Nat.le_of_succ_le_succ hle) h) h

/-- The call returns, no deeper recursion would return anything else, and it is a run of the loop. -/
theorem getPaths_returns (P : LpMluRoute K) (v i : Nat) (f : K) (vist : Nat → Bool) (T : Table K) :
    ∃ paths T', (∀ fuel, P.nNode < fuel → getPaths P v fuel i f vist T = some (paths, T')) ∧
      Decomp P v vist i (List.range P.nNode) f T paths T' := by
  have hcard := card_unvisited_le P.nNode vist
  obtain ⟨⟨paths, T'⟩, hres⟩ := Option.isSome_iff_exists.mp
    (getPaths_isSome (P := P) (v := v) (i := i) (f := f) (T := T) (Nat.lt_succ_of_le hcard))
  exact ⟨paths, T', fun fuel hfuel => getPaths_mono hfuel hres, decomp_of_getPaths hres⟩

/-! ## §5 — paths within the flow -/

theorem crossing_le_crossings (hpos : ∀ s ∈ paths, 0 < s.2) (a b : Nat) :
    crossing paths a b ≤ crossings paths a b := by
  unfold crossing
  induction paths with
  | nil => exact le_refl _
  | cons s paths ih =>
    obtain ⟨hs, hrest⟩ := List.forall_mem_cons.mp hpos
    rw [crossings_cons]
    by_cases hmem : (a, b) ∈ pathArcs s.1
    · have hcount : (1 : K) ≤ (pathArcs s.1).count (a, b) := by
        exact_mod_cast List.one_le_count_iff.mpr hmem
      rw [List.filter_cons_of_pos (by simpa using hmem), total_cons]
      exact add_le_add (le_mul_of_one_le_left hs.le hcount) (ih hrest)
    · rw [List.filter_cons_of_neg (by simpa using hmem), List.count_eq_zero_of_not_mem hmem,
        Nat.cast_zero, zero_mul, zero_add]
      exact ih hrest

theorem tol_pos : (0 : K) < tol := by
  unfold tol
  positivity

theorem pos_of_remaining_ne (h : remaining f js ≠ []) : 0 < f := by
  unfold remaining at h
  split at h
  · exact absurd rfl h
  · rename_i hgo
    exact tol_pos.trans_le (not_lt.mp hgo)

theorem min_pos_of_usable (huse : Usable P vist T i j) (hf : 0 < f) : 0 < min f (T i j) :=
  lt_min hf (tol_pos.trans huse.flow)

/-- A path of links from `i` to `v`. -/
structure IsPath (P : LpMluRoute K) (i v : Nat) (path : List Nat) : Prop where
  head : path.head? = some i
  last : path.getLast? = some v
  links : ∀ e ∈ pathArcs path, P.Link e.1 e.2

/-- Paths to `v` that stay within the flow given and within what was taken from the table. -/
structure Within (P : LpMluRoute K) (v i : Nat) (f : K) (T : Table K) (paths : List (Share K))
    (T' : Table K) : Prop where
  path : ∀ s ∈ paths, IsPath P i v s.1 ∧ 0 < s.2
  total_le : total paths ≤ f
  crossings_le : ∀ a b, crossings paths a b ≤ T a b - T' a b
  nonneg : ∀ a b, 0 ≤ T a b → 0 ≤ T' a b

/-- What is left of an entry after its share has been taken. -/
theorem reduce_min_nonneg (T : Table K) (i j : Nat) (f : K) {a b : Nat} (h : 0 ≤ T a b) :
    0 ≤ reduce T i j (min f (T i j)) a b := by
  unfold reduce
  split
  · rename_i hab
    obtain ⟨rfl, rfl⟩ := hab
    exact sub_nonneg.mpr (min_le_right ..)
  · exact h

/-- A last hop, then the rest of the loop. -/
theorem Within.arrive (hlink : P.Link i v) (hg : 0 < min f (T i v))
    (h : Within P v i (f - min f (T i v)) (reduce T i v (min f (T i v))) paths T') :
    Within P v i f T (([i, v], min f (T i v)) :: paths) T' := by
  have hlast : IsPath P i v [i, v] := ⟨rfl, rfl, List.forall_mem_singleton.mpr hlink⟩
  refine ⟨List.forall_mem_cons.mpr ⟨⟨hlast, hg⟩, h.path⟩, ?_, fun a b => ?_, fun a b hab => ?_⟩
  · have hrest := h.total_le
    rw [total_cons]
    linarith
  · have hrest := h.crossings_le a b
    rw [reduce_apply] at hrest
    rw [crossings_arrive]
    linarith
  · exact h.nonneg a b (reduce_min_nonneg T i v f hab)

omit [LinearOrder K] [IsStrictOrderedRing K] in
/-- A path from the neighbour, prefixed. -/
theorem IsPath.prepend {path : List Nat} (hlink : P.Link i j) (h : IsPath P j v path) :
    IsPath P i v (i :: path) := by
  refine ⟨rfl, ?_, ?_⟩
  · rw [List.getLast?_cons, h.last]
    rfl
  · rw [pathArcs_cons h.head]
    exact List.forall_mem_cons.mpr ⟨hlink, h.links⟩

/-- The paths of a neighbour, then the rest of the loop. -/
theorem Within.enter {T1 : Table K} {below : List (Share K)} (hlink : P.Link i j)
    (hbelow : Within P v j (min f (T i j)) (reduce T i j (min f (T i j))) below T1)
    (h : Within P v i (f - min f (T i j)) T1 paths T') :
    Within P v i f T (prepend i below ++ paths) T' := by
  refine ⟨fun s hs => ?_, ?_, fun a b => ?_, fun a b hab => ?_⟩
  · rcases List.mem_append.mp hs with hs | hs
    · obtain ⟨s', hs', rfl⟩ := List.mem_map.mp hs
      obtain ⟨hpath, hshare⟩ := hbelow.path s' hs'
      exact ⟨hpath.prepend hlink, hshare⟩
    · exact h.path s hs
  · have hfirst := hbelow.total_le
    have hrest := h.total_le
    rw [total_append, total_prepend]
    linarith
  · have hfirst := hbelow.crossings_le a b
    have hrest := h.crossings_le a b
    have htotal := hbelow.total_le
    rw [reduce_apply] at hfirst
    rw [crossings_append, crossings_prepend fun s hs => (hbelow.path s hs).1.head]
    by_cases hab : a = i ∧ b = j
    · rw [if_pos hab] at hfirst ⊢
      linarith
    · rw [if_neg hab] at hfirst ⊢
      linarith
  · exact h.nonneg a b (hbelow.nonneg a b (reduce_min_nonneg T i j f hab))

/-- **Whatever the table.** -/
theorem within_of_decomp (h : Decomp P v vist i js f T paths T') (hi : i < P.nNode)
    (hjs : ∀ j ∈ js, j < P.nNode) (hf : 0 ≤ f) (hpos : js ≠ [] → 0 < f) : Within P v i f T paths T' := by
  induction h with
  | done vist i f T => exact ⟨by simp, hf, by simp, fun _ _ h => h⟩
  | skip hnot rest ih =>
    exact ih hi (fun k hk => hjs k (List.mem_cons_of_mem _ hk)) hf
      fun _ => hpos (List.cons_ne_nil _ _)
  | @arrive vist i js f T T' paths huse rest ih =>
    have hg := min_pos_of_usable huse (hpos (List.cons_ne_nil _ _))
    have hlink : P.Link i v := ⟨hi, hjs v List.mem_cons_self, huse.ne.symm, huse.cap⟩
    exact .arrive hlink hg (ih hi (forall_mem_remaining hjs) (sub_nonneg.mpr (min_le_left ..))
      pos_of_remaining_ne)
  | @enter vist i j js f T T1 T' below paths huse hj sub rest ihsub ih =>
    have hg := min_pos_of_usable huse (hpos (List.cons_ne_nil _ _))
    have hjn := hjs j List.mem_cons_self
    have hlink : P.Link i j := ⟨hi, hjn, huse.ne.symm, huse.cap⟩
    exact .enter hlink (ihsub hjn (fun k hk => List.mem_range.mp hk) hg.le fun _ => hg)
      (ih hi (forall_mem_remaining hjs) (sub_nonneg.mpr (min_le_left ..)) pos_of_remaining_ne)

/-- **Decomposed paths stay within the flow.** For every non-negative table, whatever is marked: the
call returns, and the table with it stays non-negative; every path runs from `u` to `v` over links, the
shares are positive and sum to at most `f`, and over every link to at most what the call took off its
entry. -/
theorem getPaths_within (vist : Nat → Bool) (hu : u < P.nNode) (hf : 0 < f)
    (hT : ∀ a b, 0 ≤ T a b) :
    ∃ paths T', (∀ fuel, P.nNode < fuel → getPaths P v fuel u f vist T = some (paths, T')) ∧
      (∀ s ∈ paths, IsPath P u v s.1 ∧ 0 < s.2) ∧ total paths ≤ f ∧
      (∀ a b, crossing paths a b ≤ T a b - T' a b) ∧ ∀ a b, 0 ≤ T' a b := by
  obtain ⟨paths, T', hret, hdecomp⟩ := getPaths_returns P v u f vist T
  have hwithin := within_of_decomp hdecomp hu (fun k hk => List.mem_range.mp hk) hf.le fun _ => hf
  refine ⟨paths, T', hret, hwithin.path, hwithin.total_le, fun a b => ?_, fun a b => ?_⟩
  · exact (crossing_le_crossings (fun s hs => (hwithin.path s hs).2) a b).trans
      (hwithin.crossings_le a b)
  · exact hwithin.nonneg a b (hT a b)

theorem getPaths_within_twoSwitches :
    ∃ paths T', getPaths twoSwitches 1 3 0 (1 / 2) (fun _ => false) (fun _ _ => 1) =
        some (paths, T') ∧ total paths ≤ 1 / 2 ∧ crossing paths 0 1 ≤ 1 - T' 0 1 := by
  obtain ⟨paths, T', hret, -, htotal, hcross, -⟩ :=
    getPaths_within (P := twoSwitches) (v := 1) (u := 0) (f := 1 / 2) (T := fun _ _ => 1)
      (fun _ => false) (by decide) (by norm_num) fun _ _ => zero_le_one
  exact ⟨paths, T', hret 3 (by decide), htotal, hcross 0 1⟩

end LpMluRoute

end SDNware.Planner
