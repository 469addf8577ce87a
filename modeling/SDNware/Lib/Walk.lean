/-
# SDNware.Lib.Walk — walks in a directed multigraph.

Edges are data with a source and a target, so parallel edges keep their identity.  Two facts carry
the greedy searches over such graphs: a walk out of a set crosses its boundary
(`EdgeWalk.exists_crossing`), and following the recorded edges of an `Orbit` backwards is a walk
forwards (`Orbit.edgeWalk`).  The bottleneck of a list of edges is its largest load, and a search
that marks nodes ends because the unmarked ones get fewer (`card_unvisited_update`).
-/
import Mathlib.Data.Finset.Card
import Mathlib.Data.Finset.Range
import Mathlib.Logic.Relation
import Mathlib.Order.MinMax
import SDNware.Lib.Orbit

variable {α ε : Type} {src dst : ε → α}

/-- The edges lead from the first point to the last. -/
inductive EdgeWalk (src dst : ε → α) : α → List ε → α → Prop
  | nil (a : α) : EdgeWalk src dst a [] a
  | cons (e : ε) {es : List ε} {b : α} (rest : EdgeWalk src dst (dst e) es b) :
      EdgeWalk src dst (src e) (e :: es) b

namespace EdgeWalk

theorem append {a b c : α} {es es' : List ε} (h : EdgeWalk src dst a es b)
    (h' : EdgeWalk src dst b es' c) : EdgeWalk src dst a (es ++ es') c := by
  induction h with
  | nil a => exact h'
  | cons e _ ih => exact .cons e (ih h')

theorem snoc {a : α} {es : List ε} (e : ε) (h : EdgeWalk src dst a es (src e)) :
    EdgeWalk src dst a (es ++ [e]) (dst e) :=
  h.append (.cons e (.nil _))

/-- **A walk out of a set crosses its boundary.** -/
theorem exists_crossing {S : α → Prop} {a b : α} {es : List ε} (h : EdgeWalk src dst a es b)
    (ha : S a) (hb : ¬ S b) : ∃ e ∈ es, S (src e) ∧ ¬ S (dst e) := by
  induction h with
  | nil a => exact absurd ha hb
  | cons e _ ih =>
    by_cases hdst : S (dst e)
    · obtain ⟨e', he', hcross⟩ := ih hdst hb
      exact ⟨e', List.mem_cons_of_mem e he', hcross⟩
    · exact ⟨e, List.mem_cons_self, ha, hdst⟩

/-- Reachability over the edges that meet `P` is a walk of such edges. -/
theorem reflTransGen_iff {P : ε → Prop} {a b : α} :
    Relation.ReflTransGen (fun x y => ∃ e, P e ∧ src e = x ∧ dst e = y) a b ↔
      ∃ es, EdgeWalk src dst a es b ∧ ∀ e ∈ es, P e := by
  constructor
  · intro h
    induction h with
    | refl => exact ⟨[], .nil a, by simp⟩
    | tail _ hstep ih =>
      obtain ⟨es, hwalk, hes⟩ := ih
      obtain ⟨e, he, rfl, rfl⟩ := hstep
      refine ⟨es ++ [e], hwalk.snoc e, fun e' he' => ?_⟩
      rcases List.mem_append.mp he' with hmem | hmem
      · exact hes e' hmem
      · rw [List.mem_singleton.mp hmem]
        exact he
  · rintro ⟨es, hwalk, hes⟩
    induction hwalk with
    | nil a => exact .refl
    | cons e _ ih =>
      exact .head ⟨e, hes e List.mem_cons_self, rfl, rfl⟩
        (ih fun e' he' => hes e' (List.mem_cons_of_mem e he'))

end EdgeWalk

/-- An orbit read backwards is a walk over the edges by which its points were entered. -/
theorem Orbit.edgeWalk {f : α → α} {s x : α} {l : List α} (entry : α → ε)
    (h : Orbit f s x l) (hsrc : ∀ y ∈ l, src (entry y) = f y) (hdst : ∀ y ∈ l, dst (entry y) = y) :
    EdgeWalk src dst s (l.map entry).reverse x := by
  induction h with
  | stop => exact .nil s
  | @step x l hne rest ih =>
    have hrest : EdgeWalk src dst s (l.map entry).reverse (f x) :=
      ih (fun y hy => hsrc y (List.mem_cons_of_mem x hy))
        fun y hy => hdst y (List.mem_cons_of_mem x hy)
    rw [← hsrc x List.mem_cons_self] at hrest
    have hwalk := hrest.snoc (entry x)
    rw [hdst x List.mem_cons_self] at hwalk
    simpa using hwalk

/-! ## Bottlenecks -/

section Bottleneck

variable {K : Type} [LinearOrder K] [Zero K]

/-- The largest load of the edges, 0 when there are none. -/
def bottleneck (load : ε → K) (es : List ε) : K := (es.map load).foldr max 0

theorem le_bottleneck (load : ε → K) {es : List ε} {e : ε} (he : e ∈ es) :
    load e ≤ bottleneck load es := by
  induction es with
  | nil => exact absurd he (by simp)
  | cons e' es ih =>
    rcases List.mem_cons.mp he with rfl | he
    · exact le_max_left _ _
    · exact (ih he).trans (le_max_right _ _)

theorem bottleneck_lt_iff {load : ε → K} {es : List ε} {b : K} :
    bottleneck load es < b ↔ 0 < b ∧ ∀ e ∈ es, load e < b := by
  induction es with
  | nil => simp [bottleneck]
  | cons e es ih =>
    have hcons : bottleneck load (e :: es) = max (load e) (bottleneck load es) := rfl
    rw [hcons, max_lt_iff, ih, List.forall_mem_cons]
    exact and_left_comm

theorem bottleneck_nonneg (load : ε → K) (es : List ε) : 0 ≤ bottleneck load es := by
  induction es with
  | nil => exact le_refl _
  | cons e es ih => exact ih.trans (le_max_right _ _)

end Bottleneck

/-! ## Marks -/

/-- The nodes below `n` that are not marked. -/
def unvisited (n : Nat) (visit : Nat → Bool) : Finset Nat :=
  (Finset.range n).filter fun x => visit x = false

theorem card_unvisited_le (n : Nat) (visit : Nat → Bool) : (unvisited n visit).card ≤ n := by
  have hle := Finset.card_filter_le (Finset.range n) fun x => visit x = false
  rwa [Finset.card_range] at hle

/-- What is not marked once `x` is. -/
theorem fresh_of_update {visit : Nat → Bool} {x y : Nat}
    (h : Function.update visit x true y = false) : y ≠ x ∧ visit y = false := by
  have hne : y ≠ x := by
    rintro rfl
    rw [Function.update_self] at h
    exact absurd h (by simp)
  rw [Function.update_of_ne hne] at h
  exact ⟨hne, h⟩

/-- Marking a node leaves fewer. -/
theorem card_unvisited_update {n : Nat} {visit : Nat → Bool} {x : Nat} (hx : x < n)
    (hvisit : visit x = false) :
    (unvisited n (Function.update visit x true)).card < (unvisited n visit).card := by
  apply Finset.card_lt_card
  rw [Finset.ssubset_iff_of_subset]
  · refine ⟨x, ?_, ?_⟩
    · simp [unvisited, hx, hvisit]
    · simp [unvisited]
  · intro y hy
    simp only [unvisited, Finset.mem_filter, Finset.mem_range] at hy ⊢
    exact ⟨hy.1, (fresh_of_update hy.2).2⟩

/-- With one node marked, at most the others are left. -/
theorem card_unvisited_start {n s : Nat} (hs : s < n) :
    (unvisited n (Function.update (fun _ => false) s true)).card ≤ n - 1 := by
  have hless : (unvisited n (Function.update (fun _ => false) s true)).card <
      (unvisited n fun _ => false).card := card_unvisited_update hs rfl
  have htotal := card_unvisited_le n fun _ => false
  omega
