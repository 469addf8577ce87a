/-
# SDNware.Lib.Flow — flows on the arcs of a finite set of nodes.

A flow is a table of numbers on ordered pairs of nodes.  Four facts about it are used to take flows
apart into paths: taking an amount off an arc moves the excess of its two ends (`net_reduce`), excesses
add up to zero (`sum_net_eq_zero`), an acyclic relation on finitely many nodes has a rank that grows
along it (`rank_lt_of_acyclic`), and a non-negative flow with no excess anywhere whose arcs climb a
rank is zero (`eq_zero_of_net_eq_zero`).
-/
import Mathlib.Algebra.BigOperators.Ring.Finset
import Mathlib.Algebra.Order.BigOperators.Group.Finset
import Mathlib.Algebra.Order.Field.Basic
import Mathlib.Data.Finset.Card
import Mathlib.Logic.Relation
import Mathlib.Tactic.Abel
import Mathlib.Tactic.Linarith

variable {ι K : Type}

/-! ## Paths -/

/-- The arcs of a path. -/
def pathArcs : List ι → List (ι × ι)
  | a :: b :: rest => (a, b) :: pathArcs (b :: rest)
  | _ => []

theorem pathArcs_cons {a b : ι} {path : List ι} (h : path.head? = some b) :
    pathArcs (a :: path) = (a, b) :: pathArcs path := by
  cases path with
  | nil => exact absurd h (by simp)
  | cons c rest =>
    obtain rfl : c = b := by simpa using h
    rfl

theorem fst_mem_of_mem_pathArcs {path : List ι} {e : ι × ι} (h : e ∈ pathArcs path) :
    e.1 ∈ path := by
  induction path with
  | nil => exact absurd h (by simp [pathArcs])
  | cons a path ih =>
    cases path with
    | nil => exact absurd h (by simp [pathArcs])
    | cons b rest =>
      rcases List.mem_cons.mp h with rfl | h
      · exact List.mem_cons_self
      · exact List.mem_cons_of_mem a (ih h)

/-- A path that visits nothing twice uses no arc twice. -/
theorem nodup_pathArcs {path : List ι} (h : path.Nodup) : (pathArcs path).Nodup := by
  induction path with
  | nil => exact List.nodup_nil
  | cons a path ih =>
    cases path with
    | nil => exact List.nodup_nil
    | cons b rest =>
      obtain ⟨hnot, hnodup⟩ := List.nodup_cons.mp h
      refine List.nodup_cons.mpr ⟨fun hmem => hnot ?_, ih hnodup⟩
      exact fst_mem_of_mem_pathArcs hmem

/-- A path along which a rank grows visits nothing twice. -/
theorem nodup_of_climb {rank : ι → Nat} {path : List ι}
    (h : ∀ e ∈ pathArcs path, rank e.1 < rank e.2) : path.Nodup := by
  have hhead : ∀ (a : ι) (rest : List ι), (∀ e ∈ pathArcs (a :: rest), rank e.1 < rank e.2) →
      ∀ x ∈ rest, rank a < rank x := by
    intro a rest
    induction rest generalizing a with
    | nil => exact fun _ x hx => absurd hx (by simp)
    | cons b rest ih =>
      intro h
      obtain ⟨hab, hrest⟩ := List.forall_mem_cons.mp h
      exact List.forall_mem_cons.mpr ⟨hab, fun x hx => hab.trans (ih b hrest x hx)⟩
  induction path with
  | nil => exact List.nodup_nil
  | cons a path ih =>
    refine List.nodup_cons.mpr ⟨fun hmem => (hhead a path h a hmem).false, ih fun e he => h e ?_⟩
    cases path with
    | nil => exact absurd he (by simp [pathArcs])
    | cons b rest => exact List.mem_cons_of_mem _ he

/-! ## Excess -/

section Net

variable [AddCommGroup K]

/-- What leaves a node minus what enters it. -/
def net (s : Finset ι) (T : ι → ι → K) (x : ι) : K := ∑ b ∈ s, T x b - ∑ a ∈ s, T a x

variable [DecidableEq ι]

/-- The flow with an amount taken off one arc. -/
def reduce (T : ι → ι → K) (i j : ι) (g : K) : ι → ι → K :=
  fun a b => if a = i ∧ b = j then T a b - g else T a b

theorem reduce_apply (T : ι → ι → K) (i j : ι) (g : K) (a b : ι) :
    reduce T i j g a b = T a b - if a = i ∧ b = j then g else 0 := by
  unfold reduce
  split
  · rfl
  · rw [sub_zero]

theorem reduce_self (T : ι → ι → K) (i j : ι) (g : K) : reduce T i j g i j = T i j - g :=
  if_pos ⟨rfl, rfl⟩

/-- Taking an amount off an arc leaves it owed at the source and due at the target. -/
theorem net_reduce {s : Finset ι} {i j : ι} (hi : i ∈ s) (hj : j ∈ s) (T : ι → ι → K) (g : K)
    (x : ι) :
    net s (reduce T i j g) x = net s T x - (if x = i then g else 0) + if x = j then g else 0 := by
  have hout : ∑ b ∈ s, reduce T i j g x b = ∑ b ∈ s, T x b - if x = i then g else 0 := by
    simp only [reduce_apply, Finset.sum_sub_distrib]
    congr 1
    by_cases hx : x = i
    · simp [hx, hj]
    · simp [hx]
  have hin : ∑ a ∈ s, reduce T i j g a x = ∑ a ∈ s, T a x - if x = j then g else 0 := by
    simp only [reduce_apply, Finset.sum_sub_distrib]
    congr 1
    by_cases hx : x = j
    · simp [hx, hi]
    · simp [hx]
  unfold net
  rw [hout, hin]
  abel

omit [DecidableEq ι] in
/-- What leaves one node enters another. -/
theorem sum_net_eq_zero (s : Finset ι) (T : ι → ι → K) : ∑ x ∈ s, net s T x = 0 := by
  unfold net
  rw [Finset.sum_sub_distrib, Finset.sum_comm, sub_self]

omit [DecidableEq ι] in
/-- Two flows whose arcs climb a rank and that agree on the arcs out of the nodes below a rank have
the same excess at these nodes. -/
theorem net_eq_of_climb {s : Finset ι} {T T' : ι → ι → K} {rank : ι → Nat} {r : Nat}
    (hrank : ∀ a b, T a b ≠ 0 → rank a < rank b) (hrank' : ∀ a b, T' a b ≠ 0 → rank a < rank b)
    (hsame : ∀ a b, rank a < r → T' a b = T a b) {x : ι} (hx : rank x < r) :
    net s T' x = net s T x := by
  have hin : ∀ a, T' a x = T a x := by
    intro a
    by_cases ha : rank a < r
    · exact hsame a x ha
    · have hT : T a x = 0 := by
        by_contra h
        exact ha ((hrank a x h).trans hx)
      have hT' : T' a x = 0 := by
        by_contra h
        exact ha ((hrank' a x h).trans hx)
      rw [hT, hT']
  unfold net
  simp only [hsame x _ hx, hin]

end Net

/-! ## Acyclic flows -/

section Rank

open Classical in
/-- How many nodes lead to a node. -/
noncomputable def rankBy (r : ι → ι → Prop) (s : Finset ι) (x : ι) : Nat :=
  (s.filter fun y => Relation.TransGen r y x).card

theorem rank_lt_of_acyclic {r : ι → ι → Prop} {s : Finset ι}
    (hacyclic : ∀ x, ¬ Relation.TransGen r x x) {a b : ι} (ha : a ∈ s) (h : r a b) :
    rankBy r s a < rankBy r s b := by
  classical
  unfold rankBy
  refine Finset.card_lt_card (Finset.ssubset_iff_of_subset ?_ |>.mpr ⟨a, ?_, ?_⟩)
  · intro y hy
    rw [Finset.mem_filter] at hy ⊢
    exact ⟨hy.1, hy.2.tail h⟩
  · exact Finset.mem_filter.mpr ⟨ha, .single h⟩
  · intro hmem
    exact hacyclic a (Finset.mem_filter.mp hmem).2

variable [Field K] [LinearOrder K] [IsStrictOrderedRing K]

/-- **A flow with no excess whose arcs climb a rank is zero.** -/
theorem eq_zero_of_net_eq_zero {s : Finset ι} {T : ι → ι → K} {rank : ι → Nat}
    (hnonneg : ∀ a b, 0 ≤ T a b) (hsupp : ∀ a b, T a b ≠ 0 → a ∈ s ∧ b ∈ s)
    (hrank : ∀ a b, T a b ≠ 0 → rank a < rank b) (hnet : ∀ x ∈ s, net s T x = 0) (a b : ι) :
    T a b = 0 := by
  -- weigh the excess of every node by its rank: each arc counts with its climb
  have hsum : ∑ x ∈ s, ∑ y ∈ s, ((rank y : K) - rank x) * T x y = 0 := by
    have hweighted : ∑ x ∈ s, (rank x : K) * net s T x = 0 :=
      Finset.sum_eq_zero fun x hx => by rw [hnet x hx, mul_zero]
    have hout : ∑ x ∈ s, (rank x : K) * ∑ y ∈ s, T x y = ∑ x ∈ s, ∑ y ∈ s, rank x * T x y := by
      simp only [Finset.mul_sum]
    have hin : ∑ x ∈ s, (rank x : K) * ∑ y ∈ s, T y x = ∑ x ∈ s, ∑ y ∈ s, rank y * T x y := by
      simp only [Finset.mul_sum]
      rw [Finset.sum_comm]
    unfold net at hweighted
    simp only [mul_sub, Finset.sum_sub_distrib, hout, hin] at hweighted
    simp only [sub_mul, Finset.sum_sub_distrib]
    linarith
  have hterm : ∀ x y, 0 ≤ ((rank y : K) - rank x) * T x y := by
    intro x y
    by_cases h0 : T x y = 0
    · rw [h0, mul_zero]
    · have hlt : (rank x : K) < rank y := by exact_mod_cast hrank x y h0
      exact mul_nonneg (sub_nonneg.mpr hlt.le) (hnonneg x y)
  by_contra h0
  obtain ⟨ha, hb⟩ := hsupp a b h0
  have hrow := (Finset.sum_eq_zero_iff_of_nonneg fun x _ =>
    Finset.sum_nonneg fun y _ => hterm x y).mp hsum a ha
  have hab := (Finset.sum_eq_zero_iff_of_nonneg fun y _ => hterm a y).mp hrow b hb
  have hlt : (rank a : K) < rank b := by exact_mod_cast hrank a b h0
  rcases mul_eq_zero.mp hab with hclimb | hT
  · exact absurd hclimb (sub_pos.mpr hlt).ne'
  · exact h0 hT

end Rank
