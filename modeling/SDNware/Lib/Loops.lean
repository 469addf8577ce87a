/-
# SDNware.Lib.Loops — loops that assign, and loops over a range with skip conditions.

A loop that reads a file raises in some rounds and assigns one entry of a table in the others.  It
comes to its end exactly if no round raises, and what it leaves is the loop of the assignments alone
(`foldlM_eq_ok_iff`).  Entries that are not assigned keep their value (`foldl_update_of_notMem`), the
others hold what one of the rounds has written (`exists_foldl_update`); where the value written depends
on the entry only, every assigned entry holds it (`foldl_update_apply`).

A loop over `range n` that skips what does not meet a condition runs the same rounds for every `n`
beyond the last element that does (`filter_range_eq`, `flatMap_range_eq`).

A loop that adds something up over a list adds it up key by key (`sum_map_eq_sum_filter`) or index by
index (`sum_map_eq_sum_range`).
-/
import Mathlib.Algebra.BigOperators.Group.Finset.Piecewise
import Mathlib.Algebra.BigOperators.Intervals
import Mathlib.Data.List.Range
import Mathlib.Logic.Function.Basic

namespace Loops

section Assign

variable {σ α κ β ε : Type}

/-- Two statements in a row return if and only if both do. -/
theorem bind_eq_ok_iff {α β : Type} {x : Except ε α} {k : α → Except ε β} {b : β} :
    x >>= k = .ok b ↔ ∃ a, x = .ok a ∧ k a = .ok b := by
  cases x with
  | error e => simp [bind, Except.bind]
  | ok a => simp [bind, Except.bind]

/-- A loop whose rounds either raise or move on as `next` says. -/
theorem foldlM_eq_ok_iff {step : σ → α → Except ε σ} {ok : α → Prop} {next : σ → α → σ}
    (h : ∀ s a s', step s a = .ok s' ↔ ok a ∧ s' = next s a) (xs : List α) (s s' : σ) :
    xs.foldlM step s = .ok s' ↔ (∀ a ∈ xs, ok a) ∧ s' = xs.foldl next s := by
  induction xs generalizing s with
  | nil =>
    show Except.ok s = Except.ok s' ↔ _
    simp [eq_comm]
  | cons a xs ih =>
    rw [List.foldlM_cons, List.foldl_cons, List.forall_mem_cons, and_assoc]
    cases hstep : step s a with
    | error e =>
      constructor
      · intro hrun
        exact absurd hrun (by simp [bind, Except.bind])
      · rintro ⟨hok, -⟩
        have := (h s a (next s a)).mpr ⟨hok, rfl⟩
        exact absurd (hstep.symm.trans this) (by simp)
    | ok mid =>
      obtain ⟨hok, rfl⟩ := (h s a mid).mp hstep
      show xs.foldlM step (next s a) = .ok s' ↔ _
      rw [ih]
      exact (and_iff_right hok).symm

variable [DecidableEq κ]

/-- An entry that no round assigns. -/
theorem foldl_update_of_notMem (key : α → κ) (new : (κ → β) → α → β) {xs : List α} {k : κ}
    (h : k ∉ xs.map key) (T : κ → β) :
    (xs.foldl (fun T x => Function.update T (key x) (new T x)) T) k = T k := by
  induction xs generalizing T with
  | nil => rfl
  | cons x xs ih =>
    rw [List.map_cons, List.mem_cons, not_or] at h
    rw [List.foldl_cons, ih h.2, Function.update_of_ne h.1]

/-- An entry that is assigned holds what one of its rounds has written. -/
theorem exists_foldl_update {key : α → κ} (new : α → β) {xs : List α} {k : κ}
    (h : k ∈ xs.map key) (T : κ → β) :
    ∃ x ∈ xs, key x = k ∧ (xs.foldl (fun T x => Function.update T (key x) (new x)) T) k = new x := by
  induction xs generalizing T with
  | nil => exact absurd h List.not_mem_nil
  | cons x xs ih =>
    by_cases hlater : k ∈ xs.map key
    · obtain ⟨y, hy, hkey, hval⟩ := ih hlater (Function.update T (key x) (new x))
      exact ⟨y, List.mem_cons_of_mem x hy, hkey, hval⟩
    · have hkey : k = key x := (List.mem_cons.mp h).resolve_right hlater
      refine ⟨x, List.mem_cons_self, hkey.symm, ?_⟩
      rw [List.foldl_cons, foldl_update_of_notMem key (fun _ x => new x) hlater, hkey,
        Function.update_self]

/-- Rounds that write a value depending on the entry only. -/
theorem foldl_update_apply {key : α → κ} {new : α → β} (val : κ → β) {xs : List α}
    (hval : ∀ x ∈ xs, new x = val (key x)) (T : κ → β) (k : κ) :
    (xs.foldl (fun T x => Function.update T (key x) (new x)) T) k
      = if k ∈ xs.map key then val k else T k := by
  induction xs generalizing T with
  | nil => simp
  | cons x xs ih =>
    rw [List.forall_mem_cons] at hval
    rw [List.foldl_cons, ih hval.2]
    by_cases hk : k = key x
    · rw [hk, Function.update_self, hval.1, if_pos (List.mem_map_of_mem List.mem_cons_self), ite_self]
    · simp only [List.map_cons, List.mem_cons, hk, false_or, Function.update_of_ne hk]

end Assign

section Range

variable {α : Type} {n m : Nat}

/-- The range with what lies beyond a bound apart. -/
theorem range_eq_append {k : Nat} (hk : k ≤ n) :
    List.range n = List.range k ++ (List.range (n - k)).map (k + ·) := by
  rw [← List.range_add, Nat.add_sub_cancel' hk]

/-- Two ranges that hold every round with a body. -/
theorem flatMap_range_eq {g : Nat → List α} (hn : ∀ x, g x ≠ [] → x < n)
    (hm : ∀ x, g x ≠ [] → x < m) : (List.range n).flatMap g = (List.range m).flatMap g := by
  have hcut : ∀ l, min n m ≤ l → (List.range l).flatMap g = (List.range (min n m)).flatMap g := by
    intro l hl
    have hrest : ((List.range (l - min n m)).map (min n m + ·)).flatMap g = [] := by
      refine List.flatMap_eq_nil_iff.mpr fun x hx => ?_
      obtain ⟨d, -, rfl⟩ := List.mem_map.mp hx
      by_contra hg
      have := hn _ hg
      have := hm _ hg
      omega
    rw [range_eq_append hl, List.flatMap_append, hrest, List.append_nil]
  rw [hcut n (Nat.min_le_left n m), hcut m (Nat.min_le_right n m)]

/-- Two ranges that hold everything a condition is met by. -/
theorem filter_range_eq {p : Nat → Bool} (hn : ∀ x, p x = true → x < n)
    (hm : ∀ x, p x = true → x < m) : (List.range n).filter p = (List.range m).filter p := by
  have hfilter : ∀ l : List Nat, l.filter p = l.flatMap fun x => if p x = true then [x] else [] := by
    intro l
    induction l with
    | nil => rfl
    | cons x l ih => by_cases hp : p x = true <;> simp [hp, ih]
  have hround : ∀ x, (if p x = true then [x] else []) ≠ [] → p x = true := by
    intro x hx
    by_contra hp
    exact hx (if_neg hp)
  rw [hfilter, hfilter]
  exact flatMap_range_eq (fun x hx => hn x (hround x hx)) fun x hx => hm x (hround x hx)

end Range

section Sums

variable {α κ M : Type} [AddCommMonoid M]

theorem sum_map_eq_sum_filter [DecidableEq κ] (key : α → κ) (g : α → M) {s : Finset κ} {xs : List α}
    (h : ∀ x ∈ xs, key x ∈ s) :
    (xs.map g).sum = ∑ k ∈ s, ((xs.filter fun x => key x = k).map g).sum := by
  induction xs with
  | nil => simp
  | cons x xs ih =>
    obtain ⟨hx, hrest⟩ := List.forall_mem_cons.mp h
    have hkey : ∀ k ∈ s, (((x :: xs).filter fun y => key y = k).map g).sum
        = (if k = key x then g x else 0) + ((xs.filter fun y => key y = k).map g).sum := by
      intro k _
      by_cases hk : k = key x
      · rw [List.filter_cons_of_pos (by simp [hk]), if_pos hk, List.map_cons, List.sum_cons]
      · rw [List.filter_cons_of_neg (by simpa using Ne.symm hk), if_neg hk, zero_add]
    rw [Finset.sum_congr rfl hkey, Finset.sum_add_distrib, Finset.sum_ite_eq_of_mem' s _ _ hx,
      ← ih hrest, List.map_cons, List.sum_cons]

theorem sum_map_eq_sum_range (g : α → M) (xs : List α) :
    (xs.map g).sum = ∑ p ∈ Finset.range xs.length, ((xs[p]?).map g).getD 0 := by
  induction xs with
  | nil => rfl
  | cons x xs ih =>
    rw [List.length_cons, Finset.sum_range_succ', List.map_cons, List.sum_cons, ih, add_comm]
    rfl

end Sums

end Loops
