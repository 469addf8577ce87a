/-
# SDNware.Lib.Cut — a length cut into pieces of bounded size.

`cut m n` cuts `n` units into full pieces of `m` and a last piece of at most `m`.  The closed forms
that code uses for it are theorems here: the pieces add up to `n`, there are `⌈n / m⌉` of them
(`length_cut`), and there is only one exactly when `n` fits.
-/
import Mathlib.Algebra.BigOperators.Group.List.Basic
import Mathlib.Algebra.GroupWithZero.Nat
import Mathlib.Data.List.ModifyLast

/-- The pieces of `n` units, `m` at a time. -/
def cut (m n : Nat) : List Nat :=
  if 0 < m ∧ m < n then m :: cut m (n - m) else [n]
termination_by n

theorem cut_of_le {m n : Nat} (h : n ≤ m) : cut m n = [n] := by
  rw [cut, if_neg fun hlt => by omega]

theorem cut_of_lt {m n : Nat} (hm : 0 < m) (h : m < n) : cut m n = m :: cut m (n - m) := by
  rw [cut, if_pos ⟨hm, h⟩]

theorem cut_ne_nil (m n : Nat) : cut m n ≠ [] := by
  rw [cut]
  split <;> simp

theorem sum_cut (m n : Nat) : (cut m n).sum = n := by
  induction n using Nat.strongRecOn with
  | _ n ih =>
    by_cases h : 0 < m ∧ m < n
    · rw [cut_of_lt h.1 h.2, List.sum_cons, ih (n - m) (by omega)]
      omega
    · rw [cut, if_neg h, List.sum_singleton]

/-- **There are `⌈n / m⌉` pieces.** -/
theorem length_cut {m n : Nat} (hm : 0 < m) (hn : 0 < n) : (cut m n).length = (n + m - 1) / m := by
  induction n using Nat.strongRecOn with
  | _ n ih =>
    rcases Nat.lt_or_ge m n with h | h
    · rw [cut_of_lt hm h, List.length_cons, ih (n - m) (by omega) (by omega)]
      have hpiece : n + m - 1 = (n - m + m - 1) + m := by omega
      rw [hpiece, Nat.add_div_right _ hm]
    · rw [cut_of_le h, List.length_singleton]
      have hone : n + m - 1 = (n - 1) + m := by omega
      rw [hone, Nat.add_div_right _ hm, Nat.div_eq_of_lt (by omega)]

theorem length_cut_eq_one_iff {m n : Nat} (hm : 0 < m) : (cut m n).length = 1 ↔ n ≤ m := by
  rcases Nat.lt_or_ge m n with h | h
  · rw [cut_of_lt hm h, List.length_cons]
    have hpos := List.length_pos_iff.mpr (cut_ne_nil m (n - m))
    omega
  · rw [cut_of_le h, List.length_singleton]
    omega

/-! ## Charges per piece -/

theorem sum_map_add (l : List Nat) (k : Nat) : (l.map (· + k)).sum = l.sum + l.length * k := by
  rw [List.sum_map_add, List.map_id', List.map_const', List.sum_replicate, Nat.nsmul_eq_mul]

theorem sum_modifyHead_add {l : List Nat} (h : l ≠ []) (k : Nat) :
    (l.modifyHead (· + k)).sum = l.sum + k := by
  cases l with
  | nil => exact absurd rfl h
  | cons a l =>
    rw [List.modifyHead_cons, List.sum_cons, List.sum_cons]
    omega

theorem sum_modifyLast_add {l : List Nat} (h : l ≠ []) (k : Nat) :
    (l.modifyLast (· + k)).sum = l.sum + k := by
  obtain ⟨init, last, rfl⟩ := (List.eq_nil_or_concat' l).resolve_left h
  rw [List.modifyLast_concat, List.sum_append, List.sum_append, List.sum_singleton,
    List.sum_singleton]
  omega
