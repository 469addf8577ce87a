/-
# SDNware.Lib.Trailing — erasing from the front what was appended at the back.

`erase` takes the first occurrence, `++` adds a last one.  Appending `a` some number of times and
erasing it as often gives the list back exactly when `a` occurs in it, if at all, at the end only
(`iterate_erase_append_iff`).
-/
import Mathlib.Data.List.TakeWhile
import Mathlib.Logic.Function.Iterate
import Mathlib.Order.Basic

variable {α : Type} [BEq α] [LawfulBEq α] {a x : α} {l : List α}

/-- Behind the first `a` there are only `a`s. -/
def Trailing (a : α) (l : List α) : Prop := ∀ x ∈ l.dropWhile (· != a), x = a

instance [DecidableEq α] (a : α) (l : List α) : Decidable (Trailing a l) :=
  inferInstanceAs (Decidable (∀ x ∈ l.dropWhile (· != a), x = a))

theorem trailing_cons_of_ne (h : x ≠ a) : Trailing a (x :: l) ↔ Trailing a l := by
  unfold Trailing
  rw [List.dropWhile_cons_of_pos (by simpa using h)]

theorem trailing_cons_self : Trailing a (a :: l) ↔ ∀ x ∈ l, x = a := by
  unfold Trailing
  rw [List.dropWhile_cons_of_neg (by simp)]
  simp

/-! ## Repeated erasure -/

theorem iterate_erase_cons_of_ne (h : x ≠ a) (m : Nat) (l : List α) :
    (fun l => List.erase l a)^[m] (x :: l) = x :: (fun l => List.erase l a)^[m] l := by
  induction m generalizing l with
  | zero => rfl
  | succ m ih =>
    rw [Function.iterate_succ_apply, Function.iterate_succ_apply,
      List.erase_cons_tail (by simpa using h), ih]

theorem iterate_erase_replicate (m k : Nat) :
    (fun l => List.erase l a)^[m] (List.replicate (k + m) a) = List.replicate k a := by
  induction m with
  | zero => rfl
  | succ m ih =>
    rw [Function.iterate_succ_apply, ← Nat.add_assoc, List.replicate_succ, List.erase_cons_head, ih]

/-- How many `a`s stand in front. -/
def headRun (a : α) (l : List α) : Nat := (l.takeWhile (· == a)).length

theorem headRun_erase_le (a : α) (l : List α) : headRun a (l.erase a) ≤ headRun a l := by
  unfold headRun
  cases l with
  | nil => exact le_rfl
  | cons x l =>
    by_cases h : x = a
    · subst h
      rw [List.erase_cons_head, List.takeWhile_cons_of_pos (by simp)]
      exact Nat.le_succ _
    · rw [List.erase_cons_tail (by simpa using h), List.takeWhile_cons_of_neg (by simpa using h)]
      exact Nat.zero_le _

theorem headRun_iterate_erase_le (a : α) (m : Nat) (l : List α) :
    headRun a ((fun l => List.erase l a)^[m] l) ≤ headRun a l := by
  induction m generalizing l with
  | zero => exact le_rfl
  | succ m ih =>
    rw [Function.iterate_succ_apply]
    exact (ih _).trans (headRun_erase_le a l)

theorem headRun_append {l' : List α} (h : ¬ ∀ x ∈ l, x = a) : headRun a (l ++ l') = headRun a l := by
  unfold headRun
  rw [List.takeWhile_append, if_neg]
  intro hlen
  have hself : l.takeWhile (· == a) = l :=
    (List.takeWhile_prefix _).eq_of_length hlen
  exact h fun x hx => by simpa using List.takeWhile_eq_self_iff.mp hself x hx

/-- **Erasing what was appended.** -/
theorem iterate_erase_append_iff {m : Nat} (hm : 0 < m) :
    (fun l => List.erase l a)^[m] (l ++ List.replicate m a) = l ↔ Trailing a l := by
  induction l with
  | nil =>
    have hrep := iterate_erase_replicate (a := a) m 0
    rw [Nat.zero_add] at hrep
    rw [List.nil_append, hrep]
    simp [Trailing]
  | cons x l ih =>
    by_cases h : x = a
    · subst h
      rw [trailing_cons_self]
      constructor
      · intro heq
        by_contra hmixed
        -- the first of the leading `x`s goes, and no erasure makes the run in front longer
        obtain ⟨m, rfl⟩ := Nat.exists_eq_succ_of_ne_zero hm.ne'
        rw [List.cons_append, Nat.succ_eq_add_one, Function.iterate_succ_apply,
          List.erase_cons_head] at heq
        have hle := headRun_iterate_erase_le x m (l ++ List.replicate (m + 1) x)
        rw [heq, headRun_append hmixed] at hle
        have hrun : headRun x (x :: l) = headRun x l + 1 := by
          unfold headRun
          rw [List.takeWhile_cons_of_pos (by simp), List.length_cons]
        omega
      · intro hall
        have hrep : x :: l = List.replicate (l.length + 1) x :=
          List.eq_replicate_of_mem (by simpa using hall)
        rw [hrep, List.replicate_append_replicate]
        exact iterate_erase_replicate m (l.length + 1)
    · rw [List.cons_append, iterate_erase_cons_of_ne h, List.cons_inj_right, ih,
        trailing_cons_of_ne h]
