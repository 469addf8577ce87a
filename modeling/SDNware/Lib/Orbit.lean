/-
# SDNware.Lib.Orbit — following a map back to a point.

`Orbit f s x l`: applying `f` again and again from `x` reaches `s`, and `l` lists what is visited
before `s`.  A map that gets to `s` at all gets there without visiting anything twice
(`Orbit.nodup`): a repetition would repeat for ever.  No invariant of the map is needed for this, so
it applies to predecessor tables however they were filled.
-/
import Mathlib.Data.List.Nodup
import Mathlib.Data.List.Perm.Subperm

variable {α : Type} {f : α → α} {s : α}

/-- The points from `x` on, up to but not including `s`. -/
inductive Orbit (f : α → α) (s : α) : α → List α → Prop
  | stop : Orbit f s s []
  | step {x : α} {l : List α} (hne : x ≠ s) (rest : Orbit f s (f x) l) : Orbit f s x (x :: l)

namespace Orbit

theorem unique {x : α} {l l' : List α} (h : Orbit f s x l) (h' : Orbit f s x l') : l = l' := by
  induction h generalizing l' with
  | stop =>
    cases h' with
    | stop => rfl
    | step hne _ => exact absurd rfl hne
  | step hne rest ih =>
    cases h' with
    | stop => exact absurd rfl hne
    | step _ rest' => rw [ih rest']

/-- A visited point starts an orbit of its own, no longer than the whole. -/
theorem of_mem {x y : α} {l : List α} (h : Orbit f s x l) (hy : y ∈ l) :
    ∃ l', Orbit f s y l' ∧ l'.length ≤ l.length := by
  induction h with
  | stop => exact absurd hy (by simp)
  | step hne rest ih =>
    rcases List.mem_cons.mp hy with rfl | hy
    · exact ⟨_, .step hne rest, Nat.le_refl _⟩
    · obtain ⟨l', hl', hlen⟩ := ih hy
      exact ⟨l', hl', Nat.le_succ_of_le hlen⟩

theorem eq_cons {x : α} {l : List α} (h : Orbit f s x l) (hne : x ≠ s) : ∃ l', l = x :: l' := by
  cases h with
  | stop => exact absurd rfl hne
  | step _ rest => exact ⟨_, rfl⟩

theorem ne_of_mem {x y : α} {l : List α} (h : Orbit f s x l) (hy : y ∈ l) : y ≠ s := by
  induction h with
  | stop => exact absurd hy (by simp)
  | step hne rest ih =>
    rcases List.mem_cons.mp hy with rfl | hy
    · exact hne
    · exact ih hy

/-- **An orbit repeats nothing.** -/
theorem nodup {x : α} {l : List α} (h : Orbit f s x l) : l.Nodup := by
  induction h with
  | stop => exact List.nodup_nil
  | step hne rest ih =>
    refine List.nodup_cons.mpr ⟨fun hmem => ?_, ih⟩
    -- the orbit of the repeated point would be shorter than itself
    obtain ⟨l', hl', hlen⟩ := rest.of_mem hmem
    have heq := unique hl' (.step hne rest)
    rw [heq, List.length_cons] at hlen
    omega

/-- What `f` keeps holds at the end. -/
theorem holds_end {P : α → Prop} (hf : ∀ x, P x → P (f x)) {x : α} {l : List α}
    (h : Orbit f s x l) (hx : P x) : P s := by
  induction h with
  | stop => exact hx
  | step _ rest ih => exact ih (hf _ hx)

/-- A map that agrees on the visited points visits the same. -/
theorem congr {g : α → α} {x : α} {l : List α} (h : Orbit f s x l) (hfg : ∀ y ∈ l, f y = g y) :
    Orbit g s x l := by
  induction h with
  | stop => exact .stop
  | @step x l hne rest ih =>
    refine .step hne ?_
    rw [← hfg x List.mem_cons_self]
    exact ih fun y hy => hfg y (List.mem_cons_of_mem x hy)

/-- What `f` keeps holds of every visited point. -/
theorem forall_mem {P : α → Prop} (hf : ∀ x, P x → P (f x)) {x : α} {l : List α}
    (h : Orbit f s x l) (hx : P x) : ∀ y ∈ l, P y := by
  induction h with
  | stop => exact fun y hy => absurd hy (by simp)
  | step _ rest ih =>
    intro y hy
    rcases List.mem_cons.mp hy with rfl | hy
    · exact hx
    · exact ih (hf _ hx) y hy

/-- An orbit below `n` is shorter than `n`: its points and the end are distinct. -/
theorem length_lt {f : Nat → Nat} {s x n : Nat} {l : List Nat} (h : Orbit f s x l) (hs : s < n)
    (hl : ∀ y ∈ l, y < n) : l.length < n := by
  have hnodup : (s :: l).Nodup :=
    List.nodup_cons.mpr ⟨fun hmem => h.ne_of_mem hmem rfl, h.nodup⟩
  have hsubset : s :: l ⊆ List.range n := by
    intro y hy
    rcases List.mem_cons.mp hy with rfl | hy
    · exact List.mem_range.mpr hs
    · exact List.mem_range.mpr (hl y hy)
  have hle := (List.subperm_of_subset hnodup hsubset).length_le
  rwa [List.length_cons, List.length_range] at hle

end Orbit
