/-
# SDNware.Lib.Interleave — operations with disjoint footprints, and interleavings of them.

A state is seen through its cells, which determine it.  An operation has the footprint `S` if it writes
no cell outside `S` and what it writes depends on the cells of `S` only.  Two operations with disjoint
footprints commute (`Footprint.comm`), and a sequence of operations of several components can then be
reordered at will as long as every component's own operations stay in their order (`foldl_eq`).
-/
import Mathlib

namespace Interleave

/-! ## §1 — footprints -/

section Footprint

variable {σ κ β : Type} {cell : σ → κ → β} {S T : Set κ} {f g : σ → σ}

/-- `f` writes only cells of `S`, and reads only those for what it writes. -/
structure Footprint (cell : σ → κ → β) (S : Set κ) (f : σ → σ) : Prop where
  writes : ∀ s k, k ∉ S → cell (f s) k = cell s k
  reads : ∀ s s', (∀ k ∈ S, cell s k = cell s' k) → ∀ k ∈ S, cell (f s) k = cell (f s') k

theorem Footprint.id (cell : σ → κ → β) (S : Set κ) : Footprint cell S fun s => s :=
  ⟨fun _ _ _ => rfl, fun _ _ h => h⟩

theorem Footprint.comp (hg : Footprint cell S g) (hf : Footprint cell S f) :
    Footprint cell S fun s => g (f s) where
  writes := fun s k hk => (hg.writes (f s) k hk).trans (hf.writes s k hk)
  reads := fun s s' h => hg.reads (f s) (f s') (hf.reads s s' h)

theorem Footprint.mono (hf : Footprint cell S f) (hST : S ⊆ T) : Footprint cell T f where
  writes := fun s k hk => hf.writes s k fun hS => hk (hST hS)
  reads := by
    intro s s' h k hk
    by_cases hS : k ∈ S
    · exact hf.reads s s' (fun k hk => h k (hST hk)) k hS
    · rw [hf.writes s k hS, hf.writes s' k hS]
      exact h k hk

/-- A choice that depends on the footprint only. -/
theorem Footprint.ite {P : σ → Prop} [DecidablePred P] (hf : Footprint cell S f)
    (hg : Footprint cell S g) (hP : ∀ s s', (∀ k ∈ S, cell s k = cell s' k) → (P s ↔ P s')) :
    Footprint cell S fun s => if P s then f s else g s where
  writes := by
    intro s k hk
    split
    · exact hf.writes s k hk
    · exact hg.writes s k hk
  reads := by
    intro s s' h k hk
    by_cases hs : P s
    · rw [if_pos hs, if_pos ((hP s s' h).mp hs)]
      exact hf.reads s s' h k hk
    · rw [if_neg hs, if_neg fun hs' => hs ((hP s s' h).mpr hs')]
      exact hg.reads s s' h k hk

/-- **Disjoint footprints commute.** -/
theorem Footprint.comm (hcell : Function.Injective cell) (hf : Footprint cell S f)
    (hg : Footprint cell T g) (hST : Disjoint S T) (s : σ) : f (g s) = g (f s) := by
  apply hcell
  funext k
  have hsep : ∀ k, k ∈ S → k ∉ T := fun k hS hT => Set.disjoint_left.mp hST hS hT
  by_cases hS : k ∈ S
  · -- `g` is elsewhere, before and after
    rw [hg.writes (f s) k (hsep k hS)]
    exact hf.reads (g s) s (fun k hk => hg.writes s k (hsep k hk)) k hS
  · rw [hf.writes (g s) k hS]
    by_cases hT : k ∈ T
    · exact (hg.reads (f s) s (fun k hk => hf.writes s k fun hS => hsep k hS hk) k hT).symm
    · rw [hg.writes s k hT, hg.writes (f s) k hT, hf.writes s k hS]

end Footprint

/-! ## §2 — interleavings -/

/-- An operation that commutes with those before it can be made first. -/
theorem foldl_middle {σ α : Type} {op : σ → α → σ} {x : α} : ∀ {pre : List α},
    (∀ y ∈ pre, ∀ s, op (op s y) x = op (op s x) y) → ∀ s,
      op (pre.foldl op s) x = pre.foldl op (op s x)
  | [], _, _ => rfl
  | y :: pre, h, s => by
      have ih := foldl_middle (fun z hz => h z (List.mem_cons_of_mem y hz)) (op s y)
      rw [List.foldl_cons, List.foldl_cons, ih, h y List.mem_cons_self]

section Streams

variable {σ ι α : Type} [DecidableEq ι]

/-- What one component contributes to an interleaving. -/
def stream (i : ι) (xs : List (ι × α)) : List α := (xs.filter fun x => x.1 = i).map Prod.snd

theorem stream_append (i : ι) (xs ys : List (ι × α)) :
    stream i (xs ++ ys) = stream i xs ++ stream i ys := by
  unfold stream
  rw [List.filter_append, List.map_append]

theorem stream_cons_self (i : ι) (a : α) (xs : List (ι × α)) :
    stream i ((i, a) :: xs) = a :: stream i xs := by
  simp [stream]

theorem stream_cons_of_ne {i j : ι} (h : j ≠ i) (a : α) (xs : List (ι × α)) :
    stream i ((j, a) :: xs) = stream i xs := by
  simp [stream, h]

theorem mem_stream {i : ι} {a : α} {xs : List (ι × α)} : a ∈ stream i xs ↔ (i, a) ∈ xs := by
  simp [stream]

/-- The first operation of a component, with what comes before it from the others. -/
theorem exists_first {i : ι} {a : α} {rest : List α} : ∀ {ys : List (ι × α)},
    stream i ys = a :: rest → ∃ pre post, ys = pre ++ (i, a) :: post ∧ (∀ y ∈ pre, y.1 ≠ i) ∧
      stream i post = rest
  | [], h => absurd h (by simp [stream])
  | (j, b) :: ys, h => by
      by_cases hj : j = i
      · subst hj
        rw [stream_cons_self] at h
        obtain ⟨rfl, hrest⟩ := List.cons.inj h
        exact ⟨[], ys, rfl, fun y hy => absurd hy List.not_mem_nil, hrest⟩
      · rw [stream_cons_of_ne hj] at h
        obtain ⟨pre, post, rfl, hpre, hrest⟩ := exists_first h
        refine ⟨(j, b) :: pre, post, rfl, ?_, hrest⟩
        exact List.forall_mem_cons.mpr ⟨hj, hpre⟩

theorem stream_of_notMem {i : ι} {pre : List (ι × α)} (h : ∀ y ∈ pre, y.1 ≠ i) :
    stream i pre = [] := by
  unfold stream
  rw [List.map_eq_nil_iff, List.filter_eq_nil_iff]
  exact fun y hy => by simpa using h y hy

/-- **Interleavings do not matter.** If operations of different components commute, two sequences in
which every component has the same operations in the same order have the same effect. -/
theorem foldl_eq {op : σ → ι × α → σ} : ∀ {xs ys : List (ι × α)},
    (∀ x ∈ xs, ∀ y ∈ xs, x.1 ≠ y.1 → ∀ s, op (op s x) y = op (op s y) x) →
    (∀ i, stream i xs = stream i ys) → ∀ s, xs.foldl op s = ys.foldl op s
  | [], ys, _, hstream, s => by
      cases ys with
      | nil => rfl
      | cons y ys =>
        have h := hstream y.1
        rw [show stream y.1 (y :: ys) = y.2 :: stream y.1 ys from stream_cons_self y.1 y.2 ys] at h
        exact absurd h (by simp [stream])
  | (i, a) :: xs, ys, hcomm, hstream, s => by
      -- bring the first operation to the front on the other side too
      have hi := hstream i
      rw [stream_cons_self] at hi
      obtain ⟨pre, post, rfl, hpre, hpost⟩ := exists_first hi.symm
      have hmem : ∀ y ∈ pre, y ∈ (i, a) :: xs := by
        intro y hy
        have : y.2 ∈ stream y.1 ((i, a) :: xs) := by
          rw [hstream y.1, mem_stream]
          exact List.mem_append_left _ hy
        exact mem_stream.mp this
      have hfront : ∀ s, (pre ++ (i, a) :: post).foldl op s = (pre ++ post).foldl op (op s (i, a)) := by
        intro s
        have hmiddle := foldl_middle
          (fun y hy => hcomm y (hmem y hy) (i, a) List.mem_cons_self (hpre y hy)) s
        rw [List.foldl_append, List.foldl_cons, List.foldl_append, hmiddle]
      rw [hfront, List.foldl_cons]
      refine foldl_eq (fun x hx y hy => hcomm x (List.mem_cons_of_mem _ hx) y
        (List.mem_cons_of_mem _ hy)) (fun j => ?_) _
      have hj := hstream j
      rw [stream_append] at hj ⊢
      by_cases hji : j = i
      · subst hji
        rw [stream_of_notMem hpre, hpost]
        rfl
      · rwa [stream_cons_of_ne (Ne.symm hji), stream_cons_of_ne (Ne.symm hji)] at hj

end Streams

end Interleave
