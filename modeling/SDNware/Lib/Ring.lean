/-
# SDNware.Lib.Ring — a ring of `N` slots seen through absolute positions.

The `k`-th value ever appended sits in slot `k % N` until the `k + N`-th overwrites it.  With `s`
values consumed and `n` appended, a ring that keeps only the two remainders `t = s % N` and
`h = n % N` still determines the unconsumed values as long as `n < s + N`: they are the slots from
`t` up to `h`, around the end when `h < t` (`window_eq`).
-/
import Mathlib.Data.List.Range
import Mathlib.Data.Nat.ModEq
import Mathlib.Logic.Function.Basic

namespace Ring

variable {α : Type*}

/-- The contents of the slots `lo, …, hi - 1`. -/
def segment (slot : Nat → α) (lo hi : Nat) : List α := (List.range' lo (hi - lo)).map slot

/-- The slots from `t` to `h`, around the end if need be. -/
def window (N : Nat) (slot : Nat → α) (t h : Nat) : List α :=
  if t ≤ h then segment slot t h else segment slot t N ++ segment slot 0 h

@[simp] theorem segment_length (slot : Nat → α) (lo hi : Nat) :
    (segment slot lo hi).length = hi - lo := by
  simp [segment]

/-- The slots of the absolute positions `s, …, s + m - 1`. -/
def positions (N : Nat) (slot : Nat → α) (s m : Nat) : List α :=
  (List.range' s m).map fun k => slot (k % N)

@[simp] theorem positions_length (N : Nat) (slot : Nat → α) (s m : Nat) :
    (positions N slot s m).length = m := by
  simp [positions]

theorem positions_add (N : Nat) (slot : Nat → α) (s m m' : Nat) :
    positions N slot s (m + m') = positions N slot s m ++ positions N slot (s + m) m' := by
  simp only [positions, ← List.map_append]
  rw [List.range'_append_1]

/-- A stretch of positions that does not cross the end of the ring is a segment. -/
theorem positions_eq_segment {N : Nat} (slot : Nat → α) {s m : Nat} (hm : s % N + m ≤ N) :
    positions N slot s m = segment slot (s % N) (s % N + m) := by
  unfold positions segment
  rw [Nat.add_sub_cancel_left, List.range'_eq_map_range, List.range'_eq_map_range, List.map_map,
    List.map_map]
  refine List.map_congr_left fun i hi => ?_
  have hlt : s % N + i < N := by have := List.mem_range.mp hi; omega
  simp only [Function.comp_apply]
  rw [Nat.add_mod, Nat.mod_eq_of_lt (by omega : i < N), Nat.mod_eq_of_lt hlt]

/-- Occupancy from the two remainders, when the head has not gone around. -/
theorem sub_eq_of_le {N s n : Nat} (hs : s ≤ n) (hn : n < s + N) (h : s % N ≤ n % N) :
    n - s = n % N - s % N := by
  have e1 := Nat.div_add_mod s N
  have e2 := Nat.div_add_mod n N
  have hsr : s % N < N := Nat.mod_lt _ (by omega)
  have hnr : n % N < N := Nat.mod_lt _ (by omega)
  have hq : n / N = s / N := by
    apply le_antisymm
    · by_contra hlt
      have hmul : N * (s / N + 1) ≤ N * (n / N) := Nat.mul_le_mul_left N (by omega)
      rw [Nat.mul_add, Nat.mul_one] at hmul
      omega
    · exact Nat.div_le_div_right hs
  rw [hq] at e2
  omega

/-- Occupancy from the two remainders, when the head is behind the tail. -/
theorem sub_eq_of_lt {N s n : Nat} (hs : s ≤ n) (hn : n < s + N) (h : n % N < s % N) :
    n - s = (N - s % N) + n % N := by
  have e1 := Nat.div_add_mod s N
  have e2 := Nat.div_add_mod n N
  have hsr : s % N < N := Nat.mod_lt _ (by omega)
  have hq : n / N = s / N + 1 := by
    apply le_antisymm
    · by_contra hlt
      have hmul : N * (s / N + 2) ≤ N * (n / N) := Nat.mul_le_mul_left N (by omega)
      rw [Nat.mul_add] at hmul
      omega
    · by_contra hlt
      have hmul : N * (n / N) ≤ N * (s / N) := Nat.mul_le_mul_left N (by omega)
      omega
  rw [hq, Nat.mul_add, Nat.mul_one] at e2
  omega

/-- The end of a lap is a multiple of the size. -/
theorem lap_end {N : Nat} (hN : 0 < N) (s : Nat) : (s + (N - s % N)) % N = 0 := by
  have hdiv := Nat.div_add_mod s N
  have hlt := Nat.mod_lt s hN
  have hlap : s + (N - s % N) = N * (s / N + 1) := by
    rw [Nat.mul_add, Nat.mul_one]
    omega
  rw [hlap, Nat.mul_mod_right]

/-- **The window is the unconsumed positions.** -/
theorem window_eq {N : Nat} (slot : Nat → α) {s n : Nat} (hs : s ≤ n) (hn : n < s + N) :
    window N slot (s % N) (n % N) = positions N slot s (n - s) := by
  have hsr : s % N < N := Nat.mod_lt _ (by omega)
  have hnr : n % N < N := Nat.mod_lt _ (by omega)
  unfold window
  split
  · rename_i hle
    rw [sub_eq_of_le hs hn hle, positions_eq_segment slot (by omega),
      Nat.add_sub_cancel' hle]
  · rename_i hlt
    rw [not_le] at hlt
    rw [sub_eq_of_lt hs hn hlt, positions_add, positions_eq_segment slot (by omega),
      Nat.add_sub_cancel' hsr.le]
    have hzero := lap_end (by omega : 0 < N) s
    rw [positions_eq_segment slot (by rw [hzero]; omega), hzero, Nat.zero_add]

/-- **The window after an overrun.** With `k` values appended since tail and head met, the slots from
tail to head are the positions of the last `k % N`. -/
theorem window_eq_mod {N : Nat} (slot : Nat → α) {t : Nat} (ht : t < N) (k : Nat) :
    window N slot t ((t + k) % N) = positions N slot (t + (k - k % N)) (k % N) := by
  have hdiv := Nat.div_add_mod k N
  have hlt : k % N < N := Nat.mod_lt _ (by omega)
  have hstart : (t + (k - k % N)) % N = t := by
    rw [show k - k % N = N * (k / N) by omega, Nat.add_mul_mod_self_left, Nat.mod_eq_of_lt ht]
  have hwindow := window_eq (N := N) slot (show t + (k - k % N) ≤ t + k by omega) (by omega)
  rw [hstart, show t + k - (t + (k - k % N)) = k % N by omega] at hwindow
  exact hwindow

/-- Slots from position `s` on that hold a list from index `a` on hand back the list. -/
theorem positions_eq_drop_of_shift {β : Type*} {N : Nat} {slot : Nat → α} {view : α → β}
    {xs : List β} {s a : Nat} (ha : a ≤ xs.length)
    (hslot : ∀ i (hi : a + i < xs.length), view (slot ((s + i) % N)) = xs.get ⟨a + i, hi⟩) :
    (positions N slot s (xs.length - a)).map view = xs.drop a := by
  apply List.ext_getElem
  · rw [List.length_map, positions_length, List.length_drop]
  · intro i h1 h2
    simp only [positions, List.map_map, List.getElem_map, List.getElem_range', Function.comp_apply,
      Nat.one_mul, List.getElem_drop]
    have hlt : a + i < xs.length := by
      rw [List.length_drop] at h2
      omega
    exact hslot i hlt

/-- Slots that hold the positions of a list hand back the list. -/
theorem positions_eq_drop {β : Type*} {N : Nat} {slot : Nat → α} {view : α → β} {xs : List β}
    {s : Nat} (hs : s ≤ xs.length)
    (hslot : ∀ k (hk : k < xs.length), s ≤ k → view (slot (k % N)) = xs.get ⟨k, hk⟩) :
    (positions N slot s (xs.length - s)).map view = xs.drop s :=
  positions_eq_drop_of_shift hs fun i hi => hslot (s + i) hi (Nat.le_add_right s i)

/-- Two positions less than a lap apart share no slot. -/
theorem slot_ne {N k n : Nat} (hk : k < n) (hn : n < k + N) : k % N ≠ n % N := by
  intro heq
  have hdvd : N ∣ n - k := (Nat.modEq_iff_dvd' hk.le).mp heq
  have := Nat.le_of_dvd (by omega) hdvd
  omega

end Ring
