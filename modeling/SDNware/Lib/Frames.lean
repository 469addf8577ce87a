/-
# SDNware.Lib.Frames — fixed-size frames cut from a byte stream that arrives in pieces.

A sender concatenates frames of one size `n`; a receiver sees the stream as a list of PIECES and
cuts every piece on its own into as many whole frames as it holds.  The receiver keeps nothing
between two pieces, so the remainder of a piece is lost.  The two facts proved here settle when
that is harmless: if every piece is a whole number of frames the cut commutes with concatenation
(`flatMap_wholeFrames`), and the number of frames recovered from a stream of `n * m` symbols is `m`
only then (`pieces_dvd_of_count`).

Everything is generic in the symbol type and in `n`.
-/
import Mathlib.Data.List.Basic
import Mathlib.Algebra.Order.BigOperators.Group.List
import Mathlib.Tactic.Ring

namespace Frames

variable {α β : Type*}

/-- The first `k` frames of size `n` of a buffer, in order: frame `j` starts at offset `n * j`. -/
def frames (n : Nat) : Nat → List α → List (List α)
  | 0, _ => []
  | k + 1, l => l.take n :: frames n k (l.drop n)

/-- All the whole frames of a piece; what is left over at its end is dropped. -/
def wholeFrames (n : Nat) (piece : List α) : List (List α) :=
  frames n (piece.length / n) piece

@[simp] theorem frames_length (n k : Nat) (l : List α) : (frames n k l).length = k := by
  induction k generalizing l with
  | zero => rfl
  | succ k ih => simp only [frames, List.length_cons, ih]

@[simp] theorem wholeFrames_length (n : Nat) (l : List α) :
    (wholeFrames n l).length = l.length / n :=
  frames_length n _ l

/-- Cutting commutes with concatenation when the left part is exactly `k₁` frames long. -/
theorem frames_append (n : Nat) (k₁ k₂ : Nat) (a b : List α) (ha : a.length = n * k₁) :
    frames n (k₁ + k₂) (a ++ b) = frames n k₁ a ++ frames n k₂ b := by
  induction k₁ generalizing a with
  | zero =>
    have hnil : a = [] := List.length_eq_zero_iff.mp (by simpa using ha)
    simp [frames, hnil]
  | succ k ih =>
    have hlen : n ≤ a.length := by rw [ha]; exact Nat.le_mul_of_pos_right n (Nat.succ_pos k)
    have hdrop : (a.drop n).length = n * k := by
      rw [List.length_drop, ha, Nat.mul_succ, Nat.add_sub_cancel]
    rw [show k + 1 + k₂ = (k + k₂) + 1 by omega]
    simp only [frames, List.cons_append]
    rw [List.take_append_of_le_length hlen, List.drop_append_of_le_length hlen, ih _ hdrop]

/-- Frames that lie inside the left part do not see what follows it. -/
theorem frames_append_left (n k : Nat) (a b : List α) (ha : n * k ≤ a.length) :
    frames n k (a ++ b) = frames n k a := by
  induction k generalizing a with
  | zero => rfl
  | succ k ih =>
    have hlen : n ≤ a.length := le_trans (Nat.le_mul_of_pos_right n (Nat.succ_pos k)) ha
    have hdrop : n * k ≤ (a.drop n).length := by
      rw [List.length_drop]
      rw [Nat.mul_succ] at ha
      omega
    simp only [frames]
    rw [List.take_append_of_le_length hlen, List.drop_append_of_le_length hlen, ih _ hdrop]

theorem wholeFrames_append {n : Nat} (hn : 0 < n) {a : List α} (b : List α) (ha : n ∣ a.length) :
    wholeFrames n (a ++ b) = wholeFrames n a ++ wholeFrames n b := by
  obtain ⟨k, hk⟩ := ha
  have hka : a.length / n = k := by rw [hk, Nat.mul_div_cancel_left k hn]
  have hkab : (a ++ b).length / n = k + b.length / n := by
    rw [List.length_append, hk, Nat.mul_add_div hn]
  unfold wholeFrames
  rw [hkab, hka, frames_append n k _ a b hk]

/-- **Whole pieces cut like the whole stream.** -/
theorem flatMap_wholeFrames {n : Nat} (hn : 0 < n) :
    ∀ (pieces : List (List α)), (∀ p ∈ pieces, n ∣ p.length) →
      pieces.flatMap (wholeFrames n) = wholeFrames n pieces.flatten
  | [], _ => by simp [wholeFrames, frames]
  | p :: ps, h => by
      have ih := flatMap_wholeFrames hn ps fun q hq => h q (List.mem_cons_of_mem p hq)
      rw [List.flatMap_cons, List.flatten_cons, ih,
        wholeFrames_append hn _ (h p List.mem_cons_self)]

section Encoded

variable {n : Nat} (enc : β → List α) (henc : ∀ x, (enc x).length = n)

include henc

theorem flatMap_enc_length (xs : List β) : (xs.flatMap enc).length = n * xs.length := by
  induction xs with
  | nil => simp
  | cons x xs ih => rw [List.flatMap_cons, List.length_append, henc, ih, List.length_cons]; ring

/-- Cutting the first `k` frames of an encoded list gives back its first `k` encodings. -/
theorem frames_flatMap_enc (xs : List β) (k : Nat) (hk : k ≤ xs.length) :
    frames n k (xs.flatMap enc) = (xs.take k).map enc := by
  induction k generalizing xs with
  | zero => simp [frames]
  | succ k ih =>
    cases xs with
    | nil => simp at hk
    | cons x xs =>
      have hx : n ≤ (enc x).length := (henc x).ge
      simp only [frames, List.flatMap_cons, List.take_succ_cons, List.map_cons]
      rw [List.take_append_of_le_length hx, List.drop_append_of_le_length hx,
        List.take_of_length_le (henc x).le, List.drop_of_length_le (henc x).le, List.nil_append,
        ih xs (by simpa using hk)]

/-- A prefix of the encoded stream made of whole frames is cut into a prefix of the encodings. -/
theorem wholeFrames_of_prefix {l : List α} {xs : List β} (hl : n ∣ l.length)
    (hpre : l <+: xs.flatMap enc) :
    wholeFrames n l = (xs.take (l.length / n)).map enc := by
  have hle : l.length / n ≤ xs.length := by
    have h := hpre.length_le
    rw [flatMap_enc_length enc henc] at h
    exact Nat.div_le_of_le_mul h
  obtain ⟨rest, hrest⟩ := hpre
  have hcut := frames_append n (l.length / n) 0 l rest (Nat.mul_div_cancel' hl).symm
  rw [hrest] at hcut
  simp only [Nat.add_zero, frames, List.append_nil] at hcut
  rw [wholeFrames, ← hcut, frames_flatMap_enc enc henc xs _ hle]

end Encoded

/-- The total length of the pieces, against what each piece alone accounts for. -/
theorem sum_div_mul_add_sum_mod (n : Nat) (pieces : List (List α)) :
    pieces.flatten.length
      = n * (pieces.flatMap (wholeFrames n)).length + (pieces.map (·.length % n)).sum := by
  induction pieces with
  | nil => simp
  | cons p ps ih =>
    simp only [List.flatten_cons, List.length_append, List.flatMap_cons, List.map_cons,
      List.sum_cons, wholeFrames_length]
    rw [ih, Nat.mul_add]
    have := Nat.div_add_mod p.length n
    omega

/-- **Counting frames detects every cut inside a frame.** -/
theorem pieces_dvd_of_count {n : Nat} {pieces : List (List α)} {m : Nat}
    (htotal : pieces.flatten.length = n * m)
    (hcount : (pieces.flatMap (wholeFrames n)).length = m) : ∀ p ∈ pieces, n ∣ p.length := by
  have hsum := sum_div_mul_add_sum_mod n pieces
  rw [hcount, htotal] at hsum
  have hzero : (pieces.map (·.length % n)).sum = 0 := by omega
  intro p hp
  exact Nat.dvd_of_mod_eq_zero
    (List.sum_eq_zero_iff.mp hzero _ (List.mem_map.mpr ⟨p, hp, rfl⟩))

end Frames
