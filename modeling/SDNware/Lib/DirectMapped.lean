/-
# SDNware.Lib.DirectMapped — a direct-mapped cache in front of an answer that may change.

A key `k` owns the line `slotOf k`; a line remembers one key and one value.  A call with key `k`
hits when its line is tagged `k` and then uses the line's value; otherwise it asks for the current
answer, which may fail, stores it and uses it.  No call invalidates a line.

Whether the cache can be observed is a fact about the CALLS alone, decided line by line: a call is
`Fresh` when the last call through its line, if it had the same key, got the same answer.  `coherent_iff`
says that along any history a call uses the current answer exactly when it is fresh, as long as all
calls before it did (`Tracks`).
-/
import Mathlib.Logic.Function.Basic
import Mathlib.Data.List.Basic

namespace DirectMapped

variable {κ ι V : Type} [DecidableEq κ] [DecidableEq ι] (slotOf : κ → ι)

/-- One call: the cache after it and the value used. -/
def lookup (c : ι → κ × V) (k : κ) (answer : Option V) : Option ((ι → κ × V) × V) :=
  if (c (slotOf k)).1 = k then some (c, (c (slotOf k)).2)
  else answer.map fun v => (Function.update c (slotOf k) (k, v), v)

/-- The last call through a line. -/
def lastCall (calls : List (κ × Option V)) (i : ι) : Option (κ × Option V) :=
  calls.reverse.find? fun call => slotOf call.1 = i

/-- The last call through the key's line, if it had this key, got this answer; before any such call,
the initial line is not tagged with the key or holds its answer. -/
def Fresh (c₀ : ι → κ × V) (calls : List (κ × Option V)) (k : κ) (answer : Option V) : Prop :=
  match lastCall slotOf calls (slotOf k) with
  | none => (c₀ (slotOf k)).1 = k → answer = some (c₀ (slotOf k)).2
  | some call => call.1 = k → answer = call.2

/-- Every line holds what the last call through it was answered. -/
def Tracks (c₀ : ι → κ × V) (calls : List (κ × Option V)) (c : ι → κ × V) : Prop :=
  ∀ i, match lastCall slotOf calls i with
    | none => c i = c₀ i
    | some call => (c i).1 = call.1 ∧ some (c i).2 = call.2

omit [DecidableEq κ] in
theorem tracks_nil (c₀ : ι → κ × V) : Tracks slotOf c₀ [] c₀ := fun _ => rfl

variable {slotOf}

omit [DecidableEq κ] in
theorem lastCall_append_same (calls : List (κ × Option V)) (k : κ) (answer : Option V) :
    lastCall slotOf (calls ++ [(k, answer)]) (slotOf k) = some (k, answer) := by
  simp [lastCall]

omit [DecidableEq κ] in
theorem lastCall_append_other (calls : List (κ × Option V)) {k : κ} (answer : Option V) {i : ι}
    (h : slotOf k ≠ i) : lastCall slotOf (calls ++ [(k, answer)]) i = lastCall slotOf calls i := by
  simp [lastCall, h]

/-- With every line tracking the calls, the value used is the current answer exactly when the call
is fresh. -/
theorem coherent_iff {c₀ c : ι → κ × V} {calls : List (κ × Option V)}
    (hc : Tracks slotOf c₀ calls c) (k : κ) (answer : Option V) :
    (lookup slotOf c k answer).map Prod.snd = answer ↔ Fresh slotOf c₀ calls k answer := by
  have hline := hc (slotOf k)
  unfold Fresh lookup
  by_cases hhit : (c (slotOf k)).1 = k
  · -- a hit: the line's value is used, and the line is the last call's
    rw [if_pos hhit]
    cases hlast : lastCall slotOf calls (slotOf k) with
    | none =>
      simp only [hlast] at hline
      rw [hline] at hhit
      simp only [Option.map_some, hline, hhit, forall_const]
      exact eq_comm
    | some call =>
      simp only [hlast] at hline
      rw [hhit] at hline
      simp only [Option.map_some, ← hline.1, hline.2, forall_const]
      exact eq_comm
  · -- a miss: the answer is used, and the tag is not the key
    rw [if_neg hhit]
    constructor
    · intro _
      cases hlast : lastCall slotOf calls (slotOf k) with
      | none =>
        simp only [hlast] at hline
        exact fun h => absurd (hline ▸ h) hhit
      | some call =>
        simp only [hlast] at hline
        exact fun h => absurd (hline.1.trans h) hhit
    · intro _
      cases answer <;> rfl

/-- A coherent call keeps every line tracking. -/
theorem tracks_lookup {c₀ c c' : ι → κ × V} {calls : List (κ × Option V)}
    (hc : Tracks slotOf c₀ calls c) {k : κ} {answer : Option V} {v : V}
    (h : lookup slotOf c k answer = some (c', v)) (hv : some v = answer) :
    Tracks slotOf c₀ (calls ++ [(k, answer)]) c' := by
  intro i
  unfold lookup at h
  by_cases hi : slotOf k = i
  · subst hi
    rw [lastCall_append_same]
    split at h
    · rename_i hhit
      obtain ⟨rfl, rfl⟩ := Prod.mk.inj (Option.some.inj h)
      exact ⟨hhit, hv⟩
    · subst hv
      obtain ⟨rfl, -⟩ := Prod.mk.inj (Option.some.inj h)
      rw [Function.update_self]
      exact ⟨rfl, rfl⟩
  · rw [lastCall_append_other calls answer hi]
    split at h
    · obtain ⟨rfl, -⟩ := Prod.mk.inj (Option.some.inj h)
      exact hc i
    · subst hv
      obtain ⟨rfl, -⟩ := Prod.mk.inj (Option.some.inj h)
      rw [Function.update_of_ne (Ne.symm hi)]
      exact hc i

end DirectMapped
