/-
# SDNware.Lib.Run — runs of a partial step function, and invariants along them.

A component is a state type with a step `σ → ε → Option σ`; `none` stands for a step the component
does not survive.  A run folds the step over a list of events (`List.foldlM`).  `Along P s es` says
that every event of the run meets `P` in the state it is executed in, the form in which conditions
on the states BEFORE the steps are stated.

A partial operation on the elements of a list one after the other (`List.mapM`) is survived exactly if
it is at every element (`mapM_of_forall`, `mapM_of_none`).
-/
import Mathlib.Data.List.Basic
import Mathlib.Logic.Basic

namespace Run

variable {σ ε : Type} (step : σ → ε → Option σ)

/-- Every step of the run of `es` from `s` meets `P` in the state before it. -/
def Along (P : σ → ε → Prop) : σ → List ε → Prop
  | _, [] => True
  | s, e :: es => P s e ∧ ∀ s', step s e = some s' → Along P s' es

/-- A decidable condition is decidable along a run. -/
instance Along.decidable (P : σ → ε → Prop) [∀ s e, Decidable (P s e)] :
    ∀ s es, Decidable (Along step P s es)
  | _, [] => isTrue trivial
  | s, e :: es =>
    match hstep : step s e with
    | none => decidable_of_iff (P s e)
        ⟨fun h => ⟨h, fun s' hs' => by rw [hstep] at hs'; exact absurd hs' (by simp)⟩, And.left⟩
    | some mid =>
      have := Along.decidable P mid es
      decidable_of_iff (P s e ∧ Along step P mid es)
        ⟨fun h => ⟨h.1, fun s' hs' => by rw [hstep] at hs'; exact Option.some.inj hs' ▸ h.2⟩,
          fun h => ⟨h.1, h.2 mid hstep⟩⟩

variable {step}

/-- A condition on the events alone. -/
theorem along_of_mem {P : σ → ε → Prop} {es : List ε} (h : ∀ e ∈ es, ∀ s, P s e) (s : σ) :
    Along step P s es := by
  induction es generalizing s with
  | nil => trivial
  | cons e es ih =>
    refine ⟨h e List.mem_cons_self s, fun s' _ => ?_⟩
    exact ih (fun e' he' => h e' (List.mem_cons_of_mem e he')) s'

theorem foldlM_cons_some {s s' : σ} {e : ε} {es : List ε}
    (h : (e :: es).foldlM step s = some s') :
    ∃ mid, step s e = some mid ∧ es.foldlM step mid = some s' := by
  rw [List.foldlM_cons] at h
  exact Option.bind_eq_some_iff.mp h

theorem foldlM_append_some {s s' : σ} {es es' : List ε} (h : (es ++ es').foldlM step s = some s') :
    ∃ mid, es.foldlM step s = some mid ∧ es'.foldlM step mid = some s' := by
  rw [List.foldlM_append] at h
  exact Option.bind_eq_some_iff.mp h

/-- The condition holds in every state a run has reached, of the event that comes next. -/
theorem Along.of_reached {P : σ → ε → Prop} {e : ε} {post : List ε} :
    ∀ {pre : List ε} {s mid : σ}, Along step P s (pre ++ e :: post) → pre.foldlM step s = some mid →
      P mid e
  | [], s, mid, h, hpre => by
      obtain rfl : s = mid := Option.some.inj hpre
      exact h.1
  | _ :: _, _, _, h, hpre => by
      obtain ⟨next, hnext, hrest⟩ := foldlM_cons_some hpre
      exact (h.2 next hnext).of_reached hrest

/-- A condition that admits another one admits it along a run. -/
theorem Along.mono {P Q : σ → ε → Prop} (hPQ : ∀ s e, P s e → Q s e) :
    ∀ {es : List ε} {s : σ}, Along step P s es → Along step Q s es
  | [], _, _ => trivial
  | _ :: _, _, h => ⟨hPQ _ _ h.1, fun s' hs' => (h.2 s' hs').mono hPQ⟩

/-- **The invariant rule.** What every admissible step preserves holds after every admissible run. -/
theorem invariant {P : σ → ε → Prop} {I : σ → Prop}
    (hstep : ∀ s e s', I s → P s e → step s e = some s' → I s') :
    ∀ (es : List ε) {s s' : σ}, I s → Along step P s es → es.foldlM step s = some s' → I s'
  | [], s, s', hI, _, h => by
      obtain rfl : s = s' := Option.some.inj h
      exact hI
  | e :: es, s, s', hI, hP, h => by
      obtain ⟨mid, hmid, hrest⟩ := foldlM_cons_some h
      exact invariant hstep es (hstep s e mid hI hP.1 hmid) (hP.2 mid hmid) hrest

/-- The invariant rule for runs without a side condition. -/
theorem invariant_of_step {I : σ → Prop} (hstep : ∀ s e s', I s → step s e = some s' → I s')
    (es : List ε) {s s' : σ} (hI : I s) (h : es.foldlM step s = some s') : I s' := by
  induction es generalizing s with
  | nil =>
    obtain rfl : s = s' := Option.some.inj h
    exact hI
  | cons e es ih =>
    obtain ⟨mid, hmid, hrest⟩ := foldlM_cons_some h
    exact ih (hstep s e mid hI hmid) hrest

/-- **The progress rule.** If an event can always be executed where the invariant holds, and the
invariant is kept, then the run gets to its end. -/
theorem exists_of_step {I : σ → Prop} {es : List ε}
    (hstep : ∀ s, ∀ e ∈ es, I s → ∃ s', step s e = some s' ∧ I s') {s : σ} (hI : I s) :
    ∃ s', es.foldlM step s = some s' ∧ I s' := by
  induction es generalizing s with
  | nil => exact ⟨s, rfl, hI⟩
  | cons e es ih =>
    obtain ⟨mid, hmid, hImid⟩ := hstep s e List.mem_cons_self hI
    obtain ⟨s', hs', hI'⟩ := ih (fun t e' he' => hstep t e' (List.mem_cons_of_mem e he')) hImid
    refine ⟨s', ?_, hI'⟩
    rw [List.foldlM_cons, hmid]
    exact hs'

/-- **The rule backwards.** If a step that ends in `Q` started in `Q` and was admissible, then every
run that ends in `Q` was admissible all along; `I` is what runs preserve meanwhile. -/
theorem along_of_final {P : σ → ε → Prop} {I Q : σ → Prop}
    (hstep : ∀ s e s', I s → step s e = some s' → I s' ∧ (Q s' → Q s ∧ P s e)) :
    ∀ (es : List ε) {s s' : σ}, I s → es.foldlM step s = some s' → Q s' → Q s ∧ Along step P s es
  | [], s, s', _, h, hQ => by
      obtain rfl : s = s' := Option.some.inj h
      exact ⟨hQ, trivial⟩
  | e :: es, s, s', hI, h, hQ => by
      obtain ⟨mid, hmid, hrest⟩ := foldlM_cons_some h
      obtain ⟨hImid, hback⟩ := hstep s e mid hI hmid
      obtain ⟨hQmid, halong⟩ := along_of_final hstep es hImid hrest hQ
      obtain ⟨hQs, hP⟩ := hback hQmid
      refine ⟨hQs, hP, fun mid' hmid' => ?_⟩
      obtain rfl : mid = mid' := Option.some.inj (hmid.symm.trans hmid')
      exact halong

/-- A run in which every step leaves the state as it is goes through the steps from one state. -/
theorem Along.fixed : ∀ {es : List ε} {s : σ}, Along step (fun s e => step s e = some s) s es →
    ∀ e ∈ es, step s e = some s
  | [], _, _, _, he => absurd he List.not_mem_nil
  | e :: es, s, h, e', he' => by
      rcases List.mem_cons.mp he' with rfl | he'
      · exact h.1
      · exact (h.2 s h.1).fixed e' he'

theorem foldlM_fixed {s : σ} : ∀ {es : List ε}, (∀ e ∈ es, step s e = some s) →
    es.foldlM step s = some s
  | [], _ => rfl
  | e :: es, h => by
      rw [List.foldlM_cons, h e List.mem_cons_self]
      exact foldlM_fixed fun e' he' => h e' (List.mem_cons_of_mem e he')

/-- Two runs in a row that are admissible each. -/
theorem Along.append {P : σ → ε → Prop} {es' : List ε} :
    ∀ {es : List ε} {s mid : σ}, Along step P s es → es.foldlM step s = some mid →
      Along step P mid es' → Along step P s (es ++ es')
  | [], s, mid, _, h, h' => by
      obtain rfl : s = mid := Option.some.inj h
      exact h'
  | _ :: _, _, _, hP, h, h' => by
      obtain ⟨next, hnext, hrest⟩ := foldlM_cons_some h
      refine ⟨hP.1, fun s' hs' => ?_⟩
      obtain rfl : next = s' := Option.some.inj (hnext.symm.trans hs')
      exact (hP.2 next hnext).append hrest h'

/-- **The forward-simulation rule.** If every admissible step is matched by an admissible run of the
other system, the empty one for a step that does not show there, then so is every admissible run. -/
theorem forward_simulation {τ δ : Type} {step' : τ → δ → Option τ} {P : σ → ε → Prop}
    {P' : τ → δ → Prop} {R : σ → τ → Prop}
    (hstep : ∀ s e s' u, R s u → P s e → step s e = some s' →
      ∃ ds u', ds.foldlM step' u = some u' ∧ Along step' P' u ds ∧ R s' u') :
    ∀ (es : List ε) {s s' : σ} {u : τ}, R s u → Along step P s es → es.foldlM step s = some s' →
      ∃ ds u', ds.foldlM step' u = some u' ∧ Along step' P' u ds ∧ R s' u'
  | [], s, s', u, hR, _, h => by
      obtain rfl : s = s' := Option.some.inj h
      exact ⟨[], u, rfl, trivial, hR⟩
  | e :: es, s, s', u, hR, hP, h => by
      obtain ⟨mid, hmid, hrest⟩ := foldlM_cons_some h
      obtain ⟨ds, u₁, hrun, halong, hR₁⟩ := hstep s e mid u hR hP.1 hmid
      obtain ⟨ds', u₂, hrun', halong', hR₂⟩ := forward_simulation hstep es hR₁ (hP.2 mid hmid) hrest
      refine ⟨ds ++ ds', u₂, ?_, halong.append hrun halong', hR₂⟩
      rw [List.foldlM_append, hrun]
      exact hrun'

/-- **The simulation rule.** Two step functions that agree up to `R` on every admissible step, also
on which steps are not survived, agree up to `R` on every admissible run. -/
theorem simulation {τ : Type} {step' : τ → ε → Option τ} {P : σ → ε → Prop} {R : σ → τ → Prop}
    (hstep : ∀ s u e, R s u → P s e → Option.Rel R (step s e) (step' u e)) :
    ∀ (es : List ε) {s : σ} {u : τ}, R s u → Along step P s es →
      Option.Rel R (es.foldlM step s) (es.foldlM step' u)
  | [], _, _, hR, _ => .some hR
  | e :: es, s, u, hR, hP => by
      rw [List.foldlM_cons, List.foldlM_cons]
      have hrel := hstep s u e hR hP.1
      generalize hs : step s e = x at hrel
      generalize step' u e = y at hrel
      cases hrel with
      | none => exact .none
      | some hR' => exact simulation hstep es hR' (hP.2 _ hs)

/-- Some run leads from the one state to the other. -/
def Reaches (step : σ → ε → Option σ) (s s' : σ) : Prop := ∃ es : List ε, es.foldlM step s = some s'

theorem Reaches.refl (s : σ) : Reaches step s s := ⟨[], rfl⟩

/-- One step and a run. -/
theorem Reaches.head {s mid s' : σ} (e : ε) (h : step s e = some mid) (hrest : Reaches step mid s') :
    Reaches step s s' := by
  obtain ⟨es, hes⟩ := hrest
  refine ⟨e :: es, ?_⟩
  rw [List.foldlM_cons, h]
  exact hes

theorem Reaches.trans {s mid s' : σ} (h : Reaches step s mid) (h' : Reaches step mid s') :
    Reaches step s s' := by
  obtain ⟨es, hes⟩ := h
  obtain ⟨es', hes'⟩ := h'
  refine ⟨es ++ es', ?_⟩
  rw [List.foldlM_append, hes]
  exact hes'

theorem mapM_of_forall {α β : Type} {f : α → Option β} {g : α → β} {l : List α}
    (h : ∀ x ∈ l, f x = some (g x)) : l.mapM f = some (l.map g) := by
  induction l with
  | nil => rfl
  | cons x l ih =>
    obtain ⟨hx, hl⟩ := List.forall_mem_cons.mp h
    rw [List.mapM_cons, hx, ih hl]
    rfl

theorem mapM_of_none {α β : Type} {f : α → Option β} {l : List α} {x : α} (hx : x ∈ l)
    (h : f x = none) : l.mapM f = none := by
  induction l with
  | nil => exact absurd hx List.not_mem_nil
  | cons y l ih =>
    rw [List.mapM_cons]
    rcases List.mem_cons.mp hx with rfl | hl
    · rw [h]
      rfl
    · rw [ih hl]
      cases f y <;> rfl

end Run
