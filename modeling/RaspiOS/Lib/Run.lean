/-
# Runs of a labelled partial step function

A system is a step function on states and events that may refuse an event.  A run records the
events it took, so that a statement can count them or single one out, and it is taken under a
GUARD: a condition on the state before the step and on the event.  A theorem about every run
whose steps all meet a condition is then a theorem about `Run step guard`, and the condition
can be weakened or strengthened with `Run.mono` without touching the run.
-/
import Mathlib.Data.List.Induction

set_option autoImplicit false

variable {σ ε χ : Type}

/-- Runs of `step` whose steps all meet the guard, with the events taken, oldest first. -/
inductive Run (step : σ → ε → Except χ σ) (guard : σ → ε → Prop) (s : σ) : List ε → σ → Prop
  | nil : Run step guard s [] s
  | snoc {es : List ε} {t u : σ} {e : ε} :
      Run step guard s es t → guard t e → step t e = .ok u → Run step guard s (es ++ [e]) u

namespace Run

variable {step : σ → ε → Except χ σ} {guard guard' : σ → ε → Prop} {s t u : σ} {es fs : List ε}

/-- A run under a guard is a run under every guard that is weaker for the events taken. -/
theorem mono_of_mem (h : Run step guard s es t) :
    (∀ t e, e ∈ es → guard t e → guard' t e) → Run step guard' s es t := by
  induction h with
  | nil => exact fun _ => .nil
  | snoc _ hgt hst ih =>
    intro hg
    refine (ih fun t e he => hg t e ?_).snoc (hg _ _ ?_ hgt) hst
    · exact List.mem_append_left _ he
    · exact List.mem_append_right _ (List.mem_singleton.mpr rfl)

/-- A run under a guard is a run under every weaker one. -/
theorem mono (h : Run step guard s es t) (hg : ∀ t e, guard t e → guard' t e) :
    Run step guard' s es t :=
  h.mono_of_mem fun t e _ => hg t e

/-- A run under a guard is a run. -/
theorem unguarded (h : Run step guard s es t) : Run step (fun _ _ => True) s es t :=
  h.mono fun _ _ _ => trivial

/-- Runs compose. -/
theorem append (h : Run step guard s es t) (h' : Run step guard t fs u) :
    Run step guard s (es ++ fs) u := by
  induction h' with
  | nil => rwa [List.append_nil]
  | snoc _ hg hst ih =>
    rw [← List.append_assoc]
    exact ih.snoc hg hst

/-- One more step, with the event given. -/
theorem andThen (h : Run step guard s es t) (e : ε) (hst : step t e = .ok u) (hg : guard t e) :
    Run step guard s (es ++ [e]) u :=
  h.snoc hg hst

/-- A run that takes no event stays where it is. -/
theorem eq_of_nil (h : Run step guard s [] t) : t = s := by
  generalize hes : ([] : List ε) = es at h
  cases h with
  | nil => rfl
  | snoc _ _ _ => exact absurd (congrArg List.length hes) (by simp)

/-- The last step of a run. -/
theorem last {e : ε} (h : Run step guard s (es ++ [e]) u) :
    ∃ t, Run step guard s es t ∧ guard t e ∧ step t e = .ok u := by
  generalize hes : es ++ [e] = fs at h
  cases h with
  | nil => exact absurd (congrArg List.length hes) (by simp)
  | snoc hr hg hst =>
    obtain ⟨rfl, he⟩ := List.append_inj' hes rfl
    cases he
    exact ⟨_, hr, hg, hst⟩

/-- A run takes its first events first. -/
theorem split : Run step guard s (es ++ fs) u →
    ∃ t, Run step guard s es t ∧ Run step guard t fs u := by
  induction fs using List.reverseRecOn generalizing u with
  | nil =>
    rw [List.append_nil]
    exact fun h => ⟨u, h, .nil⟩
  | append_singleton fs e ih =>
    rw [← List.append_assoc]
    intro h
    obtain ⟨v, hr, hg, hst⟩ := h.last
    obtain ⟨t, hes, hfs⟩ := ih hr
    exact ⟨t, hes, hfs.snoc hg hst⟩

/-- One step is a run. -/
theorem single {e : ε} (hg : guard s e) (hst : step s e = .ok t) : Run step guard s [e] t :=
  Run.nil.snoc hg hst

/-- **The invariant rule.**  What holds at the start and is kept by every guarded step holds in
every state a run reaches. -/
theorem invariant {I : σ → Prop} (h : Run step guard s es t) (h0 : I s)
    (hstep : ∀ t e u, I t → guard t e → step t e = .ok u → I u) : I t := by
  induction h with
  | nil => exact h0
  | snoc _ hg hst ih => exact hstep _ _ _ ih hg hst

/-- The invariant rule for a property that also reads the events taken so far. -/
theorem invariantEvents {I : List ε → σ → Prop} (h : Run step guard s es t) (h0 : I [] s)
    (hstep : ∀ es t e u, I es t → guard t e → step t e = .ok u → I (es ++ [e]) u) : I es t := by
  induction h with
  | nil => exact h0
  | snoc _ hg hst ih => exact hstep _ _ _ _ ih hg hst

/-- A run meets every guard that an invariant of its steps provides. -/
theorem mono_of_invariant {I : σ → Prop} (h : Run step guard s es t) (h0 : I s) :
    (∀ t e u, e ∈ es → I t → guard t e → step t e = .ok u → I u ∧ guard' t e) →
      Run step guard' s es t ∧ I t := by
  induction h with
  | nil => exact fun _ => ⟨.nil, h0⟩
  | snoc _ hgt hst ih =>
    intro hg
    obtain ⟨hr, hI⟩ := ih fun t e u he => hg t e u (List.mem_append_left _ he)
    obtain ⟨hI', hgt'⟩ := hg _ _ _ (List.mem_append_right _ (List.mem_singleton.mpr rfl)) hI hgt hst
    exact ⟨hr.snoc hgt' hst, hI'⟩

/-! ### History variables

A condition on the past of a run is a condition on a variable that no step reads and every step
updates from its event and the states before and after it. -/

/-- The system that carries a history variable along. -/
def recording {γ : Type} (step : σ → ε → Except χ σ) (update : σ → ε → σ → γ → γ) (x : σ × γ)
    (e : ε) : Except χ (σ × γ) :=
  (step x.1 e).map fun s' => (s', update x.1 e s' x.2)

theorem recording_inv {γ : Type} {update : σ → ε → σ → γ → γ} {x y : σ × γ} {e : ε}
    (h : recording step update x e = .ok y) :
    ∃ t, step x.1 e = .ok t ∧ y = (t, update x.1 e t x.2) := by
  simp only [recording] at h
  cases hs : step x.1 e with
  | error c => rw [hs] at h; cases h
  | ok t => rw [hs] at h; cases h; exact ⟨t, rfl, rfl⟩

/-- A step is recorded with its update. -/
theorem recording_ok {γ : Type} (update : σ → ε → σ → γ → γ) (g : γ) {e : ε}
    (h : step s e = .ok t) : recording step update (s, g) e = .ok (t, update s e t g) := by
  simp only [recording, h]
  rfl

/-- A recorded run is a run. -/
theorem forget {γ : Type} {update : σ → ε → σ → γ → γ} {guard : σ × γ → ε → Prop} {x y : σ × γ}
    (h : Run (recording step update) guard x es y) (hg : ∀ x e, guard x e → guard' x.1 e) :
    Run step guard' x.1 es y.1 := by
  induction h with
  | nil => exact .nil
  | snoc _ hgt hst ih =>
    obtain ⟨t, hs, rfl⟩ := recording_inv hst
    exact ih.snoc (hg _ _ hgt) hs

/-- **The invariant rule with a history.** -/
theorem invariantRecorded {γ : Type} {update : σ → ε → σ → γ → γ} {guard : σ × γ → ε → Prop}
    {x y : σ × γ} {I : σ → γ → Prop} (h : Run (recording step update) guard x es y)
    (h0 : I x.1 x.2)
    (hstep : ∀ s g e s', I s g → guard (s, g) e → step s e = .ok s' → I s' (update s e s' g)) :
    I y.1 y.2 := by
  induction h with
  | nil => exact h0
  | @snoc _ t u e _ hg hst ih =>
    obtain ⟨s', hs, rfl⟩ := recording_inv hst
    exact hstep t.1 t.2 e s' ih hg hs

/-- Every run is recorded. -/
theorem recorded {γ : Type} (h : Run step guard s es t) (update : σ → ε → σ → γ → γ) (g : γ) :
    ∃ g', Run (recording step update) (fun x e => guard x.1 e) (s, g) es (t, g') := by
  induction h with
  | nil => exact ⟨g, .nil⟩
  | @snoc es t u e _ hg hst ih =>
    obtain ⟨g', hr⟩ := ih
    exact ⟨update t e u g', hr.snoc hg (recording_ok update g' hst)⟩

end Run
