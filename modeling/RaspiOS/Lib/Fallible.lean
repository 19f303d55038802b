/-
# Computations that may fail, and loops

Taking a successful computation in `Except` apart: a bind that succeeds has two successful parts,
and a loop written as a monadic fold that succeeds has an invariant rule of its own.  Every
inversion lemma about a fallible function goes through these.  A counting loop that cannot fail is
a fold over a range, and its invariant is indexed by the counter.
-/
import Mathlib.Algebra.BigOperators.Group.List.Basic
import Mathlib.Algebra.GroupWithZero.Nat

set_option autoImplicit false

namespace Except

variable {χ α β σ : Type}

/-- **A bind succeeds exactly when both of its parts do.** -/
theorem bind_eq_ok_iff {x : Except χ α} {f : α → Except χ β} {b : β} :
    x >>= f = .ok b ↔ ∃ a, x = .ok a ∧ f a = .ok b := by
  cases x with
  | error e =>
    constructor
    · intro h; cases h
    · rintro ⟨a, h, _⟩; cases h
  | ok a =>
    constructor
    · intro h; exact ⟨a, rfl, h⟩
    · rintro ⟨a', h, hf⟩; cases h; exact hf

theorem map_eq_ok_iff {x : Except χ α} {f : α → β} {b : β} :
    x.map f = .ok b ↔ ∃ a, x = .ok a ∧ f a = b := by
  cases x with
  | error e =>
    constructor
    · intro h; cases h
    · rintro ⟨a, h, _⟩; cases h
  | ok a => simp [Except.map]

theorem pure_eq_ok_iff {a b : α} : (pure a : Except χ α) = .ok b ↔ a = b := by
  constructor
  · intro h; cases h; rfl
  · rintro rfl; rfl

/-- **The invariant rule for loops.**  What holds before a fallible loop and is kept by every round
that succeeds holds when the loop has succeeded. -/
theorem foldlM_invariant {I : σ → Prop} {f : σ → α → Except χ σ} {l : List α} {s t : σ}
    (h : l.foldlM f s = .ok t) (h0 : I s)
    (hstep : ∀ a ∈ l, ∀ s t, I s → f s a = .ok t → I t) : I t := by
  induction l generalizing s with
  | nil =>
    rw [List.foldlM_nil, pure_eq_ok_iff] at h
    exact h ▸ h0
  | cons a l ih =>
    rw [List.foldlM_cons, bind_eq_ok_iff] at h
    obtain ⟨u, hu, ht⟩ := h
    exact ih ht (hstep a (by simp) s u h0 hu) (fun b hb => hstep b (by simp [hb]))

/-- **The invariant rule for loops with a cost.**  An invariant that counts, and that each round
keeps at a cost of its own, holds in the end with the sum of the costs. -/
theorem foldlM_cost {I : Nat → σ → Prop} {c : α → Nat} {f : σ → α → Except χ σ} {l : List α} {n : Nat}
    {s t : σ} (h : l.foldlM f s = .ok t) (h0 : I n s)
    (hstep : ∀ a ∈ l, ∀ n s t, I n s → f s a = .ok t → I (n + c a) t) : I (n + (l.map c).sum) t := by
  induction l generalizing n s with
  | nil =>
    rw [List.foldlM_nil, pure_eq_ok_iff] at h
    exact h ▸ h0
  | cons a l ih =>
    rw [List.foldlM_cons, bind_eq_ok_iff] at h
    obtain ⟨u, hu, ht⟩ := h
    rw [List.map_cons, List.sum_cons, ← Nat.add_assoc]
    exact ih ht (hstep a (by simp) n s u h0 hu) (fun b hb => hstep b (by simp [hb]))

/-- **The rule for loops that cannot fail.**  Every round succeeds under the invariant, moves along a
preorder and achieves something the preorder keeps: then the loop succeeds and achieves it all. -/
theorem foldlM_total {I : σ → Prop} {R : σ → σ → Prop} {Q : α → σ → Prop}
    {f : σ → α → Except χ σ} (hrefl : ∀ s, R s s) (htrans : ∀ s t u, R s t → R t u → R s u)
    (hkeep : ∀ a s t, Q a s → R s t → Q a t) {l : List α} {s : σ} (h0 : I s)
    (hstep : ∀ a ∈ l, ∀ s, I s → ∃ t, f s a = .ok t ∧ I t ∧ R s t ∧ Q a t) :
    ∃ t, l.foldlM f s = .ok t ∧ I t ∧ R s t ∧ ∀ a ∈ l, Q a t := by
  induction l generalizing s with
  | nil => exact ⟨s, rfl, h0, hrefl s, fun a ha => absurd ha List.not_mem_nil⟩
  | cons a l ih =>
    obtain ⟨t, ht, hI, hR, hQ⟩ := hstep a (by simp) s h0
    obtain ⟨u, hu, hI', hR', hQ'⟩ := ih hI (fun b hb => hstep b (List.mem_cons_of_mem a hb))
    refine ⟨u, ?_, hI', htrans s t u hR hR', ?_⟩
    · rw [List.foldlM_cons, bind_eq_ok_iff]
      exact ⟨t, ht, hu⟩
    · intro b hb
      rcases List.mem_cons.mp hb with rfl | hb
      · exact hkeep b t u hQ hR'
      · exact hQ' b hb

/-- A loop whose rounds all leave the state alone leaves the state alone. -/
theorem foldlM_id {f : σ → α → Except χ σ} {s : σ} {l : List α} (h : ∀ a ∈ l, f s a = .ok s) :
    l.foldlM f s = .ok s := by
  induction l with
  | nil => rfl
  | cons a l ih =>
    rw [List.foldlM_cons, bind_eq_ok_iff]
    exact ⟨s, h a (by simp), ih (fun b hb => h b (by simp [hb]))⟩

end Except

namespace List

variable {σ : Type}

/-- **The invariant rule for counting loops**, from `a` on for `n` rounds. -/
theorem foldl_range'_invariant {I : Nat → σ → Prop} {f : σ → Nat → σ} {n a : Nat} {s : σ} (h0 : I a s)
    (hstep : ∀ k s, a ≤ k → k < a + n → I k s → I (k + 1) (f s k)) :
    I (a + n) ((List.range' a n).foldl f s) := by
  induction n generalizing a s with
  | zero => exact h0
  | succ n ih =>
    rw [List.range'_succ, List.foldl_cons]
    have h1 := hstep a s (Nat.le_refl a) (by omega) h0
    have hrest := ih h1 (fun k s hk hk' => hstep k s (by omega) (by omega))
    have hn : a + 1 + n = a + (n + 1) := by omega
    rwa [hn] at hrest

/-- The same rule for a loop that counts from zero. -/
theorem foldl_range_invariant {I : Nat → σ → Prop} {f : σ → Nat → σ} {n : Nat} {s : σ}
    (h0 : I 0 s) (hstep : ∀ k s, k < n → I k s → I (k + 1) (f s k)) :
    I n ((List.range n).foldl f s) := by
  have h := foldl_range'_invariant (n := n) h0 (fun k s _ hk => hstep k s (by omega))
  rwa [← List.range_eq_range', Nat.zero_add] at h

end List
