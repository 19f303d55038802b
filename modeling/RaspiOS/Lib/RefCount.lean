/-
# Counting the references a table of slots makes

A finite set of slots, each empty or naming one target.  `refs` counts the slots that name a
target; a reference counter kept beside the table is right when it equals `refs`.  The lemmas say
what filling, emptying or leaving a slot does to every count, and that a target nobody names has
count zero.
-/
import Mathlib.Data.Finset.Card
import Mathlib.Data.Finset.Filter
import Mathlib.Data.Finset.Basic

set_option autoImplicit false

namespace RefCount

variable {α τ : Type} [DecidableEq τ]

/-- The number of slots in `A` that name `g`. -/
def refs (A : Finset α) (m : α → Option τ) (g : τ) : Nat := (A.filter (fun a => m a = some g)).card

/-- The count depends only on the slots counted. -/
theorem refs_congr {A : Finset α} {m m' : α → Option τ} (h : ∀ a ∈ A, m' a = m a) (g : τ) :
    refs A m' g = refs A m g := by
  unfold refs
  congr 1
  refine Finset.filter_congr ?_
  intro a ha
  rw [h a ha]

/-- Nobody names `g` exactly when its count is zero. -/
theorem refs_eq_zero_iff {A : Finset α} {m : α → Option τ} {g : τ} :
    refs A m g = 0 ↔ ∀ a ∈ A, m a ≠ some g := by
  unfold refs
  rw [Finset.card_eq_zero, Finset.filter_eq_empty_iff]

/-- A slot that names `g` makes its count positive. -/
theorem refs_pos {A : Finset α} {m : α → Option τ} {g : τ} {a : α} (ha : a ∈ A)
    (h : m a = some g) : 0 < refs A m g := by
  refine Nat.pos_of_ne_zero ?_
  intro h0
  exact refs_eq_zero_iff.mp h0 a ha h

variable [DecidableEq α]

/-- Filling an empty slot adds one reference to its new target and none elsewhere. -/
theorem refs_fill {A : Finset α} {m m' : α → Option τ} {a : α} {g : τ} (ha : a ∈ A)
    (hm : m a = none) (hm' : m' a = some g) (hoff : ∀ b, b ≠ a → m' b = m b) (k : τ) :
    refs A m' k = refs A m k + if k = g then 1 else 0 := by
  have hb : ∀ b, m' b = some k ↔ (b = a ∧ k = g) ∨ m b = some k := by
    intro b
    by_cases hba : b = a
    · subst hba
      simp [hm, hm', eq_comm]
    · simp [hoff b hba, hba]
  unfold refs
  by_cases hk : k = g
  · subst hk
    have hset : A.filter (fun b => m' b = some k) = insert a (A.filter (fun b => m b = some k)) := by
      ext b
      simp only [Finset.mem_filter, Finset.mem_insert, hb, and_true]
      constructor
      · rintro ⟨h1, h2 | h2⟩
        · exact Or.inl h2
        · exact Or.inr ⟨h1, h2⟩
      · rintro (rfl | ⟨h1, h2⟩)
        · exact ⟨ha, Or.inl rfl⟩
        · exact ⟨h1, Or.inr h2⟩
    rw [hset, Finset.card_insert_of_notMem (by simp [hm]), if_pos rfl]
  · rw [if_neg hk, Nat.add_zero]
    congr 1
    ext b
    simp [hb, hk]

/-- Emptying a slot takes one reference from its old target and none elsewhere. -/
theorem refs_clear {A : Finset α} {m m' : α → Option τ} {a : α} {g : τ} (ha : a ∈ A)
    (hm : m a = some g) (hm' : m' a = none) (hoff : ∀ b, b ≠ a → m' b = m b) (k : τ) :
    refs A m' k + (if k = g then 1 else 0) = refs A m k :=
  (refs_fill ha hm' hm (fun b hb => (hoff b hb).symm) k).symm

end RefCount
