/-
# A cache that may fill at any time

A machine answers look-ups from its state, and next to it stands a cache of earlier answers.
Between any two actions of the machine the cache may take up any answer of the present state; some
actions FLUSH it, and every other action leaves it alone.  The cache is coherent when all it holds is
what the state still answers.

What decides coherence is the part of a program behind its last flush: an answer of any state along
it may be in the cache at the end.  So a program without a flush keeps the cache coherent when its
actions only EXTEND the answers (`Coherent.exec`), a program with a flush needs this behind the flush
only (`coherent_of_flush`), and there the condition is exact (`safe_iff`).
-/
import Mathlib.Data.Set.Insert

set_option autoImplicit false

namespace Tlb

variable {σ α κ τ : Type}

/-- A machine: its answers, the effect of its actions, and which of them flush. -/
structure Machine (σ α κ τ : Type) where
  look : σ → κ → Option τ
  act : σ → α → σ
  Flush : α → Prop

variable (M : Machine σ α κ τ)

/-- **Executions**, with fills of the cache anywhere. -/
inductive Exec : σ → Set (κ × τ) → List α → σ → Set (κ × τ) → Prop
  | nil (s : σ) (c : Set (κ × τ)) : Exec s c [] s c
  | fill {s t : σ} {c d : Set (κ × τ)} {as : List α} {k : κ} {v : τ} :
      M.look s k = some v → Exec s (insert (k, v) c) as t d → Exec s c as t d
  | step {s t : σ} {c d : Set (κ × τ)} {as : List α} {a : α} :
      ¬ M.Flush a → Exec (M.act s a) c as t d → Exec s c (a :: as) t d
  | flush {s t : σ} {c d : Set (κ × τ)} {as : List α} {a : α} :
      M.Flush a → Exec (M.act s a) ∅ as t d → Exec s c (a :: as) t d

/-- All the cache holds is what the state answers. -/
def Coherent (s : σ) (c : Set (κ × τ)) : Prop := ∀ k v, (k, v) ∈ c → M.look s k = some v

/-- The second state answers all that the first one does. -/
def Extends (s t : σ) : Prop := ∀ k v, M.look s k = some v → M.look t k = some v

/-- The state after a list of actions. -/
def after (s : σ) (as : List α) : σ := as.foldl M.act s

/-- The actions before the next flush only extend the answers, and so on behind it. -/
def Steady : σ → List α → Prop
  | _, [] => True
  | s, a :: as => (M.Flush a ∨ Extends M s (M.act s a)) ∧ Steady (M.act s a) as

variable {M} {s t u : σ} {c d : Set (κ × τ)} {a : α} {as bs : List α} {k : κ} {v : τ}

theorem Extends.refl (s : σ) : Extends M s s := fun _ _ h => h

theorem Extends.trans (h : Extends M s t) (h' : Extends M t u) : Extends M s u :=
  fun k v hk => h' k v (h k v hk)

theorem Coherent.empty (s : σ) : Coherent M s ∅ := fun _ _ h => absurd h (Set.notMem_empty _)

theorem Coherent.insert (h : Coherent M s c) (hk : M.look s k = some v) :
    Coherent M s (insert (k, v) c) := by
  intro k' v' hm
  rcases Set.mem_insert_iff.mp hm with he | hm
  · cases he
    exact hk
  · exact h k' v' hm

theorem Coherent.mono (h : Coherent M s c) (he : Extends M s t) : Coherent M t c :=
  fun k v hm => he k v (h k v hm)

/-- An execution changes the state as its actions say. -/
theorem Exec.after_eq (h : Exec M s c as t d) : t = after M s as := by
  induction h with
  | nil => rfl
  | fill _ _ ih => exact ih
  | step _ _ ih => exact ih
  | flush _ _ ih => exact ih

/-- **Steady programs keep the cache coherent.** -/
theorem Coherent.exec (h : Exec M s c as t d) : Coherent M s c → Steady M s as →
    Coherent M t d := by
  induction h with
  | nil => exact fun hc _ => hc
  | fill hk _ ih => exact fun hc hs => ih (hc.insert hk) hs
  | step hf _ ih => exact fun hc hs => ih (hc.mono (hs.1.resolve_left hf)) hs.2
  | flush _ _ ih => exact fun _ hs => ih (Coherent.empty _) hs.2

/-- Executions of two programs, one after the other, meet in between. -/
theorem Exec.append_inv : ∀ {as : List α} {s : σ} {c : Set (κ × τ)},
    Exec M s c (as ++ bs) t d → ∃ e, Exec M s c as (after M s as) e ∧
      Exec M (after M s as) e bs t d := by
  intro as s c h
  generalize hcs : as ++ bs = cs at h
  induction h generalizing as with
  | nil s c =>
    obtain ⟨rfl, rfl⟩ := List.append_eq_nil_iff.mp hcs
    exact ⟨c, .nil s c, .nil s c⟩
  | fill hk _ ih =>
    obtain ⟨e, h1, h2⟩ := ih hcs
    exact ⟨e, .fill hk h1, h2⟩
  | @step s _ c _ cs a hf h ih =>
    rcases as with _ | ⟨a', as⟩
    · obtain rfl : bs = a :: cs := hcs
      exact ⟨c, .nil s c, .step hf h⟩
    · obtain ⟨he, hcs⟩ := List.cons.inj hcs
      obtain ⟨e, h1, h2⟩ := ih hcs
      exact ⟨e, he ▸ .step hf h1, he ▸ h2⟩
  | @flush s _ c _ cs a hf h ih =>
    rcases as with _ | ⟨a', as⟩
    · obtain rfl : bs = a :: cs := hcs
      exact ⟨c, .nil s c, .flush hf h⟩
    · obtain ⟨he, hcs⟩ := List.cons.inj hcs
      obtain ⟨e, h1, h2⟩ := ih hcs
      exact ⟨e, he ▸ .flush hf h1, he ▸ h2⟩

/-- What was in the cache before a flush is gone behind it. -/
theorem Exec.flush_inv (h : Exec M s c (a :: as) t d) (hf : M.Flush a) :
    Exec M (M.act s a) ∅ as t d := by
  generalize hcs : a :: as = cs at h
  induction h with
  | nil => cases hcs
  | fill _ _ ih => exact ih hcs
  | step hn _ => cases hcs; exact absurd hf hn
  | flush _ h => cases hcs; exact h

/-- **Behind a flush the past does not matter.** -/
theorem coherent_of_flush (h : Exec M s c (as ++ a :: bs) t d) (hf : M.Flush a)
    (hs : Steady M (M.act (after M s as) a) bs) : Coherent M t d := by
  obtain ⟨e, _, h2⟩ := h.append_inv
  exact (Coherent.empty _).exec (h2.flush_inv hf) hs

theorem Steady.append (h : Steady M s as) (h' : Steady M (after M s as) bs) :
    Steady M s (as ++ bs) := by
  induction as generalizing s with
  | nil => exact h'
  | cons a as ih => exact ⟨h.1, ih h.2 h'⟩

/-! ## The exact condition -/

/-- Without fills and flushes the cache stays. -/
theorem Exec.keep (s : σ) (c : Set (κ × τ)) (h : ∀ a ∈ as, ¬ M.Flush a) :
    Exec M s c as (after M s as) c := by
  induction as generalizing s with
  | nil => exact .nil s c
  | cons a as ih => exact .step (h a (by simp)) (ih (M.act s a) fun b hb => h b (by simp [hb]))

/-- Every execution ends coherent, whatever the cache holds before it. -/
def Safe (M : Machine σ α κ τ) (s : σ) (as : List α) : Prop :=
  ∀ c t d, Exec M s c as t d → Coherent M t d

/-- One execution after the other. -/
theorem Exec.append (h : Exec M s c as t d) : ∀ {u : σ} {e : Set (κ × τ)}, Exec M t d bs u e →
    Exec M s c (as ++ bs) u e := by
  induction h with
  | nil => exact fun h' => h'
  | fill hk _ ih => exact fun h' => .fill hk (ih h')
  | step hf _ ih => exact fun h' => .step hf (ih h')
  | flush hf _ ih => exact fun h' => .flush hf (ih h')

/-- Every program can run without a fill. -/
theorem Exec.exists_plain (as : List α) (s : σ) (c : Set (κ × τ)) :
    ∃ d, Exec M s c as (after M s as) d := by
  induction as generalizing s c with
  | nil => exact ⟨c, .nil s c⟩
  | cons a as ih =>
    by_cases hf : M.Flush a
    · obtain ⟨d, hd⟩ := ih (M.act s a) ∅
      exact ⟨d, .flush hf hd⟩
    · obtain ⟨d, hd⟩ := ih (M.act s a) c
      exact ⟨d, .step hf hd⟩

/-- What is in the cache at the end of a program without flushes was there before, or it has been
answered on the way. -/
theorem Exec.mem_inv (h : Exec M s c as t d) (hn : ∀ b ∈ as, ¬ M.Flush b) (hm : (k, v) ∈ d) :
    (k, v) ∈ c ∨ ∃ xs ys, as = xs ++ ys ∧ M.look (after M s xs) k = some v := by
  induction h with
  | nil => exact Or.inl hm
  | fill hk _ ih =>
    rcases ih hn hm with hm | hx
    · rcases Set.mem_insert_iff.mp hm with he | hm
      · cases he
        exact Or.inr ⟨[], _, rfl, hk⟩
      · exact Or.inl hm
    · exact Or.inr hx
  | @step _ _ _ _ _ a _ _ ih =>
    rcases ih (fun b hb => hn b (by simp [hb])) hm with hm | ⟨xs, ys, rfl, hk⟩
    · exact Or.inl hm
    · exact Or.inr ⟨a :: xs, ys, rfl, hk⟩
  | flush hf _ _ => exact absurd hf (hn _ (by simp))

/-- **Exactly the programs whose every answer behind the last flush is still given at the end are
safe.** -/
theorem safe_iff (hf : M.Flush a) (hb : ∀ b ∈ bs, ¬ M.Flush b) :
    Safe M s (as ++ a :: bs) ↔ ∀ xs ys, bs = xs ++ ys →
      Extends M (after M (M.act (after M s as) a) xs) (after M (M.act (after M s as) a) bs) := by
  constructor
  · rintro h xs ys rfl k v hk
    -- fill behind `xs`, and nowhere else
    obtain ⟨e, he⟩ := Exec.exists_plain (M := M) as s ∅
    have h1 := Exec.keep (M.act (after M s as) a) ∅ fun b hm => hb b (List.mem_append_left ys hm)
    have h2 := Exec.keep (after M (M.act (after M s as) a) xs) {(k, v)} fun b hm =>
      hb b (List.mem_append_right xs hm)
    have h3 := h ∅ _ _ (he.append (.flush hf (h1.append (.fill hk (by simpa using h2)))))
    rw [after, List.foldl_append]
    exact h3 k v rfl
  · intro h c t d hex k v hm
    obtain ⟨e, _, hex⟩ := hex.append_inv
    have hex := hex.flush_inv hf
    rw [hex.after_eq]
    rcases hex.mem_inv hb hm with hm | ⟨xs, ys, he, hk⟩
    · exact absurd hm (Set.notMem_empty _)
    · exact h xs ys he k v hk

end Tlb
