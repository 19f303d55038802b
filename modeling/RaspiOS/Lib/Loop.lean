/-
# Loops that need not end

A loop whose body may ask for one more round for ever has no recursion to go by.  It is run for a number
of rounds at most, and whoever wants its result has to say how many are enough: the rule is the usual
one of total correctness, with an invariant and a variant.
-/
import Mathlib.Tactic.Common

set_option autoImplicit false

namespace Loop

/-- What a round ends with: a state for the next one, or the result of the loop. -/
inductive Round (σ ρ : Type)
  | again (s : σ)
  | leave (r : ρ)

variable {σ ρ ε : Type}

/-- At most `n` rounds of `body`; `endless` is what is left of a loop that wants more. -/
def loop (endless : ε) (body : σ → Except ε (Round σ ρ)) : Nat → σ → Except ε ρ
  | 0, _ => .error endless
  | n + 1, s =>
    match body s with
    | .error e => .error e
    | .ok (.again t) => loop endless body n t
    | .ok (.leave r) => .ok r

variable {endless : ε} {body : σ → Except ε (Round σ ρ)} {s t : σ} {r : ρ} {n : Nat}

theorem loop_again (h : body s = .ok (.again t)) :
    loop endless body (n + 1) s = loop endless body n t := by
  simp only [loop, h]

theorem loop_leave (h : body s = .ok (.leave r)) : loop endless body (n + 1) s = .ok r := by
  simp only [loop, h]

theorem loop_fault {e : ε} (h : body s = .error e) : loop endless body (n + 1) s = .error e := by
  simp only [loop, h]

/-- **Total correctness.**  Under the invariant a round faults or leaves as it may, or it keeps the
invariant and lowers the variant: then more rounds than the variant says are enough. -/
theorem loop_total (endless : ε) {I : σ → Prop} {Q : Except ε ρ → Prop} (variant : σ → Nat)
    (hround : ∀ s, I s → (∃ e, body s = .error e ∧ Q (.error e)) ∨
      (∃ r, body s = .ok (.leave r) ∧ Q (.ok r)) ∨
      ∃ t, body s = .ok (.again t) ∧ I t ∧ variant t < variant s) :
    ∀ {n s}, I s → variant s < n → Q (loop endless body n s) := by
  intro n
  induction n with
  | zero =>
    intro s _ hn
    exact absurd hn (Nat.not_lt_zero _)
  | succ n ih =>
    intro s hs hn
    rcases hround s hs with ⟨e, he, hQ⟩ | ⟨r, hr, hQ⟩ | ⟨t, ht, hI, hlt⟩
    · rwa [loop_fault he]
    · rwa [loop_leave hr]
    · rw [loop_again ht]
      exact ih hI (by omega)

/-- **Counting up to a bound.**  A loop whose rounds go from `s i` to `s (i + w)` while there is room below
the bound leaves where there is none. -/
theorem loop_upTo (endless : ε) {s : Nat → σ} {res : Nat → ρ} {bound w : Nat} (hw : 0 < w)
    (hround : ∀ i, i ≤ bound →
      body (s i) = .ok (if i + w ≤ bound then .again (s (i + w)) else .leave (res i))) :
    ∀ {i : Nat}, i ≤ bound → ∃ j, i ≤ j ∧ j ≤ bound ∧ bound < j + w ∧
      ∀ n, bound < n → loop endless body n (s i) = .ok (res j) := by
  have hgo : ∀ i, i + w ≤ bound → body (s i) = .ok (.again (s (i + w))) := fun i hi => by
    rw [hround i (by omega), if_pos hi]
  have hstop : ∀ i, i ≤ bound → bound < i + w → body (s i) = .ok (.leave (res i)) := fun i hi hlast => by
    rw [hround i hi, if_neg (Nat.not_le_of_lt hlast)]
  have hrun : ∀ {d i : Nat}, i ≤ bound → bound - i ≤ d → ∃ j, i ≤ j ∧ j ≤ bound ∧ bound < j + w ∧
      ∀ n, d < n → loop endless body n (s i) = .ok (res j) := by
    intro d
    induction d with
    | zero =>
      intro i hi hd
      refine ⟨i, Nat.le_refl i, hi, by omega, fun n hn => ?_⟩
      obtain ⟨n, rfl⟩ := Nat.exists_eq_succ_of_ne_zero (Nat.ne_of_gt hn)
      exact loop_leave (hstop i hi (by omega))
    | succ d ih =>
      intro i hi hd
      rcases Nat.lt_or_ge bound (i + w) with hlast | hroom
      · refine ⟨i, Nat.le_refl i, hi, hlast, fun n hn => ?_⟩
        obtain ⟨n, rfl⟩ := Nat.exists_eq_succ_of_ne_zero (Nat.ne_of_gt (Nat.zero_lt_of_lt hn))
        exact loop_leave (hstop i hi hlast)
      · obtain ⟨j, hij, hj, hlast, hloop⟩ := ih hroom (by omega)
        refine ⟨j, by omega, hj, hlast, fun n hn => ?_⟩
        obtain ⟨n, rfl⟩ := Nat.exists_eq_succ_of_ne_zero (Nat.ne_of_gt (Nat.zero_lt_of_lt hn))
        exact (loop_again (hgo i hroom)).trans (hloop n (Nat.lt_of_succ_lt_succ hn))
  intro i hi
  exact hrun hi (Nat.sub_le bound i)

/-- Some rounds lead from one state to another. -/
inductive Leads (body : σ → Except ε (Round σ ρ)) : σ → σ → Prop
  | refl (s : σ) : Leads body s s
  | step {s t u : σ} : body s = .ok (.again t) → Leads body t u → Leads body s u

theorem Leads.trans {u : σ} (h : Leads body s t) (h' : Leads body t u) : Leads body s u := by
  induction h with
  | refl s => exact h'
  | step hs _ ih => exact .step hs (ih h')

/-- The loop leaves where the rounds lead. -/
theorem Leads.leaves (endless : ε) (h : Leads body s t) (hr : body t = .ok (.leave r)) :
    ∃ k, ∀ n, k ≤ n → loop endless body n s = .ok r := by
  induction h with
  | refl s =>
    refine ⟨1, fun n hn => ?_⟩
    obtain ⟨n, rfl⟩ := Nat.exists_eq_succ_of_ne_zero (Nat.ne_of_gt hn)
    exact loop_leave hr
  | step hs _ ih =>
    obtain ⟨k, hk⟩ := ih hr
    refine ⟨k + 1, fun n hn => ?_⟩
    obtain ⟨n, rfl⟩ := Nat.exists_eq_succ_of_ne_zero (Nat.ne_of_gt (Nat.zero_lt_of_lt hn))
    exact (loop_again hs).trans (hk n (Nat.le_of_succ_le_succ hn))

end Loop
