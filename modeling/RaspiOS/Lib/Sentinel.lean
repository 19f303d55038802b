/-
# Texts that end with a sentinel

A text is stored without its length: a sentinel that does not occur in it stands behind its last
character, and what stands behind the sentinel must not be read.  A reader holds an index.  `At s i l`
says that `l` is what is left of the text from index `i` on, and the lemmas about it let a scanner be
followed by the list alone: one for the read at the end, one for a read before it, and one for the loop
that passes over the characters of a kind.
-/
import RaspiOS.Lib.Loop

set_option autoImplicit false

namespace Sentinel

open Loop

variable {α β ε : Type} {z : α}

/-- A text in which the sentinel does not occur. -/
structure Text (z : α) where
  chars : List α
  free : z ∉ chars

namespace Text

/-- The character at index `i`: the sentinel stands behind the last one, and nothing behind it. -/
def peek (oops : ε) (s : Text z) (i : Nat) : Except ε α :=
  match (s.chars ++ [z])[i]? with
  | some c => .ok c
  | none => .error oops

/-- `while (p(c = *i)) { b = f(b, c); i++; }` -/
def scan (oops endless : ε) (s : Text z) (p : α → Bool) (f : β → α → β) : Nat → β × Nat →
    Except ε (β × Nat) :=
  loop endless fun st =>
    match s.peek oops st.2 with
    | .error e => .error e
    | .ok c => .ok (if p c then .again (f st.1 c, st.2 + 1) else .leave st)

/-! ## 1. What is left of a text -/

/-- From index `i` on, `l` is left. -/
structure At (s : Text z) (i : Nat) (l : List α) : Prop where
  le : i ≤ s.chars.length
  drop : s.chars.drop i = l

variable {s : Text z} {i : Nat} {c : α} {l : List α}

theorem peek_of_getElem? (oops : ε) (h : s.chars[i]? = some c) : s.peek oops i = .ok c := by
  rw [peek, List.getElem?_append_left (List.getElem?_eq_some_iff.mp h).1, h]

theorem at_start (s : Text z) : s.At 0 s.chars := ⟨Nat.zero_le _, rfl⟩

/-- Before the end the character is read, it is no sentinel, and the index can go on. -/
theorem At.cons (oops : ε) (h : s.At i (c :: l)) : s.peek oops i = .ok c ∧ c ≠ z ∧ s.At (i + 1) l := by
  have hlt : i < s.chars.length := by
    have hlen := congrArg List.length h.drop
    rw [List.length_drop, List.length_cons] at hlen
    omega
  have hget : s.chars[i]? = some c := by
    rw [← List.head?_drop, h.drop, List.head?_cons]
  refine ⟨peek_of_getElem? oops hget, ?_, hlt, ?_⟩
  · rintro rfl
    exact s.free (List.mem_of_getElem? hget)
  · rw [← List.drop_drop, h.drop, List.drop_one, List.tail_cons]

/-- At the end the sentinel is read. -/
theorem At.nil (oops : ε) (h : s.At i []) : s.peek oops i = .ok z := by
  have hi : i = s.chars.length := Nat.le_antisymm h.le (List.drop_eq_nil_iff.mp h.drop)
  rw [peek, hi, List.getElem?_append_right (Nat.le_refl _), Nat.sub_self]
  rfl

theorem At.length (h : s.At i l) : i + l.length = s.chars.length := by
  have hlen := congrArg List.length h.drop
  have hle := h.le
  rw [List.length_drop] at hlen
  omega

/-! ## 2. Scanning -/

/-- **The scanning loop** takes the characters of the kind, in order, and reads no further than the one
that ends them. -/
theorem At.scan (oops endless : ε) {p : α → Bool} {f : β → α → β} (hp : p z = false) :
    ∀ {l : List α} {n i : Nat} {b : β}, s.At i l → l.length < n →
      s.scan oops endless p f n (b, i)
        = .ok ((l.takeWhile p).foldl f b, i + (l.takeWhile p).length) ∧
      s.At (i + (l.takeWhile p).length) (l.dropWhile p) := by
  intro l
  induction l with
  | nil =>
    intro n i b h hn
    obtain ⟨n, rfl⟩ := Nat.exists_eq_succ_of_ne_zero (Nat.ne_of_gt hn)
    refine ⟨loop_leave ?_, h⟩
    simp only [h.nil oops, hp]
    rfl
  | cons c l ih =>
    intro n i b h hn
    obtain ⟨n, rfl⟩ := Nat.exists_eq_succ_of_ne_zero (Nat.ne_of_gt (Nat.zero_lt_of_lt hn))
    obtain ⟨hread, -, hnext⟩ := h.cons oops
    rcases Bool.eq_false_or_eq_true (p c) with hc | hc
    · rw [List.takeWhile_cons_of_pos hc, List.dropWhile_cons_of_pos hc]
      have hgo : s.scan oops endless p f (n + 1) (b, i) = s.scan oops endless p f n (f b c, i + 1) :=
        loop_again (by simp only [hread, hc, if_true])
      have hi : i + (c :: l.takeWhile p).length = i + 1 + (l.takeWhile p).length := by
        rw [List.length_cons]
        omega
      rw [hgo, hi]
      exact ih hnext (by rw [List.length_cons] at hn; omega)
    · rw [List.takeWhile_cons_of_neg (by simp [hc]), List.dropWhile_cons_of_neg (by simp [hc])]
      refine ⟨loop_leave ?_, h⟩
      simp only [hread, hc]
      rfl

theorem At.free (h : s.At i l) : z ∉ l := fun hz => s.free (List.mem_of_mem_drop (h.drop ▸ hz))

/-- Inside the text a test for the sentinel makes no difference. -/
theorem span_test [DecidableEq α] {q : α → Bool} (hz : z ∉ l) :
    l.takeWhile (fun c => c ≠ z && q c) = l.takeWhile q ∧
      l.dropWhile (fun c => c ≠ z && q c) = l.dropWhile q := by
  induction l with
  | nil => exact ⟨rfl, rfl⟩
  | cons c l ih =>
    have hne : c ≠ z := by
      rintro rfl
      exact hz List.mem_cons_self
    have hc : (decide (c ≠ z) && q c) = q c := by rw [decide_eq_true hne, Bool.true_and]
    obtain ⟨htake, hdrop⟩ := ih (fun hm => hz (List.mem_cons_of_mem c hm))
    rw [List.takeWhile_cons, List.takeWhile_cons, List.dropWhile_cons, List.dropWhile_cons, hc, htake,
      hdrop]
    exact ⟨rfl, rfl⟩

end Text

end Sentinel
