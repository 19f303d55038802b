/-
# Buffers that are filled from the front

A buffer is an array of a fixed size with what happens to be in it.  A store outside it is a fault of
its own, and so is a load.  What the loops that fill a buffer know about it is how it begins
(`Holds b l`): a store behind `l` makes `l` longer, a loop of such stores appends a whole list, and two
indices that run towards each other turn a part of it round.  A program that writes a list does so where
it fits and faults where it does not (`Writes`): both follow from what its steps write.
-/
import Mathlib.Data.List.Induction
import RaspiOS.Lib.Fallible
import RaspiOS.Lib.Loop

set_option autoImplicit false

namespace Buffer

open Loop

variable {α ε : Type} {n : Nat}

/-- `b[i] = x` -/
def store (oops : ε) (b : Vector α n) (i : Nat) (x : α) : Except ε (Vector α n) :=
  if h : i < n then .ok (b.set i x h) else .error oops

/-- `b[i]` -/
def load (oops : ε) (b : Vector α n) (i : Nat) : Except ε α :=
  if h : i < n then .ok (b[i]) else .error oops

/-- `for (i = lo; i < hi; i++) b[i] = f(i);` -/
def fill (oops : ε) (b : Vector α n) (lo hi : Nat) (f : Nat → Except ε α) :
    Except ε (Vector α n) :=
  (List.range' lo (hi - lo)).foldlM (fun b i => f i >>= store oops b i) b

/-- `while (j > i) { t = b[i]; b[i] = b[j]; b[j] = t; i++; j--; }` -/
def reverse (oops endless : ε) : Nat → Vector α n × Nat × Nat → Except ε (Vector α n) :=
  loop endless fun (b, i, j) =>
    if j > i then do
      let x ← load oops b i
      let y ← load oops b j
      let b ← store oops b i y
      let b ← store oops b j x
      return .again (b, i + 1, j - 1)
    else return .leave b

/-! ## 1. How a buffer begins -/

/-- The buffer begins with `l`. -/
def Holds (b : Vector α n) (l : List α) : Prop := l <+: b.toList

variable {b : Vector α n} {l r : List α} {x y : α}

theorem holds_nil (b : Vector α n) : Holds b [] := List.nil_prefix

theorem Holds.length_le (h : Holds b l) : l.length ≤ n := by
  have hle := List.IsPrefix.length_le h
  rwa [Vector.length_toList] at hle

theorem Holds.take (h : Holds b l) : b.toList.take l.length = l :=
  (List.prefix_iff_eq_take.mp h).symm

theorem Holds.of_append (h : Holds b (l ++ r)) : Holds b l :=
  (List.prefix_append l r).trans h

/-- A load of what is known. -/
theorem Holds.load (oops : ε) (h : Holds b (l ++ x :: r)) : load oops b l.length = .ok x := by
  have hlt : l.length < n := by
    have hle := h.length_le
    rw [List.length_append, List.length_cons] at hle
    omega
  obtain ⟨t, ht⟩ := h
  have hget : b[l.length] = x := by
    have hsome : b.toList[l.length]? = some x := by
      rw [← ht, List.append_assoc, List.getElem?_append_right (Nat.le_refl _), Nat.sub_self,
        List.cons_append, List.getElem?_cons_zero]
    rw [← Vector.getElem_toList (by rwa [Vector.length_toList])]
    exact (List.getElem?_eq_some_iff.mp hsome).2
  rw [Buffer.load, dif_pos hlt, hget]

/-- A store over what is known. -/
theorem Holds.store (oops : ε) (h : Holds b (l ++ x :: r)) (y : α) :
    ∃ b', store oops b l.length y = .ok b' ∧ Holds b' (l ++ y :: r) := by
  have hlt : l.length < n := by
    have hle := h.length_le
    rw [List.length_append, List.length_cons] at hle
    omega
  obtain ⟨t, ht⟩ := h
  refine ⟨_, dif_pos hlt, t, ?_⟩
  rw [Vector.toList_set, ← ht, List.append_assoc, List.append_assoc,
    List.set_append_right _ _ (Nat.le_refl _), Nat.sub_self]
  rfl

/-! ## 2. Writing a list, or not finding room for it -/

/-- What `r` writes at the front is `l`, and `g` is what it returns with the buffer.  Where `l` is longer
than the buffer it is the fault. -/
structure Writes {ρ : Type} (oops : ε) (r : Except ε ρ) (g : Vector α n → ρ) (l : List α) : Prop where
  fits : l.length ≤ n → ∃ b, r = .ok (g b) ∧ Holds b l
  faults : n < l.length → r = .error oops

variable {ρ σ : Type} {oops : ε}

theorem Holds.writes (oops : ε) (h : Holds b l) (g : Vector α n → ρ) : Writes oops (.ok (g b)) g l :=
  ⟨fun _ => ⟨b, rfl, h⟩, fun hlt => absurd h.length_le (Nat.not_le_of_lt hlt)⟩

/-- **One after the other.**  What is written in the end may differ from what the first one wrote, but it
is not shorter: where the first finds no room, neither does the whole. -/
theorem Writes.bind {r : Except ε ρ} {g : Vector α n → ρ} {k : ρ → Except ε σ} {g' : Vector α n → σ}
    {l' : List α} (h : Writes oops r g l) (hle : l.length ≤ l'.length)
    (hk : ∀ b, Holds b l → Writes oops (k (g b)) g' l') : Writes oops (r >>= k) g' l' := by
  have hok : l.length ≤ n → Writes oops (r >>= k) g' l' := fun hfit => by
    obtain ⟨b, rfl, hb⟩ := h.fits hfit
    exact hk b hb
  refine ⟨fun hfit => (hok (Nat.le_trans hle hfit)).fits hfit, fun hlt => ?_⟩
  rcases Nat.lt_or_ge n l.length with hn | hn
  · rw [h.faults hn]
    rfl
  · exact (hok hn).faults hlt

/-- **A store behind what is known.** -/
theorem Holds.store_next (oops : ε) (h : Holds b l) (x : α) :
    Writes oops (Buffer.store oops b l.length x) (fun b => b) (l ++ [x]) := by
  have hlen : (l ++ [x]).length = l.length + 1 := by simp
  refine ⟨fun hfit => ?_, fun hlt => dif_neg (by omega)⟩
  obtain ⟨t, ht⟩ := h
  cases t with
  | nil =>
    have hfull := congrArg List.length ht
    rw [List.append_nil, Vector.length_toList] at hfull
    omega
  | cons y t =>
    have hy : Holds b (l ++ y :: []) := ⟨t, by rw [← ht, List.append_assoc]; rfl⟩
    exact hy.store oops x

/-! ## 3. The loops -/

/-- **A loop of stores appends** the list of what it stores. -/
theorem Holds.fill (oops : ε) {f : Nat → Except ε α} : ∀ {r : List α} {l : List α} {b : Vector α n},
    Holds b l → (∀ (k : Nat) (x : α), r[k]? = some x → f (l.length + k) = .ok x) →
      Writes oops (Buffer.fill oops b l.length (l.length + r.length) f) (fun b => b) (l ++ r) := by
  intro r
  induction r with
  | nil =>
    intro l b h _
    rw [Buffer.fill, List.length_nil, Nat.add_zero, Nat.sub_self, List.append_nil]
    exact h.writes oops fun b => b
  | cons x r ih =>
    intro l b h hf
    have hlen : (l ++ [x]).length = l.length + 1 := by simp
    have happ : l ++ x :: r = l ++ [x] ++ r := by rw [List.append_assoc]; rfl
    have hrest : ∀ b₁, Holds b₁ (l ++ [x]) →
        Writes oops ((List.range' (l.length + 1) r.length).foldlM
          (fun b i => f i >>= Buffer.store oops b i) b₁) (fun b => b) (l ++ x :: r) := fun b₁ h₁ => by
      have hrun := ih h₁ (fun k y hk => by
        have hstep : l.length + (k + 1) = (l ++ [x]).length + k := by omega
        exact hstep ▸ hf (k + 1) y (by rwa [List.getElem?_cons_succ]))
      rw [Buffer.fill, Nat.add_sub_cancel_left, hlen] at hrun
      rwa [happ]
    rw [Buffer.fill, Nat.add_sub_cancel_left, List.length_cons, List.range'_succ, List.foldlM_cons,
      show f l.length = .ok x from hf 0 x rfl]
    refine (h.store_next oops x).bind ?_ hrest
    rw [happ]
    exact (List.prefix_append _ _).length_le

/-- The same loop with one value. -/
theorem Holds.fill_const (oops : ε) (h : Holds b l) (x : α) {hi : Nat} (hlo : l.length ≤ hi) :
    Writes oops (Buffer.fill oops b l.length hi (fun _ => .ok x)) (fun b => b)
      (l ++ List.replicate (hi - l.length) x) := by
  have hlen : l.length + (List.replicate (hi - l.length) x).length = hi := by
    rw [List.length_replicate]
    omega
  have hrun := h.fill oops (f := fun _ => .ok x) (r := List.replicate (hi - l.length) x)
    (fun k y hk => by rw [(List.mem_replicate.mp (List.mem_of_getElem? hk)).2])
  rwa [hlen] at hrun

/-- **Turning a part round**: the indices begin at its two ends. -/
theorem Holds.reverse (oops endless : ε) : ∀ {m : List α} {l r : List α} {b : Vector α n} {k : Nat},
    Holds b (l ++ m ++ r) → m.length < k →
      ∃ b', Buffer.reverse oops endless k (b, l.length, l.length + m.length - 1) = .ok b' ∧
        Holds b' (l ++ m.reverse ++ r) := by
  intro m
  induction m using List.bidirectionalRec with
  | nil =>
    intro l r b k h hk
    obtain ⟨k, rfl⟩ := Nat.exists_eq_succ_of_ne_zero (Nat.ne_of_gt hk)
    refine ⟨b, loop_leave ?_, h⟩
    dsimp only
    rw [if_neg (by simp)]
    rfl
  | singleton x =>
    intro l r b k h hk
    obtain ⟨k, rfl⟩ := Nat.exists_eq_succ_of_ne_zero (Nat.ne_of_gt (Nat.zero_lt_of_lt hk))
    refine ⟨b, loop_leave ?_, h⟩
    dsimp only
    rw [if_neg (by simp)]
    rfl
  | cons_append x m y ih =>
    intro l r b k h hk
    obtain ⟨k, rfl⟩ := Nat.exists_eq_succ_of_ne_zero (Nat.ne_of_gt (Nat.zero_lt_of_lt hk))
    have hlen : (x :: (m ++ [y])).length = m.length + 2 := by simp
    have hend : l.length + (x :: (m ++ [y])).length - 1 = (l ++ x :: m).length := by simp
    have hx : Holds b (l ++ x :: (m ++ y :: r)) := by simpa using h
    have hy : Holds b ((l ++ x :: m) ++ y :: r) := by simpa using h
    obtain ⟨b₁, hb₁, h₁⟩ := hx.store oops y
    have h₁' : Holds b₁ ((l ++ y :: m) ++ y :: r) := by simpa using h₁
    obtain ⟨b₂, hb₂, h₂⟩ := h₁'.store oops x
    have h₂' : Holds b₂ ((l ++ [y]) ++ m ++ (x :: r)) := by simpa using h₂
    obtain ⟨b', hb', h'⟩ := ih (k := k) h₂' (by omega)
    refine ⟨b', (loop_again (t := (b₂, l.length + 1, l.length + (x :: (m ++ [y])).length - 1 - 1))
      ?_).trans ?_, by simpa using h'⟩
    · dsimp only
      rw [if_pos (by omega), hend]
      refine Except.bind_eq_ok_iff.mpr ⟨x, hx.load oops, Except.bind_eq_ok_iff.mpr ⟨y, hy.load oops, ?_⟩⟩
      refine Except.bind_eq_ok_iff.mpr ⟨b₁, hb₁, Except.bind_eq_ok_iff.mpr ⟨b₂, ?_, rfl⟩⟩
      have he : (l ++ x :: m).length = (l ++ y :: m).length := by simp
      rw [he]
      exact hb₂
    · have hi : (l ++ [y]).length = l.length + 1 := by simp
      have hj : (l ++ [y]).length + m.length - 1
          = l.length + (x :: (m ++ [y])).length - 1 - 1 := by
        rw [hi, hlen]
        omega
      rw [hj, hi] at hb'
      exact hb'

end Buffer
