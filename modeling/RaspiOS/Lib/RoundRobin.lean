/-
# Round robin

A cursor goes round `n` places and stops at the first ready one, its own place last.  The measure
is the DISTANCE the cursor has to go: it is between one and `n`, and while a ready place waits, every
turn that goes to another place brings the cursor nearer to it (`Serves.dist_lt`).  Both halves of
fairness follow from the run lemma `dist_add_le`: a waiting place is served within `n` turns, and no
other place is served twice before it.

Which places are ready may change from turn to turn; only the place that waits has to stay ready.
-/
import Mathlib.Tactic.SplitIfs
import Mathlib.Data.Nat.Bitwise
import Mathlib.Data.List.Chain
import Mathlib.Data.Fintype.Card

set_option autoImplicit false

namespace RoundRobin

variable {n : Nat} {p q r i : Fin n}

/-- How far the cursor at `p` has to go to reach `q`: a whole round to reach `p` again. -/
def dist (p q : Fin n) : Nat := if p.val < q.val then q.val - p.val else q.val + n - p.val

/-! ## 1. Distances -/

theorem dist_pos (p q : Fin n) : 0 < dist p q := by
  unfold dist
  split <;> omega

theorem dist_le (p q : Fin n) : dist p q ≤ n := by
  unfold dist
  split <;> omega

theorem dist_right_inj (h : dist p q = dist p r) : q = r := by
  unfold dist at h
  ext
  split at h <;> split at h <;> omega

/-- The way from `p` to `i` leads over every place that is nearer. -/
theorem dist_split (h : dist p q ≤ dist p i) (hne : q ≠ i) : dist p q + dist q i = dist p i := by
  have hval : q.val ≠ i.val := fun hc => hne (Fin.ext hc)
  unfold dist at h ⊢
  split_ifs at h ⊢ <;> omega

/-! ## 2. Turns -/

/-- The cursor goes from `p` to `q`, the first ready place on its way. -/
structure Serves (ready : Fin n → Prop) (p q : Fin n) : Prop where
  served : ready q
  first : ∀ r, ready r → dist p q ≤ dist p r

/-- The cursor serves one place. -/
theorem Serves.unique {ready : Fin n → Prop} (h : Serves ready p q) (h' : Serves ready p r) :
    q = r :=
  dist_right_inj (Nat.le_antisymm (h.first r h'.served) (h'.first q h.served))

/-- The cursor leaves its place while another one is ready. -/
theorem Serves.ne {ready : Fin n → Prop} (h : Serves ready p q) (hr : ready r) (hne : r ≠ p) :
    q ≠ p := by
  rintro rfl
  have hle := h.first r hr
  have hval : r.val ≠ q.val := fun hc => hne (Fin.ext hc)
  unfold dist at hle
  split_ifs at hle <;> omega

/-- **The step lemma.**  A turn that passes a ready place over brings the cursor nearer to it. -/
theorem Serves.dist_lt {ready : Fin n → Prop} (h : Serves ready p q) (hi : ready i) (hne : q ≠ i) :
    dist q i < dist p i := by
  have hsplit := dist_split (h.first i hi) hne
  have hpos := dist_pos p q
  omega

/-! ## 3. Sequences of turns -/

variable {pos : Nat → Fin n} {ready : Nat → Fin n → Prop} {a b : Nat}

/-- The turns from `a` up to `b`, in which `i` waits: it is always ready and never served. -/
def Waits (ready : Nat → Fin n → Prop) (pos : Nat → Fin n) (i : Fin n) (a b : Nat) : Prop :=
  ∀ k, a ≤ k → k < b → Serves (ready k) (pos k) (pos (k + 1)) ∧ ready k i ∧ pos (k + 1) ≠ i

/-- **The run lemma.**  Each turn of a wait takes at least one from the distance. -/
theorem dist_add_le (hab : a ≤ b) : Waits ready pos i a b →
    dist (pos b) i + (b - a) ≤ dist (pos a) i := by
  induction b, hab using Nat.le_induction with
  | base => intro _; omega
  | succ b hab ih =>
    intro hw
    have hprev := ih fun k hak hkb => hw k hak (Nat.lt_succ_of_lt hkb)
    obtain ⟨hserves, hready, hne⟩ := hw b hab (Nat.lt_succ_self b)
    have hlt := hserves.dist_lt hready hne
    omega

/-- **No place waits for `n` turns.** -/
theorem not_waits : ¬ Waits ready pos i a (a + n) := by
  intro hw
  have hle := dist_add_le (Nat.le_add_right a n) hw
  have hpos := dist_pos (pos (a + n)) i
  have hmax := dist_le (pos a) i
  omega

/-- **While a place waits the cursor is never at the same place twice.** -/
theorem Waits.pos_ne (hw : Waits ready pos i a b) {k l : Nat} (hk : a ≤ k) (hkl : k < l)
    (hl : l ≤ b) : pos k ≠ pos l := by
  intro he
  have hle := dist_add_le (Nat.le_of_lt hkl)
    (show Waits ready pos i k l from fun m hkm hml => hw m (by omega) (by omega))
  rw [he] at hle
  omega

/-! ## 4. Records of turns -/

/-- The turn that went from `p` to `q` served `i` or brought the cursor nearer to it. -/
def Nears (i q p : Fin n) : Prop := q ≠ i → dist q i < dist p i

theorem Serves.nears {ready : Fin n → Prop} (h : Serves ready p q) (hi : ready i) : Nears i q p :=
  fun hne => h.dist_lt hi hne

/-- **A record without `i` repeats nothing**: the newest place comes first, and the distances grow
with age. -/
theorem nodup_of_nears {l : List (Fin n)} (h : l.IsChain (Nears i)) (hi : i ∉ l) : l.Nodup := by
  have hlt : l.IsChain fun q p => dist q i < dist p i :=
    h.imp_of_mem_imp fun q p hq _ hqp => hqp fun hc => hi (hc ▸ hq)
  refine (hlt.pairwise (R := fun q p => dist q i < dist p i)).imp fun hqp he => ?_
  rw [he] at hqp
  exact Nat.lt_irrefl _ hqp

/-- **A record among a few places has all of them**, when it is at least as long. -/
theorem mem_of_nears {l places : List (Fin n)} (h : l.IsChain (Nears i)) (hi : i ∈ places)
    (hl : ∀ q ∈ l, q ∈ places) (hlen : places.length ≤ l.length) : i ∈ l := by
  by_contra hn
  have hnodup : (i :: l).Nodup := List.nodup_cons.mpr ⟨hn, nodup_of_nears h hn⟩
  have hsub : i :: l ⊆ places := List.cons_subset.mpr ⟨hi, hl⟩
  have hle := (hnodup.subperm hsub).length_le
  rw [List.length_cons] at hle
  omega

/-- A record without `i` is shorter than a round. -/
theorem length_lt_of_nodup {l : List (Fin n)} (h : l.Nodup) (hi : i ∉ l) : l.length < n := by
  have hle := (List.nodup_cons.mpr ⟨hi, h⟩).length_le_card
  rwa [List.length_cons, Fintype.card_fin] at hle

end RoundRobin
