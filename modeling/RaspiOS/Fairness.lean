/-
# Round-robin scheduling

The loop of `sched_yield` looks at the slots after the one it chose last, in cyclic order, until one
is `RUNNABLE`; `pos` survives in a static variable that starts at `-1`.  The loop runs for as long as
no slot is `RUNNABLE`, so a call returns exactly when there is one, however many rounds it is given
(`schedLoop_iff`), and it chooses what round robin chooses (`schedLoop_serves`).

A sequence of calls is given by the states in which they enter.  Between two calls everything may
change but `pos`, which nothing else writes.  Fairness (`sched_yield_fair`) is then the library's run
lemma at the places of the cursor.
-/
import Mathlib.Data.ENat.Basic
import RaspiOS.Lib.RoundRobin
import RaspiOS.Progress

set_option autoImplicit false

namespace RaspiOS

open RoundRobin (Serves)

namespace Kernel

variable {s t : Kernel} {e i : Slot}

/-! ## 1. One call -/

/-- `env_status` of a slot is `ENV_RUNNABLE`. -/
def Runnable (s : Kernel) (e : Slot) : Prop := (s.envs e).envStatus = .runnable

/-- The slot the cursor stands at.  At first it stands before slot zero, that is at the last one. -/
def cursor (pos : Int) : Slot := posSlot ((pos + nenv) % nenv)

theorem val_posSlot {pos : Int} (hlo : 0 ≤ pos) (hhi : pos < nenv) :
    ((posSlot pos).val : Int) = pos := by
  have hn : (nenv : Int) = 1024 := by decide
  simp only [posSlot, Fin.ofNat]
  omega

/-- The slots the loop looks at, by the number of rounds before them. -/
def lookedAt (pos : Int) (d : Nat) : Slot := posSlot ((pos + 1 + d) % nenv)

theorem val_lookedAt (pos : Int) (d : Nat) :
    ((lookedAt pos d).val : Int) = (pos + 1 + d) % nenv :=
  val_posSlot (Int.emod_nonneg _ (by decide)) (Int.emod_lt_of_pos _ (by decide))

/-- The slot of round `d` is at distance `d + 1`. -/
theorem dist_lookedAt (pos : Int) {d : Nat} (hd : d < nenv) :
    RoundRobin.dist (cursor pos) (lookedAt pos d) = d + 1 := by
  have hn : (nenv : Int) = 1024 := by decide
  have hd' : d < 1024 := hd
  have hc : ((cursor pos).val : Int) = (pos + nenv) % nenv :=
    val_posSlot (Int.emod_nonneg _ (by decide)) (Int.emod_lt_of_pos _ (by decide))
  have hl := val_lookedAt pos d
  rw [hn] at hc hl
  unfold RoundRobin.dist
  split_ifs <;> omega

/-- Every slot is looked at in the first `NENV` rounds. -/
theorem exists_lookedAt (pos : Int) (e : Slot) : ∃ d < nenv, lookedAt pos d = e := by
  have hpos := RoundRobin.dist_pos (cursor pos) e
  have hle := RoundRobin.dist_le (cursor pos) e
  have hlt : RoundRobin.dist (cursor pos) e - 1 < nenv := by
    change RoundRobin.dist (cursor pos) e - 1 < 1024
    omega
  refine ⟨RoundRobin.dist (cursor pos) e - 1, hlt, RoundRobin.dist_right_inj (p := cursor pos) ?_⟩
  rw [dist_lookedAt pos hlt]
  omega

/-- The next round looks at the next slot. -/
theorem lookedAt_succ (pos : Int) (d : Nat) :
    lookedAt ((pos + 1) % nenv) d = lookedAt pos (d + 1) := by
  unfold lookedAt
  have hmod : ((pos + 1) % (nenv : Int) + 1 + d) % nenv
      = (pos + 1 + ((d + 1 : Nat) : Int)) % nenv := by
    rw [Int.add_assoc, Int.emod_add_emod]
    congr 1
    omega
  rw [hmod]

/-- **What the loop does**, with any number of rounds. -/
theorem schedLoop_first {fuel : Nat} {s t : Kernel} (h : schedLoop fuel s = .ok t) :
    ∃ d, s.Runnable (lookedAt s.pos d) ∧ (∀ k < d, ¬ s.Runnable (lookedAt s.pos k)) ∧
      t = { s with pos := (lookedAt s.pos d).val }.envRun (lookedAt s.pos d) := by
  induction fuel generalizing s with
  | zero => cases h
  | succ fuel ih =>
    have hzero : lookedAt s.pos 0 = posSlot ((s.pos + 1) % nenv) := by
      rw [lookedAt, Int.natCast_zero, Int.add_zero]
    simp only [schedLoop] at h
    split at h
    · rename_i hr
      cases h
      refine ⟨0, hzero ▸ hr, fun k hk => absurd hk (Nat.not_lt_zero k), ?_⟩
      rw [val_lookedAt, Int.natCast_zero, Int.add_zero, ← hzero]
    · rename_i hr
      obtain ⟨d, hd, hfirst, rfl⟩ := ih h
      simp only [lookedAt_succ] at hd hfirst ⊢
      refine ⟨d + 1, hd, ?_, rfl⟩
      rintro (_ | k) hk
      · rw [hzero]
        exact hr
      · exact hfirst k (by omega)

/-- **The loop chooses what round robin chooses.** -/
theorem schedLoop_serves {fuel : Nat} (h : schedLoop fuel s = .ok t) :
    ∃ e, Serves s.Runnable (cursor s.pos) e ∧ t = { s with pos := (e.val : Int) }.envRun e := by
  obtain ⟨d, hd, hfirst, ht⟩ := schedLoop_first h
  have hreach : ∀ r, s.Runnable r →
      RoundRobin.dist (cursor s.pos) (lookedAt s.pos d) ≤ RoundRobin.dist (cursor s.pos) r := by
    intro r hr
    obtain ⟨k, hk, rfl⟩ := exists_lookedAt s.pos r
    have hdk : d ≤ k := by
      by_contra hlt
      exact hfirst k (by omega) hr
    rw [dist_lookedAt s.pos hk, dist_lookedAt s.pos (by omega)]
    omega
  exact ⟨lookedAt s.pos d, ⟨hd, hreach⟩, ht⟩

/-- **A call returns exactly when some slot can run.** -/
theorem schedLoop_iff : (∃ fuel t, schedLoop fuel s = .ok t) ↔ ∃ e, s.Runnable e := by
  constructor
  · rintro ⟨fuel, t, h⟩
    obtain ⟨e, he, _⟩ := schedLoop_serves h
    exact ⟨e, he.served⟩
  · rintro ⟨e, he⟩
    obtain ⟨t, ht⟩ := schedYield_total he
    exact ⟨nenv, t, ht⟩

/-- More rounds change nothing. -/
theorem schedLoop_eq {fuel : Nat} (h : schedLoop fuel s = .ok t) : s.schedYield = .ok t := by
  obtain ⟨e, he, rfl⟩ := schedLoop_serves h
  obtain ⟨t', ht'⟩ := schedYield_total he.served
  obtain ⟨e', he', rfl⟩ := schedLoop_serves ht'
  rw [ht', he.unique he']

/-! ## 2. Sequences of calls -/

/-- A sequence of `N` calls of `sched_yield`, or of infinitely many, by the states in which they
enter.  A call is followed by another one only if it returns. -/
structure SchedCalls (N : ℕ∞) (s : Nat → Kernel) : Prop where
  start_lo : -1 ≤ (s 0).pos
  start_hi : (s 0).pos < nenv
  next : ∀ k : Nat, ((k + 1 : Nat) : ℕ∞) < N →
    ∃ t, (s k).schedYield = .ok t ∧ (s (k + 1)).pos = t.pos

/-- The call that enters in `s` chooses `e`. -/
def Chooses (s : Kernel) (e : Slot) : Prop := ∃ t, s.schedYield = .ok t ∧ t.curenv = some e

theorem Chooses.serves (h : s.Chooses e) : Serves s.Runnable (cursor s.pos) e := by
  obtain ⟨t, ht, hc⟩ := h
  obtain ⟨e', he', rfl⟩ := schedLoop_serves ht
  rw [curenv_envRun] at hc
  cases hc
  exact he'

/-- The places of the cursor, before the first call and after each call. -/
def places (s : Nat → Kernel) : Nat → Slot
  | 0 => cursor (s 0).pos
  | k + 1 => match (s k).schedYield with
    | .ok t => cursor t.pos
    | .error _ => 0

theorem places_succ {s : Nat → Kernel} {k : Nat} (h : (s k).Chooses e) :
    places s (k + 1) = e := by
  obtain ⟨t, ht, hc⟩ := h
  obtain ⟨e', _, rfl⟩ := schedLoop_serves ht
  rw [curenv_envRun] at hc
  cases hc
  have he := e.isLt
  have hn : (nenv : Int) = 1024 := by decide
  have hval : ((posSlot (((e.val : Int) + nenv) % nenv)).val : Int) = ((e.val : Int) + nenv) % nenv :=
    val_posSlot (Int.emod_nonneg _ (by decide)) (Int.emod_lt_of_pos _ (by decide))
  simp only [places, ht, pos_envRun, cursor]
  rw [hn] at hval ⊢
  ext
  omega

theorem SchedCalls.cursor_eq {N : ℕ∞} {s : Nat → Kernel} (h : SchedCalls N s) :
    ∀ {k : Nat}, (k : ℕ∞) < N → cursor (s k).pos = places s k := by
  intro k hk
  cases k with
  | zero => rfl
  | succ k =>
    obtain ⟨t, ht, hpos⟩ := h.next k hk
    simp only [places, ht, hpos]

/-- A call with a `RUNNABLE` slot chooses one, and that is the next place of the cursor. -/
theorem SchedCalls.turn {N : ℕ∞} {s : Nat → Kernel} (h : SchedCalls N s) {k : Nat}
    (hk : (k : ℕ∞) < N) (hi : (s k).Runnable i) : (s k).Chooses (places s (k + 1)) ∧
      Serves (s k).Runnable (places s k) (places s (k + 1)) := by
  obtain ⟨t, ht⟩ := schedYield_total hi
  obtain ⟨e, _, rfl⟩ := schedLoop_serves ht
  have hc : (s k).Chooses e := ⟨_, ht, curenv_envRun _ _⟩
  rw [places_succ hc, ← h.cursor_eq hk]
  exact ⟨hc, hc.serves⟩

/-- **`sched_yield` is round robin, and fair.** -/
theorem sched_yield_fair {N : ℕ∞} {s : Nat → Kernel} (h : SchedCalls N s) :
    (∀ k : Nat, (k : ℕ∞) < N →
      ((∃ fuel t, schedLoop fuel (s k) = .ok t) ↔ ∃ e, (s k).Runnable e) ∧
      ∀ fuel t, schedLoop fuel (s k) = .ok t → (s k).schedYield = .ok t ∧
        ∃ e, Serves (s k).Runnable (places s k) e ∧
          t = { s k with pos := (e.val : Int) }.envRun e) ∧
    ∀ (i : Slot) (a b : Nat), (b : ℕ∞) ≤ N → (∀ k, a ≤ k → k < b → (s k).Runnable i) →
      (∀ k l, a ≤ k → k < l → l < b → (s k).Chooses i → (s l).Chooses i →
        (∀ m, k < m → m < l → ¬ (s m).Chooses i) →
        ∀ m m' j, k < m → m < m' → m' < l → (s m).Chooses j → ¬ (s m').Chooses j) ∧
      ∀ k, a ≤ k → k + nenv ≤ b → ∃ m, k ≤ m ∧ m < k + nenv ∧ (s m).Chooses i := by
  refine ⟨fun k hk => ⟨schedLoop_iff, fun fuel t ht => ⟨schedLoop_eq ht, ?_⟩⟩, ?_⟩
  · rw [← h.cursor_eq hk]
    exact schedLoop_serves ht
  intro i a b hb hready
  have hturn : ∀ k, a ≤ k → k < b → (s k).Chooses (places s (k + 1)) ∧
      Serves (s k).Runnable (places s k) (places s (k + 1)) := fun k hak hkb =>
    h.turn (lt_of_lt_of_le (Nat.cast_lt.mpr hkb) hb) (hready k hak hkb)
  -- a stretch without a choice of `i` is a wait of `i`
  have hwaits : ∀ k l, a ≤ k → l ≤ b → (∀ m, k ≤ m → m < l → ¬ (s m).Chooses i) →
      RoundRobin.Waits (fun k => (s k).Runnable) (places s) i k l := by
    intro k l hak hlb hnot m hkm hml
    obtain ⟨hc, hs⟩ := hturn m (by omega) (by omega)
    refine ⟨hs, hready m (by omega) (by omega), ?_⟩
    rintro rfl
    exact hnot m hkm hml hc
  constructor
  · intro k l hak hkl hlb _ _ hnot m m' j hkm hmm hml hj hj'
    have hw := hwaits (k + 1) l (by omega) (by omega) (fun m hm => hnot m (by omega))
    refine hw.pos_ne (k := m + 1) (l := m' + 1) (by omega) (by omega) (by omega) ?_
    rw [places_succ hj, places_succ hj']
  · intro k hak hkb
    by_contra hnone
    refine RoundRobin.not_waits (hwaits k (k + nenv) hak hkb ?_)
    intro m hkm hml hc
    exact hnone ⟨m, hkm, hml, hc⟩

/-- A sequence in which every slot can run at every call: they run in turn. -/
theorem sched_yield_fair_all : ∃ s : Nat → Kernel, SchedCalls ⊤ s ∧
    ∃ m, 5 ≤ m ∧ m < 5 + nenv ∧ (s m).Chooses 3 := by
  let s : Nat → Kernel := fun k =>
    { start image ⟨coldRam, fun _ => 0, .zeroed⟩ with
      envs := fun _ => { Env.zero with envStatus := .runnable }
      pos := if k = 0 then -1 else (((k - 1 : Nat) : Int) % nenv) }
  have hcalls : SchedCalls ⊤ s := by
    refine ⟨by decide, by decide, fun k _ => ?_⟩
    refine ⟨_, schedYield_next rfl, ?_⟩
    rw [pos_envRun]
    have hn : (nenv : Int) = 1024 := by decide
    simp only [s, hn]
    rcases k with _ | k
    · rfl
    · simp only [Nat.add_sub_cancel, Nat.add_eq_zero_iff, one_ne_zero, and_false, if_false]
      omega
  obtain ⟨_, hfair⟩ := sched_yield_fair hcalls
  obtain ⟨_, hserved⟩ := hfair 3 5 (5 + nenv) le_top (fun _ _ _ => rfl)
  exact ⟨s, hcalls, hserved 5 (Nat.le_refl 5) (Nat.le_refl _)⟩

end Kernel

end RaspiOS
