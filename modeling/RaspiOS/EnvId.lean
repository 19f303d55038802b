/-
# Environment ids are unique and never come back

`mkenvid` packs a counter of generations and the slot into one word: the counter stands eleven
bits up, the slot in the ten bits `ENVX` reads.  While the counter has not run through its 53 bits,
an id therefore determines both, and the counter only grows.

The argument looks at a step through three facts only (`IdStep`): which slot, if any, got a new
id; that every other slot kept its own; and that a slot the kernel can name afterwards could be
named before, unless it is the new one.  The last is what `sys_set_env_status` needs: it can bring
a slot back from `ENV_FREE`, but only one it was able to name, and a destroyed one is not.

What comes of it for the machine, where a page entered over `envs[]` brings ids of its own, is in
`Forgery.lean`.
-/
import RaspiOS.InRam

set_option autoImplicit false

namespace RaspiOS

/-- The events in which `env_alloc` is called. -/
def Event.allocates : Event → Bool
  | .create _ _ => true
  | .svc _ .envAlloc => true
  | _ => false

/-- The id of generation `g` in slot `e`. -/
def envIdOf (g : Nat) (e : Slot) : Nat := g * 2 ^ (1 + log2nenv) + e.val

/-! ## 1. Ids as numbers -/

/-- **The word `mkenvid` packs**: of the counter, 53 bits have room. -/
theorem Kernel.mkenvid_eq_mod (s : Kernel) (e : Slot) :
    s.mkenvid e = envIdOf ((s.nextEnvId + 1) % 2 ^ 53) e := by
  have he : e.val < 2 ^ (1 + log2nenv) := by
    have := e.isLt
    simp only [log2nenv]
    omega
  have hshift : (((s.nextEnvId + 1) % 2 ^ 64) <<< (1 + log2nenv)) % 2 ^ 64
      = ((s.nextEnvId + 1) % 2 ^ 53) <<< (1 + log2nenv) := by
    rw [Nat.shiftLeft_eq, Nat.shiftLeft_eq]
    simp only [log2nenv]
    omega
  unfold Kernel.mkenvid envIdOf
  rw [hshift, ← Nat.shiftLeft_add_eq_or_of_lt he, Nat.shiftLeft_eq]

/-- While the counter fits, it is all there. -/
theorem Kernel.mkenvid_eq {s : Kernel} (e : Slot) (h : s.nextEnvId + 1 < 2 ^ 53) :
    s.mkenvid e = envIdOf (s.nextEnvId + 1) e := by
  rw [mkenvid_eq_mod, Nat.mod_eq_of_lt h]

/-- `ENVX` reads the slot back. -/
theorem Kernel.envx_envIdOf (g : Nat) (e : Slot) : envx (envIdOf g e) = e := by
  ext
  have he := e.isLt
  simp only [envx, envIdOf, Fin.ofNat, log2nenv]
  omega

/-- An id determines its generation and its slot. -/
theorem envIdOf_inj {g g' : Nat} {e e' : Slot} (h : envIdOf g e = envIdOf g' e') :
    g = g' ∧ e = e' := by
  have hslot : e = e' := by rw [← Kernel.envx_envIdOf g e, h, Kernel.envx_envIdOf]
  subst hslot
  simp only [envIdOf, log2nenv] at h
  exact ⟨by omega, rfl⟩

namespace Kernel

/-! ## 2. What a step does to ids -/

/-- The kernel can name the slot: by its id, or as environment zero. -/
def Named (s : Kernel) (e : Slot) : Prop :=
  (s.envs e).envStatus ≠ .free ∨ s.curenv = some e

/-- Whatever `envid2env` finds can be named. -/
theorem named_of_resolve {s : Kernel} {envid : Nat} {b : Bool} {e : Slot}
    (h : s.envid2env envid b = some e) : s.Named e :=
  (resolve_live h).symm

/-- The step from `s` to `s'` gave a new id to the slot `new`, if any, and left every other id
alone. -/
structure IdStep (s s' : Kernel) (new : Option Slot) : Prop where
  next : s'.nextEnvId = if new = none then s.nextEnvId else s.nextCounter
  id : ∀ e, (s'.envs e).envId = if new = some e then s.mkenvid e else (s.envs e).envId
  named : ∀ e, s'.Named e → s.Named e ∨ new = some e
  first : ∀ e, new = some e → s.envFreeList.first () = some e

/-- A step that gives no id. -/
theorem IdStep.keep {s s' : Kernel} (hnext : s'.nextEnvId = s.nextEnvId)
    (hid : ∀ e, (s'.envs e).envId = (s.envs e).envId)
    (hst : ∀ e, (s'.envs e).envStatus ≠ .free → s.Named e)
    (hcur : ∀ e, s'.curenv = some e → s.Named e) : IdStep s s' none :=
  { next := by rw [hnext, if_pos rfl]
    id := fun e => by rw [hid e, if_neg (by simp)]
    named := fun e he => Or.inl (he.elim (hst e) (hcur e))
    first := fun _ he => by cases he }

/-- A step in which `env_alloc` took slot `e`. -/
theorem IdStep.take {s s' : Kernel} {e : Slot} (hf : s.envFreeList.first () = some e)
    (hnext : s'.nextEnvId = s.nextCounter)
    (hid : (s'.envs e).envId = s.mkenvid e)
    (hother : ∀ e', e' ≠ e → s'.envs e' = s.envs e')
    (hcur : s'.curenv = s.curenv) : IdStep s s' (some e) :=
  { next := by rw [hnext, if_neg (by simp)]
    id := fun e' => by
      by_cases he : e' = e
      · rw [he, hid, if_pos rfl]
      · rw [hother e' he, if_neg (fun h => he (Option.some.inj h).symm)]
    named := fun e' h => by
      by_cases he : e' = e
      · exact Or.inr (by rw [he])
      · rw [Named, hother e' he, hcur] at h
        exact Or.inl h
    first := fun _ he => he ▸ hf }

/-- Freeing a slot, and running another or not: nothing is named that could not be before. -/
theorem IdStep.freed {s s' : Kernel} {e : Slot} (hnext : s'.nextEnvId = s.nextEnvId)
    (henv : ∀ e', (s'.envs e').envId = ((s.freed e).envs e').envId ∧
      (s'.envs e').envStatus = ((s.freed e).envs e').envStatus)
    (hcur : ∀ c, s'.curenv = some c → s.Named c) : IdStep s s' none := by
  refine .keep hnext (fun e' => ?_) (fun e' hst => ?_) hcur
  · rw [(henv e').1]
    by_cases he : e' = e
    · rw [he, envs_freed_self]
    · rw [envs_freed_ne _ he]
  · rw [(henv e').2] at hst
    by_cases he : e' = e
    · rw [he, envs_freed_self] at hst
      exact absurd rfl hst
    · rw [envs_freed_ne _ he] at hst
      exact Or.inl hst

/-- Changing a slot that could be named, other than in its id. -/
theorem IdStep.modify {s s' : Kernel} {e : Slot} (hn : s.Named e)
    (hnext : s'.nextEnvId = s.nextEnvId) (hother : ∀ e', e' ≠ e →
      (s'.envs e').envId = (s.envs e').envId ∧ (s'.envs e').envStatus = (s.envs e').envStatus)
    (hid : (s'.envs e).envId = (s.envs e).envId)
    (hcur : ∀ c, s'.curenv = some c → s.Named c) : IdStep s s' none := by
  refine .keep hnext (fun e' => ?_) (fun e' hst => ?_) hcur
  · by_cases he : e' = e
    · rw [he, hid]
    · exact (hother e' he).1
  · by_cases he : e' = e
    · exact he ▸ hn
    · exact Or.inl ((hother e' he).2 ▸ hst)

/-- The counter moves with every id it gives. -/
theorem nextCounter_ne (s : Kernel) : s.nextCounter ≠ s.nextEnvId := by
  unfold nextCounter
  omega

/-- **What a step does to ids.** -/
theorem step_ids {s s' : Kernel} {ev : Event} (h : s.step ev = .ok s') :
    ∃ new, IdStep s s' new ∧ (new ≠ none → ev.allocates = true) := by
  cases step_cases h with
  | quiet phys kf tf =>
    exact ⟨none, .keep rfl (fun _ => rfl) (fun e he => Or.inl he) (fun e he => Or.inr he), by simp⟩
  | @create _ _ e p phys kf tf hf =>
    refine ⟨some e, .take hf rfl ?_ ?_ rfl, fun _ => rfl⟩
    · simp [schedInsertHead, allocated, freshEnv, mkenvid, withMem]
    · intro e' he
      simp [schedInsertHead, allocated, modifyEnv, withMem, he]
  | @createNoMem _ _ e p phys kf tf hf =>
    refine ⟨some e, .take hf rfl ?_ ?_ rfl, fun _ => rfl⟩
    · simp [allocated, freshEnv, mkenvid, withMem]
    · intro e' he
      simp [allocated, modifyEnv, withMem, he]
  | switch kf tf pos n _ hn =>
    refine ⟨none, .keep (by simp [withMem]) (fun e => ?_) (fun e he => Or.inl ?_)
      (fun e he => ?_), by simp⟩
    · rw [envs_envRun]
      rfl
    · rw [envs_envRun] at he
      exact he
    · rw [curenv_envRun] at he
      cases he
      exact Or.inl (by rw [hn]; simp)
  | @destroy _ _ e phys kf tf _ _ =>
    exact ⟨none, .freed (e := e) rfl (fun _ => ⟨rfl, rfl⟩) (fun c hc => Or.inr hc), by simp⟩
  | @destroySelf _ _ e phys kf tf pos n hres _ hn =>
    refine ⟨none, .freed (e := e) (by rw [nextEnvId_envRun]; rfl)
      (fun e' => by rw [envs_envRun]; exact ⟨rfl, rfl⟩) (fun c hc => Or.inl ?_), by simp⟩
    rw [curenv_envRun] at hc
    cases hc
    -- the slot that was freed cannot be the one that runs next
    by_cases he : n = e
    · rw [he, envs_freed_self] at hn
      cases hn
    · rw [envs_freed_ne _ he] at hn
      intro hf
      cases hn.symm.trans hf
  | @handler _ _ _ _ e kf tf hres =>
    refine ⟨none, .modify (named_of_resolve hres) rfl (fun e' he => ?_) ?_
      (fun c hc => Or.inr hc), by simp⟩
    · rw [envs_modifyEnv_ne _ _ he]
      exact ⟨rfl, rfl⟩
    · rw [envs_modifyEnv_self]
      rfl
  | @fork _ c e p phys kf tf ctf st hc hf _ =>
    refine ⟨some e, .take hf rfl ?_ ?_ rfl, fun _ => rfl⟩
    · simp [allocated, freshEnv, mkenvid, withMem]
    · intro e' he
      simp [allocated, modifyEnv, withMem, he]
  | @setStatus _ _ _ st e kf tf _ hres =>
    refine ⟨none, .modify (e := e) (named_of_resolve hres) (nextEnvId_relink _ _ _)
      (fun e' he => ?_) ?_ (fun c hc => Or.inr ?_), by simp⟩
    · rw [envs_modifyEnv_ne _ _ he, envs_relink]
      exact ⟨rfl, rfl⟩
    · rw [envs_modifyEnv_self, envs_relink]
      rfl
    · exact (curenv_relink (s.withMem s.phys kf tf) e st).symm.trans hc
  | @recv _ _ c kf tf pos n hc _ _ hn =>
    refine ⟨none, .modify (e := c) (Or.inr hc) (by rw [nextEnvId_envRun]; rfl)
      (fun e' he => ?_) ?_ (fun c' hc' => ?_), by simp⟩
    · rw [envs_envRun]
      simp [schedRemove, modifyEnv, withMem, he]
    · rw [envs_envRun]
      simp [schedRemove, modifyEnv, withMem]
    · rw [curenv_envRun] at hc'
      cases hc'
      exact Or.inl (by rw [hn]; simp)
  | @send _ _ _ _ _ c e phys kf tf _ hres _ _ =>
    refine ⟨none, .modify (named_of_resolve hres) rfl (fun e' he => ?_) ?_
      (fun c hc => Or.inr hc), by simp⟩
    · simp [ipcDeliver, schedInsertHead, modifyEnv, withMem, he]
    · simp [ipcDeliver, schedInsertHead, modifyEnv, withMem]

/-- A step that gives no id names no slot that could not be named before. -/
theorem named_back {s s' : Kernel} {ev : Event} (h : s.step ev = .ok s')
    (hnext : s'.nextEnvId = s.nextEnvId) {e : Slot} (he : s'.Named e) : s.Named e := by
  obtain ⟨new, hid, _⟩ := step_ids h
  refine (hid.named e he).resolve_right fun hnew => ?_
  rw [hid.next, hnew, if_neg (by simp)] at hnext
  exact nextCounter_ne s hnext

/-! ## 3. The invariant -/

/-- Every id is zero or comes from a generation already counted, and what can be named has one. -/
structure IdInv (s : Kernel) : Prop where
  shape : ∀ e, (s.envs e).envId = 0 ∨
    ∃ g, 0 < g ∧ g ≤ s.nextEnvId ∧ (s.envs e).envId = envIdOf g e
  named : ∀ e, s.Named e → (s.envs e).envId ≠ 0

/-- An id that has been issued and that no slot the kernel can name carries. -/
structure Retired (s : Kernel) (id : Nat) : Prop where
  issued : ∃ g e, g ≤ s.nextEnvId ∧ id = envIdOf g e
  unnamed : ∀ e, (s.envs e).envId = id → ¬ s.Named e

/-- **One step keeps the invariant**, as long as the counter does not overflow. -/
theorem IdInv.step {s s' : Kernel} {new : Option Slot} (h : IdInv s) (hst : IdStep s s' new)
    (hb : new ≠ none → s.nextEnvId + 1 < 2 ^ 53) : IdInv s' := by
  cases new with
  | none =>
    have hnext : s'.nextEnvId = s.nextEnvId := hst.next
    have hid : ∀ e, (s'.envs e).envId = (s.envs e).envId := fun e => (hst.id e).trans (by simp)
    refine ⟨fun e => ?_, fun e he => ?_⟩
    · rw [hid, hnext]
      exact h.shape e
    · rw [hid]
      exact h.named e ((hst.named e he).resolve_right (by simp))
  | some n =>
    have hlt := hb (by simp)
    have hnext : s'.nextEnvId = s.nextEnvId + 1 := by
      rw [hst.next, if_neg (by simp), nextCounter, Nat.mod_eq_of_lt (by omega)]
    have hnew : (s'.envs n).envId = envIdOf (s.nextEnvId + 1) n := by
      rw [hst.id, if_pos rfl, mkenvid_eq n hlt]
    have hold : ∀ e, e ≠ n → (s'.envs e).envId = (s.envs e).envId := fun e he => by
      rw [hst.id, if_neg (fun hn => he (Option.some.inj hn).symm)]
    refine ⟨fun e => ?_, fun e he => ?_⟩
    · by_cases hen : e = n
      · exact Or.inr ⟨s.nextEnvId + 1, by omega, by omega, by rw [hen, hnew]⟩
      · rw [hold e hen, hnext]
        rcases h.shape e with h0 | ⟨g, h1, h2, h3⟩
        · exact Or.inl h0
        · exact Or.inr ⟨g, h1, by omega, h3⟩
    · by_cases hen : e = n
      · rw [hen, hnew]
        simp only [envIdOf, log2nenv]
        omega
      · rw [hold e hen]
        exact h.named e ((hst.named e he).resolve_right (fun hn => hen (Option.some.inj hn).symm))

/-- **A retired id stays retired**: the only id a step issues is newer. -/
theorem Retired.step {s s' : Kernel} {new : Option Slot} {id : Nat} (h : Retired s id)
    (hst : IdStep s s' new) (hb : new ≠ none → s.nextEnvId + 1 < 2 ^ 53) : Retired s' id := by
  obtain ⟨g, d, hg, hd⟩ := h.issued
  cases new with
  | none =>
    have hid : ∀ e, (s'.envs e).envId = (s.envs e).envId := fun e => (hst.id e).trans (by simp)
    refine ⟨⟨g, d, hg.trans_eq hst.next.symm, hd⟩, fun e he hn => ?_⟩
    rw [hid] at he
    exact h.unnamed e he ((hst.named e hn).resolve_right (by simp))
  | some n =>
    have hlt := hb (by simp)
    have hnext : s'.nextEnvId = s.nextEnvId + 1 := by
      rw [hst.next, if_neg (by simp), nextCounter, Nat.mod_eq_of_lt (by omega)]
    refine ⟨⟨g, d, by omega, hd⟩, fun e he hn => ?_⟩
    rw [hst.id] at he
    by_cases hen : n = e
    · rw [if_pos (by rw [hen]), mkenvid_eq e hlt, hd] at he
      have := (envIdOf_inj he).1
      omega
    · have hen' : some n ≠ some e := fun hs => hen (Option.some.inj hs)
      rw [if_neg hen'] at he
      exact h.unnamed e he ((hst.named e hn).resolve_right hen')

/-! ## 4. Runs -/

/-- The invariant after boot. -/
theorem IdInv.ofBoot {L : Layout} {s : Kernel} (h : EnvBoot L s) : IdInv s := by
  refine ⟨fun e => Or.inl (by rw [h.envs e]; rfl), fun e he => ?_⟩
  rcases he with hst | hcur
  · rw [h.envs e] at hst
    exact absurd rfl hst
  · rw [h.curenv] at hcur
    cases hcur

/-- The table written out has the same ids. -/
theorem IdInv.flush {s : Kernel} (h : IdInv s) (R : Records) : IdInv (R.flush s) :=
  ⟨h.shape, h.named⟩

theorem Retired.flush {s : Kernel} {id : Nat} (h : Retired s id) (R : Records) :
    Retired (R.flush s) id :=
  ⟨h.issued, h.unnamed⟩

/-- **The rule for runs of tame steps in which `env_alloc` is called fewer than 2^53 times in all.** -/
theorem run_ids {R : Records} {L : Layout} {base : Nat} {s t : Kernel} {es : List Event}
    {I : Kernel → Prop} (hf : R.Fits L base) (hin : ∃ ρ fl, MachineInv R L base ρ fl s)
    (hr : Run R.step Tame s es t) (h0 : I s)
    (hb : s.nextEnvId + es.countP Event.allocates < 2 ^ 53)
    (hI : ∀ t u ev new, I t → t.step ev = .ok u → IdStep t u new →
      (new ≠ none → t.nextEnvId + 1 < 2 ^ 53) → I (R.flush u)) :
    (∃ ρ fl, MachineInv R L base ρ fl t) ∧ I t ∧
      t.nextEnvId ≤ s.nextEnvId + es.countP Event.allocates := by
  refine hr.invariantEvents (I := fun es t => s.nextEnvId + es.countP Event.allocates < 2 ^ 53 →
    (∃ ρ fl, MachineInv R L base ρ fl t) ∧ I t ∧
      t.nextEnvId ≤ s.nextEnvId + es.countP Event.allocates) (fun _ => ⟨hin, h0, by simp⟩) ?_ hb
  intro es t ev u ih htame hst hb
  rw [List.countP_append, List.countP_singleton] at hb ⊢
  obtain ⟨⟨ρ, fl, hin⟩, hIt, hle⟩ := ih (by omega)
  obtain ⟨v, ρ', fl', hv, rfl, _, hin'⟩ := hin.step hf htame hst
  obtain ⟨new, hid, hev⟩ := step_ids hv
  refine ⟨⟨ρ', fl', hin'⟩, ?_⟩
  change _ ∧ v.nextEnvId ≤ _
  cases new with
  | none => exact ⟨hI t v ev none hIt hv hid (by simp), by rw [hid.next, if_pos rfl]; omega⟩
  | some n =>
    rw [if_pos (hev (by simp))] at hb ⊢
    have hnext : v.nextEnvId = t.nextEnvId + 1 := by
      rw [hid.next, if_neg (by simp), nextCounter, Nat.mod_eq_of_lt (by omega)]
    exact ⟨hI t v ev (some n) hIt hv hid (fun _ => by omega), by omega⟩

/-- **`envid2env` finds a slot by its id**, if the slot is not free, and nothing else. -/
theorem IdInv.resolve_iff {s : Kernel} (h : IdInv s) {id : Nat} (h0 : id ≠ 0) (e : Slot) :
    s.envid2env id false = some e ↔ (s.envs e).envStatus ≠ .free ∧ (s.envs e).envId = id := by
  constructor
  · intro hres
    unfold envid2env at hres
    rw [if_neg h0] at hres
    dsimp only at hres
    split at hres
    · cases hres
    · rename_i hlive
      rw [not_or, not_not] at hlive
      rw [if_neg (by simp)] at hres
      cases hres
      exact hlive
  · rintro ⟨hst, hid⟩
    obtain ⟨g, _, _, hg⟩ := (h.shape e).resolve_left (by rw [hid]; exact h0)
    refine envid2env_live h0 ?_ hid hst
    rw [← hid, hg, envx_envIdOf]

/-- Two slots that are not free have different ids. -/
theorem IdInv.unique {s : Kernel} (h : IdInv s) {e e' : Slot} (he : (s.envs e).envStatus ≠ .free)
    (he' : (s.envs e').envStatus ≠ .free) (hid : (s.envs e).envId = (s.envs e').envId) :
    e = e' := by
  obtain ⟨g, _, _, hg⟩ := (h.shape e).resolve_left (h.named e (Or.inl he))
  obtain ⟨g', _, _, hg'⟩ := (h.shape e').resolve_left (h.named e' (Or.inl he'))
  exact (envIdOf_inj (hg.symm.trans (hid.trans hg'))).2

/-- A retired id names nothing, whoever asks. -/
theorem Retired.resolve_none {s : Kernel} {id : Nat} (h : Retired s id) (h0 : id ≠ 0) (b : Bool) :
    s.envid2env id b = none := by
  by_contra hres
  obtain ⟨e, he⟩ := Option.ne_none_iff_exists'.mp hres
  refine h.unnamed e ?_ (named_of_resolve he)
  unfold envid2env at he
  rw [if_neg h0] at he
  dsimp only at he
  split at he
  · cases he
  · rename_i hlive
    split at he
    · cases he
    · cases he
      exact not_not.mp (fun hid => hlive (Or.inr hid))

/-- **`env_destroy` retires the id** of its target. -/
theorem IdInv.retired {s s' : Kernel} {r : Regs} {envid : Nat} {e : Slot} (h : IdInv s)
    (hres : s.envid2env envid true = some e)
    (hst : s.step (.svc r (.envDestroy envid)) = .ok s') : Retired s' (s.envs e).envId := by
  obtain ⟨g, _, hg, hid⟩ := (h.shape e).resolve_left (h.named e (named_of_resolve hres))
  have hsame : ∀ e', (s'.envs e').envId = (s.envs e').envId ∧ s'.nextEnvId = s.nextEnvId := by
    intro e'
    obtain ⟨new, hi, hev⟩ := step_ids hst
    cases new with
    | none => exact ⟨(hi.id e').trans (by simp), hi.next⟩
    | some n => exact absurd (hev (by simp)) (by simp [Event.allocates])
  have hdead : ¬ s'.Named e := by
    obtain ⟨phys, _, ⟨hc, rfl⟩ | ⟨_, pos, n, hn, rfl⟩⟩ := svc_envDestroy_ok hres hst
    · rintro (hlive | hcur)
      · rw [envs_freed_self] at hlive
        exact hlive rfl
      · exact hc hcur
    · rintro (hlive | hcur)
      · rw [envs_envRun] at hlive
        refine hlive ?_
        simp [Kernel.freed, schedRemove]
      · rw [curenv_envRun] at hcur
        cases hcur
        rw [envs_freed_self] at hn
        cases hn
  refine ⟨⟨g, e, (hsame e).2 ▸ hg, hid⟩, fun e' he' hn => ?_⟩
  rw [(hsame e').1] at he'
  have hee : e' = e := by
    obtain ⟨g', _, _, hg'⟩ := (h.shape e').resolve_left
      (by rw [he']; exact h.named e (named_of_resolve hres))
    exact (envIdOf_inj (hg'.symm.trans (he'.trans hid))).2
  exact hdead (hee ▸ hn)

end Kernel

end RaspiOS
