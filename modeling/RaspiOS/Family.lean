/-
# Parents and children

`env_alloc` writes the id of the caller of `sys_env_alloc`, or zero, into `env_parent_id`, and nothing
else writes that field.  The caller already has an id and the new environment gets the next one, so
along parents the generation goes down.  Authority, which `envid2env` takes from `env_parent_id`, is
therefore a forest: nobody has authority over an ancestor, however often slots have been reused, and
only `env_alloc` gives authority (`authority_forest`).  That holds for runs of tame steps: the field is
memory, which a page entered over `envs[]`, or a store, would replace.
-/
import Mathlib.Order.WellFounded
import RaspiOS.Turns
import RaspiOS.Authority

set_option autoImplicit false

namespace RaspiOS

namespace Kernel

variable {s s' t : Kernel} {ev : Event} {c e : Slot}

/-! ## 1. One step -/

/-- **What a step does to `env_parent_id`**: the new environment gets the id of the caller, or zero. -/
structure ParentStep (s s' : Kernel) : Prop where
  kept : ∀ e, s.newSlot s' ≠ some e → (s'.envs e).envParentId = (s.envs e).envParentId
  new : ∀ e, s.newSlot s' = some e → (s'.envs e).envParentId = 0 ∨
    ∃ c, s.curenv = some c ∧ (s'.envs e).envParentId = (s.envs c).envId

theorem ParentStep.keep (h : ∀ e, (s'.envs e).envParentId = (s.envs e).envParentId)
    (hnext : s'.nextEnvId = s.nextEnvId) : ParentStep s s' where
  kept := fun e _ => h e
  new := by
    intro e he
    rw [newSlot, if_pos hnext] at he
    cases he

theorem ParentStep.take (hf : s.envFreeList.first () = some e) (hnext : s'.nextEnvId = s.nextCounter)
    (hother : ∀ e', e' ≠ e → (s'.envs e').envParentId = (s.envs e').envParentId)
    (hself : (s'.envs e).envParentId = 0 ∨
      ∃ c, s.curenv = some c ∧ (s'.envs e).envParentId = (s.envs c).envId) : ParentStep s s' := by
  have hne : s'.nextEnvId ≠ s.nextEnvId := hnext ▸ nextCounter_ne s
  have hnew : s.newSlot s' = some e := by rw [newSlot, if_neg hne, hf]
  refine ⟨fun e' he' => hother e' fun hc => he' (hc ▸ hnew), fun e' he' => ?_⟩
  cases hnew.symm.trans he'
  exact hself

/-- One environment is written, but not its parent. -/
theorem ParentStep.frame (hother : ∀ e', e' ≠ e → (s'.envs e').envParentId = (s.envs e').envParentId)
    (hself : (s'.envs e).envParentId = (s.envs e).envParentId) (hnext : s'.nextEnvId = s.nextEnvId) :
    ParentStep s s' := by
  refine .keep (fun e' => ?_) hnext
  rcases eq_or_ne e' e with rfl | hne
  exacts [hself, hother e' hne]

theorem step_parent (h : s.step ev = .ok s') : ParentStep s s' := by
  cases step_cases h with
  | quiet phys kf tf => exact .keep (fun _ => rfl) rfl
  | @create _ _ e p phys kf tf hf =>
    refine .take hf rfl (fun e' he => ?_) (Or.inl ?_)
    · simp [schedInsertHead, allocated, modifyEnv, withMem, he]
    · simp [schedInsertHead, allocated, freshEnv]
  | @createNoMem _ _ e p phys kf tf hf =>
    refine .take hf rfl (fun e' he => ?_) (Or.inl ?_)
    · simp [allocated, modifyEnv, withMem, he]
    · simp [allocated, freshEnv]
  | switch kf tf pos n hy hn =>
    refine .keep (fun e => ?_) (nextEnvId_envRun _ _)
    rw [envs_envRun]
    rfl
  | @destroy _ _ e phys kf tf hres hc =>
    refine .frame (e := e) (fun e' he => ?_) ?_ rfl
    · rw [envs_freed_ne _ he]
      rfl
    · rw [envs_freed_self]
      rfl
  | @destroySelf _ _ e phys kf tf pos n hres hc hn =>
    refine .frame (e := e) (fun e' he => ?_) ?_ (nextEnvId_envRun _ _)
    · rw [envs_envRun, envs_freed_ne _ he]
      rfl
    · rw [envs_envRun, envs_freed_self]
      rfl
  | @handler _ _ _ _ e kf tf hres =>
    refine .frame (e := e) (fun e' he => ?_) ?_ rfl
    · rw [envs_modifyEnv_ne _ _ he]
      rfl
    · rw [envs_modifyEnv_self]
      rfl
  | @fork _ c e p phys kf tf ctf st hc hf hst =>
    refine .take hf rfl (fun e' he => ?_) (Or.inr ⟨c, hc, ?_⟩)
    · simp [allocated, modifyEnv, withMem, he]
    · simp [allocated, freshEnv]
  | @setStatus _ envid w st e kf tf hw hres =>
    refine .frame (e := e) (fun e' he => ?_) ?_ (nextEnvId_relink _ _ _)
    · rw [envs_modifyEnv_ne _ _ he, envs_relink]
      rfl
    · rw [envs_modifyEnv_self, envs_relink]
      rfl
  | @recv _ _ c kf tf pos n hc hd hne hn =>
    refine .frame (e := c) (fun e' he => ?_) ?_ (nextEnvId_envRun _ _)
    · rw [envs_envRun]
      simp [schedRemove, modifyEnv, withMem, he]
    · rw [envs_envRun]
      simp [schedRemove, modifyEnv, withMem]
  | @send _ _ _ _ _ c e phys kf tf hc hres hst hrecv =>
    refine .frame (e := e) (fun e' he => ?_) ?_ rfl
    · simp [ipcDeliver, schedInsertHead, modifyEnv, withMem, he]
    · simp [ipcDeliver, schedInsertHead, withMem]

/-- The slot that gets an id is the one that is allocated. -/
theorem IdStep.newSlot_eq {new : Option Slot} (h : IdStep s s' new) : s.newSlot s' = new := by
  cases new with
  | none => rw [newSlot, h.next, if_pos rfl, if_pos rfl]
  | some e =>
    have hne : s'.nextEnvId ≠ s.nextEnvId := by
      rw [h.next, if_neg (by simp)]
      exact nextCounter_ne s
    rw [newSlot, if_neg hne, h.first e rfl]

/-! ## 2. The invariant -/

/-- **A parent is older**: its id is zero or of an earlier generation. -/
def OlderParents (s : Kernel) : Prop :=
  ∀ e, (s.envs e).envParentId = 0 ∨ ∃ g p g', (s.envs e).envParentId = envIdOf g p ∧
    (s.envs e).envId = envIdOf g' e ∧ g < g'

theorem OlderParents.ofBoot {L : Layout} (h : EnvBoot L s) : OlderParents s := by
  intro e
  rw [h.envs e]
  exact Or.inl rfl

theorem OlderParents.step (h : OlderParents s) (hids : IdInv s) (hst : s.step ev = .ok s')
    (hb : s.newSlot s' ≠ none → s.nextEnvId + 1 < 2 ^ 53) : OlderParents s' := by
  obtain ⟨new, hid, _⟩ := step_ids hst
  have hpar := step_parent hst
  have hnew := hid.newSlot_eq
  intro e
  by_cases he : s.newSlot s' = some e
  · rcases hpar.new e he with h0 | ⟨c, hc, hp⟩
    · exact Or.inl h0
    · -- the caller has an id already
      obtain ⟨g, _, hg, hcid⟩ := (hids.shape c).resolve_left (hids.named c (Or.inr hc))
      refine Or.inr ⟨g, c, s.nextEnvId + 1, hp.trans hcid, ?_, by omega⟩
      rw [hid.id, ← hnew, if_pos he]
      exact mkenvid_eq e (hb (by rw [he]; simp))
  · rw [hpar.kept e he, hid.id, ← hnew, if_neg he]
    exact h e

/-- Ids and parents together. -/
structure FamilyInv (s : Kernel) : Prop where
  ids : IdInv s
  older : OlderParents s

theorem FamilyInv.ofBoot {L : Layout} (h : EnvBoot L s) : FamilyInv s :=
  ⟨.ofBoot h, .ofBoot h⟩

theorem FamilyInv.step (h : FamilyInv s) (hst : s.step ev = .ok s')
    (hb : s.newSlot s' ≠ none → s.nextEnvId + 1 < 2 ^ 53) : FamilyInv s' := by
  obtain ⟨new, hid, _⟩ := step_ids hst
  refine ⟨h.ids.step hid fun hn => hb ?_, h.older.step h.ids hst hb⟩
  rwa [hid.newSlot_eq]

theorem FamilyInv.flush (h : FamilyInv s) (R : Records) : FamilyInv (R.flush s) :=
  ⟨h.ids.flush R, h.older⟩

/-- An id that has been issued: the environment in slot `e`, if it has this id, has this parent. -/
structure Descends (id parent : Nat) (e : Slot) (s : Kernel) : Prop where
  issued : ∃ g p, g ≤ s.nextEnvId ∧ id = envIdOf g p
  parent : (s.envs e).envId = id → (s.envs e).envParentId = parent

theorem Descends.step {id parent : Nat} (h : Descends id parent e s) (hst : s.step ev = .ok s')
    (hb : s.newSlot s' ≠ none → s.nextEnvId + 1 < 2 ^ 53) : Descends id parent e s' := by
  obtain ⟨new, hid, _⟩ := step_ids hst
  have hnew := hid.newSlot_eq
  obtain ⟨g, p, hg, rfl⟩ := h.issued
  have hnext : s.nextEnvId ≤ s'.nextEnvId := by
    rw [hid.next]
    split
    · exact le_rfl
    · have := hb (by rwa [hnew])
      rw [nextCounter, Nat.mod_eq_of_lt (by omega)]
      omega
  refine ⟨⟨g, p, hg.trans hnext, rfl⟩, fun heq => ?_⟩
  by_cases he : s.newSlot s' = some e
  · -- a new id is of a later generation
    have h1 : (s'.envs e).envId = envIdOf (s.nextEnvId + 1) e := by
      rw [hid.id, ← hnew, if_pos he]
      exact mkenvid_eq e (hb (by rw [he]; simp))
    have := (envIdOf_inj (h1.symm.trans heq)).1
    omega
  · rw [(step_parent hst).kept e he]
    refine h.parent ?_
    rwa [hid.id, ← hnew, if_neg he] at heq

theorem Descends.flush {id parent : Nat} (h : Descends id parent e s) (R : Records) :
    Descends id parent e (R.flush s) :=
  ⟨h.issued, h.parent⟩

/-! ## 3. Authority -/

/-- Environment `c`, were it to run, could name another environment `e` in a call that asks for
permission. -/
def Commands (s : Kernel) (c e : Slot) : Prop :=
  s.Named c ∧ e ≠ c ∧ ∃ envid, ({ s with curenv := some c } : Kernel).envid2env envid true = some e

/-- **Authority is parenthood.** -/
theorem IdInv.commands_iff (h : IdInv s) : Commands s c e ↔
    s.Named c ∧ (s.envs e).envStatus ≠ .free ∧ e ≠ c ∧
      (s.envs e).envParentId = (s.envs c).envId := by
  constructor
  · rintro ⟨hc, hne, envid, hres⟩
    refine ⟨hc, ?_, hne, ?_⟩
    · rcases resolve_live hres with hcur | hlive
      · exact absurd (Option.some.inj hcur).symm hne
      · exact hlive
    · exact (resolve_checked hres rfl).resolve_left hne
  · rintro ⟨hc, hlive, hne, hpar⟩
    refine ⟨hc, hne, (s.envs e).envId, ?_⟩
    have h0 := h.named e (Or.inl hlive)
    obtain ⟨g, _, _, hg⟩ := (h.shape e).resolve_left h0
    have hx : envx (s.envs e).envId = e := by rw [hg, envx_envIdOf]
    unfold envid2env
    rw [if_neg h0]
    dsimp only
    rw [hx, if_neg (by rintro (hf | hf); exacts [hlive hf, hf rfl]), if_neg]
    rintro ⟨_, _, hp⟩
    exact hp (congrArg some hpar.symm)

/-- A commander is of an earlier generation. -/
theorem FamilyInv.lt (h : FamilyInv s) (hc : Commands s c e) :
    (s.envs c).envId / 2 ^ (1 + log2nenv) < (s.envs e).envId / 2 ^ (1 + log2nenv) := by
  obtain ⟨hcn, _, _, hpar⟩ := h.ids.commands_iff.mp hc
  have hgen : ∀ g (x : Slot), envIdOf g x / 2 ^ (1 + log2nenv) = g := by
    intro g x
    have hx := x.isLt
    simp only [envIdOf, log2nenv]
    omega
  rcases h.older e with h0 | ⟨g, p, g', hp, hid, hlt⟩
  · exact absurd (hpar.symm.trans h0) (h.ids.named c hcn)
  · rwa [← hpar, hp, hid, hgen, hgen]

/-- The slot of a commander can be read off the parent's id. -/
theorem IdInv.commander (h : IdInv s) (hc : Commands s c e) : c = envx (s.envs e).envParentId := by
  obtain ⟨hcn, _, _, hpar⟩ := h.commands_iff.mp hc
  obtain ⟨g, _, _, hg⟩ := (h.shape c).resolve_left (h.named c hcn)
  rw [hpar, hg, envx_envIdOf]

/-- **Where authority comes from**: `env_alloc`, called by the commander. -/
theorem FamilyInv.source (h : FamilyInv s) (hst : s.step ev = .ok s')
    (hb : s.newSlot s' ≠ none → s.nextEnvId + 1 < 2 ^ 53) (hc : Commands s' c e)
    (hnew : s.newSlot s' = some e) : s.curenv = some c := by
  have h' := h.step hst hb
  obtain ⟨hcn, _, _, hpar⟩ := h'.ids.commands_iff.mp hc
  rcases (step_parent hst).new e hnew with h0 | ⟨d, hd, hp⟩
  · exact absurd (hpar.symm.trans h0) (h'.ids.named c hcn)
  · obtain ⟨g, _, _, hg⟩ := (h.ids.shape d).resolve_left (h.ids.named d (Or.inr hd))
    rw [h'.ids.commander hc, hp, hg, envx_envIdOf]
    exact hd

/-- The steps of the two invariants, for `run_ids`. -/
theorem FamilyInv.idStep {new : Option Slot} (h : FamilyInv s) (hst : s.step ev = .ok s')
    (hid : IdStep s s' new) (hb : new ≠ none → s.nextEnvId + 1 < 2 ^ 53) (R : Records) :
    FamilyInv (R.flush s') :=
  (h.step hst (by rwa [hid.newSlot_eq])).flush R

theorem Descends.idStep {id parent : Nat} {new : Option Slot} (h : Descends id parent e s)
    (hst : s.step ev = .ok s') (hid : IdStep s s' new) (hb : new ≠ none → s.nextEnvId + 1 < 2 ^ 53)
    (R : Records) : Descends id parent e (R.flush s') :=
  (h.step hst (by rwa [hid.newSlot_eq])).flush R

/-- **Authority is a forest, `env_alloc` alone gives it, and it never changes hands.**  In every state
that a run of tame steps from boot with fewer than 2^53 calls of `env_alloc` reaches: there is no cycle
of authority; no environment has two others over it; an environment that the last step made is under
the one that called for it; and from then on, as long as the id is in its slot, only that same
environment, under the same id, is ever over it. -/
theorem authority_forest {L : Layout} {H : ListHeads L} {ram : Mem} {R : Records} {s₀ : Kernel}
    {es fs : List Event} (hclean : CleanRam L ram) (hboot : bootInRam L H ram = .ok (R, s₀))
    (hr : Run R.step Tame s₀ es s) (hcount : (es ++ ev :: fs).countP Event.allocates < 2 ^ 53)
    (htame : s.Tame ev) (hst : R.step s ev = .ok s') (hr' : Run R.step Tame s' fs t) :
    WellFounded (Commands t) ∧
    (∀ c c' e, Commands t c e → Commands t c' e → c = c') ∧
    (∀ c e, Commands s' c e → s.newSlot s' = some e → s.curenv = some c) ∧
    ∀ c c' e, Commands s' c e → Commands t c' e → (t.envs e).envId = (s'.envs e).envId →
      c' = c ∧ (t.envs c).envId = (s'.envs c).envId := by
  have h0 := bootInRam_envBoot hboot
  obtain ⟨base, hf, _, hin₀⟩ := bootInRam_spec hclean hboot
  have hsum : es.countP Event.allocates + [ev].countP Event.allocates
      + fs.countP Event.allocates < 2 ^ 53 := by
    rw [List.append_cons, List.countP_append, List.countP_append] at hcount
    exact hcount
  obtain ⟨hin, hinv, hle⟩ := run_ids hf ⟨_, _, hin₀⟩ hr (FamilyInv.ofBoot h0)
    (by rw [h0.nextEnvId]; omega) fun _ _ _ _ h hst hid hb => h.idStep hst hid hb R
  rw [h0.nextEnvId, Nat.zero_add] at hle
  obtain ⟨hin', hinv', hle'⟩ := run_ids hf hin (Run.single htame hst) hinv (by omega)
    fun _ _ _ _ h hst hid hb => h.idStep hst hid hb R
  obtain ⟨_, hend, _⟩ := run_ids hf hin' hr' hinv' (by omega)
    fun _ _ _ _ h hst hid hb => h.idStep hst hid hb R
  refine ⟨?_, fun c c' e hc hc' => ?_, fun c e hc hnew => ?_, fun c c' e hc hc' heq => ?_⟩
  · refine Subrelation.wf ?_
      (measure fun e => (t.envs e).envId / 2 ^ (1 + log2nenv)).wf
    exact fun hc => hend.lt hc
  · rw [hend.ids.commander hc, hend.ids.commander hc']
  · obtain ⟨ρ, fl, hin⟩ := hin
    obtain ⟨v, _, _, hv, rfl, _, _⟩ := hin.step hf htame hst
    refine hinv.source hv (fun hn => ?_) hc hnew
    obtain ⟨new, hid, hev⟩ := step_ids hv
    rw [hid.newSlot_eq] at hn
    have h1 : [ev].countP Event.allocates = 1 := by
      rw [List.countP_singleton, if_pos (hev hn)]
    omega
  · obtain ⟨hcn, hlive, _, hpar⟩ := hinv'.ids.commands_iff.mp hc
    obtain ⟨g, _, hg, hid⟩ := (hinv'.ids.shape e).resolve_left (hinv'.ids.named e (Or.inl hlive))
    obtain ⟨_, hdesc, _⟩ := run_ids (I := Descends (s'.envs e).envId (s'.envs e).envParentId e) hf hin'
      hr' ⟨⟨g, e, hg, hid⟩, fun _ => rfl⟩ (by omega) fun _ _ _ _ h hst hid hb => h.idStep hst hid hb R
    have hsame : (t.envs e).envParentId = (s'.envs e).envParentId := hdesc.parent heq
    have hcc : c' = c := by rw [hend.ids.commander hc', hinv'.ids.commander hc, hsame]
    obtain ⟨_, _, _, hpar'⟩ := hend.ids.commands_iff.mp hc'
    exact ⟨hcc, by rw [← hcc, ← hpar', hsame, hpar, hcc]⟩

/-- The first environment forks: it has authority over its child, and the child has none. -/
theorem authority_forest_first : ∃ (R : Records) (s : Kernel), R.TameReachable s ∧ Commands s 0 1 ∧
    ¬ Commands s 1 0 ∧ WellFounded (Commands s) := by
  obtain ⟨R, s₀, s, base, n, ρ, hb, hf, hbooted, hr, _, hsync, h⟩ := firstEnv_inRam
  have hreach := Records.TameReachable.ofImage hb hr
  have hbase := h.base_le
  obtain ⟨htame, s', ρ', hst, h'⟩ := h.fork (by simp only [npage]; omega)
  obtain ⟨hm, hreach'⟩ := hreach.step_ok htame hst
  obtain ⟨hwf, _, _, _⟩ := authority_forest cleanRam_coldRam hb hr (by decide) htame hm .nil
  have hc : Commands (R.flush s') 0 1 :=
    ⟨Or.inr h'.cur, by decide, 4097, by
      have hcur : ({ R.flush s' with curenv := some 0 } : Kernel) = R.flush s' := by
        have hc0 : (R.flush s').curenv = some 0 := h'.cur
        rw [← hc0]
      rw [hcur]
      exact (h'.flush hf).resolve true⟩
  exact ⟨R, _, hreach', hc, hwf.asymmetric 0 1 hc, hwf⟩

end Kernel

end RaspiOS
