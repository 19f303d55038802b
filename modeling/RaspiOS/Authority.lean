/-
# Authority over other environments

An environment has authority over itself and over its children: that is the test `checkperm` asks
of `envid2env`, and five of the six system calls that name another environment ask for it.
`sys_set_env_status` does not.  So the law that a call leaves every other environment alone fails
for it, and `authority_iff` says exactly when it holds: unless the call gives a new status to an
environment that is neither the caller nor a child of the caller.

The environments are protected by nothing else: a page entered over a page of `envs[]` replaces their
records.  So this is about the machine as long as page calls keep to the user half.
-/
import RaspiOS.InRam

set_option autoImplicit false

namespace RaspiOS

/-- The fields of an environment the law protects: its status, its identity, its directory, its
fault handler and its mailbox. -/
def Env.guarded (v : Env) : EnvStatus × List Nat :=
  (v.envStatus, [v.envId, v.envParentId, v.envPgdir, v.envPgfaultHandler, v.envXstacktop,
    v.envIpcValue, v.envIpcFrom, v.envIpcRecving, v.envIpcDstva, v.envIpcPerm])

/-- The calls the law is about. -/
def Syscall.NamesEnv : Syscall → Prop
  | .envDestroy _ | .setPgfaultHandler _ _ _ | .memAlloc _ _ _ | .memMap _ _ _ _ _
  | .memUnmap _ _ | .setEnvStatus _ _ => True
  | _ => False

namespace Kernel

/-- **The law of authority** for a step from `s` to `s'` made by `c`: every other live environment
that is no child of `c` keeps its guarded fields. -/
def AuthorityKept (s s' : Kernel) (c : Slot) : Prop :=
  ∀ e, e ≠ c → (s.envs e).envStatus ≠ .free → (s.envs e).envParentId ≠ (s.envs c).envId →
    (s'.envs e).guarded = (s.envs e).guarded

/-- The call gives no new status to an environment out of the caller's authority. -/
def StatusWithinAuthority (s : Kernel) (c : Slot) : Syscall → Prop
  | .setEnvStatus envid w => ∀ st e, EnvStatus.ofWord w = some st →
      s.envid2env envid false = some e → e ≠ c → (s.envs e).envParentId ≠ (s.envs c).envId →
      (s.envs e).envStatus = st
  | _ => True

/-- **What the permission test grants**: the caller itself and its children. -/
theorem resolve_checked {s : Kernel} {envid : Nat} {e c : Slot}
    (h : s.envid2env envid true = some e) (hc : s.curenv = some c) :
    e = c ∨ (s.envs e).envParentId = (s.envs c).envId := by
  unfold envid2env at h
  split at h
  · rw [hc] at h
    cases h
    exact Or.inl rfl
  · dsimp only at h
    split at h
    · cases h
    · split at h
      · cases h
      · rename_i hperm
        cases h
        by_cases he : envx envid = c
        · exact Or.inl he
        · right
          by_contra hp
          refine hperm ⟨rfl, ?_, ?_⟩
          · rw [hc]
            exact fun hk => he (Option.some.inj hk).symm
          · rw [hc]
            exact fun hk => hp (Option.some.inj hk).symm

/-- Running an environment touches no guarded field. -/
theorem guarded_envRun (s : Kernel) (n e : Slot) :
    ((s.envRun n).envs e).guarded = (s.envs e).guarded := by
  rw [envs_envRun]
  rfl

/-- When the law holds, with the records out of reach. -/
theorem authorityKept_iff {s s' : Kernel} {c : Slot} {r : Regs} {call : Syscall}
    (hc : s.curenv = some c) (hcall : call.NamesEnv) (h : s.step (.svc r call) = .ok s') :
    AuthorityKept s s' c ↔ StatusWithinAuthority s c call := by
  have hout : ∀ {envid : Nat} {e e' : Slot}, s.envid2env envid true = some e → e' ≠ c →
      (s.envs e').envParentId ≠ (s.envs c).envId → e' ≠ e := by
    intro envid e e' hres hne hpar he
    subst he
    rcases resolve_checked hres hc with h1 | h1
    · exact hne h1
    · exact hpar h1
  cases step_cases h with
  | quiet phys kf tf =>
    refine ⟨fun _ => ?_, fun _ e _ _ _ => rfl⟩
    cases call <;> try trivial
    -- a status call that changed nothing gave its target the status it had
    rename_i envid w
    intro st e hst hres _ _
    rw [step_setEnvStatus r hc hst hres] at h
    have henv := congrFun (congrArg Kernel.envs (Except.ok.inj h)) e
    rw [envs_modifyEnv_self] at henv
    exact (congrArg Env.envStatus henv).symm
  | switch kf tf pos n hy _ => cases call <;> simp [Event.Yields, Syscall.NamesEnv] at hy hcall
  | destroy phys kf tf hres _ =>
    refine ⟨fun _ => trivial, fun _ e he _ hpar => ?_⟩
    rw [envs_freed_ne _ (hout hres he hpar)]
    rfl
  | destroySelf phys kf tf pos n hres _ _ =>
    refine ⟨fun _ => trivial, fun _ e he _ hpar => ?_⟩
    rw [guarded_envRun]
    refine congrArg Env.guarded ?_
    exact envs_freed_ne _ (hout hres he hpar)
  | handler kf tf hres =>
    refine ⟨fun _ => trivial, fun _ e he _ hpar => ?_⟩
    rw [envs_modifyEnv_ne _ _ (hout hres he hpar)]
    rfl
  | fork p phys kf tf ctf st _ _ _ => exact hcall.elim
  | @setStatus _ envid w st e kf tf hst hres =>
    constructor
    · intro hkept st' e' hst' hres' hne hpar
      rw [hst] at hst'
      rw [hres] at hres'
      cases hst'
      cases hres'
      have hlive : (s.envs e).envStatus ≠ .free := by
        rcases resolve_live hres with h1 | h1
        · rw [hc] at h1
          exact absurd (Option.some.inj h1).symm hne
        · exact h1
      have h1 := congrArg Prod.fst (hkept e hne hlive hpar)
      rw [envs_modifyEnv_self] at h1
      exact h1.symm
    · intro hw e' hne _ hpar
      by_cases he : e' = e
      · subst he
        have h1 := hw st e' hst hres hne hpar
        rw [envs_modifyEnv_self, envs_relink, ← h1]
        rfl
      · rw [envs_modifyEnv_ne _ _ he, envs_relink]
        rfl
  | recv kf tf pos n _ _ _ _ => exact hcall.elim
  | send phys kf tf _ _ _ _ => exact hcall.elim

/-- **When the law holds**: for a tame call, in every state that tame steps reach. -/
theorem authority_iff {R : Records} {s s' : Kernel} {c : Slot} {r : Regs} {call : Syscall}
    (hreach : R.TameReachable s) (htame : s.Tame (.svc r call)) (hc : s.curenv = some c)
    (hcall : call.NamesEnv) (h : R.step s (.svc r call) = .ok s') :
    AuthorityKept s s' c ↔ StatusWithinAuthority s c call := by
  obtain ⟨L, base, ρ, fl, hf, hin⟩ := MachineInv.ofReachable hreach
  obtain ⟨u, _, _, hu, rfl, _⟩ := hin.step hf htame h
  have hiff := authorityKept_iff hc hcall hu
  exact hiff

/-- The law at work: one of two environments sets its own fault handler. -/
theorem authority_handler : ∃ (R : Records) (s s' : Kernel), R.TameReachable s ∧ s.curenv = some 0 ∧
    (s.envs 1).envStatus = .runnable ∧
    R.step s (.svc .zero (.setPgfaultHandler 0 1 2)) = .ok s' ∧ AuthorityKept s s' 0 := by
  obtain ⟨R, s₀, s, base, ρ, hb, _, _, hr, _, h⟩ := secondEnv_inRam
  have hreach := Records.TameReachable.ofImage hb hr
  have htame : s.Tame (.svc .zero (.setPgfaultHandler 0 1 2)) := trivial
  obtain ⟨s', hs'⟩ := step_setPgfaultHandler .zero 1 2 h.cur
  obtain ⟨hm, _⟩ := hreach.step_ok htame hs'
  exact ⟨R, s, _, hreach, h.cur, h.status 1 (Or.inr rfl), hm,
    (authority_iff hreach htame h.cur trivial hm).mpr trivial⟩

/-- **The law fails.**  Slot 0 runs, slot 1 holds an environment that `main` created and that is
no child of slot 0; `sys_set_env_status(4097, ENV_NOT_RUNNABLE)` stops it. -/
theorem authority_not_kept : ¬ ∀ (R : Records) (s s' : Kernel) (c : Slot) (r : Regs) (call : Syscall),
    R.TameReachable s → s.Tame (.svc r call) → s.curenv = some c → call.NamesEnv →
    R.step s (.svc r call) = .ok s' → AuthorityKept s s' c := by
  intro hall
  obtain ⟨R, s₀, s, base, ρ, hb, _, _, hr, _, h⟩ := secondEnv_inRam
  have hreach := Records.TameReachable.ofImage hb hr
  have hlive : (s.envs 1).envStatus ≠ .free := by
    rw [h.status 1 (Or.inr rfl)]
    simp
  have hres : s.envid2env 4097 false = some 1 :=
    envid2env_live (by decide) (by decide) h.id.2 hlive
  have hstep := step_setEnvStatus (w := 2) .zero h.cur rfl hres
  have hpar : (s.envs 1).envParentId ≠ (s.envs 0).envId := by
    rw [h.parent.2, h.id.1]
    decide
  have htame : s.Tame (.svc .zero (.setEnvStatus 4097 2)) := trivial
  obtain ⟨hm, _⟩ := hreach.step_ok htame hstep
  have hkept := hall R s _ 0 _ (.setEnvStatus 4097 2) hreach htame h.cur trivial hm 1 (by decide)
    hlive hpar
  have hst := congrArg Prod.fst hkept
  change EnvStatus.notRunnable = (s.envs 1).envStatus at hst
  rw [h.status 1 (Or.inr rfl)] at hst
  cases hst

end Kernel

end RaspiOS
