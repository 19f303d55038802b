/-
# The list of free environments

`env_init` links all slots, `env_alloc` takes the first one, `env_free` puts its slot back: those
are the operations that write both `env_status` and the list.  Three more write only the status.
Two of them, `sys_ipc_recv` and `sys_ipc_can_send`, move between `ENV_RUNNABLE` and
`ENV_NOT_RUNNABLE` and do no harm.  The third is `sys_set_env_status`, which accepts `ENV_FREE` as
well: the slot is then neither in use nor on the list.

So list and status agree along every run in which `sys_set_env_status` gives no `ENV_FREE`
(`envList_agrees`), and the first call that does breaks the agreement (`FreeListAgrees.lost`).  The
statuses and the links are memory of the kernel: the runs are runs of the machine of `EnvTable.lean`,
by steps that keep to the user half.
-/
import RaspiOS.InRam

set_option autoImplicit false

namespace RaspiOS

open LinkedList

namespace Kernel

/-- **The free list holds exactly the free slots**, each once, with correct links. -/
def FreeListAgrees (s : Kernel) : Prop :=
  ∃ fl, IsList s.envFreeList () fl ∧ ∀ e, e ∈ fl ↔ (s.envs e).envStatus = .free

/-- The step gives no environment the status `ENV_FREE` by `sys_set_env_status`. -/
def FreesByDestroyOnly (s : Kernel) : Event → Prop
  | .svc _ (.setEnvStatus envid w) =>
    EnvStatus.ofWord w = some .free → s.envid2env envid false = none
  | _ => True

/-! ## 1. The invariant -/

/-- The list and the statuses agree, and what runs is not free. -/
structure EnvListInv (s : Kernel) : Prop where
  agrees : s.FreeListAgrees
  cur : ∀ c, s.curenv = some c → (s.envs c).envStatus ≠ .free

namespace EnvListInv

variable {s s' : Kernel}

/-- A step that leaves the list alone and frees or revives no slot. -/
theorem keep (h : EnvListInv s) (hlist : s'.envFreeList = s.envFreeList)
    (hst : ∀ e, (s'.envs e).envStatus = .free ↔ (s.envs e).envStatus = .free)
    (hcur : ∀ c, s'.curenv = some c → (s'.envs c).envStatus ≠ .free) : EnvListInv s' := by
  obtain ⟨fl, hl, hfl⟩ := h.agrees
  exact ⟨⟨fl, hlist ▸ hl, fun e => (hfl e).trans (hst e).symm⟩, hcur⟩

/-- A step that changes the status of one slot that is in use. -/
theorem restatus (h : EnvListInv s) {e : Slot} (hlist : s'.envFreeList = s.envFreeList)
    (he : (s.envs e).envStatus ≠ .free) (he' : (s'.envs e).envStatus ≠ .free)
    (hother : ∀ e', e' ≠ e → (s'.envs e').envStatus = (s.envs e').envStatus)
    (hcur : ∀ c, s'.curenv = some c → (s.envs c).envStatus ≠ .free) : EnvListInv s' := by
  have hst : ∀ d, (s'.envs d).envStatus = .free ↔ (s.envs d).envStatus = .free := by
    intro d
    by_cases hd : d = e
    · rw [hd]
      exact ⟨fun hf => absurd hf he', fun hf => absurd hf he⟩
    · rw [hother d hd]
  exact h.keep hlist hst (fun c hc hf => hcur c hc ((hst c).mp hf))

/-- `env_alloc` takes the first slot off the list. -/
theorem take (h : EnvListInv s) {e : Slot} (hf : s.envFreeList.first () = some e)
    (hlist : s'.envFreeList = s.envFreeList.remove e) (he : (s'.envs e).envStatus ≠ .free)
    (hother : ∀ e', e' ≠ e → s'.envs e' = s.envs e') (hcur : s'.curenv = s.curenv) :
    EnvListInv s' := by
  obtain ⟨fl, hl, hfl⟩ := h.agrees
  obtain ⟨fl, rfl⟩ := hl.eq_cons hf
  have hnd := (List.nodup_cons.mp hl.nodup).1
  refine ⟨⟨fl, hlist ▸ hl.remove_head, fun e' => ?_⟩, fun c hc => ?_⟩
  · by_cases he' : e' = e
    · rw [he']
      exact ⟨fun hm => absurd hm hnd, fun hst => absurd hst he⟩
    · rw [hother e' he', ← hfl e', List.mem_cons, or_iff_right he']
  · rw [hcur] at hc
    by_cases hce : c = e
    · rw [hce]
      exact he
    · rw [hother c hce]
      exact h.cur c hc

/-- `env_free` puts a slot that was in use in front of the list. -/
theorem freed (h : EnvListInv s) {e : Slot} (he : (s.envs e).envStatus ≠ .free)
    (hlist : s'.envFreeList = (s.freed e).envFreeList)
    (henv : ∀ e', (s'.envs e').envStatus = ((s.freed e).envs e').envStatus)
    (hcur : ∀ c, s'.curenv = some c → (s'.envs c).envStatus ≠ .free) : EnvListInv s' := by
  obtain ⟨fl, hl, hfl⟩ := h.agrees
  have hnew : e ∉ fl := fun hm => he ((hfl e).mp hm)
  refine ⟨⟨e :: fl, ?_, fun e' => ?_⟩, hcur⟩
  · rw [hlist]
    exact hl.insertHead hnew
  · rw [henv e', List.mem_cons]
    by_cases he' : e' = e
    · rw [he', envs_freed_self]
      exact ⟨fun _ => rfl, fun _ => Or.inl rfl⟩
    · rw [envs_freed_ne _ he', ← hfl e', or_iff_right he']

/-- What `envid2env` finds is in use. -/
theorem resolved (h : EnvListInv s) {envid : Nat} {b : Bool} {e : Slot}
    (hres : s.envid2env envid b = some e) : (s.envs e).envStatus ≠ .free := by
  rcases resolve_live hres with hc | hst
  · exact h.cur e hc
  · exact hst

/-! ## 2. Steps -/

/-- **One step keeps the agreement**, unless it gives `ENV_FREE` by `sys_set_env_status`. -/
theorem step (h : EnvListInv s) {ev : Event} (hg : FreesByDestroyOnly s ev)
    (hst : s.step ev = .ok s') : EnvListInv s' := by
  cases step_cases hst with
  | quiet phys kf tf => exact h.keep rfl (fun _ => Iff.rfl) h.cur
  | @create _ _ e p phys kf tf hf =>
    refine h.take hf rfl ?_ ?_ rfl
    · simp [schedInsertHead, allocated, freshEnv]
    · intro e' he
      simp [schedInsertHead, allocated, modifyEnv, withMem, he]
  | @createNoMem _ _ e p phys kf tf hf =>
    refine h.take hf rfl ?_ ?_ rfl
    · simp [allocated, freshEnv]
    · intro e' he
      simp [allocated, modifyEnv, withMem, he]
  | switch kf tf pos n _ hn =>
    refine h.keep (envFreeList_envRun _ _) (fun e => by rw [envs_envRun]; exact Iff.rfl) ?_
    intro c hc
    rw [curenv_envRun] at hc
    cases hc
    rw [envs_envRun]
    change (s.envs n).envStatus ≠ .free
    rw [hn]
    simp
  | @destroy _ _ e phys kf tf hres hc =>
    refine EnvListInv.freed (s := s) h (h.resolved hres) rfl (fun _ => rfl) (fun c hc' => ?_)
    have hce : c ≠ e := fun hce => hc (hce ▸ hc')
    rw [envs_freed_ne _ hce]
    exact h.cur c hc'
  | @destroySelf _ _ e phys kf tf pos n hres hc hn =>
    refine EnvListInv.freed (s := s) (e := e) h (h.resolved hres) (envFreeList_envRun _ _)
      (fun e' => by rw [envs_envRun]; rfl) (fun c hc' => ?_)
    rw [curenv_envRun] at hc'
    cases hc'
    rw [envs_envRun]
    rw [hn]
    simp
  | @handler _ _ _ _ e kf tf hres =>
    have he := h.resolved hres
    refine h.restatus (e := e) rfl he ?_ (fun e' he' => ?_) h.cur
    · rw [envs_modifyEnv_self]
      exact he
    · rw [envs_modifyEnv_ne _ _ he']
      rfl
  | @fork _ c e p phys kf tf ctf st hc hf hst' =>
    refine h.take hf rfl ?_ ?_ rfl
    · simp [allocated, hst']
    · intro e' he
      simp [allocated, modifyEnv, withMem, he]
  | @setStatus _ envid w st e kf tf hw hres =>
    have hne : st ≠ .free := by
      rintro rfl
      rw [hg hw] at hres
      cases hres
    refine h.restatus (e := e) (envFreeList_relink _ _ _) (h.resolved hres) ?_ (fun e' he' => ?_)
      (fun c hc => h.cur c ((curenv_relink (s.withMem s.phys kf tf) e st).symm.trans hc))
    · rw [envs_modifyEnv_self]
      exact hne
    · rw [envs_modifyEnv_ne _ _ he', envs_relink]
      rfl
  | @recv _ _ c kf tf pos n hc _ hnc hn =>
    refine h.restatus (e := c) (envFreeList_envRun _ _) (h.cur c hc) ?_ (fun e' he' => ?_)
      (fun c' hc' => ?_)
    · rw [envs_envRun]
      simp [schedRemove]
    · rw [envs_envRun]
      simp [schedRemove, modifyEnv, withMem, he']
    · rw [curenv_envRun] at hc'
      cases hc'
      rw [hn]
      simp
  | @send _ _ _ _ _ c e phys kf tf _ hres _ _ =>
    refine h.restatus (e := e) rfl (h.resolved hres) ?_ (fun e' he' => ?_) h.cur
    · simp [ipcDeliver, schedInsertHead]
    · simp [ipcDeliver, schedInsertHead, modifyEnv, withMem, he']

end EnvListInv

/-- The table written out is the same table. -/
theorem EnvListInv.flush {s : Kernel} (h : EnvListInv s) (R : Records) : EnvListInv (R.flush s) :=
  ⟨h.agrees, h.cur⟩

/-! ## 3. Runs -/

/-- The list after `env_init`. -/
theorem EnvListInv.ofBoot {L : Layout} {s : Kernel} (h : EnvBoot L s) : EnvListInv s := by
  refine ⟨⟨List.finRange 1024, h.free, fun e => ?_⟩, fun c hc => ?_⟩
  · rw [h.envs e]
    exact ⟨fun _ => rfl, fun _ => List.mem_finRange e⟩
  · rw [h.curenv] at hc
    cases hc

/-- **The free list agrees with the statuses** in every state that a run of tame steps reaches from
boot, if `sys_set_env_status` gives no `ENV_FREE` in it. -/
theorem envList_agrees {L : Layout} {H : ListHeads L} {ram : Mem} {R : Records} {s₀ s : Kernel}
    {es : List Event} (hclean : CleanRam L ram) (hboot : bootInRam L H ram = .ok (R, s₀))
    (hr : Run R.step (fun t ev => t.Tame ev ∧ FreesByDestroyOnly t ev) s₀ es s) :
    s.FreeListAgrees :=
  (Records.invariant hclean hboot hr (EnvListInv.ofBoot (bootInRam_envBoot hboot))
    fun _ _ _ h hg hst => (h.step hg hst).flush R).agrees

/-- The first environment forks, gives its child a status and destroys it: its slot is on the list
again. -/
theorem envList_agrees_first : ∃ (R : Records) (s : Kernel), R.TameReachable s ∧
    s.curenv = some 0 ∧ (s.envs 1).envStatus = .free ∧ s.FreeListAgrees := by
  obtain ⟨R, s₀, s, base, n, ρ, hb, hf, _, hr, _, hsync, h⟩ := firstChild_inRam
  have hreach := Records.TameReachable.ofImage hb hr
  have hr' : Run R.step (fun t ev => t.Tame ev ∧ FreesByDestroyOnly t ev) s₀
      [.create 0x80000 1, .irq .zero, .svc .noStack .envAlloc] s := by
    refine hr.mono_of_mem fun t ev hev ht => ⟨ht, ?_⟩
    rcases List.mem_cons.mp hev with rfl | hev
    · trivial
    · rcases List.mem_pair.mp hev with rfl | rfl <;> trivial
  -- a status that is not `ENV_FREE`
  obtain ⟨s₁, hs₁, h₁⟩ := h.enqueue
  have htame₁ : s.Tame (.svc .zero (.setEnvStatus 4097 1)) := trivial
  have hguard₁ : FreesByDestroyOnly s (.svc .zero (.setEnvStatus 4097 1)) := fun hw => by cases hw
  obtain ⟨hm₁, hreach₁⟩ := hreach.step_ok htame₁ hs₁
  -- `env_free` puts the slot back
  have hf₁ := h₁.flush hf
  obtain ⟨htame₂, hs₂⟩ := hf₁.destroy
  obtain ⟨hm₂, hreach₂⟩ := hreach₁.step_ok htame₂ hs₂
  refine ⟨R, _, hreach₂, hf₁.cur, ?_, envList_agrees cleanRam_coldRam hb
    ((hr'.snoc ⟨htame₁, hguard₁⟩ hm₁).snoc ⟨htame₂, trivial⟩ hm₂)⟩
  exact congrArg Env.envStatus (envs_freed_self _ 1)

/-- **The agreement is lost** by the first call that gives `ENV_FREE` to an environment in use. -/
theorem FreeListAgrees.lost {s s' : Kernel} {c e : Slot} {r : Regs} {envid w : Nat}
    (h : s.FreeListAgrees) (hc : s.curenv = some c) (hw : EnvStatus.ofWord w = some .free)
    (hres : s.envid2env envid false = some e) (hlive : (s.envs e).envStatus ≠ .free)
    (hst : s.step (.svc r (.setEnvStatus envid w)) = .ok s') : ¬ s'.FreeListAgrees := by
  rw [step_setEnvStatus r hc hw hres] at hst
  cases hst
  obtain ⟨fl, hl, hfl⟩ := h
  rintro ⟨fl', hl', hfl'⟩
  have heq : fl' = fl := hl'.unique ((envFreeList_relink _ _ _).symm ▸ hl)
  refine hlive ((hfl e).mp (heq ▸ (hfl' e).mpr ?_))
  rw [envs_modifyEnv_self]

/-- **The free list does not agree in every state that tame steps reach.**  The only environment calls
`sys_set_env_status(0, ENV_FREE)`. -/
theorem envList_disagrees : ¬ ∀ (R : Records) (s : Kernel), R.TameReachable s → s.FreeListAgrees := by
  intro hall
  obtain ⟨R, s₀, s, base, n, ρ, hb, _, _, hr, _, _, h⟩ := firstEnv_inRam
  have hreach := Records.TameReachable.ofImage hb hr
  have hres : s.envid2env 0 false = some 0 := by rw [envid2env_zero, h.cur]
  have hstep := step_setEnvStatus (w := 0) .zero h.cur rfl hres
  have htame : s.Tame (.svc .zero (.setEnvStatus 0 0)) := trivial
  have hagree := hall R _ (hreach.step_ok htame hstep).2
  exact (hall R s hreach).lost h.cur rfl hres (by rw [h.status]; simp) hstep hagree

end Kernel

end RaspiOS
