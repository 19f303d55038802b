/-
# Who runs is `RUNNABLE`

`envid2env` takes the id zero for `curenv` without asking for its status, and a handler that returns
goes back to the environment that called it.  Both are right as long as `curenv` is the environment
that executes and is `RUNNABLE`.  Of the six operations that write `env_status`, those that stop the
caller (`sys_ipc_recv`, `sys_env_destroy`) also switch away from it, with one exception:
`sys_set_env_status` returns to a caller that has just given itself `ENV_NOT_RUNNABLE` or
`ENV_FREE`.

`executing` is the history variable for the environment in user mode: it changes where `env_run` ends
in `eret`, and nowhere else.  Along runs without the exception (`NoSelfStop`) it is `curenv` and is
`RUNNABLE` (`executes_runnable`), as long as they keep to the user half: `env_status` is memory.
-/
import RaspiOS.Status

set_option autoImplicit false

namespace RaspiOS

open LinkedList

namespace Kernel

/-- The environment that executes in user mode after a step.  A handler that returns leaves it, a
switch goes to `curenv`. -/
def executing (s : Kernel) (ev : Event) (s' : Kernel) (x : Option Slot) : Option Slot :=
  match ev with
  | .svc r call =>
    match s.svc r call with
    | .ok (.eret, _) => s'.curenv
    | _ => x
  | .irq _ => s'.curenv
  | .create _ _ => x
  | .store _ _ => x

/-- **The environment that executes is `curenv` and is `RUNNABLE`**; id zero finds it; a stopped
environment does not execute. -/
structure ExecutesRunnable (s : Kernel) (x : Option Slot) : Prop where
  running : ∀ e, x = some e → s.curenv = some e ∧ (s.envs e).envStatus = .runnable
  caller : ∀ e b, x = some e → s.envid2env 0 b = some e
  stopped : ∀ e, (s.envs e).envStatus ≠ .runnable → x ≠ some e

/-- The step does not stop its caller by `sys_set_env_status`. -/
def NoSelfStop (x : Kernel × Option Slot) : Event → Prop
  | .svc _ (.setEnvStatus envid w) => ∀ st e, EnvStatus.ofWord w = some st →
      x.1.envid2env envid false = some e → x.1.curenv = some e → st = .runnable
  | _ => True

/-! ## 1. The history -/

variable {s s' : Kernel} {ev : Event} {x : Option Slot} {e : Slot}

/-- A handler that returns leaves `curenv`. -/
theorem svc_returns {r : Regs} {call : Syscall} {exit : Exit}
    (h : s.svc r call = .ok (exit, s')) : exit = .eret ∨ s'.curenv = s.curenv := by
  have hstep : s.step (.svc r call) = .ok s' := by
    simp only [step, h]
    rfl
  unfold svc at h
  split at h
  · cases h
  rename_i hcur
  cases call with
  | putchar ch => cases h; exact Or.inr rfl
  | getenvid =>
    simp only [syscall, sysGetenvid] at h
    split at h
    · cases h
    · cases h; exact Or.inr rfl
  | yield =>
    obtain ⟨u, hu, h1⟩ := Except.bind_eq_ok_iff.mp h
    cases h1
    exact Or.inl rfl
  | envDestroy envid =>
    simp only [syscall, sysEnvDestroy] at h
    split at h
    · cases h; exact Or.inr rfl
    · obtain ⟨⟨y, u⟩, hu, h1⟩ := Except.bind_eq_ok_iff.mp h
      cases h1
      obtain ⟨phys, _, ⟨hne, rfl, rfl⟩ | ⟨_, rfl, _⟩⟩ := envDestroy_ok hu
      · exact Or.inr rfl
      · exact Or.inl rfl
  | setPgfaultHandler envid func xstacktop =>
    simp only [syscall, sysSetPgfaultHandler] at h
    split at h <;> cases h <;> exact Or.inr rfl
  | memAlloc envid va perm => obtain ⟨phys, rfl, _⟩ := sysMemAlloc_ok h; exact Or.inr rfl
  | memMap srcid srcva dstid dstva perm =>
    obtain ⟨phys, rfl, _⟩ := sysMemMap_ok h; exact Or.inr rfl
  | memUnmap envid va => obtain ⟨phys, rfl, _⟩ := sysMemUnmap_ok h; exact Or.inr rfl
  | envAlloc =>
    simp only [syscall, sysEnvAlloc] at h
    split at h
    · cases h
    · obtain ⟨⟨o, u⟩, hu, h1⟩ := Except.bind_eq_ok_iff.mp h
      have ht : s' = u := by
        rcases o with v | e <;> cases h1 <;> rfl
      subst ht
      rcases forkEnv_ok hu with ⟨_, rfl, _⟩ | ⟨_, _, _, _, _, _, _, _, _, rfl⟩ <;> exact Or.inr rfl
  | setEnvStatus envid w =>
    simp only [syscall, sysSetEnvStatus] at h
    split at h
    · cases h; exact Or.inr rfl
    · rename_i st hw
      split at h
      · cases h; exact Or.inr rfl
      · rename_i e hres
        exact Or.inr (stat_setEnvStatus hw hres hstep).2.cur
  | setTrapframe envid tf => cases h
  | panic msg => cases h; exact Or.inr rfl
  | ipcCanSend envid value srcva perm =>
    obtain ⟨c, phys, _, _, ⟨_, rfl⟩ | ⟨e, _, _, _, _, rfl⟩⟩ := sysIpcCanSend_ok h <;>
      exact Or.inr rfl
  | ipcRecv dstva =>
    simp only [syscall, sysIpcRecv] at h
    split at h
    · cases h
    · split at h
      · cases h; exact Or.inr rfl
      · obtain ⟨u, hu, h1⟩ := Except.bind_eq_ok_iff.mp h
        cases h1
        exact Or.inl rfl

/-- **Who executes is `curenv`**, step by step. -/
theorem executing_eq (hx : x = s.curenv) (h : s.step ev = .ok s') :
    executing s ev s' x = s'.curenv := by
  have hsame : (∀ r call, ev ≠ .svc r call) → (∀ r, ev ≠ .irq r) → s'.curenv = s.curenv := by
    intro hsvc hirq
    cases step_stat h with
    | stay _ hsame => exact hsame.cur
    | take _ _ _ _ hcur _ _ => exact hcur
    | run hy =>
      cases ev with
      | create _ _ => exact hy.elim
      | svc r call => exact absurd rfl (hsvc r call)
      | irq r => exact absurd rfl (hirq r)
      | store _ _ => exact hy.elim
    | free | freeSelf | set | recv | send => exact absurd rfl (hsvc _ _)
  cases ev with
  | create binary priority => exact hx.trans (hsame (by simp) (by simp)).symm
  | store va w => exact hx.trans (hsame (by simp) (by simp)).symm
  | irq r => rfl
  | svc r call =>
    obtain ⟨⟨exit, t⟩, hs, rfl⟩ := Except.map_eq_ok_iff.mp h
    simp only [executing, hs]
    split
    · rfl
    · rename_i hne
      rcases svc_returns hs with rfl | hcur
      · exact absurd rfl (hne t)
      · exact hx.trans hcur.symm

/-! ## 2. The invariant -/

/-- Who runs is `RUNNABLE`, and what is on the free list is free. -/
structure RunInv (s : Kernel) (x : Option Slot) : Prop where
  exec : x = s.curenv
  runnable : ∀ e, s.curenv = some e → (s.stat e).1 = .runnable
  list : ∃ fl, IsList s.envFreeList () fl ∧ ∀ e ∈ fl, (s.stat e).1 = .free

namespace RunInv

theorem ofBoot {L : Layout} (h : EnvBoot L s) : RunInv s none where
  exec := h.curenv.symm
  runnable := by
    intro e he
    rw [h.curenv] at he
    cases he
  list := by
    refine ⟨_, h.free, fun e _ => ?_⟩
    simp only [stat, h.envs e]
    rfl

/-- What `envid2env` finds is in use. -/
theorem resolved (h : RunInv s x) {envid : Nat} {b : Bool} (hres : s.envid2env envid b = some e) :
    (s.stat e).1 ≠ .free := by
  rcases resolve_live hres with hc | hlive
  · rw [h.runnable e hc]
    simp
  · exact hlive

/-- A slot that is written while it is in use is not on the list. -/
theorem list_update (h : RunInv s x) {y : EnvStatus × Nat} (he : (s.stat e).1 ≠ .free)
    (hstat : s'.stat = Function.update s.stat e y) (hlist : s'.envFreeList = s.envFreeList) :
    ∃ fl, IsList s'.envFreeList () fl ∧ ∀ e ∈ fl, (s'.stat e).1 = .free := by
  obtain ⟨fl, hl, hfree⟩ := h.list
  refine ⟨fl, hlist ▸ hl, fun e' he' => ?_⟩
  have hne : e' ≠ e := by
    rintro rfl
    exact he (hfree e' he')
  rw [hstat, Function.update_of_ne hne]
  exact hfree e' he'

/-- `env_free` puts a slot that was in use in front of the list. -/
theorem list_free (h : RunInv s x) (he : (s.stat e).1 ≠ .free)
    (hstat : s'.stat = Function.update s.stat e (.free, (s.stat e).2))
    (hlist : s'.envFreeList = s.envFreeList.insertHead () e) :
    ∃ fl, IsList s'.envFreeList () fl ∧ ∀ e ∈ fl, (s'.stat e).1 = .free := by
  obtain ⟨fl, hl, hfree⟩ := h.list
  refine ⟨e :: fl, ?_, fun e' he' => ?_⟩
  · rw [hlist]
    exact hl.insertHead fun hmem => he (hfree e hmem)
  · rw [hstat]
    rcases eq_or_ne e' e with rfl | hne
    · rw [Function.update_self]
    · rw [Function.update_of_ne hne]
      exact hfree e' ((List.mem_cons.mp he').resolve_left hne)

/-- A slot that runs on keeps its status when another slot is written. -/
theorem runnable_update (h : RunInv s x) {y : EnvStatus × Nat} {c : Slot}
    (hstat : s'.stat = Function.update s.stat e y) (hcur : s'.curenv = s.curenv)
    (hy : s.curenv = some e → y.1 = .runnable) (hc : s'.curenv = some c) :
    (s'.stat c).1 = .runnable := by
  rw [hcur] at hc
  rw [hstat]
  rcases eq_or_ne c e with rfl | hne
  · rw [Function.update_self]
    exact hy hc
  · rw [Function.update_of_ne hne]
    exact h.runnable c hc

/-- **A step that does not stop its caller keeps the invariant.** -/
theorem step (h : RunInv s x) (hg : NoSelfStop (s, x) ev) (hst : s.step ev = .ok s') :
    RunInv s' (executing s ev s' x) := by
  have hexec := executing_eq h.exec hst
  have hturn : ∀ {n c : Slot}, TurnTo s s' n → (s'.stat n).1 = .runnable → s'.curenv = some c →
      (s'.stat c).1 = .runnable := by
    intro n c hturn hn hc
    cases hturn.cur.symm.trans hc
    exact hn
  cases step_stat hst with
  | stay hstat hsame =>
    refine ⟨hexec, fun c hc => ?_, ?_⟩
    · rw [hstat]
      exact h.runnable c (hsame.cur.symm.trans hc)
    · rw [hstat, hsame.list]
      exact h.list
  | @take _ _ a st hev hf hst' hstat hcur hnext hlist =>
    obtain ⟨fl, hl, hfree⟩ := h.list
    obtain ⟨fl, rfl⟩ := hl.eq_cons hf
    have ha := hfree a List.mem_cons_self
    refine ⟨hexec, fun c hc => h.runnable_update hstat hcur (fun hca => ?_) hc, fl, ?_, ?_⟩
    · cases (h.runnable a hca).symm.trans ha
    · rw [hlist]
      exact hl.remove_head
    · intro e he
      have hne : e ≠ a := by
        rintro rfl
        exact (List.nodup_cons.mp hl.nodup).1 he
      rw [hstat, Function.update_of_ne hne]
      exact hfree e (List.mem_cons_of_mem a he)
  | run hy hn hstat ht hlist =>
    refine ⟨hexec, fun c hc => hturn ht (by rw [hstat]; exact hn) hc, ?_⟩
    rw [hstat, hlist]
    exact h.list
  | @free _ _ _ a hres hc hstat hcur hnext hlist =>
    exact ⟨hexec, fun c hc' => h.runnable_update hstat hcur (fun hca => absurd hca hc) hc',
      h.list_free (h.resolved hres) hstat hlist⟩
  | @freeSelf _ _ _ a n hres hc hne hn hstat ht hlist =>
    refine ⟨hexec, fun c hc' => hturn ht ?_ hc', h.list_free (h.resolved hres) hstat hlist⟩
    rw [hstat, Function.update_of_ne hne]
    exact hn
  | @set r envid w _ st a hw hres hstat hsame =>
    exact ⟨hexec, fun c hc => h.runnable_update hstat hsame.cur (hg st a hw hres) hc,
      h.list_update (h.resolved hres) hstat hsame.list⟩
  | @recv r dstva _ c n hd hc hne hn hstat ht hlist =>
    refine ⟨hexec, fun c' hc' => hturn ht ?_ hc', h.list_update ?_ hstat hlist⟩
    · rw [hstat, Function.update_of_ne hne]
      exact hn
    · rw [h.runnable c hc]
      simp
  | @send r envid value srcva perm _ a hres hst' hrecv hstat hsame =>
    refine ⟨hexec, fun c hc => h.runnable_update hstat hsame.cur (fun _ => rfl) hc,
      h.list_update (h.resolved hres) hstat hsame.list⟩

/-- The table written out has the same statuses and links. -/
theorem flush (h : RunInv s x) (R : Records) : RunInv (R.flush s) x :=
  ⟨h.exec, h.runnable, h.list⟩

theorem executesRunnable (h : RunInv s x) : s.ExecutesRunnable x where
  running := by
    rintro e rfl
    exact ⟨h.exec.symm, h.runnable e h.exec.symm⟩
  caller := by
    rintro e b rfl
    rw [envid2env_zero]
    exact h.exec.symm
  stopped := by
    rintro e hst rfl
    exact hst (h.runnable e h.exec.symm)

end RunInv

/-! ## 3. Runs -/

/-- **The running environment is `RUNNABLE`** in every state that a run of tame steps reaches from
boot, if no step of it stops its caller by `sys_set_env_status`. -/
theorem executes_runnable {L : Layout} {H : ListHeads L} {ram : Mem} {R : Records} {s₀ s : Kernel}
    {x : Option Slot} {es : List Event} (hclean : CleanRam L ram)
    (hboot : bootInRam L H ram = .ok (R, s₀))
    (hr : Run (Run.recording R.step executing) (fun y ev => y.1.Tame ev ∧ NoSelfStop y ev)
      (s₀, none) es (s, x)) : s.ExecutesRunnable x :=
  (Records.invariantRecorded hclean hboot hr (RunInv.ofBoot (bootInRam_envBoot hboot))
    fun _ _ _ _ h hg hst => (h.step hg hst).flush R).executesRunnable

/-- The parent of a child executes. -/
theorem executing_child : ∃ R s₀ s es, ∃ (base n : Nat) (ρ : Nat → Role),
    bootInRam image imageHeads coldRam = .ok (R, s₀) ∧ R.TameReachable s ∧
    FirstChild base s.phys.mem n ρ s ∧
    Run (Run.recording R.step executing) (fun y ev => y.1.Tame ev ∧ NoSelfStop y ev) (s₀, none) es
      (s, some 0) := by
  obtain ⟨R, s₀, s, base, n, ρ, hb, _, _, hr, _, _, h⟩ := firstChild_inRam
  have hreach := Records.TameReachable.ofImage hb hr
  obtain ⟨x, hx⟩ := hr.recorded executing none
  have hr' : Run (Run.recording R.step executing) (fun y ev => y.1.Tame ev ∧ NoSelfStop y ev)
      (s₀, none) [.create 0x80000 1, .irq .zero, .svc .noStack .envAlloc] (s, x) := by
    refine hx.mono_of_mem fun y ev hev ht => ⟨ht, ?_⟩
    rcases List.mem_cons.mp hev with rfl | hev
    · trivial
    · rcases List.mem_pair.mp hev with rfl | rfl <;> trivial
  have hinv := Records.invariantRecorded cleanRam_coldRam hb hr'
    (RunInv.ofBoot (bootInRam_envBoot hb)) fun _ _ _ _ h hg hst => (h.step hg hst).flush R
  have hx0 : x = some 0 := hinv.exec.trans h.cur
  exact ⟨R, s₀, s, _, base, n, ρ, hb, hreach, h, hx0 ▸ hr'⟩

/-- The parent stops its child and executes on. -/
theorem executes_runnable_first : ∃ (R : Records) (s : Kernel), R.TameReachable s ∧
    (s.envs 1).envStatus = .notRunnable ∧ s.ExecutesRunnable (some 0) := by
  obtain ⟨R, s₀, s, es, base, n, ρ, hb, hreach, h, hr⟩ := executing_child
  have hres := h.resolve false
  have hst := step_setEnvStatus .zero h.cur (show EnvStatus.ofWord 2 = some .notRunnable from rfl) hres
  obtain ⟨hstat, hsame⟩ := stat_setEnvStatus rfl hres hst
  have htame : s.Tame (.svc .zero (.setEnvStatus 4097 2)) := trivial
  have hguard : NoSelfStop (s, some 0) (.svc .zero (.setEnvStatus 4097 2)) := by
    intro st e _ hres' hc
    cases hres.symm.trans hres'
    cases h.cur.symm.trans hc
  obtain ⟨hm, hreach'⟩ := hreach.step_ok htame hst
  have hself := congrArg Prod.fst (congrFun hstat 1)
  rw [Function.update_self] at hself
  have hlaw := executes_runnable cleanRam_coldRam hb
    (hr.snoc ⟨htame, hguard⟩ (Run.recording_ok executing (some 0) hm))
  have hexec : executing s (.svc .zero (.setEnvStatus 4097 2)) _ (some 0) = some 0 :=
    (executing_eq h.cur.symm hst).trans (hsame.cur.trans h.cur)
  exact ⟨R, _, hreach', hself, hexec ▸ hlaw⟩

/-- **A stopped environment can execute.**  It calls `sys_set_env_status(0, ENV_NOT_RUNNABLE)`. -/
theorem executes_stopped : ¬ ∀ (L : Layout) (H : ListHeads L) (ram : Mem) (R : Records)
    (s₀ s : Kernel) (x : Option Slot) (es : List Event), bootInRam L H ram = .ok (R, s₀) →
    Run (Run.recording R.step executing) (fun y ev => y.1.Tame ev) (s₀, none) es (s, x) →
    s.ExecutesRunnable x := by
  intro hall
  obtain ⟨R, s₀, s, es, base, n, ρ, hb, hreach, h, hr⟩ := executing_child
  have hres : s.envid2env 0 false = some 0 := by rw [envid2env_zero, h.cur]
  have hst := step_setEnvStatus .zero h.cur (show EnvStatus.ofWord 2 = some .notRunnable from rfl) hres
  obtain ⟨hstat, hsame⟩ := stat_setEnvStatus rfl hres hst
  have htame : s.Tame (.svc .zero (.setEnvStatus 0 2)) := trivial
  obtain ⟨hm, _⟩ := hreach.step_ok htame hst
  have hlaw := hall image imageHeads coldRam R s₀ _ _ _ hb
    ((hr.mono fun _ _ hg => hg.1).snoc htame (Run.recording_ok executing (some 0) hm))
  have hexec := (executing_eq h.cur.symm hst).trans (hsame.cur.trans h.cur)
  have hself := congrArg Prod.fst (congrFun hstat 0)
  rw [Function.update_self] at hself
  have hrun := (hlaw.running 0 hexec).2
  cases hrun.symm.trans hself

end Kernel

end RaspiOS
