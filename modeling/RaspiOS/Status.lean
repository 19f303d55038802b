/-
# Status, receive flag, and who runs

`env_status` and `env_ipc_recving` are written by six operations, some for the caller and some for
another environment.  `StatStep` projects the cases of a step (`step_cases`) to these two fields, to
`curenv` and to the list of free environments: each operation rewrites one slot, and the statement
says which one and with what.  Everything about who runs and who waits is derived from it.
-/
import RaspiOS.EnvId

set_option autoImplicit false

namespace RaspiOS

open LinkedList

namespace Kernel

/-- `env_status` and `env_ipc_recving` of a slot. -/
def stat (s : Kernel) (e : Slot) : EnvStatus × Nat :=
  ((s.envs e).envStatus, (s.envs e).envIpcRecving)

/-- The same slot runs, no id was given, and the list of free environments is the same. -/
structure SameTurn (s s' : Kernel) : Prop where
  cur : s'.curenv = s.curenv
  next : s'.nextEnvId = s.nextEnvId
  list : s'.envFreeList = s.envFreeList

/-- Slot `n` runs now; no id was given. -/
structure TurnTo (s s' : Kernel) (n : Slot) : Prop where
  cur : s'.curenv = some n
  next : s'.nextEnvId = s.nextEnvId

/-- **What a step does to the two fields.** -/
inductive StatStep (s : Kernel) : Event → Kernel → Prop
  /-- nothing -/
  | stay {ev : Event} {s' : Kernel} : s'.stat = s.stat → SameTurn s s' → StatStep s ev s'
  /-- `env_alloc` takes a slot and leaves the receive flag of its last owner -/
  | take {ev : Event} {s' : Kernel} {e : Slot} {st : EnvStatus} :
      ev.allocates = true → s.envFreeList.first () = some e → st ≠ .free →
      s'.stat = Function.update s.stat e (st, (s.stat e).2) → s'.curenv = s.curenv →
      s'.nextEnvId = s.nextCounter → s'.envFreeList = s.envFreeList.remove e → StatStep s ev s'
  /-- the scheduler chooses a `RUNNABLE` slot -/
  | run {ev : Event} {s' : Kernel} {n : Slot} :
      ev.Yields → (s.stat n).1 = .runnable → s'.stat = s.stat → TurnTo s s' n →
      s'.envFreeList = s.envFreeList → StatStep s ev s'
  /-- `env_free` of another environment -/
  | free {r : Regs} {envid : Nat} {s' : Kernel} {e : Slot} :
      s.envid2env envid true = some e → s.curenv ≠ some e →
      s'.stat = Function.update s.stat e (.free, (s.stat e).2) → s'.curenv = s.curenv →
      s'.nextEnvId = s.nextEnvId → s'.envFreeList = s.envFreeList.insertHead () e →
      StatStep s (.svc r (.envDestroy envid)) s'
  /-- `env_free` of the caller, and another one runs -/
  | freeSelf {r : Regs} {envid : Nat} {s' : Kernel} {e n : Slot} :
      s.envid2env envid true = some e → s.curenv = some e → n ≠ e → (s.stat n).1 = .runnable →
      s'.stat = Function.update s.stat e (.free, (s.stat e).2) → TurnTo s s' n →
      s'.envFreeList = s.envFreeList.insertHead () e → StatStep s (.svc r (.envDestroy envid)) s'
  /-- `sys_set_env_status` -/
  | set {r : Regs} {envid w : Nat} {s' : Kernel} {st : EnvStatus} {e : Slot} :
      EnvStatus.ofWord w = some st → s.envid2env envid false = some e →
      s'.stat = Function.update s.stat e (st, (s.stat e).2) → SameTurn s s' →
      StatStep s (.svc r (.setEnvStatus envid w)) s'
  /-- `sys_ipc_recv` blocks the caller, and another one runs -/
  | recv {r : Regs} {dstva : Nat} {s' : Kernel} {c n : Slot} :
      dstva < utop → s.curenv = some c → n ≠ c → (s.stat n).1 = .runnable →
      s'.stat = Function.update s.stat c (.notRunnable, 1) → TurnTo s s' n →
      s'.envFreeList = s.envFreeList → StatStep s (.svc r (.ipcRecv dstva)) s'
  /-- `sys_ipc_can_send` wakes a receiver -/
  | send {r : Regs} {envid value srcva perm : Nat} {s' : Kernel} {e : Slot} :
      s.envid2env envid false = some e → s.stat e = (.notRunnable, (s.stat e).2) →
      (s.stat e).2 ≠ 0 → s'.stat = Function.update s.stat e (.runnable, 0) → SameTurn s s' →
      StatStep s (.svc r (.ipcCanSend envid value srcva perm)) s'

/-! ## 1. The operations -/

/-- A step that writes one slot rewrites its two fields. -/
theorem stat_update {s s' : Kernel} {e : Slot} {x : EnvStatus × Nat} (hself : s'.stat e = x)
    (hother : ∀ e', e' ≠ e → s'.stat e' = s.stat e') : s'.stat = Function.update s.stat e x := by
  funext e'
  rcases eq_or_ne e' e with rfl | hne
  · rw [Function.update_self, hself]
  · rw [Function.update_of_ne hne, hother e' hne]

theorem stat_modifyEnv (s : Kernel) (e : Slot) (f : Env → Env) : (s.modifyEnv e f).stat
    = Function.update s.stat e ((f (s.envs e)).envStatus, (f (s.envs e)).envIpcRecving) := by
  refine stat_update ?_ fun e' hne => ?_
  · simp [stat]
  · simp [stat, envs_modifyEnv_ne _ _ hne]

@[simp] theorem stat_envRun (s : Kernel) (n : Slot) : (s.envRun n).stat = s.stat := by
  funext e
  simp only [stat, envs_envRun]

@[simp] theorem stat_relink (s : Kernel) (e : Slot) (st : EnvStatus) :
    (s.relink e st).stat = s.stat := by
  funext e'
  simp only [stat, envs_relink]

theorem stat_freed (s : Kernel) (e : Slot) :
    (s.freed e).stat = Function.update s.stat e (.free, (s.stat e).2) := by
  refine stat_update ?_ fun e' hne => ?_
  · simp only [stat, envs_freed_self]
  · simp only [stat, envs_freed_ne _ hne]

/-- **Every step is one of the cases.** -/
theorem step_stat {s s' : Kernel} {ev : Event} (h : s.step ev = .ok s') : StatStep s ev s' := by
  cases step_cases h with
  | quiet phys kf tf => exact .stay rfl ⟨rfl, rfl, rfl⟩
  | @create _ _ e p phys kf tf hf =>
    refine .take rfl hf (show EnvStatus.runnable ≠ .free by simp)
      (stat_update ?_ fun e' hne => ?_) rfl rfl rfl
    · simp [stat, schedInsertHead, allocated, freshEnv, withMem]
    · simp [stat, schedInsertHead, allocated, modifyEnv, withMem, hne]
  | @createNoMem _ _ e p phys kf tf hf =>
    exact .take rfl hf (show EnvStatus.runnable ≠ .free by simp) (stat_modifyEnv _ e _) rfl rfl rfl
  | switch kf tf pos n hy hn =>
    exact .run hy hn (stat_envRun _ _) ⟨curenv_envRun _ _, nextEnvId_envRun _ _⟩
      (envFreeList_envRun _ _)
  | @destroy _ _ e phys kf tf hres hc => exact .free hres hc (stat_freed _ _) rfl rfl rfl
  | @destroySelf _ _ e phys kf tf pos n hres hc hn =>
    have hne : n ≠ e := by
      rintro rfl
      rw [envs_freed_self] at hn
      cases hn
    rw [envs_freed_ne _ hne] at hn
    refine .freeSelf hres hc hne hn ?_ ⟨curenv_envRun _ _, ?_⟩ (envFreeList_envRun _ _)
    · rw [stat_envRun]
      exact stat_freed _ _
    · rw [nextEnvId_envRun]
      rfl
  | @handler _ _ _ _ e kf tf hres =>
    refine .stay ?_ ⟨rfl, rfl, rfl⟩
    rw [stat_modifyEnv]
    exact Function.update_eq_self e s.stat
  | @fork _ c e p phys kf tf ctf st hc hf hst =>
    refine .take rfl hf hst (stat_update ?_ fun e' hne => ?_) rfl rfl rfl
    · simp [stat, allocated, freshEnv, withMem]
    · simp [stat, allocated, modifyEnv, withMem, hne]
  | @setStatus _ envid w st e kf tf hw hres =>
    refine .set hw hres ?_ ⟨curenv_relink _ _ _, nextEnvId_relink _ _ _, envFreeList_relink _ _ _⟩
    rw [stat_modifyEnv, stat_relink, envs_relink]
    rfl
  | @recv _ _ c kf tf pos n hc hd hne hn =>
    refine .recv hd hc hne hn ?_ ⟨curenv_envRun _ _, nextEnvId_envRun _ _⟩
      (envFreeList_envRun _ _)
    rw [stat_envRun]
    refine stat_update ?_ fun e' hne' => ?_
    · simp [stat, schedRemove]
    · simp [stat, schedRemove, modifyEnv, withMem, hne']
  | @send _ _ _ _ _ c e phys kf tf hc hres hst hrecv =>
    refine .send hres (Prod.ext hst rfl) hrecv (stat_update ?_ fun e' hne => ?_) ⟨rfl, rfl, rfl⟩
    · simp [stat, ipcDeliver, schedInsertHead]
    · simp [stat, ipcDeliver, schedInsertHead, modifyEnv, withMem, hne]

/-! ## 2. Two calls that succeed -/

/-- `sys_set_env_status` with a status and a target. -/
theorem stat_setEnvStatus {s s' : Kernel} {r : Regs} {envid w : Nat} {st : EnvStatus} {e : Slot}
    (hw : EnvStatus.ofWord w = some st) (hres : s.envid2env envid false = some e)
    (h : s.step (.svc r (.setEnvStatus envid w)) = .ok s') :
    s'.stat = Function.update s.stat e (st, (s.stat e).2) ∧ SameTurn s s' := by
  obtain ⟨⟨x, t⟩, hs, _⟩ := Except.map_eq_ok_iff.mp h
  unfold svc at hs
  split at hs
  · cases hs
  rename_i hcur
  obtain ⟨c, hc⟩ := Option.ne_none_iff_exists'.mp hcur
  rw [step_setEnvStatus r hc hw hres] at h
  cases h
  refine ⟨?_, curenv_relink _ _ _, nextEnvId_relink _ _ _, envFreeList_relink _ _ _⟩
  rw [stat_modifyEnv, stat_relink, envs_relink]
  rfl

/-- `sys_ipc_recv` when another environment can run. -/
theorem step_ipcRecv {s : Kernel} {c e : Slot} (r : Regs) {dstva : Nat} (hc : s.curenv = some c)
    (hd : dstva < utop) (hne : e ≠ c) (he : (s.envs e).envStatus = .runnable) :
    ∃ s' n, s.step (.svc r (.ipcRecv dstva)) = .ok s' ∧ n ≠ c ∧ (s.stat n).1 = .runnable ∧
      s'.stat = Function.update s.stat c (.notRunnable, 1) ∧ TurnTo s s' n ∧
      ∀ e', (s'.envs e').envId = (s.envs e').envId := by
  have hcur : s.curenv ≠ none := by rw [hc]; simp
  let s₁ : Kernel := { ({ s with kernelFrame := saveall syncStack r }.modifyEnv c fun v =>
      { v with envStatus := .notRunnable, envIpcRecving := 1,
               envIpcDstva := dstva }).schedRemove c with timeFrame := saveall syncStack r }
  have hstat : s₁.stat = Function.update s.stat c (.notRunnable, 1) := by
    refine stat_update ?_ fun e' hne' => ?_
    · simp [s₁, stat, schedRemove]
    · simp [s₁, stat, schedRemove, modifyEnv, hne']
  have he₁ : (s₁.envs e).envStatus = .runnable := by
    have h1 := congrFun hstat e
    rw [Function.update_of_ne hne] at h1
    exact (congrArg Prod.fst h1).trans he
  obtain ⟨s', hs'⟩ := schedYield_total he₁
  obtain ⟨pos, n, hn, rfl⟩ := schedYield_ok hs'
  have hnc : n ≠ c := by
    rintro rfl
    have h1 := congrArg Prod.fst (congrFun hstat n)
    rw [Function.update_self] at h1
    cases hn.symm.trans h1
  have hnr : (s.stat n).1 = .runnable := by
    have h1 := congrFun hstat n
    rw [Function.update_of_ne hnc] at h1
    rw [← h1]
    exact hn
  have hsys : ({ s with kernelFrame := saveall syncStack r } : Kernel).sysIpcRecv dstva
      = s₁.schedYield >>= fun k => pure (Exit.eret, k) := by
    unfold sysIpcRecv
    split
    · rename_i hnone
      cases hc.symm.trans hnone
    · rename_i c' hc'
      cases hc.symm.trans hc'
      rw [if_neg (not_le.mpr hd)]
      rfl
  refine ⟨{ s₁ with pos := pos }.envRun n, n, ?_, hnc, hnr, ?_,
    ⟨curenv_envRun _ _, nextEnvId_envRun _ _⟩, fun e' => ?_⟩
  · simp only [step, svc, if_neg hcur, syscall, hsys]
    rw [hs']
    rfl
  · rw [stat_envRun]
    exact hstat
  · rw [envs_envRun]
    by_cases he' : e' = c <;> simp [s₁, schedRemove, modifyEnv, he']

end Kernel

end RaspiOS
