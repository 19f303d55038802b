/-
# The scheduling lists

`sched_yield` walks the environment table, so nothing but the list macros themselves ever reads
`env_sched_list`.  The lists still have a discipline: an environment is linked exactly while it is
`ENV_RUNNABLE`, except that `sys_env_alloc` leaves a `RUNNABLE` child unlinked until somebody calls
`sys_set_env_status` for it.  `queue.h` does not clear links on removal, so a `LIST_REMOVE` on an
unlinked environment writes through a stale pointer.

The exception makes the discipline a property of the past.  `unqueued` is the history variable that
says for which environments no list macro has run since `env_alloc` returned them, and `Queued` is
what the rest of the kernel takes for "linked": `RUNNABLE`, and some list macro has run.  A call
obeys the discipline (`KeepsQueue`) if it blocks, stops or destroys only what is queued and makes
`RUNNABLE` only what is not.  Nothing in the code enforces that; along runs that obey it the lists
are well formed and every macro is applied as it should be (`sched_discipline`).  The links are memory
of the kernel: the runs are runs of the machine of `EnvTable.lean`, by steps that keep to the user half.
-/
import RaspiOS.EnvId

set_option autoImplicit false

namespace RaspiOS

open LinkedList

/-- The environment a list macro is applied to. -/
def SchedOp.target : SchedOp → Slot
  | .remove e _ => e
  | .insertHead _ e _ => e

/-- The macro was applied as it should be: `LIST_REMOVE` to something linked, `LIST_INSERT_HEAD` to
something that is not. -/
def SchedOp.Proper : SchedOp → Prop
  | .remove e l => ∃ i, OnChain l (.head i) e
  | .insertHead _ e l => ¬ ∃ i, OnChain l (.head i) e

namespace Kernel

/-- **The discipline of the scheduling lists**: every macro so far was applied properly, and both
lists are finite, duplicate-free, disjoint, and have correct back links. -/
def SchedDiscipline (s : Kernel) : Prop :=
  (∀ op ∈ s.schedLog, op.Proper) ∧ ∃ as : Fin 2 → List Slot, AreLists s.envSched as

/-! ## 1. The history variable -/

/-- The list macros run in the step from `s` to `s'`, newest first. -/
def newOps (s s' : Kernel) : List SchedOp :=
  s'.schedLog.take (s'.schedLog.length - s.schedLog.length)

/-- How a step updates the set of environments no list macro has run for since `env_alloc` returned
them. -/
def unqueued (s s' : Kernel) (fresh : Slot → Bool) (e : Slot) : Bool :=
  if (newOps s s').any (fun op => decide (op.target = e)) then false
  else if s'.nextEnvId ≠ s.nextEnvId ∧ s.envFreeList.first () = some e then true
  else fresh e

/-- What the kernel takes for linked. -/
def Queued (s : Kernel) (fresh : Slot → Bool) (e : Slot) : Prop :=
  (s.envs e).envStatus = .runnable ∧ fresh e = false

/-- The call blocks, stops or destroys only what is queued, and makes `RUNNABLE` only what is
not. -/
def KeepsQueue (x : Kernel × (Slot → Bool)) : Event → Prop
  | .svc _ (.envDestroy envid) => ∀ e, x.1.envid2env envid true = some e → x.1.Queued x.2 e
  | .svc _ (.ipcRecv dstva) => dstva < utop → ∀ c, x.1.curenv = some c → x.1.Queued x.2 c
  | .svc _ (.setEnvStatus envid w) => ∀ st e, EnvStatus.ofWord w = some st →
      x.1.envid2env envid false = some e →
      if st = .runnable then ¬ x.1.Queued x.2 e
      else (x.1.envs e).envStatus = st ∨ x.1.Queued x.2 e
  | _ => True

/-- What is not queued may be made `RUNNABLE`. -/
theorem KeepsQueue.enqueue {s : Kernel} {fresh : Slot → Bool} {r : Regs} {envid : Nat} {e : Slot}
    (hres : s.envid2env envid false = some e) (hfresh : fresh e = true) :
    KeepsQueue (s, fresh) (.svc r (.setEnvStatus envid 1)) := by
  intro st e' hst hres'
  cases hst
  cases hres.symm.trans hres'
  rw [if_pos rfl]
  rintro ⟨_, hq⟩
  cases hfresh.symm.trans hq

/-- What is queued may be destroyed. -/
theorem KeepsQueue.destroy {s : Kernel} {fresh : Slot → Bool} {r : Regs} {envid : Nat} {e : Slot}
    (hres : s.envid2env envid true = some e) (hq : s.Queued fresh e) :
    KeepsQueue (s, fresh) (.svc r (.envDestroy envid)) := by
  intro e' hres'
  cases hres.symm.trans hres'
  exact hq

theorem newOps_nil {s s' : Kernel} (h : s'.schedLog = s.schedLog) : newOps s s' = [] := by
  simp [newOps, h]

theorem newOps_cons {s s' : Kernel} {op : SchedOp} (h : s'.schedLog = op :: s.schedLog) :
    newOps s s' = [op] := by
  simp [newOps, h]

/-- Without a macro and without a new id the history stays. -/
theorem unqueued_frame {s s' : Kernel} (fresh : Slot → Bool) (hlog : s'.schedLog = s.schedLog)
    (hnext : s'.nextEnvId = s.nextEnvId) : unqueued s s' fresh = fresh := by
  funext e
  simp [unqueued, newOps_nil hlog, hnext]

/-- A new environment, and no macro yet. -/
theorem unqueued_alloc {s s' : Kernel} {e : Slot} (fresh : Slot → Bool)
    (hlog : s'.schedLog = s.schedLog) (hnext : s'.nextEnvId = s.nextCounter)
    (hf : s.envFreeList.first () = some e) :
    unqueued s s' fresh = fun e' => if e' = e then true else fresh e' := by
  funext e'
  simp only [unqueued, newOps_nil hlog, hnext, hf, List.any_nil, Option.some.injEq]
  by_cases he : e' = e
  · simp [he, nextCounter_ne]
  · simp [he, Ne.symm he]

/-- A macro for `e`; if there is a new environment, it is `e`. -/
theorem unqueued_op {s s' : Kernel} {op : SchedOp} {e : Slot} (fresh : Slot → Bool)
    (hlog : s'.schedLog = op :: s.schedLog) (htarget : op.target = e)
    (hnext : s'.nextEnvId = s.nextEnvId ∨ s.envFreeList.first () = some e) :
    unqueued s s' fresh = fun e' => if e' = e then false else fresh e' := by
  funext e'
  simp only [unqueued, newOps_cons hlog, htarget, List.any_cons, List.any_nil, Bool.or_false]
  by_cases he : e' = e
  · simp [he]
  · have he' : ¬ e = e' := Ne.symm he
    rcases hnext with hnext | hnext <;> simp [he, he', hnext]

/-! ## 2. The invariant -/

/-- The lists spell exactly what is queued, every macro so far was proper, and what is on the free
list cannot be named. -/
structure SchedInv (x : Kernel × (Slot → Bool)) (as : Fin 2 → List Slot) (fl : List Slot) :
    Prop where
  lists : AreLists x.1.envSched as
  queued : ∀ e, (∃ i, e ∈ as i) ↔ x.1.Queued x.2 e
  proper : ∀ op ∈ x.1.schedLog, op.Proper
  free : IsList x.1.envFreeList () fl
  unnamed : ∀ e ∈ fl, ¬ x.1.Named e

namespace SchedInv

variable {s s' : Kernel} {fresh : Slot → Bool} {as : Fin 2 → List Slot} {fl : List Slot}
  {e : Slot}

/-- The state after a step, with its history. -/
def next (s s' : Kernel) (fresh : Slot → Bool) : Kernel × (Slot → Bool) :=
  (s', unqueued s s' fresh)

/-- What is free is not queued. -/
theorem not_queued (h : SchedInv (s, fresh) as fl) {e : Slot} (he : e ∈ fl) :
    ¬ s.Queued fresh e := by
  rintro ⟨hst, _⟩
  exact h.unnamed e he (Or.inl (by rw [hst]; simp))

/-- A step without macros and without a new environment. -/
theorem frame (h : SchedInv (s, fresh) as fl) (hsched : s'.envSched = s.envSched)
    (hlog : s'.schedLog = s.schedLog) (hnext : s'.nextEnvId = s.nextEnvId)
    (hfree : s'.envFreeList = s.envFreeList)
    (hst : ∀ e, (s'.envs e).envStatus = .runnable ↔ (s.envs e).envStatus = .runnable)
    (hn : ∀ e, s'.Named e → s.Named e) : SchedInv (next s s' fresh) as fl := by
  refine ⟨hsched ▸ h.lists, fun e => ?_, hlog ▸ h.proper, hfree ▸ h.free,
    fun e he hne => h.unnamed e he (hn e hne)⟩
  rw [h.queued e]
  simp only [next, Queued, unqueued_frame fresh hlog hnext, hst]

/-- `env_alloc` without a macro: the new environment is not queued. -/
theorem alloc (h : SchedInv (s, fresh) as (e :: fl)) (hsched : s'.envSched = s.envSched)
    (hlog : s'.schedLog = s.schedLog) (hnext : s'.nextEnvId = s.nextCounter)
    (hfree : s'.envFreeList = s.envFreeList.remove e)
    (hother : ∀ e', e' ≠ e → (s'.envs e').envStatus = (s.envs e').envStatus)
    (hn : ∀ e', s'.Named e' → s.Named e' ∨ e' = e) : SchedInv (next s s' fresh) as fl := by
  have hf : s.envFreeList.first () = some e := h.free.first_eq
  have hnd := (List.nodup_cons.mp h.free.nodup).1
  refine ⟨hsched ▸ h.lists, fun e' => ?_, hlog ▸ h.proper, hfree ▸ h.free.remove_head, ?_⟩
  · rw [h.queued e']
    simp only [next, Queued, unqueued_alloc fresh hlog hnext hf]
    by_cases he : e' = e
    · subst he
      simp only [if_true]
      exact ⟨fun hq => absurd hq (h.not_queued (by simp)), fun hq => absurd hq.2 (by simp)⟩
    · rw [if_neg he, hother e' he]
  · intro e' he hne
    rcases hn e' hne with hs | rfl
    · exact h.unnamed e' (by simp [he]) hs
    · exact hnd he

/-- `LIST_INSERT_HEAD` of something not queued that is now `RUNNABLE`. -/
theorem enqueue {fl' : List Slot} (h : SchedInv (s, fresh) as fl)
    (hq : ¬ s.Queued fresh e) (hsched : s'.envSched = s.envSched.insertHead s.curSched e)
    (hlog : s'.schedLog = .insertHead s.curSched e s.envSched :: s.schedLog)
    (hnext : s'.nextEnvId = s.nextEnvId ∨ s.envFreeList.first () = some e)
    (hst : (s'.envs e).envStatus = .runnable)
    (hother : ∀ e', e' ≠ e → (s'.envs e').envStatus = (s.envs e').envStatus)
    (hfree : IsList s'.envFreeList () fl') (hun : ∀ e ∈ fl', ¬ s'.Named e) :
    SchedInv (next s s' fresh) (Function.update as s.curSched (e :: as s.curSched)) fl' := by
  have hno : ¬ ∃ i, e ∈ as i := fun hi => hq ((h.queued e).mp hi)
  refine ⟨?_, fun e' => ?_, ?_, hfree, hun⟩
  · change AreLists s'.envSched _
    rw [hsched]
    exact h.lists.insertHead s.curSched (fun k hk => hno ⟨k, hk⟩)
  · rw [AreLists.mem_insertHead, h.queued e']
    simp only [next, Queued, unqueued_op (e := e) fresh hlog rfl hnext]
    by_cases he : e' = e
    · subst he
      simp [hst]
    · rw [if_neg he, hother e' he, or_iff_right he]
  · change ∀ op ∈ s'.schedLog, op.Proper
    rw [hlog]
    intro op hop
    rcases List.mem_cons.mp hop with rfl | hop
    · exact fun hon => hno ((h.lists.onChain_iff e).mp hon)
    · exact h.proper op hop

/-- `LIST_REMOVE` of something queued that is no longer `RUNNABLE`. -/
theorem dequeue {fl' : List Slot} (h : SchedInv (s, fresh) as fl)
    (hq : s.Queued fresh e) (hsched : s'.envSched = s.envSched.remove e)
    (hlog : s'.schedLog = .remove e s.envSched :: s.schedLog)
    (hnext : s'.nextEnvId = s.nextEnvId) (hst : (s'.envs e).envStatus ≠ .runnable)
    (hother : ∀ e', e' ≠ e → (s'.envs e').envStatus = (s.envs e').envStatus)
    (hfree : IsList s'.envFreeList () fl') (hun : ∀ e ∈ fl', ¬ s'.Named e) :
    ∃ as' fl', SchedInv (next s s' fresh) as' fl' := by
  obtain ⟨i, hi⟩ := (h.queued e).mpr hq
  refine ⟨Function.update as i ((as i).erase e), fl', ?_, fun e' => ?_, ?_, hfree, hun⟩
  · change AreLists s'.envSched _
    rw [hsched]
    exact h.lists.remove hi
  · rw [h.lists.mem_remove hi, h.queued e']
    simp only [next, Queued, unqueued_op (e := e) fresh hlog rfl (Or.inl hnext)]
    by_cases he : e' = e
    · subst he
      simp [hst]
    · rw [if_neg he, hother e' he]
      exact and_iff_right he
  · change ∀ op ∈ s'.schedLog, op.Proper
    rw [hlog]
    intro op hop
    rcases List.mem_cons.mp hop with rfl | hop
    · exact (h.lists.onChain_iff e).mpr ⟨i, hi⟩
    · exact h.proper op hop

/-! ## 3. Steps -/

/-- What can be named after a step that calls no `env_alloc`. -/
theorem named_old {ev : Event} (hst : s.step ev = .ok s') (hev : ev.allocates = false) :
    ∀ e, s'.Named e → s.Named e := by
  obtain ⟨new, hid, hnew⟩ := step_ids hst
  have hnone : new = none := by
    by_contra hne
    rw [hnew hne] at hev
    cases hev
  intro e he
  exact (hid.named e he).resolve_right (by rw [hnone]; simp)

/-- What can be named after a step that calls `env_alloc`. -/
theorem named_new {ev : Event} (hst : s.step ev = .ok s') (hf : s.envFreeList.first () = some e) :
    ∀ e', s'.Named e' → s.Named e' ∨ e' = e := by
  obtain ⟨new, hid, _⟩ := step_ids hst
  intro e' he
  refine (hid.named e' he).imp_right fun hnew => ?_
  exact Option.some.inj ((hid.first e' hnew).symm.trans hf)

/-- The free list once its first element is taken and the new environment queued. -/
theorem free_tail (h : SchedInv (s, fresh) as (e :: fl))
    (hn : ∀ e', s'.Named e' → s.Named e' ∨ e' = e) : ∀ e' ∈ fl, ¬ s'.Named e' := by
  intro e' he hne
  rcases hn e' hne with hs | rfl
  · exact h.unnamed e' (by simp [he]) hs
  · exact (List.nodup_cons.mp h.free.nodup).1 he

/-- The free list once `env_free` has put back a slot that could be named and now cannot. -/
theorem free_cons (h : SchedInv (s, fresh) as fl) (hne : s.Named e) (hdead : ¬ s'.Named e)
    (hn : ∀ e', s'.Named e' → s.Named e') (hfree : s'.envFreeList = s.envFreeList.insertHead () e) :
    IsList s'.envFreeList () (e :: fl) ∧ ∀ e' ∈ e :: fl, ¬ s'.Named e' := by
  refine ⟨hfree ▸ h.free.insertHead (fun hm => h.unnamed e hm hne), fun e' he => ?_⟩
  rcases List.mem_cons.mp he with rfl | he
  · exact hdead
  · exact fun hne' => h.unnamed e' he (hn e' hne')

/-- **One step that keeps the queue keeps the invariant.** -/
theorem step (h : SchedInv (s, fresh) as fl) {ev : Event} (hg : KeepsQueue (s, fresh) ev)
    (hst : s.step ev = .ok s') : ∃ as' fl', SchedInv (next s s' fresh) as' fl' := by
  have hold := named_old hst
  have hnew := fun e => named_new (e := e) hst
  cases step_cases hst with
  | quiet phys kf tf =>
    exact ⟨as, fl, h.frame rfl rfl rfl rfl (fun _ => Iff.rfl) (fun _ hn => hn)⟩
  | @create _ _ e p phys kf tf hf =>
    obtain ⟨fl, rfl⟩ := h.free.eq_cons hf
    refine ⟨_, fl, h.enqueue (e := e) (h.not_queued (by simp)) rfl rfl (Or.inr hf) ?_ ?_
      h.free.remove_head (h.free_tail (hnew e hf))⟩
    · simp [schedInsertHead, allocated, freshEnv]
    · intro e' he
      simp [schedInsertHead, allocated, modifyEnv, withMem, he]
  | @createNoMem _ _ e p phys kf tf hf =>
    obtain ⟨fl, rfl⟩ := h.free.eq_cons hf
    refine ⟨as, fl, h.alloc (e := e) rfl rfl rfl rfl ?_ (hnew e hf)⟩
    intro e' he
    simp [allocated, modifyEnv, withMem, he]
  | switch kf tf pos n hy hn =>
    refine ⟨as, fl, h.frame (envSched_envRun _ _) (schedLog_envRun _ _) (nextEnvId_envRun _ _)
      (envFreeList_envRun _ _) (fun e => by rw [envs_envRun]; exact Iff.rfl) (hold ?_)⟩
    rcases ev with _ | ⟨_, call⟩ | _ | _
    · exact hy.elim
    · cases call <;> first | exact hy.elim | rfl
    · rfl
    · exact hy.elim
  | @destroy _ _ e phys kf tf hres hc =>
    have hdead : ¬ ((s.withMem phys kf tf).freed e).Named e := by
      rintro (hlive | hcur)
      · rw [envs_freed_self] at hlive
        exact hlive rfl
      · exact hc hcur
    obtain ⟨hfree, hun⟩ := h.free_cons (named_of_resolve hres) hdead (hold rfl) rfl
    exact h.dequeue (e := e) (hg e hres) rfl rfl rfl (by rw [envs_freed_self]; simp)
      (fun e' he => by rw [envs_freed_ne _ he]; rfl) hfree hun
  | @destroySelf _ _ e phys kf tf pos n hres _ hn =>
    have hdead : ¬ ({ (s.withMem phys kf tf).freed e with
        curenv := none, pos := pos }.envRun n).Named e := by
      rintro (hlive | hcur)
      · rw [envs_envRun] at hlive
        exact hlive (congrArg Env.envStatus (envs_freed_self (s.withMem phys kf tf) e))
      · rw [curenv_envRun] at hcur
        cases hcur
        rw [envs_freed_self] at hn
        cases hn
    obtain ⟨hfree, hun⟩ := h.free_cons (named_of_resolve hres) hdead (hold rfl)
      (envFreeList_envRun _ _)
    exact h.dequeue (e := e) (hg e hres) (envSched_envRun _ _) (schedLog_envRun _ _)
      (nextEnvId_envRun _ _) (fun hr => hdead (Or.inl (by rw [hr]; simp)))
      (fun e' he => by
        rw [envs_envRun]
        rw [envs_freed_ne _ he]
        rfl) hfree hun
  | @handler _ _ _ _ e kf tf hres =>
    refine ⟨as, fl, h.frame rfl rfl rfl rfl (fun e' => ?_) (hold rfl)⟩
    by_cases he : e' = e
    · rw [he, envs_modifyEnv_self]
      exact Iff.rfl
    · rw [envs_modifyEnv_ne _ _ he]
      exact Iff.rfl
  | @fork _ c e p phys kf tf ctf st hc hf hst' =>
    obtain ⟨fl, rfl⟩ := h.free.eq_cons hf
    refine ⟨as, fl, h.alloc (e := e) rfl rfl rfl rfl ?_ (hnew e hf)⟩
    intro e' he
    simp [allocated, modifyEnv, withMem, he]
  | @setStatus _ envid w st e kf tf hw hres =>
    have hcond := hg st e hw hres
    have hnamed := hold rfl
    have hother : ∀ k : Kernel, k.envs = s.envs → ∀ e', e' ≠ e →
        ((k.modifyEnv e fun v => { v with envStatus := st }).envs e').envStatus
          = (s.envs e').envStatus := by
      intro k hk e' he
      rw [envs_modifyEnv_ne _ _ he, hk]
    by_cases hrun : st = .runnable
    · subst hrun
      rw [if_pos rfl] at hcond
      rw [relink_runnable] at hnamed ⊢
      exact ⟨_, fl, h.enqueue (e := e) hcond rfl rfl (Or.inl rfl) (by rw [envs_modifyEnv_self])
        (hother _ rfl) h.free (fun e' he' hn => h.unnamed e' he' (hnamed e' hn))⟩
    · rw [if_neg hrun] at hcond
      rw [relink_stop hrun] at hnamed ⊢
      by_cases hsame : (s.envs e).envStatus = st
      · -- the target already has the status: no macro runs
        have hsame' : ((s.withMem s.phys kf tf).envs e).envStatus = st := hsame
        rw [if_pos hsame'] at hnamed ⊢
        refine ⟨as, fl, h.frame rfl rfl rfl rfl (fun e' => ?_) hnamed⟩
        by_cases he : e' = e
        · rw [he, envs_modifyEnv_self, hsame]
        · rw [hother (s.withMem s.phys kf tf) rfl e' he]
      · have hsame' : ((s.withMem s.phys kf tf).envs e).envStatus ≠ st := hsame
        rw [if_neg hsame'] at hnamed ⊢
        exact h.dequeue (e := e) (hcond.resolve_left hsame) rfl rfl rfl
          (by rw [envs_modifyEnv_self]; exact hrun) (hother _ rfl) h.free
          (fun e' he' hn => h.unnamed e' he' (hnamed e' hn))
  | @recv _ _ c kf tf pos n hc hd hnc hn =>
    exact h.dequeue (e := c) (hg hd c hc) (envSched_envRun _ _) (schedLog_envRun _ _)
      (nextEnvId_envRun _ _) (by rw [envs_envRun]; simp [schedRemove])
      (fun e' he => by rw [envs_envRun]; simp [schedRemove, modifyEnv, withMem, he])
      (by rw [envFreeList_envRun]; exact h.free) (fun e he hn => h.unnamed e he (hold rfl e hn))
  | @send _ _ _ _ _ c e phys kf tf _ hres hblocked _ =>
    refine ⟨_, fl, h.enqueue (e := e) (fun hq => ?_) rfl rfl (Or.inl rfl) ?_ ?_ h.free
      (fun e he hn => h.unnamed e he (hold rfl e hn))⟩
    · cases hblocked.symm.trans hq.1
    · simp [ipcDeliver, schedInsertHead]
    · intro e' he
      simp [ipcDeliver, schedInsertHead, modifyEnv, withMem, he]

end SchedInv

/-- The table written out has the same links. -/
theorem SchedInv.flush {x : Kernel × (Slot → Bool)} {as : Fin 2 → List Slot} {fl : List Slot}
    (h : SchedInv x as fl) (R : Records) : SchedInv (R.flush x.1, x.2) as fl :=
  ⟨h.lists, h.queued, h.proper, h.free, h.unnamed⟩

/-! ## 4. Runs -/

/-- The machine with the history of its scheduling lists. -/
def schedStep (R : Records) :
    Kernel × (Slot → Bool) → Event → Except Records.Ending (Kernel × (Slot → Bool)) :=
  Run.recording R.step fun s _ s' fresh => unqueued s s' fresh

/-- Both lists are empty after `env_init`. -/
theorem SchedInv.ofBoot {L : Layout} {s : Kernel} (h : EnvBoot L s) :
    SchedInv (s, fun _ => false) (fun _ => []) (List.finRange 1024) := by
  have hfree : ∀ e, (s.envs e).envStatus = .free := fun e => by rw [h.envs e]; rfl
  refine ⟨⟨h.sched, fun _ _ _ _ hm => absurd hm List.not_mem_nil⟩, fun e => ?_, ?_, h.free, ?_⟩
  · simp [Queued, hfree e]
  · rw [h.schedLog]
    exact fun _ hop => absurd hop List.not_mem_nil
  · rintro e _ (hst | hcur)
    · exact hst (hfree e)
    · have hcur' : s.curenv = some e := hcur
      rw [h.curenv] at hcur'
      cases hcur'

/-- **The scheduling lists keep their discipline** in every run of tame steps from boot whose calls
keep the queue. -/
theorem sched_discipline {L : Layout} {H : ListHeads L} {ram : Mem} {R : Records} {s₀ s : Kernel}
    {fresh : Slot → Bool} {es : List Event} (hclean : CleanRam L ram)
    (hboot : bootInRam L H ram = .ok (R, s₀))
    (hr : Run (schedStep R) (fun x ev => x.1.Tame ev ∧ KeepsQueue x ev) (s₀, fun _ => false) es
      (s, fresh)) : s.SchedDiscipline := by
  obtain ⟨as, _, h⟩ := Records.invariantRecorded hclean hboot
    (I := fun t fresh => ∃ as fl, SchedInv (t, fresh) as fl) hr
    ⟨_, _, SchedInv.ofBoot (bootInRam_envBoot hboot)⟩ fun t fresh ev u hI hg hst => by
      obtain ⟨as, fl, h⟩ := hI
      obtain ⟨as', fl', h'⟩ := h.step hg hst
      exact ⟨as', fl', h'.flush R⟩
  exact ⟨h.proper, as, h.lists⟩

/-- The first child is not queued when `sys_env_alloc` returns. -/
theorem unqueued_child {R : Records} {base n : Nat} {km : Mem} {ρ : Nat → Role} {s s' : Kernel}
    (h : FirstEnv base km n ρ s) (hst : s.step (.svc .noStack .envAlloc) = .ok s')
    (hlive : (s'.envs 1).envStatus = .runnable) (fresh : Slot → Bool) :
    unqueued s (R.flush s') fresh 1 = true := by
  cases step_cases hst with
  | quiet phys kf tf =>
    have hfree : (s.envs 1).envStatus = .runnable := hlive
    rw [h.other 1 (by decide)] at hfree
    cases hfree
  | switch _ _ _ _ hy _ => exact hy.elim
  | @fork _ c e p phys kf tf ctf st hc hfirst _ =>
    have he : e = 1 := by
      have hl := h.inv.list.first_eq
      rw [List.finRange_succ] at hl
      exact Option.some.inj (hfirst.symm.trans hl)
    have hnew : ∀ t : Kernel, t.schedLog = s.schedLog → t.nextEnvId = s.nextCounter →
        unqueued s t fresh 1 = true := by
      intro t hlog hnext
      rw [unqueued_alloc fresh hlog hnext hfirst]
      exact if_pos he.symm
    exact hnew _ rfl rfl

/-- The first environment forks, queues its child and destroys it. -/
theorem sched_discipline_first : ∃ (R : Records) (s : Kernel), R.TameReachable s ∧
    s.curenv = some 0 ∧ (s.envs 1).envStatus = .free ∧ s.schedLog.head?.map SchedOp.target = some 1 ∧
    s.SchedDiscipline := by
  obtain ⟨R, s₀, s, base, n, ρ, hb, hf, _, hr, hn, _, h⟩ := firstEnv_inRam
  have hreach := Records.TameReachable.ofImage hb hr
  have hbase := h.base_le
  obtain ⟨fresh, hr⟩ := hr.recorded (fun s _ s' fresh => unqueued s s' fresh) fun _ => false
  have hr₀ : Run (schedStep R) (fun x ev => x.1.Tame ev ∧ KeepsQueue x ev) (s₀, fun _ => false)
      [.create 0x80000 1, .irq .zero] (s, fresh) := by
    refine hr.mono_of_mem fun x ev hev ht => ⟨ht, ?_⟩
    rcases List.mem_pair.mp hev with rfl | rfl <;> trivial
  -- the child is not queued
  obtain ⟨htame₁, s₁, ρ₁, hs₁, h₁⟩ := h.fork (by simp only [npage]; omega)
  obtain ⟨hm₁, hreach₁⟩ := hreach.step_ok htame₁ hs₁
  have hfresh₁ := unqueued_child (R := R) h hs₁ (h₁.status 1 (Or.inr rfl)) fresh
  -- `sys_set_env_status` queues it
  have hf₁ := h₁.flush hf
  obtain ⟨s₂, hs₂, h₂⟩ := hf₁.enqueue
  have hset := step_setEnvStatus (w := 1) .zero hf₁.cur rfl (hf₁.resolve false)
  rw [relink_runnable] at hset
  cases hset.symm.trans hs₂
  have htame₂ : (R.flush s₁).Tame (.svc .zero (.setEnvStatus 4097 1)) := trivial
  obtain ⟨hm₂, hreach₂⟩ := hreach₁.step_ok htame₂ hs₂
  have hfresh₂ : ∀ (t u : Kernel) (fresh : Slot → Bool),
      u.schedLog = .insertHead t.curSched 1 t.envSched :: t.schedLog →
      u.nextEnvId = t.nextEnvId → unqueued t u fresh 1 = false := by
    intro t u fresh hlog hnext
    rw [unqueued_op (e := 1) fresh hlog rfl (Or.inl hnext)]
    exact if_pos rfl
  -- and `sys_env_destroy` takes it off the queue
  have hf₂ := h₂.flush hf
  obtain ⟨htame₃, hs₃⟩ := hf₂.destroy
  obtain ⟨hm₃, hreach₃⟩ := hreach₂.step_ok htame₃ hs₃
  have hr₁ := hr₀.snoc ⟨htame₁, trivial⟩ (Run.recording_ok _ fresh hm₁)
  have hr₂ := hr₁.snoc ⟨htame₂, KeepsQueue.enqueue (hf₁.resolve false) hfresh₁⟩ (Run.recording_ok _ _ hm₂)
  have hr₃ := hr₂.snoc ⟨htame₃, KeepsQueue.destroy (hf₂.resolve true)
    ⟨hf₂.status 1 (Or.inr rfl), hfresh₂ _ _ _ rfl rfl⟩⟩ (Run.recording_ok _ _ hm₃)
  refine ⟨R, _, hreach₃, hf₂.cur, ?_, rfl, sched_discipline cleanRam_coldRam hb hr₃⟩
  exact congrArg Env.envStatus (envs_freed_self _ 1)

/-- **The discipline is not kept.**  The only environment is `RUNNABLE` and linked, and calls
`sys_set_env_status(0, ENV_RUNNABLE)`. -/
theorem sched_not_disciplined :
    ¬ ∀ (R : Records) (s : Kernel), R.TameReachable s → s.SchedDiscipline := by
  intro hall
  obtain ⟨R, s₀, s, base, n, ρ, hb, _, _, hr, _, _, h⟩ := firstEnv_inRam
  have hreach := Records.TameReachable.ofImage hb hr
  have hres : s.envid2env 0 false = some 0 := by rw [envid2env_zero, h.cur]
  have hstep := step_setEnvStatus (w := 1) .zero h.cur rfl hres
  rw [relink_runnable] at hstep
  have htame : s.Tame (.svc .zero (.setEnvStatus 0 1)) := trivial
  obtain ⟨hproper, _⟩ := hall R _ (hreach.step_ok htame hstep).2
  refine hproper (.insertHead s.curSched 0 s.envSched) List.mem_cons_self ⟨0, ?_⟩
  exact (h.sched.1.onChain_iff 0).mpr (by simp)

end Kernel

end RaspiOS
