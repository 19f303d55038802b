/-
# What one step can do to the environment table

The step function of `Syscall.lean` has some forty branches, and every invariant of the
environment table would have to walk them all.  This module walks them once.  `StepCases` lists
what a successful step can do apart from physical memory and the two saved trap frames: nothing;
allocate a slot; run one; free one; change a status or an IPC field.  `step_cases` says that there
is nothing else.

Physical memory and the saved frames are existentially quantified here (`withMem`); what a step
does to them is the subject of `Forest.lean` and of `Trap.lean`.
-/
import RaspiOS.Syscall
import RaspiOS.Lib.Fallible

set_option autoImplicit false

namespace RaspiOS

open LinkedList

namespace Kernel

/-! ## 1. The pieces of a step -/

/-- The same environment table over other memory and other saved frames. -/
def withMem (s : Kernel) (phys : Phys) (kf tf : Trapframe) : Kernel :=
  { s with phys := phys, kernelFrame := kf, timeFrame := tf }

/-- The record `env_alloc` leaves in the slot it takes. -/
def freshEnv (s : Kernel) (e : Slot) (p : Nat) (parentId : Nat) (v : Env) : Env :=
  { v with
    envPgdir := p, envParentId := parentId, envStatus := .runnable, envRuns := 0
    envId := s.mkenvid e, envTf := { v.envTf with sp := ustacktop } }

/-- What `env_alloc` does to the table. -/
def allocated (s : Kernel) (e : Slot) (p : Nat) (parentId : Nat) : Kernel :=
  { s with nextEnvId := s.nextCounter, envFreeList := s.envFreeList.remove e }.modifyEnv e
    (s.freshEnv e p parentId)

/-- What `sys_env_alloc` does for its caller `c` when slot `e` is free, up to memory. -/
def forked (s : Kernel) (c e : Slot) (p : Nat) (phys : Phys) (st : EnvStatus) : Kernel :=
  ({ s with phys := phys }.allocated e p (s.envs c).envId).modifyEnv e fun w =>
    { w with
      envStatus := st
      envTf := { s.kernelFrame with x := fun i => if i = 0 then 0 else s.kernelFrame.x i }
      envPri := (s.envs c).envPri }

/-- What `env_free` does to the table. -/
def freed (s : Kernel) (e : Slot) : Kernel :=
  ({ s with envFreeList := s.envFreeList.insertHead () e }.modifyEnv e fun v =>
    { v with envPgdir := 0, envStatus := .free }).schedRemove e

@[simp] theorem envs_modifyEnv_self (s : Kernel) (e : Slot) (f : Env → Env) :
    (s.modifyEnv e f).envs e = f (s.envs e) := by simp [modifyEnv]

theorem modifyEnv_modifyEnv (s : Kernel) (e : Slot) (f g : Env → Env) :
    (s.modifyEnv e f).modifyEnv e g = s.modifyEnv e (fun v => g (f v)) := by
  unfold modifyEnv
  congr 1
  funext e'
  by_cases h : e' = e <;> simp [h]

theorem envs_modifyEnv_ne (s : Kernel) {e e' : Slot} (f : Env → Env) (h : e' ≠ e) :
    (s.modifyEnv e f).envs e' = s.envs e' := by simp [modifyEnv, h]

/-- Allocation does not touch the priority of any slot. -/
theorem envPri_allocated (s : Kernel) (e c : Slot) (p : Nat) (parentId : Nat) :
    ((s.allocated e p parentId).envs c).envPri = (s.envs c).envPri := by
  unfold allocated modifyEnv freshEnv
  by_cases h : c = e <;> simp [h]

section Forked

variable (s : Kernel) (c e : Slot) (p : Nat) (phys : Phys) (st : EnvStatus)

@[simp] theorem phys_forked : (s.forked c e p phys st).phys = phys := rfl

@[simp] theorem pgDir_forked : (s.forked c e p phys st).pgDir = s.pgDir := rfl

@[simp] theorem envPgdir_forked : ((s.forked c e p phys st).envs e).envPgdir = p := by
  simp [forked, allocated, freshEnv]

@[simp] theorem envStatus_forked : ((s.forked c e p phys st).envs e).envStatus = st := by
  simp [forked]

@[simp] theorem envTf_forked : ((s.forked c e p phys st).envs e).envTf
    = { s.kernelFrame with x := fun i => if i = 0 then 0 else s.kernelFrame.x i } := by
  simp [forked]

end Forked

/-- **The table after a switch**: the old current environment has its registers saved, the new one
its run counter advanced, and nothing else moves. -/
theorem envs_envRun (s : Kernel) (e e' : Slot) :
    (s.envRun e).envs e' = { s.envs e' with
      envTf := if s.curenv = some e' then { s.timeFrame with pc := s.timeFrame.elrEl1 }
        else (s.envs e').envTf
      envRuns := if e' = e then ((s.envs e').envRuns + 1) % 2 ^ 64 else (s.envs e').envRuns } := by
  unfold envRun
  cases hcur : s.curenv with
  | none => by_cases h : e' = e <;> simp [modifyEnv, h]
  | some c =>
    by_cases h : e' = e
    · subst h
      by_cases hc : e' = c
      · subst hc; simp [modifyEnv]
      · simp [modifyEnv, hc, Ne.symm hc]
    · by_cases hc : e' = c
      · subst hc; simp [modifyEnv, h]
      · simp [modifyEnv, h, hc, Ne.symm hc]

@[simp] theorem curenv_envRun (s : Kernel) (e : Slot) : (s.envRun e).curenv = some e := by
  unfold envRun; cases s.curenv <;> rfl

@[simp] theorem pos_envRun (s : Kernel) (e : Slot) : (s.envRun e).pos = s.pos := by
  unfold envRun; cases s.curenv <;> rfl

@[simp] theorem nextEnvId_envRun (s : Kernel) (e : Slot) :
    (s.envRun e).nextEnvId = s.nextEnvId := by
  unfold envRun; cases s.curenv <;> rfl

@[simp] theorem envFreeList_envRun (s : Kernel) (e : Slot) :
    (s.envRun e).envFreeList = s.envFreeList := by
  unfold envRun; cases s.curenv <;> rfl

@[simp] theorem envSched_envRun (s : Kernel) (e : Slot) :
    (s.envRun e).envSched = s.envSched := by
  unfold envRun; cases s.curenv <;> rfl

@[simp] theorem schedLog_envRun (s : Kernel) (e : Slot) :
    (s.envRun e).schedLog = s.schedLog := by
  unfold envRun; cases s.curenv <;> rfl

@[simp] theorem curSched_envRun (s : Kernel) (e : Slot) :
    (s.envRun e).curSched = s.curSched := by
  unfold envRun; cases s.curenv <;> rfl

@[simp] theorem phys_envRun (s : Kernel) (e : Slot) : (s.envRun e).phys = s.phys := by
  unfold envRun; cases s.curenv <;> rfl

@[simp] theorem pgDir_envRun (s : Kernel) (e : Slot) : (s.envRun e).pgDir = s.pgDir := by
  unfold envRun; cases s.curenv <;> rfl

/-! ## 2. One lemma a function -/

/-- An id resolves to a live environment, or to the caller. -/
theorem resolve_live {s : Kernel} {envid : Nat} {b : Bool} {e : Slot}
    (h : s.envid2env envid b = some e) : s.curenv = some e ∨ (s.envs e).envStatus ≠ .free := by
  unfold envid2env at h
  split at h
  · exact Or.inl h
  · dsimp only at h
    split at h
    · cases h
    · rename_i hlive
      split at h
      · cases h
      · cases h
        exact Or.inr (fun hf => hlive (Or.inl hf))

/-- The loop of the scheduler changes the cursor and runs a `RUNNABLE` slot. -/
theorem schedLoop_ok {n : Nat} {s s' : Kernel} (h : schedLoop n s = .ok s') :
    ∃ pos e, (s.envs e).envStatus = .runnable ∧ s' = { s with pos := pos }.envRun e := by
  induction n generalizing s with
  | zero => cases h
  | succ n ih =>
    simp only [schedLoop] at h
    split at h
    · rename_i hr
      cases h
      exact ⟨_, _, hr, rfl⟩
    · obtain ⟨pos, e, hr, he⟩ := ih h
      exact ⟨pos, e, hr, he⟩

theorem schedYield_ok {s s' : Kernel} (h : s.schedYield = .ok s') :
    ∃ pos e, (s.envs e).envStatus = .runnable ∧ s' = { s with pos := pos }.envRun e :=
  schedLoop_ok h

/-- The two ways `env_alloc` returns. -/
theorem envAlloc_ok {s s' : Kernel} {parentId : Nat} {r : Option Slot}
    (h : s.envAlloc parentId = .ok (r, s')) :
    (r = none ∧ s' = s ∧ s.envFreeList.first () = none) ∨
    ∃ e p phys, r = some e ∧ s.envFreeList.first () = some e ∧
      s.phys.pageAlloc = some (p, phys) ∧
      s' = { s with phys := (phys.incRef p).copyPage s.pgDir p }.allocated e p parentId := by
  unfold envAlloc at h
  split at h
  · rename_i hf
    cases h
    exact Or.inl ⟨rfl, rfl, hf⟩
  · rename_i e hf
    obtain ⟨t, ht, h⟩ := Except.bind_eq_ok_iff.mp h
    unfold envSetupVm at ht
    split at ht
    · cases ht
    · rename_i p phys hp
      cases ht
      cases h
      refine Or.inr ⟨e, p, phys, rfl, hf, hp, ?_⟩
      simp only [allocated, modifyEnv, mkenvid, nextCounter, freshEnv]
      congr 1
      funext e'
      by_cases he : e' = e <;> simp [he]

/-- `env_free` is its page-table loops followed by the changes to the table. -/
theorem envFree_ok {s s' : Kernel} {e : Slot} (h : s.envFree e = .ok s') :
    ∃ phys, envFreePuds (s.envs e).envPgdir s.phys = .ok phys ∧
      s' = { s with phys := phys }.freed e := by
  unfold envFree at h
  obtain ⟨phys, hp, h⟩ := Except.bind_eq_ok_iff.mp h
  cases h
  exact ⟨phys, hp, rfl⟩

/-- Destroying another environment frees it; destroying oneself also runs the next one. -/
theorem envDestroy_ok {s s' : Kernel} {e : Slot} {x : Exit} (h : s.envDestroy e = .ok (x, s')) :
    ∃ phys, envFreePuds (s.envs e).envPgdir s.phys = .ok phys ∧
      ((s.curenv ≠ some e ∧ x = .void ∧ s' = { s with phys := phys }.freed e) ∨
       (s.curenv = some e ∧ x = .eret ∧ ∃ pos n,
          ((({ s with phys := phys }.freed e).envs n).envStatus = .runnable) ∧
          s' = { { s with phys := phys }.freed e with
            curenv := none, timeFrame := s.kernelFrame, pos := pos }.envRun n)) := by
  unfold envDestroy at h
  obtain ⟨t, ht, h⟩ := Except.bind_eq_ok_iff.mp h
  obtain ⟨phys, hp, rfl⟩ := envFree_ok ht
  refine ⟨phys, hp, ?_⟩
  split at h
  · rename_i hc
    obtain ⟨u, hu, h⟩ := Except.bind_eq_ok_iff.mp h
    cases h
    obtain ⟨pos, n, hn, rfl⟩ := schedYield_ok hu
    exact Or.inr ⟨hc, rfl, pos, n, hn, rfl⟩
  · rename_i hc
    cases h
    exact Or.inl ⟨hc, rfl, rfl⟩

/-- The list operation of `sys_set_env_status`, chosen by the old and the new status. -/
def relink (s : Kernel) (e : Slot) (st : EnvStatus) : Kernel :=
  if (st = .notRunnable ∨ st = .free) ∧ (s.envs e).envStatus ≠ st then s.schedRemove e
  else if st = .runnable then s.schedInsertHead e
  else s

/-- The list operation writes nothing but the links and their history. -/
theorem relink_eq (s : Kernel) (e : Slot) (st : EnvStatus) :
    ∃ sched log, s.relink e st = { s with envSched := sched, schedLog := log } := by
  unfold relink
  split
  · exact ⟨_, _, rfl⟩
  · split <;> exact ⟨_, _, rfl⟩

@[simp] theorem envs_relink (s : Kernel) (e : Slot) (st : EnvStatus) :
    (s.relink e st).envs = s.envs := by
  obtain ⟨_, _, h⟩ := s.relink_eq e st
  rw [h]

@[simp] theorem curenv_relink (s : Kernel) (e : Slot) (st : EnvStatus) :
    (s.relink e st).curenv = s.curenv := by
  obtain ⟨_, _, h⟩ := s.relink_eq e st
  rw [h]

@[simp] theorem nextEnvId_relink (s : Kernel) (e : Slot) (st : EnvStatus) :
    (s.relink e st).nextEnvId = s.nextEnvId := by
  obtain ⟨_, _, h⟩ := s.relink_eq e st
  rw [h]

@[simp] theorem envFreeList_relink (s : Kernel) (e : Slot) (st : EnvStatus) :
    (s.relink e st).envFreeList = s.envFreeList := by
  obtain ⟨_, _, h⟩ := s.relink_eq e st
  rw [h]

/-- A status other than `RUNNABLE` unlinks an environment that does not have it yet. -/
theorem relink_stop {s : Kernel} {e : Slot} {st : EnvStatus} (hst : st ≠ .runnable) :
    s.relink e st = if (s.envs e).envStatus = st then s else s.schedRemove e := by
  have hstop : st = .notRunnable ∨ st = .free := by
    cases st with
    | runnable => exact absurd rfl hst
    | free => exact Or.inr rfl
    | notRunnable => exact Or.inl rfl
  unfold relink
  by_cases h : (s.envs e).envStatus = st
  · rw [if_neg (fun hc => hc.2 h), if_neg hst, if_pos h]
  · rw [if_pos ⟨hstop, h⟩, if_neg h]

/-- `RUNNABLE` links it, whether or not it was linked before. -/
theorem relink_runnable (s : Kernel) (e : Slot) : s.relink e .runnable = s.schedInsertHead e := by
  simp [relink]

/-- Freeing an environment marks its slot and keeps its id. -/
theorem envs_freed_self (s : Kernel) (e : Slot) :
    (s.freed e).envs e = { s.envs e with envPgdir := 0, envStatus := .free } := by
  simp [freed, schedRemove]

/-- Freeing an environment touches no other. -/
theorem envs_freed_ne (s : Kernel) {e e' : Slot} (h : e' ≠ e) :
    (s.freed e).envs e' = s.envs e' := by
  simp [freed, schedRemove, modifyEnv, h]

end Kernel

/-! ## 3. The cases of a step -/

/-- The events that enter the scheduler without touching the table: a timer interrupt and
`sys_yield`. -/
def Event.Yields : Event → Prop
  | .irq _ => True
  | .svc _ .yield => True
  | _ => False

namespace Kernel

/-- **Everything a successful step can do**, up to physical memory and the two saved frames. -/
inductive StepCases (s : Kernel) : Event → Kernel → Prop
  /-- the table is left alone -/
  | quiet {ev : Event} (phys : Phys) (kf tf : Trapframe) : StepCases s ev (s.withMem phys kf tf)
  /-- `env_create_priority` -/
  | create {binary priority : Nat} {e : Slot} (p : Nat) (phys : Phys) (kf tf : Trapframe) :
      s.envFreeList.first () = some e →
      StepCases s (.create binary priority)
        ((((s.withMem phys kf tf).allocated e p 0).modifyEnv e fun v =>
          { v with envPri := priority,
                   envTf := { v.envTf with pc := binary, sp := ustacktop } }).schedInsertHead e)
  /-- `env_create_priority` without a frame for the stack: it returns before the insertion -/
  | createNoMem {binary priority : Nat} {e : Slot} (p : Nat) (phys : Phys)
      (kf tf : Trapframe) :
      s.envFreeList.first () = some e →
      StepCases s (.create binary priority) ((s.withMem phys kf tf).allocated e p 0)
  /-- the scheduler picks a `RUNNABLE` slot -/
  | switch {ev : Event} (kf tf : Trapframe) (pos : Int) (n : Slot) :
      ev.Yields → (s.envs n).envStatus = .runnable →
      StepCases s ev ({ s.withMem s.phys kf tf with pos := pos }.envRun n)
  /-- `sys_env_destroy` of another environment -/
  | destroy {r : Regs} {envid : Nat} {e : Slot} (phys : Phys) (kf tf : Trapframe) :
      s.envid2env envid true = some e → s.curenv ≠ some e →
      StepCases s (.svc r (.envDestroy envid)) ((s.withMem phys kf tf).freed e)
  /-- `sys_env_destroy` of the caller -/
  | destroySelf {r : Regs} {envid : Nat} {e : Slot} (phys : Phys) (kf tf : Trapframe)
      (pos : Int) (n : Slot) :
      s.envid2env envid true = some e → s.curenv = some e →
      (((s.withMem phys kf tf).freed e).envs n).envStatus = .runnable →
      StepCases s (.svc r (.envDestroy envid))
        ({ (s.withMem phys kf tf).freed e with curenv := none, pos := pos }.envRun n)
  /-- `sys_set_pgfault_handler` -/
  | handler {r : Regs} {envid func xstacktop : Nat} {e : Slot} (kf tf : Trapframe) :
      s.envid2env envid true = some e →
      StepCases s (.svc r (.setPgfaultHandler envid func xstacktop))
        ((s.withMem s.phys kf tf).modifyEnv e fun v =>
          { v with envPgfaultHandler := func, envXstacktop := xstacktop })
  /-- `sys_env_alloc` that took a slot: the child is `RUNNABLE` if the stack could be copied and
  `NOT_RUNNABLE` if memory ran out -/
  | fork {r : Regs} {c e : Slot} (p : Nat) (phys : Phys) (kf tf ctf : Trapframe)
      (st : EnvStatus) :
      s.curenv = some c → s.envFreeList.first () = some e → st ≠ .free →
      StepCases s (.svc r .envAlloc)
        (((s.withMem phys kf tf).allocated e p (s.envs c).envId).modifyEnv e fun v =>
          { v with envStatus := st, envTf := ctf, envPri := (s.envs c).envPri })
  /-- `sys_set_env_status` -/
  | setStatus {r : Regs} {envid w : Nat} {st : EnvStatus} {e : Slot} (kf tf : Trapframe) :
      EnvStatus.ofWord w = some st → s.envid2env envid false = some e →
      StepCases s (.svc r (.setEnvStatus envid w))
        (((s.withMem s.phys kf tf).relink e st).modifyEnv e fun v => { v with envStatus := st })
  /-- `sys_ipc_recv` -/
  | recv {r : Regs} {dstva : Nat} {c : Slot} (kf tf : Trapframe) (pos : Int) (n : Slot) :
      s.curenv = some c → dstva < utop → n ≠ c → (s.envs n).envStatus = .runnable →
      StepCases s (.svc r (.ipcRecv dstva))
        ({ ((s.withMem s.phys kf tf).modifyEnv c fun v =>
            { v with envStatus := .notRunnable, envIpcRecving := 1,
                     envIpcDstva := dstva }).schedRemove c with pos := pos }.envRun n)
  /-- `sys_ipc_can_send` that delivered -/
  | send {r : Regs} {envid value srcva perm : Nat} {c e : Slot} (phys : Phys)
      (kf tf : Trapframe) :
      s.curenv = some c → s.envid2env envid false = some e →
      (s.envs e).envStatus = .notRunnable → (s.envs e).envIpcRecving ≠ 0 →
      StepCases s (.svc r (.ipcCanSend envid value srcva perm))
        ((s.withMem phys kf tf).ipcDeliver c e value perm)

/-! ## 4. There are no others -/

/-- `sys_mem_alloc` changes nothing but memory: not at all, by taking a frame and losing it, or by
taking a frame and entering it. -/
theorem sysMemAlloc_ok {s s' : Kernel} {envid va perm : Nat} {x : Exit}
    (h : s.sysMemAlloc envid va perm = .ok (x, s')) :
    ∃ phys, s' = { s with phys := phys } ∧
      (phys = s.phys ∨ ∃ f q, s.phys.pageAlloc = some (f, q) ∧
        ((s.envid2env envid true = none ∧ phys = q) ∨
          ∃ e r, s.envid2env envid true = some e ∧
            q.pageInsert (s.envs e).envPgdir f va perm = .ok (r, phys))) := by
  unfold sysMemAlloc at h
  split at h
  · cases h; exact ⟨_, rfl, Or.inl rfl⟩
  · split at h
    · cases h; exact ⟨_, rfl, Or.inl rfl⟩
    · rename_i f q hq
      have hid : ({ s with phys := q } : Kernel).envid2env envid true = s.envid2env envid true := rfl
      dsimp only at h
      rw [hid] at h
      split at h
      · rename_i he
        cases h
        exact ⟨_, rfl, Or.inr ⟨f, q, hq, Or.inl ⟨he, rfl⟩⟩⟩
      · rename_i e he
        obtain ⟨⟨r, phys⟩, hi, h⟩ := Except.bind_eq_ok_iff.mp h
        cases h
        exact ⟨_, rfl, Or.inr ⟨f, q, hq, Or.inr ⟨e, r, he, hi⟩⟩⟩

/-- `sys_mem_map` changes nothing but memory: not at all, or by entering the page it found. -/
theorem sysMemMap_ok {s s' : Kernel} {srcid srcva dstid dstva perm : Nat} {x : Exit}
    (h : s.sysMemMap srcid srcva dstid dstva perm = .ok (x, s')) :
    ∃ phys, s' = { s with phys := phys } ∧
      (phys = s.phys ∨ ∃ src dst f a r, s.envid2env srcid true = some src ∧
        s.envid2env dstid true = some dst ∧
        s.phys.pageLookup (s.envs src).envPgdir (rounddown srcva by2pg) = .ok (some (f, a)) ∧
        s.phys.pageInsert (s.envs dst).envPgdir f (rounddown dstva by2pg) perm
          = .ok (r, phys)) := by
  unfold sysMemMap at h
  dsimp only at h
  split at h
  · cases h; exact ⟨_, rfl, Or.inl rfl⟩
  · rename_i src hsrc
    split at h
    · cases h; exact ⟨_, rfl, Or.inl rfl⟩
    · rename_i dst hdst
      split at h
      · cases h; exact ⟨_, rfl, Or.inl rfl⟩
      · obtain ⟨l, hl, h⟩ := Except.bind_eq_ok_iff.mp h
        split at h
        · cases h; exact ⟨_, rfl, Or.inl rfl⟩
        · rename_i f a
          obtain ⟨⟨r, phys⟩, hi, h⟩ := Except.bind_eq_ok_iff.mp h
          cases h
          exact ⟨_, rfl, Or.inr ⟨src, dst, f, a, r, hsrc, hdst, hl, hi⟩⟩

/-- `sys_mem_unmap` changes nothing but memory. -/
theorem sysMemUnmap_ok {s s' : Kernel} {envid va : Nat} {x : Exit}
    (h : s.sysMemUnmap envid va = .ok (x, s')) :
    ∃ phys, s' = { s with phys := phys } ∧
      (phys = s.phys ∨ ∃ e, s.envid2env envid true = some e ∧
        s.phys.pageRemove (s.envs e).envPgdir va = .ok phys) := by
  unfold sysMemUnmap at h
  split at h
  · cases h; exact ⟨_, rfl, Or.inl rfl⟩
  · rename_i e he
    obtain ⟨phys, hr, h⟩ := Except.bind_eq_ok_iff.mp h
    cases h
    exact ⟨_, rfl, Or.inr ⟨e, he, hr⟩⟩

/-- A store of the running environment changes one word of a page it may write. -/
theorem userStore_ok {s s' : Kernel} {va : Nat} {w : Nat} (h : s.userStore va w = .ok s') :
    ∃ c t, s.curenv = some c ∧ translate s.phys.mem (s.envs c).envPgdir va = some t ∧
      t.attrs &&& pteRO = 0 ∧
      s' = { s with phys := s.phys.store ⟨t.frame, Fin.ofNat 512 (va >>> 3)⟩ w } := by
  unfold userStore at h
  split at h
  · cases h
  · rename_i c hc
    split at h
    · cases h
    · rename_i t ht
      split at h
      · cases h
      · rename_i ha
        cases h
        exact ⟨c, t, hc, ht, not_not.mp ha, rfl⟩

/-- `sys_env_alloc` finds no slot, or takes one and copies the stack as far as memory goes. -/
theorem forkEnv_ok {s s' : Kernel} {c : Slot} {r : Int ⊕ Slot}
    (h : s.forkEnv c = .ok (r, s')) :
    (r = .inl (-eNoFreeEnv) ∧ s' = s ∧ s.envFreeList.first () = none) ∨
    ∃ e p q v phys, s.envFreeList.first () = some e ∧ s.phys.pageAlloc = some (p, q) ∧
      forkStack (s.envs c).envPgdir p
        ((ustacktop - rounddown s.kernelFrame.sp by2pg) / by2pg)
        (rounddown s.kernelFrame.sp by2pg) ((q.incRef p).copyPage s.pgDir p) = .ok (v, phys) ∧
      r = (if v < 0 then .inl v else .inr e) ∧
      s' = s.forked c e p phys (if v < 0 then .notRunnable else .runnable) := by
  unfold forkEnv at h
  dsimp only at h
  obtain ⟨⟨o, t⟩, ha, h1⟩ := Except.bind_eq_ok_iff.mp h
  clear h
  rcases envAlloc_ok ha with ⟨rfl, rfl, hf⟩ | ⟨e, p, q, rfl, hf, hq, rfl⟩
  · cases h1
    exact Or.inl ⟨rfl, rfl, hf⟩
  · obtain ⟨⟨v, phys⟩, hs, h2⟩ := Except.bind_eq_ok_iff.mp h1
    clear h1
    rw [envs_modifyEnv_self] at hs
    simp only [envPri_allocated] at h2
    have hpgdir : ∀ k : Kernel, ((k.allocated e p (s.envs c).envId).envs e).envPgdir = p := by
      intro k
      simp [allocated, freshEnv]
    rw [hpgdir] at hs
    refine Or.inr ⟨e, p, q, v, phys, hf, hq, hs, ?_⟩
    by_cases hv : v < 0
    · simp only [hv, if_true] at h2 ⊢
      cases h2
      exact ⟨rfl, rfl⟩
    · simp only [hv, if_false] at h2 ⊢
      cases h2
      have hcomp := modifyEnv_modifyEnv (allocated { s with phys := phys } e p (s.envs c).envId) e
        (fun w => { w with
          envStatus := .notRunnable
          envTf := { s.kernelFrame with x := fun i => if i = 0 then 0 else s.kernelFrame.x i }
          envPri := (s.envs c).envPri })
        (fun w => { w with envStatus := .runnable })
      exact ⟨rfl, hcomp⟩

/-- `sys_ipc_can_send` fails without a trace, fails in `page_insert`, or delivers. -/
theorem sysIpcCanSend_ok {s s' : Kernel} {envid value srcva perm : Nat} {x : Exit}
    (h : s.sysIpcCanSend envid value srcva perm = .ok (x, s')) :
    ∃ c phys, s.curenv = some c ∧
      (phys = s.phys ∨ ∃ e f a r, s.envid2env envid false = some e ∧
        (s.envs e).envStatus = .notRunnable ∧ (s.envs e).envIpcRecving ≠ 0 ∧ srcva ≠ 0 ∧
        s.phys.pageLookup (s.envs c).envPgdir srcva = .ok (some (f, a)) ∧
        s.phys.pageInsert (s.envs e).envPgdir f (s.envs e).envIpcDstva perm = .ok (r, phys)) ∧
      ((x ≠ .ret 0 ∧ s' = { s with phys := phys }) ∨ ∃ e, s.envid2env envid false = some e ∧
        (s.envs e).envStatus = .notRunnable ∧ (s.envs e).envIpcRecving ≠ 0 ∧ x = .ret 0 ∧
        s' = { s with phys := phys }.ipcDeliver c e value perm) := by
  unfold sysIpcCanSend at h
  split at h
  · cases h
  · rename_i c hc
    refine ⟨c, ?_⟩
    split at h
    · cases h; exact ⟨_, hc, Or.inl rfl, Or.inl ⟨by decide, rfl⟩⟩
    · rename_i e he
      split at h
      · cases h; exact ⟨_, hc, Or.inl rfl, Or.inl ⟨by decide, rfl⟩⟩
      · rename_i hrecv
        rw [not_or, not_not] at hrecv
        split at h
        · cases h; exact ⟨_, hc, Or.inl rfl, Or.inl ⟨by decide, rfl⟩⟩
        · split at h
          · rename_i hnz
            obtain ⟨l, hl, h1⟩ := Except.bind_eq_ok_iff.mp h
            clear h
            split at h1
            · cases h1; exact ⟨_, hc, Or.inl rfl, Or.inl ⟨by decide, rfl⟩⟩
            · rename_i f a
              obtain ⟨⟨r, phys⟩, hi, h2⟩ := Except.bind_eq_ok_iff.mp h1
              clear h1
              refine ⟨phys, hc, Or.inr ⟨e, f, a, r, he, hrecv.1, hrecv.2, hnz, hl, hi⟩, ?_⟩
              dsimp only at h2
              split at h2
              · cases h2; exact Or.inl ⟨by decide, rfl⟩
              · cases h2
                exact Or.inr ⟨e, he, hrecv.1, hrecv.2, rfl, rfl⟩
          · cases h
            exact ⟨_, hc, Or.inl rfl, Or.inr ⟨e, he, hrecv.1, hrecv.2, rfl, rfl⟩⟩

/-- `sys_ipc_recv` refuses an address, or blocks the caller and lets another environment run. -/
theorem sysIpcRecv_ok {s s' : Kernel} {dstva : Nat} {x : Exit}
    (h : s.sysIpcRecv dstva = .ok (x, s')) :
    (utop ≤ dstva ∧ s' = s) ∨ (dstva < utop ∧ ∃ c pos n, s.curenv = some c ∧
      ((s.modifyEnv c fun v => { v with envStatus := .notRunnable, envIpcRecving := 1,
                                        envIpcDstva := dstva }).envs n).envStatus = .runnable ∧
      s' = ({ (s.modifyEnv c fun v => { v with envStatus := .notRunnable, envIpcRecving := 1,
                                               envIpcDstva := dstva }).schedRemove c with
              timeFrame := s.kernelFrame, pos := pos }).envRun n) := by
  unfold sysIpcRecv at h
  split at h
  · cases h
  · rename_i c hc
    split at h
    · rename_i hd
      cases h
      exact Or.inl ⟨hd, rfl⟩
    · rename_i hd
      obtain ⟨u, hu, h1⟩ := Except.bind_eq_ok_iff.mp h
      cases h1
      obtain ⟨pos, n, hn, rfl⟩ := schedYield_ok hu
      exact Or.inr ⟨not_le.mp hd, c, pos, n, hc, hn, rfl⟩

/-- `env_create_priority` takes a slot, a directory and, if there is one, a frame for the stack. -/
theorem envCreatePriority_ok {s s' : Kernel} {binary priority : Nat}
    (h : s.envCreatePriority binary priority = .ok s') :
    ∃ e p q, s.envFreeList.first () = some e ∧ s.phys.pageAlloc = some (p, q) ∧
      ((((q.incRef p).copyPage s.pgDir p).pageAlloc = none ∧
        s' = { s with phys := incRefNull ((q.incRef p).copyPage s.pgDir p) }.allocated e p 0) ∨
      ∃ f u r phys, ((q.incRef p).copyPage s.pgDir p).pageAlloc = some (f, u) ∧
        (u.incRef f).pageInsert p f (ustacktop - by2pg) pteV = .ok (r, phys) ∧
        s' = (({ s with phys := phys }.allocated e p 0).modifyEnv e fun v =>
          { v with envPri := priority,
                   envTf := { v.envTf with pc := binary, sp := ustacktop } }).schedInsertHead
                     e) := by
  unfold envCreatePriority at h
  obtain ⟨⟨o, t⟩, ha, h1⟩ := Except.bind_eq_ok_iff.mp h
  clear h
  rcases envAlloc_ok ha with ⟨rfl, rfl, hf⟩ | ⟨e, p, q, rfl, hf, hq, rfl⟩
  · cases h1
  · refine ⟨e, p, q, hf, hq, ?_⟩
    have hpgdir : ∀ k : Kernel, ((k.allocated e p 0).envs e).envPgdir = p := by
      intro k
      simp [allocated, freshEnv]
    dsimp only at h1
    have hphys : ({ s with phys := (q.incRef p).copyPage s.pgDir p }.allocated e p 0).phys
      = (q.incRef p).copyPage s.pgDir p := rfl
    rw [hphys, hpgdir] at h1
    split at h1
    · rename_i hn
      cases h1
      exact Or.inl ⟨hn, rfl⟩
    · rename_i f u hu
      obtain ⟨⟨r, phys⟩, hi, h2⟩ := Except.bind_eq_ok_iff.mp h1
      cases h2
      exact Or.inr ⟨f, u, r, phys, hu, hi, rfl⟩

/-- `sys_env_destroy` that found its target frees it, and runs another environment if it was the
caller. -/
theorem svc_envDestroy_ok {s s' : Kernel} {r : Regs} {envid : Nat} {e : Slot}
    (hres : s.envid2env envid true = some e)
    (h : s.step (.svc r (.envDestroy envid)) = .ok s') :
    ∃ phys, envFreePuds (s.envs e).envPgdir s.phys = .ok phys ∧
      ((s.curenv ≠ some e ∧ s' = (s.withMem phys (saveall syncStack r) s.timeFrame).freed e) ∨
       (s.curenv = some e ∧ ∃ pos n,
          (((s.withMem phys (saveall syncStack r) (saveall syncStack r)).freed e).envs n).envStatus
            = .runnable ∧
          s' = { (s.withMem phys (saveall syncStack r) (saveall syncStack r)).freed e with
            curenv := none, pos := pos }.envRun n)) := by
  obtain ⟨⟨x, t⟩, hs, rfl⟩ := Except.map_eq_ok_iff.mp h
  clear h
  unfold svc at hs
  split at hs
  · cases hs
  have hres' : ({ s with kernelFrame := saveall syncStack r } : Kernel).envid2env envid true
      = some e := hres
  simp only [syscall, sysEnvDestroy, hres'] at hs
  obtain ⟨⟨y, u⟩, hu, h1⟩ := Except.bind_eq_ok_iff.mp hs
  cases h1
  obtain ⟨phys, hp, ⟨hc, _, rfl⟩ | ⟨hc, _, pos, n, hn, rfl⟩⟩ := envDestroy_ok hu
  · exact ⟨phys, hp, Or.inl ⟨hc, rfl⟩⟩
  · exact ⟨phys, hp, Or.inr ⟨hc, pos, n, hn, rfl⟩⟩

/-- The receiver has just blocked, so the scheduler picks another slot. -/
theorem recv_case {s : Kernel} {r : Regs} {dstva : Nat} {c n : Slot} {pos : Int}
    (hc : s.curenv = some c) (hd : dstva < utop)
    (hn : (({ s with kernelFrame := saveall syncStack r }.modifyEnv c fun v =>
      { v with envStatus := .notRunnable, envIpcRecving := 1,
               envIpcDstva := dstva }).envs n).envStatus = .runnable) :
    StepCases s (.svc r (.ipcRecv dstva))
      ({ ((s.withMem s.phys (saveall syncStack r) (saveall syncStack r)).modifyEnv c fun v =>
          { v with envStatus := .notRunnable, envIpcRecving := 1,
                   envIpcDstva := dstva }).schedRemove c with pos := pos }.envRun n) := by
  have hne : n ≠ c := by
    rintro rfl
    rw [envs_modifyEnv_self] at hn
    cases hn
  rw [envs_modifyEnv_ne _ _ hne] at hn
  exact .recv _ _ pos n hc hd hne hn

/-- **A successful step is one of the cases.** -/
theorem step_cases {s s' : Kernel} {ev : Event} (h : s.step ev = .ok s') :
    StepCases s ev s' := by
  cases ev with
  | create binary priority =>
    obtain ⟨e, p, q, hf, _, ⟨_, rfl⟩ | ⟨_, _, _, phys, _, _, rfl⟩⟩ := envCreatePriority_ok h
    · exact .createNoMem p _ s.kernelFrame s.timeFrame hf
    · exact .create p phys s.kernelFrame s.timeFrame hf
  | irq r =>
    obtain ⟨pos, n, hn, rfl⟩ := schedYield_ok h
    exact .switch s.kernelFrame (saveall irqStack r) pos n trivial hn
  | store va w =>
    obtain ⟨_, _, _, _, _, rfl⟩ := userStore_ok h
    exact .quiet _ s.kernelFrame s.timeFrame
  | svc r call =>
    have hstep := h
    obtain ⟨⟨x, t⟩, hs, rfl⟩ := Except.map_eq_ok_iff.mp h
    clear h
    unfold svc at hs
    split at hs
    · cases hs
    rename_i hcur
    cases call with
    | putchar ch => cases hs; exact .quiet _ _ _
    | getenvid =>
      simp only [syscall, sysGetenvid] at hs
      split at hs
      · cases hs
      · cases hs; exact .quiet _ _ _
    | yield =>
      obtain ⟨u, hu, h1⟩ := Except.bind_eq_ok_iff.mp hs
      cases h1
      obtain ⟨pos, n, hn, rfl⟩ := schedYield_ok hu
      exact .switch _ _ pos n trivial hn
    | envDestroy envid =>
      cases hres : s.envid2env envid true with
      | none =>
        have hres' : ({ s with kernelFrame := saveall syncStack r } : Kernel).envid2env envid true
            = none := hres
        simp only [syscall, sysEnvDestroy, hres'] at hs
        cases hs
        exact .quiet _ _ _
      | some e =>
        obtain ⟨phys, _, ⟨hc, rfl⟩ | ⟨hc, pos, n, hn, rfl⟩⟩ := svc_envDestroy_ok hres hstep
        · exact .destroy phys _ _ hres hc
        · exact .destroySelf phys _ _ pos n hres hc hn
    | setPgfaultHandler envid func xstacktop =>
      simp only [syscall, sysSetPgfaultHandler] at hs
      split at hs
      · cases hs; exact .quiet _ _ _
      · rename_i e he
        cases hs
        exact .handler _ _ he
    | memAlloc envid va perm =>
      obtain ⟨phys, rfl, _⟩ := sysMemAlloc_ok hs
      exact .quiet _ _ _
    | memMap srcid srcva dstid dstva perm =>
      obtain ⟨phys, rfl, _⟩ := sysMemMap_ok hs
      exact .quiet _ _ _
    | memUnmap envid va =>
      obtain ⟨phys, rfl, _⟩ := sysMemUnmap_ok hs
      exact .quiet _ _ _
    | envAlloc =>
      simp only [syscall, sysEnvAlloc] at hs
      split at hs
      · cases hs
      · rename_i c hc
        obtain ⟨⟨o, u⟩, hu, h1⟩ := Except.bind_eq_ok_iff.mp hs
        clear hs
        have ht : t = u := by
          rcases o with v | e <;> cases h1 <;> rfl
        subst ht
        rcases forkEnv_ok hu with ⟨_, rfl, _⟩ | ⟨e, p, q, v, phys, hf, _, _, _, rfl⟩
        · exact .quiet _ _ _
        · exact .fork p phys _ _ _ _ hc hf (by split <;> simp)
    | setEnvStatus envid w =>
      simp only [syscall, sysSetEnvStatus] at hs
      split at hs
      · cases hs; exact .quiet _ _ _
      · rename_i st hst
        split at hs
        · cases hs; exact .quiet _ _ _
        · rename_i e he
          cases hs
          exact .setStatus (s := s) (saveall syncStack r) s.timeFrame hst he
    | setTrapframe envid tf => cases hs
    | panic msg => cases hs; exact .quiet _ _ _
    | ipcCanSend envid value srcva perm =>
      obtain ⟨c, phys, hc, _, ⟨_, rfl⟩ | ⟨e, he, hst, hrecv, _, rfl⟩⟩ := sysIpcCanSend_ok hs
      · exact .quiet _ _ _
      · exact .send phys _ _ hc he hst hrecv
    | ipcRecv dstva =>
      obtain ⟨_, rfl⟩ | ⟨hd, c, pos, n, hc, hn, rfl⟩ := sysIpcRecv_ok hs
      · exact .quiet _ _ _
      · exact recv_case hc hd hn

end Kernel

end RaspiOS
