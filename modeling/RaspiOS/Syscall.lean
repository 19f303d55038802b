/-
# System calls, and the kernel as a transition system

`lib/syscall_all.c`, and one step function over everything that can enter the kernel after
`env_init`: `env_create_priority` from `main`, a system call, a timer interrupt, and, so that
user pages have contents, a store of the running environment to its own memory.

A system call takes its arguments as arbitrary words.  It runs for `curenv`; its handlers are
entered from `el0_sync`, which has saved the caller's registers below `KERNEL_SP`, and a timer
interrupt enters from `el0_irq`, which saves below `TIMESTACK`.  Which environment executes next
is decided by the code alone (`sched_yield`).
-/
import RaspiOS.Env

set_option autoImplicit false

namespace RaspiOS

open LinkedList

/-- Conversion of a 64-bit value to `int`, as in `return e->env_id` of an `int` function. -/
def toInt (w : Nat) : Int := Int.bmod w (2 ^ 32)

/-- The address `el0_irq` loads into `x16`: `TIMESTACK`. -/
def irqStack : Nat := 0x52000000

/-- The address `el0_sync` loads into `x16`: `KERNEL_SP`. -/
def syncStack : Nat := 0x51fff000

namespace Kernel

/-! ## 1. The handlers of `sys_call_table` -/

/-- `sys_getenvid`. -/
def sysGetenvid (s : Kernel) : Except Halt (Exit × Kernel) :=
  match s.curenv with
  | none => .error .noEnv
  | some c => .ok (.ret (s.envs c).envId, s)

/-- `sys_yield`. -/
def sysYield (s : Kernel) : Except Halt (Exit × Kernel) := do
  let s := { s with timeFrame := s.kernelFrame }
  return (.eret, ← s.schedYield)

/-- `sys_env_destroy`. -/
def sysEnvDestroy (s : Kernel) (envid : Nat) : Except Halt (Exit × Kernel) :=
  match s.envid2env envid true with
  | none => .ok (.ret (-eBadEnv), s)
  | some e => do
    let (exit, s) ← s.envDestroy e
    return (if exit = .eret then .eret else .ret 0, s)

/-- `sys_set_pgfault_handler`. -/
def sysSetPgfaultHandler (s : Kernel) (envid func xstacktop : Nat) : Except Halt (Exit × Kernel) :=
  match s.envid2env envid true with
  | none => .ok (.ret (-eInval), s)
  | some env =>
    .ok (.ret 0, s.modifyEnv env fun v =>
      { v with envPgfaultHandler := func, envXstacktop := xstacktop })

/-- `sys_mem_alloc`.  The frame is taken before the environment is looked up. -/
def sysMemAlloc (s : Kernel) (envid va perm : Nat) : Except Halt (Exit × Kernel) :=
  if perm &&& pteV = 0 then .ok (.ret (-eInval), s)
  else
    match s.phys.pageAlloc with
    | none => .ok (.ret (-eNoMem), s)
    | some (ppage, phys) =>
      let s := { s with phys := phys }
      match s.envid2env envid true with
      | none => .ok (.ret (-eBadEnv), s)
      | some env => do
        let (ret, phys) ← s.phys.pageInsert (s.envs env).envPgdir ppage va perm
        let s := { s with phys := phys }
        return (if ret < 0 then .ret (-eNoMem) else .ret 0, s)

/-- `sys_mem_map`. -/
def sysMemMap (s : Kernel) (srcid srcva dstid dstva perm : Nat) : Except Halt (Exit × Kernel) :=
  let roundSrcva := rounddown srcva by2pg
  let roundDstva := rounddown dstva by2pg
  match s.envid2env srcid true with
  | none => .ok (.ret (-eBadEnv), s)
  | some srcenv =>
    match s.envid2env dstid true with
    | none => .ok (.ret (-eBadEnv), s)
    | some dstenv =>
      if perm &&& pteV = 0 then .ok (.ret (-eNoMem), s)
      else do
        match ← s.phys.pageLookup (s.envs srcenv).envPgdir roundSrcva with
        | none => return (.ret (-eNoMem), s)
        | some (ppage, _) =>
          let (ret, phys) ← s.phys.pageInsert (s.envs dstenv).envPgdir ppage roundDstva perm
          let s := { s with phys := phys }
          return (if ret < 0 then .ret (-eNoMem) else .ret 0, s)

/-- `sys_mem_unmap`. -/
def sysMemUnmap (s : Kernel) (envid va : Nat) : Except Halt (Exit × Kernel) :=
  match s.envid2env envid true with
  | none => .ok (.ret (-eBadEnv), s)
  | some env => do
    let phys ← s.phys.pageRemove (s.envs env).envPgdir va
    return (.ret 0, { s with phys := phys })

/-- `bcopy(currentsp, newpage, BY2PG)`: the source is read through the active directory, the
destination is a physical address.  An unmapped source is a data abort in the kernel. -/
def bcopyPage (p : Phys) (active : Nat) (va : Nat) (newpage : Nat) : Except Halt Phys :=
  match translate p.mem active va with
  | none => .error .fault
  | some t => .ok (p.copyPage t.frame newpage)

/-- The loop of `sys_env_alloc` over the stack pages from `currentsp` on, with the number of
pages left; what `page_insert` returns is not read. -/
def forkStack (active child : Nat) : Nat → Nat → Phys → Except Halt (Int × Phys)
  | 0, _, p => .ok (0, p)
  | n + 1, currentsp, p =>
    match p.pageAlloc with
    | none => .ok (-eNoMem, p)
    | some (pp, p) => do
      let p ← bcopyPage p active currentsp pp
      let (_, p) ← p.pageInsert child pp currentsp pteV
      forkStack active child n (currentsp + by2pg) p

/-- `sys_env_alloc` up to its `return`: an error code, or the child.  The directory the hardware
walks all the while is the one the caller entered with. -/
def forkEnv (s : Kernel) (c : Slot) : Except Halt ((Int ⊕ Slot) × Kernel) := do
  let active := (s.envs c).envPgdir
  match ← s.envAlloc (s.envs c).envId with
  | (none, s) => return (.inl (-eNoFreeEnv), s)
  | (some e, s) =>
    let s := s.modifyEnv e fun v =>
      { v with
        envStatus := .notRunnable
        envTf := { s.kernelFrame with x := fun i => if i = 0 then 0 else s.kernelFrame.x i }
        envPri := (s.envs c).envPri }
    let currentsp := rounddown (s.envs e).envTf.sp by2pg
    let (r, phys) ← forkStack active (s.envs e).envPgdir
      ((ustacktop - currentsp) / by2pg) currentsp s.phys
    let s := { s with phys := phys }
    if r < 0 then return (.inl r, s)
    else return (.inr e, s.modifyEnv e fun v => { v with envStatus := .runnable })

/-- `sys_env_alloc`. -/
def sysEnvAlloc (s : Kernel) : Except Halt (Exit × Kernel) :=
  match s.curenv with
  | none => .error .noEnv
  | some c => do
    match ← s.forkEnv c with
    | (.inl r, s) => return (.ret r, s)
    | (.inr e, s) => return (.ret (toInt (s.envs e).envId), s)

/-- `sys_set_env_status`.  The target is looked up without the permission check. -/
def sysSetEnvStatus (s : Kernel) (envid status : Nat) : Except Halt (Exit × Kernel) :=
  match EnvStatus.ofWord status with
  | none => .ok (.ret (-eInval), s)
  | some status =>
    match s.envid2env envid false with
    | none => .ok (.ret (-eBadEnv), s)
    | some env =>
      let s :=
        if (status = .notRunnable ∨ status = .free) ∧ (s.envs env).envStatus ≠ status then
          s.schedRemove env
        else if status = .runnable then s.schedInsertHead env
        else s
      .ok (.ret 0, s.modifyEnv env fun v => { v with envStatus := status })

/-- `sys_ipc_recv`. -/
def sysIpcRecv (s : Kernel) (dstva : Nat) : Except Halt (Exit × Kernel) :=
  match s.curenv with
  | none => .error .noEnv
  | some c =>
    if utop ≤ dstva then .ok (.void, s)
    else do
      let s := s.modifyEnv c fun v =>
        { v with envStatus := .notRunnable, envIpcRecving := 1, envIpcDstva := dstva }
      let s := s.schedRemove c
      let s := { s with timeFrame := s.kernelFrame }
      return (.eret, ← s.schedYield)

/-- The assignments with which `sys_ipc_can_send` delivers. -/
def ipcDeliver (s : Kernel) (c e : Slot) (value perm : Nat) : Kernel :=
  let s := s.modifyEnv e fun v =>
    { v with
      envIpcValue := value, envIpcFrom := (s.envs c).envId, envIpcPerm := perm
      envIpcRecving := 0, envStatus := .runnable }
  s.schedInsertHead e

/-- `sys_ipc_can_send`. -/
def sysIpcCanSend (s : Kernel) (envid value srcva perm : Nat) : Except Halt (Exit × Kernel) :=
  match s.curenv with
  | none => .error .noEnv
  | some c =>
    match s.envid2env envid false with
    | none => .ok (.ret (-eBadEnv), s)
    | some e =>
      if (s.envs e).envStatus ≠ .notRunnable ∨ (s.envs e).envIpcRecving = 0 then
        .ok (.ret (-eIpcNotRecv), s)
      else if utop ≤ srcva then .ok (.ret (-eNoMem), s)
      else if srcva ≠ 0 then do
        match ← s.phys.pageLookup (s.envs c).envPgdir srcva with
        | none => return (.ret (-eNoMem), s)
        | some (p, _) =>
          let (r, phys) ← s.phys.pageInsert (s.envs e).envPgdir p (s.envs e).envIpcDstva perm
          let s := { s with phys := phys }
          if r < 0 then return (.ret (-eNoMem), s)
          else return (.ret 0, s.ipcDeliver c e value perm)
      else .ok (.ret 0, s.ipcDeliver c e value perm)

end Kernel

/-! ## 2. The transition system -/

/-- The entries of `sys_call_table`, with their arguments. -/
inductive Syscall where
  | putchar (ch : Nat)
  | getenvid
  | yield
  | envDestroy (envid : Nat)
  | setPgfaultHandler (envid func xstacktop : Nat)
  | memAlloc (envid va perm : Nat)
  | memMap (srcid srcva dstid dstva perm : Nat)
  | memUnmap (envid va : Nat)
  | envAlloc
  | setEnvStatus (envid status : Nat)
  | setTrapframe (envid tf : Nat)
  | panic (msg : Nat)
  | ipcCanSend (envid value srcva perm : Nat)
  | ipcRecv (dstva : Nat)
deriving DecidableEq

/-- What can happen. -/
inductive Event where
  /-- `main` creates an environment -/
  | create (binary priority : Nat)
  /-- the running environment, with these registers, makes a system call -/
  | svc (r : Regs) (call : Syscall)
  /-- a timer interrupt, with these registers -/
  | irq (r : Regs)
  /-- the running environment stores a word -/
  | store (va : Nat) (w : Nat)

namespace Kernel

/-- The handler of a system call. -/
def syscall (s : Kernel) : Syscall → Except Halt (Exit × Kernel)
  | .putchar _ => .ok (.ret 0, s)
  | .getenvid => s.sysGetenvid
  | .yield => s.sysYield
  | .envDestroy envid => s.sysEnvDestroy envid
  | .setPgfaultHandler envid func xstacktop => s.sysSetPgfaultHandler envid func xstacktop
  | .memAlloc envid va perm => s.sysMemAlloc envid va perm
  | .memMap srcid srcva dstid dstva perm => s.sysMemMap srcid srcva dstid dstva perm
  | .memUnmap envid va => s.sysMemUnmap envid va
  | .envAlloc => s.sysEnvAlloc
  | .setEnvStatus envid status => s.sysSetEnvStatus envid status
  | .setTrapframe _ _ => .error .sysSetTrapframePanic
  | .panic _ => .ok (.void, s)
  | .ipcCanSend envid value srcva perm => s.sysIpcCanSend envid value srcva perm
  | .ipcRecv dstva => s.sysIpcRecv dstva

/-- `el0_sync`: save the registers below `KERNEL_SP` and call the handler. -/
def svc (s : Kernel) (r : Regs) (call : Syscall) : Except Halt (Exit × Kernel) :=
  if s.curenv = none then .error .noEnv
  else { s with kernelFrame := saveall syncStack r }.syscall call

/-- `el0_irq`: save the registers below `TIMESTACK` and run `handle_irq`. -/
def irq (s : Kernel) (r : Regs) : Except Halt Kernel :=
  { s with timeFrame := saveall irqStack r }.schedYield

/-- A store of the running environment: through its own directory, to a writable page.  One that faults
is no step: `el0_sync` does not ask for the cause and dispatches the abort by `x0`, so it is the system
call that `x0` selects. -/
def userStore (s : Kernel) (va : Nat) (w : Nat) : Except Halt Kernel :=
  match s.curenv with
  | none => .error .noEnv
  | some c =>
    match translate s.phys.mem (s.envs c).envPgdir va with
    | none => .error .fault
    | some t =>
      if t.attrs &&& pteRO ≠ 0 then .error .fault
      else
        .ok { s with phys := s.phys.store ⟨t.frame, Fin.ofNat 512 (va >>> 3)⟩ w }

/-- One step of the kernel. -/
def step (s : Kernel) : Event → Except Halt Kernel
  | .create binary priority => s.envCreatePriority binary priority
  | .svc r call => (s.svc r call).map Prod.snd
  | .irq r => s.irq r
  | .store va w => s.userStore va w

end Kernel

end RaspiOS
