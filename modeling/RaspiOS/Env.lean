/-
# Environments and the scheduler

`include/env.h`, `include/trapframe.h`, `lib/env.c` and `lib/sched.c`.  The environment table is
a function on the 1024 slots; a `struct Env *` is a slot, so `e - envs` is its number and a
pointer outside the table cannot be written down.  The two link fields of `struct Env` live in
`envFreeList` and `envSched`, with the heads of the lists that use them.  The table is memory as well,
which a page call or a store can reach: `EnvTable.lean` puts it there, and `InRam.lean` says for which
steps the two agree.

`env_run` ends in `eret` and does not come back.  Where the C code calls `sched_yield`, the
function here returns the state in which the chosen environment enters user mode, and an `Exit`
says which of the two happened.

One field is a ghost, read by no function: `schedLog` records every `LIST_REMOVE` and
`LIST_INSERT_HEAD` on `env_sched_link` with the links they were applied to.  `printf` output and
`remaining_time`, which is only ever set to zero, are left out.
-/
import RaspiOS.Pmap
import RaspiOS.Lib.A64

set_option autoImplicit false

namespace RaspiOS

open LinkedList

/-! ## 1. Trap frames -/

/-- `struct Trapframe`. -/
structure Trapframe where
  x : Fin 31 → Nat
  sp : Nat
  elrEl1 : Nat
  pstate : Nat
  pc : Nat

/-- All bytes zero, as `alloc` leaves the table. -/
def Trapframe.zero : Trapframe := ⟨fun _ => 0, 0, 0, 0, 0⟩

/-- The registers of an environment in user mode. -/
structure Regs where
  x : Fin 31 → Nat
  spEl0 : Nat
  pc : Nat
  pstate : Nat

/-- The frame `saveall` stores (`lib/entry.S`).  The vector code has loaded the address of the
kernel stack into `x16` before it, so that is what the slot of `x16` receives. -/
def saveall (x16 : Nat) (r : Regs) : Trapframe :=
  { x := fun i => if i = 16 then x16 else r.x i
    sp := r.spEl0
    elrEl1 := r.pc
    pstate := r.pstate
    pc := r.pc }

/-! ## 2. Environments -/

/-- `env_status`: `ENV_FREE`, `ENV_RUNNABLE`, `ENV_NOT_RUNNABLE`. -/
inductive EnvStatus where
  | free
  | runnable
  | notRunnable
deriving DecidableEq

/-- The status a word stands for; `none` for the values no macro names. -/
def EnvStatus.ofWord : Nat → Option EnvStatus
  | 0 => some .free
  | 1 => some .runnable
  | 2 => some .notRunnable
  | _ => none

/-- A `struct Env *`: an index below `NENV`. -/
abbrev Slot := Fin 1024

/-- `NENV`. -/
def nenv : Nat := 1 <<< 10

/-- `LOG2NENV`. -/
def log2nenv : Nat := 10

/-- `struct Env`, less its link fields. -/
structure Env where
  envTf : Trapframe
  envId : Nat
  envParentId : Nat
  envStatus : EnvStatus
  envPgdir : Nat
  envPri : Nat
  envIpcValue : Nat
  envIpcFrom : Nat
  envIpcRecving : Nat
  envIpcDstva : Nat
  envIpcPerm : Nat
  envPgfaultHandler : Nat
  envXstacktop : Nat
  envRuns : Nat

/-- All bytes zero. -/
def Env.zero : Env := ⟨.zero, 0, 0, .free, 0, 0, 0, 0, 0, 0, 0, 0, 0, 0⟩

/-- A list macro applied to `env_sched_link`, with the links it was applied to. -/
inductive SchedOp where
  | remove (e : Slot) (links : Links (Fin 2) Slot)
  | insertHead (i : Fin 2) (e : Slot) (links : Links (Fin 2) Slot)

/-- There are scheduling lists. -/
instance neZeroLists : NeZero 2 := ⟨by decide⟩

instance neZeroSlots : NeZero 1024 := ⟨by decide⟩

/-- The state of the kernel. -/
structure Kernel where
  phys : Phys
  /-- `_pg_dir` -/
  pgDir : Nat
  envs : Slot → Env
  envFreeList : Links Unit Slot
  /-- `env_sched_link` and the two heads of `env_sched_list` -/
  envSched : Links (Fin 2) Slot
  schedLog : List SchedOp
  curSched : Fin 2
  curenv : Option Slot
  /-- the static counter of `mkenvid` -/
  nextEnvId : Nat
  /-- the static cursor of `sched_yield` -/
  pos : Int
  /-- the trap frame below `KERNEL_SP` -/
  kernelFrame : Trapframe
  /-- the trap frame below `TIMESTACK` -/
  timeFrame : Trapframe

/-- How a kernel entry ends in user mode: back in the caller with a value, back in the caller of a
`void` function, or in whatever environment the scheduler chose. -/
inductive Exit where
  | ret (v : Int)
  | void
  | eret
deriving DecidableEq

namespace Kernel

/-- An assignment to fields of one environment. -/
def modifyEnv (s : Kernel) (e : Slot) (f : Env → Env) : Kernel :=
  { s with envs := fun e' => if e' = e then f (s.envs e) else s.envs e' }

/-- `LIST_REMOVE(e, env_sched_link)`. -/
def schedRemove (s : Kernel) (e : Slot) : Kernel :=
  { s with envSched := s.envSched.remove e, schedLog := .remove e s.envSched :: s.schedLog }

/-- `LIST_INSERT_HEAD(&(env_sched_list[cur_sched]), e, env_sched_link)`. -/
def schedInsertHead (s : Kernel) (e : Slot) : Kernel :=
  { s with envSched := s.envSched.insertHead s.curSched e
           schedLog := .insertHead s.curSched e s.envSched :: s.schedLog }

/-! ## 3. Identifiers -/

/-- `ENVX(envid)`: the low ten bits. -/
def envx (envid : Nat) : Slot := Fin.ofNat 1024 envid

/-- The id `mkenvid(e)` returns; it also advances the counter to `nextCounter`. -/
def mkenvid (s : Kernel) (e : Slot) : Nat :=
  (((s.nextEnvId + 1) % 2 ^ 64) <<< (1 + log2nenv)) % 2 ^ 64 ||| e

/-- `++next_env_id`. -/
def nextCounter (s : Kernel) : Nat := (s.nextEnvId + 1) % 2 ^ 64

/-- `envid2env(envid, &e, checkperm)`: `none` is `-E_BAD_ENV`.  For `envid` zero the answer is
`curenv`, whatever its status; no kernel entry calls it without one. -/
def envid2env (s : Kernel) (envid : Nat) (checkperm : Bool) : Option Slot :=
  if envid = 0 then s.curenv
  else
    let e := envx envid
    if (s.envs e).envStatus = .free ∨ (s.envs e).envId ≠ envid then none
    else if checkperm ∧ s.curenv ≠ some e ∧
        s.curenv.map (fun c => (s.envs c).envId) ≠ some (s.envs e).envParentId then none
    else some e

/-! ## 4. Allocation -/

/-- `env_setup_vm`: a directory that starts as a copy of the 512 entries of `_pg_dir`. -/
def envSetupVm (s : Kernel) (e : Slot) : Except Halt Kernel :=
  match s.phys.pageAlloc with
  | none => .error .envSetupVmPanic
  | some (p, phys) =>
    let phys := phys.incRef p
    let phys := phys.copyPage s.pgDir p
    .ok ({ s with phys := phys }.modifyEnv e fun v => { v with envPgdir := p })

/-- `env_alloc`; `none` is `-E_NO_FREE_ENV`. -/
def envAlloc (s : Kernel) (parentId : Nat) : Except Halt (Option Slot × Kernel) :=
  match s.envFreeList.first () with
  | none => .ok (none, s)
  | some e => do
    let s ← s.envSetupVm e
    let id := s.mkenvid e
    let s := { s with nextEnvId := s.nextCounter }
    let s := s.modifyEnv e fun v =>
      { v with
        envParentId := parentId, envStatus := .runnable, envRuns := 0, envId := id
        envTf := { v.envTf with sp := ustacktop } }
    return (some e, { s with envFreeList := s.envFreeList.remove e })

/-- `p->pp_ref++` with `p` null: the halfword at offset 16 of `struct Page`, that is the low half
of the third word of memory. -/
def incRefNull (p : Phys) : Phys :=
  let w := p.load ⟨0, 2⟩
  p.store ⟨0, 2⟩ (w / 2 ^ 16 * 2 ^ 16 + (w + 1) % 2 ^ 16)

/-- `env_create_priority(binary, size, priority)`; `size` is not read. -/
def envCreatePriority (s : Kernel) (binary priority : Nat) : Except Halt Kernel := do
  match ← s.envAlloc 0 with
  | (none, _) => .error .envCreatePanic
  | (some e, s) =>
    match s.phys.pageAlloc with
    | none => return { s with phys := incRefNull s.phys }
    | some (p, phys) =>
      let phys := phys.incRef p
      let (_, phys) ← phys.pageInsert (s.envs e).envPgdir p (ustacktop - by2pg) pteV
      let s := { s with phys := phys }
      let s := s.modifyEnv e fun v =>
        { v with envPri := priority, envTf := { v.envTf with pc := binary, sp := ustacktop } }
      return s.schedInsertHead e

/-! ## 5. Running and destroying -/

/-- `env_run`: save the frame at `TIMESTACK` for the environment that ran, and enter `e`. -/
def envRun (s : Kernel) (e : Slot) : Kernel :=
  let s := match s.curenv with
    | some c => s.modifyEnv c fun v =>
        { v with envTf := { s.timeFrame with pc := s.timeFrame.elrEl1 } }
    | none => s
  let s := { s with curenv := some e }
  s.modifyEnv e fun v => { v with envRuns := (v.envRuns + 1) % 2 ^ 64 }

/-- The slot the cursor of the scheduler points at. -/
def posSlot (pos : Int) : Slot := Fin.ofNat 1024 pos.toNat

/-- The loop of `sched_yield`, cut off after a number of rounds. -/
def schedLoop : Nat → Kernel → Except Halt Kernel
  | 0, _ => .error .hang
  | fuel + 1, s =>
    let s := { s with pos := (s.pos + 1) % nenv }
    if (s.envs (posSlot s.pos)).envStatus = .runnable then .ok (s.envRun (posSlot s.pos))
    else schedLoop fuel s

/-- `sched_yield`: after `NENV` rounds without a `RUNNABLE` slot the loop repeats itself for
ever. -/
def schedYield (s : Kernel) : Except Halt Kernel := schedLoop nenv s

/-- The innermost loop of `env_free`. -/
def envFreePtes (pgdir : Nat) (pudno pmdno : Fin 512) (pmdEntry : Nat) (p : Phys) :
    Except Halt Phys :=
  (List.finRange 512).foldlM (fun p pteno =>
    if ¬ Valid (p.mem pmdEntry pteno) then
      p.pageRemove pgdir
        ((pudno.val <<< 30) + (pmdno.val <<< 21) + (pteno.val <<< 12))
    else .ok p) p

/-- The middle loop of `env_free`: each table is handed to `page_remove` by its physical
address. -/
def envFreePmds (pgdir : Nat) (pudno : Fin 512) (pudEntry : Nat) (p : Phys) :
    Except Halt Phys :=
  (List.finRange 512).foldlM (fun p pmdno =>
    if ¬ Valid (p.mem pudEntry pmdno) then .ok p
    else do
      let pmdEntry := ppn (p.mem pudEntry pmdno)
      let p ← envFreePtes pgdir pudno pmdno pmdEntry p
      p.pageRemove pgdir (page2pa pmdEntry)) p

/-- The outer loop of `env_free`, from `PUDX(0xc0000000)` on. -/
def envFreePuds (pgdir : Nat) (p : Phys) : Except Halt Phys :=
  ((List.finRange 512).drop (pudx 0xc0000000)).foldlM (fun p pudno =>
    if ¬ Valid (p.mem pgdir pudno) then .ok p
    else do
      let pudEntry := ppn (p.mem pgdir pudno)
      let p ← envFreePmds pgdir pudno pudEntry p
      p.pageRemove pgdir (page2pa pudEntry)) p

/-- `env_free`. -/
def envFree (s : Kernel) (e : Slot) : Except Halt Kernel := do
  let phys ← envFreePuds (s.envs e).envPgdir s.phys
  let s := { s with phys := phys }
  let s := s.modifyEnv e fun v => { v with envPgdir := 0, envStatus := .free }
  let s := { s with envFreeList := s.envFreeList.insertHead () e }
  return s.schedRemove e

/-- `env_destroy`. -/
def envDestroy (s : Kernel) (e : Slot) : Except Halt (Exit × Kernel) := do
  let s ← s.envFree e
  if s.curenv = some e then
    let s := { s with curenv := none, timeFrame := s.kernelFrame }
    return (.eret, ← s.schedYield)
  else return (.void, s)

/-- One round of the loop of `env_init`: slot `i` is marked free and put in front of the list. -/
def envInitSlot (st : (Slot → Env) × Links Unit Slot) (i : Slot) : (Slot → Env) × Links Unit Slot :=
  ((fun e => if e = i then { st.1 i with envStatus := .free } else st.1 e),
    st.2.insertHead () i)

/-- `env_init`, on top of a table that `alloc` has zeroed. -/
def envInit (s : Kernel) : Kernel :=
  let st := (List.finRange 1024).reverse.foldl envInitSlot (s.envs, s.envFreeList.init ())
  { s with
    envs := st.1, envFreeList := st.2
    envSched := (s.envSched.init 0).init 1, curSched := 0 }

end Kernel

end RaspiOS
