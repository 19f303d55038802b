/-
# A system call, from the program and back

`user/syscall_lib.c` and `msyscall` put the number and the arguments of a system call into registers,
`el0_sync` of `lib/entry.S` saves the registers and calls the entry of `sys_call_table` with them, and
the functions of `lib/syscall_all.c` take their parameters from there.  The kernel model starts behind
all this, with a `Syscall`.  This module runs the code in front of it and behind it, on the registers
of the core.

A call that comes back restores the registers with code of its own, which differs from the macro
`restore` in that `x0` keeps the result (`library_call`).  A call that gives the processor away comes
back through `env_pop_tf` (`blocking_call`), with the registers that `envs[]` has kept meanwhile.
-/
import RaspiOS.Dispatch

set_option autoImplicit false

namespace RaspiOS

open A64 (Core Flow Instr State)

/-! ## 1. The two ends -/

/-- The functions of `user/syscall_lib.c` that call `msyscall`. -/
inductive LibCall where
  | putchar (ch : Nat)
  | getenvid
  | yield
  | envDestroy (envid : Nat)
  | setPgfaultHandler (envid func xstacktop : Nat)
  | memAlloc (envid va perm : Nat)
  | memMap (srcid srcva dstid dstva perm : Nat)
  | memUnmap (envid va : Nat)
  | envAlloc
  | setEnvStatus (envid status : Nat)
  | ipcCanSend (envid value srcva perm : Nat)
  | ipcRecv (dstva : Nat)
  | cgetc

/-- The arguments of `msyscall`. -/
structure Msyscall where
  no : Nat
  a1 : Nat
  a2 : Nat
  a3 : Nat
  a4 : Nat
  a5 : Nat

namespace LibCall

/-- What the functions pass to `msyscall`. -/
def msyscall : LibCall → Msyscall
  | putchar ch => ⟨syscallBase + 0, ch, 0, 0, 0, 0⟩
  | getenvid => ⟨syscallBase + 1, 0, 0, 0, 0, 0⟩
  | yield => ⟨syscallBase + 2, 0, 0, 0, 0, 0⟩
  | envDestroy envid => ⟨syscallBase + 3, envid, 0, 0, 0, 0⟩
  | setPgfaultHandler envid func xstacktop => ⟨syscallBase + 4, envid, func, xstacktop, 0, 0⟩
  | memAlloc envid va perm => ⟨syscallBase + 5, envid, va, perm, 0, 0⟩
  | memMap srcid srcva dstid dstva perm => ⟨syscallBase + 6, srcid, srcva, dstid, dstva, perm⟩
  | memUnmap envid va => ⟨syscallBase + 7, envid, va, 0, 0, 0⟩
  | envAlloc => ⟨syscallBase + 8, 0, 0, 0, 0, 0⟩
  | setEnvStatus envid status => ⟨syscallBase + 9, envid, status, 0, 0, 0⟩
  | ipcCanSend envid value srcva perm => ⟨syscallBase + 12, envid, value, srcva, perm, 0⟩
  | ipcRecv dstva => ⟨syscallBase + 13, dstva, 0, 0, 0, 0⟩
  | cgetc => ⟨sysCgetc, 0, 0, 0, 0, 0⟩

/-- The system call a function is named after; there is none for `syscall_cgetc`. -/
def asks : LibCall → Option Syscall
  | putchar ch => some (.putchar ch)
  | getenvid => some .getenvid
  | yield => some .yield
  | envDestroy envid => some (.envDestroy envid)
  | setPgfaultHandler envid func xstacktop => some (.setPgfaultHandler envid func xstacktop)
  | memAlloc envid va perm => some (.memAlloc envid va perm)
  | memMap srcid srcva dstid dstva perm => some (.memMap srcid srcva dstid dstva perm)
  | memUnmap envid va => some (.memUnmap envid va)
  | envAlloc => some .envAlloc
  | setEnvStatus envid status => some (.setEnvStatus envid status)
  | ipcCanSend envid value srcva perm => some (.ipcCanSend envid value srcva perm)
  | ipcRecv dstva => some (.ipcRecv dstva)
  | cgetc => none

end LibCall

/-- The arguments of `msyscall` are in the first registers when it executes `svc`. -/
structure Issues (σ : State) (m : Msyscall) : Prop where
  no : σ.x 0 = m.no
  a1 : σ.x 1 = m.a1
  a2 : σ.x 2 = m.a2
  a3 : σ.x 3 = m.a3
  a4 : σ.x 4 = m.a4
  a5 : σ.x 5 = m.a5

/-- What the functions of the table take from the registers: `x0` is `sysno`, which none of them
reads. -/
def Handler.call (x : Fin 31 → Nat) : Handler → Syscall
  | .sysPutchar => .putchar (x 1)
  | .sysGetenvid => .getenvid
  | .sysYield => .yield
  | .sysEnvDestroy => .envDestroy (x 1)
  | .sysSetPgfaultHandler => .setPgfaultHandler (x 1) (x 2) (x 3)
  | .sysMemAlloc => .memAlloc (x 1) (x 2) (x 3)
  | .sysMemMap => .memMap (x 1) (x 2) (x 3) (x 4) (x 5)
  | .sysMemUnmap => .memUnmap (x 1) (x 2)
  | .sysEnvAlloc => .envAlloc
  | .sysSetEnvStatus => .setEnvStatus (x 1) (x 2)
  | .sysSetTrapframe => .setTrapframe (x 1) (x 2)
  | .sysPanic => .panic (x 1)
  | .sysIpcCanSend => .ipcCanSend (x 1) (x 2) (x 3) (x 4)
  | .sysIpcRecv => .ipcRecv (x 1)

theorem Handler.call_congr {x y : Fin 31 → Nat} (h : ∀ i : Fin 31, 1 ≤ i.val → i.val ≤ 5 → x i = y i)
    (f : Handler) : f.call x = f.call y := by
  have h1 := h 1 (by decide) (by decide)
  have h2 := h 2 (by decide) (by decide)
  have h3 := h 3 (by decide) (by decide)
  have h4 := h 4 (by decide) (by decide)
  have h5 := h 5 (by decide) (by decide)
  cases f <;> simp only [call, h1, h2, h3, h4, h5]

/-- **The two ends agree** on the numbers and on the order of the parameters. -/
theorem LibCall.decoded {l : LibCall} {call : Syscall} {σ : State} (hl : l.asks = some call)
    (h : Issues σ l.msyscall) : ∃ (k : Nat) (hk : k < sysCallTable.length),
      σ.x 0 = syscallBase + k ∧ (sysCallTable.get ⟨k, hk⟩).call σ.x = call := by
  obtain ⟨h0, h1, h2, h3, h4, h5⟩ := h
  cases l <;> cases hl
  case putchar => exact ⟨0, by decide, h0, congrArg Syscall.putchar h1⟩
  case getenvid => exact ⟨1, by decide, h0, rfl⟩
  case yield => exact ⟨2, by decide, h0, rfl⟩
  case envDestroy => exact ⟨3, by decide, h0, congrArg Syscall.envDestroy h1⟩
  case setPgfaultHandler =>
    exact ⟨4, by decide, h0, congr (congr (congrArg Syscall.setPgfaultHandler h1) h2) h3⟩
  case memAlloc => exact ⟨5, by decide, h0, congr (congr (congrArg Syscall.memAlloc h1) h2) h3⟩
  case memMap =>
    exact ⟨6, by decide, h0, congr (congr (congr (congr (congrArg Syscall.memMap h1) h2) h3) h4) h5⟩
  case memUnmap => exact ⟨7, by decide, h0, congr (congrArg Syscall.memUnmap h1) h2⟩
  case envAlloc => exact ⟨8, by decide, h0, rfl⟩
  case setEnvStatus => exact ⟨9, by decide, h0, congr (congrArg Syscall.setEnvStatus h1) h2⟩
  case ipcCanSend =>
    exact ⟨12, by decide, h0, congr (congr (congr (congrArg Syscall.ipcCanSend h1) h2) h3) h4⟩
  case ipcRecv => exact ⟨13, by decide, h0, congrArg Syscall.ipcRecv h1⟩

/-! ## 2. The way in -/

/-- `el0_sync` up to the instruction that calls the handler. -/
def el0SyncHead (table : Nat) : List (Flow EntryLabel) :=
  (vectorEntry syncStack).map .plain ++
  [.plain (.ldrConst 17 syscallBase), .sub 0 0 17, .cmp 0 nrSyscalls, .bge .invalidSyscall,
   .adr 17 table, .addLsl 17 17 0 3, .ldr 17 17]

theorem el0SyncCode_eq (table : Nat) : el0SyncCode table = el0SyncHead table ++ [.blr 17] := rfl

/-- The load of the handler's address. -/
theorem runFlow_load {c : Core} {table nr slot : Nat} (hnr : c.x 0 = nr)
    (hslot : (table + nr * 2 ^ 3) % 2 ^ 64 = slot) (hmapped : c.mapped slot = true) :
    A64.runFlow c ([.adr 17 table, .addLsl 17 17 0 3, .ldr 17 17] : List (Flow EntryLabel))
      = .ok { c.setState (((c.setX 17 table).setX 17 slot).setX 17 (c.mem slot)) with
              loads := slot :: c.loads } := by
  set d := c.setState ((c.setX 17 table).setX 17 slot) with hd
  have hadd : A64.flow (c.setState (c.setX 17 table)) (.addLsl 17 17 0 3 : Flow EntryLabel)
      = .ok d := by
    have h0 : (c.setX 17 table).x 0 = nr := (State.x_setX_ne _ _ (by decide)).trans hnr
    have h17 : (c.setX 17 table).x 17 = table := State.x_setX_self _ _ _
    rw [hd, ← hslot, ← h0]
    nth_rewrite 3 [← h17]
    rfl
  have h17 : d.x 17 = slot := State.x_setX_self _ _ _
  have hldr : A64.flow d (.ldr 17 17 : Flow EntryLabel)
      = .ok { d.setState (d.setX 17 (c.mem slot)) with loads := slot :: c.loads } := by
    rw [← h17] at hmapped ⊢
    exact if_pos hmapped
  rw [A64.runFlow_ok (d := c.setState (c.setX 17 table)) rfl, A64.runFlow_ok hadd,
    A64.runFlow_ok hldr]
  rfl

/-- What the vector entry leaves in the registers it does not use. -/
theorem x_vectorEntry_ne (σ : State) (stack : Nat) {i : Fin 31} (hi : i ≠ 16) :
    (A64.run σ (vectorEntry stack)).x i = σ.x i := by
  fin_cases i <;> first | rfl | exact absurd rfl hi

/-- The core when the handler is called: `f` is the function, `r` are the registers of the caller. -/
structure AtHandler (addr : Handler → Nat) (f : Handler) (r : Regs) (d : Core) : Prop where
  target : d.x 17 = addr f
  args : f.call d.x = f.call r.x
  sp : d.sp = syncStack - sizeofTrapframe
  frame : HoldsFrame d.mem d.sp (saveall syncStack r)

/-- **The way in**: a number of the table leads to its entry, with the parameters where the caller has
put them and the registers of the caller below `KERNEL_SP`. -/
theorem el0SyncHead_ok {table : Nat} {addr : Handler → Nat} {c : Core}
    (htable : HoldsTable c table addr) {k : Nat} (hk : k < sysCallTable.length)
    (hx : c.x 0 = syscallBase + k) : ∃ d, A64.runFlow c (el0SyncHead table) = .ok d ∧
      AtHandler addr (sysCallTable.get ⟨k, hk⟩) (userRegs c.toState) d := by
  obtain ⟨hnr, hsmall⟩ := callNumber_add hk
  obtain ⟨hslot, hword⟩ := htable.slot hk
  set σ := A64.run c.toState (vectorEntry syncStack) with hσ
  have hσ0 : (c.setState σ).x 0 = syscallBase + k := (x_vectorEntry _ _).trans hx
  have hframe := holdsFrame_vectorEntry c.toState syncStack
  rw [← hσ] at hframe
  have hrun : A64.runFlow c (el0SyncHead table) = A64.runFlow (c.setState σ)
      (.plain (.ldrConst 17 syscallBase) :: .sub 0 0 17 :: .cmp 0 nrSyscalls ::
        .bge .invalidSyscall :: [.adr 17 table, .addLsl 17 17 0 3, .ldr 17 17]) :=
    A64.runFlow_plain c (vectorEntry syncStack) _
  rw [hrun, runFlow_check hσ0 hnr, if_neg hsmall]
  refine ⟨_, runFlow_load (State.x_setX_self _ _ _) hslot (htable.mapped k hk), hword,
    Handler.call_congr (fun i hlo hhi => ?_) _, rfl, hframe⟩
  have h0 : i ≠ 0 := by
    rintro rfl
    simp at hlo
  have hne : ∀ j : Fin 31, 16 ≤ j.val → i ≠ j := by
    rintro j hj rfl
    omega
  have h17 := hne 17 (by decide)
  have hi : σ.x i = c.x i := x_vectorEntry_ne _ _ (hne 16 (by decide))
  change (((((σ.setX 17 syscallBase).setX 0 k).setX 17 table).setX 17 (table + 8 * k)).setX 17
    (σ.mem (table + 8 * k))).x i = _
  rw [State.x_setX_ne _ _ h17, State.x_setX_ne _ _ h17, State.x_setX_ne _ _ h17,
    State.x_setX_ne _ _ h0, State.x_setX_ne _ _ h17, hi]
  rfl

/-! ## 3. The way out -/

/-- `el0_sync` after the call of the handler, up to the instruction that drops the frame. -/
def el0SyncReturn : List Instr :=
  [.ldr 1 .sp (8 * 1), .ldp 2 3 .sp (16 * 1), .ldp 4 5 .sp (16 * 2), .ldp 6 7 .sp (16 * 3),
   .ldp 8 9 .sp (16 * 4), .ldp 10 11 .sp (16 * 5), .ldp 12 13 .sp (16 * 6), .ldp 14 15 .sp (16 * 7),
   .ldp 16 17 .sp (16 * 8), .ldp 18 19 .sp (16 * 9), .ldp 20 21 .sp (16 * 10),
   .ldp 22 23 .sp (16 * 11), .ldp 24 25 .sp (16 * 12), .ldp 26 27 .sp (16 * 13),
   .ldp 28 29 .sp (16 * 14), .ldr 30 .sp (16 * 15),
   .ldr 16 .sp (8 * 31), .msr .spEl0 16,
   .ldr 16 .sp (8 * 33), .msr .spsrEl1 16,
   .ldr 16 .sp (8 * 34), .msr .elrEl1 16]

/-- The registers of the caller when the call has returned `v`: `x16` has been used for the system
registers, last for the program counter. -/
def Regs.returned (r : Regs) (v : Nat) : Regs :=
  { r with x := fun i => if i = 0 then v else if i = 16 then r.pc else r.x i }

theorem x_el0SyncReturn (σ : State) (i : Fin 31) : (A64.run σ el0SyncReturn).x i =
    if i = 0 then σ.x 0 else if i = 16 then σ.mem (σ.sp + 8 * 34) else σ.mem (σ.sp + 8 * i.val) := by
  fin_cases i <;> rfl

/-- **The way out**: every register of the caller but `x0`, which is the result, and `x16`. -/
theorem userRegs_el0SyncReturn {σ : State} {stack : Nat} {r : Regs}
    (h : HoldsFrame σ.mem σ.sp (saveall stack r)) :
    userRegs (A64.run σ el0SyncReturn) = r.returned (σ.x 0) := by
  have hx : (A64.run σ el0SyncReturn).x = (r.returned (σ.x 0)).x := by
    funext i
    have h34 : σ.mem (σ.sp + 8 * 34) = r.pc := h 34
    have hi : σ.mem (σ.sp + 8 * i.val) = (saveall stack r).x i := by
      have h35 := h ⟨i.val, by omega⟩
      simpa [Trapframe.word] using h35
    rw [x_el0SyncReturn, h34, hi]
    by_cases h16 : i = 16
    · simp [Regs.returned, h16]
    · simp [Regs.returned, saveall, h16]
  have hsp : (A64.run σ el0SyncReturn).sys .spEl0 = r.spEl0 := h 31
  have hpc : (A64.run σ el0SyncReturn).sys .elrEl1 = r.pc := h 34
  have hps : (A64.run σ el0SyncReturn).sys .spsrEl1 = r.pstate := h 33
  rw [userRegs, hx, hsp, hpc, hps]
  rfl

/-! ## 4. In between -/

namespace Kernel

variable {s s' u : Kernel} {c : Slot} {x : Exit} {r : Regs} {call : Syscall}

@[simp] theorem kernelFrame_modifyEnv (s : Kernel) (e : Slot) (f : Env → Env) :
    (s.modifyEnv e f).kernelFrame = s.kernelFrame := rfl

@[simp] theorem kernelFrame_envRun (s : Kernel) (e : Slot) :
    (s.envRun e).kernelFrame = s.kernelFrame := by
  unfold envRun
  split <;> rfl

@[simp] theorem kernelFrame_freed (s : Kernel) (e : Slot) :
    (s.freed e).kernelFrame = s.kernelFrame := rfl

theorem kernelFrame_relink (s : Kernel) (e : Slot) (st : EnvStatus) :
    (s.relink e st).kernelFrame = s.kernelFrame := by
  unfold relink
  split_ifs <;> rfl

theorem kernelFrame_schedYield (h : s.schedYield = .ok s') : s'.kernelFrame = s.kernelFrame := by
  obtain ⟨pos, n, _, rfl⟩ := schedYield_ok h
  exact kernelFrame_envRun _ _

/-- **No handler writes the frame it was called with.** -/
theorem kernelFrame_syscall (h : s.syscall call = .ok (x, s')) : s'.kernelFrame = s.kernelFrame := by
  cases call with
  | putchar ch => cases h; rfl
  | panic msg => cases h; rfl
  | setTrapframe envid tf => cases h
  | getenvid =>
    simp only [syscall, sysGetenvid] at h
    split at h
    · cases h
    · cases h; rfl
  | yield =>
    obtain ⟨t, ht, h1⟩ := Except.bind_eq_ok_iff.mp h
    cases h1
    have hk := kernelFrame_schedYield ht
    exact hk
  | envDestroy envid =>
    simp only [syscall, sysEnvDestroy] at h
    split at h
    · cases h; rfl
    · obtain ⟨⟨y, t⟩, ht, h1⟩ := Except.bind_eq_ok_iff.mp h
      cases h1
      obtain ⟨phys, _, ⟨_, _, rfl⟩ | ⟨_, _, pos, n, _, rfl⟩⟩ := envDestroy_ok ht
      · rfl
      · exact kernelFrame_envRun _ _
  | setPgfaultHandler envid func xstacktop =>
    simp only [syscall, sysSetPgfaultHandler] at h
    split at h
    · cases h; rfl
    · cases h; rfl
  | memAlloc envid va perm =>
    obtain ⟨phys, rfl, _⟩ := sysMemAlloc_ok h
    rfl
  | memMap srcid srcva dstid dstva perm =>
    obtain ⟨phys, rfl, _⟩ := sysMemMap_ok h
    rfl
  | memUnmap envid va =>
    obtain ⟨phys, rfl, _⟩ := sysMemUnmap_ok h
    rfl
  | envAlloc =>
    simp only [syscall, sysEnvAlloc] at h
    split at h
    · cases h
    · obtain ⟨⟨v, t⟩, ht, h1⟩ := Except.bind_eq_ok_iff.mp h
      have ht' : t = s' := by
        cases v <;> cases h1 <;> rfl
      rw [← ht']
      obtain ⟨_, rfl, _⟩ | ⟨e, p, q, v, phys, _, _, _, _, rfl⟩ := forkEnv_ok ht <;> rfl
  | setEnvStatus envid status =>
    simp only [syscall, sysSetEnvStatus] at h
    split at h
    · cases h; rfl
    · split at h
      · cases h; rfl
      · cases h
        exact kernelFrame_relink _ _ _
  | ipcCanSend envid value srcva perm =>
    obtain ⟨c, phys, _, _, ⟨_, rfl⟩ | ⟨e, _, _, _, _, rfl⟩⟩ := sysIpcCanSend_ok h <;> rfl
  | ipcRecv dstva =>
    obtain ⟨_, rfl⟩ | ⟨_, c, pos, n, _, _, rfl⟩ := sysIpcRecv_ok h
    · rfl
    · exact kernelFrame_envRun _ _

/-- The frame below `KERNEL_SP` after a system call. -/
theorem kernelFrame_svc (h : s.svc r call = .ok (x, s')) : s'.kernelFrame = saveall syncStack r := by
  unfold svc at h
  split at h
  · cases h
  · exact kernelFrame_syscall h

/-! ## 5. The whole way -/

/-- **A call of the library.**  The program has put a call `l` of the library into its registers and
executes `svc`.  Then `el0_sync` calls the function of that name with the arguments the program gave,
and has saved the frame that the kernel model starts with.  Where the kernel model returns from the
call, the caller finds its registers as they were, but for the result in `x0` and the program counter
in `x16`. -/
theorem library_call {table : Nat} {addr : Handler → Nat} {l : LibCall} {core : Core}
    (htable : HoldsTable core table addr) (hl : l.asks = some call)
    (hissue : Issues core.toState l.msyscall) :
    ∃ (f : Handler) (d : Core), A64.runFlow core (el0SyncHead table) = .ok d ∧
      d.x 17 = addr f ∧ f.call d.x = call ∧
      HoldsFrame d.mem d.sp (saveall syncStack (userRegs core.toState)) ∧
      ∀ (s s' : Kernel) (x : Exit) (σ : State),
        s.svc (userRegs core.toState) call = .ok (x, s') → x ≠ .eret →
        σ.sp = d.sp → HoldsFrame σ.mem d.sp s'.kernelFrame →
        userRegs (A64.run σ el0SyncReturn) = (userRegs core.toState).returned (σ.x 0) := by
  obtain ⟨k, hk, hx, hcall⟩ := LibCall.decoded hl hissue
  obtain ⟨d, hd, hat⟩ := el0SyncHead_ok htable hk hx
  refine ⟨_, d, hd, hat.target, hat.args.trans hcall, hat.frame, fun s s' x σ hs _ hsp hframe => ?_⟩
  rw [kernelFrame_svc hs, ← hsp] at hframe
  exact userRegs_el0SyncReturn hframe

/-- A core that enters the kernel with `sys_mem_alloc(1, 0x80001000, 0x403)`, and with as many distinct
values in the other registers. -/
def allocatingCore : Core :=
  { enteringCore 9532 with
    x := fun i => if i = 0 then 9532 else if i = 1 then 1 else if i = 2 then 0x80001000
      else if i = 3 then 0x403 else if i = 4 ∨ i = 5 then 0 else 2000 + i.val }

/-- There is no environment 1, so the first environment gets `-E_BAD_ENV`, and everything else as it
was. -/
theorem library_call_memAlloc : ∃ (f : Handler) (d : Core) (s s' : Kernel), s.Reachable ∧
    A64.runFlow allocatingCore (el0SyncHead 0x90000) = .ok d ∧ d.x 17 = handlerAddr f ∧
    f.call d.x = .memAlloc 1 0x80001000 0x403 ∧
    s.svc (userRegs allocatingCore.toState) (.memAlloc 1 0x80001000 0x403)
      = .ok (.ret (-eBadEnv), s') ∧
    ∀ σ : State, σ.sp = d.sp → HoldsFrame σ.mem d.sp s'.kernelFrame → σ.x 0 = 2 ^ 64 - 2 →
      userRegs (A64.run σ el0SyncReturn) = (userRegs allocatingCore.toState).returned (2 ^ 64 - 2) := by
  obtain ⟨s₀, s, base, ρ, hb, _, hr, n, hn, h⟩ := firstEnv_reached .zero
  have hbase := h.base_le
  obtain ⟨_, q, _, hq, _⟩ := h.nextFrame (by simp only [npage]; omega)
  have hsvc := svc_memAlloc_bad (userRegs allocatingCore.toState) 0x80001000 0x403 h.cur (by decide)
    hq h.no_second
  have hentering := holdsTable_enteringCore 9532
  have htable : HoldsTable allocatingCore 0x90000 handlerAddr :=
    ⟨hentering.fits, hentering.word, hentering.mapped⟩
  obtain ⟨f, d, hd, htarget, hcall, _, hback⟩ := library_call (l := .memAlloc 1 0x80001000 0x403)
    htable rfl ⟨rfl, rfl, rfl, rfl, rfl, rfl⟩
  refine ⟨f, d, s, _, ⟨image, coldRam, s₀, _, hb, hr.unguarded⟩, hd, htarget, hcall, hsvc,
    fun σ hsp hframe hx => ?_⟩
  rw [hback s _ _ σ hsvc (by simp) hsp hframe, hx]

/-- The frame of a caller that gives the processor away. -/
theorem envTf_blocking (hcall : call = .yield ∨ ∃ dstva, call = .ipcRecv dstva)
    (hc : s.curenv = some c) (h : s.svc r call = .ok (.eret, s')) :
    (s'.envs c).envTf = saveall syncStack r := by
  unfold svc at h
  rw [if_neg (by rw [hc]; simp)] at h
  rcases hcall with rfl | ⟨dstva, rfl⟩
  · obtain ⟨t, ht, h1⟩ := Except.bind_eq_ok_iff.mp h
    cases h1
    obtain ⟨pos, n, _, rfl⟩ := schedYield_ok ht
    rw [envs_envRun]
    exact if_pos hc
  · have hlow : ¬ utop ≤ dstva := by
      intro hle
      simp only [syscall, sysIpcRecv, hc, if_pos hle] at h
      cases h
    obtain ⟨hle, _⟩ | ⟨_, c', pos, n, hc', _, rfl⟩ := sysIpcRecv_ok h
    · exact absurd hle hlow
    · obtain rfl : c = c' := Option.some.inj (hc.symm.trans hc')
      rw [envs_envRun]
      exact if_pos hc

/-- **A call that gives the processor away.**  An environment calls `sys_yield` or `sys_ipc_recv` with
registers `r` and is resumed after any tame steps that neither run it nor give its slot away: it finds
its registers as they were, but for the address of its own frame in `x16` and the program counter in
`x17`. -/
theorem blocking_call {R : Records} {k : Kernel} {es : List Event} {σ : State}
    (hreach : R.TameReachable s) (hcall : call = .yield ∨ ∃ dstva, call = .ipcRecv dstva)
    (hc : s.curenv = some c) (hs : s.svc r call = .ok (.eret, k))
    (hst : R.step s (.svc r call) = .ok s')
    (hr : Run R.step (fun t ev => t.Tame ev ∧ Away c t ev) s' es u)
    (hσ : PopEntry R.envs u c σ) : userRegs (A64.run σ envPopTf) =
      { r with x := fun i => if i = 16 then tfAddr R.envs c else if i = 17 then r.pc else r.x i } := by
  obtain ⟨L, base, ρ, fl, hf, hin⟩ := MachineInv.ofReachable hreach
  have htame : s.Tame (.svc r call) := by rcases hcall with rfl | ⟨dstva, rfl⟩ <;> trivial
  have hk : s.step (.svc r call) = .ok k := by rw [step, hs]; rfl
  obtain ⟨_, ρ', fl', hk', rfl, _, hin'⟩ := hin.step hf htame hst
  cases hk.symm.trans hk'
  have hsaved := envTf_blocking hcall hc hs
  obtain ⟨_, htf⟩ := hr.invariant
    (I := fun t => (∃ ρ fl, MachineInv R L base ρ fl t) ∧ (t.envs c).envTf = saveall syncStack r)
    ⟨⟨ρ', fl', hin'⟩, hsaved⟩ fun t ev t' hI hg ht => by
      obtain ⟨⟨ρ, fl, hin⟩, htf⟩ := hI
      obtain ⟨v, ρ', fl', hv, rfl, _, hin'⟩ := hin.step hf hg.1 ht
      exact ⟨⟨ρ', fl', hin'⟩, (step_envTf hv hg.2).trans htf⟩
  rw [userRegs_envPopTf hσ.tf hσ.frame, htf]
  have hx : (poppedRegs (tfAddr R.envs c) (saveall syncStack r)).x
      = fun i => if i = 16 then tfAddr R.envs c else if i = 17 then r.pc else r.x i := by
    funext i
    by_cases h16 : i = 16
    · simp [poppedRegs, h16]
    · simp [poppedRegs, saveall, h16]
  rw [← hx]
  rfl

/-- With one environment `sys_yield` comes back to it. -/
theorem yield_resumes {base n : Nat} {km : Mem} {ρ : Nat → Role} (h : FirstEnv base km n ρ s)
    (r : Regs) : ∃ u, s.svc r .yield = .ok (.eret, u) ∧ u.curenv = some 0 := by
  obtain ⟨pos, hpos⟩ := schedYield_only
    (s := { s with kernelFrame := saveall syncStack r, timeFrame := saveall syncStack r })
    h.status (fun e he => by rw [show (s.envs e) = .zero from h.other e he]; decide)
  refine ⟨({ s with
    kernelFrame := saveall syncStack r, timeFrame := saveall syncStack r, pos := pos } :
      Kernel).envRun 0, ?_, curenv_envRun _ _⟩
  unfold svc
  rw [if_neg (by rw [h.cur]; simp)]
  exact Except.bind_eq_ok_iff.mpr ⟨_, hpos, rfl⟩

/-- The only environment yields and goes on. -/
theorem blocking_call_yield : ∃ (R : Records) (s u : Kernel) (σ : State), R.TameReachable s ∧
    R.step s (.svc .zero .yield) = .ok u ∧ PopEntry R.envs u 0 σ ∧
    (userRegs (A64.run σ envPopTf)).x 0 = 0 := by
  obtain ⟨R, s₀, s, base, n, ρ, hb, _, _, hr, _, _, h⟩ := firstEnv_inRam
  have hreach := Records.TameReachable.ofImage hb hr
  obtain ⟨k, hk, hcur⟩ := yield_resumes h .zero
  have htame : s.Tame (.svc .zero .yield) := trivial
  have hst : s.step (.svc .zero .yield) = .ok k := by rw [step, hk]; rfl
  obtain ⟨hm, _⟩ := hreach.step_ok htame hst
  have hcur' : (R.flush k).curenv = some 0 := hcur
  obtain ⟨σ, hσ⟩ := exists_popEntry R.envs hcur'
  refine ⟨R, s, _, σ, hreach, hm, hσ, ?_⟩
  rw [blocking_call hreach (Or.inl rfl) h.cur hk hm .nil hσ]
  rfl

end Kernel

end RaspiOS
