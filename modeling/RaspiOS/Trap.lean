/-
# Registers across preemption

The vector code of `lib/entry.S` saves the registers of the interrupted environment below
`TIMESTACK`, `env_run` copies the frame into `env_tf`, and `env_pop_tf` of `lib/irq.S` loads it
when the environment runs again.  Both assembly routines need a register to address memory with:
`el0_irq` loads the stack address into `x16` before it has saved `x16`, and `env_pop_tf` keeps the
address of the frame in `x16`, uses `x17` for the system registers, and never loads the two from
the frame.

So a preempted environment gets back every register but those two (`regs_preserved_iff`).  The
first part of this module runs the assembly and shows that it computes what the kernel model says
of it; the second follows `env_tf` through a run.
-/
import Mathlib.Tactic.FinCases
import RaspiOS.Status

set_option autoImplicit false

namespace RaspiOS

open A64 (Instr State SysReg)

/-! ## 1. The assembly -/

/-- `saveall`. -/
def saveallCode : List Instr :=
  [.subSp 280,
   .stp 0 1 .sp (16 * 0), .stp 2 3 .sp (16 * 1), .stp 4 5 .sp (16 * 2), .stp 6 7 .sp (16 * 3),
   .stp 8 9 .sp (16 * 4), .stp 10 11 .sp (16 * 5), .stp 12 13 .sp (16 * 6),
   .stp 14 15 .sp (16 * 7), .stp 16 17 .sp (16 * 8), .stp 18 19 .sp (16 * 9),
   .stp 20 21 .sp (16 * 10), .stp 22 23 .sp (16 * 11), .stp 24 25 .sp (16 * 12),
   .stp 26 27 .sp (16 * 13), .stp 28 29 .sp (16 * 14), .str 30 .sp (16 * 15),
   .mrs 16 .spEl0, .str 16 .sp (8 * 31),
   .mrs 16 .elrEl1, .str 16 .sp (8 * 32), .str 16 .sp (8 * 34),
   .mrs 16 .spsrEl1, .str 16 .sp (8 * 33)]

/-- `CLI`, the stack and `saveall`: what `el0_irq` and `el0_sync` begin with. -/
def vectorEntry (stack : Nat) : List Instr :=
  [.msrDaifset 2, .ldrConst 16 stack, .movSp 16] ++ saveallCode

/-- `env_pop_tf` up to its `eret`. -/
def envPopTf : List Instr :=
  [.mov 16 0, .msr .ttbr0El1 1,
   .ldp 0 1 (.reg 16) (16 * 0), .ldp 2 3 (.reg 16) (16 * 1), .ldp 4 5 (.reg 16) (16 * 2),
   .ldp 6 7 (.reg 16) (16 * 3), .ldp 8 9 (.reg 16) (16 * 4), .ldp 10 11 (.reg 16) (16 * 5),
   .ldp 12 13 (.reg 16) (16 * 6), .ldp 14 15 (.reg 16) (16 * 7), .ldp 18 19 (.reg 16) (16 * 9),
   .ldp 20 21 (.reg 16) (16 * 10), .ldp 22 23 (.reg 16) (16 * 11), .ldp 24 25 (.reg 16) (16 * 12),
   .ldp 26 27 (.reg 16) (16 * 13), .ldp 28 29 (.reg 16) (16 * 14), .ldr 30 (.reg 16) (16 * 15),
   .ldr 17 (.reg 16) (8 * 31), .msr .spEl0 17,
   .ldr 17 (.reg 16) (8 * 33), .msr .spsrEl1 17,
   .ldr 17 (.reg 16) (8 * 34), .msr .elrEl1 17]

/-- The registers of user mode, as an exception leaves them and as `eret` takes them. -/
def userRegs (σ : State) : Regs :=
  ⟨σ.x, σ.sys .spEl0, σ.sys .elrEl1, σ.sys .spsrEl1⟩

/-- `sizeof(struct Trapframe)`. -/
def sizeofTrapframe : Nat := 280

/-- The doublewords of a `struct Trapframe`. -/
def Trapframe.word (tf : Trapframe) (i : Fin 35) : Nat :=
  if h : i.val < 31 then tf.x ⟨i, h⟩
  else if i = 31 then tf.sp
  else if i = 32 then tf.elrEl1
  else if i = 33 then tf.pstate
  else tf.pc

/-- Memory holds the frame at an address. -/
def HoldsFrame (mem : Nat → Nat) (a : Nat) (tf : Trapframe) : Prop :=
  ∀ i : Fin 35, mem (a + 8 * i.val) = tf.word i

/-- The frame in the registers of the core, as `saveall` finds them. -/
def savedFrame (σ : State) : Trapframe :=
  ⟨σ.x, σ.sys .spEl0, σ.sys .elrEl1, σ.sys .spsrEl1, σ.sys .elrEl1⟩

/-- `saveall` writes the frame below the stack pointer. -/
theorem holdsFrame_saveall (σ : State) :
    HoldsFrame (A64.run σ saveallCode).mem (σ.sp - sizeofTrapframe) (savedFrame σ) := by
  intro i
  have hsize : sizeofTrapframe = 280 := rfl
  rw [hsize]
  -- one doubleword a time, newest first
  simp only [A64.run, saveallCode, List.foldl_cons, List.foldl_nil, A64.exec, State.base_sp,
    State.sp_store, State.sp_setX, State.mem_store, State.mem_setX, State.x_store, State.sys_store,
    State.sys_setX, State.x_setX_self]
  fin_cases i <;> rfl

/-- **What the vector code leaves below the stack address** is the frame of the kernel model: the
stack address stands in the place of `x16`. -/
theorem holdsFrame_vectorEntry (σ : State) (stack : Nat) :
    HoldsFrame (A64.run σ (vectorEntry stack)).mem (stack - sizeofTrapframe)
      (saveall stack (userRegs σ)) := by
  rw [vectorEntry, A64.run_append]
  exact holdsFrame_saveall _

/-- Every general register after `env_pop_tf`: `x16` keeps the address of the frame and `x17` what
it held last. -/
theorem x_envPopTf (σ : State) (i : Fin 31) : (A64.run σ envPopTf).x i =
    if i = 16 then σ.x 0 else if i = 17 then σ.mem (σ.x 0 + 8 * 34)
    else σ.mem (σ.x 0 + 8 * i.val) := by
  fin_cases i <;> rfl

/-- The registers with which an environment enters user mode, from its frame and the address of
the frame. -/
def poppedRegs (a : Nat) (tf : Trapframe) : Regs :=
  ⟨fun i => if i = 16 then a else if i = 17 then tf.pc else tf.x i, tf.sp, tf.pc, tf.pstate⟩

/-- **What `env_pop_tf` loads.** -/
theorem userRegs_envPopTf {σ : State} {a : Nat} {tf : Trapframe} (ha : σ.x 0 = a)
    (h : HoldsFrame σ.mem a tf) : userRegs (A64.run σ envPopTf) = poppedRegs a tf := by
  subst ha
  have hx : (A64.run σ envPopTf).x = (poppedRegs (σ.x 0) tf).x := by
    funext i
    rw [x_envPopTf]
    have h34 : σ.mem (σ.x 0 + 8 * 34) = tf.pc := h 34
    have hi : σ.mem (σ.x 0 + 8 * i.val) = tf.x i := by
      have h35 := h ⟨i.val, by omega⟩
      simpa [Trapframe.word] using h35
    rw [h34, hi]
    rfl
  have hsp : (A64.run σ envPopTf).sys .spEl0 = tf.sp := h 31
  have hpc : (A64.run σ envPopTf).sys .elrEl1 = tf.pc := h 34
  have hps : (A64.run σ envPopTf).sys .spsrEl1 = tf.pstate := h 33
  rw [userRegs, hx, hsp, hpc, hps]
  rfl

/-- `&envs[e].env_tf`, from the value of `envs`. -/
def tfAddr (envs : Nat) (e : Slot) : Nat := envs + e.val * Boot.sizeofEnv

/-- The core enters `env_pop_tf(&(curenv->env_tf), curenv->env_pgdir)`. -/
structure PopEntry (envs : Nat) (s : Kernel) (e : Slot) (σ : State) : Prop where
  cur : s.curenv = some e
  tf : σ.x 0 = tfAddr envs e
  pgdir : σ.x 1 = page2pa (s.envs e).envPgdir
  frame : HoldsFrame σ.mem (tfAddr envs e) (s.envs e).envTf

/-- Memory that holds a frame at an address and nothing else. -/
def frameAt (a : Nat) (tf : Trapframe) (b : Nat) : Nat :=
  if h : (b - a) / 8 < 35 then tf.word ⟨(b - a) / 8, h⟩ else 0

theorem holdsFrame_frameAt (a : Nat) (tf : Trapframe) : HoldsFrame (frameAt a tf) a tf := by
  intro i
  have hi : (a + 8 * i.val - a) / 8 = i.val := by omega
  simp only [frameAt, hi, i.isLt, dite_true]

/-- There is a core that enters `env_pop_tf` for the current environment. -/
theorem exists_popEntry (envs : Nat) {s : Kernel} {e : Slot} (hc : s.curenv = some e) :
    ∃ σ, PopEntry envs s e σ :=
  ⟨⟨fun i => if i = 0 then tfAddr envs e else page2pa (s.envs e).envPgdir, 0, fun _ => 0,
    frameAt (tfAddr envs e) (s.envs e).envTf⟩, hc, rfl, rfl, holdsFrame_frameAt _ _⟩

namespace Kernel

/-! ## 2. `env_tf` along a run -/

/-- The slot is neither running nor about to be given to another environment. -/
def Away (c : Slot) (s : Kernel) (ev : Event) : Prop :=
  s.curenv ≠ some c ∧ (ev.allocates = true → s.envFreeList.first () ≠ some c)

/-- **A step leaves the frame of every environment alone** that does not run and whose slot it does
not give away. -/
theorem step_envTf {s s' : Kernel} {ev : Event} {c : Slot} (h : s.step ev = .ok s')
    (hc : Away c s ev) : (s'.envs c).envTf = (s.envs c).envTf := by
  obtain ⟨hcur, hnew⟩ := hc
  cases step_cases h with
  | quiet phys kf tf => rfl
  | @create _ _ e p phys kf tf hf =>
    have hce : c ≠ e := fun hce => hnew rfl (hce ▸ hf)
    simp [schedInsertHead, allocated, modifyEnv, withMem, hce]
  | @createNoMem _ _ e p phys kf tf hf =>
    have hce : c ≠ e := fun hce => hnew rfl (hce ▸ hf)
    simp [allocated, modifyEnv, withMem, hce]
  | switch kf tf pos n _ hn =>
    rw [envs_envRun]
    exact if_neg hcur
  | @destroy _ _ e phys kf tf _ _ =>
    by_cases hce : c = e
    · rw [hce, envs_freed_self]
      rfl
    · rw [envs_freed_ne _ hce]
      rfl
  | @destroySelf _ _ e phys kf tf pos n _ _ _ =>
    rw [envs_envRun]
    by_cases hce : c = e
    · rw [hce, envs_freed_self]
      rfl
    · rw [envs_freed_ne _ hce]
      rfl
  | @handler _ _ _ _ e kf tf _ =>
    by_cases hce : c = e
    · rw [hce, envs_modifyEnv_self]
      rfl
    · rw [envs_modifyEnv_ne _ _ hce]
      rfl
  | @fork _ d e p phys kf tf ctf st _ hf _ =>
    have hce : c ≠ e := fun hce => hnew rfl (hce ▸ hf)
    simp [allocated, modifyEnv, withMem, hce]
  | @setStatus _ _ _ st e kf tf _ _ =>
    by_cases hce : c = e
    · rw [hce, envs_modifyEnv_self, envs_relink]
      rfl
    · rw [envs_modifyEnv_ne _ _ hce, envs_relink]
      rfl
  | @recv _ _ d kf tf pos n hd _ _ _ =>
    have hcd : c ≠ d := fun hcd => hcur (hcd ▸ hd)
    rw [envs_envRun]
    refine (if_neg hcur).trans ?_
    simp [schedRemove, modifyEnv, withMem, hcd]
  | @send _ _ _ _ _ d e phys kf tf _ _ _ _ =>
    by_cases hce : c = e
    · simp [ipcDeliver, schedInsertHead, modifyEnv, withMem, hce]
    · simp [ipcDeliver, schedInsertHead, modifyEnv, withMem, hce]

/-- The frame the interrupt has saved, once the environment is in nobody's way. -/
theorem run_envTf {s s' u : Kernel} {c : Slot} {r : Regs} {es : List Event}
    (hc : s.curenv = some c) (hirq : s.step (.irq r) = .ok s') (hr : Run step (Away c) s' es u) :
    (u.envs c).envTf = saveall irqStack r := by
  refine hr.invariant (I := fun t => (t.envs c).envTf = saveall irqStack r) ?_ ?_
  · obtain ⟨pos, n, _, rfl⟩ := schedYield_ok hirq
    rw [envs_envRun]
    exact if_pos hc
  · intro t ev t' ht haway hst
    rw [step_envTf hst haway, ht]

/-- **When preemption preserves the registers.**  An environment is interrupted with registers `r`
and resumed after any steps that neither run it nor give its slot away: it finds its registers as
they were exactly if `x16` held the address of its own frame in the kernel and `x17` the program
counter. -/
theorem regs_preserved_iff {envs : Nat} {s s' u : Kernel} {c : Slot} {r : Regs} {es : List Event}
    {σ : State} (hc : s.curenv = some c) (hirq : s.step (.irq r) = .ok s')
    (hr : Run step (Away c) s' es u) (hσ : PopEntry envs u c σ) :
    userRegs (A64.run σ envPopTf) = r ↔ r.x 16 = tfAddr envs c ∧ r.x 17 = r.pc := by
  have hframe := hσ.frame
  rw [run_envTf hc hirq hr] at hframe
  rw [userRegs_envPopTf hσ.tf hframe]
  constructor
  · intro h
    have hx := congrArg Regs.x h
    exact ⟨(congrFun hx 16).symm, (congrFun hx 17).symm⟩
  · rintro ⟨h16, h17⟩
    have hx : (poppedRegs (tfAddr envs c) (saveall irqStack r)).x = r.x := by
      funext i
      by_cases hi16 : i = 16
      · rw [hi16, h16]
        rfl
      · by_cases hi17 : i = 17
        · rw [hi17, h17]
          rfl
        · simp [poppedRegs, saveall, hi16, hi17]
    cases r
    simp only [poppedRegs] at hx ⊢
    rw [hx]
    rfl

/-- With two environments a timer interrupt gives the processor to the other one. -/
theorem irq_second {base : Nat} {km : Mem} {ρ : Nat → Role} {s : Kernel} (h : SecondEnv base km ρ s)
    (r : Regs) : ∃ u, s.step (.irq r) = .ok u ∧ u.curenv = some 1 ∧ u.stat = s.stat := by
  have hone : posSlot ((s.pos + 1) % (nenv : Int)) = 1 := by
    rw [h.pos]
    decide
  have hnext := schedYield_next (s := { s with timeFrame := saveall irqStack r })
  simp only [hone] at hnext
  refine ⟨_, hnext (h.status 1 (Or.inr rfl)), curenv_envRun _ _, funext fun e => ?_⟩
  unfold stat
  rw [envs_envRun]

/-- With one environment a timer interrupt resumes it. -/
theorem irq_resumes {base n : Nat} {km : Mem} {ρ : Nat → Role} {s : Kernel}
    (h : FirstEnv base km n ρ s) (r : Regs) :
    ∃ u, s.step (.irq r) = .ok u ∧ u.curenv = some 0 := by
  obtain ⟨pos, hpos⟩ := schedYield_only (s := { s with timeFrame := saveall irqStack r }) h.status
    (fun e he => by rw [show (s.envs e) = .zero from h.other e he]; decide)
  exact ⟨_, hpos, curenv_envRun _ _⟩

/-- Registers that survive: the address of the first frame in `x16`, and `x17` equal to `pc`. -/
def survivors : Regs :=
  ⟨fun i => if i = 16 then 0x4fb000 else if i = 17 then 0x80400 else 1000 + i.val,
    0xdfffdff0, 0x80400, 5⟩

/-- The first environment is interrupted with them, the second makes a system call and then waits for a
message, and the first goes on with them. -/
theorem regs_preserved_frame : ∃ (s s' u : Kernel) (σ : State), s.Reachable ∧
    s.step (.irq survivors) = .ok s' ∧ s'.curenv = some 1 ∧
    Run step (Away 0) s' [.svc .zero .getenvid, .svc .zero (.ipcRecv 0)] u ∧
    PopEntry 0x4fb000 u 0 σ ∧ userRegs (A64.run σ envPopTf) = survivors := by
  obtain ⟨s₀, s, base, ρ, hb, _, hr, h⟩ := secondEnv_reached .zero
  obtain ⟨s₁, hs₁, hcur₁, hstat₁⟩ := irq_second h survivors
  have hs₂ : s₁.step (.svc .zero .getenvid)
      = .ok { s₁ with kernelFrame := saveall syncStack .zero } := by
    simp only [step, svc, hcur₁, syscall, sysGetenvid]
    rfl
  have hrun : (s₁.envs 0).envStatus = .runnable :=
    (congrArg Prod.fst (congrFun hstat₁ 0)).trans (h.status 0 (Or.inl rfl))
  obtain ⟨u, n, hs₃, hn1, hn, _, hturn, _⟩ :=
    step_ipcRecv (s := { s₁ with kernelFrame := saveall syncStack .zero }) (c := 1) (e := 0) .zero
      hcur₁ (by decide : 0 < utop) (by decide) hrun
  have hn0 : n = 0 := by
    by_contra hn0
    have hzero := congrArg Prod.fst (congrFun hstat₁ n)
    have hother : (s.stat n).1 = .free := by
      rw [stat, h.other n hn0 hn1]
      rfl
    exact absurd ((hn.symm.trans hzero).trans hother) (by decide)
  have hcur := hturn.cur
  rw [hn0] at hcur
  obtain ⟨σ, hσ⟩ := exists_popEntry 0x4fb000 hcur
  have haway : ∀ {t : Kernel} {r : Regs} {call : Syscall}, t.curenv = some 1 → call ≠ .envAlloc →
      Away 0 t (.svc r call) := by
    intro t r call ht hcall
    refine ⟨by rw [ht]; decide, fun halloc => ?_⟩
    cases call <;> first | exact absurd rfl hcall | cases halloc
  have hrun₂ : Run step (Away 0) s₁ [.svc .zero .getenvid, .svc .zero (.ipcRecv 0)] u :=
    (Run.single (haway hcur₁ (by simp)) hs₂).snoc (haway hcur₁ (by simp)) hs₃
  exact ⟨s, s₁, u, σ, ⟨image, coldRam, s₀, _, hb, hr.unguarded⟩, hs₁, hcur₁, hrun₂, hσ,
    (regs_preserved_iff h.cur hs₁ hrun₂ hσ).mpr ⟨by decide, by decide⟩⟩

/-- **Preemption does not preserve the registers.**  The only environment is interrupted with `pc`
at its entry point and every general register zero, and comes back with the entry point in
`x17`. -/
theorem regs_not_preserved : ¬ ∀ (envs : Nat) (s s' u : Kernel) (c : Slot) (r : Regs)
    (es : List Event) (σ : State), s.Reachable → s.curenv = some c →
    s.step (.irq r) = .ok s' → Run step (Away c) s' es u → PopEntry envs u c σ →
    userRegs (A64.run σ envPopTf) = r := by
  intro hall
  obtain ⟨s₀, s, base, ρ, hb, _, hr, _, _, h⟩ := firstEnv_reached .zero
  obtain ⟨u, hu, hcur⟩ := irq_resumes h ⟨fun _ => 0, 0, 0x80000, 0⟩
  obtain ⟨σ, hσ⟩ := exists_popEntry 0 hcur
  have hsame := hall 0 s u u 0 _ [] σ
    ⟨image, coldRam, s₀, _, hb, hr.unguarded⟩ h.cur hu .nil hσ
  have hframe := hσ.frame
  rw [run_envTf h.cur hu .nil] at hframe
  rw [userRegs_envPopTf hσ.tf hframe] at hsame
  have h17 := congrFun (congrArg Regs.x hsame) 17
  exact absurd h17 (by decide)

end Kernel

end RaspiOS
