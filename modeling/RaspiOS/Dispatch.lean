/-
# The way into a system call

`el0_sync` of `lib/entry.S` is entered for every synchronous exception from exception level 0: system
calls, but also faults and undefined instructions.  It does not read `ESR_EL1`, so it takes each of
them for a system call whose number is in `x0`.  The check of the number is one signed comparison with
20, for a table of 14 entries.

`el0Sync` is the code up to the call, and `dispatch_closed_iff` says for which causes and which values
of `x0` it does what it is for.
-/
import RaspiOS.Lib.A64Flow
import RaspiOS.Trap

set_option autoImplicit false

namespace RaspiOS

open A64 (Core Flow Instr Leave State)

/-! ## 1. The table and the code -/

/-- The functions of `sys_call_table`. -/
inductive Handler where
  | sysPutchar
  | sysGetenvid
  | sysYield
  | sysEnvDestroy
  | sysSetPgfaultHandler
  | sysMemAlloc
  | sysMemMap
  | sysMemUnmap
  | sysEnvAlloc
  | sysSetEnvStatus
  | sysSetTrapframe
  | sysPanic
  | sysIpcCanSend
  | sysIpcRecv
deriving DecidableEq

/-- `sys_call_table`. -/
def sysCallTable : List Handler :=
  [.sysPutchar, .sysGetenvid, .sysYield, .sysEnvDestroy, .sysSetPgfaultHandler, .sysMemAlloc,
   .sysMemMap, .sysMemUnmap, .sysEnvAlloc, .sysSetEnvStatus, .sysSetTrapframe, .sysPanic,
   .sysIpcCanSend, .sysIpcRecv]

/-- `__SYSCALL_BASE` and `__NR_SYSCALLS`. -/
def syscallBase : Nat := 9527
def nrSyscalls : Nat := 20

/-- `SYS_cgetc`, which the user library issues. -/
def sysCgetc : Nat := syscallBase + 14

/-- The label outside the code. -/
inductive EntryLabel where
  | invalidSyscall

/-- `el0_sync` up to the call of the handler; `table` is the address of `sys_call_table`. -/
def el0SyncCode (table : Nat) : List (Flow EntryLabel) :=
  (vectorEntry syncStack).map .plain ++
  [.plain (.ldrConst 17 syscallBase), .sub 0 0 17, .cmp 0 nrSyscalls, .bge .invalidSyscall,
   .adr 17 table, .addLsl 17 17 0 3, .ldr 17 17, .blr 17]

/-- How `el0_sync` is left. -/
def el0Sync (table : Nat) (c : Core) : Except (Leave EntryLabel) Core :=
  A64.runFlow c (el0SyncCode table)

/-- The exception class field of `ESR_EL1`, and its value for `svc` in 64-bit state. -/
abbrev ExceptionClass := Fin 64

def svc64 : ExceptionClass := ⟨0x15, by decide⟩

/-- `x0 - 9527` on doublewords. -/
def callNumber (x0 : Nat) : Nat := (x0 + (2 ^ 64 - syscallBase)) % 2 ^ 64

/-- **Memory holds the table**: in the image, below the device window, and mapped; `addr` is where the
linker has put the functions. -/
structure HoldsTable (c : Core) (table : Nat) (addr : Handler → Nat) : Prop where
  fits : table + 8 * sysCallTable.length ≤ 0x3f000000
  word : ∀ (k : Nat) (h : k < sysCallTable.length), c.mem (table + 8 * k) = addr (sysCallTable.get ⟨k, h⟩)
  mapped : ∀ k < sysCallTable.length, c.mapped (table + 8 * k) = true

/-- **The dispatch is closed**: a handler is called for an `svc` only, with a number of the table, and
the code address comes from its entry; otherwise `invalid_syscall` is reached, or the data abort vector
of exception level 1. -/
def DispatchClosed (table : Nat) (addr : Handler → Nat) (ec : ExceptionClass) (x0 : Nat) :
    Except (Leave EntryLabel) Core → Prop
  | .error (.branch .invalidSyscall) => True
  | .error (.abort _) => True
  | .error (.call target loads) => ec = svc64 ∧ ∃ (k : Nat) (h : k < sysCallTable.length),
      x0 = syscallBase + k ∧ loads = [table + 8 * k] ∧ target = addr (sysCallTable.get ⟨k, h⟩)
  | .ok _ => False

/-! ## 2. Running the code -/

/-- The vector entry keeps `x0`, and memory outside the frame it saves. -/
theorem x_vectorEntry (σ : State) (stack : Nat) :
    (A64.run σ (vectorEntry stack)).x 0 = σ.x 0 := rfl

theorem mem_vectorEntry (σ : State) {stack a : Nat} (h : a < stack - sizeofTrapframe) :
    (A64.run σ (vectorEntry stack)).mem a = σ.mem a := by
  have hsplit : vectorEntry stack
      = [.msrDaifset 2, .ldrConst 16 stack, .movSp 16, .subSp 280] ++ saveallCode.tail := rfl
  rw [hsplit, A64.run_append]
  exact A64.mem_run_below (by decide) h

/-- The subtraction and the comparison: `nr` is what is left of `x0`. -/
theorem runFlow_check {c : Core} {x nr : Nat} (hx : c.x 0 = x) (hnr : callNumber x = nr)
    (js : List (Flow EntryLabel)) :
    A64.runFlow c (.plain (.ldrConst 17 syscallBase) :: .sub 0 0 17 :: .cmp 0 nrSyscalls ::
        .bge .invalidSyscall :: js) =
      if 20 ≤ A64.signed nr then .error (.branch .invalidSyscall)
      else A64.runFlow ((c.setState ((c.setX 17 syscallBase).setX 0 nr)).compare nr nrSyscalls) js := by
  set d := c.setState ((c.setX 17 syscallBase).setX 0 nr) with hd
  have hsub : A64.flow (c.setState (c.setX 17 syscallBase)) (.sub 0 0 17 : Flow EntryLabel)
      = .ok d := by
    have h0 : (c.setX 17 syscallBase).x 0 = x := (State.x_setX_ne _ _ (by decide)).trans hx
    have h17 : (c.setX 17 syscallBase).x 17 = syscallBase := State.x_setX_self _ _ _
    rw [hd, ← hnr, callNumber, ← h0, ← h17]
    rfl
  have hcmp : A64.flow d (.cmp 0 nrSyscalls : Flow EntryLabel) = .ok (d.compare nr nrSyscalls) := by
    have h0 : d.x 0 = nr := State.x_setX_self _ _ _
    rw [← h0]
    rfl
  have hge := A64.ge_iff d (x := nr) (by rw [← hnr]; exact Nat.mod_lt _ (by decide))
    (show nrSyscalls < 2 ^ 12 by decide)
  rw [A64.runFlow_ok (d := c.setState (c.setX 17 syscallBase)) rfl, A64.runFlow_ok hsub,
    A64.runFlow_ok hcmp]
  by_cases h : 20 ≤ A64.signed nr
  · have hbge : A64.flow (d.compare nr nrSyscalls) (.bge EntryLabel.invalidSyscall)
        = .error (.branch .invalidSyscall) := by
      rw [A64.flow_bge, if_pos (hge.2 h)]
    rw [if_pos h, A64.runFlow_error hbge]
  · have hbge : A64.flow (d.compare nr nrSyscalls) (.bge EntryLabel.invalidSyscall)
        = .ok (d.compare nr nrSyscalls) := by
      rw [A64.flow_bge, if_neg fun hf => h (hge.1 hf)]
    rw [if_neg h, A64.runFlow_ok hbge]

/-- The load and the call. -/
theorem runFlow_call {c : Core} {table nr slot : Nat} (hnr : c.x 0 = nr)
    (hslot : (table + nr * 2 ^ 3) % 2 ^ 64 = slot) :
    A64.runFlow c ([.adr 17 table, .addLsl 17 17 0 3, .ldr 17 17, .blr 17] : List (Flow EntryLabel)) =
      if c.mapped slot then .error (.call (c.mem slot) (slot :: c.loads))
      else .error (.abort slot) := by
  set d := c.setState ((c.setX 17 table).setX 17 slot) with hd
  have hadd : A64.flow (c.setState (c.setX 17 table)) (.addLsl 17 17 0 3 : Flow EntryLabel)
      = .ok d := by
    have h0 : (c.setX 17 table).x 0 = nr := (State.x_setX_ne _ _ (by decide)).trans hnr
    have h17 : (c.setX 17 table).x 17 = table := State.x_setX_self _ _ _
    rw [hd, ← hslot, ← h0]
    nth_rewrite 3 [← h17]
    rfl
  have h17 : d.x 17 = slot := State.x_setX_self _ _ _
  rw [A64.runFlow_ok (d := c.setState (c.setX 17 table)) rfl, A64.runFlow_ok hadd]
  cases hmapped : c.mapped slot with
  | true =>
    have hldr : A64.flow d (.ldr 17 17 : Flow EntryLabel)
        = .ok { d.setState (d.setX 17 (c.mem slot)) with loads := slot :: c.loads } := by
      rw [← h17] at hmapped ⊢
      exact if_pos hmapped
    rw [A64.runFlow_ok hldr, if_pos rfl]
    exact A64.runFlow_error rfl _
  | false =>
    have hldr : A64.flow d (.ldr 17 17 : Flow EntryLabel) = .error (.abort slot) := by
      rw [← h17] at hmapped ⊢
      exact if_neg (Bool.eq_false_iff.1 hmapped)
    rw [A64.runFlow_error hldr, if_neg (by decide)]

/-- **The three ways out of `el0_sync`.** -/
theorem el0Sync_eq (table : Nat) {c : Core} {nr slot : Nat} (hloads : c.loads = [])
    (hnr : callNumber (c.x 0) = nr) (hslot : (table + nr * 2 ^ 3) % 2 ^ 64 = slot) :
    el0Sync table c =
      if 20 ≤ A64.signed nr then .error (.branch .invalidSyscall)
      else if c.mapped slot then
        .error (.call ((A64.run c.toState (vectorEntry syncStack)).mem slot) [slot])
      else .error (.abort slot) := by
  unfold el0Sync el0SyncCode
  have hx : (c.setState (A64.run c.toState (vectorEntry syncStack))).x 0 = c.x 0 :=
    x_vectorEntry _ _
  rw [A64.runFlow_plain]
  refine (runFlow_check hx hnr _).trans ?_
  split
  · rfl
  · rw [runFlow_call (State.x_setX_self _ _ _) hslot, ← hloads]
    rfl

/-! ## 3. When the dispatch is closed -/

/-- The numbers of the table: the subtraction does not wrap, and the comparison lets them pass. -/
theorem callNumber_add {k : Nat} (hk : k < sysCallTable.length) :
    callNumber (syscallBase + k) = k ∧ ¬ 20 ≤ A64.signed k := by
  have hk' : k < 14 := hk
  have hnr : callNumber (syscallBase + k) = k := by
    unfold callNumber syscallBase
    omega
  refine ⟨hnr, ?_⟩
  rw [A64.signed_eq (by omega)]
  split <;> omega

/-- The entry of a number of the table is where the table has it. -/
theorem HoldsTable.slot {c : Core} {table : Nat} {addr : Handler → Nat} (h : HoldsTable c table addr)
    {k : Nat} (hk : k < sysCallTable.length) :
    (table + k * 2 ^ 3) % 2 ^ 64 = table + 8 * k ∧
    (A64.run c.toState (vectorEntry syncStack)).mem (table + 8 * k)
      = addr (sysCallTable.get ⟨k, hk⟩) := by
  have hfits := h.fits
  refine ⟨by omega, ?_⟩
  have hbelow : table + 8 * k < syncStack - sizeofTrapframe := by
    have : syncStack - sizeofTrapframe = 0x51ffeee8 := by decide
    omega
  exact (mem_vectorEntry _ hbelow).trans (h.word k hk)

/-- **The dispatch is closed exactly** for an `svc` with a number of the table, for every cause when
the difference is at least 20 as a signed number, and where the word that is loaded is not mapped. -/
theorem dispatch_closed_iff {table : Nat} {addr : Handler → Nat} (ec : ExceptionClass) {c : Core}
    (htable : HoldsTable c table addr) (hloads : c.loads = []) :
    DispatchClosed table addr ec (c.x 0) (el0Sync table c) ↔
      (ec = svc64 ∧ syscallBase ≤ c.x 0 ∧ c.x 0 < syscallBase + sysCallTable.length) ∨
      20 ≤ A64.signed (callNumber (c.x 0)) ∨
      c.mapped ((table + callNumber (c.x 0) * 2 ^ 3) % 2 ^ 64) = false := by
  rw [el0Sync_eq table hloads rfl rfl]
  by_cases hge : 20 ≤ A64.signed (callNumber (c.x 0))
  · rw [if_pos hge]
    exact iff_of_true trivial (.inr (.inl hge))
  rw [if_neg hge]
  cases hmapped : c.mapped ((table + callNumber (c.x 0) * 2 ^ 3) % 2 ^ 64) with
  | false =>
    rw [if_neg (by decide)]
    exact iff_of_true trivial (.inr (.inr rfl))
  | true =>
    rw [if_pos rfl]
    constructor
    · rintro ⟨hec, k, hk, hxk, -⟩
      exact .inl ⟨hec, by omega, by omega⟩
    · rintro (⟨hec, hlow, hhigh⟩ | hlarge | hfalse)
      · -- the number is that of an entry, which is where the table has it
        obtain ⟨k, hxk⟩ : ∃ k, c.x 0 = syscallBase + k := ⟨c.x 0 - syscallBase, by omega⟩
        have hk : k < sysCallTable.length := by omega
        have hnr := (callNumber_add hk).1
        obtain ⟨hslot, hword⟩ := htable.slot hk
        rw [hxk, hnr, hslot, hword]
        exact ⟨hec, k, hk, rfl, rfl, rfl⟩
      · exact absurd hlarge hge
      · cases hfalse

/-- A core that enters the kernel with `x0`: the table is at `0x90000`, and what is below the device
window is mapped. -/
def enteringCore (x0 : Nat) : Core where
  x := fun i => if i = ⟨0, by decide⟩ then x0 else 0
  sp := 0
  sys := fun _ => 0
  mem := fun a => 0xa0000 + 0x20 * (a - 0x90000)
  n := false
  v := false
  mapped := fun a => a < 0x3f000000
  loads := []

/-- Where the functions of that table are. -/
def handlerAddr (h : Handler) : Nat := 0xa0000 + 0x100 * sysCallTable.idxOf h

theorem holdsTable_enteringCore (x0 : Nat) : HoldsTable (enteringCore x0) 0x90000 handlerAddr where
  fits := by decide
  word := fun k hk => by
    have haddr : ∀ i : Fin sysCallTable.length, handlerAddr (sysCallTable.get i) = 0xa0000 + 0x100 * i :=
      by decide
    rw [haddr ⟨k, hk⟩]
    change 0xa0000 + 0x20 * (0x90000 + 8 * k - 0x90000) = 0xa0000 + 0x100 * k
    omega
  mapped := fun k hk => by
    have hk' : k < 14 := hk
    exact decide_eq_true (by omega)

/-- The call of `sys_panic`. -/
theorem dispatch_closed_panic :
    DispatchClosed 0x90000 handlerAddr svc64 9538 (el0Sync 0x90000 (enteringCore 9538)) :=
  (dispatch_closed_iff svc64 (holdsTable_enteringCore 9538) rfl).2
    (.inl ⟨rfl, by decide, by decide⟩)

/-- Such a core calls a handler, for small numbers inside the table and behind it. -/
theorem el0Sync_enteringCore {k : Nat} (hk : k < nrSyscalls) :
    ∃ target, el0Sync 0x90000 (enteringCore (syscallBase + k))
      = .error (.call target [0x90000 + k * 2 ^ 3]) := by
  have hk' : k < 20 := hk
  have hnr : callNumber ((enteringCore (syscallBase + k)).x 0) = k := by
    change callNumber (syscallBase + k) = k
    unfold callNumber syscallBase
    omega
  have hslot : (0x90000 + k * 2 ^ 3) % 2 ^ 64 = 0x90000 + k * 2 ^ 3 := Nat.mod_eq_of_lt (by omega)
  have hsmall : ¬ 20 ≤ A64.signed k := by
    rw [A64.signed_eq (by omega)]
    split <;> omega
  have hmapped : (enteringCore (syscallBase + k)).mapped (0x90000 + k * 2 ^ 3) = true :=
    decide_eq_true (by omega)
  have hcall := el0Sync_eq 0x90000 (c := enteringCore (syscallBase + k)) rfl hnr hslot
  rw [if_neg hsmall, if_pos hmapped] at hcall
  exact ⟨_, hcall⟩

/-- `SYS_cgetc` is called with the word behind the table, and a data abort of the program with `x0`
at `SYS_env_destroy` destroys an environment. -/
theorem dispatch_open :
    (¬ DispatchClosed 0x90000 handlerAddr svc64 sysCgetc (el0Sync 0x90000 (enteringCore sysCgetc)))
    ∧ ¬ DispatchClosed 0x90000 handlerAddr ⟨0x24, by decide⟩ 9530
        (el0Sync 0x90000 (enteringCore 9530)) := by
  constructor
  · obtain ⟨target, hcall⟩ := el0Sync_enteringCore (k := 14) (by decide)
    rw [sysCgetc, hcall]
    rintro ⟨-, k, hk, hx, -⟩
    have hk' : k < 14 := hk
    omega
  · obtain ⟨target, hcall⟩ := el0Sync_enteringCore (k := 3) (by decide)
    change ¬ DispatchClosed 0x90000 handlerAddr ⟨0x24, by decide⟩ (syscallBase + 3)
      (el0Sync 0x90000 (enteringCore (syscallBase + 3)))
    rw [hcall]
    rintro ⟨hec, -⟩
    exact absurd hec (by decide)

end RaspiOS
