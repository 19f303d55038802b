/-
# Straight-line A64 code

The few instructions of the 64-bit Arm architecture that save and load registers: moves, loads and
stores of one or two doublewords at an offset from a base, and moves from and to system registers.
Memory is kept by the address of a doubleword; code that only uses offsets divisible by eight from
a base divisible by eight never meets a misaligned one.

A program is a list of instructions, run from the front.  Its effect is found by rewriting with
`exec` and with the lemmas about reading after writing; `mem_store` compares offsets from the base
and not addresses, so it applies whatever the base is.
-/
import Mathlib.Data.Nat.Bitwise

set_option autoImplicit false

namespace A64

/-- There are registers. -/
instance neZeroRegs : NeZero 31 := ⟨by decide⟩

/-- The system registers an exception uses, and the base of the translation table. -/
inductive SysReg where
  | spEl0
  | elrEl1
  | spsrEl1
  | ttbr0El1
deriving DecidableEq

/-- A core at exception level 1. -/
structure State where
  x : Fin 31 → Nat
  sp : Nat
  sys : SysReg → Nat
  mem : Nat → Nat

/-- The base of an address. -/
inductive Base where
  | reg (n : Fin 31)
  | sp
deriving DecidableEq

/-- Instructions. -/
inductive Instr where
  /-- `msr daifset, #imm`; the interrupt mask is not part of the state -/
  | msrDaifset (imm : Nat)
  /-- `ldr xt, =imm` -/
  | ldrConst (t : Fin 31) (imm : Nat)
  /-- `mov xd, xn` -/
  | mov (d n : Fin 31)
  /-- `mov sp, xn` -/
  | movSp (n : Fin 31)
  /-- `sub sp, sp, #imm` -/
  | subSp (imm : Nat)
  /-- `stp xt, xu, [base, #off]` -/
  | stp (t u : Fin 31) (base : Base) (off : Nat)
  /-- `str xt, [base, #off]` -/
  | str (t : Fin 31) (base : Base) (off : Nat)
  /-- `ldp xt, xu, [base, #off]` -/
  | ldp (t u : Fin 31) (base : Base) (off : Nat)
  /-- `ldr xt, [base, #off]` -/
  | ldr (t : Fin 31) (base : Base) (off : Nat)
  /-- `mrs xt, reg` -/
  | mrs (t : Fin 31) (reg : SysReg)
  /-- `msr reg, xt` -/
  | msr (reg : SysReg) (t : Fin 31)

namespace State

/-- Assignment to a general register. -/
def setX (s : State) (t : Fin 31) (v : Nat) : State :=
  { s with x := fun i => if i = t then v else s.x i }

/-- Assignment to a system register. -/
def setSys (s : State) (r : SysReg) (v : Nat) : State :=
  { s with sys := fun r' => if r' = r then v else s.sys r' }

/-- A store of a doubleword. -/
def store (s : State) (a v : Nat) : State :=
  { s with mem := fun a' => if a' = a then v else s.mem a' }

/-- The value of a base. -/
def base (s : State) : Base → Nat
  | .reg n => s.x n
  | .sp => s.sp

@[simp] theorem x_store (s : State) (a v : Nat) : (s.store a v).x = s.x := rfl
@[simp] theorem sp_store (s : State) (a v : Nat) : (s.store a v).sp = s.sp := rfl
@[simp] theorem sys_store (s : State) (a v : Nat) : (s.store a v).sys = s.sys := rfl
@[simp] theorem sp_setX (s : State) (t : Fin 31) (v : Nat) : (s.setX t v).sp = s.sp := rfl
@[simp] theorem sys_setX (s : State) (t : Fin 31) (v : Nat) : (s.setX t v).sys = s.sys := rfl
@[simp] theorem mem_setX (s : State) (t : Fin 31) (v : Nat) : (s.setX t v).mem = s.mem := rfl
@[simp] theorem x_setX_self (s : State) (t : Fin 31) (v : Nat) : (s.setX t v).x t = v := if_pos rfl
theorem x_setX_ne (s : State) {t i : Fin 31} (v : Nat) (h : i ≠ t) : (s.setX t v).x i = s.x i :=
  if_neg h
@[simp] theorem base_sp (s : State) : s.base .sp = s.sp := rfl

/-- Reading at an offset from the base a store used. -/
theorem mem_store (s : State) (b o o' v : Nat) :
    (s.store (b + o) v).mem (b + o') = if o' = o then v else s.mem (b + o') := by
  simp [store]

end State

/-- What an instruction does. -/
def exec (s : State) : Instr → State
  | .msrDaifset _ => s
  | .ldrConst t imm => s.setX t imm
  | .mov d n => s.setX d (s.x n)
  | .movSp n => { s with sp := s.x n }
  | .subSp imm => { s with sp := s.sp - imm }
  | .stp t u b off => (s.store (s.base b + off) (s.x t)).store (s.base b + (off + 8)) (s.x u)
  | .str t b off => s.store (s.base b + off) (s.x t)
  | .ldp t u b off =>
    (s.setX t (s.mem (s.base b + off))).setX u (s.mem (s.base b + (off + 8)))
  | .ldr t b off => s.setX t (s.mem (s.base b + off))
  | .mrs t r => s.setX t (s.sys r)
  | .msr r t => s.setSys r (s.x t)

/-- A program runs from the front. -/
def run (s : State) (is : List Instr) : State := is.foldl exec s

/-- Programs compose. -/
theorem run_append (s : State) (is js : List Instr) : run s (is ++ js) = run (run s is) js :=
  List.foldl_append

/-- An instruction that keeps the stack pointer and stores relative to it, if at all. -/
def Instr.savesAtSp : Instr → Bool
  | .movSp _ | .subSp _ => false
  | .stp _ _ b _ | .str _ b _ => b = .sp
  | _ => true

/-- Code that stores above its stack pointer leaves memory below it alone. -/
theorem mem_run_below {is : List Instr} (his : ∀ i ∈ is, i.savesAtSp = true) {s : State} {a : Nat}
    (ha : a < s.sp) : (run s is).mem a = s.mem a := by
  induction is generalizing s with
  | nil => rfl
  | cons i is ih =>
    have hi := his i List.mem_cons_self
    have hstep : (exec s i).sp = s.sp ∧ (exec s i).mem a = s.mem a := by
      have hb : ∀ {b : Base}, (decide (b = .sp)) = true → s.base b = s.sp := by
        intro b hb
        rw [of_decide_eq_true hb]
        rfl
      cases i with
      | movSp n => cases hi
      | subSp imm => cases hi
      | stp t u b off =>
        have hbase := hb hi
        refine ⟨rfl, ?_⟩
        simp only [exec, State.store, hbase]
        rw [if_neg (by omega), if_neg (by omega)]
      | str t b off =>
        have hbase := hb hi
        refine ⟨rfl, ?_⟩
        simp only [exec, State.store, hbase]
        rw [if_neg (by omega)]
      | _ => exact ⟨rfl, rfl⟩
    have hrest := ih (fun j hj => his j (List.mem_cons_of_mem i hj)) (s := exec s i)
      (by rw [hstep.1]; exact ha)
    exact hrest.trans hstep.2

end A64
