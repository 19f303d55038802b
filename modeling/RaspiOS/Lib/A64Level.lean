/-
# A64 code at several exception levels

The instructions that boot code is made of: moves of constants, comparisons and branches, loads and
stores that step a pointer on, and what changes the exception level or the stack pointer in use.  Each
exception level has a stack pointer of its own and may use that of level 0 instead (`SPSel`).  A system
register of a level cannot be touched from below it, and an exception return goes where `ELR` says, in
the state that `SPSR` says, if that state is a legal one.

Code is written as blocks, each under its label.  A block is left by a branch, by an exception return to an
address, by a call, or at its end for the next one.
-/
import RaspiOS.Lib.A64
import RaspiOS.Lib.Bytes

set_option autoImplicit false

namespace A64Level

open Bytes

/-- System registers. -/
inductive SysReg
  | scrEl3
  | spsrEl3
  | elrEl3
  | cnthctlEl2
  | cntvoffEl2
  | cptrEl2
  | hstrEl2
  | hcrEl2
  | spsrEl2
  | elrEl2
  | cpacrEl1
  | sctlrEl1
  deriving DecidableEq

/-- The lowest exception level that has access. -/
def SysReg.level : SysReg → Nat
  | .scrEl3 | .spsrEl3 | .elrEl3 => 3
  | .cnthctlEl2 | .cntvoffEl2 | .cptrEl2 | .hstrEl2 | .hcrEl2 | .spsrEl2 | .elrEl2 => 2
  | .cpacrEl1 | .sctlrEl1 => 1

/-- A core. -/
structure Core where
  el : Nat
  spSel : Bool
  x : Fin 31 → BitVec 64
  spEl : Nat → BitVec 64
  sys : SysReg → BitVec 64
  z : Bool
  mem : Memory

/-- Instructions; `ℓ` are the labels. -/
inductive Instr (ℓ : Type)
  /-- `mov xd, #imm`, `ldr xd, =imm` -/
  | mov (d : Fin 31) (imm : BitVec 64)
  /-- `ldr wd, =imm` -/
  | movW (d : Fin 31) (imm : BitVec 32)
  /-- `movk xd, #imm, lsl #16` -/
  | movk16 (d : Fin 31) (imm : BitVec 16)
  /-- `and xd, xn, #imm` -/
  | and (d n : Fin 31) (imm : BitVec 64)
  /-- `orr xd, xn, #imm` -/
  | orr (d n : Fin 31) (imm : BitVec 64)
  /-- `sub wd, wn, #imm` -/
  | subW (d n : Fin 31) (imm : BitVec 32)
  /-- `cmp xn, #imm` -/
  | cmp (n : Fin 31) (imm : BitVec 64)
  /-- `b.eq label` -/
  | beq (l : ℓ)
  /-- `b.ne label` -/
  | bne (l : ℓ)
  /-- `cbz wn, label` -/
  | cbzW (n : Fin 31) (l : ℓ)
  /-- `cbnz wn, label` -/
  | cbnzW (n : Fin 31) (l : ℓ)
  /-- `adr xd, label` -/
  | adr (d : Fin 31) (l : ℓ)
  /-- `str xzr, [xn], #imm` -/
  | strZero (n : Fin 31) (imm : BitVec 64)
  /-- `mov sp, xn` -/
  | movSp (n : Fin 31)
  /-- `mrs xd, CurrentEL` -/
  | mrsCurrentEl (d : Fin 31)
  /-- `mrs xd, reg` -/
  | mrs (d : Fin 31) (r : SysReg)
  /-- `msr reg, xn` -/
  | msr (r : SysReg) (n : Fin 31)
  /-- `msr reg, xzr` -/
  | msrZero (r : SysReg)
  /-- `msr sp_el1, xn` -/
  | msrSpEl1 (n : Fin 31)
  /-- `msr spsel, #imm` -/
  | msrSpSel (imm : Bool)
  /-- `eret` -/
  | eret
  /-- `bl` of a function that is not part of the code; its return address is not kept -/
  | bl

/-- How a block is left before its end. -/
inductive Leave (ℓ : Type)
  /-- for a label -/
  | goto (l : ℓ) (c : Core)
  /-- for an address -/
  | ret (a : BitVec 64) (c : Core)
  /-- by a call -/
  | call (c : Core)
  /-- by an instruction that the exception level does not have -/
  | undefined
  /-- by a return to a state that there is not -/
  | illegal

namespace Core

/-- Assignment to a general register. -/
def setX (c : Core) (d : Fin 31) (v : BitVec 64) : Core :=
  { c with x := fun i => if i = d then v else c.x i }

/-- Assignment to a system register. -/
def setSys (c : Core) (r : SysReg) (v : BitVec 64) : Core :=
  { c with sys := fun r' => if r' = r then v else c.sys r' }

/-- Assignment to the stack pointer of a level. -/
def setSpEl (c : Core) (el : Nat) (v : BitVec 64) : Core :=
  { c with spEl := fun i => if i = el then v else c.spEl i }

/-- Assignment to the flag `Z`. -/
def setZ (c : Core) (z : Bool) : Core := { c with z }

/-- Selection of a stack pointer. -/
def select (c : Core) (spSel : Bool) : Core := { c with spSel }

/-- A store of eight zeros. -/
def storeZeros (c : Core) (a : BitVec 64) : Core :=
  { c with mem := storeWord c.mem a (Vector.replicate 8 0) }

/-- The level whose stack pointer is in use. -/
def spLevel (c : Core) : Nat := if c.spSel then c.el else 0

/-- `sp` -/
def sp (c : Core) : BitVec 64 := c.spEl c.spLevel

/-- What an exception return changes of the core. -/
def enter (c : Core) (el : Nat) (spSel z : Bool) : Core := { c with el, spSel, z }

/-- The state an exception return goes to: a lower level in AArch64, which the level it leaves has allowed,
with the selected stack pointer; `none` where it is not legal. -/
def returnTo (c : Core) (spsr : BitVec 64) (allowed : Bool) : Option Core :=
  let el := (spsr.extractLsb' 2 2).toNat
  if el < c.el ∧ 0 < el ∧ spsr.getLsbD 4 = false ∧ allowed = true then
    some (c.enter el (spsr.getLsbD 0) (spsr.getLsbD 30))
  else none

/-- `eret`: from level 3, level 2 is there in the non-secure state only. -/
def eret {ℓ : Type} (c : Core) : Leave ℓ :=
  if c.el = 3 then
    match c.returnTo (c.sys .spsrEl3) ((c.sys .scrEl3).getLsbD 10 && (c.sys .scrEl3).getLsbD 0) with
    | some d => .ret (c.sys .elrEl3) d
    | none => .illegal
  else if c.el = 2 then
    match c.returnTo (c.sys .spsrEl2) ((c.sys .hcrEl2).getLsbD 31) with
    | some d => .ret (c.sys .elrEl2) d
    | none => .illegal
  else .undefined

end Core

variable {ℓ : Type}

/-- What an instruction does; `addr` are the addresses of the labels. -/
def step (addr : ℓ → BitVec 64) (c : Core) : Instr ℓ → Except (Leave ℓ) Core
  | .mov d imm => .ok (c.setX d imm)
  | .movW d imm => .ok (c.setX d (imm.setWidth 64))
  | .movk16 d imm =>
    .ok (c.setX d ((c.x d &&& ~~~(0xffff0000#64)) ||| (imm.setWidth 64 <<< 16)))
  | .and d n imm => .ok (c.setX d (c.x n &&& imm))
  | .orr d n imm => .ok (c.setX d (c.x n ||| imm))
  | .subW d n imm => .ok (c.setX d (((c.x n).setWidth 32 - imm).setWidth 64))
  | .cmp n imm => .ok (c.setZ (c.x n = imm))
  | .beq l => if c.z then .error (.goto l c) else .ok c
  | .bne l => if c.z then .ok c else .error (.goto l c)
  | .cbzW n l => if (c.x n).setWidth 32 = 0#32 then .error (.goto l c) else .ok c
  | .cbnzW n l => if (c.x n).setWidth 32 = 0#32 then .ok c else .error (.goto l c)
  | .adr d l => .ok (c.setX d (addr l))
  | .strZero n imm => .ok ((c.storeZeros (c.x n)).setX n (c.x n + imm))
  | .movSp n => .ok (c.setSpEl c.spLevel (c.x n))
  | .mrsCurrentEl d => .ok (c.setX d (BitVec.ofNat 64 (4 * c.el)))
  | .mrs d r => if r.level ≤ c.el then .ok (c.setX d (c.sys r)) else .error .undefined
  | .msr r n => if r.level ≤ c.el then .ok (c.setSys r (c.x n)) else .error .undefined
  | .msrZero r => if r.level ≤ c.el then .ok (c.setSys r 0) else .error .undefined
  | .msrSpEl1 n => if 2 ≤ c.el then .ok (c.setSpEl 1 (c.x n)) else .error .undefined
  | .msrSpSel imm => .ok (c.select imm)
  | .eret => .error c.eret
  | .bl => .error (.call c)

/-- A block runs from the front until it is left. -/
def runBlock (addr : ℓ → BitVec 64) (c : Core) (is : List (Instr ℓ)) : Except (Leave ℓ) Core :=
  is.foldlM (step addr) c

/-! ## Reading after writing -/

namespace Core

variable (c : Core) (d i : Fin 31) (r r' : SysReg) (v : BitVec 64) (n k : Nat) (b z : Bool)

theorem x_setX : (c.setX d v).x i = if i = d then v else c.x i := rfl
@[simp] theorem el_setX : (c.setX d v).el = c.el := rfl
@[simp] theorem spSel_setX : (c.setX d v).spSel = c.spSel := rfl
@[simp] theorem spEl_setX : (c.setX d v).spEl = c.spEl := rfl
@[simp] theorem sys_setX : (c.setX d v).sys = c.sys := rfl
@[simp] theorem mem_setX : (c.setX d v).mem = c.mem := rfl
theorem sys_setSys : (c.setSys r v).sys r' = if r' = r then v else c.sys r' := rfl
@[simp] theorem el_setSys : (c.setSys r v).el = c.el := rfl
@[simp] theorem x_setSys : (c.setSys r v).x = c.x := rfl
@[simp] theorem spEl_setSys : (c.setSys r v).spEl = c.spEl := rfl
@[simp] theorem mem_setSys : (c.setSys r v).mem = c.mem := rfl
theorem spEl_setSpEl : (c.setSpEl n v).spEl k = if k = n then v else c.spEl k := rfl
@[simp] theorem el_setSpEl : (c.setSpEl n v).el = c.el := rfl
@[simp] theorem mem_setSpEl : (c.setSpEl n v).mem = c.mem := rfl
@[simp] theorem z_setZ : (c.setZ z).z = z := rfl
@[simp] theorem el_setZ : (c.setZ z).el = c.el := rfl
@[simp] theorem x_setZ : (c.setZ z).x = c.x := rfl
@[simp] theorem spSel_setZ : (c.setZ z).spSel = c.spSel := rfl
@[simp] theorem spEl_setZ : (c.setZ z).spEl = c.spEl := rfl
@[simp] theorem mem_setZ : (c.setZ z).mem = c.mem := rfl
@[simp] theorem el_enter : (c.enter n b z).el = n := rfl
@[simp] theorem spSel_enter : (c.enter n b z).spSel = b := rfl
@[simp] theorem x_enter : (c.enter n b z).x = c.x := rfl
@[simp] theorem spEl_enter : (c.enter n b z).spEl = c.spEl := rfl
@[simp] theorem mem_enter : (c.enter n b z).mem = c.mem := rfl

end Core

/-! ## Running -/

/-- A block is run instruction by instruction. -/
theorem runBlock_cons (addr : ℓ → BitVec 64) (c : Core) (i : Instr ℓ) (is : List (Instr ℓ)) :
    runBlock addr c (i :: is) = step addr c i >>= fun c => runBlock addr c is := List.foldlM_cons

/-- An instruction has been passed. -/
theorem ok_bind (c : Core) (k : Core → Except (Leave ℓ) Core) : Except.ok c >>= k = k c := rfl

/-- The block has been left. -/
theorem error_bind (e : Leave ℓ) (k : Core → Except (Leave ℓ) Core) :
    Except.error e >>= k = .error e := rfl

end A64Level
