/-
# Comparisons, branches and calls of A64 code

A layer over straight-line code: the flags a comparison sets, the instructions that read them, and the
ways in which code leaves the list it is written in.  A branch leaves for a label, `blr` for an address
in a register, and a load from an address that is not mapped leaves for the exception vector.  A load
that does not abort is recorded, so that a statement can say where an address came from.

The condition `ge` compares two flags.  That it is the comparison of signed numbers, and of nothing
else, is `ge_iff`.
-/
import RaspiOS.Lib.A64

set_option autoImplicit false

namespace A64

variable {ℓ : Type}

/-- The number a doubleword stands for when it is read with a sign. -/
def signed (w : Nat) : Int := Int.bmod w (2 ^ 64)

/-- A core with its condition flags `N` and `V`, the addresses that are mapped, and the addresses that
were loaded from, newest first. -/
structure Core extends State where
  n : Bool
  v : Bool
  mapped : Nat → Bool
  loads : List Nat

/-- Instructions; `ℓ` are the labels outside the list. -/
inductive Flow (ℓ : Type) where
  /-- an instruction that neither loads nor branches -/
  | plain (i : Instr)
  /-- `sub xd, xn, xm` -/
  | sub (d n m : Fin 31)
  /-- `cmp xn, #imm` -/
  | cmp (n : Fin 31) (imm : Nat)
  /-- `b.ge label` -/
  | bge (label : ℓ)
  /-- `adr xd, address` -/
  | adr (d : Fin 31) (a : Nat)
  /-- `add xd, xn, xm, lsl #shift` -/
  | addLsl (d n m : Fin 31) (shift : Nat)
  /-- `ldr xt, [xn]` -/
  | ldr (t n : Fin 31)
  /-- `blr xn` -/
  | blr (n : Fin 31)

/-- How code is left. -/
inductive Leave (ℓ : Type) where
  /-- for a label -/
  | branch (label : ℓ)
  /-- for an address, with the loads so far -/
  | call (target : Nat) (loads : List Nat)
  /-- by a data abort -/
  | abort (a : Nat)

namespace Core

/-- An assignment to the registers and memory of a core. -/
def setState (c : Core) (s : State) : Core := { c with toState := s }

/-- The flags of `x - imm`: the sign of the result modulo `2^64`, and whether the signed difference
does not fit. -/
def compare (c : Core) (x imm : Nat) : Core :=
  { c with
    n := decide (2 ^ 63 ≤ (x + (2 ^ 64 - imm)) % 2 ^ 64)
    v := decide (signed x - imm < -2 ^ 63 ∨ 2 ^ 63 ≤ signed x - imm) }

end Core

/-- What an instruction does. -/
def flow (c : Core) : Flow ℓ → Except (Leave ℓ) Core
  | .plain i => .ok (c.setState (exec c.toState i))
  | .sub d n m => .ok (c.setState (c.setX d ((c.x n + (2 ^ 64 - c.x m)) % 2 ^ 64)))
  | .cmp n imm => .ok (c.compare (c.x n) imm)
  | .bge label => if c.n = c.v then .error (.branch label) else .ok c
  | .adr d a => .ok (c.setState (c.setX d a))
  | .addLsl d n m shift => .ok (c.setState (c.setX d ((c.x n + c.x m * 2 ^ shift) % 2 ^ 64)))
  | .ldr t n =>
    if c.mapped (c.x n) then
      .ok { c.setState (c.setX t (c.mem (c.x n))) with loads := c.x n :: c.loads }
    else .error (.abort (c.x n))
  | .blr n => .error (.call (c.x n) c.loads)

/-- A program runs from the front until it is left. -/
def runFlow (c : Core) (is : List (Flow ℓ)) : Except (Leave ℓ) Core := is.foldlM flow c

/-! ## Running -/

theorem runFlow_cons (c : Core) (i : Flow ℓ) (is : List (Flow ℓ)) :
    runFlow c (i :: is) = flow c i >>= fun c => runFlow c is := List.foldlM_cons

/-- An instruction that is passed. -/
theorem runFlow_ok {c d : Core} {i : Flow ℓ} (h : flow c i = .ok d) (is : List (Flow ℓ)) :
    runFlow c (i :: is) = runFlow d is := by
  rw [runFlow_cons, h]
  rfl

/-- An instruction that leaves. -/
theorem runFlow_error {c : Core} {i : Flow ℓ} {e : Leave ℓ} (h : flow c i = .error e)
    (is : List (Flow ℓ)) : runFlow c (i :: is) = .error e := by
  rw [runFlow_cons, h]
  rfl

theorem flow_bge (c : Core) (label : ℓ) :
    flow c (.bge label) = if c.n = c.v then .error (.branch label) else .ok c := rfl

/-- Straight-line code runs as it does on its own. -/
theorem runFlow_plain (c : Core) (is : List Instr) (js : List (Flow ℓ)) :
    runFlow c (is.map .plain ++ js) = runFlow (c.setState (run c.toState is)) js := by
  induction is generalizing c with
  | nil => rfl
  | cons i is ih =>
    rw [List.map_cons, List.cons_append, runFlow_cons]
    exact ih (c.setState (exec c.toState i))

/-! ## The comparison -/

/-- A doubleword below `2^63` is itself, and one from there on is negative. -/
theorem signed_eq {x : Nat} (hx : x < 2 ^ 64) :
    signed x = if x < 2 ^ 63 then (x : Int) else x - 2 ^ 64 := by
  unfold signed
  rw [Int.bmod_def]
  split <;> split <;> omega

/-- **`ge` after a comparison is the comparison of signed numbers.** -/
theorem ge_iff (c : Core) {x imm : Nat} (hx : x < 2 ^ 64) (himm : imm < 2 ^ 12) :
    (c.compare x imm).n = (c.compare x imm).v ↔ imm ≤ signed x := by
  unfold Core.compare
  rw [decide_eq_decide, signed_eq hx]
  split <;> omega

end A64
