/-
# Descriptors, addresses and the walk of the hardware

`include/mmu.h`: the bits of a translation descriptor, the three index fields of a virtual
address, the rounding macros and the memory map.  A word is a natural number below `2^64`; where
the C code can overflow, the overflow is written out.

Physical memory is cut into frames of 512 words, and a frame is a natural number too: its byte
address shifted right by twelve.  A page-aligned pointer is the number of its frame, and a
pointer to a table entry is a frame and an index (`Ptr`), so the address zero is the first word of
frame zero.  `(unsigned long *)PTE_ADDR(d)` is then the frame `ppn d`: the macro clears the low
twelve bits and leaves every bit above them, whatever the descriptor is.

`translate` is what the MMU does with the same tables.  It differs from the walk of the kernel
(`pgdirWalk` in `Pmap.lean`) in two points: the hardware stops at a block descriptor, the kernel takes
its address for that of a table; and the hardware reads the address in bits 47 to 12 (`hwFrame`) and
ignores those above.
-/
import Mathlib.Data.Nat.Bitwise

set_option autoImplicit false

namespace RaspiOS

/-! ## 1. Pointers and memory -/

/-- A frame has words. -/
instance neZeroWords : NeZero 512 := ⟨by decide⟩

/-- A pointer to a word of a frame. -/
structure Ptr where
  frame : Nat
  idx : Fin 512
deriving DecidableEq

/-- `NULL`. -/
def Ptr.null : Ptr := ⟨0, 0⟩

/-- The contents of physical memory: a word for each frame and index. -/
abbrev Mem := Nat → Fin 512 → Nat

/-! ## 2. Constants of `include/mmu.h` and `include/env.h` -/

def by2pg : Nat := 4096
def pteNormal : Nat := 0 <<< 2
def pteDevice : Nat := 1 <<< 2
def typePage : Nat := 0x3
def typeBlock : Nat := 0x1
def pteV : Nat := 0x1
def pteAF : Nat := 0x1 <<< 10
def pteRO : Nat := 0x1 <<< 7
def pteUser : Nat := 0x1 <<< 6
def pteISH : Nat := 3 <<< 8

def eBadEnv : Int := 2
def eInval : Int := 3
def eNoMem : Int := 4
def eNoFreeEnv : Int := 5
def eIpcNotRecv : Int := 6

def upages : Nat := 0x50000000
def uenvs : Nat := 0x51000000
def timestack : Nat := 0x52000000
def kernelSp : Nat := 0x52000000 - by2pg

def utop : Nat := 0xe0000000
def ustacktop : Nat := utop - 2 * by2pg

/-- `npage`, which `mips_detect_memory` computes from 1 GB of base memory. -/
def npage : Nat := 0x40000

/-- `maxpa`, set by `mips_detect_memory`. -/
def maxpa : Nat := 0x40000000

/-- `ROUND(a, n)`, for a power of two `n`. -/
def round (a n : Nat) : Nat := (a + (n - 1)) / n * n

/-- `ROUNDDOWN(a, n)`, for a power of two `n`. -/
def rounddown (a n : Nat) : Nat := a / n * n

/-- `PUDX(va)`: bits 30 to 38. -/
def pudx (va : Nat) : Fin 512 := Fin.ofNat 512 (va >>> 30)

/-- `PMDX(va)`: bits 21 to 29. -/
def pmdx (va : Nat) : Fin 512 := Fin.ofNat 512 (va >>> 21)

/-- `PTEX(va)`: bits 12 to 20. -/
def ptex (va : Nat) : Fin 512 := Fin.ofNat 512 (va >>> 12)

/-- `PPN(va)`; also `PTE_ADDR(va)` read as the frame it points to. -/
def ppn (va : Nat) : Nat := va >>> 12

/-- `page2pa`, and the integer value of a page-aligned pointer. -/
def page2pa (f : Nat) : Nat := f <<< 12

/-- The attributes every leaf and table descriptor of `mm/pmap.c` is OR-ed with. -/
def pteAttrs : Nat := typePage ||| pteAF ||| pteUser ||| pteISH ||| pteNormal

/-- `pmd | TYPE_PAGE | PTE_AF | PTE_USER | PTE_ISH | PTE_NORMAL`: a descriptor for a table. -/
def tableDesc (f : Nat) : Nat := page2pa f ||| pteAttrs

/-- The leaf descriptor `page_insert` writes: the permission word is an `unsigned int`, OR-ed in
without a mask. -/
def leafDesc (f : Nat) (perm : Nat) : Nat :=
  page2pa f ||| ((perm % 2 ^ 32) ||| pteV) ||| pteAttrs

/-- A descriptor with the valid bit. -/
def Valid (d : Nat) : Prop := d &&& pteV ≠ 0

instance (d : Nat) : Decidable (Valid d) := inferInstanceAs (Decidable (_ ≠ _))

/-! ## 3. The walk of the hardware -/

/-- What a translation yields: the frame and the attribute bits. -/
structure Translation where
  frame : Nat
  attrs : Nat
deriving DecidableEq

/-- A table or page descriptor, by its two type bits. -/
def IsTable (d : Nat) : Prop := d &&& 3 = 3

/-- A block descriptor, by its two type bits. -/
def IsBlock (d : Nat) : Prop := d &&& 3 = 1

instance (d : Nat) : Decidable (IsTable d) := inferInstanceAs (Decidable (_ = _))
instance (d : Nat) : Decidable (IsBlock d) := inferInstanceAs (Decidable (_ = _))

/-- **The frame a descriptor names to the MMU**: its bits 47 to 12.  The kernel's `PTE_ADDR` keeps
the bits above them too (`ppn`). -/
def hwFrame (d : Nat) : Nat := ppn d % 2 ^ 36

/-- The third level: page descriptors only. -/
def translateLeaf (m : Mem) (pte : Nat) (va : Nat) : Option Translation :=
  let d := m pte (ptex va)
  if IsTable d then some ⟨hwFrame d, d &&& 0xfff⟩ else none

/-- The second level: a table, or a block of 2 MB. -/
def translatePmd (m : Mem) (pmd : Nat) (va : Nat) : Option Translation :=
  let d := m pmd (pmdx va)
  if IsTable d then translateLeaf m (hwFrame d) va
  else if IsBlock d then some ⟨hwFrame d / 512 * 512 + ptex va, d &&& 0xfff⟩
  else none

/-- **The translation of a virtual address** by the directory `pud`.  `TCR_EL1` gives the lower
half 39 address bits (`init/enablemmu.S`); an address above them faults, and so does every walk
that meets an invalid descriptor. -/
def translate (m : Mem) (pud : Nat) (va : Nat) : Option Translation :=
  if va < 2 ^ 39 then
    let d := m pud (pudx va)
    if IsTable d then translatePmd m (hwFrame d) va
    else if IsBlock d then
      some ⟨hwFrame d / 2 ^ 18 * 2 ^ 18 + (va >>> 12) % 2 ^ 18, d &&& 0xfff⟩
    else none
  else none

/-! ## 4. Decoding what the kernel encodes -/

theorem page2pa_eq (f : Nat) : page2pa f = f * by2pg := Nat.shiftLeft_eq f 12

theorem pteAttrs_eq : pteAttrs = 0x743 := by decide

/-- Bits below the page offset do not reach the frame number. -/
theorem ppn_or_low (f : Nat) {w : Nat} (hw : w < by2pg) : ppn (page2pa f ||| w) = f := by
  have h0 : w >>> 12 = 0 := by
    rw [Nat.shiftRight_eq_div_pow]
    exact Nat.div_eq_of_lt hw
  simp [ppn, page2pa, Nat.shiftRight_or_distrib, h0]

@[simp] theorem ppn_tableDesc (f : Nat) : ppn (tableDesc f) = f :=
  ppn_or_low f (by decide)

/-- **The frame a leaf descriptor names**: the requested one OR-ed with whatever the permission
word has from bit 12 on. -/
theorem ppn_leafDesc (f : Nat) (perm : Nat) :
    ppn (leafDesc f perm) = f ||| (perm % 2 ^ 32) >>> 12 := by
  simp [ppn, leafDesc, page2pa, Nat.shiftRight_or_distrib, pteAttrs_eq, pteV]

/-- With a permission word of twelve bits, the leaf names the requested frame. -/
theorem ppn_leafDesc_of_lt (f : Nat) {perm : Nat} (hp : perm % 2 ^ 32 < by2pg) :
    ppn (leafDesc f perm) = f := by
  have h0 : (perm % 2 ^ 32) >>> 12 = 0 := by
    rw [Nat.shiftRight_eq_div_pow]
    exact Nat.div_eq_of_lt hp
  rw [ppn_leafDesc, h0, Nat.or_zero]

/-- Below `2^36` the two readings of a descriptor agree. -/
theorem hwFrame_of_lt {d : Nat} (h : ppn d < 2 ^ 36) : hwFrame d = ppn d := Nat.mod_eq_of_lt h

theorem hwFrame_tableDesc {f : Nat} (h : f < 2 ^ 36) : hwFrame (tableDesc f) = f := by
  rw [hwFrame_of_lt (by rwa [ppn_tableDesc]), ppn_tableDesc]

/-- The permission word has 32 bits, so it does not reach beyond what the hardware reads. -/
theorem hwFrame_leafDesc {f : Nat} (h : f < 2 ^ 36) (perm : Nat) :
    hwFrame (leafDesc f perm) = ppn (leafDesc f perm) := by
  refine hwFrame_of_lt ?_
  rw [ppn_leafDesc]
  refine Nat.or_lt_two_pow h ?_
  rw [Nat.shiftRight_eq_div_pow]
  omega

/-- With a permission word of twelve bits the hardware finds the requested frame too. -/
theorem hwFrame_leafDesc_of_lt {f : Nat} (h : f < 2 ^ 36) {perm : Nat} (hp : perm % 2 ^ 32 < by2pg) :
    hwFrame (leafDesc f perm) = f :=
  (hwFrame_leafDesc h perm).trans (ppn_leafDesc_of_lt f hp)

/-- Masking the type bits of a word that has both. -/
theorem and_three_of_or {w a : Nat} (ha : a &&& 3 = 3) : (w ||| a) &&& 3 = 3 := by
  rw [Nat.and_or_distrib_right, ha]
  apply Nat.eq_of_testBit_eq
  intro i
  simp only [Nat.testBit_or, Nat.testBit_and]
  cases (3 : Nat).testBit i <;> simp

theorem isTable_tableDesc (f : Nat) : IsTable (tableDesc f) := and_three_of_or (by decide)

theorem isTable_leafDesc (f : Nat) (perm : Nat) : IsTable (leafDesc f perm) :=
  and_three_of_or (by decide)

/-- Page and table descriptors are valid ones. -/
theorem IsTable.valid {d : Nat} (h : IsTable d) : Valid d := by
  intro h0
  have h1 : d &&& 3 &&& pteV = 0 := by rw [Nat.and_right_comm, h0, Nat.zero_and]
  rw [h] at h1
  exact absurd h1 (by decide)

theorem IsBlock.valid {d : Nat} (h : IsBlock d) : Valid d := by
  intro h0
  have h1 : d &&& 3 &&& pteV = 0 := by rw [Nat.and_right_comm, h0, Nat.zero_and]
  rw [h] at h1
  exact absurd h1 (by decide)

theorem valid_tableDesc (f : Nat) : Valid (tableDesc f) := (isTable_tableDesc f).valid

theorem valid_leafDesc (f : Nat) (perm : Nat) : Valid (leafDesc f perm) :=
  (isTable_leafDesc f perm).valid

theorem not_valid_zero : ¬ Valid 0 := by decide

/-! ## 5. The index fields -/

theorem pudx_val (va : Nat) : (pudx va).val = va / 2 ^ 30 % 512 := by
  simp [pudx, Fin.ofNat, Nat.shiftRight_eq_div_pow]

theorem pmdx_val (va : Nat) : (pmdx va).val = va / 2 ^ 21 % 512 := by
  simp [pmdx, Fin.ofNat, Nat.shiftRight_eq_div_pow]

theorem ptex_val (va : Nat) : (ptex va).val = va / 2 ^ 12 % 512 := by
  simp [ptex, Fin.ofNat, Nat.shiftRight_eq_div_pow]

end RaspiOS
