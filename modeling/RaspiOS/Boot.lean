/-
# From power-on to an empty environment table

`init/mmu.c` (`boot_mmu_setup`), the first half of `mm/pmap.c` (`alloc`, `boot_pgdir_walk`,
`boot_map_segment`, `aarch64_vm_init`, `page_init`) and `main` up to `env_init`.  All of it runs
on one bump allocator, the variable `freemem`, over memory whose contents at power-on are
arbitrary: `boot_mmu_setup` takes its tables by raw increments and clears none of them, `alloc`
clears what it hands out.

Two addresses come from the linker script: `_pg_dir`, which equals `_end` and is page aligned,
and `_data`.
-/
import RaspiOS.Syscall

set_option autoImplicit false

namespace RaspiOS

open LinkedList

/-- The frame of `_pg_dir`, and `_data`. -/
structure Symbols where
  pgDir : Nat
  data : Nat

/-- The addresses `kernel.lds` provides.  The image is linked at `0x80000`, `_pg_dir` comes after it,
and RAM ends where the device window begins. -/
structure Layout extends Symbols where
  linked : 0x80 ≤ pgDir
  fits : pgDir < 0x3f000

instance : Coe Layout Symbols := ⟨Layout.toSymbols⟩

/-- Memory and the variable `freemem`. -/
structure Boot where
  mem : Mem
  freemem : Nat

namespace Boot

/-- A load and a store through a pointer into a frame. -/
def load (b : Boot) (a : Ptr) : Nat := b.mem a.frame a.idx

def store (b : Boot) (a : Ptr) (w : Nat) : Boot :=
  { b with mem := fun f i => if f = a.frame ∧ i = a.idx then w else b.mem f i }

/-- `freemem += BY2PG`, after `(unsigned long *)freemem` has been taken. -/
def bump (b : Boot) : Nat × Boot := (ppn b.freemem, { b with freemem := b.freemem + by2pg })

/-! ## 1. `boot_mmu_setup` -/

/-- The page descriptor of the identity map at address `i`. -/
def identDesc (L : Symbols) (i : Nat) : Nat :=
  if 0x80000 ≤ i ∧ i < L.data then
    i ||| typePage ||| pteAF ||| pteNormal ||| pteUser ||| pteRO
  else i ||| typePage ||| pteAF ||| pteNormal ||| pteUser

/-- The block descriptor of the device window for second-level index `r`. -/
def deviceBlock (r : Nat) : Nat := (r <<< 21) ||| typeBlock ||| pteAF ||| pteUser ||| pteDevice

/-- One round of the inner loop: the entry `t` of the table that `pmd[r]` names. -/
def mmuEntry (L : Symbols) (pmd : Nat) (r : Nat) (b : Boot) (t : Nat) : Boot :=
  let i := (r <<< 21) + (t <<< 12)
  let pte := ppn (b.load ⟨pmd, Fin.ofNat 512 r⟩)
  b.store ⟨pte, Fin.ofNat 512 t⟩ (identDesc L i)

/-- One round of the outer loop: a table of 512 pages. -/
def mmuRow (L : Symbols) (pmd : Nat) (b : Boot) (r : Nat) : Boot :=
  let b := b.store ⟨pmd, Fin.ofNat 512 r⟩ (b.freemem ||| pteAttrs)
  let b := { b with freemem := b.freemem + by2pg }
  (List.range 512).foldl (mmuEntry L pmd r) b

/-- The number of second-level entries below the device window: `0x3f000000 >> 21`. -/
def ramRows : Nat := 0x3f000000 >>> 21

/-- `boot_mmu_setup`. -/
def mmuSetup (L : Symbols) (mem : Mem) : Boot :=
  let b : Boot := ⟨mem, round (page2pa L.pgDir) by2pg⟩
  let (pud, b) := b.bump
  let b := b.store ⟨pud, pudx (page2pa L.pgDir)⟩ (b.freemem ||| pteAttrs)
  let (pmd, b) := b.bump
  let b := (List.range ramRows).foldl (mmuRow L pmd) b
  let b := (List.range' ramRows (512 - ramRows)).foldl
    (fun b r => b.store ⟨pmd, Fin.ofNat 512 r⟩ (deviceBlock r)) b
  let b := b.store ⟨pud, pudx 0x40000000⟩ (b.freemem ||| pteAttrs)
  let (pmd, b) := b.bump
  b.store ⟨pmd, 0⟩ (deviceBlock (0x40000000 >>> 21))

/-! ## 2. `alloc` and `boot_map_segment` -/

/-- `bzero((void *)addr, n)` on whole words. -/
def bzero (b : Boot) (addr n : Nat) : Boot :=
  { b with mem := fun f i =>
      if addr ≤ by2pg * f + 8 * i ∧ by2pg * f + 8 * i < addr + n then 0 else b.mem f i }

/-- `alloc(n, align, 1)`: the address of `n` cleared bytes. -/
def alloc (b : Boot) (n align : Nat) : Except Halt (Nat × Boot) :=
  let freemem := round b.freemem align
  let alloced := freemem
  let b : Boot := { b with freemem := freemem + n }
  let b := b.bzero alloced n
  if maxpa ≤ b.freemem then .error .outOfMemoryPanic
  else .ok (alloced, b)

/-- One level of `boot_pgdir_walk` with `create` set. -/
def descend (b : Boot) (entryp : Ptr) : Except Halt (Nat × Boot) :=
  if Valid (b.load entryp) then .ok (ppn (b.load entryp), b)
  else do
    let (a, b) ← b.alloc by2pg by2pg
    return (ppn a, b.store entryp (a ||| pteAttrs))

/-- `boot_pgdir_walk(pud, va, 1)`. -/
def pgdirWalk (b : Boot) (pud : Nat) (va : Nat) : Except Halt (Ptr × Boot) := do
  let (pmd, b) ← b.descend ⟨pud, pudx va⟩
  let (pte, b) ← b.descend ⟨pmd, pmdx va⟩
  return (⟨pte, ptex va⟩, b)

/-- One round of the loop of `boot_map_segment`, at offset `i`. -/
def mapPage (pud : Nat) (va pa : Nat) (perm : Nat) (b : Boot) (i : Nat) : Except Halt Boot := do
  let (pteEntry, b) ← b.pgdirWalk pud (va + i)
  return b.store pteEntry ((pa + i) ||| perm ||| pteAttrs)

/-- `boot_map_segment`. -/
def mapSegment (b : Boot) (pud : Nat) (va size pa : Nat) (perm : Nat) : Except Halt Boot :=
  if size % by2pg ≠ 0 then .ok b
  else ((List.range (size / by2pg)).map (· * by2pg)).foldlM (mapPage pud va pa perm) b

/-- `sizeof(struct Page)` and `sizeof(struct Env)`. -/
def sizeofPage : Nat := 24
def sizeofEnv : Nat := 416

/-- `aarch64_vm_init`. -/
def vmInit (L : Layout) (b : Boot) : Except Halt Boot := do
  let (pages, b) ← b.alloc (npage * sizeofPage) by2pg
  let b ← b.mapSegment L.pgDir upages (round (npage * sizeofPage) by2pg) pages pteV
  let (envs, b) ← b.alloc (nenv * sizeofEnv) by2pg
  let b ← b.mapSegment L.pgDir uenvs (round (nenv * sizeofEnv) by2pg) envs pteV
  let (stack, b) ← b.alloc by2pg by2pg
  let b ← b.mapSegment L.pgDir (timestack - by2pg) by2pg stack pteV
  let (stack, b) ← b.alloc by2pg by2pg
  b.mapSegment L.pgDir (kernelSp - by2pg) by2pg stack pteV

/-! ## 3. `page_init` and the state `main` has built when it has called `env_init` -/

/-- `page_init`, on a `struct Page` array that `alloc` has zeroed. -/
def pageInit (b : Boot) : Phys :=
  let freemem := round b.freemem by2pg
  let loopLength := freemem / by2pg
  let ppRef : Nat → Nat := (List.range loopLength).foldl
    (fun ppRef loop => fun f => if f = loop then 1 else ppRef f) (fun _ => 0)
  (List.range' loopLength (npage - loopLength)).foldl
    (fun p loop =>
      { p with
        ppRef := fun f => if f = loop then 0 else p.ppRef f
        pageFreeList := p.pageFreeList.insertHead () loop })
    { mem := b.mem, ppRef := ppRef, pageFreeList := Links.zeroed.init () }

end Boot

/-- Every variable of the kernel before `env_init`. -/
def Kernel.start (L : Layout) (phys : Phys) : Kernel :=
  { phys := phys, pgDir := L.pgDir
    envs := fun _ => .zero, envFreeList := .zeroed, envSched := .zeroed, schedLog := []
    curSched := 0, curenv := none, nextEnvId := 0, pos := -1
    kernelFrame := .zero, timeFrame := .zero }

/-- `main` up to and including `env_init`, from memory with arbitrary contents. -/
def boot (L : Layout) (ram : Mem) : Except Halt Kernel := do
  let b ← Boot.vmInit L (Boot.mmuSetup L ram)
  return (Kernel.start L b.pageInit).envInit

end RaspiOS
