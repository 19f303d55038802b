/-
# Page frames, page tables and their reference counts

`mm/pmap.c` from `page_init` on: the frame allocator over `page_free_list`, the three-level walk
and the operations that enter and remove a mapping.  The state is physical memory, the counter
and the link of every `struct Page`, and the head of the free list.  A `struct Page *` is the
number of its frame (`page2ppn`), so `page2pa` is a shift.

Every function is written as the C code computes it, on every state.  In particular:

* `pp_ref` is an `unsigned short`: both `++` and `--` wrap at `2^16`;
* `page_alloc` does not reset `pp_ref`, and `page_free` links whatever it is given;
* `pgdir_walk` tests only the valid bit, so it follows a block descriptor as if it named a table;
* the permission word is OR-ed into the descriptor without a mask.

The kernel runs on the identity map: a store through the physical address of a frame is a store
to that frame.  The counters and the free list (`ppRef`, `pageFreeList`) lie in frames too, in the
array `pages[]` and in the image, and the page tables reach them: through the identity map, which
`page_insert` and `page_remove` change like any other, and through `UPAGES`.  The state keeps them in
fields of their own, so it stands for the machine as long as nobody enters a page over those frames
or stores to them, which is what the user-half discipline (`Discipline.lean`) is for.
`tlb_invalidate` has no counterpart in this module.
-/
import RaspiOS.Mmu
import RaspiOS.Lib.LinkedList

set_option autoImplicit false

namespace RaspiOS

open LinkedList

/-! ## 1. Ways not to return -/

/-- How a kernel entry ends without reaching user mode again. -/
inductive Halt where
  /-- `panic("pa2page called with invalid pa: %x", pa)` -/
  | pa2pagePanic
  /-- `panic("env_setup_vm - page_alloc error\n")` -/
  | envSetupVmPanic
  /-- the panic of `env_create_priority` when `env_alloc` fails -/
  | envCreatePanic
  /-- `panic("sys_set_trapframe not implemented")` -/
  | sysSetTrapframePanic
  /-- `panic("out of memory")` in the boot allocator -/
  | outOfMemoryPanic
  /-- an endless `while(1)` -/
  | hang
  /-- a data abort taken in the kernel, which ends in `unimplement_handler` -/
  | fault
  /-- no environment is executing, so nothing can trap -/
  | noEnv
deriving DecidableEq

/-! ## 2. The state -/

/-- Physical memory, `struct Page` by field, and `page_free_list`. -/
structure Phys where
  mem : Mem
  ppRef : Nat → Nat
  pageFreeList : Links Unit Nat

namespace Phys

/-- A load through a pointer into a frame. -/
def load (p : Phys) (a : Ptr) : Nat := p.mem a.frame a.idx

/-- A store through a pointer into a frame. -/
def store (p : Phys) (a : Ptr) (w : Nat) : Phys :=
  { p with mem := fun f i => if f = a.frame ∧ i = a.idx then w else p.mem f i }

/-- `bzero((void *)page2pa(pp), BY2PG)`. -/
def bzeroPage (p : Phys) (f : Nat) : Phys :=
  { p with mem := fun g i => if g = f then 0 else p.mem g i }

/-- A copy of a whole frame. -/
def copyPage (p : Phys) (src dst : Nat) : Phys :=
  { p with mem := fun g i => if g = dst then p.mem src i else p.mem g i }

/-- `pp->pp_ref++` on an `unsigned short`. -/
def incRef (p : Phys) (f : Nat) : Phys :=
  { p with ppRef := fun g => if g = f then (p.ppRef f + 1) % 2 ^ 16 else p.ppRef g }

/-- `pp->pp_ref--` on an `unsigned short`. -/
def decRef (p : Phys) (f : Nat) : Phys :=
  { p with ppRef := fun g => if g = f then (p.ppRef f + (2 ^ 16 - 1)) % 2 ^ 16 else p.ppRef g }

/-! ## 3. The allocator -/

/-- `page_alloc`; `none` is `-E_NO_MEM`. -/
def pageAlloc (p : Phys) : Option (Nat × Phys) :=
  match p.pageFreeList.first () with
  | some pp =>
    let p := { p with pageFreeList := p.pageFreeList.remove pp }
    some (pp, p.bzeroPage pp)
  | none => none

/-- `page_free`.  The counter is unsigned, so the third branch of the source is never taken. -/
def pageFree (p : Phys) (pp : Nat) : Phys :=
  if 0 < p.ppRef pp then p
  else { p with pageFreeList := p.pageFreeList.insertHead () pp }

/-! ## 4. The walk -/

/-- One level of `pgdir_walk`: the table the entry names, made on demand.  `none` is
`-E_NO_MEM`. -/
def descend (p : Phys) (entryp : Ptr) (create : Bool) : Option Nat × Phys :=
  if Valid (p.load entryp) then (some (ppn (p.load entryp)), p)
  else if create then
    match p.pageAlloc with
    | none => (none, p)
    | some (ppage, p) =>
      let p := p.store entryp (tableDesc ppage)
      (some ppage, p.incRef ppage)
  else (none, p)

/-- `pgdir_walk`: the return value, `*ppte`, and the state after it. -/
def pgdirWalk (p : Phys) (pud : Nat) (va : Nat) (create : Bool) : (Int × Ptr) × Phys :=
  match p.descend ⟨pud, pudx va⟩ create with
  | (none, p) => ((-eNoMem, .null), p)
  | (some pmd, p) =>
    match p.descend ⟨pmd, pmdx va⟩ create with
    | (none, p) => ((-eNoMem, .null), p)
    | (some pte, p) => ((0, ⟨pte, ptex va⟩), p)

/-- The pointer `pgdir_walk(pud, va, 0, &entry)` leaves in `entry`. -/
def walk (p : Phys) (pud : Nat) (va : Nat) : Ptr := (p.pgdirWalk pud va false).1.2

end Phys

/-- `pa2page`, as a frame number. -/
def pa2page (pa : Nat) : Except Halt Nat :=
  if npage ≤ ppn pa then .error .pa2pagePanic else .ok (ppn pa)

namespace Phys

/-! ## 5. Mappings -/

/-- `page_lookup`: the page and the entry that maps it. -/
def pageLookup (p : Phys) (pud : Nat) (va : Nat) : Except Halt (Option (Nat × Ptr)) :=
  let pte := p.walk pud va
  if pte = .null then .ok none
  else if ¬ Valid (p.load pte) then .ok none
  else do
    let ppage ← pa2page (p.load pte)
    return some (ppage, pte)

/-- `page_remove`. -/
def pageRemove (p : Phys) (pud : Nat) (va : Nat) : Except Halt Phys := do
  match ← p.pageLookup pud va with
  | none => return p
  | some (ppage, entry) =>
    let p := p.decRef ppage
    let p := if p.ppRef ppage = 0 then p.pageFree ppage else p
    return p.store entry 0

/-- The tail of `page_insert`: the walk with creation, the store and the count. -/
def pageEnter (p : Phys) (pud : Nat) (pp : Nat) (va : Nat) (perm : Nat) : Int × Phys :=
  let ((status, entry), p) := p.pgdirWalk pud va true
  if status ≠ 0 then (-eNoMem, p)
  else
    let p := p.store entry (leafDesc pp perm)
    (0, p.incRef pp)

/-- `page_insert`. -/
def pageInsert (p : Phys) (pud : Nat) (pp : Nat) (va : Nat) (perm : Nat) :
    Except Halt (Int × Phys) := do
  let entry := p.walk pud va
  if entry ≠ .null ∧ Valid (p.load entry) then
    let old ← pa2page (p.load entry)
    if old ≠ pp then
      let p ← p.pageRemove pud va
      return p.pageEnter pud pp va perm
    else
      return (0, p.store entry (leafDesc pp perm))
  else
    return p.pageEnter pud pp va perm

end Phys

/-! ## 6. What each operation can do

One lemma a function, so that no later proof unfolds them. -/

namespace Phys

@[simp] theorem mem_store (p : Phys) (a : Ptr) (w : Nat) (f : Nat) (i : Fin 512) :
    (p.store a w).mem f i = if f = a.frame ∧ i = a.idx then w else p.mem f i := rfl

@[simp] theorem mem_store_self (p : Phys) (f : Nat) (i : Fin 512) (w : Nat) :
    (p.store ⟨f, i⟩ w).mem f i = w := if_pos ⟨rfl, rfl⟩

@[simp] theorem ppRef_store (p : Phys) (a : Ptr) (w : Nat) : (p.store a w).ppRef = p.ppRef := rfl

@[simp] theorem pageFreeList_store (p : Phys) (a : Ptr) (w : Nat) :
    (p.store a w).pageFreeList = p.pageFreeList := rfl

@[simp] theorem mem_incRef (p : Phys) (f : Nat) : (p.incRef f).mem = p.mem := rfl

@[simp] theorem pageFreeList_incRef (p : Phys) (f : Nat) :
    (p.incRef f).pageFreeList = p.pageFreeList := rfl

theorem ppRef_incRef (p : Phys) (f g : Nat) :
    (p.incRef f).ppRef g = if g = f then (p.ppRef f + 1) % 2 ^ 16 else p.ppRef g := rfl

@[simp] theorem mem_decRef (p : Phys) (f : Nat) : (p.decRef f).mem = p.mem := rfl

@[simp] theorem pageFreeList_decRef (p : Phys) (f : Nat) :
    (p.decRef f).pageFreeList = p.pageFreeList := rfl

theorem ppRef_decRef (p : Phys) (f g : Nat) :
    (p.decRef f).ppRef g = if g = f then (p.ppRef f + (2 ^ 16 - 1)) % 2 ^ 16 else p.ppRef g := rfl

@[simp] theorem mem_pageFree (p : Phys) (f : Nat) : (p.pageFree f).mem = p.mem := by
  unfold pageFree
  split <;> rfl

@[simp] theorem ppRef_pageFree (p : Phys) (f : Nat) : (p.pageFree f).ppRef = p.ppRef := by
  unfold pageFree
  split <;> rfl

/-- The two outcomes of `page_alloc`. -/
theorem pageAlloc_eq_some {p p' : Phys} {f : Nat} (h : p.pageAlloc = some (f, p')) :
    p.pageFreeList.first () = some f ∧
      p' = { p.bzeroPage f with pageFreeList := p.pageFreeList.remove f } := by
  unfold pageAlloc at h
  split at h
  · rename_i pp hf
    cases h
    exact ⟨hf, rfl⟩
  · cases h

theorem pageAlloc_eq_none {p : Phys} : p.pageAlloc = none ↔ p.pageFreeList.first () = none := by
  unfold pageAlloc
  split
  · rename_i hf; simp [hf]
  · rename_i hf; simp [hf]

/-- A walk that may not create changes nothing. -/
theorem descend_false (p : Phys) (a : Ptr) :
    p.descend a false = (if Valid (p.load a) then some (ppn (p.load a)) else none, p) := by
  unfold descend
  split <;> simp

/-- **The three ends of a level of the walk with creation**: the entry is valid, or no frame is left, or a
table has been linked. -/
theorem descend_cases (p : Phys) (a : Ptr) :
    (Valid (p.load a) ∧ p.descend a true = (some (ppn (p.load a)), p)) ∨
    (¬ Valid (p.load a) ∧ p.pageAlloc = none ∧ p.descend a true = (none, p)) ∨
    ∃ t q, ¬ Valid (p.load a) ∧ p.pageAlloc = some (t, q) ∧
      p.descend a true = (some t, (q.store a (tableDesc t)).incRef t) := by
  unfold descend
  split
  · rename_i hv
    exact Or.inl ⟨hv, rfl⟩
  · rename_i hv
    rw [if_pos rfl]
    split
    · rename_i hp
      exact Or.inr (Or.inl ⟨hv, hp, rfl⟩)
    · rename_i t q hp
      exact Or.inr (Or.inr ⟨t, q, hv, hp, rfl⟩)

/-- **The walk without creation, level by level**: it changes nothing, and it answers with an
entry exactly when both upper descriptors are valid. -/
theorem pgdirWalk_false (p : Phys) (pud : Nat) (va : Nat) :
    p.pgdirWalk pud va false =
      (if Valid (p.mem pud (pudx va)) then
        if Valid (p.mem (ppn (p.mem pud (pudx va))) (pmdx va)) then
          (0, ⟨ppn (p.mem (ppn (p.mem pud (pudx va))) (pmdx va)), ptex va⟩)
        else (-eNoMem, .null)
      else (-eNoMem, .null), p) := by
  unfold pgdirWalk
  rw [descend_false]
  by_cases h1 : Valid (p.mem pud (pudx va))
  · simp only [load, h1, if_true, descend_false]
    by_cases h2 : Valid (p.mem (ppn (p.mem pud (pudx va))) (pmdx va))
    · simp only [h2, if_true]
    · simp only [h2, if_false]
  · simp only [load, h1, if_false]

/-- The entry the walk without creation answers with. -/
theorem walk_eq (p : Phys) (pud : Nat) (va : Nat) :
    p.walk pud va =
      if Valid (p.mem pud (pudx va)) then
        if Valid (p.mem (ppn (p.mem pud (pudx va))) (pmdx va)) then
          ⟨ppn (p.mem (ppn (p.mem pud (pudx va))) (pmdx va)), ptex va⟩
        else .null
      else .null := by
  unfold walk
  rw [pgdirWalk_false]
  split
  · split <;> rfl
  · rfl

end Phys

end RaspiOS
