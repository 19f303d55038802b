/-
# The page operations, access by access

`Pmap.lean` gives the state after an operation of `mm/pmap.c`.  Two questions about these operations
are about the way there: whether a counter wraps at some `++` or `--`, and whether `tlb_invalidate`
comes after the last store that matters.  This module lists what each operation does to frames,
counters, the free list and the TLB, in the order of the source, and proves that the lists lead to
the states of `Pmap.lean`.

Loads are left out, and so are the local variables; the decisions the C code takes on what it has
loaded are taken on the state at that point.
-/
import RaspiOS.Pmap

set_option autoImplicit false

namespace RaspiOS

open LinkedList

/-! ## 1. Accesses -/

/-- What an operation does to the memory of the kernel. -/
inductive Access where
  /-- a store to a word of a frame -/
  | store (a : Ptr) (w : Nat)
  /-- `pp->pp_ref++` -/
  | incRef (pp : Nat)
  /-- `pp->pp_ref--` -/
  | decRef (pp : Nat)
  /-- `LIST_REMOVE(pp, pp_link)` -/
  | unlink (pp : Nat)
  /-- `LIST_INSERT_HEAD(&page_free_list, pp, pp_link)` -/
  | link (pp : Nat)
  /-- `tlb_invalidate()` -/
  | tlbInvalidate
deriving DecidableEq

namespace Phys

/-- The effect of an access. -/
def access (p : Phys) : Access → Phys
  | .store a w => p.store a w
  | .incRef pp => p.incRef pp
  | .decRef pp => p.decRef pp
  | .unlink pp => { p with pageFreeList := p.pageFreeList.remove pp }
  | .link pp => { p with pageFreeList := p.pageFreeList.insertHead () pp }
  | .tlbInvalidate => p

/-- The effect of a list of accesses. -/
def accesses (p : Phys) (as : List Access) : Phys := as.foldl access p

@[simp] theorem accesses_nil (p : Phys) : p.accesses [] = p := rfl

@[simp] theorem accesses_cons (p : Phys) (a : Access) (as : List Access) :
    p.accesses (a :: as) = (p.access a).accesses as := rfl

@[simp] theorem accesses_append (p : Phys) (as bs : List Access) :
    p.accesses (as ++ bs) = (p.accesses as).accesses bs := List.foldl_append

/-- Every access of a list meets the condition, in the state it finds. -/
inductive Along (P : Phys → Access → Prop) : Phys → List Access → Prop
  | nil (p : Phys) : Along P p []
  | cons {p : Phys} {a : Access} {as : List Access} : P p a → Along P (p.access a) as →
      Along P p (a :: as)

theorem Along.append {P : Phys → Access → Prop} {p : Phys} {as bs : List Access}
    (h : Along P p as) (h' : Along P (p.accesses as) bs) : Along P p (as ++ bs) := by
  induction h with
  | nil => exact h'
  | cons h1 _ ih => exact .cons h1 (ih h')

theorem Along.cons_inv {P : Phys → Access → Prop} {p : Phys} {a : Access} {as : List Access}
    (h : Along P p (a :: as)) : P p a ∧ Along P (p.access a) as := by
  cases h with
  | cons h1 h2 => exact ⟨h1, h2⟩

theorem Along.append_inv {P : Phys → Access → Prop} {as bs : List Access} :
    ∀ {p : Phys}, Along P p (as ++ bs) → Along P (p.accesses as) bs := by
  induction as with
  | nil => exact fun h => h
  | cons a as ih => exact fun h => ih h.cons_inv.2

/-- A condition that some accesses meet in every state. -/
theorem Along.of_forall {P : Phys → Access → Prop} {as : List Access} :
    ∀ {p : Phys}, (∀ a ∈ as, ∀ q, P q a) → Along P p as := by
  induction as with
  | nil => exact fun _ => .nil _
  | cons a as ih =>
    exact fun h => .cons (h a List.mem_cons_self _) (ih fun b hb => h b (List.mem_cons_of_mem a hb))

/-! ## 2. The operations -/

/-- `bzero((void *)page2pa(pp), BY2PG)`, word by word. -/
def bzeroTrace (pp : Nat) : List Access := (List.finRange 512).map fun i => .store ⟨pp, i⟩ 0

/-- `page_alloc`. -/
def pageAllocTrace (p : Phys) : Option (Nat × List Access) :=
  match p.pageFreeList.first () with
  | some pp => some (pp, .unlink pp :: bzeroTrace pp)
  | none => none

/-- `page_free`. -/
def pageFreeTrace (p : Phys) (pp : Nat) : List Access :=
  if 0 < p.ppRef pp then [] else [.link pp]

/-- One level of `pgdir_walk`. -/
def descendTrace (p : Phys) (entryp : Ptr) (create : Bool) : Option Nat × List Access :=
  if Valid (p.load entryp) then (some (ppn (p.load entryp)), [])
  else if create then
    match p.pageAllocTrace with
    | none => (none, [])
    | some (ppage, as) => (some ppage, as ++ [.store entryp (tableDesc ppage), .incRef ppage])
  else (none, [])

/-- `pgdir_walk`. -/
def pgdirWalkTrace (p : Phys) (pud : Nat) (va : Nat) (create : Bool) :
    (Int × Ptr) × List Access :=
  match p.descendTrace ⟨pud, pudx va⟩ create with
  | (none, as) => ((-eNoMem, .null), as)
  | (some pmd, as) =>
    match (p.accesses as).descendTrace ⟨pmd, pmdx va⟩ create with
    | (none, bs) => ((-eNoMem, .null), as ++ bs)
    | (some pte, bs) => ((0, ⟨pte, ptex va⟩), as ++ bs)

/-- `page_remove`: the entry is cleared before the TLB is. -/
def pageRemoveTrace (p : Phys) (pud : Nat) (va : Nat) : Except Halt (List Access) := do
  match ← p.pageLookup pud va with
  | none => return []
  | some (ppage, entry) =>
    return .decRef ppage :: (p.decRef ppage).pageFreeTrace ppage ++ [.store entry 0, .tlbInvalidate]

/-- The tail of `page_insert`, from its second `tlb_invalidate` on. -/
def pageEnterTrace (p : Phys) (pud : Nat) (pp : Nat) (va : Nat) (perm : Nat) :
    Int × List Access :=
  let ((status, entry), as) := p.pgdirWalkTrace pud va true
  if status ≠ 0 then (-eNoMem, .tlbInvalidate :: as)
  else (0, .tlbInvalidate :: as ++ [.store entry (leafDesc pp perm), .incRef pp])

/-- `page_insert`: where the page is mapped to the same frame already, the entry is written after the
TLB has been emptied. -/
def pageInsertTrace (p : Phys) (pud : Nat) (pp : Nat) (va : Nat) (perm : Nat) :
    Except Halt (Int × List Access) := do
  let entry := p.walk pud va
  if entry ≠ .null ∧ Valid (p.load entry) then
    let old ← pa2page (p.load entry)
    if old ≠ pp then
      let as ← p.pageRemoveTrace pud va
      let (r, bs) := (p.accesses as).pageEnterTrace pud pp va perm
      return (r, as ++ bs)
    else
      return (0, [.tlbInvalidate, .store entry (leafDesc pp perm)])
  else
    return p.pageEnterTrace pud pp va perm

/-! ## 3. Where the lists lead -/

/-- Clearing words of a frame one after the other. -/
theorem accesses_stores (pp : Nat) (l : List (Fin 512)) (p : Phys) :
    ∃ m, p.accesses (l.map fun i => .store ⟨pp, i⟩ 0) = { p with mem := m } ∧
      (∀ i ∈ l, m pp i = 0) ∧ ∀ g i, g ≠ pp ∨ i ∉ l → m g i = p.mem g i := by
  induction l generalizing p with
  | nil => exact ⟨p.mem, rfl, by simp, fun _ _ _ => rfl⟩
  | cons k l ih =>
    obtain ⟨m, he, hin, hout⟩ := ih (p.store ⟨pp, k⟩ 0)
    refine ⟨m, he, fun i hi => ?_, fun g i hgi => ?_⟩
    · by_cases hl : i ∈ l
      · exact hin i hl
      · obtain rfl : i = k := (List.mem_cons.mp hi).resolve_right hl
        rw [hout pp i (Or.inr hl), mem_store_self]
    · rw [hout g i (hgi.imp_right fun hi hl => hi (List.mem_cons_of_mem k hl)), mem_store, if_neg]
      rintro ⟨hg, hi⟩
      exact hgi.elim (fun hne => hne hg) fun hn => hn (hi ▸ List.mem_cons_self)

theorem accesses_bzero (p : Phys) (pp : Nat) : p.accesses (bzeroTrace pp) = p.bzeroPage pp := by
  obtain ⟨m, he, hin, hout⟩ := accesses_stores pp (List.finRange 512) p
  have hm : m = (p.bzeroPage pp).mem := by
    funext g i
    rcases eq_or_ne g pp with rfl | hg
    · exact (hin i (List.mem_finRange i)).trans (if_pos rfl).symm
    · exact (hout g i (Or.inl hg)).trans (if_neg hg).symm
  rw [bzeroTrace, he, hm]
  rfl

theorem pageAlloc_trace (p : Phys) :
    p.pageAlloc = p.pageAllocTrace.map fun x => (x.1, p.accesses x.2) := by
  unfold pageAlloc pageAllocTrace
  cases p.pageFreeList.first () with
  | none => rfl
  | some pp =>
    simp only [Option.map_some, accesses_cons, accesses_bzero]
    rfl

theorem pageFree_trace (p : Phys) (pp : Nat) : p.accesses (p.pageFreeTrace pp) = p.pageFree pp := by
  unfold pageFreeTrace pageFree
  split <;> rfl

theorem descend_trace (p : Phys) (entryp : Ptr) (create : Bool) :
    p.descend entryp create =
      ((p.descendTrace entryp create).1, p.accesses (p.descendTrace entryp create).2) := by
  unfold descend descendTrace
  rw [pageAlloc_trace]
  split
  · rfl
  · split
    · cases p.pageAllocTrace with
      | none => rfl
      | some x =>
        simp only [Option.map_some, accesses_append]
        rfl
    · rfl

/-- What `page_alloc` hands out is cleared and off the list, and the rest of memory is as it was. -/
theorem accesses_pageAlloc {p : Phys} {f : Nat} {as : List Access} (h : p.pageAllocTrace = some (f, as)) :
    ∃ q, p.pageAlloc = some (f, q) ∧ p.accesses as = q ∧
      ∀ g i, q.mem g i = if g = f then 0 else p.mem g i := by
  have hq := pageAlloc_trace p
  rw [h] at hq
  refine ⟨_, hq, rfl, ?_⟩
  obtain ⟨_, he⟩ := pageAlloc_eq_some hq
  intro g i
  rw [he]
  rfl

/-- One level of the walk that finds a table. -/
theorem descendTrace_valid {p : Phys} {f : Nat} {i : Fin 512} (h : Valid (p.mem f i)) :
    p.descendTrace ⟨f, i⟩ true = (some (ppn (p.mem f i)), []) := by
  simp only [descendTrace, load, h, if_true]

/-- One level of the walk that makes a table: the new one is clear, unless the entry that names it
is in the way. -/
theorem descendTrace_create {p : Phys} {f t : Nat} {i : Fin 512} {as : List Access}
    (h : ¬ Valid (p.mem f i)) (ht : p.descendTrace ⟨f, i⟩ true = (some t, as)) :
    ∃ bs q, p.pageAllocTrace = some (t, bs) ∧
      as = bs ++ [.store ⟨f, i⟩ (tableDesc t), .incRef t] ∧ p.pageAlloc = some (t, q) ∧
      p.accesses as = (q.store ⟨f, i⟩ (tableDesc t)).incRef t ∧
      ∀ g i, q.mem g i = if g = t then 0 else p.mem g i := by
  simp only [descendTrace, load, h, if_false, if_true] at ht
  cases hb : p.pageAllocTrace with
  | none =>
    rw [hb] at ht
    cases ht
  | some x =>
    obtain ⟨f, bs⟩ := x
    rw [hb] at ht
    obtain ⟨hf, rfl⟩ := Prod.mk.inj ht
    obtain rfl := Option.some.inj hf
    obtain ⟨q, hq, he, hm⟩ := accesses_pageAlloc hb
    refine ⟨bs, q, rfl, rfl, hq, ?_, hm⟩
    rw [accesses_append, he]
    rfl

theorem pgdirWalk_trace (p : Phys) (pud va : Nat) (create : Bool) :
    p.pgdirWalk pud va create =
      ((p.pgdirWalkTrace pud va create).1, p.accesses (p.pgdirWalkTrace pud va create).2) := by
  unfold pgdirWalk pgdirWalkTrace
  rw [descend_trace]
  rcases p.descendTrace ⟨pud, pudx va⟩ create with ⟨_ | pmd, as⟩
  · rfl
  · dsimp only
    rw [descend_trace]
    rcases (p.accesses as).descendTrace ⟨pmd, pmdx va⟩ create with ⟨_ | pte, bs⟩ <;>
      simp only [accesses_append]

/-- **`page_remove` does what its list says.** -/
theorem pageRemove_trace (p : Phys) (pud va : Nat) :
    p.pageRemove pud va = (p.pageRemoveTrace pud va).map p.accesses := by
  unfold pageRemove pageRemoveTrace
  rcases p.pageLookup pud va with err | _ | ⟨ppage, entry⟩
  · rfl
  · rfl
  · simp only [bind, Except.bind, pure, Except.pure, Except.map, List.cons_append, accesses_cons,
      accesses_append]
    congr 1
    change _ = (((p.decRef ppage).accesses _).store entry 0)
    rw [pageFree_trace]
    split
    · rfl
    · rename_i h0
      rw [pageFree, if_pos (Nat.pos_of_ne_zero h0)]

theorem pageEnter_trace (p : Phys) (pud pp va perm : Nat) :
    p.pageEnter pud pp va perm =
      ((p.pageEnterTrace pud pp va perm).1, p.accesses (p.pageEnterTrace pud pp va perm).2) := by
  unfold pageEnter pageEnterTrace
  rw [pgdirWalk_trace]
  rcases p.pgdirWalkTrace pud va true with ⟨⟨status, entry⟩, as⟩
  dsimp only
  split
  · rfl
  · simp only [List.cons_append, accesses_cons, accesses_append]
    rfl

/-- **`page_insert` does what its list says.** -/
theorem pageInsert_trace (p : Phys) (pud pp va perm : Nat) :
    p.pageInsert pud pp va perm =
      (p.pageInsertTrace pud pp va perm).map fun x => (x.1, p.accesses x.2) := by
  unfold pageInsert pageInsertTrace
  dsimp only
  split
  · cases pa2page (p.load (p.walk pud va)) with
    | error => rfl
    | ok old =>
      simp only [bind, Except.bind]
      split
      · rw [pageRemove_trace]
        cases p.pageRemoveTrace pud va with
        | error => rfl
        | ok as =>
          simp only [Except.map, pageEnter_trace, pure, Except.pure, accesses_append]
      · rfl
  · rw [pageEnter_trace]
    rfl

end Phys

end RaspiOS
