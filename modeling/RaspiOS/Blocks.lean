/-
# `pgdir_walk` and the blocks of the device window

`boot_mmu_setup` maps the device window by blocks of 2 MB, `mm/pmap.c` maps everything by pages, and
both write into the same trees.  The walk of `mm/pmap.c` tests the valid bit alone.  Where it meets a
block it takes the address of the block for that of a table, and the slot it answers with is a word of a
device, or of memory that is in use for something else.

That is the first way in which a slot can lie in the window; `UnderBlock` are the addresses, of any
directory, where it happens.  The second is that `page_init` puts the frames of the window on the free
list, so a table may be one of them (`OffWindow`).  At every other address the slot is in a table, and
the page operations store to tables and to the frames `page_alloc` clears.
-/
import RaspiOS.BootMap
import RaspiOS.Coherence

set_option autoImplicit false

namespace RaspiOS

open LinkedList

/-! ## 1. Tables and blocks of a set of directories -/

/-- Frame `f` is a third-level table: table descriptors lead to it, it is counted, and it is not on the
free list. -/
structure AllocatedTable (D : Set Nat) (p : Phys) (f : Nat) : Prop where
  linked : ∃ d ∈ D, ∃ i j, IsTable (p.mem d i) ∧ IsTable (p.mem (ppn (p.mem d i)) j) ∧
    ppn (p.mem (ppn (p.mem d i)) j) = f
  counted : 0 < p.ppRef f
  taken : ∀ l, IsList p.pageFreeList () l → f ∉ l

/-- Frame `f` is a directory or a table of one of the two levels. -/
def PageTable (D : Set Nat) (p : Phys) (f : Nat) : Prop :=
  f ∈ D ∨ (∃ d ∈ D, ∃ i, IsTable (p.mem d i) ∧ ppn (p.mem d i) = f) ∨ AllocatedTable D p f

/-- Frame `f` is in the memory that a block of 2 MB maps. -/
def BlockMapped (D : Set Nat) (m : Mem) (f : Nat) : Prop :=
  ∃ d ∈ D, ∃ i j, IsTable (m d i) ∧ IsBlock (m (ppn (m d i)) j) ∧
    f / 512 = ppn (m (ppn (m d i)) j) / 512

/-- Frame `f` is on the free list. -/
def OnFreeList (p : Phys) (f : Nat) : Prop := ∃ l, IsList p.pageFreeList () l ∧ f ∈ l

/-- **What the walk and the page operations are to do at `va`**: the slot is in a third-level table and
not in the memory of a block, and loads and stores go to tables and to frames that are being cleared. -/
structure BlockSafe (D : Set Nat) (p : Phys) (pud va : Nat) : Prop where
  slot : ∀ create slot p', p.pgdirWalk pud va create = ((0, slot), p') →
    AllocatedTable D p' slot.frame ∧ ¬ BlockMapped D p'.mem slot.frame
  lookup : ∀ pp pte, p.pageLookup pud va = .ok (some (pp, pte)) → AllocatedTable D p pte.frame
  remove : ∀ as, p.pageRemoveTrace pud va = .ok as → ∀ a w, .store a w ∈ as →
    AllocatedTable D p a.frame
  insert : ∀ pp perm r as, p.pageInsertTrace pud pp va perm = .ok (r, as) → ∀ a w, .store a w ∈ as →
    PageTable D p a.frame ∨ OnFreeList p a.frame

/-- The addresses at which a walk meets a block: `0x3f000000` up to `0x40200000`, and their aliases. -/
def UnderBlock (va : Nat) : Prop :=
  pudx va = 0 ∧ 504 ≤ (pmdx va).val ∨ pudx va = 1 ∧ pmdx va = 0

/-- The frames the device blocks map. -/
def InWindow (f : Nat) : Prop := 504 ≤ f / 512 ∧ f / 512 ≤ 512

/-- The table of `va` is no frame of the window: neither the one that is linked for it, nor, where there
is none, the frame of the free list that would become it. -/
structure OffWindow (p : Phys) (pud va : Nat) : Prop where
  linked : Valid (p.mem pud (pudx va)) → Valid (p.mem (ppn (p.mem pud (pudx va))) (pmdx va)) →
    ¬ InWindow (ppn (p.mem (ppn (p.mem pud (pudx va))) (pmdx va)))
  first : Valid (p.mem pud (pudx va)) → ¬ Valid (p.mem (ppn (p.mem pud (pudx va))) (pmdx va)) →
    ∀ f l, IsList p.pageFreeList () (f :: l) → ¬ InWindow f
  second : ¬ Valid (p.mem pud (pudx va)) → ∀ t f l, IsList p.pageFreeList () (t :: f :: l) →
    ¬ InWindow f

/-- The directories of a state: `_pg_dir` and those of the slots that are in use. -/
def Kernel.directories (s : Kernel) : Set Nat :=
  {d | d = s.pgDir ∨ ∃ e fl, IsList s.envFreeList () fl ∧ e ∉ fl ∧ d = (s.envs e).envPgdir}

/-! ## 2. The two upper levels -/

/-- The two indices of an entry that holds a block. -/
def BlockEntry (i j : Fin 512) : Prop := i = 0 ∧ 504 ≤ j.val ∨ i = 1 ∧ j = 0

/-- What frame `t` under entry `i` of directory `d` is. -/
def Second (L : Layout) (ρ : Nat → Role) (d : Nat) (i : Fin 512) (t : Nat) : Prop :=
  i = 0 ∧ t = L.pgDir + 1 ∨ i = 1 ∧ t = L.pgDir + 506 ∨ 2 ≤ i.val ∧ ρ t = .pmd d i

theorem inWindow_deviceBlock {r : Nat} (hlo : 504 ≤ r) (hhi : r ≤ 512) :
    InWindow (ppn (Boot.deviceBlock r)) ∧ ppn (Boot.deviceBlock r) / 512 = r := by
  have hframe : ppn (Boot.deviceBlock r) = r * 512 := by
    rw [deviceBlock_eq]
    exact ppn_or_low _ (by decide)
  rw [hframe, InWindow]
  omega

theorem IsBlock.not_isTable {w : Nat} (h : IsBlock w) : ¬ IsTable w := by
  intro ht
  rw [IsTable, h] at ht
  exact absurd ht (by decide)

namespace Forest

variable {L : Layout} {base : Nat} {km : Mem} {ρ : Nat → Role} {p : Phys} {D : Set Nat}
  {d t u f : Nat} {i j : Fin 512}

/-- The entries a directory shares. -/
theorem dir_shared (h : Forest L base km ρ p) (hd : ρ d = .dir ∨ d = L.pgDir) :
    p.mem d 0 = tableDesc (L.pgDir + 1) ∧ p.mem d 1 = tableDesc (L.pgDir + 506) := by
  have hb := h.map.le_base
  rcases hd with hd | rfl
  · rw [h.dirLow d hd 0 (by decide), h.dirLow d hd 1 (by decide), h.map.dir_ram, h.map.dir_window]
    exact ⟨rfl, rfl⟩
  · rw [h.kernelMem _ le_rfl (by omega), h.map.dir_ram, h.map.dir_window]
    exact ⟨rfl, rfl⟩

/-- The table of the first gigabyte is as boot has left it. -/
theorem ram_entry (h : Forest L base km ρ p) {r : Fin 512} (hr : r.val < 504) :
    p.mem (L.pgDir + 1) r = tableDesc (L.pgDir + 2 + r) := by
  have hb := h.map.le_base
  rw [h.kernelMem _ (by omega) (by omega), h.map.ram_table r hr]

theorem ram_entry_block (h : Forest L base km ρ p) {r : Fin 512} (hr : 504 ≤ r.val) :
    p.mem (L.pgDir + 1) r = Boot.deviceBlock r := by
  have hb := h.map.le_base
  rw [h.kernelMem _ (by omega) (by omega), h.map.ram_block r hr]

theorem window_entry_block (h : Forest L base km ρ p) :
    p.mem (L.pgDir + 506) 0 = Boot.deviceBlock 512 := by
  have hb := h.map.le_base
  rw [h.kernelMem _ (by omega) (by omega), h.map.window_block]

/-- **An entry of a directory** names a table, and below the user half it always does. -/
theorem dir_entry (h : Forest L base km ρ p) (hd : ρ d = .dir ∨ d = L.pgDir)
    (hv : Valid (p.mem d i)) : IsTable (p.mem d i) ∧ Second L ρ d i (ppn (p.mem d i)) := by
  obtain ⟨h0, h1⟩ := h.dir_shared hd
  have hb := h.map.le_base
  rcases eq_or_ne i 0 with rfl | hi0
  · rw [h0, ppn_tableDesc]
    exact ⟨isTable_tableDesc _, .inl ⟨rfl, rfl⟩⟩
  rcases eq_or_ne i 1 with rfl | hi1
  · rw [h1, ppn_tableDesc]
    exact ⟨isTable_tableDesc _, .inr (.inl ⟨rfl, rfl⟩)⟩
  have hi : 2 ≤ i.val := by
    have hv0 : i.val ≠ 0 := fun he => hi0 (Fin.ext he)
    have hv1 : i.val ≠ 1 := fun he => hi1 (Fin.ext he)
    omega
  rcases hd with hd | rfl
  · obtain ⟨ht, hr⟩ := h.dirUser d hd i hi hv
    exact ⟨ht, .inr (.inr ⟨hi, hr⟩)⟩
  · rw [h.kernelMem _ le_rfl (by omega)] at hv
    exact absurd hv (h.map.dir_user i hi)

theorem dir_low_valid (h : Forest L base km ρ p) (hd : ρ d = .dir ∨ d = L.pgDir)
    (hi : ¬ 2 ≤ i.val) : Valid (p.mem d i) := by
  obtain ⟨h0, h1⟩ := h.dir_shared hd
  rcases Nat.lt_or_ge i.val 1 with hlt | hge
  · have hz : i = 0 := Fin.ext (by simp only [Fin.val_zero]; omega)
    rw [hz, h0]
    exact valid_tableDesc _
  · have ho : i = 1 := Fin.ext (by simp only [Fin.val_one]; omega)
    rw [ho, h1]
    exact valid_tableDesc _

/-- A second-level table is no directory and not free. -/
theorem second_role (h : Forest L base km ρ p) (ht : Second L ρ d i t) :
    ρ t ≠ .free ∧ ρ t ≠ .dir ∧ t ≠ L.pgDir ∧ (∀ s k, ρ t ≠ .pte s k) := by
  have hb := h.map.le_base
  have hkernel : ∀ {x}, x < base → ρ x = .kernel := fun hx => (h.kernel _).mpr (.inl hx)
  rcases ht with ⟨-, rfl⟩ | ⟨-, rfl⟩ | ⟨-, hr⟩
  · simp [hkernel (x := L.pgDir + 1) (by omega)]
  · simp [hkernel (x := L.pgDir + 506) (by omega)]
  · refine ⟨by simp [hr], by simp [hr], ?_, by simp [hr]⟩
    rintro rfl
    have hk := hkernel (x := L.pgDir) (by omega)
    rw [hk] at hr
    cases hr

/-- What a third-level table can be: a page table of the pool, or one that boot has made. -/
def Third (L : Layout) (base : Nat) (ρ : Nat → Role) (t : Nat) (j : Fin 512) (u : Nat) : Prop :=
  ρ u = .pte t j ∨ L.pgDir + 2 ≤ u ∧ u < base ∧ u ≠ L.pgDir + 506

/-- **An entry of a second-level table** names a third-level table, or is one of the nine blocks. -/
theorem second_entry (h : Forest L base km ρ p) (ht : Second L ρ d i t) (hv : Valid (p.mem t j)) :
    BlockEntry i j ∧ IsBlock (p.mem t j) ∧ InWindow (ppn (p.mem t j)) ∨
    ¬ BlockEntry i j ∧ IsTable (p.mem t j) ∧ Third L base ρ t j (ppn (p.mem t j)) := by
  have hb := h.map.le_base
  rcases ht with ⟨rfl, rfl⟩ | ⟨rfl, rfl⟩ | ⟨hi, hr⟩
  · rcases Nat.lt_or_ge j.val 504 with hj | hj
    · rw [h.ram_entry hj, ppn_tableDesc]
      refine .inr ⟨?_, isTable_tableDesc _, .inr ⟨by omega, by omega, by omega⟩⟩
      rintro (⟨-, hc⟩ | ⟨hc, -⟩)
      · omega
      · exact absurd hc (by decide)
    · rw [h.ram_entry_block hj]
      exact .inl ⟨.inl ⟨rfl, hj⟩, isBlock_deviceBlock _, (inWindow_deviceBlock hj (by omega)).1⟩
  · rcases eq_or_ne j 0 with rfl | hj
    · rw [h.window_entry_block]
      exact .inl ⟨.inr ⟨rfl, rfl⟩, isBlock_deviceBlock _,
        (inWindow_deviceBlock (by decide) le_rfl).1⟩
    · rw [h.kernelMem _ (by omega) (by omega)] at hv ⊢
      obtain ⟨u, hu, hlo, hhi, _⟩ := (h.map.window j hj).resolve_left (not_not.mpr hv)
      rw [hu, ppn_tableDesc]
      refine .inr ⟨?_, isTable_tableDesc _, .inr ⟨by omega, hhi, by omega⟩⟩
      rintro (⟨hc, -⟩ | ⟨-, hc⟩)
      · exact absurd hc (by decide)
      · exact hj hc
  · obtain ⟨htab, hu⟩ := h.pmdUser t d i hr j hv
    refine .inr ⟨?_, htab, .inl hu⟩
    rintro (⟨rfl, -⟩ | ⟨rfl, -⟩)
    · exact absurd hi (by decide)
    · exact absurd hi (by decide)

/-- The nine blocks are there. -/
theorem second_block (h : Forest L base km ρ p) (ht : Second L ρ d i t) (hb : BlockEntry i j) :
    Valid (p.mem t j) := by
  rcases ht with ⟨rfl, rfl⟩ | ⟨rfl, rfl⟩ | ⟨hi, -⟩
  · rcases hb with ⟨-, hj⟩ | ⟨hc, -⟩
    · rw [h.ram_entry_block hj]
      exact (isBlock_deviceBlock _).valid
    · exact absurd hc (by decide)
  · rcases hb with ⟨hc, -⟩ | ⟨-, rfl⟩
    · exact absurd hc (by decide)
    · rw [h.window_entry_block]
      exact (isBlock_deviceBlock _).valid
  · rcases hb with ⟨rfl, -⟩ | ⟨rfl, -⟩
    · exact absurd hi (by decide)
    · exact absurd hi (by decide)

/-- **The memory of the blocks is the window.** -/
theorem blockMapped_iff (h : Forest L base km ρ p) (hD : ∀ d ∈ D, ρ d = .dir ∨ d = L.pgDir)
    (hne : ∃ d, d ∈ D) : BlockMapped D p.mem f ↔ InWindow f := by
  have hb := h.map.le_base
  constructor
  · rintro ⟨d, hd, i, j, ht, hblock, hf⟩
    have hsec := (h.dir_entry (hD d hd) ht.valid).2
    rcases h.second_entry hsec hblock.valid with ⟨-, -, hw⟩ | ⟨-, htab, -⟩
    · rw [InWindow, hf]
      exact hw
    · exact absurd htab hblock.not_isTable
  · obtain ⟨d, hd⟩ := hne
    obtain ⟨h0, h1⟩ := h.dir_shared (hD d hd)
    rintro ⟨hlo, hhi⟩
    rcases Nat.lt_or_ge (f / 512) 512 with hlt | hge
    · have hword : p.mem (L.pgDir + 1) ⟨f / 512, hlt⟩ = Boot.deviceBlock (f / 512) :=
        h.ram_entry_block hlo
      refine ⟨d, hd, 0, ⟨f / 512, hlt⟩, ?_⟩
      rw [h0, ppn_tableDesc, hword, (inWindow_deviceBlock hlo hhi).2]
      exact ⟨isTable_tableDesc _, isBlock_deviceBlock _, rfl⟩
    · have hword : p.mem (L.pgDir + 506) 0 = Boot.deviceBlock (f / 512) := by
        rw [h.window_entry_block]
        congr 1
        omega
      refine ⟨d, hd, 1, 0, ?_⟩
      rw [h1, ppn_tableDesc, hword, (inWindow_deviceBlock hlo hhi).2]
      exact ⟨isTable_tableDesc _, isBlock_deviceBlock _, rfl⟩

/-- A third-level table is allocated. -/
theorem allocated_of_third (h : Forest L base km ρ p) (hbase : base < npage) (hd : d ∈ D)
    (h1 : IsTable (p.mem d i)) (h2 : IsTable (p.mem (ppn (p.mem d i)) j))
    (hu : Third L base ρ (ppn (p.mem d i)) j (ppn (p.mem (ppn (p.mem d i)) j))) :
    AllocatedTable D p (ppn (p.mem (ppn (p.mem d i)) j)) := by
  generalize hun : ppn (p.mem (ppn (p.mem d i)) j) = u at hu
  have hrole : (ρ u).held = 1 ∧ ρ u ≠ .free ∧ u < npage := by
    rcases hu with hu | ⟨hlo, hhi, -⟩
    · exact ⟨by rw [hu]; rfl, by simp [hu], h.lt_npage (by simp [hu])⟩
    · have hk := (h.kernel u).mpr (.inl hhi)
      exact ⟨by rw [hk]; rfl, by simp [hk], by omega⟩
  refine ⟨⟨d, hd, i, j, h1, h2, hun⟩, ?_, ?_⟩
  · rw [h.count u hrole.2.2, hrole.1]
    exact Nat.succ_pos _
  · intro l hl hmem
    obtain ⟨l', hl', hfree⟩ := h.pages
    exact hrole.2.1 ((hfree u).mp (hl.unique hl' ▸ hmem))

end Forest

/-! ## 3. A table that the walk makes -/

/-- `page_alloc` has handed out frame `t`, and the entry at `a` names it. -/
structure TableMade (a : Ptr) (t : Nat) (p p' : Phys) : Prop where
  void : ¬ Valid (p.mem a.frame a.idx)
  mem : ∀ x j, p'.mem x j = if x = a.frame ∧ j = a.idx then tableDesc t
    else if x = t then 0 else p.mem x j
  ppRef : ∀ x, p'.ppRef x = if x = t then (p.ppRef t + 1) % 2 ^ 16 else p.ppRef x
  list : ∀ l, IsList p.pageFreeList () l → ∃ l', l = t :: l' ∧ IsList p'.pageFreeList () l'

/-- **A level of the walk that ends somewhere**: the entry is valid, or a table has been made. -/
theorem Phys.descend_some {p p' : Phys} {a : Ptr} {create : Bool} {t : Nat}
    (h : p.descend a create = (some t, p')) :
    (Valid (p.load a) ∧ t = ppn (p.load a) ∧ p' = p) ∨
      (¬ Valid (p.load a) ∧ TableMade a t p p') := by
  unfold Phys.descend at h
  split at h
  · rename_i hv
    cases h
    exact .inl ⟨hv, rfl, rfl⟩
  rename_i hv
  split at h
  · split at h
    · cases h
    · rename_i f q hq
      cases h
      have hlist := fun l => Phys.pageAlloc_list (l := l) hq
      obtain ⟨-, rfl⟩ := Phys.pageAlloc_eq_some hq
      exact .inr ⟨hv, hv, fun _ _ => rfl, fun _ => rfl, hlist⟩
  · cases h

/-- The two levels of a walk that returns zero. -/
theorem Phys.pgdirWalk_zero {p p' : Phys} {pud va : Nat} {create : Bool} {slot : Ptr}
    (h : p.pgdirWalk pud va create = ((0, slot), p')) :
    ∃ t p₁, p.descend ⟨pud, pudx va⟩ create = (some t, p₁) ∧
      p₁.descend ⟨t, pmdx va⟩ create = (some slot.frame, p') := by
  unfold Phys.pgdirWalk at h
  split at h
  · cases h
  · rename_i t p₁ h₁
    split at h
    · cases h
    · rename_i u p₂ h₂
      cases h
      exact ⟨t, p₁, h₁, h₂⟩

namespace TableMade

variable {a : Ptr} {t f : Nat} {p p' : Phys} {D : Set Nat}

/-- Words that are valid stay, outside the new table. -/
theorem keeps (h : TableMade a t p p') {x : Nat} {j : Fin 512} (hv : Valid (p.mem x j))
    (hx : x ≠ t) : p'.mem x j = p.mem x j := by
  rw [h.mem, if_neg, if_neg hx]
  rintro ⟨rfl, rfl⟩
  exact h.void hv

/-- The entry names the table. -/
theorem entry (h : TableMade a t p p') : p'.mem a.frame a.idx = tableDesc t := by
  rw [h.mem, if_pos ⟨rfl, rfl⟩]

/-- **No block is added.** -/
theorem blockMapped (h : TableMade a t p p') (hb : BlockMapped D p'.mem f) :
    BlockMapped D p.mem f := by
  obtain ⟨d, hd, i, j, ht, hblock, hf⟩ := hb
  -- a word that is a block was one
  have hold : ∀ {x : Nat} {k : Fin 512}, IsBlock (p'.mem x k) → p'.mem x k = p.mem x k ∧ x ≠ t := by
    intro x k hk
    rw [h.mem] at hk ⊢
    split at hk
    · exact absurd (isTable_tableDesc t) hk.not_isTable
    · rename_i hne
      split at hk
      · exact absurd hk.valid not_valid_zero
      · rename_i hx
        rw [if_neg hne, if_neg hx]
        exact ⟨rfl, hx⟩
  obtain ⟨hword, hnew⟩ := hold hblock
  have hentry : p'.mem d i = p.mem d i := by
    rw [h.mem] at ht hnew ⊢
    split at ht
    · rename_i he
      rw [if_pos he, ppn_tableDesc] at hnew
      exact absurd rfl hnew
    · rename_i hne
      split at ht
      · exact absurd ht.valid not_valid_zero
      · rename_i hx
        rw [if_neg hne, if_neg hx]
  rw [hword, hentry] at hblock hf
  rw [hentry] at ht
  exact ⟨d, hd, i, j, ht, hblock, hf⟩

/-- No block is lost, where the new table is neither a directory nor a second-level table. -/
theorem blockMapped_of (h : TableMade a t p p') (hD : ∀ d ∈ D, d ≠ t)
    (hsecond : ∀ d ∈ D, ∀ i, IsTable (p.mem d i) → ppn (p.mem d i) ≠ t)
    (hb : BlockMapped D p.mem f) : BlockMapped D p'.mem f := by
  obtain ⟨d, hd, i, j, ht, hblock, hf⟩ := hb
  have hentry := h.keeps ht.valid (hD d hd)
  have hword := h.keeps hblock.valid (hsecond d hd i ht)
  refine ⟨d, hd, i, j, ?_⟩
  rw [hentry, hword]
  exact ⟨ht, hblock, hf⟩

end TableMade

/-! ## 4. Where the slot is -/

namespace Forest

variable {L : Layout} {base : Nat} {km : Mem} {ρ : Nat → Role} {p p' : Phys} {D : Set Nat}
  {pud va t f : Nat} {create : Bool} {slot : Ptr}

theorem free_of_list (h : Forest L base km ρ p) {l : List Nat} (hl : IsList p.pageFreeList () l)
    (hf : f ∈ l) : ρ f = .free := by
  obtain ⟨l', hl', hfree⟩ := h.pages
  exact (hfree f).mp (hl.unique hl' ▸ hf)

/-- A frame of the free list is neither a directory nor a second-level table. -/
theorem free_apart (h : Forest L base km ρ p) (hD : ∀ d ∈ D, ρ d = .dir ∨ d = L.pgDir)
    (hf : ρ f = .free) : (∀ d ∈ D, d ≠ f) ∧
      ∀ d ∈ D, ∀ i, IsTable (p.mem d i) → ppn (p.mem d i) ≠ f := by
  constructor
  · rintro d hd rfl
    rcases hD d hd with hr | rfl
    · rw [hf] at hr
      cases hr
    · have hb := h.map.le_base
      rw [(h.kernel L.pgDir).mpr (.inl (by omega))] at hf
      cases hf
  · rintro d hd i ht rfl
    exact (h.second_role (h.dir_entry (hD d hd) ht.valid).2).1 hf

/-- **A third-level table that has been made** is allocated, and a block maps it when it is a frame of
the window. -/
theorem slot_made {p₁ : Phys} {i j : Fin 512} {u : Nat} {l : List Nat} (hpud : pud ∈ D)
    (hmade : TableMade ⟨t, j⟩ u p₁ p') (hentry : IsTable (p₁.mem pud i))
    (ht : ppn (p₁.mem pud i) = t) (hl : IsList p₁.pageFreeList () (u :: l)) (h0 : p₁.ppRef u = 0)
    (hD : ∀ d ∈ D, d ≠ u) (hsecond : ∀ d ∈ D, ∀ i, IsTable (p₁.mem d i) → ppn (p₁.mem d i) ≠ u)
    (hwin : BlockMapped D p₁.mem u ↔ InWindow u) :
    AllocatedTable D p' u ∧ (BlockMapped D p'.mem u ↔ InWindow u) := by
  refine ⟨⟨⟨pud, hpud, i, j, ?_⟩, ?_, ?_⟩, ?_⟩
  · have hword := hmade.entry
    dsimp only at hword
    rw [hmade.keeps hentry.valid (hD pud hpud), ht, hword, ppn_tableDesc]
    exact ⟨hentry, isTable_tableDesc u, rfl⟩
  · rw [hmade.ppRef, if_pos rfl, h0]
    decide
  · intro l' hl' hmem
    obtain ⟨l₁, he, hl₁⟩ := hmade.list _ hl
    obtain ⟨-, rfl⟩ := List.cons.inj he
    rw [hl'.unique hl₁] at hmem
    exact (List.nodup_cons.mp hl.nodup).1 hmem
  · exact ⟨fun hb => hwin.mp (hmade.blockMapped hb),
      fun hw => hmade.blockMapped_of hD hsecond (hwin.mpr hw)⟩

/-- **Where a walk that returns zero arrives**: in the memory of a block, or in a table, which was there
or is one of the first two frames of the free list. -/
theorem slot_cases (h : Forest L base km ρ p) (hbase : base < npage)
    (hD : ∀ d ∈ D, ρ d = .dir ∨ d = L.pgDir) (hpud : pud ∈ D)
    (hw : p.pgdirWalk pud va create = ((0, slot), p')) :
    (UnderBlock va ∧ InWindow slot.frame ∧ p' = p) ∨
    (¬ UnderBlock va ∧ AllocatedTable D p' slot.frame ∧
      (BlockMapped D p'.mem slot.frame ↔ InWindow slot.frame) ∧
      (Valid (p.mem pud (pudx va)) ∧
          Valid (p.mem (ppn (p.mem pud (pudx va))) (pmdx va)) ∧
          slot.frame = ppn (p.mem (ppn (p.mem pud (pudx va))) (pmdx va)) ∧ p' = p ∨
        Valid (p.mem pud (pudx va)) ∧ ¬ Valid (p.mem (ppn (p.mem pud (pudx va))) (pmdx va)) ∧
          (∃ l, IsList p.pageFreeList () (slot.frame :: l)) ∨
        ¬ Valid (p.mem pud (pudx va)) ∧ ∃ t l, IsList p.pageFreeList () (t :: slot.frame :: l))) := by
  obtain ⟨t, p₁, hd₁, hd₂⟩ := Phys.pgdirWalk_zero hw
  obtain ⟨l, hl, hfree⟩ := h.pages
  have hwin := fun f => h.blockMapped_iff (f := f) hD ⟨pud, hpud⟩
  have hdir := hD pud hpud
  rcases Phys.descend_some hd₁ with ⟨hv₁, rfl, rfl⟩ | ⟨hv₁, hmade₁⟩
  · have hv₁ : Valid (p₁.mem pud (pudx va)) := hv₁
    obtain ⟨htab₁, hsec⟩ := h.dir_entry hdir hv₁
    rcases Phys.descend_some hd₂ with ⟨hv₂, hu, rfl⟩ | ⟨hv₂, hmade₂⟩
    · rcases h.second_entry hsec hv₂ with ⟨hb, -, hin⟩ | ⟨hb, htab₂, hthird⟩
      · exact .inl ⟨hb, by rw [hu]; exact hin, rfl⟩
      · refine .inr ⟨hb, ?_, hwin _, .inl ⟨hv₁, hv₂, hu, rfl⟩⟩
        rw [hu]
        exact h.allocated_of_third hbase hpud htab₁ htab₂ hthird
    · have hnb : ¬ UnderBlock va := fun hb => hv₂ (h.second_block hsec hb)
      obtain ⟨l', rfl, -⟩ := hmade₂.list l hl
      have hf := h.free_of_list hl List.mem_cons_self
      obtain ⟨hDu, hsu⟩ := h.free_apart hD hf
      obtain ⟨halloc, hiff⟩ :=
        slot_made hpud hmade₂ htab₁ rfl hl (h.ppRef_free hf) hDu hsu (hwin _)
      exact .inr ⟨hnb, halloc, hiff, .inr (.inl ⟨hv₁, hv₂, l', hl⟩)⟩
  · -- the directory entry is one of its own, and both tables are made
    have hv₁ : ¬ Valid (p.mem pud (pudx va)) := hv₁
    have hlow : 2 ≤ (pudx va).val := by
      by_contra hc
      exact hv₁ (h.dir_low_valid hdir hc)
    have hnb : ¬ UnderBlock va := by
      rintro (⟨hc, -⟩ | ⟨hc, -⟩)
      · rw [hc] at hlow
        exact absurd hlow (by decide)
      · rw [hc] at hlow
        exact absurd hlow (by decide)
    obtain ⟨l', rfl, hl'⟩ := hmade₁.list l hl
    have hft := h.free_of_list hl List.mem_cons_self
    obtain ⟨hDt, hst⟩ := h.free_apart hD hft
    have hempty : p₁.mem t (pmdx va) = 0 := by
      rw [hmade₁.mem, if_neg, if_pos rfl]
      rintro ⟨he, -⟩
      exact hDt pud hpud he.symm
    rcases Phys.descend_some hd₂ with ⟨hv₂, -, -⟩ | ⟨-, hmade₂⟩
    · exact absurd (hempty ▸ hv₂) not_valid_zero
    obtain ⟨l'', rfl, -⟩ := hmade₂.list l' hl'
    have hfu := h.free_of_list hl (List.mem_cons_of_mem t List.mem_cons_self)
    obtain ⟨hDu, hsu⟩ := h.free_apart hD hfu
    have hne : slot.frame ≠ t := by
      rintro he
      exact (List.nodup_cons.mp hl.nodup).1 (he ▸ List.mem_cons_self)
    have hsu₁ : ∀ d ∈ D, ∀ i, IsTable (p₁.mem d i) → ppn (p₁.mem d i) ≠ slot.frame := by
      intro d hd i hi
      rw [hmade₁.mem] at hi ⊢
      split at hi
      · rename_i he
        rw [if_pos he, ppn_tableDesc]
        exact hne.symm
      · rename_i he
        rw [if_neg he]
        split at hi
        · exact absurd hi.valid not_valid_zero
        · rename_i hx
          rw [if_neg hx]
          exact hsu d hd i hi
    have hwin₁ : BlockMapped D p₁.mem slot.frame ↔ InWindow slot.frame :=
      ⟨fun hb => (hwin _).mp (hmade₁.blockMapped hb),
        fun hi => hmade₁.blockMapped_of hDt hst ((hwin _).mpr hi)⟩
    have hentry := hmade₁.entry
    dsimp only at hentry
    obtain ⟨halloc, hiff⟩ := slot_made hpud hmade₂ (by rw [hentry]; exact isTable_tableDesc t)
      (by rw [hentry, ppn_tableDesc]) hl' (by rw [hmade₁.ppRef, if_neg hne, h.ppRef_free hfu])
      hDu hsu₁ hwin₁
    exact .inr ⟨hnb, halloc, hiff, .inr (.inr ⟨hv₁, t, l'', hl⟩)⟩

end Forest

/-- A level of the walk that makes a table, while the list lasts. -/
theorem Phys.descend_create {p : Phys} {a : Ptr} {f : Nat} {l : List Nat}
    (hv : ¬ Valid (p.load a)) (hl : IsList p.pageFreeList () (f :: l)) :
    ∃ p', p.descend a true = (some f, p') ∧ IsList p'.pageFreeList () l ∧ TableMade a f p p' := by
  obtain ⟨q, hq, hlq⟩ := Phys.pageAlloc_cons hl
  have hd : p.descend a true = (some f, (q.store a (tableDesc f)).incRef f) := by
    unfold Phys.descend
    rw [if_neg hv, if_pos rfl, hq]
  rcases Phys.descend_some hd with ⟨hc, -, -⟩ | ⟨-, hmade⟩
  · exact absurd hc hv
  · exact ⟨_, hd, hlq, hmade⟩

/-! ## 5. What the page operations store to -/

section Stores

variable {p : Phys} {pud va pp perm : Nat} {a b : Ptr} {w : Nat}

/-- The stores of one level of the walk: the new table, and the entry that names it. -/
theorem descendTrace_stores (h : .store b w ∈ (p.descendTrace a true).2) :
    b.frame = a.frame ∨ p.pageFreeList.first () = some b.frame := by
  unfold Phys.descendTrace at h
  split at h
  · cases h
  · rw [if_pos rfl] at h
    split at h
    · cases h
    · rename_i f as hq
      unfold Phys.pageAllocTrace at hq
      split at hq
      · rename_i t ht
        cases hq
        rw [ht]
        simp only [List.cons_append, List.mem_cons, List.mem_append, Phys.bzeroTrace, List.mem_map,
          reduceCtorEq, false_or, Access.store.injEq, List.not_mem_nil, or_false] at h
        rcases h with ⟨i, -, rfl, -⟩ | ⟨rfl, -⟩
        · exact .inr rfl
        · exact .inl rfl
      · cases hq

/-- The stores of `page_remove`. -/
theorem pageRemoveTrace_stores {as : List Access} (h : p.pageRemoveTrace pud va = .ok as)
    (ha : .store b w ∈ as) : ∃ pp, p.pageLookup pud va = .ok (some (pp, b)) := by
  unfold Phys.pageRemoveTrace at h
  rcases hl : p.pageLookup pud va with err | _ | ⟨old, entry⟩ <;> rw [hl] at h
  · cases h
  · cases h
    cases ha
  · obtain rfl := Except.ok.inj h
    simp only [List.cons_append, List.mem_cons, List.mem_append, reduceCtorEq, false_or,
      Access.store.injEq, List.not_mem_nil, or_false, Phys.pageFreeTrace] at ha
    rcases ha with ha | ⟨rfl, -⟩
    · split at ha
      · cases ha
      · simp at ha
    · exact ⟨old, rfl⟩

/-- The stores of the tail of `page_insert`: those of the walk, and one to the slot. -/
theorem pageEnterTrace_stores (ha : .store b w ∈ (p.pageEnterTrace pud pp va perm).2) :
    .store b w ∈ (p.pgdirWalkTrace pud va true).2 ∨
      ∃ p', p.pgdirWalk pud va true = ((0, b), p') := by
  unfold Phys.pageEnterTrace at ha
  have hw := Phys.pgdirWalk_trace p pud va true
  rcases htr : p.pgdirWalkTrace pud va true with ⟨⟨status, entry⟩, as⟩
  rw [htr] at hw ha
  dsimp only at ha
  split at ha
  · rcases List.mem_cons.mp ha with hc | hc
    · cases hc
    · exact .inl hc
  · rename_i h0
    have h0 : status = 0 := not_not.mp h0
    simp only [List.cons_append, List.mem_cons, List.mem_append, reduceCtorEq, false_or,
      Access.store.injEq, List.not_mem_nil, or_false] at ha
    rcases ha with ha | ⟨rfl, -⟩
    · exact .inl ha
    · exact .inr ⟨_, by rw [hw, h0]⟩

end Stores

namespace Forest

variable {L : Layout} {base : Nat} {km : Mem} {ρ : Nat → Role} {p : Phys} {D : Set Nat}
  {pud va t f : Nat}

/-- The stores of the walk go to the directory, to its second-level table and to new ones. -/
theorem pgdirWalkTrace_stores (h : Forest L base km ρ p) (hD : ∀ d ∈ D, ρ d = .dir ∨ d = L.pgDir)
    (hpud : pud ∈ D) {b : Ptr} {w : Nat} (ha : .store b w ∈ (p.pgdirWalkTrace pud va true).2) :
    PageTable D p b.frame ∨ OnFreeList p b.frame := by
  obtain ⟨l, hl, -⟩ := h.pages
  have hfirst : ∀ {x}, p.pageFreeList.first () = some x → OnFreeList p x := by
    intro x hx
    obtain ⟨l', rfl⟩ := hl.eq_cons hx
    exact ⟨_, hl, List.mem_cons_self⟩
  have hlevel₁ : .store b w ∈ (p.descendTrace ⟨pud, pudx va⟩ true).2 →
      PageTable D p b.frame ∨ OnFreeList p b.frame := by
    intro hs
    rcases descendTrace_stores hs with he | he
    · exact .inl (.inl (he ▸ hpud))
    · exact .inr (hfirst he)
  have hd := Phys.descend_trace p ⟨pud, pudx va⟩ true
  unfold Phys.pgdirWalkTrace at ha
  rcases htr : p.descendTrace ⟨pud, pudx va⟩ true with ⟨_ | t, as⟩ <;> rw [htr] at ha hd hlevel₁
  · exact hlevel₁ ha
  · -- the second level, in the state the first has left
    have hlevel₂ : .store b w ∈ ((p.accesses as).descendTrace ⟨t, pmdx va⟩ true).2 →
        PageTable D p b.frame ∨ OnFreeList p b.frame := by
      intro hs
      rcases Phys.descend_some hd with ⟨hv, rfl, he⟩ | ⟨hv, hmade⟩
      · rw [he] at hs
        rcases descendTrace_stores hs with hf | hf
        · exact .inl (.inr (.inl ⟨pud, hpud, _, (h.dir_entry (hD pud hpud) hv).1, hf.symm⟩))
        · exact .inr (hfirst hf)
      · obtain ⟨l', rfl, hl'⟩ := hmade.list l hl
        rcases descendTrace_stores hs with hf | hf
        · exact .inr ⟨_, hl, by rw [hf]; exact List.mem_cons_self⟩
        · obtain ⟨l'', rfl⟩ := hl'.eq_cons hf
          exact .inr ⟨_, hl, List.mem_cons_of_mem t List.mem_cons_self⟩
    dsimp only at ha
    rcases htr₂ : (p.accesses as).descendTrace ⟨t, pmdx va⟩ true with ⟨_ | u, bs⟩ <;>
      rw [htr₂] at ha hlevel₂ <;> exact (List.mem_append.mp ha).elim hlevel₁ hlevel₂

/-- A third-level table is neither a directory nor the table that names it. -/
theorem third_apart (h : Forest L base km ρ p) {d u : Nat} {i j : Fin 512}
    (hd : ρ d = .dir ∨ d = L.pgDir) (ht : Second L ρ d i t) (hu : Third L base ρ t j u) :
    u ≠ d ∧ u ≠ t := by
  have hb := h.map.le_base
  have hkernel : ∀ {x}, x < base → ρ x = .kernel := fun hx => (h.kernel _).mpr (.inl hx)
  obtain ⟨-, -, -, hnot⟩ := h.second_role ht
  rcases hu with hu | ⟨hlo, hhi, hne⟩
  · refine ⟨?_, fun he => hnot t j (he ▸ hu)⟩
    rintro rfl
    rcases hd with hd | rfl
    · rw [hu] at hd
      cases hd
    · rw [hkernel (by omega)] at hu
      cases hu
  · constructor
    · rintro rfl
      rcases hd with hd | rfl
      · rw [hkernel hhi] at hd
        cases hd
      · omega
    · rintro rfl
      rcases ht with ⟨-, he⟩ | ⟨-, he⟩ | ⟨-, hr⟩
      · omega
      · exact hne he
      · rw [hkernel hhi] at hr
        cases hr

/-! ## 6. Where the operations are safe -/

/-- A walk through two valid entries. -/
theorem pgdirWalk_valid {q : Phys} (h1 : Valid (q.mem pud (pudx va)))
    (h2 : Valid (q.mem (ppn (q.mem pud (pudx va))) (pmdx va))) :
    q.pgdirWalk pud va false
      = ((0, ⟨ppn (q.mem (ppn (q.mem pud (pudx va))) (pmdx va)), ptex va⟩), q) := by
  rw [Phys.pgdirWalk_false, if_pos h1, if_pos h2]

/-- The slot is in a table, and not in the window. -/
theorem slot_safe (h : Forest L base km ρ p) (hbase : base < npage)
    (hD : ∀ d ∈ D, ρ d = .dir ∨ d = L.pgDir) (hpud : pud ∈ D) (hva : ¬ UnderBlock va)
    (hoff : OffWindow p pud va) {create : Bool} {slot : Ptr} {p' : Phys}
    (hw : p.pgdirWalk pud va create = ((0, slot), p')) :
    AllocatedTable D p' slot.frame ∧ ¬ BlockMapped D p'.mem slot.frame ∧
      (AllocatedTable D p slot.frame ∨ OnFreeList p slot.frame) := by
  rcases h.slot_cases hbase hD hpud hw with ⟨hb, -⟩ | ⟨-, halloc, hiff, hwhere⟩
  · exact absurd hb hva
  refine ⟨halloc, fun hb => ?_, ?_⟩
  · have hin := hiff.mp hb
    rcases hwhere with ⟨h1, h2, he, -⟩ | ⟨h1, h2, l, hl⟩ | ⟨h1, t, l, hl⟩
    · exact hoff.linked h1 h2 (he ▸ hin)
    · exact hoff.first h1 h2 _ l hl hin
    · exact hoff.second h1 t _ l hl hin
  · rcases hwhere with ⟨-, -, -, rfl⟩ | ⟨-, -, l, hl⟩ | ⟨-, t, l, hl⟩
    · exact .inl halloc
    · exact .inr ⟨_, hl, List.mem_cons_self⟩
    · exact .inr ⟨_, hl, List.mem_cons_of_mem t List.mem_cons_self⟩

/-- The entry that is looked up is in a table. -/
theorem lookup_safe (h : Forest L base km ρ p) (hbase : base < npage)
    (hD : ∀ d ∈ D, ρ d = .dir ∨ d = L.pgDir) (hpud : pud ∈ D) (hva : ¬ UnderBlock va)
    (hoff : OffWindow p pud va) (hne : p.walk pud va ≠ .null) :
    AllocatedTable D p (p.walk pud va).frame := by
  obtain ⟨h1, h2⟩ := valid_of_walk hne
  rw [walk_of_valid h1 h2]
  exact (h.slot_safe hbase hD hpud hva hoff (pgdirWalk_valid h1 h2)).1

/-- The stores of `page_insert`. -/
theorem insert_safe (h : Forest L base km ρ p) (hbase : base < npage)
    (hD : ∀ d ∈ D, ρ d = .dir ∨ d = L.pgDir) (hpud : pud ∈ D) (hva : ¬ UnderBlock va)
    (hoff : OffWindow p pud va) {pp perm : Nat} {r : Int} {as : List Access}
    (hins : p.pageInsertTrace pud pp va perm = .ok (r, as)) {b : Ptr} {w : Nat}
    (hb : .store b w ∈ as) : PageTable D p b.frame ∨ OnFreeList p b.frame := by
  have hslot : AllocatedTable D p b.frame ∨ OnFreeList p b.frame →
      PageTable D p b.frame ∨ OnFreeList p b.frame := .imp_left fun ha => .inr (.inr ha)
  have henter : .store b w ∈ (p.pageEnterTrace pud pp va perm).2 →
      PageTable D p b.frame ∨ OnFreeList p b.frame := by
    intro hs
    rcases pageEnterTrace_stores hs with hs | ⟨p', hw⟩
    · exact h.pgdirWalkTrace_stores hD hpud hs
    · exact hslot (h.slot_safe hbase hD hpud hva hoff hw).2.2
  unfold Phys.pageInsertTrace at hins
  dsimp only at hins
  split at hins
  · rename_i hcond
    have hcur := h.lookup_safe hbase hD hpud hva hoff hcond.1
    obtain ⟨old, -, hins⟩ := Except.bind_eq_ok_iff.mp hins
    split at hins
    · obtain ⟨rs, hrem, hins⟩ := Except.bind_eq_ok_iff.mp hins
      cases hins
      rcases List.mem_append.mp hb with hs | hs
      · obtain ⟨pp', hlook⟩ := pageRemoveTrace_stores hrem hs
        rw [(pageLookup_some hlook).1]
        exact .inl (.inr (.inr hcur))
      · -- behind the removal the tables are as before, so the walk makes none
        have hm := pageRemoveTrace_mem hrem hcond.1 hcond.2
        obtain ⟨h1, h2⟩ := valid_of_walk hcond.1
        have hwalk := walk_of_valid h1 h2
        obtain ⟨htab₁, hsec⟩ := h.dir_entry (hD pud hpud) h1
        obtain ⟨-, htab₂, hthird⟩ := (h.second_entry hsec h2).resolve_left fun hc => hva hc.1
        obtain ⟨hne₁, hne₂⟩ := h.third_apart (hD pud hpud) hsec hthird
        have e1 : (p.accesses rs).mem pud (pudx va) = p.mem pud (pudx va) := by
          rw [hm, hwalk, mem_store_of_ne fun he => hne₁ (congrArg Ptr.frame he)]
        have e2 : (p.accesses rs).mem (ppn (p.mem pud (pudx va))) (pmdx va)
            = p.mem (ppn (p.mem pud (pudx va))) (pmdx va) := by
          rw [hm, hwalk, mem_store_of_ne fun he => hne₂ (congrArg Ptr.frame he)]
        have hv₁ : Valid ((p.accesses rs).mem pud (pudx va)) := by rw [e1]; exact h1
        have hv₂ : Valid ((p.accesses rs).mem (ppn ((p.accesses rs).mem pud (pudx va))) (pmdx va)) := by
          rw [e1, e2]
          exact h2
        have htr : (p.accesses rs).pgdirWalkTrace pud va true
            = ((0, ⟨ppn (p.mem (ppn (p.mem pud (pudx va))) (pmdx va)), ptex va⟩), []) := by
          unfold Phys.pgdirWalkTrace
          rw [Phys.descendTrace_valid hv₁]
          dsimp only
          rw [Phys.accesses_nil, Phys.descendTrace_valid hv₂, e1, e2]
          rfl
        rcases pageEnterTrace_stores hs with hs | ⟨q, hw⟩
        · rw [htr] at hs
          cases hs
        · rw [Phys.pgdirWalk_trace, htr] at hw
          have hbw : b = p.walk pud va := by
            rw [hwalk]
            exact (congrArg (fun x => x.1.2) hw).symm
          rw [hbw]
          exact .inl (.inr (.inr hcur))
    · cases hins
      simp only [List.mem_cons, reduceCtorEq, false_or, Access.store.injEq, List.not_mem_nil,
        or_false] at hb
      rw [hb.1]
      exact .inl (.inr (.inr hcur))
  · have he := Except.ok.inj hins
    exact henter (by rw [he]; exact hb)

/-- **The walk and the page operations are safe exactly where no block is met and the table is no frame
of the window.** -/
theorem blockSafe_iff (h : Forest L base km ρ p) (hbase : base < npage)
    (hD : ∀ d ∈ D, ρ d = .dir ∨ d = L.pgDir) (hpud : pud ∈ D) :
    BlockSafe D p pud va ↔ ¬ UnderBlock va ∧ OffWindow p pud va := by
  constructor
  · intro hsafe
    have hnot : ∀ {create slot p'}, p.pgdirWalk pud va create = ((0, slot), p') →
        ¬ UnderBlock va ∧ ¬ InWindow slot.frame := by
      intro create slot p' hw
      have hb := (hsafe.slot create slot p' hw).2
      rcases h.slot_cases hbase hD hpud hw with ⟨-, hin, rfl⟩ | ⟨hva, -, hiff, -⟩
      · exact absurd ((h.blockMapped_iff hD ⟨pud, hpud⟩).mpr hin) hb
      · exact ⟨hva, fun hin => hb (hiff.mpr hin)⟩
    refine ⟨fun hva => ?_, ?_, ?_, ?_⟩
    · have h1 : Valid (p.mem pud (pudx va)) := by
        refine h.dir_low_valid (hD pud hpud) ?_
        rcases hva with ⟨he, -⟩ | ⟨he, -⟩
        · rw [he]; decide
        · rw [he]; decide
      have h2 := h.second_block (h.dir_entry (hD pud hpud) h1).2 hva
      exact (hnot (pgdirWalk_valid h1 h2)).1 hva
    · exact fun h1 h2 => (hnot (pgdirWalk_valid h1 h2)).2
    · intro h1 h2 f l hl
      obtain ⟨p', hd, -⟩ := Phys.descend_create (a := ⟨ppn (p.mem pud (pudx va)), pmdx va⟩) h2 hl
      have hw : p.pgdirWalk pud va true = ((0, ⟨f, ptex va⟩), p') := by
        unfold Phys.pgdirWalk
        rw [show p.descend ⟨pud, pudx va⟩ true = (some (ppn (p.mem pud (pudx va))), p) from if_pos h1]
        dsimp only
        rw [hd]
      exact (hnot hw).2
    · intro h1 t f l hl
      obtain ⟨p₁, hd₁, hl₁, hmade⟩ := Phys.descend_create (a := ⟨pud, pudx va⟩) h1 hl
      have ht := (h.free_apart hD (h.free_of_list hl List.mem_cons_self)).1
      have hempty : p₁.mem t (pmdx va) = 0 := by
        rw [hmade.mem, if_neg, if_pos rfl]
        rintro ⟨he, -⟩
        exact ht pud hpud he.symm
      obtain ⟨p₂, hd₂, -⟩ := Phys.descend_create (p := p₁) (a := ⟨t, pmdx va⟩)
        (by rw [Phys.load, hempty]; exact not_valid_zero) hl₁
      have hw : p.pgdirWalk pud va true = ((0, ⟨f, ptex va⟩), p₂) := by
        unfold Phys.pgdirWalk
        rw [hd₁]
        dsimp only
        rw [hd₂]
      exact (hnot hw).2
  · rintro ⟨hva, hoff⟩
    have hlook : ∀ {pp pte}, p.pageLookup pud va = .ok (some (pp, pte)) →
        AllocatedTable D p pte.frame := by
      intro pp pte hl
      obtain ⟨rfl, hne, -⟩ := pageLookup_some hl
      exact h.lookup_safe hbase hD hpud hva hoff hne
    exact
      { slot := fun create slot p' hw =>
          ⟨(h.slot_safe hbase hD hpud hva hoff hw).1, (h.slot_safe hbase hD hpud hva hoff hw).2.1⟩
        lookup := fun pp pte hl => hlook hl
        remove := fun as hrem a w ha => by
          obtain ⟨pp, hl⟩ := pageRemoveTrace_stores hrem ha
          exact hlook hl
        insert := fun pp perm r as hins a w ha => h.insert_safe hbase hD hpud hva hoff hins ha }

end Forest

namespace Kernel

/-- **`pgdir_walk` mistakes a block for a table exactly under the device window**, and takes a frame of the
window for a table when the allocator has given it one: in every state that tame steps reach from boot on
clean memory, for every directory and every address. -/
theorem walk_block_safe {L : Layout} {ram : Mem} {s : Kernel} {pud : Nat} (va : Nat)
    (hclean : CleanRam L ram) (hs : s.TameReachable L ram) (hpud : pud ∈ s.directories) :
    BlockSafe s.directories s.phys pud va ↔ ¬ UnderBlock va ∧ OffWindow s.phys pud va := by
  obtain ⟨s₀, base, ρ, fl, _, hbooted, hi⟩ := KernelInv.ofReachable hclean hs
  refine hi.forest.blockSafe_iff hbooted.base_lt ?_ hpud
  rintro d (rfl | ⟨e, fl', hfl', he, rfl⟩)
  · exact .inr hi.pgDir
  · exact .inl (hi.dir e (hfl'.unique hi.list ▸ he))

/-- The first page of memory, after boot and one environment: its table is the first that boot makes. -/
theorem walk_block_safe_first : ∃ s : Kernel, s.TameReachable image coldRam ∧
    BlockSafe s.directories s.phys s.pgDir 0 := by
  obtain ⟨s₀, s, base, ρ, hb, _, hr, n, _, h⟩ := firstEnv_reached .zero
  have hs : s.TameReachable image coldRam := ⟨s₀, _, hb, hr⟩
  have hdir : s.phys.mem s.pgDir 0 = tableDesc (image.pgDir + 1) :=
    (h.inv.forest.dir_shared (.inr h.inv.pgDir)).1
  have hent : s.phys.mem (image.pgDir + 1) 0 = tableDesc (image.pgDir + 2 + 0) :=
    h.inv.forest.ram_entry (by decide)
  have hp : pudx 0 = 0 := by decide
  have hm : pmdx 0 = 0 := by decide
  refine ⟨s, hs, (walk_block_safe 0 cleanRam_coldRam hs (.inl rfl)).mpr ⟨?_, ?_, ?_, ?_⟩⟩
  · rintro (⟨-, hc⟩ | ⟨hc, -⟩)
    · rw [hm] at hc
      exact absurd hc (by decide)
    · rw [hp] at hc
      exact absurd hc (by decide)
  · intro _ _
    rw [hp, hm, hdir, ppn_tableDesc, hent, ppn_tableDesc, InWindow, show image.pgDir = 0x100 from rfl]
    decide
  · intro _ hv
    rw [hp, hm, hdir, ppn_tableDesc, hent] at hv
    exact absurd (valid_tableDesc _) hv
  · intro hv
    rw [hp, hdir] at hv
    exact absurd (valid_tableDesc _) hv

/-- **The walk meets a block.**  In the directory of the first environment the walk for the mailbox at
`0x3f000000` answers with word 0 of the device frame itself. -/
theorem walk_block_unsafe : ∃ (s : Kernel) (pud : Nat), s.TameReachable image coldRam ∧
    pud ∈ s.directories ∧
    s.phys.pgdirWalk pud 0x3f000000 false = ((0, ⟨0x3f000, 0⟩), s.phys) ∧
    ¬ BlockSafe s.directories s.phys pud 0x3f000000 := by
  obtain ⟨s₀, s, base, ρ, hb, hbooted, hr, n, _, h⟩ := firstEnv_reached .zero
  have hF := h.inv.forest
  have hmem0 : (0 : Slot) ∉ (List.finRange 1023).map Fin.succ := by simp
  have hd := h.inv.dir 0 hmem0
  have hpud : (s.envs 0).envPgdir ∈ s.directories := .inr ⟨0, _, h.inv.list, hmem0, rfl⟩
  have hD : ∀ d ∈ s.directories, ρ d = .dir ∨ d = image.pgDir := by
    rintro d (rfl | ⟨e, fl, hfl, he, rfl⟩)
    · exact .inr h.inv.pgDir
    · exact .inl (h.inv.dir e (hfl.unique h.inv.list ▸ he))
  have hp : pudx 0x3f000000 = 0 := by decide
  have hm : pmdx 0x3f000000 = 504 := by decide
  have hunder : UnderBlock 0x3f000000 := .inl ⟨hp, by rw [hm]; decide⟩
  have hdir : s.phys.mem (s.envs 0).envPgdir 0 = tableDesc (image.pgDir + 1) :=
    (hF.dir_shared (.inl hd)).1
  have hent : s.phys.mem (image.pgDir + 1) 504 = Boot.deviceBlock 504 :=
    hF.ram_entry_block (by decide)
  refine ⟨s, _, ⟨s₀, _, hb, hr⟩, hpud, ?_, fun hsafe => ?_⟩
  · rw [Forest.pgdirWalk_valid (by rw [hp, hdir]; exact valid_tableDesc _)
      (by rw [hp, hm, hdir, ppn_tableDesc, hent]; exact (isBlock_deviceBlock _).valid),
      hp, hm, hdir, ppn_tableDesc, hent, show ppn (Boot.deviceBlock 504) = 0x3f000 by decide,
      show ptex 0x3f000000 = 0 by decide]
  · exact ((hF.blockSafe_iff hbooted.base_lt hD hpud).mp hsafe).1 hunder

end Kernel

end RaspiOS
