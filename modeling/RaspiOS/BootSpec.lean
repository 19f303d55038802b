/-
# What boot leaves behind

`boot` runs three loops over memory whose contents at power-on are arbitrary.  This module says
what the tables of the kernel are when they have run (`KernelMap`), what the counters and the free
list of frames are, and that the environment table is empty (`EnvBoot`).  `boot_ok` says that boot
succeeds, with 252 MB of room to spare.

`KernelMap` needs two tables to hold no valid descriptor by accident: `boot_mmu_setup` never
clears the directory and the second-level table of the device window (`CleanRam`).
-/
import RaspiOS.Boot
import RaspiOS.Lib.Fallible

set_option autoImplicit false

namespace RaspiOS

open LinkedList

/-! ## 1. The tables of the kernel -/

/-- Power-on memory under the two tables `boot_mmu_setup` does not fill. -/
structure CleanRam (L : Layout) (ram : Mem) : Prop where
  dir : ∀ i : Fin 512, 2 ≤ i.val → ¬ Valid (ram L.pgDir i)
  window : ∀ j : Fin 512, j ≠ 0 → ¬ Valid (ram (L.pgDir + 506) j)

/-- **The tables of the kernel**: the frames from `_pg_dir` up to `base`. -/
structure KernelMap (L : Layout) (m : Mem) (base : Nat) : Prop where
  le_base : L.pgDir + 507 ≤ base
  dir_ram : m L.pgDir 0 = tableDesc (L.pgDir + 1)
  dir_window : m L.pgDir 1 = tableDesc (L.pgDir + 506)
  dir_user : ∀ i : Fin 512, 2 ≤ i.val → ¬ Valid (m L.pgDir i)
  ram_table : ∀ r : Fin 512, r.val < 504 → m (L.pgDir + 1) r = tableDesc (L.pgDir + 2 + r)
  ram_block : ∀ r : Fin 512, 504 ≤ r.val → m (L.pgDir + 1) r = Boot.deviceBlock r
  ident : ∀ (r : Nat) (t : Fin 512), r < 504 →
    m (L.pgDir + 2 + r) t = Boot.identDesc L ((r <<< 21) + (t.val <<< 12))
  window_block : m (L.pgDir + 506) 0 = Boot.deviceBlock 512
  window : ∀ j : Fin 512, j ≠ 0 → ¬ Valid (m (L.pgDir + 506) j) ∨
    ∃ u : Nat, m (L.pgDir + 506) j = tableDesc u ∧ L.pgDir + 507 ≤ u ∧ u < base ∧ u < npage

/-- The map only grows: frames above its own and a larger bound do not disturb it. -/
theorem KernelMap.mono {L : Layout} {m m' : Mem} {base base' : Nat} (h : KernelMap L m base)
    (hle : base ≤ base') (hm : ∀ f : Nat, L.pgDir ≤ f → f < L.pgDir + 507 → m' f = m f) :
    KernelMap L m' base' where
  le_base := le_trans h.le_base hle
  dir_ram := by rw [hm _ (by omega) (by omega), h.dir_ram]
  dir_window := by rw [hm _ (by omega) (by omega), h.dir_window]
  dir_user := by rw [hm _ (by omega) (by omega)]; exact h.dir_user
  ram_table := by rw [hm _ (by omega) (by omega)]; exact h.ram_table
  ram_block := by rw [hm _ (by omega) (by omega)]; exact h.ram_block
  ident := by
    intro r t hr
    rw [hm _ (by omega) (by omega)]
    exact h.ident r t hr
  window_block := by rw [hm _ (by omega) (by omega), h.window_block]
  window := by
    intro j hj
    rw [hm _ (by omega) (by omega)]
    rcases h.window j hj with hv | ⟨u, hu, h1, h2, h3⟩
    · exact Or.inl hv
    · exact Or.inr ⟨u, hu, h1, by omega, h3⟩

namespace Boot

@[simp] theorem mem_store (b : Boot) (a : Ptr) (w : Nat) (f : Nat) (i : Fin 512) :
    (b.store a w).mem f i = if f = a.frame ∧ i = a.idx then w else b.mem f i := rfl

@[simp] theorem freemem_store (b : Boot) (a : Ptr) (w : Nat) :
    (b.store a w).freemem = b.freemem := rfl

/-- A page-aligned address made into a descriptor. -/
theorem or_pteAttrs (f : Nat) : (by2pg * f ||| pteAttrs) = tableDesc f := by
  simp only [tableDesc, page2pa, Nat.shiftLeft_eq, by2pg, Nat.mul_comm, Nat.reducePow]

theorem ppn_mul (f : Nat) : ppn (by2pg * f) = f := by
  simp [ppn, by2pg, Nat.shiftRight_eq_div_pow]

theorem round_mul (f : Nat) : round (by2pg * f) by2pg = by2pg * f := by
  simp only [round, by2pg]
  omega

theorem ofNat_val (r : Fin 512) : Fin.ofNat 512 r.val = r := by
  ext
  simp [Fin.ofNat, Nat.mod_eq_of_lt r.isLt]

theorem ofNat_eq_iff {r k : Nat} (hr : r < 512) (hk : k < 512) :
    Fin.ofNat 512 r = Fin.ofNat 512 k ↔ r = k := by
  rw [Fin.ext_iff]
  simp [Fin.ofNat, Nat.mod_eq_of_lt hr, Nat.mod_eq_of_lt hk]

/-! ## 2. `boot_mmu_setup` -/

/-- The inner loop fills the table that `pmd[r]` names and nothing else. -/
theorem mmuEntries_spec (L : Symbols) {pmd u : Nat} {r : Nat} {b : Boot} (hne : u ≠ pmd)
    (hd : b.mem pmd (Fin.ofNat 512 r) = tableDesc u) :
    let b' := (List.range 512).foldl (mmuEntry L pmd r) b
    b'.freemem = b.freemem ∧
      (∀ t : Fin 512, b'.mem u t = identDesc L ((r <<< 21) + (t.val <<< 12))) ∧
      ∀ f : Nat, f ≠ u → b'.mem f = b.mem f := by
  have h := List.foldl_range_invariant (n := 512) (f := mmuEntry L pmd r) (s := b)
    (I := fun n b' => b'.freemem = b.freemem ∧
      (∀ t : Fin 512, t.val < n → b'.mem u t = identDesc L ((r <<< 21) + (t.val <<< 12))) ∧
      ∀ f : Nat, f ≠ u → b'.mem f = b.mem f)
    ⟨rfl, fun t ht => absurd ht (Nat.not_lt_zero _), fun _ _ => rfl⟩
    (by
      rintro k c hk ⟨h1, h2, h3⟩
      have hload : ppn (c.load ⟨pmd, Fin.ofNat 512 r⟩) = u := by
        simp only [load, h3 pmd (Ne.symm hne), hd, ppn_tableDesc]
      refine ⟨by simp only [mmuEntry, freemem_store, h1], ?_, ?_⟩
      · intro t ht
        simp only [mmuEntry, hload, mem_store, true_and]
        by_cases htk : t.val = k
        · subst htk
          rw [if_pos (ofNat_val t).symm]
        · have hne' : t ≠ Fin.ofNat 512 k := by
            rw [← ofNat_val t]
            exact fun h => htk ((ofNat_eq_iff t.isLt hk).mp h)
          rw [if_neg hne']
          exact h2 t (by omega)
      · intro f hf
        funext i
        simp only [mmuEntry, hload, mem_store, hf, false_and, if_false, h3 f hf])
  exact ⟨h.1, fun t => h.2.1 t t.isLt, h.2.2⟩

/-- What the outer loop has built after `n` rounds, from memory `m` and tables at `pmd + 1` on. -/
structure Rows (L : Symbols) (pmd : Nat) (m : Mem) (n : Nat) (b : Boot) : Prop where
  freemem : b.freemem = by2pg * (pmd + 1 + n)
  table : ∀ r < n, b.mem pmd (Fin.ofNat 512 r) = tableDesc (pmd + 1 + r)
  ident : ∀ r < n, ∀ t : Fin 512,
    b.mem (pmd + 1 + r) t = identDesc L ((r <<< 21) + (t.val <<< 12))
  rest : ∀ f : Nat, f < pmd ∨ pmd + 1 + n ≤ f → b.mem f = m f

theorem Rows.row {L : Symbols} {pmd : Nat} {m : Mem} {n : Nat} {b : Boot}
    (h : Rows L pmd m n b) (hn : n < 504) : Rows L pmd m (n + 1) (mmuRow L pmd b n) := by
  let b1 : Boot := { b.store ⟨pmd, Fin.ofNat 512 n⟩ (b.freemem ||| pteAttrs) with
    freemem := b.freemem + by2pg }
  have hd : b1.mem pmd (Fin.ofNat 512 n) = tableDesc (pmd + 1 + n) := by
    simp only [b1, mem_store, and_self, if_true, h.freemem, or_pteAttrs]
  obtain ⟨h1, h2, h3⟩ := mmuEntries_spec L (u := pmd + 1 + n) (by omega) hd
  have hrow : mmuRow L pmd b n = (List.range 512).foldl (mmuEntry L pmd n) b1 := rfl
  rw [← hrow] at h1 h2 h3
  have hb1 : ∀ f : Nat, f ≠ pmd → b1.mem f = b.mem f := by
    intro f hf
    funext i
    simp only [b1, mem_store, hf, false_and, if_false]
  refine ⟨?_, ?_, ?_, ?_⟩
  · rw [h1]
    simp only [b1, h.freemem, by2pg]
    omega
  · intro r hr
    rw [h3 pmd (by omega)]
    by_cases hrn : r = n
    · subst hrn
      exact hd
    · have hne : Fin.ofNat 512 r ≠ Fin.ofNat 512 n :=
        fun he => hrn ((ofNat_eq_iff (by omega) (by omega)).mp he)
      simp only [b1, mem_store, hne, and_false, if_false]
      exact h.table r (by omega)
  · intro r hr t
    by_cases hrn : r = n
    · rw [hrn]
      exact h2 t
    · rw [h3 _ (by omega), hb1 _ (by omega)]
      exact h.ident r (by omega) t
  · intro f hf
    rw [h3 _ (by omega), hb1 _ (by omega)]
    exact h.rest f (by omega)

/-- The second loop fills the rest of the table with blocks. -/
theorem blocks_spec (pmd : Nat) (b : Boot) :
    let b' := (List.range' ramRows (512 - ramRows)).foldl
      (fun b r => b.store ⟨pmd, Fin.ofNat 512 r⟩ (deviceBlock r)) b
    b'.freemem = b.freemem ∧
      (∀ r : Fin 512, 504 ≤ r.val → b'.mem pmd r = deviceBlock r) ∧
      (∀ r : Fin 512, r.val < 504 → b'.mem pmd r = b.mem pmd r) ∧
      ∀ f : Nat, f ≠ pmd → b'.mem f = b.mem f := by
  have h := List.foldl_range'_invariant (a := ramRows) (n := 512 - ramRows) (s := b)
    (f := fun b r => b.store ⟨pmd, Fin.ofNat 512 r⟩ (deviceBlock r))
    (I := fun n b' => b'.freemem = b.freemem ∧
      (∀ r : Fin 512, 504 ≤ r.val → r.val < n → b'.mem pmd r = deviceBlock r) ∧
      (∀ r : Fin 512, r.val < 504 → b'.mem pmd r = b.mem pmd r) ∧
      ∀ f : Nat, f ≠ pmd → b'.mem f = b.mem f)
    ⟨rfl, fun r hr hr' => absurd hr' (not_lt.mpr hr), fun _ _ => rfl, fun _ _ => rfl⟩
    (by
      rintro k c hlo hhi ⟨h1, h2, h3, h4⟩
      have hk : k < 512 := hhi
      have hk' : 504 ≤ k := hlo
      have hne : ∀ r : Fin 512, r.val ≠ k → r ≠ Fin.ofNat 512 k := by
        intro r hr he
        rw [← ofNat_val r] at he
        exact hr ((ofNat_eq_iff r.isLt hk).mp he)
      refine ⟨h1, ?_, ?_, ?_⟩
      · intro r hr hrk
        simp only [mem_store, true_and]
        by_cases hrk' : r.val = k
        · subst hrk'
          rw [if_pos (ofNat_val r).symm]
        · rw [if_neg (hne r hrk')]
          exact h2 r hr (by omega)
      · intro r hr
        simp only [mem_store, true_and]
        rw [if_neg (hne r (by omega))]
        exact h3 r hr
      · intro f hf
        funext i
        simp only [mem_store, hf, false_and, if_false, h4 f hf])
  exact ⟨h.1, fun r hr => h.2.1 r hr r.isLt, h.2.2.1, h.2.2.2⟩

/-- Memory after `boot_mmu_setup`: of the directory it fills two entries, of the second-level table
of the device window one, and every word of the other 504 tables. -/
def mmuMem (L : Symbols) (ram : Mem) : Mem := fun f i =>
  if f = L.pgDir then
    if i = 0 then tableDesc (L.pgDir + 1)
    else if i = 1 then tableDesc (L.pgDir + 506) else ram f i
  else if f = L.pgDir + 1 then
    if i.val < 504 then tableDesc (L.pgDir + 2 + i) else deviceBlock i
  else if L.pgDir + 2 ≤ f ∧ f < L.pgDir + 506 then
    identDesc L (((f - (L.pgDir + 2)) <<< 21) + (i.val <<< 12))
  else if f = L.pgDir + 506 then if i = 0 then deviceBlock 512 else ram f i
  else ram f i

/-- What the two loops leave, where `K` is the directory: the table that its first entry names, and the 504
tables behind it. -/
structure Looped (L : Symbols) (K : Nat) (ram : Mem) (b : Boot) : Prop where
  freemem : b.freemem = by2pg * (K + 506)
  table : ∀ i : Fin 512, b.mem (K + 1) i = if i.val < 504 then tableDesc (K + 2 + i) else deviceBlock i
  ident : ∀ r < 504, ∀ t : Fin 512,
    b.mem (K + 2 + r) t = identDesc L ((r <<< 21) + (t.val <<< 12))
  rest : ∀ f : Nat, f < K + 1 ∨ K + 506 ≤ f → ∀ i : Fin 512,
    b.mem f i = if f = K ∧ i = 0 then tableDesc (K + 1) else ram f i

theorem looped (L : Symbols) (K : Nat) (ram : Mem) {b : Boot} (hfree : b.freemem = by2pg * (K + 2))
    (hmem : ∀ (f : Nat) (i : Fin 512),
      b.mem f i = if f = K ∧ i = 0 then tableDesc (K + 1) else ram f i) :
    Looped L K ram ((List.range' ramRows (512 - ramRows)).foldl
      (fun b r => b.store ⟨K + 1, Fin.ofNat 512 r⟩ (deviceBlock r))
      ((List.range ramRows).foldl (mmuRow L (K + 1)) b)) := by
  have h0 : Rows L (K + 1) b.mem 0 b :=
    ⟨hfree.trans (congrArg (by2pg * ·) (by omega)), fun _ h => absurd h (Nat.not_lt_zero _),
      fun _ h => absurd h (Nat.not_lt_zero _), fun _ _ => rfl⟩
  have h2 : Rows L (K + 1) b.mem 504 ((List.range ramRows).foldl (mmuRow L (K + 1)) b) :=
    List.foldl_range_invariant (n := ramRows) (I := fun n b' => Rows L (K + 1) b.mem n b') h0
      (fun n b' hn hb => hb.row hn)
  obtain ⟨h3f, h3b, h3t, h3m⟩ := blocks_spec (K + 1) ((List.range ramRows).foldl (mmuRow L (K + 1)) b)
  refine ⟨h3f.trans (h2.freemem.trans (congrArg (by2pg * ·) (by omega))), fun i => ?_, fun r hr t => ?_,
    fun f hf i => ?_⟩
  · split
    · rename_i hi
      rw [h3t i hi, ← ofNat_val i, h2.table i hi, ofNat_val]
    · rename_i hi
      exact h3b i (not_lt.mp hi)
  · have hrow : K + 1 + 1 + r = K + 2 + r := by omega
    rw [h3m _ (by omega), ← hrow]
    exact h2.ident r hr t
  · rw [h3m f (by omega), h2.rest f (by omega)]
    exact hmem f i

/-- **`boot_mmu_setup`, whatever memory holds.** -/
theorem mmuSetup_eq {L : Symbols} (hK : L.pgDir < 0x3f000) (ram : Mem) :
    mmuSetup L ram = ⟨mmuMem L ram, by2pg * (L.pgDir + 507)⟩ := by
  set K := L.pgDir with hKdef
  have hpa : page2pa K = by2pg * K := by simp [page2pa, Nat.shiftLeft_eq, by2pg, Nat.mul_comm]
  have hpud : pudx (page2pa K) = 0 := by
    ext
    rw [pudx_val, hpa]
    simp only [by2pg, Fin.val_zero]
    omega
  have hpud1 : pudx 0x40000000 = 1 := by decide
  let b0 : Boot := ⟨ram, by2pg * (K + 1)⟩
  let b1 : Boot := { b0.store ⟨K, 0⟩ (tableDesc (K + 1)) with freemem := by2pg * (K + 2) }
  let b3 := (List.range' ramRows (512 - ramRows)).foldl
    (fun b r => b.store ⟨K + 1, Fin.ofNat 512 r⟩ (deviceBlock r))
    ((List.range ramRows).foldl (mmuRow L (K + 1)) b1)
  have h3 : Looped L K ram b3 := looped L K ram (b := b1) rfl fun _ _ => rfl
  have hbump : ∀ n, by2pg * n + by2pg = by2pg * (n + 1) := fun n => (Nat.mul_succ _ _).symm
  have hsetup : mmuSetup L ram =
      ({ b3.store ⟨K, 1⟩ (tableDesc (K + 506)) with freemem := by2pg * (K + 507) } : Boot).store
        ⟨K + 506, 0⟩ (deviceBlock 512) := by
    have e0 : (⟨ram, round (page2pa K) by2pg⟩ : Boot).bump = (K, b0) := by
      simp only [bump, hpa, round_mul, ppn_mul, hbump, b0]
    have e1 : (b0.store ⟨K, 0⟩ (b0.freemem ||| pteAttrs)).bump = (K + 1, b1) := by
      simp only [bump, freemem_store, b0, ppn_mul, or_pteAttrs, hbump, b1]
    have e3 : (b3.store ⟨K, 1⟩ (b3.freemem ||| pteAttrs)).bump = (K + 506,
        { b3.store ⟨K, 1⟩ (tableDesc (K + 506)) with freemem := by2pg * (K + 507) }) := by
      unfold bump
      rw [freemem_store, h3.freemem, ppn_mul, or_pteAttrs, hbump]
    unfold mmuSetup
    simp only [← hKdef, hpud, hpud1, e0, e1]
    change Boot.store (Boot.bump (Boot.store b3 _ _)).2 _ _ = _
    rw [e3]
    rfl
  have hmem : ∀ (f : Nat) (i : Fin 512), (mmuSetup L ram).mem f i =
      if f = K + 506 ∧ i = 0 then deviceBlock 512
      else if f = K ∧ i = 1 then tableDesc (K + 506) else b3.mem f i := by
    intro f i
    rw [hsetup]
    rfl
  have hfree : (mmuSetup L ram).freemem = by2pg * (K + 507) := by rw [hsetup, freemem_store]
  have hext : (mmuSetup L ram).mem = mmuMem L ram := by
    funext f i
    rw [hmem]
    simp only [mmuMem, ← hKdef]
    rcases eq_or_ne f K with he | hfK
    · rw [he, if_neg (by omega), if_pos rfl, h3.rest _ (by omega)]
      rcases eq_or_ne i 0 with hi | hi
      · rw [hi, if_neg (by simp), if_pos ⟨rfl, rfl⟩, if_pos rfl]
      · rw [if_neg (fun h => hi h.2 : ¬ (K = K ∧ i = 0)), if_neg hi]
        simp only [true_and]
    rw [if_neg (fun h => hfK h.1 : ¬ (f = K ∧ i = 1)), if_neg hfK]
    rcases eq_or_ne f (K + 1) with he | hf1
    · rw [he, if_neg (by omega), if_pos rfl]
      exact h3.table i
    rw [if_neg hf1]
    by_cases hf2 : K + 2 ≤ f ∧ f < K + 506
    · obtain ⟨r, hr⟩ := Nat.exists_eq_add_of_le hf2.1
      rw [if_neg (by omega), if_pos hf2, hr, Nat.add_sub_cancel_left]
      exact h3.ident r (by omega) i
    · rw [if_neg hf2, h3.rest f (by omega), if_neg (fun h => hfK h.1 : ¬ (f = K ∧ i = 0))]
      rcases eq_or_ne f (K + 506) with he | hf5
      · simp only [he, true_and, if_true]
      · rw [if_neg (fun h => hf5 h.1), if_neg hf5]
  rw [← hext, ← hfree]

/-- **`boot_mmu_setup` builds the map**, on clean memory. -/
theorem mmuSetup_spec {L : Layout} {ram : Mem} (hclean : CleanRam L ram) :
    (mmuSetup L ram).freemem = by2pg * (L.pgDir + 507) ∧
      KernelMap L (mmuSetup L ram).mem (L.pgDir + 507) := by
  rw [mmuSetup_eq L.fits]
  refine ⟨rfl, ?_⟩
  have hne : ∀ i : Fin 512, 2 ≤ i.val → i ≠ 0 ∧ i ≠ 1 := by
    intro i hi
    exact ⟨by rintro rfl; exact absurd hi (by decide), by rintro rfl; exact absurd hi (by decide)⟩
  exact
    { le_base := le_refl _
      dir_ram := by simp [mmuMem]
      dir_window := by simp [mmuMem]
      dir_user := by
        intro i hi
        simp only [mmuMem, if_true, (hne i hi).1, (hne i hi).2, if_false]
        exact hclean.dir i hi
      ram_table := by
        intro r hr
        simp [mmuMem, hr]
      ram_block := by
        intro r hr
        simp [mmuMem, not_lt.mpr hr]
      ident := by
        intro r t hr
        have h1 : ¬ L.pgDir + 2 + r = L.pgDir := by omega
        have h2 : ¬ L.pgDir + 2 + r = L.pgDir + 1 := by omega
        have h3 : L.pgDir + 2 ≤ L.pgDir + 2 + r ∧ L.pgDir + 2 + r < L.pgDir + 506 := by omega
        simp only [mmuMem, h1, h2, h3, if_false, and_self, if_true, Nat.add_sub_cancel_left]
      window_block := by simp [mmuMem]
      window := by
        intro j hj
        refine Or.inl ?_
        have h := hclean.window j hj
        simpa [mmuMem, hj] using h }

/-! ## 3. `alloc` and `boot_map_segment` -/

/-- The allocator between two calls: `freemem` is the frame `F`, below the end of memory, and the
tables of the kernel lie below it. -/
structure Mapped (L : Layout) (b : Boot) (F : Nat) : Prop where
  freemem : b.freemem = by2pg * F
  map : KernelMap L b.mem F
  lt : F < npage

/-- **`alloc` of whole pages**, as one equation. -/
theorem alloc_eq {b : Boot} {F : Nat} (hb : b.freemem = by2pg * F) (k : Nat) :
    b.alloc (by2pg * k) by2pg =
      if npage ≤ F + k then .error .outOfMemoryPanic
      else .ok (by2pg * F,
        { mem := fun f i => if F ≤ f ∧ f < F + k then 0 else b.mem f i
          freemem := by2pg * (F + k) }) := by
  have hlim : (maxpa ≤ by2pg * F + by2pg * k) ↔ npage ≤ F + k := by
    simp only [maxpa, npage, by2pg]
    omega
  have hin : ∀ (f : Nat) (i : Fin 512), (by2pg * F ≤ by2pg * f + 8 * i.val ∧
      by2pg * f + 8 * i.val < by2pg * F + by2pg * k) ↔ F ≤ f ∧ f < F + k := by
    intro f i
    have hi := i.isLt
    simp only [by2pg]
    omega
  simp only [alloc, bzero, hb, round_mul, hlim, hin, Nat.mul_add]

/-- An allocation keeps the map, and fails only at the end of memory. -/
theorem alloc_spec {L : Layout} {b : Boot} {F : Nat} (hb : b.freemem = by2pg * F)
    (hm : KernelMap L b.mem F) (k : Nat) :
    (npage ≤ F + k ∧ b.alloc (by2pg * k) by2pg = .error .outOfMemoryPanic) ∨
    ∃ b', b.alloc (by2pg * k) by2pg = .ok (by2pg * F, b') ∧ Mapped L b' (F + k) ∧
      (∀ f i, b'.mem f i = if F ≤ f ∧ f < F + k then 0 else b.mem f i) := by
  rw [alloc_eq hb]
  by_cases h : npage ≤ F + k
  · exact Or.inl ⟨h, if_pos h⟩
  · refine Or.inr ⟨_, if_neg h, ⟨rfl, ?_, not_le.mp h⟩, fun _ _ => rfl⟩
    refine hm.mono (Nat.le_add_right _ _) ?_
    intro f _ hf
    funext i
    have hF := hm.le_base
    exact if_neg (by omega)

/-- How a part of `aarch64_vm_init` ends that starts at frame `F` and needs `n` frames at most. -/
def Ends (L : Layout) (F n : Nat) (r : Except Halt Boot) : Prop :=
  (npage ≤ F + n ∧ r = .error .outOfMemoryPanic) ∨
    ∃ b F', r = .ok b ∧ Mapped L b F' ∧ F ≤ F' ∧ F' ≤ F + n

/-- Parts compose, and their needs add up. -/
theorem Ends.bind {L : Layout} {F n k : Nat} {r : Except Halt Boot} {f : Boot → Except Halt Boot}
    (h : Ends L F n r) (hf : ∀ b F', Mapped L b F' → Ends L F' k (f b)) :
    Ends L F (n + k) (r >>= f) := by
  rcases h with ⟨hn, rfl⟩ | ⟨b, F', rfl, hb, hlo, hhi⟩
  · exact Or.inl ⟨by omega, rfl⟩
  · rcases hf b F' hb with ⟨hn, he⟩ | ⟨c, G, he, hc, hlo', hhi'⟩
    · exact Or.inl ⟨by omega, he⟩
    · exact Or.inr ⟨c, G, he, hc, by omega, by omega⟩

/-- A store into a table above the ones `boot_mmu_setup` built. -/
theorem Mapped.store {L : Layout} {b : Boot} {F : Nat} (h : Mapped L b F) {a : Ptr} (w : Nat)
    (ha : L.pgDir + 507 ≤ a.frame) : Mapped L (b.store a w) F where
  freemem := h.freemem
  map := by
    refine h.map.mono (le_refl _) ?_
    intro f _ hf
    funext i
    rw [mem_store, if_neg (by omega)]
  lt := h.lt

/-- A new table entered in the window. -/
theorem Mapped.link {L : Layout} {b : Boot} {F u : Nat} {j : Fin 512} (h : Mapped L b F)
    (hj : j ≠ 0) (hlo : L.pgDir + 507 ≤ u) (hhi : u < F) :
    Mapped L (b.store ⟨L.pgDir + 506, j⟩ (tableDesc u)) F where
  freemem := h.freemem
  map :=
    { le_base := h.map.le_base
      dir_ram := by rw [mem_store, if_neg (by simp), h.map.dir_ram]
      dir_window := by rw [mem_store, if_neg (by simp), h.map.dir_window]
      dir_user := by
        intro i hi
        rw [mem_store, if_neg (by simp)]
        exact h.map.dir_user i hi
      ram_table := by
        intro r hr
        rw [mem_store, if_neg (by simp), h.map.ram_table r hr]
      ram_block := by
        intro r hr
        rw [mem_store, if_neg (by simp), h.map.ram_block r hr]
      ident := by
        intro r t hr
        rw [mem_store, if_neg (by rintro ⟨h1, _⟩; dsimp only at h1; omega), h.map.ident r t hr]
      window_block := by
        rw [mem_store, if_neg (by simp [Ne.symm hj]), h.map.window_block]
      window := by
        intro k hk
        rw [mem_store]
        by_cases hkj : k = j
        · rw [if_pos ⟨rfl, hkj⟩]
          exact Or.inr ⟨u, rfl, hlo, hhi, hhi.trans h.lt⟩
        · rw [if_neg (by simp [hkj])]
          exact h.map.window k hk }
  lt := h.lt

/-- **One page of the device window** takes at most one new table. -/
theorem mapPage_ends {L : Layout} {b : Boot} {F : Nat} (h : Mapped L b F) {va i : Nat}
    (pa perm : Nat) (hlo : 0x40200000 ≤ va + i) (hhi : va + i < 0x80000000) :
    Ends L F 1 (mapPage L.pgDir va pa perm b i) := by
  have hpud : pudx (va + i) = 1 := by
    ext
    rw [pudx_val]
    simp only [Fin.val_one]
    omega
  have hpmd : pmdx (va + i) ≠ 0 := by
    intro h0
    have h1 := congrArg Fin.val h0
    rw [pmdx_val] at h1
    simp only [Fin.val_zero] at h1
    omega
  have hF := h.map.le_base
  have hd : b.descend ⟨L.pgDir, 1⟩ = .ok (L.pgDir + 506, b) := by
    simp only [descend, load, h.map.dir_window, valid_tableDesc, if_true, ppn_tableDesc]
  rcases h.map.window (pmdx (va + i)) hpmd with hv | ⟨u, hu, hlo', _, _⟩
  · rcases alloc_spec h.freemem h.map 1 with ⟨hn, he⟩ | ⟨c, he, hc, _⟩
    · rw [Nat.mul_one] at he
      have hd' : b.descend ⟨L.pgDir + 506, pmdx (va + i)⟩ = .error .outOfMemoryPanic := by
        simp only [descend, load, hv, if_false, he, bind, Except.bind]
      refine Or.inl ⟨hn, ?_⟩
      simp only [mapPage, pgdirWalk, hpud, hd, hd', bind, Except.bind]
    · rw [Nat.mul_one] at he
      have hd' : b.descend ⟨L.pgDir + 506, pmdx (va + i)⟩
          = .ok (F, c.store ⟨L.pgDir + 506, pmdx (va + i)⟩ (tableDesc F)) := by
        simp only [descend, load, hv, if_false, he, bind, Except.bind, pure, Except.pure, ppn_mul,
          or_pteAttrs]
      have hleaf := (hc.link hpmd hF (Nat.lt_succ_self F)).store (a := ⟨F, ptex (va + i)⟩)
        ((pa + i) ||| perm ||| pteAttrs) hF
      refine Or.inr ⟨_, F + 1, ?_, hleaf, Nat.le_succ _, le_refl _⟩
      simp only [mapPage, pgdirWalk, hpud, hd, hd', bind, Except.bind, pure, Except.pure]
  · have hd' : b.descend ⟨L.pgDir + 506, pmdx (va + i)⟩ = .ok (u, b) := by
      simp only [descend, load, hu, valid_tableDesc, if_true, ppn_tableDesc]
    have hleaf := h.store (a := ⟨u, ptex (va + i)⟩) ((pa + i) ||| perm ||| pteAttrs) hlo'
    refine Or.inr ⟨_, F, ?_, hleaf, le_refl _, Nat.le_succ _⟩
    simp only [mapPage, pgdirWalk, hpud, hd, hd', bind, Except.bind, pure, Except.pure]

/-- The loop of `boot_map_segment`. -/
theorem mapPages_ends {L : Layout} {va : Nat} (pa perm : Nat) {l : List Nat} {b : Boot} {F : Nat}
    (h : Mapped L b F) (hl : ∀ i ∈ l, 0x40200000 ≤ va + i ∧ va + i < 0x80000000) :
    Ends L F l.length (l.foldlM (mapPage L.pgDir va pa perm) b) := by
  induction l generalizing b F with
  | nil => exact Or.inr ⟨b, F, rfl, h, le_refl _, le_refl _⟩
  | cons i l ih =>
    rw [List.foldlM_cons, List.length_cons, Nat.add_comm]
    have hi := hl i (by simp)
    exact (mapPage_ends h pa perm hi.1 hi.2).bind
      (fun c G hc => ih hc (fun j hj => hl j (by simp [hj])))

/-- A segment of `n` pages inside the window takes at most `n` new tables. -/
theorem mapSegment_ends {L : Layout} {b : Boot} {F : Nat} (h : Mapped L b F) {va : Nat}
    (n pa perm : Nat) (hlo : 0x40200000 ≤ va) (hhi : va + by2pg * n ≤ 0x80000000) :
    Ends L F n (b.mapSegment L.pgDir va (by2pg * n) pa perm) := by
  have hdiv : by2pg * n / by2pg = n := Nat.mul_div_cancel_left n (by decide)
  rw [mapSegment, if_neg (by simp), hdiv]
  have hlen : ((List.range n).map (· * by2pg)).length = n := by simp
  have hl : ∀ i ∈ (List.range n).map (· * by2pg), 0x40200000 ≤ va + i ∧ va + i < 0x80000000 := by
    intro i hi
    obtain ⟨k, hk, rfl⟩ := List.mem_map.mp hi
    have hk := List.mem_range.mp hk
    simp only [by2pg] at hhi ⊢
    omega
  have h := mapPages_ends pa perm h hl
  rwa [hlen] at h

/-- `alloc` of `k` pages, mapped as a segment of `n`, and what follows. -/
theorem allocSegment_ends {L : Layout} {b : Boot} {F : Nat} (hb : b.freemem = by2pg * F)
    (hm : KernelMap L b.mem F) (k n c : Nat) {va : Nat} (perm : Nat) {rest : Boot → Except Halt Boot}
    (hlo : 0x40200000 ≤ va) (hhi : va + by2pg * n ≤ 0x80000000)
    (hrest : ∀ b' G, Mapped L b' G → Ends L G c (rest b')) :
    Ends L F (k + (n + c)) (do
      let (a, b) ← b.alloc (by2pg * k) by2pg
      let b ← b.mapSegment L.pgDir va (by2pg * n) a perm
      rest b) := by
  rcases alloc_spec hb hm k with ⟨hn, he⟩ | ⟨b', he, hb', _⟩
  · rw [he]
    exact Or.inl ⟨by omega, rfl⟩
  · rw [he]
    rcases (mapSegment_ends hb' n (by2pg * F) perm hlo hhi).bind hrest with
      ⟨hn, h⟩ | ⟨d, G, h, hd, h1, h2⟩
    · exact Or.inl ⟨by omega, h⟩
    · exact Or.inr ⟨d, G, h, hd, by omega, by omega⟩

/-- **`aarch64_vm_init` ends in a mapped state or out of memory**, and `3284` frames are enough for
it. -/
theorem vmInit_ends {L : Layout} {b : Boot} {F : Nat} (hb : b.freemem = by2pg * F)
    (hm : KernelMap L b.mem F) : Ends L F 3284 (vmInit L b) := by
  have h1 : npage * sizeofPage = by2pg * 1536 := by decide
  have h2 : nenv * sizeofEnv = by2pg * 104 := by decide
  have h3 : ∀ n, round (by2pg * n) by2pg = by2pg * n := round_mul
  unfold vmInit
  rw [h1, h2, h3, h3]
  refine allocSegment_ends hb hm 1536 1536 212 _ (by decide) (by decide) ?_
  intro b G hG
  refine allocSegment_ends hG.freemem hG.map 104 104 4 _ (by decide) (by decide) ?_
  intro b G hG
  refine allocSegment_ends hG.freemem hG.map 1 1 2 _ (by decide) (by decide) ?_
  intro b G hG
  have hpure : ∀ b' G', Mapped L b' G' → Ends L G' 0 (pure b') :=
    fun b' G' h' => Or.inr ⟨b', G', rfl, h', le_refl _, le_refl _⟩
  have hva : 0x40200000 ≤ kernelSp - by2pg ∧ kernelSp - by2pg + by2pg * 1 ≤ 0x80000000 := by decide
  have h := allocSegment_ends hG.freemem hG.map 1 1 0 pteV hva.1 hva.2 hpure
  simpa only [bind_pure, Nat.mul_one] using h

/-- `freemem` has not gone down past frame `F`, and memory has not run out. -/
def Bumped (F : Nat) (b : Boot) : Prop := ∃ F', F ≤ F' ∧ F' < npage ∧ b.freemem = by2pg * F'

section Bumped

variable {F a : Nat} {b b' : Boot}

theorem alloc_bumped (h : Bumped F b) {k : Nat} (he : b.alloc (by2pg * k) by2pg = .ok (a, b')) :
    Bumped F b' := by
  obtain ⟨F', hle, _, hb⟩ := h
  rw [alloc_eq hb] at he
  split at he
  · cases he
  · rename_i hk
    cases he
    exact ⟨F' + k, by omega, not_le.mp hk, rfl⟩

theorem descend_bumped (h : Bumped F b) {e : Ptr} (he : b.descend e = .ok (a, b')) :
    Bumped F b' := by
  unfold descend at he
  split at he
  · cases he
    exact h
  · obtain ⟨⟨x, b₁⟩, hx, h1⟩ := Except.bind_eq_ok_iff.mp he
    cases h1
    have h₁ : Bumped F b₁ := alloc_bumped h (k := 1) hx
    exact h₁

theorem mapPage_bumped (h : Bumped F b) {pud va pa perm i : Nat}
    (he : mapPage pud va pa perm b i = .ok b') : Bumped F b' := by
  obtain ⟨⟨e, b₃⟩, hw, h3⟩ := Except.bind_eq_ok_iff.mp he
  obtain ⟨⟨t, b₁⟩, h1, hw⟩ := Except.bind_eq_ok_iff.mp hw
  obtain ⟨⟨u, b₂⟩, h2, hw⟩ := Except.bind_eq_ok_iff.mp hw
  cases hw
  cases h3
  have h₃ : Bumped F b₃ := descend_bumped (descend_bumped h h1) h2
  exact h₃

theorem mapSegment_bumped (h : Bumped F b) {pud va size pa perm : Nat}
    (he : b.mapSegment pud va size pa perm = .ok b') : Bumped F b' := by
  unfold mapSegment at he
  split at he
  · cases he
    exact h
  · exact Except.foldlM_invariant he h fun _ _ _ _ hi hs => mapPage_bumped hi hs

/-- **`aarch64_vm_init` only moves `freemem` up**, whatever memory holds. -/
theorem vmInit_bumped {L : Layout} (h : Bumped F b) (he : vmInit L b = .ok b') : Bumped F b' := by
  have hp : npage * sizeofPage = by2pg * (npage * sizeofPage / by2pg) := by decide
  have hv : nenv * sizeofEnv = by2pg * (nenv * sizeofEnv / by2pg) := by decide
  obtain ⟨⟨x₁, b₁⟩, ha₁, he⟩ := Except.bind_eq_ok_iff.mp he
  obtain ⟨b₂, hm₁, he⟩ := Except.bind_eq_ok_iff.mp he
  obtain ⟨⟨x₂, b₃⟩, ha₂, he⟩ := Except.bind_eq_ok_iff.mp he
  obtain ⟨b₄, hm₂, he⟩ := Except.bind_eq_ok_iff.mp he
  obtain ⟨⟨x₃, b₅⟩, ha₃, he⟩ := Except.bind_eq_ok_iff.mp he
  obtain ⟨b₆, hm₃, he⟩ := Except.bind_eq_ok_iff.mp he
  obtain ⟨⟨x₄, b₇⟩, ha₄, hm₄⟩ := Except.bind_eq_ok_iff.mp he
  rw [hp] at ha₁
  rw [hv] at ha₂
  have hb₂ := mapSegment_bumped (alloc_bumped h ha₁) hm₁
  have hb₄ := mapSegment_bumped (alloc_bumped hb₂ ha₂) hm₂
  have hb₆ := mapSegment_bumped (alloc_bumped hb₄ (k := 1) ha₃) hm₃
  exact mapSegment_bumped (alloc_bumped hb₆ (k := 1) ha₄) hm₄

end Bumped

/-! ## 4. `page_init` and `env_init` -/

/-- **The frames after `page_init`**: those below `freemem` count one reference, the others are
free, the highest first. -/
theorem pageInit_spec {b : Boot} {F : Nat} (hb : b.freemem = by2pg * F) (hF : F < npage) :
    b.pageInit.mem = b.mem ∧
      (∀ f, b.pageInit.ppRef f = if f < F then 1 else 0) ∧
      IsList b.pageInit.pageFreeList () (List.range' F (npage - F)).reverse := by
  have hlen : round b.freemem by2pg / by2pg = F := by
    rw [hb, round_mul]
    exact Nat.mul_div_cancel_left F (by decide)
  simp only [pageInit, hlen]
  have hused : ∀ f, (List.range F).foldl
      (fun (ppRef : Nat → Nat) loop => fun f => if f = loop then 1 else ppRef f) (fun _ => 0) f
      = if f < F then 1 else 0 := by
    refine List.foldl_range_invariant
      (I := fun n (r : Nat → Nat) => ∀ f, r f = if f < n then 1 else 0) (fun f => by simp) ?_
    intro k r _ hr f
    rw [hr]
    by_cases hfk : f = k
    · simp [hfk]
    · have : f < k + 1 ↔ f < k := by omega
      simp only [hfk, if_false, this]
  have h := List.foldl_range'_invariant (a := F) (n := npage - F)
    (s := ({ mem := b.mem
             ppRef := (List.range F).foldl
               (fun (ppRef : Nat → Nat) loop => fun f => if f = loop then 1 else ppRef f)
               (fun _ => 0)
             pageFreeList := Links.zeroed.init () } : Phys))
    (f := fun p loop =>
      { p with
        ppRef := fun f => if f = loop then 0 else p.ppRef f
        pageFreeList := p.pageFreeList.insertHead () loop })
    (I := fun n p => p.mem = b.mem ∧ (∀ f, p.ppRef f = if f < F then 1 else 0) ∧
      IsList p.pageFreeList () (List.range' F (n - F)).reverse)
    ⟨rfl, hused, by simpa using IsList.init Links.zeroed ()⟩
    (by
      rintro k p hlo hhi ⟨h1, h2, h3⟩
      refine ⟨h1, ?_, ?_⟩
      · intro f
        dsimp only
        by_cases hfk : f = k
        · rw [if_pos hfk, if_neg (by omega)]
        · rw [if_neg hfk, h2]
      · have hk : k + 1 - F = k - F + 1 := by omega
        have hFk : F + (k - F) = k := by omega
        rw [hk, List.range'_1_concat, List.reverse_append, hFk]
        refine h3.insertHead ?_
        rw [List.mem_reverse, List.mem_range'_1]
        omega)
  have hn : F + (npage - F) - F = npage - F := by omega
  rw [hn] at h
  exact h

end Boot

/-- The environment table before the first environment. -/
structure EnvBoot (L : Layout) (s : Kernel) : Prop where
  pgDir : s.pgDir = L.pgDir
  envs : ∀ e, s.envs e = .zero
  free : IsList s.envFreeList () (List.finRange 1024)
  sched : ∀ i, IsList s.envSched i []
  schedLog : s.schedLog = []
  curSched : s.curSched = 0
  curenv : s.curenv = none
  nextEnvId : s.nextEnvId = 0
  pos : s.pos = -1

/-- The loop of `env_init` puts the slots it visits in front of the list. -/
theorem envInit_loop (l : List Slot) : ∀ (st : (Slot → Env) × Links Unit Slot) {as : List Slot},
    (∀ e, st.1 e = .zero) → IsList st.2 () as → l.Nodup → (∀ e ∈ l, e ∉ as) →
    (∀ e, (l.foldl Kernel.envInitSlot st).1 e = .zero) ∧
      IsList (l.foldl Kernel.envInitSlot st).2 () (l.reverse ++ as) := by
  induction l with
  | nil => intro st as h0 has _ _; exact ⟨h0, has⟩
  | cons i l ih =>
    intro st as h0 has hnd hdis
    have hnd' := List.nodup_cons.mp hnd
    have hzero : ∀ e, (Kernel.envInitSlot st i).1 e = .zero := by
      intro e
      dsimp only [Kernel.envInitSlot]
      split
      · rw [h0]; rfl
      · exact h0 e
    have h := ih _ hzero (has.insertHead (hdis i (by simp))) hnd'.2 (by
      intro e he
      rw [List.mem_cons, not_or]
      exact ⟨fun hei => hnd'.1 (hei ▸ he), hdis e (by simp [he])⟩)
    rw [List.reverse_cons, List.append_assoc]
    exact h

theorem envInit_spec (L : Layout) (phys : Phys) :
    EnvBoot L (Kernel.start L phys).envInit ∧ (Kernel.start L phys).envInit.phys = phys := by
  have hinit : IsList ((Kernel.start L phys).envFreeList.init ()) () [] := IsList.init _ _
  obtain ⟨h1, h2⟩ := envInit_loop (List.finRange 1024).reverse
    ((Kernel.start L phys).envs, (Kernel.start L phys).envFreeList.init ()) (fun _ => rfl) hinit
    (List.nodup_reverse.mpr (List.nodup_finRange 1024)) (fun _ _ => List.not_mem_nil)
  rw [List.reverse_reverse, List.append_nil] at h2
  refine ⟨?_, rfl⟩
  unfold Kernel.envInit
  generalize List.foldl Kernel.envInitSlot _ _ = st at h1 h2 ⊢
  exact
    { pgDir := rfl
      envs := h1
      free := h2
      sched := by
        intro i
        have hz : ∀ j, (((Links.zeroed : Links (Fin 2) Slot).init 0).init 1).first j = none := by
          decide
        exact ⟨hz i, List.nodup_nil⟩
      schedLog := rfl
      curSched := rfl
      curenv := rfl
      nextEnvId := rfl
      pos := rfl }

/-! ## 5. Boot -/

/-- The state `main` has reached when it calls `env_create_priority`. -/
structure Booted (L : Layout) (base : Nat) (s : Kernel) : Prop extends EnvBoot L s where
  map : KernelMap L s.phys.mem base
  base_lt : base < npage
  ppRef : ∀ f, s.phys.ppRef f = if f < base then 1 else 0
  pages : IsList s.phys.pageFreeList () (List.range' base (npage - base)).reverse

/-- Whatever memory holds at power-on, boot leaves an empty environment table. -/
theorem boot_envBoot {L : Layout} {ram : Mem} {s : Kernel} (h : boot L ram = .ok s) :
    EnvBoot L s := by
  obtain ⟨b, _, hs⟩ := Except.bind_eq_ok_iff.mp h
  rw [Except.pure_eq_ok_iff] at hs
  rw [← hs]
  exact (envInit_spec L _).1

/-- What `main` has built once `aarch64_vm_init` has mapped the kernel. -/
theorem boot_of_vmInit {L : Layout} {ram : Mem} {b : Boot} {F : Nat}
    (hb : Boot.vmInit L (Boot.mmuSetup L ram) = .ok b) (hmap : Boot.Mapped L b F) :
    ∃ s, boot L ram = .ok s ∧ Booted L F s := by
  obtain ⟨hp, hr, hl⟩ := Boot.pageInit_spec hmap.freemem hmap.lt
  obtain ⟨he, hphys⟩ := envInit_spec L b.pageInit
  refine ⟨(Kernel.start L b.pageInit).envInit, ?_, ?_⟩
  · unfold boot
    rw [hb]
    rfl
  · exact
      { he with
        map := by rw [hphys, hp]; exact hmap.map
        base_lt := hmap.lt
        ppRef := by rw [hphys]; exact hr
        pages := by rw [hphys]; exact hl }

/-- **Boot succeeds on clean memory**, and leaves the state above. -/
theorem boot_ok {L : Layout} {ram : Mem} (hclean : CleanRam L ram) :
    ∃ s base, boot L ram = .ok s ∧ Booted L base s ∧ base ≤ L.pgDir + 3791 := by
  obtain ⟨hf, hm⟩ := Boot.mmuSetup_spec hclean
  have hK := L.fits
  rcases Boot.vmInit_ends hf hm with ⟨hn, _⟩ | ⟨b, F, hb, hmap, _, hF⟩
  · exact absurd hn (by simp only [npage]; omega)
  · obtain ⟨s, hs, hbooted⟩ := boot_of_vmInit hb hmap
    exact ⟨s, F, hs, hbooted, by omega⟩

end RaspiOS
