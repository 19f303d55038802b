/-
# What else is mapped after boot

`boot_mmu_setup` takes its tables from memory as it was at power-on and clears none of them: of the
directory it writes entries 0 and 1, of the second-level table of the device window entry 0.
`aarch64_vm_init` then follows the entries of that table on its way to the four segments it maps.
Every other word of the two tables is whatever memory held.

`Built` is the invariant of `aarch64_vm_init` on memory whose words at the five window entries it
uses are not valid: which frames it has cleared, which are tables of a segment, and which pages those
map.  From it follows exactly when nothing but the identity map, the window block and the segments
is mapped (`nothingElse_iff`): the stale entries must lead to tables without a valid word.
-/
import RaspiOS.Pool
import RaspiOS.Ident

set_option autoImplicit false

namespace RaspiOS

/-! ## 1. The four segments -/

/-- The addresses `aarch64_vm_init` maps. -/
def InSegment (va : Nat) : Prop :=
  (upages ≤ va ∧ va < upages + round (npage * Boot.sizeofPage) by2pg) ∨
  (uenvs ≤ va ∧ va < uenvs + round (nenv * Boot.sizeofEnv) by2pg) ∨
  (timestack - by2pg ≤ va ∧ va < timestack) ∨ (kernelSp - by2pg ≤ va ∧ va < kernelSp)

/-- The third-level tables of the segments, with the window entries they hang from. -/
def segTables (L : Layout) : List (Nat × Fin 512) :=
  [(L.pgDir + 2043, 128), (L.pgDir + 2044, 129), (L.pgDir + 2045, 130), (L.pgDir + 2150, 136),
    (L.pgDir + 2152, 143)]

/-! ## 2. The invariant of `aarch64_vm_init` -/

namespace Boot

/-- **The allocator has reached frame `F`**, the tables `T` hang from the window, and they map the
pages `S`; every other frame it has handed out is clear. -/
structure Built (L : Layout) (ram : Mem) (F : Nat) (T : List (Nat × Fin 512))
    (S : Fin 512 → Fin 512 → Prop) (b : Boot) : Prop where
  freemem : b.freemem = by2pg * F
  le : L.pgDir + 507 ≤ F
  low : ∀ f, f < L.pgDir + 506 → b.mem f = mmuMem L ram f
  high : ∀ f, F ≤ f → b.mem f = ram f
  linked : ∀ a ∈ T, b.mem (L.pgDir + 506) a.2 = tableDesc a.1 ∧ L.pgDir + 507 ≤ a.1 ∧ a.1 < F
  unlinked : ∀ j, (∀ a ∈ T, a.2 ≠ j) → b.mem (L.pgDir + 506) j = mmuMem L ram (L.pgDir + 506) j
  clear : ∀ f, L.pgDir + 507 ≤ f → f < F → (∀ a ∈ T, a.1 ≠ f) → ∀ k, b.mem f k = 0
  leaf : ∀ a ∈ T, ∀ k, Valid (b.mem a.1 k) → IsTable (b.mem a.1 k) ∧
    L.pgDir + 507 ≤ ppn (b.mem a.1 k) ∧ ppn (b.mem a.1 k) < F ∧ ∀ a' ∈ T, a'.1 ≠ ppn (b.mem a.1 k)
  pages : ∀ a ∈ T, ∀ k, Valid (b.mem a.1 k) ↔ S a.2 k
  used : ∀ j k, S j k → ∃ a ∈ T, a.2 = j
  nodup : (T.map Prod.fst).Nodup ∧ (T.map Prod.snd).Nodup

/-- A frame that may stand in a leaf of a segment. -/
def Plain (L : Layout) (F : Nat) (T : List (Nat × Fin 512)) (f : Nat) : Prop :=
  L.pgDir + 507 ≤ f ∧ f < F ∧ ∀ a ∈ T, a.1 ≠ f

/-- A new table is none of the frames that were there. -/
theorem Plain.snoc {L : Layout} {F f : Nat} {T : List (Nat × Fin 512)} {j : Fin 512}
    (h : Plain L F T f) : Plain L (F + 1) (T ++ [(F, j)]) f := by
  refine ⟨h.1, Nat.lt_succ_of_lt h.2.1, ?_⟩
  intro a ha
  rcases List.mem_append.mp ha with ha | ha
  · exact h.2.2 a ha
  · rw [List.mem_singleton.mp ha]
    exact Nat.ne_of_gt h.2.1

namespace Built

variable {L : Layout} {ram : Mem} {F : Nat} {T : List (Nat × Fin 512)}
  {S S' : Fin 512 → Fin 512 → Prop} {b : Boot}

theorem congr (h : Built L ram F T S b) (hS : ∀ j k, S j k ↔ S' j k) : Built L ram F T S' b :=
  { h with
    pages := fun a ha k => (h.pages a ha k).trans (hS a.2 k)
    used := fun j k hs => h.used j k ((hS j k).mpr hs) }

/-- Tables of different window entries are different frames. -/
theorem inj (h : Built L ram F T S b) {a a' : Nat × Fin 512} (ha : a ∈ T) (ha' : a' ∈ T) :
    a.1 = a'.1 ↔ a = a' :=
  ⟨fun he => List.inj_on_of_nodup_map h.nodup.1 ha ha' he, fun he => he ▸ rfl⟩

theorem inj_row (h : Built L ram F T S b) {a a' : Nat × Fin 512} (ha : a ∈ T) (ha' : a' ∈ T) :
    a.2 = a'.2 ↔ a = a' :=
  ⟨fun he => List.inj_on_of_nodup_map h.nodup.2 ha ha' he, fun he => he ▸ rfl⟩

/-- `boot_mmu_setup` is where it starts. -/
theorem init (L : Layout) (ram : Mem) :
    Built L ram (L.pgDir + 507) [] (fun _ _ => False) (mmuSetup L ram) := by
  rw [mmuSetup_eq L.fits]
  exact
    { freemem := rfl
      le := le_refl _
      low := fun _ _ => rfl
      high := by
        intro f hf
        funext i
        have h1 : ¬ f = L.pgDir := by omega
        have h2 : ¬ f = L.pgDir + 1 := by omega
        have h3 : ¬ (L.pgDir + 2 ≤ f ∧ f < L.pgDir + 506) := by omega
        have h4 : ¬ f = L.pgDir + 506 := by omega
        simp only [mmuMem, h1, h2, h3, h4, if_false]
      linked := fun a ha => absurd ha List.not_mem_nil
      unlinked := fun _ _ => rfl
      clear := fun f h1 h2 => absurd h2 (not_lt.mpr h1)
      leaf := fun a ha => absurd ha List.not_mem_nil
      pages := fun a ha => absurd ha List.not_mem_nil
      used := fun _ _ hs => hs.elim
      nodup := ⟨List.nodup_nil, List.nodup_nil⟩ }

/-- **`alloc` of `k` pages.** -/
theorem alloc (h : Built L ram F T S b) {k : Nat} (hk : F + k < npage) :
    ∃ b', b.alloc (by2pg * k) by2pg = .ok (by2pg * F, b') ∧ Built L ram (F + k) T S b' := by
  rw [alloc_eq h.freemem, if_neg (not_le.mpr hk)]
  have hle := h.le
  have hsame : ∀ f, f < F ∨ F + k ≤ f → (fun i => if F ≤ f ∧ f < F + k then 0 else b.mem f i)
      = b.mem f := by
    intro f hf
    funext i
    exact if_neg (by omega)
  have htab : ∀ a ∈ T, (fun i => if F ≤ a.1 ∧ a.1 < F + k then 0 else b.mem a.1 i) = b.mem a.1 :=
    fun a ha => hsame _ (Or.inl (h.linked a ha).2.2)
  refine ⟨_, rfl, ?_⟩
  exact
    { freemem := rfl
      le := by omega
      low := fun f hf => (hsame f (Or.inl (by omega))).trans (h.low f hf)
      high := fun f hf => (hsame f (Or.inr hf)).trans (h.high f (by omega))
      linked := by
        intro a ha
        obtain ⟨h1, h2, h3⟩ := h.linked a ha
        exact ⟨(congrFun (hsame (L.pgDir + 506) (Or.inl (by omega))) a.2).trans h1, h2, by omega⟩
      unlinked := fun j hj =>
        (congrFun (hsame (L.pgDir + 506) (Or.inl (by omega))) j).trans (h.unlinked j hj)
      clear := by
        intro f hlo hhi hf i
        rcases Nat.lt_or_ge f F with hF | hF
        · exact (congrFun (hsame f (Or.inl hF)) i).trans (h.clear f hlo hF hf i)
        · exact if_pos ⟨hF, hhi⟩
      leaf := by
        intro a ha i hv
        have he := congrFun (htab a ha) i
        dsimp only at hv ⊢
        rw [he] at hv ⊢
        obtain ⟨h1, h2, h3, h4⟩ := h.leaf a ha i hv
        exact ⟨h1, h2, by omega, h4⟩
      pages := by
        intro a ha i
        have he := congrFun (htab a ha) i
        dsimp only
        rw [he]
        exact h.pages a ha i
      used := h.used
      nodup := h.nodup }

/-- **A leaf is stored** in a table of a segment. -/
theorem store (h : Built L ram F T S b) {a : Nat × Fin 512} (ha : a ∈ T) {k : Fin 512} {w : Nat}
    (hw : IsTable w) (hp : Plain L F T (ppn w)) :
    Built L ram F T (fun j i => S j i ∨ (j = a.2 ∧ i = k)) (b.store ⟨a.1, k⟩ w) := by
  obtain ⟨_, hlo, hhi⟩ := h.linked a ha
  have hne : ∀ f, f ≠ a.1 → (b.store ⟨a.1, k⟩ w).mem f = b.mem f := by
    intro f hf
    funext i
    rw [mem_store, if_neg (fun hc => hf hc.1)]
  exact
    { freemem := h.freemem
      le := h.le
      low := fun f hf => by rw [hne f (by omega), h.low f hf]
      high := fun f hf => by rw [hne f (by omega), h.high f hf]
      linked := by
        intro a' ha'
        rw [hne _ (by omega)]
        exact h.linked a' ha'
      unlinked := by
        intro j hj
        rw [hne _ (by omega)]
        exact h.unlinked j hj
      clear := by
        intro f h1 h2 h3 i
        rw [hne f (fun hc => h3 a ha hc.symm), h.clear f h1 h2 h3 i]
      leaf := by
        intro a' ha' i
        rw [mem_store]
        split
        · exact fun _ => ⟨hw, hp⟩
        · exact h.leaf a' ha' i
      pages := by
        intro a' ha' i
        rw [mem_store]
        by_cases hc : a'.1 = a.1 ∧ i = k
        · rw [if_pos hc, (h.inj ha' ha).mp hc.1]
          exact ⟨fun _ => Or.inr ⟨rfl, hc.2⟩, fun _ => hw.valid⟩
        · rw [if_neg hc, h.pages a' ha' i]
          refine ⟨Or.inl, fun hs => hs.resolve_right ?_⟩
          rintro ⟨h1, h2⟩
          exact hc ⟨congrArg Prod.fst ((h.inj_row ha' ha).mp h1), h2⟩
      used := by
        rintro j i (hs | ⟨rfl, _⟩)
        · exact h.used j i hs
        · exact ⟨a, ha, rfl⟩
      nodup := h.nodup }

/-- **A new table** is cleared and hung from the window. -/
theorem link (h : Built L ram F T S b) {j : Fin 512} (hj : ∀ a ∈ T, a.2 ≠ j)
    {b' : Boot} (hf : b'.freemem = by2pg * (F + 1))
    (hm : ∀ f i, b'.mem f i = if f = L.pgDir + 506 ∧ i = j then tableDesc F
      else if f = F then 0 else b.mem f i) :
    Built L ram (F + 1) (T ++ [(F, j)]) S b' := by
  have hle := h.le
  have hlt : ∀ a ∈ T, a.1 < F := fun a ha => (h.linked a ha).2.2
  have hsame : ∀ f, f ≠ L.pgDir + 506 → f ≠ F → b'.mem f = b.mem f := by
    intro f h1 h2
    funext i
    rw [hm, if_neg (fun hc => h1 hc.1), if_neg h2]
  have hzero : ∀ i, b'.mem F i = 0 := by
    intro i
    rw [hm, if_neg (by omega), if_pos rfl]
  have hwin : ∀ i, i ≠ j → b'.mem (L.pgDir + 506) i = b.mem (L.pgDir + 506) i := by
    intro i hi
    rw [hm, if_neg (fun hc => hi hc.2), if_neg (by omega)]
  have hmem : ∀ {a}, a ∈ T ++ [(F, j)] → a ∈ T ∨ a = (F, j) := by
    intro a ha
    rcases List.mem_append.mp ha with ha | ha
    · exact Or.inl ha
    · exact Or.inr (List.mem_singleton.mp ha)
  exact
    { freemem := hf
      le := by omega
      low := fun f hf => by rw [hsame f (by omega) (by omega), h.low f hf]
      high := fun f hf => by rw [hsame f (by omega) (by omega), h.high f (by omega)]
      linked := by
        intro a ha
        rcases hmem ha with ha | rfl
        · obtain ⟨h1, h2, h3⟩ := h.linked a ha
          exact ⟨by rw [hwin _ (hj a ha), h1], h2, by omega⟩
        · exact ⟨by rw [hm, if_pos ⟨rfl, rfl⟩], hle, Nat.lt_succ_self F⟩
      unlinked := by
        intro i hi
        rw [hwin i (fun hc => hi (F, j) (by simp) hc.symm)]
        exact h.unlinked i (fun a ha => hi a (List.mem_append_left _ ha))
      clear := by
        intro f h1 h2 h3 i
        have hfF : f ≠ F := fun hc => h3 (F, j) (by simp) hc.symm
        rw [hsame f (by omega) hfF]
        exact h.clear f h1 (by omega) (fun a ha => h3 a (List.mem_append_left _ ha)) i
      leaf := by
        intro a ha i hv
        rcases hmem ha with ha | rfl
        · have hlo := (h.linked a ha).2.1
          rw [hsame a.1 (by omega) (by have := hlt a ha; omega)] at hv ⊢
          obtain ⟨h1, h2, h3, h4⟩ := h.leaf a ha i hv
          refine ⟨h1, h2, by omega, ?_⟩
          intro a' ha'
          rcases hmem ha' with ha' | rfl
          · exact h4 a' ha'
          · exact fun hc => absurd hc (by dsimp only; omega)
        · rw [hzero] at hv
          exact absurd hv not_valid_zero
      pages := by
        intro a ha i
        rcases hmem ha with ha | rfl
        · have hlo := (h.linked a ha).2.1
          rw [hsame a.1 (by omega) (by have := hlt a ha; omega)]
          exact h.pages a ha i
        · rw [hzero]
          refine ⟨fun hv => absurd hv not_valid_zero, fun hs => ?_⟩
          obtain ⟨a, ha, he⟩ := h.used j i hs
          exact absurd he (hj a ha)
      used := by
        intro i k hs
        obtain ⟨a, ha, he⟩ := h.used i k hs
        exact ⟨a, List.mem_append_left _ ha, he⟩
      nodup := by
        rw [List.map_append, List.map_append]
        refine ⟨List.Nodup.append h.nodup.1 (List.nodup_singleton _) ?_,
          List.Nodup.append h.nodup.2 (List.nodup_singleton _) ?_⟩
        · refine List.disjoint_singleton.mpr ?_
          rintro hc
          obtain ⟨a, ha, he⟩ := List.mem_map.mp hc
          exact absurd he (Nat.ne_of_lt (hlt a ha))
        · refine List.disjoint_singleton.mpr ?_
          rintro hc
          obtain ⟨a, ha, he⟩ := List.mem_map.mp hc
          exact hj a ha he }

/-- The window table, as the walk finds it from `_pg_dir`. -/
theorem window (h : Built L ram F T S b) : b.mem L.pgDir 1 = tableDesc (L.pgDir + 506) := by
  rw [h.low _ (by omega)]
  simp [mmuMem]

/-! ## 3. One page -/

/-- The page of an offset, in the window. -/
structure At (va : Nat) (j k : Fin 512) : Prop where
  pud : pudx va = 1
  pmd : pmdx va = j
  pte : ptex va = k

/-- The word `boot_map_segment` stores for page `n` of a segment that begins at frame `P`. -/
theorem leaf_word (P n : Nat) :
    IsTable (by2pg * P + n * by2pg ||| pteV ||| pteAttrs) ∧
      ppn (by2pg * P + n * by2pg ||| pteV ||| pteAttrs) = P + n := by
  have he : by2pg * P + n * by2pg = page2pa (P + n) := by
    rw [page2pa_eq, Nat.mul_comm by2pg P, Nat.add_mul]
  rw [he, Nat.or_assoc]
  refine ⟨and_three_of_or ?_, ppn_or_low _ ?_⟩ <;> decide

/-- A page whose table exists. -/
theorem mapOld (h : Built L ram F T S b) {a : Nat × Fin 512} (ha : a ∈ T) {va P n : Nat}
    {k : Fin 512} (hva : At (va + n * by2pg) a.2 k) (hp : Plain L F T (P + n)) :
    ∃ b', mapPage L.pgDir va (by2pg * P) pteV b (n * by2pg) = .ok b' ∧
      Built L ram F T (fun j i => S j i ∨ (j = a.2 ∧ i = k)) b' := by
  obtain ⟨hw, hppn⟩ := leaf_word P n
  have h1 : b.descend ⟨L.pgDir, 1⟩ = .ok (L.pgDir + 506, b) := by
    simp only [descend, load, h.window, valid_tableDesc, if_true, ppn_tableDesc]
  have h2 : b.descend ⟨L.pgDir + 506, a.2⟩ = .ok (a.1, b) := by
    simp only [descend, load, (h.linked a ha).1, valid_tableDesc, if_true, ppn_tableDesc]
  refine ⟨_, ?_, h.store ha (k := k) hw (by rw [hppn]; exact hp)⟩
  simp only [mapPage, pgdirWalk, hva.pud, hva.pmd, hva.pte, h1, h2, bind, Except.bind, pure,
    Except.pure]

/-- A page whose table has to be made first. -/
theorem mapNew (h : Built L ram F T S b) {j : Fin 512} (hj : ∀ a ∈ T, a.2 ≠ j)
    (hempty : ¬ Valid (mmuMem L ram (L.pgDir + 506) j)) (hF : F + 1 < npage) {va P n : Nat}
    {k : Fin 512} (hva : At (va + n * by2pg) j k) (hp : Plain L F T (P + n)) :
    ∃ b', mapPage L.pgDir va (by2pg * P) pteV b (n * by2pg) = .ok b' ∧
      Built L ram (F + 1) (T ++ [(F, j)]) (fun j' i => S j' i ∨ (j' = j ∧ i = k)) b' := by
  obtain ⟨hw, hppn⟩ := leaf_word P n
  have h1 : b.descend ⟨L.pgDir, 1⟩ = .ok (L.pgDir + 506, b) := by
    simp only [descend, load, h.window, valid_tableDesc, if_true, ppn_tableDesc]
  have halloc := alloc_eq h.freemem 1
  rw [if_neg (not_le.mpr hF), Nat.mul_one] at halloc
  have hv : ¬ Valid (b.load ⟨L.pgDir + 506, j⟩) := by
    rw [load, h.unlinked j hj]
    exact hempty
  let b₁ : Boot := Boot.store
    { mem := fun f i => if F ≤ f ∧ f < F + 1 then 0 else b.mem f i
      freemem := by2pg * (F + 1) } ⟨L.pgDir + 506, j⟩ (tableDesc F)
  have h2 : b.descend ⟨L.pgDir + 506, j⟩ = .ok (F, b₁) := by
    simp only [descend, hv, if_false, halloc, bind, Except.bind, pure, Except.pure, ppn_mul,
      or_pteAttrs, b₁]
  have hlink : Built L ram (F + 1) (T ++ [(F, j)]) S b₁ := by
    refine h.link hj rfl ?_
    intro f i
    rw [mem_store]
    by_cases hc : f = L.pgDir + 506 ∧ i = j
    · rw [if_pos hc, if_pos hc]
    · rw [if_neg hc, if_neg hc]
      exact if_congr (by omega) rfl rfl
  refine ⟨_, ?_, hlink.store (a := (F, j)) (by simp) (k := k) hw (by rw [hppn]; exact hp.snoc)⟩
  simp only [mapPage, pgdirWalk, hva.pud, hva.pmd, hva.pte, h1, h2, bind, Except.bind, pure,
    Except.pure]

/-! ## 4. One table -/

/-- `c` pages from page `n` on, all below window entry `j`, the first at index `k₀`. -/
def Row (va n c : Nat) (j : Fin 512) (k₀ : Nat) : Prop :=
  ∀ i < c, k₀ + i < 512 ∧ At (va + (n + i) * by2pg) j (Fin.ofNat 512 (k₀ + i))

/-- The pages of a row. -/
def RowPages (S : Fin 512 → Fin 512 → Prop) (c : Nat) (j : Fin 512) (k₀ : Nat)
    (j' k : Fin 512) : Prop := S j' k ∨ (j' = j ∧ k₀ ≤ k.val ∧ k.val < k₀ + c)

theorem Row.tail {va n c k₀ : Nat} {j : Fin 512} (h : Row va n (c + 1) j k₀) :
    Row va (n + 1) c j (k₀ + 1) := by
  intro i hi
  rw [Nat.add_assoc n 1 i, Nat.add_assoc k₀ 1 i, Nat.add_comm 1 i]
  exact h (i + 1) (Nat.succ_lt_succ hi)

/-- The first page of a row, and the others. -/
theorem rowPages_succ {c k₀ : Nat} {j : Fin 512} (hk : k₀ + 0 < 512) (j' k : Fin 512) :
    RowPages (fun j' k => S j' k ∨ (j' = j ∧ k = Fin.ofNat 512 (k₀ + 0))) c j (k₀ + 1) j' k ↔
      RowPages S (c + 1) j k₀ j' k := by
  have hkk : k = Fin.ofNat 512 (k₀ + 0) ↔ k.val = k₀ := by
    rw [Fin.ext_iff]
    simp only [Fin.ofNat, Nat.add_zero] at hk ⊢
    omega
  simp only [RowPages, hkk]
  constructor
  · rintro ((hs | ⟨hj, hk'⟩) | ⟨hj, h1, h2⟩)
    · exact Or.inl hs
    · exact Or.inr ⟨hj, by omega, by omega⟩
    · exact Or.inr ⟨hj, by omega, by omega⟩
  · rintro (hs | ⟨hj, h1, h2⟩)
    · exact Or.inl (Or.inl hs)
    · rcases eq_or_ne k.val k₀ with hk' | hk'
      · exact Or.inl (Or.inr ⟨hj, hk'⟩)
      · exact Or.inr ⟨hj, by omega, by omega⟩

/-- The loop over a row whose table exists. -/
theorem rowOld {va P : Nat} {a : Nat × Fin 512} : ∀ {c n k₀ : Nat} {S} {b : Boot},
    Built L ram F T S b → a ∈ T → Row va n c a.2 k₀ →
    (∀ i < c, Plain L F T (P + (n + i))) →
    ∃ b', (List.range' n c).foldlM
        (fun b n => mapPage L.pgDir va (by2pg * P) pteV b (n * by2pg)) b = .ok b' ∧
      Built L ram F T (RowPages S c a.2 k₀) b' := by
  intro c
  induction c with
  | zero =>
    intro n k₀ S b h _ _ _
    refine ⟨b, rfl, h.congr fun j k => ?_⟩
    unfold RowPages
    exact ⟨Or.inl, fun hs => hs.resolve_right (by omega)⟩
  | succ c ih =>
    intro n k₀ S b h ha hrow hp
    obtain ⟨hk, hat⟩ := hrow 0 (Nat.succ_pos c)
    obtain ⟨b₁, he₁, h₁⟩ := h.mapOld ha hat (hp 0 (Nat.succ_pos c))
    obtain ⟨b₂, he₂, h₂⟩ := ih h₁ ha hrow.tail (fun i hi => by
      rw [Nat.add_assoc n 1 i, Nat.add_comm 1 i]
      exact hp (i + 1) (Nat.succ_lt_succ hi))
    refine ⟨b₂, ?_, h₂.congr (rowPages_succ hk)⟩
    rw [List.range'_succ, List.foldlM_cons, Except.bind_eq_ok_iff]
    exact ⟨b₁, he₁, he₂⟩

/-- The loop over a row whose table has to be made. -/
theorem rowNew (h : Built L ram F T S b) (va P c n k₀ : Nat) {j : Fin 512}
    (hj : ∀ a ∈ T, a.2 ≠ j) (hempty : ¬ Valid (mmuMem L ram (L.pgDir + 506) j))
    (hF : F + 1 < npage) (hrow : Row va n (c + 1) j k₀)
    (hp : ∀ i < c + 1, Plain L F T (P + (n + i))) :
    ∃ b', (List.range' n (c + 1)).foldlM
        (fun b n => mapPage L.pgDir va (by2pg * P) pteV b (n * by2pg)) b = .ok b' ∧
      Built L ram (F + 1) (T ++ [(F, j)]) (RowPages S (c + 1) j k₀) b' := by
  obtain ⟨hk, hat⟩ := hrow 0 (Nat.succ_pos c)
  obtain ⟨b₁, he₁, h₁⟩ := h.mapNew hj hempty hF hat (hp 0 (Nat.succ_pos c))
  obtain ⟨b₂, he₂, h₂⟩ := h₁.rowOld (a := (F, j)) (by simp) hrow.tail (fun i hi => by
    rw [Nat.add_assoc n 1 i, Nat.add_comm 1 i]
    exact (hp (i + 1) (Nat.succ_lt_succ hi)).snoc)
  refine ⟨b₂, ?_, h₂.congr (rowPages_succ hk)⟩
  rw [List.range'_succ, List.foldlM_cons, Except.bind_eq_ok_iff]
  exact ⟨b₁, he₁, he₂⟩

end Built

/-! ## 5. `aarch64_vm_init` -/

/-- Rows are runs of pages of the window. -/
theorem row_of {va n c k₀ : Nat} {j : Fin 512}
    (hva : va + n * by2pg = 0x40000000 + (512 * j.val + k₀) * by2pg) (hk : k₀ + c ≤ 512) :
    Built.Row va n c j k₀ := by
  intro i hi
  have hj := j.isLt
  simp only [by2pg] at hva ⊢
  refine ⟨by omega, ⟨?_, ?_, ?_⟩⟩
  · ext
    rw [pudx_val]
    simp only [Fin.val_one]
    omega
  · ext
    rw [pmdx_val]
    omega
  · ext
    rw [ptex_val]
    simp only [Fin.ofNat]
    omega

/-- A segment of `n` pages is a loop over their numbers. -/
theorem mapSegment_eq (b : Boot) (pud va n pa perm : Nat) :
    b.mapSegment pud va (by2pg * n) pa perm
      = (List.range' 0 n).foldlM (fun b n => mapPage pud va pa perm b (n * by2pg)) b := by
  have hdiv : by2pg * n / by2pg = n := Nat.mul_div_cancel_left n (by decide)
  rw [mapSegment, if_neg (by simp), hdiv, List.foldlM_map, List.range_eq_range']

/-- The window entry is not valid when boot begins to map the segments. -/
def Clean (L : Layout) (ram : Mem) (j : Fin 512) : Prop :=
  ¬ Valid (mmuMem L ram (L.pgDir + 506) j)

section Segments

variable {L : Layout} {ram : Mem} {S : Fin 512 → Fin 512 → Prop} {b : Boot}

/-- The pages of `struct Page`: three tables. -/
theorem Built.pagesSegment (h : Built L ram (L.pgDir + 507) [] S b) (h1 : Clean L ram 128)
    (h2 : Clean L ram 129) (h3 : Clean L ram 130) :
    ∃ a b₁ b', b.alloc (by2pg * 1536) by2pg = .ok (a, b₁) ∧
      b₁.mapSegment L.pgDir upages (by2pg * 1536) a pteV = .ok b' ∧
      Built L ram (L.pgDir + 2046)
        [(L.pgDir + 2043, 128), (L.pgDir + 2044, 129), (L.pgDir + 2045, 130)]
        (RowPages (RowPages (RowPages S 512 128 0) 512 129 0) 512 130 0) b' := by
  have hK := L.fits
  have hN : npage = 0x40000 := rfl
  obtain ⟨b₁, e₁, g₁⟩ := h.alloc (k := 1536) (by omega)
  simp only [Nat.add_assoc, Nat.reduceAdd] at g₁
  obtain ⟨b₂, e₂, g₂⟩ := g₁.rowNew upages (L.pgDir + 507) 511 0 0
    (by simp) h1 (by omega) (row_of (by decide) (by decide)) (fun i hi => ⟨by omega, by omega, by simp⟩)
  simp only [Nat.add_assoc, Nat.reduceAdd, List.nil_append] at e₂ g₂
  obtain ⟨b₃, e₃, g₃⟩ := g₂.rowNew upages (L.pgDir + 507) 511 512 0 (by simp) h2 (by omega)
    (row_of (by decide) (by decide)) (fun i hi => ⟨by omega, by omega, by simp; omega⟩)
  simp only [Nat.add_assoc, Nat.reduceAdd, List.cons_append, List.nil_append] at e₃ g₃
  obtain ⟨b₄, e₄, g₄⟩ := g₃.rowNew upages (L.pgDir + 507) 511 1024 0 (by simp) h3 (by omega)
    (row_of (by decide) (by decide)) (fun i hi => ⟨by omega, by omega, by simp; omega⟩)
  simp only [Nat.add_assoc, Nat.reduceAdd, List.cons_append, List.nil_append] at e₄ g₄
  refine ⟨_, b₁, b₄, e₁, ?_, g₄⟩
  have hsplit : List.range' 0 1536 = List.range' 0 512 ++ (List.range' 512 512 ++
      List.range' 1024 512) := by
    rw [List.range'_append_1, List.range'_append_1]
  rw [mapSegment_eq, hsplit, List.foldlM_append]
  simp only [List.foldlM_append, bind, Except.bind, e₂, e₃, e₄]

/-- The pages of `struct Env`: one table. -/
theorem Built.envsSegment {T : List (Nat × Fin 512)} (h : Built L ram (L.pgDir + 2046) T S b)
    (hT : ∀ a ∈ T, a.2 ≠ 136) (h1 : Clean L ram 136) :
    ∃ a b₁ b', b.alloc (by2pg * 104) by2pg = .ok (a, b₁) ∧
      b₁.mapSegment L.pgDir uenvs (by2pg * 104) a pteV = .ok b' ∧
      Built L ram (L.pgDir + 2151) (T ++ [(L.pgDir + 2150, 136)]) (RowPages S 104 136 0) b' := by
  have hK := L.fits
  have hN : npage = 0x40000 := rfl
  obtain ⟨b₁, e₁, g₁⟩ := h.alloc (k := 104) (by omega)
  simp only [Nat.add_assoc, Nat.reduceAdd] at g₁
  obtain ⟨b₂, e₂, g₂⟩ := g₁.rowNew uenvs (L.pgDir + 2046) 103 0 0
    hT h1 (by omega) (row_of (by decide) (by decide)) (fun i hi => ⟨by omega, by omega,
      fun a ha => by have hlt := (h.linked a ha).2.2; omega⟩)
  simp only [Nat.add_assoc, Nat.reduceAdd] at e₂ g₂
  exact ⟨_, b₁, b₂, e₁, by rw [mapSegment_eq, e₂], g₂⟩

/-- The two stacks: one page each, in one table. -/
theorem Built.stackSegments {T : List (Nat × Fin 512)} (h : Built L ram (L.pgDir + 2151) T S b)
    (hT : ∀ a ∈ T, a.2 ≠ 143) (h1 : Clean L ram 143) :
    ∃ a b₁ b₂ a' b₃ b', b.alloc by2pg by2pg = .ok (a, b₁) ∧
      b₁.mapSegment L.pgDir (timestack - by2pg) by2pg a pteV = .ok b₂ ∧
      b₂.alloc by2pg by2pg = .ok (a', b₃) ∧
      b₃.mapSegment L.pgDir (kernelSp - by2pg) by2pg a' pteV = .ok b' ∧
      Built L ram (L.pgDir + 2154) (T ++ [(L.pgDir + 2152, 143)])
        (RowPages (RowPages S 1 143 511) 1 143 510) b' := by
  have hK := L.fits
  have hN : npage = 0x40000 := rfl
  obtain ⟨b₁, e₁, g₁⟩ := h.alloc (k := 1) (by omega)
  simp only [Nat.add_assoc, Nat.reduceAdd, Nat.mul_one] at e₁ g₁
  obtain ⟨b₂, e₂, g₂⟩ := g₁.rowNew (timestack - by2pg) (L.pgDir + 2151) 0 0 511 hT h1 (by omega)
    (row_of (by decide) (by decide)) (fun i hi => ⟨by omega, by omega,
      fun a ha => by have hlt := (h.linked a ha).2.2; omega⟩)
  simp only [Nat.add_assoc, Nat.reduceAdd] at e₂ g₂
  obtain ⟨b₃, e₃, g₃⟩ := g₂.alloc (k := 1) (by omega)
  simp only [Nat.add_assoc, Nat.reduceAdd, Nat.mul_one] at e₃ g₃
  have hrow : Row (kernelSp - by2pg) 0 1 143 510 := row_of (by decide) (by decide)
  obtain ⟨b₄, e₄, g₄⟩ := g₃.rowOld (P := L.pgDir + 2153) (a := (L.pgDir + 2152, 143)) (by simp)
    hrow (fun i hi => ⟨by omega, by omega, fun a ha => by
      have hlt := (g₂.linked a ha).2.2
      omega⟩)
  have hseg : ∀ (b : Boot) (va pa : Nat), b.mapSegment L.pgDir va by2pg pa pteV
      = (List.range' 0 1).foldlM (fun b n => mapPage L.pgDir va pa pteV b (n * by2pg)) b := by
    intro b va pa
    have he := mapSegment_eq b L.pgDir va 1 pa pteV
    rwa [Nat.mul_one] at he
  exact ⟨_, b₁, b₂, _, b₃, b₄, e₁, by rw [hseg, e₂], e₃, by rw [hseg, e₄], g₄⟩

end Segments

/-- The window entries that `aarch64_vm_init` walks through hold no valid word at power-on. -/
def SegmentsClean (L : Layout) (ram : Mem) : Prop :=
  ∀ a ∈ segTables L, ¬ Valid (ram (L.pgDir + 506) a.2)

/-- The pages of the segments, by their window entry and index. -/
def SegPage (j k : Fin 512) : Prop :=
  (128 ≤ j.val ∧ j.val ≤ 130) ∨ (j.val = 136 ∧ k.val < 104) ∨ (j.val = 143 ∧ 510 ≤ k.val)

theorem SegmentsClean.clean {L : Layout} {ram : Mem} (h : SegmentsClean L ram) {u : Nat}
    {j : Fin 512} (hj : (u, j) ∈ segTables L) (h0 : j ≠ 0) : Clean L ram j := by
  have hv := h _ hj
  simpa [Clean, mmuMem, h0] using hv

/-- **`aarch64_vm_init`, exactly**, where the entries it walks through are clean. -/
theorem vmInit_built {L : Layout} {ram : Mem} (hclean : SegmentsClean L ram) :
    ∃ b, vmInit L (mmuSetup L ram) = .ok b ∧
      Built L ram (L.pgDir + 2154) (segTables L) SegPage b := by
  have hc : ∀ {u j}, (u, j) ∈ segTables L → j ≠ 0 → Clean L ram j := hclean.clean
  have hsize : npage * sizeofPage = by2pg * 1536 ∧ nenv * sizeofEnv = by2pg * 104 := by decide
  have hround : ∀ n, round (by2pg * n) by2pg = by2pg * n := round_mul
  obtain ⟨a₁, b₁, c₁, e₁, k₁, g₁⟩ := (Built.init L ram).pagesSegment
    (hc (u := L.pgDir + 2043) (by simp [segTables]) (by decide))
    (hc (u := L.pgDir + 2044) (by simp [segTables]) (by decide))
    (hc (u := L.pgDir + 2045) (by simp [segTables]) (by decide))
  obtain ⟨a₂, b₂, c₂, e₂, k₂, g₂⟩ := g₁.envsSegment (by simp)
    (hc (u := L.pgDir + 2150) (by simp [segTables]) (by decide))
  obtain ⟨a₃, b₃, c₃, a₄, b₄, b, e₃, k₃, e₄, k₄, g⟩ := g₂.stackSegments (by simp)
    (hc (u := L.pgDir + 2152) (by simp [segTables]) (by decide))
  refine ⟨b, ?_, ?_⟩
  · rw [vmInit, hsize.1, hsize.2, hround, hround]
    refine Except.bind_eq_ok_iff.mpr ⟨(a₁, b₁), e₁, Except.bind_eq_ok_iff.mpr ⟨c₁, k₁, ?_⟩⟩
    refine Except.bind_eq_ok_iff.mpr ⟨(a₂, b₂), e₂, Except.bind_eq_ok_iff.mpr ⟨c₂, k₂, ?_⟩⟩
    refine Except.bind_eq_ok_iff.mpr ⟨(a₃, b₃), e₃, Except.bind_eq_ok_iff.mpr ⟨c₃, k₃, ?_⟩⟩
    exact Except.bind_eq_ok_iff.mpr ⟨(a₄, b₄), e₄, k₄⟩
  · refine g.congr fun j k => ?_
    have hk := k.isLt
    have hval : ∀ n : Fin 512, j = n ↔ j.val = n.val := fun n => Fin.ext_iff
    have hn : (128 : Fin 512).val = 128 ∧ (129 : Fin 512).val = 129 ∧ (130 : Fin 512).val = 130 ∧
        (136 : Fin 512).val = 136 ∧ (143 : Fin 512).val = 143 := by decide
    simp only [Built.RowPages, SegPage, hval, hn, Nat.zero_le, true_and, Nat.zero_add, false_or]
    omega

end Boot

/-! ## 6. The walk from `_pg_dir` -/

/-- The second-level table `t` maps nothing at index `j` and page `k` below it. -/
def StopsPmd (m : Mem) (t : Nat) (j k : Fin 512) : Prop :=
  ¬ Valid (m t j) ∨ (IsTable (m t j) ∧ ¬ Valid (m (hwFrame (m t j)) k))

/-- **The walk of an address meets an invalid descriptor.**  A block descriptor ends the walk, and a
table is named by bits 47 to 12. -/
def Stops (m : Mem) (d va : Nat) : Prop :=
  ¬ Valid (m d (pudx va)) ∨
    (IsTable (m d (pudx va)) ∧ StopsPmd m (hwFrame (m d (pudx va))) (pmdx va) (ptex va))

/-- Such an address faults. -/
theorem Stops.translate {m : Mem} {d va : Nat} (h : Stops m d va) : translate m d va = none := by
  have hinv : ∀ w, ¬ Valid w → ¬ IsTable w ∧ ¬ IsBlock w :=
    fun w hw => ⟨fun ht => hw ht.valid, fun hb => hw hb.valid⟩
  rcases h with h1 | ⟨h1, h2 | ⟨h2, h3⟩⟩
  · simp only [RaspiOS.translate, (hinv _ h1).1, (hinv _ h1).2, if_false, ite_self]
  · simp only [RaspiOS.translate, h1, (hinv _ h2).1, (hinv _ h2).2, translatePmd, if_true, if_false,
      ite_self]
  · simp only [RaspiOS.translate, h1, h2, (hinv _ h3).1, translatePmd, translateLeaf, if_true,
      if_false, ite_self]

/-- **Nothing else is mapped**: outside the identity map, the block that follows it and the four
segments, the walk from `_pg_dir` meets an invalid descriptor. -/
def NothingElse (L : Layout) (m : Mem) : Prop :=
  ∀ va, va < 2 ^ 39 → 0x40200000 ≤ va → ¬ InSegment va → Stops m L.pgDir va

/-! ## 7. Memory at power-on -/

/-- The frames `aarch64_vm_init` clears and stores nothing in. -/
def Cleared (L : Layout) (f : Nat) : Prop :=
  L.pgDir + 507 ≤ f ∧ f < L.pgDir + 2154 ∧ ∀ a ∈ segTables L, a.1 ≠ f

/-- Frame `f` holds a valid word after boot: it is one of the tables, or memory that boot has not
touched and that held one. -/
def Marked (L : Layout) (ram : Mem) (f : Nat) : Prop :=
  if L.pgDir ≤ f ∧ f < L.pgDir + 2154 then ¬ Cleared L f else ∃ k, Valid (ram f k)

/-- Taken for a second-level table, frame `t` leads to something after boot. -/
def Live (L : Layout) (ram : Mem) (t : Nat) : Prop :=
  if L.pgDir + 2 ≤ t ∧ t < L.pgDir + 506 then
    ∃ j : Fin 512, Marked L ram (512 * (t - (L.pgDir + 2)) + j)
  else if L.pgDir ≤ t ∧ t < L.pgDir + 507 then True
  else if L.pgDir ≤ t ∧ t < L.pgDir + 2154 then False
  else ∃ j, Valid (ram t j) ∧ (¬ IsTable (ram t j) ∨ Marked L ram (hwFrame (ram t j)))

/-- **No stale descriptor leads anywhere.**  Boot leaves the entries of the directory from 2 on as
they were, and those of the window table but the ones it uses. -/
structure NoStray (L : Layout) (ram : Mem) : Prop where
  segments : Boot.SegmentsClean L ram
  window : ∀ j, j ≠ 0 → (∀ a ∈ segTables L, a.2 ≠ j) → Valid (ram (L.pgDir + 506) j) →
    IsTable (ram (L.pgDir + 506) j) ∧ ¬ Marked L ram (hwFrame (ram (L.pgDir + 506) j))
  dir : ∀ i : Fin 512, 2 ≤ i.val → Valid (ram L.pgDir i) →
    IsTable (ram L.pgDir i) ∧ ¬ Live L ram (hwFrame (ram L.pgDir i))

namespace Boot.Built

variable {L : Layout} {ram : Mem} {b : Boot}

/-- Frames that boot does not touch. -/
theorem outside {F : Nat} {T : List (Nat × Fin 512)} {S : Fin 512 → Fin 512 → Prop}
    (h : Built L ram F T S b) {f : Nat} (hf : f < L.pgDir ∨ F ≤ f) : b.mem f = ram f := by
  rcases hf with hf | hf
  · rw [h.low f (by omega)]
    funext i
    have h1 : ¬ f = L.pgDir := by omega
    have h2 : ¬ f = L.pgDir + 1 := by omega
    have h3 : ¬ (L.pgDir + 2 ≤ f ∧ f < L.pgDir + 506) := by omega
    have h4 : ¬ f = L.pgDir + 506 := by omega
    simp only [mmuMem, h1, h2, h3, h4, if_false]
  · exact h.high f hf

variable (h : Built L ram (L.pgDir + 2154) (segTables L) SegPage b)

include h

/-- The tables of the identity map. -/
theorem ident {t : Nat} (ht : L.pgDir + 2 ≤ t ∧ t < L.pgDir + 506) (j : Fin 512) :
    IsTable (b.mem t j) ∧ hwFrame (b.mem t j) = 512 * (t - (L.pgDir + 2)) + j := by
  have hK := L.fits
  have h1 : ¬ t = L.pgDir := by omega
  have h2 : ¬ t = L.pgDir + 1 := by omega
  have haddr : ((t - (L.pgDir + 2)) <<< 21) + (j.val <<< 12)
      = page2pa (512 * (t - (L.pgDir + 2)) + j) := by
    simp only [page2pa, Nat.shiftLeft_eq]
    omega
  rw [h.low t (by omega)]
  simp only [mmuMem, h1, h2, ht, if_false, and_self, if_true, haddr]
  refine ⟨isTable_identDesc L _, hwFrame_identDesc L ?_⟩
  simp only [ramFrames]
  omega

/-- The other tables of `boot_mmu_setup`. -/
theorem dir_ram : b.mem L.pgDir 0 = tableDesc (L.pgDir + 1) := by
  rw [h.low _ (by omega)]
  simp [mmuMem]

theorem pmd_ram : b.mem (L.pgDir + 1) 0 = tableDesc (L.pgDir + 2) := by
  rw [h.low _ (by omega)]
  simp [mmuMem]

theorem window_block : b.mem (L.pgDir + 506) 0 = deviceBlock 512 := by
  rw [h.unlinked 0 (by simp [segTables])]
  simp [mmuMem]

theorem dir_user {i : Fin 512} (hi : 2 ≤ i.val) : b.mem L.pgDir i = ram L.pgDir i := by
  have h0 : i ≠ 0 := by rintro rfl; exact absurd hi (by decide)
  have h1 : i ≠ 1 := by rintro rfl; exact absurd hi (by decide)
  rw [h.low _ (by omega)]
  simp only [mmuMem, if_true, h0, h1, if_false]

theorem window_rest {j : Fin 512} (hj : j ≠ 0) (ht : ∀ a ∈ segTables L, a.2 ≠ j) :
    b.mem (L.pgDir + 506) j = ram (L.pgDir + 506) j := by
  rw [h.unlinked j ht]
  simp [mmuMem, hj]

/-- **Which frames hold a valid word after boot.** -/
theorem marked_iff (f : Nat) : (∃ k, Valid (b.mem f k)) ↔ Marked L ram f := by
  unfold Marked
  by_cases hf : L.pgDir ≤ f ∧ f < L.pgDir + 2154
  · rw [if_pos hf]
    by_cases hlow : f < L.pgDir + 507
    · -- a table of `boot_mmu_setup`
      refine iff_of_true ?_ (fun hc => absurd hc.1 (by omega))
      by_cases hid : L.pgDir + 2 ≤ f ∧ f < L.pgDir + 506
      · exact ⟨0, (h.ident hid 0).1.valid⟩
      rcases (by omega : f = L.pgDir ∨ f = L.pgDir + 1 ∨ f = L.pgDir + 506) with rfl | rfl | rfl
      · exact ⟨0, by rw [h.dir_ram]; exact valid_tableDesc _⟩
      · exact ⟨0, by rw [h.pmd_ram]; exact valid_tableDesc _⟩
      · exact ⟨0, by rw [h.window_block]; decide⟩
    · by_cases ht : ∀ a ∈ segTables L, a.1 ≠ f
      · -- cleared
        refine iff_of_false ?_ (fun hc => hc ⟨by omega, hf.2, ht⟩)
        rintro ⟨k, hv⟩
        rw [h.clear f (by omega) hf.2 ht] at hv
        exact not_valid_zero hv
      · -- a table of a segment: each maps at least one page
        refine iff_of_true ?_ (fun hc => ht hc.2.2)
        simp only [not_forall, not_not] at ht
        obtain ⟨a, ha, rfl⟩ := ht
        have hp := h.pages a ha
        simp only [segTables, List.mem_cons, List.not_mem_nil, or_false] at ha
        rcases ha with rfl | rfl | rfl | rfl | rfl
        · exact ⟨0, (hp 0).mpr (by simp [SegPage])⟩
        · exact ⟨0, (hp 0).mpr (by simp [SegPage])⟩
        · exact ⟨0, (hp 0).mpr (by simp [SegPage])⟩
        · exact ⟨0, (hp 0).mpr (by simp [SegPage])⟩
        · exact ⟨511, (hp 511).mpr (by simp [SegPage])⟩
  · rw [if_neg hf, h.outside (by omega)]

/-- **Which frames lead somewhere as second-level tables.** -/
theorem live_iff (t : Nat) : (∃ j k, ¬ StopsPmd b.mem t j k) ↔ Live L ram t := by
  have hK := L.fits
  have hpmd : (∃ j k, ¬ StopsPmd b.mem t j k) ↔
      ∃ j, Valid (b.mem t j) ∧ (¬ IsTable (b.mem t j) ∨ Marked L ram (hwFrame (b.mem t j))) := by
    refine exists_congr fun j => ?_
    rw [← h.marked_iff]
    simp only [StopsPmd, not_or, not_not, not_and]
    constructor
    · rintro ⟨k, hv, hk⟩
      by_cases ht : IsTable (b.mem t j)
      · exact ⟨hv, Or.inr ⟨k, hk ht⟩⟩
      · exact ⟨hv, Or.inl ht⟩
    · rintro ⟨hv, ht | ⟨k, hk⟩⟩
      · exact ⟨0, hv, fun hc => absurd hc ht⟩
      · exact ⟨k, hv, fun _ => hk⟩
  rw [hpmd]
  unfold Live
  by_cases hid : L.pgDir + 2 ≤ t ∧ t < L.pgDir + 506
  · rw [if_pos hid]
    refine exists_congr fun j => ?_
    obtain ⟨h1, h2⟩ := h.ident hid j
    simp only [h1, h1.valid, h2, true_and, not_true_eq_false, false_or]
  rw [if_neg hid]
  by_cases hlow : L.pgDir ≤ t ∧ t < L.pgDir + 507
  · rw [if_pos hlow]
    have hmark : ∀ f, L.pgDir ≤ f → f < L.pgDir + 507 → Marked L ram f := by
      intro f h1 h2
      unfold Marked
      rw [if_pos ⟨h1, by omega⟩]
      exact fun hc => absurd hc.1 (by omega)
    refine iff_of_true ?_ trivial
    rcases (by omega : t = L.pgDir ∨ t = L.pgDir + 1 ∨ t = L.pgDir + 506) with rfl | rfl | rfl
    · refine ⟨0, ?_⟩
      rw [h.dir_ram, hwFrame_tableDesc (by omega)]
      exact ⟨valid_tableDesc _, Or.inr (hmark _ (by omega) (by omega))⟩
    · refine ⟨0, ?_⟩
      rw [h.pmd_ram, hwFrame_tableDesc (by omega)]
      exact ⟨valid_tableDesc _, Or.inr (hmark _ (by omega) (by omega))⟩
    · refine ⟨0, ?_⟩
      rw [h.window_block]
      exact ⟨by decide, Or.inl (not_isTable_deviceBlock _)⟩
  rw [if_neg hlow]
  by_cases hboot : L.pgDir ≤ t ∧ t < L.pgDir + 2154
  · rw [if_pos hboot]
    refine iff_of_false ?_ id
    rintro ⟨j, hv, hbad⟩
    by_cases ht : ∀ a ∈ segTables L, a.1 ≠ t
    · rw [h.clear t (by omega) hboot.2 ht] at hv
      exact not_valid_zero hv
    · simp only [not_forall, not_not] at ht
      obtain ⟨a, ha, rfl⟩ := ht
      -- a leaf of a segment is a page descriptor of a cleared frame
      obtain ⟨h1, h2, h3, h4⟩ := h.leaf a ha j hv
      rcases hbad with hbad | hbad
      · exact hbad h1
      · rw [hwFrame_of_lt (by omega)] at hbad
        unfold Marked at hbad
        rw [if_pos ⟨by omega, h3⟩] at hbad
        exact hbad ⟨h2, h3, h4⟩
  · rw [if_neg hboot, h.outside (by omega)]

/-- The window, below an entry that no segment uses. -/
theorem window_unmapped {j : Fin 512} (hj : j ≠ 0) (ht : ∀ a ∈ segTables L, a.2 ≠ j) :
    (∀ k, StopsPmd b.mem (L.pgDir + 506) j k) ↔ (Valid (ram (L.pgDir + 506) j) →
      IsTable (ram (L.pgDir + 506) j) ∧ ¬ Marked L ram (hwFrame (ram (L.pgDir + 506) j))) := by
  rw [← h.marked_iff]
  simp only [StopsPmd, h.window_rest hj ht, not_exists]
  constructor
  · intro hk hv
    exact ⟨((hk 0).resolve_left (not_not_intro hv)).1,
      fun k => ((hk k).resolve_left (not_not_intro hv)).2⟩
  · intro hk k
    by_cases hv : Valid (ram (L.pgDir + 506) j)
    · exact Or.inr ⟨(hk hv).1, (hk hv).2 k⟩
    · exact Or.inl hv

/-- Below an entry that a segment uses, the pages of the segments are mapped and no others. -/
theorem window_segment {a : Nat × Fin 512} (ha : a ∈ segTables L) (k : Fin 512) :
    StopsPmd b.mem (L.pgDir + 506) a.2 k ↔ ¬ SegPage a.2 k := by
  have hK := L.fits
  obtain ⟨hword, -, hlt⟩ := h.linked a ha
  have hframe : hwFrame (tableDesc a.1) = a.1 := hwFrame_tableDesc (by omega)
  simp only [StopsPmd, hword, valid_tableDesc, isTable_tableDesc, hframe, not_true_eq_false,
    false_or, true_and]
  exact (h.pages a ha k).not

/-- The directory, above the window. -/
theorem dir_unmapped {i : Fin 512} (hi : 2 ≤ i.val) :
    (∀ j k, ¬ Valid (b.mem L.pgDir i) ∨ (IsTable (b.mem L.pgDir i) ∧
      StopsPmd b.mem (hwFrame (b.mem L.pgDir i)) j k)) ↔
    (Valid (ram L.pgDir i) → IsTable (ram L.pgDir i) ∧ ¬ Live L ram (hwFrame (ram L.pgDir i))) := by
  rw [← h.live_iff]
  simp only [h.dir_user hi, not_exists, not_not]
  constructor
  · intro hk hv
    exact ⟨((hk 0 0).resolve_left (not_not_intro hv)).1,
      fun j k => ((hk j k).resolve_left (not_not_intro hv)).2⟩
  · intro hk j k
    by_cases hv : Valid (ram L.pgDir i)
    · exact Or.inr ⟨(hk hv).1, (hk hv).2 j k⟩
    · exact Or.inl hv

end Boot.Built

/-! ## 8. Exactly when nothing else is mapped -/

/-- The pages of the segments, by address. -/
theorem inSegment_iff {va : Nat} (hva : pudx va = 1) (hlt : va < 2 ^ 39) :
    InSegment va ↔ Boot.SegPage (pmdx va) (ptex va) := by
  have hsize : round (npage * Boot.sizeofPage) by2pg = 0x600000 ∧
      round (nenv * Boot.sizeofEnv) by2pg = 0x68000 := by decide
  have hv := congrArg Fin.val hva
  rw [pudx_val] at hv
  simp only [Fin.val_one] at hv
  rw [InSegment, hsize.1, hsize.2]
  simp only [Boot.SegPage, pmdx_val, ptex_val, upages, uenvs, timestack, kernelSp, by2pg]
  omega

/-- Every walk is the walk of some address. -/
theorem exists_va (i j k : Fin 512) :
    ∃ va, va < 2 ^ 39 ∧ pudx va = i ∧ pmdx va = j ∧ ptex va = k := by
  have hp := pageOf_join i j k
  refine ⟨_, ?_, congrArg Prod.fst hp, congrArg (fun g => g.2.1) hp, congrArg (fun g => g.2.2) hp⟩
  have hi := i.isLt
  have hj := j.isLt
  have hk := k.isLt
  simp only [Nat.shiftLeft_eq]
  omega

/-- Above the block that follows the identity map. -/
theorem pmdx_ne_zero {va : Nat} (hi : pudx va = 1) (hlo : 0x40200000 ≤ va) (hlt : va < 2 ^ 39) :
    pmdx va ≠ 0 := by
  intro h0
  have h1 := congrArg Fin.val hi
  have h2 := congrArg Fin.val h0
  rw [pudx_val] at h1
  rw [pmdx_val] at h2
  simp only [Fin.val_one, Fin.val_zero] at h1 h2
  omega

section Outside

variable {va : Nat}
  (hi : 2 ≤ (pudx va).val ∨ pudx va = 1 ∧ pmdx va ≠ 0 ∧ ¬ Boot.SegPage (pmdx va) (ptex va))

include hi

theorem above_window : 0x40200000 ≤ va := by
  rcases hi with hi | ⟨hi, hj, _⟩
  · rw [pudx_val] at hi
    omega
  · have h1 := congrArg Fin.val hi
    have h2 := Fin.val_ne_of_ne hj
    rw [pudx_val] at h1
    rw [pmdx_val] at h2
    simp only [Fin.val_one, Fin.val_zero] at h1 h2
    omega

theorem not_inSegment (hlt : va < 2 ^ 39) : ¬ InSegment va := by
  rcases hi with hi | ⟨hi, _, hseg⟩
  · have hsize : round (npage * Boot.sizeofPage) by2pg = 0x600000 ∧
        round (nenv * Boot.sizeofEnv) by2pg = 0x68000 := by decide
    rw [pudx_val] at hi
    rw [InSegment, hsize.1, hsize.2]
    simp only [upages, uenvs, timestack, kernelSp, by2pg]
    omega
  · rwa [inSegment_iff hi hlt]

end Outside

/-- **Where the five window entries that boot walks through are clean, nothing else is mapped exactly
when no stale descriptor leads anywhere.** -/
theorem nothingElse_iff {L : Layout} {ram : Mem} (hclean : Boot.SegmentsClean L ram) {b : Boot}
    (hb : Boot.vmInit L (Boot.mmuSetup L ram) = .ok b) :
    NothingElse L b.mem ↔ NoStray L ram := by
  obtain ⟨b', hb', h⟩ := Boot.vmInit_built hclean
  rw [hb] at hb'
  cases hb'
  have hK := L.fits
  have hwindow : hwFrame (tableDesc (L.pgDir + 506)) = L.pgDir + 506 := hwFrame_tableDesc (by omega)
  constructor
  · intro hn
    -- every triple of indices is the walk of some address
    have hwalk : ∀ i j k : Fin 512, (2 ≤ i.val ∨ i = 1 ∧ j ≠ 0 ∧ ¬ Boot.SegPage j k) →
        ¬ Valid (b.mem L.pgDir i) ∨
          (IsTable (b.mem L.pgDir i) ∧ StopsPmd b.mem (hwFrame (b.mem L.pgDir i)) j k) := by
      intro i j k hi
      obtain ⟨va, hlt, h1, h2, h3⟩ := exists_va i j k
      rw [← h1, ← h2, ← h3] at hi ⊢
      exact hn va hlt (above_window hi) (not_inSegment hi hlt)
    refine ⟨hclean, fun j hj ht => (h.window_unmapped hj ht).mp fun k => ?_,
      fun i hi => (h.dir_unmapped hi).mp fun j k => hwalk i j k (Or.inl hi)⟩
    have hseg : ¬ Boot.SegPage j k := fun hs => by
      obtain ⟨a, ha, he⟩ := h.used j k hs
      exact ht a ha he
    have hw := hwalk 1 j k (Or.inr ⟨rfl, hj, hseg⟩)
    rw [h.window, hwindow] at hw
    exact (hw.resolve_left (not_not_intro (valid_tableDesc _))).2
  · intro hs va hlt hlo hseg
    have hi : pudx va = 1 ∨ 2 ≤ (pudx va).val := by
      rcases Nat.lt_or_ge (pudx va).val 2 with h1 | h1
      · refine Or.inl (Fin.ext ?_)
        rw [pudx_val] at h1 ⊢
        simp only [Fin.val_one]
        omega
      · exact Or.inr h1
    rcases hi with hi | hi
    · rw [inSegment_iff hi hlt] at hseg
      refine Or.inr ⟨?_, ?_⟩
      · rw [hi, h.window]
        exact isTable_tableDesc _
      rw [hi, h.window, hwindow]
      by_cases ht : ∀ a ∈ segTables L, a.2 ≠ pmdx va
      · refine (h.window_unmapped ?_ ht).mpr (hs.window _ ?_ ht) _ <;>
          exact pmdx_ne_zero hi hlo hlt
      · simp only [not_forall, not_not] at ht
        obtain ⟨a, ha, he⟩ := ht
        rw [← he] at hseg ⊢
        exact (h.window_segment ha _).mpr hseg
    · exact (h.dir_unmapped hi).mpr (hs.dir _ hi) _ _

/-- Nothing else is mapped when `aarch64_vm_init` has returned. -/
def NothingElseAfterBoot (L : Layout) (ram : Mem) : Prop :=
  ∀ b, Boot.vmInit L (Boot.mmuSetup L ram) = .ok b → NothingElse L b.mem

/-- **Boot maps nothing else when no stale descriptor leads anywhere**, and only then, unless one
stands where boot itself walks through the window. -/
theorem boot_maps_nothing_else (L : Layout) (ram : Mem) :
    (NoStray L ram → NothingElseAfterBoot L ram) ∧
      (Boot.SegmentsClean L ram → NothingElseAfterBoot L ram → NoStray L ram) := by
  constructor
  · intro hs b hb
    exact (nothingElse_iff hs.segments hb).mpr hs
  · intro hclean h
    obtain ⟨b, hb, _⟩ := Boot.vmInit_built hclean
    exact (nothingElse_iff hclean hb).mp (h b hb)

/-- Memory with a stale descriptor where the directory will be, for a frame that holds nothing.  Bit 52 is
none the hardware takes for the address. -/
def harmlessRam : Mem := fun f i =>
  if f = image.pgDir ∧ i = 2 then 2 ^ 52 + tableDesc 0 else 0

theorem noStray_harmless : NoStray image harmlessRam where
  segments := by
    intro a _
    have h0 : harmlessRam (image.pgDir + 506) a.2 = 0 := by simp [harmlessRam, image]
    rw [h0]
    exact not_valid_zero
  window := by
    intro j _ _ hv
    have h0 : harmlessRam (image.pgDir + 506) j = 0 := by simp [harmlessRam, image]
    rw [h0] at hv
    exact absurd hv not_valid_zero
  dir := by
    intro i _ hv
    rcases eq_or_ne i 2 with rfl | hi
    · refine ⟨by decide, ?_⟩
      have hframe : hwFrame (harmlessRam image.pgDir 2) = 0 := by decide
      rw [hframe, Live, if_neg (by decide), if_neg (by decide), if_neg (by decide)]
      rintro ⟨j, hv', _⟩
      exact not_valid_zero hv'
    · have h0 : harmlessRam image.pgDir i = 0 := if_neg fun hc => hi hc.2
      rw [h0] at hv
      exact absurd hv not_valid_zero

/-- The stale descriptor stays, and leads nowhere. -/
theorem boot_maps_nothing_else_harmless :
    Valid (harmlessRam image.pgDir 2) ∧ NothingElseAfterBoot image harmlessRam :=
  ⟨by decide, (boot_maps_nothing_else image harmlessRam).1 noStray_harmless⟩

/-- Memory that holds the three descriptors of a stale mapping, the first where the directory will
be. -/
def staleRam : Mem := fun f i =>
  if f = image.pgDir ∧ i = 2 then tableDesc 0
  else if f = 0 ∧ i = 0 then tableDesc 1
  else if f = 1 ∧ i = 0 then tableDesc 2
  else 0

/-- **A stale mapping survives boot.** -/
theorem boot_maps_something_else : ¬ ∀ L ram, NothingElseAfterBoot L ram := by
  intro h
  have hclean : Boot.SegmentsClean image staleRam := by
    intro a _
    have h0 : staleRam (image.pgDir + 506) a.2 = 0 := by simp [staleRam, image]
    rw [h0]
    exact not_valid_zero
  obtain ⟨b, hb, _⟩ := Boot.vmInit_built hclean
  have hs := (nothingElse_iff hclean hb).mp (h image staleRam b hb)
  have hv : Valid (staleRam image.pgDir 2) := valid_tableDesc 0
  refine (hs.dir 2 (by decide) hv).2 ?_
  have he : hwFrame (staleRam image.pgDir 2) = 0 := hwFrame_tableDesc (by decide)
  have hmark : Marked image staleRam 1 := by
    unfold Marked
    rw [if_neg (by decide)]
    exact ⟨0, valid_tableDesc 2⟩
  have hnext : hwFrame (staleRam 0 0) = 1 := hwFrame_tableDesc (by decide)
  rw [he]
  unfold Live
  rw [if_neg (by decide), if_neg (by decide), if_neg (by decide)]
  refine ⟨0, valid_tableDesc 1, Or.inr ?_⟩
  rw [hnext]
  exact hmark

end RaspiOS
