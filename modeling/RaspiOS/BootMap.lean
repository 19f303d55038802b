/-
# `boot_mmu_setup` builds the identity map

Whatever memory holds at power-on, and wherever the linker has put `_pg_dir` and `_data`: below the
device window every address is mapped to itself by a page, which is read-only in the image before
`_data`, and in the window by a device block.  The 507 tables are the frames from `_pg_dir` up to
`freemem`, each used for one thing, and nothing else is written.

What the directory and the table of the window hold beside the three entries that `boot_mmu_setup` fills
is what memory held before; the paths in `Used` are those that run through what it fills.
-/
import RaspiOS.Ident
import RaspiOS.Levels

set_option autoImplicit false

namespace RaspiOS

/-- The mask of the bits that select the memory attributes: `PTE_NORMAL` or `PTE_DEVICE`. -/
def attrIndex : Nat := 7 <<< 2

/-- The paths to the tables of the addresses below `0x40200000`. -/
def Used (is : List (Fin 512)) : Prop :=
  is = [] ∨ is = [0] ∨ is = [1] ∨ ∃ r : Fin 512, r.val < 504 ∧ is = [r, 0]

/-- The place of such a table among those `boot_mmu_setup` takes. -/
def tableNumber : List (Fin 512) → Nat
  | [] => 0
  | [i] => 1 + 505 * i.val
  | r :: _ => 2 + r.val

theorem Used.tableNumber_le {is : List (Fin 512)} (h : Used is) : tableNumber is ≤ 506 := by
  rcases h with rfl | rfl | rfl | ⟨r, hr, rfl⟩
  · decide
  · decide
  · decide
  · simp only [tableNumber]
    omega

/-- Different paths end at different tables. -/
theorem Used.tableNumber_inj {is is' : List (Fin 512)} (h : Used is) (h' : Used is')
    (he : tableNumber is = tableNumber is') : is = is' := by
  rcases h with rfl | rfl | rfl | ⟨r, hr, rfl⟩ <;> rcases h' with rfl | rfl | rfl | ⟨r', hr', rfl⟩ <;>
    simp only [tableNumber, Fin.val_zero, Fin.val_one] at he
  case inr.inr.inr.inr.inr.inr =>
    have hrr : r = r' := Fin.ext (by omega)
    rw [hrr]
  all_goals first | rfl | omega

/-- **The identity map**, as a walk from `_pg_dir` finds it. -/
structure IdentityMap (L : Symbols) (ram : Mem) (b : Boot) : Prop where
  page : ∀ va < 0x3f000000, ∃ u a,
    Radix.walk hwDecode b.mem L.pgDir (pathOf va) = .table u ∧ IsTable (b.mem u (ptex va)) ∧
    translate b.mem L.pgDir va = some ⟨ppn va, a⟩ ∧
    (a &&& pteRO ≠ 0 ↔ 0x80000 ≤ va ∧ va < L.data)
  block : ∀ va, 0x3f000000 ≤ va → va < 0x40200000 → ∃ w a,
    Radix.walk hwDecode b.mem L.pgDir (pathOf va) = .final (1, w) ∧
    translate b.mem L.pgDir va = some ⟨ppn va, a⟩ ∧ a &&& attrIndex = pteDevice
  aligned : ∀ i is, Used (i :: is) → ∃ g f,
    Radix.walk hwDecode b.mem L.pgDir is = .table g ∧ b.mem g i = tableDesc f
  placed : ∀ is, Used is → ∃ f, Radix.walk hwDecode b.mem L.pgDir is = .table f ∧
    L.pgDir ≤ f ∧ by2pg * (f + 1) ≤ b.freemem
  distinct : ∀ is is' f, Used is → Used is' → Radix.walk hwDecode b.mem L.pgDir is = .table f →
    Radix.walk hwDecode b.mem L.pgDir is' = .table f → is = is'
  rest : ∀ f, f < L.pgDir ∨ b.freemem ≤ by2pg * f → b.mem f = ram f

/-! ## 1. Descriptors -/

section Descriptors

variable {f a r va : Nat}

/-- The attributes of a descriptor. -/
theorem or_and_fff (f : Nat) (ha : a < by2pg) : (page2pa f ||| a) &&& 0xfff = a := by
  have hadd : page2pa f ||| a = f * 2 ^ 12 + a := by
    rw [page2pa, ← Nat.shiftLeft_add_eq_or_of_lt ha, Nat.shiftLeft_eq]
  rw [hadd, show (0xfff : Nat) = 2 ^ 12 - 1 from rfl, Nat.and_two_pow_sub_one_eq_mod]
  rw [by2pg] at ha
  omega

theorem deviceBlock_eq (r : Nat) : Boot.deviceBlock r = page2pa (r * 512) ||| 0x445 := by
  have h : r <<< 21 = page2pa (r * 512) := by
    simp only [page2pa, Nat.shiftLeft_eq]
    omega
  simp only [Boot.deviceBlock, Nat.or_assoc, h]
  rfl

theorem isBlock_deviceBlock (r : Nat) : IsBlock (Boot.deviceBlock r) := by
  have hadd : page2pa (r * 512) ||| 0x445 = r * 512 * 2 ^ 12 + 0x445 := by
    rw [page2pa, ← Nat.shiftLeft_add_eq_or_of_lt (by decide), Nat.shiftLeft_eq]
  rw [IsBlock, deviceBlock_eq, hadd, show (3 : Nat) = 2 ^ 2 - 1 from rfl,
    Nat.and_two_pow_sub_one_eq_mod]
  omega

/-- A block of the window answers with its own frame. -/
theorem blockAnswer_deviceBlock (hva : va < 2 ^ 39) (h : va / 2 ^ 21 = r) :
    blockAnswer va (1, Boot.deviceBlock r) = some ⟨ppn va, 0x445⟩ := by
  have hframe : hwFrame (Boot.deviceBlock r) = r * 512 := by
    rw [hwFrame, deviceBlock_eq, ppn_or_low _ (by decide)]
    exact Nat.mod_eq_of_lt (by omega)
  have hattrs : Boot.deviceBlock r &&& 0xfff = 0x445 := by
    rw [deviceBlock_eq]
    exact or_and_fff _ (by decide)
  have hppn : r * 512 / 512 * 512 + (ptex va).val = ppn va := by
    rw [ptex_val, ppn, Nat.shiftRight_eq_div_pow]
    omega
  simp only [blockAnswer, hframe, hattrs, hppn]

/-- A page of the identity map is read-only before `_data`. -/
theorem identAttrs_ro {L : Symbols} (hdata : by2pg ∣ L.data) :
    identAttrs L (page2pa (ppn va)) &&& pteRO ≠ 0 ↔ 0x80000 ≤ va ∧ va < L.data := by
  have hcond : (0x80000 ≤ page2pa (ppn va) ∧ page2pa (ppn va) < L.data) ↔
      0x80000 ≤ va ∧ va < L.data := by
    obtain ⟨k, hk⟩ := hdata
    rw [hk, page2pa_eq, ppn, Nat.shiftRight_eq_div_pow, by2pg]
    omega
  rw [← hcond, identAttrs]
  split
  · rename_i h
    exact iff_of_true (by decide) h
  · rename_i h
    exact iff_of_false (by decide) h

end Descriptors

/-! ## 2. The walks -/

namespace Boot

variable {L : Symbols} {ram : Mem} {va : Nat}

theorem mmuMem_dir (L : Symbols) (ram : Mem) : mmuMem L ram L.pgDir 0 = tableDesc (L.pgDir + 1) ∧
    mmuMem L ram L.pgDir 1 = tableDesc (L.pgDir + 506) := by
  constructor <;> simp [mmuMem]

theorem mmuMem_table (L : Symbols) (ram : Mem) (r : Fin 512) : mmuMem L ram (L.pgDir + 1) r =
    if r.val < 504 then tableDesc (L.pgDir + 2 + r) else deviceBlock r := by
  simp [mmuMem]

theorem mmuMem_page (L : Symbols) (ram : Mem) {r : Nat} (t : Fin 512) (hr : r < 504) :
    mmuMem L ram (L.pgDir + 2 + r) t = identDesc L ((r <<< 21) + (t.val <<< 12)) := by
  have h1 : ¬ L.pgDir + 2 + r = L.pgDir := by omega
  have h2 : ¬ L.pgDir + 2 + r = L.pgDir + 1 := by omega
  have h3 : L.pgDir + 2 ≤ L.pgDir + 2 + r ∧ L.pgDir + 2 + r < L.pgDir + 506 := by omega
  simp only [mmuMem, h1, h2, h3, if_false, and_self, if_true, Nat.add_sub_cancel_left]

theorem mmuMem_window (L : Symbols) (ram : Mem) :
    mmuMem L ram (L.pgDir + 506) 0 = deviceBlock 512 := by
  simp [mmuMem]

theorem walk_ram (L : Symbols) (ram : Mem) :
    Radix.walk hwDecode (mmuMem L ram) L.pgDir [0] = .table (L.pgDir + 1) :=
  (Radix.walk_cons rfl).trans (by rw [(mmuMem_dir L ram).1]; exact hwDecode_tableDesc _ _)

theorem walk_window (L : Symbols) (ram : Mem) :
    Radix.walk hwDecode (mmuMem L ram) L.pgDir [1] = .table (L.pgDir + 506) :=
  (Radix.walk_cons rfl).trans (by rw [(mmuMem_dir L ram).2]; exact hwDecode_tableDesc _ _)

theorem walk_row (L : Symbols) (ram : Mem) {r : Fin 512} (hr : r.val < 504) :
    Radix.walk hwDecode (mmuMem L ram) L.pgDir [r, 0] = .table (L.pgDir + 2 + r) :=
  (Radix.walk_cons (walk_ram L ram)).trans (by
    rw [mmuMem_table, if_pos hr]
    exact hwDecode_tableDesc _ _)

/-- Below the window the walk ends at the page of the address. -/
theorem walk_page (L : Symbols) (ram : Mem) (hva : va < 0x3f000000) : ∃ u,
    Radix.walk hwDecode (mmuMem L ram) L.pgDir (pathOf va) = .table u ∧
    mmuMem L ram u (ptex va) = identDesc L (page2pa (ppn va)) := by
  have hpud : pudx va = 0 := by
    ext
    rw [pudx_val, Fin.val_zero]
    omega
  have hpmd : (pmdx va).val < 504 := by
    rw [pmdx_val]
    omega
  have haddr : ((pmdx va).val <<< 21) + ((ptex va).val <<< 12) = page2pa (ppn va) := by
    rw [page2pa_eq, ppn, pmdx_val, ptex_val, Nat.shiftLeft_eq, Nat.shiftLeft_eq,
      Nat.shiftRight_eq_div_pow, by2pg]
    omega
  refine ⟨L.pgDir + 2 + (pmdx va).val, ?_, ?_⟩
  · rw [pathOf, hpud]
    exact walk_row L ram hpmd
  · rw [mmuMem_page L ram _ hpmd, haddr]

/-- In the window it ends at a block. -/
theorem walk_block (L : Symbols) (ram : Mem) (hlo : 0x3f000000 ≤ va) (hhi : va < 0x40200000) :
    Radix.walk hwDecode (mmuMem L ram) L.pgDir (pathOf va)
      = .final (1, deviceBlock (va / 2 ^ 21)) := by
  have hblock := fun r => hwDecode_of_block (n := 1) (isBlock_deviceBlock r)
  rcases Nat.lt_or_ge va 0x40000000 with hlt | hge
  · have hpud : pudx va = 0 := by
      ext
      rw [pudx_val, Fin.val_zero]
      omega
    have hpmd : (pmdx va).val = va / 2 ^ 21 := by
      rw [pmdx_val]
      omega
    rw [pathOf, hpud, Radix.walk_cons (walk_ram L ram), mmuMem_table, if_neg (by omega), hpmd]
    exact hblock _
  · have hpud : pudx va = 1 := by
      ext
      rw [pudx_val, Fin.val_one]
      omega
    have hpmd : pmdx va = 0 := by
      ext
      rw [pmdx_val, Fin.val_zero]
      omega
    have hrow : va / 2 ^ 21 = 512 := by omega
    rw [pathOf, hpud, hpmd, Radix.walk_cons (walk_window L ram), mmuMem_window, hrow]
    exact hblock _

/-- The table at the end of a used path. -/
theorem walk_used (L : Symbols) (ram : Mem) {is : List (Fin 512)} (h : Used is) :
    Radix.walk hwDecode (mmuMem L ram) L.pgDir is = .table (L.pgDir + tableNumber is) := by
  rcases h with rfl | rfl | rfl | ⟨r, hr, rfl⟩
  · rfl
  · exact walk_ram L ram
  · exact walk_window L ram
  · rw [walk_row L ram hr, Nat.add_assoc]
    rfl

/-- The hardware can name the tables at the ends of used paths, so it reads them as they were written. -/
theorem translate_mmuMem {L : Symbols} {ram : Mem} (hK : L.pgDir < 0x3f000) (hva : va < 0x40200000) :
    translate (mmuMem L ram) L.pgDir va =
      Radix.read hwDecode pageAnswer (blockAnswer va) none (mmuMem L ram) L.pgDir (ptex va)
        (pathOf va) := by
  have hused : ∀ is, Used is → ∀ f, Radix.walk hwDecode (mmuMem L ram) L.pgDir is = .table f →
      f < 2 ^ 36 := by
    intro is h f hf
    have he := Radix.Step.table.inj ((walk_used L ram h).symm.trans hf)
    have hle := h.tableNumber_le
    omega
  rw [translate_eq_read, if_pos (by omega)]
  · refine hused _ ?_
    rcases Nat.lt_or_ge va 0x40000000 with hlt | hge
    · exact .inr (.inl (congrArg (fun i => [i]) (Fin.ext (by rw [pudx_val, Fin.val_zero]; omega))))
    · exact .inr (.inr (.inl (congrArg (fun i => [i])
        (Fin.ext (by rw [pudx_val, Fin.val_one]; omega)))))
  · rcases Nat.lt_or_ge va 0x3f000000 with hlt | hge
    · refine hused _ (.inr (.inr (.inr ⟨pmdx va, by rw [pmdx_val]; omega, ?_⟩)))
      rw [pathOf, show pudx va = 0 from Fin.ext (by rw [pudx_val, Fin.val_zero]; omega)]
    · intro f hf
      rw [walk_block L ram hge hva] at hf
      cases hf

/-- The entry before the end of a used path holds the descriptor of a table. -/
theorem entry_used (L : Symbols) (ram : Mem) {i : Fin 512} {is : List (Fin 512)}
    (h : Used (i :: is)) : ∃ g f, Radix.walk hwDecode (mmuMem L ram) L.pgDir is = .table g ∧
      mmuMem L ram g i = tableDesc f := by
  rcases h with h | h | h | ⟨r, hr, h⟩
  · cases h
  · cases h
    exact ⟨_, _, rfl, (mmuMem_dir L ram).1⟩
  · cases h
    exact ⟨_, _, rfl, (mmuMem_dir L ram).2⟩
  · cases h
    refine ⟨_, L.pgDir + 2 + i.val, walk_ram L ram, ?_⟩
    rw [mmuMem_table, if_pos hr]

end Boot

/-! ## 3. The map -/

/-- **`boot_mmu_setup` builds the identity map**: for every `_pg_dir` with room for its tables below the
device window, every page-aligned `_data` and every memory. -/
theorem boot_mmu_setup_identity (L : Symbols) (ram : Mem) (hdata : by2pg ∣ L.data)
    (hroom : by2pg * (L.pgDir + 507) ≤ 0x3f000000) : IdentityMap L ram (Boot.mmuSetup L ram) := by
  have hK : L.pgDir < 0x3f000 := by
    rw [by2pg] at hroom
    omega
  rw [Boot.mmuSetup_eq hK]
  exact
    { page := by
        intro va hva
        obtain ⟨u, hw, hword⟩ := Boot.walk_page L ram hva
        have htable := isTable_identDesc L (page2pa (ppn va))
        have hattrs : Boot.identDesc L (page2pa (ppn va)) &&& 0xfff
            = identAttrs L (page2pa (ppn va)) := by
          rw [identDesc_eq]
          exact or_and_fff _ (identAttrs_lt L _)
        refine ⟨u, _, hw, hword.symm.subst (motive := IsTable) htable, ?_, identAttrs_ro hdata⟩
        rw [Boot.translate_mmuMem hK (by omega), Radix.read, hw]
        dsimp only
        rw [hword, pageAnswer, if_pos htable, hwFrame_of_lt, ppn_identDesc, hattrs]
        rw [ppn_identDesc, ppn, Nat.shiftRight_eq_div_pow]
        omega
      block := by
        intro va hlo hhi
        have hw := Boot.walk_block L ram hlo hhi
        refine ⟨_, 0x445, hw, ?_, by decide⟩
        rw [Boot.translate_mmuMem hK hhi, Radix.read, hw]
        exact blockAnswer_deviceBlock (by omega) rfl
      aligned := fun i is h => Boot.entry_used L ram h
      placed := by
        intro is h
        have hle := h.tableNumber_le
        exact ⟨_, Boot.walk_used L ram h, Nat.le_add_right _ _, Nat.mul_le_mul_left _ (by omega)⟩
      distinct := by
        intro is is' f h h' hw hw'
        have he := Radix.Step.table.inj ((Boot.walk_used L ram h).symm.trans hw)
        have he' := Radix.Step.table.inj ((Boot.walk_used L ram h').symm.trans hw')
        exact h.tableNumber_inj h' (by omega)
      rest := by
        intro f hf
        funext i
        have hf' : f < L.pgDir ∨ L.pgDir + 507 ≤ f :=
          hf.imp_right fun h => Nat.le_of_mul_le_mul_left h (by decide)
        dsimp only [Boot.mmuMem]
        rw [if_neg (by omega), if_neg (by omega), if_neg (by omega), if_neg (by omega)] }

/-- The map of an image that ends at `0x100000`. -/
theorem boot_mmu_setup_identity_image :
    IdentityMap ⟨0x100, 0x90000⟩ (fun f i => f + i) (Boot.mmuSetup ⟨0x100, 0x90000⟩ fun f i => f + i) :=
  boot_mmu_setup_identity ⟨0x100, 0x90000⟩ (fun f i => f + i) (by decide) (by decide)

end RaspiOS
