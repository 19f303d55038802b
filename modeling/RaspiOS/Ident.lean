/-
# The identity map, seen from an environment

`boot_mmu_setup` maps every frame of RAM at its own address, the user may access the pages, and
`env_setup_vm` copies the entry of `_pg_dir` they hang from.  So the address `page2pa f` names a
third-level entry of the kernel for every directory, and `page_lookup` finds frame `f` there
although no reference count knows about it.
-/
import RaspiOS.Space

set_option autoImplicit false

namespace RaspiOS

/-- The number of frames below the device window. -/
def ramFrames : Nat := 0x3f000

/-- The third-level entry that maps frame `f` at its own address. -/
def identPtr (L : Layout) (f : Nat) : Ptr := ⟨L.pgDir + 2 + f / 512, Fin.ofNat 512 f⟩

/-! ## 1. The descriptor -/

/-- The attribute bits of the identity map. -/
def identAttrs (L : Symbols) (i : Nat) : Nat :=
  if 0x80000 ≤ i ∧ i < L.data then typePage ||| pteAF ||| pteNormal ||| pteUser ||| pteRO
  else typePage ||| pteAF ||| pteNormal ||| pteUser

theorem identDesc_eq (L : Symbols) (i : Nat) : Boot.identDesc L i = i ||| identAttrs L i := by
  unfold Boot.identDesc identAttrs
  split <;> simp only [Nat.or_assoc]

theorem identAttrs_lt (L : Symbols) (i : Nat) : identAttrs L i < by2pg := by
  unfold identAttrs
  split <;> decide

theorem isTable_identDesc (L : Symbols) (i : Nat) : IsTable (Boot.identDesc L i) := by
  rw [identDesc_eq]
  refine and_three_of_or ?_
  unfold identAttrs
  split <;> decide

theorem ppn_identDesc (L : Symbols) (f : Nat) : ppn (Boot.identDesc L (page2pa f)) = f := by
  rw [identDesc_eq]
  exact ppn_or_low f (identAttrs_lt L _)

theorem hwFrame_identDesc (L : Symbols) {f : Nat} (hf : f < ramFrames) :
    hwFrame (Boot.identDesc L (page2pa f)) = f := by
  rw [hwFrame_of_lt, ppn_identDesc]
  rw [ppn_identDesc]
  simp only [ramFrames] at hf
  omega

/-! ## 2. The walk -/

section Indices

variable {f : Nat} (hf : f < ramFrames)

include hf

theorem pudx_page2pa : pudx (page2pa f) = 0 := by
  ext
  rw [pudx_val, page2pa_eq]
  simp only [ramFrames, by2pg, Fin.val_zero] at hf ⊢
  omega

theorem pmdx_page2pa : (pmdx (page2pa f)).val = f / 512 := by
  rw [pmdx_val, page2pa_eq]
  simp only [ramFrames, by2pg] at hf ⊢
  omega

end Indices

theorem ptex_page2pa (f : Nat) : ptex (page2pa f) = Fin.ofNat 512 f := by
  ext
  rw [ptex_val, page2pa_eq]
  simp only [by2pg, Fin.ofNat]
  omega

/-- The entry holds the descriptor of the frame. -/
theorem KernelMap.mem_identPtr {L : Layout} {m : Mem} {base f : Nat} (h : KernelMap L m base)
    (hf : f < ramFrames) :
    m (identPtr L f).frame (identPtr L f).idx = Boot.identDesc L (page2pa f) := by
  simp only [ramFrames] at hf
  have hi := h.ident (f / 512) (Fin.ofNat 512 f) (by omega)
  have haddr : ((f / 512) <<< 21) + ((Fin.ofNat 512 f).val <<< 12) = page2pa f := by
    simp only [page2pa, Nat.shiftLeft_eq, Fin.ofNat]
    omega
  rw [haddr] at hi
  exact hi

/-- What the hardware finds at the address of a frame, once the upper two levels are the ones of
boot. -/
theorem translate_ident {L : Layout} {m : Mem} {d f : Nat} (hf : f < ramFrames)
    (h1 : m d 0 = tableDesc (L.pgDir + 1))
    (h2 : m (L.pgDir + 1) (pmdx (page2pa f)) = tableDesc (L.pgDir + 2 + f / 512)) :
    translate m d (page2pa f) =
      if IsTable (m (identPtr L f).frame (identPtr L f).idx) then
        some ⟨hwFrame (m (identPtr L f).frame (identPtr L f).idx),
          m (identPtr L f).frame (identPtr L f).idx &&& 0xfff⟩
      else none := by
  have hlt : page2pa f < 2 ^ 39 := by
    rw [page2pa_eq]
    simp only [ramFrames, by2pg] at hf ⊢
    omega
  have hK := L.fits
  have hw1 : hwFrame (tableDesc (L.pgDir + 1)) = L.pgDir + 1 := hwFrame_tableDesc (by omega)
  have hw2 : hwFrame (tableDesc (L.pgDir + 2 + f / 512)) = L.pgDir + 2 + f / 512 :=
    hwFrame_tableDesc (by simp only [ramFrames] at hf; omega)
  simp only [translate, hlt, if_true, pudx_page2pa hf, h1, isTable_tableDesc, hw1, translatePmd, h2,
    hw2, translateLeaf, ptex_page2pa]
  rfl

section Upper

variable {L : Layout} {q : Phys} {d f : Nat} (hf : f < ramFrames)
  (h1 : q.mem d 0 = tableDesc (L.pgDir + 1))
  (h2 : q.mem (L.pgDir + 1) (pmdx (page2pa f)) = tableDesc (L.pgDir + 2 + f / 512))

include hf h1 h2

/-- The walk of the kernel under the same condition. -/
theorem Phys.walk_ident : q.walk d (page2pa f) = identPtr L f := by
  rw [Phys.walk_eq, pudx_page2pa hf, h1, if_pos (valid_tableDesc _), ppn_tableDesc, h2,
    if_pos (valid_tableDesc _), ppn_tableDesc, ptex_page2pa]
  rfl

/-- `page_lookup` at the address of a frame of RAM, while the entry is there. -/
theorem Phys.pageLookup_ident (hL : 0 < L.pgDir)
    (h3 : q.mem (identPtr L f).frame (identPtr L f).idx = Boot.identDesc L (page2pa f)) :
    q.pageLookup d (page2pa f) = .ok (some (f, identPtr L f)) := by
  have hne : identPtr L f ≠ .null := by
    intro hn
    have hz : L.pgDir + 2 + f / 512 = 0 := congrArg Ptr.frame hn
    omega
  have hload : q.load (identPtr L f) = Boot.identDesc L (page2pa f) := h3
  have hpage : pa2page (Boot.identDesc L (page2pa f)) = .ok f := by
    simp only [ramFrames] at hf
    have hnp : ¬ npage ≤ f := by
      simp only [npage]
      omega
    rw [pa2page, ppn_identDesc, if_neg hnp]
  simp only [Phys.pageLookup, Phys.walk_ident hf h1 h2, hne, if_false, hload,
    (isTable_identDesc L (page2pa f)).valid, not_true_eq_false, hpage, bind, Except.bind]
  rfl

/-- `page_remove` there clears the entry. -/
theorem Phys.pageRemove_ident (hL : 0 < L.pgDir)
    (h3 : q.mem (identPtr L f).frame (identPtr L f).idx = Boot.identDesc L (page2pa f)) :
    ∃ q' : Phys, q.pageRemove d (page2pa f) = .ok (q'.store (identPtr L f) 0) ∧
      q'.mem = q.mem := by
  simp only [Phys.pageRemove, Phys.pageLookup_ident hf h1 h2 hL h3, bind, Except.bind]
  refine ⟨_, rfl, ?_⟩
  split
  · rw [Phys.mem_pageFree, Phys.mem_decRef]
  · rw [Phys.mem_decRef]

end Upper

namespace Shape

variable {L : Layout} {base : Nat} {km : Mem} {ρ : Nat → Role} {m : Mem} {d f : Nat}

/-- The upper two levels of the identity map, in any directory. -/
theorem ident_upper (h : Shape L base km ρ m) (hd : ρ d = .dir ∨ d = L.pgDir)
    (hf : f < ramFrames) : m d 0 = tableDesc (L.pgDir + 1) ∧
      m (L.pgDir + 1) (pmdx (page2pa f)) = tableDesc (L.pgDir + 2 + f / 512) := by
  have hb := h.map.le_base
  have hr := pmdx_page2pa hf
  simp only [ramFrames] at hf
  constructor
  · rcases hd with hd | rfl
    · rw [h.dirLow d hd 0 (by decide), h.map.dir_ram]
    · rw [h.kernelMem _ (le_refl _) (by omega), h.map.dir_ram]
  · rw [h.kernelMem _ (by omega) (by omega), h.map.ram_table _ (by omega), hr]

theorem mem_identPtr (h : Shape L base km ρ m) (hf : f < ramFrames) :
    m (identPtr L f).frame (identPtr L f).idx = Boot.identDesc L (page2pa f) := by
  have hb := h.map.le_base
  have hlt := hf
  simp only [ramFrames] at hlt
  rw [h.kernelMem _ (by simp only [identPtr]; omega) (by simp only [identPtr]; omega),
    h.map.mem_identPtr hf]

end Shape

namespace Forest

variable {L : Layout} {base : Nat} {km : Mem} {ρ : Nat → Role} {p : Phys} {d f : Nat}

/-- **`page_lookup` finds every frame of RAM**, counted or not. -/
theorem pageLookup_ident (h : Forest L base km ρ p) (hd : ρ d = .dir) (hf : f < ramFrames) :
    p.pageLookup d (page2pa f) = .ok (some (f, identPtr L f)) := by
  obtain ⟨h1, h2⟩ := h.ident_upper (Or.inl hd) hf
  have hL := L.linked
  exact Phys.pageLookup_ident hf h1 h2 (by omega) (h.mem_identPtr hf)

/-- Clearing the entry takes the page out of the identity map, for every directory. -/
theorem translate_cleared (h : Forest L base km ρ p) (hf : f < ramFrames) {e : Nat}
    (he : ρ e = .dir ∨ e = L.pgDir) :
    translate (p.store (identPtr L f) 0).mem e (page2pa f) = none := by
  obtain ⟨h1, h2⟩ := h.ident_upper he hf
  have hb := h.map.le_base
  have hlt := hf
  simp only [ramFrames] at hlt
  -- neither upper level is in the frame of the cleared entry
  have hne : e ≠ (identPtr L f).frame := by
    rintro rfl
    have hk := (h.kernel (identPtr L f).frame).mpr (Or.inl (by simp only [identPtr]; omega))
    rcases he with he | he
    · rw [he] at hk
      cases hk
    · simp only [identPtr] at he
      omega
  have hne' : L.pgDir + 1 ≠ (identPtr L f).frame := by
    simp only [identPtr]
    omega
  rw [translate_ident hf (by rw [Phys.mem_store, if_neg (fun hc => hne hc.1), h1])
    (by rw [Phys.mem_store, if_neg (fun hc => hne' hc.1), h2]), Phys.mem_store_self, if_neg]
  decide

/-- **`page_remove` at the address of a frame** clears its entry. -/
theorem pageRemove_ident (h : Forest L base km ρ p) (hd : ρ d = .dir) (hf : f < ramFrames) :
    ∃ q : Phys, p.pageRemove d (page2pa f) = .ok (q.store (identPtr L f) 0) ∧ q.mem = p.mem := by
  obtain ⟨h1, h2⟩ := h.ident_upper (Or.inl hd) hf
  have hL := L.linked
  exact Phys.pageRemove_ident hf h1 h2 (by omega) (h.mem_identPtr hf)

end Forest

end RaspiOS
