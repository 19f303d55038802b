/-
# No frame in use is handed out again

A frame leaves `page_free_list` when `page_alloc` takes it and returns when its `pp_ref` has gone
back to zero.  That is safe as long as every leaf that maps a frame is counted in its `pp_ref`, and
in the user half it is (`Forest`).  The identity map is the hole: its entries are not counted, but
`page_lookup` answers with the frames they name, so `sys_mem_map` with a source below the user half
maps a frame that is on the free list.  A permission word with an address bit, and 65536 mappings of
one frame, open two more.

`frameReuse_safe` says that runs which keep the user-half discipline are safe;
`frameReuse_unsafe` walks through the hole.
-/
import RaspiOS.Ident
import RaspiOS.Progress

set_option autoImplicit false

namespace RaspiOS

open LinkedList

namespace Kernel

/-- **Frames on the free list are not in use.**  The free list is well formed and duplicate-free,
and no environment reaches a frame of it through a leaf that `boot` did not make.  (`s₀` is the
state after boot; every environment starts with the translations of its `_pg_dir`.) -/
def FrameReuseSafe (s₀ s : Kernel) : Prop :=
  (∃ l, IsList s.phys.pageFreeList () l) ∧
  ∀ e va t, ¬ OnChain s.envFreeList (.head ()) e →
    translate s.phys.mem (s.envs e).envPgdir va = some t →
    translate s₀.phys.mem s₀.pgDir va ≠ some t →
    ¬ OnChain s.phys.pageFreeList (.head ()) t.frame

/-- **Frame reuse is safe along every tame run** from boot on clean memory. -/
theorem frameReuse_safe {L : Layout} {ram : Mem} {s₀ s : Kernel} {es : List Event}
    (hclean : CleanRam L ram) (hboot : boot L ram = .ok s₀) (hr : Run step Tame s₀ es s) :
    FrameReuseSafe s₀ s := by
  obtain ⟨s₁, base, ρ, fl, hboot', hb, hi⟩ := KernelInv.ofReachable hclean ⟨s₀, es, hboot, hr⟩
  rw [hboot] at hboot'
  cases hboot'
  obtain ⟨l, hl, hfree⟩ := hi.forest.pages
  refine ⟨⟨l, hl⟩, fun e va t he ht hnew hon => ?_⟩
  have hd : ρ (s.envs e).envPgdir = .dir :=
    hi.dir e (fun hm => he ((hi.list.onChain_iff e).mpr hm))
  by_cases hva : 2 ≤ (pudx va).val
  · -- a leaf of the user half maps a page, and a page is not free
    rw [hi.forest.translate_user hd hva] at ht
    split at ht
    · obtain ⟨w, hw, rfl⟩ := Option.map_eq_some_iff.mp ht
      have hpage := (hi.forest.page_of_space hd hva hw).2
      rw [(hfree (ppn w)).mp ((hl.onChain_iff _).mp hon)] at hpage
      exact hpage
    · cases ht
  · -- below it every directory is as boot left `_pg_dir`
    rw [hi.forest.translate_low hd hva] at ht
    rw [hb.pgDir] at hnew
    exact hnew ht

/-- The first environment forks, destroys its child, maps a new page and unmaps it: nothing free is
mapped. -/
theorem frameReuse_safe_first : ∃ s₀ s : Kernel, boot image coldRam = .ok s₀ ∧
    Run step Tame s₀ [.create 0x80000 1, .irq .zero, .svc .noStack .envAlloc,
      .svc .zero (.envDestroy 4097), .svc .zero (.memAlloc 0 0x80000000 pteV),
      .svc .zero (.memUnmap 0 0x80000000)] s ∧ FrameReuseSafe s₀ s := by
  obtain ⟨s₀, s₁, base, ρ, hb, hr, n, hn, h⟩ := firstChild_reached
  have hbase := h.base_le
  have hva : UserVa 0x80000000 := by
    unfold UserVa
    decide
  -- the child is destroyed
  obtain ⟨htame₁, hst₁⟩ := h.destroy
  obtain ⟨ρ₁, fl₁, h₁⟩ := h.inv.step htame₁ hst₁
  generalize ht₁ : ({ s₁ with kernelFrame := saveall syncStack .zero } : Kernel).freed 1 = t₁
    at hst₁ h₁
  have hcur₁ : t₁.curenv = some 0 := ht₁ ▸ h.cur
  have hpages₁ : IsList t₁.phys.pageFreeList () ((freshPages base).drop n) := ht₁ ▸ h.pages
  have hd := h₁.dir 0 (h₁.cur 0 hcur₁)
  -- the new page
  have hlt : n < (freshPages base).length := by
    rw [length_freshPages]
    simp only [npage]
    omega
  rw [List.drop_eq_getElem_cons hlt] at hpages₁
  obtain ⟨q, hq, _⟩ := Phys.pageAlloc_cons hpages₁
  obtain ⟨h₂, hk₂, _, href, _⟩ := KernelInv.take_spec h₁.forest hq
  obtain ⟨v, p, hi⟩ : ∃ v p, q.pageInsert (t₁.envs 0).envPgdir _ 0x80000000 pteV = .ok (v, p) := by
    rcases h₂.pageInsert (hk₂ _ hd) hva (by rw [Function.update_self]; trivial)
      (by rw [href]; decide) (permOk_pteV _) with ⟨_, p, hi, _⟩ | ⟨_, _, p, hi, _⟩
    exacts [⟨_, p, hi⟩, ⟨_, p, hi⟩]
  have hst₂ := step_memAlloc_self .zero 0x80000000 pteV hcur₁ (by decide) hq hi
  have htame₂ : t₁.Tame (.svc .zero (.memAlloc 0 0x80000000 pteV)) :=
    fun _ _ f _ _ _ => ⟨hva, permOk_pteV f⟩
  obtain ⟨ρ₂, fl₂, h₃⟩ := h₁.step htame₂ hst₂
  generalize ht₂ : ({ t₁ with kernelFrame := saveall syncStack .zero, phys := p } : Kernel) = t₂
    at hst₂ h₃
  have hcur₂ : t₂.curenv = some 0 := ht₂ ▸ hcur₁
  -- and its end
  obtain ⟨_, p', hr', _⟩ := h₃.forest.pageRemove (h₃.dir 0 (h₃.cur 0 hcur₂)) hva
  have hst₃ := step_memUnmap_self .zero hcur₂ hr'
  have htame₃ : t₂.Tame (.svc .zero (.memUnmap 0 0x80000000)) := fun _ _ _ _ _ => hva
  have hrun := ((hr.snoc htame₁ hst₁).snoc htame₂ hst₂).snoc htame₃ hst₃
  exact ⟨s₀, _, hb, hrun, frameReuse_safe cleanRam_coldRam hb hrun⟩

/-- **Frame reuse is not safe.**  The only environment calls
`sys_mem_map(0, 0x30000000, 0, USTACKTOP - 2 * BY2PG, PTE_V)`: frame `0x30000` is free, the identity
map names it, and the call maps it below the stack. -/
theorem frameReuse_unsafe : ¬ ∀ (L : Layout) (ram : Mem) (s₀ s : Kernel) (es : List Event),
    boot L ram = .ok s₀ → Run step (fun _ _ => True) s₀ es s → FrameReuseSafe s₀ s := by
  intro hall
  obtain ⟨s₀, s, base, ρ, hb, hbooted, hr, n, hn, h⟩ := firstEnv_reached .zero
  have hF := h.inv.forest
  have hmem0 : (0 : Slot) ∉ (List.finRange 1023).map Fin.succ := by simp
  have hd := h.inv.dir 0 hmem0
  have hva : 2 ≤ (pudx (ustacktop - 2 * by2pg)).val := by decide
  obtain ⟨u, hu', hnv⟩ := h.belowStack
  have hsrc : rounddown (page2pa 0x30000) by2pg = page2pa 0x30000 := by decide
  have hdst : rounddown (ustacktop - 2 * by2pg) by2pg = ustacktop - 2 * by2pg := by decide
  have hlook := hF.pageLookup_ident (f := 0x30000) hd (by decide)
  have hins := hF.pageInsert_of_leads hu' hnv 0x30000 1
  have hstep := step_memMap_self .zero (page2pa 0x30000) (ustacktop - 2 * by2pg) 1
    h.cur (by decide) (by rw [hsrc]; exact hlook) (by rw [hdst]; exact hins)
  have htr := hF.translate_store_leaf hd hu' hva (by decide) (isTable_leafDesc 0x30000 1)
  have hsafe := (hall image coldRam s₀ _ _ hb
    (hr.unguarded.snoc trivial hstep)).2 0 (ustacktop - 2 * by2pg) _
    (fun hon => hmem0 ((h.inv.list.onChain_iff 0).mp hon)) htr ?_
  · -- the frame is still on the free list
    have hl := h.pages
    have hbase := h.base_le
    have hf : hwFrame (leafDesc 0x30000 1) = 0x30000 :=
      hwFrame_leafDesc_of_lt (by decide) (by decide)
    refine hsafe ((hl.onChain_iff _).mpr ?_)
    simp only [hf]
    rw [mem_freshPages_drop]
    simp only [npage]
    omega
  · -- boot maps nothing in the user half
    rw [hbooted.pgDir, hbooted.map.translate_none hva]
    simp

end Kernel

end RaspiOS
