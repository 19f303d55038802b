/-
# The kernel half

The kernel runs on the page table of whichever environment it was entered from, so every directory
must map the kernel.  `env_setup_vm` copies the entries of `_pg_dir` below the user half, and what
hangs from them belongs to no environment.  This module follows that through runs: whatever the
environments do, all of them see below the user half what `_pg_dir` mapped after boot through the tables
that boot made, and above it they never see a frame that boot kept for the kernel.
-/
import RaspiOS.BootMap
import RaspiOS.EnvId
import RaspiOS.Fork
import RaspiOS.UserMemory

set_option autoImplicit false

namespace RaspiOS

variable {L : Layout} {base : Nat} {km : Mem} {ρ : Nat → Role} {d va : Nat}

/-- The frame is in the pool that boot leaves: it was on `page_free_list`. -/
def Kernel.Pool (s₀ : Kernel) (f : Nat) : Prop :=
  ∃ l, LinkedList.IsList s₀.phys.pageFreeList () l ∧ f ∈ l

/-- Frame `f` is the directory `d` or a table that the hardware finds below it. -/
def TableBelow (m : Mem) (d f : Nat) : Prop :=
  f = d ∨ ∃ i, IsTable (m d i) ∧
    (f = hwFrame (m d i) ∨
      ∃ j, IsTable (m (hwFrame (m d i)) j) ∧ f = hwFrame (m (hwFrame (m d i)) j))

/-- **The kernel half** in a state `s` that was reached from the state `s₀` after boot. -/
structure KernelHalf (L : Layout) (s₀ s : Kernel) : Prop where
  pgDir : ∀ va, translate s.phys.mem s.pgDir va = translate s₀.phys.mem s₀.pgDir va
  shared : ∀ e va, s.Named e → (pudx va).val < 2 →
    translate s.phys.mem (s.envs e).envPgdir va = translate s₀.phys.mem s₀.pgDir va
  ram : ∀ e va, s.Named e → va < 0x3f000000 →
    translate s.phys.mem (s.envs e).envPgdir va
      = some ⟨ppn va, identAttrs L (page2pa (ppn va))⟩
  tables : ∀ f, TableBelow s₀.phys.mem s₀.pgDir f → s.phys.mem f = s₀.phys.mem f
  hidden : ∀ e va t, s.Named e → UserVa va →
    translate s.phys.mem (s.envs e).envPgdir va = some t → s₀.Pool t.frame

theorem Kernel.pool_iff {s₀ : Kernel} {f : Nat} (h : Booted L base s₀) :
    s₀.Pool f ↔ base ≤ f ∧ f < npage := by
  have hb := h.base_lt
  constructor
  · rintro ⟨l, hl, hf⟩
    rw [LinkedList.IsList.unique hl h.pages, List.mem_reverse, List.mem_range'_1] at hf
    omega
  · rintro ⟨hlo, hhi⟩
    refine ⟨_, h.pages, ?_⟩
    rw [List.mem_reverse, List.mem_range'_1]
    omega

/-- The tables below `_pg_dir` are the kernel's. -/
theorem KernelMap.tableBelow (h : KernelMap L km base) {f : Nat} (hf : TableBelow km L.pgDir f) :
    L.pgDir ≤ f ∧ f < base := by
  have hb := h.le_base
  rcases hf with rfl | ⟨i, hi, hf⟩
  · omega
  have hlow : ¬ 2 ≤ i.val := fun hu => h.dir_user i hu hi.valid
  obtain ⟨t, -, hfr, ht⟩ := h.dir_low hlow
  rw [hfr] at hf
  rcases hf with rfl | ⟨j, hj, rfl⟩
  · omega
  · obtain ⟨hlo, hhi, hfr'⟩ := h.pmd_closed ht j hj
    omega

/-- An address in RAM, through any directory. -/
theorem Shape.translate_ram {m : Mem} (h : Shape L base km ρ m) (hd : ρ d = .dir)
    (hva : va < 0x3f000000) :
    translate m d va = some ⟨ppn va, identAttrs L (page2pa (ppn va))⟩ := by
  have hf : ppn va < ramFrames := by
    rw [ppn, Nat.shiftRight_eq_div_pow, ramFrames]
    omega
  have hpage : va / by2pg = page2pa (ppn va) / by2pg := by
    rw [page2pa_eq, ppn, Nat.shiftRight_eq_div_pow, by2pg]
    omega
  obtain ⟨h1, h2⟩ := h.ident_upper (Or.inl hd) hf
  rw [translate_congr hpage, translate_ident hf h1 h2, h.mem_identPtr hf,
    if_pos (isTable_identDesc _ _), hwFrame_identDesc _ hf, identDesc_eq,
    or_and_fff _ (identAttrs_lt _ _)]

theorem KernelInv.kernelHalf {s₀ s : Kernel} {fl : List Slot} (hb : Booted L base s₀)
    (h : KernelInv L base s₀.phys.mem ρ fl s) : KernelHalf L s₀ s := by
  have hdir : ∀ e, s.Named e → ρ (s.envs e).envPgdir = .dir := fun e he =>
    h.dir e (he.elim h.not_mem_of_status (h.cur e))
  refine ⟨fun va => ?_, fun e va he hva => ?_, fun e va he hva => ?_, fun f hf => ?_,
    fun e va t he hva ht => ?_⟩
  · rw [h.pgDir, hb.pgDir]
    exact h.forest.translate_pgDir
  · rw [hb.pgDir]
    exact h.forest.translate_low (hdir e he) (not_le.mpr hva)
  · exact h.forest.translate_ram (hdir e he) hva
  · rw [hb.pgDir] at hf
    obtain ⟨hlo, hhi⟩ := h.forest.map.tableBelow hf
    exact h.forest.kernelMem f hlo hhi
  · have hd : s.dirs e = some (s.envs e).envPgdir :=
      Kernel.dirs_of_not_mem h.list (he.elim h.not_mem_of_status (h.cur e))
    obtain ⟨a, hm, _⟩ := h.forest.view_translate h.dirs hd hva ht
    have hpage := h.forest.toShape.page_of_maps h.dirs hm
    have hk : ¬ (t.frame < base ∨ npage ≤ t.frame) := by
      intro hk
      rw [(h.forest.kernel t.frame).mpr hk] at hpage
      exact hpage
    rw [Kernel.pool_iff hb]
    omega

/-- **The kernel is mapped alike for everybody, and owned by nobody else.**  In every state that a tame
run from boot on clean memory reaches. -/
theorem Kernel.kernel_half {ram : Mem} {s₀ s : Kernel} {es : List Event} (hclean : CleanRam L ram)
    (hboot : boot L ram = .ok s₀) (hr : Run step Tame s₀ es s) : KernelHalf L s₀ s := by
  obtain ⟨s₁, base, hb, hbooted, _⟩ := boot_ok hclean
  rw [hboot] at hb
  cases hb
  obtain ⟨ρ, fl, hi⟩ := (KernelInv.ofBooted hbooted).run hr
  exact hi.kernelHalf hbooted

/-- The first environment sees the text of the kernel where it was linked. -/
theorem Kernel.kernel_half_first : ∃ s : Kernel, s.TameReachable image coldRam ∧
    translate s.phys.mem (s.envs 0).envPgdir 0x80000
      = some ⟨0x80, identAttrs image 0x80000⟩ := by
  obtain ⟨s₀, s, base, ρ, hb, _, hr, n, _, h⟩ := firstEnv_reached .zero
  exact ⟨s, ⟨s₀, _, hb, hr⟩,
    (kernel_half cleanRam_coldRam hb hr).ram 0 0x80000 (Or.inr h.cur) (by decide)⟩

end RaspiOS
