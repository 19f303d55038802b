/-
# Which frames the allocator hands out

`page_init` puts every frame from `freemem` up to `npage` on the free list, and `npage` comes from
`mips_detect_memory`, which counts one gigabyte of memory.  `boot_mmu_setup` maps RAM up to
`0x3f000000` and devices above it, and the comment in `include/mmu.h` ends the free pages there
too.  The list is filled from the front, so the frames above `0x3f000000` are the ones that
`page_alloc` hands out first.

The operations of this module are the four calls of the page API, with any arguments.
-/
import RaspiOS.Progress

set_option autoImplicit false

namespace RaspiOS

open LinkedList

/-! ## 1. The page API as a transition system -/

/-- A call of the page API. -/
inductive PageOp where
  | alloc
  | free (pp : Nat)
  | insert (pud pp va perm : Nat)
  | remove (pud va : Nat)
deriving DecidableEq

/-- The state after a call; what it returned is not kept. -/
def Phys.pageStep (p : Phys) : PageOp → Except Halt Phys
  | .alloc =>
    match p.pageAlloc with
    | some (_, q) => .ok q
    | none => .ok p
  | .free pp => .ok (p.pageFree pp)
  | .insert pud pp va perm => (p.pageInsert pud pp va perm).map Prod.snd
  | .remove pud va => p.pageRemove pud va

/-- A call of `page_alloc` that finds a frame. -/
theorem Phys.pageStep_alloc {p q : Phys} {f : Nat} (h : p.pageAlloc = some (f, q)) :
    p.pageStep .alloc = .ok q := by
  simp only [pageStep, h]

/-! ## 2. `freemem` when boot is done -/

namespace Boot

/-- The frame `freemem` points to. -/
structure Aligned (F : Nat) (b : Boot) : Prop where
  freemem : b.freemem = by2pg * F
  lt : F < npage

theorem Aligned.of_alloc {b b' : Boot} {F k a : Nat} (hb : b.freemem = by2pg * F)
    (h : b.alloc (by2pg * k) by2pg = .ok (a, b')) : Aligned (F + k) b' := by
  rw [alloc_eq hb] at h
  split at h
  · cases h
  · rename_i hlt
    cases h
    exact ⟨rfl, not_le.mp hlt⟩

/-- `freemem` never goes down, and stays on a page boundary. -/
def Above (F : Nat) (b : Boot) : Prop := ∃ G, F ≤ G ∧ Aligned G b

/-- One level of the walk allocates a page or nothing. -/
theorem Above.descend {b b' : Boot} {F t : Nat} {a : Ptr} (hb : Above F b)
    (h : b.descend a = .ok (t, b')) : Above F b' := by
  obtain ⟨G, hle, hG⟩ := hb
  unfold Boot.descend at h
  split at h
  · cases h
    exact ⟨G, hle, hG⟩
  · obtain ⟨⟨c, b₁⟩, hc, h⟩ := Except.bind_eq_ok_iff.mp h
    cases h
    rw [← Nat.mul_one by2pg] at hc
    have h₁ := Aligned.of_alloc (k := 1) hG.freemem hc
    exact ⟨G + 1, by omega, ⟨h₁.freemem, h₁.lt⟩⟩

theorem Above.mapPage {b b' : Boot} {F pud va pa perm i : Nat} (hb : Above F b)
    (h : Boot.mapPage pud va pa perm b i = .ok b') : Above F b' := by
  obtain ⟨⟨a, b₂⟩, hwalk, h⟩ := Except.bind_eq_ok_iff.mp h
  cases h
  obtain ⟨⟨t, b₁⟩, h₁, hwalk⟩ := Except.bind_eq_ok_iff.mp hwalk
  obtain ⟨⟨u, b₃⟩, h₂, hwalk⟩ := Except.bind_eq_ok_iff.mp hwalk
  cases hwalk
  obtain ⟨G, hle, hG⟩ := (hb.descend h₁).descend h₂
  exact ⟨G, hle, ⟨hG.freemem, hG.lt⟩⟩

theorem Above.mapSegment {b b' : Boot} {F pud va size pa perm : Nat} (hb : Above F b)
    (h : b.mapSegment pud va size pa perm = .ok b') : Above F b' := by
  unfold Boot.mapSegment at h
  split at h
  · cases h
    exact hb
  · exact Except.foldlM_invariant (I := Above F) h hb fun _ _ _ _ hs hst => hs.mapPage hst

/-- **`freemem` after boot**, whatever memory holds: a page boundary above the tables of
`boot_mmu_setup` and below the end of memory. -/
theorem vmInit_freemem {L : Layout} {ram : Mem} {b : Boot}
    (h : vmInit L (mmuSetup L ram) = .ok b) : Above (L.pgDir + 507) b := by
  have hsize : npage * sizeofPage = by2pg * 1536 ∧ nenv * sizeofEnv = by2pg * 104 := by decide
  have hround : ∀ n, round (by2pg * n) by2pg = by2pg * n := round_mul
  rw [mmuSetup_eq L.fits, vmInit, hsize.1, hsize.2, hround, hround] at h
  obtain ⟨⟨a₁, b₁⟩, h₁, h⟩ := Except.bind_eq_ok_iff.mp h
  obtain ⟨c₁, k₁, h⟩ := Except.bind_eq_ok_iff.mp h
  obtain ⟨⟨a₂, b₂⟩, h₂, h⟩ := Except.bind_eq_ok_iff.mp h
  obtain ⟨c₂, k₂, h⟩ := Except.bind_eq_ok_iff.mp h
  obtain ⟨⟨a₃, b₃⟩, h₃, h⟩ := Except.bind_eq_ok_iff.mp h
  obtain ⟨c₃, k₃, h⟩ := Except.bind_eq_ok_iff.mp h
  obtain ⟨⟨a₄, b₄⟩, h₄, k₄⟩ := Except.bind_eq_ok_iff.mp h
  rw [← Nat.mul_one by2pg] at h₃ h₄
  have step : ∀ {F k a : Nat} {b b' : Boot}, Above F b → b.alloc (by2pg * k) by2pg = .ok (a, b') →
      Above F b' := by
    intro F k a b b' hb hok
    obtain ⟨G, hle, hG⟩ := hb
    exact ⟨G + k, by omega, Aligned.of_alloc hG.freemem hok⟩
  have hb₁ : Above (L.pgDir + 507) b₁ :=
    ⟨L.pgDir + 507 + 1536, by omega, Aligned.of_alloc rfl h₁⟩
  have hb₂ := step (hb₁.mapSegment k₁) h₂
  have hb₃ := step (hb₂.mapSegment k₂) h₃
  have hb₄ := step (hb₃.mapSegment k₃) h₄
  exact hb₄.mapSegment k₄

end Boot

/-! ## 3. The order in which frames are handed out -/

/-- **`page_alloc` counts down from the end of memory**: after `n` calls it returns frame
`npage - 1 - n`. -/
theorem alloc_order {b : Boot} {F : Nat} (hb : Boot.Aligned F b) : ∀ {n : Nat}, F + n < npage →
    ∃ p q, Run Phys.pageStep (fun _ _ => True) b.pageInit (List.replicate n .alloc) p ∧
      p.pageAlloc = some (npage - 1 - n, q) ∧
      IsList q.pageFreeList () (List.range' F (npage - 1 - n - F)).reverse := by
  intro n
  induction n with
  | zero =>
    intro hlt
    obtain ⟨_, _, hl⟩ := Boot.pageInit_spec hb.freemem hb.lt
    have hn : npage - F = (npage - 1 - F) + 1 := by omega
    have hlast : F + (npage - 1 - F) = npage - 1 := by omega
    rw [hn, List.range'_1_concat, List.reverse_append, hlast] at hl
    obtain ⟨q, hq, hlq⟩ := Phys.pageAlloc_cons hl
    exact ⟨b.pageInit, q, .nil, hq, hlq⟩
  | succ n ih =>
    intro hlt
    obtain ⟨p, q, hr, hq, hl⟩ := ih (by omega)
    have hn : npage - 1 - n - F = (npage - 1 - (n + 1) - F) + 1 := by omega
    have hlast : F + (npage - 1 - (n + 1) - F) = npage - 1 - (n + 1) := by omega
    rw [hn, List.range'_1_concat, List.reverse_append, hlast] at hl
    obtain ⟨q', hq', hlq⟩ := Phys.pageAlloc_cons hl
    refine ⟨q, q', ?_, hq', hlq⟩
    rw [List.replicate_succ']
    exact hr.andThen .alloc (Phys.pageStep_alloc hq) trivial

/-! ## 4. The pool and the memory map -/

/-- Frame `f` lies between `freemem` and the device window. -/
def InRam (freemem f : Nat) : Prop :=
  freemem ≤ page2pa f ∧ page2pa f + by2pg ≤ 0x3f000000

/-- Whatever is called after `page_init`, `page_alloc` returns frames of ordinary memory. -/
def PoolIsRam (b : Boot) : Prop :=
  ∀ es p f q, Run Phys.pageStep (fun _ _ => True) b.pageInit es p → p.pageAlloc = some (f, q) →
    InRam (round b.freemem by2pg) f

/-- The first frame is the last page of the device window. -/
theorem Boot.Aligned.not_poolIsRam {b : Boot} {F : Nat} (hb : Aligned F b) : ¬ PoolIsRam b := by
  intro h
  obtain ⟨p, q, hr, hq, _⟩ := alloc_order hb (n := 0) hb.lt
  have hram := (h _ p _ q hr hq).2
  rw [page2pa_eq] at hram
  simp only [npage, by2pg] at hram
  omega

/-- **After every boot the pool contains the device window**, and `page_alloc` hands it out first. -/
theorem pool_never_ram {L : Layout} {ram : Mem} {b : Boot}
    (h : Boot.vmInit L (Boot.mmuSetup L ram) = .ok b) : ¬ PoolIsRam b := by
  obtain ⟨F, _, hF⟩ := Boot.vmInit_freemem h
  exact hF.not_poolIsRam

/-- Boot from cold memory gets as far as `page_init`. -/
theorem vmInit_cold : ∃ b, Boot.vmInit image (Boot.mmuSetup image coldRam) = .ok b := by
  obtain ⟨hf, hm⟩ := Boot.mmuSetup_spec cleanRam_coldRam
  rcases Boot.vmInit_ends hf hm with ⟨hn, _⟩ | ⟨b, _, hb, _⟩
  · exact absurd hn (by decide)
  · exact ⟨b, hb⟩

/-- On cold memory. -/
theorem pool_never_ram_cold : ∃ b, Boot.vmInit image (Boot.mmuSetup image coldRam) = .ok b ∧
    ¬ PoolIsRam b := by
  obtain ⟨b, hb⟩ := vmInit_cold
  exact ⟨b, hb, pool_never_ram hb⟩

/-- The law fails on cold memory. -/
theorem pool_not_ram : ¬ ∀ (L : Layout) (ram : Mem) (b : Boot),
    Boot.vmInit L (Boot.mmuSetup L ram) = .ok b → PoolIsRam b := by
  intro h
  obtain ⟨b, hb⟩ := vmInit_cold
  obtain ⟨F, _, hF⟩ := Boot.vmInit_freemem hb
  exact hF.not_poolIsRam (h image coldRam b hb)

end RaspiOS
