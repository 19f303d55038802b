/-
# What `sys_env_alloc` copies

The loop of `sys_env_alloc` takes a frame for each page of the caller's stack, copies the page into
it and calls `page_insert`, whose result it does not read.  `page_insert` may fail for want of a
frame for a table.  Then the pool is empty, so the next round of the loop notices; but the last
round has no next.  All pages of a stack of two pages or more share the tables the first round has
made, so the only stack with this hole is the stack of one page, with two or three frames left:
one for the directory, one for the page, and not two for its tables.

`Copied` says what the loop has done (`forkStack_copied`).  `fork_faithful_iff` is the exact
condition under which a child that is reported is a faithful one.
-/
import RaspiOS.Progress

set_option autoImplicit false

namespace RaspiOS

open LinkedList

/-! ## 1. Pages -/

/-- Addresses in different pages. -/
theorem pageOf_ne {va va' : Nat} (hva : va < 2 ^ 39) (hva' : va' < 2 ^ 39)
    (hne : va / by2pg ≠ va' / by2pg) : pageOf va ≠ pageOf va' := by
  intro he
  simp only [pageOf, Prod.mk.injEq, Fin.ext_iff, pudx_val, pmdx_val, ptex_val] at he
  simp only [by2pg] at hne
  omega

/-- Different pages of a stack. -/
theorem pageOf_stack_ne {va n i j : Nat} (htop : va + n * by2pg ≤ ustacktop) (hi : i < n) (hj : j < n)
    (hij : i ≠ j) : pageOf (va + i * by2pg) ≠ pageOf (va + j * by2pg) := by
  have hval : ustacktop = 0xdfffe000 := by decide
  rw [hval] at htop
  simp only [by2pg] at htop
  refine pageOf_ne ?_ ?_ ?_
  all_goals
    simp only [by2pg]
    omega

/-- Addresses in the same page have the same translation. -/
theorem translate_congr {m : Mem} {d va va' : Nat} (h : va / by2pg = va' / by2pg) :
    translate m d va = translate m d va' := by
  have h1 : pudx va = pudx va' := by
    ext
    simp only [pudx_val, by2pg] at h ⊢
    omega
  have h2 : pmdx va = pmdx va' := by
    ext
    simp only [pmdx_val, by2pg] at h ⊢
    omega
  have h3 : ptex va = ptex va' := by
    ext
    simp only [ptex_val, by2pg] at h ⊢
    omega
  have h4 : va >>> 12 = va' >>> 12 := by
    simp only [by2pg] at h
    rw [Nat.shiftRight_eq_div_pow, Nat.shiftRight_eq_div_pow]
    exact h
  have h5 : va < 2 ^ 39 ↔ va' < 2 ^ 39 := by
    simp only [by2pg] at h
    omega
  simp only [translate, translatePmd, translateLeaf, h1, h2, h3, h4, h5]

/-! ## 2. The loop -/

/-- **`n` pages from `va` on have been copied** from the address space of `active` to that of
`child`, into frames that were free. -/
structure Copied (L : Layout) (base : Nat) (km : Mem) (ρ : Nat → Role) (p : Phys)
    (active child va n : Nat) (ρ' : Nat → Role) (p' : Phys) : Prop where
  forest : Forest L base km ρ' p'
  frame : Local ρ child p ρ' p'
  keeps : Keeps ρ ρ'
  space : ∀ g : Page, 2 ≤ g.1.val → (∀ k < n, g ≠ pageOf (va + k * by2pg)) →
    space p'.mem child g = space p.mem child g
  copy : ∀ k < n, ∃ f t, RaspiOS.space p'.mem child (pageOf (va + k * by2pg))
      = some (leafDesc f pteV) ∧ ρ f = .free ∧
    translate p.mem active (va + k * by2pg) = some t ∧ p'.mem f = p.mem t.frame

section Loop

variable {L : Layout} {base : Nat} {km : Mem} {ρ ρ₁ ρ' : Nat → Role} {p p₁ p' : Phys}
  {active child va n : Nat}

theorem Copied.zero (h : Forest L base km ρ p) (active child va : Nat) :
    Copied L base km ρ p active child va 0 ρ p :=
  ⟨h, Local.refl ρ child p, fun _ _ => rfl, fun _ _ _ => rfl,
    fun k hk => absurd hk (Nat.not_lt_zero k)⟩

/-- A page is in no directory. -/
theorem Role.IsPage.not_owns {d f : Nat} (hf : (ρ f).IsPage) (hd : ρ d = .dir) : ¬ Owns ρ d f := by
  rintro (rfl | ⟨i, hi⟩ | ⟨t, j, i, hj, _⟩)
  · rw [hd] at hf
    exact hf
  · rw [hi] at hf
    exact hf
  · rw [hj] at hf
    exact hf

theorem Role.IsPage.ne_free {f : Nat} (hf : (ρ f).IsPage) : ρ f ≠ .free := by
  intro hfree
  rw [hfree] at hf
  exact hf

/-- **One page, then the others.** -/
theorem Copied.cons (h : Forest L base km ρ p) (ha : ρ active = .dir) (hc : ρ child = .dir)
    (hne : active ≠ child) (hlo : 0x80000000 ≤ va) (hhi : va + (n + 1) * by2pg ≤ ustacktop)
    (h1 : Copied L base km ρ p active child va 1 ρ₁ p₁)
    (h2 : Copied L base km ρ₁ p₁ active child (va + by2pg) n ρ' p') :
    Copied L base km ρ p active child va (n + 1) ρ' p' := by
  have hnext : ∀ k, va + by2pg + k * by2pg = va + (k + 1) * by2pg := by
    intro k
    rw [Nat.add_mul, Nat.one_mul]
    omega
  have hc1 : ρ₁ child = .dir := h1.frame.dirsKept child hc
  refine ⟨h2.forest, h1.frame.trans h.toShape h1.keeps h2.frame, h1.keeps.trans h2.keeps, ?_, ?_⟩
  · intro g hg hout
    rw [h2.space g hg, h1.space g hg]
    · intro k hk
      exact hout k (by omega)
    · intro k hk
      rw [hnext]
      exact hout (k + 1) (by omega)
  · intro k hk
    rcases k with _ | k
    · -- the first page: later rounds leave its leaf and its frame alone
      obtain ⟨f, t, hs, hf, ht, hm⟩ := h1.copy 0 Nat.one_pos
      rw [Nat.zero_mul, Nat.add_zero] at hs ht ⊢
      have hva : UserVa va := userVa_stack hlo (by simp only [by2pg] at hhi; omega)
      have hpage : (ρ₁ f).IsPage := by
        have h3 := (h1.forest.page_of_space (g := pageOf va) hc1 hva hs).2
        rwa [permOk_pteV f] at h3
      refine ⟨f, t, ?_, hf, ht, ?_⟩
      · rw [h2.space (pageOf va) hva, hs]
        intro j hj
        rw [hnext]
        have hpage := pageOf_stack_ne hhi (Nat.succ_pos n) (Nat.succ_lt_succ hj) (Nat.succ_ne_zero j).symm
        rwa [Nat.zero_mul, Nat.add_zero] at hpage
      · rw [h2.frame.mem f hpage.ne_free (hpage.not_owns hc1), hm]
    · obtain ⟨f, t, hs, hf, ht, hm⟩ := h2.copy k (by omega)
      rw [hnext] at hs ht
      have hva : UserVa (va + (k + 1) * by2pg) := by
        refine userVa_stack (by omega) ?_
        simp only [by2pg] at hhi ⊢
        omega
      rw [h1.frame.translate_other h h1.forest hc ha hne] at ht
      have hpage := h.page_of_translate ha hva ht
      refine ⟨f, t, hs, ?_, ht, ?_⟩
      · by_contra hf'
        rw [h1.keeps f hf'] at hf
        exact hf' hf
      · rw [hm, h1.frame.mem _ hpage.ne_free (hpage.not_owns hc)]

/-- A frame is taken and the page copied into it. -/
theorem copyFrame (h : Forest L base km ρ p) (ha : ρ active = .dir) (hva : UserVa va) {pp : Nat}
    {q q₁ : Phys} (hq : p.pageAlloc = some (pp, q))
    (hb : Kernel.bcopyPage q active va pp = .ok q₁) :
    ∃ t, translate p.mem active va = some t ∧ q₁.mem pp = p.mem t.frame ∧
      (∀ g, g ≠ pp → q₁.mem g = p.mem g) ∧
      Forest L base km (Function.update ρ pp .data) q₁ ∧ q₁.ppRef pp = 0 ∧
      q₁.pageFreeList = q.pageFreeList := by
  obtain ⟨h1, _, hfree, href, hmem⟩ := KernelInv.take_spec h hq
  unfold Kernel.bcopyPage at hb
  split at hb
  · cases hb
  rename_i t ht
  cases hb
  rw [KernelInv.take_translate h hq ha] at ht
  have htpp : t.frame ≠ pp := by
    intro he
    have hpage := h.page_of_translate ha hva ht
    rw [he, hfree] at hpage
    exact hpage
  have hcopy : ∀ g, g ≠ pp → (q.copyPage t.frame pp).mem g = q.mem g := by
    intro g hg
    funext i
    exact if_neg hg
  refine ⟨t, ht, ?_, fun g hg => (hcopy g hg).trans (hmem g hg), ?_, href, rfl⟩
  · funext i
    rw [← hmem _ htpp]
    exact if_pos rfl
  · exact h1.write (by rw [Function.update_self]; trivial) hcopy

/-- **One round of the loop**: the page is copied, or memory has run out between the frame for it
and the frames for its tables. -/
theorem copyRound (h : Forest L base km ρ p) (ha : ρ active = .dir) (hc : ρ child = .dir)
    (hva : UserVa va) (hnone : space p.mem child (pageOf va) = none) {pp : Nat} {q q₁ q₂ : Phys}
    {r : Int} (hq : p.pageAlloc = some (pp, q)) (hb : Kernel.bcopyPage q active va pp = .ok q₁)
    (hi : q₁.pageInsert child pp va pteV = .ok (r, q₂)) :
    ∃ ρ', Copied L base km ρ p active child va 1 ρ' q₂ ∧
        (¬ Valid (p.mem child (pudx va)) → ∀ l, IsList p.pageFreeList () l → 3 ≤ l.length) ∨
      Forest L base km ρ' q₂ ∧ ρ' child = .dir ∧ space q₂.mem child (pageOf va) = none ∧
        q₂.pageFreeList.first () = none ∧ (∀ u, ¬ Leads ρ child (pageOf va) u) ∧
        ∀ l, IsList p.pageFreeList () l → l.length ≤ 2 := by
  obtain ⟨t, ht, hfull, hmem, h1, href, hlist⟩ := copyFrame h ha hva hq hb
  have hfree := h.first_free (Phys.pageAlloc_eq_some hq).1
  obtain ⟨hl1, hk1⟩ := KernelInv.unused_local hfree hmem child
  have hc1 := hl1.dirsKept child hc
  have hspace := fun g hg => KernelInv.unused_space (g := g) hfree hmem h h1 (by simp) hc hg
  have hpp : (Function.update ρ pp Role.data pp).IsPage := by
    rw [Function.update_self]
    trivial
  have hnext : ∀ l, IsList p.pageFreeList () l →
      ∃ l', l = pp :: l' ∧ IsList q₁.pageFreeList () l' := by
    intro l hl
    rw [hlist]
    exact Phys.pageAlloc_list hq hl
  rcases h1.pageInsert hc1 hva hpp (by rw [href]; decide) (permOk_pteV pp) with
    ⟨ρ2, p2, he, hins⟩ | ⟨n, ρ2, p2, he, hg, hn, hnil, hlead⟩
  · rw [hi] at he
    cases he
    obtain ⟨hk2, n, _, htwo, htaken⟩ :=
      hins.fresh (by rw [hspace (pageOf va) hva, hnone])
    refine ⟨ρ2, Or.inl ⟨⟨hins.forest, hl1.trans h.toShape hk1 hins.frame, hk1.trans hk2, ?_, ?_⟩,
      ?_⟩⟩
    · intro g hg hout
      have hgva := hout 0 Nat.one_pos
      rw [Nat.zero_mul, Nat.add_zero] at hgva
      rw [hins.space g hg, if_neg hgva, hspace g hg]
    · intro k hk
      obtain rfl : k = 0 := by omega
      rw [Nat.zero_mul, Nat.add_zero]
      refine ⟨pp, t, by rw [hins.space (pageOf va) hva, if_pos rfl], hfree, ht, ?_⟩
      rw [hins.frame.mem pp hpp.ne_free (hpp.not_owns hc1), hfull]
    · -- an empty directory needs two tables
      intro hv l hl
      obtain ⟨l', rfl, hl'⟩ := hnext l hl
      have hrow : q₁.mem child = p.mem child := by
        refine hmem child ?_
        rintro rfl
        rw [hfree] at hc
        cases hc
      have hn2 : n = 2 := htwo (by rw [hrow]; exact hv)
      have hle := (htaken l' hl').1
      rw [List.length_cons]
      omega
  · rw [hi] at he
    cases he
    refine ⟨ρ2, Or.inr ⟨hg.forest, hg.frame.dirsKept child hc1, ?_, hnil, ?_, ?_⟩⟩
    · rw [hg.space child (pageOf va) hc1 hva, hspace (pageOf va) hva, hnone]
    · exact fun u hu => hlead u (hu.of_local hl1)
    · intro l hl
      obtain ⟨l', rfl, hl'⟩ := hnext l hl
      obtain ⟨hle, hdrop⟩ := hg.taken l' hl'
      rw [hdrop.first_eq_none_iff, List.drop_eq_nil_iff] at hnil
      rw [List.length_cons]
      omega

/-- **The loop that ends without an error has copied the whole stack**, if it does not start in the
last page, or finds the tables for that page there, or does not run out of frames for them. -/
theorem forkStack_copied {active child : Nat} : ∀ {n va : Nat} {p p' : Phys} {ρ : Nat → Role}
    {v : Int}, Forest L base km ρ p → ρ active = .dir → ρ child = .dir → active ≠ child →
    0x80000000 ≤ va → va + n * by2pg = ustacktop →
    (∀ k < n, space p.mem child (pageOf (va + k * by2pg)) = none) →
    (n = 1 → (∃ u, Leads ρ child (pageOf va) u) ∨
      ∀ l, IsList p.pageFreeList () l → l.length ≠ 1 ∧ l.length ≠ 2) →
    Kernel.forkStack active child n va p = .ok (v, p') → ¬ v < 0 →
    ∃ ρ', Copied L base km ρ p active child va n ρ' p'
  | 0, va, p, p', ρ, v, h, _, _, _, _, _, _, _, he, _ => by
    cases he
    exact ⟨ρ, Copied.zero h active child va⟩
  | n + 1, va, p, p', ρ, v, h, ha, hc, hne, hlo, htop, hnone, hroom, he, hv => by
    have hpos : by2pg = 4096 := rfl
    have hua : UserVa va := userVa_stack hlo (by rw [← htop, Nat.add_mul]; omega)
    have hnone0 : space p.mem child (pageOf va) = none := by
      have h0 := hnone 0 (Nat.succ_pos n)
      rwa [Nat.zero_mul, Nat.add_zero] at h0
    have hnext : ∀ k, va + by2pg + k * by2pg = va + (k + 1) * by2pg := by
      intro k
      rw [Nat.add_mul, Nat.one_mul]
      omega
    unfold Kernel.forkStack at he
    split at he
    · cases he
      exact absurd (by decide) hv
    rename_i pp q hq
    obtain ⟨q₁, hb, he1⟩ := Except.bind_eq_ok_iff.mp he
    obtain ⟨⟨r, q₂⟩, hi, he2⟩ := Except.bind_eq_ok_iff.mp he1
    obtain ⟨ρ₁, ⟨h1, _⟩ | ⟨_, _, _, hnil, hlead, hshort⟩⟩ :=
      copyRound h ha hc hua hnone0 hq hb hi
    · have hc1 := h1.frame.dirsKept child hc
      have ha1 := h1.frame.dirsKept active ha
      have hrest : ∀ k < n, space q₂.mem child (pageOf (va + by2pg + k * by2pg)) = none := by
        intro k hk
        have hk1 := hnone (k + 1) (by omega)
        rw [hnext, h1.space, hk1]
        · exact userVa_stack (by omega) (by rw [← htop]; simp only [hpos]; omega)
        · intro j hj
          exact pageOf_stack_ne htop.le (Nat.succ_lt_succ hk) (by omega) (by omega)
      -- if one page is left, it hangs in the tables of the page just copied
      have hlast : n = 1 → (∃ u, Leads ρ₁ child (pageOf (va + by2pg)) u) ∨
          ∀ l, IsList q₂.pageFreeList () l → l.length ≠ 1 ∧ l.length ≠ 2 := by
        rintro rfl
        left
        obtain ⟨f, _, hs, _⟩ := h1.copy 0 Nat.one_pos
        rw [Nat.zero_mul, Nat.add_zero] at hs
        obtain ⟨u, hu, _⟩ := h1.forest.leads_of_space (g := pageOf va) hc1 hua hs
        have hva : va = ustacktop - 2 * by2pg := by omega
        rw [hva] at hu ⊢
        exact ⟨u, hu⟩
      obtain ⟨ρ', h2⟩ := forkStack_copied h1.forest ha1 hc1 hne (by omega)
        (by rw [hnext, htop]) hrest hlast he2 hv
      exact ⟨ρ', Copied.cons h ha hc hne hlo (by rw [htop]) h1 h2⟩
    · rcases n with _ | n
      · rcases hroom rfl with ⟨u, hu⟩ | hl
        · exact absurd hu (hlead u)
        · obtain ⟨l, hl', _⟩ := h.pages
          obtain ⟨l', rfl, _⟩ := Phys.pageAlloc_list hq hl'
          have h2 := hshort _ hl'
          have h3 := hl _ hl'
          rw [List.length_cons] at h2 h3
          omega
      · -- the next round finds the pool empty
        dsimp only at he2
        unfold Kernel.forkStack at he2
        rw [Phys.pageAlloc_eq_none.mpr hnil] at he2
        cases he2
        exact absurd (by decide) hv

end Loop

/-! ## 3. The call -/

namespace Kernel

/-- The state in which a handler starts. -/
def trapped (s : Kernel) (r : Regs) : Kernel := { s with kernelFrame := saveall syncStack r }

/-- A system call when somebody runs. -/
theorem svc_of_cur {s : Kernel} {c : Slot} (hc : s.curenv = some c) (r : Regs) (call : Syscall) :
    s.svc r call = (s.trapped r).syscall call := by
  unfold svc
  rw [if_neg (by rw [hc]; simp)]
  rfl

/-- The user stack of `c` is mapped, from the page of `sp` up. -/
def StackMapped (s : Kernel) (c : Slot) (sp : Nat) : Prop :=
  ∀ va, rounddown sp by2pg ≤ va → va < ustacktop →
    ∃ t, translate s.phys.mem (s.envs c).envPgdir va = some t

/-- **A faithful child**: `RUNNABLE`, with the frame of the caller but for the result, and with a
copy of every page of the caller's stack in a frame of its own. -/
structure ForkFaithful (s s' : Kernel) (c e : Slot) : Prop where
  status : (s'.envs e).envStatus = .runnable
  frame : (s'.envs e).envTf
    = { s.kernelFrame with x := fun i => if i = 0 then 0 else s.kernelFrame.x i }
  stack : ∀ va, rounddown s.kernelFrame.sp by2pg ≤ va → va < ustacktop →
    ∃ t t', translate s.phys.mem (s.envs c).envPgdir va = some t ∧
      translate s'.phys.mem (s'.envs e).envPgdir va = some t' ∧
      t'.frame ≠ t.frame ∧ s'.phys.mem t'.frame = s.phys.mem t.frame

/-- The stack is one page, and there are frames for the directory and for the page, but not for
both of its tables. -/
def ForkStarved (s : Kernel) (sp : Nat) : Prop :=
  rounddown sp by2pg = ustacktop - by2pg ∧ s.envFreeList.first () ≠ none ∧
    ∃ l, IsList s.phys.pageFreeList () l ∧ (l.length = 2 ∨ l.length = 3)

end Kernel

namespace KernelInv

variable {L : Layout} {base : Nat} {km : Mem} {ρ : Nat → Role} {fl : List Slot} {s s' : Kernel}
  {c e : Slot} {r : Regs}

/-- The addresses of the stack, page by page. -/
theorem stack_top {sp : Nat} (hhi : sp ≤ ustacktop) :
    rounddown sp by2pg + (ustacktop - rounddown sp by2pg) / by2pg * by2pg = ustacktop := by
  have htop : ustacktop = 917502 * by2pg := by decide
  rw [htop] at hhi ⊢
  simp only [rounddown, by2pg] at hhi ⊢
  omega

theorem le_rounddown {sp : Nat} (hlo : 0xc0000000 ≤ sp) :
    0x80000000 ≤ rounddown sp by2pg := by
  simp only [rounddown, by2pg]
  omega

/-- The page an address of the stack lies in. -/
theorem stack_page {b va n : Nat} (hb : b % by2pg = 0) (hlo : b ≤ va) (hhi : va < b + n * by2pg) :
    (va - b) / by2pg < n ∧ va / by2pg = (b + (va - b) / by2pg * by2pg) / by2pg := by
  constructor <;> simp only [by2pg] at hb hhi ⊢ <;> omega

/-- **A child whose stack has been copied is faithful.** -/
theorem copied_faithful (h : KernelInv L base km ρ fl s) (hc : s.curenv = some c)
    (hlo : 0x80000000 ≤ r.spEl0) {p : Nat} {q phys : Phys} {ρ' : Nat → Role}
    (hq : s.phys.pageAlloc = some (p, q))
    (hcp : Copied L base km (Function.update ρ p .dir) ((q.incRef p).copyPage L.pgDir p)
      (s.envs c).envPgdir p (rounddown r.spEl0 by2pg)
      ((ustacktop - rounddown r.spEl0 by2pg) / by2pg) ρ' phys) :
    Kernel.ForkFaithful (s.trapped r) ((s.trapped r).forked c e p phys .runnable) c e := by
  have hd := h.dir c (h.cur c hc)
  obtain ⟨h1, hk1, hfree⟩ := setupVm_spec h.forest hq
  have hp : Function.update ρ p .dir p = .dir := Function.update_self _ _ _
  refine ⟨by simp, by simp, fun va hva hvat => ?_⟩
  rw [Kernel.phys_forked, Kernel.envPgdir_forked]
  have hb : rounddown r.spEl0 by2pg % by2pg = 0 := by
    simp only [rounddown, by2pg]
    omega
  have hhi : r.spEl0 ≤ ustacktop := by
    have hval : ustacktop = 0xdfffe000 := by decide
    have hlt : rounddown r.spEl0 by2pg < ustacktop := lt_of_le_of_lt hva hvat
    rw [hval] at hlt ⊢
    simp only [rounddown, by2pg] at hlt
    omega
  obtain ⟨hk, hpage⟩ := stack_page hb hva (by rw [stack_top hhi]; exact hvat)
  obtain ⟨f, t, hs, hff, ht, hm⟩ := hcp.copy _ hk
  have hk' := fork_userVa hlo _ hk
  -- the page the caller has there
  rw [unused_translate hfree (fun _ hg => setupVm_mem h.forest hq hg) h.forest h1 (by simp) _ hd]
    at ht
  have htpage := h.forest.page_of_translate hd hk' ht
  have htp : t.frame ≠ p := by
    intro he
    rw [he, hfree] at htpage
    exact htpage
  have hfp : ρ f = .free := (role_of_update (by simp) hff).2
  -- the page the child has there
  have ht' : translate phys.mem p (rounddown r.spEl0 by2pg
      + (va - rounddown r.spEl0 by2pg) / by2pg * by2pg) = some ⟨f, leafDesc f pteV &&& 0xfff⟩ := by
    have h39 : va < 2 ^ 39 := lt_trans hvat (by decide)
    rw [hcp.forest.translate_user (hcp.frame.dirsKept p hp) hk', if_pos, hs, Option.map_some,
      permOk_pteV f]
    simp only [by2pg] at hpage ⊢
    omega
  refine ⟨t, _, (translate_congr hpage).trans ht, (translate_congr hpage).trans ht', ?_, ?_⟩
  · rintro rfl
    rw [hfp] at htpage
    exact htpage
  · exact hm.trans (setupVm_mem h.forest hq htp)

/-- **A reported child is faithful**, unless the pool runs dry in the only round. -/
theorem fork_faithful (h : KernelInv L base km ρ fl s) (hc : s.curenv = some c)
    (hlo : 0xc0000000 ≤ r.spEl0) (hhi : r.spEl0 ≤ ustacktop)
    (hf : (s.trapped r).forkEnv c = .ok (.inr e, s')) (hroom : ¬ s.ForkStarved r.spEl0) :
    Kernel.ForkFaithful (s.trapped r) s' c e := by
  rcases Kernel.forkEnv_ok hf with ⟨hr, _⟩ | ⟨e', p, q, v, phys, hfirst, hq, hstack, hr, rfl⟩
  · cases hr
  by_cases hv : v < 0
  · rw [if_pos hv] at hr
    cases hr
  rw [if_neg hv] at hr
  cases hr
  have hd := h.dir c (h.cur c hc)
  obtain ⟨h1, hk1, hfree⟩ := setupVm_spec h.forest hq
  have hp : Function.update ρ p .dir p = .dir := Function.update_self _ _ _
  have hne : (s.envs c).envPgdir ≠ p := by
    intro he
    rw [he, hfree] at hd
    cases hd
  have hpgdir : (s.trapped r).pgDir = L.pgDir := h.pgDir
  rw [hpgdir] at hstack
  have hsp : (s.trapped r).kernelFrame.sp = r.spEl0 := rfl
  rw [hsp] at hstack
  have hlast : (ustacktop - rounddown r.spEl0 by2pg) / by2pg = 1 →
      (∃ u, Leads (Function.update ρ p .dir) p (pageOf (rounddown r.spEl0 by2pg)) u) ∨
      ∀ l, IsList ((q.incRef p).copyPage L.pgDir p).pageFreeList () l →
        l.length ≠ 1 ∧ l.length ≠ 2 := by
    intro hone
    right
    intro l hl
    obtain ⟨l₀, hl₀, _⟩ := h.forest.pages
    obtain ⟨l', rfl, hl'⟩ := Phys.pageAlloc_list hq hl₀
    obtain rfl := hl.unique hl'
    have htop := stack_top hhi
    rw [hone] at htop
    have hlen : ∀ k, (p :: l).length = k → k ≠ 2 ∧ k ≠ 3 := by
      rintro k hk
      constructor
      · rintro rfl
        exact hroom ⟨by omega, by rw [show s.envFreeList.first () = some e from hfirst]; simp,
          _, hl₀, Or.inl hk⟩
      · rintro rfl
        exact hroom ⟨by omega, by rw [show s.envFreeList.first () = some e from hfirst]; simp,
          _, hl₀, Or.inr hk⟩
    have h2 := hlen _ rfl
    rw [List.length_cons] at h2
    omega
  obtain ⟨ρ', hcp⟩ := forkStack_copied h1 (hk1 _ hd) hp hne (le_rounddown hlo) (stack_top hhi)
    (fun k hk => setupVm_space h.forest hq (fork_userVa (by omega) k hk)) hlast hstack hv
  rw [if_neg hv]
  exact h.copied_faithful hc (by omega) hq hcp

/-- The call when the stack is one page and there are frames for the directory and the page: it
always reports a child, whatever becomes of the tables for the page. -/
theorem fork_onePage (h : KernelInv L base km ρ fl s) (hc : s.curenv = some c)
    (hsp : rounddown r.spEl0 by2pg = ustacktop - by2pg) (hst : s.StackMapped c r.spEl0)
    (he : s.envFreeList.first () = some e) {p pp : Nat} {l : List Nat}
    (hl : IsList s.phys.pageFreeList () (p :: pp :: l)) :
    ∃ q q₂ ρ', s.phys.pageAlloc = some (p, q) ∧
      (s.trapped r).forkEnv c = .ok (.inr e, (s.trapped r).forked c e p q₂ .runnable) ∧
      (Copied L base km (Function.update ρ p .dir) ((q.incRef p).copyPage L.pgDir p)
          (s.envs c).envPgdir p (ustacktop - by2pg) 1 ρ' q₂ ∧ 2 ≤ l.length ∨
        Forest L base km ρ' q₂ ∧ ρ' p = .dir ∧
          space q₂.mem p (pageOf (ustacktop - by2pg)) = none ∧ l.length ≤ 1) := by
  have hd := h.dir c (h.cur c hc)
  have hua : UserVa (ustacktop - by2pg) := by
    unfold UserVa
    decide
  -- the directory
  obtain ⟨q, hq, hlq⟩ := Phys.pageAlloc_cons hl
  obtain ⟨h1, hk1, hfree⟩ := setupVm_spec h.forest hq
  have hp : Function.update ρ p .dir p = .dir := Function.update_self _ _ _
  -- the page
  obtain ⟨q₁, hq₁, _⟩ := Phys.pageAlloc_cons (p := (q.incRef p).copyPage L.pgDir p) hlq
  obtain ⟨t, ht⟩ := hst (ustacktop - by2pg) (by rw [hsp]) (by decide)
  rw [← unused_translate hfree (fun _ hg => setupVm_mem h.forest hq hg) h.forest h1 (by simp) _ hd,
    ← take_translate h1 hq₁ (hk1 _ hd)] at ht
  have hb : Kernel.bcopyPage q₁ (s.envs c).envPgdir (ustacktop - by2pg) pp
      = .ok (q₁.copyPage t.frame pp) := by
    simp only [Kernel.bcopyPage, ht]
  obtain ⟨_, _, _, _, h2, href, _⟩ := copyFrame h1 (hk1 _ hd) hua hq₁ hb
  -- its tables
  obtain ⟨v, q₂, hi⟩ : ∃ v q₂, (q₁.copyPage t.frame pp).pageInsert p pp (ustacktop - by2pg) pteV
      = .ok (v, q₂) := by
    have hp2 : Function.update (Function.update ρ p .dir) pp .data p = .dir :=
      (take_spec h1 hq₁).2.1 p hp
    rcases h2.pageInsert hp2 hua (by rw [Function.update_self]; trivial)
      (by rw [href]; decide) (permOk_pteV pp) with ⟨_, q₂, hi, _⟩ | ⟨_, _, q₂, hi, _⟩
    · exact ⟨_, q₂, hi⟩
    · exact ⟨_, q₂, hi⟩
  have hloop : Kernel.forkStack (s.envs c).envPgdir p
      ((ustacktop - rounddown r.spEl0 by2pg) / by2pg) (rounddown r.spEl0 by2pg)
      ((q.incRef p).copyPage L.pgDir p) = .ok (0, q₂) := by
    have hone : (ustacktop - (ustacktop - by2pg)) / by2pg = 1 := by decide
    rw [hsp, hone]
    simp only [Kernel.forkStack, hq₁, hb, hi, bind, Except.bind]
  have hpg : (s.trapped r).pgDir = L.pgDir := h.pgDir
  rw [← hpg] at hloop
  have hfork := Kernel.forkEnv_eq (s := s.trapped r) he hq hloop (by decide)
  obtain ⟨ρ', ⟨hcopied, hshort⟩ | ⟨h3, hd3, hnone, _, _, hlong⟩⟩ :=
    copyRound h1 (hk1 _ hd) hp hua (setupVm_space h.forest hq hua) hq₁ hb hi
  · have h3 := hshort (setupVm_row h.forest hq hua) _ hlq
    rw [List.length_cons] at h3
    exact ⟨q, q₂, ρ', hq, hfork, Or.inl ⟨hcopied, by omega⟩⟩
  · have h4 := hlong _ hlq
    rw [List.length_cons] at h4
    exact ⟨q, q₂, ρ', hq, hfork, Or.inr ⟨h3, hd3, hnone, by omega⟩⟩

/-- **A starved call reports a child without a stack.** -/
theorem fork_starved (h : KernelInv L base km ρ fl s) (hc : s.curenv = some c)
    (hst : s.StackMapped c r.spEl0) (hroom : s.ForkStarved r.spEl0) :
    ∃ e s', (s.trapped r).forkEnv c = .ok (.inr e, s') ∧
      ¬ Kernel.ForkFaithful (s.trapped r) s' c e := by
  obtain ⟨hsp, hslot, l, hl, hlen⟩ := hroom
  obtain ⟨e, he⟩ := Option.ne_none_iff_exists'.mp hslot
  rcases l with _ | ⟨p, _ | ⟨pp, l⟩⟩
  · simp at hlen
  · simp at hlen
  obtain ⟨q, q₂, ρ', _, hfork, ⟨_, hlong⟩ | ⟨h3, hd3, hnone, _⟩⟩ := h.fork_onePage hc hsp hst he hl
  · simp only [List.length_cons] at hlen
    omega
  refine ⟨e, _, hfork, fun hfaith => ?_⟩
  obtain ⟨_, t', _, ht', _⟩ := hfaith.stack (ustacktop - by2pg) (by
    show rounddown r.spEl0 by2pg ≤ _
    rw [hsp]) (by decide)
  have hua : 2 ≤ (pudx (ustacktop - by2pg)).val := by decide
  rw [Kernel.phys_forked, Kernel.envPgdir_forked, h3.translate_user hd3 hua, hnone] at ht'
  simp at ht'

end KernelInv

namespace Kernel

/-- **When a reported child is faithful**: in a state that tame steps reach, with the stack of the
caller mapped, exactly when the call is not starved. -/
theorem fork_faithful_iff {L : Layout} {ram : Mem} {s : Kernel} {c : Slot} {r : Regs}
    (hclean : CleanRam L ram) (hs : s.TameReachable L ram) (hc : s.curenv = some c)
    (hlo : 0xc0000000 ≤ r.spEl0) (hhi : r.spEl0 ≤ ustacktop) (hst : s.StackMapped c r.spEl0) :
    (∀ e s', (s.trapped r).forkEnv c = .ok (.inr e, s') → ForkFaithful (s.trapped r) s' c e) ↔
      ¬ s.ForkStarved r.spEl0 := by
  obtain ⟨_, _, _, _, _, _, hi⟩ := KernelInv.ofReachable hclean hs
  constructor
  · intro hall hroom
    obtain ⟨e, s', hf, hnot⟩ := hi.fork_starved hc hst hroom
    exact hnot (hall e s' hf)
  · intro hroom e s' hf
    exact hi.fork_faithful hc hlo hhi hf hroom

end Kernel

/-- The stack of the first environment is one page. -/
theorem FirstEnv.stackMapped {base n : Nat} {km : Mem} {ρ : Nat → Role} {s : Kernel}
    (h : FirstEnv base km n ρ s) : s.StackMapped 0 (ustacktop - 8) := by
  have hd := h.inv.dir 0 (by simp)
  obtain ⟨f, _, hst⟩ := h.stack
  intro va hva hvat
  have hr : rounddown (ustacktop - 8) by2pg = ustacktop - by2pg := by decide
  rw [hr] at hva
  have htop : ustacktop = 0xdfffe000 := by decide
  have hsame : va / by2pg = (ustacktop - by2pg) / by2pg := by
    simp only [by2pg] at hva ⊢
    omega
  have hua : UserVa (ustacktop - by2pg) := by
    unfold UserVa
    decide
  rw [translate_congr hsame, h.inv.forest.translate_user hd hua, if_pos (by decide),
    hst (pageOf (ustacktop - by2pg)) hua, if_pos rfl]
  exact ⟨_, rfl⟩

namespace Kernel

/-- The first environment forks with plenty of frames left, and its child is faithful. -/
theorem fork_faithful_first : ∃ s s' : Kernel, s.TameReachable image coldRam ∧ s.curenv = some 0 ∧
    (s.trapped ⟨fun _ => 0, ustacktop - 8, 0, 0⟩).forkEnv 0 = .ok (.inr 1, s') ∧
    ForkFaithful (s.trapped ⟨fun _ => 0, ustacktop - 8, 0, 0⟩) s' 0 1 := by
  obtain ⟨s₀, s, base, n, ρ, hs, _, h, hk⟩ := firstEnv_left (k := 0x30000) (by decide)
  have hall := (fork_faithful_iff cleanRam_coldRam hs h.cur
    (r := ⟨fun _ => 0, ustacktop - 8, 0, 0⟩) (by decide) (by decide) h.stackMapped).mpr <| by
    rintro ⟨_, _, l, hl, hlen⟩
    rw [hl.unique h.pages, List.length_drop, length_freshPages] at hlen
    omega
  have hfirst : s.envFreeList.first () = some 1 := by
    rw [h.inv.list.first_eq, List.finRange_succ]
    rfl
  obtain ⟨p, _, hl, -, -⟩ := h.nextFrame (by omega)
  have hlen : n + 1 < (freshPages base).length := by
    rw [length_freshPages]
    omega
  rw [List.drop_eq_getElem_cons hlen] at hl
  obtain ⟨_, _, _, _, hfork, _⟩ := h.inv.fork_onePage (r := ⟨fun _ => 0, ustacktop - 8, 0, 0⟩) h.cur
    (by decide) h.stackMapped hfirst hl
  exact ⟨s, _, hs, h.cur, hfork, hall 1 _ hfork⟩

/-- **A reported child need not be faithful.**  The first environment has lost all frames but two,
and forks: the child has a directory, the copy of the stack page is in no address space. -/
theorem fork_unfaithful : ¬ ∀ (s s' : Kernel) (c e : Slot) (r : Regs), s.Reachable →
    s.curenv = some c → 0xc0000000 ≤ r.spEl0 → r.spEl0 ≤ ustacktop →
    s.StackMapped c r.spEl0 → (s.trapped r).forkEnv c = .ok (.inr e, s') →
    ForkFaithful (s.trapped r) s' c e := by
  intro hall
  obtain ⟨s₀, s, base, n, ρ, hs, _, h, hk⟩ := firstEnv_left (k := 2) (by decide)
  have hstarved : s.ForkStarved (ustacktop - 8) := by
    refine ⟨by decide, ?_, _, h.pages, Or.inl ?_⟩
    · rw [Ne, h.inv.list.first_eq_none_iff]
      simp
    · rw [List.length_drop, length_freshPages]
      omega
  obtain ⟨e, s', hf, hnot⟩ := h.inv.fork_starved (r := ⟨fun _ => 0, ustacktop - 8, 0, 0⟩) h.cur
    h.stackMapped hstarved
  exact hnot (hall s s' 0 e _ hs.reachable h.cur (by decide) (by decide) h.stackMapped hf)

end Kernel

end RaspiOS
