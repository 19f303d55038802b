/-
# What a fork costs

`sys_env_alloc` takes a frame for the directory of the child, one for each page of the caller's stack,
and one for each table these pages need.  It finds out that memory has run out when `page_alloc` says
so, and that a page of the stack is not mapped when `bcopy` faults on it, whichever comes first; what
`page_insert` says it does not read.

So the number of free frames, the size of the stack and the first page of it that is not mapped decide
how the call ends (`fork_outcome`).
-/
import RaspiOS.Blocks
import RaspiOS.Counters
import RaspiOS.ForkId

set_option autoImplicit false

namespace RaspiOS

open LinkedList

/-! ## 1. The tables for an address -/

/-- The directory has a second-level table for the address. -/
def HasPmd (m : Mem) (d va : Nat) : Prop := Valid (m d (pudx va))

/-- There is a third-level table for the address. -/
def HasPte (m : Mem) (d va : Nat) : Prop :=
  Valid (m d (pudx va)) ∧ Valid (m (ppn (m d (pudx va))) (pmdx va))

instance (m : Mem) (d va : Nat) : Decidable (HasPmd m d va) := inferInstanceAs (Decidable (Valid _))

instance (m : Mem) (d va : Nat) : Decidable (HasPte m d va) := inferInstanceAs (Decidable (_ ∧ _))

/-- The number of tables that a walk to the address makes. -/
def tablesMissing (m : Mem) (d va : Nat) : Nat :=
  (if HasPmd m d va then 0 else 1) + (if HasPte m d va then 0 else 1)

/-- **The tables for `va` have come to those there were**, and no others. -/
structure Gains (m m' : Mem) (d va : Nat) : Prop where
  pmd : ∀ va', UserVa va' → (HasPmd m' d va' ↔ HasPmd m d va' ∨ pudx va' = pudx va)
  pte : ∀ va', UserVa va' →
    (HasPte m' d va' ↔ HasPte m d va' ∨ pudx va' = pudx va ∧ pmdx va' = pmdx va)

section Tables

variable {L : Layout} {base : Nat} {km : Mem} {ρ ρ' : Nat → Role} {p p' : Phys} {m' : Mem}
  {d t u va pp perm : Nat} {l : List Nat}

/-- The tables for an address depend on the directory and its second-level tables. -/
theorem Shape.tables_congr {m q : Mem} (h : Shape L base km ρ m) (hd : ρ d = .dir) (hva : UserVa va)
    (hm : ∀ f, f = d ∨ (∃ i, ρ f = .pmd d i) → q f = m f) :
    (HasPmd q d va ↔ HasPmd m d va) ∧ (HasPte q d va ↔ HasPte m d va) := by
  have hrow := hm d (Or.inl rfl)
  unfold HasPmd HasPte
  rw [hrow]
  refine ⟨Iff.rfl, and_congr_right fun hv => ?_⟩
  rw [hm _ (Or.inr ⟨_, (h.dirUser d hd _ hva hv).2⟩)]

/-- Nothing is gained where the tables are there. -/
theorem Gains.of_iff {m : Mem} (hpmd : ∀ va', UserVa va' → (HasPmd m' d va' ↔ HasPmd m d va'))
    (hpte : ∀ va', UserVa va' → (HasPte m' d va' ↔ HasPte m d va')) {m'' : Mem}
    (h : Gains m' m'' d va) : Gains m m'' d va where
  pmd := fun va' hva' => by rw [h.pmd va' hva', hpmd va' hva']
  pte := fun va' hva' => by rw [h.pte va' hva', hpte va' hva']

/-- The first level of the walk. -/
theorem Forest.descendPmd_gains (h : Forest L base km ρ p) (hd : ρ d = .dir)
    (he : p.descend ⟨d, pudx va⟩ true = (some t, p')) :
    (∀ va', HasPmd p'.mem d va' ↔ HasPmd p.mem d va' ∨ pudx va' = pudx va) ∧
      ∀ va', UserVa va' → (HasPte p'.mem d va' ↔ HasPte p.mem d va') := by
  rcases Phys.descend_some he with ⟨hv, -, rfl⟩ | ⟨hv, hmade⟩
  · refine ⟨fun va' => ⟨Or.inl, fun hc => hc.elim id fun hsame => ?_⟩, fun _ _ => Iff.rfl⟩
    unfold HasPmd
    rw [hsame]
    exact hv
  · obtain ⟨l, hl, hmem⟩ := h.pages
    obtain ⟨l', rfl, -⟩ := hmade.list l hl
    have hfree : ρ t = .free := (hmem t).mp (by simp)
    have hdt : d ≠ t := ne_of_apply_ne ρ (by simp [hd, hfree])
    have hrow : ∀ i, p'.mem d i = if i = pudx va then tableDesc t else p.mem d i := by
      intro i
      rw [hmade.mem]
      simp only [true_and, hdt, if_false]
    refine ⟨fun va' => ?_, fun va' hva' => ?_⟩
    · unfold HasPmd
      rw [hrow]
      split
      · rename_i hsame
        exact ⟨fun _ => Or.inr hsame, fun _ => (isTable_tableDesc t).valid⟩
      · rename_i hne
        exact ⟨Or.inl, fun hc => hc.resolve_right hne⟩
    · unfold HasPte
      rw [hrow]
      split
      · -- the new table is empty
        rename_i hsame
        have hzero : p'.mem t (pmdx va') = 0 := by
          rw [hmade.mem, if_neg fun hc => hdt hc.1.symm, if_pos rfl]
        rw [ppn_tableDesc, hzero, hsame]
        exact ⟨fun hc => absurd hc.2 not_valid_zero, fun hc => absurd hc.1 hv⟩
      · rename_i hne
        refine and_congr_right fun hv' => ?_
        have hrole := (h.dirUser d hd _ hva' hv').2
        have hnd : ppn (p.mem d (pudx va')) ≠ d := ne_of_apply_ne ρ (by simp [hrole, hd])
        have hnt : ppn (p.mem d (pudx va')) ≠ t := ne_of_apply_ne ρ (by simp [hrole, hfree])
        rw [hmade.mem, if_neg fun hc => hnd hc.1, if_neg hnt]

/-- The second level of the walk. -/
theorem Forest.descendPte_gains (h : Forest L base km ρ p) (hd : ρ d = .dir)
    (ht : ρ t = .pmd d (pudx va)) (he : p.descend ⟨t, pmdx va⟩ true = (some u, p')) :
    (∀ va', HasPmd p'.mem d va' ↔ HasPmd p.mem d va') ∧
      ∀ va', UserVa va' →
        (HasPte p'.mem d va' ↔ HasPte p.mem d va' ∨ pudx va' = pudx va ∧ pmdx va' = pmdx va) := by
  obtain ⟨-, -, hvalid, hppn⟩ := h.pmdParent t d _ ht
  rcases Phys.descend_some he with ⟨hv, -, rfl⟩ | ⟨hv, hmade⟩
  · refine ⟨fun _ => Iff.rfl, fun va' _ => ⟨Or.inl, fun hc => hc.elim id ?_⟩⟩
    rintro ⟨h1, h2⟩
    unfold HasPte
    rw [h1, h2, hppn]
    exact ⟨hvalid, hv⟩
  · obtain ⟨l, hl, hmem⟩ := h.pages
    obtain ⟨l', rfl, -⟩ := hmade.list l hl
    have hfree : ρ u = .free := (hmem u).mp (by simp)
    have hdt : d ≠ t := ne_of_apply_ne ρ (by simp [hd, ht])
    have hdu : d ≠ u := ne_of_apply_ne ρ (by simp [hd, hfree])
    have hrow : p'.mem d = p.mem d := by
      funext i
      rw [hmade.mem, if_neg fun hc => hdt hc.1, if_neg hdu]
    refine ⟨fun va' => by unfold HasPmd; rw [hrow], fun va' hva' => ?_⟩
    unfold HasPte
    rw [hrow]
    by_cases hv1 : Valid (p.mem d (pudx va'))
    · have hrole := (h.dirUser d hd _ hva' hv1).2
      have hnu : ppn (p.mem d (pudx va')) ≠ u := ne_of_apply_ne ρ (by simp [hrole, hfree])
      rw [hmade.mem]
      simp only [hv1, true_and, hnu, if_false]
      split
      · rename_i hc
        rw [hc.1, ht] at hrole
        injection hrole with _ hi
        exact ⟨fun _ => Or.inr ⟨hi.symm, hc.2⟩, fun _ => (isTable_tableDesc u).valid⟩
      · rename_i hne
        refine ⟨Or.inl, fun hc => hc.resolve_right ?_⟩
        rintro ⟨h1, h2⟩
        rw [h1] at hne
        exact hne ⟨hppn, h2⟩
    · refine ⟨fun hc => absurd hc.1 hv1, fun hc => absurd ?_ hv1⟩
      rcases hc with hc | ⟨hc, -⟩
      · exact hc.1
      · rw [hc]
        exact hvalid

/-- **The walk that may create makes exactly the tables that are missing**, or the pool is too small
for them. -/
theorem Forest.pgdirWalk_missing (h : Forest L base km ρ p) (hd : ρ d = .dir) (hva : UserVa va)
    (hl : IsList p.pageFreeList () l) :
    (∃ u p', p.pgdirWalk d va true = ((0, ⟨u, ptex va⟩), p') ∧ tablesMissing p.mem d va ≤ l.length ∧
      IsList p'.pageFreeList () (l.drop (tablesMissing p.mem d va)) ∧ Gains p.mem p'.mem d va) ∨
    (∃ p', p.pgdirWalk d va true = ((-eNoMem, .null), p') ∧ l.length < tablesMissing p.mem d va) := by
  rcases h.descendPmd (i := pudx va) hd hva with
    ⟨t, n₁, ρ₁, p₁, he₁, ht, hg₁, hn₁, -⟩ | ⟨he₁, hv, hnil⟩
  · obtain ⟨hpmd₁, hpte₁⟩ := h.descendPmd_gains hd he₁
    have hd₁ : ρ₁ d = .dir := by rw [hg₁.keeps d (by simp [hd]), hd]
    obtain ⟨-, -, hvalid, hppn⟩ := hg₁.forest.pmdParent t d _ ht
    have hiff : HasPte p.mem d va ↔ Valid (p₁.mem t (pmdx va)) := by
      rw [← hpte₁ va hva, HasPte, hppn]
      exact and_iff_right hvalid
    obtain ⟨hle₁, hl₁⟩ := hg₁.taken l hl
    rcases hg₁.forest.descendPte (j := pmdx va) ht with
      ⟨u, n₂, ρ₂, p₂, he₂, -, hg₂, hn₂⟩ | ⟨he₂, hv₂, hnil⟩
    · left
      obtain ⟨hpmd₂, hpte₂⟩ := hg₁.forest.descendPte_gains hd₁ ht he₂
      obtain ⟨hle₂, hl₂⟩ := hg₂.taken _ hl₁
      have hsum : tablesMissing p.mem d va = n₁ + n₂ := by
        rw [hn₁, hn₂, tablesMissing]
        exact congrArg₂ (· + ·) rfl (if_congr hiff rfl rfl)
      rw [hsum]
      rw [List.length_drop] at hle₂
      rw [List.drop_drop] at hl₂
      refine ⟨u, p₂, by simp only [Phys.pgdirWalk, he₁, he₂], by omega, hl₂, ?_, ?_⟩
      · intro va' _
        rw [hpmd₂, hpmd₁]
      · intro va' hva'
        rw [hpte₂ va' hva', hpte₁ va' hva']
    · right
      refine ⟨p₁, by simp only [Phys.pgdirWalk, he₁, he₂], ?_⟩
      rw [hl₁.first_eq_none_iff, List.drop_eq_nil_iff] at hnil
      have hm : tablesMissing p.mem d va = n₁ + 1 := by
        rw [hn₁, tablesMissing, if_neg (fun hc => hv₂ (hiff.mp hc))]
        rfl
      omega
  · right
    refine ⟨p, by simp only [Phys.pgdirWalk, he₁], ?_⟩
    rw [hl.first_eq_none_iff] at hnil
    have hno : ¬ HasPmd p.mem d va := hv
    rw [hnil, tablesMissing, if_neg hno]
    exact Nat.lt_of_lt_of_le Nat.one_pos (Nat.le_add_right _ _)

/-- **`page_insert` of a page that is not mapped takes exactly the frames for the missing tables**, or
has emptied the pool. -/
theorem Forest.pageInsert_missing (h : Forest L base km ρ p) (hd : ρ d = .dir) (hva : UserVa va)
    (hnone : space p.mem d (pageOf va) = none) (hpp : (ρ pp).IsPage) (hlt : p.ppRef pp < 2 ^ 16 - 1)
    (hperm : PermOk pp perm) (hl : IsList p.pageFreeList () l) :
    (tablesMissing p.mem d va ≤ l.length ∧ ∃ ρ' p', p.pageInsert d pp va perm = .ok (0, p') ∧
      Inserted L base km ρ d p ρ' p' (pageOf va) (leafDesc pp perm) ∧
      IsList p'.pageFreeList () (l.drop (tablesMissing p.mem d va)) ∧ Gains p.mem p'.mem d va) ∨
    (l.length < tablesMissing p.mem d va ∧ ∃ p', p.pageInsert d pp va perm = .ok (-eNoMem, p') ∧
      p'.pageFreeList.first () = none) := by
  have henter := h.pageInsert_enter hd hva hnone pp perm
  rcases h.pgdirWalk_missing hd hva hl with ⟨u, p₁, hw, hle, hl₁, hgain⟩ | ⟨p₁, hw, hlt'⟩
  · left
    have hok : p.pageInsert d pp va perm
        = .ok (0, (p₁.store ⟨u, ptex va⟩ (leafDesc pp perm)).incRef pp) := by
      rw [henter]
      simp only [Phys.pageEnter, hw]
      rfl
    rcases h.pgdirWalk hd hva with ⟨u', n, ρ₁, q, hw', hu, hg, -⟩ | ⟨_, _, _, hw', -⟩
    · rw [hw] at hw'
      cases hw'
      refine ⟨hle, ?_⟩
      rcases h.pageInsert hd hva hpp hlt hperm with ⟨ρ', p', hi, hins⟩ | ⟨_, _, _, hi, -⟩
      · rw [hok] at hi
        cases hi
        refine ⟨ρ', _, hok, hins, hl₁, ?_⟩
        have hd₁ : ρ₁ d = .dir := by rw [hg.keeps d (by simp [hd]), hd]
        obtain ⟨t, -, hut⟩ := hu
        have hstore : ∀ va', UserVa va' → _ := fun va' hva' =>
          hg.forest.toShape.tables_congr (q := (p₁.store ⟨u, ptex va⟩ (leafDesc pp perm)).mem)
            hd₁ hva' fun f hf => by
              have hfu : f ≠ u := by
                rcases hf with rfl | ⟨j, hj⟩
                · exact ne_of_apply_ne ρ₁ (by simp [hd₁, hut])
                · exact ne_of_apply_ne ρ₁ (by simp [hj, hut])
              funext i
              exact if_neg fun hc => hfu hc.1
        exact ⟨fun va' hva' => (hstore va' hva').1.trans (hgain.pmd va' hva'),
          fun va' hva' => (hstore va' hva').2.trans (hgain.pte va' hva')⟩
      · rw [hok] at hi
        cases hi
    · rw [hw] at hw'
      cases hw'
  · right
    refine ⟨hlt', p₁, ?_, ?_⟩
    · rw [henter]
      simp only [Phys.pageEnter, hw]
      rfl
    · rcases h.pgdirWalk hd hva with ⟨_, _, _, _, hw', -⟩ | ⟨_, _, q, hw', -, hnil, -⟩
      · rw [hw] at hw'
        cases hw'
      · rw [hw] at hw'
        cases hw'
        exact hnil

end Tables

/-! ## 2. One page -/

section Round

variable {L : Layout} {base : Nat} {km : Mem} {ρ : Nat → Role} {p : Phys}
  {active child va pp : Nat} {l : List Nat}

/-- **A round on a page that is mapped** copies it, for a frame and the missing tables, or leaves the
pool empty. -/
theorem forkRound (h : Forest L base km ρ p) (ha : ρ active = .dir) (hc : ρ child = .dir)
    (hva : UserVa va) (hnone : space p.mem child (pageOf va) = none)
    (hl : IsList p.pageFreeList () (pp :: l)) {t : Translation}
    (ht : translate p.mem active va = some t) :
    ∃ q q₁, p.pageAlloc = some (pp, q) ∧ Kernel.bcopyPage q active va pp = .ok q₁ ∧
      ((tablesMissing p.mem child va ≤ l.length ∧ ∃ ρ' q₂,
          q₁.pageInsert child pp va pteV = .ok (0, q₂) ∧
          Copied L base km ρ p active child va 1 ρ' q₂ ∧
          IsList q₂.pageFreeList () (l.drop (tablesMissing p.mem child va)) ∧
          Gains p.mem q₂.mem child va) ∨
        (l.length < tablesMissing p.mem child va ∧ ∃ q₂,
          q₁.pageInsert child pp va pteV = .ok (-eNoMem, q₂) ∧ q₂.pageFreeList.first () = none)) := by
  obtain ⟨q, hq, hlq⟩ := Phys.pageAlloc_cons hl
  have hb : Kernel.bcopyPage q active va pp = .ok (q.copyPage t.frame pp) := by
    unfold Kernel.bcopyPage
    rw [KernelInv.take_translate h hq ha, ht]
  refine ⟨q, q.copyPage t.frame pp, hq, hb, ?_⟩
  obtain ⟨_, _, _, hmem, h1, href, hlist⟩ := copyFrame h ha hva hq hb
  have hfree := h.first_free (Phys.pageAlloc_eq_some hq).1
  have hc1 := (KernelInv.unused_local hfree hmem child).1.dirsKept child hc
  have hnone1 : space (q.copyPage t.frame pp).mem child (pageOf va) = none := by
    rw [KernelInv.unused_space (g := pageOf va) hfree hmem h h1 (by simp) hc hva, hnone]
  -- the new frame is no table of the child
  have htables : ∀ va', UserVa va' → _ := fun va' hva' =>
    h.toShape.tables_congr (q := (q.copyPage t.frame pp).mem) hc hva' fun f hf => hmem f <| by
      rcases hf with rfl | ⟨i, hi⟩
      · exact ne_of_apply_ne ρ (by simp [hc, hfree])
      · exact ne_of_apply_ne ρ (by simp [hi, hfree])
  have hmiss : tablesMissing (q.copyPage t.frame pp).mem child va = tablesMissing p.mem child va := by
    unfold tablesMissing
    exact congrArg₂ (· + ·) (if_congr (htables va hva).1 rfl rfl)
      (if_congr (htables va hva).2 rfl rfl)
  rw [← hmiss]
  rcases h1.pageInsert_missing hc1 hva hnone1 (by rw [Function.update_self]; trivial)
    (by rw [href]; decide) (permOk_pteV pp) (hlist ▸ hlq) with
    ⟨hle, ρ', q₂, hi, hins, hl', hgain⟩ | ⟨hlt, q₂, hi, hnil⟩
  · left
    refine ⟨hle, ?_⟩
    obtain ⟨ρ₂, ⟨hcopied, -⟩ | ⟨h2, hc2, hnone2, -⟩⟩ := copyRound h ha hc hva hnone hq hb hi
    · exact ⟨ρ₂, q₂, hi, hcopied, hl', hgain.of_iff (fun va' hva' => (htables va' hva').1)
        fun va' hva' => (htables va' hva').2⟩
    · rw [hins.space (pageOf va) hva, if_pos rfl] at hnone2
      cases hnone2
  · exact Or.inr ⟨hlt, q₂, hi, hnil⟩

end Round

/-! ## 3. The loop -/

/-- The frames for `n` pages from `va` on and for their tables, when second-level tables are there
below the index `e` and third-level tables below `e'`. -/
def copyCost (e e' va n : Nat) : Nat :=
  if n = 0 then 0
  else n + ((va + (n - 1) * by2pg) / 0x40000000 + 1 - e)
    + ((va + (n - 1) * by2pg) / 0x200000 + 1 - e')

/-- **The tables of the child end at `e` and `e'`**, as far as the rest of the stack is concerned. -/
structure Edge (m : Mem) (child va e e' : Nat) : Prop where
  pmd : ∀ va', va ≤ va' → va' < ustacktop → (HasPmd m child va' ↔ va' / 0x40000000 < e)
  pte : ∀ va', va ≤ va' → va' < ustacktop → (HasPte m child va' ↔ va' / 0x200000 < e')
  pmdNear : va / 0x40000000 ≤ e ∧ e ≤ va / 0x40000000 + 1
  pteNear : va / 0x200000 ≤ e' ∧ e' ≤ va / 0x200000 + 1

section Edge

variable {m m' : Mem} {child va va' e e' n : Nat}

theorem pudx_eq_iff (h : va < ustacktop) (h' : va' < ustacktop) :
    pudx va' = pudx va ↔ va' / 0x40000000 = va / 0x40000000 := by
  have htop : ustacktop = 0xdfffe000 := by decide
  rw [Fin.ext_iff, pudx_val, pudx_val]
  omega

theorem pmdx_eq_iff (h : va < ustacktop) (h' : va' < ustacktop) :
    pudx va' = pudx va ∧ pmdx va' = pmdx va ↔ va' / 0x200000 = va / 0x200000 := by
  have htop : ustacktop = 0xdfffe000 := by decide
  rw [Fin.ext_iff, Fin.ext_iff, pudx_val, pudx_val, pmdx_val, pmdx_val]
  omega

theorem Edge.missing_eq (h : Edge m child va e e') (hva : va < ustacktop) :
    tablesMissing m child va
      = (if va / 0x40000000 < e then 0 else 1) + (if va / 0x200000 < e' then 0 else 1) := by
  unfold tablesMissing
  exact congrArg₂ (· + ·) (if_congr (h.pmd va (le_refl va) hva) rfl rfl)
    (if_congr (h.pte va (le_refl va) hva) rfl rfl)

/-- The edge moves on with the loop. -/
theorem Edge.next (h : Edge m child va e e') (hlo : 0x80000000 ≤ va) (hva : va < ustacktop)
    (hg : Gains m m' child va) :
    Edge m' child (va + by2pg) (va / 0x40000000 + 1) (va / 0x200000 + 1) where
  pmd := fun va' hle hlt => by
    have hpos : by2pg = 4096 := rfl
    rw [hg.pmd va' (userVa_stack (by omega) hlt), h.pmd va' (by omega) hlt, pudx_eq_iff hva hlt]
    have hnear := h.pmdNear
    omega
  pte := fun va' hle hlt => by
    have hpos : by2pg = 4096 := rfl
    rw [hg.pte va' (userVa_stack (by omega) hlt), h.pte va' (by omega) hlt, pmdx_eq_iff hva hlt]
    have hnear := h.pteNear
    omega
  pmdNear := by
    have hpos : by2pg = 4096 := rfl
    omega
  pteNear := by
    have hpos : by2pg = 4096 := rfl
    omega

@[simp] theorem copyCost_zero (e e' va : Nat) : copyCost e e' va 0 = 0 := rfl

theorem copyCost_succ (e e' va n : Nat) : copyCost e e' va (n + 1)
    = n + 1 + ((va + n * by2pg) / 0x40000000 + 1 - e) + ((va + n * by2pg) / 0x200000 + 1 - e') :=
  if_neg (Nat.succ_ne_zero n)

/-- The first page and its tables, and then the others. -/
theorem Edge.copyCost_next (h : Edge m child va e e') (hva : va < ustacktop) (n : Nat) :
    copyCost e e' va (n + 1) = 1 + tablesMissing m child va
      + copyCost (va / 0x40000000 + 1) (va / 0x200000 + 1) (va + by2pg) n := by
  have hpos : by2pg = 4096 := rfl
  have h1 := h.pmdNear
  have h2 := h.pteNear
  rw [h.missing_eq hva, copyCost_succ]
  rcases n with _ | n
  · rw [copyCost_zero, hpos]
    split <;> split <;> omega
  · rw [copyCost_succ, hpos]
    split <;> split <;> omega

/-- Where the tables of one level end after `k` pages. -/
def edgeAfter (size e va k : Nat) : Nat := if k = 0 then e else (va + (k - 1) * by2pg) / size + 1

@[simp] theorem edgeAfter_zero (size e va : Nat) : edgeAfter size e va 0 = e := rfl

theorem edgeAfter_succ (size e va k : Nat) :
    edgeAfter size e va (k + 1) = (va + k * by2pg) / size + 1 := if_neg (Nat.succ_ne_zero k)

theorem edgeAfter_next (size e va k : Nat) :
    edgeAfter size (va / size + 1) (va + by2pg) k = edgeAfter size e va (k + 1) := by
  rw [edgeAfter_succ]
  rcases k with _ | k
  · rw [edgeAfter_zero, Nat.zero_mul]
    rfl
  · rw [edgeAfter_succ, Nat.add_mul, Nat.one_mul]
    congr 2
    omega

/-- A page more, with the tables it needs behind the others. -/
theorem Edge.copyCost_last (h : Edge m child va e e') (k : Nat) :
    copyCost e e' va (k + 1) = copyCost e e' va k
      + copyCost (edgeAfter 0x40000000 e va k) (edgeAfter 0x200000 e' va k) (va + k * by2pg) 1 := by
  have hpos : by2pg = 4096 := rfl
  have h1 := h.pmdNear
  have h2 := h.pteNear
  rcases k with _ | k
  · simp
  · rw [copyCost_succ, copyCost_succ, copyCost_succ, edgeAfter_succ, edgeAfter_succ, hpos]
    omega

end Edge

section Loop

variable {L : Layout} {base : Nat} {km : Mem} {active child : Nat}

/-- **The first `k` rounds**, when the pages are mapped and memory lasts. -/
theorem forkStack_prefix : ∀ {k n va e e' : Nat} {p : Phys} {ρ : Nat → Role} {l : List Nat},
    Forest L base km ρ p → ρ active = .dir → ρ child = .dir → active ≠ child → 0x80000000 ≤ va →
    va + (k + n) * by2pg = ustacktop →
    (∀ i < k + n, space p.mem child (pageOf (va + i * by2pg)) = none) →
    Edge p.mem child va e e' → IsList p.pageFreeList () l → copyCost e e' va k ≤ l.length →
    (∀ i < k, ∃ t, translate p.mem active (va + i * by2pg) = some t) →
    ∃ ρ' p', Kernel.forkStack active child (k + n) va p
        = Kernel.forkStack active child n (va + k * by2pg) p' ∧
      Copied L base km ρ p active child va k ρ' p' ∧
      IsList p'.pageFreeList () (l.drop (copyCost e e' va k)) ∧
      Edge p'.mem child (va + k * by2pg) (edgeAfter 0x40000000 e va k) (edgeAfter 0x200000 e' va k)
  | 0, n, va, e, e', p, ρ, l, h, _, _, _, _, _, _, hedge, hl, _, _ => by
    refine ⟨ρ, p, ?_, Copied.zero h active child va, hl, ?_⟩
    · rw [Nat.zero_add, Nat.zero_mul, Nat.add_zero]
    · rw [Nat.zero_mul, Nat.add_zero]
      exact hedge
  | k + 1, n, va, e, e', p, ρ, l, h, ha, hc, hne, hlo, htop, hnone, hedge, hl, hcost, hm => by
    have hpos : by2pg = 4096 := rfl
    have hval : ustacktop = 0xdfffe000 := by decide
    have hva : va < ustacktop := by rw [← htop, hpos]; omega
    have hua := userVa_stack hlo hva
    have hnext : ∀ i, va + by2pg + i * by2pg = va + (i + 1) * by2pg := by
      intro i
      rw [Nat.add_mul, Nat.one_mul]
      omega
    have hnone0 : space p.mem child (pageOf va) = none := by
      have h0 := hnone 0 (by omega)
      rwa [Nat.zero_mul, Nat.add_zero] at h0
    obtain ⟨t, ht⟩ := hm 0 (Nat.succ_pos k)
    rw [Nat.zero_mul, Nat.add_zero] at ht
    rw [hedge.copyCost_next hva] at hcost
    obtain ⟨pp, l, rfl⟩ := List.exists_cons_of_length_pos (l := l) (by omega)
    rw [List.length_cons] at hcost
    obtain ⟨q, q₁, hq, hb, ⟨_, ρ₁, p₁, hi, h1, hl₁, hgain⟩ | ⟨hlt, -⟩⟩ :=
      forkRound h ha hc hua hnone0 hl ht
    · have hc1 := h1.frame.dirsKept child hc
      have ha1 := h1.frame.dirsKept active ha
      obtain ⟨ρ', p', hrest, h2, hl', hedge'⟩ := forkStack_prefix (k := k) (n := n) h1.forest ha1 hc1
        hne (by omega) (by rw [hnext, ← htop]; congr 2; omega)
        (fun i hin => by
          rw [hnext, h1.space, hnone (i + 1) (by omega)]
          · refine userVa_stack (by omega) ?_
            rw [← htop]
            simp only [hpos]
            omega
          · intro j hj
            exact pageOf_stack_ne htop.le (by omega) (by omega) (by omega))
        (hedge.next hlo hva hgain) hl₁ (by rw [List.length_drop]; omega)
        (fun i hik => by
          rw [h1.frame.translate_other h h1.forest hc ha hne, hnext]
          exact hm (i + 1) (by omega))
      refine ⟨ρ', p', ?_, Copied.cons h ha hc hne hlo ?_ h1 h2, ?_, ?_⟩
      · rw [← hnext, ← hrest, Nat.succ_add]
        simp only [Kernel.forkStack, hq, hb, hi, bind, Except.bind]
      · rw [← htop]
        exact Nat.add_le_add_left (Nat.mul_le_mul_right _ (Nat.le_add_right _ _)) _
      · rw [hedge.copyCost_next hva, Nat.add_comm 1, Nat.add_assoc, Nat.add_comm 1,
          ← Nat.add_assoc, List.drop_succ_cons, ← List.drop_drop]
        exact hl'
      · rw [← hnext, ← edgeAfter_next, ← edgeAfter_next]
        exact hedge'
    · omega

section Ends

variable {ρ : Nat → Role} {p : Phys} {va pp : Nat} {l : List Nat}

/-- A round without a frame for its page. -/
theorem forkStack_noFrame (hnil : p.pageFreeList.first () = none) (n : Nat) :
    Kernel.forkStack active child (n + 1) va p = .ok (-eNoMem, p) := by
  have hq : p.pageAlloc = none := Phys.pageAlloc_eq_none.mpr hnil
  simp only [Kernel.forkStack, hq]

/-- A round on a page that is not mapped. -/
theorem forkStack_fault (h : Forest L base km ρ p) (ha : ρ active = .dir)
    (hl : IsList p.pageFreeList () (pp :: l)) (ht : translate p.mem active va = none) (n : Nat) :
    Kernel.forkStack active child (n + 1) va p = .error .fault := by
  obtain ⟨q, hq, -⟩ := Phys.pageAlloc_cons hl
  have hb : Kernel.bcopyPage q active va pp = .error .fault := by
    unfold Kernel.bcopyPage
    rw [KernelInv.take_translate h hq ha, ht]
  simp only [Kernel.forkStack, hq, hb, bind, Except.bind]

/-- A round with a frame for its page and too few for the tables, before another: that one finds the
pool empty. -/
theorem forkStack_noTables (h : Forest L base km ρ p) (ha : ρ active = .dir) (hc : ρ child = .dir)
    (hva : UserVa va) (hnone : space p.mem child (pageOf va) = none)
    (hl : IsList p.pageFreeList () (pp :: l)) {t : Translation}
    (ht : translate p.mem active va = some t) (hshort : l.length < tablesMissing p.mem child va)
    (n : Nat) : ∃ q, Kernel.forkStack active child (n + 2) va p = .ok (-eNoMem, q) ∧
      q.pageFreeList.first () = none := by
  obtain ⟨q, q₁, hq, hb, ⟨hle, -⟩ | ⟨-, q₂, hi, hnil⟩⟩ := forkRound h ha hc hva hnone hl ht
  · omega
  · have hrest : Kernel.forkStack active child (n + 1) (va + by2pg) q₂ = .ok (-eNoMem, q₂) :=
      forkStack_noFrame hnil n
    refine ⟨q₂, ?_, hnil⟩
    rw [← hrest, Kernel.forkStack]
    simp only [hq, hb, hi, bind, Except.bind]

end Ends

/-- **How the loop ends.**  The stack has `n` pages, of which the first `k` are mapped and the next is
not.  Only the one round of a stack of one page can leave its page without tables unnoticed. -/
theorem forkStack_ends {k n va e e' : Nat} {p : Phys} {ρ : Nat → Role} {l : List Nat}
    (h : Forest L base km ρ p) (ha : ρ active = .dir) (hc : ρ child = .dir) (hne : active ≠ child)
    (hlo : 0x80000000 ≤ va) (htop : n = 0 ∨ va + n * by2pg = ustacktop)
    (hnone : ∀ i < n, space p.mem child (pageOf (va + i * by2pg)) = none)
    (hedge : Edge p.mem child va e e') (hl : IsList p.pageFreeList () l) (hk : k ≤ n)
    (hm : ∀ i < k, ∃ t, translate p.mem active (va + i * by2pg) = some t)
    (hstop : k < n → translate p.mem active (va + k * by2pg) = none) :
    (k = n → copyCost e e' va n ≤ l.length →
      ∃ ρ' p', Kernel.forkStack active child n va p = .ok (0, p') ∧
        Copied L base km ρ p active child va n ρ' p' ∧
        IsList p'.pageFreeList () (l.drop (copyCost e e' va n))) ∧
    (k < n → copyCost e e' va k < l.length → Kernel.forkStack active child n va p = .error .fault) ∧
    (l.length < copyCost e e' va k ∨ k < n ∧ l.length = copyCost e e' va k →
      ¬ (n = 1 ∧ k = 1 ∧ l ≠ []) →
      ∃ p', Kernel.forkStack active child n va p = .ok (-eNoMem, p') ∧
        p'.pageFreeList.first () = none) := by
  have hpos : by2pg = 4096 := rfl
  have hval : ustacktop = 0xdfffe000 := by decide
  rcases htop with rfl | htop
  · obtain rfl : k = 0 := by omega
    refine ⟨fun _ _ => ⟨ρ, p, rfl, Copied.zero h active child va, hl⟩,
      fun hlt => absurd hlt (lt_irrefl 0), fun hs => absurd hs ?_⟩
    simp
  -- the rounds that go through
  have hrounds : ∀ j ≤ k, copyCost e e' va j ≤ l.length →
      ∃ r ρ' p', n = j + r ∧ Kernel.forkStack active child n va p
          = Kernel.forkStack active child r (va + j * by2pg) p' ∧
        Copied L base km ρ p active child va j ρ' p' ∧
        IsList p'.pageFreeList () (l.drop (copyCost e e' va j)) ∧
        Edge p'.mem child (va + j * by2pg) (edgeAfter 0x40000000 e va j)
          (edgeAfter 0x200000 e' va j) := by
    intro j hj hcost
    obtain ⟨r, rfl⟩ := Nat.exists_eq_add_of_le (hj.trans hk)
    obtain ⟨ρ', p', hrest⟩ := forkStack_prefix h ha hc hne hlo htop hnone hedge hl hcost
      fun i hi => hm i (lt_of_lt_of_le hi hj)
    exact ⟨r, ρ', p', rfl, hrest⟩
  refine ⟨?_, ?_, ?_⟩
  · rintro rfl hcost
    obtain ⟨r, ρ', p', hr, hrest, hcopied, hl', -⟩ := hrounds k (le_refl k) hcost
    obtain rfl : r = 0 := by omega
    exact ⟨ρ', p', hrest, hcopied, hl'⟩
  · intro hlt hcost
    obtain ⟨r, ρ', p', hr, hrest, hcopied, hl', -⟩ := hrounds k (le_refl k) hcost.le
    obtain ⟨r, rfl⟩ := Nat.exists_eq_succ_of_ne_zero (n := r) (by omega)
    obtain ⟨pp, l', hcons⟩ := List.exists_cons_of_length_pos
      (l := l.drop (copyCost e e' va k)) (by rw [List.length_drop]; omega)
    rw [hcons] at hl'
    rw [hrest]
    refine forkStack_fault hcopied.forest (hcopied.frame.dirsKept active ha) hl' ?_ r
    rw [hcopied.frame.translate_other h hcopied.forest hc ha hne, hstop hlt]
  · intro hshort hhole
    -- the last round for which memory lasts
    have hj0 : copyCost e e' va (Nat.findGreatest (copyCost e e' va · ≤ l.length) k) ≤ l.length :=
      Nat.findGreatest_spec (P := (copyCost e e' va · ≤ l.length)) (Nat.zero_le k) (Nat.zero_le _)
    have hjk := Nat.findGreatest_le (P := (copyCost e e' va · ≤ l.length)) k
    have hjmax := fun i (hi : _ < i) (hik : i ≤ k) =>
      Nat.findGreatest_is_greatest (P := (copyCost e e' va · ≤ l.length)) hi hik
    generalize Nat.findGreatest (copyCost e e' va · ≤ l.length) k = j at hj0 hjk hjmax
    obtain ⟨r, ρ', p', hr, hrest, hcopied, hl', hedge'⟩ := hrounds j hjk hj0
    have hjn : j < n := by
      rcases hjk.lt_or_eq with hlt | rfl
      · omega
      · rcases hshort with hs | ⟨hs, -⟩
        · omega
        · exact hs
    obtain ⟨r, rfl⟩ := Nat.exists_eq_succ_of_ne_zero (n := r) (by omega)
    rw [hrest]
    rcases hj0.lt_or_eq with hlt | heq
    · -- a frame for the page, and none for its tables
      have hjk' : j < k := by
        rcases hjk.lt_or_eq with hlt' | rfl
        · exact hlt'
        · omega
      have hmax := hjmax (j + 1) (Nat.lt_succ_self j) hjk'
      rw [not_le, hedge.copyCost_last, hedge'.copyCost_next (by rw [← htop, hr, hpos]; omega)] at hmax
      obtain ⟨pp, l', hcons⟩ := List.exists_cons_of_length_pos
        (l := l.drop (copyCost e e' va j)) (by rw [List.length_drop]; omega)
      have hlen := congrArg List.length hcons
      rw [List.length_drop, List.length_cons] at hlen
      rw [hcons] at hl'
      have hc1 := hcopied.frame.dirsKept child hc
      have ha1 := hcopied.frame.dirsKept active ha
      have hua : UserVa (va + j * by2pg) := userVa_stack (by omega) (by rw [← htop, hr, hpos]; omega)
      have hnone' : space p'.mem child (pageOf (va + j * by2pg)) = none := by
        rw [hcopied.space (pageOf (va + j * by2pg)) hua, hnone j hjn]
        intro i hi
        exact pageOf_stack_ne htop.le hjn (hi.trans hjn) (ne_of_gt hi)
      obtain ⟨t, ht⟩ := hm j hjk'
      rw [← hcopied.frame.translate_other h hcopied.forest hc ha hne] at ht
      have hmiss : l'.length < tablesMissing p'.mem child (va + j * by2pg) := by
        rw [copyCost_zero] at hmax
        omega
      rcases r with _ | r
      · -- the last page has the tables of the page before it
        exfalso
        rcases j with _ | j
        · exact hhole ⟨hr, by omega, by
            rintro rfl
            simp at hlt⟩
        · rw [hedge'.missing_eq (by rw [← htop, hr, hpos]; omega), edgeAfter_succ,
            edgeAfter_succ] at hmiss
          rw [hval] at htop
          simp only [hpos, hr] at hmiss htop
          split at hmiss <;> split at hmiss <;> omega
      · exact forkStack_noTables hcopied.forest ha1 hc1 hua hnone' hl' ht hmiss r
    · -- no frame for the page
      have hnil : p'.pageFreeList.first () = none := by
        rw [hl'.first_eq_none_iff, List.drop_eq_nil_iff, heq]
      exact ⟨p', forkStack_noFrame hnil r, hnil⟩

end Loop

/-! ## 4. The call -/

/-- Frames for the first `n` pages of a stack from `va` on, and for the tables they need in an address
space that maps nothing. -/
def stackCost (va n : Nat) : Nat := copyCost (va / 0x40000000) (va / 0x200000) va n

/-- The pages of the stack, from the one `sp` points into. -/
def stackPages (sp : Nat) : Nat := (ustacktop - rounddown sp by2pg) / by2pg

/-- The ends of `sys_env_alloc`. -/
inductive ForkEnd where
  | noFreeEnv
  | noDirectory
  | noMem
  | fault
  | child
  | husk
deriving DecidableEq

/-- **How the call ends**, with so many free frames and a stack of `n` pages from `va` on, the first
`k` of them mapped. -/
def forkEnd (slot : Bool) (frames va n k : Nat) : ForkEnd :=
  if slot = false then .noFreeEnv
  else if frames = 0 then .noDirectory
  else if k < n then if 1 + stackCost va k < frames then .fault else .noMem
  else if 1 + stackCost va n ≤ frames then .child
  else if n = 1 ∧ 2 ≤ frames then .husk
  else .noMem

namespace Kernel

/-- The first `k` pages of the stack are mapped, and the next, if there is one, is not. -/
def MappedUpTo (s : Kernel) (c : Slot) (sp k : Nat) : Prop :=
  k ≤ stackPages sp ∧
    (∀ i < k, ∃ t,
      translate s.phys.mem (s.envs c).envPgdir (rounddown sp by2pg + i * by2pg) = some t) ∧
    (k < stackPages sp →
      translate s.phys.mem (s.envs c).envPgdir (rounddown sp by2pg + k * by2pg) = none)

/-- What the ends mean, where `l` is the list of free frames before the call. -/
def ForkEnds (s : Kernel) (r : Regs) (c : Slot) (l : List Nat) : ForkEnd → Prop
  | .noFreeEnv => s.svc r .envAlloc = .ok (.ret (-eNoFreeEnv), s.trapped r)
  | .noDirectory => s.svc r .envAlloc = .error .envSetupVmPanic
  | .noMem => ∃ s', s.svc r .envAlloc = .ok (.ret (-eNoMem), s') ∧
      s'.phys.pageFreeList.first () = none
  | .fault => s.svc r .envAlloc = .error .fault
  | .child => ∃ e s', s.svc r .envAlloc = .ok (.ret (toInt (s'.envs e).envId), s') ∧
      s.envFreeList.first () = some e ∧ ForkFaithful (s.trapped r) s' c e ∧
      IsList s'.phys.pageFreeList ()
        (l.drop (1 + stackCost (rounddown r.spEl0 by2pg) (stackPages r.spEl0)))
  | .husk => ∃ e s', s.svc r .envAlloc = .ok (.ret (toInt (s'.envs e).envId), s') ∧
      s.envFreeList.first () = some e ∧ ¬ ForkFaithful (s.trapped r) s' c e

/-- Whether `sys_env_alloc` comes back is decided by its loop. -/
theorem forkEnv_loop {s : Kernel} {c e : Slot} {f : Nat} {q : Phys}
    (he : s.envFreeList.first () = some e) (hq : s.phys.pageAlloc = some (f, q)) :
    let loop := Kernel.forkStack (s.envs c).envPgdir f
      ((ustacktop - rounddown s.kernelFrame.sp by2pg) / by2pg)
      (rounddown s.kernelFrame.sp by2pg) ((q.incRef f).copyPage s.pgDir f)
    (∀ err, loop = .error err → s.forkEnv c = .error err) ∧
      ∀ v p', loop = .ok (v, p') → ∃ x, s.forkEnv c = .ok (if v < 0 then .inl v else .inr e, x) := by
  have hpgdir : ∀ k : Kernel, ((k.allocated e f (s.envs c).envId).envs e).envPgdir = f := by
    intro k
    simp [allocated, freshEnv]
  have hframe : ∀ k : Kernel, (k.allocated e f (s.envs c).envId).kernelFrame = k.kernelFrame :=
    fun _ => rfl
  have hphys : ∀ (k : Kernel) (g : Env → Env), ((k.allocated e f (s.envs c).envId).modifyEnv e
    g).phys = k.phys := fun _ _ => rfl
  refine ⟨fun err hloop => ?_, fun v p' hloop => ?_⟩
  all_goals
    unfold Kernel.forkEnv
    rw [Kernel.envAlloc_some he hq]
    simp only [bind, Except.bind, envs_modifyEnv_self, hpgdir, hframe, hphys, hloop]
  split <;> exact ⟨_, rfl⟩

/-- The call and its handler. -/
theorem svc_envAlloc_eq {s : Kernel} {c : Slot} (hc : s.curenv = some c) (r : Regs) :
    s.svc r .envAlloc = (s.trapped r).sysEnvAlloc := by
  unfold svc
  rw [if_neg (by rw [hc]; simp)]
  rfl

/-- An error code is handed on. -/
theorem svc_envAlloc_inl {s s' : Kernel} {c : Slot} {r : Regs} {v : Int} (hc : s.curenv = some c)
    (hf : (s.trapped r).forkEnv c = .ok (.inl v, s')) : s.svc r .envAlloc = .ok (.ret v, s') := by
  rw [svc_envAlloc_eq hc]
  unfold sysEnvAlloc
  rw [show (s.trapped r).curenv = some c from hc]
  simp only [hf, bind, Except.bind]
  rfl

theorem svc_envAlloc_halts {s : Kernel} {c : Slot} {r : Regs} {err : Halt} (hc : s.curenv = some c)
    (hf : (s.trapped r).forkEnv c = .error err) : s.svc r .envAlloc = .error err := by
  rw [svc_envAlloc_eq hc]
  unfold sysEnvAlloc
  rw [show (s.trapped r).curenv = some c from hc]
  simp only [hf, bind, Except.bind]

end Kernel

namespace KernelInv

variable {L : Layout} {base : Nat} {km : Mem} {ρ : Nat → Role} {fl : List Slot} {s : Kernel}
  {c e : Slot} {r : Regs} {f k : Nat} {l : List Nat}

/-- The pages of a stack reach its top. -/
theorem stackPages_top (sp : Nat) :
    stackPages sp = 0 ∨ rounddown sp by2pg + stackPages sp * by2pg = ustacktop := by
  have htop : ustacktop = 917502 * by2pg := by decide
  unfold stackPages
  rw [htop]
  simp only [rounddown, by2pg]
  omega

/-- The state the handlers start in. -/
theorem trapped (h : KernelInv L base km ρ fl s) (r : Regs) :
    KernelInv L base km ρ fl (s.trapped r) := h.withFrames (saveall syncStack r) s.timeFrame

/-- Some number of pages of the stack is mapped from the bottom. -/
theorem exists_mappedUpTo (s : Kernel) (c : Slot) (sp : Nat) : ∃ k, s.MappedUpTo c sp k := by
  have hex : ∃ k, k = stackPages sp ∨
      translate s.phys.mem (s.envs c).envPgdir (rounddown sp by2pg + k * by2pg) = none :=
    ⟨_, Or.inl rfl⟩
  refine ⟨Nat.find hex, Nat.find_min' hex (Or.inl rfl), fun i hi => ?_, fun hlt => ?_⟩
  · exact Option.ne_none_iff_exists'.mp fun hno => Nat.find_min hex hi (Or.inr hno)
  · exact (Nat.find_spec hex).resolve_left (ne_of_lt hlt)

/-- **The loop, from a directory that has just been made.** -/
theorem fork_ends (h : KernelInv L base km ρ fl s) (hc : s.curenv = some c)
    (hlo : 0x80000000 ≤ r.spEl0) (he : s.envFreeList.first () = some e)
    (hl : IsList s.phys.pageFreeList () (f :: l)) (hmap : s.MappedUpTo c r.spEl0 k) :
    (k = stackPages r.spEl0 → stackCost (rounddown r.spEl0 by2pg) (stackPages r.spEl0) ≤ l.length →
      s.ForkEnds r c (f :: l) .child) ∧
    (k < stackPages r.spEl0 → stackCost (rounddown r.spEl0 by2pg) k < l.length →
      s.ForkEnds r c (f :: l) .fault) ∧
    (l.length < stackCost (rounddown r.spEl0 by2pg) k ∨
        k < stackPages r.spEl0 ∧ l.length = stackCost (rounddown r.spEl0 by2pg) k →
      ¬ (stackPages r.spEl0 = 1 ∧ k = 1 ∧ l ≠ []) → s.ForkEnds r c (f :: l) .noMem) := by
  obtain ⟨hk, hm, hstop⟩ := hmap
  have hd := h.dir c (h.cur c hc)
  obtain ⟨q, hq, hlq⟩ := Phys.pageAlloc_cons hl
  obtain ⟨h1, hk1, hfree⟩ := setupVm_spec h.forest hq
  have hne : (s.envs c).envPgdir ≠ f := by
    intro he
    rw [he, hfree] at hd
    cases hd
  have hkept : ∀ va, translate ((q.incRef f).copyPage L.pgDir f).mem (s.envs c).envPgdir va
      = translate s.phys.mem (s.envs c).envPgdir va := fun va =>
    unused_translate hfree (fun _ hg => setupVm_mem h.forest hq hg) h.forest h1 (by simp) va hd
  have hrow : ∀ va', UserVa va' → ¬ HasPmd ((q.incRef f).copyPage L.pgDir f).mem f va' :=
    fun va' hva' => setupVm_row h.forest hq hva'
  have hb : 0x80000000 ≤ rounddown r.spEl0 by2pg := by
    simp only [rounddown, by2pg]
    omega
  have hedge : Edge ((q.incRef f).copyPage L.pgDir f).mem f (rounddown r.spEl0 by2pg)
      (rounddown r.spEl0 by2pg / 0x40000000) (rounddown r.spEl0 by2pg / 0x200000) := by
    refine ⟨fun va' hle hlt => ?_, fun va' hle hlt => ?_, by omega, by omega⟩
    · have hno := hrow va' (userVa_stack (by omega) hlt)
      exact ⟨fun hv => absurd hv hno, fun hv => by omega⟩
    · have hno := hrow va' (userVa_stack (by omega) hlt)
      exact ⟨fun hv => absurd hv.1 hno, fun hv => by omega⟩
  obtain ⟨hchild, hfault, hnomem⟩ := forkStack_ends h1 (hk1 _ hd) (Function.update_self f Role.dir ρ)
    hne hb (stackPages_top r.spEl0)
    (fun i hi => setupVm_space h.forest hq (fork_userVa hlo i hi)) hedge hlq hk
    (fun i hi => by rw [hkept]; exact hm i hi) (fun hlt => by rw [hkept]; exact hstop hlt)
  obtain ⟨herr, hok⟩ := Kernel.forkEnv_loop (s := s.trapped r) (c := c) he hq
  have hpg : (s.trapped r).pgDir = L.pgDir := h.pgDir
  rw [hpg] at herr hok
  refine ⟨fun hkn hcost => ?_, fun hlt hcost => ?_, fun hshort hhole => ?_⟩
  · obtain ⟨ρ', p', hloop, hcopied, hl'⟩ := hchild hkn hcost
    have hstack : Kernel.forkStack ((s.trapped r).envs c).envPgdir f
        ((ustacktop - rounddown (s.trapped r).kernelFrame.sp by2pg) / by2pg)
        (rounddown (s.trapped r).kernelFrame.sp by2pg)
        ((q.incRef f).copyPage (s.trapped r).pgDir f) = .ok (0, p') := by
      rw [hpg]
      exact hloop
    have hfork := Kernel.forkEnv_eq (s := s.trapped r) he hq hstack (by decide)
    refine ⟨e, _, Kernel.svc_envAlloc hc hfork, he, h.copied_faithful hc hlo hq hcopied, ?_⟩
    rw [Nat.add_comm 1, List.drop_succ_cons]
    exact hl'
  · exact Kernel.svc_envAlloc_halts hc (herr _ (hfault hlt hcost))
  · obtain ⟨p', hloop, hnil⟩ := hnomem hshort hhole
    obtain ⟨x, hx⟩ := hok _ p' hloop
    rw [if_pos (by decide)] at hx
    refine ⟨x, Kernel.svc_envAlloc_inl hc hx, ?_⟩
    rcases Kernel.forkEnv_ok hx with ⟨-, -, hno⟩ | ⟨e', f', q', v, phys, -, hq', hstack, -, rfl⟩
    · rw [show (s.trapped r).envFreeList.first () = some e from he] at hno
      cases hno
    · cases hq.symm.trans hq'
      rw [hpg] at hstack
      cases hloop.symm.trans hstack
      exact hnil

/-- A call for which there is no slot, or no frame for the directory. -/
theorem fork_refused (hc : s.curenv = some c) :
    (s.envFreeList.first () = none → s.ForkEnds r c l .noFreeEnv) ∧
      ∀ e, s.envFreeList.first () = some e → s.phys.pageFreeList.first () = none →
        s.ForkEnds r c l .noDirectory := by
  refine ⟨fun he => Kernel.svc_envAlloc_inl hc ?_, fun e he hnil => Kernel.svc_envAlloc_halts hc ?_⟩
  · have hal : ∀ i, (s.trapped r).envAlloc i = .ok (none, s.trapped r) := by
      intro i
      unfold Kernel.envAlloc
      rw [show (s.trapped r).envFreeList.first () = none from he]
    simp only [Kernel.forkEnv, hal, bind, Except.bind]
    rfl
  · have hsetup : (s.trapped r).envSetupVm e = .error .envSetupVmPanic := by
      unfold Kernel.envSetupVm
      rw [show (s.trapped r).phys.pageAlloc = none from Phys.pageAlloc_eq_none.mpr hnil]
    simp only [Kernel.forkEnv, Kernel.envAlloc,
      show (s.trapped r).envFreeList.first () = some e from he, hsetup, bind, Except.bind]

/-- A stack of one page, with a frame for the page and too few for its tables. -/
theorem fork_husk (h : KernelInv L base km ρ fl s) (hc : s.curenv = some c)
    (he : s.envFreeList.first () = some e) (hl : IsList s.phys.pageFreeList () l)
    (hmap : s.MappedUpTo c r.spEl0 1) (hone : stackPages r.spEl0 = 1) (hframes : 2 ≤ l.length)
    (hshort : l.length < 1 + stackCost (rounddown r.spEl0 by2pg) (stackPages r.spEl0)) :
    s.ForkEnds r c l .husk := by
  have hsp : rounddown r.spEl0 by2pg = ustacktop - by2pg := by
    rcases stackPages_top r.spEl0 with h0 | htop
    · omega
    · rw [hone] at htop
      omega
  have hcost : stackCost (ustacktop - by2pg) 1 = 3 := by decide
  rw [hsp, hone, hcost] at hshort
  have hstarved : s.ForkStarved r.spEl0 := ⟨hsp, by rw [he]; simp, l, hl, by omega⟩
  have hmapped : s.StackMapped c r.spEl0 := by
    intro va hva hvat
    obtain ⟨t, ht⟩ := hmap.2.1 0 Nat.one_pos
    rw [Nat.zero_mul, Nat.add_zero] at ht
    refine ⟨t, (translate_congr ?_).trans ht⟩
    have htop : ustacktop = 0xdfffe000 := by decide
    rw [hsp, htop] at hva ⊢
    simp only [by2pg] at hva ⊢
    omega
  obtain ⟨e', s', hf, hnot⟩ := h.fork_starved hc hmapped hstarved
  rcases Kernel.forkEnv_ok hf with ⟨hr, -⟩ | ⟨e₀, -, -, v, -, hfirst, -, -, hr, -⟩
  · cases hr
  · have hee : e' = e₀ := by
      split at hr <;> cases hr
      rfl
    exact ⟨e', s', Kernel.svc_envAlloc hc hf, hee ▸ hfirst, hnot⟩

/-- **The call ends as the numbers say.** -/
theorem forkEnds (h : KernelInv L base km ρ fl s) (hc : s.curenv = some c)
    (hlo : 0x80000000 ≤ r.spEl0) (hl : IsList s.phys.pageFreeList () l)
    (hmap : s.MappedUpTo c r.spEl0 k) :
    s.ForkEnds r c l (forkEnd (s.envFreeList.first ()).isSome l.length (rounddown r.spEl0 by2pg)
      (stackPages r.spEl0) k) := by
  unfold forkEnd
  obtain ⟨hnoslot, hnodir⟩ := fork_refused (r := r) (l := l) hc
  cases he : s.envFreeList.first () with
  | none => exact hnoslot he
  | some e =>
    rw [Option.isSome_some, if_neg (by decide)]
    rcases l with _ | ⟨f, l⟩
    · exact hnodir e he (hl.first_eq_none_iff.mpr rfl)
    obtain ⟨hchild, hfault, hnomem⟩ := h.fork_ends hc hlo he hl hmap
    rw [if_neg (by simp), List.length_cons]
    split
    · rename_i hlt
      split
      · exact hfault hlt (by omega)
      · exact hnomem (by omega) (by omega)
    · rename_i hge
      obtain rfl : k = stackPages r.spEl0 := le_antisymm hmap.1 (not_lt.mp hge)
      split
      · exact hchild rfl (by omega)
      · rename_i hshort
        split
        · rename_i hone
          refine h.fork_husk hc he hl (hone.1 ▸ hmap) hone.1 hone.2 ?_
          rw [List.length_cons]
          omega
        · rename_i hhole
          refine hnomem (by omega) ?_
          rintro ⟨h1, -, h2⟩
          have := List.length_pos_iff.mpr h2
          omega

end KernelInv

namespace Kernel

/-- **How a fork ends**, in every state that tame steps reach from boot on clean memory.  Three
numbers decide: how many frames are free, how many pages the stack of the caller has, and how many of
them, from the bottom, are mapped. -/
theorem fork_outcome {L : Layout} {ram : Mem} {s : Kernel} {c : Slot} {r : Regs} {l : List Nat}
    {k : Nat} (hclean : CleanRam L ram) (hs : s.TameReachable L ram) (hc : s.curenv = some c)
    (hlo : 0x80000000 ≤ r.spEl0) (hl : IsList s.phys.pageFreeList () l)
    (hmap : s.MappedUpTo c r.spEl0 k) :
    s.ForkEnds r c l (forkEnd (s.envFreeList.first ()).isSome l.length (rounddown r.spEl0 by2pg)
      (stackPages r.spEl0) k) := by
  obtain ⟨_, _, _, _, _, _, hi⟩ := KernelInv.ofReachable hclean hs
  exact hi.forkEnds hc hlo hl hmap

/-- The first environment forks with four frames left, for a directory, a page and its two tables: it
is just enough. -/
theorem fork_outcome_four : ∃ (s : Kernel) (l : List Nat), s.TameReachable image coldRam ∧
    IsList s.phys.pageFreeList () l ∧ l.length = 4 ∧
    s.ForkEnds ⟨fun _ => 0, ustacktop - 8, 0, 0⟩ 0 l .child := by
  obtain ⟨s₀, s, base, n, ρ, hs, _, h, hk⟩ := firstEnv_left (k := 4) (by decide)
  have hlen : ((freshPages base).drop n).length = 4 := by
    rw [List.length_drop, length_freshPages]
    omega
  have hmap : s.MappedUpTo 0 (ustacktop - 8) 1 := by
    refine ⟨by decide, fun i hi => ?_, fun hlt => absurd hlt (by decide)⟩
    obtain rfl : i = 0 := by omega
    exact h.stackMapped _ (by decide) (by decide)
  have hslot : (s.envFreeList.first ()).isSome = true := by
    refine Option.isSome_iff_ne_none.mpr ?_
    rw [Ne, h.inv.list.first_eq_none_iff]
    simp
  have hout := fork_outcome (r := ⟨fun _ => 0, ustacktop - 8, 0, 0⟩) cleanRam_coldRam hs h.cur
    (by decide) h.pages hmap
  rw [hslot, hlen] at hout
  exact ⟨s, _, hs, h.pages, hlen, hout⟩

end Kernel

end RaspiOS
