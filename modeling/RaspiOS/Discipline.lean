/-
# The user-half discipline, and the invariant of runs that keep it

The system calls take any address and any permission word.  `Tame` is the condition on one step
under which they behave: addresses in the user half, permission words that leave the frame number
alone, counters that do not wrap, and no `env_destroy` that would hand `page_remove` the address of
a table where the caller's directory maps something.  Each clause is asked only of a call that
would otherwise succeed.

`KernelInv` ties the forest of frames to the environment table: every slot that is not on
`env_free_list` has a directory of its own.  Every tame step keeps it (`KernelInv.step`), so every
run of tame steps from boot does (`KernelInv.run`).
-/
import RaspiOS.EnvSpec
import RaspiOS.Space
import RaspiOS.Lib.Run

set_option autoImplicit false

namespace RaspiOS

open LinkedList

/-! ## 1. Tame steps -/

/-- An address whose entry in a directory is not one of the two copied from `_pg_dir`. -/
def UserVa (va : Nat) : Prop := 2 ≤ (pudx va).val

/-- `env_free` on this directory finds nothing where it looks up the physical addresses of its
tables. -/
def EnvFreeSafe (p : Phys) (pgdir : Nat) : Prop :=
  ∀ i : Fin 512, 3 ≤ i.val → Valid (p.mem pgdir i) →
    p.pageLookup pgdir (page2pa (ppn (p.mem pgdir i))) = .ok none ∧
    ∀ j, Valid (p.mem (ppn (p.mem pgdir i)) j) →
      p.pageLookup pgdir (page2pa (ppn (p.mem (ppn (p.mem pgdir i)) j))) = .ok none

namespace Kernel

/-- A system call of the running environment keeps the discipline. -/
def TameCall (s : Kernel) (r : Regs) : Syscall → Prop
  | .memAlloc envid va perm =>
    perm &&& pteV ≠ 0 → ∀ e f q, s.envid2env envid true = some e →
      s.phys.pageAlloc = some (f, q) → UserVa va ∧ PermOk f perm
  | .memMap srcid srcva dstid dstva perm =>
    perm &&& pteV ≠ 0 → ∀ src dst f a, s.envid2env srcid true = some src →
      s.envid2env dstid true = some dst →
      s.phys.pageLookup (s.envs src).envPgdir (rounddown srcva by2pg) = .ok (some (f, a)) →
      UserVa srcva ∧ UserVa dstva ∧ PermOk f perm ∧ s.phys.ppRef f < 2 ^ 16 - 1
  | .memUnmap envid va =>
    ∀ e f a, s.envid2env envid true = some e →
      s.phys.pageLookup (s.envs e).envPgdir va = .ok (some (f, a)) → UserVa va
  | .ipcCanSend envid _ srcva perm =>
    srcva ≠ 0 → ∀ c e f a, s.curenv = some c → s.envid2env envid false = some e →
      (s.envs e).envIpcRecving ≠ 0 →
      s.phys.pageLookup (s.envs c).envPgdir srcva = .ok (some (f, a)) →
      UserVa srcva ∧ UserVa (s.envs e).envIpcDstva ∧ PermOk f perm ∧ s.phys.ppRef f < 2 ^ 16 - 1
  | .envAlloc => 0x80000000 ≤ r.spEl0
  | .envDestroy envid =>
    ∀ e, s.envid2env envid true = some e → EnvFreeSafe s.phys (s.envs e).envPgdir
  | _ => True

/-- **A step keeps the user-half discipline.** -/
def Tame (s : Kernel) : Event → Prop
  | .svc r call => s.TameCall r call
  | .store va _ => UserVa va
  | _ => True

end Kernel

/-! ## 2. Arithmetic of addresses -/

theorem permOk_pteV (f : Nat) : PermOk f pteV := ppn_leafDesc_of_lt f (by decide)

theorem pudx_rounddown (va : Nat) : pudx (rounddown va by2pg) = pudx va := by
  ext
  rw [pudx_val, pudx_val]
  simp only [rounddown, by2pg]
  omega

theorem userVa_rounddown {va : Nat} (h : UserVa va) : UserVa (rounddown va by2pg) := by
  unfold UserVa
  rw [pudx_rounddown]
  exact h

/-- The address the loops of `env_free` build from three indices lies in that page. -/
theorem pageOf_join (i j k : Fin 512) :
    pageOf ((i.val <<< 30) + (j.val <<< 21) + (k.val <<< 12)) = (i, j, k) := by
  have hi := i.isLt
  have hj := j.isLt
  have hk := k.isLt
  simp only [Nat.shiftLeft_eq]
  refine Prod.ext (Fin.ext ?_) (Prod.ext (Fin.ext ?_) (Fin.ext ?_))
  · change (pudx _).val = i.val
    rw [pudx_val]
    omega
  · change (pmdx _).val = j.val
    rw [pmdx_val]
    omega
  · change (ptex _).val = k.val
    rw [ptex_val]
    omega

/-- The pages of a stack that starts in the user half lie in the user half. -/
theorem userVa_stack {va : Nat} (hlo : 0x80000000 ≤ va) (hhi : va < ustacktop) : UserVa va := by
  unfold UserVa
  rw [pudx_val]
  simp only [ustacktop, utop, by2pg] at hhi
  omega

/-! ## 3. The operations on a forest, once more -/

namespace Forest

variable {L : Layout} {base : Nat} {km : Mem} {ρ : Nat → Role} {p p' : Phys} {d va : Nat}

/-- `page_insert` keeps the forest, whatever it returns. -/
theorem insert_ok (h : Forest L base km ρ p) (hd : ρ d = .dir) (hva : UserVa va) {pp perm : Nat}
    {r : Int} (hpp : (ρ pp).IsPage) (hlt : p.ppRef pp < 2 ^ 16 - 1) (hperm : PermOk pp perm)
    (he : p.pageInsert d pp va perm = .ok (r, p')) :
    ∃ ρ', Forest L base km ρ' p' ∧ Local ρ d p ρ' p' := by
  rcases h.pageInsert hd hva hpp hlt hperm with ⟨ρ1, p1, h1, hins⟩ | ⟨_, ρ1, p1, h1, hg, _⟩
  · rw [he] at h1
    cases h1
    exact ⟨ρ1, hins.forest, hins.frame⟩
  · rw [he] at h1
    cases h1
    exact ⟨ρ1, hg.forest, hg.frame⟩

/-- A page found in the user half is a page. -/
theorem page_of_lookup (h : Forest L base km ρ p) (hd : ρ d = .dir) (hva : UserVa va) {f : Nat}
    {a : Ptr} (he : p.pageLookup d va = .ok (some (f, a))) : (ρ f).IsPage := by
  rcases h.pageLookup hd hva with ⟨_, h1⟩ | ⟨u, ⟨t, _, hut⟩, hv, _, h1⟩
  · rw [he] at h1
    cases h1
  · rw [he] at h1
    cases h1
    exact h.page_of_leaf hut hv

/-- Removing a page that is not mapped changes nothing. -/
theorem remove_unmapped (he : p.pageLookup d va = .ok none) : p.pageRemove d va = .ok p := by
  simp only [Phys.pageRemove, he]
  rfl

/-- The innermost loop of `env_free` only visits entries that are not valid. -/
theorem envFreePtes_id (h : Forest L base km ρ p) (hd : ρ d = .dir) {i j : Fin 512} {u : Nat}
    (hi : 3 ≤ i.val) (hu : ∃ t, ρ t = .pmd d i ∧ ρ u = .pte t j) :
    Kernel.envFreePtes d i j u p = .ok p := by
  refine Except.foldlM_id ?_
  intro k _
  by_cases hv : Valid (p.mem u k)
  · rw [if_neg (not_not.mpr hv)]
  · rw [if_pos hv]
    have hpage := pageOf_join i j k
    have hva : UserVa ((i.val <<< 30) + (j.val <<< 21) + (k.val <<< 12)) := by
      have h1 : pudx ((i.val <<< 30) + (j.val <<< 21) + (k.val <<< 12)) = i :=
        congrArg Prod.fst hpage
      unfold UserVa
      rw [h1]
      omega
    have hlead : Leads ρ d (pageOf ((i.val <<< 30) + (j.val <<< 21) + (k.val <<< 12))) u := by
      rw [hpage]
      exact hu
    refine remove_unmapped ?_
    rcases h.pageLookup hd hva with ⟨_, h1⟩ | ⟨v, hv1, hv2, _⟩
    · exact h1
    · obtain rfl := h.leads_unique hlead hv1
      have hk : ptex ((i.val <<< 30) + (j.val <<< 21) + (k.val <<< 12)) = k :=
        congrArg (fun g : Page => g.2.2) hpage
      rw [hk] at hv2
      exact absurd hv2 hv

theorem mem_drop_finRange {n : Nat} {i : Fin 512} (hi : i ∈ (List.finRange 512).drop n) :
    n ≤ i.val := by
  obtain ⟨k, hk, rfl⟩ := List.mem_iff_getElem.mp hi
  simp

/-- **`env_free` touches no frame**, where the table addresses are not mapped. -/
theorem envFreePuds_id (h : Forest L base km ρ p) (hd : ρ d = .dir) (hsafe : EnvFreeSafe p d) :
    Kernel.envFreePuds d p = .ok p := by
  have h3 : (pudx 0xc0000000).val = 3 := by decide
  refine Except.foldlM_id ?_
  intro i hi
  have hi3 : 3 ≤ i.val := by
    have h := mem_drop_finRange hi
    omega
  by_cases hv : Valid (p.mem d i)
  · obtain ⟨hs1, hs2⟩ := hsafe i hi3 hv
    have ht := (h.dirUser d hd i (by omega) hv).2
    have hpmds : Kernel.envFreePmds d i (ppn (p.mem d i)) p = .ok p := by
      refine Except.foldlM_id ?_
      intro j _
      by_cases hv2 : Valid (p.mem (ppn (p.mem d i)) j)
      · have hu := (h.pmdUser _ d i ht j hv2).2
        rw [if_neg (not_not.mpr hv2)]
        simp only [h.envFreePtes_id hd hi3 ⟨_, ht, hu⟩]
        exact remove_unmapped (hs2 j hv2)
      · rw [if_pos hv2]
    rw [if_neg (not_not.mpr hv)]
    simp only [hpmds]
    exact remove_unmapped hs1
  · rw [if_pos hv]

end Forest

/-! ## 4. The invariant -/

/-- **The frames and the environment table fit together.**  `fl` is `env_free_list`; the slots
that are not on it are the environments, among them some whose status is `ENV_FREE`. -/
structure KernelInv (L : Layout) (base : Nat) (km : Mem) (ρ : Nat → Role) (fl : List Slot)
    (s : Kernel) : Prop where
  forest : Forest L base km ρ s.phys
  pgDir : s.pgDir = L.pgDir
  list : IsList s.envFreeList () fl
  free : ∀ e ∈ fl, (s.envs e).envStatus = .free
  dir : ∀ e, e ∉ fl → ρ (s.envs e).envPgdir = .dir
  inj : ∀ e e', e ∉ fl → e' ∉ fl → (s.envs e).envPgdir = (s.envs e').envPgdir → e = e'
  cur : ∀ c, s.curenv = some c → c ∉ fl

/-- Directories stay directories. -/
def DirsKept (ρ ρ' : Nat → Role) : Prop := ∀ d, ρ d = .dir → ρ' d = .dir

theorem Local.dirsKept {ρ ρ' : Nat → Role} {d : Nat} {p p' : Phys} (h : Local ρ d p ρ' p') :
    DirsKept ρ ρ' := fun e he => by rw [h.table (by simp [he]) (by simp [he]), he]

theorem DirsKept.trans {ρ ρ' ρ'' : Nat → Role} (h : DirsKept ρ ρ') (h' : DirsKept ρ' ρ'') :
    DirsKept ρ ρ'' := fun d hd => h' d (h d hd)

/-- Directories, tables and pinned pages keep their roles. -/
def Settled (ρ ρ' : Nat → Role) : Prop := ∀ f, ρ f ≠ .free → ρ f ≠ .data → ρ' f = ρ f

theorem Settled.refl (ρ : Nat → Role) : Settled ρ ρ := fun _ _ _ => rfl

theorem Settled.trans {ρ ρ' ρ'' : Nat → Role} (h : Settled ρ ρ') (h' : Settled ρ' ρ'') :
    Settled ρ ρ'' := by
  intro f hfree hdata
  have hf := h f hfree hdata
  rw [h' f (by rwa [hf]) (by rwa [hf]), hf]

theorem Settled.dirsKept {ρ ρ' : Nat → Role} (h : Settled ρ ρ') : DirsKept ρ ρ' :=
  fun d hd => (h d (by simp [hd]) (by simp [hd])).trans hd

theorem Local.settled {ρ ρ' : Nat → Role} {d : Nat} {p p' : Phys} (h : Local ρ d p ρ' p') :
    Settled ρ ρ' := fun _ hfree hdata => h.table hfree hdata

/-- A free frame is taken, or a page is given another use. -/
theorem settled_update {ρ : Nat → Role} {f : Nat} {r : Role} (hf : ρ f = .free ∨ ρ f = .data) :
    Settled ρ (Function.update ρ f r) := by
  intro g hfree hdata
  refine Function.update_of_ne ?_ _ _
  rintro rfl
  exact hf.elim hfree hdata

/-- **What becomes of the roles in a step**: the counter of the ids goes on only where a free frame
becomes a directory. -/
structure Ages (s : Kernel) (ρ : Nat → Role) (s' : Kernel) (ρ' : Nat → Role) : Prop where
  settled : Settled ρ ρ'
  counter : s'.nextEnvId = s.nextEnvId ∨
    s'.nextEnvId = s.nextCounter ∧ ∃ p, ρ p = .free ∧ ρ' p = .dir

/-- Nothing has a new use. -/
theorem Ages.keep {s s' : Kernel} {ρ ρ' : Nat → Role} (h : Settled ρ ρ')
    (hn : s'.nextEnvId = s.nextEnvId) : Ages s ρ s' ρ' := ⟨h, Or.inl hn⟩

/-- Changing the role of a frame that is no directory. -/
theorem dirsKept_update {ρ : Nat → Role} {f : Nat} {r : Role} (hf : ρ f ≠ .dir) :
    DirsKept ρ (Function.update ρ f r) := fun _ hd => update_role hf hd

namespace KernelInv

variable {L : Layout} {base : Nat} {km : Mem} {ρ ρ' : Nat → Role} {fl : List Slot}
  {s s' : Kernel} {e c : Slot}

/-- An environment that an id resolves to is not on the free list. -/
theorem not_mem_of_resolve (h : KernelInv L base km ρ fl s) {envid : Nat} {b : Bool}
    (he : s.envid2env envid b = some e) : e ∉ fl := by
  unfold Kernel.envid2env at he
  split at he
  · exact h.cur e he
  · dsimp only at he
    split at he
    · cases he
    · rename_i hlive
      split at he
      · cases he
      · cases he
        intro hm
        exact hlive (Or.inl (h.free _ hm))

theorem not_mem_of_status (h : KernelInv L base km ρ fl s) (he : (s.envs e).envStatus ≠ .free) :
    e ∉ fl := fun hm => he (h.free e hm)

/-- A change of other fields of the kernel. -/
theorem of_eq (h : KernelInv L base km ρ fl s) (hphys : s'.phys = s.phys)
    (hpg : s'.pgDir = s.pgDir) (hl : s'.envFreeList = s.envFreeList)
    (hdir : ∀ e, (s'.envs e).envPgdir = (s.envs e).envPgdir)
    (hst : ∀ e ∈ fl, (s'.envs e).envStatus = (s.envs e).envStatus)
    (hc : ∀ c, s'.curenv = some c → c ∉ fl) : KernelInv L base km ρ fl s' where
  forest := by rw [hphys]; exact h.forest
  pgDir := by rw [hpg, h.pgDir]
  list := by rw [hl]; exact h.list
  free := by
    intro e he
    rw [hst e he, h.free e he]
  dir := by
    intro e he
    rw [hdir, h.dir e he]
  inj := by
    intro e e' he he' heq
    rw [hdir, hdir] at heq
    exact h.inj e e' he he' heq
  cur := hc

/-- A change of memory that keeps the directories. -/
theorem withPhys (h : KernelInv L base km ρ fl s) {phys : Phys} (hf : Forest L base km ρ' phys)
    (hd : DirsKept ρ ρ') : KernelInv L base km ρ' fl { s with phys := phys } where
  forest := hf
  pgDir := h.pgDir
  list := h.list
  free := h.free
  dir := fun e he => hd _ (h.dir e he)
  inj := h.inj
  cur := h.cur

/-- A change of one environment that keeps its directory. -/
theorem modifyEnv (h : KernelInv L base km ρ fl s) (he : e ∉ fl) {f : Env → Env}
    (hf : ∀ v, (f v).envPgdir = v.envPgdir) : KernelInv L base km ρ fl (s.modifyEnv e f) := by
  refine h.of_eq rfl rfl rfl ?_ ?_ h.cur
  · intro e'
    by_cases hee : e' = e
    · subst hee
      rw [Kernel.envs_modifyEnv_self, hf]
    · rw [Kernel.envs_modifyEnv_ne _ _ hee]
  · intro e' he'
    rw [Kernel.envs_modifyEnv_ne]
    rintro rfl
    exact he he'

/-- Running an environment that is not on the free list. -/
theorem envRun (h : KernelInv L base km ρ fl s) (he : e ∉ fl) :
    KernelInv L base km ρ fl (s.envRun e) := by
  refine h.of_eq (by simp) (by simp) (by simp) ?_ ?_ ?_
  · intro e'
    rw [Kernel.envs_envRun]
  · intro e' _
    rw [Kernel.envs_envRun]
  · intro c hc
    rw [Kernel.curenv_envRun] at hc
    cases hc
    exact he

/-- `sched_yield` runs an environment that is not on the free list. -/
theorem schedYield (h : KernelInv L base km ρ fl s) (hy : s.schedYield = .ok s') :
    KernelInv L base km ρ fl s' := by
  obtain ⟨pos, n, hn, rfl⟩ := Kernel.schedYield_ok hy
  have h1 : KernelInv L base km ρ fl { s with pos := pos } :=
    h.of_eq rfl rfl rfl (fun _ => rfl) (fun _ _ => rfl) h.cur
  exact h1.envRun (h.not_mem_of_status (by rw [hn]; simp))

/-- A slot leaves the free list with a directory of its own. -/
theorem allocated (h : KernelInv L base km ρ fl s) (parentId : Nat)
    (hfirst : s.envFreeList.first () = some e) {p : Nat} {phys : Phys} (hf : Forest L base km ρ' phys)
    (hd : DirsKept ρ ρ') (hp : ρ' p = .dir) (hnew : ρ p ≠ .dir) :
    ∃ fl', fl = e :: fl' ∧
      KernelInv L base km ρ' fl' ({ s with phys := phys }.allocated e p parentId) := by
  obtain ⟨fl', rfl⟩ := h.list.eq_cons hfirst
  have hnd := List.nodup_cons.mp h.list.nodup
  have henv : ∀ e', e' ≠ e → (({ s with phys := phys }.allocated e p parentId).envs e')
      = s.envs e' := fun e' he' => Kernel.envs_modifyEnv_ne _ _ he'
  have hself : (({ s with phys := phys }.allocated e p parentId).envs e).envPgdir = p := by
    simp [Kernel.allocated, Kernel.freshEnv]
  refine ⟨fl', rfl, ?_⟩
  exact
    { forest := hf
      pgDir := h.pgDir
      list := h.list.remove_head
      free := by
        intro e' he'
        have hne : e' ≠ e := by
          rintro rfl
          exact hnd.1 he'
        rw [henv e' hne]
        exact h.free e' (List.mem_cons_of_mem _ he')
      dir := by
        intro e' he'
        by_cases hee : e' = e
        · subst hee
          rw [hself, hp]
        · rw [henv e' hee]
          exact hd _ (h.dir e' (by simp [hee, he']))
      inj := by
        intro a b ha hb hab
        by_cases hae : a = e
        · by_cases hbe : b = e
          · rw [hae, hbe]
          · rw [hae, hself, henv b hbe] at hab
            exact absurd (hab ▸ h.dir b (by simp [hbe, hb])) hnew
        · by_cases hbe : b = e
          · rw [hbe, hself, henv a hae] at hab
            exact absurd (hab ▸ h.dir a (by simp [hae, ha])) hnew
          · rw [henv a hae, henv b hbe] at hab
            exact h.inj a b (by simp [hae, ha]) (by simp [hbe, hb]) hab
      cur := by
        intro c hc hm
        exact h.cur c hc (List.mem_cons_of_mem _ hm) }

/-- A slot goes back to the free list. -/
theorem freed (h : KernelInv L base km ρ fl s) (he : e ∉ fl)
    (hc : s.curenv ≠ some e) : KernelInv L base km ρ (e :: fl) (s.freed e) := by
  have henv : ∀ e', e' ≠ e → ((s.freed e).envs e') = s.envs e' := by
    intro e' he'
    simp [Kernel.freed, Kernel.schedRemove, Kernel.modifyEnv, he']
  have hself : ((s.freed e).envs e).envStatus = .free := by
    simp [Kernel.freed, Kernel.schedRemove]
  exact
    { forest := h.forest
      pgDir := h.pgDir
      list := h.list.insertHead he
      free := by
        intro e' he'
        by_cases hee : e' = e
        · rw [hee, hself]
        · rw [henv e' hee]
          exact h.free e' (List.mem_of_ne_of_mem hee he')
      dir := by
        intro e' he'
        rw [List.mem_cons, not_or] at he'
        rw [henv e' he'.1]
        exact h.dir e' he'.2
      inj := by
        intro a b ha hb hab
        rw [List.mem_cons, not_or] at ha hb
        rw [henv a ha.1, henv b hb.1] at hab
        exact h.inj a b ha.2 hb.2 hab
      cur := by
        intro c hc' hm
        rcases List.mem_cons.mp hm with rfl | hm
        · exact hc hc'
        · exact h.cur c hc' hm }

/-! ## 5. Every tame step keeps it -/

/-- A page taken from the free list, before anything is done with it. -/
theorem take_spec {p q : Phys} {f : Nat} (h : Forest L base km ρ p)
    (hp : p.pageAlloc = some (f, q)) :
    Forest L base km (Function.update ρ f .data) q ∧ DirsKept ρ (Function.update ρ f .data) ∧
      ρ f = .free ∧ q.ppRef f = 0 ∧ ∀ g, g ≠ f → q.mem g = p.mem g := by
  obtain ⟨h1, hfree, href, hmem⟩ := h.take hp
  refine ⟨h1, dirsKept_update (by simp [hfree]), hfree, by rw [href, h.ppRef_free hfree], ?_⟩
  intro g hg
  funext i
  rw [hmem, if_neg hg]

/-- `env_setup_vm` makes a directory of a free frame. -/
theorem setupVm_spec {p q : Phys} {f : Nat} (h : Forest L base km ρ p)
    (hp : p.pageAlloc = some (f, q)) :
    Forest L base km (Function.update ρ f .dir) ((q.incRef f).copyPage L.pgDir f) ∧
      DirsKept ρ (Function.update ρ f .dir) ∧ ρ f = .free := by
  obtain ⟨h1, _, hfree, href, _⟩ := take_spec h hp
  have h2 := h1.newDir (Function.update_self _ _ _) href
  rw [Function.update_idem] at h2
  exact ⟨h2, dirsKept_update (by simp [hfree]), hfree⟩

/-- Nothing but the frame of the new directory changes. -/
theorem setupVm_mem {p q : Phys} {f g : Nat} (h : Forest L base km ρ p)
    (hp : p.pageAlloc = some (f, q)) (hg : g ≠ f) :
    ((q.incRef f).copyPage L.pgDir f).mem g = p.mem g := by
  obtain ⟨_, _, _, _, hmem⟩ := take_spec h hp
  funext i
  rw [← hmem g hg]
  exact if_neg hg

/-- The user half of the new directory is the one of `_pg_dir`. -/
theorem setupVm_row {p q : Phys} {f : Nat} (h : Forest L base km ρ p)
    (hp : p.pageAlloc = some (f, q)) {i : Fin 512} (hi : 2 ≤ i.val) :
    ¬ Valid (((q.incRef f).copyPage L.pgDir f).mem f i) := by
  obtain ⟨h1, _, _⟩ := setupVm_spec h hp
  have hb := h.map.le_base
  have hrow : ((q.incRef f).copyPage L.pgDir f).mem f i = km L.pgDir i := by
    rw [← h1.kernelMem L.pgDir (le_refl _) (by omega)]
    simp only [Phys.copyPage, if_true]
    by_cases hKf : L.pgDir = f
    · rw [if_pos hKf]
    · rw [if_neg hKf]
  exact fun hv => h.map.dir_user _ hi (hrow ▸ hv)

/-- It maps nothing. -/
theorem setupVm_space {p q : Phys} {f : Nat} (h : Forest L base km ρ p)
    (hp : p.pageAlloc = some (f, q)) {g : Page} (hg : 2 ≤ g.1.val) :
    space ((q.incRef f).copyPage L.pgDir f).mem f g = none := by
  unfold space
  rw [if_neg (setupVm_row h hp hg)]

/-- The loop over the stack of `sys_env_alloc`, on pages of the user half. -/
theorem forkStack_spec {active child n va : Nat} {p p' : Phys} {v : Int} (h : Forest L base km ρ p)
    (hd : ρ child = .dir) (hva : ∀ k, k < n → UserVa (va + k * by2pg))
    (he : Kernel.forkStack active child n va p = .ok (v, p')) :
    ∃ ρ', Forest L base km ρ' p' ∧ Settled ρ ρ' := by
  induction n generalizing va p ρ with
  | zero =>
    cases he
    exact ⟨ρ, h, .refl ρ⟩
  | succ n ih =>
    unfold Kernel.forkStack at he
    split at he
    · cases he
      exact ⟨ρ, h, .refl ρ⟩
    · rename_i pp q hq
      obtain ⟨q1, hb, he1⟩ := Except.bind_eq_ok_iff.mp he
      obtain ⟨⟨r, q2⟩, hi, he2⟩ := Except.bind_eq_ok_iff.mp he1
      obtain ⟨h1, hk1, hfree, href, _⟩ := take_spec h hq
      have hpp : Function.update ρ pp .data pp = .data := Function.update_self _ _ _
      have hq1 : Forest L base km (Function.update ρ pp .data) q1 ∧ q1.ppRef pp = 0 := by
        unfold Kernel.bcopyPage at hb
        split at hb
        · cases hb
        · cases hb
          exact ⟨h1.write (by rw [hpp]; trivial) (fun g hg => by
            funext i
            exact if_neg hg), href⟩
      have hva0 : UserVa va := by
        have h0 := hva 0 (Nat.succ_pos n)
        rwa [Nat.zero_mul, Nat.add_zero] at h0
      obtain ⟨ρ2, h2, hl2⟩ := hq1.1.insert_ok (hk1 child hd) hva0 (by rw [hpp]; trivial)
        (by rw [hq1.2]; decide) (permOk_pteV pp) hi
      obtain ⟨ρ3, h3, hk3⟩ := ih h2 (hl2.dirsKept child (hk1 child hd)) (by
        intro k hk
        have h0 := hva (k + 1) (Nat.succ_lt_succ hk)
        rwa [Nat.add_mul, Nat.one_mul, Nat.add_comm (k * by2pg), ← Nat.add_assoc] at h0) he2
      exact ⟨ρ3, h3, ((settled_update (Or.inl hfree)).trans hl2.settled).trans hk3⟩

/-- The addresses `sys_env_alloc` visits. -/
theorem fork_userVa {sp : Nat} (hsp : 0x80000000 ≤ sp) :
    ∀ k, k < (ustacktop - rounddown sp by2pg) / by2pg →
      UserVa (rounddown sp by2pg + k * by2pg) := by
  intro k hk
  have htop : ustacktop = 917502 * by2pg := by decide
  rw [htop] at hk
  refine userVa_stack ?_ ?_
  · simp only [rounddown, by2pg]
    omega
  · rw [htop]
    simp only [rounddown, by2pg] at hk ⊢
    omega

/-- A store to the user half reaches a page. -/
theorem store_spec {p : Phys} {d va : Nat} {t : Translation} (h : Forest L base km ρ p)
    (hd : ρ d = .dir) (hva : UserVa va) (ht : translate p.mem d va = some t) (w : Nat)
    (i : Fin 512) : Forest L base km ρ (p.store ⟨t.frame, i⟩ w) := by
  refine h.write (h.page_of_translate hd hva ht) ?_
  intro g hg
  funext k
  exact if_neg (fun hc => hg hc.1)

/-- `env_create_priority` on the frames. -/
theorem create_spec {p q : Phys} {f : Nat} (h : Forest L base km ρ p)
    (hp : p.pageAlloc = some (f, q)) :
    (((q.incRef f).copyPage L.pgDir f).pageAlloc = none →
      ∃ ρ', Forest L base km ρ' (Kernel.incRefNull ((q.incRef f).copyPage L.pgDir f)) ∧
        Settled ρ ρ' ∧ ρ' f = .dir) ∧
    ∀ g u r phys, ((q.incRef f).copyPage L.pgDir f).pageAlloc = some (g, u) →
      (u.incRef g).pageInsert f g (ustacktop - by2pg) pteV = .ok (r, phys) →
      ∃ ρ', Forest L base km ρ' phys ∧ Settled ρ ρ' ∧ ρ' f = .dir := by
  obtain ⟨h1, _, hfree1⟩ := setupVm_spec h hp
  have hk1 : Settled ρ (Function.update ρ f .dir) := settled_update (Or.inl hfree1)
  have hf : Function.update ρ f .dir f = .dir := Function.update_self _ _ _
  constructor
  · intro _
    refine ⟨_, h1.kernelWrite ?_, hk1, hf⟩
    intro g hg
    funext k
    have h0 : (0 : Nat) < base := by
      have hb := h1.map.le_base
      omega
    have hL := L.linked
    refine if_neg ?_
    rintro ⟨rfl, _⟩
    rcases hg with hg | ⟨hg, _⟩
    · exact hg ((h1.kernel 0).mpr (Or.inl h0))
    · exact absurd (le_trans hL hg) (by decide)
  · intro g u r phys hg hi
    obtain ⟨h2, hk2, hfree, href, _⟩ := take_spec h1 hg
    have h3 := h2.pin (Function.update_self _ _ _) href
    rw [Function.update_idem] at h3
    have hgf : f ≠ g := by
      rintro rfl
      rw [hf] at hfree
      cases hfree
    have hk3 : Settled (Function.update ρ f .dir)
        (Function.update (Function.update ρ f .dir) g .pinned) := settled_update (Or.inl hfree)
    have hva : UserVa (ustacktop - by2pg) := by
      unfold UserVa
      decide
    obtain ⟨ρ4, h4, hl4⟩ := h3.insert_ok (hk3.dirsKept f hf) hva (by rw [Function.update_self]; trivial)
      (by rw [Phys.ppRef_incRef, if_pos rfl, href]; decide) (permOk_pteV g) hi
    exact ⟨ρ4, h4, (hk1.trans hk3).trans hl4.settled, hl4.dirsKept f (hk3.dirsKept f hf)⟩

section Unused

variable {p q : Phys} {f : Nat} (hfree : ρ f = .free) (hmem : ∀ g, g ≠ f → q.mem g = p.mem g)

include hfree hmem

/-- What is done to a frame that was free changes nothing that is in use. -/
theorem unused_local (d : Nat) :
    Local ρ d p (Function.update ρ f .data) q ∧ Keeps ρ (Function.update ρ f .data) := by
  have hne : ∀ g, ρ g ≠ .free → g ≠ f := by
    rintro g hg rfl
    exact hg hfree
  have hk : Keeps ρ (Function.update ρ f .data) :=
    fun g hg => Function.update_of_ne (hne g hg) _ _
  refine ⟨⟨fun g hg => Or.inl (hk g hg), ?_, fun g hg _ => hmem g (hne g hg)⟩, hk⟩
  intro g hg
  by_cases hgf : g = f
  · exact Or.inr (Or.inl (by rw [hgf, Function.update_self]))
  · exact Or.inl (by rw [Function.update_of_ne hgf, hg])

/-- No address space notices. -/
theorem unused_space (h : Forest L base km ρ p) {r : Role}
    (h1 : Forest L base km (Function.update ρ f r) q)
    (hr : ∀ d i, r ≠ .pmd d i ∧ r ≠ .pte d i) {d : Nat} {g : Page} (hd : ρ d = .dir)
    (hg : 2 ≤ g.1.val) : space q.mem d g = space p.mem d g := by
  refine h.toShape.space_congr h1.toShape hd (update_role (by simp [hfree]) hd) hg ?_ ?_
  · rintro u ⟨t, ht, hu⟩
    refine ⟨⟨t, update_role (by simp [hfree]) ht, update_role (by simp [hfree]) hu⟩, ?_⟩
    rw [hmem]
    rintro rfl
    rw [hfree] at hu
    cases hu
  · rintro u ⟨t, ht, hu⟩
    exact Or.inl ⟨t, (role_of_update (hr _ _).1.symm ht).2, (role_of_update (hr _ _).2.symm hu).2⟩

/-- No translation changes. -/
theorem unused_translate (h : Forest L base km ρ p) {r : Role}
    (h1 : Forest L base km (Function.update ρ f r) q)
    (hr : ∀ d i, r ≠ .pmd d i ∧ r ≠ .pte d i) {d : Nat} (va : Nat) (hd : ρ d = .dir) :
    translate q.mem d va = translate p.mem d va := by
  have hd1 : Function.update ρ f r d = .dir := update_role (by simp [hfree]) hd
  by_cases hva : 2 ≤ (pudx va).val
  · rw [h.translate_user hd hva, h1.translate_user hd1 hva,
      unused_space (g := pageOf va) hfree hmem h h1 hr hd hva]
  · rw [h.translate_low hd hva, h1.translate_low hd1 hva]

end Unused

/-- A frame that leaves the free list changes nothing that is in use. -/
theorem take_local {p q : Phys} {f : Nat} (h : Forest L base km ρ p)
    (hp : p.pageAlloc = some (f, q)) (d : Nat) :
    Local ρ d p (Function.update ρ f .data) q ∧ Keeps ρ (Function.update ρ f .data) := by
  obtain ⟨_, _, hfree, _, hmem⟩ := take_spec h hp
  exact unused_local hfree hmem d

theorem take_space {p q : Phys} {f d : Nat} {g : Page} (h : Forest L base km ρ p)
    (hp : p.pageAlloc = some (f, q)) (hd : ρ d = .dir) (hg : 2 ≤ g.1.val) :
    space q.mem d g = space p.mem d g := by
  obtain ⟨h1, _, hfree, _, hmem⟩ := take_spec h hp
  exact unused_space hfree hmem h h1 (by simp) hd hg

theorem take_translate {p q : Phys} {f d va : Nat} (h : Forest L base km ρ p)
    (hp : p.pageAlloc = some (f, q)) (hd : ρ d = .dir) :
    translate q.mem d va = translate p.mem d va := by
  obtain ⟨h1, _, hfree, _, hmem⟩ := take_spec h hp
  exact unused_translate hfree hmem h h1 (by simp) va hd

/-- **What a call on one address space leaves alone**: every other directory keeps all its
translations. -/
def OthersKept (ρ : Nat → Role) (target : Option Nat) (p p' : Phys) : Prop :=
  ∀ d, ρ d = .dir → target ≠ some d → ∀ va, translate p'.mem d va = translate p.mem d va

/-- `sys_mem_alloc`. -/
theorem sysMemAlloc_settled (h : KernelInv L base km ρ fl s) {r : Regs} {x : Exit} {envid va perm : Nat}
    (ht : s.TameCall r (.memAlloc envid va perm))
    (he : s.sysMemAlloc envid va perm = .ok (x, s')) :
    ∃ ρ', KernelInv L base km ρ' fl s' ∧ Settled ρ ρ' ∧
      OthersKept ρ ((s.envid2env envid true).map fun e => (s.envs e).envPgdir) s.phys s'.phys := by
  by_cases hperm : perm &&& pteV = 0
  · unfold Kernel.sysMemAlloc at he
    rw [if_pos hperm] at he
    cases he
    exact ⟨ρ, h, .refl ρ, fun _ _ _ _ => rfl⟩
  obtain ⟨phys, rfl, rfl | ⟨f, q, hq, ⟨hnone, rfl⟩ | ⟨e, v, hres, hi⟩⟩⟩ := Kernel.sysMemAlloc_ok he
  · exact ⟨ρ, h, .refl ρ, fun _ _ _ _ => rfl⟩
  · obtain ⟨h1, hk1, hfree, _⟩ := take_spec h.forest hq
    exact ⟨_, h.withPhys h1 hk1, settled_update (Or.inl hfree), fun d hd _ va => take_translate h.forest hq hd⟩
  · obtain ⟨h1, hk1, _, href, _⟩ := take_spec h.forest hq
    obtain ⟨hl1, hkeep⟩ := take_local h.forest hq (s.envs e).envPgdir
    have hd := h.dir e (h.not_mem_of_resolve hres)
    obtain ⟨hva, hok⟩ := ht hperm e f q hres hq
    obtain ⟨ρ2, h2, hl2⟩ := h1.insert_ok (hk1 _ hd) hva (by rw [Function.update_self]; trivial)
      (by rw [href]; decide) hok hi
    have hl := hl1.trans h.forest.toShape hkeep hl2
    refine ⟨ρ2, h.withPhys h2 hl.dirsKept, hl.settled, ?_⟩
    intro d hd' hne va'
    rw [hres] at hne
    exact hl.translate_other h.forest h2 hd hd' (fun hc => hne (by rw [hc]; rfl))

theorem sysMemAlloc (h : KernelInv L base km ρ fl s) {r : Regs} {x : Exit} {envid va perm : Nat}
    (ht : s.TameCall r (.memAlloc envid va perm))
    (he : s.sysMemAlloc envid va perm = .ok (x, s')) :
    ∃ ρ', KernelInv L base km ρ' fl s' ∧
      OthersKept ρ ((s.envid2env envid true).map fun e => (s.envs e).envPgdir) s.phys s'.phys := by
  obtain ⟨ρ', h', _, hothers⟩ := h.sysMemAlloc_settled ht he
  exact ⟨ρ', h', hothers⟩

/-- `sys_mem_map`. -/
theorem sysMemMap_settled (h : KernelInv L base km ρ fl s) {r : Regs} {x : Exit}
    {srcid srcva dstid dstva perm : Nat} (ht : s.TameCall r (.memMap srcid srcva dstid dstva perm))
    (he : s.sysMemMap srcid srcva dstid dstva perm = .ok (x, s')) :
    ∃ ρ', KernelInv L base km ρ' fl s' ∧ Settled ρ ρ' ∧
      OthersKept ρ ((s.envid2env dstid true).map fun e => (s.envs e).envPgdir) s.phys s'.phys := by
  by_cases hperm : perm &&& pteV = 0
  · have hs : s' = s := by
      unfold Kernel.sysMemMap at he
      dsimp only at he
      split at he
      · cases he; rfl
      · split at he
        · cases he; rfl
        · rw [if_pos hperm] at he
          cases he
          rfl
    rw [hs]
    exact ⟨ρ, h, .refl ρ, fun _ _ _ _ => rfl⟩
  obtain ⟨phys, rfl, rfl | ⟨src, dst, f, a, v, hsrc, hdst, hl, hi⟩⟩ := Kernel.sysMemMap_ok he
  · exact ⟨ρ, h, .refl ρ, fun _ _ _ _ => rfl⟩
  · obtain ⟨hva1, hva2, hok, href⟩ := ht hperm src dst f a hsrc hdst hl
    have hds := h.dir src (h.not_mem_of_resolve hsrc)
    have hdd := h.dir dst (h.not_mem_of_resolve hdst)
    have hpage := h.forest.page_of_lookup hds (userVa_rounddown hva1) hl
    obtain ⟨ρ2, h2, hl2⟩ := h.forest.insert_ok hdd (userVa_rounddown hva2) hpage href hok hi
    refine ⟨ρ2, h.withPhys h2 hl2.dirsKept, hl2.settled, ?_⟩
    intro d hd' hne va'
    rw [hdst] at hne
    exact hl2.translate_other h.forest h2 hdd hd' (fun hc => hne (by rw [hc]; rfl))

theorem sysMemMap (h : KernelInv L base km ρ fl s) {r : Regs} {x : Exit}
    {srcid srcva dstid dstva perm : Nat} (ht : s.TameCall r (.memMap srcid srcva dstid dstva perm))
    (he : s.sysMemMap srcid srcva dstid dstva perm = .ok (x, s')) :
    ∃ ρ', KernelInv L base km ρ' fl s' ∧
      OthersKept ρ ((s.envid2env dstid true).map fun e => (s.envs e).envPgdir) s.phys s'.phys := by
  obtain ⟨ρ', h', _, hothers⟩ := h.sysMemMap_settled ht he
  exact ⟨ρ', h', hothers⟩

/-- `sys_mem_unmap`. -/
theorem sysMemUnmap_settled (h : KernelInv L base km ρ fl s) {r : Regs} {x : Exit} {envid va : Nat}
    (ht : s.TameCall r (.memUnmap envid va)) (he : s.sysMemUnmap envid va = .ok (x, s')) :
    ∃ ρ', KernelInv L base km ρ' fl s' ∧ Settled ρ ρ' ∧
      OthersKept ρ ((s.envid2env envid true).map fun e => (s.envs e).envPgdir) s.phys s'.phys := by
  obtain ⟨phys, rfl, rfl | ⟨e, hres, hr⟩⟩ := Kernel.sysMemUnmap_ok he
  · exact ⟨ρ, h, .refl ρ, fun _ _ _ _ => rfl⟩
  · have hd := h.dir e (h.not_mem_of_resolve hres)
    cases hlk : s.phys.pageLookup (s.envs e).envPgdir va with
    | error err =>
      simp only [Phys.pageRemove, hlk, bind, Except.bind] at hr
      cases hr
    | ok o =>
      rcases o with _ | ⟨f, a⟩
      · rw [Forest.remove_unmapped hlk] at hr
        cases hr
        exact ⟨ρ, h, .refl ρ, fun _ _ _ _ => rfl⟩
      · obtain ⟨ρ2, p2, he2, h2, hl2, _⟩ := h.forest.pageRemove hd (ht e f a hres hlk)
        rw [he2] at hr
        cases hr
        refine ⟨ρ2, h.withPhys h2 hl2.dirsKept, hl2.settled, ?_⟩
        intro d hd' hne va'
        rw [hres] at hne
        exact hl2.translate_other h.forest h2 hd hd' (fun hc => hne (by rw [hc]; rfl))

theorem sysMemUnmap (h : KernelInv L base km ρ fl s) {r : Regs} {x : Exit} {envid va : Nat}
    (ht : s.TameCall r (.memUnmap envid va)) (he : s.sysMemUnmap envid va = .ok (x, s')) :
    ∃ ρ', KernelInv L base km ρ' fl s' ∧
      OthersKept ρ ((s.envid2env envid true).map fun e => (s.envs e).envPgdir) s.phys s'.phys := by
  obtain ⟨ρ', h', _, hothers⟩ := h.sysMemUnmap_settled ht he
  exact ⟨ρ', h', hothers⟩

/-- The assignments of a delivery keep the invariant. -/
theorem ipcDeliver (h : KernelInv L base km ρ fl s) {e : Slot} (he : e ∉ fl) (c : Slot)
    (value perm : Nat) : KernelInv L base km ρ fl (s.ipcDeliver c e value perm) := by
  have hmod := h.modifyEnv he
    (f := fun v => { v with envIpcValue := value, envIpcFrom := (s.envs c).envId,
                            envIpcPerm := perm, envIpcRecving := 0, envStatus := .runnable })
    (fun _ => rfl)
  exact hmod.of_eq rfl rfl rfl (fun _ => rfl) (fun _ _ => rfl) hmod.cur

/-- `sys_ipc_can_send`. -/
theorem sysIpcCanSend (h : KernelInv L base km ρ fl s) {r : Regs} {x : Exit}
    {envid value srcva perm : Nat} (ht : s.TameCall r (.ipcCanSend envid value srcva perm))
    (he : s.sysIpcCanSend envid value srcva perm = .ok (x, s')) :
    ∃ ρ', KernelInv L base km ρ' fl s' ∧ Settled ρ ρ' := by
  obtain ⟨c, phys, hc, hphys, hs'⟩ := Kernel.sysIpcCanSend_ok he
  have hmem : ∃ ρ', KernelInv L base km ρ' fl { s with phys := phys } ∧ Settled ρ ρ' := by
    rcases hphys with rfl | ⟨e, f, a, v, hres, _, hrecv, hnz, hl, hi⟩
    · exact ⟨ρ, h, .refl ρ⟩
    · obtain ⟨hva1, hva2, hok, href⟩ := ht hnz c e f a hc hres hrecv hl
      have hdc := h.dir c (h.cur c hc)
      have hde := h.dir e (h.not_mem_of_resolve hres)
      have hpage := h.forest.page_of_lookup hdc hva1 hl
      obtain ⟨ρ2, h2, hl2⟩ := h.forest.insert_ok hde hva2 hpage href hok hi
      exact ⟨ρ2, h.withPhys h2 hl2.dirsKept, hl2.settled⟩
  obtain ⟨ρ', h', hset⟩ := hmem
  rcases hs' with ⟨_, rfl⟩ | ⟨e, hres, _, _, _, rfl⟩
  · exact ⟨ρ', h', hset⟩
  · exact ⟨ρ', h'.ipcDeliver (h.not_mem_of_resolve hres) c value perm, hset⟩

/-- `sys_env_destroy`, up to the frames it does not touch. -/
theorem envDestroy (h : KernelInv L base km ρ fl s) {x : Exit} (he : e ∉ fl)
    (hsafe : EnvFreeSafe s.phys (s.envs e).envPgdir) (hd : s.envDestroy e = .ok (x, s')) :
    ∃ fl', KernelInv L base km ρ fl' s' := by
  obtain ⟨phys, hfree, hs'⟩ := Kernel.envDestroy_ok hd
  rw [h.forest.envFreePuds_id (h.dir e he) hsafe] at hfree
  cases hfree
  rcases hs' with ⟨hc, _, rfl⟩ | ⟨hc, _, pos, n, hn, rfl⟩
  · exact ⟨_, h.freed he hc⟩
  · have h0 : KernelInv L base km ρ fl
        { s with curenv := none, timeFrame := s.kernelFrame, pos := pos } :=
      h.of_eq rfl rfl rfl (fun _ => rfl) (fun _ _ => rfl) (fun c hc => by cases hc)
    have h1 := h0.freed he (by simp)
    have h2 := h1.envRun (e := n) (h1.not_mem_of_status (fun hf => by
      have h3 := hn.symm.trans hf
      cases h3))
    exact ⟨_, h2⟩

/-- `sys_env_alloc`. -/
theorem forkEnv_ages (h : KernelInv L base km ρ fl s) {v : Int ⊕ Slot}
    (hsp : 0x80000000 ≤ s.kernelFrame.sp) (hf : s.forkEnv c = .ok (v, s')) :
    ∃ ρ' fl', KernelInv L base km ρ' fl' s' ∧ Ages s ρ s' ρ' := by
  rcases Kernel.forkEnv_ok hf with ⟨_, rfl, _⟩ | ⟨e, p, q, w, phys, hfirst, hq, hstack, _, rfl⟩
  · exact ⟨ρ, fl, h, .keep (.refl ρ) rfl⟩
  · obtain ⟨h1, _, hfree⟩ := setupVm_spec h.forest hq
    rw [h.pgDir] at hstack
    have hp : Function.update ρ p .dir p = .dir := Function.update_self _ _ _
    obtain ⟨ρ2, h2, hk2⟩ := forkStack_spec h1 hp (fork_userVa hsp) hstack
    have hset := (settled_update (r := .dir) (Or.inl hfree)).trans hk2
    have hp2 := hk2.dirsKept p hp
    obtain ⟨fl', rfl, h3⟩ := h.allocated (s.envs c).envId hfirst h2 hset.dirsKept hp2
      (by rw [hfree]; simp)
    have hnd := List.nodup_cons.mp h.list.nodup
    exact ⟨ρ2, fl', h3.modifyEnv hnd.1 (fun _ => rfl), hset, Or.inr ⟨rfl, p, hfree, hp2⟩⟩

theorem forkEnv (h : KernelInv L base km ρ fl s) {v : Int ⊕ Slot}
    (hsp : 0x80000000 ≤ s.kernelFrame.sp) (hf : s.forkEnv c = .ok (v, s')) :
    ∃ ρ' fl', KernelInv L base km ρ' fl' s' := by
  obtain ⟨ρ', fl', h', _⟩ := h.forkEnv_ages hsp hf
  exact ⟨ρ', fl', h'⟩

/-- `env_create_priority`. -/
theorem envCreatePriority (h : KernelInv L base km ρ fl s) {binary priority : Nat}
    (he : s.envCreatePriority binary priority = .ok s') :
    ∃ ρ' fl', KernelInv L base km ρ' fl' s' ∧ Ages s ρ s' ρ' := by
  obtain ⟨e, p, q, hfirst, hq, hcase⟩ := Kernel.envCreatePriority_ok he
  obtain ⟨hno, hyes⟩ := create_spec h.forest hq
  rw [← h.pgDir] at hno hyes
  obtain ⟨_, _, hfree⟩ := setupVm_spec h.forest hq
  have hnd : ∀ {fl'}, fl = e :: fl' → e ∉ fl' := by
    rintro fl' rfl
    exact (List.nodup_cons.mp h.list.nodup).1
  rcases hcase with ⟨hn, rfl⟩ | ⟨g, u, r, phys, hg, hi, rfl⟩
  · obtain ⟨ρ2, h2, hk2, hp2⟩ := hno hn
    obtain ⟨fl', rfl, h3⟩ := h.allocated 0 hfirst h2 hk2.dirsKept hp2 (by rw [hfree]; simp)
    exact ⟨ρ2, fl', h3, hk2, Or.inr ⟨rfl, p, hfree, hp2⟩⟩
  · obtain ⟨ρ2, h2, hk2, hp2⟩ := hyes g u r phys hg hi
    obtain ⟨fl', hfl, h3⟩ := h.allocated 0 hfirst h2 hk2.dirsKept hp2 (by rw [hfree]; simp)
    have h4 := h3.modifyEnv (hnd hfl) (f := fun v =>
      { v with envPri := priority, envTf := { v.envTf with pc := binary, sp := ustacktop } })
      (fun _ => rfl)
    exact ⟨ρ2, fl', h4.of_eq rfl rfl rfl (fun _ => rfl) (fun _ _ => rfl) h4.cur, hk2,
      Or.inr ⟨rfl, p, hfree, hp2⟩⟩

/-- The frame saved on entry does not matter. -/
theorem withFrames (h : KernelInv L base km ρ fl s) (kf tf : Trapframe) :
    KernelInv L base km ρ fl { s with kernelFrame := kf, timeFrame := tf } :=
  h.of_eq rfl rfl rfl (fun _ => rfl) (fun _ _ => rfl) h.cur

/-- **Every tame step keeps the invariant**, and every use of a frame but the one as a page. -/
theorem step_ages {ev : Event} (h : KernelInv L base km ρ fl s) (ht : s.Tame ev)
    (hs : s.step ev = .ok s') : ∃ ρ' fl', KernelInv L base km ρ' fl' s' ∧ Ages s ρ s' ρ' := by
  have hyield : ∀ {u v : Kernel}, KernelInv L base km ρ fl u → u.nextEnvId = s.nextEnvId →
      u.schedYield = .ok v → ∃ ρ' fl', KernelInv L base km ρ' fl' v ∧ Ages s ρ v ρ' := by
    intro u v hu hn hy
    refine ⟨ρ, fl, hu.schedYield hy, .keep (.refl ρ) ?_⟩
    obtain ⟨pos, n, _, rfl⟩ := Kernel.schedYield_ok hy
    rw [Kernel.nextEnvId_envRun]
    exact hn
  cases ev with
  | create binary priority => exact h.envCreatePriority hs
  | irq r => exact hyield (h.withFrames s.kernelFrame (saveall irqStack r)) rfl hs
  | store va w =>
    obtain ⟨c, t, hc, htr, _, rfl⟩ := Kernel.userStore_ok hs
    exact ⟨ρ, fl, h.withPhys (store_spec h.forest (h.dir c (h.cur c hc)) ht htr w _)
      (fun _ hd => hd), .keep (.refl ρ) rfl⟩
  | svc r call =>
    obtain ⟨⟨x, t⟩, hsvc, rfl⟩ := Except.map_eq_ok_iff.mp hs
    unfold Kernel.svc at hsvc
    split at hsvc
    · cases hsvc
    have h0 : KernelInv L base km ρ fl { s with kernelFrame := saveall syncStack r } :=
      h.withFrames (saveall syncStack r) s.timeFrame
    have hquiet : Ages s ρ { s with kernelFrame := saveall syncStack r } ρ := .keep (.refl ρ) rfl
    cases call with
    | putchar ch => cases hsvc; exact ⟨ρ, fl, h0, hquiet⟩
    | getenvid =>
      simp only [Kernel.syscall, Kernel.sysGetenvid] at hsvc
      split at hsvc
      · cases hsvc
      · cases hsvc; exact ⟨ρ, fl, h0, hquiet⟩
    | yield =>
      obtain ⟨u, hu, h1⟩ := Except.bind_eq_ok_iff.mp hsvc
      cases h1
      exact hyield (h.withFrames (saveall syncStack r) (saveall syncStack r)) rfl hu
    | envDestroy envid =>
      simp only [Kernel.syscall, Kernel.sysEnvDestroy] at hsvc
      split at hsvc
      · cases hsvc; exact ⟨ρ, fl, h0, hquiet⟩
      · rename_i e he
        obtain ⟨⟨y, u⟩, hu, h1⟩ := Except.bind_eq_ok_iff.mp hsvc
        cases h1
        obtain ⟨fl', h2⟩ := h0.envDestroy (h0.not_mem_of_resolve he) (ht e he) hu
        refine ⟨ρ, fl', h2, .keep (.refl ρ) ?_⟩
        obtain ⟨phys, _, ⟨_, _, rfl⟩ | ⟨_, _, pos, n, _, rfl⟩⟩ := Kernel.envDestroy_ok hu
        · rfl
        · rw [Kernel.nextEnvId_envRun]
          rfl
    | setPgfaultHandler envid func xstacktop =>
      simp only [Kernel.syscall, Kernel.sysSetPgfaultHandler] at hsvc
      split at hsvc
      · cases hsvc; exact ⟨ρ, fl, h0, hquiet⟩
      · rename_i e he
        cases hsvc
        exact ⟨ρ, fl, h0.modifyEnv (h0.not_mem_of_resolve he) (f := fun v =>
          { v with envPgfaultHandler := func, envXstacktop := xstacktop }) (fun _ => rfl),
          .keep (.refl ρ) rfl⟩
    | memAlloc envid va perm =>
      obtain ⟨ρ', h', hset, _⟩ := h0.sysMemAlloc_settled (r := r) ht hsvc
      obtain ⟨_, rfl, _⟩ := Kernel.sysMemAlloc_ok hsvc
      exact ⟨ρ', fl, h', .keep hset rfl⟩
    | memMap srcid srcva dstid dstva perm =>
      obtain ⟨ρ', h', hset, _⟩ := h0.sysMemMap_settled (r := r) ht hsvc
      obtain ⟨_, rfl, _⟩ := Kernel.sysMemMap_ok hsvc
      exact ⟨ρ', fl, h', .keep hset rfl⟩
    | memUnmap envid va =>
      obtain ⟨ρ', h', hset, _⟩ := h0.sysMemUnmap_settled (r := r) ht hsvc
      obtain ⟨_, rfl, _⟩ := Kernel.sysMemUnmap_ok hsvc
      exact ⟨ρ', fl, h', .keep hset rfl⟩
    | envAlloc =>
      simp only [Kernel.syscall, Kernel.sysEnvAlloc] at hsvc
      split at hsvc
      · cases hsvc
      · obtain ⟨⟨o, u⟩, hu, h1⟩ := Except.bind_eq_ok_iff.mp hsvc
        have htu : t = u := by
          rcases o with v | e <;> cases h1 <;> rfl
        subst htu
        obtain ⟨ρ', fl', h', hages⟩ := h0.forkEnv_ages ht hu
        exact ⟨ρ', fl', h', hages.settled, hages.counter⟩
    | setEnvStatus envid w =>
      simp only [Kernel.syscall, Kernel.sysSetEnvStatus] at hsvc
      split at hsvc
      · cases hsvc; exact ⟨ρ, fl, h0, hquiet⟩
      · split at hsvc
        · cases hsvc; exact ⟨ρ, fl, h0, hquiet⟩
        · rename_i st _ _ e he
          have h1 : KernelInv L base km ρ fl
                (Kernel.relink { s with kernelFrame := saveall syncStack r } e st) ∧
              (Kernel.relink { s with kernelFrame := saveall syncStack r } e st).nextEnvId
                = s.nextEnvId := by
            unfold Kernel.relink
            split
            · exact ⟨h0.of_eq rfl rfl rfl (fun _ => rfl) (fun _ _ => rfl) h0.cur, rfl⟩
            · split
              · exact ⟨h0.of_eq rfl rfl rfl (fun _ => rfl) (fun _ _ => rfl) h0.cur, rfl⟩
              · exact ⟨h0, rfl⟩
          cases hsvc
          exact ⟨ρ, fl, h1.1.modifyEnv (h0.not_mem_of_resolve he)
            (f := fun v => { v with envStatus := st }) (fun _ => rfl), .keep (.refl ρ) h1.2⟩
    | setTrapframe envid tf => cases hsvc
    | panic msg => cases hsvc; exact ⟨ρ, fl, h0, hquiet⟩
    | ipcCanSend envid value srcva perm =>
      obtain ⟨ρ', h', hset⟩ := h0.sysIpcCanSend (r := r) ht hsvc
      refine ⟨ρ', fl, h', .keep hset ?_⟩
      obtain ⟨_, _, _, _, ⟨_, rfl⟩ | ⟨_, _, _, _, _, rfl⟩⟩ := Kernel.sysIpcCanSend_ok hsvc
      · rfl
      · rfl
    | ipcRecv dstva =>
      simp only [Kernel.syscall, Kernel.sysIpcRecv] at hsvc
      split at hsvc
      · cases hsvc
      · rename_i c hc
        split at hsvc
        · cases hsvc; exact ⟨ρ, fl, h0, hquiet⟩
        · obtain ⟨u, hu, h1⟩ := Except.bind_eq_ok_iff.mp hsvc
          cases h1
          have h2 := h0.modifyEnv (h0.cur c hc) (f := fun v =>
            { v with envStatus := .notRunnable, envIpcRecving := 1, envIpcDstva := dstva })
            (fun _ => rfl)
          refine hyield ?_ ?_ hu
          · exact h2.of_eq rfl rfl rfl (fun _ => rfl) (fun _ _ => rfl) h2.cur
          · rfl

theorem step {ev : Event} (h : KernelInv L base km ρ fl s) (ht : s.Tame ev)
    (hs : s.step ev = .ok s') : ∃ ρ' fl', KernelInv L base km ρ' fl' s' := by
  obtain ⟨ρ', fl', h', _⟩ := h.step_ages ht hs
  exact ⟨ρ', fl', h'⟩

end KernelInv

/-! ## 6. Runs -/

/-- A state that some run from boot reaches, whatever memory held at power-on. -/
def Kernel.Reachable (s : Kernel) : Prop :=
  ∃ L ram s₀ es, boot L ram = .ok s₀ ∧ Run Kernel.step (fun _ _ => True) s₀ es s

/-- A state that some run of tame steps reaches from boot on clean memory. -/
def Kernel.TameReachable (L : Layout) (ram : Mem) (s : Kernel) : Prop :=
  ∃ s₀ es, boot L ram = .ok s₀ ∧ Run Kernel.step Kernel.Tame s₀ es s

theorem Kernel.TameReachable.reachable {L : Layout} {ram : Mem} {s : Kernel}
    (h : s.TameReachable L ram) : s.Reachable := by
  obtain ⟨s₀, es, hb, hr⟩ := h
  exact ⟨L, ram, s₀, es, hb, hr.unguarded⟩

namespace KernelInv

variable {L : Layout} {base : Nat} {km : Mem} {ρ ρ' : Nat → Role} {fl : List Slot}
  {s s' : Kernel}

/-- The roles of frames after boot. -/
def bootRoles (base : Nat) (f : Nat) : Role :=
  if f < base ∨ npage ≤ f then .kernel else .free

/-- **After `page_init` the frames are a forest** without trees. -/
theorem forest_boot {p : Phys} (hmap : KernelMap L p.mem base)
    (href : ∀ f, p.ppRef f = if f < base then 1 else 0)
    (hpages : IsList p.pageFreeList () (List.range' base (npage - base)).reverse) :
    Forest L base p.mem (bootRoles base) p := by
  have hrole : ∀ f, bootRoles base f = .kernel ∨ bootRoles base f = .free := by
    intro f
    unfold bootRoles
    split
    · exact Or.inl rfl
    · exact Or.inr rfl
  have hk : ∀ f, bootRoles base f = .kernel ↔ f < base ∨ npage ≤ f := by
    intro f
    unfold bootRoles
    split <;> simp_all
  have habs : ∀ {f r}, r ≠ .kernel → r ≠ .free → bootRoles base f ≠ r := by
    intro f r h1 h2 h3
    rcases hrole f with h4 | h4
    · exact h1 (h3 ▸ h4)
    · exact h2 (h3 ▸ h4)
  have hleaf : ∀ f, leafCount (bootRoles base) p.mem f = 0 := by
    intro f
    refine RefCount.refs_eq_zero_iff.mpr ?_
    intro a _
    rw [leafTarget_of_not_pte (fun t j => habs (by simp) (by simp))]
    simp
  exact
    { map := hmap
      kernel := hk
      kernelMem := fun _ _ _ => rfl
      dirLow := fun d hd => absurd hd (habs (by simp) (by simp))
      dirUser := fun d hd => absurd hd (habs (by simp) (by simp))
      pmdUser := fun t d i ht => absurd ht (habs (by simp) (by simp))
      leaf := fun u t j hu => absurd hu (habs (by simp) (by simp))
      pmdParent := fun t d i ht => absurd ht (habs (by simp) (by simp))
      pteParent := fun u t j hu => absurd hu (habs (by simp) (by simp))
      bound := by
        intro f
        rw [href]
        split <;> decide
      count := by
        intro f hf
        rw [href, hleaf]
        by_cases hb : f < base
        · rw [if_pos hb, (hk f).mpr (Or.inl hb)]
          rfl
        · have hfree : bootRoles base f = .free := by
            unfold bootRoles
            rw [if_neg (by omega)]
          rw [if_neg hb, hfree]
          rfl
      pages := by
        refine ⟨_, hpages, ?_⟩
        intro f
        rw [List.mem_reverse, List.mem_range'_1]
        unfold bootRoles
        split
        · rename_i hf
          simp only [reduceCtorEq, iff_false]
          omega
        · simp only [iff_true]
          omega }

/-- **Boot establishes the invariant.** -/
theorem ofBooted (h : Booted L base s) :
    KernelInv L base s.phys.mem (bootRoles base) (List.finRange 1024) s where
  forest := forest_boot h.map h.ppRef h.pages
  pgDir := h.pgDir
  list := h.free
  free := by
    intro e _
    rw [h.envs]
    rfl
  dir := fun e he => absurd (List.mem_finRange e) he
  inj := fun e _ he => absurd (List.mem_finRange e) he
  cur := by
    intro c hc
    rw [h.curenv] at hc
    cases hc

/-- **Every run of tame steps keeps the invariant.** -/
theorem run {es : List Event} (h : KernelInv L base km ρ fl s)
    (hr : Run Kernel.step Kernel.Tame s es s') : ∃ ρ' fl', KernelInv L base km ρ' fl' s' :=
  hr.invariant (I := fun t => ∃ ρ' fl', KernelInv L base km ρ' fl' t) ⟨ρ, fl, h⟩
    (fun _ _ _ hi ht hs => by
      obtain ⟨ρ', fl', hi⟩ := hi
      exact hi.step ht hs)

/-- **The invariant holds in every state that tame steps reach.** -/
theorem ofReachable {ram : Mem} (hclean : CleanRam L ram) (h : s.TameReachable L ram) :
    ∃ s₀ base ρ fl, boot L ram = .ok s₀ ∧ Booted L base s₀ ∧
      KernelInv L base s₀.phys.mem ρ fl s := by
  obtain ⟨s₀, es, hb, hr⟩ := h
  obtain ⟨s₁, base, hb', hbooted, _⟩ := boot_ok hclean
  rw [hb] at hb'
  cases hb'
  obtain ⟨ρ, fl, hi⟩ := (ofBooted hbooted).run hr
  exact ⟨s₀, base, ρ, fl, hb, hbooted, hi⟩

end KernelInv

end RaspiOS
