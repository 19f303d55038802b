/-
# The page that was asked for

`sys_mem_map` and `sys_ipc_can_send` look up a page in one directory and enter it in another, under a
permission word that comes from the caller and is not masked.  What the entry names afterwards is the
frame number OR-ed with the permission from bit 12 on.  So the page that is found under the new address
is the page that was asked for exactly when those bits are bits of its frame number already
(`page_arrives`); which page that is, a user page or any other frame, and what was mapped there before
make no difference.
-/
import RaspiOS.Panics

set_option autoImplicit false

namespace RaspiOS

open LinkedList

section Found

variable {L : Layout} {base : Nat} {km : Mem} {ρ : Nat → Role} {p q : Phys} {d u va w : Nat}

/-! ## 1. What `page_lookup` finds where a leaf has been stored -/

/-- The low bits of an address do not matter. -/
theorem Phys.pageLookup_rounddown (p : Phys) (d va : Nat) :
    p.pageLookup d (rounddown va by2pg) = p.pageLookup d va := by
  have hpmdx : pmdx (rounddown va by2pg) = pmdx va := by
    ext
    simp only [pmdx_val, rounddown, by2pg]
    omega
  have hptex : ptex (rounddown va by2pg) = ptex va := by
    ext
    simp only [ptex_val, rounddown, by2pg]
    omega
  unfold Phys.pageLookup
  simp only [Phys.walk_eq, pudx_rounddown, hpmdx, hptex]

/-- **The leaf is found**: the entries above it are in other frames. -/
theorem Forest.lookup_store (h : Forest L base km ρ p) (hd : ρ d = .dir) (hva : 2 ≤ (pudx va).val)
    (hu : Leads ρ d (pageOf va) u) (hw : Valid w)
    (hq : ∀ g k, q.mem g k = if g = u ∧ k = ptex va then w else p.mem g k) :
    q.pageLookup d va = (pa2page w).map fun f => some (f, ⟨u, ptex va⟩) := by
  obtain ⟨h1, h2, h3⟩ := h.walk_of_leads hu
  simp only [pageOf] at h1 h2 h3
  obtain ⟨t, ht, hut⟩ := id hu
  have hkeep : ∀ g, (∀ s j, ρ g ≠ .pte s j) → ∀ k, q.mem g k = p.mem g k := by
    intro g hg k
    rw [hq, if_neg]
    rintro ⟨rfl, _⟩
    exact hg _ _ hut
  have hdir : q.mem d (pudx va) = p.mem d (pudx va) := hkeep d (by simp [hd]) _
  have hpmd : q.mem (ppn (p.mem d (pudx va))) (pmdx va)
      = p.mem (ppn (p.mem d (pudx va))) (pmdx va) :=
    hkeep _ (by rw [(h.dirUser d hd _ hva h1).2]; simp) _
  have hwalk : q.walk d va = ⟨u, ptex va⟩ := by
    rw [Phys.walk_eq, hdir, if_pos h1, hpmd, if_pos h2]
    exact congrArg (fun f => (⟨f, ptex va⟩ : Ptr)) h3
  have hload : q.load ⟨u, ptex va⟩ = w := (hq u (ptex va)).trans (if_pos ⟨rfl, rfl⟩)
  simp only [Phys.pageLookup, hwalk, h.leads_ne_null hu, if_false, hload, hw, not_true_eq_false]
  cases pa2page w <;> rfl

/-- **What `page_insert` enters is found**, whatever frame it is given and whatever was there. -/
theorem Forest.pageInsert_found (h : Forest L base km ρ p) (hd : ρ d = .dir)
    (hva : 2 ≤ (pudx va).val) (pp perm : Nat) :
    (∃ a p', p.pageInsert d pp va perm = .ok (0, p') ∧
      p'.pageLookup d va = (pa2page (leafDesc pp perm)).map fun f => some (f, a)) ∨
    ∃ p', p.pageInsert d pp va perm = .ok (-eNoMem, p') := by
  have hv := valid_leafDesc pp perm
  cases hs : space p.mem d (pageOf va) with
  | some w =>
    left
    obtain ⟨u, hu, rfl, hval⟩ := h.toShape.leads_of_space hd hva hs
    rcases eq_or_ne (ppn (p.mem u (ptex va))) pp with hsame | hne
    · exact ⟨_, _, h.pageInsert_mapped hu hval hsame perm,
        h.lookup_store hd hva hu hv fun _ _ => rfl⟩
    · obtain ⟨hcond, hold⟩ := h.walk_mapped hu hval
      obtain ⟨ρ₁, p₁, hr, h₁, hl₁, _⟩ := h.pageRemove hd hva
      have hd₁ : ρ₁ d = .dir := by rw [hl₁.table (by simp [hd]) (by simp [hd]), hd]
      have hu₁ := hu.of_local hl₁
      refine ⟨_, (p₁.store ⟨u, ptex va⟩ (leafDesc pp perm)).incRef pp, ?_,
        h₁.lookup_store hd₁ hva hu₁ hv fun _ _ => rfl⟩
      simp only [Phys.pageInsert, if_pos hcond, hold, bind, Except.bind, hne, ne_eq,
        not_false_eq_true, if_true, hr, Phys.pageEnter, h₁.pgdirWalk_of_leads hu₁]
      rfl
  | none =>
    rw [h.pageInsert_enter hd hva hs]
    rcases h.pgdirWalk hd hva with ⟨u, n, ρ₁, p₁, he, hu, hg, _⟩ | ⟨n, ρ₁, p₁, he, _⟩
    · left
      have hd₁ : ρ₁ d = .dir := by rw [hg.keeps d (by simp [hd]), hd]
      refine ⟨_, (p₁.store ⟨u, ptex va⟩ (leafDesc pp perm)).incRef pp, ?_,
        hg.forest.lookup_store hd₁ hva hu hv fun _ _ => rfl⟩
      simp only [Phys.pageEnter, he]
      rfl
    · right
      refine ⟨p₁, ?_⟩
      simp only [Phys.pageEnter, he]
      rfl

/-- The frame `page_lookup` answers with is a frame of memory. -/
theorem Phys.pageLookup_lt {f : Nat} {a : Ptr} (h : p.pageLookup d va = .ok (some (f, a))) :
    f < npage := by
  unfold Phys.pageLookup at h
  dsimp only at h
  split at h
  · cases h
  · split at h
    · cases h
    · obtain ⟨g, hg, h⟩ := Except.bind_eq_ok_iff.mp h
      cases h
      unfold pa2page at hg
      split at hg
      · cases hg
      · rename_i hlt
        cases hg
        exact not_le.mp hlt

/-- **It is the frame that was entered exactly when the permission leaves the number alone.** -/
theorem lookup_leaf_iff {f perm : Nat} {a : Ptr} (hf : f < npage)
    (hl : p.pageLookup d va = (pa2page (leafDesc f perm)).map fun g => some (g, a)) :
    (∃ b, p.pageLookup d va = .ok (some (f, b))) ↔ PermOk f perm := by
  rw [hl]
  constructor
  · rintro ⟨b, hb⟩
    obtain ⟨g, hg, he⟩ := Except.map_eq_ok_iff.mp hb
    obtain rfl := (Prod.mk.inj (Option.some.inj he)).1
    unfold pa2page at hg
    split at hg
    · cases hg
    · exact Except.ok.inj hg
  · intro hperm
    have hppn : ppn (leafDesc f perm) = f := hperm
    unfold pa2page
    rw [hppn, if_neg (not_le.mpr hf)]
    exact ⟨a, rfl⟩

end Found

/-! ## 2. The two calls -/

namespace Kernel

/-- The call takes a page from address `va` of directory `d` to address `dstva` of environment `e`, with
permission `perm`. -/
inductive Transfers (s : Kernel) : Syscall → Nat → Nat → Slot → Nat → Nat → Prop
  | memMap {srcid srcva dstid dstva perm : Nat} {src dst : Slot} :
      s.envid2env srcid true = some src → s.envid2env dstid true = some dst →
      Transfers s (.memMap srcid srcva dstid dstva perm) (s.envs src).envPgdir srcva dst dstva perm
  | send {envid value srcva perm : Nat} {c e : Slot} :
      s.curenv = some c → s.envid2env envid false = some e → srcva ≠ 0 →
      Transfers s (.ipcCanSend envid value srcva perm) (s.envs c).envPgdir srcva e
        (s.envs e).envIpcDstva perm

/-- A call that returns zero has entered the page it found, at the address or at the start of its
page. -/
theorem Transfers.inserted {s s' : Kernel} {r : Regs} {call : Syscall} {d va dstva perm f : Nat}
    {e : Slot} {a : Ptr} (ht : s.Transfers call d va e dstva perm)
    (hl : s.phys.pageLookup d va = .ok (some (f, a))) (h : s.svc r call = .ok (.ret 0, s')) :
    ∃ v va', (va' = dstva ∨ va' = rounddown dstva by2pg) ∧ ¬ v < 0 ∧
      s.phys.pageInsert (s.envs e).envPgdir f va' perm = .ok (v, s'.phys) ∧
      (s'.envs e).envPgdir = (s.envs e).envPgdir := by
  have hret : ∀ {v : Int}, (if v < 0 then Exit.ret (-eNoMem) else Exit.ret 0) = .ret 0 → ¬ v < 0 := by
    intro v hv hneg
    rw [if_pos hneg] at hv
    exact absurd hv (by decide)
  unfold svc at h
  split at h
  · cases h
  cases ht with
  | @memMap srcid srcva dstid _ _ src _ hsrc hdst =>
    change (s.trapped r).sysMemMap srcid va dstid dstva perm = _ at h
    have hsrc' : (s.trapped r).envid2env srcid true = some src := hsrc
    have hdst' : (s.trapped r).envid2env dstid true = some e := hdst
    have hl' : (s.trapped r).phys.pageLookup ((s.trapped r).envs src).envPgdir
        (rounddown va by2pg) = .ok (some (f, a)) := (Phys.pageLookup_rounddown _ _ _).trans hl
    unfold sysMemMap at h
    simp only [hsrc', hdst', hl', bind, Except.bind] at h
    split at h
    · exact absurd (Exit.ret.inj (Prod.mk.inj (Except.ok.inj h)).1) (by decide)
    · split at h
      · cases h
      · rename_i x hi
        obtain ⟨hx, rfl⟩ := Prod.mk.inj (Except.ok.inj h)
        exact ⟨x.1, _, Or.inr rfl, hret hx, hi, rfl⟩
  | @send envid value _ _ c _ hc he hne =>
    change (s.trapped r).sysIpcCanSend envid value va perm = _ at h
    have hc' : (s.trapped r).curenv = some c := hc
    have he' : (s.trapped r).envid2env envid false = some e := he
    have hl' : (s.trapped r).phys.pageLookup ((s.trapped r).envs c).envPgdir va
        = .ok (some (f, a)) := hl
    have herr : ∀ {t : Kernel} {n : Int}, n ≠ 0 →
        (Except.ok (Exit.ret n, t) : Except Halt (Exit × Kernel)) ≠ .ok (.ret 0, s') :=
      fun hn hk => hn (Exit.ret.inj (Prod.mk.inj (Except.ok.inj hk)).1)
    unfold sysIpcCanSend at h
    rw [hc'] at h
    simp only [he', hl', bind, Except.bind] at h
    split at h
    · exact absurd h (herr (by decide))
    split at h
    · exact absurd h (herr (by decide))
    split at h
    · cases h
    · rename_i x hi
      split at h
      · exact absurd h (herr (by decide))
      · rename_i hx
        cases h
        refine ⟨x.1, _, Or.inl rfl, hx, hi, ?_⟩
        simp [ipcDeliver, schedInsertHead, trapped]

/-- **The page that arrives is the page that was asked for exactly when the permission word leaves its
number alone.** -/
theorem page_arrives {L : Layout} {ram : Mem} {s s' : Kernel} {r : Regs} {call : Syscall}
    {d va dstva perm f : Nat} {e : Slot} {a : Ptr} (hclean : CleanRam L ram)
    (hs : s.TameReachable L ram) (ht : s.Transfers call d va e dstva perm) (hva : UserVa dstva)
    (hl : s.phys.pageLookup d va = .ok (some (f, a))) (h : s.svc r call = .ok (.ret 0, s')) :
    (∃ b, s'.phys.pageLookup (s'.envs e).envPgdir dstva = .ok (some (f, b))) ↔ PermOk f perm := by
  obtain ⟨s₀, base, ρ, fl, _, _, hinv⟩ := KernelInv.ofReachable hclean hs
  obtain ⟨v, va', hva', hv, hi, hpg⟩ := ht.inserted hl h
  have hlive : e ∉ fl := by
    cases ht with
    | memMap _ hdst => exact hinv.not_mem_of_resolve hdst
    | send _ he _ => exact hinv.not_mem_of_resolve he
  have huser : 2 ≤ (pudx va').val := by
    rcases hva' with rfl | rfl
    · exact hva
    · exact userVa_rounddown hva
  have hsame : s'.phys.pageLookup (s.envs e).envPgdir dstva
      = s'.phys.pageLookup (s.envs e).envPgdir va' := by
    rcases hva' with rfl | rfl
    · rfl
    · exact (Phys.pageLookup_rounddown _ _ _).symm
  rw [hpg, hsame]
  rcases hinv.forest.pageInsert_found (hinv.dir e hlive) huser f perm with
    ⟨b, p', he, hfound⟩ | ⟨p', he⟩
  · cases he.symm.trans hi
    exact lookup_leaf_iff (Phys.pageLookup_lt hl) hfound
  · cases he.symm.trans hi
    exact absurd (by decide) hv

/-- The first environment maps its stack page where it is, under another permission. -/
theorem remap (perm : Nat) (hperm : perm &&& pteV ≠ 0) : ∃ (s s' : Kernel) (f : Nat) (a : Ptr),
    s.TameReachable image coldRam ∧
    s.Transfers (.memMap 0 (ustacktop - by2pg) 0 (ustacktop - by2pg) perm) (s.envs 0).envPgdir
      (ustacktop - by2pg) 0 (ustacktop - by2pg) perm ∧
    s.phys.pageLookup (s.envs 0).envPgdir (ustacktop - by2pg) = .ok (some (f, a)) ∧
    s.svc .zero (.memMap 0 (ustacktop - by2pg) 0 (ustacktop - by2pg) perm) = .ok (.ret 0, s') ∧
    s'.phys.pageLookup (s'.envs 0).envPgdir (ustacktop - by2pg)
      = (pa2page (leafDesc f perm)).map fun g => some (g, a) := by
  obtain ⟨s₀, s, base, ρ, hb, _, hr, n, hn, h⟩ := firstEnv_reached .zero
  have hva : 2 ≤ (pudx (ustacktop - by2pg)).val := by decide
  have hd := h.inv.dir 0 (by simp)
  have hres : s.envid2env 0 true = some 0 := by rw [envid2env_zero, h.cur]
  have hround : rounddown (ustacktop - by2pg) by2pg = ustacktop - by2pg := by decide
  obtain ⟨f, hf, hst⟩ := h.stack
  have hs := (hst (pageOf (ustacktop - by2pg)) hva).trans (if_pos rfl)
  rcases h.inv.forest.pageLookup hd hva with ⟨hnone, _⟩ | ⟨u, hu, hv, hsome, hl⟩
  · cases hnone.symm.trans hs
  have hppn : ppn (s.phys.mem u (ptex (ustacktop - by2pg))) = f := by
    rw [Option.some.inj (hsome.symm.trans hs)]
    exact permOk_pteV f
  rw [hppn] at hl
  have hi := h.inv.forest.pageInsert_mapped hu hv hppn perm
  have hsvc : s.svc .zero (.memMap 0 (ustacktop - by2pg) 0 (ustacktop - by2pg) perm)
      = .ok (.ret 0, { s.trapped .zero with
          phys := s.phys.store ⟨u, ptex (ustacktop - by2pg)⟩ (leafDesc f perm) }) := by
    unfold svc
    rw [if_neg (by rw [h.cur]; simp)]
    change (s.trapped .zero).sysMemMap _ _ _ _ _ = _
    have hres' : (s.trapped .zero).envid2env 0 true = some 0 := hres
    have hl' : (s.trapped .zero).phys.pageLookup ((s.trapped .zero).envs 0).envPgdir
        (ustacktop - by2pg) = _ := hl
    have hi' : (s.trapped .zero).phys.pageInsert ((s.trapped .zero).envs 0).envPgdir f
        (ustacktop - by2pg) perm = _ := hi
    unfold sysMemMap
    simp only [hres', hround, if_neg hperm, hl', bind, Except.bind, hi']
    rfl
  exact ⟨s, _, f, _, ⟨s₀, _, hb, hr⟩, .memMap hres hres, hl, hsvc,
    h.inv.forest.lookup_store hd hva hu (valid_leafDesc f perm) fun _ _ => rfl⟩

/-- With the permission `PTE_V` it finds the page again. -/
theorem page_arrives_first : ∃ (s s' : Kernel) (f : Nat) (a b : Ptr),
    s.phys.pageLookup (s.envs 0).envPgdir (ustacktop - by2pg) = .ok (some (f, a)) ∧
    s'.phys.pageLookup (s'.envs 0).envPgdir (ustacktop - by2pg) = .ok (some (f, b)) := by
  obtain ⟨s, s', f, a, hs, ht, hl, h, _⟩ := remap pteV (by decide)
  obtain ⟨b, hb⟩ := (page_arrives cleanRam_coldRam hs ht (by unfold UserVa; decide) hl h).mpr
    (permOk_pteV f)
  exact ⟨s, s', f, a, b, hl, hb⟩

/-- **The page that arrives is not always the one that was asked for.**  The permission word
`0xfffff001` is accepted, and the entry names a frame beyond the end of memory. -/
theorem page_lost : ¬ ∀ (s s' : Kernel) (r : Regs) (call : Syscall) (d va dstva perm f : Nat)
    (e : Slot) (a : Ptr), s.Reachable → s.Transfers call d va e dstva perm → UserVa dstva →
    s.phys.pageLookup d va = .ok (some (f, a)) → s.svc r call = .ok (.ret 0, s') →
    ∃ b, s'.phys.pageLookup (s'.envs e).envPgdir dstva = .ok (some (f, b)) := by
  intro hall
  obtain ⟨s, s', f, a, hs, ht, hl, h, hend⟩ := remap 0xfffff001 (by decide)
  have hlt := Phys.pageLookup_lt hl
  have hok := (lookup_leaf_iff hlt hend).mp
    (hall s s' _ _ _ _ _ _ f 0 a hs.reachable ht (by unfold UserVa; decide) hl h)
  have hor : f ||| 0xfffff = f := by
    have hppn := ppn_leafDesc f 0xfffff001
    rw [show ppn (leafDesc f 0xfffff001) = f from hok] at hppn
    exact hppn.symm
  have hle : 0xfffff ≤ f := hor ▸ Nat.right_le_or
  exact absurd (lt_of_lt_of_le hlt (by decide : npage ≤ 0xfffff)) (not_lt.mpr hle)

end Kernel

end RaspiOS
