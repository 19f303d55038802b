/-
# Whom `env_free` hits

`env_free` hands the physical address of each table to `page_remove`, which takes it for a virtual
address of the environment that is going away.  Physical addresses lie below `0x40000000`, in the
part of the directory that every environment shares with the kernel.  For a table below the device
window `page_remove` finds the entry of the identity map that names the frame of the table, counts
the frame down, and clears the entry: for the kernel and for everybody.

`envFree_outside` says both halves: where the table addresses are not mapped nobody is touched, and
where all tables lie in page-mapped memory somebody is.
-/
import RaspiOS.Fork
import RaspiOS.Teardown

set_option autoImplicit false

namespace RaspiOS

open LinkedList

/-! ## 1. Losing entries of the identity map -/

/-- Entries of the identity map may have been cleared, and nothing else. -/
def LostIdent (L : Layout) (m m' : Mem) : Prop :=
  ∀ f i, m' f i = m f i ∨ m' f i = 0 ∧ ∃ g < ramFrames, identPtr L g = ⟨f, i⟩

namespace LostIdent

variable {L : Layout} {base : Nat} {km : Mem} {ρ : Nat → Role} {p q : Phys} {d f : Nat}

theorem refl (L : Layout) (m : Mem) : LostIdent L m m := fun _ _ => Or.inl rfl

/-- The tables of the identity map lie between two frames of the kernel. -/
theorem outside {m m' : Mem} (h : LostIdent L m m') (hf : f < L.pgDir + 2 ∨ L.pgDir + 506 ≤ f) :
    m' f = m f := by
  funext i
  rcases h f i with h1 | ⟨_, g, hg, hp⟩
  · exact h1
  · have hframe : L.pgDir + 2 + g / 512 = f := congrArg Ptr.frame hp
    simp only [ramFrames] at hg
    omega

/-- The frames of the pool are not among them. -/
theorem pool (h : LostIdent L p.mem q.mem) (hF : Forest L base km ρ p) (hf : ρ f ≠ .kernel) :
    q.mem f = p.mem f := by
  have hb := hF.base_le hf
  have hK := hF.map.le_base
  exact h.outside (Or.inr (by omega))

/-- **`page_remove` at the address of a frame of RAM** cannot fail, and leaves the identity map
without the frame. -/
theorem pageRemove (h : LostIdent L p.mem q.mem) (hF : Forest L base km ρ p) (hd : ρ d = .dir)
    (hf : f < ramFrames) :
    ∃ q', q.pageRemove d (page2pa f) = .ok q' ∧ LostIdent L p.mem q'.mem ∧
      Zeroed q.mem q'.mem ∧ q'.mem (identPtr L f).frame (identPtr L f).idx = 0 := by
  have hdk : ρ d ≠ .kernel := by simp [hd]
  obtain ⟨h1, h2⟩ := hF.ident_upper (Or.inl hd) hf
  have hpool := h.pool hF hdk
  have hL1 := h.outside (f := L.pgDir + 1) (Or.inl (by omega))
  have hpgDir : 0 < L.pgDir := by
    have hL := L.linked
    omega
  rcases h (identPtr L f).frame (identPtr L f).idx with hw | ⟨hw, _⟩
  · -- the entry is there
    rw [hF.mem_identPtr hf] at hw
    obtain ⟨q', hq', hm⟩ := Phys.pageRemove_ident hf (by rw [hpool, h1]) (by rw [hL1, h2]) hpgDir hw
    refine ⟨_, hq', ?_, ?_, by rw [Phys.mem_store, if_pos ⟨rfl, rfl⟩]⟩
    · intro g i
      rw [Phys.mem_store, hm]
      by_cases hgi : g = (identPtr L f).frame ∧ i = (identPtr L f).idx
      · obtain ⟨rfl, rfl⟩ := hgi
        exact Or.inr ⟨if_pos ⟨rfl, rfl⟩, f, hf, rfl⟩
      · rw [if_neg hgi]
        exact h g i
    · intro g i
      rw [Phys.mem_store, hm]
      split
      · exact Or.inr rfl
      · exact Or.inl rfl
  · -- it has been cleared before
    have hload : ¬ Valid (q.load (identPtr L f)) := by
      change ¬ Valid (q.mem _ _)
      rw [hw]
      exact not_valid_zero
    refine ⟨q, Forest.remove_unmapped ?_, h, fun _ _ => Or.inl rfl, hw⟩
    simp only [Phys.pageLookup, Phys.walk_ident hf (hpool ▸ h1) (hL1 ▸ h2), hload,
      not_false_eq_true, if_true, ite_self]

end LostIdent

theorem Zeroed.refl (m : Mem) : Zeroed m m := fun _ _ => Or.inl rfl

theorem Zeroed.trans {m m' m'' : Mem} (h : Zeroed m m') (h' : Zeroed m' m'') : Zeroed m m'' := by
  intro f i
  rcases h' f i with h1 | h1
  · rw [h1]
    exact h f i
  · exact Or.inr h1

/-- A cleared word stays cleared. -/
theorem Zeroed.zero {m m' : Mem} (h : Zeroed m m') {f : Nat} {i : Fin 512} (h0 : m f i = 0) :
    m' f i = 0 := by
  rcases h f i with h1 | h1
  · rw [h1, h0]
  · exact h1

/-! ## 2. The loops over tables in page-mapped memory -/

/-- The frame is no longer at its own address. -/
def Unmapped (L : Layout) (q : Phys) (f : Nat) : Prop :=
  q.mem (identPtr L f).frame (identPtr L f).idx = 0

section Loops

variable {L : Layout} {base : Nat} {km : Mem} {ρ : Nat → Role} {p q : Phys} {d : Nat}

/-- The middle loop takes the third-level tables out of the identity map. -/
theorem envFreePmds_low (hF : Forest L base km ρ p) (hd : ρ d = .dir) {i : Fin 512}
    (ht : ρ (ppn (p.mem d i)) = .pmd d i) (hlow : ∀ f ∈ ptesOf p.mem (ppn (p.mem d i)), f < ramFrames)
    (h : LostIdent L p.mem q.mem) :
    ∃ q', Kernel.envFreePmds d i (ppn (p.mem d i)) q = .ok q' ∧ LostIdent L p.mem q'.mem ∧
      Zeroed q.mem q'.mem ∧
      ∀ j ∈ List.finRange 512, Valid (p.mem (ppn (p.mem d i)) j) →
        Unmapped L q' (ppn (p.mem (ppn (p.mem d i)) j)) := by
  unfold Kernel.envFreePmds
  refine Except.foldlM_total (I := fun q : Phys => LostIdent L p.mem q.mem)
    (R := fun q q' : Phys => Zeroed q.mem q'.mem)
    (Q := fun j q' => Valid (p.mem (ppn (p.mem d i)) j) →
      Unmapped L q' (ppn (p.mem (ppn (p.mem d i)) j)))
    (fun q => Zeroed.refl q.mem) (fun _ _ _ h1 h2 => h1.trans h2)
    (fun j q q' hQ hR hv => hR.zero (hQ hv)) h ?_
  intro j _ q hq
  have hrow : q.mem (ppn (p.mem d i)) = p.mem (ppn (p.mem d i)) := hq.pool hF (by simp [ht])
  have hdir : q.mem d = p.mem d := hq.pool hF (by simp [hd])
  rw [hrow]
  by_cases hv : Valid (p.mem (ppn (p.mem d i)) j)
  · rw [if_neg (not_not.mpr hv)]
    have hinner := Kernel.envFreePtes_eq (t := ppn (p.mem d i)) (i := i) (j := j)
      (fun _ => by rw [hdir]) (fun _ : Valid (q.mem _ j) => by rw [hrow])
    have hf := hlow (ppn (p.mem (ppn (p.mem d i)) j))
      (List.mem_map.mpr ⟨j, List.mem_filter.mpr ⟨List.mem_finRange j, decide_eq_true hv⟩, rfl⟩)
    obtain ⟨q', he, h1, h2, h3⟩ := hq.pageRemove hF hd hf
    exact ⟨q', Except.bind_eq_ok_iff.mpr ⟨q, hinner, he⟩, h1, h2, fun _ => h3⟩
  · rw [if_pos hv]
    exact ⟨q, rfl, hq, Zeroed.refl _, fun hc => absurd hc hv⟩

/-- **`env_free` takes all tables out of the identity map**, if they all lie there. -/
theorem envFreePuds_low (hF : Forest L base km ρ p) (hd : ρ d = .dir)
    (hlow : ∀ f ∈ tablesOf p.mem d, f < ramFrames) :
    ∃ q, Kernel.envFreePuds d p = .ok q ∧ LostIdent L p.mem q.mem ∧
      ∀ f ∈ tablesOf p.mem d, Unmapped L q f := by
  have hloop : ∃ q, Kernel.envFreePuds d p = .ok q ∧ LostIdent L p.mem q.mem ∧
      Zeroed p.mem q.mem ∧ ∀ i ∈ (List.finRange 512).drop (pudx 0xc0000000), ∀ f ∈
        if Valid (p.mem d i) then ppn (p.mem d i) :: ptesOf p.mem (ppn (p.mem d i)) else [],
        Unmapped L q f := by
    unfold Kernel.envFreePuds
    refine Except.foldlM_total (I := fun q : Phys => LostIdent L p.mem q.mem)
      (R := fun q q' : Phys => Zeroed q.mem q'.mem)
      (Q := fun i q => ∀ f ∈
        if Valid (p.mem d i) then ppn (p.mem d i) :: ptesOf p.mem (ppn (p.mem d i)) else [],
        Unmapped L q f)
      (fun q => Zeroed.refl q.mem) (fun _ _ _ h1 h2 => h1.trans h2)
      (fun i q q' hQ hR f hf => hR.zero (hQ f hf)) (LostIdent.refl L p.mem) ?_
    intro i hi q hq
    have hdir : q.mem d = p.mem d := hq.pool hF (by simp [hd])
    have hentry : ∀ f ∈
        if Valid (p.mem d i) then ppn (p.mem d i) :: ptesOf p.mem (ppn (p.mem d i)) else [],
        f < ramFrames := fun f hf => hlow f (List.mem_flatMap.mpr ⟨i, hi, hf⟩)
    rw [hdir]
    by_cases hv : Valid (p.mem d i)
    · rw [if_pos hv] at hentry ⊢
      rw [if_neg (not_not.mpr hv)]
      have h3 := Forest.three_le hi
      have ht := (hF.dirUser d hd i (by omega) hv).2
      obtain ⟨q₁, he₁, h1, hz1, hq1⟩ := envFreePmds_low hF hd ht
        (fun f hf => hentry f (List.mem_cons_of_mem _ hf)) hq
      obtain ⟨q₂, he₂, h2, hz2, hq2⟩ := h1.pageRemove hF hd (hentry _ (List.mem_cons_self))
      refine ⟨q₂, Except.bind_eq_ok_iff.mpr ⟨q₁, he₁, he₂⟩, h2, hz1.trans hz2, ?_⟩
      intro f hf
      rcases List.mem_cons.mp hf with rfl | hf
      · exact hq2
      · obtain ⟨j, hj, rfl⟩ := List.mem_map.mp hf
        exact hz2.zero (hq1 j (List.mem_finRange j) (of_decide_eq_true (List.mem_filter.mp hj).2))
    · rw [if_pos hv, if_neg hv]
      exact ⟨q, rfl, hq, Zeroed.refl _, fun f hf => absurd hf List.not_mem_nil⟩
  obtain ⟨q, he, h1, _, h2⟩ := hloop
  refine ⟨q, he, h1, fun f hf => ?_⟩
  obtain ⟨i, hi, hf⟩ := List.mem_flatMap.mp hf
  exact h2 i hi f hf

/-- The kernel does not see such a frame any more. -/
theorem translate_unmapped (hF : Forest L base km ρ p) (h : LostIdent L p.mem q.mem) {f : Nat}
    (hf : f < ramFrames) (hu : Unmapped L q f) :
    translate p.mem L.pgDir (page2pa f) ≠ none ∧ translate q.mem L.pgDir (page2pa f) = none := by
  obtain ⟨h1, h2⟩ := hF.ident_upper (d := L.pgDir) (Or.inr rfl) hf
  have hroot := h.outside (f := L.pgDir) (Or.inl (by omega))
  have hL1 := h.outside (f := L.pgDir + 1) (Or.inl (by omega))
  rw [translate_ident hf h1 h2, hF.mem_identPtr hf, if_pos (isTable_identDesc L _),
    translate_ident hf (hroot ▸ h1) (hL1 ▸ h2), show q.mem _ _ = 0 from hu, if_neg (by decide)]
  exact ⟨by simp, rfl⟩

end Loops

/-! ## 3. Everybody else -/

namespace Kernel

/-- **`env_free(e)`, from `s` to `s'`, touches nobody else**: every other environment and the kernel
keep all their translations. -/
def OutsideKept (s s' : Kernel) (e : Slot) : Prop :=
  (∀ e' va, e' ≠ e → translate s'.phys.mem (s'.envs e').envPgdir va
    = translate s.phys.mem (s.envs e').envPgdir va) ∧
  ∀ va, translate s'.phys.mem s'.pgDir va = translate s.phys.mem s.pgDir va

end Kernel

namespace KernelInv

variable {L : Layout} {base : Nat} {km : Mem} {ρ : Nat → Role} {fl : List Slot} {s : Kernel}
  {e : Slot}

/-- Where the addresses of the tables are not mapped, nothing happens. -/
theorem envFree_safe (hi : KernelInv L base km ρ fl s) (hlive : (s.envs e).envStatus ≠ .free)
    (hsafe : EnvFreeSafe s.phys (s.envs e).envPgdir) :
    ∃ s', s.envFree e = .ok s' ∧ Kernel.OutsideKept s s' e := by
  have hd := hi.dir e (hi.not_mem_of_status hlive)
  refine ⟨_, Kernel.envFree_eq (hi.forest.envFreePuds_id hd hsafe), ?_, fun _ => rfl⟩
  intro e' va he
  rw [Kernel.envs_freed_ne _ he]
  rfl

/-- Where they all are addresses of page-mapped RAM, the kernel loses them. -/
theorem envFree_low (hi : KernelInv L base km ρ fl s) (hlive : (s.envs e).envStatus ≠ .free)
    (hne : tablesOf s.phys.mem (s.envs e).envPgdir ≠ [])
    (hlow : ∀ f ∈ tablesOf s.phys.mem (s.envs e).envPgdir, f < ramFrames) :
    ∃ s', s.envFree e = .ok s' ∧ ¬ Kernel.OutsideKept s s' e := by
  have hd := hi.dir e (hi.not_mem_of_status hlive)
  obtain ⟨q, hq, hlost, hcut⟩ := envFreePuds_low hi.forest hd hlow
  refine ⟨_, Kernel.envFree_eq hq, fun hkept => ?_⟩
  obtain ⟨f, hf⟩ := List.exists_mem_of_ne_nil _ hne
  obtain ⟨hbefore, hafter⟩ := translate_unmapped hi.forest hlost (hlow f hf) (hcut f hf)
  have hsame : translate q.mem s.pgDir (page2pa f) = translate s.phys.mem s.pgDir (page2pa f) :=
    hkept.2 (page2pa f)
  rw [hi.pgDir, hafter] at hsame
  exact hbefore hsame.symm

end KernelInv

namespace Kernel

/-- **Whom `env_free` touches**: nobody, where the addresses of the tables are not mapped in the
directory that goes away; the kernel, where there are tables and all lie in page-mapped RAM. -/
theorem envFree_outside {L : Layout} {ram : Mem} {s : Kernel} {e : Slot}
    (hclean : CleanRam L ram) (hs : s.TameReachable L ram) (hlive : (s.envs e).envStatus ≠ .free) :
    (EnvFreeSafe s.phys (s.envs e).envPgdir → ∃ s', s.envFree e = .ok s' ∧ OutsideKept s s' e) ∧
    (tablesOf s.phys.mem (s.envs e).envPgdir ≠ [] →
      (∀ f ∈ tablesOf s.phys.mem (s.envs e).envPgdir, f < ramFrames) →
      ∃ s', s.envFree e = .ok s' ∧ ¬ OutsideKept s s' e) := by
  obtain ⟨_, _, _, _, _, _, hi⟩ := KernelInv.ofReachable hclean hs
  exact ⟨hi.envFree_safe hlive, hi.envFree_low hlive⟩

/-- The child without a stack can be destroyed, and nobody notices. -/
theorem envFree_outside_child : ∃ s s' : Kernel, s.TameReachable image coldRam ∧
    s.envFree 1 = .ok s' ∧ OutsideKept s s' 1 := by
  obtain ⟨s, _, hs, hlive, _, hsafe, _⟩ := bareChild_reached
  obtain ⟨s', hfree, hkept⟩ := (envFree_outside cleanRam_coldRam hs hlive).1 hsafe
  exact ⟨s, s', hs, hfree, hkept⟩

end Kernel

/-! ## 4. A child in page-mapped RAM -/

/-- An entry that `env_free` visits. -/
theorem mem_tablesOf {m : Mem} {d : Nat} {i : Fin 512} (hi : 3 ≤ i.val) (hv : Valid (m d i)) :
    ppn (m d i) ∈ tablesOf m d := by
  refine List.mem_flatMap.mpr ⟨i, ?_, by rw [if_pos hv]; exact List.mem_cons_self⟩
  have h3 : (pudx 0xc0000000).val = 3 := by decide
  rw [h3]
  refine List.mem_iff_getElem.mpr ⟨i.val - 3, by rw [List.length_drop, List.length_finRange]; omega, ?_⟩
  rw [List.getElem_drop, List.getElem_finRange]
  ext
  simp only [Fin.val_cast]
  omega

/-- What the loop of `sys_env_alloc` makes the tables of the child from was free. -/
theorem Copied.free_of_mem_tablesOf {L : Layout} {base : Nat} {km : Mem} {ρ ρ' : Nat → Role}
    {p q : Phys} {active child va n f : Nat} (h : Copied L base km ρ p active child va n ρ' q)
    (hF : Forest L base km ρ p) (hc : ρ child = .dir)
    (hnew : ∀ t i, ρ t ≠ .pmd child i) (hf : f ∈ tablesOf q.mem child) : ρ f = .free := by
  by_contra hfree
  have hd := h.frame.dirsKept child hc
  rcases h.frame.owns_back hF.toShape hfree (h.forest.owns_of_mem_tablesOf hd hf) with
    rfl | ⟨i, hi⟩ | ⟨t, j, i, _, hi⟩
  · exact (List.nodup_cons.mp (h.forest.nodup_tablesOf hd)).1 hf
  · exact hnew _ _ hi
  · exact hnew _ _ hi

namespace Kernel

/-- **A child whose tables lie below the device window**: the first environment has lost the frames
above, and forks. -/
theorem lowChild_reached : ∃ s : Kernel, s.TameReachable image coldRam ∧
    (s.envs 1).envStatus ≠ .free ∧ tablesOf s.phys.mem (s.envs 1).envPgdir ≠ [] ∧
    ∀ f ∈ tablesOf s.phys.mem (s.envs 1).envPgdir, f < ramFrames := by
  obtain ⟨s₀, s, base, n, ρ, ⟨s₁, es, hb, hr⟩, _, h, hk⟩ := firstEnv_left (k := 0x30000) (by decide)
  have hbase := h.base_le
  have hmem : ∀ f, ρ f = .free → f < ramFrames := by
    intro f hf
    obtain ⟨l, hl, hfree⟩ := h.inv.forest.pages
    have hfl := (hfree f).mpr hf
    rw [hl.unique h.pages, mem_freshPages_drop] at hfl
    simp only [ramFrames]
    omega
  have hfirst : s.envFreeList.first () = some 1 := by
    rw [h.inv.list.first_eq, List.finRange_succ]
    rfl
  have hpages := h.pages
  rcases hl : (freshPages base).drop n with _ | ⟨p, _ | ⟨pp, l⟩⟩
  all_goals
    have hlen := congrArg List.length hl
    rw [List.length_drop, length_freshPages] at hlen
    simp only [List.length_nil, List.length_cons] at hlen
  · omega
  · omega
  rw [hl] at hpages
  obtain ⟨q, q₂, ρ', hq, hfork, ⟨hcp, _⟩ | ⟨_, _, _, hshort⟩⟩ :=
    h.inv.fork_onePage (r := ⟨fun _ => 0, ustacktop - 8, 0, 0⟩) h.cur (by decide) h.stackMapped
      hfirst hpages
  · obtain ⟨h1, _, hfree⟩ := KernelInv.setupVm_spec h.inv.forest hq
    have hp : Function.update ρ p .dir p = .dir := Function.update_self _ _ _
    have hnew : ∀ t i, Function.update ρ p .dir t ≠ .pmd p i := by
      intro t i ht
      obtain ⟨_, ht⟩ := role_of_update (by simp) ht
      have hpar := (h.inv.forest.pmdParent t p i ht).2.1
      rw [hfree] at hpar
      cases hpar
    refine ⟨_, ⟨s₁, _, hb, hr.snoc (by show 0x80000000 ≤ ustacktop - 8; decide)
      (step_envAlloc h.cur hfork)⟩, by simp, ?_, ?_⟩
    · obtain ⟨f, _, hs, _⟩ := hcp.copy 0 Nat.one_pos
      have hd := hcp.frame.dirsKept p hp
      obtain ⟨u, ⟨t, ht, _⟩, _⟩ := hcp.forest.leads_of_space hd (by decide) hs
      have hv := (hcp.forest.pmdParent t p _ ht).2.2.1
      rw [phys_forked, envPgdir_forked]
      exact List.ne_nil_of_mem (mem_tablesOf (by decide) hv)
    · rw [phys_forked, envPgdir_forked]
      intro f hf
      refine hmem f (role_of_update (by simp) (hcp.free_of_mem_tablesOf h1 hp hnew hf)).2
  · omega

/-- **`env_free` touches others**: destroying that child takes its tables out of the identity map
of the kernel. -/
theorem envFree_hits : ¬ ∀ (s s' : Kernel) (e : Slot), s.Reachable →
    (s.envs e).envStatus ≠ .free → s.envFree e = .ok s' → OutsideKept s s' e := by
  intro hall
  obtain ⟨s, hs, hlive, hne, hlow⟩ := lowChild_reached
  obtain ⟨_, _, _, _, _, _, hi⟩ := KernelInv.ofReachable cleanRam_coldRam hs
  obtain ⟨s', hfree, hnot⟩ := hi.envFree_low hlive hne hlow
  exact hnot (hall s s' 1 hs.reachable hlive hfree)

end Kernel

end RaspiOS
