/-
# The kernel with its records in memory

A tame step keeps away from the records: the page calls stay in the user half, the pool has no frame of
the kernel, and the identity map is as boot left it.  So a tame step of the machine is the step of
`Kernel`, with the records written out where `alloc` has put them (`MachineInv.step`).  What a step of
`Kernel` keeps and what does not look at memory is therefore kept by the machine, and the invariant rules
at the end carry a proof about tame steps of `Kernel` over to runs of the machine.
-/
import RaspiOS.BootMap
import RaspiOS.EnvTable
import RaspiOS.Progress

set_option autoImplicit false

namespace RaspiOS

open LinkedList

/-! ## 1. The identity map, and the frames of the kernel -/

section Shape

variable {L : Layout} {base : Nat} {km : Mem} {ρ : Nat → Role} {d f : Nat}

/-- **Every frame is where the kernel looks for it.** -/
theorem Shape.translate_frame {m : Mem} (h : Shape L base km ρ m) (hd : ρ d = .dir ∨ d = L.pgDir)
    (hf : f < npage) : (translate m d (page2pa f)).map Translation.frame = some f := by
  rcases Nat.lt_or_ge f ramFrames with hlt | hge
  · obtain ⟨h1, h2⟩ := h.ident_upper hd hlt
    rw [translate_ident hlt h1 h2, h.mem_identPtr hlt, if_pos (isTable_identDesc _ _), Option.map_some,
      hwFrame_identDesc _ hlt]
  · -- the window of the devices is mapped by blocks
    have hb := h.map.le_base
    have hdir : m d 0 = tableDesc (L.pgDir + 1) :=
      (h.ident_upper hd (show 0 < ramFrames by decide)).1
    have hfit := L.fits
    simp only [npage] at hf
    simp only [ramFrames] at hge
    have hva : page2pa f < 2 ^ 39 := by
      rw [page2pa_eq, by2pg]
      omega
    have hpud : pudx (page2pa f) = 0 := by
      ext
      rw [pudx_val, page2pa_eq, by2pg, Fin.val_zero]
      omega
    have hpmd : (pmdx (page2pa f)).val = f / 512 := by
      rw [pmdx_val, page2pa_eq, by2pg]
      omega
    have hpte : (ptex (page2pa f)).val = f % 512 := by
      rw [ptex_val, page2pa_eq, by2pg]
      omega
    have hblock : m (L.pgDir + 1) (pmdx (page2pa f)) = Boot.deviceBlock (f / 512) := by
      rw [h.kernelMem _ (by omega) (by omega), h.map.ram_block _ (by omega), hpmd]
    have hframe : hwFrame (Boot.deviceBlock (f / 512)) = f / 512 * 512 := by
      rw [hwFrame, deviceBlock_eq, ppn_or_low _ (by decide)]
      exact Nat.mod_eq_of_lt (by omega)
    have hw : hwFrame (tableDesc (L.pgDir + 1)) = L.pgDir + 1 := hwFrame_tableDesc (by omega)
    simp only [translate, hva, if_true, hpud, hdir, isTable_tableDesc, hw, translatePmd, hblock,
      not_isTable_deviceBlock, if_false, isBlock_deviceBlock, Option.map_some, hframe, hpte]
    rw [Nat.mul_div_cancel _ (show 0 < 512 by decide), Nat.div_add_mod']

end Shape

/-! ## 2. The invariant of the machine -/

namespace Records

/-- **The table is memory of the kernel**, apart from the tables of `boot_mmu_setup`. -/
structure Fits (R : Records) (L : Layout) (base : Nat) : Prop extends R.Placed where
  above : L.pgDir + 507 ≤ R.frame
  below : R.frame + envPages ≤ base
  inRam : base ≤ npage

end Records

/-- The invariant of tame runs, with the records in memory. -/
structure MachineInv (R : Records) (L : Layout) (base : Nat) (ρ : Nat → Role) (fl : List Slot)
    (s : Kernel) : Prop where
  inv : KernelInv L base s.phys.mem ρ fl s
  synced : R.Synced s

namespace KernelInv

variable {R : Records} {L : Layout} {base : Nat} {km : Mem} {ρ : Nat → Role} {fl : List Slot}
  {s : Kernel}

/-- The directory that is active is one. -/
theorem active (h : KernelInv L base km ρ fl s) : ρ s.active = .dir ∨ s.active = L.pgDir := by
  unfold Kernel.active
  split
  · rename_i c hc
    exact Or.inl (h.dir c (h.cur c hc))
  · exact Or.inr h.pgDir

/-- **The kernel finds the table where boot has put it.** -/
theorem inPlace (h : KernelInv L base km ρ fl s) (hf : R.Fits L base) : R.InPlace s := by
  intro k hk
  have hbelow := hf.below
  have hram := hf.inRam
  have haddr : R.envs + k * by2pg = page2pa (R.frame + k) := by
    rw [← hf.aligned, page2pa_eq, page2pa_eq, Nat.add_mul]
  rw [Records.page, haddr]
  exact h.forest.translate_frame h.active (by omega)

/-- Memory as it is may stand for memory as boot left it. -/
theorem ofMem (h : KernelInv L base km ρ fl s) : KernelInv L base s.phys.mem ρ fl s where
  forest := by
    have hb := h.forest.map.le_base
    refine h.forest.kernelStore ?_ (fun _ _ _ => rfl) fun _ _ => rfl
    exact h.forest.map.mono (le_refl _) fun f hlo hhi => h.forest.kernelMem f hlo (by omega)
  pgDir := h.pgDir
  list := h.list
  free := h.free
  dir := h.dir
  inj := h.inj
  cur := h.cur

/-- **Writing the table out keeps the invariant.** -/
theorem flush (h : KernelInv L base km ρ fl s) (hf : R.Fits L base) :
    MachineInv R L base ρ fl (R.flush s) where
  inv :=
    { forest := by
        have hb := h.forest.map.le_base
        have habove := hf.above
        have hbelow := hf.below
        refine h.forest.kernelStore ?_ (fun _ _ _ => rfl) fun g hg => R.mem_flush s fun hin => ?_
        · refine h.forest.map.mono (le_refl _) fun f hlo hhi => ?_
          rw [R.mem_flush s (by omega), h.forest.kernelMem f hlo (by omega)]
        · exact hg ((h.forest.kernel g).mpr (Or.inl (by omega)))
      pgDir := h.pgDir
      list := h.list
      free := h.free
      dir := h.dir
      inj := h.inj
      cur := h.cur }
  synced := R.synced_flush s

/-- Writing it out changes no address space. -/
theorem space_flush (h : KernelInv L base km ρ fl s) (hf : R.Fits L base) {d : Nat} (hd : ρ d = .dir)
    {g : Page} (hg : 2 ≤ g.1.val) : space (R.flush s).phys.mem d g = space s.phys.mem d g := by
  have hmem : ∀ u, ρ u ≠ .kernel → (R.flush s).phys.mem u = s.phys.mem u := by
    intro u hu
    have hbelow := hf.below
    exact R.mem_flush s fun hin => hu ((h.forest.kernel u).mpr (Or.inl (by omega)))
  by_cases hu : ∃ u, Leads ρ d g u
  · obtain ⟨u, hu⟩ := hu
    rw [h.forest.space_of_leads hu, (h.flush hf).inv.forest.space_of_leads hu]
    obtain ⟨t, _, hut⟩ := hu
    rw [hmem u (by simp [hut])]
  · rw [not_exists] at hu
    rw [h.forest.space_of_not_leads hd hg hu, (h.flush hf).inv.forest.space_of_not_leads hd hg hu]

end KernelInv

/-! ## 3. A tame step of the machine -/

namespace MachineInv

variable {R : Records} {L : Layout} {base : Nat} {ρ ρ' : Nat → Role} {fl fl' : List Slot}
  {s s' t : Kernel} {ev : Event}

/-- The table as memory holds it after a step that stays away from it. -/
theorem holds (h : MachineInv R L base ρ fl s) (hf : R.Fits L base)
    (h' : KernelInv L base s.phys.mem ρ' fl' s') : R.Holds s' s := by
  intro k hk i
  have habove := hf.above
  have hbelow := hf.below
  rw [h'.forest.kernelMem _ (by omega) (by omega)]
  exact h.synced k hk i

/-- **What a tame call has changed is stored and read back.** -/
theorem settle (h : MachineInv R L base ρ fl s) (hf : R.Fits L base)
    (h' : KernelInv L base s.phys.mem ρ' fl' s') : R.settle s s' = .ok (R.flush s') := by
  have hin := h.inv.inPlace hf
  have hin' := h'.inPlace hf
  have hflush := h'.flush hf
  unfold Records.settle
  rw [if_pos (Or.inl fun k hk => (hin' k hk).trans (hin k hk).symm), R.put_eq_flush hin' (h.holds hf h')]
  exact R.load_synced hf.toPlaced (hflush.inv.inPlace hf) hflush.synced

/-- The same for `sys_ipc_can_send`, which reads the table in between. -/
theorem ipcCanSend (h : MachineInv R L base ρ fl s) (hf : R.Fits L base) {r : Regs}
    {envid value srcva perm : Nat} (ht : s.TameCall r (.ipcCanSend envid value srcva perm)) :
    R.ipcCanSend s envid value srcva perm =
      ((s.sysIpcCanSend envid value srcva perm).mapError .halt).map fun x => (x.1, R.flush x.2) := by
  have hsame : R.flush s = s := R.flush_synced h.synced
  unfold Records.ipcCanSend Kernel.sysIpcCanSend
  cases hc : s.curenv with
  | none => rfl
  | some c =>
    dsimp only
    cases hres : s.envid2env envid false with
    | none =>
      simp only [Except.mapError, Except.map, hsame]
    | some e =>
      dsimp only
      have he := h.inv.not_mem_of_resolve hres
      by_cases hwait : (s.envs e).envStatus ≠ .notRunnable ∨ (s.envs e).envIpcRecving = 0
      · simp only [if_pos hwait, Except.mapError, Except.map, hsame]
      by_cases htop : utop ≤ srcva
      · simp only [if_neg hwait, if_pos htop, Except.mapError, Except.map, hsame]
      by_cases hpage : srcva ≠ 0
      · simp only [if_neg hwait, if_neg htop, if_pos hpage]
        cases hl : s.phys.pageLookup (s.envs c).envPgdir srcva with
        | error x => rfl
        | ok o =>
          rcases o with _ | ⟨f, a⟩
          · simp only [Except.mapError, bind, Except.bind, Except.map, pure, Except.pure, hsame]
          · cases hi : s.phys.pageInsert (s.envs e).envPgdir f (s.envs e).envIpcDstva perm with
            | error x =>
              simp only [Except.mapError, bind, Except.bind, hi, Except.map]
            | ok o =>
              obtain ⟨v, phys⟩ := o
              rw [not_or, not_not] at hwait
              obtain ⟨hva1, hva2, hok, href⟩ := ht hpage c e f a hc hres hwait.2 hl
              have hfound := h.inv.forest.page_of_lookup (h.inv.dir c (h.inv.cur c hc)) hva1 hl
              obtain ⟨ρ2, h2, hl2⟩ := h.inv.forest.insert_ok (h.inv.dir e he) hva2 hfound href hok hi
              have hinv : KernelInv L base s.phys.mem ρ2 fl { s with phys := phys } :=
                h.inv.withPhys h2 hl2.dirsKept
              -- the page has gone to the user half, so every record is read as it was
              have h₁ : MachineInv R L base ρ2 fl { s with phys := phys } := ⟨hinv.ofMem, h.holds hf hinv⟩
              have hload := R.load_synced hf.toPlaced (h₁.inv.inPlace hf) h₁.synced
              have hd := h₁.settle hf (h₁.inv.ipcDeliver he c value perm)
              have hkeep := R.flush_synced h₁.synced
              simp only [hc] at hload hkeep hd
              by_cases hv : v < 0
              · simp only [Except.mapError, bind, Except.bind, hi, hload, if_pos hv, pure, Except.pure,
                  Except.map, hkeep]
              · simp only [Except.mapError, bind, Except.bind, hi, hload, if_neg hv, pure, Except.pure,
                  Except.map, hd]
      · simp only [if_neg hwait, if_neg htop, if_neg hpage]
        have hd := h.settle hf (h.inv.ipcDeliver he c value perm)
        simp only [hd, bind, Except.bind, pure, Except.pure, Except.mapError, Except.map]

/-- **A tame step of the machine is the step of the kernel**, written out. -/
theorem step_eq (h : MachineInv R L base ρ fl s) (hf : R.Fits L base) (ht : s.Tame ev) :
    R.step s ev = ((s.step ev).mapError .halt).map R.flush := by
  have hother : R.step s ev = (do R.settle s (← (s.step ev).mapError .halt)) →
      R.step s ev = ((s.step ev).mapError .halt).map R.flush := by
    intro heq
    rw [heq]
    cases hs : s.step ev with
    | error x => rfl
    | ok s' =>
      obtain ⟨ρ', fl', h'⟩ := h.inv.step ht hs
      exact h.settle hf h'
  cases ev with
  | create binary priority => exact hother rfl
  | irq r => exact hother rfl
  | store va w => exact hother rfl
  | svc r call =>
    cases call with
    | ipcCanSend envid value srcva perm =>
      let k : Kernel := { s with kernelFrame := saveall syncStack r }
      have hk : MachineInv R L base ρ fl k := ⟨h.inv.withFrames _ _, h.synced⟩
      have htame : k.TameCall r (.ipcCanSend envid value srcva perm) := ht
      have hsend := hk.ipcCanSend hf htame
      simp only [Records.step, Kernel.step, Kernel.svc]
      refine (congrArg (Except.map Prod.snd) hsend).trans ?_
      by_cases hc : s.curenv = none
      · simp only [Kernel.sysIpcCanSend, k, hc]
        rfl
      · rw [if_neg hc]
        change _ = Except.map R.flush (Except.mapError Records.Ending.halt
          (Except.map Prod.snd (k.sysIpcCanSend envid value srcva perm)))
        cases k.sysIpcCanSend envid value srcva perm <;> rfl
    | _ => exact hother rfl

/-- **A tame step keeps the invariant of the machine.** -/
theorem step (h : MachineInv R L base ρ fl s) (hf : R.Fits L base) (ht : s.Tame ev)
    (hst : R.step s ev = .ok t) :
    ∃ s' ρ' fl', s.step ev = .ok s' ∧ t = R.flush s' ∧ KernelInv L base s.phys.mem ρ' fl' s' ∧
      MachineInv R L base ρ' fl' t := by
  rw [h.step_eq hf ht] at hst
  cases hs : s.step ev with
  | error x =>
    rw [hs] at hst
    cases hst
  | ok s' =>
    rw [hs] at hst
    cases hst
    obtain ⟨ρ', fl', h'⟩ := h.inv.step ht hs
    exact ⟨s', ρ', fl', rfl, rfl, h', h'.flush hf⟩

/-- A tame step of the kernel is a step of the machine. -/
theorem step_ok (h : MachineInv R L base ρ fl s) (hf : R.Fits L base) (ht : s.Tame ev)
    (hs : s.step ev = .ok s') : R.step s ev = .ok (R.flush s') := by
  rw [h.step_eq hf ht, hs]
  rfl

end MachineInv

/-! ## 4. Boot and runs -/

namespace Boot

/-- **`envs` points to frames of its own**, above the tables and below what boot leaves. -/
theorem vmInit_envs {L : Layout} {b : Boot} {F : Nat} (hb : b.freemem = by2pg * F)
    (hm : KernelMap L b.mem F) (hroom : F + 3284 < npage) :
    ∃ c F' G, vmInit L b = .ok c ∧ Mapped L c F' ∧ F' ≤ F + 3284 ∧
      envsPtr L b = .ok (by2pg * G) ∧ F ≤ G ∧ G + envPages ≤ F' := by
  have h1 : npage * sizeofPage = by2pg * 1536 := by decide
  have h2 : nenv * sizeofEnv = by2pg * 104 := by decide
  have h3 : ∀ n, round (by2pg * n) by2pg = by2pg * n := round_mul
  have hpages : envPages = 104 := by decide
  obtain ⟨b₁, ha₁, hb₁, _⟩ := (alloc_spec hb hm 1536).resolve_left (by omega)
  obtain ⟨b₂, F₂, hs₂, hb₂, hlo₂, hhi₂⟩ := (mapSegment_ends hb₁ 1536 (by2pg * F) pteV
    (show 0x40200000 ≤ upages by decide) (by decide)).resolve_left (by omega)
  obtain ⟨b₃, ha₃, hb₃, _⟩ := (alloc_spec hb₂.freemem hb₂.map 104).resolve_left (by omega)
  -- what follows takes frames above the table
  have hrest : Ends L (F₂ + 104) 108 (do
      let b ← b₃.mapSegment L.pgDir uenvs (by2pg * 104) (by2pg * F₂) pteV
      let x ← b.alloc by2pg by2pg
      let b ← x.2.mapSegment L.pgDir (timestack - by2pg) by2pg x.1 pteV
      let x ← b.alloc by2pg by2pg
      x.2.mapSegment L.pgDir (kernelSp - by2pg) by2pg x.1 pteV) := by
    refine (mapSegment_ends hb₃ 104 (by2pg * F₂) pteV (show 0x40200000 ≤ uenvs by decide)
      (by decide)).bind (k := 4) ?_
    intro b G hG
    have hpure : ∀ b' G', Mapped L b' G' → Ends L G' 0 (pure b') :=
      fun b' G' h' => Or.inr ⟨b', G', rfl, h', le_refl _, le_refl _⟩
    have hlast : ∀ b' G', Mapped L b' G' → Ends L G' 2 (do
        let x ← b'.alloc by2pg by2pg
        x.2.mapSegment L.pgDir (kernelSp - by2pg) by2pg x.1 pteV) := by
      intro b' G' h'
      have hva : 0x40200000 ≤ kernelSp - by2pg ∧ kernelSp - by2pg + by2pg * 1 ≤ 0x80000000 := by
        decide
      have h := allocSegment_ends h'.freemem h'.map 1 1 0 pteV hva.1 hva.2 hpure
      simpa only [bind_pure, Nat.mul_one] using h
    have hva : 0x40200000 ≤ timestack - by2pg ∧ timestack - by2pg + by2pg * 1 ≤ 0x80000000 := by
      decide
    have h := allocSegment_ends hG.freemem hG.map 1 1 2 pteV hva.1 hva.2 hlast
    simpa only [Nat.mul_one] using h
  obtain ⟨c, F', hc, hmap, hlo, hhi⟩ := hrest.resolve_left (by omega)
  refine ⟨c, F', F₂, ?_, hmap, by omega, ?_, by omega, by omega⟩
  · unfold vmInit
    rw [h1, h2, h3, h3]
    refine Except.bind_eq_ok_iff.mpr ⟨_, ha₁, Except.bind_eq_ok_iff.mpr ⟨_, hs₂, ?_⟩⟩
    exact Except.bind_eq_ok_iff.mpr ⟨_, ha₃, hc⟩
  · unfold envsPtr
    rw [h1, h2, h3]
    refine Except.bind_eq_ok_iff.mpr ⟨_, ha₁, Except.bind_eq_ok_iff.mpr ⟨_, hs₂, ?_⟩⟩
    exact Except.bind_eq_ok_iff.mpr ⟨_, ha₃, rfl⟩

end Boot

/-- Writing the table out is no step of boot. -/
theorem EnvBoot.flush {L : Layout} {s : Kernel} (h : EnvBoot L s) (R : Records) :
    EnvBoot L (R.flush s) :=
  ⟨h.pgDir, h.envs, h.free, h.sched, h.schedLog, h.curSched, h.curenv, h.nextEnvId, h.pos⟩

theorem Booted.flush {R : Records} {L : Layout} {base : Nat} {s : Kernel} (h : Booted L base s)
    (hf : R.Fits L base) : Booted L base (R.flush s) where
  toEnvBoot := h.toEnvBoot.flush R
  map := ((KernelInv.ofBooted h).flush hf).inv.forest.map
  base_lt := h.base_lt
  ppRef := h.ppRef
  pages := h.pages

/-- **Boot succeeds on clean memory**, and the table has a place. -/
theorem bootInRam_ok {L : Layout} {ram : Mem} (H : ListHeads L) (hclean : CleanRam L ram) :
    ∃ R s base, bootInRam L H ram = .ok (R, s) ∧ R.Fits L base ∧ Booted L base s ∧
      base ≤ L.pgDir + 3791 ∧
      MachineInv R L base (KernelInv.bootRoles base) (List.finRange 1024) s := by
  obtain ⟨hfree, hm⟩ := Boot.mmuSetup_spec hclean
  have hK := L.fits
  obtain ⟨c, F, G, hc, hmap, hF, hG, hlo, hhi⟩ :=
    Boot.vmInit_envs hfree hm (by simp only [npage]; omega)
  obtain ⟨s, hs, hb⟩ := boot_of_vmInit hc hmap
  have hframe : (⟨by2pg * G, H.freeList, H.schedList⟩ : Records).frame = G := Boot.ppn_mul G
  have hbelow : page2pa L.pgDir ≤ by2pg * G := by
    rw [page2pa_eq, Nat.mul_comm]
    exact Nat.mul_le_mul_left _ (by omega)
  have hfits : (⟨by2pg * G, H.freeList, H.schedList⟩ : Records).Fits L F :=
    { aligned := by rw [hframe, page2pa_eq, Nat.mul_comm]
      freeList := ⟨H.pos.1, lt_of_lt_of_le H.inImage.1 hbelow⟩
      schedList := ⟨H.pos.2, lt_of_lt_of_le H.inImage.2 hbelow⟩
      above := by rw [hframe]; exact hlo
      below := by rw [hframe]; exact hhi
      inRam := le_of_lt hmap.lt }
  refine ⟨_, _, F, ?_, hfits, hb.flush hfits, by omega, (KernelInv.ofBooted hb).flush hfits⟩
  unfold bootInRam
  rw [hG, hs]
  rfl

/-- The same of a boot that has been made. -/
theorem bootInRam_spec {L : Layout} {ram : Mem} {H : ListHeads L} {R : Records} {s : Kernel}
    (hclean : CleanRam L ram) (hboot : bootInRam L H ram = .ok (R, s)) :
    ∃ base, R.Fits L base ∧ Booted L base s ∧
      MachineInv R L base (KernelInv.bootRoles base) (List.finRange 1024) s := by
  obtain ⟨R', s', base, hb, hfits, hbooted, _, hin⟩ := bootInRam_ok H hclean
  rw [hboot] at hb
  cases hb
  exact ⟨base, hfits, hbooted, hin⟩

/-- What `env_init` leaves, on any memory. -/
theorem bootInRam_envBoot {L : Layout} {ram : Mem} {H : ListHeads L} {R : Records} {s : Kernel}
    (hboot : bootInRam L H ram = .ok (R, s)) : EnvBoot L s := by
  obtain ⟨envs, _, h1⟩ := Except.bind_eq_ok_iff.mp hboot
  obtain ⟨s₀, hs, h2⟩ := Except.bind_eq_ok_iff.mp h1
  cases h2
  exact (boot_envBoot hs).flush _

/-! ## 5. Runs -/

namespace Records

/-- A state that some run of tame steps of the machine reaches from boot on clean memory. -/
def TameReachable (R : Records) (s : Kernel) : Prop :=
  ∃ (L : Layout) (H : ListHeads L) (ram : Mem) (s₀ : Kernel) (es : List Event),
    CleanRam L ram ∧ bootInRam L H ram = .ok (R, s₀) ∧ Run R.step Kernel.Tame s₀ es s

end Records

/-- **The invariant of the machine holds in every state that tame steps reach.** -/
theorem MachineInv.ofReachable {R : Records} {s : Kernel} (h : R.TameReachable s) :
    ∃ L base ρ fl, R.Fits L base ∧ MachineInv R L base ρ fl s := by
  obtain ⟨L, H, ram, s₀, es, hclean, hboot, hr⟩ := h
  obtain ⟨base, hf, _, h0⟩ := bootInRam_spec hclean hboot
  have hinv := hr.invariant (I := fun t => ∃ ρ fl, MachineInv R L base ρ fl t) ⟨_, _, h0⟩
    fun _ _ _ hi ht hs => by
      obtain ⟨_, _, hi⟩ := hi
      obtain ⟨_, ρ', fl', _, _, _, h'⟩ := hi.step hf ht hs
      exact ⟨ρ', fl', h'⟩
  obtain ⟨ρ, fl, h⟩ := hinv
  exact ⟨L, base, ρ, fl, hf, h⟩

namespace Records.TameReachable

variable {R : Records} {s s' : Kernel} {ev : Event}

theorem step_ok (h : R.TameReachable s) (ht : s.Tame ev) (hs : s.step ev = .ok s') :
    R.step s ev = .ok (R.flush s') ∧ R.TameReachable (R.flush s') := by
  obtain ⟨L, base, ρ, fl, hf, hin⟩ := MachineInv.ofReachable h
  obtain ⟨L', H, ram, s₀, es, hclean, hboot, hr⟩ := h
  have hst := hin.step_ok hf ht hs
  exact ⟨hst, L', H, ram, s₀, _, hclean, hboot, hr.snoc ht hst⟩

end Records.TameReachable

namespace Records

section Rules

variable {R : Records} {L : Layout} {H : ListHeads L} {ram : Mem} {s₀ s : Kernel} {es : List Event}
  (hclean : CleanRam L ram) (hboot : bootInRam L H ram = .ok (R, s₀))

include hclean hboot

/-- **The invariant rule for tame runs with a history.**  What holds after boot and is kept by the
steps of `Kernel`, written out, holds in every state of the machine. -/
theorem invariantRecorded {γ : Type} {update : Kernel → Event → Kernel → γ → γ}
    {guard : Kernel × γ → Event → Prop} {I : Kernel → γ → Prop} {g₀ g : γ}
    (hr : Run (Run.recording R.step update) (fun x ev => x.1.Tame ev ∧ guard x ev) (s₀, g₀) es (s, g))
    (h0 : I s₀ g₀) (hstep : ∀ t g ev u, I t g → guard (t, g) ev → t.step ev = .ok u →
      I (R.flush u) (update t ev (R.flush u) g)) : I s g := by
  obtain ⟨base, hf, _, hin⟩ := bootInRam_spec hclean hboot
  have hinv := hr.invariantRecorded (I := fun t g => (∃ ρ fl, MachineInv R L base ρ fl t) ∧ I t g)
    ⟨⟨_, _, hin⟩, h0⟩ fun t g ev u hI hg hst => by
      obtain ⟨⟨ρ, fl, hi⟩, hI⟩ := hI
      obtain ⟨v, ρ', fl', hv, rfl, _, h'⟩ := hi.step hf hg.1 hst
      exact ⟨⟨ρ', fl', h'⟩, hstep t g ev v hI hg.2 hv⟩
  exact hinv.2

/-- The rule without a history. -/
theorem invariant {guard : Kernel → Event → Prop} {I : Kernel → Prop}
    (hr : Run R.step (fun t ev => t.Tame ev ∧ guard t ev) s₀ es s) (h0 : I s₀)
    (hstep : ∀ t ev u, I t → guard t ev → t.step ev = .ok u → I (R.flush u)) : I s := by
  obtain ⟨g, hr'⟩ := hr.recorded (fun _ _ _ g => g) ()
  exact invariantRecorded hclean hboot (I := fun t _ => I t) hr' h0
    fun t _ ev u hI hg hst => hstep t ev u hI hg hst

end Rules

end Records

/-! ## 6. The first environments -/

/-- The two list heads in the half megabyte. -/
def imageHeads : ListHeads image where
  freeList := 0x90000
  schedList := 0x90008
  pos := by decide
  inImage := by decide

theorem Records.TameReachable.ofImage {R : Records} {s₀ s : Kernel} {es : List Event}
    (hb : bootInRam image imageHeads coldRam = .ok (R, s₀)) (hr : Run R.step Kernel.Tame s₀ es s) :
    R.TameReachable s :=
  ⟨image, imageHeads, coldRam, s₀, es, cleanRam_coldRam, hb, hr⟩

section First

variable {R : Records} {base n : Nat} {km : Mem} {ρ : Nat → Role} {s s' : Kernel} {e : Slot}
  {ev : Event}

theorem Created.flush (h : Created s s' e) (R : Records) : Created s (R.flush s') e :=
  ⟨h.other, h.status, h.id, h.parent, h.curenv, h.nextEnvId, h.pos, h.curSched, h.envSched, h.schedLog⟩

theorem FirstEnv.flush (h : FirstEnv base km n ρ s) (hf : R.Fits image base) :
    FirstEnv base (R.flush s).phys.mem n ρ (R.flush s) := by
  have hspace : ∀ g : Page, 2 ≤ g.1.val → space (R.flush s).phys.mem (s.envs 0).envPgdir g
      = space s.phys.mem (s.envs 0).envPgdir g :=
    fun g hg => h.inv.space_flush hf (h.inv.dir 0 (by simp)) hg
  exact
    { inv := (h.inv.flush hf).inv
      base_le := h.base_le
      cur := h.cur
      status := h.status
      id := h.id
      parent := h.parent
      other := h.other
      nextEnvId := h.nextEnvId
      curSched := h.curSched
      sched := h.sched
      pages := h.pages
      stack := by
        obtain ⟨f, hp, hst⟩ := h.stack
        exact ⟨f, hp, fun g hg => (hspace g hg).trans (hst g hg)⟩
      stackRef := fun f hu => h.stackRef f ((hspace _ (by decide)).symm.trans hu) }

theorem SecondEnv.flush (h : SecondEnv base km ρ s) (hf : R.Fits image base) :
    SecondEnv base (R.flush s).phys.mem ρ (R.flush s) :=
  ⟨(h.inv.flush hf).inv, h.base_le, h.cur, h.pos, h.status, h.id, h.parent, h.other, h.curSched,
    h.sched, h.pages⟩

theorem FirstChild.flush (h : FirstChild base km n ρ s) (hf : R.Fits image base) :
    FirstChild base (R.flush s).phys.mem n ρ (R.flush s) := by
  have hdir : ∀ e : Slot, e = 0 ∨ e = 1 → ρ (s.envs e).envPgdir = .dir := by
    intro e he
    refine h.inv.dir e (h.inv.not_mem_of_status ?_)
    rw [h.status e he]
    simp
  have hspace : ∀ g : Page, 2 ≤ g.1.val → space (R.flush s).phys.mem (s.envs 0).envPgdir g
      = space s.phys.mem (s.envs 0).envPgdir g :=
    fun g hg => h.inv.space_flush hf (hdir 0 (Or.inl rfl)) hg
  exact
    { inv := (h.inv.flush hf).inv
      base_le := h.base_le
      cur := h.cur
      status := h.status
      id := h.id
      parent := h.parent
      other := h.other
      pages := h.pages
      stack := by
        obtain ⟨f, hst⟩ := h.stack
        exact ⟨f, fun g hg => (hspace g hg).trans (hst g hg)⟩
      stackRef := fun f hu => h.stackRef f ((hspace _ (by decide)).symm.trans hu)
      bare := by
        intro i hi
        have hbelow := hf.below
        have hmem : (R.flush s).phys.mem (s.envs 1).envPgdir = s.phys.mem (s.envs 1).envPgdir := by
          refine R.mem_flush s fun hin => ?_
          have hk := (h.inv.forest.kernel (s.envs 1).envPgdir).mpr (Or.inl (by omega))
          cases hk.symm.trans (hdir 1 (Or.inr rfl))
        change ¬ Valid ((R.flush s).phys.mem (s.envs 1).envPgdir i)
        rw [hmem]
        exact h.bare i hi }

end First

/-- **Boot, one environment, and the first timer interrupt**, on the machine. -/
theorem firstEnv_inRam : ∃ R s₀ s base n ρ, bootInRam image imageHeads coldRam = .ok (R, s₀) ∧
    R.Fits image base ∧ Booted image base s₀ ∧
    Run R.step Kernel.Tame s₀ [.create 0x80000 1, .irq .zero] s ∧ n ≤ 4 ∧ R.Synced s ∧
    FirstEnv base s.phys.mem n ρ s := by
  obtain ⟨R, s₀, base, hboot, hf, hb, hbase, hin⟩ := bootInRam_ok imageHeads cleanRam_coldRam
  have hbase' : base ≤ 4047 := hbase
  obtain ⟨s₁, ρ₁, n, f, hs₁, h₁, hc, hn, hl, hp, href, hst⟩ := hb.create_first hbase'
  have hm₁ := h₁.flush hf
  obtain ⟨s, hirq, h⟩ := FirstEnv.ofCreated hb.toEnvBoot hbase' hm₁.inv (hc.flush R) hl hp href
    (fun g hg => (h₁.space_flush hf (h₁.dir 0 (by simp)) hg).trans (hst g hg)) .zero
  refine ⟨R, s₀, R.flush s, base, n, ρ₁, hboot, hf, hb, ?_, hn, R.synced_flush s, h.flush hf⟩
  have hstep₁ : R.step s₀ (.create 0x80000 1) = _ := hin.step_ok hf trivial hs₁
  have hstep₂ : R.step (R.flush s₁) (.irq .zero) = _ := hm₁.step_ok hf trivial hirq
  exact (Run.single trivial hstep₁).snoc trivial hstep₂

/-- The same with two environments. -/
theorem secondEnv_inRam : ∃ R s₀ s base ρ, bootInRam image imageHeads coldRam = .ok (R, s₀) ∧
    R.Fits image base ∧ Booted image base s₀ ∧
    Run R.step Kernel.Tame s₀ [.create 0x80000 1, .create 0x80000 1, .irq .zero] s ∧ R.Synced s ∧
    SecondEnv base s.phys.mem ρ s := by
  obtain ⟨R, s₀, base, hboot, hf, hb, hbase, hin⟩ := bootInRam_ok imageHeads cleanRam_coldRam
  have hbase' : base ≤ 4047 := hbase
  obtain ⟨s₁, ρ₁, n, _, hs₁, h₁, hc, hn, hl, _⟩ := hb.create_first hbase'
  have hm₁ := h₁.flush hf
  obtain ⟨s₂, ρ₂, n', hs₂, h₂, hc', hn', hl'⟩ := hm₁.inv.create_second hbase' hn hl
  have hm₂ := h₂.flush hf
  obtain ⟨s, hirq, h⟩ := SecondEnv.ofCreated hb.toEnvBoot hbase' hm₂.inv (hc.flush R) (hc'.flush R) hn'
    hl' .zero
  refine ⟨R, s₀, R.flush s, base, ρ₂, hboot, hf, hb, ?_, R.synced_flush s, h.flush hf⟩
  have hstep₁ : R.step s₀ (.create 0x80000 1) = _ := hin.step_ok hf trivial hs₁
  have hstep₂ : R.step (R.flush s₁) (.create 0x80000 1) = _ := hm₁.step_ok hf trivial hs₂
  have hstep₃ : R.step (R.flush s₂) (.irq .zero) = _ := hm₂.step_ok hf trivial hirq
  exact ((Run.single trivial hstep₁).snoc trivial hstep₂).snoc trivial hstep₃

/-- **The first environment forks**, on the machine. -/
theorem firstChild_inRam : ∃ R s₀ s base n ρ, bootInRam image imageHeads coldRam = .ok (R, s₀) ∧
    R.Fits image base ∧ Booted image base s₀ ∧
    Run R.step Kernel.Tame s₀ [.create 0x80000 1, .irq .zero, .svc .noStack .envAlloc] s ∧ n ≤ 5 ∧
    R.Synced s ∧ FirstChild base s.phys.mem n ρ s := by
  obtain ⟨R, s₀, s, base, n, ρ, hboot, hf, hb, hr, hn, hsync, h⟩ := firstEnv_inRam
  have hbase := h.base_le
  obtain ⟨htame, s', ρ', hst, h'⟩ := h.fork (by simp only [npage]; omega)
  have hm : MachineInv R image base ρ _ s := ⟨h.inv, hsync⟩
  exact ⟨R, s₀, R.flush s', base, n + 1, ρ', hboot, hf, hb, hr.snoc htame (hm.step_ok hf htame hst),
    by omega, R.synced_flush s', h'.flush hf⟩

end RaspiOS
