/-
# What an environment costs

`env_free` gives back neither the directory nor the tables of an environment, so a frame that has been
one of these is never anything else again, whoever is destroyed.  Each call of `env_alloc` takes a
fresh directory, and there are less than `2^18` frames: the counter in the ids stops there.

Two limits of `env.c` are therefore out of reach while the user-half discipline is kept.  The ids,
which repeat after `2^53` calls of `mkenvid`, never repeat, and `fork`, which has room for `2^20`
generations in its `int`, always names the child.
-/
import RaspiOS.ForkId
import RaspiOS.UserMemory
import Mathlib.Order.Interval.Finset.Nat

set_option autoImplicit false

namespace RaspiOS

open LinkedList

/-! ## 1. Frames that are tables -/

/-- The frame is the directory `d`, or a table of its user half. -/
def DirOrTable (m : Mem) (d f : Nat) : Prop :=
  f = d ∨ ∃ i : Fin 512, 2 ≤ i.val ∧ Valid (m d i) ∧
    (f = ppn (m d i) ∨ ∃ j, Valid (m (ppn (m d i)) j) ∧ f = ppn (m (ppn (m d i)) j))

section Tables

variable {L : Layout} {base : Nat} {km : Mem} {ρ ρ' : Nat → Role} {m : Mem} {d d' f : Nat}

/-- What hangs below a directory has the roles of its tables. -/
theorem Shape.owns_of_dirOrTable (h : Shape L base km ρ m) (hd : ρ d = .dir) (hf : DirOrTable m d f) :
    Owns ρ d f := by
  rcases hf with rfl | ⟨i, hi, hv, rfl | ⟨j, hv', rfl⟩⟩
  · exact Or.inl rfl
  · exact Or.inr (Or.inl ⟨i, (h.dirUser d hd i hi hv).2⟩)
  · have hpmd := (h.dirUser d hd i hi hv).2
    exact Or.inr (Or.inr ⟨_, j, i, (h.pmdUser _ d i hpmd j hv').2, hpmd⟩)

theorem Settled.owns (h : Settled ρ ρ') (hd : ρ d = .dir) (hf : Owns ρ d f) : Owns ρ' d f := by
  rcases hf with rfl | ⟨i, hi⟩ | ⟨t, j, i, hj, hi⟩
  · exact Or.inl rfl
  · exact Or.inr (Or.inl ⟨i, (h f (by simp [hi]) (by simp [hi])).trans hi⟩)
  · exact Or.inr (Or.inr ⟨t, j, i, (h f (by simp [hj]) (by simp [hj])).trans hj,
      (h t (by simp [hi]) (by simp [hi])).trans hi⟩)

/-- A table is neither free nor a page. -/
theorem Owns.not_plain (hf : Owns ρ d f) (hd : ρ d = .dir) : ¬ (ρ f).IsPlain := by
  intro hp
  rcases hf with rfl | ⟨i, hi⟩ | ⟨t, j, i, hj, hi⟩
  · exact hp.ne_dir hd
  · exact hp.ne_pmd hi
  · exact hp.ne_pte hj

/-- A table belongs to one directory. -/
theorem Owns.unique (hf : Owns ρ d f) (hf' : Owns ρ d' f) (hd : ρ d = .dir) (hd' : ρ d' = .dir) :
    d = d' := by
  rcases hf with rfl | ⟨i, hi⟩ | ⟨t, j, i, hj, hi⟩
  · rcases hf' with rfl | ⟨i', hi'⟩ | ⟨t', j', i', hj', _⟩
    · rfl
    · rw [hd] at hi'
      cases hi'
    · rw [hd] at hj'
      cases hj'
  · rcases hf' with rfl | ⟨i', hi'⟩ | ⟨t', j', i', hj', _⟩
    · rw [hd'] at hi
      cases hi
    · rw [hi] at hi'
      cases hi'
      rfl
    · rw [hi] at hj'
      cases hj'
  · rcases hf' with rfl | ⟨i', hi'⟩ | ⟨t', j', i', hj', hi'⟩
    · rw [hd'] at hj
      cases hj
    · rw [hj] at hi'
      cases hi'
    · rw [hj] at hj'
      cases hj'
      rw [hi] at hi'
      cases hi'
      rfl

end Tables

/-! ## 2. The number of directories -/

/-- How many directories there have been. -/
def dirCount (ρ : Nat → Role) : Nat := ((Finset.range npage).filter fun f => ρ f = .dir).card

section Count

variable {L : Layout} {base : Nat} {km : Mem} {ρ ρ' : Nat → Role} {p : Phys} {d : Nat}

theorem dirCount_mono (h : Settled ρ ρ') : dirCount ρ ≤ dirCount ρ' := by
  refine Finset.card_le_card fun f hf => ?_
  obtain ⟨hlt, hd⟩ := Finset.mem_filter.mp hf
  exact Finset.mem_filter.mpr ⟨hlt, h.dirsKept f hd⟩

/-- A new directory counts. -/
theorem dirCount_lt (h : Settled ρ ρ') (hlt : d < npage) (hd : ρ d ≠ .dir) (hd' : ρ' d = .dir) :
    dirCount ρ < dirCount ρ' := by
  refine Finset.card_lt_card ((Finset.ssubset_iff_of_subset fun f hf => ?_).mpr ⟨d, ?_, ?_⟩)
  · obtain ⟨hlt, hd⟩ := Finset.mem_filter.mp hf
    exact Finset.mem_filter.mpr ⟨hlt, h.dirsKept f hd⟩
  · exact Finset.mem_filter.mpr ⟨Finset.mem_range.mpr hlt, hd'⟩
  · exact fun hf => hd (Finset.mem_filter.mp hf).2

/-- **Directories and free frames share the pool.** -/
theorem Forest.dirCount_add_le (h : Forest L base km ρ p) {l : List Nat}
    (hl : IsList p.pageFreeList () l) : dirCount ρ + l.length ≤ npage - base := by
  obtain ⟨l', hl', hmem⟩ := h.pages
  obtain rfl := hl.unique hl'
  have hfree : ∀ f ∈ l.toFinset, ρ f = .free := fun f hf => (hmem f).mp (List.mem_toFinset.mp hf)
  have hdisj : Disjoint ((Finset.range npage).filter fun f => ρ f = .dir) l.toFinset := by
    rw [Finset.disjoint_left]
    intro f hd hf
    have hdir := (Finset.mem_filter.mp hd).2
    rw [hfree f hf] at hdir
    cases hdir
  have hpool : ((Finset.range npage).filter fun f => ρ f = .dir) ∪ l.toFinset ⊆
      Finset.Ico base npage := by
    intro f hf
    have hne : ρ f ≠ .kernel := by
      rcases Finset.mem_union.mp hf with hf | hf
      · rw [(Finset.mem_filter.mp hf).2]
        simp
      · rw [hfree f hf]
        simp
    exact Finset.mem_Ico.mpr ⟨h.base_le hne, h.lt_npage hne⟩
  calc dirCount ρ + l.length
      = ((Finset.range npage).filter fun f => ρ f = .dir).card + l.toFinset.card := by
        rw [dirCount, List.toFinset_card_of_nodup hl.nodup]
    _ = (((Finset.range npage).filter fun f => ρ f = .dir) ∪ l.toFinset).card :=
        (Finset.card_union_of_disjoint hdisj).symm
    _ ≤ (Finset.Ico base npage).card := Finset.card_le_card hpool
    _ = npage - base := Nat.card_Ico base npage

end Count

namespace Kernel

/-! ## 3. The counter of the ids -/

/-- **Each call of `mkenvid` has cost a directory**, in a state of a tame run. -/
def Charged (L : Layout) (base : Nat) (km : Mem) (s : Kernel) : Prop :=
  ∃ ρ fl, KernelInv L base km ρ fl s ∧ s.nextEnvId ≤ dirCount ρ

variable {L : Layout} {base : Nat} {km : Mem} {s s' : Kernel} {c e : Slot} {r : Regs}
  {es : List Event}

theorem Charged.ofBooted (h : Booted L base s) : Charged L base s.phys.mem s :=
  ⟨_, _, .ofBooted h, by rw [h.nextEnvId]; exact Nat.zero_le _⟩

/-- The step lemma. -/
theorem Charged.step {ev : Event} (h : Charged L base km s) (ht : s.Tame ev)
    (hs : s.step ev = .ok s') : Charged L base km s' := by
  obtain ⟨ρ, fl, hi, hle⟩ := h
  obtain ⟨ρ', fl', hi', hset, hkeep | ⟨hnext, p, hp, hp'⟩⟩ := hi.step_ages ht hs
  · exact ⟨ρ', fl', hi', by rw [hkeep]; exact hle.trans (dirCount_mono hset)⟩
  · refine ⟨ρ', fl', hi', ?_⟩
    have hlt := dirCount_lt hset (hi.forest.lt_npage (by simp [hp])) (by simp [hp]) hp'
    have hmod : s'.nextEnvId ≤ s.nextEnvId + 1 := hnext.le.trans (Nat.mod_le _ _)
    omega

/-- The run lemma. -/
theorem Charged.run (h : Charged L base km s) (hr : Run Kernel.step Tame s es s') :
    Charged L base km s' :=
  hr.invariant h fun _ _ _ ht hg hs => ht.step hg hs

/-- The counter and the free frames. -/
theorem Charged.add_le (h : Charged L base km s) {l : List Nat}
    (hl : IsList s.phys.pageFreeList () l) : s.nextEnvId + l.length ≤ npage - base := by
  obtain ⟨ρ, fl, hi, hle⟩ := h
  have hpool := hi.forest.dirCount_add_le hl
  omega

theorem Charged.exists_free (h : Charged L base km s) : ∃ l, IsList s.phys.pageFreeList () l := by
  obtain ⟨ρ, fl, hi, _⟩ := h
  obtain ⟨l, hl, _⟩ := hi.forest.pages
  exact ⟨l, hl⟩

/-- The counter stays far below its limits. -/
theorem Charged.nextEnvId_le (h : Charged L base km s) : s.nextEnvId ≤ 2 ^ 18 := by
  obtain ⟨l, hl⟩ := h.exists_free
  have hpool := h.add_le hl
  simp only [npage] at hpool
  omega

theorem Charged.ofRun {ram : Mem} {s₀ : Kernel} (hclean : CleanRam L ram)
    (hboot : boot L ram = .ok s₀) (hr : Run Kernel.step Tame s₀ es s) :
    ∃ base, Booted L base s₀ ∧ Charged L base s₀.phys.mem s := by
  obtain ⟨s₁, base, hb, hbooted, _⟩ := boot_ok hclean
  rw [hboot] at hb
  cases hb
  exact ⟨base, hbooted, (Charged.ofBooted hbooted).run hr⟩

/-- **Every environment costs a frame for ever.**  In every tame run from boot on clean memory the
calls of `mkenvid` so far and the frames that are free now are together no more than the frames that
were free after boot, and these are less than `2^18`. -/
theorem env_costs_frame {ram : Mem} {s₀ : Kernel} (hclean : CleanRam L ram)
    (hboot : boot L ram = .ok s₀) (hr : Run Kernel.step Tame s₀ es s) :
    ∃ l₀ l, IsList s₀.phys.pageFreeList () l₀ ∧ IsList s.phys.pageFreeList () l ∧
      l₀.length < 2 ^ 18 ∧ s.nextEnvId + l.length ≤ l₀.length := by
  obtain ⟨base, hbooted, hcharged⟩ := Charged.ofRun hclean hboot hr
  obtain ⟨l, hl⟩ := hcharged.exists_free
  have hle := hcharged.add_le hl
  have hbase := hbooted.map.le_base
  have hlen : (List.range' base (npage - base)).reverse.length = npage - base := by
    rw [List.length_reverse, List.length_range']
  refine ⟨_, l, hbooted.pages, hl, ?_, by rw [hlen]; exact hle⟩
  rw [hlen]
  simp only [npage]
  omega

/-- After the first environment has been created. -/
theorem env_costs_frame_first : ∃ s₀ s : Kernel, boot image coldRam = .ok s₀ ∧
    (∃ es, Run step Tame s₀ es s) ∧ s.curenv = some 0 ∧ ∃ l₀ l, IsList s₀.phys.pageFreeList () l₀ ∧
      IsList s.phys.pageFreeList () l ∧ l₀.length < 2 ^ 18 ∧ s.nextEnvId + l.length ≤ l₀.length := by
  obtain ⟨s₀, s, base, ρ, hb, _, hr, n, _, h⟩ := firstEnv_reached .zero
  exact ⟨s₀, s, hb, ⟨_, hr⟩, h.cur, env_costs_frame cleanRam_coldRam hb hr⟩

/-! ## 4. Ids -/

/-- What steps do to ids, along a tame run: the counter does not overflow. -/
theorem Charged.run_ids {I : Kernel → Prop} (h : Charged L base km s) (h0 : I s)
    (hr : Run Kernel.step Tame s es s') (hI : ∀ t u new, I t → IdStep t u new →
      (new ≠ none → t.nextEnvId + 1 < 2 ^ 53) → I u) : Charged L base km s' ∧ I s' := by
  refine hr.invariant (I := fun t => Charged L base km t ∧ I t) ⟨h, h0⟩ ?_
  rintro t ev u ⟨ht, hit⟩ hg hs
  obtain ⟨new, hid, _⟩ := step_ids hs
  refine ⟨ht.step hg hs, hI t u new hit hid fun _ => ?_⟩
  have hle := ht.nextEnvId_le
  omega

/-- The value of `fork` names the child while the counter fits into 20 bits. -/
theorem namesChild_of_lt (hcur : s.curenv = some c) (hlt : s.nextEnvId + 1 < 2 ^ 20)
    (hf : (s.trapped r).forkEnv c = .ok (.inr e, s')) {x0 : Nat}
    (hx : toInt x0 = toInt (s'.envs e).envId) : s'.NamesChild e (fork x0) := by
  have hct : (s.trapped r).curenv = some c := hcur
  obtain ⟨hid, hrun, hchild, hpar⟩ := forkEnv_child hct hf
  have hid : (s'.envs e).envId = envIdOf (s.nextEnvId + 1) e :=
    hid.trans (mkenvid_eq (s := s) e (by omega))
  have hword := (envIdOf_lt_iff (s.nextEnvId + 1) e).mpr hlt
  have hpid : fork x0 = (envIdOf (s.nextEnvId + 1) e : Nat) := by
    rw [fork_eq, hx, hid]
    exact toInt_of_lt hword
  have hpos : 0 < envIdOf (s.nextEnvId + 1) e := by
    unfold envIdOf log2nenv
    omega
  have hback : toULong (fork x0) = envIdOf (s.nextEnvId + 1) e := by
    rw [hpid, toULong]
    omega
  constructor
  case pos =>
    rw [hpid]
    omega
  case ne_child =>
    rw [hchild, hpid]
    change ((envIdOf (s.nextEnvId + 1) e : Nat) : Int) ≠ 0
    omega
  case ne_error =>
    rw [fork_eq, hx, hid]
    exact not_errorCode_toInt _ e
  case resolves =>
    intro b
    rw [hback]
    exact envid2env_related (by omega) (envx_envIdOf _ e) hid (by rw [hrun]; simp) hpar b

/-- **Ids never run out.**  In every state that a tame run reaches from boot on clean memory, no two
environments have one id, the id of an environment that is destroyed there names nobody in any later
state of a tame run, and a `fork` that makes a child returns a number that names it. -/
theorem ids_never_run_out {ram : Mem} (hclean : CleanRam L ram) (hs : s.TameReachable L ram) :
    (∀ e e', (s.envs e).envStatus ≠ .free → (s.envs e').envStatus ≠ .free →
      (s.envs e).envId = (s.envs e').envId → e = e') ∧
    (∀ r envid e s' es t, s.envid2env envid true = some e → s.Tame (.svc r (.envDestroy envid)) →
      s.step (.svc r (.envDestroy envid)) = .ok s' → Run step Tame s' es t →
      ∀ b, t.envid2env (s.envs e).envId b = none) ∧
    ∀ r c e s', s.curenv = some c → (s.trapped r).forkEnv c = .ok (.inr e, s') →
      ∃ v, s.svc r .envAlloc = .ok (.ret v, s') ∧
        ∀ x0, toInt x0 = v → s'.NamesChild e (fork x0) := by
  obtain ⟨s₀, es₀, hboot, hr⟩ := hs
  obtain ⟨s₁, base, hb, hbooted, _⟩ := boot_ok hclean
  rw [hboot] at hb
  cases hb
  obtain ⟨hcharged, hids⟩ := (Charged.ofBooted hbooted).run_ids
    (IdInv.ofBoot (boot_envBoot hboot)) hr fun _ _ _ h hst hb => h.step hst hb
  refine ⟨fun e e' => hids.unique, ?_, ?_⟩
  · intro r envid e s' es t hres htame hst hes b
    have hdead := hids.retired hres hst
    obtain ⟨_, hend⟩ := (hcharged.step htame hst).run_ids (I := fun t => t.Retired (s.envs e).envId)
      hdead hes fun _ _ _ h hst hb => h.step hst hb
    exact hend.resolve_none (hids.named e (named_of_resolve hres)) b
  · intro r c e s' hcur hf
    have hle := hcharged.nextEnvId_le
    exact ⟨_, svc_envAlloc hcur hf, fun x0 hx => namesChild_of_lt hcur (by omega) hf hx⟩

/-- The first child has slot 1. -/
theorem ids_never_run_out_first : ∃ (s s' : Kernel) (v : Int), s.TameReachable image coldRam ∧
    s.svc .noStack .envAlloc = .ok (.ret v, s') ∧ ∀ x0, toInt x0 = v → s'.NamesChild 1 (fork x0) := by
  obtain ⟨s₀, s, base, n, ρ, hs, _, h, hk⟩ := firstEnv_left (k := 1) (by decide)
  obtain ⟨p, q, _, t, rfl, hf⟩ := h.bareFork (by omega) s.nextEnvId
  have hfork : (s.trapped .noStack).forkEnv 0 = .ok (.inr 1, _) := hf
  obtain ⟨v, hv, hnames⟩ := (ids_never_run_out cleanRam_coldRam hs).2.2 .noStack 0 1 _ h.cur hfork
  exact ⟨s, _, v, hs, hv, hnames⟩

/-! ## 5. Tables stay tables -/

/-- **A table is a table for ever.**  Along a tame run, from any state that a tame run reaches from
boot on clean memory, a frame that is the directory of an environment or a table of its user half is
never on the free list again and never mapped by anybody; and it belongs to no other directory, also
when the environment has been destroyed. -/
theorem tables_stay {ram : Mem} {t : Kernel} {d f : Nat} (hclean : CleanRam L ram)
    (hs : s.TameReachable L ram) (hr : Run step Tame s es t) (he : s.dirs e = some d)
    (hf : DirOrTable s.phys.mem d f) :
    (∀ l, IsList t.phys.pageFreeList () l → f ∉ l) ∧ (∀ e' g a, ¬ t.memory.Maps e' g f a) ∧
      ∀ e' d', t.dirs e' = some d' → DirOrTable t.phys.mem d' f → d' = d := by
  obtain ⟨s₀, base, ρ, fl, _, _, hi⟩ := KernelInv.ofReachable hclean hs
  have hd := hi.dirs.role e d he
  have howns := hi.forest.owns_of_dirOrTable hd hf
  have hrun : ∃ ρ' fl', KernelInv L base s₀.phys.mem ρ' fl' t ∧ Settled ρ ρ' :=
    hr.invariant (I := fun u => ∃ ρ' fl', KernelInv L base s₀.phys.mem ρ' fl' u ∧ Settled ρ ρ')
      ⟨ρ, fl, hi, .refl ρ⟩ fun u ev v ⟨ρ₁, fl₁, hi₁, hset₁⟩ hg hs => by
        obtain ⟨ρ₂, fl₂, hi₂, hages⟩ := hi₁.step_ages hg hs
        exact ⟨ρ₂, fl₂, hi₂, hset₁.trans hages.settled⟩
  obtain ⟨ρ', fl', hi', hset⟩ := hrun
  have hd' := hset.dirsKept d hd
  have howns' := hset.owns hd howns
  have hplain := howns'.not_plain hd'
  refine ⟨fun l hl hmem => ?_, fun e' g a hm => ?_, fun e' d' he' hf' => ?_⟩
  · obtain ⟨l', hl', hfree⟩ := hi'.forest.pages
    rw [hl.unique hl'] at hmem
    exact hplain (Or.inl ((hfree f).mp hmem))
  · exact hplain (Or.inr (hi'.forest.toShape.page_of_maps hi'.dirs hm))
  · have hdir' := hi'.dirs.role e' d' he'
    exact (hi'.forest.owns_of_dirOrTable hdir' hf').unique howns' hdir' hd'

/-- The first environment destroys its child.  The directory of the child is nobody's any more, but it is
neither free nor mapped, and in no other address space. -/
theorem tables_stay_first : ∃ (s t : Kernel) (d : Nat), s.TameReachable image coldRam ∧
    s.dirs 1 = some d ∧ s.step (.svc .zero (.envDestroy 4097)) = .ok t ∧ t.dirs 1 = none ∧
    (∀ l, IsList t.phys.pageFreeList () l → d ∉ l) ∧ (∀ e g a, ¬ t.memory.Maps e g d a) ∧
    ∀ e d', t.dirs e = some d' → DirOrTable t.phys.mem d' d → d' = d := by
  obtain ⟨s₀, s, base, ρ, hb, hr, n, _, h⟩ := firstChild_reached
  have hlive : (s.envs 1).envStatus ≠ .free := by
    rw [h.status 1 (Or.inr rfl)]
    simp
  have hn := h.inv.not_mem_of_status hlive
  have hd : s.dirs 1 = some (s.envs 1).envPgdir := dirs_of_not_mem h.inv.list hn
  obtain ⟨htame, hst⟩ := h.destroy
  have hs : s.TameReachable image coldRam := ⟨s₀, _, hb, hr⟩
  have hfreed := (h.inv.withFrames (saveall syncStack .zero) s.timeFrame).freed hn
    (by rw [show s.curenv = _ from h.cur]; decide)
  have hgone := dirs_of_mem hfreed.list List.mem_cons_self
  exact ⟨s, _, _, hs, hd, hst, hgone,
    tables_stay cleanRam_coldRam hs (.single htame hst) hd (Or.inl rfl)⟩

end Kernel

end RaspiOS
