/-
# What `env_free` gives back

`env_free` walks the three levels of a directory from `PUDX(0xc0000000)` on.  Two slips decide what
it does.  The test before `page_remove` of a user page is the wrong way round, so `page_remove` is
called where nothing is mapped and never where something is.  And a table is handed to `page_remove`
by its physical address, as if that were a virtual address of the environment: what `page_remove`
drops is whatever frame the directory maps there.

So a round of `env_free` drops at most one reference for each table, and no reference for anything
else (`drops_envFree`).  A directory with `n` tables accounts for `n + 1` frames with one reference
each: at least one of them is never given back, whatever the environment was (`teardown_never`).
-/
import Mathlib.SetTheory.Cardinal.Finite
import RaspiOS.Ident
import RaspiOS.Progress

set_option autoImplicit false

namespace RaspiOS

open LinkedList

/-! ## 1. What the loops can change -/

/-- Memory that only lost words. -/
def Zeroed (m m' : Mem) : Prop := ∀ f i, m' f i = m f i ∨ m' f i = 0

/-- A valid word is one that was there before. -/
theorem Zeroed.eq_of_valid {m m' : Mem} (h : Zeroed m m') {f : Nat} {i : Fin 512}
    (hv : Valid (m' f i)) : m' f i = m f i := by
  rcases h f i with h1 | h1
  · exact h1
  · rw [h1] at hv
    exact absurd hv not_valid_zero

/-- Words may have been lost, and the counters of at most `n` frames have changed. -/
structure Drops (n : Nat) (p p' : Phys) : Prop where
  mem : Zeroed p.mem p'.mem
  ppRef : ∃ fs : List Nat, fs.length ≤ n ∧ ∀ f, f ∉ fs → p'.ppRef f = p.ppRef f

namespace Drops

variable {n k : Nat} {p p' p'' : Phys}

theorem refl (p : Phys) : Drops 0 p p :=
  ⟨fun _ _ => Or.inl rfl, [], Nat.le_refl _, fun _ _ => rfl⟩

theorem mono (h : Drops n p p') (hle : n ≤ k) : Drops k p p' := by
  obtain ⟨fs, hfs, h1⟩ := h.ppRef
  exact ⟨h.mem, fs, hfs.trans hle, h1⟩

theorem trans (h : Drops n p p') (h' : Drops k p' p'') : Drops (n + k) p p'' := by
  obtain ⟨fs, hfs, h1⟩ := h.ppRef
  obtain ⟨gs, hgs, h2⟩ := h'.ppRef
  refine ⟨fun f i => ?_, fs ++ gs, ?_, fun f hf => ?_⟩
  · rcases h'.mem f i with h3 | h3
    · rw [h3]
      exact h.mem f i
    · exact Or.inr h3
  · rw [List.length_append]
    omega
  · rw [List.mem_append, not_or] at hf
    rw [h2 f hf.2, h1 f hf.1]

/-- `page_remove` drops one frame at most. -/
theorem pageRemove {d va : Nat} (h : p.pageRemove d va = .ok p') : Drops 1 p p' := by
  unfold Phys.pageRemove at h
  obtain ⟨o, _, h1⟩ := Except.bind_eq_ok_iff.mp h
  rcases o with _ | ⟨f, a⟩
  · cases h1
    exact (refl p).mono (Nat.zero_le _)
  · cases h1
    refine ⟨fun g i => ?_, [f], Nat.le_refl _, fun g hg => ?_⟩
    · rw [Phys.mem_store]
      split
      · exact Or.inr rfl
      · left
        split
        · rw [Phys.mem_pageFree, Phys.mem_decRef]
        · rw [Phys.mem_decRef]
    · rw [List.mem_singleton] at hg
      rw [Phys.ppRef_store]
      split
      · rw [Phys.ppRef_pageFree, Phys.ppRef_decRef, if_neg hg]
      · rw [Phys.ppRef_decRef, if_neg hg]

end Drops

/-- The third-level tables a second-level table names. -/
def ptesOf (m : Mem) (t : Nat) : List Nat :=
  ((List.finRange 512).filter fun j => Valid (m t j)).map fun j => ppn (m t j)

/-- The tables below the part of a directory that `env_free` walks. -/
def tablesOf (m : Mem) (d : Nat) : List Nat :=
  ((List.finRange 512).drop (pudx 0xc0000000)).flatMap fun i =>
    if Valid (m d i) then ppn (m d i) :: ptesOf m (ppn (m d i)) else []

namespace Kernel

variable {p p' : Phys} {d : Nat}

/-- The innermost loop does nothing: it asks for pages that are not mapped. -/
theorem envFreePtes_eq {i j : Fin 512} {t u : Nat}
    (ht : Valid (p.mem d i) → ppn (p.mem d i) = t) (hu : Valid (p.mem t j) → ppn (p.mem t j) = u) :
    envFreePtes d i j u p = .ok p := by
  refine Except.foldlM_id fun k _ => ?_
  by_cases hv : Valid (p.mem u k)
  · rw [if_neg (not_not.mpr hv)]
  · rw [if_pos hv]
    refine Forest.remove_unmapped ?_
    have hpage := pageOf_join i j k
    simp only [pageOf, Prod.mk.injEq] at hpage
    obtain ⟨h1, h2, h3⟩ := hpage
    unfold Phys.pageLookup
    rw [Phys.walk_eq, h1, h2, h3]
    by_cases hvi : Valid (p.mem d i)
    · rw [if_pos hvi, ht hvi]
      by_cases hvj : Valid (p.mem t j)
      · rw [if_pos hvj, hu hvj]
        by_cases hnull : (⟨u, k⟩ : Ptr) = .null
        · simp only [hnull, if_true]
        · have hload : ¬ Valid (p.load ⟨u, k⟩) := hv
          simp only [hnull, if_false, hload, not_false_eq_true, if_true]
      · rw [if_neg hvj]
        rfl
    · rw [if_neg hvi]
      rfl

/-- The middle loop drops one frame for each third-level table at most. -/
theorem drops_envFreePmds {p₀ : Phys} {i : Fin 512} {n : Nat}
    (h0 : Drops n p₀ p) (h : envFreePmds d i (ppn (p₀.mem d i)) p = .ok p') :
    Drops (n + (ptesOf p₀.mem (ppn (p₀.mem d i))).length) p₀ p' := by
  have hlen : (ptesOf p₀.mem (ppn (p₀.mem d i))).length = ((List.finRange 512).map fun j =>
      if Valid (p₀.mem (ppn (p₀.mem d i)) j) then 1 else 0).sum := by
    rw [ptesOf, List.length_map]
    induction List.finRange 512 with
    | nil => rfl
    | cons j l ih =>
      rw [List.filter_cons, List.map_cons, List.sum_cons, ← ih]
      by_cases hj : Valid (p₀.mem (ppn (p₀.mem d i)) j)
      · simp [hj, Nat.add_comm]
      · simp [hj]
  rw [hlen]
  unfold envFreePmds at h
  refine Except.foldlM_cost (I := fun n q => Drops n p₀ q) h h0 ?_
  intro j _ k q q' hq hround
  by_cases hj : Valid (q.mem (ppn (p₀.mem d i)) j)
  · rw [if_neg (not_not.mpr hj)] at hround
    obtain ⟨u, hu, hrem⟩ := Except.bind_eq_ok_iff.mp hround
    rw [envFreePtes_eq (fun hvi => by rw [hq.mem.eq_of_valid hvi]) (fun _ => rfl)] at hu
    cases hu
    rw [if_pos (hq.mem.eq_of_valid hj ▸ hj)]
    exact hq.trans (Drops.pageRemove hrem)
  · rw [if_pos hj] at hround
    cases hround
    exact hq.mono (Nat.le_add_right _ _)

/-- **`env_free` drops at most one frame for each of its tables.** -/
theorem drops_envFree (h : envFreePuds d p = .ok p') :
    Drops (tablesOf p.mem d).length p p' := by
  have hlen : (tablesOf p.mem d).length = (((List.finRange 512).drop (pudx 0xc0000000)).map
      fun i => if Valid (p.mem d i) then (ptesOf p.mem (ppn (p.mem d i))).length + 1 else 0).sum := by
    rw [tablesOf, List.length_flatMap]
    refine congrArg List.sum (List.map_congr_left fun i _ => ?_)
    by_cases hi : Valid (p.mem d i)
    · simp [hi]
    · simp [hi]
  rw [hlen, ← Nat.zero_add (List.sum _)]
  unfold envFreePuds at h
  refine Except.foldlM_cost (I := fun n q => Drops n p q) h (Drops.refl p) ?_
  intro i _ n q q' hq hround
  by_cases hi : Valid (q.mem d i)
  · rw [if_neg (not_not.mpr hi)] at hround
    have hsame := hq.mem.eq_of_valid hi
    have hi' : Valid (p.mem d i) := hsame ▸ hi
    obtain ⟨u, hu, hrem⟩ := Except.bind_eq_ok_iff.mp hround
    rw [hsame] at hu hrem
    rw [if_pos hi', ← Nat.add_assoc]
    exact (drops_envFreePmds hq hu).trans (Drops.pageRemove hrem)
  · rw [if_pos hi] at hround
    cases hround
    exact hq.mono (Nat.le_add_right _ _)

end Kernel

/-! ## 2. The frames of a directory -/

namespace Forest

variable {L : Layout} {base : Nat} {km : Mem} {ρ : Nat → Role} {p : Phys} {d : Nat}

/-- The first index of a directory that `env_free` visits. -/
theorem three_le {i : Fin 512} (hi : i ∈ (List.finRange 512).drop (pudx 0xc0000000)) :
    3 ≤ i.val := by
  have h3 : (pudx 0xc0000000).val = 3 := by decide
  have h := mem_drop_finRange hi
  omega

/-- The tables below one entry of a directory, by their roles. -/
theorem role_of_mem_entry (h : Forest L base km ρ p) (hd : ρ d = .dir) {i : Fin 512}
    (hi : 3 ≤ i.val) {f : Nat}
    (hf : f ∈ if Valid (p.mem d i) then ppn (p.mem d i) :: ptesOf p.mem (ppn (p.mem d i)) else []) :
    ρ f = .pmd d i ∨ ∃ t j, ρ f = .pte t j ∧ ρ t = .pmd d i := by
  split at hf
  · rename_i hv
    have ht := (h.dirUser d hd i (by omega) hv).2
    rcases List.mem_cons.mp hf with rfl | hf
    · exact Or.inl ht
    · obtain ⟨j, hj, rfl⟩ := List.mem_map.mp hf
      have hvj := of_decide_eq_true (List.mem_filter.mp hj).2
      exact Or.inr ⟨_, j, (h.pmdUser _ d i ht j hvj).2, ht⟩
  · exact absurd hf List.not_mem_nil

/-- The tables of a directory are its own. -/
theorem owns_of_mem_tablesOf (h : Forest L base km ρ p) (hd : ρ d = .dir) {f : Nat}
    (hf : f ∈ tablesOf p.mem d) : Owns ρ d f := by
  obtain ⟨i, hi, hf⟩ := List.mem_flatMap.mp hf
  rcases h.role_of_mem_entry hd (three_le hi) hf with h1 | ⟨t, j, h1, h2⟩
  · exact Or.inr (Or.inl ⟨i, h1⟩)
  · exact Or.inr (Or.inr ⟨t, j, i, h1, h2⟩)

/-- The tables of a directory are tables. -/
theorem role_of_mem_tablesOf (h : Forest L base km ρ p) (hd : ρ d = .dir) {f : Nat}
    (hf : f ∈ tablesOf p.mem d) : (∃ i, ρ f = .pmd d i) ∨ ∃ t j, ρ f = .pte t j := by
  obtain ⟨i, hi, hf⟩ := List.mem_flatMap.mp hf
  rcases h.role_of_mem_entry hd (three_le hi) hf with h1 | ⟨t, j, h1, _⟩
  · exact Or.inl ⟨i, h1⟩
  · exact Or.inr ⟨t, j, h1⟩

/-- **A directory and its tables are different frames.** -/
theorem nodup_tablesOf (h : Forest L base km ρ p) (hd : ρ d = .dir) :
    (d :: tablesOf p.mem d).Nodup := by
  refine List.nodup_cons.mpr ⟨fun hm => ?_, ?_⟩
  · rcases h.role_of_mem_tablesOf hd hm with ⟨i, hi⟩ | ⟨t, j, hj⟩
    · rw [hd] at hi
      cases hi
    · rw [hd] at hj
      cases hj
  · rw [tablesOf, List.nodup_flatMap]
    constructor
    · -- below one entry: the second-level table and the tables it names
      intro i hi
      have h3 := three_le hi
      split
      · rename_i hv
        have ht := (h.dirUser d hd i (by omega) hv).2
        refine List.nodup_cons.mpr ⟨fun hm => ?_, ?_⟩
        · obtain ⟨j, hj, he⟩ := List.mem_map.mp hm
          have hvj := of_decide_eq_true (List.mem_filter.mp hj).2
          have hu := (h.pmdUser _ d i ht j hvj).2
          rw [he, ht] at hu
          cases hu
        · refine List.Nodup.map_on ?_ ((List.nodup_finRange 512).filter _)
          intro j hj k hk he
          have hvj := of_decide_eq_true (List.mem_filter.mp hj).2
          have hvk := of_decide_eq_true (List.mem_filter.mp hk).2
          have hu := (h.pmdUser _ d i ht j hvj).2
          rw [he, (h.pmdUser _ d i ht k hvk).2] at hu
          cases hu
          rfl
      · exact List.nodup_nil
    · -- below two entries: the roles tell them apart
      refine ((List.nodup_finRange 512).sublist (List.drop_sublist _ _)).imp_of_mem ?_
      intro i i' hi hi' hne f hf hf'
      refine hne ?_
      rcases h.role_of_mem_entry hd (three_le hi) hf with h1 | ⟨t, j, h1, h2⟩ <;>
        rcases h.role_of_mem_entry hd (three_le hi') hf' with h1' | ⟨t', j', h1', h2'⟩ <;>
        rw [h1] at h1' <;> cases h1'
      · rfl
      · rw [h2] at h2'
        cases h2'
        rfl

/-- Each of them counts one reference. -/
theorem ppRef_of_mem (h : Forest L base km ρ p) (hd : ρ d = .dir) {f : Nat}
    (hf : f ∈ d :: tablesOf p.mem d) : p.ppRef f = 1 := by
  have hrole : ρ f = .dir ∨ (∃ i, ρ f = .pmd d i) ∨ ∃ t j, ρ f = .pte t j := by
    rcases List.mem_cons.mp hf with rfl | hf
    · exact Or.inl hd
    · exact Or.inr (h.role_of_mem_tablesOf hd hf)
  have hone : ¬ (ρ f).IsPage ∧ ρ f ≠ .kernel ∧ (ρ f).held = 1 := by
    rcases hrole with h1 | ⟨i, h1⟩ | ⟨t, j, h1⟩ <;> rw [h1] <;> simp [Role.IsPage, Role.held]
  rw [h.count f (h.lt_npage hone.2.1), h.leafCount_eq_zero hone.1, hone.2.2]

end Forest

namespace Kernel

/-! ## 3. Teardown -/

/-- A second- or third-level table below the part of the directory `env_free` walks. -/
def TableOf (m : Mem) (d f : Nat) : Prop :=
  ∃ i : Fin 512, 3 ≤ i.val ∧ Valid (m d i) ∧
    (f = ppn (m d i) ∨ ∃ j, Valid (m (ppn (m d i)) j) ∧ f = ppn (m (ppn (m d i)) j))

/-- A page of the directory's address space lies in the frame. -/
def MapsFrame (m : Mem) (d : Nat) (g : Page) (f : Nat) : Prop :=
  ∃ w, space m d g = some w ∧ ppn w = f

/-- **The only references to the frame are those of `e`**: it is the directory of `e`, one of its
private tables, or a page that `e` maps and no other environment does.  The identity map below the user
half is nobody's mapping: every directory shares it. -/
def PrivateTo (s : Kernel) (e : Slot) (f : Nat) : Prop :=
  f = (s.envs e).envPgdir ∨ TableOf s.phys.mem (s.envs e).envPgdir f ∨
    ((∃ g : Page, 3 ≤ g.1.val ∧ MapsFrame s.phys.mem (s.envs e).envPgdir g f) ∧
      ∀ e', e' ≠ e → (s.envs e').envStatus ≠ .free →
        ∀ g : Page, 2 ≤ g.1.val → ¬ MapsFrame s.phys.mem (s.envs e').envPgdir g f)

/-- The mappings of a frame in the user halves of all environments. -/
def Mappings (s : Kernel) (f : Nat) : Type :=
  { x : Slot × Page // (s.envs x.1).envStatus ≠ .free ∧ 2 ≤ x.2.1.val ∧
    MapsFrame s.phys.mem (s.envs x.1).envPgdir x.2 f }

/-- **What was private to `e` in `s` has been returned in `s'`**: it is on the free list, once, with no
reference. -/
def PrivateReturned (s s' : Kernel) (e : Slot) : Prop :=
  ∀ f, s.PrivateTo e f → s'.phys.ppRef f = 0 ∧ ∃ l, IsList s'.phys.pageFreeList () l ∧ f ∈ l

/-- **`env_free(e)`, from `s` to `s'`, gives everything back**: a frame only `e` referred to is
returned, and a frame that another environment still maps counts its mappings. -/
def TeardownComplete (s s' : Kernel) (e : Slot) : Prop :=
  s.PrivateReturned s' e ∧
  ∀ f e' (g : Page), e' ≠ e → (s.envs e').envStatus ≠ .free → 2 ≤ g.1.val →
    MapsFrame s'.phys.mem (s'.envs e').envPgdir g f →
    s'.phys.ppRef f = Nat.card (s'.Mappings f)

theorem privateTo_of_mem {s : Kernel} {e : Slot} {f : Nat}
    (hf : f ∈ (s.envs e).envPgdir :: tablesOf s.phys.mem (s.envs e).envPgdir) :
    s.PrivateTo e f := by
  rcases List.mem_cons.mp hf with rfl | hf
  · exact Or.inl rfl
  · refine Or.inr (Or.inl ?_)
    obtain ⟨i, hi, hf⟩ := List.mem_flatMap.mp hf
    split at hf
    · rename_i hv
      refine ⟨i, Forest.three_le hi, hv, ?_⟩
      rcases List.mem_cons.mp hf with rfl | hf
      · exact Or.inl rfl
      · obtain ⟨j, hj, rfl⟩ := List.mem_map.mp hf
        exact Or.inr ⟨j, of_decide_eq_true (List.mem_filter.mp hj).2, rfl⟩
    · exact absurd hf List.not_mem_nil

end Kernel

/-- More frames are private to an environment than `page_remove` can drop. -/
theorem KernelInv.not_privateReturned {L : Layout} {base : Nat} {km : Mem} {ρ : Nat → Role}
    {fl : List Slot} {s s' : Kernel} {e : Slot} (hi : KernelInv L base km ρ fl s)
    (hlive : (s.envs e).envStatus ≠ .free) (hfree : s.envFree e = .ok s') :
    ¬ s.PrivateReturned s' e := by
  have hd := hi.dir e (hi.not_mem_of_status hlive)
  obtain ⟨phys, hphys, rfl⟩ := Kernel.envFree_ok hfree
  obtain ⟨fs, hfs, hsame⟩ := (Kernel.drops_envFree hphys).ppRef
  have hcard : fs.toFinset.card
      < ((s.envs e).envPgdir :: tablesOf s.phys.mem (s.envs e).envPgdir).toFinset.card := by
    rw [List.toFinset_card_of_nodup (hi.forest.nodup_tablesOf hd), List.length_cons]
    have := fs.toFinset_card_le
    omega
  -- so one of them keeps its reference
  obtain ⟨f, hf, hout⟩ := Finset.exists_mem_notMem_of_card_lt_card hcard
  rw [List.mem_toFinset] at hf hout
  intro hreturned
  have hzero : phys.ppRef f = 0 := (hreturned f (Kernel.privateTo_of_mem hf)).1
  have hone : phys.ppRef f = 1 := by rw [hsame f hout, hi.forest.ppRef_of_mem hd hf]
  omega

namespace Kernel

/-- **`env_free` never gives everything back**, whatever environment it is called for in whatever
state a tame run reaches: a frame that was private to it is not returned. -/
theorem teardown_never {L : Layout} {ram : Mem} {s s' : Kernel} {e : Slot}
    (hclean : CleanRam L ram) (hs : s.TameReachable L ram) (hlive : (s.envs e).envStatus ≠ .free)
    (hfree : s.envFree e = .ok s') : ¬ s.PrivateReturned s' e ∧ ¬ s.TeardownComplete s' e := by
  obtain ⟨_, _, _, _, _, _, hi⟩ := KernelInv.ofReachable hclean hs
  have hnot := hi.not_privateReturned hlive hfree
  exact ⟨hnot, fun hcomplete => hnot hcomplete.1⟩

/-- A directory without entries in the user half has no tables. -/
theorem tablesOf_eq_nil {m : Mem} {d : Nat} (h : ∀ i : Fin 512, 2 ≤ i.val → ¬ Valid (m d i)) :
    tablesOf m d = [] := by
  refine List.flatMap_eq_nil_iff.mpr fun i hi => ?_
  have h3 := Forest.three_le hi
  rw [if_neg (h i (by omega))]

/-- The child without a stack can be destroyed. -/
theorem bareChild_reached : ∃ s s' : Kernel, s.TameReachable image coldRam ∧
    (s.envs 1).envStatus ≠ .free ∧ tablesOf s.phys.mem (s.envs 1).envPgdir = [] ∧
    EnvFreeSafe s.phys (s.envs 1).envPgdir ∧ s.envFree 1 = .ok s' := by
  obtain ⟨s₀, s, base, ρ, hb, hr, n, _, h⟩ := firstChild_reached
  have hlive : (s.envs 1).envStatus ≠ .free := by
    rw [h.status 1 (Or.inr rfl)]
    simp
  have hsafe : EnvFreeSafe s.phys (s.envs 1).envPgdir :=
    fun i hi hv => absurd hv (h.bare i (by omega))
  have hd := h.inv.dir 1 (h.inv.not_mem_of_status hlive)
  exact ⟨s, _, ⟨s₀, _, hb, hr⟩, hlive, tablesOf_eq_nil h.bare, hsafe,
    envFree_eq (h.inv.forest.envFreePuds_id hd hsafe)⟩

/-- Destroying it does not give its directory back. -/
theorem teardown_never_child : ∃ s s' : Kernel, s.TameReachable image coldRam ∧
    s.envFree 1 = .ok s' ∧ ¬ s.PrivateReturned s' 1 ∧ ¬ s.TeardownComplete s' 1 := by
  obtain ⟨s, s', hs, hlive, _, _, hfree⟩ := bareChild_reached
  exact ⟨s, s', hs, hfree, teardown_never cleanRam_coldRam hs hlive hfree⟩

/-- **`env_free` does not give everything back**: the first environment calls `sys_env_alloc` with
an empty stack, and the child, which owns nothing but its directory, is destroyed.  The directory is not
returned. -/
theorem teardown_fails : ¬ ∀ (s s' : Kernel) (e : Slot), s.Reachable →
    (s.envs e).envStatus ≠ .free → s.envFree e = .ok s' → s.PrivateReturned s' e := by
  intro hall
  obtain ⟨s, s', hs, hlive, _, _, hfree⟩ := bareChild_reached
  obtain ⟨_, _, _, _, _, _, hi⟩ := KernelInv.ofReachable cleanRam_coldRam hs
  exact hi.not_privateReturned hlive hfree (hall s s' 1 hs.reachable hlive hfree)

end Kernel

end RaspiOS
