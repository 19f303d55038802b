/-
# What a failed call leaves behind

`sys_env_alloc` and `sys_mem_alloc` take what they need before they have checked that the rest of
their work can be done, and neither gives anything back when it cannot.

`sys_env_alloc` takes a slot first.  Then the only error it can return is that of its loop, and the
slot is gone with its directory and the pages copied so far; so a failed fork is without a trace exactly
when there was no slot to take (`failed_fork`).

`sys_mem_alloc` takes a frame before it looks up the environment, and `page_insert`, which may run out
of frames for tables, does not free the frame it was given.  Whatever the arguments, a call that fails
after it has taken the frame has lost it (`failed_mem_alloc`): what `page_insert` does before it fails
puts no other frame in the place of a link than a table (`pageInsert_failed`).
-/
import RaspiOS.ForkId
import RaspiOS.Panics
import RaspiOS.Status

set_option autoImplicit false

namespace RaspiOS

open LinkedList

/-! ## 1. The list of free environments, over every run -/

namespace Kernel

/-- **What is on `env_free_list` cannot be named**: it is free, and it does not run. -/
def FreeUnnamed (s : Kernel) : Prop :=
  ∃ fl, IsList s.envFreeList () fl ∧ ∀ e ∈ fl, ¬ s.Named e

namespace FreeUnnamed

variable {s s' : Kernel} {e : Slot}

/-- A step that names no more slots and leaves the list alone. -/
theorem keep (h : FreeUnnamed s) (hlist : s'.envFreeList = s.envFreeList)
    (hn : ∀ e, s'.Named e → s.Named e) : FreeUnnamed s' := by
  obtain ⟨fl, hl, hfl⟩ := h
  exact ⟨fl, hlist ▸ hl, fun e he hne => hfl e he (hn e hne)⟩

/-- `env_free` puts back a slot that could be named and now cannot. -/
theorem put (h : FreeUnnamed s) (hlist : s'.envFreeList = s.envFreeList.insertHead () e)
    (he : s.Named e) (hdead : ¬ s'.Named e) (hn : ∀ e, s'.Named e → s.Named e) :
    FreeUnnamed s' := by
  obtain ⟨fl, hl, hfl⟩ := h
  refine ⟨e :: fl, hlist ▸ hl.insertHead fun hm => hfl e hm he, fun e' he' hne => ?_⟩
  rcases List.mem_cons.mp he' with rfl | he'
  · exact hdead hne
  · exact hfl e' he' (hn e' hne)

/-- **Every step keeps the list unnamed**, also one that gives `ENV_FREE` by `sys_set_env_status`. -/
theorem step (h : FreeUnnamed s) {ev : Event} (hst : s.step ev = .ok s') : FreeUnnamed s' := by
  have hback : s'.nextEnvId = s.nextEnvId → ∀ e, s'.Named e → s.Named e :=
    fun hnext e he => named_back hst hnext he
  cases step_stat hst with
  | stay _ hsame => exact h.keep hsame.list (hback hsame.next)
  | @take _ _ e st hev hf hst' hstat hcur hnext hlist =>
    obtain ⟨fl, hl, hfl⟩ := h
    obtain ⟨fl, rfl⟩ := hl.eq_cons hf
    refine ⟨fl, hlist ▸ hl.remove_head, fun e' he' hne => ?_⟩
    obtain ⟨new, hid, _⟩ := step_ids hst
    rcases hid.named e' hne with hs | hnew
    · exact hfl e' (List.mem_cons_of_mem e he') hs
    · cases (hid.first e' hnew).symm.trans hf
      exact (List.nodup_cons.mp hl.nodup).1 he'
  | run _ _ _ ht hlist => exact h.keep hlist (hback ht.next)
  | @free _ _ _ e hres hc hstat hcur hnext hlist =>
    refine h.put hlist (named_of_resolve hres) ?_ (hback hnext)
    rintro (hlive | hrun)
    · have hfree := congrArg Prod.fst (congrFun hstat e)
      rw [Function.update_self] at hfree
      exact hlive hfree
    · exact hc (hcur.symm.trans hrun)
  | @freeSelf _ _ _ e n hres _ hne _ hstat ht hlist =>
    refine h.put hlist (named_of_resolve hres) ?_ (hback ht.next)
    rintro (hlive | hrun)
    · have hfree := congrArg Prod.fst (congrFun hstat e)
      rw [Function.update_self] at hfree
      exact hlive hfree
    · exact hne (Option.some.inj (ht.cur.symm.trans hrun))
  | set _ _ _ hsame => exact h.keep hsame.list (hback hsame.next)
  | recv _ _ _ _ _ ht hlist => exact h.keep hlist (hback ht.next)
  | send _ _ _ _ hsame => exact h.keep hsame.list (hback hsame.next)

/-- So it is in every state that a run reaches. -/
theorem ofReachable (hs : s.Reachable) : FreeUnnamed s := by
  obtain ⟨L, ram, s₀, es, hboot, hr⟩ := hs
  have h0 := boot_envBoot hboot
  refine hr.invariant (I := FreeUnnamed) ⟨_, h0.free, fun e _ => ?_⟩
    (fun _ _ _ h _ hst => h.step hst)
  rintro (hlive | hcur)
  · rw [h0.envs e] at hlive
    exact hlive rfl
  · rw [h0.curenv] at hcur
    cases hcur

end FreeUnnamed

/-! ## 2. A failed fork -/

/-- **No trace**: the table has the same statuses and ids, and the two lists have the same elements. -/
structure NoTrace (s s' : Kernel) : Prop where
  status : ∀ e, (s'.envs e).envStatus = (s.envs e).envStatus
  id : ∀ e, (s'.envs e).envId = (s.envs e).envId
  slots : ∀ e, OnChain s'.envFreeList (.head ()) e ↔ OnChain s.envFreeList (.head ()) e
  frames : ∀ f, OnChain s'.phys.pageFreeList (.head ()) f ↔ OnChain s.phys.pageFreeList (.head ()) f

/-- The error is one of two: there was no slot, or the loop ran out of frames. -/
theorem svc_envAlloc_error {s s' : Kernel} {r : Regs} {v : Int}
    (h : s.svc r .envAlloc = .ok (.ret v, s')) (hv : ErrorCode v) :
    (s' = s.trapped r ∧ s.envFreeList.first () = none) ∨ ∃ c e p phys,
      s.envFreeList.first () = some e ∧ s' = (s.trapped r).forked c e p phys .notRunnable := by
  unfold svc at h
  split at h
  · cases h
  change (s.trapped r).sysEnvAlloc = _ at h
  unfold sysEnvAlloc at h
  split at h
  · cases h
  rename_i c hc
  obtain ⟨⟨x, t⟩, hf, h⟩ := Except.bind_eq_ok_iff.mp h
  rcases forkEnv_ok hf with ⟨rfl, rfl, hnone⟩ | ⟨e, p, q, w, phys, he, _, _, rfl, rfl⟩
  · cases h
    exact Or.inl ⟨rfl, hnone⟩
  · by_cases hw : w < 0
    · simp only [if_pos hw] at h
      cases h
      exact Or.inr ⟨c, e, p, phys, he, rfl⟩
    · -- an id is no error code
      have hid := (forkEnv_child hc (hf.trans (by rw [if_neg hw]))).1
      simp only [if_neg hw] at h
      obtain rfl := Exit.ret.inj (Prod.mk.inj (Except.ok.inj h)).1
      rw [if_neg hw] at hid
      rw [hid, mkenvid_eq_mod] at hv
      exact absurd hv (not_errorCode_toInt _ e)

/-- **A failed fork leaves no trace exactly when there was no slot to take.** -/
theorem failed_fork {s s' : Kernel} {r : Regs} {v : Int} (hs : s.Reachable)
    (h : s.svc r .envAlloc = .ok (.ret v, s')) (hv : ErrorCode v) :
    s.NoTrace s' ↔ s.envFreeList.first () = none := by
  rcases svc_envAlloc_error h hv with ⟨rfl, hnone⟩ | ⟨c, e, p, phys, he, rfl⟩
  · exact ⟨fun _ => hnone,
      fun _ => ⟨fun _ => rfl, fun _ => rfl, fun _ => Iff.rfl, fun _ => Iff.rfl⟩⟩
  · refine ⟨fun hno => ?_, fun hnone => by cases he.symm.trans hnone⟩
    -- the slot was free, and it has been left half made
    obtain ⟨fl, hl, hfl⟩ := FreeUnnamed.ofReachable hs
    obtain ⟨fl, rfl⟩ := hl.eq_cons he
    have hfree : (s.envs e).envStatus = .free :=
      not_not.mp fun hlive => hfl e List.mem_cons_self (Or.inl hlive)
    have hst := hno.status e
    rw [envStatus_forked, hfree] at hst
    cases hst

/-- With one frame left, the directory takes it and there is none for the stack. -/
theorem starvedFork : ∃ s s' : Kernel, s.Reachable ∧
    s.svc .zero .envAlloc = .ok (.ret (-eNoMem), s') ∧
    ∃ e, s.envFreeList.first () = some e ∧ (s.envs e).envStatus = .free ∧
      (s'.envs e).envStatus = .notRunnable := by
  obtain ⟨s₀, s, base, n, ρ, hs, _, h, hk⟩ := firstEnv_left (k := 1) (by decide)
  have he : s.envFreeList.first () = some 1 := by
    rw [h.inv.list.first_eq, List.finRange_succ]
    rfl
  obtain ⟨f, hf⟩ : ∃ f, (freshPages base).drop n = [f] := by
    rw [← List.length_eq_one_iff, List.length_drop, length_freshPages]
    omega
  obtain ⟨q, hq, hlq⟩ := Phys.pageAlloc_cons (hf ▸ h.pages)
  have hloop : forkStack (s.envs 0).envPgdir f
      ((ustacktop - rounddown (s.trapped .zero).kernelFrame.sp by2pg) / by2pg)
      (rounddown (s.trapped .zero).kernelFrame.sp by2pg) ((q.incRef f).copyPage s.pgDir f)
      = .ok (-eNoMem, (q.incRef f).copyPage s.pgDir f) := by
    have hpages : (ustacktop - rounddown (s.trapped .zero).kernelFrame.sp by2pg) / by2pg
        = 917501 + 1 := by
      have hsp : (s.trapped .zero).kernelFrame.sp = 0 := rfl
      rw [hsp]
      decide
    have hnone : ((q.incRef f).copyPage s.pgDir f).pageAlloc = none :=
      Phys.pageAlloc_eq_none.mpr hlq.first_eq
    rw [hpages, forkStack, hnone]
  obtain ⟨s', hfork⟩ := (forkEnv_loop (s := s.trapped .zero) (c := 0) he hq).2 _ _ hloop
  have hsvc : s.svc .zero .envAlloc = .ok (.ret (-eNoMem), s') := by
    unfold svc
    rw [if_neg (by rw [h.cur]; simp)]
    change (s.trapped .zero).sysEnvAlloc = _
    unfold sysEnvAlloc
    rw [show (s.trapped .zero).curenv = some 0 from h.cur]
    simp only [hfork, bind, Except.bind]
    rfl
  refine ⟨s, s', hs.reachable, hsvc, 1, he, by rw [h.other 1 (by decide)]; rfl, ?_⟩
  rcases svc_envAlloc_error hsvc (by unfold ErrorCode; decide) with
    ⟨_, hnone⟩ | ⟨c, e, p, phys, he', rfl⟩
  · cases he.symm.trans hnone
  · cases he.symm.trans he'
    exact envStatus_forked ..

/-- Its failure has a trace. -/
theorem failed_fork_starved : ∃ s s' : Kernel, s.svc .zero .envAlloc = .ok (.ret (-eNoMem), s') ∧
    ¬ s.NoTrace s' := by
  obtain ⟨s, s', hs, h, e, he, _⟩ := starvedFork
  refine ⟨s, s', h, fun hno => ?_⟩
  cases he.symm.trans ((failed_fork hs h (by unfold ErrorCode; decide)).mp hno)

/-- **Not every failed fork is without a trace**: the slot that the starved one took is no longer
free. -/
theorem fork_leaves_trace : ¬ ∀ (s s' : Kernel) (r : Regs) (v : Int), s.Reachable →
    s.svc r .envAlloc = .ok (.ret v, s') → ErrorCode v → s.NoTrace s' := by
  intro hall
  obtain ⟨s, s', hs, h, e, _, hfree, hst⟩ := starvedFork
  have hsame := (hall s s' _ _ hs h (by unfold ErrorCode; decide)).status e
  rw [hst, hfree] at hsame
  cases hsame

end Kernel

/-! ## 3. A failed `page_insert` -/

/-- Frame `f` is linked as a table under directory `d`. -/
def LinkedTable (m : Mem) (d f : Nat) : Prop :=
  ∃ i, IsTable (m d i) ∧
    (ppn (m d i) = f ∨ ∃ j, IsTable (m (ppn (m d i)) j) ∧ ppn (m (ppn (m d i)) j) = f)

namespace LinkedTable

variable {m m' : Mem} {d f t : Nat}

theorem not_zero : ¬ IsTable 0 := fun h => not_valid_zero h.valid

/-- Clearing words links nothing. -/
theorem of_wipe (hw : ∀ g k, m' g k = 0 ∨ m' g k = m g k) (h : LinkedTable m' d f) :
    LinkedTable m d f := by
  have hold : ∀ {g k}, IsTable (m' g k) → m' g k = m g k := by
    intro g k hk
    rcases hw g k with h0 | h0
    · exact absurd (h0 ▸ hk) not_zero
    · exact h0
  obtain ⟨i, hi, hf⟩ := h
  have hdi := hold hi
  rw [hdi] at hi hf
  refine ⟨i, hi, hf.imp_right ?_⟩
  rintro ⟨j, hj, rfl⟩
  have htj := hold hj
  rw [htj] at hj
  exact ⟨j, hj, by rw [htj]⟩

/-- Linking an empty table links no other frame. -/
theorem of_link {i₀ : Fin 512} (hempty : ∀ k, m t k = 0) (hne : t ≠ f)
    (hm : ∀ g k, m' g k = if g = d ∧ k = i₀ then tableDesc t else m g k)
    (h : LinkedTable m' d f) : LinkedTable m d f := by
  -- a word that is not the new link was there before
  have hold : ∀ {g k}, ppn (m' g k) ≠ t → m' g k = m g k := by
    intro g k hp
    rw [hm] at hp ⊢
    split at hp
    · exact absurd (ppn_tableDesc t) hp
    · rename_i hgk
      rw [if_neg hgk]
  obtain ⟨i, hi, hf⟩ := h
  rcases eq_or_ne (ppn (m' d i)) t with hit | hit
  · exfalso
    rcases hf with rfl | ⟨j, hj, hjf⟩
    · exact hne hit.symm
    · -- the only entry of the new table can be the link itself
      rw [hold (by rw [hjf]; exact hne.symm), hit, hempty] at hj
      exact not_zero hj
  · have hdi := hold hit
    rw [hdi] at hi hf
    refine ⟨i, hi, hf.imp_right ?_⟩
    rintro ⟨j, hj, rfl⟩
    have htj := hold hne.symm
    rw [htj] at hj
    exact ⟨j, hj, by rw [htj]⟩

end LinkedTable

namespace Phys

variable {p p' : Phys} {d f va perm : Nat} {v : Int}

/-- A walk with creation that fails has changed nothing, or has linked one table. -/
theorem pgdirWalk_failed (h : (p.pgdirWalk d va true).1.1 ≠ 0) :
    (p.pgdirWalk d va true).2 = p ∨ ∃ t q, p.pageAlloc = some (t, q) ∧
      (p.pgdirWalk d va true).2 = (q.store ⟨d, pudx va⟩ (tableDesc t)).incRef t := by
  rcases descend_cases p ⟨d, pudx va⟩ with ⟨-, h1⟩ | ⟨-, -, h1⟩ | ⟨t, q, -, hq, h1⟩
  · left
    rcases descend_cases p ⟨ppn (p.load ⟨d, pudx va⟩), pmdx va⟩ with ⟨-, h2⟩ | ⟨-, -, h2⟩ |
      ⟨u, q, -, -, h2⟩
    · exact absurd (by simp only [pgdirWalk, h1, h2]) h
    · simp only [pgdirWalk, h1, h2]
    · exact absurd (by simp only [pgdirWalk, h1, h2]) h
  · left
    simp only [pgdirWalk, h1]
  · refine Or.inr ⟨t, q, hq, ?_⟩
    rcases descend_cases ((q.store ⟨d, pudx va⟩ (tableDesc t)).incRef t) ⟨t, pmdx va⟩ with
      ⟨-, h2⟩ | ⟨-, -, h2⟩ | ⟨u, q', -, -, h2⟩
    · exact absurd (by simp only [pgdirWalk, h1, h2]) h
    · simp only [pgdirWalk, h1, h2]
    · exact absurd (by simp only [pgdirWalk, h1, h2]) h

/-- **A `page_insert` that fails** has removed the old mapping, which was of another page, or nothing,
and then walked in vain. -/
theorem pageInsert_failed (h : p.pageInsert d f va perm = .ok (v, p')) (hv : v ≠ 0) :
    ∃ q, (q = p ∨ p.pageRemove d va = .ok q ∧ p.found d va ≠ f) ∧
      (q.pgdirWalk d va true).1.1 ≠ 0 ∧ p' = (q.pgdirWalk d va true).2 := by
  have henter : ∀ q : Phys, q.pageEnter d f va perm = (v, p') →
      (q.pgdirWalk d va true).1.1 ≠ 0 ∧ p' = (q.pgdirWalk d va true).2 := by
    intro q hq
    unfold pageEnter at hq
    split at hq
    rename_i status entry u hw
    split at hq
    · rename_i hs
      cases hq
      rw [hw]
      exact ⟨hs, rfl⟩
    · cases hq
      exact absurd rfl hv
  unfold pageInsert at h
  dsimp only at h
  split at h
  · obtain ⟨old, ho, h⟩ := Except.bind_eq_ok_iff.mp h
    split at h
    · rename_i hne
      obtain ⟨q, hq, h⟩ := Except.bind_eq_ok_iff.mp h
      refine ⟨q, Or.inr ⟨hq, ?_⟩, henter q (Except.ok.inj h)⟩
      unfold pa2page at ho
      split at ho
      · cases ho
      · cases ho
        exact hne
    · cases h
      exact absurd rfl hv
  · exact ⟨p, Or.inl rfl, henter p (Except.ok.inj h)⟩

/-- **`page_remove` gives back the page it finds, or none**, and clears one word. -/
theorem pageRemove_ok (h : p.pageRemove d va = .ok p') :
    p' = p ∨ ∃ a, p' = Phys.store (if (p.decRef (p.found d va)).ppRef (p.found d va) = 0
      then (p.decRef (p.found d va)).pageFree (p.found d va) else p.decRef (p.found d va)) a 0 := by
  unfold pageRemove at h
  obtain ⟨o, ho, h⟩ := Except.bind_eq_ok_iff.mp h
  split at h
  · cases h
    exact Or.inl rfl
  · rename_i g a
    cases h
    have hg : g = p.found d va := by
      unfold pageLookup at ho
      dsimp only at ho
      split at ho
      · cases ho
      · split at ho
        · cases ho
        · obtain ⟨pp, hpp, ho⟩ := Except.bind_eq_ok_iff.mp ho
          cases ho
          unfold pa2page at hpp
          split at hpp
          · cases hpp
          · cases hpp
            rfl
    rw [← hg]
    exact Or.inr ⟨a, rfl⟩

/-- **Frame `f` is lost** to directory `d`: it is neither on the free list nor linked as a table. -/
structure Lost (p : Phys) (d f : Nat) : Prop where
  list : ∃ l, IsList p.pageFreeList () l ∧ f ∉ l
  unlinked : ¬ LinkedTable p.mem d f

namespace Lost

/-- The removal of another page does not bring it back. -/
theorem pageRemove (h : p.Lost d f) (hz : ∀ g, OnChain p.pageFreeList (.head ()) g → p.ppRef g = 0)
    (hr : p.pageRemove d va = .ok p') (hne : p.found d va ≠ f) : p'.Lost d f := by
  rcases pageRemove_ok hr with rfl | ⟨a, rfl⟩
  · exact h
  obtain ⟨l, hl, hfl⟩ := h.list
  generalize p.found d va = g at hne
  refine ⟨?_, fun hlink => h.unlinked (hlink.of_wipe fun x k => ?_)⟩
  · split
    · -- a page that is given back had a reference, so it was not on the list
      rename_i h0
      have hgl : g ∉ l := by
        intro hmem
        rw [ppRef_decRef, if_pos rfl, hz g ((hl.onChain_iff g).mpr hmem)] at h0
        exact absurd h0 (by decide)
      refine ⟨g :: l, ?_, List.not_mem_cons_of_ne_of_not_mem hne.symm hfl⟩
      rw [pageFreeList_store, pageFree, if_neg (by rw [h0]; exact Nat.lt_irrefl 0)]
      exact hl.insertHead hgl
    · exact ⟨l, hl, hfl⟩
  · rw [mem_store]
    split
    · exact Or.inl rfl
    · right
      split
      · rw [mem_pageFree]
        rfl
      · rfl

/-- Neither does a walk that fails. -/
theorem pgdirWalk (h : p.Lost d f) (hw : (p.pgdirWalk d va true).1.1 ≠ 0) :
    (p.pgdirWalk d va true).2.Lost d f := by
  rcases pgdirWalk_failed hw with he | ⟨t, q, hq, he⟩
  · rw [he]
    exact h
  · rw [he]
    obtain ⟨l, hl, hfl⟩ := h.list
    obtain ⟨l, rfl, hlq⟩ := pageAlloc_list hq hl
    rw [List.mem_cons, not_or] at hfl
    obtain ⟨hne, hfl⟩ := hfl
    obtain ⟨_, rfl⟩ := pageAlloc_eq_some hq
    refine ⟨⟨l, hlq, hfl⟩, fun hlink => h.unlinked ?_⟩
    have hlink' := hlink.of_link (m := (p.bzeroPage t).mem) (fun k => if_pos rfl)
      (Ne.symm hne) fun g k => rfl
    exact hlink'.of_wipe fun g k => by
      change (if g = t then 0 else p.mem g k) = 0 ∨ (if g = t then 0 else p.mem g k) = p.mem g k
      split
      · exact Or.inl rfl
      · exact Or.inr rfl

/-- **A `page_insert` that fails does not bring it back**, whatever address it was given. -/
theorem pageInsert (h : p.Lost d f) (hz : ∀ g, OnChain p.pageFreeList (.head ()) g → p.ppRef g = 0)
    (hi : p.pageInsert d f va perm = .ok (v, p')) (hv : v ≠ 0) : p'.Lost d f := by
  obtain ⟨q, rfl | ⟨hr, hne⟩, hw, rfl⟩ := pageInsert_failed hi hv
  · exact h.pgdirWalk hw
  · exact (h.pageRemove hz hr hne).pgdirWalk hw

end Lost

end Phys

/-! ## 4. A failed `sys_mem_alloc` -/

namespace KernelInv

variable {L : Layout} {base : Nat} {km : Mem} {ρ : Nat → Role} {m : Mem} {d f : Nat}

/-- On a forest a linked table is a table by its role, or belongs to the kernel. -/
theorem role_of_linked (h : Shape L base km ρ m) (hd : ρ d = .dir) (hf : LinkedTable m d f) :
    ρ f = .kernel ∨ (∃ i, ρ f = .pmd d i) ∨ ∃ t j, ρ f = .pte t j := by
  obtain ⟨i, hi, hf⟩ := hf
  by_cases hu : 2 ≤ i.val
  · have ht := (h.dirUser d hd i hu hi.valid).2
    rcases hf with rfl | ⟨j, hj, rfl⟩
    · exact Or.inr (Or.inl ⟨i, ht⟩)
    · exact Or.inr (Or.inr ⟨_, j, (h.pmdUser _ d i ht j hj.valid).2⟩)
  · left
    have hb := h.map.le_base
    obtain ⟨t, hdir, -, ht⟩ := h.map.dir_low hu
    rw [h.dirLow d hd i (not_le.mp hu), hdir, ppn_tableDesc] at hf
    rw [h.kernel]
    rcases hf with rfl | ⟨j, hj, rfl⟩
    · exact Or.inl (by omega)
    · rw [h.kernelMem t (by omega) (by omega)] at hj ⊢
      exact Or.inl (h.map.pmd_closed ht j hj).2.1

/-- A frame that has just been taken is lost until it is mapped. -/
theorem lost_of_take {p q : Phys} (h : Forest L base km ρ p) (hq : p.pageAlloc = some (f, q))
    (hd : ρ d = .dir) :
    q.Lost d f ∧ ∀ g, OnChain q.pageFreeList (.head ()) g → q.ppRef g = 0 := by
  obtain ⟨h1, hk, hfree, _⟩ := take_spec h hq
  obtain ⟨l, hl, hlf⟩ := h1.pages
  refine ⟨⟨⟨l, hl, fun hf => ?_⟩, fun hlink => ?_⟩, fun g hg => ?_⟩
  · have hdata := (hlf f).mp hf
    rw [Function.update_self] at hdata
    cases hdata
  · rcases role_of_linked h1.toShape (hk d hd) hlink with hr | ⟨i, hr⟩ | ⟨t, j, hr⟩ <;>
      rw [Function.update_self] at hr <;> cases hr
  · exact h1.ppRef_free ((hlf g).mp ((hl.onChain_iff g).mp hg))

end KernelInv

namespace Kernel

/-- **No frame leaks**: what was free is free, or is a table under the target's directory. -/
def NoLeak (s s' : Kernel) (envid : Nat) : Prop :=
  ∀ f, OnChain s.phys.pageFreeList (.head ()) f → OnChain s'.phys.pageFreeList (.head ()) f ∨
    ∃ e, s.envid2env envid true = some e ∧ LinkedTable s'.phys.mem (s.envs e).envPgdir f

/-- The four ends of a call that fails: two before a frame is taken and two after. -/
theorem svc_memAlloc_error {s s' : Kernel} {r : Regs} {envid va perm : Nat} {v : Int}
    (h : s.svc r (.memAlloc envid va perm) = .ok (.ret v, s')) (hv : v < 0) :
    ((perm &&& pteV = 0 ∨ s.phys.pageFreeList.first () = none) ∧ s' = s.trapped r) ∨
    ∃ f q, perm &&& pteV ≠ 0 ∧ s.phys.pageAlloc = some (f, q) ∧
      ((s.envid2env envid true = none ∧ s' = { s.trapped r with phys := q }) ∨
        ∃ e w p', s.envid2env envid true = some e ∧ w ≠ 0 ∧
          q.pageInsert (s.envs e).envPgdir f va perm = .ok (w, p') ∧
          s' = { s.trapped r with phys := p' }) := by
  unfold svc at h
  split at h
  · cases h
  change (s.trapped r).sysMemAlloc envid va perm = _ at h
  unfold sysMemAlloc at h
  split at h
  · rename_i hperm
    cases h
    exact Or.inl ⟨Or.inl hperm, rfl⟩
  rename_i hperm
  split at h
  · rename_i hnone
    cases h
    exact Or.inl ⟨Or.inr (Phys.pageAlloc_eq_none.mp hnone), rfl⟩
  · rename_i f q hq
    refine Or.inr ⟨f, q, hperm, hq, ?_⟩
    have hid : ({ s.trapped r with phys := q } : Kernel).envid2env envid true
        = s.envid2env envid true := rfl
    dsimp only at h
    rw [hid] at h
    split at h
    · rename_i he
      cases h
      exact Or.inl ⟨he, rfl⟩
    · rename_i e he
      obtain ⟨⟨w, p'⟩, hi, h⟩ := Except.bind_eq_ok_iff.mp h
      dsimp only at h
      split at h
      · rename_i hw
        cases h
        exact Or.inr ⟨e, w, p', he, hw.ne, hi, rfl⟩
      · cases h
        exact absurd hv (lt_irrefl 0)

/-- **A failed `sys_mem_alloc` leaks a frame exactly when it has taken one**: when the permission has
the valid bit and a frame was free.  No leak otherwise, in any state; the leak whatever the
environment and the address, in the states that tame steps reach. -/
theorem failed_mem_alloc {s s' : Kernel} {r : Regs} {envid va perm : Nat} {v : Int}
    (h : s.svc r (.memAlloc envid va perm) = .ok (.ret v, s')) (hv : v < 0) :
    (perm &&& pteV = 0 ∨ s.phys.pageFreeList.first () = none → s.NoLeak s' envid) ∧
    ∀ L ram, CleanRam L ram → s.TameReachable L ram → s.NoLeak s' envid →
      perm &&& pteV = 0 ∨ s.phys.pageFreeList.first () = none := by
  rcases svc_memAlloc_error h hv with ⟨hcond, rfl⟩ | ⟨f, q, hperm, hq, hcase⟩
  · exact ⟨fun _ f hf => Or.inl hf, fun _ _ _ _ _ => hcond⟩
  have hfirst := (Phys.pageAlloc_eq_some hq).1
  refine ⟨fun hcond => ?_, fun L ram hclean hreach hno => ?_⟩
  · rcases hcond with h0 | hnone
    · exact absurd h0 hperm
    · cases hfirst.symm.trans hnone
  · exfalso
    obtain ⟨s₀, base, ρ, fl, _, _, hinv⟩ := KernelInv.ofReachable hclean hreach
    have hleak := hno f (OnChain.here hfirst)
    rcases hcase with ⟨hnone, rfl⟩ | ⟨e, w, p', he, hw, hi, rfl⟩
    · rcases hleak with hf | ⟨e, he, _⟩
      · obtain ⟨l, hl, _⟩ := hinv.forest.pages
        obtain ⟨l, rfl, hlq⟩ := Phys.pageAlloc_list hq hl
        exact (List.nodup_cons.mp hl.nodup).1 ((hlq.onChain_iff f).mp hf)
      · cases hnone.symm.trans he
    · obtain ⟨hlost, hz⟩ := KernelInv.lost_of_take hinv.forest hq
        (hinv.dir e (hinv.not_mem_of_resolve he))
      have hend := hlost.pageInsert hz hi hw
      rcases hleak with hf | ⟨e', he', hf⟩
      · obtain ⟨l, hl, hnot⟩ := hend.list
        exact hnot ((hl.onChain_iff f).mp hf)
      · cases he.symm.trans he'
        exact hend.unlinked hf

/-- A call for an environment that does not exist, with a frame to take. -/
theorem lostFrame : ∃ s s' : Kernel, s.TameReachable image coldRam ∧
    s.svc .zero (.memAlloc 1 0 1) = .ok (.ret (-eBadEnv), s') ∧
    s.envid2env 1 true = none ∧
    ∃ f, OnChain s.phys.pageFreeList (.head ()) f ∧ ¬ OnChain s'.phys.pageFreeList (.head ()) f := by
  obtain ⟨s₀, s, base, n, ρ, hs, _, h, hk⟩ := firstEnv_left (k := 1) (by decide)
  obtain ⟨f, q, hl, hq, hlq⟩ := h.nextFrame (by omega)
  have hres := h.no_second
  have hsvc : s.svc .zero (.memAlloc 1 0 1)
      = .ok (.ret (-eBadEnv), { s.trapped .zero with phys := q }) := by
    unfold svc
    rw [if_neg (by rw [h.cur]; simp)]
    change (s.trapped .zero).sysMemAlloc 1 0 1 = _
    unfold sysMemAlloc
    rw [if_neg (by decide), show (s.trapped .zero).phys.pageAlloc = _ from hq]
    dsimp only
    rw [show ({ s.trapped .zero with phys := q } : Kernel).envid2env 1 true = none from hres]
  refine ⟨s, _, hs, hsvc, hres, f, OnChain.here hl.first_eq, fun hf => ?_⟩
  exact (List.nodup_cons.mp hl.nodup).1 ((hlq.onChain_iff f).mp hf)

/-- Its frame leaks. -/
theorem failed_mem_alloc_first : ∃ s s' : Kernel,
    s.svc .zero (.memAlloc 1 0 1) = .ok (.ret (-eBadEnv), s') ∧ ¬ s.NoLeak s' 1 := by
  obtain ⟨s, s', hs, h, _, f, hf, _⟩ := lostFrame
  refine ⟨s, s', h, fun hno => ?_⟩
  rcases (failed_mem_alloc h (by decide)).2 _ _ cleanRam_coldRam hs hno with h0 | hnone
  · exact absurd h0 (by decide)
  · cases hf with
    | here hfirst => cases hfirst.symm.trans hnone
    | there hfirst _ => cases hfirst.symm.trans hnone

/-- **Not every failed `sys_mem_alloc` is without a leak.** -/
theorem mem_alloc_leaks : ¬ ∀ (s s' : Kernel) (r : Regs) (envid va perm : Nat) (v : Int),
    s.Reachable → s.svc r (.memAlloc envid va perm) = .ok (.ret v, s') → v < 0 →
    s.NoLeak s' envid := by
  intro hall
  obtain ⟨s, s', hs, h, hres, f, hf, hnot⟩ := lostFrame
  rcases hall s s' _ _ _ _ _ hs.reachable h (by decide) f hf with hf' | ⟨e, he, _⟩
  · exact hnot hf'
  · cases hres.symm.trans he

end Kernel

end RaspiOS
