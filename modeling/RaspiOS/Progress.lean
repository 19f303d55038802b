/-
# Steps that succeed

The inversion lemmas of `EnvSpec.lean` say what a step that returned has done; these say that it
returns.  `env_create_priority` does whenever a slot and two frames are left, `sched_yield` does
whenever some slot is `RUNNABLE`.  With boot they give the runs on which the development shows
that its hypotheses can be met and that some properties fail: `FirstEnv` and `SecondEnv` are the
states after one and two calls of `env_create_priority` from `main` and the first timer interrupt,
`FirstChild` is the state after a `sys_env_alloc` of the first environment.
-/
import RaspiOS.Discipline

set_option autoImplicit false

namespace RaspiOS

open LinkedList

namespace Kernel

/-! ## 1. The scheduler -/

/-- If the slot after the cursor can run, it runs. -/
theorem schedYield_next {s : Kernel}
    (h : (s.envs (posSlot ((s.pos + 1) % nenv))).envStatus = .runnable) :
    s.schedYield = .ok ({ s with pos := (s.pos + 1) % nenv }.envRun
      (posSlot ((s.pos + 1) % nenv))) := by
  have hn : nenv = 1023 + 1 := by decide
  unfold schedYield
  rw [hn, schedLoop]
  rw [← hn, if_pos h]

/-- The loop finds a slot that can run if one lies within reach. -/
theorem schedLoop_total {n k : Nat} {s : Kernel} (hk : k < n)
    (hr : (s.envs (posSlot ((s.pos + 1 + k) % nenv))).envStatus = .runnable) :
    ∃ s', schedLoop n s = .ok s' := by
  induction n generalizing k s with
  | zero => exact absurd hk (Nat.not_lt_zero _)
  | succ n ih =>
    unfold schedLoop
    dsimp only
    split
    · exact ⟨_, rfl⟩
    · rename_i hnot
      rcases k with _ | k
      · rw [Int.natCast_zero, Int.add_zero] at hr
        exact absurd hr hnot
      · refine ih (k := k) (Nat.lt_of_succ_lt_succ hk) ?_
        have hpos : (((s.pos + 1) % (nenv : Int)) + 1 + (k : Int)) % nenv
            = (s.pos + 1 + ((k + 1 : Nat) : Int)) % nenv := by
          rw [Int.add_assoc, Int.emod_add_emod]
          congr 1
          omega
        dsimp only
        rw [hpos]
        exact hr

/-- **`sched_yield` returns** whenever some slot can run. -/
theorem schedYield_total {s : Kernel} {e : Slot} (hr : (s.envs e).envStatus = .runnable) :
    ∃ s', s.schedYield = .ok s' := by
  have hn : (nenv : Int) = 1024 := by decide
  have he := e.isLt
  let k : Nat := (((e.val : Int) - s.pos - 1) % 1024).toNat
  have hk : (k : Int) = ((e.val : Int) - s.pos - 1) % 1024 :=
    Int.toNat_of_nonneg (Int.emod_nonneg _ (by decide))
  refine schedLoop_total (k := k) ?_ ?_
  · omega
  · have hpos : (s.pos + 1 + (k : Int)) % nenv = e.val := by
      rw [hn]
      omega
    have hslot : posSlot ((s.pos + 1 + (k : Int)) % nenv) = e := by
      rw [hpos]
      ext
      simp only [posSlot, Fin.ofNat, Int.toNat_natCast]
      exact Nat.mod_eq_of_lt he
    rw [hslot]
    exact hr

/-- If exactly one slot can run, it runs. -/
theorem schedYield_only {s : Kernel} {e : Slot} (hr : (s.envs e).envStatus = .runnable)
    (honly : ∀ e', e' ≠ e → (s.envs e').envStatus ≠ .runnable) :
    ∃ pos, s.schedYield = .ok ({ s with pos := pos }.envRun e) := by
  obtain ⟨s', hs'⟩ := schedYield_total hr
  obtain ⟨pos, n, hn, rfl⟩ := schedYield_ok hs'
  have hne : n = e := by
    by_contra hc
    exact honly n hc hn
  rw [hne] at hs'
  exact ⟨pos, hs'⟩

/-! ## 2. `env_create_priority` -/

/-- `env_alloc` returns a slot whenever there is one and a frame for its directory. -/
theorem envAlloc_some {s : Kernel} {e : Slot} {p : Nat} {q : Phys} {parentId : Nat}
    (hf : s.envFreeList.first () = some e) (hp : s.phys.pageAlloc = some (p, q)) :
    s.envAlloc parentId = .ok (some e,
      { s with phys := (q.incRef p).copyPage s.pgDir p }.allocated e p parentId) := by
  unfold envAlloc
  rw [hf]
  dsimp only
  rw [envSetupVm, hp]
  refine congrArg Except.ok (congrArg (Prod.mk (some e)) ?_)
  simp only [allocated, modifyEnv, mkenvid, nextCounter, freshEnv]
  congr 1
  funext e'
  by_cases he : e' = e <;> simp [he]

/-- `env_create_priority` when nothing runs out. -/
theorem envCreatePriority_eq {s : Kernel} {e : Slot} {p f : Nat} {q u phys : Phys} {r : Int}
    (binary priority : Nat) (hf : s.envFreeList.first () = some e)
    (hp : s.phys.pageAlloc = some (p, q))
    (hg : ((q.incRef p).copyPage s.pgDir p).pageAlloc = some (f, u))
    (hi : (u.incRef f).pageInsert p f (ustacktop - by2pg) pteV = .ok (r, phys)) :
    s.envCreatePriority binary priority =
      .ok ((({ s with phys := phys }.allocated e p 0).modifyEnv e fun v =>
        { v with envPri := priority,
                 envTf := { v.envTf with pc := binary, sp := ustacktop } }).schedInsertHead e) := by
  have hpgdir : ∀ k : Kernel, ((k.allocated e p 0).envs e).envPgdir = p := by
    intro k
    simp [allocated, freshEnv]
  have hphys : ({ s with phys := (q.incRef p).copyPage s.pgDir p }.allocated e p 0).phys
    = (q.incRef p).copyPage s.pgDir p := rfl
  unfold envCreatePriority
  rw [envAlloc_some hf hp]
  simp only [bind, Except.bind, hphys, hg, hpgdir, hi]
  rfl

/-! ## 3. System calls that cannot fail -/

/-- `sys_set_env_status` always returns, and when it finds its target it has given the status. -/
theorem step_setEnvStatus {s : Kernel} {c e : Slot} {envid w : Nat} {st : EnvStatus} (r : Regs)
    (hc : s.curenv = some c) (hst : EnvStatus.ofWord w = some st)
    (hres : s.envid2env envid false = some e) :
    s.step (.svc r (.setEnvStatus envid w)) =
      .ok (({ s with kernelFrame := saveall syncStack r }.relink e st).modifyEnv e
        fun v => { v with envStatus := st }) := by
  have hne : s.curenv ≠ none := by rw [hc]; simp
  have hres' : ({ s with kernelFrame := saveall syncStack r } : Kernel).envid2env envid false
      = some e := hres
  simp only [step, svc, if_neg hne, syscall, sysSetEnvStatus, hst, hres']
  rfl

/-- Environment zero is the caller. -/
theorem envid2env_zero (s : Kernel) (b : Bool) : s.envid2env 0 b = s.curenv := by
  unfold envid2env
  rw [if_pos rfl]

/-- The caller can always set its own fault handler. -/
theorem step_setPgfaultHandler {s : Kernel} {c : Slot} (r : Regs) (func xstacktop : Nat)
    (hc : s.curenv = some c) :
    ∃ s', s.step (.svc r (.setPgfaultHandler 0 func xstacktop)) = .ok s' := by
  simp only [step, svc, syscall, sysSetPgfaultHandler, envid2env_zero, hc]
  exact ⟨_, rfl⟩

/-- `sys_mem_map` of the caller into itself. -/
theorem step_memMap_self {s : Kernel} {c : Slot} {f : Nat} {a : Ptr} {v : Int} {q : Phys}
    (r : Regs) (srcva dstva perm : Nat) (hc : s.curenv = some c) (hperm : perm &&& pteV ≠ 0)
    (hl : s.phys.pageLookup (s.envs c).envPgdir (rounddown srcva by2pg) = .ok (some (f, a)))
    (hi : s.phys.pageInsert (s.envs c).envPgdir f (rounddown dstva by2pg) perm = .ok (v, q)) :
    s.step (.svc r (.memMap 0 srcva 0 dstva perm)) =
      .ok { s with kernelFrame := saveall syncStack r, phys := q } := by
  simp only [step, svc, syscall, sysMemMap, envid2env_zero, hc, if_neg hperm, hl, hi, bind,
    Except.bind]
  rfl

/-- `sys_mem_alloc` of the caller for itself. -/
theorem step_memAlloc_self {s : Kernel} {c : Slot} {f : Nat} {v : Int} {p q : Phys} (r : Regs)
    (va perm : Nat) (hc : s.curenv = some c) (hperm : perm &&& pteV ≠ 0)
    (hp : s.phys.pageAlloc = some (f, p)) (hi : p.pageInsert (s.envs c).envPgdir f va perm = .ok (v, q)) :
    s.step (.svc r (.memAlloc 0 va perm)) =
      .ok { s with kernelFrame := saveall syncStack r, phys := q } := by
  simp only [step, svc, syscall, sysMemAlloc, envid2env_zero, hc, if_neg hperm, hp, hi, bind,
    Except.bind]
  rfl

/-- `sys_mem_unmap` of the caller. -/
theorem step_memUnmap_self {s : Kernel} {c : Slot} {va : Nat} {q : Phys} (r : Regs)
    (hc : s.curenv = some c) (hq : s.phys.pageRemove (s.envs c).envPgdir va = .ok q) :
    s.step (.svc r (.memUnmap 0 va)) =
      .ok { s with kernelFrame := saveall syncStack r, phys := q } := by
  simp only [step, svc, syscall, sysMemUnmap, envid2env_zero, hc, hq, bind, Except.bind]
  rfl

/-- `sys_mem_alloc` for an environment that does not exist takes a frame all the same. -/
theorem svc_memAlloc_bad {s : Kernel} {c : Slot} {envid f : Nat} {q : Phys} (r : Regs)
    (va perm : Nat) (hc : s.curenv = some c) (hperm : perm &&& pteV ≠ 0)
    (hq : s.phys.pageAlloc = some (f, q)) (hres : s.envid2env envid true = none) :
    s.svc r (.memAlloc envid va perm) =
      .ok (.ret (-eBadEnv), { s with kernelFrame := saveall syncStack r, phys := q }) := by
  have hres' : ({ s with kernelFrame := saveall syncStack r, phys := q } : Kernel).envid2env
      envid true = none := hres
  have hne : s.curenv ≠ none := by rw [hc]; simp
  simp only [svc, if_neg hne, syscall, sysMemAlloc, if_neg hperm, hq, hres']

theorem step_memAlloc_bad {s : Kernel} {c : Slot} {envid f : Nat} {q : Phys} (r : Regs)
    (va perm : Nat) (hc : s.curenv = some c) (hperm : perm &&& pteV ≠ 0)
    (hq : s.phys.pageAlloc = some (f, q)) (hres : s.envid2env envid true = none) :
    s.step (.svc r (.memAlloc envid va perm)) =
      .ok { s with kernelFrame := saveall syncStack r, phys := q } := by
  rw [step, svc_memAlloc_bad r va perm hc hperm hq hres]
  rfl

/-- `sys_env_alloc` when nothing it looks at runs out. -/
theorem forkEnv_eq {s : Kernel} {c e : Slot} {p : Nat} {q phys : Phys} {v : Int}
    (hf : s.envFreeList.first () = some e) (hq : s.phys.pageAlloc = some (p, q))
    (hstack : forkStack (s.envs c).envPgdir p
      ((ustacktop - rounddown s.kernelFrame.sp by2pg) / by2pg)
      (rounddown s.kernelFrame.sp by2pg) ((q.incRef p).copyPage s.pgDir p) = .ok (v, phys))
    (hv : ¬ v < 0) :
    s.forkEnv c = .ok (.inr e, s.forked c e p phys .runnable) := by
  have hpgdir : ∀ k : Kernel, ((k.allocated e p (s.envs c).envId).envs e).envPgdir = p := by
    intro k
    simp [allocated, freshEnv]
  have hframe : ∀ k : Kernel, (k.allocated e p (s.envs c).envId).kernelFrame = k.kernelFrame :=
    fun _ => rfl
  have hphys : ∀ (k : Kernel) (f : Env → Env), ((k.allocated e p (s.envs c).envId).modifyEnv e
    f).phys = k.phys := fun _ _ => rfl
  unfold forkEnv
  rw [envAlloc_some hf hq]
  simp only [bind, Except.bind, envs_modifyEnv_self, hpgdir, envPri_allocated, hframe, hphys,
    hstack, if_neg hv]
  have hcomp := modifyEnv_modifyEnv ({ s with phys := phys }.allocated e p (s.envs c).envId) e
    (fun w => { w with
      envStatus := .notRunnable
      envTf := { s.kernelFrame with x := fun i => if i = 0 then 0 else s.kernelFrame.x i }
      envPri := (s.envs c).envPri })
    (fun w => { w with envStatus := .runnable })
  exact congrArg Except.ok (congrArg (Prod.mk (Sum.inr e)) hcomp)

/-- The call returns the id of the child. -/
theorem sysEnvAlloc_eq {s s' : Kernel} {c e : Slot} (hc : s.curenv = some c)
    (hf : s.forkEnv c = .ok (.inr e, s')) :
    s.sysEnvAlloc = .ok (.ret (toInt (s'.envs e).envId), s') := by
  simp only [sysEnvAlloc, hc, hf, bind, Except.bind]
  rfl

theorem step_envAlloc {s s' : Kernel} {c e : Slot} {r : Regs} (hc : s.curenv = some c)
    (hf : ({ s with kernelFrame := saveall syncStack r } : Kernel).forkEnv c = .ok (.inr e, s')) :
    s.step (.svc r .envAlloc) = .ok s' := by
  have hne : s.curenv ≠ none := by rw [hc]; simp
  have hsys := sysEnvAlloc_eq (s := { s with kernelFrame := saveall syncStack r }) hc hf
  simp only [step, svc, if_neg hne, syscall, hsys]
  rfl

/-- `env_free` returns when its loops do. -/
theorem envFree_eq {s : Kernel} {e : Slot} {q : Phys}
    (h : envFreePuds (s.envs e).envPgdir s.phys = .ok q) :
    s.envFree e = .ok ({ s with phys := q }.freed e) := by
  unfold envFree
  rw [h]
  rfl

/-- Every environment can be named by its id. -/
theorem envid2env_live {s : Kernel} {e : Slot} {envid : Nat} (h0 : envid ≠ 0)
    (hx : envx envid = e) (hid : (s.envs e).envId = envid)
    (hst : (s.envs e).envStatus ≠ .free) : s.envid2env envid false = some e := by
  unfold envid2env
  rw [if_neg h0]
  dsimp only
  rw [hx, if_neg (by rintro (h | h); exacts [hst h, h hid]), if_neg (by simp)]

end Kernel

/-! ## 4. One environment more -/

/-- The head of a list that is not empty is handed out. -/
theorem Phys.pageAlloc_cons {p : Phys} {f : Nat} {l : List Nat}
    (hl : IsList p.pageFreeList () (f :: l)) :
    ∃ q, p.pageAlloc = some (f, q) ∧ IsList q.pageFreeList () l := by
  refine ⟨{ p.bzeroPage f with pageFreeList := p.pageFreeList.remove f }, ?_, hl.remove_head⟩
  unfold Phys.pageAlloc
  rw [hl.first_eq]
  rfl

/-- The same, of a frame that has been handed out. -/
theorem Phys.pageAlloc_list {p q : Phys} {f : Nat} {l : List Nat}
    (hq : p.pageAlloc = some (f, q)) (hl : IsList p.pageFreeList () l) :
    ∃ l', l = f :: l' ∧ IsList q.pageFreeList () l' := by
  obtain ⟨hfirst, rfl⟩ := Phys.pageAlloc_eq_some hq
  obtain ⟨l', rfl⟩ := hl.eq_cons hfirst
  exact ⟨l', rfl, hl.remove_head⟩

/-- What `env_create_priority` does to the environment table. -/
structure Created (s s' : Kernel) (e : Slot) : Prop where
  other : ∀ e', e' ≠ e → s'.envs e' = s.envs e'
  status : (s'.envs e).envStatus = .runnable
  id : (s'.envs e).envId = s.mkenvid e
  parent : (s'.envs e).envParentId = 0
  curenv : s'.curenv = s.curenv
  nextEnvId : s'.nextEnvId = s.nextCounter
  pos : s'.pos = s.pos
  curSched : s'.curSched = s.curSched
  envSched : s'.envSched = s.envSched.insertHead s.curSched e
  schedLog : s'.schedLog = .insertHead s.curSched e s.envSched :: s.schedLog

/-- `page_insert` counts the page that it enters. -/
theorem Forest.pageInsert_ref {L : Layout} {base : Nat} {km : Mem} {ρ : Nat → Role} {p p' : Phys}
    {d f va perm : Nat} (h : Forest L base km ρ p) (hd : ρ d = .dir) (hva : UserVa va)
    (hnone : space p.mem d (pageOf va) = none) (hf : ρ f ≠ .free)
    (hi : p.pageInsert d f va perm = .ok (0, p')) : p'.ppRef f = (p.ppRef f + 1) % 2 ^ 16 := by
  rw [h.pageInsert_enter hd hva hnone] at hi
  rcases h.pgdirWalk hd hva with ⟨u, n, ρ₁, q, hw, _, hg, _⟩ | ⟨n, ρ₁, q, hw, _⟩
  · simp only [Phys.pageEnter, hw] at hi
    cases hi
    rw [Phys.ppRef_incRef, if_pos rfl, Phys.ppRef_store, hg.ppRef f hf]
  · simp only [Phys.pageEnter, hw] at hi
    cases hi

namespace KernelInv

variable {L : Layout} {base : Nat} {km : Mem} {ρ : Nat → Role} {fl : List Slot} {s : Kernel}
  {e : Slot}

/-- **`env_create_priority` returns** whenever a slot and four frames are left, and the first stack
page is all the new environment maps. -/
theorem create (h : KernelInv L base km ρ (e :: fl) s) {l : List Nat}
    (hl : IsList s.phys.pageFreeList () l) (hlen : 4 ≤ l.length) (binary priority : Nat) :
    ∃ s' ρ' n f, s.step (.create binary priority) = .ok s' ∧ KernelInv L base km ρ' fl s' ∧
      Created s s' e ∧ n ≤ 4 ∧ IsList s'.phys.pageFreeList () (l.drop n) ∧ ρ' f = .pinned ∧
      s'.phys.ppRef f = 2 ∧ ∀ g : Page, 2 ≤ g.1.val → space s'.phys.mem (s'.envs e).envPgdir g
        = if g = pageOf (ustacktop - by2pg) then some (leafDesc f pteV) else none := by
  rcases l with _ | ⟨p, _ | ⟨f, l⟩⟩
  · exact absurd hlen (by simp)
  · exact absurd hlen (by simp)
  have hfirst : s.envFreeList.first () = some e := h.list.first_eq
  obtain ⟨q, hq, hlq⟩ := Phys.pageAlloc_cons hl
  obtain ⟨h1, hk1, hfree⟩ := setupVm_spec h.forest hq
  obtain ⟨u, hu, hlu⟩ := Phys.pageAlloc_cons (p := (q.incRef p).copyPage s.pgDir p) hlq
  rw [h.pgDir] at hu
  obtain ⟨h2, hk2, hfree2, href, hmem⟩ := take_spec h1 hu
  have hp : Function.update ρ p .dir p = .dir := Function.update_self _ _ _
  have hpf : p ≠ f := by
    rintro rfl
    rw [hp] at hfree2
    cases hfree2
  have h3 := h2.pin (Function.update_self _ _ _) href
  rw [Function.update_idem] at h3
  have hk3 : DirsKept (Function.update ρ p .dir)
      (Function.update (Function.update ρ p .dir) f .pinned) :=
    dirsKept_update (by rw [hfree2]; simp)
  have hva : UserVa (ustacktop - by2pg) := by
    unfold UserVa
    decide
  -- the new directory maps nothing yet, and the stack page is not one of its tables
  have hnone : ∀ g : Page, 2 ≤ g.1.val → space (u.incRef f).mem p g = none := by
    intro g hg
    rw [Phys.mem_incRef, take_space h1 hu hp hg]
    exact setupVm_space h.forest hq hg
  have hlen2 : 2 ≤ l.length := by
    simp only [List.length_cons] at hlen
    omega
  rcases h3.pageInsert (hk3 p hp) hva
      (by rw [Function.update_self]; trivial)
      (by rw [Phys.ppRef_incRef, if_pos rfl, href]; decide) (permOk_pteV f) with
    ⟨ρ4, p4, hi, hins⟩ | ⟨n, ρ4, p4, hi, hg, hn, hnil, _⟩
  · obtain ⟨hkeep, n, hn, _, htaken⟩ := hins.fresh (hnone _ hva)
    have hd4 := hins.frame.dirsKept
    obtain ⟨fl', hfl, h5⟩ := h.allocated 0 hfirst hins.forest
      ((hk1.trans hk3).trans hd4) (hd4 p (hk3 p hp)) (by rw [hfree]; simp)
    cases hfl
    have hnd := (List.nodup_cons.mp h.list.nodup).1
    have h6 := h5.modifyEnv hnd (f := fun v =>
      { v with envPri := priority, envTf := { v.envTf with pc := binary, sp := ustacktop } })
      (fun _ => rfl)
    rw [← h.pgDir] at hu
    refine ⟨_, ρ4, 2 + n, f, Kernel.envCreatePriority_eq binary priority hfirst hq hu hi,
      h6.of_eq rfl rfl rfl (fun _ => rfl) (fun _ _ => rfl) h6.cur, ?_, by omega, ?_, ?_, ?_, ?_⟩
    · exact
        { other := by
            intro e' he'
            simp [Kernel.schedInsertHead, Kernel.modifyEnv, Kernel.allocated, he']
          status := by
            simp [Kernel.schedInsertHead, Kernel.modifyEnv, Kernel.allocated, Kernel.freshEnv]
          id := by
            simp [Kernel.schedInsertHead, Kernel.modifyEnv, Kernel.allocated, Kernel.freshEnv,
              Kernel.mkenvid]
          parent := by
            simp [Kernel.schedInsertHead, Kernel.modifyEnv, Kernel.allocated, Kernel.freshEnv]
          curenv := rfl
          nextEnvId := rfl
          pos := rfl
          curSched := rfl
          envSched := rfl
          schedLog := rfl }
    · have hdrop : (p :: f :: l).drop (2 + n) = l.drop n := by
        rw [← List.drop_drop]
        rfl
      rw [hdrop]
      exact (htaken l hlu).2
    · rw [hkeep f (by rw [Function.update_self]; simp), Function.update_self]
    · refine (h3.pageInsert_ref (hk3 p hp) hva (hnone _ hva) (by rw [Function.update_self]; simp)
        hi).trans ?_
      rw [Phys.ppRef_incRef, if_pos rfl, href]
      rfl
    · have hpg : ((((({ s with phys := p4 } : Kernel).allocated e p 0).modifyEnv e fun v =>
          { v with envPri := priority,
                   envTf := { v.envTf with pc := binary, sp := ustacktop } }).schedInsertHead
                     e).envs e).envPgdir = p := by
        simp [Kernel.schedInsertHead, Kernel.modifyEnv, Kernel.allocated, Kernel.freshEnv]
      intro g hg
      rw [hpg]
      refine (hins.space g hg).trans ?_
      rw [hnone g hg]
  · obtain ⟨hn', hl'⟩ := hg.taken l hlu
    rw [hl'.first_eq_none_iff, List.drop_eq_nil_iff] at hnil
    omega

end KernelInv

/-! ## 5. The first environments -/

/-- Registers that are all zero. -/
def Regs.zero : Regs := ⟨fun _ => 0, 0, 0, 0⟩

/-- A kernel image of half a megabyte, loaded where the linker script puts it. -/
def image : Layout where
  pgDir := 0x100
  data := 0x90000
  linked := by decide
  fits := by decide

/-- Memory that is zero at power-on. -/
def coldRam : Mem := fun _ _ => 0

theorem cleanRam_coldRam : CleanRam image coldRam :=
  ⟨fun _ _ => not_valid_zero, fun _ _ => not_valid_zero⟩

/-- The frames `page_init` puts on the free list, in the order in which they are handed out. -/
def freshPages (base : Nat) : List Nat := (List.range' base (npage - base)).reverse

/-- One environment, created by `main`, runs in slot 0, and `n` frames are no longer free. -/
structure FirstEnv (base : Nat) (km : Mem) (n : Nat) (ρ : Nat → Role) (s : Kernel) : Prop where
  inv : KernelInv image base km ρ ((List.finRange 1023).map Fin.succ) s
  base_le : base ≤ 4047
  cur : s.curenv = some 0
  status : (s.envs 0).envStatus = .runnable
  id : (s.envs 0).envId = 2048
  parent : (s.envs 0).envParentId = 0
  other : ∀ e, e ≠ 0 → s.envs e = .zero
  nextEnvId : s.nextEnvId = 1
  curSched : s.curSched = 0
  sched : IsList s.envSched 0 [0] ∧ IsList s.envSched 1 []
  pages : IsList s.phys.pageFreeList () ((freshPages base).drop n)
  stack : ∃ f, ρ f = .pinned ∧ ∀ g : Page, 2 ≤ g.1.val → space s.phys.mem (s.envs 0).envPgdir g
    = if g = pageOf (ustacktop - by2pg) then some (leafDesc f pteV) else none
  stackRef : ∀ f, space s.phys.mem (s.envs 0).envPgdir (pageOf (ustacktop - by2pg))
    = some (leafDesc f pteV) → s.phys.ppRef f = 2

/-- Two environments, created by `main`; the first runs. -/
structure SecondEnv (base : Nat) (km : Mem) (ρ : Nat → Role) (s : Kernel) : Prop where
  inv : KernelInv image base km ρ (((List.finRange 1022).map Fin.succ).map Fin.succ) s
  base_le : base ≤ 4047
  cur : s.curenv = some 0
  pos : s.pos = 0
  status : ∀ e : Slot, e = 0 ∨ e = 1 → (s.envs e).envStatus = .runnable
  id : (s.envs 0).envId = 2048 ∧ (s.envs 1).envId = 4097
  parent : (s.envs 0).envParentId = 0 ∧ (s.envs 1).envParentId = 0
  other : ∀ e, e ≠ 0 → e ≠ 1 → s.envs e = .zero
  curSched : s.curSched = 0
  sched : IsList s.envSched 0 [1, 0]
  pages : ∃ n ≤ 8, IsList s.phys.pageFreeList () ((freshPages base).drop n)

theorem length_freshPages (base : Nat) : (freshPages base).length = npage - base := by
  simp [freshPages]

/-- The frames left when `n` have been handed out. -/
theorem mem_freshPages_drop {base n f : Nat} :
    f ∈ (freshPages base).drop n ↔ base ≤ f ∧ f < base + (npage - base - n) := by
  rw [freshPages, List.drop_reverse, List.mem_reverse, List.length_range',
    List.take_range'_of_length_ge (Nat.sub_le _ _), List.mem_range'_1]

/-- A timer interrupt right after `main` runs slot 0. -/
theorem irq_first {s : Kernel} (r : Regs) (hpos : s.pos = -1)
    (h0 : (s.envs 0).envStatus = .runnable) :
    s.step (.irq r) = .ok ({ s with timeFrame := saveall irqStack r, pos := 0 }.envRun 0) := by
  have hn : (s.pos + 1) % (nenv : Int) = 0 := by rw [hpos]; decide
  have hslot : Kernel.posSlot 0 = 0 := by decide
  have h := Kernel.schedYield_next (s := { s with timeFrame := saveall irqStack r })
  simp only [hn, hslot] at h
  exact h h0

/-- The first call of `env_create_priority`. -/
theorem Booted.create_first {base : Nat} {s₀ : Kernel} (hb : Booted image base s₀)
    (hbase : base ≤ 4047) : ∃ s₁ ρ n f, s₀.step (.create 0x80000 1) = .ok s₁ ∧
      KernelInv image base s₀.phys.mem ρ ((List.finRange 1023).map Fin.succ) s₁ ∧ Created s₀ s₁ 0 ∧
      n ≤ 4 ∧ IsList s₁.phys.pageFreeList () ((freshPages base).drop n) ∧ ρ f = .pinned ∧
      s₁.phys.ppRef f = 2 ∧ ∀ g : Page, 2 ≤ g.1.val → space s₁.phys.mem (s₁.envs 0).envPgdir g
        = if g = pageOf (ustacktop - by2pg) then some (leafDesc f pteV) else none := by
  have hinv := KernelInv.ofBooted hb
  rw [List.finRange_succ] at hinv
  have hlen : 4 ≤ (freshPages base).length := by
    rw [length_freshPages]
    simp only [npage]
    omega
  exact hinv.create hb.pages hlen 0x80000 1

/-- The second one. -/
theorem KernelInv.create_second {base n : Nat} {km : Mem} {ρ : Nat → Role} {s : Kernel}
    (h : KernelInv image base km ρ ((List.finRange 1023).map Fin.succ) s) (hbase : base ≤ 4047)
    (hn : n ≤ 4) (hl : IsList s.phys.pageFreeList () ((freshPages base).drop n)) :
    ∃ s' ρ' n', s.step (.create 0x80000 1) = .ok s' ∧
      KernelInv image base km ρ' (((List.finRange 1022).map Fin.succ).map Fin.succ) s' ∧
      Created s s' 1 ∧ n' ≤ 8 ∧ IsList s'.phys.pageFreeList () ((freshPages base).drop n') := by
  rw [List.finRange_succ, List.map_cons] at h
  have hlen : 4 ≤ ((freshPages base).drop n).length := by
    rw [List.length_drop, length_freshPages]
    simp only [npage]
    omega
  obtain ⟨s', ρ', n', _, hs, h', hc, hn', hl', _⟩ := h.create hl hlen 0x80000 1
  rw [List.drop_drop] at hl'
  exact ⟨s', ρ', n + n', hs, h', hc, by omega, hl'⟩

/-- The first environment runs as soon as the timer interrupts `main`. -/
theorem FirstEnv.ofCreated {base n f : Nat} {km : Mem} {ρ : Nat → Role} {s₀ s₁ : Kernel}
    (hb : EnvBoot image s₀) (hbase : base ≤ 4047)
    (h : KernelInv image base km ρ ((List.finRange 1023).map Fin.succ) s₁) (hc : Created s₀ s₁ 0)
    (hl : IsList s₁.phys.pageFreeList () ((freshPages base).drop n)) (hf : ρ f = .pinned)
    (href : s₁.phys.ppRef f = 2) (hst : ∀ g : Page, 2 ≤ g.1.val →
      space s₁.phys.mem (s₁.envs 0).envPgdir g
        = if g = pageOf (ustacktop - by2pg) then some (leafDesc f pteV) else none) (r : Regs) :
    ∃ s, s₁.step (.irq r) = .ok s ∧ FirstEnv base km n ρ s := by
  have hirq := irq_first r (s := s₁) (by rw [hc.pos, hb.pos]) hc.status
  have h₂ : KernelInv image base km ρ ((List.finRange 1023).map Fin.succ)
      { s₁ with timeFrame := saveall irqStack r, pos := 0 } :=
    h.of_eq rfl rfl rfl (fun _ => rfl) (fun _ _ => rfl) h.cur
  have h₃ := h₂.envRun (e := 0) (by simp)
  refine ⟨_, hirq, ?_⟩
  exact
    { inv := h₃
      base_le := hbase
      cur := by simp
      status := by rw [Kernel.envs_envRun]; exact hc.status
      id := by
        rw [Kernel.envs_envRun]
        refine hc.id.trans ?_
        rw [Kernel.mkenvid, hb.nextEnvId]
        rfl
      parent := by rw [Kernel.envs_envRun]; exact hc.parent
      other := by
        intro e he
        have h0 : s₁.envs e = .zero := by rw [hc.other e he, hb.envs]
        have hcur : s₁.curenv = none := by rw [hc.curenv, hb.curenv]
        rw [Kernel.envs_envRun]
        simp [h0, hcur, he]
      nextEnvId := by
        rw [Kernel.nextEnvId_envRun, hc.nextEnvId, Kernel.nextCounter, hb.nextEnvId]
        rfl
      curSched := by simp [hc.curSched, hb.curSched]
      sched := by
        simp only [Kernel.envSched_envRun, hc.envSched, hb.curSched]
        exact ⟨(hb.sched 0).insertHead (by simp),
          (hb.sched 0).insertHead_other (hb.sched 1) (by decide) (by simp) (by simp)⟩
      pages := by
        rw [Kernel.phys_envRun]
        exact hl
      stack := ⟨f, hf, by
        rw [Kernel.envs_envRun, Kernel.phys_envRun]
        exact hst⟩
      stackRef := by
        intro f' hf'
        rw [Kernel.envs_envRun, Kernel.phys_envRun] at hf'
        have hsame := congrArg (Option.map ppn) (((hst _ (by decide)).symm.trans hf'))
        rw [if_pos rfl, Option.map_some, Option.map_some, permOk_pteV f, permOk_pteV f'] at hsame
        rw [Kernel.phys_envRun, ← Option.some.inj hsame]
        exact href }

/-- **Boot, one environment, and the first timer interrupt.** -/
theorem firstEnv_reached (r : Regs) : ∃ s₀ s base ρ, boot image coldRam = .ok s₀ ∧
    Booted image base s₀ ∧ Run Kernel.step Kernel.Tame s₀ [.create 0x80000 1, .irq r] s ∧
    ∃ n ≤ 4, FirstEnv base s₀.phys.mem n ρ s := by
  obtain ⟨s₀, base, hboot, hb, hbase⟩ := boot_ok cleanRam_coldRam
  have hbase' : base ≤ 4047 := hbase
  obtain ⟨s₁, ρ₁, n, f, hs₁, h₁, hc, hn, hl, hf, href, hst⟩ := hb.create_first hbase'
  obtain ⟨s, hirq, h⟩ := FirstEnv.ofCreated hb.toEnvBoot hbase' h₁ hc hl hf href hst r
  exact ⟨s₀, s, base, ρ₁, hboot, hb, (Run.single trivial hs₁).snoc trivial hirq, n, hn, h⟩

/-- Two environments, and the first runs as soon as the timer interrupts `main`. -/
theorem SecondEnv.ofCreated {base n : Nat} {km : Mem} {ρ : Nat → Role} {s₀ s₁ s₂ : Kernel}
    (hb : EnvBoot image s₀) (hbase : base ≤ 4047)
    (h : KernelInv image base km ρ (((List.finRange 1022).map Fin.succ).map Fin.succ) s₂)
    (hc : Created s₀ s₁ 0) (hc' : Created s₁ s₂ 1) (hn : n ≤ 8)
    (hl : IsList s₂.phys.pageFreeList () ((freshPages base).drop n)) (r : Regs) :
    ∃ s, s₂.step (.irq r) = .ok s ∧ SecondEnv base km ρ s := by
  have h01 : (0 : Slot) ≠ 1 := by decide
  have hst0 : (s₂.envs 0).envStatus = .runnable := by rw [hc'.other 0 h01, hc.status]
  have hirq := irq_first r (s := s₂) (by rw [hc'.pos, hc.pos, hb.pos]) hst0
  have h₃ : KernelInv image base km ρ (((List.finRange 1022).map Fin.succ).map Fin.succ)
      { s₂ with timeFrame := saveall irqStack r, pos := 0 } :=
    h.of_eq rfl rfl rfl (fun _ => rfl) (fun _ _ => rfl) h.cur
  have h₄ := h₃.envRun (e := 0) (by simp)
  refine ⟨_, hirq, ?_⟩
  exact
    { inv := h₄
      base_le := hbase
      cur := by simp
      pos := by simp
      status := by
        intro e he
        rw [Kernel.envs_envRun]
        rcases he with rfl | rfl
        · exact hst0
        · exact hc'.status
      id := by
        rw [Kernel.envs_envRun, Kernel.envs_envRun]
        constructor
        · rw [hc'.other 0 h01, hc.id, Kernel.mkenvid, hb.nextEnvId]
          rfl
        · rw [hc'.id, Kernel.mkenvid, hc.nextEnvId, Kernel.nextCounter, hb.nextEnvId]
          rfl
      parent := by
        rw [Kernel.envs_envRun, Kernel.envs_envRun]
        refine ⟨?_, hc'.parent⟩
        rw [hc'.other 0 h01, hc.parent]
      other := by
        intro e he he'
        have h0 : s₂.envs e = .zero := by rw [hc'.other e he', hc.other e he, hb.envs]
        have hcur : s₂.curenv = none := by rw [hc'.curenv, hc.curenv, hb.curenv]
        rw [Kernel.envs_envRun]
        simp [h0, hcur, he]
      curSched := by simp [hc'.curSched, hc.curSched, hb.curSched]
      sched := by
        simp only [Kernel.envSched_envRun, hc'.envSched, hc.envSched, hc.curSched, hb.curSched]
        exact ((hb.sched 0).insertHead (by simp)).insertHead (by decide)
      pages := ⟨n, hn, by simpa using hl⟩ }

/-- **Boot, two environments, and the first timer interrupt.** -/
theorem secondEnv_reached (r : Regs) : ∃ s₀ s base ρ, boot image coldRam = .ok s₀ ∧
    Booted image base s₀ ∧
    Run Kernel.step Kernel.Tame s₀ [.create 0x80000 1, .create 0x80000 1, .irq r] s ∧
    SecondEnv base s₀.phys.mem ρ s := by
  obtain ⟨s₀, base, hboot, hb, hbase⟩ := boot_ok cleanRam_coldRam
  have hbase' : base ≤ 4047 := hbase
  obtain ⟨s₁, ρ₁, n, _, hs₁, h₁, hc, hn, hl, _⟩ := hb.create_first hbase'
  obtain ⟨s₂, ρ₂, n', hs₂, h₂, hc', hn', hl'⟩ := h₁.create_second hbase' hn hl
  obtain ⟨s, hirq, h⟩ := SecondEnv.ofCreated hb.toEnvBoot hbase' h₂ hc hc' hn' hl' r
  exact ⟨s₀, s, base, ρ₂, hboot, hb,
    ((Run.single trivial hs₁).snoc trivial hs₂).snoc trivial hirq, h⟩

/-! ## 6. Fewer frames -/

namespace FirstEnv

variable {base n : Nat} {km : Mem} {ρ : Nat → Role} {s : Kernel}

/-- A frame that is left. -/
theorem nextFrame (h : FirstEnv base km n ρ s) (hn : n < npage - base) :
    ∃ f q, IsList s.phys.pageFreeList () (f :: (freshPages base).drop (n + 1)) ∧
      s.phys.pageAlloc = some (f, q) ∧ IsList q.pageFreeList () ((freshPages base).drop (n + 1)) := by
  have hlt : n < (freshPages base).length := by rwa [length_freshPages]
  have hl := h.pages
  rw [List.drop_eq_getElem_cons hlt] at hl
  obtain ⟨q, hq, hlq⟩ := Phys.pageAlloc_cons hl
  exact ⟨_, q, hl, hq, hlq⟩

/-- The page below the stack page hangs in the same third-level table and is not mapped. -/
theorem belowStack (h : FirstEnv base km n ρ s) :
    ∃ u, Leads ρ (s.envs 0).envPgdir (pageOf (ustacktop - 2 * by2pg)) u ∧
      ¬ Valid (s.phys.mem u (ptex (ustacktop - 2 * by2pg))) := by
  have hF := h.inv.forest
  have hd := h.inv.dir 0 (by simp)
  obtain ⟨f, _, hstack⟩ := h.stack
  obtain ⟨u, hu, _, _⟩ := hF.leads_of_space (g := pageOf (ustacktop - by2pg)) hd (by decide)
    ((hstack _ (by decide)).trans (if_pos rfl))
  have hu' : Leads ρ (s.envs 0).envPgdir (pageOf (ustacktop - 2 * by2pg)) u := hu
  have hnone := hstack (pageOf (ustacktop - 2 * by2pg)) (by decide)
  rw [if_neg (by decide), hF.space_of_leads hu'] at hnone
  refine ⟨u, hu', fun hv => ?_⟩
  have hv' : Valid (s.phys.mem u (pageOf (ustacktop - 2 * by2pg)).2.2) := hv
  rw [if_pos hv'] at hnone
  cases hnone

/-- There is no environment 1. -/
theorem no_second (h : FirstEnv base km n ρ s) : s.envid2env 1 true = none := by
  have hslot : Kernel.envx 1 = 1 := by decide
  unfold Kernel.envid2env
  rw [if_neg (by decide)]
  dsimp only
  rw [hslot, if_pos (Or.inl (by rw [h.other 1 (by decide)]; rfl))]

/-- A frame is lost: `sys_mem_alloc` has taken it before it finds that there is no environment 1. -/
theorem lose (h : FirstEnv base km n ρ s) (hn : n < npage - base) :
    ∃ ρ' s', s.Tame (.svc .zero (.memAlloc 1 0 1)) ∧
      s.step (.svc .zero (.memAlloc 1 0 1)) = .ok s' ∧ FirstEnv base km (n + 1) ρ' s' := by
  obtain ⟨f, q, _, hq, hlq⟩ := h.nextFrame hn
  obtain ⟨h1, hk1, hfree, _, _⟩ := KernelInv.take_spec h.inv.forest hq
  have hres := h.no_second
  have hstep := Kernel.step_memAlloc_bad .zero 0 1 h.cur (by decide) hq hres
  refine ⟨Function.update ρ f .data, _, ?_, hstep, ?_⟩
  · intro _ e f q he
    rw [hres] at he
    cases he
  · exact
      { inv := (h.inv.withPhys h1 hk1).withFrames (saveall syncStack .zero) s.timeFrame
        base_le := h.base_le
        cur := h.cur
        status := h.status
        id := h.id
        parent := h.parent
        other := h.other
        nextEnvId := h.nextEnvId
        curSched := h.curSched
        sched := h.sched
        pages := hlq
        stack := by
          obtain ⟨u, hu, hst⟩ := h.stack
          refine ⟨u, update_role (by simp [hfree]) hu, fun g hg => ?_⟩
          have hd := h.inv.dir 0 (by simp)
          exact (KernelInv.take_space h.inv.forest hq hd hg).trans (hst g hg)
        stackRef := by
          intro u hu
          have hd := h.inv.dir 0 (by simp)
          have hu' := (KernelInv.take_space h.inv.forest hq hd (by decide)).symm.trans hu
          obtain ⟨_, _, href, _⟩ := h.inv.forest.take hq
          exact (congrFun href u).trans (h.stackRef u hu') }

/-- **Any number of frames can be lost.** -/
theorem drain {k : Nat} (h : FirstEnv base km n ρ s) (hk : n + k ≤ npage - base) :
    ∃ ρ' s' es, Run Kernel.step Kernel.Tame s es s' ∧ FirstEnv base km (n + k) ρ' s' := by
  induction k generalizing n ρ s with
  | zero => exact ⟨ρ, s, [], .nil, h⟩
  | succ k ih =>
    obtain ⟨ρ₁, s₁, ht, hs, h₁⟩ := h.lose (by omega)
    obtain ⟨ρ₂, s₂, es, hr, h₂⟩ := ih h₁ (by omega)
    refine ⟨ρ₂, s₂, _, (Run.single ht hs).append hr, ?_⟩
    rwa [Nat.add_assoc, Nat.add_comm 1 k] at h₂

end FirstEnv

/-- **One environment, and `k` free frames.** -/
theorem firstEnv_left {k : Nat} (hk : k ≤ 0x3f000) :
    ∃ s₀ s base n ρ, s.TameReachable image coldRam ∧ boot image coldRam = .ok s₀ ∧
      FirstEnv base s₀.phys.mem n ρ s ∧ base + k = npage - n := by
  obtain ⟨s₀, s, base, ρ, hb, _, hr, n, hn, h⟩ := firstEnv_reached .zero
  have hbase := h.base_le
  have hle : n + (npage - base - k - n) ≤ npage - base := by
    simp only [npage]
    omega
  obtain ⟨ρ', s', es, hr', h'⟩ := h.drain hle
  refine ⟨s₀, s', base, _, ρ', ⟨s₀, _, hb, hr.append hr'⟩, hb, h', ?_⟩
  simp only [npage]
  omega

/-- Registers with a stack pointer at the top of the stack: no page of it is in use. -/
def Regs.noStack : Regs := ⟨fun _ => 0, ustacktop, 0, 0⟩

/-- `sys_env_alloc` without a stack to copy, whatever the generation counter says. -/
theorem FirstEnv.bareFork {base n : Nat} {km : Mem} {ρ : Nat → Role} {s : Kernel}
    (h : FirstEnv base km n ρ s) (hn : n < npage - base) (g : Nat) :
    ∃ p q, s.phys.pageAlloc = some (p, q) ∧ ∃ t : Kernel,
      t = { s with nextEnvId := g, kernelFrame := saveall syncStack .noStack } ∧
      t.forkEnv 0
        = .ok (.inr 1, t.forked 0 1 p ((q.incRef p).copyPage s.pgDir p) .runnable) := by
  obtain ⟨p, q, _, hq, _⟩ := h.nextFrame hn
  have hfirst : s.envFreeList.first () = some 1 := by
    rw [h.inv.list.first_eq, List.finRange_succ]
    rfl
  have hnone : (ustacktop - rounddown ustacktop by2pg) / by2pg = 0 := by decide
  let t : Kernel := { s with nextEnvId := g, kernelFrame := saveall syncStack .noStack }
  have hloop : Kernel.forkStack (t.envs 0).envPgdir p
      ((ustacktop - rounddown t.kernelFrame.sp by2pg) / by2pg) (rounddown t.kernelFrame.sp by2pg)
      ((q.incRef p).copyPage t.pgDir p) = .ok (0, (q.incRef p).copyPage s.pgDir p) := by
    have hsp : t.kernelFrame.sp = ustacktop := rfl
    rw [hsp, hnone]
    rfl
  exact ⟨p, q, hq, t, rfl, Kernel.forkEnv_eq (s := t) hfirst hq hloop (by decide)⟩

/-- The first environment, which runs, and a child without a stack: all the child has is its
directory. -/
structure FirstChild (base : Nat) (km : Mem) (n : Nat) (ρ : Nat → Role) (s : Kernel) : Prop where
  inv : KernelInv image base km ρ (((List.finRange 1022).map Fin.succ).map Fin.succ) s
  base_le : base ≤ 4047
  cur : s.curenv = some 0
  status : ∀ e : Slot, e = 0 ∨ e = 1 → (s.envs e).envStatus = .runnable
  id : (s.envs 0).envId = 2048 ∧ (s.envs 1).envId = 4097
  parent : (s.envs 0).envParentId = 0 ∧ (s.envs 1).envParentId = 2048
  other : ∀ e, e ≠ 0 → e ≠ 1 → s.envs e = .zero
  pages : IsList s.phys.pageFreeList () ((freshPages base).drop n)
  stack : ∃ f, ∀ g : Page, 2 ≤ g.1.val → space s.phys.mem (s.envs 0).envPgdir g
    = if g = pageOf (ustacktop - by2pg) then some (leafDesc f pteV) else none
  stackRef : ∀ f, space s.phys.mem (s.envs 0).envPgdir (pageOf (ustacktop - by2pg))
    = some (leafDesc f pteV) → s.phys.ppRef f = 2
  bare : ∀ i : Fin 512, 2 ≤ i.val → ¬ Valid (s.phys.mem (s.envs 1).envPgdir i)

/-- The first environment forks. -/
theorem FirstEnv.fork {base n : Nat} {km : Mem} {ρ : Nat → Role} {s : Kernel}
    (h : FirstEnv base km n ρ s) (hlt : n < npage - base) : s.Tame (.svc .noStack .envAlloc) ∧
      ∃ s' ρ', s.step (.svc .noStack .envAlloc) = .ok s' ∧ FirstChild base km (n + 1) ρ' s' := by
  obtain ⟨p, q, hq, t, rfl, hfork⟩ := h.bareFork hlt s.nextEnvId
  obtain ⟨p', q', _, hq', hlq⟩ := h.nextFrame hlt
  cases hq.symm.trans hq'
  have htame : s.Tame (.svc .noStack .envAlloc) := by
    show 0x80000000 ≤ ustacktop
    decide
  have hst := Kernel.step_envAlloc h.cur hfork
  obtain ⟨ρ', fl', hi⟩ := h.inv.step htame hst
  have hcons : (List.finRange 1023).map Fin.succ
      = 1 :: ((List.finRange 1022).map Fin.succ).map Fin.succ := by
    rw [List.finRange_succ, List.map_cons]
    rfl
  have hlist := h.inv.list
  rw [hcons] at hlist
  rw [hi.list.unique hlist.remove_head] at hi
  obtain ⟨h1, _, hfree⟩ := KernelInv.setupVm_spec h.inv.forest hq
  obtain ⟨f, _, hspace⟩ := h.stack
  have hsame : ∀ g : Page, 2 ≤ g.1.val →
      space ((q.incRef p).copyPage image.pgDir p).mem (s.envs 0).envPgdir g
        = space s.phys.mem (s.envs 0).envPgdir g := fun g hg =>
    KernelInv.unused_space hfree (fun _ hg => KernelInv.setupVm_mem h.inv.forest hq hg)
      h.inv.forest h1 (by simp) (h.inv.dir 0 (by simp)) hg
  have hne : ∀ e, e ≠ 1 → (Kernel.forked { s with kernelFrame := saveall syncStack .noStack } 0 1 p
      ((q.incRef p).copyPage s.pgDir p) .runnable).envs e = s.envs e := by
    intro e he
    simp [Kernel.forked, Kernel.allocated, Kernel.modifyEnv, he]
  refine ⟨htame, _, ρ', hst, ?_⟩
  exact
    { inv := hi
      base_le := h.base_le
      cur := h.cur
      status := by
        rintro e (rfl | rfl)
        · exact (congrArg Env.envStatus (hne 0 (by decide))).trans h.status
        · simp
      id := by
        refine ⟨(congrArg Env.envId (hne 0 (by decide))).trans h.id, ?_⟩
        have hmk : s.mkenvid 1 = 4097 := by
          rw [Kernel.mkenvid, h.nextEnvId]
          rfl
        rw [← hmk]
        simp [Kernel.forked, Kernel.allocated, Kernel.freshEnv, Kernel.mkenvid]
      parent := by
        refine ⟨(congrArg Env.envParentId (hne 0 (by decide))).trans h.parent, ?_⟩
        simp [Kernel.forked, Kernel.allocated, Kernel.freshEnv, Kernel.modifyEnv, h.id]
      other := fun e h0 h1 => (hne e h1).trans (h.other e h0)
      pages := hlq
      stack := by
        refine ⟨f, fun g hg => ?_⟩
        rw [hne 0 (by decide), Kernel.phys_forked, h.inv.pgDir, ← hspace g hg]
        exact hsame g hg
      stackRef := by
        intro u hu
        rw [hne 0 (by decide), Kernel.phys_forked, h.inv.pgDir, hsame _ (by decide)] at hu
        have href := h.stackRef u hu
        have hup : u ≠ p := by
          rintro rfl
          rw [h.inv.forest.ppRef_free hfree] at href
          cases href
        obtain ⟨_, _, hkept, _⟩ := h.inv.forest.take hq
        rw [Kernel.phys_forked, h.inv.pgDir]
        refine (if_neg hup).trans ?_
        rw [hkept, href]
      bare := fun i hi' => by
        rw [Kernel.phys_forked, Kernel.envPgdir_forked, h.inv.pgDir]
        exact KernelInv.setupVm_row h.inv.forest hq hi' }

/-- **Boot, one environment, the first timer interrupt, and a fork.** -/
theorem firstChild_reached : ∃ s₀ s base ρ, boot image coldRam = .ok s₀ ∧
    Run Kernel.step Kernel.Tame s₀ [.create 0x80000 1, .irq .zero, .svc .noStack .envAlloc] s ∧
    ∃ n ≤ 5, FirstChild base s₀.phys.mem n ρ s := by
  obtain ⟨s₀, s, base, ρ, hb, _, hr, n, hn, h⟩ := firstEnv_reached .zero
  have hbase := h.base_le
  have hlt : n < npage - base := by
    simp only [npage]
    omega
  obtain ⟨htame, s', ρ', hst, h'⟩ := h.fork hlt
  exact ⟨s₀, s', base, ρ', hb, hr.snoc htame hst, n + 1, by omega, h'⟩

namespace FirstChild

variable {base n : Nat} {km : Mem} {ρ : Nat → Role} {s : Kernel}

/-- The parent names its child. -/
theorem resolve (h : FirstChild base km n ρ s) (b : Bool) : s.envid2env 4097 b = some 1 := by
  have hslot : Kernel.envx 4097 = 1 := by decide
  have hlive : (s.envs 1).envStatus ≠ .free := by
    rw [h.status 1 (Or.inr rfl)]
    simp
  unfold Kernel.envid2env
  rw [if_neg (by decide)]
  dsimp only
  rw [hslot, if_neg (by rintro (hf | hf); exacts [hlive hf, hf h.id.2])]
  refine if_neg fun hc => hc.2.2 ?_
  rw [h.cur, Option.map_some, h.id.1, h.parent.2]

/-- The parent can give its child the status it has, and queue it that way. -/
theorem enqueue (h : FirstChild base km n ρ s) : ∃ s', s.step (.svc .zero (.setEnvStatus 4097 1))
    = .ok s' ∧ FirstChild base km n ρ s' := by
  have hstep := Kernel.step_setEnvStatus (w := 1) .zero h.cur rfl (h.resolve false)
  rw [Kernel.relink_runnable] at hstep
  have henv : ∀ e, ((({ s with kernelFrame := saveall syncStack .zero } : Kernel).schedInsertHead
      1).modifyEnv 1 fun v => { v with envStatus := .runnable }).envs e = s.envs e := by
    intro e
    rcases eq_or_ne e 1 with rfl | hne
    · rw [Kernel.envs_modifyEnv_self]
      change { s.envs 1 with envStatus := .runnable } = s.envs 1
      rw [← h.status 1 (Or.inr rfl)]
    · rw [Kernel.envs_modifyEnv_ne _ _ hne]
      rfl
  refine ⟨_, hstep, ?_⟩
  exact
    { inv := h.inv.of_eq rfl rfl rfl (fun e => by rw [henv]) (fun e _ => by rw [henv]) h.inv.cur
      base_le := h.base_le
      cur := h.cur
      status := fun e he => by rw [henv, h.status e he]
      id := by rw [henv, henv]; exact h.id
      parent := by rw [henv, henv]; exact h.parent
      other := fun e h0 h1 => by rw [henv, h.other e h0 h1]
      pages := h.pages
      stack := by rw [henv]; exact h.stack
      stackRef := by rw [henv]; exact h.stackRef
      bare := by rw [henv]; exact h.bare }

/-- The parent can destroy its child. -/
theorem destroy (h : FirstChild base km n ρ s) : s.Tame (.svc .zero (.envDestroy 4097)) ∧
    s.step (.svc .zero (.envDestroy 4097))
      = .ok (({ s with kernelFrame := saveall syncStack .zero } : Kernel).freed 1) := by
  have hsafe : EnvFreeSafe s.phys (s.envs 1).envPgdir :=
    fun i hi hv => absurd hv (h.bare i (by omega))
  constructor
  · intro e he
    rw [h.resolve true] at he
    rw [← Option.some.inj he]
    exact hsafe
  · have hlive : (s.envs 1).envStatus ≠ .free := by
      rw [h.status 1 (Or.inr rfl)]
      simp
    have hfree := Kernel.envFree_eq (s := { s with kernelFrame := saveall syncStack .zero })
      (h.inv.forest.envFreePuds_id (h.inv.dir 1 (h.inv.not_mem_of_status hlive)) hsafe)
    have hres : ({ s with kernelFrame := saveall syncStack .zero } : Kernel).envid2env 4097 true
        = some 1 := h.resolve true
    have hne : s.curenv ≠ some 1 := by
      rw [h.cur]
      decide
    simp only [Kernel.step, Kernel.svc, if_neg (show s.curenv ≠ none by rw [h.cur]; simp),
      Kernel.syscall, Kernel.sysEnvDestroy, hres, Kernel.envDestroy, hfree, bind, Except.bind]
    rw [if_neg (by exact hne)]
    rfl

end FirstChild

end RaspiOS
