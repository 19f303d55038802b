/-
# Where the kernel stops

Nothing brings the kernel back once it has panicked, hangs in `sched_yield` or has taken a data abort
of its own.  Under the discipline of careful steps it stops for the reasons listed in `Stops`, and for
no other (`step_error_iff`): `pa2page` never panics, and `page_free` never does.

`sys_env_alloc` is asked to keep its stack pointer in the user half and nothing else; memory may run
out in the middle of it.
-/
import RaspiOS.Panics

set_option autoImplicit false

namespace RaspiOS

open LinkedList

/-! ## 1. The reasons -/

namespace Kernel

/-- A careful step, with `sys_env_alloc` allowed to run out of memory. -/
def Heedful (s : Kernel) : Event → Prop
  | .svc r .envAlloc => 0x80000000 ≤ r.spEl0
  | ev => s.Careful ev

/-- No slot but `c` can run. -/
def Alone (s : Kernel) (c : Slot) : Prop := ∀ e, e ≠ c → (s.envs e).envStatus ≠ .runnable

/-- No slot can run. -/
def Idle (s : Kernel) : Prop := ∀ e, (s.envs e).envStatus ≠ .runnable

/-- **Why a system call of `c` never comes back.** -/
def StopsIn (s : Kernel) (r : Regs) (c : Slot) : Syscall → Halt → Prop
  | .yield, h => s.Idle ∧ h = .hang
  | .ipcRecv dstva, h => dstva < utop ∧ s.Alone c ∧ h = .hang
  | .envDestroy envid, h => s.envid2env envid true = some c ∧ s.Alone c ∧ h = .hang
  | .setTrapframe _ _, h => h = .sysSetTrapframePanic
  | .envAlloc, h => ∃ l k, IsList s.phys.pageFreeList () l ∧ s.MappedUpTo c r.spEl0 k ∧
      (forkEnd (s.envFreeList.first ()).isSome l.length (rounddown r.spEl0 by2pg)
          (stackPages r.spEl0) k = .noDirectory ∧ h = .envSetupVmPanic ∨
        forkEnd (s.envFreeList.first ()).isSome l.length (rounddown r.spEl0 by2pg)
          (stackPages r.spEl0) k = .fault ∧ h = .fault)
  | _, _ => False

/-- **Why the kernel stops.**  Before `main` has started an environment nothing can trap; and a store
does not enter the kernel, so nothing is said of it. -/
def Stops (s : Kernel) : Event → Halt → Prop
  | .create _ _, h => s.envFreeList.first () = none ∧ h = .envCreatePanic ∨
      s.envFreeList.first () ≠ none ∧ s.phys.pageFreeList.first () = none ∧ h = .envSetupVmPanic
  | .svc r call, h => s.curenv = none ∧ h = .noEnv ∨
      ∃ c, s.curenv = some c ∧ s.StopsIn r c call h
  | .irq _, h => s.Idle ∧ h = .hang
  | .store _ _, _ => False

end Kernel

/-! ## 2. Two shapes of a result -/

section Results

variable {χ α : Type} {x : Except χ α} {P : χ → Prop}

theorem error_iff_of_ok (hx : ∃ a, x = .ok a) (hP : ∀ err, ¬ P err) (err : χ) :
    x = .error err ↔ P err := by
  obtain ⟨a, rfl⟩ := hx
  exact ⟨(nomatch ·), fun h => absurd h (hP err)⟩

theorem error_iff_of_error {err₀ : χ} (hx : x = .error err₀) (hP : ∀ err, P err ↔ err = err₀)
    (err : χ) : x = .error err ↔ P err := by
  rw [hx, hP, Except.error.injEq, eq_comm]

/-- What is done with a result that cannot fail any more. -/
theorem bind_pure_error_iff {β : Type} {f : α → β} {err : χ} :
    (x >>= fun a => pure (f a)) = .error err ↔ x = .error err := by
  cases x with
  | error err' =>
    constructor <;>
    · intro h
      cases h
      rfl
  | ok a => exact ⟨(nomatch ·), (nomatch ·)⟩

end Results

/-! ## 3. The scheduler -/

namespace Kernel

variable {s : Kernel} {c : Slot}

theorem schedLoop_idle {n : Nat} {s : Kernel} (h : s.Idle) : schedLoop n s = .error .hang := by
  induction n generalizing s with
  | zero => rfl
  | succ n ih =>
    unfold schedLoop
    dsimp only
    rw [if_neg (h _)]
    exact ih h

/-- **`sched_yield` hangs exactly when no slot can run.** -/
theorem schedYield_error_iff (err : Halt) : s.schedYield = .error err ↔ s.Idle ∧ err = .hang := by
  by_cases h : s.Idle
  · exact error_iff_of_error (schedLoop_idle h) (fun err => and_iff_right h) err
  · refine error_iff_of_ok (P := fun err => s.Idle ∧ err = .hang) ?_ (fun err hc => h hc.1) err
    unfold Idle at h
    push Not at h
    obtain ⟨e, he⟩ := h
    exact schedYield_total he

/-- Nobody can run where `c` cannot and the others could not. -/
theorem idle_iff_alone {t : Kernel} (ht : ∀ e, e ≠ c → (t.envs e).envStatus = (s.envs e).envStatus)
    (hc : (t.envs c).envStatus ≠ .runnable) : t.Idle ↔ s.Alone c := by
  refine ⟨fun h e he => ht e he ▸ h e, fun h e => ?_⟩
  rcases eq_or_ne e c with rfl | he
  · exact hc
  · rw [ht e he]
    exact h e he

end Kernel

/-! ## 4. The calls -/

section Calls

variable {L : Layout} {base : Nat} {km : Mem} {ρ : Nat → Role} {fl : List Slot} {s s' : Kernel}
  {c : Slot} {r : Regs}

namespace Kernel

/-- `sys_yield`. -/
theorem sysYield_error_iff (err : Halt) : s.sysYield = .error err ↔ s.Idle ∧ err = .hang := by
  unfold sysYield
  exact bind_pure_error_iff.trans (schedYield_error_iff err)

/-- `sys_ipc_recv`. -/
theorem sysIpcRecv_error_iff (hcur : s.curenv = some c) (dstva : Nat) (err : Halt) :
    s.sysIpcRecv dstva = .error err ↔ dstva < utop ∧ s.Alone c ∧ err = .hang := by
  unfold sysIpcRecv
  rw [hcur]
  dsimp only
  split
  · rename_i hle
    exact ⟨(nomatch ·), fun h => absurd h.1 (not_lt.mpr hle)⟩
  · rename_i hlt
    refine (bind_pure_error_iff.trans (schedYield_error_iff err)).trans ?_
    rw [and_iff_right (not_le.mp hlt)]
    refine and_congr (idle_iff_alone (fun e he => ?_) ?_) Iff.rfl
    · exact congrArg Env.envStatus (if_neg he)
    · exact ne_of_eq_of_ne (congrArg Env.envStatus (if_pos rfl)) (by simp)

/-- `env_destroy` behind `env_free`. -/
theorem envDestroy_error_iff {e : Slot} (hfree : s.envFree e = .ok (s.freed e)) (err : Halt) :
    s.envDestroy e = .error err ↔ s.curenv = some e ∧ s.Alone e ∧ err = .hang := by
  unfold envDestroy
  rw [hfree]
  by_cases hcur : s.curenv = some e
  · refine Iff.trans (Iff.of_eq (congrArg (· = Except.error err) (if_pos hcur))) ?_
    refine (bind_pure_error_iff.trans (schedYield_error_iff err)).trans ?_
    rw [and_iff_right hcur]
    refine and_congr (idle_iff_alone (fun e' he' => ?_) ?_) Iff.rfl
    · exact congrArg Env.envStatus (envs_freed_ne s he')
    · exact ne_of_eq_of_ne (congrArg Env.envStatus (envs_freed_self s e)) (by simp)
  · refine Iff.trans (Iff.of_eq (congrArg (· = Except.error err) (if_neg hcur))) ?_
    exact ⟨(nomatch ·), fun h => absurd h.1 hcur⟩

/-- `sys_env_destroy`, when `env_free` comes back. -/
theorem sysEnvDestroy_error_iff {envid : Nat} (hcur : s.curenv = some c)
    (hfree : ∀ e, s.envid2env envid true = some e → s.envFree e = .ok (s.freed e)) (err : Halt) :
    s.sysEnvDestroy envid = .error err ↔
      s.envid2env envid true = some c ∧ s.Alone c ∧ err = .hang := by
  unfold sysEnvDestroy
  cases he : s.envid2env envid true with
  | none => exact ⟨(nomatch ·), fun h => nomatch h.1⟩
  | some e =>
    refine (bind_pure_error_iff.trans (envDestroy_error_iff (hfree e he) err)).trans ?_
    rw [hcur]
    constructor
    · rintro ⟨hc, ha, hh⟩
      obtain rfl := Option.some.inj hc
      exact ⟨rfl, ha, hh⟩
    · rintro ⟨hc, ha, hh⟩
      obtain rfl := Option.some.inj hc
      exact ⟨rfl, ha, hh⟩

end Kernel

namespace KernelInv

/-- `sys_env_alloc`. -/
theorem envAlloc_error_iff (h : KernelInv L base km ρ fl s) (hcur : s.curenv = some c)
    (hlo : 0x80000000 ≤ r.spEl0) (err : Halt) :
    s.svc r .envAlloc = .error err ↔ s.StopsIn r c .envAlloc err := by
  constructor
  · intro herr
    obtain ⟨l, hl, -⟩ := h.forest.pages
    obtain ⟨k, hk⟩ := exists_mappedUpTo s c r.spEl0
    refine ⟨l, k, hl, hk, ?_⟩
    have hends := h.forkEnds hcur hlo hl hk
    generalize forkEnd _ _ _ _ _ = x at hends ⊢
    cases x with
    | noFreeEnv => cases herr.symm.trans hends
    | noDirectory =>
      cases herr.symm.trans hends
      exact Or.inl ⟨rfl, rfl⟩
    | noMem =>
      obtain ⟨_, hok, -⟩ := hends
      cases herr.symm.trans hok
    | fault =>
      cases herr.symm.trans hends
      exact Or.inr ⟨rfl, rfl⟩
    | child =>
      obtain ⟨_, _, hok, -⟩ := hends
      cases herr.symm.trans hok
    | husk =>
      obtain ⟨_, _, hok, -⟩ := hends
      cases herr.symm.trans hok
  · rintro ⟨l, k, hl, hk, ⟨hend, rfl⟩ | ⟨hend, rfl⟩⟩
    all_goals
      have hends := h.forkEnds hcur hlo hl hk
      rw [hend] at hends
      exact hends

/-- **A system call stops the kernel for the reasons listed.** -/
theorem svc_error_iff (h : KernelInv L base km ρ fl s) (hcur : s.curenv = some c) {call : Syscall}
    (hg : s.Heedful (.svc r call)) (err : Halt) :
    s.svc r call = .error err ↔ s.StopsIn r c call err := by
  have h0 := h.trapped r
  have hsvc : s.svc r call = (s.trapped r).syscall call := by
    unfold Kernel.svc
    exact if_neg (by rw [hcur]; simp)
  have hok : (∃ a, s.svc r call = .ok a) → (∀ err, ¬ s.StopsIn r c call err) →
      (s.svc r call = .error err ↔ s.StopsIn r c call err) :=
    fun ha hno => error_iff_of_ok ha hno err
  -- the calls of `Manages` but for `sys_env_alloc`
  have hmanages : call.Manages → s.Careful (.svc r call) → ∃ a, s.svc r call = .ok a := by
    intro hm hcareful
    obtain ⟨v, s', _, _, hok, -⟩ := h.call_returns hcur hm hcareful
    exact ⟨_, hok⟩
  cases call with
  | putchar ch => exact hok ⟨_, hsvc⟩ fun _ => id
  | getenvid =>
    refine hok ⟨(.ret (s.envs c).envId, s.trapped r), hsvc.trans ?_⟩ fun _ => id
    simp only [Kernel.syscall, Kernel.sysGetenvid, show (s.trapped r).curenv = some c from hcur]
    rfl
  | yield =>
    rw [hsvc]
    exact Kernel.sysYield_error_iff err
  | envDestroy envid =>
    rw [hsvc]
    refine Kernel.sysEnvDestroy_error_iff (s := s.trapped r) hcur (fun e he => ?_) err
    exact Kernel.envFree_eq (h0.forest.envFreePuds_id (h0.dir e (h0.not_mem_of_resolve he)) (hg e he))
  | setPgfaultHandler envid func xstacktop =>
    refine hok ?_ fun _ => id
    rw [hsvc]
    simp only [Kernel.syscall, Kernel.sysSetPgfaultHandler]
    split
    · exact ⟨_, rfl⟩
    · exact ⟨_, rfl⟩
  | memAlloc | memMap | memUnmap | setEnvStatus | ipcCanSend =>
    exact hok (hmanages trivial hg) fun _ => id
  | envAlloc => exact h.envAlloc_error_iff hcur hg err
  | setTrapframe envid tf =>
    rw [hsvc]
    exact error_iff_of_error (P := fun err => err = .sysSetTrapframePanic) rfl (fun _ => Iff.rfl) err
  | panic msg => exact hok ⟨_, hsvc⟩ fun _ => id
  | ipcRecv dstva =>
    rw [hsvc]
    exact Kernel.sysIpcRecv_error_iff (s := s.trapped r) hcur dstva err

/-! ## 5. The other events -/

/-- `env_create_priority` comes back with a slot and a frame for the directory, with or without the page
for the stack. -/
theorem create_returns (h : KernelInv L base km ρ fl s) {e : Slot} {p : Nat} {q : Phys}
    (he : s.envFreeList.first () = some e) (hq : s.phys.pageAlloc = some (p, q))
    (binary priority : Nat) : ∃ s', s.envCreatePriority binary priority = .ok s' := by
  obtain ⟨h1, hk1, hfree⟩ := setupVm_spec h.forest hq
  have hp : Function.update ρ p .dir p = .dir := Function.update_self _ _ _
  cases hu : ((q.incRef p).copyPage L.pgDir p).pageAlloc with
  | none =>
    have hu' : (Kernel.allocated { s with phys := (q.incRef p).copyPage s.pgDir p } e p
        0).phys.pageAlloc = none := by
      rw [h.pgDir]
      exact hu
    unfold Kernel.envCreatePriority
    rw [Kernel.envAlloc_some he hq]
    simp only [bind, Except.bind, hu']
    exact ⟨_, rfl⟩
  | some x =>
    obtain ⟨f, u⟩ := x
    obtain ⟨h2, hk2, hfree2, href, -⟩ := take_spec h1 hu
    have h3 := h2.pin (Function.update_self _ _ _) href
    rw [Function.update_idem] at h3
    have hk3 : DirsKept (Function.update ρ p .dir)
        (Function.update (Function.update ρ p .dir) f .pinned) :=
      dirsKept_update (by rw [hfree2]; simp)
    have hva : UserVa (ustacktop - by2pg) := by
      unfold UserVa
      decide
    obtain ⟨v, p', hi⟩ : ∃ v p', (u.incRef f).pageInsert p f (ustacktop - by2pg) pteV
        = .ok (v, p') := by
      rcases h3.pageInsert (hk3 p hp) hva (by rw [Function.update_self]; trivial)
          (by rw [Phys.ppRef_incRef, if_pos rfl, href]; decide) (permOk_pteV f) with
        ⟨_, p', hi, -⟩ | ⟨_, _, p', hi, -⟩
      · exact ⟨_, p', hi⟩
      · exact ⟨_, p', hi⟩
    rw [← h.pgDir] at hu
    exact ⟨_, Kernel.envCreatePriority_eq binary priority he hq hu hi⟩

/-- `env_create_priority`. -/
theorem create_error_iff (h : KernelInv L base km ρ fl s) (binary priority : Nat) (err : Halt) :
    s.step (.create binary priority) = .error err ↔ s.Stops (.create binary priority) err := by
  change s.envCreatePriority binary priority = _ ↔
    s.envFreeList.first () = none ∧ err = .envCreatePanic ∨
      s.envFreeList.first () ≠ none ∧ s.phys.pageFreeList.first () = none ∧ err = .envSetupVmPanic
  cases he : s.envFreeList.first () with
  | none =>
    have hpanic : s.envCreatePriority binary priority = .error .envCreatePanic := by
      simp only [Kernel.envCreatePriority, Kernel.envAlloc, he, bind, Except.bind]
    exact (error_iff_of_error hpanic (fun _ => Iff.rfl) err).trans (by simp)
  | some e =>
    cases hq : s.phys.pageAlloc with
    | none =>
      have hnil := Phys.pageAlloc_eq_none.mp hq
      have hpanic : s.envCreatePriority binary priority = .error .envSetupVmPanic := by
        simp only [Kernel.envCreatePriority, Kernel.envAlloc, Kernel.envSetupVm, he, hq, bind,
          Except.bind]
      exact (error_iff_of_error hpanic (fun _ => Iff.rfl) err).trans (by simp [hnil])
    | some x =>
      obtain ⟨p, q⟩ := x
      have hfirst := (Phys.pageAlloc_eq_some hq).1
      refine (error_iff_of_ok (P := fun _ => False) ?_ (fun _ => id) err).trans (by simp [hfirst])
      exact h.create_returns he hq binary priority

/-- **The kernel stops for the reasons listed**, one step. -/
theorem step_error_iff (h : KernelInv L base km ρ fl s) {ev : Event} (hg : s.Heedful ev)
    (hev : ∀ va w, ev ≠ .store va w) (err : Halt) : s.step ev = .error err ↔ s.Stops ev err := by
  cases ev with
  | create binary priority => exact h.create_error_iff binary priority err
  | svc r call =>
    change _ ↔ s.curenv = none ∧ err = .noEnv ∨ ∃ c, s.curenv = some c ∧ s.StopsIn r c call err
    have hmap : s.step (.svc r call) = .error err ↔ s.svc r call = .error err :=
      bind_pure_error_iff (f := Prod.snd)
    rw [hmap]
    cases hcur : s.curenv with
    | none =>
      have hno : s.svc r call = .error .noEnv := if_pos hcur
      exact (error_iff_of_error hno (fun _ => Iff.rfl) err).trans (by simp)
    | some c => exact (h.svc_error_iff hcur hg err).trans (by simp)
  | irq r => exact Kernel.schedYield_error_iff (s := { s with timeFrame := saveall irqStack r }) err
  | store va w => exact absurd rfl (hev va w)

/-- A heedful step keeps the invariant. -/
theorem step_heedful (h : KernelInv L base km ρ fl s) {ev : Event} (hg : s.Heedful ev)
    (hs : s.step ev = .ok s') : ∃ ρ' fl', KernelInv L base km ρ' fl' s' := by
  by_cases hev : ∃ r, ev = .svc r .envAlloc
  · obtain ⟨r, rfl⟩ := hev
    exact h.step (show s.Tame (.svc r .envAlloc) from hg) hs
  · refine h.step_careful ?_ hs
    unfold Kernel.Heedful at hg
    split at hg
    · exact absurd ⟨_, rfl⟩ hev
    · exact hg

end KernelInv

end Calls

/-! ## 6. Runs -/

namespace Kernel

/-- **Where the kernel stops.**  In every state that heedful steps and stores to the user half reach from
boot on clean memory, a heedful entry into the kernel panics, hangs or faults exactly for the reasons
listed. -/
theorem stops_iff {L : Layout} {ram : Mem} {s₀ s : Kernel} {es : List Event} {ev : Event}
    (hclean : CleanRam L ram) (hboot : boot L ram = .ok s₀) (hr : Run step Heedful s₀ es s)
    (hg : s.Heedful ev) (hev : ∀ va w, ev ≠ .store va w) (err : Halt) :
    s.step ev = .error err ↔ s.Stops ev err := by
  obtain ⟨s₁, base, hb, hbooted, _⟩ := boot_ok hclean
  obtain rfl := Except.ok.inj (hboot.symm.trans hb)
  obtain ⟨ρ, fl, h⟩ : ∃ ρ fl, KernelInv L base s₀.phys.mem ρ fl s :=
    hr.invariant (I := fun t => ∃ ρ fl, KernelInv L base s₀.phys.mem ρ fl t)
      ⟨_, _, KernelInv.ofBooted hbooted⟩ (fun _ _ _ hi hg hst => by
        obtain ⟨ρ, fl, hi⟩ := hi
        exact hi.step_heedful hg hst)
  exact h.step_error_iff hg hev err

/-- The first environment, alone, waits for a message: the scheduler hangs. -/
theorem stops_iff_first : ∃ s : Kernel, s.curenv = some 0 ∧
    s.step (.svc .zero (.ipcRecv 0)) = .error .hang := by
  obtain ⟨s₀, s, base, ρ, hb, _, hr, n, hn, h⟩ := firstEnv_reached .zero
  have hr0 : Run step Heedful s₀ [.create 0x80000 1, .irq .zero] s :=
    hr.mono_of_mem fun t e he _ => by
      simp only [List.mem_cons, List.not_mem_nil, or_false] at he
      rcases he with rfl | rfl <;> trivial
  have hg : s.Heedful (.svc .zero (.ipcRecv 0)) := trivial
  refine ⟨s, h.cur, (stops_iff cleanRam_coldRam hb hr0 hg (by simp) .hang).mpr
    (Or.inr ⟨0, h.cur, ?_⟩)⟩
  refine ⟨by decide, fun e he => ?_, rfl⟩
  rw [h.other e he]
  simp [Env.zero]

end Kernel

end RaspiOS
