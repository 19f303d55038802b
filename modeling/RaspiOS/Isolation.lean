/-
# Address spaces are isolated

`env_setup_vm` gives a new environment a directory of its own, but copies the 512 entries of
`_pg_dir` into it.  Two of those entries are valid, and the tables they name are the kernel's: all
environments share them.  A call that changes a mapping below the user half writes into them, and
every other environment sees it.  In the user half no two directories share a table, so there a call
changes the translations of its target alone (`isolation`).
-/
import RaspiOS.Ident
import RaspiOS.Progress

set_option autoImplicit false

namespace RaspiOS

/-- The three calls that change mappings. -/
def Syscall.ChangesMapping : Syscall → Prop
  | .memAlloc _ _ _ | .memMap _ _ _ _ _ | .memUnmap _ _ => True
  | _ => False

namespace Kernel

/-- The environment whose mapping the call is asked to change; `none` for a call that is not about
a mapping, or that names no environment the caller may change. -/
def target (s : Kernel) : Syscall → Option Slot
  | .memAlloc envid _ _ => s.envid2env envid true
  | .memMap _ _ dstid _ _ => s.envid2env dstid true
  | .memUnmap envid _ => s.envid2env envid true
  | _ => none

/-- **Isolation** of a step from `s` to `s'` in which an environment makes a call: every environment
that is not the target of the call keeps the translation of every address. -/
def IsolationKept (s s' : Kernel) (call : Syscall) : Prop :=
  ∀ e, (s.envs e).envStatus ≠ .free → s.target call ≠ some e →
    ∀ va, translate s'.phys.mem (s'.envs e).envPgdir va
      = translate s.phys.mem (s.envs e).envPgdir va

end Kernel

/-- A call that changes memory only, and no directory but its target's, keeps the isolation. -/
theorem KernelInv.isolationKept {L : Layout} {base : Nat} {km : Mem} {ρ : Nat → Role}
    {fl : List Slot} {s s' : Kernel} {call : Syscall} (h : KernelInv L base km ρ fl s)
    (henvs : s'.envs = s.envs)
    (hothers : OthersKept ρ ((s.target call).map fun e => (s.envs e).envPgdir) s.phys s'.phys) :
    s.IsolationKept s' call := by
  intro e hlive hne va
  have he : e ∉ fl := fun hm => hlive (h.free e hm)
  rw [henvs]
  refine hothers _ (h.dir e he) ?_ va
  intro hmap
  obtain ⟨d, hd, hdir⟩ := Option.map_eq_some_iff.mp hmap
  have hdfl : d ∉ fl := by
    cases call <;> first | cases hd | exact h.not_mem_of_resolve hd
  -- two environments with one directory are one environment
  exact hne (h.inj d e hdfl he hdir ▸ hd)

namespace Kernel

/-- **Address spaces are isolated in the user half.**  In every state that a tame run reaches from
boot on clean memory, a tame call that changes a mapping leaves every translation of every other
environment as it was. -/
theorem isolation {L : Layout} {ram : Mem} {s s' : Kernel} {r : Regs} {call : Syscall}
    (hclean : CleanRam L ram) (hs : s.TameReachable L ram) (hcall : call.ChangesMapping)
    (ht : s.TameCall r call) (hstep : s.step (.svc r call) = .ok s') :
    s.IsolationKept s' call := by
  obtain ⟨s₀, base, ρ, fl, _, _, hi⟩ := KernelInv.ofReachable hclean hs
  obtain ⟨⟨x, t⟩, hsvc, rfl⟩ := Except.map_eq_ok_iff.mp hstep
  unfold svc at hsvc
  split at hsvc
  · cases hsvc
  have h0 : KernelInv L base s₀.phys.mem ρ fl { s with kernelFrame := saveall syncStack r } :=
    hi.withFrames (saveall syncStack r) s.timeFrame
  cases call with
  | memAlloc envid va perm =>
    obtain ⟨_, _, hothers⟩ := h0.sysMemAlloc (r := r) ht hsvc
    obtain ⟨phys, rfl, _⟩ := sysMemAlloc_ok hsvc
    exact hi.isolationKept rfl hothers
  | memMap srcid srcva dstid dstva perm =>
    obtain ⟨_, _, hothers⟩ := h0.sysMemMap (r := r) ht hsvc
    obtain ⟨phys, rfl, _⟩ := sysMemMap_ok hsvc
    exact hi.isolationKept rfl hothers
  | memUnmap envid va =>
    obtain ⟨_, _, hothers⟩ := h0.sysMemUnmap (r := r) ht hsvc
    obtain ⟨phys, rfl, _⟩ := sysMemUnmap_ok hsvc
    exact hi.isolationKept rfl hothers
  | _ => exact hcall.elim

/-- An environment that unmaps its first stack page disturbs no other. -/
theorem isolation_unmap : ∃ s s' : Kernel, s.TameReachable image coldRam ∧ s.curenv = some 0 ∧
    (s.envs 1).envStatus = .runnable ∧
    s.step (.svc .zero (.memUnmap 0 (ustacktop - by2pg))) = .ok s' ∧
    s.IsolationKept s' (.memUnmap 0 (ustacktop - by2pg)) := by
  obtain ⟨s₀, s, base, ρ, hb, _, hr, h⟩ := secondEnv_reached .zero
  have hs : s.TameReachable image coldRam := ⟨s₀, _, hb, hr⟩
  have hd := h.inv.dir 0 (by simp)
  have hva : UserVa (ustacktop - by2pg) := by
    unfold UserVa
    decide
  obtain ⟨_, q, hq, _⟩ := h.inv.forest.pageRemove hd hva
  have hstep := step_memUnmap_self .zero h.cur hq
  refine ⟨s, _, hs, h.cur, h.status 1 (Or.inr rfl), hstep, ?_⟩
  exact isolation (r := .zero) cleanRam_coldRam hs trivial (fun _ _ _ _ _ => hva) hstep

/-- **Address spaces are not isolated.**  Two environments, created by `main`; the first one calls
`sys_mem_unmap(0, 0x1000)`, and the second loses the page too. -/
theorem not_isolated : ¬ ∀ (s s' : Kernel) (r : Regs) (call : Syscall), s.Reachable →
    call.ChangesMapping → s.step (.svc r call) = .ok s' → s.IsolationKept s' call := by
  intro hall
  obtain ⟨s₀, s, base, ρ, hb, _, hr, h⟩ := secondEnv_reached .zero
  have hF := h.inv.forest
  have hd0 := h.inv.dir 0 (by simp)
  have hrun := h.status 1 (Or.inr rfl)
  have hlive : (s.envs 1).envStatus ≠ .free := by
    rw [hrun]
    simp
  have hd1 := h.inv.dir 1 (h.inv.not_mem_of_status hlive)
  have hf : 1 < ramFrames := by decide
  obtain ⟨q, hq, hmem⟩ := hF.pageRemove_ident hd0 hf
  have hstep := step_memUnmap_self .zero h.cur hq
  have hkept := hall s _ .zero (.memUnmap 0 (page2pa 1))
    ⟨image, coldRam, s₀, _, hb, hr.unguarded⟩ trivial hstep 1
    hlive (by rw [target, envid2env_zero, h.cur]; decide) (page2pa 1)
  -- before the call the page is there, after it it is not
  obtain ⟨h1, h2⟩ := hF.ident_upper (Or.inl hd1) hf
  rw [translate_ident hf h1 h2, hF.mem_identPtr hf, if_pos (isTable_identDesc _ _)] at hkept
  have hstore : (q.store (identPtr image 1) 0).mem = (s.phys.store (identPtr image 1) 0).mem := by
    simp only [Phys.store, hmem]
  have hnone : translate (q.store (identPtr image 1) 0).mem (s.envs 1).envPgdir (page2pa 1)
      = none := by
    rw [hstore]
    exact hF.translate_cleared hf (Or.inl hd1)
  cases hnone.symm.trans hkept

end Kernel

end RaspiOS
