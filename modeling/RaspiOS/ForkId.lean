/-
# The value `fork` returns

`mkenvid` packs 64 bits, and `sys_env_alloc` returns the packed word through `int`.  `msyscall` hands
the register on as a `long`, and `syscall_env_alloc` in the user library cuts it to `int` once more, so
the cut in the kernel is the one that counts: the parent is given the low 32 bits of the id, read with
a sign.

The counter stands eleven bits up.  So the parent has the id of its child exactly while the counter
stays below `2^20` (`fork_names_child`); from there on the value is negative or names an environment
that is not the child.
-/
import RaspiOS.EnvId
import RaspiOS.Fork

set_option autoImplicit false

namespace RaspiOS

/-! ## 1. The way of the value -/

/-- The negated error codes of `include/mmu.h`; the last one is `E_NOT_EXEC`, 12. -/
def ErrorCode (v : Int) : Prop := -12 ≤ v ∧ v ≤ -1

/-- `syscall_env_alloc`, given the register `x0` that the `svc` of `msyscall` comes back with. -/
def syscallEnvAlloc (x0 : Nat) : Int := toInt x0

/-- `fork`. -/
def fork (x0 : Nat) : Int := syscallEnvAlloc x0

/-- The library cuts what the kernel has cut already. -/
theorem fork_eq (x0 : Nat) : fork x0 = toInt x0 := rfl

/-- Conversion of an `int` to `unsigned long`. -/
def toULong (v : Int) : Nat := (v % 2 ^ 64).toNat

/-- **The value names the child**: it is positive, it is neither the value the child sees nor an error
code, and `envid2env` finds the child by it, whether or not it asks for permission. -/
structure Kernel.NamesChild (s : Kernel) (e : Slot) (pid : Int) : Prop where
  pos : 0 < pid
  ne_child : pid ≠ fork ((s.envs e).envTf.x 0)
  ne_error : ¬ ErrorCode pid
  resolves : ∀ b, s.envid2env (toULong pid) b = some e

/-! ## 2. Numbers -/

/-- The low 32 bits, read with a sign. -/
theorem toInt_eq (w : Nat) :
    toInt w = if w % 2 ^ 32 < 2 ^ 31 then (w % 2 ^ 32 : Int) else w % 2 ^ 32 - 2 ^ 32 := by
  unfold toInt
  rw [Int.bmod_def]
  split <;> split <;> omega

/-- A positive `int`, widened, is the low half of the word it was cut from. -/
theorem toULong_toInt {w : Nat} (h : 0 < toInt w) :
    toULong (toInt w) = w % 2 ^ 32 ∧ 0 < w % 2 ^ 32 ∧ w % 2 ^ 32 < 2 ^ 31 := by
  unfold toULong
  rw [toInt_eq] at h ⊢
  split at h
  · rename_i hlt
    rw [if_pos hlt]
    omega
  · omega

/-- A word of 31 bits survives. -/
theorem toInt_of_lt {w : Nat} (h : w < 2 ^ 31) : toInt w = w := by
  have hmod : w % 2 ^ 32 = w := Nat.mod_eq_of_lt (by omega)
  rw [toInt_eq, hmod, if_pos h]
  omega

/-- Whatever the generation, the value is no error code: bit 10 of an id is clear. -/
theorem not_errorCode_toInt (g : Nat) (e : Slot) : ¬ ErrorCode (toInt (envIdOf g e)) := by
  have he := e.isLt
  have hid : envIdOf g e = g * 2048 + e.val := rfl
  rintro ⟨hlo, hhi⟩
  rw [toInt_eq, hid] at hlo hhi
  split at hlo <;> split at hhi <;> omega

/-- An id is a number of 31 bits exactly while its generation is one of 20. -/
theorem envIdOf_lt_iff (g : Nat) (e : Slot) : envIdOf g e < 2 ^ 31 ↔ g < 2 ^ 20 := by
  have he := e.isLt
  have hid : envIdOf g e = g * 2048 + e.val := rfl
  rw [hid]
  omega

/-! ## 3. The child -/

namespace Kernel

/-- What `envid2env` finds by an id has that id. -/
theorem envid2env_id {s : Kernel} {envid : Nat} {b : Bool} {e : Slot} (h0 : envid ≠ 0)
    (h : s.envid2env envid b = some e) : (s.envs e).envId = envid := by
  unfold envid2env at h
  rw [if_neg h0] at h
  dsimp only at h
  split at h
  · cases h
  · rename_i hlive
    split at h
    · cases h
    · cases h
      exact not_not.mp fun hid => hlive (Or.inr hid)

/-- `envid2env` finds a live slot by its id for itself and for its parent. -/
theorem envid2env_related {s : Kernel} {envid : Nat} {e : Slot} (h0 : envid ≠ 0)
    (hx : envx envid = e) (hid : (s.envs e).envId = envid)
    (hst : (s.envs e).envStatus ≠ .free) (hrel : s.curenv = some e ∨
      s.curenv.map (fun c => (s.envs c).envId) = some (s.envs e).envParentId) (b : Bool) :
    s.envid2env envid b = some e := by
  unfold envid2env
  rw [if_neg h0]
  dsimp only
  rw [hx, if_neg (by rintro (h | h); exacts [hst h, h hid])]
  exact if_neg fun hc => hrel.elim hc.2.1 hc.2.2

/-- The child, right after `sys_env_alloc`: it has the id of the next generation, it runs, it has zero
in `x0`, and its parent may name it. -/
theorem forkEnv_child {s s' : Kernel} {c e : Slot} (hc : s.curenv = some c)
    (hf : s.forkEnv c = .ok (.inr e, s')) : (s'.envs e).envId = s.mkenvid e ∧
      (s'.envs e).envStatus = .runnable ∧ (s'.envs e).envTf.x 0 = 0 ∧ (s'.curenv = some e ∨
        s'.curenv.map (fun d => (s'.envs d).envId) = some (s'.envs e).envParentId) := by
  rcases forkEnv_ok hf with ⟨he, _⟩ | ⟨e', p, q, v, phys, _, _, _, hr, rfl⟩
  · cases he
  · split at hr
    · cases hr
    rename_i hv
    cases hr
    rw [if_neg hv]
    have hid : ((s.forked c e p phys .runnable).envs e).envId = s.mkenvid e := by
      simp [forked, allocated, freshEnv, mkenvid]
    refine ⟨hid, envStatus_forked .., by simp, ?_⟩
    have hcur : (s.forked c e p phys .runnable).curenv = some c := hc
    rcases eq_or_ne c e with rfl | hne
    · exact Or.inl hcur
    · right
      have hpar : ((s.forked c e p phys .runnable).envs e).envParentId = (s.envs c).envId := by
        simp [forked, allocated, freshEnv]
      have hself : (s.forked c e p phys .runnable).envs c = s.envs c := by
        simp [forked, allocated, modifyEnv, hne]
      rw [hcur, hpar, Option.map_some, hself]

/-- The call returns the id of the child, cut to `int`. -/
theorem svc_envAlloc {s s' : Kernel} {r : Regs} {c e : Slot} (hc : s.curenv = some c)
    (hf : (s.trapped r).forkEnv c = .ok (.inr e, s')) :
    s.svc r .envAlloc = .ok (.ret (toInt (s'.envs e).envId), s') := by
  unfold svc
  rw [if_neg (by rw [hc]; simp)]
  exact sysEnvAlloc_eq (s := s.trapped r) hc hf

/-- **`fork` names the child exactly while the generation counter fits into 20 bits.**  `x0` is any
register whose low half is the `int` that `sys_env_alloc` returns. -/
theorem fork_names_child {s s' : Kernel} {r : Regs} {c e : Slot} {v : Int}
    (hcur : s.curenv = some c) (hn : s.nextEnvId < 2 ^ 52)
    (hf : (s.trapped r).forkEnv c = .ok (.inr e, s')) (hv : s.svc r .envAlloc = .ok (.ret v, s')) :
    (∀ x0, toInt x0 = v → s'.NamesChild e (fork x0)) ↔ s.nextEnvId + 1 < 2 ^ 20 := by
  have hct : (s.trapped r).curenv = some c := hcur
  obtain ⟨hid, hrun, hx0, hpar⟩ := forkEnv_child hct hf
  have hid : (s'.envs e).envId = envIdOf (s.nextEnvId + 1) e :=
    hid.trans (mkenvid_eq (s := s) e (Nat.lt_of_lt_of_le (Nat.succ_lt_succ hn) (by decide)))
  obtain rfl : toInt (s'.envs e).envId = v := by
    rw [svc_envAlloc hcur hf] at hv
    exact Exit.ret.inj (Prod.mk.inj (Except.ok.inj hv)).1
  rw [hid]
  constructor
  · intro hall
    obtain ⟨hpos, _, _, hres⟩ := hall (envIdOf (s.nextEnvId + 1) e) rfl
    rw [fork_eq] at hpos hres
    obtain ⟨hword, hne, hlt⟩ := toULong_toInt hpos
    rw [hword] at hres
    -- `envid2env` compares all 64 bits of the id with the 31 that are left of it
    have hsame := envid2env_id hne.ne' (hres false)
    rw [hid] at hsame
    rw [← envIdOf_lt_iff _ e, hsame]
    exact hlt
  · intro hlt x0 hx
    have hpid : fork x0 = (envIdOf (s.nextEnvId + 1) e : Nat) := by
      rw [fork_eq, hx]
      exact toInt_of_lt ((envIdOf_lt_iff _ e).mpr hlt)
    have hpos : 0 < envIdOf (s.nextEnvId + 1) e := by
      unfold envIdOf log2nenv
      omega
    have hback : toULong (fork x0) = envIdOf (s.nextEnvId + 1) e := by
      have h64 := (envIdOf_lt_iff (s.nextEnvId + 1) e).mpr hlt
      rw [hpid, toULong]
      omega
    refine ⟨by rw [hpid]; omega, ?_, ?_, fun b => ?_⟩
    · rw [hx0, hpid]
      change ((envIdOf (s.nextEnvId + 1) e : Nat) : Int) ≠ 0
      omega
    · rw [fork_eq, hx]
      exact not_errorCode_toInt _ e
    · rw [hback]
      exact envid2env_related (by omega) (envx_envIdOf _ e) hid (by rw [hrun]; simp) hpar b

/-- The first fork of the first environment: its child is in slot 1. -/
theorem fork_names_child_first : ∃ (s s' : Kernel) (v : Int),
    s.svc .noStack .envAlloc = .ok (.ret v, s') ∧ ∀ x0, toInt x0 = v → s'.NamesChild 1 (fork x0) := by
  obtain ⟨s₀, s, base, n, ρ, _, _, h, hk⟩ := firstEnv_left (k := 1) (by decide)
  obtain ⟨p, q, _, t, rfl, hf⟩ := h.bareFork (by omega) 1
  have hcur : ({ s with nextEnvId := 1 } : Kernel).curenv = some 0 := h.cur
  have hv := svc_envAlloc (r := .noStack) hcur hf
  exact ⟨_, _, _, hv, (fork_names_child hcur (show 1 < 2 ^ 52 by decide) hf hv).mpr
    (show 1 + 1 < 2 ^ 20 by decide)⟩

/-- **The value does not always name the child.**  After 2^20 - 1 calls of `mkenvid` the id of the
next environment is 2^31 plus its slot, and the parent is given a negative number. -/
theorem fork_names_nobody : ¬ ∀ (s s' : Kernel) (r : Regs) (c e : Slot) (v : Int),
    s.curenv = some c → s.nextEnvId < 2 ^ 52 → (s.trapped r).forkEnv c = .ok (.inr e, s') →
    s.svc r .envAlloc = .ok (.ret v, s') → ∀ x0, toInt x0 = v → s'.NamesChild e (fork x0) := by
  intro hall
  obtain ⟨s₀, s, base, n, ρ, _, _, h, hk⟩ := firstEnv_left (k := 1) (by decide)
  obtain ⟨p, q, _, t, rfl, hf⟩ := h.bareFork (by omega) (2 ^ 20 - 1)
  have hcur : ({ s with nextEnvId := 2 ^ 20 - 1 } : Kernel).curenv = some 0 := h.cur
  have hv := svc_envAlloc (r := .noStack) hcur hf
  have hid := (forkEnv_child (s := { s with
    nextEnvId := 2 ^ 20 - 1, kernelFrame := saveall syncStack .noStack }) h.cur hf).1
  have hpos := (hall _ _ _ _ _ _ hcur (show 2 ^ 20 - 1 < 2 ^ 52 by decide) hf hv _ rfl).pos
  rw [fork_eq, hid, mkenvid_eq_mod] at hpos
  exact absurd hpos (show ¬ 0 < toInt (envIdOf ((2 ^ 20 - 1 + 1) % 2 ^ 53) 1) by decide)

end Kernel

end RaspiOS
