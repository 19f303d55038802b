/-
# Who is blocked in `sys_ipc_recv`

`sys_ipc_recv` sets `env_ipc_recving` and `ENV_NOT_RUNNABLE` together, `sys_ipc_can_send` clears both
together and takes the flag for a sign that its target waits.  Two operations write one of the two
alone.  `sys_set_env_status` makes a blocked receiver `RUNNABLE` and leaves the flag; `env_alloc`
gives a slot a new status and leaves the flag of its last owner.

`LastCall` is the history the flag should tell of: the last system call that the environment itself
has made since its slot was allocated, and whether it has returned.  Along runs without those two
steps (`KeepsReceivers`) the flag means what a sender takes it for (`receivers_blocked`); each of the
two breaks it at once (`ReceiversBlocked.broken`).  Both fields are memory: the runs are runs of the
machine of `EnvTable.lean`, by steps that keep to the user half.
-/
import RaspiOS.Status

set_option autoImplicit false

namespace RaspiOS

open LinkedList

/-- A system call and whether it has returned. -/
structure LastCall where
  call : Syscall
  returned : Bool

/-- It is a `sys_ipc_recv` that has not returned. -/
def InRecv (o : Option LastCall) : Prop :=
  ∃ dstva, o = some ⟨.ipcRecv dstva, false⟩

namespace Kernel

/-- How a step updates the last calls: a slot that `env_alloc` takes has made none, the caller of a
system call has made that one, and a call has returned when its caller runs. -/
def lastCalls (s : Kernel) (ev : Event) (s' : Kernel) (g : Slot → Option LastCall) (e : Slot) :
    Option LastCall :=
  let made :=
    if s'.nextEnvId ≠ s.nextEnvId ∧ s.envFreeList.first () = some e then none
    else
      match ev with
      | .svc _ call => if s.curenv = some e then some ⟨call, false⟩ else g e
      | _ => g e
  if s'.curenv = some e then made.map fun c => { c with returned := true } else made

/-- **The receive flag of a live environment means that it is blocked** in its own `sys_ipc_recv`. -/
def ReceiversBlocked (s : Kernel) (g : Slot → Option LastCall) : Prop :=
  ∀ e, (s.envs e).envStatus ≠ .free → (s.envs e).envIpcRecving ≠ 0 →
    (s.envs e).envStatus = .notRunnable ∧ InRecv (g e)

/-- **A send that returns 0 has reached a receiver.** -/
def SendsReachReceivers (R : Records) (s : Kernel) (g : Slot → Option LastCall) : Prop :=
  ∀ r envid value srcva perm k, R.ipcCanSend { s with kernelFrame := saveall syncStack r } envid
      value srcva perm = .ok (.ret 0, k) → ∃ e, s.envid2env envid false = some e ∧ InRecv (g e)

/-- The step makes no receiver `RUNNABLE` by `sys_set_env_status`, and if it allocates a slot, the
last owner of the slot was not receiving. -/
def KeepsReceivers (x : Kernel × (Slot → Option LastCall)) : Event → Prop
  | .svc _ (.setEnvStatus envid w) => ∀ e, EnvStatus.ofWord w = some .runnable →
      x.1.envid2env envid false = some e → (x.1.envs e).envIpcRecving = 0
  | .svc _ .envAlloc => ∀ e, x.1.envFreeList.first () = some e → (x.1.envs e).envIpcRecving = 0
  | .create _ _ => ∀ e, x.1.envFreeList.first () = some e → (x.1.envs e).envIpcRecving = 0
  | _ => True

/-! ## 1. The history -/

variable {s s' : Kernel} {ev : Event} {g : Slot → Option LastCall} {e : Slot}

/-- Slots that neither ran before nor run now, and were not allocated, have the history they had. -/
theorem lastCalls_keep (hnew : s'.nextEnvId = s.nextEnvId ∨ s.envFreeList.first () ≠ some e)
    (hc : s.curenv ≠ some e) (hc' : s'.curenv ≠ some e) : lastCalls s ev s' g e = g e := by
  have hnot : ¬ (s'.nextEnvId ≠ s.nextEnvId ∧ s.envFreeList.first () = some e) := by
    rintro ⟨h1, h2⟩
    rcases hnew with hnew | hnew
    · exact h1 hnew
    · exact hnew h2
  simp only [lastCalls, if_neg hnot, if_neg hc']
  cases ev with
  | svc r call => simp only [if_neg hc]
  | create _ _ => rfl
  | irq _ => rfl
  | store _ _ => rfl

/-- A caller that does not run on has made the call. -/
theorem lastCalls_caller {r : Regs} {call : Syscall} (hnew : s'.nextEnvId = s.nextEnvId)
    (hc : s.curenv = some e) (hc' : s'.curenv ≠ some e) :
    lastCalls s (.svc r call) s' g e = some ⟨call, false⟩ := by
  simp only [lastCalls, hnew, ne_eq, not_true, false_and, if_false, if_neg hc', if_pos hc]

/-- A caller that runs on has made the call, and the call has returned. -/
theorem lastCalls_return {r : Regs} {call : Syscall} (hnew : s'.nextEnvId = s.nextEnvId)
    (hc : s.curenv = some e) (hc' : s'.curenv = some e) :
    lastCalls s (.svc r call) s' g e = some ⟨call, true⟩ := by
  simp only [lastCalls, hnew, ne_eq, not_true, false_and, if_false, if_pos hc', if_pos hc]
  rfl

/-! ## 2. The invariant -/

/-- A slot with the flag does not run, cannot be chosen, and if it is in use it is blocked. -/
structure RecvInv (s : Kernel) (g : Slot → Option LastCall) : Prop where
  idle : ∀ e, (s.stat e).2 ≠ 0 → s.curenv ≠ some e
  blocked : ∀ e, (s.stat e).2 ≠ 0 → (s.stat e).1 ≠ .runnable
  call : ∀ e, (s.stat e).2 ≠ 0 → (s.stat e).1 = .notRunnable → InRecv (g e)

namespace RecvInv

theorem ofBoot {L : Layout} {s : Kernel} (h : EnvBoot L s) : RecvInv s fun _ => none := by
  have hzero : ∀ e, (s.stat e).2 = 0 := by
    intro e
    simp only [stat, h.envs e]
    rfl
  exact ⟨fun e he => absurd (hzero e) he, fun e he => absurd (hzero e) he,
    fun e he => absurd (hzero e) he⟩

/-- What runs has no flag. -/
theorem running (h : RecvInv s g) (hc : s.curenv = some e) : (s.stat e).2 = 0 := by
  by_contra hne
  exact h.idle e hne hc

/-- What can be chosen has no flag. -/
theorem runnable (h : RecvInv s g) (hr : (s.stat e).1 = .runnable) : (s.stat e).2 = 0 := by
  by_contra hne
  exact h.blocked e hne hr

/-- **The rule for steps.**  A slot with the flag has either kept it, without being allocated, chosen
or woken, or it has just been blocked. -/
theorem keep (h : RecvInv s g) (hstep : ∀ e, (s'.stat e).2 ≠ 0 →
    ((s.stat e).2 ≠ 0 ∧ s'.curenv ≠ some e ∧ (s'.stat e).1 ≠ .runnable ∧
      ((s'.stat e).1 = .notRunnable → (s.stat e).1 = .notRunnable) ∧
      (s'.nextEnvId = s.nextEnvId ∨ s.envFreeList.first () ≠ some e)) ∨
    (s'.curenv ≠ some e ∧ (s'.stat e).1 ≠ .runnable ∧ InRecv (lastCalls s ev s' g e))) :
    RecvInv s' (lastCalls s ev s' g) where
  idle := by
    intro e he
    rcases hstep e he with ⟨_, hc, _⟩ | ⟨hc, _⟩
    · exact hc
    · exact hc
  blocked := by
    intro e he
    rcases hstep e he with ⟨_, _, hr, _⟩ | ⟨_, hr, _⟩
    · exact hr
    · exact hr
  call := by
    intro e he hst
    rcases hstep e he with ⟨hrecv, hc, _, hold, hnew⟩ | ⟨_, _, hin⟩
    · rw [lastCalls_keep hnew (h.idle e hrecv) hc]
      exact h.call e hrecv (hold hst)
    · exact hin

/-- A step that writes one slot. -/
theorem update (h : RecvInv s g) {a : Slot} {x : EnvStatus × Nat}
    (hstat : s'.stat = Function.update s.stat a x)
    (hcur : ∀ e, (s.stat e).2 ≠ 0 → e ≠ a → s'.curenv ≠ some e)
    (hnew : s'.nextEnvId = s.nextEnvId ∨ s.envFreeList.first () = some a)
    (ha : x.2 ≠ 0 → ((s.stat a).2 ≠ 0 ∧ s'.curenv ≠ some a ∧ x.1 ≠ .runnable ∧
      (x.1 = .notRunnable → (s.stat a).1 = .notRunnable) ∧ s'.nextEnvId = s.nextEnvId) ∨
      (s'.curenv ≠ some a ∧ x.1 ≠ .runnable ∧ InRecv (lastCalls s ev s' g a))) :
    RecvInv s' (lastCalls s ev s' g) := by
  refine h.keep fun e he => ?_
  rw [hstat] at he ⊢
  rcases eq_or_ne e a with rfl | hne
  · rw [Function.update_self] at he ⊢
    rcases ha he with ⟨h1, h2, h3, h4, h5⟩ | h1
    · exact Or.inl ⟨h1, h2, h3, h4, Or.inl h5⟩
    · exact Or.inr h1
  · rw [Function.update_of_ne hne] at he ⊢
    refine Or.inl ⟨he, hcur e he hne, h.blocked e he, id, ?_⟩
    rcases hnew with hnew | hnew
    · exact Or.inl hnew
    · exact Or.inr fun hf => hne (Option.some.inj (hf.symm.trans hnew))

/-- **A step that keeps receivers keeps the invariant.** -/
theorem step (h : RecvInv s g) (hg : KeepsReceivers (s, g) ev) (hst : s.step ev = .ok s') :
    RecvInv s' (lastCalls s ev s' g) := by
  have hchosen : ∀ {n}, (s.stat n).1 = .runnable → ∀ e, (s.stat e).2 ≠ 0 → some n ≠ some e := by
    intro n hn e he hne
    cases hne
    exact he (h.runnable hn)
  cases step_stat hst with
  | stay hstat hsame =>
    refine h.keep fun e he => ?_
    rw [hstat] at he ⊢
    exact Or.inl ⟨he, hsame.cur ▸ h.idle e he, h.blocked e he, id, Or.inl hsame.next⟩
  | @take _ _ a st hev hf hst' hstat hcur hnext hlist =>
    refine h.update hstat (fun e he _ => hcur ▸ h.idle e he) (Or.inr hf) fun ha => ?_
    refine absurd ?_ ha
    cases ev with
    | create _ _ => exact hg a hf
    | svc r call =>
      cases call with
      | envAlloc => exact hg a hf
      | _ => cases hev
    | irq _ => cases hev
    | store _ _ => cases hev
  | run hy hn hstat hturn hlist =>
    refine h.keep fun e he => ?_
    rw [hstat] at he ⊢
    exact Or.inl ⟨he, hturn.cur ▸ hchosen hn e he, h.blocked e he, id, Or.inl hturn.next⟩
  | @free _ _ _ a hres hc hstat hcur hnext hlist =>
    refine h.update hstat (fun e he _ => hcur ▸ h.idle e he) (Or.inl hnext) fun ha => ?_
    exact Or.inl ⟨ha, hcur ▸ hc, by simp, by simp, hnext⟩
  | @freeSelf _ _ _ a n hres hc hne hn hstat hturn hlist =>
    refine h.update hstat (fun e he _ => hturn.cur ▸ hchosen hn e he) (Or.inl hturn.next)
      fun ha => ?_
    exact absurd (h.running hc) ha
  | @set r envid w _ st a hw hres hstat hsame =>
    refine h.update hstat (fun e he _ => hsame.cur ▸ h.idle e he) (Or.inl hsame.next) fun ha => ?_
    refine Or.inl ⟨ha, hsame.cur ▸ h.idle a ha, ?_, fun hn => ?_, hsame.next⟩
    · rintro rfl
      exact ha (hg a hw hres)
    · -- a slot that was resolved and does not run is in use
      rcases resolve_live hres with hc | hlive
      · exact absurd (h.running hc) ha
      · have hblocked := h.blocked a ha
        change (s.envs a).envStatus ≠ .runnable at hblocked
        change (s.envs a).envStatus = .notRunnable
        cases hstatus : (s.envs a).envStatus with
        | free => exact absurd hstatus hlive
        | runnable => exact absurd hstatus hblocked
        | notRunnable => rfl
  | @recv r dstva _ c n hd hc hne hn hstat hturn hlist =>
    have hother : s'.curenv ≠ some c := by
      rw [hturn.cur]
      exact fun hcn => hne (Option.some.inj hcn)
    refine h.update hstat (fun e he _ => hturn.cur ▸ hchosen hn e he) (Or.inl hturn.next)
      fun _ => Or.inr ⟨hother, by simp, dstva, lastCalls_caller hturn.next hc hother⟩
  | @send r envid value srcva perm _ a hres hst' hrecv hstat hsame =>
    refine h.update hstat (fun e he _ => hsame.cur ▸ h.idle e he) (Or.inl hsame.next)
      fun ha => absurd rfl ha

theorem receiversBlocked (h : RecvInv s g) : s.ReceiversBlocked g := by
  intro e hlive hrecv
  have hblocked := h.blocked e hrecv
  change (s.envs e).envStatus ≠ .runnable at hblocked
  have hst : (s.envs e).envStatus = .notRunnable := by
    cases hstatus : (s.envs e).envStatus with
    | free => exact absurd hstatus hlive
    | runnable => exact absurd hstatus hblocked
    | notRunnable => rfl
  exact ⟨hst, h.call e hrecv hst⟩

/-- The table written out has the same flags. -/
theorem flush (h : RecvInv s g) (R : Records) : RecvInv (R.flush s) g :=
  ⟨h.idle, h.blocked, h.call⟩

end RecvInv

/-- A send asks for the flag and the status. -/
theorem ReceiversBlocked.sends (h : s.ReceiversBlocked g) (R : Records) :
    s.SendsReachReceivers R g := by
  intro r envid value srcva perm k hk
  obtain ⟨e, hres, hst, hrecv⟩ := Records.ipcCanSend_ok hk
  refine ⟨e, hres, (h e ?_ hrecv).2⟩
  intro hf
  cases hst.symm.trans hf

/-! ## 3. Runs -/

/-- **A send only reaches a waiting receiver**, in every state that a run of tame steps reaches from
boot, if no step of it makes a receiver `RUNNABLE` by `sys_set_env_status` or allocates the slot of
one. -/
theorem receivers_blocked {L : Layout} {H : ListHeads L} {ram : Mem} {R : Records} {s₀ s : Kernel}
    {g : Slot → Option LastCall} {es : List Event} (hclean : CleanRam L ram)
    (hboot : bootInRam L H ram = .ok (R, s₀))
    (hr : Run (Run.recording R.step lastCalls) (fun x ev => x.1.Tame ev ∧ KeepsReceivers x ev)
      (s₀, fun _ => none) es (s, g)) : s.ReceiversBlocked g ∧ s.SendsReachReceivers R g := by
  have hinv := Records.invariantRecorded hclean hboot hr (RecvInv.ofBoot (bootInRam_envBoot hboot))
    fun _ _ _ _ h hg hst => (h.step hg hst).flush R
  exact ⟨hinv.receiversBlocked, hinv.receiversBlocked.sends R⟩

/-- A slot that is allocated with the flag set is not blocked. -/
theorem not_blocked_of_taken (st : EnvStatus) (hf : s.envFreeList.first () = some e)
    (hst : st ≠ .free) (hstat : s'.stat e = (st, (s.stat e).2)) (hrecv : (s.stat e).2 ≠ 0)
    (hnext : s'.nextEnvId = s.nextCounter) : ¬ s'.ReceiversBlocked (lastCalls s ev s' g) := by
  intro hblocked
  have hlive : (s'.envs e).envStatus = st := congrArg Prod.fst hstat
  have hflag : (s'.envs e).envIpcRecving = (s.stat e).2 := congrArg Prod.snd hstat
  obtain ⟨_, d, hd⟩ := hblocked e (by rw [hlive]; exact hst) (by rw [hflag]; exact hrecv)
  have hnew : s'.nextEnvId ≠ s.nextEnvId ∧ s.envFreeList.first () = some e :=
    ⟨by rw [hnext]; exact nextCounter_ne s, hf⟩
  simp only [lastCalls, if_pos hnew, Option.map_none, ite_self] at hd
  cases hd

/-- **The two steps break it at once.** -/
theorem ReceiversBlocked.broken (hst : s.step ev = .ok s') (hbad : ¬ KeepsReceivers (s, g) ev) :
    ¬ s'.ReceiversBlocked (lastCalls s ev s' g) := by
  cases ev with
  | create binary priority =>
    obtain ⟨a, p, q, hf, _, hcase⟩ := envCreatePriority_ok hst
    have hrecv : (s.stat a).2 ≠ 0 := fun h0 => hbad fun e he =>
      Option.some.inj (hf.symm.trans he) ▸ h0
    refine not_blocked_of_taken .runnable hf (by simp) ?_ hrecv ?_
    · rcases hcase with ⟨_, rfl⟩ | ⟨_, _, _, _, _, _, rfl⟩ <;>
        simp [stat, schedInsertHead, allocated, freshEnv]
    · rcases hcase with ⟨_, rfl⟩ | ⟨_, _, _, _, _, _, rfl⟩ <;> rfl
  | irq r => exact absurd trivial hbad
  | store va w => exact absurd trivial hbad
  | svc r call =>
    obtain ⟨⟨x, t⟩, hs, rfl⟩ := Except.map_eq_ok_iff.mp hst
    unfold svc at hs
    split at hs
    · cases hs
    rename_i hcur
    cases call with
    | envAlloc =>
      simp only [syscall, sysEnvAlloc] at hs
      split at hs
      · cases hs
      · rename_i c hc
        obtain ⟨⟨o, u⟩, hu, h1⟩ := Except.bind_eq_ok_iff.mp hs
        have ht : t = u := by
          rcases o with v | e <;> cases h1 <;> rfl
        subst ht
        rcases forkEnv_ok hu with ⟨_, rfl, hnone⟩ | ⟨a, p, q, v, phys, hf, _, _, _, rfl⟩
        · refine absurd (fun e he => ?_) hbad
          cases hnone.symm.trans he
        · have hrecv : (s.stat a).2 ≠ 0 := fun h0 => hbad fun e he =>
            Option.some.inj (hf.symm.trans he) ▸ h0
          refine not_blocked_of_taken (if v < 0 then .notRunnable else .runnable) hf
            (by split <;> simp) ?_ hrecv rfl
          simp [stat, forked, allocated, freshEnv]
    | setEnvStatus envid w =>
      intro hblocked
      refine hbad fun e hw hres => ?_
      by_contra hrecv
      obtain ⟨hstat, _⟩ := stat_setEnvStatus hw hres hst
      have hself := congrFun hstat e
      rw [Function.update_self] at hself
      have hlive : (t.envs e).envStatus = .runnable := congrArg Prod.fst hself
      have hflag : (t.envs e).envIpcRecving = (s.stat e).2 := congrArg Prod.snd hself
      obtain ⟨hnot, _⟩ := hblocked e (by rw [hlive]; simp) (by rw [hflag]; exact hrecv)
      cases hlive.symm.trans hnot
    | _ => exact absurd trivial hbad

/-! ## 4. The two kinds of runs -/

/-- **A receiver**: the first of two environments has called `sys_ipc_recv`, the second runs. -/
theorem receiver_reached : ∃ R s₀ es s, bootInRam image imageHeads coldRam = .ok (R, s₀) ∧
    Run R.step (fun t ev => t.Tame ev ∧ KeepsReceivers (t, fun _ => none) ev) s₀ es s ∧
    s.curenv = some 1 ∧ s.stat 0 = (.notRunnable, 1) ∧ s.envid2env 2048 false = some 0 ∧
    ∀ e, e ≠ 0 → e ≠ 1 → (s.stat e).1 ≠ .runnable := by
  obtain ⟨R, s₀, s, base, ρ, hb, hf, hbooted, hr, hsync, h⟩ := secondEnv_inRam
  have hclean : ∀ e, (s₀.stat e).2 = 0 := by
    intro e
    simp only [stat, hbooted.envs e]
    rfl
  obtain ⟨base', hf', _, hin⟩ := bootInRam_spec cleanRam_coldRam hb
  -- nobody receives before the first call
  obtain ⟨hr', _, hflag⟩ : Run R.step (fun t ev => t.Tame ev ∧ KeepsReceivers (t, fun _ => none) ev) s₀
      [.create 0x80000 1, .create 0x80000 1, .irq .zero] s ∧
      (∃ ρ fl, MachineInv R image base' ρ fl s) ∧ ∀ e, (s.stat e).2 = 0 := by
    refine hr.mono_of_invariant
      (I := fun t => (∃ ρ fl, MachineInv R image base' ρ fl t) ∧ ∀ e, (t.stat e).2 = 0)
      ⟨⟨_, _, hin⟩, hclean⟩ fun t ev u hev hI htame hst => ?_
    obtain ⟨⟨ρ, fl, hi⟩, ht⟩ := hI
    obtain ⟨v, ρ', fl', hv, rfl, _, hi'⟩ := hi.step hf' htame hst
    refine ⟨⟨⟨ρ', fl', hi'⟩, fun e => ?_⟩, htame, ?_⟩
    · change (v.stat e).2 = 0
      cases step_stat hv with
      | stay hstat _ => rw [hstat]; exact ht e
      | @take _ _ a st _ _ _ hstat _ _ _ =>
        rw [hstat]
        rcases eq_or_ne e a with rfl | hne
        · rw [Function.update_self]
          exact ht e
        · rw [Function.update_of_ne hne]
          exact ht e
      | run _ _ hstat _ _ => rw [hstat]; exact ht e
      | free | freeSelf | set | recv | send => simp at hev
    · simp only [List.mem_cons, List.not_mem_nil, or_false] at hev
      rcases hev with rfl | rfl | rfl
      · exact fun e _ => ht e
      · exact fun e _ => ht e
      · trivial
  obtain ⟨s', n, hst, hne, hn, hstat, hturn, hid⟩ :=
    step_ipcRecv (e := 1) .zero h.cur (show 0 < utop by decide) (by decide)
      (h.status 1 (Or.inr rfl))
  have hn1 : n = 1 := by
    by_contra hn1
    have hzero := h.other n hne hn1
    change (s.envs n).envStatus = .runnable at hn
    rw [hzero] at hn
    cases hn
  subst hn1
  have hself : s'.stat 0 = (.notRunnable, 1) := by rw [hstat, Function.update_self]
  have htame : s.Tame (.svc .zero (.ipcRecv 0)) := trivial
  have hm := MachineInv.step_ok ⟨h.inv, hsync⟩ hf htame hst
  refine ⟨R, s₀, _, _, hb, hr'.andThen _ hm ⟨htame, trivial⟩, hturn.cur, hself, ?_, fun e he0 he1 => ?_⟩
  · refine envid2env_live (by decide) (by decide) ((hid 0).trans h.id.1) ?_
    have hstatus : (s'.envs 0).envStatus = .notRunnable := congrArg Prod.fst hself
    change (s'.envs 0).envStatus ≠ .free
    rw [hstatus]
    simp
  · change (s'.stat e).1 ≠ .runnable
    rw [hstat, Function.update_of_ne he0]
    simp only [stat, h.other e he0 he1]
    exact fun hr => by cases hr

/-- The receiver can be reached, and only it. -/
theorem receivers_blocked_second : ∃ (R : Records) (s : Kernel) (g : Slot → Option LastCall),
    R.TameReachable s ∧ s.stat 0 = (.notRunnable, 1) ∧ s.ReceiversBlocked g ∧
    s.SendsReachReceivers R g := by
  obtain ⟨R, s₀, es, s, hb, hr, _, hstat, _, _⟩ := receiver_reached
  obtain ⟨g, hr'⟩ := hr.recorded lastCalls fun _ => none
  have hguard : Run (Run.recording R.step lastCalls) (fun x ev => x.1.Tame ev ∧ KeepsReceivers x ev)
      (s₀, fun _ => none) es (s, g) := by
    refine hr'.mono fun x ev hg => ⟨hg.1, ?_⟩
    cases ev with
    | svc r call => cases call <;> exact hg.2
    | create _ _ => exact hg.2
    | irq _ => trivial
    | store _ _ => trivial
  exact ⟨R, s, g, .ofImage hb (hr.mono fun _ _ hg => hg.1), hstat,
    receivers_blocked cleanRam_coldRam hb hguard⟩

/-- `sys_ipc_can_send` without a page, to a slot that looks like a receiver. -/
theorem sysIpcCanSend_bare {c : Slot} {envid : Nat} (value : Nat) (hc : s.curenv = some c)
    (hres : s.envid2env envid false = some e) (hst : (s.stat e).1 = .notRunnable)
    (hrecv : (s.stat e).2 ≠ 0) :
    s.sysIpcCanSend envid value 0 0 = .ok (.ret 0, s.ipcDeliver c e value 0) := by
  have hwaits : ¬ ((s.envs e).envStatus ≠ .notRunnable ∨ (s.envs e).envIpcRecving = 0) := by
    rintro (h | h)
    · exact h hst
    · exact hrecv h
  have hutop : ¬ utop ≤ 0 := by decide
  unfold sysIpcCanSend
  split
  · rename_i hnone
    cases hc.symm.trans hnone
  · rename_i c' hcc
    cases hc.symm.trans hcc
    split
    · rename_i hnone
      cases hres.symm.trans hnone
    · rename_i e' he'
      cases hres.symm.trans he'
      rw [if_neg hwaits, if_neg hutop, if_neg (by simp)]

/-- A state and a history that some run of tame steps reaches from boot. -/
def CallReachable (R : Records) (s : Kernel) (g : Slot → Option LastCall) : Prop :=
  ∃ (L : Layout) (H : ListHeads L) (ram : Mem) (s₀ : Kernel) (es : List Event), CleanRam L ram ∧
    bootInRam L H ram = .ok (R, s₀) ∧
    Run (Run.recording R.step lastCalls) (fun x ev => x.1.Tame ev) (s₀, fun _ => none) es (s, g)

namespace CallReachable

variable {R : Records}

theorem tameReachable (h : CallReachable R s g) : R.TameReachable s := by
  obtain ⟨L, H, ram, s₀, es, hclean, hb, hr⟩ := h
  exact ⟨L, H, ram, s₀, es, hclean, hb, hr.forget fun _ _ hg => hg⟩

theorem step (h : CallReachable R s g) (htame : s.Tame ev) (hst : s.step ev = .ok s') :
    CallReachable R (R.flush s') (lastCalls s ev s' g) := by
  have hm := (h.tameReachable.step_ok htame hst).1
  obtain ⟨L, H, ram, s₀, es, hclean, hb, hr⟩ := h
  exact ⟨L, H, ram, s₀, _, hclean, hb, hr.andThen ev (Run.recording_ok lastCalls g hm) htame⟩

/-- The machine makes the call. -/
theorem send {envid : Nat} (h : CallReachable R s g) (value : Nat) (hc : s.curenv ≠ none)
    (hres : s.envid2env envid false = some e) (hst : (s.stat e).1 = .notRunnable)
    (hrecv : (s.stat e).2 ≠ 0) : ∃ k, R.ipcCanSend { s with kernelFrame := saveall syncStack .zero }
      envid value 0 0 = .ok (.ret 0, k) := by
  obtain ⟨c, hc'⟩ := Option.ne_none_iff_exists'.mp hc
  obtain ⟨L, base, ρ, fl, hf, hin⟩ := MachineInv.ofReachable h.tameReachable
  let k : Kernel := { s with kernelFrame := saveall syncStack .zero }
  have hk : MachineInv R L base ρ fl k := ⟨hin.inv.withFrames _ _, hin.synced⟩
  have htame : k.TameCall .zero (.ipcCanSend envid value 0 0) := fun hne => absurd rfl hne
  have hbare := sysIpcCanSend_bare (s := k) value hc' hres hst hrecv
  refine ⟨R.flush (k.ipcDeliver c e value 0), (hk.ipcCanSend hf htame).trans ?_⟩
  rw [hbare]
  rfl

end CallReachable

/-- **The flag can mean nothing.**  The second environment makes the receiver `RUNNABLE` with
`sys_set_env_status(2048, ENV_RUNNABLE)` and receives itself; the first one, back from its
`sys_ipc_recv`, gives itself `ENV_NOT_RUNNABLE` and is sent a message, by itself. -/
theorem receivers_not_blocked : (¬ ∀ (R : Records) (s : Kernel) (g : Slot → Option LastCall),
      CallReachable R s g → s.ReceiversBlocked g) ∧
    ¬ ∀ (R : Records) (s : Kernel) (g : Slot → Option LastCall), CallReachable R s g →
      s.SendsReachReceivers R g := by
  obtain ⟨R, s₀, es, s, hb, hr, hc, hstat, hres, hother⟩ := receiver_reached
  obtain ⟨g, hr'⟩ := hr.recorded lastCalls fun _ => none
  have h0 : CallReachable R s g := ⟨image, imageHeads, coldRam, s₀, es, cleanRam_coldRam, hb,
    hr'.mono fun _ _ hg => hg.1⟩
  have hw : EnvStatus.ofWord 1 = some .runnable := rfl
  obtain ⟨s₁, hst⟩ : ∃ s₁, s.step (.svc .zero (.setEnvStatus 2048 1)) = .ok s₁ :=
    ⟨_, step_setEnvStatus .zero hc hw hres⟩
  have ht : s.Tame (.svc .zero (.setEnvStatus 2048 1)) := trivial
  have h1 := h0.step ht hst
  constructor
  · intro hall
    have hblocked := hall R _ _ h1
    refine ReceiversBlocked.broken hst (fun hkeep => ?_) hblocked
    have hflag : (s.envs 0).envIpcRecving = 1 := congrArg Prod.snd hstat
    cases hflag.symm.trans (hkeep 0 rfl hres)
  · intro hall
    obtain ⟨hstat1, hsame1⟩ := stat_setEnvStatus hw hres hst
    have hfirst : (R.flush s₁).stat 0 = (.runnable, 1) := by
      change s₁.stat 0 = _
      rw [hstat1, Function.update_self, hstat]
    have hcur1 : (R.flush s₁).curenv = some 1 := hsame1.cur.trans hc
    obtain ⟨s₂, n, hst₂, hne, hn, hstat2, hturn2, _⟩ :=
      step_ipcRecv (e := 0) .zero hcur1 (show 0 < utop by decide) (by decide)
        (congrArg Prod.fst hfirst)
    -- only the first environment is left to run
    have hn0 : n = 0 := by
      by_contra hn0
      change (s₁.stat n).1 = .runnable at hn
      rw [hstat1, Function.update_of_ne hn0] at hn
      exact hother n hn0 hne hn
    subst hn0
    have ht₂ : (R.flush s₁).Tame (.svc .zero (.ipcRecv 0)) := trivial
    have h2 := h1.step ht₂ hst₂
    have hfirst2 : (R.flush s₂).stat 0 = (.runnable, 1) := by
      change s₂.stat 0 = _
      rw [hstat2, Function.update_of_ne (by decide), hfirst]
    have hcur2 : (R.flush s₂).curenv = some 0 := hturn2.cur
    have hself : (R.flush s₂).envid2env 0 false = some 0 := by rw [envid2env_zero, hcur2]
    have hw₃ : EnvStatus.ofWord 2 = some .notRunnable := rfl
    obtain ⟨s₃, hst₃⟩ : ∃ s₃, (R.flush s₂).step (.svc .zero (.setEnvStatus 0 2)) = .ok s₃ :=
      ⟨_, step_setEnvStatus .zero hcur2 hw₃ hself⟩
    obtain ⟨hstat3, hsame3⟩ := stat_setEnvStatus hw₃ hself hst₃
    have ht₃ : (R.flush s₂).Tame (.svc .zero (.setEnvStatus 0 2)) := trivial
    have h3 := h2.step ht₃ hst₃
    have hcur3 : (R.flush s₃).curenv = some 0 := hsame3.cur.trans hcur2
    have hfirst3 : (R.flush s₃).stat 0 = (.notRunnable, 1) := by
      change s₃.stat 0 = _
      rw [hstat3, Function.update_self, hfirst2]
    have hself3 : (R.flush s₃).envid2env 0 false = some 0 := by rw [envid2env_zero, hcur3]
    obtain ⟨k, hk⟩ := h3.send 7 (by rw [hcur3]; simp) hself3 (congrArg Prod.fst hfirst3)
      (by rw [hfirst3]; simp)
    obtain ⟨e, he, d, hd⟩ := hall R _ _ h3 _ _ _ _ _ _ hk
    cases hself3.symm.trans he
    rw [lastCalls_return hsame3.next hcur2 hcur3] at hd
    cases hd

end Kernel

end RaspiOS
