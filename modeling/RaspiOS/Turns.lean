/-
# Turns, in runs of the whole kernel

`Fairness.lean` is about sequences of calls of `sched_yield`.  In the kernel these calls come from
four places (a timer interrupt, `sys_yield`, `sys_ipc_recv` and an environment that destroys itself)
and everything else happens between them.  A step is a TURN when it enters the scheduler; `step_turn`
says once what a turn does, and that every other step leaves `curenv`, `pos` and the counters
`env_runs` of all environments but a new one alone.

A record of the turns and of the allocations, newest first, is carried along the run.  From boot on
it determines `curenv`, `pos` and every `env_runs` (`sched_record_agrees`), and in any stretch of a
run that leaves an environment `RUNNABLE` the turns of the others are fair to it (`turns_fair`).  The
cursor, the counters and `curenv` are memory: the runs take tame steps, which store and enter pages in
the user half only.
-/
import RaspiOS.Fairness
import RaspiOS.EnvId

set_option autoImplicit false

namespace RaspiOS

open RoundRobin (Serves Nears)

namespace Kernel

variable {s t : Kernel} {ev : Event} {e i : Slot}

/-! ## 1. What a turn is -/

/-- The step enters `sched_yield`. -/
def entersSched (s : Kernel) : Event → Bool
  | .irq _ => true
  | .svc _ .yield => true
  | .svc _ (.ipcRecv dstva) => decide (dstva < utop)
  | .svc _ (.envDestroy envid) => decide (s.envid2env envid true = s.curenv)
  | _ => false

/-- The slot that the step from `s` to `t` has allocated. -/
def newSlot (s t : Kernel) : Option Slot :=
  if t.nextEnvId = s.nextEnvId then none else s.envFreeList.first ()

/-- **What a turn does**: round robin from the cursor, over the environments that are `RUNNABLE` when
the step is over. -/
structure Turn (s t : Kernel) (e : Slot) : Prop where
  serves : Serves t.Runnable (cursor s.pos) e
  cur : t.curenv = some e
  pos : t.pos = e.val
  runs : ∀ e', (t.envs e').envRuns
    = if e' = e then ((s.envs e').envRuns + 1) % 2 ^ 64 else (s.envs e').envRuns

/-- A step without a turn. -/
structure NoTurn (s t : Kernel) : Prop where
  cur : t.curenv = s.curenv
  pos : t.pos = s.pos
  runs : ∀ e, (t.envs e).envRuns = if s.newSlot t = some e then 0 else (s.envs e).envRuns

/-- The scheduler, entered in a state with the same cursor and the same counters. -/
theorem turn_of_schedYield {k : Kernel} (h : k.schedYield = .ok t) (hpos : k.pos = s.pos)
    (hruns : ∀ e, (k.envs e).envRuns = (s.envs e).envRuns) : ∃ e, Turn s t e := by
  obtain ⟨e, hserves, rfl⟩ := schedLoop_serves h
  refine ⟨e, ⟨?_, curenv_envRun _ _, pos_envRun _ _, fun e' => ?_⟩⟩
  · have hready : ({ k with pos := (e.val : Int) }.envRun e).Runnable = k.Runnable := by
      funext e'
      simp only [Runnable, envs_envRun]
    rw [hready, ← hpos]
    exact hserves
  · rw [envs_envRun]
    simp only [hruns]

theorem turn_ipcRecv {r : Regs} {dstva : Nat} (hd : dstva < utop)
    (h : s.step (.svc r (.ipcRecv dstva)) = .ok t) : ∃ e, Turn s t e := by
  obtain ⟨⟨x, k⟩, hs, rfl⟩ := Except.map_eq_ok_iff.mp h
  unfold svc at hs
  split at hs
  · cases hs
  change ({ s with kernelFrame := saveall syncStack r } : Kernel).sysIpcRecv dstva = _ at hs
  unfold sysIpcRecv at hs
  split at hs
  · cases hs
  · rename_i c _
    rw [if_neg (not_le.mpr hd)] at hs
    obtain ⟨u, hu, h1⟩ := Except.bind_eq_ok_iff.mp hs
    cases h1
    refine turn_of_schedYield hu rfl fun e => ?_
    rcases eq_or_ne e c with rfl | hne
    · simp [schedRemove]
    · simp [schedRemove, modifyEnv, hne]

theorem turn_envDestroy {r : Regs} {envid : Nat} (hres : s.envid2env envid true = s.curenv)
    (h : s.step (.svc r (.envDestroy envid)) = .ok t) : ∃ e, Turn s t e := by
  obtain ⟨⟨x, k⟩, hs, rfl⟩ := Except.map_eq_ok_iff.mp h
  unfold svc at hs
  split at hs
  · cases hs
  rename_i hcur
  obtain ⟨c, hc⟩ := Option.ne_none_iff_exists'.mp hcur
  have hres' : ({ s with kernelFrame := saveall syncStack r } : Kernel).envid2env envid true
      = some c := hres.trans hc
  change ({ s with kernelFrame := saveall syncStack r } : Kernel).sysEnvDestroy envid = _ at hs
  unfold sysEnvDestroy at hs
  rw [hres'] at hs
  obtain ⟨⟨y, u⟩, hu, h1⟩ := Except.bind_eq_ok_iff.mp hs
  cases h1
  obtain ⟨v, hv, h2⟩ := Except.bind_eq_ok_iff.mp hu
  obtain ⟨phys, _, rfl⟩ := envFree_ok hv
  have hself : (({ s with kernelFrame := saveall syncStack r, phys := phys } : Kernel).freed
      c).curenv = some c := hc
  rw [if_pos hself] at h2
  obtain ⟨w, hw, h3⟩ := Except.bind_eq_ok_iff.mp h2
  cases h3
  refine turn_of_schedYield hw rfl fun e => ?_
  rcases eq_or_ne e c with rfl | hne
  · simp [envs_freed_self]
  · simp [envs_freed_ne _ hne]

/-- Nothing is written but slots whose counters stay. -/
theorem NoTurn.keep (hcur : t.curenv = s.curenv) (hpos : t.pos = s.pos)
    (hnext : t.nextEnvId = s.nextEnvId) (hruns : ∀ e, (t.envs e).envRuns = (s.envs e).envRuns) :
    NoTurn s t := by
  refine ⟨hcur, hpos, fun e => ?_⟩
  rw [hruns, newSlot, if_pos hnext, if_neg (by simp)]

/-- A slot is allocated. -/
theorem NoTurn.take (hf : s.envFreeList.first () = some e) (hcur : t.curenv = s.curenv)
    (hpos : t.pos = s.pos) (hnext : t.nextEnvId = s.nextCounter) (hself : (t.envs e).envRuns = 0)
    (hother : ∀ e', e' ≠ e → (t.envs e').envRuns = (s.envs e').envRuns) : NoTurn s t := by
  have hne : t.nextEnvId ≠ s.nextEnvId := hnext ▸ nextCounter_ne s
  refine ⟨hcur, hpos, fun e' => ?_⟩
  rw [newSlot, if_neg hne, hf]
  rcases eq_or_ne e' e with rfl | hne'
  · rw [if_pos rfl, hself]
  · rw [if_neg (fun hc => hne' (Option.some.inj hc).symm), hother e' hne']

/-- A step that enters the scheduler. -/
theorem step_turn (h : s.step ev = .ok t) (henters : s.entersSched ev = true) :
    ∃ e, Turn s t e := by
  cases ev with
  | create binary priority => cases henters
  | store va w => cases henters
  | irq r => exact turn_of_schedYield h rfl fun _ => rfl
  | svc r call =>
    cases call with
    | yield =>
      obtain ⟨⟨x, k⟩, hs, rfl⟩ := Except.map_eq_ok_iff.mp h
      unfold svc at hs
      split at hs
      · cases hs
      obtain ⟨u, hu, h1⟩ := Except.bind_eq_ok_iff.mp hs
      cases h1
      exact turn_of_schedYield hu rfl fun _ => rfl
    | ipcRecv dstva => exact turn_ipcRecv (of_decide_eq_true henters) h
    | envDestroy envid => exact turn_envDestroy (of_decide_eq_true henters) h
    | _ => cases henters

/-- **Every other step** leaves the cursor and the counters alone. -/
theorem step_noTurn (h : s.step ev = .ok t) (henters : s.entersSched ev = false) : NoTurn s t := by
  cases step_cases h with
  | quiet phys kf tf => exact .keep rfl rfl rfl fun _ => rfl
  | @create _ _ e p phys kf tf hf =>
    refine .take hf rfl rfl rfl ?_ fun e' he => ?_
    · simp [schedInsertHead, allocated, freshEnv]
    · simp [schedInsertHead, allocated, modifyEnv, withMem, he]
  | @createNoMem _ _ e p phys kf tf hf =>
    refine .take hf rfl rfl rfl ?_ fun e' he => ?_
    · simp [allocated, freshEnv]
    · simp [allocated, modifyEnv, withMem, he]
  | switch kf tf pos n hy hn =>
    cases ev with
    | irq r => cases henters
    | create binary priority => cases hy
    | store va w => cases hy
    | svc r call =>
      cases call with
      | yield => cases henters
      | _ => cases hy
  | @destroy _ envid e phys kf tf hres hc =>
    refine .keep rfl rfl rfl fun e' => ?_
    rcases eq_or_ne e' e with rfl | hne
    · rw [envs_freed_self]
      rfl
    · rw [envs_freed_ne _ hne]
      rfl
  | destroySelf phys kf tf pos n hres hc hn =>
    exact absurd (hres.trans hc.symm) (of_decide_eq_false henters)
  | @handler _ _ _ _ e kf tf hres =>
    refine .keep rfl rfl rfl fun e' => ?_
    rcases eq_or_ne e' e with rfl | hne
    · simp [withMem]
    · simp [modifyEnv, withMem, hne]
  | @fork _ c e p phys kf tf ctf st hc hf hst =>
    refine .take hf rfl rfl rfl ?_ fun e' he => ?_
    · simp [allocated, freshEnv]
    · simp [allocated, modifyEnv, withMem, he]
  | @setStatus _ envid w st e kf tf hw hres =>
    obtain ⟨sched, log, hrel⟩ := (s.withMem s.phys kf tf).relink_eq e st
    rw [hrel]
    refine .keep rfl rfl rfl fun e' => ?_
    rcases eq_or_ne e' e with rfl | hne
    · simp [withMem]
    · simp [modifyEnv, withMem, hne]
  | recv kf tf pos n hc hd hne hn => exact absurd hd (of_decide_eq_false henters)
  | @send _ _ _ _ _ c e phys kf tf hc hres hst hrecv =>
    refine .keep rfl rfl rfl fun e' => ?_
    rcases eq_or_ne e' e with rfl | hne
    · simp [ipcDeliver, schedInsertHead, withMem]
    · simp [ipcDeliver, schedInsertHead, modifyEnv, withMem, hne]

/-! ## 2. The record -/

/-- What the record keeps of a step: a slot was allocated, or an environment was run. -/
inductive SchedEntry where
  | made (e : Slot)
  | ran (e : Slot)
deriving DecidableEq

/-- What the step from `s` to `t` adds to the record. -/
def schedRecord (s : Kernel) (ev : Event) (t : Kernel) (l : List SchedEntry) : List SchedEntry :=
  if s.entersSched ev = true then (t.curenv.map .ran).toList ++ l
  else ((s.newSlot t).map .made).toList ++ l

/-- The turns of a record, newest first. -/
def turnsOf (l : List SchedEntry) : List Slot :=
  l.filterMap fun
    | .ran e => some e
    | .made _ => none

/-- How often slot `e` was run since it was last allocated. -/
def runsSince (e : Slot) (l : List SchedEntry) : Nat :=
  (l.takeWhile (· != .made e)).count (.ran e)

theorem schedRecord_turn (henters : s.entersSched ev = true) (h : Turn s t e)
    (l : List SchedEntry) : schedRecord s ev t l = .ran e :: l := by
  rw [schedRecord, if_pos henters, h.cur]
  rfl

theorem schedRecord_noTurn (henters : s.entersSched ev = false) (l : List SchedEntry) :
    schedRecord s ev t l = ((s.newSlot t).map .made).toList ++ l := by
  rw [schedRecord, henters, if_neg (by simp)]

@[simp] theorem turnsOf_ran (e : Slot) (l : List SchedEntry) :
    turnsOf (.ran e :: l) = e :: turnsOf l := rfl

/-- Allocations are no turns. -/
@[simp] theorem turnsOf_made (o : Option Slot) (l : List SchedEntry) :
    turnsOf ((o.map .made).toList ++ l) = turnsOf l := by
  cases o <;> rfl

theorem runsSince_ran (e e' : Slot) (l : List SchedEntry) :
    runsSince e' (.ran e :: l) = if e' = e then runsSince e' l + 1 else runsSince e' l := by
  unfold runsSince
  rw [List.takeWhile_cons, if_pos (by simp), List.count_cons]
  rcases eq_or_ne e' e with rfl | hne
  · simp
  · simp [hne, Ne.symm hne]

theorem runsSince_made (e' : Slot) (o : Option Slot) (l : List SchedEntry) :
    runsSince e' ((o.map .made).toList ++ l) = if o = some e' then 0 else runsSince e' l := by
  cases o with
  | none => rfl
  | some e =>
    unfold runsSince
    change ((SchedEntry.made e :: l).takeWhile _).count _ = _
    rw [List.takeWhile_cons]
    rcases eq_or_ne e e' with rfl | hne
    · simp
    · simp [hne]

/-- **What the record says of a state.** -/
structure SchedAgrees (s : Kernel) (l : List SchedEntry) : Prop where
  cur : s.curenv = (turnsOf l).head?
  pos : s.pos = (s.curenv.map fun e => (e.val : Int)).getD (-1)
  runs : ∀ e, (s.envs e).envRuns = runsSince e l % 2 ^ 64

theorem SchedAgrees.ofBoot {L : Layout} (h : EnvBoot L s) : SchedAgrees s [] where
  cur := h.curenv
  pos := by rw [h.curenv, h.pos]; rfl
  runs := by
    intro e
    rw [h.envs e]
    rfl

/-- **Every step keeps the record true.** -/
theorem SchedAgrees.step {l : List SchedEntry} (h : SchedAgrees s l) (hst : s.step ev = .ok t) :
    SchedAgrees t (schedRecord s ev t l) := by
  cases henters : s.entersSched ev with
  | true =>
    obtain ⟨e, hturn⟩ := step_turn hst henters
    rw [schedRecord_turn henters hturn]
    refine ⟨hturn.cur, by rw [hturn.pos, hturn.cur]; rfl, fun e' => ?_⟩
    rw [hturn.runs, h.runs, runsSince_ran]
    split
    · exact Nat.mod_add_mod _ _ _
    · rfl
  | false =>
    have hno := step_noTurn hst henters
    rw [schedRecord_noTurn henters]
    refine ⟨?_, by rw [hno.pos, hno.cur, h.pos], fun e => ?_⟩
    · rw [hno.cur, h.cur, turnsOf_made]
    · rw [hno.runs, h.runs, runsSince_made]
      split <;> rfl

/-- The table written out has the same counters. -/
theorem SchedAgrees.flush {l : List SchedEntry} (h : SchedAgrees s l) (R : Records) :
    SchedAgrees (R.flush s) l :=
  ⟨h.cur, h.pos, h.runs⟩

/-- **The record determines who runs, where the cursor stands and what every counter says**, in
every state that a run of tame steps reaches from boot. -/
theorem sched_record_agrees {L : Layout} {H : ListHeads L} {ram : Mem} {R : Records} {s₀ s : Kernel}
    {l : List SchedEntry} {es : List Event} (hclean : CleanRam L ram)
    (hboot : bootInRam L H ram = .ok (R, s₀))
    (hr : Run (Run.recording R.step schedRecord) (fun x ev => x.1.Tame ev) (s₀, []) es (s, l)) :
    SchedAgrees s l :=
  Records.invariantRecorded hclean hboot (hr.mono fun _ _ ht => ⟨ht, trivial⟩)
    (SchedAgrees.ofBoot (bootInRam_envBoot hboot)) fun _ _ _ _ h _ hst => (h.step hst).flush R

/-- Boot, one environment and a timer interrupt: the record says that it was made and ran. -/
theorem sched_record_agrees_first : ∃ (R : Records) (s : Kernel) (l : List SchedEntry),
    R.TameReachable s ∧ SchedAgrees s l ∧ s.curenv = some 0 := by
  obtain ⟨R, s₀, s, base, n, ρ, hb, _, _, hr, _, _, h⟩ := firstEnv_inRam
  have hreach := Records.TameReachable.ofImage hb hr
  obtain ⟨l, hr'⟩ := hr.recorded schedRecord []
  exact ⟨R, s, l, hreach, sched_record_agrees cleanRam_coldRam hb hr', h.cur⟩

/-! ## 3. Fairness -/

/-- The step leaves `i` `RUNNABLE`. -/
def LeavesRunnable (R : Records) (i : Slot) (x : Kernel × List SchedEntry) (ev : Event) : Prop :=
  ∀ t, R.step x.1 ev = .ok t → t.Runnable i

/-- The turns of a stretch come nearer to `i` one after the other, and the cursor stands at the
newest. -/
structure NearsAlong (i : Slot) (s : Kernel) (l : List SchedEntry) : Prop where
  chain : (turnsOf l).IsChain (Nears i)
  cursor : ∀ e ∈ (turnsOf l).head?, cursor s.pos = e

theorem cursor_val (e : Slot) : cursor (e.val : Int) = e := by
  have he := e.isLt
  have hn : (nenv : Int) = 1024 := by decide
  have hval : ((posSlot (((e.val : Int) + nenv) % nenv)).val : Int) = ((e.val : Int) + nenv) % nenv :=
    val_posSlot (Int.emod_nonneg _ (by decide)) (Int.emod_lt_of_pos _ (by decide))
  ext
  rw [hn] at hval
  unfold cursor
  rw [hn]
  omega

theorem NearsAlong.step {l : List SchedEntry} (h : NearsAlong i s l) (hst : s.step ev = .ok t)
    (hi : t.Runnable i) : NearsAlong i t (schedRecord s ev t l) := by
  cases henters : s.entersSched ev with
  | true =>
    obtain ⟨e, hturn⟩ := step_turn hst henters
    rw [schedRecord_turn henters hturn]
    constructor
    · rw [turnsOf_ran, List.isChain_cons]
      refine ⟨fun p hp => ?_, h.chain⟩
      rw [← h.cursor p hp]
      exact hturn.serves.nears hi
    · intro p hp
      obtain rfl := Option.mem_some.mp hp
      rw [hturn.pos, cursor_val]
  | false =>
    have hno := step_noTurn hst henters
    rw [schedRecord_noTurn henters]
    constructor
    · rw [turnsOf_made]
      exact h.chain
    · rw [turnsOf_made, hno.pos]
      exact h.cursor

theorem NearsAlong.flush {l : List SchedEntry} (h : NearsAlong i s l) (R : Records) :
    NearsAlong i (R.flush s) l :=
  ⟨h.chain, h.cursor⟩

/-- **Turns are fair in every run of tame steps.**  In a stretch of such a run all of whose steps leave
`i` `RUNNABLE`, between two turns of `i` no other environment gets two, and fewer than `NENV` pass. -/
theorem turns_fair {R : Records} {s t : Kernel} {i : Slot} {l : List SchedEntry} {es : List Event}
    (hreach : R.TameReachable s) (hr : Run (Run.recording R.step schedRecord)
      (fun x ev => x.1.Tame ev ∧ LeavesRunnable R i x ev) (s, []) es (t, l)) :
    ∀ w, w <:+: turnsOf l → i ∉ w → w.Nodup ∧ w.length < nenv := by
  obtain ⟨L, base, ρ, fl, hf, hin⟩ := MachineInv.ofReachable hreach
  obtain ⟨_, hinv⟩ := hr.invariantRecorded
    (I := fun t l => (∃ ρ fl, MachineInv R L base ρ fl t) ∧ NearsAlong i t l)
    ⟨⟨ρ, fl, hin⟩, .nil, fun _ he => by cases he⟩ fun t l ev u hI hg hst => by
      obtain ⟨⟨ρ, fl, hin⟩, hnear⟩ := hI
      have hi := hg.2 u hst
      obtain ⟨v, ρ', fl', hv, rfl, _, hin'⟩ := hin.step hf hg.1 hst
      exact ⟨⟨ρ', fl', hin'⟩, (hnear.step hv hi).flush R⟩
  intro w hw hi
  have hnear := hinv.chain.infix hw
  have hnodup := RoundRobin.nodup_of_nears hnear hi
  exact ⟨hnodup, RoundRobin.length_lt_of_nodup hnodup hi⟩

/-- A timer interrupt when slot `i` can run. -/
theorem irq_leavesRunnable {R : Records} (hreach : R.TameReachable s) (l : List SchedEntry) (r : Regs)
    (hi : s.Runnable i) : LeavesRunnable R i (s, l) (.irq r) ∧
      ∃ t e, R.step s (.irq r) = .ok t ∧ R.TameReachable t ∧ t.Runnable i ∧
        schedRecord s (.irq r) t l = .ran e :: l := by
  obtain ⟨t, ht⟩ := schedYield_total (s := { s with timeFrame := saveall irqStack r }) hi
  have hst : s.step (.irq r) = .ok t := ht
  have htame : s.Tame (.irq r) := trivial
  obtain ⟨hm, hreach'⟩ := hreach.step_ok htame hst
  have hstay : (R.flush t).Runnable i := by
    obtain ⟨pos, n, _, rfl⟩ := schedYield_ok ht
    change ((Kernel.envRun _ n).envs i).envStatus = .runnable
    rw [envs_envRun]
    exact hi
  obtain ⟨e, hturn⟩ := step_turn hst rfl
  refine ⟨fun u hu => ?_, _, e, hm, hreach', hstay, schedRecord_turn rfl hturn l⟩
  cases hm.symm.trans hu
  exact hstay

/-- Two environments and two timer interrupts. -/
theorem turns_fair_two : ∃ (R : Records) (s t : Kernel) (l : List SchedEntry) (es : List Event),
    R.TameReachable s ∧ Run (Run.recording R.step schedRecord)
      (fun x ev => x.1.Tame ev ∧ LeavesRunnable R 0 x ev) (s, []) es (t, l) ∧
    (turnsOf l).length = 2 ∧ ∀ w, w <:+: turnsOf l → 0 ∉ w → w.Nodup ∧ w.length < nenv := by
  obtain ⟨R, s₀, s, base, ρ, hb, _, _, hr, _, h⟩ := secondEnv_inRam
  have hreach := Records.TameReachable.ofImage hb hr
  have h0 : s.Runnable 0 := h.status 0 (Or.inl rfl)
  obtain ⟨hg, s₁, e₁, hs₁, hreach₁, h1, hl₁⟩ := irq_leavesRunnable hreach [] .zero h0
  obtain ⟨hg₂, s₂, e₂, hs₂, _, _, hl₂⟩ := irq_leavesRunnable hreach₁ [.ran e₁] .zero h1
  have ht : ∀ k : Kernel, k.Tame (.irq .zero) := fun _ => trivial
  have hstep₁ := Run.recording_ok schedRecord [] hs₁
  rw [hl₁] at hstep₁
  have hstep₂ := Run.recording_ok schedRecord [.ran e₁] hs₂
  rw [hl₂] at hstep₂
  have hr₁ : Run (Run.recording R.step schedRecord) (fun x ev => x.1.Tame ev ∧ LeavesRunnable R 0 x ev)
      (s, []) [.irq .zero] (s₁, [.ran e₁]) := Run.single ⟨ht s, hg⟩ hstep₁
  have hr₂ := hr₁.snoc ⟨ht s₁, hg₂⟩ hstep₂
  exact ⟨R, s, s₂, _, _, hreach, hr₂, rfl, turns_fair hreach hr₂⟩

end Kernel

end RaspiOS
