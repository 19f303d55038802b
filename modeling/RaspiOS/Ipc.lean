/-
# Messages are delivered exactly once

`sys_ipc_recv` and `sys_ipc_can_send` of `lib/syscall_all.c`, and the user function `ipc_recv` of
`user/ipc.c` instruction by instruction: after the system call it reads up to three fields of
`curenv`, and it may be preempted between any two of its loads.  Environments also send, yield and
are interrupted, in any order, and memory may change in any way at any time, so that
`page_lookup` and `page_insert` may do what they want.

The state of the system is the kernel, the frame of `ipc_recv` in each environment, and a log, which
nothing reads.  The kernel REFINES the rendezvous of `Lib/Rendezvous.lean`: the log of every run is
accepted by it, and the phase of each party is what `env_status`, `env_ipc_recving`, the mailbox and
the frame say (`Stands`).  Exactly-once delivery is then a fact about the log.
-/
import RaspiOS.Lib.Rendezvous
import RaspiOS.Progress

set_option autoImplicit false

namespace RaspiOS

open Rendezvous (Entry Phase Accepts Answers Matches)

/-! ## 1. `ipc_recv` -/

/-- A call of `ipc_recv`: which of its pointers `whom` and `perm` are not null. -/
structure RecvCall where
  whom : Bool
  perm : Bool
deriving DecidableEq

/-- What a send puts into the mailbox: `env_ipc_value`, `env_ipc_from`, `env_ipc_perm`. -/
structure Message where
  value : Nat
  sender : Nat
  perm : Nat
deriving DecidableEq

/-- What `ipc_recv` hands to its caller: the value, and what it has stored through its pointers. -/
structure Received where
  value : Nat
  whom : Option Nat
  perm : Option Nat
deriving DecidableEq

/-- The result a call should have for a message. -/
def RecvCall.result (c : RecvCall) (m : Message) : Received where
  value := m.value
  whom := if c.whom then some m.sender else none
  perm := if c.perm then some m.perm else none

/-- Where the call stands.  A place with a slot is one between the load of `curenv` and the load of
a field through it. -/
inductive RecvPc where
  | called
  | whomSelf (self : Slot)
  | gotWhom
  | permSelf (self : Slot)
  | gotPerm
  | valueSelf (self : Slot)

/-- A call of `ipc_recv` that has made its system call, with what it has stored so far. -/
structure RecvFrame where
  call : RecvCall
  pc : RecvPc
  whom : Option Nat
  perm : Option Nat

/-- The frame at the system call. -/
def RecvFrame.start (c : RecvCall) : RecvFrame := ⟨c, .called, none, none⟩

/-- The next load of `ipc_recv`, or its return; `self` is what `curenv` holds. -/
def RecvFrame.advance (k : Kernel) (self : Slot) (f : RecvFrame) : RecvFrame ⊕ Received :=
  match f.pc with
  | .called => .inl { f with pc := if f.call.whom then .whomSelf self else .gotWhom }
  | .whomSelf p => .inl { f with whom := some (k.envs p).envIpcFrom, pc := .gotWhom }
  | .gotWhom => .inl { f with pc := if f.call.perm then .permSelf self else .gotPerm }
  | .permSelf p => .inl { f with perm := some (k.envs p).envIpcPerm, pc := .gotPerm }
  | .gotPerm => .inl { f with pc := .valueSelf self }
  | .valueSelf p => .inr ⟨(k.envs p).envIpcValue, f.whom, f.perm⟩

/-! ## 2. The system -/

/-- The kernel, the calls of `ipc_recv` in progress, and the log. -/
structure IpcSystem where
  kernel : Kernel
  frame : Slot → Option RecvFrame
  log : List (Entry Slot RecvCall Message Received)

/-- What can happen. -/
inductive IpcEvent where
  /-- `sys_ipc_recv`, by a call of `ipc_recv` or without one -/
  | recv (r : Regs) (dstva : Nat) (call : Option RecvCall)
  /-- `sys_ipc_can_send` -/
  | canSend (r : Regs) (envid value srcva perm : Nat)
  /-- `sys_yield` -/
  | yield (r : Regs)
  /-- a timer interrupt -/
  | irq (r : Regs)
  /-- the running environment goes on with its call of `ipc_recv` -/
  | goOn
  /-- memory changes -/
  | memory (p : Phys)

namespace IpcSystem

/-- The environment that runs. -/
def running (s : IpcSystem) : Except Halt Slot :=
  match s.kernel.curenv with
  | none => .error .noEnv
  | some c => .ok c

/-- The log entry of a `sys_ipc_can_send` that returned 0. -/
def delivery (s : IpcSystem) (exit : Exit) (envid value perm : Nat) :
    List (Entry Slot RecvCall Message Received) :=
  match exit, s.kernel.curenv, s.kernel.envid2env envid false with
  | .ret 0, some c, some e => [.sent e ⟨value, (s.kernel.envs c).envId, perm⟩]
  | _, _, _ => []

/-- One step. -/
def step (s : IpcSystem) : IpcEvent → Except Halt IpcSystem
  | .recv r dstva call => do
    let c ← s.running
    let (_, k) ← s.kernel.svc r (.ipcRecv dstva)
    return { kernel := k, frame := Function.update s.frame c (call.map .start)
             log := s.log ++ [.began c call] }
  | .canSend r envid value srcva perm => do
    let (exit, k) ← s.kernel.svc r (.ipcCanSend envid value srcva perm)
    return { s with kernel := k, log := s.log ++ s.delivery exit envid value perm }
  | .yield r => do
    let (_, k) ← s.kernel.svc r .yield
    return { s with kernel := k }
  | .irq r => do
    let k ← s.kernel.irq r
    return { s with kernel := k }
  | .goOn => do
    let c ← s.running
    match s.frame c with
    | none => return s
    | some f =>
      match f.advance s.kernel c with
      | .inl f => return { s with frame := Function.update s.frame c (some f) }
      | .inr v => return { s with frame := Function.update s.frame c none
                                  log := s.log ++ [.returned c v] }
  | .memory p => return { s with kernel := { s.kernel with phys := p } }

/-- The running environment is not inside `ipc_recv`. -/
def InUser (s : IpcSystem) : Prop := ∀ c, s.kernel.curenv = some c → s.frame c = none

/-- System calls are made outside `ipc_recv`, which makes only its own, and `dstva` is below
`UTOP`. -/
def Allowed (s : IpcSystem) : IpcEvent → Prop
  | .recv _ dstva _ => dstva < utop ∧ s.InUser
  | .canSend .. => s.InUser
  | .yield _ => s.InUser
  | .irq _ => True
  | .goOn => True
  | .memory _ => True

/-- Every environment is `RUNNABLE` and none is receiving. -/
structure Start (s : IpcSystem) : Prop where
  running : ∀ c, s.kernel.curenv = some c → (s.kernel.envs c).envStatus = .runnable
  idle : ∀ e, (s.kernel.envs e).envStatus = .free ∨
    ((s.kernel.envs e).envStatus = .runnable ∧ (s.kernel.envs e).envIpcRecving = 0)
  frame : ∀ e, s.frame e = none
  log : s.log = []

end IpcSystem

/-! ## 3. The phase of a party -/

/-- The mailbox. -/
def Env.mail (v : Env) : Message := ⟨v.envIpcValue, v.envIpcFrom, v.envIpcPerm⟩

/-- The fields that the protocol is about. -/
def Env.ipc (v : Env) : EnvStatus × Nat × Message := (v.envStatus, v.envIpcRecving, v.mail)

/-- A call in progress has the right slot in its hands, and has stored what it should have. -/
def RecvFrame.Agrees (f : RecvFrame) (e : Slot) (m : Message) : Prop :=
  match f.pc with
  | .called => f.whom = none ∧ f.perm = none
  | .whomSelf p => p = e ∧ f.call.whom = true ∧ f.perm = none
  | .gotWhom => f.whom = (f.call.result m).whom ∧ f.perm = none
  | .permSelf p => p = e ∧ f.call.perm = true ∧ f.whom = (f.call.result m).whom
  | .gotPerm => f.whom = (f.call.result m).whom ∧ f.perm = (f.call.result m).perm
  | .valueSelf p => p = e ∧ f.whom = (f.call.result m).whom ∧ f.perm = (f.call.result m).perm

/-- **What the environment record and the frame say of the phase.** -/
inductive Stands (e : Slot) (v : Env) : Option RecvFrame → Phase RecvCall Message → Prop
  | free : v.envStatus = .free → Stands e v none .ready
  | ready : v.envStatus = .runnable → v.envIpcRecving = 0 → Stands e v none .ready
  | waiting (c : Option RecvCall) : v.envStatus = .notRunnable → v.envIpcRecving ≠ 0 →
      Stands e v (c.map .start) (.waiting c)
  | delivered {f : RecvFrame} : v.envStatus = .runnable → v.envIpcRecving = 0 →
      f.Agrees e v.mail → Stands e v (some f) (.delivered f.call v.mail)

variable {e : Slot} {v v' : Env} {f : RecvFrame} {p : Phase RecvCall Message}

/-- Nothing else matters. -/
theorem Stands.congr {o : Option RecvFrame} (h : Stands e v o p) (hv : v'.ipc = v.ipc) :
    Stands e v' o p := by
  simp only [Env.ipc, Prod.mk.injEq] at hv
  obtain ⟨hst, hrecv, hmail⟩ := hv
  cases h with
  | free h1 => exact .free (hst.trans h1)
  | ready h1 h2 => exact .ready (hst.trans h1) (hrecv.trans h2)
  | waiting c h1 h2 => exact .waiting c (hst.trans h1) (hrecv ▸ h2)
  | delivered h1 h2 h3 =>
    rw [← hmail] at h3 ⊢
    exact .delivered (hst.trans h1) (hrecv.trans h2) h3

/-- **A running call gets on** with the message it has been sent, and in the end returns it. -/
theorem RecvFrame.Agrees.advance {k : Kernel} (h : f.Agrees e (k.envs e).mail) :
    (∃ f', f.advance k e = .inl f' ∧ f'.call = f.call ∧ f'.Agrees e (k.envs e).mail) ∨
      f.advance k e = .inr (f.call.result (k.envs e).mail) := by
  obtain ⟨call, pc, whom, perm⟩ := f
  cases pc with
  | called =>
    obtain ⟨rfl, rfl⟩ := h
    refine Or.inl ⟨_, rfl, rfl, ?_⟩
    cases hw : call.whom with
    | false => simp [Agrees, RecvCall.result, hw]
    | true => simp [Agrees, hw]
  | whomSelf p =>
    obtain ⟨rfl, hw, rfl⟩ := h
    dsimp only at hw
    exact Or.inl ⟨_, rfl, rfl, by simp [Agrees, RecvCall.result, hw, Env.mail]⟩
  | gotWhom =>
    obtain ⟨hw, rfl⟩ := h
    refine Or.inl ⟨_, rfl, rfl, ?_⟩
    cases hp : call.perm with
    | false => exact ⟨hw, by simp [RecvCall.result, hp]⟩
    | true => exact ⟨rfl, hp, hw⟩
  | permSelf p =>
    obtain ⟨rfl, hp, hw⟩ := h
    dsimp only at hp
    exact Or.inl ⟨_, rfl, rfl, hw, by simp [RecvCall.result, hp, Env.mail]⟩
  | gotPerm =>
    obtain ⟨hw, hp⟩ := h
    exact Or.inl ⟨_, rfl, rfl, rfl, hw, hp⟩
  | valueSelf p =>
    obtain ⟨rfl, hw, hp⟩ := h
    refine Or.inr ?_
    dsimp only at hw hp
    subst hw hp
    rfl

/-! ## 4. The kernel refines the rendezvous -/

@[simp] theorem Kernel.ipc_envRun (s : Kernel) (n e : Slot) :
    ((s.envRun n).envs e).ipc = (s.envs e).ipc := by
  rw [envs_envRun]
  rfl

/-- The log is accepted for every party, and its phase is the one the state shows. -/
structure IpcInv (s : IpcSystem) : Prop where
  running : ∀ c, s.kernel.curenv = some c → (s.kernel.envs c).envStatus = .runnable
  party : ∀ e, ∃ p, Accepts RecvCall.result e s.log p ∧
    Stands e (s.kernel.envs e) (s.frame e) p

namespace IpcInv

variable {s s' : IpcSystem} {c : Slot} {k : Kernel} {o : Option RecvFrame}

theorem ofStart (h : s.Start) : IpcInv s where
  running := h.running
  party := by
    intro e
    refine ⟨.ready, ?_, ?_⟩
    · rw [h.log]
      exact .nil
    · rw [h.frame e]
      rcases h.idle e with h1 | ⟨h1, h2⟩
      · exact .free h1
      · exact .ready h1 h2

/-- The kernel may change whatever the protocol is not about, and switch to a `RUNNABLE` slot. -/
theorem switch (h : IpcInv s) (hk : ∀ e, (k.envs e).ipc = (s.kernel.envs e).ipc)
    (hrun : ∀ c, k.curenv = some c → (k.envs c).envStatus = .runnable) :
    IpcInv { s with kernel := k } where
  running := hrun
  party := by
    intro e
    obtain ⟨p, hacc, hst⟩ := h.party e
    exact ⟨p, hacc, hst.congr (hk e)⟩

/-- **One party takes a step of the protocol.** -/
theorem event (h : IpcInv s) {x : Entry Slot RecvCall Message Received} (hx : x.party = c)
    (hk : ∀ e, e ≠ c → (k.envs e).ipc = (s.kernel.envs e).ipc)
    (hrun : ∀ c, k.curenv = some c → (k.envs c).envStatus = .runnable)
    (hc : ∃ p, Accepts RecvCall.result c (s.log ++ [x]) p ∧ Stands c (k.envs c) o p) :
    IpcInv { kernel := k, frame := Function.update s.frame c o, log := s.log ++ [x] } where
  running := hrun
  party := by
    intro e
    rcases eq_or_ne e c with rfl | hec
    · obtain ⟨p, hacc, hst⟩ := hc
      refine ⟨p, hacc, ?_⟩
      dsimp only
      rwa [Function.update_self]
    · obtain ⟨p, hacc, hst⟩ := h.party e
      refine ⟨p, hacc.other (by rw [hx]; exact hec.symm), ?_⟩
      dsimp only
      rw [Function.update_of_ne hec]
      exact hst.congr (hk e hec)

/-- A slot that runs user code outside `ipc_recv` is ready. -/
theorem ready (h : IpcInv s) (hc : s.kernel.curenv = some c) (hf : s.frame c = none) :
    Accepts RecvCall.result c s.log .ready := by
  obtain ⟨p, hacc, hst⟩ := h.party c
  have hrun := h.running c hc
  rw [hf] at hst
  generalize hn : (none : Option RecvFrame) = n at hst
  cases hst with
  | free => exact hacc
  | ready => exact hacc
  | waiting call hnot _ =>
    rw [hrun] at hnot
    cases hnot
  | delivered => cases hn

/-- A slot that runs inside `ipc_recv` has its message. -/
theorem inCall (h : IpcInv s) (hc : s.kernel.curenv = some c) {f : RecvFrame}
    (hf : s.frame c = some f) :
    Accepts RecvCall.result c s.log (.delivered f.call (s.kernel.envs c).mail) ∧
      (s.kernel.envs c).envIpcRecving = 0 ∧ f.Agrees c (s.kernel.envs c).mail := by
  obtain ⟨p, hacc, hst⟩ := h.party c
  have hrun := h.running c hc
  rw [hf] at hst
  generalize hn : some f = n at hst
  cases hst with
  | free => cases hn
  | ready => cases hn
  | waiting call hnot _ =>
    rw [hrun] at hnot
    cases hnot
  | delivered h1 h2 h3 =>
    cases hn
    exact ⟨hacc, h2, h3⟩

/-- A slot that a send may reach waits. -/
theorem waits (h : IpcInv s) (hst : (s.kernel.envs e).envStatus = .notRunnable) :
    ∃ call, s.frame e = call.map RecvFrame.start ∧
      Accepts RecvCall.result e s.log (.waiting call) := by
  obtain ⟨p, hacc, hstands⟩ := h.party e
  generalize hn : s.frame e = n at hstands
  cases hstands with
  | free h1 => rw [hst] at h1; cases h1
  | ready h1 _ => rw [hst] at h1; cases h1
  | waiting call _ _ => exact ⟨call, rfl, hacc⟩
  | delivered h1 _ _ => rw [hst] at h1; cases h1

/-- `sys_ipc_recv`. -/
theorem recv (h : IpcInv s) {r : Regs} {dstva : Nat} {call : Option RecvCall} (hd : dstva < utop)
    (hu : s.InUser) (hs : s.step (.recv r dstva call) = .ok s') : IpcInv s' := by
  obtain ⟨c, hc, h1⟩ := Except.bind_eq_ok_iff.mp hs
  obtain ⟨⟨x, k⟩, hk, h2⟩ := Except.bind_eq_ok_iff.mp h1
  clear hs h1
  cases h2
  have hcur : s.kernel.curenv = some c := by
    unfold IpcSystem.running at hc
    split at hc
    · cases hc
    · cases hc; assumption
  unfold Kernel.svc at hk
  split at hk
  · cases hk
  obtain ⟨hge, _⟩ | ⟨_, c', pos, n, hc', hn, rfl⟩ := Kernel.sysIpcRecv_ok hk
  · omega
  have hcc : c' = c := Option.some.inj (hc'.symm.trans hcur)
  subst hcc
  refine h.event rfl ?_ ?_ ⟨.waiting call, .began (h.ready hcur (hu c' hcur)), .waiting call ?_ ?_⟩
  · intro e hec
    rw [Kernel.ipc_envRun]
    exact congrArg Env.ipc (if_neg hec)
  · intro c'' hc''
    rw [Kernel.curenv_envRun] at hc''
    cases hc''
    rw [Kernel.envs_envRun]
    exact hn
  all_goals
    rw [Kernel.envs_envRun]
    simp [Kernel.schedRemove, Kernel.modifyEnv]

/-- `sys_ipc_can_send`. -/
theorem canSend (h : IpcInv s) {r : Regs} {envid value srcva perm : Nat}
    (hs : s.step (.canSend r envid value srcva perm) = .ok s') : IpcInv s' := by
  obtain ⟨⟨x, k⟩, hk, h1⟩ := Except.bind_eq_ok_iff.mp hs
  clear hs
  cases h1
  unfold Kernel.svc at hk
  split at hk
  · cases hk
  obtain ⟨c, phys, hc, _, ⟨hx, rfl⟩ | ⟨e, hres, hst, _, rfl, rfl⟩⟩ := Kernel.sysIpcCanSend_ok hk
  · have hlog : s.delivery x envid value perm = [] := by
      unfold IpcSystem.delivery
      split
      · exact absurd rfl hx
      · rfl
    rw [hlog, List.append_nil]
    exact h.switch (fun _ => rfl) h.running
  · have hlog : s.delivery (.ret 0) envid value perm
        = [.sent e ⟨value, (s.kernel.envs c).envId, perm⟩] := by
      have hc' : s.kernel.curenv = some c := hc
      have hres' : s.kernel.envid2env envid false = some e := hres
      simp only [IpcSystem.delivery, hc', hres']
    rw [hlog]
    obtain ⟨call, hf, hacc⟩ := h.waits hst
    have hframe : s.frame = Function.update s.frame e (call.map .start) := by
      rw [← hf, Function.update_eq_self]
    rw [hframe]
    refine h.event rfl ?_ ?_ ⟨_, .sent hacc, ?_⟩
    · intro e' he'
      exact congrArg Env.ipc (if_neg he')
    · intro c' hc'
      rcases eq_or_ne c' e with rfl | hne
      · simp [Kernel.ipcDeliver, Kernel.schedInsertHead, Kernel.modifyEnv]
      · have hrun := h.running c' hc'
        rw [← hrun]
        exact congrArg Env.envStatus (if_neg hne)
    · have hmail : ((({ ({ s.kernel with kernelFrame := saveall syncStack r } : Kernel) with
          phys := phys }).ipcDeliver c e value perm).envs e).mail
          = ⟨value, (s.kernel.envs c).envId, perm⟩ := by
        simp [Kernel.ipcDeliver, Kernel.schedInsertHead, Kernel.modifyEnv, Env.mail]
      rw [← hmail]
      cases call with
      | none =>
        refine .ready ?_ ?_ <;> simp [Kernel.ipcDeliver, Kernel.schedInsertHead, Kernel.modifyEnv]
      | some call =>
        refine .delivered (f := .start call) ?_ ?_ ⟨rfl, rfl⟩ <;>
          simp [Kernel.ipcDeliver, Kernel.schedInsertHead, Kernel.modifyEnv]

/-- A turn of the scheduler. -/
theorem schedYield (h : IpcInv s) {k₀ : Kernel} (hk : k₀.schedYield = .ok k)
    (hk₀ : ∀ e, (k₀.envs e).ipc = (s.kernel.envs e).ipc) : IpcInv { s with kernel := k } := by
  obtain ⟨pos, n, hn, rfl⟩ := Kernel.schedYield_ok hk
  refine h.switch (fun e => ?_) ?_
  · rw [Kernel.ipc_envRun]
    exact hk₀ e
  · intro c hc
    rw [Kernel.curenv_envRun] at hc
    cases hc
    rw [Kernel.envs_envRun]
    exact hn

/-- The running environment goes on with `ipc_recv`. -/
theorem goOn (h : IpcInv s) (hs : s.step .goOn = .ok s') : IpcInv s' := by
  obtain ⟨c, hc, h1⟩ := Except.bind_eq_ok_iff.mp hs
  clear hs
  have hcur : s.kernel.curenv = some c := by
    unfold IpcSystem.running at hc
    split at hc
    · cases hc
    · cases hc; assumption
  split at h1
  · cases h1
    exact h
  · rename_i f hf
    obtain ⟨hacc, hrecv, hagree⟩ := h.inCall hcur hf
    rcases hagree.advance with ⟨f', hf', hcall, hagree'⟩ | hf'
    · rw [hf'] at h1
      cases h1
      refine ⟨h.running, fun e => ?_⟩
      rcases eq_or_ne e c with rfl | hec
      · refine ⟨_, hacc, ?_⟩
        dsimp only
        rw [Function.update_self, ← hcall]
        exact .delivered (h.running e hcur) hrecv hagree'
      · obtain ⟨p, hp⟩ := h.party e
        refine ⟨p, ?_⟩
        dsimp only
        rwa [Function.update_of_ne hec]
    · rw [hf'] at h1
      cases h1
      exact h.event rfl (fun _ _ => rfl) h.running
        ⟨.ready, .returned hacc, .ready (h.running c hcur) hrecv⟩

/-- **Every step keeps the invariant.** -/
theorem step (h : IpcInv s) {ev : IpcEvent} (ha : s.Allowed ev) (hs : s.step ev = .ok s') :
    IpcInv s' := by
  cases ev with
  | recv r dstva call => exact h.recv ha.1 ha.2 hs
  | canSend r envid value srcva perm => exact h.canSend hs
  | yield r =>
    obtain ⟨⟨x, k⟩, hk, h1⟩ := Except.bind_eq_ok_iff.mp hs
    cases h1
    unfold Kernel.svc at hk
    split at hk
    · cases hk
    obtain ⟨u, hu, h2⟩ := Except.bind_eq_ok_iff.mp hk
    cases h2
    exact h.schedYield hu (fun _ => rfl)
  | irq r =>
    obtain ⟨k, hk, h1⟩ := Except.bind_eq_ok_iff.mp hs
    cases h1
    exact h.schedYield hk (fun _ => rfl)
  | goOn => exact h.goOn hs
  | memory p =>
    cases hs
    exact h.switch (fun _ => rfl) h.running

end IpcInv

/-! ## 5. Exactly once -/

/-- **Messages are delivered exactly once.**  In every run, every return of `ipc_recv` is matched by
exactly one send, which came after its receive had begun and whose value, sender and permission it
returns; no send is matched by two returns; and between two sends to one environment it has called
`sys_ipc_recv` again, after the `ipc_recv` that the first one answered had returned. -/
theorem ipc_exactly_once {s t : IpcSystem} {es : List IpcEvent} (hstart : s.Start)
    (hr : Run IpcSystem.step IpcSystem.Allowed s es t) :
    (∀ e r k, t.log[k]? = some (.returned e r) → ∃! m, Matches RecvCall.result t.log m k) ∧
    (∀ m k k', Matches RecvCall.result t.log m k → Matches RecvCall.result t.log m k' → k = k') ∧
    ∀ e x x' m m', t.log[m]? = some (.sent e x) → t.log[m']? = some (.sent e x') → m < m' →
      ∃ b c, m < b ∧ b < m' ∧ t.log[b]? = some (.began e c) ∧
        ∀ b₀ c₀, Answers t.log e (some c₀) x b₀ m →
          ∃ k, Matches RecvCall.result t.log m k ∧ k < b := by
  have hinv := hr.invariant (IpcInv.ofStart hstart) fun _ _ _ h ha hs => h.step ha hs
  refine ⟨fun e r k hk => ?_, fun m k k' h h' => h.inj h', fun e x x' m m' hm hm' hlt => ?_⟩
  · obtain ⟨p, hacc, _⟩ := hinv.party e
    obtain ⟨m, hm⟩ := hacc.matched hk
    exact ⟨m, hm, fun m' hm' => hm'.unique hm⟩
  · obtain ⟨p, hacc, _⟩ := hinv.party e
    exact hacc.separated hm hm' hlt

/-- Two environments with the ids of `user_main_pingpong`, the second one running. -/
def pingpong : IpcSystem where
  kernel :=
    { phys := ⟨fun _ _ => 0, fun _ => 0, .zeroed⟩, pgDir := 0
      envs := fun e =>
        if e = 0 then { Env.zero with envId := 0x800, envStatus := .runnable }
        else if e = 1 then { Env.zero with envId := 0x1001, envStatus := .runnable }
        else .zero
      envFreeList := .zeroed, envSched := .zeroed, schedLog := [], curSched := 0
      curenv := some 1, nextEnvId := 2, pos := -1, kernelFrame := .zero, timeFrame := .zero }
  frame := fun _ => none
  log := []

theorem pingpong_start : pingpong.Start where
  running := by
    intro c hc
    cases hc
    rfl
  idle := by
    intro e
    simp only [pingpong]
    split
    · exact Or.inr ⟨rfl, rfl⟩
    · split
      · exact Or.inr ⟨rfl, rfl⟩
      · exact Or.inl rfl
  frame := fun _ => rfl
  log := rfl

/-- The second environment calls `ipc_recv(&who, 0, 0)`, the first one sends 7 to it and is
preempted, and the second one returns the 7 with the first one's id. -/
theorem ipc_exactly_once_pingpong : ∃ s t es, s.Start ∧
    Run IpcSystem.step IpcSystem.Allowed s es t ∧
    t.log = [.began 1 (some ⟨true, false⟩), .sent 1 ⟨7, 0x800, 0⟩,
      .returned 1 ⟨7, some 0x800, none⟩] ∧
    ∃! m, Matches RecvCall.result t.log m 2 := by
  have r0 : Run IpcSystem.step IpcSystem.Allowed pingpong [] pingpong := .nil
  have r1 := r0.andThen (.recv .zero 0 (some ⟨true, false⟩)) rfl
    ⟨by decide, by intro c hc; cases hc; rfl⟩
  have r2 := r1.andThen (.canSend .zero 0x1001 7 0 0) rfl (by intro c hc; cases hc; rfl)
  have r3 := r2.andThen (.irq .zero) rfl trivial
  have r4 := r3.andThen .goOn rfl trivial
  have r5 := r4.andThen .goOn rfl trivial
  have r6 := r5.andThen .goOn rfl trivial
  have r7 := r6.andThen .goOn rfl trivial
  have r8 := r7.andThen .goOn rfl trivial
  obtain ⟨hmatch, _⟩ := ipc_exactly_once pingpong_start r8
  exact ⟨_, _, _, pingpong_start, r8, rfl, hmatch 1 ⟨7, some 0x800, none⟩ 2 rfl⟩

end RaspiOS
