/-
# Ping-pong

`user_main_pingpong` of `user/userfunct.c` with `ipc_send` and `ipc_recv` of `user/ipc.c`, run by two
environments on the kernel that `main` has booted.  The program is embedded from one system call or
load to the next: what it computes in between are its automatic variables.  They lie in its page of
stack, and nothing but the program itself stores there: what happens are the steps of the two programs
and timer interrupts, which may come before any of these steps.

The kernel appears through `Face`, the fields the two programs can notice, and one lemma for each
system call says what it does to them.
-/
import RaspiOS.Fork
import RaspiOS.Ipc
import RaspiOS.Turns
import RaspiOS.Receiving

set_option autoImplicit false

namespace RaspiOS

/-! ## 1. The program -/

/-- The automatic variables of `user_main_pingpong`. -/
structure Locals where
  me : Nat
  other : Nat
  i : Nat
  who : Nat

/-- The calls of `ipc_send`: `ipc_send(other, i++, 0, 0)` before the loop, `ipc_send(who, i, 0, 0)`
in it. -/
inductive SendSite where
  | opening
  | reply
deriving DecidableEq

/-- The calls of `syscall_env_destroy(me)`: after `ipc_recv`, after `ipc_send`. -/
inductive DestroySite where
  | received
  | sent
deriving DecidableEq

/-- What the program does next: a system call, the next load of `ipc_recv`, or nothing any more after
the `panic` of `ipc_send`. -/
inductive Place where
  | getenvid
  | canSend (site : SendSite) (whom val : Nat)
  | yield (site : SendSite) (whom val : Nat)
  | recv
  | inRecv (f : RecvFrame)
  | destroy (site : DestroySite)
  | panicked

/-- What the program prints. -/
inductive Line where
  | waiting (me : Nat)
  | got (me i who : Nat)
  | send (i me whom : Nat)
deriving DecidableEq

/-- The variables, where the program stands, and what it has printed on its way there. -/
structure Arrived where
  vars : Locals
  place : Place
  lines : List Line

/-- `ipc_recv(&who, 0, 0)`. -/
def pingCall : RecvCall := ⟨true, false⟩

namespace Locals

/-- From the head of the loop to `syscall_ipc_recv`. -/
def loop (l : Locals) : Arrived := ⟨l, .recv, [.waiting l.me]⟩

/-- From `i++` in the loop to `syscall_ipc_can_send`. -/
def reply (l : Locals) : Arrived :=
  let l := { l with i := (l.i + 1) % 2 ^ 64 }
  ⟨l, .canSend .reply l.who l.i, [.send l.i l.me l.who]⟩

/-- From the return of `syscall_getenvid` on. -/
def afterGetenvid (l : Locals) (v : Nat) : Arrived :=
  let l := { l with i := 0, me := v }
  if v = 0x800 then
    let l := { l with other := 0x1001 }
    ⟨{ l with i := (l.i + 1) % 2 ^ 64 }, .canSend .opening l.other l.i,
      [.send l.i l.me l.other]⟩
  else if v = 0x1001 then { l with other := 0x800 }.loop
  else l.loop

/-- From the return of `ipc_recv` on. -/
def afterRecv (l : Locals) (v : Received) : Arrived :=
  let l := { l with i := v.value, who := v.whom.getD l.who }
  let line := Line.got l.me l.i l.who
  if l.i = 10 then ⟨l, .destroy .received, [line]⟩
  else { l.reply with lines := line :: l.reply.lines }

/-- From the return of `ipc_send` on. -/
def afterSend (l : Locals) : SendSite → Arrived
  | .opening => l.loop
  | .reply => if l.i = 10 then ⟨l, .destroy .sent, []⟩ else l.loop

/-- The loop of `ipc_send`, with the result of `syscall_ipc_can_send`. -/
def afterCanSend (l : Locals) (site : SendSite) (whom val : Nat) (r : Int) : Arrived :=
  if r = -eIpcNotRecv then ⟨l, .yield site whom val, []⟩
  else if r = 0 then l.afterSend site
  else ⟨l, .panicked, []⟩

/-- From the return of `syscall_env_destroy`, should it return. -/
def afterDestroy (l : Locals) : DestroySite → Arrived
  | .received => l.reply
  | .sent => l.loop

end Locals

/-! ## 2. The system -/

/-- What a system call leaves in `x0`. -/
def Exit.value : Exit → Int
  | .ret v => v
  | _ => 0

/-- The kernel, the two programs, and what has been printed. -/
structure PingPong where
  kernel : Kernel
  prog : Slot → Locals × Place
  out : List Line

/-- What can happen. -/
inductive UserEvent where
  /-- the running environment goes on, with these registers -/
  | user (r : Regs)
  /-- a timer interrupt -/
  | irq (r : Regs)

namespace PingPong

/-- Environment `c` has arrived at a place. -/
def arrive (s : PingPong) (c : Slot) (k : Kernel) (a : Arrived) : PingPong where
  kernel := k
  prog := Function.update s.prog c (a.vars, a.place)
  out := s.out ++ a.lines

/-- The running environment `c` goes on. -/
def go (s : PingPong) (c : Slot) (r : Regs) (l : Locals) : Place → Except Halt PingPong
  | .getenvid => do
    let (x, k) ← s.kernel.svc r .getenvid
    return s.arrive c k (l.afterGetenvid x.value.toNat)
  | .canSend site whom val => do
    let (x, k) ← s.kernel.svc r (.ipcCanSend whom val 0 0)
    return s.arrive c k (l.afterCanSend site whom val x.value)
  | .yield site whom val => do
    let (_, k) ← s.kernel.svc r .yield
    return s.arrive c k ⟨l, .canSend site whom val, []⟩
  | .recv => do
    let (_, k) ← s.kernel.svc r (.ipcRecv 0)
    return s.arrive c k ⟨l, .inRecv (.start pingCall), []⟩
  | .inRecv f =>
    match f.advance s.kernel c with
    | .inl f => return s.arrive c s.kernel ⟨l, .inRecv f, []⟩
    | .inr v => return s.arrive c s.kernel (l.afterRecv v)
  | .destroy site => do
    let (x, k) ← s.kernel.svc r (.envDestroy l.me)
    -- an environment that is gone does not come back to its program
    if x = .eret then return { s with kernel := k }
    else return s.arrive c k (l.afterDestroy site)
  | .panicked => return s

/-- One step. -/
def step (s : PingPong) : UserEvent → Except Halt PingPong
  | .user r =>
    match s.kernel.curenv with
    | none => .error .noEnv
    | some c => s.go c r (s.prog c).1 (s.prog c).2
  | .irq r => do return { s with kernel := ← s.kernel.irq r }

/-- `main` has created two environments with `user_main_pingpong`, and nothing has run yet. -/
structure Started (s : PingPong) : Prop where
  kernel : ∃ L ram s₀ binary priority priority', CleanRam L ram ∧ boot L ram = .ok s₀ ∧
    Run Kernel.step (fun _ _ => True) s₀ [.create binary priority, .create binary priority'] s.kernel
  prog : ∀ e, (s.prog e).2 = .getenvid
  out : s.out = []

end PingPong

/-! ## 3. What the programs notice of the kernel -/

/-- `env_id`, `env_status`, `env_ipc_recving` and the mailbox. -/
structure Face where
  id : Nat
  status : EnvStatus
  recving : Nat
  mail : Message

/-- The face of an environment. -/
def Env.face (v : Env) : Face := ⟨v.envId, v.envStatus, v.envIpcRecving, v.mail⟩

namespace Kernel

/-- The faces of all environments. -/
def faces (k : Kernel) (e : Slot) : Face := (k.envs e).face

/-- The environment can be chosen. -/
def Face.CanRun (f : Slot → Face) (e : Slot) : Prop := (f e).status = .runnable

variable {k k' : Kernel} {c e n : Slot} {r : Regs} {x : Exit}

/-- The caller goes on, with these faces. -/
structure GoesOn (k k' : Kernel) (f : Slot → Face) : Prop where
  faces : k'.faces = f
  cur : k'.curenv = k.curenv
  pos : k'.pos = k.pos

/-- The scheduler has gone from slot `p` to slot `n`, with these faces. -/
structure Switched (f : Slot → Face) (p : Slot) (k' : Kernel) (n : Slot) : Prop where
  faces : k'.faces = f
  cur : k'.curenv = some n
  pos : k'.pos = n.val
  serves : RoundRobin.Serves (Face.CanRun f) p n

/-- A change to one environment is a change to one face. -/
theorem faces_modifyEnv (k : Kernel) (e : Slot) (f : Env → Env) :
    (k.modifyEnv e f).faces = Function.update k.faces e (f (k.envs e)).face := by
  funext e'
  rcases eq_or_ne e' e with rfl | hne
  · rw [Function.update_self, faces, envs_modifyEnv_self]
  · rw [Function.update_of_ne hne, faces, envs_modifyEnv_ne _ _ hne]
    rfl

@[simp] theorem faces_envRun (k : Kernel) (n : Slot) : (k.envRun n).faces = k.faces := by
  funext e
  rw [faces, envs_envRun]
  rfl

theorem switched_of_schedYield (h : k.schedYield = .ok k') :
    ∃ n, Switched k.faces (cursor k.pos) k' n := by
  obtain ⟨n, hserves, rfl⟩ := schedLoop_serves h
  exact ⟨n, faces_envRun _ _, curenv_envRun _ _, pos_envRun _ _, hserves⟩

/-- A timer interrupt. -/
theorem irq_switched (h : k.irq r = .ok k') : ∃ n, Switched k.faces (cursor k.pos) k' n :=
  switched_of_schedYield (k := { k with timeFrame := saveall irqStack r }) h

theorem svc_getenvid (hc : k.curenv = some c) (r : Regs) :
    ∃ k', k.svc r .getenvid = .ok (.ret (k.faces c).id, k') ∧ GoesOn k k' k.faces := by
  refine ⟨k.trapped r, ?_, rfl, rfl, rfl⟩
  have hc' : (k.trapped r).curenv = some c := hc
  rw [svc_of_cur hc]
  simp only [syscall, sysGetenvid, hc']
  rfl

theorem svc_yield_switched (h : k.svc r .yield = .ok (x, k')) :
    ∃ n, Switched k.faces (cursor k.pos) k' n := by
  unfold svc at h
  split at h
  · cases h
  obtain ⟨u, hu, h1⟩ := Except.bind_eq_ok_iff.mp h
  cases h1
  have hn := switched_of_schedYield hu
  exact hn

/-- A send to an environment that does not wait. -/
theorem svc_canSend_busy (hc : k.curenv = some c) {whom : Nat}
    (hres : k.envid2env whom false = some e)
    (hbusy : (k.faces e).status ≠ .notRunnable ∨ (k.faces e).recving = 0) (r : Regs) (val : Nat) :
    ∃ k', k.svc r (.ipcCanSend whom val 0 0) = .ok (.ret (-eIpcNotRecv), k') ∧
      GoesOn k k' k.faces := by
  refine ⟨k.trapped r, ?_, rfl, rfl, rfl⟩
  have hc' : (k.trapped r).curenv = some c := hc
  have hres' : (k.trapped r).envid2env whom false = some e := hres
  rw [svc_of_cur hc]
  simp only [syscall, sysIpcCanSend, hc', hres']
  exact if_pos hbusy

/-- A send to an environment that waits. -/
theorem svc_canSend_waiting (hc : k.curenv = some c) {whom : Nat}
    (hres : k.envid2env whom false = some e) (hst : (k.faces e).status = .notRunnable)
    (hrecv : (k.faces e).recving ≠ 0) (r : Regs) (val : Nat) :
    ∃ k', k.svc r (.ipcCanSend whom val 0 0) = .ok (.ret 0, k') ∧
      GoesOn k k' (Function.update k.faces e
        ⟨(k.faces e).id, .runnable, 0, ⟨val, (k.faces c).id, 0⟩⟩) := by
  refine ⟨(k.trapped r).ipcDeliver c e val 0, ?_, ?_, rfl, rfl⟩
  · have hc' : (k.trapped r).curenv = some c := hc
    have hres' : (k.trapped r).envid2env whom false = some e := hres
    have hwaits : ¬ (((k.trapped r).envs e).envStatus ≠ .notRunnable ∨
        ((k.trapped r).envs e).envIpcRecving = 0) := by
      rintro (h | h)
      · exact h hst
      · exact hrecv h
    have hutop : ¬ utop ≤ 0 := by decide
    rw [svc_of_cur hc]
    simp only [syscall, sysIpcCanSend, hc', hres', if_neg hwaits, if_neg hutop]
    rfl
  · exact faces_modifyEnv (k.trapped r) e fun v =>
      { v with
        envIpcValue := val, envIpcFrom := (k.envs c).envId, envIpcPerm := 0
        envIpcRecving := 0, envStatus := .runnable }

/-- `sys_ipc_recv`. -/
theorem svc_recv_switched (hc : k.curenv = some c) (h : k.svc r (.ipcRecv 0) = .ok (x, k')) :
    ∃ n, Switched (Function.update k.faces c
      ⟨(k.faces c).id, .notRunnable, 1, (k.faces c).mail⟩) (cursor k.pos) k' n := by
  have hc' : (k.trapped r).curenv = some c := hc
  rw [svc_of_cur hc] at h
  simp only [syscall, sysIpcRecv, hc'] at h
  rw [if_neg (by decide)] at h
  obtain ⟨u, hu, h1⟩ := Except.bind_eq_ok_iff.mp h
  cases h1
  have hfaces := faces_modifyEnv (k.trapped r) c fun v =>
    { v with envStatus := .notRunnable, envIpcRecving := 1, envIpcDstva := 0 }
  obtain ⟨n, hn⟩ := switched_of_schedYield hu
  exact ⟨n, hfaces ▸ hn⟩

/-- `sys_ipc_recv` returns to another environment that can run. -/
theorem svc_recv_total (hc : k.curenv = some c) (hne : e ≠ c)
    (he : (k.faces e).status = .runnable) (r : Regs) : ∃ x k', k.svc r (.ipcRecv 0) = .ok (x, k') := by
  obtain ⟨k', n, hst, _⟩ := step_ipcRecv r hc (show 0 < utop by decide) hne he
  obtain ⟨y, hy, _⟩ := Except.map_eq_ok_iff.mp hst
  exact ⟨y.1, y.2, hy⟩

/-- `sys_env_destroy` of the caller. -/
theorem svc_destroy_switched {envid : Nat} (hc : k.curenv = some c)
    (hres : k.envid2env envid true = some c) (h : k.svc r (.envDestroy envid) = .ok (x, k')) :
    x = .eret ∧ ∃ n, Switched (Function.update k.faces c
      ⟨(k.faces c).id, .free, (k.faces c).recving, (k.faces c).mail⟩) (cursor k.pos) k' n := by
  have hres' : (k.trapped r).envid2env envid true = some c := hres
  rw [svc_of_cur hc] at h
  simp only [syscall, sysEnvDestroy, hres'] at h
  obtain ⟨⟨y, u⟩, hu, h1⟩ := Except.bind_eq_ok_iff.mp h
  cases h1
  obtain ⟨v, hv, h2⟩ := Except.bind_eq_ok_iff.mp hu
  obtain ⟨phys, _, rfl⟩ := envFree_ok hv
  have hself : (({ k.trapped r with phys := phys } : Kernel).freed c).curenv = some c := hc
  rw [if_pos hself] at h2
  obtain ⟨w, hw, h3⟩ := Except.bind_eq_ok_iff.mp h2
  cases h3
  refine ⟨rfl, ?_⟩
  have hfaces := faces_modifyEnv { k.trapped r with phys := phys } c fun v =>
    { v with envPgdir := 0, envStatus := .free }
  obtain ⟨n, hn⟩ := switched_of_schedYield hw
  exact ⟨n, hfaces ▸ hn⟩

/-- What both programs can rely on after a step: nobody else has come to life, ids are what they
were, and what runs can run. -/
structure Keeps (k k' : Kernel) : Prop where
  ids : ∀ e, (k'.faces e).id = (k.faces e).id
  others : ∀ e, e ≠ 0 → e ≠ 1 → (k'.faces e).status = (k.faces e).status
  cur : ∀ c, k'.curenv = some c → (k'.faces c).status = .runnable ∧ k'.pos = c.val

/-- A change to the face of one of the two. -/
theorem faces_update {f : Slot → Face} {v : Face} (he : e = 0 ∨ e = 1) (hid : v.id = (f e).id) :
    (∀ e', (Function.update f e v e').id = (f e').id) ∧
      ∀ e', e' ≠ 0 → e' ≠ 1 → (Function.update f e v e').status = (f e').status := by
  constructor
  · intro e'
    rcases eq_or_ne e' e with rfl | hne
    · rw [Function.update_self, hid]
    · rw [Function.update_of_ne hne]
  · intro e' h0 h1
    rw [Function.update_of_ne]
    rintro rfl
    exact he.elim h0 h1

theorem Switched.keeps {f : Slot → Face} {q : Slot} (h : Switched f q k' n)
    (hf : (∀ e', (f e').id = (k.faces e').id) ∧
      ∀ e', e' ≠ 0 → e' ≠ 1 → (f e').status = (k.faces e').status) : Keeps k k' where
  ids := by rw [h.faces]; exact hf.1
  others := by rw [h.faces]; exact hf.2
  cur := by
    intro c hc
    rw [h.cur] at hc
    cases hc
    rw [h.faces]
    exact ⟨h.serves.served, h.pos⟩

theorem GoesOn.keeps {f : Slot → Face} (h : GoesOn k k' f)
    (hf : (∀ e', (f e').id = (k.faces e').id) ∧
      ∀ e', e' ≠ 0 → e' ≠ 1 → (f e').status = (k.faces e').status)
    (hcur : ∀ c, k.curenv = some c → (f c).status = .runnable ∧ k.pos = c.val) : Keeps k k' where
  ids := by rw [h.faces]; exact hf.1
  others := by rw [h.faces]; exact hf.2
  cur := by
    intro c hc
    rw [h.cur] at hc
    rw [h.faces, h.pos]
    exact hcur c hc

end Kernel

end RaspiOS
