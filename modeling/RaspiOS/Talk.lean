/-
# The talk of two environments

The invariant (`Stage`) follows the value in flight: one environment speaks, the other listens, and
each place of the two programs says what has been printed so far.  Each kind of place has a step lemma
of its own, and the stages are put together from them.  What has been printed about values is then a
beginning of the whole talk (`Stage.prefix`).
-/
import RaspiOS.Pingpong

set_option autoImplicit false

namespace RaspiOS

/-! ## 1. The talk -/

/-- The ids of the two environments. -/
def pid (e : Slot) : Nat := if e = 0 then 0x800 else 0x1001

/-- Who says value `n`. -/
def speaker (n : Nat) : Slot := if n % 2 = 0 then 0 else 1

/-- Who hears value `n`. -/
def listener (n : Nat) : Slot := speaker (n + 1)

theorem speaker_cases (n : Nat) : speaker n = 0 ∨ speaker n = 1 := by
  unfold speaker
  split
  · exact Or.inl rfl
  · exact Or.inr rfl

theorem listener_succ (n : Nat) : listener (n + 1) = speaker n := by
  unfold listener speaker
  rw [Nat.add_assoc, Nat.add_mod_right]

theorem speaker_ne_listener (n : Nat) : speaker n ≠ listener n := by
  unfold listener speaker
  split <;> split <;> first | omega | decide

theorem speaker_or_listener {c : Slot} (hc : c = 0 ∨ c = 1) (n : Nat) :
    c = speaker n ∨ c = listener n := by
  unfold listener speaker
  rcases hc with rfl | rfl <;> split <;> split <;> first | omega | simp

/-- What is printed when value `n` is sent, and when it has arrived. -/
def sendLine (n : Nat) : Line := .send n (pid (speaker n)) (pid (listener n))

def gotLine (n : Nat) : Line := .got (pid (listener n)) n (pid (speaker n))

/-- What is printed about the values below `n`. -/
def upTo (n : Nat) : List Line := (List.range n).flatMap fun k => [sendLine k, gotLine k]

theorem upTo_succ (n : Nat) : upTo (n + 1) = upTo n ++ [sendLine n, gotLine n] := by
  simp [upTo, List.range_succ]

/-- The line is about a value. -/
def Line.isTalk : Line → Bool
  | .waiting _ => false
  | _ => true

/-- What has been printed about values. -/
def talk (out : List Line) : List Line := out.filter Line.isTalk

@[simp] theorem talk_append (l l' : List Line) : talk (l ++ l') = talk l ++ talk l' :=
  List.filter_append _ _

/-! ## 2. Where the two programs stand -/

/-- The environment hears the next value: it has not called `sys_ipc_recv` yet, or it is blocked. -/
inductive Waits (a : Slot) (v : Face) : Locals × Place → Prop
  | start {l : Locals} : a = 1 → v.status = .runnable → v.recving = 0 → Waits a v (l, .getenvid)
  | ready {l : Locals} : l.me = pid a → v.status = .runnable → v.recving = 0 → Waits a v (l, .recv)
  | blocked {l : Locals} : l.me = pid a → v.status = .notRunnable → v.recving ≠ 0 →
      Waits a v (l, .inRecv (.start pingCall))

/-- How many steps an environment that waits is away from being blocked. -/
def Place.toBlock : Place → Nat
  | .getenvid => 2
  | .recv => 1
  | _ => 0

/-- The call of `ipc_send` that says value `n`. -/
def SendSite.Says (n : Nat) (l : Locals) : SendSite → Prop
  | .opening => n = 0
  | .reply => 0 < n ∧ l.i = n

/-- The environment is in `ipc_send` with value `n`. -/
inductive Sends (a b : Slot) (n : Nat) (v : Face) : Locals × Place → Prop
  | canSend {l : Locals} {site : SendSite} : l.me = pid a → site.Says n l → v.status = .runnable →
      v.recving = 0 → Sends a b n v (l, .canSend site (pid b) n)
  | yield {l : Locals} {site : SendSite} : l.me = pid a → site.Says n l → v.status = .runnable →
      v.recving = 0 → Sends a b n v (l, .yield site (pid b) n)

/-- How many steps `ipc_send` is away from its next attempt. -/
def Place.toSend : Place → Nat
  | .yield _ _ _ => 1
  | _ => 0

/-- The environment is in `ipc_recv` with value `n` from `b` in its mailbox. -/
inductive Reads (a b : Slot) (n : Nat) (v : Face) : Locals × Place → Prop
  | mk {l : Locals} {f : RecvFrame} : l.me = pid a → v.status = .runnable → v.recving = 0 →
      v.mail.value = n → v.mail.sender = pid b → f.call = pingCall → f.Agrees a v.mail →
      Reads a b n v (l, .inRecv f)

theorem Sends.runnable {a b : Slot} {n : Nat} {v : Face} {q : Locals × Place}
    (h : Sends a b n v q) : v.status = .runnable := by
  cases h with
  | canSend _ _ hst _ => exact hst
  | yield _ _ hst _ => exact hst

theorem Reads.runnable {a b : Slot} {n : Nat} {v : Face} {q : Locals × Place}
    (h : Reads a b n v q) : v.status = .runnable := by
  cases h with
  | mk _ hst _ _ _ _ _ => exact hst

/-- How many loads `ipc_recv` is away from its last one. -/
def Place.toRead : Place → Nat
  | .inRecv f =>
    match f.pc with
    | .called => 5
    | .whomSelf _ => 4
    | .gotWhom => 3
    | .permSelf _ => 2
    | .gotPerm => 1
    | .valueSelf _ => 0
  | _ => 0

/-- Every load is one less. -/
theorem toRead_advance {k : Kernel} {e : Slot} {f f' : RecvFrame} (h : f.advance k e = .inl f') :
    (Place.inRecv f').toRead < (Place.inRecv f).toRead := by
  obtain ⟨call, pc, whom, perm⟩ := f
  cases pc with
  | called =>
    cases h
    cases hw : call.whom <;> simp [Place.toRead]
  | whomSelf q =>
    cases h
    simp [Place.toRead]
  | gotWhom =>
    cases h
    cases hp : call.perm <;> simp [Place.toRead]
  | permSelf q =>
    cases h
    simp [Place.toRead]
  | gotPerm =>
    cases h
    simp [Place.toRead]
  | valueSelf q => cases h

/-- The environment is about to destroy itself, or has. -/
inductive Leaves (a : Slot) (v : Face) : Locals × Place → Prop
  | soon {l : Locals} {site : DestroySite} : l.me = pid a → v.status = .runnable →
      Leaves a v (l, .destroy site)
  | gone {q : Locals × Place} : v.status = .free → Leaves a v q

/-- **The stages of the talk.** -/
inductive Stage (f : Slot → Face) (prog : Slot → Locals × Place) : List Line → Prop
  /-- nothing has been said -/
  | opening {l : Locals} : prog 0 = (l, .getenvid) → (f 0).status = .runnable →
      (f 0).recving = 0 → Waits 1 (f 1) (prog 1) → Stage f prog []
  /-- value `n` is about to be sent -/
  | sending (n : Nat) : n ≤ 10 →
      Sends (speaker n) (listener n) n (f (speaker n)) (prog (speaker n)) →
      Waits (listener n) (f (listener n)) (prog (listener n)) →
      Stage f prog (upTo n ++ [sendLine n])
  /-- value `n` is in the mailbox of the listener, and the speaker will listen -/
  | reading (n : Nat) : n < 10 →
      Reads (listener n) (speaker n) n (f (listener n)) (prog (listener n)) →
      Waits (speaker n) (f (speaker n)) (prog (speaker n)) →
      Stage f prog (upTo n ++ [sendLine n])
  /-- value 10 is in the mailbox of the listener, and the speaker leaves -/
  | last : Leaves 0 (f 0) (prog 0) → Reads 1 0 10 (f 1) (prog 1) →
      Stage f prog (upTo 10 ++ [sendLine 10])
  /-- everything has been said -/
  | done : Leaves 0 (f 0) (prog 0) → Leaves 1 (f 1) (prog 1) → Stage f prog (upTo 11)

/-- **The invariant.** -/
structure Talking (s : PingPong) : Prop where
  ids : ∀ e, e = 0 ∨ e = 1 → (s.kernel.faces e).id = pid e
  others : ∀ e, e ≠ 0 → e ≠ 1 → (s.kernel.faces e).status ≠ .runnable
  cur : ∀ c, s.kernel.curenv = some c →
    (s.kernel.faces c).status = .runnable ∧ s.kernel.pos = c.val
  stage : Stage s.kernel.faces s.prog (talk s.out)

/-! ## 3. Steps -/

namespace Talking

variable {s s' : PingPong} {a b c : Slot} {r : Regs} {n : Nat}

/-- Only the first two environments run. -/
theorem runs (h : Talking s) (hc : s.kernel.curenv = some c) : c = 0 ∨ c = 1 := by
  by_contra hne
  exact h.others c (fun h0 => hne (Or.inl h0)) (fun h1 => hne (Or.inr h1)) (h.cur c hc).1

/-- Where the scheduler starts to look. -/
theorem cursor_eq (h : Talking s) (hc : s.kernel.curenv = some c) :
    Kernel.cursor s.kernel.pos = c := by
  rw [(h.cur c hc).2, Kernel.cursor_val]

/-- Environment `a` has made a step to the place `q`. -/
structure Advanced (s s' : PingPong) (a : Slot) (q : Locals × Place) (lines : List Line) :
    Prop where
  prog : s'.prog = Function.update s.prog a q
  out : s'.out = s.out ++ lines
  keeps : Kernel.Keeps s.kernel s'.kernel

theorem Advanced.here {q : Locals × Place} {lines : List Line} (h : Advanced s s' a q lines) :
    s'.prog a = q := by
  rw [h.prog, Function.update_self]

theorem Advanced.there {q : Locals × Place} {lines : List Line} (h : Advanced s s' a q lines)
    (hb : b ≠ a) : s'.prog b = s.prog b := by
  rw [h.prog, Function.update_of_ne hb]

/-- A step that leads to a stage keeps the invariant. -/
theorem of_advanced (h : Talking s) {q : Locals × Place} {lines : List Line}
    (ha : Advanced s s' a q lines)
    (hstage : Stage s'.kernel.faces s'.prog (talk s.out ++ talk lines)) : Talking s' where
  ids := fun e he => (ha.keeps.ids e).trans (h.ids e he)
  others := fun e h0 h1 => by
    rw [ha.keeps.others e h0 h1]
    exact h.others e h0 h1
  cur := ha.keeps.cur
  stage := by
    rw [ha.out, talk_append]
    exact hstage

/-- The faces of a kernel that goes on as it was. -/
theorem keeps_same (h : Talking s) {k : Kernel} (hk : Kernel.GoesOn s.kernel k s.kernel.faces) :
    Kernel.Keeps s.kernel k :=
  hk.keeps ⟨fun _ => rfl, fun _ _ _ => rfl⟩ h.cur

/-- The environment with the id of `b`. -/
theorem resolve (h : Talking s) (hb : b = 0 ∨ b = 1) (hlive : (s.kernel.faces b).status ≠ .free) :
    s.kernel.envid2env (pid b) false = some b := by
  have hid := h.ids b hb
  refine Kernel.envid2env_live ?_ ?_ hid hlive
  · rcases hb with rfl | rfl <;> decide
  · rcases hb with rfl | rfl <;> decide

/-- The caller, by its id. -/
theorem resolve_self (h : Talking s) (hc : s.kernel.curenv = some c) :
    s.kernel.envid2env (pid c) true = some c := by
  have hr := h.resolve (h.runs hc) (by rw [(h.cur c hc).1]; simp)
  unfold Kernel.envid2env at hr ⊢
  split at hr
  · rename_i h0
    rwa [if_pos h0]
  · rename_i hne
    rw [if_neg hne]
    dsimp only at hr ⊢
    split at hr
    · cases hr
    · rename_i hlive
      rw [if_neg hlive]
      rw [if_neg (by simp)] at hr
      rw [if_neg, hr]
      rintro ⟨_, hcur, _⟩
      exact hcur (hc.trans hr.symm)

/-- The step of the environment that runs. -/
theorem step_user (hc : s.kernel.curenv = some c) :
    s.step (.user r) = s.go c r (s.prog c).1 (s.prog c).2 := by
  simp only [PingPong.step, hc]

/-- **An environment that waits** goes on waiting, and comes nearer to being blocked. -/
theorem waits_step (h : Talking s) (hc : s.kernel.curenv = some a)
    (hw : Waits a (s.kernel.faces a) (s.prog a)) (hs : s.step (.user r) = .ok s') :
    ∃ q lines, Advanced s s' a q lines ∧ talk lines = [] ∧ Waits a (s'.kernel.faces a) q ∧
      (∀ e, e ≠ a → s'.kernel.faces e = s.kernel.faces e) ∧
      q.2.toBlock < (s.prog a).2.toBlock := by
  rw [step_user hc] at hs
  generalize hq : s.prog a = q at hw hs
  cases hw with
  | start ha hst hrecv =>
    obtain ⟨k, hk, hon⟩ := Kernel.svc_getenvid hc r
    simp only [PingPong.go, hk, bind, Except.bind] at hs
    cases hs
    subst ha
    have hid : (s.kernel.faces 1).id = 0x1001 := h.ids 1 (Or.inr rfl)
    rw [hid]
    refine ⟨_, _, ⟨rfl, rfl, h.keeps_same hon⟩, rfl, ?_, fun e _ => congrFun hon.faces e,
      Nat.one_lt_two⟩
    refine .ready rfl ?_ ?_
    · change (k.faces 1).status = _
      rw [hon.faces, hst]
    · change (k.faces 1).recving = _
      rw [hon.faces, hrecv]
  | ready hme hst hrecv =>
    cases hx : s.kernel.svc r (.ipcRecv 0) with
    | error err =>
      simp only [PingPong.go, hx, bind, Except.bind] at hs
      cases hs
    | ok y =>
      obtain ⟨x, k⟩ := y
      simp only [PingPong.go, hx, bind, Except.bind] at hs
      cases hs
      obtain ⟨m, hm⟩ := Kernel.svc_recv_switched hc hx
      refine ⟨_, [], ⟨rfl, rfl, hm.keeps (Kernel.faces_update (h.runs hc) rfl)⟩, rfl, ?_, ?_,
        Nat.one_pos⟩
      · refine .blocked hme ?_ ?_
        · change (k.faces a).status = _
          rw [hm.faces, Function.update_self]
        · change (k.faces a).recving ≠ _
          rw [hm.faces, Function.update_self]
          simp
      · intro e he
        change k.faces e = _
        rw [hm.faces, Function.update_of_ne he]
  | blocked hme hst hrecv => exact absurd ((h.cur a hc).1.symm.trans hst) (by simp)

/-- What a blocked or not yet blocked listener looks like to a sender. -/
theorem waits_live {v : Face} {q : Locals × Place} (hw : Waits a v q) : v.status ≠ .free := by
  cases hw with
  | start _ hst _ => rw [hst]; simp
  | ready _ hst _ => rw [hst]; simp
  | blocked _ hst _ => rw [hst]; simp

/-- **An environment in `ipc_send`**: it tries again, later if `b` is not blocked yet, or value `n` is
in the mailbox of `b` and it has left `ipc_send`. -/
theorem sends_step (h : Talking s) (hc : s.kernel.curenv = some a) (hba : b ≠ a)
    (hb : b = 0 ∨ b = 1) (hw : Sends a b n (s.kernel.faces a) (s.prog a))
    (hwait : Waits b (s.kernel.faces b) (s.prog b)) (hs : s.step (.user r) = .ok s') :
    (∃ q, Advanced s s' a q [] ∧ Sends a b n (s'.kernel.faces a) q ∧
      s'.kernel.faces b = s.kernel.faces b ∧
      (q.2.toSend < (s.prog a).2.toSend ∨ (s.prog b).2.toBlock ≠ 0)) ∨
    ∃ (l : Locals) (site : SendSite), l.me = pid a ∧ site.Says n l ∧
      Advanced s s' a ((l.afterSend site).vars, (l.afterSend site).place) (l.afterSend site).lines ∧
      s'.kernel.faces a = s.kernel.faces a ∧ (s.kernel.faces a).status = .runnable ∧
      (s.kernel.faces a).recving = 0 ∧ Reads b a n (s'.kernel.faces b) (s'.prog b) := by
  rw [step_user hc] at hs
  have hres := h.resolve hb (waits_live hwait)
  generalize hq : s.prog a = q at hw hs
  cases hw with
  | @yield l site hme hsay hst hrecv =>
    cases hx : s.kernel.svc r .yield with
    | error err =>
      simp only [PingPong.go, hx, bind, Except.bind] at hs
      cases hs
    | ok y =>
      obtain ⟨x, k⟩ := y
      simp only [PingPong.go, hx, bind, Except.bind] at hs
      cases hs
      obtain ⟨m, hm⟩ := Kernel.svc_yield_switched hx
      refine Or.inl ⟨_, ⟨rfl, rfl, hm.keeps ⟨fun _ => rfl, fun _ _ _ => rfl⟩⟩, ?_,
        congrFun hm.faces b, Or.inl Nat.one_pos⟩
      refine .canSend hme hsay ?_ ?_
      · change (k.faces a).status = _
        rw [hm.faces, hst]
      · change (k.faces a).recving = _
        rw [hm.faces, hrecv]
  | @canSend l site hme hsay hst hrecv =>
    by_cases hbusy : (s.kernel.faces b).status ≠ .notRunnable ∨ (s.kernel.faces b).recving = 0
    · obtain ⟨k, hk, hon⟩ := Kernel.svc_canSend_busy hc hres hbusy r n
      simp only [PingPong.go, hk, bind, Except.bind] at hs
      cases hs
      have hbl : (s.prog b).2.toBlock ≠ 0 := by
        generalize hqb : s.prog b = qb at hwait
        cases hwait with
        | start _ _ _ => simp [Place.toBlock]
        | ready _ _ _ => simp [Place.toBlock]
        | blocked _ hst' hrecv' => exact absurd hbusy (by simp [hst', hrecv'])
      refine Or.inl ⟨_, ⟨rfl, rfl, h.keeps_same hon⟩, ?_, congrFun hon.faces b, Or.inr hbl⟩
      refine .yield hme hsay ?_ ?_
      · change (k.faces a).status = _
        rw [hon.faces, hst]
      · change (k.faces a).recving = _
        rw [hon.faces, hrecv]
    · rw [not_or, not_not] at hbusy
      obtain ⟨k, hk, hon⟩ := Kernel.svc_canSend_waiting hc hres hbusy.1 hbusy.2 r n
      have hsent : l.afterCanSend site (pid b) n 0 = l.afterSend site := by
        unfold Locals.afterCanSend
        rw [if_neg (by decide), if_pos rfl]
      simp only [PingPong.go, hk, bind, Except.bind, Exit.value, hsent] at hs
      cases hs
      have hcur : ∀ c, s.kernel.curenv = some c → (Function.update s.kernel.faces b
          ⟨(s.kernel.faces b).id, .runnable, 0, ⟨n, (s.kernel.faces a).id, 0⟩⟩ c).status = .runnable
            ∧ s.kernel.pos = c.val := by
        intro c' hc'
        cases hc.symm.trans hc'
        rw [Function.update_of_ne hba.symm]
        exact h.cur a hc
      refine Or.inr ⟨l, site, hme, hsay, ⟨rfl, rfl, hon.keeps (Kernel.faces_update hb rfl) hcur⟩,
        ?_, hst, hrecv, ?_⟩
      · change k.faces a = _
        rw [hon.faces, Function.update_of_ne hba.symm]
      · -- the listener was blocked, at the start of its `ipc_recv`
        have hprog : (s.arrive a k (l.afterSend site)).prog b = s.prog b :=
          Function.update_of_ne hba _ _
        have hface : (s.arrive a k (l.afterSend site)).kernel.faces b
            = ⟨(s.kernel.faces b).id, .runnable, 0, ⟨n, (s.kernel.faces a).id, 0⟩⟩ := by
          change k.faces b = _
          rw [hon.faces, Function.update_self]
        rw [hprog, hface, h.ids a (h.runs hc)]
        generalize hqb : s.prog b = qb at hwait
        cases hwait with
        | start _ hst' _ => exact absurd (hst'.symm.trans hbusy.1) (by simp)
        | ready _ hst' _ => exact absurd (hst'.symm.trans hbusy.1) (by simp)
        | blocked hme' _ _ => exact .mk hme' rfl rfl rfl rfl rfl ⟨rfl, rfl⟩

/-- **An environment in `ipc_recv`** gets on with it, and in the end returns value `n`. -/
theorem reads_step (h : Talking s) (hc : s.kernel.curenv = some a)
    (hw : Reads a b n (s.kernel.faces a) (s.prog a)) (hs : s.step (.user r) = .ok s') :
    s'.kernel = s.kernel ∧
    ((∃ q, Advanced s s' a q [] ∧ Reads a b n (s.kernel.faces a) q ∧
      q.2.toRead < (s.prog a).2.toRead) ∨
    ∃ l : Locals, l.me = pid a ∧ (s.kernel.faces a).status = .runnable ∧
      (s.kernel.faces a).recving = 0 ∧
      Advanced s s' a ((l.afterRecv ⟨n, some (pid b), none⟩).vars,
        (l.afterRecv ⟨n, some (pid b), none⟩).place) (l.afterRecv ⟨n, some (pid b), none⟩).lines) := by
  have hkeep : Kernel.Keeps s.kernel s.kernel := h.keeps_same ⟨rfl, rfl, rfl⟩
  rw [step_user hc] at hs
  generalize hq : s.prog a = q at hw hs
  cases hw with
  | @mk l f hme hst hrecv hval hsender hcall hagree =>
    have hadv := RecvFrame.Agrees.advance (k := s.kernel) (e := a) hagree
    rcases hadv with ⟨f', hf', hcall', hagree'⟩ | hf'
    · simp only [PingPong.go, hf', pure, Except.pure] at hs
      cases hs
      exact ⟨rfl, Or.inl ⟨_, ⟨rfl, rfl, hkeep⟩,
        .mk hme hst hrecv hval hsender (hcall'.trans hcall) hagree', toRead_advance hf'⟩⟩
    · have hres : f.call.result (s.kernel.envs a).mail = ⟨n, some (pid b), none⟩ := by
        rw [hcall, ← hval, ← hsender]
        rfl
      rw [hres] at hf'
      simp only [PingPong.go, hf', pure, Except.pure] at hs
      cases hs
      exact ⟨rfl, Or.inr ⟨l, hme, hst, hrecv, rfl, rfl, hkeep⟩⟩

/-- **An environment that leaves** is gone after its step. -/
theorem leaves_step (h : Talking s) (hc : s.kernel.curenv = some a)
    (hw : Leaves a (s.kernel.faces a) (s.prog a)) (hs : s.step (.user r) = .ok s') :
    Advanced s s' a (s.prog a) [] ∧ (s'.kernel.faces a).status = .free ∧
      ∀ e, e ≠ a → s'.kernel.faces e = s.kernel.faces e := by
  rw [step_user hc] at hs
  generalize hq : s.prog a = q at hw hs
  cases hw with
  | gone hst => exact absurd ((h.cur a hc).1.symm.trans hst) (by simp)
  | @soon l site hme hst =>
    cases hx : s.kernel.svc r (.envDestroy l.me) with
    | error err =>
      simp only [PingPong.go, hx, bind, Except.bind] at hs
      cases hs
    | ok y =>
      obtain ⟨x, k⟩ := y
      obtain ⟨rfl, m, hm⟩ := Kernel.svc_destroy_switched hc (hme ▸ h.resolve_self hc) hx
      simp only [PingPong.go, hx, bind, Except.bind, if_true] at hs
      cases hs
      refine ⟨⟨?_, (List.append_nil _).symm, hm.keeps (Kernel.faces_update (h.runs hc) rfl)⟩, ?_, ?_⟩
      · rw [← hq, Function.update_eq_self]
      · change (k.faces a).status = _
        rw [hm.faces, Function.update_self]
      · intro e he
        change k.faces e = _
        rw [hm.faces, Function.update_of_ne he]

/-- After its last value the speaker leaves, after any other one it listens. -/
theorem afterSend_cases {l : Locals} {site : SendSite} (hme : l.me = pid a) (hsay : site.Says n l)
    {v : Face} (hst : v.status = .runnable) (hrecv : v.recving = 0) :
    talk (l.afterSend site).lines = [] ∧
    (n ≠ 10 → Waits a v ((l.afterSend site).vars, (l.afterSend site).place)) ∧
    (n = 10 → Leaves a v ((l.afterSend site).vars, (l.afterSend site).place)) := by
  cases site with
  | opening =>
    obtain rfl : n = 0 := hsay
    exact ⟨rfl, fun _ => .ready hme hst hrecv, fun h10 => absurd h10 (by decide)⟩
  | reply =>
    obtain ⟨_, rfl⟩ := hsay
    unfold Locals.afterSend
    by_cases h10 : l.i = 10
    · rw [if_pos h10]
      exact ⟨rfl, fun hne => absurd h10 hne, fun _ => .soon hme hst⟩
    · rw [if_neg h10]
      exact ⟨rfl, fun _ => .ready hme hst hrecv, fun hc => absurd hc h10⟩

/-- After the last value the listener leaves, after any other one it sends the next. -/
theorem afterRecv_cases {l : Locals} (hme : l.me = pid a) {v : Face} (hst : v.status = .runnable)
    (hrecv : v.recving = 0) (hn : n ≤ 10) :
    (n ≠ 10 → Sends a b (n + 1) v ((l.afterRecv ⟨n, some (pid b), none⟩).vars,
        (l.afterRecv ⟨n, some (pid b), none⟩).place) ∧
      (l.afterRecv ⟨n, some (pid b), none⟩).lines
        = [.got (pid a) n (pid b), .send (n + 1) (pid a) (pid b)]) ∧
    (n = 10 → Leaves a v ((l.afterRecv ⟨n, some (pid b), none⟩).vars,
        (l.afterRecv ⟨n, some (pid b), none⟩).place) ∧
      (l.afterRecv ⟨n, some (pid b), none⟩).lines = [.got (pid a) n (pid b)]) := by
  have hsucc : (n + 1) % 2 ^ 64 = n + 1 := by omega
  unfold Locals.afterRecv
  constructor
  · intro hne
    simp only [if_neg hne, Locals.reply, hsucc, hme, Option.getD_some]
    exact ⟨.canSend rfl ⟨Nat.succ_pos n, rfl⟩ hst hrecv, trivial⟩
  · rintro rfl
    simp only [if_true, hme, Option.getD_some]
    exact ⟨.soon rfl hst, trivial⟩

/-- **The speaker's step**, while value `n` is not delivered. -/
theorem sending_speaker (h : Talking s) (hn : n ≤ 10) (hc : s.kernel.curenv = some (speaker n))
    (hw : Sends (speaker n) (listener n) n (s.kernel.faces (speaker n)) (s.prog (speaker n)))
    (hwait : Waits (listener n) (s.kernel.faces (listener n)) (s.prog (listener n)))
    (hlines : talk s.out = upTo n ++ [sendLine n]) (hs : s.step (.user r) = .ok s') :
    Talking s' := by
  have hne : listener n ≠ speaker n := (speaker_ne_listener n).symm
  rcases h.sends_step hc hne (speaker_cases (n + 1)) hw hwait hs with
    ⟨q, hadv, hq, hface, _⟩ | ⟨l, site, hme, hsay, hadv, hface, hst, hrecv, hreads⟩
  · refine h.of_advanced hadv ?_
    rw [hlines]
    refine (List.append_nil _).symm ▸ .sending n hn ?_ ?_
    · rw [hadv.here]
      exact hq
    · rw [hadv.there hne, hface]
      exact hwait
  · obtain ⟨htalk, hwaits, hleaves⟩ := afterSend_cases hme hsay hst hrecv
    refine h.of_advanced hadv ?_
    rw [hlines, htalk, List.append_nil]
    by_cases h10 : n = 10
    · have hl := hleaves h10
      subst h10
      refine .last ?_ hreads
      change Leaves (speaker 10) (s'.kernel.faces (speaker 10)) (s'.prog (speaker 10))
      rw [hadv.here, hface]
      exact hl
    · refine .reading n (by omega) hreads ?_
      rw [hadv.here, hface]
      exact hwaits h10

/-- The step of an environment that waits, in the middle of the talk. -/
theorem stage_waits (h : Talking s) (hc : s.kernel.curenv = some a)
    (hw : Waits a (s.kernel.faces a) (s.prog a)) (hs : s.step (.user r) = .ok s')
    (hstage : ∀ q, Waits a (s'.kernel.faces a) q → (∀ e, e ≠ a → s'.prog e = s.prog e) →
      s'.prog a = q → (∀ e, e ≠ a → s'.kernel.faces e = s.kernel.faces e) →
      Stage s'.kernel.faces s'.prog (talk s.out)) : Talking s' := by
  obtain ⟨q, lines, hadv, htalk, hq, hother, _⟩ := h.waits_step hc hw hs
  refine h.of_advanced hadv ?_
  rw [htalk, List.append_nil]
  exact hstage q hq (fun e he => hadv.there he) hadv.here hother

/-- The first environment learns who it is, and opens the talk. -/
theorem opens (h : Talking s) {l : Locals} (hc : s.kernel.curenv = some 0)
    (hprog : s.prog 0 = (l, .getenvid)) (hst : (s.kernel.faces 0).status = .runnable)
    (hrecv : (s.kernel.faces 0).recving = 0) (hwait : Waits 1 (s.kernel.faces 1) (s.prog 1)) :
    ∃ t, s.step (.user r) = .ok t ∧
      Advanced s t 0 ((l.afterGetenvid 0x800).vars, (l.afterGetenvid 0x800).place) [sendLine 0] ∧
      Sends 0 1 0 (t.kernel.faces 0) (t.prog 0) ∧ Waits 1 (t.kernel.faces 1) (t.prog 1) := by
  obtain ⟨k, hk, hon⟩ := Kernel.svc_getenvid hc r
  refine ⟨s.arrive 0 k (l.afterGetenvid 0x800), ?_, ⟨rfl, rfl, h.keeps_same hon⟩, ?_, ?_⟩
  · rw [step_user hc, hprog]
    simp only [PingPong.go, hk, bind, Except.bind, h.ids 0 (Or.inl rfl)]
    rfl
  · refine .canSend rfl (show SendSite.Says 0 _ .opening from rfl) ?_ ?_
    · change (k.faces 0).status = _
      rw [hon.faces, hst]
    · change (k.faces 0).recving = _
      rw [hon.faces, hrecv]
  · change Waits 1 (k.faces 1) (s.prog 1)
    rw [hon.faces]
    exact hwait

/-- **Every step of the program keeps the invariant.** -/
theorem user (h : Talking s) (hs : s.step (.user r) = .ok s') : Talking s' := by
  cases hc : s.kernel.curenv with
  | none =>
    simp only [PingPong.step, hc] at hs
    cases hs
  | some c =>
    have hruns := h.runs hc
    have hstage := h.stage
    generalize hlines : talk s.out = lines at hstage
    cases hstage with
    | opening hprog hst hrecv hwait =>
      rcases hruns with rfl | rfl
      · obtain ⟨t, ht, hadv, hsends, hwait'⟩ := h.opens (r := r) hc hprog hst hrecv hwait
        cases hs.symm.trans ht
        refine h.of_advanced hadv ?_
        rw [hlines]
        exact .sending 0 (by decide) hsends hwait'
      · refine h.stage_waits hc hwait hs fun q hq hprog' hprog1 hface => ?_
        rw [hlines]
        refine .opening ((hprog' 0 (by decide)).trans hprog) ?_ ?_ (hprog1 ▸ hq)
        · rw [hface 0 (by decide), hst]
        · rw [hface 0 (by decide), hrecv]
    | sending n hn hw hwait =>
      have hsl := speaker_ne_listener n
      rcases speaker_or_listener hruns n with rfl | rfl
      · exact h.sending_speaker hn hc hw hwait hlines hs
      · refine h.stage_waits hc hwait hs fun q hq hprog' hprog1 hface => ?_
        rw [hlines]
        refine .sending n hn ?_ (hprog1 ▸ hq)
        rw [hprog' _ hsl, hface _ hsl]
        exact hw
    | reading n hn hw hwait =>
      have hsl := speaker_ne_listener n
      rcases speaker_or_listener hruns n with rfl | rfl
      · refine h.stage_waits hc hwait hs fun q hq hprog' hprog1 hface => ?_
        rw [hlines]
        refine .reading n hn ?_ (hprog1 ▸ hq)
        rw [hprog' _ hsl.symm, hface _ hsl.symm]
        exact hw
      · obtain ⟨hker, ⟨q, hadv, hq, _⟩ | ⟨l, hme, hst, hrecv, hadv⟩⟩ := h.reads_step hc hw hs
        · refine h.of_advanced hadv ?_
          rw [hlines, hker]
          refine (List.append_nil _).symm ▸ .reading n hn ?_ ?_
          · rw [hadv.here]
            exact hq
          · rw [hadv.there hsl]
            exact hwait
        · -- the listener has its value and becomes the speaker
          obtain ⟨hsends, hl⟩ := (afterRecv_cases (b := speaker n) hme hst hrecv
            (Nat.le_of_lt hn)).1 (Nat.ne_of_lt hn)
          have hout : upTo n ++ [sendLine n] ++ [.got (pid (listener n)) n (pid (speaker n)),
              .send (n + 1) (pid (listener n)) (pid (speaker n))]
              = upTo (n + 1) ++ [sendLine (n + 1)] := by
            rw [upTo_succ, sendLine, sendLine, gotLine, listener_succ]
            simp [listener]
          refine h.of_advanced hadv ?_
          rw [hlines, hl]
          refine hout ▸ .sending (n + 1) hn ?_ ?_
          · rw [listener_succ, hker]
            change Sends (listener n) _ _ (s.kernel.faces (listener n)) (s'.prog (listener n))
            rw [hadv.here]
            exact hsends
          · rw [listener_succ, hker, hadv.there hsl]
            exact hwait
    | last hl hw =>
      rcases hruns with rfl | rfl
      · obtain ⟨hadv, hgone, hother⟩ := h.leaves_step hc hl hs
        refine h.of_advanced hadv ?_
        rw [hlines]
        refine (List.append_nil _).symm ▸ .last (.gone hgone) ?_
        rw [hadv.there (by decide), hother 1 (by decide)]
        exact hw
      · obtain ⟨hker, ⟨q, hadv, hq, _⟩ | ⟨l, hme, hst, hrecv, hadv⟩⟩ := h.reads_step hc hw hs
        · refine h.of_advanced hadv ?_
          rw [hlines, hker]
          refine (List.append_nil _).symm ▸ .last ?_ ?_
          · rw [hadv.there (by decide)]
            exact hl
          · rw [hadv.here]
            exact hq
        · obtain ⟨hleaves, hlast⟩ := (afterRecv_cases (b := 0) hme hst hrecv (Nat.le_refl 10)).2 rfl
          have hout : upTo 10 ++ [sendLine 10] ++ [.got (pid 1) 10 (pid 0)] = upTo 11 := by
            rw [upTo_succ 10, List.append_assoc]
            rfl
          refine h.of_advanced hadv ?_
          rw [hlines, hlast]
          refine hout ▸ .done ?_ ?_
          · rw [hker, hadv.there (by decide)]
            exact hl
          · rw [hker, hadv.here]
            exact hleaves
    | done h0 h1 =>
      have hgone : ∀ {a}, Leaves a (s.kernel.faces a) (s.prog a) → c = a →
          Advanced s s' a (s.prog a) [] ∧ (s'.kernel.faces a).status = .free ∧
            ∀ e, e ≠ a → s'.kernel.faces e = s.kernel.faces e := by
        rintro a hl rfl
        exact h.leaves_step hc hl hs
      rcases hruns with rfl | rfl
      · obtain ⟨hadv, hfree, hother⟩ := hgone h0 rfl
        refine h.of_advanced hadv ?_
        rw [hlines]
        refine (List.append_nil _).symm ▸ .done (.gone hfree) ?_
        rw [hadv.there (by decide), hother 1 (by decide)]
        exact h1
      · obtain ⟨hadv, hfree, hother⟩ := hgone h1 rfl
        refine h.of_advanced hadv ?_
        rw [hlines]
        refine (List.append_nil _).symm ▸ .done ?_ (.gone hfree)
        rw [hadv.there (by decide), hother 0 (by decide)]
        exact h0

/-- The kernel may change whatever the programs cannot notice, and switch. -/
theorem of_kernel (h : Talking s) {k : Kernel} (hk : Kernel.Keeps s.kernel k)
    (hf : k.faces = s.kernel.faces) : Talking { s with kernel := k } where
  ids := fun e he => (hk.ids e).trans (h.ids e he)
  others := fun e h0 h1 => by
    rw [hk.others e h0 h1]
    exact h.others e h0 h1
  cur := hk.cur
  stage := by
    rw [hf]
    exact h.stage

/-- **Every step keeps the invariant.** -/
theorem step {ev : UserEvent} (h : Talking s) (hs : s.step ev = .ok s') : Talking s' := by
  cases ev with
  | user r => exact h.user hs
  | irq r =>
    obtain ⟨k, hk, h1⟩ := Except.bind_eq_ok_iff.mp hs
    cases h1
    obtain ⟨m, hm⟩ := Kernel.irq_switched hk
    exact h.of_kernel (hm.keeps ⟨fun _ => rfl, fun _ _ _ => rfl⟩) hm.faces

/-- A new environment keeps the receive flag of its slot. -/
theorem create_recving {k k' : Kernel} {binary priority : Nat}
    (hs : k.step (.create binary priority) = .ok k') (e : Slot) :
    (k'.envs e).envIpcRecving = (k.envs e).envIpcRecving := by
  have hstat : (k'.stat e).2 = (k.stat e).2 := by
    cases Kernel.step_stat hs with
    | stay hstat _ => rw [hstat]
    | @take _ _ a st _ _ _ hstat _ _ _ =>
      rw [hstat]
      rcases eq_or_ne e a with rfl | hne
      · rw [Function.update_self]
      · rw [Function.update_of_ne hne]
    | run hy _ _ _ _ => cases hy
  exact hstat

/-- **Two environments that `main` has created talk.** -/
theorem ofStarted (h : s.Started) : Talking s := by
  obtain ⟨L, ram, s₀, binary, priority, priority', hclean, hb, hr⟩ := h.kernel
  obtain ⟨s₀', base, hb', hbooted, hbase⟩ := boot_ok hclean
  cases hb.symm.trans hb'
  have hinv := KernelInv.ofBooted hbooted
  rw [List.finRange_succ, List.finRange_succ, List.map_cons] at hinv
  have hfits := L.fits
  have hlen : 8 ≤ (freshPages base).length := by
    rw [length_freshPages]
    simp only [npage]
    omega
  obtain ⟨s₁, ρ₁, m, _, hs₁, h₁, hc, hm, hl, _⟩ :=
    hinv.create hbooted.pages (by change 4 ≤ (freshPages base).length; omega) binary priority
  change LinkedList.IsList s₁.phys.pageFreeList () ((freshPages base).drop m) at hl
  obtain ⟨s₂, ρ₂, _, _, hs₂, h₂, hc', _⟩ :=
    h₁.create hl (by rw [List.length_drop]; omega) binary priority'
  have hone : (Fin.succ 0 : Slot) = 1 := rfl
  rw [hone] at hc'
  -- the run is these two steps
  have hr' : Run Kernel.step (fun _ _ => True) s₀
    (([] ++ [.create binary priority]) ++ [.create binary priority']) s.kernel := hr
  obtain ⟨t, hr₁, _, hst₂⟩ := hr'.last
  obtain ⟨t', hr₀, _, hst₁⟩ := hr₁.last
  cases hr₀.eq_of_nil
  cases hst₁.symm.trans hs₁
  cases hst₂.symm.trans hs₂
  have h01 : (0 : Slot) ≠ 1 := by decide
  have hzero : ∀ e, s₀.envs e = .zero := hbooted.envs
  have hrecv : ∀ e, (s.kernel.envs e).envIpcRecving = 0 := fun e => by
    rw [create_recving hs₂, create_recving hs₁, hzero]
    rfl
  have hcur : s.kernel.curenv = none := by rw [hc'.curenv, hc.curenv, hbooted.curenv]
  have hst0 : (s.kernel.envs 0).envStatus = .runnable := by rw [hc'.other 0 h01, hc.status]
  refine ⟨?_, ?_, ?_, ?_⟩
  · rintro e (rfl | rfl)
    · change (s.kernel.envs 0).envId = 0x800
      rw [hc'.other 0 h01, hc.id, Kernel.mkenvid, hbooted.nextEnvId]
      rfl
    · change (s.kernel.envs 1).envId = 0x1001
      rw [hc'.id, Kernel.mkenvid, hc.nextEnvId, Kernel.nextCounter, hbooted.nextEnvId]
      rfl
  · intro e h0 h1
    change (s.kernel.envs e).envStatus ≠ _
    rw [hc'.other e h1, hc.other e h0, hzero]
    exact fun hf => by cases hf
  · intro c hc0
    rw [hcur] at hc0
    cases hc0
  · rw [h.out]
    have hp0 : s.prog 0 = ((s.prog 0).1, .getenvid) := Prod.ext rfl (h.prog 0)
    have hp1 : s.prog 1 = ((s.prog 1).1, .getenvid) := Prod.ext rfl (h.prog 1)
    refine .opening hp0 hst0 (hrecv 0) ?_
    rw [hp1]
    exact .start rfl hc'.status (hrecv 1)

end Talking

/-! ## 4. What a stage says -/

/-- The lines about values are a beginning of the whole talk. -/
theorem Stage.prefix {f : Slot → Face} {prog : Slot → Locals × Place} {lines : List Line}
    (h : Stage f prog lines) : lines <+: upTo 11 := by
  have hstep : ∀ n m, n ≤ m → upTo n <+: upTo m := by
    intro n m hnm
    induction m, hnm using Nat.le_induction with
    | base => exact List.prefix_rfl
    | succ m _ ih => exact ih.trans (upTo_succ m ▸ List.prefix_append _ _)
  have hsend : ∀ n, n ≤ 10 → upTo n ++ [sendLine n] <+: upTo 11 := by
    intro n hn
    refine List.IsPrefix.trans ?_ (hstep (n + 1) 11 (by omega))
    exact ⟨[gotLine n], by rw [upTo_succ, List.append_assoc]; rfl⟩
  cases h with
  | opening _ _ _ _ => exact List.nil_prefix
  | sending n hn _ _ => exact hsend n hn
  | reading n hn _ _ => exact hsend n (Nat.le_of_lt hn)
  | last _ _ => exact hsend 10 (Nat.le_refl 10)
  | done _ _ => exact List.prefix_rfl

/-- An environment of the talk that can run has not panicked. -/
theorem Waits.place_ne {a : Slot} {v : Face} {q : Locals × Place} (h : Waits a v q) :
    q.2 ≠ .panicked := by
  cases h <;> simp

theorem Sends.place_ne {a b : Slot} {n : Nat} {v : Face} {q : Locals × Place}
    (h : Sends a b n v q) : q.2 ≠ .panicked := by
  cases h <;> simp

theorem Reads.place_ne {a b : Slot} {n : Nat} {v : Face} {q : Locals × Place}
    (h : Reads a b n v q) : q.2 ≠ .panicked := by
  cases h
  simp

theorem Leaves.place_ne {a : Slot} {v : Face} {q : Locals × Place} (h : Leaves a v q)
    (hst : v.status = .runnable) : q.2 ≠ .panicked := by
  cases h with
  | soon _ _ => simp
  | gone hfree => exact absurd (hst.symm.trans hfree) (by simp)

/-- Neither of the two has panicked. -/
theorem Stage.place_ne {f : Slot → Face} {prog : Slot → Locals × Place} {lines : List Line}
    (h : Stage f prog lines) {c : Slot} (hc : c = 0 ∨ c = 1) (hst : (f c).status = .runnable) :
    (prog c).2 ≠ .panicked := by
  cases h with
  | opening hprog _ _ hwait =>
    rcases hc with rfl | rfl
    · rw [hprog]
      simp
    · exact hwait.place_ne
  | sending n _ hw hwait =>
    rcases speaker_or_listener hc n with rfl | rfl
    · exact hw.place_ne
    · exact hwait.place_ne
  | reading n _ hw hwait =>
    rcases speaker_or_listener hc n with rfl | rfl
    · exact hwait.place_ne
    · exact hw.place_ne
  | last hl hw =>
    rcases hc with rfl | rfl
    · exact hl.place_ne hst
    · exact hw.place_ne
  | done h0 h1 =>
    rcases hc with rfl | rfl
    · exact h0.place_ne hst
    · exact h1.place_ne hst

end RaspiOS
