/-
# The talk can always be finished

In no state of the talk do the two programs block each other.  A listener can be run until it is
blocked (`blocks`), to a blocked listener the value gets through (`sends_through`), and what is in a
mailbox is read, printed and answered (`reads_through`); each of the three comes nearer to its end with
every step.  The values that are left are then sent one after the other.

So in every run the values 0 to 10 arrive one by one, in order, alternately and each exactly once
(`pingpong_talk`), and from every state of a run the talk can be finished (`pingpong_finishes`).
-/
import RaspiOS.Talk

set_option autoImplicit false

namespace RaspiOS

/-! ## 1. Ways to the end -/

/-- Some run leads from one state to the other. -/
def PingPong.Reach (s t : PingPong) : Prop := ∃ es, Run PingPong.step (fun _ _ => True) s es t

namespace Talking

variable {s s' : PingPong} {a b c : Slot} {n : Nat}

theorem reach_refl (s : PingPong) : s.Reach s := ⟨[], .nil⟩

theorem reach_trans {s t u : PingPong} (h : s.Reach t) (h' : t.Reach u) : s.Reach u := by
  obtain ⟨es, hr⟩ := h
  obtain ⟨fs, hr'⟩ := h'
  exact ⟨es ++ fs, hr.append hr'⟩

theorem reach_step {ev : UserEvent} (hs : s.step ev = .ok s') : s.Reach s' :=
  ⟨[ev], .single trivial hs⟩

/-- A timer interrupt, if anyone can run. -/
theorem irq_total (h : Talking s) (hb : (s.kernel.faces b).status = .runnable) :
    ∃ k m, s.step (.irq .zero) = .ok { s with kernel := k } ∧
      Talking { s with kernel := k } ∧
      Kernel.Switched s.kernel.faces (Kernel.cursor s.kernel.pos) k m := by
  obtain ⟨k, hk⟩ := Kernel.schedYield_total
    (s := { s.kernel with timeFrame := saveall irqStack .zero }) (e := b) hb
  have hirq : s.kernel.irq .zero = .ok k := hk
  have hst : s.step (.irq .zero) = .ok { s with kernel := k } := by
    simp only [PingPong.step, hirq]
    rfl
  obtain ⟨m, hm⟩ := Kernel.irq_switched hirq
  exact ⟨k, m, hst, h.step hst, hm⟩

/-- From one of the two, an interrupt leads to the other. -/
theorem irq_other (h : Talking s) (hc : s.kernel.curenv = some a) (hba : b ≠ a)
    (hb : b = 0 ∨ b = 1) (hst : (s.kernel.faces b).status = .runnable) :
    ∃ k, s.Reach { s with kernel := k } ∧ Talking { s with kernel := k } ∧ k.curenv = some b ∧
      k.faces = s.kernel.faces := by
  obtain ⟨k, m, hs, ht, hm⟩ := h.irq_total hst
  have hserves := hm.serves
  rw [h.cursor_eq hc] at hserves
  have hma : m ≠ a := hserves.ne hst hba
  have hm2 := ht.runs hm.cur
  have ha2 := h.runs hc
  have hmb : m = b := by
    rcases hm2 with rfl | rfl <;> rcases ha2 with rfl | rfl <;> rcases hb with rfl | rfl <;>
      first | rfl | exact absurd rfl hma | exact absurd rfl hba
  exact ⟨k, reach_step hs, ht, hmb ▸ hm.cur, hm.faces⟩

/-- **Whoever can run can be made to run**, and nothing else changes. -/
theorem turn_to (h : Talking s) (hb : b = 0 ∨ b = 1) (hst : (s.kernel.faces b).status = .runnable) :
    ∃ k, s.Reach { s with kernel := k } ∧ Talking { s with kernel := k } ∧ k.curenv = some b ∧
      k.faces = s.kernel.faces := by
  have hrun : ∀ {s : PingPong} {a : Slot}, Talking s → s.kernel.curenv = some a →
      (s.kernel.faces b).status = .runnable →
      ∃ k, s.Reach { s with kernel := k } ∧ Talking { s with kernel := k } ∧ k.curenv = some b ∧
        k.faces = s.kernel.faces := by
    intro s a h hc hst
    rcases eq_or_ne b a with rfl | hba
    · exact ⟨s.kernel, reach_refl s, h, hc, rfl⟩
    · exact h.irq_other hc hba hb hst
  cases hc : s.kernel.curenv with
  | some a => exact hrun h hc hst
  | none =>
    obtain ⟨k, m, hs, ht, hm⟩ := h.irq_total hst
    have hst' : (k.faces b).status = .runnable := by rw [hm.faces, hst]
    obtain ⟨k', hr, ht', hcur, hf⟩ := hrun ht hm.cur hst'
    exact ⟨k', reach_trans (reach_step hs) hr, ht', hcur, hf.trans hm.faces⟩

/-- An environment that waits and runs can make its step. -/
theorem waits_total (h : Talking s) (hc : s.kernel.curenv = some b)
    (hw : Waits b (s.kernel.faces b) (s.prog b)) (hab : a ≠ b)
    (ha : (s.kernel.faces a).status = .runnable) : ∃ s', s.step (.user .zero) = .ok s' := by
  rw [step_user hc]
  generalize hq : s.prog b = q at hw
  cases hw with
  | start _ _ _ =>
    obtain ⟨k, hk, _⟩ := Kernel.svc_getenvid hc .zero
    simp only [PingPong.go, hk, bind, Except.bind]
    exact ⟨_, rfl⟩
  | ready _ _ _ =>
    obtain ⟨x, k, hk⟩ := Kernel.svc_recv_total hc hab ha .zero
    simp only [PingPong.go, hk, bind, Except.bind]
    exact ⟨_, rfl⟩
  | blocked _ hst _ => exact absurd ((h.cur b hc).1.symm.trans hst) (by simp)

/-- **The listener can be blocked**, whatever the other one is about to do. -/
theorem blocks (h : Talking s) (hb : b = 0 ∨ b = 1) (hab : a ≠ b)
    (hw : Waits b (s.kernel.faces b) (s.prog b)) (ha : (s.kernel.faces a).status = .runnable) :
    ∃ s', s.Reach s' ∧ Talking s' ∧ talk s'.out = talk s.out ∧ s'.prog a = s.prog a ∧
      s'.kernel.faces a = s.kernel.faces a ∧ Waits b (s'.kernel.faces b) (s'.prog b) ∧
      (s'.prog b).2.toBlock = 0 := by
  induction hk : (s.prog b).2.toBlock using Nat.strong_induction_on generalizing s with
  | _ k ih =>
    rcases Nat.eq_zero_or_pos k with rfl | hpos
    · exact ⟨s, reach_refl s, h, rfl, rfl, rfl, hw, hk⟩
    · have hst : (s.kernel.faces b).status = .runnable := by
        generalize hq : s.prog b = q at hw hk
        cases hw with
        | start _ hst _ => exact hst
        | ready _ hst _ => exact hst
        | blocked _ _ _ => exact absurd hk (Nat.ne_of_lt hpos)
      obtain ⟨k₁, hr₁, h₁, hc₁, hf₁⟩ := h.turn_to hb hst
      have hw₁ : Waits b (k₁.faces b) (s.prog b) := hf₁ ▸ hw
      have ha₁ : (k₁.faces a).status = .runnable := hf₁ ▸ ha
      obtain ⟨s₂, hs₂⟩ := h₁.waits_total hc₁ hw₁ hab ha₁
      obtain ⟨q, lines, hadv, htalk, hq, hother, hlt⟩ := h₁.waits_step hc₁ hw₁ hs₂
      have hhere := hadv.here
      obtain ⟨s₃, hr₃, h₃, ht₃, hp₃, hf₃, hw₃, hz₃⟩ := ih q.2.toBlock (hk ▸ hlt) (h₁.step hs₂)
        (by rw [hhere]; exact hq) (by rw [hother a hab]; exact ha₁) (by rw [hhere])
      refine ⟨s₃, reach_trans hr₁ (reach_trans (reach_step hs₂) hr₃), h₃, ?_, ?_, ?_, hw₃, hz₃⟩
      · rw [ht₃, hadv.out, talk_append, htalk, List.append_nil]
      · rw [hp₃, hadv.there hab]
      · rw [hf₃, hother a hab]
        exact congrFun hf₁ a

/-- An environment in `ipc_send` that runs can make its step. -/
theorem sends_total (h : Talking s) (hc : s.kernel.curenv = some a) (hb : b = 0 ∨ b = 1)
    (hw : Sends a b n (s.kernel.faces a) (s.prog a))
    (hwait : Waits b (s.kernel.faces b) (s.prog b)) : ∃ s', s.step (.user .zero) = .ok s' := by
  have hres := h.resolve hb (waits_live hwait)
  rw [step_user hc]
  generalize hq : s.prog a = q at hw
  cases hw with
  | canSend _ _ _ _ =>
    by_cases hbusy : (s.kernel.faces b).status ≠ .notRunnable ∨ (s.kernel.faces b).recving = 0
    · obtain ⟨k, hk, _⟩ := Kernel.svc_canSend_busy hc hres hbusy .zero n
      simp only [PingPong.go, hk, bind, Except.bind]
      exact ⟨_, rfl⟩
    · rw [not_or, not_not] at hbusy
      obtain ⟨k, hk, _⟩ := Kernel.svc_canSend_waiting hc hres hbusy.1 hbusy.2 .zero n
      simp only [PingPong.go, hk, bind, Except.bind]
      exact ⟨_, rfl⟩
  | yield _ _ hst _ =>
    obtain ⟨k, hk⟩ := Kernel.schedYield_total
      (s := { s.kernel.trapped .zero with timeFrame := saveall syncStack .zero }) (e := a) hst
    have hsvc : s.kernel.svc .zero .yield = .ok (.eret, k) := by
      rw [Kernel.svc_of_cur hc]
      change (Kernel.schedYield _ >>= fun k => pure (Exit.eret, k)) = _
      exact congrArg (· >>= fun k => pure (Exit.eret, k)) hk
    simp only [PingPong.go, hsvc, bind, Except.bind]
    exact ⟨_, rfl⟩

/-- **To a blocked listener the value gets through.** -/
theorem sends_through (h : Talking s) (ha : a = 0 ∨ a = 1) (hb : b = 0 ∨ b = 1) (hba : b ≠ a)
    (hw : Sends a b n (s.kernel.faces a) (s.prog a))
    (hwait : Waits b (s.kernel.faces b) (s.prog b)) (hz : (s.prog b).2.toBlock = 0) :
    ∃ s', s.Reach s' ∧ Talking s' ∧ talk s'.out = talk s.out ∧
      Reads b a n (s'.kernel.faces b) (s'.prog b) ∧
      (n ≠ 10 → Waits a (s'.kernel.faces a) (s'.prog a)) := by
  induction hk : (s.prog a).2.toSend using Nat.strong_induction_on generalizing s with
  | _ k ih =>
    obtain ⟨k₁, hr₁, h₁, hc₁, hf₁⟩ := h.turn_to ha hw.runnable
    have hw₁ : Sends a b n (k₁.faces a) (s.prog a) := hf₁ ▸ hw
    have hwait₁ : Waits b (k₁.faces b) (s.prog b) := hf₁ ▸ hwait
    obtain ⟨s₂, hs₂⟩ := h₁.sends_total hc₁ hb hw₁ hwait₁
    have h₂ := h₁.step hs₂
    rcases h₁.sends_step hc₁ hba hb hw₁ hwait₁ hs₂ with
      ⟨q, hadv, hq, hface, hlt⟩ | ⟨l, site, hme, hsay, hadv, hface, hst₂, hrecv, hreads⟩
    · have hlt' : q.2.toSend < k := hk ▸ hlt.resolve_right fun hne => hne hz
      obtain ⟨s₃, hr₃, h₃, ht₃, hreads, hwaits⟩ := ih q.2.toSend hlt' h₂
        (by rw [hadv.here]; exact hq) (by rw [hadv.there hba, hface]; exact hwait₁)
        (by rw [hadv.there hba]; exact hz) (by rw [hadv.here])
      refine ⟨s₃, reach_trans hr₁ (reach_trans (reach_step hs₂) hr₃), h₃, ?_, hreads, hwaits⟩
      rw [ht₃, hadv.out, List.append_nil]
    · obtain ⟨htalk, hwaits, _⟩ := afterSend_cases hme hsay hst₂ hrecv
      refine ⟨s₂, reach_trans hr₁ (reach_step hs₂), h₂, ?_, hreads, fun hne => ?_⟩
      · rw [hadv.out, talk_append, htalk, List.append_nil]
      · rw [hadv.here, hface]
        exact hwaits hne

/-- **A value in the mailbox is read and printed.** -/
theorem reads_through (h : Talking s) (ha : a = 0 ∨ a = 1) (hba : b ≠ a) (hn : n ≤ 10)
    (hw : Reads a b n (s.kernel.faces a) (s.prog a)) :
    ∃ s', s.Reach s' ∧ Talking s' ∧ s'.prog b = s.prog b ∧
      s'.kernel.faces b = s.kernel.faces b ∧
      (n = 10 → talk s'.out = talk s.out ++ [.got (pid a) n (pid b)]) ∧
      (n ≠ 10 → Sends a b (n + 1) (s'.kernel.faces a) (s'.prog a) ∧
        talk s'.out = talk s.out ++ [.got (pid a) n (pid b), .send (n + 1) (pid a) (pid b)]) := by
  induction hk : (s.prog a).2.toRead using Nat.strong_induction_on generalizing s with
  | _ k ih =>
    obtain ⟨k₁, hr₁, h₁, hc₁, hf₁⟩ := h.turn_to ha hw.runnable
    have hw₁ : Reads a b n (k₁.faces a) (s.prog a) := hf₁ ▸ hw
    obtain ⟨s₂, hs₂⟩ : ∃ s₂, ({ s with kernel := k₁ } : PingPong).step (.user .zero) = .ok s₂ := by
      rw [step_user hc₁]
      generalize hq : s.prog a = q at hw
      cases hw with
      | @mk l f _ _ _ _ _ _ _ =>
        simp only [PingPong.go]
        cases f.advance k₁ a with
        | inl f' => exact ⟨_, rfl⟩
        | inr v => exact ⟨_, rfl⟩
    have h₂ := h₁.step hs₂
    obtain ⟨hker, ⟨q, hadv, hq, hlt⟩ | ⟨l, hme, hst₂, hrecv, hadv⟩⟩ := h₁.reads_step hc₁ hw₁ hs₂
    · obtain ⟨s₃, hr₃, h₃, hp₃, hf₃, hlast, hnext⟩ := ih q.2.toRead (hk ▸ hlt) h₂
        (by rw [hadv.here, hker]; exact hq) (by rw [hadv.here])
      have hout : talk s₂.out = talk s.out := by rw [hadv.out, List.append_nil]
      rw [hout] at hlast hnext
      refine ⟨s₃, reach_trans hr₁ (reach_trans (reach_step hs₂) hr₃), h₃, ?_, ?_, hlast, hnext⟩
      · rw [hp₃, hadv.there hba]
      · rw [hf₃, hker]
        exact congrFun hf₁ b
    · obtain ⟨hnext, hlast⟩ := afterRecv_cases (b := b) hme hst₂ hrecv hn
      refine ⟨s₂, reach_trans hr₁ (reach_step hs₂), h₂, hadv.there hba, ?_, fun h10 => ?_,
        fun hne => ⟨?_, ?_⟩⟩
      · rw [hker]
        exact congrFun hf₁ b
      · rw [hadv.out, talk_append, (hlast h10).2]
        rfl
      · rw [hker, hadv.here]
        exact (hnext hne).1
      · rw [hadv.out, talk_append, (hnext hne).2]
        rfl

/-- The talk is finished from any value on that is in a mailbox. -/
theorem finish_reading (h : Talking s) (hn : n ≤ 10)
    (hw : Reads (listener n) (speaker n) n (s.kernel.faces (listener n)) (s.prog (listener n)))
    (hwait : n ≠ 10 → Waits (speaker n) (s.kernel.faces (speaker n)) (s.prog (speaker n)))
    (hlines : talk s.out = upTo n ++ [sendLine n]) :
    ∃ t, s.Reach t ∧ talk t.out = upTo 11 := by
  induction hk : 10 - n using Nat.strong_induction_on generalizing s n with
  | _ k ih =>
    have hsl := speaker_ne_listener n
    obtain ⟨s₁, hr₁, h₁, hp₁, hf₁, hlast, hnext⟩ :=
      h.reads_through (speaker_cases (n + 1)) hsl hn hw
    rcases eq_or_ne n 10 with rfl | h10
    · refine ⟨s₁, hr₁, ?_⟩
      rw [hlast rfl, hlines, List.append_assoc, upTo_succ 10]
      rfl
    · -- the next value is sent, and gets through
      obtain ⟨hsends, hout⟩ := hnext h10
      have hw₁ : Waits (speaker n) (s₁.kernel.faces (speaker n)) (s₁.prog (speaker n)) := by
        rw [hf₁, hp₁]
        exact hwait h10
      obtain ⟨s₂, hr₂, h₂, ht₂, hp₂, hf₂, hw₂, hz₂⟩ :=
        h₁.blocks (speaker_cases n) hsl.symm hw₁ hsends.runnable
      obtain ⟨s₃, hr₃, h₃, ht₃, hreads, hwaits⟩ :=
        h₂.sends_through (a := listener n) (b := speaker n) (speaker_cases (n + 1))
          (speaker_cases n) hsl
          (by rw [hf₂, hp₂]; exact hsends) hw₂ hz₂
      have hlines₃ : talk s₃.out = upTo (n + 1) ++ [sendLine (n + 1)] := by
        rw [ht₃, ht₂, hout, hlines, upTo_succ, sendLine, sendLine, gotLine, listener_succ]
        simp [listener]
      obtain ⟨t, hr, ht⟩ := ih (10 - (n + 1)) (by omega) (n := n + 1) h₃ (by omega)
        (by rw [listener_succ]; exact hreads) (fun hne => hwaits hne) hlines₃ rfl
      exact ⟨t, reach_trans hr₁ (reach_trans hr₂ (reach_trans hr₃ hr)), ht⟩

/-- The talk is finished from any value on that is to be sent. -/
theorem finish_sending (h : Talking s) (hn : n ≤ 10)
    (hw : Sends (speaker n) (listener n) n (s.kernel.faces (speaker n)) (s.prog (speaker n)))
    (hwait : Waits (listener n) (s.kernel.faces (listener n)) (s.prog (listener n)))
    (hlines : talk s.out = upTo n ++ [sendLine n]) :
    ∃ t, s.Reach t ∧ talk t.out = upTo 11 := by
  obtain ⟨s₂, hr₂, h₂, ht₂, hp₂, hf₂, hw₂, hz₂⟩ :=
    h.blocks (speaker_cases (n + 1)) (speaker_ne_listener n) hwait hw.runnable
  obtain ⟨s₃, hr₃, h₃, ht₃, hreads, hwaits⟩ :=
    h₂.sends_through (speaker_cases n) (speaker_cases (n + 1)) (speaker_ne_listener n).symm
      (by rw [hf₂, hp₂]; exact hw) hw₂ hz₂
  obtain ⟨t, hr, ht⟩ := h₃.finish_reading hn hreads hwaits (by rw [ht₃, ht₂, hlines])
  exact ⟨t, reach_trans hr₂ (reach_trans hr₃ hr), ht⟩

/-- **The talk can be finished.** -/
theorem finish (h : Talking s) : ∃ t, s.Reach t ∧ talk t.out = upTo 11 := by
  have hstage := h.stage
  generalize hlines : talk s.out = lines at hstage
  cases hstage with
  | opening hprog hst hrecv hwait =>
    -- the first environment makes its first step
    obtain ⟨k, hr, h₁, hc, hf⟩ := h.turn_to (Or.inl rfl) hst
    obtain ⟨s₂, hs₂, hadv, hsends, hwait₂⟩ := h₁.opens (r := .zero) hc hprog (hf ▸ hst)
      (hf ▸ hrecv) (hf ▸ hwait)
    have hlines₂ : talk s₂.out = upTo 0 ++ [sendLine 0] := by
      rw [hadv.out, talk_append, hlines]
      rfl
    obtain ⟨t, hr', ht⟩ := (h₁.step hs₂).finish_sending (n := 0) (Nat.zero_le 10) hsends hwait₂
      hlines₂
    exact ⟨t, reach_trans hr (reach_trans (reach_step hs₂) hr'), ht⟩
  | sending n hn hw hwait => exact h.finish_sending hn hw hwait hlines
  | reading n hn hw hwait =>
    exact h.finish_reading (Nat.le_of_lt hn) hw (fun _ => hwait) hlines
  | last hl hw =>
    exact h.finish_reading (n := 10) (Nat.le_refl 10) hw (fun hne => absurd rfl hne) hlines
  | done _ _ => exact ⟨s, reach_refl s, hlines⟩

end Talking

/-! ## 2. Every run -/

/-- `main` can create the two environments. -/
theorem started_reached : ∃ s : PingPong, s.Started := by
  obtain ⟨s₀, s, base, ρ, hb, _, hr, _⟩ := secondEnv_reached .zero
  have hr' : Run Kernel.step Kernel.Tame s₀
    ([.create 0x80000 1, .create 0x80000 1] ++ [.irq .zero]) s := hr
  obtain ⟨k, hk, _⟩ := hr'.last
  exact ⟨⟨k, fun _ => (⟨0, 0, 0, 0⟩, .getenvid), []⟩,
    ⟨image, coldRam, s₀, 0x80000, 1, 1, cleanRam_coldRam, hb, hk.unguarded⟩, fun _ => rfl, rfl⟩

/-- **The talk.**  In every run the values 0 to 10 are sent and arrive one after the other, alternately,
each once and each from the environment that sent it, and `ipc_send` never panics. -/
theorem pingpong_talk {s t : PingPong} {es : List UserEvent} (hstart : s.Started)
    (hr : Run PingPong.step (fun _ _ => True) s es t) :
    talk t.out <+: upTo 11 ∧ ∀ c, t.kernel.curenv = some c → (t.prog c).2 ≠ .panicked := by
  have hinv : Talking t := hr.invariant (Talking.ofStarted hstart) fun _ _ _ h _ hs => h.step hs
  have hpre := hinv.stage.prefix
  exact ⟨hpre, fun c hc => hinv.stage.place_ne (hinv.runs hc) (hinv.cur c hc).1⟩

/-- A whole talk. -/
theorem pingpong_talk_whole : ∃ (s t : PingPong) (es : List UserEvent), s.Started ∧
    Run PingPong.step (fun _ _ => True) s es t ∧ talk t.out = upTo 11 ∧
    ∀ c, t.kernel.curenv = some c → (t.prog c).2 ≠ .panicked := by
  obtain ⟨s, hs⟩ := started_reached
  obtain ⟨t, ⟨es, hr⟩, ht⟩ := (Talking.ofStarted hs).finish
  exact ⟨s, t, es, hs, hr, ht, (pingpong_talk hs hr).2⟩

/-- **The talk can be finished** from every state that a run reaches. -/
theorem pingpong_finishes {s t : PingPong} {es : List UserEvent} (hstart : s.Started)
    (hr : Run PingPong.step (fun _ _ => True) s es t) :
    ∃ fs u, Run PingPong.step (fun _ _ => True) t fs u ∧ talk u.out = upTo 11 := by
  have hinv : Talking t := hr.invariant (Talking.ofStarted hstart) fun _ _ _ h _ hs => h.step hs
  obtain ⟨u, ⟨fs, hr'⟩, hu⟩ := hinv.finish
  exact ⟨fs, u, hr', hu⟩

/-- The talk from its start. -/
theorem pingpong_finishes_start : ∃ (s u : PingPong) (fs : List UserEvent), s.Started ∧
    Run PingPong.step (fun _ _ => True) s fs u ∧ talk u.out = upTo 11 := by
  obtain ⟨s, hs⟩ := started_reached
  obtain ⟨fs, u, hr, hu⟩ := pingpong_finishes hs .nil
  exact ⟨s, u, fs, hs, hr, hu⟩

end RaspiOS
