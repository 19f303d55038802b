/-
# The program that `main` starts

`main` boots the kernel and creates one environment with `user_main_fktest2` of `user/userfunct.c`:
it forks, its child forks, and then the three of them print for ever, each its own line with its own
value of `a`.  The program is embedded from one system call or `printf` to the next, as `Pingpong.lean`
embeds the other one.  `fork` returns twice: to the caller with the result of the system call, and to
the slot that the kernel takes with zero and with the variables of the caller, because the child starts
with a copy of the caller's registers and stack.  That it does is part of what is proved
(`Orderly.forks`).
-/
import RaspiOS.Crew
import RaspiOS.Pingpong

set_option autoImplicit false

namespace RaspiOS

open RoundRobin (Nears)

/-! ## 1. The program -/

/-- The automatic variables of `user_main_fktest2`. -/
structure ForkVars where
  a : Int
  id : Int

/-- The two calls of `fork`. -/
inductive ForkSite where
  | outer
  | inner
deriving DecidableEq

/-- The three endless loops. -/
inductive Speaker where
  | father
  | child
  | child2
deriving DecidableEq

/-- What the program does next. -/
inductive ForkPlace where
  | fork (site : ForkSite)
  | loop (who : Speaker)

/-- A line: which environment printed it, in which loop, with which value. -/
structure ForkLine where
  env : Slot
  who : Speaker
  a : Int

/-- From the return of `fork` on, with what it returned. -/
def ForkVars.afterFork (l : ForkVars) (v : Int) : ForkSite → ForkVars × ForkPlace
  | .outer => if v = 0 then (⟨l.a, v⟩, .fork .inner) else (⟨l.a + 1, v⟩, .loop .father)
  | .inner => if v = 0 then (⟨l.a + 3, v⟩, .loop .child2) else (⟨l.a + 2, v⟩, .loop .child)

/-! ## 2. The system -/

/-- The kernel, the programs, and what has been printed. -/
structure ForkTest where
  kernel : Kernel
  prog : Slot → ForkVars × ForkPlace
  out : List ForkLine

namespace ForkTest

/-- The running environment `c` goes on.  The slot that `env_alloc` takes gets what the caller has, and
zero for the result. -/
def go (s : ForkTest) (c : Slot) (r : Regs) (l : ForkVars) : ForkPlace → Except Halt ForkTest
  | .fork site => do
    let (x, k) ← s.kernel.svc r .envAlloc
    let prog := match s.kernel.envFreeList.first () with
      | some e => Function.update s.prog e (l.afterFork 0 site)
      | none => s.prog
    return { s with kernel := k, prog := Function.update prog c (l.afterFork x.value site) }
  | .loop who => return { s with out := s.out ++ [⟨c, who, l.a⟩] }

/-- One step. -/
def step (s : ForkTest) : UserEvent → Except Halt ForkTest
  | .user r =>
    match s.kernel.curenv with
    | none => .error .noEnv
    | some c => s.go c r (s.prog c).1 (s.prog c).2
  | .irq r => do return { s with kernel := ← s.kernel.irq r }

/-- `main` has created the environment, and nothing has run yet. -/
structure Started (s : ForkTest) : Prop where
  kernel : ∃ L ram s₀ binary priority, CleanRam L ram ∧ boot L ram = .ok s₀ ∧
    s₀.step (.create binary priority) = .ok s.kernel
  prog : ∀ e, s.prog e = (⟨0, 0⟩, .fork .outer)
  out : s.out = []

/-- The stack pointer of the program stays in its page of stack. -/
def Guarded (_ : ForkTest) : UserEvent → Prop
  | .user r => r.OnStackPage
  | .irq _ => True

end ForkTest

/-! ## 3. The three stages -/

/-- The value of `a` in the line of a loop. -/
def Speaker.value : Speaker → Int
  | .father => 1
  | .child => 2
  | .child2 => 3

/-- The environment is in one of the loops. -/
def InLoop (q : ForkVars × ForkPlace) : Prop := ∃ who, q.2 = .loop who

/-- The caller of `fork` goes to its loop. -/
theorem ForkVars.afterFork_inLoop (l : ForkVars) {v : Int} (hv : v ≠ 0) (site : ForkSite) :
    InLoop (l.afterFork v site) := by
  cases site with
  | outer => exact ⟨.father, by rw [afterFork, if_neg hv]⟩
  | inner => exact ⟨.child, by rw [afterFork, if_neg hv]⟩

/-- The environment is in a loop, with the value that belongs to it. -/
def Speaks (q : ForkVars × ForkPlace) (who : Speaker) : Prop := q.1.a = who.value ∧ q.2 = .loop who

/-- The environment is about to call `fork`. -/
def WillFork (q : ForkVars × ForkPlace) (site : ForkSite) : Prop := q.1.a = 0 ∧ q.2 = .fork site

/-- **How far the forks have got**, with the crew in the order of its creation. -/
inductive ForkStage (prog : Slot → ForkVars × ForkPlace) : List Slot → Prop
  | one {f : Slot} : WillFork (prog f) .outer → ForkStage prog [f]
  | two {f c : Slot} : Speaks (prog f) .father → WillFork (prog c) .inner → ForkStage prog [f, c]
  | three {f c g : Slot} : Speaks (prog f) .father → Speaks (prog c) .child →
      Speaks (prog g) .child2 → ForkStage prog [f, c, g]

theorem Speaks.not_fork {q : ForkVars × ForkPlace} {who : Speaker} {site : ForkSite}
    (h : Speaks q who) : q.2 ≠ .fork site := by
  rw [h.2]
  simp

theorem WillFork.not_inLoop {q : ForkVars × ForkPlace} {site : ForkSite} (h : WillFork q site) : ¬ InLoop q := by
  rintro ⟨who, hp⟩
  rw [h.2] at hp
  cases hp

/-- An environment is in one loop. -/
theorem Speaks.who {q : ForkVars × ForkPlace} {who who' : Speaker} (h : Speaks q who)
    (hp : q.2 = .loop who') : who = who' := ForkPlace.loop.inj (h.2.symm.trans hp)

namespace ForkStage

variable {prog prog' : Slot → ForkVars × ForkPlace} {crew : List Slot} {e e' : Slot}
  {who who' : Speaker} {site : ForkSite}

theorem exists_mem (h : ForkStage prog crew) : ∃ e, e ∈ crew := by
  cases h with
  | one _ => exact ⟨_, List.mem_cons_self⟩
  | two _ _ => exact ⟨_, List.mem_cons_self⟩
  | three _ _ _ => exact ⟨_, List.mem_cons_self⟩

theorem length_le (h : ForkStage prog crew) : crew.length ≤ 3 := by
  cases h with
  | one _ => exact Nat.le_of_ble_eq_true rfl
  | two _ _ => exact Nat.le_of_ble_eq_true rfl
  | three _ _ _ => exact le_refl 3

/-- Whoever is in a loop has the value of that loop. -/
theorem value (h : ForkStage prog crew) (he : e ∈ crew) (hp : (prog e).2 = .loop who) :
    (prog e).1.a = who.value := by
  have hsame : ∀ {who'}, Speaks (prog e) who' → (prog e).1.a = who.value := by
    intro who' h'
    rw [h'.2] at hp
    cases hp
    exact h'.1
  have hfork : ∀ {site}, WillFork (prog e) site → (prog e).1.a = who.value := by
    intro site h'
    rw [h'.2] at hp
    cases hp
  cases h with
  | one hf =>
    obtain rfl := List.mem_singleton.mp he
    exact hfork hf
  | two hf hc =>
    rcases List.mem_cons.mp he with rfl | he
    · exact hsame hf
    · obtain rfl := List.mem_singleton.mp he
      exact hfork hc
  | three hf hc hg =>
    rcases List.mem_cons.mp he with rfl | he
    · exact hsame hf
    rcases List.mem_cons.mp he with rfl | he
    · exact hsame hc
    · obtain rfl := List.mem_singleton.mp he
      exact hsame hg

/-- Each loop is run by one member. -/
theorem speaker_inj (h : ForkStage prog crew) (he : e ∈ crew) (he' : e' ∈ crew)
    (hp : (prog e).2 = .loop who) (hp' : (prog e').2 = .loop who) : e = e' := by
  cases h with
  | one hf =>
    obtain rfl := List.mem_singleton.mp he
    exact (List.mem_singleton.mp he').symm
  | @two f c hf hc =>
    have honly : ∀ x ∈ [f, c], (prog x).2 = .loop who → x = f := by
      intro x hx hpx
      rcases List.mem_cons.mp hx with rfl | hx
      · rfl
      · rw [List.mem_singleton.mp hx, hc.2] at hpx
        cases hpx
    rw [honly e he hp, honly e' he' hp']
  | @three f c g hf hc hg =>
    have hplace : ∀ x ∈ [f, c, g], (prog x).2 = .loop who →
        x = f ∧ who = .father ∨ x = c ∧ who = .child ∨ x = g ∧ who = .child2 := by
      intro x hx hpx
      rcases List.mem_cons.mp hx with rfl | hx
      · exact Or.inl ⟨rfl, (hf.who hpx).symm⟩
      rcases List.mem_cons.mp hx with rfl | hx
      · exact Or.inr (Or.inl ⟨rfl, (hc.who hpx).symm⟩)
      · obtain rfl := List.mem_singleton.mp hx
        exact Or.inr (Or.inr ⟨rfl, (hg.who hpx).symm⟩)
    rcases hplace e he hp with ⟨rfl, rfl⟩ | ⟨rfl, rfl⟩ | ⟨rfl, rfl⟩ <;>
      rcases hplace e' he' hp' with ⟨rfl, hw⟩ | ⟨rfl, hw⟩ | ⟨rfl, hw⟩ <;>
      first | rfl | cases hw

/-- Nobody forks any more when there are three. -/
theorem three_not_fork {f c g : Slot} (hf : Speaks (prog f) .father) (hc : Speaks (prog c) .child)
    (hg : Speaks (prog g) .child2) (he : e ∈ [f, c, g]) : (prog e).2 ≠ .fork site := by
  rcases List.mem_cons.mp he with rfl | he
  · exact hf.not_fork
  rcases List.mem_cons.mp he with rfl | he
  · exact hc.not_fork
  · obtain rfl := List.mem_singleton.mp he
    exact hg.not_fork

/-- Three environments run the three loops. -/
theorem speaker (h : ForkStage prog crew) (hlen : crew.length = 3) (who : Speaker) :
    ∃ e ∈ crew, Speaks (prog e) who := by
  cases h with
  | one _ => cases hlen
  | two _ _ => cases hlen
  | @three f c g hf hc hg =>
    cases who with
    | father => exact ⟨f, List.mem_cons_self, hf⟩
    | child => exact ⟨c, List.mem_cons_of_mem _ List.mem_cons_self, hc⟩
    | child2 => exact ⟨g, List.mem_cons_of_mem _ (List.mem_cons_of_mem _ List.mem_cons_self), hg⟩

/-- A single member is about to fork. -/
theorem two_le (h : ForkStage prog crew) (he : e ∈ crew) (hp : InLoop (prog e)) :
    2 ≤ crew.length := by
  cases h with
  | one hf =>
    obtain rfl := List.mem_singleton.mp he
    exact absurd hp hf.not_inLoop
  | two _ _ => exact le_refl 2
  | three _ _ _ => exact Nat.le_of_ble_eq_true rfl

/-- Of two members the second is about to fork. -/
theorem second (h : ForkStage prog crew) (hlen : crew.length = 2) :
    ∃ f c, crew = [f, c] ∧ f ≠ c ∧ ¬ InLoop (prog c) := by
  cases h with
  | one _ => cases hlen
  | @two f c hf hc =>
    refine ⟨f, c, rfl, ?_, hc.not_inLoop⟩
    rintro rfl
    exact hf.not_fork hc.2
  | three _ _ _ => cases hlen

theorem length_of_fork (h : ForkStage prog crew) (he : e ∈ crew) (hp : (prog e).2 = .fork site) :
    crew.length ≤ 2 := by
  cases h with
  | one _ => exact Nat.le_of_ble_eq_true rfl
  | two _ _ => exact le_refl 2
  | three hf hc hg => exact absurd hp (three_not_fork hf hc hg he)

/-- **A fork leads to the next stage.** -/
theorem fork (h : ForkStage prog crew) {c : Slot} (hc : c ∈ crew) (hp : (prog c).2 = .fork site)
    (he : e ∉ crew) {v : Int} (hv : v ≠ 0) : ForkStage (Function.update (Function.update prog e
      ((prog c).1.afterFork 0 site)) c ((prog c).1.afterFork v site)) (crew ++ [e]) := by
  have hec : e ≠ c := by
    rintro rfl
    exact he hc
  have hchild : Function.update (Function.update prog e ((prog c).1.afterFork 0 site)) c
      ((prog c).1.afterFork v site) e = (prog c).1.afterFork 0 site := by
    rw [Function.update_of_ne hec, Function.update_self]
  have hcaller : Function.update (Function.update prog e ((prog c).1.afterFork 0 site)) c
      ((prog c).1.afterFork v site) c = (prog c).1.afterFork v site := Function.update_self _ _ _
  cases h with
  | @one f hf =>
    obtain rfl := List.mem_singleton.mp hc
    have hsite := hf.2.symm.trans hp
    cases hsite
    refine .two ?_ ?_
    · rw [hcaller]
      simp [ForkVars.afterFork, hv, Speaks, hf.1, Speaker.value]
    · rw [hchild]
      simp [ForkVars.afterFork, WillFork, hf.1]
  | @two f d hf hd =>
    have hne : c ≠ f := by
      rintro rfl
      exact hf.not_fork hp
    obtain rfl : c = d := (List.mem_cons.mp hc).elim (absurd · hne) List.mem_singleton.mp
    have hsite := hd.2.symm.trans hp
    cases hsite
    have hfe : f ≠ e := by
      rintro rfl
      exact he List.mem_cons_self
    refine .three ?_ ?_ ?_
    · rw [Function.update_of_ne hne.symm, Function.update_of_ne hfe]
      exact hf
    · rw [hcaller]
      simp [ForkVars.afterFork, hv, Speaks, hd.1, Speaker.value]
    · rw [hchild]
      simp [ForkVars.afterFork, Speaks, hd.1, Speaker.value]
  | three hf hd hg => exact absurd hp (three_not_fork hf hd hg hc)

end ForkStage

/-- **The invariant.** -/
structure Forking (s : ForkTest) (crew : List Slot) : Prop where
  kernel : ∃ L base km, Crew L base km s.kernel crew
  stage : ForkStage s.prog crew
  lines : ∀ x ∈ s.out, x.env ∈ crew ∧ (s.prog x.env).1.a = x.a ∧ (s.prog x.env).2 = .loop x.who

/-- From one state to a later one: new members and new lines come behind the old ones. -/
structure Later (s : ForkTest) (crew : List Slot) (s' : ForkTest) (crew' : List Slot)
    (new : List ForkLine) : Prop where
  next : Forking s' crew'
  crew : crew <+: crew'
  out : s'.out = s.out ++ new

theorem Later.trans {s s' s'' : ForkTest} {crew crew' crew'' : List Slot}
    {new new' : List ForkLine} (h : Later s crew s' crew' new)
    (h' : Later s' crew' s'' crew'' new') : Later s crew s'' crew'' (new ++ new') where
  next := h'.next
  crew := h.crew.trans h'.crew
  out := by rw [h'.out, h.out, List.append_assoc]

namespace Forking

variable {s s' : ForkTest} {crew : List Slot} {c e : Slot} {r : Regs}

theorem ofStarted (h : s.Started) : Forking s [0] := by
  obtain ⟨⟨L, ram, s₀, binary, priority, hclean, hboot, hst⟩, hprog, hout⟩ := h
  obtain ⟨base, hcrew, _⟩ := Crew.ofCreate hclean hboot hst
  refine ⟨⟨L, base, _, hcrew⟩, .one ?_, fun x hx => ?_⟩
  · rw [hprog]
    exact ⟨rfl, rfl⟩
  · rw [hout] at hx
    cases hx

/-- Nothing has happened. -/
theorem later (h : Forking s crew) : Later s crew s crew [] :=
  ⟨h, List.prefix_rfl, (List.append_nil _).symm⟩

theorem cursor_of_cur (h : Forking s crew) (hc : s.kernel.curenv = some c) :
    Kernel.cursor s.kernel.pos = c := by
  obtain ⟨L, base, km, hcrew⟩ := h.kernel
  exact (hcrew.cur c hc).2

/-- The kernel goes on without the program. -/
theorem of_kernel (h : Forking s crew) {k : Kernel} (hk : ∃ L base km, Crew L base km k crew) :
    Forking { s with kernel := k } crew :=
  ⟨hk, h.stage, h.lines⟩

/-- A member in a loop prints its line. -/
theorem prints (h : Forking s crew) {who : Speaker} (hc : c ∈ crew) (hp : (s.prog c).2 = .loop who) :
    Forking { s with out := s.out ++ [⟨c, who, (s.prog c).1.a⟩] } crew := by
  refine ⟨h.kernel, h.stage, fun x hx => ?_⟩
  rcases List.mem_append.mp hx with hx | hx
  · exact h.lines x hx
  · rw [List.mem_singleton.mp hx]
    exact ⟨hc, rfl, hp⟩

/-- **A member forks.** -/
theorem forks (h : Forking s crew) (hc : s.kernel.curenv = some c) {site : ForkSite}
    (hp : (s.prog c).2 = .fork site) (hr : r.OnStackPage) :
    ∃ e v s', Crew.Forks s.kernel c r e v s'.kernel ∧ s.step (.user r) = .ok s' ∧
      s'.out = s.out ∧ Forking s' (crew ++ [e]) ∧ InLoop (s'.prog c) := by
  obtain ⟨L, base, km, hcrew⟩ := h.kernel
  have hmem := (hcrew.cur c hc).1
  obtain ⟨e, v, k, hnot, hforks, hcrew'⟩ := hcrew.fork hc hr (h.stage.length_of_fork hmem hp)
  have hstage := h.stage.fork hmem hp hnot hforks.pos.ne'
  refine ⟨e, v, { s with
    kernel := k
    prog := Function.update (Function.update s.prog e ((s.prog c).1.afterFork 0 site)) c
      ((s.prog c).1.afterFork v site) }, hforks, ?_, rfl, ⟨⟨L, base, km, hcrew'⟩, hstage, ?_⟩, ?_⟩
  · simp only [ForkTest.step, hc, ForkTest.go, hp, hforks.ret, hforks.first]
    rfl
  · intro x hx
    obtain ⟨hx, ha, hw⟩ := h.lines x hx
    have hxc : x.env ≠ c := by
      intro he
      rw [he, hp] at hw
      cases hw
    have hxe : x.env ≠ e := by
      intro he
      exact hnot (he ▸ hx)
    dsimp only
    rw [Function.update_of_ne hxc, Function.update_of_ne hxe]
    exact ⟨List.mem_append_left _ hx, ha, hw⟩
  · dsimp only
    rw [Function.update_self]
    exact ForkVars.afterFork_inLoop _ hforks.pos.ne' site

/-- A timer interrupt: it is the turn of `n`. -/
theorem irq (h : Forking s crew) (r : Regs) : ∃ n s', s.step (.irq r) = .ok s' ∧ n ∈ crew ∧
    (∀ i ∈ crew, Nears i n (Kernel.cursor s.kernel.pos)) ∧ s'.kernel.curenv = some n ∧
    s'.out = s.out ∧ Forking s' crew := by
  obtain ⟨L, base, km, hcrew⟩ := h.kernel
  obtain ⟨e, he⟩ := h.stage.exists_mem
  obtain ⟨k, hk⟩ := hcrew.irq_total he r
  obtain ⟨hcrew', n, hn, hcur, hnears⟩ := hcrew.irq hk
  refine ⟨n, { s with kernel := k }, ?_, hn, hnears, hcur, rfl, h.of_kernel ⟨L, base, km, hcrew'⟩⟩
  simp only [ForkTest.step, hk]
  rfl

/-- The program of `c` makes its next step, and is in a loop then: there is one environment more, or a
line of `c`. -/
theorem user (h : Forking s crew) (hc : s.kernel.curenv = some c) (hr : r.OnStackPage) :
    ∃ s' crew' new, s.step (.user r) = .ok s' ∧ s'.kernel.curenv = some c ∧
      InLoop (s'.prog c) ∧ Later s crew s' crew' new ∧
      (crew.length < crew'.length ∨ ∃ x ∈ new, x.env = c) := by
  cases hp : (s.prog c).2 with
  | fork site =>
    obtain ⟨e, _, s', hforks, hst, hout, h', hloop⟩ := h.forks hc hp hr
    refine ⟨s', crew ++ [e], [], hst, hforks.cur.trans hc, hloop,
      ⟨h', List.prefix_append _ _, ?_⟩, Or.inl ?_⟩
    · rw [hout, List.append_nil]
    · rw [List.length_append, List.length_singleton]
      exact Nat.lt_succ_self _
  | loop who =>
    obtain ⟨L, base, km, hcrew⟩ := h.kernel
    have hprints := h.prints (hcrew.cur c hc).1 hp
    refine ⟨{ s with out := s.out ++ [⟨c, who, (s.prog c).1.a⟩] }, crew, [⟨c, who, (s.prog c).1.a⟩],
      ?_, hc, ⟨who, hp⟩, ⟨hprints, List.prefix_rfl, rfl⟩, Or.inr ⟨_, List.mem_cons_self, rfl⟩⟩
    simp only [ForkTest.step, hc, ForkTest.go, hp]
    rfl

/-- **The step lemma.** -/
theorem step {ev : UserEvent} (h : Forking s crew) (hg : s.Guarded ev) (hs : s.step ev = .ok s') :
    ∃ crew', Forking s' crew' := by
  cases ev with
  | user r =>
    cases hc : s.kernel.curenv with
    | none =>
      simp only [ForkTest.step, hc] at hs
      cases hs
    | some c =>
      obtain ⟨t, crew', new, hst, _, _, hlater, _⟩ := h.user hc hg
      rw [hs] at hst
      cases hst
      exact ⟨crew', hlater.next⟩
  | irq r =>
    obtain ⟨n, t, hst, _, _, _, _, h'⟩ := h.irq r
    rw [hs] at hst
    cases hst
    exact ⟨crew, h'⟩

end Forking

/-! ## 4. What is printed -/

/-- **Order.**  Whatever has been printed is the line of its loop, each loop is run by one environment
and each environment runs one loop, there are three environments at most, a `fork` succeeds and gives
the child the caller's registers, with zero in `x0`, and a copy of its stack, and the kernel never
halts. -/
structure ForkTest.Orderly (s : ForkTest) : Prop where
  values : ∀ x ∈ s.out, x.a = x.who.value
  speakers : ∀ x ∈ s.out, ∀ y ∈ s.out, x.env = y.env ↔ x.who = y.who
  environments : ∃ l : List Slot, l.length ≤ 3 ∧
    ∀ e, (s.kernel.envs e).envStatus ≠ .free → e ∈ l
  forks : ∀ c site r, s.kernel.curenv = some c → (s.prog c).2 = .fork site → r.OnStackPage →
    ∃ e s', s.step (.user r) = .ok s' ∧ Kernel.ForkFaithful (s.kernel.trapped r) s'.kernel c e
  interrupted : ∀ r, ∃ s', s.step (.irq r) = .ok s'
  goesOn : ∀ c r, s.kernel.curenv = some c → r.OnStackPage → ∃ s', s.step (.user r) = .ok s'

theorem Forking.orderly {s : ForkTest} {crew : List Slot} (h : Forking s crew) : s.Orderly := by
  obtain ⟨L, base, km, hcrew⟩ := h.kernel
  constructor
  case values =>
    intro x hx
    obtain ⟨hin, ha, hw⟩ := h.lines x hx
    rw [← ha]
    exact h.stage.value hin hw
  case speakers =>
    intro x hx y hy
    obtain ⟨hin, _, hw⟩ := h.lines x hx
    obtain ⟨hin', _, hw'⟩ := h.lines y hy
    constructor
    · intro he
      rw [he, hw'] at hw
      exact (ForkPlace.loop.inj hw).symm
    · intro he
      rw [← he] at hw'
      exact h.stage.speaker_inj hin hin' hw hw'
  case environments =>
    refine ⟨crew, h.stage.length_le, fun e he => ?_⟩
    by_contra hn
    exact he (hcrew.free e hn)
  case forks =>
    intro c site r hc hp hr
    obtain ⟨e, _, s', hforks, hst, _⟩ := h.forks hc hp hr
    exact ⟨e, s', hst, hforks.faithful⟩
  case interrupted =>
    intro r
    obtain ⟨_, s', hst, _⟩ := h.irq r
    exact ⟨s', hst⟩
  case goesOn =>
    intro c r hc hr
    obtain ⟨s', _, _, hst, _⟩ := h.user hc hr
    exact ⟨s', hst⟩

/-! ## 5. Everybody prints -/

namespace ForkTest

/-- What an environment does between two timer interrupts: at least one step of its program. -/
def Quantum (es : List UserEvent) : Prop := (∃ r, .user r ∈ es) ∧ ∀ r, .irq r ∉ es

/-- Rounds: a timer interrupt, and what the environment does that it has chosen. -/
def rounds (rs : List (Regs × List UserEvent)) : List UserEvent :=
  rs.flatMap fun p => .irq p.1 :: p.2

/-- Three environments are there. -/
def AllThere (s : ForkTest) : Prop :=
  (Finset.univ.filter fun e => (s.kernel.envs e).envStatus ≠ .free).card = 3

/-- Between the two states all three loops have printed. -/
def AllPrint (s s' : ForkTest) : Prop :=
  ∃ new, s'.out = s.out ++ new ∧ ∀ who, ∃ x ∈ new, x.who = who

end ForkTest

open ForkTest (Quantum rounds)

/-- **A round.**  It is the turn of `n`, which is in a loop when it is over, and there is one
environment more, or a line of `n`. -/
structure Round (s : ForkTest) (crew : List Slot) (n : Slot) (s' : ForkTest) (crew' : List Slot)
    (new : List ForkLine) : Prop where
  mem : n ∈ crew
  nears : ∀ i ∈ crew, Nears i n (Kernel.cursor s.kernel.pos)
  cursor : Kernel.cursor s'.kernel.pos = n
  inLoop : InLoop (s'.prog n)
  later : Later s crew s' crew' new
  turn : crew.length < crew'.length ∨ ∃ x ∈ new, x.env = n

namespace Forking

variable {s s' : ForkTest} {crew : List Slot} {n : Slot} {es : List UserEvent}

/-- The events of a quantum, one by one. -/
theorem quantum (h : Forking s crew) (hn : s.kernel.curenv = some n)
    (hr : Run ForkTest.step ForkTest.Guarded s es s') (hirq : ∀ r, .irq r ∉ es) :
    s'.kernel.curenv = some n ∧ ∃ crew' new, Later s crew s' crew' new ∧
      ((∃ r, .user r ∈ es) → InLoop (s'.prog n) ∧
        (crew.length < crew'.length ∨ ∃ x ∈ new, x.env = n)) := by
  have hr' : Run ForkTest.step (fun t ev => t.Guarded ev ∧ ∀ r, ev ≠ .irq r) s es s' :=
    hr.mono_of_mem fun t ev hev hg => ⟨hg, fun r he => hirq r (he ▸ hev)⟩
  refine hr'.invariantEvents (I := fun es t => t.kernel.curenv = some n ∧ ∃ crew' new,
    Later s crew t crew' new ∧ ((∃ r, .user r ∈ es) → InLoop (t.prog n) ∧
      (crew.length < crew'.length ∨ ∃ x ∈ new, x.env = n)))
    ⟨hn, crew, [], h.later, fun ⟨_, hu⟩ => absurd hu List.not_mem_nil⟩ ?_
  rintro es t ev u ⟨hcur, crew', new, hlater, hran⟩ ⟨hg, hno⟩ hs
  cases ev with
  | irq r => exact absurd rfl (hno r)
  | user r =>
    obtain ⟨v, crew₁, new₁, hst, hcur₁, hloop, hlater₁, hturn⟩ := hlater.next.user hcur hg
    rw [hs] at hst
    cases hst
    refine ⟨hcur₁, crew₁, new ++ new₁, hlater.trans hlater₁, fun _ => ⟨hloop, ?_⟩⟩
    rcases hturn with hlt | ⟨x, hx, hxn⟩
    · exact Or.inl (lt_of_le_of_lt hlater.crew.length_le hlt)
    · exact Or.inr ⟨x, List.mem_append_right _ hx, hxn⟩

/-- **The first round** of a run. -/
theorem round (h : Forking s crew) {p : Regs × List UserEvent} {rs : List (Regs × List UserEvent)}
    (hq : Quantum p.2) (hr : Run ForkTest.step ForkTest.Guarded s (rounds (p :: rs)) s') :
    ∃ n t crew' new, Round s crew n t crew' new ∧
      Run ForkTest.step ForkTest.Guarded t (rounds rs) s' := by
  have hr' : Run ForkTest.step ForkTest.Guarded s (([.irq p.1] ++ p.2) ++ rounds rs) s' := hr
  obtain ⟨t, hr', hrest⟩ := hr'.split
  obtain ⟨t₁, hr₁, hquantum⟩ := hr'.split
  obtain ⟨n, t', hst, hn, hnears, hcur, hout, h₁⟩ := h.irq p.1
  have hr₂ : Run ForkTest.step ForkTest.Guarded s ([] ++ [.irq p.1]) t₁ := hr₁
  obtain ⟨u, hu, _, hs⟩ := hr₂.last
  rw [hu.eq_of_nil, hst] at hs
  cases hs
  obtain ⟨hcur', crew', new, hlater, hran⟩ := h₁.quantum hcur hquantum hq.2
  exact ⟨n, t, crew', new,
    { mem := hn
      nears := hnears
      cursor := hlater.next.cursor_of_cur hcur'
      inLoop := (hran hq.1).1
      later := ⟨hlater.next, hlater.crew, by rw [hlater.out, hout]⟩
      turn := (hran hq.1).2 }, hrest⟩

end Forking

namespace Round

variable {s s' t : ForkTest} {crew crew' crew'' : List Slot} {n m : Slot} {new new' : List ForkLine}

theorem mem_later (h : Round s crew n s' crew' new) : n ∈ crew' := h.later.crew.subset h.mem

/-- There are two environments after the first round. -/
theorem two_le (h : Round s crew n s' crew' new) : 2 ≤ crew'.length :=
  h.later.next.stage.two_le h.mem_later h.inLoop

/-- There are three after the second: the one that has forked is not chosen again before its child. -/
theorem three (h : Round s crew n s' crew' new) (h' : Round s' crew' m t crew'' new') :
    crew''.length = 3 := by
  have hle := h'.later.next.stage.length_le
  have hpre := h'.later.crew.length_le
  have htwo := h.two_le
  by_contra hne
  obtain rfl : crew' = crew'' := h'.later.crew.eq_of_length_le (by omega)
  have hlen : crew'.length = 2 := by omega
  obtain ⟨f, c, rfl, hfc, hc⟩ := h.later.next.stage.second hlen
  obtain ⟨f', c', heq, _, hc'⟩ := h'.later.next.stage.second hlen
  cases heq
  have hfather : ∀ {u : ForkTest} {i : Slot}, i ∈ [f, c] → InLoop (u.prog i) →
      ¬ InLoop (u.prog c) → i = f := by
    intro u i hi hloop hnot
    rcases List.mem_cons.mp hi with rfl | hi
    · rfl
    · rw [List.mem_singleton.mp hi] at hloop
      exact absurd hloop hnot
  obtain rfl := hfather h.mem_later h.inLoop hc
  obtain rfl := hfather h'.mem h'.inLoop hc'
  have hlt := h'.nears c (List.mem_cons_of_mem _ List.mem_cons_self) hfc
  rw [h.cursor] at hlt
  exact Nat.lt_irrefl _ hlt

end Round

/-- A record of turns, newest first. -/
structure TurnsOf (s : ForkTest) (crew l : List Slot) : Prop where
  cursor : ∃ l', l = Kernel.cursor s.kernel.pos :: l'
  nears : ∀ i ∈ crew, l.IsChain (Nears i)

namespace TurnsOf

variable {s s' : ForkTest} {crew crew' l : List Slot} {n : Slot} {new : List ForkLine}

theorem start (s : ForkTest) (crew : List Slot) : TurnsOf s crew [Kernel.cursor s.kernel.pos] :=
  ⟨⟨[], rfl⟩, fun _ _ => .singleton _⟩

/-- A round is recorded. -/
theorem round (hl : TurnsOf s crew l) (h : Round s crew n s' crew' new) :
    TurnsOf s' crew (n :: l) := by
  obtain ⟨⟨l', rfl⟩, hnears⟩ := hl
  exact ⟨⟨_, by rw [h.cursor]⟩, fun i hi => .cons_cons (h.nears i hi) (hnears i hi)⟩

end TurnsOf

namespace Forking

variable {s s' : ForkTest} {crew l : List Slot} {rs : List (Regs × List UserEvent)}

/-- The environments that are there are the crew. -/
theorem allThere_iff (h : Forking s crew) : s.AllThere ↔ crew.length = 3 := by
  obtain ⟨L, base, km, hcrew⟩ := h.kernel
  have hset : (Finset.univ.filter fun e => (s.kernel.envs e).envStatus ≠ .free) = crew.toFinset := by
    ext e
    rw [Finset.mem_filter, List.mem_toFinset]
    constructor
    · rintro ⟨_, he⟩
      by_contra hn
      exact he (hcrew.free e hn)
    · intro he
      refine ⟨Finset.mem_univ e, ?_⟩
      rw [hcrew.runs e he]
      decide
  rw [ForkTest.AllThere, hset, List.toFinset_card_of_nodup hcrew.nodup]

/-- **Rounds of three environments**: whoever had a turn has printed. -/
theorem rounds_three (hlen : crew.length = 3) (h : Forking s crew) (hl : TurnsOf s crew l)
    (hq : ∀ p ∈ rs, Quantum p.2) (hr : Run ForkTest.step ForkTest.Guarded s (rounds rs) s') :
    ∃ new l', Later s crew s' crew new ∧ TurnsOf s' crew (l' ++ l) ∧ l'.length = rs.length ∧
      ∀ n ∈ l', n ∈ crew ∧ ∃ x ∈ new, x.env = n := by
  induction rs generalizing s l with
  | nil =>
    rw [hr.eq_of_nil]
    exact ⟨[], [], h.later, hl, rfl, fun n hn => absurd hn List.not_mem_nil⟩
  | cons p rs ih =>
    obtain ⟨n, t, crew', new, hround, hrest⟩ := h.round (hq p List.mem_cons_self) hr
    have hle := hround.later.next.stage.length_le
    obtain rfl : crew = crew' := hround.later.crew.eq_of_length_le (by omega)
    obtain ⟨new', l', hlater, hl', hlen', hprint⟩ := ih hround.later.next (hl.round hround)
      (fun q hq' => hq q (List.mem_cons_of_mem _ hq')) hrest
    refine ⟨new ++ new', l' ++ [n], hround.later.trans hlater, ?_, ?_, fun m hm => ?_⟩
    · rw [List.append_assoc]
      exact hl'
    · rw [List.length_append, hlen', List.length_singleton, List.length_cons]
    · rcases List.mem_append.mp hm with hm | hm
      · obtain ⟨hin, x, hx, hxm⟩ := hprint m hm
        exact ⟨hin, x, List.mem_append_right _ hx, hxm⟩
      · obtain rfl := List.mem_singleton.mp hm
        rcases hround.turn with hlt | ⟨x, hx, hxm⟩
        · exact absurd hlt (Nat.lt_irrefl _)
        · exact ⟨hround.mem, x, List.mem_append_left _ hx, hxm⟩

/-- Three environments print all three lines within three rounds. -/
theorem allPrint_three (hlen : crew.length = 3) (h : Forking s crew)
    (hq : ∀ p ∈ rs, Quantum p.2) (hrs : 3 ≤ rs.length)
    (hr : Run ForkTest.step ForkTest.Guarded s (rounds rs) s') : s.AllPrint s' := by
  obtain ⟨new, l, hlater, hl, hll, hprint⟩ := h.rounds_three hlen (TurnsOf.start s crew) hq hr
  refine ⟨new, hlater.out, fun who => ?_⟩
  obtain ⟨e, he, hw⟩ := hlater.next.stage.speaker hlen who
  have hmem : e ∈ l := RoundRobin.mem_of_nears (hl.nears e he).left_of_append he
    (fun n hn => (hprint n hn).1) (by omega)
  obtain ⟨x, hx, rfl⟩ := (hprint e hmem).2
  have hin : x ∈ s'.out := by
    rw [hlater.out]
    exact List.mem_append_right _ hx
  exact ⟨x, hx, (hw.who (hlater.next.lines x hin).2.2).symm⟩

/-- **The first two rounds** of a run, after which there are three environments. -/
theorem two_rounds (h : Forking s crew) (hq : ∀ p ∈ rs, Quantum p.2) (hrs : 2 ≤ rs.length)
    (hr : Run ForkTest.step ForkTest.Guarded s (rounds rs) s') :
    ∃ t crew' new, Later s crew t crew' new ∧ crew'.length = 3 ∧
      Run ForkTest.step ForkTest.Guarded t (rounds (rs.drop 2)) s' := by
  rcases rs with _ | ⟨p, _ | ⟨p', rs⟩⟩
  · cases hrs
  · exact absurd hrs (by simp)
  obtain ⟨n, t, crew₁, new₁, hround₁, hr₁⟩ := h.round (hq p List.mem_cons_self) hr
  obtain ⟨m, u, crew₂, new₂, hround₂, hr₂⟩ := hround₁.later.next.round
    (hq p' (List.mem_cons_of_mem _ List.mem_cons_self)) hr₁
  exact ⟨u, crew₂, _, hround₁.later.trans hround₂.later, hround₁.three hround₂, hr₂⟩

/-- **Everybody is there within two rounds.** -/
theorem allThere (h : Forking s crew) (hq : ∀ p ∈ rs, Quantum p.2) (hrs : 2 ≤ rs.length)
    (hr : Run ForkTest.step ForkTest.Guarded s (rounds rs) s') : s'.AllThere := by
  obtain ⟨t, crew', _, hlater, hlen, hr'⟩ := h.two_rounds hq hrs hr
  obtain ⟨_, _, hlater', _⟩ := hlater.next.rounds_three hlen (TurnsOf.start t crew')
    (fun q hq' => hq q (List.mem_of_mem_drop hq')) hr'
  exact hlater'.next.allThere_iff.mpr hlen

/-- **Everybody prints within five rounds**: two until there are three environments, and three more. -/
theorem allPrint (h : Forking s crew) (hq : ∀ p ∈ rs, Quantum p.2) (hrs : 5 ≤ rs.length)
    (hr : Run ForkTest.step ForkTest.Guarded s (rounds rs) s') : s.AllPrint s' := by
  obtain ⟨t, crew', new₁, hlater, hlen, hr'⟩ := h.two_rounds hq (by omega) hr
  have hdrop : 3 ≤ (rs.drop 2).length := by
    rw [List.length_drop]
    omega
  obtain ⟨new, hout, hall⟩ := hlater.next.allPrint_three hlen
    (fun q hq' => hq q (List.mem_of_mem_drop hq')) hdrop hr'
  refine ⟨new₁ ++ new, ?_, fun who => ?_⟩
  · rw [hout, hlater.out, List.append_assoc]
  · obtain ⟨x, hx, hw⟩ := hall who
    exact ⟨x, List.mem_append_right _ hx, hw⟩

/-- There are runs of as many rounds as one likes. -/
theorem exists_rounds (h : Forking s crew) {r r' : Regs} (hr' : r'.OnStackPage) (n : Nat) :
    ∃ t, Run ForkTest.step ForkTest.Guarded s (rounds (List.replicate n (r, [.user r']))) t := by
  induction n generalizing s crew with
  | zero => exact ⟨s, .nil⟩
  | succ n ih =>
    obtain ⟨c, s₁, hst₁, _, _, hcur, _, h₁⟩ := h.irq r
    obtain ⟨s₂, crew₂, _, hst₂, _, _, hlater, _⟩ := h₁.user hcur hr'
    obtain ⟨t, ht⟩ := ih hlater.next
    have hturn : Run ForkTest.step ForkTest.Guarded s [.irq r, .user r'] s₂ :=
      (Run.single trivial hst₁).snoc hr' hst₂
    exact ⟨t, hturn.append ht⟩

end Forking

/-! ## 6. Every run -/

/-- `main` can create the environment. -/
theorem forktest_started : ∃ s : ForkTest, s.Started := by
  obtain ⟨s₀, s, base, ρ, hb, _, hr, _⟩ := firstEnv_reached .zero
  have hr' : Run Kernel.step Kernel.Tame s₀ ([.create 0x80000 1] ++ [.irq .zero]) s := hr
  obtain ⟨k, hk, _⟩ := hr'.last
  have hk' : Run Kernel.step Kernel.Tame s₀ ([] ++ [.create 0x80000 1]) k := hk
  obtain ⟨k₀, hk₀, _, hst⟩ := hk'.last
  rw [hk₀.eq_of_nil] at hst
  exact ⟨⟨k, fun _ => (⟨0, 0⟩, .fork .outer), []⟩,
    ⟨image, coldRam, s₀, _, _, cleanRam_coldRam, hb, hst⟩, fun _ => rfl, rfl⟩

/-- A run of rounds from the start. -/
theorem forktest_runs (n : Nat) : ∃ (s t : ForkTest) (rs : List (Regs × List UserEvent)), s.Started ∧
    (∀ p ∈ rs, Quantum p.2) ∧ rs.length = n ∧
    Run ForkTest.step ForkTest.Guarded s (rounds rs) t := by
  obtain ⟨s, hs⟩ := forktest_started
  have hstack : ({ Regs.zero with spEl0 := ustacktop - 16 } : Regs).OnStackPage :=
    ⟨by decide, by decide⟩
  obtain ⟨t, hr⟩ := (Forking.ofStarted hs).exists_rounds (r := .zero) hstack n
  refine ⟨s, t, _, hs, fun p hp => ?_, List.length_replicate, hr⟩
  rw [(List.mem_replicate.mp hp).2]
  exact ⟨⟨_, List.mem_cons_self⟩, fun r hr => by cases List.mem_singleton.mp hr⟩

/-- The invariant in every run. -/
theorem Forking.ofRun {s t : ForkTest} {es : List UserEvent} (hstart : s.Started)
    (hr : Run ForkTest.step ForkTest.Guarded s es t) : ∃ crew, Forking t crew :=
  hr.invariant (I := fun u => ∃ crew, Forking u crew) ⟨_, Forking.ofStarted hstart⟩
    fun _ _ _ ⟨_, h⟩ hg hs => h.step hg hs

/-- **What `main` has started stays in order**, in every run in which the stack pointer stays in its
page. -/
theorem forktest_orderly {s t : ForkTest} {es : List UserEvent} (hstart : s.Started)
    (hr : Run ForkTest.step ForkTest.Guarded s es t) : t.Orderly := by
  obtain ⟨crew, h⟩ := Forking.ofRun hstart hr
  exact h.orderly

/-- A run in which all three have printed. -/
theorem forktest_orderly_five : ∃ (s t : ForkTest) (es : List UserEvent), s.Started ∧
    Run ForkTest.step ForkTest.Guarded s es t ∧ (∀ who, ∃ x ∈ t.out, x.who = who) ∧ t.Orderly := by
  obtain ⟨s, t, rs, hs, hq, hlen, hr⟩ := forktest_runs 5
  obtain ⟨new, hout, hall⟩ := (Forking.ofStarted hs).allPrint hq (by omega) hr
  refine ⟨s, t, rounds rs, hs, hr, fun who => ?_, forktest_orderly hs hr⟩
  obtain ⟨x, hx, hw⟩ := hall who
  exact ⟨x, hout ▸ List.mem_append_right _ hx, hw⟩

/-- **Everybody prints**: from every state that a run reaches, all three environments are there after
two rounds, once they are there all three loops print in any three rounds, and so they do in any five. -/
theorem forktest_prints {s t u : ForkTest} {es : List UserEvent} {rs : List (Regs × List UserEvent)}
    (hstart : s.Started) (hr : Run ForkTest.step ForkTest.Guarded s es t)
    (hq : ∀ p ∈ rs, Quantum p.2) (hr' : Run ForkTest.step ForkTest.Guarded t (rounds rs) u) :
    (2 ≤ rs.length → u.AllThere) ∧ (t.AllThere → 3 ≤ rs.length → t.AllPrint u) ∧
      (5 ≤ rs.length → t.AllPrint u) := by
  obtain ⟨crew, h⟩ := Forking.ofRun hstart hr
  exact ⟨fun hrs => h.allThere hq hrs hr',
    fun hthere hrs => h.allPrint_three (h.allThere_iff.mp hthere) hq hrs hr',
    fun hrs => h.allPrint hq hrs hr'⟩

/-- The first five rounds. -/
theorem forktest_prints_start : ∃ s u : ForkTest, s.Started ∧ u.AllThere ∧ s.AllPrint u := by
  obtain ⟨s, u, rs, hs, hq, hlen, hr⟩ := forktest_runs 5
  obtain ⟨hthere, _, hprint⟩ := forktest_prints hs .nil hq hr
  exact ⟨s, u, hs, hthere (by omega), hprint (by omega)⟩

end RaspiOS
