/-
# A crew: environments with one page of stack

The environment that `main` creates has one page of stack, and as long as no program moves its stack
pointer out of it the children have one too.  A fork then takes four frames at most: a directory, the
page, and the two tables above it.  A CREW is what becomes of one environment when memory is large
enough and all that happens are forks and interrupts: every environment is `RUNNABLE` and has its stack,
nobody else is there.

`Crew.irq` and `Crew.fork` say what these two do to it.  What the programs do in the
meantime is the subject of `ForkTest.lean`.
-/
import RaspiOS.ForkId
import RaspiOS.Turns
import RaspiOS.UserMemory

set_option autoImplicit false

namespace RaspiOS

open LinkedList
open RoundRobin (Nears)
open Spaces (Memory)

/-! ## 1. One page of stack -/

theorem userVa_stackPage : UserVa (ustacktop - by2pg) := by
  unfold UserVa
  decide

/-- The page below `USTACKTOP`. -/
def stackPage : UserPage := ⟨pageOf (ustacktop - by2pg), userVa_stackPage⟩

/-- The stack pointer is in it. -/
def Regs.OnStackPage (r : Regs) : Prop := ustacktop - by2pg ≤ r.spEl0 ∧ r.spEl0 < ustacktop

theorem Regs.OnStackPage.rounddown {r : Regs} (h : r.OnStackPage) :
    rounddown r.spEl0 by2pg = ustacktop - by2pg := by
  obtain ⟨hlo, hhi⟩ := h
  have htop : ustacktop = 917502 * by2pg := by decide
  rw [htop] at hlo hhi ⊢
  simp only [RaspiOS.rounddown, by2pg] at hlo hhi ⊢
  omega

theorem Regs.OnStackPage.bounds {r : Regs} (h : r.OnStackPage) :
    0xc0000000 ≤ r.spEl0 ∧ r.spEl0 ≤ ustacktop :=
  ⟨le_trans (by decide) h.1, le_of_lt h.2⟩

/-- The environment has its page of stack. -/
def Kernel.HasStack (k : Kernel) (e : Slot) : Prop := ∃ f a, k.memory.Maps e stackPage f a

variable {L : Layout} {base : Nat} {km : Mem} {ρ : Nat → Role} {fl : List Slot} {k k' : Kernel}
  {c e t : Slot} {r : Regs}

theorem Kernel.HasStack.mapped (h : k.HasStack c) (hi : KernelInv L base km ρ fl k)
    (hc : k.curenv = some c) (hr : r.OnStackPage) : k.StackMapped c r.spEl0 := by
  obtain ⟨f, a, hm⟩ := h
  obtain ⟨d, hd, hs, _⟩ := maps_view.mp hm
  rw [hi.dirs_cur hc] at hd
  cases hd
  intro va hva hvat
  rw [hr.rounddown] at hva
  have htop : ustacktop = 0xdfffe000 := by decide
  have hsame : va / by2pg = (ustacktop - by2pg) / by2pg := by
    simp only [by2pg] at hva ⊢
    omega
  have hspace : space k.phys.mem (k.envs c).envPgdir (pageOf (ustacktop - by2pg)) = some a := hs
  rw [translate_congr hsame, hi.forest.translate_user (hi.dir c (hi.cur c hc)) userVa_stackPage,
    if_pos (by decide), hspace]
  exact ⟨_, rfl⟩

/-- The stack of another environment is there after a copy. -/
theorem Kernel.StackCopied.keeps {out : Prop} {n va f a : Nat} {g : UserPage} {m m' : UserMemory}
    {v : Int} (h : Kernel.StackCopied c e out n va m v m') (hm : m.Maps t g f a) (hne : t ≠ e) :
    m'.Maps t g f a := by
  induction h with
  | done => exact hm
  | noFrame _ => exact hm
  | leftOut _ => exact hm
  | copied _ _ _ _ _ ih => exact ih (hm.bind hne)

/-! ## 2. The frames that a fork takes -/

/-- **A fork with one page of stack takes four frames at most.** -/
theorem KernelInv.fork_taken (h : KernelInv L base km ρ fl k) (hc : k.curenv = some c)
    (hr : r.OnStackPage) {l : List Nat} (hl : IsList k.phys.pageFreeList () l) (hlen : 4 ≤ l.length)
    (hf : (k.trapped r).forkEnv c = .ok (.inr e, k')) :
    ∃ n ≤ 4, IsList k'.phys.pageFreeList () (l.drop n) := by
  rcases Kernel.forkEnv_ok hf with ⟨hr', _⟩ | ⟨e', p, q, v, phys, _, hq, hstack, _, rfl⟩
  · cases hr'
  have hd := h.dir c (h.cur c hc)
  obtain ⟨h1, hk1, _⟩ := setupVm_spec h.forest hq
  have hp : Function.update ρ p .dir p = .dir := Function.update_self _ _ _
  obtain ⟨l₁, rfl, hlq⟩ := Phys.pageAlloc_list hq hl
  have hpgdir : (k.trapped r).pgDir = L.pgDir := h.pgDir
  have hsp : rounddown (k.trapped r).kernelFrame.sp by2pg = ustacktop - by2pg := hr.rounddown
  have hone : (ustacktop - (ustacktop - by2pg)) / by2pg = 1 := by decide
  rw [hpgdir, hsp, hone] at hstack
  simp only [Kernel.forkStack] at hstack
  rw [List.length_cons] at hlen
  rcases l₁ with _ | ⟨pp, l₂⟩
  · exact absurd hlen (by simp)
  rw [List.length_cons] at hlen
  obtain ⟨q₁, hq₁, hlq₁⟩ := Phys.pageAlloc_cons (p := (q.incRef p).copyPage L.pgDir p) hlq
  rw [hq₁] at hstack
  obtain ⟨q₂, hb, hstack⟩ := Except.bind_eq_ok_iff.mp hstack
  obtain ⟨⟨w, q₃⟩, hi, hstack⟩ := Except.bind_eq_ok_iff.mp hstack
  cases hstack
  obtain ⟨_, _, _, hmem, h2, href, hlist⟩ := copyFrame h1 (hk1 _ hd) userVa_stackPage hq₁ hb
  obtain ⟨_, hk2, hfree, _, _⟩ := take_spec h1 hq₁
  have hnone : space q₂.mem p (pageOf (ustacktop - by2pg)) = none :=
    (unused_space (g := pageOf (ustacktop - by2pg)) hfree hmem h1 h2 (by simp) hp
      userVa_stackPage).trans
      (setupVm_space h.forest hq userVa_stackPage)
  rw [← hlist] at hlq₁
  rcases h2.pageInsert (hk2 p hp) userVa_stackPage (by rw [Function.update_self]; trivial)
      (by rw [href]; decide) (permOk_pteV pp) with ⟨_, p', hi', hins⟩ | ⟨n, _, p', hi', hg, hn, hnil, _⟩
  · rw [hi] at hi'
    cases hi'
    obtain ⟨_, n, hn, _, htaken⟩ := hins.fresh hnone
    refine ⟨2 + n, by omega, ?_⟩
    have hdrop : (p :: pp :: l₂).drop (2 + n) = l₂.drop n := by
      rw [← List.drop_drop]
      rfl
    rw [hdrop]
    exact (htaken l₂ hlq₁).2
  · obtain ⟨_, hl'⟩ := hg.taken l₂ hlq₁
    rw [hl'.first_eq_none_iff, List.drop_eq_nil_iff] at hnil
    omega

/-! ## 3. The crew -/

/-- **A crew**, in the order in which it was created, in a kernel with room for three. -/
structure Crew (L : Layout) (base : Nat) (km : Mem) (k : Kernel) (crew : List Slot) : Prop where
  inv : ∃ ρ fl, KernelInv L base km ρ fl k ∧ fl.length + crew.length = 1024
  nodup : crew.Nodup
  runs : ∀ e ∈ crew, k.Runnable e
  free : ∀ e, e ∉ crew → (k.envs e).envStatus = .free
  cur : ∀ c, k.curenv = some c → c ∈ crew ∧ Kernel.cursor k.pos = c
  next : k.nextEnvId = crew.length
  stack : ∀ e ∈ crew, k.HasStack e
  room : ∃ l, IsList k.phys.pageFreeList () l ∧ 16 ≤ l.length + 4 * crew.length

namespace Crew

variable {crew : List Slot}

/-- What does not touch the free lists or the status of anybody. -/
theorem keep (h : Crew L base km k crew) (hi : ∃ ρ' fl', KernelInv L base km ρ' fl' k')
    (hfree : k'.envFreeList = k.envFreeList)
    (hstat : ∀ e, (k'.envs e).envStatus = (k.envs e).envStatus)
    (hcur : ∀ c, k'.curenv = some c → c ∈ crew ∧ Kernel.cursor k'.pos = c)
    (hnext : k'.nextEnvId = k.nextEnvId) (hstack : ∀ e ∈ crew, k'.HasStack e)
    (hpages : k'.phys.pageFreeList = k.phys.pageFreeList) : Crew L base km k' crew where
  inv := by
    obtain ⟨ρ, fl, h0, hlen⟩ := h.inv
    obtain ⟨ρ', fl', h1⟩ := hi
    have hl := h1.list
    rw [hfree] at hl
    exact ⟨ρ', fl', h1, by rw [hl.unique h0.list]; exact hlen⟩
  nodup := h.nodup
  runs := fun e he => (hstat e).trans (h.runs e he)
  free := fun e he => (hstat e).trans (h.free e he)
  cur := hcur
  next := hnext.trans h.next
  stack := hstack
  room := by rw [hpages]; exact h.room

/-- **A timer interrupt** goes round among the crew. -/
theorem irq (h : Crew L base km k crew) (hst : k.irq r = .ok k') :
    Crew L base km k' crew ∧ ∃ n ∈ crew, k'.curenv = some n ∧
      (∀ i ∈ crew, Nears i n (Kernel.cursor k.pos)) := by
  obtain ⟨ρ, fl, hi, _⟩ := h.inv
  have hstep : k.step (.irq r) = .ok k' := hst
  have htame : k.Tame (.irq r) := trivial
  have hinv := hi.step htame hstep
  have hmem : k'.memory = k.memory := hi.effect htame hstep
  obtain ⟨n, hserves, rfl⟩ := Kernel.schedLoop_serves hst
  have hn : n ∈ crew := by
    by_contra hn
    have hrun := hserves.served
    have hfree : (k.envs n).envStatus = .free := h.free n hn
    exact absurd (hfree.symm.trans hrun) (by decide)
  refine ⟨h.keep hinv (Kernel.envFreeList_envRun _ _) (fun e => by rw [Kernel.envs_envRun]) ?_
    (Kernel.nextEnvId_envRun _ _) (fun e he => ?_) (by rw [Kernel.phys_envRun]), n, hn,
    Kernel.curenv_envRun _ _, fun i hi => hserves.nears (h.runs i hi)⟩
  · intro c hc
    rw [Kernel.curenv_envRun] at hc
    cases hc
    exact ⟨hn, by rw [Kernel.pos_envRun, Kernel.cursor_val]⟩
  · unfold Kernel.HasStack
    rw [hmem]
    exact h.stack e he

/-- Somebody can run. -/
theorem irq_total (h : Crew L base km k crew) (he : e ∈ crew) (r : Regs) :
    ∃ k', k.irq r = .ok k' :=
  Kernel.schedYield_total (s := { k with timeFrame := saveall irqStack r }) (h.runs e he)

/-- **What `main` makes**: a crew of one, and nobody runs yet. -/
theorem ofCreate {ram : Mem} {s₀ : Kernel} {binary priority : Nat} (hclean : CleanRam L ram)
    (hboot : boot L ram = .ok s₀) (hst : s₀.step (.create binary priority) = .ok k) :
    ∃ base, Crew L base s₀.phys.mem k [0] ∧ k.curenv = none := by
  obtain ⟨s₁, base, hb, hbooted, hbase⟩ := boot_ok hclean
  rw [hboot] at hb
  cases hb
  have hfits := L.fits
  have hlen : (List.range' base (npage - base)).reverse.length = npage - base := by
    rw [List.length_reverse, List.length_range']
  have hi := KernelInv.ofBooted hbooted
  rw [List.finRange_succ] at hi
  obtain ⟨k', ρ, n, f, hst', hi', hcreated, hn, hpages, _, _, hspace⟩ :=
    hi.create hbooted.pages (by rw [hlen]; simp only [npage]; omega) binary priority
  rw [hst] at hst'
  cases hst'
  have hd := Kernel.dirs_of_not_mem hi'.list (List.nodup_cons.mp hi.list.nodup).1
  refine ⟨base, ?_, hcreated.curenv.trans hbooted.curenv⟩
  exact
    { inv := ⟨ρ, _, hi', by rw [List.length_map, List.length_finRange]; rfl⟩
      nodup := List.nodup_singleton 0
      runs := fun e he => by
        rw [List.mem_singleton.mp he]
        exact hcreated.status
      free := fun e he => by
        rw [hcreated.other e fun h0 => he (List.mem_singleton.mpr h0), hbooted.envs]
        rfl
      cur := fun c hc => by
        rw [hcreated.curenv, hbooted.curenv] at hc
        cases hc
      next := by
        rw [hcreated.nextEnvId, Kernel.nextCounter, hbooted.nextEnvId]
        rfl
      stack := fun e he => by
        rw [List.mem_singleton.mp he]
        refine ⟨_, _, maps_view.mpr ⟨_, hd,
          (hspace (pageOf (ustacktop - by2pg)) userVa_stackPage).trans (if_pos rfl), rfl⟩⟩
      room := by
        refine ⟨_, hpages, ?_⟩
        rw [List.length_drop, hlen, List.length_singleton]
        simp only [npage]
        omega }

/-- What a fork has made: the child `e`, its directory included, and a result that is not zero. -/
structure Forks (k : Kernel) (c : Slot) (r : Regs) (e : Slot) (v : Int) (k' : Kernel) : Prop where
  first : k.envFreeList.first () = some e
  faithful : Kernel.ForkFaithful (k.trapped r) k' c e
  ret : k.svc r .envAlloc = .ok (.ret v, k')
  pos : 0 < v
  cur : k'.curenv = k.curenv

/-- The id of one of the first environments, as `fork` returns it. -/
theorem toInt_mkenvid (h : k.nextEnvId ≤ 2) (e : Slot) : 0 < toInt (k.mkenvid e) := by
  have hlt : k.nextEnvId + 1 < 2 ^ 20 := by omega
  rw [Kernel.mkenvid_eq e (by omega), toInt_of_lt ((envIdOf_lt_iff _ e).mpr hlt)]
  unfold envIdOf log2nenv
  omega

/-- A fork takes nobody's stack away. -/
theorem stack_forked (hi : KernelInv L base km ρ fl k) (htame : k.Tame (.svc r .envAlloc))
    {v : Int} (hsvc : k.svc r .envAlloc = .ok (.ret v, k')) (hpos : 0 < v) (ht : k.HasStack t) :
    k'.HasStack t := by
  have hstep : k.step (.svc r .envAlloc) = .ok k' := by
    change (k.svc r .envAlloc).map Prod.snd = _
    rw [hsvc]
    rfl
  obtain ⟨f, a, hm⟩ := ht
  obtain ⟨x, hx, ⟨c, e, _, _, hnot, hcopied, _⟩ | ⟨⟨n, hn, rfl⟩, _⟩⟩ := hi.effect htame hstep
  · have hne : t ≠ e := by
      rintro rfl
      exact hnot hm.live
    exact ⟨f, a, hcopied.keeps (hm.create hnot) hne⟩
  · rw [hsvc] at hx
    cases hx
    omega

/-- **A fork of a member** succeeds, and adds the child. -/
theorem fork (h : Crew L base km k crew) (hc : k.curenv = some c) (hr : r.OnStackPage)
    (hlen : crew.length ≤ 2) :
    ∃ e v k', e ∉ crew ∧ Forks k c r e v k' ∧ Crew L base km k' (crew ++ [e]) := by
  obtain ⟨ρ, fl, hi, hfl⟩ := h.inv
  obtain ⟨l, hl, hroom⟩ := h.room
  obtain ⟨hlo, hhi⟩ := hr.bounds
  rcases fl with _ | ⟨e, fl⟩
  · rw [List.length_nil] at hfl
    omega
  rcases l with _ | ⟨p, _ | ⟨pp, l⟩⟩
  · rw [List.length_nil] at hroom
    omega
  · rw [List.length_singleton] at hroom
    omega
  have hl4 : 4 ≤ (p :: pp :: l).length := by omega
  have hfirst := hi.list.first_eq
  have hnot : e ∉ crew := by
    intro he
    have hrun : (k.envs e).envStatus = .runnable := h.runs e he
    rw [hi.free e List.mem_cons_self] at hrun
    cases hrun
  have hmapped := (h.stack c (h.cur c hc).1).mapped hi hc hr
  obtain ⟨q, q₂, ρ', hq, hfork, _⟩ := hi.fork_onePage hc hr.rounddown hmapped hfirst hl
  have hfaith := hi.fork_faithful hc hlo hhi hfork (by
    rintro ⟨_, _, l', hl', h23⟩
    rw [hl'.unique hl] at h23
    omega)
  have hsvc := Kernel.svc_envAlloc hc hfork
  have htaken := hi.fork_taken hc hr hl hl4 hfork
  have hlist := hi.list.remove_head
  have hstep := Kernel.step_envAlloc (r := r) hc hfork
  have htame : k.Tame (.svc r .envAlloc) := le_trans (by decide) hlo
  obtain ⟨ρ₁, fl₁, hi₁⟩ := hi.step htame hstep
  have hlist : IsList ((k.trapped r).forked c e p q₂ .runnable).envFreeList () fl :=
    hi.list.remove_head
  obtain rfl := hi₁.list.unique hlist
  have hother : ∀ t, t ≠ e → ((k.trapped r).forked c e p q₂ .runnable).envs t = k.envs t := by
    intro t ht
    simp [Kernel.forked, Kernel.allocated, Kernel.modifyEnv, Kernel.trapped, ht]
  have hne : ∀ t ∈ crew, t ≠ e := by
    rintro t ht rfl
    exact hnot ht
  have hpos : 0 < toInt (((k.trapped r).forked c e p q₂ .runnable).envs e).envId := by
    have hct : (k.trapped r).curenv = some c := hc
    have hnext : (k.trapped r).nextEnvId = crew.length := h.next
    rw [(Kernel.forkEnv_child hct hfork).1]
    exact toInt_mkenvid (by rw [hnext]; exact hlen) e
  refine ⟨e, _, _, hnot, ⟨hfirst, hfaith, hsvc, hpos, rfl⟩, ?_⟩
  exact
    { inv := by
        refine ⟨ρ₁, fl₁, hi₁, ?_⟩
        rw [List.length_cons] at hfl
        rw [List.length_append, List.length_singleton]
        omega
      nodup := by
        refine List.nodup_append.mpr ⟨h.nodup, List.nodup_singleton e, fun t ht t' ht' => ?_⟩
        rw [List.mem_singleton.mp ht']
        exact hne t ht
      runs := by
        intro t ht
        rcases List.mem_append.mp ht with ht | ht
        · exact (congrArg Env.envStatus (hother t (hne t ht))).trans (h.runs t ht)
        · rw [List.mem_singleton.mp ht]
          exact hfaith.status
      free := by
        intro t ht
        rw [List.mem_append, not_or, List.mem_singleton] at ht
        rw [hother t ht.2]
        exact h.free t ht.1
      cur := fun d hd => ⟨List.mem_append_left _ (h.cur d hd).1, (h.cur d hd).2⟩
      next := by
        have hcounter : ((k.trapped r).forked c e p q₂ .runnable).nextEnvId
            = (k.nextEnvId + 1) % 2 ^ 64 := rfl
        rw [hcounter, h.next, List.length_append, List.length_singleton]
        omega
      stack := by
        intro t ht
        rcases List.mem_append.mp ht with ht | ht
        · exact stack_forked hi htame hsvc hpos (h.stack t ht)
        · rw [List.mem_singleton.mp ht]
          obtain ⟨_, t', _, htr, _⟩ := hfaith.stack (ustacktop - by2pg) (by
            rw [show (k.trapped r).kernelFrame.sp = r.spEl0 from rfl, hr.rounddown]) (by decide)
          have hd := Kernel.dirs_of_not_mem hi₁.list (List.nodup_cons.mp hi.list.nodup).1
          obtain ⟨a, hm, _⟩ := hi₁.forest.view_translate hi₁.dirs hd userVa_stackPage htr
          exact ⟨_, a, hm⟩
      room := by
        obtain ⟨n, hn, hl'⟩ := htaken
        refine ⟨_, hl', ?_⟩
        rw [List.length_drop, List.length_append, List.length_singleton]
        omega }

end Crew

end RaspiOS
