/-
# Pages over a run

What `Effect` says of one event, followed through runs.  A page holds what was stored into it last, by
whichever environment and through whichever mapping (`page_holds_last_store`).  An environment comes to
see a page that others see only if one of them, or the parent of one, shares it (`page_confined`).  And
what can be read is zero or has been stored by an environment: nothing of the kernel, of what memory
held at power-on or of an environment that is gone (`words_were_stored`).
-/
import RaspiOS.Authority
import RaspiOS.BootMap
import RaspiOS.EnvId
import RaspiOS.UserMemory

set_option autoImplicit false

namespace RaspiOS

open Spaces (Memory)

/-! ## 1. The pages that are in use -/

/-- **The event asks for page `f` to be shared with `y`**: `sys_mem_map` with the address of a source that
maps it and with the id of `y`, or `sys_ipc_can_send` with an address where the caller maps it and with
the id of `y`, which waits for a message. -/
inductive Kernel.Shares (s : Kernel) (y : Slot) (f : Nat) : Event → Prop
  | memMap {r : Regs} {srcid srcva dstid dstva perm : Nat} {src : Slot} {d : Fin 512 → Nat} :
      s.envid2env srcid true = some src → s.envid2env dstid true = some y →
      Kernel.Finds s.memory src srcva f d →
      Shares s y f (.svc r (.memMap srcid srcva dstid dstva perm))
  | send {r : Regs} {envid value srcva perm : Nat} {c : Slot} {d : Fin 512 → Nat} :
      s.curenv = some c → srcva ≠ 0 → s.envid2env envid false = some y →
      (s.envs y).envStatus = .notRunnable → (s.envs y).envIpcRecving ≠ 0 →
      Kernel.Finds s.memory c srcva f d →
      Shares s y f (.svc r (.ipcCanSend envid value srcva perm))

/-- **What happens to a page that is in use**: its contents stay, and whoever sees it saw it before or
has been let in. -/
structure OldPage (m m' : UserMemory) (letIn : Slot → Prop) (f : Nat) : Prop where
  page : ∀ d d', m.page f = some d → m'.page f = some d' → d' = d
  maps : ∀ y g a, m'.Maps y g f a → m.Maps y g f a ∨ letIn y

section OldPage

variable {m m' : UserMemory} {letIn : Slot → Prop} {c e t : Slot} {f q a b n va : Nat} {v : Int}
  {g u : UserPage} {d x : Fin 512 → Nat}

theorem OldPage.refl : OldPage m m letIn f :=
  ⟨fun _ _ h h' => Option.some.inj (h'.symm.trans h), fun _ _ _ h => Or.inl h⟩

/-- If the page is in use in between. -/
theorem OldPage.trans {m₁ : UserMemory} (h : OldPage m m₁ letIn f) (h' : OldPage m₁ m' letIn f)
    (hx : m₁.page f = some x) : OldPage m m' letIn f := by
  refine ⟨fun d d' hd hd' => ?_, fun y g a hm => ?_⟩
  · rw [h'.page x d' hx hd', h.page d x hd hx]
  · exact (h'.maps y g a hm).elim (h.maps y g a) Or.inr

theorem OldPage.unbind : OldPage m (m.unbind e g) letIn f := by
  refine ⟨fun d d' h h' => ?_, fun y g' a h => Or.inl ?_⟩
  · exact Option.some.inj ((Memory.page_unbind h').symm.trans h)
  · rcases (Memory.maps_rebind.mp h).2 with ⟨_, _, hx⟩ | ⟨_, hm⟩
    · cases hx
    · exact hm

theorem OldPage.create : OldPage m (m.create e) letIn f :=
  ⟨fun _ _ h h' => Option.some.inj ((Memory.page_create h').symm.trans h),
    fun _ _ _ h => Or.inl (Memory.maps_of_update (fun σ hσ u => by cases hσ; rfl) h)⟩

theorem OldPage.destroy : OldPage m (m.destroy e) letIn f :=
  ⟨fun _ _ h h' => Option.some.inj ((Memory.page_destroy h').symm.trans h),
    fun _ _ _ h => Or.inl (Memory.maps_of_update (fun σ hσ u => by cases hσ) h)⟩

/-- An address is bound to another page, or its environment is let in. -/
theorem OldPage.bind (hin : q = f → letIn e) (hf : m.page f = some x) :
    OldPage m (m.bind e g q a d) letIn f := by
  refine ⟨fun d' d'' h h' => ?_, fun y g' b h => ?_⟩
  · rcases Memory.page_bind h' with hold | ⟨hnone, _, _⟩
    · exact Option.some.inj (hold.symm.trans h)
    · rw [hf] at hnone
      cases hnone
  · rcases (Memory.maps_rebind.mp h).2 with ⟨rfl, _, hx⟩ | ⟨_, hm⟩
    · exact Or.inr (hin (Prod.mk.inj (Option.some.inj hx)).1)
    · exact Or.inl hm

/-- The copies of a stack are pages that were not in use. -/
theorem Kernel.StackCopied.old {out : Prop} (h : Kernel.StackCopied c e out n va m v m') (hm : m.Maps t u f b)
    (hne : t ≠ e) : OldPage m m' letIn f := by
  induction h with
  | done => exact .refl
  | noFrame _ => exact .refl
  | leftOut _ => exact .refl
  | @copied n va f' q a' g' d m m' v _ _ _ hnew _ ih =>
    have hm1 := hm.bind (s := e) (v := g') (p := f') (a := leafDesc f' pteV) (c := d) hne
    obtain ⟨x, hx⟩ := hm.page
    obtain ⟨y, hy⟩ := hm1.page
    refine .trans (.bind ?_ hx) (ih hm1) hy
    rintro rfl
    exact absurd hm (Memory.not_maps hnew)

end OldPage

namespace Kernel

variable {L : Layout} {ram : Mem} {s s₀ t : Kernel} {ev : Event} {es : List Event} {f : Nat}
  {c c' x : Fin 512 → Nat}

/-- **Every event but a store.** -/
theorem Effect.old {s' : Kernel} (h : s.Effect s' ev) (hst : ∀ va w, ev ≠ .store va w)
    (hf : s.memory.page f = some x) :
    OldPage s.memory s'.memory (fun y => s.Shares y f ev) f := by
  obtain ⟨t, u, b, hm⟩ := Memory.exists_page_iff.mp ⟨x, hf⟩
  have hsame : s'.memory = s.memory →
      OldPage s.memory s'.memory (fun y => s.Shares y f ev) f := fun h => h ▸ OldPage.refl
  have hother : ∀ {e}, ¬ s.memory.Live e → t ≠ e := by
    rintro e hn rfl
    exact hn hm.live
  cases ev with
  | irq r => exact hsame h
  | store va w => exact absurd rfl (hst va w)
  | create binary priority =>
    obtain ⟨e, hn, ⟨h, _⟩ | ⟨f', hnew, g, _, _, hb⟩⟩ := h
    · rw [h]
      exact .create
    · rw [hb]
      obtain ⟨y, hy⟩ := (hm.create hn).page
      refine OldPage.create.trans (.bind ?_ hy) hy
      rintro rfl
      rw [hnew] at hy
      cases hy
  | svc r call =>
    obtain ⟨y, hsvc, h⟩ := h
    cases call with
    | memAlloc envid va perm =>
      rcases h with ⟨_, e, f', _, hnew, g, _, _, hb⟩ | ⟨_, hb⟩
      · rw [hb]
        refine .bind ?_ hf
        rintro rfl
        rw [hf] at hnew
        cases hnew
      · exact hsame hb
    | memMap srcid srcva dstid dstva perm =>
      rcases h with ⟨_, src, dst, f', d, hsrc, hdst, hfinds, g', _, _, hb⟩ | ⟨_, hb⟩
      · rw [hb]
        refine .bind ?_ hf
        rintro rfl
        exact .memMap hsrc hdst hfinds
      · exact hsame hb
    | memUnmap envid va =>
      rcases h with ⟨_, e, _, hunbind, hlow⟩ | ⟨_, hb⟩
      · by_cases hva : UserVa va
        · rw [hunbind ⟨pageOf va, hva⟩ rfl]
          exact .unbind
        · exact hsame (hlow hva)
      · exact hsame hb
    | ipcCanSend envid value srcva perm =>
      rcases h with ⟨_, hnz, c', e, f', d, hc', hres, hst', hrecv, hfinds, g', _, _, hb⟩ | ⟨hb, _⟩
      · rw [hb]
        refine .bind ?_ hf
        rintro rfl
        exact .send hc' hnz hres hst' hrecv hfinds
      · exact hsame hb
    | envAlloc =>
      rcases h with ⟨c', e, v, _, hn, hcopied, _⟩ | ⟨_, hb⟩
      · obtain ⟨y', hy⟩ := (hm.create hn).page
        exact OldPage.create.trans (hcopied.old (hm.create hn) (hother hn)) hy
      · exact hsame hb
    | envDestroy envid =>
      rcases h with ⟨e, _, _, hb⟩ | ⟨_, hb⟩
      · rw [hb]
        exact .destroy
      · exact hsame hb
    | _ => exact hsame h

/-! ## 2. What a page holds -/

/-- What a page holds after an event, if frame `f` is that page and it held `c`: the running environment
may store a word into it. -/
def storeInto (f : Nat) (s : Kernel) : Event → Kernel → (Fin 512 → Nat) → Fin 512 → Nat
  | .store va w, _, c =>
    match s.curenv.bind fun e => translate s.phys.mem (s.envs e).envPgdir va with
    | some t => if f = t.frame then Function.update c (Fin.ofNat 512 (va >>> 3)) w else c
    | none => c
  | _, _, c => c

theorem storeInto_other {s' : Kernel} (hst : ∀ va w, ev ≠ .store va w) :
    storeInto f s ev s' c = c := by
  cases ev with
  | store va w => exact absurd rfl (hst va w)
  | _ => rfl

/-- One step. -/
theorem page_step {base : Nat} {km : Mem} {ρ : Nat → Role} {fl : List Slot} {s' : Kernel}
    (h : KernelInv L base km ρ fl s) (ht : s.Tame ev) (hs : s.step ev = .ok s')
    (hc : s.memory.page f = some c) (hx : s'.memory.page f = some x) :
    x = storeInto f s ev s' c := by
  by_cases hst : ∃ va w, ev = .store va w
  · obtain ⟨va, w, rfl⟩ := hst
    obtain ⟨e, t, he, htr, _, rfl⟩ := userStore_ok hs
    obtain ⟨a, hm, _⟩ := h.forest.view_translate h.dirs (h.dirs_cur he) ht htr
    have hpage := h.forest.toShape.page_of_maps h.dirs hm
    have hview := h.forest.view_store h.dirs hpage (Fin.ofNat 512 (va >>> 3)) w
    have hw := Memory.page_write (p := t.frame) (i := Fin.ofNat 512 (va >>> 3)) (w := w) hc
    change (view s.dirs _).page f = some x at hx
    rw [hview] at hx
    have hbind : s.curenv.bind (fun e => translate s.phys.mem (s.envs e).envPgdir va) = some t := by
      rw [he]
      exact htr
    simp only [storeInto, hbind]
    exact Option.some.inj (hx.symm.trans hw)
  · have hst' : ∀ va w, ev ≠ .store va w := fun va w he => hst ⟨va, w, he⟩
    rw [storeInto_other hst']
    exact ((h.effect ht hs).old hst' hc).page c x hc hx

/-- **A page holds what was stored into it last.**  In every tame run in which frame `f` is in use in
every state, it holds at the end what it held at the beginning, with the stores of the run written over
it in their order: those that any environment made at any address where the hardware finds `f`. -/
theorem page_holds_last_store (hclean : CleanRam L ram) (hs : s.TameReachable L ram)
    (hc : s.memory.page f = some c)
    (hr : Run (Run.recording step (storeInto f))
      (fun y ev => y.1.Tame ev ∧ y.1.memory.page f ≠ none) (s, c) es (t, c'))
    (hx : t.memory.page f = some x) : x = c' := by
  obtain ⟨_, base, ρ, fl, _, _, hi⟩ := KernelInv.ofReachable hclean hs
  have hinv := hr.invariantRecorded (I := fun u d =>
    (∃ ρ fl, KernelInv L base _ ρ fl u) ∧ ∀ x, u.memory.page f = some x → x = d)
    ⟨⟨ρ, fl, hi⟩, fun x hx => Option.some.inj (hx.symm.trans hc)⟩ ?_
  · exact hinv.2 x hx
  · rintro u d ev u' ⟨⟨ρ, fl, hi⟩, hd⟩ ⟨ht, huse⟩ hstep
    obtain ⟨y, hy⟩ := Option.ne_none_iff_exists'.mp huse
    obtain rfl := hd y hy
    exact ⟨hi.step ht hstep, fun x hx => page_step hi ht hstep hy hx⟩

/-- The first environment, its stack page, and a store into it. -/
structure StoreStack (s t : Kernel) (f : Nat) (c : Fin 512 → Nat) (w : Nat) : Prop where
  tame : s.Tame (.store (ustacktop - by2pg) w)
  page : s.memory.page f = some c
  step : s.step (.store (ustacktop - by2pg) w) = .ok t
  trans : translate t.phys.mem (t.envs 0).envPgdir (ustacktop - by2pg)
    = some ⟨f, leafDesc f pteV &&& 0xfff⟩
  word : t.phys.mem f 0 = w
  stored : storeInto f s (.store (ustacktop - by2pg) w) t c 0 = w

theorem leafDesc_writable (f : Nat) : leafDesc f pteV &&& 0xfff &&& pteRO = 0 := by
  rw [leafDesc, Nat.or_assoc, or_and_fff f (by decide)]
  decide

theorem storeStack {base n : Nat} {km : Mem} {ρ : Nat → Role} (h : FirstEnv base km n ρ s)
    (w : Nat) : ∃ t f c, StoreStack s t f c w := by
  have hva : UserVa (ustacktop - by2pg) := by
    unfold UserVa
    decide
  have hd := h.inv.dir 0 (by simp)
  obtain ⟨f, hf, hspace⟩ := h.stack
  have hs : space s.phys.mem (s.envs 0).envPgdir (pageOf (ustacktop - by2pg))
      = some (leafDesc f pteV) := by
    rw [hspace (pageOf _) hva, if_pos rfl]
  have hppn : ppn (leafDesc f pteV) = f := permOk_pteV f
  have ht : translate s.phys.mem (s.envs 0).envPgdir (ustacktop - by2pg)
      = some ⟨f, leafDesc f pteV &&& 0xfff⟩ := by
    rw [h.inv.forest.translate_user hd hva, if_pos (by decide), hs, Option.map_some, hppn]
  obtain ⟨a, hm, _⟩ := h.inv.forest.view_translate h.inv.dirs (h.inv.dirs_cur h.cur) hva ht
  obtain ⟨c, hc⟩ := hm.page
  have hidx : Fin.ofNat 512 ((ustacktop - by2pg) >>> 3) = 0 := by decide
  have hF : Forest image base km ρ (s.phys.store ⟨f, 0⟩ w) :=
    h.inv.forest.write (by rw [hf]; trivial) fun g hg => by
      funext j
      exact if_neg fun hc => hg hc.1
  have hs' : space (s.phys.store ⟨f, 0⟩ w).mem (s.envs 0).envPgdir (pageOf (ustacktop - by2pg))
      = some (leafDesc f pteV) := by
    refine (h.inv.forest.space_same hF (fun u t j hu => ?_) hd ⟨pageOf (ustacktop - by2pg), hva⟩).trans hs
    funext k
    refine if_neg ?_
    rintro ⟨rfl, _⟩
    rw [hf] at hu
    cases hu
  refine ⟨{ s with phys := s.phys.store ⟨f, 0⟩ w }, f, c, hva, hc, ?_, ?_, if_pos ⟨rfl, rfl⟩, ?_⟩
  · simp only [Kernel.step, userStore, h.cur, ht, leafDesc_writable, hidx]
    rfl
  · change translate (s.phys.store ⟨f, 0⟩ w).mem (s.envs 0).envPgdir _ = _
    rw [hF.translate_user hd hva, if_pos (by decide), hs', Option.map_some, hppn]
  · have hbind : s.curenv.bind (fun e => translate s.phys.mem (s.envs e).envPgdir
        (ustacktop - by2pg)) = some ⟨f, leafDesc f pteV &&& 0xfff⟩ := by
      rw [h.cur]
      exact ht
    simp only [storeInto, hbind, if_true, hidx, Function.update_self]

/-- The first environment stores 7 at the foot of its stack page, and 7 is there. -/
theorem page_holds_last_store_stack : ∃ s t : Kernel, ∃ f, s.TameReachable image coldRam ∧
    s.step (.store (ustacktop - by2pg) 7) = .ok t ∧
    ∀ x, t.memory.page f = some x → x 0 = 7 := by
  obtain ⟨s₀, s, base, ρ, hb, _, hr, n, _, h⟩ := firstEnv_reached .zero
  obtain ⟨t, f, c, hst⟩ := storeStack h 7
  have hs : s.TameReachable image coldRam := ⟨s₀, _, hb, hr⟩
  refine ⟨s, t, f, hs, hst.step, fun x hx => ?_⟩
  have hrun : Run (Run.recording step (storeInto f))
      (fun y ev => y.1.Tame ev ∧ y.1.memory.page f ≠ none) (s, c) [.store (ustacktop - by2pg) 7]
      (t, storeInto f s (.store (ustacktop - by2pg) 7) t c) :=
    .single ⟨hst.tame, by rw [hst.page]; simp⟩ (Run.recording_ok _ _ hst.step)
  rw [page_holds_last_store cleanRam_coldRam hs hst.page hrun hx]
  exact hst.stored

/-! ## 3. Who sees a page -/

/-- **A page is seen by those who are let in.**  In every tame run in which frame `f` is in use in every
state, and in which no event asks for it to be shared with others than the members of a group, it is
seen by members of the group only, if it was so at the beginning. -/
theorem page_confined {group : Slot → Prop} (hclean : CleanRam L ram) (hs : s.TameReachable L ram)
    (h0 : ∀ y g a, s.memory.Maps y g f a → group y)
    (hr : Run step (fun u ev => u.Tame ev ∧ u.memory.page f ≠ none ∧
      ∀ y, u.Shares y f ev → group y) s es t) :
    ∀ y g a, t.memory.Maps y g f a → group y := by
  obtain ⟨_, base, ρ, fl, _, _, hi⟩ := KernelInv.ofReachable hclean hs
  have hinv := hr.invariant (I := fun u =>
    (∃ ρ fl, KernelInv L base _ ρ fl u) ∧ ∀ y g a, u.memory.Maps y g f a → group y)
    ⟨⟨ρ, fl, hi⟩, h0⟩ ?_
  · exact hinv.2
  · rintro u ev u' ⟨⟨ρ, fl, hi⟩, hgroup⟩ ⟨ht, huse, hshare⟩ hstep
    refine ⟨hi.step ht hstep, fun y g a hm => ?_⟩
    obtain ⟨x, hx⟩ := Option.ne_none_iff_exists'.mp huse
    have heff := hi.effect ht hstep
    by_cases hst : ∃ va w, ev = .store va w
    · obtain ⟨va, w, rfl⟩ := hst
      obtain ⟨e, f', d, _, _, hw⟩ := heff
      rw [hw] at hm
      exact hgroup y g a hm
    · rcases (heff.old (fun va w he => hst ⟨va, w, he⟩) hx).maps y g a hm with hold | hin
      exacts [hgroup y g a hold, hshare y hin]

/-- The first environment has a child without a stack and maps its own stack page for it.  The two see
the page, and nobody else. -/
theorem page_confined_child : ∃ (s t : Kernel) (f : Nat), s.TameReachable image coldRam ∧
    s.Shares 1 f (.svc .zero (.memMap 0 (ustacktop - by2pg) 4097 (ustacktop - by2pg) pteV)) ∧
    s.step (.svc .zero (.memMap 0 (ustacktop - by2pg) 4097 (ustacktop - by2pg) pteV)) = .ok t ∧
    (∃ g a, t.memory.Maps 1 g f a) ∧ ∀ y g a, t.memory.Maps y g f a → y = 0 ∨ y = 1 := by
  obtain ⟨s₀, s, base, ρ, hb, hr, n, hn, h⟩ := firstChild_reached
  have hva : UserVa (ustacktop - by2pg) := by
    unfold UserVa
    decide
  have hround : rounddown (ustacktop - by2pg) by2pg = ustacktop - by2pg := by decide
  have hF := h.inv.forest
  have hlive : (s.envs 1).envStatus ≠ .free := by
    rw [h.status 1 (Or.inr rfl)]
    simp
  have hchild := h.inv.not_mem_of_status hlive
  have h0 := h.inv.dirs_cur h.cur
  have h1 := dirs_of_not_mem h.inv.list hchild
  have hsrc : s.envid2env 0 true = some 0 := by rw [envid2env_zero, h.cur]
  have hdst := h.resolve true
  -- the page that is shared
  obtain ⟨f, hspace⟩ := h.stack
  have hs := (hspace (pageOf (ustacktop - by2pg)) hva).trans (if_pos rfl)
  have hmaps : s.memory.Maps 0 ⟨pageOf (ustacktop - by2pg), hva⟩ f (leafDesc f pteV) :=
    maps_view.mpr ⟨_, h0, hs, permOk_pteV f⟩
  have hpage := hF.toShape.page_of_maps h.inv.dirs hmaps
  obtain ⟨a, hl⟩ : ∃ a, s.phys.pageLookup (s.envs 0).envPgdir (ustacktop - by2pg)
      = .ok (some (f, a)) := by
    rcases hF.pageLookup (h.inv.dirs.role 0 _ h0) hva with ⟨hnone, _⟩ | ⟨u, _, _, hu, hl⟩
    · rw [hs] at hnone
      cases hnone
    · rw [hs] at hu
      rw [← Option.some.inj hu, permOk_pteV f] at hl
      exact ⟨_, hl⟩
  have href : s.phys.ppRef f < 2 ^ 16 - 1 := by
    rw [h.stackRef f hs]
    decide
  -- it is entered, because enough frames are left
  obtain ⟨ρ', p', hi, hins⟩ := (hF.pageInsert (h.inv.dirs.role 1 _ h1) hva hpage href
    (permOk_pteV f)).resolve_right <| by
      rintro ⟨k, _, _, _, hg, hk, hnil, _⟩
      obtain ⟨_, hl'⟩ := hg.taken _ h.pages
      rw [hl'.first_eq_none_iff, List.drop_eq_nil_iff, List.length_drop, length_freshPages] at hnil
      have hbase := h.base_le
      simp only [npage] at hnil
      omega
  have hst : s.step (.svc .zero (.memMap 0 (ustacktop - by2pg) 4097 (ustacktop - by2pg) pteV))
      = .ok { s.trapped .zero with phys := p' } := by
    have hsrc' : (s.trapped .zero).envid2env 0 true = some 0 := hsrc
    have hdst' : (s.trapped .zero).envid2env 4097 true = some 1 := hdst
    rw [step, svc_of_cur h.cur]
    simp only [syscall, sysMemMap, hsrc', hdst', if_neg (show ¬ pteV &&& pteV = 0 by decide),
      hround]
    change Except.map Prod.snd (s.phys.pageLookup (s.envs 0).envPgdir _ >>= _) = _
    rw [hl]
    change Except.map Prod.snd (s.phys.pageInsert (s.envs 1).envPgdir _ _ _ >>= _) = _
    rw [hi]
    rfl
  have hfinds : Finds s.memory 0 (ustacktop - by2pg) f (s.phys.mem f) := KernelInv.finds rfl hmaps
  have hshares : s.Shares 1 f
      (.svc .zero (.memMap 0 (ustacktop - by2pg) 4097 (ustacktop - by2pg) pteV)) :=
    .memMap hsrc hdst hfinds
  have hreach : s.TameReachable image coldRam := ⟨s₀, _, hb, hr⟩
  refine ⟨s, _, f, hreach, hshares, hst, ?_, page_confined cleanRam_coldRam hreach ?_
    (.single ⟨?_, ?_, ?_⟩ hst)⟩
  · rcases h.inv.binds h1 hva hpage href (permOk_pteV f) hi with ⟨_, g, _, hd, hb⟩ | ⟨hv, _⟩
    · refine ⟨g, leafDesc f pteV, ?_⟩
      change (view s.dirs p'.mem).Maps 1 g f _
      rw [hb]
      exact Memory.maps_rebind.mpr ⟨hd, Or.inl ⟨rfl, rfl, rfl⟩⟩
    · exact absurd hv (by decide)
  · intro y g a hm
    obtain ⟨d, hd, _⟩ := maps_view.mp hm
    by_contra hy
    rw [not_or] at hy
    obtain ⟨i, rfl⟩ := Fin.exists_succ_eq.mpr hy.1
    obtain ⟨j, rfl⟩ := Fin.exists_succ_eq.mpr fun h0 => hy.2 (congrArg Fin.succ h0)
    rw [dirs_of_mem h.inv.list
      (List.mem_map_of_mem (List.mem_map_of_mem (List.mem_finRange j)))] at hd
    cases hd
  · intro _ src dst f' a' hsrc' _ hl'
    cases hsrc.symm.trans hsrc'
    rw [hround, hl] at hl'
    cases hl'
    exact ⟨hva, hva, permOk_pteV f, href⟩
  · obtain ⟨x, hx⟩ := hmaps.page
    rw [hx]
    simp
  · rintro y (⟨_, hdst', _⟩ | _)
    rw [hdst] at hdst'
    exact Or.inr (Option.some.inj hdst').symm

/-! ## 4. What words there are -/

theorem StackCopied.fed {good : Nat → Prop} {out : Prop} {b e : Slot} {n va : Nat} {m m' : UserMemory}
    {v : Int} (h : StackCopied b e out n va m v m') (hm : m.Fed good) : m'.Fed good := by
  induction h with
  | done => exact hm
  | noFrame _ => exact hm
  | leftOut _ => exact hm
  | copied _ _ hq _ _ ih => exact ih (hm.bind fun _ => hm _ _ hq)

/-- An event brings no word into memory but the one that it stores. -/
theorem Effect.fed {good : Nat → Prop} {s' : Kernel} (h : s.Effect s' ev) (h0 : good 0)
    (hst : ∀ va w, ev = .store va w → good w) (hm : s.memory.Fed good) : s'.memory.Fed good := by
  have hsame : s'.memory = s.memory → s'.memory.Fed good := fun h => h ▸ hm
  cases ev with
  | irq r => exact hsame h
  | store va w =>
    obtain ⟨_, _, _, _, _, hw⟩ := h
    rw [hw]
    exact hm.write (hst va w rfl)
  | create binary priority =>
    obtain ⟨e, _, ⟨h, _⟩ | ⟨f', _, g, _, _, hb⟩⟩ := h
    · rw [h]
      exact hm.create
    · rw [hb]
      exact hm.create.bind fun _ _ => h0
  | svc r call =>
    obtain ⟨y, _, h⟩ := h
    cases call with
    | memAlloc envid va perm =>
      rcases h with ⟨_, _, _, _, _, g, _, _, hb⟩ | ⟨_, hb⟩
      · rw [hb]
        exact hm.bind fun _ _ => h0
      · exact hsame hb
    | memMap srcid srcva dstid dstva perm =>
      rcases h with ⟨_, _, _, _, _, _, _, ⟨_, _, _, _, hp⟩, _, _, _, hb⟩ | ⟨_, hb⟩
      · rw [hb]
        exact hm.bind fun _ => hm _ _ hp
      · exact hsame hb
    | memUnmap envid va =>
      rcases h with ⟨_, e, _, hunbind, hlow⟩ | ⟨_, hb⟩
      · by_cases hva : UserVa va
        · rw [hunbind ⟨pageOf va, hva⟩ rfl]
          exact hm.unbind
        · exact hsame (hlow hva)
      · exact hsame hb
    | ipcCanSend envid value srcva perm =>
      rcases h with ⟨_, _, _, _, _, _, _, _, _, _, ⟨_, _, _, _, hp⟩, _, _, _, hb⟩ | ⟨hb, _⟩
      · rw [hb]
        exact hm.bind fun _ => hm _ _ hp
      · exact hsame hb
    | envAlloc =>
      rcases h with ⟨_, _, _, _, _, hcopied, _⟩ | ⟨_, hb⟩
      · exact hcopied.fed hm.create
      · exact hsame hb
    | envDestroy envid =>
      rcases h with ⟨_, _, _, hb⟩ | ⟨_, hb⟩
      · rw [hb]
        exact hm.destroy
      · exact hsame hb
    | _ => exact hsame h

/-- **What can be read has been stored.**  In every state that a tame run reaches from boot on clean
memory, every word that the hardware finds for an environment in the user half is zero or has been
stored by an environment in the run. -/
theorem words_were_stored {e : Slot} {va : Nat} {tr : Translation} (hclean : CleanRam L ram)
    (hboot : boot L ram = .ok s₀) (hr : Run step Tame s₀ es s) (he : s.Named e)
    (hva : UserVa va) (ht : translate s.phys.mem (s.envs e).envPgdir va = some tr) (i : Fin 512) :
    s.phys.mem tr.frame i = 0 ∨ ∃ va', .store va' (s.phys.mem tr.frame i) ∈ es := by
  obtain ⟨s₁, base, hb, hbooted, _⟩ := boot_ok hclean
  rw [hboot] at hb
  cases hb
  have hinv := hr.invariantEvents (I := fun es u => (∃ ρ fl, KernelInv L base s₀.phys.mem ρ fl u) ∧
      u.memory.Fed fun w => w = 0 ∨ ∃ va, Event.store va w ∈ es)
    ⟨⟨_, _, KernelInv.ofBooted hbooted⟩, ?_⟩ ?_
  · obtain ⟨⟨ρ, fl, hi⟩, hfed⟩ := hinv
    have hd : s.dirs e = some (s.envs e).envPgdir :=
      dirs_of_not_mem hi.list (he.elim hi.not_mem_of_status (hi.cur e))
    obtain ⟨a, hm, _⟩ := hi.forest.view_translate hi.dirs hd hva ht
    exact hfed _ _ (Memory.page_make hm) i
  · intro p c hp
    obtain ⟨y, g, a, hm⟩ := Memory.exists_page_iff.mp ⟨c, hp⟩
    exact absurd hm.live (not_live_boot hbooted y)
  · rintro es u ev u' ⟨⟨ρ, fl, hi⟩, hfed⟩ ht hstep
    refine ⟨hi.step ht hstep, (hi.effect ht hstep).fed (Or.inl rfl) ?_ fun p c hp j => ?_⟩
    · rintro va w rfl
      exact Or.inr ⟨va, List.mem_append_right _ (List.mem_singleton.mpr rfl)⟩
    · exact (hfed p c hp j).imp_right fun ⟨va, h⟩ => ⟨va, List.mem_append_left _ h⟩

/-- After the first environment has stored 7 at the foot of its stack page, it reads 7 there, and 0 or 7
in the whole page. -/
theorem words_were_stored_stack : ∃ (s : Kernel) (tr : Translation), s.TameReachable image coldRam ∧
    translate s.phys.mem (s.envs 0).envPgdir (ustacktop - by2pg) = some tr ∧
    s.phys.mem tr.frame 0 = 7 ∧ ∀ i, s.phys.mem tr.frame i = 0 ∨ s.phys.mem tr.frame i = 7 := by
  obtain ⟨s₀, s, base, ρ, hb, _, hr, n, _, h⟩ := firstEnv_reached .zero
  obtain ⟨t, f, c, hst⟩ := storeStack h 7
  have hr' := hr.append (.single hst.tame hst.step)
  obtain ⟨_, _, _, _, _, rfl⟩ := userStore_ok hst.step
  refine ⟨_, _, ⟨s₀, _, hb, hr'⟩, hst.trans, hst.word, fun i => ?_⟩
  rcases words_were_stored cleanRam_coldRam hb hr' (Or.inr h.cur) hst.tame hst.trans i
    with h0 | ⟨va, hva⟩
  · exact Or.inl h0
  · simp only [List.cons_append, List.nil_append, List.mem_cons, reduceCtorEq, Event.store.injEq,
      List.not_mem_nil, or_false, false_or] at hva
    exact Or.inr hva.2

end Kernel

end RaspiOS
