/-
# One page of `envs[]` in the place of another

`sys_ipc_recv` asks of the address where a page is to arrive only that it is below `UTOP`, and
`page_insert` enters the page wherever the address leads: also in the identity map, which all
directories share and in which the kernel finds its own records.  Thirteen pages hold 128 records, so
slot 128 starts a page of `envs[]` as slot 0 does.  When an environment receives at the address of the
one page and another sends it the other, by its address, slots 128 to 136 become what slots 0 to 8 are,
and two slots carry one id (`env_ids_forged`).

As long as page calls keep to the user half ids are unique and never come back (`env_ids`).
-/
import Mathlib.Tactic.IntervalCases
import RaspiOS.Status

set_option autoImplicit false

namespace RaspiOS

open LinkedList

/-! ## 1. A page entered in the identity map -/

section Enter

variable {L : Layout} {q : Phys} {d f g : Nat} (hf : f < ramFrames)
  (h1 : q.mem d 0 = tableDesc (L.pgDir + 1))
  (h2 : q.mem (L.pgDir + 1) (pmdx (page2pa f)) = tableDesc (L.pgDir + 2 + f / 512))

include hf h1 h2

/-- `pgdir_walk` with creation creates nothing there. -/
theorem Phys.pgdirWalk_ident : q.pgdirWalk d (page2pa f) true = ((0, identPtr L f), q) := by
  have hload₁ : q.load ⟨d, 0⟩ = tableDesc (L.pgDir + 1) := h1
  have hload₂ : q.load ⟨L.pgDir + 1, pmdx (page2pa f)⟩ = tableDesc (L.pgDir + 2 + f / 512) := h2
  simp only [Phys.pgdirWalk, Phys.descend, pudx_page2pa hf, hload₁, if_pos (valid_tableDesc _),
    ppn_tableDesc, hload₂, ptex_page2pa]
  rfl

/-- **`page_insert` at the address of a frame** replaces the frame, for every directory. -/
theorem Phys.pageInsert_ident (hL : 0 < L.pgDir) (hd : d ≠ (identPtr L f).frame)
    (h3 : q.mem (identPtr L f).frame (identPtr L f).idx = Boot.identDesc L (page2pa f)) (hne : f ≠ g)
    (perm : Nat) : ∃ q' : Phys, q.pageInsert d g (page2pa f) perm = .ok (0, q') ∧
      ∀ u i, q'.mem u i = if u = (identPtr L f).frame ∧ i = (identPtr L f).idx then leafDesc g perm
        else q.mem u i := by
  have hnull : identPtr L f ≠ .null := by
    intro hn
    have hz : L.pgDir + 2 + f / 512 = 0 := congrArg Ptr.frame hn
    omega
  have hload : q.load (identPtr L f) = Boot.identDesc L (page2pa f) := h3
  have hpage : pa2page (Boot.identDesc L (page2pa f)) = .ok f := by
    simp only [ramFrames] at hf
    have hnp : ¬ npage ≤ f := by
      simp only [npage]
      omega
    rw [pa2page, ppn_identDesc, if_neg hnp]
  obtain ⟨p, hp, hmem⟩ := Phys.pageRemove_ident hf h1 h2 hL h3
  have hupper : L.pgDir + 1 ≠ (identPtr L f).frame := by
    simp only [identPtr]
    omega
  -- the upper levels are as they were when the entry is cleared
  have hwalk : (p.store (identPtr L f) 0).pgdirWalk d (page2pa f) true
      = ((0, identPtr L f), p.store (identPtr L f) 0) := by
    refine Phys.pgdirWalk_ident hf ?_ ?_
    · rw [Phys.mem_store, if_neg fun hc => hd hc.1, hmem, h1]
    · rw [Phys.mem_store, if_neg fun hc => hupper hc.1, hmem, h2]
  refine ⟨((p.store (identPtr L f) 0).store (identPtr L f) (leafDesc g perm)).incRef g, ?_, ?_⟩
  · simp only [Phys.pageInsert, Phys.walk_ident hf h1 h2, hload, hp, hpage, bind, Except.bind]
    rw [if_pos ⟨hnull, (isTable_identDesc L (page2pa f)).valid⟩, if_pos hne]
    simp only [Phys.pageEnter, hwalk]
    rw [if_neg (by decide)]
    rfl
  · intro u i
    rw [Phys.mem_incRef, Phys.mem_store]
    split
    · rfl
    · rename_i hn
      rw [Phys.mem_store, if_neg hn, hmem]

end Enter

/-! ## 2. The records when page 13 of the table is page 0 -/

namespace Records

variable {R : Records}

/-- The first 44 words of one record and the last eight of another. -/
def splice (v w : Record) : Record :=
  { v with env :=
    { v.env with
      envIpcValue := w.env.envIpcValue, envIpcFrom := w.env.envIpcFrom
      envIpcRecving := w.env.envIpcRecving, envIpcDstva := w.env.envIpcDstva
      envIpcPerm := w.env.envIpcPerm, envPgfaultHandler := w.env.envPgfaultHandler
      envXstacktop := w.env.envXstacktop, envRuns := w.env.envRuns } }

/-- Slots 128 to 136 are in page 13, and most of slot 137. -/
def doubled (r : Slot → Record) (e : Slot) : Record :=
  if 128 ≤ e.val ∧ e.val < 137 then r (Fin.ofNat 1024 (e.val - 128))
  else if e.val = 137 then splice (r 9) (r 137)
  else r e

/-- Where word `n` of the table is now read. -/
def twin (n : Nat) : Nat := if n / 512 = 13 then n - 13 * 512 else n

theorem word_splice (v w : Record) {j : Nat} (hj : j < envWords) :
    R.word (splice v w) j = if j < 44 then R.word v j else R.word w j := by
  have hj' : j < 52 := hj
  by_cases hreg : j < 31
  · rw [if_pos (by omega)]
    simp only [word, hreg, dite_true, splice]
  · interval_cases j
    all_goals first
      | exact absurd hreg (by decide)
      | rfl

/-- **Every word of the table is a word of the spliced records.** -/
theorem tableWord_doubled (t : Kernel) {n : Nat} (hn : n < envPages * 512) :
    R.tableWord (t.withRecords (doubled t.record)) n = R.tableWord t (twin n) := by
  have hw : envWords = 52 := rfl
  have hp : envPages = 104 := rfl
  have he : (Fin.ofNat 1024 (n / envWords)).val = n / 52 := by
    rw [hw]
    exact Nat.mod_eq_of_lt (by omega)
  have hlast : (137 : Slot) = Fin.ofNat 1024 137 := rfl
  have hnine : (9 : Slot) = Fin.ofNat 1024 9 := rfl
  change R.word (doubled t.record (Fin.ofNat 1024 (n / envWords))) (n % envWords) = _
  unfold doubled tableWord twin
  rw [he, hw]
  by_cases hmid : 128 ≤ n / 52 ∧ n / 52 < 137
  · rw [if_pos hmid, if_pos (by omega)]
    have hslot : n / 52 - 128 = (n - 13 * 512) / 52 := by omega
    have hidx : n % 52 = (n - 13 * 512) % 52 := by omega
    rw [hslot, hidx]
  · rw [if_neg hmid]
    by_cases hend : n / 52 = 137
    · have hmod : n % 52 < envWords := Nat.mod_lt _ (by decide)
      rw [if_pos hend, word_splice _ _ hmod]
      by_cases hj : n % 52 < 44
      · have hslot : (n - 13 * 512) / 52 = 9 := by omega
        have hidx : (n - 13 * 512) % 52 = n % 52 := by omega
        rw [if_pos hj, if_pos (by omega), hslot, hidx, hnine]
      · rw [if_neg hj, if_neg (by omega), hend, hlast]
    · rw [if_neg hend, if_neg (by omega)]

theorem tableWord_doubled_of_ne (t : Kernel) {n : Nat} (hn : n < envPages * 512) (h13 : n / 512 ≠ 13) :
    R.tableWord (t.withRecords (doubled t.record)) n = R.tableWord t n := by
  rw [tableWord_doubled t hn, twin, if_neg h13]

/-- The tables through which the kernel finds `envs[]`, when page 13 of it has given way to page 0. -/
structure Swapped (R : Records) (L : Layout) (m : Mem) (d : Nat) : Prop where
  dir : m d 0 = tableDesc (L.pgDir + 1)
  ram : ∀ f < ramFrames, m (L.pgDir + 1) (pmdx (page2pa f)) = tableDesc (L.pgDir + 2 + f / 512)
  leaf : ∀ k < envPages, m (identPtr L (R.frame + k)).frame (identPtr L (R.frame + k)).idx
    = if k = 13 then leafDesc R.frame pteV else Boot.identDesc L (page2pa (R.frame + k))

/-- The frames of the table hold the words of `t`, but for page 13, which nobody reads. -/
def HoldsRest (R : Records) (s t : Kernel) : Prop :=
  ∀ k < envPages, k ≠ 13 → ∀ i : Fin 512, s.phys.mem (R.frame + k) i = R.tableWord t (512 * k + i)

/-- The doubled records differ on page 13 only. -/
theorem HoldsRest.doubled {s : Kernel} (h : R.HoldsRest s s) :
    R.HoldsRest (s.withRecords (doubled s.record)) (s.withRecords (doubled s.record)) := by
  intro k hk h13 i
  have hi := i.isLt
  refine (h k hk h13 i).trans (tableWord_doubled_of_ne s ?_ ?_).symm
  · omega
  · omega

section Swapped

variable {L : Layout} {s t : Kernel} (hp : R.Placed) (hram : R.frame + envPages ≤ ramFrames)
  (hsw : Swapped R L s.phys.mem s.active)

include hp hram hsw

/-- Page 13 is where page 0 is. -/
theorem Swapped.page {k : Nat} (hk : k < envPages) :
    R.page s k = some (if k = 13 then R.frame else R.frame + k) := by
  have hlt : R.frame + k < ramFrames := by omega
  have haddr : R.envs + k * by2pg = page2pa (R.frame + k) := by
    rw [← hp.aligned, page2pa_eq, page2pa_eq, Nat.add_mul]
  have hframe : R.frame < 2 ^ 36 := by
    simp only [ramFrames] at hlt
    omega
  rw [Records.page, haddr, translate_ident hlt hsw.dir (hsw.ram _ hlt), hsw.leaf k hk]
  by_cases h13 : k = 13
  · rw [if_pos h13, if_pos h13, if_pos (isTable_leafDesc _ _), Option.map_some,
      hwFrame_leafDesc_of_lt hframe (by decide)]
  · rw [if_neg h13, if_neg h13, if_pos (isTable_identDesc _ _), Option.map_some,
      hwFrame_identDesc _ hlt]

/-- **What the kernel then reads**: the doubled records. -/
theorem Swapped.load (hw : R.HoldsRest s t)
    (hact : (s.withRecords (doubled t.record)).active = s.active) :
    R.load s = .ok (s.withRecords (doubled t.record)) := by
  refine load_words (t := t.withRecords (doubled t.record)) hp
    (fun k hk => by rw [hsw.page hp hram hk]; rfl) (fun n hn => ?_) hact
  have hpages : envPages = 104 := rfl
  have hk : n / 512 < envPages := by omega
  rw [tableWord_doubled t hn, memWord, hsw.page hp hram hk, twin]
  dsimp only
  have hidx : (Fin.ofNat 512 n).val = n % 512 := rfl
  by_cases h13 : n / 512 = 13
  · rw [if_pos h13, if_pos h13]
    have h0 := hw 0 (by decide) (by decide) (Fin.ofNat 512 n)
    have htwin : 512 * 0 + n % 512 = n - 13 * 512 := by omega
    rw [Nat.add_zero, hidx, htwin] at h0
    exact h0
  · rw [if_neg h13, if_neg h13, hw _ hk h13, hidx, Nat.div_add_mod]

end Swapped

section Settle

variable {L : Layout} {s t : Kernel} (hp : R.Placed) (hram : R.frame + envPages ≤ ramFrames)
  (hphys : t.phys = s.phys) (hact : t.active = s.active)

include hp hram hphys hact

/-- A store to the table stays in its frames. -/
theorem Swapped.put_mem (hsw : Swapped R L s.phys.mem s.active) {f : Nat}
    (hf : ¬ (R.frame ≤ f ∧ f < R.frame + envPages)) : (R.put s t).phys.mem f = s.phys.mem f := by
  rw [← hphys, ← hact] at hsw
  funext i
  unfold put
  dsimp only
  split
  · rename_i k hk
    have hkn : k < envPages := List.mem_range.mp (List.mem_of_find?_eq_some hk)
    obtain ⟨hpage, _⟩ := of_decide_eq_true (by simpa using List.find?_some hk)
    rw [hsw.page hp hram hkn] at hpage
    have heq := Option.some.inj hpage
    split at heq <;> omega
  · rw [hphys]

/-- It reaches the words that have changed, if they are in the first page. -/
theorem Swapped.put_word (hsw : Swapped R L s.phys.mem s.active)
    (hw : R.HoldsRest s s)
    (hsame : ∀ n, 512 ≤ n → n < envPages * 512 → R.tableWord t n = R.tableWord s n) {k : Nat}
    (hk : k < envPages) (h13 : k ≠ 13) (i : Fin 512) :
    (R.put s t).phys.mem (R.frame + k) i = R.tableWord t (512 * k + i) := by
  have hsw' := hsw
  rw [← hphys, ← hact] at hsw'
  unfold put
  dsimp only
  split
  · rename_i k' hk'
    have hkn : k' < envPages := List.mem_range.mp (List.mem_of_find?_eq_some hk')
    obtain ⟨hpage, hne⟩ := of_decide_eq_true (by simpa using List.find?_some hk')
    rw [hsw'.page hp hram hkn] at hpage
    have heq := Option.some.inj hpage
    by_cases hkk : k' = 13
    · exact absurd (hsame _ (by omega) (by omega)) hne
    · rw [if_neg hkk] at heq
      rw [show k' = k by omega]
  · rename_i hnone
    have hdiff := List.find?_eq_none.mp hnone k (List.mem_range.mpr hk)
    rw [hphys, hw k hk h13 i]
    by_contra hne
    refine hdiff (decide_eq_true ⟨?_, fun h => hne h.symm⟩)
    rw [hsw'.page hp hram hk, if_neg h13]

/-- **What a call has changed in the first page**, page 13 shows as well. -/
theorem Swapped.settle (hlow : L.pgDir + 507 ≤ R.frame) (hsw : Swapped R L s.phys.mem s.active)
    (hdir : ¬ (R.frame ≤ s.active ∧ s.active < R.frame + envPages))
    (hw : R.HoldsRest s s)
    (hsame : ∀ n, 512 ≤ n → n < envPages * 512 → R.tableWord t n = R.tableWord s n)
    (hkeep : (t.withRecords (doubled t.record)).active = t.active) :
    R.settle s t = .ok ((R.put s t).withRecords (doubled t.record)) := by
  have hout : ∀ f, f < L.pgDir + 507 → (R.put s t).phys.mem f = s.phys.mem f :=
    fun f hf => hsw.put_mem hp hram hphys hact (by omega)
  have hactive : (R.put s t).active = s.active := hact
  have hleaf : ∀ k < envPages, (identPtr L (R.frame + k)).frame < L.pgDir + 507 := by
    intro k hk
    simp only [identPtr, ramFrames] at hram ⊢
    omega
  have hput : Swapped R L (R.put s t).phys.mem (R.put s t).active :=
    { dir := by rw [hactive, hsw.put_mem hp hram hphys hact hdir, hsw.dir]
      ram := fun f hf => by rw [hout _ (by omega), hsw.ram f hf]
      leaf := fun k hk => by rw [hout _ (hleaf k hk), hsw.leaf k hk] }
  have hpages : ∀ k < envPages, R.page t k = R.page s k := by
    intro k _
    rw [Records.page, Records.page, hphys, hact]
  unfold Records.settle
  rw [if_pos (Or.inl hpages)]
  exact hput.load hp hram (fun k hk h13 i => hsw.put_word hp hram hphys hact hw hsame hk h13 i) hkeep

end Settle

theorem doubled_of_lt (r : Slot → Record) {e : Slot} (he : e.val < 128) : doubled r e = r e := by
  unfold doubled
  rw [if_neg (by omega), if_neg (by omega)]

/-- Slot 129 is what slot 1 is. -/
theorem doubled_129 (r : Slot → Record) : doubled r 129 = doubled r 1 := rfl

end Records

/-! ## 3. The two calls -/

namespace Kernel

/-- A delivery writes to the record of the receiver and to the link of the head of the list. -/
theorem record_ipcDeliver {s : Kernel} {c e f x : Slot} (value perm : Nat)
    (hf : s.envSched.first s.curSched = some f) (hxe : x ≠ e) (hxf : x ≠ f) :
    (s.ipcDeliver c e value perm).record x = s.record x := by
  have hnext := s.envSched.get_insertHead s.curSched e (.next x)
  rw [if_neg (by simp), if_neg (by simp [hxe])] at hnext
  have hprev := s.envSched.prev_insertHead s.curSched e x
  rw [if_neg hxe, hf, if_neg (by simp [Ne.symm hxf])] at hprev
  have henv : (s.ipcDeliver c e value perm).envs x = s.envs x := by
    simp [ipcDeliver, schedInsertHead, modifyEnv, hxe]
  have hnext' : (s.ipcDeliver c e value perm).envSched.next x = s.envSched.next x := hnext
  have hprev' : (s.ipcDeliver c e value perm).envSched.prev x = s.envSched.prev x := hprev
  unfold record
  rw [henv, hnext', hprev']
  rfl

end Kernel

namespace Records

variable {R : Records}

theorem active_doubled {s : Kernel} (h : s.curenv = some 1) :
    (s.withRecords (doubled s.record)).active = s.active := by
  have hcur : (s.withRecords (doubled s.record)).curenv = some 1 := h
  have hone : doubled s.record 1 = s.record 1 := doubled_of_lt _ (by decide)
  have henv : (s.withRecords (doubled s.record)).envs 1 = s.envs 1 := congrArg Record.env hone
  rw [Kernel.active_of_cur hcur, Kernel.active_of_cur h, henv]

/-- **The delivery to slot 0 shows in slot 128.** -/
theorem Swapped.deliver {L : Layout} {s : Kernel} (hp : R.Placed)
    (hram : R.frame + envPages ≤ ramFrames) (hlow : L.pgDir + 507 ≤ R.frame)
    (hsw : Swapped R L s.phys.mem s.active)
    (hdir : ¬ (R.frame ≤ s.active ∧ s.active < R.frame + envPages))
    (hw : R.HoldsRest s s)
    (hcur : s.curenv = some 1) (hfirst : s.envSched.first s.curSched = some 1) (value perm : Nat) :
    R.settle s (s.ipcDeliver 1 0 value perm) =
      .ok ((R.put s (s.ipcDeliver 1 0 value perm)).withRecords
        (doubled (s.ipcDeliver 1 0 value perm).record)) := by
  have hcur' : (s.ipcDeliver 1 0 value perm).curenv = some 1 := hcur
  have hact : (s.ipcDeliver 1 0 value perm).active = s.active := by
    rw [Kernel.active_of_cur hcur', Kernel.active_of_cur hcur]
    simp [Kernel.ipcDeliver, Kernel.schedInsertHead, Kernel.modifyEnv]
  refine hsw.settle hp hram rfl hact hlow hdir hw (fun n hlo hhi => ?_) (active_doubled hcur')
  have hpages : envPages = 104 := rfl
  have hslot : ∀ x : Slot, x.val < 9 → Fin.ofNat 1024 (n / envWords) ≠ x := by
    rintro x hx rfl
    have hval : (Fin.ofNat 1024 (n / envWords)).val = n / 52 := Nat.mod_eq_of_lt (by
      rw [show envWords = 52 from rfl]
      omega)
    omega
  rw [tableWord, tableWord,
    Kernel.record_ipcDeliver value perm hfirst (hslot 0 (by decide)) (hslot 1 (by decide))]

end Records

/-- The first of two environments waits for a page at the address of page 13 of `envs[]`, and the
second runs. -/
structure Waiting (R : Records) (s : Kernel) : Prop where
  cur : s.curenv = some 1
  status : (s.envs 0).envStatus = .notRunnable ∧ (s.envs 1).envStatus = .runnable
  recving : (s.envs 0).envIpcRecving = 1
  dstva : (s.envs 0).envIpcDstva = R.envs + 13 * by2pg
  id : (s.envs 0).envId = 2048 ∧ (s.envs 1).envId = 4097
  curSched : s.curSched = 0
  first : s.envSched.first 0 = some 1

/-- `sys_ipc_recv` of the first of two environments. -/
theorem SecondEnv.receive {R : Records} {base : Nat} {km : Mem} {ρ : Nat → Role} {s : Kernel}
    (h : SecondEnv base km ρ s) (hd : R.envs + 13 * by2pg < utop) :
    ∃ s', s.step (.svc .zero (.ipcRecv (R.envs + 13 * by2pg))) = .ok s' ∧ Waiting R s' := by
  obtain ⟨s', n, hst, hn0, hn, hstat, hturn, _⟩ :=
    Kernel.step_ipcRecv (e := 1) .zero h.cur hd (by decide) (h.status 1 (Or.inr rfl))
  have hn1 : n = 1 := by
    by_contra hn1
    have hrun : (s.envs n).envStatus = .runnable := hn
    rw [h.other n hn0 hn1] at hrun
    cases hrun
  subst hn1
  refine ⟨s', hst, ?_⟩
  have hcur := hturn.cur
  cases Kernel.step_cases hst with
  | quiet phys kf tf =>
    have hcur0 : s.curenv = some 1 := hcur
    rw [h.cur] at hcur0
    cases hcur0
  | switch _ _ _ _ hy _ => exact hy.elim
  | @recv _ _ c kf tf pos m hc _ hm0 hm =>
    cases h.cur.symm.trans hc
    rw [Kernel.curenv_envRun] at hcur
    cases hcur
    have hsched := h.sched.remove (a := 0) (by simp)
    exact
      { cur := Kernel.curenv_envRun _ _
        status := by
          rw [Kernel.envs_envRun, Kernel.envs_envRun]
          refine ⟨by simp [Kernel.schedRemove], ?_⟩
          simpa [Kernel.schedRemove, Kernel.modifyEnv, Kernel.withMem] using hm
        recving := by
          rw [Kernel.envs_envRun]
          simp [Kernel.schedRemove]
        dstva := by
          rw [Kernel.envs_envRun]
          simp [Kernel.schedRemove]
        id := by
          rw [Kernel.envs_envRun, Kernel.envs_envRun]
          simpa [Kernel.schedRemove, Kernel.modifyEnv, Kernel.withMem] using h.id
        curSched := by
          rw [Kernel.curSched_envRun]
          exact h.curSched
        first := by
          rw [Kernel.envSched_envRun]
          exact hsched.first_eq }

theorem Waiting.flush {R : Records} {s : Kernel} (h : Waiting R s) : Waiting R (R.flush s) :=
  ⟨h.cur, h.status, h.recving, h.dstva, h.id, h.curSched, h.first⟩

namespace Waiting

variable {R : Records} {L : Layout} {base : Nat} {ρ : Nat → Role} {fl : List Slot} {s : Kernel}
  (h : Waiting R s) (hm : MachineInv R L base ρ fl s) (hf : R.Fits L base)
  (hram : R.frame + envPages ≤ ramFrames)

include h hm

/-- The directory of the second environment lies behind the table. -/
theorem dir_outside : base ≤ (s.envs 1).envPgdir := by
  have hd := hm.inv.dir 1 (hm.inv.not_mem_of_status (by rw [h.status.2]; simp))
  by_contra hlt
  cases hd.symm.trans ((hm.inv.forest.kernel (s.envs 1).envPgdir).mpr (Or.inl (by omega)))

include hf hram

/-- **The page is entered**: the kernel finds page 0 where page 13 was. -/
theorem enter : ∃ phys : Phys,
    s.phys.pageLookup (s.envs 1).envPgdir R.envs = .ok (some (R.frame, identPtr L R.frame)) ∧
    s.phys.pageInsert (s.envs 0).envPgdir R.frame (s.envs 0).envIpcDstva pteV = .ok (0, phys) ∧
    Records.Swapped R L phys.mem (s.envs 1).envPgdir ∧
    ∀ k < envPages, phys.mem (R.frame + k) = s.phys.mem (R.frame + k) := by
  have hpages : envPages = 104 := rfl
  have habove := hf.above
  have hbelow := hf.below
  have hF := hm.inv.forest
  have hdir : ∀ e : Slot, (s.envs e).envStatus ≠ .free → ρ (s.envs e).envPgdir = .dir :=
    fun e he => hm.inv.dir e (hm.inv.not_mem_of_status he)
  have hdir0 := hdir 0 (by rw [h.status.1]; simp)
  have hdir1 := hdir 1 (by rw [h.status.2]; simp)
  have hframe : R.frame < ramFrames := by omega
  have hframe13 : R.frame + 13 < ramFrames := by omega
  have henvs : R.envs = page2pa R.frame := hf.aligned.symm
  have hdst : (s.envs 0).envIpcDstva = page2pa (R.frame + 13) := by
    rw [h.dstva, henvs, page2pa_eq, page2pa_eq, Nat.add_mul]
  -- an identity table is no directory, and no page of the table
  have hident : ∀ f < ramFrames, (identPtr L f).frame < L.pgDir + 507 := by
    intro f hlt
    simp only [identPtr, ramFrames] at hlt ⊢
    omega
  have hne : ∀ d, ρ d = .dir → d ≠ (identPtr L (R.frame + 13)).frame := by
    rintro d hd rfl
    have hlt := hident _ hframe13
    cases hd.symm.trans ((hF.kernel (identPtr L (R.frame + 13)).frame).mpr (Or.inl (by omega)))
  obtain ⟨h1, h2⟩ := hF.ident_upper (Or.inl hdir0) hframe13
  have hL := L.linked
  obtain ⟨phys, hins, hmem⟩ := Phys.pageInsert_ident (g := R.frame) hframe13 h1 h2 (by omega)
    (hne _ hdir0) (hF.mem_identPtr hframe13) (by omega) pteV
  refine ⟨phys, ?_, ?_, ?_, fun k hk => funext fun i => ?_⟩
  · rw [henvs]
    exact hF.pageLookup_ident hdir1 hframe
  · rw [hdst]
    exact hins
  · refine ⟨?_, fun f hlt => ?_, fun k hk => ?_⟩
    · rw [hmem, if_neg fun hc => hne _ hdir1 hc.1, (hF.ident_upper (Or.inl hdir1) hframe).1]
    · rw [hmem, if_neg fun hc => ?_, (hF.ident_upper (Or.inl hdir1) hlt).2]
      have hupper : L.pgDir + 1 = L.pgDir + 2 + (R.frame + 13) / 512 := hc.1
      omega
    · rw [hmem]
      by_cases h13 : k = 13
      · rw [h13, if_pos ⟨rfl, rfl⟩, if_pos rfl]
      · rw [if_neg h13, if_neg, hF.mem_identPtr (by omega)]
        rintro ⟨hfr, hidx⟩
        have hdiv : L.pgDir + 2 + (R.frame + k) / 512 = L.pgDir + 2 + (R.frame + 13) / 512 := hfr
        have hmod : (R.frame + k) % 512 = (R.frame + 13) % 512 := congrArg Fin.val hidx
        omega
  · rw [hmem, if_neg]
    rintro ⟨hfr, _⟩
    have hlt := hident _ hframe13
    omega

/-- **The page is sent**: slot 129 is what slot 1 is, which runs. -/
theorem send (hlow : R.envs < utop) : ∃ u : Kernel,
    R.step s (.svc .zero (.ipcCanSend 2048 0 R.envs pteV)) = .ok u ∧
    u.envs 129 = u.envs 1 ∧ (u.envs 1).envStatus = .runnable := by
  obtain ⟨phys, hlook, hins, hswap, hwords⟩ := h.enter hm hf hram
  let k : Kernel := { s with kernelFrame := saveall syncStack .zero }
  let k₁ : Kernel := { k with phys := phys }
  let s₁ : Kernel := k₁.withRecords (Records.doubled k₁.record)
  have hpages : envPages = 104 := rfl
  have hact : k₁.active = (s.envs 1).envPgdir := Kernel.active_of_cur h.cur
  have hact₁ : s₁.active = k₁.active := Records.active_doubled h.cur
  have hswap₁ : Records.Swapped R L k₁.phys.mem k₁.active := hact ▸ hswap
  -- the kernel reads the table again
  have hw : R.HoldsRest k₁ k₁ := fun j hj _ i => (congrFun (hwords j hj) i).trans (hm.synced j hj i)
  have hload : R.load k₁ = .ok s₁ := hswap₁.load hf.toPlaced hram hw hact₁
  have hw₁ : R.HoldsRest s₁ s₁ := hw.doubled
  -- and delivers
  have hdir : ¬ (R.frame ≤ s₁.active ∧ s₁.active < R.frame + envPages) := by
    rw [hact₁, hact]
    have hbelow := hf.below
    have hbase := h.dir_outside hm
    omega
  have hfirst : s₁.envSched.first s₁.curSched = some 1 := by
    change s.envSched.first s.curSched = some 1
    rw [h.curSched, h.first]
  have hsettle := Records.Swapped.deliver hf.toPlaced hram hf.above (hact₁ ▸ hswap₁) hdir hw₁ h.cur
    hfirst 0 pteV
  refine ⟨(R.put s₁ (s₁.ipcDeliver 1 0 0 pteV)).withRecords
    (Records.doubled (s₁.ipcDeliver 1 0 0 pteV).record), ?_,
    congrArg Record.env (Records.doubled_129 _), ?_⟩
  · have hlive : (k.envs 0).envStatus ≠ .free := by
      change (s.envs 0).envStatus ≠ .free
      rw [h.status.1]
      simp
    have hrecv : (k.envs 0).envIpcRecving ≠ 0 := by
      change (s.envs 0).envIpcRecving ≠ 0
      rw [h.recving]
      decide
    have hnull : R.envs ≠ 0 := by
      have := hf.freeList
      omega
    have hres := Kernel.envid2env_live (s := k) (by decide) (by decide) h.id.1 hlive
    have hcall := Records.ipcCanSend_page (s := k) 0 pteV h.cur hres h.status.1 hrecv hnull hlow hlook
      hins hload hsettle
    rw [Records.step]
    exact congrArg (Except.map Prod.snd) hcall
  · have hone := Records.doubled_of_lt (s₁.ipcDeliver 1 0 0 pteV).record (e := 1) (by decide)
    have hone₁ := Records.doubled_of_lt k₁.record (e := 1) (by decide)
    have henv : ((s₁.ipcDeliver 1 0 0 pteV).envs 1) = s₁.envs 1 := by
      simp [Kernel.ipcDeliver, Kernel.schedInsertHead, Kernel.modifyEnv]
    refine (congrArg (Env.envStatus ∘ Record.env) hone).trans ?_
    refine (congrArg Env.envStatus henv).trans ?_
    exact (congrArg (Env.envStatus ∘ Record.env) hone₁).trans h.status.2

end Waiting

/-! ## 4. Ids -/

namespace Kernel

/-- **Ids are unique, resolve to their slot, and never come back.**  In every state that a run of tame
steps from boot with fewer than 2^53 calls of `env_alloc` reaches: two slots that are not free have
different ids; `envid2env` without the permission check finds exactly the slot that is not free and
has the id; and once `sys_env_destroy` has destroyed an environment, no later state of the run
resolves its id. -/
theorem env_ids {L : Layout} {H : ListHeads L} {ram : Mem} {R : Records} {s₀ s : Kernel}
    {es : List Event} (hclean : CleanRam L ram) (hboot : bootInRam L H ram = .ok (R, s₀))
    (hr : Run R.step Tame s₀ es s) (hcount : es.countP Event.allocates < 2 ^ 53) :
    (∀ e e', (s.envs e).envStatus ≠ .free → (s.envs e').envStatus ≠ .free →
      (s.envs e).envId = (s.envs e').envId → e = e') ∧
    (∀ id, id ≠ 0 → ∀ e, s.envid2env id false = some e ↔
      (s.envs e).envStatus ≠ .free ∧ (s.envs e).envId = id) ∧
    ∀ r envid e s' fs t, s.envid2env envid true = some e → s.Tame (.svc r (.envDestroy envid)) →
      R.step s (.svc r (.envDestroy envid)) = .ok s' → Run R.step Tame s' fs t →
      (es ++ .svc r (.envDestroy envid) :: fs).countP Event.allocates < 2 ^ 53 →
      ∀ b, t.envid2env (s.envs e).envId b = none := by
  have h0 := bootInRam_envBoot hboot
  obtain ⟨base, hf, _, hin₀⟩ := bootInRam_spec hclean hboot
  obtain ⟨⟨ρ, fl, hin⟩, hinv, hle⟩ := run_ids hf ⟨_, _, hin₀⟩ hr (IdInv.ofBoot h0)
    (by rw [h0.nextEnvId]; omega) (fun _ _ _ _ h _ hid hb => (h.step hid hb).flush R)
  rw [h0.nextEnvId, Nat.zero_add] at hle
  refine ⟨fun _ _ => hinv.unique, fun _ hid => hinv.resolve_iff hid, ?_⟩
  intro r envid e s' fs t hres htame hst hfs hb
  rw [List.countP_append, List.countP_cons_of_neg (by simp [Event.allocates])] at hb
  obtain ⟨v, ρ', fl', hv, rfl, _, hin'⟩ := hin.step hf htame hst
  have hdead := hinv.retired hres hv
  have hnext : v.nextEnvId = s.nextEnvId := by
    obtain ⟨new, hi, hev⟩ := step_ids hv
    cases new with
    | none => exact hi.next
    | some n => exact absurd (hev (by simp)) (by simp [Event.allocates])
  obtain ⟨_, hend, _⟩ := run_ids (I := fun t => t.Retired (s.envs e).envId) hf ⟨_, _, hin'⟩ hfs
    (hdead.flush R) (show v.nextEnvId + _ < _ by omega)
    (fun _ _ _ _ h _ hid hb => (h.step hid hb).flush R)
  exact hend.resolve_none (hinv.named e (named_of_resolve hres))

/-- The first environment forks and destroys its child: the id 4097 named slot 1 and names nothing
any more. -/
theorem env_ids_child : ∃ (R : Records) (s s' : Kernel), R.TameReachable s ∧
    s.envid2env 4097 false = some 1 ∧ R.step s (.svc .zero (.envDestroy 4097)) = .ok s' ∧
    s'.envid2env 4097 false = none := by
  obtain ⟨R, s₀, s, base, n, ρ, hb, _, _, hr, _, _, h⟩ := firstChild_inRam
  have hreach := Records.TameReachable.ofImage hb hr
  obtain ⟨htame, hst⟩ := h.destroy
  obtain ⟨hm, _⟩ := hreach.step_ok htame hst
  obtain ⟨_, _, hdead⟩ := env_ids cleanRam_coldRam hb hr (by decide)
  have hnone := hdead _ _ _ _ [] _ (h.resolve true) htame hm .nil (by decide) false
  rw [h.id.2] at hnone
  exact ⟨R, s, _, hreach, h.resolve false, hm, hnone⟩

/-- The events that create, stop, resume and destroy environments or pass messages. -/
def ManagesEnvs : Event → Prop
  | .create _ _ | .irq _ => True
  | .svc _ .envAlloc | .svc _ (.envDestroy _) | .svc _ (.setEnvStatus _ _) => True
  | .svc _ (.ipcRecv _) | .svc _ (.ipcCanSend _ _ _ _) => True
  | _ => False

/-- **Ids are not unique in every run of these events.**  The first of two environments calls
`sys_ipc_recv` with the address of page 13 of `envs[]`, the second sends it page 0 of `envs[]`: slots 1
and 129 are both `RUNNABLE` with the id of the second. -/
theorem env_ids_forged : ¬ ∀ (L : Layout) (H : ListHeads L) (ram : Mem) (R : Records) (s₀ s : Kernel)
    (es : List Event), bootInRam L H ram = .ok (R, s₀) →
    Run R.step (fun _ ev => ManagesEnvs ev) s₀ es s → es.countP Event.allocates < 2 ^ 53 →
    ∀ e e', (s.envs e).envStatus ≠ .free → (s.envs e').envStatus ≠ .free →
      (s.envs e).envId = (s.envs e').envId → e = e' := by
  intro hall
  obtain ⟨R, s₀, s, base, ρ, hb, hf, _, hr, _, h⟩ := secondEnv_inRam
  have hreach := Records.TameReachable.ofImage hb hr
  have hbase := h.base_le
  have hbelow := hf.below
  have hpages : envPages = 104 := rfl
  have henvs : R.envs = R.frame * by2pg := by rw [← hf.aligned, page2pa_eq]
  have hlow : R.envs + 13 * by2pg < utop := by
    rw [henvs]
    simp only [by2pg, utop]
    omega
  have hram : R.frame + envPages ≤ ramFrames := by
    simp only [ramFrames]
    omega
  have hr₀ : Run R.step (fun _ ev => ManagesEnvs ev) s₀
      [.create 0x80000 1, .create 0x80000 1, .irq .zero] s := by
    refine hr.mono_of_mem fun t ev hev _ => ?_
    rcases List.mem_cons.mp hev with rfl | hev
    · trivial
    · rcases List.mem_pair.mp hev with rfl | rfl <;> trivial
  -- the first waits
  obtain ⟨s₁, hs₁, hwait⟩ := h.receive hlow
  have htame : s.Tame (.svc .zero (.ipcRecv (R.envs + 13 * by2pg))) := trivial
  obtain ⟨hm₁, hreach₁⟩ := hreach.step_ok htame hs₁
  -- the second sends
  obtain ⟨L, base', ρ', fl, hf', hin⟩ := MachineInv.ofReachable hreach₁
  obtain ⟨u, hu, hsame, hrun⟩ := hwait.flush.send hin hf' hram (by omega)
  have hlive : (u.envs 1).envStatus ≠ .free := by
    rw [hrun]
    simp
  have hrecv : ManagesEnvs (.svc .zero (.ipcRecv (R.envs + 13 * by2pg))) := trivial
  have hsend : ManagesEnvs (.svc .zero (.ipcCanSend 2048 0 R.envs pteV)) := trivial
  have hone := hall image imageHeads coldRam R s₀ u _ hb ((hr₀.snoc hrecv hm₁).snoc hsend hu)
    (by simp [List.countP_cons, Event.allocates]) 1 129 hlive (by rw [hsame]; exact hlive)
    (by rw [hsame])
  exact absurd hone (by decide)

end Kernel

end RaspiOS
