/-
# The page operations and their counters

The users of `page_alloc`, `page_insert` and `page_remove`, whoever they are: they take frames, make
directories of some of them, and map pages in the user halves of these.  Directories may be made at
any time, with anything in the two entries that are not in the user half and in their own counter.
`Api.Exact` is what holds in every state such a run reaches from `page_init` (`pp_ref_exact`): the
counters of pages, those of tables, and the free list are right.

Memory at boot is arbitrary, so the frames are no forest as they are.  But they agree with a forest on
all that the operations look at (`Api.Sound`).
-/
import RaspiOS.Agree
import RaspiOS.Progress
import RaspiOS.Tables

set_option autoImplicit false

namespace RaspiOS

open LinkedList

/-! ## 1. The operations -/

/-- The frames, and the directories their users have made. -/
structure Api where
  phys : Phys
  dirs : Finset Nat

/-- What users do.  A directory is a frame from `page_alloc` with a row and a counter of their own. -/
inductive ApiOp where
  | directory (row : Fin 512 → Nat) (ref : Nat)
  | alloc
  | insert (pud pp va perm : Nat)
  | remove (pud va : Nat)

/-- The frame `page_init` starts the free list at, its `loop_length`. -/
def Boot.loopLength (b : Boot) : Nat := round b.freemem by2pg / by2pg

namespace Api

/-- One operation. -/
def step (a : Api) : ApiOp → Except Halt Api
  | .directory row ref =>
    match a.phys.pageAlloc with
    | none => .ok a
    | some (f, p) =>
      .ok ⟨{ p with
        mem := fun g i => if g = f then row i else p.mem g i
        ppRef := fun g => if g = f then ref else p.ppRef g }, insert f a.dirs⟩
  | .alloc =>
    match a.phys.pageAlloc with
    | none => .ok a
    | some (_, p) => .ok { a with phys := p }
  | .insert pud pp va perm => do
    let (_, p) ← a.phys.pageInsert pud pp va perm
    return { a with phys := p }
  | .remove pud va => do
    let p ← a.phys.pageRemove pud va
    return { a with phys := p }

theorem step_directory {a : Api} {f : Nat} {p : Phys} (h : a.phys.pageAlloc = some (f, p))
    (row : Fin 512 → Nat) (ref : Nat) : a.step (.directory row ref) = .ok ⟨{ p with
      mem := fun g i => if g = f then row i else p.mem g i
      ppRef := fun g => if g = f then ref else p.ppRef g }, insert f a.dirs⟩ := by
  simp only [step, h]

theorem step_alloc {a : Api} {f : Nat} {p : Phys} (h : a.phys.pageAlloc = some (f, p)) :
    a.step .alloc = .ok { a with phys := p } := by
  simp only [step, h]

/-- **What is asked of an operation.**  A directory starts without entries in the user half; mappings
are made in the user half, with permission words below 4096, of frames from `first` on that are neither
free nor a directory nor a table, and that have less than 65535 mappings. -/
def Allowed (first : Nat) (a : Api) : ApiOp → Prop
  | .directory row _ => ∀ i : Fin 512, 2 ≤ i.val → ¬ Valid (row i)
  | .alloc => True
  | .insert pud pp va perm => pud ∈ a.dirs ∧ 2 ≤ (pudx va).val ∧ perm < 4096 ∧
      first ≤ pp ∧ pp < npage ∧ (∀ l, IsList a.phys.pageFreeList () l → pp ∉ l) ∧ pp ∉ a.dirs ∧
      ¬ TableFrame a.dirs a.phys.mem pp ∧ mappings a.dirs a.phys.mem pp < 65535
  | .remove pud va => pud ∈ a.dirs ∧ 2 ≤ (pudx va).val

/-- **The counters are exact.** -/
structure Exact (first : Nat) (a : Api) : Prop where
  page : ∀ f, first ≤ f → f < npage → f ∉ a.dirs → ¬ TableFrame a.dirs a.phys.mem f →
    a.phys.ppRef f = mappings a.dirs a.phys.mem f
  table : ∀ t, TableFrame a.dirs a.phys.mem t →
    a.phys.ppRef t = 1 ∧ ∃! e, Parent a.dirs a.phys.mem e t
  apart : ∀ t, TableFrame a.dirs a.phys.mem t → mappings a.dirs a.phys.mem t = 0
  free : ∃ l, IsList a.phys.pageFreeList () l ∧ l.Nodup ∧ ∀ f ∈ l,
    a.phys.ppRef f = 0 ∧ mappings a.dirs a.phys.mem f = 0 ∧ ¬ TableFrame a.dirs a.phys.mem f

/-! ## 2. The invariant -/

/-- What users can see of the frames: all but the memory of the kernel and the two entries of a
directory outside the user half. -/
def Word (ρ : Nat → Role) (f : Nat) (i : Fin 512) : Prop :=
  ρ f ≠ .kernel ∧ (ρ f = .dir → 2 ≤ i.val)

/-- The counters users can see. -/
def Counter (ρ : Nat → Role) (f : Nat) : Prop := ρ f ≠ .kernel ∧ ρ f ≠ .dir

theorem covers (ρ : Nat → Role) : Covers ρ (Word ρ) (Counter ρ) :=
  ⟨fun _ _ h1 h2 => ⟨h1, h2⟩, fun _ h1 h2 => ⟨h1, h2⟩⟩

/-- **The frames look like a forest** `q` whose directories are the ones the users have made, and in
which every page counts its leaves. -/
structure Sound (L : Layout) (base : Nat) (km : Mem) (ρ : Nat → Role) (q : Phys) (a : Api) : Prop where
  forest : Forest L base km ρ q
  dirs : ∀ f, ρ f = .dir ↔ f ∈ (a.dirs : Set Nat)
  data : ∀ f, ρ f ≠ .pinned
  agree : Agree (Word ρ) (Counter ρ) a.phys q

namespace Sound

variable {L : Layout} {base : Nat} {km : Mem} {ρ : Nat → Role} {q : Phys} {a : Api} {f t : Nat}

theorem word_dir (h : Sound L base km ρ q a) {d : Nat} (hd : d ∈ a.dirs) {i : Fin 512}
    (hi : 2 ≤ i.val) : a.phys.mem d i = q.mem d i :=
  h.agree.mem d i ⟨by simp [(h.dirs d).mpr hd], fun _ => hi⟩

theorem secondLevel_iff (h : Sound L base km ρ q a) :
    SecondLevel a.dirs a.phys.mem t ↔ SecondLevel a.dirs q.mem t := by
  refine exists_congr fun d => and_congr_right fun hd => exists_congr fun i =>
    and_congr_right fun hi => ?_
  rw [h.word_dir hd hi]

theorem parent_iff (h : Sound L base km ρ q a) {e : Ptr} :
    Parent a.dirs a.phys.mem e t ↔ Parent a.dirs q.mem e t := by
  unfold Parent
  rw [h.secondLevel_iff]
  refine and_congr_right fun he => ?_
  have hw : a.phys.mem e.frame e.idx = q.mem e.frame e.idx := by
    rcases he with ⟨hd, hi⟩ | hs
    · exact h.word_dir hd hi
    · obtain ⟨d, i, hr⟩ := (h.forest.toShape.secondLevel_iff h.dirs).mp hs
      exact h.agree.mem _ _ ((covers ρ).pmd hr _)
  rw [hw]

theorem tableFrame_iff (h : Sound L base km ρ q a) :
    TableFrame a.dirs a.phys.mem t ↔ TableFrame a.dirs q.mem t := by
  rw [RaspiOS.tableFrame_iff, RaspiOS.tableFrame_iff]
  exact exists_congr fun e => h.parent_iff

theorem mappings_eq (h : Sound L base km ρ q a) :
    mappings a.dirs a.phys.mem f = leafCount ρ q.mem f := by
  rw [← h.forest.mappings_eq h.dirs]
  unfold mappings
  congr 1
  refine Finset.filter_congr fun x hx => and_congr_right fun hg => ?_
  have hd : x.1 ∈ a.dirs := (Finset.mem_product.mp hx).1
  rw [h.agree.space h.forest (covers ρ) ((h.dirs _).mpr hd) hg]

/-- **A frame of the pool that is neither free nor a directory nor a table is a page.** -/
theorem role_data (h : Sound L base km ρ q a) (hlo : base ≤ f) (hhi : f < npage)
    (hfree : ∀ l, IsList a.phys.pageFreeList () l → f ∉ l) (hd : f ∉ a.dirs)
    (ht : ¬ TableFrame a.dirs a.phys.mem f) : ρ f = .data := by
  rw [h.tableFrame_iff] at ht
  cases hr : ρ f with
  | data => rfl
  | kernel =>
    have hk := (h.forest.kernel f).mp hr
    omega
  | free =>
    obtain ⟨l, hl, hmem⟩ := h.forest.pages
    rw [← h.agree.list] at hl
    exact absurd ((hmem f).mpr hr) (hfree l hl)
  | pinned => exact absurd hr (h.data f)
  | dir => exact absurd ((h.dirs f).mp hr) hd
  | pmd d i =>
    exact absurd (Or.inl ((h.forest.toShape.secondLevel_iff h.dirs).mpr ⟨d, i, hr⟩)) ht
  | pte s j =>
    exact absurd (Or.inr ((h.forest.toShape.thirdLevel_iff h.dirs).mpr ⟨s, j, hr⟩)) ht

/-- Such a page may be mapped, as long as its counter has room. -/
theorem allowed_insert (h : Sound L base km ρ q a) {d : Nat} (hd : d ∈ a.dirs) (hf : ρ f = .data)
    (hlt : q.ppRef f < 65535) {va perm : Nat} (hva : 2 ≤ (pudx va).val) (hperm : perm < 4096) :
    a.Allowed base (.insert d f va perm) := by
  have hhi := h.forest.lt_npage (f := f) (by simp [hf])
  refine ⟨hd, hva, hperm, h.forest.base_le (by simp [hf]), hhi, fun l hl hm => ?_, fun hfd => ?_,
    fun ht => ?_, ?_⟩
  · obtain ⟨l', hl', hmem⟩ := h.forest.pages
    rw [h.agree.list] at hl
    rw [hl.unique hl', hmem, hf] at hm
    cases hm
  · cases hf.symm.trans ((h.dirs f).mpr hfd)
  · have hp := (h.forest.toShape.tableFrame_not_page h.dirs (h.tableFrame_iff.mp ht)).2.1
    exact hp (by rw [hf]; trivial)
  · have hc := h.forest.count f hhi
    rw [hf, Role.held, Nat.add_zero] at hc
    rw [h.mappings_eq, ← hc]
    exact hlt

/-- **What looks like a forest has exact counters.** -/
theorem exact (h : Sound L base km ρ q a) : a.Exact base := by
  have hS := h.forest.toShape
  have htable : ∀ {t}, TableFrame a.dirs a.phys.mem t → (ρ t).held = 1 ∧ ¬ (ρ t).IsPage ∧
      ρ t ≠ .free ∧ ρ t ≠ .dir ∧ ρ t ≠ .kernel := by
    intro t ht
    have ht := h.tableFrame_iff.mp ht
    obtain ⟨h1, h2, h3, h4⟩ := hS.tableFrame_not_page h.dirs ht
    refine ⟨h1, h2, h3, h4, ?_⟩
    obtain ⟨e, he⟩ := RaspiOS.tableFrame_iff.mp ht
    rcases hS.role_of_parent h.dirs he with ⟨d, i, _, hr⟩ | ⟨s, j, _, hr⟩ <;> simp [hr]
  refine ⟨fun f hlo hhi hd ht => ?_, fun t ht => ?_, fun t ht => ?_, ?_⟩
  · rw [h.mappings_eq]
    by_cases hfree : ρ f = .free
    · rw [h.agree.ppRef f (by simp [Counter, hfree]), h.forest.count f hhi, hfree, Role.held,
        Nat.add_zero]
    · have hr : ρ f = .data := by
        refine h.role_data hlo hhi (fun l hl hm => hfree ?_) hd ht
        obtain ⟨l', hl', hmem⟩ := h.forest.pages
        rw [h.agree.list] at hl
        rw [hl.unique hl'] at hm
        exact (hmem f).mp hm
      rw [h.agree.ppRef f (by simp [Counter, hr]), h.forest.count f hhi, hr, Role.held,
        Nat.add_zero]
  · obtain ⟨h1, h2, _, h4, h5⟩ := htable ht
    constructor
    · rw [h.agree.ppRef t ⟨h5, h4⟩, h.forest.count t (h.forest.lt_npage h5),
        h.forest.leafCount_eq_zero h2, h1]
    · obtain ⟨e, he⟩ := RaspiOS.tableFrame_iff.mp ht
      exact ⟨e, he, fun e' he' =>
        hS.parent_unique h.dirs (h.parent_iff.mp he') (h.parent_iff.mp he)⟩
  · rw [h.mappings_eq, h.forest.leafCount_eq_zero (htable ht).2.1]
  · obtain ⟨l, hl, hmem⟩ := h.forest.pages
    refine ⟨l, by rw [h.agree.list]; exact hl, hl.nodup, fun f hf => ?_⟩
    have hfree := (hmem f).mp hf
    refine ⟨?_, ?_, fun ht => (htable ht).2.2.1 hfree⟩
    · rw [h.agree.ppRef f (by simp [Counter, hfree]), h.forest.ppRef_free hfree]
    · rw [h.mappings_eq, h.forest.leafCount_eq_zero (by simp [hfree, Role.IsPage])]

/-! ## 3. One operation -/

/-- A frame is taken. -/
theorem alloc (h : Sound L base km ρ q a) :
    (a.phys.pageAlloc = none) ∨ ∃ f p q₁, a.phys.pageAlloc = some (f, p) ∧ f ∉ a.dirs ∧
      q₁.ppRef f = 0 ∧ Sound L base km (Function.update ρ f .data) q₁ { a with phys := p } := by
  rcases h.agree.pageAlloc with ⟨hp, _⟩ | ⟨f, p, q₁, hp, hq, hag⟩
  · exact Or.inl hp
  · obtain ⟨hF, hfree, href, _⟩ := h.forest.take hq
    have hmono : ∀ g, Function.update ρ f .data g ≠ .kernel → ρ g ≠ .kernel := by
      intro g hg hk
      exact hg (update_role (by simp [hfree]) hk)
    have hdir : ∀ g, ρ g = .dir → Function.update ρ f .data g = .dir :=
      fun g hg => update_role (by simp [hfree]) hg
    refine Or.inr ⟨f, p, q₁, hp, ?_, by rw [href, h.forest.ppRef_free hfree], hF, ?_, ?_, ?_⟩
    · intro hd
      cases hfree.symm.trans ((h.dirs f).mpr hd)
    · intro g
      rw [← h.dirs g]
      exact ⟨fun hg => (role_of_update (by simp) hg).2, hdir g⟩
    · intro g hg
      exact h.data g (role_of_update (by simp) hg).2
    · refine hag.mono (fun g i hg => ⟨hmono g hg.1, fun hd => hg.2 (hdir g hd)⟩) fun g hg => ?_
      exact ⟨hmono g hg.1, fun hd => hg.2 (hdir g hd)⟩

/-- A frame just taken becomes a directory. -/
theorem directory (h : Sound L base km ρ q a) (hf : ρ f = .data) (h0 : q.ppRef f = 0)
    {row : Fin 512 → Nat} (hrow : ∀ i : Fin 512, 2 ≤ i.val → ¬ Valid (row i)) (ref : Nat) :
    ∃ ρ' q', Sound L base km ρ' q' ⟨{ a.phys with
      mem := fun g i => if g = f then row i else a.phys.mem g i
      ppRef := fun g => if g = f then ref else a.phys.ppRef g }, insert f a.dirs⟩ := by
  -- the forest has the two entries of the kernel's own directory in place
  let row' : Fin 512 → Nat := fun i => if i.val < 2 then km L.pgDir i else row i
  have hlow : ∀ k : Fin 512, k.val < 2 → row' k = km L.pgDir k := fun k hk => if_pos hk
  have huser : ∀ k : Fin 512, 2 ≤ k.val → ¬ Valid (row' k) := by
    intro k hk
    have hk' : row' k = row k := if_neg (not_lt.mpr hk)
    rw [hk']
    exact hrow k hk
  have hF := h.forest.newDirRow hf h0 (fun _ _ => rfl) hlow huser
  have hdir : ∀ g, Function.update ρ f .dir g = .dir ↔ g = f ∨ ρ g = .dir := by
    intro g
    rcases eq_or_ne g f with rfl | hg
    · simp
    · rw [Function.update_of_ne hg]
      simp [hg]
  have hker : ∀ g, Function.update ρ f .dir g ≠ .kernel → ρ g ≠ .kernel := by
    intro g hg hk
    exact hg (update_role (by simp [hf]) hk)
  refine ⟨_, _, hF, ?_, ?_, ?_⟩
  · intro g
    rw [hdir, Finset.mem_coe, Finset.mem_insert, h.dirs, Finset.mem_coe]
  · intro g hg
    exact h.data g (role_of_update (by simp) hg).2
  · refine ⟨fun g i hg => ?_, fun g hg => ?_, h.agree.list⟩
    · change (if g = f then row i else _) = if g = f then row' i else _
      rcases eq_or_ne g f with rfl | hgf
      · rw [if_pos rfl, if_pos rfl]
        exact (if_neg (not_lt.mpr (hg.2 ((hdir g).mpr (Or.inl rfl))))).symm
      · rw [if_neg hgf, if_neg hgf]
        exact h.agree.mem g i ⟨hker g hg.1, fun hd => hg.2 ((hdir g).mpr (Or.inr hd))⟩
    · have hgf : g ≠ f := fun he => hg.2 ((hdir g).mpr (Or.inl he))
      change (if g = f then ref else _) = if g = f then _ else _
      rw [if_neg hgf, if_neg hgf]
      exact h.agree.ppRef g ⟨hker g hg.1, fun hd => hg.2 ((hdir g).mpr (Or.inr hd))⟩

/-- What an operation on a directory leaves. -/
theorem of_local (h : Sound L base km ρ q a) {d : Nat} (hd : ρ d = .dir) {ρ' : Nat → Role}
    {p' q' : Phys} (hF : Forest L base km ρ' q') (hl : Local ρ d q ρ' q')
    (hag : Agree (Word ρ) (Counter ρ) p' q') : Sound L base km ρ' q' { a with phys := p' } := by
  have hc := (covers ρ).of_local h.forest hF hl
  refine ⟨hF, fun g => ?_, fun g hg => ?_, ?_⟩
  · rw [← h.dirs g]
    refine ⟨hl.role_of hd (Or.inl rfl), fun hg => ?_⟩
    rw [hl.table (by simp [hg]) (by simp [hg]), hg]
  · exact h.data g (hl.role_of hd (Or.inr rfl) hg)
  · exact hag.mono (fun g i hg => hc.word g i hg.1 hg.2) (fun g hg => hc.counter g hg.1 hg.2)

/-- **An operation that is allowed goes through**, and leaves what looks like a forest. -/
theorem step (h : Sound L base km ρ q a) {op : ApiOp} (hop : a.Allowed base op) :
    ∃ a' ρ' q', a.step op = .ok a' ∧ Sound L base km ρ' q' a' := by
  cases op with
  | directory row ref =>
    rcases h.alloc with hp | ⟨f, p, q₁, hp, _, h0, h'⟩
    · exact ⟨a, ρ, q, by simp only [Api.step, hp], h⟩
    · obtain ⟨ρ', q', h''⟩ := h'.directory (Function.update_self _ _ _) h0 hop ref
      exact ⟨_, ρ', q', by simp only [Api.step, hp], h''⟩
  | alloc =>
    rcases h.alloc with hp | ⟨f, p, q₁, hp, _, _, h'⟩
    · exact ⟨a, ρ, q, by simp only [Api.step, hp], h⟩
    · exact ⟨_, _, q₁, by simp only [Api.step, hp], h'⟩
  | insert pud pp va perm =>
    obtain ⟨hd, hva, hperm, hlo, hhi, hfree, hpd, ht, hlt⟩ := hop
    have hdir := (h.dirs pud).mpr hd
    have hpp := h.role_data hlo hhi hfree hpd ht
    rw [h.mappings_eq] at hlt
    have href : q.ppRef pp < 2 ^ 16 - 1 := by
      rw [h.forest.count pp hhi, hpp, Role.held, Nat.add_zero]
      exact hlt
    have hok : PermOk pp perm := ppn_leafDesc_of_lt pp (by simp only [by2pg]; omega)
    obtain ⟨r, q', ρ', he, hF, hl⟩ : ∃ r q' ρ', q.pageInsert pud pp va perm = .ok (r, q') ∧
        Forest L base km ρ' q' ∧ Local ρ pud q ρ' q' := by
      rcases h.forest.pageInsert hdir hva (by rw [hpp]; trivial) href hok with
        ⟨ρ', q', he, hins⟩ | ⟨_, ρ', q', he, hg, _⟩
      · exact ⟨_, q', ρ', he, hins.forest, hins.frame⟩
      · exact ⟨_, q', ρ', he, hg.forest, hg.frame⟩
    obtain ⟨p', hp, hag⟩ := h.agree.pageInsert h.forest (covers ρ) hdir hva he
    exact ⟨_, ρ', q', by simp only [Api.step, hp, bind, Except.bind]; rfl,
      h.of_local hdir hF hl hag⟩
  | remove pud va =>
    obtain ⟨hd, hva⟩ := hop
    have hdir := (h.dirs pud).mpr hd
    obtain ⟨ρ', q', he, hF, hl, _⟩ := h.forest.pageRemove hdir hva
    obtain ⟨p', hp, hag⟩ := h.agree.pageRemove h.forest (covers ρ) hdir hva he
    exact ⟨_, ρ', q', by simp only [Api.step, hp, bind, Except.bind]; rfl,
      h.of_local hdir hF hl hag⟩

/-- Without directories. -/
theorem start {L : Layout} {ram : Mem} {b : Boot} (hb : Boot.vmInit L (Boot.mmuSetup L ram) = .ok b) :
    ∃ km ρ q, Sound L b.loopLength km ρ q ⟨b.pageInit, ∅⟩ := by
  have hfits := L.fits
  obtain ⟨F, hF, hlt, hfree⟩ := Boot.vmInit_bumped (F := L.pgDir + 507) ⟨L.pgDir + 507, le_refl _,
    by simp only [npage]; omega, by rw [Boot.mmuSetup_eq L.fits]⟩ hb
  have hloop : b.loopLength = F := by
    unfold Boot.loopLength
    rw [hfree, Boot.round_mul]
    exact Nat.mul_div_cancel_left F (by decide)
  obtain ⟨_, href, hpages⟩ := Boot.pageInit_spec hfree hlt
  -- the tables of the kernel as they are on clean memory
  have hclean : CleanRam L fun _ _ => 0 := ⟨fun _ _ => not_valid_zero, fun _ _ => not_valid_zero⟩
  obtain ⟨_, hmap⟩ := Boot.mmuSetup_spec hclean
  let q : Phys := { b.pageInit with mem := fun f i =>
    if f < F then (Boot.mmuSetup L fun _ _ => 0).mem f i else b.pageInit.mem f i }
  have hq : Forest L F q.mem (KernelInv.bootRoles F) q := by
    refine KernelInv.forest_boot (hmap.mono hF fun f _ hf => ?_) href hpages
    funext i
    exact if_pos (lt_of_lt_of_le hf hF)
  rw [hloop]
  refine ⟨q.mem, KernelInv.bootRoles F, q, hq, fun f => ?_, fun f hf => ?_, ?_, ?_, rfl⟩
  · unfold KernelInv.bootRoles
    split <;> simp
  · unfold KernelInv.bootRoles at hf
    split at hf <;> cases hf
  · rintro f i ⟨hk, _⟩
    refine (if_neg fun hlt => hk ?_).symm
    exact if_pos (Or.inl hlt)
  · exact fun f _ => rfl

end Sound

/-! ## 4. Runs -/

/-- **Reference counts are exact** in every state that users of the page operations reach. -/
theorem pp_ref_exact {L : Layout} {ram : Mem} {b : Boot} {ops : List ApiOp} {a : Api}
    (hb : Boot.vmInit L (Boot.mmuSetup L ram) = .ok b)
    (hr : Run Api.step (Api.Allowed b.loopLength) ⟨b.pageInit, ∅⟩ ops a) :
    a.Exact b.loopLength := by
  obtain ⟨km, ρ, q, h0⟩ := Sound.start hb
  obtain ⟨ρ', q', h⟩ := hr.invariant (I := fun a => ∃ ρ q, Sound L b.loopLength km ρ q a)
    ⟨ρ, q, h0⟩ (fun _ _ _ ⟨ρ, q, hi⟩ hop hs => by
      obtain ⟨a', ρ', q', he, h'⟩ := hi.step hop
      obtain rfl := Except.ok.inj (hs.symm.trans he)
      exact ⟨ρ', q', h'⟩)
  exact h.exact

/-- A directory, a page, and a mapping of it, on memory that is zero at power-on. -/
theorem pp_ref_exact_first : ∃ (b : Boot) (a : Api) (d f : Nat),
    Boot.vmInit image (Boot.mmuSetup image coldRam) = .ok b ∧
      Run Api.step (Api.Allowed b.loopLength) ⟨b.pageInit, ∅⟩
        [.directory (fun _ => 0) 1, .alloc, .insert d f 0x80000000 0] a ∧
      a.Exact b.loopLength := by
  obtain ⟨hfree, hmap⟩ := Boot.mmuSetup_spec cleanRam_coldRam
  rcases Boot.vmInit_ends hfree hmap with ⟨hn, _⟩ | ⟨b, F, hb, hmapped, _, hF⟩
  · exact absurd hn (by decide)
  obtain ⟨_, _, hpages⟩ := Boot.pageInit_spec hmapped.freemem hmapped.lt
  obtain ⟨km, ρ, q, h0⟩ := Sound.start hb
  have hne : ∀ {p : Phys} {l : List Nat}, IsList p.pageFreeList () l → l ≠ [] →
      p.pageAlloc ≠ none := by
    intro p l hl hnil hno
    exact hnil (hl.first_eq_none_iff.mp (Phys.pageAlloc_eq_none.mp hno))
  have hlen : (List.range' F (npage - F)).reverse.length = npage - F := by simp
  have hroom : 2 ≤ npage - F := by
    simp only [npage, image] at hF ⊢
    omega
  have hempty : ∀ i : Fin 512, 2 ≤ i.val → ¬ Valid ((fun _ => 0 : Fin 512 → Nat) i) :=
    fun _ _ => not_valid_zero
  -- the directory
  rcases h0.alloc with hno | ⟨d, p₁, q₁, hp₁, _, hz₁, h₁⟩
  · exact absurd hno (hne hpages fun hnil => by rw [hnil, List.length_nil] at hlen; omega)
  obtain ⟨ρ₂, q₂, h₂⟩ := h₁.directory (Function.update_self _ _ _) hz₁ hempty 1
  obtain ⟨l₁, hl₁, hpl⟩ := Phys.pageAlloc_list hp₁ hpages
  -- the page
  rcases h₂.alloc with hno | ⟨f, p₃, q₃, hp₃, _, hz₃, h₃⟩
  · refine absurd hno (hne hpl fun hnil => ?_)
    rw [hl₁, hnil, List.length_singleton] at hlen
    omega
  -- the mapping
  have hva : 2 ≤ (pudx 0x80000000).val := by decide
  have hok := h₃.allowed_insert (Finset.mem_insert_self d _) (Function.update_self _ _ _)
    (by rw [hz₃]; decide) hva (by decide : 0 < 4096)
  obtain ⟨a, ρ₄, q₄, ha, _⟩ := h₃.step hok
  have hr : Run Api.step (Api.Allowed b.loopLength) ⟨b.pageInit, ∅⟩ _ a :=
    ((Run.nil.andThen _ (step_directory hp₁ (fun _ => 0) 1) hempty).andThen _ (step_alloc hp₃)
      trivial).andThen _ ha hok
  exact ⟨b, a, d, f, hb, hr, pp_ref_exact hb hr⟩

end Api

end RaspiOS
