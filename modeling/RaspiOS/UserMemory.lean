/-
# User memory

What the tables, the counters and the free list are for: environments that map pages at addresses of
the user half.  `Spaces.Memory` says that without any of them, and `Kernel.memory` reads it off a state
of the kernel.

Every event that keeps the user-half discipline does to it what its name says and nothing else, error
codes included (`memory_refines`).
-/
import RaspiOS.Lib.Spaces
import RaspiOS.Transfer

set_option autoImplicit false

namespace RaspiOS

open Spaces (Memory)
open LinkedList

/-! ## 1. Views of physical memory -/

/-- A page of the user half of an address space. -/
abbrev UserPage := {g : Page // 2 ≤ g.1.val}

/-- Environments, their pages, frames, leaf descriptors, and the words of a frame. -/
abbrev UserMemory := Memory Slot UserPage Nat Nat (Fin 512) Nat

/-- What a directory maps: the frame, and the descriptor as the attributes. -/
def leaves (m : Mem) (d : Nat) (g : UserPage) : Option (Nat × Nat) :=
  (space m d g.val).map fun w => (ppn w, w)

/-- The spaces of some directories. -/
def spacesOf (D : Slot → Option Nat) (m : Mem) : Slot → Option (UserPage → Option (Nat × Nat)) :=
  fun e => (D e).map (leaves m)

/-- **What memory is to the environments.** -/
noncomputable def view (D : Slot → Option Nat) (m : Mem) : UserMemory := .make (spacesOf D m) m

/-- The directories of different environments are different directories. -/
structure Dirs (ρ : Nat → Role) (D : Slot → Option Nat) : Prop where
  role : ∀ e d, D e = some d → ρ d = .dir
  inj : ∀ e e' d, D e = some d → D e' = some d → e = e'

section View

variable {L : Layout} {base : Nat} {km : Mem} {ρ ρ' : Nat → Role} {p p' q : Phys} {m m' : Mem}
  {D : Slot → Option Nat} {c e : Slot} {d f va w : Nat} {g : UserPage}

theorem Dirs.kept (hD : Dirs ρ D) (hk : DirsKept ρ ρ') : Dirs ρ' D :=
  ⟨fun e d he => hk d (hD.role e d he), hD.inj⟩

theorem maps_view : (view D m).Maps e g f w ↔
    ∃ d, D e = some d ∧ space m d g.val = some w ∧ ppn w = f := by
  constructor
  · rintro ⟨σ, hσ, hg⟩
    obtain ⟨d, hd, rfl⟩ := Option.map_eq_some_iff.mp hσ
    obtain ⟨w', hw, he⟩ := Option.map_eq_some_iff.mp hg
    cases he
    exact ⟨d, hd, hw, rfl⟩
  · rintro ⟨d, hd, hw, rfl⟩
    exact ⟨_, Option.map_eq_some_iff.mpr ⟨d, hd, rfl⟩, Option.map_eq_some_iff.mpr ⟨w, hw, rfl⟩⟩

theorem live_view : (view D m).Live e ↔ ∃ d, D e = some d := by
  unfold Memory.Live view Memory.make spacesOf
  rw [Option.isSome_map, Option.isSome_iff_exists]

theorem page_view {c : Fin 512 → Nat} (h : (view D m).page f = some c) : c = m f :=
  (Memory.page_of_make h).symm

/-- What is mapped is a page. -/
theorem Shape.page_of_maps (h : Shape L base km ρ m) (hD : Dirs ρ D)
    (hm : (view D m).Maps e g f w) : (ρ f).IsPage := by
  obtain ⟨d, hd, hw, rfl⟩ := maps_view.mp hm
  exact (h.page_of_space (hD.role e d hd) g.property hw).2

/-- A frame that is no page is not in use. -/
theorem Shape.page_none (h : Shape L base km ρ m) (hD : Dirs ρ D) (hf : ¬ (ρ f).IsPage) :
    (view D m).page f = none := by
  rw [Option.eq_none_iff_forall_not_mem]
  intro c hc
  obtain ⟨e, g, w, hm⟩ := Memory.exists_page_iff.mp ⟨c, hc⟩
  exact hf (h.page_of_maps hD hm)

/-- A page is no table. -/
theorem not_owns_of_page (hf : (ρ f).IsPage) (hd : ρ d = .dir) : ¬ Owns ρ d f := by
  rintro (rfl | ⟨i, hi⟩ | ⟨t, j, i, hj, _⟩)
  · rw [hd] at hf
    exact hf
  · rw [hi] at hf
    exact hf
  · rw [hj] at hf
    exact hf

/-- Pages keep their contents where an operation works on a directory. -/
theorem Local.page (hl : Local ρ d p ρ' p') (hd : ρ d = .dir) (hf : (ρ f).IsPage) :
    p'.mem f = p.mem f := hl.mem f hf.ne_free (not_owns_of_page hf hd)

/-! ## 2. What the operations on frames do to a view -/

/-- The contents the operations of `Memory` start from. -/
theorem getD_view (hm : (view D m).Maps e g f w) (c : Fin 512 → Nat) :
    ((view D m).page f).getD c = m f := by
  rw [view, Memory.page_make hm]
  rfl

theorem spacesOf_congr
    (hs : ∀ e d, D e = some d → ∀ g : UserPage, space m' d g.val = space m d g.val) :
    spacesOf D m' = spacesOf D m := by
  funext e
  unfold spacesOf
  cases he : D e with
  | none => rfl
  | some d =>
    refine congrArg some (funext fun g => ?_)
    rw [leaves, hs e d he g, leaves]

/-- Nothing that can be observed changes. -/
theorem Shape.view_same (h : Shape L base km ρ m) (hD : Dirs ρ D)
    (hs : ∀ e d, D e = some d → ∀ g : UserPage, space m' d g.val = space m d g.val)
    (hold : ∀ f, (ρ f).IsPage → m' f = m f) : view D m' = view D m := by
  have hspaces := spacesOf_congr hs
  refine Memory.make_congr hspaces fun e g f w hm => hold f ?_
  rw [hspaces] at hm
  exact h.page_of_maps hD hm

/-- One address of one space changes. -/
theorem spacesOf_rebind {x : Option Nat} (hs : ∀ y dy, D y = some dy → ∀ g' : UserPage,
      space m' dy g'.val = if y = e ∧ g' = g then x else space m dy g'.val) :
    spacesOf D m' = Memory.rebind (view D m).space e g (x.map fun w => (ppn w, w)) := by
  funext y
  change spacesOf D m' y = (spacesOf D m y).map _
  unfold spacesOf
  cases hy : D y with
  | none => rfl
  | some dy =>
    refine congrArg some (funext fun g' => ?_)
    rw [leaves, hs y dy hy g']
    dsimp only
    split <;> rfl

/-- **A page is entered.** -/
theorem Shape.view_bind (h : Shape L base km ρ m) (hD : Dirs ρ D) {c : Fin 512 → Nat}
    (hs : ∀ y dy, D y = some dy → ∀ g' : UserPage,
      space m' dy g'.val = if y = e ∧ g' = g then some w else space m dy g'.val)
    (hold : ∀ f, (ρ f).IsPage → m' f = m f) (hw : ppn w = f)
    (hc : (view D m).page f = none → m' f = c) :
    view D m' = (view D m).bind e g f w c := by
  subst hw
  have hspaces := spacesOf_rebind hs
  refine Memory.make_congr hspaces fun y g' q w' hm => ?_
  rw [hspaces] at hm
  rcases (Memory.maps_rebind.mp hm).2 with ⟨_, _, hx⟩ | ⟨_, hm'⟩
  · obtain ⟨rfl, _⟩ := Prod.mk.inj (Option.some.inj hx)
    cases hp : (view D m).page (ppn w) with
    | none => exact hc hp
    | some c' =>
      obtain ⟨_, _, _, hm'⟩ := Memory.exists_page_iff.mp ⟨c', hp⟩
      rw [hold _ (h.page_of_maps hD hm'), page_view hp]
      rfl
  · rw [hold q (h.page_of_maps hD hm')]
    exact (getD_view hm' c).symm

/-- **A page is cleared.** -/
theorem Shape.view_unbind (h : Shape L base km ρ m) (hD : Dirs ρ D)
    (hs : ∀ y dy, D y = some dy → ∀ g' : UserPage,
      space m' dy g'.val = if y = e ∧ g' = g then none else space m dy g'.val)
    (hold : ∀ f, (ρ f).IsPage → m' f = m f) : view D m' = (view D m).unbind e g := by
  have hspaces := spacesOf_rebind hs
  refine Memory.make_congr hspaces fun y g' q w' hm => ?_
  rw [hspaces] at hm
  rcases (Memory.maps_rebind.mp hm).2 with ⟨_, _, hx⟩ | ⟨_, hm'⟩
  · cases hx
  · rw [hold q (h.page_of_maps hD hm')]
    exact (getD_view hm' _).symm

/-- **A directory is made.** -/
theorem Shape.view_create (h : Shape L base km ρ m) (hD : Dirs ρ D)
    (hs : ∀ y dy, D y = some dy → ∀ g' : UserPage, space m' dy g'.val = space m dy g'.val)
    (hnew : ∀ g' : UserPage, space m' d g'.val = none)
    (hold : ∀ f, (ρ f).IsPage → m' f = m f) :
    view (Function.update D e (some d)) m' = (view D m).create e := by
  have hspaces : spacesOf (Function.update D e (some d)) m'
      = Function.update (view D m).space e (some fun _ => none) := by
    funext y
    rcases eq_or_ne y e with rfl | hne
    · rw [Function.update_self, spacesOf, Function.update_self]
      refine congrArg some (funext fun g' => ?_)
      rw [leaves, hnew, Option.map_none]
    · rw [Function.update_of_ne hne, spacesOf, Function.update_of_ne hne]
      change _ = (D y).map _
      cases hy : D y with
      | none => rfl
      | some dy =>
        refine congrArg some (funext fun g' => ?_)
        rw [leaves, hs y dy hy g', leaves]
  refine Memory.make_congr hspaces fun y g' q w' hm => ?_
  rw [hspaces] at hm
  have hm' := Memory.maps_of_update (fun σ hσ u => by cases hσ; rfl) hm
  rw [hold q (h.page_of_maps hD hm')]
  exact (getD_view hm' _).symm

/-- **A directory is given up.** -/
theorem view_destroy : view (Function.update D e none) m = (view D m).destroy e := by
  have hspaces : spacesOf (Function.update D e none) m
      = Function.update (view D m).space e none := by
    funext y
    rcases eq_or_ne y e with rfl | hne
    · simp only [spacesOf, Function.update_self]
      rfl
    · rw [Function.update_of_ne hne, spacesOf, Function.update_of_ne hne]
      rfl
  refine Memory.make_congr hspaces fun y g' q w' hm => ?_
  rw [hspaces] at hm
  have hm' := Memory.maps_of_update (fun σ hσ u => by cases hσ) hm
  exact (getD_view hm' _).symm

/-- **A word of a page is written.** -/
theorem view_write
    (hs : ∀ y dy, D y = some dy → ∀ g' : UserPage, space m' dy g'.val = space m dy g'.val)
    {i : Fin 512} (hm' : ∀ g j, m' g j = if g = f ∧ j = i then w else m g j) :
    view D m' = (view D m).write f i w := by
  have hspaces := spacesOf_congr hs
  refine Memory.ext hspaces (funext fun q => ?_)
  cases hq : (view D m).page q with
  | none =>
    have hq' : (view D m').page q = none := by
      rw [Option.eq_none_iff_forall_not_mem]
      intro c hc
      obtain ⟨e, g, a, hm⟩ := Memory.exists_page_iff.mp ⟨c, hc⟩
      rw [view, hspaces] at hm
      exact Memory.not_maps hq (s := e) (v := g) (a := a) hm
    rw [hq', Memory.write]
    dsimp only
    rw [hq]
    rfl
  | some c =>
    rw [Memory.page_write hq, page_view hq]
    obtain ⟨e, g, a, hm⟩ := Memory.exists_page_iff.mp ⟨c, hq⟩
    have hm1 : (view D m').Maps e g q a := by
      rw [view, hspaces]
      exact hm
    rw [view, Memory.page_make hm1]
    refine congrArg some (funext fun j => ?_)
    rw [hm']
    split
    · rename_i hc
      rw [if_pos hc.1, hc.2, Function.update_self]
    · rename_i hc
      split
      · rename_i hf
        rw [Function.update_of_ne fun hj => hc ⟨hf, hj⟩]
      · rfl

end View

/-! ## 3. The operations on frames -/

section Frames

variable {L : Layout} {base : Nat} {km : Mem} {ρ ρ' : Nat → Role} {p p' q : Phys}
  {D : Slot → Option Nat} {e : Slot} {d f va : Nat}

/-- What is done to a frame that was free is seen by nobody. -/
theorem Forest.view_unused (h : Forest L base km ρ p) (hD : Dirs ρ D) (hfree : ρ f = .free)
    (hmem : ∀ g, g ≠ f → q.mem g = p.mem g) {r : Role}
    (h1 : Forest L base km (Function.update ρ f r) q) (hr : ∀ d i, r ≠ .pmd d i ∧ r ≠ .pte d i) :
    view D q.mem = view D p.mem := by
  refine h.toShape.view_same hD (fun e d he g => ?_) fun g hg => hmem g ?_
  · exact KernelInv.unused_space hfree hmem h h1 hr (hD.role e d he) g.property
  · rintro rfl
    exact hg.ne_free hfree

theorem Forest.view_take (h : Forest L base km ρ p) (hD : Dirs ρ D)
    (hq : p.pageAlloc = some (f, q)) : view D q.mem = view D p.mem := by
  obtain ⟨h1, _, hfree, _, hmem⟩ := KernelInv.take_spec h hq
  exact h.view_unused hD hfree hmem h1 (by simp)

/-- An operation on the directory of `e` leaves the other spaces alone. -/
theorem Dirs.space_other (hD : Dirs ρ D) (h : Forest L base km ρ p) (h' : Forest L base km ρ' p')
    (hl : Local ρ d p ρ' p') (he : D e = some d) {y : Slot} {dy : Nat} (hy : D y = some dy)
    (hne : y ≠ e) (g : UserPage) : space p'.mem dy g.val = space p.mem dy g.val :=
  hl.space_other h h' (hD.role e d he) (hD.role y dy hy)
    (fun hc => hne (hD.inj y e d (hc ▸ hy) he)) g.property

/-- The space of `e` changes at one page. -/
theorem Dirs.space_point (hD : Dirs ρ D) (h : Forest L base km ρ p) (h' : Forest L base km ρ' p')
    (hl : Local ρ d p ρ' p') (he : D e = some d) {g₀ : UserPage} {x : Option Nat}
    (hs : ∀ g : Page, 2 ≤ g.1.val →
      space p'.mem d g = if g = g₀.val then x else space p.mem d g) :
    ∀ y dy, D y = some dy → ∀ g' : UserPage,
      space p'.mem dy g'.val = if y = e ∧ g' = g₀ then x else space p.mem dy g'.val := by
  intro y dy hy g'
  rcases eq_or_ne y e with rfl | hne
  · cases he.symm.trans hy
    rw [hs g'.val g'.property]
    refine if_congr ?_ rfl rfl
    rw [Subtype.ext_iff]
    exact ⟨fun hg => ⟨rfl, hg⟩, fun hg => hg.2⟩
  · rw [if_neg fun hc => hne hc.1]
    exact hD.space_other h h' hl he hy hne g'

/-- **`page_insert` binds**, or changes nothing that can be observed. -/
theorem Forest.view_insert (h : Forest L base km ρ p) (hD : Dirs ρ D) (he : D e = some d)
    (hva : UserVa va) {perm : Nat} {r : Int} (hpp : (ρ f).IsPage) (hlt : p.ppRef f < 2 ^ 16 - 1)
    (hperm : PermOk f perm) (hi : p.pageInsert d f va perm = .ok (r, p')) :
    ∃ ρ', Forest L base km ρ' p' ∧ DirsKept ρ ρ' ∧
      (r = 0 ∧ view D p'.mem
          = (view D p.mem).bind e ⟨pageOf va, hva⟩ f (leafDesc f perm) (p.mem f) ∨
        r = -eNoMem ∧ view D p'.mem = view D p.mem ∧ p'.pageFreeList.first () = none) := by
  have hd := hD.role e d he
  rcases h.pageInsert hd hva hpp hlt hperm with ⟨ρ', p₁, h1, hins⟩ | ⟨n, ρ', p₁, h1, hg, _, hnil, _⟩
  · rw [hi] at h1
    cases h1
    refine ⟨ρ', hins.forest, hins.frame.dirsKept, Or.inl ⟨rfl, ?_⟩⟩
    exact h.toShape.view_bind hD (hD.space_point h hins.forest hins.frame he hins.space)
      (fun g hg => hins.frame.page hd hg) hperm fun _ => hins.frame.page hd hpp
  · rw [hi] at h1
    cases h1
    refine ⟨ρ', hg.forest, hg.frame.dirsKept, Or.inr ⟨rfl, ?_, hnil⟩⟩
    exact h.toShape.view_same hD (fun y dy hy g => hg.space dy g.val (hD.role y dy hy) g.property)
      fun g hp => hg.frame.page hd hp

/-- **`page_remove` unbinds.** -/
theorem Forest.view_remove (h : Forest L base km ρ p) (hD : Dirs ρ D) (he : D e = some d)
    (hva : UserVa va) (hr : p.pageRemove d va = .ok p') :
    view D p'.mem = (view D p.mem).unbind e ⟨pageOf va, hva⟩ := by
  have hd := hD.role e d he
  obtain ⟨ρ', p₁, h1, h', hl, hs, _⟩ := h.pageRemove hd hva
  rw [hr] at h1
  cases h1
  exact h.toShape.view_unbind hD (hD.space_point h h' hl he hs) fun g hg => hl.page hd hg

/-- **`page_lookup` reads the space.** -/
theorem Forest.view_lookup (h : Forest L base km ρ p) (hD : Dirs ρ D) (he : D e = some d)
    (hva : UserVa va) {a : Ptr} (hl : p.pageLookup d va = .ok (some (f, a))) :
    ∃ w, (view D p.mem).Maps e ⟨pageOf va, hva⟩ f w := by
  rcases h.pageLookup (hD.role e d he) hva with ⟨_, h1⟩ | ⟨u, _, _, hs, h1⟩
  · rw [hl] at h1
    cases h1
  · rw [hl] at h1
    cases h1
    exact ⟨_, maps_view.mpr ⟨d, he, hs, rfl⟩⟩

/-- **The hardware reads the space.** -/
theorem Forest.view_translate (h : Forest L base km ρ p) (hD : Dirs ρ D) (he : D e = some d)
    (hva : UserVa va) {t : Translation} (ht : translate p.mem d va = some t) :
    ∃ w, (view D p.mem).Maps e ⟨pageOf va, hva⟩ t.frame w ∧ t.attrs = w &&& 0xfff := by
  rw [h.translate_user (hD.role e d he) hva] at ht
  split at ht
  · obtain ⟨w, hw, rfl⟩ := Option.map_eq_some_iff.mp ht
    exact ⟨w, maps_view.mpr ⟨d, he, hw, rfl⟩, rfl⟩
  · cases ht

/-- **`env_setup_vm` creates.** -/
theorem Forest.view_setupVm (h : Forest L base km ρ p) (hD : Dirs ρ D) (he : D e = none)
    (hq : p.pageAlloc = some (f, q)) :
    Dirs (Function.update ρ f .dir) (Function.update D e (some f)) ∧
      view (Function.update D e (some f)) ((q.incRef f).copyPage L.pgDir f).mem
        = (view D p.mem).create e := by
  obtain ⟨h1, hk, hfree⟩ := KernelInv.setupVm_spec h hq
  have hfresh : ∀ y, D y ≠ some f := by
    intro y hy
    rw [hD.role y f hy] at hfree
    cases hfree
  refine ⟨⟨fun y d hy => ?_, fun y y' d hy hy' => ?_⟩, ?_⟩
  · rcases eq_or_ne y e with rfl | hne
    · rw [Function.update_self] at hy
      cases hy
      exact Function.update_self _ _ _
    · rw [Function.update_of_ne hne] at hy
      exact hk d (hD.role y d hy)
  · rcases eq_or_ne y e with rfl | hne
    · rcases eq_or_ne y' y with rfl | hne'
      · rfl
      · rw [Function.update_self] at hy
        rw [Function.update_of_ne hne'] at hy'
        cases hy
        exact absurd hy' (hfresh y')
    · rw [Function.update_of_ne hne] at hy
      rcases eq_or_ne y' e with rfl | hne'
      · rw [Function.update_self] at hy'
        cases hy'
        exact absurd hy (hfresh y)
      · rw [Function.update_of_ne hne'] at hy'
        exact hD.inj y y' d hy hy'
  · have hmem : ∀ g, g ≠ f → ((q.incRef f).copyPage L.pgDir f).mem g = p.mem g :=
      fun g hg => KernelInv.setupVm_mem h hq hg
    refine h.toShape.view_create hD (fun y dy hy g => ?_)
      (fun g => KernelInv.setupVm_space h hq g.property) fun g hg => hmem g ?_
    · exact KernelInv.unused_space hfree hmem h h1 (by simp) (hD.role y dy hy) g.property
    · rintro rfl
      exact hg.ne_free hfree

/-- Spaces are read from tables. -/
theorem Forest.space_same (h : Forest L base km ρ p) (h' : Forest L base km ρ p')
    (hm : ∀ u t j, ρ u = .pte t j → p'.mem u = p.mem u) (hd : ρ d = .dir) (g : UserPage) :
    space p'.mem d g.val = space p.mem d g.val := by
  refine h.toShape.space_congr h'.toShape hd hd g.property (fun u hu => ⟨hu, ?_⟩)
    fun u hu => Or.inl hu
  obtain ⟨t, _, hut⟩ := hu
  rw [hm u t _ hut]

/-- **A store writes.** -/
theorem Forest.view_store (h : Forest L base km ρ p) (hD : Dirs ρ D) (hf : (ρ f).IsPage)
    (i : Fin 512) (w : Nat) : view D (p.store ⟨f, i⟩ w).mem = (view D p.mem).write f i w := by
  have h' : Forest L base km ρ (p.store ⟨f, i⟩ w) := h.write hf fun g hg => by
    funext j
    exact if_neg fun hc => hg hc.1
  refine view_write (fun y dy hy g => ?_) fun _ _ => rfl
  refine h.space_same h' (fun u t j hu => ?_) (hD.role y dy hy) g
  funext k
  refine if_neg ?_
  rintro ⟨rfl, _⟩
  rw [hu] at hf
  exact hf

/-- Words of the kernel are seen by nobody. -/
theorem Forest.view_kernelWrite (h : Forest L base km ρ p) (hD : Dirs ρ D) {m' : Mem}
    (hm : ∀ g, ρ g ≠ .kernel ∨ (L.pgDir ≤ g ∧ g < base) → m' g = p.mem g) :
    view D m' = view D p.mem := by
  have h' : Forest L base km ρ { p with mem := m' } := h.kernelWrite hm
  refine h.toShape.view_same hD (fun y dy hy g => ?_) fun g hg => hm g (Or.inl ?_)
  · refine h.space_same h' (fun u t j hu => hm u (Or.inl ?_)) (hD.role y dy hy) g
    rw [hu]
    simp
  · rintro hk
    rw [hk] at hg
    exact hg

/-- **`env_create_priority` creates a space with a stack**, as far as memory goes. -/
theorem Forest.view_create (h : Forest L base km ρ p) (hD : Dirs ρ D) (he : D e = none)
    (hq : p.pageAlloc = some (d, q)) :
    (((q.incRef d).copyPage L.pgDir d).pageAlloc = none →
      view (Function.update D e (some d))
        (Kernel.incRefNull ((q.incRef d).copyPage L.pgDir d)).mem = (view D p.mem).create e) ∧
    ∀ f u v phys, ((q.incRef d).copyPage L.pgDir d).pageAlloc = some (f, u) →
      (u.incRef f).pageInsert d f (ustacktop - by2pg) pteV = .ok (v, phys) →
      view (Function.update D e (some d)) phys.mem = (view D p.mem).create e ∧
        phys.pageFreeList.first () = none ∨
      ((view D p.mem).create e).page f = none ∧ ∃ g : UserPage, g.val = pageOf (ustacktop - by2pg) ∧
        view (Function.update D e (some d)) phys.mem
          = ((view D p.mem).create e).bind e g f (leafDesc f pteV) fun _ => 0 := by
  obtain ⟨h1, _, _⟩ := KernelInv.setupVm_spec h hq
  obtain ⟨hD1, hcreate⟩ := h.view_setupVm hD he hq
  constructor
  · intro _
    rw [← hcreate]
    refine h1.view_kernelWrite hD1 fun g hg => ?_
    funext k
    -- `NULL->pp_ref++` hits the first frame, which is not one of the tables of boot
    have hb := h1.map.le_base
    have hL := L.linked
    refine if_neg ?_
    rintro ⟨hz, _⟩
    obtain rfl : g = 0 := hz
    rcases hg with hg | ⟨hg, _⟩
    · exact hg ((h1.kernel 0).mpr (Or.inl (by omega)))
    · omega
  · intro f u v phys hu hi
    obtain ⟨h2, hk2, hfree, href, _⟩ := KernelInv.take_spec h1 hu
    have hzero : u.mem f = fun _ => 0 := by
      obtain ⟨_, _, _, hmem⟩ := h1.take hu
      funext i
      rw [hmem, if_pos rfl]
    have h3 := h2.pin (Function.update_self _ _ _) href
    rw [Function.update_idem] at h3
    have hD3 : Dirs (Function.update (Function.update ρ d .dir) f .pinned)
        (Function.update D e (some d)) := hD1.kept (dirsKept_update (by rw [hfree]; simp))
    have hva : UserVa (ustacktop - by2pg) := by
      unfold UserVa
      decide
    have hview : view (Function.update D e (some d)) u.mem = (view D p.mem).create e := by
      rw [← hcreate]
      exact h1.view_take hD1 hu
    obtain ⟨_, _, _, ⟨_, hins⟩ | ⟨_, hins, hnil⟩⟩ := h3.view_insert hD3 (Function.update_self _ _ _) hva
      (by rw [Function.update_self]; trivial) (by rw [Phys.ppRef_incRef, if_pos rfl, href]; decide)
      (permOk_pteV f) hi
    · right
      rw [← hcreate]
      refine ⟨h1.page_none hD1 (by rw [hfree]; exact id),
        ⟨pageOf (ustacktop - by2pg), hva⟩, rfl, ?_⟩
      rw [hins, hcreate, ← hview, ← hzero]
      rfl
    · exact Or.inl ⟨hins.trans hview, hnil⟩

end Frames

/-! ## 4. The memory of a state of the kernel -/

namespace Kernel

/-- The directories of the slots that are not on `env_free_list`. -/
noncomputable def dirs (s : Kernel) (e : Slot) : Option Nat :=
  open Classical in
  if ∀ fl, IsList s.envFreeList () fl → e ∉ fl then some (s.envs e).envPgdir else none

/-- **What memory is to the environments.** -/
noncomputable def memory (s : Kernel) : UserMemory := view s.dirs s.phys.mem

/-! ## 5. What an event does to it -/

/-- `page_free_list` is empty. -/
def OutOfFrames (s : Kernel) : Prop := s.phys.pageFreeList.first () = none

/-- The stack of `c` copied to `e`, page by page: `n` pages from `va` on.  A page for which there is no
frame ends it.  If it is only a table for which there is none, the page is left out, because the loop
does not read what `page_insert` returns; the next page then ends it, or it was the last.  Both happen
only when memory is `out` of frames. -/
inductive StackCopied (c e : Slot) (out : Prop) : Nat → Nat → UserMemory → Int → UserMemory → Prop
  | done {va : Nat} {m : UserMemory} : StackCopied c e out 0 va m 0 m
  | copied {n va f q a : Nat} {g : UserPage} {d : Fin 512 → Nat} {m m' : UserMemory} {v : Int} :
      g.val = pageOf va → m.Maps c g q a → m.page q = some d → m.page f = none →
      StackCopied c e out n (va + by2pg) (m.bind e g f (leafDesc f pteV) d) v m' →
      StackCopied c e out (n + 1) va m v m'
  | leftOut {va : Nat} {m : UserMemory} : out → StackCopied c e out 1 va m 0 m
  | noFrame {n va : Nat} {m : UserMemory} : out → StackCopied c e out (n + 1) va m (-eNoMem) m

/-- Address `va` of `e` is bound to page `f`, which holds `d`. -/
def Binds (m m' : UserMemory) (e : Slot) (va f perm : Nat) (d : Fin 512 → Nat) : Prop :=
  ∃ g : UserPage, g.val = pageOf va ∧ m.Live e ∧ m' = m.bind e g f (leafDesc f perm) d

/-- The page that `e` maps at `va` is `f`, and holds `d`. -/
def Finds (m : UserMemory) (e : Slot) (va f : Nat) (d : Fin 512 → Nat) : Prop :=
  ∃ (g : UserPage) (a : Nat), g.val = pageOf va ∧ m.Maps e g f a ∧ m.page f = some d

/-- Address `va` of `e` is bound no more; an address below the user half never was. -/
def Unbinds (m m' : UserMemory) (e : Slot) (va : Nat) : Prop :=
  (∀ g : UserPage, g.val = pageOf va → m' = m.unbind e g) ∧ (¬ UserVa va → m' = m)

/-- **What a system call that returns does to memory**, by what it returns.  A call that fails changes
nothing, except that `sys_env_alloc` leaves the space it has made, with the pages copied so far, when it
runs out of frames. -/
def CallEffect (s s' : Kernel) (r : Regs) : Syscall → Exit → Prop
  | .memAlloc envid va perm, x =>
    (x = .ret 0 ∧ ∃ e f, s.envid2env envid true = some e ∧ s.memory.page f = none ∧
      Binds s.memory s'.memory e va f perm fun _ => 0) ∨
    (∃ n < 0, x = .ret n) ∧ s'.memory = s.memory
  | .memMap srcid srcva dstid dstva perm, x =>
    (x = .ret 0 ∧ ∃ src dst f d, s.envid2env srcid true = some src ∧
      s.envid2env dstid true = some dst ∧ Finds s.memory src srcva f d ∧
      Binds s.memory s'.memory dst dstva f perm d) ∨
    (∃ n < 0, x = .ret n) ∧ s'.memory = s.memory
  | .memUnmap envid va, x =>
    (x = .ret 0 ∧ ∃ e, s.envid2env envid true = some e ∧ Unbinds s.memory s'.memory e va) ∨
    (∃ n < 0, x = .ret n) ∧ s'.memory = s.memory
  | .ipcCanSend envid _ srcva perm, x =>
    (x = .ret 0 ∧ srcva ≠ 0 ∧ ∃ c e f d, s.curenv = some c ∧ s.envid2env envid false = some e ∧
      (s.envs e).envStatus = .notRunnable ∧ (s.envs e).envIpcRecving ≠ 0 ∧ Finds s.memory c srcva f d ∧
      Binds s.memory s'.memory e (s.envs e).envIpcDstva f perm d) ∨
    s'.memory = s.memory ∧ (x = .ret 0 → srcva = 0)
  | .envAlloc, x =>
    (∃ c e v, s.curenv = some c ∧ ¬ s.memory.Live e ∧
      StackCopied c e s'.OutOfFrames ((ustacktop - rounddown r.spEl0 by2pg) / by2pg)
        (rounddown r.spEl0 by2pg) (s.memory.create e) v s'.memory ∧
      x = .ret (if v < 0 then v else toInt (s'.envs e).envId)) ∨
    (∃ n < 0, x = .ret n) ∧ s'.memory = s.memory
  | .envDestroy envid, x =>
    (∃ e, s.envid2env envid true = some e ∧ s.memory.Live e ∧ s'.memory = s.memory.destroy e) ∨
    (∃ n < 0, x = .ret n) ∧ s'.memory = s.memory
  | _, _ => s'.memory = s.memory

/-- **What an event does to memory.**  `env_create_priority` makes a space with a zero page of stack;
it makes one without a page if the frames run out after the directory. -/
def Effect (s s' : Kernel) : Event → Prop
  | .create _ _ => ∃ e, ¬ s.memory.Live e ∧
      (s'.memory = s.memory.create e ∧ s'.OutOfFrames ∨
        ∃ f, (s.memory.create e).page f = none ∧
          Binds (s.memory.create e) s'.memory e (ustacktop - by2pg) f pteV fun _ => 0)
  | .irq _ => s'.memory = s.memory
  | .store va w => ∃ c f d, s.curenv = some c ∧ Finds s.memory c va f d ∧
      s'.memory = s.memory.write f (Fin.ofNat 512 (va >>> 3)) w
  | .svc r call => ∃ x, s.svc r call = .ok (x, s') ∧ s.CallEffect s' r call x

theorem dirs_of_mem {s : Kernel} {fl : List Slot} {e : Slot} (hl : IsList s.envFreeList () fl)
    (he : e ∈ fl) : s.dirs e = none :=
  if_neg fun h => h fl hl he

theorem dirs_of_not_mem {s : Kernel} {fl : List Slot} {e : Slot}
    (hl : IsList s.envFreeList () fl) (he : e ∉ fl) : s.dirs e = some (s.envs e).envPgdir :=
  if_pos fun fl' hl' => by rwa [hl'.unique hl]

/-- Directories depend on the free list and on the directories in the table. -/
theorem dirs_congr {s s' : Kernel} (hl : s'.envFreeList = s.envFreeList)
    (hd : ∀ e, (s'.envs e).envPgdir = (s.envs e).envPgdir) : s'.dirs = s.dirs := by
  funext e
  unfold dirs
  rw [hl, hd]

end Kernel

/-! ## 6. Every tame event -/

namespace KernelInv

open Kernel

variable {L : Layout} {base : Nat} {km : Mem} {ρ ρ' : Nat → Role} {fl : List Slot}
  {s s' : Kernel} {c e : Slot} {r : Regs} {x : Exit}

/-- The invariant in terms of `dirs`. -/
theorem dirs (h : KernelInv L base km ρ fl s) : Dirs ρ s.dirs := by
  have hmem : ∀ {e d}, s.dirs e = some d → e ∉ fl ∧ d = (s.envs e).envPgdir := by
    intro e d he
    have hn : e ∉ fl := by
      intro hm
      rw [dirs_of_mem h.list hm] at he
      cases he
    rw [dirs_of_not_mem h.list hn] at he
    exact ⟨hn, (Option.some.inj he).symm⟩
  refine ⟨fun e d he => ?_, fun e e' d he he' => ?_⟩
  · obtain ⟨hn, rfl⟩ := hmem he
    exact h.dir e hn
  · obtain ⟨hn, rfl⟩ := hmem he
    obtain ⟨hn', hd⟩ := hmem he'
    exact h.inj e e' hn hn' hd

theorem dirs_resolve (h : KernelInv L base km ρ fl s) {envid : Nat} {b : Bool}
    (he : s.envid2env envid b = some e) : s.dirs e = some (s.envs e).envPgdir :=
  dirs_of_not_mem h.list (h.not_mem_of_resolve he)

theorem dirs_cur (h : KernelInv L base km ρ fl s) (hc : s.curenv = some c) :
    s.dirs c = some (s.envs c).envPgdir := dirs_of_not_mem h.list (h.cur c hc)

theorem live_memory {d : Nat} (he : s.dirs e = some d) : s.memory.Live e := live_view.mpr ⟨d, he⟩

/-- What is mapped is found, with its contents. -/
theorem finds {g : UserPage} {va f w : Nat} (hg : g.val = pageOf va)
    (hm : s.memory.Maps e g f w) : Finds s.memory e va f (s.phys.mem f) :=
  ⟨g, w, hg, hm, Memory.page_make hm⟩

/-- The low bits of an address are not part of its page. -/
theorem pageOf_rounddown (va : Nat) : pageOf (rounddown va by2pg) = pageOf va := by
  refine Prod.ext (pudx_rounddown va) (Prod.ext (Fin.ext ?_) (Fin.ext ?_))
  · simp only [pageOf, pmdx_val, rounddown, by2pg]
    omega
  · simp only [pageOf, ptex_val, rounddown, by2pg]
    omega

/-- An insertion, in a kernel of which nothing else changes. -/
theorem binds (h : KernelInv L base km ρ fl s) (he : s.dirs e = some (s.envs e).envPgdir)
    {va f perm : Nat} {v : Int} {phys : Phys} (hva : UserVa va) (hpp : (ρ f).IsPage)
    (hlt : s.phys.ppRef f < 2 ^ 16 - 1) (hperm : PermOk f perm)
    (hi : s.phys.pageInsert (s.envs e).envPgdir f va perm = .ok (v, phys)) :
    (v = 0 ∧ Binds s.memory (view s.dirs phys.mem) e va f perm (s.phys.mem f)) ∨
      v = -eNoMem ∧ view s.dirs phys.mem = s.memory := by
  obtain ⟨_, _, _, ⟨hv, hm⟩ | ⟨hv, hm, _⟩⟩ := h.forest.view_insert h.dirs he hva hpp hlt hperm hi
  · exact Or.inl ⟨hv, ⟨pageOf va, hva⟩, rfl, live_memory he, hm⟩
  · exact Or.inr ⟨hv, hm⟩

/-- `sys_mem_alloc`. -/
theorem memory_memAlloc (h : KernelInv L base km ρ fl s) {envid va perm : Nat}
    (ht : s.TameCall r (.memAlloc envid va perm))
    (he : s.sysMemAlloc envid va perm = .ok (x, s')) :
    s.CallEffect s' r (.memAlloc envid va perm) x := by
  unfold Kernel.sysMemAlloc at he
  split at he
  · cases he
    exact Or.inr ⟨⟨_, by decide, rfl⟩, rfl⟩
  rename_i hperm
  split at he
  · cases he
    exact Or.inr ⟨⟨_, by decide, rfl⟩, rfl⟩
  rename_i f q hq
  have hview := h.forest.view_take h.dirs hq
  obtain ⟨h1, hk1, hfree, href, _⟩ := take_spec h.forest hq
  have hq1 : KernelInv L base km (Function.update ρ f .data) fl { s with phys := q } :=
    h.withPhys h1 hk1
  dsimp only at he
  split at he
  · cases he
    exact Or.inr ⟨⟨_, by decide, rfl⟩, hview⟩
  · rename_i e hres
    obtain ⟨⟨v, phys⟩, hi, he⟩ := Except.bind_eq_ok_iff.mp he
    cases he
    obtain ⟨hva, hok⟩ := ht hperm e f q hres hq
    have hzero : q.mem f = fun _ => 0 := by
      obtain ⟨_, _, _, hmem⟩ := h.forest.take hq
      funext i
      rw [hmem, if_pos rfl]
    rcases hq1.binds (e := e) (hq1.dirs_resolve hres) hva
      (by rw [Function.update_self]; trivial) (by rw [href]; decide) hok hi
      with ⟨rfl, hb⟩ | ⟨rfl, hm⟩
    · refine Or.inl ⟨rfl, e, f, hres, ?_, ?_⟩
      · exact h.forest.page_none h.dirs (by rw [hfree]; exact id)
      · change Binds (view s.dirs q.mem) _ _ _ _ _ (q.mem f) at hb
        rwa [hview, hzero] at hb
    · exact Or.inr ⟨⟨_, by decide, rfl⟩, hm.trans hview⟩

/-- `sys_mem_map`. -/
theorem memory_memMap (h : KernelInv L base km ρ fl s) {srcid srcva dstid dstva perm : Nat}
    (ht : s.TameCall r (.memMap srcid srcva dstid dstva perm))
    (he : s.sysMemMap srcid srcva dstid dstva perm = .ok (x, s')) :
    s.CallEffect s' r (.memMap srcid srcva dstid dstva perm) x := by
  unfold Kernel.sysMemMap at he
  dsimp only at he
  split at he
  · cases he
    exact Or.inr ⟨⟨_, by decide, rfl⟩, rfl⟩
  rename_i src hsrc
  split at he
  · cases he
    exact Or.inr ⟨⟨_, by decide, rfl⟩, rfl⟩
  rename_i dst hdst
  split at he
  · cases he
    exact Or.inr ⟨⟨_, by decide, rfl⟩, rfl⟩
  rename_i hperm
  obtain ⟨l, hl, he⟩ := Except.bind_eq_ok_iff.mp he
  split at he
  · cases he
    exact Or.inr ⟨⟨_, by decide, rfl⟩, rfl⟩
  rename_i f a
  obtain ⟨⟨v, phys⟩, hi, he⟩ := Except.bind_eq_ok_iff.mp he
  cases he
  obtain ⟨hva1, hva2, hok, href⟩ := ht hperm src dst f a hsrc hdst hl
  have hds := h.dirs_resolve hsrc
  obtain ⟨w, hm⟩ := h.forest.view_lookup h.dirs hds (userVa_rounddown hva1) hl
  have hpage := h.forest.toShape.page_of_maps h.dirs hm
  rcases h.binds (h.dirs_resolve hdst) (userVa_rounddown hva2) hpage href hok hi
    with ⟨rfl, g, hg, hlive, hb⟩ | ⟨rfl, hm'⟩
  · refine Or.inl ⟨rfl, src, dst, f, _, hsrc, hdst, finds (pageOf_rounddown _) hm, g, ?_, hlive, hb⟩
    rw [hg, pageOf_rounddown]
  · exact Or.inr ⟨⟨_, by decide, rfl⟩, hm'⟩

/-- `sys_mem_unmap`. -/
theorem memory_memUnmap (h : KernelInv L base km ρ fl s) {envid va : Nat}
    (ht : s.TameCall r (.memUnmap envid va)) (he : s.sysMemUnmap envid va = .ok (x, s')) :
    s.CallEffect s' r (.memUnmap envid va) x := by
  unfold Kernel.sysMemUnmap at he
  split at he
  · cases he
    exact Or.inr ⟨⟨_, by decide, rfl⟩, rfl⟩
  rename_i e hres
  obtain ⟨phys, hr, he⟩ := Except.bind_eq_ok_iff.mp he
  cases he
  have hd := h.dirs_resolve hres
  refine Or.inl ⟨rfl, e, hres, fun g hg => ?_, fun hva => ?_⟩
  · have hva : UserVa va := by
      have hp := g.property
      rwa [hg] at hp
    have hm := h.forest.view_remove h.dirs hd hva hr
    rwa [show (⟨pageOf va, hva⟩ : UserPage) = g from Subtype.ext hg.symm] at hm
  · cases hlk : s.phys.pageLookup (s.envs e).envPgdir va with
    | error err =>
      simp only [Phys.pageRemove, hlk, bind, Except.bind] at hr
      cases hr
    | ok o =>
      rcases o with _ | ⟨f, a⟩
      · rw [Forest.remove_unmapped hlk] at hr
        cases hr
        rfl
      · exact absurd (ht e f a hres hlk) hva

/-- A change of the kernel that no directory and no frame sees. -/
theorem memory_congr {t u : Kernel} (hl : u.envFreeList = t.envFreeList)
    (hd : ∀ e, (u.envs e).envPgdir = (t.envs e).envPgdir) (hm : u.phys.mem = t.phys.mem) :
    u.memory = t.memory := by
  unfold Kernel.memory
  rw [dirs_congr hl hd, hm]

theorem memory_envRun (t : Kernel) (n : Slot) : (t.envRun n).memory = t.memory :=
  memory_congr (envFreeList_envRun _ _) (fun e => by rw [envs_envRun])
    (by rw [phys_envRun])

theorem memory_schedYield {t u : Kernel} (h : t.schedYield = .ok u) : u.memory = t.memory := by
  obtain ⟨pos, n, _, rfl⟩ := schedYield_ok h
  exact memory_envRun _ _

/-- One environment is written, but not its directory. -/
theorem memory_modifyEnv (t : Kernel) (e : Slot) {f : Env → Env}
    (hf : ∀ v, (f v).envPgdir = v.envPgdir) : (t.modifyEnv e f).memory = t.memory := by
  refine memory_congr rfl (fun e' => ?_) rfl
  rcases eq_or_ne e' e with rfl | hne
  · rw [envs_modifyEnv_self, hf]
  · rw [envs_modifyEnv_ne _ _ hne]

theorem memory_ipcDeliver (t : Kernel) (c e : Slot) (value perm : Nat) :
    (t.ipcDeliver c e value perm).memory = t.memory := by
  refine memory_congr rfl (fun e' => ?_) rfl
  rcases eq_or_ne e' e with rfl | hne
  · simp [Kernel.ipcDeliver, schedInsertHead]
  · simp [Kernel.ipcDeliver, schedInsertHead, Kernel.modifyEnv, hne]

/-- `sys_ipc_can_send`. -/
theorem memory_ipcCanSend (h : KernelInv L base km ρ fl s) {envid value srcva perm : Nat}
    (ht : s.TameCall r (.ipcCanSend envid value srcva perm))
    (he : s.sysIpcCanSend envid value srcva perm = .ok (x, s')) :
    s.CallEffect s' r (.ipcCanSend envid value srcva perm) x := by
  have hne : ∀ {n : Int}, n ≠ 0 → Exit.ret n = .ret 0 → srcva = 0 :=
    fun hn hc => absurd (Exit.ret.inj hc) hn
  unfold Kernel.sysIpcCanSend at he
  split at he
  · cases he
  rename_i c hc
  split at he
  · cases he
    exact Or.inr ⟨rfl, hne (by decide)⟩
  rename_i e hres
  split at he
  · cases he
    exact Or.inr ⟨rfl, hne (by decide)⟩
  rename_i hrecv
  split at he
  · cases he
    exact Or.inr ⟨rfl, hne (by decide)⟩
  split at he
  · rename_i hnz
    obtain ⟨l, hl, he⟩ := Except.bind_eq_ok_iff.mp he
    split at he
    · cases he
      exact Or.inr ⟨rfl, hne (by decide)⟩
    rename_i f a
    obtain ⟨⟨v, phys⟩, hi, he⟩ := Except.bind_eq_ok_iff.mp he
    rw [not_or] at hrecv
    obtain ⟨hva1, hva2, hok, href⟩ := ht hnz c e f a hc hres hrecv.2 hl
    obtain ⟨w, hm⟩ := h.forest.view_lookup h.dirs (h.dirs_cur hc) hva1 hl
    have hpage := h.forest.toShape.page_of_maps h.dirs hm
    rcases h.binds (h.dirs_resolve hres) hva2 hpage href hok hi with ⟨rfl, hb⟩ | ⟨rfl, hm'⟩
    · cases he
      refine Or.inl ⟨rfl, hnz, c, e, f, _, hc, hres, not_not.mp hrecv.1, hrecv.2,
        finds rfl hm, ?_⟩
      rw [memory_ipcDeliver]
      exact hb
    · cases he
      exact Or.inr ⟨hm', hne (by decide)⟩
  · rename_i hz
    cases he
    exact Or.inr ⟨memory_ipcDeliver _ _ _ _ _, fun _ => not_not.mp hz⟩

/-- A slot goes back to the free list. -/
theorem memory_freed (h : KernelInv L base km ρ fl s) (he : e ∉ fl) (hc : s.curenv ≠ some e) :
    (s.freed e).memory = s.memory.destroy e := by
  have h' := h.freed he hc
  have hdirs : (s.freed e).dirs = Function.update s.dirs e none := by
    funext y
    rcases eq_or_ne y e with rfl | hne
    · rw [Function.update_self, dirs_of_mem h'.list List.mem_cons_self]
    · rw [Function.update_of_ne hne]
      by_cases hy : y ∈ fl
      · rw [dirs_of_mem h'.list (List.mem_cons_of_mem _ hy), dirs_of_mem h.list hy]
      · rw [dirs_of_not_mem h'.list (by simp [hne, hy]), dirs_of_not_mem h.list hy,
          envs_freed_ne _ hne]
  unfold Kernel.memory
  rw [hdirs]
  exact view_destroy

/-- `sys_env_destroy`. -/
theorem memory_envDestroy (h : KernelInv L base km ρ fl s) {envid : Nat}
    (ht : s.TameCall r (.envDestroy envid)) (he : s.sysEnvDestroy envid = .ok (x, s')) :
    s.CallEffect s' r (.envDestroy envid) x := by
  unfold Kernel.sysEnvDestroy at he
  split at he
  · cases he
    exact Or.inr ⟨⟨_, by decide, rfl⟩, rfl⟩
  rename_i e hres
  obtain ⟨⟨y, u⟩, hu, he⟩ := Except.bind_eq_ok_iff.mp he
  cases he
  have hn := h.not_mem_of_resolve hres
  refine Or.inl ⟨e, hres, live_memory (h.dirs_resolve hres), ?_⟩
  obtain ⟨phys, hfree, hs'⟩ := envDestroy_ok hu
  rw [h.forest.envFreePuds_id (h.dir e hn) (ht e hres)] at hfree
  cases hfree
  rcases hs' with ⟨hc, _, rfl⟩ | ⟨hc, _, pos, n, _, rfl⟩
  · exact h.memory_freed hn hc
  · have h0 : KernelInv L base km ρ fl
        { s with curenv := none, timeFrame := s.kernelFrame, pos := pos } :=
      h.of_eq rfl rfl rfl (fun _ => rfl) (fun _ _ => rfl) (fun c hc => by cases hc)
    exact (memory_envRun _ _).trans (h0.memory_freed hn (by simp))

/-- **The loop of `sys_env_alloc` copies the stack.** -/
theorem stackCopied {D : Slot → Option Nat} {p p' : Phys} {active child n va : Nat} {v : Int}
    (h : Forest L base km ρ p) (hD : Dirs ρ D) (hc : D c = some active) (he : D e = some child)
    (hva : ∀ k, k < n → UserVa (va + k * by2pg))
    (hs : Kernel.forkStack active child n va p = .ok (v, p')) :
    StackCopied c e (p'.pageFreeList.first () = none) n va (view D p.mem) v (view D p'.mem) := by
  induction n generalizing va p ρ with
  | zero =>
    cases hs
    exact .done
  | succ n ih =>
    unfold Kernel.forkStack at hs
    split at hs
    · rename_i hq
      cases hs
      exact .noFrame (Phys.pageAlloc_eq_none.mp hq)
    rename_i pp q hq
    obtain ⟨q1, hb, hs⟩ := Except.bind_eq_ok_iff.mp hs
    obtain ⟨⟨r, q2⟩, hi, hs⟩ := Except.bind_eq_ok_iff.mp hs
    obtain ⟨h1, hk1, hfree, href, hmem⟩ := take_spec h hq
    have hpp : Function.update ρ pp .data pp = .data := Function.update_self _ _ _
    have hva0 : UserVa va := by
      have h0 := hva 0 (Nat.succ_pos n)
      rwa [Nat.zero_mul, Nat.add_zero] at h0
    have hrest : ∀ k, k < n → UserVa (va + by2pg + k * by2pg) := by
      intro k hk
      have h0 := hva (k + 1) (Nat.succ_lt_succ hk)
      rwa [Nat.add_mul, Nat.one_mul, Nat.add_comm (k * by2pg), ← Nat.add_assoc] at h0
    unfold Kernel.bcopyPage at hb
    split at hb
    · cases hb
    rename_i t ht
    cases hb
    -- the page that is read, before a frame was taken for its copy
    have hD1 := hD.kept hk1
    obtain ⟨w, hm, _⟩ := h1.view_translate hD1 hc hva0 ht
    rw [h.view_take hD hq] at hm
    have hne : t.frame ≠ pp := by
      intro hf
      have hpage := h.toShape.page_of_maps hD hm
      rw [hf, hfree] at hpage
      exact hpage
    have hother : ∀ g, g ≠ pp → (q.copyPage t.frame pp).mem g = p.mem g := by
      intro g hg
      rw [← hmem g hg]
      funext i
      exact if_neg hg
    have hcopy : (q.copyPage t.frame pp).mem pp = p.mem t.frame := by
      rw [← hmem _ hne]
      funext i
      exact if_pos rfl
    have h2 : Forest L base km (Function.update ρ pp .data) (q.copyPage t.frame pp) :=
      h1.write (by rw [hpp]; trivial) fun g hg => by
        funext i
        exact if_neg hg
    have hview := h.view_unused hD hfree hother h2 (by simp)
    obtain ⟨ρ3, h3, hk3, ⟨rfl, hins⟩ | ⟨rfl, hins, hnil⟩⟩ := h2.view_insert hD1 he hva0
      (by rw [hpp]; trivial) (by rw [show (q.copyPage t.frame pp).ppRef pp = 0 from href]; decide)
      (permOk_pteV pp) hi
    · have hnext := ih h3 (hD1.kept hk3) hrest hs
      rw [hins, hview, hcopy] at hnext
      exact .copied rfl hm (Memory.page_make hm)
        (h.toShape.page_none hD (by rw [hfree]; exact id)) hnext
    · -- nothing is left for the next page
      rw [← hview, ← hins]
      rcases n with _ | n
      · cases hs
        exact .leftOut hnil
      · simp only [Kernel.forkStack, Phys.pageAlloc_eq_none.mpr hnil] at hs
        cases hs
        exact .noFrame hnil

/-- The directories after a slot has left the free list. -/
theorem dirs_take (h : KernelInv L base km ρ fl s) (hfirst : s.envFreeList.first () = some e)
    {u : Kernel} {p : Nat} (hl : u.envFreeList = s.envFreeList.remove e)
    (hself : (u.envs e).envPgdir = p)
    (hother : ∀ y, y ≠ e → (u.envs y).envPgdir = (s.envs y).envPgdir) :
    u.dirs = Function.update s.dirs e (some p) ∧ s.dirs e = none := by
  obtain ⟨fl', rfl⟩ := h.list.eq_cons hfirst
  have hnd := List.nodup_cons.mp h.list.nodup
  have hl' : IsList u.envFreeList () fl' := hl ▸ h.list.remove_head
  refine ⟨funext fun y => ?_, dirs_of_mem h.list List.mem_cons_self⟩
  rcases eq_or_ne y e with rfl | hne
  · rw [Function.update_self, dirs_of_not_mem hl' hnd.1, hself]
  · rw [Function.update_of_ne hne]
    by_cases hy : y ∈ fl'
    · rw [dirs_of_mem hl' hy, dirs_of_mem h.list (List.mem_cons_of_mem _ hy)]
    · rw [dirs_of_not_mem hl' hy, dirs_of_not_mem h.list (by simp [hne, hy]), hother y hne]

theorem memory_taken (h : KernelInv L base km ρ fl s) (hfirst : s.envFreeList.first () = some e)
    {u : Kernel} {p : Nat} (hl : u.envFreeList = s.envFreeList.remove e)
    (hself : (u.envs e).envPgdir = p)
    (hother : ∀ y, y ≠ e → (u.envs y).envPgdir = (s.envs y).envPgdir) :
    u.memory = view (Function.update s.dirs e (some p)) u.phys.mem := by
  unfold Kernel.memory
  rw [(h.dirs_take hfirst hl hself hother).1]

/-- `sys_env_alloc`. -/
theorem memory_envAlloc (h : KernelInv L base km ρ fl s) (ht : 0x80000000 ≤ s.kernelFrame.sp)
    (hsp : s.kernelFrame.sp = r.spEl0) (he : s.sysEnvAlloc = .ok (x, s')) :
    s.CallEffect s' r .envAlloc x := by
  unfold Kernel.sysEnvAlloc at he
  split at he
  · cases he
  rename_i c hc
  obtain ⟨⟨o, u⟩, hu, he1⟩ := Except.bind_eq_ok_iff.mp he
  clear he
  rcases forkEnv_ok hu with ⟨rfl, rfl, _⟩ | ⟨e, p, q, v, phys, hfirst, hq, hs, ho, rfl⟩
  · cases he1
    exact Or.inr ⟨⟨_, by decide, rfl⟩, rfl⟩
  have hcur := h.dirs_cur hc
  have hother : ∀ y, y ≠ e → ((s.forked c e p phys
      (if v < 0 then .notRunnable else .runnable)).envs y).envPgdir = (s.envs y).envPgdir := by
    intro y hy
    simp [forked, Kernel.allocated, Kernel.modifyEnv, hy]
  obtain ⟨-, hnone⟩ := h.dirs_take hfirst rfl (envPgdir_forked ..) hother
  have hce : c ≠ e := by
    rintro rfl
    rw [hcur] at hnone
    cases hnone
  obtain ⟨h1, _, _⟩ := setupVm_spec h.forest hq
  obtain ⟨hD, hcreate⟩ := h.forest.view_setupVm h.dirs hnone hq
  rw [h.pgDir] at hs
  have hcopied := stackCopied (c := c) (e := e) h1 hD (by rw [Function.update_of_ne hce, hcur])
    (Function.update_self _ _ _) (fork_userVa ht) hs
  rw [hcreate, hsp] at hcopied
  have hmem : (s.forked c e p phys (if v < 0 then .notRunnable else .runnable)).memory
      = view (Function.update s.dirs e (some p)) phys.mem :=
    h.memory_taken hfirst rfl (envPgdir_forked ..) hother
  have hlive : ¬ s.memory.Live e := by
    intro hl
    obtain ⟨d, hd⟩ := live_view.mp hl
    rw [hnone] at hd
    cases hd
  by_cases hv : v < 0
  · rw [if_pos hv] at ho
    subst ho
    cases he1
    exact Or.inl ⟨c, e, v, hc, hlive, by rw [hmem]; exact hcopied, by simp only [if_pos hv]⟩
  · rw [if_neg hv] at ho
    subst ho
    cases he1
    exact Or.inl ⟨c, e, v, hc, hlive, by rw [hmem]; exact hcopied, by simp only [if_neg hv]⟩

/-- `env_create_priority`. -/
theorem memory_create (h : KernelInv L base km ρ fl s) {binary priority : Nat}
    (he : s.envCreatePriority binary priority = .ok s') :
    s.Effect s' (.create binary priority) := by
  obtain ⟨e, p, q, hfirst, hq, hcase⟩ := envCreatePriority_ok he
  rw [h.pgDir] at hcase
  have hnone : s.dirs e = none := by
    obtain ⟨fl', rfl⟩ := h.list.eq_cons hfirst
    exact dirs_of_mem h.list List.mem_cons_self
  have hlive : ¬ s.memory.Live e := by
    intro hl
    obtain ⟨d, hd⟩ := live_view.mp hl
    rw [hnone] at hd
    cases hd
  obtain ⟨hno, hyes⟩ := h.forest.view_create h.dirs hnone hq
  rcases hcase with ⟨hn, rfl⟩ | ⟨f, u, v, phys, hu, hi, rfl⟩
  · refine ⟨e, hlive, Or.inl
      ⟨(h.memory_taken (p := p) hfirst rfl ?_ fun y hy => ?_).trans (hno hn), ?_⟩⟩
    · simp [Kernel.allocated, freshEnv]
    · simp [Kernel.allocated, Kernel.modifyEnv, hy]
    · have hnil := Phys.pageAlloc_eq_none.mp hn
      exact hnil
  · refine ⟨e, hlive, ?_⟩
    rw [h.memory_taken (p := p) hfirst rfl (by simp [schedInsertHead, Kernel.allocated, freshEnv])
      fun y hy => by simp [schedInsertHead, Kernel.allocated, Kernel.modifyEnv, hy]]
    rcases hyes f u v phys hu hi with hc | ⟨hpage, g, hg, hb⟩
    · exact Or.inl hc
    · exact Or.inr ⟨f, hpage, g, hg, Memory.live_create, hb⟩

/-- A store of the running environment. -/
theorem memory_store (h : KernelInv L base km ρ fl s) {va w : Nat} (hva : UserVa va)
    (he : s.userStore va w = .ok s') : s.Effect s' (.store va w) := by
  obtain ⟨c, t, hc, ht, _, rfl⟩ := userStore_ok he
  obtain ⟨a, hm, _⟩ := h.forest.view_translate h.dirs (h.dirs_cur hc) hva ht
  have hpage := h.forest.toShape.page_of_maps h.dirs hm
  exact ⟨c, t.frame, _, hc, finds rfl hm, h.forest.view_store h.dirs hpage _ _⟩

/-- A system call. -/
theorem memory_svc (h : KernelInv L base km ρ fl s) {call : Syscall} (ht : s.TameCall r call)
    (he : s.svc r call = .ok (x, s')) : s.CallEffect s' r call x := by
  unfold Kernel.svc at he
  split at he
  · cases he
  have h0 : KernelInv L base km ρ fl (s.trapped r) :=
    h.withFrames (saveall syncStack r) s.timeFrame
  change (s.trapped r).syscall call = _ at he
  cases call with
  | putchar ch => cases he; rfl
  | getenvid =>
    simp only [Kernel.syscall, Kernel.sysGetenvid] at he
    split at he
    · cases he
    · cases he; rfl
  | yield =>
    obtain ⟨u, hu, h1⟩ := Except.bind_eq_ok_iff.mp he
    cases h1
    have hm := memory_schedYield hu
    exact hm
  | envDestroy envid => exact h0.memory_envDestroy (r := r) ht he
  | setPgfaultHandler envid func xstacktop =>
    simp only [Kernel.syscall, Kernel.sysSetPgfaultHandler] at he
    split at he
    · cases he; rfl
    · cases he
      exact memory_modifyEnv _ _ fun _ => rfl
  | memAlloc envid va perm => exact h0.memory_memAlloc (r := r) ht he
  | memMap srcid srcva dstid dstva perm => exact h0.memory_memMap (r := r) ht he
  | memUnmap envid va => exact h0.memory_memUnmap (r := r) ht he
  | envAlloc => exact h0.memory_envAlloc ht rfl he
  | setEnvStatus envid w =>
    simp only [Kernel.syscall, Kernel.sysSetEnvStatus] at he
    split at he
    · cases he; rfl
    · split at he
      · cases he; rfl
      · rename_i st _ _ e _
        cases he
        have hm := memory_modifyEnv ((s.trapped r).relink e st) e
          (f := fun v => { v with envStatus := st }) fun _ => rfl
        refine hm.trans ?_
        obtain ⟨_, _, hr⟩ := (s.trapped r).relink_eq e st
        rw [hr]
        rfl
  | setTrapframe envid tf => cases he
  | panic msg => cases he; rfl
  | ipcCanSend envid value srcva perm => exact h0.memory_ipcCanSend (r := r) ht he
  | ipcRecv dstva =>
    simp only [Kernel.syscall, Kernel.sysIpcRecv] at he
    split at he
    · cases he
    · split at he
      · cases he; rfl
      · obtain ⟨u, hu, h1⟩ := Except.bind_eq_ok_iff.mp he
        cases h1
        have hm := memory_schedYield hu
        refine hm.trans ?_
        exact memory_modifyEnv (s.trapped r) _ (f := fun v =>
          { v with envStatus := .notRunnable, envIpcRecving := 1, envIpcDstva := dstva })
          fun _ => rfl

/-- Every tame event. -/
theorem effect {ev : Event} (h : KernelInv L base km ρ fl s) (ht : s.Tame ev)
    (he : s.step ev = .ok s') : s.Effect s' ev := by
  cases ev with
  | create binary priority => exact h.memory_create he
  | irq r =>
    have hm := memory_schedYield he
    exact hm
  | store va w => exact h.memory_store ht he
  | svc r call =>
    obtain ⟨⟨x, t⟩, hsvc, rfl⟩ := Except.map_eq_ok_iff.mp he
    exact ⟨x, hsvc, h.memory_svc ht hsvc⟩

end KernelInv

namespace Kernel

/-- No environment, no memory. -/
theorem not_live_boot {L : Layout} {base : Nat} {s : Kernel} (h : Booted L base s) (e : Slot) :
    ¬ s.memory.Live e := by
  intro hl
  obtain ⟨d, hd⟩ := live_view.mp hl
  rw [dirs_of_mem h.free (List.mem_finRange e)] at hd
  cases hd

/-- **The kernel refines the memory of its environments.**  After boot there is none; and in every
state that a tame run reaches from boot on clean memory, every tame event does to it what `Effect`
says. -/
theorem memory_refines {L : Layout} {ram : Mem} {s₀ s : Kernel} {es : List Event}
    (hclean : CleanRam L ram) (hboot : boot L ram = .ok s₀) (hr : Run step Tame s₀ es s) :
    (∀ e, ¬ s₀.memory.Live e) ∧
    ∀ ev s', s.Tame ev → s.step ev = .ok s' → s.Effect s' ev := by
  obtain ⟨s₁, base, hb, hbooted, _⟩ := boot_ok hclean
  rw [hboot] at hb
  cases hb
  obtain ⟨ρ, fl, hi⟩ := (KernelInv.ofBooted hbooted).run hr
  exact ⟨not_live_boot hbooted, fun ev s' ht hs => hi.effect ht hs⟩

/-- The first environment unmaps its stack. -/
theorem memory_refines_unmap : ∃ s s' : Kernel, s.TameReachable image coldRam ∧
    s.step (.svc .zero (.memUnmap 0 (ustacktop - by2pg))) = .ok s' ∧
    s.Effect s' (.svc .zero (.memUnmap 0 (ustacktop - by2pg))) := by
  obtain ⟨s₀, s, base, ρ, hb, _, hr, n, _, h⟩ := firstEnv_reached .zero
  have hva : UserVa (ustacktop - by2pg) := by
    unfold UserVa
    decide
  obtain ⟨_, q, hq, _⟩ := h.inv.forest.pageRemove (h.inv.dir 0 (by simp)) hva
  have hstep := step_memUnmap_self .zero h.cur hq
  exact ⟨s, _, ⟨s₀, _, hb, hr⟩, hstep,
    (memory_refines cleanRam_coldRam hb hr).2 _ _ (fun _ _ _ _ _ => hva) hstep⟩

end Kernel

end RaspiOS
