/-
# What every frame is for

The page tables of all environments, the counters and the free list are one structure: a forest
whose roots are the directories, whose leaves are user pages, and whose unused frames are on the
free list.  A ghost assignment of ROLES says which frame is what; `Forest` says that memory, the
counters and the list agree with it.  The part of a directory below `PUDX = 2` is a copy of two
entries of `_pg_dir` and leads into tables that belong to nobody, so the forest covers the
entries from 2 on, the USER HALF.

The operations of `Pmap.lean` are sequences of seven primitive changes: a frame leaves the free
list, becomes a table, becomes a directory; a leaf is entered, rewritten, cleared; a word of a user
page changes.  Each keeps the forest, for arguments of the user half and permission words of
twelve bits.
-/
import RaspiOS.BootSpec
import RaspiOS.Lib.RefCount
import Mathlib.Data.Finset.Prod
import Mathlib.Data.Fintype.Basic

set_option autoImplicit false

namespace RaspiOS

open LinkedList

/-! ## 1. Roles -/

/-- What a frame is used for. -/
inductive Role where
  /-- below the pool, or beyond the end of memory -/
  | kernel
  /-- on `page_free_list` -/
  | free
  /-- a user page: every reference it counts is a leaf -/
  | data
  /-- a user page with one reference more than it has leaves: the first stack page of an
  environment that `main` created -/
  | pinned
  /-- a directory -/
  | dir
  /-- the second-level table under entry `i` of directory `d` -/
  | pmd (d : Nat) (i : Fin 512)
  /-- the third-level table under entry `j` of table `t` -/
  | pte (t : Nat) (j : Fin 512)
deriving DecidableEq

/-- The roles that keep one reference of their own. -/
def Role.held : Role → Nat
  | .free => 0
  | .data => 0
  | _ => 1

/-- The roles a leaf may point to. -/
def Role.IsPage : Role → Prop
  | .data => True
  | .pinned => True
  | _ => False

/-- The frame a third-level entry maps, if it is one and is valid. -/
def leafTarget (ρ : Nat → Role) (m : Mem) (a : Nat × Fin 512) : Option Nat :=
  match ρ a.1 with
  | .pte _ _ => if Valid (m a.1 a.2) then some (ppn (m a.1 a.2)) else none
  | _ => none

/-- All words of memory. -/
def words : Finset (Nat × Fin 512) := Finset.range npage ×ˢ Finset.univ

/-- The number of leaves that map a frame. -/
def leafCount (ρ : Nat → Role) (m : Mem) (f : Nat) : Nat :=
  RefCount.refs words (leafTarget ρ m) f

/-- **Memory has the shape the roles say.**  `km` is memory as boot left it. -/
structure Shape (L : Layout) (base : Nat) (km : Mem) (ρ : Nat → Role) (m : Mem) : Prop where
  map : KernelMap L km base
  kernel : ∀ f, ρ f = .kernel ↔ f < base ∨ npage ≤ f
  kernelMem : ∀ f, L.pgDir ≤ f → f < base → m f = km f
  dirLow : ∀ d, ρ d = .dir → ∀ i : Fin 512, i.val < 2 → m d i = km L.pgDir i
  dirUser : ∀ d, ρ d = .dir → ∀ i : Fin 512, 2 ≤ i.val → Valid (m d i) →
    IsTable (m d i) ∧ ρ (ppn (m d i)) = .pmd d i
  pmdUser : ∀ t d i, ρ t = .pmd d i → ∀ j, Valid (m t j) →
    IsTable (m t j) ∧ ρ (ppn (m t j)) = .pte t j
  leaf : ∀ u t j, ρ u = .pte t j → ∀ k, Valid (m u k) →
    IsTable (m u k) ∧ (ρ (ppn (m u k))).IsPage
  pmdParent : ∀ t d i, ρ t = .pmd d i → 2 ≤ i.val ∧ ρ d = .dir ∧ Valid (m d i) ∧ ppn (m d i) = t
  pteParent : ∀ u t j, ρ u = .pte t j → (∃ d i, ρ t = .pmd d i) ∧ Valid (m t j) ∧ ppn (m t j) = u

/-- **The state of the frames agrees with their roles**: the shape, the counters and the free
list. -/
structure Forest (L : Layout) (base : Nat) (km : Mem) (ρ : Nat → Role) (p : Phys) : Prop
    extends Shape L base km ρ p.mem where
  bound : ∀ f, p.ppRef f < 2 ^ 16
  count : ∀ f, f < npage → p.ppRef f = leafCount ρ p.mem f + (ρ f).held
  pages : ∃ l, IsList p.pageFreeList () l ∧ ∀ f, f ∈ l ↔ ρ f = .free

/-! ## 2. Counting -/

/-- Counts depend on the targets of the leaves alone. -/
theorem leafCount_congr {ρ ρ' : Nat → Role} {m m' : Mem}
    (h : ∀ a, leafTarget ρ' m' a = leafTarget ρ m a) (f : Nat) :
    leafCount ρ' m' f = leafCount ρ m f :=
  RefCount.refs_congr (fun a _ => h a) f

theorem mem_words {a : Nat × Fin 512} : a ∈ words ↔ a.1 < npage := by
  simp [words]

-- A set of 2^27 words is never to be evaluated.
attribute [irreducible] words

/-- A frame that is no third-level table has no leaves. -/
theorem leafTarget_of_not_pte {ρ : Nat → Role} {m : Mem} {a : Nat × Fin 512}
    (h : ∀ t j, ρ a.1 ≠ .pte t j) : leafTarget ρ m a = none := by
  unfold leafTarget
  split
  · rename_i t j ht
    exact absurd ht (h t j)
  · rfl

theorem leafTarget_of_pte {ρ : Nat → Role} {m : Mem} {a : Nat × Fin 512} {t : Nat} {j : Fin 512}
    (h : ρ a.1 = .pte t j) :
    leafTarget ρ m a = if Valid (m a.1 a.2) then some (ppn (m a.1 a.2)) else none := by
  unfold leafTarget
  rw [h]

/-- Targets depend on which frames are third-level tables and on their words. -/
theorem leafTarget_congr {ρ ρ' : Nat → Role} {m m' : Mem} {a : Nat × Fin 512}
    (h : ∀ t j, ρ a.1 = .pte t j → (∃ t' j', ρ' a.1 = .pte t' j') ∧ m' a.1 a.2 = m a.1 a.2)
    (h' : ∀ t j, ρ' a.1 = .pte t j → (∃ t' j', ρ a.1 = .pte t' j') ∨ ¬ Valid (m' a.1 a.2)) :
    leafTarget ρ' m' a = leafTarget ρ m a := by
  by_cases hp : ∃ t j, ρ a.1 = .pte t j
  · obtain ⟨t, j, hr⟩ := hp
    obtain ⟨⟨t', j', hr'⟩, hm⟩ := h t j hr
    rw [leafTarget_of_pte hr, leafTarget_of_pte hr', hm]
  · rw [not_exists] at hp
    simp only [not_exists] at hp
    rw [leafTarget_of_not_pte hp]
    by_cases hp' : ∃ t j, ρ' a.1 = .pte t j
    · obtain ⟨t, j, hr'⟩ := hp'
      rcases h' t j hr' with ⟨t', j', hr⟩ | hv
      · exact absurd hr (hp t' j')
      · rw [leafTarget_of_pte hr', if_neg hv]
    · simp only [not_exists] at hp'
      exact leafTarget_of_not_pte hp'

/-! ## 3. The shape under one change -/

section RoleUpdate

variable {ρ : Nat → Role} {f g : Nat} {r x : Role}

/-- Reading a role after an update of another role: it was there before. -/
theorem role_of_update (hx : x ≠ r) (h : Function.update ρ f r g = x) : g ≠ f ∧ ρ g = x := by
  by_cases hg : g = f
  · subst hg
    rw [Function.update_self] at h
    exact absurd h.symm hx
  · rw [Function.update_of_ne hg] at h
    exact ⟨hg, h⟩

/-- A role other than the one overwritten is still there. -/
theorem update_role (hx : ρ f ≠ x) (h : ρ g = x) : Function.update ρ f r g = x := by
  have hg : g ≠ f := by
    rintro rfl
    exact hx h
  rw [Function.update_of_ne hg, h]

end RoleUpdate

/-- The roles that are neither a table nor part of the kernel. -/
def Role.IsPlain (r : Role) : Prop := r = .free ∨ r.IsPage

namespace Role.IsPlain

variable {r : Role}

theorem ne_kernel (h : r.IsPlain) : r ≠ .kernel := by
  rintro rfl; simp [IsPlain, Role.IsPage] at h

theorem ne_dir (h : r.IsPlain) : r ≠ .dir := by
  rintro rfl; simp [IsPlain, Role.IsPage] at h

theorem ne_pmd (h : r.IsPlain) {d : Nat} {i : Fin 512} : r ≠ .pmd d i := by
  rintro rfl; simp [IsPlain, Role.IsPage] at h

theorem ne_pte (h : r.IsPlain) {t : Nat} {j : Fin 512} : r ≠ .pte t j := by
  rintro rfl; simp [IsPlain, Role.IsPage] at h

end Role.IsPlain

namespace Shape

variable {L : Layout} {base : Nat} {km : Mem} {ρ : Nat → Role} {m m' : Mem} {f : Nat}

/-- A frame that is no table may change its contents, and its role as long as no leaf is left
pointing to a frame that is no page. -/
theorem page (h : Shape L base km ρ m) {r : Role} (hf : (ρ f).IsPlain) (hr : r.IsPlain)
    (hm : ∀ g, g ≠ f → m' g = m g)
    (hleaf : ∀ u t j k, ρ u = .pte t j → Valid (m u k) → ppn (m u k) = f → r.IsPage) :
    Shape L base km (Function.update ρ f r) m' where
  map := h.map
  kernel := by
    intro g
    rw [← h.kernel g]
    exact ⟨fun hg => (role_of_update hr.ne_kernel.symm hg).2, update_role hf.ne_kernel⟩
  kernelMem := by
    intro g hlo hhi
    have hg : g ≠ f := by
      rintro rfl
      exact hf.ne_kernel ((h.kernel g).mpr (Or.inl hhi))
    rw [hm g hg, h.kernelMem g hlo hhi]
  dirLow := by
    intro d hd i hi
    obtain ⟨hne, hd⟩ := role_of_update hr.ne_dir.symm hd
    rw [hm d hne, h.dirLow d hd i hi]
  dirUser := by
    intro d hd i hi hv
    obtain ⟨hne, hd⟩ := role_of_update hr.ne_dir.symm hd
    rw [hm d hne] at hv ⊢
    obtain ⟨h1, h2⟩ := h.dirUser d hd i hi hv
    exact ⟨h1, update_role hf.ne_pmd h2⟩
  pmdUser := by
    intro t d i ht j hv
    obtain ⟨hne, ht⟩ := role_of_update hr.ne_pmd.symm ht
    rw [hm t hne] at hv ⊢
    obtain ⟨h1, h2⟩ := h.pmdUser t d i ht j hv
    exact ⟨h1, update_role hf.ne_pte h2⟩
  leaf := by
    intro u t j hu k hv
    obtain ⟨hne, hu⟩ := role_of_update hr.ne_pte.symm hu
    rw [hm u hne] at hv ⊢
    obtain ⟨h1, h2⟩ := h.leaf u t j hu k hv
    refine ⟨h1, ?_⟩
    by_cases hg : ppn (m u k) = f
    · rw [hg, Function.update_self]
      exact hleaf u t j k hu hv hg
    · rwa [Function.update_of_ne hg]
  pmdParent := by
    intro t d i ht
    obtain ⟨hne, ht⟩ := role_of_update hr.ne_pmd.symm ht
    obtain ⟨h1, h2, h3, h4⟩ := h.pmdParent t d i ht
    have hd := role_of_update hr.ne_dir.symm (update_role (r := r) hf.ne_dir h2)
    rw [hm d hd.1]
    exact ⟨h1, update_role hf.ne_dir h2, h3, h4⟩
  pteParent := by
    intro u t j hu
    obtain ⟨hne, hu⟩ := role_of_update hr.ne_pte.symm hu
    obtain ⟨⟨d, i, h1⟩, h2, h3⟩ := h.pteParent u t j hu
    have ht := role_of_update hr.ne_pmd.symm (update_role (r := r) hf.ne_pmd h1)
    rw [hm t ht.1]
    exact ⟨⟨d, i, update_role hf.ne_pmd h1⟩, h2, h3⟩

/-- A third-level entry may be given any leaf to a page, or be cleared. -/
theorem leafStore (h : Shape L base km ρ m) {u t : Nat} {j k : Fin 512} {w : Nat}
    (hu : ρ u = .pte t j) (hm : ∀ g i, m' g i = if g = u ∧ i = k then w else m g i)
    (hw : Valid w → IsTable w ∧ (ρ (ppn w)).IsPage) : Shape L base km ρ m' := by
  have hother : ∀ g, (∀ t j, ρ g ≠ .pte t j) → m' g = m g := by
    intro g hg
    have hne : g ≠ u := by
      rintro rfl
      exact hg t j hu
    funext i
    rw [hm, if_neg (by simp [hne])]
  exact
    { map := h.map
      kernel := h.kernel
      kernelMem := by
        intro g hlo hhi
        have hk := (h.kernel g).mpr (Or.inl hhi)
        rw [hother g (by simp [hk]), h.kernelMem g hlo hhi]
      dirLow := by
        intro d hd
        rw [hother d (by simp [hd])]
        exact h.dirLow d hd
      dirUser := by
        intro d hd
        rw [hother d (by simp [hd])]
        exact h.dirUser d hd
      pmdUser := by
        intro t d i ht
        rw [hother t (by simp [ht])]
        exact h.pmdUser t d i ht
      leaf := by
        intro v t' j' hv i hval
        rw [hm] at hval ⊢
        by_cases hvi : v = u ∧ i = k
        · rw [if_pos hvi] at hval ⊢
          exact hw hval
        · rw [if_neg hvi] at hval ⊢
          exact h.leaf v t' j' hv i hval
      pmdParent := by
        intro t d i ht
        have hp := h.pmdParent t d i ht
        rw [hother d (by simp [hp.2.1])]
        exact hp
      pteParent := by
        intro v t' j' hv
        have hp := h.pteParent v t' j' hv
        obtain ⟨d, i, ht'⟩ := hp.1
        rw [hother t' (by simp [ht'])]
        exact hp }

/-- A page that nobody maps becomes a second-level table, when it is empty and an entry of a
directory is made to point to it. -/
theorem linkPmd (h : Shape L base km ρ m) {d : Nat} {i : Fin 512} {w : Nat} (hf : (ρ f).IsPlain)
    (hd : ρ d = .dir) (hi : 2 ≤ i.val) (hempty : ¬ Valid (m d i)) (hzero : ∀ j, ¬ Valid (m f j))
    (hm : ∀ g k, m' g k = if g = d ∧ k = i then w else m g k) (hw : IsTable w) (hwf : ppn w = f)
    (hleaf : ∀ u t j k, ρ u = .pte t j → Valid (m u k) → ppn (m u k) ≠ f) :
    Shape L base km (Function.update ρ f (.pmd d i)) m' := by
  have hfd : f ≠ d := by
    rintro rfl
    exact hf.ne_dir hd
  have hother : ∀ g, ρ g ≠ .dir → m' g = m g := by
    intro g hg
    have hne : g ≠ d := by
      rintro rfl
      exact hg hd
    funext k
    rw [hm, if_neg (by simp [hne])]
  exact
    { map := h.map
      kernel := by
        intro g
        rw [← h.kernel g]
        exact ⟨fun hg => (role_of_update (by simp) hg).2, update_role hf.ne_kernel⟩
      kernelMem := by
        intro g hlo hhi
        have hk := (h.kernel g).mpr (Or.inl hhi)
        rw [hother g (by simp [hk]), h.kernelMem g hlo hhi]
      dirLow := by
        intro g hg k hk
        obtain ⟨_, hg⟩ := role_of_update (by simp) hg
        rw [hm, if_neg (by rintro ⟨_, rfl⟩; omega), h.dirLow g hg k hk]
      dirUser := by
        intro g hg k hk hv
        obtain ⟨_, hg⟩ := role_of_update (by simp) hg
        rw [hm] at hv ⊢
        by_cases hgk : g = d ∧ k = i
        · rw [if_pos hgk] at hv ⊢
          obtain ⟨rfl, rfl⟩ := hgk
          exact ⟨hw, by rw [hwf, Function.update_self]⟩
        · rw [if_neg hgk] at hv ⊢
          obtain ⟨h1, h2⟩ := h.dirUser g hg k hk hv
          exact ⟨h1, update_role hf.ne_pmd h2⟩
      pmdUser := by
        intro t d' i' ht j hv
        by_cases htf : t = f
        · subst htf
          rw [hother t hf.ne_dir] at hv
          exact absurd hv (hzero j)
        · rw [Function.update_of_ne htf] at ht
          rw [hother t (by simp [ht])] at hv ⊢
          obtain ⟨h1, h2⟩ := h.pmdUser t d' i' ht j hv
          exact ⟨h1, update_role hf.ne_pte h2⟩
      leaf := by
        intro u t j hu k hv
        obtain ⟨_, hu⟩ := role_of_update (by simp) hu
        rw [hother u (by simp [hu])] at hv ⊢
        obtain ⟨h1, h2⟩ := h.leaf u t j hu k hv
        rw [Function.update_of_ne (hleaf u t j k hu hv)]
        exact ⟨h1, h2⟩
      pmdParent := by
        intro t d' i' ht
        by_cases htf : t = f
        · subst htf
          rw [Function.update_self] at ht
          cases ht
          have hwd : m' d i = w := by rw [hm, if_pos ⟨rfl, rfl⟩]
          rw [hwd]
          exact ⟨hi, update_role hf.ne_dir hd, hw.valid, hwf⟩
        · rw [Function.update_of_ne htf] at ht
          obtain ⟨h1, h2, h3, h4⟩ := h.pmdParent t d' i' ht
          rw [hm, if_neg (by rintro ⟨rfl, rfl⟩; exact hempty h3)]
          exact ⟨h1, update_role hf.ne_dir h2, h3, h4⟩
      pteParent := by
        intro u t j hu
        obtain ⟨_, hu⟩ := role_of_update (by simp) hu
        obtain ⟨⟨d', i', h1⟩, h2, h3⟩ := h.pteParent u t j hu
        rw [hother t (by simp [h1])]
        exact ⟨⟨d', i', update_role hf.ne_pmd h1⟩, h2, h3⟩ }

/-- The same one level further down. -/
theorem linkPte (h : Shape L base km ρ m) {t d : Nat} {i j : Fin 512} {w : Nat}
    (hf : (ρ f).IsPlain) (ht : ρ t = .pmd d i) (hempty : ¬ Valid (m t j))
    (hzero : ∀ k, ¬ Valid (m f k))
    (hm : ∀ g k, m' g k = if g = t ∧ k = j then w else m g k) (hw : IsTable w) (hwf : ppn w = f)
    (hleaf : ∀ u t j k, ρ u = .pte t j → Valid (m u k) → ppn (m u k) ≠ f) :
    Shape L base km (Function.update ρ f (.pte t j)) m' := by
  have hother : ∀ g, (∀ d i, ρ g ≠ .pmd d i) → m' g = m g := by
    intro g hg
    have hne : g ≠ t := by
      rintro rfl
      exact hg d i ht
    funext k
    rw [hm, if_neg (by simp [hne])]
  exact
    { map := h.map
      kernel := by
        intro g
        rw [← h.kernel g]
        exact ⟨fun hg => (role_of_update (by simp) hg).2, update_role hf.ne_kernel⟩
      kernelMem := by
        intro g hlo hhi
        have hk := (h.kernel g).mpr (Or.inl hhi)
        rw [hother g (by simp [hk]), h.kernelMem g hlo hhi]
      dirLow := by
        intro g hg k hk
        obtain ⟨_, hg⟩ := role_of_update (by simp) hg
        rw [hother g (by simp [hg]), h.dirLow g hg k hk]
      dirUser := by
        intro g hg k hk hv
        obtain ⟨_, hg⟩ := role_of_update (by simp) hg
        rw [hother g (by simp [hg])] at hv ⊢
        obtain ⟨h1, h2⟩ := h.dirUser g hg k hk hv
        exact ⟨h1, update_role hf.ne_pmd h2⟩
      pmdUser := by
        intro t' d' i' ht' k hv
        obtain ⟨_, ht'⟩ := role_of_update (by simp) ht'
        rw [hm] at hv ⊢
        by_cases htk : t' = t ∧ k = j
        · rw [if_pos htk] at hv ⊢
          obtain ⟨rfl, rfl⟩ := htk
          exact ⟨hw, by rw [hwf, Function.update_self]⟩
        · rw [if_neg htk] at hv ⊢
          obtain ⟨h1, h2⟩ := h.pmdUser t' d' i' ht' k hv
          exact ⟨h1, update_role hf.ne_pte h2⟩
      leaf := by
        intro u t' j' hu k hv
        by_cases huf : u = f
        · subst huf
          rw [hother u (fun _ _ => hf.ne_pmd)] at hv
          exact absurd hv (hzero k)
        · rw [Function.update_of_ne huf] at hu
          rw [hother u (by simp [hu])] at hv ⊢
          obtain ⟨h1, h2⟩ := h.leaf u t' j' hu k hv
          rw [Function.update_of_ne (hleaf u t' j' k hu hv)]
          exact ⟨h1, h2⟩
      pmdParent := by
        intro t' d' i' ht'
        obtain ⟨_, ht'⟩ := role_of_update (by simp) ht'
        obtain ⟨h1, h2, h3, h4⟩ := h.pmdParent t' d' i' ht'
        rw [hother d' (by simp [h2])]
        exact ⟨h1, update_role hf.ne_dir h2, h3, h4⟩
      pteParent := by
        intro u t' j' hu
        by_cases huf : u = f
        · subst huf
          rw [Function.update_self] at hu
          cases hu
          have hwt : m' t j = w := by rw [hm, if_pos ⟨rfl, rfl⟩]
          rw [hwt]
          exact ⟨⟨d, i, update_role hf.ne_pmd ht⟩, hw.valid, hwf⟩
        · rw [Function.update_of_ne huf] at hu
          obtain ⟨⟨d', i', h1⟩, h2, h3⟩ := h.pteParent u t' j' hu
          rw [hm, if_neg (by rintro ⟨rfl, rfl⟩; exact hempty h2)]
          exact ⟨⟨d', i', update_role hf.ne_pmd h1⟩, h2, h3⟩ }

/-- A page that nobody maps becomes a directory: two entries of `_pg_dir`, and none in the user
half. -/
theorem newDir (h : Shape L base km ρ m) (hf : (ρ f).IsPlain) {row : Fin 512 → Nat}
    (hm : ∀ g k, m' g k = if g = f then row k else m g k)
    (hlow : ∀ k : Fin 512, k.val < 2 → row k = km L.pgDir k)
    (huser : ∀ k : Fin 512, 2 ≤ k.val → ¬ Valid (row k))
    (hleaf : ∀ u t j k, ρ u = .pte t j → Valid (m u k) → ppn (m u k) ≠ f) :
    Shape L base km (Function.update ρ f .dir) m' := by
  have hrow : ∀ k, m' f k = row k := by
    intro k
    rw [hm, if_pos rfl]
  have hother : ∀ g, g ≠ f → m' g = m g := by
    intro g hg
    funext k
    rw [hm, if_neg hg]
  exact
    { map := h.map
      kernel := by
        intro g
        rw [← h.kernel g]
        exact ⟨fun hg => (role_of_update (by simp) hg).2, update_role hf.ne_kernel⟩
      kernelMem := by
        intro g hlo hhi
        have hk := (h.kernel g).mpr (Or.inl hhi)
        have hg : g ≠ f := by
          rintro rfl
          exact hf.ne_kernel hk
        rw [hother g hg, h.kernelMem g hlo hhi]
      dirLow := by
        intro d hd k hk
        by_cases hdf : d = f
        · rw [hdf, hrow, hlow k hk]
        · rw [Function.update_of_ne hdf] at hd
          rw [hother d hdf, h.dirLow d hd k hk]
      dirUser := by
        intro d hd k hk hv
        by_cases hdf : d = f
        · rw [hdf, hrow] at hv
          exact absurd hv (huser k hk)
        · rw [Function.update_of_ne hdf] at hd
          rw [hother d hdf] at hv ⊢
          obtain ⟨h1, h2⟩ := h.dirUser d hd k hk hv
          exact ⟨h1, update_role hf.ne_pmd h2⟩
      pmdUser := by
        intro t d i ht j hv
        obtain ⟨hne, ht⟩ := role_of_update (by simp) ht
        rw [hother t hne] at hv ⊢
        obtain ⟨h1, h2⟩ := h.pmdUser t d i ht j hv
        exact ⟨h1, update_role hf.ne_pte h2⟩
      leaf := by
        intro u t j hu k hv
        obtain ⟨hne, hu⟩ := role_of_update (by simp) hu
        rw [hother u hne] at hv ⊢
        obtain ⟨h1, h2⟩ := h.leaf u t j hu k hv
        rw [Function.update_of_ne (hleaf u t j k hu hv)]
        exact ⟨h1, h2⟩
      pmdParent := by
        intro t d i ht
        obtain ⟨hne, ht⟩ := role_of_update (by simp) ht
        obtain ⟨h1, h2, h3, h4⟩ := h.pmdParent t d i ht
        have hd : d ≠ f := by
          rintro rfl
          exact hf.ne_dir h2
        rw [hother d hd]
        exact ⟨h1, update_role hf.ne_dir h2, h3, h4⟩
      pteParent := by
        intro u t j hu
        obtain ⟨hne, hu⟩ := role_of_update (by simp) hu
        obtain ⟨⟨d, i, h1⟩, h2, h3⟩ := h.pteParent u t j hu
        have ht : t ≠ f := by
          rintro rfl
          exact hf.ne_pmd h1
        rw [hother t ht]
        exact ⟨⟨d, i, update_role hf.ne_pmd h1⟩, h2, h3⟩ }

/-- The words of the kernel may change, as long as its tables are there. -/
theorem kernelStore (h : Shape L base km ρ m) {km' : Mem} (hmap : KernelMap L km' base)
    (hk : ∀ g, L.pgDir ≤ g → g < base → m' g = km' g) (hm : ∀ g, ρ g ≠ .kernel → m' g = m g) :
    Shape L base km' ρ m' where
  map := hmap
  kernel := h.kernel
  kernelMem := hk
  dirLow := by
    intro d hd i hi
    rw [hm d (by simp [hd]), h.dirLow d hd i hi]
    match i with
    | 0 => rw [h.map.dir_ram, hmap.dir_ram]
    | 1 => rw [h.map.dir_window, hmap.dir_window]
  dirUser := by
    intro d hd
    rw [hm d (by simp [hd])]
    exact h.dirUser d hd
  pmdUser := by
    intro t d i ht
    rw [hm t (by simp [ht])]
    exact h.pmdUser t d i ht
  leaf := by
    intro u t j hu
    rw [hm u (by simp [hu])]
    exact h.leaf u t j hu
  pmdParent := by
    intro t d i ht
    have hp := h.pmdParent t d i ht
    rw [hm d (by simp [hp.2.1])]
    exact hp
  pteParent := by
    intro u t j hu
    have hp := h.pteParent u t j hu
    obtain ⟨d, i, ht⟩ := hp.1
    rw [hm t (by simp [ht])]
    exact hp

end Shape

namespace Forest

variable {L : Layout} {base : Nat} {km : Mem} {ρ : Nat → Role} {p q : Phys} {f : Nat}

/-- Frames with a use lie in the pool. -/
theorem lt_npage (h : Forest L base km ρ p) (hf : ρ f ≠ .kernel) : f < npage := by
  have hk := (h.kernel f).not.mp hf
  omega

theorem base_le (h : Forest L base km ρ p) (hf : ρ f ≠ .kernel) : base ≤ f := by
  have hk := (h.kernel f).not.mp hf
  omega

/-- The head of the free list has role `free`. -/
theorem first_free (h : Forest L base km ρ p) (hf : p.pageFreeList.first () = some f) :
    ρ f = .free := by
  obtain ⟨l, hl, hmem⟩ := h.pages
  obtain ⟨l', rfl⟩ := hl.eq_cons hf
  exact (hmem f).mp (by simp)

/-- A leaf points to a page. -/
theorem page_of_leaf (h : Forest L base km ρ p) {u t : Nat} {j k : Fin 512} (hu : ρ u = .pte t j)
    (hv : Valid (p.mem u k)) : (ρ (ppn (p.mem u k))).IsPage := (h.leaf u t j hu k hv).2

/-- A valid leaf is one of those counted. -/
theorem leafCount_pos (h : Forest L base km ρ p) {u t : Nat} {j k : Fin 512} (hu : ρ u = .pte t j)
    (hv : Valid (p.mem u k)) : 0 < leafCount ρ p.mem (ppn (p.mem u k)) := by
  have hw : (u, k) ∈ words := mem_words.mpr (h.lt_npage (by simp [hu]))
  refine RefCount.refs_pos hw ?_
  rw [leafTarget_of_pte hu, if_pos hv]

/-- **A frame without leaves is the target of none.** -/
theorem unmapped (h : Forest L base km ρ p) (h0 : leafCount ρ p.mem f = 0) {u t : Nat}
    {j k : Fin 512} (hu : ρ u = .pte t j) (hv : Valid (p.mem u k)) : ppn (p.mem u k) ≠ f := by
  rintro rfl
  have hpos := h.leafCount_pos hu hv
  omega

/-- Only pages have leaves. -/
theorem leafCount_eq_zero (h : Forest L base km ρ p) (hf : ¬ (ρ f).IsPage) :
    leafCount ρ p.mem f = 0 := by
  refine RefCount.refs_eq_zero_iff.mpr ?_
  rintro ⟨u, k⟩ _ ha
  by_cases hu : ∃ t j, ρ u = .pte t j
  · obtain ⟨t, j, hu⟩ := hu
    rw [leafTarget_of_pte hu] at ha
    split at ha
    · rename_i hv
      cases ha
      exact hf (h.page_of_leaf hu hv)
    · cases ha
  · simp only [not_exists] at hu
    rw [leafTarget_of_not_pte hu] at ha
    cases ha

/-- A free frame counts nothing. -/
theorem ppRef_free (h : Forest L base km ρ p) (hf : ρ f = .free) : p.ppRef f = 0 := by
  rw [h.count f (h.lt_npage (by simp [hf])), hf, h.leafCount_eq_zero (by simp [hf, Role.IsPage])]
  rfl

/-- A page that counts nothing has no leaves. -/
theorem leafCount_of_ppRef (h : Forest L base km ρ p) (hf : ρ f = .data) (h0 : p.ppRef f = 0) :
    leafCount ρ p.mem f = 0 := by
  have hc := h.count f (h.lt_npage (by simp [hf]))
  omega

/-! ## 4. The primitive changes -/

/-- **A frame leaves the free list** and becomes a page nobody maps. -/
theorem take (h : Forest L base km ρ p) (hp : p.pageAlloc = some (f, q)) :
    Forest L base km (Function.update ρ f .data) q ∧ ρ f = .free ∧ q.ppRef = p.ppRef ∧
      ∀ g i, q.mem g i = if g = f then 0 else p.mem g i := by
  obtain ⟨hfirst, rfl⟩ := Phys.pageAlloc_eq_some hp
  have hfree := h.first_free hfirst
  refine ⟨?_, hfree, rfl, fun _ _ => rfl⟩
  have hshape : Shape L base km (Function.update ρ f .data)
      ({ p.bzeroPage f with pageFreeList := p.pageFreeList.remove f } : Phys).mem :=
    h.toShape.page (Or.inl hfree) (Or.inr trivial)
    (fun g hg => by
      funext i
      exact if_neg hg)
    (fun _ _ _ _ _ _ _ => trivial)
  have hcount : ∀ g, leafCount (Function.update ρ f .data)
      ({ p.bzeroPage f with pageFreeList := p.pageFreeList.remove f } : Phys).mem g
      = leafCount ρ p.mem g := by
    refine leafCount_congr (fun a => leafTarget_congr ?_ ?_)
    · intro t j ha
      have hne : a.1 ≠ f := by
        rintro he
        rw [he, hfree] at ha
        cases ha
      exact ⟨⟨t, j, by rw [Function.update_of_ne hne, ha]⟩, if_neg hne⟩
    · intro t j ha
      exact Or.inl ⟨t, j, (role_of_update (by simp) ha).2⟩
  refine { toShape := hshape, bound := h.bound, count := ?_, pages := ?_ }
  · intro g hg
    rw [hcount]
    by_cases hgf : g = f
    · subst hgf
      rw [Function.update_self]
      have hc := h.count g hg
      rw [hfree] at hc
      exact hc
    · rw [Function.update_of_ne hgf]
      exact h.count g hg
  · obtain ⟨l, hl, hmem⟩ := h.pages
    obtain ⟨l', rfl⟩ := hl.eq_cons hfirst
    have hnd := List.nodup_cons.mp hl.nodup
    refine ⟨l', hl.remove_head, ?_⟩
    intro g
    by_cases hgf : g = f
    · subst hgf
      rw [Function.update_self]
      simp [hnd.1]
    · rw [Function.update_of_ne hgf, ← hmem g, List.mem_cons]
      simp [hgf]

/-- A page that counts nothing takes a role that holds a reference of its own. -/
theorem retype (h : Forest L base km ρ p) {r : Role} (m' : Mem) (hf : ρ f = .data)
    (h0 : p.ppRef f = 0) (hr : r.held = 1)
    (hshape : Shape L base km (Function.update ρ f r) m')
    (hleaf : ∀ a, leafTarget (Function.update ρ f r) m' a = leafTarget ρ p.mem a) :
    Forest L base km (Function.update ρ f r) ({ p with mem := m' }.incRef f) where
  toShape := hshape
  bound := by
    intro g
    rw [Phys.ppRef_incRef]
    split
    · exact Nat.mod_lt _ (by decide)
    · exact h.bound g
  count := by
    intro g hg
    rw [Phys.ppRef_incRef, Phys.mem_incRef, leafCount_congr hleaf]
    by_cases hgf : g = f
    · subst hgf
      rw [if_pos rfl, Function.update_self, hr, h.leafCount_of_ppRef hf h0]
      dsimp only
      rw [h0]
      rfl
    · rw [if_neg hgf, Function.update_of_ne hgf]
      exact h.count g hg
  pages := by
    obtain ⟨l, hl, hmem⟩ := h.pages
    refine ⟨l, hl, ?_⟩
    intro g
    rw [hmem g]
    by_cases hgf : g = f
    · subst hgf
      rw [Function.update_self, hf]
      constructor
      · intro hc
        cases hc
      · rintro rfl
        cases hr
    · rw [Function.update_of_ne hgf]

/-- **An entry of a directory is made to point to a new table.** -/
theorem linkPmd (h : Forest L base km ρ p) {d : Nat} {i : Fin 512} (hf : ρ f = .data)
    (h0 : p.ppRef f = 0) (hzero : ∀ j, p.mem f j = 0) (hd : ρ d = .dir) (hi : 2 ≤ i.val)
    (hempty : ¬ Valid (p.mem d i)) :
    Forest L base km (Function.update ρ f (.pmd d i))
      ((p.store ⟨d, i⟩ (tableDesc f)).incRef f) := by
  have hun := h.leafCount_of_ppRef hf h0
  have hplain : (ρ f).IsPlain := by rw [hf]; exact Or.inr trivial
  refine h.retype (p.store ⟨d, i⟩ (tableDesc f)).mem hf h0 rfl ?_ ?_
  · exact h.toShape.linkPmd hplain hd hi hempty
      (fun j => by rw [hzero]; exact not_valid_zero) (fun _ _ => rfl) (isTable_tableDesc f)
      (ppn_tableDesc f) (fun u t j k hu hv => h.unmapped hun hu hv)
  · refine fun a => leafTarget_congr ?_ ?_
    · intro t j ha
      refine ⟨⟨t, j, update_role (by simp [hf]) ha⟩, ?_⟩
      rw [Phys.mem_store, if_neg]
      rintro ⟨he, _⟩
      rw [he] at ha
      dsimp only at ha
      rw [hd] at ha
      cases ha
    · intro t j ha
      exact Or.inl ⟨t, j, (role_of_update (by simp) ha).2⟩

/-- The same one level further down. -/
theorem linkPte (h : Forest L base km ρ p) {t d : Nat} {i j : Fin 512} (hf : ρ f = .data)
    (h0 : p.ppRef f = 0) (hzero : ∀ k, p.mem f k = 0) (ht : ρ t = .pmd d i)
    (hempty : ¬ Valid (p.mem t j)) :
    Forest L base km (Function.update ρ f (.pte t j))
      ((p.store ⟨t, j⟩ (tableDesc f)).incRef f) := by
  have hun := h.leafCount_of_ppRef hf h0
  have hplain : (ρ f).IsPlain := by rw [hf]; exact Or.inr trivial
  have hft : f ≠ t := by
    rintro rfl
    rw [hf] at ht
    cases ht
  refine h.retype (p.store ⟨t, j⟩ (tableDesc f)).mem hf h0 rfl ?_ ?_
  · exact h.toShape.linkPte hplain ht hempty
      (fun k => by rw [hzero]; exact not_valid_zero) (fun _ _ => rfl) (isTable_tableDesc f)
      (ppn_tableDesc f) (fun u t j k hu hv => h.unmapped hun hu hv)
  · refine fun a => leafTarget_congr ?_ ?_
    · intro t' j' ha
      refine ⟨⟨t', j', update_role (by simp [hf]) ha⟩, ?_⟩
      rw [Phys.mem_store, if_neg]
      rintro ⟨he, _⟩
      rw [he] at ha
      dsimp only at ha
      rw [ht] at ha
      cases ha
    · intro t' j' ha
      by_cases haf : a.1 = f
      · refine Or.inr ?_
        rw [Phys.mem_store, if_neg (by simp [haf, hft]), haf, hzero]
        exact not_valid_zero
      · rw [Function.update_of_ne haf] at ha
        exact Or.inl ⟨t', j', ha⟩

/-- **A page becomes a directory** with a row of its own. -/
theorem newDirRow (h : Forest L base km ρ p) (hf : ρ f = .data) (h0 : p.ppRef f = 0)
    {row : Fin 512 → Nat} {m' : Mem} (hm : ∀ g k, m' g k = if g = f then row k else p.mem g k)
    (hlow : ∀ k : Fin 512, k.val < 2 → row k = km L.pgDir k)
    (huser : ∀ k : Fin 512, 2 ≤ k.val → ¬ Valid (row k)) :
    Forest L base km (Function.update ρ f .dir) { p.incRef f with mem := m' } := by
  have hun := h.leafCount_of_ppRef hf h0
  have hplain : (ρ f).IsPlain := by rw [hf]; exact Or.inr trivial
  refine h.retype m' hf h0 rfl ?_ ?_
  · exact h.toShape.newDir hplain hm hlow huser (fun u t j k hu hv => h.unmapped hun hu hv)
  · refine fun a => leafTarget_congr ?_ ?_
    · intro t j ha
      refine ⟨⟨t, j, update_role (by simp [hf]) ha⟩, (hm _ _).trans (if_neg ?_)⟩
      intro he
      rw [he, hf] at ha
      cases ha
    · intro t j ha
      exact Or.inl ⟨t, j, (role_of_update (by simp) ha).2⟩

/-- **A page becomes a directory**, a copy of `_pg_dir`. -/
theorem newDir (h : Forest L base km ρ p) (hf : ρ f = .data) (h0 : p.ppRef f = 0) :
    Forest L base km (Function.update ρ f .dir) ((p.incRef f).copyPage L.pgDir f) := by
  have hb := h.map.le_base
  have hrow : (p.incRef f).mem L.pgDir = km L.pgDir := h.kernelMem _ (le_refl _) (by omega)
  refine h.newDirRow hf h0 (fun _ _ => rfl) (fun k _ => ?_) (fun k hk => ?_)
  · rw [hrow]
  · rw [hrow]
    exact h.map.dir_user k hk

/-- A page nobody maps is given a reference of its own. -/
theorem pin (h : Forest L base km ρ p) (hf : ρ f = .data) (h0 : p.ppRef f = 0) :
    Forest L base km (Function.update ρ f .pinned) (p.incRef f) := by
  have hplain : (ρ f).IsPlain := by rw [hf]; exact Or.inr trivial
  refine h.retype p.mem hf h0 rfl ?_ ?_
  · exact h.toShape.page hplain (Or.inr trivial) (fun _ _ => rfl) (fun _ _ _ _ _ _ _ => trivial)
  · refine fun a => leafTarget_congr ?_ ?_
    · intro t j ha
      exact ⟨⟨t, j, update_role (by simp [hf]) ha⟩, rfl⟩
    · intro t j ha
      exact Or.inl ⟨t, j, (role_of_update (by simp) ha).2⟩

/-- Changes of memory that keep the shape and the leaves keep the forest. -/
theorem withShape (h : Forest L base km ρ p) (m' : Mem) (hshape : Shape L base km ρ m')
    (hleaf : ∀ a, leafTarget ρ m' a = leafTarget ρ p.mem a) :
    Forest L base km ρ { p with mem := m' } where
  toShape := hshape
  bound := h.bound
  count := by
    intro g hg
    rw [leafCount_congr hleaf]
    exact h.count g hg
  pages := h.pages

/-- **The contents of a page may change.** -/
theorem write (h : Forest L base km ρ p) {m' : Mem} (hf : (ρ f).IsPage)
    (hm : ∀ g, g ≠ f → m' g = p.mem g) : Forest L base km ρ { p with mem := m' } := by
  have hshape := h.toShape.page (r := ρ f) (Or.inr hf) (Or.inr hf) hm (fun _ _ _ _ _ _ _ => hf)
  rw [Function.update_eq_self] at hshape
  refine h.withShape m' hshape (fun a => leafTarget_congr ?_ ?_)
  · intro t j ha
    refine ⟨⟨t, j, ha⟩, ?_⟩
    rw [hm]
    intro he
    rw [← he, ha] at hf
    exact hf
  · intro t j ha
    exact Or.inl ⟨t, j, ha⟩

/-- So may the words of the kernel, as long as its tables are there. -/
theorem kernelStore (h : Forest L base km ρ p) {km' m' : Mem} (hmap : KernelMap L km' base)
    (hk : ∀ g, L.pgDir ≤ g → g < base → m' g = km' g) (hm : ∀ g, ρ g ≠ .kernel → m' g = p.mem g) :
    Forest L base km' ρ { p with mem := m' } where
  toShape := h.toShape.kernelStore hmap hk hm
  bound := h.bound
  count := by
    intro g hg
    rw [h.count g hg]
    refine congrArg (· + (ρ g).held) (leafCount_congr (fun a => ?_) g).symm
    refine leafTarget_congr ?_ ?_
    · intro t j ha
      exact ⟨⟨t, j, ha⟩, congrFun (hm a.1 (by simp [ha])) a.2⟩
    · intro t j ha
      exact Or.inl ⟨t, j, ha⟩
  pages := h.pages

/-- In particular those outside its tables. -/
theorem kernelWrite (h : Forest L base km ρ p) {m' : Mem}
    (hm : ∀ g, ρ g ≠ .kernel ∨ (L.pgDir ≤ g ∧ g < base) → m' g = p.mem g) :
    Forest L base km ρ { p with mem := m' } := by
  refine h.kernelStore h.map (fun g hlo hhi => ?_) fun g hg => hm g (Or.inl hg)
  rw [hm g (Or.inr ⟨hlo, hhi⟩), h.kernelMem g hlo hhi]

/-- Rewriting one third-level entry leaves the targets of the others alone. -/
theorem leafTarget_store {ρ : Nat → Role} {p : Phys} {u : Nat} {k : Fin 512} (w : Nat)
    {a : Nat × Fin 512} (ha : a ≠ (u, k)) :
    leafTarget ρ (p.store ⟨u, k⟩ w).mem a = leafTarget ρ p.mem a := by
  refine leafTarget_congr ?_ ?_
  · intro t j hr
    refine ⟨⟨t, j, hr⟩, ?_⟩
    rw [Phys.mem_store, if_neg]
    rintro ⟨h1, h2⟩
    exact ha (Prod.ext h1 h2)
  · intro t j hr
    exact Or.inl ⟨t, j, hr⟩

theorem leafTarget_store_self {ρ : Nat → Role} {p : Phys} {u t : Nat} {j k : Fin 512} {w : Nat}
    (hu : ρ u = .pte t j) :
    leafTarget ρ (p.store ⟨u, k⟩ w).mem (u, k) = if Valid w then some (ppn w) else none := by
  rw [leafTarget_of_pte hu, Phys.mem_store_self]

/-- **A leaf is entered.** -/
theorem setLeaf (h : Forest L base km ρ p) {u t : Nat} {j k : Fin 512} {w : Nat}
    (hu : ρ u = .pte t j) (hempty : ¬ Valid (p.mem u k)) (hw : IsTable w)
    (hpage : (ρ (ppn w)).IsPage) (hlt : p.ppRef (ppn w) < 2 ^ 16 - 1) :
    Forest L base km ρ ((p.store ⟨u, k⟩ w).incRef (ppn w)) where
  toShape := h.toShape.leafStore hu (fun _ _ => rfl) (fun _ => ⟨hw, hpage⟩)
  bound := by
    intro g
    rw [Phys.ppRef_incRef]
    split
    · exact Nat.mod_lt _ (by decide)
    · exact h.bound g
  count := by
    intro g hg
    have hfill : leafCount ρ (p.store ⟨u, k⟩ w).mem g
        = leafCount ρ p.mem g + if g = ppn w then 1 else 0 := by
      refine RefCount.refs_fill (a := (u, k)) (mem_words.mpr (h.lt_npage (by simp [hu]))) ?_ ?_
        (fun b hb => leafTarget_store w hb) g
      · rw [leafTarget_of_pte hu, if_neg hempty]
      · rw [leafTarget_store_self hu, if_pos hw.valid]
    rw [Phys.ppRef_incRef, Phys.mem_incRef, hfill]
    have hc := h.count g hg
    by_cases hgw : g = ppn w
    · rw [← hgw] at hlt ⊢
      rw [if_pos rfl, if_pos rfl, Phys.ppRef_store]
      omega
    · rw [if_neg hgw, if_neg hgw, Nat.add_zero]
      exact hc
  pages := h.pages

/-- **A leaf is rewritten** with the same target. -/
theorem refreshLeaf (h : Forest L base km ρ p) {u t : Nat} {j k : Fin 512} {w : Nat}
    (hu : ρ u = .pte t j) (hv : Valid (p.mem u k)) (hw : IsTable w)
    (hsame : ppn w = ppn (p.mem u k)) : Forest L base km ρ (p.store ⟨u, k⟩ w) := by
  have hpage := h.page_of_leaf hu hv
  refine h.withShape (p.store ⟨u, k⟩ w).mem (h.toShape.leafStore hu (fun _ _ => rfl)
    (fun _ => ⟨hw, by rw [hsame]; exact hpage⟩)) ?_
  intro a
  by_cases ha : a = (u, k)
  · subst ha
    rw [leafTarget_store_self hu, leafTarget_of_pte hu, if_pos hv, if_pos hw.valid, hsame]
  · exact leafTarget_store w ha

/-- A leaf is cleared and its page keeps another reference. -/
theorem clearLeaf (h : Forest L base km ρ p) {u t : Nat} {j k : Fin 512}
    (hu : ρ u = .pte t j) (hv : Valid (p.mem u k)) (hmore : 2 ≤ p.ppRef (ppn (p.mem u k))) :
    Forest L base km ρ ((p.decRef (ppn (p.mem u k))).store ⟨u, k⟩ 0) where
  toShape := h.toShape.leafStore hu (fun _ _ => rfl) (fun h0 => absurd h0 not_valid_zero)
  bound := by
    intro g
    rw [Phys.ppRef_store, Phys.ppRef_decRef]
    split
    · exact Nat.mod_lt _ (by decide)
    · exact h.bound g
  count := by
    intro g hg
    have hclear : leafCount ρ (p.store ⟨u, k⟩ 0).mem g + (if g = ppn (p.mem u k) then 1 else 0)
        = leafCount ρ p.mem g := by
      refine RefCount.refs_clear (a := (u, k)) (mem_words.mpr (h.lt_npage (by simp [hu]))) ?_ ?_
        (fun b hb => leafTarget_store 0 hb) g
      · rw [leafTarget_of_pte hu, if_pos hv]
      · rw [leafTarget_store_self hu, if_neg not_valid_zero]
    have hmem : ((p.decRef (ppn (p.mem u k))).store ⟨u, k⟩ 0).mem = (p.store ⟨u, k⟩ 0).mem := rfl
    have hc := h.count g hg
    have hb := h.bound g
    rw [Phys.ppRef_store, Phys.ppRef_decRef, hmem]
    by_cases hgw : g = ppn (p.mem u k)
    · rw [if_pos hgw] at hclear ⊢
      rw [← hgw] at hmore ⊢
      omega
    · rw [if_neg hgw] at hclear ⊢
      omega
  pages := h.pages

/-- **The last leaf of a page is cleared**, and the page goes back on the free list. -/
theorem clearLastLeaf (h : Forest L base km ρ p) {u t : Nat} {j k : Fin 512}
    (hu : ρ u = .pte t j) (hv : Valid (p.mem u k)) (hlast : p.ppRef (ppn (p.mem u k)) = 1) :
    ρ (ppn (p.mem u k)) = .data ∧
      Forest L base km (Function.update ρ (ppn (p.mem u k)) .free)
        (((p.decRef (ppn (p.mem u k))).pageFree (ppn (p.mem u k))).store ⟨u, k⟩ 0) := by
  set f := ppn (p.mem u k) with hf
  have hpage : (ρ f).IsPage := h.page_of_leaf hu hv
  have hpos : 0 < leafCount ρ p.mem f := h.leafCount_pos hu hv
  have hlt : f < npage := h.lt_npage (by rintro he; rw [he] at hpage; exact hpage)
  have hc := h.count f hlt
  have hdata : ρ f = .data := by
    cases hr : ρ f <;> rw [hr] at hpage hc <;> simp only [Role.IsPage] at hpage
    · simp only [Role.held] at hc
      omega
  have h0 : (p.decRef f).ppRef f = 0 := by
    rw [Phys.ppRef_decRef, if_pos rfl, hlast]
    rfl
  have hfree : (p.decRef f).pageFree f
      = { p.decRef f with pageFreeList := p.pageFreeList.insertHead () f } := by
    unfold Phys.pageFree
    rw [if_neg (by omega)]
    rfl
  have hclear : ∀ g, leafCount ρ (p.store ⟨u, k⟩ 0).mem g + (if g = f then 1 else 0)
      = leafCount ρ p.mem g := by
    refine RefCount.refs_clear (a := (u, k)) (mem_words.mpr (h.lt_npage (by simp [hu]))) ?_ ?_
      (fun b hb => leafTarget_store 0 hb)
    · rw [leafTarget_of_pte hu, if_pos hv]
    · rw [leafTarget_store_self hu, if_neg not_valid_zero]
  have hheld : (ρ f).held = 0 := by rw [hdata]; rfl
  have hnone : leafCount ρ (p.store ⟨u, k⟩ 0).mem f = 0 := by
    have h1 := hclear f
    rw [if_pos rfl] at h1
    omega
  have hstore : Shape L base km ρ (p.store ⟨u, k⟩ 0).mem :=
    h.toShape.leafStore hu (fun _ _ => rfl) (fun h0 => absurd h0 not_valid_zero)
  have hun : ∀ v t j i, ρ v = .pte t j → Valid ((p.store ⟨u, k⟩ 0).mem v i) →
      ppn ((p.store ⟨u, k⟩ 0).mem v i) ≠ f := by
    intro v t j i hvr hval he
    have hz := RefCount.refs_eq_zero_iff.mp hnone (v, i)
      (mem_words.mpr (h.lt_npage (by simp [hvr])))
    rw [leafTarget_of_pte hvr, if_pos hval, he] at hz
    exact hz rfl
  have hshape : Shape L base km (Function.update ρ f .free) (p.store ⟨u, k⟩ 0).mem :=
    hstore.page (Or.inr hpage) (Or.inl rfl) (fun _ _ => rfl)
    (fun v t j i hvr hval he => absurd he (hun v t j i hvr hval))
  have hleaf : ∀ a, leafTarget (Function.update ρ f .free) (p.store ⟨u, k⟩ 0).mem a
      = leafTarget ρ (p.store ⟨u, k⟩ 0).mem a := by
    refine fun a => leafTarget_congr ?_ ?_
    · intro t j ha
      exact ⟨⟨t, j, update_role (by simp [hdata]) ha⟩, rfl⟩
    · intro t j ha
      exact Or.inl ⟨t, j, (role_of_update (by simp) ha).2⟩
  rw [hfree]
  refine ⟨hdata, ?_⟩
  exact
    { toShape := hshape
      bound := by
        intro g
        change (p.decRef f).ppRef g < 2 ^ 16
        rw [Phys.ppRef_decRef]
        split
        · exact Nat.mod_lt _ (by decide)
        · exact h.bound g
      count := by
        intro g hg
        change (p.decRef f).ppRef g = leafCount (Function.update ρ f .free) (p.store ⟨u, k⟩ 0).mem g
          + (Function.update ρ f .free g).held
        rw [leafCount_congr hleaf]
        by_cases hgf : g = f
        · rw [hgf, h0, hnone, Function.update_self]
          rfl
        · have h1 := hclear g
          rw [if_neg hgf, Nat.add_zero] at h1
          rw [Function.update_of_ne hgf, h1, Phys.ppRef_decRef, if_neg hgf]
          exact h.count g hg
      pages := by
        obtain ⟨l, hl, hmem⟩ := h.pages
        have hnot : f ∉ l := by
          rw [hmem f, hdata]
          simp
        refine ⟨f :: l, hl.insertHead hnot, ?_⟩
        intro g
        rw [List.mem_cons, hmem g]
        by_cases hgf : g = f
        · simp [hgf, Function.update_self]
        · rw [Function.update_of_ne hgf]
          simp [hgf] }

end Forest

end RaspiOS
