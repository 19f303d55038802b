/-
# Tables and references, without roles

What the user halves of a set of directories consist of, read off memory alone: the second-level
tables their entries name, the third-level tables these name, and the pages that leaves map.  On a
forest the words agree with the roles (`Forest.secondLevel_iff`, `Forest.thirdLevel_iff`), and the
number of leaves of a page is the one its counter holds (`Forest.mappings_eq`).
-/
import RaspiOS.Space
import Mathlib.Data.Fintype.Prod

set_option autoImplicit false

namespace RaspiOS

open LinkedList

/-- Frame `t` is a second-level table: a user-half entry of a directory names it. -/
def SecondLevel (D : Set Nat) (m : Mem) (t : Nat) : Prop :=
  ∃ d ∈ D, ∃ i : Fin 512, 2 ≤ i.val ∧ Valid (m d i) ∧ ppn (m d i) = t

/-- Frame `u` is a third-level table: an entry of a second-level table names it. -/
def ThirdLevel (D : Set Nat) (m : Mem) (u : Nat) : Prop :=
  ∃ t, SecondLevel D m t ∧ ∃ j, Valid (m t j) ∧ ppn (m t j) = u

/-- Frame `t` is a table. -/
def TableFrame (D : Set Nat) (m : Mem) (t : Nat) : Prop := SecondLevel D m t ∨ ThirdLevel D m t

/-- Entry `e` names frame `t` as a table. -/
def Parent (D : Set Nat) (m : Mem) (e : Ptr) (t : Nat) : Prop :=
  (e.frame ∈ D ∧ 2 ≤ e.idx.val ∨ SecondLevel D m e.frame) ∧
    Valid (m e.frame e.idx) ∧ ppn (m e.frame e.idx) = t

/-- The valid leaf entries, over all directories, that map frame `f`. -/
def mappings (dirs : Finset Nat) (m : Mem) (f : Nat) : Nat :=
  ((dirs ×ˢ (Finset.univ : Finset Page)).filter fun x =>
    2 ≤ x.2.1.val ∧ (space m x.1 x.2).map ppn = some f).card

section Vocabulary

variable {D : Set Nat} {m : Mem} {t : Nat}

/-- A table is what an entry names. -/
theorem tableFrame_iff : TableFrame D m t ↔ ∃ e, Parent D m e t := by
  constructor
  · rintro (⟨d, hd, i, hi, hv, ht⟩ | ⟨s, hs, j, hv, ht⟩)
    · exact ⟨⟨d, i⟩, Or.inl ⟨hd, hi⟩, hv, ht⟩
    · exact ⟨⟨s, j⟩, Or.inr hs, hv, ht⟩
  · rintro ⟨⟨f, i⟩, ⟨hd, hi⟩ | hs, hv, ht⟩
    · exact Or.inl ⟨f, hd, i, hi, hv, ht⟩
    · exact Or.inr ⟨f, hs, i, hv, ht⟩

end Vocabulary

/-! ## On a forest -/

namespace Shape

variable {L : Layout} {base : Nat} {km : Mem} {ρ : Nat → Role} {m : Mem} {D : Set Nat} {t : Nat}

theorem secondLevel_iff (h : Shape L base km ρ m) (hD : ∀ f, ρ f = .dir ↔ f ∈ D) :
    SecondLevel D m t ↔ ∃ d i, ρ t = .pmd d i := by
  constructor
  · rintro ⟨d, hd, i, hi, hv, rfl⟩
    exact ⟨d, i, (h.dirUser d ((hD d).mpr hd) i hi hv).2⟩
  · rintro ⟨d, i, ht⟩
    obtain ⟨hi, hd, hv, he⟩ := h.pmdParent t d i ht
    exact ⟨d, (hD d).mp hd, i, hi, hv, he⟩

theorem thirdLevel_iff (h : Shape L base km ρ m) (hD : ∀ f, ρ f = .dir ↔ f ∈ D) :
    ThirdLevel D m t ↔ ∃ s j, ρ t = .pte s j := by
  constructor
  · rintro ⟨s, hs, j, hv, rfl⟩
    obtain ⟨d, i, hs⟩ := (h.secondLevel_iff hD).mp hs
    exact ⟨s, j, (h.pmdUser s d i hs j hv).2⟩
  · rintro ⟨s, j, ht⟩
    obtain ⟨hs, hv, he⟩ := h.pteParent t s j ht
    exact ⟨s, (h.secondLevel_iff hD).mpr hs, j, hv, he⟩

/-- The entry that names a table is the one its role says. -/
theorem role_of_parent (h : Shape L base km ρ m) (hD : ∀ f, ρ f = .dir ↔ f ∈ D) {e : Ptr}
    (he : Parent D m e t) :
    (∃ d i, e = ⟨d, i⟩ ∧ ρ t = .pmd d i) ∨ ∃ s j, e = ⟨s, j⟩ ∧ ρ t = .pte s j := by
  obtain ⟨⟨hd, hi⟩ | hs, hv, rfl⟩ := he
  · exact Or.inl ⟨e.frame, e.idx, rfl, (h.dirUser _ ((hD _).mpr hd) _ hi hv).2⟩
  · obtain ⟨d, i, hs⟩ := (h.secondLevel_iff hD).mp hs
    exact Or.inr ⟨e.frame, e.idx, rfl, (h.pmdUser _ d i hs _ hv).2⟩

/-- **A table has one parent entry.** -/
theorem parent_unique (h : Shape L base km ρ m) (hD : ∀ f, ρ f = .dir ↔ f ∈ D) {e e' : Ptr}
    (he : Parent D m e t) (he' : Parent D m e' t) : e = e' := by
  rcases h.role_of_parent hD he with ⟨d, i, rfl, ht⟩ | ⟨s, j, rfl, ht⟩ <;>
    rcases h.role_of_parent hD he' with ⟨d', i', rfl, ht'⟩ | ⟨s', j', rfl, ht'⟩ <;>
    rw [ht] at ht' <;> cases ht'
  · rfl
  · rfl

/-- A table is no page. -/
theorem tableFrame_not_page (h : Shape L base km ρ m) (hD : ∀ f, ρ f = .dir ↔ f ∈ D)
    (ht : TableFrame D m t) : (ρ t).held = 1 ∧ ¬ (ρ t).IsPage ∧ ρ t ≠ .free ∧ ρ t ≠ .dir := by
  obtain ⟨e, he⟩ := tableFrame_iff.mp ht
  rcases h.role_of_parent hD he with ⟨d, i, _, hr⟩ | ⟨s, j, _, hr⟩ <;>
    simp [hr, Role.held, Role.IsPage]

end Shape

/-- **The leaves that map a frame, counted along the directories, are those counted along the
tables.** -/
theorem Forest.mappings_eq {L : Layout} {base : Nat} {km : Mem} {ρ : Nat → Role} {p : Phys}
    {dirs : Finset Nat} (h : Forest L base km ρ p) (hD : ∀ f, ρ f = .dir ↔ f ∈ dirs) (f : Nat) :
    mappings dirs p.mem f = leafCount ρ p.mem f := by
  -- the word a page of a directory is mapped by
  let word : Nat × Page → Nat × Fin 512 := fun x =>
    (ppn (p.mem (ppn (p.mem x.1 x.2.1)) x.2.2.1), x.2.2.2)
  have hmem : ∀ x : Nat × Page, x ∈ (dirs ×ˢ (Finset.univ : Finset Page)).filter (fun x =>
        2 ≤ x.2.1.val ∧ (space p.mem x.1 x.2).map ppn = some f) ↔
      ρ x.1 = .dir ∧ 2 ≤ x.2.1.val ∧ ∃ u, Leads ρ x.1 x.2 u ∧ Valid (p.mem u x.2.2.2) ∧
        ppn (p.mem u x.2.2.2) = f := by
    intro x
    simp only [Finset.mem_filter, Finset.mem_product, Finset.mem_univ, and_true, ← hD]
    refine and_congr_right fun hd => and_congr_right fun hg => ?_
    constructor
    · intro hs
      obtain ⟨w, hw, hwf⟩ := Option.map_eq_some_iff.mp hs
      obtain ⟨u, hu, rfl, hv⟩ := h.toShape.leads_of_space hd hg hw
      exact ⟨u, hu, hv, hwf⟩
    · rintro ⟨u, hu, hv, hf⟩
      rw [h.toShape.space_of_leads hu, if_pos hv]
      exact congrArg some hf
  have hword : ∀ {x : Nat × Page} {u : Nat}, Leads ρ x.1 x.2 u → word x = (u, x.2.2.2) := by
    intro x u hu
    exact Prod.ext (h.walk_of_leads hu).2.2 rfl
  unfold mappings leafCount RefCount.refs
  refine Finset.card_bij (fun x _ => word x) ?_ ?_ ?_
  · intro x hx
    obtain ⟨_, _, u, hu, hv, hf⟩ := (hmem x).mp hx
    obtain ⟨t, _, hut⟩ := id hu
    rw [hword hu, Finset.mem_filter]
    refine ⟨mem_words.mpr (h.lt_npage (by simp [hut])), ?_⟩
    rw [leafTarget_of_pte hut, if_pos hv, hf]
  · -- a word belongs to one page of one directory
    intro x hx y hy he
    obtain ⟨_, _, u, hu, _⟩ := (hmem x).mp hx
    obtain ⟨_, _, v, hv, _⟩ := (hmem y).mp hy
    rw [hword hu, hword hv] at he
    obtain ⟨rfl, hk⟩ := Prod.mk.inj he
    obtain ⟨h1, h2, h3⟩ := Shape.leads_inj hu hv
    exact Prod.ext h1 (Prod.ext h2 (Prod.ext h3 hk))
  · rintro ⟨u, k⟩ ha
    obtain ⟨_, ha⟩ := Finset.mem_filter.mp ha
    by_cases hu : ∃ t j, ρ u = .pte t j
    · obtain ⟨t, j, hu⟩ := hu
      rw [leafTarget_of_pte hu] at ha
      split at ha
      · rename_i hv
        obtain ⟨⟨d, i, ht⟩, _⟩ := h.pteParent u t j hu
        obtain ⟨hi, hd, _⟩ := h.pmdParent t d i ht
        have hlead : Leads ρ d (i, j, k) u := ⟨t, ht, hu⟩
        exact ⟨(d, i, j, k), (hmem _).mpr ⟨hd, hi, u, hlead, hv, Option.some.inj ha⟩, hword hlead⟩
      · cases ha
    · simp only [not_exists] at hu
      rw [leafTarget_of_not_pte hu] at ha
      cases ha

end RaspiOS
