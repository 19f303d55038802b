/-
# Address spaces over shared pages

What paging is for, without tables, counters or free lists.  There are spaces; each maps addresses to
pages, several addresses may map one page, and a page has contents for as long as something maps it.

The operations are the ones a kernel offers: a word is written, an address is bound to a page that is
new or that exists, an address is unbound, a space is created and destroyed.  `Memory` holds nothing
that cannot be observed, so two levels of a design that agree about memory have equal ones.
-/
import Mathlib.Logic.Function.Basic

set_option autoImplicit false

namespace Spaces

variable {S V P A I W : Type}

/-- **Spaces, and the pages that they map.** -/
@[ext] structure Memory (S V P A I W : Type) where
  space : S → Option (V → Option (P × A))
  page : P → Option (I → W)
  page_iff : ∀ p, (page p).isSome ↔ ∃ s σ v a, space s = some σ ∧ σ v = some (p, a)

namespace Memory

/-- Address `v` of space `s` maps page `p`. -/
def Maps (m : Memory S V P A I W) (s : S) (v : V) (p : P) (a : A) : Prop :=
  ∃ σ, m.space s = some σ ∧ σ v = some (p, a)

/-- The space is there. -/
def Live (m : Memory S V P A I W) (s : S) : Prop := (m.space s).isSome

/-- Memory from spaces and from the contents of all pages there could be. -/
noncomputable def make (space : S → Option (V → Option (P × A))) (contents : P → I → W) :
    Memory S V P A I W where
  space := space
  page := fun p =>
    open Classical in
    if ∃ s σ v a, space s = some σ ∧ σ v = some (p, a) then some (contents p) else none
  page_iff := by
    intro p
    split
    · rename_i h
      simpa using h
    · rename_i h
      simpa using h

variable {m : Memory S V P A I W} {space space' : S → Option (V → Option (P × A))}
  {r r' : P → I → W} {s t : S} {u v : V} {p q : P} {a b : A} {i : I} {w : W} {c d : I → W}

/-! ## 1. Pages and what maps them -/

theorem Maps.live (h : m.Maps s v p a) : m.Live s := by
  obtain ⟨σ, hσ, _⟩ := h
  exact Option.isSome_iff_exists.mpr ⟨σ, hσ⟩

/-- A page exists exactly as long as it is mapped. -/
theorem exists_page_iff : (∃ c, m.page p = some c) ↔ ∃ s v a, m.Maps s v p a := by
  rw [← Option.isSome_iff_exists, m.page_iff]
  exact ⟨fun ⟨s, σ, v, a, h⟩ => ⟨s, v, a, σ, h⟩, fun ⟨s, v, a, σ, h⟩ => ⟨s, σ, v, a, h⟩⟩

theorem Maps.page (h : m.Maps s v p a) : ∃ c, m.page p = some c :=
  exists_page_iff.mpr ⟨s, v, a, h⟩

theorem not_maps (h : m.page p = none) : ¬ m.Maps s v p a := by
  intro hm
  obtain ⟨c, hc⟩ := hm.page
  rw [h] at hc
  cases hc

/-- The contents of a page that is mapped. -/
theorem page_make (h : (make space r).Maps s v p a) : (make space r).page p = some (r p) := by
  obtain ⟨σ, hσ, hv⟩ := h
  exact if_pos ⟨s, σ, v, a, hσ, hv⟩

/-- **Only what is mapped matters.** -/
theorem make_congr (hs : space = space')
    (hr : ∀ s v p a, (make space r).Maps s v p a → r p = r' p) : make space r = make space' r' := by
  subst hs
  refine Memory.ext rfl (funext fun p => ?_)
  by_cases h : ∃ s σ v a, space s = some σ ∧ σ v = some (p, a)
  · obtain ⟨s, σ, v, a, hσ, hv⟩ := h
    have hm : (make space r).Maps s v p a := ⟨σ, hσ, hv⟩
    have hm' : (make space r').Maps s v p a := ⟨σ, hσ, hv⟩
    rw [page_make hm, page_make hm', hr s v p a hm]
  · exact (if_neg h).trans (if_neg h).symm

/-- The contents of the pages that are mapped. -/
theorem page_of_make (h : (make space r).page p = some c) : r p = c := by
  obtain ⟨s, v, a, hm⟩ := exists_page_iff.mp ⟨c, h⟩
  exact Option.some.inj ((page_make hm).symm.trans h)

/-- An operation that maps nothing new changes no contents. -/
theorem page_of_fewer (hold : ∀ t u b, (make space fun q => (m.page q).getD d).Maps t u q b →
      m.Maps t u q b) (h : (make space fun q => (m.page q).getD d).page q = some c) :
    m.page q = some c := by
  obtain ⟨t, u, b, hm⟩ := exists_page_iff.mp ⟨c, h⟩
  obtain ⟨c', hc'⟩ := (hold t u b hm).page
  have hc := page_of_make h
  rw [hc'] at hc ⊢
  exact congrArg some hc

/-- Every word of every page has the property. -/
def Fed (m : Memory S V P A I W) (good : W → Prop) : Prop :=
  ∀ p c, m.page p = some c → ∀ i, good (c i)

variable {good : W → Prop}

/-! ## 2. Words -/

section Words

variable [DecidableEq P] [DecidableEq I]

/-- A word of a page is written. -/
def write (m : Memory S V P A I W) (p : P) (i : I) (w : W) : Memory S V P A I W where
  space := m.space
  page := fun q => (m.page q).map fun c => if q = p then Function.update c i w else c
  page_iff := by
    intro q
    rw [Option.isSome_map]
    exact m.page_iff q

theorem page_write (h : m.page q = some c) :
    (m.write p i w).page q = some (if q = p then Function.update c i w else c) :=
  Option.map_eq_some_iff.mpr ⟨c, h, rfl⟩

theorem Fed.write (h : m.Fed good) (hw : good w) : (m.write p i w).Fed good := by
  intro q c' hq j
  obtain ⟨c, hc, rfl⟩ := Option.map_eq_some_iff.mp hq
  split
  · rw [Function.update_apply]
    split
    exacts [hw, h q c hc j]
  · exact h q c hc j

end Words

/-! ## 3. Addresses -/

section Addresses

variable [DecidableEq S] [DecidableEq V]

/-- The spaces, with another page or none at address `v` of `s`. -/
def rebind (space : S → Option (V → Option (P × A))) (s : S) (v : V) (x : Option (P × A)) :
    S → Option (V → Option (P × A)) :=
  fun t => (space t).map fun σ u => if t = s ∧ u = v then x else σ u

/-- Address `v` is bound to page `p`, which has contents `c` if it is new. -/
noncomputable def bind (m : Memory S V P A I W) (s : S) (v : V) (p : P) (a : A) (c : I → W) :
    Memory S V P A I W :=
  make (rebind m.space s v (some (p, a))) fun q => (m.page q).getD c

/-- Address `v` is unbound. -/
noncomputable def unbind [Zero W] (m : Memory S V P A I W) (s : S) (v : V) : Memory S V P A I W :=
  make (rebind m.space s v none) fun q => (m.page q).getD fun _ => 0

theorem maps_rebind {x : Option (P × A)} : (make (rebind m.space s v x) r).Maps t u q b ↔
    m.Live t ∧ (t = s ∧ u = v ∧ x = some (q, b) ∨ ¬ (t = s ∧ u = v) ∧ m.Maps t u q b) := by
  constructor
  · rintro ⟨σ', hσ', hu⟩
    obtain ⟨σ, hσ, rfl⟩ := Option.map_eq_some_iff.mp hσ'
    refine ⟨Option.isSome_iff_exists.mpr ⟨σ, hσ⟩, ?_⟩
    dsimp only at hu
    split at hu
    · rename_i h
      exact Or.inl ⟨h.1, h.2, hu⟩
    · rename_i h
      exact Or.inr ⟨h, σ, hσ, hu⟩
  · rintro ⟨hlive, h⟩
    obtain ⟨σ, hσ⟩ := Option.isSome_iff_exists.mp hlive
    refine ⟨_, Option.map_eq_some_iff.mpr ⟨σ, hσ, rfl⟩, ?_⟩
    rcases h with ⟨rfl, rfl, rfl⟩ | ⟨hne, σ', hσ', hu⟩
    · exact if_pos ⟨rfl, rfl⟩
    · cases hσ.symm.trans hσ'
      exact (if_neg hne).trans hu

/-- Another space keeps its pages. -/
theorem Maps.bind (h : m.Maps t u q b) (hne : t ≠ s) : (m.bind s v p a c).Maps t u q b :=
  maps_rebind.mpr ⟨h.live, Or.inr ⟨fun hc => hne hc.1, h⟩⟩

theorem Live.bind (h : m.Live t) : (m.bind s v p a c).Live t := by
  obtain ⟨σ, hσ⟩ := Option.isSome_iff_exists.mp h
  exact Option.isSome_iff_exists.mpr ⟨_, Option.map_eq_some_iff.mpr ⟨σ, hσ, rfl⟩⟩

/-- After an address has been bound, a page holds what it held, or is the new one. -/
theorem page_bind (h : (m.bind s v p a c).page q = some d) :
    m.page q = some d ∨ m.page q = none ∧ q = p ∧ d = c := by
  have hd := page_of_make h
  cases hq : m.page q with
  | some c' => exact Or.inl (by rw [← hd, hq]; rfl)
  | none =>
    obtain ⟨t, u, b, hm⟩ := exists_page_iff.mp ⟨d, h⟩
    rcases (maps_rebind.mp hm).2 with ⟨_, _, hx⟩ | ⟨_, hm'⟩
    · exact Or.inr ⟨rfl, (Prod.mk.inj (Option.some.inj hx)).1.symm, by rw [← hd, hq]; rfl⟩
    · exact absurd hm' (not_maps hq)

theorem page_unbind [Zero W] (h : (m.unbind s v).page q = some c) : m.page q = some c :=
  page_of_fewer (fun t u b hm => by
    rcases (maps_rebind.mp hm).2 with ⟨_, _, hx⟩ | ⟨_, hm'⟩
    · cases hx
    · exact hm') h

theorem Fed.bind (h : m.Fed good) (hc : m.page p = none → ∀ i, good (c i)) :
    (m.bind s v p a c).Fed good := by
  intro q d hq j
  rcases page_bind hq with hold | ⟨hnew, rfl, rfl⟩
  exacts [h q d hold j, hc hnew j]

theorem Fed.unbind [Zero W] (h : m.Fed good) : (m.unbind s v).Fed good :=
  fun q c hq => h q c (page_unbind hq)

end Addresses

/-! ## 4. Spaces -/

section Spaces

variable [DecidableEq S] [Zero W]

/-- A space that maps nothing. -/
noncomputable def create (m : Memory S V P A I W) (s : S) : Memory S V P A I W :=
  make (Function.update m.space s (some fun _ => none)) fun q => (m.page q).getD fun _ => 0

/-- The end of a space. -/
noncomputable def destroy (m : Memory S V P A I W) (s : S) : Memory S V P A I W :=
  make (Function.update m.space s none) fun q => (m.page q).getD fun _ => 0

theorem Maps.create (h : m.Maps t u q b) (hs : ¬ m.Live s) : (m.create s).Maps t u q b := by
  have hne : t ≠ s := by
    rintro rfl
    exact hs h.live
  obtain ⟨σ, hσ, hu⟩ := h
  exact ⟨σ, (Function.update_of_ne hne _ _).trans hσ, hu⟩

theorem live_create : (m.create s).Live s :=
  Option.isSome_iff_exists.mpr ⟨_, Function.update_self _ _ _⟩

omit [Zero W] in
/-- A space that is replaced by one without addresses, or by none, maps nothing more. -/
theorem maps_of_update {x : Option (V → Option (P × A))} (hx : ∀ σ, x = some σ → ∀ u, σ u = none)
    (h : (make (Function.update m.space s x) r).Maps t u q b) : m.Maps t u q b := by
  obtain ⟨σ, hσ, hu⟩ := h
  change Function.update m.space s x t = some σ at hσ
  rcases eq_or_ne t s with rfl | hne
  · rw [Function.update_self] at hσ
    rw [hx σ hσ u] at hu
    cases hu
  · rw [Function.update_of_ne hne] at hσ
    exact ⟨σ, hσ, hu⟩

theorem page_create (h : (m.create s).page q = some c) : m.page q = some c :=
  page_of_fewer (fun _ _ _ => maps_of_update fun _ hσ _ => by cases hσ; rfl) h

theorem page_destroy (h : (m.destroy s).page q = some c) : m.page q = some c :=
  page_of_fewer (fun _ _ _ => maps_of_update fun _ hσ _ => by cases hσ) h

theorem Fed.create (h : m.Fed good) : (m.create s).Fed good :=
  fun q c hq => h q c (page_create hq)

theorem Fed.destroy (h : m.Fed good) : (m.destroy s).Fed good :=
  fun q c hq => h q c (page_destroy hq)

end Spaces

end Memory

end Spaces
