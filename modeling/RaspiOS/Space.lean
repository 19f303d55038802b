/-
# Address spaces

What a directory is for: it maps pages to leaf descriptors.  `space` reads that map off the
tables, and this module proves that, on a forest and in the user half, the operations of
`Pmap.lean` are operations on the map: `page_lookup` reads it, `page_remove` clears one page of
it, `page_insert` sets one page of it or reports that memory has run out, and none of them touches
the map of another directory.

What an operation on directory `d` may change is said by `Local`: tables of `d`, frames that were
free, and at most one page given back to the free list.
-/
import RaspiOS.Forest

set_option autoImplicit false

namespace RaspiOS

open LinkedList

/-! ## 1. The map of a directory -/

/-- A page of virtual memory, by its three index fields. -/
abbrev Page := Fin 512 × Fin 512 × Fin 512

/-- The page an address lies in. -/
def pageOf (va : Nat) : Page := (pudx va, pmdx va, ptex va)

/-- **The address space of a directory**: the valid leaf that maps a page, if there is one. -/
def space (m : Mem) (d : Nat) (g : Page) : Option Nat :=
  if Valid (m d g.1) then
    if Valid (m (ppn (m d g.1)) g.2.1) then
      if Valid (m (ppn (m (ppn (m d g.1)) g.2.1)) g.2.2) then
        some (m (ppn (m (ppn (m d g.1)) g.2.1)) g.2.2)
      else none
    else none
  else none

/-- Table `u` holds the entry of page `g` of directory `d`. -/
def Leads (ρ : Nat → Role) (d : Nat) (g : Page) (u : Nat) : Prop :=
  ∃ t, ρ t = .pmd d g.1 ∧ ρ u = .pte t g.2.1

/-- The directory `d` itself and the tables below its user half. -/
def Owns (ρ : Nat → Role) (d f : Nat) : Prop :=
  f = d ∨ (∃ i, ρ f = .pmd d i) ∨ ∃ t j i, ρ f = .pte t j ∧ ρ t = .pmd d i

theorem Leads.owns {ρ : Nat → Role} {d u : Nat} {g : Page} (h : Leads ρ d g u) : Owns ρ d u := by
  obtain ⟨t, ht, hu⟩ := h
  exact Or.inr (Or.inr ⟨t, g.2.1, g.1, hu, ht⟩)

namespace Shape

variable {L : Layout} {base : Nat} {km : Mem} {ρ : Nat → Role} {m : Mem} {d u v : Nat} {g : Page}

theorem pmd_unique (h : Shape L base km ρ m) {t t' : Nat} {i : Fin 512} (ht : ρ t = .pmd d i)
    (ht' : ρ t' = .pmd d i) : t = t' := by
  rw [← (h.pmdParent t d i ht).2.2.2, ← (h.pmdParent t' d i ht').2.2.2]

/-- A page has one entry. -/
theorem leads_unique (h : Shape L base km ρ m) (hu : Leads ρ d g u) (hv : Leads ρ d g v) :
    u = v := by
  obtain ⟨t, ht, hut⟩ := hu
  obtain ⟨t', ht', hvt⟩ := hv
  obtain rfl := h.pmd_unique ht ht'
  rw [← (h.pteParent u t g.2.1 hut).2.2, ← (h.pteParent v t g.2.1 hvt).2.2]

/-- A table belongs to one directory and one range of pages. -/
theorem leads_inj {ρ : Nat → Role} {d d' u : Nat} {g g' : Page} (hu : Leads ρ d g u)
    (hu' : Leads ρ d' g' u) : d = d' ∧ g.1 = g'.1 ∧ g.2.1 = g'.2.1 := by
  obtain ⟨t, ht, hut⟩ := hu
  obtain ⟨t', ht', hut'⟩ := hu'
  rw [hut] at hut'
  injection hut' with h1 h2
  subst h1
  rw [ht] at ht'
  injection ht' with h3 h4
  exact ⟨h3, h4, h2⟩

/-- The entry of a page, found by following descriptors. -/
theorem walk_of_leads (h : Shape L base km ρ m) (hu : Leads ρ d g u) :
    Valid (m d g.1) ∧ Valid (m (ppn (m d g.1)) g.2.1) ∧
      ppn (m (ppn (m d g.1)) g.2.1) = u := by
  obtain ⟨t, ht, hut⟩ := hu
  obtain ⟨_, _, h1, h2⟩ := h.pmdParent t d g.1 ht
  obtain ⟨_, h3, h4⟩ := h.pteParent u t g.2.1 hut
  rw [h2]
  exact ⟨h1, h3, h4⟩

/-- Following valid descriptors from a directory leads to the entry of the page. -/
theorem leads_of_valid (h : Shape L base km ρ m) (hd : ρ d = .dir) (hg : 2 ≤ g.1.val)
    (h1 : Valid (m d g.1)) (h2 : Valid (m (ppn (m d g.1)) g.2.1)) :
    Leads ρ d g (ppn (m (ppn (m d g.1)) g.2.1)) := by
  have ht := (h.dirUser d hd g.1 hg h1).2
  exact ⟨_, ht, (h.pmdUser _ d g.1 ht g.2.1 h2).2⟩

theorem space_of_leads (h : Shape L base km ρ m) (hu : Leads ρ d g u) :
    space m d g = if Valid (m u g.2.2) then some (m u g.2.2) else none := by
  obtain ⟨h1, h2, h3⟩ := h.walk_of_leads hu
  rw [space, if_pos h1, if_pos h2, h3]

theorem space_of_not_leads (h : Shape L base km ρ m) (hd : ρ d = .dir) (hg : 2 ≤ g.1.val)
    (hu : ∀ u, ¬ Leads ρ d g u) : space m d g = none := by
  unfold space
  split
  · rename_i h1
    split
    · rename_i h2
      exact absurd (h.leads_of_valid hd hg h1 h2) (hu _)
    · rfl
  · rfl

/-- A mapped page has an entry, and it holds the leaf. -/
theorem leads_of_space (h : Shape L base km ρ m) (hd : ρ d = .dir) (hg : 2 ≤ g.1.val) {w : Nat}
    (hw : space m d g = some w) : ∃ u, Leads ρ d g u ∧ m u g.2.2 = w ∧ Valid w := by
  by_cases hu : ∃ u, Leads ρ d g u
  · obtain ⟨u, hu⟩ := hu
    rw [h.space_of_leads hu] at hw
    split at hw
    · rename_i hv
      cases hw
      exact ⟨u, hu, rfl, hv⟩
    · cases hw
  · rw [h.space_of_not_leads hd hg (not_exists.mp hu)] at hw
    cases hw

/-- What a mapped page maps is a page. -/
theorem page_of_space (h : Shape L base km ρ m) (hd : ρ d = .dir) (hg : 2 ≤ g.1.val) {w : Nat}
    (hw : space m d g = some w) : IsTable w ∧ (ρ (ppn w)).IsPage := by
  obtain ⟨u, ⟨t, _, hut⟩, rfl, hv⟩ := h.leads_of_space hd hg hw
  exact h.leaf u t g.2.1 hut g.2.2 hv

end Shape

/-! ## 2. What an operation on one directory may change -/

/-- **The frame condition** of an operation on directory `d`. -/
structure Local (ρ : Nat → Role) (d : Nat) (p : Phys) (ρ' : Nat → Role) (p' : Phys) : Prop where
  /-- a frame in use keeps its role, or is a page given back -/
  role : ∀ f, ρ f ≠ .free → ρ' f = ρ f ∨ (ρ f = .data ∧ ρ' f = .free)
  /-- a free frame stays free, becomes a page or becomes a table of `d` -/
  fresh : ∀ f, ρ f = .free → ρ' f = .free ∨ ρ' f = .data ∨ Owns ρ' d f
  /-- memory in use changes in `d` and its tables only -/
  mem : ∀ f, ρ f ≠ .free → ¬ Owns ρ d f → p'.mem f = p.mem f

/-- An operation that gives nothing back. -/
def Keeps (ρ ρ' : Nat → Role) : Prop := ∀ f, ρ f ≠ .free → ρ' f = ρ f

namespace Local

variable {L : Layout} {base : Nat} {km : Mem} {ρ ρ' ρ'' : Nat → Role} {p p' p'' : Phys} {d f : Nat}

theorem refl (ρ : Nat → Role) (d : Nat) (p : Phys) : Local ρ d p ρ p :=
  ⟨fun _ _ => Or.inl rfl, fun _ hf => Or.inl hf, fun _ _ _ => rfl⟩

/-- A role that is neither free nor a page survives. -/
theorem table (h : Local ρ d p ρ' p') (hfree : ρ f ≠ .free) (hdata : ρ f ≠ .data) :
    ρ' f = ρ f := by
  rcases h.role f hfree with h1 | ⟨h1, _⟩
  · exact h1
  · exact absurd h1 hdata

/-- Owned frames stay owned. -/
theorem owns (h : Local ρ d p ρ' p') {e : Nat} (hf : Owns ρ e f) : Owns ρ' e f := by
  rcases hf with rfl | ⟨i, hi⟩ | ⟨t, j, i, hj, hi⟩
  · exact Or.inl rfl
  · exact Or.inr (Or.inl ⟨i, by rw [h.table (by simp [hi]) (by simp [hi]), hi]⟩)
  · exact Or.inr (Or.inr ⟨t, j, i, by rw [h.table (by simp [hj]) (by simp [hj]), hj],
      by rw [h.table (by simp [hi]) (by simp [hi]), hi]⟩)

/-- A frame in use that is owned afterwards was owned before. -/
theorem owns_back (h : Local ρ d p ρ' p') (hs : Shape L base km ρ p.mem) {e : Nat}
    (hfree : ρ f ≠ .free) (hf : Owns ρ' e f) : Owns ρ e f := by
  have hback : ∀ g r, r ≠ .free → ρ g ≠ .free → ρ' g = r → ρ g = r := by
    intro g r hr hg hg'
    rcases h.role g hg with h1 | ⟨_, h1⟩
    · rw [← h1, hg']
    · rw [h1] at hg'
      exact absurd hg'.symm hr
  rcases hf with rfl | ⟨i, hi⟩ | ⟨t, j, i, hj, hi⟩
  · exact Or.inl rfl
  · exact Or.inr (Or.inl ⟨i, hback f _ (by simp) hfree hi⟩)
  · have hj' := hback f _ (by simp) hfree hj
    obtain ⟨⟨d', i', ht⟩, _⟩ := hs.pteParent f t j hj'
    exact Or.inr (Or.inr ⟨t, j, i, hj', hback t _ (by simp) (by simp [ht]) hi⟩)

/-- Two operations compose when the first gives nothing back. -/
theorem trans (h : Local ρ d p ρ' p') (hs : Shape L base km ρ p.mem) (hk : Keeps ρ ρ')
    (h' : Local ρ' d p' ρ'' p'') : Local ρ d p ρ'' p'' where
  role := by
    intro f hf
    have h1 := hk f hf
    have h2 := h'.role f (by rw [h1]; exact hf)
    rwa [h1] at h2
  fresh := by
    intro f hf
    rcases h.fresh f hf with h1 | h1 | h1
    · exact h'.fresh f h1
    · rcases h'.role f (by simp [h1]) with h2 | ⟨_, h2⟩
      · exact Or.inr (Or.inl (by rw [h2, h1]))
      · exact Or.inl h2
    · exact Or.inr (Or.inr (h'.owns h1))
  mem := by
    intro f hf hown
    have hf' : ρ' f ≠ .free := by rw [hk f hf]; exact hf
    have hown' : ¬ Owns ρ' d f := fun ho => hown (h.owns_back hs hf ho)
    rw [h'.mem f hf' hown', h.mem f hf hown]

/-- They also compose when the second changes no role. -/
theorem transMem (h : Local ρ d p ρ' p') (hs : Shape L base km ρ p.mem)
    (hm : ∀ f, ¬ Owns ρ' d f → p''.mem f = p'.mem f) : Local ρ d p ρ' p'' where
  role := h.role
  fresh := h.fresh
  mem := by
    intro f hf hown
    rw [hm f (fun ho => hown (h.owns_back hs hf ho)), h.mem f hf hown]

end Local

theorem Keeps.trans {ρ ρ' ρ'' : Nat → Role} (h : Keeps ρ ρ') (h' : Keeps ρ' ρ'') :
    Keeps ρ ρ'' := by
  intro f hf
  rw [h' f (by rw [h f hf]; exact hf), h f hf]

/-- An entry found before an operation is found after it. -/
theorem Leads.of_local {ρ ρ' : Nat → Role} {p p' : Phys} {d e u : Nat} {g : Page}
    (hu : Leads ρ e g u) (h : Local ρ d p ρ' p') : Leads ρ' e g u := by
  obtain ⟨t, ht, hut⟩ := hu
  exact ⟨t, by rw [h.table (by simp [ht]) (by simp [ht]), ht],
    by rw [h.table (by simp [hut]) (by simp [hut]), hut]⟩

/-- An address space depends on its entries and their words. -/
theorem Shape.space_congr {L : Layout} {base : Nat} {km : Mem} {ρ ρ' : Nat → Role} {m m' : Mem}
    {e : Nat} {g : Page} (h : Shape L base km ρ m) (h' : Shape L base km ρ' m') (he : ρ e = .dir)
    (he' : ρ' e = .dir) (hg : 2 ≤ g.1.val)
    (hfwd : ∀ u, Leads ρ e g u → Leads ρ' e g u ∧ m' u g.2.2 = m u g.2.2)
    (hbwd : ∀ u, Leads ρ' e g u → Leads ρ e g u ∨ ¬ Valid (m' u g.2.2)) :
    space m' e g = space m e g := by
  by_cases hu : ∃ u, Leads ρ e g u
  · obtain ⟨u, hu⟩ := hu
    obtain ⟨hu', hm⟩ := hfwd u hu
    rw [h.space_of_leads hu, h'.space_of_leads hu', hm]
  · rw [not_exists] at hu
    rw [h.space_of_not_leads he hg hu]
    by_cases hu' : ∃ u, Leads ρ' e g u
    · obtain ⟨u, hu'⟩ := hu'
      rcases hbwd u hu' with h1 | h1
      · exact absurd h1 (hu u)
      · rw [h'.space_of_leads hu', if_neg h1]
    · exact h'.space_of_not_leads he' hg (not_exists.mp hu')

/-! ## 3. The walk -/

/-- **Tables were added under `d`**, `n` of them, and no address space changed. -/
structure Grown (L : Layout) (base : Nat) (km : Mem) (ρ : Nat → Role) (d : Nat) (p : Phys)
    (n : Nat) (ρ' : Nat → Role) (p' : Phys) : Prop where
  forest : Forest L base km ρ' p'
  frame : Local ρ d p ρ' p'
  keeps : Keeps ρ ρ'
  ppRef : ∀ f, ρ f ≠ .free → p'.ppRef f = p.ppRef f
  space : ∀ e g, ρ e = .dir → 2 ≤ g.1.val → space p'.mem e g = space p.mem e g
  taken : ∀ l, IsList p.pageFreeList () l → n ≤ l.length ∧ IsList p'.pageFreeList () (l.drop n)

section Walk

variable {L : Layout} {base : Nat} {km : Mem} {ρ ρ' ρ'' : Nat → Role} {p p' p'' : Phys}
  {d t u va : Nat} {i j : Fin 512} {g : Page}

theorem Grown.refl (h : Forest L base km ρ p) (d : Nat) : Grown L base km ρ d p 0 ρ p :=
  ⟨h, Local.refl ρ d p, fun _ _ => rfl, fun _ _ => rfl, fun _ _ _ _ => rfl,
    fun _ hl => ⟨Nat.zero_le _, hl⟩⟩

theorem Grown.trans {n k : Nat} (h : Forest L base km ρ p) (h1 : Grown L base km ρ d p n ρ' p')
    (h2 : Grown L base km ρ' d p' k ρ'' p'') : Grown L base km ρ d p (n + k) ρ'' p'' where
  forest := h2.forest
  frame := h1.frame.trans h.toShape h1.keeps h2.frame
  keeps := h1.keeps.trans h2.keeps
  ppRef := by
    intro f hf
    rw [h2.ppRef f (by rw [h1.keeps f hf]; exact hf), h1.ppRef f hf]
  space := by
    intro e g he hg
    rw [h2.space e g (by rw [h1.keeps e (by simp [he]), he]) hg, h1.space e g he hg]
  taken := by
    intro l hl
    obtain ⟨hn, hl1⟩ := h1.taken l hl
    obtain ⟨hk, hl2⟩ := h2.taken _ hl1
    rw [List.length_drop] at hk
    rw [List.drop_drop] at hl2
    exact ⟨by omega, hl2⟩

/-- A frame taken from the free list and linked as a table of `d`. -/
theorem Grown.ofTable (h : Forest L base km ρ p) {f : Nat} {r : Role} {a : Ptr}
    (hfree : ρ f = .free) (h' : Forest L base km (Function.update ρ f r) p')
    (hown : Owns (Function.update ρ f r) d f) (ha : Owns ρ d a.frame) (haf : a.frame ≠ f)
    (hmem : ∀ g k, p'.mem g k = if g = a.frame ∧ k = a.idx then tableDesc f
      else if g = f then 0 else p.mem g k)
    (hnp : ∀ t j, ρ a.frame ≠ .pte t j)
    (hlinks : ∀ e g u, Leads (Function.update ρ f r) e g u → Leads ρ e g u ∨ u = f)
    (href : ∀ g, g ≠ f → p'.ppRef g = p.ppRef g) (hfirst : p.pageFreeList.first () = some f)
    (hlist : p'.pageFreeList = p.pageFreeList.remove f) :
    Grown L base km ρ d p 1 (Function.update ρ f r) p' := by
  have hne : ∀ g, ρ g ≠ .free → g ≠ f := by
    rintro g hg rfl
    exact hg hfree
  have hrole : ∀ g, ρ g ≠ .free → Function.update ρ f r g = ρ g :=
    fun g hg => Function.update_of_ne (hne g hg) _ _
  have hkeep : ∀ e g u, Leads ρ e g u → Leads (Function.update ρ f r) e g u := by
    rintro e g u ⟨t, ht, hu⟩
    exact ⟨t, by rw [hrole t (by simp [ht]), ht], by rw [hrole u (by simp [hu]), hu]⟩
  refine ⟨h', ⟨fun g hg => Or.inl (hrole g hg), ?_, ?_⟩, hrole, fun g hg => href g (hne g hg), ?_,
    ?_⟩
  · intro g hg
    by_cases hgf : g = f
    · exact Or.inr (Or.inr (hgf ▸ hown))
    · exact Or.inl (by rw [Function.update_of_ne hgf, hg])
  · intro g hg hown'
    funext k
    rw [hmem, if_neg, if_neg (hne g hg)]
    rintro ⟨rfl, _⟩
    exact hown' ha
  · intro e g he hg
    refine h.toShape.space_congr h'.toShape he (by rw [hrole e (by simp [he]), he]) hg ?_ ?_
    · intro u hu
      refine ⟨hkeep e g u hu, ?_⟩
      obtain ⟨t, _, hut⟩ := hu
      rw [hmem, if_neg, if_neg (hne u (by simp [hut]))]
      rintro ⟨he', _⟩
      exact hnp _ _ (he' ▸ hut)
    · intro u hu
      rcases hlinks e g u hu with h1 | rfl
      · exact Or.inl h1
      · refine Or.inr ?_
        rw [hmem, if_neg (fun hc => haf hc.1.symm), if_pos rfl]
        exact not_valid_zero
  · intro l hl
    obtain ⟨l', rfl⟩ := hl.eq_cons hfirst
    rw [hlist]
    exact ⟨Nat.succ_le_succ (Nat.zero_le _), hl.remove_head⟩

/-- The first level of the walk. -/
theorem Forest.descendPmd (h : Forest L base km ρ p) (hd : ρ d = .dir) (hi : 2 ≤ i.val) :
    (∃ t n ρ' p', p.descend ⟨d, i⟩ true = (some t, p') ∧ ρ' t = .pmd d i ∧
      Grown L base km ρ d p n ρ' p' ∧ (n = if Valid (p.mem d i) then 0 else 1) ∧
      (¬ Valid (p.mem d i) → ∀ j, ¬ Valid (p'.mem t j))) ∨
    (p.descend ⟨d, i⟩ true = (none, p) ∧ ¬ Valid (p.mem d i) ∧
      p.pageFreeList.first () = none) := by
  rcases p.descend_cases ⟨d, i⟩ with ⟨hv, he⟩ | ⟨hv, hp, he⟩ | ⟨f, q, hv, hp, he⟩
  · left
    exact ⟨ppn (p.mem d i), 0, ρ, p, he, (h.dirUser d hd i hi hv).2, Grown.refl h d,
      (if_pos hv).symm, fun hn => absurd hv hn⟩
  · exact Or.inr ⟨he, hv, Phys.pageAlloc_eq_none.mp hp⟩
  · left
    obtain ⟨h1, hfree, href, hq⟩ := h.take hp
    have hdf : d ≠ f := by
      rintro rfl
      rw [hfree] at hd
      cases hd
    have h2 := h1.linkPmd (d := d) (i := i) (Function.update_self _ _ _)
      (by rw [href, h.ppRef_free hfree]) (fun k => by rw [hq, if_pos rfl])
      (by rw [Function.update_of_ne hdf, hd]) hi (by rw [hq, if_neg hdf]; exact hv)
    rw [Function.update_idem] at h2
    obtain ⟨hfirst, hqe⟩ := Phys.pageAlloc_eq_some hp
    refine ⟨f, 1, Function.update ρ f (.pmd d i), (q.store ⟨d, i⟩ (tableDesc f)).incRef f, he,
      Function.update_self _ _ _, ?_, (if_neg hv).symm, fun _ k => ?_⟩
    · refine Grown.ofTable h (a := ⟨d, i⟩) hfree h2
        (Or.inr (Or.inl ⟨i, Function.update_self _ _ _⟩)) (Or.inl rfl) hdf ?_ (by simp [hd]) ?_ ?_
        hfirst (by rw [Phys.pageFreeList_incRef, Phys.pageFreeList_store, hqe])
      · intro g k
        rw [Phys.mem_incRef, Phys.mem_store, hq]
      · rintro e g u ⟨t, ht, hu⟩
        obtain ⟨_, hu'⟩ := role_of_update (by simp) hu
        obtain ⟨⟨d', i', ht'⟩, _⟩ := h.pteParent u t g.2.1 hu'
        have htf : t ≠ f := by
          rintro rfl
          rw [hfree] at ht'
          cases ht'
        rw [Function.update_of_ne htf] at ht
        exact Or.inl ⟨t, ht, hu'⟩
      · intro g hg
        rw [Phys.ppRef_incRef, if_neg hg, Phys.ppRef_store, href]
    · rw [Phys.mem_incRef, Phys.mem_store, if_neg (fun hc => hdf hc.1.symm), hq, if_pos rfl]
      exact not_valid_zero

/-- The second level of the walk. -/
theorem Forest.descendPte (h : Forest L base km ρ p) (ht : ρ t = .pmd d i) :
    (∃ u n ρ' p', p.descend ⟨t, j⟩ true = (some u, p') ∧ ρ' u = .pte t j ∧
      Grown L base km ρ d p n ρ' p' ∧ n = if Valid (p.mem t j) then 0 else 1) ∨
    (p.descend ⟨t, j⟩ true = (none, p) ∧ ¬ Valid (p.mem t j) ∧
      p.pageFreeList.first () = none) := by
  rcases p.descend_cases ⟨t, j⟩ with ⟨hv, he⟩ | ⟨hv, hp, he⟩ | ⟨f, q, hv, hp, he⟩
  · left
    exact ⟨ppn (p.mem t j), 0, ρ, p, he, (h.pmdUser t d i ht j hv).2, Grown.refl h d,
      (if_pos hv).symm⟩
  · exact Or.inr ⟨he, hv, Phys.pageAlloc_eq_none.mp hp⟩
  · left
    obtain ⟨h1, hfree, href, hq⟩ := h.take hp
    have htf : t ≠ f := by
      rintro rfl
      rw [hfree] at ht
      cases ht
    have h2 := h1.linkPte (t := t) (d := d) (i := i) (j := j) (Function.update_self _ _ _)
      (by rw [href, h.ppRef_free hfree]) (fun k => by rw [hq, if_pos rfl])
      (by rw [Function.update_of_ne htf, ht]) (by rw [hq, if_neg htf]; exact hv)
    rw [Function.update_idem] at h2
    obtain ⟨hfirst, hqe⟩ := Phys.pageAlloc_eq_some hp
    refine ⟨f, 1, Function.update ρ f (.pte t j), (q.store ⟨t, j⟩ (tableDesc f)).incRef f, he,
      Function.update_self _ _ _, ?_, (if_neg hv).symm⟩
    · refine Grown.ofTable h (a := ⟨t, j⟩) hfree h2
        (Or.inr (Or.inr ⟨t, j, i, Function.update_self _ _ _, ?_⟩)) (Or.inr (Or.inl ⟨i, ht⟩)) htf
        ?_ (by simp [ht]) ?_ ?_ hfirst
        (by rw [Phys.pageFreeList_incRef, Phys.pageFreeList_store, hqe])
      · rw [Function.update_of_ne htf, ht]
      · intro g k
        rw [Phys.mem_incRef, Phys.mem_store, hq]
      · rintro e g u ⟨t', ht', hu⟩
        obtain ⟨_, ht'⟩ := role_of_update (by simp) ht'
        by_cases huf : u = f
        · exact Or.inr huf
        · rw [Function.update_of_ne huf] at hu
          exact Or.inl ⟨t', ht', hu⟩
      · intro g hg
        rw [Phys.ppRef_incRef, if_neg hg, Phys.ppRef_store, href]

/-- **The walk that may create** adds what is missing, or stops when memory has run out. -/
theorem Forest.pgdirWalk (h : Forest L base km ρ p) (hd : ρ d = .dir)
    (hva : 2 ≤ (pudx va).val) :
    (∃ u n ρ' p', p.pgdirWalk d va true = ((0, ⟨u, ptex va⟩), p') ∧ Leads ρ' d (pageOf va) u ∧
      Grown L base km ρ d p n ρ' p' ∧ n ≤ 2 ∧ (¬ Valid (p.mem d (pudx va)) → n = 2)) ∨
    (∃ n ρ' p', p.pgdirWalk d va true = ((-eNoMem, .null), p') ∧
      (∀ u, ¬ Leads ρ d (pageOf va) u) ∧ p'.pageFreeList.first () = none ∧
      Grown L base km ρ d p n ρ' p' ∧ n ≤ 1) := by
  rcases h.descendPmd (i := pudx va) hd hva with
    ⟨t, n1, ρ1, p1, he1, ht, hg1, hn1, hempty⟩ | ⟨he1, hv1, hn1⟩
  · have hle1 : n1 ≤ 1 := by rw [hn1]; split <;> omega
    rcases hg1.forest.descendPte (j := pmdx va) ht with
      ⟨u, n2, ρ2, p2, he2, hu, hg2, hn2⟩ | ⟨he2, hv2, hn2⟩
    · left
      have hle2 : n2 ≤ 1 := by rw [hn2]; split <;> omega
      refine ⟨u, n1 + n2, ρ2, p2, ?_, ⟨t, ?_, hu⟩, hg1.trans h hg2, by omega, ?_⟩
      · simp only [Phys.pgdirWalk, he1, he2]
      · rw [hg2.keeps t (by simp [ht]), ht]
        rfl
      · intro hv
        rw [if_neg hv] at hn1
        -- a table that has just been made is empty, so the second level is missing too
        rw [if_neg (hempty hv (pmdx va))] at hn2
        omega
    · right
      refine ⟨n1, ρ1, p1, ?_, ?_, hn2, hg1, hle1⟩
      · simp only [Phys.pgdirWalk, he1, he2]
      · intro u hu
        obtain ⟨t', ht', hu'⟩ := hu.of_local hg1.frame
        obtain rfl := hg1.forest.pmd_unique ht ht'
        exact hv2 (hg1.forest.pteParent u t _ hu').2.1
  · right
    refine ⟨0, ρ, p, ?_, ?_, hn1, Grown.refl h d, Nat.zero_le _⟩
    · simp only [Phys.pgdirWalk, he1]
    · rintro u ⟨t, ht, _⟩
      exact hv1 (h.pmdParent t d _ ht).2.2.1

/-- A walk along tables that exist changes nothing. -/
theorem Forest.pgdirWalk_of_leads (h : Forest L base km ρ p) (hu : Leads ρ d (pageOf va) u)
    (create : Bool) : p.pgdirWalk d va create = ((0, ⟨u, ptex va⟩), p) := by
  obtain ⟨h1, h2, h3⟩ := h.walk_of_leads hu
  simp only [pageOf] at h1 h2 h3
  simp only [Phys.pgdirWalk, Phys.descend, Phys.load, h1, h2, if_true, h3]

/-- The pointer a walk without creation yields. -/
theorem Forest.walk_of_leads' (h : Forest L base km ρ p) (hu : Leads ρ d (pageOf va) u) :
    p.walk d va = ⟨u, ptex va⟩ := by
  rw [Phys.walk, h.pgdirWalk_of_leads hu]

theorem Forest.walk_of_not_leads (h : Forest L base km ρ p) (hd : ρ d = .dir)
    (hva : 2 ≤ (pudx va).val) (hu : ∀ u, ¬ Leads ρ d (pageOf va) u) : p.walk d va = .null := by
  rw [Phys.walk_eq]
  split
  · rename_i h1
    split
    · rename_i h2
      exact absurd (h.leads_of_valid (g := pageOf va) hd hva h1 h2) (hu _)
    · rfl
  · rfl

/-- A table is no null pointer. -/
theorem Forest.leads_ne_null (h : Forest L base km ρ p) (hu : Leads ρ d g u) (k : Fin 512) :
    (⟨u, k⟩ : Ptr) ≠ .null := by
  obtain ⟨t, _, hut⟩ := hu
  have hb := h.base_le (f := u) (by simp [hut])
  have hK := h.map.le_base
  intro he
  have hz : u = 0 := congrArg Ptr.frame he
  omega

/-! ## 4. Other directories -/

/-- Tables of different directories are different. -/
theorem Leads.not_owns {e : Nat} (hu : Leads ρ e g u) (hd : ρ d = .dir) (hne : e ≠ d) :
    ¬ Owns ρ d u := by
  obtain ⟨t, ht, hut⟩ := hu
  rintro (rfl | ⟨i, hi⟩ | ⟨t', j, i, hj, hi⟩)
  · rw [hd] at hut
    cases hut
  · rw [hi] at hut
    cases hut
  · rw [hut] at hj
    injection hj with h1 h2
    rw [← h1, ht] at hi
    injection hi with h3 h4
    exact hne h3

/-- **An operation on one directory leaves the address spaces of the others alone.** -/
theorem Local.space_other (hl : Local ρ d p ρ' p') (h : Forest L base km ρ p)
    (h' : Forest L base km ρ' p') (hd : ρ d = .dir) {e : Nat} (he : ρ e = .dir) (hne : e ≠ d)
    (hg : 2 ≤ g.1.val) : space p'.mem e g = space p.mem e g := by
  have hrole : ∀ f, ρ f = .dir → ρ' f = .dir := by
    intro f hf
    rw [hl.table (by simp [hf]) (by simp [hf]), hf]
  refine h.toShape.space_congr h'.toShape he (hrole e he) hg ?_ ?_
  · intro u hu
    refine ⟨hu.of_local hl, ?_⟩
    rw [hl.mem u ?_ (hu.not_owns hd hne)]
    obtain ⟨t, _, hut⟩ := hu
    simp [hut]
  · intro u hu
    left
    have hback : ∀ f, (∃ t j, ρ' f = .pte t j) ∨ (∃ i, ρ' f = .pmd e i) → ¬ Owns ρ' d f →
        ρ f = ρ' f := by
      intro f hf hown
      by_cases hfree : ρ f = .free
      · rcases hl.fresh f hfree with h1 | h1 | h1
        · rcases hf with ⟨t, j, hf⟩ | ⟨i, hf⟩ <;> rw [hf] at h1 <;> cases h1
        · rcases hf with ⟨t, j, hf⟩ | ⟨i, hf⟩ <;> rw [hf] at h1 <;> cases h1
        · exact absurd h1 hown
      · rcases hl.role f hfree with h1 | ⟨_, h1⟩
        · exact h1.symm
        · rcases hf with ⟨t, j, hf⟩ | ⟨i, hf⟩ <;> rw [hf] at h1 <;> cases h1
    have hnu := hu.not_owns (hrole d hd) hne
    obtain ⟨t, ht, hut⟩ := hu
    have hnt : ¬ Owns ρ' d t := by
      rintro (rfl | ⟨i, hi⟩ | ⟨t', j, i, hj, _⟩)
      · rw [hrole _ hd] at ht
        cases ht
      · rw [ht] at hi
        injection hi with h1 h2
        exact hne h1
      · rw [ht] at hj
        cases hj
    exact ⟨t, by rw [hback t (Or.inr ⟨_, ht⟩) hnt, ht],
      by rw [hback u (Or.inl ⟨_, _, hut⟩) hnu, hut]⟩

/-! ## 5. The operations on a mapping -/

/-- The permission word does not change the frame number it is OR-ed to. -/
def PermOk (pp perm : Nat) : Prop := ppn (leafDesc pp perm) = pp

/-- **`page_lookup` reads the address space.** -/
theorem Forest.pageLookup (h : Forest L base km ρ p) (hd : ρ d = .dir) (hva : 2 ≤ (pudx va).val) :
    (space p.mem d (pageOf va) = none ∧ p.pageLookup d va = .ok none) ∨
    ∃ u, Leads ρ d (pageOf va) u ∧ Valid (p.mem u (ptex va)) ∧
      space p.mem d (pageOf va) = some (p.mem u (ptex va)) ∧
      p.pageLookup d va = .ok (some (ppn (p.mem u (ptex va)), ⟨u, ptex va⟩)) := by
  by_cases hu : ∃ u, Leads ρ d (pageOf va) u
  · obtain ⟨u, hu⟩ := hu
    have hw := h.walk_of_leads' hu
    have hs : space p.mem d (pageOf va)
        = if Valid (p.mem u (ptex va)) then some (p.mem u (ptex va)) else none :=
      h.space_of_leads hu
    by_cases hv : Valid (p.mem u (ptex va))
    · right
      refine ⟨u, hu, hv, by rw [hs, if_pos hv], ?_⟩
      have hpage : (ρ (ppn (p.mem u (ptex va)))).IsPage := by
        obtain ⟨t, _, hut⟩ := hu
        exact h.page_of_leaf hut hv
      have hlt : ppn (p.mem u (ptex va)) < npage :=
        h.lt_npage (by rintro he; rw [he] at hpage; exact hpage)
      simp only [Phys.pageLookup, hw, h.leads_ne_null hu, if_false, Phys.load, hv,
        not_true_eq_false, pa2page, not_le.mpr hlt]
      rfl
    · left
      refine ⟨by rw [hs, if_neg hv], ?_⟩
      simp only [Phys.pageLookup, hw, h.leads_ne_null hu, if_false, Phys.load, hv,
        not_false_eq_true, if_true]
  · left
    rw [not_exists] at hu
    refine ⟨h.space_of_not_leads hd hva hu, ?_⟩
    simp only [Phys.pageLookup, h.walk_of_not_leads hd hva hu, if_true]

/-- What one store to the entry of a page does to the address space. -/
theorem space_store {ρ' : Nat → Role} {m' : Mem} (h : Shape L base km ρ p.mem)
    (h' : Shape L base km ρ' m') (hd : ρ d = .dir) (hd' : ρ' d = .dir)
    (hu : Leads ρ d (pageOf va) u) {w : Nat}
    (hm : ∀ f i, m' f i = if f = u ∧ i = ptex va then w else p.mem f i)
    (hrole : ∀ f, (∃ t j, ρ f = .pte t j) ∨ (∃ d i, ρ f = .pmd d i) ∨
      (∃ t j, ρ' f = .pte t j) ∨ (∃ d i, ρ' f = .pmd d i) → ρ' f = ρ f)
    (hg : 2 ≤ g.1.val) :
    space m' d g = if g = pageOf va then (if Valid w then some w else none)
      else space p.mem d g := by
  have hlead : ∀ g v, Leads ρ d g v → Leads ρ' d g v := by
    rintro g v ⟨t, ht, hv⟩
    exact ⟨t, by rw [hrole t (Or.inr (Or.inl ⟨_, _, ht⟩)), ht],
      by rw [hrole v (Or.inl ⟨_, _, hv⟩), hv]⟩
  have hlead' : ∀ g v, Leads ρ' d g v → Leads ρ d g v := by
    rintro g v ⟨t, ht, hv⟩
    exact ⟨t, by rw [← hrole t (Or.inr (Or.inr (Or.inr ⟨_, _, ht⟩))), ht],
      by rw [← hrole v (Or.inr (Or.inr (Or.inl ⟨_, _, hv⟩))), hv]⟩
  by_cases hgp : g = pageOf va
  · subst hgp
    have hmu : m' u (pageOf va).2.2 = w := by
      rw [hm]
      exact if_pos ⟨rfl, rfl⟩
    rw [if_pos rfl, h'.space_of_leads (hlead _ _ hu), hmu]
  · rw [if_neg hgp]
    refine h.space_congr h' hd hd' hg ?_ (fun v hv => Or.inl (hlead' g v hv))
    intro v hv
    refine ⟨hlead g v hv, ?_⟩
    rw [hm, if_neg]
    rintro ⟨rfl, hk⟩
    obtain ⟨_, h1, h2⟩ := Shape.leads_inj hv hu
    exact hgp (Prod.ext h1 (Prod.ext h2 hk))

/-- **`page_remove` clears one page of the address space.** -/
theorem Forest.pageRemove (h : Forest L base km ρ p) (hd : ρ d = .dir) (hva : 2 ≤ (pudx va).val) :
    ∃ ρ' p', p.pageRemove d va = .ok p' ∧ Forest L base km ρ' p' ∧ Local ρ d p ρ' p' ∧
      (∀ g : Page, 2 ≤ g.1.val →
        space p'.mem d g = if g = pageOf va then none else space p.mem d g) ∧
      ∀ f, (∀ w, space p.mem d (pageOf va) = some w → f ≠ ppn w) →
        ρ' f = ρ f ∧ p'.ppRef f = p.ppRef f := by
  rcases h.pageLookup hd hva with ⟨hs, he⟩ | ⟨u, hu, hv, hs, he⟩
  · refine ⟨ρ, p, ?_, h, Local.refl ρ d p, ?_, fun _ _ => ⟨rfl, rfl⟩⟩
    · simp only [Phys.pageRemove, he]
      rfl
    · intro g _
      by_cases hg : g = pageOf va
      · rw [if_pos hg, hg, hs]
      · rw [if_neg hg]
  · obtain ⟨t, ht, hut⟩ := id hu
    set f := ppn (p.mem u (ptex va)) with hf
    have hpos : 0 < p.ppRef f := by
      have h1 := h.leafCount_pos hut hv
      have hpage := h.page_of_leaf hut hv
      have h2 := h.count _ (h.lt_npage (by rintro hk; rw [hk] at hpage; exact hpage))
      rw [← hf] at h1 h2
      omega
    have hown : ∀ q : Phys, ∀ e, ¬ Owns ρ d e → (q.store ⟨u, ptex va⟩ 0).mem e = q.mem e := by
      intro q e hne
      funext k
      rw [Phys.mem_store, if_neg]
      rintro ⟨rfl, _⟩
      exact hne hu.owns
    have hclear : ∀ {ρ' : Nat → Role} {p' : Phys}, Forest L base km ρ' p' → ρ' d = .dir →
        (∀ f i, p'.mem f i = if f = u ∧ i = ptex va then 0 else p.mem f i) →
        (∀ f, (∃ t j, ρ f = .pte t j) ∨ (∃ d i, ρ f = .pmd d i) ∨
          (∃ t j, ρ' f = .pte t j) ∨ (∃ d i, ρ' f = .pmd d i) → ρ' f = ρ f) →
        ∀ g : Page, 2 ≤ g.1.val →
          space p'.mem d g = if g = pageOf va then none else space p.mem d g := by
      intro ρ' p' h' hd' hm hr g hg
      rw [space_store h.toShape h'.toShape hd hd' hu hm hr hg, if_neg not_valid_zero]
    by_cases hlast : p.ppRef f = 1
    · obtain ⟨hdata, h'⟩ := h.clearLastLeaf hut hv hlast
      rw [← hf] at hdata h'
      have h0 : (p.decRef f).ppRef f = 0 := by
        rw [Phys.ppRef_decRef, if_pos rfl, hlast]
        rfl
      have hrole : ∀ e, ρ e ≠ .data → Function.update ρ f .free e = ρ e := by
        intro e hne
        refine Function.update_of_ne ?_ _ _
        rintro rfl
        exact hne hdata
      refine ⟨_, _, ?_, h', ⟨?_, ?_, ?_⟩, ?_, ?_⟩
      · simp only [Phys.pageRemove, he, bind, Except.bind, h0, if_true]
        rfl
      · intro e _
        by_cases hef : e = f
        · rw [hef, Function.update_self]
          exact Or.inr ⟨hdata, rfl⟩
        · exact Or.inl (Function.update_of_ne hef _ _)
      · intro e he'
        exact Or.inl (by rw [hrole e (by simp [he']), he'])
      · intro e _ hne
        rw [hown _ e hne, Phys.mem_pageFree, Phys.mem_decRef]
      · refine hclear h' (by rw [hrole d (by simp [hd]), hd]) ?_ ?_
        · intro e i
          rw [Phys.mem_store, Phys.mem_pageFree, Phys.mem_decRef]
        · rintro e (⟨t, j, h1⟩ | ⟨t, j, h1⟩ | ⟨t, j, h1⟩ | ⟨t, j, h1⟩)
          · exact hrole e (by simp [h1])
          · exact hrole e (by simp [h1])
          · exact h1.trans (role_of_update (by simp) h1).2.symm
          · exact h1.trans (role_of_update (by simp) h1).2.symm
      · intro e hne
        have hef : e ≠ f := hne _ hs
        refine ⟨Function.update_of_ne hef _ _, ?_⟩
        rw [Phys.ppRef_store, Phys.ppRef_pageFree, Phys.ppRef_decRef, if_neg hef]
    · have hmore : 2 ≤ p.ppRef f := by omega
      have h' := h.clearLeaf hut hv hmore
      rw [← hf] at h'
      have hb := h.bound f
      have h0 : (p.decRef f).ppRef f ≠ 0 := by
        rw [Phys.ppRef_decRef, if_pos rfl]
        omega
      refine ⟨ρ, _, ?_, h', ⟨fun _ _ => Or.inl rfl, fun _ hk => Or.inl hk, ?_⟩, ?_, ?_⟩
      · simp only [Phys.pageRemove, he, bind, Except.bind, h0, if_false]
        rfl
      · intro e _ hne
        rw [hown _ e hne, Phys.mem_decRef]
      · refine hclear h' hd ?_ (fun _ _ => rfl)
        intro e i
        rw [Phys.mem_store, Phys.mem_decRef]
      · intro e hne
        refine ⟨rfl, ?_⟩
        rw [Phys.ppRef_store, Phys.ppRef_decRef, if_neg (hne _ hs)]

/-- The leaf `page_insert` stores, where the tables exist and the page is not mapped. -/
theorem Forest.enterLeaf (h : Forest L base km ρ p) (hd : ρ d = .dir)
    (hu : Leads ρ d (pageOf va) u) (hnone : space p.mem d (pageOf va) = none) {pp perm : Nat}
    (hpp : (ρ pp).IsPage) (hlt : p.ppRef pp < 2 ^ 16 - 1) (hperm : PermOk pp perm) :
    let p' := (p.store ⟨u, ptex va⟩ (leafDesc pp perm)).incRef pp
    Forest L base km ρ p' ∧ (∀ f, ¬ Owns ρ d f → p'.mem f = p.mem f) ∧
      ∀ g : Page, 2 ≤ g.1.val → space p'.mem d g
        = if g = pageOf va then some (leafDesc pp perm) else space p.mem d g := by
  obtain ⟨t, _, hut⟩ := id hu
  have hppn : ppn (leafDesc pp perm) = pp := hperm
  have hempty : ¬ Valid (p.mem u (ptex va)) := by
    intro hv
    have hs : space p.mem d (pageOf va)
        = if Valid (p.mem u (ptex va)) then some (p.mem u (ptex va)) else none :=
      h.space_of_leads hu
    rw [hnone, if_pos hv] at hs
    cases hs
  have h' := h.setLeaf hut hempty (isTable_leafDesc pp perm) (by rw [hppn]; exact hpp)
    (by rw [hppn]; exact hlt)
  rw [hppn] at h'
  refine ⟨h', ?_, ?_⟩
  · intro f hf
    funext k
    rw [Phys.mem_incRef, Phys.mem_store, if_neg]
    rintro ⟨rfl, _⟩
    exact hf hu.owns
  · intro g hg
    rw [space_store h.toShape h'.toShape hd hd hu (fun _ _ => rfl) (fun _ _ => rfl) hg,
      if_pos (valid_leafDesc pp perm)]

/-- The tail of `page_insert`, on a page that is not mapped. -/
theorem Forest.pageEnter (h : Forest L base km ρ p) (hd : ρ d = .dir) (hva : 2 ≤ (pudx va).val)
    (hnone : space p.mem d (pageOf va) = none) {pp perm : Nat}
    (hpp : (ρ pp).IsPage) (hlt : p.ppRef pp < 2 ^ 16 - 1) (hperm : PermOk pp perm) :
    (∃ ρ' p', p.pageEnter d pp va perm = (0, p') ∧ Forest L base km ρ' p' ∧ Local ρ d p ρ' p' ∧
      (∀ g : Page, 2 ≤ g.1.val → space p'.mem d g
        = if g = pageOf va then some (leafDesc pp perm) else space p.mem d g) ∧
      Keeps ρ ρ' ∧ ∃ n ≤ 2, (¬ Valid (p.mem d (pudx va)) → n = 2) ∧
        ∀ l, IsList p.pageFreeList () l → n ≤ l.length ∧ IsList p'.pageFreeList () (l.drop n)) ∨
    (∃ n ρ' p', p.pageEnter d pp va perm = (-eNoMem, p') ∧ Grown L base km ρ d p n ρ' p' ∧
      n ≤ 1 ∧ p'.pageFreeList.first () = none ∧ ∀ u, ¬ Leads ρ d (pageOf va) u) := by
  have huse : ρ pp ≠ .free := by
    rintro he
    rw [he] at hpp
    exact hpp
  rcases h.pgdirWalk hd hva with
    ⟨u, n, ρ1, p1, he, hu, hg, hn2, htwo⟩ | ⟨n, ρ1, p1, he, hu, hn, hg, hle⟩
  · left
    have hd1 : ρ1 d = .dir := by rw [hg.keeps d (by simp [hd]), hd]
    obtain ⟨h2, hm2, hs2⟩ := hg.forest.enterLeaf hd1 hu
      (by rw [hg.space d _ hd hva, hnone]) (by rw [hg.keeps pp huse]; exact hpp)
      (by rw [hg.ppRef pp huse]; exact hlt) hperm
    refine ⟨ρ1, _, ?_, h2, hg.frame.transMem h.toShape hm2, ?_, hg.keeps, n, hn2, htwo,
      hg.taken⟩
    · simp only [Phys.pageEnter, he]
      rfl
    · intro g hg'
      rw [hs2 g hg', hg.space d g hd hg']
  · right
    refine ⟨n, ρ1, p1, ?_, hg, hle, hn, hu⟩
    simp only [Phys.pageEnter, he]
    rfl

/-- What `page_insert` leaves behind when it returns zero. -/
structure Inserted (L : Layout) (base : Nat) (km : Mem) (ρ : Nat → Role) (d : Nat) (p : Phys)
    (ρ' : Nat → Role) (p' : Phys) (g₀ : Page) (w : Nat) : Prop where
  forest : Forest L base km ρ' p'
  frame : Local ρ d p ρ' p'
  space : ∀ g : Page, 2 ≤ g.1.val → space p'.mem d g = if g = g₀ then some w else space p.mem d g
  /-- if the page was not mapped, nothing was given back and two tables were made at most; exactly
  two if the directory had no entry for it -/
  fresh : RaspiOS.space p.mem d g₀ = none → Keeps ρ ρ' ∧ ∃ n ≤ 2,
    (¬ Valid (p.mem d g₀.1) → n = 2) ∧
    ∀ l, IsList p.pageFreeList () l → n ≤ l.length ∧ IsList p'.pageFreeList () (l.drop n)

/-- What `page_insert` finds where a page is mapped. -/
theorem Forest.walk_mapped (h : Forest L base km ρ p) (hu : Leads ρ d (pageOf va) u)
    (hv : Valid (p.mem u (ptex va))) :
    (p.walk d va ≠ .null ∧ Valid (p.load (p.walk d va))) ∧
      pa2page (p.load (p.walk d va)) = .ok (ppn (p.mem u (ptex va))) := by
  obtain ⟨t, _, hut⟩ := id hu
  have hpage := h.page_of_leaf hut hv
  have hlt := h.lt_npage (by rintro he; rw [he] at hpage; exact hpage)
  rw [h.walk_of_leads' hu]
  refine ⟨⟨h.leads_ne_null hu _, hv⟩, ?_⟩
  change pa2page (p.mem u (ptex va)) = _
  rw [pa2page, if_neg (not_le.mpr hlt)]

/-- Where a page is not mapped it finds no valid entry. -/
theorem Forest.walk_unmapped (h : Forest L base km ρ p) (hd : ρ d = .dir)
    (hva : 2 ≤ (pudx va).val) (hnone : space p.mem d (pageOf va) = none) :
    ¬ (p.walk d va ≠ .null ∧ Valid (p.load (p.walk d va))) := by
  by_cases hu : ∃ u, Leads ρ d (pageOf va) u
  · obtain ⟨u, hu⟩ := hu
    rw [h.walk_of_leads' hu]
    rintro ⟨_, hv⟩
    have hs : space p.mem d (pageOf va) = some (p.mem u (ptex va)) :=
      (h.space_of_leads hu).trans (if_pos hv)
    rw [hnone] at hs
    cases hs
  · rw [h.walk_of_not_leads hd hva (not_exists.mp hu)]
    exact fun hc => hc.1 rfl

/-- `page_insert` of the frame that is mapped already rewrites the entry. -/
theorem Forest.pageInsert_mapped (h : Forest L base km ρ p) (hu : Leads ρ d (pageOf va) u)
    (hv : Valid (p.mem u (ptex va))) {pp : Nat} (hsame : ppn (p.mem u (ptex va)) = pp)
    (perm : Nat) :
    p.pageInsert d pp va perm = .ok (0, p.store ⟨u, ptex va⟩ (leafDesc pp perm)) := by
  obtain ⟨hcond, hold⟩ := h.walk_mapped hu hv
  simp only [Phys.pageInsert, if_pos hcond, hold, bind, Except.bind, hsame, ne_eq,
    not_true_eq_false, if_false]
  rw [h.walk_of_leads' hu]
  rfl

/-- With a permission that leaves the frame number alone, it sets the page to what it is. -/
theorem Forest.pageInsert_same (h : Forest L base km ρ p) (hd : ρ d = .dir)
    (hu : Leads ρ d (pageOf va) u) (hv : Valid (p.mem u (ptex va))) {pp perm : Nat}
    (hsame : ppn (p.mem u (ptex va)) = pp) (hperm : PermOk pp perm) :
    p.pageInsert d pp va perm = .ok (0, p.store ⟨u, ptex va⟩ (leafDesc pp perm)) ∧
      Inserted L base km ρ d p ρ (p.store ⟨u, ptex va⟩ (leafDesc pp perm)) (pageOf va)
        (leafDesc pp perm) := by
  obtain ⟨t, _, hut⟩ := id hu
  have h' := h.refreshLeaf (w := leafDesc pp perm) hut hv (isTable_leafDesc pp perm)
    (by rw [hsame]; exact hperm)
  have hs : space p.mem d (pageOf va) = some (p.mem u (ptex va)) :=
    (h.space_of_leads hu).trans (if_pos hv)
  refine ⟨h.pageInsert_mapped hu hv hsame perm, h',
    ⟨fun _ _ => Or.inl rfl, fun _ hf => Or.inl hf, ?_⟩, ?_, fun hn => by rw [hs] at hn; cases hn⟩
  · intro f _ hf
    funext k
    rw [Phys.mem_store, if_neg]
    rintro ⟨rfl, _⟩
    exact hf hu.owns
  · intro g hg
    rw [space_store h.toShape h'.toShape hd hd hu (fun _ _ => rfl) (fun _ _ => rfl) hg,
      if_pos (valid_leafDesc pp perm)]

/-- `page_insert` where nothing is mapped. -/
theorem Forest.pageInsert_enter (h : Forest L base km ρ p) (hd : ρ d = .dir)
    (hva : 2 ≤ (pudx va).val) (hnone : space p.mem d (pageOf va) = none) (pp perm : Nat) :
    p.pageInsert d pp va perm = .ok (p.pageEnter d pp va perm) := by
  simp only [Phys.pageInsert, if_neg (h.walk_unmapped hd hva hnone)]
  rfl

/-- **`page_insert` sets one page of the address space**, or reports that memory has run out and
leaves every address space as it was. -/
theorem Forest.pageInsert (h : Forest L base km ρ p) (hd : ρ d = .dir) (hva : 2 ≤ (pudx va).val)
    {pp perm : Nat} (hpp : (ρ pp).IsPage) (hlt : p.ppRef pp < 2 ^ 16 - 1) (hperm : PermOk pp perm) :
    (∃ ρ' p', p.pageInsert d pp va perm = .ok (0, p') ∧
      Inserted L base km ρ d p ρ' p' (pageOf va) (leafDesc pp perm)) ∨
    (∃ n ρ' p', p.pageInsert d pp va perm = .ok (-eNoMem, p') ∧
      Grown L base km ρ d p n ρ' p' ∧ n ≤ 1 ∧ p'.pageFreeList.first () = none ∧
      ∀ u, ¬ Leads ρ d (pageOf va) u) := by
  cases hs : space p.mem d (pageOf va) with
  | some w =>
    left
    obtain ⟨u, hu, rfl, hv⟩ := h.toShape.leads_of_space hd hva hs
    obtain ⟨hcond, hold⟩ := h.walk_mapped hu hv
    by_cases hsame : ppn (p.mem u (ptex va)) = pp
    · exact ⟨ρ, _, h.pageInsert_same hd hu hv hsame hperm⟩
    · obtain ⟨ρ1, p1, he1, h1, hl1, hs1, hrest⟩ := h.pageRemove hd hva
      obtain ⟨hrole, href⟩ := hrest pp (by
        intro w hw'
        rw [hs] at hw'
        cases hw'
        exact fun hc => hsame hc.symm)
      have hd1 : ρ1 d = .dir := by rw [hl1.table (by simp [hd]) (by simp [hd]), hd]
      have hu1 := hu.of_local hl1
      obtain ⟨h2, hm2, hs2⟩ := h1.enterLeaf hd1 hu1
        (by rw [hs1 _ hva, if_pos rfl]) (by rw [hrole]; exact hpp) (by rw [href]; exact hlt) hperm
      refine ⟨ρ1, _, ?_, h2, hl1.transMem h.toShape hm2, ?_, ?_⟩
      · simp only [Phys.pageInsert, if_pos hcond, hold, bind, Except.bind, hsame, ne_eq,
          not_false_eq_true, if_true, he1, Phys.pageEnter, h1.pgdirWalk_of_leads hu1]
        rfl
      · intro g hg
        rw [hs2 g hg]
        by_cases hgp : g = pageOf va
        · rw [if_pos hgp, if_pos hgp]
        · rw [if_neg hgp, if_neg hgp, hs1 g hg, if_neg hgp]
      · intro hn
        rw [hs] at hn
        cases hn
  | none =>
    rw [h.pageInsert_enter hd hva hs]
    rcases h.pageEnter hd hva hs hpp hlt hperm with
      ⟨ρ1, p1, he, h1, hl1, hs1, hfresh⟩ | ⟨n, ρ1, p1, he, hg, hle, hn, hu⟩
    · exact Or.inl ⟨ρ1, p1, by rw [he], h1, hl1, hs1, fun _ => hfresh⟩
    · exact Or.inr ⟨n, ρ1, p1, by rw [he], hg, hle, hn, hu⟩

/-- `page_insert` where the tables are there and the page is not mapped: it enters whatever frame it
is given. -/
theorem Forest.pageInsert_of_leads (h : Forest L base km ρ p) (hu : Leads ρ d (pageOf va) u)
    (hv : ¬ Valid (p.mem u (ptex va))) (pp perm : Nat) :
    p.pageInsert d pp va perm
      = .ok (0, (p.store ⟨u, ptex va⟩ (leafDesc pp perm)).incRef pp) := by
  have hcond : ¬ (p.walk d va ≠ .null ∧ Valid (p.load (p.walk d va))) := by
    rw [h.walk_of_leads' hu]
    exact fun hc => hv hc.2
  simp only [Phys.pageInsert, if_neg hcond, Phys.pageEnter, h.pgdirWalk_of_leads hu]
  rfl

/-! ## 6. The walk of the hardware -/

/-- A frame that is not the kernel's lies below `npage`, and the hardware can name it. -/
theorem Shape.hwFrame_eq {m : Mem} (h : Shape L base km ρ m) {w : Nat} (hw : ρ (ppn w) ≠ .kernel) :
    hwFrame w = ppn w := by
  have hk := (h.kernel (ppn w)).not.mp hw
  refine hwFrame_of_lt ?_
  simp only [npage] at hk
  omega

/-- **In the user half the hardware sees the address space.** -/
theorem Shape.translate_user {m : Mem} (h : Shape L base km ρ m) (hd : ρ d = .dir)
    (hva : 2 ≤ (pudx va).val) :
    translate m d va = if va < 2 ^ 39 then
      (RaspiOS.space m d (pageOf va)).map (fun w => ⟨ppn w, w &&& 0xfff⟩) else none := by
  have hinv : ∀ w, ¬ Valid w → ¬ IsTable w ∧ ¬ IsBlock w :=
    fun w hw => ⟨fun ht => hw ht.valid, fun hb => hw hb.valid⟩
  unfold translate
  refine if_congr Iff.rfl ?_ rfl
  by_cases h1 : Valid (m d (pudx va))
  · obtain ⟨ht1, hr1⟩ := h.dirUser d hd (pudx va) hva h1
    have hf1 := h.hwFrame_eq (w := m d (pudx va)) (by rw [hr1]; exact (nomatch ·))
    simp only [ht1, if_true, translatePmd, space, pageOf, h1, hf1]
    by_cases h2 : Valid (m (ppn (m d (pudx va))) (pmdx va))
    · obtain ⟨ht2, hr2⟩ := h.pmdUser _ d _ hr1 (pmdx va) h2
      have hf2 := h.hwFrame_eq (w := m (ppn (m d (pudx va))) (pmdx va))
        (by rw [hr2]; exact (nomatch ·))
      simp only [ht2, if_true, translateLeaf, h2, hf2]
      by_cases h3 : Valid (m (ppn (m (ppn (m d (pudx va))) (pmdx va))) (ptex va))
      · obtain ⟨ht3, hr3⟩ := h.leaf _ _ _ hr2 (ptex va) h3
        have hf3 := h.hwFrame_eq fun hk => by rw [hk] at hr3; exact hr3
        simp only [ht3, h3, if_true, Option.map_some, hf3]
      · simp only [(hinv _ h3).1, h3, if_false, Option.map_none]
    · simp only [(hinv _ h2).1, (hinv _ h2).2, h2, if_false, Option.map_none]
  · simp only [(hinv _ h1).1, (hinv _ h1).2, space, pageOf, h1, if_false, Option.map_none]

/-- What it finds there is a page. -/
theorem Shape.page_of_translate {m : Mem} (h : Shape L base km ρ m) (hd : ρ d = .dir)
    (hva : 2 ≤ (pudx va).val) {a : Translation} (ha : translate m d va = some a) :
    (ρ a.frame).IsPage := by
  rw [h.translate_user hd hva] at ha
  split at ha
  · obtain ⟨w, hw, rfl⟩ := Option.map_eq_some_iff.mp ha
    exact (h.page_of_space hd hva hw).2
  · cases ha

/-- What the hardware finds where a third-level entry has just been written. -/
theorem Forest.translate_store_leaf (h : Forest L base km ρ p) (hd : ρ d = .dir)
    (hu : Leads ρ d (pageOf va) u) (hva : 2 ≤ (pudx va).val) (hlt : va < 2 ^ 39) {w : Nat}
    (hw : IsTable w) :
    translate (p.store ⟨u, ptex va⟩ w).mem d va = some ⟨hwFrame w, w &&& 0xfff⟩ := by
  obtain ⟨h1, h2, h3⟩ := h.walk_of_leads hu
  obtain ⟨t, ht, hut⟩ := hu
  obtain ⟨ht1, hr1⟩ := h.dirUser d hd _ hva h1
  obtain ⟨ht2, _⟩ := h.pmdUser _ d _ hr1 _ h2
  have hdu : d ≠ u := by
    rintro rfl
    rw [hd] at hut
    cases hut
  have htu : ppn (p.mem d (pudx va)) ≠ u := by
    intro hc
    rw [hc, hut] at hr1
    cases hr1
  have hmd : (p.store ⟨u, ptex va⟩ w).mem d (pudx va) = p.mem d (pudx va) := by
    rw [Phys.mem_store, if_neg (fun hc => hdu hc.1)]
  have hmt : (p.store ⟨u, ptex va⟩ w).mem (ppn (p.mem d (pudx va))) (pmdx va)
      = p.mem (ppn (p.mem d (pudx va))) (pmdx va) := by
    rw [Phys.mem_store, if_neg (fun hc => htu hc.1)]
  have h3' : ppn (p.mem (ppn (p.mem d (pudx va))) (pmdx va)) = u := h3
  have ht2' : IsTable (p.mem (ppn (p.mem d (pudx va))) (pmdx va)) := ht2
  have hw1 := h.hwFrame_eq (w := p.mem d (pudx va)) (by rw [hr1]; exact (nomatch ·))
  have hw2 := (h.hwFrame_eq (by rw [h3', hut]; exact (nomatch ·))).trans h3'
  simp only [translate, hlt, if_true, hmd, ht1, translatePmd, hw1, hmt, ht2', hw2, translateLeaf,
    Phys.mem_store_self, hw]

/-- Boot maps nothing in the user half. -/
theorem KernelMap.translate_none (h : KernelMap L km base) (hva : 2 ≤ (pudx va).val) :
    translate km L.pgDir va = none := by
  have hv := h.dir_user _ hva
  have ht : ¬ IsTable (km L.pgDir (pudx va)) := fun hc => hv hc.valid
  have hb : ¬ IsBlock (km L.pgDir (pudx va)) := fun hc => hv hc.valid
  simp only [translate, ht, hb, if_false, ite_self]

/-- A block of the device window is no table. -/
theorem not_isTable_deviceBlock (r : Nat) : ¬ IsTable (Boot.deviceBlock r) := by
  have h0 : (r <<< 21) &&& 3 = 0 := by
    have h1 := Nat.and_two_pow_sub_one_eq_mod (r <<< 21) 2
    rw [show (2 : Nat) ^ 2 - 1 = 3 from rfl] at h1
    rw [h1, Nat.shiftLeft_eq]
    omega
  have h1 : Boot.deviceBlock r &&& 3 = 1 := by
    have h2 : Boot.deviceBlock r = (r <<< 21) ||| 0x445 := by
      simp only [Boot.deviceBlock, Nat.or_assoc]
      rfl
    rw [h2, Nat.and_or_distrib_right, h0]
    rfl
  rw [IsTable, h1]
  decide

/-- Table descriptors in the second-level tables of the kernel name tables of the kernel. -/
theorem KernelMap.pmd_closed (h : KernelMap L km base) {t : Nat}
    (ht : t = L.pgDir + 1 ∨ t = L.pgDir + 506) (j : Fin 512) (hj : IsTable (km t j)) :
    L.pgDir ≤ ppn (km t j) ∧ ppn (km t j) < base ∧ hwFrame (km t j) = ppn (km t j) := by
  have hb := h.le_base
  have hK := L.fits
  rcases ht with rfl | rfl
  · by_cases hr : j.val < 504
    · rw [h.ram_table j hr, ppn_tableDesc, hwFrame_tableDesc (by omega)]
      omega
    · rw [h.ram_block j (by omega)] at hj
      exact absurd hj (not_isTable_deviceBlock _)
  · by_cases hz : j = 0
    · rw [hz, h.window_block] at hj
      exact absurd hj (not_isTable_deviceBlock _)
    · rcases h.window j hz with hv | ⟨u, hu, h1, h2, h3⟩
      · exact absurd hj.valid hv
      · have hN : npage = 0x40000 := rfl
        rw [hu, ppn_tableDesc, hwFrame_tableDesc (by omega)]
        omega

/-- The two entries of `_pg_dir` below the user half. -/
theorem KernelMap.dir_low (h : KernelMap L km base) {i : Fin 512} (hi : ¬ 2 ≤ i.val) :
    ∃ t, km L.pgDir i = tableDesc t ∧ hwFrame (km L.pgDir i) = t ∧
      (t = L.pgDir + 1 ∨ t = L.pgDir + 506) := by
  have hK := L.fits
  rcases Nat.lt_or_ge i.val 1 with h0 | h1
  · have hz : i = 0 := Fin.ext (by simp only [Fin.val_zero]; omega)
    refine ⟨_, by rw [hz, h.dir_ram], ?_, Or.inl rfl⟩
    rw [hz, h.dir_ram, hwFrame_tableDesc (by omega)]
  · have ho : i = 1 := Fin.ext (by simp only [Fin.val_one]; omega)
    refine ⟨_, by rw [ho, h.dir_window], ?_, Or.inr rfl⟩
    rw [ho, h.dir_window, hwFrame_tableDesc (by omega)]

/-- The second-level tables of the kernel, and the third-level ones below them, as boot left them. -/
theorem Shape.translatePmd_low {m : Mem} (h : Shape L base km ρ m) {t : Nat}
    (ht : t = L.pgDir + 1 ∨ t = L.pgDir + 506) : translatePmd m t va = translatePmd km t va := by
  have hb := h.map.le_base
  have hmt : m t = km t := h.kernelMem t (by omega) (by omega)
  simp only [translatePmd, hmt]
  by_cases hj : IsTable (km t (pmdx va))
  · obtain ⟨hlo, hhi, hfr⟩ := h.map.pmd_closed ht (pmdx va) hj
    simp only [hj, if_true, translateLeaf, hfr, h.kernelMem _ hlo hhi]
  · simp only [hj, if_false]

/-- **Below the user half every directory sees what `_pg_dir` maps.** -/
theorem Shape.translate_low {m : Mem} (h : Shape L base km ρ m) (hd : ρ d = .dir)
    (hva : ¬ 2 ≤ (pudx va).val) : translate m d va = translate km L.pgDir va := by
  obtain ⟨t, hdir, hfr, ht⟩ := h.map.dir_low hva
  have hlow := h.dirLow d hd (pudx va) (not_le.mp hva)
  have htable : IsTable (km L.pgDir (pudx va)) := hdir ▸ isTable_tableDesc t
  simp only [translate, hlow, htable, if_true, hfr, h.translatePmd_low ht]

/-- `_pg_dir` itself keeps its translations. -/
theorem Shape.translate_pgDir {m : Mem} (h : Shape L base km ρ m) :
    translate m L.pgDir va = translate km L.pgDir va := by
  have hb := h.map.le_base
  have hm : m L.pgDir = km L.pgDir := h.kernelMem _ (le_refl _) (by omega)
  unfold translate
  rw [hm]
  refine if_congr Iff.rfl ?_ rfl
  by_cases hi : 2 ≤ (pudx va).val
  · have hv := h.map.dir_user (pudx va) hi
    have ht : ¬ IsTable (km L.pgDir (pudx va)) := fun hc => hv hc.valid
    have hbl : ¬ IsBlock (km L.pgDir (pudx va)) := fun hc => hv hc.valid
    simp only [ht, hbl, if_false]
  · obtain ⟨t, hdir, hfr, ht⟩ := h.map.dir_low hi
    have htable : IsTable (km L.pgDir (pudx va)) := hdir ▸ isTable_tableDesc t
    simp only [htable, if_true, hfr, h.translatePmd_low ht]

/-- **An operation on one directory changes no translation of another**, at any address. -/
theorem Local.translate_other (hl : Local ρ d p ρ' p') (h : Forest L base km ρ p)
    (h' : Forest L base km ρ' p') (hd : ρ d = .dir) {e : Nat} (he : ρ e = .dir) (hne : e ≠ d) :
    translate p'.mem e va = translate p.mem e va := by
  have he' : ρ' e = .dir := by rw [hl.table (by simp [he]) (by simp [he]), he]
  by_cases hva : 2 ≤ (pudx va).val
  · rw [h.translate_user he hva, h'.translate_user he' hva,
      hl.space_other (g := pageOf va) h h' hd he hne hva]
  · rw [h.translate_low he hva, h'.translate_low he' hva]

end Walk

end RaspiOS
