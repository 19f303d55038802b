/-
# States of the frames that agree on what the page operations look at

The page operations read the user half of a directory, its tables, and the counters of pages and
tables.  What the kernel keeps below the pool, the two entries of a directory that are not in the user
half and the counter of the directory itself make no difference to them.  `Agree` says of two states
that they differ in such words and counters only, and each operation takes agreeing states to agreeing
states, with the same answer.  So a fact proved of a state with the kernel's own tables in place holds
of any state that agrees with it.
-/
import RaspiOS.Space

set_option autoImplicit false

namespace RaspiOS

open LinkedList

/-- **Agreement** on the words in `C`, the counters in `R` and the free list. -/
structure Agree (C : Nat → Fin 512 → Prop) (R : Nat → Prop) (p q : Phys) : Prop where
  mem : ∀ f i, C f i → p.mem f i = q.mem f i
  ppRef : ∀ f, R f → p.ppRef f = q.ppRef f
  list : p.pageFreeList = q.pageFreeList

namespace Agree

variable {C : Nat → Fin 512 → Prop} {R : Nat → Prop} {p q q' : Phys} {pud pp va perm : Nat}

/-- Less is seen. -/
theorem mono {C' : Nat → Fin 512 → Prop} {R' : Nat → Prop} (h : Agree C R p q)
    (hC : ∀ f i, C' f i → C f i) (hR : ∀ f, R' f → R f) : Agree C' R' p q :=
  ⟨fun f i hf => h.mem f i (hC f i hf), fun f hf => h.ppRef f (hR f hf), h.list⟩

/-! ## 1. Single accesses

They do the same to both states, whether or not it can be seen. -/

theorem store (h : Agree C R p q) (a : Ptr) (w : Nat) : Agree C R (p.store a w) (q.store a w) where
  mem := by
    intro f i hf
    rw [Phys.mem_store, Phys.mem_store, h.mem f i hf]
  ppRef := h.ppRef
  list := h.list

theorem incRef (h : Agree C R p q) (g : Nat) : Agree C R (p.incRef g) (q.incRef g) where
  mem := h.mem
  ppRef := by
    intro f hf
    rw [Phys.ppRef_incRef, Phys.ppRef_incRef]
    split
    · rename_i he
      rw [← he, h.ppRef f hf]
    · exact h.ppRef f hf
  list := h.list

theorem decRef (h : Agree C R p q) (g : Nat) : Agree C R (p.decRef g) (q.decRef g) where
  mem := h.mem
  ppRef := by
    intro f hf
    rw [Phys.ppRef_decRef, Phys.ppRef_decRef]
    split
    · rename_i he
      rw [← he, h.ppRef f hf]
    · exact h.ppRef f hf
  list := h.list

/-- `page_free` looks at the counter. -/
theorem pageFree (h : Agree C R p q) {f : Nat} (hf : R f) :
    Agree C R (p.pageFree f) (q.pageFree f) := by
  unfold Phys.pageFree
  rw [h.ppRef f hf]
  split
  · exact h
  · exact ⟨h.mem, h.ppRef, by rw [h.list]⟩

theorem pageAlloc (h : Agree C R p q) :
    (p.pageAlloc = none ∧ q.pageAlloc = none) ∨
      ∃ f p' q', p.pageAlloc = some (f, p') ∧ q.pageAlloc = some (f, q') ∧ Agree C R p' q' := by
  unfold Phys.pageAlloc
  rw [h.list]
  split
  · refine Or.inr ⟨_, _, _, rfl, rfl, ?_, h.ppRef, rfl⟩
    intro g i hg
    change (if g = _ then 0 else p.mem g i) = if g = _ then 0 else q.mem g i
    rw [h.mem g i hg]
  · exact Or.inl ⟨rfl, rfl⟩

/-! ## 2. The walk -/

/-- One level of the walk looks at its entry. -/
theorem descend (h : Agree C R p q) {a : Ptr} (ha : C a.frame a.idx) (create : Bool) :
    (p.descend a create).1 = (q.descend a create).1 ∧
      Agree C R (p.descend a create).2 (q.descend a create).2 := by
  have hload : p.load a = q.load a := h.mem _ _ ha
  unfold Phys.descend
  rw [hload]
  split
  · exact ⟨rfl, h⟩
  · split
    · rcases h.pageAlloc with ⟨hp, hq⟩ | ⟨f, p', q', hp, hq, h'⟩
      · rw [hp, hq]
        exact ⟨rfl, h⟩
      · rw [hp, hq]
        exact ⟨rfl, (h'.store a _).incRef f⟩
    · exact ⟨rfl, h⟩

/-- **The walk** looks at one entry of the directory and one of the table it names. -/
theorem pgdirWalk (h : Agree C R p q) (create : Bool) (hd : C pud (pudx va))
    (ht : ∀ t q', q.descend ⟨pud, pudx va⟩ create = (some t, q') → C t (pmdx va)) :
    (p.pgdirWalk pud va create).1 = (q.pgdirWalk pud va create).1 ∧
      Agree C R (p.pgdirWalk pud va create).2 (q.pgdirWalk pud va create).2 := by
  obtain ⟨h1, h2⟩ := h.descend (a := ⟨pud, pudx va⟩) hd create
  unfold Phys.pgdirWalk
  rcases hq : q.descend ⟨pud, pudx va⟩ create with ⟨_ | t, q₁⟩ <;>
    rcases hp : p.descend ⟨pud, pudx va⟩ create with ⟨_ | t', p₁⟩ <;> rw [hp, hq] at h1 h2
  · exact ⟨rfl, h2⟩
  · cases h1
  · cases h1
  · obtain rfl := Option.some.inj h1
    obtain ⟨h3, h4⟩ := h2.descend (a := ⟨t', pmdx va⟩) (ht t' q₁ hq) create
    dsimp only
    rcases hq' : q₁.descend ⟨t', pmdx va⟩ create with ⟨_ | u, q₂⟩ <;>
      rcases hp' : p₁.descend ⟨t', pmdx va⟩ create with ⟨_ | u', p₂⟩ <;> rw [hp', hq'] at h3 h4
    · exact ⟨rfl, h4⟩
    · cases h3
    · cases h3
    · obtain rfl := Option.some.inj h3
      exact ⟨rfl, h4⟩

end Agree

/-! ## 3. The operations, on a forest -/

/-- Everything the operations look at can be seen. -/
structure Covers (ρ : Nat → Role) (C : Nat → Fin 512 → Prop) (R : Nat → Prop) : Prop where
  word : ∀ f i, ρ f ≠ .kernel → (ρ f = .dir → 2 ≤ i.val) → C f i
  counter : ∀ f, ρ f ≠ .kernel → ρ f ≠ .dir → R f

/-- An operation on a directory makes no other one, and pins no page. -/
theorem Local.role_of {ρ ρ' : Nat → Role} {d f : Nat} {p p' : Phys} {r : Role}
    (h : Local ρ d p ρ' p') (hd : ρ d = .dir) (hr : r = .dir ∨ r = .pinned) (hf : ρ' f = r) :
    ρ f = r := by
  have hne : r ≠ .free ∧ r ≠ .data := by rcases hr with rfl | rfl <;> simp
  cases hfree : ρ f with
  | free =>
    exfalso
    rcases h.fresh f hfree with h1 | h1 | rfl | ⟨i, h1⟩ | ⟨t, j, i, h1, _⟩
    · exact hne.1 (hf.symm.trans h1)
    · exact hne.2 (hf.symm.trans h1)
    · cases hfree.symm.trans hd
    · rcases hr with rfl | rfl <;> cases hf.symm.trans h1
    · rcases hr with rfl | rfl <;> cases hf.symm.trans h1
  | _ =>
    rcases h.role f (by simp [hfree]) with h1 | ⟨_, h1⟩
    · rw [← hfree, ← h1, hf]
    · exact absurd (hf.symm.trans h1) hne.1

namespace Covers

variable {L : Layout} {base : Nat} {km : Mem} {ρ ρ' : Nat → Role} {C : Nat → Fin 512 → Prop}
  {R : Nat → Prop} {q q' : Phys} {d f t u : Nat} {i j : Fin 512}

theorem pmd (h : Covers ρ C R) (ht : ρ t = .pmd d i) (k : Fin 512) : C t k :=
  h.word t k (by simp [ht]) (by simp [ht])

theorem pte (h : Covers ρ C R) (hu : ρ u = .pte t j) (k : Fin 512) : C u k :=
  h.word u k (by simp [hu]) (by simp [hu])

theorem page (h : Covers ρ C R) (hf : (ρ f).IsPage) : R f := by
  refine h.counter f ?_ ?_ <;> intro hk <;> rw [hk] at hf <;> exact hf

/-- An operation on a directory hides nothing more. -/
theorem of_local (h : Covers ρ C R) (hq : Forest L base km ρ q) (hq' : Forest L base km ρ' q')
    (hl : Local ρ d q ρ' q') : Covers ρ' C R := by
  have hk : ∀ f, ρ' f = .kernel ↔ ρ f = .kernel := by
    intro f
    rw [hq.kernel, hq'.kernel]
  have hdir : ∀ f, ρ f = .dir → ρ' f = .dir := by
    intro f hf
    rw [hl.table (by simp [hf]) (by simp [hf]), hf]
  refine ⟨fun f i hf hi => ?_, fun f hf hf' => ?_⟩
  · exact h.word f i (fun hk' => hf ((hk f).mpr hk')) (fun hfd => hi (hdir f hfd))
  · exact h.counter f (fun hk' => hf ((hk f).mpr hk')) (fun hfd => hf' (hdir f hfd))

end Covers

namespace Agree

variable {L : Layout} {base : Nat} {km : Mem} {ρ : Nat → Role} {C : Nat → Fin 512 → Prop}
  {R : Nat → Prop} {p q q' : Phys} {d pp va perm : Nat} {r : Int}

/-- The address spaces are the same. -/
theorem space (h : Agree C R p q) (hq : Forest L base km ρ q) (hc : Covers ρ C R) (hd : ρ d = .dir)
    {g : Page} (hg : 2 ≤ g.1.val) : RaspiOS.space p.mem d g = RaspiOS.space q.mem d g := by
  have h1 : p.mem d g.1 = q.mem d g.1 := h.mem _ _ (hc.word d _ (by simp [hd]) fun _ => hg)
  unfold RaspiOS.space
  rw [h1]
  split
  · rename_i hv1
    have ht := (hq.dirUser d hd _ hg hv1).2
    rw [h.mem _ _ (hc.pmd ht g.2.1)]
    split
    · rename_i hv2
      have hu := (hq.pmdUser _ _ _ ht _ hv2).2
      rw [h.mem _ _ (hc.pte hu g.2.2)]
    · rfl
  · rfl

/-- The walk with creation. -/
theorem walkCreate (h : Agree C R p q) (hq : Forest L base km ρ q) (hc : Covers ρ C R)
    (hd : ρ d = .dir) (hva : 2 ≤ (pudx va).val) :
    (p.pgdirWalk d va true).1 = (q.pgdirWalk d va true).1 ∧
      Agree C R (p.pgdirWalk d va true).2 (q.pgdirWalk d va true).2 := by
  refine h.pgdirWalk true (hc.word d _ (by simp [hd]) fun _ => hva) fun t q' he => ?_
  rcases hq.descendPmd (i := pudx va) hd hva with ⟨t', n, ρ', q₁, he', ht, hg, _⟩ | ⟨he', _⟩
  · cases he'.symm.trans he
    exact (hc.of_local hq hg.forest hg.frame).pmd ht _
  · cases he'.symm.trans he

/-- The walk without creation. -/
theorem walk (h : Agree C R p q) (hq : Forest L base km ρ q) (hc : Covers ρ C R)
    (hd : ρ d = .dir) (hva : 2 ≤ (pudx va).val) : p.walk d va = q.walk d va := by
  refine congrArg Prod.snd (h.pgdirWalk false (hc.word d _ (by simp [hd]) fun _ => hva)
    fun t q' he => ?_).1
  rw [Phys.descend_false] at he
  split at he
  · rename_i hv
    cases he
    exact hc.pmd (hq.dirUser d hd _ hva hv).2 _
  · cases he

/-- The entry the walk leads to. -/
theorem load_walk (h : Agree C R p q) (hq : Forest L base km ρ q) (hc : Covers ρ C R)
    (hd : ρ d = .dir) (hva : 2 ≤ (pudx va).val) (hne : q.walk d va ≠ .null) :
    p.load (q.walk d va) = q.load (q.walk d va) := by
  obtain ⟨u, hu⟩ : ∃ u, Leads ρ d (pageOf va) u := by
    by_contra hno
    exact hne (hq.walk_of_not_leads hd hva (not_exists.mp hno))
  rw [hq.walk_of_leads' hu]
  obtain ⟨t, _, hut⟩ := hu
  exact h.mem u _ (hc.pte hut _)

/-- **`page_lookup` answers alike.** -/
theorem pageLookup (h : Agree C R p q) (hq : Forest L base km ρ q) (hc : Covers ρ C R)
    (hd : ρ d = .dir) (hva : 2 ≤ (pudx va).val) : p.pageLookup d va = q.pageLookup d va := by
  unfold Phys.pageLookup
  rw [h.walk hq hc hd hva]
  dsimp only
  split
  · rfl
  · rename_i hne
    rw [h.load_walk hq hc hd hva hne]

/-- **`page_remove` keeps the agreement.** -/
theorem pageRemove (h : Agree C R p q) (hq : Forest L base km ρ q) (hc : Covers ρ C R)
    (hd : ρ d = .dir) (hva : 2 ≤ (pudx va).val) (he : q.pageRemove d va = .ok q') :
    ∃ p', p.pageRemove d va = .ok p' ∧ Agree C R p' q' := by
  have hl := h.pageLookup hq hc hd hva
  rcases hq.pageLookup hd hva with ⟨_, hlq⟩ | ⟨u, hu, hv, _, hlq⟩
  · simp only [Phys.pageRemove, hlq] at he
    cases he
    exact ⟨p, by simp only [Phys.pageRemove, hl, hlq]; rfl, h⟩
  · have hR : R (ppn (q.mem u (ptex va))) := by
      obtain ⟨t, _, hut⟩ := hu
      exact hc.page (hq.page_of_leaf hut hv)
    have hdec := h.decRef (ppn (q.mem u (ptex va)))
    simp only [Phys.pageRemove, hlq, bind, Except.bind] at he
    cases he
    refine ⟨_, by simp only [Phys.pageRemove, hl, hlq, bind, Except.bind]; rfl, ?_⟩
    refine Agree.store ?_ _ _
    rw [hdec.ppRef _ hR]
    split
    · exact hdec.pageFree hR
    · exact hdec

/-- The tail of `page_insert`. -/
theorem pageEnter (h : Agree C R p q) (hq : Forest L base km ρ q) (hc : Covers ρ C R)
    (hd : ρ d = .dir) (hva : 2 ≤ (pudx va).val) (pp perm : Nat) :
    (p.pageEnter d pp va perm).1 = (q.pageEnter d pp va perm).1 ∧
      Agree C R (p.pageEnter d pp va perm).2 (q.pageEnter d pp va perm).2 := by
  obtain ⟨h1, h2⟩ := h.walkCreate hq hc hd hva
  unfold Phys.pageEnter
  rcases hx : q.pgdirWalk d va true with ⟨⟨status, entry⟩, q₁⟩
  rcases hy : p.pgdirWalk d va true with ⟨⟨status', entry'⟩, p₁⟩
  rw [hx, hy] at h1 h2
  cases h1
  dsimp only
  split
  · exact ⟨rfl, h2⟩
  · exact ⟨rfl, (h2.store entry _).incRef pp⟩

/-- **`page_insert` keeps the agreement.** -/
theorem pageInsert (h : Agree C R p q) (hq : Forest L base km ρ q) (hc : Covers ρ C R)
    (hd : ρ d = .dir) (hva : 2 ≤ (pudx va).val) (he : q.pageInsert d pp va perm = .ok (r, q')) :
    ∃ p', p.pageInsert d pp va perm = .ok (r, p') ∧ Agree C R p' q' := by
  have hw := h.walk hq hc hd hva
  have henter : ∀ {ρ₁ p₁ q₁}, Forest L base km ρ₁ q₁ → Covers ρ₁ C R → ρ₁ d = .dir →
      Agree C R p₁ q₁ → Except.ok (ε := Halt) (q₁.pageEnter d pp va perm) = .ok (r, q') →
      ∃ p', Except.ok (ε := Halt) (p₁.pageEnter d pp va perm) = .ok (r, p') ∧ Agree C R p' q' := by
    intro ρ₁ p₁ q₁ hq₁ hc₁ hd₁ h₁ he₁
    obtain ⟨h2, h3⟩ := h₁.pageEnter hq₁ hc₁ hd₁ hva pp perm
    rw [Except.ok.inj he₁] at h2 h3
    exact ⟨(p₁.pageEnter d pp va perm).2, congrArg Except.ok (Prod.ext h2 rfl), h3⟩
  unfold Phys.pageInsert at he ⊢
  dsimp only at he ⊢
  rw [hw]
  by_cases hcond : q.walk d va ≠ .null ∧ Valid (q.load (q.walk d va))
  · have hload := h.load_walk hq hc hd hva hcond.1
    rw [if_pos hcond] at he
    rw [hload, if_pos hcond]
    obtain ⟨old, hold, he⟩ := Except.bind_eq_ok_iff.mp he
    simp only [hold, bind, Except.bind] at he ⊢
    by_cases hne : old ≠ pp
    · -- the old page is removed first
      rw [if_pos hne] at he ⊢
      obtain ⟨ρ', q₁, hr, hq₁, hl, _⟩ := hq.pageRemove hd hva
      obtain ⟨p₁, hr', h₁⟩ := h.pageRemove hq hc hd hva hr
      rw [hr] at he
      rw [hr']
      exact henter hq₁ (hc.of_local hq hq₁ hl)
        (by rw [hl.table (by simp [hd]) (by simp [hd]), hd]) h₁ he
    · rw [if_neg hne] at he ⊢
      cases he
      exact ⟨_, rfl, h.store _ _⟩
  · have hcond' : ¬ (q.walk d va ≠ .null ∧ Valid (p.load (q.walk d va))) := by
      rintro ⟨hne, hv⟩
      rw [h.load_walk hq hc hd hva hne] at hv
      exact hcond ⟨hne, hv⟩
    rw [if_neg hcond] at he
    rw [if_neg hcond']
    exact henter hq hc hd h he

end Agree

end RaspiOS
