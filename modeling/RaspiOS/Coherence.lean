/-
# The TLB and the tables

The MMU may at any time remember a translation of the active directory, and `tlb_invalidate` makes it
forget all of them.  This module puts the accesses of `page_insert`, `page_remove` and `env_run` in
the order of the source next to such a cache, and asks whether what it holds when one of them is done
is what the active directory says.

An access only extends the translations when it stores over an invalid word or into a frame that
no walk goes through (`persist_of_walks`), so page tables may grow behind a `tlb_invalidate`, and
they do.  Two accesses come too late: where a page is mapped again to the same frame `page_insert`
rewrites the entry after it has emptied the TLB, and `env_run` empties it before `env_pop_tf` writes
`ttbr0_el1`.  `Quiet` says when neither matters.
-/
import RaspiOS.Access
import RaspiOS.Progress
import RaspiOS.Trap
import RaspiOS.Lib.Tlb

set_option autoImplicit false

namespace RaspiOS

open LinkedList

/-! ## 1. Which words a translation depends on -/

/-- A walk of the hardware from directory `d` reads frame `f`. -/
def Walks (m : Mem) (d f : Nat) : Prop :=
  f = d ∨ ∃ i, IsTable (m d i) ∧ (hwFrame (m d i) = f ∨
    ∃ j, IsTable (m (hwFrame (m d i)) j) ∧ hwFrame (m (hwFrame (m d i)) j) = f)

/-- Every translation by `d` in `m` is one in `m'`. -/
def Persist (m m' : Mem) (d : Nat) : Prop :=
  ∀ va t, translate m d va = some t → translate m' d va = some t

section Persist

variable {m m' m'' : Mem} {d f : Nat}

theorem Persist.trans (h : Persist m m' d) (h' : Persist m' m'' d) : Persist m m'' d :=
  fun va t ht => h' va t (h va t ht)

/-- **Translations persist** as long as the valid words on the way stay. -/
theorem persist_of_walks (h : ∀ f i, Walks m d f → Valid (m f i) → m' f i = m f i) :
    Persist m m' d := by
  intro va t ht
  simp only [translate] at ht ⊢
  split at ht
  · rename_i hlt
    rw [if_pos hlt]
    split at ht
    · rename_i h1
      have e1 := h d (pudx va) (Or.inl rfl) h1.valid
      have w1 : Walks m d (hwFrame (m d (pudx va))) := Or.inr ⟨_, h1, Or.inl rfl⟩
      simp only [e1, h1, if_true]
      simp only [translatePmd] at ht ⊢
      split at ht
      · rename_i h2
        have e2 := h _ (pmdx va) w1 h2.valid
        have w2 : Walks m d (hwFrame (m (hwFrame (m d (pudx va))) (pmdx va))) :=
          Or.inr ⟨_, h1, Or.inr ⟨_, h2, rfl⟩⟩
        simp only [e2, h2, if_true]
        simp only [translateLeaf] at ht ⊢
        split at ht
        · rename_i h3
          simp only [h _ (ptex va) w2 h3.valid, h3, if_true]
          exact ht
        · cases ht
      · rename_i h2
        split at ht
        · rename_i h2'
          simp only [h _ (pmdx va) w1 h2'.valid, h2, h2', if_true, if_false]
          exact ht
        · cases ht
    · rename_i h1
      split at ht
      · rename_i h1'
        simp only [h d (pudx va) (Or.inl rfl) h1'.valid, h1, h1', if_true, if_false]
        exact ht
      · cases ht
  · cases ht

/-- A store over an invalid word. -/
theorem persist_store {p : Phys} {a : Ptr} (w : Nat) (ha : ¬ Valid (p.load a)) :
    Persist p.mem (p.store a w).mem d := by
  refine persist_of_walks fun f i _ hv => ?_
  rw [Phys.mem_store, if_neg]
  rintro ⟨rfl, rfl⟩
  exact ha hv

/-- A change in a frame no walk reads. -/
theorem persist_frame (hf : ¬ Walks m d f) (hm : ∀ g, g ≠ f → m' g = m g) : Persist m m' d := by
  refine persist_of_walks fun g i hg _ => ?_
  have hne : g ≠ f := by
    rintro rfl
    exact hf hg
  rw [hm g hne]

/-- Walks read the same frames as long as the frames they read stay. -/
theorem walks_congr (h : ∀ g, Walks m d g → m' g = m g) (hf : Walks m' d f) : Walks m d f := by
  have hd := h d (Or.inl rfl)
  rcases hf with rfl | ⟨i, h1, hf⟩
  · exact Or.inl rfl
  · rw [hd] at h1 hf
    rcases hf with rfl | ⟨j, h2, rfl⟩
    · exact Or.inr ⟨i, h1, Or.inl rfl⟩
    · have ht := h (hwFrame (m d i)) (Or.inr ⟨i, h1, Or.inl rfl⟩)
      rw [ht] at h2 ⊢
      exact Or.inr ⟨i, h1, Or.inr ⟨j, h2, rfl⟩⟩

/-- A frame no walk reads may change, and no walk reads it afterwards. -/
theorem not_walks_frame (hf : ¬ Walks m d f) (hm : ∀ g, g ≠ f → m' g = m g) :
    ∀ {g}, Walks m' d g → Walks m d g := by
  intro g hg
  refine walks_congr (fun g' hg' => hm g' ?_) hg
  rintro rfl
  exact hf hg'

/-- What a walk reads after a table has been hung into a frame. -/
theorem walks_store {p : Phys} {a : Ptr} {t : Nat} (ht : ∀ k, ¬ IsTable (p.mem t k))
    (hlt : t < 2 ^ 36) (hat : a.frame ≠ t) (h : Walks (p.store a (tableDesc t)).mem d f) :
    Walks p.mem d f ∨ f = t := by
  rcases h with rfl | ⟨i, h1, h⟩
  · exact Or.inl (Or.inl rfl)
  · rw [Phys.mem_store] at h1 h
    by_cases hi : d = a.frame ∧ i = a.idx
    · rw [if_pos hi, hwFrame_tableDesc hlt] at h
      rcases h with rfl | ⟨j, h2, _⟩
      · exact Or.inr rfl
      · rw [Phys.mem_store, if_neg (fun hc => hat hc.1.symm)] at h2
        exact absurd h2 (ht j)
    · rw [if_neg hi] at h1 h
      rcases h with rfl | ⟨j, h2, h3⟩
      · exact Or.inl (Or.inr ⟨i, h1, Or.inl rfl⟩)
      · rw [Phys.mem_store] at h2 h3
        by_cases hj : hwFrame (p.mem d i) = a.frame ∧ j = a.idx
        · rw [if_pos hj, hwFrame_tableDesc hlt] at h3
          exact Or.inr h3.symm
        · rw [if_neg hj] at h2 h3
          exact Or.inl (Or.inr ⟨i, h1, Or.inr ⟨j, h2, h3⟩⟩)

end Persist

/-! ## 2. A core and its TLB -/

/-- The kernel and the base of the translation table, as the frame of the active directory. -/
structure Cpu where
  kernel : Kernel
  ttbr0 : Nat

/-- What the code does that matters to the MMU. -/
inductive CpuAct where
  /-- an access of a page operation -/
  | page (a : Access)
  /-- the assignments of `env_run` up to its `tlb_invalidate` -/
  | enter (e : Slot)
  /-- `msr ttbr0_el1, x1` -/
  | msrTtbr0 (d : Nat)

/-- The effect. -/
def Cpu.act (c : Cpu) : CpuAct → Cpu
  | .page a => { c with kernel := { c.kernel with phys := c.kernel.phys.access a } }
  | .enter e => { c with kernel := c.kernel.envRun e }
  | .msrTtbr0 d => { c with ttbr0 := d }

/-- **The MMU**: it answers with the translations of the active directory, whatever the environment
(there is one ASID). -/
def mmu : Tlb.Machine Cpu CpuAct Nat Translation where
  look c va := translate c.kernel.phys.mem c.ttbr0 va
  act := Cpu.act
  Flush a := a = .page .tlbInvalidate

/-- The contents of the TLB. -/
abbrev TlbContents := Set (Nat × Translation)

/-- The operations: `page_insert` and `page_remove` on the active directory, and `env_run`. -/
inductive TlbOp where
  | insert (pp va perm : Nat)
  | remove (va : Nat)
  | run (e : Slot)
deriving DecidableEq

/-- What an operation does, in order.  Of `env_pop_tf` only the write to `ttbr0_el1` matters
here. -/
def Cpu.trace (c : Cpu) : TlbOp → Except Halt (List CpuAct)
  | .insert pp va perm =>
    (c.kernel.phys.pageInsertTrace c.ttbr0 pp va perm).map fun x => x.2.map .page
  | .remove va => (c.kernel.phys.pageRemoveTrace c.ttbr0 va).map fun as => as.map .page
  | .run e => .ok [.enter e, .page .tlbInvalidate, .msrTtbr0 (c.kernel.envs e).envPgdir]

/-- `env_pop_tf` loads `ttbr0_el1` from its second argument. -/
theorem ttbr0_envPopTf (σ : A64.State) : (A64.run σ envPopTf).sys .ttbr0El1 = σ.x 1 := rfl

/-- Sequences of operations that return, with fills of the TLB anywhere. -/
inductive TlbRun (guard : Cpu → TlbOp → Prop) (c : Cpu) (k : TlbContents) :
    List TlbOp → Cpu → TlbContents → Prop
  | nil : TlbRun guard c k [] c k
  | snoc {ops : List TlbOp} {c₁ c₂ : Cpu} {k₁ k₂ : TlbContents} {op : TlbOp}
      {as : List CpuAct} : TlbRun guard c k ops c₁ k₁ → guard c₁ op → c₁.trace op = .ok as →
      Tlb.Exec mmu c₁ k₁ as c₂ k₂ → TlbRun guard c k (ops ++ [op]) c₂ k₂

/-- The state after the accesses of a page operation. -/
theorem after_page (c : Cpu) (as : List Access) :
    Tlb.after mmu c (as.map .page)
      = { c with kernel := { c.kernel with phys := c.kernel.phys.accesses as } } := by
  induction as generalizing c with
  | nil => rfl
  | cons a as ih =>
    change Tlb.after mmu (c.act (.page a)) (as.map .page) = _
    rw [ih]
    rfl

/-! ## 3. Accesses behind a `tlb_invalidate` -/

/-- None of the accesses takes a translation of `d` away. -/
abbrev Settling (d : Nat) : Phys → List Access → Prop :=
  Phys.Along fun p a => Persist p.mem (p.access a).mem d

theorem Persist.refl (m : Mem) (d : Nat) : Persist m m d := fun _ _ ht => ht

/-- For the MMU with `d` in `ttbr0_el1`, such accesses are steady. -/
theorem Settling.steady {as : List Access} : ∀ {c : Cpu},
    Settling c.ttbr0 c.kernel.phys as → Tlb.Steady mmu c (as.map .page) := by
  induction as with
  | nil => exact fun _ => trivial
  | cons a as ih =>
    intro c h
    cases h with
    | cons h1 h2 => exact ⟨Or.inr fun va t => h1 va t, ih h2⟩

section Settle

variable {p : Phys} {d pp : Nat}

/-- Clearing a frame no walk reads. -/
theorem settling_bzero : ∀ {l : List (Fin 512)} {p : Phys}, ¬ Walks p.mem d pp →
    Settling d p (l.map fun i => .store ⟨pp, i⟩ 0) := by
  intro l
  induction l with
  | nil => exact fun _ => .nil _
  | cons i l ih =>
    intro p hp
    have hm : ∀ g, g ≠ pp → (p.store ⟨pp, i⟩ 0).mem g = p.mem g := by
      intro g hg
      funext k
      rw [Phys.mem_store, if_neg (fun hc => hg hc.1)]
    exact .cons (persist_frame hp hm) (ih fun hw => hp (not_walks_frame hp hm hw))

theorem settling_bzeroTrace (hp : ¬ Walks p.mem d pp) : Settling d p (Phys.bzeroTrace pp) :=
  settling_bzero (l := List.finRange 512) hp

/-- `page_alloc` of a frame no walk reads. -/
theorem settling_pageAlloc {f : Nat} {as : List Access} (h : p.pageAllocTrace = some (f, as))
    (hf : ¬ Walks p.mem d f) : Settling d p as := by
  unfold Phys.pageAllocTrace at h
  split at h
  · simp only [Option.some.injEq, Prod.mk.injEq] at h
    obtain ⟨rfl, rfl⟩ := h
    exact .cons (Persist.refl p.mem d) (settling_bzeroTrace hf)
  · cases h

/-- **One level of the walk** that makes a table of a frame no walk reads. -/
theorem settling_descend {a : Ptr} (hfresh : ∀ f q, p.pageAlloc = some (f, q) → ¬ Walks p.mem d f) :
    Settling d p (p.descendTrace a true).2 := by
  unfold Phys.descendTrace
  split
  · exact .nil p
  · rename_i hv
    rw [if_pos rfl]
    cases ht : p.pageAllocTrace with
    | none => exact .nil p
    | some x =>
      obtain ⟨f, as⟩ := x
      obtain ⟨q, hq, he, hm⟩ := Phys.accesses_pageAlloc ht
      refine (settling_pageAlloc ht (hfresh f q hq)).append
        (.cons ?_ (.cons (Persist.refl _ d) (.nil _)))
      rw [he]
      refine persist_store _ ?_
      rw [Phys.load, hm]
      split
      · exact not_valid_zero
      · exact hv

/-- The two frames `page_alloc` hands out next are not read by the walks of `d`, and the MMU can name
the first. -/
def FreshFor (p : Phys) (d : Nat) : Prop :=
  ∀ f q, p.pageAlloc = some (f, q) → (f < 2 ^ 36 ∧ ¬ Walks p.mem d f) ∧
    ∀ g r, q.pageAlloc = some (g, r) → g ≠ f ∧ ¬ Walks p.mem d g

/-- The first level of the walk has made a table: the second one finds a fresh frame again. -/
theorem FreshFor.second {f : Nat} {as : List Access} (h : FreshFor p d) (va : Nat)
    (ht : p.pageAllocTrace = some (f, as)) :
    let q := p.accesses (as ++ [.store ⟨d, pudx va⟩ (tableDesc f), .incRef f])
    q.load ⟨f, pmdx va⟩ = 0 ∧ ∀ g r, q.pageAlloc = some (g, r) → g ≠ f ∧ ¬ Walks q.mem d g := by
  obtain ⟨p₁, hp₁, he, hm⟩ := Phys.accesses_pageAlloc ht
  obtain ⟨⟨hlt, hf⟩, hsnd⟩ := h f p₁ hp₁
  have hdf : d ≠ f := by
    rintro rfl
    exact hf (Or.inl rfl)
  intro q
  have hq : q = (p₁.store ⟨d, pudx va⟩ (tableDesc f)).incRef f := by
    change p.accesses (as ++ _) = _
    rw [Phys.accesses_append, he]
    rfl
  have hz : ∀ k, p₁.mem f k = 0 := fun k => by rw [hm, if_pos rfl]
  refine ⟨?_, fun g r hg => ?_⟩
  · rw [hq, Phys.load, Phys.mem_incRef, Phys.mem_store, if_neg (fun hc => hdf hc.1.symm)]
    exact hz _
  · -- the free list is the one behind the first `page_alloc`
    have hg' : ∃ r', p₁.pageAlloc = some (g, r') := by
      obtain ⟨hfst, _⟩ := Phys.pageAlloc_eq_some hg
      have hl : q.pageFreeList = p₁.pageFreeList := by rw [hq]; rfl
      rw [hl] at hfst
      simp [Phys.pageAlloc, hfst]
    obtain ⟨r', hr'⟩ := hg'
    obtain ⟨hne, hw⟩ := hsnd g r' hr'
    refine ⟨hne, fun hc => ?_⟩
    rw [hq, Phys.mem_incRef] at hc
    have htab : ∀ k, ¬ IsTable (p₁.mem f k) := by
      intro k hk
      rw [hz k] at hk
      exact not_valid_zero hk.valid
    rcases walks_store htab hlt hdf hc with hc | rfl
    · refine hw (not_walks_frame hf (fun g' hg' => ?_) hc)
      funext k
      rw [hm, if_neg hg']
    · exact hne rfl

/-- What is in the way of the last store of `page_insert`: nothing. -/
def Clear (q : Phys) (d : Nat) (entry : Ptr) : Prop :=
  ¬ Valid (q.load entry) ∨ ¬ Walks q.mem d entry.frame

theorem Clear.persist {entry : Ptr} (h : Clear p d entry) (w : Nat) :
    Persist p.mem (p.store entry w).mem d := by
  rcases h with hv | hw
  · exact persist_store w hv
  · refine persist_frame hw fun g hg => ?_
    funext k
    rw [Phys.mem_store, if_neg (fun hc => hg hc.1)]

/-- An entry of a new table. -/
theorem clear_create {f t : Nat} {i : Fin 512} {as : List Access} (k : Fin 512)
    (h : ¬ Valid (p.mem f i)) (ht : p.descendTrace ⟨f, i⟩ true = (some t, as)) (hf : ¬ Walks p.mem d t) :
    Clear (p.accesses as) d ⟨t, k⟩ := by
  obtain ⟨bs, q, _, _, _, he, hm⟩ := Phys.descendTrace_create h ht
  rw [he]
  rcases eq_or_ne f t with rfl | hat
  · -- the table hangs in itself, where no walk comes
    refine Or.inr fun hw => hf (not_walks_frame hf (fun g hg => ?_) hw)
    funext i
    rw [Phys.mem_incRef, Phys.mem_store, if_neg (fun hc => hg hc.1), hm, if_neg hg]
  · refine Or.inl ?_
    rw [Phys.load, Phys.mem_incRef, Phys.mem_store, if_neg (fun hc => hat hc.1.symm), hm,
      if_pos rfl]
    exact not_valid_zero

/-- **The walk with creation** takes no translation away, and it ends at a clear entry. -/
theorem settling_walk {va : Nat} (hfresh : p.walk d va = .null → FreshFor p d)
    (hclear : Valid (p.mem d (pudx va)) →
      Valid (p.mem (ppn (p.mem d (pudx va))) (pmdx va)) →
      ¬ Valid (p.mem (ppn (p.mem (ppn (p.mem d (pudx va))) (pmdx va))) (ptex va))) :
    Settling d p (p.pgdirWalkTrace d va true).2 ∧
      ∀ entry, (p.pgdirWalkTrace d va true).1 = (0, entry) →
        Clear (p.accesses (p.pgdirWalkTrace d va true).2) d entry := by
  have hfail : ∀ {e entry : Ptr}, ((-eNoMem : Int), e) ≠ (0, entry) :=
    fun h => absurd (Prod.mk.inj h).1 (by decide)
  unfold Phys.pgdirWalkTrace
  by_cases h1 : Valid (p.mem d (pudx va))
  · rw [Phys.descendTrace_valid h1]
    dsimp only [Phys.accesses_nil, List.nil_append]
    by_cases h2 : Valid (p.mem (ppn (p.mem d (pudx va))) (pmdx va))
    · -- both tables are there
      rw [Phys.descendTrace_valid h2]
      refine ⟨.nil p, fun entry he => Or.inl ?_⟩
      obtain rfl := (Prod.mk.inj he).2
      exact hclear h1 h2
    · -- the third level is new
      have hnull : p.walk d va = .null := by rw [Phys.walk_eq, if_pos h1, if_neg h2]
      have hf := fun f q hq => (hfresh hnull f q hq).1.2
      have hs := settling_descend (a := ⟨ppn (p.mem d (pudx va)), pmdx va⟩) hf
      rcases hd : p.descendTrace ⟨ppn (p.mem d (pudx va)), pmdx va⟩ true with ⟨_ | u, bs⟩
      · rw [hd] at hs
        exact ⟨hs, fun entry he => absurd he hfail⟩
      · rw [hd] at hs
        refine ⟨hs, fun entry he => ?_⟩
        obtain rfl := (Prod.mk.inj he).2
        obtain ⟨_, q, _, _, hq, _⟩ := Phys.descendTrace_create h2 hd
        exact clear_create _ h2 hd (hf u q hq)
  · -- the second level is new, and so is the third
    have hnull : p.walk d va = .null := by rw [Phys.walk_eq, if_neg h1]
    have hfr := hfresh hnull
    have hs := settling_descend (a := ⟨d, pudx va⟩) fun f q hq => (hfr f q hq).1.2
    rcases hd : p.descendTrace ⟨d, pudx va⟩ true with ⟨_ | t, as⟩
    · rw [hd] at hs
      exact ⟨hs, fun entry he => absurd he hfail⟩
    · rw [hd] at hs
      obtain ⟨bs, q, ht, rfl, -⟩ := Phys.descendTrace_create h1 hd
      obtain ⟨hz, hsnd⟩ := hfr.second va ht
      generalize hp' : p.accesses (bs ++ [.store ⟨d, pudx va⟩ (tableDesc t), .incRef t]) = p'
        at hz hsnd
      have h2 : ¬ Valid (p'.mem t (pmdx va)) := by
        rw [show p'.mem t (pmdx va) = 0 from hz]
        exact not_valid_zero
      have hs' := settling_descend (a := ⟨t, pmdx va⟩) fun g r hg => (hsnd g r hg).2
      dsimp only
      rw [hp']
      rcases hd' : p'.descendTrace ⟨t, pmdx va⟩ true with ⟨_ | u, cs⟩
      · rw [hd'] at hs'
        exact ⟨hs.append (hp' ▸ hs'), fun entry he => absurd he hfail⟩
      · rw [hd'] at hs'
        refine ⟨hs.append (hp' ▸ hs'), fun entry he => ?_⟩
        obtain rfl := (Prod.mk.inj he).2
        obtain ⟨_, r, _, _, hr, _⟩ := Phys.descendTrace_create h2 hd'
        dsimp only
        rw [Phys.accesses_append, hp']
        exact clear_create _ h2 hd' (hsnd u r hr).2

end Settle

/-! ## 4. When an operation leaves the TLB coherent -/

/-- The entry that maps `va`, where there are tables for it, is not at address 0 and is not one of the
two words that lead to it. -/
def Apart (p : Phys) (d va : Nat) : Prop :=
  Valid (p.mem d (pudx va)) → Valid (p.mem (ppn (p.mem d (pudx va))) (pmdx va)) →
    let entry : Ptr := ⟨ppn (p.mem (ppn (p.mem d (pudx va))) (pmdx va)), ptex va⟩
    entry ≠ .null ∧ entry ≠ ⟨d, pudx va⟩ ∧ entry ≠ ⟨ppn (p.mem d (pudx va)), pmdx va⟩

/-- The page at `va` is mapped to frame `pp` already, by another descriptor than the one
`page_insert` is about to write. -/
def Rewrites (p : Phys) (d pp va perm : Nat) : Prop :=
  p.walk d va ≠ .null ∧ Valid (p.load (p.walk d va)) ∧ ppn (p.load (p.walk d va)) = pp ∧
    p.load (p.walk d va) ≠ leafDesc pp perm

instance (p : Phys) (d pp va perm : Nat) : Decidable (Rewrites p d pp va perm) :=
  inferInstanceAs (Decidable (_ ∧ _ ∧ _ ∧ _))

/-- The steps in which no answer of the MMU behind the last `tlb_invalidate` is taken back:
`page_insert` does not rewrite an entry in place, and what it takes for tables is no table of the
active directory; `env_run` enters a directory with all the translations of the one it leaves. -/
def Quiet (c : Cpu) : TlbOp → Prop
  | .insert pp va perm =>
    ¬ Rewrites c.kernel.phys c.ttbr0 pp va perm ∧ Apart c.kernel.phys c.ttbr0 va ∧
      (c.kernel.phys.walk c.ttbr0 va = .null → FreshFor c.kernel.phys c.ttbr0)
  | .remove _ => True
  | .run e => ∀ va t, translate c.kernel.phys.mem c.ttbr0 va = some t →
      translate c.kernel.phys.mem (c.kernel.envs e).envPgdir va = some t

section Ops

variable {p : Phys} {d pp va perm : Nat}

/-- A store elsewhere. -/
theorem mem_store_of_ne {a : Ptr} {w f : Nat} {i : Fin 512} (h : a ≠ ⟨f, i⟩) :
    (p.store a w).mem f i = p.mem f i := by
  rw [Phys.mem_store, if_neg]
  rintro ⟨rfl, rfl⟩
  exact h rfl

/-- The walk where there are tables. -/
theorem walk_of_valid (h1 : Valid (p.mem d (pudx va)))
    (h2 : Valid (p.mem (ppn (p.mem d (pudx va))) (pmdx va))) :
    p.walk d va = ⟨ppn (p.mem (ppn (p.mem d (pudx va))) (pmdx va)), ptex va⟩ := by
  rw [Phys.walk_eq, if_pos h1, if_pos h2]

/-- A walk that ends somewhere went through two tables. -/
theorem valid_of_walk (h : p.walk d va ≠ .null) : Valid (p.mem d (pudx va)) ∧
    Valid (p.mem (ppn (p.mem d (pudx va))) (pmdx va)) := by
  rw [Phys.walk_eq] at h
  split at h
  · rename_i h1
    split at h
    · rename_i h2
      exact ⟨h1, h2⟩
    · exact absurd rfl h
  · exact absurd rfl h

/-- **The tail of `page_insert`**: a flush, and nothing behind it takes a translation away. -/
theorem settling_pageEnter (pp perm : Nat) (hfresh : p.walk d va = .null → FreshFor p d)
    (hclear : Valid (p.mem d (pudx va)) →
      Valid (p.mem (ppn (p.mem d (pudx va))) (pmdx va)) →
      ¬ Valid (p.mem (ppn (p.mem (ppn (p.mem d (pudx va))) (pmdx va))) (ptex va))) :
    ∃ bs, (p.pageEnterTrace d pp va perm).2 = .tlbInvalidate :: bs ∧ Settling d p bs := by
  obtain ⟨hs, hc⟩ := settling_walk hfresh hclear
  unfold Phys.pageEnterTrace
  rcases hw : p.pgdirWalkTrace d va true with ⟨⟨status, entry⟩, as⟩
  rw [hw] at hs hc
  dsimp only
  split
  · exact ⟨as, rfl, hs⟩
  · rename_i h0
    have h0 : status = 0 := not_not.mp h0
    refine ⟨as ++ [.store entry (leafDesc pp perm), .incRef pp], rfl, hs.append ?_⟩
    exact .cons ((hc entry (by rw [h0])).persist _) (.cons (Persist.refl _ d) (.nil _))

/-- What `page_lookup` finds. -/
theorem pageLookup_some {old : Nat} {entry : Ptr} (h : p.pageLookup d va = .ok (some (old, entry))) :
    entry = p.walk d va ∧ p.walk d va ≠ .null ∧ Valid (p.load (p.walk d va)) := by
  unfold Phys.pageLookup at h
  dsimp only at h
  split at h
  · cases h
  · rename_i h0
    split at h
    · cases h
    · rename_i hv
      obtain ⟨f, _, hf⟩ := Except.bind_eq_ok_iff.mp h
      cases hf
      exact ⟨rfl, h0, not_not.mp hv⟩

/-- **`page_remove`** stores first and empties the TLB last. -/
theorem pageRemoveTrace_flush {as : List Access} (h : p.pageRemoveTrace d va = .ok as) :
    (as = [] ∧ p.pageLookup d va = .ok none) ∨ ∃ bs old, as = bs ++ [.tlbInvalidate] ∧
      p.pageLookup d va = .ok (some (old, p.walk d va)) ∧
      (p.accesses as).mem = (p.store (p.walk d va) 0).mem := by
  unfold Phys.pageRemoveTrace at h
  rcases hl : p.pageLookup d va with err | _ | ⟨old, entry⟩ <;> rw [hl] at h
  · cases h
  · cases h
    exact Or.inl ⟨rfl, rfl⟩
  · obtain rfl := Except.ok.inj h
    obtain rfl := (pageLookup_some hl).1
    refine Or.inr ⟨.decRef old :: (p.decRef old).pageFreeTrace old ++ [.store (p.walk d va) 0],
      old, by simp, rfl, ?_⟩
    have hf : ((p.decRef old).accesses ((p.decRef old).pageFreeTrace old)).mem = p.mem := by
      rw [Phys.pageFree_trace, Phys.mem_pageFree, Phys.mem_decRef]
    rw [Phys.accesses_append]
    change (((p.decRef old).accesses ((p.decRef old).pageFreeTrace old)).store (p.walk d va) 0).mem = _
    funext g i
    rw [Phys.mem_store, Phys.mem_store, hf]

/-- The memory behind `page_remove` of a page that is mapped. -/
theorem pageRemoveTrace_mem {as : List Access} (h : p.pageRemoveTrace d va = .ok as)
    (hw : p.walk d va ≠ .null) (hv : Valid (p.load (p.walk d va))) :
    (p.accesses as).mem = (p.store (p.walk d va) 0).mem := by
  rcases pageRemoveTrace_flush h with ⟨_, hl⟩ | ⟨_, _, _, _, hm⟩
  · unfold Phys.pageLookup at hl
    dsimp only at hl
    rw [if_neg hw, if_neg (not_not.mpr hv)] at hl
    obtain ⟨_, _, hf⟩ := Except.bind_eq_ok_iff.mp hl
    cases hf
  · exact hm

/-- The tail of `page_insert` behind `page_remove`: the tables are there, and the entry is clear. -/
theorem settling_replace {q : Phys} (pp perm : Nat) (hw : p.walk d va ≠ .null) (ha : Apart p d va)
    (hm : q.mem = (p.store (p.walk d va) 0).mem) :
    ∃ bs, (q.pageEnterTrace d pp va perm).2 = .tlbInvalidate :: bs ∧ Settling d q bs := by
  obtain ⟨h1, h2⟩ := valid_of_walk hw
  obtain ⟨ha0, ha1, ha2⟩ := ha h1 h2
  have hwalk := walk_of_valid h1 h2
  have e1 : q.mem d (pudx va) = p.mem d (pudx va) := by
    rw [hm, hwalk, mem_store_of_ne ha1]
  have e2 : q.mem (ppn (p.mem d (pudx va))) (pmdx va) =
      p.mem (ppn (p.mem d (pudx va))) (pmdx va) := by
    rw [hm, hwalk, mem_store_of_ne ha2]
  refine settling_pageEnter pp perm (fun h0 => ?_) fun _ _ => ?_
  · rw [walk_of_valid (by rw [e1]; exact h1) (by rw [e1, e2]; exact h2), e1, e2] at h0
    exact absurd h0 ha0
  · rw [e1, e2, hm, hwalk, Phys.mem_store_self]
    exact not_valid_zero

/-- **`page_insert`**: what comes behind its last flush, case by case. -/
theorem pageInsertTrace_flush {r : Int} {as : List Access} (hq : ¬ Rewrites p d pp va perm)
    (ha : Apart p d va) (hfresh : p.walk d va = .null → FreshFor p d)
    (h : p.pageInsertTrace d pp va perm = .ok (r, as)) :
    ∃ bs cs, as = bs ++ .tlbInvalidate :: cs ∧ Settling d (p.accesses bs) cs := by
  unfold Phys.pageInsertTrace at h
  dsimp only at h
  split at h
  · rename_i hv
    obtain ⟨old, hold, h⟩ := Except.bind_eq_ok_iff.mp h
    have hold : ppn (p.load (p.walk d va)) = old := by
      unfold pa2page at hold
      split at hold
      · cases hold
      · exact Except.ok.inj hold
    split at h
    · -- another frame: its entry is cleared, flushed and written again
      rename_i hne
      obtain ⟨as₁, has₁, h⟩ := Except.bind_eq_ok_iff.mp h
      obtain rfl : as = as₁ ++ ((p.accesses as₁).pageEnterTrace d pp va perm).2 :=
        (congrArg Prod.snd (Except.ok.inj h)).symm
      have hm := pageRemoveTrace_mem has₁ hv.1 hv.2
      obtain ⟨bs, hbs, hs⟩ := settling_replace pp perm hv.1 ha hm
      exact ⟨as₁, bs, by rw [hbs], hs⟩
    · -- the same frame: the word that is there already
      rename_i heq
      have heq : old = pp := not_not.mp heq
      obtain rfl : as = [.tlbInvalidate, .store (p.walk d va) (leafDesc pp perm)] :=
        (congrArg Prod.snd (Except.ok.inj h)).symm
      have hw : p.load (p.walk d va) = leafDesc pp perm := by
        by_contra hne
        exact hq ⟨hv.1, hv.2, hold.trans heq, hne⟩
      refine ⟨[], _, rfl, .cons (persist_of_walks fun f i _ _ => ?_) (.nil _)⟩
      change (p.store (p.walk d va) (leafDesc pp perm)).mem f i = p.mem f i
      rw [Phys.mem_store]
      split
      · rename_i hc
        rw [hc.1, hc.2]
        exact hw.symm
      · rfl
  · -- no page yet
    rename_i hn
    obtain rfl : as = (p.pageEnterTrace d pp va perm).2 :=
      (congrArg Prod.snd (Except.ok.inj h)).symm
    obtain ⟨bs, hbs, hs⟩ := settling_pageEnter pp perm hfresh fun h1 h2 hv => by
      have hwalk := walk_of_valid h1 h2
      refine hn ⟨?_, ?_⟩
      · rw [hwalk]
        exact (ha h1 h2).1
      · rw [hwalk]
        exact hv
    exact ⟨[], bs, hbs, hs⟩

end Ops

/-! ## 5. Runs -/

/-- Entering an environment leaves the directories where they are. -/
theorem envPgdir_envRun (s : Kernel) (e f : Slot) :
    ((s.envRun e).envs f).envPgdir = (s.envs f).envPgdir := by
  rw [Kernel.envs_envRun]

/-- A quiet `page_insert` is safe, whatever the TLB holds before it. -/
theorem safe_insert {c : Cpu} {pp va perm : Nat} {as : List CpuAct}
    (hq : Quiet c (.insert pp va perm)) (ht : c.trace (.insert pp va perm) = .ok as) :
    Tlb.Safe mmu c as := by
  intro k c' k' hx
  obtain ⟨hr, ha, hf⟩ := hq
  obtain ⟨⟨r, as⟩, hi, rfl⟩ := Except.map_eq_ok_iff.mp ht
  obtain ⟨bs, cs, rfl, hs⟩ := pageInsertTrace_flush hr ha hf hi
  rw [List.map_append, List.map_cons] at hx
  refine Tlb.coherent_of_flush hx rfl (Settling.steady ?_)
  rw [after_page]
  exact hs

/-- **One operation**: it returns with a coherent TLB. -/
theorem coherent_op {c c' : Cpu} {k k' : TlbContents} {op : TlbOp} {as : List CpuAct}
    (hq : Quiet c op) (ht : c.trace op = .ok as) (hx : Tlb.Exec mmu c k as c' k')
    (hk : Tlb.Coherent mmu c k) : Tlb.Coherent mmu c' k' := by
  cases op with
  | insert pp va perm => exact safe_insert hq ht k c' k' hx
  | remove va =>
    obtain ⟨as, hi, rfl⟩ := Except.map_eq_ok_iff.mp ht
    rcases pageRemoveTrace_flush hi with ⟨rfl, _⟩ | ⟨bs, _, rfl, _⟩
    · exact hk.exec hx trivial
    · rw [List.map_append] at hx
      exact Tlb.coherent_of_flush hx rfl trivial
  | run e =>
    obtain rfl := Except.ok.inj ht
    have hx : Tlb.Exec mmu c k ([.enter e] ++ .page .tlbInvalidate :: _) c' k' := hx
    refine Tlb.coherent_of_flush hx rfl ⟨Or.inr fun va t h => ?_, trivial⟩
    change translate (c.kernel.envRun e).phys.mem c.ttbr0 va = some t at h
    change translate (c.kernel.envRun e).phys.mem (c.kernel.envs e).envPgdir va = some t
    rw [Kernel.phys_envRun] at h ⊢
    exact hq va t h

/-- The last operation has entered the directory of its environment. -/
theorem ttbr0_run {c c' : Cpu} {k k' : TlbContents} {e : Slot} {as : List CpuAct}
    (ht : c.trace (.run e) = .ok as) (hx : Tlb.Exec mmu c k as c' k') :
    c'.kernel.curenv = some e ∧ c'.ttbr0 = (c'.kernel.envs e).envPgdir := by
  obtain rfl := Except.ok.inj ht
  rw [hx.after_eq]
  refine ⟨Kernel.curenv_envRun c.kernel e, ?_⟩
  exact (envPgdir_envRun c.kernel e e).symm

/-- **The TLB is coherent** wherever an operation of a quiet run has returned: all it holds is what
the active directory says, and behind `env_run` that is the directory of the environment. -/
theorem tlb_coherent {c c' : Cpu} {k k' : TlbContents} {ops : List TlbOp}
    (h : TlbRun Quiet c k ops c' k') (hk : Tlb.Coherent mmu c k) :
    Tlb.Coherent mmu c' k' ∧ ∀ e, ops.getLast? = some (.run e) →
      c'.kernel.curenv = some e ∧ c'.ttbr0 = (c'.kernel.envs e).envPgdir := by
  induction h with
  | nil => exact ⟨hk, fun e he => by cases he⟩
  | snoc _ hq ht hx ih =>
    refine ⟨coherent_op hq ht hx ih.1, fun e he => ?_⟩
    rw [List.getLast?_concat] at he
    obtain rfl := Option.some.inj he
    exact ttbr0_run ht hx

/-! ## 6. What is left of the condition in the states of the kernel -/

section Kernel

variable {L : Layout} {base : Nat} {km : Mem} {ρ : Nat → Role} {m : Mem} {p : Phys}
  {d f pp va perm : Nat} {c : Cpu}

/-- Walks read frames in use. -/
theorem Shape.walks_inUse (h : Shape L base km ρ m) (hd : ρ d = .dir) (hf : Walks m d f) :
    ρ f ≠ .free := by
  have hk : ∀ g, L.pgDir ≤ g → g < base → ρ g ≠ .free := by
    intro g _ hg
    rw [(h.kernel g).mpr (Or.inl hg)]
    simp
  rcases hf with rfl | ⟨i, h1, hf⟩
  · simp [hd]
  · rcases Nat.lt_or_ge i.val 2 with hi | hi
    · -- the kernel's half leads into tables of the kernel
      obtain ⟨t, ht, hlo⟩ : ∃ t, hwFrame (m d i) = t ∧ (t = L.pgDir + 1 ∨ t = L.pgDir + 506) := by
        obtain ⟨t, _, ht, hlo⟩ := h.map.dir_low (not_le.mpr hi)
        exact ⟨t, by rw [h.dirLow d hd i hi, ht], hlo⟩
      have hb := h.map.le_base
      rw [ht] at hf
      rcases hf with rfl | ⟨j, h2, rfl⟩
      · exact hk _ (by omega) (by omega)
      · rw [h.kernelMem t (by omega) (by omega)] at h2 ⊢
        obtain ⟨hlo, hhi, hfr⟩ := h.map.pmd_closed hlo j h2
        rw [hfr]
        exact hk _ hlo hhi
    · have hr := (h.dirUser d hd i hi h1.valid).2
      rw [h.hwFrame_eq (by rw [hr]; exact (nomatch ·))] at hf
      rcases hf with rfl | ⟨j, h2, rfl⟩
      · simp [hr]
      · have hr2 := (h.pmdUser _ d i hr j h2.valid).2
        simp [h.hwFrame_eq (by rw [hr2]; exact (nomatch ·)), hr2]

/-- What `page_alloc` hands out is no table of anybody. -/
theorem Forest.freshFor (h : Forest L base km ρ p) (hd : ρ d = .dir) : FreshFor p d := by
  intro f q hq
  obtain ⟨h', hfree, _, _⟩ := h.take hq
  have hlt : f < npage := h.lt_npage (by rw [hfree]; exact (nomatch ·))
  refine ⟨⟨hlt.trans (by decide), fun hw => h.toShape.walks_inUse hd hw hfree⟩, fun g r hr => ?_⟩
  obtain ⟨_, hg, _, _⟩ := h'.take hr
  obtain ⟨hne, hg⟩ := role_of_update (by simp) hg
  exact ⟨hne, fun hw => h.toShape.walks_inUse hd hw hg⟩

/-- The levels of the walk are different frames. -/
theorem Forest.apart (h : Forest L base km ρ p) (hd : ρ d = .dir) (hva : 2 ≤ (pudx va).val) :
    Apart p d va := by
  intro h1 h2
  have hu := h.toShape.leads_of_valid (g := pageOf va) hd hva h1 h2
  refine ⟨h.leads_ne_null hu _, ?_, ?_⟩
  · intro hc
    obtain ⟨t, _, hut⟩ := hu
    rw [show ppn (p.mem (ppn (p.mem d (pageOf va).1)) (pageOf va).2.1) = d from
      congrArg Ptr.frame hc, hd] at hut
    cases hut
  · intro hc
    obtain ⟨t, _, hut⟩ := hu
    have ht := (h.toShape.dirUser d hd (pudx va) hva h1).2
    rw [show ppn (p.mem (ppn (p.mem d (pageOf va).1)) (pageOf va).2.1) = ppn (p.mem d (pudx va))
      from congrArg Ptr.frame hc, ht] at hut
    cases hut

/-- In the user half, `page_insert` is quiet exactly when it does not rewrite an entry. -/
theorem Forest.quiet_insert (h : Forest L base km ρ c.kernel.phys) (hd : ρ c.ttbr0 = .dir)
    (hva : 2 ≤ (pudx va).val) :
    Quiet c (.insert pp va perm) ↔ ¬ Rewrites c.kernel.phys c.ttbr0 pp va perm :=
  ⟨fun hq => hq.1, fun hr => ⟨hr, h.apart hd hva, fun _ => h.freshFor hd⟩⟩

/-- The index fields do not see the bits above them. -/
theorem pageOf_mod (va : Nat) : pageOf (va % 2 ^ 39) = pageOf va := by
  refine Prod.ext (Fin.ext ?_) (Prod.ext (Fin.ext ?_) (Fin.ext ?_))
  · change (pudx (va % 2 ^ 39)).val = (pudx va).val
    rw [pudx_val, pudx_val]
    omega
  · change (pmdx (va % 2 ^ 39)).val = (pmdx va).val
    rw [pmdx_val, pmdx_val]
    omega
  · change (ptex (va % 2 ^ 39)).val = (ptex va).val
    rw [ptex_val, ptex_val]
    omega

/-- A descriptor is its frame and its attributes. -/
theorem desc_ext {v w : Nat} (hf : ppn v = ppn w) (ha : v &&& 0xfff = w &&& 0xfff) : v = w := by
  have hm : ∀ x : Nat, x &&& 0xfff = x % 2 ^ 12 := fun x => Nat.and_two_pow_sub_one_eq_mod x 12
  rw [hm, hm] at ha
  simp only [ppn, Nat.shiftRight_eq_div_pow] at hf
  omega

/-- In the user half, a valid entry the walk ends at is in the address space. -/
theorem Forest.space_of_walk (h : Forest L base km ρ p) (hd : ρ d = .dir) (hva : 2 ≤ (pudx va).val)
    (hnull : p.walk d va ≠ .null) (hv : Valid (p.load (p.walk d va))) :
    space p.mem d (pageOf va) = some (p.load (p.walk d va)) := by
  obtain ⟨h1, h2⟩ := valid_of_walk hnull
  obtain ⟨u, hu⟩ : ∃ u, Leads ρ d (pageOf va) u :=
    ⟨_, h.toShape.leads_of_valid (g := pageOf va) hd hva h1 h2⟩
  rw [h.walk_of_leads' hu] at hv ⊢
  exact (h.toShape.space_of_leads hu).trans (if_pos hv)

/-- In the user half, an entry is rewritten where the address space has another descriptor of the
frame. -/
theorem Forest.rewrites_iff (h : Forest L base km ρ p) (hd : ρ d = .dir) (hva : 2 ≤ (pudx va).val) :
    Rewrites p d pp va perm ↔
      ∃ w, space p.mem d (pageOf va) = some w ∧ ppn w = pp ∧ w ≠ leafDesc pp perm := by
  constructor
  · rintro ⟨hnull, hv, hpp, hne⟩
    exact ⟨_, h.space_of_walk hd hva hnull hv, hpp, hne⟩
  · rintro ⟨w, hw, hpp, hne⟩
    obtain ⟨u, hu, rfl, hv⟩ := h.toShape.leads_of_space hd hva hw
    rw [Rewrites, h.walk_of_leads' hu]
    exact ⟨h.leads_ne_null hu _, hv, hpp, hne⟩

/-- What is mapped is a page of the pool. -/
theorem Forest.lt_of_rewrites (h : Forest L base km ρ p) (hd : ρ d = .dir) (hva : 2 ≤ (pudx va).val)
    (hr : Rewrites p d pp va perm) : pp < npage := by
  obtain ⟨w, hw, hpp, _⟩ := (h.rewrites_iff hd hva).mp hr
  refine h.lt_npage fun hk => ?_
  have hpage := (h.toShape.page_of_space (g := pageOf va) hd hva hw).2
  rw [hpp, hk] at hpage
  exact hpage

/-- Rewriting an entry takes a translation back. -/
theorem Forest.not_persist_rewrite (h : Forest L base km ρ p) (hd : ρ d = .dir)
    (hva : 2 ≤ (pudx va).val) (hr : Rewrites p d pp va perm) :
    ¬ Persist p.mem (p.store (p.walk d va) (leafDesc pp perm)).mem d := by
  have hlt : pp < npage := h.lt_of_rewrites hd hva hr
  obtain ⟨hnull, hv, _, hne⟩ := hr
  obtain ⟨h1, h2⟩ := valid_of_walk hnull
  obtain ⟨u, hu⟩ : ∃ u, Leads ρ d (pageOf va) u :=
    ⟨_, h.toShape.leads_of_valid (g := pageOf va) hd hva h1 h2⟩
  rw [h.walk_of_leads' hu] at hv hne ⊢
  intro hp
  -- the address as the hardware takes it
  have hmod : pageOf (va % 2 ^ 39) = pageOf va := pageOf_mod va
  have hpud : pudx (va % 2 ^ 39) = pudx va := congrArg Prod.fst hmod
  have hpte : ptex (va % 2 ^ 39) = ptex va := congrArg (fun g => g.2.2) hmod
  have hva39 : va % 2 ^ 39 < 2 ^ 39 := Nat.mod_lt _ (by decide)
  have hva' : 2 ≤ (pudx (va % 2 ^ 39)).val := by
    rw [hpud]
    exact hva
  have hold : translate p.mem d (va % 2 ^ 39) =
      some ⟨ppn (p.load ⟨u, ptex va⟩), p.load ⟨u, ptex va⟩ &&& 0xfff⟩ := by
    rw [h.toShape.translate_user hd hva', if_pos hva39, hmod, h.toShape.space_of_leads hu]
    exact congrArg (Option.map _) (if_pos hv)
  have hnew := h.translate_store_leaf hd (hmod.symm ▸ hu) hva' hva39 (isTable_leafDesc pp perm)
  rw [hpte, hp _ _ hold, hwFrame_leafDesc (hlt.trans (by decide))] at hnew
  injection hnew with hnew
  injection hnew with hf ha
  exact hne (desc_ext hf ha)

/-- What `page_insert` does where it rewrites an entry. -/
theorem Forest.trace_rewrite (h : Forest L base km ρ c.kernel.phys) (hd : ρ c.ttbr0 = .dir)
    (hva : 2 ≤ (pudx va).val) (hr : Rewrites c.kernel.phys c.ttbr0 pp va perm) :
    c.trace (.insert pp va perm) = .ok [.page .tlbInvalidate,
      .page (.store (c.kernel.phys.walk c.ttbr0 va) (leafDesc pp perm))] := by
  have hlt : pp < npage := h.lt_of_rewrites hd hva hr
  obtain ⟨hnull, hv, hpp, _⟩ := hr
  have hold : pa2page (c.kernel.phys.load (c.kernel.phys.walk c.ttbr0 va)) = .ok pp := by
    rw [pa2page, hpp, if_neg (Nat.not_le_of_lt hlt)]
  refine Except.map_eq_ok_iff.mpr ⟨(0, [.tlbInvalidate, .store _ _]), ?_, rfl⟩
  unfold Phys.pageInsertTrace
  dsimp only
  rw [if_pos ⟨hnull, hv⟩]
  refine Except.bind_eq_ok_iff.mpr ⟨pp, hold, ?_⟩
  rw [if_neg (not_not.mpr rfl)]
  rfl

/-- **A stale translation**: the MMU looks the page up between the `tlb_invalidate` of `page_insert`
and its store. -/
theorem Forest.stale_of_rewrites (h : Forest L base km ρ c.kernel.phys) (hd : ρ c.ttbr0 = .dir)
    (hva : 2 ≤ (pudx va).val) (hr : Rewrites c.kernel.phys c.ttbr0 pp va perm) :
    ∃ as c' k', c.trace (.insert pp va perm) = .ok as ∧ Tlb.Exec mmu c ∅ as c' k' ∧
      ¬ Tlb.Coherent mmu c' k' := by
  have hp := h.not_persist_rewrite hd hva hr
  simp only [Persist, not_forall] at hp
  obtain ⟨va', t, hold, hnew⟩ := hp
  have hn : ¬ mmu.Flush (.page (.store (c.kernel.phys.walk c.ttbr0 va) (leafDesc pp perm))) := by
    simp [mmu]
  have hx : Tlb.Exec mmu c ∅ _ _ (insert (va', t) ∅) :=
    .flush rfl (.fill hold (.step hn (.nil _ _)))
  exact ⟨_, _, _, h.trace_rewrite hd hva hr, hx, fun hc => hnew (hc va' t (Set.mem_insert _ _))⟩

/-- **The condition on `page_insert` is exact**: it is safe, whatever the TLB holds before it, if and
only if it does not rewrite an entry. -/
theorem Forest.safe_insert_iff (h : Forest L base km ρ c.kernel.phys) (hd : ρ c.ttbr0 = .dir)
    (hva : 2 ≤ (pudx va).val) {as : List CpuAct} (ht : c.trace (.insert pp va perm) = .ok as) :
    Tlb.Safe mmu c as ↔ ¬ Rewrites c.kernel.phys c.ttbr0 pp va perm := by
  constructor
  · intro hs hr
    obtain ⟨bs, c', k', hb, hx, hn⟩ := h.stale_of_rewrites hd hva hr
    obtain rfl := Except.ok.inj (ht.symm.trans hb)
    exact hn (hs _ _ _ hx)
  · exact fun hr => safe_insert ((h.quiet_insert hd hva).mpr hr) ht

/-- **The condition on `env_run` is exact.** -/
theorem safe_run_iff (e : Slot) :
    Tlb.Safe mmu c [.enter e, .page .tlbInvalidate, .msrTtbr0 (c.kernel.envs e).envPgdir] ↔
      Quiet c (.run e) := by
  have hx : Tlb.Safe mmu c ([.enter e] ++ .page .tlbInvalidate ::
      [.msrTtbr0 (c.kernel.envs e).envPgdir]) ↔ _ := Tlb.safe_iff rfl (by simp [mmu])
  have hphys : (c.kernel.envRun e).phys.mem = c.kernel.phys.mem := by rw [Kernel.phys_envRun]
  refine hx.trans ⟨fun h va t ht => ?_, fun h xs ys he va t ht => ?_⟩
  · have h1 : translate (c.kernel.envRun e).phys.mem (c.kernel.envs e).envPgdir va = some t :=
      h [] _ rfl va t (show translate (c.kernel.envRun e).phys.mem c.ttbr0 va = some t by
        rw [hphys]
        exact ht)
    rwa [hphys] at h1
  · change translate (c.kernel.envRun e).phys.mem (c.kernel.envs e).envPgdir va = some t
    rcases xs with _ | ⟨x, xs⟩
    · change translate (c.kernel.envRun e).phys.mem c.ttbr0 va = some t at ht
      rw [hphys] at ht ⊢
      exact h va t ht
    · obtain ⟨rfl, hnil⟩ := List.cons.inj he
      obtain ⟨rfl, -⟩ := List.append_eq_nil_iff.mp hnil.symm
      exact ht

end Kernel

/-! ## 7. The first environment -/

/-- Two words of the permission: plain, and read-only. -/
theorem leafDesc_ro_ne (f : Nat) : leafDesc f pteV ≠ leafDesc f (pteV ||| pteRO) := by
  intro h
  have hf : (page2pa f).testBit 7 = false := by simp [page2pa, Nat.testBit_shiftLeft]
  have h7 := congrArg (Nat.testBit · 7) h
  simp only [leafDesc, Nat.testBit_or, hf, Bool.false_or] at h7
  exact absurd h7 (by decide)

/-- **A quiet run**: the first environment gets its stack page at a second address and is entered
again. -/
theorem tlb_coherent_first : ∃ s : Kernel, s.Reachable ∧ s.curenv = some 0 ∧
    ∃ f c' k', TlbRun Quiet ⟨s, (s.envs 0).envPgdir⟩ ∅
      [.insert f 0x80000000 pteV, .run 0] c' k' ∧ Tlb.Coherent mmu c' k' := by
  obtain ⟨s₀, s, base, n, ρ, hs, _, h, _⟩ := firstEnv_left (k := 0) (by decide)
  obtain ⟨f, _, hspace⟩ := h.stack
  let c : Cpu := ⟨s, (s.envs 0).envPgdir⟩
  have hd := h.inv.dir 0 (fun hm => by simp at hm)
  have hva : 2 ≤ (pudx 0x80000000).val := by decide
  have hne : pageOf 0x80000000 ≠ pageOf (ustacktop - by2pg) := by decide
  have hnone : space s.phys.mem c.ttbr0 (pageOf 0x80000000) = none :=
    (hspace _ hva).trans (if_neg hne)
  -- no page is mapped there yet
  have hn : ¬ (s.phys.walk c.ttbr0 0x80000000 ≠ .null ∧
      Valid (s.phys.load (s.phys.walk c.ttbr0 0x80000000))) := by
    rintro ⟨hnull, hv⟩
    rw [h.inv.forest.space_of_walk hd hva hnull hv] at hnone
    cases hnone
  have hi : s.phys.pageInsertTrace c.ttbr0 f 0x80000000 pteV =
      .ok (s.phys.pageEnterTrace c.ttbr0 f 0x80000000 pteV) := by
    unfold Phys.pageInsertTrace
    exact if_neg hn
  have hq : Quiet c (.insert f 0x80000000 pteV) :=
    (Forest.quiet_insert h.inv.forest hd hva).mpr fun hr => hn ⟨hr.1, hr.2.1⟩
  obtain ⟨k₁, hk₁⟩ := Tlb.Exec.exists_plain (M := mmu)
    ((s.phys.pageEnterTrace c.ttbr0 f 0x80000000 pteV).2.map .page) c ∅
  rw [after_page] at hk₁
  let q := s.phys.accesses (s.phys.pageEnterTrace c.ttbr0 f 0x80000000 pteV).2
  obtain ⟨k₂, hk₂⟩ := Tlb.Exec.exists_plain (M := mmu)
    [.enter 0, .page .tlbInvalidate, .msrTtbr0 c.ttbr0]
    { c with kernel := { s with phys := q } } k₁
  have hr : TlbRun Quiet c ∅ [.insert f 0x80000000 pteV, .run 0] _ k₂ :=
    .snoc (.snoc .nil hq (Except.map_eq_ok_iff.mpr ⟨_, hi, rfl⟩) hk₁) (fun va t ht => ht) rfl hk₂
  exact ⟨s, hs.reachable, h.cur, f, _, k₂, hr, (tlb_coherent hr (Tlb.Coherent.empty _)).1⟩

/-- **A stale translation**: the first environment maps its stack page again at its own address,
read-only this time.  The MMU looks it up when `page_insert` has emptied the TLB, and the TLB still
says what the entry was when `page_insert` has returned. -/
theorem tlb_stale : ¬ ∀ (s : Kernel) (e : Slot), s.Reachable → s.curenv = some e →
    ∀ ops c' k', TlbRun (fun _ _ => True) ⟨s, (s.envs e).envPgdir⟩ ∅ ops c' k' →
      Tlb.Coherent mmu c' k' := by
  intro hall
  obtain ⟨s₀, s, base, n, ρ, hs, _, h, _⟩ := firstEnv_left (k := 0) (by decide)
  obtain ⟨f, _, hspace⟩ := h.stack
  have hd := h.inv.dir 0 (fun hm => by simp at hm)
  have hva : 2 ≤ (pudx (ustacktop - by2pg)).val := by decide
  have hr : Rewrites s.phys (s.envs 0).envPgdir f (ustacktop - by2pg) (pteV ||| pteRO) := by
    refine (h.inv.forest.rewrites_iff hd hva).mpr ⟨_, (hspace _ hva).trans (if_pos rfl), ?_, ?_⟩
    · exact ppn_leafDesc_of_lt f (by decide)
    · exact leafDesc_ro_ne f
  obtain ⟨as, c', k', ht, hx, hn⟩ :=
    Forest.stale_of_rewrites (c := ⟨s, (s.envs 0).envPgdir⟩) h.inv.forest hd hva hr
  exact hn (hall s 0 hs.reachable h.cur [_] c' k' (.snoc .nil trivial ht hx))

end RaspiOS
