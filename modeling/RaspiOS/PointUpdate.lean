/-
# `page_insert` as a point update

The user halves of a set of directories are a forest of radix trees, and `page_insert` changes one
answer of it or none.  Nothing here is about a kernel state: the directories are any set, the counters
any numbers, leaves may map frames nobody counts, and the free list may be of any length.  What is asked
of the forest is `WellFormed`.

The two halves of a walk with creation are links of empty tables, which change no answer.  So a walk
that fails has changed none, whatever it has linked; and a walk after a removal cannot fail, because the
tables it needs led to what was removed.
-/
import RaspiOS.Levels
import RaspiOS.Progress

set_option autoImplicit false

namespace RaspiOS

open LinkedList
open Radix (Path Reached Linked Stored)

/-! ## 1. Forests of directories -/

/-- What the kernel reads on the way down: a valid word names a table. -/
def kernelDecode (_ : Nat) (w : Nat) : Radix.Step Nat Empty :=
  if Valid w then .table (ppn w) else .void

/-- The entries of a directory that are its own. -/
def UserHalf (i : Fin 512) : Prop := 2 ≤ i.val

/-- The tables the kernel reaches, with the directories. -/
abbrev Table (D : Set Nat) (m : Mem) (f : Nat) : Prop := Reached kernelDecode D UserHalf 2 m f

/-- A table of the hardware under the two entries a directory shares with the others. -/
def LowTable (D : Set Nat) (m : Mem) (f : Nat) : Prop :=
  ∃ d ∈ D, ∃ i, ¬ UserHalf i ∧ IsTable (m d i) ∧ (hwFrame (m d i) = f ∨
    ∃ j, IsTable (m (hwFrame (m d i)) j) ∧ hwFrame (m (hwFrame (m d i)) j) = f)

/-- **A forest of directories**: the table frames are pairwise disjoint, no block hangs under a user
half, and leaves name frames below `npage`.  No table is frame zero, whose address is `NULL`. -/
structure Trees (D : Set Nat) (m : Mem) : Prop where
  disjoint : Radix.Disjoint kernelDecode D UserHalf 2 m
  noBlocks : ∀ ⦃d is g⦄ ⦃i : Fin 512⦄, Path D UserHalf d (i :: is) → is.length < 2 →
    Radix.walk kernelDecode m d is = .table g → Valid (m g i) → IsTable (m g i)
  leaf : ∀ ⦃d is u⦄ (k : Fin 512), Path D UserHalf d is → is.length = 2 →
    Radix.walk kernelDecode m d is = .table u → Valid (m u k) → ppn (m u k) < npage
  low : ∀ f, LowTable D m f → ¬ Table D m f
  null : ¬ Table D m 0

/-- A forest whose tables are off the free list `l`. -/
structure WellFormed (D : Set Nat) (p : Phys) (l : List Nat) : Prop extends Trees D p.mem where
  list : IsList p.pageFreeList () l
  off : ∀ f ∈ l, ¬ Table D p.mem f ∧ ¬ LowTable D p.mem f ∧ f ≠ 0

/-- The tables and the frames of `l` have addresses of at most 48 bits, so that the hardware follows
their descriptors where the kernel does. -/
def Nameable (D : Set Nat) (m : Mem) (l : List Nat) : Prop := ∀ f, Table D m f ∨ f ∈ l → f < 2 ^ 36

/-- What `page_lookup` finds: the page, and the descriptor `*ppte` points to. -/
def Phys.seen (p : Phys) (d va : Nat) : Except Halt (Option (Nat × Nat)) :=
  (p.pageLookup d va).map fun o => o.map fun x => (x.1, p.load x.2)

/-! ## 2. What a forest answers -/

section Answers

variable {D : Set Nat} {m : Mem} {p : Phys} {d f va : Nat} {i : Fin 512} {is : List (Fin 512)}

theorem kernelDecode_table {n w : Nat} :
    kernelDecode n w = .table f ↔ Valid w ∧ ppn w = f := by
  unfold kernelDecode
  split
  · rename_i hv
    exact ⟨fun h => ⟨hv, Radix.Step.table.inj h⟩, fun h => congrArg _ h.2⟩
  · rename_i hv
    exact ⟨fun h => (nomatch h), fun h => absurd h.1 hv⟩

theorem kernelDecode_void {n w : Nat} : kernelDecode n w = .void ↔ ¬ Valid w := by
  unfold kernelDecode
  split
  · rename_i hv
    exact ⟨fun h => (nomatch h), fun h => absurd hv h⟩
  · rename_i hv
    exact ⟨fun _ => hv, fun _ => rfl⟩

/-- The kernel has no answer but a table. -/
theorem walk_cases (m : Mem) (d : Nat) (is : List (Fin 512)) :
    Radix.walk kernelDecode m d is = .void ∨ ∃ f, Radix.walk kernelDecode m d is = .table f := by
  cases h : Radix.walk kernelDecode m d is with
  | void => exact .inl rfl
  | table f => exact .inr ⟨f, rfl⟩
  | final r => exact r.elim

theorem path_pathOf (hd : d ∈ D) (hva : UserVa va) : Path D UserHalf d (pathOf va) :=
  (Path.single (i := pudx va) hd hva).cons (List.cons_ne_nil _ _)

/-- The walk of an address, word by word. -/
theorem walk_pathOf (m : Mem) (d va : Nat) : Radix.walk kernelDecode m d (pathOf va) =
    if Valid (m d (pudx va)) then kernelDecode 1 (m (ppn (m d (pudx va))) (pmdx va))
    else .void := by
  rcases Decidable.em (Valid (m d (pudx va))) with h | h
  · have hw : Radix.walk kernelDecode m d [pudx va] = .table (ppn (m d (pudx va))) :=
      (Radix.walk_cons rfl).trans (if_pos h)
    rw [if_pos h]
    exact Radix.walk_cons hw
  · have hw : Radix.walk kernelDecode m d [pudx va] = .void :=
      (Radix.walk_cons rfl).trans (if_neg h)
    rw [if_neg h]
    exact Radix.walk_cons_of_void hw

/-- The address space of a directory, as a radix tree. -/
theorem space_eq (m : Mem) (d va : Nat) :
    space m d (pageOf va) = Radix.read kernelDecode (fun w => if Valid w then some w else none)
      Empty.elim none m d (ptex va) (pathOf va) := by
  simp only [space, pageOf, Radix.read, walk_pathOf, kernelDecode]
  rcases Decidable.em (Valid (m d (pudx va))) with h1 | h1
  · rcases Decidable.em (Valid (m (ppn (m d (pudx va))) (pmdx va))) with h2 | h2
    · simp only [h1, h2, if_true]
      rfl
    · simp only [h1, h2, if_true, if_false]
  · simp only [h1, if_false]

/-- The walk of the kernel without creation. -/
theorem Phys.walk_radix (p : Phys) (d va : Nat) :
    p.walk d va = match Radix.walk kernelDecode p.mem d (pathOf va) with
      | .table u => ⟨u, ptex va⟩
      | _ => .null := by
  simp only [Phys.walk_eq, walk_pathOf, kernelDecode]
  rcases Decidable.em (Valid (p.mem d (pudx va))) with h1 | h1
  · rcases Decidable.em (Valid (p.mem (ppn (p.mem d (pudx va))) (pmdx va))) with h2 | h2
    · simp only [if_pos h1, if_pos h2]
    · simp only [if_pos h1, if_neg h2]
  · simp only [if_neg h1]

/-- The walk finds a table that is there, whether it may create or not. -/
theorem Phys.pgdirWalk_table {u : Nat} {create : Bool}
    (h : Radix.walk kernelDecode p.mem d (pathOf va) = .table u) :
    p.pgdirWalk d va create = ((0, ⟨u, ptex va⟩), p) := by
  obtain ⟨t, ht, hu⟩ := Radix.walk_cons_eq_table h
  obtain ⟨hv1, rfl⟩ := kernelDecode_table.mp ((Radix.walk_cons rfl).symm.trans ht)
  obtain ⟨hv2, rfl⟩ := kernelDecode_table.mp hu
  simp only [Phys.pgdirWalk, Phys.descend, Phys.load, if_pos hv1, if_pos hv2]

namespace Trees

theorem ne_null (h : Trees D m) (hf : Table D m f) (k : Fin 512) : (⟨f, k⟩ : Ptr) ≠ .null := by
  intro he
  have h0 : f = 0 := congrArg Ptr.frame he
  exact h.null (h0 ▸ hf)

/-- **`page_lookup` reads the address space.** -/
theorem seen_eq (h : Trees D p.mem) (hd : d ∈ D) (hva : UserVa va) :
    p.seen d va = .ok ((space p.mem d (pageOf va)).map fun w => (ppn w, w)) := by
  have hp := path_pathOf hd hva
  unfold Phys.seen
  rw [space_eq, Radix.read]
  rcases walk_cases p.mem d (pathOf va) with hw | ⟨u, hw⟩
  · simp only [Phys.pageLookup, Phys.walk_radix, hw, if_true]
    rfl
  · have hne := h.ne_null (hp.reached le_rfl hw) (ptex va)
    simp only [Phys.pageLookup, Phys.walk_radix, hw, if_neg hne, Phys.load]
    cases hv : decide (Valid (p.mem u (ptex va))) with
    | false =>
      have hv := of_decide_eq_false hv
      rw [if_pos hv, if_neg hv]
      rfl
    | true =>
      have hv := of_decide_eq_true hv
      have hlt := h.leaf (ptex va) hp rfl hw hv
      rw [if_neg (not_not.mpr hv), if_pos hv, pa2page, if_neg (not_le.mpr hlt)]
      rfl

/-- The hardware reads it too, where it can name the tables. -/
theorem translate_eq (h : Trees D m) (hn : ∀ f, Table D m f → f < 2 ^ 36) (hd : d ∈ D)
    (hva : UserVa va) :
    translate m d va = if va < 2 ^ 39 then (space m d (pageOf va)).bind fun w =>
      if IsTable w then some ⟨ppn w, w &&& 0xfff⟩ else none else none := by
  have hinv : ∀ w, ¬ Valid w → ¬ IsTable w ∧ ¬ IsBlock w :=
    fun w hw => ⟨fun ht => hw ht.valid, fun hb => hw hb.valid⟩
  have hp1 : Path D UserHalf d [pudx va] := .single hd hva
  unfold translate
  refine if_congr Iff.rfl ?_ rfl
  rcases Decidable.em (Valid (m d (pudx va))) with h1 | h1
  · have ht1 := h.noBlocks hp1 Nat.zero_lt_two rfl h1
    have hw1 : Radix.walk kernelDecode m d [pudx va] = .table (ppn (m d (pudx va))) :=
      (Radix.walk_cons rfl).trans (if_pos h1)
    have hf1 := hwFrame_of_lt (hn _ (hp1.reached (Nat.le_succ 1) hw1))
    simp only [ht1, if_true, translatePmd, space, pageOf, h1, hf1]
    rcases Decidable.em (Valid (m (ppn (m d (pudx va))) (pmdx va))) with h2 | h2
    · have hp2 := path_pathOf hd hva
      have ht2 := h.noBlocks hp2 Nat.one_lt_two hw1 h2
      have hw2 := (Radix.walk_cons hw1).trans (if_pos h2)
      have hf2 := hwFrame_of_lt (hn _ (hp2.reached le_rfl hw2))
      simp only [ht2, if_true, translateLeaf, h2, hf2]
      rcases Decidable.em (Valid (m (ppn (m (ppn (m d (pudx va))) (pmdx va))) (ptex va))) with h3 | h3
      · have hlt := h.leaf (ptex va) hp2 rfl hw2 h3
        simp only [h3, if_true, Option.bind_some, hwFrame_of_lt (hlt.trans (by decide))]
      · simp only [h3, (hinv _ h3).1, if_false, Option.bind_none]
    · simp only [(hinv _ h2).1, (hinv _ h2).2, h2, if_false, Option.bind_none]
  · simp only [(hinv _ h1).1, (hinv _ h1).2, space, pageOf, h1, if_false, Option.bind_none]

end Trees

end Answers

/-! ## 3. The two changes -/

namespace Trees

variable {D : Set Nat} {m m' : Mem} {d f g u w : Nat} {i k : Fin 512} {is : List (Fin 512)}

/-- A table that no low entry leads to stays so when the words above it stay. -/
theorem lowTable_congr (h : ∀ x, LowTable D m x → ∀ j, m' x j = m x j)
    (hroot : ∀ x ∈ D, ∀ j, ¬ UserHalf j → m' x j = m x j) {x : Nat} :
    LowTable D m' x ↔ LowTable D m x := by
  have hsame : ∀ {y : Nat} {j : Fin 512}, y ∈ D → ¬ UserHalf j → IsTable (m y j) →
      ∀ l, m' (hwFrame (m y j)) l = m (hwFrame (m y j)) l :=
    fun hy hj ht l => h _ ⟨_, hy, _, hj, ht, .inl rfl⟩ l
  constructor
  · rintro ⟨y, hy, j, hj, ht, hx⟩
    rw [hroot y hy j hj] at ht hx
    simp only [hsame hy hj ht] at hx
    exact ⟨y, hy, j, hj, ht, hx⟩
  · rintro ⟨y, hy, j, hj, ht, hx⟩
    refine ⟨y, hy, j, hj, ?_, ?_⟩
    · rwa [hroot y hy j hj]
    · simp only [hroot y hy j hj, hsame hy hj ht]
      exact hx

/-- Below the user half the hardware reads tables that the kernel does not reach. -/
theorem translate_low (h : ∀ x, LowTable D m x → ∀ j, m' x j = m x j) (hd : d ∈ D) {va : Nat}
    (hva : ¬ UserVa va) (hroot : m' d (pudx va) = m d (pudx va)) :
    translate m' d va = translate m d va := by
  unfold translate
  refine if_congr Iff.rfl ?_ rfl
  rw [hroot]
  rcases Decidable.em (IsTable (m d (pudx va))) with h1 | h1
  · simp only [h1, if_true, translatePmd, h _ ⟨d, hd, _, hva, h1, .inl rfl⟩]
    rcases Decidable.em (IsTable (m (hwFrame (m d (pudx va))) (pmdx va))) with h2 | h2
    · simp only [h2, if_true, translateLeaf, h _ ⟨d, hd, _, hva, h1, .inr ⟨_, h2, rfl⟩⟩]
    · simp only [h2, if_false]
  · simp only [h1, if_false]

end Trees

/-- **What a change keeps**, at all addresses but those in `P`: the answers, and outside the tables and
the free frames every word. -/
structure Updated (D : Set Nat) (l : List Nat) (P : Nat → Nat → Prop) (m m' : Mem) : Prop where
  trees : Trees D m'
  tables : ∀ f, Table D m' f → Table D m f ∨ f ∈ l
  space : ∀ d ∈ D, ∀ va, UserVa va → ¬ P d va → space m' d (pageOf va) = space m d (pageOf va)
  root : ∀ d ∈ D, ∀ i, ¬ UserHalf i → m' d i = m d i
  other : ∀ f, f ∉ l → ¬ Table D m f → ∀ i, m' f i = m f i

namespace Updated

variable {D : Set Nat} {l l' : List Nat} {P : Nat → Nat → Prop} {m m' m'' : Mem}

theorem refl (h : Trees D m) : Updated D l P m m :=
  ⟨h, fun _ hf => .inl hf, fun _ _ _ _ _ => rfl, fun _ _ _ _ => rfl, fun _ _ _ _ => rfl⟩

/-- Changes compose. -/
theorem trans (h : Updated D l P m m') (h' : Updated D l' P m' m'') (hl : ∀ f ∈ l', f ∈ l) :
    Updated D l P m m'' where
  trees := h'.trees
  tables := fun f hf => (h'.tables f hf).elim (h.tables f) fun hf => .inr (hl f hf)
  space := fun d hd va hva hP =>
    (h'.space d hd va hva hP).trans (h.space d hd va hva hP)
  root := fun d hd i hi => (h'.root d hd i hi).trans (h.root d hd i hi)
  other := fun f hf ht i => by
    have ht' : ¬ Table D m' f := fun hc => (h.tables f hc).elim ht hf
    exact (h'.other f (fun hc => hf (hl f hc)) ht' i).trans (h.other f hf ht i)

theorem mono {Q : Nat → Nat → Prop} (h : Updated D l P m m') (hPQ : ∀ d va, P d va → Q d va) :
    Updated D l Q m m' where
  trees := h.trees
  tables := h.tables
  space := fun d hd va hva hQ => h.space d hd va hva fun hP => hQ (hPQ d va hP)
  root := h.root
  other := h.other

variable {p p' : Phys}

/-- `page_lookup` finds what it found. -/
theorem seen_eq (h : Updated D l P p.mem p'.mem) (ht : Trees D p.mem) {d va : Nat} (hd : d ∈ D)
    (hva : UserVa va) (hP : ¬ P d va) : p'.seen d va = p.seen d va := by
  rw [h.trees.seen_eq hd hva, ht.seen_eq hd hva, h.space d hd va hva hP]

/-- Its tables are old ones, or frames that were free. -/
theorem nameable (h : Updated D l P m m') (hn : Nameable D m l) (f : Nat) (hf : Table D m' f) :
    f < 2 ^ 36 := hn f (h.tables f hf)

/-- The hardware finds what it found, in both halves. -/
theorem translate_eq (h : Updated D l P p.mem p'.mem) (hw : WellFormed D p l)
    (hn : Nameable D p.mem l) {d va : Nat} (hd : d ∈ D) (hP : ¬ P d va) :
    translate p'.mem d va = translate p.mem d va := by
  rcases Classical.em (UserVa va) with hva | hva
  · rw [h.trees.translate_eq (h.nameable hn) hd hva,
      hw.translate_eq (fun f hf => hn f (.inl hf)) hd hva, h.space d hd va hva hP]
  · refine Trees.translate_low (fun x hx => ?_) hd hva (h.root d hd _ hva)
    exact h.other x (fun hc => (hw.off x hc).2.1 hx) (hw.low x hx)

end Updated

namespace Trees

variable {D : Set Nat} {l : List Nat} {m m' : Mem} {d g t u w : Nat} {i k : Fin 512}
  {is : List (Fin 512)}

/-- An entry of the part of the forest that the kernel reaches is no low entry of a directory. -/
theorem userHalf_of_root (h : Trees D m) (hp : Path D UserHalf d (i :: is)) (hn : is.length < 2)
    (hw : Radix.walk kernelDecode m d is = .table g) (hg : g ∈ D) : UserHalf i := by
  obtain ⟨-, his⟩ := h.disjoint hp.tail (Path.nil hg) hn.le (Nat.zero_le 2) hw rfl
  rw [← his] at hp
  exact hp.2 i rfl

/-- **A new table.** -/
theorem link (h : Trees D m) (hp : Path D UserHalf d (i :: is)) (hn : is.length < 2)
    (hw : Radix.walk kernelDecode m d is = .table g) (hvoid : ¬ Valid (m g i)) (hl : t ∈ l)
    (ht : ¬ Table D m t ∧ ¬ LowTable D m t ∧ t ≠ 0)
    (hm : ∀ x j, m' x j = if x = g ∧ j = i then tableDesc t else if x = t then 0 else m x j) :
    Updated D l (fun _ _ => False) m m' ∧
      Radix.walk kernelDecode m' d (i :: is) = .table t ∧
      (∀ x, Table D m' x ↔ x = t ∨ Table D m x) ∧ ∀ x, LowTable D m' x ↔ LowTable D m x := by
  have hg : Table D m g := hp.tail.reached hn.le hw
  have hgt : t ≠ g := fun he => ht.1 (he ▸ hg)
  have hold : ∀ x j, x ≠ t → ¬ (x = g ∧ j = i) → m' x j = m x j := by
    intro x j hx hne
    rw [hm, if_neg hne, if_neg hx]
  have hempty : ∀ j, m' t j = 0 := by
    intro j
    rw [hm, if_neg (fun hc => hgt hc.1), if_pos rfl]
  have hlink : Linked kernelDecode D UserHalf 2 m d i is g t m' :=
    { path := hp
      level := hn
      walk := hw
      void := kernelDecode_void.mpr hvoid
      fresh := ht.1
      names := by
        rw [hm, if_pos ⟨rfl, rfl⟩]
        exact kernelDecode_table.mpr ⟨valid_tableDesc t, ppn_tableDesc t⟩
      empty := fun _ j => kernelDecode_void.mpr (by rw [hempty j]; exact not_valid_zero)
      other := fun x j hx hne => hold x j (fun he => ht.1 (he ▸ hx)) hne }
  have hwalk : ∀ {x : Nat} {d' : Nat} {js : List (Fin 512)}, Path D UserHalf d' js →
      js.length ≤ 2 → Radix.walk kernelDecode m' d' js = .table x → x ≠ t →
      Radix.walk kernelDecode m d' js = .table x := by
    intro x d' js hp' hn' hw' hx
    refine (hlink.walk_old h.disjoint hp' hn' ?_).symm.trans hw'
    rintro ⟨rfl, rfl⟩
    rw [hlink.walk_new h.disjoint] at hw'
    exact hx (Radix.Step.table.inj hw').symm
  have htables : ∀ x, Table D m' x ↔ x = t ∨ Table D m x := fun x => hlink.reached_iff h.disjoint
  have hroot : ∀ x ∈ D, ∀ j, ¬ UserHalf j → m' x j = m x j := by
    intro x hx j hj
    have hxD : Table D m x := (Path.nil hx).reached (Nat.zero_le 2) rfl
    refine hold x j (fun he => ht.1 (he ▸ hxD)) ?_
    rintro ⟨rfl, rfl⟩
    exact hj (h.userHalf_of_root hp hn hw hx)
  have hlow : ∀ x, LowTable D m' x ↔ LowTable D m x := by
    refine fun x => lowTable_congr (fun y hy j => hold y j ?_ ?_) hroot
    · rintro rfl
      exact ht.2.1 hy
    · rintro ⟨rfl, -⟩
      exact h.low _ hy hg
  have htrees : Trees D m' :=
    { disjoint := hlink.disjoint h.disjoint
      noBlocks := by
        intro d' js x j hp' hn' hw' hv
        rcases eq_or_ne x t with rfl | hx
        · rw [hempty j] at hv
          exact absurd hv not_valid_zero
        · have hw₀ := hwalk hp'.tail hn'.le hw' hx
          rcases Decidable.em (x = g ∧ j = i) with he | he
          · rw [hm, if_pos he]
            exact isTable_tableDesc t
          · rw [hold x j hx he] at hv ⊢
            exact h.noBlocks hp' hn' hw₀ hv
      leaf := by
        intro d' js x j hp' hn' hw' hv
        rcases eq_or_ne x t with rfl | hx
        · rw [hempty j] at hv
          exact absurd hv not_valid_zero
        · have hw₀ := hwalk hp' hn'.le hw' hx
          have hne : ¬ (x = g ∧ j = i) := by
            rintro ⟨rfl, -⟩
            obtain ⟨-, his⟩ := h.disjoint hp.tail hp' hn.le hn'.le hw hw₀
            rw [← his, hn'] at hn
            exact absurd hn (lt_irrefl 2)
          rw [hold x j hx hne] at hv ⊢
          exact h.leaf j hp' hn' hw₀ hv
      low := fun x hx hxt => ((htables x).mp hxt).elim (fun he => ht.2.1 (he ▸ (hlow x).mp hx))
        (h.low x ((hlow x).mp hx))
      null := fun h0 => ((htables 0).mp h0).elim (fun he => ht.2.2 he.symm) h.null }
  refine ⟨⟨htrees, ?_, ?_, hroot, ?_⟩, hlink.walk_new h.disjoint, htables, hlow⟩
  · intro x hx
    exact ((htables x).mp hx).elim (fun he => .inr (he ▸ hl)) .inl
  · intro d' hd' va hva _
    rw [space_eq, space_eq]
    exact hlink.read_eq h.disjoint _ _ (fun j => by rw [hempty j]; exact if_neg not_valid_zero)
      (path_pathOf hd' hva) rfl
  · intro x hx hxt j
    exact hold x j (fun he => hx (he ▸ hl)) fun hc => hxt (hc.1 ▸ hg)

/-- **A store to the entry of a page.** -/
theorem store {va : Nat} (h : Trees D m) (hd : d ∈ D) (hva : UserVa va)
    (hw : Radix.walk kernelDecode m d (pathOf va) = .table u) (hleaf : Valid w → ppn w < npage)
    (hm : ∀ x j, m' x j = if x = u ∧ j = ptex va then w else m x j) :
    Updated D l (fun d' va' => d' = d ∧ pageOf va' = pageOf va) m m' ∧
      (Radix.walk kernelDecode m' d (pathOf va) = .table u) ∧
      ∀ va', pageOf va' = pageOf va →
        space m' d (pageOf va') = if Valid w then some w else none := by
  have hp := path_pathOf hd hva
  have hu : Table D m u := hp.reached le_rfl hw
  have hold : ∀ x j, ¬ (x = u ∧ j = ptex va) → m' x j = m x j := by
    intro x j hne
    rw [hm, if_neg hne]
  have hstore : Stored kernelDecode D UserHalf 2 m d (ptex va) (pathOf va) u m' :=
    ⟨hp, rfl, hw, fun x j _ hne => hold x j hne⟩
  have htables : ∀ x, Table D m' x ↔ Table D m x := fun x => hstore.reached_iff h.disjoint
  -- the table is no directory
  have hroot : ∀ x ∈ D, ∀ j, ¬ UserHalf j → m' x j = m x j := by
    intro x hx j hj
    refine hold x j ?_
    rintro ⟨rfl, -⟩
    obtain ⟨-, he⟩ := h.disjoint hp (Path.nil hx) le_rfl (Nat.zero_le 2) hw rfl
    cases he
  have hlow : ∀ x, LowTable D m' x ↔ LowTable D m x := by
    refine fun x => lowTable_congr (fun y hy j => hold y j ?_) hroot
    rintro ⟨rfl, -⟩
    exact h.low _ hy hu
  have hentry : ∀ {d' : Nat} {js : List (Fin 512)} {x : Nat}, Path D UserHalf d' js →
      js.length ≤ 2 → Radix.walk kernelDecode m' d' js = .table x →
      Radix.walk kernelDecode m d' js = .table x ∧ (x = u → js.length = 2) := by
    intro d' js x hp' hn' hw'
    have hw₀ := (hstore.walk_eq h.disjoint hp' hn').symm.trans hw'
    refine ⟨hw₀, ?_⟩
    rintro rfl
    obtain ⟨-, he⟩ := h.disjoint hp hp' le_rfl hn' hw hw₀
    rw [he]
    rfl
  have htrees : Trees D m' :=
    { disjoint := hstore.disjoint h.disjoint
      noBlocks := by
        intro d' js x j hp' hn' hw' hv
        obtain ⟨hw₀, hlast⟩ := hentry hp'.tail hn'.le hw'
        have hsame := hold x j fun hc => absurd (hlast hc.1) hn'.ne
        rw [hsame] at hv ⊢
        exact h.noBlocks hp' hn' hw₀ hv
      leaf := by
        intro d' js x j hp' hn' hw' hv
        obtain ⟨hw₀, -⟩ := hentry hp' hn'.le hw'
        rw [hm] at hv ⊢
        split at hv
        · rename_i he
          rw [if_pos he]
          exact hleaf hv
        · rename_i he
          rw [if_neg he]
          exact h.leaf j hp' hn' hw₀ hv
      low := fun x hx hxt => h.low x ((hlow x).mp hx) ((htables x).mp hxt)
      null := fun h0 => h.null ((htables 0).mp h0) }
  have hpage : ∀ va', pageOf va' = pageOf va ↔ ptex va' = ptex va ∧ pathOf va' = pathOf va := by
    intro va'
    simp only [pageOf, pathOf, Prod.mk.injEq, List.cons.injEq, and_true]
    tauto
  refine ⟨⟨htrees, fun x hx => .inl ((htables x).mp hx), ?_, hroot, ?_⟩, ?_, ?_⟩
  · intro d' hd' va' hva' hne
    rw [space_eq, space_eq]
    exact hstore.read_other _ _ _ h.disjoint (path_pathOf hd' hva') rfl
      fun hc => hne ⟨hc.1, (hpage va').mpr hc.2⟩
  · intro x _ hxt j
    exact hold x j fun hc => hxt (hc.1 ▸ hu)
  · exact (hstore.walk_eq h.disjoint hp le_rfl).trans hw
  · intro va' he
    obtain ⟨hk, hpath⟩ := (hpage va').mp he
    have hself : m' u (ptex va) = w := (hm _ _).trans (if_pos ⟨rfl, rfl⟩)
    rw [space_eq, hk, hpath, hstore.read_self _ _ _ h.disjoint, hself]

end Trees

/-! ## 4. The walk with creation -/

/-- What a walk leaves: a forest with the same answers, and a free list that has only become shorter. -/
structure Grew (D : Set Nat) (l : List Nat) (p p' : Phys) : Prop where
  updated : Updated D l (fun _ _ => False) p.mem p'.mem
  wellFormed : ∃ l', WellFormed D p' l' ∧ ∀ f ∈ l', f ∈ l
  ppRef : ∀ f, f ∉ l → p'.ppRef f = p.ppRef f

section Walk

variable {D : Set Nat} {l : List Nat} {p p' p'' : Phys} {d g pp va perm : Nat} {i : Fin 512}
  {is : List (Fin 512)}

theorem Grew.refl (h : WellFormed D p l) : Grew D l p p :=
  ⟨.refl h.toTrees, ⟨l, h, fun _ hf => hf⟩, fun _ _ => rfl⟩

theorem Grew.trans {l' : List Nat} (h : Grew D l p p') (h' : Grew D l' p' p'')
    (hl : ∀ f ∈ l', f ∈ l) : Grew D l p p'' where
  updated := h.updated.trans h'.updated hl
  wellFormed := by
    obtain ⟨l'', hw, hl'⟩ := h'.wellFormed
    exact ⟨l'', hw, fun f hf => hl f (hl' f hf)⟩
  ppRef := fun f hf => (h'.ppRef f fun hc => hf (hl f hc)).trans (h.ppRef f hf)

/-- **One level of the walk**: the table is there, or it is made, or no frame is left for it. -/
theorem WellFormed.descend (h : WellFormed D p l) (hp : Path D UserHalf d (i :: is))
    (hn : is.length < 2) (hw : Radix.walk kernelDecode p.mem d is = .table g) :
    p.descend ⟨g, i⟩ true = (none, p) ∨ ∃ t p', p.descend ⟨g, i⟩ true = (some t, p') ∧
      Grew D l p p' ∧ Radix.walk kernelDecode p'.mem d (i :: is) = .table t := by
  rcases Phys.descend_cases p ⟨g, i⟩ with ⟨hv, he⟩ | ⟨-, -, he⟩ | ⟨t, q, hv, hq, he⟩
  · exact .inr ⟨_, p, he, .refl h, (Radix.walk_cons hw).trans (if_pos hv)⟩
  · exact .inl he
  obtain ⟨l', rfl, hl'⟩ := Phys.pageAlloc_list hq h.list
  obtain ⟨-, rfl⟩ := Phys.pageAlloc_eq_some hq
  set q := (Phys.store { p.bzeroPage t with pageFreeList := p.pageFreeList.remove t } ⟨g, i⟩
    (tableDesc t)).incRef t with hq'
  have hm : ∀ x j, q.mem x j = if x = g ∧ j = i then tableDesc t else if x = t then 0 else p.mem x j :=
    fun _ _ => rfl
  obtain ⟨hup, hwalk, htables, hlow⟩ :=
    h.link hp hn hw hv List.mem_cons_self (h.off t List.mem_cons_self) hm
  refine .inr ⟨t, q, he, ⟨hup, ⟨l', ⟨hup.trees, hl', fun f hf => ?_⟩, fun f hf =>
    List.mem_cons_of_mem t hf⟩, fun f hf => ?_⟩, hwalk⟩
  · obtain ⟨h1, h2, h3⟩ := h.off f (List.mem_cons_of_mem t hf)
    have hft : f ≠ t := fun he => (List.nodup_cons.mp h.list.nodup).1 (he ▸ hf)
    exact ⟨fun hc => ((htables f).mp hc).elim hft h1, fun hc => h2 ((hlow f).mp hc), h3⟩
  · rw [List.mem_cons, not_or] at hf
    exact if_neg hf.1

/-- **The walk with creation**: it arrives at a table, or there is no frame left, and in either case it
has changed no answer. -/
theorem WellFormed.pgdirWalk (h : WellFormed D p l) (hd : d ∈ D) (hva : UserVa va) :
    ∃ p', Grew D l p p' ∧ (p.pgdirWalk d va true = ((-eNoMem, .null), p') ∨
      ∃ u, p.pgdirWalk d va true = ((0, ⟨u, ptex va⟩), p') ∧
        Radix.walk kernelDecode p'.mem d (pathOf va) = .table u) := by
  have hp1 : Path D UserHalf d [pudx va] := .single hd hva
  rcases h.descend hp1 Nat.zero_lt_two rfl with he | ⟨t, p₁, he, hgrew, hw₁⟩
  · refine ⟨p, .refl h, .inl ?_⟩
    simp only [Phys.pgdirWalk, he]
  obtain ⟨l₁, h₁, hl₁⟩ := hgrew.wellFormed
  rcases h₁.descend (path_pathOf hd hva) Nat.one_lt_two hw₁ with he' | ⟨u, p₂, he', hgrew', hw₂⟩
  · refine ⟨p₁, hgrew, .inl ?_⟩
    simp only [Phys.pgdirWalk, he, he']
  · refine ⟨p₂, hgrew.trans hgrew' hl₁, .inr ⟨u, ?_, hw₂⟩⟩
    simp only [Phys.pgdirWalk, he, he']

/-! ## 5. `page_insert` -/

/-- The addresses of one page of one directory. -/
def At (d va : Nat) (d' va' : Nat) : Prop := d' = d ∧ pageOf va' = pageOf va

/-- The page of `va` is mapped by `w`, and every other page as before. -/
structure Entered (D : Set Nat) (l : List Nat) (d va w : Nat) (p p' : Phys) : Prop where
  updated : Updated D l (At d va) p.mem p'.mem
  answer : ∀ va', pageOf va' = pageOf va → space p'.mem d (pageOf va') = some w

/-- The tail of `page_insert` where the tables are there. -/
theorem Phys.pageEnter_table {u : Nat}
    (h : Radix.walk kernelDecode p.mem d (pathOf va) = .table u) : p.pageEnter d pp va perm =
      (0, (p.store ⟨u, ptex va⟩ (leafDesc pp perm)).incRef pp) := by
  simp only [Phys.pageEnter, Phys.pgdirWalk_table h]
  rfl

/-- The leaf of a page below `npage` may be stored. -/
theorem ppn_leafDesc_lt (hpp : pp < npage) (hperm : perm < by2pg) :
    ppn (leafDesc pp perm) = pp ∧ ppn (leafDesc pp perm) < npage := by
  have hmod : perm % 2 ^ 32 < by2pg := lt_of_le_of_lt (Nat.mod_le _ _) hperm
  rw [ppn_leafDesc_of_lt pp hmod]
  exact ⟨rfl, hpp⟩

/-- **The store of the leaf**, after whatever else has happened to that word. -/
theorem Trees.entered {u : Nat} (h : Trees D p.mem) (hd : d ∈ D) (hva : UserVa va)
    (hw : Radix.walk kernelDecode p.mem d (pathOf va) = .table u) (hpp : pp < npage)
    (hperm : perm < by2pg)
    (hm : ∀ x j, p'.mem x j = if x = u ∧ j = ptex va then leafDesc pp perm else p.mem x j) :
    Entered D l d va (leafDesc pp perm) p p' := by
  obtain ⟨hup, -, hself⟩ := h.store (l := l) hd hva hw (fun _ => (ppn_leafDesc_lt hpp hperm).2) hm
  refine ⟨hup, fun va' he => ?_⟩
  rw [hself va' he, if_pos (valid_leafDesc pp perm)]

/-- The tail of `page_insert`. -/
theorem WellFormed.pageEnter (h : WellFormed D p l) (hd : d ∈ D) (hva : UserVa va)
    (hpp : pp < npage) (hperm : perm < by2pg) :
    ∃ p', (p.pageEnter d pp va perm = (-eNoMem, p') ∧ Grew D l p p') ∨
      p.pageEnter d pp va perm = (0, p') ∧ Entered D l d va (leafDesc pp perm) p p' := by
  obtain ⟨p₁, hgrew, he | ⟨u, he, hw⟩⟩ := h.pgdirWalk hd hva
  · refine ⟨p₁, .inl ⟨?_, hgrew⟩⟩
    simp only [Phys.pageEnter, he]
    rfl
  · refine ⟨(p₁.store ⟨u, ptex va⟩ (leafDesc pp perm)).incRef pp, .inr ⟨?_, ?_⟩⟩
    · simp only [Phys.pageEnter, he]
      rfl
    · obtain ⟨l₁, h₁, hl₁⟩ := hgrew.wellFormed
      have hent : Entered D l₁ d va (leafDesc pp perm) p₁
          ((p₁.store ⟨u, ptex va⟩ (leafDesc pp perm)).incRef pp) :=
        h₁.entered hd hva hw hpp hperm fun _ _ => rfl
      exact ⟨(hgrew.updated.mono fun _ _ hc => hc.elim).trans hent.updated hl₁, hent.answer⟩

/-- **`page_insert`**: the leaf is there, or no frame was left and no answer has changed.  The second
case needs no removal to be undone: what was mapped has tables that lead to it. -/
theorem WellFormed.pageInsert (h : WellFormed D p l) (hd : d ∈ D) (hva : UserVa va)
    (hpp : pp < npage) (hperm : perm < by2pg) :
    ∃ p', (p.pageInsert d pp va perm = .ok (-eNoMem, p') ∧ Grew D l p p') ∨
      p.pageInsert d pp va perm = .ok (0, p') ∧ Entered D l d va (leafDesc pp perm) p p' := by
  have hp := path_pathOf hd hva
  have henter : (¬ (p.walk d va ≠ .null ∧ Valid (p.load (p.walk d va)))) → ∃ p',
      (p.pageInsert d pp va perm = .ok (-eNoMem, p') ∧ Grew D l p p') ∨
      p.pageInsert d pp va perm = .ok (0, p') ∧ Entered D l d va (leafDesc pp perm) p p' := by
    intro hno
    have heq : p.pageInsert d pp va perm = .ok (p.pageEnter d pp va perm) := by
      simp only [Phys.pageInsert, if_neg hno]
      rfl
    obtain ⟨p', ⟨he, hgrew⟩ | ⟨he, hent⟩⟩ := h.pageEnter hd hva hpp hperm
    · exact ⟨p', .inl ⟨heq.trans (congrArg _ he), hgrew⟩⟩
    · exact ⟨p', .inr ⟨heq.trans (congrArg _ he), hent⟩⟩
  rcases walk_cases p.mem d (pathOf va) with hw | ⟨u, hw⟩
  · refine henter fun hc => hc.1 ?_
    simp only [Phys.walk_radix, hw]
  have hwalk : p.walk d va = ⟨u, ptex va⟩ := by simp only [Phys.walk_radix, hw]
  rcases Decidable.em (Valid (p.mem u (ptex va))) with hv | hv
  · have hne : p.walk d va ≠ .null := by
      rw [hwalk]
      exact h.ne_null (hp.reached le_rfl hw) _
    have hload : p.load (p.walk d va) = p.mem u (ptex va) := by rw [hwalk]; rfl
    have hlt := h.leaf (ptex va) hp rfl hw hv
    have hpage : pa2page (p.mem u (ptex va)) = .ok (ppn (p.mem u (ptex va))) :=
      if_neg (not_le.mpr hlt)
    have hlook : p.pageLookup d va = .ok (some (ppn (p.mem u (ptex va)), ⟨u, ptex va⟩)) := by
      simp only [Phys.pageLookup, if_neg hne, hload, if_neg (not_not.mpr hv), hpage]
      rw [hwalk]
      rfl
    rcases eq_or_ne (ppn (p.mem u (ptex va))) pp with heq | hold
    · -- the page is there already, with another permission perhaps
      refine ⟨p.store (p.walk d va) (leafDesc pp perm), .inr ⟨?_, ?_⟩⟩
      · simp only [Phys.pageInsert, hload, if_pos (And.intro hne hv), hpage, bind, Except.bind, heq,
          ne_eq, not_true_eq_false, if_false]
        rfl
      · rw [hwalk]
        exact h.entered hd hva hw hpp hperm fun _ _ => rfl
    · -- another page is removed, and the walk that follows finds the table
      obtain ⟨p₁, hrem, hm₁⟩ : ∃ p₁, p.pageRemove d va = .ok p₁ ∧
          p₁.mem = (p.store ⟨u, ptex va⟩ 0).mem := by
        simp only [Phys.pageRemove, hlook, bind, Except.bind]
        refine ⟨_, rfl, ?_⟩
        funext x j
        rw [Phys.mem_store, Phys.mem_store]
        split
        · rfl
        · split
          · rw [Phys.mem_pageFree]
            rfl
          · rfl
      have hw₁ : Radix.walk kernelDecode p₁.mem d (pathOf va) = .table u :=
        (h.store (l := l) hd hva hw (fun hc => absurd hc not_valid_zero)
          (fun x j => by rw [hm₁]; rfl)).2.1
      refine ⟨(p₁.store ⟨u, ptex va⟩ (leafDesc pp perm)).incRef pp, .inr ⟨?_, ?_⟩⟩
      · simp only [Phys.pageInsert, hload, if_pos (And.intro hne hv), hpage, bind, Except.bind,
          if_pos hold, hrem, Phys.pageEnter_table hw₁]
        rfl
      · refine h.entered hd hva hw hpp hperm fun x j => ?_
        rw [Phys.mem_incRef, Phys.mem_store, hm₁, Phys.mem_store]
        split
        · rfl
        · rfl
  · refine henter fun hc => hv ?_
    rw [hwalk] at hc
    exact hc.2

/-- Bits 12 to 38 of two addresses agree. -/
def SamePage (va va' : Nat) : Prop := va' / 2 ^ 12 % 2 ^ 27 = va / 2 ^ 12 % 2 ^ 27

theorem pageOf_eq_iff (va va' : Nat) : pageOf va' = pageOf va ↔ SamePage va va' := by
  simp only [pageOf, Prod.mk.injEq, Fin.ext_iff, pudx_val, pmdx_val, ptex_val, SamePage]
  omega

/-- **The page of `va` is mapped to `pp`**, and every other page of every directory as before; `l` are
the free frames. -/
structure PointUpdated (D : Set Nat) (l : List Nat) (p : Phys) (d pp va perm : Nat) (p' : Phys) :
    Prop where
  lookup : ∀ va', SamePage va va' → p'.seen d va' = .ok (some (pp, leafDesc pp perm))
  translate : Nameable D p.mem l → ∀ va', SamePage va va' → va' < 2 ^ 39 →
    translate p'.mem d va' = some ⟨pp, leafDesc pp perm &&& 0xfff⟩
  otherLookup : ∀ d' ∈ D, ∀ va', ¬ (d' = d ∧ SamePage va va') → UserVa va' →
    p'.seen d' va' = p.seen d' va'
  otherTranslate : Nameable D p.mem l → ∀ d' ∈ D, ∀ va', ¬ (d' = d ∧ SamePage va va') →
    RaspiOS.translate p'.mem d' va' = RaspiOS.translate p.mem d' va'

/-- **Nothing has happened** that a directory or a counter shows; `l` are the free frames. -/
structure Untouched (D : Set Nat) (l : List Nat) (p p' : Phys) : Prop where
  lookup : ∀ d ∈ D, ∀ va, UserVa va → p'.seen d va = p.seen d va
  translate : Nameable D p.mem l → ∀ d ∈ D, ∀ va, translate p'.mem d va = translate p.mem d va
  ppRef : ∀ f, f ∉ l → p'.ppRef f = p.ppRef f

theorem Entered.pointUpdated (h : WellFormed D p l) (hd : d ∈ D) (hva : UserVa va)
    (hframe : ppn (leafDesc pp perm) = pp) (hent : Entered D l d va (leafDesc pp perm) p p') :
    PointUpdated D l p d pp va perm p' := by
  have hhere : ∀ va', SamePage va va' → UserVa va' ∧
      space p'.mem d (pageOf va') = some (leafDesc pp perm) := by
    intro va' hbits
    have hpage := (pageOf_eq_iff va va').mpr hbits
    have h1 : pudx va' = pudx va := congrArg Prod.fst hpage
    exact ⟨by rw [UserVa, h1]; exact hva, hent.answer va' hpage⟩
  have hthere : ∀ d' va', ¬ (d' = d ∧ SamePage va va') → ¬ At d va d' va' :=
    fun d' va' hne hc => hne ⟨hc.1, (pageOf_eq_iff va va').mp hc.2⟩
  exact
    { lookup := by
        intro va' hbits
        obtain ⟨hva', hspace⟩ := hhere va' hbits
        rw [hent.updated.trees.seen_eq hd hva', hspace, Option.map_some, hframe]
      translate := by
        intro hn va' hbits hlt
        obtain ⟨hva', hspace⟩ := hhere va' hbits
        rw [hent.updated.trees.translate_eq (hent.updated.nameable hn) hd hva', if_pos hlt, hspace, Option.bind_some,
          if_pos (isTable_leafDesc pp perm), hframe]
      otherLookup := fun d' hd' va' hne hva' =>
        hent.updated.seen_eq h.toTrees hd' hva' (hthere d' va' hne)
      otherTranslate := fun hn d' hd' va' hne =>
        hent.updated.translate_eq h hn hd' (hthere d' va' hne) }

theorem Grew.untouched (h : WellFormed D p l) (hgrew : Grew D l p p') : Untouched D l p p' where
  lookup := fun _ hd _ hva => hgrew.updated.seen_eq h.toTrees hd hva id
  translate := fun hn _ hd _ => hgrew.updated.translate_eq h hn hd id
  ppRef := hgrew.ppRef

end Walk

/-- **`page_insert` is a point update, all or nothing.**  In a well-formed forest, for any directory, a
frame below `npage`, an address of the user half and a permission word of twelve bits, it returns zero
and has mapped the page, or it returns `-E_NO_MEM` and nothing has changed. -/
theorem page_insert_point {D : Set Nat} {l : List Nat} {p : Phys} {d pp va perm : Nat}
    (h : WellFormed D p l) (hd : d ∈ D) (hva : UserVa va) (hpp : pp < npage) (hperm : perm < 4096) :
    ∃ r p', p.pageInsert d pp va perm = .ok (r, p') ∧
      (r = 0 ∧ PointUpdated D l p d pp va perm p' ∨ r = -eNoMem ∧ Untouched D l p p') := by
  obtain ⟨p', ⟨he, hgrew⟩ | ⟨he, hent⟩⟩ := h.pageInsert hd hva hpp hperm
  · exact ⟨_, p', he, .inr ⟨rfl, hgrew.untouched h⟩⟩
  · exact ⟨_, p', he, .inl ⟨rfl, hent.pointUpdated h hd hva (ppn_leafDesc_lt hpp hperm).1⟩⟩

/-! ## 6. The forest of the kernel is one -/

namespace Forest

variable {L : Layout} {base : Nat} {km : Mem} {ρ : Nat → Role} {p : Phys} {d f : Nat}
  {is : List (Fin 512)}

/-- The role of the table a path leads to. -/
def PathRole (ρ : Nat → Role) (d f : Nat) : List (Fin 512) → Prop
  | [] => ρ f = .dir ∧ f = d
  | [i] => ρ f = .pmd d i
  | [j, i] => ∃ t, ρ t = .pmd d i ∧ ρ f = .pte t j
  | _ => False

theorem pathRole (h : Forest L base km ρ p) (hp : Path {d | ρ d = .dir} UserHalf d is)
    (hn : is.length ≤ 2) (hw : Radix.walk kernelDecode p.mem d is = .table f) :
    PathRole ρ d f is := by
  have hone : ∀ {i t}, Path {d | ρ d = .dir} UserHalf d [i] →
      Radix.walk kernelDecode p.mem d [i] = .table t → ρ t = .pmd d i := by
    intro i t hp hw
    obtain ⟨hv, rfl⟩ := kernelDecode_table.mp ((Radix.walk_cons rfl).symm.trans hw)
    exact (h.dirUser d hp.1 i (hp.2 i rfl) hv).2
  match is, hp, hn, hw with
  | [], hp, _, hw =>
    cases hw
    exact ⟨hp.1, rfl⟩
  | [i], hp, _, hw => exact hone hp hw
  | [j, i], hp, _, hw =>
    obtain ⟨t, ht, hu⟩ := Radix.walk_cons_eq_table hw
    obtain ⟨hv, rfl⟩ := kernelDecode_table.mp hu
    have hr := hone hp.tail ht
    exact ⟨t, hr, (h.pmdUser t d i hr j hv).2⟩
  | _ :: _ :: _ :: _, _, hn, _ => exact absurd hn (by simp)

theorem role_of_table (h : Forest L base km ρ p) (hf : Table {d | ρ d = .dir} p.mem f) :
    ρ f ≠ .kernel ∧ ρ f ≠ .free := by
  obtain ⟨d, is, hp, hn, hw⟩ := hf
  have hr := h.pathRole hp hn hw
  match is, hr with
  | [], hr => simp [hr.1]
  | [i], hr => simp only [PathRole] at hr; simp [hr]
  | [j, i], hr =>
    obtain ⟨t, _, hr⟩ := hr
    simp [hr]

/-- The tables that directories share are the kernel's. -/
theorem role_of_lowTable (h : Forest L base km ρ p) (hf : LowTable {d | ρ d = .dir} p.mem f) :
    ρ f = .kernel := by
  have hb := h.map.le_base
  obtain ⟨d, hd, i, hi, ht, hf⟩ := hf
  obtain ⟨t, -, hfr, htt⟩ := h.map.dir_low hi
  rw [h.dirLow d hd i (not_le.mp hi), hfr] at hf
  rw [h.kernel]
  rcases hf with rfl | ⟨j, hj, rfl⟩
  · omega
  · rw [h.kernelMem t (by omega) (by omega)] at hj ⊢
    obtain ⟨-, hhi, hf⟩ := h.map.pmd_closed htt j hj
    exact .inl (hf ▸ hhi)

/-- **The tables of all environments are a well-formed forest**, and its roots are the directories. -/
theorem wellFormed (h : Forest L base km ρ p) {l : List Nat} (hl : IsList p.pageFreeList () l) :
    WellFormed {d | ρ d = .dir} p l where
  disjoint := by
    intro d is d' is' f hp hp' hn hn' hw hw'
    have hr := h.pathRole hp hn hw
    have hr' := h.pathRole hp' hn' hw'
    match is, is', hr, hr' with
    | [], [], hr, hr' => exact ⟨hr'.2.symm.trans hr.2, rfl⟩
    | [], [_], hr, hr' => cases hr.1.symm.trans hr'
    | [], [_, _], hr, ⟨_, _, hr'⟩ => cases hr.1.symm.trans hr'
    | [_], [], hr, hr' => cases hr'.1.symm.trans hr
    | [_], [_], hr, hr' =>
      cases Eq.trans (Eq.symm hr) hr'
      exact ⟨rfl, rfl⟩
    | [_], [_, _], hr, ⟨_, _, hr'⟩ => cases Eq.trans (Eq.symm hr) hr'
    | [_, _], [], ⟨_, _, hr⟩, hr' => cases hr'.1.symm.trans hr
    | [_, _], [_], ⟨_, _, hr⟩, hr' => cases hr.symm.trans hr'
    | [_, _], [_, _], ⟨_, ht, hr⟩, ⟨_, ht', hr'⟩ =>
      cases hr.symm.trans hr'
      cases ht.symm.trans ht'
      exact ⟨rfl, rfl⟩
  noBlocks := by
    intro d is g i hp hn hw hv
    have hr := h.pathRole hp.tail hn.le hw
    match is, hp, hn, hr with
    | [], hp, _, ⟨hr, hg⟩ =>
      rw [hg] at hr hv ⊢
      exact (h.dirUser d hr i (hp.2 i rfl) hv).1
    | [k], _, _, hr => exact (h.pmdUser g d k hr i hv).1
    | _ :: _ :: _, _, hn, _ => exact absurd hn (by simp)
  leaf := by
    intro d is u k hp hn hw hv
    have hr := h.pathRole hp hn.le hw
    match is, hn, hr with
    | [j, i], _, ⟨t, _, hr⟩ =>
      have hpage := h.page_of_leaf hr hv
      exact h.lt_npage fun he => by rw [he] at hpage; exact hpage
  low := fun f hf ht => (h.role_of_table ht).1 (h.role_of_lowTable hf)
  null := by
    have hb := h.map.le_base
    exact fun h0 => (h.role_of_table h0).1 ((h.kernel 0).mpr (by omega))
  list := hl
  off := by
    have hb := h.map.le_base
    obtain ⟨l', hl', hmem⟩ := h.pages
    intro f hf
    have hfree : ρ f = .free := (hmem f).mp ((hl'.onChain_iff f).mp ((hl.onChain_iff f).mpr hf))
    refine ⟨fun ht => (h.role_of_table ht).2 hfree, fun ht => ?_, ?_⟩
    · rw [h.role_of_lowTable ht] at hfree
      cases hfree
    · rintro rfl
      rw [(h.kernel 0).mpr (by omega)] at hfree
      cases hfree

/-- The frames of the pool are below `npage`. -/
theorem nameable (h : Forest L base km ρ p) {l : List Nat} (hl : IsList p.pageFreeList () l) :
    Nameable {d | ρ d = .dir} p.mem l := by
  rintro f (hf | hf)
  · exact (h.lt_npage (h.role_of_table hf).1).trans (by decide)
  · obtain ⟨l', hl', hmem⟩ := h.pages
    have hfree : ρ f = .free := (hmem f).mp ((hl'.onChain_iff f).mp ((hl.onChain_iff f).mpr hf))
    exact (h.lt_npage (by rw [hfree]; exact (nomatch ·))).trans (by decide)

end Forest

/-- The first environment enters a page below its stack, and the hardware finds it there. -/
theorem page_insert_point_first : ∃ D l p d p', WellFormed D p l ∧ d ∈ D ∧
    p.pageInsert d 0x3fff0 (ustacktop - 2 * by2pg) pteV = .ok (0, p') ∧
    PointUpdated D l p d 0x3fff0 (ustacktop - 2 * by2pg) pteV p' ∧
    translate p'.mem d (ustacktop - 2 * by2pg)
      = some ⟨0x3fff0, leafDesc 0x3fff0 pteV &&& 0xfff⟩ := by
  obtain ⟨s₀, s, base, ρ, hb, _, hr, n, hn, h⟩ := firstEnv_reached .zero
  have hd : (s.envs 0).envPgdir ∈ {d | ρ d = .dir} := h.inv.dir 0 (by simp)
  have hw := h.inv.forest.wellFormed h.pages
  obtain ⟨u, hu, hv⟩ := h.belowStack
  have hins := h.inv.forest.pageInsert_of_leads hu hv 0x3fff0 pteV
  have hva : UserVa (ustacktop - 2 * by2pg) := by
    unfold UserVa
    decide
  have hpp : 0x3fff0 < npage := by decide
  have hperm : pteV < 4096 := by decide
  obtain ⟨r, p', he, hpoint⟩ := page_insert_point hw hd hva hpp hperm
  obtain ⟨rfl, rfl⟩ := Prod.mk.inj (Except.ok.inj (hins.symm.trans he))
  rcases hpoint with ⟨-, hpoint⟩ | ⟨hne, -⟩
  · refine ⟨_, _, s.phys, _, _, hw, hd, hins, hpoint, ?_⟩
    exact hpoint.translate (h.inv.forest.nameable h.pages) _ rfl (by decide)
  · exact absurd hne (by decide)

end RaspiOS
