/-
# Intrusive doubly linked lists

A list of the BSD `queue(3)` kind has no storage of its own: the head is one pointer cell and
every element carries a forward pointer and the ADDRESS OF THE CELL that points to it.  That
back link is what lets an element be unlinked without knowing which list it is on, and it is
also what makes a stale element dangerous: unlinking writes through whatever address the back
link still holds.

So the model keeps cells and addresses of cells apart from elements.  `Links` is the memory the
link fields live in, for any number of heads over one link field; the operations are the
assignments of the macros in their order, total on every heap, well formed or not.  `IsList` says
that a head spells a duplicate-free sequence with correct back links, and the lemmas below it say
what each operation does to the sequence.
-/
import Mathlib.Data.List.Nodup
import Mathlib.Data.List.Count

set_option autoImplicit false

namespace LinkedList

/-! ## 1. Cells, heaps and the operations -/

/-- The address of a cell that can point to an element: the null address, a list head, or the
forward pointer of an element. -/
inductive Cell (η α : Type) where
  | null
  | head (h : η)
  | next (a : α)
deriving DecidableEq

/-- The memory of one link field: the heads that use it, both pointers of every element, and the
word at address zero, which a null back link would write. -/
structure Links (η α : Type) where
  first : η → Option α
  next : α → Option α
  prev : α → Cell η α
  zero : Option α

variable {η α : Type}

namespace Links

/-- Memory full of zeros: every pointer is null. -/
def zeroed : Links η α := ⟨fun _ => none, fun _ => none, fun _ => .null, none⟩

/-- What a cell points to. -/
def get (l : Links η α) : Cell η α → Option α
  | .null => l.zero
  | .head h => l.first h
  | .next a => l.next a

/-- Assignment to the back link of an element. -/
def setPrev [DecidableEq α] (l : Links η α) (a : α) (c : Cell η α) : Links η α :=
  { l with prev := fun a' => if a' = a then c else l.prev a' }

theorem get_setPrev [DecidableEq α] (l : Links η α) (a : α) (c d : Cell η α) :
    (l.setPrev a c).get d = l.get d := by
  cases d <;> rfl

theorem next_setPrev [DecidableEq α] (l : Links η α) (a : α) (c : Cell η α) :
    (l.setPrev a c).next = l.next := rfl

theorem prev_setPrev [DecidableEq α] (l : Links η α) (a b : α) (c : Cell η α) :
    (l.setPrev a c).prev b = if b = a then c else l.prev b := rfl

variable [DecidableEq η] [DecidableEq α]

/-- Assignment through the address of a cell. -/
def set (l : Links η α) (c : Cell η α) (v : Option α) : Links η α :=
  match c with
  | .null => { l with zero := v }
  | .head h => { l with first := fun h' => if h' = h then v else l.first h' }
  | .next a => { l with next := fun a' => if a' = a then v else l.next a' }

/-- `LIST_INIT(head)`. -/
def init (l : Links η α) (h : η) : Links η α := l.set (.head h) none

/-- `LIST_INSERT_HEAD(head, elm, field)`. -/
def insertHead (l : Links η α) (h : η) (elm : α) : Links η α :=
  let l := l.set (.next elm) (l.first h)
  let l := match l.next elm with
    | some f => l.setPrev f (.next elm)
    | none => l
  let l := l.set (.head h) (some elm)
  l.setPrev elm (.head h)

/-- `LIST_REMOVE(elm, field)`. -/
def remove (l : Links η α) (elm : α) : Links η α :=
  let l := match l.next elm with
    | some n => l.setPrev n (l.prev elm)
    | none => l
  l.set (l.prev elm) (l.next elm)

/-! ### Reading after writing -/

@[simp] theorem prev_set (l : Links η α) (c : Cell η α) (v : Option α) :
    (l.set c v).prev = l.prev := by
  cases c <;> rfl

theorem get_set (l : Links η α) (c d : Cell η α) (v : Option α) :
    (l.set c v).get d = if d = c then v else l.get d := by
  cases c <;> cases d <;> simp [set, get]

/-- The cells after an insertion: the new element's, the head's, and the rest as before. -/
theorem get_insertHead (l : Links η α) (h : η) (a : α) (d : Cell η α) :
    (l.insertHead h a).get d
      = if d = .head h then some a else if d = .next a then l.first h else l.get d := by
  unfold insertHead
  simp only [get_setPrev, get_set]
  split
  · rfl
  · split <;> simp only [get_setPrev, get_set]

/-- The back links after an insertion: only the new element's and the old first one's move. -/
theorem prev_insertHead (l : Links η α) (h : η) (a b : α) :
    (l.insertHead h a).prev b
      = if b = a then .head h else if l.first h = some b then .next a else l.prev b := by
  have hn : (l.set (.next a) (l.first h)).next a = l.first h := by simp [set]
  unfold insertHead
  simp only [prev_setPrev, prev_set, hn]
  by_cases hb : b = a
  · simp [hb]
  · cases hf : l.first h with
    | none => simp [hb]
    | some f =>
      simp only [hb, if_false, prev_setPrev, prev_set, Option.some.injEq]
      by_cases hbf : b = f
      · simp [hbf]
      · simp [hbf, Ne.symm hbf]

/-- The cells after an unlinking of an element that is not its own successor. -/
theorem get_remove {l : Links η α} {a : α} (ha : l.next a ≠ some a) (d : Cell η α) :
    (l.remove a).get d = if d = l.prev a then l.next a else l.get d := by
  unfold remove
  cases hn : l.next a with
  | none => simp only [get_set, hn]
  | some n =>
    have hne : a ≠ n := fun h => ha (by rw [hn, h])
    simp only [get_set, get_setPrev, prev_setPrev, next_setPrev, hn, if_neg hne]

/-- The back links after an unlinking: only the successor's moves. -/
theorem prev_remove (l : Links η α) (a b : α) :
    (l.remove a).prev b = if l.next a = some b then l.prev a else l.prev b := by
  unfold remove
  cases hn : l.next a with
  | none => simp
  | some n =>
    simp only [prev_set, prev_setPrev, Option.some.injEq]
    by_cases hb : b = n
    · simp [hb]
    · simp [hb, Ne.symm hb]

end Links

/-! ## 2. The sequence a head spells -/

/-- From cell `c` on, the links spell the elements of a list, each with its back link at the cell
that points to it. -/
def Spells (l : Links η α) : Cell η α → List α → Prop
  | c, [] => l.get c = none
  | c, a :: as => l.get c = some a ∧ l.prev a = c ∧ Spells l (.next a) as

/-- Head `h` represents the duplicate-free sequence `as`. -/
structure IsList (l : Links η α) (h : η) (as : List α) : Prop where
  spells : Spells l (.head h) as
  nodup : as.Nodup

/-- An element met by following forward pointers from a cell, whatever the shape of the heap. -/
inductive OnChain (l : Links η α) : Cell η α → α → Prop
  | here {c : Cell η α} {a : α} : l.get c = some a → OnChain l c a
  | there {c : Cell η α} {b a : α} : l.get c = some b → OnChain l (.next b) a → OnChain l c a

/-- Spelling depends only on the starting cell and on the links of the elements spelled. -/
theorem Spells.congr {l m : Links η α} {as : List α} {c : Cell η α} (h : Spells l c as)
    (hc : m.get c = l.get c) (hl : ∀ a ∈ as, m.next a = l.next a ∧ m.prev a = l.prev a) :
    Spells m c as := by
  induction as generalizing c with
  | nil =>
    simp only [Spells] at h ⊢
    rw [hc, h]
  | cons a as ih =>
    obtain ⟨h1, h2, h3⟩ := h
    refine ⟨hc.trans h1, (hl a (by simp)).2.trans h2, ih h3 (hl a (by simp)).1 ?_⟩
    exact fun b hb => hl b (by simp [hb])

/-- The cell points to the first element that it spells. -/
theorem Spells.get_eq {l : Links η α} {c : Cell η α} {as : List α} (hs : Spells l c as) :
    l.get c = as.head? := by
  cases as with
  | nil => exact hs
  | cons a as => exact hs.1

/-- A cell spells one list only. -/
theorem Spells.unique {l : Links η α} {as bs : List α} {c : Cell η α} (h : Spells l c as)
    (h' : Spells l c bs) : as = bs := by
  induction as generalizing bs c with
  | nil =>
    cases bs with
    | nil => rfl
    | cons b bs =>
      simp only [Spells] at h
      exact absurd (h.symm.trans h'.1) (by simp)
  | cons a as ih =>
    cases bs with
    | nil =>
      simp only [Spells] at h'
      exact absurd (h'.symm.trans h.1) (by simp)
    | cons b bs =>
      have hab : a = b := Option.some.inj (h.1.symm.trans h'.1)
      subst hab
      rw [ih h.2.2 h'.2.2]

/-- The chain from a cell consists of the elements the cell spells. -/
theorem Spells.onChain_iff {l : Links η α} {x : α} {as : List α} {c : Cell η α} (h : Spells l c as) :
    OnChain l c x ↔ x ∈ as := by
  induction as generalizing c with
  | nil =>
    simp only [Spells] at h
    constructor
    · intro hx
      cases hx with
      | here h' => rw [h] at h'; cases h'
      | there h' _ => rw [h] at h'; cases h'
    · intro hx; simp at hx
  | cons a as ih =>
    obtain ⟨h1, _, h3⟩ := h
    constructor
    · intro hx
      cases hx with
      | here h' => rw [h1] at h'; cases h'; simp
      | there h' hr =>
        rw [h1] at h'
        cases h'
        exact List.mem_cons_of_mem _ ((ih h3).mp hr)
    · intro hx
      rcases List.mem_cons.mp hx with rfl | hx
      · exact .here h1
      · exact .there h1 ((ih h3).mpr hx)

/-- An element of a spelled list follows a cell of that list, and its back link says which. -/
theorem Spells.get_prev {l : Links η α} {x : α} {as : List α} {c : Cell η α} (h : Spells l c as)
    (hx : x ∈ as) : l.get (l.prev x) = some x := by
  induction as generalizing c with
  | nil => exact absurd hx List.not_mem_nil
  | cons a as ih =>
    obtain ⟨h1, h2, h3⟩ := h
    rcases List.mem_cons.mp hx with rfl | hx
    · rw [h2, h1]
    · exact ih h3 hx

/-- The back link of an element is the starting cell or the forward pointer of an element that
stands before it. -/
theorem Spells.prev_cases {l : Links η α} {x : α} {as : List α} {c : Cell η α} (h : Spells l c as)
    (hx : x ∈ as) : l.prev x = c ∨ ∃ b ∈ as, l.prev x = .next b := by
  induction as generalizing c with
  | nil => exact absurd hx List.not_mem_nil
  | cons a as ih =>
    obtain ⟨_, h2, h3⟩ := h
    rcases List.mem_cons.mp hx with rfl | hx
    · exact Or.inl h2
    · rcases ih h3 hx with h | ⟨b, hb, h⟩
      · exact Or.inr ⟨a, by simp, h⟩
      · exact Or.inr ⟨b, by simp [hb], h⟩

/-- The successor of an element of a spelled list is again an element of it. -/
theorem Spells.next_mem {l : Links η α} {x y : α} {as : List α} {c : Cell η α} (h : Spells l c as)
    (hx : x ∈ as) (hy : l.next x = some y) : y ∈ as := by
  induction as generalizing c with
  | nil => exact absurd hx List.not_mem_nil
  | cons a as ih =>
    obtain ⟨_, _, h3⟩ := h
    rcases List.mem_cons.mp hx with rfl | hx
    · have hhead : l.next x = as.head? := h3.get_eq
      exact List.mem_cons_of_mem _ (List.mem_of_head? (hhead.symm.trans hy))
    · exact List.mem_cons_of_mem _ (ih h3 hx)

/-! ## 3. Linking in behind a cell -/

section Linking

variable [DecidableEq η] [DecidableEq α] {l l' : Links η α} {c : Cell η α} {elm : α} {ys : List α}

/-- The element is linked in behind a cell, in whatever order the links were assigned. -/
structure Spliced (l l' : Links η α) (c : Cell η α) (elm : α) : Prop where
  get : ∀ d, l'.get d = if d = c then some elm else if d = .next elm then l.get c else l.get d
  prev : ∀ b, l'.prev b = if b = elm then c else if l.get c = some b then .next elm else l.prev b

/-- Behind the cell the element comes first, and then what was there. -/
theorem Spliced.spells_here (hs : Spliced l l' c elm) (hys : Spells l c ys) (hnd : ys.Nodup)
    (helm : elm ∉ ys) (hc : ∀ b ∈ elm :: ys, c ≠ .next b) : Spells l' c (elm :: ys) := by
  have hself : (Cell.next elm : Cell η α) ≠ c := (hc elm List.mem_cons_self).symm
  refine ⟨by rw [hs.get, if_pos rfl], by rw [hs.prev, if_pos rfl], ?_⟩
  have hnext : l'.get (.next elm) = l.get c := by
    rw [hs.get, if_neg hself, if_pos rfl]
  cases ys with
  | nil => exact hnext.trans hys
  | cons y ys =>
    obtain ⟨hy, hy', hrest⟩ := hys
    have hne : ∀ z ∈ y :: ys, z ≠ elm := fun z hz he => helm (he ▸ hz)
    have hkeep : ∀ z ∈ y :: ys, l'.get (.next z) = l.get (.next z) := fun z hz => by
      rw [hs.get, if_neg (hc z (List.mem_cons_of_mem _ hz)).symm,
        if_neg fun hd => hne z hz (Cell.next.inj hd)]
    refine ⟨hnext.trans hy, ?_, hrest.congr (hkeep y List.mem_cons_self) fun z hz => ?_⟩
    · rw [hs.prev, if_neg (hne y List.mem_cons_self), if_pos hy]
    · refine ⟨hkeep z (List.mem_cons_of_mem _ hz), ?_⟩
      have hyz : l.get c ≠ some z := fun hz' => by
        rw [hy, Option.some.injEq] at hz'
        exact (List.nodup_cons.mp hnd).1 (hz' ▸ hz)
      rw [hs.prev, if_neg (hne z (List.mem_cons_of_mem _ hz)), if_neg hyz]

theorem Links.spliced_insertHead (l : Links η α) (h : η) (elm : α) :
    Spliced l (l.insertHead h elm) (.head h) elm :=
  ⟨l.get_insertHead h elm, l.prev_insertHead h elm⟩

end Linking

/-! ## 4. Well-formed lists -/

namespace IsList

variable {l : Links η α} {h : η} {as : List α}

theorem unique {bs : List α} (ha : IsList l h as) (hb : IsList l h bs) : as = bs :=
  ha.spells.unique hb.spells

theorem onChain_iff (ha : IsList l h as) (x : α) : OnChain l (.head h) x ↔ x ∈ as :=
  ha.spells.onChain_iff

/-- The head points to the first element. -/
theorem first_eq (ha : IsList l h as) : l.first h = as.head? := ha.spells.get_eq

theorem first_eq_none_iff (ha : IsList l h as) : l.first h = none ↔ as = [] := by
  rw [ha.first_eq, List.head?_eq_none_iff]

/-- If the head is not null, the sequence starts with the element it points to. -/
theorem eq_cons (ha : IsList l h as) {a : α} (hf : l.first h = some a) :
    ∃ bs, as = a :: bs := by
  rw [ha.first_eq] at hf
  exact List.head?_eq_some_iff.mp hf

/-- A well-formed list depends only on its head and on the links of its elements. -/
theorem congr {m : Links η α} (ha : IsList l h as) (hf : m.first h = l.first h)
    (hl : ∀ a ∈ as, m.next a = l.next a ∧ m.prev a = l.prev a) : IsList m h as :=
  ⟨ha.spells.congr hf hl, ha.nodup⟩

/-- An element of a duplicate-free list is not its own successor. -/
theorem next_ne_self (ha : IsList l h as) {a : α} (hm : a ∈ as) : l.next a ≠ some a := by
  have key : ∀ {as : List α} {c : Cell η α}, Spells l c as → as.Nodup → a ∈ as →
      l.next a ≠ some a := by
    intro as
    induction as with
    | nil => intro c _ _ hm; simp at hm
    | cons b bs ih =>
      intro c hs hnd hm hn
      rcases List.mem_cons.mp hm with rfl | hm
      · cases bs with
        | nil =>
          have hx : l.next a = none := hs.2.2
          rw [hn] at hx
          cases hx
        | cons d ds =>
          have hx : l.next a = some d := hs.2.2.1
          rw [hn] at hx
          cases hx
          exact (List.nodup_cons.mp hnd).1 (by simp)
      · exact ih hs.2.2 (List.nodup_cons.mp hnd).2 hm hn
  exact key ha.spells ha.nodup hm

variable [DecidableEq η] [DecidableEq α]

theorem init (l : Links η α) (h : η) : IsList (l.init h) h [] := by
  refine ⟨?_, List.nodup_nil⟩
  simp [Spells, Links.init, Links.get_set]

/-- **Insertion puts the element at the front.** -/
theorem insertHead (ha : IsList l h as) {a : α} (hn : a ∉ as) :
    IsList (l.insertHead h a) h (a :: as) :=
  ⟨(l.spliced_insertHead h a).spells_here ha.spells ha.nodup hn (by simp),
    List.nodup_cons.mpr ⟨hn, ha.nodup⟩⟩

/-- An insertion at one head leaves the lists of the other heads alone, if the element is on none
of them. -/
theorem insertHead_other (ha : IsList l h as) {k : η} {bs : List α} (hb : IsList l k bs)
    (hk : k ≠ h) (hdis : ∀ b ∈ bs, b ∉ as) {a : α} (hn : a ∉ bs) :
    IsList (l.insertHead h a) k bs := by
  refine hb.congr ?_ ?_
  · have hg := l.get_insertHead h a (.head k)
    simpa [hk, Links.get] using hg
  · intro b hmem
    have hba : b ≠ a := fun e => hn (e ▸ hmem)
    have hfb : l.first h ≠ some b := by
      intro hf
      obtain ⟨cs, rfl⟩ := ha.eq_cons hf
      exact hdis b hmem (by simp)
    have hg := l.get_insertHead h a (.next b)
    constructor
    · simpa [hba, Links.get] using hg
    · simp [Links.prev_insertHead, hba, hfb]

/-- Unlinking inside a spelled list erases the element; the starting cell may be the one that is
rewritten. -/
theorem spells_remove {a : α} (hself : l.next a ≠ some a) :
    ∀ {as : List α} {c : Cell η α}, Spells l c as → as.Nodup → a ∈ as → (∀ b ∈ as, c ≠ .next b) →
      Spells (l.remove a) c (as.erase a)
  | b :: bs, c, ⟨h1, h2, h3⟩, hnd, hm, hc => by
    have hb := List.nodup_cons.mp hnd
    by_cases hab : b = a
    · -- the element is the first one: the cell now points to its successor
      subst hab
      rw [List.erase_cons_head]
      cases bs with
      | nil =>
        have hn : l.next b = none := h3
        simp [Spells, Links.get_remove hself, h2, hn]
      | cons d ds =>
        have hn : l.next b = some d := h3.1
        have hbd : ∀ e ∈ ds, d ≠ e := by
          intro e he hde
          exact (List.nodup_cons.mp hb.2).1 (by rw [hde]; exact he)
        refine ⟨?_, ?_, h3.2.2.congr ?_ ?_⟩
        · simp [Links.get_remove hself, h2, hn]
        · simp [Links.prev_remove, hn, h2]
        · have hcd : (Cell.next d : Cell η α) ≠ c := fun e => hc d (by simp) e.symm
          simp [Links.get_remove hself, h2, hcd]
        · intro e he
          have hce : (Cell.next e : Cell η α) ≠ c := fun e' => hc e (by simp [he]) e'.symm
          have hg := Links.get_remove hself (.next e)
          constructor
          · simpa [h2, hce, Links.get] using hg
          · simp [Links.prev_remove, hn, hbd e he]
    · -- the element is further on: this link stays
      have hm' : a ∈ bs := (List.mem_cons.mp hm).resolve_left (fun e => hab e.symm)
      rw [List.erase_cons_tail (by simpa using hab)]
      have hpc : l.prev a ≠ c := by
        rcases h3.prev_cases hm' with h | ⟨e, he, h⟩
        · rw [h]; exact fun e => hc b (by simp) e.symm
        · rw [h]; exact fun e' => hc e (by simp [he]) e'.symm
      have hnb : l.next a ≠ some b := fun hn => hb.1 (h3.next_mem hm' hn)
      refine ⟨?_, ?_, spells_remove hself h3 hb.2 hm' ?_⟩
      · rw [Links.get_remove hself, if_neg (fun e => hpc e.symm)]
        exact h1
      · rw [Links.prev_remove, if_neg hnb]
        exact h2
      · intro e he hbe
        cases hbe
        exact hb.1 he

/-- **Unlinking erases the element.** -/
theorem remove (ha : IsList l h as) {a : α} (hm : a ∈ as) :
    IsList (l.remove a) h (as.erase a) :=
  ⟨spells_remove (ha.next_ne_self hm) ha.spells ha.nodup hm (fun _ _ => by simp),
    ha.nodup.erase a⟩

/-- Unlinking the first element leaves the rest. -/
theorem remove_head {a : α} (ha : IsList l h (a :: as)) : IsList (l.remove a) h as := by
  have := ha.remove (a := a) (by simp)
  rwa [List.erase_cons_head] at this

/-- Unlinking an element of one list leaves every disjoint list alone. -/
theorem remove_other (ha : IsList l h as) {k : η} {bs : List α} (hb : IsList l k bs)
    (hk : k ≠ h) (hdis : ∀ b ∈ bs, b ∉ as) {a : α} (hm : a ∈ as) :
    IsList (l.remove a) k bs := by
  have hself := ha.next_ne_self hm
  have hprev : ∀ c, (c = .head k ∨ ∃ b ∈ bs, c = .next b) → c ≠ l.prev a := by
    intro c hc hca
    rcases ha.spells.prev_cases hm with hp | ⟨e, he, hp⟩
    · rcases hc with rfl | ⟨b, hmem, rfl⟩
      · rw [hp] at hca; exact hk (Cell.head.inj hca)
      · rw [hp] at hca; cases hca
    · rcases hc with rfl | ⟨b, hmem, rfl⟩
      · rw [hp] at hca; cases hca
      · rw [hp] at hca
        exact hdis b hmem (Cell.next.inj hca ▸ he)
  refine hb.congr ?_ ?_
  · have hg := Links.get_remove hself (.head k)
    simpa [hprev (.head k) (Or.inl rfl), Links.get] using hg
  · intro b hmem
    have hg := Links.get_remove hself (.next b)
    have hnb : l.next a ≠ some b := fun hn => hdis b hmem (ha.spells.next_mem hm hn)
    constructor
    · simpa [hprev (.next b) (Or.inr ⟨b, hmem, rfl⟩), Links.get] using hg
    · rw [Links.prev_remove, if_neg hnb]

end IsList

/-! ## 5. All lists over one link field -/

/-- The heads spell pairwise disjoint sequences. -/
structure AreLists (l : Links η α) (as : η → List α) : Prop where
  each : ∀ h, IsList l h (as h)
  disjoint : ∀ h k, h ≠ k → ∀ a ∈ as h, a ∉ as k

namespace AreLists

variable {l : Links η α} {as : η → List α}

/-- The element is on one of the lists. -/
theorem onChain_iff (ha : AreLists l as) (a : α) :
    (∃ h, OnChain l (.head h) a) ↔ ∃ h, a ∈ as h :=
  exists_congr fun h => (ha.each h).onChain_iff a

variable [DecidableEq η]

/-- What is on a list after an insertion. -/
theorem mem_insertHead (as : η → List α) (h : η) (a b : α) :
    (∃ k, b ∈ Function.update as h (a :: as h) k) ↔ b = a ∨ ∃ k, b ∈ as k := by
  constructor
  · rintro ⟨k, hb⟩
    by_cases hk : k = h
    · subst hk
      rw [Function.update_self] at hb
      exact (List.mem_cons.mp hb).imp_right fun hb => ⟨k, hb⟩
    · rw [Function.update_of_ne hk] at hb
      exact Or.inr ⟨k, hb⟩
  · rintro (rfl | ⟨k, hb⟩)
    · exact ⟨h, by rw [Function.update_self]; simp⟩
    · refine ⟨k, ?_⟩
      by_cases hk : k = h
      · subst hk
        rw [Function.update_self]
        exact List.mem_cons_of_mem _ hb
      · rwa [Function.update_of_ne hk]

variable [DecidableEq α]

/-- **Insertion of an element that is on no list.** -/
theorem insertHead (ha : AreLists l as) (h : η) {a : α} (hn : ∀ k, a ∉ as k) :
    AreLists (l.insertHead h a) (Function.update as h (a :: as h)) := by
  constructor
  · intro k
    by_cases hk : k = h
    · subst hk
      rw [Function.update_self]
      exact (ha.each k).insertHead (hn k)
    · rw [Function.update_of_ne hk]
      exact (ha.each h).insertHead_other (ha.each k) hk (ha.disjoint k h hk) (hn k)
  · intro k k' hkk b hb hb'
    by_cases hk : k = h
    · subst hk
      rw [Function.update_self] at hb
      rw [Function.update_of_ne (Ne.symm hkk)] at hb'
      rcases List.mem_cons.mp hb with rfl | hb
      · exact hn k' hb'
      · exact ha.disjoint k k' hkk b hb hb'
    · rw [Function.update_of_ne hk] at hb
      by_cases hk' : k' = h
      · subst hk'
        rw [Function.update_self] at hb'
        rcases List.mem_cons.mp hb' with rfl | hb'
        · exact hn k hb
        · exact ha.disjoint k k' hk b hb hb'
      · rw [Function.update_of_ne hk'] at hb'
        exact ha.disjoint k k' hkk b hb hb'

/-- **Unlinking of an element that is on a list.** -/
theorem remove (ha : AreLists l as) {h : η} {a : α} (hm : a ∈ as h) :
    AreLists (l.remove a) (Function.update as h ((as h).erase a)) := by
  have hsub : ∀ k b, b ∈ Function.update as h ((as h).erase a) k → b ∈ as k := by
    intro k b hb
    by_cases hk : k = h
    · subst hk
      rw [Function.update_self] at hb
      exact List.mem_of_mem_erase hb
    · rwa [Function.update_of_ne hk] at hb
  constructor
  · intro k
    by_cases hk : k = h
    · subst hk
      rw [Function.update_self]
      exact (ha.each k).remove hm
    · rw [Function.update_of_ne hk]
      exact (ha.each h).remove_other (ha.each k) hk (ha.disjoint k h hk) hm
  · intro k k' hkk b hb hb'
    exact ha.disjoint k k' hkk b (hsub k b hb) (hsub k' b hb')

/-- What is on a list after an unlinking. -/
theorem mem_remove (ha : AreLists l as) {h : η} {a : α} (hm : a ∈ as h) (b : α) :
    (∃ k, b ∈ Function.update as h ((as h).erase a) k) ↔ b ≠ a ∧ ∃ k, b ∈ as k := by
  have herase : ∀ b, b ∈ (as h).erase a ↔ b ≠ a ∧ b ∈ as h := fun b =>
    (ha.each h).nodup.mem_erase_iff
  constructor
  · rintro ⟨k, hb⟩
    by_cases hk : k = h
    · subst hk
      rw [Function.update_self, herase] at hb
      exact ⟨hb.1, k, hb.2⟩
    · rw [Function.update_of_ne hk] at hb
      refine ⟨?_, k, hb⟩
      rintro rfl
      exact ha.disjoint k h hk b hb hm
  · rintro ⟨hne, k, hb⟩
    refine ⟨k, ?_⟩
    by_cases hk : k = h
    · subst hk
      rw [Function.update_self, herase]
      exact ⟨hne, hb⟩
    · rwa [Function.update_of_ne hk]

end AreLists

end LinkedList
