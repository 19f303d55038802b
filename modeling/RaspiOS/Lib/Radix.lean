/-
# Radix trees in memory

A table is a frame, an array of words.  A word read on the way down names the next table, or ends the
walk with an answer, or is void; `decode` says which, and may look at the depth.  A PATH is a root and
the indices that were followed from it, written from the last one to the first, so that following one
more index is `cons`.

One condition makes a forest of such trees behave like a set of separate maps (`Disjoint`): two paths
never arrive at the same table.  Two changes keep it, and each has one effect: a void entry is made to
name an empty table that nobody has reached (`Linked`), and a word of a table of the last level is
overwritten (`Stored`).  The first changes no answer of any path, the second that of one.
-/
import Mathlib.Data.Set.Basic
import Mathlib.Data.List.Basic

set_option autoImplicit false

namespace Radix

/-- What a word says. -/
inductive Step (F R : Type) where
  | void
  | table (f : F)
  | final (r : R)
deriving DecidableEq

variable {F I W R V : Type} (decode : Nat → W → Step F R)

/-- The walk from `d`. -/
def walk (m : F → I → W) (d : F) : List I → Step F R
  | [] => .table d
  | i :: is =>
    match walk m d is with
    | .table g => decode is.length (m g i)
    | k => k

/-- The answer at entry `k` of the table a path leads to: what `leaf` makes of the word there, or the
answer the walk ended with. -/
def read (leaf : W → V) (block : R → V) (default : V) (m : F → I → W) (d : F) (k : I)
    (is : List I) : V :=
  match walk decode m d is with
  | .void => default
  | .table u => leaf (m u k)
  | .final r => block r

/-- The paths from the roots `D` whose first index is one of `ok`. -/
def Path (D : Set F) (ok : I → Prop) (d : F) (is : List I) : Prop :=
  d ∈ D ∧ ∀ i ∈ is.getLast?, ok i

/-- Frame `f` is a root, or a table of one of the first `n` levels below them. -/
def Reached (D : Set F) (ok : I → Prop) (n : Nat) (m : F → I → W) (f : F) : Prop :=
  ∃ d is, Path D ok d is ∧ is.length ≤ n ∧ walk decode m d is = .table f

/-- **Two paths never arrive at the same table.** -/
def Disjoint (D : Set F) (ok : I → Prop) (n : Nat) (m : F → I → W) : Prop :=
  ∀ ⦃d : F⦄ ⦃is : List I⦄ ⦃d' : F⦄ ⦃is' : List I⦄ ⦃f : F⦄, Path D ok d is → Path D ok d' is' →
    is.length ≤ n → is'.length ≤ n → walk decode m d is = .table f →
    walk decode m d' is' = .table f → d' = d ∧ is' = is

/-- `m'` is `m` with another word at entry `k` of the table of level `n` that the path leads to. -/
structure Stored (D : Set F) (ok : I → Prop) (n : Nat) (m : F → I → W) (d : F) (k : I) (is : List I)
    (u : F) (m' : F → I → W) : Prop where
  path : Path D ok d is
  level : is.length = n
  walk : walk decode m d is = .table u
  other : ∀ g i, Reached decode D ok n m g → ¬ (g = u ∧ i = k) → m' g i = m g i

/-- `m'` is `m` with table `f` entered at a void entry, empty and not reached before. -/
structure Linked (D : Set F) (ok : I → Prop) (n : Nat) (m : F → I → W) (d : F) (i : I) (is : List I)
    (g f : F) (m' : F → I → W) : Prop where
  path : Path D ok d (i :: is)
  level : is.length < n
  walk : walk decode m d is = .table g
  void : decode is.length (m g i) = .void
  fresh : ¬ Reached decode D ok n m f
  names : decode is.length (m' g i) = .table f
  empty : ∀ l j, decode l (m' f j) = .void
  other : ∀ g' j, Reached decode D ok n m g' → ¬ (g' = g ∧ j = i) → m' g' j = m g' j

variable {decode}

/-! ## 1. Walks and paths -/

section Walks

variable {m m' : F → I → W} {d f g : F} {i : I} {is : List I}

theorem walk_cons (h : walk decode m d is = .table g) :
    walk decode m d (i :: is) = decode is.length (m g i) := by
  simp only [walk, h]

theorem walk_cons_of_void (h : walk decode m d is = .void) : walk decode m d (i :: is) = .void := by
  simp only [walk, h]

theorem walk_cons_of_final {r : R} (h : walk decode m d is = .final r) :
    walk decode m d (i :: is) = .final r := by
  simp only [walk, h]

/-- A path that leads to a table leads to one before it. -/
theorem walk_cons_eq_table (h : walk decode m d (i :: is) = .table f) :
    ∃ g, walk decode m d is = .table g ∧ decode is.length (m g i) = .table f := by
  cases hw : walk decode m d is with
  | void =>
    rw [walk_cons_of_void hw] at h
    cases h
  | table g => exact ⟨g, rfl, (walk_cons hw).symm.trans h⟩
  | final r =>
    rw [walk_cons_of_final hw] at h
    cases h

variable {D : Set F} {ok : I → Prop} {n : Nat}

theorem Path.nil (hd : d ∈ D) : Path D ok d [] := ⟨hd, fun _ h => nomatch h⟩

theorem Path.single (hd : d ∈ D) (hi : ok i) : Path D ok d [i] :=
  ⟨hd, fun _ h => by cases h; exact hi⟩

theorem Path.cons (h : Path D ok d is) (hne : is ≠ []) : Path D ok d (i :: is) := by
  refine ⟨h.1, fun j hj => h.2 j ?_⟩
  cases is with
  | nil => exact absurd rfl hne
  | cons k ks => rwa [List.getLast?_cons_cons] at hj

theorem Path.tail (h : Path D ok d (i :: is)) : Path D ok d is := by
  cases is with
  | nil => exact .nil h.1
  | cons k ks =>
    refine ⟨h.1, fun j hj => h.2 j ?_⟩
    rwa [List.getLast?_cons_cons]

theorem Path.reached (h : Path D ok d is) (hn : is.length ≤ n) (hw : walk decode m d is = .table f) :
    Reached decode D ok n m f :=
  ⟨d, is, h, hn, hw⟩

/-- Walks depend on the entries above the tables they lead to. -/
theorem walk_congr (hm : ∀ js g j, Path D ok d (j :: js) → js.length < n →
    walk decode m d js = .table g → m' g j = m g j) (hp : Path D ok d is) (hn : is.length ≤ n) :
    walk decode m' d is = walk decode m d is := by
  induction is with
  | nil => rfl
  | cons i is ih =>
    have hlt : is.length < n := hn
    have ih := ih hp.tail hlt.le
    cases hw : walk decode m d is with
    | void => rw [walk_cons_of_void hw, walk_cons_of_void (ih.trans hw)]
    | table g => rw [walk_cons hw, walk_cons (ih.trans hw), hm is g i hp hlt hw]
    | final r => rw [walk_cons_of_final hw, walk_cons_of_final (ih.trans hw)]

end Walks

/-! ## 2. A store to a table of the last level -/

namespace Stored

variable {D : Set F} {ok : I → Prop} {n : Nat} {m m' : F → I → W} {d u : F} {k : I} {is : List I}

/-- No walk changes. -/
theorem walk_eq (hs : Stored decode D ok n m d k is u m') (h : Disjoint decode D ok n m) {d' : F}
    {is' : List I} (hp : Path D ok d' is') (hn : is'.length ≤ n) :
    Radix.walk decode m' d' is' = Radix.walk decode m d' is' := by
  refine walk_congr (fun js g j hj hlt hw => ?_) hp hn
  refine hs.other g j (hj.tail.reached hlt.le hw) ?_
  rintro ⟨rfl, -⟩
  -- the table that was stored to is one level below
  obtain ⟨-, he⟩ := h hs.path hj.tail hs.level.le hlt.le hs.walk hw
  rw [he, hs.level] at hlt
  exact lt_irrefl _ hlt

theorem reached_iff (hs : Stored decode D ok n m d k is u m') (h : Disjoint decode D ok n m) {f : F} :
    Reached decode D ok n m' f ↔ Reached decode D ok n m f := by
  constructor
  · rintro ⟨d', is', hp, hn, hw⟩
    exact ⟨d', is', hp, hn, (hs.walk_eq h hp hn).symm.trans hw⟩
  · rintro ⟨d', is', hp, hn, hw⟩
    exact ⟨d', is', hp, hn, (hs.walk_eq h hp hn).trans hw⟩

theorem disjoint (hs : Stored decode D ok n m d k is u m') (h : Disjoint decode D ok n m) :
    Disjoint decode D ok n m' := by
  intro d₁ is₁ d₂ is₂ f h₁ h₂ hn₁ hn₂ hw₁ hw₂
  rw [hs.walk_eq h h₁ hn₁] at hw₁
  rw [hs.walk_eq h h₂ hn₂] at hw₂
  exact h h₁ h₂ hn₁ hn₂ hw₁ hw₂

variable (leaf : W → V) (block : R → V) (default : V)

/-- **The answer changes on the one path.** -/
theorem read_self (hs : Stored decode D ok n m d k is u m') (h : Disjoint decode D ok n m) :
    read decode leaf block default m' d k is = leaf (m' u k) := by
  have hw := (hs.walk_eq h hs.path hs.level.le).trans hs.walk
  simp only [read, hw]

theorem read_other (hs : Stored decode D ok n m d k is u m') (h : Disjoint decode D ok n m) {d' : F}
    {k' : I} {is' : List I} (hp : Path D ok d' is') (hn : is'.length = n)
    (hne : ¬ (d' = d ∧ k' = k ∧ is' = is)) :
    read decode leaf block default m' d' k' is' = read decode leaf block default m d' k' is' := by
  unfold read
  rw [hs.walk_eq h hp hn.le]
  cases hw : Radix.walk decode m d' is' with
  | void => rfl
  | final r => rfl
  | table g =>
    have hword : m' g k' = m g k' := by
      refine hs.other g k' (hp.reached hn.le hw) ?_
      rintro ⟨rfl, hk⟩
      obtain ⟨hd, his⟩ := h hs.path hp hs.level.le hn.le hs.walk hw
      exact hne ⟨hd, hk, his⟩
    exact congrArg leaf hword

end Stored

/-! ## 3. A new table -/

namespace Linked

variable {D : Set F} {ok : I → Prop} {n : Nat} {m m' : F → I → W} {d g f : F} {i : I} {is : List I}

theorem walk_void (hl : Linked decode D ok n m d i is g f m') :
    Radix.walk decode m d (i :: is) = .void := (walk_cons hl.walk).trans hl.void

/-- One walk leads to the new table, and no other walk changes. -/
theorem walk_cases (hl : Linked decode D ok n m d i is g f m') (h : Disjoint decode D ok n m)
    {d' : F} {is' : List I} (hp : Path D ok d' is') (hn : is'.length ≤ n) :
    (d' = d ∧ is' = i :: is → Radix.walk decode m' d' is' = .table f) ∧
    (¬ (d' = d ∧ is' = i :: is) → Radix.walk decode m' d' is' = Radix.walk decode m d' is') := by
  induction is' with
  | nil =>
    refine ⟨?_, fun _ => rfl⟩
    rintro ⟨-, he⟩
    cases he
  | cons j js ih =>
    have hlt : js.length < n := hn
    obtain ⟨hnew, hold⟩ := ih hp.tail hlt.le
    by_cases hjs : d' = d ∧ js = i :: is
    · -- below the new table, where everything is void
      have hvoid : Radix.walk decode m d' js = .void := by rw [hjs.1, hjs.2, hl.walk_void]
      refine ⟨fun he => ?_, fun _ => ?_⟩
      · have hlen := congrArg List.length (hjs.2.symm.trans (List.cons.inj he.2).2)
        rw [List.length_cons] at hlen
        omega
      · rw [walk_cons (hnew hjs), hl.empty, walk_cons_of_void hvoid]
    · have hsame := hold hjs
      cases hw : Radix.walk decode m d' js with
      | void =>
        refine ⟨fun he => ?_, fun _ => ?_⟩
        · rw [he.1, (List.cons.inj he.2).2, hl.walk] at hw
          cases hw
        · rw [walk_cons_of_void (hsame.trans hw), walk_cons_of_void hw]
      | final r =>
        refine ⟨fun he => ?_, fun _ => ?_⟩
        · rw [he.1, (List.cons.inj he.2).2, hl.walk] at hw
          cases hw
        · rw [walk_cons_of_final (hsame.trans hw), walk_cons_of_final hw]
      | table x =>
        rw [walk_cons (hsame.trans hw), walk_cons hw]
        refine ⟨fun he => ?_, fun hne => ?_⟩
        · obtain ⟨rfl, rfl⟩ := List.cons.inj he.2
          rw [he.1, hl.walk] at hw
          cases hw
          exact hl.names
        · have hword : m' x j = m x j := by
            refine hl.other x j (hp.tail.reached hlt.le hw) ?_
            rintro ⟨rfl, rfl⟩
            obtain ⟨hd, his⟩ := h hl.path.tail hp.tail hl.level.le hlt.le hl.walk hw
            exact hne ⟨hd, by rw [his]⟩
          rw [hword]

theorem walk_new (hl : Linked decode D ok n m d i is g f m') (h : Disjoint decode D ok n m) :
    Radix.walk decode m' d (i :: is) = .table f :=
  (hl.walk_cases h hl.path hl.level).1 ⟨rfl, rfl⟩

theorem walk_old (hl : Linked decode D ok n m d i is g f m') (h : Disjoint decode D ok n m)
    {d' : F} {is' : List I} (hp : Path D ok d' is') (hn : is'.length ≤ n)
    (hne : ¬ (d' = d ∧ is' = i :: is)) :
    Radix.walk decode m' d' is' = Radix.walk decode m d' is' :=
  (hl.walk_cases h hp hn).2 hne

/-- The table is new, the others are those that were there. -/
theorem reached_iff (hl : Linked decode D ok n m d i is g f m') (h : Disjoint decode D ok n m) {x : F} :
    Reached decode D ok n m' x ↔ x = f ∨ Reached decode D ok n m x := by
  constructor
  · rintro ⟨d', is', hp, hn, hw⟩
    by_cases he : d' = d ∧ is' = i :: is
    · rw [(hl.walk_cases h hp hn).1 he] at hw
      cases hw
      exact .inl rfl
    · rw [hl.walk_old h hp hn he] at hw
      exact .inr (hp.reached hn hw)
  · rintro (rfl | ⟨d', is', hp, hn, hw⟩)
    · exact hl.path.reached hl.level (hl.walk_new h)
    · refine hp.reached hn ((hl.walk_old h hp hn ?_).trans hw)
      rintro ⟨rfl, rfl⟩
      rw [hl.walk_void] at hw
      cases hw

theorem disjoint (hl : Linked decode D ok n m d i is g f m') (h : Disjoint decode D ok n m) :
    Disjoint decode D ok n m' := by
  -- a path that is not the new one does not lead to the new table
  have hfresh : ∀ {d' : F} {is' : List I}, Path D ok d' is' → is'.length ≤ n →
      Radix.walk decode m' d' is' = .table f → d' = d ∧ is' = i :: is := by
    intro d' is' hp hn hw
    by_contra hne
    rw [hl.walk_old h hp hn hne] at hw
    exact hl.fresh (hp.reached hn hw)
  intro d₁ is₁ d₂ is₂ x h₁ h₂ hn₁ hn₂ hw₁ hw₂
  by_cases he₁ : d₁ = d ∧ is₁ = i :: is
  · rw [(hl.walk_cases h h₁ hn₁).1 he₁] at hw₁
    cases hw₁
    obtain ⟨hd, his⟩ := hfresh h₂ hn₂ hw₂
    exact ⟨hd.trans he₁.1.symm, his.trans he₁.2.symm⟩
  by_cases he₂ : d₂ = d ∧ is₂ = i :: is
  · rw [(hl.walk_cases h h₂ hn₂).1 he₂] at hw₂
    cases hw₂
    exact absurd (hfresh h₁ hn₁ hw₁) he₁
  rw [hl.walk_old h h₁ hn₁ he₁] at hw₁
  rw [hl.walk_old h h₂ hn₂ he₂] at hw₂
  exact h h₁ h₂ hn₁ hn₂ hw₁ hw₂

/-- **No answer changes**, where the words of the new table say what a void entry says. -/
theorem read_eq (hl : Linked decode D ok n m d i is g f m') (h : Disjoint decode D ok n m)
    (leaf : W → V) (block : R → V) {default : V} (hempty : ∀ j, leaf (m' f j) = default) {d' : F} {k : I}
    {is' : List I} (hp : Path D ok d' is') (hn : is'.length = n) :
    read decode leaf block default m' d' k is' = read decode leaf block default m d' k is' := by
  unfold read
  by_cases he : d' = d ∧ is' = i :: is
  · rw [(hl.walk_cases h hp hn.le).1 he, he.1, he.2, hl.walk_void]
    exact hempty k
  rw [hl.walk_old h hp hn.le he]
  cases hw : Radix.walk decode m d' is' with
  | void => rfl
  | final r => rfl
  | table x =>
    have hword : m' x k = m x k := by
      refine hl.other x k (hp.reached hn.le hw) ?_
      rintro ⟨rfl, -⟩
      -- the table that was linked to is above the last level
      obtain ⟨-, his⟩ := h hl.path.tail hp hl.level.le hn.le hl.walk hw
      have hlt := hl.level
      rw [← his, hn] at hlt
      exact lt_irrefl _ hlt
    exact congrArg leaf hword

end Linked

end Radix
