/-
# Putting an element anywhere in a list

However an element gets into an intrusive list, it is linked in behind one cell: the cell points to it, it
points to what the cell pointed to, and two back links are put right (`Spliced`).  Which cell it is, the
head or the forward pointer of an element, makes no difference to `IsList.splice`: a sequence is cut in two
where the cell is (`endCell`), and the seam is the only place that changes.
-/
import Mathlib.Data.List.Induction
import RaspiOS.Lib.LinkedList

set_option autoImplicit false

namespace LinkedList

variable {η α : Type} {l l' : Links η α} {h : η} {c : Cell η α} {elm : α} {xs ys : List α}

/-! ## 1. Where a sequence is cut -/

/-- The cell behind the elements of a list that starts at a cell. -/
def endCell : Cell η α → List α → Cell η α
  | c, [] => c
  | _, x :: xs => endCell (.next x) xs

theorem endCell_concat (c : Cell η α) (xs : List α) (b : α) : endCell c (xs ++ [b]) = .next b := by
  induction xs generalizing c with
  | nil => rfl
  | cons x xs ih => exact ih (.next x)

/-- It is where the list starts, or the forward pointer of its last element. -/
theorem endCell_eq (c : Cell η α) (xs : List α) :
    (xs = [] ∧ endCell c xs = c) ∨ ∃ b, xs.getLast? = some b ∧ endCell c xs = .next b := by
  induction xs using List.reverseRecOn with
  | nil => exact .inl ⟨rfl, rfl⟩
  | append_singleton xs b _ => exact .inr ⟨b, List.getLast?_concat, endCell_concat c xs b⟩

/-- Cut in two: the second part starts behind the first. -/
theorem Spells.drop (hs : Spells l c (xs ++ ys)) : Spells l (endCell c xs) ys := by
  induction xs generalizing c with
  | nil => exact hs
  | cons x xs ih => exact ih hs.2.2

/-- What the cell at the cut points to. -/
theorem Spells.get_endCell (hs : Spells l c (xs ++ ys)) : l.get (endCell c xs) = ys.head? :=
  hs.drop.get_eq

theorem Spells.prev_eq {b : α} (hs : Spells l c (xs ++ b :: ys)) : l.prev b = endCell c xs :=
  hs.drop.2.1

theorem Spells.next_eq {b : α} (hs : Spells l c (xs ++ b :: ys)) : l.next b = ys.head? :=
  hs.drop.2.2.get_eq

/-! ## 2. Linking in -/

/-- The element and what stands next to it. -/
def nearby (xs : List α) (elm : α) (ys : List α) : List α :=
  elm :: (xs.getLast?.toList ++ ys.head?.toList)

/-- Outside the head and the elements of `near` no link differs. -/
structure Local (l l' : Links η α) (h : η) (near : List α) : Prop where
  next : ∀ e, e ∉ near → l'.next e = l.next e
  prev : ∀ e, e ∉ near → l'.prev e = l.prev e
  first : ∀ k, k ≠ h → l'.first k = l.first k
  zero : l'.zero = l.zero

/-- Who is at the cell where a sequence is cut. -/
theorem nearby_of_endCell {e : α} (he : endCell (.head h) xs = .next e) : e ∈ nearby xs elm ys := by
  rcases endCell_eq (.head h) xs with ⟨-, hh⟩ | ⟨b, hb, hb'⟩
  · rw [hh] at he
    cases he
  · rw [hb'] at he
    cases he
    rw [nearby, hb]
    exact List.mem_cons_of_mem _ List.mem_cons_self

theorem nearby_of_head {e : α} (he : ys.head? = some e) : e ∈ nearby xs elm ys := by
  rw [nearby, he]
  exact List.mem_cons_of_mem _ (List.mem_append_right _ List.mem_cons_self)

/-- Only the cell at the cut and the cells of what is near it are other than before. -/
theorem Local.of_cells
    (hget : ∀ d, d ≠ endCell (.head h) xs → d ≠ .next elm → l'.get d = l.get d)
    (hprev : ∀ e, e ≠ elm → ys.head? ≠ some e → l'.prev e = l.prev e) :
    Local l l' h (nearby xs elm ys) where
  next e he := by
    refine hget (.next e) (fun hd => he (nearby_of_endCell hd.symm)) fun hd => ?_
    cases hd
    exact he List.mem_cons_self
  prev e he := by
    refine hprev e ?_ fun hy => he (nearby_of_head hy)
    rintro rfl
    exact he List.mem_cons_self
  first k hk := by
    refine hget (.head k) (fun hd => ?_) (by simp)
    rcases endCell_eq (.head h) xs with ⟨-, hh⟩ | ⟨b, -, hb⟩
    · rw [hh] at hd
      exact hk (Cell.head.inj hd)
    · rw [hb] at hd
      cases hd
  zero := by
    refine hget .null (fun hd => ?_) (by simp)
    rcases endCell_eq (.head h) xs with ⟨-, hh⟩ | ⟨b, -, hb⟩
    · rw [hh] at hd
      cases hd
    · rw [hb] at hd
      cases hd

variable [DecidableEq η] [DecidableEq α]

/-- The part before the cut is spelled as before. -/
theorem Spliced.spells (hs : Spliced l l' (endCell c xs) elm) (hsp : Spells l c (xs ++ ys))
    (hnd : (xs ++ ys).Nodup) (helm : elm ∉ xs ++ ys) (hc : ∀ b ∈ elm :: (xs ++ ys), c ≠ .next b) :
    Spells l' c (xs ++ elm :: ys) := by
  induction xs generalizing c with
  | nil => exact hs.spells_here hsp hnd helm hc
  | cons x xs ih =>
    obtain ⟨hx, hx', hrest⟩ := hsp
    obtain ⟨hfresh, hnd'⟩ := List.nodup_cons.mp hnd
    have hxelm : x ≠ elm := fun he => helm (he ▸ List.mem_cons_self)
    have hcut : endCell c (x :: xs) ≠ c := by
      rcases endCell_eq (.next x : Cell η α) xs with ⟨-, he⟩ | ⟨b, hb, he⟩
      · rw [endCell, he]
        exact (hc x (by simp)).symm
      · rw [endCell, he]
        exact (hc b (by simp [List.mem_of_getLast? hb])).symm
    refine ⟨?_, ?_, ih hs hrest hnd' (fun he => helm (List.mem_cons_of_mem _ he)) fun b hb hbx => ?_⟩
    · rw [hs.get, if_neg hcut.symm, if_neg (hc elm List.mem_cons_self)]
      exact hx
    · have hseam : l.get (endCell c (x :: xs)) ≠ some x := fun he => by
        rw [endCell, hrest.get_endCell] at he
        exact hfresh (List.mem_append_right _ (List.mem_of_head? he))
      rw [hs.prev, if_neg hxelm, if_neg hseam]
      exact hx'
    · cases hbx
      rcases List.mem_cons.mp hb with he | hb
      · exact hxelm he
      · exact hfresh hb

/-- **An element that is linked in** stands in the sequence where the cell is, and no link is changed but
its own, the head's and those of its neighbours. -/
theorem IsList.splice (ha : IsList l h (xs ++ ys)) (helm : elm ∉ xs ++ ys)
    (hs : Spliced l l' (endCell (.head h) xs) elm) :
    IsList l' h (xs ++ elm :: ys) ∧ Local l l' h (nearby xs elm ys) := by
  refine ⟨⟨hs.spells ha.spells ha.nodup helm (by simp), ?_⟩, .of_cells (fun d hd hd' => ?_)
    fun e he he' => ?_⟩
  · exact List.nodup_middle.mpr (List.nodup_cons.mpr ⟨helm, ha.nodup⟩)
  · rw [hs.get, if_neg hd, if_neg hd']
  · rw [hs.prev, if_neg he, ha.spells.get_endCell, if_neg he']

/-- **An element that is unlinked** is gone from the sequence, and only the links around it differ. -/
theorem IsList.unlink {a : α} (ha : IsList l h (xs ++ a :: ys)) :
    IsList (l.remove a) h (xs ++ ys) ∧ Local l (l.remove a) h (nearby xs a ys) := by
  have hmem : a ∈ xs ++ a :: ys := by simp
  have hfresh := (List.nodup_cons.mp (List.nodup_middle.mp ha.nodup)).1
  have herase : (xs ++ a :: ys).erase a = xs ++ ys := by
    rw [List.erase_append_right _ fun hx => hfresh (List.mem_append_left _ hx),
      List.erase_cons_head]
  refine ⟨herase ▸ ha.remove hmem, .of_cells (fun d hd _ => ?_) fun e _ he => ?_⟩
  · rw [Links.get_remove (ha.next_ne_self hmem), ha.spells.prev_eq, if_neg hd]
  · rw [Links.prev_remove, ha.spells.next_eq, if_neg he]

end LinkedList
