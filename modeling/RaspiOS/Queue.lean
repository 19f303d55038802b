/-
# The list macros of `queue.h`

`LIST_INSERT_HEAD` and `LIST_REMOVE` are `Links.insertHead` and `Links.remove`; here are the others, for
any heads and elements.  `LIST_INSERT_TAIL` has no cursor of its own: it walks along the list with the
forward pointer of the new element, which is set to the first element, is moved on as long as there is a
next one, and is put to null when the new element is linked in behind the last.

All of them link an element in behind a cell (`Spliced`), or take one out, so that what becomes of the
sequence is one statement for the five (`list_macros`).
-/
import RaspiOS.Lib.Fallible
import RaspiOS.Lib.Loop
import RaspiOS.Lib.Splice

set_option autoImplicit false

namespace RaspiOS
namespace Queue

open LinkedList Loop

variable {η α : Type} [DecidableEq η] [DecidableEq α]

/-! ## 1. The macros -/

/-- `LIST_INSERT_AFTER(listelm, elm, field)` -/
def insertAfter (l : Links η α) (listelm elm : α) : Links η α :=
  let l := l.set (.next elm) (l.next listelm)
  let l := l.setPrev elm (.next listelm)
  let l := match l.next listelm with
    | some n => l.setPrev n (.next elm)
    | none => l
  l.set (.next listelm) (some elm)

/-- `LIST_INSERT_BEFORE(listelm, elm, field)` -/
def insertBefore (l : Links η α) (listelm elm : α) : Links η α :=
  let l := l.setPrev elm (l.prev listelm)
  let l := l.set (.next elm) (some listelm)
  let l := l.set (l.prev listelm) (some elm)
  l.setPrev listelm (.next elm)

/-- What `LIST_INSERT_TAIL` can come to on a heap that is no list: it follows a null pointer, or it goes
round for ever. -/
inductive QueueFault
  | nullPointer
  | endless
  deriving DecidableEq

/-- `while (LIST_NEXT(elm)->le_next != NULL) LIST_NEXT(elm) = LIST_NEXT(elm)->le_next;` -/
def walkTail (elm : α) : Nat → Links η α → Except QueueFault (Links η α) :=
  loop .endless fun l =>
    match l.next elm with
    | none => .error .nullPointer
    | some f => .ok <|
      match l.next f with
      | some g => .again (l.set (.next elm) (some g))
      | none => .leave l

/-- What `LIST_INSERT_TAIL` does behind its loop. -/
def linkTail (l : Links η α) (elm : α) : Except QueueFault (Links η α) :=
  match l.next elm with
  | none => .error .nullPointer
  | some f =>
    let l := l.setPrev elm (.next f)
    let l := l.set (.next f) (some elm)
    .ok (l.set (.next elm) none)

/-- `LIST_INSERT_TAIL(head, elm, field)` -/
def insertTail (n : Nat) (l : Links η α) (head : η) (elm : α) : Except QueueFault (Links η α) :=
  match l.first head with
  | none => .ok (l.insertHead head elm)
  | some f => do
    let l ← walkTail elm n (l.set (.next elm) (some f))
    linkTail l elm

/-! ## 2. Each links the element in -/

variable {l : Links η α} {h : η} {as xs ys : List α} {elm b : α}

theorem spliced_insertAfter (hne : b ≠ elm) (hfresh : l.next b ≠ some elm) :
    Spliced l (insertAfter l b elm) (.next b) elm := by
  have hnext : ((l.set (.next elm) (l.next b)).setPrev elm (.next b)).next b = l.next b := by
    simp [Links.setPrev, Links.set, hne]
  unfold insertAfter
  dsimp only
  rw [hnext]
  cases hb : l.next b with
  | none =>
    refine ⟨fun d => ?_, fun e => ?_⟩
    · rw [Links.get_set, Links.get_setPrev, Links.get_set, ← hb]
      rfl
    · rw [Links.prev_set, Links.prev_setPrev, Links.prev_set, if_neg (c := l.get (.next b) = some e)]
      rw [Links.get, hb]
      exact Option.some_ne_none e |>.symm
  | some n =>
    have hn : n ≠ elm := fun he => hfresh (he ▸ hb)
    refine ⟨fun d => ?_, fun e => ?_⟩
    · rw [Links.get_set, Links.get_setPrev, Links.get_setPrev, Links.get_set, ← hb]
      rfl
    · rw [Links.prev_set, Links.prev_setPrev, Links.prev_setPrev, Links.prev_set, Links.get, hb]
      rcases eq_or_ne e elm with rfl | he
      · rw [if_neg hn.symm, if_pos rfl, if_pos rfl]
      · rw [if_neg he, if_neg he]
        exact if_congr (by rw [Option.some.injEq, eq_comm]) rfl rfl

theorem spliced_insertBefore (hne : b ≠ elm) (hget : l.get (l.prev b) = some b) :
    Spliced l (insertBefore l b elm) (l.prev b) elm := by
  have hb : ((l.setPrev elm (l.prev b)).set (.next elm) (some b)).prev b = l.prev b := by
    rw [Links.prev_set, Links.prev_setPrev, if_neg hne]
  unfold insertBefore
  dsimp only
  rw [hb]
  refine ⟨fun d => ?_, fun e => ?_⟩
  · rw [Links.get_setPrev, Links.get_set, Links.get_set, Links.get_setPrev, hget]
  · rw [Links.prev_setPrev, Links.prev_set, Links.prev_set, Links.prev_setPrev, hget]
    rcases eq_or_ne e elm with rfl | he
    · rw [if_neg hne.symm, if_pos rfl, if_pos rfl]
    · rw [if_neg he, if_neg he]
      exact if_congr (by rw [Option.some.injEq, eq_comm]) rfl rfl

/-- Behind the last element, which points to nothing. -/
theorem linkTail_spec (hne : b ≠ elm) (hlast : l.next b = none) :
    ∃ l', linkTail (l.set (.next elm) (some b)) elm = .ok l' ∧ Spliced l l' (.next b) elm := by
  have hb : (l.set (.next elm) (some b)).next elm = some b := by simp [Links.set]
  unfold linkTail
  rw [hb]
  refine ⟨_, rfl, fun d => ?_, fun e => ?_⟩
  · rw [Links.get_set, Links.get_set, Links.get_setPrev, Links.get_set, Links.get, hlast]
    rcases eq_or_ne d (.next elm) with rfl | hd
    · rw [if_pos rfl, if_neg (by simpa using hne.symm), if_pos rfl]
    · rw [if_neg hd, if_neg hd, if_neg hd]
  · rw [Links.prev_set, Links.prev_set, Links.prev_setPrev, Links.prev_set, Links.get, hlast,
      if_neg (c := none = some e) (by simp)]

/-- The cursor, read, and another element's forward pointer. -/
theorem next_cursor (l : Links η α) {f : α} (hf : f ≠ elm) :
    (l.set (.next elm) (some f)).next elm = some f ∧
      (l.set (.next elm) (some f)).next f = l.next f := by
  simp [Links.set, hf]

/-- The cursor, moved on. -/
theorem set_cursor (l : Links η α) (f g : α) :
    (l.set (.next elm) (some f)).set (.next elm) (some g) = l.set (.next elm) (some g) := by
  have hsame : (fun a' => if a' = elm then some g else if a' = elm then some f else l.next a')
      = fun a' => if a' = elm then some g else l.next a' := by
    funext a'
    split <;> rfl
  rw [Links.set, Links.set, Links.set]
  dsimp only
  rw [hsame]

/-- **The walk** ends at the last element, and nothing but the cursor has changed. -/
theorem walkTail_spec : ∀ {ys : List α} {f : α} {c : Cell η α} {n : Nat}, Spells l c (f :: ys) →
    elm ∉ f :: ys → ys.length < n → ∃ b, (f :: ys).getLast? = some b ∧
      walkTail elm n (l.set (.next elm) (some f)) = .ok (l.set (.next elm) (some b)) := by
  intro ys
  induction ys with
  | nil =>
    intro f c n hs helm hn
    obtain ⟨n, rfl⟩ := Nat.exists_eq_succ_of_ne_zero (Nat.ne_of_gt hn)
    obtain ⟨hcursor, hnext⟩ := next_cursor l (f := f) fun he => helm (he ▸ List.mem_cons_self)
    have hlast : l.next f = none := hs.2.2
    refine ⟨f, rfl, loop_leave ?_⟩
    simp only [hcursor, hnext, hlast]
  | cons g ys ih =>
    intro f c n hs helm hn
    obtain ⟨n, rfl⟩ := Nat.exists_eq_succ_of_ne_zero (Nat.ne_of_gt (Nat.zero_lt_of_lt hn))
    obtain ⟨hcursor, hnext⟩ := next_cursor l (f := f) fun he => helm (he ▸ List.mem_cons_self)
    have hg : l.next f = some g := hs.2.2.1
    obtain ⟨b, hb, hwalk⟩ := ih hs.2.2 (fun he => helm (List.mem_cons_of_mem _ he))
      (Nat.lt_of_succ_lt_succ hn)
    refine ⟨b, by rwa [List.getLast?_cons_cons], (loop_again ?_).trans hwalk⟩
    simp only [hcursor, hnext, hg, set_cursor]

theorem insertTail_spec (ha : IsList l h as) (helm : elm ∉ as) :
    ∃ l', (∃ k, ∀ n, k ≤ n → insertTail n l h elm = .ok l') ∧
      Spliced l l' (endCell (.head h) as) elm := by
  cases as with
  | nil =>
    refine ⟨l.insertHead h elm, ⟨0, fun n _ => ?_⟩, Links.spliced_insertHead l h elm⟩
    rw [insertTail, ha.first_eq]
    rfl
  | cons f ys =>
    obtain ⟨b, hb, -⟩ := walkTail_spec (n := ys.length + 1) ha.spells helm (Nat.lt_succ_self _)
    obtain ⟨xs, hxs⟩ := List.getLast?_eq_some_iff.mp hb
    have hlast : l.next b = none := by
      have hsp := ha.spells
      rw [hxs] at hsp
      exact hsp.next_eq
    have hne : b ≠ elm := fun he => helm (he ▸ List.mem_of_getLast? hb)
    obtain ⟨l', hlink, hs⟩ := linkTail_spec hne hlast
    refine ⟨l', ⟨ys.length + 1, fun n hn => ?_⟩, ?_⟩
    · obtain ⟨b', hb', hwalk⟩ := walkTail_spec (n := n) ha.spells helm (by omega)
      rw [hb, Option.some.injEq] at hb'
      subst hb'
      rw [insertTail, ha.first_eq]
      exact Except.bind_eq_ok_iff.mpr ⟨_, hwalk, hlink⟩
    · rw [hxs, endCell_concat]
      exact hs

/-! ## 3. The lists implement sequences -/

/-- **The list macros implement sequences.**  On every heap in which a head and its links represent a
duplicate-free sequence, an element that is not in it is put at the front, at the end, behind or before an
element by the insertions, of which the one at the end comes to its end, and an element that is in it is
taken out by the removal.  What results is well formed, and no link differs but the head's, those of the
element and those of its neighbours. -/
theorem list_macros (ha : IsList l h as) :
    (∀ elm, elm ∉ as →
      (IsList (l.insertHead h elm) h (elm :: as) ∧
        Local l (l.insertHead h elm) h (nearby [] elm as)) ∧
      (∃ l', (∃ k, ∀ n, k ≤ n → insertTail n l h elm = .ok l') ∧ IsList l' h (as ++ [elm]) ∧
        Local l l' h (nearby as elm [])) ∧
      ∀ xs b ys, as = xs ++ b :: ys →
        (IsList (insertAfter l b elm) h (xs ++ b :: elm :: ys) ∧
          Local l (insertAfter l b elm) h (nearby (xs ++ [b]) elm ys)) ∧
        (IsList (insertBefore l b elm) h (xs ++ elm :: b :: ys) ∧
          Local l (insertBefore l b elm) h (nearby xs elm (b :: ys)))) ∧
    ∀ xs elm ys, as = xs ++ elm :: ys →
      IsList (l.remove elm) h (xs ++ ys) ∧ Local l (l.remove elm) h (nearby xs elm ys) := by
  refine ⟨fun elm helm => ⟨?_, ?_, ?_⟩, ?_⟩
  · have hall : IsList l h ([] ++ as) := ha
    exact hall.splice helm (Links.spliced_insertHead l h elm)
  · obtain ⟨l', hrun, hs⟩ := insertTail_spec ha helm
    exact ⟨l', hrun, IsList.splice (by rwa [List.append_nil]) (by rwa [List.append_nil]) hs⟩
  · rintro xs b ys rfl
    have hne : b ≠ elm := fun he => helm (he ▸ by simp)
    have hnext := ha.spells.next_eq
    have hprev := ha.spells.prev_eq
    constructor
    · have hassoc : xs ++ b :: ys = xs ++ [b] ++ ys := by simp
      have hfresh : l.next b ≠ some elm := fun he => by
        rw [hnext] at he
        exact helm (List.mem_append_right _ (List.mem_cons_of_mem _ (List.mem_of_head? he)))
      have hs := spliced_insertAfter hne hfresh
      rw [← endCell_concat (.head h) xs b] at hs
      rw [hassoc] at ha helm
      have hput := ha.splice helm hs
      rwa [List.append_assoc] at hput
    · have hs := spliced_insertBefore hne (ha.spells.get_prev (by simp))
      rw [hprev] at hs
      exact ha.splice helm hs
  · rintro xs elm ys rfl
    exact ha.unlink

/-- A head whose list is 1, 2. -/
def twoElements : Links Unit Nat := ((Links.zeroed.init ()).insertHead () 2).insertHead () 1

theorem isList_twoElements : IsList twoElements () [1, 2] :=
  ((IsList.init Links.zeroed ()).insertHead (by decide)).insertHead (by decide)

/-- In front, at the end, behind 2, before 2, and without 1. -/
theorem list_macros_two :
    IsList (twoElements.insertHead () 7) () [7, 1, 2] ∧
      (∃ n l', insertTail n twoElements () 7 = .ok l' ∧ IsList l' () [1, 2, 7]) ∧
      IsList (insertAfter twoElements 2 7) () [1, 2, 7] ∧
      IsList (insertBefore twoElements 2 7) () [1, 7, 2] ∧ IsList (twoElements.remove 1) () [2] := by
  obtain ⟨hput, htake⟩ := list_macros isList_twoElements
  obtain ⟨hhead, ⟨l', ⟨n, hn⟩, htail, _⟩, hmiddle⟩ := hput 7 (by decide)
  obtain ⟨hafter, hbefore⟩ := hmiddle [1] 2 [] rfl
  exact ⟨hhead.1, ⟨n, l', hn n (Nat.le_refl n), htail⟩, hafter.1, hbefore.1, (htake [] 1 [2] rfl).1⟩

end Queue
end RaspiOS
