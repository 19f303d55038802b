/-
# Rendezvous of a receiver with one sender

Each party has one mailbox.  A receive begins, a message is sent to the party that waits, and a
receive that was made by a library call returns what the call makes of the message; a receive
without a call ends with the message.  A log records these three kinds of events for all parties,
oldest first.

`Accepts` says that the events of one party follow this protocol, and in which phase they leave it;
other parties may do anything in between.  From that alone a log has the properties of a mailbox
that loses and repeats nothing:

* every return is matched by a message (`Accepts.matched`), by one message only
  (`Matches.unique`), and no message by two returns (`Matches.inj`);
* between two messages to one party it has begun to receive again, and a call that the first one
  answered has returned by then (`Accepts.separated`).
-/
import Mathlib.Data.List.Basic

set_option autoImplicit false

namespace Rendezvous

variable {α κ μ ρ : Type}

/-- Events: a receive begins, with or without a call; a message is sent to a waiting party; a call
returns. -/
inductive Entry (α κ μ ρ : Type) where
  | began (e : α) (c : Option κ)
  | sent (e : α) (m : μ)
  | returned (e : α) (r : ρ)

/-- The receiver an event is about. -/
def Entry.party : Entry α κ μ ρ → α
  | .began e _ => e
  | .sent e _ => e
  | .returned e _ => e

/-- Where a party stands: not receiving, waiting for a message, or with a message that its call has
not returned yet. -/
inductive Phase (κ μ : Type) where
  | ready
  | waiting (c : Option κ)
  | delivered (c : κ) (m : μ)

/-- What a message makes of a party that waits. -/
def Phase.answer (m : μ) : Option κ → Phase κ μ
  | none => .ready
  | some c => .delivered c m

/-- The events of `e` follow the protocol; `result` is what a call returns. -/
inductive Accepts (result : κ → μ → ρ) (e : α) : List (Entry α κ μ ρ) → Phase κ μ → Prop
  | nil : Accepts result e [] .ready
  | other {l : List (Entry α κ μ ρ)} {p : Phase κ μ} {x : Entry α κ μ ρ} :
      Accepts result e l p → x.party ≠ e → Accepts result e (l ++ [x]) p
  | began {l : List (Entry α κ μ ρ)} {c : Option κ} :
      Accepts result e l .ready → Accepts result e (l ++ [.began e c]) (.waiting c)
  | sent {l : List (Entry α κ μ ρ)} {c : Option κ} {m : μ} :
      Accepts result e l (.waiting c) → Accepts result e (l ++ [.sent e m]) (.answer m c)
  | returned {l : List (Entry α κ μ ρ)} {c : κ} {m : μ} :
      Accepts result e l (.delivered c m) →
        Accepts result e (l ++ [.returned e (result c m)]) .ready

variable {result : κ → μ → ρ} {e : α} {l : List (Entry α κ μ ρ)} {x y : Entry α κ μ ρ}
  {i j k b s : Nat} {p : Phase κ μ}

/-! ## 1. Places in a log -/

/-- The last event is the new one, the others are the old ones. -/
theorem getElem?_snoc : (l ++ [x])[k]? = some y ↔
    l[k]? = some y ∨ (k = l.length ∧ x = y) := by
  rcases Nat.lt_trichotomy k l.length with hk | rfl | hk
  · rw [List.getElem?_append_left hk]
    constructor
    · exact Or.inl
    · rintro (h | ⟨rfl, _⟩)
      · exact h
      · exact absurd hk (Nat.lt_irrefl _)
  · simp
  · have hnone : (l ++ [x])[k]? = none := by
      rw [List.getElem?_eq_none_iff, List.length_append, List.length_singleton]
      omega
    have hnone' : l[k]? = none := by
      rw [List.getElem?_eq_none_iff]
      omega
    rw [hnone, hnone']
    constructor
    · intro h; cases h
    · rintro (h | ⟨rfl, _⟩)
      · cases h
      · exact absurd hk (Nat.lt_irrefl _)

theorem lt_length (h : l[k]? = some y) : k < l.length := by
  by_contra hk
  rw [List.getElem?_eq_none_iff.mpr (by omega)] at h
  cases h

/-- No event between two places is about `e`. -/
def Quiet (l : List (Entry α κ μ ρ)) (e : α) (i j : Nat) : Prop :=
  ∀ k x, i < k → k < j → l[k]? = some x → x.party ≠ e

theorem Quiet.snoc (h : Quiet l e i j) (hj : j ≤ l.length) : Quiet (l ++ [x]) e i j := by
  intro k y hik hkj hy
  rcases getElem?_snoc.mp hy with hy | ⟨rfl, _⟩
  · exact h k y hik hkj hy
  · omega

theorem Quiet.of_snoc (h : Quiet (l ++ [x]) e i j) : Quiet l e i j :=
  fun k y hik hkj hy => h k y hik hkj (getElem?_snoc.mpr (Or.inl hy))

theorem Quiet.extend (h : Quiet l e i l.length) (hx : x.party ≠ e) :
    Quiet (l ++ [x]) e i (l ++ [x]).length := by
  intro k y hik _ hy
  rcases getElem?_snoc.mp hy with hy | ⟨_, rfl⟩
  · exact h k y hik (lt_length hy) hy
  · exact hx

theorem quiet_last (l : List (Entry α κ μ ρ)) (e : α) (x : Entry α κ μ ρ) :
    Quiet (l ++ [x]) e l.length (l ++ [x]).length := by
  intro k y hik hkj _
  rw [List.length_append, List.length_singleton] at hkj
  omega

/-- The message at `s` answers the receive that began at `b`. -/
structure Answers (l : List (Entry α κ μ ρ)) (e : α) (c : Option κ) (m : μ) (b s : Nat) :
    Prop where
  lt : b < s
  began : l[b]? = some (.began e c)
  sent : l[s]? = some (.sent e m)
  quiet : Quiet l e b s

/-- The return at `k` is that of a call which the message at `s` has answered. -/
def Matches (result : κ → μ → ρ) (l : List (Entry α κ μ ρ)) (s k : Nat) : Prop :=
  ∃ e c m b, Answers l e (some c) m b s ∧ s < k ∧ l[k]? = some (.returned e (result c m)) ∧
    Quiet l e s k

theorem Answers.snoc {c : Option κ} {m : μ} (h : Answers l e c m b s) :
    Answers (l ++ [x]) e c m b s where
  lt := h.lt
  began := getElem?_snoc.mpr (Or.inl h.began)
  sent := getElem?_snoc.mpr (Or.inl h.sent)
  quiet := h.quiet.snoc (Nat.le_of_lt (lt_length h.sent))

theorem Answers.of_snoc {c : Option κ} {m : μ} (h : Answers (l ++ [x]) e c m b s)
    (hs : s < l.length) : Answers l e c m b s where
  lt := h.lt
  began := (getElem?_snoc.mp h.began).resolve_right fun hb => by have := h.lt; omega
  sent := (getElem?_snoc.mp h.sent).resolve_right fun hb => by omega
  quiet := h.quiet.of_snoc

theorem Matches.snoc (h : Matches result l s k) : Matches result (l ++ [x]) s k := by
  obtain ⟨e, c, m, b, ha, hsk, hk, hq⟩ := h
  exact ⟨e, c, m, b, ha.snoc, hsk, getElem?_snoc.mpr (Or.inl hk),
    hq.snoc (Nat.le_of_lt (lt_length hk))⟩

/-! ## 2. Matching is one to one -/

/-- **A return matches one message.** -/
theorem Matches.unique {s' : Nat} (h : Matches result l s k) (h' : Matches result l s' k) :
    s = s' := by
  obtain ⟨e, c, m, b, ha, hsk, hk, hq⟩ := h
  obtain ⟨e', c', m', b', ha', hsk', hk', hq'⟩ := h'
  rw [hk] at hk'
  obtain ⟨rfl, _⟩ := Entry.returned.inj (Option.some.inj hk')
  rcases Nat.lt_trichotomy s s' with hlt | heq | hlt
  · exact absurd rfl (hq s' _ hlt hsk' ha'.sent)
  · exact heq
  · exact absurd rfl (hq' s _ hlt hsk ha.sent)

/-- **A message matches one return.** -/
theorem Matches.inj {k' : Nat} (h : Matches result l s k) (h' : Matches result l s k') :
    k = k' := by
  obtain ⟨e, c, m, b, ha, hsk, hk, hq⟩ := h
  obtain ⟨e', c', m', b', ha', hsk', hk', hq'⟩ := h'
  have hsent := ha.sent
  rw [ha'.sent] at hsent
  cases hsent
  rcases Nat.lt_trichotomy k k' with hlt | heq | hlt
  · exact absurd rfl (hq' k _ hsk hlt hk)
  · exact heq
  · exact absurd rfl (hq k' _ hsk' hlt hk')

/-! ## 3. What the phases say about the past -/

/-- A party that waits has begun to receive, and nothing has happened to it since. -/
theorem Accepts.of_waiting {c : Option κ} (h : Accepts result e l (.waiting c)) :
    ∃ b, l[b]? = some (.began e c) ∧ Quiet l e b l.length := by
  generalize hp : Phase.waiting c = p at h
  induction h with
  | nil => cases hp
  | other _ hx ih =>
    obtain ⟨b, hb, hq⟩ := ih hp
    exact ⟨b, getElem?_snoc.mpr (Or.inl hb), hq.extend hx⟩
  | @began l _ _ =>
    cases hp
    exact ⟨l.length, getElem?_snoc.mpr (Or.inr ⟨rfl, rfl⟩), quiet_last _ _ _⟩
  | @sent _ c' _ _ _ => cases c' <;> cases hp
  | returned _ _ => cases hp

/-- A message that arrives answers the receive that waits for it. -/
theorem Accepts.answers {c : Option κ} {m : μ} (h : Accepts result e l (.waiting c)) :
    ∃ b, Answers (l ++ [.sent e m]) e c m b l.length := by
  obtain ⟨b, hb, hq⟩ := h.of_waiting
  exact ⟨b, lt_length hb, getElem?_snoc.mpr (Or.inl hb), getElem?_snoc.mpr (Or.inr ⟨rfl, rfl⟩),
    hq.snoc (Nat.le_refl _)⟩

/-- **A call that has got its message has got one**, and nothing has happened to the party since. -/
theorem Accepts.of_delivered {c : κ} {m : μ} (h : Accepts result e l (.delivered c m)) :
    ∃ b s, Answers l e (some c) m b s ∧ Quiet l e s l.length := by
  generalize hp : Phase.delivered c m = p at h
  induction h with
  | nil => cases hp
  | other _ hx ih =>
    obtain ⟨b, s, ha, hq⟩ := ih hp
    exact ⟨b, s, ha.snoc, hq.extend hx⟩
  | began _ _ => cases hp
  | @sent l c' _ h _ =>
    cases c' <;> cases hp
    obtain ⟨b, ha⟩ := h.answers (m := m)
    exact ⟨b, l.length, ha, quiet_last _ _ _⟩
  | returned _ _ => cases hp

/-- **Every return is matched.** -/
theorem Accepts.matched {r : ρ} (h : Accepts result e l p) (hk : l[k]? = some (.returned e r)) :
    ∃ s, Matches result l s k := by
  induction h with
  | nil => cases hk
  | other _ hx ih =>
    rcases getElem?_snoc.mp hk with hk | ⟨_, rfl⟩
    · obtain ⟨s, hs⟩ := ih hk
      exact ⟨s, hs.snoc⟩
    · exact absurd rfl hx
  | began _ ih =>
    rcases getElem?_snoc.mp hk with hk | ⟨_, hx⟩
    · obtain ⟨s, hs⟩ := ih hk
      exact ⟨s, hs.snoc⟩
    · cases hx
  | sent _ ih =>
    rcases getElem?_snoc.mp hk with hk | ⟨_, hx⟩
    · obtain ⟨s, hs⟩ := ih hk
      exact ⟨s, hs.snoc⟩
    · cases hx
  | @returned l c m h ih =>
    rcases getElem?_snoc.mp hk with hk | ⟨rfl, hx⟩
    · obtain ⟨s, hs⟩ := ih hk
      exact ⟨s, hs.snoc⟩
    · cases hx
      obtain ⟨b, s, ha, hq⟩ := h.of_delivered
      exact ⟨s, e, c, m, b, ha.snoc, lt_length ha.sent, getElem?_snoc.mpr (Or.inr ⟨rfl, rfl⟩),
        hq.snoc (Nat.le_refl _)⟩

/-- A call that got its message has returned, or nothing has happened to the party since. -/
theorem Accepts.returns {c : κ} {m : μ} (h : Accepts result e l p)
    (ha : Answers l e (some c) m b s) : (∃ k, Matches result l s k) ∨
      (p = .delivered c m ∧ Quiet l e s l.length) := by
  induction h with
  | nil => cases ha.began
  | other _ hx ih =>
    have hs : s < _ := lt_length ((getElem?_snoc.mp ha.sent).resolve_right
      fun hc => hx (by rw [hc.2]; rfl))
    rcases ih (ha.of_snoc hs) with ⟨k, hk⟩ | ⟨hp, hq⟩
    · exact Or.inl ⟨k, hk.snoc⟩
    · exact Or.inr ⟨hp, hq.extend hx⟩
  | began _ ih =>
    have hs : s < _ := lt_length ((getElem?_snoc.mp ha.sent).resolve_right
      fun hc => by cases hc.2)
    rcases ih (ha.of_snoc hs) with ⟨k, hk⟩ | ⟨hp, _⟩
    · exact Or.inl ⟨k, hk.snoc⟩
    · cases hp
  | @sent l c' m' h ih =>
    rcases getElem?_snoc.mp ha.sent with hs | ⟨rfl, hm⟩
    · rcases ih (ha.of_snoc (lt_length hs)) with ⟨k, hk⟩ | ⟨hp, _⟩
      · exact Or.inl ⟨k, hk.snoc⟩
      · cases hp
    · cases hm
      -- the receive it answers is the one that waits
      obtain ⟨b', hb', hq'⟩ := h.of_waiting
      have hb := (getElem?_snoc.mp ha.began).resolve_right fun hc => by cases hc.2
      have hbb : b = b' := by
        rcases Nat.lt_trichotomy b b' with hlt | heq | hlt
        · exact absurd rfl (ha.quiet.of_snoc b' _ hlt (lt_length hb') hb')
        · exact heq
        · exact absurd rfl (hq' b _ hlt (lt_length hb) hb)
      rw [hbb, hb'] at hb
      cases hb
      exact Or.inr ⟨rfl, quiet_last _ _ _⟩
  | @returned l c' m' h ih =>
    have hs : s < l.length := lt_length ((getElem?_snoc.mp ha.sent).resolve_right
      fun hc => by cases hc.2)
    rcases ih (ha.of_snoc hs) with ⟨k, hk⟩ | ⟨hp, hq⟩
    · exact Or.inl ⟨k, hk.snoc⟩
    · cases hp
      exact Or.inl ⟨l.length, e, c, m, b, ha, hs, getElem?_snoc.mpr (Or.inr ⟨rfl, rfl⟩),
        hq.snoc (Nat.le_refl _)⟩

/-- A message finds a party that waits. -/
theorem Accepts.sent_waiting {m : μ} (h : Accepts result e l p) (hs : l[s]? = some (.sent e m)) :
    ∃ b c, Answers l e c m b s := by
  induction h with
  | nil => cases hs
  | other _ hx ih =>
    rcases getElem?_snoc.mp hs with hs | ⟨_, rfl⟩
    · obtain ⟨b, c, ha⟩ := ih hs
      exact ⟨b, c, ha.snoc⟩
    · exact absurd rfl hx
  | began _ ih =>
    rcases getElem?_snoc.mp hs with hs | ⟨_, hx⟩
    · obtain ⟨b, c, ha⟩ := ih hs
      exact ⟨b, c, ha.snoc⟩
    · cases hx
  | @sent l c _ h ih =>
    rcases getElem?_snoc.mp hs with hs | ⟨rfl, hx⟩
    · obtain ⟨b, c, ha⟩ := ih hs
      exact ⟨b, c, ha.snoc⟩
    · cases hx
      obtain ⟨b, ha⟩ := h.answers (m := m)
      exact ⟨b, c, ha⟩
  | returned _ ih =>
    rcases getElem?_snoc.mp hs with hs | ⟨_, hx⟩
    · obtain ⟨b, c, ha⟩ := ih hs
      exact ⟨b, c, ha.snoc⟩
    · cases hx

/-- **Between two messages the party has begun to receive again**, and a call that the first one
answered has returned before. -/
theorem Accepts.separated {m m' : μ} {s' : Nat} (h : Accepts result e l p)
    (hs : l[s]? = some (.sent e m)) (hs' : l[s']? = some (.sent e m')) (hlt : s < s') :
    ∃ b c, s < b ∧ b < s' ∧ l[b]? = some (.began e c) ∧
      ∀ b₀ c₀, Answers l e (some c₀) m b₀ s → ∃ k, Matches result l s k ∧ k < b := by
  obtain ⟨b, c, ha'⟩ := h.sent_waiting hs'
  have hsb : s < b := by
    rcases Nat.lt_trichotomy s b with hsb | rfl | hsb
    · exact hsb
    · rw [ha'.began] at hs
      cases hs
    · exact absurd rfl (ha'.quiet s _ hsb hlt hs)
  refine ⟨b, c, hsb, ha'.lt, ha'.began, fun b₀ c₀ ha => ?_⟩
  rcases h.returns ha with ⟨k, hk⟩ | ⟨_, hq⟩
  · refine ⟨k, hk, ?_⟩
    obtain ⟨e', c₁, m₁, b₁, ha₁, hsk, hk, hq⟩ := hk
    have hsent := ha₁.sent
    rw [hs] at hsent
    cases hsent
    rcases Nat.lt_trichotomy k b with hkb | rfl | hkb
    · exact hkb
    · have hbegan := ha'.began
      rw [hk] at hbegan
      cases hbegan
    · exact absurd rfl (hq b _ hsb hkb ha'.began)
  · exact absurd rfl (hq b _ hsb (lt_length ha'.began) ha'.began)

end Rendezvous
