/-
# The walk of the hardware as a radix tree

`translate` follows table descriptors, answers at a block or a page, and faults at anything else.  Read
as a walk of a radix tree it has the paths of the kernel's walk, one kind of end more, and an answer for
each address.  The tree is that of `PTE_ADDR`, so it is the hardware's where the tables on the way are
frames that 48 bits of address can name.
-/
import RaspiOS.Mmu
import RaspiOS.Lib.Radix

set_option autoImplicit false

namespace RaspiOS

/-- The path of an address, from the second index to the first. -/
def pathOf (va : Nat) : List (Fin 512) := [pmdx va, pudx va]

/-- What is read at depth `n` above the last level: a block ends the walk. -/
def hwDecode (n w : Nat) : Radix.Step Nat (Nat × Nat) :=
  if IsTable w then .table (ppn w) else if IsBlock w then .final (n, w) else .void

/-- The answer of a page descriptor. -/
def pageAnswer (w : Nat) : Option Translation :=
  if IsTable w then some ⟨hwFrame w, w &&& 0xfff⟩ else none

/-- The answer of a block of 1 GB or of 2 MB. -/
def blockAnswer (va : Nat) : Nat × Nat → Option Translation
  | (0, w) => some ⟨hwFrame w / 2 ^ 18 * 2 ^ 18 + (va >>> 12) % 2 ^ 18, w &&& 0xfff⟩
  | (_, w) => some ⟨hwFrame w / 512 * 512 + ptex va, w &&& 0xfff⟩

section Decode

variable {n w f : Nat}

theorem hwDecode_table : hwDecode n w = .table f ↔ IsTable w ∧ ppn w = f := by
  unfold hwDecode
  split
  · rename_i ht
    exact ⟨fun h => ⟨ht, Radix.Step.table.inj h⟩, fun h => congrArg _ h.2⟩
  · rename_i ht
    refine ⟨fun h => ?_, fun h => absurd h.1 ht⟩
    split at h <;> cases h

theorem hwDecode_tableDesc (n f : Nat) : hwDecode n (tableDesc f) = .table f :=
  hwDecode_table.mpr ⟨isTable_tableDesc f, ppn_tableDesc f⟩

theorem hwDecode_of_block (h : IsBlock w) : hwDecode n w = .final (n, w) := by
  have ht : ¬ IsTable w := by
    intro ht
    rw [IsTable, h] at ht
    exact absurd ht (by decide)
  rw [hwDecode, if_neg ht, if_pos h]

/-- The two low bits say everything. -/
theorem valid_iff : Valid w ↔ IsTable w ∨ IsBlock w := by
  constructor
  · intro h
    have h3 : w &&& 3 = w % 4 := Nat.and_two_pow_sub_one_eq_mod w 2
    have h1 : w &&& 1 = w % 2 := Nat.and_two_pow_sub_one_eq_mod w 1
    rw [Valid, pteV, h1] at h
    rw [IsTable, IsBlock, h3]
    omega
  · rintro (h | h)
    · exact h.valid
    · exact h.valid

theorem hwDecode_void : hwDecode n w = .void ↔ ¬ Valid w := by
  rw [valid_iff, not_or]
  unfold hwDecode
  split
  · rename_i ht
    exact ⟨fun h => (nomatch h), fun h => absurd ht h.1⟩
  · rename_i ht
    split
    · rename_i hb
      exact ⟨fun h => (nomatch h), fun h => absurd hb h.2⟩
    · rename_i hb
      exact ⟨fun _ => ⟨ht, hb⟩, fun _ => rfl⟩

theorem pageAnswer_of_not_valid (h : ¬ Valid w) : pageAnswer w = none :=
  if_neg fun ht => h ht.valid

end Decode

/-- **The hardware's translation is the answer of the radix tree**, where it can name the tables on the
way. -/
theorem translate_eq_read {m : Mem} {d va : Nat}
    (hone : ∀ f, Radix.walk hwDecode m d [pudx va] = .table f → f < 2 ^ 36)
    (htwo : ∀ f, Radix.walk hwDecode m d (pathOf va) = .table f → f < 2 ^ 36) :
    translate m d va = if va < 2 ^ 39 then
      Radix.read hwDecode pageAnswer (blockAnswer va) none m d (ptex va) (pathOf va)
    else none := by
  unfold translate Radix.read
  refine if_congr Iff.rfl ?_ rfl
  have hw : Radix.walk hwDecode m d [pudx va] = hwDecode 0 (m d (pudx va)) := Radix.walk_cons rfl
  rcases Decidable.em (IsTable (m d (pudx va))) with h1 | h1
  · have hw1 : Radix.walk hwDecode m d [pudx va] = .table (ppn (m d (pudx va))) :=
      hw.trans (hwDecode_table.mpr ⟨h1, rfl⟩)
    have hw2 : Radix.walk hwDecode m d (pathOf va)
        = hwDecode 1 (m (ppn (m d (pudx va))) (pmdx va)) := Radix.walk_cons hw1
    simp only [h1, if_true, translatePmd, hwFrame_of_lt (hone _ hw1)]
    rcases Decidable.em (IsTable (m (ppn (m d (pudx va))) (pmdx va))) with h2 | h2
    · have hw3 := hw2.trans (hwDecode_table.mpr ⟨h2, rfl⟩)
      rw [hw3, if_pos h2, hwFrame_of_lt (htwo _ hw3)]
      rfl
    · rw [hw2]
      simp only [hwDecode, h2, if_false]
      split <;> rfl
  · simp only [h1, if_false]
    rcases Decidable.em (IsBlock (m d (pudx va))) with h2 | h2
    · have hw1 := hw.trans (hwDecode_of_block h2)
      rw [show Radix.walk hwDecode m d (pathOf va) = .final (0, m d (pudx va)) from
        Radix.walk_cons_of_final hw1, if_pos h2]
      rfl
    · have hw1 : Radix.walk hwDecode m d [pudx va] = .void :=
        hw.trans (hwDecode_void.mpr fun hv => (valid_iff.mp hv).elim h1 h2)
      rw [show Radix.walk hwDecode m d (pathOf va) = .void from Radix.walk_cons_of_void hw1,
        if_neg h2]

end RaspiOS
