/-
# Memory of bytes

Memory has a byte at each 64-bit address, and addresses wrap.  Bytes are stored one at a time or eight at
a time, the eight of a word in the order of their addresses, so that which of them is the low one does not
matter here.  `put m a n f` is memory after the first `n` bytes from `a` on have been stored: one store
behind them is a store of some more (`put_put`), and that is all a loop over memory needs.
-/
import Mathlib.Algebra.GroupWithZero.Nat
import Mathlib.Tactic.Common

set_option autoImplicit false

namespace Bytes

/-- A byte at each address. -/
abbrev Memory := BitVec 64 → UInt8

/-- Eight bytes, in the order of their addresses. -/
abbrev Word := Vector UInt8 8

/-- The word at `a`, wherever that is. -/
def loadWord (m : Memory) (a : BitVec 64) : Word := Vector.ofFn fun k => m (a + BitVec.ofNat 64 k)

/-- A store of eight bytes. -/
def storeWord (m : Memory) (a : BitVec 64) (w : Word) : Memory :=
  fun x => if h : (x - a).toNat < 8 then w[(x - a).toNat] else m x

/-- A store of one byte. -/
def storeByte (m : Memory) (a : BitVec 64) (b : UInt8) : Memory :=
  fun x => if x = a then b else m x

/-- The first `n` bytes from `a` on are those of `f`. -/
def put (m : Memory) (a : BitVec 64) (n : Nat) (f : Nat → UInt8) : Memory :=
  fun x => if (x - a).toNat < n then f (x - a).toNat else m x

variable {m : Memory} {a x : BitVec 64} {n k i : Nat} {f : Nat → UInt8}

theorem add_ofNat_add (a : BitVec 64) (i k : Nat) :
    a + BitVec.ofNat 64 i + BitVec.ofNat 64 k = a + BitVec.ofNat 64 (i + k) := by
  rw [BitVec.add_assoc, BitVec.ofNat_add]

theorem put_zero (m : Memory) (a : BitVec 64) (f : Nat → UInt8) : put m a 0 f = m := by
  funext x
  exact if_neg (Nat.not_lt_zero _)

theorem storeWord_eq {w : Word} (h : ∀ k, (hk : k < 8) → w[k] = f k) :
    storeWord m a w = put m a 8 f := by
  funext x
  unfold storeWord put
  split
  · exact h _ _
  · rfl

theorem storeByte_eq (m : Memory) (a : BitVec 64) (f : Nat → UInt8) :
    storeByte m a (f 0) = put m a 1 f := by
  funext x
  unfold storeByte put
  rcases eq_or_ne x a with rfl | hx
  · rw [if_pos rfl, BitVec.sub_self]
    rfl
  · have hlt : ¬ (x - a).toNat < 1 := by
      intro h0
      have h00 : (x - a).toNat = 0 := by omega
      exact hx (by bv_omega)
    rw [if_neg hx, if_neg hlt]

/-- How far an address is behind one that has been moved. -/
theorem toNat_sub_add (x a : BitVec 64) (hn : n ≤ 2 ^ 64) :
    (x - (a + BitVec.ofNat 64 n)).toNat
      = if n ≤ (x - a).toNat then (x - a).toNat - n else (2 ^ 64 + (x - a).toNat - n) % 2 ^ 64 := by
  rw [← BitVec.sub_sub, BitVec.toNat_sub, BitVec.toNat_ofNat]
  have hlt := (x - a).isLt
  split <;> omega

/-- **Some more bytes.** -/
theorem put_put (hnk : n + k ≤ 2 ^ 64) :
    put (put m a n f) (a + BitVec.ofNat 64 n) k (fun j => f (n + j)) = put m a (n + k) f := by
  funext x
  have hlt := (x - a).isLt
  unfold put
  rw [toNat_sub_add x a (by omega)]
  rcases Nat.lt_or_ge (x - a).toNat n with hin | hout
  · rw [if_neg (Nat.not_le_of_lt hin), if_neg (by omega), if_pos hin, if_pos (by omega)]
  · rw [if_pos hout, if_neg (Nat.not_lt_of_le hout)]
    rcases Nat.lt_or_ge (x - a).toNat (n + k) with hnew | hold
    · rw [if_pos (by omega), if_pos hnew]
      exact congrArg f (Nat.add_sub_cancel' hout)
    · rw [if_neg (by omega), if_neg (Nat.not_lt_of_le hold)]

theorem put_inside (hi : i < n) (hn : n ≤ 2 ^ 64) : put m a n f (a + BitVec.ofNat 64 i) = f i := by
  have hdist : (a + BitVec.ofNat 64 i - a).toNat = i := by
    rw [BitVec.add_comm, BitVec.add_sub_cancel, BitVec.toNat_ofNat]
    omega
  rw [put, hdist, if_pos hi]

theorem put_outside (hx : ∀ i, i < n → x ≠ a + BitVec.ofNat 64 i) : put m a n f x = m x := by
  refine if_neg fun hlt => hx _ hlt ?_
  rw [BitVec.ofNat_toNat, BitVec.setWidth_eq, BitVec.add_comm, BitVec.sub_add_cancel]

end Bytes
