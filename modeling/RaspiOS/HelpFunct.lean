/-
# `bcopy` and `bzero`

`lib/helpfunct.c`.  Both work in words of eight bytes while there are eight bytes left and then byte by
byte, upwards, and the comparisons are made on addresses, which wrap.

A copy reads what it has not overwritten yet if the destination, looked at from the source upwards, is
nowhere in the source, or is its beginning: so it is for ranges that do not meet, and for a destination
below the source.  A source that goes on behind the last address is another matter: it may come round to
the destination from below.
-/
import RaspiOS.Lib.Bytes
import RaspiOS.Lib.Fallible
import RaspiOS.Lib.Loop

set_option autoImplicit false

namespace RaspiOS
namespace HelpFunct

open Bytes Loop

/-! ## 1. The functions -/

/-- A loop that wants more rounds than it is given. -/
inductive CopyFault
  | endless
  deriving DecidableEq

/-- `dst + 7 < max`, and `*(long *)dst = *(long *)src; dst += 8; src += 8;` -/
def copyWord (max : BitVec 64) : Memory × BitVec 64 × BitVec 64 →
    Except CopyFault (Round (Memory × BitVec 64 × BitVec 64) (Memory × BitVec 64 × BitVec 64)) :=
  fun (m, dst, src) => .ok <|
    if dst + 7 < max then .again (storeWord m dst (loadWord m src), dst + 8, src + 8)
    else .leave (m, dst, src)

/-- `dst < max`, and `*(char *)dst = *(char *)src; dst += 1; src += 1;` -/
def copyByte (max : BitVec 64) : Memory × BitVec 64 × BitVec 64 →
    Except CopyFault (Round (Memory × BitVec 64 × BitVec 64) (Memory × BitVec 64 × BitVec 64)) :=
  fun (m, dst, src) => .ok <|
    if dst < max then .again (storeByte m dst (m src), dst + 1, src + 1) else .leave (m, dst, src)

/-- `bcopy` -/
def bcopy (n : Nat) (m : Memory) (src dst len : BitVec 64) : Except CopyFault Memory := do
  let max := dst + len
  let (m, dst, src) ← loop .endless (copyWord max) n (m, dst, src)
  let (m, _, _) ← loop .endless (copyByte max) n (m, dst, src)
  return m

/-- `b + 7 < max`, and `*(long *)b = 0; b += 8;` -/
def zeroWord (max : BitVec 64) :
    Memory × BitVec 64 → Except CopyFault (Round (Memory × BitVec 64) (Memory × BitVec 64)) :=
  fun (m, b) => .ok <|
    if b + 7 < max then .again (storeWord m b (Vector.replicate 8 0), b + 8) else .leave (m, b)

/-- `b < max`, and `*(char *)b++ = 0;` -/
def zeroByte (max : BitVec 64) :
    Memory × BitVec 64 → Except CopyFault (Round (Memory × BitVec 64) (Memory × BitVec 64)) :=
  fun (m, b) => .ok <| if b < max then .again (storeByte m b 0, b + 1) else .leave (m, b)

/-- `bzero` -/
def bzero (n : Nat) (m : Memory) (b len : BitVec 64) : Except CopyFault Memory := do
  let max := b + len
  let (m, b) ← loop .endless (zeroWord max) n (m, b)
  let (m, _) ← loop .endless (zeroByte max) n (m, b)
  return m

/-! ## 2. The bounds of the loops -/

section Bounds

variable {a len : BitVec 64} {i : Nat}

/-- `i` bytes further, without a wrap. -/
theorem toNat_add_ofNat (hwrap : a.toNat + len.toNat + 7 < 2 ^ 64) (hi : i ≤ len.toNat + 7) :
    (a + BitVec.ofNat 64 i).toNat = a.toNat + i := by
  rw [BitVec.toNat_add, BitVec.toNat_ofNat]
  omega

/-- There are eight bytes left. -/
theorem word_left_iff (hwrap : a.toNat + len.toNat + 7 < 2 ^ 64) (hi : i ≤ len.toNat) :
    a + BitVec.ofNat 64 i + 7 < a + len ↔ i + 8 ≤ len.toNat := by
  have hpos : a + BitVec.ofNat 64 i + 7 = a + BitVec.ofNat 64 (i + 7) := by
    rw [BitVec.add_assoc, BitVec.ofNat_add]
    rfl
  have hmax : (a + len).toNat = a.toNat + len.toNat := by
    rw [BitVec.toNat_add]
    omega
  rw [hpos, BitVec.lt_def, toNat_add_ofNat hwrap (by omega), hmax]
  omega

/-- There is a byte left. -/
theorem byte_left_iff (hwrap : a.toNat + len.toNat + 7 < 2 ^ 64) (hi : i ≤ len.toNat) :
    a + BitVec.ofNat 64 i < a + len ↔ i + 1 ≤ len.toNat := by
  have hmax : (a + len).toNat = a.toNat + len.toNat := by
    rw [BitVec.toNat_add]
    omega
  rw [BitVec.lt_def, toNat_add_ofNat hwrap (by omega), hmax]
  omega

end Bounds

/-- **Words, then bytes**: a loop that goes on by eights while eight are left, and behind it one that goes
on by ones, come to the end exactly. -/
theorem words_then_bytes {σ : Type} {word byte : σ → Except CopyFault (Round σ σ)} {done : Nat → σ}
    {len n : Nat}
    (hword : ∀ i, i ≤ len →
      word (done i) = .ok (if i + 8 ≤ len then .again (done (i + 8)) else .leave (done i)))
    (hbyte : ∀ i, i ≤ len →
      byte (done i) = .ok (if i + 1 ≤ len then .again (done (i + 1)) else .leave (done i)))
    (hn : len < n) :
    ∃ j, loop .endless word n (done 0) = .ok (done j) ∧ loop .endless byte n (done j) = .ok (done len) := by
  obtain ⟨j, -, hj, -, hwords⟩ := loop_upTo CopyFault.endless (by decide) hword (Nat.zero_le len)
  obtain ⟨k, -, hk, hend, hbytes⟩ := loop_upTo CopyFault.endless (by decide) hbyte hj
  obtain rfl : k = len := by omega
  exact ⟨j, hwords n hn, hbytes n hn⟩

/-! ## 3. `bcopy` -/

/-- The destination, looked at from the source upwards, is its beginning or behind it. -/
def Clear (src dst len : BitVec 64) : Prop := dst = src ∨ len.toNat ≤ (dst - src).toNat

section Copy

variable {m : Memory} {src dst len : BitVec 64} {i k n : Nat}

/-- **What is read is what was there**: nothing of it has been overwritten. -/
theorem put_source (hclear : Clear src dst len) (hk : k < len.toNat) (hik : i ≤ k) (f : Nat → UInt8) :
    put m dst i f (src + BitVec.ofNat 64 k) = m (src + BitVec.ofNat 64 k) := by
  refine if_neg fun hlt => ?_
  have hlen := len.isLt
  rcases hclear with rfl | hclear
  · rw [BitVec.add_comm, BitVec.add_sub_cancel, BitVec.toNat_ofNat] at hlt
    omega
  · rw [BitVec.toNat_sub] at hclear hlt
    rw [BitVec.toNat_add, BitVec.toNat_ofNat] at hlt
    have hsrc := src.isLt
    have hdst := dst.isLt
    omega

/-- The bytes of the source as they were. -/
def source (m : Memory) (src : BitVec 64) (k : Nat) : UInt8 := m (src + BitVec.ofNat 64 k)

/-- What has been done when `i` bytes have been copied. -/
def copied (m : Memory) (src dst : BitVec 64) (i : Nat) : Memory × BitVec 64 × BitVec 64 :=
  (put m dst i (source m src), dst + BitVec.ofNat 64 i, src + BitVec.ofNat 64 i)

/-- A round of the first loop, or its end. -/
theorem copyWord_spec (hwrap : dst.toNat + len.toNat + 7 < 2 ^ 64) (hclear : Clear src dst len)
    (hi : i ≤ len.toNat) :
    copyWord (dst + len) (copied m src dst i) = .ok
      (if i + 8 ≤ len.toNat then .again (copied m src dst (i + 8)) else .leave (copied m src dst i)) := by
  have hlen := len.isLt
  rw [copyWord, copied]
  dsimp only
  rw [if_congr (word_left_iff hwrap hi) rfl rfl]
  split
  · have hstore : storeWord (put m dst i (source m src)) (dst + BitVec.ofNat 64 i)
        (loadWord (put m dst i (source m src)) (src + BitVec.ofNat 64 i))
        = put m dst (i + 8) (source m src) := by
      rw [← put_put (by omega)]
      refine storeWord_eq fun k hk => ?_
      rw [loadWord, Vector.getElem_ofFn, add_ofNat_add]
      exact put_source hclear (by omega) (Nat.le_add_right i k) _
    have hdst : dst + BitVec.ofNat 64 i + 8 = dst + BitVec.ofNat 64 (i + 8) := add_ofNat_add dst i 8
    have hsrc : src + BitVec.ofNat 64 i + 8 = src + BitVec.ofNat 64 (i + 8) := add_ofNat_add src i 8
    rw [hstore, hdst, hsrc]
    rfl
  · rfl

/-- A round of the second loop, or its end. -/
theorem copyByte_spec (hwrap : dst.toNat + len.toNat + 7 < 2 ^ 64) (hclear : Clear src dst len)
    (hi : i ≤ len.toNat) :
    copyByte (dst + len) (copied m src dst i) = .ok
      (if i + 1 ≤ len.toNat then .again (copied m src dst (i + 1)) else .leave (copied m src dst i)) := by
  have hlen := len.isLt
  rw [copyByte, copied]
  dsimp only
  rw [if_congr (byte_left_iff hwrap hi) rfl rfl]
  split
  · have hstore : storeByte (put m dst i (source m src)) (dst + BitVec.ofNat 64 i)
        (put m dst i (source m src) (src + BitVec.ofNat 64 i)) = put m dst (i + 1) (source m src) := by
      rw [← put_put (by omega), put_source hclear (by omega) (Nat.le_refl i)]
      exact storeByte_eq _ _ fun j => source m src (i + j)
    have hdst : dst + BitVec.ofNat 64 i + 1 = dst + BitVec.ofNat 64 (i + 1) := add_ofNat_add dst i 1
    have hsrc : src + BitVec.ofNat 64 i + 1 = src + BitVec.ofNat 64 (i + 1) := add_ofNat_add src i 1
    rw [hstore, hdst, hsrc]
    rfl
  · rfl

/-- **`bcopy`** puts the bytes of the source at the destination. -/
theorem bcopy_spec (m : Memory) (hwrap : dst.toNat + len.toNat + 7 < 2 ^ 64)
    (hclear : Clear src dst len) (hn : len.toNat < n) :
    bcopy n m src dst len = .ok (put m dst len.toNat (source m src)) := by
  have hstart : copied m src dst 0 = (m, dst, src) := by
    rw [copied, put_zero]
    simp
  obtain ⟨j, hwords, hbytes⟩ := words_then_bytes (fun _ => copyWord_spec (m := m) hwrap hclear)
    (fun _ => copyByte_spec hwrap hclear) hn
  rw [hstart] at hwords
  exact Except.bind_eq_ok_iff.mpr ⟨_, hwords, Except.bind_eq_ok_iff.mpr ⟨_, hbytes, rfl⟩⟩

end Copy

/-! ## 4. `bzero` -/

section Zero

variable {m : Memory} {b len : BitVec 64} {i n : Nat}

/-- What has been done when `i` bytes have been cleared. -/
def cleared (m : Memory) (b : BitVec 64) (i : Nat) : Memory × BitVec 64 :=
  (put m b i (fun _ => 0), b + BitVec.ofNat 64 i)

/-- A round of the first loop, or its end. -/
theorem zeroWord_spec (hwrap : b.toNat + len.toNat + 7 < 2 ^ 64) (hi : i ≤ len.toNat) :
    zeroWord (b + len) (cleared m b i) = .ok
      (if i + 8 ≤ len.toNat then .again (cleared m b (i + 8)) else .leave (cleared m b i)) := by
  have hlen := len.isLt
  rw [zeroWord, cleared]
  dsimp only
  rw [if_congr (word_left_iff hwrap hi) rfl rfl]
  split
  · have hstore : storeWord (put m b i (fun _ => 0)) (b + BitVec.ofNat 64 i) (Vector.replicate 8 0)
        = put m b (i + 8) (fun _ => 0) := by
      rw [← put_put (by omega)]
      exact storeWord_eq fun k hk => Vector.getElem_replicate hk
    have hb : b + BitVec.ofNat 64 i + 8 = b + BitVec.ofNat 64 (i + 8) := add_ofNat_add b i 8
    rw [hstore, hb]
    rfl
  · rfl

/-- A round of the second loop, or its end. -/
theorem zeroByte_spec (hwrap : b.toNat + len.toNat + 7 < 2 ^ 64) (hi : i ≤ len.toNat) :
    zeroByte (b + len) (cleared m b i) = .ok
      (if i + 1 ≤ len.toNat then .again (cleared m b (i + 1)) else .leave (cleared m b i)) := by
  have hlen := len.isLt
  rw [zeroByte, cleared]
  dsimp only
  rw [if_congr (byte_left_iff hwrap hi) rfl rfl]
  split
  · have hstore : storeByte (put m b i (fun _ => 0)) (b + BitVec.ofNat 64 i) 0
        = put m b (i + 1) (fun _ => 0) := by
      rw [← put_put (by omega)]
      exact storeByte_eq _ _ fun _ => 0
    have hb : b + BitVec.ofNat 64 i + 1 = b + BitVec.ofNat 64 (i + 1) := add_ofNat_add b i 1
    rw [hstore, hb]
    rfl
  · rfl

/-- **`bzero`** puts zeros. -/
theorem bzero_spec (m : Memory) (hwrap : b.toNat + len.toNat + 7 < 2 ^ 64) (hn : len.toNat < n) :
    bzero n m b len = .ok (put m b len.toNat fun _ => 0) := by
  have hstart : cleared m b 0 = (m, b) := by
    rw [cleared, put_zero]
    simp
  obtain ⟨j, hwords, hbytes⟩ := words_then_bytes (fun _ => zeroWord_spec (m := m) hwrap)
    (fun _ => zeroByte_spec hwrap) hn
  rw [hstart] at hwords
  exact Except.bind_eq_ok_iff.mpr ⟨_, hwords, Except.bind_eq_ok_iff.mpr ⟨_, hbytes, rfl⟩⟩

end Zero

/-! ## 5. Both are exact -/

/-- The bytes of a range are those of `f`, and the others as before. -/
def Exactly (m m' : Memory) (a len : BitVec 64) (f : BitVec 64 → UInt8) : Prop :=
  (∀ i, i < len → m' (a + i) = f i) ∧ ∀ x, (∀ i, i < len → x ≠ a + i) → m' x = m x

theorem exactly_put (m : Memory) (a len : BitVec 64) (f : BitVec 64 → UInt8) :
    Exactly m (put m a len.toNat fun i => f (BitVec.ofNat 64 i)) a len f := by
  have hlen := len.isLt
  refine ⟨fun i hi => ?_, fun x hx => ?_⟩
  · have hput := put_inside (m := m) (a := a) (f := fun i => f (BitVec.ofNat 64 i))
      (BitVec.lt_def.mp hi) (Nat.le_of_lt hlen)
    simpa only [BitVec.ofNat_toNat, BitVec.setWidth_eq] using hput
  · refine put_outside fun i hi => hx _ ?_
    rw [BitVec.lt_def, BitVec.toNat_ofNat]
    omega

/-- **`bcopy` and `bzero` are exact**, where the destination and seven bytes more do not wrap: for ranges
that do not meet, and for a destination below the source unless the source comes round to it. -/
theorem bcopy_bzero_exact (m : Memory) :
    (∀ src dst len : BitVec 64, dst.toNat + len.toNat + 7 < 2 ^ 64 →
      ((∀ i j, i < len → j < len → src + i ≠ dst + j) ∨
        dst ≤ src ∧ src.toNat + len.toNat ≤ 2 ^ 64 + dst.toNat) →
      ∃ m', (∃ k, ∀ n, k ≤ n → bcopy n m src dst len = .ok m') ∧
        Exactly m m' dst len fun i => m (src + i)) ∧
    ∀ b len : BitVec 64, b.toNat + len.toNat + 7 < 2 ^ 64 →
      ∃ m', (∃ k, ∀ n, k ≤ n → bzero n m b len = .ok m') ∧ Exactly m m' b len fun _ => 0 := by
  refine ⟨fun src dst len hwrap hranges => ?_, fun b len hwrap => ?_⟩
  · have hclear : Clear src dst len := by
      rcases hranges with hapart | ⟨hle, hround⟩
      · right
        refine Nat.le_of_not_lt fun hlt => ?_
        have hpos : (0 : BitVec 64) < len := by
          rw [BitVec.lt_def]
          exact Nat.zero_lt_of_lt hlt
        refine hapart (dst - src) 0 (BitVec.lt_def.mpr hlt) hpos ?_
        rw [BitVec.add_comm, BitVec.sub_add_cancel]
        exact (BitVec.add_zero dst).symm
      · rcases eq_or_ne dst src with heq | hne
        · exact .inl heq
        · right
          rw [BitVec.le_def] at hle
          have hne' : dst.toNat ≠ src.toNat := fun h => hne (BitVec.eq_of_toNat_eq h)
          have hsrc := src.isLt
          rw [BitVec.toNat_sub]
          omega
    exact ⟨_, ⟨len.toNat + 1, fun n hn => bcopy_spec m hwrap hclear hn⟩,
      exactly_put m dst len fun i => m (src + i)⟩
  · exact ⟨_, ⟨len.toNat + 1, fun n hn => bzero_spec m hwrap hn⟩, exactly_put m b len fun _ => 0⟩

/-- Each byte is the low byte of its address. -/
def lowBytes : Memory := fun x => UInt8.ofNat x.toNat

/-- Twenty bytes from 103 to 100, and twelve zeros from 200 on. -/
theorem bcopy_bzero_exact_low :
    (∃ m', (∃ k, ∀ n, k ≤ n → bcopy n lowBytes 103 100 20 = .ok m') ∧
      Exactly lowBytes m' 100 20 fun i => lowBytes (103 + i)) ∧
    ∃ m', (∃ k, ∀ n, k ≤ n → bzero n lowBytes 200 12 = .ok m') ∧
      Exactly lowBytes m' 200 12 fun _ => 0 :=
  ⟨(bcopy_bzero_exact lowBytes).1 103 100 20 (by decide) (.inr ⟨by decide, by decide⟩),
    (bcopy_bzero_exact lowBytes).2 200 12 (by decide)⟩

/-- **A source that wraps**: `bcopy((void *)-8, (void *)8, 24)`.  The destination is below the source, but the
source comes round to it, and its last eight bytes are not those it had. -/
theorem bcopy_wraps :
    (8 : BitVec 64).toNat + (24 : BitVec 64).toNat + 7 < 2 ^ 64 ∧ (8 : BitVec 64) ≤ -8 ∧
      ∃ m', (∃ k, ∀ n, k ≤ n → bcopy n lowBytes (-8) 8 24 = .ok m') ∧
        m' (8 + 16) ≠ lowBytes (-8 + 16) := by
  refine ⟨by decide, by decide, ?_⟩
  set m₁ := storeWord lowBytes 8 (loadWord lowBytes (-8))
  set m₂ := storeWord m₁ 16 (loadWord m₁ 0)
  set m₃ := storeWord m₂ 24 (loadWord m₂ 8)
  refine ⟨m₃, ⟨4, fun n hn => ?_⟩, ?_⟩
  · obtain ⟨n, rfl⟩ := Nat.exists_eq_add_of_le' hn
    have h₁ : copyWord 32 (lowBytes, 8, -8) = .ok (.again (m₁, 16, 0)) := rfl
    have h₂ : copyWord 32 (m₁, 16, 0) = .ok (.again (m₂, 24, 8)) := rfl
    have h₃ : copyWord 32 (m₂, 24, 8) = .ok (.again (m₃, 32, 16)) := rfl
    have h₄ : copyWord 32 (m₃, 32, 16) = .ok (.leave (m₃, 32, 16)) := rfl
    have h₅ : copyByte 32 (m₃, 32, 16) = .ok (.leave (m₃, 32, 16)) := rfl
    have hwords : loop CopyFault.endless (copyWord 32) (n + 4) (lowBytes, 8, -8) = .ok (m₃, 32, 16) :=
      (loop_again h₁).trans ((loop_again h₂).trans ((loop_again h₃).trans (loop_leave h₄)))
    exact Except.bind_eq_ok_iff.mpr ⟨_, hwords, Except.bind_eq_ok_iff.mpr ⟨_, loop_leave h₅, rfl⟩⟩
  · decide

end HelpFunct
end RaspiOS
