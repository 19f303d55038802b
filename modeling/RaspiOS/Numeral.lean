/-
# Numerals

The digits of a number, written and read.  A numeral is read back in its base, whatever the case of its
letters, and leading zeros do not change what is read: that is what a padded field of zeros needs.  The
width of a directive is a decimal numeral too, but it is read into an `int`, digit by digit.
-/
import RaspiOS.Format

set_option autoImplicit false

namespace RaspiOS
namespace Print

variable {base u : Nat} {upcase : Bool} {ds : List UInt8}

/-! ## 1. Reading back -/

/-- The digit a character stands for, up to `z`. -/
def digitValue (c : UInt8) : Nat :=
  if isDigit c then c.toNat - '0'.toNat
  else if 'a'.toUInt8 ≤ c then c.toNat - 'a'.toNat + 10
  else c.toNat - 'A'.toNat + 10

/-- The number that digits denote in a base. -/
def readBack (base : Nat) (ds : List UInt8) : Nat :=
  ds.foldl (fun v c => base * v + digitValue c) 0

theorem digitValue_digitChar (upcase : Bool) {d : Nat} (hd : d < 36) :
    digitValue (digitChar upcase d) = d := by
  have hall : ∀ (b : Bool) (d : Fin 36), digitValue (digitChar b d.val) = d.val := by decide
  exact hall upcase ⟨d, hd⟩

theorem readBack_digits (base : Nat) (upcase : Bool) {ds : List Nat} (hds : ∀ d ∈ ds, d < 36) :
    readBack base (ds.reverse.map (digitChar upcase)) = Nat.ofDigits base ds := by
  induction ds with
  | nil => rfl
  | cons d ds ih =>
    have htail := ih (fun d hd => hds d (List.mem_cons_of_mem _ hd))
    rw [readBack] at htail
    rw [readBack, List.reverse_cons, List.map_append, List.foldl_append, htail, Nat.ofDigits_cons]
    simp only [List.map_cons, List.map_nil, List.foldl_cons, List.foldl_nil]
    rw [digitValue_digitChar upcase (hds d List.mem_cons_self)]
    exact Nat.add_comm _ _

/-- The numeral of a number: digits of the base, none too many, that are read back as the number. -/
structure IsNumeral (base : Nat) (upcase : Bool) (u : Nat) (ds : List UInt8) : Prop where
  nonempty : ds ≠ []
  digits : ∀ c ∈ ds, ∃ d < base, c = digitChar upcase d
  canonical : u ≠ 0 → ds.head? ≠ some '0'.toUInt8
  zero : u = 0 → ds = ['0'.toUInt8]
  value : readBack base ds = u

/-- **The numeral.** -/
theorem isNumeral_numeral (upcase : Bool) (u : Nat) (hlo : 2 ≤ base) (hhi : base ≤ 36) :
    IsNumeral base upcase u (numeral base upcase u) := by
  rcases eq_or_ne u 0 with rfl | hu
  · have hnum : numeral base upcase 0 = ['0'.toUInt8] := rfl
    rw [hnum]
    exact
      { nonempty := List.cons_ne_nil _ _
        digits := fun c hc => ⟨0, by omega, List.mem_singleton.mp hc⟩
        canonical := fun h => absurd rfl h
        zero := fun _ => rfl
        value := by
          rw [readBack, List.foldl_cons, Nat.mul_zero]
          rfl }
  · have hnum : numeral base upcase u = (Nat.digits base u).reverse.map (digitChar upcase) := by
      rw [numeral, if_neg hu]
    have hlt : ∀ d ∈ Nat.digits base u, d < base := fun d hd => Nat.digits_lt_base hlo hd
    have hne : Nat.digits base u ≠ [] := Nat.digits_ne_nil_iff_ne_zero.mpr hu
    rw [hnum]
    exact
      { nonempty := by
          rw [Ne, List.map_eq_nil_iff, List.reverse_eq_nil_iff]
          exact hne
        digits := by
          intro c hc
          obtain ⟨d, hd, rfl⟩ := List.mem_map.mp hc
          exact ⟨d, hlt d (List.mem_reverse.mp hd), rfl⟩
        canonical := by
          intro _ hhead
          rw [List.head?_map, List.head?_reverse, List.getLast?_eq_some_getLast hne,
            Option.map_some, Option.some.injEq] at hhead
          have hlast := hlt _ (List.getLast_mem hne)
          have hzero := congrArg digitValue hhead
          rw [digitValue_digitChar upcase (by omega)] at hzero
          exact Nat.getLast_digit_ne_zero base hu hzero
        zero := fun h => absurd h hu
        value := by
          rw [readBack_digits base upcase (fun d hd => (hlt d hd).trans_le hhi), Nat.ofDigits_digits] }

/-! ## 2. Widths -/

/-- The value of a width as an `int`. -/
def intValue (ds : List UInt8) : Int := ds.foldl (fun v c => toInt32 (10 * v + ctod c)) 0

/-- The number that digits denote after `v`, as the scanner adds them up. -/
theorem foldl_ctod {ds : List UInt8} (hds : ∀ c ∈ ds, isDigit c) (v : Nat) :
    ds.foldl (fun (v : Int) c => 10 * v + ctod c) v
      = (ds.foldl (fun v c => 10 * v + (c.toNat - '0'.toNat)) v : Nat) := by
  induction ds generalizing v with
  | nil => rfl
  | cons c ds ih =>
    have hc : '0'.toNat ≤ c.toNat := by
      have hdig := hds c List.mem_cons_self
      rw [isDigit, Bool.and_eq_true, decide_eq_true_iff] at hdig
      exact UInt8.le_iff_toNat_le.mp hdig.1
    have hstep : 10 * (v : Int) + ctod c = (10 * v + (c.toNat - '0'.toNat) : Nat) := by
      rw [ctod]
      omega
    rw [List.foldl_cons, List.foldl_cons, hstep]
    exact ih (fun c hc => hds c (List.mem_cons_of_mem _ hc)) _

/-- **A width wraps as a whole**, though it is wrapped at each digit. -/
theorem intValue_wraps {ds : List UInt8} (hds : ∀ c ∈ ds, isDigit c) :
    intValue ds = toInt32 (decimal ds) := by
  have hgen : ∀ (ds : List UInt8) (v : Int),
      ds.foldl (fun v c => toInt32 (10 * v + ctod c)) (toInt32 v)
        = toInt32 (ds.foldl (fun v c => 10 * v + ctod c) v) := by
    intro ds
    induction ds with
    | nil => exact fun v => rfl
    | cons c ds ih =>
      intro v
      have hstep : toInt32 (10 * toInt32 v + ctod c) = toInt32 (10 * v + ctod c) := by
        rw [toInt32, toInt32, toInt32, ← Int.bmod_add_bmod, Int.mul_bmod_bmod, Int.bmod_add_bmod]
      rw [List.foldl_cons, List.foldl_cons, hstep]
      exact ih _
  rw [decimal, ← foldl_ctod hds 0]
  exact hgen ds 0

end Print
end RaspiOS
