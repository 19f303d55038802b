/-
# The fields `lp_Print` fills

`PrintChar`, `PrintString` and `PrintNum` leave in the buffer the field that the directive asks for, and
return its length.  `PrintNum` works from right to left: it stores the digits in reverse, pads behind
them, puts the sign behind zeros, and turns the whole round, or for a field to the left only the number.

None of them looks at the size of the buffer: a field that is longer than it is written up to its end, and
then there is the fault.  So each is said to write its field (`Buffer.Writes`), whatever the width.
-/
import RaspiOS.Outcome

set_option autoImplicit false

namespace RaspiOS
namespace Print

open Sentinel Buffer Loop

variable {m : Nat} {buf : Vector UInt8 m}

/-! ## 1. Characters and strings -/

/-- **`PrintChar`.** -/
theorem printChar_spec (buf : Vector UInt8 m) (c : UInt8) (length : Int) (ladjust : Bool) :
    Writes PrintFault.overrun (printChar buf c length ladjust)
      (fun buf' => ((textField length.toNat ladjust [c]).length, buf'))
      (textField length.toNat ladjust [c]) := by
  have hmax : (if length < 1 then 1 else length.toNat) = max length.toNat 1 := by
    split <;> omega
  have hpad : max length.toNat 1 - 1 = length.toNat - 1 := by omega
  rw [length_textField, List.length_singleton]
  unfold printChar textField
  rw [hmax]
  cases ladjust with
  | true =>
    refine ((holds_nil buf).store_next _ c).bind (by simp) fun b₁ h₁ => ?_
    have hfill := h₁.fill_const PrintFault.overrun ' '.toUInt8 (Nat.le_max_right length.toNat 1)
    rw [List.nil_append, List.length_singleton, hpad] at hfill
    exact hfill.bind (Nat.le_refl _) fun b₂ h₂ => h₂.writes _ _
  | false =>
    have hfill := (holds_nil buf).fill_const PrintFault.overrun ' '.toUInt8
      (show 0 ≤ max length.toNat 1 - 1 by omega)
    rw [List.nil_append, List.length_nil, Nat.sub_zero, hpad] at hfill
    rw [← hpad] at hfill
    rw [List.length_singleton, ← hpad]
    refine hfill.bind (List.prefix_append _ [c]).length_le fun b₁ h₁ => ?_
    have hstore := h₁.store_next PrintFault.overrun c
    rw [List.length_replicate] at hstore
    exact hstore.bind (Nat.le_refl _) fun b₂ h₂ => h₂.writes _ _

/-- `while (*s1++) len++;` -/
theorem strlen_spec {n : Nat} (s : CString) (hn : s.chars.length < n) :
    s.scan PrintFault.overread .endless (· ≠ 0) (fun len _ => len + 1) n ((0 : Nat), 0)
      = .ok (s.chars.length, s.chars.length) := by
  have hall : s.chars.takeWhile (· ≠ 0) = s.chars := by
    rw [List.takeWhile_eq_self_iff]
    intro c hc
    exact decide_eq_true fun h0 => s.free (h0 ▸ hc)
  have hscan := (s.at_start.scan PrintFault.overread .endless (p := (· ≠ 0))
    (f := fun (len : Nat) _ => len + 1) (b := 0) rfl hn).1
  rwa [hall, List.foldl_add_const, Nat.one_mul, Nat.zero_add] at hscan

theorem placeString_spec (buf : Vector UInt8 m) (s : CString) (ladjust : Bool) (width : Nat) :
    Writes PrintFault.overrun (placeString buf s s.chars.length (max width s.chars.length) ladjust)
      (fun buf' => buf') (textField width ladjust s.chars) := by
  have hpad : max width s.chars.length - s.chars.length = width - s.chars.length := by omega
  unfold textField placeString
  cases ladjust with
  | true =>
    have hcopy := (holds_nil buf).fill PrintFault.overrun (r := s.chars)
      (f := fun i => s.peek .overread i) (fun k x hk => by
        rw [List.length_nil, Nat.zero_add]
        exact Text.peek_of_getElem? _ hk)
    rw [List.length_nil, Nat.zero_add, List.nil_append] at hcopy
    refine hcopy.bind (by simp) fun b₁ h₁ => ?_
    have hfill := h₁.fill_const PrintFault.overrun ' '.toUInt8 (Nat.le_max_right width _)
    rwa [hpad] at hfill
  | false =>
    have hfill := (holds_nil buf).fill_const PrintFault.overrun ' '.toUInt8
      (Nat.zero_le (max width s.chars.length - s.chars.length))
    rw [List.nil_append, List.length_nil, Nat.sub_zero, hpad] at hfill
    rw [← hpad] at hfill ⊢
    refine hfill.bind (by simp) fun b₁ h₁ => ?_
    have hcopy := h₁.fill PrintFault.overrun (r := s.chars)
      (f := fun i => s.peek .overread (i + s.chars.length - max width s.chars.length))
      (fun k x hk => by
        have hlt := (List.getElem?_eq_some_iff.mp hk).1
        rw [List.length_replicate, show max width s.chars.length - s.chars.length + k + s.chars.length
          - max width s.chars.length = k by omega]
        exact Text.peek_of_getElem? _ hk)
    rwa [List.length_replicate, Nat.sub_add_cancel (Nat.le_max_right width _)] at hcopy

/-- **`PrintString`.** -/
theorem printString_spec (buf : Vector UInt8 m) {n : Nat} (s : CString) (length : Int) (ladjust : Bool)
    (hn : s.chars.length < n) :
    Writes PrintFault.overrun (printString n buf s length ladjust)
      (fun buf' => ((textField length.toNat ladjust s.chars).length, buf'))
      (textField length.toNat ladjust s.chars) := by
  have hmax : (if length < (s.chars.length : Int) then s.chars.length else length.toNat)
      = max length.toNat s.chars.length := by
    split <;> omega
  unfold printString
  rw [strlen_spec s hn, length_textField]
  change Writes _ (placeString buf s s.chars.length
    (if length < (s.chars.length : Int) then s.chars.length else length.toNat) ladjust >>= _) _ _
  rw [hmax]
  exact (placeString_spec buf s ladjust _).bind (Nat.le_refl _) fun b₁ h₁ => h₁.writes _ _

/-! ## 2. Numbers -/

/-- The digits of `u` as they are stored, the last one first. -/
def digitsRev (base : Nat) (upcase : Bool) (u : Nat) : List UInt8 :=
  (if u = 0 then [0] else Nat.digits base u).map (digitChar upcase)

theorem numeral_eq (base : Nat) (upcase : Bool) (u : Nat) :
    numeral base upcase u = (digitsRev base upcase u).reverse := by
  unfold numeral digitsRev
  split
  · rfl
  · rw [List.map_reverse]

theorem digitsRev_last {base u : Nat} (upcase : Bool) (hbase : 2 ≤ base) (h : u / base = 0) :
    digitsRev base upcase u = [digitChar upcase (u % base)] := by
  have hlt : u < base := by
    rcases (Nat.div_eq_zero_iff).mp h with h0 | hlt
    · omega
    · exact hlt
  unfold digitsRev
  rw [Nat.mod_eq_of_lt hlt]
  split
  · rename_i h0
    rw [h0]
    rfl
  · rename_i h0
    rw [Nat.digits_of_lt base u h0 hlt]
    rfl

theorem digitsRev_more {base u : Nat} (upcase : Bool) (hbase : 2 ≤ base) (h : u / base ≠ 0) :
    digitsRev base upcase u = digitChar upcase (u % base) :: digitsRev base upcase (u / base) := by
  have h0 : u ≠ 0 := by
    rintro rfl
    exact h (Nat.zero_div base)
  unfold digitsRev
  rw [if_neg h0, if_neg h, Nat.digits_eq_cons_digits_div hbase h0]
  rfl

theorem length_digitsRev_pos {base u : Nat} (upcase : Bool) (hbase : 2 ≤ base) :
    0 < (digitsRev base upcase u).length := by
  rcases eq_or_ne (u / base) 0 with hu | hu
  · rw [digitsRev_last upcase hbase hu]
    exact Nat.one_pos
  · rw [digitsRev_more upcase hbase hu]
    exact Nat.succ_pos _

/-- **The digit loop** stores the digits behind what is there: it goes on while there is room. -/
theorem printDigits_spec {base : Nat} (upcase : Bool) (hbase : 2 ≤ base) :
    ∀ {n u : Nat} {l : List UInt8} {buf : Vector UInt8 m}, Holds buf l → m < l.length + n →
      Writes PrintFault.overrun (printDigits base upcase n (buf, l.length, u))
        (fun buf' => (buf', (l ++ digitsRev base upcase u).length)) (l ++ digitsRev base upcase u) := by
  intro n
  induction n with
  | zero =>
    intro u l buf h hn
    exact absurd h.length_le (Nat.not_le_of_lt hn)
  | succ n ih =>
    intro u l buf h hn
    have hstore := h.store_next PrintFault.overrun (digitChar upcase (u % base))
    have hlen : (l ++ [digitChar upcase (u % base)]).length = l.length + 1 := by simp
    rcases Nat.lt_or_ge l.length m with hroom | hfull
    · obtain ⟨buf₁, hrun, h₁⟩ := hstore.fits (by omega)
      rcases eq_or_ne (u / base) 0 with hu | hu
      · have hleave : printDigits base upcase (n + 1) (buf, l.length, u) = .ok (buf₁, l.length + 1) := by
          refine loop_leave (Except.bind_eq_ok_iff.mpr ⟨buf₁, hrun, ?_⟩)
          rw [if_neg (not_not.mpr hu)]
          rfl
        rw [digitsRev_last upcase hbase hu, hleave, hlen]
        exact h₁.writes _ fun buf' => (buf', l.length + 1)
      · have hagain : printDigits base upcase (n + 1) (buf, l.length, u)
            = printDigits base upcase n (buf₁, l.length + 1, u / base) := by
          refine loop_again (Except.bind_eq_ok_iff.mpr ⟨buf₁, hrun, ?_⟩)
          rw [if_pos hu]
          rfl
        have hrest := ih (u := u / base) h₁ (by omega)
        rw [List.append_assoc, List.singleton_append, hlen, ← hagain] at hrest
        rwa [digitsRev_more upcase hbase hu]
    · have hfault : printDigits base upcase (n + 1) (buf, l.length, u) = .error .overrun := by
        refine loop_fault ?_
        dsimp only
        rw [hstore.faults (by omega)]
        rfl
      have hne := length_digitsRev_pos upcase hbase (u := u)
      rw [hfault]
      refine ⟨fun hfit => ?_, fun _ => rfl⟩
      rw [List.length_append] at hfit
      omega

theorem storeSign_spec {digits : List UInt8} (h : Holds buf digits) (negFlag : Bool) :
    Writes PrintFault.overrun (storeSign buf digits.length negFlag)
      (fun buf' => (buf', (digits ++ signText negFlag).length)) (digits ++ signText negFlag) := by
  cases negFlag with
  | false =>
    have hsign : digits ++ signText false = digits := List.append_nil digits
    rw [hsign]
    exact h.writes _ fun buf' => (buf', digits.length)
  | true =>
    have hsign : digits ++ signText true = digits ++ ['-'.toUInt8] := rfl
    rw [hsign, List.length_append]
    exact (h.store_next _ '-'.toUInt8).bind (Nat.le_refl _) fun b₁ h₁ =>
      h₁.writes _ fun buf' => (buf', digits.length + 1)

/-- What `PrintNum` has stored before it turns the buffer round. -/
def paddedRev (digits : List UInt8) (length : Nat) (negFlag ladjust : Bool) (padc : UInt8) :
    List UInt8 :=
  let pad := List.replicate (length - (digits ++ signText negFlag).length) padc
  if negFlag ∧ ¬ ladjust ∧ padc = '0'.toUInt8 then digits ++ pad ++ signText negFlag
  else digits ++ signText negFlag ++ pad

theorem length_paddedRev {digits : List UInt8} {negFlag : Bool} {length : Nat} (ladjust : Bool)
    (padc : UInt8) (h : (digits ++ signText negFlag).length ≤ length) :
    (paddedRev digits length negFlag ladjust padc).length = length := by
  rw [List.length_append] at h
  unfold paddedRev
  dsimp only
  split
  all_goals
    simp only [List.length_append, List.length_replicate]
    omega

theorem addPadding_spec {digits : List UInt8} (negFlag ladjust : Bool) (padc : UInt8) {length : Nat}
    (h : Holds buf (digits ++ signText negFlag)) (hlo : (digits ++ signText negFlag).length ≤ length) :
    Writes PrintFault.overrun
      (addPadding buf (digits ++ signText negFlag).length length negFlag ladjust padc)
      (fun buf' => buf') (paddedRev digits length negFlag ladjust padc) := by
  unfold addPadding paddedRev
  split
  · -- zeros go where the sign is, and the sign behind them
    rename_i hzero
    obtain ⟨rfl, -, -⟩ := hzero
    have hsign : (digits ++ signText true).length = digits.length + 1 := by simp [signText]
    rw [hsign] at hlo ⊢
    have hfill := h.of_append.fill_const PrintFault.overrun padc
      (show digits.length ≤ length - 1 by omega)
    have hlen : (digits ++ List.replicate (length - 1 - digits.length) padc).length = length - 1 := by
      rw [List.length_append, List.length_replicate]
      omega
    rw [Nat.add_sub_cancel, show length - (digits.length + 1) = length - 1 - digits.length by omega]
    refine hfill.bind (List.prefix_append _ _).length_le fun b₁ h₁ => ?_
    have hstore := h₁.store_next PrintFault.overrun '-'.toUInt8
    rwa [hlen] at hstore
  · exact h.fill_const PrintFault.overrun padc hlo

/-- Turned round, it is the field: for a field to the left only the number is turned round. -/
theorem numberField_eq (base u width : Nat) (upcase negFlag ladjust : Bool) (padc : UInt8) :
    numberField width ladjust padc negFlag (numeral base upcase u)
      = if ladjust then (digitsRev base upcase u ++ signText negFlag).reverse ++
          List.replicate (width - (digitsRev base upcase u ++ signText negFlag).length) ' '.toUInt8
        else (paddedRev (digitsRev base upcase u)
          (max width (digitsRev base upcase u ++ signText negFlag).length) negFlag ladjust padc).reverse := by
  have hsign : (signText negFlag).reverse = signText negFlag := by
    cases negFlag <;> rfl
  have hlen : (signText negFlag ++ numeral base upcase u).length
      = (digitsRev base upcase u ++ signText negFlag).length := by
    rw [numeral_eq, List.length_append, List.length_append, List.length_reverse, Nat.add_comm]
  have hmax : max width (digitsRev base upcase u ++ signText negFlag).length
      - (digitsRev base upcase u ++ signText negFlag).length
      = width - (digitsRev base upcase u ++ signText negFlag).length := by omega
  unfold numberField paddedRev
  dsimp only
  rw [hlen, hmax, numeral_eq]
  cases ladjust with
  | true => rw [if_pos rfl, if_pos rfl, List.reverse_append, hsign]
  | false =>
    rw [if_neg Bool.false_ne_true, if_neg Bool.false_ne_true]
    rcases eq_or_ne padc '0'.toUInt8 with hp | hp
    · rw [if_pos hp]
      cases negFlag with
      | true =>
        rw [if_pos ⟨rfl, by decide, hp⟩, List.reverse_append, List.reverse_append, hsign,
          List.reverse_replicate, List.append_assoc]
      | false =>
        rw [if_neg (fun hc => absurd hc.1 (by decide)), List.reverse_append, List.reverse_append, hsign,
          List.reverse_replicate]
        rfl
    · rw [if_neg hp, if_neg (fun hc => hp hc.2.2), List.reverse_append, List.reverse_append, hsign,
        List.reverse_replicate, List.append_assoc]

/-- The last step: the whole field is turned round, or the number alone. -/
theorem turn_spec {digits : List UInt8} {negFlag ladjust : Bool} {padc : UInt8} {n width : Nat}
    (h : Holds buf (paddedRev digits (max width (digits ++ signText negFlag).length) negFlag ladjust
      (if ladjust then ' '.toUInt8 else padc)))
    (hn : max width (digits ++ signText negFlag).length < n) :
    ∃ buf', reverse PrintFault.overrun PrintFault.endless n (buf, 0, (if ladjust then
          (digits ++ signText negFlag).length else max width (digits ++ signText negFlag).length) - 1)
        = .ok buf' ∧
      Holds buf' (if ladjust then (digits ++ signText negFlag).reverse ++
          List.replicate (width - (digits ++ signText negFlag).length) ' '.toUInt8
        else (paddedRev digits (max width (digits ++ signText negFlag).length) negFlag ladjust
          padc).reverse) := by
  cases ladjust with
  | true =>
    have hpad : max width (digits ++ signText negFlag).length - (digits ++ signText negFlag).length
        = width - (digits ++ signText negFlag).length := by omega
    rw [paddedRev, if_neg (fun hc => hc.2.1 rfl), hpad] at h
    obtain ⟨buf', hturn, h'⟩ := Holds.reverse PrintFault.overrun PrintFault.endless
      (m := digits ++ signText negFlag) (l := []) (k := n) h
      (by omega)
    rw [List.length_nil, Nat.zero_add] at hturn
    exact ⟨buf', hturn, h'⟩
  | false =>
    have hfull := length_paddedRev false padc
      (Nat.le_max_right width (digits ++ signText negFlag).length)
    obtain ⟨buf', hturn, h'⟩ := Holds.reverse PrintFault.overrun PrintFault.endless
      (l := []) (r := []) (k := n)
      (by rwa [List.append_nil, List.nil_append]) (hfull.trans_lt hn)
    rw [List.length_nil, Nat.zero_add, hfull] at hturn
    exact ⟨buf', hturn, by rwa [List.append_nil, List.nil_append] at h'⟩

/-- **`PrintNum`.** -/
theorem printNum_spec (buf : Vector UInt8 m) {n base : Nat} (u : Nat) (negFlag : Bool) (length : Int)
    (ladjust : Bool) (padc : UInt8) (upcase : Bool) (hbase : 2 ≤ base) (hn : m < n) :
    Writes PrintFault.overrun (printNum n buf u base negFlag length ladjust padc upcase)
      (fun buf' =>
        ((numberField length.toNat ladjust padc negFlag (numeral base upcase u)).length, buf'))
      (numberField length.toNat ladjust padc negFlag (numeral base upcase u)) := by
  have hfield := numberField_eq base u length.toNat upcase negFlag ladjust padc
  have hlength := length_numberField length.toNat ladjust padc negFlag (numeral base upcase u)
  rw [numeral_eq, List.length_reverse, ← List.length_append, ← numeral_eq] at hlength
  have hmax : (if length < ((digitsRev base upcase u ++ signText negFlag).length : Int)
      then (digitsRev base upcase u ++ signText negFlag).length else length.toNat)
      = max length.toNat (digitsRev base upcase u ++ signText negFlag).length := by
    split <;> omega
  have hsigned := (List.prefix_append (digitsRev base upcase u) (signText negFlag)).length_le
  unfold printNum
  refine (printDigits_spec upcase hbase (holds_nil buf) (by rwa [List.length_nil, Nat.zero_add])).bind
    ?_ fun b₁ h₁ => ?_
  · rw [List.nil_append, hlength]
    omega
  rw [List.nil_append] at h₁ ⊢
  refine (storeSign_spec h₁ negFlag).bind ?_ fun b₂ h₂ => ?_
  · rw [hlength]
    omega
  dsimp only
  rw [hmax]
  have hpadded := length_paddedRev ladjust (if ladjust then ' '.toUInt8 else padc)
    (Nat.le_max_right length.toNat (digitsRev base upcase u ++ signText negFlag).length)
  refine (addPadding_spec negFlag ladjust (if ladjust then ' '.toUInt8 else padc) h₂
    (Nat.le_max_right length.toNat _)).bind ?_ fun b₃ h₃ => ?_
  · rw [hlength, hpadded]
  have hfit := h₃.length_le
  rw [hpadded] at hfit
  obtain ⟨b₄, hturn, h₄⟩ := turn_spec h₃ (hfit.trans_lt hn)
  rw [hturn, hlength]
  rw [← hfield] at h₄
  exact h₄.writes _ _

/-- **`PrintNum` leaves a correct padded numeral** of any 64-bit number.  In a buffer with room for it, the
field is as long as the width and the numeral with its sign ask for; the numeral stands in it with its sign
where it should, it has no digit too many, and read back it is the number. -/
theorem printNum_padded (buf : Vector UInt8 m) (u : BitVec 64) {base : Nat} (hbase : base ∈ [2, 8, 10, 16])
    (negFlag : Bool) (length : Int) (ladjust : Bool) (padc : UInt8) (upcase : Bool)
    (hroom : max length.toNat ((numeral base upcase u.toNat).length + (signText negFlag).length) ≤ m) :
    IsNumeral base upcase u.toNat (numeral base upcase u.toNat) ∧
      ∃ k, ∀ n, k ≤ n → ∃ buf',
        printNum n buf u.toNat base negFlag length ladjust padc upcase
          = .ok (max length.toNat ((numeral base upcase u.toNat).length + (signText negFlag).length),
              buf') ∧
        buf'.toList.take
            (max length.toNat ((numeral base upcase u.toNat).length + (signText negFlag).length))
          = numberField length.toNat ladjust padc negFlag (numeral base upcase u.toNat) := by
  have hrange : 2 ≤ base ∧ base ≤ 36 := by
    simp only [List.mem_cons, List.not_mem_nil, or_false] at hbase
    rcases hbase with rfl | rfl | rfl | rfl <;> decide
  refine ⟨isNumeral_numeral upcase u.toNat hrange.1 hrange.2, m + 1, fun n hn => ?_⟩
  have hfield := printNum_spec buf u.toNat negFlag length ladjust padc upcase hrange.1
    (Nat.lt_of_succ_le hn)
  rw [← length_numberField length.toNat ladjust padc] at hroom ⊢
  obtain ⟨buf', hrun, h'⟩ := hfield.fits hroom
  exact ⟨buf', hrun, h'.take⟩

/-- `PrintNum(buf, 42, 10, 1, 5, 0, '0', 0)` -/
theorem printNum_padded_zeros :
    ∃ k, ∀ n, k ≤ n → ∃ buf',
      printNum n (Vector.replicate 8 0) 42 10 true 5 false '0'.toUInt8 false = .ok (5, buf') ∧
        buf'.toList.take 5 = ['-', '0', '0', '4', '2'].map Char.toUInt8 :=
  (printNum_padded (Vector.replicate 8 0) 42 (by decide) true 5 false '0'.toUInt8 false (by decide)).2

end Print
end RaspiOS
