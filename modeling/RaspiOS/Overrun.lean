/-
# Which formats overrun the buffer

`OUTPUT` asks whether a field is longer than `LP_MAX_BUF`, but the field is in the buffer by then.  What
keeps `PrintChar`, `PrintString` and `PrintNum` inside `buf` is what they are called with: `Inside` says of
a format and its arguments that no directive `lp_Print` gets to has a field that is too long, and
`lp_Print` overruns its buffer on exactly the others.
-/
import RaspiOS.LpPrint

set_option autoImplicit false

namespace RaspiOS
namespace Print

/-- Every field that is reached has room: its width, which is an `int`, is at most `LP_MAX_BUF`, and so is
the length of a string.  A run that is too long is where `lp_Print` stops, and what follows an argument
of another type than the directive asks for has no meaning. -/
def Inside : List Piece → VaList → Prop
  | [], _ => True
  | .lit run :: ps, ap => run.length ≤ lpMaxBuf → Inside ps ap
  | .cut _ :: ps, ap => Inside ps ap
  | .directive d conv :: ps, ap =>
    match convOf conv, ap with
    | .num _ _ _, .word _ :: ap => toInt32 (decimal d.width) ≤ lpMaxBuf ∧ Inside ps ap
    | .char, .word _ :: ap => toInt32 (decimal d.width) ≤ lpMaxBuf ∧ Inside ps ap
    | .str, .str s :: ap =>
      toInt32 (decimal d.width) ≤ lpMaxBuf ∧ s.chars.length ≤ lpMaxBuf ∧ Inside ps ap
    | .other, ap => Inside ps ap
    | _, _ => True

/-- A number, a character or a string has room where its width and its text do. -/
theorem field_inside {d : Prefixes} {conv : UInt8} {ap ap' : VaList} {out : List UInt8}
    (hd : ∀ c ∈ d.width, isDigit c) (hout : d.wrap.render conv ap = some (out, ap'))
    (ps : List Piece) :
    Inside (.directive d conv :: ps) ap ↔ out.length ≤ lpMaxBuf ∧ Inside ps ap' := by
  have hwidth := width_le_iff hd
  have hone : 1 ≤ lpMaxBuf := by decide
  rcases render_some hout with ⟨base, signed, upcase, w, hc, rfl, rfl⟩ | ⟨w, hc, rfl, rfl⟩ |
    ⟨s, hc, rfl, rfl⟩ | ⟨hc, rfl, rfl⟩
  · rw [length_number_le_iff _ (convOf_num hc).1, ← hwidth]
    simp only [Inside, hc]
  · rw [length_textField, Nat.max_le, List.length_singleton, ← hwidth]
    simp only [Inside, hc, hone, and_true]
  · rw [length_textField, Nat.max_le, ← hwidth, and_assoc]
    simp only [Inside, hc]
  · simp only [Inside, hc, List.length_singleton, hone, true_and]

theorem inside_of_none {d : Prefixes} {conv : UInt8} {ap : VaList}
    (hout : d.wrap.render conv ap = none) (ps : List Piece) : Inside (.directive d conv :: ps) ap := by
  unfold Inside
  split
  case h_5 => trivial
  all_goals
    rename_i hc
    simp only [Prefixes.render, hc, reduceCtorEq] at hout

/-- **The outcome is an overrun** on exactly the formats that do not stay inside. -/
theorem outcome_overrun_iff : ∀ {ps : List Piece} {ap : VaList} (calls : Calls),
    (∀ pc ∈ ps, pc.Shaped) → (outcome calls ps ap ≠ .error .overrun ↔ Inside ps ap) := by
  intro ps
  induction ps with
  | nil =>
    intro ap calls _
    simp only [outcome, Inside, ne_eq, reduceCtorEq, not_false_eq_true]
  | cons pc ps ih =>
    intro ap calls hshaped
    have hshaped' : ∀ pc ∈ ps, pc.Shaped := fun pc hpc => hshaped pc (List.mem_cons_of_mem _ hpc)
    cases pc with
    | lit run =>
      rw [outcome, Inside]
      split
      · rename_i hrun
        rw [ih _ hshaped']
        exact ⟨fun h _ => h, fun h => h hrun⟩
      · rename_i hrun
        exact ⟨fun _ h => absurd h hrun, fun _ => by simp⟩
    | cut d =>
      rw [outcome, Inside]
      exact ih _ hshaped'
    | directive d conv =>
      have hd := (hshaped _ List.mem_cons_self).1
      cases hout : d.wrap.render conv ap with
      | none =>
        have hinside : Inside (.directive d conv :: ps) ap := inside_of_none hout ps
        simp only [outcome, hout, ne_eq, Except.error.injEq, reduceCtorEq, not_false_eq_true, hinside]
      | some r =>
        obtain ⟨out, ap'⟩ := r
        rw [field_inside hd hout]
        simp only [outcome, hout]
        split
        · rename_i hle
          rw [ih _ hshaped']
          exact ⟨fun h => ⟨hle, h⟩, fun h => h.2⟩
        · rename_i hlt
          exact ⟨fun h => absurd rfl h, fun h => absurd h.1 hlt⟩

/-- **When `printf` stays inside its buffer.**  On every format and every argument list `lp_Print` comes to
an end, and it has stored nothing behind the end of `buf` exactly if the format stays inside. -/
theorem lpPrint_inside_iff (fmt : CString) (ap : VaList) (buf : Vector UInt8 lpMaxBuf) :
    ∃ r, Prints fmt ap buf r ∧ (r ≠ .error .overrun ↔ Inside (pieces fmt.chars) ap) := by
  refine ⟨_, lpPrint_outcome fmt ap buf, ?_⟩
  rw [← outcome_overrun_iff [] (pieces_shaped _)]
  cases outcome [] (pieces fmt.chars) ap with
  | error e => exact Iff.rfl
  | ok calls => simp [Except.map]

/-- `"%1001d"` -/
def wideFormat : CString := ⟨chars ['%', '1', '0', '0', '1', 'd'], by decide⟩

/-- `printf("%1001d", 0)` stores behind the end of its buffer. -/
theorem lpPrint_overruns :
    Prints wideFormat [.word 0] (Vector.replicate lpMaxBuf 0) (.error .overrun) := by
  have hdrop : wideFormat.chars.dropWhile isLiteral
      = '%'.toUInt8 :: chars ['1', '0', '0', '1', 'd'] := rfl
  have hread : Prefixes.read (chars ['1', '0', '0', '1', 'd'])
      = (⟨false, false, false, chars ['1', '0', '0', '1'], none⟩, ['d'.toUInt8]) := rfl
  have hpieces : pieces wideFormat.chars = [.lit [],
      .directive ⟨false, false, false, chars ['1', '0', '0', '1'], none⟩ 'd'.toUInt8, .lit []] := by
    rw [pieces_directive hdrop hread, pieces_lit rfl]
    rfl
  have hwide : ¬ Inside (pieces wideFormat.chars) [.word 0] := by
    have hd : convOf 'd'.toUInt8 = .num 10 true false := by decide
    rw [hpieces]
    simp only [Inside, hd]
    exact fun h => absurd (h (Nat.zero_le _)).1 (by decide)
  have hrun := lpPrint_outcome wideFormat [.word 0] (Vector.replicate lpMaxBuf 0)
  rw [← outcome_overrun_iff [] (pieces_shaped _), not_not] at hwide
  rwa [hwide] at hrun

end Print
end RaspiOS
