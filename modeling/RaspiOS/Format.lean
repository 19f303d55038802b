/-
# What a format means

The shape of a directive is `% [l] [-] [0] digits* [. digits*] conv`, each part as long as it can be.  A
format is taken apart into runs of literal characters and directives (`pieces`), and each piece has a
rendering: a run stands for itself, a directive for the next argument in the field it asks for.  Nothing
here knows about pointers, buffers or rounds.
-/
import Mathlib.Data.List.TakeWhile
import Mathlib.Data.Nat.Digits.Lemmas
import RaspiOS.Print

set_option autoImplicit false

namespace RaspiOS
namespace Print

/-! ## 1. The shape of a format -/

/-- The optional parts of a directive. -/
structure Prefixes where
  long : Bool
  left : Bool
  zero : Bool
  width : List UInt8
  prec : Option (List UInt8)

/-- `[. digits*]`, written. -/
def precText : Option (List UInt8) → List UInt8
  | none => []
  | some ds => '.'.toUInt8 :: ds

/-- `[c]`, written. -/
def flagText (c : UInt8) : Bool → List UInt8
  | false => []
  | true => [c]

/-- How they are written. -/
def Prefixes.text (d : Prefixes) : List UInt8 :=
  flagText 'l'.toUInt8 d.long ++ flagText '-'.toUInt8 d.left ++ flagText '0'.toUInt8 d.zero ++
    d.width ++ precText d.prec

/-- An optional character. -/
def optional (c : UInt8) : List UInt8 → Bool × List UInt8
  | [] => (false, [])
  | x :: l => if x = c then (true, l) else (false, x :: l)

/-- `[. digits*]` -/
def readPrec (l : List UInt8) : Option (List UInt8) × List UInt8 :=
  let dot := optional '.'.toUInt8 l
  if dot.1 then (some (dot.2.takeWhile isDigit), dot.2.dropWhile isDigit) else (none, dot.2)

/-- `[l] [-] [0] digits* [. digits*]`, and what follows -/
def Prefixes.read (l : List UInt8) : Prefixes × List UInt8 :=
  let long := optional 'l'.toUInt8 l
  let left := optional '-'.toUInt8 long.2
  let zero := optional '0'.toUInt8 left.2
  let prec := readPrec (zero.2.dropWhile isDigit)
  (⟨long.1, left.1, zero.1, zero.2.takeWhile isDigit, prec.1⟩, prec.2)

/-- A run of literal characters, a directive, or what is left of one where the format ends in it. -/
inductive Piece
  | lit (run : List UInt8)
  | directive (d : Prefixes) (conv : UInt8)
  | cut (d : Prefixes)

/-- How a piece is written. -/
def Piece.text : Piece → List UInt8
  | .lit run => run
  | .directive d conv => '%'.toUInt8 :: (d.text ++ [conv])
  | .cut d => '%'.toUInt8 :: d.text

/-- A character that starts no directive. -/
def isLiteral (c : UInt8) : Bool := c ≠ '%'.toUInt8

theorem optional_length (c : UInt8) (l : List UInt8) : (optional c l).2.length ≤ l.length := by
  cases l with
  | nil => exact Nat.le_refl _
  | cons x l =>
    rw [optional]
    split
    · exact Nat.le_succ _
    · exact Nat.le_refl _

theorem readPrec_length (l : List UInt8) : (readPrec l).2.length ≤ l.length := by
  have h := optional_length '.'.toUInt8 l
  unfold readPrec
  dsimp only
  split
  · exact (List.dropWhile_suffix _).length_le.trans h
  · exact h

theorem Prefixes.read_length (l : List UInt8) : (Prefixes.read l).2.length ≤ l.length := by
  have h1 := optional_length 'l'.toUInt8 l
  have h2 := optional_length '-'.toUInt8 (optional 'l'.toUInt8 l).2
  have h3 := optional_length '0'.toUInt8 (optional '-'.toUInt8 (optional 'l'.toUInt8 l).2).2
  exact (readPrec_length _).trans ((List.dropWhile_suffix _).length_le.trans (h3.trans (h2.trans h1)))

/-- **A format, taken apart.** -/
def pieces (l : List UInt8) : List Piece :=
  match _hl : l.dropWhile isLiteral with
  | [] => [.lit (l.takeWhile isLiteral)]
  | _ :: body =>
    match _hb : Prefixes.read body with
    | (d, []) => [.lit (l.takeWhile isLiteral), .cut d]
    | (d, conv :: rest) => .lit (l.takeWhile isLiteral) :: .directive d conv :: pieces rest
termination_by l.length
decreasing_by
  have h1 := (List.dropWhile_suffix (l := l) isLiteral).length_le
  have h2 := Prefixes.read_length body
  rw [_hl, List.length_cons] at h1
  rw [_hb, List.length_cons] at h2
  omega

section Pieces

variable {l body rest : List UInt8} {c conv : UInt8} {d : Prefixes}

theorem pieces_lit (h : l.dropWhile isLiteral = []) : pieces l = [.lit (l.takeWhile isLiteral)] := by
  rw [pieces]
  split
  · rfl
  · rename_i hc
    rw [h] at hc
    cases hc

theorem pieces_cut (h : l.dropWhile isLiteral = c :: body) (hd : Prefixes.read body = (d, [])) :
    pieces l = [.lit (l.takeWhile isLiteral), .cut d] := by
  rw [pieces]
  split
  · rename_i hc
    rw [h] at hc
    cases hc
  · rename_i hc
    rw [h] at hc
    cases hc
    split
    · rename_i hb
      rw [hd] at hb
      cases hb
      rfl
    · rename_i hb
      rw [hd] at hb
      cases hb

theorem pieces_directive (h : l.dropWhile isLiteral = c :: body)
    (hd : Prefixes.read body = (d, conv :: rest)) :
    pieces l = .lit (l.takeWhile isLiteral) :: .directive d conv :: pieces rest := by
  rw [pieces]
  split
  · rename_i hc
    rw [h] at hc
    cases hc
  · rename_i hc
    rw [h] at hc
    cases hc
    split
    · rename_i hb
      rw [hd] at hb
      cases hb
    · rename_i hb
      rw [hd] at hb
      cases hb
      rfl

/-- A format begins with a run, which may be empty. -/
theorem pieces_head (l : List UInt8) : ∃ ps, pieces l = .lit (l.takeWhile isLiteral) :: ps := by
  cases hl : l.dropWhile isLiteral with
  | nil => exact ⟨[], pieces_lit hl⟩
  | cons c body =>
    cases hd : Prefixes.read body with
    | mk d rest =>
      cases rest with
      | nil => exact ⟨_, pieces_cut hl hd⟩
      | cons conv rest => exact ⟨_, pieces_directive hl hd⟩

end Pieces

/-- A run has no `%` in it, and what stands for digits are digits. -/
def Piece.Shaped : Piece → Prop
  | .lit run => ∀ c ∈ run, isLiteral c
  | .directive d _ | .cut d =>
    (∀ c ∈ d.width, isDigit c) ∧ ∀ ds, d.prec = some ds → ∀ c ∈ ds, isDigit c

theorem Prefixes.read_digits (l : List UInt8) :
    (∀ c ∈ (Prefixes.read l).1.width, isDigit c) ∧
      ∀ ds, (Prefixes.read l).1.prec = some ds → ∀ c ∈ ds, isDigit c := by
  refine ⟨fun c hc => List.mem_takeWhile_imp hc, fun ds hds c hc => ?_⟩
  rw [Prefixes.read, readPrec] at hds
  dsimp only at hds
  split at hds
  · cases hds
    exact List.mem_takeWhile_imp hc
  · cases hds

/-- **Every piece has its shape.** -/
theorem pieces_shaped (l : List UInt8) : ∀ pc ∈ pieces l, pc.Shaped := by
  have hrun : ∀ l : List UInt8, Piece.Shaped (.lit (l.takeWhile isLiteral)) :=
    fun l c hc => List.mem_takeWhile_imp hc
  induction l using pieces.induct with
  | case1 l hl =>
    rw [pieces_lit hl]
    simpa using hrun l
  | case2 l c body hl d hd =>
    have hdigits := Prefixes.read_digits body
    rw [hd] at hdigits
    rw [pieces_cut hl hd]
    simpa using ⟨hrun l, hdigits⟩
  | case3 l c body hl d conv rest hd ih =>
    have hdigits := Prefixes.read_digits body
    rw [hd] at hdigits
    rw [pieces_directive hl hd]
    simpa using ⟨hrun l, hdigits, ih⟩

/-! ## 2. Renderings -/

/-- The number that digits denote. -/
def decimal (ds : List UInt8) : Nat := ds.foldl (fun v c => 10 * v + (c.toNat - '0'.toNat)) 0

/-- A text in a field: spaces behind it or before it. -/
def textField (width : Nat) (left : Bool) (text : List UInt8) : List UInt8 :=
  let spaces := List.replicate (width - text.length) ' '.toUInt8
  if left then text ++ spaces else spaces ++ text

/-- The digits of `u`, the first one first. -/
def numeral (base : Nat) (upcase : Bool) (u : Nat) : List UInt8 :=
  (if u = 0 then [0] else (Nat.digits base u).reverse).map (digitChar upcase)

/-- The sign of a number. -/
def signText (negative : Bool) : List UInt8 := if negative then ['-'.toUInt8] else []

/-- A number in a field: the sign, zeros behind the sign or spaces around both. -/
def numberField (width : Nat) (left : Bool) (padc : UInt8) (negative : Bool) (digits : List UInt8) :
    List UInt8 :=
  let pad := List.replicate (width - (signText negative ++ digits).length)
  if left then signText negative ++ digits ++ pad ' '.toUInt8
  else if padc = '0'.toUInt8 then signText negative ++ pad padc ++ digits
  else pad padc ++ signText negative ++ digits

namespace Prefixes

/-- The character that fills a field of a number. -/
def fillChar (d : Prefixes) : UInt8 := if d.zero then '0'.toUInt8 else ' '.toUInt8

/-- A number as a directive asks for it. -/
def number (d : Prefixes) (base : Nat) (signed upcase : Bool) (num : BitVec 64) : List UInt8 :=
  if signed ∧ num.toInt < 0 then
    numberField (decimal d.width) d.left d.fillChar true (numeral base upcase num.toInt.natAbs)
  else numberField (decimal d.width) d.left d.fillChar false (numeral base upcase num.toNat)

/-- The rendering of a directive, and the arguments it leaves: `none` where they do not match. -/
def render (d : Prefixes) (conv : UInt8) (ap : VaList) : Option (List UInt8 × VaList) :=
  match convOf conv, ap with
  | .num base signed upcase, .word w :: ap =>
    some (d.number base signed upcase (fetch d.long w), ap)
  | .char, .word w :: ap =>
    some (textField (decimal d.width) d.left [UInt8.ofNat w.toNat], ap)
  | .str, .str s :: ap => some (textField (decimal d.width) d.left s.chars, ap)
  | .other, ap => some ([conv], ap)
  | _, _ => none

end Prefixes

/-- **What a format renders to**: its runs and the renderings of its directives, in order.  Where it ends
inside a directive there is nothing to render. -/
def render : List Piece → VaList → Option (List (List UInt8))
  | [], _ => some []
  | .lit run :: ps, ap => (render ps ap).map (run :: ·)
  | .cut _ :: ps, ap => (render ps ap).map ([] :: ·)
  | .directive d conv :: ps, ap =>
    (d.render conv ap).bind fun r => (render ps r.2).map (r.1 :: ·)

/-- Runs and widths are at most `LP_MAX_BUF`. -/
def Piece.Fits : Piece → Prop
  | .lit run => run.length ≤ lpMaxBuf
  | .directive d _ => decimal d.width ≤ lpMaxBuf
  | .cut _ => True

end Print
end RaspiOS
