/-
# Unsigned conversions

`%b`, `%o`, `%u`, `%x` and `%X` take their argument as an `int`, or with `l` as a `long`, keep it in a
`long` and hand it on as an `unsigned long`.  With `l` nothing is lost.  Without it the sign of the `int` is
extended over the upper half on the way: the digits denote the argument where its bit 31 is clear, and
where it is set they denote a number that is `2^64 - 2^32` too large.
-/
import RaspiOS.LpPrint

set_option autoImplicit false

namespace RaspiOS
namespace Print

open Sentinel

/-! ## 1. What a field denotes -/

variable {base u v : Nat} {upcase : Bool} {field digits : List UInt8}

/-- How many arguments a piece takes. -/
def Piece.takes : Piece → Nat
  | .directive _ conv =>
    match convOf conv with
    | .num _ _ _ | .char | .str => 1
    | .stop | .other => 0
  | .lit _ | .cut _ => 0

/-- The argument of the piece at `i`: the pieces before it have taken theirs. -/
def argument (ps : List Piece) (ap : VaList) (i : Nat) : Option Arg :=
  ap[((ps.take i).map Piece.takes).sum]?

theorem render_takes {d : Prefixes} {conv : UInt8} {ap ap' : VaList}
    (h : d.render conv ap = some (field, ap')) :
    ap' = ap.drop (Piece.takes (.directive d conv)) := by
  rcases render_some h with ⟨_, _, _, _, hc, rfl, -⟩ | ⟨_, hc, rfl, -⟩ | ⟨_, hc, rfl, -⟩ | ⟨hc, rfl, -⟩
  all_goals
    rw [Piece.takes, hc]
    rfl

/-- What has been passed stays passed. -/
theorem outcome_prefix : ∀ {ps : List Piece} {ap : VaList} {calls r : Calls},
    outcome calls ps ap = .ok r → calls <+: r := by
  intro ps
  induction ps with
  | nil =>
    rintro ap calls r ⟨⟩
    exact List.prefix_refl _
  | cons pc ps ih =>
    intro ap calls r h
    cases pc with
    | lit run =>
      rw [outcome] at h
      split at h
      · exact (List.prefix_append _ _).trans (ih h)
      · cases h
    | cut d =>
      rw [outcome] at h
      exact (List.prefix_append _ _).trans (ih h)
    | directive d conv =>
      rw [outcome] at h
      split at h
      · cases h
      · split at h
        · exact (List.prefix_append _ _).trans (ih h)
        · cases h

/-- **The directive at `i`** is rendered with its argument, and the rendering is what is passed at `i`. -/
theorem outcome_directive : ∀ {ps : List Piece} {ap : VaList} {calls r : Calls},
    outcome calls ps ap = .ok r → ∀ {i : Nat} {d : Prefixes} {conv : UInt8},
      ps[i]? = some (.directive d conv) →
      ∃ out ap', d.wrap.render conv (ap.drop ((ps.take i).map Piece.takes).sum) = some (out, ap') ∧
        r[calls.length + i]? = some out := by
  intro ps
  induction ps with
  | nil =>
    intro ap calls r _ i d conv hi
    rw [List.getElem?_nil] at hi
    cases hi
  | cons pc ps ih =>
    intro ap calls r h i d conv hi
    cases i with
    | zero =>
      rw [List.getElem?_cons_zero, Option.some.injEq] at hi
      subst hi
      rw [outcome] at h
      split at h
      · cases h
      · rename_i out ap' hout
        split at h
        · obtain ⟨t, rfl⟩ := outcome_prefix h
          refine ⟨out, ap', hout, ?_⟩
          rw [List.append_assoc, List.getElem?_append_right (Nat.le_add_right _ _),
            Nat.add_zero, Nat.sub_self]
          rfl
        · cases h
    | succ i =>
      rw [List.getElem?_cons_succ] at hi
      have hstep : ∀ (x : List UInt8) (ap' : VaList), outcome (calls ++ [x]) ps ap' = .ok r →
          ap' = ap.drop pc.takes →
          ∃ out ap', d.wrap.render conv (ap.drop (((pc :: ps).take (i + 1)).map Piece.takes).sum)
              = some (out, ap') ∧ r[calls.length + (i + 1)]? = some out := by
        rintro x ap' hx rfl
        obtain ⟨out, ap', hout, hget⟩ := ih hx hi
        rw [List.drop_drop] at hout
        rw [List.length_append, List.length_singleton, Nat.add_assoc, Nat.add_comm 1] at hget
        rw [List.take_succ_cons, List.map_cons, List.sum_cons]
        exact ⟨out, ap', hout, hget⟩
      cases pc with
      | lit run =>
        rw [outcome] at h
        split at h
        · exact hstep run ap h rfl
        · cases h
      | cut d' =>
        rw [outcome] at h
        exact hstep [] ap h rfl
      | directive d' conv' =>
        rw [outcome] at h
        split at h
        · cases h
        · rename_i out ap' hout
          split at h
          · exact hstep out ap' h (render_takes (d := d'.wrap) hout)
          · cases h

/-! ## 4. The unsigned conversions of `lp_Print` -/

end Print
end RaspiOS
