/-
# `lp_Print` renders its format

One round of `lp_Print` passes a run of literal characters and one directive, or it faults in one of them:
`Rest` says what is left of the format and of the arguments, and that what is still to come makes the
outcome.  The scanner goes part by part with `Prefixes.read`, and where the format ends in the middle of a
directive every part of it reads the NUL, takes it for none of its own characters and leaves the pointer
there.
-/
import RaspiOS.Fields

set_option autoImplicit false

namespace RaspiOS
namespace Print

open Sentinel Buffer Loop

variable {n i : Nat} {fmt : CString} {l : List UInt8}

/-! ## 1. The scanner -/

theorem accept_spec (h : fmt.At i l) {c : UInt8} (hc : c ≠ 0) :
    ∃ j, accept fmt c i = .ok ((optional c l).1, j) ∧ fmt.At j (optional c l).2 := by
  cases l with
  | nil =>
    refine ⟨i, Except.bind_eq_ok_iff.mpr ⟨0, h.nil _, ?_⟩, h⟩
    rw [if_neg hc.symm]
    rfl
  | cons x l =>
    obtain ⟨hread, -, hnext⟩ := h.cons PrintFault.overread
    rw [optional]
    rcases eq_or_ne x c with rfl | hx
    · rw [if_pos rfl]
      refine ⟨i + 1, Except.bind_eq_ok_iff.mpr ⟨x, hread, ?_⟩, hnext⟩
      rw [if_pos rfl]
      rfl
    · rw [if_neg hx]
      refine ⟨i, Except.bind_eq_ok_iff.mpr ⟨x, hread, ?_⟩, h⟩
      rw [if_neg hx]
      rfl

theorem scanDigits_spec (h : fmt.At i l) (hn : l.length < n) (unset : Int) :
    ∃ j, scanDigits n fmt unset i
        = .ok (if l.takeWhile isDigit = [] then unset else intValue (l.takeWhile isDigit), j) ∧
      fmt.At j (l.dropWhile isDigit) := by
  cases l with
  | nil =>
    refine ⟨i, Except.bind_eq_ok_iff.mpr ⟨0, h.nil _, ?_⟩, h⟩
    rfl
  | cons x l =>
    obtain ⟨hread, -, -⟩ := h.cons PrintFault.overread
    rcases Bool.eq_false_or_eq_true (isDigit x) with hx | hx
    · obtain ⟨hscan, hat⟩ := h.scan PrintFault.overread .endless (p := isDigit)
        (f := fun v c => toInt32 (10 * v + ctod c)) (b := (0 : Int)) (by decide) hn
      refine ⟨_, Except.bind_eq_ok_iff.mpr ⟨x, hread, ?_⟩, hat⟩
      rw [if_pos hx, if_neg (by rw [List.takeWhile_cons_of_pos hx]; simp)]
      exact hscan
    · rw [List.takeWhile_cons_of_neg (by simp [hx]), List.dropWhile_cons_of_neg (by simp [hx])]
      refine ⟨i, Except.bind_eq_ok_iff.mpr ⟨x, hread, ?_⟩, h⟩
      rw [if_neg (by simp [hx]), if_pos rfl]
      rfl

theorem scanPrec_spec (h : fmt.At i l) (hn : l.length < n) :
    ∃ v j, scanPrec n fmt i = .ok (v, j) ∧ fmt.At j (readPrec l).2 := by
  obtain ⟨j, hacc, hat⟩ := accept_spec h (c := '.'.toUInt8) (by decide)
  have hlen := optional_length '.'.toUInt8 l
  unfold readPrec
  dsimp only
  split
  · rename_i hdot
    obtain ⟨k, hscan, hat'⟩ := scanDigits_spec hat (hlen.trans_lt hn) (-1)
    rw [hdot] at hacc
    exact ⟨_, k, Except.bind_eq_ok_iff.mpr ⟨_, hacc, hscan⟩, hat'⟩
  · rename_i hdot
    rw [Bool.eq_false_iff.mpr hdot] at hacc
    exact ⟨-1, j, Except.bind_eq_ok_iff.mpr ⟨_, hacc, rfl⟩, hat⟩

/-- What the flags are for the prefixes of a directive. -/
structure Scanned (d : Prefixes) (f : Flags) : Prop where
  long : f.longFlag = d.long
  left : f.ladjust = d.left
  padc : f.padc = d.fillChar
  width : f.width = intValue d.width

/-- **The scanner reads the prefixes**, and its pointer stops where they do. -/
theorem scanFlags_spec (h : fmt.At i l) (hn : l.length < n) :
    ∃ f j, scanFlags n fmt i = .ok (f, j) ∧ Scanned (Prefixes.read l).1 f ∧
      fmt.At j (Prefixes.read l).2 := by
  obtain ⟨i₁, hl, h₁⟩ := accept_spec h (c := 'l'.toUInt8) (by decide)
  have hn₁ := (optional_length 'l'.toUInt8 l).trans_lt hn
  obtain ⟨i₂, hleft, h₂⟩ := accept_spec h₁ (c := '-'.toUInt8) (by decide)
  have hn₂ := (optional_length '-'.toUInt8 _).trans_lt hn₁
  obtain ⟨i₃, hzero, h₃⟩ := accept_spec h₂ (c := '0'.toUInt8) (by decide)
  have hn₃ := (optional_length '0'.toUInt8 _).trans_lt hn₂
  obtain ⟨i₄, hwidth, h₄⟩ := scanDigits_spec h₃ hn₃ 0
  have hn₄ := (List.dropWhile_suffix isDigit).length_le.trans_lt hn₃
  obtain ⟨prec, i₅, hprec, h₅⟩ := scanPrec_spec h₄ hn₄
  refine ⟨_, i₅, Except.bind_eq_ok_iff.mpr ⟨_, hl, Except.bind_eq_ok_iff.mpr ⟨_, hleft,
    Except.bind_eq_ok_iff.mpr ⟨_, hzero, Except.bind_eq_ok_iff.mpr ⟨_, hwidth,
    Except.bind_eq_ok_iff.mpr ⟨_, hprec, rfl⟩⟩⟩⟩⟩, ?_, h₅⟩
  exact
    { long := rfl
      left := rfl
      padc := rfl
      width := by
        dsimp only
        split
        · rename_i hnone
          rw [Prefixes.read]
          dsimp only
          rw [hnone]
          rfl
        · rfl }

/-! ## 2. The conversions -/

theorem outputChecked_of_le (calls : Calls) {s : List UInt8} (out : List UInt8) (hs : s.take out.length = out)
    (h : out.length ≤ lpMaxBuf) : outputChecked calls s out.length = .ok (calls ++ [out]) := by
  rw [outputChecked, if_neg (by omega), Int.toNat_natCast, hs]

/-- What a conversion does with its field: it passes it to `output` and goes on at `i`, or the field is
too long and the buffer is overrun. -/
structure Passes (r : Except PrintFault Printer) (i : Nat) (ap : VaList) (calls : Calls)
    (out : List UInt8) : Prop where
  fits : out.length ≤ lpMaxBuf → ∃ buf, r = .ok { fmt := i, ap, buf, calls := calls ++ [out] }
  overrun : lpMaxBuf < out.length → r = .error .overrun

/-- A field that is written to the buffer is passed from there. -/
theorem passes_of_writes {r : Except PrintFault (Nat × Vector UInt8 lpMaxBuf)} {out : List UInt8}
    (h : Writes PrintFault.overrun r (fun buf => (out.length, buf)) out) (i : Nat) (ap : VaList)
    (calls : Calls) :
    Passes (r >>= fun x => outputChecked calls x.2.toList x.1 >>= fun calls =>
      .ok { fmt := i, ap, buf := x.2, calls }) i ap calls out := by
  refine ⟨fun hle => ?_, fun hlt => ?_⟩
  · obtain ⟨buf, rfl, hbuf⟩ := h.fits hle
    exact ⟨buf, Except.bind_eq_ok_iff.mpr ⟨_, rfl,
      Except.bind_eq_ok_iff.mpr ⟨_, outputChecked_of_le _ _ hbuf.take hle, rfl⟩⟩⟩
  · rw [h.faults hlt]
    rfl

/-- The number that is printed, and whether with a sign. -/
theorem printNumber_eq {p : Printer} {f : Flags} {num : BitVec 64} {ap : VaList}
    (h : vaNum f.longFlag p.ap = .ok (num, ap)) (base : Nat) (signed upcase : Bool) :
    printNumber n p f base signed upcase =
      if signed ∧ num.toInt < 0 then
        printNum n p.buf (-num).toNat base true f.width f.ladjust f.padc upcase >>= fun x =>
          outputChecked p.calls x.2.toList x.1 >>= fun calls => .ok ⟨p.fmt, ap, x.2, calls⟩
      else
        printNum n p.buf num.toNat base false f.width f.ladjust f.padc upcase >>= fun x =>
          outputChecked p.calls x.2.toList x.1 >>= fun calls => .ok ⟨p.fmt, ap, x.2, calls⟩ := by
  unfold printNumber
  rw [h]
  split
  · rename_i hneg
    simp only [bind, Except.bind, if_pos hneg]
    rfl
  · rename_i hpos
    simp only [bind, Except.bind, if_neg hpos]
    rfl

/-- **The numbers.** -/
theorem printNumber_spec {p : Printer} {d : Prefixes} {f : Flags} (h : Scanned d f) (hn : lpMaxBuf < n)
    {base : Nat} (hbase : 2 ≤ base) (signed upcase : Bool) {w : BitVec 64} {ap : VaList}
    (hap : p.ap = .word w :: ap) :
    Passes (printNumber n p f base signed upcase) p.fmt ap p.calls
      (d.wrap.number base signed upcase (fetch d.long w)) := by
  have hfetch : vaNum f.longFlag p.ap = .ok (fetch d.long w, ap) := by
    rw [hap, h.long]
    rfl
  have hfield : ∀ (negFlag : Bool) (u : Nat),
      Passes (printNum n p.buf u base negFlag f.width f.ladjust f.padc upcase >>= fun x =>
          outputChecked p.calls x.2.toList x.1 >>= fun calls => .ok ⟨p.fmt, ap, x.2, calls⟩)
        p.fmt ap p.calls
        (numberField (decimal d.wrap.width) d.left d.fillChar negFlag (numeral base upcase u)) := by
    intro negFlag u
    refine passes_of_writes ?_ _ _ _
    rw [h.width, h.left, h.padc, decimal_wrap]
    exact printNum_spec p.buf u negFlag (intValue d.width) d.left d.fillChar upcase hbase hn
  rw [printNumber_eq hfetch]
  generalize fetch d.long w = num
  unfold Prefixes.number
  split
  · rename_i hneg
    have habs : (-num).toNat = num.toInt.natAbs := by
      have hmsb : num.msb = true := by
        rw [BitVec.msb_eq_toInt]
        exact decide_eq_true hneg.2
      rw [BitVec.toInt_eq_neg_toNat_neg_of_msb_true hmsb, Int.natAbs_neg, Int.natAbs_natCast]
    rw [← habs]
    exact hfield true (-num).toNat
  · exact hfield false num.toNat

/-- **The conversion of a directive** takes its argument, passes its rendering to `output` and steps over
its last character, or it overruns the buffer. -/
theorem convert_spec {p : Printer} {d : Prefixes} {f : Flags} (h : Scanned d f) (hn : lpMaxBuf < n)
    (hstrs : ∀ s, Arg.str s ∈ p.ap → s.chars.length < n) {conv : UInt8}
    (hat : fmt.At p.fmt (conv :: l)) {out : List UInt8} {ap : VaList}
    (hout : d.wrap.render conv p.ap = some (out, ap)) :
    Passes (convert n fmt p f conv) (p.fmt + 1) ap p.calls out := by
  unfold convert
  rcases render_some hout with ⟨base, signed, upcase, w, hc, hap, rfl⟩ | ⟨w, hc, hap, rfl⟩ |
    ⟨s, hc, hap, rfl⟩ | ⟨hc, hap, rfl⟩
  · rw [hc]
    have hnum := printNumber_spec h hn (convOf_num hc).1 signed upcase hap
    refine ⟨fun hle => ?_, fun hlt => ?_⟩
    · obtain ⟨buf, hrun⟩ := hnum.fits hle
      exact ⟨buf, Except.bind_eq_ok_iff.mpr ⟨_, hrun, rfl⟩⟩
    · dsimp only
      rw [hnum.overrun hlt]
      rfl
  · rw [hc, hap, decimal_wrap]
    have hfield := printChar_spec p.buf (UInt8.ofNat w.toNat) f.width f.ladjust
    rw [h.width, h.left] at hfield
    dsimp only
    rw [h.width, h.left]
    exact passes_of_writes hfield _ _ _
  · rw [hc, hap, decimal_wrap]
    have hfield := printString_spec p.buf s f.width f.ladjust
      (hstrs s (by rw [hap]; exact List.mem_cons_self))
    rw [h.width, h.left] at hfield
    dsimp only
    rw [h.width, h.left]
    exact passes_of_writes hfield _ _ _
  · rw [hc]
    have hone : 1 ≤ lpMaxBuf := by decide
    have hcall : outputChecked p.calls (fmt.chars.drop p.fmt) 1 = .ok (p.calls ++ [[conv]]) :=
      outputChecked_of_le p.calls [conv] (by rw [hat.drop]; rfl) hone
    subst hap
    exact ⟨fun _ => ⟨p.buf, Except.bind_eq_ok_iff.mpr ⟨_, hcall, rfl⟩⟩,
      fun hlt => absurd hone (Nat.not_le_of_lt hlt)⟩

/-- Neither a number nor a character is fetched where there is no word. -/
theorem va_not_word {ap : VaList} (h : ∀ w ap', ap ≠ .word w :: ap') (long : Bool) :
    vaNum long ap = .error .mismatch ∧ vaChar ap = .error .mismatch := by
  cases ap with
  | nil => exact ⟨rfl, rfl⟩
  | cons a ap =>
    cases a with
    | word w => exact absurd rfl (h w ap)
    | str s => exact ⟨rfl, rfl⟩

theorem va_not_str {ap : VaList} (h : ∀ s ap', ap ≠ .str s :: ap') : vaStr ap = .error .mismatch := by
  cases ap with
  | nil => rfl
  | cons a ap =>
    cases a with
    | word w => rfl
    | str s => exact absurd rfl (h s ap)

/-- A directive that does not find its argument. -/
theorem convert_mismatch {p : Printer} {d : Prefixes} {f : Flags} {conv : UInt8} (hconv : conv ≠ 0)
    (hout : d.wrap.render conv p.ap = none) : convert n fmt p f conv = .error .mismatch := by
  unfold convert
  unfold Prefixes.render at hout
  cases hc : convOf conv with
  | stop => exact absurd (convOf_stop hc) hconv
  | other =>
    rw [hc] at hout
    cases hout
  | num base signed upcase =>
    have hword : ∀ w ap, p.ap ≠ .word w :: ap := fun w ap hap => by
      rw [hc, hap] at hout
      cases hout
    dsimp only
    unfold printNumber
    rw [(va_not_word hword _).1]
    rfl
  | char =>
    have hword : ∀ w ap, p.ap ≠ .word w :: ap := fun w ap hap => by
      rw [hc, hap] at hout
      cases hout
    dsimp only
    rw [(va_not_word hword f.longFlag).2]
    rfl
  | str =>
    have hstr : ∀ s ap, p.ap ≠ .str s :: ap := fun s ap hap => by
      rw [hc, hap] at hout
      cases hout
    dsimp only
    rw [va_not_str hstr]
    rfl

/-! ## 3. A round -/

/-- What is left when the pointer is at `l`: what the pieces of `l` come to is the outcome. -/
structure Rest (n : Nat) (fmt : CString) (res : Except PrintFault Calls) (p : Printer)
    (l : List UInt8) : Prop where
  here : fmt.At p.fmt l
  strs : ∀ s, Arg.str s ∈ p.ap → s.chars.length < n
  todo : outcome p.calls (pieces l) p.ap = res

/-- The run of literal characters. -/
theorem scanRun_spec (h : fmt.At i l) (hn : l.length < n) :
    fmt.scan PrintFault.overread .endless (fun c => c ≠ 0 && c ≠ '%'.toUInt8) (fun u _ => u) n ((), i)
      = .ok ((), i + (l.takeWhile isLiteral).length) ∧
    fmt.At (i + (l.takeWhile isLiteral).length) (l.dropWhile isLiteral) := by
  obtain ⟨htake, hdrop⟩ := Text.span_test (q := isLiteral) h.free
  have hscan := h.scan PrintFault.overread .endless (p := fun c => c ≠ 0 && isLiteral c)
    (f := fun (u : Unit) _ => u) (b := ()) (by decide) hn
  rwa [htake, hdrop] at hscan

/-- A format that ends in the middle of a directive: the pointer stays at the NUL. -/
theorem printDirective_cut {p : Printer} {c : UInt8} {body : List UInt8} {d : Prefixes}
    (hat : fmt.At p.fmt (c :: body)) (hread : Prefixes.read body = (d, [])) (hn : body.length < n) :
    ∃ j, printDirective n fmt p = .ok { p with fmt := j } ∧ fmt.At j [] := by
  obtain ⟨f, j, hflags, -, hend⟩ := scanFlags_spec (hat.cons PrintFault.overread).2.2 hn
  rw [hread] at hend
  have hlen := hend.length
  have hlt := hat.length
  rw [List.length_cons] at hlt
  rw [List.length_nil] at hlen
  refine ⟨j, Except.bind_eq_ok_iff.mpr ⟨_, hflags, Except.bind_eq_ok_iff.mpr ⟨0, hend.nil _, ?_⟩⟩,
    hend⟩
  have hj : j - 1 + 1 = j := by omega
  exact congrArg (fun j => Except.ok { p with fmt := j }) hj

/-- A directive is converted, and the pointer goes on behind it. -/
theorem printDirective_spec {p : Printer} {c conv : UInt8} {body rest : List UInt8} {d : Prefixes}
    (hat : fmt.At p.fmt (c :: body)) (hread : Prefixes.read body = (d, conv :: rest))
    (hn : body.length < n) (hbuf : lpMaxBuf < n) (hstrs : ∀ s, Arg.str s ∈ p.ap → s.chars.length < n) :
    (d.wrap.render conv p.ap = none → printDirective n fmt p = .error .mismatch) ∧
      ∀ out ap, d.wrap.render conv p.ap = some (out, ap) →
        ∃ j, fmt.At j rest ∧ Passes (printDirective n fmt p) j ap p.calls out := by
  obtain ⟨f, j, hflags, hscanned, hend⟩ := scanFlags_spec (hat.cons PrintFault.overread).2.2 hn
  rw [hread] at hscanned hend
  obtain ⟨hconv, hne, hnext⟩ := hend.cons PrintFault.overread
  have hrun : printDirective n fmt p = convert n fmt { p with fmt := j } f conv := by
    unfold printDirective
    rw [hflags]
    change fmt.peek PrintFault.overread j >>= _ = _
    rw [hconv]
    rfl
  rw [hrun]
  refine ⟨fun hnone => convert_mismatch (p := { p with fmt := j }) hne hnone, fun out ap hout => ?_⟩
  exact ⟨j + 1, hnext, convert_spec (p := { p with fmt := j }) hscanned hbuf hstrs hend hout⟩

section Round

variable {p : Printer}

/-- `OUTPUT(arg, start_fmt, fmt-start_fmt)` of a run -/
theorem printRound_run (h : fmt.At p.fmt l) (hn : l.length < n) :
    printRound n fmt p = (outputChecked p.calls l (l.takeWhile isLiteral).length >>= fun calls =>
      fmt.peek .overread (p.fmt + (l.takeWhile isLiteral).length) >>= fun c =>
        if c = 0 then .ok (.leave calls)
        else printDirective n fmt ⟨p.fmt + (l.takeWhile isLiteral).length, p.ap, p.buf, calls⟩ >>=
          fun p => .ok (.again p)) := by
  have hlen : ((p.fmt + (l.takeWhile isLiteral).length : Nat) : Int) - (p.fmt : Int)
      = (l.takeWhile isLiteral).length := by omega
  unfold printRound
  rw [(scanRun_spec h hn).1]
  change outputChecked p.calls (fmt.chars.drop p.fmt)
    ((p.fmt + (l.takeWhile isLiteral).length : Nat) - (p.fmt : Int)) >>= _ = _
  rw [hlen, h.drop]
  rfl

/-- A run that is too long. -/
theorem printRound_long (h : fmt.At p.fmt l) (hn : l.length < n)
    (hlong : ¬ (l.takeWhile isLiteral).length ≤ lpMaxBuf) :
    printRound n fmt p = .error (.fatal (p.calls ++ [theFatalMsg])) := by
  rw [printRound_run h hn, outputChecked, if_pos (.inr (by omega))]
  rfl

/-- A run that is passed. -/
theorem printRound_short (h : fmt.At p.fmt l) (hn : l.length < n)
    (hrun : (l.takeWhile isLiteral).length ≤ lpMaxBuf) :
    printRound n fmt p =
      (fmt.peek .overread (p.fmt + (l.takeWhile isLiteral).length) >>= fun c =>
        if c = 0 then .ok (.leave (p.calls ++ [l.takeWhile isLiteral]))
        else printDirective n fmt ⟨p.fmt + (l.takeWhile isLiteral).length, p.ap, p.buf,
            p.calls ++ [l.takeWhile isLiteral]⟩ >>= fun p => .ok (.again p)) := by
  have htake : l.take (l.takeWhile isLiteral).length = l.takeWhile isLiteral :=
    (List.prefix_iff_eq_take.mp (List.takeWhile_prefix _)).symm
  rw [printRound_run h hn, outputChecked_of_le _ _ htake hrun]
  rfl

/-- **One round** of `lp_Print` ends with the outcome, or goes on nearer to the end. -/
theorem printRound_spec {res : Except PrintFault Calls} (h : Rest n fmt res p l) (hn : l.length < n)
    (hbuf : lpMaxBuf < n) :
    (∃ e, printRound n fmt p = .error e ∧ .error e = res) ∨
      (∃ r, printRound n fmt p = .ok (.leave r) ∧ .ok r = res) ∨
      ∃ p' l', printRound n fmt p = .ok (.again p') ∧ Rest n fmt res p' l' ∧ l'.length < l.length := by
  have hat := (scanRun_spec h.here hn).2
  have hdrop := (List.dropWhile_suffix (l := l) isLiteral).length_le
  have hres := h.todo
  rcases Nat.lt_or_ge lpMaxBuf (l.takeWhile isLiteral).length with hlong | hrun
  · have hfatal : outcome p.calls (pieces l) p.ap = .error (.fatal (p.calls ++ [theFatalMsg])) := by
      obtain ⟨ps, hps⟩ := pieces_head l
      rw [hps, outcome, if_neg (Nat.not_le_of_lt hlong)]
    exact .inl ⟨_, printRound_long h.here hn (Nat.not_le_of_lt hlong), hfatal.symm.trans hres⟩
  cases hl : l.dropWhile isLiteral with
  | nil =>
    rw [hl] at hat
    rw [pieces_lit hl, outcome, if_pos hrun, outcome] at hres
    refine .inr (.inl ⟨_, ?_, hres⟩)
    rw [printRound_short h.here hn hrun, hat.nil]
    rfl
  | cons c body =>
    rw [hl] at hat hdrop
    rw [List.length_cons] at hdrop
    obtain ⟨hread, hc, -⟩ := hat.cons PrintFault.overread
    have hround : printRound n fmt p = printDirective n fmt ⟨p.fmt + (l.takeWhile isLiteral).length,
        p.ap, p.buf, p.calls ++ [l.takeWhile isLiteral]⟩ >>= fun p => .ok (.again p) := by
      rw [printRound_short h.here hn hrun, hread]
      exact if_neg hc
    rw [hround]
    cases hd : Prefixes.read body with
    | mk d rest =>
      cases rest with
      | nil =>
        -- the next round finds the NUL and an empty run
        obtain ⟨j, hcut, hend⟩ := printDirective_cut (p := ⟨p.fmt + (l.takeWhile isLiteral).length, p.ap,
          p.buf, p.calls ++ [l.takeWhile isLiteral]⟩) hat hd (n := n) (by omega)
        rw [pieces_cut hl hd, outcome, if_pos hrun, outcome, outcome] at hres
        refine .inr (.inr ⟨_, [], Except.bind_eq_ok_iff.mpr ⟨_, hcut, rfl⟩, ⟨hend, h.strs, ?_⟩, ?_⟩)
        · rw [pieces_lit rfl]
          exact hres
        · rw [List.length_nil]
          omega
      | cons conv rest =>
        have hlen := Prefixes.read_length body
        rw [hd, List.length_cons] at hlen
        obtain ⟨hnone, hsome⟩ := printDirective_spec (p := ⟨p.fmt + (l.takeWhile isLiteral).length,
          p.ap, p.buf, p.calls ++ [l.takeWhile isLiteral]⟩) hat hd (n := n) (by omega) hbuf h.strs
        rw [pieces_directive hl hd, outcome, if_pos hrun, outcome] at hres
        cases ho : d.wrap.render conv p.ap with
        | none =>
          rw [ho] at hres
          refine .inl ⟨_, ?_, hres⟩
          rw [hnone ho]
          rfl
        | some r =>
          obtain ⟨out, ap⟩ := r
          rw [ho] at hres
          dsimp only at hres
          obtain ⟨j, hend, hpass⟩ := hsome out ap ho
          rcases Nat.lt_or_ge lpMaxBuf out.length with hlt | hle
          · rw [if_neg (Nat.not_le_of_lt hlt)] at hres
            refine .inl ⟨_, ?_, hres⟩
            rw [hpass.overrun hlt]
            rfl
          · rw [if_pos hle] at hres
            obtain ⟨buf, hgo⟩ := hpass.fits hle
            refine .inr (.inr ⟨_, rest, Except.bind_eq_ok_iff.mpr ⟨_, hgo, rfl⟩,
              ⟨hend, fun s hs => h.strs s (render_args ho _ hs), hres⟩, by omega⟩)

end Round

/-! ## 4. The whole of `lp_Print` -/

/-- What `lp_Print` does in the end, once its loops are given rounds enough. -/
def Prints (fmt : CString) (ap : VaList) (buf : Vector UInt8 lpMaxBuf) (r : Except PrintFault Calls) :
    Prop :=
  ∃ k, ∀ n, k ≤ n → lpPrint n fmt ap buf = r

theorem Prints.unique {ap : VaList} {buf : Vector UInt8 lpMaxBuf} {r r' : Except PrintFault Calls}
    (h : Prints fmt ap buf r) (h' : Prints fmt ap buf r') : r = r' := by
  obtain ⟨k, hk⟩ := h
  obtain ⟨k', hk'⟩ := h'
  rw [← hk _ (Nat.le_max_left k k'), ← hk' _ (Nat.le_max_right k k')]

/-- The strings among the arguments have a longest. -/
theorem exists_longest (ap : VaList) : ∃ k, ∀ s, Arg.str s ∈ ap → s.chars.length ≤ k := by
  induction ap with
  | nil => exact ⟨0, fun s hs => absurd hs List.not_mem_nil⟩
  | cons a ap ih =>
    obtain ⟨k, hk⟩ := ih
    cases a with
    | word w =>
      refine ⟨k, fun s hs => hk s ?_⟩
      simpa using hs
    | str t =>
      refine ⟨max k t.chars.length, fun s hs => ?_⟩
      rcases List.mem_cons.mp hs with heq | hs
      · cases heq
        exact Nat.le_max_right _ _
      · exact (hk s hs).trans (Nat.le_max_left _ _)

/-- **`lp_Print` comes to the outcome of its format**, whatever its buffer held, and with a single NUL
last where there is no fault. -/
theorem lpPrint_outcome (fmt : CString) (ap : VaList) (buf : Vector UInt8 lpMaxBuf) :
    Prints fmt ap buf ((outcome [] (pieces fmt.chars) ap).map (· ++ [[0]])) := by
  obtain ⟨k, hk⟩ := exists_longest ap
  refine ⟨fmt.chars.length + lpMaxBuf + k + 1, fun n hn => ?_⟩
  generalize hres : outcome [] (pieces fmt.chars) ap = res
  have hround : ∀ p, (∃ l, Rest n fmt res p l) →
      (∃ e, printRound n fmt p = .error e ∧ .error e = res) ∨
      (∃ r, printRound n fmt p = .ok (.leave r) ∧ .ok r = res) ∨
      ∃ p', printRound n fmt p = .ok (.again p') ∧ (∃ l, Rest n fmt res p' l) ∧
        fmt.chars.length - p'.fmt < fmt.chars.length - p.fmt := by
    rintro p ⟨l, hl⟩
    have hlen := hl.here.length
    rcases printRound_spec hl (by omega) (by omega) with hfault | hleave | ⟨p', l', hagain, hl', hlt⟩
    · exact .inl hfault
    · exact .inr (.inl hleave)
    · have hlen' := hl'.here.length
      exact .inr (.inr ⟨p', hagain, ⟨l', hl'⟩, by omega⟩)
  have hstart : Rest n fmt res ⟨0, ap, buf, []⟩ fmt.chars :=
    ⟨Text.at_start fmt, fun s hs => (hk s hs).trans_lt (by omega), hres⟩
  have hloop := loop_total PrintFault.endless (Q := (· = res))
    (fun p : Printer => fmt.chars.length - p.fmt) hround ⟨_, hstart⟩ (n := n) (by dsimp only; omega)
  unfold lpPrint
  rw [hloop]
  cases res with
  | error e => rfl
  | ok r =>
    have hone : 1 ≤ lpMaxBuf := by decide
    exact outputChecked_of_le _ [0] rfl hone

/-- Characters of the source. -/
def chars (s : List Char) : List UInt8 := s.map Char.toUInt8

end Print
end RaspiOS
