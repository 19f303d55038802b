/-
# `lp_Print`

`lib/print.c`, the formatter under `printf` and `_panic`, and `lib/printf.c` over it.

A pointer into the format or into an argument of `%s` is an index, and a read behind the NUL is a fault
(`overread`); a store outside `buf` is one (`overrun`); so is a `va_arg` that does not find an argument
of its type (`mismatch`).  The endless loop in `OUTPUT` is the fault `fatal`, which keeps what had been
passed to `output` by then.  The loops of the source run for `n` rounds at most, and `endless` says that
one of them wanted more.

An `int` is an integer, and `width` and `prec` wrap as the machine lets them; `unsigned long u` of
`PrintNum` is a number below `2^64`.
-/
import RaspiOS.Lib.Buffer
import RaspiOS.Lib.Sentinel

set_option autoImplicit false

namespace RaspiOS
namespace Print

open Sentinel Buffer Loop

/-! ## 1. Characters, arguments, faults -/

/-- A string of C. -/
abbrev CString := Text (0 : UInt8)

/-- `LP_MAX_BUF`: the maximum width for a variable. -/
def lpMaxBuf : Nat := 1000

/-- What `output` is called with, in order. -/
abbrev Calls := List (List UInt8)

/-- How a call can go wrong. -/
inductive PrintFault
  | overread
  | overrun
  | mismatch
  | fatal (calls : Calls)
  | endless
  deriving DecidableEq

/-- `theFatalMsg` -/
def theFatalMsg : List UInt8 := "fatal error in lp_Print!".toList.map Char.toUInt8

/-- `OUTPUT`: `s` is the memory from the pointer on. -/
def outputChecked (calls : Calls) (s : List UInt8) (l : Int) : Except PrintFault Calls :=
  if l < 0 ∨ l > lpMaxBuf then .error (.fatal (calls ++ [theFatalMsg]))
  else .ok (calls ++ [s.take l.toNat])

/-- `IsDigit` -/
def isDigit (x : UInt8) : Bool := '0'.toUInt8 ≤ x && x ≤ '9'.toUInt8

/-- `Ctod` -/
def ctod (x : UInt8) : Int := x.toNat - '0'.toNat

/-- An argument: a register or a slot of the stack, or the string it points to. -/
inductive Arg
  | word (w : BitVec 64)
  | str (s : CString)

/-- `va_list`: the arguments to come. -/
abbrev VaList := List Arg

/-- The value of an argument: with `l` the word, without it the lower half as an `int`. -/
def fetch (longFlag : Bool) (w : BitVec 64) : BitVec 64 :=
  if longFlag then w else (w.setWidth 32).signExtend 64

/-- `va_arg(ap, long int)` with `l`, `va_arg(ap, int)` without it, into the 64 bits of `num` -/
def vaNum (longFlag : Bool) : VaList → Except PrintFault (BitVec 64 × VaList)
  | .word w :: ap => .ok (fetch longFlag w, ap)
  | _ => .error .mismatch

/-- `(char)va_arg(ap, int)` -/
def vaChar : VaList → Except PrintFault (UInt8 × VaList)
  | .word w :: ap => .ok (UInt8.ofNat w.toNat, ap)
  | _ => .error .mismatch

/-- `va_arg(ap, char *)` -/
def vaStr : VaList → Except PrintFault (CString × VaList)
  | .str s :: ap => .ok (s, ap)
  | _ => .error .mismatch

/-! ## 2. `PrintChar`, `PrintString`, `PrintNum`

Each is given the buffer and returns the length with the buffer as it leaves it. -/

section Fields

variable {m : Nat}

/-- `PrintChar` -/
def printChar (buf : Vector UInt8 m) (c : UInt8) (length : Int) (ladjust : Bool) :
    Except PrintFault (Nat × Vector UInt8 m) := do
  let length := if length < 1 then 1 else length.toNat
  if ladjust then
    let buf ← store .overrun buf 0 c
    let buf ← fill .overrun buf 1 length fun _ => .ok ' '.toUInt8
    return (length, buf)
  else
    let buf ← fill .overrun buf 0 (length - 1) fun _ => .ok ' '.toUInt8
    let buf ← store .overrun buf (length - 1) c
    return (length, buf)

/-- The loops of `PrintString` behind its `strlen`. -/
def placeString (buf : Vector UInt8 m) (s : CString) (len length : Nat) (ladjust : Bool) :
    Except PrintFault (Vector UInt8 m) :=
  if ladjust then do
    let buf ← fill .overrun buf 0 len fun i => s.peek .overread i
    fill .overrun buf len length fun _ => .ok ' '.toUInt8
  else do
    let buf ← fill .overrun buf 0 (length - len) fun _ => .ok ' '.toUInt8
    fill .overrun buf (length - len) length fun i => s.peek .overread (i + len - length)

/-- `PrintString` -/
def printString (n : Nat) (buf : Vector UInt8 m) (s : CString) (length : Int) (ladjust : Bool) :
    Except PrintFault (Nat × Vector UInt8 m) := do
  let (len, _) ← s.scan .overread .endless (· ≠ 0) (fun len _ => len + 1) n ((0 : Nat), 0)
  let length := if length < len then len else length.toNat
  let buf ← placeString buf s len length ladjust
  return (length, buf)

/-- The character of digit `tmp`. -/
def digitChar (upcase : Bool) (tmp : Nat) : UInt8 :=
  if tmp ≤ 9 then UInt8.ofNat ('0'.toNat + tmp)
  else if upcase then UInt8.ofNat ('A'.toNat + tmp - 10)
  else UInt8.ofNat ('a'.toNat + tmp - 10)

/-- The digits of `u`, the last one first: `do { *p++ = ..; u /= base; } while (u != 0);` -/
def printDigits (base : Nat) (upcase : Bool) : Nat → Vector UInt8 m × Nat × Nat →
    Except PrintFault (Vector UInt8 m × Nat) :=
  loop .endless fun (buf, p, u) => do
    let buf ← store .overrun buf p (digitChar upcase (u % base))
    if u / base ≠ 0 then return .again (buf, p + 1, u / base) else return .leave (buf, p + 1)

/-- `if (negFlag) *p++ = '-';` -/
def storeSign (buf : Vector UInt8 m) (p : Nat) (negFlag : Bool) :
    Except PrintFault (Vector UInt8 m × Nat) :=
  if negFlag then do
    let buf ← store .overrun buf p '-'.toUInt8
    return (buf, p + 1)
  else .ok (buf, p)

/-- The padding of `PrintNum`. -/
def addPadding (buf : Vector UInt8 m) (actualLength length : Nat) (negFlag ladjust : Bool)
    (padc : UInt8) : Except PrintFault (Vector UInt8 m) :=
  if negFlag ∧ ¬ ladjust ∧ padc = '0'.toUInt8 then do
    let buf ← fill .overrun buf (actualLength - 1) (length - 1) fun _ => .ok padc
    store .overrun buf (length - 1) '-'.toUInt8
  else fill .overrun buf actualLength length fun _ => .ok padc

/-- `PrintNum` -/
def printNum (n : Nat) (buf : Vector UInt8 m) (u base : Nat) (negFlag : Bool) (length : Int)
    (ladjust : Bool) (padc : UInt8) (upcase : Bool) : Except PrintFault (Nat × Vector UInt8 m) := do
  let (buf, p) ← printDigits base upcase n (buf, 0, u)
  let (buf, actualLength) ← storeSign buf p negFlag
  let length := if length < actualLength then actualLength else length.toNat
  let padc := if ladjust then ' '.toUInt8 else padc
  let buf ← addPadding buf actualLength length negFlag ladjust padc
  let buf ← reverse .overrun .endless n (buf, 0, (if ladjust then actualLength else length) - 1)
  return (length, buf)

end Fields

/-! ## 3. The scanner -/

/-- What the prefixes of a directive set. -/
structure Flags where
  longFlag : Bool
  ladjust : Bool
  padc : UInt8
  width : Int
  prec : Int

/-- The `int` that `i` wraps to. -/
def toInt32 (i : Int) : Int := i.bmod (2 ^ 32)

/-- `if (*fmt == c) fmt++;`: was it there, and where the pointer is now -/
def accept (fmt : CString) (c : UInt8) (i : Nat) : Except PrintFault (Bool × Nat) := do
  return if (← fmt.peek .overread i) = c then (true, i + 1) else (false, i)

/-- `while (IsDigit(*fmt)) v = 10 * v + Ctod(*fmt++);` -/
def scanNumber (n : Nat) (fmt : CString) (v : Int) (i : Nat) : Except PrintFault (Int × Nat) :=
  fmt.scan .overread .endless isDigit (fun v c => toInt32 (10 * v + ctod c)) n (v, i)

/-- The digits of a width or a precision: `unset` is what it is where there are none. -/
def scanDigits (n : Nat) (fmt : CString) (unset : Int) (i : Nat) : Except PrintFault (Int × Nat) := do
  if isDigit (← fmt.peek .overread i) then scanNumber n fmt 0 i else return (unset, i)

/-- `if (*fmt == '.') ..` -/
def scanPrec (n : Nat) (fmt : CString) (i : Nat) : Except PrintFault (Int × Nat) := do
  let (dot, i) ← accept fmt '.'.toUInt8 i
  if dot then scanDigits n fmt (-1) i else return (-1, i)

/-- The prefixes of a directive. -/
def scanFlags (n : Nat) (fmt : CString) (i : Nat) : Except PrintFault (Flags × Nat) := do
  let (longFlag, i) ← accept fmt 'l'.toUInt8 i
  let (ladjust, i) ← accept fmt '-'.toUInt8 i
  let (zero, i) ← accept fmt '0'.toUInt8 i
  let padc := if zero then '0'.toUInt8 else ' '.toUInt8
  let (width, i) ← scanDigits n fmt 0 i
  let (prec, i) ← scanPrec n fmt i
  return (⟨longFlag, ladjust, padc, width, prec⟩, i)

/-- What the cases of `switch (*fmt)` do. -/
inductive Conv
  | num (base : Nat) (signed upcase : Bool)
  | char
  | str
  | stop
  | other
  deriving DecidableEq

/-- `switch (*fmt)` -/
def convOf (c : UInt8) : Conv :=
  if c = 'b'.toUInt8 then .num 2 false false
  else if c = 'i'.toUInt8 ∨ c = 'd'.toUInt8 ∨ c = 'D'.toUInt8 then .num 10 true false
  else if c = 'o'.toUInt8 ∨ c = 'O'.toUInt8 then .num 8 false false
  else if c = 'u'.toUInt8 ∨ c = 'U'.toUInt8 then .num 10 false false
  else if c = 'x'.toUInt8 then .num 16 false false
  else if c = 'X'.toUInt8 then .num 16 false true
  else if c = 'c'.toUInt8 then .char
  else if c = 's'.toUInt8 then .str
  else if c = 0 then .stop
  else .other

/-- The state of `lp_Print` at the head of `for (;;)`. -/
structure Printer where
  fmt : Nat
  ap : VaList
  buf : Vector UInt8 lpMaxBuf
  calls : Calls

/-- A number: `num` is negated where the conversion is signed and `num` is negative. -/
def printNumber (n : Nat) (p : Printer) (f : Flags) (base : Nat) (signed upcase : Bool) :
    Except PrintFault Printer := do
  let (num, ap) ← vaNum f.longFlag p.ap
  let (num, negFlag) := if signed ∧ num.toInt < 0 then (-num, true) else (num, false)
  let (length, buf) ← printNum n p.buf num.toNat base negFlag f.width f.ladjust f.padc upcase
  let calls ← outputChecked p.calls buf.toList length
  return { p with ap, buf, calls }

/-- `switch (*fmt)`, and `fmt++` after it -/
def convert (n : Nat) (fmt : CString) (p : Printer) (f : Flags) (c : UInt8) :
    Except PrintFault Printer := do
  match convOf c with
  | .num base signed upcase =>
    let p ← printNumber n p f base signed upcase
    return { p with fmt := p.fmt + 1 }
  | .char =>
    let (c, ap) ← vaChar p.ap
    let (length, buf) ← printChar p.buf c f.width f.ladjust
    let calls ← outputChecked p.calls buf.toList length
    return { fmt := p.fmt + 1, ap, buf, calls }
  | .str =>
    let (s, ap) ← vaStr p.ap
    let (length, buf) ← printString n p.buf s f.width f.ladjust
    let calls ← outputChecked p.calls buf.toList length
    return { fmt := p.fmt + 1, ap, buf, calls }
  | .stop => return { p with fmt := p.fmt - 1 + 1 }
  | .other =>
    let calls ← outputChecked p.calls (fmt.chars.drop p.fmt) 1
    return { p with fmt := p.fmt + 1, calls }

/-- A directive, from its `%` on. -/
def printDirective (n : Nat) (fmt : CString) (p : Printer) : Except PrintFault Printer := do
  let (f, i) ← scanFlags n fmt (p.fmt + 1)
  let c ← fmt.peek .overread i
  convert n fmt { p with fmt := i } f c

/-- One round of `for (;;)`. -/
def printRound (n : Nat) (fmt : CString) (p : Printer) :
    Except PrintFault (Round Printer Calls) := do
  let (_, i) ← fmt.scan .overread .endless (fun c => c ≠ 0 && c ≠ '%'.toUInt8) (fun u _ => u) n
    ((), p.fmt)
  let calls ← outputChecked p.calls (fmt.chars.drop p.fmt) (i - p.fmt : Int)
  if (← fmt.peek .overread i) = 0 then return .leave calls
  else return .again (← printDirective n fmt { p with fmt := i, calls })

/-- `lp_Print`: what it passes to `output`.  `buf` is what the array of the frame happens to hold. -/
def lpPrint (n : Nat) (fmt : CString) (ap : VaList) (buf : Vector UInt8 lpMaxBuf) :
    Except PrintFault Calls := do
  let calls ← loop .endless (printRound n fmt) n ⟨0, ap, buf, []⟩
  outputChecked calls [0] 1

/-! ## 4. `printf` -/

/-- `myoutput`: what it sends to the UART -/
def myoutput (s : List UInt8) : List UInt8 := if s = [0] then [] else s

/-- `printf`: what reaches the UART -/
def printf (n : Nat) (fmt : CString) (ap : VaList) (buf : Vector UInt8 lpMaxBuf) :
    Except PrintFault (List UInt8) := do
  return (← lpPrint n fmt ap buf).flatMap myoutput

end Print
end RaspiOS
