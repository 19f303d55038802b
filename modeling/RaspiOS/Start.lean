/-
# The boot stub

`_start_master` of `boot/start.S`, from its first instruction to the call of `main`.  It is entered at
exception level 3, 2 or 1, goes down to level 1, clears the `.bss` section and sets the stack pointer.

The section is cleared in words of eight bytes, and the linker script computes how many there are by a
shift, so that what is left of a size that is not a multiple of eight is never cleared.  If there is no
word to clear, the branch that leaves out the loop leaves out the stack pointer too.  The stack pointer in
use is set, and then another may be selected: from level 2 the stub comes to level 1 with `SP_EL0`, but
there it has set `SP_EL1` before.

The two labels `5:` of the source are `five` and `clear`, and `3:` and `4:` are `three` and `four`.
-/
import RaspiOS.Lib.A64Level
import RaspiOS.Lib.Loop

set_option autoImplicit false

namespace RaspiOS
namespace Start

open A64Level Bytes Loop

/-! ## 1. The code -/

/-- `_start`, where the linker script puts it -/
def start : BitVec 64 := 0x80000

/-- The labels of the code. -/
inductive Label
  | startMaster
  | five
  | clear
  | three
  | four
  deriving DecidableEq

/-- `_start_master`, by labels -/
def code (bssStart : BitVec 64) (bssSize : BitVec 32) : Label → List (Instr Label)
  | .startMaster =>
    [.mov 1 start, .mrsCurrentEl 0, .and 0 0 12, .cmp 0 12, .bne .five,
      .mov 2 0x5b1, .msr .scrEl3 2, .mov 2 0x3c9, .msr .spsrEl3 2, .adr 2 .five, .msr .elrEl3 2, .eret]
  | .five =>
    [.cmp 0 4, .beq .clear, .msrSpEl1 1,
      .mrs 0 .cnthctlEl2, .orr 0 0 3, .msr .cnthctlEl2 0, .msrZero .cntvoffEl2,
      .mov 0 0x33ff, .msr .cptrEl2 0, .msrZero .hstrEl2, .mov 0 (0xf <<< 20), .msr .cpacrEl1 0,
      .mov 0 (1 <<< 31), .orr 0 0 (1 <<< 1), .msr .hcrEl2 0, .mrs 0 .hcrEl2,
      .mov 2 0x0800, .movk16 2 0x30d0, .msr .sctlrEl1 2,
      .mov 2 0x004, .msr .spsrEl2 2, .adr 2 .clear, .msr .elrEl2 2, .eret]
  | .clear => [.mov 1 bssStart, .movW 2 bssSize]
  | .three => [.cbzW 2 .four, .strZero 1 8, .subW 2 2 1, .cbnzW 2 .three, .mov 0 0x80000, .movSp 0]
  | .four => [.msrSpSel true, .bl]

/-- The label behind the instructions of a label; behind the call of `main` there is none. -/
def Label.next : Label → Option Label
  | .startMaster => some .five
  | .five => some .clear
  | .clear => some .three
  | .three => some .four
  | .four => none

/-- How many instructions stand between `_start` and a label. -/
def Label.before : Label → Nat
  | .startMaster => 5
  | .five => 5 + 12
  | .clear => 5 + 12 + 24
  | .three => 5 + 12 + 24 + 2
  | .four => 5 + 12 + 24 + 2 + 6

/-- The address of a label. -/
def Label.addr (l : Label) : BitVec 64 := start + BitVec.ofNat 64 (4 * l.before)

/-- The label at an address. -/
def labelAt (a : BitVec 64) : Option Label :=
  [.startMaster, .five, .clear, .three, .four].find? fun l : Label => l.addr = a

/-- What keeps the stub from getting to `main`: an instruction its level does not have, an exception return
to no legal state or to no label, or a loop without an end. -/
inductive BootFault
  | undefined
  | illegal
  | lost
  | endless
  deriving DecidableEq

/-- The instructions of one label. -/
def round (bssStart : BitVec 64) (bssSize : BitVec 32) :
    Label × Core → Except BootFault (Round (Label × Core) Core) := fun (l, c) =>
  match runBlock Label.addr c (code bssStart bssSize l) with
  | .ok c =>
    match l.next with
    | some l => .ok (.again (l, c))
    | none => .error .lost
  | .error (.goto l c) => .ok (.again (l, c))
  | .error (.ret a c) =>
    match labelAt a with
    | some l => .ok (.again (l, c))
    | none => .error .lost
  | .error (.call c) => .ok (.leave c)
  | .error .undefined => .error .undefined
  | .error .illegal => .error .illegal

/-- `__bss_size = (__bss_end - __bss_start)>>3;` of the linker script, as the 32 bits that are loaded -/
def bssSize (bssStart bssEnd : BitVec 64) : BitVec 32 := ((bssEnd - bssStart) >>> 3).setWidth 32

/-- `_start_master`: the core as it calls `main` -/
def startMaster (n : Nat) (bssStart bssEnd : BitVec 64) (c : Core) : Except BootFault Core :=
  loop .endless (round bssStart (bssSize bssStart bssEnd)) n (.startMaster, c)

/-! ## 2. Down to level 1 -/

variable {bssStart : BitVec 64} {size : BitVec 32} {c d : Core}

/-- A core that has come to level 1, with the stack pointers it has there. -/
structure AtLevel1 (c d : Core) : Prop where
  el : d.el = 1
  mem : d.mem = c.mem
  kept : c.el = 1 → d.spSel = c.spSel ∧ d.spEl = c.spEl
  set : c.el ≠ 1 → d.spSel = false ∧ d.spEl 1 = start

theorem labelAt_addr (l : Label) : labelAt l.addr = some l := by
  cases l <;> decide

theorem round_goto {l l' : Label}
    (h : runBlock Label.addr c (code bssStart size l) = .error (.goto l' d)) :
    round bssStart size (l, c) = .ok (.again (l', d)) := by
  simp only [round, h]

theorem round_ret {l l' : Label}
    (h : runBlock Label.addr c (code bssStart size l) = .error (.ret l'.addr d)) :
    round bssStart size (l, c) = .ok (.again (l', d)) := by
  simp only [round, h, labelAt_addr]

/-- A block that is run to its end. -/
theorem round_next {l l' : Label} (h : runBlock Label.addr c (code bssStart size l) = .ok d)
    (hl : l.next = some l') : round bssStart size (l, c) = .ok (.again (l', d)) := by
  simp only [round, h, hl]

/-- At level 1 the stub has nothing to do. -/
theorem startMaster_el1 (bssStart : BitVec 64) (size : BitVec 32) (hel : c.el = 1) :
    ∃ t, runBlock Label.addr c (code bssStart size .startMaster) = .error (.goto .five t) ∧
      t.x 0 = 4 ∧ t.el = 1 ∧ t.mem = c.mem ∧ t.spSel = c.spSel ∧ t.spEl = c.spEl := by
  simp -implicitDefEqProofs [code, runBlock_cons, step, ok_bind, error_bind, hel, Core.x_setX]

theorem startMaster_el2 (bssStart : BitVec 64) (size : BitVec 32) (hel : c.el = 2) :
    ∃ t, runBlock Label.addr c (code bssStart size .startMaster) = .error (.goto .five t) ∧
      t.x 0 = 8 ∧ t.x 1 = start ∧ t.el = 2 ∧ t.mem = c.mem := by
  simp -implicitDefEqProofs [code, runBlock_cons, step, ok_bind, error_bind, hel, Core.x_setX]

theorem startMaster_el3 (bssStart : BitVec 64) (size : BitVec 32) (hel : c.el = 3) :
    ∃ t, runBlock Label.addr c (code bssStart size .startMaster) = .error (.ret Label.five.addr t) ∧
      t.x 0 = 12 ∧ t.x 1 = start ∧ t.el = 2 ∧ t.mem = c.mem := by
  simp -implicitDefEqProofs [code, runBlock_cons, step, ok_bind, error_bind, hel, Core.x_setX, Core.sys_setSys,
    SysReg.level, Core.eret, Core.returnTo]

theorem five_el1 (bssStart : BitVec 64) (size : BitVec 32) (hel : c.el = 1) (hx : c.x 0 = 4) :
    ∃ t, runBlock Label.addr c (code bssStart size .five) = .error (.goto .clear t) ∧
      t.el = 1 ∧ t.mem = c.mem ∧ t.spSel = c.spSel ∧ t.spEl = c.spEl := by
  simp -implicitDefEqProofs [code, runBlock_cons, step, ok_bind, error_bind, hel, hx, Core.x_setX]

theorem five_el2 (bssStart : BitVec 64) (size : BitVec 32) (hel : c.el = 2) (hx : c.x 0 ≠ 4#64) :
    ∃ t, runBlock Label.addr c (code bssStart size .five) = .error (.ret Label.clear.addr t) ∧
      t.el = 1 ∧ t.mem = c.mem ∧ t.spSel = false ∧ t.spEl 1 = c.x 1 := by
  simp -implicitDefEqProofs [code, runBlock_cons, step, ok_bind, error_bind, hel, hx, Core.x_setX, Core.sys_setSys,
    SysReg.level, Core.eret, Core.returnTo, Core.spEl_setSpEl]

/-- **The stub comes down to level 1**, wherever it begins. -/
theorem leads_clear (bssStart : BitVec 64) (size : BitVec 32) (hel : c.el = 1 ∨ c.el = 2 ∨ c.el = 3) :
    ∃ d, Leads (round bssStart size) (.startMaster, c) (.clear, d) ∧ AtLevel1 c d := by
  rcases hel with hel | hel | hel
  · obtain ⟨t, hrun, hx, ht, hmem, hsel, hsp⟩ := startMaster_el1 bssStart size hel
    obtain ⟨d, hrun', hd, hmem', hsel', hsp'⟩ := five_el1 bssStart size ht hx
    refine ⟨d, .step (round_goto hrun) (.step (round_goto hrun') (.refl _)), hd, hmem'.trans hmem,
      fun _ => ⟨hsel'.trans hsel, hsp'.trans hsp⟩, fun h => absurd hel h⟩
  · obtain ⟨t, hrun, hx, hx1, ht, hmem⟩ := startMaster_el2 bssStart size hel
    obtain ⟨d, hrun', hd, hmem', hsel', hsp'⟩ := five_el2 bssStart size ht
      (by rw [hx]; decide)
    refine ⟨d, .step (round_goto hrun) (.step (round_ret hrun') (.refl _)), hd, hmem'.trans hmem,
      fun h => absurd h (by rw [hel]; decide), fun _ => ⟨hsel', hsp'.trans hx1⟩⟩
  · obtain ⟨t, hrun, hx, hx1, ht, hmem⟩ := startMaster_el3 bssStart size hel
    obtain ⟨d, hrun', hd, hmem', hsel', hsp'⟩ := five_el2 bssStart size ht
      (by rw [hx]; decide)
    refine ⟨d, .step (round_ret hrun) (.step (round_ret hrun') (.refl _)), hd, hmem'.trans hmem,
      fun h => absurd h (by rw [hel]; decide), fun _ => ⟨hsel', hsp'.trans hx1⟩⟩

/-! ## 3. Clearing -/

/-- The core after a word has been cleared. -/
def clearWord (c : Core) : Core :=
  ((c.storeZeros (c.x 1)).setX 1 (c.x 1 + 8)).setX 2 (((c.x 2).setWidth 32 - 1).setWidth 64)

theorem x_clearWord (c : Core) : (clearWord c).x 1 = c.x 1 + 8 := rfl

theorem left_clearWord (c : Core) :
    ((clearWord c).x 2).setWidth 32 = (c.x 2).setWidth 32 - 1 := by
  have hx : (clearWord c).x 2 = ((c.x 2).setWidth 32 - 1).setWidth 64 := rfl
  rw [hx, BitVec.setWidth_setWidth_of_le _ (by decide), BitVec.setWidth_eq]

theorem three_done (h : (c.x 2).setWidth 32 = 0#32) :
    runBlock Label.addr c (code bssStart size .three) = .error (.goto .four c) := by
  simp -implicitDefEqProofs [code, runBlock_cons, step, error_bind, h]

/-- The instructions of the loop, up to the branch back. -/
theorem three_more (h : (c.x 2).setWidth 32 ≠ 0#32) (hleft : ((clearWord c).x 2).setWidth 32 ≠ 0#32) :
    runBlock Label.addr c (code bssStart size .three) = .error (.goto .three (clearWord c)) := by
  have hcbz : step Label.addr c (.cbzW 2 .four) = .ok c := if_neg h
  have hcbnz : step Label.addr (clearWord c) (.cbnzW 2 .three) = .error (.goto .three (clearWord c)) :=
    if_neg hleft
  unfold code
  rw [runBlock_cons, hcbz, ok_bind, runBlock_cons]
  change runBlock Label.addr (clearWord c) (.cbnzW 2 .three :: _) = _
  rw [runBlock_cons, hcbnz, error_bind]

/-- The last word: behind the loop the stack pointer is set. -/
theorem three_last (h : (c.x 2).setWidth 32 ≠ 0#32) (hleft : ((clearWord c).x 2).setWidth 32 = 0#32) :
    runBlock Label.addr c (code bssStart size .three)
      = .ok (((clearWord c).setX 0 0x80000).setSpEl c.spLevel 0x80000) := by
  have hcbz : step Label.addr c (.cbzW 2 .four) = .ok c := if_neg h
  have hcbnz : step Label.addr (clearWord c) (.cbnzW 2 .three) = .ok (clearWord c) := if_pos hleft
  unfold code
  rw [runBlock_cons, hcbz, ok_bind, runBlock_cons]
  change runBlock Label.addr (clearWord c) (.cbnzW 2 .three :: _) = _
  rw [runBlock_cons, hcbnz, ok_bind]
  rfl

/-- What the loop has done when `i` words have been cleared, and `k` are left. -/
structure Clearing (bssStart : BitVec 64) (c d : Core) (i k : Nat) : Prop where
  el : d.el = c.el
  spSel : d.spSel = c.spSel
  spEl : d.spEl = c.spEl
  mem : d.mem = put c.mem bssStart (8 * i) fun _ => 0
  pointer : d.x 1 = bssStart + BitVec.ofNat 64 (8 * i)
  left : (d.x 2).setWidth 32 = BitVec.ofNat 32 k

theorem Clearing.word {i k : Nat} (h : Clearing bssStart c d i (k + 1)) (hi : 8 * (i + 1) ≤ 2 ^ 64) :
    Clearing bssStart c (clearWord d) (i + 1) k where
  el := h.el
  spSel := h.spSel
  spEl := h.spEl
  mem := by
    have hstore : (clearWord d).mem = storeWord d.mem (d.x 1) (Vector.replicate 8 0) := rfl
    rw [hstore, h.pointer, h.mem, Nat.mul_succ, ← put_put (by omega)]
    exact storeWord_eq fun k hk => Vector.getElem_replicate hk
  pointer := by
    rw [x_clearWord, h.pointer]
    exact add_ofNat_add bssStart (8 * i) 8
  left := by
    rw [left_clearWord, h.left, BitVec.ofNat_add]
    exact BitVec.add_sub_cancel _ _

/-- The core behind the loop: what was there is cleared, and if there was anything, the stack pointer in
use has been set. -/
structure Cleared (bssStart : BitVec 64) (count : Nat) (c d : Core) : Prop where
  el : d.el = c.el
  mem : d.mem = put c.mem bssStart (8 * count) fun _ => 0
  spEl : d.spEl = if count = 0 then c.spEl else (c.setSpEl c.spLevel 0x80000).spEl

theorem ofNat32_ne_zero {k : Nat} (hk : k ≠ 0) (hlt : k < 2 ^ 32) : BitVec.ofNat 32 k ≠ 0#32 := by
  intro hz
  have hval := congrArg BitVec.toNat hz
  rw [BitVec.toNat_ofNat, Nat.mod_eq_of_lt hlt] at hval
  exact hk hval

/-- **The loop** clears all words. -/
theorem leads_four {k : Nat} : ∀ {i : Nat} {d : Core}, Clearing bssStart c d i k → i + k < 2 ^ 32 →
    (k = 0 → i = 0) → ∃ e, Leads (round bssStart size) (.three, d) (.four, e) ∧
      Cleared bssStart (i + k) c e := by
  induction k with
  | zero =>
    intro i d h hik h0
    obtain rfl := h0 rfl
    refine ⟨d, .step (round_goto (three_done h.left)) (.refl _), h.el, h.mem, ?_⟩
    rw [if_pos rfl]
    exact h.spEl
  | succ k ih =>
    intro i d h hik _
    have hmore : (d.x 2).setWidth 32 ≠ 0#32 := by
      rw [h.left]
      exact ofNat32_ne_zero (Nat.succ_ne_zero k) (by omega)
    have hword := h.word (by omega)
    rcases Nat.eq_zero_or_pos k with rfl | hk
    · refine ⟨_, .step (round_next (three_last hmore hword.left) rfl) (.refl _), h.el, hword.mem, ?_⟩
      have hsp : d.spLevel = c.spLevel := by
        rw [Core.spLevel, Core.spLevel, h.el, h.spSel]
      rw [if_neg (Nat.succ_ne_zero _), ← hsp]
      funext j
      rw [Core.spEl_setSpEl, Core.spEl_setSpEl, ← h.spEl]
      rfl
    · have hagain : ((clearWord d).x 2).setWidth 32 ≠ 0#32 := by
        rw [hword.left]
        exact ofNat32_ne_zero (Nat.ne_of_gt hk) (by omega)
      obtain ⟨e, hlead, he⟩ := ih hword (by omega) (fun h0 => absurd h0 (Nat.ne_of_gt hk))
      have hcount : i + 1 + k = i + (k + 1) := by omega
      exact ⟨e, .step (round_goto (three_more hmore hagain)) hlead, hcount ▸ he⟩

/-! ## 4. Before `main` -/

/-- How many words the linker script counts. -/
theorem toNat_bssSize {bssEnd : BitVec 64} (hsize : ((bssEnd - bssStart) >>> 3).toNat < 2 ^ 32) :
    (bssSize bssStart bssEnd).toNat = (bssEnd - bssStart).toNat / 8 := by
  rw [bssSize, BitVec.toNat_setWidth, Nat.mod_eq_of_lt hsize, BitVec.toNat_ushiftRight,
    Nat.shiftRight_eq_div_pow]

/-- From level 1 on: the words are cleared, and `main` is called with the stack pointer of level 1. -/
theorem clear_leaves (bssStart : BitVec 64) (size : BitVec 32) (hel : c.el = 1) :
    ∃ t c', Leads (round bssStart size) (.clear, c) t ∧ round bssStart size t = .ok (.leave c') ∧
      c'.mem = put c.mem bssStart (8 * size.toNat) (fun _ => 0) ∧
      c'.sp = if size.toNat = 0 then c.spEl 1 else (c.setSpEl c.spLevel 0x80000).spEl 1 := by
  have hblock : round bssStart size (.clear, c)
      = .ok (.again (.three, (c.setX 1 bssStart).setX 2 (size.setWidth 64))) := rfl
  have hclearing : Clearing bssStart c ((c.setX 1 bssStart).setX 2 (size.setWidth 64)) 0 size.toNat :=
    { el := rfl
      spSel := rfl
      spEl := rfl
      mem := (put_zero _ _ _).symm
      pointer := (BitVec.add_zero bssStart).symm
      left := by
        have hx : ((c.setX 1 bssStart).setX 2 (size.setWidth 64)).x 2 = size.setWidth 64 := rfl
        rw [hx, BitVec.setWidth_setWidth_of_le _ (by decide), BitVec.setWidth_eq, BitVec.ofNat_toNat,
          BitVec.setWidth_eq] }
  obtain ⟨e, hlead, he⟩ := leads_four hclearing (by have := size.isLt; omega) (fun _ => rfl)
  rw [Nat.zero_add] at he
  refine ⟨(.four, e), e.select true, .step hblock hlead, rfl, he.mem, ?_⟩
  have hsp : (e.select true).sp = e.spEl e.el := rfl
  rw [hsp, he.el, hel, he.spEl]
  split <;> rfl

/-- Level 1 uses its own stack pointer, or that of level 0. -/
theorem spEl_one (hel : c.el = 1) (v : BitVec 64) :
    (c.setSpEl c.spLevel v).spEl 1 = if c.spSel then v else c.spEl 1 := by
  rw [Core.spEl_setSpEl, Core.spLevel, hel]
  cases c.spSel <;> rfl

/-- **The core as it calls `main`.** -/
theorem startMaster_spec (bssStart bssEnd : BitVec 64) (hel : c.el = 1 ∨ c.el = 2 ∨ c.el = 3)
    (hsize : ((bssEnd - bssStart) >>> 3).toNat < 2 ^ 32) :
    ∃ c', (∃ k, ∀ n, k ≤ n → startMaster n bssStart bssEnd c = .ok c') ∧
      c'.mem = put c.mem bssStart (8 * ((bssEnd - bssStart).toNat / 8)) (fun _ => 0) ∧
      (c'.sp = 0x80000 ↔
        c.el ≠ 1 ∨ c.spEl 1 = 0x80000 ∨ c.spSel = true ∧ 8 ≤ (bssEnd - bssStart).toNat) := by
  obtain ⟨d, hdown, hd⟩ := leads_clear bssStart (bssSize bssStart bssEnd) hel
  obtain ⟨t, c', hlead, hleave, hmem, hsp⟩ := clear_leaves bssStart (bssSize bssStart bssEnd) hd.el
  rw [toNat_bssSize hsize] at hmem hsp
  refine ⟨c', (hdown.trans hlead).leaves BootFault.endless hleave, hd.mem ▸ hmem, ?_⟩
  rw [spEl_one hd.el] at hsp
  rcases eq_or_ne c.el 1 with h1 | h1
  · -- nothing has been set on the way down
    obtain ⟨hsel, hspEl⟩ := hd.kept h1
    rw [hsel, hspEl] at hsp
    rw [hsp]
    cases hc : c.spSel with
    | false => simp [h1]
    | true =>
      simp only [h1, ne_eq, not_true_eq_false, false_or, true_and, if_true]
      split
      · rename_i hnone
        exact ⟨.inl, fun h => h.resolve_right (by omega)⟩
      · rename_i hsome
        exact ⟨fun _ => .inr (by omega), fun _ => rfl⟩
  · -- level 1 has been given its stack pointer, and does not use it yet
    obtain ⟨hsel, hspEl⟩ := hd.set h1
    rw [hsel, if_neg Bool.false_ne_true, hspEl, ite_self] at hsp
    rw [hsp]
    exact ⟨fun _ => .inl h1, fun _ => rfl⟩

/-- What `main` is to be handed: a section that is zero, nothing changed behind it, and a stack pointer. -/
structure Clean (bssStart bssEnd : BitVec 64) (c c' : Core) : Prop where
  zero : ∀ a, bssStart ≤ a → a < bssEnd → c'.mem a = 0
  beyond : ∀ a : BitVec 64, 8 * ((bssEnd.toNat + 7) / 8) ≤ a.toNat → c'.mem a = c.mem a
  sp : c'.sp = 0x80000

/-- What is left of the section behind its last word, as it was. -/
def TailZero (bssStart bssEnd : BitVec 64) (m : Memory) : Prop :=
  ∀ a : BitVec 64, bssEnd.toNat - (bssEnd - bssStart).toNat % 8 ≤ a.toNat → a < bssEnd → m a = 0

/-- Whole words of the section are cleared, and nothing else is touched. -/
theorem put_bss {bssEnd : BitVec 64} (hle : bssStart ≤ bssEnd) (m : Memory) (a : BitVec 64)
    (ha : bssStart ≤ a) :
    put m bssStart (8 * ((bssEnd - bssStart).toNat / 8)) (fun _ => 0) a
      = if a.toNat < bssEnd.toNat - (bssEnd - bssStart).toNat % 8 then 0 else m a := by
  rw [BitVec.le_def] at hle ha
  have hsize : (bssEnd - bssStart).toNat = bssEnd.toNat - bssStart.toNat :=
    BitVec.toNat_sub_of_le hle
  have hdist : (a - bssStart).toNat = a.toNat - bssStart.toNat := BitVec.toNat_sub_of_le ha
  rw [put, hsize, hdist]
  exact if_congr (by omega) rfl rfl

/-- **When the stub hands `main` a clean machine.**  From every exception level, for every section, the stub
comes to the call of `main`.  The machine is clean exactly if what is left of the section behind its last
word of eight bytes was zero before, and either the core was not at level 1, or level 1 had its stack
pointer, or it used its own and there was a word to clear. -/
theorem startMaster_clean_iff {c : Core} (hel : c.el = 1 ∨ c.el = 2 ∨ c.el = 3) {bssStart bssEnd : BitVec 64}
    (hle : bssStart ≤ bssEnd) (hsize : ((bssEnd - bssStart) >>> 3).toNat < 2 ^ 32) :
    ∃ c', (∃ k, ∀ n, k ≤ n → startMaster n bssStart bssEnd c = .ok c') ∧
      (Clean bssStart bssEnd c c' ↔
        TailZero bssStart bssEnd c.mem ∧
          (c.el ≠ 1 ∨ c.spEl 1 = 0x80000 ∨ c.spSel = true ∧ 8 ≤ (bssEnd - bssStart).toNat)) := by
  obtain ⟨c', hrun, hmem, hsp⟩ := startMaster_spec bssStart bssEnd hel hsize
  have hnat := BitVec.le_def.mp hle
  have hlen : (bssEnd - bssStart).toNat = bssEnd.toNat - bssStart.toNat := BitVec.toNat_sub_of_le hle
  refine ⟨c', hrun, fun h => ⟨fun a ha hend => ?_, hsp.mp h.sp⟩,
    fun h => ⟨fun a ha hend => ?_, fun a ha => ?_, hsp.mpr h.2⟩⟩
  · have hstart : bssStart ≤ a := by
      rw [BitVec.le_def]
      omega
    have hzero := h.zero a hstart hend
    rwa [hmem, put_bss hle _ _ hstart, if_neg (Nat.not_lt_of_le ha)] at hzero
  · rw [hmem, put_bss hle _ _ ha]
    split
    · rfl
    · rename_i hlast
      exact h.1 a (Nat.le_of_not_lt hlast) hend
  · have hstart : bssStart ≤ a := by
      rw [BitVec.le_def]
      omega
    rw [hmem, put_bss hle _ _ hstart, if_neg (by omega)]

/-- A core at level 2, with memory full of ones. -/
def bootCore : Core := ⟨2, true, fun _ => 0, fun _ => 0, fun _ => 0, false, fun _ => 0xff⟩

/-- A section of sixteen bytes. -/
theorem startMaster_clean_iff_sixteen :
    ∃ c', (∃ k, ∀ n, k ≤ n → startMaster n 0x90000 0x90010 bootCore = .ok c') ∧
      (Clean 0x90000 0x90010 bootCore c' ↔ TailZero 0x90000 0x90010 bootCore.mem ∧
        (bootCore.el ≠ 1 ∨ bootCore.spEl 1 = 0x80000 ∨
          bootCore.spSel = true ∧ 8 ≤ ((0x90010 : BitVec 64) - 0x90000).toNat)) :=
  startMaster_clean_iff (.inr (.inl rfl)) (by decide) (by decide)

/-- A section of four bytes has no word: it is not cleared. -/
theorem startMaster_unclean :
    ∃ c', (∃ k, ∀ n, k ≤ n → startMaster n 0x90000 0x90004 bootCore = .ok c') ∧
      ¬ Clean 0x90000 0x90004 bootCore c' := by
  obtain ⟨c', hrun, hmem, -⟩ := startMaster_spec (c := bootCore) 0x90000 0x90004 (.inr (.inl rfl))
    (by decide)
  refine ⟨c', hrun, fun h => ?_⟩
  have hzero := h.zero 0x90000 (by decide) (by decide)
  rw [hmem] at hzero
  revert hzero
  decide

end Start
end RaspiOS
