/-
# `envs[]` in memory

`Kernel` keeps every `struct Env` in a field of its own.  In the machine the table is memory like any
other: `aarch64_vm_init` takes it from `alloc`, and the kernel reads and writes it at its physical
address, through the identity map.  That map is shared by all directories, and `page_insert` does not
spare it: whoever enters a page at the address of a page of `envs[]` has replaced the records in it.

Here the table is where the code has it.  `Records.word` lays a record out as the 52 words of a
`struct Env`, `Records.read` reads it back, and a step of the machine (`Records.step`) is a step of the
kernel whose writes to the table go to memory (`put`) and after which every record is what memory
says (`load`).  `sys_ipc_can_send` enters the page before it writes to the record of the receiver, so
there the table is read in between.

`env_free_list` and `env_sched_list` are variables of the image; their heads stay fields, like `curenv`
and the other variables, and like the `struct Page` array.  A step is `wild` when the table no longer
stands for a state of the kernel, when it moves while the records in it change, or when it takes the
directory of the running environment with it, which `ttbr0_el1` still holds.
-/
import RaspiOS.Boot

set_option autoImplicit false

namespace RaspiOS

open LinkedList

/-! ## 1. Records and words -/

/-- A `struct Env` with its two link fields. -/
structure Record where
  env : Env
  link : Option Slot × Cell Unit Slot
  schedLink : Option Slot × Cell (Fin 2) Slot

/-- The value of `env_status`. -/
def EnvStatus.word : EnvStatus → Nat
  | .free => 0
  | .runnable => 1
  | .notRunnable => 2

/-- The number of words of a `struct Env`. -/
def envWords : Nat := Boot.sizeofEnv / 8

/-- The number of pages of `envs[]`. -/
def envPages : Nat := nenv * Boot.sizeofEnv / by2pg

/-- The pointer `envs`, and the addresses of `env_free_list` and `env_sched_list`. -/
structure Records where
  envs : Nat
  freeList : Nat
  schedList : Nat

namespace Kernel

/-- `envs[e]`. -/
def record (s : Kernel) (e : Slot) : Record where
  env := s.envs e
  link := (s.envFreeList.next e, s.envFreeList.prev e)
  schedLink := (s.envSched.next e, s.envSched.prev e)

/-- The state with other records. -/
def withRecords (s : Kernel) (r : Slot → Record) : Kernel :=
  { s with
    envs := fun e => (r e).env
    envFreeList :=
      { s.envFreeList with next := fun e => (r e).link.1, prev := fun e => (r e).link.2 }
    envSched :=
      { s.envSched with next := fun e => (r e).schedLink.1, prev := fun e => (r e).schedLink.2 } }

/-- The directory in `ttbr0_el1`: `env_run` loads that of the environment it enters, and all of them
map the kernel as `_pg_dir` does, which is there until the first does. -/
def active (s : Kernel) : Nat :=
  match s.curenv with
  | some c => (s.envs c).envPgdir
  | none => s.pgDir

theorem active_of_cur {s : Kernel} {c : Slot} (h : s.curenv = some c) :
    s.active = (s.envs c).envPgdir := by
  rw [active, h]

end Kernel

namespace Records

/-- `&env_free_list`. -/
def freeHead (R : Records) : Unit → Nat := fun _ => R.freeList

/-- `&env_sched_list[i]`. -/
def schedHead (R : Records) : Fin 2 → Nat := fun i => R.schedList + 8 * i.val

/-- A `struct Env *`. -/
def ptr (R : Records) : Option Slot → Nat
  | none => 0
  | some e => R.envs + Boot.sizeofEnv * e.val

/-- The address of a cell of a list whose forward pointer is word `off` of the record. -/
def cell {η : Type} (R : Records) (heads : η → Nat) (off : Nat) : Cell η Slot → Nat
  | .null => 0
  | .head h => heads h
  | .next e => R.ptr (some e) + 8 * off

/-- **Word `j` of a `struct Env`**, in the order of its declaration. -/
def word (R : Records) (v : Record) (j : Nat) : Nat :=
  if h : j < 31 then v.env.envTf.x ⟨j, h⟩
  else
    match j with
    | 31 => v.env.envTf.sp
    | 32 => v.env.envTf.elrEl1
    | 33 => v.env.envTf.pstate
    | 34 => v.env.envTf.pc
    | 35 => R.ptr v.link.1
    | 36 => R.cell R.freeHead 35 v.link.2
    | 37 => v.env.envId
    | 38 => v.env.envParentId
    | 39 => v.env.envStatus.word
    | 40 => page2pa v.env.envPgdir
    | 41 => v.env.envPri
    | 42 => R.ptr v.schedLink.1
    | 43 => R.cell R.schedHead 42 v.schedLink.2
    | 44 => v.env.envIpcValue
    | 45 => v.env.envIpcFrom
    | 46 => v.env.envIpcRecving
    | 47 => v.env.envIpcDstva
    | 48 => v.env.envIpcPerm
    | 49 => v.env.envPgfaultHandler
    | 50 => v.env.envXstacktop
    | 51 => v.env.envRuns
    | _ => 0

/-- The pointer a word stands for, if it stands for one. -/
def slotAt (R : Records) (a : Nat) : Option (Option Slot) :=
  if a = 0 then some none
  else if R.envs ≤ a ∧ (a - R.envs) % Boot.sizeofEnv = 0 then
    if h : (a - R.envs) / Boot.sizeofEnv < 1024 then some (some ⟨_, h⟩) else none
  else none

/-- The cell an address belongs to, if it belongs to one. -/
def cellAt {η : Type} (R : Records) (hs : List η) (heads : η → Nat) (off : Nat) (a : Nat) :
    Option (Cell η Slot) :=
  if a = 0 then some .null
  else
    match hs.find? fun h => heads h = a with
    | some h => some (.head h)
    | none => (R.slotAt (a - 8 * off)).bind fun o => o.map .next

/-- **The record that 52 words stand for**, if they stand for one. -/
def read (R : Records) (w : Nat → Nat) : Option Record := do
  let next ← R.slotAt (w 35)
  let prev ← R.cellAt [()] R.freeHead 35 (w 36)
  let status ← EnvStatus.ofWord (w 39)
  let schedNext ← R.slotAt (w 42)
  let schedPrev ← R.cellAt [0, 1] R.schedHead 42 (w 43)
  if w 40 % by2pg ≠ 0 then none
  else
    return {
      env :=
        { envTf := ⟨fun i => w i, w 31, w 32, w 33, w 34⟩
          envId := w 37, envParentId := w 38, envStatus := status, envPgdir := ppn (w 40)
          envPri := w 41, envIpcValue := w 44, envIpcFrom := w 45, envIpcRecving := w 46
          envIpcDstva := w 47, envIpcPerm := w 48, envPgfaultHandler := w 49
          envXstacktop := w 50, envRuns := w 51 }
      link := (next, prev)
      schedLink := (schedNext, schedPrev) }

/-! ## 2. The table in memory -/

/-- Word `n` of `envs[]`, as the records of the state have it. -/
def tableWord (R : Records) (s : Kernel) (n : Nat) : Nat :=
  R.word (s.record (Fin.ofNat 1024 (n / envWords))) (n % envWords)

/-- The frame in which the kernel finds page `k` of `envs[]`. -/
def page (R : Records) (s : Kernel) (k : Nat) : Option Nat :=
  (translate s.phys.mem s.active (R.envs + k * by2pg)).map Translation.frame

/-- Word `n` of `envs[]`, as memory has it. -/
def memWord (R : Records) (s : Kernel) (n : Nat) : Nat :=
  match R.page s (n / 512) with
  | some f => s.phys.mem f (Fin.ofNat 512 n)
  | none => 0

/-- `envs[e]`, as memory has it. -/
def memRecord (R : Records) (s : Kernel) (e : Slot) : Option Record :=
  R.read fun j => R.memWord s (envWords * e.val + j)

/-- The words of `envs[]` that differ between two states are stored. -/
def put (R : Records) (old s : Kernel) : Kernel :=
  { s with
    phys :=
      { s.phys with
        mem := fun f i =>
          match (List.range envPages).find? fun k => decide (R.page s k = some f ∧
            R.tableWord s (512 * k + i) ≠ R.tableWord old (512 * k + i)) with
          | some k => R.tableWord s (512 * k + i)
          | none => s.phys.mem f i } }

/-- How a step of the machine ends that does not come back to user mode. -/
inductive Ending where
  /-- as a step of the kernel does -/
  | halt (h : Halt)
  /-- with a table that stands for no state -/
  | wild
deriving DecidableEq

/-- The state with the records that memory holds. -/
def load (R : Records) (s : Kernel) : Except Ending Kernel :=
  if h : (∀ k < envPages, (R.page s k).isSome) ∧ ∀ e, (R.memRecord s e).isSome then
    let s' := s.withRecords fun e => (R.memRecord s e).get (h.2 e)
    if s'.active = s.active then .ok s' else .error .wild
  else .error .wild

/-- A call that took the kernel from `s` to `s'` has stored what it changed. -/
def settle (R : Records) (s s' : Kernel) : Except Ending Kernel :=
  if (∀ k < envPages, R.page s' k = R.page s k) ∨
      ∀ n < envPages * 512, R.tableWord s' n = R.tableWord s n then
    R.load (R.put s s')
  else .error .wild

/-! ## 3. The machine -/

/-- `sys_ipc_can_send`: `page_insert` may have replaced the record of the receiver, of the caller, or
any other, before the assignments that deliver. -/
def ipcCanSend (R : Records) (s : Kernel) (envid value srcva perm : Nat) :
    Except Ending (Exit × Kernel) :=
  match s.curenv with
  | none => .error (.halt .noEnv)
  | some c =>
    match s.envid2env envid false with
    | none => .ok (.ret (-eBadEnv), s)
    | some e =>
      if (s.envs e).envStatus ≠ .notRunnable ∨ (s.envs e).envIpcRecving = 0 then
        .ok (.ret (-eIpcNotRecv), s)
      else if utop ≤ srcva then .ok (.ret (-eNoMem), s)
      else if srcva ≠ 0 then do
        match ← (s.phys.pageLookup (s.envs c).envPgdir srcva).mapError .halt with
        | none => return (.ret (-eNoMem), s)
        | some (p, _) =>
          let (r, phys) ←
            (s.phys.pageInsert (s.envs e).envPgdir p (s.envs e).envIpcDstva perm).mapError .halt
          let s ← R.load { s with phys := phys }
          if r < 0 then return (.ret (-eNoMem), s)
          else return (.ret 0, ← R.settle s (s.ipcDeliver c e value perm))
      else return (.ret 0, ← R.settle s (s.ipcDeliver c e value perm))

/-- A send that returns 0 has found the status and the flag. -/
theorem ipcCanSend_ok {R : Records} {s k : Kernel} {envid value srcva perm : Nat}
    (h : R.ipcCanSend s envid value srcva perm = .ok (.ret 0, k)) :
    ∃ e, s.envid2env envid false = some e ∧ (s.envs e).envStatus = .notRunnable ∧
      (s.envs e).envIpcRecving ≠ 0 := by
  unfold ipcCanSend at h
  split at h
  · cases h
  split at h
  · cases h
  rename_i e he
  split at h
  · cases h
  rename_i hrecv
  rw [not_or, not_not] at hrecv
  exact ⟨e, he, hrecv⟩

/-- A send of a page to a receiver that waits: the table is read behind `page_insert`, and what is
delivered goes to the records found there. -/
theorem ipcCanSend_page {R : Records} {s s₁ u : Kernel} {c e : Slot} {envid srcva p : Nat} {a : Ptr}
    {phys : Phys} (value perm : Nat) (hc : s.curenv = some c)
    (hres : s.envid2env envid false = some e) (hst : (s.envs e).envStatus = .notRunnable)
    (hrecv : (s.envs e).envIpcRecving ≠ 0) (h0 : srcva ≠ 0) (hlow : srcva < utop)
    (hlook : s.phys.pageLookup (s.envs c).envPgdir srcva = .ok (some (p, a)))
    (hins : s.phys.pageInsert (s.envs e).envPgdir p (s.envs e).envIpcDstva perm = .ok (0, phys))
    (hload : R.load { s with phys := phys } = .ok s₁)
    (hsettle : R.settle s₁ (s₁.ipcDeliver c e value perm) = .ok u) :
    R.ipcCanSend s envid value srcva perm = .ok (.ret 0, u) := by
  have hwaits : ¬ ((s.envs e).envStatus ≠ .notRunnable ∨ (s.envs e).envIpcRecving = 0) := by
    rw [not_or, not_not]
    exact ⟨hst, hrecv⟩
  unfold ipcCanSend
  split
  · rename_i hn
    cases hc.symm.trans hn
  rename_i c' hc'
  cases hc.symm.trans hc'
  rw [hres]
  dsimp only
  rw [if_neg hwaits, if_neg (not_le.mpr hlow), if_pos h0]
  simp only [hlook, hins, Except.mapError, bind, Except.bind, hload, hsettle,
    if_neg (show ¬ (0 : Int) < 0 by decide), pure, Except.pure]

/-- **One step of the kernel with `envs[]` in memory.** -/
def step (R : Records) (s : Kernel) : Event → Except Ending Kernel
  | .svc r (.ipcCanSend envid value srcva perm) =>
    (R.ipcCanSend { s with kernelFrame := saveall syncStack r } envid value srcva perm).map Prod.snd
  | ev => do R.settle s (← (s.step ev).mapError .halt)

/-- The frame of the first page of `envs[]`. -/
def frame (R : Records) : Nat := ppn R.envs

/-- The table stored where `alloc` has put it. -/
def flush (R : Records) (s : Kernel) : Kernel :=
  { s with
    phys :=
      { s.phys with
        mem := fun f i =>
          if R.frame ≤ f ∧ f < R.frame + envPages then
            R.tableWord s (512 * (f - R.frame) + i)
          else s.phys.mem f i } }

end Records

/-- Where the linker puts the two list heads: in the image. -/
structure ListHeads (L : Layout) where
  freeList : Nat
  schedList : Nat
  pos : 0 < freeList ∧ 0 < schedList
  inImage : freeList < page2pa L.pgDir ∧ schedList + 8 < page2pa L.pgDir

/-- What `aarch64_vm_init` assigns to `envs`. -/
def Boot.envsPtr (L : Layout) (b : Boot) : Except Halt Nat := do
  let (pages, b) ← b.alloc (npage * Boot.sizeofPage) by2pg
  let b ← b.mapSegment L.pgDir upages (round (npage * Boot.sizeofPage) by2pg) pages pteV
  let (envs, _) ← b.alloc (nenv * Boot.sizeofEnv) by2pg
  return envs

/-- `main` up to and including `env_init`, with `envs[]` in memory. -/
def bootInRam (L : Layout) (H : ListHeads L) (ram : Mem) : Except Halt (Records × Kernel) := do
  let envs ← Boot.envsPtr L (Boot.mmuSetup L ram)
  let s ← boot L ram
  let R : Records := ⟨envs, H.freeList, H.schedList⟩
  return (R, R.flush s)

/-! ## 4. What is written is read back -/

theorem EnvStatus.ofWord_word (st : EnvStatus) : EnvStatus.ofWord st.word = some st := by
  cases st <;> rfl

namespace Records

variable {R : Records}

/-- A slot is where its pointer says. -/
theorem slotAt_ptr (h0 : 0 < R.envs) (o : Option Slot) : R.slotAt (R.ptr o) = some o := by
  cases o with
  | none => rfl
  | some e =>
    have he := e.isLt
    have hsub : R.envs + Boot.sizeofEnv * e.val - R.envs = Boot.sizeofEnv * e.val :=
      Nat.add_sub_cancel_left _ _
    have hdiv : Boot.sizeofEnv * e.val / Boot.sizeofEnv = e.val :=
      Nat.mul_div_cancel_left _ (by decide)
    unfold slotAt ptr
    dsimp only
    rw [if_neg (by omega), if_pos ⟨by omega, by rw [hsub, Nat.mul_mod_right]⟩]
    simp only [hsub, hdiv, he, dif_pos]

/-- A cell is where its address says, if the heads are below the table and apart. -/
theorem cellAt_cell {η : Type} (hs : List η) (heads : η → Nat) (h0 : 0 < R.envs)
    (hall : ∀ h, h ∈ hs) (hpos : ∀ h, 0 < heads h ∧ heads h < R.envs)
    (hinj : Function.Injective heads) (off : Nat) (c : Cell η Slot) :
    R.cellAt hs heads off (R.cell heads off c) = some c := by
  cases c with
  | null => rfl
  | head h =>
    unfold cellAt cell
    dsimp only
    rw [if_neg (by have := (hpos h).1; omega)]
    split
    · rename_i h' hf
      have heq : heads h' = heads h := by simpa using List.find?_some hf
      rw [hinj heq]
    · rename_i hf
      exact absurd (List.find?_eq_none.mp hf h (hall h)) (by simp)
  | next e =>
    have hnone : (hs.find? fun h => heads h = R.ptr (some e) + 8 * off) = none := by
      rw [List.find?_eq_none]
      intro h _ heq
      have h1 := of_decide_eq_true heq
      have h2 := (hpos h).2
      unfold ptr at h1
      dsimp only at h1
      omega
    unfold cellAt cell
    dsimp only
    rw [if_neg (by unfold ptr; dsimp only; omega), hnone]
    dsimp only
    rw [Nat.add_sub_cancel, slotAt_ptr h0]
    rfl

/-- **The heads are apart from the table**, which starts at a page. -/
structure Placed (R : Records) : Prop where
  aligned : page2pa R.frame = R.envs
  freeList : 0 < R.freeList ∧ R.freeList < R.envs
  schedList : 0 < R.schedList ∧ R.schedList + 8 < R.envs

theorem schedHead_injective (R : Records) : Function.Injective R.schedHead := by
  intro i j h
  simp only [schedHead] at h
  exact Fin.ext (by omega)

/-- **A record is read back as it was written.** -/
theorem read_word (h : R.Placed) (v : Record) : R.read (R.word v) = some v := by
  obtain ⟨⟨tf, id, parent, st, pgdir, pri, value, source, recving, dstva, perm, handler, xstack, runs⟩,
    ⟨next, prev⟩, ⟨snext, sprev⟩⟩ := v
  have h0 : 0 < R.envs := lt_trans h.freeList.1 h.freeList.2
  have h35 := slotAt_ptr h0 next
  have h36 := cellAt_cell [()] R.freeHead h0 (fun _ => List.mem_singleton.mpr rfl)
    (fun _ => h.freeList) (fun _ _ _ => rfl) 35 prev
  have h42 := slotAt_ptr h0 snext
  have h43 := cellAt_cell [0, 1] R.schedHead h0
    (by decide)
    (fun i => ⟨by have := h.schedList.1; simp only [schedHead]; omega,
      by have := h.schedList.2; have := i.isLt; simp only [schedHead]; omega⟩)
    R.schedHead_injective 42 sprev
  have halign : ¬ page2pa pgdir % by2pg ≠ 0 := by
    rw [page2pa_eq, Nat.mul_mod_left]
    simp
  have hpgdir : ppn (page2pa pgdir) = pgdir := by
    rw [page2pa_eq, ppn, Nat.shiftRight_eq_div_pow]
    exact Nat.mul_div_cancel _ (by decide)
  have htf : (fun i : Fin 31 => R.word ⟨⟨tf, id, parent, st, pgdir, pri, value, source, recving, dstva,
      perm, handler, xstack, runs⟩, (next, prev), (snext, sprev)⟩ i) = tf.x := by
    funext i
    exact dif_pos i.isLt
  unfold read
  rw [htf]
  simp only [word, Nat.reduceLT, dite_false, h35, h36, EnvStatus.ofWord_word, h42, h43, if_neg halign,
    hpgdir, Option.bind_eq_bind, Option.bind_some]
  rfl

/-! ## 5. A table at its place -/

/-- Reading a record looks at its 52 words. -/
theorem read_congr {w w' : Nat → Nat} (h : ∀ j < envWords, w' j = w j) : R.read w' = R.read w := by
  have htf : (fun i : Fin 31 => w' i) = fun i : Fin 31 => w i :=
    funext fun i => h i (lt_trans i.isLt (by decide))
  have hw : ∀ j, j < 52 → w' j = w j := h
  simp only [read, htf, hw, Nat.reduceLT]

/-- The words of one record. -/
theorem tableWord_slot (s : Kernel) (e : Slot) {j : Nat} (hj : j < envWords) :
    R.tableWord s (envWords * e.val + j) = R.word (s.record e) j := by
  have hpos : 0 < envWords := by decide
  have hdiv : (envWords * e.val + j) / envWords = e.val := by
    rw [Nat.mul_add_div hpos, Nat.div_eq_of_lt hj, Nat.add_zero]
  have hmod : (envWords * e.val + j) % envWords = j := by
    rw [Nat.mul_add_mod, Nat.mod_eq_of_lt hj]
  have hslot : Fin.ofNat 1024 e.val = e := Fin.ext (Nat.mod_eq_of_lt e.isLt)
  rw [tableWord, hdiv, hmod, hslot]

/-- The kernel finds every page of the table in the frame that `alloc` gave it. -/
def InPlace (R : Records) (s : Kernel) : Prop := ∀ k < envPages, R.page s k = some (R.frame + k)

/-- The frames of the table hold the words of `t`. -/
def Holds (R : Records) (s t : Kernel) : Prop :=
  ∀ k < envPages, ∀ i : Fin 512, s.phys.mem (R.frame + k) i = R.tableWord t (512 * k + i)

/-- **The records are what memory says.** -/
def Synced (R : Records) (s : Kernel) : Prop := R.Holds s s

variable {s t : Kernel}

theorem memWord_eq (hin : R.InPlace s) (hs : R.Holds s t) {n : Nat} (hn : n < envPages * 512) :
    R.memWord s n = R.tableWord t n := by
  have hk : n / 512 < envPages := Nat.div_lt_of_lt_mul (by rwa [Nat.mul_comm])
  have hsplit : 512 * (n / 512) + (Fin.ofNat 512 n).val = n := Nat.div_add_mod n 512
  rw [memWord, hin _ hk]
  dsimp only
  rw [hs _ hk, hsplit]

/-- **The table is what its words say.** -/
theorem load_words (hp : R.Placed) (hin : ∀ k < envPages, (R.page s k).isSome)
    (hw : ∀ n < envPages * 512, R.memWord s n = R.tableWord t n)
    (hact : (s.withRecords t.record).active = s.active) : R.load s = .ok (s.withRecords t.record) := by
  have hrec : ∀ e, R.memRecord s e = some (t.record e) := by
    intro e
    have he := e.isLt
    have hword : ∀ j < envWords, R.memWord s (envWords * e.val + j) = R.word (t.record e) j := by
      intro j hj
      have hn : envWords * e.val + j < envPages * 512 := by
        simp only [envWords, envPages, Boot.sizeofEnv, nenv, by2pg] at hj ⊢
        omega
      rw [hw _ hn, tableWord_slot t e hj]
    rw [memRecord, read_congr hword, read_word hp]
  have hok : (∀ k < envPages, (R.page s k).isSome) ∧ ∀ e, (R.memRecord s e).isSome :=
    ⟨hin, fun e => by rw [hrec e]; rfl⟩
  have hsame : (s.withRecords fun e => (R.memRecord s e).get (hok.2 e)) = s.withRecords t.record := by
    simp only [hrec, Option.get_some]
  unfold load
  rw [dif_pos hok]
  simp only [hsame, hact, if_true]

/-- **A table at its place is read as it stands.** -/
theorem load_synced (hp : R.Placed) (hin : R.InPlace s) (hs : R.Synced s) : R.load s = .ok s :=
  load_words hp (fun k hk => by rw [hin k hk]; rfl) (fun _ hn => memWord_eq hin hs hn) rfl

/-- Writing the table changes no record. -/
theorem tableWord_flush (s : Kernel) (n : Nat) : R.tableWord (R.flush s) n = R.tableWord s n := rfl

theorem mem_flush (s : Kernel) {f : Nat} (hf : ¬ (R.frame ≤ f ∧ f < R.frame + envPages)) :
    (R.flush s).phys.mem f = s.phys.mem f := by
  funext i
  exact if_neg hf

theorem synced_flush (s : Kernel) : R.Synced (R.flush s) := by
  intro k hk i
  rw [tableWord_flush]
  refine (if_pos ⟨by omega, by omega⟩).trans ?_
  rw [Nat.add_sub_cancel_left]

/-- What is in memory already is not written. -/
theorem flush_synced (hs : R.Synced s) : R.flush s = s := by
  have hmem : (R.flush s).phys.mem = s.phys.mem := by
    funext f i
    by_cases hf : R.frame ≤ f ∧ f < R.frame + envPages
    · refine (if_pos hf).trans ?_
      rw [← hs (f - R.frame) (by omega) i, Nat.add_sub_cancel' hf.1]
    · exact if_neg hf
  calc R.flush s = { s with phys := { s.phys with mem := (R.flush s).phys.mem } } := rfl
    _ = s := by rw [hmem]

/-- **The writes of a call reach the table.** -/
theorem put_eq_flush (hin : R.InPlace s) (hs : R.Holds s t) : R.put t s = R.flush s := by
  have hmem : (R.put t s).phys.mem = (R.flush s).phys.mem := by
    funext f i
    unfold put flush
    dsimp only
    split
    · rename_i k hk
      have hkn : k < envPages := List.mem_range.mp (List.mem_of_find?_eq_some hk)
      obtain ⟨hpage, _⟩ := of_decide_eq_true (by simpa using List.find?_some hk)
      rw [hin k hkn] at hpage
      have hf := Option.some.inj hpage
      rw [if_pos ⟨by omega, by omega⟩, ← hf, Nat.add_sub_cancel_left]
    · rename_i hnone
      by_cases hf : R.frame ≤ f ∧ f < R.frame + envPages
      · rw [if_pos hf]
        have hk : f - R.frame < envPages := by omega
        have hpage := hin _ hk
        rw [Nat.add_sub_cancel' hf.1] at hpage
        have hsame := List.find?_eq_none.mp hnone _ (List.mem_range.mpr hk)
        have hold := hs _ hk i
        rw [Nat.add_sub_cancel' hf.1] at hold
        rw [hold]
        by_contra hne
        exact hsame (decide_eq_true ⟨hpage, fun h => hne h.symm⟩)
      · rw [if_neg hf]
  calc R.put t s = { s with phys := { s.phys with mem := (R.put t s).phys.mem } } := rfl
    _ = R.flush s := by rw [hmem]; rfl

end Records

end RaspiOS
