/-
# `boot_map_segment` maps its segment

The loop of `boot_map_segment` walks to the entry of one page after the other, and takes a table from
`alloc` wherever one is missing.  On a directory whose tables lie below `freemem` and never meet, what
`alloc` hands out is a new table, so each round links at most two empty tables and then stores one leaf:
the answers at other pages stay, and the tables are again below `freemem` and never meet.

The memory the loop needs is a frame for each path that leads nowhere at the start (`missing`), and each
such path is counted once although many pages share it.
-/
import RaspiOS.BootMap
import RaspiOS.Progress

set_option autoImplicit false

namespace RaspiOS

open Radix (Path Reached Linked Stored)

/-- Any index. -/
def AnyIndex (_ : Fin 512) : Prop := True

/-- **A page directory under construction**: its tables never meet and lie below `freemem`, which is an
address of 48 bits at most. -/
structure Tables (pud : Nat) (b : Boot) : Prop where
  disjoint : Radix.Disjoint hwDecode {pud} AnyIndex 2 b.mem
  below : ∀ f, Reached hwDecode {pud} AnyIndex 2 b.mem f → by2pg * (f + 1) ≤ b.freemem
  phys : b.freemem ≤ 2 ^ 48

/-- The paths to the tables of some addresses. -/
def paths (xs : List Nat) : List (List (Fin 512)) := xs.flatMap fun x => [[pudx x], pathOf x]

/-- The tables that are missing. -/
def missing (m : Mem) (pud : Nat) (xs : List Nat) : Finset (List (Fin 512)) :=
  (paths xs).toFinset.filter fun is => Radix.walk hwDecode m pud is = .void

/-- There is memory for `k` tables below `maxpa`. -/
def Room (b : Boot) (k : Nat) : Prop := k = 0 ∨ round b.freemem by2pg + by2pg * k < maxpa

/-- The pages of a segment. -/
def pagesOf (va size : Nat) : List Nat :=
  ((List.range (size / by2pg)).map (· * by2pg)).map (va + ·)

/-- **What `boot_map_segment` is called for**: aligned addresses below `2^39`, none of them under a
block, and memory for the tables that are missing. -/
structure Mappable (b : Boot) (pud va size pa : Nat) : Prop extends Tables pud b where
  alignedVa : by2pg ∣ va
  alignedPa : by2pg ∣ pa
  range : va + size ≤ 2 ^ 39
  noBlock : ∀ i < size, ∀ r, Radix.walk hwDecode b.mem pud (pathOf (va + i)) ≠ .final r
  room : Room b (missing b.mem pud (pagesOf va size)).card

/-- The tables of `b` are where they were. -/
def TablesKept (pud : Nat) (b b' : Boot) : Prop :=
  ∀ (is : List (Fin 512)) (f : Nat), is.length ≤ 2 →
    Radix.walk hwDecode b.mem pud is = .table f → Radix.walk hwDecode b'.mem pud is = .table f

/-- **The segment is mapped, and nothing else**; the tables are those that were there and new ones.  A
frame is named by bits 47 to 12 of its address. -/
structure SegmentMapped (b : Boot) (pud va size pa : Nat) (b' : Boot) : Prop extends Tables pud b' where
  kept : TablesKept pud b b'
  mapped : ∀ i < size, translate b'.mem pud (va + i) = some ⟨hwFrame (pa + i), pteAttrs⟩
  other : ∀ y < 2 ^ 39, y < va ∨ va + size ≤ y →
    translate b'.mem pud y = translate b.mem pud y

/-! ## 1. One table -/

section Level

variable {b b' : Boot} {pud g i F : Nat}

theorem path_any (is : List (Fin 512)) : Path {pud} AnyIndex pud is := ⟨rfl, fun _ _ => trivial⟩

theorem length_le_of_paths {xs : List Nat} {is : List (Fin 512)} (h : is ∈ paths xs) :
    is.length ≤ 2 := by
  obtain ⟨x, _, hx⟩ := List.mem_flatMap.mp h
  rcases List.mem_pair.mp hx with rfl | rfl
  · exact Nat.le_succ 1
  · exact le_rfl

/-- The hardware reads the tables of a directory under construction as the kernel does. -/
theorem Tables.translate_eq_read (h : Tables pud b) (y : Nat) : translate b.mem pud y =
    if y < 2 ^ 39 then
      Radix.read hwDecode pageAnswer (blockAnswer y) none b.mem pud (ptex y) (pathOf y)
    else none := by
  have hlt : ∀ is : List (Fin 512), is.length ≤ 2 → ∀ f,
      Radix.walk hwDecode b.mem pud is = .table f → f < 2 ^ 36 := by
    intro is hlen f hf
    have hbelow := h.below f ((path_any is).reached hlen hf)
    have hphys := h.phys
    simp only [by2pg] at hbelow
    omega
  exact RaspiOS.translate_eq_read (hlt _ (Nat.le_succ 1)) (hlt _ le_rfl)

/-- `alloc` of a page, wherever `freemem` is. -/
theorem Boot.alloc_page (hF : round b.freemem by2pg = by2pg * F) :
    b.alloc by2pg by2pg = if npage ≤ F + 1 then .error .outOfMemoryPanic
      else .ok (by2pg * F, { mem := fun f i => if f = F then 0 else b.mem f i
                             freemem := by2pg * (F + 1) }) := by
  -- the first thing it does is to round
  have hround : b.alloc by2pg by2pg
      = ({ b with freemem := by2pg * F } : Boot).alloc (by2pg * 1) by2pg := by
    simp only [Boot.alloc, hF, Boot.round_mul, Nat.mul_one]
  have hone : ∀ f, (F ≤ f ∧ f < F + 1) ↔ f = F := by omega
  rw [hround, Boot.alloc_eq (F := F) rfl]
  simp only [hone]

/-- `freemem`, rounded up to a frame. -/
theorem round_eq (b : Boot) : ∃ F, round b.freemem by2pg = by2pg * F ∧ b.freemem ≤ by2pg * F := by
  refine ⟨(b.freemem + (by2pg - 1)) / by2pg, Nat.mul_comm _ _, ?_⟩
  rw [by2pg]
  omega

/-- **One level of the walk**: the path leads to a table, and the other walks and all answers are what
they were. -/
structure Level (pud : Nat) (b : Boot) (path : List (Fin 512)) (b' : Boot) : Prop
    extends Tables pud b' where
  kept : TablesKept pud b b'
  old : ∀ is, is.length ≤ 2 → is ≠ path →
    Radix.walk hwDecode b'.mem pud is = Radix.walk hwDecode b.mem pud is
  answer : ∀ y, translate b'.mem pud y = translate b.mem pud y
  room : ∀ xs, path ∈ paths xs → Room b (missing b.mem pud xs).card →
    Room b' (missing b'.mem pud xs).card

/-- A path that is followed for the first time is missing no longer. -/
theorem missing_erase {m m' : Mem} {path : List (Fin 512)} {t : Nat} {xs : List Nat}
    (hnew : Radix.walk hwDecode m' pud path = .table t)
    (hold : ∀ is, is.length ≤ 2 → is ≠ path →
      Radix.walk hwDecode m' pud is = Radix.walk hwDecode m pud is) :
    missing m' pud xs = (missing m pud xs).erase path := by
  ext is
  simp only [missing, Finset.mem_filter, List.mem_toFinset, Finset.mem_erase]
  constructor
  · rintro ⟨hmem, hvoid⟩
    have hne : is ≠ path := by
      rintro rfl
      rw [hnew] at hvoid
      cases hvoid
    exact ⟨hne, hmem, (hold is (length_le_of_paths hmem) hne).symm.trans hvoid⟩
  · rintro ⟨hne, hmem, hvoid⟩
    exact ⟨hmem, (hold is (length_le_of_paths hmem) hne).trans hvoid⟩

/-- A missing path takes a page of the memory that is left. -/
theorem room_lt {xs : List Nat} {path : List (Fin 512)} (hF : round b.freemem by2pg = by2pg * F)
    (hmem : path ∈ missing b.mem pud xs) (hroom : Room b (missing b.mem pud xs).card) :
    0 < (missing b.mem pud xs).card ∧ by2pg * F + by2pg * (missing b.mem pud xs).card < maxpa := by
  have hpos : 0 < (missing b.mem pud xs).card := Finset.card_pos.mpr ⟨_, hmem⟩
  refine ⟨hpos, ?_⟩
  rw [← hF]
  exact hroom.resolve_left hpos.ne'

/-- **A table that is linked** at the next free page. -/
theorem Tables.link (h : Tables pud b) {is : List (Fin 512)} {i : Fin 512} (hn : is.length < 2)
    (hw : Radix.walk hwDecode b.mem pud is = .table g) (hv : ¬ Valid (b.mem g i))
    (hF : round b.freemem by2pg = by2pg * F) (hle : b.freemem ≤ by2pg * F)
    (hfree : b'.freemem = by2pg * (F + 1)) (hphys : by2pg * (F + 1) ≤ 2 ^ 48)
    (hm : ∀ x j, b'.mem x j
      = if x = g ∧ j = i then tableDesc F else if x = F then 0 else b.mem x j) :
    Level pud b (i :: is) b' ∧ Radix.walk hwDecode b'.mem pud (i :: is) = .table F := by
  have hvoid : Radix.walk hwDecode b.mem pud (i :: is) = .void :=
    (Radix.walk_cons hw).trans (hwDecode_void.mpr hv)
  have hold : ∀ x, Reached hwDecode {pud} AnyIndex 2 b.mem x → x ≠ F := by
    intro x hx
    have hbelow := h.below x hx
    simp only [by2pg] at hbelow hle
    omega
  have hg : Reached hwDecode {pud} AnyIndex 2 b.mem g := (path_any is).reached hn.le hw
  have hFg : F ≠ g := fun he => hold g hg he.symm
  have hempty : ∀ j, b'.mem F j = 0 := by
    intro j
    rw [hm, if_neg (fun hc => hFg hc.1), if_pos rfl]
  have hlink : Linked hwDecode {pud} AnyIndex 2 b.mem pud i is g F b'.mem :=
    { path := path_any _
      level := hn
      walk := hw
      void := hwDecode_void.mpr hv
      fresh := fun hF => hold F hF rfl
      names := by
        rw [hm, if_pos ⟨rfl, rfl⟩]
        exact hwDecode_tableDesc _ F
      empty := fun l j => hwDecode_void.mpr (by rw [hempty j]; exact not_valid_zero)
      other := fun x j hx hne => by rw [hm, if_neg hne, if_neg (hold x hx)] }
  have hnew := hlink.walk_new h.disjoint
  have hother : ∀ is', is'.length ≤ 2 → is' ≠ i :: is →
      Radix.walk hwDecode b'.mem pud is' = Radix.walk hwDecode b.mem pud is' :=
    fun is' hlen hne => hlink.walk_old h.disjoint (path_any is') hlen fun hc => hne hc.2
  have htables : Tables pud b' :=
    { disjoint := hlink.disjoint h.disjoint
      below := by
        intro x hx
        rw [hfree]
        rcases (hlink.reached_iff h.disjoint).mp hx with rfl | hx
        · exact le_rfl
        · have hbelow := h.below x hx
          simp only [by2pg] at hbelow hle ⊢
          omega
      phys := hfree ▸ hphys }
  refine ⟨?_, hnew⟩
  exact
    { toTables := htables
      kept := by
        intro is' f hlen hf
        refine (hother is' hlen ?_).trans hf
        rintro rfl
        rw [hvoid] at hf
        cases hf
      old := hother
      answer := by
        intro y
        rw [htables.translate_eq_read, h.translate_eq_read]
        refine if_congr Iff.rfl ?_ rfl
        exact hlink.read_eq h.disjoint _ _
          (fun j => by rw [hempty j]; exact pageAnswer_of_not_valid not_valid_zero) (path_any _) rfl
      room := by
        intro ys hys hr
        have hmem : i :: is ∈ missing b.mem pud ys :=
          Finset.mem_filter.mpr ⟨List.mem_toFinset.mpr hys, hvoid⟩
        obtain ⟨hpos, hspace⟩ := room_lt hF hmem hr
        refine .inr ?_
        rw [missing_erase hnew hother, Finset.card_erase_of_mem hmem, hfree, Boot.round_mul]
        simp only [by2pg] at hspace ⊢
        omega }

/-- **One level of `boot_pgdir_walk`**, where no block is in the way and memory is left. -/
theorem Tables.descend (h : Tables pud b) {is : List (Fin 512)} {i : Fin 512} (hn : is.length < 2)
    (hw : Radix.walk hwDecode b.mem pud is = .table g)
    (hblock : ∀ r, Radix.walk hwDecode b.mem pud (i :: is) ≠ .final r) {xs : List Nat}
    (hxs : i :: is ∈ paths xs) (hroom : Room b (missing b.mem pud xs).card) :
    ∃ t b', b.descend ⟨g, i⟩ = .ok (t, b') ∧ Level pud b (i :: is) b' ∧
      Radix.walk hwDecode b'.mem pud (i :: is) = .table t := by
  have hcons : Radix.walk hwDecode b.mem pud (i :: is) = hwDecode is.length (b.mem g i) :=
    Radix.walk_cons hw
  rcases Decidable.em (Valid (b.mem g i)) with hv | hv
  · -- the table is there
    rcases valid_iff.mp hv with ht | hb
    · refine ⟨ppn (b.mem g i), b, if_pos hv,
        ⟨h, fun _ _ _ hf => hf, fun _ _ _ => rfl, fun _ => rfl, fun _ _ hr => hr⟩, ?_⟩
      rw [hcons]
      exact hwDecode_table.mpr ⟨ht, rfl⟩
    · exact absurd (hcons.trans (hwDecode_of_block hb)) (hblock _)
  obtain ⟨F, hF, hle⟩ := round_eq b
  obtain ⟨hpos, hspace⟩ := room_lt hF (Finset.mem_filter.mpr
    ⟨List.mem_toFinset.mpr hxs, hcons.trans (hwDecode_void.mpr hv)⟩) hroom
  have halloc := Boot.alloc_page hF
  rw [if_neg (by simp only [by2pg, maxpa, npage] at hspace ⊢; omega)] at halloc
  set b₁ : Boot := { mem := fun f i => if f = F then 0 else b.mem f i, freemem := by2pg * (F + 1) }
  have hphys : by2pg * (F + 1) ≤ 2 ^ 48 := by
    simp only [by2pg, maxpa] at hspace ⊢
    omega
  refine ⟨F, b₁.store ⟨g, i⟩ (tableDesc F), ?_, h.link hn hw hv hF hle rfl hphys fun _ _ => rfl⟩
  simp only [Boot.descend, Boot.load, hv, if_false, halloc, bind, Except.bind, pure, Except.pure,
    Boot.ppn_mul, Boot.or_pteAttrs]

end Level

/-! ## 2. One page -/

section Page

variable {b b' : Boot} {pud va pa x y : Nat}

theorem mem_paths {xs : List Nat} (hx : x ∈ xs) : [pudx x] ∈ paths xs ∧ pathOf x ∈ paths xs :=
  ⟨List.mem_flatMap.mpr ⟨x, hx, by simp⟩, List.mem_flatMap.mpr ⟨x, hx, by simp⟩⟩

/-- Two addresses below `2^39` have one entry when they lie in one page. -/
theorem entry_eq_iff (hx : x < 2 ^ 39) (hy : y < 2 ^ 39) :
    (ptex y = ptex x ∧ pathOf y = pathOf x) ↔ y / by2pg = x / by2pg := by
  simp only [pathOf, List.cons.injEq, and_true, Fin.ext_iff, pudx_val, pmdx_val, ptex_val, by2pg]
  omega

/-- A walk that is linked ends at no block, nor does one that is not. -/
theorem Level.noBlock {path is : List (Fin 512)} {t : Nat} (h : Level pud b path b')
    (hnew : Radix.walk hwDecode b'.mem pud path = .table t) (hlen : is.length ≤ 2)
    (hblock : ∀ r, Radix.walk hwDecode b.mem pud is ≠ .final r) :
    ∀ r, Radix.walk hwDecode b'.mem pud is ≠ .final r := by
  intro r hr
  rcases eq_or_ne is path with rfl | hne
  · rw [hnew] at hr
    cases hr
  · exact hblock r ((h.old is hlen hne).symm.trans hr)

/-- A leaf of the kernel. -/
theorem leaf_eq (hpa : by2pg ∣ pa) : (pa ||| pteV) ||| pteAttrs = tableDesc (ppn pa) ∧
    pageAnswer (tableDesc (ppn pa)) = some ⟨hwFrame pa, pteAttrs⟩ := by
  constructor
  · obtain ⟨f, rfl⟩ := hpa
    rw [Nat.or_assoc, show pteV ||| pteAttrs = pteAttrs by decide, Boot.or_pteAttrs, Boot.ppn_mul]
  · rw [pageAnswer, if_pos (isTable_tableDesc _), hwFrame, ppn_tableDesc, tableDesc,
      or_and_fff _ (by decide), hwFrame]

/-- **A round of the loop**: one page is mapped. -/
structure PageMapped (pud : Nat) (b : Boot) (x pa : Nat) (b' : Boot) : Prop extends Tables pud b' where
  kept : TablesKept pud b b'
  answer : ∀ y < 2 ^ 39, translate b'.mem pud y =
    if y / by2pg = x / by2pg then some ⟨hwFrame pa, pteAttrs⟩ else translate b.mem pud y
  noBlock : ∀ is : List (Fin 512), is.length ≤ 2 →
    (∀ r, Radix.walk hwDecode b.mem pud is ≠ .final r) →
    ∀ r, Radix.walk hwDecode b'.mem pud is ≠ .final r
  room : ∀ xs, x ∈ xs → Room b (missing b.mem pud xs).card → Room b' (missing b'.mem pud xs).card

/-- The store of the leaf. -/
theorem Tables.leaf {u : Nat} (h : Tables pud b) (hx : x < 2 ^ 39) (hpa : by2pg ∣ pa)
    (hw : Radix.walk hwDecode b.mem pud (pathOf x) = .table u) :
    PageMapped pud b x pa (b.store ⟨u, ptex x⟩ ((pa ||| pteV) ||| pteAttrs)) := by
  obtain ⟨hword, hanswer⟩ := leaf_eq hpa
  rw [hword]
  have hm : ∀ g j, (b.store ⟨u, ptex x⟩ (tableDesc (ppn pa))).mem g j
      = if g = u ∧ j = ptex x then tableDesc (ppn pa) else b.mem g j := fun _ _ => rfl
  have hstore : Stored hwDecode {pud} AnyIndex 2 b.mem pud (ptex x) (pathOf x) u
      (b.store ⟨u, ptex x⟩ (tableDesc (ppn pa))).mem :=
    ⟨path_any _, rfl, hw, fun g j _ hne => by rw [hm, if_neg hne]⟩
  have hwalk := fun (is : List (Fin 512)) (hlen : is.length ≤ 2) =>
    hstore.walk_eq h.disjoint (path_any is) hlen
  have htables : Tables pud (b.store ⟨u, ptex x⟩ (tableDesc (ppn pa))) :=
    { disjoint := hstore.disjoint h.disjoint
      below := fun f hf => h.below f ((hstore.reached_iff h.disjoint).mp hf)
      phys := h.phys }
  exact
    { toTables := htables
      kept := fun is f hlen hf => (hwalk is hlen).trans hf
      answer := by
        intro y hy
        rw [htables.translate_eq_read, h.translate_eq_read, if_pos hy]
        rcases Decidable.em (y / by2pg = x / by2pg) with he | he
        · obtain ⟨hk, hpath⟩ := (entry_eq_iff hx hy).mpr he
          rw [if_pos he, hk, hpath, hstore.read_self _ _ _ h.disjoint, hm, if_pos ⟨rfl, rfl⟩, hanswer]
        · rw [if_neg he, if_pos hy]
          exact hstore.read_other _ _ _ h.disjoint (path_any _) rfl
            fun hc => he ((entry_eq_iff hx hy).mp hc.2)
      noBlock := fun is hlen hblock r hr => hblock r ((hwalk is hlen).symm.trans hr)
      room := by
        intro xs _ hr
        have hsame : missing (b.store ⟨u, ptex x⟩ (tableDesc (ppn pa))).mem pud xs
            = missing b.mem pud xs := by
          ext is
          simp only [missing, Finset.mem_filter, List.mem_toFinset]
          refine and_congr_right fun hmem => ?_
          rw [hwalk is (length_le_of_paths hmem)]
        rw [hsame]
        exact hr }

/-- **A round of `boot_map_segment`.** -/
theorem Tables.mapPage (h : Tables pud b) {i : Nat} {xs : List Nat} (hx : va + i < 2 ^ 39)
    (hpa : by2pg ∣ pa + i) (hxs : va + i ∈ xs)
    (hblock : ∀ r, Radix.walk hwDecode b.mem pud (pathOf (va + i)) ≠ .final r)
    (hroom : Room b (missing b.mem pud xs).card) :
    ∃ b', Boot.mapPage pud va pa pteV b i = .ok b' ∧ PageMapped pud b (va + i) (pa + i) b' := by
  obtain ⟨hmem₁, hmem₂⟩ := mem_paths hxs
  have hblock₁ : ∀ r, Radix.walk hwDecode b.mem pud [pudx (va + i)] ≠ .final r :=
    fun r hr => hblock r (Radix.walk_cons_of_final hr)
  have hzero : ([] : List (Fin 512)).length < 2 := Nat.zero_lt_two
  have hone : [pudx (va + i)].length < 2 := Nat.one_lt_two
  obtain ⟨t, b₁, hd₁, hl₁, hw₁⟩ := h.descend hzero rfl hblock₁ hmem₁ hroom
  have hroom₁ := hl₁.room xs hmem₁ hroom
  have hblock₂ := hl₁.noBlock hw₁ (le_refl (pathOf (va + i)).length) hblock
  obtain ⟨u, b₂, hd₂, hl₂, hw₂⟩ :=
    hl₁.toTables.descend hone hw₁ hblock₂ hmem₂ hroom₁
  have hleaf := hl₂.toTables.leaf hx hpa hw₂
  refine ⟨_, ?_, ⟨hleaf.toTables, ?_, ?_, ?_, ?_⟩⟩
  · simp only [Boot.mapPage, Boot.pgdirWalk, hd₁, hd₂, bind, Except.bind, pure, Except.pure]
  · exact fun is f hlen hf => hleaf.kept is f hlen (hl₂.kept is f hlen (hl₁.kept is f hlen hf))
  · intro y hy
    rw [hleaf.answer y hy, hl₂.answer, hl₁.answer]
  · intro is hlen hb
    exact hleaf.noBlock is hlen (hl₂.noBlock hw₂ hlen (hl₁.noBlock hw₁ hlen hb))
  · intro ys hys hr
    obtain ⟨hy₁, hy₂⟩ := mem_paths hys
    exact hleaf.room ys hys (hl₂.room ys hy₂ (hl₁.room ys hy₁ hr))

end Page

/-! ## 3. The loop -/

/-- Less is missing for fewer addresses. -/
theorem Room.tail {b : Boot} {pud x : Nat} {xs : List Nat}
    (h : Room b (missing b.mem pud (x :: xs)).card) : Room b (missing b.mem pud xs).card := by
  have hsub : missing b.mem pud xs ⊆ missing b.mem pud (x :: xs) := by
    refine Finset.filter_subset_filter _ ?_
    intro is his
    rw [List.mem_toFinset] at his ⊢
    exact List.mem_append_right _ his
  have hle := Finset.card_le_card hsub
  rcases h with h0 | hlt
  · exact .inl (Nat.le_zero.mp (h0 ▸ hle))
  · exact .inr (lt_of_le_of_lt (Nat.add_le_add_left (Nat.mul_le_mul_left _ hle) _) hlt)

/-- **The loop of `boot_map_segment`**, over any offsets. -/
theorem Tables.mapPages {pud va pa : Nat} {l : List Nat} : ∀ {b : Boot}, Tables pud b →
    (∀ i ∈ l, va + i < 2 ^ 39 ∧ by2pg ∣ va + i ∧ by2pg ∣ pa + i ∧
      ∀ r, Radix.walk hwDecode b.mem pud (pathOf (va + i)) ≠ .final r) →
    Room b (missing b.mem pud (l.map (va + ·))).card →
    ∃ b', l.foldlM (Boot.mapPage pud va pa pteV) b = .ok b' ∧ Tables pud b' ∧
      TablesKept pud b b' ∧ ∀ y < 2 ^ 39, translate b'.mem pud y =
        if ∃ i ∈ l, y / by2pg = (va + i) / by2pg then some ⟨hwFrame (pa + (y - va)), pteAttrs⟩
        else translate b.mem pud y := by
  induction l with
  | nil =>
    intro b h _ _
    refine ⟨b, rfl, h, fun _ _ _ hf => hf, fun y _ => ?_⟩
    rw [if_neg (by simp)]
  | cons i l ih =>
    intro b h hl hroom
    obtain ⟨hx, hva, hpa, hblock⟩ := hl i List.mem_cons_self
    obtain ⟨b₁, he₁, hpage⟩ := h.mapPage hx hpa List.mem_cons_self hblock hroom
    have hl₁ : ∀ j ∈ l, va + j < 2 ^ 39 ∧ by2pg ∣ va + j ∧ by2pg ∣ pa + j ∧
        ∀ r, Radix.walk hwDecode b₁.mem pud (pathOf (va + j)) ≠ .final r := by
      intro j hj
      obtain ⟨h1, h2, h3, h4⟩ := hl j (List.mem_cons_of_mem i hj)
      exact ⟨h1, h2, h3, hpage.noBlock _ le_rfl h4⟩
    have hroom₁ := (hpage.room _ List.mem_cons_self hroom).tail
    obtain ⟨b', he', h', hkept, hanswer⟩ := ih hpage.toTables hl₁ hroom₁
    refine ⟨b', ?_, h', fun is f hlen hf => hkept is f hlen (hpage.kept is f hlen hf), fun y hy => ?_⟩
    · rw [List.foldlM_cons, he₁]
      exact he'
    · rw [hanswer y hy, hpage.answer y hy]
      rcases Decidable.em (∃ j ∈ l, y / by2pg = (va + j) / by2pg) with hex | hex
      · obtain ⟨j, hj, hyj⟩ := hex
        rw [if_pos ⟨j, hj, hyj⟩, if_pos ⟨j, List.mem_cons_of_mem i hj, hyj⟩]
      · rw [if_neg hex]
        rcases Decidable.em (y / by2pg = (va + i) / by2pg) with hyi | hyi
        · -- the offset in the page is below the frame number
          rw [if_pos hyi, if_pos ⟨i, List.mem_cons_self, hyi⟩]
          have hframe : hwFrame (pa + i) = hwFrame (pa + (y - va)) := by
            rw [hwFrame, hwFrame, ppn, ppn, Nat.shiftRight_eq_div_pow, Nat.shiftRight_eq_div_pow]
            simp only [by2pg] at hyi hva hpa
            omega
          rw [hframe]
        · rw [if_neg hyi, if_neg]
          rintro ⟨j, hj, hyj⟩
          rcases List.mem_cons.mp hj with rfl | hj
          · exact hyi hyj
          · exact hex ⟨j, hj, hyj⟩

/-- **`boot_map_segment` maps exactly its segment**, and does nothing when the size is no multiple of a
page. -/
theorem boot_map_segment_exact (b : Boot) (pud va size pa : Nat) :
    (by2pg ∣ size → Mappable b pud va size pa →
      ∃ b', b.mapSegment pud va size pa pteV = .ok b' ∧ SegmentMapped b pud va size pa b') ∧
    (¬ by2pg ∣ size → b.mapSegment pud va size pa pteV = .ok b) := by
  constructor
  · rintro ⟨n, rfl⟩ h
    have hn : by2pg * n / by2pg = n := Nat.mul_div_cancel_left n (by decide)
    have halignedVa := h.alignedVa
    have halignedPa := h.alignedPa
    have hrange := h.range
    have hl : ∀ i ∈ (List.range n).map (· * by2pg), va + i < 2 ^ 39 ∧ by2pg ∣ va + i ∧
        by2pg ∣ pa + i ∧ ∀ r, Radix.walk hwDecode b.mem pud (pathOf (va + i)) ≠ .final r := by
      intro i hi
      obtain ⟨k, hk, rfl⟩ := List.mem_map.mp hi
      have hk := List.mem_range.mp hk
      have hlt : k * by2pg < by2pg * n := by
        rw [Nat.mul_comm]
        exact Nat.mul_lt_mul_of_pos_left hk (by decide)
      exact ⟨by omega, Nat.dvd_add halignedVa (Nat.dvd_mul_left _ _),
        Nat.dvd_add halignedPa (Nat.dvd_mul_left _ _), h.noBlock _ hlt⟩
    have hroom := h.room
    rw [pagesOf, hn] at hroom
    obtain ⟨b', he, h', hkept, hanswer⟩ := h.toTables.mapPages hl hroom
    refine ⟨b', ?_, h', hkept, ?_, ?_⟩
    · rw [Boot.mapSegment, if_neg (by simp), hn]
      exact he
    · intro i hi
      have hex : ∃ j ∈ (List.range n).map (· * by2pg), (va + i) / by2pg = (va + j) / by2pg := by
        refine ⟨i / by2pg * by2pg, List.mem_map.mpr ⟨i / by2pg, ?_, rfl⟩, ?_⟩
        · rw [List.mem_range, by2pg] at *
          omega
        · rw [by2pg] at *
          omega
      rw [hanswer _ (by omega), if_pos hex, Nat.add_sub_cancel_left]
    · intro y hy hout
      have hnone : ¬ ∃ j ∈ (List.range n).map (· * by2pg), y / by2pg = (va + j) / by2pg := by
        rintro ⟨j, hj, hyj⟩
        obtain ⟨k, hk, rfl⟩ := List.mem_map.mp hj
        have hk := List.mem_range.mp hk
        simp only [by2pg] at *
        omega
      rw [hanswer y hy, if_neg hnone]
  · intro hsize
    rw [Boot.mapSegment, if_pos]
    exact fun h0 => hsize (Nat.dvd_of_mod_eq_zero h0)

/-! ## 4. The directory `boot_mmu_setup` leaves -/

/-- On clean memory only the used paths lead to tables. -/
theorem used_of_walk {L : Layout} {ram : Mem} (hclean : CleanRam L ram) {is : List (Fin 512)} {f : Nat}
    (hlen : is.length ≤ 2)
    (hw : Radix.walk hwDecode (Boot.mmuMem L ram) L.pgDir is = .table f) : Used is := by
  have hone : ∀ {i t}, Radix.walk hwDecode (Boot.mmuMem L ram) L.pgDir [i] = .table t →
      i = 0 ∧ t = L.pgDir + 1 ∨ i = 1 ∧ t = L.pgDir + 506 := by
    intro i t hi
    rcases eq_or_ne i 0 with rfl | h0
    · exact .inl ⟨rfl, Radix.Step.table.inj (hi.symm.trans (Boot.walk_ram L ram))⟩
    rcases eq_or_ne i 1 with rfl | h1
    · exact .inr ⟨rfl, Radix.Step.table.inj (hi.symm.trans (Boot.walk_window L ram))⟩
    · -- the other entries are what memory held
      have h2 : 2 ≤ i.val := by
        have hv0 : i.val ≠ 0 := fun h => h0 (Fin.ext h)
        have hv1 : i.val ≠ 1 := fun h => h1 (Fin.ext h)
        omega
      obtain ⟨ht, -⟩ := hwDecode_table.mp ((Radix.walk_cons rfl).symm.trans hi)
      rw [Boot.mmuMem, if_pos rfl, if_neg h0, if_neg h1] at ht
      exact absurd ht.valid (hclean.dir i h2)
  rcases is with _ | ⟨k, _ | ⟨i, _ | ⟨_, _⟩⟩⟩
  · exact .inl rfl
  · rcases hone hw with ⟨rfl, -⟩ | ⟨rfl, -⟩
    · exact .inr (.inl rfl)
    · exact .inr (.inr (.inl rfl))
  · obtain ⟨t, ht, hword⟩ := Radix.walk_cons_eq_table hw
    have hk := (hwDecode_table.mp hword).1
    rcases hone ht with ⟨rfl, rfl⟩ | ⟨rfl, rfl⟩
    · rw [Boot.mmuMem_table] at hk
      split at hk
      · rename_i hlt
        exact .inr (.inr (.inr ⟨k, hlt, rfl⟩))
      · exact absurd hk (not_isTable_deviceBlock _)
    · rcases eq_or_ne k 0 with rfl | hk0
      · rw [Boot.mmuMem_window] at hk
        exact absurd hk (not_isTable_deviceBlock _)
      · have hraw : Boot.mmuMem L ram (L.pgDir + 506) k = ram (L.pgDir + 506) k := by
          simp [Boot.mmuMem, hk0]
        rw [hraw] at hk
        exact absurd hk.valid (hclean.window k hk0)
  · exact absurd hlen (by simp)

/-- **The directory of the kernel is one to map segments in.** -/
theorem tables_mmuSetup {L : Layout} {ram : Mem} (hclean : CleanRam L ram) :
    Tables L.pgDir (Boot.mmuSetup L ram) := by
  rw [Boot.mmuSetup_eq L.fits]
  constructor
  · intro d is d' is' f hp hp' hn hn' hw hw'
    obtain rfl := Set.mem_singleton_iff.mp hp.1
    obtain rfl := Set.mem_singleton_iff.mp hp'.1
    have hu := used_of_walk hclean hn hw
    have hu' := used_of_walk hclean hn' hw'
    have he := Radix.Step.table.inj ((Boot.walk_used L ram hu).symm.trans hw)
    have he' := Radix.Step.table.inj ((Boot.walk_used L ram hu').symm.trans hw')
    exact ⟨rfl, hu'.tableNumber_inj hu (by omega)⟩
  · rintro f ⟨d, is, hp, hn, hw⟩
    obtain rfl := Set.mem_singleton_iff.mp hp.1
    have hu := used_of_walk hclean hn hw
    have hle := hu.tableNumber_le
    have he := Radix.Step.table.inj ((Boot.walk_used L ram hu).symm.trans hw)
    exact Nat.mul_le_mul_left _ (by omega)
  · have hK := L.fits
    simp only [by2pg]
    omega

/-- The tables that are missing are no more than the paths. -/
theorem card_missing_le (m : Mem) (pud : Nat) (xs : List Nat) :
    (missing m pud xs).card ≤ (paths xs).length :=
  (Finset.card_filter_le _ _).trans (List.toFinset_card_le _)

/-- Two pages across the boundary of a table. -/
theorem boot_map_segment_image : ∃ b',
    (Boot.mmuSetup image coldRam).mapSegment image.pgDir 0x501ff000 (by2pg * 2) 0x100000 pteV = .ok b' ∧
      SegmentMapped (Boot.mmuSetup image coldRam) image.pgDir 0x501ff000 (by2pg * 2) 0x100000 b' := by
  have hsetup := Boot.mmuSetup_eq image.fits coldRam
  refine (boot_map_segment_exact _ _ _ _ _).1 (by decide)
    ⟨tables_mmuSetup cleanRam_coldRam, by decide, by decide, by decide, ?_, ?_⟩
  · -- the window table holds nothing there
    intro i hi r hr
    have hi' : i < 8192 := hi
    have hpud : pudx (0x501ff000 + i) = 1 := by
      ext
      rw [pudx_val, Fin.val_one]
      omega
    have hpmd : pmdx (0x501ff000 + i) ≠ 0 := by
      intro h0
      have hv := congrArg Fin.val h0
      rw [pmdx_val, Fin.val_zero] at hv
      omega
    rw [hsetup, pathOf, hpud, Radix.walk_cons (Boot.walk_window image coldRam)] at hr
    have hvoid : Boot.mmuMem image coldRam (image.pgDir + 506) (pmdx (0x501ff000 + i)) = 0 := by
      simp [Boot.mmuMem, hpmd, coldRam]
    rw [hvoid] at hr
    cases hr
  · have hcard : (missing (Boot.mmuSetup image coldRam).mem image.pgDir
        (pagesOf 0x501ff000 (by2pg * 2))).card ≤ 4 := card_missing_le _ _ _
    have hfree : round (Boot.mmuSetup image coldRam).freemem by2pg = by2pg * 763 := by
      rw [hsetup]
      rfl
    refine .inr ?_
    rw [hfree]
    exact lt_of_le_of_lt (Nat.add_le_add_left (Nat.mul_le_mul_left by2pg hcard) _) (by decide)

end RaspiOS
