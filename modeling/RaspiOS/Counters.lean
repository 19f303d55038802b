/-
# The reference counters and their sixteen bits

`pp_ref` is an `unsigned short`.  On a forest it counts the leaves that map a frame, so a `--` never
finds it at zero; but nothing bounds the number of leaves, and a `++` may find it at 65535.  This
module goes through the accesses of the system calls that change mappings (`Access.lean`) and says
when that happens: `Counts` is the case in which `page_insert` adds a mapping, and a run in which it
does so below 65535 only keeps the counters right for ever (`ppRef_never_wraps`).  A run of
`sys_mem_map` that maps one page 65535 times is in `ppRef_wraps`.
-/
import RaspiOS.Access
import RaspiOS.Isolation
import RaspiOS.Progress

set_option autoImplicit false

namespace RaspiOS

open LinkedList

/-! ## 1. Counting without wrapping -/

/-- The access does not take a counter from 65535 to 0 or back. -/
def Phys.NoWrap (p : Phys) : Access → Prop
  | .incRef pp => p.ppRef pp ≠ 2 ^ 16 - 1
  | .decRef pp => p.ppRef pp ≠ 0
  | _ => True

/-- No access of the list does. -/
abbrev Phys.NoWraps : Phys → List Access → Prop := Phys.Along Phys.NoWrap

/-- `page_insert` is going to count one more mapping of `pp`: the page is not mapped to it already,
and the tables are there or can be made. -/
def Phys.Counts (p : Phys) (pud pp va : Nat) : Prop :=
  ¬ (p.walk pud va ≠ .null ∧ Valid (p.load (p.walk pud va)) ∧
      ppn (p.load (p.walk pud va)) = pp) ∧ (p.pgdirWalk pud va true).1.1 = 0

instance (p : Phys) (pud pp va : Nat) : Decidable (p.Counts pud pp va) :=
  inferInstanceAs (Decidable (_ ∧ _))

section Traces

variable {L : Layout} {base : Nat} {km : Mem} {ρ : Nat → Role} {p : Phys} {d t u va pp perm : Nat}
  {i : Fin 512}

/-- Clearing a frame counts nothing. -/
theorem noWraps_pageAlloc {f : Nat} {as : List Access} (h : p.pageAllocTrace = some (f, as)) :
    p.NoWraps as ∧ ∀ g, Access.link g ∉ as := by
  unfold Phys.pageAllocTrace at h
  split at h
  · cases h
    have hst : ∀ a ∈ Phys.bzeroTrace f, ∃ k, a = Access.store ⟨f, k⟩ 0 := by
      intro a ha
      obtain ⟨k, _, rfl⟩ := List.mem_map.mp ha
      exact ⟨k, rfl⟩
    refine ⟨.cons trivial (.of_forall fun a ha q => ?_), fun g hg => ?_⟩
    · obtain ⟨k, rfl⟩ := hst a ha
      trivial
    · rcases List.mem_cons.mp hg with hg | hg
      · cases hg
      · obtain ⟨k, hk⟩ := hst _ hg
        cases hk
  · cases h

/-- One level of the walk counts the new table, and nothing else. -/
theorem noWraps_descend {a : Ptr} (hz : ∀ f q, p.pageAlloc = some (f, q) → q.ppRef f = 0) :
    p.NoWraps (p.descendTrace a true).2 ∧ ∀ g, Access.link g ∉ (p.descendTrace a true).2 := by
  unfold Phys.descendTrace
  split
  · exact ⟨.nil p, fun _ hg => by cases hg⟩
  · rw [if_pos rfl]
    cases ht : p.pageAllocTrace with
    | none => exact ⟨.nil p, fun _ hg => by cases hg⟩
    | some x =>
      obtain ⟨f, as⟩ := x
      obtain ⟨q, hq, he, _⟩ := Phys.accesses_pageAlloc ht
      obtain ⟨hn, hl⟩ := noWraps_pageAlloc ht
      refine ⟨hn.append (.cons trivial (.cons ?_ (.nil _))), fun g hg => ?_⟩
      · rw [he]
        change q.ppRef f ≠ 2 ^ 16 - 1
        rw [hz f q hq]
        decide
      · rcases List.mem_append.mp hg with hg | hg
        · exact hl g hg
        · simp at hg

/-- On a forest a frame that is handed out has counter zero. -/
theorem Forest.alloc_zero (h : Forest L base km ρ p) {f : Nat} {q : Phys}
    (hq : p.pageAlloc = some (f, q)) : q.ppRef f = 0 := by
  obtain ⟨_, hfree, href, _⟩ := h.take hq
  rw [href, h.ppRef_free hfree]

/-- **The walk with creation** counts the tables it makes. -/
theorem Forest.noWraps_walk (h : Forest L base km ρ p) (hd : ρ d = .dir) (hva : UserVa va) :
    p.NoWraps (p.pgdirWalkTrace d va true).2 ∧
      ∀ g, Access.link g ∉ (p.pgdirWalkTrace d va true).2 := by
  obtain ⟨hs, hl⟩ := noWraps_descend (a := ⟨d, pudx va⟩) fun f q hq => h.alloc_zero hq
  have htr := Phys.descend_trace p ⟨d, pudx va⟩ true
  unfold Phys.pgdirWalkTrace
  rcases hd1 : p.descendTrace ⟨d, pudx va⟩ true with ⟨_ | t, as⟩
  · rw [hd1] at hs hl
    exact ⟨hs, hl⟩
  · rw [hd1] at hs hl htr
    rcases h.descendPmd (i := pudx va) hd hva with ⟨t', n, ρ1, p1, he, ht, hg, _⟩ | ⟨he, _⟩
    · obtain ⟨hsome, rfl⟩ : some t' = some t ∧ p1 = p.accesses as :=
        Prod.mk.inj (he.symm.trans htr)
      obtain rfl := Option.some.inj hsome
      obtain ⟨hs', hl'⟩ := noWraps_descend (p := p.accesses as) (a := ⟨t', pmdx va⟩)
        fun f q hq => hg.forest.alloc_zero hq
      dsimp only
      rcases hd2 : (p.accesses as).descendTrace ⟨t', pmdx va⟩ true with ⟨_ | u, bs⟩ <;>
        rw [hd2] at hs' hl' <;>
        exact ⟨hs.append hs', fun g hg => (List.mem_append.mp hg).elim (hl g) (hl' g)⟩
    · cases he.symm.trans htr

/-- On a forest, a page that is mapped has a counter above zero. -/
theorem Forest.ppRef_mapped (h : Forest L base km ρ p) (hu : Leads ρ d (pageOf va) u)
    (hv : Valid (p.mem u (ptex va))) : p.ppRef (ppn (p.mem u (ptex va))) ≠ 0 := by
  obtain ⟨t, _, hut⟩ := hu
  have hpage := h.page_of_leaf hut hv
  have hpos := h.leafCount_pos hut hv
  have hc := h.count _ (h.lt_npage (by rintro hk; rw [hk] at hpage; exact hpage))
  omega

/-- `page_remove` where a page is mapped. -/
theorem Forest.removeTrace (h : Forest L base km ρ p) (hd : ρ d = .dir) (hva : UserVa va)
    (hu : Leads ρ d (pageOf va) u) (hv : Valid (p.mem u (ptex va))) :
    let old := ppn (p.mem u (ptex va))
    p.pageRemoveTrace d va = .ok (.decRef old :: (p.decRef old).pageFreeTrace old ++
      [.store ⟨u, ptex va⟩ 0, .tlbInvalidate]) := by
  rcases h.pageLookup hd hva with ⟨hnone, _⟩ | ⟨v, hv1, _, _, he⟩
  · have hs : space p.mem d (pageOf va) = some (p.mem u (ptex va)) :=
      (h.space_of_leads hu).trans (if_pos hv)
    rw [hnone] at hs
    cases hs
  · obtain rfl := h.leads_unique hu hv1
    unfold Phys.pageRemoveTrace
    rw [he]
    rfl

/-- `page_remove` where none is. -/
theorem removeTrace_none (he : p.pageLookup d va = .ok none) : p.pageRemoveTrace d va = .ok [] := by
  unfold Phys.pageRemoveTrace
  rw [he]
  rfl

/-- The accesses of `page_free`. -/
theorem noWraps_pageFree (q : Phys) (f : Nat) : q.NoWraps (q.pageFreeTrace f) := by
  unfold Phys.pageFreeTrace
  split
  · exact .nil q
  · exact .cons trivial (.nil _)

theorem link_pageFree {q : Phys} {f g : Nat} (h : Access.link g ∈ q.pageFreeTrace f) :
    g = f ∧ q.pageFreeTrace f = [.link f] := by
  unfold Phys.pageFreeTrace at h ⊢
  split at h
  · cases h
  · rename_i h0
    rw [if_neg h0]
    simp only [List.mem_singleton, Access.link.injEq] at h
    exact ⟨h, rfl⟩

/-- What is first on the free list at the end is free. -/
theorem Forest.free_of_link {ρ' : Nat → Role} {q : Phys} {f : Nat} {l : Links Unit Nat}
    (h : Forest L base km ρ' q) (hl : q.pageFreeList = l.insertHead () f) : ρ' f = .free := by
  refine h.first_free ?_
  rw [hl]
  exact (Links.get_insertHead l () f (.head ())).trans (if_pos rfl)

/-- **`page_remove`** never counts below zero; a page it gives back is the new head of the free
list, and the other counters stay. -/
theorem Forest.remove_counts (h : Forest L base km ρ p) (hd : ρ d = .dir) (hva : UserVa va) :
    ∃ as ρ', p.pageRemoveTrace d va = .ok as ∧ p.NoWraps as ∧
      Forest L base km ρ' (p.accesses as) ∧ Local ρ d p ρ' (p.accesses as) ∧
      (∀ f, Access.link f ∈ as →
        (p.accesses as).pageFreeList = p.pageFreeList.insertHead () f) ∧
      ∀ f, (∀ w, space p.mem d (pageOf va) = some w → f ≠ ppn w) →
        (p.accesses as).ppRef f = p.ppRef f := by
  obtain ⟨ρ', p', he, h', hl, _, hrest⟩ := h.pageRemove hd hva
  rw [Phys.pageRemove_trace] at he
  obtain ⟨as, has, rfl⟩ := Except.map_eq_ok_iff.mp he
  refine ⟨as, ρ', has, ?_, h', hl, ?_, fun f hf => (hrest f hf).2⟩ <;>
    rcases h.pageLookup hd hva with ⟨_, hlk⟩ | ⟨u, hu, hv, _, _⟩
  · obtain rfl := Except.ok.inj (has.symm.trans (removeTrace_none hlk))
    exact .nil p
  · obtain rfl := Except.ok.inj (has.symm.trans (h.removeTrace hd hva hu hv))
    exact .cons (h.ppRef_mapped hu hv)
      ((noWraps_pageFree _ _).append (.cons trivial (.cons trivial (.nil _))))
  · obtain rfl := Except.ok.inj (has.symm.trans (removeTrace_none hlk))
    exact fun f hf => by cases hf
  · obtain rfl := Except.ok.inj (has.symm.trans (h.removeTrace hd hva hu hv))
    generalize ppn (p.mem u (ptex va)) = old
    intro f hf
    have hf : Access.link f ∈ (p.decRef old).pageFreeTrace old := by simpa using hf
    obtain ⟨rfl, hlink⟩ := link_pageFree hf
    simp only [hlink]
    rfl

/-- `page_insert` where the page is mapped to the frame already. -/
theorem Forest.insertTrace_same (h : Forest L base km ρ p) (hu : Leads ρ d (pageOf va) u)
    (hv : Valid (p.mem u (ptex va))) (hsame : ppn (p.mem u (ptex va)) = pp) :
    p.pageInsertTrace d pp va perm =
      .ok (0, [.tlbInvalidate, .store ⟨u, ptex va⟩ (leafDesc pp perm)]) := by
  obtain ⟨hcond, hold⟩ := h.walk_mapped hu hv
  unfold Phys.pageInsertTrace
  dsimp only
  rw [if_pos hcond]
  refine Except.bind_eq_ok_iff.mpr ⟨_, hold, ?_⟩
  rw [if_neg (not_not.mpr hsame), h.walk_of_leads' hu]
  rfl

/-- The tail of `page_insert` where the tables are there. -/
theorem Forest.enterTrace (h : Forest L base km ρ p) (hu : Leads ρ d (pageOf va) u) :
    p.pageEnterTrace d pp va perm =
      (0, [.tlbInvalidate, .store ⟨u, ptex va⟩ (leafDesc pp perm), .incRef pp]) := by
  obtain ⟨h1, h2, h3⟩ := h.walk_of_leads hu
  simp only [pageOf] at h1 h2 h3
  simp only [Phys.pageEnterTrace, Phys.pgdirWalkTrace, Phys.descendTrace_valid h1,
    Phys.accesses_nil, Phys.descendTrace_valid h2, h3]
  rfl

/-- `page_insert` where the page is mapped to another frame. -/
theorem Forest.insertTrace_other {ρ' : Nat → Role} {as : List Access} (h : Forest L base km ρ p)
    (hu : Leads ρ d (pageOf va) u) (hv : Valid (p.mem u (ptex va)))
    (hne : ppn (p.mem u (ptex va)) ≠ pp) (has : p.pageRemoveTrace d va = .ok as)
    (h' : Forest L base km ρ' (p.accesses as)) (hl : Local ρ d p ρ' (p.accesses as)) :
    p.pageInsertTrace d pp va perm = .ok (0, as ++
      [.tlbInvalidate, .store ⟨u, ptex va⟩ (leafDesc pp perm), .incRef pp]) := by
  obtain ⟨hcond, hold⟩ := h.walk_mapped hu hv
  unfold Phys.pageInsertTrace
  dsimp only
  rw [if_pos hcond]
  refine Except.bind_eq_ok_iff.mpr ⟨_, hold, ?_⟩
  rw [if_pos hne]
  refine Except.bind_eq_ok_iff.mpr ⟨as, has, ?_⟩
  rw [h'.enterTrace (hu.of_local hl)]
  rfl

/-- `page_insert` where nothing is mapped. -/
theorem Forest.insertTrace_enter (h : Forest L base km ρ p) (hd : ρ d = .dir) (hva : UserVa va)
    (hnone : space p.mem d (pageOf va) = none) :
    p.pageInsertTrace d pp va perm = .ok (p.pageEnterTrace d pp va perm) := by
  unfold Phys.pageInsertTrace
  exact if_neg (h.walk_unmapped hd hva hnone)

/-- The outcomes of the walk with creation, with the accesses that lead there. -/
theorem Forest.walkTrace (h : Forest L base km ρ p) (hd : ρ d = .dir) (hva : UserVa va) :
    (∃ u n ρ1 as, p.pgdirWalkTrace d va true = ((0, ⟨u, ptex va⟩), as) ∧
      Leads ρ1 d (pageOf va) u ∧ Grown L base km ρ d p n ρ1 (p.accesses as)) ∨
    ∃ n ρ1 as, p.pgdirWalkTrace d va true = ((-eNoMem, .null), as) ∧
      Grown L base km ρ d p n ρ1 (p.accesses as) ∧ n ≤ 1 ∧
      (p.accesses as).pageFreeList.first () = none := by
  have hw := Phys.pgdirWalk_trace p d va true
  rcases hx : p.pgdirWalkTrace d va true with ⟨x, as⟩
  rw [hx] at hw
  rcases h.pgdirWalk hd hva with
    ⟨u, n, ρ1, p1, he, hu, hg, _⟩ | ⟨n, ρ1, p1, he, _, hfirst, hg, hle⟩
  · obtain ⟨rfl, rfl⟩ := Prod.mk.inj (hw.symm.trans he)
    exact Or.inl ⟨u, n, ρ1, as, rfl, hu, hg⟩
  · obtain ⟨rfl, rfl⟩ := Prod.mk.inj (hw.symm.trans he)
    exact Or.inr ⟨n, ρ1, as, rfl, hg, hle, hfirst⟩

/-- **`page_insert`** never wraps a counter, provided the one of the page is below 65535 where it
counts a mapping; a page it gives back is free. -/
theorem Forest.insert_counts (h : Forest L base km ρ p) (hd : ρ d = .dir) (hva : UserVa va)
    (hpp : (ρ pp).IsPage) (hperm : PermOk pp perm)
    (hc : p.Counts d pp va → p.ppRef pp ≠ 2 ^ 16 - 1) :
    ∃ r as ρ', p.pageInsertTrace d pp va perm = .ok (r, as) ∧ p.NoWraps as ∧
      Forest L base km ρ' (p.accesses as) ∧ Local ρ d p ρ' (p.accesses as) ∧
      ∀ f, Access.link f ∈ as → ρ' f = .free := by
  have hbound := h.bound pp
  have htr := Phys.pageInsert_trace p d pp va perm
  cases hs : space p.mem d (pageOf va) with
  | some w =>
    obtain ⟨u, hu, rfl, hv⟩ := h.toShape.leads_of_space (g := pageOf va) hd hva hs
    obtain ⟨hcond, hold⟩ := h.walk_mapped hu hv
    rcases eq_or_ne (ppn (p.mem u (ptex va))) pp with hsame | hne
    · -- the entry is rewritten
      obtain ⟨_, hins⟩ := h.pageInsert_same hd hu hv hsame hperm
      exact ⟨0, _, ρ, h.insertTrace_same hu hv hsame, .cons trivial (.cons trivial (.nil _)),
        hins.forest, hins.frame, fun f hf => by simp at hf⟩
    · -- the old page is removed first
      obtain ⟨as, ρ1, has, hn, h1, hl1, hlink, href⟩ := h.remove_counts hd hva
      have ht : p.pageInsertTrace d pp va perm = _ := h.insertTrace_other hu hv hne has h1 hl1
      have hcount : p.ppRef pp ≠ 2 ^ 16 - 1 := by
        refine hc ⟨fun hk => hne ?_, ?_⟩
        · rw [← hk.2.2, h.walk_of_leads' hu]
          rfl
        · rw [h.pgdirWalk_of_leads hu]
      rw [ht] at htr
      obtain ⟨ρ', h', hl'⟩ := h.insert_ok hd hva hpp (by omega) hperm htr
      refine ⟨0, _, ρ', ht, hn.append ?_, h', hl', fun f hf => ?_⟩
      · refine .cons trivial (.cons trivial (.cons ?_ (.nil _)))
        change (p.accesses as).ppRef pp ≠ 2 ^ 16 - 1
        rwa [href pp fun w hw => by
          cases hs.symm.trans hw
          exact hne.symm]
      · have hf : Access.link f ∈ as := by simpa using hf
        refine h'.free_of_link (l := p.pageFreeList) ?_
        rw [Phys.accesses_append, ← hlink f hf]
        rfl
  | none =>
    have ht : p.pageInsertTrace d pp va perm = _ := h.insertTrace_enter hd hva hs
    obtain ⟨hn, hl⟩ := h.noWraps_walk hd hva
    have huse : ρ pp ≠ .free := by
      intro hk
      rw [hk] at hpp
      exact hpp
    unfold Phys.pageEnterTrace at ht
    rcases h.walkTrace hd hva with ⟨u, n, ρ1, as, he, hu, hg⟩ | ⟨n, ρ1, as, he, hg, _⟩
    · -- the tables are there now
      rw [he] at ht hn hl
      have hcount : p.ppRef pp ≠ 2 ^ 16 - 1 := by
        refine hc ⟨fun hk => h.walk_unmapped hd hva hs ⟨hk.1, hk.2.1⟩, ?_⟩
        rw [Phys.pgdirWalk_trace, he]
      rw [ht] at htr
      obtain ⟨ρ', h', hl'⟩ := h.insert_ok hd hva hpp (by omega) hperm htr
      refine ⟨0, _, ρ', ht, ?_, h', hl', fun f hf => ?_⟩
      · refine .cons trivial (hn.append (.cons trivial (.cons ?_ (.nil _))))
        change (p.accesses as).ppRef pp ≠ 2 ^ 16 - 1
        rwa [hg.ppRef pp huse]
      · exact absurd (by simpa using hf) (hl f)
    · -- memory has run out
      rw [he] at ht hn hl
      exact ⟨_, _, ρ1, ht, .cons trivial hn, hg.forest, hg.frame,
        fun f hf => absurd (by simpa using hf) (hl f)⟩

end Traces

/-! ## 2. The accesses of the system calls -/

/-- The four calls that map and unmap pages. -/
def Syscall.MapsPages : Syscall → Prop
  | .memAlloc _ _ _ | .memMap _ _ _ _ _ | .memUnmap _ _ | .ipcCanSend _ _ _ _ => True
  | _ => False

namespace Kernel

/-- `sys_mem_alloc`. -/
def memAllocTrace (s : Kernel) (envid va perm : Nat) : Except Halt (List Access) :=
  if perm &&& pteV = 0 then .ok []
  else
    match s.phys.pageAllocTrace with
    | none => .ok []
    | some (ppage, as) =>
      match s.envid2env envid true with
      | none => .ok as
      | some env => do
        let (_, bs) ← (s.phys.accesses as).pageInsertTrace (s.envs env).envPgdir ppage va perm
        return as ++ bs

/-- `sys_mem_map`. -/
def memMapTrace (s : Kernel) (srcid srcva dstid dstva perm : Nat) : Except Halt (List Access) :=
  match s.envid2env srcid true with
  | none => .ok []
  | some srcenv =>
    match s.envid2env dstid true with
    | none => .ok []
    | some dstenv =>
      if perm &&& pteV = 0 then .ok []
      else do
        match ← s.phys.pageLookup (s.envs srcenv).envPgdir (rounddown srcva by2pg) with
        | none => return []
        | some (ppage, _) =>
          let (_, as) ← s.phys.pageInsertTrace (s.envs dstenv).envPgdir ppage
            (rounddown dstva by2pg) perm
          return as

/-- `sys_mem_unmap`. -/
def memUnmapTrace (s : Kernel) (envid va : Nat) : Except Halt (List Access) :=
  match s.envid2env envid true with
  | none => .ok []
  | some env => s.phys.pageRemoveTrace (s.envs env).envPgdir va

/-- `sys_ipc_can_send`. -/
def ipcCanSendTrace (s : Kernel) (envid srcva perm : Nat) : Except Halt (List Access) :=
  match s.curenv with
  | none => .error .noEnv
  | some c =>
    match s.envid2env envid false with
    | none => .ok []
    | some e =>
      if (s.envs e).envStatus ≠ .notRunnable ∨ (s.envs e).envIpcRecving = 0 then .ok []
      else if utop ≤ srcva then .ok []
      else if srcva ≠ 0 then do
        match ← s.phys.pageLookup (s.envs c).envPgdir srcva with
        | none => return []
        | some (p, _) =>
          let (_, as) ← s.phys.pageInsertTrace (s.envs e).envPgdir p (s.envs e).envIpcDstva perm
          return as
      else .ok []

/-- The accesses of a call that maps or unmaps pages. -/
def pageTrace (s : Kernel) : Syscall → Except Halt (List Access)
  | .memAlloc envid va perm => s.memAllocTrace envid va perm
  | .memMap srcid srcva dstid dstva perm => s.memMapTrace srcid srcva dstid dstva perm
  | .memUnmap envid va => s.memUnmapTrace envid va
  | .ipcCanSend envid _ srcva perm => s.ipcCanSendTrace envid srcva perm
  | _ => .ok []

variable {s s' : Kernel} {x : Exit}

theorem sysMemAlloc_trace {envid va perm : Nat} (h : s.sysMemAlloc envid va perm = .ok (x, s')) :
    ∃ as, s.memAllocTrace envid va perm = .ok as ∧ s'.phys = s.phys.accesses as := by
  unfold sysMemAlloc at h
  unfold memAllocTrace
  split at h
  · rename_i h0
    rw [if_pos h0]
    cases h
    exact ⟨[], rfl, rfl⟩
  · rename_i h0
    rw [if_neg h0]
    have ha := Phys.pageAlloc_trace s.phys
    cases hp : s.phys.pageAllocTrace with
    | none =>
      rw [hp] at ha
      simp only [ha, Option.map_none] at h
      cases h
      exact ⟨[], rfl, rfl⟩
    | some a =>
      obtain ⟨ppage, as⟩ := a
      rw [hp] at ha
      have hid : ({ s with phys := s.phys.accesses as } : Kernel).envid2env envid true =
        s.envid2env envid true := rfl
      simp only [ha, Option.map_some, hid] at h
      cases he : s.envid2env envid true with
      | none =>
        rw [he] at h
        cases h
        exact ⟨as, rfl, rfl⟩
      | some env =>
        rw [he] at h
        obtain ⟨⟨ret, phys⟩, hi, h⟩ := Except.bind_eq_ok_iff.mp h
        cases h
        rw [Phys.pageInsert_trace] at hi
        obtain ⟨⟨ret, bs⟩, hi', hb⟩ := Except.map_eq_ok_iff.mp hi
        cases hb
        refine ⟨as ++ bs, Except.bind_eq_ok_iff.mpr ⟨_, hi', rfl⟩, ?_⟩
        rw [Phys.accesses_append]

theorem sysMemMap_trace {srcid srcva dstid dstva perm : Nat}
    (h : s.sysMemMap srcid srcva dstid dstva perm = .ok (x, s')) :
    ∃ as, s.memMapTrace srcid srcva dstid dstva perm = .ok as ∧ s'.phys = s.phys.accesses as := by
  unfold sysMemMap at h
  unfold memMapTrace
  dsimp only at h
  cases hsrc : s.envid2env srcid true with
  | none =>
    rw [hsrc] at h
    cases h
    exact ⟨[], rfl, rfl⟩
  | some srcenv =>
    cases hdst : s.envid2env dstid true with
    | none =>
      rw [hsrc, hdst] at h
      cases h
      exact ⟨[], rfl, rfl⟩
    | some dstenv =>
      rw [hsrc, hdst] at h
      dsimp only at h ⊢
      split at h
      · rename_i h0
        rw [if_pos h0]
        cases h
        exact ⟨[], rfl, rfl⟩
      · rename_i h0
        rw [if_neg h0]
        obtain ⟨l, hl, h⟩ := Except.bind_eq_ok_iff.mp h
        rcases l with _ | ⟨ppage, a⟩
        · cases h
          exact ⟨[], Except.bind_eq_ok_iff.mpr ⟨none, hl, rfl⟩, rfl⟩
        · obtain ⟨⟨ret, phys⟩, hi, h⟩ := Except.bind_eq_ok_iff.mp h
          cases h
          rw [Phys.pageInsert_trace] at hi
          obtain ⟨⟨ret, as⟩, hi', hb⟩ := Except.map_eq_ok_iff.mp hi
          cases hb
          exact ⟨as, Except.bind_eq_ok_iff.mpr
            ⟨some (ppage, a), hl, Except.bind_eq_ok_iff.mpr ⟨_, hi', rfl⟩⟩, rfl⟩

theorem sysMemUnmap_trace {envid va : Nat} (h : s.sysMemUnmap envid va = .ok (x, s')) :
    ∃ as, s.memUnmapTrace envid va = .ok as ∧ s'.phys = s.phys.accesses as := by
  unfold sysMemUnmap at h
  unfold memUnmapTrace
  cases he : s.envid2env envid true with
  | none =>
    rw [he] at h
    cases h
    exact ⟨[], rfl, rfl⟩
  | some env =>
    rw [he] at h
    obtain ⟨phys, hr, h⟩ := Except.bind_eq_ok_iff.mp h
    cases h
    rw [Phys.pageRemove_trace] at hr
    obtain ⟨as, hr', rfl⟩ := Except.map_eq_ok_iff.mp hr
    exact ⟨as, hr', rfl⟩

theorem sysIpcCanSend_trace {envid value srcva perm : Nat}
    (h : s.sysIpcCanSend envid value srcva perm = .ok (x, s')) :
    ∃ as, s.ipcCanSendTrace envid srcva perm = .ok as ∧ s'.phys = s.phys.accesses as := by
  unfold sysIpcCanSend at h
  unfold ipcCanSendTrace
  cases hc : s.curenv with
  | none =>
    rw [hc] at h
    cases h
  | some c =>
    cases he : s.envid2env envid false with
    | none =>
      rw [hc, he] at h
      cases h
      exact ⟨[], rfl, rfl⟩
    | some e =>
      rw [hc, he] at h
      dsimp only at h ⊢
      split at h
      · rename_i h0
        rw [if_pos h0]
        cases h
        exact ⟨[], rfl, rfl⟩
      rename_i h0
      rw [if_neg h0]
      split at h
      · rename_i h1
        rw [if_pos h1]
        cases h
        exact ⟨[], rfl, rfl⟩
      rename_i h1
      rw [if_neg h1]
      split at h
      · rename_i h2
        rw [if_pos h2]
        obtain ⟨l, hl, h⟩ := Except.bind_eq_ok_iff.mp h
        rcases l with _ | ⟨p, a⟩
        · cases h
          exact ⟨[], Except.bind_eq_ok_iff.mpr ⟨none, hl, rfl⟩, rfl⟩
        · obtain ⟨⟨r, phys⟩, hi, h⟩ := Except.bind_eq_ok_iff.mp h
          rw [Phys.pageInsert_trace] at hi
          obtain ⟨⟨r, as⟩, hi', hb⟩ := Except.map_eq_ok_iff.mp hi
          cases hb
          refine ⟨as, Except.bind_eq_ok_iff.mpr
            ⟨some (p, a), hl, Except.bind_eq_ok_iff.mpr ⟨_, hi', rfl⟩⟩, ?_⟩
          dsimp only at h
          split at h <;> cases h <;> rfl
      · rename_i h2
        rw [if_neg h2]
        cases h
        exact ⟨[], rfl, rfl⟩

/-- **The calls do what their lists say.** -/
theorem pageTrace_ok {call : Syscall} (hcall : call.MapsPages) (h : s.syscall call = .ok (x, s')) :
    ∃ as, s.pageTrace call = .ok as ∧ s'.phys = s.phys.accesses as := by
  cases call with
  | memAlloc envid va perm => exact sysMemAlloc_trace h
  | memMap srcid srcva dstid dstva perm => exact sysMemMap_trace h
  | memUnmap envid va => exact sysMemUnmap_trace h
  | ipcCanSend envid value srcva perm => exact sysIpcCanSend_trace h
  | _ => exact absurd hcall id

/-! ## 3. The statement -/

/-- The steps the statement is about: in the four calls, addresses of the user half, and `PTE_V` for
the permission; any other step keeps the discipline. -/
def Mapping (s : Kernel) : Event → Prop
  | .svc _ (.memAlloc _ va perm) => UserVa va ∧ perm = pteV
  | .svc _ (.memMap _ srcva _ dstva perm) => UserVa srcva ∧ UserVa dstva ∧ perm = pteV
  | .svc _ (.memUnmap _ va) => UserVa va
  | .svc _ (.ipcCanSend envid _ srcva perm) => srcva ≠ 0 → UserVa srcva ∧ perm = pteV ∧
      ∀ e, s.envid2env envid false = some e → UserVa (s.envs e).envIpcDstva
  | ev => s.Tame ev

/-- A page that is mapped once more has a counter below 65535.  `sys_mem_alloc` maps a page whose
counter is zero. -/
def CountsBelow (s : Kernel) : Event → Prop
  | .svc _ (.memMap srcid srcva dstid dstva _) => ∀ src dst f a,
      s.envid2env srcid true = some src → s.envid2env dstid true = some dst →
      s.phys.pageLookup (s.envs src).envPgdir (rounddown srcva by2pg) = .ok (some (f, a)) →
      s.phys.Counts (s.envs dst).envPgdir f (rounddown dstva by2pg) →
      s.phys.ppRef f ≠ 2 ^ 16 - 1
  | .svc _ (.ipcCanSend envid _ srcva _) => srcva ≠ 0 → srcva < utop → ∀ c e f a,
      s.curenv = some c → s.envid2env envid false = some e →
      (s.envs e).envStatus = .notRunnable → (s.envs e).envIpcRecving ≠ 0 →
      s.phys.pageLookup (s.envs c).envPgdir srcva = .ok (some (f, a)) →
      s.phys.Counts (s.envs e).envPgdir f (s.envs e).envIpcDstva →
      s.phys.ppRef f ≠ 2 ^ 16 - 1
  | _ => True

/-- Other steps keep the discipline. -/
theorem Mapping.tame {s : Kernel} {ev : Event} (h : s.Mapping ev)
    (hn : ∀ r call, ev = .svc r call → ¬ call.MapsPages) : s.Tame ev := by
  cases ev with
  | svc r call =>
    cases call with
    | memAlloc | memMap | memUnmap | ipcCanSend => exact absurd trivial (hn _ _ rfl)
    | _ => exact h
  | _ => exact h

/-- **The call counts right**: no access of it wraps a counter, and a frame it gives back is mapped
by no environment behind it. -/
def CountsRight (s : Kernel) (call : Syscall) (s' : Kernel) : Prop :=
  ∃ as, s.pageTrace call = .ok as ∧ s'.phys = s.phys.accesses as ∧ s.phys.NoWraps as ∧
    ∀ f, Access.link f ∈ as → ∀ e, (s'.envs e).envStatus ≠ .free → ∀ g : Page, 2 ≤ g.1.val →
      ∀ w, space s'.phys.mem (s'.envs e).envPgdir g = some w → ppn w ≠ f

end Kernel

/-! ## 4. One call -/

/-- Accesses that wrap no counter, keep the forest and give back free frames. -/
structure Counted (L : Layout) (base : Nat) (km : Mem) (ρ : Nat → Role) (p : Phys)
    (as : List Access) : Prop where
  noWraps : p.NoWraps as
  forest : ∃ ρ', Forest L base km ρ' (p.accesses as) ∧ DirsKept ρ ρ' ∧
    ∀ f, Access.link f ∈ as → ρ' f = .free

section Calls

variable {L : Layout} {base : Nat} {km : Mem} {ρ : Nat → Role} {fl : List Slot} {s s' : Kernel}
  {p : Phys} {d va pp perm : Nat}

theorem Counted.nil (h : Forest L base km ρ p) : Counted L base km ρ p [] :=
  ⟨.nil p, ρ, h, fun _ hd => hd, fun _ hf => by cases hf⟩

/-- `page_insert`. -/
theorem Counted.insert (h : Forest L base km ρ p) (hd : ρ d = .dir) (hva : UserVa va)
    (hpp : (ρ pp).IsPage) (hperm : PermOk pp perm)
    (hc : p.Counts d pp va → p.ppRef pp ≠ 2 ^ 16 - 1) :
    ∃ r as, p.pageInsertTrace d pp va perm = .ok (r, as) ∧ Counted L base km ρ p as := by
  obtain ⟨r, as, ρ', ht, hn, h', hl, hlink⟩ := h.insert_counts hd hva hpp hperm hc
  exact ⟨r, as, ht, hn, ρ', h', hl.dirsKept, hlink⟩

/-- `page_alloc`, and then accesses to the frame and to what is in use. -/
theorem Counted.alloc {f : Nat} {as bs : List Access} (h : Forest L base km ρ p)
    (ht : p.pageAllocTrace = some (f, as))
    (hb : Counted L base km (Function.update ρ f .data) (p.accesses as) bs) :
    Counted L base km ρ p (as ++ bs) := by
  obtain ⟨hn, hl⟩ := noWraps_pageAlloc ht
  obtain ⟨q, hq, he, _⟩ := Phys.accesses_pageAlloc ht
  obtain ⟨_, hk, _⟩ := KernelInv.take_spec h hq
  obtain ⟨hn', ρ', h', hk', hl'⟩ := hb
  refine ⟨hn.append hn', ρ', ?_, hk.trans hk', fun g hg => ?_⟩
  · rw [Phys.accesses_append]
    exact h'
  · exact hl' g ((List.mem_append.mp hg).resolve_left (hl g))

namespace KernelInv

/-- `sys_mem_alloc`. -/
theorem memAlloc_counted (h : KernelInv L base km ρ fl s) (envid : Nat) (hva : UserVa va) :
    ∃ as, s.memAllocTrace envid va pteV = .ok as ∧ Counted L base km ρ s.phys as := by
  unfold Kernel.memAllocTrace
  rw [if_neg (by decide)]
  cases hp : s.phys.pageAllocTrace with
  | none => exact ⟨[], rfl, .nil h.forest⟩
  | some x =>
    obtain ⟨f, as⟩ := x
    obtain ⟨q, hq, rfl, _⟩ := Phys.accesses_pageAlloc hp
    obtain ⟨h1, hk, _, href, _⟩ := take_spec h.forest hq
    cases he : s.envid2env envid true with
    | none =>
      refine ⟨as, rfl, ?_⟩
      rw [← List.append_nil as]
      exact .alloc h.forest hp (.nil h1)
    | some e =>
      obtain ⟨r, bs, ht, hc⟩ := Counted.insert h1 (hk _ (h.dir e (h.not_mem_of_resolve he))) hva
        (by rw [Function.update_self]; trivial) (permOk_pteV f) (fun _ => by rw [href]; decide)
      exact ⟨as ++ bs, Except.bind_eq_ok_iff.mpr ⟨_, ht, rfl⟩, .alloc h.forest hp hc⟩

/-- `sys_mem_map`. -/
theorem memMap_counted (h : KernelInv L base km ρ fl s) {r : Regs} {srcid srcva dstid dstva : Nat}
    (hsva : UserVa srcva) (hdva : UserVa dstva)
    (hc : s.CountsBelow (.svc r (.memMap srcid srcva dstid dstva pteV))) :
    ∃ as, s.memMapTrace srcid srcva dstid dstva pteV = .ok as ∧
      Counted L base km ρ s.phys as := by
  unfold Kernel.memMapTrace
  cases hs : s.envid2env srcid true with
  | none => exact ⟨[], rfl, .nil h.forest⟩
  | some src =>
    cases hdst : s.envid2env dstid true with
    | none => exact ⟨[], rfl, .nil h.forest⟩
    | some dst =>
      dsimp only
      rw [if_neg (by decide)]
      have hsrc := h.dir src (h.not_mem_of_resolve hs)
      have hdd := h.dir dst (h.not_mem_of_resolve hdst)
      rcases h.forest.pageLookup hsrc (userVa_rounddown hsva) with ⟨_, hl⟩ | ⟨u, _, _, _, hl⟩
      · exact ⟨[], Except.bind_eq_ok_iff.mpr ⟨none, hl, rfl⟩, .nil h.forest⟩
      · have hpage := h.forest.page_of_lookup hsrc (userVa_rounddown hsva) hl
        obtain ⟨v, as, ht, hct⟩ := Counted.insert h.forest hdd (userVa_rounddown hdva) hpage
          (permOk_pteV _) (hc src dst _ _ hs hdst hl)
        exact ⟨as, Except.bind_eq_ok_iff.mpr
          ⟨_, hl, Except.bind_eq_ok_iff.mpr ⟨_, ht, rfl⟩⟩, hct⟩

/-- `sys_mem_unmap`. -/
theorem memUnmap_counted (h : KernelInv L base km ρ fl s) (envid : Nat) (hva : UserVa va) :
    ∃ as, s.memUnmapTrace envid va = .ok as ∧ Counted L base km ρ s.phys as := by
  unfold Kernel.memUnmapTrace
  cases he : s.envid2env envid true with
  | none => exact ⟨[], rfl, .nil h.forest⟩
  | some e =>
    obtain ⟨as, ρ', ht, hn, h', hl, hlink, _⟩ :=
      h.forest.remove_counts (h.dir e (h.not_mem_of_resolve he)) hva
    exact ⟨as, ht, hn, ρ', h', hl.dirsKept, fun f hf => h'.free_of_link (hlink f hf)⟩

/-- `sys_ipc_can_send`. -/
theorem ipcCanSend_counted (h : KernelInv L base km ρ fl s) {r : Regs} {c : Slot}
    {envid value srcva : Nat} (hcur : s.curenv = some c)
    (hva : srcva ≠ 0 → UserVa srcva ∧ perm = pteV ∧
      ∀ e, s.envid2env envid false = some e → UserVa (s.envs e).envIpcDstva)
    (hc : s.CountsBelow (.svc r (.ipcCanSend envid value srcva perm))) :
    ∃ as, s.ipcCanSendTrace envid srcva perm = .ok as ∧ Counted L base km ρ s.phys as := by
  unfold Kernel.ipcCanSendTrace
  rw [hcur]
  cases he : s.envid2env envid false with
  | none => exact ⟨[], rfl, .nil h.forest⟩
  | some e =>
    dsimp only
    split
    · exact ⟨[], rfl, .nil h.forest⟩
    rename_i hrecv
    rw [not_or, not_not] at hrecv
    split
    · exact ⟨[], rfl, .nil h.forest⟩
    rename_i hlt
    split
    · rename_i hnz
      obtain ⟨hsva, rfl, hdva⟩ := hva hnz
      have hdc := h.dir c (h.cur c hcur)
      have hde := h.dir e (h.not_mem_of_resolve he)
      rcases h.forest.pageLookup hdc hsva with ⟨_, hl⟩ | ⟨u, _, _, _, hl⟩
      · exact ⟨[], Except.bind_eq_ok_iff.mpr ⟨none, hl, rfl⟩, .nil h.forest⟩
      · have hpage := h.forest.page_of_lookup hdc hsva hl
        obtain ⟨v, as, ht, hct⟩ := Counted.insert h.forest hde (hdva e he) hpage
          (permOk_pteV _)
          (hc hnz (not_le.mp hlt) c e _ _ hcur he hrecv.1 hrecv.2 hl)
        exact ⟨as, Except.bind_eq_ok_iff.mpr
          ⟨_, hl, Except.bind_eq_ok_iff.mpr ⟨_, ht, rfl⟩⟩, hct⟩
    · exact ⟨[], rfl, .nil h.forest⟩

/-- **Each of the four calls counts right**, as far as its list goes. -/
theorem call_counted (h : KernelInv L base km ρ fl s) {r : Regs} {call : Syscall} {c : Slot}
    (hcall : call.MapsPages) (hcur : s.curenv = some c) (hm : s.Mapping (.svc r call))
    (hc : s.CountsBelow (.svc r call)) :
    ∃ as, s.pageTrace call = .ok as ∧ Counted L base km ρ s.phys as := by
  cases call with
  | memAlloc envid va perm =>
    obtain ⟨hva, rfl⟩ := hm
    exact h.memAlloc_counted envid hva
  | memMap srcid srcva dstid dstva perm =>
    obtain ⟨hsva, hdva, rfl⟩ := hm
    exact h.memMap_counted hsva hdva hc
  | memUnmap envid va => exact h.memUnmap_counted envid hm
  | ipcCanSend envid value srcva perm => exact h.ipcCanSend_counted hcur hm hc
  | _ => exact absurd hcall id

/-- What the four calls change besides the frames keeps the invariant. -/
theorem of_call (h : KernelInv L base km ρ fl s) {call : Syscall} {x : Exit} (hcall : call.MapsPages)
    (hs : s.syscall call = .ok (x, s')) {ρ' : Nat → Role} (hf : Forest L base km ρ' s'.phys)
    (hd : DirsKept ρ ρ') : KernelInv L base km ρ' fl s' := by
  cases call with
  | memAlloc envid va perm =>
    obtain ⟨phys, rfl, _⟩ := Kernel.sysMemAlloc_ok hs
    exact h.withPhys hf hd
  | memMap srcid srcva dstid dstva perm =>
    obtain ⟨phys, rfl, _⟩ := Kernel.sysMemMap_ok hs
    exact h.withPhys hf hd
  | memUnmap envid va =>
    obtain ⟨phys, rfl, _⟩ := Kernel.sysMemUnmap_ok hs
    exact h.withPhys hf hd
  | ipcCanSend envid value srcva perm =>
    obtain ⟨c, phys, _, _, hs'⟩ := Kernel.sysIpcCanSend_ok hs
    rcases hs' with ⟨_, rfl⟩ | ⟨e, hres, _, _, _, rfl⟩
    · exact h.withPhys hf hd
    · have h1 : KernelInv L base km ρ' fl { s with phys := phys } := h.withPhys hf hd
      have hmod := h1.modifyEnv (h.not_mem_of_resolve hres)
        (f := fun v => { v with envIpcValue := value, envIpcFrom := (s.envs c).envId,
                                envIpcPerm := perm, envIpcRecving := 0, envStatus := .runnable })
        (fun _ => rfl)
      exact hmod.of_eq rfl rfl rfl (fun _ => rfl) (fun _ _ => rfl) hmod.cur
  | _ => exact absurd hcall id

/-- A frame that is free is mapped by no environment. -/
theorem unmapped_of_free (h : KernelInv L base km ρ fl s) {f : Nat} (hf : ρ f = .free) {e : Slot}
    (he : (s.envs e).envStatus ≠ .free) {g : Page} (hg : 2 ≤ g.1.val) {w : Nat}
    (hw : space s.phys.mem (s.envs e).envPgdir g = some w) : ppn w ≠ f := by
  rintro rfl
  have hpage := (h.forest.toShape.page_of_space (h.dir e (h.not_mem_of_status he)) hg hw).2
  rw [hf] at hpage
  exact hpage

/-- **A step that is one of the four calls.** -/
theorem step_call (h : KernelInv L base km ρ fl s) {r : Regs} {call : Syscall}
    (hcall : call.MapsPages) (hm : s.Mapping (.svc r call)) (hc : s.CountsBelow (.svc r call))
    (hs : s.step (.svc r call) = .ok s') :
    s.CountsRight call s' ∧ ∃ ρ', KernelInv L base km ρ' fl s' := by
  obtain ⟨⟨x, t⟩, hsvc, rfl⟩ := Except.map_eq_ok_iff.mp hs
  unfold Kernel.svc at hsvc
  split at hsvc
  · cases hsvc
  rename_i hcur
  obtain ⟨c, hcur⟩ := Option.ne_none_iff_exists'.mp hcur
  have h0 : KernelInv L base km ρ fl { s with kernelFrame := saveall syncStack r } :=
    h.withFrames (saveall syncStack r) s.timeFrame
  obtain ⟨as, htr, hn, ρ', hf, hd, hlink⟩ := h.call_counted hcall hcur hm hc
  obtain ⟨bs, htr', hphys⟩ := Kernel.pageTrace_ok hcall hsvc
  have hsame : ({ s with kernelFrame := saveall syncStack r } : Kernel).pageTrace call
      = s.pageTrace call := by
    cases call <;> rfl
  obtain rfl := Except.ok.inj (htr.symm.trans (hsame.symm.trans htr'))
  have hphys : t.phys = s.phys.accesses as := hphys
  have h' : KernelInv L base km ρ' fl t := h0.of_call hcall hsvc (by rw [hphys]; exact hf) hd
  exact ⟨⟨as, htr, hphys, hn, fun f hf' e he g hg w hw =>
    h'.unmapped_of_free (hlink f hf') he hg hw⟩, ρ', h'⟩

/-- **A step of the runs the statement is about.** -/
theorem step_mapping (h : KernelInv L base km ρ fl s) {ev : Event} (hm : s.Mapping ev)
    (hc : s.CountsBelow ev) (hs : s.step ev = .ok s') : ∃ ρ' fl', KernelInv L base km ρ' fl' s' := by
  by_cases hmaps : ∃ r call, ev = .svc r call ∧ call.MapsPages
  · obtain ⟨r, call, rfl, hcall⟩ := hmaps
    obtain ⟨_, ρ', h'⟩ := h.step_call hcall hm hc hs
    exact ⟨ρ', fl, h'⟩
  · exact h.step (hm.tame fun r call he hcall => hmaps ⟨r, call, he, hcall⟩) hs

end KernelInv

end Calls

/-! ## 5. Runs -/

namespace Kernel

/-- **The counters never wrap** in a run whose steps count below 65535. -/
theorem ppRef_never_wraps {L : Layout} {ram : Mem} {s₀ s s' : Kernel} {es : List Event} {r : Regs}
    {call : Syscall} (hclean : CleanRam L ram) (hboot : boot L ram = .ok s₀)
    (hr : Run step (fun s ev => s.Mapping ev ∧ s.CountsBelow ev) s₀ es s) (hcall : call.MapsPages)
    (hm : s.Mapping (.svc r call)) (hc : s.CountsBelow (.svc r call))
    (hs : s.step (.svc r call) = .ok s') : s.CountsRight call s' := by
  obtain ⟨s₁, base, hb, hbooted, _⟩ := boot_ok hclean
  obtain rfl := Except.ok.inj (hboot.symm.trans hb)
  obtain ⟨ρ, fl, h⟩ : ∃ ρ fl, KernelInv L base s₀.phys.mem ρ fl s :=
    hr.invariant (I := fun t => ∃ ρ fl, KernelInv L base s₀.phys.mem ρ fl t)
      ⟨_, _, KernelInv.ofBooted hbooted⟩ (fun _ _ _ hi hg hst => by
        obtain ⟨ρ, fl, hi⟩ := hi
        exact hi.step_mapping hg.1 hg.2 hst)
  exact (h.step_call hcall hm hc hs).1

end Kernel

/-! ## 6. A counter that wraps -/

/-- The `i`-th page above `0x80000000`. -/
def fillVa (i : Nat) : Nat := 0x80000000 + i * by2pg

theorem fillVa_user {i : Nat} (hi : i < 65536) : UserVa (fillVa i) := by
  unfold UserVa fillVa
  rw [pudx_val]
  simp only [by2pg]
  omega

theorem rounddown_fillVa (i : Nat) : rounddown (fillVa i) by2pg = fillVa i := by
  simp only [rounddown, fillVa, by2pg]
  omega

/-- Different pages. -/
theorem pageOf_fillVa {i j : Nat} (hi : i < 65536) (hj : j < 65536) (h : i ≠ j) :
    pageOf (fillVa i) ≠ pageOf (fillVa j) := by
  intro he
  have h1 := congrArg (fun g : Page => g.2.1.val) he
  have h2 := congrArg (fun g : Page => g.2.2.val) he
  simp only [pageOf, pmdx_val, ptex_val, fillVa, by2pg] at h1 h2
  omega

theorem pageOf_fillVa_stack {i : Nat} (hi : i < 65536) :
    pageOf (fillVa i) ≠ pageOf (ustacktop - by2pg) := by
  intro he
  have h1 : (pudx (fillVa i)).val = 3 := congrArg (fun g : Page => g.1.val) he
  rw [pudx_val] at h1
  simp only [fillVa, by2pg] at h1
  omega

/-- **The first environment has mapped its stack page `i` times more.** -/
structure Filling (base : Nat) (km : Mem) (f c i : Nat) (ρ : Nat → Role) (s : Kernel) : Prop where
  inv : KernelInv image base km ρ ((List.finRange 1023).map Fin.succ) s
  pinned : ρ f = .pinned
  cur : s.curenv = some 0
  ref : s.phys.ppRef f = c + i
  stack : space s.phys.mem (s.envs 0).envPgdir (pageOf (ustacktop - by2pg))
    = some (leafDesc f pteV)
  empty : ∀ j, i ≤ j → j < 65536 → space s.phys.mem (s.envs 0).envPgdir (pageOf (fillVa j)) = none
  left : ∃ l, IsList s.phys.pageFreeList () l ∧ 2 * (65536 - i) ≤ l.length

namespace Filling

variable {base f c i : Nat} {km : Mem} {ρ : Nat → Role} {s : Kernel}

/-- `sys_mem_map` of the stack page to the next page. -/
def event (i : Nat) : Event := .svc .zero (.memMap 0 (ustacktop - by2pg) 0 (fillVa i) pteV)

theorem mapping (hi : i < 65536) : s.Mapping (event i) :=
  ⟨by unfold UserVa; decide, fillVa_user hi, rfl⟩

/-- What `page_insert` does there. -/
theorem trace (h : Filling base km f c i ρ s) (hi : i < 65536) :
    ∃ u as n ρ1, s.phys.pageInsertTrace (s.envs 0).envPgdir f (fillVa i) pteV =
        .ok (0, .tlbInvalidate :: as ++ [.store ⟨u, ptex (fillVa i)⟩ (leafDesc f pteV), .incRef f]) ∧
      Grown image base km ρ (s.envs 0).envPgdir s.phys n ρ1 (s.phys.accesses as) := by
  have hd := h.inv.dir 0 (by simp)
  have ht : s.phys.pageInsertTrace (s.envs 0).envPgdir f (fillVa i) pteV = _ :=
    h.inv.forest.insertTrace_enter hd (fillVa_user hi) (h.empty i (le_refl i) hi)
  unfold Phys.pageEnterTrace at ht
  rcases h.inv.forest.walkTrace hd (fillVa_user hi) with
    ⟨u, n, ρ1, as, he, _, hg⟩ | ⟨n, ρ1, as, he, hg, hle, hfirst⟩
  · rw [he] at ht
    exact ⟨u, as, n, ρ1, ht, hg⟩
  · -- two frames are left
    obtain ⟨l, hl, hlen⟩ := h.left
    obtain ⟨_, hl'⟩ := hg.taken l hl
    rw [hl'.first_eq_none_iff, List.drop_eq_nil_iff] at hfirst
    omega

/-- The stack page is found. -/
theorem lookup (h : Filling base km f c i ρ s) : ∃ a,
    s.phys.pageLookup (s.envs 0).envPgdir (rounddown (ustacktop - by2pg) by2pg) =
      .ok (some (f, a)) := by
  have hr : rounddown (ustacktop - by2pg) by2pg = ustacktop - by2pg := by decide
  have hd := h.inv.dir 0 (by simp)
  rw [hr]
  have hva : 2 ≤ (pudx (ustacktop - by2pg)).val := by decide
  rcases h.inv.forest.pageLookup hd hva with ⟨hs, _⟩ | ⟨u, _, _, hs, he⟩
  · cases hs.symm.trans h.stack
  · obtain hw := Option.some.inj (hs.symm.trans h.stack)
    rw [hw, permOk_pteV f] at he
    exact ⟨_, he⟩

/-- **One more mapping**, as long as the counter has room. -/
theorem next (h : Filling base km f c i ρ s) (hi : i < 65535) (hroom : c + i < 65535) :
    ∃ ρ' s', s.step (event i) = .ok s' ∧ Filling base km f c (i + 1) ρ' s' := by
  have hd := h.inv.dir 0 (by simp)
  have hi' : i < 65536 := by omega
  obtain ⟨a, hl⟩ := h.lookup
  obtain ⟨u, as, n, ρ1, ht, hg⟩ := h.trace hi'
  have htr := Phys.pageInsert_trace s.phys (s.envs 0).envPgdir f (fillVa i) pteV
  rw [ht] at htr
  have hpage : (ρ f).IsPage := by rw [h.pinned]; trivial
  have hnone := h.empty i (le_refl i) hi'
  have hstep := Kernel.step_memMap_self .zero (ustacktop - by2pg) (fillVa i) pteV h.cur (by decide) hl
    (by rw [rounddown_fillVa]; exact htr)
  have hlt : s.phys.ppRef f < 2 ^ 16 - 1 := by rw [h.ref]; omega
  rcases h.inv.forest.pageInsert hd (fillVa_user hi') hpage hlt (permOk_pteV f) with
    ⟨ρ', p', he, hins⟩ | ⟨_, ρ', p', he, _⟩
  · obtain rfl := (congrArg Prod.snd (Except.ok.inj (htr.symm.trans he))).symm
    have hinv := (h.inv.withPhys hins.forest hins.frame.dirsKept).withFrames
      (saveall syncStack .zero) s.timeFrame
    refine ⟨ρ', _, hstep, hinv, ?_, h.cur, ?_, ?_, ?_, ?_⟩
    · rw [hins.frame.table (by simp [h.pinned]) (by simp [h.pinned]), h.pinned]
    · have hkept := hg.ppRef f (by simp [h.pinned])
      rw [List.cons_append, Phys.accesses_cons, Phys.accesses_append]
      change ((s.phys.accesses as).incRef f).ppRef f = c + (i + 1)
      rw [Phys.ppRef_incRef, if_pos rfl, hkept, h.ref]
      omega
    · refine (hins.space _ (by decide)).trans ?_
      rw [if_neg (pageOf_fillVa_stack hi').symm, h.stack]
    · intro j hj hj'
      refine (hins.space (pageOf (fillVa j)) (fillVa_user hj')).trans ?_
      rw [if_neg (pageOf_fillVa hj' hi' (by omega)), h.empty j (by omega) hj']
    · obtain ⟨l, hl, hlen⟩ := h.left
      obtain ⟨_, n, hn, _, htaken⟩ := hins.fresh hnone
      obtain ⟨hnl, hl'⟩ := htaken l hl
      refine ⟨l.drop n, hl', ?_⟩
      rw [List.length_drop]
      omega
  · cases htr.symm.trans he

/-- **Any number of mappings**, up to the last value of the counter. -/
theorem fill (h : Filling base km f c 0 ρ s) : ∀ {k : Nat}, k ≤ 65535 → c + k ≤ 65535 →
    ∃ ρ' s' es, Run Kernel.step (fun s ev => s.Mapping ev) s es s' ∧
      Filling base km f c k ρ' s' := by
  intro k
  induction k with
  | zero => exact fun _ _ => ⟨ρ, s, [], .nil, h⟩
  | succ k ih =>
    intro hk hroom
    obtain ⟨ρ', s', es, hr, h'⟩ := ih (by omega) (by omega)
    obtain ⟨ρ'', s'', hs, h''⟩ := h'.next (by omega) (by omega)
    exact ⟨ρ'', s'', _, hr.snoc (mapping (by omega)) hs, h''⟩

/-- **The mapping after that wraps it.** -/
theorem wraps (h : Filling base km f c i ρ s) (hi : i < 65536) (hfull : c + i = 65535) :
    ∃ s', s.step (event i) = .ok s' ∧
      ¬ s.CountsRight (.memMap 0 (ustacktop - by2pg) 0 (fillVa i) pteV) s' := by
  obtain ⟨a, hl⟩ := h.lookup
  obtain ⟨u, as, n, ρ1, ht, hg⟩ := h.trace hi
  have htr := Phys.pageInsert_trace s.phys (s.envs 0).envPgdir f (fillVa i) pteV
  rw [ht] at htr
  refine ⟨_, Kernel.step_memMap_self .zero (ustacktop - by2pg) (fillVa i) pteV h.cur (by decide) hl
    (by rw [rounddown_fillVa]; exact htr), ?_⟩
  rintro ⟨bs, hbs, _, hn, _⟩
  have hmap : s.pageTrace (.memMap 0 (ustacktop - by2pg) 0 (fillVa i) pteV) = .ok
      (.tlbInvalidate :: as ++ [.store ⟨u, ptex (fillVa i)⟩ (leafDesc f pteV), .incRef f]) := by
    show s.memMapTrace 0 (ustacktop - by2pg) 0 (fillVa i) pteV = _
    unfold Kernel.memMapTrace
    rw [Kernel.envid2env_zero, h.cur]
    dsimp only
    rw [if_neg (by decide), rounddown_fillVa]
    exact Except.bind_eq_ok_iff.mpr ⟨_, hl, Except.bind_eq_ok_iff.mpr ⟨_, ht, rfl⟩⟩
  obtain rfl := Except.ok.inj (hmap.symm.trans hbs)
  -- the last access finds 65535
  have hlast := hn.append_inv.cons_inv.2.cons_inv.1
  have hkept := hg.ppRef f (by simp [h.pinned])
  refine hlast ?_
  change (s.phys.accesses as).ppRef f = _
  rw [hkept, h.ref]
  omega

end Filling

/-- The first environment can fill the counter of its stack page. -/
theorem FirstEnv.filling {base n : Nat} {km : Mem} {ρ : Nat → Role} {s : Kernel}
    (h : FirstEnv base km n ρ s) (hn : n ≤ 4) :
    ∃ f, Filling base km f (s.phys.ppRef f) 0 ρ s := by
  obtain ⟨f, hf, hst⟩ := h.stack
  have hbase := h.base_le
  refine ⟨f, h.inv, hf, h.cur, rfl, (hst _ (by decide)).trans (if_pos rfl), fun j _ hj => ?_, _,
    h.pages, ?_⟩
  · exact (hst (pageOf (fillVa j)) (fillVa_user hj)).trans (if_neg (pageOf_fillVa_stack hj))
  · rw [List.length_drop, length_freshPages]
    simp only [npage]
    omega

/-- **A run that wraps a counter**: the first environment maps its stack page at 65536 addresses, and
the call that finds the counter at 65535 takes it to zero. -/
theorem ppRef_wraps : ¬ ∀ (L : Layout) (ram : Mem) (s₀ s s' : Kernel) (es : List Event) (r : Regs)
    (call : Syscall), CleanRam L ram → boot L ram = .ok s₀ →
      Run Kernel.step (fun s ev => s.Mapping ev) s₀ es s → call.MapsPages →
      s.Mapping (.svc r call) → s.step (.svc r call) = .ok s' → s.CountsRight call s' := by
  intro hall
  obtain ⟨s₀, s, base, ρ, hb, _, hr, n, hn, h⟩ := firstEnv_reached .zero
  obtain ⟨f, hfill⟩ := h.filling hn
  have hbound := h.inv.forest.bound f
  obtain ⟨ρ', t, es, hr', ht⟩ := hfill.fill (show 65535 - s.phys.ppRef f ≤ 65535 by omega) (by omega)
  obtain ⟨t', hs, hnot⟩ := ht.wraps (by omega) (by omega)
  have hr0 : Run Kernel.step (fun s ev => s.Mapping ev) s₀ [.create 0x80000 1, .irq .zero] s :=
    hr.mono_of_mem fun t e he _ => by
      simp only [List.mem_cons, List.not_mem_nil, or_false] at he
      rcases he with rfl | rfl <;> trivial
  exact hnot (hall image coldRam s₀ t t' _ .zero _ cleanRam_coldRam hb (hr0.append hr') trivial
    (Filling.mapping (by omega)) hs)

/-- A run the theorem speaks of: the first environment maps its stack page at a second address, which
takes the counter from 2 to 3. -/
theorem ppRef_never_wraps_first : ∃ (s s' : Kernel) (f : Nat), s.phys.ppRef f = 2 ∧
    s.step (.svc .zero (.memMap 0 (ustacktop - by2pg) 0 (fillVa 0) pteV)) = .ok s' ∧
    s'.phys.ppRef f = 3 ∧ s.CountsRight (.memMap 0 (ustacktop - by2pg) 0 (fillVa 0) pteV) s' := by
  obtain ⟨s₀, s, base, ρ, hb, _, hr, n, hn, h⟩ := firstEnv_reached .zero
  obtain ⟨f, hfill⟩ := h.filling hn
  have href : s.phys.ppRef f = 2 := h.stackRef f hfill.stack
  obtain ⟨_, s', hs, hfill'⟩ := hfill.next (by decide) (by rw [href]; decide)
  have hr0 : Run Kernel.step (fun s ev => s.Mapping ev ∧ s.CountsBelow ev) s₀
      [.create 0x80000 1, .irq .zero] s :=
    hr.mono_of_mem fun t e he _ => by
      simp only [List.mem_cons, List.not_mem_nil, or_false] at he
      rcases he with rfl | rfl <;> exact ⟨trivial, trivial⟩
  refine ⟨s, s', f, href, hs, hfill'.ref.trans (by rw [href]), Kernel.ppRef_never_wraps
    cleanRam_coldRam hb hr0 trivial (Filling.mapping (by decide)) ?_ hs⟩
  intro src dst f' a hsrc _ hl _
  obtain ⟨b, hl'⟩ := hfill.lookup
  rw [Kernel.envid2env_zero, h.cur] at hsrc
  cases hsrc
  cases hl.symm.trans hl'
  rw [href]
  decide

end RaspiOS
