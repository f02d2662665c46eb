import MinixRt.Mm.Spaces

/-!
# Cached translations

The machine of `Spaces` with the TLBs of the CPUs. An operation on the page tables is a list
of stores and flushes, which reach the MMU one after the other; in between, any CPU may fill
its TLB from the entries the MMU sees at that moment. An entry leaves a TLB only in a flush.
The address spaces have different ASIDs and keep them.

`vmap_page_range` and `mmap_mprotect_fixup` end with `flush_tlb_range`, but
`vumap_page_range` and the undoing of a failed `vmap_page_range` clear entries without one.
`system_brk` grows the heap with `mmap_get_vmap_area` and `vmap_page_range` and shrinks it
with `vumap_page_range` and `mmap_free_vmap_area`, so its runs are among the runs here.
-/

namespace MinixRt.Mm

open List Function Lib Machine

abbrev Cpu := Nat

/-- An entry of a TLB: the ASID is that of the address space. -/
structure TlbEntry where
  cpu : Cpu
  mm : MmId
  page : Nat
  frame : Page
  deriving DecidableEq

structure MmuState where
  spaces : Spaces
  /-- The leaf entries as the MMU sees them. -/
  pte : MmId → Nat → Option Entry
  /-- The stores and flushes of the running operation that are still to come. -/
  pending : MmId → List MmuOp
  tlb : List TlbEntry

/-- `__flush_tlb_range` with a page as its stride. A long range takes the whole ASID. -/
def flushTlbRange (i : MmId) (start stop : Nat) (tlb : List TlbEntry) : List TlbEntry :=
  if ptrs * pageSize ≤ stop - start then tlb.filter fun t => t.mm ≠ i
  else tlb.filter fun t =>
    ¬ (t.mm = i ∧ start ≤ t.page * pageSize ∧ t.page * pageSize < stop)

inductive MmuAct
  | supply (kmallocs : List Bool) (freePages beyond : List (Option Page))
  | mmapAllocMmStruct (i : MmId)
  | op (i : MmId) (o : Op)
  /-- The next store or flush of the operation on `i`. -/
  | mmu (i : MmId)
  | fill (c : Cpu) (i : MmId) (n : Nat)
  deriving DecidableEq

def mmuStep (b : Board) (s : MmuState) : MmuAct → Option MmuState
  | .supply kmallocs freePages beyond =>
    (step b s.spaces (.supply kmallocs freePages beyond)).map fun spaces => { s with spaces }
  | .mmapAllocMmStruct i =>
    (step b s.spaces (.mmapAllocMmStruct i)).map fun spaces => { s with spaces }
  | .op i o =>
    if s.pending i = [] then
      (step b s.spaces (.op i o)).map fun spaces => { s with
        spaces := { spaces with mem := { spaces.mem with mmu := [] } }
        pending := update s.pending i spaces.mem.mmu }
    else none
  | .mmu i =>
    match s.pending i with
    | [] => none
    | op :: rest => some { s with
        pte := update s.pte i (op.apply (s.pte i))
        pending := update s.pending i rest
        tlb := match op with
          | .flushRange start stop => flushTlbRange i start stop s.tlb
          | _ => s.tlb }
  | .fill c i n =>
    (s.pte i n).bind fun e =>
      if e.attr &&& pteValid = 0 then none
      else some { s with tlb := ⟨c, i, n, e.page⟩ :: s.tlb }

def mmuMachine (b : Board) : Machine MmuState MmuAct where
  init s := (∀ i, s.spaces.mm i = none) ∧ s.spaces.mem.mmu = [] ∧ (∀ i n, s.pte i n = none) ∧
    (∀ i, s.pending i = []) ∧ s.tlb = []
  step := mmuStep b

/-- No page that this step gives back to the allocator is cached for its address space. -/
def FreesUncached (s : MmuState) (a : MmuAct) (s' : MmuState) : Prop :=
  ∀ i addr, a = .op i (.mmapFreeVmapArea addr) →
    ∀ p, s.spaces.mem.ref p ≠ 0 → s'.spaces.mem.ref p = 0 →
      ∀ t ∈ s.tlb, ¬ (t.mm = i ∧ t.frame = p)

/-- Another VMA of the address space has a page of the VMA that is to be freed. -/
def sharesPage (mm : MmStruct) (addr : Nat) : Bool :=
  match findVmaArea addr mm.vmas with
  | none => false
  | some v => mm.vmas.any fun u =>
      u.vmStart ≠ v.vmStart ∧ v.pages.any fun p => p ≠ none ∧ p ∈ u.pages

/-- A leaf entry is cleared only when no TLB holds its translation, and a VMA is freed only
when no other VMA of its address space has one of its pages. -/
def uncached (s : MmuState) : MmuAct → Bool
  | .op i (.mmapFreeVmapArea addr) => (s.spaces.mm i).all fun mm => !sharesPage mm addr
  | .op _ o => o.inUser
  | .mmu i =>
    match s.pending i with
    | .clearPte n :: _ => s.tlb.all fun t => ¬ (t.mm = i ∧ t.page = n)
    | _ => true
  | _ => true

/-! ## Why the condition is enough -/

/-- The MMU is behind the tables by the pending stores, and under the condition a TLB holds
nothing that the MMU would not find. -/
structure MmuState.Inv (s : MmuState) : Prop where
  rep : ∃ P L, SpacesRep s.spaces P L ∧ ∀ i, Replays (s.pte i) (s.pending i) (L i)
  log : s.spaces.mem.mmu = []
  gone : ∀ i, s.spaces.mm i = none → (s.pte i = fun _ => none) ∧ s.pending i = []
  tlb : ∀ t ∈ s.tlb, ∃ e, s.pte t.mm t.page = some e ∧ e.page = t.frame
  counted : s.spaces.Counted

section Tlb

variable {b : Board} {s s' : MmuState} {i : MmId} {t : TlbEntry} {tlb : List TlbEntry}

theorem mem_flushTlbRange {start stop : Nat} (h : t ∈ flushTlbRange i start stop tlb) :
    t ∈ tlb := by
  unfold flushTlbRange at h
  split at h <;> exact (mem_filter.mp h).1

theorem MmuState.Inv.mmu (h : s.Inv) (ha : uncached s (.mmu i) = true)
    (hs : mmuStep b s (.mmu i) = some s') : s'.Inv := by
  obtain ⟨⟨P, L, hrep, hreplay⟩, hlog, hgone, htlb, hcount⟩ := h
  simp only [uncached] at ha
  simp only [mmuStep] at hs
  cases hp : s.pending i with
  | nil => simp [hp] at hs
  | cons op =>
    rw [hp] at ha hs
    cases hs
    obtain ⟨htame, hrest⟩ := (hreplay i).cons_inv hp
    refine ⟨⟨P, L, hrep, fun j => ?_⟩, hlog, fun j hj => ?_, fun t ht => ?_, hcount⟩
    · by_cases hj : j = i
      · subst hj
        simpa using hrest
      · simpa [hj] using hreplay j
    · have hji : j ≠ i := by
        rintro rfl
        rw [(hgone j hj).2] at hp
        cases hp
      simpa [hji] using hgone j hj
    · have ht' : t ∈ s.tlb := by
        cases op with
        | flushRange => exact mem_flushTlbRange ht
        | setPte | clearPte => exact ht
      obtain ⟨e, he, hpage⟩ := htlb t ht'
      by_cases hj : t.mm = i
      · show ∃ e, update s.pte i (op.apply (s.pte i)) t.mm t.page = some e ∧ _
        rw [hj] at he ⊢
        rw [update_self]
        cases op with
        | flushRange => exact ⟨e, he, hpage⟩
        | setPte n e' =>
          by_cases hn : t.page = n
          · subst hn
            exact ⟨e', by simp [MmuOp.apply], (htame e he).symm.trans hpage⟩
          · exact ⟨e, by simpa [MmuOp.apply, hn] using he, hpage⟩
        | clearPte n =>
          -- no TLB holds the translation that is cleared
          have hn : t.page ≠ n := fun hn => by
            have := all_eq_true.mp ha t ht'
            simp [hj, hn] at this
          exact ⟨e, by simpa [MmuOp.apply, hn] using he, hpage⟩
      · exact ⟨e, by simpa [hj] using he, hpage⟩

theorem MmuState.Inv.op (h : s.Inv) {o : Op} (ho : o.inUser = true)
    (hs : mmuStep b s (.op i o) = some s') : s'.Inv := by
  obtain ⟨⟨P, L, hrep, hreplay⟩, hlog, hgone, htlb, hcount⟩ := h
  simp only [mmuStep] at hs
  split_ifs at hs with hp
  obtain ⟨k, hk, rfl⟩ := Option.map_eq_some_iff.mp hs
  obtain ⟨mm, hi, hk⟩ := Option.bind_eq_some_iff.mp hk
  obtain ⟨s1, hrun, rfl⟩ := Option.map_eq_some_iff.mp hk
  obtain ⟨P', L', hrep', ⟨ops, hops, hL'⟩, -, hcount'⟩ :=
    hrep.op hi (Op.below_of_inUser ho) hrun
  rw [hlog, nil_append] at hops
  have hpte : L i = s.pte i := (hreplay i).nil_inv hp
  refine ⟨⟨_, _, hrep'.setMmu [], fun j => ?_⟩, rfl, fun j hj => ?_, htlb,
    hcount.put (hcount' ho (hcount i mm hi))⟩
  · by_cases hji : j = i
    · subst hji
      simp only [update_self, Spaces.put, hops]
      rw [← hpte]
      exact hL'
    · simpa [hji] using hreplay j
  · have hji : j ≠ i := by
      rintro rfl
      simp at hj
    simpa [hji] using hgone j ((Spaces.put_mm_of_ne hji _ _).symm.trans hj)

theorem MmuState.Inv.mmapAllocMmStruct (h : s.Inv)
    (hs : mmuStep b s (.mmapAllocMmStruct i) = some s') : s'.Inv := by
  obtain ⟨⟨P, L, hrep, hreplay⟩, hlog, hgone, htlb, hcount⟩ := h
  obtain ⟨k, hk, rfl⟩ := Option.map_eq_some_iff.mp hs
  cases hi : s.spaces.mm i with
  | some => simp [step, hi] at hk
  | none =>
    cases hres : Mm.mmapAllocMmStruct s.spaces.mem with
    | mk r =>
      cases r with
      | none =>
        simp only [step, hi, hres] at hk
        cases hk
        have hsame := mmapAllocMmStruct_none hres
        exact ⟨⟨P, L, hrep.same hsame, hreplay⟩, hsame.2.trans hlog, hgone, htlb, hcount⟩
      | some =>
        simp only [step, hi, hres] at hk
        cases hk
        obtain ⟨hrep', hnil, hsame⟩ := hrep.mmapAllocMmStruct (i := i) hres
        refine ⟨⟨_, _, hrep', fun j => ?_⟩, hsame.2.trans hlog, fun j hj => ?_, htlb,
          hcount.put (by simp [hnil])⟩
        · by_cases hji : j = i
          · subst hji
            rw [(hgone j hi).1, (hgone j hi).2, update_self]
            exact .nil
          · simpa [hji] using hreplay j
        · have hji : j ≠ i := by
            rintro rfl
            simp at hj
          exact hgone j ((Spaces.put_mm_of_ne hji _ _).symm.trans hj)

theorem MmuState.Inv.step {a : MmuAct} (h : s.Inv) (ha : uncached s a = true)
    (hs : mmuStep b s a = some s') : s'.Inv := by
  cases a with
  | supply =>
    cases hs
    obtain ⟨⟨P, L, hrep, hreplay⟩, hlog, hgone, htlb, hcount⟩ := h
    exact ⟨⟨P, L, hrep.same ⟨fun _ _ => ⟨rfl, rfl, rfl⟩, rfl⟩, hreplay⟩, hlog, hgone, htlb,
      hcount⟩
  | mmapAllocMmStruct => exact h.mmapAllocMmStruct hs
  | op i o =>
    refine h.op ?_ hs
    cases o <;> first | rfl | exact ha
  | mmu => exact h.mmu ha hs
  | fill =>
    obtain ⟨e, he, hs⟩ := Option.bind_eq_some_iff.mp hs
    split_ifs at hs
    cases hs
    refine ⟨h.rep, h.log, h.gone, fun t ht => ?_, h.counted⟩
    rcases mem_cons.mp ht with rfl | ht
    · exact ⟨e, he, rfl⟩
    · exact h.tlb t ht

theorem MmuState.Inv.of_reach (h : (mmuMachine b).Reach (fun s a => uncached s a = true) s) :
    s.Inv :=
  Reach.invariant (I := MmuState.Inv)
    (fun s hs => by
      obtain ⟨h1, h2, h3, h4, h5⟩ := hs
      refine ⟨⟨_, _, spacesRep_init h1, fun i => ?_⟩, h2, fun i _ => ⟨funext (h3 i), h4 i⟩,
        by simp [h5], fun i mm hi => absurd ((h1 i).symm.trans hi) nofun⟩
      rw [show s.pte i = fun _ => none from funext (h3 i), h4 i]
      exact .nil)
    (fun _ _ _ hI ha hs => hI.step ha hs) h

/-- The page of a leaf belongs to the VMA over it, so a page of a VMA without tables is in
no leaf, unless another VMA has it, too. -/
theorem not_leaf_of_free {k : Spaces} {mm : MmStruct} {P : MmId → Nat → Nat → Option Page}
    {L : MmId → Nat → Option Entry} {v : Vma} {l1 l2 : List Vma} {p : Page} (h : SpacesRep k P L)
    (hcount : k.Counted) (hi : k.mm i = some mm) (ha : Among mm l1 v l2) (hroot : ∀ l, v.root l = ∅)
    (hp : some p ∈ v.pages) (hother : ∀ u ∈ l1 ++ l2, some p ∉ u.pages) {n : Nat} {e : Entry}
    (he : L i n = some e) : e.page ≠ p := by
  rintro rfl
  have hrep := h.space i mm hi
  obtain ⟨u, hu, hm, hc⟩ := hrep.covered n (by rw [he]; nofun)
  have hmem := mem_of_getElem? ((hcount i mm hi u hu).getElem_of_page (hrep.sized u hu).1 hc
    (hrep.leaf u hu n e hc he))
  rcases ha.mem_iff.mp hu with hu | rfl
  · exact hother u hu hmem
  · exact hrep.not_mapped ha.mem hroot hm

/-- **No stale translation survives an unmap**, in the runs that meet the condition. -/
theorem frees_uncached {a : MmuAct}
    (hs : (mmuMachine b).Reach (fun s a => uncached s a = true) s) (ha : uncached s a = true)
    (hstep : (mmuMachine b).step s a = some s') : FreesUncached s a s' := by
  rintro i addr rfl p hp hp' t ht ⟨rfl, rfl⟩
  obtain ⟨⟨P, L, hrep, hreplay⟩, -, -, htlb, hcount⟩ := MmuState.Inv.of_reach hs
  simp only [mmuMachine, mmuStep] at hstep
  split_ifs at hstep with hpend
  obtain ⟨k, hk, rfl⟩ := Option.map_eq_some_iff.mp hstep
  obtain ⟨mm, hi, hk⟩ := Option.bind_eq_some_iff.mp hk
  obtain ⟨s1, hrun, rfl⟩ := Option.map_eq_some_iff.mp hk
  have hpte : L t.mm = s.pte t.mm := (hreplay t.mm).nil_inv hpend
  rcases (hrep.ok hi).mmapFreeVmapArea_cases hrun with
    ⟨-, rfl⟩ | ⟨v, l1, l2, r, hfind, hamong, hroot, rfl, hr, -⟩
  · exact hp hp'
  · change r t.frame = 0 at hp'
    rw [hr t.frame] at hp'
    obtain ⟨-, hmem⟩ : v.Private ∧ some t.frame ∈ v.pages := by
      by_contra hc
      rw [if_neg hc] at hp'
      exact hp hp'
    obtain ⟨e, he, hpage⟩ := htlb t ht
    rw [← hpte] at he
    refine not_leaf_of_free hrep hcount hi hamong hroot hmem (fun u hu hc => ?_) he hpage
    -- the guard: no other VMA has the page
    simp only [uncached, hi, Option.all_some, sharesPage, hfind, Bool.not_eq_true',
      any_eq_false] at ha
    have hne := (hrep.space _ mm hi).start_ne_of_among hamong hu
    have := ha u (by rw [hamong.eq]; simp at hu ⊢; tauto)
    simp only [hne, ne_eq, not_false_eq_true, true_and, decide_eq_true_eq, any_eq_true,
      not_exists, not_and] at this
    exact this (some t.frame) hmem nofun hc

/-- **What a TLB holds is what the tables say.** Between two operations on an address space, in
the runs that meet the condition, a cached translation is the one of the tables, its address lies
in a VMA, and its frame is a page of that VMA, which still has the only reference if it owns it. -/
theorem tlb_coherent {mm : MmStruct}
    (hs : (mmuMachine b).Reach (fun s a => uncached s a = true) s)
    (hi : s.spaces.mm t.mm = some mm) (hpend : s.pending t.mm = []) (ht : t ∈ s.tlb) :
    (∃ e, Space.translate ⟨s.spaces.mem, mm⟩ (t.page * pageSize) = some e ∧ e.page = t.frame) ∧
      ∃ v ∈ mm.vmas, v.vmStart ≤ t.page * pageSize ∧ t.page * pageSize < v.vmEnd ∧
        some t.frame ∈ v.pages ∧ (v.Private → s.spaces.mem.ref t.frame = 1) := by
  obtain ⟨⟨P, L, hrep, hreplay⟩, -, -, htlb, hcount⟩ := MmuState.Inv.of_reach hs
  have hspace := hrep.space _ mm hi
  obtain ⟨e, he, hpage⟩ := htlb t ht
  rw [← (hreplay t.mm).nil_inv hpend] at he
  obtain ⟨v, hv, -, hc⟩ := hspace.covered t.page (by rw [he]; nofun)
  obtain ⟨hsz, hend⟩ := hspace.sized v hv
  have hdiv : t.page * pageSize / pageSize = t.page := Nat.mul_div_cancel _ (by decide)
  obtain ⟨h1, h2⟩ := (hsz.covers_iff (t.page * pageSize)).mp (by rwa [hdiv])
  have hmem : some t.frame ∈ v.pages := by
    rw [← hpage]
    exact mem_of_getElem? ((hcount _ mm hi v hv).getElem_of_page hsz hc
      (hspace.leaf v hv _ e hc he))
  refine ⟨⟨e, ?_, hpage⟩, v, hv, h1, h2, hmem, fun hp => ?_⟩
  · rw [SpaceRep.translate (s := ⟨_, mm⟩) hspace (h2.trans_le hend), hdiv, he]
  · exact (hrep.own _ mm hi).ref _ (mem_ownPages.mpr ⟨v, hv, hp, hmem⟩)

end Tlb

/-! ## Two runs -/

def emptyMmu : MmuState where
  spaces := ⟨emptyMem, fun _ => none⟩
  pte _ _ := none
  pending _ := []
  tlb := []

/-- A page is mapped at address 0x1000 as page frame 2. -/
def mapOne : List MmuAct :=
  [.supply (replicate 9 true) ((range' 1 9).map some) [], .mmapAllocMmStruct 0,
    .op 0 (.mmapGetVmapArea 0x1000 0x1000 (vmRead ||| vmWrite) 0),
    .op 0 (.vmapPageRange 0x1000), .mmu 0, .mmu 0]

def unmapOne : List MmuAct := [.op 0 (.vumapPageRange 0x1000), .mmu 0]

def freeOne : MmuAct := .op 0 (.mmapFreeVmapArea 0x1000)

theorem emptyMmu_init : (mmuMachine plainBoard).init emptyMmu :=
  ⟨fun _ => rfl, rfl, fun _ _ => rfl, fun _ => rfl, rfl⟩

/-- Without a memory access in between, the page is freed and cached nowhere. -/
theorem frees_uncached_one : ∃ s s', (mmuMachine plainBoard).step s freeOne = some s' ∧
    s.spaces.mem.ref 2 = 1 ∧ s'.spaces.mem.ref 2 = 0 ∧ FreesUncached s freeOne s' := by
  obtain ⟨s, hreach, hused, hfreed, hok⟩ := exists_reach (G := fun s a => uncached s a = true) (P := fun s =>
    s.spaces.mem.ref 2 = 1 ∧ ((mmuMachine plainBoard).step s freeOne).map (·.spaces.mem.ref 2) =
      some 0 ∧ uncached s freeOne = true) (.init emptyMmu_init) (mapOne ++ unmapOne) (by decide)
  obtain ⟨s', hs', hfreed⟩ := Option.map_eq_some_iff.mp hfreed
  exact ⟨s, s', hs', hused, hfreed, frees_uncached hreach hok hs'⟩

/-- A CPU reads the page while it is mapped. -/
theorem tlb_coherent_one : ∃ (s : MmuState) (mm : MmStruct) (v : Vma),
    s.tlb = [⟨1, 0, 1, 2⟩] ∧ s.spaces.mm 0 = some mm ∧ v ∈ mm.vmas ∧ some 2 ∈ v.pages := by
  obtain ⟨s, hreach, htlb, hpend, hmm⟩ := exists_reach (G := fun s a => uncached s a = true)
    (P := fun s => s.tlb = [⟨1, 0, 1, 2⟩] ∧ s.pending 0 = [] ∧ (s.spaces.mm 0).isSome)
    (.init emptyMmu_init) (mapOne ++ [.fill 1 0 1]) (by decide)
  obtain ⟨mm, hmm⟩ := Option.isSome_iff_exists.mp hmm
  obtain ⟨-, v, hv, -, -, hmem, -⟩ :=
    tlb_coherent (t := ⟨1, 0, 1, 2⟩) hreach hmm hpend (by simp [htlb])
  exact ⟨s, mm, v, htlb, hmm, hv, hmem⟩

/-- A CPU reads the page while it is mapped, and still has its translation when the page is
freed. -/
theorem frees_cached : ¬ ∀ s a s', (mmuMachine plainBoard).Reach free s →
    (mmuMachine plainBoard).step s a = some s' → FreesUncached s a s' := by
  intro h
  obtain ⟨s, hreach, hused, hfreed, htlb⟩ := exists_reach (G := free) (P := fun s =>
    s.spaces.mem.ref 2 = 1 ∧ ((mmuMachine plainBoard).step s freeOne).map (·.spaces.mem.ref 2) =
      some 0 ∧ s.tlb = [⟨1, 0, 1, 2⟩]) (.init emptyMmu_init)
    (mapOne ++ [.fill 1 0 1] ++ unmapOne) (by decide)
  obtain ⟨s', hs', hfreed⟩ := Option.map_eq_some_iff.mp hfreed
  exact h s freeOne s' hreach hs' 0 0x1000 rfl 2 (by rw [hused]; decide) hfreed ⟨1, 0, 1, 2⟩
    (by simp [htlb]) ⟨rfl, rfl⟩

end MinixRt.Mm
