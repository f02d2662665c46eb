import MinixRt.Mm.Spaces

/-!
# The tables of an address space and their references

`Space.table` finds the tables in the memory the way the MMU does. In a state that represents
an address space a table is there exactly when a mapped VMA has an address below it, and it
has one reference for each of these VMAs. So a failed `vmap_page_range`, after which the VMA
keeps no table, has left the tables as they were, and `mmap_destroy_mm` frees all of them.
-/

namespace MinixRt.Mm

open List Function Lib Machine

variable {l n : Nat} {q : Page}

/-- Table `k` of the level that is `d` levels below the root. -/
def tableBelow (tbl : Page → Nat → Option Entry) (pgd : Page) : Nat → Nat → Option Page
  | 0, k => if k = 0 then some pgd else none
  | d + 1, k =>
    (tableBelow tbl pgd d (k / ptrs)).bind fun t => (tbl t (k % ptrs)).bind Entry.table

/-- Table `k` of level `l`; the root is table 0 of level 3. -/
def Space.table (s : Space) (l k : Nat) : Option Page :=
  tableBelow s.mem.tbl s.mm.pgd (3 - l) k

def Vma.IsMapped (v : Vma) : Prop := v.root 2 ≠ ∅

instance (v : Vma) : Decidable v.IsMapped := inferInstanceAs (Decidable (_ ≠ _))

instance (v : Vma) (l k : Nat) : Decidable (v.Meets l k) := inferInstanceAs (Decidable (_ ∧ _))

section Tables

variable {b : Board} {k : Spaces} {i : MmId} {mm : MmStruct} {s s' s'' : Space}
  {P P' P'' : Nat → Nat → Option Page} {L L' : Nat → Option Entry} {v : Vma} {l₁ l₂ vs : List Vma}

/-! ## Tables and the VMAs that keep them -/

namespace SpaceRep

variable (h : SpaceRep s.mem s.mm P L)
include h

theorem holder (hl : l < 3) (hq : P l n = some q) :
    ∃ v ∈ s.mm.vmas, q ∈ v.root l ∧ v.Meets l n := by
  have hrefs := h.refs l hl n q hq
  have hlive := h.live l n q hq
  obtain ⟨v, hv, hmem⟩ := countP_pos_iff.mp (show 0 < holders s.mm.vmas l q by omega)
  have hmem : q ∈ v.root l := by simpa using hmem
  obtain ⟨-, n', hn', hm⟩ := (h.rep v hv).own l q hmem
  obtain rfl := (h.stored.inj _ _ _ _ q hq hn').2
  exact ⟨v, hv, hmem, hm⟩

omit h in
theorem entry_table (p : Page) : Entry.table (tableDesc p) = some p := by
  simp [Entry.table, Entry.bad, tableDesc, typeTable]

theorem table_step (hl : l < 3) (ih : ∀ n, s.table (l + 1) n = P (l + 1) n) (n : Nat) :
    s.table l n = P l n := by
  have hlevel : 3 - l = 3 - (l + 1) + 1 := by omega
  have hdef : s.table l n = (s.table (l + 1) (n / ptrs)).bind fun t =>
      (s.mem.tbl t (n % ptrs)).bind Entry.table := by
    rw [Space.table, hlevel]
    rfl
  rw [hdef, ih]
  cases ht : P (l + 1) (n / ptrs) with
  | some t =>
    show (s.mem.tbl t (n % ptrs)).bind Entry.table = _
    rw [h.stored.inner l _ t ht _ (Nat.mod_lt n ptrs_pos),
      (Radix.Stored.cell_number ptrs_pos (Nat.mod_lt n ptrs_pos)).mpr ⟨rfl, rfl⟩]
    cases P l n with
    | none => rfl
    | some q => exact entry_table q
  | none =>
    cases hq : P l n with
    | none => rfl
    | some => exact absurd ht (h.stored.parent l n hl (by rw [hq]; nofun))

theorem table_eq (hl : l ≤ 3) (n : Nat) : s.table l n = P l n := by
  have h3 : ∀ n, s.table 3 n = P 3 n := fun n => by
    show (if n = 0 then some s.mm.pgd else none) = _
    split_ifs with hn
    · rw [hn, h.top]
    · rw [h.single n hn]
  have h2 := h.table_step (by decide) h3
  have h1 := h.table_step (by decide) h2
  obtain rfl | rfl | rfl | rfl : l = 0 ∨ l = 1 ∨ l = 2 ∨ l = 3 := by omega
  · exact h.table_step (by decide) h1 n
  · exact h1 n
  · exact h2 n
  · exact h3 n

theorem isMapped_iff (hv : v ∈ s.mm.vmas) : v.IsMapped ↔ v.Mapped P := by
  refine ⟨fun hroot => mapped_of_root h hv hroot, fun hm => ?_⟩
  obtain ⟨x, hx⟩ := hm.exists_mem (h.sized v hv).1.lt (by decide : 2 < 3)
  exact Finset.nonempty_iff_ne_empty.mp ⟨x, hx⟩

theorem mem_root_iff (hl : l < 3) (hq : P l n = some q) (hv : v ∈ s.mm.vmas) :
    q ∈ v.root l ↔ v.IsMapped ∧ v.Meets l n := by
  constructor
  · intro hmem
    obtain ⟨-, n', hn', hm⟩ := (h.rep v hv).own l q hmem
    obtain rfl := (h.stored.inj _ _ _ _ q hq hn').2
    exact ⟨(h.isMapped_iff hv).mpr ((h.rep v hv).mapped_of_mem hmem), hm⟩
  · rintro ⟨hroot, hm⟩
    obtain ⟨x, hx, hmem⟩ := (h.isMapped_iff hv).mp hroot l hl n hm
    obtain rfl : q = x := Option.some.inj (hq.symm.trans hx)
    exact hmem

theorem root_eq_empty (hv : v ∈ s.mm.vmas) (hroot : ¬ v.IsMapped) (l : Nat) : v.root l = ∅ :=
  (h.rep v hv).mapped.resolve_right (fun hm => hroot ((h.isMapped_iff hv).mpr hm)) l

end SpaceRep

/-! ## A failed mapping is undone -/

/-- The tables, their content and all reference counts are as before. -/
structure SameTables (s s' : Space) : Prop where
  table : ∀ l ≤ 3, ∀ n, s'.table l n = s.table l n
  content : ∀ l ≤ 3, ∀ n q, s.table l n = some q → ∀ i < ptrs, s'.mem.tbl q i = s.mem.tbl q i
  ref : ∀ q, s'.mem.ref q = s.mem.ref q
  bytes : s'.mm.pgtablesBytes = s.mm.pgtablesBytes
  translate : ∀ a < 2 ^ 48, s'.translate a = s.translate a

theorem SpaceRep.sameTables (h : SpaceRep s.mem s.mm P L) (h' : SpaceRep s'.mem s'.mm P L)
    (hpgd : s'.mm.pgd = s.mm.pgd) (hold : ∀ l q, holders s'.mm.vmas l q = holders s.mm.vmas l q)
    (hother : ∀ q, (∀ l n, P l n ≠ some q) → s'.mem.ref q = s.mem.ref q) : SameTables s s' where
  table l hl n := by rw [h.table_eq hl, h'.table_eq hl]
  content l hl n q hq i hi := by
    rw [h.table_eq hl] at hq
    cases l with
    | zero => rw [h.stored.leaf n q hq i hi, h'.stored.leaf n q hq i hi]
    | succ l => rw [h.stored.inner l n q hq i hi, h'.stored.inner l n q hq i hi]
  ref q := by
    by_cases hq : ∃ l n, P l n = some q
    · obtain ⟨l, n, hq⟩ := hq
      have hl := h.stored.height l n (by rw [hq]; nofun)
      by_cases hl3 : l < 3
      · rw [h.refs l hl3 n q hq, h'.refs l hl3 n q hq, hold]
      · obtain rfl : l = 3 := by omega
        obtain rfl : n = 0 := by
          by_contra hn
          rw [h.single n hn] at hq
          cases hq
        obtain rfl : s.mm.pgd = q := Option.some.inj (h.top.symm.trans hq)
        rw [h.rootRef, ← hpgd, h'.rootRef]
    · push Not at hq
      exact hother q hq
  bytes := by
    obtain ⟨T, hT, hcard⟩ := h.bytes
    obtain ⟨T', hT', hcard'⟩ := h'.bytes
    obtain rfl : T' = T := Finset.ext fun q => (hT' q).trans (hT q).symm
    rw [hcard, hcard']
  translate a ha := by rw [h.translate ha, h'.translate ha]

/-- **A failed mapping is fully undone.** A `vmap_page_range` that returns an error, or 0
without being through with the pages, leaves everything as it found it. A VMA of a multiple
of 2^32 pages has `nr_pages` 0 and would return 0 with all of them mapped. -/
theorem vmap_failure_undone (h : SpaceRep s.mem s.mm P L) (hv : v ∈ s.mm.vmas)
    (hroot : ¬ v.IsMapped) {ret : Int} (hres : s.vmapPageRange v = some (ret, s'))
    (hret : ret < 0 ∨ ret = 0 ∧ v.nrPages ≠ 0) :
    SameTables s s' ∧ ∃ v' ∈ s'.mm.vmas, v'.vmStart = v.vmStart ∧ v'.vmEnd = v.vmEnd ∧
      ∀ l, v'.root l = ∅ := by
  obtain ⟨ret', w, P', L', hres', hop, hcase⟩ := h.vmapPageRange hv
  rw [hres] at hres'
  cases hres'
  have hempty := h.root_eq_empty hv hroot
  obtain ⟨-, -, hw, rfl, htable⟩ := hcase.resolve_left fun hc => by omega
  obtain ⟨l₁, l₂, ha⟩ := h.among hv
  -- the VMA had no leaves
  have hL : without v L = L := by
    funext n
    rw [without]
    split_ifs with hc
    · by_contra hn
      obtain ⟨u, hu, hm, hcu⟩ := h.covered n (Ne.symm hn)
      rw [ha.eq, mem_append, mem_cons] at hu
      rcases hu with hu | rfl | hu
      · exact SpaceRep.not_covers_of_among ha (mem_append_left _ hu) hcu hc
      · obtain ⟨x, hx⟩ := hm.exists_mem (h.sized u hv).1.lt (by decide : 0 < 3)
        rw [hempty 0] at hx
        exact Finset.notMem_empty x hx
      · exact SpaceRep.not_covers_of_among ha (mem_append_right _ hu) hcu hc
    · rfl
  have hP : P' = P := by
    funext l n
    by_cases hl : l < 3
    · exact htable hempty l hl n
    · by_cases hl3 : l = 3
      · subst hl3
        by_cases hn : n = 0
        · rw [hn, h.top]
          exact hop.rep.top
        · rw [h.single n hn, hop.rep.single n hn]
      · have hnone : ∀ {m mm Q M}, SpaceRep m mm Q M → Q l n = none := fun hQ => by
          by_contra hne
          have := hQ.stored.height l n hne
          omega
        rw [hnone h, hnone hop.rep]
  rw [hL, hP] at hop
  refine ⟨h.sameTables hop.rep rfl (fun l q => ?_) fun q hq => ?_, { v with root := w.root },
    mem_map.mpr ⟨v, hv, if_pos rfl⟩, rfl, rfl, hw⟩
  · rw [show (s.finish v w).mm.vmas = l₁ ++ { v with root := w.root } :: l₂ from
      map_setRoot h ha w.root, ha.eq, holders_among, holders_among]
    simp only [hw, hempty]
  · by_cases hfree : s.mem.ref q = 0
    · by_contra hne
      rcases hop.used q (by rwa [hfree] at hne) with hc | ⟨l, n, hc⟩
      · exact hc.1 hfree
      · exact hq l n hc
    · exact (hop.keeps.page q hfree not_false hq).1

/-! ## Reference counts -/

/-- The reference counts of the tables and the number of tables. -/
structure RefCounted (s : Space) : Prop where
  holders : ∀ l < 3, ∀ n q, s.table l n = some q →
    s.mem.ref q = s.mm.vmas.countP fun v => v.IsMapped ∧ q ∈ v.root l
  meets : ∀ l < 3, ∀ n q, s.table l n = some q →
    s.mem.ref q = s.mm.vmas.countP fun v => v.IsMapped ∧ v.Meets l n
  bytes : ∃ T : Finset Page, (∀ q, q ∈ T ↔ ∃ l < 3, ∃ n, s.table l n = some q) ∧
    s.mm.pgtablesBytes = 4096 * T.card

theorem SpaceRep.refCounted (h : SpaceRep s.mem s.mm P L) : RefCounted s where
  holders l hl n q hq := by
    rw [h.table_eq (by omega)] at hq
    rw [h.refs l hl n q hq, Mm.holders]
    refine countP_congr fun v hv => ?_
    simp only [decide_eq_true_eq, iff_and_self]
    exact fun hmem => ((h.mem_root_iff hl hq hv).mp hmem).1
  meets l hl n q hq := by
    rw [h.table_eq (by omega)] at hq
    rw [h.refs l hl n q hq, Mm.holders]
    refine countP_congr fun v hv => ?_
    simpa only [decide_eq_true_eq] using h.mem_root_iff hl hq hv
  bytes := by
    obtain ⟨T, hT, hcard⟩ := h.bytes
    refine ⟨T, fun q => (hT q).trans ?_, hcard⟩
    refine exists_congr fun l => and_congr_right fun hl => exists_congr fun n => ?_
    rw [h.table_eq (by omega)]

/-! ## Unmapping everything -/

/-- Pages in use afterwards were in use before and no tables, or are tables now. -/
def NoLeak (s : Space) (P : Nat → Nat → Option Page) (s' : Space)
    (P' : Nat → Nat → Option Page) : Prop :=
  ∀ q, s'.mem.ref q ≠ 0 →
    (s.mem.ref q ≠ 0 ∧ ∀ l n, P l n ≠ some q) ∨ ∃ l n, P' l n = some q

/-- Every page in use was in use in `m`, or is a table or a page of the address space. -/
def Accounted (m : Mem) (s : Space) (P : Nat → Nat → Option Page) : Prop :=
  ∀ q, s.mem.ref q ≠ 0 → m.ref q ≠ 0 ∨ (∃ l n, P l n = some q) ∨ q ∈ ownPages s.mm.vmas

theorem NoLeak.trans (h : NoLeak s P s' P') (h' : NoLeak s' P' s'' P'') : NoLeak s P s'' P'' := by
  intro q hq
  rcases h' q hq with ⟨hq', hP'⟩ | hq'
  · exact (h q hq').imp_right fun ⟨l, n, hln⟩ => absurd hln (hP' l n)
  · exact .inr hq'

theorem noLeak_of_le (h : ∀ q, s'.mem.ref q ≠ 0 → s.mem.ref q ≠ 0) : NoLeak s P s' P := by
  intro q hq
  by_cases hP : ∃ l n, P l n = some q
  · exact .inr hP
  · push Not at hP
    exact .inl ⟨h q hq, hP⟩

theorem SpaceOk.unmapAndFree (h : SpaceOk s P L) (ha : Among s.mm l₁ v l₂) (hm : v.IsMapped) :
    ∃ s1 s2 P' L', s.vumapPageRange v = some s1 ∧ s1.mmapFreeVmapArea v.vmStart = some s2 ∧
      SpaceOk s2 P' L' ∧ SpaceTo s P s2 P' ∧ NoLeak s P s2 P' ∧
      (∀ m, Accounted m s P → Accounted m s2 P') ∧
      ∃ bytes, s2.mm = { s.mm with vmas := l₁ ++ l₂, pgtablesBytes := bytes } := by
  have hv : v ∈ s.mm.vmas := by rw [ha.eq]; simp
  obtain ⟨w, P', hres, hop, hroot⟩ := h.rep.vumapPageRange hv (mapped_of_root h.rep hv hm)
  obtain ⟨hok1, hto1⟩ := h.tableOp hop
  have hvmas : (s.finish v w).mm.vmas = l₁ ++ { v with root := w.root } :: l₂ :=
    map_setRoot h.rep ha w.root
  have ha1 : Among (s.finish v w).mm l₁ { v with root := w.root } l₂ := ⟨hvmas, ha.before, ha.after⟩
  obtain ⟨r, hfree, hr, hok2, hto2⟩ := hok1.mmapFreeVmapArea ha1 hroot (a := v.vmStart) le_rfl
    (h.rep.sized v hv).1.lt
  have hleak : NoLeak s P (s.finish v w) P' := hop.used
  refine ⟨_, _, P', _, hres, hfree, hok2, hto1.trans hto2,
    hleak.trans (noLeak_of_le fun q hq => ?_), fun m hacc q hq => ?_, w.pgtablesBytes, rfl⟩
  · change r q ≠ 0 at hq
    rw [hr q] at hq
    split_ifs at hq
    · exact absurd rfl hq
    · exact hq
  · change r q ≠ 0 at hq
    change m.ref q ≠ 0 ∨ _ ∨ q ∈ ownPages (l₁ ++ l₂)
    rw [hr q] at hq
    split_ifs at hq with hmem
    · exact absurd rfl hq
    · rcases hleak q hq with ⟨href, hP⟩ | hP'
      · rcases hacc q href with h1 | ⟨l, n, h2⟩ | h3
        · exact .inl h1
        · exact absurd h2 (hP l n)
        · rw [ha.eq] at h3
          refine .inr (.inr ((mem_append.mp (ownPages_among.mem_iff.mp h3)).resolve_left
            fun hc => hmem ?_))
          split_ifs at hc with hpriv
          · exact ⟨hpriv, by simpa using hc⟩
          · cases hc
      · exact .inr (.inl hP')

theorem SpaceOk.destroyVmas {vs : List Vma} (h : SpaceOk s P L) (l₁ l₂ : List Vma)
    (hvs : s.mm.vmas = l₁ ++ (vs ++ l₂)) (hall : ∀ v ∈ vs, v.IsMapped) :
    ∃ s' P' L', Space.destroyVmas vs s = some s' ∧ SpaceOk s' P' L' ∧ SpaceTo s P s' P' ∧
      NoLeak s P s' P' ∧ (∀ m, Accounted m s P → Accounted m s' P') ∧
      ∃ bytes, s'.mm = { s.mm with vmas := l₁ ++ l₂, pgtablesBytes := bytes } := by
  induction vs generalizing s P L with
  | nil =>
    exact ⟨s, P, L, rfl, h, .refl s P, noLeak_of_le fun _ hq => hq, fun _ hacc => hacc,
      s.mm.pgtablesBytes, by rw [← nil_append l₂, ← hvs]⟩
  | cons v vs ih =>
    obtain ⟨s1, s2, P2, L2, hs1, hs2, hok2, hto2, hleak2, hacc2, bytes, hmm⟩ :=
      h.unmapAndFree (h.rep.among_of_eq hvs) (hall v (by simp))
    obtain ⟨s', P', L', hres, hok', hto', hleak', hacc', bytes', hmm'⟩ :=
      ih hok2 (by rw [hmm]; rfl) fun u hu => hall u (by simp [hu])
    refine ⟨s', P', L', ?_, hok', hto2.trans hto', hleak2.trans hleak',
      fun m hacc => hacc' m (hacc2 m hacc), bytes', by rw [hmm', hmm]⟩
    rw [Space.destroyVmas, hs1, Option.bind_some, hs2, Option.bind_some, hres]

theorem SpaceOk.mmapDestroyMm (h : SpaceOk s P L) (hall : ∀ v ∈ s.mm.vmas, v.IsMapped) :
    ∃ s' P' L', s.mmapDestroyMm = some s' ∧ SpaceOk s' P' L' ∧ SpaceTo s P s' P' ∧
      NoLeak s P s' P' ∧ (∀ m, Accounted m s P → Accounted m s' P') ∧
      ∃ bytes, s'.mm = { s.mm with vmas := [], pgtablesBytes := bytes } :=
  h.destroyVmas [] [] (by simp) hall

theorem SpaceRep.bytes_eq_zero (h : SpaceRep s.mem s.mm P L) (hvs : s.mm.vmas = []) :
    s.mm.pgtablesBytes = 0 ∧ ∀ l < 3, ∀ n, P l n = none := by
  have hnone : ∀ l < 3, ∀ n, P l n = none := fun l hl n => by
    by_contra hne
    obtain ⟨q, hq⟩ := Option.ne_none_iff_exists'.mp hne
    obtain ⟨v, hv, -⟩ := h.holder hl hq
    rw [hvs] at hv
    cases hv
  obtain ⟨T, hT, hcard⟩ := h.bytes
  have hT : T = ∅ := Finset.eq_empty_of_forall_notMem fun q hq => by
    obtain ⟨l, hl, n, hln⟩ := (hT q).mp hq
    rw [hnone l hl n] at hln
    cases hln
  exact ⟨by rw [hcard, hT]; rfl, hnone⟩

theorem SpaceRep.eq_pgd (h : SpaceRep s.mem s.mm P L) (hvs : s.mm.vmas = []) (hq : P l n = some q) : q = s.mm.pgd := by
  have hl := h.stored.height l n (by rw [hq]; nofun)
  by_cases hl3 : l < 3
  · rw [(h.bytes_eq_zero hvs).2 l hl3 n] at hq
    cases hq
  · obtain rfl : l = 3 := by omega
    by_cases hn : n = 0
    · rw [hn, h.top] at hq
      exact (Option.some.inj hq).symm
    · rw [h.single n hn] at hq
      cases hq

theorem SpaceOk.destroyMm (h : SpaceOk s P L) (hall : ∀ v ∈ s.mm.vmas, v.IsMapped) :
    ∃ s' m, s.mmapDestroyMm = some s' ∧ s'.mmapFreeMmStruct = some m ∧
      ∀ l ≤ 3, ∀ n q, s.table l n = some q → m.ref q = 0 := by
  obtain ⟨s', P', L', hres, hok', -, hleak, -, bytes, hmm⟩ := h.mmapDestroyMm hall
  obtain ⟨hbytes, -⟩ := hok'.rep.bytes_eq_zero (by rw [hmm])
  have hroot := hok'.rep.rootRef
  refine ⟨s', { s'.mem with ref := update s'.mem.ref s'.mm.pgd 0 }, hres, ?_,
    fun l hl n q hq => ?_⟩
  · rw [Space.mmapFreeMmStruct, if_pos ⟨hbytes, by rw [hmm]⟩, Mem.putPage, hroot]
    rfl
  · show update s'.mem.ref s'.mm.pgd 0 q = 0
    by_cases hpgd : q = s'.mm.pgd
    · rw [hpgd, update_self]
    · rw [update_of_ne hpgd]
      by_contra hne
      rw [h.rep.table_eq hl] at hq
      rcases hleak q hne with ⟨-, hP⟩ | ⟨l', n', hln⟩
      · exact hP l n hq
      · exact hpgd (hok'.rep.eq_pgd (by rw [hmm]) hln)

/-! ## The runs -/

/-- **Page-table reference counting.** In every state that is reached with VMAs below 2^48 the
tables are counted right, mapping a VMA, unmapping and freeing a mapped one and freeing one
that is not mapped fail no assertion, and when all VMAs are mapped the address space can be
destroyed, which frees every table. -/
theorem tables_counted (hk : (machine b).Reach (fun _ a => a.below = true) k)
    (hi : k.mm i = some mm) :
    RefCounted ⟨k.mem, mm⟩ ∧
    (∀ v ∈ mm.vmas, ∃ ret s, Space.vmapPageRange v ⟨k.mem, mm⟩ = some (ret, s)) ∧
    (∀ v ∈ mm.vmas, v.IsMapped → ∃ s₁ s₂, Space.vumapPageRange v ⟨k.mem, mm⟩ = some s₁ ∧
      s₁.mmapFreeVmapArea v.vmStart = some s₂) ∧
    (∀ v ∈ mm.vmas, ¬ v.IsMapped → ∃ s, Space.mmapFreeVmapArea v.vmStart ⟨k.mem, mm⟩ = some s) ∧
    ((∀ v ∈ mm.vmas, v.IsMapped) → ∃ s m, Space.mmapDestroyMm ⟨k.mem, mm⟩ = some s ∧
      s.mmapFreeMmStruct = some m ∧
      ∀ l ≤ 3, ∀ n q, Space.table ⟨k.mem, mm⟩ l n = some q → m.ref q = 0) := by
  obtain ⟨P, L, hinv⟩ := Spaces.Inv.of_reach (fun _ _ h => h) hk
  have hok := hinv.ok hi
  refine ⟨SpaceRep.refCounted (s := ⟨k.mem, mm⟩) hok.rep, fun v hv => ?_, fun v hv hm => ?_,
    fun v hv hm => ?_, hok.destroyMm⟩
  · obtain ⟨ret, w, P', L', hres, -⟩ := hok.rep.vmapPageRange hv
    exact ⟨ret, _, hres⟩
  · obtain ⟨l₁, l₂, ha⟩ := hok.rep.among hv
    obtain ⟨s₁, s₂, P', L', hs1, hs2, -⟩ := hok.unmapAndFree ha hm
    exact ⟨s₁, s₂, hs1, hs2⟩
  · obtain ⟨l₁, l₂, ha⟩ := hok.rep.among hv
    obtain ⟨r, hres, -⟩ := hok.mmapFreeVmapArea ha (hok.rep.root_eq_empty hv hm) le_rfl
      (hok.rep.sized v hv).1.lt
    exact ⟨_, hres⟩

/-- **The tables hold what the mapped VMAs need**, whatever was done before. An address is
translated to a page iff it lies in a mapped VMA that has the page there, and there is a table
iff it covers an address of a mapped VMA. -/
theorem tables_exact (hk : (machine b).Reach (fun _ a => a.below = true) k)
    (hi : k.mm i = some mm) :
    (∀ a < 2 ^ 48, ∀ p, (∃ e, Space.translate ⟨k.mem, mm⟩ a = some e ∧ e.page = p) ↔
      ∃ v ∈ mm.vmas, v.IsMapped ∧ v.vmStart ≤ a ∧ a < v.vmEnd ∧
        v.page ((a - v.vmStart) / pageSize) = some p) ∧
    ∀ l < 3, ∀ n, (∃ q, Space.table ⟨k.mem, mm⟩ l n = some q) ↔
      ∃ v ∈ mm.vmas, v.IsMapped ∧ v.Meets l n := by
  obtain ⟨P, L, hinv⟩ := Spaces.Inv.of_reach (fun _ _ h => h) hk
  have h := (hinv.ok hi).rep
  refine ⟨fun a ha p => ?_, fun l hl n => ?_⟩
  · rw [h.translate ha]
    constructor
    · rintro ⟨e, he, rfl⟩
      obtain ⟨v, hv, hm, hc⟩ := h.covered _ (by rw [he]; nofun)
      have hsz := (h.sized v hv).1
      obtain ⟨h1, h2⟩ := (hsz.covers_iff a).mp hc
      have hpage := h.leaf v hv _ e hc he
      rw [hsz.sub_div a] at hpage
      exact ⟨v, hv, (h.isMapped_iff hv).mpr hm, h1, h2, hpage⟩
    · rintro ⟨v, hv, hm, h1, h2, hpage⟩
      have hsz := (h.sized v hv).1
      have hc := (hsz.covers_iff a).mpr ⟨h1, h2⟩
      obtain ⟨e, he⟩ := Option.ne_none_iff_exists'.mp
        (h.filled v hv ((h.isMapped_iff hv).mp hm) _ hc)
      have hleaf := h.leaf v hv _ e hc he
      rw [hsz.sub_div a, hpage] at hleaf
      exact ⟨e, he, (Option.some.inj hleaf).symm⟩
  · rw [h.table_eq hl.le]
    constructor
    · rintro ⟨q, hq⟩
      obtain ⟨v, hv, hmem, hmeets⟩ := h.holder hl hq
      exact ⟨v, hv, ((h.mem_root_iff hl hq hv).mp hmem).1, hmeets⟩
    · rintro ⟨v, hv, hm, hmeets⟩
      obtain ⟨q, hq, -⟩ := (h.isMapped_iff hv).mp hm l hl n hmeets
      exact ⟨q, hq⟩

end Tables

/-! ## Two VMAs below one table -/

/-- The second of two neighbouring VMAs is mapped and the first is not; there are nodes for two
of its tables only. -/
def mapSecond : List Act :=
  [.supply (replicate 9 true) ((range 9).map some) [], .mmapAllocMmStruct 0,
    .op 0 (.mmapGetVmapArea 0x2000 0x1000 (vmRead ||| vmWrite) 0), .op 0 (.vmapPageRange 0x2000),
    .op 0 (.mmapGetVmapArea 0x1000 0x1000 (vmRead ||| vmWrite) 0), .supply [true, true] [] []]

theorem mapSecond_reach {k : Spaces}
    (hk : (machine plainBoard).run ⟨emptyMem, fun _ => none⟩ mapSecond = some k) :
    (machine plainBoard).Reach (fun _ a => a.below = true) k :=
  reach_of_run (.init fun _ => rfl) (by decide) hk

/-- The first VMA shares two tables with the second before it fails. -/
theorem vmap_failure_undone_first : ∃ k mm v s s',
    (machine plainBoard).run ⟨emptyMem, fun _ => none⟩ mapSecond = some k ∧ k.mm 0 = some mm ∧
      mm.vmas.head? = some v ∧ s = ⟨k.mem, mm⟩ ∧ s.vmapPageRange v = some (-enomem, s') ∧
      SameTables s s' := by
  have hval : ((machine plainBoard).run ⟨emptyMem, fun _ => none⟩ mapSecond).bind (fun k =>
      (k.mm 0).bind fun mm => mm.vmas.head?.bind fun v =>
        (Space.vmapPageRange v ⟨k.mem, mm⟩).map fun r => (r.1, decide v.IsMapped)) =
      some (-enomem, false) := by decide
  obtain ⟨k, hk, hval⟩ := Option.bind_eq_some_iff.mp hval
  obtain ⟨mm, hmm, hval⟩ := Option.bind_eq_some_iff.mp hval
  obtain ⟨v, hv, hval⟩ := Option.bind_eq_some_iff.mp hval
  obtain ⟨⟨ret, s'⟩, hres, hret⟩ := Option.map_eq_some_iff.mp hval
  simp only [Prod.mk.injEq, decide_eq_false_iff_not] at hret
  obtain ⟨rfl, hroot⟩ := hret
  obtain ⟨P, L, hinv⟩ := Spaces.Inv.of_reach (fun _ _ h => h) (mapSecond_reach hk)
  exact ⟨k, mm, v, _, s', hk, hmm, hv, rfl, hres, (vmap_failure_undone
    (s := ⟨k.mem, mm⟩) (hinv.space 0 mm hmm) (mem_of_head? hv) hroot hres
    (.inl (by decide))).1⟩

/-- The second VMA can be unmapped and freed. -/
theorem tables_counted_second : ∃ k mm v s₁ s₂,
    (machine plainBoard).run ⟨emptyMem, fun _ => none⟩ mapSecond = some k ∧ k.mm 0 = some mm ∧
      mm.vmas[1]? = some v ∧ RefCounted ⟨k.mem, mm⟩ ∧
      Space.vumapPageRange v ⟨k.mem, mm⟩ = some s₁ ∧
      s₁.mmapFreeVmapArea v.vmStart = some s₂ := by
  have hval : ((machine plainBoard).run ⟨emptyMem, fun _ => none⟩ mapSecond).bind (fun k =>
      (k.mm 0).bind fun mm => mm.vmas[1]?.map fun v => decide v.IsMapped) = some true := by
    decide
  obtain ⟨k, hk, hval⟩ := Option.bind_eq_some_iff.mp hval
  obtain ⟨mm, hmm, hval⟩ := Option.bind_eq_some_iff.mp hval
  obtain ⟨v, hv, hval⟩ := Option.map_eq_some_iff.mp hval
  obtain ⟨hcount, -, hunmap, -⟩ := tables_counted (mapSecond_reach hk) hmm
  obtain ⟨s₁, s₂, hs1, hs2⟩ := hunmap v (mem_of_getElem? hv) (of_decide_eq_true hval)
  exact ⟨k, mm, v, s₁, s₂, hk, hmm, hv, hcount, hs1, hs2⟩

/-- Its last byte is translated. -/
theorem tables_exact_second : ∃ k mm e v,
    (machine plainBoard).run ⟨emptyMem, fun _ => none⟩ mapSecond = some k ∧ k.mm 0 = some mm ∧
      Space.translate ⟨k.mem, mm⟩ 0x2fff = some e ∧ v ∈ mm.vmas ∧
      v.page ((0x2fff - v.vmStart) / pageSize) = some e.page := by
  have hval : ((machine plainBoard).run ⟨emptyMem, fun _ => none⟩ mapSecond).bind (fun k =>
      (k.mm 0).map fun mm => (Space.translate ⟨k.mem, mm⟩ 0x2fff).isSome) = some true := by
    decide
  obtain ⟨k, hk, hval⟩ := Option.bind_eq_some_iff.mp hval
  obtain ⟨mm, hmm, hval⟩ := Option.map_eq_some_iff.mp hval
  obtain ⟨e, he⟩ := Option.isSome_iff_exists.mp hval
  obtain ⟨v, hv, -, -, -, hpage⟩ :=
    ((tables_exact (mapSecond_reach hk) hmm).1 0x2fff (by decide) e.page).mp ⟨e, he, rfl⟩
  exact ⟨k, mm, e, v, hk, hmm, he, hv, hpage⟩

/-- `mmap_destroy_mm` unmaps the first VMA, too, and fails `BUG_ON(!ur_pte)`: the VMA keeps no
table and there is one at its address. -/
theorem destroy_unmapped : ¬ ∀ k mm, (machine plainBoard).Reach (fun _ a => a.below = true) k →
    k.mm 0 = some mm → ∃ s, Space.mmapDestroyMm ⟨k.mem, mm⟩ = some s := by
  intro h
  have hval : ((machine plainBoard).run ⟨emptyMem, fun _ => none⟩ mapSecond).bind (fun k =>
      (k.mm 0).map fun mm => (Space.mmapDestroyMm ⟨k.mem, mm⟩).isSome) = some false := by
    decide
  obtain ⟨k, hk, hval⟩ := Option.bind_eq_some_iff.mp hval
  obtain ⟨mm, hmm, hval⟩ := Option.map_eq_some_iff.mp hval
  obtain ⟨s, hs⟩ := h k mm (mapSecond_reach hk) hmm
  rw [hs] at hval
  cases hval

end MinixRt.Mm
