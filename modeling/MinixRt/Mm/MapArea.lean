import MinixRt.Mm.Tables

/-!
# A new VMA, filled and mapped

`brk_mmap_heap`, `mmap_initrd`, `system_exec`, `setup_services_stack` and `elf_map` all make a
VMA, put content into its pages, map it, and free the VMA again when the mapping fails. They
are members of `mapArea`, which differ in the content and in the errors they make of the
result.
-/

namespace MinixRt.Mm

open Lib

abbrev Data := Page → Nat → BitVec 8

inductive Mapping
  /-- `mmap_get_vmap_area` returns `NULL`. -/
  | noVma
  /-- `vmap_page_range` fails and the VMA is freed. -/
  | noMap
  | mapped (vma : Vma)

namespace Space

def setData (s : Space) (d : Data) : Space := { s with mem := { s.mem with data := d } }

/-- A new VMA is filled by `fill` and mapped. -/
def mapArea (b : Board) (vstart size : Nat) (flags : BitVec 64) (phys : Nat)
    (fill : Vma → Data → Data) (s : Space) : Option (Mapping × Space) :=
  match s.mmapGetVmapArea b vstart size flags phys with
  | (none, s) => some (.noVma, s)
  | (some vma, s) =>
    ((s.setData (fill vma s.mem.data)).vmapPageRange vma).bind fun r =>
      if r.1 ≤ 0 then (r.2.mmapFreeVmapArea vstart).map (.noMap, ·)
      else some (.mapped vma, r.2)

end Space

/-- The content of other pages stays. -/
def Fills (fill : Vma → Data → Data) : Prop :=
  ∀ v d q, some q ∉ v.pages → fill v d q = d q

/-- The new VMA `v` is among the others, mapped, and its pages have the content of `fill`. -/
structure MappedArea (s : Space) (vstart size : Nat) (flags : BitVec 64)
    (fill : Vma → Data → Data) (v : Vma) (s' : Space) : Prop where
  start : v.vmStart = vstart
  stop : v.vmEnd = vstart + size
  flag : v.vmFlags = flags
  nr : v.nrPages = size / pageSize % 2 ^ 32
  mm : ∃ l₁ l₂ r bytes, s.mm.vmas = l₁ ++ l₂ ∧ ({ v with root := r } : Vma).IsMapped ∧
    s'.mm = { s.mm with vmas := l₁ ++ { v with root := r } :: l₂, pgtablesBytes := bytes }
  data : ∃ d, (∀ p, some p ∈ v.pages → d p = fun _ => 0) ∧
    ∀ p, some p ∈ v.pages → s'.mem.data p = fill v d p
  fresh : ∃ ps : List Page, v.pages = ps.map some ∧ ps.Nodup ∧ ∀ p ∈ ps, s.mem.ref p = 0
  keep : ∀ q, s.mem.ref q ≠ 0 → s'.mem.data q = s.mem.data q

section MapArea

variable {b : Board} {m : Mem} {s s' s'' : Space} {P P' P'' : Nat → Nat → Option Page}
  {L L' : Nat → Option Entry} {v : Vma} {l₁ l₂ : List Vma} {vstart size phys : Nat}
  {flags : BitVec 64} {fill : Vma → Data → Data}

theorem SpaceOk.setData (h : SpaceOk s P L) (d : Data) : SpaceOk (s.setData d) P L :=
  ⟨h.rep.congr fun _ _ _ _ => ⟨rfl, rfl⟩, ⟨h.own.all, h.own.nodup, h.own.ref⟩, h.data⟩

theorem SpaceTo.setData {d : Data} (hd : ∀ q, q ∉ ownPages s.mm.vmas → d q = s.mem.data q) :
    SpaceTo s P (s.setData d) P :=
  ⟨⟨fun _ _ _ hP => ⟨rfl, rfl, hP⟩, fun q _ hown _ => hd q hown⟩, fun _ hp => .inr (.inl hp)⟩

theorem Vma.Mapped.isMapped (h : v.Mapped P) (hsz : v.vmStart < v.vmEnd) : v.IsMapped := by
  obtain ⟨q, hq⟩ := h.exists_mem hsz (by decide : 2 < 3)
  exact Finset.nonempty_iff_ne_empty.mp ⟨q, hq⟩

/-- The result of `mapArea`. -/
def Outcome (s : Space) (vstart size : Nat) (flags : BitVec 64) (fill : Vma → Data → Data)
    (s' : Space) : Mapping → Prop
  | .noVma | .noMap => ∃ bytes, s'.mm = { s.mm with pgtablesBytes := bytes }
  | .mapped v => MappedArea s vstart size flags fill v s'

/-- The range meets no VMA. -/
def Space.Apart (s : Space) (vstart size : Nat) : Prop :=
  ∀ u ∈ s.mm.vmas, u.vmEnd ≤ vstart ∨ vstart + size ≤ u.vmStart

theorem Accounted.same (h : Accounted m s P) {m' : Mem} (hm : ∀ q, m'.ref q = s.mem.ref q) :
    Accounted m { s with mem := m' } P := fun q hq => h q (by rwa [← hm q])

theorem SpaceOk.mapMade (h : SpaceOk s P L) (hm : Made s vstart size flags phys v s')
    (hrep : SpaceRep s'.mem s'.mm P L) (hpriv : v.Private) (hfill : Fills fill) :
    ∃ ret w P' L', Space.vmapPageRange v (s'.setData (fill v s'.mem.data)) =
        some (ret, (s'.setData (fill v s'.mem.data)).finish v w) ∧
      SpaceOk ((s'.setData (fill v s'.mem.data)).finish v w) P' L' ∧
      SpaceTo s P ((s'.setData (fill v s'.mem.data)).finish v w) P' ∧
      (∀ q, w.ref q ≠ 0 → (s'.mem.ref q ≠ 0 ∧ ∀ l n, P l n ≠ some q) ∨ ∃ l n, P' l n = some q) ∧
      ((ret = v.nrPages ∧ ({ v with root := w.root } : Vma).IsMapped) ∨
        (ret ≤ 0 ∧ ∀ l, w.root l = ∅)) := by
  obtain ⟨l₁, l₂, heq, hmm⟩ := hm.mm
  have hv : v ∈ s'.mm.vmas := by rw [hmm]; simp
  obtain ⟨hok1, hto1⟩ := h.made hm hrep
  have hok2 := hok1.setData (fill v s'.mem.data)
  have hto2 : SpaceTo s' P (s'.setData (fill v s'.mem.data)) P := .setData fun q hq =>
    hfill v _ q fun hmem => hq (mem_ownPages.mpr ⟨v, hv, hpriv, hmem⟩)
  obtain ⟨ret, w, P', L', hres, hop, hcase⟩ :=
    SpaceRep.vmapPageRange (s := s'.setData (fill v s'.mem.data)) hok2.rep hv
  obtain ⟨hok3, hto3⟩ := hok2.tableOp hop
  refine ⟨ret, w, P', L', hres, hok3, (hto1.trans hto2).trans hto3, hop.used, ?_⟩
  rcases hcase with ⟨hret, hmapped, -⟩ | ⟨hret, -, hroot, -⟩
  · exact .inl ⟨hret, hmapped.isMapped (hok2.rep.sized v hv).1.lt⟩
  · exact .inr ⟨hret, hroot⟩

theorem mmapGetVmapArea_some (h : s.mmapGetVmapArea b vstart size flags phys = (some v, s')) :
    v.vmStart = vstart ∧ (vstart % pageSize = 0 ∧ size % pageSize = 0 ∧ size ≠ 0 ∧ vstart ≠ 0) ∧
      v.vmEnd = u64 (vstart + size) ∧ v.vmFlags = flags ∧
      (flags &&& vmPrivateShare ≠ 0 → flags &&& vmIoremap = 0 →
        physPages b (size / pageSize % 2 ^ 32) phys = some v.pages) ∧
      insertVmaArea v s.mm.vmas = some s'.mm.vmas ∧ s'.mm = { s.mm with vmas := s'.mm.vmas } := by
  unfold Space.mmapGetVmapArea at h
  split at h
  · cases h
  rename_i hargs
  split at h
  · cases h
  split at h
  · cases h
  split at h
  · cases h
  rename_i pages mem hpages
  simp only at h
  split at h
  · cases h
  rename_i vmas hins
  cases h
  refine ⟨rfl, by tauto, rfl, rfl, fun hshare hio => ?_, hins, rfl⟩
  rw [vmaPages, if_neg hshare, if_pos hio] at hpages
  exact (Prod.mk.inj hpages).1

theorem Made.ref_of_not_mem (hm : Made s vstart size flags phys v s') (hpriv : v.Private) {q : Page}
    (hq : some q ∉ v.pages) : s'.mem.ref q = s.mem.ref q := by
  obtain ⟨ps, hps, htaken⟩ := hm.taken hpriv
  exact (htaken.rest q fun hmem => hq (by rw [hps]; exact List.mem_map_of_mem hmem)).1

theorem Made.pageSize_le (hm : Made s vstart size flags phys v s') (hsz : v.Sized) :
    pageSize ≤ size := by
  have := hsz.add_pageSize_le
  rw [hm.start, hm.stop] at this
  omega

theorem Made.accounted (hm : Made s vstart size flags phys v s') (hpriv : v.Private)
    (hacc : Accounted m s P) {q : Page} (hq : some q ∉ v.pages) (href : s'.mem.ref q ≠ 0)
    (hP : ∀ l n, P l n ≠ some q) : m.ref q ≠ 0 ∨ q ∈ ownPages s.mm.vmas := by
  rw [hm.ref_of_not_mem hpriv hq] at href
  rcases hacc q href with h | ⟨l, n, h⟩ | h
  · exact .inl h
  · exact absurd h (hP l n)
  · exact .inr h

/-- `mapArea` for pages of the page allocator: it fails without a trace or maps a new VMA. A
VMA of a multiple of 2^32 pages would be taken for one that was not mapped. -/
theorem SpaceOk.mapArea (h : SpaceOk s P L) (b : Board) (vstart size : Nat) (flags : BitVec 64)
    (phys : Nat) (fill : Vma → Data → Data) (hend : vstart + size ≤ entrySize 4)
    (hpriv : flags &&& vmPrivateShare = 0) (hnr : size < pageSize ∨ size / pageSize % 2 ^ 32 ≠ 0)
    (hfill : Fills fill) :
    ∃ r s' P' L', s.mapArea b vstart size flags phys fill = some (r, s') ∧ SpaceOk s' P' L' ∧
      SpaceTo s P s' P' ∧ Outcome s vstart size flags fill s' r ∧
      ∀ m, s.Apart vstart size → Accounted m s P → Accounted m s' P' := by
  rcases h.rep.mmapGetVmapArea b flags phys hend with
    ⟨m', hres, hsame, hback⟩ | ⟨v, s1, hres, hmade, hrep⟩
  · refine ⟨.noVma, { s with mem := m' }, P, L, by rw [Space.mapArea, hres], (h.same hsame).1,
      (h.same hsame).2, ⟨s.mm.pgtablesBytes, rfl⟩, fun m hap hacc => hacc.same (hback hap)⟩
  obtain ⟨l₁, l₂, heq, hmm⟩ := hmade.mm
  have hv : v.Private := by rw [Vma.Private, hmade.flag]; exact hpriv
  obtain ⟨ret, w, P', L', hvmap, hok, hto, hused, hcase⟩ := h.mapMade hmade hrep hv hfill
  have ha : Among s1.mm l₁ v l₂ := hrep.among_of_eq (by rw [hmm])
  have hvmas : ((s1.setData (fill v s1.mem.data)).finish v w).mm.vmas =
      l₁ ++ { v with root := w.root } :: l₂ := map_setRoot hrep ha w.root
  have hmm' : ((s1.setData (fill v s1.mem.data)).finish v w).mm = { s.mm with
      vmas := l₁ ++ { v with root := w.root } :: l₂, pgtablesBytes := w.pgtablesBytes } := by
    rw [← hvmas]
    simp only [Space.finish, Space.setData, hmm]
  have hown : ∀ q, q ∈ ownPages s.mm.vmas → q ∈ ownPages (l₁ ++ { v with root := w.root } :: l₂) :=
    fun q hq => by
      rw [heq] at hq
      exact ownPages_among.mem_iff.mpr (List.mem_append_right _ hq)
  rcases hcase with ⟨hret, hmapped⟩ | ⟨hret, hroot⟩
  · have hpos : ¬ ret ≤ 0 := by
      have := hmade.nr
      have := hmade.pageSize_le (hrep.sized v (by rw [hmm]; simp)).1
      omega
    obtain ⟨ps, hps, htaken⟩ := hmade.taken hv
    have hfresh : ∀ p, some p ∈ v.pages → s.mem.ref p = 0 ∧ s1.mem.data p = fun _ => 0 :=
      fun p hp => by
        obtain ⟨h1, -, h2⟩ := htaken.fresh p (by simpa [hps] using hp)
        exact ⟨h1, h2⟩
    refine ⟨.mapped v, _, P', L', ?_, hok, hto, ⟨hmade.start, hmade.stop, hmade.flag, hmade.nr,
      ⟨l₁, l₂, w.root, w.pgtablesBytes, heq, hmapped, hmm'⟩,
      ⟨s1.mem.data, fun p hp => (hfresh p hp).2, fun _ _ => rfl⟩,
      ⟨ps, hps, htaken.nodup, fun p hp => (htaken.fresh p hp).1⟩, fun q hq => ?_⟩, ?_⟩
    · rw [Space.mapArea, hres]
      simp only [hvmap, Option.bind_some, if_neg hpos]
    · exact (hfill v _ q fun hc => hq (hfresh q hc).1).trans (hmade.same.1 q hq).2.2
    · intro m _ hacc q hq
      rw [hvmas]
      rcases hused q hq with ⟨href, hP⟩ | hP'
      · by_cases hmem : some q ∈ v.pages
        · exact .inr (.inr (mem_ownPages.mpr ⟨{ v with root := w.root }, by simp, hv, hmem⟩))
        · exact (hmade.accounted hv hacc hmem href hP).imp_right fun hq => .inr (hown q hq)
      · exact .inr (.inl hP')
  · have ha' : Among ((s1.setData (fill v s1.mem.data)).finish v w).mm l₁
        { v with root := w.root } l₂ := hok.rep.among_of_eq hvmas
    obtain ⟨r, hfree, hr, hok', hto'⟩ := hok.mmapFreeVmapArea ha' hroot (a := vstart)
      (by rw [← hmade.start]) (by rw [← hmade.start]; exact (hrep.sized v (by rw [hmm]; simp)).1.lt)
    refine ⟨.noMap, _, P', L', ?_, hok', hto.trans hto', ⟨w.pgtablesBytes, ?_⟩, ?_⟩
    · rw [Space.mapArea, hres]
      simp only [hvmap, Option.bind_some, if_pos hret, hfree, Option.map_some]
    · simp only [hmm', heq]
    · intro m _ hacc q hq
      change r q ≠ 0 at hq
      rw [hr q] at hq
      split_ifs at hq with hmem
      · exact absurd rfl hq
      · change m.ref q ≠ 0 ∨ _ ∨ q ∈ ownPages (l₁ ++ l₂)
        rw [← heq]
        rcases hused q hq with ⟨href, hP⟩ | hP'
        · exact (hmade.accounted hv hacc (fun hc => hmem ⟨hv, hc⟩) href hP).imp_right .inr
        · exact .inr (.inl hP')

variable (h : SpaceOk s P L) (hend : vstart + size ≤ entrySize 4)
  (hpriv : flags &&& vmPrivateShare = 0) (hfill : Fills fill)
  (hres : s.mapArea b vstart size flags phys fill = some (.mapped v, s'))
include h hend hpriv hfill hres

theorem SpaceOk.nr_of_mapped : size / pageSize % 2 ^ 32 ≠ 0 := by
  rcases h.rep.mmapGetVmapArea b flags phys hend with
    ⟨m', hget, -, -⟩ | ⟨u, s1, hget, hmade, hrep⟩
  · rw [Space.mapArea, hget] at hres
    cases hres
  have hu : u.Private := by rw [Vma.Private, hmade.flag]; exact hpriv
  obtain ⟨ret, w, P', L', hvmap, -, -, -, hcase⟩ := h.mapMade hmade hrep hu hfill
  rw [Space.mapArea, hget] at hres
  simp only [hvmap, Option.bind_some] at hres
  split_ifs at hres with hle
  · obtain ⟨_, -, hmap⟩ := Option.map_eq_some_iff.mp hres
    cases hmap
  · intro hzero
    rcases hcase with ⟨hret, -⟩ | ⟨hret, -⟩
    · rw [hret, hmade.nr, hzero] at hle
      exact hle le_rfl
    · exact hle hret

theorem SpaceOk.mapArea_mapped :
    ∃ P' L', SpaceOk s' P' L' ∧ SpaceTo s P s' P' ∧ MappedArea s vstart size flags fill v s' := by
  obtain ⟨r, s1, P', L', hres', hok, hto, hout, -⟩ := h.mapArea b vstart size flags phys fill hend
    hpriv (.inr (h.nr_of_mapped hend hpriv hfill hres)) hfill
  cases hres.symm.trans hres'
  exact ⟨P', L', hok, hto, hout⟩

end MapArea

end MinixRt.Mm
