import MinixRt.System.Exec

/-!
# The new address space

`Built` holds for the new `mm_struct` at every point of `system_exec` and of the loader of the
services: it is in order, all its VMAs are mapped, and the pages of everybody else are as they
were. With `tidy`, every page that was taken is a page of it, so that nothing is left when it
is destroyed.
-/

namespace MinixRt.System

open List Function Lib Mm

variable {P : Nat → Nat → Option Page} {L : Nat → Option Entry}

/-- A VMA that is mapped, with pages of its own for all its range. -/
structure Whole (v : Vma) : Prop where
  mapped : v.IsMapped
  priv : v.Private
  counted : v.Counted

/-- `s` has been made from `s₀`, and `m₀` is the memory before. -/
def Built (tidy : Prop) (m₀ : Mem) (s₀ : Space) (P₀ : Nat → Nat → Option Page) (s : Space) :
    Prop :=
  ∃ P L, SpaceOk s P L ∧ SpaceTo s₀ P₀ s P ∧ (∀ v ∈ s.mm.vmas, Whole v) ∧
    (tidy → Accounted m₀ s P)

def vmaRange (v : Vma) : Nat × Nat := (v.vmStart, v.vmEnd)

/-- The VMAs have the ranges `as`. -/
def Areas (as : List (Nat × Nat)) (s : Space) : Prop := (s.mm.vmas.map vmaRange).Perm as

def Separate (a a' : Nat × Nat) : Prop := a.2 ≤ a'.1 ∨ a'.2 ≤ a.1

section Built

variable {b : Board} {tidy : Prop} {m₀ m : Mem} {s₀ s s' : Space}
  {P₀ : Nat → Nat → Option Page} {vstart size : Nat} {flags : BitVec 64}
  {fill : Vma → Data → Data} {v : Vma} {as : List (Nat × Nat)}

theorem Areas.apart (h : Areas as s) (has : ∀ a ∈ as, Separate a (vstart, vstart + size)) :
    s.Apart vstart size := fun v hv => has _ (h.mem_iff.mp (mem_map.mpr ⟨v, hv, rfl⟩))

theorem Areas.mapped (h : Areas as s) (hm : MappedArea s vstart size flags fill v s') :
    Areas ((vstart, vstart + size) :: as) s' := by
  obtain ⟨l1, l2, r, bytes, heq, -, hmm⟩ := hm.mm
  have hmm' : s'.mm.vmas = l1 ++ { v with root := r } :: l2 := by rw [hmm]
  have hrange : vmaRange { v with root := r } = (vstart, vstart + size) := by
    rw [vmaRange, hm.start, hm.stop]
  unfold Areas at h ⊢
  rw [heq, map_append] at h
  rw [hmm', map_append, map_cons, hrange]
  exact perm_middle.trans (h.cons _)

theorem Areas.same (h : Areas as s) (hvs : s'.mm.vmas = s.mm.vmas) : Areas as s' := by
  unfold Areas
  rw [hvs]
  exact h

theorem Areas.pairwise (h : Areas as s) (hrep : SpaceRep s.mem s.mm P L) :
    as.Pairwise Separate := by
  refine List.Perm.pairwise h (pairwise_map.mpr ?_) fun {_ _} => Or.symm
  exact hrep.ordered.imp fun h => .inl h

theorem nr_ne_zero (h : size < 2 ^ 44) : size < pageSize ∨ size / pageSize % 2 ^ 32 ≠ 0 := by
  unfold pageSize
  omega

theorem whole_of_mapped (h : MappedArea s vstart size flags fill v s') (hsize : size < 2 ^ 44)
    (hpriv : flags &&& vmPrivateShare = 0) {r : Nat → Finset Page}
    (hr : ({ v with root := r } : Vma).IsMapped) : Whole { v with root := r } := by
  refine ⟨hr, ?_, ?_⟩
  · show v.vmFlags &&& vmPrivateShare = 0
    rw [h.flag, hpriv]
  · show v.nrPages = (v.vmEnd - v.vmStart) / pageSize
    rw [h.nr, h.start, h.stop, Nat.add_sub_cancel_left, Nat.mod_eq_of_lt]
    unfold pageSize
    omega

theorem Built.mapArea (h : Built tidy m₀ s₀ P₀ s) (b : Board) (vstart size : Nat)
    (flags : BitVec 64) (fill : Vma → Data → Data) (hend : vstart + size ≤ entrySize 4)
    (hpriv : flags &&& vmPrivateShare = 0) (hsize : size < 2 ^ 44) (hfill : Fills fill)
    (hap : tidy → s.Apart vstart size) :
    ∃ r s', s.mapArea b vstart size flags 0 fill = some (r, s') ∧ Built tidy m₀ s₀ P₀ s' ∧
      Outcome s vstart size flags fill s' r := by
  obtain ⟨P, L, hok, hto, hall, hacc⟩ := h
  obtain ⟨r, s', P', L', hres, hok', hto', hout, hacc'⟩ := hok.mapArea b vstart size flags 0 fill hend hpriv
    (nr_ne_zero hsize) hfill
  refine ⟨r, s', hres, ⟨P', L', hok', hto.trans hto', ?_, fun ht => hacc' m₀ (hap ht) (hacc ht)⟩,
    hout⟩
  cases r with
  | noVma | noMap =>
    obtain ⟨bytes, hmm⟩ := hout
    rw [hmm]
    exact hall
  | mapped =>
    obtain ⟨l1, l2, r, bytes, heq, hmapped, hmm⟩ := hout.mm
    rw [heq] at hall
    rw [hmm]
    intro u hu
    rcases mem_append.mp hu with hu | hu
    · exact hall u (mem_append_left _ hu)
    · rcases mem_cons.mp hu with rfl | hu
      · exact whole_of_mapped hout hsize hpriv hmapped
      · exact hall u (mem_append_right _ hu)

variable {mm : MmStruct}

theorem Built.new (tidy : Prop) (h : NewMm m₀ mm m) :
    Built tidy m₀ ⟨m, mm⟩ (rootOnly mm.pgd) ⟨m, mm⟩ ∧ Areas [] ⟨m, mm⟩ := by
  refine ⟨⟨_, _, h.ok, .refl _ _, by simp [h.vmas], fun _ q hq => ?_⟩, by simp [Areas, h.vmas]⟩
  by_cases hpgd : q = mm.pgd
  · exact .inr (.inl ⟨3, 0, by rw [hpgd]; rfl⟩)
  · exact .inl ((h.rest q hpgd).1 ▸ hq)

/-- The spaces differ in nothing that the tables, the VMAs and their pages depend on. -/
structure Alike (s s' : Space) : Prop where
  ref : s'.mem.ref = s.mem.ref
  tbl : s'.mem.tbl = s.mem.tbl
  data : s'.mem.data = s.mem.data
  vmas : s'.mm.vmas = s.mm.vmas
  pgd : s'.mm.pgd = s.mm.pgd
  bytes : s'.mm.pgtablesBytes = s.mm.pgtablesBytes

theorem SpaceOk.congr (h : SpaceOk s P L) (ha : Alike s s') : SpaceOk s' P L := by
  obtain ⟨rep, own, hdata⟩ := h
  refine ⟨⟨?_, ?_, rep.single, ?_, ?_, ?_, ?_, ?_, ?_, ?_, ?_, ?_, ?_⟩, ⟨?_, ?_, ?_⟩, ?_⟩
  all_goals simp only [ha.ref, ha.tbl, ha.vmas, ha.pgd, ha.bytes]
  exacts [rep.stored, rep.top, rep.live, rep.refs, rep.rep, rep.sized, rep.ordered, rep.covered,
    rep.leaf, rep.filled, rep.bytes, rep.rootRef, own.all, own.nodup, own.ref, hdata]

theorem SpaceTo.congr (h : SpaceTo s₀ P₀ s P) (ha : Alike s s') : SpaceTo s₀ P₀ s' P := by
  obtain ⟨⟨hpage, hkept⟩, hfresh⟩ := h
  refine ⟨⟨?_, ?_⟩, ?_⟩
  · simpa only [ha.ref, ha.tbl] using hpage
  · simpa only [ha.data] using hkept
  · simpa only [ha.vmas] using hfresh

theorem Built.congr (h : Built tidy m₀ s₀ P₀ s) (ha : Alike s s') : Built tidy m₀ s₀ P₀ s' := by
  obtain ⟨P, L, hok, hto, hall, hacc⟩ := h
  refine ⟨P, L, SpaceOk.congr hok ha, SpaceTo.congr hto ha, ?_, fun ht => ?_⟩
  · simpa only [ha.vmas] using hall
  · simpa only [Accounted, ha.ref, ha.vmas] using hacc ht

theorem Built.setData (h : Built tidy m₀ s₀ P₀ s) {d : Data}
    (hd : ∀ q, q ∉ ownPages s.mm.vmas → d q = s.mem.data q) :
    Built tidy m₀ s₀ P₀ (s.setData d) := by
  obtain ⟨P, L, hok, hto, hall, hacc⟩ := h
  exact ⟨P, L, hok.setData d, hto.trans (.setData hd), hall, hacc⟩

theorem SpaceOk.pageOf (h : SpaceOk s P L) (hv : v ∈ s.mm.vmas) (hw : Whole v) {a : Nat}
    (h1 : v.vmStart ≤ a) (h2 : a < v.vmEnd) :
    ∃ p, v.pages[(a - v.vmStart) / pageSize]? = some (some p) ∧ v.pageOf a = some p ∧
      (s.translate a).map (·.page) = some p := by
  obtain ⟨hsz, hend⟩ := h.rep.sized v hv
  have hindex := hsz.sub_div a
  have hcovers := (hsz.covers_iff a).mpr ⟨h1, h2⟩
  obtain ⟨e, he⟩ := Option.ne_none_iff_exists'.mp
    (h.rep.filled v hv (mapped_of_root h.rep hv hw.mapped) _ hcovers)
  have hpage := h.rep.leaf v hv _ e hcovers he
  refine ⟨e.page, ?_, ?_, ?_⟩
  · rw [← hindex]
    exact hw.counted.getElem_of_page hsz hcovers hpage
  · rw [Vma.pageOf, ← hindex, hpage]
  · rw [h.rep.translate (h2.trans_le hend), he]
    rfl

/-- `m'` has the pages that are in use in `m` as they are there. -/
def Kept (m m' : Mem) : Prop :=
  ∀ q, m.ref q ≠ 0 → m'.ref q = m.ref q ∧ m'.tbl q = m.tbl q ∧ m'.data q = m.data q

theorem Built.destroy (hnew : NewMm m₀ mm m) (h : Built tidy m₀ ⟨m, mm⟩ (rootOnly mm.pgd) s) :
    ∃ m', destroySpace s = some m' ∧ Kept m₀ m' ∧ (tidy → ∀ q, m₀.ref q = 0 → m'.ref q = 0) := by
  obtain ⟨P, L, hok, hto, hall, hacc⟩ := h
  obtain ⟨s', P', L', hres, hok', hto', -, hacc', bytes, hmm⟩ :=
    hok.mmapDestroyMm fun v hv => (hall v hv).mapped
  have hvs : s'.mm.vmas = [] := by rw [hmm]
  obtain ⟨hbytes, -⟩ := hok'.rep.bytes_eq_zero hvs
  refine ⟨{ s'.mem with ref := update s'.mem.ref s'.mm.pgd 0 }, ?_, fun q hq => ?_,
    fun ht q hq => ?_⟩
  · rw [destroySpace, hres, Option.bind_some, Space.mmapFreeMmStruct, if_pos ⟨hbytes, hvs⟩,
      Mem.putPage, hok'.rep.rootRef]
    rfl
  · obtain ⟨h1, h2, h3⟩ := hnew.same.1 q hq
    have hown : q ∉ ownPages mm.vmas := by rw [hnew.vmas]; simp [ownPages]
    have hroot : ∀ l n, rootOnly mm.pgd l n ≠ some q := fun l n hl =>
      hnew.ne hq (rootOnly_some hl).symm
    have hkeep := (hto.trans hto').keeps
    obtain ⟨h4, h5, h6⟩ := hkeep.page q (h1 ▸ hq) hown hroot
    have hpgd : q ≠ s'.mm.pgd := fun heq => h6 3 0 (heq ▸ hok'.rep.top)
    refine ⟨?_, h5.trans h2, (hkeep.data q (h1 ▸ hq) hown hroot).trans h3⟩
    show update s'.mem.ref s'.mm.pgd 0 q = m₀.ref q
    rw [update_of_ne hpgd, h4, h1]
  · show update s'.mem.ref s'.mm.pgd 0 q = 0
    by_cases hpgd : q = s'.mm.pgd
    · rw [hpgd, update_self]
    · rw [update_of_ne hpgd]
      by_contra hne
      rcases hacc' m₀ (hacc ht) q hne with h | ⟨l, n, h⟩ | h
      · exact h hq
      · exact hpgd (hok'.rep.eq_pgd hvs h)
      · simp [hvs, ownPages] at h

end Built

end MinixRt.System
