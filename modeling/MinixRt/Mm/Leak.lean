import Mathlib.Order.Lattice.Nat
import MinixRt.Mm.VmaTree

/-!
# What a failed `mmap_get_vmap_area` leaves behind

`Space.mmapGetVmapArea` does not say which objects of `kmalloc` are in use. Here the function runs
over a `Space` with a ledger of them, exit by exit, and forgetting the ledger gives the function
of `Space` again.

All exits give back what they took but the last one: when `__insert_vma_area` finds an overlap,
only the `vm_area_struct` is freed, and neither its array `pages` nor the pages in it.
-/

namespace MinixRt.Mm

/-- What `kmalloc` returns. -/
inductive Pointer
  | null
  | zeroSize
  | object (id : Nat)
  deriving DecidableEq

/-- An address space, and the objects of `kmalloc` that are in use. -/
structure Ledger where
  space : Space
  live : Finset Nat

namespace Ledger

def withMem (t : Ledger) (mem : Mem) : Ledger := { t with space := { t.space with mem } }

def fresh (t : Ledger) : Nat := t.live.sup id + 1

def kmalloc (t : Ledger) : Pointer × Ledger :=
  match t.space.mem.kmalloc with
  | (false, mem) => (.null, t.withMem mem)
  | (true, mem) => (.object t.fresh, { t.withMem mem with live := insert t.fresh t.live })

/-- `kmalloc` of an array of `nr` pointers. -/
def kmallocArray (nr : Nat) (t : Ledger) : Pointer × Ledger :=
  if nr = 0 then (.zeroSize, t) else if 2 ^ 22 < 8 * nr then (.null, t) else t.kmalloc

def kfree : Pointer → Ledger → Ledger
  | .object id, t => { t with live := t.live.erase id }
  | _, t => t

/-- The end of `mmap_get_vmap_area`. -/
def insertArea (vma : Pointer) (area : Vma) (t : Ledger) : Option Vma × Ledger :=
  match insertVmaArea area t.space.mm.vmas with
  | none => (none, t.kfree vma)
  | some vmas =>
    (some area, { t with space := { t.space with mm := { t.space.mm with vmas } } })

/-- The part of `mmap_get_vmap_area` with both objects: the label `fail_pages_ptr`, which is reached
after `fail_page` has given the pages back. -/
def fillArea (b : Board) (phys : Nat) (vma array : Pointer) (area : List (Option Page) → Vma)
    (nr : Nat) (flags : BitVec 64) (t : Ledger) : Option Vma × Ledger :=
  match vmaPages b flags nr phys t.space.mem with
  | (none, mem) => (none, ((t.withMem mem).kfree array).kfree vma)
  | (some pages, mem) => (t.withMem mem).insertArea vma (area pages)

def mmapGetVmapArea (b : Board) (vstart size : Nat) (flags : BitVec 64) (phys : Nat)
    (t : Ledger) : Option Vma × Ledger :=
  if vstart % pageSize ≠ 0 ∨ size % pageSize ≠ 0 ∨ size = 0 ∨ vstart = 0 then (none, t)
  else
    let (vma, t₁) := t.kmalloc
    if vma = .null then (none, t₁)
    else
      let nr := size / pageSize % 2 ^ 32
      let (array, t₂) := t₁.kmallocArray nr
      -- `fail_pages`
      if array = .null then (none, t₂.kfree vma)
      else
        t₂.fillArea b phys vma array (fun pages => {
          vmStart := vstart
          vmEnd := u64 (vstart + size)
          vmPageProt := vmGetPageProt (flags ||| vmShared)
          vmFlags := flags
          pages
          beyond := t.space.mem.beyond
          root := fun _ => ∅ }) nr flags

/-- The same pages and objects are in use, and the tree is the same. -/
structure Same (t t' : Ledger) : Prop where
  ref : t'.space.mem.ref = t.space.mem.ref
  live : t'.live = t.live
  vmas : t'.space.mm.vmas = t.space.mm.vmas

end Ledger

/-- There are `nr` free pages, or `nr` valid frames from `phys` on. -/
def Supplied (b : Board) (flags : BitVec 64) (nr phys : Nat) (m : Mem) : Prop :=
  (flags &&& vmPrivateShare = 0 → ∃ ps : List Page, ps.length = nr ∧
    ps.map some <+: m.freePages ∧ ps.Nodup ∧ ∀ p ∈ ps, m.ref p = 0) ∧
  (flags &&& vmPrivateShare ≠ 0 → flags &&& vmIoremap = 0 → phys % pageSize = 0 ∧
    ∀ i < nr, b.pfnValid (phys / pageSize + i))

/-- The arguments are accepted, and everything that `mmap_get_vmap_area` asks for is granted. -/
structure Granted (b : Board) (vstart size : Nat) (flags : BitVec 64) (phys : Nat) (m : Mem) :
    Prop where
  aligned : vstart % pageSize = 0 ∧ size % pageSize = 0
  positive : size ≠ 0 ∧ vstart ≠ 0
  short : 8 * (size / pageSize % 2 ^ 32) ≤ 2 ^ 22
  kmallocs : [true, true] <+: m.kmallocs
  supplied : Supplied b flags (size / pageSize % 2 ^ 32) phys m

section Leak

variable {b : Board} {vstart size phys nr : Nat} {flags : BitVec 64} {t t' : Ledger} {m : Mem}
  {v : Vma} {vs : List Vma}

/-! ## What the allocators grant -/

theorem allocPages_ne_none (nr : Nat) (got : List (Option Page)) (m : Mem) :
    (allocPages nr got m).1 ≠ none ↔ ∃ ps : List Page, ps.length = nr ∧
      ps.map some <+: m.freePages ∧ ps.Nodup ∧ ∀ p ∈ ps, m.ref p = 0 := by
  induction nr generalizing got m with
  | zero => exact iff_of_true nofun ⟨[], rfl, List.nil_prefix, List.nodup_nil, nofun⟩
  | succ nr ih =>
    have hrefused : m.allocPage.1 = none → (allocPages (nr + 1) got m).1 = none := by
      intro hnone
      rw [allocPages]
      split
      · rename_i heq
        rw [heq] at hnone
        cases hnone
      · rfl
    cases hfree : m.freePages with
    | nil =>
      refine iff_of_false (not_not.mpr (hrefused (by rw [Mem.allocPage, hfree]))) ?_
      rintro ⟨ps, hlen, hpre, -⟩
      rw [List.prefix_nil, List.map_eq_nil_iff] at hpre
      subst hpre
      cases hlen
    | cons a =>
      cases a with
      | none =>
        refine iff_of_false (not_not.mpr (hrefused (by rw [Mem.allocPage, hfree]))) ?_
        rintro ⟨_ | ⟨p, ps⟩, hlen, hpre, -⟩
        · cases hlen
        · cases (List.cons_prefix_cons.mp hpre).1
      | some p =>
        by_cases href : m.ref p = 0
        · rw [allocPages, Mem.allocPage, hfree]
          simp only [href, ↓reduceIte]
          rw [ih]
          constructor
          · rintro ⟨ps, hlen, hpre, hnodup, hfresh⟩
            have hnot : p ∉ ps := fun hmem => by simpa using hfresh p hmem
            refine ⟨p :: ps, by rw [List.length_cons, hlen],
              List.cons_prefix_cons.mpr ⟨rfl, hpre⟩, List.nodup_cons.mpr ⟨hnot, hnodup⟩, ?_⟩
            intro q hq
            rcases List.mem_cons.mp hq with rfl | hq
            · exact href
            · have hne : q ≠ p := fun heq => hnot (heq ▸ hq)
              simpa [hne] using hfresh q hq
          · rintro ⟨_ | ⟨p', ps⟩, hlen, hpre, hnodup, hfresh⟩
            · cases hlen
            · obtain ⟨heq, hrest⟩ := List.cons_prefix_cons.mp hpre
              cases heq
              obtain ⟨hnot, hnodup⟩ := List.nodup_cons.mp hnodup
              refine ⟨ps, Nat.succ.inj hlen, hrest, hnodup, fun q hq => ?_⟩
              have hne : q ≠ p := fun heq => hnot (heq ▸ hq)
              simpa [hne] using hfresh q (List.mem_cons_of_mem _ hq)
        · refine iff_of_false (not_not.mpr (hrefused (by simp [Mem.allocPage, hfree, href]))) ?_
          rintro ⟨_ | ⟨p', ps⟩, hlen, hpre, -, hfresh⟩
          · cases hlen
          · cases (List.cons_prefix_cons.mp hpre).1
            exact href (hfresh p List.mem_cons_self)

theorem vmaPages_ne_none (b : Board) (flags : BitVec 64) (nr phys : Nat) (m : Mem) :
    (vmaPages b flags nr phys m).1 ≠ none ↔ Supplied b flags nr phys m := by
  unfold vmaPages Supplied physPages
  split_ifs with hshare hio halign hvalid
  · rw [allocPages_ne_none]
    exact ⟨fun h => ⟨fun _ => h, fun hne => absurd hshare hne⟩, fun h => h.1 hshare⟩
  · exact iff_of_false (not_not.mpr rfl) fun h => halign (h.2 hshare hio).1
  · exact iff_of_true nofun ⟨fun heq => absurd heq hshare, fun _ _ => ⟨not_not.mp halign, hvalid⟩⟩
  · exact iff_of_false (not_not.mpr rfl) fun h => hvalid (h.2 hshare hio).2
  · exact iff_of_true nofun ⟨fun heq => absurd heq hshare, fun _ hio' => absurd hio' hio⟩

theorem vmaPages_ref (b : Board) (flags : BitVec 64) (nr phys : Nat) (m : Mem)
    (h : (vmaPages b flags nr phys m).1 = none) : (vmaPages b flags nr phys m).2.ref = m.ref := by
  obtain ⟨m', -, ⟨hres, href⟩ | ⟨pages, hres, -⟩⟩ := vmaPages_spec b flags nr phys m
  · rw [hres]
    exact funext href
  · rw [hres] at h
    cases h

theorem vmaPages_zero : (vmaPages b flags 0 phys m).2 = m := by
  unfold vmaPages
  split_ifs <;> rfl

/-- In an ordered tree the descent of `__insert_vma_area` meets every overlap, also that of a range
that wraps around. -/
theorem insertVmaArea_eq_none_iff (h : Sorted vs) : insertVmaArea v vs = none ↔
    ∃ u ∈ vs, u.vmStart < v.vmEnd ∧ v.vmStart < u.vmEnd := by
  refine ⟨fun hnone => ?_, ?_⟩
  · obtain ⟨u, hu, hend, hstart⟩ := insertVmaArea_none hnone
    exact ⟨u, hu, by omega, by omega⟩
  · induction vs with
    | nil => rintro ⟨u, hu, -⟩; cases hu
    | cons w vs ih =>
      rintro ⟨u, hu, hend, hstart⟩
      obtain ⟨hw, hordered⟩ := List.pairwise_cons.mp h.ordered
      have hrange := h.range w List.mem_cons_self
      have hrest : Sorted vs := ⟨fun x hx => h.range x (List.mem_cons_of_mem _ hx), hordered⟩
      rw [insertVmaArea]
      rcases List.mem_cons.mp hu with rfl | hu
      · rw [if_neg (by omega), if_neg (by omega)]
      · have hwu := hw u hu
        rw [if_neg (by omega)]
        split_ifs
        · rw [ih hrest ⟨u, hu, hend, hstart⟩, Option.map_none]
        · rfl

/-! ## The ledger -/

namespace Ledger

theorem fresh_notMem (t : Ledger) : t.fresh ∉ t.live := by
  intro hmem
  have hle : id t.fresh ≤ t.live.sup id := Finset.le_sup hmem
  simp only [fresh, id] at hle
  omega

theorem erase_fresh (t : Ledger) : (insert t.fresh t.live).erase t.fresh = t.live :=
  Finset.erase_insert t.fresh_notMem

theorem kmalloc_cases (t : Ledger) :
    (∃ r, t.kmalloc = (.null, t.withMem { t.space.mem with kmallocs := r }) ∧
      ∀ l, ¬ true :: l <+: t.space.mem.kmallocs) ∨
    ∃ r, t.space.mem.kmallocs = true :: r ∧ t.kmalloc = (.object t.fresh,
      { t.withMem { t.space.mem with kmallocs := r } with live := insert t.fresh t.live }) := by
  unfold kmalloc Mem.kmalloc
  split
  · rename_i heq
    split at heq
    · rename_i hk
      cases heq
      exact .inl ⟨_, rfl, fun l hpre => by cases List.prefix_nil.mp (hk ▸ hpre)⟩
    · rename_i ok r hk
      cases heq
      exact .inl ⟨_, rfl, fun l hpre => by cases (List.cons_prefix_cons.mp (hk ▸ hpre)).1⟩
  · rename_i heq
    split at heq
    · cases heq
    · rename_i ok r hk
      cases heq
      exact .inr ⟨r, hk, rfl⟩

/-- From `vmaPages` on: the pages are refused and both objects are freed, or the area goes into the
tree. -/
theorem fillArea_exits (b : Board) (phys nr : Nat) (vma array : Pointer)
    (area : List (Option Page) → Vma) (flags : BitVec 64) (t : Ledger) :
    (¬ Supplied b flags nr phys t.space.mem ∧ ∃ mem, mem.ref = t.space.mem.ref ∧
      t.fillArea b phys vma array area nr flags = (none, ((t.withMem mem).kfree array).kfree vma)) ∨
    Supplied b flags nr phys t.space.mem ∧ ∃ pages mem, (nr = 0 → mem = t.space.mem) ∧
      t.fillArea b phys vma array area nr flags = (t.withMem mem).insertArea vma (area pages) := by
  unfold fillArea
  have hne := vmaPages_ne_none b flags nr phys t.space.mem
  have href := vmaPages_ref b flags nr phys t.space.mem
  have hzero : nr = 0 → (vmaPages b flags nr phys t.space.mem).2 = t.space.mem := by
    rintro rfl
    exact vmaPages_zero
  generalize vmaPages b flags nr phys t.space.mem = r at *
  obtain ⟨_ | pages, mem⟩ := r
  · exact .inl ⟨fun h => hne.mpr h rfl, mem, href rfl, rfl⟩
  · exact .inr ⟨hne.mp nofun, pages, mem, hzero, rfl⟩

theorem kmallocArray_cases (nr : Nat) (t : Ledger) :
    (∃ r, t.kmallocArray nr = (.null, t.withMem { t.space.mem with kmallocs := r }) ∧
      0 < nr ∧ (8 * nr ≤ 2 ^ 22 → ∀ l, ¬ true :: l <+: t.space.mem.kmallocs)) ∨
    (nr = 0 ∧ t.kmallocArray nr = (.zeroSize, t)) ∨
    (0 < nr ∧ 8 * nr ≤ 2 ^ 22 ∧ ∃ r, t.space.mem.kmallocs = true :: r ∧
      t.kmallocArray nr = (.object t.fresh,
        { t.withMem { t.space.mem with kmallocs := r } with live := insert t.fresh t.live })) := by
  unfold kmallocArray
  split_ifs with hzero hlong
  · exact .inr (.inl ⟨hzero, rfl⟩)
  · exact .inl ⟨t.space.mem.kmallocs, rfl, Nat.pos_of_ne_zero hzero, fun h => by omega⟩
  · obtain ⟨r, hk, hrefused⟩ | ⟨r, hgranted, hk⟩ := kmalloc_cases t
    · exact .inl ⟨r, hk, Nat.pos_of_ne_zero hzero, fun _ => hrefused⟩
    · exact .inr (.inr ⟨Nat.pos_of_ne_zero hzero, by omega, r, hgranted, hk⟩)

/-- The exits before `__insert_vma_area` leave nothing behind, and on the way there the array is
the second object. -/
theorem mmapGetVmapArea_exits (b : Board) (vstart size : Nat) (flags : BitVec 64) (phys : Nat)
    (t : Ledger) : (∃ t', t.mmapGetVmapArea b vstart size flags phys = (none, t') ∧ t.Same t' ∧
      (0 < size / pageSize % 2 ^ 32 → ¬ Granted b vstart size flags phys t.space.mem)) ∨
    ∃ (area : Vma) (t' : Ledger) (vma : Pointer), area.vmStart = vstart ∧ area.vmEnd = u64 (vstart + size) ∧
      t.mmapGetVmapArea b vstart size flags phys = t'.insertArea vma area ∧
      t'.space.mm = t.space.mm ∧ (size / pageSize % 2 ^ 32 = 0 → t.Same (t'.kfree vma)) ∧
      (0 < size / pageSize % 2 ^ 32 →
        Granted b vstart size flags phys t.space.mem ∧ (t'.kfree vma).live ≠ t.live) := by
  unfold mmapGetVmapArea
  split_ifs with hbad
  · refine .inl ⟨t, rfl, ⟨rfl, rfl, rfl⟩, fun _ hg => ?_⟩
    have := hg.aligned
    have := hg.positive
    tauto
  obtain ⟨r, hk, hrefused⟩ | ⟨r, hgranted, hk⟩ := kmalloc_cases t
  · simp only [hk, ↓reduceIte]
    exact .inl ⟨_, rfl, ⟨rfl, rfl, rfl⟩, fun _ hg => hrefused _ hg.kmallocs⟩
  have hsecond : ∀ l, [true, true] <+: true :: l ↔ [true] <+: l := fun l =>
    List.cons_prefix_cons.trans (and_iff_right rfl)
  simp only [hk, reduceCtorEq, ↓reduceIte]
  set t1 : Ledger := { t.withMem { t.space.mem with kmallocs := r } with
    live := insert t.fresh t.live }
  set nr := size / pageSize % 2 ^ 32
  obtain ⟨r', ha, hpos, hrefused⟩ | ⟨hzero, ha⟩ | ⟨hpos, hshort, r', hgranted', ha⟩ :=
    kmallocArray_cases nr t1
  · simp only [ha, ↓reduceIte]
    refine .inl ⟨_, rfl, ⟨rfl, t.erase_fresh, rfl⟩, fun _ hg => ?_⟩
    exact hrefused hg.short [] ((hsecond r).mp (hgranted ▸ hg.kmallocs))
  · simp only [ha, reduceCtorEq, ↓reduceIte]
    obtain ⟨-, mem, href, hres⟩ | ⟨-, pages, mem, hmem, hres⟩ :=
      fillArea_exits b phys nr (.object t.fresh) .zeroSize _ flags t1
    · exact .inl ⟨_, hres, ⟨href, t.erase_fresh, rfl⟩, fun hpos => by omega⟩
    · refine .inr ⟨_, _, _, rfl, rfl, hres, rfl, fun _ => ?_, fun hpos => by omega⟩
      exact ⟨by rw [hmem hzero]; rfl, t.erase_fresh, rfl⟩
  · simp only [ha, reduceCtorEq, ↓reduceIte]
    obtain ⟨hnot, mem, href, hres⟩ | ⟨hsupplied, pages, mem, -, hres⟩ :=
      fillArea_exits b phys nr (.object t.fresh) (.object t1.fresh) _ flags _
    · refine .inl ⟨_, hres, ⟨href, ?_, rfl⟩, fun _ hg => hnot hg.supplied⟩
      exact (congrArg (Finset.erase · t.fresh) t1.erase_fresh).trans t.erase_fresh
    · refine .inr ⟨_, _, _, rfl, rfl, hres, rfl, fun hzero => by omega, fun _ => ⟨?_, ?_⟩⟩
      · refine ⟨by tauto, by tauto, hshort, ?_, hsupplied⟩
        rw [hgranted, hsecond, show r = true :: r' from hgranted']
        exact List.cons_prefix_cons.mpr ⟨rfl, List.nil_prefix⟩
      · intro hlive
        have hnot := t1.fresh_notMem
        have hne : t1.fresh ≠ t.fresh := fun heq => hnot (heq ▸ Finset.mem_insert_self _ _)
        have hmem : t1.fresh ∈ t.live := by
          rw [← hlive]
          exact Finset.mem_erase.mpr ⟨hne, Finset.mem_insert_self _ _⟩
        exact hnot (Finset.mem_insert_of_mem hmem)

theorem insertArea_eq_none (h : insertVmaArea v t.space.mm.vmas = none) (vma : Pointer) :
    t.insertArea vma v = (none, t.kfree vma) := by
  rw [insertArea, h]

theorem insertArea_ne_none (h : insertVmaArea v t.space.mm.vmas ≠ none) (vma : Pointer) :
    (t.insertArea vma v).1 ≠ none := by
  obtain ⟨vmas, hvmas⟩ := Option.ne_none_iff_exists'.mp h
  rw [insertArea, hvmas]
  nofun

/-- A call that returns `NULL` leaves everything as it was, exactly when it does not get as far as
an overlap with an array of pages in its hands. -/
theorem mmapGetVmapArea_same_iff (hsorted : Sorted t.space.mm.vmas) (b : Board) (vstart size : Nat)
    (flags : BitVec 64) (phys : Nat) :
    ((t.mmapGetVmapArea b vstart size flags phys).1 = none →
      t.Same (t.mmapGetVmapArea b vstart size flags phys).2) ↔
    (Granted b vstart size flags phys t.space.mem → 0 < size / pageSize % 2 ^ 32 →
      ∀ u ∈ t.space.mm.vmas, u64 (vstart + size) ≤ u.vmStart ∨ u.vmEnd ≤ vstart) := by
  obtain ⟨t', hres, hsame, hnot⟩ | ⟨area, t', vma, hstart, hend, hres, hmm, hzero, hpos⟩ :=
    mmapGetVmapArea_exits b vstart size flags phys t
  · rw [hres]
    exact iff_of_true (fun _ => hsame) fun hgranted hpos => absurd hgranted (hnot hpos)
  have hoverlap : insertVmaArea area t'.space.mm.vmas = none ↔
      ¬ ∀ u ∈ t.space.mm.vmas, u64 (vstart + size) ≤ u.vmStart ∨ u.vmEnd ≤ vstart := by
    rw [hmm, insertVmaArea_eq_none_iff hsorted, hstart, hend]
    push Not
    rfl
  rw [hres]
  by_cases hnone : insertVmaArea area t'.space.mm.vmas = none
  · rw [insertArea_eq_none hnone]
    constructor
    · intro hsame hgranted hnr
      exact absurd (hsame rfl).live (hpos hnr).2
    · intro hfree _
      refine hzero (Nat.eq_zero_of_not_pos fun hnr => ?_)
      exact hoverlap.mp hnone (hfree (hpos hnr).1 hnr)
  · refine iff_of_true (fun h => absurd h (insertArea_ne_none hnone vma)) fun _ _ => ?_
    exact not_not.mp fun hnot => hnone (hoverlap.mpr hnot)

/-- An address space with one page at 0x1000, and what a second page needs. -/
def onePage : Ledger where
  space := {
    mem := { emptyMem with kmallocs := [true, true], freePages := [some 9] }
    mm := { plainMm 0 with vmas := [{
      vmStart := 0x1000, vmEnd := 0x2000, vmPageProt := vmGetPageProt vmShared, vmFlags := 0
      pages := [some 8], beyond := [], root := fun _ => ∅ }] } }
  live := {1, 2}

theorem onePage_sorted : Sorted onePage.space.mm.vmas :=
  ⟨by simp [onePage, pageSize], List.pairwise_singleton _ _⟩

theorem mmapGetVmapArea_same_iff_refused :
    onePage.Same (onePage.mmapGetVmapArea plainBoard 0x1000 0x2000 0 0).2 := by
  refine (mmapGetVmapArea_same_iff onePage_sorted plainBoard 0x1000 0x2000 0 0).mpr ?_ rfl
  intro hgranted
  obtain ⟨ps, hlen, hpre, -⟩ := hgranted.supplied.1 rfl
  have hle := hpre.length_le
  rw [List.length_map, hlen] at hle
  exact absurd hle (by decide)

/-- The page and the array of a VMA that overlaps another one are lost. -/
theorem overlap_leaks : (onePage.mmapGetVmapArea plainBoard 0x1000 0x1000 0 0).1 = none ∧
    onePage.space.mem.ref 9 = 0 ∧ onePage.live = {1, 2} ∧
    (onePage.mmapGetVmapArea plainBoard 0x1000 0x1000 0 0).2.space.mem.ref 9 = 1 ∧
    (onePage.mmapGetVmapArea plainBoard 0x1000 0x1000 0 0).2.live = {1, 2, 4} := by
  decide

/-! ## The function of `Space` -/

theorem kfree_space (p : Pointer) (t : Ledger) : (t.kfree p).space = t.space := by
  cases p <;> rfl

theorem kmalloc_space (t : Ledger) : (t.kmalloc.1 = .null ↔ t.space.mem.kmalloc.1 = false) ∧
      t.kmalloc.2.space = { t.space with mem := t.space.mem.kmalloc.2 } := by
  unfold kmalloc
  split
  · rename_i heq
    rw [heq]
    exact ⟨iff_of_true rfl rfl, rfl⟩
  · rename_i heq
    rw [heq]
    exact ⟨iff_of_false nofun nofun, rfl⟩

theorem kmallocArray_space (nr : Nat) (t : Ledger) :
    ((t.kmallocArray nr).1 = .null ↔ (t.space.mem.kmallocArray nr).1 = false) ∧
      (t.kmallocArray nr).2.space = { t.space with mem := (t.space.mem.kmallocArray nr).2 } := by
  unfold kmallocArray Mem.kmallocArray
  split_ifs
  · exact ⟨iff_of_false nofun nofun, rfl⟩
  · exact ⟨iff_of_true rfl rfl, rfl⟩
  · exact t.kmalloc_space

theorem insertArea_space (vma : Pointer) (area : Vma) (t : Ledger) :
    (t.insertArea vma area).map id space = match insertVmaArea area t.space.mm.vmas with
      | none => (none, t.space)
      | some vmas => (some area, { t.space with mm := { t.space.mm with vmas } }) := by
  unfold insertArea
  split
  · exact congrArg (Prod.mk none) (kfree_space vma t)
  · rfl

theorem mmapGetVmapArea_space (b : Board) (vstart size : Nat) (flags : BitVec 64) (phys : Nat)
    (t : Ledger) : (t.mmapGetVmapArea b vstart size flags phys).map id space =
      t.space.mmapGetVmapArea b vstart size flags phys := by
  unfold mmapGetVmapArea Space.mmapGetVmapArea
  split_ifs with hbad
  · rfl
  obtain ⟨hnull, hspace⟩ := t.kmalloc_space
  generalize t.kmalloc = r at *
  generalize t.space.mem.kmalloc = k at *
  obtain ⟨vma, t1⟩ := r
  obtain ⟨_ | _, mem1⟩ := k
  · have hvma : vma = .null := hnull.mpr rfl
    subst hvma
    exact congrArg (Prod.mk none) hspace
  have hvma : vma ≠ .null := fun h => nomatch hnull.mp h
  dsimp only at hspace
  simp only [hvma, ↓reduceIte]
  obtain ⟨hnull, hspace'⟩ := t1.kmallocArray_space (size / pageSize % 2 ^ 32)
  rw [hspace] at hnull hspace'
  generalize t1.kmallocArray (size / pageSize % 2 ^ 32) = r at *
  generalize mem1.kmallocArray (size / pageSize % 2 ^ 32) = k at *
  obtain ⟨array, t2⟩ := r
  obtain ⟨_ | _, mem2⟩ := k
  · have harray : array = .null := hnull.mpr rfl
    subst harray
    exact congrArg (Prod.mk none) ((kfree_space vma t2).trans hspace')
  have harray : array ≠ .null := fun h => nomatch hnull.mp h
  simp only [harray, ↓reduceIte]
  dsimp only at hspace'
  rw [fillArea, hspace']
  dsimp only
  generalize vmaPages b flags (size / pageSize % 2 ^ 32) phys mem2 = r
  obtain ⟨_ | pages, mem⟩ := r
  · refine congrArg (Prod.mk none) ?_
    rw [kfree_space, kfree_space, withMem, hspace']
  · dsimp only
    rewrite [insertArea_space, withMem, hspace']
    rfl

end Ledger

end Leak

end MinixRt.Mm
