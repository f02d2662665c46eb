import MinixRt.Mm.MapArea
import MinixRt.Mm.Translate

/-!
# The initrd in an address space

`mmap_initrd` maps the frames of the initrd below `mmap_base`, read from the message's sender.
The start is rounded down to a page and the size is rounded up by itself, so that the last bytes
of an initrd that starts inside of a page can lie on a page behind the new VMA.
-/

namespace MinixRt.System

open List Lib Mm

def enxio : Int := 6

/-- The fields of `m_sys_mmap` that `mmap_initrd` reads and writes. -/
structure MmapMsg where
  mmapBase : Nat
  size : Nat
  vmFlags : BitVec 64
  retval : Int

/-- `mmap_initrd`. `none` is a failed `BUG_ON`. -/
def mmapInitrd (b : Board) (m : MmapMsg) (s : Space) : Option (MmapMsg × Space) :=
  if b.physInitrdSize = 0 then some ({ m with retval := -enxio }, s)
  else
    let mmapStart := pageAlignDown b.physInitrdStart
    let mmapSize := pageAlign b.physInitrdSize
    let vmStart := sub64 (pageAlignDown s.mm.mmapBase) mmapSize
    (s.mapArea b vmStart mmapSize (m.vmFlags ||| vmPrivateShare) mmapStart fun _ d => d).map
      fun r =>
        match r.1 with
        | .noVma => ({ m with retval := -einval }, r.2)
        | .noMap => ({ m with retval := -enomem }, r.2)
        | .mapped _ =>
          ({ m with
              mmapBase := u64 (vmStart + b.physInitrdStart % pageSize)
              size := b.physInitrdSize
              retval := 0 },
            { r.2 with mm := { r.2.mm with mmapBase := vmStart } })

/-- The addresses of the answer are those of the initrd, and all older translations are kept. -/
structure InitrdMapped (b : Board) (s : Space) (m' : MmapMsg) (s' : Space) : Prop where
  inside : ∀ x, m'.mmapBase ≤ x → x < m'.mmapBase + m'.size → ∃ e, s'.translate x = some e ∧
    e.page * pageSize + x % pageSize = b.physInitrdStart + (x - m'.mmapBase)
  kept : ∀ a < 2 ^ 48, ∀ e, s.translate a = some e → s'.translate a = some e

/-- The pages of the VMA are counted by an `unsigned int`, and they contain the initrd, or the next
page is mapped already and is the next frame of the initrd. -/
def InitrdFits (b : Board) (s : Space) : Prop :=
  pageAlign b.physInitrdSize < 2 ^ 44 ∧
    (b.physInitrdStart % pageSize + b.physInitrdSize ≤ pageAlign b.physInitrdSize ∨
      ∃ e, s.translate (pageAlignDown s.mm.mmapBase) = some e ∧
        e.page = b.physInitrdStart / pageSize + pageAlign b.physInitrdSize / pageSize)

section Initrd

variable {b : Board} {s s' : Space} {m m' : MmapMsg} {P : Nat → Nat → Option Page}
  {L : Nat → Option Entry} {v : Vma} {vstart size phys : Nat} {flags : BitVec 64}
  {fill : Vma → Data → Data}

theorem mapArea_mapped (h : s.mapArea b vstart size flags phys fill = some (.mapped v, s')) :
    ∃ s1 ret, s.mmapGetVmapArea b vstart size flags phys = (some v, s1) ∧
      (s1.setData (fill v s1.mem.data)).vmapPageRange v = some (ret, s') ∧ 0 < ret := by
  unfold Space.mapArea at h
  split at h
  · cases h
  · rename_i v1 s1 hres
    obtain ⟨⟨ret, s2⟩, hmap, hrest⟩ := Option.bind_eq_some_iff.mp h
    split_ifs at hrest with hle
    · obtain ⟨s3, -, heq⟩ := Option.map_eq_some_iff.mp hrest
      cases heq
    · cases hrest
      exact ⟨s1, ret, hres, hmap, not_le.mp hle⟩

theorem lt_of_vmapPageRange {ret : Int} (h : s.vmapPageRange v = some (ret, s')) (hret : 0 < ret) :
    v.vmStart < v.vmEnd := by
  by_contra hlt
  rw [Space.vmapPageRange, Mm.vmapPageRange, if_pos (not_lt.mp hlt)] at h
  cases h
  exact absurd (show (0 : Int) < -einval from hret) (by decide)

theorem translate_new (h : SpaceRep s.mem s.mm P L) (hv : v ∈ s.mm.vmas) (hroot : ∀ l, v.root l = ∅)
    {a : Nat} (h1 : v.vmStart ≤ a) (h2 : a < v.vmEnd) : s.translate a = none := by
  obtain ⟨hsz, hend⟩ := h.sized v hv
  rw [h.translate (h2.trans_le hend)]
  by_contra hne
  have hc : v.Covers (a / pageSize) := (hsz.covers_iff a).mpr ⟨h1, h2⟩
  obtain ⟨u, hu, hmapped, hcov⟩ := h.covered _ hne
  obtain ⟨l1, l2, ha⟩ := h.among hv
  rw [ha.eq, mem_append, mem_cons] at hu
  have hother : u ∈ l1 ++ l2 → False := fun hmem =>
    SpaceRep.not_covers_of_among ha hmem hcov hc
  rcases hu with hu | rfl | hu
  · exact hother (mem_append_left _ hu)
  · obtain ⟨q, hq⟩ := hmapped.exists_mem hsz.lt (by decide : 0 < 3)
    rw [hroot 0] at hq
    cases hq
  · exact hother (mem_append_right _ hu)

/-- A VMA over frames that are not taken from the allocator, as `mapArea` leaves it. -/
structure SharedArea (s : Space) (vstart size phys : Nat) (v : Vma) (s' : Space) : Prop where
  inside : ∀ a, vstart ≤ a → a < vstart + size → s.translate a = none ∧
    ∃ e, s'.translate a = some e ∧ v.page ((a - vstart) / pageSize) = some e.page
  out : ∀ a < 2 ^ 48, ¬ (vstart ≤ a ∧ a < vstart + size) → s'.translate a = s.translate a
  nr : v.pages.length = size / pageSize % 2 ^ 32 ∧ 0 < v.pages.length
  frame : ∀ n p, v.pages[n]? = some (some p) → p = phys / pageSize + n

theorem sharedArea_of_mapped (h : SpaceRep s.mem s.mm P L) (hshare : flags &&& vmPrivateShare ≠ 0)
    (hend : vstart + size ≤ entrySize 4)
    (hres : s.mapArea b vstart size flags phys (fun _ d => d) = some (.mapped v, s')) :
    SharedArea s vstart size phys v s' := by
  obtain ⟨s1, ret, hget, hmap, hret⟩ := mapArea_mapped hres
  have hmade : Made s vstart size flags phys v s1 ∧ SpaceRep s1.mem s1.mm P L := by
    rcases h.mmapGetVmapArea b flags phys hend with ⟨m', hget', -⟩ | ⟨v1, s2, hget', hmade, hrep⟩
    · rw [hget] at hget'
      cases hget'
    · rw [hget] at hget'
      cases hget'
      exact ⟨hmade, hrep⟩
  obtain ⟨hmade, hrep⟩ := hmade
  obtain ⟨l1, l2, -, hmm⟩ := hmade.mm
  have hv : v ∈ s1.mm.vmas := by rw [hmm]; simp
  obtain ⟨hsz, -⟩ := hrep.sized v hv
  obtain ⟨ret', w, P', L', hmap', hop, hcase⟩ := SpaceRep.vmapPageRange hrep hv
  have hsame : s1.setData s1.mem.data = s1 := rfl
  rw [hsame, hmap'] at hmap
  cases hmap
  obtain ⟨hnr, -, hhas, rfl⟩ := hcase.resolve_right fun hle => not_lt.mpr hle.1 hret
  have hbefore : ∀ a < entrySize 4, s1.translate a = s.translate a := fun a ha => by
    rw [hrep.translate ha, h.translate ha]
  refine ⟨fun a h1 h2 => ?_, fun a ha hout => ?_, ⟨hmade.nr, ?_⟩, hmade.given ?_⟩
  · rw [← hmade.start] at h1
    rw [← hmade.stop] at h2
    have hlt : a < entrySize 4 := h2.trans_le (hmade.stop ▸ hend)
    refine ⟨(hbefore a hlt).symm.trans (translate_new hrep hv hmade.root h1 h2), ?_⟩
    have hc : v.Covers (a / pageSize) := (hsz.covers_iff a).mpr ⟨h1, h2⟩
    rw [hop.rep.translate hlt, fill_of_covers hc]
    obtain ⟨e, he⟩ := Option.ne_none_iff_exists'.mp (hhas _ hc.1 hc.2)
    refine ⟨e, he, ?_⟩
    rw [← hmade.start, ← hsz.sub_div a]
    exact (Vma.pte_page he).1
  · rw [← hmade.stop, ← hmade.start] at hout
    exact (hop.translate_out hrep hsz ha hout).trans (hbefore a ha)
  · rw [hnr] at hret
    exact Int.natCast_pos.mp hret
  · rw [Vma.Private, hmade.flag]
    exact hshare

theorem SharedArea.page (h : SharedArea s vstart size phys v s') {a : Nat} (h1 : vstart ≤ a)
    (h2 : a < vstart + size) (hsize : size < 2 ^ 44) (halign : size % pageSize = 0) :
    ∃ e, s'.translate a = some e ∧ e.page = phys / pageSize + (a - vstart) / pageSize := by
  obtain ⟨-, e, he, hpage⟩ := h.inside a h1 h2
  refine ⟨e, he, h.frame _ _ ?_⟩
  have hps : pageSize = 4096 := rfl
  have hlt : (a - vstart) / pageSize < v.pages.length := by
    have hnr := h.nr.1
    rw [hps] at hnr halign ⊢
    omega
  have hmod : (a - vstart) / pageSize % 2 ^ 32 = (a - vstart) / pageSize := by
    rw [hps]
    omega
  rw [Vma.page, hmod, getElem?_eq_getElem hlt, Option.getD_some] at hpage
  rw [getElem?_eq_getElem hlt, hpage]

theorem SharedArea.page_wrap (h : SharedArea s vstart size phys v s') (hsize : 2 ^ 44 ≤ size) :
    2 ^ 44 < size ∧ ∃ e, s'.translate (vstart + 2 ^ 44) = some e ∧ e.page = phys / pageSize := by
  have hps : pageSize = 4096 := rfl
  have hne : size ≠ 2 ^ 44 := by
    rintro rfl
    have hpos := h.nr.2
    rw [h.nr.1, hps] at hpos
    omega
  obtain ⟨-, e, he, hpage⟩ := h.inside (vstart + 2 ^ 44) (by omega) (by omega)
  refine ⟨by omega, e, he, ?_⟩
  have hmod : (vstart + 2 ^ 44 - vstart) / pageSize % 2 ^ 32 = 0 := by
    rw [hps]
    omega
  rw [Vma.page, hmod, getElem?_eq_getElem h.nr.2, Option.getD_some] at hpage
  exact h.frame 0 _ (by rw [getElem?_eq_getElem h.nr.2, hpage])

theorem lt_pageAlign {n : Nat} (hn : n < 2 ^ 64) (h : pageAlign n ≠ 0) :
    n ≤ pageAlign n ∧ pageAlign n < n + pageSize ∧ pageAlign n % pageSize = 0 := by
  have hps : pageSize = 4096 := rfl
  unfold pageAlign u64 at *
  rw [hps] at h ⊢
  omega

theorem pageAlign_lt (n : Nat) : pageAlign n < 2 ^ 64 :=
  (Nat.div_mul_le_self _ _).trans_lt (Nat.mod_lt _ (by decide))

theorem mmapInitrd_mapped (h : SpaceRep s.mem s.mm P L) (hbase : s.mm.mmapBase ≤ userDs)
    (hres : mmapInitrd b m s = some (m', s')) (hret : m'.retval = 0) :
    b.physInitrdSize ≠ 0 ∧ pageAlign b.physInitrdSize ≠ 0 ∧ ∃ vstart v s1,
      vstart + pageAlign b.physInitrdSize = pageAlignDown s.mm.mmapBase ∧
      SharedArea s vstart (pageAlign b.physInitrdSize) (pageAlignDown b.physInitrdStart) v s1 ∧
      vstart % pageSize = 0 ∧ m'.mmapBase = vstart + b.physInitrdStart % pageSize ∧
      m'.size = b.physInitrdSize ∧ ∀ a, s'.translate a = s1.translate a := by
  have herr : ∀ e : Int, e ∈ [enxio, einval, enomem] → -e ≠ 0 := by decide
  unfold mmapInitrd at hres
  split_ifs at hres with hzero
  · cases hres
    exact absurd hret (herr enxio (by simp))
  refine ⟨hzero, ?_⟩
  obtain ⟨⟨r, s1⟩, hmap, heq⟩ := Option.map_eq_some_iff.mp hres
  cases r with
  | noVma =>
    cases heq
    exact absurd hret (herr einval (by simp))
  | noMap =>
    cases heq
    exact absurd hret (herr enomem (by simp))
  | mapped v =>
    cases heq
    have hdown : pageAlignDown s.mm.mmapBase ≤ userDs := (Nat.div_mul_le_self _ _).trans hbase
    have hsize := pageAlign_lt b.physInitrdSize
    generalize pageAlignDown s.mm.mmapBase = base at *
    generalize pageAlign b.physInitrdSize = size at *
    obtain ⟨s2, ret, hget, hvmap, hpos⟩ := mapArea_mapped hmap
    obtain ⟨hstart, ⟨haligned, -, hne, -⟩, hend, -⟩ := mmapGetVmapArea_some hget
    have hlt := lt_of_vmapPageRange hvmap hpos
    rw [hstart, hend] at hlt
    unfold userDs at hdown
    have hfits : size ≤ base := by
      by_contra hover
      unfold sub64 u64 at hlt
      omega
    rw [sub64_of_le hfits (by omega)] at hmap haligned ⊢
    have hoffset := Nat.mod_lt b.physInitrdStart (show 0 < pageSize by decide)
    refine ⟨hne, base - size, v, s1, Nat.sub_add_cancel hfits, ?_, haligned,
      Nat.mod_eq_of_lt ?_, rfl, fun _ => rfl⟩
    · refine sharedArea_of_mapped h ?_ ?_ hmap
      · intro hzero
        have hbit := congrArg (BitVec.getLsbD · 7) hzero
        simp [vmPrivateShare] at hbit
      · rw [Nat.sub_add_cancel hfits]
        exact hdown.trans (by decide)
    · have hps : pageSize = 4096 := rfl
      rw [hps] at hoffset ⊢
      omega

theorem frame_iff {start vstart x page : Nat} (hv : vstart % pageSize = 0)
    (hx : vstart + start % pageSize ≤ x) :
    page * pageSize + x % pageSize = start + (x - (vstart + start % pageSize)) ↔
      page = start / pageSize + (x - vstart) / pageSize := by
  have hps : pageSize = 4096 := rfl
  rw [hps] at hv hx ⊢
  omega

/-- **The initrd is mapped as a whole** exactly when its offset in the first page leaves room for
it, or its last bytes are mapped already. -/
theorem mmapInitrd_iff (h : SpaceRep s.mem s.mm P L) (hbase : s.mm.mmapBase ≤ userDs)
    (hsize : b.physInitrdSize < 2 ^ 64) (hres : mmapInitrd b m s = some (m', s'))
    (hret : m'.retval = 0) : InitrdMapped b s m' s' ↔ InitrdFits b s := by
  obtain ⟨hzero, halign, vstart, v, s1, hsum, harea, hstart, hmsg, hlen, htranslate⟩ :=
    mmapInitrd_mapped h hbase hres hret
  obtain ⟨hle, hlt, hmod⟩ := lt_pageAlign hsize halign
  have hps : pageSize = 4096 := rfl
  have hoffset := Nat.mod_lt b.physInitrdStart (show 0 < pageSize by decide)
  have hsmall : pageSize ≤ pageAlign b.physInitrdSize :=
    Nat.le_of_dvd (Nat.pos_of_ne_zero halign) (Nat.dvd_of_mod_eq_zero hmod)
  have htop : vstart + pageAlign b.physInitrdSize + pageSize ≤ 2 ^ 48 := by
    rw [hsum, pageAlignDown, hps]
    unfold userDs at hbase
    omega
  have hphys : pageAlignDown b.physInitrdStart / pageSize = b.physInitrdStart / pageSize :=
    Nat.mul_div_cancel _ (by decide)
  have hinside : (∀ x, m'.mmapBase ≤ x → x < m'.mmapBase + m'.size → ∃ e,
      s'.translate x = some e ∧
        e.page * pageSize + x % pageSize = b.physInitrdStart + (x - m'.mmapBase)) ↔
      ∀ x, vstart + b.physInitrdStart % pageSize ≤ x →
        x < vstart + b.physInitrdStart % pageSize + b.physInitrdSize → ∃ e,
          s1.translate x = some e ∧
            e.page = b.physInitrdStart / pageSize + (x - vstart) / pageSize := by
    rw [hmsg, hlen]
    refine forall_congr' fun x => forall_congr' fun h1 => forall_congr' fun _ => ?_
    refine exists_congr fun e => ?_
    rw [htranslate, frame_iff hstart h1]
  constructor
  · intro hmapped
    have hpage := hinside.mp hmapped.inside
    refine ⟨?_, ?_⟩
    · by_contra hlong
      obtain ⟨hlong, e, he, hfirst⟩ := harea.page_wrap (not_lt.mp hlong)
      have hmore : 2 ^ 44 + pageSize ≤ pageAlign b.physInitrdSize := by
        rw [hps] at hmod ⊢
        omega
      obtain ⟨e', he', hframe⟩ := hpage (vstart + 2 ^ 44) (by omega) (by omega)
      rw [he] at he'
      cases he'
      rw [hfirst, hphys, Nat.add_sub_cancel_left] at hframe
      exact absurd (Nat.left_eq_add.mp hframe) (by decide)
    · by_contra hnot
      obtain ⟨hover, hbehind⟩ := not_or.mp hnot
      obtain ⟨e, he, hframe⟩ :=
        hpage (vstart + pageAlign b.physInitrdSize) (by omega) (by omega)
      rw [harea.out _ (by omega) (by omega), hsum] at he
      refine hbehind ⟨e, he, hframe.trans ?_⟩
      rw [Nat.add_sub_cancel_left]
  · rintro ⟨hshort, hfits⟩
    refine ⟨hinside.mpr fun x h1 h2 => ?_, fun a ha e he => ?_⟩
    · by_cases hx : x < vstart + pageAlign b.physInitrdSize
      · obtain ⟨e, he, hframe⟩ := harea.page (by omega) hx hshort hmod
        exact ⟨e, he, by rw [hframe, hphys]⟩
      · obtain ⟨e, he, hframe⟩ := hfits.resolve_left (by omega)
        refine ⟨e, ?_, hframe.trans (congrArg _ ?_)⟩
        · have hx48 : x < 2 ^ 48 := by omega
          have hbase48 : pageAlignDown s.mm.mmapBase < 2 ^ 48 := by omega
          rw [harea.out x hx48 (by omega), h.translate hx48, ← he, h.translate hbase48, ← hsum]
          congr 1
          rw [hps] at hstart hmod hoffset hlt h2 ⊢
          omega
        · rw [hps] at hmod hoffset hlt h2 ⊢
          omega
    · rw [htranslate]
      by_cases hin : vstart ≤ a ∧ a < vstart + pageAlign b.physInitrdSize
      · rw [(harea.inside a hin.1 hin.2).1] at he
        cases he
      · rwa [harea.out a ha hin]

end Initrd

/-! ## A new address space -/

/-- An initrd of `size` bytes from `start` on. -/
def initrdBoard (start size : Nat) : Board :=
  { plainBoard with physInitrdStart := start, physInitrdSize := size }

def newSpace : List Act :=
  [.supply (replicate 9 true) ((range 9).map some) [], .mmapAllocMmStruct 0]

def emptyMsg : MmapMsg := ⟨0, 0, vmRead, 1⟩

/-- What `mmap_initrd` does first in the new address space. -/
def initrdRun (b : Board) : Option (Space × MmapMsg × Space) :=
  ((machine b).run ⟨emptyMem, fun _ => none⟩ newSpace).bind fun k =>
    (k.mm 0).bind fun mm => (mmapInitrd b emptyMsg ⟨k.mem, mm⟩).map (⟨k.mem, mm⟩, ·)

theorem mmapInitrd_iff_aligned : ∃ s m' s', initrdRun (initrdBoard 0x5000 0x800) =
    some (s, m', s') ∧ InitrdMapped (initrdBoard 0x5000 0x800) s m' s' := by
  have hval : (initrdRun (initrdBoard 0x5000 0x800)).map (fun r =>
      decide (r.1.mm.mmapBase ≤ userDs ∧ r.2.1.retval = 0)) = some true := by decide +kernel
  obtain ⟨⟨s, m', s'⟩, hrun, hval⟩ := Option.map_eq_some_iff.mp hval
  obtain ⟨hbase, hret⟩ := of_decide_eq_true hval
  refine ⟨s, m', s', hrun, ?_⟩
  obtain ⟨k, hk, hrest⟩ := Option.bind_eq_some_iff.mp hrun
  obtain ⟨mm, hmm, hrest⟩ := Option.bind_eq_some_iff.mp hrest
  obtain ⟨r, hres, heq⟩ := Option.map_eq_some_iff.mp hrest
  cases heq
  have hreach : (machine (initrdBoard 0x5000 0x800)).Reach (fun _ a => a.below = true) k :=
    Machine.reach_of_run (.init fun _ => rfl) (by decide) hk
  obtain ⟨P, L, hrep⟩ := Spaces.Inv.of_reach (fun _ _ h => h) hreach
  exact (mmapInitrd_iff (hrep.space 0 mm hmm) hbase (by decide) hres hret).mpr
    ⟨by decide, .inl (by decide)⟩

/-- The second half of an initrd of one page that starts in the middle of a page is not mapped. -/
theorem initrd_end_unmapped : (initrdRun (initrdBoard 0x5800 0x1000)).map (fun r =>
    (r.2.1.retval, r.2.1.size, r.2.1.mmapBase, r.2.2.translate (r.2.1.mmapBase + 0x800))) =
      some (0, 0x1000, 0xffffffffe800, none) := by
  decide +kernel

end MinixRt.System
