import MinixRt.System.Elf
import MinixRt.System.Safety

/-!
# The image of an ELF file

`ElfSpace` is what both loaders leave: a VMA for each segment with whole pages of the file, and
the stack above. The bytes behind `p_filesz` come from the file as well, so the image is the one
that the headers describe only when these bytes of the file are zero.
-/

namespace MinixRt.System

open List Function Lib Mm
open Option (bind_eq_some_iff map_eq_some_iff)

def Phdr.top (ph : Phdr) : Nat := pageAlign (ph.vaddr + ph.memsz)

/-- The address space of an ELF file with the segments `loads`, and the stack from `base` on. -/
structure ElfSpace (file : Nat → Byte) (loads : List Phdr) (base : Nat) (s : Space) : Prop where
  ok : ∃ P L, SpaceOk s P L
  whole : ∀ v ∈ s.mm.vmas, Whole v
  good : ∀ ph ∈ loads, ph.bad = false
  shows : ∀ ph ∈ loads, ∃ next, ∃ v ∈ s.mm.vmas, Shows file s.mem.data (ph.info next) v
  vmas : ∀ v ∈ s.mm.vmas, base ≤ v.vmStart ∨ ∃ ph ∈ loads, v.vmEnd = ph.top
  room : ∀ ph ∈ loads, ph.top ≤ base
  aligned : base % pageSize = 0
  below : base ≤ taskSize
  base : s.mm.mmapBase = base
  startBrk : s.mm.startBrk = pageAlign (loads.foldl Layout.add .start).elfBrk
  brk : s.mm.brk = s.mm.startBrk

section Segments

variable {ph : Phdr} {next : Nat}

theorem Phdr.le_of_good (h : ph.bad = false) :
    ph.filesz ≤ ph.memsz ∧ ph.vaddr + ph.memsz ≤ taskSize ∧ ph.vaddr < taskSize := by
  simp only [Phdr.bad, badAddr, Bool.or_eq_false_iff, decide_eq_false_iff_not, not_lt, not_le] at h
  omega

theorem Phdr.info_range (h : ph.bad = false) (next : Nat) :
    (ph.info next).vaddr ≤ ph.vaddr ∧ (ph.info next).vaddr % pageSize = 0 ∧
      (ph.info next).vaddr + (ph.info next).size = ph.top ∧ ph.vaddr + ph.memsz ≤ ph.top := by
  obtain ⟨-, h1, h2⟩ := Phdr.le_of_good h
  simp only [Phdr.info, Phdr.top, pageAlignDown, pageAlign, u64]
  unfold taskSize at h1 h2
  unfold pageSize
  omega

theorem Phdr.top_le (h : ph.bad = false) : ph.top ≤ taskSize := by
  obtain ⟨-, h1, h2⟩ := Phdr.le_of_good h
  unfold Phdr.top pageAlign u64
  unfold taskSize at *
  unfold pageSize
  omega

theorem Phdr.prot_private (ph : Phdr) : ph.prot &&& vmPrivateShare = 0 := by
  unfold Phdr.prot
  split_ifs <;> decide

theorem Phdr.info_off (next n : Nat) :
    u64 ((ph.info next).off + (ph.vaddr + n - (ph.info next).vaddr)) = u64 (ph.offset + n) := by
  simp only [Phdr.info, pageAlignDown, sub64, u64]
  unfold pageSize
  omega

end Segments

/-! ## Services -/

section Services

variable {b : Board} {file : Nat → Byte} {m₀ m : Mem} {s₀ s s' : Space}
  {P₀ : Nat → Nat → Option Page} {ph : Phdr} {rs : List BinprmInfo} {as : List (Nat × Nat)}

/-- The address space while the segments are loaded. -/
structure Loading (m₀ : Mem) (s₀ : Space) (P₀ : Nat → Nat → Option Page) (file : Nat → Byte)
    (rs : List BinprmInfo) (as : List (Nat × Nat)) (s : Space) : Prop where
  built : Built False m₀ s₀ P₀ s
  content : Content file rs s
  areas : Areas as s

variable {flags : BitVec 64}

theorem nrPages_of_mapped {P : Nat → Nat → Option Page} {L : Nat → Option Entry} {v : Vma}
    {vstart size phys : Nat} {fill : Vma → Data → Data} (hok : SpaceOk s P L)
    (hend : vstart + size ≤ entrySize 4)
    (h : s.mapArea b vstart size flags phys fill = some (.mapped v, s')) :
    v.nrPages = size / pageSize % 2 ^ 32 := by
  rcases hok.rep.mmapGetVmapArea b flags phys hend with ⟨m', hres, -⟩ | ⟨u, s1, hres, hmade, -⟩
  · rw [Space.mapArea, hres] at h
    cases h
  · rw [Space.mapArea, hres] at h
    obtain ⟨r, -, h⟩ := bind_eq_some_iff.mp h
    split_ifs at h
    · obtain ⟨_, -, h⟩ := map_eq_some_iff.mp h
      cases h
    · cases h
      exact hmade.nr

theorem setupServicesStack_some (hs : Loading m₀ s₀ P₀ file rs as s)
    (h : setupServicesStack b s = some s') :
    Loading m₀ s₀ P₀ file rs ((serviceStackBase, taskSize) :: as) s' := by
  obtain ⟨r, s1, hres, hb, hout⟩ := hs.built.mapArea b serviceStackBase threadSize
    stackFlags (fun _ d => d) (by decide) (by decide) (by decide) (fun _ _ _ _ => rfl) False.elim
  rw [setupServicesStack, hres] at h
  cases r with
  | noVma | noMap => cases h
  | mapped =>
    cases h
    exact ⟨hb, hs.content.mapped hs.built hout, hs.areas.mapped hout⟩

theorem elfMap_some (hs : Loading m₀ s₀ P₀ file rs as s) (hbad : ph.bad = false)
    (h : elfMap b file ph s = some s') :
    Loading m₀ s₀ P₀ file (ph.info 0 :: rs) ((ph.info 0).range :: as) s' := by
  have hend : (ph.info 0).vaddr + (ph.info 0).size ≤ entrySize 4 := by
    rw [(Phdr.info_range hbad 0).2.2.1]
    exact Phdr.top_le hbad
  have hpriv : (ph.info 0).prot &&& vmPrivateShare = 0 := ph.prot_private
  simp only [elfMap] at h
  split_ifs at h
  split at h
  · rename_i v s1 hmap
    split_ifs at h with hnr
    cases h
    obtain ⟨P, L, hok, -⟩ := id hs.built
    have hshort : (ph.info 0).size < 2 ^ 44 := by
      have := nrPages_of_mapped hok hend hmap
      rw [not_not.mp hnr] at this
      unfold pageSize at this
      omega
    obtain ⟨r, s2, hres, hb, hout⟩ := hs.built.mapArea b _ _ _ _ hend hpriv hshort
      (fills_copyPages file _) False.elim
    cases hmap.symm.trans hres
    refine ⟨hb, fun r hr => ?_, hs.areas.mapped hout⟩
    rcases mem_cons.mp hr with rfl | hr
    · exact shows_of_mapped hpriv hout
    · exact hs.content.mapped hs.built hout r hr
  · cases h

theorem loadServices_some {phs : List Phdr} {x y : Layout × Space}
    (hs : Loading m₀ s₀ P₀ file rs as x.2) (h : phs.foldlM (loadService b file) x = some y) :
    y.1 = (phs.filter Phdr.isLoad).foldl Layout.add x.1 ∧
      (∀ ph ∈ phs.filter Phdr.isLoad, ph.bad = false) ∧
      Loading m₀ s₀ P₀ file (((phs.filter Phdr.isLoad).map (·.info 0)).reverse ++ rs)
        (((phs.filter Phdr.isLoad).map fun ph => (ph.info 0).range).reverse ++ as) y.2 := by
  induction phs generalizing x rs as with
  | nil =>
    cases h
    exact ⟨rfl, nofun, hs⟩
  | cons ph phs ih =>
    rw [foldlM_cons] at h
    obtain ⟨x1, h1, h⟩ := bind_eq_some_iff.mp h
    unfold loadService at h1
    split_ifs at h1 with hload hbrk hbad
    · cases h1
      simpa [hload] using ih hs h
    · obtain ⟨_, -, h1⟩ := bind_eq_some_iff.mp h1
      cases h1
    · obtain ⟨s1, hmap, h1⟩ := bind_eq_some_iff.mp h1
      cases h1
      have hbad := Bool.eq_false_iff.mpr hbad
      obtain ⟨h2, h3, h4⟩ := ih (elfMap_some hs hbad hmap) h
      rw [filter_cons_of_pos (Bool.eq_true_of_not_eq_false hload)]
      refine ⟨h2, fun ph' hph' => ?_, by simpa using h4⟩
      rcases mem_cons.mp hph' with rfl | hph'
      · exact hbad
      · exact h3 ph' hph'

theorem Loading.setMm (h : Loading m₀ s₀ P₀ file rs as s) (s' : Space) (hs : s'.mem = s.mem)
    (ha : Alike s s') : Loading m₀ s₀ P₀ file rs as s' :=
  ⟨h.built.congr ha, fun r hr => by
    obtain ⟨v, hv, hshow⟩ := h.content r hr
    exact ⟨v, ha.vmas ▸ hv, hs ▸ hshow⟩, h.areas.same ha.vmas⟩

theorem taskCreateMm_some {initMm mm : MmStruct} {m' : Mem} (hflags : flags &&& pfKthread = 0)
    (h : taskCreateMm flags initMm m = (some mm, m')) : ∃ m1, NewMm m1 mm m' := by
  unfold taskCreateMm at h
  split at h
  · cases h
  · rw [if_pos hflags] at h
    exact ⟨_, mmapAllocMmStruct_some h⟩

/-- **The address space of a service.** -/
theorem elfSpace_of_service {type : ServiceType} {initMm : MmStruct}
    (h : serviceCoreInit b type file initMm m = some s) :
    ElfSpace file (elfLoads file) serviceStackBase s := by
  unfold serviceCoreInit at h
  split at h
  · cases h
  split at h
  · cases h
  rename_i mm m1 hmm
  obtain ⟨m2, hnew⟩ := taskCreateMm_some (by cases type <;> decide) hmm
  obtain ⟨ok, r, hk, -⟩ := kmallocSize_cases m1 threadSize
  rw [hk] at h
  cases ok with
  | false => cases h
  | true =>
    obtain ⟨s1, hstack, h⟩ := bind_eq_some_iff.mp h
    obtain ⟨x, hloop, h⟩ := bind_eq_some_iff.mp h
    split_ifs at h
    cases h
    obtain ⟨hb, hareas⟩ := Built.new False hnew
    have hstart : Loading m2 ⟨m1, mm⟩ (rootOnly mm.pgd) file [] [] ⟨{ m1 with kmallocs := r }, mm⟩ :=
      ⟨hb.congr ⟨rfl, rfl, rfl, rfl, rfl, rfl⟩, nofun, hareas⟩
    obtain ⟨hlayout, hgood, hs⟩ := loadServices_some (setupServicesStack_some hstart hstack) hloop
    have hs := hs.setMm { x.2 with mm := x.1.setMm x.2.mm } rfl ⟨rfl, rfl, rfl, rfl, rfl, rfl⟩
    obtain ⟨P, L, hok, -, hwhole, -⟩ := hs.built
    have hmem : ∀ ph ∈ elfLoads file,
        ph.info 0 ∈ (((elfPhdrs file).filter Phdr.isLoad).map (·.info 0)).reverse ++ [] :=
      fun ph hph => mem_append_left _ (mem_reverse.mpr (mem_map_of_mem hph))
    refine ⟨⟨P, L, hok⟩, hwhole, hgood, fun ph hph => ⟨0, hs.content _ (hmem ph hph)⟩,
      fun v hv => ?_, fun ph hph => ?_, by decide, by decide, rfl, ?_, rfl⟩
    · have hrange := hs.areas.mem_iff.mp (mem_map_of_mem hv)
      rcases mem_append.mp hrange with hrange | hrange
      · obtain ⟨ph, hph, heq⟩ := mem_map.mp (mem_reverse.mp hrange)
        refine .inr ⟨ph, hph, ?_⟩
        rw [← (Phdr.info_range (hgood ph hph) 0).2.2.1]
        exact (congrArg Prod.snd heq).symm
      · rw [mem_singleton] at hrange
        exact .inl (congrArg Prod.fst hrange).ge
    · have hsep := (pairwise_append.mp (hs.areas.pairwise hok.rep)).2.2 (ph.info 0).range
        (mem_reverse.mpr (mem_map.mpr ⟨ph, hph, rfl⟩)) _ (mem_singleton_self _)
      obtain ⟨v, hv, hshow⟩ := hs.content _ (hmem ph hph)
      have hlt := (hok.rep.sized v hv).1.lt
      have htop := (Phdr.info_range (hgood ph hph) 0).2.2.1
      have hle := Phdr.top_le (hgood ph hph)
      rw [hshow.start, hshow.stop] at hlt
      simp only [Separate, BinprmInfo.range] at hsep
      omega
    · show pageAlign x.1.elfBrk = _
      rw [hlayout]
      rfl

end Services

/-! ## The VFS -/

section Vfs

variable {file : Nat → Byte} {record record' : Nat → Option BinprmInfo} {read : Reader} {a : Nat}
  {phs done : List Phdr} {ph : Phdr}

/-- The list at an address has a record for each of the segments. -/
inductive Recorded (record : Nat → Option BinprmInfo) : Nat → List Phdr → Prop
  | nil : Recorded record 0 []
  | cons {a next : Nat} {ph : Phdr} {phs : List Phdr} : a ≠ 0 →
      record a = some (ph.info next) → Recorded record next phs → Recorded record a (ph :: phs)

theorem Recorded.mono (h : Recorded record a phs)
    (hle : ∀ a r, record a = some r → record' a = some r) : Recorded record' a phs := by
  induction h with
  | nil => exact .nil
  | cons hne hr _ ih => exact .cons hne (hle _ _ hr) ih

variable {v v' : Vfs}

theorem malloc_some (h : v.malloc = some (a, v')) :
    a ≠ 0 ∧ v.record a = none ∧ v'.record = v.record ∧ v'.binprmInfo = v.binprmInfo := by
  unfold Vfs.malloc at h
  split at h
  · cases h
  · split_ifs at h with hc
    cases h
    rw [not_or, Option.not_isSome_iff_eq_none] at hc
    exact ⟨hc.1, hc.2, rfl, rfl⟩

theorem vfsElfMap_some (hv : Recorded v.record v.binprmInfo phs) (h : vfsElfMap ph v = some v') :
    Recorded v'.record v'.binprmInfo (ph :: phs) := by
  unfold vfsElfMap at h
  split_ifs at h
  obtain ⟨⟨a, w⟩, hmalloc, rfl⟩ := map_eq_some_iff.mp h
  obtain ⟨hne, hfree, -, -⟩ := malloc_some hmalloc
  refine .cons hne (update_self ..) (hv.mono fun a' r hr => ?_)
  have ha : a' ≠ a := by
    rintro rfl
    rw [hfree] at hr
    cases hr
  exact (update_of_ne ha _ _).trans hr

theorem loadVfs_some {x y : Layout × Vfs} (hv : Recorded x.2.record x.2.binprmInfo done)
    (h : phs.foldlM loadVfs x = some y) : y.1 = (phs.filter Phdr.isLoad).foldl Layout.add x.1 ∧
      (∀ ph ∈ phs.filter Phdr.isLoad, ph.bad = false) ∧
      Recorded y.2.record y.2.binprmInfo ((phs.filter Phdr.isLoad).reverse ++ done) := by
  induction phs generalizing x done with
  | nil =>
    cases h
    exact ⟨rfl, nofun, hv⟩
  | cons ph phs ih =>
    rw [foldlM_cons] at h
    obtain ⟨x1, h1, h⟩ := bind_eq_some_iff.mp h
    unfold loadVfs at h1
    split_ifs at h1 with hload hbad
    · cases h1
      simpa [hload] using ih hv h
    · obtain ⟨_, -, h1⟩ := bind_eq_some_iff.mp h1
      cases h1
    · obtain ⟨v, hmap, h1⟩ := bind_eq_some_iff.mp h1
      cases h1
      obtain ⟨h2, h3, h4⟩ := ih (vfsElfMap_some hv hmap) h
      rw [filter_cons_of_pos (Bool.eq_true_of_not_eq_false hload)]
      refine ⟨h2, fun ph' hph' => ?_, by simpa using h4⟩
      rcases mem_cons.mp hph' with rfl | hph'
      · exact Bool.eq_false_iff.mpr hbad
      · exact h3 ph' hph'

theorem loadElfBinary_some {mallocs : List Nat} {x : Layout × Vfs}
    (h : loadElfBinary file mallocs = some x) :
    x.1 = (elfLoads file).foldl Layout.add .start ∧ (∀ ph ∈ elfLoads file, ph.bad = false) ∧
      Recorded x.2.record x.2.binprmInfo (elfLoads file).reverse := by
  obtain ⟨⟨a1, v1⟩, hv1, h⟩ := bind_eq_some_iff.mp h
  split at h
  · cases h
  obtain ⟨⟨a2, v2⟩, hv2, h⟩ := bind_eq_some_iff.mp h
  obtain ⟨y, hloop, h⟩ := bind_eq_some_iff.mp h
  split_ifs at h
  cases h
  have hv : Recorded v2.record v2.binprmInfo [] := by
    rw [(malloc_some hv2).2.2.2, (malloc_some hv1).2.2.2]
    exact .nil
  simpa [elfLoads] using loadVfs_some (x := (.start, v2)) hv hloop

section Recorded

variable (h : Recorded record a phs) (hread : ∀ a r, record a = some r → readInfo read a = some r)
include h hread

theorem Recorded.listed (hph : ph ∈ phs) : ∃ next, Listed read a (ph.info next) := by
  induction h with
  | nil => cases hph
  | @cons a next ph' phs hne hr _ ih =>
    rcases mem_cons.mp hph with rfl | hph
    · exact ⟨next, .head hne (hread _ _ hr)⟩
    · obtain ⟨next', h⟩ := ih hph
      exact ⟨next', .tail hne (hread _ _ hr) h⟩

theorem Recorded.of_listed {r : BinprmInfo} (hr : Listed read a r) :
    ∃ ph ∈ phs, ∃ next, r = ph.info next := by
  induction hr generalizing phs with
  | head hne hr =>
    cases h with
    | nil => exact absurd rfl hne
    | cons _ hrec => exact ⟨_, by simp, _, Option.some.inj (hr.symm.trans (hread _ _ hrec))⟩
  | tail hne hr _ ih =>
    cases h with
    | nil => exact absurd rfl hne
    | cons _ hrec hrest =>
      cases Option.some.inj (hr.symm.trans (hread _ _ hrec))
      obtain ⟨ph, hph, hinfo⟩ := ih hrest
      exact ⟨ph, mem_cons_of_mem _ hph, hinfo⟩

end Recorded

end Vfs

/-! ## `system_exec` -/

/-- A call of `system_exec` that succeeds for the `minix_rt_binprm` of `load_elf_binary`. `xs` is
the file, and `behind` what lies behind it in the memory of the VFS. -/
structure VfsExec (b : Board) (outside behind : Nat → Byte) (read : Reader) (addr : Nat) (i : MmId)
    (k : Kernel) (bprm : Binprm) (xs : List Byte) (d : Done) : Prop where
  message : (read.read addr sizeofBinprm).map Binprm.ofBytes = some bprm
  file : read.read bprm.file bprm.fileSize = some xs
  loaded : ∃ mallocs x, loadElfBinary (bufByte xs behind) mallocs = some x ∧
    bprm.Loaded read (bufByte xs behind) x
  call : systemExec b outside read addr i k = some d
  retval : d.retval = 0

/-- The strings fit into their page, and no segment has 2^44 bytes. -/
structure ExecSmall (outside : Nat → Byte) (read : Reader) (bprm : Binprm) (loads : List Phdr) :
    Prop where
  strings : ∀ block, read.read bprm.mallocP bprm.len = some block →
    stringsSize outside block ≤ pageSize
  short : ∀ ph ∈ loads, (ph.info 0).size < 2 ^ 44

section Exec

variable {b : Board} {outside behind : Nat → Byte} {read : Reader} {addr : Nat} {i : MmId}
  {k : Kernel} {bprm : Binprm} {xs : List Byte} {d : Done}

theorem succeed_some {old : MmId} {oldMm : MmStruct} {tsk : Task} {filename : List Byte} {e : Exec}
    (h : succeed k old i oldMm tsk bprm filename e = some d) (hne : i ≠ old) :
    destroySpace ⟨e.space.mem, e.oldMm oldMm⟩ = some d.kernel.mem ∧
      d.kernel.mm i = some (bprm.setMm e.space.mm) ∧
      (d.kernel.task bprm.pid).bind (·.mm) = some i := by
  unfold succeed at h
  obtain ⟨_, -, h⟩ := bind_eq_some_iff.mp h
  obtain ⟨m, hm, h⟩ := bind_eq_some_iff.mp h
  obtain ⟨_, -, rfl⟩ := map_eq_some_iff.mp h
  refine ⟨hm, ?_, ?_⟩
  · simp only [update_of_ne hne, update_self]
  · simp only [update_self, Option.bind_some]

theorem Shows.congr {file : Nat → Byte} {d d' : Data} {r : BinprmInfo} {v : Vma}
    (h : Shows file d r v) (hd : ∀ p, some p ∈ v.pages → d' p = d p) : Shows file d' r v :=
  ⟨h.start, h.stop, h.priv, h.nr, fun i p hp => by
    rw [hd p (mem_of_getElem? hp), h.bytes i p hp]⟩

/-- **The address space of a program.** -/
theorem elfSpace_of_exec (hk : k.Ok) (hi : k.mm i = none)
    (h : VfsExec b outside behind read addr i k bprm xs d)
    (hsmall : ExecSmall outside read bprm (elfLoads (bufByte xs behind))) :
    ∃ mm, (d.kernel.task bprm.pid).bind (·.mm) = some i ∧ d.kernel.mm i = some mm ∧
      ElfSpace (bufByte xs outside) (elfLoads (bufByte xs behind)) bprm.stringBase
        ⟨d.kernel.mem, mm⟩ := by
  obtain ⟨mallocs, l, hload, hloaded⟩ := h.loaded
  obtain ⟨hlayout, hgood, hrec⟩ := loadElfBinary_some hload
  rw [← hloaded.info] at hrec
  obtain ⟨x, hx⟩ := systemExec_ok h.call h.retval
  obtain ⟨m, hm, hbuilds⟩ := hx.builds
  obtain rfl : x.bprm = bprm := Option.some.inj (hx.bprm.symm.trans h.message)
  obtain rfl : x.file = xs := Option.some.inj (hbuilds.file.symm.trans h.file)
  obtain ⟨P, L, hrep⟩ := hk.spaces
  have hne : i ≠ x.old := fun heq => by
    have := hx.oldMm
    rw [← heq, hi] at this
    cases this
  -- the call ends, so that the block is short
  obtain ⟨-, -, -, -, hlen, -⟩ := buildImage_ok hbuilds.image
  have hp : x.bprm.p < 2 ^ 64 := by
    obtain ⟨ys, -, hys⟩ := map_eq_some_iff.mp hx.bprm
    rw [← hys]
    exact word64_lt _ _
  have hshort := Binprm.short_of_len hp hlen
  have hfits : x.bprm.Fits False False read outside := by
    refine ⟨⟨fun r hr hle => ?_, False.elim⟩, hshort, False.elim, False.elim⟩
    obtain ⟨ph, hph, next, rfl⟩ := hrec.of_listed hloaded.record hr
    have hph := mem_reverse.mp hph
    refine ⟨?_, ph.prot_private, hsmall.short ph hph, False.elim⟩
    have htop := (Phdr.info_range (hgood ph hph) next).2.2.1
    have hle' := Phdr.top_le (hgood ph hph)
    unfold u64 at hle
    unfold taskSize at hle'
    omega
  have hnew := mmapAllocMmStruct_some hbuilds.alloc
  obtain ⟨hb, hareas⟩ := Built.new False hnew
  have hholds := buildImage_holds b x.file ⟨⟨x.mem₁, x.mm⟩, firstBufs, [], none⟩ hfits hb hareas
    rfl rfl rfl
  rw [hbuilds.image] at hholds
  cases hholds with
  | ok hok =>
    obtain ⟨rs, block, hchain, hread, -, -, hfin⟩ := hok
    have hfin := hfin (hsmall.strings block hread)
    obtain ⟨hdestroy, hmm, htask⟩ := succeed_some hbuilds.done hne
    obtain ⟨P1, L1, hok1, hto1, hwhole, -⟩ := hfin.built
    obtain ⟨m2, hm2, ⟨P', L', hok⟩, hdata⟩ := destroy_old (e := x.exec) (k := k)
      (hrep.same (hm.trans hbuilds.asked).same) (hk.mapped _ _ hx.oldMm) hi hx.oldMm hbuilds.alloc
      hok1 hto1
    obtain rfl : m2 = d.kernel.mem := Option.some.inj (hm2.symm.trans hdestroy)
    have hle : x.bprm.stringBase ≤ x.bprm.stackBase := Nat.sub_le _ _
    have hmem : ∀ ph ∈ elfLoads (bufByte x.file behind), ∃ next, ph.info next ∈ rs.reverse :=
      fun ph hph => by
        obtain ⟨next, hlisted⟩ := hrec.listed hloaded.record (mem_reverse.mpr hph)
        exact ⟨next, mem_reverse.mpr (hchain.mem hlisted)⟩
    refine ⟨_, htask, hmm, ⟨P', L', SpaceOk.congr hok ⟨rfl, rfl, rfl, rfl, rfl, rfl⟩⟩, hwhole, hgood,
      fun ph hph => ?_, fun v hv => ?_, fun ph hph => ?_, ?_, ?_, hfin.base, ?_, rfl⟩
    · obtain ⟨next, hr⟩ := hmem ph hph
      obtain ⟨v, hv, hshow⟩ := hfin.content _ hr
      exact ⟨next, v, hv, hshow.congr fun p hp =>
        hdata p (mem_ownPages.mpr ⟨v, hv, hshow.priv, hp⟩)⟩
    · have hrange := hfin.areas.mem_iff.mp (mem_map_of_mem hv)
      simp only [Binprm.areas, mem_cons, mem_map, mem_reverse] at hrange
      rcases hrange with hrange | hrange | ⟨r, hr, hrange⟩
      · exact .inl (congrArg Prod.fst hrange).ge
      · exact .inl (hle.trans (congrArg Prod.fst hrange).ge)
      · obtain ⟨ph, hph, next, rfl⟩ := hrec.of_listed hloaded.record (hchain.listed hr)
        have hph := mem_reverse.mp hph
        refine .inr ⟨ph, hph, ?_⟩
        rw [← (Phdr.info_range (hgood ph hph) next).2.2.1]
        exact (congrArg Prod.snd hrange).symm
    · obtain ⟨next, hr⟩ := hmem ph hph
      rw [← (Phdr.info_range (hgood ph hph) next).2.2.1]
      exact (hfin.content.below hok1 hfin.areas hshort _ hr).2
    · exact hshort.stringBase_mod
    · exact hle.trans (Nat.sub_le _ _)
    · show pageAlign x.bprm.brk = _
      rw [hloaded.brk, hlayout]

end Exec

/-! ## The bytes of the image -/

def byteAt (s : Space) (a : Nat) : Option Byte :=
  (s.translate a).map fun e => s.mem.data e.page (a % pageSize)

/-- The segment is in the address space as its header says. -/
structure Phdr.Faithful (file : Nat → Option Byte) (s : Space) (ph : Phdr) : Prop where
  file : ∀ n < ph.filesz, byteAt s (ph.vaddr + n) = file (ph.offset + n)
  zero : ∀ n, ph.filesz ≤ n → n < ph.memsz → byteAt s (ph.vaddr + n) = some 0

/-- What follows the segment in the file is zero up to `p_memsz`. -/
def Phdr.TailZero (file : Nat → Byte) (ph : Phdr) : Prop :=
  ∀ n, ph.filesz ≤ n → n < ph.memsz → file (u64 (ph.offset + n)) = 0

def Phdr.InFile (xs : List Byte) (ph : Phdr) : Prop :=
  ph.filesz = 0 ∨ ph.offset + ph.filesz ≤ xs.length

section Bytes

variable {file : Nat → Byte} {loads : List Phdr} {base : Nat} {s : Space} {ph : Phdr}

theorem Shows.byteAt {P : Nat → Nat → Option Page} {L : Nat → Option Entry} {r : BinprmInfo}
    {v : Vma} {a : Nat} (h : Shows file s.mem.data r v) (hok : SpaceOk s P L) (hv : v ∈ s.mm.vmas)
    (hw : Whole v) (halign : r.vaddr % pageSize = 0) (h1 : r.vaddr ≤ a)
    (h2 : a < r.vaddr + r.size) : byteAt s a = some (file (u64 (r.off + (a - r.vaddr)))) := by
  obtain ⟨p, hp, -, htr⟩ := SpaceOk.pageOf hok hv hw (a := a) (by rwa [h.start]) (by rwa [h.stop])
  obtain ⟨e, he, rfl⟩ := map_eq_some_iff.mp htr
  have hbytes := h.bytes _ _ hp
  have hoff : r.off + (a - r.vaddr) / pageSize * pageSize + a % pageSize =
      r.off + (a - r.vaddr) := by
    unfold pageSize at *
    omega
  rw [System.byteAt, he, Option.map_some, hbytes, h.start, ← hoff]

theorem ElfSpace.byteAt (h : ElfSpace file loads base s) (hph : ph ∈ loads) {n : Nat}
    (hn : n < ph.memsz) : byteAt s (ph.vaddr + n) = some (file (u64 (ph.offset + n))) := by
  obtain ⟨P, L, hok⟩ := h.ok
  obtain ⟨next, v, hv, hshow⟩ := h.shows ph hph
  obtain ⟨h1, h2, h3, h4⟩ := Phdr.info_range (h.good ph hph) next
  rw [hshow.byteAt hok hv (h.whole v hv) h2 (by omega) (by omega), Phdr.info_off]

theorem ElfSpace.faithful_iff (h : ElfSpace file loads base s) (hph : ph ∈ loads)
    (bytes : Nat → Option Byte) : ph.Faithful bytes s ↔
      (∀ n < ph.filesz, some (file (u64 (ph.offset + n))) = bytes (ph.offset + n)) ∧
        ph.TailZero file := by
  have hle := (Phdr.le_of_good (h.good ph hph)).1
  constructor
  · intro hf
    refine ⟨fun n hn => ?_, fun n hn hn' => ?_⟩
    · rw [← h.byteAt hph (hn.trans_le hle), hf.file n hn]
    · exact Option.some.inj ((h.byteAt hph hn').symm.trans (hf.zero n hn hn'))
  · rintro ⟨hfile, hzero⟩
    refine ⟨fun n hn => ?_, fun n hn hn' => ?_⟩
    · rw [h.byteAt hph (hn.trans_le hle), hfile n hn]
    · rw [h.byteAt hph hn', hzero n hn hn']

theorem inFile_iff {xs : List Byte} {outside : Nat → Byte} (hlen : xs.length < 2 ^ 64) :
    (∀ n < ph.filesz, some (bufByte xs outside (u64 (ph.offset + n))) = xs[ph.offset + n]?) ↔
      ph.InFile xs := by
  constructor
  · intro h
    rcases Nat.eq_zero_or_pos ph.filesz with h0 | h0
    · exact .inl h0
    · have hlast := h (ph.filesz - 1) (by omega)
      obtain ⟨hlt, -⟩ := List.getElem?_eq_some_iff.mp hlast.symm
      exact .inr (by omega)
  · intro h n hn
    have hlt : ph.offset + n < xs.length := by
      rcases h with h | h
      · omega
      · omega
    rw [u64, Nat.mod_eq_of_lt (hlt.trans hlen), bufByte, getElem?_eq_getElem hlt]
    rfl

/-- **The image of an ELF file.** It is the one that the headers describe exactly when the bytes
that follow each segment are zero up to its `p_memsz`: in the archive for a service, and in the
file and the kernel memory behind it for a program. -/
theorem elf_image_fidelity (b : Board) :
    (∀ type file initMm m s, serviceCoreInit b type file initMm m = some s →
      ((∀ ph ∈ elfLoads file, ph.filesz ≤ ph.memsz →
          ph.Faithful (fun n => some (file (u64 n))) s) ↔
        ∀ ph ∈ elfLoads file, ph.TailZero file)) ∧
    ∀ outside behind read addr i k bprm xs d, Kernel.Ok k → k.mm i = none →
      VfsExec b outside behind read addr i k bprm xs d →
      ExecSmall outside read bprm (elfLoads (bufByte xs behind)) →
      ∃ mm, (d.kernel.task bprm.pid).bind (·.mm) = some i ∧ d.kernel.mm i = some mm ∧
        ((∀ ph ∈ elfLoads (bufByte xs behind), ph.filesz ≤ ph.memsz →
            ph.Faithful (xs[·]?) ⟨d.kernel.mem, mm⟩) ↔
          ∀ ph ∈ elfLoads (bufByte xs behind),
            ph.InFile xs ∧ ph.TailZero (bufByte xs outside)) := by
  refine ⟨fun type file initMm m s h => ?_, fun outside behind read addr i k bprm xs d hk hi h hsmall => ?_⟩
  · have hs := elfSpace_of_service h
    refine forall₂_congr fun ph hph => ?_
    rw [hs.faithful_iff hph, imp_iff_right (Phdr.le_of_good (hs.good ph hph)).1]
    exact and_iff_right fun _ _ => rfl
  · obtain ⟨mm, htask, hmm, hs⟩ := elfSpace_of_exec hk hi h hsmall
    refine ⟨mm, htask, hmm, forall₂_congr fun ph hph => ?_⟩
    rw [hs.faithful_iff hph, imp_iff_right (Phdr.le_of_good (hs.good ph hph)).1]
    refine and_congr_left' (inFile_iff ?_)
    obtain ⟨x, hx⟩ := systemExec_ok h.call h.retval
    obtain ⟨m, -, hbuilds⟩ := hx.builds
    obtain rfl : x.bprm = bprm := Option.some.inj (hx.bprm.symm.trans h.message)
    rw [(read.length h.file).1]
    exact hbuilds.size.trans_lt (by decide)

end Bytes

/-! ## A file with one segment -/

/-- An ELF file of 128 bytes with one segment: the first 120 bytes at `vaddr`, and 8 bytes more
in memory. The word `w` follows the segment in the file. -/
def sampleElf (vaddr w : Nat) : List Byte :=
  wordsAt 128 [(0, 0x00010102464c457f), (16, 0x0000000100b70002), (24, vaddr), (32, 64),
    (48, 0x0038004000000000), (56, 1), (64, 0x0000000500000001), (80, vaddr), (96, 120),
    (104, 128), (120, w)]

def samplePhdr : Phdr := ⟨1, 5, 0, 0x400000, 120, 128⟩

def sampleArchive (vaddr w : Nat) : Nat → Byte := bufByte (sampleElf vaddr w) fun _ => 0

def sampleMem : Mem :=
  { emptyMem with kmallocs := replicate 40 true, freePages := (range 20).map some }

theorem sampleArchive_phdrs : elfPhdrs (sampleArchive 0x400000 0) = [samplePhdr] ∧
    elfPhdrs (sampleArchive 0x400000 1) = [samplePhdr] := by
  decide +kernel

theorem sampleArchive_loads : elfLoads (sampleArchive 0x400000 0) = [samplePhdr] ∧
    elfLoads (sampleArchive 0x400000 1) = [samplePhdr] := by
  rw [elfLoads, elfLoads, sampleArchive_phdrs.1, sampleArchive_phdrs.2]
  decide

/-- The `minix_rt_binprm` for this file at 0x3000, with its record at 0x5000. -/
def sampleElfBprm : List Byte :=
  wordsAt sizeofBinprm [(128, 0x2000), (136, 2), (144, 0x3000), (152, 128), (184, 0x5000),
    (192, 0x400000), (200, 0x400000), (208, 0x400078), (216, 0x400000), (224, 0x400078),
    (264, 0x400078), (272, 0x400080), (648, taskSize - 40), (656, 0x6000), (680, 5)]

def sampleElfReader : Reader :=
  .ofBlocks [(0x1000, sampleElfBprm), (0x2000, [0x61, 0]), (0x3000, sampleElf 0x400000 0),
    (0x5000, sampleInfo 0x400000 0x1000 0), (0x6000, wordsAt 40 [(0, 1), (8, taskSize - 8), (32, 0x61)])]

def sampleElfExec : Option Done :=
  systemExec plainBoard (fun _ => 0) sampleElfReader 0x1000 1 (sampleKernel 40)

/-- What `load_elf_binary` leaves for the file. -/
def sampleVfs : Layout × Vfs :=
  (Layout.start.add samplePhdr,
    ⟨0x5000, update (fun _ => none) 0x5000 (some (samplePhdr.info 0)), []⟩)

theorem sampleVfs_loaded : loadElfBinary (sampleArchive 0x400000 0) [0x7000, 0x7100, 0x5000] =
    some sampleVfs := by
  have hok : (ElfHdr.ofFile (sampleArchive 0x400000 0)).ok = true := by decide +kernel
  have hentry : badAddr (ElfHdr.ofFile (sampleArchive 0x400000 0)).entry = false := by decide +kernel
  simp only [loadElfBinary, hok, hentry, sampleArchive_phdrs.1]
  rfl

theorem sampleVfs_info {read : Reader} (hread : readInfo read 0x5000 = some (samplePhdr.info 0))
    (a : Nat) (r : BinprmInfo) (hr : sampleVfs.2.record a = some r) : readInfo read a = some r := by
  by_cases ha : a = 0x5000
  · subst ha
    exact hread.trans hr
  · simp only [sampleVfs, update_apply, if_neg ha] at hr
    cases hr

theorem sampleElfBprm_loaded :
    (Binprm.ofBytes sampleElfBprm).Loaded sampleElfReader (sampleArchive 0x400000 0) sampleVfs := by
  refine ⟨?_, sampleVfs_info ?_, ?_, ?_, ?_, ?_, ?_, ?_, ?_⟩ <;> decide +kernel

theorem sampleElfExec_small : ExecSmall (fun _ => 0) sampleElfReader (Binprm.ofBytes sampleElfBprm)
    (elfLoads (sampleArchive 0x400000 0)) := by
  refine ⟨fun block hblock => ?_, ?_⟩
  · have hread : sampleElfReader.read (Binprm.ofBytes sampleElfBprm).mallocP
        (Binprm.ofBytes sampleElfBprm).len =
          some (wordsAt 40 [(0, 1), (8, taskSize - 8), (32, 0x61)]) := by decide +kernel
    rw [Option.some.inj (hblock.symm.trans hread)]
    decide +kernel
  · rw [sampleArchive_loads.1]
    decide

theorem sampleElfExec_some : ∃ d, sampleElfExec = some d ∧
    VfsExec plainBoard (fun _ => 0) (fun _ => 0) sampleElfReader 0x1000 1 (sampleKernel 40)
      (Binprm.ofBytes sampleElfBprm) (sampleElf 0x400000 0) d := by
  have hval : sampleElfExec.map (·.retval) = some 0 := by decide +kernel
  obtain ⟨d, hd, hret⟩ := map_eq_some_iff.mp hval
  have hread : sampleElfReader.read 0x1000 sizeofBinprm = some sampleElfBprm := by decide +kernel
  exact ⟨d, hd, by rw [hread, Option.map_some], by decide +kernel,
    ⟨_, sampleVfs, sampleVfs_loaded, sampleElfBprm_loaded⟩, hd, hret⟩

theorem samplePhdr_tailZero : samplePhdr.TailZero (sampleArchive 0x400000 0) := by
  have h : ∀ n < 128, 120 ≤ n → sampleArchive 0x400000 0 (u64 (0 + n)) = 0 := by decide +kernel
  exact fun n hn hn' => h n hn' hn

/-- The file with zeros behind its segment, as a service and as a program. -/
theorem elf_image_fidelity_sample :
    (∃ s, serviceCoreInit plainBoard .servers (sampleArchive 0x400000 0) (plainMm 0) sampleMem = some s ∧
      samplePhdr.Faithful (fun n => some (sampleArchive 0x400000 0 (u64 n))) s) ∧
    ∃ d mm, sampleElfExec = some d ∧ d.kernel.mm 1 = some mm ∧
      samplePhdr.Faithful ((sampleElf 0x400000 0)[·]?) ⟨d.kernel.mem, mm⟩ := by
  have htail : ∀ ph ∈ elfLoads (sampleArchive 0x400000 0), ph.TailZero (sampleArchive 0x400000 0) := by
    simp [sampleArchive_loads.1, samplePhdr_tailZero]
  have hmem : samplePhdr ∈ elfLoads (sampleArchive 0x400000 0) := by simp [sampleArchive_loads.1]
  constructor
  · have hval : (serviceCoreInit plainBoard .servers (sampleArchive 0x400000 0) (plainMm 0)
        sampleMem).isSome = true := by decide +kernel
    obtain ⟨s, hs⟩ := Option.isSome_iff_exists.mp hval
    exact ⟨s, hs, ((elf_image_fidelity plainBoard).1 _ _ _ _ s hs).mpr htail _ hmem (by decide)⟩
  · obtain ⟨d, hd, hexec⟩ := sampleElfExec_some
    obtain ⟨mm, -, hmm, hiff⟩ := (elf_image_fidelity plainBoard).2 _ _ _ _ _ _ _ _ d
      (sampleKernel_ok 40) rfl hexec sampleElfExec_small
    refine ⟨d, mm, hd, hmm, hiff.mpr (fun ph hph => ⟨?_, htail ph hph⟩) _ hmem (by decide)⟩
    obtain rfl : ph = samplePhdr := by
      have : ph ∈ elfLoads (sampleArchive 0x400000 0) := hph
      simpa [sampleArchive_loads.1] using this
    exact .inr (by decide +kernel)

/-- A byte of the file is at the end of the image instead of a zero. -/
theorem elf_tail_not_zero : ¬ ∀ b type file initMm m s,
    serviceCoreInit b type file initMm m = some s → ∀ ph ∈ elfLoads file, ph.filesz ≤ ph.memsz →
      ph.Faithful (fun n => some (file (u64 n))) s := by
  intro h
  have hval : (serviceCoreInit plainBoard .servers (sampleArchive 0x400000 1) (plainMm 0) sampleMem).map
      (fun s => byteAt s (0x400000 + 120)) = some (some 1) := by decide +kernel
  obtain ⟨s, hs, hbyte⟩ := map_eq_some_iff.mp hval
  have hzero := (h _ _ _ _ _ s hs samplePhdr (by simp [sampleArchive_loads.2]) (by decide)).zero 120
    le_rfl (by decide)
  cases hbyte.symm.trans hzero

end MinixRt.System
