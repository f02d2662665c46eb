import MinixRt.System.Image

/-!
# The stack of a new program

After a call of `system_exec` that succeeds, the argument block with its changed pointers lies at
the stack pointer, and the strings of the block lie in the page below the stack (`NewStack`). The
fields of the new `mm_struct` for the arguments are those of `mmap_alloc_mm_struct`.

`Grown` is `Built` without the condition that every VMA is whole, so that it also holds with
segments whose number of pages does not fit into 32 bits.
-/

namespace MinixRt.System

open Lib Mm

variable {block : List Byte} {m : Mem} {mm : MmStruct} {stop start : Nat} {u : Vma}

def argFields (mm : MmStruct) : Args := ⟨mm.argStart, mm.argEnd, mm.envStart, mm.envEnd⟩

/-- `s` has been made from `s₀`. -/
structure Grown (s₀ : Space) (P₀ : Nat → Nat → Option Page) (s : Space) : Prop where
  ok : ∃ P L, SpaceOk s P L ∧ SpaceTo s₀ P₀ s P
  args : argFields s.mm = argFields s₀.mm

/-- The block with the pointers to the string page. -/
def Binprm.relocated (outside : Nat → Byte) (bprm : Binprm) (block : List Byte) : List Byte :=
  relocate outside (wordAt block outside 8) bprm.stringBase (bprm.argOffs ++ bprm.envOffs) block

/-- The byte of the strings that comes to the offset `j` of their page. -/
def Binprm.stringByte (outside : Nat → Byte) (bprm : Binprm) (block : List Byte) (j : Nat) : Byte :=
  bufByte block outside (u64 (sub64 (wordAt block outside 8) bprm.p + j))

structure NewStack (outside : Nat → Byte) (bprm : Binprm) (block : List Byte) (s : Space) : Prop where
  stack : ∀ j (h : j < (bprm.relocated outside block).length),
    byteAt s (bprm.p + j) = some (bprm.relocated outside block)[j]
  strings : ∀ j < stringsSize outside block,
    byteAt s (bprm.stringBase + j) = some (bprm.stringByte outside block j)

section Grown

variable {b : Board} {s₀ s s' : Space} {P₀ : Nat → Nat → Option Page} {vstart size : Nat}
  {flags : BitVec 64} {fill : Vma → Data → Data} {v : Vma}

theorem Grown.mapArea (h : Grown s₀ P₀ s) (hend : vstart + size ≤ entrySize 4)
    (hpriv : flags &&& vmPrivateShare = 0) (hfill : Fills fill)
    (hres : s.mapArea b vstart size flags 0 fill = some (.mapped v, s')) :
    Grown s₀ P₀ s' ∧ MappedArea s vstart size flags fill v s' := by
  obtain ⟨P, L, hok, hto⟩ := h.ok
  obtain ⟨P', L', hok', hto', hm⟩ := hok.mapArea_mapped hend hpriv hfill hres
  refine ⟨⟨⟨P', L', hok', hto.trans hto'⟩, ?_⟩, hm⟩
  obtain ⟨l1, l2, r, bytes, -, -, hmm⟩ := hm.mm
  rw [← h.args, hmm]
  rfl

theorem Grown.congr (h : Grown s₀ P₀ s) (ha : Alike s s') (hargs : argFields s'.mm = argFields s.mm) :
    Grown s₀ P₀ s' := by
  obtain ⟨P, L, hok, hto⟩ := h.ok
  exact ⟨⟨P, L, SpaceOk.congr hok ha, SpaceTo.congr hto ha⟩, hargs.trans h.args⟩

theorem Grown.setMmapBase (h : Grown s₀ P₀ s) (base : Nat) :
    Grown s₀ P₀ (System.setMmapBase s base) := h.congr ⟨rfl, rfl, rfl, rfl, rfl, rfl⟩ rfl

theorem Grown.setData (h : Grown s₀ P₀ s) {d : Data}
    (hd : ∀ q, q ∉ ownPages s.mm.vmas → d q = s.mem.data q) : Grown s₀ P₀ (s.setData d) := by
  obtain ⟨P, L, hok, hto⟩ := h.ok
  exact ⟨⟨P, L, hok.setData d, hto.trans (.setData hd)⟩, h.args⟩

theorem Grown.new {m' : Mem} (h : NewMm m mm m') :
    Grown ⟨m', mm⟩ (rootOnly mm.pgd) ⟨m', mm⟩ := ⟨⟨_, _, h.ok, .refl _ _⟩, rfl⟩

end Grown

/-! ## Bytes of a VMA -/

section Bytes

variable {s : Space} {P : Nat → Nat → Option Page} {L : Nat → Option Entry} {v : Vma} {a a' : Nat}

theorem SpaceOk.byteAt_eq (h : SpaceOk s P L) (hv : v ∈ s.mm.vmas) (hw : Whole v)
    (h1 : v.vmStart ≤ a) (h2 : a < v.vmEnd) : byteAt s a = some (v.getByte s.mem.data a) := by
  obtain ⟨p, -, hpage, htr⟩ := SpaceOk.pageOf h hv hw h1 h2
  obtain ⟨e, he, rfl⟩ := Option.map_eq_some_iff.mp htr
  rw [byteAt, he, Option.map_some, Vma.getByte, hpage]

theorem SpaceOk.eq_of_pageOf (h : SpaceOk s P L) (hv : v ∈ s.mm.vmas) (hw : Whole v)
    (ha : v.vmStart ≤ a ∧ a < v.vmEnd) (ha' : v.vmStart ≤ a' ∧ a' < v.vmEnd)
    (heq : v.pageOf a = v.pageOf a') (hmod : a % pageSize = a' % pageSize) : a = a' := by
  obtain ⟨p, hp, hpage, -⟩ := SpaceOk.pageOf h hv hw ha.1 ha.2
  obtain ⟨p', hp', hpage', -⟩ := SpaceOk.pageOf h hv hw ha'.1 ha'.2
  obtain rfl : p = p' := by
    rw [hpage, hpage'] at heq
    exact Option.some.inj heq
  obtain ⟨ps, hps, hnodup, -⟩ := h.own.pages hv hw.priv
  have hinj : (ps.map some).Nodup := hnodup.map (Option.some_injective _)
  rw [hps] at hp hp'
  have hindex := (List.getElem?_inj (List.getElem?_eq_some_iff.mp hp).1 hinj).mp (hp.trans hp'.symm)
  unfold pageSize at hindex hmod
  omega

theorem Vma.getByte_congr {d d' : Data} (h : ∀ q, v.pageOf a = some q → d' q = d q) :
    v.getByte d' a = v.getByte d a := by
  unfold Vma.getByte
  cases hp : v.pageOf a with
  | none => rfl
  | some q => simp only [h q hp]

theorem SpaceOk.getByte_setBytes (h : SpaceOk s P L) (hv : v ∈ s.mm.vmas) (hw : Whole v) {d : Data}
    {xs : List Byte} (h1 : v.vmStart ≤ a) (h2 : a + xs.length ≤ v.vmEnd) {i : Nat}
    (hi : i < xs.length) : v.getByte (v.setBytes d a xs) (a + i) = xs[i] := by
  have hrange : ∀ j < xs.length, v.vmStart ≤ a + j ∧ a + j < v.vmEnd := fun j hj => by omega
  obtain ⟨p, -, hpage, -⟩ := SpaceOk.pageOf h hv hw (hrange i hi).1 (hrange i hi).2
  refine Vma.getByte_setBytes hi hpage fun j hj hp hmod => ?_
  have := SpaceOk.eq_of_pageOf h hv hw (hrange j hj) (hrange i hi) (hp.trans hpage.symm) hmod
  omega

end Bytes

/-! ## The parts of a call that succeeds -/

section Parts

variable {b : Board} {outside : Nat → Byte} {read : Reader} {bprm : Binprm} {s₀ : Space}
  {P₀ : Nat → Nat → Option Page} {e e' : Exec}

/-- A segment has pages of its own and no range that wraps around. -/
def BinprmInfo.Plain (r : BinprmInfo) : Prop :=
  r.vaddr + r.size ≤ taskSize ∧ r.prot &&& vmPrivateShare = 0

theorem loadSegments_grown {file : Nat → Byte} {fileSize turns next : Nat}
    (h : loadSegments b read file fileSize turns next e = some (.ok (), e'))
    (hplain : ∀ r, Listed read next r → r.Plain) (hg : Grown s₀ P₀ e.space) :
    Grown s₀ P₀ e'.space := by
  induction turns generalizing next e with
  | zero => cases h
  | succ turns ih =>
    rw [loadSegments] at h
    split_ifs at h with hnext
    · cases h
      exact hg
    split at h
    · cases h
    rename_i r hr
    split_ifs at h
    · cases h
    split at h
    · cases h
    · cases h
    · cases h
    rename_i v s' hmap
    obtain ⟨hend, hpriv⟩ := hplain r (.head hnext hr)
    obtain ⟨hg', -⟩ := hg.mapArea hend hpriv (fills_copyPages file r.off) hmap
    exact ih h (fun r' hr' => hplain r' (.tail hnext hr hr')) hg'

variable {vstart size : Nat} {v : Vma} {flags : BitVec 64}

theorem Exec.mapZeros_grown {exit : Int → Exit}
    (h : e.mapZeros b vstart size flags exit = some (.ok v, e')) (hg : Grown s₀ P₀ e.space)
    (hend : vstart + size ≤ taskSize) (hpriv : flags &&& vmPrivateShare = 0) :
    Grown s₀ P₀ e'.space ∧ MappedArea e.space vstart size flags (fun _ d => d) v e'.space := by
  unfold Exec.mapZeros at h
  split at h
  · cases h
  · cases h
  · cases h
  · rename_i v s' hmap
    cases h
    exact hg.mapArea hend hpriv (fun _ _ _ _ => rfl) hmap

structure HasVma (s : Space) (start stop : Nat) (v : Vma) : Prop where
  mem : v ∈ s.mm.vmas
  whole : Whole v
  start : v.vmStart = start
  stop : v.vmEnd = stop

variable {fill : Vma → Data → Data} {s s' : Space}

theorem HasVma.mapped (h : HasVma s start stop u) (hm : MappedArea s vstart size flags fill v s') :
    HasVma s' start stop u := by
  obtain ⟨l1, l2, r, bytes, heq, -, hmm⟩ := hm.mm
  refine ⟨?_, h.whole, h.start, h.stop⟩
  have hu := h.mem
  rw [heq, List.mem_append] at hu
  rw [hmm, List.mem_append, List.mem_cons]
  exact hu.imp_right .inr

theorem HasVma.congr (h : HasVma s start stop u) (hmm : s'.mm = s.mm) : HasVma s' start stop u :=
  ⟨by rw [hmm]; exact h.mem, h.whole, h.start, h.stop⟩

theorem HasVma.setMmapBase {s : Space} (h : HasVma s start stop u) (base : Nat) :
    HasVma (System.setMmapBase s base) start stop u := ⟨h.mem, h.whole, h.start, h.stop⟩

theorem hasVma_of_mapped (hm : MappedArea s vstart size flags fill v s') (hsize : size < 2 ^ 44)
    (hpriv : flags &&& vmPrivateShare = 0) (hstop : vstart + size = stop) :
    ∃ u, HasVma s' vstart stop u ∧ u.pages = v.pages := by
  obtain ⟨l1, l2, r, bytes, -, hmapped, hmm⟩ := hm.mm
  refine ⟨{ v with root := r }, ⟨?_, whole_of_mapped hm hsize hpriv hmapped, hm.start,
    hm.stop.trans hstop⟩, rfl⟩
  rw [hmm]
  simp

theorem mapStack_grown (h : mapStack b bprm e = some (.ok v, e')) (hg : Grown s₀ P₀ e.space)
    (hshort : bprm.Short) : Grown s₀ P₀ e'.space ∧ e'.space.mm.mmapBase = bprm.stackBase ∧
      ∃ u, HasVma e'.space bprm.stackBase taskSize u := by
  have hbase := hshort.bases.top
  have hsub : sub64 taskSize bprm.stackSize = bprm.stackBase := sub64_of_le (by omega) (by decide)
  simp only [mapStack, hsub] at h
  obtain ⟨hg', hm⟩ := Exec.mapZeros_grown h (hg.congr ⟨rfl, rfl, rfl, rfl, rfl, rfl⟩ rfl) hbase.le
    (by decide)
  obtain ⟨u, hu, -⟩ := hasVma_of_mapped hm hshort.stackSize.2.2 (by decide) hbase
  obtain ⟨l1, l2, r, bytes, -, -, hmm⟩ := hm.mm
  exact ⟨hg', by rw [hmm], u, hu⟩

theorem readBlock_grown (h : readBlock read bprm e = some (.ok block, e'))
    (hg : Grown s₀ P₀ e.space) : Grown s₀ P₀ e'.space ∧ e'.space.mm = e.space.mm := by
  obtain ⟨ok, r, hk, -⟩ := kmallocSize_cases e.space.mem bprm.len
  rw [readBlock, hk] at h
  cases ok with
  | false => cases h
  | true =>
    simp only at h
    split at h
    · cases h
    · cases h
      exact ⟨hg.congr ⟨rfl, rfl, rfl, rfl, rfl, rfl⟩ rfl, rfl⟩

theorem mapStrings_grown (h : mapStrings b e = some (.ok v, e')) (hg : Grown s₀ P₀ e.space)
    (hshort : bprm.Short) (hbase : e.space.mm.mmapBase = bprm.stackBase)
    (hu : HasVma e.space bprm.stackBase taskSize u) :
    Grown s₀ P₀ e'.space ∧ e'.space.mm.mmapBase = bprm.stringBase ∧
      HasVma e'.space bprm.stackBase taskSize u ∧
      ∃ w q, HasVma e'.space bprm.stringBase bprm.stackBase w ∧ w.pages = [some q] ∧
        v.page 0 = some q := by
  have htop := hshort.bases.top
  have hstring := hshort.bases.string
  simp only [mapStrings, hbase, hshort.sub64_stackBase] at h
  obtain ⟨hg', hm⟩ := Exec.mapZeros_grown h (hg.setMmapBase _) (hstring ▸ Nat.le.intro htop)
    (by decide)
  obtain ⟨w, hw, hpages⟩ := hasVma_of_mapped hm (by decide) (by decide) hstring
  obtain ⟨q, hq, hpage⟩ := MappedArea.onePage hm
  obtain ⟨l1, l2, r, bytes, -, -, hmm⟩ := hm.mm
  exact ⟨hg', by rw [hmm]; rfl, (hu.setMmapBase _).mapped hm, w, q, hw, hpages.trans hq, hpage⟩

theorem relocate_append (outside : Nat → Byte) (argv0 base : Nat) (offs offs' : List Nat)
    (block : List Byte) : relocate outside argv0 base (offs ++ offs') block =
      relocate outside argv0 base offs' (relocate outside argv0 base offs block) := by
  induction offs generalizing block with
  | nil => rfl
  | cons off offs ih => exact ih _

/-- The stack has the VMA `u`, the strings have `w`, and these are their bytes. -/
structure StackLaid (outside : Nat → Byte) (bprm : Binprm) (block : List Byte) (s : Space) (u w : Vma) :
    Prop where
  stackVma : HasVma s bprm.stackBase taskSize u
  stringVma : HasVma s bprm.stringBase bprm.stackBase w
  stack : ∀ j (h : j < (bprm.relocated outside block).length),
    u.getByte s.mem.data (bprm.p + j) = (bprm.relocated outside block)[j]
  strings : ∀ j < stringsSize outside block,
    w.getByte s.mem.data (bprm.stringBase + j) = bprm.stringByte outside block j

theorem finish_grown {v w : Vma} {q : Page}
    (h : copyStack bprm (moveStrings outside bprm block v e).1
      (moveStrings outside bprm block v e).2 = some (.ok (), e')) (hg : Grown s₀ P₀ e.space)
    (hshort : bprm.Short) (hbase : e.space.mm.mmapBase = bprm.stringBase)
    (hu : HasVma e.space bprm.stackBase taskSize u)
    (hw : HasVma e.space bprm.stringBase bprm.stackBase w) (hpages : w.pages = [some q])
    (hpage : v.page 0 = some q) (hlen : block.length = bprm.len) (hne : bprm.len ≠ 0)
    (hsize : stringsSize outside block ≤ pageSize) :
    Grown s₀ P₀ e'.space ∧ StackLaid outside bprm block e'.space u w := by
  obtain ⟨P, L, hok, -⟩ := hg.ok
  have hblock : (moveStrings outside bprm block v e).1 = bprm.relocated outside block := by
    simp only [moveStrings, Binprm.relocated, relocate_append, hbase]
  obtain ⟨hlen', hspace, -, -⟩ := moveStrings_spec outside bprm block hpage e
  rw [hblock] at h hlen'
  generalize (moveStrings outside bprm block v e).2 = e1 at h hspace
  set d := copyStrings (bufByte block outside) q (sub64 (wordAt block outside 8) bprm.p)
    (stringsSize outside block) e.space.mem.data
  have hok1 : SpaceOk e1.space P L := by
    rw [hspace]
    exact hok.setData d
  have hmm : e1.space.mm = e.space.mm := by
    rw [hspace]
    rfl
  rw [copyStack_eq hok1 (by rw [hmm]; exact hu.mem) hu.start hu.stop hshort (hlen'.trans hlen) hne]
    at h
  cases h
  -- the string page is not a page of the stack
  have hnot : some q ∉ u.pages := fun hmem => by
    have heq : u = w := hok.own.eq_of_mem hu.mem hw.mem hu.whole.priv hw.whole.priv hmem
      (by rw [hpages]; simp)
    have hstart : bprm.stackBase = bprm.stringBase := hu.start.symm.trans (heq ▸ hw.start)
    have hstring := hshort.bases.string
    unfold pageSize at hstring
    omega
  have hstop : bprm.p + (bprm.relocated outside block).length ≤ u.vmEnd := by
    have := hshort.len
    have := hshort.le
    have := hu.stop
    omega
  have hstart : u.vmStart ≤ bprm.p := hu.start.trans_le hshort.bases.block
  have hkeep : ∀ q', some q' ∉ u.pages → u.setBytes e1.space.mem.data bprm.p
      (bprm.relocated outside block) q' = e1.space.mem.data q' := fun q' hq' =>
    SpaceOk.setBytes_of_not_mem hok hu.mem hu.whole hstart hstop hq'
  refine ⟨?_, hu.congr hmm, hw.congr hmm, fun j hj => ?_, fun j hj => ?_⟩
  · have hg1 : Grown s₀ P₀ e1.space := by
      rw [hspace]
      refine hg.setData fun q' hq' => copyStrings_of_ne hsize fun heq => hq' ?_
      exact mem_ownPages.mpr ⟨w, hw.mem, hw.whole.priv, by rw [hpages, heq]; simp⟩
    refine hg1.setData fun q' hq' => hkeep q' fun hmem => hq' ?_
    rw [hmm]
    exact mem_ownPages.mpr ⟨u, hu.mem, hu.whole.priv, hmem⟩
  · exact SpaceOk.getByte_setBytes hok hu.mem hu.whole hstart hstop hj
  · have hend := hshort.bases.string
    have hmod : bprm.stringBase % pageSize = 0 := hshort.stringBase_mod
    obtain ⟨p, hp, hpage', -⟩ := SpaceOk.pageOf hok hw.mem hw.whole (a := bprm.stringBase + j)
      (by rw [hw.start]; omega) (by rw [hw.stop]; omega)
    have hindex : (bprm.stringBase + j - w.vmStart) / pageSize = 0 := by
      rw [hw.start, Nat.add_sub_cancel_left, Nat.div_eq_of_lt (hj.trans_le hsize)]
    have hoff : (bprm.stringBase + j) % pageSize = j := by
      rw [Nat.add_mod, hmod, Nat.zero_add, Nat.mod_mod, Nat.mod_eq_of_lt (hj.trans_le hsize)]
    obtain rfl : q = p := by simpa [hindex, hpages] using hp
    show w.getByte (u.setBytes _ _ _) _ = _
    simp only [Vma.getByte, hpage', hkeep q hnot, hoff]
    rw [hspace]
    show copyStrings _ _ _ _ _ q j = _
    rw [copyStrings, if_pos ⟨le_rfl, by simpa using hj⟩, Nat.sub_self, Nat.zero_mul, Nat.add_zero]
    rfl

theorem buildImage_grown {xs : List Byte}
    (h : buildImage b outside read bprm xs e = some (.ok (), e'))
    (hplain : ∀ r, Listed read bprm.binprmInfo r → r.Plain) (hp : bprm.p < 2 ^ 64)
    (hsize : ∀ block, read.read bprm.mallocP bprm.len = some block →
      stringsSize outside block ≤ pageSize) (hg : Grown s₀ P₀ e.space) :
    ∃ block u w, read.read bprm.mallocP bprm.len = some block ∧ bprm.Short ∧
      Grown s₀ P₀ e'.space ∧ StackLaid outside bprm block e'.space u w := by
  obtain ⟨-, -, -, -, hlen, -⟩ := buildImage_ok h
  have hshort := Binprm.short_of_len hp hlen
  obtain ⟨_, e1, h1, h⟩ := Part.andThen_ok h
  obtain ⟨_, e2, h2, h⟩ := Part.andThen_ok h
  obtain ⟨block, e3, h3, h⟩ := Part.andThen_ok h
  obtain ⟨v, e4, h4, h⟩ := Part.andThen_ok h
  have hg1 := loadSegments_grown h1 hplain hg
  obtain ⟨hg2, hbase2, u, hu⟩ := mapStack_grown h2 hg1 hshort
  obtain ⟨-, -, hread⟩ := readBlock_ok h3
  obtain ⟨hg3, hmm3⟩ := readBlock_grown h3 hg2
  obtain ⟨hg4, hbase4, hu4, w, q, hw, hpages, hpage⟩ :=
    mapStrings_grown h4 hg3 hshort (by rw [hmm3, hbase2]) (hu.congr hmm3)
  obtain ⟨hlen', hne⟩ := read.length hread
  exact ⟨block, u, w, hread, hshort, finish_grown h hg4 hshort hbase4 hu4 hw hpages hpage hlen' hne
    (hsize block hread)⟩

end Parts

/-! ## The end of the call -/

section Exec

variable {b : Board} {outside : Nat → Byte} {read : Reader} {addr : Nat} {i : MmId} {k : Kernel}
  {bprm : Binprm} {d : Done}

theorem mmapAllocMmStruct_args {m' : Mem} (h : mmapAllocMmStruct m = (some mm, m')) :
    argFields mm = ⟨0, 0, 0, 0⟩ := by
  unfold mmapAllocMmStruct at h
  split at h
  · cases h
  split at h
  · cases h
  · cases h
    rfl

theorem succeed_task {old : MmId} {oldMm : MmStruct} {tsk : Task} {filename : List Byte} {e : Exec}
    (h : succeed k old i oldMm tsk bprm filename e = some d) :
    ∃ tsk, d.kernel.task bprm.pid = some tsk ∧ tsk.mm = some i ∧
      tsk.regs = startThread bprm.eEntry bprm.p := by
  unfold succeed at h
  obtain ⟨_, -, h⟩ := Option.bind_eq_some_iff.mp h
  obtain ⟨m, hm, h⟩ := Option.bind_eq_some_iff.mp h
  obtain ⟨_, -, rfl⟩ := Option.map_eq_some_iff.mp h
  exact ⟨_, Function.update_self .., rfl, rfl⟩

theorem StackLaid.newStack {s : Space} {w : Vma} {P : Nat → Nat → Option Page}
    {L : Nat → Option Entry} (h : StackLaid outside bprm block s u w) (hshort : bprm.Short)
    (hlen : block.length = bprm.len) (hsize : stringsSize outside block ≤ pageSize)
    (hok : SpaceOk ⟨m, mm⟩ P L) (hvs : mm.vmas = s.mm.vmas)
    (hdata : ∀ p ∈ ownPages s.mm.vmas, m.data p = s.mem.data p) :
    NewStack outside bprm block ⟨m, mm⟩ := by
  have hbyte : ∀ {start stop : Nat} {v : Vma} {a : Nat}, HasVma s start stop v → start ≤ a →
      a < stop → byteAt ⟨m, mm⟩ a = some (v.getByte s.mem.data a) := by
    intro start stop v a hv h1 h2
    have hmem : v ∈ mm.vmas := by
      rw [hvs]
      exact hv.mem
    have hlo : v.vmStart ≤ a := hv.start.trans_le h1
    have hhi : a < v.vmEnd := h2.trans_eq hv.stop.symm
    rw [SpaceOk.byteAt_eq hok hmem hv.whole hlo hhi]
    refine congrArg some (Vma.getByte_congr fun q hq => hdata q ?_)
    obtain ⟨p, hp, hpage, -⟩ := SpaceOk.pageOf hok hmem hv.whole hlo hhi
    obtain rfl : p = q := Option.some.inj (hpage.symm.trans hq)
    exact mem_ownPages.mpr ⟨v, hv.mem, hv.whole.priv, List.mem_of_getElem? hp⟩
  have hbases := hshort.bases
  refine ⟨fun j hj => ?_, fun j hj => ?_⟩
  · have hlt : bprm.p + j < taskSize := by
      have hlen' : (bprm.relocated outside block).length = block.length := length_relocate ..
      have := hshort.len
      have := hshort.le
      omega
    rw [hbyte h.stackVma (hbases.block.trans (Nat.le_add_right _ _)) hlt, h.stack j hj]
  · have hlt : bprm.stringBase + j < bprm.stackBase := by
      have := hbases.string
      omega
    rw [hbyte h.stringVma (Nat.le_add_right _ _) hlt, h.strings j hj]

/-- **The stack of a new program.** -/
theorem newStack_of_exec (hk : k.Ok) (hi : k.mm i = none)
    (h : systemExec b outside read addr i k = some d) (hret : d.retval = 0)
    (hmessage : (read.read addr sizeofBinprm).map Binprm.ofBytes = some bprm)
    (hplain : ∀ r, Listed read bprm.binprmInfo r → r.Plain)
    (hsize : ∀ block, read.read bprm.mallocP bprm.len = some block →
      stringsSize outside block ≤ pageSize) :
    ∃ block tsk mm, read.read bprm.mallocP bprm.len = some block ∧ bprm.Short ∧
      (d.kernel.task bprm.pid = some tsk ∧ tsk.mm = some i ∧
        tsk.regs = startThread bprm.eEntry bprm.p) ∧
      d.kernel.mm i = some mm ∧ argFields mm = ⟨0, 0, 0, 0⟩ ∧
      NewStack outside bprm block ⟨d.kernel.mem, mm⟩ := by
  obtain ⟨x, hx⟩ := systemExec_ok h hret
  obtain ⟨m, hm, hbuilds⟩ := hx.builds
  obtain rfl : x.bprm = bprm := Option.some.inj (hx.bprm.symm.trans hmessage)
  obtain ⟨P, L, hrep⟩ := hk.spaces
  have hne : i ≠ x.old := fun heq => by
    have := hx.oldMm
    rw [← heq, hi] at this
    cases this
  have hp : x.bprm.p < 2 ^ 64 := by
    obtain ⟨ys, -, hys⟩ := Option.map_eq_some_iff.mp hx.bprm
    rw [← hys]
    exact word64_lt _ _
  have hnew := mmapAllocMmStruct_some hbuilds.alloc
  obtain ⟨block, u, w, hread, hshort, hg, hlaid⟩ :=
    buildImage_grown hbuilds.image hplain hp hsize (Grown.new hnew)
  obtain ⟨P1, L1, hok1, hto1⟩ := hg.ok
  obtain ⟨m2, hm2, ⟨P', L', hok⟩, hdata⟩ := destroy_old (e := x.exec) (k := k)
    (hrep.same (hm.trans hbuilds.asked).same) (hk.mapped _ _ hx.oldMm) hi hx.oldMm hbuilds.alloc
    hok1 hto1
  obtain ⟨hdestroy, hmm, -⟩ := succeed_some hbuilds.done hne
  obtain rfl : m2 = d.kernel.mem := Option.some.inj (hm2.symm.trans hdestroy)
  obtain ⟨tsk, htsk⟩ := succeed_task hbuilds.done
  refine ⟨block, tsk, _, hread, hshort, htsk, hmm, ?_, ?_⟩
  · show argFields x.exec.space.mm = _
    rw [hg.args]
    exact mmapAllocMmStruct_args hbuilds.alloc
  · exact hlaid.newStack hshort (read.length hread).1 (hsize block hread)
      (SpaceOk.congr hok ⟨rfl, rfl, rfl, rfl, rfl, rfl⟩) rfl hdata

end Exec

end MinixRt.System
