import MinixRt.Lib.Tree
import MinixRt.Mm.SpaceRep

/-!
# The operations on an address space

One lemma for each function of `Space`. An operation on the tables of a VMA ends in
`s.finish v w`, and `TableOp` says what all of them have in common. `Taken` says which pages
`mmap_get_vmap_area` took from the allocator.
-/

namespace MinixRt.Mm

open List Function Lib Work

variable {ps : List Page} {n a : Nat}

section Ops

variable {m m₀ m' : Mem} {mm : MmStruct} {s s' : Space} {P P' : Nat → Nat → Option Page}
  {L L' : Nat → Option Entry} {u v : Vma} {l₁ l₂ : List Vma} {w : Work}

/-! ## Translation -/

theorem walkTables_eq_lookup (tbl : Page → Nat → Option Entry) (pgd : Page) (a : Nat) :
    walkTables tbl pgd a = Radix.lookup ptrs Entry.table tbl 3 pgd (a / pageSize) := by
  have h : ∀ l, index l a = a / pageSize / ptrs ^ l % ptrs := fun l => by
    rw [index, entrySize, Nat.div_div_eq_div_mul]
  simp [walkTables, descend, Radix.lookup, h]

theorem SpaceRep.translate (h : SpaceRep s.mem s.mm P L) (ha : a < entrySize 4) :
    s.translate a = L (a / pageSize) := by
  rw [Space.translate, walkTables_eq_lookup]
  refine h.stored.lookup_eq ptrs_pos (fun p => ?_) le_rfl ?_
  · simp [Entry.table, Entry.bad, tableDesc, typeTable]
  · rw [Nat.div_div_eq_div_mul, Nat.div_eq_of_lt (by exact ha)]
    exact h.top

/-! ## Operations on the tables -/

/-- An operation on the tables of `v` that ends with `w`. -/
structure TableOp (s : Space) (v : Vma) (w : Work) (P : Nat → Nat → Option Page)
    (L : Nat → Option Entry) (P' : Nat → Nat → Option Page) (L' : Nat → Option Entry) :
    Prop where
  rep : SpaceRep (s.finish v w).mem (s.finish v w).mm P' L'
  keeps : Keeps (fun _ => False) s.mem P (s.finish v w).mem P'
  out : ∀ n, ¬ v.Covers n → L' n = L n
  mmu : Replays L w.mmu L'
  used : ∀ q, w.ref q ≠ 0 →
    (s.mem.ref q ≠ 0 ∧ ∀ l k, P l k ≠ some q) ∨ ∃ l k, P' l k = some q

theorem SpaceRep.tableOp (mapped : Prop) (h : SpaceRep s.mem s.mm P L) (ha : Among s.mm l₁ v l₂)
    (hr : Rep s.mm.pgd (l₁ ++ l₂) v (found s.mem P L) w P' L') (hroot : (∀ l, w.root l = ∅) ∨
      mapped ∧ ∀ l < 3, ∀ k, v.Meets l k → ∃ q, P' l k = some q ∧ q ∈ w.root l)
    (hL : Refills v mapped L L') : TableOp s v w P L P' L' :=
  ⟨h.ofRep ha hr hroot hL, hr.keeps, hL.out, hr.mmu, hr.used⟩

theorem without_of_covers (h : v.Covers n) : without v L n = none := if_pos h

theorem fill_of_covers (h : v.Covers n) : fill v L v.vmStart v.vmEnd n = v.pte n :=
  if_pos h

theorem refills_without (v : Vma) (L : Nat → Option Entry) : Refills v False L (without v L) where
  out n hn := if_neg hn
  leaf n e hc he := by
    rw [without_of_covers hc] at he
    cases he
  filled h := h.elim

variable {e : Entry}

theorem Vma.pte_page (h : v.pte n = some e) :
    v.page (n - v.vmStart / pageSize) = some e.page ∧ e.attr = v.vmPageProt := by
  obtain ⟨p, hp, rfl⟩ := Option.map_eq_some_iff.mp h
  exact ⟨hp, rfl⟩

theorem Vma.Counted.getElem_of_page (h : v.Counted) (hsz : v.Sized) {p : Page} (hc : v.Covers n)
    (hp : v.page (n - v.vmStart / pageSize) = some p) :
    v.pages[n - v.vmStart / pageSize]? = some (some p) := by
  obtain ⟨c, hstart⟩ := hsz.start
  obtain ⟨d, hstop⟩ := hsz.stop
  obtain ⟨h1, h2⟩ := hc
  have hshort := hsz.short
  unfold Vma.Counted at h
  rw [hstart, hstop, ← Nat.mul_sub, Nat.mul_div_cancel_left _ (by decide)] at h
  rw [hstart, mul_comm] at h1
  rw [hstop, mul_comm pageSize d] at h2
  have h1 := Nat.le_of_mul_le_mul_right h1 (by decide)
  have h2 := Nat.lt_of_mul_lt_mul_right h2
  rw [hstart, Nat.mul_div_cancel_left _ (by decide)] at hp ⊢
  have hlt : n - c < v.pages.length := by
    rw [← Vma.nrPages, h]
    omega
  have hmod : (n - c) % 2 ^ 32 = n - c := Nat.mod_eq_of_lt (by unfold Vma.nrPages at hshort; omega)
  rw [Vma.page, hmod, getElem?_eq_getElem hlt, Option.getD_some] at hp
  rw [getElem?_eq_getElem hlt, hp]

theorem refills_fill (hhas : v.HasPages v.vmStart v.vmEnd) (L : Nat → Option Entry) :
    Refills v True L (fill v L v.vmStart v.vmEnd) where
  out n hn := fill_of_not hn
  leaf n e hc he := by
    rw [fill_of_covers hc] at he
    exact (Vma.pte_page he).1
  filled _ n hc := by
    rw [fill_of_covers hc]
    exact hhas n hc.1 hc.2

theorem SpaceRep.vmapPageRange (h : SpaceRep s.mem s.mm P L) (hv : v ∈ s.mm.vmas) :
    ∃ ret w P' L', s.vmapPageRange v = some (ret, s.finish v w) ∧ TableOp s v w P L P' L' ∧
      ((ret = v.nrPages ∧ ({ v with root := w.root } : Vma).Mapped P' ∧
          v.HasPages v.vmStart v.vmEnd ∧ L' = fill v L v.vmStart v.vmEnd) ∨
        (ret ≤ 0 ∧ (v.Counted → ret ≠ 0) ∧ (∀ l, w.root l = ∅) ∧ L' = without v L ∧
          ((∀ l, v.root l = ∅) → ∀ l < 3, ∀ k, P' l k = P l k))) := by
  obtain ⟨l₁, l₂, ha⟩ := h.among hv
  obtain ⟨hsz, hend⟩ := h.sized v hv
  obtain ⟨ret, w, hw, P', L', hr, hres⟩ := vmapPageRange_spec hsz hend (h.toRep ha)
  refine ⟨ret, w, P', L', by simp [Space.vmapPageRange, hw], ?_, hres⟩
  rcases hres with ⟨-, hheld, hhas, rfl⟩ | ⟨-, -, hroot, rfl, -⟩
  · exact h.tableOp True ha hr (.inr ⟨trivial, hheld⟩) (refills_fill hhas L)
  · exact h.tableOp False ha hr (.inl hroot) (refills_without v L)

theorem SpaceRep.vumapPageRange (h : SpaceRep s.mem s.mm P L) (hv : v ∈ s.mm.vmas)
    (hm : v.Mapped P) : ∃ w P', s.vumapPageRange v = some (s.finish v w) ∧
      TableOp s v w P L P' (without v L) ∧ ∀ l, w.root l = ∅ := by
  obtain ⟨l₁, l₂, ha⟩ := h.among hv
  obtain ⟨hsz, hend⟩ := h.sized v hv
  obtain ⟨w, hw, hroot, P', hr⟩ := vumapPageRange_spec hsz hend (h.toRep ha) hm
  exact ⟨w, P', by simp [Space.vumapPageRange, hw],
    h.tableOp False ha hr (.inl hroot) (refills_without v L), hroot⟩

theorem reprotect_page {prot : BitVec 64} {b : Nat} (hL : L n ≠ none)
    (h : reprotect prot L a b n = some e) : ∃ e', L n = some e' ∧ e'.page = e.page := by
  obtain ⟨e', he'⟩ := Option.ne_none_iff_exists'.mp hL
  refine ⟨e', he', ?_⟩
  rw [reprotect, he'] at h
  split_ifs at h <;> cases h <;> rfl

theorem SpaceRep.mmapMprotectFixup (h : SpaceRep s.mem s.mm P L) (hv : v ∈ s.mm.vmas)
    (hm : v.Mapped P) (start stop : Nat) (flags : BitVec 64) :
    s.mmapMprotectFixup v start stop flags = some (-einval, s.finish v (s.work v)) ∨
    (v.vmStart ≤ start ∧ start < stop ∧ stop ≤ v.vmEnd ∧ pageSize ∣ start ∧ pageSize ∣ stop) ∧
      ∃ w, s.mmapMprotectFixup v start stop flags = some (0, s.finish v w) ∧
        w.root = v.root ∧ TableOp s v w P L P
          (reprotect (vmGetPageProt (flags ||| vmShared)) L start stop) := by
  obtain ⟨l₁, l₂, ha⟩ := h.among hv
  obtain ⟨hsz, hend⟩ := h.sized v hv
  rcases mmapMprotectFixup_spec hend (h.toRep ha) hm start stop flags with
    hbad | ⟨hrange, w, hw, hroot, hr⟩
  · exact .inl (by simp [Space.mmapMprotectFixup, hbad])
  · refine .inr ⟨hrange, w, by simp [Space.mmapMprotectFixup, hw], hroot,
      h.tableOp True ha hr (.inr ⟨trivial, ?_⟩) ⟨fun n hn => ?_, fun n e hc he => ?_,
        fun _ n hc hnone => ?_⟩⟩
    · rw [hroot]
      exact hm
    · refine if_neg fun hc => hn ⟨?_, ?_⟩ <;> omega
    · obtain ⟨e', he', hpage⟩ := reprotect_page (h.filled v hv hm n hc) he
      rw [← hpage]
      exact h.leaf v hv n e' hc he'
    · rw [reprotect] at hnone
      split_ifs at hnone
      exact h.filled v hv hm n hc hnone

theorem SpaceRep.finish_work (h : SpaceRep s.mem s.mm P L) (hv : v ∈ s.mm.vmas) :
    s.finish v (s.work v) = s := by
  obtain ⟨l₁, l₂, ha⟩ := h.among hv
  have := map_setRoot h ha v.root
  rw [← ha.eq] at this
  simp only [Space.finish, Space.work, append_nil, this]

/-! ## Pages of the VMAs -/

/-- The pages `ps` were taken from the allocator, and nothing else happened. -/
structure Taken (m₀ m : Mem) (ps : List Page) : Prop where
  nodup : ps.Nodup
  fresh : ∀ p ∈ ps, m₀.ref p = 0 ∧ m.ref p = 1 ∧ m.data p = fun _ => 0
  rest : ∀ q, q ∉ ps → m.ref q = m₀.ref q ∧ m.tbl q = m₀.tbl q ∧ m.data q = m₀.data q
  mmu : m.mmu = m₀.mmu

theorem Taken.refl (m : Mem) : Taken m m [] :=
  ⟨nodup_nil, nofun, fun _ _ => ⟨rfl, rfl, rfl⟩, rfl⟩

theorem allocPage_cases (m : Mem) : ∃ r, m.allocPage = (none, { m with freePages := r }) ∨
    ∃ p, m.ref p = 0 ∧ m.allocPage = (some p, { m with
      freePages := r
      ref := update m.ref p 1
      tbl := update m.tbl p fun _ => none
      data := update m.data p fun _ => 0 }) := by
  unfold Mem.allocPage
  split
  · rename_i h
    exact ⟨[], .inl (by rw [← h])⟩
  · exact ⟨_, .inl rfl⟩
  · rename_i p rest _
    by_cases hp : m.ref p = 0
    · exact ⟨rest, .inr ⟨p, hp, by rw [if_pos hp]⟩⟩
    · exact ⟨rest, .inl (by rw [if_neg hp])⟩

theorem Taken.snoc (h : Taken m₀ m ps) {p : Page} (hp : m.ref p = 0) (r : List (Option Page)) :
    Taken m₀ { m with
      freePages := r
      ref := update m.ref p 1
      tbl := update m.tbl p fun _ => none
      data := update m.data p fun _ => 0 } (ps ++ [p]) := by
  have hnot : p ∉ ps := fun hmem => by
    have := (h.fresh p hmem).2.1
    omega
  refine ⟨?_, fun q hq => ?_, fun q hq => ?_, h.mmu⟩
  · rw [nodup_append]
    refine ⟨h.nodup, by simp, fun a ha b hb => ?_⟩
    rw [mem_singleton.mp hb]
    exact fun heq => hnot (heq ▸ ha)
  · by_cases hqp : q = p
    · subst hqp
      exact ⟨by rw [← (h.rest q hnot).1]; exact hp, by simp, by simp⟩
    · have hmem : q ∈ ps := by simpa [hqp] using hq
      simpa [hqp] using h.fresh q hmem
  · have hqp : q ≠ p ∧ q ∉ ps := by
      simp at hq
      tauto
    simpa [hqp.1] using h.rest q hqp.2

theorem putPages_spec (hn : ps.Nodup) (href : ∀ p ∈ ps, m.ref p = 1) :
    ∃ r, m.putPages (ps.map some) = some { m with ref := r } ∧
      ∀ q, r q = if q ∈ ps then 0 else m.ref q := by
  induction ps generalizing m with
  | nil => exact ⟨m.ref, rfl, fun q => by simp⟩
  | cons p ps ih =>
    rw [nodup_cons] at hn
    have hp := href p (by simp)
    obtain ⟨r, hr, hr'⟩ := ih (m := { m with ref := update m.ref p 0 }) hn.2
      (fun q hq => by
        have hne : q ≠ p := fun h => hn.1 (h ▸ hq)
        simpa [hne] using href q (by simp [hq]))
    refine ⟨r, ?_, fun q => ?_⟩
    · simp [Mem.putPages, Mem.putPage, hp, hr]
    · rw [hr' q]
      by_cases hqp : q = p
      · subst hqp
        simp
      · simp [hqp]

/-- All pages that were in use are as before. -/
def Mem.Same (m m' : Mem) : Prop :=
  (∀ q, m.ref q ≠ 0 → m'.ref q = m.ref q ∧ m'.tbl q = m.tbl q ∧ m'.data q = m.data q) ∧
    m'.mmu = m.mmu

theorem Taken.same (h : Taken m₀ m ps) : m₀.Same m :=
  ⟨fun q hq => h.rest q fun hmem => hq (h.fresh q hmem).1, h.mmu⟩

theorem allocPages_spec (h : Taken m₀ m ps) (n : Nat) :
    ∃ m', m₀.Same m' ∧ ((allocPages n (ps.map some) m = (none, m') ∧ ∀ q, m'.ref q = m₀.ref q) ∨
      ∃ new, new.length = n ∧ Taken m₀ m' (ps ++ new) ∧
        allocPages n (ps.map some) m = (some ((ps ++ new).map some), m')) := by
  induction n generalizing m ps with
  | zero =>
    exact ⟨m, h.same, .inr ⟨[], rfl, by simpa using h, by simp [allocPages]⟩⟩
  | succ n ih =>
    obtain ⟨r, hr | ⟨p, hp, hr⟩⟩ := allocPage_cases m
    · obtain ⟨r', hput, hr'⟩ := putPages_spec (m := { m with freePages := r }) h.nodup
        fun p hp => (h.fresh p hp).2.1
      have hback : ∀ q, r' q = m₀.ref q := fun q => by
        rw [hr' q]
        split_ifs with hmem
        · exact (h.fresh q hmem).1.symm
        · exact (h.rest q hmem).1
      refine ⟨{ m with freePages := r, ref := r' }, ⟨fun q hq => ⟨hback q, ?_⟩, h.mmu⟩,
        .inl ⟨?_, hback⟩⟩
      · exact (h.rest q fun hmem => hq (h.fresh q hmem).1).2
      · simp [allocPages, hr, hput]
    · obtain ⟨m', hsame, hres⟩ := ih (h.snoc hp r)
      refine ⟨m', hsame, ?_⟩
      rw [map_append, map_singleton] at hres
      rcases hres with ⟨hres, hback⟩ | ⟨new, hlen, htaken, hres⟩
      · exact .inl ⟨by rw [allocPages, hr]; exact hres, hback⟩
      · refine .inr ⟨p :: new, by simp [hlen], by simpa using htaken, ?_⟩
        rw [allocPages, hr]
        exact hres.trans (by simp)

/-- The VMA has its pages from the page allocator. -/
def Vma.Private (v : Vma) : Prop := v.vmFlags &&& vmPrivateShare = 0

instance (v : Vma) : Decidable v.Private := inferInstanceAs (Decidable (_ = _))

theorem SpaceRep.congr (h : SpaceRep m mm P L)
    (hm : ∀ l k q, P l k = some q → m'.ref q = m.ref q ∧ m'.tbl q = m.tbl q) : SpaceRep m' mm P L :=
  ⟨h.stored.congr fun l k q hq => (hm l k q hq).2, h.top, h.single,
    fun l k q hq => by rw [(hm l k q hq).1]; exact h.live l k q hq,
    fun l hl k q hq => by rw [(hm l k q hq).1]; exact h.refs l hl k q hq,
    h.rep, h.sized, h.ordered, h.covered, h.leaf, h.filled, h.bytes,
    by rw [(hm 3 0 _ h.top).1]; exact h.rootRef⟩

theorem SpaceRep.same (h : SpaceRep m mm P L) (hm : m.Same m') : SpaceRep m' mm P L :=
  h.congr fun l k q hq =>
    ⟨(hm.1 q (h.live l k q hq)).1, (hm.1 q (h.live l k q hq)).2.1⟩

theorem Mem.Same.keeps (hm : m.Same m') : Keeps (fun _ => False) m P m' P :=
  ⟨fun q hq _ hP => ⟨(hm.1 q hq).1, (hm.1 q hq).2.1, hP⟩, fun q hq _ _ => (hm.1 q hq).2.2⟩

theorem SpaceRep.insert (h : SpaceRep m mm P L) (heq : mm.vmas = l₁ ++ l₂)
    (hb : ∀ u ∈ l₁, u.vmEnd ≤ v.vmStart) (ha : ∀ u ∈ l₂, v.vmEnd ≤ u.vmStart)
    (hsz : v.Sized ∧ v.vmEnd ≤ entrySize 4) (hroot : ∀ l, v.root l = ∅) :
    SpaceRep m { mm with vmas := l₁ ++ v :: l₂ } P L := by
  have hmem : ∀ u ∈ l₁ ++ v :: l₂, u ∈ mm.vmas ∨ u = v := fun u hu => by
    rw [heq]
    simp at hu ⊢
    tauto
  have hsub : ∀ u ∈ mm.vmas, u ∈ l₁ ++ v :: l₂ := fun u hu => by
    rw [heq] at hu
    simp at hu ⊢
    tauto
  have hout : ∀ n, v.Covers n → L n = none := fun n hc => by
    by_contra hn
    obtain ⟨u, hu, -, hcu⟩ := h.covered n hn
    rw [heq, mem_append] at hu
    rcases hu with hu | hu
    · exact Vma.Sized.not_covers_both (hb u hu) hcu hc
    · exact Vma.Sized.not_covers_both (ha u hu) hc hcu
  have hnotMapped : ¬ v.Mapped P := fun hm => by
    obtain ⟨q, hq⟩ := hm.exists_mem hsz.1.lt (by decide : 0 < 3)
    rw [hroot 0] at hq
    exact absurd hq (Finset.notMem_empty q)
  refine ⟨h.stored, h.top, h.single, h.live, fun l hl k q hq => ?_, fun u hu => ?_, fun u hu => ?_, ?_,
    fun n hn => ?_, fun u hu n e hc he => ?_, fun u hu hm n hc => ?_, h.bytes, h.rootRef⟩
  · rw [holders_among, ← heq, hroot l]
    exact h.refs l hl k q hq
  · rcases hmem u hu with hu | rfl
    · exact h.rep u hu
    · exact ⟨fun l q hq => absurd (hroot l ▸ hq) (Finset.notMem_empty q), .inl hroot⟩
  · rcases hmem u hu with hu | rfl
    · exact h.sized u hu
    · exact hsz
  · exact BinaryTree.pairwise_link (heq ▸ h.ordered) hb ha
  · obtain ⟨u, hu, hrest⟩ := h.covered n hn
    exact ⟨u, hsub u hu, hrest⟩
  · rcases hmem u hu with hu | rfl
    · exact h.leaf u hu n e hc he
    · rw [hout n hc] at he
      cases he
  · rcases hmem u hu with hu | rfl
    · exact h.filled u hu hm n hc
    · exact absurd hm hnotMapped

theorem SpaceRep.remove (h : SpaceRep m mm P L) (ha : Among mm l₁ v l₂)
    (hroot : ∀ l, v.root l = ∅) : SpaceRep m { mm with vmas := l₁ ++ l₂ } P L := by
  have hsub : ∀ u ∈ l₁ ++ l₂, u ∈ mm.vmas := fun u hu => ha.mem_iff.mpr (.inl hu)
  refine ⟨h.stored, h.top, h.single, h.live, fun l hl k q hq => ?_, fun u hu => h.rep u (hsub u hu),
    fun u hu => h.sized u (hsub u hu), ?_, fun n hn => ?_, fun u hu => h.leaf u (hsub u hu),
    fun u hu => h.filled u (hsub u hu), h.bytes, h.rootRef⟩
  · have := h.refs l hl k q hq
    rw [ha.eq, holders_among, hroot l] at this
    exact this
  · have ho := h.ordered
    rw [ha.eq] at ho
    exact ho.sublist ((sublist_cons_self v l₂).append_left l₁)
  · obtain ⟨u, hu, hm, hc⟩ := h.covered n hn
    rcases ha.mem_iff.mp hu with hu | rfl
    · exact ⟨u, hu, hm, hc⟩
    · exact absurd hm (h.not_mapped ha.mem hroot)

/-- What `mmap_get_vmap_area` has made. -/
structure Made (s : Space) (vstart size : Nat) (flags : BitVec 64) (phys : Nat) (v : Vma)
    (s' : Space) : Prop where
  start : v.vmStart = vstart
  stop : v.vmEnd = vstart + size
  flag : v.vmFlags = flags
  prot : v.vmPageProt = vmGetPageProt (flags ||| vmShared)
  root : ∀ l, v.root l = ∅
  mm : ∃ l₁ l₂, s.mm.vmas = l₁ ++ l₂ ∧ s'.mm = { s.mm with vmas := l₁ ++ v :: l₂ }
  same : s.mem.Same s'.mem
  nr : v.nrPages = size / pageSize % 2 ^ 32
  taken : v.Private → ∃ ps, v.pages = ps.map some ∧ Taken s.mem s'.mem ps
  given : ¬ v.Private → ∀ n p, v.pages[n]? = some (some p) → p = phys / pageSize + n

theorem mem_kmalloc (m : Mem) : ∃ ok r, m.kmalloc = (ok, { m with kmallocs := r }) := by
  unfold Mem.kmalloc
  split
  · exact ⟨false, m.kmallocs, rfl⟩
  · exact ⟨_, _, rfl⟩

theorem mem_kmallocArray (m : Mem) (nr : Nat) :
    ∃ ok r, m.kmallocArray nr = (ok, { m with kmallocs := r }) ∧ (ok = true → 8 * nr ≤ 2 ^ 22) := by
  unfold Mem.kmallocArray
  split_ifs with h1 h2
  · exact ⟨true, m.kmallocs, rfl, fun _ => by omega⟩
  · exact ⟨false, m.kmallocs, rfl, nofun⟩
  · obtain ⟨ok, r, hk⟩ := mem_kmalloc m
    exact ⟨ok, r, hk, fun _ => by omega⟩

theorem vmaPages_spec (b : Board) (flags : BitVec 64) (nr phys : Nat) (m : Mem) :
    ∃ m', m.Same m' ∧ ((vmaPages b flags nr phys m = (none, m') ∧ ∀ q, m'.ref q = m.ref q) ∨
      ∃ pages, vmaPages b flags nr phys m = (some pages, m') ∧ pages.length = nr ∧
        (flags &&& vmPrivateShare = 0 → ∃ ps, pages = ps.map some ∧ Taken m m' ps) ∧
        (flags &&& vmPrivateShare ≠ 0 → ∀ n p, pages[n]? = some (some p) →
          p = phys / pageSize + n)) := by
  unfold vmaPages
  split
  · rename_i hpriv
    obtain ⟨m', hsame, hres | ⟨new, hlen, htaken, hres⟩⟩ := allocPages_spec (Taken.refl m) nr
    · exact ⟨m', hsame, .inl hres⟩
    · exact ⟨m', hsame, .inr ⟨new.map some, hres, by simpa using hlen,
        fun _ => ⟨new, rfl, htaken⟩, fun h => absurd hpriv h⟩⟩
  · rename_i hpriv
    refine ⟨m, ⟨fun _ _ => ⟨rfl, rfl, rfl⟩, rfl⟩, ?_⟩
    split
    · unfold physPages
      split_ifs
      · exact .inl ⟨rfl, fun _ => rfl⟩
      · refine .inr ⟨_, rfl, by simp, fun h => absurd h hpriv, fun _ n p hp => ?_⟩
        obtain ⟨hn, hget⟩ := List.getElem?_eq_some_iff.mp hp
        simpa using hget.symm
      · exact .inl ⟨rfl, fun _ => rfl⟩
    · refine .inr ⟨_, rfl, by simp, fun h => absurd h hpriv, fun _ n p hp => ?_⟩
      simp [getElem?_replicate] at hp

theorem SpaceRep.mmapGetVmapArea (h : SpaceRep s.mem s.mm P L) (b : Board) {vstart size : Nat}
    (flags : BitVec 64) (phys : Nat) (hend : vstart + size ≤ entrySize 4) :
    (∃ m', s.mmapGetVmapArea b vstart size flags phys = (none, { s with mem := m' }) ∧
      s.mem.Same m' ∧ ((∀ u ∈ s.mm.vmas, u.vmEnd ≤ vstart ∨ vstart + size ≤ u.vmStart) →
        ∀ q, m'.ref q = s.mem.ref q)) ∨
    ∃ v s', s.mmapGetVmapArea b vstart size flags phys = (some v, s') ∧
      Made s vstart size flags phys v s' ∧ SpaceRep s'.mem s'.mm P L := by
  unfold Space.mmapGetVmapArea
  split_ifs with hbad
  · exact .inl ⟨s.mem, rfl, ⟨fun _ _ => ⟨rfl, rfl, rfl⟩, rfl⟩, fun _ _ => rfl⟩
  push Not at hbad
  obtain ⟨h1, h2, h3, h4⟩ := hbad
  obtain ⟨ok1, r1, hk1⟩ := mem_kmalloc s.mem
  cases ok1 with
  | false =>
    exact .inl ⟨{ s.mem with kmallocs := r1 }, by rw [hk1], ⟨fun _ _ => ⟨rfl, rfl, rfl⟩, rfl⟩,
      fun _ _ => rfl⟩
  | true =>
    rw [hk1]
    obtain ⟨ok2, r2, hk2, hmax⟩ :=
      mem_kmallocArray { s.mem with kmallocs := r1 } (size / pageSize % 2 ^ 32)
    cases ok2 with
    | false =>
      exact .inl ⟨{ s.mem with kmallocs := r2 }, by simp only [hk2],
        ⟨fun _ _ => ⟨rfl, rfl, rfl⟩, rfl⟩, fun _ _ => rfl⟩
    | true =>
      simp only [hk2]
      obtain ⟨m', hsame, ⟨hres, hback⟩ | ⟨pages, hres, hlen, hpriv, hshare⟩⟩ :=
        vmaPages_spec b flags (size / pageSize % 2 ^ 32) phys { s.mem with kmallocs := r2 }
      · exact .inl ⟨m', by rw [hres], hsame, fun _ => hback⟩
      · rw [hres]
        have hlt : vstart + size < 2 ^ 64 := lt_of_le_of_lt hend (by decide)
        have hu64 : u64 (vstart + size) = vstart + size := Nat.mod_eq_of_lt hlt
        simp only
        split
        · rename_i hins
          refine .inl ⟨m', rfl, hsame, fun hdis => ?_⟩
          obtain ⟨u, hu, h5, h6⟩ := insertVmaArea_none hins
          simp only [hu64] at h5 h6
          have := hdis u hu
          omega
        · rename_i vmas hins
          obtain ⟨l₁, l₂, heq, rfl, hb, ha⟩ :=
            insertVmaArea_some hins (fun u hu => (h.sized u hu).1.lt) h.ordered
          rw [hu64] at ha ⊢
          refine .inr ⟨_, _, rfl, ⟨rfl, rfl, rfl, rfl, fun _ => rfl, ⟨l₁, l₂, heq, rfl⟩,
            hsame, hlen, fun hp => ?_, hshare⟩, ?_⟩
          · obtain ⟨ps, hps, htaken⟩ := hpriv hp
            exact ⟨ps, hps, htaken.nodup, htaken.fresh, htaken.rest, htaken.mmu⟩
          have hrep : SpaceRep m' s.mm P L := h.same hsame
          refine hrep.insert heq hb ha ⟨⟨?_, ?_, ?_, ?_⟩, hend⟩ fun _ => rfl
          · exact Nat.lt_add_of_pos_right (Nat.pos_of_ne_zero h3)
          · exact Nat.dvd_of_mod_eq_zero h1
          · exact Nat.dvd_add (Nat.dvd_of_mod_eq_zero h1) (Nat.dvd_of_mod_eq_zero h2)
          · have := hmax rfl
            show pages.length < _
            omega

theorem SpaceRep.filter_start (h : SpaceRep m mm P L) (ha : Among mm l₁ v l₂) :
    (mm.vmas.filter fun u => u.vmStart ≠ v.vmStart) = l₁ ++ l₂ := by
  have hid : ∀ vs : List Vma, (∀ u ∈ vs, u ∈ l₁ ++ l₂) →
      (vs.filter fun u => u.vmStart ≠ v.vmStart) = vs := fun vs hvs =>
    filter_eq_self.mpr fun u hu => decide_eq_true (h.start_ne_of_among ha (hvs u hu))
  rw [ha.eq, filter_append, filter_cons_of_neg (by simp),
    hid l₁ fun u hu => by simp [hu], hid l₂ fun u hu => by simp [hu]]

theorem SpaceRep.mmapFreeVmapArea (h : SpaceRep s.mem s.mm P L) (ha : Among s.mm l₁ v l₂)
    (hroot : ∀ l, v.root l = ∅) (hp : v.Private → ∃ ps : List Page, v.pages = ps.map some ∧ ps.Nodup ∧
      ∀ p ∈ ps, s.mem.ref p = 1 ∧ ∀ l k, P l k ≠ some p) (h1 : v.vmStart ≤ a) (h2 : a < v.vmEnd) :
    ∃ r, s.mmapFreeVmapArea a = some ⟨{ s.mem with ref := r }, { s.mm with vmas := l₁ ++ l₂ }⟩ ∧
      SpaceRep { s.mem with ref := r } { s.mm with vmas := l₁ ++ l₂ } P L ∧
      ∀ q, r q = if v.Private ∧ some q ∈ v.pages then 0 else s.mem.ref q := by
  have hv := ha.mem
  have hfind : s.mmapFindVmaArea a = some v := h.find_eq hv h1 h2
  have hfilter := h.filter_start ha
  have hrem := h.remove ha hroot
  by_cases hpriv : v.Private
  · obtain ⟨ps, hps, hnodup, hrefs⟩ := hp hpriv
    obtain ⟨r, hput, hr⟩ := putPages_spec hnodup fun p hp => (hrefs p hp).1
    refine ⟨r, ?_, hrem.congr fun l k q hq => ⟨?_, rfl⟩, fun q => ?_⟩
    · unfold Vma.Private at hpriv
      simp only [Space.mmapFreeVmapArea, hfind, hroot, and_self, if_true, hpriv, hps, hput,
        Option.map_some, hfilter]
    · show r q = _
      rw [hr q, if_neg]
      exact fun hmem => (hrefs q hmem).2 l k hq
    · rw [hr q, hps]
      simp [hpriv]
  · refine ⟨s.mem.ref, ?_, hrem, fun q => by simp [hpriv]⟩
    unfold Vma.Private at hpriv
    simp only [Space.mmapFreeVmapArea, hfind, hroot, and_self, if_true, hpriv, if_false, hfilter]

end Ops

end MinixRt.Mm
