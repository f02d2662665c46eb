import MinixRt.Lib.Machine
import MinixRt.Mm.Own

/-!
# Several address spaces in one memory

`Spaces` is the memory with all `mm_struct`s, and `machine` runs the functions of `Space` on
them in any order. `SpacesRep` is the invariant of its runs: every address space is
represented in the memory, no two of them share a table, and a page that a VMA took from the
allocator belongs to that VMA alone.
-/

namespace MinixRt.Mm

open Function Lib

structure Spaces where
  mem : Mem
  mm : MmId → Option MmStruct

namespace Spaces

def put (k : Spaces) (i : MmId) (s : Space) : Spaces where
  mem := s.mem
  mm := update k.mm i (some s.mm)

@[simp] theorem put_mm_self (k : Spaces) (i : MmId) (s : Space) : (k.put i s).mm i = some s.mm :=
  update_self ..

theorem put_mm_of_ne {i j : MmId} (h : j ≠ i) (k : Spaces) (s : Space) :
    (k.put i s).mm j = k.mm j :=
  update_of_ne h _ _

theorem put_mm_some {k : Spaces} {s : Space} {mm : MmStruct} {i j : MmId}
    (h : (k.put i s).mm j = some mm) : j = i ∧ s.mm = mm ∨ j ≠ i ∧ k.mm j = some mm := by
  by_cases hji : j = i
  · subst hji
    exact .inl ⟨rfl, by simpa using h⟩
  · exact .inr ⟨hji, put_mm_of_ne hji k s ▸ h⟩

end Spaces

/-- An operation on one address space; a VMA is named by an address in it. -/
inductive Op
  | mmapGetVmapArea (vstart size : Nat) (flags : BitVec 64) (phys : Nat)
  | vmapPageRange (addr : Nat)
  | vumapPageRange (addr : Nat)
  | mmapFreeVmapArea (addr : Nat)
  | mmapMprotectFixup (start stop : Nat) (flags : BitVec 64)
  deriving DecidableEq

/-- `vumap_page_range` and `mmap_mprotect_fixup` are called for mapped VMAs only. -/
def Op.run (b : Board) (s : Space) : Op → Option Space
  | .mmapGetVmapArea vstart size flags phys =>
    some (s.mmapGetVmapArea b vstart size flags phys).2
  | .vmapPageRange addr =>
    (s.mmapFindVmaArea addr).bind fun v => (s.vmapPageRange v).map Prod.snd
  | .vumapPageRange addr =>
    (s.mmapFindVmaArea addr).bind fun v => if v.root 2 = ∅ then none else s.vumapPageRange v
  | .mmapFreeVmapArea addr => s.mmapFreeVmapArea addr
  | .mmapMprotectFixup start stop flags =>
    (s.mmapFindVmaArea start).bind fun v =>
      if v.root 2 = ∅ then none else (s.mmapMprotectFixup v start stop flags).map Prod.snd

/-- A new VMA lies in the user half of the address space. -/
def Op.below : Op → Bool
  | .mmapGetVmapArea vstart size _ _ => vstart + size ≤ 2 ^ 48
  | _ => true

/-- A new VMA lies in the user half of the address space and has fewer than 2^31 pages. -/
def Op.inUser : Op → Bool
  | .mmapGetVmapArea vstart size _ _ => vstart + size ≤ 2 ^ 48 ∧ size / pageSize < 2 ^ 31
  | _ => true

inductive Act
  /-- What the allocators will answer, and what lies behind the arrays they give. -/
  | supply (kmallocs : List Bool) (freePages beyond : List (Option Page))
  | mmapAllocMmStruct (i : MmId)
  | op (i : MmId) (o : Op)
  | mmapFreeMmStruct (i : MmId)
  deriving DecidableEq

def Act.below : Act → Bool
  | .op _ o => o.below
  | _ => true

def step (b : Board) (k : Spaces) : Act → Option Spaces
  | .supply kmallocs freePages beyond =>
    some { k with mem := { k.mem with kmallocs, freePages, beyond } }
  | .mmapAllocMmStruct i =>
    match k.mm i with
    | some _ => none
    | none =>
      match mmapAllocMmStruct k.mem with
      | (none, mem) => some { k with mem }
      | (some mm, mem) => some (k.put i ⟨mem, mm⟩)
  | .op i o => (k.mm i).bind fun mm => (o.run b ⟨k.mem, mm⟩).map (k.put i)
  | .mmapFreeMmStruct i =>
    (k.mm i).bind fun mm => (Space.mmapFreeMmStruct ⟨k.mem, mm⟩).map fun mem =>
      { mem, mm := update k.mm i none }

/-- The runs start without an address space, in any memory. -/
def machine (b : Board) : Machine Spaces Act where
  init k := ∀ i, k.mm i = none
  step := step b

/-! ## The invariant -/

structure SpacesRep (k : Spaces) (P : MmId → Nat → Nat → Option Page)
    (L : MmId → Nat → Option Entry) : Prop where
  space : ∀ i mm, k.mm i = some mm → SpaceRep k.mem mm (P i) (L i)
  own : ∀ i mm, k.mm i = some mm → OwnRep k.mem mm.vmas
  gone : ∀ i, k.mm i = none → ∀ l n, P i l n = none
  table : ∀ i j l n l' n' q, P i l n = some q → P j l' n' = some q → i = j
  data : ∀ i mm p, k.mm i = some mm → p ∈ ownPages mm.vmas → ∀ j l n, P j l n ≠ some p
  page : ∀ i j mm mm' p, k.mm i = some mm → k.mm j = some mm' → p ∈ ownPages mm.vmas →
    p ∈ ownPages mm'.vmas → i = j

section Spaces

variable {b : Board} {k : Spaces} {m m' : Mem} {mm mm' : MmStruct} {s s' : Space} {i : MmId}
  {P : MmId → Nat → Nat → Option Page} {L : MmId → Nat → Option Entry}
  {P' : Nat → Nat → Option Page} {L' : Nat → Option Entry} {u v : Vma} {l₁ l₂ vs : List Vma}

theorem update_some {j : MmId} {l n : Nat} {q : Page} (h : update P i P' j l n = some q) :
    j = i ∧ P' l n = some q ∨ j ≠ i ∧ P j l n = some q := by
  by_cases hji : j = i
  · subst hji
    exact .inl ⟨rfl, by rwa [update_self] at h⟩
  · exact .inr ⟨hji, by rwa [update_of_ne hji] at h⟩

theorem SpacesRep.update (h : SpacesRep k P L) {X : Page → Prop} (hrep : SpaceRep s.mem s.mm P' L')
    (hkeeps : Keeps X k.mem (P i) s.mem P')
    (hX : ∀ q, X q → ∃ mm, k.mm i = some mm ∧ q ∈ ownPages mm.vmas) (hown : OwnRep s.mem s.mm.vmas)
    (hnew : ∀ p ∈ ownPages s.mm.vmas, (∀ l n, P' l n ≠ some p) ∧
      (k.mem.ref p = 0 ∨ (∃ mm, k.mm i = some mm ∧ p ∈ ownPages mm.vmas) ∨
        ∃ l n, P i l n = some p)) :
    SpacesRep (k.put i s) (Function.update P i P') (Function.update L i L') := by
  -- the pages of the others are kept
  have hXtable : ∀ j l n q, P j l n = some q → ¬ X q := fun j l n q hq hx => by
    obtain ⟨mm, hmm, hmem⟩ := hX q hx
    exact h.data i mm q hmm hmem j l n hq
  have hlive : ∀ j l n q, P j l n = some q → k.mem.ref q ≠ 0 := fun j l n q hq => by
    cases hj : k.mm j with
    | none => rw [h.gone j hj] at hq; cases hq
    | some mm => exact (h.space j mm hj).live l n q hq
  have htable : ∀ j, j ≠ i → ∀ l n q, P j l n = some q →
      s.mem.ref q = k.mem.ref q ∧ s.mem.tbl q = k.mem.tbl q ∧ ∀ l n, P' l n ≠ some q :=
    fun j hj l n q hq => hkeeps.page q (hlive j l n q hq) (hXtable j l n q hq)
      fun l' n' hq' => hj (h.table j i l n l' n' q hq hq')
  have hpage : ∀ j mm p, j ≠ i → k.mm j = some mm → p ∈ ownPages mm.vmas →
      s.mem.ref p = k.mem.ref p ∧ s.mem.tbl p = k.mem.tbl p ∧ ∀ l n, P' l n ≠ some p :=
    fun j mm p hj hmm hp => hkeeps.page p
      (by rw [(h.own j mm hmm).ref p hp]; decide)
      (fun hx => by
        obtain ⟨mm', hmm', hp'⟩ := hX p hx
        exact hj (h.page j i mm mm' p hmm hmm' hp hp'))
      fun l n => h.data j mm p hmm hp i l n
  have hsep : ∀ j mm p, j ≠ i → k.mm j = some mm → p ∈ ownPages mm.vmas →
      p ∉ ownPages s.mm.vmas := fun j mm p hj hmm hp hp' => by
    rcases (hnew p hp').2 with hz | ⟨mm', hmm', hmem⟩ | ⟨l, n, hq⟩
    · have := (h.own j mm hmm).ref p hp
      omega
    · exact hj (h.page j i mm mm' p hmm hmm' hp hmem)
    · exact h.data j mm p hmm hp i l n hq
  refine ⟨fun j mm hj => ?_, fun j mm hj => ?_, fun j hj => ?_, fun j j' l n l' n' q hq hq' => ?_,
    fun j mm p hj hp j' l n hq => ?_, fun j j' mm mm' p hj hj' hp hp' => ?_⟩
  · rcases Spaces.put_mm_some hj with ⟨rfl, rfl⟩ | ⟨hji, hj⟩
    · rwa [update_self, update_self]
    · rw [update_of_ne hji, update_of_ne hji]
      exact (h.space j mm hj).congr fun l n q hq =>
        ⟨(htable j hji l n q hq).1, (htable j hji l n q hq).2.1⟩
  · rcases Spaces.put_mm_some hj with ⟨rfl, rfl⟩ | ⟨hji, hj⟩
    · exact hown
    · have ho := h.own j mm hj
      refine ⟨ho.all, ho.nodup, fun p hp => ?_⟩
      exact (hpage j mm p hji hj hp).1.trans (ho.ref p hp)
  · have hji : j ≠ i := by
      rintro rfl
      simp [Spaces.put] at hj
    rw [update_of_ne hji]
    exact h.gone j (Spaces.put_mm_of_ne hji k s ▸ hj)
  · rcases update_some hq with ⟨rfl, h1⟩ | ⟨hji, h1⟩ <;>
      rcases update_some hq' with ⟨rfl, h2⟩ | ⟨hji', h2⟩
    · rfl
    · exact absurd h1 ((htable j' hji' l' n' q h2).2.2 l n)
    · exact absurd h2 ((htable j hji l n q h1).2.2 l' n')
    · exact h.table j j' l n l' n' q h1 h2
  · rcases Spaces.put_mm_some hj with ⟨rfl, rfl⟩ | ⟨hji, h1⟩ <;>
      rcases update_some hq with ⟨rfl, h2⟩ | ⟨hji', h2⟩
    · exact (hnew p hp).1 l n h2
    · rcases (hnew p hp).2 with hz | ⟨mm', hmm', hmem⟩ | ⟨l', n', hq'⟩
      · exact hlive j' l n p h2 hz
      · exact h.data j mm' p hmm' hmem j' l n h2
      · exact hji' (h.table j' j l n l' n' p h2 hq')
    · exact (hpage j mm p hji h1 hp).2.2 l n h2
    · exact h.data j mm p h1 hp j' l n h2
  · rcases Spaces.put_mm_some hj with ⟨rfl, rfl⟩ | ⟨hji, h1⟩ <;>
      rcases Spaces.put_mm_some hj' with ⟨rfl, rfl⟩ | ⟨hji', h2⟩
    · rfl
    · exact absurd hp (hsep j' mm' p hji' h2 hp')
    · exact absurd hp' (hsep j mm p hji h1 hp)
    · exact h.page j j' mm mm' p h1 h2 hp hp'

/-! ## What the operations do to it -/

theorem SpacesRep.same (h : SpacesRep k P L) (hm : k.mem.Same m) :
    SpacesRep { k with mem := m } P L :=
  ⟨fun i mm hi => (h.space i mm hi).same hm,
    fun i mm hi => ⟨(h.own i mm hi).all, (h.own i mm hi).nodup, fun p hp => by
      have href := (h.own i mm hi).ref p hp
      rw [(hm.1 p (by omega)).1, href]⟩,
    h.gone, h.table, h.data, h.page⟩

theorem SpacesRep.setMmu (h : SpacesRep k P L) (ops : List MmuOp) :
    SpacesRep { k with mem := { k.mem with mmu := ops } } P L :=
  ⟨fun i mm hi => (h.space i mm hi).congr fun _ _ _ _ => ⟨rfl, rfl⟩,
    fun i mm hi => ⟨(h.own i mm hi).all, (h.own i mm hi).nodup, (h.own i mm hi).ref⟩,
    h.gone, h.table, h.data, h.page⟩

theorem SpacesRep.ok (h : SpacesRep k P L) (hi : k.mm i = some mm) :
    SpaceOk ⟨k.mem, mm⟩ (P i) (L i) :=
  ⟨h.space i mm hi, h.own i mm hi, fun p hp => h.data i mm p hi hp i⟩

theorem SpacesRep.lift (h : SpacesRep k P L) (hi : k.mm i = some mm) (hok : SpaceOk s P' L')
    (hto : SpaceTo ⟨k.mem, mm⟩ (P i) s P') :
    SpacesRep (k.put i s) (Function.update P i P') (Function.update L i L') :=
  h.update hok.rep hto.keeps (fun _ hq => ⟨mm, hi, hq⟩) hok.own fun p hp =>
    ⟨hok.data p hp, (hto.fresh p hp).imp_right fun h => h.imp_left fun h => ⟨mm, hi, h⟩⟩

def rootOnly (pgd : Page) (l n : Nat) : Option Page := if l = 3 ∧ n = 0 then some pgd else none

theorem spaceRep_new (hmm : mm.vmas = []) (hbytes : mm.pgtablesBytes = 0) (href : m.ref mm.pgd = 1)
    (htbl : m.tbl mm.pgd = fun _ => none) : SpaceRep m mm (rootOnly mm.pgd) fun _ => none := by
  have hroot : ∀ {l n q}, rootOnly mm.pgd l n = some q → (l = 3 ∧ n = 0) ∧ mm.pgd = q :=
    fun h => by
      unfold rootOnly at h
      split_ifs at h with hc
      exact ⟨hc, Option.some.inj h⟩
  have hlow : ∀ l < 3, ∀ n, rootOnly mm.pgd l n = none := fun l hl n => if_neg (by omega)
  refine ⟨⟨fun l n t ht i _ => ?_, fun n t ht => ?_, fun l n hl hne => ?_, fun l n hne => ?_,
    fun l n l' n' t h h' => ?_, fun _ _ => rfl⟩, rfl, fun n hn => if_neg (by omega), fun l n q hq => ?_,
    fun l hl n q hq => ?_,
    by simp [hmm], by simp [hmm], by simp [hmm], fun n hn => absurd rfl hn, by simp [hmm],
    by simp [hmm], ⟨∅, fun q => ?_, by simp [hbytes]⟩, href⟩
  · obtain ⟨⟨hl, -⟩, rfl⟩ := hroot ht
    rw [htbl, hlow l (by omega)]
    rfl
  · have := (hroot ht).1.1
    omega
  · exact absurd (hlow l hl n) hne
  · obtain ⟨q, hq⟩ := Option.ne_none_iff_exists'.mp hne
    have := (hroot hq).1.1
    omega
  · have h1 := (hroot h).1
    have h2 := (hroot h').1
    omega
  · rw [← (hroot hq).2, href]
    decide
  · rw [hlow l hl n] at hq
    cases hq
  · simp only [Finset.notMem_empty, false_iff, not_exists, not_and]
    intro l hl n hq
    rw [hlow l hl n] at hq
    cases hq

/-- What `mmap_alloc_mm_struct` has taken and returns. -/
structure NewMm (m : Mem) (mm : MmStruct) (m' : Mem) : Prop where
  vmas : mm.vmas = []
  bytes : mm.pgtablesBytes = 0
  brk : mm.brk = 0
  base : mm.mmapBase = userDs
  free : m.ref mm.pgd = 0
  ref : m'.ref mm.pgd = 1
  tbl : m'.tbl mm.pgd = fun _ => none
  rest : ∀ q, q ≠ mm.pgd → m'.ref q = m.ref q ∧ m'.tbl q = m.tbl q ∧ m'.data q = m.data q
  mmu : m'.mmu = m.mmu

theorem mmapAllocMmStruct_some (hres : mmapAllocMmStruct m = (some mm, m')) : NewMm m mm m' := by
  obtain ⟨ok, r, hk⟩ := mem_kmalloc m
  unfold mmapAllocMmStruct at hres
  cases ok with
  | false =>
    rw [hk] at hres
    cases hres
  | true =>
    simp only [hk] at hres
    obtain ⟨r', hp | ⟨p, hfree, hp⟩⟩ := allocPage_cases { m with kmallocs := r }
    · rw [hp] at hres
      cases hres
    · rw [hp] at hres
      cases hres
      exact ⟨rfl, rfl, rfl, rfl, hfree, by simp, by simp, fun q hq => by simp [hq], rfl⟩

theorem NewMm.ne (h : NewMm m mm m') {q : Page} (hq : m.ref q ≠ 0) : q ≠ mm.pgd :=
  fun heq => hq (heq ▸ h.free)

theorem NewMm.same (h : NewMm m mm m') : m.Same m' := ⟨fun q hq => h.rest q (h.ne hq), h.mmu⟩

theorem rootOnly_some {pgd q : Page} {l n : Nat} (h : rootOnly pgd l n = some q) : pgd = q := by
  unfold rootOnly at h
  split_ifs at h
  exact Option.some.inj h

theorem NewMm.ok (h : NewMm m mm m') : SpaceOk ⟨m', mm⟩ (rootOnly mm.pgd) fun _ => none := by
  have hown : ownPages mm.vmas = [] := by rw [h.vmas]; rfl
  refine ⟨spaceRep_new h.vmas h.bytes h.ref h.tbl, ⟨?_, ?_, ?_⟩, ?_⟩
  · simp [h.vmas]
  · simp [hown]
  · simp [hown]
  · simp [hown]

theorem SpacesRep.mmapAllocMmStruct (h : SpacesRep k P L)
    (hres : mmapAllocMmStruct k.mem = (some mm, m)) :
    SpacesRep (k.put i ⟨m, mm⟩) (Function.update P i (rootOnly mm.pgd))
      (Function.update L i fun _ => none) ∧ mm.vmas = [] ∧ k.mem.Same m := by
  have hnew := mmapAllocMmStruct_some hres
  have hok := hnew.ok
  have hown : ownPages mm.vmas = [] := by rw [hnew.vmas]; rfl
  refine ⟨h.update (X := fun _ => False) hok.rep ⟨fun q hq _ _ => ?_, fun q hq _ _ => ?_⟩
    (fun _ h => h.elim) hok.own (by simp [hown]), hnew.vmas, hnew.same⟩
  · obtain ⟨h1, h2, -⟩ := hnew.same.1 q hq
    exact ⟨h1, h2, fun l n hl => hnew.ne hq (rootOnly_some hl).symm⟩
  · exact (hnew.same.1 q hq).2.2

theorem mmapAllocMmStruct_refused (hres : mmapAllocMmStruct m = (none, m')) :
    ∃ r r', m' = { m with kmallocs := r, freePages := r' } := by
  obtain ⟨ok, r, hk⟩ := mem_kmalloc m
  unfold mmapAllocMmStruct at hres
  cases ok with
  | false =>
    rw [hk] at hres
    cases hres
    exact ⟨r, m.freePages, rfl⟩
  | true =>
    simp only [hk] at hres
    obtain ⟨r', hp | ⟨p, hfree, hp⟩⟩ := allocPage_cases { m with kmallocs := r }
    · rw [hp] at hres
      cases hres
      exact ⟨r, r', rfl⟩
    · rw [hp] at hres
      cases hres

theorem mmapAllocMmStruct_none (hres : mmapAllocMmStruct m = (none, m')) : m.Same m' := by
  obtain ⟨r, r', rfl⟩ := mmapAllocMmStruct_refused hres
  exact ⟨fun _ _ => ⟨rfl, rfl, rfl⟩, rfl⟩

theorem SpacesRep.mmapFreeMmStruct (h : SpacesRep k P L) (hi : k.mm i = some mm)
    (hres : Space.mmapFreeMmStruct ⟨k.mem, mm⟩ = some m) :
    SpacesRep ⟨m, Function.update k.mm i none⟩ (Function.update P i fun _ _ => none)
      (Function.update L i fun _ => none) ∧ mm.vmas = [] ∧ m.data = k.mem.data ∧
      ∀ q, q ≠ mm.pgd → m.ref q = k.mem.ref q ∧ m.tbl q = k.mem.tbl q := by
  unfold Space.mmapFreeMmStruct at hres
  split_ifs at hres with hc
  unfold Mem.putPage at hres
  split_ifs at hres
  cases hres
  have hother : ∀ q, q ≠ mm.pgd →
      Function.update k.mem.ref mm.pgd (k.mem.ref mm.pgd - 1) q = k.mem.ref q :=
    fun q hq => update_of_ne hq _ _
  have hmm : ∀ {j mm'}, Function.update k.mm i none j = some mm' → j ≠ i ∧ k.mm j = some mm' :=
    fun {j mm'} hj => by
      by_cases hji : j = i
      · subst hji
        rw [update_self] at hj
        cases hj
      · exact ⟨hji, by rwa [update_of_ne hji] at hj⟩
  have hP : ∀ {j l n q}, Function.update P i (fun _ _ => none) j l n = some q →
      j ≠ i ∧ P j l n = some q := fun hq => (update_some hq).resolve_left (by simp)
  have htop := (h.space i mm hi).top
  refine ⟨⟨fun j mm' hj => ?_, fun j mm' hj => ?_, fun j hj l n => ?_,
    fun j j' l n l' n' q hq hq' => h.table j j' l n l' n' q (hP hq).2 (hP hq').2,
    fun j mm' p hj hp j' l n hq => h.data j mm' p (hmm hj).2 hp j' l n (hP hq).2,
    fun j j' mm1 mm2 p hj hj' => h.page j j' mm1 mm2 p (hmm hj).2 (hmm hj').2⟩, hc.2, rfl,
    fun q hq => ⟨hother q hq, rfl⟩⟩
  · obtain ⟨hji, hj⟩ := hmm hj
    rw [update_of_ne hji, update_of_ne hji]
    refine (h.space j mm' hj).congr fun l n q hq => ⟨hother q ?_, rfl⟩
    rintro rfl
    exact hji (h.table j i l n 3 0 _ hq htop)
  · obtain ⟨hji, hj⟩ := hmm hj
    have ho := h.own j mm' hj
    refine ⟨ho.all, ho.nodup, fun p hp => (hother p ?_).trans (ho.ref p hp)⟩
    rintro rfl
    exact h.data j mm' _ hj hp i 3 0 htop
  · by_cases hji : j = i
    · subst hji
      rw [update_self]
    · rw [update_of_ne hji]
      exact h.gone j ((update_of_ne hji _ _).symm.trans hj) l n

/-! ## The runs -/

def Op.remaps (v : Vma) : Op → Bool
  | .vmapPageRange a | .vumapPageRange a | .mmapFreeVmapArea a => v.vmStart ≤ a ∧ a < v.vmEnd
  | _ => false

theorem Op.below_of_inUser {o : Op} (h : o.inUser = true) : o.below = true := by
  cases o with
  | mmapGetVmapArea =>
    simp only [Op.inUser, Op.below, decide_eq_true_eq] at h ⊢
    exact h.1
  | _ => rfl

theorem counted_finish (h : ∀ v ∈ s.mm.vmas, v.Counted) (u : Vma) (w : Work) :
    ∀ v ∈ (s.finish u w).mm.vmas, v.Counted := by
  intro v hv
  obtain ⟨x, hx, rfl⟩ := List.mem_map.mp hv
  split
  · exact h x hx
  · exact h x hx

theorem SpaceOk.op {Q : Nat → Nat → Option Page} {M : Nat → Option Entry} (hok : SpaceOk s Q M)
    {o : Op} (ho : o.below = true) (hrun : o.run b s = some s') :
    ∃ P' L', (SpaceOk s' P' L' ∧ SpaceTo s Q s' P') ∧
      (∃ ops, s'.mem.mmu = s.mem.mmu ++ ops ∧ Replays M ops L') ∧
      (∀ u ∈ s.mm.vmas, o.remaps u = false → u ∈ s'.mm.vmas) ∧
      (o.inUser = true → (∀ v ∈ s.mm.vmas, v.Counted) → ∀ v ∈ s'.mm.vmas, v.Counted) := by
  have hrep := hok.rep
  cases o with
  | mmapGetVmapArea vstart size flags phys =>
    simp only [Op.below, decide_eq_true_eq] at ho
    cases hrun
    rcases hrep.mmapGetVmapArea b flags phys (ho.trans (by decide)) with
      ⟨m', hres, hsame, -⟩ | ⟨v, s', hres, hmade, hrep'⟩
    · rw [hres]
      exact ⟨Q, M, hok.same hsame, ⟨[], hsame.2.trans (List.append_nil _).symm, .nil⟩,
        fun u hu _ => hu, fun _ hc => hc⟩
    · rw [hres]
      obtain ⟨l₁, l₂, heq, hmm⟩ := hmade.mm
      refine ⟨Q, M, hok.made hmade hrep',
        ⟨[], hmade.same.2.trans (List.append_nil _).symm, .nil⟩, fun u hu _ => ?_,
        fun hin hc u hu => ?_⟩
      · rw [heq] at hu
        rw [hmm]
        simp at hu ⊢
        tauto
      · rw [hmm] at hu
        by_cases huv : u = v
        · subst huv
          simp only [Op.inUser, decide_eq_true_eq] at hin
          rw [Vma.Counted, hmade.nr, hmade.stop, hmade.start, Nat.add_sub_cancel_left,
            Nat.mod_eq_of_lt (hin.2.trans (by decide))]
        · refine hc u ?_
          rw [heq]
          simp at hu ⊢
          tauto
  | vmapPageRange =>
    obtain ⟨v, hfind, hrun⟩ := Option.bind_eq_some_iff.mp hrun
    obtain ⟨hv, h1, h2⟩ := findVmaArea_some hfind
    obtain ⟨ret, w, P', L', hres, hop, -⟩ := hrep.vmapPageRange hv
    rw [hres] at hrun
    cases hrun
    refine ⟨P', L', hok.tableOp hop, ⟨_, rfl, hop.mmu⟩,
      fun u hu hnot => mem_finish hrep hu hv ?_ w, fun _ hc => counted_finish hc v w⟩
    rintro rfl
    simp [Op.remaps, h1, h2] at hnot
  | vumapPageRange =>
    obtain ⟨v, hfind, hrun⟩ := Option.bind_eq_some_iff.mp hrun
    obtain ⟨hv, h1, h2⟩ := findVmaArea_some hfind
    split_ifs at hrun with hroot
    obtain ⟨w, P', hres, hop, -⟩ := hrep.vumapPageRange hv (mapped_of_root hrep hv hroot)
    rw [hres] at hrun
    cases hrun
    refine ⟨P', _, hok.tableOp hop, ⟨_, rfl, hop.mmu⟩,
      fun u hu hnot => mem_finish hrep hu hv ?_ w, fun _ hc => counted_finish hc v w⟩
    rintro rfl
    simp [Op.remaps, h1, h2] at hnot
  | mmapFreeVmapArea =>
    rcases hok.mmapFreeVmapArea_cases hrun with
      ⟨-, rfl⟩ | ⟨v, l₁, l₂, r, hfind, ha, -, rfl, -, hok', hto⟩
    · exact ⟨Q, M, ⟨hok, .refl s' Q⟩, ⟨[], (List.append_nil _).symm, .nil⟩,
        fun u hu _ => hu, fun _ hc => hc⟩
    · obtain ⟨-, h1, h2⟩ := findVmaArea_some hfind
      refine ⟨Q, M, ⟨hok', hto⟩, ⟨[], (List.append_nil _).symm, .nil⟩,
        fun u hu hnot => ?_, fun _ hc u hu => hc u ?_⟩
      · have huv : u ≠ v := by
          rintro rfl
          simp [Op.remaps, h1, h2] at hnot
        exact (ha.mem_iff.mp hu).resolve_right huv
      · exact ha.mem_iff.mpr (.inl hu)
  | mmapMprotectFixup start stop flags =>
    obtain ⟨v, hfind, hrun⟩ := Option.bind_eq_some_iff.mp hrun
    obtain ⟨hv, h1, h2⟩ := findVmaArea_some hfind
    split_ifs at hrun with hroot
    rcases hrep.mmapMprotectFixup hv (mapped_of_root hrep hv hroot) start stop flags with
      hres | ⟨-, w, hres, hw, hop⟩
    · rw [hres, hrep.finish_work hv] at hrun
      cases hrun
      exact ⟨Q, M, ⟨hok, .refl s Q⟩, ⟨[], (List.append_nil _).symm, .nil⟩,
        fun u hu _ => hu, fun _ hc => hc⟩
    · rw [hres] at hrun
      cases hrun
      refine ⟨Q, _, hok.tableOp hop, ⟨_, rfl, hop.mmu⟩,
        fun u hu _ => ?_, fun _ hc => counted_finish hc v w⟩
      by_cases huv : u = v
      · subst huv
        refine List.mem_map.mpr ⟨u, hu, ?_⟩
        rw [if_pos rfl, hw]
      · exact mem_finish hrep hu hv huv w

theorem SpacesRep.op (h : SpacesRep k P L) (hi : k.mm i = some mm) {o : Op} (ho : o.below = true)
    (hrun : o.run b ⟨k.mem, mm⟩ = some s) :
    ∃ P' L', SpacesRep (k.put i s) (Function.update P i P') (Function.update L i L') ∧
      (∃ ops, s.mem.mmu = k.mem.mmu ++ ops ∧ Replays (L i) ops L') ∧
      (∀ u ∈ mm.vmas, o.remaps u = false → u ∈ s.mm.vmas) ∧
      (o.inUser = true → (∀ v ∈ mm.vmas, v.Counted) → ∀ v ∈ s.mm.vmas, v.Counted) := by
  obtain ⟨P', L', ⟨hok, hto⟩, hrest⟩ := (h.ok hi).op ho hrun
  exact ⟨P', L', h.lift hi hok hto, hrest⟩

/-- The invariant of the runs with VMAs in the user half. -/
def Spaces.Inv (k : Spaces) : Prop := ∃ P L, SpacesRep k P L

theorem Spaces.Inv.step {k' : Spaces} {a : Act} (h : k.Inv) (ha : a.below = true)
    (hs : step b k a = some k') : k'.Inv := by
  obtain ⟨P, L, h⟩ := h
  cases a with
  | supply =>
    cases hs
    exact ⟨P, L, h.same ⟨fun _ _ => ⟨rfl, rfl, rfl⟩, rfl⟩⟩
  | mmapAllocMmStruct i =>
    cases hi : k.mm i with
    | some => simp [Mm.step, hi] at hs
    | none =>
      cases hres : Mm.mmapAllocMmStruct k.mem with
      | mk r =>
        cases r with
        | none =>
          simp only [Mm.step, hi, hres] at hs
          cases hs
          exact ⟨P, L, h.same (mmapAllocMmStruct_none hres)⟩
        | some =>
          simp only [Mm.step, hi, hres] at hs
          cases hs
          exact ⟨_, _, (h.mmapAllocMmStruct hres).1⟩
  | op =>
    obtain ⟨mm, hi, hs⟩ := Option.bind_eq_some_iff.mp hs
    obtain ⟨s, hrun, rfl⟩ := Option.map_eq_some_iff.mp hs
    obtain ⟨P', L', hrep, -⟩ := h.op hi ha hrun
    exact ⟨_, _, hrep⟩
  | mmapFreeMmStruct =>
    obtain ⟨mm, hi, hs⟩ := Option.bind_eq_some_iff.mp hs
    obtain ⟨m, hres, rfl⟩ := Option.map_eq_some_iff.mp hs
    exact ⟨_, _, (h.mmapFreeMmStruct hi hres).1⟩

def Spaces.Counted (k : Spaces) : Prop := ∀ i mm, k.mm i = some mm → ∀ v ∈ mm.vmas, v.Counted

theorem Spaces.Counted.put (h : k.Counted) (hs : ∀ v ∈ s.mm.vmas, v.Counted) :
    (k.put i s).Counted := by
  intro j mm hj
  rcases Spaces.put_mm_some hj with ⟨-, rfl⟩ | ⟨-, hj⟩
  · exact hs
  · exact h j mm hj

theorem spacesRep_init (hk : ∀ i, k.mm i = none) :
    SpacesRep k (fun _ _ _ => none) fun _ _ => none := by
  have hno : ∀ {i mm}, k.mm i ≠ some mm := fun {i mm} hi => by
    rw [hk i] at hi
    cases hi
  exact ⟨fun _ _ hi => absurd hi hno, fun _ _ hi => absurd hi hno, fun _ _ _ _ => rfl,
    fun _ _ _ _ _ _ _ h => (nomatch h), fun _ _ _ hi => absurd hi hno,
    fun _ _ _ _ _ hi => absurd hi hno⟩

theorem Spaces.Inv.of_reach {ok : Spaces → Act → Prop} (hok : ∀ k a, ok k a → a.below = true)
    (h : (machine b).Reach ok k) : k.Inv :=
  Machine.Reach.invariant (I := Spaces.Inv) (fun _ hk => ⟨_, _, spacesRep_init hk⟩)
    (fun _ _ _ hI ha hs => hI.step (hok _ _ ha) hs) h

end Spaces

end MinixRt.Mm
