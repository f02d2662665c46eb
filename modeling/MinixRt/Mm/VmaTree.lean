import MinixRt.Lib.Machine
import MinixRt.Mm.SpaceOps

/-!
# The tree of the VMAs

`vma_rb_root` is a search tree, and `__insert_vma_area` and `__find_vma_area` see one path of
it. The functions of `mm/mmap.c` over the tree itself are here, with the rebalancing left open:
linking or erasing a node may end in any tree with the right listing. The VMAs of every tree
that is reached are disjoint and in order, so that the descents miss nothing, and the tree
does what the lists of `Space` do.
-/

namespace MinixRt.Mm

open List Lib Machine
open Option (bind_eq_some_iff map_eq_some_iff)

/-- The comparisons of `__insert_vma_area`. -/
def insertCut (vma this : Vma) : Ordering :=
  if vma.vmEnd ≤ this.vmStart then .lt else if this.vmEnd ≤ vma.vmStart then .gt else .eq

/-- The comparisons of `__find_vma_area`. -/
def findCut (addr : Nat) (vma : Vma) : Ordering :=
  if addr < vma.vmStart then .lt else if vma.vmEnd ≤ addr then .gt else .eq

/-- The part of `mmap_get_vmap_area` before the insertion. -/
def newVma (b : Board) (vstart size : Nat) (flags : BitVec 64) (phys : Nat) (m : Mem) :
    Option Vma × Mem :=
  if vstart % pageSize ≠ 0 ∨ size % pageSize ≠ 0 ∨ size = 0 ∨ vstart = 0 then (none, m)
  else
    match m.kmalloc with
    | (false, mem) => (none, mem)
    | (true, mem) =>
      match mem.kmallocArray (size / pageSize % 2 ^ 32) with
      | (false, mem) => (none, mem)
      | (true, mem) =>
        match vmaPages b flags (size / pageSize % 2 ^ 32) phys mem with
        | (none, mem) => (none, mem)
        | (some pages, mem) => (some {
            vmStart := vstart
            vmEnd := u64 (vstart + size)
            vmPageProt := vmGetPageProt (flags ||| vmShared)
            vmFlags := flags
            pages
            beyond := m.beyond
            root := fun _ => ∅ }, mem)

structure TreeMm where
  mem : Mem
  vmaRbRoot : BinaryTree Vma

namespace TreeMm

def rebalance (shape : BinaryTree Unit) (vmas : List Vma) : Option (BinaryTree Vma) :=
  match BinaryTree.build shape vmas with
  | some (t, []) => some t
  | _ => none

def mmapGetVmapArea (b : Board) (vstart size : Nat) (flags : BitVec 64) (phys : Nat)
    (shape : BinaryTree Unit) (s : TreeMm) : Option (Option Vma × TreeMm) :=
  match newVma b vstart size flags phys s.mem with
  | (none, mem) => some (none, { s with mem })
  | (some vma, mem) =>
    match s.vmaRbRoot.link (insertCut vma) vma with
    | none => some (none, { s with mem })
    | some t => (rebalance shape t.toList).map fun t => (some vma, ⟨mem, t⟩)

def mmapFindVmaArea (addr : Nat) (s : TreeMm) : Option Vma := s.vmaRbRoot.find (findCut addr)

def mmapFreeVmapArea (addr : Nat) (shape : BinaryTree Unit) (s : TreeMm) : Option TreeMm :=
  match s.mmapFindVmaArea addr with
  | none => some s
  | some vma =>
    if vma.root 2 = ∅ ∧ vma.root 1 = ∅ ∧ vma.root 0 = ∅ then
      (rebalance shape (s.vmaRbRoot.toList.filter fun v => v.vmStart ≠ vma.vmStart)).bind fun t =>
        if vma.vmFlags &&& vmPrivateShare = 0 then
          (s.mem.putPages vma.pages).map fun mem => ⟨mem, t⟩
        else some { s with vmaRbRoot := t }
    else none

end TreeMm

inductive TreeAct
  | supply (kmallocs : List Bool) (freePages beyond : List (Option Page))
  | mmapGetVmapArea (vstart size : Nat) (flags : BitVec 64) (phys : Nat) (shape : BinaryTree Unit)
  | mmapFreeVmapArea (addr : Nat) (shape : BinaryTree Unit)
  deriving DecidableEq

def TreeAct.noWrap : TreeAct → Bool
  | .mmapGetVmapArea vstart size _ _ _ => vstart + size < 2 ^ 64
  | _ => true

def treeStep (b : Board) (s : TreeMm) : TreeAct → Option TreeMm
  | .supply kmallocs freePages beyond =>
    some { s with mem := { s.mem with kmallocs, freePages, beyond } }
  | .mmapGetVmapArea vstart size flags phys shape =>
    (s.mmapGetVmapArea b vstart size flags phys shape).map Prod.snd
  | .mmapFreeVmapArea addr shape => s.mmapFreeVmapArea addr shape

def treeMachine (b : Board) : Machine TreeMm TreeAct where
  init s := s.vmaRbRoot = .nil
  step := treeStep b

/-- Non-empty ranges of pages, disjoint and in order. -/
structure Sorted (vmas : List Vma) : Prop where
  range : ∀ v ∈ vmas, v.vmStart < v.vmEnd ∧ pageSize ∣ v.vmStart ∧ pageSize ∣ v.vmEnd
  ordered : vmas.Pairwise fun u v => u.vmEnd ≤ v.vmStart

section VmaTree

variable {b : Board} {s s' : TreeMm} {u v vma : Vma} {vs : List Vma} {t t' : BinaryTree Vma}
  {vstart size phys addr : Nat} {flags : BitVec 64} {m m' : Mem} {shape : BinaryTree Unit}

/-! ## The descents -/

theorem insertCut_eq_gt (hu : u.vmStart < u.vmEnd) (hv : vma.vmStart < vma.vmEnd) :
    insertCut vma u = .gt ↔ u.vmEnd ≤ vma.vmStart := by
  unfold insertCut
  split_ifs with h1 h2
  · exact iff_of_false nofun (by omega)
  · simpa using h2
  · simpa using h2

theorem insertCut_eq_lt : insertCut vma u = .lt ↔ vma.vmEnd ≤ u.vmStart := by
  unfold insertCut
  split_ifs with h1 h2
  · simpa using h1
  · simpa using h1
  · simpa using h1

theorem insertCut_eq_eq :
    insertCut vma u = .eq ↔ u.vmStart < vma.vmEnd ∧ vma.vmStart < u.vmEnd := by
  unfold insertCut
  split_ifs with h1 h2
  · exact iff_of_false nofun (by omega)
  · exact iff_of_false nofun (by omega)
  · exact iff_of_true rfl (by omega)

theorem findCut_eq_eq : findCut addr u = .eq ↔ u.vmStart ≤ addr ∧ addr < u.vmEnd := by
  unfold findCut
  split_ifs with h1 h2
  · exact iff_of_false nofun (by omega)
  · exact iff_of_false nofun (by omega)
  · exact iff_of_true rfl (by omega)

theorem Sorted.monotone_insertCut (h : Sorted vs) (hv : vma.vmStart < vma.vmEnd) :
    BinaryTree.Monotone (insertCut vma) vs := by
  refine h.ordered.imp_of_mem fun {x y} hx hy hxy => ?_
  have hx' := (h.range x hx).1
  have hy' := (h.range y hy).1
  rw [insertCut_eq_lt, insertCut_eq_lt, insertCut_eq_gt hx' hv, insertCut_eq_gt hy' hv]
  omega

theorem Sorted.monotone_findCut (h : Sorted vs) : BinaryTree.Monotone (findCut addr) vs := by
  refine h.ordered.imp_of_mem fun {x y} hx hy hxy => ?_
  have hx' := (h.range x hx).1
  have hy' := (h.range y hy).1
  unfold findCut
  constructor <;> intro h <;> split_ifs at h ⊢ <;> first | rfl | omega

theorem find_eq_some_iff (h : Sorted t.toList) :
    t.find (findCut addr) = some v ↔ v ∈ t.toList ∧ v.vmStart ≤ addr ∧ addr < v.vmEnd := by
  constructor
  · intro hf
    obtain ⟨hv, hcut⟩ := BinaryTree.find_eq_some hf
    exact ⟨hv, findCut_eq_eq.mp hcut⟩
  · rintro ⟨hv, hin⟩
    cases hf : t.find (findCut addr) with
    | none => exact absurd (findCut_eq_eq.mpr hin) (BinaryTree.find_eq_none h.monotone_findCut hf v hv)
    | some =>
      obtain ⟨hx, hcut⟩ := BinaryTree.find_eq_some hf
      obtain ⟨h1, h2⟩ := findCut_eq_eq.mp hcut
      -- both are what the search in the list finds
      have hlt := fun y hy => (h.range y hy).1
      rw [← findVmaArea_of_mem hlt h.ordered hx h1 h2, findVmaArea_of_mem hlt h.ordered hv hin.1 hin.2]

theorem rebalance_toList (h : TreeMm.rebalance shape vs = some t) : t.toList = vs := by
  unfold TreeMm.rebalance at h
  split at h
  · rename_i hb
    cases h
    simpa using BinaryTree.build_eq_some hb
  · cases h

/-! ## The operations -/

theorem newVma_some (h : newVma b vstart size flags phys m = (some vma, m'))
    (hwrap : vstart + size < 2 ^ 64) :
    vma.vmStart = vstart ∧ vma.vmEnd = vstart + size ∧ vma.vmStart < vma.vmEnd ∧
      pageSize ∣ vma.vmStart ∧ pageSize ∣ vma.vmEnd := by
  have hu64 : u64 (vstart + size) = vstart + size := Nat.mod_eq_of_lt hwrap
  unfold newVma at h
  split_ifs at h with hbad
  · cases h
  push Not at hbad
  obtain ⟨h1, h2, h3, h4⟩ := hbad
  split at h
  · cases h
  split at h
  · cases h
  split at h
  · cases h
  · cases h
    refine ⟨rfl, hu64, ?_, Nat.dvd_of_mod_eq_zero h1, ?_⟩
    · show vstart < u64 (vstart + size)
      omega
    · show pageSize ∣ u64 (vstart + size)
      rw [hu64]
      exact Nat.dvd_add (Nat.dvd_of_mod_eq_zero h1) (Nat.dvd_of_mod_eq_zero h2)

theorem Sorted.link (h : Sorted t.toList) (hv : vma.vmStart < vma.vmEnd ∧ pageSize ∣ vma.vmStart ∧
    pageSize ∣ vma.vmEnd) (hl : t.link (insertCut vma) vma = some t') :
    Sorted t'.toList ∧ insertVmaArea vma t.toList = some t'.toList := by
  obtain ⟨as, bs, heq, heq', has, hbs⟩ := BinaryTree.link_eq_some (h.monotone_insertCut hv.1) hl
  have hbefore : ∀ a ∈ as, a.vmEnd ≤ vma.vmStart := fun a ha =>
    (insertCut_eq_gt (h.range a (by rw [heq]; simp [ha])).1 hv.1).mp (has a ha)
  have hafter : ∀ b ∈ bs, vma.vmEnd ≤ b.vmStart := fun b hb => insertCut_eq_lt.mp (hbs b hb)
  refine ⟨⟨fun x hx => ?_, ?_⟩, ?_⟩
  · rw [heq'] at hx
    by_cases hxv : x = vma
    · rw [hxv]
      exact hv
    · refine h.range x ?_
      rw [heq]
      simp at hx ⊢
      tauto
  · rw [heq']
    exact BinaryTree.pairwise_link (heq ▸ h.ordered) hbefore hafter
  · -- the list is searched from its start
    have hrange := h.range
    rw [heq] at hrange
    rw [heq, heq']
    clear heq heq' has hl
    induction as with
    | nil =>
      cases bs with
      | nil => rfl
      | cons b => exact if_pos (hafter b (by simp))
    | cons a as ih =>
      have ha := (hrange a (by simp)).1
      have hle := hbefore a (by simp)
      rw [cons_append, insertVmaArea, if_neg (by omega), if_pos hle,
        ih (fun x hx => hbefore x (by simp [hx])) fun x hx => hrange x (by simp at hx ⊢; tauto)]
      rfl

theorem Sorted.link_eq_none_iff (h : Sorted t.toList) (hv : vma.vmStart < vma.vmEnd) :
    t.link (insertCut vma) vma = none ↔
      ∃ u ∈ t.toList, u.vmStart < vma.vmEnd ∧ vma.vmStart < u.vmEnd := by
  constructor
  · intro hl
    obtain ⟨u, hu, hcut⟩ := BinaryTree.link_eq_none hl
    exact ⟨u, hu, insertCut_eq_eq.mp hcut⟩
  · rintro ⟨u, hu, hin⟩
    by_contra hne
    obtain ⟨t', ht'⟩ := Option.ne_none_iff_exists'.mp hne
    obtain ⟨as, bs, heq, -, has, hbs⟩ := BinaryTree.link_eq_some (h.monotone_insertCut hv) ht'
    have hcut := insertCut_eq_eq.mpr hin
    rw [heq, mem_append] at hu
    rcases hu with hu | hu
    · rw [has u hu] at hcut
      cases hcut
    · rw [hbs u hu] at hcut
      cases hcut

theorem Sorted.filter (h : Sorted vs) (p : Vma → Bool) : Sorted (vs.filter p) :=
  ⟨fun v hv => h.range v (mem_filter.mp hv).1, h.ordered.filter p⟩

variable {r : Option Vma}

theorem TreeMm.sorted_mmapGetVmapArea (h : Sorted s.vmaRbRoot.toList)
    (hwrap : vstart + size < 2 ^ 64)
    (hres : s.mmapGetVmapArea b vstart size flags phys shape = some (r, s')) :
    Sorted s'.vmaRbRoot.toList := by
  unfold TreeMm.mmapGetVmapArea at hres
  split at hres
  · cases hres
    exact h
  · rename_i vma mem hnew
    split at hres
    · cases hres
      exact h
    · rename_i t ht
      obtain ⟨t', ht', heq⟩ := map_eq_some_iff.mp hres
      cases heq
      rw [rebalance_toList ht']
      exact (h.link (newVma_some hnew hwrap).2.2 ht).1

theorem TreeMm.sorted_mmapFreeVmapArea (h : Sorted s.vmaRbRoot.toList)
    (hres : s.mmapFreeVmapArea addr shape = some s') : Sorted s'.vmaRbRoot.toList := by
  unfold TreeMm.mmapFreeVmapArea at hres
  split at hres
  · cases hres
    exact h
  · split_ifs at hres
    · obtain ⟨t, ht, hres⟩ := bind_eq_some_iff.mp hres
      obtain ⟨m, -, rfl⟩ := map_eq_some_iff.mp hres
      rw [rebalance_toList ht]
      exact h.filter _
    · obtain ⟨t, ht, hres⟩ := bind_eq_some_iff.mp hres
      cases hres
      rw [rebalance_toList ht]
      exact h.filter _

/-! ## The lists of `Space` -/

theorem Space.mmapGetVmapArea_eq (sp : Space) : sp.mmapGetVmapArea b vstart size flags phys =
      match newVma b vstart size flags phys sp.mem with
      | (none, mem) => (none, { sp with mem })
      | (some vma, mem) => match insertVmaArea vma sp.mm.vmas with
        | none => (none, { sp with mem })
        | some vmas => (some vma, { mem, mm := { sp.mm with vmas } }) := by
  unfold Space.mmapGetVmapArea newVma
  split_ifs
  · rfl
  cases sp.mem.kmalloc with
  | mk ok m =>
    cases ok with
    | false => rfl
    | true =>
      dsimp only
      cases m.kmallocArray (size / pageSize % 2 ^ 32) with
      | mk ok m =>
        cases ok with
        | false => rfl
        | true =>
          dsimp only
          cases vmaPages b flags (size / pageSize % 2 ^ 32) phys m with
          | mk pages =>
            cases pages with
            | none | some pages => rfl

structure Listed (s : TreeMm) (sp : Space) : Prop where
  mem : sp.mem = s.mem
  vmas : sp.mm.vmas = s.vmaRbRoot.toList

variable {sp : Space}

section Listed

variable (h : Listed s sp) (hs : Sorted s.vmaRbRoot.toList)
include h hs

theorem Listed.mmapFindVmaArea (addr : Nat) :
    sp.mmapFindVmaArea addr = s.mmapFindVmaArea addr := by
  rw [Space.mmapFindVmaArea, h.vmas]
  cases hf : s.mmapFindVmaArea addr with
  | some =>
    obtain ⟨hv, h1, h2⟩ := (find_eq_some_iff hs).mp hf
    exact findVmaArea_of_mem (fun u hu => (hs.range u hu).1) hs.ordered hv h1 h2
  | none =>
    cases hl : findVmaArea addr s.vmaRbRoot.toList with
    | none => rfl
    | some =>
      rw [TreeMm.mmapFindVmaArea, (find_eq_some_iff hs).mpr (findVmaArea_some hl)] at hf
      cases hf

theorem Listed.mmapGetVmapArea (hwrap : vstart + size < 2 ^ 64)
    (hres : s.mmapGetVmapArea b vstart size flags phys shape = some (r, s')) :
    ∃ sp', sp.mmapGetVmapArea b vstart size flags phys = (r, sp') ∧ Listed s' sp' := by
  rw [Space.mmapGetVmapArea_eq, h.mem, h.vmas]
  unfold TreeMm.mmapGetVmapArea at hres
  cases hnew : newVma b vstart size flags phys s.mem with
  | mk r' =>
    rw [hnew] at hres
    cases r' with
    | none =>
      cases hres
      exact ⟨_, rfl, rfl, h.vmas⟩
    | some vma =>
      have hv := (newVma_some hnew hwrap).2.2
      dsimp only at hres ⊢
      cases hl : s.vmaRbRoot.link (insertCut vma) vma with
      | none =>
        rw [hl] at hres
        cases hres
        have hins : insertVmaArea vma s.vmaRbRoot.toList = none := by
          by_contra hne
          obtain ⟨vs, hvs⟩ := Option.ne_none_iff_exists'.mp hne
          obtain ⟨l1, l2, heq, -, hb, ha⟩ :=
            insertVmaArea_some hvs (fun u hu => (hs.range u hu).1) hs.ordered
          obtain ⟨u, hu, h1, h2⟩ := (hs.link_eq_none_iff hv.1).mp hl
          rw [heq, mem_append] at hu
          rcases hu with hu | hu
          · exact absurd (hb u hu) (by omega)
          · exact absurd (ha u hu) (by omega)
        rw [hins]
        exact ⟨_, rfl, rfl, h.vmas⟩
      | some =>
        rw [hl] at hres
        obtain ⟨t', ht', heq⟩ := map_eq_some_iff.mp hres
        cases heq
        rw [(hs.link hv hl).2]
        exact ⟨_, rfl, rfl, (rebalance_toList ht').symm⟩

theorem Listed.mmapFreeVmapArea (hres : s.mmapFreeVmapArea addr shape = some s') :
    ∃ sp', sp.mmapFreeVmapArea addr = some sp' ∧ Listed s' sp' := by
  unfold Space.mmapFreeVmapArea
  unfold TreeMm.mmapFreeVmapArea at hres
  rw [h.mmapFindVmaArea hs]
  cases hf : s.mmapFindVmaArea addr with
  | none =>
    rw [hf] at hres
    cases hres
    exact ⟨sp, rfl, h⟩
  | some =>
    rw [hf] at hres
    dsimp only at hres ⊢
    split_ifs at hres with hroot hflags
    · obtain ⟨t, ht, hres⟩ := bind_eq_some_iff.mp hres
      obtain ⟨m, hm, rfl⟩ := map_eq_some_iff.mp hres
      rw [if_pos hroot, if_pos hflags, h.mem, h.vmas, hm]
      exact ⟨_, rfl, rfl, (rebalance_toList ht).symm⟩
    · obtain ⟨t, ht, hres⟩ := bind_eq_some_iff.mp hres
      cases hres
      rw [if_pos hroot, if_neg hflags, h.vmas]
      exact ⟨_, rfl, h.mem, (rebalance_toList ht).symm⟩

end Listed

/-! ## The runs -/

theorem sorted_of_reach (h : (treeMachine b).Reach (fun _ a => a.noWrap = true) s) :
    Sorted s.vmaRbRoot.toList := by
  refine Reach.invariant (I := fun s => Sorted s.vmaRbRoot.toList) (fun s hs => ?_)
    (fun s a s' hI ha hs => ?_) h
  · rw [show s.vmaRbRoot = .nil from hs]
    exact ⟨nofun, .nil⟩
  · cases a with
    | supply =>
      cases hs
      exact hI
    | mmapGetVmapArea =>
      obtain ⟨⟨r, s1⟩, hres, rfl⟩ := map_eq_some_iff.mp hs
      exact TreeMm.sorted_mmapGetVmapArea hI (of_decide_eq_true ha) hres
    | mmapFreeVmapArea => exact TreeMm.sorted_mmapFreeVmapArea hI hs

/-- **The map of an address space.** The VMAs of every tree that is reached are disjoint ranges
of pages in order, a range that overlaps one of them is refused, and the search finds the VMA
of an address, of which there is at most one. -/
theorem vma_tree (h : (treeMachine b).Reach (fun _ a => a.noWrap = true) s) :
    Sorted s.vmaRbRoot.toList ∧
    (∀ vstart size flags phys shape r s', vstart + size < 2 ^ 64 →
      (∃ u ∈ s.vmaRbRoot.toList, u.vmStart < vstart + size ∧ vstart < u.vmEnd) →
      s.mmapGetVmapArea b vstart size flags phys shape = some (r, s') → r = none) ∧
    ∀ addr, (∀ v, s.mmapFindVmaArea addr = some v ↔
        v ∈ s.vmaRbRoot.toList ∧ v.vmStart ≤ addr ∧ addr < v.vmEnd) ∧
      (s.mmapFindVmaArea addr = none ↔
        ∀ v ∈ s.vmaRbRoot.toList, ¬ (v.vmStart ≤ addr ∧ addr < v.vmEnd)) := by
  have hs := sorted_of_reach h
  refine ⟨hs, fun vstart size flags phys shape r s' hwrap hover hres => ?_, fun addr =>
    ⟨fun v => find_eq_some_iff hs, fun hnone v hv hin => ?_, fun hall => ?_⟩⟩
  · unfold TreeMm.mmapGetVmapArea at hres
    split at hres
    · cases hres
      rfl
    · rename_i vma mem hnew
      obtain ⟨hstart, hend, hlt, -⟩ := newVma_some hnew hwrap
      have hnone := (hs.link_eq_none_iff hlt).mpr (by rw [hstart, hend]; exact hover)
      rw [hnone] at hres
      cases hres
      rfl
  · rw [TreeMm.mmapFindVmaArea, (find_eq_some_iff hs).mpr ⟨hv, hin⟩] at hnone
    cases hnone
  · cases hf : s.mmapFindVmaArea addr with
    | none => rfl
    | some v =>
      obtain ⟨hv, hin⟩ := (find_eq_some_iff hs).mp hf
      exact absurd hin (hall v hv)

/-- The same call on the list, which has no shape. -/
def TreeAct.onList (b : Board) (sp : Space) : TreeAct → Option Space
  | .supply kmallocs freePages beyond =>
    some { sp with mem := { sp.mem with kmallocs, freePages, beyond } }
  | .mmapGetVmapArea vstart size flags phys _ =>
    some (sp.mmapGetVmapArea b vstart size flags phys).2
  | .mmapFreeVmapArea addr _ => sp.mmapFreeVmapArea addr

theorem Listed.step {a : TreeAct} (h : Listed s sp) (hs : Sorted s.vmaRbRoot.toList)
    (ha : a.noWrap = true) (hstep : treeStep b s a = some s') :
    ∃ sp', a.onList b sp = some sp' ∧ Listed s' sp' := by
  cases a with
  | supply =>
    cases hstep
    exact ⟨_, rfl, by rw [h.mem], h.vmas⟩
  | mmapGetVmapArea =>
    obtain ⟨⟨r, s1⟩, hres, rfl⟩ := map_eq_some_iff.mp hstep
    obtain ⟨sp', heq, h'⟩ := h.mmapGetVmapArea hs (of_decide_eq_true ha) hres
    exact ⟨sp', by rw [TreeAct.onList, heq], h'⟩
  | mmapFreeVmapArea => exact h.mmapFreeVmapArea hs hstep

/-- **The tree refines the list.** After every run, whatever the shapes the rebalancing chose,
the searches and the insertions answer what they answer on the list. -/
theorem vma_tree_refines_list {as : List TreeAct}
    (hreach : (treeMachine b).Reach (fun _ a => a.noWrap = true) s) (h : Listed s sp)
    (has : ∀ a ∈ as, a.noWrap = true) (hrun : (treeMachine b).run s as = some s') :
    ∃ sp', as.foldlM (TreeAct.onList b) sp = some sp' ∧ Listed s' sp' ∧
      (∀ addr, sp'.mmapFindVmaArea addr = s'.mmapFindVmaArea addr) ∧
      ∀ vstart size flags phys shape r t, vstart + size < 2 ^ 64 →
        s'.mmapGetVmapArea b vstart size flags phys shape = some (r, t) →
        (sp'.mmapGetVmapArea b vstart size flags phys).1 = r := by
  induction as generalizing s sp with
  | nil =>
    cases hrun
    have hs := sorted_of_reach hreach
    refine ⟨sp, rfl, h, h.mmapFindVmaArea hs, fun vstart size flags phys shape r t hwrap hres => ?_⟩
    obtain ⟨sp', heq, -⟩ := h.mmapGetVmapArea hs hwrap hres
    rw [heq]
  | cons a as ih =>
    obtain ⟨s1, hstep, hrun⟩ := bind_eq_some_iff.mp hrun
    have ha := has a mem_cons_self
    obtain ⟨sp1, hlist, h1⟩ := h.step (sorted_of_reach hreach) ha hstep
    obtain ⟨sp', hfold, hrest⟩ :=
      ih (hreach.step ha hstep) h1 (fun a ha => has a (mem_cons_of_mem _ ha)) hrun
    exact ⟨sp', by rw [foldlM_cons, hlist]; exact hfold, hrest⟩

end VmaTree

/-! ## A run -/

/-- A chain of three VMAs, the last of them between the other two. -/
def threeVmas : List TreeAct :=
  [.supply (replicate 6 true) ((range 3).map some) [],
    .mmapGetVmapArea 0x1000 0x1000 vmRead 0 (.node () .nil .nil),
    .mmapGetVmapArea 0x4000 0x1000 vmRead 0 (.node () .nil (.node () .nil .nil)),
    .mmapGetVmapArea 0x2000 0x1000 vmRead 0 (.node () (.node () .nil .nil) (.node () .nil .nil))]

theorem vma_tree_three : ∃ s v, (treeMachine plainBoard).run ⟨emptyMem, .nil⟩ threeVmas = some s ∧
    s.mmapFindVmaArea 0x2fff = some v ∧ v ∈ s.vmaRbRoot.toList ∧ s.vmaRbRoot.toList.length = 3 ∧
    Sorted s.vmaRbRoot.toList := by
  obtain ⟨s, hs, hreach, hval⟩ := exists_run (M := treeMachine plainBoard)
    (G := fun _ a => a.noWrap = true) (P := fun s => ((s.mmapFindVmaArea 0x2fff).map fun _ =>
      s.vmaRbRoot.toList.length) = some 3) (s := ⟨emptyMem, .nil⟩) (.init rfl) threeVmas (by decide)
  obtain ⟨v, hv, hlen⟩ := map_eq_some_iff.mp hval
  have htree := vma_tree hreach
  exact ⟨s, v, hs, hv, (((htree.2.2 _).1 v).mp hv).1, hlen, htree.1⟩

theorem vma_tree_refines_list_three : ∃ s sp,
    (treeMachine plainBoard).run ⟨emptyMem, .nil⟩ threeVmas = some s ∧
    threeVmas.foldlM (TreeAct.onList plainBoard) ⟨emptyMem, plainMm 9⟩ = some sp ∧
    sp.mm.vmas = s.vmaRbRoot.toList ∧ sp.mm.vmas.length = 3 := by
  have hinit : (treeMachine plainBoard).init ⟨emptyMem, .nil⟩ := rfl
  have hnew : Listed ⟨emptyMem, .nil⟩ ⟨emptyMem, plainMm 9⟩ := ⟨rfl, rfl⟩
  obtain ⟨s, hs, -, hlen⟩ := exists_run (G := free) (P := fun s => s.vmaRbRoot.toList.length = 3)
    (.init hinit) threeVmas (by decide)
  obtain ⟨sp, hsp, h, -⟩ := vma_tree_refines_list (.init hinit) hnew (by decide) hs
  exact ⟨s, sp, hs, hsp, h.vmas, by rw [h.vmas, hlen]⟩

end MinixRt.Mm
