import MinixRt.System.Exec

/-!
# A child with the VMAs of its parent

`do_fork` gives the child a new `mm_struct`, or `init_mm` for a kernel thread, and
`mmap_copy_mm` makes a VMA in it for each VMA of the parent. A stack gets new pages. Any other
VMA gets `VM_PRIVATE_SHARE`, and with it the page frames from physical address 0 on, not the
pages of the parent. The break and `mmap_base` are not copied, so the first `SBRK` of a child
looks for the VMA of the byte before address 0.
-/

namespace MinixRt.System

open List Lib Mm
open Option (bind_eq_some_iff map_eq_some_iff)

/-! ## The call -/

/-- The flags of the VMA that the child gets for `vma`. -/
def copyFlags (vma : Vma) : BitVec 64 :=
  if vma.vmFlags &&& vmUserStack = 0 then vma.vmFlags ||| vmPrivateShare else vma.vmFlags

/-- A turn of the loop of `mmap_copy_mm`. -/
def copyVma (b : Board) (vma : Vma) (s : Space) : Option (Bool × Space) :=
  match s.mmapGetVmapArea b vma.vmStart (sub64 vma.vmEnd vma.vmStart) (copyFlags vma) 0 with
  | (none, s) => some (false, s)
  | (some new, s) =>
    if new.nrPages ≠ vma.nrPages then none
    else
      (s.vmapPageRange new).bind fun r =>
        if r.1 ≤ 0 then (r.2.mmapFreeVmapArea vma.vmStart).map (false, ·) else some (true, r.2)

/-- `mmap_copy_mm` from the turn on in which `i` VMAs are copied. -/
def mmapCopyMm (b : Board) (i : Nat) : List Vma → Space → Option (Int × Space)
  | [], s => some (0, s)
  | vma :: rest, s =>
    (copyVma b vma s).bind fun r =>
      if r.1 then mmapCopyMm b (i + 1) rest r.2
      -- `BUG_ON(j != i)`
      else if r.2.mm.vmas.length ≠ i then none
      else r.2.mmapDestroyMm.map (-enomem, ·)

/-- `*stack_top` after the loop. -/
def stackTop (uninit : Nat) (vmas : List Vma) : Nat :=
  vmas.foldl (fun top v => if v.vmFlags &&& vmUserStack = 0 then top else v.vmEnd) uninit

def pfKthread : BitVec 64 := 0x10

/-- The `mm_struct` for `task_create_tsk`. -/
def taskCreateMm (cloneFlags : BitVec 64) (initMm : MmStruct) (m : Mem) : Option MmStruct × Mem :=
  match m.kmalloc with
  | (false, m) => (none, m)
  | (true, m) => if cloneFlags &&& pfKthread = 0 then mmapAllocMmStruct m else (some initMm, m)

/-- The task that `do_fork` has made. -/
structure Child where
  pid : Nat
  mm : MmStruct
  regs : PtRegs

/-- `start_thread` and the two registers that `do_fork` sets. -/
def childRegs (ventry varg returnFn sp : Nat) : PtRegs :=
  { startThread ventry sp with
    regs := Function.update (Function.update (fun _ => 0) 0 (BitVec.ofNat 64 varg)) 30
      (BitVec.ofNat 64 returnFn) }

/-- `do_fork` of a task with the `mm_struct` `current`. `pid` is the answer of `pid_alloc_pid`,
and `uninit` the value of `stack_top` before it is set. -/
def doFork (b : Board) (ventry varg : Nat) (cloneFlags : BitVec 64) (returnFn : Nat)
    (pid : Option Nat) (uninit : Nat) (current initMm : MmStruct) (m : Mem) :
    Option (Except Int Child × Mem) :=
  if badAddr ventry ∨ badAddr varg ∨ badAddr returnFn then some (.error (-einval), m)
  else
    match taskCreateMm cloneFlags initMm m with
    | (none, m) => some (.error (-enomem), m)
    | (some mm, m) =>
      -- `task_destroy_tsk`
      let destroy (s : Space) := s.mmapFreeMmStruct.map fun m => (Except.error (-einval), m)
      match pid with
      | none => destroy ⟨m, mm⟩
      | some pid =>
        match m.kmalloc with
        | (false, m) => destroy ⟨m, mm⟩
        | (true, m) =>
          (mmapCopyMm b 0 current.vmas ⟨m, mm⟩).bind fun r =>
            if r.1 ≠ 0 then destroy r.2
            else
              let sp := stackTop uninit current.vmas
              some (.ok ⟨pid, r.2.mm, childRegs ventry varg returnFn sp⟩, r.2.mem)

/-! ## What a child should be -/

/-- `system_brk` for one message after the other. -/
def brkRun (b : Board) : List BrkMsg → Space → Option Space
  | [], s => some s
  | msg :: msgs, s => (systemBrk b s msg).bind fun r => brkRun b msgs r.2

/-- The range of a VMA, and its flags apart from the sharing flag. -/
def area (v : Vma) : Nat × Nat × BitVec 64 :=
  (v.vmStart, v.vmEnd, v.vmFlags &&& ~~~ vmPrivateShare)

/-- The child with `mm` in `m'` is a copy of the `parent` in `m`. -/
structure Forked (b : Board) (parent : MmStruct) (m : Mem) (mm : MmStruct) (m' : Mem) :
    Prop where
  areas : mm.vmas.map area = parent.vmas.map area
  /-- A page that is not of a stack is the page of the parent. -/
  shared : ∀ v ∈ mm.vmas, v.vmFlags &&& vmUserStack = 0 → ∀ a, v.vmStart ≤ a → a < v.vmEnd →
    ∃ e e', Space.translate ⟨m', mm⟩ a = some e ∧ Space.translate ⟨m', parent⟩ a = some e' ∧
      e.page = e'.page
  /-- The pages outlive the parent. -/
  kept : ∀ m'', destroySpace ⟨m', parent⟩ = some m'' → ∀ v ∈ mm.vmas,
    v.vmFlags &&& vmUserStack = 0 → ∀ p, some p ∈ v.pages → m''.ref p ≠ 0
  fresh : ∀ v ∈ mm.vmas, v.vmFlags &&& vmUserStack ≠ 0 → ∀ p, some p ∈ v.pages → m.ref p = 0
  startBrk : mm.startBrk = parent.startBrk
  brk : mm.brk = parent.brk
  mmapBase : mm.mmapBase = parent.mmapBase
  noBug : ∀ msgs, brkRun b msgs ⟨m', mm⟩ ≠ none

/-! ## What a child is -/

def lowFrames (nr : Nat) : List (Option Page) := (range nr).map some

/-- `w` is the VMA of a child for `v`. -/
structure Copied (v w : Vma) : Prop where
  area : area w = area v
  start : w.vmStart ≠ 0
  stop : w.vmEnd < 2 ^ 64
  low : v.vmFlags &&& vmUserStack = 0 → v.vmFlags &&& vmIoremap = 0 → w.pages = lowFrames w.nrPages

section Copy

variable {b : Board} {u v w : Vma} {s s' s'' : Space} {l vs : List Vma} {vstart size phys : Nat}
  {flags : BitVec 64}

theorem u64_lt (n : Nat) : u64 n < 2 ^ 64 := Nat.mod_lt _ (by decide)

theorem copyFlags_and {x : BitVec 64} (hx : vmPrivateShare &&& x = 0) (v : Vma) :
    copyFlags v &&& x = v.vmFlags &&& x := by
  unfold copyFlags
  split_ifs
  · rw [BitVec.and_comm, BitVec.and_or_distrib_left, BitVec.and_comm x vmPrivateShare, hx,
      BitVec.ofNat_eq_ofNat, BitVec.or_zero, BitVec.and_comm]
  · rfl

theorem copyFlags_shared (h : v.vmFlags &&& vmUserStack = 0) :
    copyFlags v &&& vmPrivateShare ≠ 0 := by
  have hcopy : copyFlags v &&& vmPrivateShare = vmPrivateShare := by
    rw [copyFlags, if_pos h]
    ext i
    simp only [BitVec.getElem_and, BitVec.getElem_or]
    cases v.vmFlags[i] <;> simp
  rw [hcopy]
  decide

theorem lowFrames_of_physPages {nr : Nat} {ps : List (Option Page)}
    (h : physPages b nr 0 = some ps) : ps = lowFrames nr := by
  simp only [physPages, Nat.zero_mod, ne_eq, not_true_eq_false, if_false] at h
  split_ifs at h
  simp_all [lowFrames]

/-- Two lists of VMAs that differ in the tables that the VMAs hold. -/
def SameButRoot (l l' : List Vma) : Prop :=
  List.Forall₂ (fun v w => { v with root := w.root } = w) l l'

theorem sameButRoot_finish (s : Space) (v : Vma) (w : Work) :
    SameButRoot s.mm.vmas (s.finish v w).mm.vmas := by
  refine forall₂_map_right_iff.mpr (forall₂_same.mpr fun u _ => ?_)
  split_ifs <;> rfl

theorem copyVma_true (h : copyVma b v s = some (true, s')) :
    ∃ w vmas, (v.vmStart ≤ v.vmEnd → v.vmEnd < 2 ^ 64 → Copied v w) ∧
      insertVmaArea w s.mm.vmas = some vmas ∧ SameButRoot vmas s'.mm.vmas ∧
      ∃ bytes, s'.mm = { s.mm with vmas := s'.mm.vmas, pgtablesBytes := bytes } := by
  unfold copyVma at h
  split at h
  · cases h
  rename_i w s1 hget
  split at h
  · cases h
  obtain ⟨r, hmap, h⟩ := bind_eq_some_iff.mp h
  split at h
  · obtain ⟨_, -, h⟩ := map_eq_some_iff.mp h
    cases h
  cases h
  obtain ⟨r', -, rfl⟩ := map_eq_some_iff.mp hmap
  obtain ⟨hstart, ⟨-, -, -, hne⟩, hstop, hflags, hpages, hins, hmm⟩ := mmapGetVmapArea_some hget
  refine ⟨w, _, fun hv hend => ⟨?_, hstart ▸ hne, hstop ▸ u64_lt _, fun hstack hio => ?_⟩, hins,
    sameButRoot_finish s1 w r'.2, r'.2.pgtablesBytes, ?_⟩
  · have hsize : u64 (v.vmStart + sub64 v.vmEnd v.vmStart) = v.vmEnd := by
      unfold u64 sub64 u64
      omega
    rw [area, hstart, hstop, hsize, hflags, copyFlags_and (by decide), area]
  · have hps := lowFrames_of_physPages
      (hpages (copyFlags_shared hstack) ((copyFlags_and (by decide) v).trans hio))
    rw [Vma.nrPages, hps, lowFrames, length_map, length_range, lowFrames]
  · rw [Space.finish, hmm]

theorem insertVmaArea_last (h : ∀ u ∈ l, u.vmEnd ≤ v.vmStart ∧ u.vmStart < v.vmEnd) :
    insertVmaArea v l = some (l ++ [v]) := by
  induction l with
  | nil => rfl
  | cons u l ih =>
    obtain ⟨h1, h2⟩ := h u (by simp)
    rw [insertVmaArea, if_neg (by omega), if_pos h1, ih fun u hu => h u (by simp [hu])]
    rfl

/-- The VMAs lie in order and do not wrap around. -/
structure InOrder (vs : List Vma) : Prop where
  pairwise : vs.Pairwise fun u v => u.vmEnd ≤ v.vmStart
  sized : ∀ v ∈ vs, v.vmStart < v.vmEnd ∧ v.vmEnd < 2 ^ 64

theorem SpaceRep.inOrder {m : Mem} {mm : MmStruct} {P : Nat → Nat → Option Page}
    {L : Nat → Option Entry} (h : SpaceRep m mm P L) : InOrder mm.vmas :=
  ⟨h.ordered, fun v hv => ⟨(h.sized v hv).1.lt, (h.sized v hv).2.trans_lt (by decide)⟩⟩

theorem Copied.setRoot (h : Copied v w) (r : Nat → Finset Page) : Copied v { w with root := r } :=
  ⟨h.area, h.start, h.stop, h.low⟩

theorem Copied.range (h : Copied v w) : w.vmStart = v.vmStart ∧ w.vmEnd = v.vmEnd := by
  have h := h.area
  simp only [System.area, Prod.mk.injEq] at h
  exact ⟨h.1, h.2.1⟩

theorem exists_copied (h : List.Forall₂ Copied vs l) (hw : w ∈ l) : ∃ v ∈ vs, Copied v w := by
  induction h with
  | nil => cases hw
  | cons hv _ ih =>
    rcases mem_cons.mp hw with rfl | hw
    · exact ⟨_, by simp, hv⟩
    · obtain ⟨v, hmem, hv⟩ := ih hw
      exact ⟨v, by simp [hmem], hv⟩

theorem forall₂_setRoot (h : List.Forall₂ Copied vs l) {l' : List Vma} (hl : SameButRoot l l') :
    List.Forall₂ Copied vs l' := by
  induction hl generalizing vs with
  | nil => exact h
  | cons hw _ ih =>
    cases h with
    | cons hv h => exact .cons (hw ▸ hv.setRoot _) (ih h)

variable {done : List Vma}

theorem copyVma_append (h : copyVma b v s = some (true, s'))
    (hs : List.Forall₂ Copied done s.mm.vmas) (hord : InOrder (done ++ [v])) :
    List.Forall₂ Copied (done ++ [v]) s'.mm.vmas := by
  obtain ⟨w, vmas, hw, hins, hsame, -⟩ := copyVma_true h
  obtain ⟨hlt, hend⟩ := hord.sized v (by simp)
  have hw := hw hlt.le hend
  rw [insertVmaArea_last fun u hu => ?_] at hins
  · cases hins
    exact forall₂_setRoot (rel_append hs (.cons hw .nil)) hsame
  · obtain ⟨u0, hu0, hcopy⟩ := exists_copied hs hu
    have hbefore := (pairwise_append.mp hord.pairwise).2.2 u0 hu0 v (by simp)
    have hu0 := (hord.sized u0 (by simp [hu0])).1
    rw [hcopy.range.1, hcopy.range.2, hw.range.1, hw.range.2]
    omega

variable {i : Nat}

theorem mmapCopyMm_cons (h : mmapCopyMm b i (v :: vs) s = some (0, s')) :
    ∃ s1, copyVma b v s = some (true, s1) ∧ mmapCopyMm b (i + 1) vs s1 = some (0, s') := by
  obtain ⟨⟨ok, s1⟩, hv, h⟩ := bind_eq_some_iff.mp h
  cases ok with
  | false =>
    simp only [Bool.false_eq_true, if_false] at h
    split_ifs at h
    obtain ⟨_, -, h⟩ := map_eq_some_iff.mp h
    cases h
  | true => exact ⟨s1, hv, h⟩

theorem mmapCopyMm_vmas (h : mmapCopyMm b i vs s = some (0, s'))
    (hs : List.Forall₂ Copied done s.mm.vmas) (hord : InOrder (done ++ vs)) :
    List.Forall₂ Copied (done ++ vs) s'.mm.vmas := by
  induction vs generalizing done i s with
  | nil =>
    cases h
    rwa [append_nil]
  | cons v vs ih =>
    obtain ⟨s1, hv, h⟩ := mmapCopyMm_cons h
    rw [append_cons] at hord ⊢
    refine ih h (copyVma_append hv hs ⟨?_, ?_⟩) hord
    · exact hord.pairwise.sublist (sublist_append_left _ _)
    · exact fun u hu => hord.sized u (mem_append_left _ hu)

theorem mmapCopyMm_mm (h : mmapCopyMm b i vs s = some (0, s')) :
    ∃ bytes, s'.mm = { s.mm with vmas := s'.mm.vmas, pgtablesBytes := bytes } := by
  induction vs generalizing i s with
  | nil =>
    cases h
    exact ⟨_, rfl⟩
  | cons v vs ih =>
    obtain ⟨s1, hv, h⟩ := mmapCopyMm_cons h
    obtain ⟨-, -, -, -, -, bytes, hmm⟩ := copyVma_true hv
    obtain ⟨bytes', hmm'⟩ := ih h
    exact ⟨bytes', by rw [hmm', hmm]⟩

theorem findVmaArea_zero (h : ∀ v ∈ l, v.vmStart ≠ 0) : findVmaArea 0 l = none := by
  cases l with
  | nil => rfl
  | cons v => rw [findVmaArea, if_pos (Nat.pos_of_ne_zero (h v (by simp)))]

theorem findVmaArea_max (h : ∀ v ∈ l, v.vmEnd < 2 ^ 64) : findVmaArea (2 ^ 64 - 1) l = none := by
  induction l with
  | nil => rfl
  | cons v l ih =>
    have hv := h v (by simp)
    rw [findVmaArea]
    split_ifs
    · rfl
    · exact ih fun u hu => h u (by simp [hu])
    · omega

theorem systemSbrk_one (hbrk : s.mm.brk = 0) (hbase : 1 < s.mm.mmapBase)
    (hvs : ∀ v ∈ s.mm.vmas, v.vmStart ≠ 0 ∧ v.vmEnd < 2 ^ 64) : systemBrk b s (.sbrk 1) = none := by
  have hnew : u64 (s.mm.brk + (1 : BitVec 64).toNat) = 1 := by rw [hbrk]; rfl
  have hzero : s.mmapFindVmaArea (sub64 1 1) = none := findVmaArea_zero fun v hv => (hvs v hv).1
  have hmax : s.mmapFindVmaArea (sub64 0 1) = none := findVmaArea_max fun v hv => (hvs v hv).2
  rw [systemBrk, systemSbrk, if_neg (by decide), if_neg (by decide)]
  simp only [hnew]
  rw [if_neg (by omega), hzero]
  simp only [growHeap, hbrk, hmax]

theorem doFork_ok {ventry varg returnFn uninit : Nat} {cloneFlags : BitVec 64} {pid : Option Nat}
    {parent initMm : MmStruct} {m m' : Mem} {child : Child}
    (h : doFork b ventry varg cloneFlags returnFn pid uninit parent initMm m =
      some (.ok child, m')) : ∃ mm m1 m2, taskCreateMm cloneFlags initMm m = (some mm, m1) ∧
      mmapCopyMm b 0 parent.vmas ⟨m2, mm⟩ = some (0, ⟨m', child.mm⟩) := by
  unfold doFork at h
  split at h
  · cases h
  split at h
  · cases h
  rename_i mm m1 hmm
  simp only at h
  split at h
  · obtain ⟨_, -, h⟩ := map_eq_some_iff.mp h
    cases h
  split at h
  · obtain ⟨_, -, h⟩ := map_eq_some_iff.mp h
    cases h
  rename_i m2 _
  obtain ⟨⟨ret, s⟩, hcopy, h⟩ := bind_eq_some_iff.mp h
  split at h
  · obtain ⟨_, -, h⟩ := map_eq_some_iff.mp h
    cases h
  rename_i hret
  have hret : ret = 0 := not_not.mp hret
  subst hret
  cases h
  exact ⟨mm, m1, m2, hmm, hcopy⟩

/-- A child is never as it should be. A user task has the break 0 and `mmap_base` at `USER_DS`,
and its first `SBRK` fails a `BUG_ON`; a kernel thread has the `mmap_base` of `init_mm`. -/
theorem fork_not_forked {ventry varg returnFn uninit : Nat} {cloneFlags : BitVec 64}
    {pid : Option Nat} {parent initMm : MmStruct} {m m' : Mem} {child : Child}
    (hvs : InOrder parent.vmas) (hbase : parent.mmapBase ≠ 0) (hinit : initMm.mmapBase = 0)
    (h : doFork b ventry varg cloneFlags returnFn pid uninit parent initMm m =
      some (.ok child, m')) : ¬ Forked b parent m child.mm m' := by
  intro hf
  obtain ⟨mm, m1, m2, hmm, hcopy⟩ := doFork_ok h
  obtain ⟨bytes, hchild⟩ := mmapCopyMm_mm hcopy
  have hmmap : child.mm.mmapBase = mm.mmapBase := congrArg (·.mmapBase) hchild
  have hbrk : child.mm.brk = mm.brk := congrArg (·.brk) hchild
  unfold taskCreateMm at hmm
  split at hmm
  · cases hmm
  split at hmm
  · have hnew := mmapAllocMmStruct_some hmm
    have hstart : List.Forall₂ Copied [] mm.vmas := by
      rw [hnew.vmas]
      exact .nil
    have hcopies := mmapCopyMm_vmas hcopy hstart hvs
    refine hf.noBug [.sbrk 1] ?_
    have hbug := systemSbrk_one (b := b) (s := ⟨m', child.mm⟩) (hbrk.trans hnew.brk)
      (by rw [hmmap, hnew.base]; decide) fun v hv => ?_
    rw [brkRun, hbug]
    · rfl
    · obtain ⟨_, -, hv⟩ := exists_copied hcopies hv
      exact ⟨hv.start, hv.stop⟩
  · cases hmm
    apply hbase
    rw [← hf.mmapBase, hmmap, hinit]

end Copy

/-! ## A parent with a page of data and a stack -/

def parentActs : List Act :=
  [.supply (replicate 30 true) ((range' 5 20).map some) [], .mmapAllocMmStruct 0,
    .op 0 (.mmapGetVmapArea 0x1000 0x1000 (vmRead ||| vmWrite) 0), .op 0 (.vmapPageRange 0x1000),
    .op 0 (.mmapGetVmapArea 0x3000 0x1000 (vmRead ||| vmWrite ||| vmUserStack) 0),
    .op 0 (.vmapPageRange 0x3000)]

/-- The fork of this parent, with the page frames at 0x1000 of the child and of the parent. -/
def parentFork (k : Spaces) (mm : MmStruct) : Option (Child × Mem × Page × Page) :=
  (doFork plainBoard 0x1000 0 0 0x1000 (some 2) 0 mm (plainMm 0) k.mem).bind fun r =>
    match r with
    | (.error _, _) => none
    | (.ok child, m) =>
      (Space.translate ⟨m, child.mm⟩ 0x1000).bind fun e =>
        (Space.translate ⟨m, mm⟩ 0x1000).map fun e' => (child, m, e.page, e'.page)

variable {k : Spaces}

theorem parentFork_some {mm : MmStruct} {child : Child} {m : Mem} {p p' : Page}
    (h : parentFork k mm = some (child, m, p, p')) :
    doFork plainBoard 0x1000 0 0 0x1000 (some 2) 0 mm (plainMm 0) k.mem = some (.ok child, m) ∧
      (Space.translate ⟨m, child.mm⟩ 0x1000).map (·.page) = some p ∧
      (Space.translate ⟨m, mm⟩ 0x1000).map (·.page) = some p' := by
  obtain ⟨⟨r, m'⟩, hr, h⟩ := bind_eq_some_iff.mp h
  cases r with
  | error => cases h
  | ok =>
    obtain ⟨e, he, h⟩ := bind_eq_some_iff.mp h
    obtain ⟨e', he', h⟩ := map_eq_some_iff.mp h
    cases h
    exact ⟨hr, by rw [he]; rfl, by rw [he']; rfl⟩

theorem parentFork_run : ∃ k mm child m,
    (machine plainBoard).run ⟨emptyMem, fun _ => none⟩ parentActs = some k ∧ k.mm 0 = some mm ∧
      mm.mmapBase ≠ 0 ∧ (∃ v ∈ child.mm.vmas, v.vmStart = 0x1000 ∧ v.vmEnd = 0x2000 ∧
        v.vmFlags &&& vmUserStack = 0) ∧ parentFork k mm = some (child, m, 0, 6) := by
  have hval : ((machine plainBoard).run ⟨emptyMem, fun _ => none⟩ parentActs).bind (fun k =>
      (k.mm 0).bind fun mm => (parentFork k mm).map fun r => (r.2.2, decide (mm.mmapBase ≠ 0),
        decide (∃ v ∈ r.1.mm.vmas, v.vmStart = 0x1000 ∧ v.vmEnd = 0x2000 ∧
          v.vmFlags &&& vmUserStack = 0))) = some ((0, 6), true, true) := by
    decide
  obtain ⟨k, hk, hval⟩ := bind_eq_some_iff.mp hval
  obtain ⟨mm, hmm, hval⟩ := bind_eq_some_iff.mp hval
  obtain ⟨⟨child, m, p, p'⟩, hfork, hval⟩ := map_eq_some_iff.mp hval
  simp only [Prod.mk.injEq, decide_eq_true_eq] at hval
  obtain ⟨⟨rfl, rfl⟩, hbase, hv⟩ := hval
  exact ⟨k, mm, child, m, hk, hmm, hbase, hv, hfork⟩

theorem parentActs_reach
    (hk : (machine plainBoard).run ⟨emptyMem, fun _ => none⟩ parentActs = some k) :
    (machine plainBoard).Reach (fun _ a => a.below = true) k :=
  Machine.reach_of_run (.init fun _ => rfl) (by decide) hk

/-- The child of this parent. -/
theorem fork_not_forked_data : ∃ k mm child m,
    (machine plainBoard).run ⟨emptyMem, fun _ => none⟩ parentActs = some k ∧ k.mm 0 = some mm ∧
      doFork plainBoard 0x1000 0 0 0x1000 (some 2) 0 mm (plainMm 0) k.mem = some (.ok child, m) ∧
      ¬ Forked plainBoard mm k.mem child.mm m := by
  obtain ⟨k, mm, child, m, hk, hmm, hbase, -, hfork⟩ := parentFork_run
  obtain ⟨P, L, hinv⟩ := Spaces.Inv.of_reach (fun _ _ h => h) (parentActs_reach hk)
  have hfork := (parentFork_some hfork).1
  exact ⟨k, mm, child, m, hk, hmm, hfork,
    fork_not_forked (SpaceRep.inOrder (hinv.ok hmm).rep) hbase rfl hfork⟩

/-- The page frame that the child maps is not the page of the parent. -/
theorem fork_wrong_page : ¬ ∀ k mm child m, (machine plainBoard).Reach (fun _ a => a.below = true) k →
    k.mm 0 = some mm →
    doFork plainBoard 0x1000 0 0 0x1000 (some 2) 0 mm (plainMm 0) k.mem = some (.ok child, m) →
    Forked plainBoard mm k.mem child.mm m := by
  intro h
  obtain ⟨k, mm, child, m, hk, hmm, -, ⟨v, hv, hstart, hstop, hstack⟩, hfork⟩ := parentFork_run
  obtain ⟨hfork, hpage, hpage'⟩ := parentFork_some hfork
  obtain ⟨e, e', he, he', heq⟩ := (h k mm child m (parentActs_reach hk) hmm hfork).shared v hv hstack
    0x1000 hstart.le (by rw [hstop]; decide)
  rw [he] at hpage
  rw [he'] at hpage'
  rw [Option.map_some, heq] at hpage
  cases hpage.symm.trans hpage'

end MinixRt.System
