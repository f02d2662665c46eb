import MinixRt.System.Image

/-!
# The heap over a run

The loaders put the break behind the last segment, and every `SBRK` and `BRK` moves it.
`HeapInv` is kept by each of them: the VMAs up to the break follow each other without a gap, and
between the one that contains the byte below the break and `mmap_base` there is no VMA. A VMA
that ends at `mmap_base` is taken for the stack when the break is lowered, and stays.
-/

namespace MinixRt.System

open List Lib Mm

variable {P : Nat → Nat → Option Page} {L : Nat → Option Entry}

/-! ## Runs -/

/-- An address space as the loaders leave it. With `small`, the strings of the program fit into
their page and its segments are shorter than 2^44 bytes. -/
inductive Loaded (b : Board) (small : Prop) : Space → Prop
  | service {type : ServiceType} {file : Nat → Byte} {initMm : MmStruct} {m : Mem} {s : Space} :
      serviceCoreInit b type file initMm m = some s → Loaded b small s
  | exec {outside behind : Nat → Byte} {read : Reader} {addr : Nat} {i : MmId} {k : Kernel}
      {bprm : Binprm} {xs : List Byte} {d : Done} {mm : MmStruct} : k.Ok → k.mm i = none →
      VfsExec b outside behind read addr i k bprm xs d →
      (small → ExecSmall outside read bprm (elfLoads (bufByte xs behind))) →
      d.kernel.mm i = some mm → Loaded b small ⟨d.kernel.mem, mm⟩

inductive HeapAct
  /-- What the allocators will answer. -/
  | supply (kmallocs : List Bool) (freePages beyond : List (Option Page))
  | msg (m : BrkMsg)

def heapStep (b : Board) (s : Space) : HeapAct → Option Space
  | .supply kmallocs freePages beyond =>
    some { s with mem := { s.mem with kmallocs, freePages, beyond } }
  | .msg m => (systemBrk b s m).map (·.2)

def heapMachine (b : Board) (init : Space → Prop) : Machine Space HeapAct where
  init := init
  step := heapStep b

/-! ## What should hold -/

def IsHeap (mm : MmStruct) (v : Vma) : Prop := mm.startBrk ≤ v.vmStart ∧ v.vmEnd ≤ mm.mmapBase

structure HeapOk (s : Space) : Prop where
  bounds : s.mm.startBrk ≤ s.mm.brk ∧ s.mm.brk < s.mm.mmapBase
  mapped : ∀ a, s.mm.startBrk ≤ a → a < pageAlign s.mm.brk →
    (∃ v ∈ s.mm.vmas, IsHeap s.mm v ∧ v.vmStart ≤ a ∧ a < v.vmEnd) ∧ s.translate a ≠ none
  last : ∃ w, s.mmapFindVmaArea (s.mm.brk - 1) = some w ∧
    ∀ v ∈ s.mm.vmas, IsHeap s.mm v → ¬ w.vmEnd ≤ v.vmStart

/-- The message is answered, and an error leaves the heap as it is. -/
def Served (b : Board) (s : Space) (msg : BrkMsg) : Prop :=
  ∃ r s', systemBrk b s msg = some (r, s') ∧
    (r.retval ≠ 0 → s'.mm.brk = s.mm.brk ∧ s'.mm.vmas = s.mm.vmas)

/-! ## When it holds -/

/-- How many bytes are missing for the break `new`. -/
def growth (s : Space) (new : Nat) : Nat :=
  (s.mmapFindVmaArea (s.mm.brk - 1)).elim 0 fun w => pageAlign new - w.vmEnd

/-- The heap does not grow by a multiple of 2^32 pages. -/
def raiseFits (s : Space) (new : Nat) : Bool :=
  new < s.mm.mmapBase → growth s new = 0 ∨ growth s new % 2 ^ 44 ≠ 0

/-- No VMA from the new break on ends at `mmap_base`. -/
def lowerFits (s : Space) (new : Nat) : Bool :=
  ∀ v ∈ s.mm.vmas, v.vmEnd = s.mm.mmapBase → v.vmStart < new

def BrkMsg.fits (s : Space) : BrkMsg → Bool
  | .sbrk increment => raiseFits s (s.mm.brk + increment.toNat)
  | .brk addr =>
    if s.mm.brk ≤ addr.toNat then raiseFits s addr.toNat
    else s.mm.startBrk ≤ addr.toNat → lowerFits s addr.toNat

def HeapAct.fits (s : Space) : HeapAct → Bool
  | .supply .. => true
  | .msg m => m.fits s

/-! ## The invariant -/

structure HeapInv (s : Space) : Prop where
  ok : ∃ P L, SpaceOk s P L
  mapped : ∀ v ∈ s.mm.vmas, v.IsMapped
  pos : 0 < s.mm.startBrk
  le : s.mm.startBrk ≤ s.mm.brk
  lt : s.mm.brk < s.mm.mmapBase
  aligned : s.mm.mmapBase % pageSize = 0
  below : s.mm.mmapBase ≤ taskSize
  first : ∃ v ∈ s.mm.vmas, v.vmEnd = s.mm.startBrk
  side : ∀ v ∈ s.mm.vmas, v.vmEnd ≤ s.mm.mmapBase ∨ s.mm.mmapBase ≤ v.vmStart
  covered : ∀ a, s.mm.startBrk ≤ a → a < s.mm.brk → ∃ v ∈ s.mm.vmas, v.vmStart ≤ a ∧ a < v.vmEnd
  last : ∀ v ∈ s.mm.vmas, v.vmStart < s.mm.mmapBase → v.vmStart < s.mm.brk

section Heap

variable {b : Board} {s s' : Space} {u v w : Vma} {new : Nat}

theorem SpaceRep.separate {m : Mem} {mm : MmStruct} (h : SpaceRep m mm P L) (hu : u ∈ mm.vmas) (hv : v ∈ mm.vmas) :
    u = v ∨ u.vmEnd ≤ v.vmStart ∨ v.vmEnd ≤ u.vmStart := by
  obtain ⟨l1, l2, ha⟩ := h.among hv
  rw [ha.eq, mem_append, mem_cons] at hu
  rcases hu with hu | rfl | hu
  · exact .inr (.inl (ha.before u hu))
  · exact .inl rfl
  · exact .inr (.inr (ha.after u hu))

theorem pageAlign_sub {n x : Nat} (hx : x % pageSize = 0) (hle : x ≤ n) (hn : n < 2 ^ 63) :
    x + pageAlign (n - x) = pageAlign n := by
  unfold pageAlign u64 pageSize at *
  omega

variable {base : Nat}

theorem le_of_mem_dropWhile {l : List Vma} (ho : l.Pairwise fun u v => u.vmEnd ≤ v.vmStart)
    (hsz : ∀ v ∈ l, v.vmStart < v.vmEnd) (hside : ∀ v ∈ l, v.vmEnd < base ∨ base ≤ v.vmStart) :
    ∀ u ∈ l.dropWhile fun v => v.vmEnd < base, base ≤ u.vmStart := by
  induction l with
  | nil => exact nofun
  | cons v l ih =>
    rw [pairwise_cons] at ho
    intro u hu
    rw [dropWhile_cons] at hu
    split_ifs at hu with hv
    · exact ih ho.2 (fun x hx => hsz x (by simp [hx])) (fun x hx => hside x (by simp [hx])) u hu
    · have hstart := (hside v (by simp)).resolve_left (by simpa using hv)
      rcases mem_cons.mp hu with rfl | hu
      · exact hstart
      · exact hstart.trans ((hsz v (by simp)).le.trans (ho.1 u hu))

/-- The call answers and keeps the invariant, and an error leaves the heap as it is. -/
def Answered (s : Space) (res : Option (BrkReply × Space)) : Prop :=
  ∃ r s', res = some (r, s') ∧ HeapInv s' ∧
    (r.retval ≠ 0 → s'.mm.brk = s.mm.brk ∧ s'.mm.vmas = s.mm.vmas)

section HeapInv

variable (h : HeapInv s)
include h

theorem HeapInv.refused (r : BrkReply) : Answered s (some (r, s)) :=
  ⟨r, s, rfl, h, fun _ => ⟨rfl, rfl⟩⟩

/-- The address `a` lies in a VMA up to the one that contains the byte below the break. -/
theorem HeapInv.find (ha : s.mm.startBrk ≤ new) (hlt : new ≤ s.mm.brk) :
    ∃ w ∈ s.mm.vmas, s.mmapFindVmaArea (new - 1) = some w ∧ w.vmStart < new ∧ new ≤ w.vmEnd ∧
      w.vmEnd ≤ s.mm.mmapBase := by
  obtain ⟨P, L, hok⟩ := h.ok
  have hpos := h.pos
  have hbase := h.lt
  have hw : ∃ w ∈ s.mm.vmas, w.vmStart ≤ new - 1 ∧ new - 1 < w.vmEnd := by
    rcases Nat.eq_or_lt_of_le ha with heq | hlt'
    · obtain ⟨w, hw, hend⟩ := h.first
      have := (hok.rep.sized w hw).1.lt
      exact ⟨w, hw, by omega, by omega⟩
    · exact h.covered (new - 1) (by omega) (by omega)
  obtain ⟨w, hw, h1, h2⟩ := hw
  have hside := h.side w hw
  exact ⟨w, hw, hok.rep.find_eq hw h1 h2, by omega, by omega, by omega⟩

theorem HeapInv.congr (hok : SpaceOk s' P L)
    (hmm : ∃ bytes, s'.mm = { s.mm with pgtablesBytes := bytes }) :
    HeapInv s' := by
  obtain ⟨bytes, hmm⟩ := hmm
  refine ⟨⟨P, L, hok⟩, ?_, ?_, ?_, ?_, ?_, ?_, ?_, ?_, ?_, ?_⟩ <;> simp only [hmm]
  exacts [h.mapped, h.pos, h.le, h.lt, h.aligned, h.below, h.first, h.side, h.covered, h.last]

theorem HeapInv.sub_one (hpos : 0 < new) (hlt : new < s.mm.mmapBase) : sub64 new 1 = new - 1 := by
  have hbelow := h.below
  unfold taskSize at hbelow
  exact sub64_of_le hpos (by omega)

section Raise

variable (hnew : s.mm.brk < new) (hbase : new < s.mm.mmapBase)
include hnew hbase

theorem HeapInv.raise (hv : s.mmapFindVmaArea (new - 1) = some v) : HeapInv (setBrk s new) := by
  obtain ⟨P, L, hok⟩ := h.ok
  obtain ⟨hmem, h1, h2⟩ := findVmaArea_some hv
  have hlast := h.last v hmem (by omega)
  refine ⟨⟨P, L, SpaceOk.congr hok ⟨rfl, rfl, rfl, rfl, rfl, rfl⟩⟩, h.mapped, h.pos, h.le.trans hnew.le, hbase,
    h.aligned, h.below, h.first, h.side, fun a ha hlt => ?_, fun u hu hlt =>
      (h.last u hu hlt).trans hnew⟩
  by_cases hbrk : a < s.mm.brk
  · exact h.covered a ha hbrk
  · have hlt : a < new := hlt
    exact ⟨v, hmem, by omega, by omega⟩

theorem HeapInv.range (hnone : s.mmapFindVmaArea (new - 1) = none) (hw : w ∈ s.mm.vmas)
    (hfind : s.mmapFindVmaArea (s.mm.brk - 1) = some w) (hfits : raiseFits s new = true) :
    ∃ size, pageAlign (sub64 new w.vmEnd) = size ∧ size ≠ 0 ∧ w.vmEnd < new ∧
      new ≤ w.vmEnd + size ∧ w.vmEnd + size ≤ s.mm.mmapBase ∧
      (size < pageSize ∨ size / pageSize % 2 ^ 32 ≠ 0) := by
  obtain ⟨P, L, hok⟩ := h.ok
  obtain ⟨-, h1, h2⟩ := findVmaArea_some hfind
  have hend : w.vmEnd < new := by
    by_contra hle
    rw [Space.mmapFindVmaArea, hok.rep.find_eq hw (a := new - 1) (by omega) (by omega)] at hnone
    cases hnone
  have hmod := Nat.mod_eq_zero_of_dvd (hok.rep.sized w hw).1.stop
  have hbelow := h.below
  have haligned := h.aligned
  unfold taskSize at hbelow
  have hsum := pageAlign_sub hmod hend.le (by omega)
  obtain ⟨h3, h4, h5⟩ := pageAlign_spec (n := new) (by omega)
  refine ⟨_, rfl, ?_⟩
  rw [sub64_of_le hend.le (by omega)]
  simp only [raiseFits, growth, hfind, Option.elim_some, decide_eq_true_eq, ← hsum] at hfits
  have hfits := hfits hbase
  generalize pageAlign (new - w.vmEnd) = size at *
  unfold pageSize at *
  omega

theorem HeapInv.extend {size : Nat} {fill : Vma → Data → Data}
    (hw : w ∈ s.mm.vmas) (hstart : w.vmStart < s.mm.brk) (hlt : w.vmEnd < new)
    (hle : new ≤ w.vmEnd + size) (hsize : w.vmEnd + size ≤ s.mm.mmapBase)
    (hm : MappedArea s w.vmEnd size heapFlags fill v s') (hok : SpaceOk s' P L) :
    HeapInv (setBrk s' new) := by
  obtain ⟨l1, l2, root, bytes, heq, hmapped, hmm⟩ := hm.mm
  have hmem : ∀ u, u ∈ s'.mm.vmas ↔ u = { v with root } ∨ u ∈ s.mm.vmas := fun u => by
    rw [hmm, heq]
    simp only [mem_append, mem_cons]
    tauto
  have hstartBrk : s'.mm.startBrk = s.mm.startBrk := by rw [hmm]
  have hmmapBase : s'.mm.mmapBase = s.mm.mmapBase := by rw [hmm]
  have hvstart : ({ v with root } : Vma).vmStart = w.vmEnd := hm.start
  have hvend : ({ v with root } : Vma).vmEnd = w.vmEnd + size := hm.stop
  refine ⟨⟨P, L, SpaceOk.congr hok ⟨rfl, rfl, rfl, rfl, rfl, rfl⟩⟩, ?_, ?_, ?_, ?_, ?_, ?_, ?_, ?_, ?_, ?_⟩
  all_goals simp only [setBrk, hstartBrk, hmmapBase, hmem]
  · rintro u (rfl | hu)
    · exact hmapped
    · exact h.mapped u hu
  · exact h.pos
  · exact h.le.trans hnew.le
  · exact hbase
  · exact h.aligned
  · exact h.below
  · obtain ⟨f, hf, hfend⟩ := h.first
    exact ⟨f, .inr hf, hfend⟩
  · rintro u (rfl | hu)
    · exact .inl (hvend.trans_le hsize)
    · exact h.side u hu
  · intro a ha ha'
    by_cases hbrk : a < s.mm.brk
    · obtain ⟨u, hu, hcov⟩ := h.covered a ha hbrk
      exact ⟨u, .inr hu, hcov⟩
    · by_cases hwend : a < w.vmEnd
      · exact ⟨w, .inr hw, by omega, hwend⟩
      · exact ⟨_, .inl rfl, by omega, by omega⟩
  · rintro u (rfl | hu) hlt'
    · exact hvstart.trans_lt hlt
    · exact (h.last u hu hlt').trans hnew

end Raise

theorem HeapInv.growHeap (b : Board) (reply : Nat) (hnew : s.mm.brk < new)
    (hbase : new < s.mm.mmapBase) (hnone : s.mmapFindVmaArea (new - 1) = none)
    (hfits : raiseFits s new = true) : Answered s (growHeap b new reply s) := by
  obtain ⟨P, L, hok⟩ := h.ok
  obtain ⟨w, hw, hfind, hwstart, hwend, hwbase⟩ := h.find h.le le_rfl
  obtain ⟨size, hsize, hne, hlt, hle, hend, hnr⟩ := h.range hnew hbase hnone hw hfind hfits
  have hmod := Nat.mod_eq_zero_of_dvd (hok.rep.sized w hw).1.stop
  have hbelow := h.below
  have hsub := h.sub_one (h.pos.trans_le h.le) h.lt
  obtain ⟨res, s', P', L', hres, hok', -, hout, -⟩ := hok.mapArea b w.vmEnd size heapFlags 0
    (fun _ d => d) (hend.trans hbelow) (by decide) hnr
    fun _ _ _ _ => rfl
  simp only [System.growHeap, hsub, hfind, hmod, ne_eq, not_true_eq_false, if_false, hsize,
    brkMmapHeap, hres, Option.map_some]
  cases res with
  | noVma | noMap =>
    obtain ⟨bytes, hmm⟩ := hout
    exact ⟨_, s', rfl, h.congr hok' ⟨bytes, hmm⟩, fun _ => by rw [hmm]; exact ⟨rfl, rfl⟩⟩
  | mapped =>
    exact ⟨_, _, rfl, h.extend hnew hbase hw hwstart hlt hle hend hout hok',
      fun hr => absurd rfl hr⟩

theorem HeapInv.lower (hstart : s.mm.startBrk ≤ new) (hlt : new < s.mm.brk)
    (hfits : lowerFits s new = true) (hv : s.mmapFindVmaArea (new - 1) = some v) :
    ∃ s', Space.destroyVmas (nextVmas v s.mm) s = some s' ∧ HeapInv (setBrk s' new) := by
  obtain ⟨P, L, hok⟩ := h.ok
  obtain ⟨hmem, hv1, hv2⟩ := findVmaArea_some hv
  obtain ⟨l1, l2, ha⟩ := hok.rep.among hmem
  have hpos := h.pos
  have hvend : new ≤ v.vmEnd := by omega
  have hnext : nextVmas v s.mm = l2.takeWhile fun u => u.vmEnd < s.mm.mmapBase := by
    rw [nextVmas, SpaceRep.filter_start_lt hok.rep ha]
  have hsub2 : ∀ u ∈ l2, u ∈ s.mm.vmas := fun u hu => by rw [ha.eq]; simp [hu]
  have hdrop : ∀ u ∈ l2.dropWhile fun u => u.vmEnd < s.mm.mmapBase, s.mm.mmapBase ≤ u.vmStart := by
    have ho := hok.rep.ordered
    rw [ha.eq, pairwise_append, pairwise_cons] at ho
    refine le_of_mem_dropWhile ho.2.1.2 (fun u hu => (hok.rep.sized u (hsub2 u hu)).1.lt)
      fun u hu => ?_
    have hafter := ha.after u hu
    have hside := h.side u (hsub2 u hu)
    simp only [lowerFits, decide_eq_true_eq] at hfits
    have := hfits u (hsub2 u hu)
    omega
  obtain ⟨s', P', L', hres, hok', -, -, -, bytes, hmm⟩ := hok.destroyVmas (l1 ++ [v])
    (l2.dropWhile fun u => u.vmEnd < s.mm.mmapBase)
    (by rw [takeWhile_append_dropWhile, ha.eq]; simp)
    fun u hu => h.mapped u (hsub2 u ((takeWhile_sublist _).subset hu))
  -- what is left below `mmap_base` ends at `v`
  have hleft : ∀ u, u ∈ s'.mm.vmas ↔ u ∈ l1 ∨ u = v ∨
      u ∈ l2.dropWhile fun u => u.vmEnd < s.mm.mmapBase := fun u => by
    rw [hmm]
    simp
  have hold : ∀ u ∈ s'.mm.vmas, u ∈ s.mm.vmas := fun u hu => by
    rcases (hleft u).mp hu with hu | rfl | hu
    · rw [ha.eq]
      simp [hu]
    · exact hmem
    · exact hsub2 u ((dropWhile_sublist _).subset hu)
  have hstay : ∀ u ∈ s.mm.vmas, u.vmStart < new → u ∈ s'.mm.vmas := fun u hu hlt => by
    rw [ha.eq, mem_append, mem_cons] at hu
    rcases hu with hu | rfl | hu
    · exact (hleft u).mpr (.inl hu)
    · exact (hleft u).mpr (.inr (.inl rfl))
    · have := ha.after u hu
      omega
  have hstartBrk : s'.mm.startBrk = s.mm.startBrk := by rw [hmm]
  have hmmapBase : s'.mm.mmapBase = s.mm.mmapBase := by rw [hmm]
  refine ⟨s', by rw [hnext, hres], ⟨P', L', SpaceOk.congr hok' ⟨rfl, rfl, rfl, rfl, rfl, rfl⟩⟩, ?_, ?_, ?_, ?_,
    ?_, ?_, ?_, ?_, ?_, ?_⟩
  all_goals simp only [setBrk, hstartBrk, hmmapBase]
  · exact fun u hu => h.mapped u (hold u hu)
  · exact hpos
  · exact hstart
  · exact hlt.trans h.lt
  · exact h.aligned
  · exact h.below
  · obtain ⟨f, hf, hfend⟩ := h.first
    have := (hok.rep.sized f hf).1.lt
    exact ⟨f, hstay f hf (by omega), hfend⟩
  · exact fun u hu => h.side u (hold u hu)
  · intro a ha ha'
    obtain ⟨u, hu, hu1, hu2⟩ := h.covered a ha (ha'.trans hlt)
    exact ⟨u, hstay u hu (by omega), hu1, hu2⟩
  · intro u hu hlt'
    rcases (hleft u).mp hu with hu | rfl | hu
    · have := ha.before u hu
      have := (hok.rep.sized u (by rw [ha.eq]; simp [hu])).1.lt
      omega
    · omega
    · have := hdrop u hu
      omega

/-! ## One message -/

theorem HeapInv.systemSbrk (b : Board) {increment : BitVec 64}
    (hfits : raiseFits s (s.mm.brk + increment.toNat) = true) :
    Answered s (systemSbrk b increment s) := by
  unfold System.systemSbrk
  split_ifs with hneg hzero
  · exact h.refused _
  · exact h.refused _
  have hbrk := h.lt
  have hbelow := h.below
  unfold taskSize at hbelow
  have hpos : 0 < increment.toNat := by
    refine Nat.pos_of_ne_zero fun h0 => hzero ?_
    exact BitVec.eq_of_toNat_eq h0
  have hinc : increment.toNat < 2 ^ 63 := by
    rw [BitVec.toInt_eq_toNat_cond] at hneg
    split_ifs at hneg <;> omega
  have hnew : u64 (s.mm.brk + increment.toNat) = s.mm.brk + increment.toNat :=
    Nat.mod_eq_of_lt (by omega)
  simp only [hnew]
  generalize hn : s.mm.brk + increment.toNat = new at *
  split_ifs with hbase
  · exact h.refused _
  have hbase := not_le.mp hbase
  rw [h.sub_one (by omega) hbase]
  cases hfind : s.mmapFindVmaArea (new - 1) with
  | some => exact ⟨_, _, rfl, h.raise (by omega) hbase hfind, fun hr => absurd rfl hr⟩
  | none => exact h.growHeap b new (by omega) hbase hfind hfits

theorem HeapInv.systemSetBrk (b : Board) {addr : Nat}
    (hraise : s.mm.brk ≤ addr → raiseFits s addr = true)
    (hlower : addr < s.mm.brk → s.mm.startBrk ≤ addr → lowerFits s addr = true) :
    Answered s (systemSetBrk b addr s) := by
  unfold System.systemSetBrk
  by_cases hrange : addr < s.mm.startBrk ∨ s.mm.mmapBase ≤ addr
  · rw [if_pos hrange]
    exact h.refused _
  rw [if_neg hrange]
  by_cases hsame : addr = s.mm.brk
  · rw [if_pos hsame]
    exact h.refused _
  rw [not_or, not_lt, not_le] at hrange
  obtain ⟨hstart, hbase⟩ := hrange
  have hpos := h.pos
  rw [if_neg hsame, h.sub_one (by omega) hbase, h.sub_one (hpos.trans_le h.le) h.lt]
  by_cases hup : s.mm.brk < addr
  · rw [if_pos hup]
    cases hfind : s.mmapFindVmaArea (addr - 1) with
    | some => exact ⟨_, _, rfl, h.raise hup hbase hfind, fun hr => absurd rfl hr⟩
    | none =>
      have hfits := hraise hup.le
      obtain ⟨w, hw, hwfind, -⟩ := h.find h.le le_rfl
      obtain ⟨size, hsize, hne, -⟩ := h.range hup hbase hfind hw hwfind hfits
      have hbug : ¬ ((s.mmapFindVmaArea (s.mm.brk - 1)).any fun v =>
          pageAlign (sub64 addr v.vmEnd) = 0) = true := by
        rw [hwfind, Option.any_some, hsize, decide_eq_true_eq]
        exact hne
      simp only
      rw [if_neg hbug]
      exact h.growHeap b 0 hup hbase hfind hfits
  · have hlt : addr < s.mm.brk := by omega
    obtain ⟨v, -, hfind, -⟩ := h.find hstart hlt.le
    obtain ⟨s', hres, hinv⟩ := h.lower hstart hlt (hlower hlt hstart) hfind
    rw [if_neg hup, hfind, Option.bind_some, hres]
    exact ⟨_, _, rfl, hinv, fun hr => absurd rfl hr⟩

theorem HeapInv.systemBrk (b : Board) {msg : BrkMsg} (hfits : msg.fits s = true) :
    Answered s (systemBrk b s msg) := by
  cases msg with
  | sbrk => exact h.systemSbrk b hfits
  | brk =>
    rw [BrkMsg.fits] at hfits
    refine h.systemSetBrk b (fun hle => ?_) fun hlt hle => ?_
    · rwa [if_pos hle] at hfits
    · rw [if_neg (not_le.mpr hlt), decide_eq_true_eq] at hfits
      exact hfits hle

end HeapInv

/-! ## What the loaders leave -/

variable {loads : List Phdr}

theorem elfBrk_foldl {l : Layout} (hgood : ∀ ph ∈ loads, ph.bad = false) :
    (∀ ph ∈ loads, ph.vaddr + ph.memsz ≤ (loads.foldl Layout.add l).elfBrk) ∧
      l.elfBrk ≤ (loads.foldl Layout.add l).elfBrk ∧ ((loads.foldl Layout.add l).elfBrk = l.elfBrk ∨
        ∃ ph ∈ loads, (loads.foldl Layout.add l).elfBrk = ph.vaddr + ph.memsz) := by
  induction loads generalizing l with
  | nil => exact ⟨nofun, le_rfl, .inl rfl⟩
  | cons ph loads ih =>
    obtain ⟨h1, h2, h3⟩ := ih (l := l.add ph) fun ph' hph' => hgood ph' (by simp [hph'])
    rw [foldl_cons]
    have hmem : u64 (ph.vaddr + ph.memsz) = ph.vaddr + ph.memsz := by
      have := (Phdr.le_of_good (hgood ph (by simp))).2.1
      unfold taskSize at this
      exact Nat.mod_eq_of_lt (by omega)
    have hadd : (l.add ph).elfBrk =
        if l.elfBrk < ph.vaddr + ph.memsz then ph.vaddr + ph.memsz else l.elfBrk := by
      rw [← hmem]
      rfl
    refine ⟨fun ph' hph' => ?_, ?_, ?_⟩
    · rcases mem_cons.mp hph' with rfl | hph'
      · split_ifs at hadd <;> omega
      · exact h1 ph' hph'
    · split_ifs at hadd <;> omega
    · rcases h3 with h3 | ⟨ph', hph', h3⟩
      · rw [h3, hadd]
        split_ifs
        · exact .inr ⟨ph, by simp, rfl⟩
        · exact .inl rfl
      · exact .inr ⟨ph', by simp [hph'], h3⟩

theorem ElfSpace.heapInv {file : Nat → Byte} (h : ElfSpace file loads base s)
    (hpos : 0 < s.mm.startBrk) (hlt : s.mm.startBrk < s.mm.mmapBase) : HeapInv s := by
  obtain ⟨P, L, hok⟩ := h.ok
  obtain ⟨htop, -, hbrk⟩ := elfBrk_foldl (l := .start) h.good
  have hstart := h.startBrk
  generalize (loads.foldl Layout.add .start).elfBrk = elfBrk at *
  have hlast : ∃ ph ∈ loads, elfBrk = ph.vaddr + ph.memsz := by
    refine hbrk.resolve_left fun h0 => ?_
    rw [hstart, h0] at hpos
    exact absurd hpos (by decide)
  obtain ⟨ph, hph, rfl⟩ := hlast
  have hle : ∀ v ∈ s.mm.vmas, v.vmStart < s.mm.mmapBase → v.vmEnd ≤ s.mm.startBrk :=
    fun v hv hlt => by
      rcases h.vmas v hv with hbase | ⟨ph', hph', hend⟩
      · rw [h.base] at hlt
        omega
      · have h1 := htop ph' hph'
        have h2 := (Phdr.le_of_good (h.good ph hph)).2.1
        rw [hend, hstart, Phdr.top]
        unfold taskSize at h2
        unfold pageAlign u64 pageSize
        omega
  refine ⟨⟨P, L, hok⟩, fun v hv => (h.whole v hv).mapped, hpos, h.brk.ge, h.brk.trans_lt hlt,
    h.base ▸ h.aligned, h.base ▸ h.below, ?_, fun v hv => ?_, fun a ha ha' => ?_,
    fun v hv hbase => ?_⟩
  · obtain ⟨next, v, hv, hshow⟩ := h.shows ph hph
    refine ⟨v, hv, ?_⟩
    rw [hshow.stop, (Phdr.info_range (h.good ph hph) next).2.2.1, hstart, Phdr.top]
  · rw [h.base]
    rcases h.vmas v hv with hbase | ⟨ph', hph', hend⟩
    · exact .inr hbase
    · exact .inl (hend ▸ h.room ph' hph')
  · rw [h.brk] at ha'
    omega
  · rw [h.brk]
    exact ((hok.rep.sized v hv).1.lt).trans_le (hle v hv hbase)

/-- The file has a segment and leaves room for a heap. -/
structure WellLoaded (b : Board) (s : Space) : Prop where
  loaded : Loaded b True s
  pos : 0 < s.mm.startBrk
  lt : s.mm.startBrk < s.mm.mmapBase

theorem WellLoaded.heapInv (h : WellLoaded b s) : HeapInv s := by
  obtain ⟨hload, hpos, hlt⟩ := h
  cases hload with
  | service hs => exact (elfSpace_of_service hs).heapInv hpos hlt
  | exec hk hi hexec hsmall hmm =>
    obtain ⟨mm', -, hmm', hs⟩ := elfSpace_of_exec hk hi hexec (hsmall trivial)
    cases hmm.symm.trans hmm'
    exact hs.heapInv hpos hlt

/-! ## Whole runs -/

theorem HeapInv.heapOk (h : HeapInv s) : HeapOk s := by
  obtain ⟨P, L, hok⟩ := h.ok
  obtain ⟨w, hw, hfind, hwstart, hwend, hwbase⟩ := h.find h.le le_rfl
  obtain ⟨f, hf, hfend⟩ := h.first
  have hbase := h.lt
  refine ⟨⟨h.le, h.lt⟩, fun a ha ha' => ?_, w, hfind, fun v hv hheap hle => ?_⟩
  · obtain ⟨v, hv, hv1, hv2⟩ : ∃ v ∈ s.mm.vmas, v.vmStart ≤ a ∧ a < v.vmEnd := by
      by_cases hbrk : a < s.mm.brk
      · exact h.covered a ha hbrk
      · have hmod := Nat.mod_eq_zero_of_dvd (hok.rep.sized w hw).1.stop
        refine ⟨w, hw, by omega, ha'.trans_le ?_⟩
        unfold pageAlign u64
        unfold pageSize at *
        omega
    obtain ⟨hsz, hend⟩ := hok.rep.sized v hv
    have hside := h.side v hv
    have hsep := SpaceRep.separate hok.rep hv hf
    refine ⟨⟨v, hv, ⟨?_, ?_⟩, hv1, hv2⟩, ?_⟩
    · rcases hsep with rfl | hsep
      · omega
      · have := (hok.rep.sized f hf).1.lt
        omega
    · rcases hside with hside | hside
      · exact hside
      · have hlt : a < s.mm.mmapBase := by
          have haligned := h.aligned
          refine ha'.trans_le ?_
          unfold pageAlign u64
          unfold pageSize at *
          omega
        omega
    · rw [hok.rep.translate (hv2.trans_le hend)]
      exact hok.rep.filled v hv (mapped_of_root hok.rep hv (h.mapped v hv)) _
        ((hsz.covers_iff a).mpr ⟨hv1, hv2⟩)
  · have hlt := (hok.rep.sized v hv).1.lt
    have hlast := h.last v hv (hlt.trans_le hheap.2)
    omega

theorem HeapInv.step {a : HeapAct} (h : HeapInv s) (hfits : a.fits s = true)
    (hstep : heapStep b s a = some s') : HeapInv s' := by
  cases a with
  | supply =>
    cases hstep
    obtain ⟨P, L, hok⟩ := h.ok
    exact h.congr (SpaceOk.congr hok ⟨rfl, rfl, rfl, rfl, rfl, rfl⟩) ⟨s.mm.pgtablesBytes, rfl⟩
  | msg =>
    obtain ⟨⟨r, s1⟩, hres, rfl⟩ := Option.map_eq_some_iff.mp hstep
    obtain ⟨r', s2, hres', hinv, -⟩ := h.systemBrk b hfits
    cases hres.symm.trans hres'
    exact hinv

/-- **The heap.** In every run from a file with a segment below `mmap_base` whose messages fit, the
heap is in order in every state, and every further message that fits is answered. -/
theorem heap_break_invariant
    (h : (heapMachine b (WellLoaded b)).Reach (fun s a => a.fits s = true) s) :
    HeapOk s ∧ ∀ msg : BrkMsg, msg.fits s = true → Served b s msg := by
  have hinv : HeapInv s := h.invariant (fun _ hs => WellLoaded.heapInv hs)
    fun _ _ _ hs hfits hstep => hs.step hfits hstep
  refine ⟨hinv.heapOk, fun msg hfits => ?_⟩
  obtain ⟨r, s', hres, -, hsame⟩ := hinv.systemBrk b hfits
  exact ⟨r, s', hres, hsame⟩

end Heap

/-! ## A heap that reaches `mmap_base` -/

/-- The heap grows by a VMA, shrinks inside of it and grows again. -/
def growAndShrink : List HeapAct :=
  [.msg (.sbrk 0x1800), .msg (.brk 0x401800), .msg (.sbrk 0x3000), .msg (.brk 0x401000)]

theorem heap_break_invariant_sample : ∃ s s',
    serviceCoreInit plainBoard .servers (sampleArchive 0x400000 0) (plainMm 0) sampleMem = some s ∧
      (heapMachine plainBoard (WellLoaded plainBoard)).run s growAndShrink = some s' ∧ HeapOk s' := by
  have hval : (serviceCoreInit plainBoard .servers (sampleArchive 0x400000 0) (plainMm 0)
      sampleMem).map (fun s => decide (0 < s.mm.startBrk ∧ s.mm.startBrk < s.mm.mmapBase ∧
        (heapMachine plainBoard (WellLoaded plainBoard)).ends (fun s a => HeapAct.fits s a = true)
          (fun _ => True) s growAndShrink = true)) = some true := by decide +kernel
  obtain ⟨s, hs, hval⟩ := Option.map_eq_some_iff.mp hval
  obtain ⟨hpos, hlt, hrun⟩ := of_decide_eq_true hval
  have hinit : (heapMachine plainBoard (WellLoaded plainBoard)).init s :=
    ⟨.service hs, hpos, hlt⟩
  obtain ⟨s', hs', hreach, -⟩ := Machine.exists_run (.init hinit) _ hrun
  exact ⟨s, s', hs, hs', (heap_break_invariant hreach).1⟩

/-- The break goes up to the last byte below `mmap_base` and back. -/
def upAndBack : List HeapAct :=
  [.msg (.sbrk 0x1fff), .msg (.brk (BitVec.ofNat 64 (serviceStackBase - 0x2000)))]

/-- The VMA of the heap ends at `mmap_base` and stays above the break. -/
theorem heap_vma_stays : ¬ ∀ b s, (heapMachine b (Loaded b False)).Reach Machine.free s →
    HeapOk s := by
  intro h
  have hval : (serviceCoreInit plainBoard .servers (sampleArchive (serviceStackBase - 0x3000) 0)
      (plainMm 0) sampleMem).map (fun s =>
        (heapMachine plainBoard (Loaded plainBoard False)).ends Machine.free (fun s' =>
          (s'.mmapFindVmaArea (s'.mm.brk - 1)).map (·.vmEnd) = some (serviceStackBase - 0x2000) ∧
            ∃ v ∈ s'.mm.vmas, (s'.mm.startBrk ≤ v.vmStart ∧ v.vmEnd ≤ s'.mm.mmapBase) ∧
              serviceStackBase - 0x2000 ≤ v.vmStart) s upAndBack) = some true := by decide +kernel
  obtain ⟨s, hs, hval⟩ := Option.map_eq_some_iff.mp hval
  have hinit : (heapMachine plainBoard (Loaded plainBoard False)).init s := .service hs
  obtain ⟨s', hreach, hfind, v, hv, hheap, hle⟩ := Machine.exists_reach (.init hinit) _ hval
  obtain ⟨w, hw, hlast⟩ := (h _ s' hreach).last
  rw [hw, Option.map_some] at hfind
  exact hlast v hv hheap (by rw [Option.some.inj hfind]; exact hle)

end MinixRt.System
