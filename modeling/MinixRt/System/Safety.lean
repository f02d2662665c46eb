import MinixRt.System.Failure

/-!
# The accesses of `system_exec`

Offsets, sizes and counts come from the sender. `Binprm.Fits` says what they have to be for every
access to stay in its buffer and its pages, and for the new `mm_struct` to be destroyed without
a failed `BUG_ON`; what the call checks by itself is `vaddr + size > USER_DS`, with a sum that
wraps around. For a call that succeeds the condition is exact.
-/

namespace MinixRt.System

open List Function Lib Mm
open Option (bind_eq_some_iff map_eq_some_iff)

variable {flags : BitVec 64} {e' : Exec} {P : MmId → Nat → Nat → Option Page}
  {L : MmId → Nat → Option Entry} {vstart size fileSize next : Nat}

/-- Every `mm_struct` is in order and its VMAs are mapped, and the tasks have one. -/
structure Kernel.Ok (k : Kernel) : Prop where
  spaces : ∃ P L, SpacesRep ⟨k.mem, k.mm⟩ P L
  mapped : ∀ j mm, k.mm j = some mm → ∀ v ∈ mm.vmas, v.IsMapped
  task : ∀ pid t j, k.task pid = some t → t.mm = some j → ∃ mm, k.mm j = some mm

/-- The call comes to its end, with all accesses in bounds. -/
def Safe (x : Option Done) : Prop := ∃ d, x = some d ∧ ∀ a ∈ d.log, a.Ok

section Safety

variable {b : Board} {tidy : Prop} {outside : Nat → Byte} {read : Reader} {bprm : Binprm}
  {i old : MmId} {oldMm mm : MmStruct} {tsk : Task} {k : Kernel} {m m' : Mem} {d : Done}
  {e : Exec} {addr : Nat}

theorem SpacesRep.destroy {ks : Spaces} (h : SpacesRep ks P L) (hold : ks.mm old = some oldMm)
    (hmapped : ∀ v ∈ oldMm.vmas, v.IsMapped) :
    ∃ m', destroySpace ⟨ks.mem, oldMm⟩ = some m' ∧ ∀ j mm, j ≠ old → ks.mm j = some mm →
      (∃ P L, SpaceOk ⟨m', mm⟩ P L) ∧ ∀ p ∈ ownPages mm.vmas, m'.data p = ks.mem.data p := by
  obtain ⟨s', P', L', hres, hok', hto, -, -, bytes, hmm⟩ := (h.ok hold).mmapDestroyMm hmapped
  have hrep := h.lift hold hok' hto
  obtain ⟨hbytes, -⟩ := hok'.rep.bytes_eq_zero (by rw [hmm])
  have hfree : s'.mmapFreeMmStruct =
      some { s'.mem with ref := update s'.mem.ref s'.mm.pgd 0 } := by
    rw [Space.mmapFreeMmStruct, if_pos ⟨hbytes, by rw [hmm]⟩, Mem.putPage, hok'.rep.rootRef]
    rfl
  obtain ⟨hrep', -, hdata, -⟩ := hrep.mmapFreeMmStruct (i := old) (Spaces.put_mm_self ks old s')
    hfree
  refine ⟨_, by rw [destroySpace, hres, Option.bind_some, hfree], fun j mm hj hmm => ⟨?_, ?_⟩⟩
  · have hstays : update (ks.put old s').mm old none j = some mm := by
      rw [update_of_ne hj, Spaces.put_mm_of_ne hj, hmm]
    exact ⟨_, _, hrep'.ok hstays⟩
  · intro p hp
    have hne : ∀ l n, P old l n ≠ some p := h.data j mm p hmm hp old
    rw [hdata]
    exact hto.keeps.data p (by rw [(h.own j mm hmm).ref p hp]; decide)
      (fun hmem => hj (h.page j old mm oldMm p hmm hold hp hmem)) hne

/-- The old `mm_struct` is not touched by what was done for the new one, which stays when the old
one is destroyed. -/
theorem destroy_old (hrep : SpacesRep ⟨m, k.mm⟩ P L) (hmapped : ∀ v ∈ oldMm.vmas, v.IsMapped)
    (hi : k.mm i = none) (hold : k.mm old = some oldMm)
    (hsome : mmapAllocMmStruct m = (some mm, m')) {P' : Nat → Nat → Option Page}
    {L' : Nat → Option Entry} (hok : SpaceOk e.space P' L')
    (hto : SpaceTo ⟨m', mm⟩ (rootOnly mm.pgd) e.space P') :
    ∃ m2, destroySpace ⟨e.space.mem, e.oldMm oldMm⟩ = some m2 ∧
      (∃ P L, SpaceOk ⟨m2, e.space.mm⟩ P L) ∧
      ∀ p ∈ ownPages e.space.mm.vmas, m2.data p = e.space.mem.data p := by
  have hne : old ≠ i := fun h => by
    rw [h, hi] at hold
    cases hold
  obtain ⟨hrep', -⟩ := hrep.mmapAllocMmStruct (i := i) hsome
  have hlift := hrep'.lift (i := i) (Spaces.put_mm_self _ _ _) hok (by rwa [update_self])
  have hmm : ∀ s s' : Space, (((⟨m, k.mm⟩ : Spaces).put i s).put i s').mm old = some oldMm :=
    fun s s' => by
      rw [Spaces.put_mm_of_ne hne, Spaces.put_mm_of_ne hne]
      exact hold
  -- the fields that the call writes to the old `mm_struct` do not matter
  have hargs : ∀ args : Option Args, (args.elim oldMm (·.write oldMm)).vmas = oldMm.vmas ∧
      (args.elim oldMm (·.write oldMm)).pgd = oldMm.pgd ∧
      (args.elim oldMm (·.write oldMm)).pgtablesBytes = oldMm.pgtablesBytes := fun args => by
    cases args <;> exact ⟨rfl, rfl, rfl⟩
  obtain ⟨hvs, hpgd, hbytes⟩ := hargs e.args
  have hold' := hlift.ok (i := old) (hmm _ _)
  have hwrite := hlift.lift (s := ⟨e.space.mem, e.oldMm oldMm⟩) (hmm _ _)
    (SpaceOk.congr hold' ⟨rfl, rfl, rfl, hvs, hpgd, hbytes⟩) ⟨(SpaceTo.refl _ _).keeps, fun p hp =>
      .inr (.inl (by rwa [show (e.oldMm oldMm).vmas = oldMm.vmas from hvs] at hp))⟩
  obtain ⟨m2, hdestroy, hothers⟩ := SpacesRep.destroy hwrite (Spaces.put_mm_self _ _ _)
    fun v hv => hmapped v (hvs ▸ hv)
  refine ⟨m2, hdestroy, hothers i e.space.mm hne.symm ?_⟩
  rw [Spaces.put_mm_of_ne hne.symm]
  exact Spaces.put_mm_self _ _ _

theorem Part.andThen_ok {α β : Type} {x : Part α} {f : α → Exec → Part β} {c : β}
    (h : x.andThen f = some (.ok c, e')) :
    ∃ a e, x = some (.ok a, e) ∧ f a e = some (.ok c, e') := by
  unfold Part.andThen at h
  split at h
  · cases h
  · cases h
  · exact ⟨_, _, rfl, h⟩

theorem size_of_mapped {s s' : Space} {phys : Nat} {fill : Vma → Data → Data} {v : Vma}
    (h : s.mapArea b vstart size flags phys fill = some (.mapped v, s')) :
    size % pageSize = 0 ∧ size ≠ 0 := by
  unfold Space.mapArea at h
  split at h
  · cases h
  · rename_i hget
    obtain ⟨-, ⟨-, h1, h2, -⟩, -⟩ := mmapGetVmapArea_some hget
    exact ⟨h1, h2⟩

theorem loadSegments_ok {file : Nat → Byte} {turns : Nat}
    (h : loadSegments b read file fileSize turns next e = some (.ok (), e')) :
    ∃ rs, Chain read next rs ∧ e'.log = e.log ++ rs.flatMap (·.log fileSize) ∧
      ∀ r ∈ rs, r.size % pageSize = 0 ∧ r.size ≠ 0 := by
  induction turns generalizing next e with
  | zero => cases h
  | succ turns ih =>
    rw [loadSegments] at h
    split_ifs at h with hnext
    · cases h
      exact ⟨[], hnext ▸ .nil, by simp, by simp⟩
    split at h
    · cases h
    rename_i r hr
    split_ifs at h
    · cases h
    split at h
    · cases h
    · cases h
    · cases h
    rename_i v s' hmap
    obtain ⟨rs, hchain, hlog, hsize⟩ := ih h
    refine ⟨r :: rs, .cons hnext hr hchain, by simp [hlog, Exec.logs], fun r' hr' => ?_⟩
    rcases mem_cons.mp hr' with rfl | hr'
    · exact size_of_mapped hmap
    · exact hsize r' hr'

theorem Exec.mapZeros_log {exit : Int → Exit} {v : Vma} (h : e.mapZeros b vstart size flags exit = some (.ok v, e')) : e'.log = e.log := by
  unfold Exec.mapZeros at h
  split at h
  · cases h
  · cases h
  · cases h
  · cases h
    rfl

theorem readBlock_ok {block : List Byte} (h : readBlock read bprm e = some (.ok block, e')) :
    e'.log = e.log ∧ bprm.len ≤ 2 ^ 22 ∧ read.read bprm.mallocP bprm.len = some block := by
  obtain ⟨ok, r, hk, hlen⟩ := kmallocSize_cases e.space.mem bprm.len
  rw [readBlock, hk] at h
  cases ok with
  | false => cases h
  | true =>
    simp only at h
    split at h
    · cases h
    · rename_i hread
      cases h
      exact ⟨rfl, hlen rfl, hread⟩

theorem buildImage_ok {xs : List Byte}
    (h : buildImage b outside read bprm xs e = some (.ok (), e')) :
    ∃ rs block, Chain read bprm.binprmInfo rs ∧ (∀ r ∈ rs, r.size % pageSize = 0 ∧ r.size ≠ 0) ∧
      bprm.len ≤ 2 ^ 22 ∧ read.read bprm.mallocP bprm.len = some block ∧
      e'.log = e.log ++ rs.flatMap (·.log bprm.fileSize) ++
        bprm.blockLog (wordAt block outside 8) := by
  obtain ⟨_, e1, h1, h⟩ := Part.andThen_ok h
  obtain ⟨_, e2, h2, h⟩ := Part.andThen_ok h
  obtain ⟨block, e3, h3, h⟩ := Part.andThen_ok h
  obtain ⟨v, e4, h4, h⟩ := Part.andThen_ok h
  obtain ⟨rs, hchain, hlog1, hsize⟩ := loadSegments_ok h1
  have hlog2 : e2.log = e1.log := by
    rw [mapStack] at h2
    have := Exec.mapZeros_log h2
    exact this
  obtain ⟨hlog3, hlen, hread⟩ := readBlock_ok h3
  have hlog4 : e4.log = e3.log := by
    rw [mapStrings] at h4
    have := Exec.mapZeros_log h4
    exact this
  have hlog : e'.log = e4.log ++ bprm.blockLog (wordAt block outside 8) := by
    simp only [copyStack] at h
    split_ifs at h
    · cases h
    · cases h
      rfl
  exact ⟨rs, block, hchain, hsize, hlen, hread, by rw [hlog, hlog4, hlog3, hlog2, hlog1]⟩

def Exit.retval : Exit → Int
  | .freeTmpBuf retval | .freeMm retval | .freeFilename retval => retval

def Part.Errs {α : Type} (x : Part α) : Prop := ∀ l e, x = some (.error l, e) → l.retval ≠ 0

theorem Part.Errs.andThen {α β : Type} {x : Part α} {f : α → Exec → Part β} (hx : x.Errs)
    (hf : ∀ a e, (f a e).Errs) : (x.andThen f).Errs := by
  intro l e h
  unfold Part.andThen at h
  split at h
  · cases h
  · cases h
    exact hx _ _ rfl
  · exact hf _ _ l e h

theorem loadSegments_errs {file : Nat → Byte} {turns : Nat} :
    (loadSegments b read file fileSize turns next e).Errs := by
  intro l e' h
  induction turns generalizing next e with
  | zero => cases h
  | succ turns ih =>
    rw [loadSegments] at h
    split_ifs at h
    · cases h
    split at h
    · cases h
      decide
    split_ifs at h
    · cases h
      decide
    split at h
    · cases h
    · cases h
      decide
    · cases h
      decide
    · exact ih h

theorem Exec.mapZeros_errs {exit : Int → Exit} (hexit : ∀ retval, (exit retval).retval = retval) :
    (e.mapZeros b vstart size flags exit).Errs := by
  intro l e' h
  unfold Exec.mapZeros at h
  split at h
  · cases h
  · cases h
    rw [hexit]
    decide
  · cases h
    rw [hexit]
    decide
  · cases h

theorem readBlock_errs : (readBlock read bprm e).Errs := by
  intro l e' h
  unfold readBlock at h
  split at h
  · cases h
    decide
  · simp only at h
    split at h
    · cases h
      decide
    · cases h

theorem buildImage_errs {xs : List Byte} : (buildImage b outside read bprm xs e).Errs := by
  refine loadSegments_errs.andThen fun _ e => ?_
  have hstack : (mapStack b bprm e).Errs := by
    rw [mapStack]
    exact Exec.mapZeros_errs fun _ => rfl
  refine hstack.andThen fun _ e => readBlock_errs.andThen fun block e => ?_
  have hstrings : (mapStrings b e).Errs := by
    rw [mapStrings]
    exact Exec.mapZeros_errs fun _ => rfl
  refine hstrings.andThen fun v e l e' h => ?_
  simp only [copyStack] at h
  split_ifs at h
  · cases h
    decide
  · cases h

theorem failMm_retval {retval : Int} (h : failMm k old oldMm retval e = some d) :
    d.retval = retval := by
  unfold failMm at h
  obtain ⟨_, -, h⟩ := bind_eq_some_iff.mp h
  obtain ⟨_, -, h⟩ := bind_eq_some_iff.mp h
  obtain ⟨_, -, rfl⟩ := map_eq_some_iff.mp h
  rfl

theorem fail_retval {l : Exit} (h : fail k old i oldMm e l = some d) : d.retval = l.retval := by
  cases l with
  | freeTmpBuf =>
    obtain ⟨_, -, h⟩ := bind_eq_some_iff.mp h
    exact failMm_retval h
  | freeMm => exact failMm_retval h
  | freeFilename =>
    obtain ⟨_, -, rfl⟩ := map_eq_some_iff.mp h
    rfl

theorem leave_retval {retval : Int} {bufs : Option (List Buf)}
    (h : leave k m retval bufs = some d) : d.retval = retval := by
  obtain ⟨_, -, rfl⟩ := map_eq_some_iff.mp h
  rfl

structure ExecRun where
  bprm : Binprm
  tsk : Task
  old : MmId
  oldMm : MmStruct
  filename : List Byte
  file : List Byte
  /-- The memory before `mmap_alloc_mm_struct`. -/
  mem : Mem
  mm : MmStruct
  /-- The memory after it. -/
  mem₁ : Mem
  exec : Exec

structure ExecRun.Builds (x : ExecRun) (b : Board) (outside : Nat → Byte) (read : Reader)
    (i : MmId) (k : Kernel) (d : Done) : Prop where
  asked : Asked k.mem x.mem
  size : x.bprm.fileSize ≤ 2 ^ 22
  name : read.read x.bprm.filename x.bprm.filenameSize = some x.filename
  file : read.read x.bprm.file x.bprm.fileSize = some x.file
  alloc : mmapAllocMmStruct x.mem = (some x.mm, x.mem₁)
  image : buildImage b outside read x.bprm x.file ⟨⟨x.mem₁, x.mm⟩, firstBufs, [], none⟩ =
    some (.ok (), x.exec)
  done : succeed k x.old i x.oldMm x.tsk x.bprm x.filename x.exec = some d

/-- The call `system_exec` for the `minix_rt_binprm` at `addr`. -/
structure ExecRun.Of (x : ExecRun) (b : Board) (outside : Nat → Byte) (read : Reader) (addr : Nat)
    (i : MmId) (k : Kernel) (d : Done) : Prop where
  bprm : (read.read addr sizeofBinprm).map Binprm.ofBytes = some x.bprm
  tsk : k.task x.bprm.pid = some x.tsk
  old : x.tsk.mm = some x.old
  oldMm : k.mm x.old = some x.oldMm
  builds : ∃ m, Asked k.mem m ∧ x.Builds b outside read i { k with mem := m } d

theorem execTask_ok (h : execTask b outside read bprm i old oldMm tsk k = some d)
    (hret : d.retval = 0) : ∃ x : ExecRun, (x.bprm = bprm ∧ x.tsk = tsk ∧ x.old = old ∧
      x.oldMm = oldMm) ∧ x.Builds b outside read i k d := by
  have hleave : ∀ {m retval bufs}, leave k m retval bufs = some d → retval = 0 :=
    fun h => (leave_retval h).symm.trans hret
  unfold execTask at h
  split at h
  · cases hleave h
  rename_i m1 hk1
  split at h
  · cases hleave h
  rename_i filename hname
  split at h
  · cases hleave h
  rename_i m2 hk2
  have hsize : bprm.fileSize ≤ 2 ^ 22 := by
    obtain ⟨_, _, hk, hsize⟩ := kmallocSize_cases m1 bprm.fileSize
    cases hk2.symm.trans hk
    exact hsize rfl
  split at h
  · cases hleave h
  rename_i xs hfile
  split at h
  · cases hleave h
  rename_i mm m3 hsome
  split at h
  · cases h
  · rename_i l e hx
    exact absurd ((fail_retval h).symm.trans hret) (buildImage_errs l e hx)
  · rename_i e hx
    exact ⟨⟨bprm, tsk, old, oldMm, filename, xs, m2, mm, m3, e⟩, ⟨rfl, rfl, rfl, rfl⟩,
      (Asked.kmallocSize hk1).trans (.kmallocSize hk2), hsize, hname, hfile, hsome, hx, h⟩

theorem systemExec_ok (h : systemExec b outside read addr i k = some d) (hret : d.retval = 0) :
    ∃ x : ExecRun, x.Of b outside read addr i k d := by
  have hleave : ∀ {m retval bufs}, leave k m retval bufs = some d → retval = 0 :=
    fun h => (leave_retval h).symm.trans hret
  unfold systemExec at h
  split at h
  · cases hleave h
  rename_i m1 hk1
  split at h
  · cases hleave h
  rename_i bprm hbprm
  split at h
  · cases hleave h
  rename_i tsk htsk
  split at h
  · cases hleave h
  rename_i old hmm
  split at h
  · cases hleave h
  obtain ⟨oldMm, hold, h⟩ := bind_eq_some_iff.mp h
  obtain ⟨x, ⟨rfl, rfl, rfl, rfl⟩, hx⟩ := execTask_ok h hret
  exact ⟨x, hbprm, htsk, hmm, hold, m1, .kmallocSize hk1, hx⟩

/-! ## What the accesses of a call say about the message -/

theorem leNat_lt (xs : List Byte) : leNat xs < 256 ^ xs.length := by
  induction xs with
  | nil => decide
  | cons x xs =>
    have hx : x.toNat < 256 := x.isLt
    rw [leNat, foldr_cons, length_cons, pow_succ]
    change x.toNat + 256 * leNat xs < _
    omega

theorem word64_lt (xs : List Byte) (off : Nat) : word64 xs off < 2 ^ 64 := by
  refine (leNat_lt _).trans_le ((Nat.pow_le_pow_right (by decide) (length_take_le 8 _)).trans ?_)
  decide

theorem Binprm.short_of_len (hp : bprm.p < 2 ^ 64) (hlen : bprm.len ≤ 2 ^ 22) : bprm.Short := by
  unfold Binprm.len sub64 u64 taskSize at hlen
  constructor <;> unfold taskSize <;> omega

end Safety

theorem sampleKernel_ok (n : Nat) : (sampleKernel n).Ok := by
  have hrun : (machine plainBoard).run ⟨emptyMem, fun _ => none⟩
      [.supply (replicate (n + 1) true) ((range 20).map some) [],
        .mmapAllocMmStruct 0] = some (sampleSpaces n) := rfl
  have hreach : (machine plainBoard).Reach (fun _ a => a.below = true) (sampleSpaces n) :=
    Machine.reach_of_run (.init fun _ => rfl) rfl hrun
  have hother : ∀ j, j ≠ 0 → (sampleKernel n).mm j = none := fun j hj => update_of_ne hj _ _
  refine ⟨Spaces.Inv.of_reach (fun _ _ h => h) hreach, fun j mm hj v hv => ?_, fun pid t j ht hj => ?_⟩
  · by_cases hj0 : j = 0
    · subst hj0
      cases hj
      cases hv
    · rw [hother j hj0] at hj
      cases hj
  · by_cases hpid : pid = 5
    · subst hpid
      cases ht
      cases hj
      exact ⟨_, rfl⟩
    · simp only [sampleKernel, update_apply, if_neg hpid] at ht
      cases ht

end MinixRt.System
