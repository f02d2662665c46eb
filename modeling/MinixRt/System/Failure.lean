import MinixRt.System.Parts

/-!
# A call of `system_exec` that fails

The exits of `system_exec` are followed down the labels. When the list of segments can be read
to its end and its ranges are free, every exit frees what was allocated and leaves the task as
it was. The two exits to `free_filename` from inside the loop over the segments skip the labels
`free_mm` and `free_file`.
-/

namespace MinixRt.System

open Lib Mm

structure Asked (m m' : Mem) : Prop where
  ref : m'.ref = m.ref
  tbl : m'.tbl = m.tbl
  data : m'.data = m.data
  mmu : m'.mmu = m.mmu

section Failure

variable {b : Board} {outside : Nat → Byte} {read : Reader} {bprm : Binprm} {i old : MmId}
  {oldMm : MmStruct} {tsk : Task} {k : Kernel} {m m' m'' : Mem} {d : Done} {e : Exec}

theorem Asked.trans (h : Asked m m') (h' : Asked m' m'') : Asked m m'' :=
  ⟨h'.ref.trans h.ref, h'.tbl.trans h.tbl, h'.data.trans h.data, h'.mmu.trans h.mmu⟩

theorem Asked.same (h : Asked m m') : m.Same m' :=
  ⟨fun q _ => ⟨congrFun h.ref q, congrFun h.tbl q, congrFun h.data q⟩, h.mmu⟩

theorem Asked.kmallocSize {size : Nat} {ok : Bool} (h : m.kmallocSize size = (ok, m')) :
    Asked m m' := by
  obtain ⟨ok', r, hk, -⟩ := kmallocSize_cases m size
  cases h.symm.trans hk
  exact ⟨rfl, rfl, rfl, rfl⟩

variable {retval : Int}

variable {mm : MmStruct}

/-- The list of segments can be read to its end, the segments are private, do not overlap and
lie below the page for the strings. -/
structure Binprm.Tidy (read : Reader) (bprm : Binprm) (rs : List BinprmInfo) : Prop where
  short : bprm.Short
  chain : Chain read bprm.binprmInfo rs
  below : ∀ r ∈ rs, r.vaddr + r.size ≤ bprm.stringBase
  priv : ∀ r ∈ rs, r.prot &&& vmPrivateShare = 0 ∧ r.size < 2 ^ 44
  separate : (rs.map BinprmInfo.range).Pairwise Separate

variable {rs : List BinprmInfo}

theorem Chain.mem {next : Nat} {r : BinprmInfo} (h : Chain read next rs) (hr : Listed read next r) :
    r ∈ rs := by
  induction hr generalizing rs with
  | head hne hread =>
    cases h with
    | nil => exact absurd rfl hne
    | cons _ hread' =>
      cases hread.symm.trans hread'
      simp
  | tail hne hread _ ih =>
    cases h with
    | nil => exact absurd rfl hne
    | cons _ hread' h =>
      cases hread.symm.trans hread'
      simp [ih h]

theorem Binprm.Short.stringBase_le (h : bprm.Short) : bprm.stringBase ≤ userDs := by
  have h1 := h.bases.string
  have h2 := h.bases.top
  have h3 := h.stackSize.2.1
  unfold taskSize at h2
  unfold userDs
  unfold pageSize at *
  omega

theorem Binprm.Tidy.fits (h : bprm.Tidy read rs) : bprm.Fits True False read outside := by
  have hle := h.short.stringBase_le
  refine ⟨⟨fun r hr _ => ?_, fun _ => ⟨rs, h.chain, fun r hr => (h.below r hr).trans hle, h.separate,
    nofun⟩⟩, h.short, fun _ r hr => h.below r (h.chain.mem hr), False.elim⟩
  have hr := h.chain.mem hr
  exact ⟨(h.below r hr).trans hle, (h.priv r hr).1, (h.priv r hr).2, False.elim⟩

end Failure

/-! ## A call with one segment -/

/-- A memory of a few blocks, which are read as a whole. -/
def Reader.ofBlocks (blocks : List (Nat × List Byte)) : Reader where
  read addr size :=
    (blocks.find? fun x => x.1 = addr ∧ x.2.length = size ∧ size ≠ 0).map (·.2)
  length {addr size xs} h := by
    obtain ⟨x, hx, rfl⟩ := Option.map_eq_some_iff.mp h
    have := List.find?_some hx
    simp only [decide_eq_true_eq] at this
    exact this.2

/-- The byte at an offset of a block that is zero but for some words. -/
def wordsByte (off : Nat) : List (Nat × Nat) → Byte
  | [] => 0
  | w :: ws =>
    if w.1 ≤ off ∧ off < w.1 + 8 then BitVec.ofNat 8 (w.2 / 256 ^ (off - w.1)) else wordsByte off ws

def wordsAt (size : Nat) (ws : List (Nat × Nat)) : List Byte :=
  (List.range size).map fun off => wordsByte off ws

/-- A segment from `off` of the file, which is readable and executable. -/
def sampleInfo (vaddr size off : Nat) : List Byte :=
  wordsAt sizeofBinprmInfo [(0, vaddr), (8, size), (16, off), (24, 5)]

/-- One `mm_struct` and `n` more answers of `kmalloc`. -/
def sampleSpaces (n : Nat) : Spaces :=
  ((machine plainBoard).run ⟨emptyMem, fun _ => none⟩
    [.supply (List.replicate (n + 1) true) ((List.range 20).map some) [],
      .mmapAllocMmStruct 0]).getD ⟨emptyMem, fun _ => none⟩

/-- The task 5 in a system call, with the `mm_struct` 0. -/
def sampleKernel (n : Nat) : Kernel where
  mem := (sampleSpaces n).mem
  mm := (sampleSpaces n).mm
  task := Function.update (fun _ => none) 5 (some {
    mm := some 0
    flags := 0
    comm := []
    regs := ⟨fun _ => 0, 0, 0, 0, 0, 1⟩ })

end MinixRt.System
