import MinixRt.Lib.Extents
import Mathlib.Data.BitVec

/-!
# Region tables

`struct memblock_type`: an array of regions in increasing order, of which the first `cnt`
entries are in use. An empty table has one entry, which is empty. The entries in use are the
list `regions` here, so `cnt` is its length, and `memmove` inserts into the list or erases from
it. Addresses and sizes are 64-bit numbers; a sum that overflows wraps around.

A `BUG_ON` that fires gives `none`. Functions that return an error code return it with the
table.
-/

namespace MinixRt.Memblock

open MinixRt.Lib

abbrev Flags := BitVec 32

abbrev Region := Extent Flags

def wrap (n : Nat) : Nat := n % 2 ^ 64

def physAddrMax : Nat := 2 ^ 64 - 1

def enomem : Int := -12

/-- `rgn->base + rgn->size` as the code computes it. -/
def rend (r : Region) : Nat := wrap (r.base + r.size)

structure MemblockType where
  max : Nat
  totalSize : Nat
  regions : List Region
  deriving DecidableEq

namespace MemblockType

def cnt (t : MemblockType) : Nat := t.regions.length

end MemblockType

def dummy : Region := ⟨0, 0, 0⟩

def capSize (base size : Nat) : Nat := min size (physAddrMax - base)

/-! ## Inserting and removing single regions -/

def insertRegion (t : MemblockType) (idx : Nat) (r : Region) : Option MemblockType :=
  if t.max ≤ t.cnt then none
  else some { t with
    regions := t.regions.insertIdx idx r
    totalSize := wrap (t.totalSize + r.size) }

/-- `memblock_remove_region`; the table must have the region. -/
def removeRegion (t : MemblockType) (idx : Nat) : Option MemblockType :=
  match t.regions[idx]? with
  | none => none
  | some r =>
    let regions := t.regions.eraseIdx idx
    some { t with
      totalSize := wrap (t.totalSize + 2 ^ 64 - r.size)
      regions := if regions.length = 0 then [dummy] else regions }

/-- The loop of `memblock_merge_regions` from the region `i` on; `left` regions follow it. -/
def mergeLoop : (left : Nat) → MemblockType → (i : Nat) → Option MemblockType
  | 0, t, _ => some t
  | left + 1, t, i =>
    match t.regions[i]?, t.regions[i + 1]? with
    | some this, some next =>
      if rend this ≠ next.base ∨ this.label ≠ next.label then
        if rend this > next.base then none else mergeLoop left t (i + 1)
      else
        let joined := ⟨this.base, wrap (this.size + next.size), this.label⟩
        mergeLoop left { t with regions := (t.regions.set i joined).eraseIdx (i + 1) } i
    | _, _ => none

def mergeRegions (t : MemblockType) : Option MemblockType := mergeLoop (t.cnt - 1) t 0

/-! ## Adding a range -/

/-- The loop of `memblock_add_range` over the regions, of which `left` are to come: the table,
`idx`, `base` and `nr_new` at its end. -/
def addLoop (insert : Bool) (flags : Flags) (stop : Nat) :
    (left : Nat) → MemblockType → (idx base nrNew : Nat) → Option (MemblockType × Nat × Nat × Nat)
  | 0, t, idx, base, nrNew => some (t, idx, base, nrNew)
  | left + 1, t, idx, base, nrNew =>
    match t.regions[idx]? with
    | none => none
    | some rgn =>
      if stop ≤ rgn.base then some (t, idx, base, nrNew)
      else if rend rgn ≤ base then addLoop insert flags stop left t (idx + 1) base nrNew
      else if base < rgn.base then
        if insert then
          match insertRegion t idx ⟨base, rgn.base - base, flags⟩ with
          | none => none
          | some t => addLoop insert flags stop left t (idx + 2) (min (rend rgn) stop) (nrNew + 1)
        else addLoop insert flags stop left t (idx + 1) (min (rend rgn) stop) (nrNew + 1)
      else addLoop insert flags stop left t (idx + 1) (min (rend rgn) stop) nrNew

/-- One of the two rounds of `memblock_add_range`: the table and `nr_new`. -/
def addRound (insert : Bool) (flags : Flags) (base stop : Nat) (t : MemblockType) :
    Option (MemblockType × Nat) :=
  match addLoop insert flags stop t.cnt t 0 base 0 with
  | none => none
  | some (t, idx, base, nrNew) =>
    if base < stop then
      if insert then (insertRegion t idx ⟨base, stop - base, flags⟩).map (·, nrNew + 1)
      else some (t, nrNew + 1)
    else some (t, nrNew)

def memblockAddRange (t : MemblockType) (base size : Nat) (flags : Flags) :
    Option (Int × MemblockType) :=
  let size := capSize base size
  let stop := wrap (base + size)
  if size = 0 then some (0, t)
  else
    match t.regions with
    | [] => none
    | r :: rs =>
      if r.size = 0 then some (0, { t with regions := ⟨base, size, flags⟩ :: rs, totalSize := size })
      else
        match addRound false flags base stop t with
        | none => none
        | some (t, nrNew) =>
          if nrNew = 0 then some (0, t)
          else if t.cnt + nrNew > t.max then some (enomem, t)
          else
            match addRound true flags base stop t with
            | none => none
            | some (t, nrNew) => if nrNew = 0 then some (0, t) else (mergeRegions t).map (0, ·)

/-! ## Isolating a range -/

/-- The loop of `memblock_isolate_range`: the table, `*start_rgn` and `*end_rgn`. Splitting a
region that goes beyond `stop` visits its lower half again, so the number of rounds is not the
number of regions. -/
def isolateLoop (base stop : Nat) :
    (fuel : Nat) → MemblockType → (idx startRgn endRgn : Nat) → Option (MemblockType × Nat × Nat)
  | 0, _, _, _, _ => none
  | fuel + 1, t, idx, startRgn, endRgn =>
    match t.regions[idx]? with
    | none => some (t, startRgn, endRgn)
    | some rgn =>
      let rbase := rgn.base
      if stop ≤ rbase then some (t, startRgn, endRgn)
      else if rend rgn ≤ base then isolateLoop base stop fuel t (idx + 1) startRgn endRgn
      else if rbase < base then
        let upper := ⟨base, rgn.size - (base - rbase), rgn.label⟩
        let total := wrap (t.totalSize + 2 ^ 64 - (base - rbase))
        match insertRegion { t with regions := t.regions.set idx upper, totalSize := total } idx
            ⟨rbase, base - rbase, rgn.label⟩ with
        | none => none
        | some t => isolateLoop base stop fuel t (idx + 1) startRgn endRgn
      else if stop < rend rgn then
        let upper := ⟨stop, rgn.size - (stop - rbase), rgn.label⟩
        let total := wrap (t.totalSize + 2 ^ 64 - (stop - rbase))
        match insertRegion { t with regions := t.regions.set idx upper, totalSize := total } idx
            ⟨rbase, stop - rbase, rgn.label⟩ with
        | none => none
        | some t => isolateLoop base stop fuel t idx startRgn endRgn
      else isolateLoop base stop fuel t (idx + 1) (if endRgn = 0 then idx else startRgn) (idx + 1)

/-- `memblock_isolate_range`: the error code, the table, and the indices of the regions in the
range. There are at most two splits, so `cnt + 3` rounds are enough. -/
def memblockIsolateRange (t : MemblockType) (base size : Nat) :
    Option (Int × MemblockType × Nat × Nat) :=
  let size := capSize base size
  let stop := wrap (base + size)
  if size = 0 then some (0, t, 0, 0)
  else if t.cnt + 2 > t.max then some (enomem, t, 0, 0)
  else (isolateLoop base stop (t.cnt + 3) t 0 0 0).map (0, ·)

/-- The loop of `memblock_remove_range`, from the last region down; `n` are left. -/
def removeLoop (startRgn : Nat) : (n : Nat) → MemblockType → Option MemblockType
  | 0, t => some t
  | n + 1, t =>
    match removeRegion t (startRgn + n) with
    | none => none
    | some t => removeLoop startRgn n t

def memblockRemoveRange (t : MemblockType) (base size : Nat) : Option (Int × MemblockType) :=
  match memblockIsolateRange t base size with
  | none => none
  | some (ret, t, startRgn, endRgn) =>
    if ret ≠ 0 then some (ret, t)
    else (removeLoop startRgn (endRgn - startRgn) t).map (0, ·)

def setclrFlags (set : Bool) (flag flags : Flags) : Flags :=
  if set then flags ||| flag else flags &&& ~~~flag

/-- `memblock_set_region_flags` or `memblock_clear_region_flags`. -/
def setclrRegion (set : Bool) (flag : Flags) (r : Region) : Region :=
  { r with label := setclrFlags set flag r.label }

/-- The loop of `memblock_setclr_flag`; `n` regions are left. -/
def setclrLoop (set : Bool) (flag : Flags) : (n : Nat) → (i : Nat) → MemblockType → MemblockType
  | 0, _, t => t
  | n + 1, i, t =>
    setclrLoop set flag n (i + 1) { t with regions := t.regions.modify i (setclrRegion set flag) }

/-- `memblock_setclr_flag` on the memory table. -/
def memblockSetclrFlag (t : MemblockType) (base size : Nat) (set : Bool) (flag : Flags) :
    Option (Int × MemblockType) :=
  match memblockIsolateRange t base size with
  | none => none
  | some (ret, t, startRgn, endRgn) =>
    if ret ≠ 0 then some (ret, t)
    else (mergeRegions (setclrLoop set flag (endRgn - startRgn) startRgn t)).map (0, ·)

/-! ## Well-formed tables -/

/-- The regions in use: none (the dummy), or regions in order of which no two that touch have
the same flags. -/
structure WellFormed (t : MemblockType) : Prop where
  regions : t.regions = [dummy] ∨ (t.regions ≠ [] ∧ Ordered t.regions ∧ Reduced t.regions)
  /-- The end of a region is an address. -/
  stop_le : ∀ r ∈ t.regions, r.stop ≤ physAddrMax
  totalSize : t.totalSize = total t.regions
  cnt_le : t.cnt ≤ t.max
  /-- The array is indexed by an `int`. -/
  max_lt : t.max < 2 ^ 31

/-- Regions in order, whatever their flags. -/
structure InOrder (t : MemblockType) : Prop where
  regions : t.regions = [dummy] ∨ (t.regions ≠ [] ∧ Ordered t.regions)
  stop_le : ∀ r ∈ t.regions, r.stop ≤ physAddrMax
  cnt_le : t.cnt ≤ t.max
  max_lt : t.max < 2 ^ 31

variable {t : MemblockType}

theorem WellFormed.inOrder (h : WellFormed t) : InOrder t :=
  ⟨h.regions.imp_right fun hr => ⟨hr.1, hr.2.1⟩, h.stop_le, h.cnt_le, h.max_lt⟩

theorem InOrder.pairwise (h : InOrder t) : t.regions.Pairwise fun r s => r.stop ≤ s.base := by
  rcases h.regions with hdummy | ⟨-, hordered⟩
  · rw [hdummy]
    exact List.pairwise_singleton _ _
  · exact hordered.pairwise

/-! ## Single steps -/

theorem rend_eq {r : Region} (h : r.stop ≤ physAddrMax) : rend r = r.stop := by
  unfold rend wrap
  exact Nat.mod_eq_of_lt (by unfold physAddrMax at h; exact Nat.lt_of_le_pred (by decide) h)

/-- `total_size` counts the regions, up to overflow. -/
def MemblockType.Tally (t : MemblockType) : Prop := t.totalSize = wrap (total t.regions)

theorem wrap_add_wrap (m n : Nat) : wrap (wrap m + n) = wrap (m + n) := by
  simp [wrap]

theorem wrap_eq {n : Nat} (h : n ≤ physAddrMax) : wrap n = n := by
  unfold physAddrMax at h
  unfold wrap
  omega

theorem insertIdx_length (done rest : List Region) (r : Region) :
    (done ++ rest).insertIdx done.length r = done ++ r :: rest := by
  induction done with
  | nil => rfl
  | cons s done ih => simp [ih]

theorem insertRegion_spec {done rest : List Region} (r : Region) (h : t.regions = done ++ rest)
    (htally : t.Tally) (hroom : done.length + rest.length < t.max) :
    ∃ t', insertRegion t done.length r = some t' ∧ t'.regions = done ++ r :: rest ∧ t'.Tally ∧
      t'.max = t.max := by
  have hcnt : ¬ t.max ≤ t.cnt := by
    rw [MemblockType.cnt, h, List.length_append]
    omega
  refine ⟨_, if_neg hcnt, ?_, ?_, rfl⟩
  · rw [h, insertIdx_length]
  · rw [MemblockType.Tally, htally, wrap_add_wrap, h, insertIdx_length]
    simp only [total_append, total_cons]
    congr 1
    omega

end MinixRt.Memblock
