import MinixRt.Lib.Overlaps
import MinixRt.Memblock.Table

/-!
# Iterating over free ranges

`for_each_free_mem_range` walks over the memory regions with given flags and, in each of them,
over the gaps between the reserved regions. The position in both tables is kept in one 64-bit
number; all ones ends the iteration. `for_each_free_mem_range_reverse` starts at the end.

The ranges that both yield are the overlaps of regions and gaps. They are the maximal free
ranges, except that two reserved regions which touch leave an empty gap, and an empty gap
inside a memory region is yielded as an empty range.
-/

namespace MinixRt.Memblock

open List MinixRt.Lib

variable {l : List Region} {i start j x : Nat} {m : Nat × Nat}

/-! ## The position -/

def ullongMax : Nat := 2 ^ 64 - 1

/-- The bits of an `int`, as a number of `w` bits. -/
def bits (w : Nat) (n : Int) : Nat := if n < 0 then 2 ^ w - n.natAbs else n.toNat

/-- The `int` with these bits. -/
def int32 (n : Nat) : Int := if n < 2 ^ 31 then n else n - (2 ^ 32 : Nat)

/-- `(u32)idx_a | (u64)idx_b << 32`. -/
def pack (idxA idxB : Int) : Nat := bits 32 idxA + bits 32 idxB * 2 ^ 32

/-- `*idx & 0xffffffff` -/
def unpackA (idx : Nat) : Int := int32 (idx % 2 ^ 32)

/-- `*idx >> 32` -/
def unpackB (idx : Nat) : Int := int32 (idx / 2 ^ 32)

/-- `r_start` and `r_end` for `idx_b`: from the end of the reserved region before to the start of
this one. -/
def gap (b : MemblockType) (idxB : Nat) : Nat × Nat :=
  (if idxB = 0 then 0 else rend (b.regions.getD (idxB - 1) dummy),
    if idxB < b.cnt then (b.regions.getD idxB dummy).base else physAddrMax)

/-! ## Forward -/

/-- The loop over the gaps in `__next_mem_range`, of which `left` are to come: `idx_b` at its end,
and the range if there is one. -/
def nextGap (b : MemblockType) (mStart mEnd : Nat) :
    (left idxB : Nat) → Nat × Option (Nat × Nat)
  | 0, idxB => (idxB, none)
  | left + 1, idxB =>
    let (rStart, rEnd) := gap b idxB
    if mEnd ≤ rStart then (idxB, none)
    else if mStart < rEnd then (idxB, some (max mStart rStart, min mEnd rEnd))
    else nextGap b mStart mEnd left (idxB + 1)

/-- The loop over the memory regions in `__next_mem_range`, of which `left` are to come: the range
and the next position. -/
def nextRange (flags : Flags) (a b : MemblockType) :
    (left idxA idxB : Nat) → Option ((Nat × Nat) × Nat × Nat)
  | 0, _, _ => none
  | left + 1, idxA, idxB =>
    let m := a.regions.getD idxA dummy
    if flags ≠ m.label then nextRange flags a b left (idxA + 1) idxB
    else
      match nextGap b m.base (rend m) (b.cnt + 1 - idxB) idxB with
      | (idxB, none) => nextRange flags a b left (idxA + 1) idxB
      | (idxB, some out) =>
        if rend m ≤ (gap b idxB).2 then some (out, idxA + 1, idxB) else some (out, idxA, idxB + 1)

/-- `__next_mem_range` with a `type_b`: the new position and the range. -/
def nextMemRange (flags : Flags) (a b : MemblockType) (idx : Nat) : Nat × Option (Nat × Nat) :=
  let idxA := bits 64 (unpackA idx)
  let idxB := bits 64 (unpackB idx)
  match nextRange flags a b (a.cnt - idxA) idxA idxB with
  | none => (ullongMax, none)
  | some (out, idxA, idxB) => (pack idxA idxB, some out)

/-! ## Backward -/

/-- The loop over the gaps in `__next_mem_range_rev`; `idx_b` is one less than `left`. -/
def nextGapRev (b : MemblockType) (mStart mEnd : Nat) : (left : Nat) → Nat × Option (Nat × Nat)
  | 0 => (0, none)
  | idxB + 1 =>
    let (rStart, rEnd) := gap b idxB
    if rEnd ≤ mStart then (idxB + 1, none)
    else if rStart < mEnd then (idxB + 1, some (max mStart rStart, min mEnd rEnd))
    else nextGapRev b mStart mEnd idxB

/-- The loop over the memory regions in `__next_mem_range_rev`; `idx_a` and `idx_b` are one less
than the arguments. -/
def nextRangeRev (flags : Flags) (a b : MemblockType) :
    (leftA leftB : Nat) → Option ((Nat × Nat) × Nat × Nat)
  | 0, _ => none
  | idxA + 1, leftB =>
    let m := a.regions.getD idxA dummy
    if flags ≠ m.label then nextRangeRev flags a b idxA leftB
    else
      match nextGapRev b m.base (rend m) leftB with
      | (leftB, none) => nextRangeRev flags a b idxA leftB
      | (leftB, some out) =>
        if (gap b (leftB - 1)).1 ≤ m.base then some (out, idxA, leftB)
        else some (out, idxA + 1, leftB - 1)

/-- `__next_mem_range_rev` with a `type_b`. -/
def nextMemRangeRev (flags : Flags) (a b : MemblockType) (idx : Nat) : Nat × Option (Nat × Nat) :=
  let leftA := if idx = ullongMax then a.cnt else (unpackA idx + 1).toNat
  let leftB := if idx = ullongMax then b.cnt + 1 else (unpackB idx + 1).toNat
  match nextRangeRev flags a b leftA leftB with
  | none => (ullongMax, none)
  | some (out, leftA, leftB) => (pack (leftA - 1) (leftB - 1), some out)

/-! ## The loops of the callers -/

/-- The ranges that a `for_each` macro yields from a position on. -/
def forEach (next : Nat → Nat × Option (Nat × Nat)) :
    (fuel idx : Nat) → Option (List (Nat × Nat))
  | 0, _ => none
  | fuel + 1, idx =>
    match next idx with
    | (_, none) => some []
    | (idx, some out) =>
      if idx = ullongMax then some [] else (forEach next fuel idx).map (out :: ·)

def forEachFreeMemRange (memory reserved : MemblockType) (flags : Flags) (fuel : Nat) :
    Option (List (Nat × Nat)) := forEach (nextMemRange flags memory reserved) fuel 0

def forEachFreeMemRangeReverse (memory reserved : MemblockType) (flags : Flags) (fuel : Nat) :
    Option (List (Nat × Nat)) := forEach (nextMemRangeRev flags memory reserved) fuel ullongMax

/-! ## Spans and gaps -/

/-- The memory regions with the given flags, as spans. -/
def spans (flags : Flags) (l : List Region) : List (Nat × Nat) :=
  (l.filter fun r => r.label = flags).map fun r => (r.base, r.stop)

/-- The gaps between regions, from `start` on. -/
def gapsFrom (start : Nat) : List Region → List (Nat × Nat)
  | [] => [(start, physAddrMax)]
  | r :: l => (start, r.base) :: gapsFrom r.stop l

theorem length_gapsFrom (start : Nat) (l : List Region) :
    (gapsFrom start l).length = l.length + 1 := by
  induction l generalizing start with
  | nil => rfl
  | cons r l ih => rw [gapsFrom, length_cons, ih, length_cons]

theorem getElem?_gapsFrom (start : Nat) (hj : j ≤ l.length) :
    (gapsFrom start l)[j]? = some (if j = 0 then start else (l.getD (j - 1) dummy).stop,
      if j < l.length then (l.getD j dummy).base else physAddrMax) := by
  induction l generalizing start j with
  | nil =>
    cases Nat.le_zero.mp hj
    rfl
  | cons r l ih =>
    cases j with
    | zero => rfl
    | succ j =>
      rw [gapsFrom, getElem?_cons_succ, ih _ (Nat.le_of_succ_le_succ hj)]
      cases j <;> simp

variable {b : MemblockType}

theorem drop_gaps (hstop : ∀ r ∈ b.regions, r.stop ≤ physAddrMax) (hj : j ≤ b.cnt) :
    (gapsFrom 0 b.regions).drop j = gap b j :: (gapsFrom 0 b.regions).drop (j + 1) := by
  have hlen := length_gapsFrom 0 b.regions
  have hlt : j < (gapsFrom 0 b.regions).length := by
    rw [hlen]
    exact Nat.lt_succ_of_le hj
  have hget := getElem?_gapsFrom 0 hj
  rw [getElem?_eq_getElem hlt, Option.some_inj] at hget
  rw [drop_eq_getElem_cons hlt, hget, gap]
  congr 2
  by_cases hzero : j = 0
  · rw [if_pos hzero, if_pos hzero]
  · rw [if_neg hzero, if_neg hzero, rend_eq]
    have hlt' : j - 1 < b.regions.length := by
      have : b.cnt = b.regions.length := rfl
      omega
    rw [getD_eq_getElem?_getD, getElem?_eq_getElem hlt', Option.getD_some]
    exact hstop _ (getElem_mem hlt')

variable {a : MemblockType}

theorem drop_regions (hi : i < a.cnt) :
    a.regions.drop i = a.regions.getD i dummy :: a.regions.drop (i + 1) := by
  rw [drop_eq_getElem_cons hi, getD_eq_getElem?_getD, getElem?_eq_getElem hi,
    Option.getD_some]

theorem take_regions (hi : i < a.cnt) :
    (a.regions.take (i + 1)).reverse = a.regions.getD i dummy :: (a.regions.take i).reverse := by
  rw [take_succ_eq_append_getElem hi, reverse_append, getD_eq_getElem?_getD,
    getElem?_eq_getElem hi, Option.getD_some]
  rfl

theorem take_gaps (hstop : ∀ r ∈ b.regions, r.stop ≤ physAddrMax) (hj : j ≤ b.cnt) :
    ((gapsFrom 0 b.regions).take (j + 1)).reverse =
      gap b j :: ((gapsFrom 0 b.regions).take j).reverse := by
  have hlt : j < (gapsFrom 0 b.regions).length := by
    rw [length_gapsFrom]
    exact Nat.lt_succ_of_le hj
  have hdrop := drop_gaps hstop hj
  rw [drop_eq_getElem_cons hlt, cons.injEq] at hdrop
  rw [take_succ_eq_append_getElem hlt, reverse_append, hdrop.1]
  rfl

theorem spans_cons (flags : Flags) (r : Region) (l : List Region) : spans flags (r :: l) =
    if r.label = flags then (r.base, r.stop) :: spans flags l else spans flags l := by
  unfold spans
  split_ifs with h <;> simp [h]

theorem mem_spans {flags : Flags} :
    m ∈ spans flags l ↔ ∃ r ∈ l, r.label = flags ∧ m = (r.base, r.stop) := by
  simp only [spans, mem_map, mem_filter, decide_eq_true_eq, and_assoc, eq_comm (a := m)]

theorem gapsFrom_start_le (h : l.Pairwise fun r s => r.stop ≤ s.base)
    (hstart : ∀ r ∈ l, start ≤ r.base) (hstop : ∀ r ∈ l, r.stop ≤ physAddrMax)
    (hle : start ≤ physAddrMax) : (∀ g ∈ gapsFrom start l, start ≤ g.1 ∧ g.1 ≤ g.2) ∧
      (gapsFrom start l).Pairwise fun g g' => g.2 ≤ g'.1 := by
  induction l generalizing start with
  | nil =>
    refine ⟨fun g hg => ?_, pairwise_singleton _ _⟩
    cases mem_singleton.mp hg
    exact ⟨le_rfl, hle⟩
  | cons r l ih =>
    obtain ⟨hr, hl⟩ := pairwise_cons.mp h
    have hbase := hstart r (.head _)
    have hsize : r.base ≤ r.stop := Nat.le_add_right _ _
    obtain ⟨hge, hpair⟩ := ih hl hr (fun s hs => hstop s (.tail _ hs)) (hstop r (.head _))
    constructor
    · intro g hg
      rcases mem_cons.mp hg with rfl | hg
      · exact ⟨le_rfl, hbase⟩
      · have := hge g hg
        omega
    · refine pairwise_cons.mpr ⟨fun g hg => ?_, hpair⟩
      have := (hge g hg).1
      exact hsize.trans this

theorem gaps_pairwise (h : InOrder b) : (∀ g ∈ gapsFrom 0 b.regions, g.1 ≤ g.2) ∧
      (gapsFrom 0 b.regions).Pairwise fun g g' => g.2 ≤ g'.1 := by
  obtain ⟨hle, hpair⟩ := gapsFrom_start_le h.pairwise (fun _ _ => Nat.zero_le _) h.stop_le
    (Nat.zero_le _)
  exact ⟨fun g hg => (hle g hg).2, hpair⟩

theorem gap_mem (hb : InOrder b) (hj : j ≤ b.cnt) : gap b j ∈ gapsFrom 0 b.regions := by
  refine mem_of_mem_drop (i := j) ?_
  rw [drop_gaps hb.stop_le hj]
  exact .head _

theorem gap_le_of_mem_drop (hb : InOrder b) (hj : j ≤ b.cnt) :
    (∀ g ∈ (gapsFrom 0 b.regions).drop j, (gap b j).1 ≤ g.1) ∧
      ∀ g ∈ (gapsFrom 0 b.regions).drop (j + 1), (gap b j).2 ≤ g.1 := by
  obtain ⟨hle, hpair⟩ := gaps_pairwise hb
  have hdrop := hpair.sublist (drop_sublist j _)
  rw [drop_gaps hb.stop_le hj] at hdrop ⊢
  obtain ⟨hafter, -⟩ := pairwise_cons.mp hdrop
  refine ⟨fun g hg => ?_, hafter⟩
  rcases mem_cons.mp hg with rfl | hg
  · exact le_rfl
  · exact (hle _ (gap_mem hb hj)).trans (hafter g hg)

theorem le_gap_of_mem_take (hb : InOrder b) (hj : j ≤ b.cnt) :
    (∀ g ∈ ((gapsFrom 0 b.regions).take (j + 1)).reverse, g.2 ≤ (gap b j).2) ∧
      ∀ g ∈ ((gapsFrom 0 b.regions).take j).reverse, g.2 ≤ (gap b j).1 := by
  obtain ⟨hle, hpair⟩ := gaps_pairwise hb
  have htake := pairwise_reverse.mpr (hpair.sublist (take_sublist (j + 1) _))
  rw [take_gaps hb.stop_le hj] at htake ⊢
  obtain ⟨hbefore, -⟩ := pairwise_cons.mp htake
  refine ⟨fun g hg => ?_, hbefore⟩
  rcases mem_cons.mp hg with rfl | hg
  · exact le_rfl
  · exact (hbefore g hg).trans (hle _ (gap_mem hb hj))

/-! ## One step forward -/

section Forward

variable {flags : Flags} {a b : MemblockType}

theorem spans_after (flags : Flags) (ha : InOrder a) (hi : i < a.cnt) :
    ∀ m ∈ spans flags (a.regions.drop (i + 1)), (a.regions.getD i dummy).stop ≤ m.1 := by
  intro m hm
  obtain ⟨r, hr, -, rfl⟩ := mem_spans.mp hm
  have hpair := ha.pairwise.sublist (drop_sublist i _)
  rw [drop_regions hi] at hpair
  exact (pairwise_cons.mp hpair).1 r hr

theorem stop_getD_le (ha : InOrder a) (hi : i < a.cnt) :
    (a.regions.getD i dummy).stop ≤ physAddrMax := by
  rw [getD_eq_getElem?_getD, getElem?_eq_getElem hi, Option.getD_some]
  exact ha.stop_le _ (getElem_mem hi)

theorem rend_getD (ha : InOrder a) (hi : i < a.cnt) :
    rend (a.regions.getD i dummy) = (a.regions.getD i dummy).stop :=
  rend_eq (stop_getD_le ha hi)

/-- The loop over the gaps, for the span of a region with the flags. -/
theorem nextGap_spec (ha : InOrder a) (hb : InOrder b) (hi : i < a.cnt)
    (hflags : flags = (a.regions.getD i dummy).label)
    (hm : m = ((a.regions.getD i dummy).base, (a.regions.getD i dummy).stop)) :
    ∀ {left j : Nat} {r : Nat × Option (Nat × Nat)}, left + j = b.cnt + 1 →
    nextGap b m.1 (rend (a.regions.getD i dummy)) left j = r → match r with
    | (j', none) => j' ≤ b.cnt + 1 ∧
        overlaps (spans flags (a.regions.drop i)) ((gapsFrom 0 b.regions).drop j) =
          overlaps (spans flags (a.regions.drop (i + 1))) ((gapsFrom 0 b.regions).drop j')
    | (j', some out) => j' ≤ b.cnt ∧ Meets m (gap b j') ∧ out = meet m (gap b j') ∧
        overlaps (spans flags (a.regions.drop i)) ((gapsFrom 0 b.regions).drop j) =
          overlaps (m :: spans flags (a.regions.drop (i + 1)))
            (gap b j' :: (gapsFrom 0 b.regions).drop (j' + 1)) := by
  rintro left j _ hj rfl
  have hend : rend (a.regions.getD i dummy) = m.2 := hm ▸ rend_getD ha hi
  have hle : m.1 ≤ m.2 := by
    subst hm
    exact Nat.le_add_right _ _
  have hms : ∀ m' ∈ spans flags (a.regions.drop (i + 1)), m.2 ≤ m'.1 := by
    rw [hm]
    exact spans_after flags ha hi
  rw [drop_regions hi, spans_cons, if_pos hflags.symm, ← hm, hend]
  fun_induction nextGap b m.1 m.2 left j with
  | case1 j =>
    have hnil : (gapsFrom 0 b.regions).drop j = [] := by
      rw [drop_eq_nil_iff, length_gapsFrom]
      exact (show b.cnt + 1 ≤ j by omega)
    refine ⟨by omega, ?_⟩
    rw [hnil]
    exact overlaps_skip_left (by simp)
  | case2 left j rStart rEnd hgap =>
    refine ⟨by omega, overlaps_skip_left fun g hg hmeet => ?_⟩
    have hstart := (gap_le_of_mem_drop hb (by omega)).1 g hg
    have hlt := hmeet.1
    rw [hgap] at hstart
    dsimp only at hstart
    omega
  | case3 left j rStart rEnd hgap hbreak hfound =>
    refine ⟨by omega, ?_, ?_, by rw [drop_gaps hb.stop_le (by omega)]⟩
    · rw [hgap]
      exact ⟨by omega, hfound⟩
    · rw [hgap]
      rfl
  | case4 left j rStart rEnd hgap hbreak hfound ih =>
    rw [drop_gaps hb.stop_le (by omega), hgap, overlaps_skip_right fun m' hm' hmeet => ?_]
    · exact ih (by omega)
    · have hlow : m.1 ≤ m'.1 := by
        rcases mem_cons.mp hm' with rfl | hm'
        · exact le_rfl
        · exact hle.trans (hms m' hm')
      have := hmeet.2
      dsimp only at this
      omega

/-- The next range is the first of the overlaps that are left, and the others are left at the
next position. -/
theorem nextRange_spec (flags : Flags) (ha : InOrder a) (hb : InOrder b) : ∀ {left i j : Nat},
    left + i = a.cnt → j ≤ b.cnt + 1 → match nextRange flags a b left i j with
    | none => overlaps (spans flags (a.regions.drop i)) ((gapsFrom 0 b.regions).drop j) = []
    | some (out, i', j') => i' ≤ a.cnt ∧ j' ≤ b.cnt ∧
        overlaps (spans flags (a.regions.drop i)) ((gapsFrom 0 b.regions).drop j) =
          out :: overlaps (spans flags (a.regions.drop i')) ((gapsFrom 0 b.regions).drop j') := by
  intro left i j hi hj
  fun_induction nextRange flags a b left i j with
  | case1 i =>
    rw [drop_of_length_le (show a.cnt ≤ i by omega)]
    rfl
  | case2 left i j m hflags ih =>
    rw [drop_regions (show i < a.cnt by omega), spans_cons, if_neg (Ne.symm hflags)]
    exact ih (by omega) hj
  | case3 left i j m hflags j' hgap ih =>
    obtain ⟨hj', hrest⟩ := nextGap_spec ha hb (show i < a.cnt by omega) (not_not.mp hflags) rfl
      (Nat.sub_add_cancel hj) hgap
    rw [hrest]
    exact ih (by omega) hj'
  | case4 left i j m hflags j' out hgap hend =>
    obtain ⟨hj', hmeets, rfl, hrest⟩ := nextGap_spec ha hb (show i < a.cnt by omega)
      (not_not.mp hflags) rfl (Nat.sub_add_cancel hj) hgap
    rw [rend_getD ha (by omega)] at hend
    refine ⟨by omega, by omega, ?_⟩
    rw [hrest, drop_gaps hb.stop_le hj']
    refine overlaps_left hmeets fun g hg hmeet => ?_
    have hafter := (gap_le_of_mem_drop hb hj').2 g hg
    have hlt : g.1 < (a.regions.getD i dummy).stop := hmeet.1
    omega
  | case5 left i j m hflags j' out hgap hend =>
    obtain ⟨hj', hmeets, rfl, hrest⟩ := nextGap_spec ha hb (show i < a.cnt by omega)
      (not_not.mp hflags) rfl (Nat.sub_add_cancel hj) hgap
    rw [rend_getD ha (by omega)] at hend
    -- the last gap goes up to the last address, so this is an earlier one
    have hlast : j' ≠ b.cnt := by
      rintro rfl
      refine hend (le_trans (stop_getD_le ha (by omega)) ?_)
      rw [gap, if_neg (lt_irrefl _)]
    refine ⟨by omega, by omega, ?_⟩
    rw [hrest, overlaps_right hmeets fun m' hm' hmeet => ?_]
    · rw [drop_regions (show i < a.cnt by omega), spans_cons, if_pos (not_not.mp hflags).symm]
    · have hafter := spans_after flags ha (show i < a.cnt by omega) m' hm'
      have hlt := hmeet.2
      omega

end Forward

/-! ## One step backward -/

section Backward

variable {flags : Flags} {a b : MemblockType}

theorem spans_before (flags : Flags) (ha : InOrder a) (hi : i < a.cnt) :
    ∀ m ∈ spans flags (a.regions.take i).reverse, m.2 ≤ (a.regions.getD i dummy).base := by
  intro m hm
  obtain ⟨r, hr, -, rfl⟩ := mem_spans.mp hm
  have hpair := pairwise_reverse.mpr
    (ha.pairwise.sublist (take_sublist (i + 1) _))
  rw [take_regions hi] at hpair
  exact (pairwise_cons.mp hpair).1 r hr

theorem nextGapRev_spec (ha : InOrder a) (hb : InOrder b) (hi : i < a.cnt)
    (hflags : flags = (a.regions.getD i dummy).label)
    (hm : m = ((a.regions.getD i dummy).base, (a.regions.getD i dummy).stop)) :
    ∀ {left : Nat} {r : Nat × Option (Nat × Nat)}, left ≤ b.cnt + 1 →
    nextGapRev b m.1 (rend (a.regions.getD i dummy)) left = r → match r with
    | (left', none) => left' ≤ b.cnt + 1 ∧ overlaps (spans flags (a.regions.take (i + 1)).reverse)
            ((gapsFrom 0 b.regions).take left).reverse =
          overlaps (spans flags (a.regions.take i).reverse)
            ((gapsFrom 0 b.regions).take left').reverse
    | (left', some out) => 0 < left' ∧ left' ≤ b.cnt + 1 ∧ Meets m (gap b (left' - 1)) ∧
        out = meet m (gap b (left' - 1)) ∧ overlaps (spans flags (a.regions.take (i + 1)).reverse)
            ((gapsFrom 0 b.regions).take left).reverse =
          overlaps (m :: spans flags (a.regions.take i).reverse)
            (gap b (left' - 1) :: ((gapsFrom 0 b.regions).take (left' - 1)).reverse) := by
  rintro left _ hleft rfl
  have hend : rend (a.regions.getD i dummy) = m.2 := hm ▸ rend_getD ha hi
  have hle : m.1 ≤ m.2 := by
    subst hm
    exact Nat.le_add_right _ _
  have hms : ∀ m' ∈ spans flags (a.regions.take i).reverse, m'.2 ≤ m.1 := by
    rw [hm]
    exact spans_before flags ha hi
  rw [take_regions hi, spans_cons, if_pos hflags.symm, ← hm, hend]
  fun_induction nextGapRev b m.1 m.2 left with
  | case1 => exact ⟨Nat.zero_le _, overlaps_skip_left (by simp)⟩
  | case2 j rStart rEnd hgap =>
    refine ⟨hleft, overlaps_skip_left fun g hg hmeet => ?_⟩
    have hend := (le_gap_of_mem_take hb (by omega)).1 g hg
    have hlt := hmeet.2
    rw [hgap] at hend
    dsimp only at hend
    omega
  | case3 j rStart rEnd hgap hbreak hfound =>
    refine ⟨Nat.succ_pos _, hleft, ?_, ?_, ?_⟩
    · rw [Nat.add_sub_cancel, hgap]
      exact ⟨hfound, by omega⟩
    · rw [Nat.add_sub_cancel, hgap]
      rfl
    · rw [Nat.add_sub_cancel, take_gaps hb.stop_le (by omega)]
  | case4 j rStart rEnd hgap hbreak hfound ih =>
    rw [take_gaps hb.stop_le (by omega), hgap, overlaps_skip_right fun m' hm' hmeet => ?_]
    · exact ih (by omega)
    · have hhigh : m'.2 ≤ m.2 := by
        rcases mem_cons.mp hm' with rfl | hm'
        · exact le_rfl
        · exact (hms m' hm').trans hle
      have := hmeet.1
      dsimp only at this
      omega

theorem nextRangeRev_spec (flags : Flags) (ha : InOrder a) (hb : InOrder b) :
    ∀ {left leftB : Nat}, left ≤ a.cnt → leftB ≤ b.cnt + 1 →
    match nextRangeRev flags a b left leftB with
    | none => overlaps (spans flags (a.regions.take left).reverse)
        ((gapsFrom 0 b.regions).take leftB).reverse = []
    | some (out, left', leftB') => left' ≤ a.cnt ∧ 0 < leftB' ∧ leftB' ≤ b.cnt + 1 ∧
        overlaps (spans flags (a.regions.take left).reverse)
            ((gapsFrom 0 b.regions).take leftB).reverse =
          out :: overlaps (spans flags (a.regions.take left').reverse)
            ((gapsFrom 0 b.regions).take leftB').reverse := by
  intro left leftB hleft hleftB
  fun_induction nextRangeRev flags a b left leftB with
  | case1 => rfl
  | case2 i leftB m hflags ih =>
    rw [take_regions (show i < a.cnt by omega), spans_cons, if_neg (Ne.symm hflags)]
    exact ih (by omega) hleftB
  | case3 i leftB m hflags leftB' hgap ih =>
    obtain ⟨hle, hrest⟩ := nextGapRev_spec ha hb (show i < a.cnt by omega) (not_not.mp hflags) rfl
      hleftB hgap
    rw [hrest]
    exact ih (by omega) hle
  | case4 i leftB m hflags leftB' out hgap hstart =>
    obtain ⟨hpos, hle, hmeets, rfl, hrest⟩ := nextGapRev_spec ha hb (show i < a.cnt by omega)
      (not_not.mp hflags) rfl hleftB hgap
    change (gap b (leftB' - 1)).1 ≤ (a.regions.getD i dummy).base at hstart
    refine ⟨by omega, hpos, hle, ?_⟩
    have htake := take_gaps hb.stop_le (show leftB' - 1 ≤ b.cnt by omega)
    rw [Nat.sub_add_cancel hpos] at htake
    rw [hrest, htake]
    refine overlaps_left hmeets fun g hg hmeet => ?_
    have hbefore := (le_gap_of_mem_take hb (show leftB' - 1 ≤ b.cnt by omega)).2 g hg
    have hlt : (a.regions.getD i dummy).base < g.2 := hmeet.2
    omega
  | case5 i leftB m hflags leftB' out hgap hstart =>
    obtain ⟨hpos, hle, hmeets, rfl, hrest⟩ := nextGapRev_spec ha hb (show i < a.cnt by omega)
      (not_not.mp hflags) rfl hleftB hgap
    change ¬ (gap b (leftB' - 1)).1 ≤ (a.regions.getD i dummy).base at hstart
    -- the first gap starts at zero, so this is a later one
    have hfirst : leftB' - 1 ≠ 0 := by
      intro hzero
      rw [hzero] at hstart
      exact hstart (Nat.zero_le _)
    refine ⟨by omega, by omega, by omega, ?_⟩
    rw [hrest, overlaps_right hmeets fun m' hm' hmeet => ?_]
    · rw [take_regions (show i < a.cnt by omega), spans_cons, if_pos (not_not.mp hflags).symm]
    · have hbefore := spans_before flags ha (show i < a.cnt by omega) m' hm'
      have hlt := hmeet.1
      omega

end Backward

/-! ## The whole iteration -/

/-- A step function that goes through a list: at each position it yields the first element that
is left. -/
theorem forEach_eq {next : Nat → Nat × Option (Nat × Nat)} (Left : Nat → List (Nat × Nat) → Prop)
    (hnext : ∀ idx l, Left idx l → match next idx with
      | (_, none) => l = []
      | (idx', some out) => idx' ≠ ullongMax ∧ ∃ l', l = out :: l' ∧ Left idx' l') :
    ∀ {fuel idx : Nat} {l : List (Nat × Nat)}, Left idx l → l.length < fuel →
      forEach next fuel idx = some l := by
  intro fuel
  induction fuel with
  | zero =>
    intro idx l _ hlt
    exact absurd hlt (Nat.not_lt_zero _)
  | succ fuel ih =>
    intro idx l hl hlt
    have hstep := hnext idx l hl
    rw [forEach]
    generalize next idx = r at hstep ⊢
    match r with
    | (_, none) =>
      cases hstep
      rfl
    | (idx', some out) =>
      obtain ⟨hne, l', rfl, hl'⟩ := hstep
      dsimp only
      rw [if_neg hne, ih hl' (Nat.lt_of_succ_lt_succ hlt)]
      rfl

variable {i j : Int}

theorem unpack_pack (hi : -1 ≤ i) (hi' : i < 2 ^ 31) (hj : -1 ≤ j) (hj' : j < 2 ^ 31) :
    unpackA (pack i j) = i ∧ unpackB (pack i j) = j := by
  unfold unpackA unpackB pack int32 bits
  constructor
  · split_ifs <;> omega
  · split_ifs <;> omega

theorem pack_ne (hi : -1 ≤ i) (hi' : i < 2 ^ 31) (hj : 0 ≤ j) (hj' : j < 2 ^ 31) : pack i j ≠ ullongMax := by
  unfold pack ullongMax bits
  split_ifs <;> omega

section Iteration

variable {flags : Flags} {a b : MemblockType}

variable {fuel : Nat}

section

variable (ha : InOrder a) (hb : InOrder b)
  (hfuel : (overlaps (spans flags a.regions) (gapsFrom 0 b.regions)).length < fuel)
include ha hb hfuel

theorem forEachFreeMemRange_eq : forEachFreeMemRange a b flags fuel =
      some (overlaps (spans flags a.regions) (gapsFrom 0 b.regions)) := by
  have hcnt := ha.cnt_le.trans_lt ha.max_lt
  have hcnt' := hb.cnt_le.trans_lt hb.max_lt
  refine forEach_eq (fun idx l => ∃ i j : Nat, i ≤ a.cnt ∧ j ≤ b.cnt ∧ pack i j = idx ∧
    l = overlaps (spans flags (a.regions.drop i)) ((gapsFrom 0 b.regions).drop j)) ?_
    ⟨0, 0, Nat.zero_le _, Nat.zero_le _, rfl, rfl⟩ hfuel
  rintro idx l ⟨i, j, hi, hj, hidx, rfl⟩
  rw [← hidx]
  obtain ⟨hA, hB⟩ := unpack_pack (i := i) (j := j) (by omega) (by omega) (by omega) (by omega)
  have hbits : ∀ n : Nat, bits 64 n = n := by
    intro n
    unfold bits
    rw [if_neg (by omega), Int.toNat_natCast]
  have hspec := nextRange_spec flags ha hb (Nat.sub_add_cancel hi) (Nat.le_succ_of_le hj)
  rw [nextMemRange, hA, hB, hbits, hbits]
  generalize nextRange flags a b (a.cnt - i) i j = r at hspec ⊢
  match r with
  | none => exact hspec
  | some (out, i', j') =>
    obtain ⟨hi', hj', hrest⟩ := hspec
    exact ⟨pack_ne (by omega) (by omega) (by omega) (by omega), _, hrest, i', j', hi', hj', rfl, rfl⟩

theorem forEachFreeMemRangeReverse_eq : forEachFreeMemRangeReverse a b flags fuel =
      some (overlaps (spans flags a.regions) (gapsFrom 0 b.regions)).reverse := by
  have hcnt := ha.cnt_le.trans_lt ha.max_lt
  have hcnt' := hb.cnt_le.trans_lt hb.max_lt
  refine forEach_eq (fun idx l => ∃ left leftB : Nat, left ≤ a.cnt ∧ leftB ≤ b.cnt + 1 ∧
    (idx = ullongMax ∧ left = a.cnt ∧ leftB = b.cnt + 1 ∨
      0 < leftB ∧ idx = pack (left - 1) (leftB - 1)) ∧
    l = overlaps (spans flags (a.regions.take left).reverse)
      ((gapsFrom 0 b.regions).take leftB).reverse) ?_ ?_ (by rwa [length_reverse])
  · rintro idx _ ⟨left, leftB, hleft, hleftB, hidx, rfl⟩
    have harg : (if idx = ullongMax then a.cnt else (unpackA idx + 1).toNat) = left ∧
        (if idx = ullongMax then b.cnt + 1 else (unpackB idx + 1).toNat) = leftB := by
      rcases hidx with ⟨rfl, rfl, rfl⟩ | ⟨hpos, rfl⟩
      · exact ⟨rfl, rfl⟩
      · obtain ⟨hA, hB⟩ := unpack_pack (i := left - 1) (j := leftB - 1) (by omega) (by omega)
          (by omega) (by omega)
        have hne : pack (left - 1) (leftB - 1) ≠ ullongMax := pack_ne (by omega) (by omega) (by omega) (by omega)
        rw [if_neg hne, if_neg hne, hA, hB]
        omega
    have hspec := nextRangeRev_spec flags ha hb hleft hleftB
    rw [nextMemRangeRev, harg.1, harg.2]
    generalize nextRangeRev flags a b left leftB = r at hspec ⊢
    match r with
    | none => exact hspec
    | some (out, left', leftB') =>
      obtain ⟨hleft', hpos, hleftB', hrest⟩ := hspec
      exact ⟨pack_ne (by omega) (by omega) (by omega) (by omega), _, hrest, left', leftB', hleft', hleftB',
        .inr ⟨hpos, rfl⟩, rfl⟩
  · refine ⟨a.cnt, b.cnt + 1, le_rfl, le_rfl, .inl ⟨rfl, rfl, rfl⟩, ?_⟩
    have hall : (gapsFrom 0 b.regions).take (b.cnt + 1) = gapsFrom 0 b.regions :=
      take_of_length_le (length_gapsFrom 0 b.regions).le
    have hspans : spans flags a.regions.reverse = (spans flags a.regions).reverse := by
      simp [spans]
    rw [hall, MemblockType.cnt, take_length, hspans, overlaps_reverse]

end

theorem mem_gapsFrom (h : l.Pairwise fun r s => r.stop ≤ s.base) (hstart : ∀ r ∈ l, start ≤ r.base)
    (hx : x < physAddrMax) :
    (∃ g ∈ gapsFrom start l, g.1 ≤ x ∧ x < g.2) ↔ start ≤ x ∧ ¬ Covered l x := by
  induction l generalizing start with
  | nil => simp [gapsFrom, hx]
  | cons r l ih =>
    obtain ⟨hr, hl⟩ := pairwise_cons.mp h
    have hbase := hstart r (.head _)
    have hsize : r.base ≤ r.stop := Nat.le_add_right _ _
    have hlow : x < r.base → ¬ Covered l x := by
      rintro hlt ⟨s, hs, hsx⟩
      have := hr s hs
      have := hsx.1
      omega
    have hcov : r.Covers x ↔ r.base ≤ x ∧ x < r.stop := Iff.rfl
    simp only [gapsFrom, mem_cons, exists_eq_or_imp, ih hl hr, covered_cons, hcov, not_or]
    constructor
    · rintro (⟨hle, hlt⟩ | ⟨hle, hnot⟩)
      · exact ⟨hle, by omega, hlow hlt⟩
      · exact ⟨by omega, by omega, hnot⟩
    · rintro ⟨hle, hout, hnot⟩
      by_cases hlt : x < r.base
      · exact .inl ⟨hle, hlt⟩
      · exact .inr ⟨by omega, hnot⟩

theorem mem_gapsFrom_of_span {u v : Nat} (hsize : ∀ r ∈ l, r.base < r.stop ∨ r.stop = 0)
    (hstart : start ≤ u) (hlt : u < v) (hv : v ≤ physAddrMax)
    (hfree : ∀ x, u ≤ x → x < v → ¬ Covered l x) : ∃ g ∈ gapsFrom start l, g.1 ≤ u ∧ v ≤ g.2 := by
  induction l generalizing start with
  | nil => exact ⟨_, .head _, hstart, hv⟩
  | cons r l ih =>
    by_cases hr : v ≤ r.base
    · exact ⟨_, .head _, hstart, hr⟩
    · have hpos := hsize r (.head _)
      have hstop : r.stop ≤ u := by
        by_contra hu
        exact hfree (max u r.base) (Nat.le_max_left _ _) (by omega)
          ⟨r, .head _, Nat.le_max_right _ _, Nat.max_lt.mpr ⟨by omega, by omega⟩⟩
      obtain ⟨g, hg, hle⟩ := ih (fun s hs => hsize s (.tail _ hs)) hstop
        fun x hx hxv ⟨s, hs, hcov⟩ => hfree x hx hxv ⟨s, .tail _ hs, hcov⟩
      exact ⟨g, .tail _ hg, hle⟩

/-- The addresses that an iteration is to yield. -/
def Free (a b : MemblockType) (flags : Flags) (x : Nat) : Prop :=
  Marks a.regions x flags ∧ ¬ Covered b.regions x

theorem free_iff (ha : InOrder a) (hb : InOrder b) (x : Nat) : Free a b flags x ↔
    ∃ p ∈ overlaps (spans flags a.regions) (gapsFrom 0 b.regions), p.1 ≤ x ∧ x < p.2 := by
  constructor
  · rintro ⟨⟨r, hr, hx, hlabel⟩, hnot⟩
    have hstop := ha.stop_le r hr
    have hlt := hx.2
    obtain ⟨g, hg, hgx⟩ := (mem_gapsFrom hb.pairwise (fun _ _ => Nat.zero_le _)
      (show x < physAddrMax by omega)).mpr ⟨Nat.zero_le _, hnot⟩
    refine ⟨meet (r.base, r.stop) g, mem_overlaps.mpr ⟨_, mem_spans.mpr ⟨r, hr, hlabel, rfl⟩, g,
      hg, ⟨?_, ?_⟩, rfl⟩, ?_, ?_⟩
    · exact hgx.1.trans_lt hx.2
    · exact hx.1.trans_lt hgx.2
    · exact Nat.max_le.mpr ⟨hx.1, hgx.1⟩
    · exact Nat.lt_min.mpr ⟨hx.2, hgx.2⟩
  · rintro ⟨p, hp, hle, hlt⟩
    obtain ⟨m, hm, g, hg, -, rfl⟩ := mem_overlaps.mp hp
    obtain ⟨r, hr, hlabel, rfl⟩ := mem_spans.mp hm
    obtain ⟨hrx, hgx⟩ := Nat.max_le.mp hle
    obtain ⟨hrx', hgx'⟩ := Nat.lt_min.mp hlt
    have hstop := ha.stop_le r hr
    dsimp only at hrx hrx'
    exact ⟨⟨r, hr, ⟨hrx, hrx'⟩, hlabel⟩, ((mem_gapsFrom hb.pairwise (fun _ _ => Nat.zero_le _)
      (show x < physAddrMax by omega)).mp ⟨g, hg, hgx, hgx'⟩).2⟩

theorem spans_pairwise (ha : WellFormed a) :
    (spans flags a.regions).Pairwise fun m m' => m.2 < m'.1 := by
  rcases ha.regions with hdummy | ⟨-, hordered, hreduced⟩
  · rw [hdummy, spans_cons]
    split_ifs
    · exact pairwise_singleton _ _
    · exact .nil
  · refine pairwise_map.mpr (((hordered.pairwise.and hreduced).filter _).imp_of_mem
      fun {r s} hr hs hrs => ?_)
    have hr := of_decide_eq_true (mem_filter.mp hr).2
    have hs := of_decide_eq_true (mem_filter.mp hs).2
    refine lt_of_le_of_ne hrs.1 fun htouch => hrs.2 htouch ?_
    rw [hr, hs]

theorem gapsFrom_pairwise_lt (h : Ordered l) (hstart : ∀ r ∈ l, start ≤ r.base)
    (hstop : ∀ r ∈ l, r.stop ≤ physAddrMax) (hle : start ≤ physAddrMax) :
    (gapsFrom start l).Pairwise fun g g' => g.2 < g'.1 := by
  induction l generalizing start with
  | nil => exact pairwise_singleton _ _
  | cons r l ih =>
    obtain ⟨hpos, hr, hl⟩ := ordered_cons.mp h
    have hstop' := fun s hs => hstop s (.tail _ hs)
    refine pairwise_cons.mpr ⟨fun g hg => ?_, ih hl hr hstop' (hstop r (.head _))⟩
    have hge := (gapsFrom_start_le hl.pairwise hr hstop' (hstop r (.head _))).1 g hg
    exact (Nat.lt_add_of_pos_right hpos).trans_le hge.1

theorem separated_free (flags : Flags) (ha : WellFormed a) (hb : InOrder b) :
    Separated (overlaps (spans flags a.regions) (gapsFrom 0 b.regions)) := by
  have hspans : ∀ m ∈ spans flags a.regions, m.1 ≤ m.2 := by
    intro m hm
    obtain ⟨r, -, -, rfl⟩ := mem_spans.mp hm
    exact Nat.le_add_right _ _
  rcases hb.regions with hdummy | ⟨-, hordered⟩
  · -- the gap before the dummy is empty and meets nothing
    have hgaps : gapsFrom 0 b.regions = [(0, 0), (0, physAddrMax)] := by
      rw [hdummy]
      rfl
    rw [hgaps, overlaps_skip_right fun m _ hmeet => absurd hmeet.2 (Nat.not_lt_zero _)]
    exact separated_overlaps (spans_pairwise ha) (pairwise_singleton _ _)
      (by simp) hspans
  · exact separated_overlaps (spans_pairwise ha)
      (gapsFrom_pairwise_lt hordered (fun _ _ => Nat.zero_le _) hb.stop_le (Nat.zero_le _))
      (gaps_pairwise hb).1 hspans

/-! ## Empty ranges -/

theorem touch_of_mem_gapsFrom (h : (x, x) ∈ gapsFrom start l) (hx : x < physAddrMax) :
    (x = start ∨ ∃ r ∈ l, r.stop = x) ∧ ∃ s ∈ l, s.base = x := by
  induction l generalizing start with
  | nil =>
    obtain ⟨-, rfl⟩ := Prod.mk.inj (mem_singleton.mp h)
    exact absurd hx (lt_irrefl _)
  | cons r l ih =>
    rcases mem_cons.mp h with heq | h
    · obtain ⟨rfl, hbase⟩ := Prod.mk.inj heq
      exact ⟨.inl rfl, r, .head _, hbase.symm⟩
    · obtain ⟨hstop, s, hs, hbase⟩ := ih h
      refine ⟨.inr ?_, s, .tail _ hs, hbase⟩
      rcases hstop with rfl | ⟨q, hq, hstop⟩
      · exact ⟨r, .head _, rfl⟩
      · exact ⟨q, .tail _ hq, hstop⟩

theorem mem_gapsFrom_of_base (h : Ordered l) (hstart : ∀ r ∈ l, start ≤ r.base) {s : Region}
    (hs : s ∈ l) (hbase : s.base = start) : (start, start) ∈ gapsFrom start l := by
  cases l with
  | nil => cases hs
  | cons r =>
    obtain ⟨hpos, hr, -⟩ := ordered_cons.mp h
    rcases mem_cons.mp hs with rfl | hs
    · rw [gapsFrom, hbase]
      exact .head _
    · have := hr s hs
      have := hstart r (.head _)
      have : r.stop = r.base + r.size := rfl
      omega

theorem mem_gapsFrom_of_touch (h : Ordered l) {r s : Region} (hr : r ∈ l) (hs : s ∈ l)
    (hstop : r.stop = x) (hbase : s.base = x) : (x, x) ∈ gapsFrom start l := by
  induction l generalizing start with
  | nil => cases hr
  | cons q l ih =>
    obtain ⟨-, hq, hl⟩ := ordered_cons.mp h
    have hpos := h.pos
    have hsize : ∀ t : Region, t.stop = t.base + t.size := fun _ => rfl
    -- the second region is not the first of the list, since the other one ends before it
    have hs' : s ∈ l := by
      rcases mem_cons.mp hs with rfl | hs
      · have hrpos := hpos r hr
        have hspos := hpos s (.head _)
        have := hsize r
        have := hsize s
        rcases mem_cons.mp hr with rfl | hr
        · omega
        · have := hq r hr
          omega
      · exact hs
    rcases mem_cons.mp hr with rfl | hr
    · subst hstop
      exact .tail _ (mem_gapsFrom_of_base hl hq hs' hbase)
    · exact .tail _ (ih hl hr hs')

/-- Two reserved regions touch at `x`, inside a memory region with the flags. -/
def TouchInside (a b : MemblockType) (flags : Flags) (x : Nat) : Prop :=
  (∃ r ∈ b.regions, r.stop = x) ∧ (∃ s ∈ b.regions, s.base = x) ∧
    ∃ m ∈ a.regions, m.label = flags ∧ m.base < x ∧ x < m.stop

theorem mem_overlaps_empty (ha : InOrder a) (hb : InOrder b) (x : Nat) :
    (x, x) ∈ overlaps (spans flags a.regions) (gapsFrom 0 b.regions) ↔ TouchInside a b flags x := by
  constructor
  · intro h
    obtain ⟨m, hm, g, hg, hmeet, heq⟩ := mem_overlaps.mp h
    obtain ⟨r, hr, hlabel, rfl⟩ := mem_spans.mp hm
    have hle := (gaps_pairwise hb).1 g hg
    have hstop := ha.stop_le r hr
    obtain ⟨hmeet1, hmeet2⟩ := hmeet
    obtain ⟨hlo, hhi⟩ := Prod.mk.inj heq
    dsimp only at hmeet1 hmeet2 hlo hhi
    have hlt : r.base < r.stop := by
      rcases ha.regions with hdummy | ⟨-, hordered⟩
      · rw [hdummy] at hr
        cases mem_singleton.mp hr
        exact absurd hmeet1 (Nat.not_lt_zero _)
      · exact Nat.lt_add_of_pos_right (hordered.pos r hr)
    have hbounds : g = (x, x) ∧ r.base < x ∧ x < r.stop :=
      ⟨Prod.ext (show g.1 = x by omega) (show g.2 = x by omega), by omega, by omega⟩
    obtain ⟨rfl, hlow, hhigh⟩ := hbounds
    obtain ⟨hends, hstarts⟩ := touch_of_mem_gapsFrom hg (by omega)
    exact ⟨hends.resolve_left (by omega), hstarts, r, hr, hlabel, hlow, hhigh⟩
  · rintro ⟨⟨r, hr, hstop⟩, ⟨s, hs, hbase⟩, m, hm, hlabel, hlow, hhigh⟩
    rcases hb.regions with hdummy | ⟨-, hordered⟩
    · rw [hdummy] at hr
      cases mem_singleton.mp hr
      have : (0 : Nat) = x := hstop
      omega
    · refine mem_overlaps.mpr ⟨_, mem_spans.mpr ⟨m, hm, hlabel, rfl⟩, (x, x),
        mem_gapsFrom_of_touch hordered hr hs hstop hbase, ⟨hhigh, hlow⟩, ?_⟩
      unfold meet
      dsimp only
      rw [max_eq_right hlow.le, min_eq_right hhigh.le]

/-- Both iterations end and yield the same ranges, in increasing and in decreasing order: the
maximal free ranges, and an empty range wherever two reserved regions touch inside a memory
region with the given flags. -/
theorem forEachFreeMemRange_spec (ha : WellFormed a) (hb : WellFormed b) (flags : Flags) :
    ∃ l : List (Nat × Nat),
      (∀ fuel, l.length < fuel → forEachFreeMemRange a b flags fuel = some l ∧
        forEachFreeMemRangeReverse a b flags fuel = some l.reverse) ∧
      (l.Pairwise fun p q => p.2 < q.1) ∧
      ∀ p, p ∈ l ↔ MaximalSpan (Free a b flags) p ∨
        (p.1 = p.2 ∧ TouchInside a b flags p.1) := by
  have hsep := separated_free flags ha hb.inOrder
  refine ⟨overlaps (spans flags a.regions) (gapsFrom 0 b.regions), fun fuel hfuel =>
    ⟨forEachFreeMemRange_eq ha.inOrder hb.inOrder hfuel,
      forEachFreeMemRangeReverse_eq ha.inOrder hb.inOrder hfuel⟩,
    hsep.pairwise, fun p => ?_⟩
  rcases Nat.lt_trichotomy p.1 p.2 with hlt | heq | hgt
  · rw [hsep.mem_iff (free_iff ha.inOrder hb.inOrder) hlt]
    exact ⟨.inl, fun h => h.resolve_right fun hempty => absurd hempty.1 hlt.ne⟩
  · have hp : p = (p.1, p.1) := Prod.ext rfl heq.symm
    rw [hp, mem_overlaps_empty ha.inOrder hb.inOrder]
    exact ⟨fun h => .inr ⟨rfl, h⟩, fun h => h.elim (fun hmax => absurd hmax.lt (lt_irrefl _)) And.right⟩
  · refine iff_of_false (fun hp => absurd (hsep.le p hp) (by omega)) ?_
    rintro (hmax | ⟨heq, -⟩)
    · exact absurd hmax.lt (by omega)
    · omega

end Iteration

/-! ## A table with an empty gap -/

/-- Memory from `0x1000` to `0x4000`. -/
def memorySample : MemblockType := ⟨4, 0x3000, [⟨0x1000, 0x3000, 0⟩]⟩

theorem memorySample_wellFormed : WellFormed memorySample := by
  refine ⟨.inr ⟨cons_ne_nil _ _, ⟨?_, ?_⟩, ?_⟩, ?_, rfl, by decide, by decide⟩ <;>
    simp [memorySample, Reduced, Extent.stop, physAddrMax]

/-- Two reserved regions that touch at `0x2800` and have different flags. -/
def reservedSample : MemblockType := ⟨4, 0x1000, [⟨0x2000, 0x800, 0⟩, ⟨0x2800, 0x800, 1⟩]⟩

theorem reservedSample_wellFormed : WellFormed reservedSample := by
  refine ⟨.inr ⟨cons_ne_nil _ _, ⟨?_, ?_⟩, ?_⟩, ?_, rfl, by decide, by decide⟩ <;>
    simp [reservedSample, Reduced, Extent.stop, physAddrMax]

/-- The range between the two reserved regions is empty. -/
theorem forEachFreeMemRange_empty : WellFormed memorySample ∧ WellFormed reservedSample ∧
    forEachFreeMemRange memorySample reservedSample 0 4 =
      some [(0x1000, 0x2000), (0x2800, 0x2800), (0x3000, 0x4000)] :=
  ⟨memorySample_wellFormed, reservedSample_wellFormed, by decide +kernel⟩

theorem forEachFreeMemRange_spec_sample : ∃ l : List (Nat × Nat),
    (∀ fuel, l.length < fuel → forEachFreeMemRange memorySample reservedSample 0 fuel = some l ∧
      forEachFreeMemRangeReverse memorySample reservedSample 0 fuel = some l.reverse) ∧
    ((0x1000, 0x2000) ∈ l ↔
      MaximalSpan (Free memorySample reservedSample 0) (0x1000, 0x2000)) := by
  obtain ⟨l, hiter, -, hmem⟩ := forEachFreeMemRange_spec memorySample_wellFormed
    reservedSample_wellFormed 0
  refine ⟨l, hiter, (hmem _).trans ⟨fun h => h.resolve_right (by simp), .inl⟩⟩

end MinixRt.Memblock
