import MinixRt.PageAlloc.Boot

/-!
# What the hand-over does to each frame

A free range is freed frame by frame exactly once (`freePagesMemory_spec`), and the zone of a
frame is the one that the last `__init_single_page` set. So the hand-over is right for the
frames in free ranges, and the question is which frames the loops miss: a frame that belongs
to two memory regions, and a reserved frame that is not initialised because the end of a
reserved region is its last address in one place and the first address behind it in another
(`handOver_iff`).
-/

namespace MinixRt.PageAlloc

open List MinixRt.Lib MinixRt.Memblock

/-! ## Splitting a range into blocks -/

theorem fitOrder_fits {start stop : Nat} (h : start < stop) (order : Nat) :
    start + 2 ^ fitOrder start stop order ≤ stop := by
  induction order with
  | zero => exact h
  | succ order ih =>
    unfold fitOrder
    split_ifs with hbig
    · exact ih
    · exact Nat.le_of_not_lt hbig

theorem fitOrder_le (start stop order : Nat) : fitOrder start stop order ≤ order := by
  induction order with
  | zero => exact le_rfl
  | succ order ih =>
    unfold fitOrder
    split_ifs
    · exact Nat.le_succ_of_le ih
    · exact le_rfl

theorem two_pow_ctz_dvd (w n : Nat) : 2 ^ ctz w n ∣ n := by
  fun_induction ctz w n with
  | case1 n => exact one_dvd n
  | case2 w n => exact one_dvd n
  | case3 w n =>
    have hn : n = n / 2 * 2 := by omega
    rw [pow_succ, hn]
    exact Nat.mul_dvd_mul_right (by rwa [← hn]) 2

/-- The blocks follow one another from `a` up to `z`. -/
def Consecutive : Nat → List Block → Nat → Prop
  | a, [], z => a = z
  | a, b :: bs, z => b.base = a ∧ Consecutive (a + 2 ^ b.order) bs z

theorem Consecutive.covers {bs : List Block} {a z : Nat} (h : Consecutive a bs z) :
    (∀ b ∈ bs, a ≤ b.base) ∧ (bs.Pairwise fun b c => b.base + 2 ^ b.order ≤ c.base) ∧ a ≤ z ∧
      ∀ x, (∃ b ∈ bs, b.Covers x) ↔ a ≤ x ∧ x < z := by
  induction bs generalizing a with
  | nil =>
    obtain rfl : a = z := h
    refine ⟨by simp, .nil, le_rfl, fun x => ?_⟩
    simp only [not_mem_nil, false_and, exists_false, false_iff]
    omega
  | cons b bs ih =>
    obtain ⟨rfl, hbs⟩ := h
    obtain ⟨hbase, hpair, hle, hcover⟩ := ih hbs
    have hpos := Nat.two_pow_pos b.order
    refine ⟨?_, pairwise_cons.mpr ⟨hbase, hpair⟩, by omega, fun x => ?_⟩
    · intro c hc
      rcases mem_cons.mp hc with rfl | hc
      · exact le_rfl
      · have := hbase c hc
        omega
    · rw [exists_mem_cons_iff, hcover]
      simp only [Block.Covers]
      omega

theorem freePagesLoop_consecutive (maxOrder stop : Nat) {fuel start : Nat} (hle : start ≤ stop)
    (hfuel : stop - start ≤ fuel) :
    Consecutive start (freePagesLoop maxOrder stop fuel start) stop ∧
      ∀ b ∈ freePagesLoop maxOrder stop fuel start, b.order ≤ maxOrder - 1 ∧ 2 ^ b.order ∣ b.base := by
  induction fuel generalizing start with
  | zero => exact ⟨by unfold freePagesLoop Consecutive; omega, by simp [freePagesLoop]⟩
  | succ fuel ih =>
    unfold freePagesLoop
    split_ifs with hlt
    · have hfits := fitOrder_fits hlt (min (maxOrder - 1) (ffs start))
      have horder := fitOrder_le start stop (min (maxOrder - 1) (ffs start))
      dsimp only
      generalize fitOrder start stop (min (maxOrder - 1) (ffs start)) = order at hfits horder ⊢
      have hpos := Nat.two_pow_pos order
      obtain ⟨hrest, hall⟩ := ih hfits (by omega)
      refine ⟨⟨rfl, hrest⟩, fun b hb => ?_⟩
      rcases mem_cons.mp hb with rfl | hb
      · refine ⟨horder.trans (min_le_left _ _), ?_⟩
        exact (pow_dvd_pow 2 (horder.trans (min_le_right _ _))).trans (two_pow_ctz_dvd 64 start)
      · exact hall b hb
    · exact ⟨Nat.le_antisymm hle (Nat.not_lt.mp hlt), by simp⟩

/-- `__free_pages_memory` ends after at most one round for each frame. Its blocks follow one another
from the first frame to the last, so that each frame is in exactly one of them, and each of them is
aligned to its size. -/
theorem freePagesMemory_spec {maxOrder start stop fuel : Nat} (hmax : 0 < maxOrder)
    (hlt : start < stop) (hfuel : stop - start ≤ fuel) :
    Consecutive start (freePagesLoop maxOrder stop fuel start) stop ∧
      ((freePagesLoop maxOrder stop fuel start).Pairwise fun b c => b.base + 2 ^ b.order ≤ c.base) ∧
      (∀ x, (∃ b ∈ freePagesLoop maxOrder stop fuel start, b.Covers x) ↔ start ≤ x ∧ x < stop) ∧
      ∀ b ∈ freePagesLoop maxOrder stop fuel start, b.order < maxOrder ∧ 2 ^ b.order ∣ b.base := by
  obtain ⟨hcons, hall⟩ := freePagesLoop_consecutive maxOrder stop hlt.le hfuel
  obtain ⟨-, hpair, -, hcover⟩ := hcons.covers
  refine ⟨hcons, hpair, hcover, fun b hb => ?_⟩
  obtain ⟨horder, hbase⟩ := hall b hb
  exact ⟨by omega, hbase⟩

theorem freePagesMemory_spec_uneven :
    (freePagesLoop 3 11 8 3).map (fun b => (b.base, b.order)) = [(3, 0), (4, 2), (8, 1), (10, 0)] ∧
      Consecutive 3 (freePagesLoop 3 11 8 3) 11 :=
  ⟨by decide, (freePagesMemory_spec (by decide) (by decide) (by decide)).1⟩

/-! ## Frames -/

def InRange (range : Nat × Nat) (pfn : Nat) : Prop :=
  range.1 ≤ pfn * pageSize ∧ (pfn + 1) * pageSize ≤ range.2

variable {x pfn : Nat}

theorem pfnUp_le (hx : x ≤ 2 ^ 64 - pageSize) : pfnUp x ≤ pfn ↔ x ≤ pfn * pageSize := by
  unfold pfnUp wrap pageSize at *
  omega

theorem lt_pfnUp (hx : x ≤ 2 ^ 64 - pageSize) : pfn < pfnUp x ↔ pfn * pageSize < x := by
  unfold pfnUp wrap pageSize at *
  omega

theorem pfnDown_le : pfnDown x ≤ pfn ↔ x < (pfn + 1) * pageSize := by
  unfold pfnDown pageSize
  omega

theorem lt_pfnDown : pfn < pfnDown x ↔ (pfn + 1) * pageSize ≤ x := by
  unfold pfnDown pageSize
  omega

theorem mem_frames {start stop x : Nat} : x ∈ frames start stop ↔ start ≤ x ∧ x < stop := by
  unfold frames
  rw [mem_range'_1]
  omega

variable {range : Nat × Nat}

theorem mem_frames_range (h : range.1 ≤ 2 ^ 64 - pageSize) {pfn : Nat} :
    pfn ∈ frames (pfnUp range.1) (pfnDown range.2) ↔ InRange range pfn := by
  rw [mem_frames, pfnUp_le h, lt_pfnDown]
  rfl

/-! ## The loops -/

/-- A loop each of whose rounds marks the frames it reaches. -/
theorem foldl_marks {β : Type} {f : Boot → β → Boot} {P : β → Nat → Prop}
    [∀ p x, Decidable (P p x)] {g : BootPage → BootPage} (hg : ∀ p, g (g p) = g p) {l : List β}
    (hf : ∀ p ∈ l, ∀ s, (f s p).given = s.given ∧
      ∀ x, (f s p).pages x = if P p x then g (s.pages x) else s.pages x) (s : Boot) :
    (l.foldl f s).given = s.given ∧
      ∀ x, (l.foldl f s).pages x = if ∃ p ∈ l, P p x then g (s.pages x) else s.pages x := by
  induction l generalizing s with
  | nil => exact ⟨rfl, fun x => by simp⟩
  | cons p l ih =>
    obtain ⟨hgiven, hpages⟩ := ih (fun q hq => hf q (.tail _ hq)) (f s p)
    obtain ⟨hgiven', hpages'⟩ := hf p (.head _) s
    refine ⟨hgiven.trans hgiven', fun x => ?_⟩
    rw [foldl_cons, hpages, hpages']
    by_cases hp : P p x <;> by_cases hl : ∃ q ∈ l, P q x <;> simp [hp, hl, hg]

theorem foldl_initSinglePage (zone : ZoneType) (l : List Nat) (s : Boot) :
    (l.foldl (initSinglePage zone) s).given = s.given ∧
      ∀ x, (l.foldl (initSinglePage zone) s).pages x =
        if x ∈ l then ⟨zone, true, false⟩ else s.pages x := by
  have h := foldl_marks (P := fun y x => x = y) (g := fun _ => ⟨zone, true, false⟩)
    (f := initSinglePage zone) (l := l) (fun _ => rfl)
    (fun y _ s => ⟨rfl, fun _ => Function.update_apply ..⟩) s
  simpa using h

def InRanges (l : List (Nat × Nat)) (pfn : Nat) : Prop := ∃ p ∈ l, InRange p pfn

instance (range : Nat × Nat) (pfn : Nat) : Decidable (InRange range pfn) := by
  unfold InRange
  infer_instance

instance (l : List (Nat × Nat)) (pfn : Nat) : Decidable (InRanges l pfn) := by
  unfold InRanges
  infer_instance

variable {l : List (Nat × Nat)}

theorem foldl_initRange (zone : ZoneType) (hl : ∀ p ∈ l, p.1 ≤ 2 ^ 64 - pageSize) (s : Boot) :
    (l.foldl (initRange zone) s).given = s.given ∧ ∀ x, (l.foldl (initRange zone) s).pages x =
        if InRanges l x then ⟨zone, true, false⟩ else s.pages x := by
  refine foldl_marks (g := fun _ => ⟨zone, true, false⟩) (fun _ => rfl) (fun p hp s => ?_) s
  have h := foldl_initSinglePage zone (frames (pfnUp p.1) (pfnDown p.2)) s
  simpa only [initRange, mem_frames_range (hl p hp)] using h

theorem foldl_memblockFreePages (bs : List Block) (s : Boot) :
    (bs.foldl memblockFreePages s).given = s.given ++ bs.map (fun b => ((s.pages b.base).zone, b)) ∧
      ∀ x, (bs.foldl memblockFreePages s).pages x =
        if ∃ b ∈ bs, b.Covers x then { s.pages x with reserved := false } else s.pages x := by
  induction bs generalizing s with
  | nil => exact ⟨by simp, fun x => by simp⟩
  | cons b bs ih =>
    obtain ⟨hgiven, hpages⟩ := ih (memblockFreePages s b)
    have hzone : ∀ x, ((memblockFreePages s b).pages x).zone = (s.pages x).zone := by
      intro x
      unfold memblockFreePages
      dsimp only
      split_ifs <;> rfl
    constructor
    · rw [foldl_cons, hgiven]
      simp only [hzone, map_cons]
      rw [memblockFreePages, append_assoc]
      rfl
    · intro x
      rw [foldl_cons, hpages]
      simp only [exists_mem_cons_iff, memblockFreePages]
      by_cases hb : b.Covers x <;> by_cases hbs : ∃ b ∈ bs, b.Covers x <;> simp [hb, hbs]

def rangeBlocks (maxOrder : Nat) (range : Nat × Nat) : List Block :=
  if pfnDown range.2 ≤ pfnUp range.1 then []
  else freePagesMemory maxOrder (pfnUp range.1) (pfnDown range.2)

theorem rangeBlocks_spec (maxOrder : Nat) (h : range.1 ≤ 2 ^ 64 - pageSize) :
    ((rangeBlocks maxOrder range).Pairwise fun b c => b.base + 2 ^ b.order ≤ c.base) ∧
      ∀ x, (∃ b ∈ rangeBlocks maxOrder range, b.Covers x) ↔ InRange range x := by
  have hmem : ∀ x, InRange range x ↔ pfnUp range.1 ≤ x ∧ x < pfnDown range.2 := by
    intro x
    rw [← mem_frames_range h, mem_frames]
  unfold rangeBlocks
  split_ifs with hle
  · refine ⟨.nil, fun x => ?_⟩
    rw [hmem]
    simp only [not_mem_nil, false_and, exists_false, false_iff]
    omega
  · obtain ⟨-, hpair, -, hcover⟩ := (freePagesLoop_consecutive maxOrder _ (Nat.le_of_not_le hle)
      le_rfl).1.covers
    exact ⟨hpair, fun x => (hcover x).trans (hmem x).symm⟩

theorem freeRange_eq (maxOrder : Nat) (s : Boot) (range : Nat × Nat) :
    freeRange maxOrder s range = (rangeBlocks maxOrder range).foldl memblockFreePages s := by
  unfold freeRange rangeBlocks
  split_ifs <;> rfl

theorem covers_flatMap (maxOrder : Nat) (hl : ∀ p ∈ l, p.1 ≤ 2 ^ 64 - pageSize) {x : Nat} :
    (∃ b ∈ l.flatMap (rangeBlocks maxOrder), b.Covers x) ↔ InRanges l x := by
  simp only [mem_flatMap]
  constructor
  · rintro ⟨b, ⟨p, hp, hb⟩, hx⟩
    exact ⟨p, hp, ((rangeBlocks_spec maxOrder (hl p hp)).2 x).mp ⟨b, hb, hx⟩⟩
  · rintro ⟨p, hp, hx⟩
    obtain ⟨b, hb, hbx⟩ := ((rangeBlocks_spec maxOrder (hl p hp)).2 x).mpr hx
    exact ⟨b, ⟨p, hp, hb⟩, hbx⟩

theorem foldl_freeRange (maxOrder : Nat) (hl : ∀ p ∈ l, p.1 ≤ 2 ^ 64 - pageSize) (s : Boot) :
    (l.foldl (freeRange maxOrder) s).given = s.given ++
        (l.flatMap (rangeBlocks maxOrder)).map (fun b => ((s.pages b.base).zone, b)) ∧
      ∀ x, (l.foldl (freeRange maxOrder) s).pages x =
        if InRanges l x then { s.pages x with reserved := false } else s.pages x := by
  have hfold : l.foldl (freeRange maxOrder) s =
      (l.flatMap (rangeBlocks maxOrder)).foldl memblockFreePages s := by
    rw [foldl_flatMap]
    congr 1
    funext s p
    exact freeRange_eq maxOrder s p
  rw [hfold]
  simpa only [covers_flatMap maxOrder hl] using
    foldl_memblockFreePages (l.flatMap (rangeBlocks maxOrder)) s

theorem foldl_reserveFrame (memory : MemblockType) (l : List Nat) (s : Boot) :
    (l.foldl (reserveFrame memory) s).given = s.given ∧
      ∀ x, (l.foldl (reserveFrame memory) s).pages x =
        if x ∈ l ∧ pfnValid memory x then { s.pages x with reserved := true } else s.pages x := by
  have h := foldl_marks (P := fun y x => x = y ∧ pfnValid memory x) (f := reserveFrame memory)
    (l := l) (g := fun p => { p with reserved := true }) (fun _ => rfl) (fun y _ s => ?_) s
  · simpa using h
  · unfold reserveFrame
    refine ⟨by split_ifs <;> rfl, fun x => ?_⟩
    by_cases hxy : x = y
    · subst hxy
      split_ifs <;> simp_all
    · split_ifs <;> simp_all [Function.update_of_ne]

/-- `reserve_bootmem_region` reaches the frame. -/
def Marked (l : List (Nat × Nat)) (pfn : Nat) : Prop :=
  ∃ p ∈ l, pfnDown p.1 ≤ pfn ∧ pfn < pfnUp p.2

instance (l : List (Nat × Nat)) (pfn : Nat) : Decidable (Marked l pfn) := by
  unfold Marked
  infer_instance

theorem foldl_reserveBootmemRegion (memory : MemblockType) (l : List (Nat × Nat)) (s : Boot) :
    (l.foldl (reserveBootmemRegion memory) s).given = s.given ∧
      ∀ x, (l.foldl (reserveBootmemRegion memory) s).pages x =
        if Marked l x ∧ pfnValid memory x then { s.pages x with reserved := true }
        else s.pages x := by
  have h := foldl_marks (f := reserveBootmemRegion memory) (l := l)
    (P := fun p x => (pfnDown p.1 ≤ x ∧ x < pfnUp p.2) ∧ pfnValid memory x)
    (g := fun p => { p with reserved := true }) (fun _ => rfl) (fun p _ s => ?_) s
  · simpa only [Marked, and_assoc, ← exists_and_right] using h
  · simpa only [reserveBootmemRegion, mem_frames] using
      foldl_reserveFrame memory (frames (pfnDown p.1) (pfnUp p.2)) s

/-! ## The final state -/

/-- The tables are in order, and no region reaches into the last page of the address space, so
that rounding up does not overflow. -/
structure Tables (memory reserved : MemblockType) : Prop where
  memory_inOrder : InOrder memory
  reserved_inOrder : InOrder reserved
  memory_le : ∀ r ∈ memory.regions, r.stop ≤ 2 ^ 64 - pageSize
  reserved_le : ∀ r ∈ reserved.regions, r.stop ≤ 2 ^ 64 - pageSize

def freeRanges (memory reserved : MemblockType) (flags : Flags) : List (Nat × Nat) :=
  overlaps (spans flags memory.regions) (gapsFrom 0 reserved.regions)

/-- The ranges that `memblock_free_all` frees, in its order. -/
def allRanges (memory reserved : MemblockType) : List (Nat × Nat) :=
  freeRanges memory reserved memblockNone ++ freeRanges memory reserved memblockDma ++
    freeRanges memory reserved memblockMovable

section Final

variable {memory reserved : MemblockType} {flags : Flags}

variable (h : Tables memory reserved)
include h

theorem freeMemRanges_eq (flags : Flags) :
    freeMemRanges memory reserved flags = some (freeRanges memory reserved flags) := by
  refine forEachFreeMemRange_eq h.memory_inOrder h.reserved_inOrder ?_
  obtain ⟨hle, hpair⟩ := gaps_pairwise h.reserved_inOrder
  have hspans : (spans flags memory.regions).length ≤ memory.cnt := by
    rw [spans, length_map]
    exact length_filter_le ..
  have hlen := length_gapsFrom 0 reserved.regions
  have hcnt : reserved.cnt = reserved.regions.length := rfl
  have hbound : (overlaps (spans flags memory.regions) _).length ≤ _ := length_overlaps_le
    (pairwise_map.mpr (h.memory_inOrder.pairwise.filter _)) hpair (by
      intro m hm
      obtain ⟨r, -, -, rfl⟩ := mem_spans.mp hm
      exact Nat.le_add_right _ _) hle
  omega

theorem freeRanges_start_le : ∀ p ∈ freeRanges memory reserved flags, p.1 ≤ 2 ^ 64 - pageSize := by
  intro p hp
  obtain ⟨m, hm, g, -, hmeet, rfl⟩ := mem_overlaps.mp hp
  obtain ⟨r, hr, -, rfl⟩ := mem_spans.mp hm
  have hstop := h.memory_le r hr
  have hsize : r.base ≤ r.stop := Nat.le_add_right _ _
  have hlt : g.1 < r.stop := hmeet.1
  exact (Nat.max_le.mpr ⟨hsize, hlt.le⟩).trans hstop

theorem allRanges_start_le : ∀ p ∈ allRanges memory reserved, p.1 ≤ 2 ^ 64 - pageSize := by
  intro p hp
  rcases mem_append.mp hp with hp | hp
  · rcases mem_append.mp hp with hp | hp <;> exact freeRanges_start_le h p hp
  · exact freeRanges_start_le h p hp

/-- The zone that `free_area_init_node` leaves in a `struct page`, if it initialises it. -/
def initZone (memory reserved : MemblockType) (pfn : Nat) : Option ZoneType :=
  if InRanges (reservedMemRegions reserved) pfn then some .normal
  else if InRanges (freeRanges memory reserved memblockNone) pfn then some .normal
  else if InRanges (freeRanges memory reserved memblockMovable) pfn then some .movable
  else if InRanges (freeRanges memory reserved memblockDma) pfn then some .dma
  else none

theorem freeAreaInitNode_eq : ∃ s,
    freeAreaInitNode memory reserved .zeroed = some s ∧ s.given = [] ∧
      ∀ x, s.pages x = ⟨(initZone memory reserved x).getD .dma,
        (initZone memory reserved x).isSome, false⟩ := by
  have hreserved : ∀ p ∈ reservedMemRegions reserved, p.1 ≤ 2 ^ 64 - pageSize := by
    intro p hp
    obtain ⟨r, hr, rfl⟩ := mem_map.mp hp
    exact (Nat.le_add_right _ _).trans (h.reserved_le r hr)
  simp only [freeAreaInitNode, freeMemRanges_eq h, Option.bind_eq_bind, Option.bind_some]
  refine ⟨_, rfl, ?_, fun x => ?_⟩
  · rw [(foldl_initRange .normal hreserved _).1,
      (foldl_initRange .normal (freeRanges_start_le h) _).1,
      (foldl_initRange .movable (freeRanges_start_le h) _).1,
      (foldl_initRange .dma (freeRanges_start_le h) _).1]
    rfl
  · rw [(foldl_initRange .normal hreserved _).2,
      (foldl_initRange .normal (freeRanges_start_le h) _).2,
      (foldl_initRange .movable (freeRanges_start_le h) _).2,
      (foldl_initRange .dma (freeRanges_start_le h) _).2]
    unfold initZone Boot.zeroed
    split_ifs <;> rfl

theorem handOver_eq (maxOrder : Nat) : ∃ s, handOver maxOrder memory reserved = some s ∧
      s.given = ((allRanges memory reserved).flatMap (rangeBlocks maxOrder)).map
        (fun b => ((initZone memory reserved b.base).getD .dma, b)) ∧
      ∀ x, ((s.pages x).initialized = true ↔ initZone memory reserved x ≠ none) ∧
        ((s.pages x).reserved = true ↔ Marked (reservedMemRegions reserved) x ∧
          pfnValid memory x ∧ ¬ InRanges (allRanges memory reserved) x) := by
  obtain ⟨s0, hinit, hgiven0, hpages0⟩ := freeAreaInitNode_eq h
  obtain ⟨hgiven1, hpages1⟩ :=
    foldl_reserveBootmemRegion memory (reservedMemRegions reserved) s0
  generalize hs1 : (reservedMemRegions reserved).foldl (reserveBootmemRegion memory) s0 = s1 at *
  have hfold : handOver maxOrder memory reserved =
      some ((allRanges memory reserved).foldl (freeRange maxOrder) s1) := by
    simp only [handOver, hinit, memblockFreeAll, freeMemRanges_eq h, Option.bind_eq_bind,
      Option.bind_some, hs1, allRanges, foldl_append]
  obtain ⟨hgiven, hpages⟩ := foldl_freeRange maxOrder (allRanges_start_le h) s1
  have hzone : ∀ x, (s1.pages x).zone = (initZone memory reserved x).getD .dma := by
    intro x
    rw [hpages1, hpages0]
    split_ifs <;> rfl
  refine ⟨_, hfold, ?_, fun x => ?_⟩
  · rw [hgiven, hgiven1, hgiven0, nil_append]
    simp only [hzone]
  · rw [hpages, hpages1, hpages0]
    constructor
    · split_ifs <;> simp [Option.isSome_iff_ne_none]
    · split_ifs <;> simp_all

end Final

/-! ## Frames -/

/-- The flags of the memory that belongs to a zone. -/
def ZoneType.flags : ZoneType → Flags
  | dma => memblockDma
  | normal => memblockNone
  | movable => memblockMovable

/-- The frame lies entirely in memory with these flags and meets no reserved region. -/
def FreeFrame (memory reserved : MemblockType) (flags : Flags) (pfn : Nat) : Prop :=
  ∀ x, pfn * pageSize ≤ x → x < (pfn + 1) * pageSize → Free memory reserved flags x

/-- The frame is valid and meets a reserved region. -/
def ReservedFrame (memory reserved : MemblockType) (pfn : Nat) : Prop :=
  pfnValid memory pfn = true ∧
    ∃ x, pfn * pageSize ≤ x ∧ x < (pfn + 1) * pageSize ∧ Covered reserved.regions x

section Frames

variable {memory reserved : MemblockType} {pfn : Nat} {flags : Flags}

theorem frame_pos (pfn : Nat) : pfn * pageSize < (pfn + 1) * pageSize :=
  Nat.mul_lt_mul_of_pos_right (Nat.lt_succ_self _) (by decide)

theorem FreeFrame.start (h : FreeFrame memory reserved flags pfn) :
    Free memory reserved flags (pfn * pageSize) :=
  h _ le_rfl (frame_pos pfn)

theorem InOrder.marks_unique {a b : Flags} {x : Nat} (h : InOrder memory)
    (ha : Marks memory.regions x a) (hb : Marks memory.regions x b) : a = b := by
  rcases h.regions with hdummy | ⟨-, hordered⟩
  · obtain ⟨r, hr, hx, -⟩ := ha
    rw [hdummy, mem_singleton] at hr
    subst hr
    exact absurd hx.2 (Nat.not_lt_zero _)
  · exact hordered.marks_unique ha hb

variable {z z' : ZoneType}

theorem ZoneType.flags_injective (h : z.flags = z'.flags) : z = z' := by
  revert h
  cases z <;> cases z' <;> decide

variable (h : Tables memory reserved)
include h

theorem FreeFrame.unique (hz : FreeFrame memory reserved z.flags pfn)
    (hz' : FreeFrame memory reserved z'.flags pfn) : z = z' :=
  ZoneType.flags_injective (InOrder.marks_unique h.memory_inOrder hz.start.1 hz'.start.1)

theorem inRanges_freeRanges :
    InRanges (freeRanges memory reserved flags) pfn ↔ FreeFrame memory reserved flags pfn ∧
      ∃ r ∈ memory.regions, r.label = flags ∧ r.base ≤ pfn * pageSize ∧
        (pfn + 1) * pageSize ≤ r.stop := by
  constructor
  · rintro ⟨p, hp, hlo, hhi⟩
    refine ⟨fun x hx hxlt => (free_iff h.memory_inOrder h.reserved_inOrder x).mpr
      ⟨p, hp, hlo.trans hx, hxlt.trans_le hhi⟩, ?_⟩
    obtain ⟨m, hm, g, -, -, rfl⟩ := mem_overlaps.mp hp
    obtain ⟨r, hr, hlabel, rfl⟩ := mem_spans.mp hm
    exact ⟨r, hr, hlabel, (Nat.le_max_left _ _).trans hlo, hhi.trans (Nat.min_le_left _ _)⟩
  · rintro ⟨hfree, r, hr, hlabel, hlo, hhi⟩
    have hpos := frame_pos pfn
    have hstop := h.memory_le r hr
    have hsize : ∀ r ∈ reserved.regions, r.base < r.stop ∨ r.stop = 0 := by
      intro s hs
      rcases h.reserved_inOrder.regions with hdummy | ⟨-, hordered⟩
      · rw [hdummy, mem_singleton] at hs
        subst hs
        exact .inr rfl
      · exact .inl (Nat.lt_add_of_pos_right (hordered.pos s hs))
    obtain ⟨g, hg, hglo, hghi⟩ := mem_gapsFrom_of_span hsize (Nat.zero_le _) hpos
      (hhi.trans (hstop.trans (by decide)))
      fun x hx hxlt => (hfree x hx hxlt).2
    refine ⟨meet (r.base, r.stop) g, mem_overlaps.mpr ⟨_, mem_spans.mpr ⟨r, hr, hlabel, rfl⟩, g,
      hg, ⟨?_, ?_⟩, rfl⟩, Nat.max_le.mpr ⟨hlo, hglo⟩, Nat.le_min.mpr ⟨hhi, hghi⟩⟩
    · exact hglo.trans_lt (hpos.trans_le hhi)
    · exact hlo.trans_lt (hpos.trans_le hghi)

theorem freeRanges_pairwise (flags : Flags) :
    (freeRanges memory reserved flags).Pairwise fun p q => p.2 ≤ q.1 :=
  pairwise_overlaps (R := (· ≤ ·)) (fun hab hbc hcd => hab.trans (hbc.trans hcd))
    (pairwise_map.mpr (h.memory_inOrder.pairwise.filter _))
    (gaps_pairwise h.reserved_inOrder).2

theorem allRanges_pairwise (pfn : Nat) :
    (allRanges memory reserved).Pairwise fun p q => ¬ (InRange p pfn ∧ InRange q pfn) := by
  have hsame : ∀ flags, (freeRanges memory reserved flags).Pairwise
      fun p q => ¬ (InRange p pfn ∧ InRange q pfn) := by
    intro flags
    refine (freeRanges_pairwise h flags).imp fun {p q} hle hboth => ?_
    have hpos := frame_pos pfn
    have hp := hboth.1.2
    have hq := hboth.2.1
    omega
  have hcross : ∀ z z' : ZoneType, z ≠ z' → ∀ p ∈ freeRanges memory reserved z.flags,
      ∀ q ∈ freeRanges memory reserved z'.flags, ¬ (InRange p pfn ∧ InRange q pfn) := by
    intro z z' hne p hp q hq ⟨hpfn, hqfn⟩
    exact hne (((inRanges_freeRanges h).mp ⟨p, hp, hpfn⟩).1.unique h
      ((inRanges_freeRanges h).mp ⟨q, hq, hqfn⟩).1)
  refine pairwise_append.mpr ⟨pairwise_append.mpr ⟨hsame _, hsame _,
    hcross .normal .dma (by decide)⟩, hsame _, fun p hp q hq => ?_⟩
  rcases mem_append.mp hp with hp | hp
  · exact hcross .normal .movable (by decide) p hp q hq
  · exact hcross .dma .movable (by decide) p hp q hq

omit h in
theorem mem_allRanges {p : Nat × Nat} : p ∈ allRanges memory reserved ↔
    ∃ z : ZoneType, p ∈ freeRanges memory reserved z.flags := by
  unfold allRanges
  constructor
  · intro hp
    rcases mem_append.mp hp with hp | hp
    · rcases mem_append.mp hp with hp | hp
      · exact ⟨.normal, hp⟩
      · exact ⟨.dma, hp⟩
    · exact ⟨.movable, hp⟩
  · rintro ⟨z, hp⟩
    cases z
    · exact mem_append_left _ (mem_append_right _ hp)
    · exact mem_append_left _ (mem_append_left _ hp)
    · exact mem_append_right _ hp

omit h in
theorem inRanges_allRanges : InRanges (allRanges memory reserved) pfn ↔
    ∃ z : ZoneType, InRanges (freeRanges memory reserved z.flags) pfn := by
  simp only [InRanges, mem_allRanges]
  tauto

omit h in
/-- The end that `for_each_reserved_mem_region` gives for a region. -/
theorem last_eq {r : Region} (hpos : 0 < r.stop) (hle : r.stop ≤ 2 ^ 64 - pageSize) :
    wrap (r.base + r.size + (2 ^ 64 - 1)) = r.stop - 1 := by
  have hstop : r.stop = r.base + r.size := rfl
  unfold wrap
  unfold pageSize at hle
  omega

theorem inRanges_reserved (hne : reserved.regions ≠ [dummy]) :
    InRanges (reservedMemRegions reserved) pfn ↔ ∃ r ∈ reserved.regions,
      r.base ≤ pfn * pageSize ∧ (pfn + 1) * pageSize < r.stop := by
  have hlast : ∀ r ∈ reserved.regions, 0 < r.stop ∧
      wrap (r.base + r.size + (2 ^ 64 - 1)) = r.stop - 1 := by
    intro r hr
    obtain ⟨-, hordered⟩ := h.reserved_inOrder.regions.resolve_left hne
    have hpos : 0 < r.stop := Nat.add_pos_right _ (hordered.pos r hr)
    exact ⟨hpos, last_eq hpos (h.reserved_le r hr)⟩
  unfold InRanges reservedMemRegions InRange
  simp only [mem_map]
  constructor
  · rintro ⟨_, ⟨r, hr, rfl⟩, hlo, hhi⟩
    have := hlast r hr
    exact ⟨r, hr, hlo, by omega⟩
  · rintro ⟨r, hr, hlo, hhi⟩
    have := hlast r hr
    exact ⟨_, ⟨r, hr, rfl⟩, hlo, by omega⟩

omit h in
theorem inRanges_dummy (hdummy : reserved.regions = [dummy])
    (hpfn : (pfn + 1) * pageSize ≤ 2 ^ 64 - pageSize) :
    InRanges (reservedMemRegions reserved) pfn := by
  rw [reservedMemRegions, hdummy]
  refine ⟨_, .head _, Nat.zero_le _, hpfn.trans ?_⟩
  decide

theorem initZone_of_inRanges {z : ZoneType}
    (hz : InRanges (freeRanges memory reserved z.flags) pfn) :
    initZone memory reserved pfn = some (if reserved.regions = [dummy] then .normal else z) := by
  obtain ⟨hfree, m, hm, -, -, hstop⟩ := (inRanges_freeRanges h).mp hz
  by_cases hdummy : reserved.regions = [dummy]
  · rw [initZone, if_pos (inRanges_dummy hdummy (hstop.trans (h.memory_le m hm))), if_pos hdummy]
  · have hres : ¬ InRanges (reservedMemRegions reserved) pfn := by
      rw [inRanges_reserved h hdummy]
      rintro ⟨r, hr, hlo, hhi⟩
      exact hfree.start.2 ⟨r, hr, hlo, (frame_pos pfn).trans hhi⟩
    have hother : ∀ z' : ZoneType, z' ≠ z →
        ¬ InRanges (freeRanges memory reserved z'.flags) pfn := by
      intro z' hne hz'
      exact hne (((inRanges_freeRanges h).mp hz').1.unique h hfree)
    rw [initZone, if_neg hres, if_neg hdummy]
    cases z with
    | dma =>
      exact (if_neg (hother .normal (by decide))).trans
        ((if_neg (hother .movable (by decide))).trans (if_pos hz))
    | normal => exact if_pos hz
    | movable => exact (if_neg (hother .normal (by decide))).trans (if_pos hz)

theorem initZone_of_reserved (hpfn : ReservedFrame memory reserved pfn) :
    initZone memory reserved pfn ≠ none ↔
      ∃ r ∈ reserved.regions, r.base ≤ pfn * pageSize ∧ (pfn + 1) * pageSize < r.stop := by
  obtain ⟨-, x, hlo, hhi, hcov⟩ := hpfn
  have hnot : ∀ flags, ¬ InRanges (freeRanges memory reserved flags) pfn := by
    intro flags hin
    exact (((inRanges_freeRanges h).mp hin).1 x hlo hhi).2 hcov
  have hne : reserved.regions ≠ [dummy] := by
    intro hdummy
    obtain ⟨r, hr, -, hlt⟩ := hcov
    rw [hdummy, mem_singleton] at hr
    subst hr
    exact absurd hlt (Nat.not_lt_zero _)
  rw [← inRanges_reserved h hne, initZone, if_neg (hnot _), if_neg (hnot _), if_neg (hnot _)]
  split_ifs with hin <;> simp [hin]

theorem not_covers_both (maxOrder : Nat) (pfn : Nat) :
    ((allRanges memory reserved).flatMap (rangeBlocks maxOrder)).Pairwise
      fun b c => ¬ (b.Covers pfn ∧ c.Covers pfn) := by
  refine pairwise_flatMap.mpr ⟨fun p hp => ?_, ?_⟩
  · obtain ⟨hpair, -⟩ := rangeBlocks_spec maxOrder (allRanges_start_le h p hp)
    refine hpair.imp fun {b c} hle hboth => ?_
    have hb := hboth.1.2
    have hc := hboth.2.1
    omega
  · refine (allRanges_pairwise h pfn).imp_of_mem fun {p q} hp hq hnot b hb c hc hboth => hnot ?_
    exact ⟨((rangeBlocks_spec maxOrder (allRanges_start_le h p hp)).2 pfn).mp ⟨b, hb, hboth.1⟩,
      ((rangeBlocks_spec maxOrder (allRanges_start_le h q hq)).2 pfn).mp ⟨c, hc, hboth.2⟩⟩

theorem covers_allRanges (maxOrder : Nat) :
    (∃ b ∈ (allRanges memory reserved).flatMap (rangeBlocks maxOrder), b.Covers pfn) ↔
      InRanges (allRanges memory reserved) pfn :=
  covers_flatMap maxOrder (allRanges_start_le h)

end Frames

theorem filter_eq_singleton {α : Type*} {P : α → Prop} [DecidablePred P] {l : List α}
    (h : l.Pairwise fun a b => ¬ (P a ∧ P b)) {a : α} (ha : a ∈ l) (hP : P a) :
    l.filter (fun b => P b) = [a] := by
  induction l with
  | nil => cases ha
  | cons b l ih =>
    obtain ⟨hb, hl⟩ := pairwise_cons.mp h
    rcases mem_cons.mp ha with rfl | ha
    · rw [filter_cons_of_pos (by simpa using hP), filter_eq_nil_iff.mpr]
      intro c hc hPc
      exact hb c hc ⟨hP, of_decide_eq_true hPc⟩
    · rw [filter_cons_of_neg, ih hl ha]
      intro hPb
      exact hb a ha ⟨of_decide_eq_true hPb, hP⟩

/-! ## The hand-over -/

/-- Every free frame was given to its zone, once, and the reserved frames are kept back. -/
structure HandedOver (memory reserved : MemblockType) (s : Boot) : Prop where
  free : ∀ (zone : ZoneType) pfn, FreeFrame memory reserved zone.flags pfn →
    ∃ b, s.given.filter (fun e => e.2.Covers pfn) = [(zone, b)]
  reserved : ∀ pfn, ReservedFrame memory reserved pfn → (∀ e ∈ s.given, ¬ e.2.Covers pfn) ∧
    (s.pages pfn).reserved = true ∧ (s.pages pfn).initialized = true

/-- What the tables have to be like: a free frame lies in one region, a reserved frame lies in a
reserved region that goes on behind it, and a table without reserved regions needs memory that
has no flags. -/
structure Suited (memory reserved : MemblockType) : Prop where
  single : ∀ (zone : ZoneType) pfn, FreeFrame memory reserved zone.flags pfn →
    ∃ r ∈ memory.regions, r.label = zone.flags ∧ r.base ≤ pfn * pageSize ∧
      (pfn + 1) * pageSize ≤ r.stop
  behind : ∀ pfn, ReservedFrame memory reserved pfn →
    ∃ r ∈ reserved.regions, r.base ≤ pfn * pageSize ∧ (pfn + 1) * pageSize < r.stop
  unflagged : reserved.regions = [dummy] → ∀ (zone : ZoneType) pfn,
    FreeFrame memory reserved zone.flags pfn → zone = .normal

section Handover

variable {memory reserved : MemblockType} {maxOrder pfn : Nat}

theorem marked_of_inside {r : Region} (hr : r ∈ reserved.regions) (hle : r.stop ≤ 2 ^ 64 - pageSize)
    (hbase : r.base ≤ pfn * pageSize) (hstop : (pfn + 1) * pageSize < r.stop) :
    Marked (reservedMemRegions reserved) pfn := by
  refine ⟨_, mem_map.mpr ⟨r, hr, rfl⟩, pfnDown_le.mpr (hbase.trans_lt (frame_pos pfn)), ?_⟩
  have hlast := last_eq (Nat.zero_lt_of_lt hstop) hle
  have hpos := frame_pos pfn
  refine (lt_pfnUp ?_).mpr ?_ <;> dsimp only <;> omega

theorem given_filter (h : Tables memory reserved) {s : Boot}
    (hgiven : s.given = ((allRanges memory reserved).flatMap (rangeBlocks maxOrder)).map
      (fun b => ((initZone memory reserved b.base).getD .dma, b))) {z : ZoneType}
    (hz : InRanges (freeRanges memory reserved z.flags) pfn) :
    ∃ b, s.given.filter (fun e => e.2.Covers pfn) =
      [(if reserved.regions = [dummy] then .normal else z, b)] := by
  obtain ⟨b, hb, hcov⟩ := (covers_allRanges h maxOrder).mpr
    (inRanges_allRanges.mpr ⟨z, hz⟩)
  have hbase : b.Covers b.base := ⟨le_rfl, Nat.lt_add_of_pos_right (Nat.two_pow_pos _)⟩
  have hfilter := filter_eq_singleton (not_covers_both h maxOrder pfn) hb hcov
  refine ⟨b, ?_⟩
  rw [hgiven, filter_map]
  change map _ (filter (fun b : Block => decide (b.Covers pfn)) _) = _
  obtain ⟨p, hp, hbp⟩ := mem_flatMap.mp hb
  obtain ⟨z', hz'⟩ := mem_allRanges.mp hp
  have hrange := (rangeBlocks_spec maxOrder (allRanges_start_le h p hp)).2
  -- the first frame of the block is in the same range
  have hfirst := (hrange b.base).mp ⟨b, hbp, hbase⟩
  have hzone : z' = z := ((inRanges_freeRanges h).mp
    ⟨p, hz', (hrange pfn).mp ⟨b, hbp, hcov⟩⟩).1.unique h ((inRanges_freeRanges h).mp hz).1
  subst hzone
  rw [hfilter, map_singleton, initZone_of_inRanges h ⟨p, hz', hfirst⟩]
  rfl

/-- The hand-over does what it should on the tables that are suited to it, and on no others. -/
theorem handOver_iff (h : Tables memory reserved) : ∃ s,
    handOver maxOrder memory reserved = some s ∧
      (HandedOver memory reserved s ↔ Suited memory reserved) := by
  obtain ⟨s, hs, hgiven, hpages⟩ := handOver_eq h maxOrder
  have hcovers : ∀ pfn, (∃ e ∈ s.given, e.2.Covers pfn) ↔
      InRanges (allRanges memory reserved) pfn := by
    intro pfn
    rw [← covers_allRanges h maxOrder, hgiven]
    simp only [mem_map, exists_exists_and_eq_and]
  have hsingle : HandedOver memory reserved s → ∀ (zone : ZoneType) pfn,
      FreeFrame memory reserved zone.flags pfn →
        InRanges (freeRanges memory reserved zone.flags) pfn := by
    intro hover zone pfn hfree
    obtain ⟨b, hfilter⟩ := hover.free zone pfn hfree
    have hmem : (zone, b) ∈ s.given.filter (fun e => e.2.Covers pfn) := by
      rw [hfilter]
      exact .head _
    obtain ⟨hb, hcov⟩ := mem_filter.mp hmem
    obtain ⟨z, hz⟩ := inRanges_allRanges.mp
      ((hcovers pfn).mp ⟨_, hb, of_decide_eq_true hcov⟩)
    rwa [hfree.unique h ((inRanges_freeRanges h).mp hz).1]
  refine ⟨s, hs, fun hover => ⟨?_, ?_, ?_⟩, fun hsuit => ⟨?_, ?_⟩⟩
  · intro zone pfn hfree
    exact ((inRanges_freeRanges h).mp (hsingle hover zone pfn hfree)).2
  · intro pfn hres
    exact (initZone_of_reserved h hres).mp ((hpages pfn).1.mp (hover.reserved pfn hres).2.2)
  · intro hdummy zone pfn hfree
    obtain ⟨b, hfilter⟩ := hover.free zone pfn hfree
    obtain ⟨b', hfilter'⟩ := given_filter h hgiven (hsingle hover zone pfn hfree)
    rw [if_pos hdummy, hfilter, cons.injEq, Prod.mk.injEq] at hfilter'
    exact hfilter'.1.1
  · intro zone pfn hfree
    obtain ⟨b, hfilter⟩ := given_filter h hgiven
      ((inRanges_freeRanges h).mpr ⟨hfree, hsuit.single zone pfn hfree⟩)
    refine ⟨b, hfilter.trans ?_⟩
    split_ifs with hdummy
    · rw [hsuit.unflagged hdummy zone pfn hfree]
    · rfl
  · intro pfn hres
    obtain ⟨r, hr, hbase, hstop⟩ := hsuit.behind pfn hres
    have hnot : ¬ InRanges (allRanges memory reserved) pfn := by
      intro hin
      obtain ⟨z, hz⟩ := inRanges_allRanges.mp hin
      obtain ⟨-, x, hlo, hhi, hcov⟩ := hres
      exact (((inRanges_freeRanges h).mp hz).1 x hlo hhi).2 hcov
    refine ⟨fun e he hcov => hnot ((hcovers pfn).mp ⟨e, he, hcov⟩), ?_, ?_⟩
    · exact (hpages pfn).2.mpr
        ⟨marked_of_inside hr (h.reserved_le r hr) hbase hstop, hres.1, hnot⟩
    · exact (hpages pfn).1.mpr ((initZone_of_reserved h hres).mpr ⟨r, hr, hbase, hstop⟩)

end Handover

theorem covered_of_pfnValid {memory : MemblockType} (h : InOrder memory) {pfn : Nat}
    (hvalid : pfnValid memory pfn = true) : Covered memory.regions (pfn * pageSize) := by
  obtain ⟨b, hb, hiff⟩ := memblockIsMapMemory_eq h (pfn * pageSize)
  rw [pfnValid, hb, Bool.and_eq_true] at hvalid
  obtain ⟨r, hr, hcov, -⟩ := hiff.mp hvalid.2
  exact ⟨r, hr, hcov⟩

def oneRegion (base size : Nat) : MemblockType := ⟨128, size, [⟨base, size, memblockNone⟩]⟩

theorem oneRegion_tables {b n b' n' : Nat} (hn : 0 < n) (hn' : 0 < n')
    (hle : b + n ≤ 2 ^ 64 - pageSize) (hle' : b' + n' ≤ 2 ^ 64 - pageSize) :
    Tables (oneRegion b n) (oneRegion b' n') := by
  have hinOrder : ∀ {c m}, 0 < m → c + m ≤ 2 ^ 64 - pageSize → InOrder (oneRegion c m) := by
    intro c m hm hcm
    refine ⟨.inr ⟨cons_ne_nil _ _, ordered_cons.mpr ⟨hm, nofun, nofun, .nil⟩⟩, ?_, ?_, ?_⟩
    · intro r hr
      rw [mem_singleton.mp hr]
      exact hcm.trans (by decide)
    · exact (by decide : 1 ≤ 128)
    · exact (by decide : 128 < 2 ^ 31)
  refine ⟨hinOrder hn hle, hinOrder hn' hle', ?_, ?_⟩ <;> intro r hr <;>
    rw [mem_singleton.mp hr] <;> assumption

/-- A reserved region from the last page of memory to behind it is handed over as it should. -/
theorem handOver_iff_behind : ∃ s,
    handOver 11 (oneRegion 4096 12288) (oneRegion 12288 8192) = some s ∧
      HandedOver (oneRegion 4096 12288) (oneRegion 12288 8192) s := by
  have htables : Tables (oneRegion 4096 12288) (oneRegion 12288 8192) :=
    oneRegion_tables (by decide) (by decide) (by decide) (by decide)
  obtain ⟨s, hs, hiff⟩ := handOver_iff htables
  refine ⟨s, hs, hiff.mpr ⟨?_, ?_, nofun⟩⟩
  · intro zone pfn hfree
    obtain ⟨r, hr, hx, hlabel⟩ := hfree.start.1
    obtain ⟨r', hr', hx', -⟩ := (hfree (pfn * pageSize + 4095) (Nat.le_add_right _ _)
      (by unfold pageSize; omega)).1
    rw [mem_singleton.mp hr'] at hx'
    refine ⟨r, hr, hlabel, hx.1, ?_⟩
    rw [mem_singleton.mp hr]
    have hlt : pfn * pageSize + 4095 < 16384 := hx'.2
    change (pfn + 1) * pageSize ≤ 16384
    unfold pageSize at hlt ⊢
    omega
  · intro pfn ⟨hvalid, x, hlo, hhi, r, hr, hx⟩
    refine ⟨r, hr, ?_⟩
    rw [mem_singleton.mp hr] at hx ⊢
    obtain ⟨m, hm, hcov⟩ := covered_of_pfnValid htables.memory_inOrder hvalid
    rw [mem_singleton.mp hm] at hcov
    have hmem : pfn * pageSize < 16384 := hcov.2
    have hbase : 12288 ≤ x := hx.1
    change 12288 ≤ pfn * pageSize ∧ (pfn + 1) * pageSize < 20480
    unfold pageSize at hhi hmem ⊢
    omega

/-- The `struct page` of a reserved page is not initialised. -/
theorem reserved_page_not_initialized :
    Tables (oneRegion 4096 12288) (oneRegion 8192 4096) ∧
      ReservedFrame (oneRegion 4096 12288) (oneRegion 8192 4096) 2 ∧
      (handOver 11 (oneRegion 4096 12288) (oneRegion 8192 4096)).map
        (fun s => (s.pages 2).initialized) = some false := by
  refine ⟨oneRegion_tables (by decide) (by decide) (by decide) (by decide), ⟨by decide +kernel,
    8192, by decide, by decide, _, .head _, by decide, by decide⟩, by decide +kernel⟩

end MinixRt.PageAlloc
