import MinixRt.Lib.Dyadic
import MinixRt.Memblock.Iterate
import MinixRt.Memblock.Search

/-!
# Handing memory over to the page allocator

`free_area_init_node` initialises the `struct page` of the frames in free memory, zone by zone,
and of the frames in reserved regions. `memblock_free_all` marks the frames of the reserved
regions and frees all others, in blocks, to the zone that their `struct page` names.

The array of `struct page` has an entry for every frame. It starts out zeroed, so before
`__init_single_page` an entry names zone zero, `ZONE_DMA`.
-/

namespace MinixRt.PageAlloc

open MinixRt.Lib MinixRt.Memblock

def pageSize : Nat := 4096

/-- `PFN_UP`, with a sum that may overflow. -/
def pfnUp (x : Nat) : Nat := wrap (x + (pageSize - 1)) / pageSize

def pfnDown (x : Nat) : Nat := x / pageSize

inductive ZoneType
  | dma
  | normal
  | movable
  deriving DecidableEq

def memblockNone : Flags := 0

def memblockDma : Flags := 2

def memblockMovable : Flags := 4

structure BootPage where
  zone : ZoneType
  initialized : Bool
  reserved : Bool
  deriving DecidableEq

structure Boot where
  pages : Nat → BootPage
  /-- The blocks that were freed to a zone. -/
  given : List (ZoneType × Block)

def Boot.zeroed : Boot := ⟨fun _ => ⟨.dma, false, false⟩, []⟩

/-! ## Iterations -/

/-- `for_each_free_mem_range`: every range uses up a region of one of the tables. -/
def freeMemRanges (memory reserved : MemblockType) (flags : Flags) : Option (List (Nat × Nat)) :=
  forEachFreeMemRange memory reserved flags (memory.cnt + reserved.cnt + 2)

/-- `for_each_reserved_mem_region`: the first and the last address of each region. -/
def reservedMemRegions (reserved : MemblockType) : List (Nat × Nat) :=
  reserved.regions.map fun r => (r.base, wrap (r.base + r.size + (2 ^ 64 - 1)))

/-- The numbers from `start` to `stop`. -/
def frames (start stop : Nat) : List Nat := List.range' start (stop - start)

/-! ## `free_area_init_node` -/

def initSinglePage (zone : ZoneType) (s : Boot) (pfn : Nat) : Boot :=
  { s with pages := Function.update s.pages pfn ⟨zone, true, false⟩ }

/-- The body of the loops of `free_area_init_node`, for one range. -/
def initRange (zone : ZoneType) (s : Boot) (range : Nat × Nat) : Boot :=
  (frames (pfnUp range.1) (pfnDown range.2)).foldl (initSinglePage zone) s

/-- `free_area_init_node`, as far as it concerns frames. -/
def freeAreaInitNode (memory reserved : MemblockType) (s : Boot) : Option Boot := do
  let dma ← freeMemRanges memory reserved memblockDma
  let s := dma.foldl (initRange .dma) s
  let movable ← freeMemRanges memory reserved memblockMovable
  let s := movable.foldl (initRange .movable) s
  let normal ← freeMemRanges memory reserved memblockNone
  let s := normal.foldl (initRange .normal) s
  some ((reservedMemRegions reserved).foldl (initRange .normal) s)

/-! ## `memblock_free_all` -/

def pfnValid (memory : MemblockType) (pfn : Nat) : Bool :=
  pfn * pageSize < 2 ^ 64 && (memblockIsMapMemory memory (pfn * pageSize)).getD false

/-- The body of the loop of `reserve_bootmem_region`. -/
def reserveFrame (memory : MemblockType) (s : Boot) (pfn : Nat) : Boot :=
  if pfnValid memory pfn then
    { s with pages := Function.update s.pages pfn { s.pages pfn with reserved := true } }
  else s

def reserveBootmemRegion (memory : MemblockType) (s : Boot) (range : Nat × Nat) : Boot :=
  (frames (pfnDown range.1) (pfnUp range.2)).foldl (reserveFrame memory) s

/-- The zeros at the end of a number of `w` bits. -/
def ctz : (w n : Nat) → Nat
  | 0, _ => 0
  | w + 1, n => if n % 2 = 1 then 0 else ctz w (n / 2) + 1

/-- `__ffs`. It is undefined for zero, where the instructions count 64 zeros. -/
def ffs (n : Nat) : Nat := ctz 64 n

/-- The inner loop of `__free_pages_memory`. -/
def fitOrder (start stop : Nat) : (order : Nat) → Nat
  | 0 => 0
  | order + 1 => if start + 2 ^ (order + 1) > stop then fitOrder start stop order else order + 1

/-- The loop of `__free_pages_memory`: the blocks it frees. Every block has a frame, so
`stop - start` rounds are enough. -/
def freePagesLoop (maxOrder stop : Nat) : (fuel start : Nat) → List Block
  | 0, _ => []
  | fuel + 1, start =>
    if start < stop then
      let order := fitOrder start stop (min (maxOrder - 1) (ffs start))
      ⟨start, order⟩ :: freePagesLoop maxOrder stop fuel (start + 2 ^ order)
    else []

/-- The blocks that `__free_pages_memory` frees. -/
def freePagesMemory (maxOrder start stop : Nat) : List Block :=
  freePagesLoop maxOrder stop (stop - start) start

/-- `memblock_free_pages`: the frames of the block are no longer reserved, and the block goes to
the zone of its first frame. -/
def memblockFreePages (s : Boot) (b : Block) : Boot where
  pages x := if b.Covers x then { s.pages x with reserved := false } else s.pages x
  given := s.given ++ [((s.pages b.base).zone, b)]

/-- The body of the loops of `memblock_free_all` over free ranges. -/
def freeRange (maxOrder : Nat) (s : Boot) (range : Nat × Nat) : Boot :=
  if pfnDown range.2 ≤ pfnUp range.1 then s
  else (freePagesMemory maxOrder (pfnUp range.1) (pfnDown range.2)).foldl memblockFreePages s

def memblockFreeAll (maxOrder : Nat) (memory reserved : MemblockType) (s : Boot) :
    Option Boot := do
  let s := (reservedMemRegions reserved).foldl (reserveBootmemRegion memory) s
  let normal ← freeMemRanges memory reserved memblockNone
  let s := normal.foldl (freeRange maxOrder) s
  let dma ← freeMemRanges memory reserved memblockDma
  let s := dma.foldl (freeRange maxOrder) s
  let movable ← freeMemRanges memory reserved memblockMovable
  some (movable.foldl (freeRange maxOrder) s)

def handOver (maxOrder : Nat) (memory reserved : MemblockType) : Option Boot := do
  let s ← freeAreaInitNode memory reserved .zeroed
  memblockFreeAll maxOrder memory reserved s

end MinixRt.PageAlloc
