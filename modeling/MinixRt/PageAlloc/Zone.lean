import MinixRt.Lib.Dyadic
import MinixRt.Lib.Linked

/-!
# Zones and their free areas

The page descriptors of all memory, the free areas of every zone and the operations of the
buddy allocator: `__rmqueue_smallest` with `expand`, and `__free_one_page`. Free blocks are
kept on intrusive lists through `page->lru`. A `BUG_ON` that fires stops the machine, so the
operations return an option.
-/

namespace MinixRt.PageAlloc

open MinixRt.Lib

/-- The list heads: `free_area[order].free_list` of a zone, `pcp->lists` of a zone and a CPU,
and the local list of a bulk free. -/
inductive ListHead (ζ : Type)
  | freeList (zone : ζ) (order : Nat)
  | pcp (zone : ζ) (cpu : Nat)
  | bulk
  deriving DecidableEq

/-- What the words of `page->lru` can hold. In a tail page `lru.next` is the word
`compound_head`, the address of the head page plus one. -/
inductive Node (ζ : Type)
  | head (h : ListHead ζ)
  | lru (pfn : Nat)
  | compoundHead (pfn : Nat)
  | null
  | poison1
  | poison2
  deriving DecidableEq

def layout (ζ : Type) : Layout (Node ζ) (ListHead ζ) Nat where
  head := Node.head
  entry := Node.lru
  head_injective _ _ h := Node.head.inj h
  entry_injective _ _ h := Node.lru.inj h
  head_ne_entry _ _ := nofun

/-- The bits of `page->flags` below `NR_PAGEFLAGS`; the zone id above them never changes. -/
structure PageFlags where
  locked : Bool
  reserved : Bool
  head : Bool
  slub : Bool
  active : Bool
  deriving DecidableEq

/-- No flag of `PAGE_FLAGS_CHECK_AT_PREP`. -/
def PageFlags.clear : PageFlags := ⟨false, false, false, false, false⟩

/-- Some flag of `PAGE_FLAGS_CHECK_AT_FREE`. -/
def PageFlags.checkAtFree (f : PageFlags) : Bool := f.slub || f.active || f.locked

/-- The fields of `struct page` besides `lru`. The words `page_type` and `_mapcount` are one,
and `compound_order` lies in the first tail page. -/
structure Page where
  flags : PageFlags
  pageType : BitVec 32
  priv : Nat
  refcount : Int
  compoundOrder : Nat

def pageTypeBase : BitVec 32 := 0xf0000000#32

def pgBuddy : BitVec 32 := 0x80#32

/-- The test `PageType(page, flag)`. -/
def Page.hasType (p : Page) (flag : BitVec 32) : Bool :=
  p.pageType &&& (pageTypeBase ||| flag) == pageTypeBase

def Page.buddy (p : Page) : Bool := p.hasType pgBuddy

/-- The fields of `struct per_cpu_pages` besides the list. -/
structure PerCpuPages where
  count : Int
  high : Int
  batch : Int

/-- The state that the page allocator works on; `nrFree` and `pcp` are indexed by zone and
order, and by zone and CPU. -/
structure Zones (ζ : Type) where
  links : Links (Node ζ)
  pages : Nat → Page
  nrFree : ζ × Nat → Nat
  pcp : ζ × Nat → PerCpuPages

/-- What the boot code fixes: the order limit, the page frames that exist, the zone in the
flags of a page, and the pages of each zone that were handed to the allocator. -/
structure Config (ζ : Type) where
  maxOrder : Nat
  two_le_maxOrder : 2 ≤ maxOrder
  maxOrder_le : maxOrder ≤ 31
  initialized : ζ → Bool
  pfnValid : Nat → Bool
  zone : Nat → ζ
  managed : ζ → Set Nat
  zone_of_managed : ∀ z x, x ∈ managed z → zone x = z
  valid_of_managed : ∀ z x, x ∈ managed z → pfnValid x = true

variable {ζ : Type} [DecidableEq ζ]

namespace Zones

def setPage (s : Zones ζ) (pfn : Nat) (p : Page) : Zones ζ :=
  { s with pages := Function.update s.pages pfn p }

def listDel (s : Zones ζ) (pfn : Nat) : Zones ζ :=
  { s with links := s.links.del (.lru pfn) .poison1 .poison2 }

def listAdd (s : Zones ζ) (pfn : Nat) (h : ListHead ζ) : Zones ζ :=
  { s with links := s.links.add (.lru pfn) (.head h) }

def listAddTail (s : Zones ζ) (pfn : Nat) (h : ListHead ζ) : Zones ζ :=
  { s with links := s.links.addTail (.lru pfn) (.head h) }

def listFirst (s : Zones ζ) (h : ListHead ζ) : Option Nat :=
  match s.links.next (.head h) with
  | .lru pfn => some pfn
  | _ => none

def setNrFree (s : Zones ζ) (z : ζ) (order n : Nat) : Zones ζ :=
  { s with nrFree := Function.update s.nrFree (z, order) n }

end Zones

def setPageOrder (s : Zones ζ) (pfn order : Nat) : Option (Zones ζ) :=
  let p := s.pages pfn
  -- BUG_ON in __SetPageBuddy
  if p.hasType 0 then
    some (s.setPage pfn { p with priv := order, pageType := p.pageType &&& ~~~pgBuddy })
  else none

def rmvPageOrder (s : Zones ζ) (pfn : Nat) : Option (Zones ζ) :=
  let p := s.pages pfn
  -- BUG_ON in __ClearPageBuddy
  if p.buddy then
    some (s.setPage pfn { p with priv := 0, pageType := p.pageType ||| pgBuddy })
  else none

def compoundHead (s : Zones ζ) (pfn : Nat) : Nat :=
  match s.links.next (.lru pfn) with
  | .compoundHead head => head
  | _ => pfn

def pageTail (s : Zones ζ) (pfn : Nat) : Bool :=
  match s.links.next (.lru pfn) with
  | .compoundHead _ => true
  | _ => false

def pageCount (s : Zones ζ) (pfn : Nat) : Int := (s.pages (compoundHead s pfn)).refcount

def findBuddyPfn (pfn order : Nat) : Nat := pfn ^^^ 2 ^ order

def pageIsBuddy (C : Config ζ) (s : Zones ζ) (pfn buddy order : Nat) : Option Bool :=
  if (s.pages buddy).buddy && (s.pages buddy).priv == order then
    if C.zone pfn ≠ C.zone buddy then some false
    else if pageCount s buddy ≠ 0 then none
    else some true
  else some false

/-- A free block leaves its list: `list_del`, `nr_free--` and `rmv_page_order`. -/
def freeAreaDel (s : Zones ζ) (z : ζ) (pfn order : Nat) : Option (Zones ζ) :=
  rmvPageOrder ((s.listDel pfn).setNrFree z order (s.nrFree (z, order) - 1)) pfn

/-- A block enters the list of its order, in front or at the end: `list_add` or
`list_add_tail`, and `nr_free++`. -/
def freeAreaAdd (s : Zones ζ) (z : ζ) (pfn order : Nat) (tail : Bool) : Zones ζ :=
  let s := if tail then s.listAddTail pfn (.freeList z order) else s.listAdd pfn (.freeList z order)
  s.setNrFree z order (s.nrFree (z, order) + 1)

section FreeAreaAdd

variable (s : Zones ζ) (z : ζ) (pfn order : Nat) (tail : Bool)

@[simp] theorem freeAreaAdd_pages : (freeAreaAdd s z pfn order tail).pages = s.pages := by
  cases tail <;> rfl

@[simp] theorem freeAreaAdd_pcp : (freeAreaAdd s z pfn order tail).pcp = s.pcp := by
  cases tail <;> rfl

theorem freeAreaAdd_nrFree : (freeAreaAdd s z pfn order tail).nrFree =
      Function.update s.nrFree (z, order) (s.nrFree (z, order) + 1) := by
  cases tail <;> rfl

theorem setPageOrder_freeAreaAdd : setPageOrder (freeAreaAdd s z pfn order tail) pfn order =
      (setPageOrder s pfn order).map (freeAreaAdd · z pfn order tail) := by
  simp only [setPageOrder, freeAreaAdd_pages]
  split_ifs
  · cases tail <;> rfl
  · rfl

end FreeAreaAdd

/-- The merge loop of `__free_one_page`; `left` counts the orders below `max_order - 1`. -/
def mergeLoop (C : Config ζ) (z : ζ) : (left : Nat) → Zones ζ → Block → Option (Zones ζ × Block)
  | 0, s, b => some (s, b)
  | left + 1, s, b =>
    let buddyPfn := findBuddyPfn b.base b.order
    if C.pfnValid buddyPfn then
      match pageIsBuddy C s b.base buddyPfn b.order with
      | none => none
      | some false => some (s, b)
      | some true =>
        match freeAreaDel s z buddyPfn b.order with
        | none => none
        | some s => mergeLoop C z left s ⟨buddyPfn &&& b.base, b.order + 1⟩
    else some (s, b)

/-- Whether the merged block could merge again as soon as its own buddy is freed. Below
`MAX_ORDER - 2` the merge loop was left early, so `buddy_pfn` is the buddy of the block. -/
def higherBuddyFree (C : Config ζ) (s : Zones ζ) (b : Block) : Option Bool :=
  let buddyPfn := findBuddyPfn b.base b.order
  if b.order + 2 < C.maxOrder && C.pfnValid buddyPfn then
    let combinedPfn := buddyPfn &&& b.base
    let higherBuddy := findBuddyPfn combinedPfn (b.order + 1)
    if C.pfnValid higherBuddy then pageIsBuddy C s combinedPfn higherBuddy (b.order + 1)
    else some false
  else some false

def freeOnePage (C : Config ζ) (s : Zones ζ) (z : ζ) (b : Block) : Option (Zones ζ) :=
  if !C.initialized z || (s.pages b.base).flags ≠ .clear || b.base &&& (2 ^ b.order - 1) ≠ 0 then
    none
  else do
    let (s, b) ← mergeLoop C z (C.maxOrder - 1 - b.order) s b
    let s ← setPageOrder s b.base b.order
    let tail ← higherBuddyFree C s b
    some (freeAreaAdd s z b.base b.order tail)

/-- The loop of `expand`, from the order `low + n` down to `low`. -/
def expand (z : ζ) (pfn low : Nat) : (n : Nat) → Zones ζ → Option (Zones ζ)
  | 0, s => some s
  | n + 1, s => do
    let high := low + n
    let size := 2 ^ high
    let s := freeAreaAdd s z (pfn + size) high false
    let s ← setPageOrder s (pfn + size) high
    expand z pfn low n s

/-- The loop of `__rmqueue_smallest` from `current_order` on; `left` counts the orders below
`MAX_ORDER`. -/
def rmqueueFrom (z : ζ) (order : Nat) (s : Zones ζ) :
    (left currentOrder : Nat) → Option (Zones ζ × Option Nat)
  | 0, _ => some (s, none)
  | left + 1, currentOrder =>
    match s.listFirst (.freeList z currentOrder) with
    | none => rmqueueFrom z order s left (currentOrder + 1)
    | some pfn => do
      let s ← freeAreaDel s z pfn currentOrder
      let s ← expand z pfn order (currentOrder - order) s
      some (s, some pfn)

/-- `__rmqueue_smallest`: the first page of the block, or no page. -/
def rmqueueSmallest (C : Config ζ) (s : Zones ζ) (z : ζ) (order : Nat) :
    Option (Zones ζ × Option Nat) :=
  rmqueueFrom z order s (C.maxOrder - order) order

end MinixRt.PageAlloc
