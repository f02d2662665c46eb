import MinixRt.PageAlloc.Zone

/-!
# Per-CPU page lists

Single pages go through a list per zone and CPU, which is refilled from the free areas and
emptied into them in batches. Larger blocks go to the free areas directly. Every page is
checked when it is freed and when it is handed out, and a page that fails is dropped.

The loops that run until a check passes take a fuel argument; without fuel the result is
`none`, as it is when a `BUG_ON` fires.
-/

namespace MinixRt.PageAlloc

open MinixRt.Lib

variable {ζ : Type} [DecidableEq ζ]

namespace Zones

def listEmpty (s : Zones ζ) (h : ListHead ζ) : Bool := s.links.next (.head h) == .head h

/-- `list_last_entry`; in an empty list it is no page. -/
def listLast (s : Zones ζ) (h : ListHead ζ) : Option Nat :=
  match s.links.prev (.head h) with
  | .lru pfn => some pfn
  | _ => none

def addCount (s : Zones ζ) (z : ζ) (cpu : Nat) (n : Int) : Zones ζ :=
  let pcp := s.pcp (z, cpu)
  { s with pcp := Function.update s.pcp (z, cpu) { pcp with count := pcp.count + n } }

def setNext (s : Zones ζ) (pfn : Nat) (n : Node ζ) : Zones ζ :=
  { s with links := s.links.setNext (.lru pfn) n }

end Zones

/-! ## The checks -/

/-- The effect of `bad_page`, a `page_mapcount_reset`. -/
def badPage (s : Zones ζ) (pfn : Nat) : Zones ζ :=
  s.setPage pfn { s.pages pfn with pageType := BitVec.allOnes 32 }

/-- `page_expected_state`, where `flagged` says that a flag of the mask is set. -/
def pageExpectedState (p : Page) (flagged : Bool) : Bool :=
  p.pageType == BitVec.allOnes 32 && p.refcount == 0 && !flagged

/-- `free_pages_check`: whether the page is bad. -/
def freePagesCheck (s : Zones ζ) (pfn : Nat) : Zones ζ × Bool :=
  if pageExpectedState (s.pages pfn) (s.pages pfn).flags.checkAtFree then (s, false)
  else (badPage s pfn, true)

/-- `check_new_page`; `__PG_HWPOISON` is no flag at all. -/
def checkNewPage (s : Zones ζ) (pfn : Nat) : Zones ζ × Bool :=
  if pageExpectedState (s.pages pfn) ((s.pages pfn).flags ≠ .clear) then (s, false)
  else (badPage s pfn, true)

/-- The loop of `check_new_pages` over the pages that are left. -/
def checkNewPages (s : Zones ζ) : List Nat → Zones ζ × Bool
  | [] => (s, false)
  | pfn :: pfns =>
    match checkNewPage s pfn with
    | (s, true) => (s, true)
    | (s, false) => checkNewPages s pfns

def freeTailPagesCheck (s : Zones ζ) (head pfn : Nat) : Zones ζ × Bool :=
  if !pageTail s pfn || compoundHead s pfn ≠ head then ((badPage s pfn).setNext pfn .null, true)
  else (s.setNext pfn .null, false)

/-- The body of the tail loop of `free_pages_prepare`. -/
def freeTail (compound : Bool) (head : Nat) (acc : Zones ζ × Bool) (pfn : Nat) : Zones ζ × Bool :=
  let (s, bad) := acc
  let (s, badTail) := if compound then freeTailPagesCheck s head pfn else (s, false)
  let (s, badPage) := freePagesCheck s pfn
  let s := if badPage then s else s.setPage pfn { s.pages pfn with flags := .clear }
  (s, bad || badTail || badPage)

def compoundOrder (s : Zones ζ) (pfn : Nat) : Nat :=
  if (s.pages pfn).flags.head then (s.pages (pfn + 1)).compoundOrder else 0

def tailPages (b : Block) : List Nat := List.range' (b.base + 1) (2 ^ b.order - 1)

/-- `free_pages_prepare` with `check_free`: whether the block may be freed. -/
def freePagesPrepare (s : Zones ζ) (b : Block) : Option (Zones ζ × Bool) :=
  if pageTail s b.base then none
  else
    let compound := (s.pages b.base).flags.head || pageTail s b.base
    if b.order ≠ 0 && (compound && compoundOrder s b.base ≠ b.order) then none
    else
      let (s, bad) := if b.order ≠ 0 then
          (tailPages b).foldl (freeTail compound b.base) (s, false)
        else (s, false)
      let (s, badHead) := freePagesCheck s b.base
      if bad || badHead then some (s, false)
      else some (s.setPage b.base { s.pages b.base with flags := .clear }, true)

/-! ## Bulk freeing -/

/-- The two loops of `free_pcppages_bulk` that detach pages, run as one: the outer loop starts
again, with `batch_free` raised by one, whenever the inner loop stops before `count` is zero. -/
def detach (z : ζ) (cpu : Nat) : (count batchFree : Nat) → Zones ζ → Option (Zones ζ)
  | 0, _, s => some s
  | count + 1, batchFree, s =>
    match s.listLast (.pcp z cpu) with
    | none => none
    | some pfn =>
      let s := ((s.listDel pfn).addCount z cpu (-1)).listAddTail pfn .bulk
      if batchFree - 1 ≠ 0 && !s.listEmpty (.pcp z cpu) then detach z cpu count (batchFree - 1) s
      else detach z cpu count (batchFree - 1 + 1) s

/-- The `list_for_each_entry_safe` of `free_pcppages_bulk`; the pages are not unlinked from the
local list. -/
def freeDetached (C : Config ζ) (z : ζ) : (fuel : Nat) → Node ζ → Zones ζ → Option (Zones ζ)
  | _, .head .bulk, s => some s
  | fuel + 1, .lru pfn, s =>
    match freeOnePage C s z ⟨pfn, 0⟩ with
    | none => none
    | some s' => freeDetached C z fuel (s.links.next (.lru pfn)) s'
  | _, _, _ => none

def freePcppagesBulk (C : Config ζ) (s : Zones ζ) (z : ζ) (cpu count : Nat) : Option (Zones ζ) := do
  let s := { s with links := s.links.init (.head .bulk) }
  let s ← detach z cpu count 1 s
  freeDetached C z count (s.links.next (.head .bulk)) s

/-! ## Freeing -/

def freeUnrefPageCommit (C : Config ζ) (s : Zones ζ) (cpu pfn : Nat) : Option (Zones ζ) :=
  let z := C.zone pfn
  let s := (s.listAdd pfn (.pcp z cpu)).addCount z cpu 1
  let pcp := s.pcp (z, cpu)
  if pcp.high ≤ pcp.count then freePcppagesBulk C s z cpu pcp.batch.toNat else some s

/-- `free_unref_page` for order zero, `__free_pages_ok` for the others. -/
def freeThePage (C : Config ζ) (s : Zones ζ) (cpu : Nat) (b : Block) : Option (Zones ζ) := do
  let (s, good) ← freePagesPrepare s b
  if !good then some s
  else if b.order = 0 then freeUnrefPageCommit C s cpu b.base
  else freeOnePage C s (C.zone b.base) b

/-- `__free_pages`, on the CPU it runs on. -/
def freePages (C : Config ζ) (s : Zones ζ) (cpu : Nat) (b : Block) : Option (Zones ζ) :=
  let p := s.pages b.base
  -- BUG_ON in put_page_testzero
  if p.refcount = 0 then none
  else
    let s := s.setPage b.base { p with refcount := p.refcount - 1 }
    if p.refcount - 1 = 0 then freeThePage C s cpu b else some s

/-- `drain_pages_zone`: whether there was a page. -/
def drainPagesZone (C : Config ζ) (z : ζ) (s : Zones ζ) (cpu : Nat) : Option (Zones ζ × Bool) :=
  let count := (s.pcp (z, cpu)).count
  if count = 0 then some (s, false)
  else (freePcppagesBulk C s z cpu count.toNat).map (·, true)

/-! ## Allocating -/

/-- `rmqueue_bulk` with order zero: the pages go to the end of a list, and are counted. -/
def rmqueueBulk (C : Config ζ) (z : ζ) (list : ListHead ζ) :
    (count : Nat) → Zones ζ → Option (Zones ζ × Nat)
  | 0, s => some (s, 0)
  | count + 1, s =>
    match rmqueueSmallest C s z 0 with
    | none => none
    | some (s, none) => some (s, 0)
    | some (s, some pfn) =>
      (rmqueueBulk C z list count (s.listAddTail pfn list)).map fun (s, alloced) => (s, alloced + 1)

/-- The refill of an empty list in `__rmqueue_pcplist`. -/
def refill (C : Config ζ) (z : ζ) (cpu : Nat) (s : Zones ζ) : Option (Zones ζ) :=
  if s.listEmpty (.pcp z cpu) then
    (rmqueueBulk C z (.pcp z cpu) (s.pcp (z, cpu)).batch.toNat s).map fun (s, alloced) =>
      s.addCount z cpu alloced
  else some s

def rmqueuePcplist (C : Config ζ) (z : ζ) (cpu : Nat) :
    (fuel : Nat) → Zones ζ → Option (Zones ζ × Option Nat)
  | 0, _ => none
  | fuel + 1, s =>
    match refill C z cpu s with
    | none => none
    | some s =>
      match s.listFirst (.pcp z cpu) with
      | none => some (s, none)
      | some pfn =>
        match checkNewPage ((s.listDel pfn).addCount z cpu (-1)) pfn with
        | (s, true) => rmqueuePcplist C z cpu fuel s
        | (s, false) => some (s, some pfn)

/-- The loop of `rmqueue` for blocks of more than one page. -/
def rmqueuePages (C : Config ζ) (z : ζ) (order : Nat) :
    (fuel : Nat) → Zones ζ → Option (Zones ζ × Option Nat)
  | 0, _ => none
  | fuel + 1, s =>
    match rmqueueSmallest C s z order with
    | none => none
    | some (s, none) => some (s, none)
    | some (s, some pfn) =>
      match checkNewPages s (List.range' pfn (2 ^ order)) with
      | (s, true) => rmqueuePages C z order fuel s
      | (s, false) => some (s, some pfn)

def rmqueue (C : Config ζ) (z : ζ) (cpu order fuel : Nat) (s : Zones ζ) :
    Option (Zones ζ × Option Nat) :=
  if order = 0 then rmqueuePcplist C z cpu fuel s else rmqueuePages C z order fuel s

/-- One turn of the loop of `prep_compound_page`. -/
def prepTail (head : Nat) (s : Zones ζ) (pfn : Nat) : Zones ζ :=
  (s.setPage pfn { s.pages pfn with refcount := 0 }).setNext pfn (.compoundHead head)

/-- `prep_compound_page`; `compound_order` is one byte in the first tail page. -/
def prepCompoundPage (s : Zones ζ) (b : Block) : Zones ζ :=
  let s := s.setPage (b.base + 1) { s.pages (b.base + 1) with compoundOrder := b.order % 256 }
  let p := s.pages b.base
  let s := s.setPage b.base { p with flags := { p.flags with head := true } }
  (tailPages b).foldl (prepTail b.base) s

/-- `prep_new_page` without the clearing of the memory. -/
def prepNewPage (s : Zones ζ) (b : Block) : Option (Zones ζ) :=
  let p := s.pages b.base
  -- the two BUG_ONs of set_page_refcounted
  if pageTail s b.base || p.refcount ≠ 0 then none
  else
    let s := s.setPage b.base { p with priv := 0, refcount := 1 }
    some (if b.order ≠ 0 then prepCompoundPage s b else s)

/-- The loop of `get_page_from_freelist` over the other CPUs; `train` is what the last of them
had. -/
def drainOthers (C : Config ζ) (z : ζ) (cpu : Nat) :
    List Nat → Zones ζ → Bool → Option (Zones ζ × Bool)
  | [], s, train => some (s, train)
  | other :: others, s, train =>
    if other = cpu then drainOthers C z cpu others s train
    else
      match drainPagesZone C z s other with
      | none => none
      | some (s, train) => drainOthers C z cpu others s train

def getPageFromFreelist (C : Config ζ) (online : List Nat) (z : ζ) (cpu order : Nat) :
    (fuel : Nat) → Zones ζ → Bool → Option (Zones ζ × Option Nat)
  | 0, _, _ => none
  | fuel + 1, s, train =>
    match rmqueue C z cpu order (fuel + 1) s with
    | none => none
    | some (s, some pfn) => (prepNewPage s ⟨pfn, order⟩).map (·, some pfn)
    | some (s, none) =>
      match drainOthers C z cpu online s train with
      | none => none
      | some (s, true) => getPageFromFreelist C online z cpu order fuel s true
      | some (s, false) => some (s, none)

/-- `__alloc_pages` in the zone that the request selects, on the CPU it runs on. -/
def allocPages (C : Config ζ) (online : List Nat) (fuel : Nat) (s : Zones ζ) (z : ζ)
    (cpu order : Nat) : Option (Zones ζ × Option Nat) :=
  if C.maxOrder ≤ order then some (s, none)
  else getPageFromFreelist C online z cpu order fuel s false

/-! ## The settings -/

/-- A value stored in an `int`. -/
def toInt (n : Nat) : Int := (n : Int).bmod (2 ^ 32)

def pagesetSetBatch (batch : Nat) : PerCpuPages :=
  ⟨0, toInt (6 * batch), toInt (max 1 batch)⟩

def zoneBatchsize (pageSize managed : Nat) : Nat :=
  let batch := managed / 1024
  let batch := if batch * pageSize > 1024 * 1024 then 1024 * 1024 / pageSize else batch
  let batch := batch / 4
  let batch := if batch < 1 then 1 else batch
  2 ^ Nat.log2 (batch + batch / 2) - 1

end MinixRt.PageAlloc
