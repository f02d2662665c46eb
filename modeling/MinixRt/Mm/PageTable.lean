import MinixRt.Lib.Radix
import Mathlib.Data.Finset.Card

/-!
# Mapping and unmapping a VMA

The page-table functions of `mm/mmap.c`. A page table is a page of 512 entries in memory;
levels are numbered from the lowest: an entry of level 0 (`pte`) covers a page, one of level
1 (`pmd`) 2 MiB, of level 2 (`pud`) 1 GiB and of level 3 (`pgd`) 512 GiB. A table is shared
by the VMAs that need it: each keeps its page in `pud_root`, `pmd_root` or `pte_root` and
holds one reference on it.

The source has a copy of each function for each level. They are one definition each here,
and the functions of the source are its members. `none` as a result is a failed `BUG_ON`,
an access to a table that is not there or a pointer that leaves its table.

An allocation asks `kmallocs` and `freePages`, which say what the allocator answers; a page
that is in use is never answered.
-/

namespace MinixRt.Mm

open Function Lib

/-- A `struct page`. -/
abbrev Page := Nat

/-- A page-table entry that is not zero: its output page and its other bits. -/
structure Entry where
  page : Page
  attr : BitVec 64
  deriving DecidableEq, Repr

/-! ## Constants -/

def pageSize : Nat := 4096

/-- `PTRS_PER_PTE`, `PTRS_PER_PMD`, `PTRS_PER_PUD` and `PTRS_PER_PGD`. -/
def ptrs : Nat := 512

/-- `PAGE_SIZE`, `PMD_SIZE`, `PUD_SIZE` and `PGDIR_SIZE`. -/
def entrySize (l : Nat) : Nat := pageSize * ptrs ^ l

/-- `pte_index`, `pmd_index`, `pud_index` and `pgd_index`. -/
def index (l addr : Nat) : Nat := addr / entrySize l % ptrs

/-- `pmd_addr_end`, `pud_addr_end` and `pgd_addr_end`. -/
def addrEnd (l addr stop : Nat) : Nat := Radix.blockEnd (entrySize l) addr stop

/-- `addr += PAGE_SIZE`. -/
def nextPage (addr _stop : Nat) : Nat := addr + pageSize

/-- `PUD_TYPE_TABLE` and `PMD_TYPE_TABLE`. -/
def typeTable : BitVec 64 := 3

/-- What `__pgd_populate`, `__pud_populate` and `__pmd_populate` store. -/
def tableDesc (p : Page) : Entry := ⟨p, typeTable⟩

/-- The bit that `pgd_bad`, `pud_bad` and `pmd_bad` test. A section has it clear, too. -/
def Entry.bad (e : Entry) : Bool := e.attr &&& 2 == 0

def enomem : Int := 12
def ebusy : Int := 16
def einval : Int := 22

/-! ## Protection -/

def vmRead : BitVec 64 := 0x1
def vmWrite : BitVec 64 := 0x2
def vmExec : BitVec 64 := 0x4
def vmShared : BitVec 64 := 0x8
def vmIoremap : BitVec 64 := 0x10
def vmUserStack : BitVec 64 := 0x20
def vmPrivateShare : BitVec 64 := 0x80

def pteValid : BitVec 64 := 1 <<< 0
def pteUser : BitVec 64 := 1 <<< 6
def pteRdonly : BitVec 64 := 1 <<< 7
def pteNg : BitVec 64 := 1 <<< 11
def pteWrite : BitVec 64 := 1 <<< 51
def ptePxn : BitVec 64 := 1 <<< 53
def pteUxn : BitVec 64 := 1 <<< 54
def pteProtNone : BitVec 64 := 1 <<< 58

/-- `_PAGE_DEFAULT`: `PTE_TYPE_PAGE | PTE_AF | PTE_SHARED | PTE_ATTRINDX(MT_NORMAL)`. -/
def pageDefault : BitVec 64 := 3 ||| 1 <<< 10 ||| 3 <<< 8 ||| 4 <<< 2

def pageNone : BitVec 64 :=
  pageDefault &&& ~~~pteValid ||| pteProtNone ||| pteRdonly ||| pteNg ||| ptePxn ||| pteUxn

def pageShared : BitVec 64 := pageDefault ||| pteUser ||| pteNg ||| ptePxn ||| pteUxn ||| pteWrite

def pageSharedExec : BitVec 64 := pageDefault ||| pteUser ||| pteNg ||| ptePxn ||| pteWrite

def pageReadonly : BitVec 64 :=
  pageDefault ||| pteUser ||| pteRdonly ||| pteNg ||| ptePxn ||| pteUxn

def pageReadonlyExec : BitVec 64 := pageDefault ||| pteUser ||| pteRdonly ||| pteNg ||| ptePxn

def pageExeconly : BitVec 64 := pageDefault ||| pteRdonly ||| pteNg ||| ptePxn

/-- `protection_map`, from `__P000` to `__P111` and from `__S000` to `__S111`. -/
def protectionMap : List (BitVec 64) :=
  [pageNone, pageReadonly, pageReadonly, pageReadonly,
    pageExeconly, pageReadonlyExec, pageReadonlyExec, pageReadonlyExec,
    pageNone, pageReadonly, pageShared, pageShared,
    pageExeconly, pageReadonlyExec, pageSharedExec, pageSharedExec]

def vmGetPageProt (vmFlags : BitVec 64) : BitVec 64 :=
  protectionMap.getD (vmFlags &&& (vmRead ||| vmWrite ||| vmExec ||| vmShared)).toNat 0

/-! ## The state of a mapping operation -/

/-- `struct vm_area_struct`. `root l` is the set of pages in `pte_root`, `pmd_root` and
`pud_root` for `l` from 0 to 2; `nr_pages` is the length of `pages`. -/
structure Vma where
  vmStart : Nat
  vmEnd : Nat
  vmPageProt : BitVec 64
  vmFlags : BitVec 64
  pages : List (Option Page)
  /-- What a read outside of the array `pages` finds. -/
  beyond : List (Option Page)
  root : Nat → Finset Page

def Vma.nrPages (v : Vma) : Nat := v.pages.length

/-- `vma->pages[nr]`, with `nr` an `int`. A VMA of 2^32 pages or more has an array that is too
short for it, and `vmap_page_range` reads whatever is behind the array. -/
def Vma.page (v : Vma) (nr : Nat) : Option Page :=
  v.pages[nr % 2 ^ 32]?.getD v.beyond[nr]?.join

/-- What the MMU sees of an operation. -/
inductive MmuOp
  /-- A store to the leaf entry of this page of the address space. -/
  | setPte (n : Nat) (e : Entry)
  | clearPte (n : Nat)
  /-- `flush_tlb_range` from the page of `start` to `stop`. -/
  | flushRange (start stop : Nat)
  deriving DecidableEq

/-- The memory and the variables an operation on one VMA works on. `root` are the trees of
the VMA and `nr` is the running index into its pages. -/
structure Work where
  /-- `_refcount`; a page with none is in the page allocator. -/
  ref : Page → Nat
  /-- The pages as tables. -/
  tbl : Page → Nat → Option Entry
  root : Nat → Finset Page
  pgtablesBytes : Int
  nr : Nat
  kmallocs : List Bool
  freePages : List (Option Page)
  mmu : List MmuOp

namespace Work

def setTbl (s : Work) (t : Page) (i : Nat) (v : Option Entry) : Work :=
  { s with tbl := Radix.setCell s.tbl t i v }

def setRef (s : Work) (p : Page) (n : Nat) : Work :=
  { s with ref := update s.ref p n }

def setRoot (s : Work) (l : Nat) (r : Finset Page) : Work :=
  { s with root := update s.root l r }

def logMmu (s : Work) (op : MmuOp) : Work := { s with mmu := s.mmu ++ [op] }

/-- `kmalloc` of a tree node. -/
def kmalloc (s : Work) : Bool × Work :=
  match s.kmallocs with
  | [] => (false, s)
  | b :: rest => (b, { s with kmallocs := rest })

def getFreePage (s : Work) : Option Page × Work :=
  match s.freePages with
  | [] => (none, s)
  | none :: rest => (none, { s with freePages := rest })
  | some p :: rest =>
    if s.ref p = 0 then
      (some p, { s with
        freePages := rest
        ref := update s.ref p 1
        tbl := update s.tbl p fun _ => none })
    else (none, { s with freePages := rest })

def getPage (s : Work) (p : Page) : Option Work :=
  if s.ref p = 0 then none else some (s.setRef p (s.ref p + 1))

/-- `put_pagetable_testzero`. A page without references goes back to the allocator. -/
def putPagetableTestzero (s : Work) (p : Page) : Option (Bool × Work) :=
  if s.ref p = 0 then none else some (s.ref p = 1, s.setRef p (s.ref p - 1))

end Work

open Work

/-! ## Mapping -/

/-- The table of level `l` below the entry `slot` is taken into the tree of the VMA, or a
new one is made. -/
def linkTable (l : Nat) (slot : Page × Nat) (s : Work) : Option (Bool × Work) :=
  match s.tbl slot.1 slot.2 with
  | some e =>
    match s.getPage e.page with
    | none => none
    | some s =>
      if e.page ∈ s.root l then (s.putPagetableTestzero e.page).map fun r => (false, r.2)
      else some (true, s.setRoot l (insert e.page (s.root l)))
  | none =>
    match s.getFreePage with
    | (none, s) => some (false, s)
    | (some p, s) =>
      if p ∈ s.root l then (s.putPagetableTestzero p).map fun r => (false, r.2)
      else
        let s := (s.setRoot l (insert p (s.root l))).setTbl slot.1 slot.2 (tableDesc p)
        some (true, { s with pgtablesBytes := s.pgtablesBytes + 4096 })

/-- `pud_alloc`, `pmd_alloc` and `pte_alloc`. -/
def tableAlloc (l : Nat) (slot : Page × Nat) (s : Work) : Option (Bool × Work) :=
  match s.kmalloc with
  | (false, s) => some (false, s)
  | (true, s) => linkTable l slot s

/-- The loop over the entries of a table for the addresses from `addr` to `stop`. -/
def walkTable (l : Nat) (next : Nat → Nat → Nat)
    (body : Nat → Nat → Nat → Work → Option (Int × Work)) (addr stop : Nat) (s : Work) :
    Option (Int × Work) :=
  Radix.walk next body (ptrs - index l addr) (index l addr) addr stop s

/-- The loop over the entries of the table of level `l` below `slot`, which must be there. -/
def tableRange (l : Nat) (next : Nat → Nat → Nat)
    (body : Page → Nat → Nat → Nat → Work → Option (Int × Work)) (slot : Page × Nat)
    (addr stop : Nat) (s : Work) : Option (Int × Work) :=
  match s.tbl slot.1 slot.2 with
  | none => none
  | some e => walkTable l next (body e.page) addr stop s

/-- The common form of `vmap_pud_range`, `vmap_pmd_range` and `vmap_pte_range`. -/
def vmapRange (l : Nat) (next : Nat → Nat → Nat)
    (body : Page → Nat → Nat → Nat → Work → Option (Int × Work)) (slot : Page × Nat)
    (addr stop : Nat) (s : Work) : Option (Int × Work) :=
  match tableAlloc l slot s with
  | none => none
  | some (false, s) => some (-enomem, s)
  | some (true, s) => tableRange l next body slot addr stop s

/-- `if (f(...)) return -ENOMEM;`. -/
def orEnomem (r : Option (Int × Work)) : Option (Int × Work) :=
  r.map fun p => (if p.1 = 0 then 0 else -enomem, p.2)

/-- The body of the loop of `vmap_pte_range`. -/
def vmapPte (vma : Vma) (t i addr _next : Nat) (s : Work) : Option (Int × Work) :=
  if s.tbl t i ≠ none then some (-ebusy, s)
  else
    match vma.page s.nr with
    | none => some (-enomem, s)
    | some p =>
      let e : Entry := ⟨p, vma.vmPageProt⟩
      let s := (s.setTbl t i e).logMmu (.setPte (addr / pageSize) e)
      some (0, { s with nr := s.nr + 1 })

def vmapPteRange (vma : Vma) : Page × Nat → Nat → Nat → Work → Option (Int × Work) :=
  vmapRange 0 nextPage (vmapPte vma)

def vmapPmdRange (vma : Vma) : Page × Nat → Nat → Nat → Work → Option (Int × Work) :=
  vmapRange 1 (addrEnd 1) fun t i addr next s => orEnomem (vmapPteRange vma (t, i) addr next s)

def vmapPudRange (vma : Vma) : Page × Nat → Nat → Nat → Work → Option (Int × Work) :=
  vmapRange 2 (addrEnd 2) fun t i addr next s => orEnomem (vmapPmdRange vma (t, i) addr next s)

/-! ## Unmapping -/

/-- `p??_clear_huge` and `p??_none_or_clear_bad`: the entry points to no table. -/
def noneOrClearBad (slot : Page × Nat) (s : Work) : Bool × Work :=
  match s.tbl slot.1 slot.2 with
  | none => (true, s)
  | some e => if e.bad then (true, s.setTbl slot.1 slot.2 none) else (false, s)

/-- The VMA gives up its reference on the table of level `l` below `slot`, and the last
reference frees the table. -/
def putTable (l : Nat) (slot : Page × Nat) (p : Page) (s : Work) : Option Work :=
  match (s.setRoot l ((s.root l).erase p)).putPagetableTestzero p with
  | none => none
  | some (false, s) => some s
  | some (true, s) =>
    let s := s.setTbl slot.1 slot.2 none
    some { s with pgtablesBytes := s.pgtablesBytes - 4096 }

/-- The body of the loop of `vunmap_pte_range`. -/
def vunmapPte (t i addr _next : Nat) (s : Work) : Option (Int × Work) :=
  if s.tbl t i = none then some (0, s)
  else some (0, (s.setTbl t i none).logMmu (.clearPte (addr / pageSize)))

/-- The common form of `vumap_pud_range`, `vunmap_pmd_range` and `vunmap_pte_range`. -/
def vunmapRange (l : Nat) (next : Nat → Nat → Nat)
    (body : Page → Nat → Nat → Nat → Work → Option (Int × Work)) (slot : Page × Nat)
    (addr stop : Nat) (s : Work) : Option (Int × Work) :=
  match s.tbl slot.1 slot.2 with
  | none => none
  | some e =>
    match walkTable l next (body e.page) addr stop s with
    | none => none
    | some (_, s) =>
      -- `BUG_ON(!ur_pte)` and its like
      if e.page ∈ s.root l then (putTable l slot e.page s).map (0, ·) else none

/-- An entry of a table above the lowest is skipped when there is no table below it. -/
def vunmapEntry (range : Page × Nat → Nat → Nat → Work → Option (Int × Work))
    (t i addr next : Nat) (s : Work) : Option (Int × Work) :=
  match noneOrClearBad (t, i) s with
  | (true, s) => some (0, s)
  | (false, s) => range (t, i) addr next s

def vunmapPteRange : Page × Nat → Nat → Nat → Work → Option (Int × Work) :=
  vunmapRange 0 nextPage vunmapPte

def vunmapPmdRange : Page × Nat → Nat → Nat → Work → Option (Int × Work) :=
  vunmapRange 1 (addrEnd 1) (vunmapEntry vunmapPteRange)

def vumapPudRange : Page × Nat → Nat → Nat → Work → Option (Int × Work) :=
  vunmapRange 2 (addrEnd 2) (vunmapEntry vunmapPmdRange)

def vumapPageRange (pgd : Page) (vma : Vma) (s : Work) : Option Work :=
  if vma.vmEnd ≤ vma.vmStart then some s
  else
    (walkTable 3 (addrEnd 3) (vunmapEntry vumapPudRange pgd) vma.vmStart vma.vmEnd s).map
      Prod.snd

/-! ## Undoing a failed mapping -/

/-- The entry in the loops of `vunmap_bad_pmd_range`, `vumap_bad_pud_range` and
`vmap_free_bad_area`: the table of level `l` below it is emptied and given up if the VMA
holds it. -/
def badEntry (l : Nat) (range : Page × Nat → Nat → Nat → Work → Option (Int × Work))
    (t i addr next : Nat) (s : Work) : Option (Int × Work) :=
  match noneOrClearBad (t, i) s with
  | (true, s) => some (0, s)
  | (false, s) =>
    match range (t, i) addr next s with
    | none => none
    | some (_, s) =>
      match s.tbl t i with
      | none => none
      | some e =>
        if e.page ∈ s.root l then (putTable l (t, i) e.page s).map (0, ·) else some (0, s)

def vunmapBadPteRange : Page × Nat → Nat → Nat → Work → Option (Int × Work) :=
  tableRange 0 nextPage vunmapPte

def vunmapBadPmdRange : Page × Nat → Nat → Nat → Work → Option (Int × Work) :=
  tableRange 1 (addrEnd 1) (badEntry 0 vunmapBadPteRange)

def vumapBadPudRange : Page × Nat → Nat → Nat → Work → Option (Int × Work) :=
  tableRange 2 (addrEnd 2) (badEntry 1 vunmapBadPmdRange)

def vmapFreeBadArea (pgd : Page) (vma : Vma) (s : Work) : Option Work :=
  if vma.vmEnd ≤ vma.vmStart then some s
  else
    (walkTable 3 (addrEnd 3) (badEntry 2 vumapBadPudRange pgd) vma.vmStart vma.vmEnd s).map
      Prod.snd

def vmapPageRange (pgd : Page) (vma : Vma) (s : Work) : Option (Int × Work) :=
  if vma.vmEnd ≤ vma.vmStart then some (-einval, s)
  else
    match walkTable 3 (addrEnd 3) (fun i => vmapPudRange vma (pgd, i)) vma.vmStart vma.vmEnd
      { s with nr := 0 } with
    | none => none
    | some (err, s) =>
      -- `nr` is an `int` and `nr_pages` an `unsigned int`
      if err ≠ 0 ∨ s.nr % 2 ^ 32 ≠ vma.nrPages then (vmapFreeBadArea pgd vma s).map (err, ·)
      else some ((BitVec.ofNat 32 s.nr).toInt, s.logMmu (.flushRange vma.vmStart vma.vmEnd))

/-! ## Changing the protection -/

/-- The body of the loop of `mprotect_fixup_pte_range`. An empty entry reads as page 0. -/
def mprotectPte (newprot : BitVec 64) (t i addr _next : Nat) (s : Work) :
    Option (Int × Work) :=
  let e : Entry := ⟨((s.tbl t i).map Entry.page).getD 0, newprot⟩
  some (0, (s.setTbl t i e).logMmu (.setPte (addr / pageSize) e))

def mprotectFixupPteRange (newprot : BitVec 64) :
    Page × Nat → Nat → Nat → Work → Option (Int × Work) :=
  tableRange 0 nextPage (mprotectPte newprot)

def mprotectFixupPmdRange (newprot : BitVec 64) :
    Page × Nat → Nat → Nat → Work → Option (Int × Work) :=
  tableRange 1 (addrEnd 1) fun t i => mprotectFixupPteRange newprot (t, i)

def mprotectFixupPudRange (newprot : BitVec 64) :
    Page × Nat → Nat → Nat → Work → Option (Int × Work) :=
  tableRange 2 (addrEnd 2) fun t i => mprotectFixupPmdRange newprot (t, i)

def mmapMprotectFixup (pgd : Page) (vma : Vma) (start stop : Nat) (flags : BitVec 64)
    (s : Work) : Option (Int × Work) :=
  let newprot := vmGetPageProt (flags ||| vmShared)
  if start < vma.vmStart ∨ vma.vmEnd < stop ∨ stop ≤ start ∨ start % pageSize ≠ 0 ∨
      stop % pageSize ≠ 0 then some (-einval, s)
  else
    match walkTable 3 (addrEnd 3) (fun i => mprotectFixupPudRange newprot (pgd, i)) start stop s
      with
    | none => none
    | some (_, s) => some (0, s.logMmu (.flushRange start stop))

end MinixRt.Mm
