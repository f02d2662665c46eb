import MinixRt.Mm.PageTable

/-!
# The VMAs of an address space

`mmap_get_vmap_area`, `mmap_free_vmap_area` and their like: the functions of `mm/mmap.c`
over a `mm_struct` and the memory. The tree `vma_rb_root` is its VMAs in order. A page is
used as a table or as data and never as both, so its content is kept in two views.

Addresses and sizes are `unsigned long` and wrap around at 2^64.
-/

namespace MinixRt.Mm

open Function Lib

/-- `unsigned long` arithmetic. -/
def u64 (n : Nat) : Nat := n % 2 ^ 64

/-- `a - b` of `unsigned long`. -/
def sub64 (a b : Nat) : Nat := u64 (2 ^ 64 + a - b)

theorem sub64_of_le {a c : Nat} (h : c ≤ a) (ha : a < 2 ^ 64) : sub64 a c = a - c := by
  unfold sub64 u64
  omega

def pageAlign (n : Nat) : Nat := u64 (n + (pageSize - 1)) / pageSize * pageSize

def pageAlignDown (n : Nat) : Nat := n / pageSize * pageSize

/-- An address of a `mm_struct`. -/
abbrev MmId := Nat

structure MmStruct where
  /-- The VMAs in the order of `vma_rb_root`. -/
  vmas : List Vma
  pgd : Page
  pgtablesBytes : Int
  mmapBase : Nat
  mmapEnd : Nat
  startCode : Nat
  endCode : Nat
  startData : Nat
  endData : Nat
  startBrk : Nat
  brk : Nat
  startStack : Nat
  argStart : Nat
  argEnd : Nat
  envStart : Nat
  envEnd : Nat
  elfBss : Nat
  elfBrk : Nat

/-- The memory, what the allocators will answer, and what the MMU has seen. -/
structure Mem where
  ref : Page → Nat
  tbl : Page → Nat → Option Entry
  data : Page → Nat → BitVec 8
  kmallocs : List Bool
  freePages : List (Option Page)
  /-- What lies behind the next array of pointers. -/
  beyond : List (Option Page)
  mmu : List MmuOp

structure Board where
  pfnValid : Page → Bool
  physInitrdStart : Nat
  physInitrdSize : Nat

namespace Mem

def kmalloc (m : Mem) : Bool × Mem :=
  match m.kmallocs with
  | [] => (false, m)
  | b :: rest => (b, { m with kmallocs := rest })

/-- `kmalloc` of an array of `nr` pointers. An empty array is `ZERO_SIZE_PTR`, and no block is
longer than 2^10 pages, since `MAX_ORDER` is 11. -/
def kmallocArray (m : Mem) (nr : Nat) : Bool × Mem :=
  if nr = 0 then (true, m) else if 2 ^ 22 < 8 * nr then (false, m) else m.kmalloc

def allocPage (m : Mem) : Option Page × Mem :=
  match m.freePages with
  | [] => (none, m)
  | none :: rest => (none, { m with freePages := rest })
  | some p :: rest =>
    if m.ref p = 0 then
      (some p, { m with
        freePages := rest
        ref := update m.ref p 1
        tbl := update m.tbl p fun _ => none
        data := update m.data p fun _ => 0 })
    else (none, { m with freePages := rest })

/-- `put_page` and `__free_page`. -/
def putPage (m : Mem) (p : Page) : Option Mem :=
  if m.ref p = 0 then none else some { m with ref := update m.ref p (m.ref p - 1) }

def putPages (m : Mem) : List (Option Page) → Option Mem
  | [] => some m
  | none :: _ => none
  | some p :: ps => (m.putPage p).bind fun m => m.putPages ps

end Mem

/-- The loop of `mmap_get_vmap_area` that fills `pages`, with `got` filled already. The pages
are given back when one is refused. -/
def allocPages : Nat → List (Option Page) → Mem → Option (List (Option Page)) × Mem
  | 0, got, m => (some got, m)
  | n + 1, got, m =>
    match m.allocPage with
    | (some p, m) => allocPages n (got ++ [some p]) m
    | (none, m) => (none, (m.putPages got).getD m)

/-- The pages of a VMA for physical memory from `phys` on. -/
def physPages (b : Board) (nr phys : Nat) : Option (List (Option Page)) :=
  if phys % pageSize ≠ 0 then none
  else if ∀ i < nr, b.pfnValid (phys / pageSize + i) then
    some ((List.range nr).map fun i => some (phys / pageSize + i))
  else none

/-- What `mmap_get_vmap_area` puts into `pages`. -/
def vmaPages (b : Board) (flags : BitVec 64) (nr phys : Nat) (m : Mem) :
    Option (List (Option Page)) × Mem :=
  if flags &&& vmPrivateShare = 0 then allocPages nr [] m
  else if flags &&& vmIoremap = 0 then (physPages b nr phys, m)
  else (some (List.replicate nr none), m)

def insertVmaArea (vma : Vma) : List Vma → Option (List Vma)
  | [] => some [vma]
  | this :: rest =>
    if vma.vmEnd ≤ this.vmStart then some (vma :: this :: rest)
    else if this.vmEnd ≤ vma.vmStart then (insertVmaArea vma rest).map (this :: ·)
    else none

def findVmaArea (addr : Nat) : List Vma → Option Vma
  | [] => none
  | vma :: rest =>
    if addr < vma.vmStart then none
    else if vma.vmEnd ≤ addr then findVmaArea addr rest
    else some vma

/-- A `mm_struct` in memory. -/
structure Space where
  mem : Mem
  mm : MmStruct

namespace Space

def mmapGetVmapArea (b : Board) (vstart size : Nat) (flags : BitVec 64) (phys : Nat)
    (s : Space) : Option Vma × Space :=
  if vstart % pageSize ≠ 0 ∨ size % pageSize ≠ 0 ∨ size = 0 ∨ vstart = 0 then (none, s)
  else
    match s.mem.kmalloc with
    | (false, mem) => (none, { s with mem })
    | (true, mem) =>
      -- `nr_pages` is an `unsigned int`
      match mem.kmallocArray (size / pageSize % 2 ^ 32) with
      | (false, mem) => (none, { s with mem })
      | (true, mem) =>
        match vmaPages b flags (size / pageSize % 2 ^ 32) phys mem with
        | (none, mem) => (none, { s with mem })
        | (some pages, mem) =>
          let vma : Vma := {
            vmStart := vstart
            vmEnd := u64 (vstart + size)
            vmPageProt := vmGetPageProt (flags ||| vmShared)
            vmFlags := flags
            pages
            beyond := s.mem.beyond
            root := fun _ => ∅ }
          match insertVmaArea vma s.mm.vmas with
          | none => (none, { s with mem })
          | some vmas => (some vma, { mem, mm := { s.mm with vmas } })

def mmapFindVmaArea (addr : Nat) (s : Space) : Option Vma := findVmaArea addr s.mm.vmas

/-- `mmap_free_vmap_area`. `none` is a failed `BUG_ON`. -/
def mmapFreeVmapArea (addr : Nat) (s : Space) : Option Space :=
  match s.mmapFindVmaArea addr with
  | none => some s
  | some vma =>
    if vma.root 2 = ∅ ∧ vma.root 1 = ∅ ∧ vma.root 0 = ∅ then
      let mm := { s.mm with vmas := s.mm.vmas.filter fun v => v.vmStart ≠ vma.vmStart }
      if vma.vmFlags &&& vmPrivateShare = 0 then
        (s.mem.putPages vma.pages).map fun mem => { mem, mm }
      else some { s with mm }
    else none

/-- The start of an operation on the page tables of `vma`. -/
def work (s : Space) (vma : Vma) : Work where
  ref := s.mem.ref
  tbl := s.mem.tbl
  root := vma.root
  pgtablesBytes := s.mm.pgtablesBytes
  nr := 0
  kmallocs := s.mem.kmallocs
  freePages := s.mem.freePages
  mmu := []

def finish (s : Space) (vma : Vma) (w : Work) : Space where
  mem := { s.mem with
    ref := w.ref
    tbl := w.tbl
    kmallocs := w.kmallocs
    freePages := w.freePages
    mmu := s.mem.mmu ++ w.mmu }
  mm := { s.mm with
    pgtablesBytes := w.pgtablesBytes
    vmas := s.mm.vmas.map fun v =>
      if v.vmStart = vma.vmStart then { v with root := w.root } else v }

def vmapPageRange (vma : Vma) (s : Space) : Option (Int × Space) :=
  (Mm.vmapPageRange s.mm.pgd vma (s.work vma)).map fun r => (r.1, s.finish vma r.2)

def vumapPageRange (vma : Vma) (s : Space) : Option Space :=
  (Mm.vumapPageRange s.mm.pgd vma (s.work vma)).map (s.finish vma)

def mmapMprotectFixup (vma : Vma) (start stop : Nat) (flags : BitVec 64) (s : Space) :
    Option (Int × Space) :=
  (Mm.mmapMprotectFixup s.mm.pgd vma start stop flags (s.work vma)).map fun r =>
    (r.1, s.finish vma r.2)

/-- The loop of `mmap_destroy_mm` and of `system_brk`. -/
def destroyVmas : List Vma → Space → Option Space
  | [], s => some s
  | vma :: rest, s =>
    (s.vumapPageRange vma).bind fun s =>
      (s.mmapFreeVmapArea vma.vmStart).bind fun s => destroyVmas rest s

def mmapDestroyMm (s : Space) : Option Space := destroyVmas s.mm.vmas s

def mmapFreeMmStruct (s : Space) : Option Mem :=
  if s.mm.pgtablesBytes = 0 ∧ s.mm.vmas = [] then s.mem.putPage s.mm.pgd else none

end Space

def userDs : Nat := 2 ^ 48 - 1

def mmapAllocMmStruct (m : Mem) : Option MmStruct × Mem :=
  match m.kmalloc with
  | (false, m) => (none, m)
  | (true, m) =>
    match m.allocPage with
    | (none, m) => (none, m)
    | (some pgd, m) => (some {
        vmas := [], pgd, pgtablesBytes := 0, mmapBase := userDs, mmapEnd := 0
        startCode := 0, endCode := 0, startData := 0, endData := 0, startBrk := 0, brk := 0
        startStack := 0, argStart := 0, argEnd := 0, envStart := 0, envEnd := 0
        elfBss := 0, elfBrk := 0 }, m)

/-! ## The start of concrete runs -/

def emptyMem : Mem where
  ref _ := 0
  tbl _ _ := none
  data _ _ := 0
  kmallocs := []
  freePages := []
  beyond := []
  mmu := []

def plainBoard : Board where
  pfnValid _ := true
  physInitrdStart := 0
  physInitrdSize := 0

/-- An `mm_struct` without VMAs. -/
def plainMm (pgd : Page) : MmStruct where
  vmas := []
  pgd
  pgtablesBytes := 0
  mmapBase := 0
  mmapEnd := 0
  startCode := 0
  endCode := 0
  startData := 0
  endData := 0
  startBrk := 0
  brk := 0
  startStack := 0
  argStart := 0
  argEnd := 0
  envStart := 0
  envEnd := 0
  elfBss := 0
  elfBrk := 0

/-! ## Translation -/

def Entry.table (e : Entry) : Option Page := if e.bad then none else some e.page

/-- The table that the entry of table `t` of level `l` for `addr` points to. -/
def descend (tbl : Page → Nat → Option Entry) (l : Nat) (t : Page) (addr : Nat) : Option Page :=
  (tbl t (index l addr)).bind Entry.table

/-- The walk of the MMU down four levels of tables. -/
def walkTables (tbl : Page → Nat → Option Entry) (pgd : Page) (addr : Nat) : Option Entry :=
  (descend tbl 3 pgd addr).bind fun pud =>
    (descend tbl 2 pud addr).bind fun pmd =>
      (descend tbl 1 pmd addr).bind fun pte => tbl pte (index 0 addr)

def Space.translate (s : Space) (addr : Nat) : Option Entry :=
  walkTables s.mem.tbl s.mm.pgd addr

end MinixRt.Mm
