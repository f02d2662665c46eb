import MinixRt.Mm.MapArea

/-!
# The heap of a task

`system_brk` moves the break of the sender. It grows the heap by a new VMA behind the one that
contains the break, and when the break is lowered it removes the VMAs behind the one that
contains it, up to the first VMA that ends at `mmap_base` or above. `none` is a failed
`BUG_ON`.
-/

namespace MinixRt.System

open Lib Mm

/-- The fields of a message for `system_brk`. -/
inductive BrkMsg
  /-- `IPC_M_TYPE_SYSTEM_SBRK` -/
  | sbrk (increment : BitVec 64)
  /-- `IPC_M_TYPE_SYSTEM_BRK` -/
  | brk (addr : BitVec 64)
  deriving DecidableEq

/-- What `brk_populate_mess` writes. -/
structure BrkReply where
  retval : Int
  brk : Nat
  deriving DecidableEq

/-- `VM_READ | VM_WRITE`. -/
def heapFlags : BitVec 64 := vmRead ||| vmWrite

def brkMmapHeap (b : Board) (start size : Nat) (flags : BitVec 64) (s : Space) :
    Option (Int × Space) :=
  (s.mapArea b start size flags 0 fun _ d => d).map fun r =>
    match r.1 with
    | .mapped _ => (0, r.2)
    | .noVma | .noMap => (-enomem, r.2)

def setBrk (s : Space) (brk : Nat) : Space := { s with mm := { s.mm with brk } }

/-- The heap is extended for the break `new`, which no VMA contains yet. -/
def growHeap (b : Board) (new : Nat) (reply : Nat) (s : Space) : Option (BrkReply × Space) :=
  match s.mmapFindVmaArea (sub64 s.mm.brk 1) with
  | none => none
  | some vma =>
    if vma.vmEnd % pageSize ≠ 0 then none
    else
      (brkMmapHeap b vma.vmEnd (pageAlign (sub64 new vma.vmEnd)) heapFlags s).map fun r =>
        if r.1 ≠ 0 then (⟨r.1, 0⟩, r.2) else (⟨0, reply⟩, setBrk r.2 new)

def systemSbrk (b : Board) (increment : BitVec 64) (s : Space) : Option (BrkReply × Space) :=
  if increment.toInt < 0 then some (⟨-1, 0⟩, s)
  else if increment = 0 then some (⟨0, s.mm.brk⟩, s)
  else
    let new := u64 (s.mm.brk + increment.toNat)
    if s.mm.mmapBase ≤ new then some (⟨-1, 0⟩, s)
    else
      match s.mmapFindVmaArea (sub64 new 1) with
      | some _ => some (⟨0, new⟩, setBrk s new)
      | none => growHeap b new new s

/-- The VMAs behind `vma` that the loop of `system_brk` removes. -/
def nextVmas (vma : Vma) (mm : MmStruct) : List Vma :=
  (mm.vmas.filter fun v => vma.vmStart < v.vmStart).takeWhile fun v => v.vmEnd < mm.mmapBase

def systemSetBrk (b : Board) (addr : Nat) (s : Space) : Option (BrkReply × Space) :=
  if addr < s.mm.startBrk ∨ s.mm.mmapBase ≤ addr then some (⟨-einval, 0⟩, s)
  else if addr = s.mm.brk then some (⟨0, 0⟩, s)
  else if s.mm.brk < addr then
    match s.mmapFindVmaArea (sub64 addr 1) with
    | some _ => some (⟨0, 0⟩, setBrk s addr)
    | none =>
      -- `BUG_ON(!size)`
      if (s.mmapFindVmaArea (sub64 s.mm.brk 1)).any fun v => pageAlign (sub64 addr v.vmEnd) = 0 then
        none
      else growHeap b addr 0 s
  else
    (s.mmapFindVmaArea (sub64 addr 1)).bind fun vma =>
      (Space.destroyVmas (nextVmas vma s.mm) s).map fun s => (⟨0, 0⟩, setBrk s addr)

def systemBrk (b : Board) (s : Space) : BrkMsg → Option (BrkReply × Space)
  | .sbrk increment => systemSbrk b increment s
  | .brk addr => systemSetBrk b addr.toNat s

end MinixRt.System
