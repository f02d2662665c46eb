import MinixRt.Mm.Copy
import MinixRt.System.Brk

/-!
# Replacing the image of a task

`system_exec` builds a new `mm_struct` for a task from a `minix_rt_binprm` in the memory of
the sender: the segments of its list, a stack, and a page for the argument strings. It frees
the old one at the end. `none` as a result is a failed `BUG_ON`.

What the call has allocated and not yet freed is kept in `bufs`, and `log` is the list of the
accesses to its buffers. A write behind the end of a buffer is in the log only; the string
page is the exception, whose copy goes on into the next page frames.
-/

namespace MinixRt.System

open Function Lib Mm

def esrch : Int := 3
def eio : Int := 5
def eacces : Int := 13

/-- `TASK_SIZE` and `STACK_TOP`. -/
def taskSize : Nat := 2 ^ 48

def badAddr (addr : Nat) : Bool := taskSize ≤ addr

def threadSize : Nat := 2 ^ 14

/-! ## What the sender's memory holds -/

/-- `mmap_memcpy_from_vma` from the sender: all bytes of a range, or `none`. The sender waits for
the reply, and the call writes to no page of it. -/
structure Reader where
  read : Nat → Nat → Option (List Byte)
  length : ∀ {addr size xs}, read addr size = some xs → xs.length = size ∧ size ≠ 0

def leNat (xs : List Byte) : Nat := xs.foldr (fun x n => x.toNat + 256 * n) 0

def word64 (xs : List Byte) (off : Nat) : Nat := leNat ((xs.drop off).take 8)

def word32 (xs : List Byte) (off : Nat) : BitVec 32 := BitVec.ofNat 32 (leNat ((xs.drop off).take 4))

/-- The fields of `struct minix_rt_binprm` that the call reads. -/
structure Binprm where
  filename : Nat
  filenameSize : Nat
  file : Nat
  fileSize : Nat
  argc : BitVec 32
  envc : BitVec 32
  binprmInfo : Nat
  eEntry : Nat
  startCode : Nat
  endCode : Nat
  startData : Nat
  endData : Nat
  bss : Nat
  brk : Nat
  p : Nat
  mallocP : Nat
  pid : BitVec 32

def sizeofBinprm : Nat := 688

def Binprm.ofBytes (xs : List Byte) : Binprm where
  filename := word64 xs 128
  filenameSize := word64 xs 136
  file := word64 xs 144
  fileSize := word64 xs 152
  argc := word32 xs 160
  envc := word32 xs 164
  binprmInfo := word64 xs 184
  eEntry := word64 xs 192
  startCode := word64 xs 200
  endCode := word64 xs 208
  startData := word64 xs 216
  endData := word64 xs 224
  bss := word64 xs 264
  brk := word64 xs 272
  p := word64 xs 648
  mallocP := word64 xs 656
  pid := word32 xs 680

/-- `struct mmap_binprm_info`; `prot` is an `int` and becomes an `unsigned long`. -/
structure BinprmInfo where
  vaddr : Nat
  size : Nat
  off : Nat
  prot : BitVec 64
  next : Nat
  deriving DecidableEq

def sizeofBinprmInfo : Nat := 40

def BinprmInfo.ofBytes (xs : List Byte) : BinprmInfo where
  vaddr := word64 xs 0
  size := word64 xs 8
  off := word64 xs 16
  prot := (word32 xs 24).signExtend 64
  next := word64 xs 32

def readInfo (read : Reader) (addr : Nat) : Option BinprmInfo :=
  (read.read addr sizeofBinprmInfo).map BinprmInfo.ofBytes

/-! ## Tasks -/

structure PtRegs where
  regs : Nat → BitVec 64
  sp : Nat
  pc : Nat
  pstate : BitVec 64
  origX0 : BitVec 64
  syscallno : Int

def noSyscall : Int := -1

def PtRegs.inSyscall (r : PtRegs) : Bool := r.syscallno ≠ noSyscall

/-- `PSR_MODE_EL0t | PSR_SSBS_BIT`. -/
def userPstate : BitVec 64 := 0x1000

def startThread (pc sp : Nat) : PtRegs where
  regs _ := 0
  sp := sp
  pc := pc
  pstate := userPstate
  origX0 := 0
  syscallno := noSyscall

def pfSystemservice : BitVec 32 := 2

structure Task where
  /-- `none` for `init_mm`. -/
  mm : Option MmId
  flags : BitVec 32
  comm : List Byte
  regs : PtRegs

def Task.isService (t : Task) : Bool := t.flags &&& pfSystemservice ≠ 0

/-- The memory, the `mm_struct`s, and the tasks by their pid. -/
structure Kernel where
  mem : Mem
  mm : MmId → Option MmStruct
  task : BitVec 32 → Option Task

/-! ## The call -/

/-- What the call allocates by `kmalloc` and frees by itself. -/
inductive Buf
  | bprm
  | filename
  | file
  | mm
  | tmpBuf
  deriving DecidableEq

/-- An access of the call to a buffer. -/
inductive Access
  /-- A segment is given to `mmap_get_vmap_area`. -/
  | range (vaddr size : Nat)
  /-- A page is copied from an offset of `file`, for a VMA with the flags `prot`. -/
  | fileCopy (off fileSize : Nat) (prot : BitVec 64)
  /-- A word of `tmp_buf` is read or written. -/
  | word (off len : Nat)
  /-- The strings are copied from an offset of `tmp_buf` to the start of a page. -/
  | strings (off size len : Nat)
  deriving DecidableEq

/-- The access stays in the buffer it reads and in the pages that are its destination. -/
def Access.Ok : Access → Prop
  | .range vaddr size => vaddr + size ≤ userDs
  | .fileCopy off fileSize prot => off + pageSize ≤ fileSize ∧ prot &&& vmPrivateShare = 0
  | .word off len => off + 8 ≤ len
  | .strings off size len => off + size ≤ len ∧ size ≤ pageSize

/-- What the call writes to the `mm_struct` that the task still has. -/
structure Args where
  argStart : Nat
  argEnd : Nat
  envStart : Nat
  envEnd : Nat

/-- The state of the call from `mmap_alloc_mm_struct` on: the memory with the new `mm_struct`,
and what is allocated. -/
structure Exec where
  space : Space
  bufs : List Buf
  log : List Access
  args : Option Args

inductive Exit
  | freeTmpBuf (retval : Int)
  | freeMm (retval : Int)
  | freeFilename (retval : Int)
  deriving DecidableEq

/-- A part of the call goes on with a result or leaves by a label. -/
abbrev Part (α : Type) := Option (Except Exit α × Exec)

def Part.andThen {α β : Type} (x : Part α) (f : α → Exec → Part β) : Part β :=
  match x with
  | none => none
  | some (.error l, e) => some (.error l, e)
  | some (.ok a, e) => f a e

def Exec.logs (e : Exec) (l : List Access) : Exec := { e with log := e.log ++ l }

/-- A buffer of the call with whatever lies behind it. -/
def bufByte (xs : List Byte) (outside : Nat → Byte) (k : Nat) : Byte := xs[k]?.getD (outside k)

def copyPages (file : Nat → Byte) : List (Option Page) → Nat → Data → Data
  | [], _, d => d
  | none :: ps, off, d => copyPages file ps (off + pageSize) d
  | some p :: ps, off, d =>
    copyPages file ps (off + pageSize) (update d p fun j => file (u64 (off + j)))

/-- The accesses for a segment that has got its VMA. -/
def BinprmInfo.log (r : BinprmInfo) (fileSize : Nat) : List Access :=
  .range r.vaddr r.size :: (List.range (r.size / pageSize % 2 ^ 32)).map fun i =>
    .fileCopy (u64 (r.off + i * pageSize)) fileSize r.prot

def BinprmInfo.map (b : Board) (file : Nat → Byte) (r : BinprmInfo) (s : Space) :
    Option (Mapping × Space) :=
  s.mapArea b r.vaddr r.size r.prot 0 fun v d => copyPages file v.pages r.off d

/-- The loop over the list at `next`. -/
def loadSegments (b : Board) (read : Reader) (file : Nat → Byte) (fileSize : Nat) :
    Nat → Nat → Exec → Part Unit
  | 0, _, _ => none
  | turns + 1, next, e =>
    if next = 0 then some (.ok (), e)
    else
      match readInfo read next with
      | none => some (.error (.freeFilename (-einval)), e)
      | some r =>
        if userDs < u64 (r.vaddr + r.size) then some (.error (.freeFilename (-eacces)), e)
        else
          match r.map b file e.space with
          | none => none
          | some (.noVma, space) =>
            some (.error (.freeMm (-einval)), { e with space }.logs [.range r.vaddr r.size])
          | some (.noMap, space) =>
            some (.error (.freeMm (-enomem)), { e with space }.logs (r.log fileSize))
          | some (.mapped _, space) =>
            loadSegments b read file fileSize turns r.next ({ e with space }.logs (r.log fileSize))

/-- `TASK_SIZE - bprm->p`. -/
def Binprm.len (bprm : Binprm) : Nat := sub64 taskSize bprm.p

def Binprm.stackSize (bprm : Binprm) : Nat :=
  if pageSize < bprm.len then u64 (threadSize + pageAlign bprm.len) else threadSize

def stackFlags : BitVec 64 := vmRead ||| vmWrite ||| vmUserStack

def setMmapBase (s : Space) (base : Nat) : Space := { s with mm := { s.mm with mmapBase := base } }

/-- An area of zeros, with the label for its errors. -/
def Exec.mapZeros (b : Board) (vstart size : Nat) (flags : BitVec 64) (exit : Int → Exit)
    (e : Exec) : Part Vma :=
  match e.space.mapArea b vstart size flags 0 fun _ d => d with
  | none => none
  | some (.noVma, space) => some (.error (exit (-einval)), { e with space })
  | some (.noMap, space) => some (.error (exit (-enomem)), { e with space })
  | some (.mapped v, space) => some (.ok v, { e with space })

def mapStack (b : Board) (bprm : Binprm) (e : Exec) : Part Vma :=
  let base := sub64 taskSize bprm.stackSize
  let space := { e.space with mm := { e.space.mm with mmapBase := base, mmapEnd := base } }
  { e with space }.mapZeros b base bprm.stackSize stackFlags .freeMm

/-- The argument block is read into `tmp_buf`. -/
def readBlock (read : Reader) (bprm : Binprm) (e : Exec) : Part (List Byte) :=
  match e.space.mem.kmallocSize bprm.len with
  | (false, mem) => some (.error (.freeMm (-enomem)), { e with space := { e.space with mem } })
  | (true, mem) =>
    let e := { e with space := { e.space with mem }, bufs := .tmpBuf :: e.bufs }
    match read.read bprm.mallocP bprm.len with
    | none => some (.error (.freeTmpBuf (-einval)), e)
    | some block => some (.ok block, e)

def mapStrings (b : Board) (e : Exec) : Part Vma :=
  let base := sub64 e.space.mm.mmapBase pageSize
  { e with space := setMmapBase e.space base }.mapZeros b base pageSize heapFlags .freeTmpBuf

/-- `memcpy(page_to_virt(page), tmp_buf + off, size)`. -/
def copyStrings (block : Nat → Byte) (page : Page) (off size : Nat) (d : Data) : Data := fun q j =>
  if page ≤ q ∧ (q - page) * pageSize + j < size then
    block (u64 (off + (q - page) * pageSize + j))
  else d q j

/-! ## The pointers in the argument block -/

/-- `*(u64 *)(tmp_buf + off)`. -/
def wordAt (block : List Byte) (outside : Nat → Byte) (off : Nat) : Nat :=
  leNat ((List.range 8).map fun j => bufByte block outside (off + j))

def setWord (block : List Byte) (off w : Nat) : List Byte :=
  block.mapIdx fun k x => if off ≤ k ∧ k < off + 8 then BitVec.ofNat 8 (w / 256 ^ (k - off)) else x

/-- The words at `offs` point to the page at `base` instead of `argv0`. -/
def relocate (outside : Nat → Byte) (argv0 base : Nat) : List Nat → List Byte → List Byte
  | [], block => block
  | off :: offs, block => relocate outside argv0 base offs
      (setWord block off (u64 (base + sub64 (wordAt block outside off) argv0)))

/-- The offset of word `i`. -/
def wordOff (i : Nat) : Nat := 8 + 8 * i

/-- `i` after the first loop, over `i < bprm->argc + 1`. -/
def Binprm.argTurns (bprm : Binprm) : Nat := (bprm.argc + 1).toInt.toNat

/-- `i` after the second loop, over `i < bprm->envc` with `envc` increased by `i`. -/
def Binprm.envTurns (bprm : Binprm) : Nat :=
  max (bprm.argTurns + 1) (bprm.envc + BitVec.ofNat 32 (bprm.argTurns + 1)).toInt.toNat

def Binprm.argOffs (bprm : Binprm) : List Nat := (List.range bprm.argTurns).map wordOff

def Binprm.envOffs (bprm : Binprm) : List Nat :=
  (List.range' (bprm.argTurns + 1) (bprm.envTurns - (bprm.argTurns + 1))).map wordOff

/-- The accesses to `tmp_buf` from the string page on. -/
def Binprm.blockLog (bprm : Binprm) (argv0 : Nat) : List Access :=
  [.word 8 bprm.len, .strings (sub64 argv0 bprm.p) (sub64 taskSize argv0) bprm.len] ++
    bprm.argOffs.map (.word · bprm.len) ++
    [.word (8 * bprm.argTurns) bprm.len, .word (wordOff (bprm.argTurns + 1)) bprm.len] ++
    bprm.envOffs.map (.word · bprm.len) ++ [.word (8 * bprm.envTurns) bprm.len]

/-- The strings go to the page of `v` and the pointers to them are changed. -/
def moveStrings (outside : Nat → Byte) (bprm : Binprm) (block : List Byte) (v : Vma) (e : Exec) :
    List Byte × Exec :=
  let argv0 := wordAt block outside 8
  let base := e.space.mm.mmapBase
  let data := match v.page 0 with
    | none => e.space.mem.data
    | some page => copyStrings (bufByte block outside) page (sub64 argv0 bprm.p)
        (sub64 taskSize argv0) e.space.mem.data
  let block₁ := relocate outside argv0 base bprm.argOffs block
  let block₂ := relocate outside argv0 base bprm.envOffs block₁
  let at₁ off := sub64 (u64 (base + wordAt block₁ outside off)) argv0
  (block₂, { e.logs (bprm.blockLog argv0) with
    space := e.space.setData data
    args := some {
      argStart := base
      argEnd := at₁ (8 * bprm.argTurns)
      envStart := at₁ (wordOff (bprm.argTurns + 1))
      envEnd := sub64 (u64 (base + wordAt block₂ outside (8 * bprm.envTurns))) argv0 } })

def copyStack (bprm : Binprm) (block : List Byte) (e : Exec) : Part Unit :=
  let r := mmapMemcpyToVma e.space.mm.vmas bprm.p block e.space.mem.data
  let e := { e with space := e.space.setData r.2 }
  if r.1 ≠ bprm.len then some (.error (.freeTmpBuf (-einval)), e) else some (.ok (), e)

/-- More turns than there are pages for the VMAs, which do not overlap. -/
def maxSegments : Nat := 2 ^ 36 + 1

/-- From `mmap_alloc_mm_struct` to the last check. -/
def buildImage (b : Board) (outside : Nat → Byte) (read : Reader) (bprm : Binprm)
    (file : List Byte) (e : Exec) : Part Unit :=
  (loadSegments b read (bufByte file outside) bprm.fileSize maxSegments
      bprm.binprmInfo e).andThen fun _ e =>
  (mapStack b bprm e).andThen fun _ e =>
  (readBlock read bprm e).andThen fun block e =>
  (mapStrings b e).andThen fun v e =>
    let r := moveStrings outside bprm block v e
    copyStack bprm r.1 r.2

/-! ## The way out -/

/-- The result of the call, with the buffers that it leaves allocated. -/
structure Done where
  retval : Int
  kernel : Kernel
  bufs : List Buf
  log : List Access

/-- `kfree`. `none` is a second `kfree` of the same buffer. -/
def kfree (x : Buf) (bufs : List Buf) : Option (List Buf) :=
  if x ∈ bufs then some (bufs.erase x) else none

/-- The label `free_bprm`. -/
def freeBprm (bufs : List Buf) : Option (List Buf) := kfree .bprm bufs

/-- The label `free_filename`. -/
def freeFilename (bufs : List Buf) : Option (List Buf) := (kfree .filename bufs).bind freeBprm

/-- The label `free_file`. -/
def freeFile (bufs : List Buf) : Option (List Buf) := (kfree .file bufs).bind freeFilename

/-- `mmap_destroy_mm` and `mmap_free_mm_struct`. -/
def destroySpace (s : Space) : Option Mem := s.mmapDestroyMm.bind Space.mmapFreeMmStruct

def Args.write (args : Args) (mm : MmStruct) : MmStruct :=
  { mm with
    argStart := args.argStart
    argEnd := args.argEnd
    envStart := args.envStart
    envEnd := args.envEnd }

/-- The `mm_struct` of the task, after what the call has written to it. -/
def Exec.oldMm (e : Exec) (mm : MmStruct) : MmStruct := e.args.elim mm (·.write mm)

/-- The label `free_mm` for an error. -/
def failMm (k : Kernel) (old : MmId) (oldMm : MmStruct) (retval : Int) (e : Exec) : Option Done :=
  (destroySpace e.space).bind fun mem =>
    (kfree .mm e.bufs).bind fun bufs =>
      (freeFile bufs).map fun bufs =>
        ⟨retval, { k with mem, mm := update k.mm old (some (e.oldMm oldMm)) }, bufs, e.log⟩

/-- The labels for an error. From `free_filename` on the new `mm_struct` `i` stays. -/
def fail (k : Kernel) (old i : MmId) (oldMm : MmStruct) (e : Exec) : Exit → Option Done
  | .freeTmpBuf retval =>
    (kfree .tmpBuf e.bufs).bind fun bufs => failMm k old oldMm retval { e with bufs }
  | .freeMm retval => failMm k old oldMm retval e
  | .freeFilename retval =>
    (freeFilename e.bufs).map fun bufs =>
      ⟨retval, { k with mem := e.space.mem, mm := update k.mm i (some e.space.mm) },
        bufs, e.log⟩

/-- `strrchr(filename, '/')` and `strlcpy` to `comm`. -/
def commOf (filename : List Byte) : List Byte :=
  let name := filename.takeWhile (· ≠ 0)
  let base := (name.reverse.takeWhile (· ≠ 0x2f)).reverse
  let comm := base.take 15
  comm ++ List.replicate (16 - comm.length) 0

/-- The fields that the call sets in the new `mm_struct`. -/
def Binprm.setMm (bprm : Binprm) (mm : MmStruct) : MmStruct :=
  { mm with
    startCode := bprm.startCode
    endCode := bprm.endCode
    startData := bprm.startData
    endData := bprm.endData
    elfBrk := bprm.brk
    elfBss := bprm.bss
    startBrk := pageAlign bprm.brk
    brk := pageAlign bprm.brk
    startStack := taskSize }

/-- The end of a call that succeeds: the task has the new `mm_struct` `i` and the old one is
freed. -/
def succeed (k : Kernel) (old i : MmId) (oldMm : MmStruct) (tsk : Task) (bprm : Binprm)
    (filename : List Byte) (e : Exec) : Option Done :=
  (kfree .tmpBuf e.bufs).bind fun bufs =>
    (destroySpace ⟨e.space.mem, e.oldMm oldMm⟩).bind fun mem =>
      (freeFile bufs).map fun bufs =>
        let mm := update (update k.mm i (some (bprm.setMm e.space.mm))) old none
        let tsk := { tsk with
          mm := some i, comm := commOf filename, regs := startThread bprm.eEntry bprm.p }
        ⟨0, { mem, mm, task := update k.task bprm.pid (some tsk) }, bufs, e.log⟩

/-- The call leaves before there is a new `mm_struct`. -/
def leave (k : Kernel) (mem : Mem) (retval : Int) (bufs : Option (List Buf)) : Option Done :=
  bufs.map fun bufs => ⟨retval, { k with mem }, bufs, []⟩

/-- From the buffers on, for the task `tsk` with the `mm_struct` `old`. -/
def execTask (b : Board) (outside : Nat → Byte) (read : Reader) (bprm : Binprm) (i old : MmId)
    (oldMm : MmStruct) (tsk : Task) (k : Kernel) : Option Done :=
  match k.mem.kmallocSize bprm.filenameSize with
  | (false, mem) => leave k mem (-enomem) (freeBprm [.bprm])
  | (true, mem) =>
    match read.read bprm.filename bprm.filenameSize with
    | none => leave k mem (-einval) (freeFilename [.filename, .bprm])
    | some filename =>
      match mem.kmallocSize bprm.fileSize with
      | (false, mem) => leave k mem (-enomem) (freeFilename [.filename, .bprm])
      | (true, mem) =>
        match read.read bprm.file bprm.fileSize with
        | none => leave k mem (-einval) (freeFile [.file, .filename, .bprm])
        | some file =>
          match mmapAllocMmStruct mem with
          | (none, mem) => leave k mem (-enomem) (freeFile [.file, .filename, .bprm])
          | (some mm, mem) =>
            match buildImage b outside read bprm file
                ⟨⟨mem, mm⟩, [.mm, .file, .filename, .bprm], [], none⟩ with
            | none => none
            | some (.error l, e) => fail k old i oldMm e l
            | some (.ok (), e) => succeed k old i oldMm tsk bprm filename e

/-- `system_exec` for the `minix_rt_binprm` at `addr`; `i` is the address of the new
`mm_struct`. -/
def systemExec (b : Board) (outside : Nat → Byte) (read : Reader) (addr : Nat) (i : MmId)
    (k : Kernel) : Option Done :=
  match k.mem.kmallocSize sizeofBinprm with
  | (false, mem) => leave k mem (-enomem) (some [])
  | (true, mem) =>
    match (read.read addr sizeofBinprm).map Binprm.ofBytes with
    | none => leave k mem (-einval) (freeBprm [.bprm])
    | some bprm =>
      match k.task bprm.pid with
      | none => leave k mem (-esrch) (freeBprm [.bprm])
      | some tsk =>
        match tsk.mm with
        | none => leave k mem (-eio) (freeBprm [.bprm])
        | some old =>
          if tsk.regs.inSyscall = false ∨ tsk.isService then leave k mem (-eio) (freeBprm [.bprm])
          else (k.mm old).bind fun oldMm =>
            execTask b outside read bprm i old oldMm tsk { k with mem }

end MinixRt.System
