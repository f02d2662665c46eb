import MinixRt.System.Fork

/-!
# The loaders of ELF files

`service_core_init` loads the drivers, the servers and `init` from the archive in the kernel.
`load_elf_binary` of the VFS reads a file and makes a list of segments for `system_exec`. Both
read the same headers, check the same of each segment and compute the same fields. The segments
are rounded to pages, and their content is copied in whole pages.

`file` is the memory from the first byte of the file on. Nothing checks that what is read of it
belongs to the file.
-/

namespace MinixRt.System

open Lib Mm

/-! ## Headers -/

/-- A field of `n` bytes. -/
def fieldAt (file : Nat → Byte) (off n : Nat) : Nat :=
  leNat ((List.range n).map fun j => file (u64 (off + j)))

structure Phdr where
  type : Nat
  flags : Nat
  offset : Nat
  vaddr : Nat
  filesz : Nat
  memsz : Nat
  deriving DecidableEq

def sizeofPhdr : Nat := 56

def Phdr.ofFile (file : Nat → Byte) (pos : Nat) : Phdr where
  type := fieldAt file pos 4
  flags := fieldAt file (pos + 4) 4
  offset := fieldAt file (pos + 8) 8
  vaddr := fieldAt file (pos + 16) 8
  filesz := fieldAt file (pos + 32) 8
  memsz := fieldAt file (pos + 40) 8

/-- `struct elf64_hdr`. -/
structure ElfHdr where
  magic : Nat
  type : Nat
  machine : Nat
  entry : Nat
  phoff : Nat
  phentsize : Nat
  phnum : Nat

def ElfHdr.ofFile (file : Nat → Byte) : ElfHdr where
  magic := fieldAt file 0 4
  type := fieldAt file 16 2
  machine := fieldAt file 18 2
  entry := fieldAt file 24 8
  phoff := fieldAt file 32 8
  phentsize := fieldAt file 54 2
  phnum := fieldAt file 56 2

/-- The first checks and those of `load_elf_phdrs`. -/
def ElfHdr.ok (h : ElfHdr) : Bool :=
  -- `ELFMAG`, `ET_EXEC` and `EM_AARCH64`
  h.magic = 0x464c457f ∧ h.type = 2 ∧ h.machine = 183 ∧ h.phentsize = sizeofPhdr ∧
    1 ≤ h.phnum ∧ h.phnum ≤ 65536 / sizeofPhdr ∧ sizeofPhdr * h.phnum ≤ pageSize

def elfPhdrs (file : Nat → Byte) : List Phdr :=
  let h := ElfHdr.ofFile file
  (List.range h.phnum).map fun i => Phdr.ofFile file (h.phoff + i * sizeofPhdr)

/-- `PT_LOAD`. -/
def Phdr.isLoad (ph : Phdr) : Bool := ph.type = 1

def elfLoads (file : Nat → Byte) : List Phdr := (elfPhdrs file).filter Phdr.isLoad

/-! ## Segments -/

/-- Whether the bit `i` of `p_flags` is set. -/
def Phdr.flag (ph : Phdr) (i : Nat) : Bool := ph.flags.testBit i

/-- `elf_prot`, from `PF_R`, `PF_W` and `PF_X`. -/
def Phdr.prot (ph : Phdr) : BitVec 64 :=
  (if ph.flag 2 then vmRead else 0) ||| (if ph.flag 1 then vmWrite else 0) |||
    (if ph.flag 0 then vmExec else 0)

/-- What `elf_map` makes of the segment. -/
def Phdr.info (ph : Phdr) (next : Nat) : BinprmInfo where
  vaddr := pageAlignDown ph.vaddr
  size := pageAlign (u64 (ph.memsz + ph.vaddr % pageSize))
  off := sub64 ph.offset (ph.vaddr % pageSize)
  prot := ph.prot
  next

def Phdr.bad (ph : Phdr) : Bool :=
  badAddr ph.vaddr || ph.memsz < ph.filesz || taskSize < ph.memsz || taskSize - ph.memsz < ph.vaddr

structure Layout where
  startCode : Nat
  endCode : Nat
  startData : Nat
  endData : Nat
  elfBss : Nat
  elfBrk : Nat

def Layout.start : Layout := ⟨2 ^ 64 - 1, 0, 0, 0, 0, 0⟩

def Layout.add (l : Layout) (ph : Phdr) : Layout :=
  let fileEnd := u64 (ph.vaddr + ph.filesz)
  let memEnd := u64 (ph.vaddr + ph.memsz)
  { startCode := if ph.vaddr < l.startCode then ph.vaddr else l.startCode
    endCode := if ph.flag 0 ∧ l.endCode < fileEnd then fileEnd else l.endCode
    startData := if l.startData < ph.vaddr then ph.vaddr else l.startData
    endData := if l.endData < fileEnd then fileEnd else l.endData
    elfBss := if l.elfBss < fileEnd then fileEnd else l.elfBss
    elfBrk := if l.elfBrk < memEnd then memEnd else l.elfBrk }

/-! ## Services -/

/-- `stack_base`. -/
def serviceStackBase : Nat := pageAlign (sub64 (pageAlign taskSize) threadSize)

/-- `setup_services_stack`; `none` is its error. -/
def setupServicesStack (b : Board) (s : Space) : Option Space :=
  match s.mapArea b serviceStackBase threadSize stackFlags 0 fun _ d => d with
  | some (.mapped _, s) => some s
  | _ => none

/-- `elf_map`; `none` is its error or a failed `BUG_ON`. -/
def elfMap (b : Board) (file : Nat → Byte) (ph : Phdr) (s : Space) : Option Space :=
  let r := ph.info 0
  if r.size = 0 then none
  else
    match r.map b file s with
    | some (.mapped v, s) => if v.nrPages ≠ r.size / pageSize then none else some s
    | _ => none

def loadService (b : Board) (file : Nat → Byte) (x : Layout × Space) (ph : Phdr) :
    Option (Layout × Space) :=
  if ph.isLoad = false then some x
  else if x.1.elfBss < x.1.elfBrk then none
  else
    (elfMap b file ph x.2).bind fun s =>
      if ph.bad then none else some (x.1.add ph, s)

inductive ServiceType
  | drivers
  | servers
  | init
  deriving DecidableEq

def ServiceType.flags : ServiceType → BitVec 64
  | .drivers | .servers => 2
  | .init => 0

/-- The fields that `service_core_init` sets. -/
def Layout.setMm (l : Layout) (mm : MmStruct) : MmStruct :=
  { mm with
    startCode := l.startCode
    endCode := l.endCode
    startData := l.startData
    endData := l.endData
    elfBss := l.elfBss
    elfBrk := l.elfBrk
    startStack := pageAlign taskSize
    startBrk := pageAlign l.elfBrk
    brk := pageAlign l.elfBrk
    mmapBase := serviceStackBase
    mmapEnd := serviceStackBase }

/-- The address space that `service_core_init` makes. Every error is a panic. -/
def serviceCoreInit (b : Board) (type : ServiceType) (file : Nat → Byte) (initMm : MmStruct)
    (m : Mem) : Option Space :=
  if (ElfHdr.ofFile file).ok = false then none
  else
    match taskCreateMm type.flags initMm m with
    | (none, _) => none
    | (some mm, m) =>
      match m.kmallocSize threadSize with
      | (false, _) => none
      | (true, m) =>
        (setupServicesStack b ⟨m, mm⟩).bind fun s =>
          ((elfPhdrs file).foldlM (loadService b file) (.start, s)).bind fun x =>
            if badAddr (ElfHdr.ofFile file).entry then none
            else some { x.2 with mm := x.1.setMm x.2.mm }

/-! ## The VFS -/

/-- The records of the VFS by their address, with the addresses that `malloc` will return. -/
structure Vfs where
  binprmInfo : Nat
  record : Nat → Option BinprmInfo
  mallocs : List Nat

def Vfs.malloc (v : Vfs) : Option (Nat × Vfs) :=
  match v.mallocs with
  | [] => none
  | a :: rest =>
    if a = 0 ∨ (v.record a).isSome then none else some (a, { v with mallocs := rest })

/-- `elf_map` of the VFS. -/
def vfsElfMap (ph : Phdr) (v : Vfs) : Option Vfs :=
  if (ph.info v.binprmInfo).size = 0 then none
  else
    v.malloc.map fun r =>
      { r.2 with
        binprmInfo := r.1
        record := Function.update v.record r.1 (some (ph.info v.binprmInfo)) }

/-- A turn of the loop. When `elf_brk` is above `elf_bss` a line is printed. -/
def loadVfs (x : Layout × Vfs) (ph : Phdr) : Option (Layout × Vfs) :=
  if ph.isLoad = false then some x
  else
    (vfsElfMap ph x.2).bind fun v =>
      if ph.bad then none else some (x.1.add ph, v)

/-- `load_elf_binary` up to `create_elf_tables`, with no record before; `none` is an error. The
other two blocks are for the headers. -/
def loadElfBinary (file : Nat → Byte) (mallocs : List Nat) : Option (Layout × Vfs) :=
  (Vfs.malloc ⟨0, fun _ => none, mallocs⟩).bind fun r =>
    if (ElfHdr.ofFile file).ok = false then none
    else
      r.2.malloc.bind fun r =>
        ((elfPhdrs file).foldlM loadVfs (.start, r.2)).bind fun x =>
          if badAddr (ElfHdr.ofFile file).entry then none else some x

/-- The memory of the VFS when it calls `execve`. -/
structure Binprm.Loaded (bprm : Binprm) (read : Reader) (file : Nat → Byte) (x : Layout × Vfs) :
    Prop where
  info : bprm.binprmInfo = x.2.binprmInfo
  record : ∀ a r, x.2.record a = some r → readInfo read a = some r
  entry : bprm.eEntry = (ElfHdr.ofFile file).entry
  startCode : bprm.startCode = x.1.startCode
  endCode : bprm.endCode = x.1.endCode
  startData : bprm.startData = x.1.startData
  endData : bprm.endData = x.1.endData
  bss : bprm.bss = x.1.elfBss
  brk : bprm.brk = x.1.elfBrk

end MinixRt.System
