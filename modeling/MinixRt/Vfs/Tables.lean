import MinixRt.Lib.Cursor
import MinixRt.System.Exec

/-!
# The first stack of a program

`create_elf_tables` computes the addresses of the strings from the top of the address space down,
and then writes a block from its bottom up: the count, the pointers, the auxiliary vector, the
strings. The block goes to the addresses `[p, task_size)` of the program.

`ELF_BASE_PLATFORM` is `NULL` on this architecture, so that nothing is written for it.
-/

namespace MinixRt.Vfs

open Lib Mm MinixRt.System

structure CStr where
  bytes : List Byte
  noNul : 0 ∉ bytes
  short : bytes.length + 8 < 2 ^ 64

def CStr.data (s : CStr) : List Byte := s.bytes ++ [0]

/-- `ALIGN(strlen(s) + 1, sizeof (void *))`. -/
def CStr.room (s : CStr) : Nat := (s.bytes.length + 1 + 7) / 8 * 8

/-- The strings of a `minix_rt_binprm`. -/
structure Strings where
  filename : CStr
  argvs : List CStr
  envps : List CStr
  /-- `items` is an `int`. -/
  items_lt : argvs.length + 1 + (envps.length + 1) + 1 + 1 < 2 ^ 31

def Strings.items (x : Strings) : Nat := x.argvs.length + 1 + (x.envps.length + 1) + 1 + 1

def Strings.size (x : Strings) : Nat :=
  x.filename.data.length + (x.argvs.map (·.data.length)).sum + (x.envps.map (·.data.length)).sum

/-- What the kernel and the random numbers give for the auxiliary vector. -/
structure Arch where
  platform : CStr
  random : Fin 16 → Byte
  /-- `get_arch_auxvec_cnt` -/
  cnt : BitVec 64
  /-- `get_arch_auxvec`, with its error -/
  auxvec : Nat → Except Int (BitVec 64 × BitVec 64)
  hwcap : BitVec 64

def elfPlatform : CStr := ⟨[0x61, 0x61, 0x72, 0x63, 0x68, 0x36, 0x34], by decide, by decide⟩

/-- `cnt` as an `int`. -/
def Arch.turns (arch : Arch) : Nat := (arch.cnt.setWidth 32).toInt.toNat

/-! ## The addresses -/

/-- A loop from the last string to the first: `top` and the address of the first string. -/
def stackStrings (ss : List CStr) (top : Nat) : Nat × Nat :=
  ss.foldr (fun s x => (sub64 x.1 s.room, sub64 x.1 s.room)) (top, 0)

structure StackTop where
  uPlatform : Nat
  uRandBytes : Nat
  envEnd : Nat
  envStart : Nat
  argEnd : Nat
  argStart : Nat

def stackTop (platform : CStr) (x : Strings) (taskSize : Nat) : StackTop :=
  let uPlatform := sub64 taskSize (platform.bytes.length + 1)
  let uRandBytes := sub64 uPlatform 16
  let envEnd := sub64 uRandBytes 8
  let env := stackStrings x.envps envEnd
  let arg := stackStrings x.argvs env.1
  { uPlatform, uRandBytes, envEnd
    envStart := env.2
    argEnd := env.1
    argStart := sub64 arg.1 x.filename.room }

/-! ## The auxiliary vector -/

def atVectorSize : Nat := 2 * (2 + 20 + 1)

def atPhent : Nat := 4
def atPagesz : Nat := 6
def atFlags : Nat := 8
def atPlatform : Nat := 15
def atHwcap : Nat := 16
def atClktck : Nat := 17
def atRandom : Nat := 25

/-- `saved_auxv` with `ei_index` and the index and number of the words of each write. -/
structure Auxv where
  words : Nat → Nat
  index : Nat
  writes : List (Nat × Nat)

/-- `NEW_AUX_ENT`, and what `get_arch_auxvec` writes. -/
def Auxv.newAuxEnt (v : Auxv) (id val : Nat) : Auxv where
  words := Function.update (Function.update v.words v.index id) (v.index + 1) val
  index := v.index + 2
  writes := v.writes ++ [(v.index, 2)]

/-- The loop over the entries of the architecture. -/
def Auxv.archEntries (arch : Arch) : (turns : Nat) → (i : Nat) → Auxv → Except Int Auxv
  | 0, _, v => .ok v
  | turns + 1, i, v =>
    match arch.auxvec i with
    | .error ret => .error ret
    | .ok e => Auxv.archEntries arch turns (i + 1) (v.newAuxEnt e.1.toNat e.2.toNat)

/-- The `memset` of the rest of `saved_auxv`. -/
def Auxv.clear (v : Auxv) : Auxv :=
  let n := sub64 (8 * atVectorSize) (8 * v.index) / 8
  { v with
    words := fun i => if v.index ≤ i ∧ i < v.index + n then 0 else v.words i
    writes := v.writes ++ [(v.index, n)] }

/-- The entries that do not come from the architecture. -/
def ownEntries (arch : Arch) (t : StackTop) : List (Nat × Nat) :=
  [(atHwcap, arch.hwcap.toNat), (atPagesz, pageSize), (atClktck, 100), (atPhent, 56), (atFlags, 0),
    (atRandom, t.uRandBytes), (atPlatform, t.uPlatform)]

def createAuxv (arch : Arch) (t : StackTop) (savedAuxv : Nat → Nat) : Except Int Auxv :=
  match Auxv.archEntries arch arch.turns 0 ⟨savedAuxv, 0, []⟩ with
  | .error ret => .error ret
  | .ok v =>
    let v := ((ownEntries arch t).foldl (fun v e => v.newAuxEnt e.1 e.2) v).clear
    .ok { v with index := v.index + 2 }

/-! ## The block -/

/-- `*addr++ = v`. -/
def wordPiece (v : Nat) : Piece := ⟨leBytes 8 v, 8, (length_leBytes 8 v).le⟩

/-- `memcpy(addr, s, strlen(s) + 1)` and the step of `addr`. -/
def CStr.piece (s : CStr) : Piece where
  bytes := s.data
  size := s.room
  fits := by
    unfold CStr.data CStr.room
    rw [List.length_append, List.length_singleton]
    omega

/-- `memcpy(addr, elf_info, ei_index * sizeof (elf_addr_t))` and the step of `addr`. -/
def Auxv.piece (v : Auxv) : Piece :=
  let bytes := ((List.range v.index).map v.words).flatMap (leBytes 8)
  ⟨bytes, bytes.length, le_rfl⟩

def randPiece (random : Fin 16 → Byte) : Piece := ⟨List.ofFn random, 16, (List.length_ofFn).le⟩

/-- A loop that writes the pointers to strings that follow each other. -/
def putPointers (ss : List CStr) (u : Nat) (c : Cursor) : Cursor :=
  (ss.foldl (fun x s => (u64 (x.1 + s.room), x.2.put (wordPiece x.1))) (u, c)).2

def putStrings (ss : List CStr) (c : Cursor) : Cursor := ss.foldl (fun c s => c.put s.piece) c

def writeBlock (arch : Arch) (x : Strings) (t : StackTop) (v : Auxv) (c : Cursor) : Cursor :=
  let c := c.put (wordPiece (x.argvs.length + 1))
  let c := c.put (wordPiece t.argStart)
  let c := putPointers x.argvs (u64 (t.argStart + x.filename.room)) c
  let c := c.put (wordPiece 0)
  let c := putPointers x.envps t.envStart c
  let c := c.put (wordPiece 0)
  let c := c.put v.piece
  let c := c.put x.filename.piece
  let c := putStrings x.argvs c
  let c := putStrings x.envps c
  let c := c.put (wordPiece 0)
  let c := c.put (randPiece arch.random)
  c.put arch.platform.piece

/-- What `create_elf_tables` leaves: the fields of the `minix_rt_binprm`, and the block with its
size and its writes. -/
structure Tables where
  top : StackTop
  auxv : Auxv
  p : Nat
  mallocP : Nat
  size : Nat
  block : Cursor

/-- `create_elf_tables`, with the address that `malloc` returns for a size. -/
def createElfTables (arch : Arch) (x : Strings) (malloc : Nat → Option Nat) (mem : Store)
    (savedAuxv : Nat → Nat) (taskSize : Nat) : Except Int Tables :=
  let t := stackTop arch.platform x taskSize
  match createAuxv arch t savedAuxv with
  | .error ret => .error ret
  | .ok v =>
    let p := sub64 (sub64 t.argStart (8 * v.index)) (8 * x.items)
    match malloc (sub64 taskSize p) with
    | none => .error (-enomem)
    | some addr => .ok ⟨t, v, p, addr, sub64 taskSize p, writeBlock arch x t v ⟨addr, mem, []⟩⟩

/-- The block as the memory at `[p, task_size)`. -/
def Tables.memory (t : Tables) (taskSize a : Nat) : Option Byte :=
  if t.p ≤ a ∧ a < taskSize then some (t.block.mem (t.mallocP + (a - t.p))) else none

/-! ## What a program finds -/

/-- A pointer at `a` to a copy of `s`. -/
def PointsTo (m : Nat → Option Byte) (a : Nat) (s : CStr) : Prop :=
  ∃ u < 2 ^ 64, Holds m a (leBytes 8 u) ∧ Holds m u s.data

/-- The stack pointer `p` shows a program its arguments, its environment and the words of its
auxiliary vector. -/
structure Image (m : Nat → Option Byte) (p : Nat) (args envs : List CStr) (aux : List Nat) :
    Prop where
  count : Holds m p (leBytes 8 args.length)
  arg : ∀ i (h : i < args.length), PointsTo m (p + 8 + 8 * i) args[i]
  argNull : Holds m (p + 8 + 8 * args.length) (leBytes 8 0)
  env : ∀ i (h : i < envs.length), PointsTo m (p + 16 + 8 * args.length + 8 * i) envs[i]
  envNull : Holds m (p + 16 + 8 * args.length + 8 * envs.length) (leBytes 8 0)
  aux : ∀ i (h : i < aux.length),
    Holds m (p + 24 + 8 * args.length + 8 * envs.length + 8 * i) (leBytes 8 aux[i])

def pairs (es : List (Nat × Nat)) : List Nat := es.flatMap fun e => [e.1, e.2]

/-- The words of entries, and of the pair that ends them. -/
def auxWords (es : List (Nat × Nat)) : List Nat := pairs es ++ [0, 0]

end MinixRt.Vfs
