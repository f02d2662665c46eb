import MinixRt.Lib.Bytes
import MinixRt.Signal.Notifier

/-!
# The signal frame

`setup_rt_frame` stores the interrupted registers in a `struct rt_sigframe` below the user
stack and lets the task continue in the handler; `rt_sigreturn` reads them back. The frame
is bytes in user memory: the fixed part is addressed by the offsets of the C structures, and
the `__reserved` area holds records with a magic number and a size, which
`parse_user_sigframe` walks.

The floating-point registers are those of the CPU. `preserve_fpsimd_context` stores the copy
in `thread.uw.fpsimd_state`, which nothing in the kernel keeps up to date, and
`restore_fpsimd_context` reads the record into a local variable.
-/

namespace MinixRt.Signal

open Lib
open MinixRt.System (noSyscall)
open MinixRt.Mm (sub64)

/-! ## User memory -/

structure UserMem where
  byte : Store
  /-- An access to the address does not fault. -/
  accessible : Nat → Bool

/-- `USER_DS`. -/
def addrLimit : Nat := 2 ^ 48 - 1

/-- `access_ok`: `addr + size <= addr_limit + 1`, without wrapping around. -/
def accessOk (addr size : Nat) : Prop := addr + size ≤ addrLimit + 1

instance (addr size : Nat) : Decidable (accessOk addr size) :=
  inferInstanceAs (Decidable (_ ≤ _))

def UserMem.Accessible (m : UserMem) (addr size : Nat) : Prop :=
  ∀ i < size, m.accessible (addr + i) = true

instance (m : UserMem) (addr size : Nat) : Decidable (m.Accessible addr size) :=
  inferInstanceAs (Decidable (∀ i < size, _))

/-- The user memory and the variable `err` that the accesses share. -/
structure Access where
  mem : UserMem
  err : Bool

def Access.put (st : Access) (addr size val : Nat) : Access :=
  if accessOk addr size ∧ st.mem.Accessible addr size then
    { st with mem := { st.mem with byte := putLE st.mem.byte addr size val } }
  else { st with err := true }

/-- `__put_user_error` of several fields of a structure. -/
def Access.putFields (st : Access) (base : Nat) (fs : List Field) : Access :=
  fs.foldl (fun st f => st.put (base + f.off) f.size f.val) st

def maskPtr (addr : Nat) : Nat := if addr ≤ addrLimit then addr else 0

/-- `__copy_to_user` stores up to the first byte that faults; `err` is the number of bytes
left. -/
def Access.copyTo (st : Access) (addr size val : Nat) : Access :=
  let addr := maskPtr addr
  let done := ((List.range size).takeWhile fun i => st.mem.accessible (addr + i)).length
  { mem := { st.mem with byte := putLE st.mem.byte addr done val }, err := decide (done < size) }

/-- `__get_user_error`: the value, 0 for an access that faults, and `err`. -/
def UserMem.get (m : UserMem) (addr size : Nat) : Nat × Bool :=
  if accessOk addr size ∧ m.Accessible addr size then (getLE m.byte addr size, false)
  else (0, true)

/-! ## Registers -/

/-- `struct user_pt_regs`. -/
structure UserRegs where
  regs : Fin 31 → BitVec 64
  sp : BitVec 64
  pc : BitVec 64
  pstate : BitVec 64

/-- The vector registers with `fpsr` and `fpcr`. -/
structure FpsimdState where
  vregs : Fin 32 → BitVec 128
  fpsr : BitVec 32
  fpcr : BitVec 32

/-- A task at the border between user mode and the kernel. -/
structure Context where
  regs : UserRegs
  syscallno : Int
  /-- The registers of the CPU. -/
  fpsimd : FpsimdState
  mem : UserMem
  /-- `thread.uw.fpsimd_state`. -/
  saved : FpsimdState
  faultAddress : BitVec 64
  faultCode : BitVec 64
  /-- `TIF_SINGLESTEP`. -/
  singlestep : Bool

def dbgSpsrSs : BitVec 64 := 1 <<< 21

/-- `SPSR_EL1_AARCH64_RES0_BITS`: bits 63 to 32, 27 to 25, 23, 22, 20 to 13, 11, 10 and 5. -/
def spsrRes0 : BitVec 64 := 0xffffffff0edfec20

/-- `PSR_D_BIT | PSR_A_BIT | PSR_I_BIT | PSR_F_BIT`, `PSR_MODE32_BIT` and the mode. -/
def psrKernelBits : BitVec 64 := 0x3df

/-- `PSR_N_BIT | PSR_Z_BIT | PSR_C_BIT | PSR_V_BIT`. -/
def psrFlags : BitVec 64 := 0xf0000000

/-- `valid_user_regs`: whether the state is one of user mode, and the state afterwards. -/
def validUserRegs (singlestep : Bool) (pstate : BitVec 64) : Bool × BitVec 64 :=
  let pstate := if singlestep then pstate else pstate &&& ~~~dbgSpsrSs
  let pstate := pstate &&& ~~~spsrRes0
  if pstate &&& psrKernelBits = 0 then (true, pstate) else (false, pstate &&& psrFlags)

/-! ## The layout -/

/-- `sizeof(struct rt_sigframe)`. -/
def rtSigframeSize : Nat := 4688

/-- The offsets in `struct rt_sigframe`: `uc`, then `uc.uc_mcontext`. -/
def ucOffset : Nat := 128
def mcontextOffset : Nat := ucOffset + 176
def regsOffset (i : Nat) : Nat := mcontextOffset + 8 + 8 * i
def spOffset : Nat := mcontextOffset + 256
def pcOffset : Nat := mcontextOffset + 264
def pstateOffset : Nat := mcontextOffset + 272
def reservedOffset : Nat := mcontextOffset + 288
def reservedSize : Nat := 4096

/-- `sizeof(struct _aarch64_ctx)` and of the records that begin with one. -/
def headSize : Nat := 8
def fpsimdContextSize : Nat := 528
def esrContextSize : Nat := 16
def extraContextSize : Nat := 32
def terminatorSize : Nat := 16
def sigframeMaxsz : Nat := 2 ^ 16

def fpsimdMagic : Nat := 0x46508001
def esrMagic : Nat := 0x45535201
def extraMagic : Nat := 0x45585401

def roundUp (x : Nat) : Nat := (x + 15) / 16 * 16

structure UserLayout where
  sigframe : Nat
  nextFrame : Nat
  size : Nat
  limit : Nat
  fpsimdOffset : Nat
  esrOffset : Nat
  extraOffset : Nat
  endOffset : Nat
  deriving DecidableEq

def initUserLayout : UserLayout :=
  { sigframe := 0, nextFrame := 0, size := reservedOffset,
    limit := reservedOffset + reservedSize - terminatorSize - extraContextSize,
    fpsimdOffset := 0, esrOffset := 0, extraOffset := 0, endOffset := 0 }

/-- `__sigframe_alloc` without extension: the offset of the block. -/
def UserLayout.alloc (user : UserLayout) (size : Nat) : Option (Nat × UserLayout) :=
  if sub64 user.limit user.size < roundUp size then none
  else some (user.size, { user with size := user.size + roundUp size })

/-- `sigframe_alloc`: the first block that does not fit makes room for an `extra_context`. -/
def UserLayout.sigframeAlloc (user : UserLayout) (size : Nat) : Option (Nat × UserLayout) :=
  if sub64 user.limit user.size < roundUp size ∧ user.extraOffset = 0 then
    (UserLayout.alloc { user with limit := user.limit + extraContextSize } extraContextSize).bind
      fun r => UserLayout.alloc { r.2 with
        extraOffset := r.1
        size := r.2.size + terminatorSize
        limit := sigframeMaxsz - terminatorSize } size
  else user.alloc size

def UserLayout.sigframeAllocEnd (user : UserLayout) : Option UserLayout :=
  (UserLayout.sigframeAlloc { user with limit := user.limit + terminatorSize } headSize).map
    fun r => { r.2 with endOffset := r.1, limit := r.2.size }

def setupSigframeLayout (user : UserLayout) (faultCode : BitVec 64) : Option UserLayout :=
  (user.sigframeAlloc fpsimdContextSize).bind fun r =>
    let user := { r.2 with fpsimdOffset := r.1 }
    if faultCode ≠ 0 then
      (user.sigframeAlloc esrContextSize).bind fun r =>
        UserLayout.sigframeAllocEnd { r.2 with esrOffset := r.1 }
    else user.sigframeAllocEnd

def UserLayout.sigframeSize (user : UserLayout) : Nat := roundUp (max user.size rtSigframeSize)

def roundDown (x : Nat) : Nat := x / 16 * 16

def getSigframe (c : Context) : Option UserLayout :=
  (setupSigframeLayout initUserLayout c.faultCode).bind fun user =>
    let spTop := c.regs.sp.toNat
    let next := roundDown (sub64 spTop 16)
    let sp := sub64 (roundDown next) user.sigframeSize
    if accessOk sp (sub64 spTop sp) then some { user with sigframe := sp, nextFrame := next }
    else none

/-! ## Writing the frame -/

/-- The vector registers as the number their bytes spell. -/
def FpsimdState.packed (f : FpsimdState) : Nat :=
  (List.finRange 32).foldr (fun i n => (f.vregs i).toNat + 2 ^ 128 * n) 0

/-- `preserve_fpsimd_context`, with its own `err`. -/
def preserveFpsimdContext (f : FpsimdState) (ctx : Nat) (st : Access) : Access :=
  (st.copyTo (ctx + 16) 512 f.packed).putFields ctx
    [⟨8, 4, f.fpsr.toNat⟩, ⟨12, 4, f.fpcr.toNat⟩, ⟨0, 4, fpsimdMagic⟩, ⟨4, 4, fpsimdContextSize⟩]

/-- The fields of `uc_mcontext` that `setup_sigframe` stores, by offset in the frame. -/
def mcontextFields (c : Context) : List Field :=
  (List.finRange 31).map (fun i => ⟨regsOffset i, 8, (c.regs.regs i).toNat⟩) ++
    [⟨spOffset, 8, c.regs.sp.toNat⟩, ⟨pcOffset, 8, c.regs.pc.toNat⟩,
      ⟨pstateOffset, 8, c.regs.pstate.toNat⟩, ⟨mcontextOffset, 8, c.faultAddress.toNat⟩]

/-- The fields of an `extra_context` at `off`, of the terminator after it, and the space that
is left for records. -/
def extraFields (user : UserLayout) : List Field :=
  let datap := user.sigframe + user.extraOffset + extraContextSize + terminatorSize
  [⟨user.extraOffset, 4, extraMagic⟩, ⟨user.extraOffset + 4, 4, extraContextSize⟩,
    ⟨user.extraOffset + 8, 8, datap⟩,
    ⟨user.extraOffset + 16, 4, user.sigframe + roundUp user.size - datap⟩,
    ⟨user.extraOffset + extraContextSize, 4, 0⟩, ⟨user.extraOffset + extraContextSize + 4, 4, 0⟩]

def Access.unlessErr (st : Access) (f : Access → Access) : Access := if st.err then st else f st

/-- The record with the fault code, if there is one. -/
def putEsr (c : Context) (user : UserLayout) (st : Access) : Access :=
  if user.esrOffset ≠ 0 then
    st.putFields (user.sigframe + user.esrOffset)
      [⟨0, 4, esrMagic⟩, ⟨4, 4, esrContextSize⟩, ⟨8, 8, c.faultCode.toNat⟩]
  else st

def putExtra (user : UserLayout) (st : Access) : Access :=
  if user.extraOffset ≠ 0 then st.putFields user.sigframe (extraFields user) else st

def putEnd (user : UserLayout) (st : Access) : Access :=
  st.putFields (user.sigframe + user.endOffset) [⟨0, 4, 0⟩, ⟨4, 4, 0⟩]

def setupSigframe (c : Context) (user : UserLayout) (st : Access) : Access :=
  let st := st.putFields user.nextFrame
    [⟨0, 8, (c.regs.regs 29).toNat⟩, ⟨8, 8, (c.regs.regs 30).toNat⟩]
  let st := st.putFields user.sigframe (mcontextFields c)
  let st := st.unlessErr (preserveFpsimdContext c.saved (user.sigframe + user.fpsimdOffset))
  let st := st.unlessErr (putEsr c user)
  let st := st.unlessErr (putExtra user)
  st.unlessErr (putEnd user)

def shiftField (d : Nat) (f : Field) : Field := { f with off := d + f.off }

/-- Its first two stores, by offset from the frame. -/
def nextFrameFields (c : Context) : List Field :=
  [⟨0, 8, (c.regs.regs 29).toNat⟩, ⟨8, 8, (c.regs.regs 30).toNat⟩].map
    (shiftField rtSigframeSize)

def setupReturn (x : NotifierStruct) (c : Context) (user : UserLayout) (usig : NotifierId) :
    UserRegs :=
  { c.regs with
    regs := fun i =>
      if i = 0 then BitVec.ofNat 64 usig
      else if i = 1 then x.priv usig
      else if i = 2 then BitVec.ofInt 64 (x.pid usig)
      else if i = 29 then BitVec.ofNat 64 user.nextFrame
      else if i = 30 then BitVec.ofNat 64 x.returnFn
      else c.regs.regs i
    sp := BitVec.ofNat 64 user.sigframe
    pc := BitVec.ofNat 64 (x.action usig) }

/-- `setup_rt_frame`: the frame address and the context in which the handler starts, or
`none` after an error. -/
def setupRtFrame (x : NotifierStruct) (c : Context) (usig : NotifierId) :
    Option (Nat × Context) :=
  (getSigframe c).bind fun user =>
    -- `uc_flags` and `uc_link`
    let st := Access.putFields ⟨c.mem, false⟩ (user.sigframe + ucOffset) [⟨0, 8, 0⟩, ⟨8, 8, 0⟩]
    -- `err |= setup_sigframe(...)`, which starts with an `err` of its own
    let st' := setupSigframe c user { st with err := false }
    if st.err ∨ st'.err then none
    else some (user.sigframe, { c with mem := st'.mem, regs := setupReturn x c user usig })

/-! ## Reading the frame -/

/-- Where `parse_user_sigframe` found the floating-point record. -/
structure UserCtxs where
  fpsimd : Option Nat

/-- What one round of the loop of `parse_user_sigframe` does. -/
inductive ParseStep
  | done
  | error
  | next (user : UserCtxs) (base offset limit : Nat) (haveExtraContext : Bool)

/-- One record, at `base + offset`. -/
def parseRecord (m : UserMem) (sf : Nat) (user : UserCtxs) (base offset limit : Nat)
    (haveExtraContext : Bool) : ParseStep :=
  let head := base + offset
  let left := sub64 limit offset
  if left < headSize then .error
  else if offset % 16 ≠ 0 then .error
  else
    let magic := m.get head 4
    let size := m.get (head + 4) 4
    let skip (user : UserCtxs) : ParseStep :=
      if size.1 < headSize then .error
      else if left < size.1 then .error
      else .next user base (offset + size.1) limit haveExtraContext
    if magic.2 ∨ size.2 then .error
    else if left < size.1 then .error
    else if magic.1 = 0 then if size.1 = 0 then .done else .error
    else if magic.1 = fpsimdMagic then
      if user.fpsimd.isSome then .error
      else if size.1 < fpsimdContextSize then .error
      else skip { user with fpsimd := some head }
    else if magic.1 = esrMagic then skip user
    else if magic.1 = extraMagic then
      if haveExtraContext then .error
      else if size.1 < extraContextSize then .error
      else
        let datap := m.get (head + 8) 8
        let extraSize := m.get (head + 16) 4
        let userp := head + size.1
        if datap.2 ∨ extraSize.2 then .error
        else if sub64 left size.1 < terminatorSize then .error
        else
          let endMagic := m.get userp 4
          let endSize := m.get (userp + 4) 4
          let userp := userp + terminatorSize
          if endMagic.2 ∨ endSize.2 then .error
          else if endMagic.1 ≠ 0 ∨ endSize.1 ≠ 0 then .error
          else if datap.1 % 16 ≠ 0 then .error
          else if extraSize.1 % 16 ≠ 0 then .error
          else if datap.1 ≠ userp then .error
          else if ((sf + sigframeMaxsz : Nat) : Int) - userp < extraSize.1 then .error
          else if ¬ accessOk datap.1 extraSize.1 then .error
          else .next user datap.1 0 extraSize.1 true
    else .error

/-- The loop; `none` means that it is still running. -/
def parseLoop (m : UserMem) (sf : Nat) :
    Nat → UserCtxs → Nat → Nat → Nat → Bool → Option (Option UserCtxs)
  | 0, _, _, _, _, _ => none
  | fuel + 1, user, base, offset, limit, have_extra =>
    match parseRecord m sf user base offset limit have_extra with
    | .done => some (some user)
    | .error => some none
    | .next user base offset limit have_extra =>
      parseLoop m sf fuel user base offset limit have_extra

/-- `parse_user_sigframe`: `some none` is an error. -/
def parseUserSigframe (fuel : Nat) (m : UserMem) (sf : Nat) : Option (Option UserCtxs) :=
  let base := sf + reservedOffset
  if base % 16 ≠ 0 then some none
  else parseLoop m sf fuel ⟨none⟩ base 0 reservedSize false

/-- `restore_fpsimd_context`: it checks the record and reads it into a local variable. -/
def restoreFpsimdContext (m : UserMem) (ctx : Nat) : Bool :=
  let magic := m.get ctx 4
  let size := m.get (ctx + 4) 4
  if magic.2 ∨ size.2 then false
  else if magic.1 ≠ fpsimdMagic ∨ size.1 ≠ fpsimdContextSize then false
  else decide (m.Accessible (maskPtr (ctx + 16)) 512) && !(m.get (ctx + 8) 4).2 &&
    !(m.get (ctx + 12) 4).2

/-- The registers as the frame has them, before `valid_user_regs`. -/
def readRegs (m : UserMem) (sf : Nat) : UserRegs × Bool :=
  let reg (i : Fin 31) := m.get (sf + regsOffset i) 8
  let sp := m.get (sf + spOffset) 8
  let pc := m.get (sf + pcOffset) 8
  let pstate := m.get (sf + pstateOffset) 8
  ({ regs := fun i => BitVec.ofNat 64 (reg i).1
     sp := BitVec.ofNat 64 sp.1
     pc := BitVec.ofNat 64 pc.1
     pstate := BitVec.ofNat 64 pstate.1 },
    (List.finRange 31).any (fun i => (reg i).2) || sp.2 || pc.2 || pstate.2)

/-- `restore_sigframe`: the context afterwards and whether it succeeds. -/
def restoreSigframe (fuel : Nat) (c : Context) (sf : Nat) : Option (Bool × Context) :=
  let (regs, err) := readRegs c.mem sf
  let (valid, pstate) := validUserRegs c.singlestep regs.pstate
  let c := { c with regs := { regs with pstate := pstate }, syscallno := noSyscall }
  if err ∨ !valid then some (false, c)
  else (parseUserSigframe fuel c.mem sf).map fun
    | none => (false, c)
    | some user => match user.fpsimd with
      | none => (false, c)
      | some ctx => (restoreFpsimdContext c.mem ctx, c)

/-- `rt_sigreturn`: the context in which user mode goes on. A bad frame ends in the `BUG()` of
`arm64_notify_segfault`, which is `some none`. -/
def rtSigreturn (fuel : Nat) (c : Context) : Option (Option Context) :=
  let frame := c.regs.sp.toNat
  if frame % 16 ≠ 0 ∨ ¬ accessOk frame rtSigframeSize then some none
  else (restoreSigframe fuel c frame).map fun r => if r.1 then some r.2 else none

end MinixRt.Signal
