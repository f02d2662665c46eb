import MinixRt.Ipc.Answer
import MinixRt.Lib.Bytes

/-!
# The file system calls

`write`, `writev`, `openat`, `ioctl` and `chdir` fill the variant of the message that belongs to
them, send it to the VFS and return a member of the answer. The variants are the members of one
union of 56 bytes, and each has its `retval` at an offset and with a size of its own: `writev` and
`openat` read the one of `write`, and find an argument of theirs in its place.
-/

namespace MinixRt.System

open Lib Ipc

/-! ## The union -/

def words (b : Store) : Fin 7 → BitVec 64 := fun i => BitVec.ofNat 64 (getLE b (8 * i) 8)

def bytes (d : Fin 7 → BitVec 64) : Store := fun x =>
  if h : x / 8 < 7 then BitVec.ofNat 8 ((d ⟨x / 8, h⟩).toNat / 256 ^ (x % 8)) else 0

structure Slot where
  off : Nat
  size : Nat

namespace Slot

def get (l : Slot) (m : Message) : Int :=
  (BitVec.ofNat (8 * l.size) (getLE (bytes m.data) l.off l.size)).toInt

def put (l : Slot) (v : Int) (m : Message) : Message :=
  { m with data := words (putLE (bytes m.data) l.off l.size (BitVec.ofInt (8 * l.size) v).toNat) }

def Holds (l : Slot) (v : Int) : Prop := -2 ^ (8 * l.size - 1) ≤ v ∧ v < 2 ^ (8 * l.size - 1)

end Slot

/-- `m_vfs_write.retval`. -/
def writeRetval : Slot := ⟨16, 8⟩

/-- `m_vfs_writev.retval`. -/
def writevRetval : Slot := ⟨24, 8⟩

/-- `m_vfs_openat.retval`. -/
def openatRetval : Slot := ⟨8, 8⟩

/-- `m_vfs_ioctl.retval`. -/
def ioctlRetval : Slot := ⟨16, 4⟩

/-- `m_vfs_chdir.retval`. -/
def chdirRetval : Slot := ⟨16, 4⟩

/-! ## The calls -/

/-- A call with its arguments. `len` is what `strlen` of the file name returns. -/
inductive FsCall
  | write (fd : BitVec 32) (buf count : BitVec 64)
  | writev (fd vec vlen : BitVec 64)
  | openat (dfd : BitVec 32) (filename : BitVec 64) (flags : BitVec 32) (mode : BitVec 16)
      (len : BitVec 64)
  | ioctl (fd cmd : BitVec 32) (arg : BitVec 64)
  | chdir (filename len : BitVec 64)
  deriving DecidableEq

namespace FsCall

/-- `IPC_M_TYPE_VFS_WRITE` to `IPC_M_TYPE_VFS_CHDIR`. -/
def type : FsCall → BitVec 32
  | write .. => 18
  | writev .. => 19
  | openat .. => 20
  | ioctl .. => 21
  | chdir .. => 22

def fields : FsCall → List Field
  | write fd buf count => [⟨24, 4, fd.toNat⟩, ⟨0, 8, buf.toNat⟩, ⟨8, 8, count.toNat⟩]
  | writev fd vec vlen => [⟨0, 8, fd.toNat⟩, ⟨8, 8, vec.toNat⟩, ⟨16, 8, vlen.toNat⟩]
  | openat dfd filename flags mode len =>
    [⟨20, 4, dfd.toNat⟩, ⟨0, 8, filename.toNat⟩,
      -- `filename_size` is an `int`
      ⟨24, 4, ((len + 1).setWidth 32).toNat⟩, ⟨16, 4, flags.toNat⟩, ⟨28, 2, mode.toNat⟩]
  | ioctl fd cmd arg => [⟨12, 4, fd.toNat⟩, ⟨8, 4, cmd.toNat⟩, ⟨0, 8, arg.toNat⟩]
  | chdir filename len => [⟨0, 8, filename.toNat⟩, ⟨8, 8, (len + 1).toNat⟩]

def request (c : FsCall) : Message where
  mSource := 0
  mType := c.type
  data := words (putAll (fun _ => 0) 0 c.fields)

/-- The `retval` of the variant that belongs to the call. -/
def retval : FsCall → Slot
  | write .. => writeRetval
  | writev .. => writevRetval
  | openat .. => openatRetval
  | ioctl .. => ioctlRetval
  | chdir .. => chdirRetval

/-- The member that the call returns after `__ipc_send`. -/
def returned : FsCall → Slot
  | write .. | writev .. | openat .. => writeRetval
  | ioctl .. | chdir .. => ioctlRetval

/-- When the call returns `v`, if this is what the VFS has stored. -/
def Right (v : Int) : FsCall → Prop
  | writev _ _ vlen => v = vlen.toInt
  | openat dfd _ flags _ _ => v = (dfd ++ flags).toInt
  | _ => True

end FsCall

section FsCalls

variable {b b' : Store} {m : Message} {c : FsCall} {v : Int} {l l' : Slot}

/-! ## Members of the union -/

theorem bytes_words {x : Nat} (hx : x < 56) : bytes (words b) x = b x := by
  have hword : x / 8 < 7 := by omega
  have hlt : getLE b (8 * (x / 8)) 8 < 2 ^ 64 := getLE_lt b _ 8
  apply BitVec.eq_of_toNat_eq
  rw [bytes, dif_pos hword, words, BitVec.toNat_ofNat, BitVec.toNat_ofNat, Nat.mod_eq_of_lt hlt,
    show (2 : Nat) ^ 8 = 256 from rfl, getLE_div b _ (Nat.mod_lt x (by decide)), Nat.div_add_mod]

theorem getLE_bytes_words {a n : Nat} (h : a + n ≤ 56) : getLE (bytes (words b)) a n = getLE b a n :=
  getLE_congr fun x _ hx => bytes_words (by omega)

theorem Slot.get_put (h : l.off + l.size ≤ 56) (hpos : 0 < l.size) (hv : l.Holds v) :
    l.get (l.put v m) = v := by
  have hlt : (BitVec.ofInt (8 * l.size) v).toNat < 256 ^ l.size := by
    refine (BitVec.isLt _).trans_le (le_of_eq ?_)
    rw [Nat.pow_mul]
  rw [Slot.get, Slot.put, getLE_bytes_words h, getLE_putLE_self hlt, BitVec.ofNat_toNat,
    BitVec.setWidth_eq]
  exact BitVec.toInt_ofInt_eq_self (by omega) hv.1 hv.2

theorem Slot.get_put_of_apart (h : l.off + l.size ≤ 56)
    (hapart : l.off + l.size ≤ l'.off ∨ l'.off + l'.size ≤ l.off) :
    l.get (l'.put v m) = l.get m := by
  rw [Slot.get, Slot.get, Slot.put, getLE_bytes_words h]
  congr 2
  refine getLE_congr fun x h1 h2 => ?_
  rcases hapart with hbefore | hbehind
  · exact putLE_of_lt (by omega)
  · exact putLE_of_ge (by omega)

/-! ## What a call returns -/

theorem FsCall.apart (c : FsCall) : c.fields.Pairwise Field.Apart := by
  apply Field.apart_of_shape
  cases c <;> simp [FsCall.fields, Field.shape]

theorem FsCall.getLE_request {f : Field} (hf : f ∈ c.fields) (hv : f.val < 256 ^ f.size)
    (h : f.off + f.size ≤ 56) : getLE (bytes c.request.data) f.off f.size = f.val := by
  have hget : getLE (putAll (fun _ => 0) 0 c.fields) (0 + f.off) f.size = f.val :=
    getLE_putAll c.apart hf hv
  rw [Nat.zero_add] at hget
  rw [FsCall.request, getLE_bytes_words h, hget]

theorem writev_returned (fd vec vlen : BitVec 64) :
    writeRetval.get (FsCall.writev fd vec vlen).request = vlen.toInt := by
  have hvlen : getLE (bytes (FsCall.writev fd vec vlen).request.data) 16 8 = vlen.toNat :=
    FsCall.getLE_request (f := ⟨16, 8, vlen.toNat⟩) (by simp [FsCall.fields]) vlen.isLt (by simp)
  change (BitVec.ofNat 64 (getLE _ 16 8)).toInt = _
  rw [hvlen, BitVec.ofNat_toNat, BitVec.setWidth_eq]

theorem openat_returned (dfd : BitVec 32) (filename : BitVec 64) (flags : BitVec 32)
    (mode : BitVec 16) (len : BitVec 64) :
    writeRetval.get (FsCall.openat dfd filename flags mode len).request = (dfd ++ flags).toInt := by
  have hflags : getLE (bytes (FsCall.openat dfd filename flags mode len).request.data) 16 4 =
      flags.toNat :=
    FsCall.getLE_request (f := ⟨16, 4, flags.toNat⟩) (by simp [FsCall.fields]) flags.isLt (by simp)
  have hdfd : getLE (bytes (FsCall.openat dfd filename flags mode len).request.data) (16 + 4) 4 =
      dfd.toNat :=
    FsCall.getLE_request (f := ⟨20, 4, dfd.toNat⟩) (by simp [FsCall.fields]) dfd.isLt (by simp)
  change (BitVec.ofNat 64 (getLE _ 16 (4 + 4))).toInt = _
  rw [getLE_add, hflags, hdfd]
  congr 1
  apply BitVec.eq_of_toNat_eq
  have h1 := flags.isLt
  rw [BitVec.toNat_append, BitVec.toNat_ofNat, ← Nat.shiftLeft_add_eq_or_of_lt h1,
    Nat.shiftLeft_eq]
  omega

theorem FsCall.returned_fits (c : FsCall) :
    c.returned.off + c.returned.size ≤ 56 ∧ 0 < c.returned.size := by
  cases c <;> simp [FsCall.returned, writeRetval, ioctlRetval]

/-- The member that is returned, in a message that only differs in the `retval` of its variant. -/
theorem FsCall.returned_iff (hv : c.retval.Holds v) (hm : m.data = (c.retval.put v c.request).data) :
    c.returned.get m = v ↔ c.Right v := by
  have hsame : c.returned.get m = c.returned.get (c.retval.put v c.request) := by
    rw [Slot.get, Slot.get, hm]
  obtain ⟨hfits, hpos⟩ := c.returned_fits
  have hown : c.returned = c.retval → c.returned.get (c.retval.put v c.request) = v := by
    intro heq
    rw [heq] at hfits hpos ⊢
    exact Slot.get_put hfits hpos hv
  have hother : (c.returned.off + c.returned.size ≤ c.retval.off ∨
      c.retval.off + c.retval.size ≤ c.returned.off) →
      c.returned.get (c.retval.put v c.request) = c.returned.get c.request :=
    Slot.get_put_of_apart hfits
  rw [hsame]
  cases c with
  | write => exact iff_of_true (hown rfl) trivial
  | writev =>
    rw [hother (.inl (show 16 + 8 ≤ 24 by decide))]
    exact Eq.congr_left (writev_returned ..) |>.trans eq_comm
  | openat =>
    rw [hother (.inr (show 8 + 8 ≤ 16 by decide))]
    exact Eq.congr_left (openat_returned ..) |>.trans eq_comm
  | ioctl fd cmd arg | chdir filename len => exact iff_of_true (hown rfl) trivial

/-- **A call returns what the VFS has stored** exactly when it is one of those that read their own
`retval`, or the stored value is that of the argument in the place where the call looks. -/
theorem fsCall_returns_iff {s : State}
    (h : machine.Reach (fun s a => noTestInWindow s a = true) s) {pre rest : List Event} {x : Addr}
    {r : Message} (htrace : s.trace = pre ++ .sent x m :: rest)
    (hreply : (life x pre).answer = some r) (hv : c.retval.Holds v)
    (hstored : r.data = (c.retval.put v c.request).data) :
    c.returned.get m = v ↔ c.Right v := by
  have hanswer := (reach_sentOk h).2 pre rest x m htrace
  rw [hreply] at hanswer
  cases hanswer
  exact FsCall.returned_iff hv hstored

end FsCalls

/-! ## Runs -/

def fsReply (c : FsCall) (v : Int) : Message := c.retval.put v { c.request with mSource := 1 }

/-- Task 0 is the VFS, task 1 makes the call, and the VFS stores `v` and replies. -/
def fsExchange (c : FsCall) (v : Int) : List Act :=
  [.register .vfs 0, .registerNext .vfs, .registerNext .vfs, .call 1 (.send .vfs c.request),
    .run 1, .alloc 1 (some 0)] ++ runs 1 4 ++ .call 0 (.receive .vfs) :: runs 0 7 ++
    .call 0 (.reply .vfs (fsReply c v)) :: runs 0 9 ++ runs 1 4

/-- The events of the run up to the last one, in which the call has its answer. -/
def fsEvents (c : FsCall) (v : Int) : List Event :=
  [.alloc 0, .append .vfs 0 { c.request with mSource := 1 },
    .received .vfs 0 { c.request with mSource := 1 }, .dequeued .vfs 0 (fsReply c v),
    .replied .vfs 0, .freed 0]

/-- A `write` that the VFS answers with -5 returns -5. -/
theorem fsCall_returns_iff_write : ∃ s m, machine.run booted (fsExchange (.write 1 0x4000 8) (-5)) =
    some s ∧ .sent 0 m ∈ s.trace ∧ (FsCall.write 1 0x4000 8).returned.get m = -5 := by
  obtain ⟨s, hs, hreach, htrace⟩ := Machine.exists_run (G := fun s a => noTestInWindow s a = true) (P := fun s => s.trace =
    fsEvents (.write 1 0x4000 8) (-5) ++ .sent 0 (fsReply (.write 1 0x4000 8) (-5)) :: [])
    reach_booted (fsExchange (.write 1 0x4000 8) (-5)) (by decide +kernel)
  refine ⟨s, fsReply (.write 1 0x4000 8) (-5), hs, by rw [htrace]; simp, ?_⟩
  exact (fsCall_returns_iff (r := fsReply (.write 1 0x4000 8) (-5)) hreach htrace
    (by decide +kernel) (by unfold Slot.Holds; decide) rfl).mpr trivial

/-- An `openat` that the VFS answers with the file descriptor 3 returns its own `dfd` and `flags`
as one number, and a `writev` of two vectors that wrote 11 bytes returns 2. -/
theorem openat_writev_answers :
    (machine.run booted (fsExchange (.openat 7 0x4000 0x800 0 9) 3)).map (fun s =>
      s.trace.map fun
        | .sent _ m => some (openatRetval.get m, (FsCall.openat 7 0x4000 0x800 0 9).returned.get m)
        | _ => none) = some (List.replicate 6 none ++ [some (3, 0x700000800)]) ∧
    (machine.run booted (fsExchange (.writev 1 0x4000 2) 11)).map (fun s =>
      s.trace.map fun
        | .sent _ m => some (writevRetval.get m, (FsCall.writev 1 0x4000 2).returned.get m)
        | _ => none) = some (List.replicate 6 none ++ [some (11, 2)]) := by
  decide +kernel

end MinixRt.System
