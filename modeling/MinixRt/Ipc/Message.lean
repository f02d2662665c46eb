import Mathlib.Data.Fintype.Basic

/-!
# Messages and endpoints

`message_t` is 64 bytes: the source pid, the type word and a union of 56 bytes, read here
through its member `m_u64`. The four endpoints are the four entries of `ipc_ep_info`.
-/

namespace MinixRt.Ipc

/-- Tasks are named once and for all; a `task_struct` pointer is a `TaskId`. -/
abbrev TaskId := Nat

/-- The four entries of `ipc_ep_info`. -/
inductive Endpoint
  | system
  | i2c
  | pm
  | vfs
  deriving DecidableEq, Repr

/-- `message_t`: the union is its member `m_u64`. -/
structure Message where
  mSource : Int
  mType : BitVec 32
  data : Fin 7 → BitVec 64
  deriving DecidableEq

/-- A message buffer after `memset(&m, 0, sizeof (message_t))`. -/
def Message.zero : Message := ⟨0, 0, fun _ => 0⟩

def typeNotifier : BitVec 32 := 0x80000000#32

def typeMask : BitVec 32 := 0x7fffffff#32

/-- `m_type & IPC_M_TYPE_NOTIFIER`. -/
def Message.isNotifier (m : Message) : Bool := m.mType &&& typeNotifier != 0

end MinixRt.Ipc
