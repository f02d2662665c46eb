import MinixRt.Lib.Machine
import MinixRt.Ipc.Message

/-!
# The state of the endpoints, their message nodes and the tasks that use them

`core/ipc.c` keeps one `endpoint_info` for each endpoint and one `ipc_mess_node` for each
message under way. A node is memory: `kmalloc` takes an address that is not allocated,
`kfree` gives it back, and a stale pointer still reads and writes what is there. So a
node's contents are a total function of its address and the allocation is a flag beside
it.

A task is inside at most one of `__ipc_send`, `__ipc_receive` and `__ipc_reply`, and its
program counter says before which statement. A spinlock section is one statement.
`trace` records what the runs are judged by and is read by no statement.
-/

namespace MinixRt.Ipc

open Function

/-- The address of an `ipc_mess_node`. -/
abbrev Addr := Nat

/-- `EP_STATE_NONE`, `EP_STATE_WAITTING`, `EP_STATE_RUNNING`. -/
inductive EpState
  | none
  | waitting
  | running
  deriving DecidableEq, Repr

/-- `TASK_RUNNING` and `TASK_UNINTERRUPTIBLE`. -/
inductive TaskState
  | running
  | uninterruptible
  deriving DecidableEq, Repr

/-- `struct endpoint_info`; `wait` lists the tasks of the wait queue entries. -/
structure EndpointInfo where
  ipcReqCount : BitVec 32
  state : EpState
  wait : List TaskId
  tsk : Option TaskId
  epList : List Addr

/-- `struct ipc_mess_node`; its `queue_list` is its place in an `ep_list`. -/
structure Node where
  isFinish : Bool
  m : Message
  wait : List TaskId

/-- The statements of `wait_event` and `wait_event_timeout`: the test before the loop,
then `prepare_to_wait`, the test inside, `schedule`, and the two statements of
`finish_wait`. A task at `blocked` is inside `schedule`, switched out. -/
inductive WaitPc
  | cond
  | prep
  | test
  | sched
  | blocked
  | finish
  | unqueue
  deriving DecidableEq, Repr

/-- The statements of `__ipc_send`. `timeout ret fired w` is its `wait_event_timeout` with
`ret` nanoseconds left; `fired` tells that the timer of the current sleep has expired. -/
inductive SendPc
  | tsk
  | timeout (ret : Nat) (fired : Bool) (w : WaitPc)
  | checkRet (ret : Nat)
  | alloc
  | copyIn (x : Addr)
  | clear (x : Addr)
  | initWait (x : Addr)
  | append (x : Addr)
  | wake (x : Addr)
  | type (x : Addr)
  | wait (x : Addr) (w : WaitPc)
  | copyOut (x : Addr)
  | free (x : Addr)
  deriving DecidableEq, Repr

/-- The statements of `__ipc_receive`. -/
inductive RecvPc
  | tsk
  | current
  | count
  | list
  | wait (w : WaitPc)
  | first
  | copy (x : Addr)
  | inc (x : Addr) (m : Message)
  deriving DecidableEq

/-- The statements of `__ipc_reply`. -/
inductive ReplyPc
  | tsk
  | current
  | count
  | del
  | type (x : Addr)
  | free (x : Addr)
  | finish (x : Addr)
  | copy (x : Addr)
  | wake (x : Addr)
  | dec (x : Addr)
  deriving DecidableEq, Repr

/-- Where a task is. `m` is the buffer behind the caller's `m_ptr`. -/
inductive Pc
  | idle
  | send (e : Endpoint) (m : Message) (p : SendPc)
  | receive (e : Endpoint) (p : RecvPc)
  | reply (e : Endpoint) (m : Message) (p : ReplyPc)
  deriving DecidableEq

/-- The progress of `ipc_register_endpoint_by_tsk` for one endpoint. Its caller starts the
registered task only after it has returned. -/
inductive RegPc
  | none
  | setState
  | wake
  | done
  deriving DecidableEq, Repr

/-- What a run is judged by. -/
inductive Event
  /-- A sender's `kmalloc` returned `x`. -/
  | alloc (x : Addr)
  /-- A sender put node `x` holding `m` at the tail of the list of `e`. -/
  | append (e : Endpoint) (x : Addr) (m : Message)
  /-- A receive returned 0 after copying `m` out of node `x`. -/
  | received (e : Endpoint) (x : Addr) (m : Message)
  /-- A reply that was passed `m` took node `x` off the list. -/
  | dequeued (e : Endpoint) (x : Addr) (m : Message)
  /-- A reply returned 0. -/
  | replied (e : Endpoint) (x : Addr)
  /-- A sender freed its node. -/
  | freed (x : Addr)
  /-- A send that waited on node `x` returned 0 with `m` in its buffer. -/
  | sent (x : Addr) (m : Message)
  /-- A send returned `-ENODEV` when the task of its endpoint was `tsk`. -/
  | enodev (e : Endpoint) (tsk : Option TaskId)
  deriving DecidableEq

structure State where
  ep : Endpoint → EndpointInfo
  node : Addr → Node
  allocated : Addr → Bool
  pc : TaskId → Pc
  tstate : TaskId → TaskState
  pid : TaskId → Int
  reg : Endpoint → RegPc
  trace : List Event

namespace State

/-- A wait queue: the one of an endpoint or the one of a node. -/
inductive Queue
  | ep (e : Endpoint)
  | node (x : Addr)

def setPc (s : State) (t : TaskId) (p : Pc) : State :=
  { s with pc := update s.pc t p }

def setTstate (s : State) (t : TaskId) (r : TaskState) : State :=
  { s with tstate := update s.tstate t r }

def setEp (s : State) (e : Endpoint) (f : EndpointInfo → EndpointInfo) : State :=
  { s with ep := update s.ep e (f (s.ep e)) }

def setNode (s : State) (x : Addr) (f : Node → Node) : State :=
  { s with node := update s.node x (f (s.node x)) }

def setAllocated (s : State) (x : Addr) (b : Bool) : State :=
  { s with allocated := update s.allocated x b }

def setReg (s : State) (e : Endpoint) (r : RegPc) : State :=
  { s with reg := update s.reg e r }

def log (s : State) (ev : Event) : State :=
  { s with trace := s.trace ++ [ev] }

def waiters (s : State) : Queue → List TaskId
  | .ep e => (s.ep e).wait
  | .node x => (s.node x).wait

def setWaiters (s : State) (q : Queue) (l : List TaskId) : State :=
  match q with
  | .ep e => s.setEp e fun i => { i with wait := l }
  | .node x => s.setNode x fun n => { n with wait := l }

end State

/-- `ipc_init`, with the pids of the tasks and whatever the memory holds. No task is inside
an IPC call and no node is allocated. -/
def ipcInit (pid : TaskId → Int) (mem : Addr → Node) : State where
  ep _ := ⟨0, .none, [], none, []⟩
  node := mem
  allocated _ := false
  pc _ := .idle
  tstate _ := .running
  pid := pid
  reg _ := .none
  trace := []

end MinixRt.Ipc
