import MinixRt.Ipc.Source
import MinixRt.Proc.Pid

/-!
# Tasks that send messages, fork, exit and are reaped

The machine of `core/ipc.c` with the life of the tasks around it: `do_fork` takes a pid,
`task_do_exit` moves a task to the `children_exit` list of its parent, and the loop of
`do_default_signal_handle` takes it off that list, gives its pid back and frees it. A task
does this only outside the IPC calls, since a signal is handled on the way back to user
mode.

`senders` records which tasks appended to the list of the system endpoint and is read by no
function.
-/

namespace MinixRt.Proc

open Function

open Ipc (TaskId Endpoint Message Addr Event appended received dequeued emitted)

/-- The life of a `task_struct`. -/
inductive Stage
  | unborn
  | alive
  | zombie
  | reaped
  deriving DecidableEq, Repr

structure State where
  ipc : Ipc.State
  pids : PidTable
  stage : TaskId → Stage
  parent : TaskId → Option TaskId
  children : TaskId → List TaskId
  childrenExit : TaskId → List TaskId
  exitCode : TaskId → Int
  /-- The tasks that put a message into the list of the system endpoint, in order. -/
  senders : List TaskId

def State.runs (s : State) (t : TaskId) : Bool := s.stage t = .alive ∧ s.ipc.pc t = .idle

/-- The tasks that put a message into the list of the system endpoint in this step. -/
def sendersOf (s : Ipc.State) (a : Ipc.Act) : List TaskId :=
  ((emitted s a).filterMap (Event.appendAt .system)).filterMap fun _ => a.actor

/-- A step of `core/ipc.c` by a task that is alive. -/
def ipcStep (s : State) (a : Ipc.Act) : Option State :=
  if ∀ t ∈ a.actor, s.stage t = .alive then
    (Ipc.step s.ipc a).map fun ipc => { s with ipc, senders := s.senders ++ sendersOf s.ipc a }
  else none

/-- `do_fork` by `p` with the new task `c`. `copied` tells whether the stack and
`mmap_copy_mm` were granted; otherwise the pid is given back, where `kmalloc` is the result
of the `kmalloc` there. `none` is a failed `BUG_ON`. -/
def doFork (s : State) (p c : TaskId) (copied kmalloc : Bool) : Option State :=
  if s.runs p ∧ s.stage c = .unborn then
    match s.pids.pidAllocPid c with
    | none => none
    | some (pid, pids) =>
      if copied then
        some { s with
          pids
          ipc := { s.ipc with pid := update s.ipc.pid c pid }
          stage := update s.stage c .alive
          parent := update s.parent c (some p)
          children := update s.children p (c :: s.children p) }
      else
        match pids.pidRemovePidByProcess pid kmalloc with
        | (pids, true) => some { s with pids }
        | (_, false) => none
  else none

def taskDoExit (s : State) (t : TaskId) (code : Int) : Option State :=
  if s.runs t then
    (s.parent t).map fun p => { s with
      exitCode := update s.exitCode t code
      stage := update s.stage t .zombie
      children := update s.children p ((s.children p).erase t)
      childrenExit := update s.childrenExit p (t :: s.childrenExit p) }
  else none

/-- One round of the loop in `do_default_signal_handle`, by `p` for its exited child `c`. A
non-zero exit code is a `BUG`. The inner loop over the children of `c` moves each of them
to another list while it walks this one, so it ends only when there is none. -/
def doDefaultSignalHandle (s : State) (p c : TaskId) (kmalloc : Bool) : Option State :=
  if s.runs p ∧ c ∈ s.childrenExit p ∧ s.exitCode c = 0 ∧ s.children c = [] then
    some { s with
      childrenExit := update s.childrenExit p ((s.childrenExit p).erase c)
      pids := (s.pids.pidRemovePidByProcess (s.ipc.pid c) kmalloc).1
      stage := update s.stage c .reaped }
  else none

inductive Act
  | ipc (a : Ipc.Act)
  | fork (p c : TaskId) (copied kmalloc : Bool)
  | exit (t : TaskId) (code : Int)
  | reap (p c : TaskId) (kmalloc : Bool)

def step (s : State) : Act → Option State
  | .ipc a => ipcStep s a
  | .fork p c copied kmalloc => doFork s p c copied kmalloc
  | .exit t code => taskDoExit s t code
  | .reap p c kmalloc => doDefaultSignalHandle s p c kmalloc

/-- After boot the tasks are those of the pid tree, none has exited and no message has
been sent. -/
structure Boot (s : State) : Prop where
  ipc : ∃ pid mem, s.ipc = Ipc.ipcInit pid mem
  table : s.pids.Ok
  cache : s.pids.cache = []
  pid : ∀ p ∈ s.pids.root, s.ipc.pid p.2 = p.1
  stage : ∀ t, s.stage t = if t ∈ s.pids.root.map Prod.snd then .alive else .unborn
  childrenExit : ∀ p, s.childrenExit p = []
  senders : s.senders = []

def machine : Lib.Machine State Act where
  init := Boot
  step := step

end MinixRt.Proc
