import MinixRt.Ipc.State
import Mathlib.Algebra.Group.Nat.Defs

/-!
# The statements of `core/ipc.c`

Each function of the source is a function of the program counter that runs the statement
it stands at. The wait loops of `wait.h` are one such function, `waitEvent`, for every
queue and condition. `step` runs one statement of one task; the choices the code does not
make (which call comes next, what `kmalloc` returns, how long a sleep took, when a timer
expires) are in the action.
-/

namespace MinixRt.Ipc

open State

/-! ## Wait queues -/

/-- The task is switched out inside `schedule`. -/
def Pc.isBlocked : Pc → Bool
  | .send _ _ (.timeout _ _ .blocked) => true
  | .send _ _ (.wait _ .blocked) => true
  | .receive _ (.wait .blocked) => true
  | _ => false

/-- `try_to_wake_up` with the mode of `wake_up`: the result tells whether the task had to
be put back on its run queue. -/
def tryToWakeUp (s : State) (t : TaskId) : State × Bool :=
  if s.tstate t = .uninterruptible then (s.setTstate t .running, (s.pc t).isBlocked)
  else (s, false)

/-- `autoremove_wake_function`, the function of every entry that `DEFINE_WAIT` makes. -/
def autoremoveWakeFunction (q : Queue) (s : State) (t : TaskId) : State :=
  let r := tryToWakeUp s t
  if r.2 then r.1.setWaiters q ((r.1.waiters q).erase t) else r.1

/-- `wake_up`. No entry is exclusive, so `__wake_up_common` walks the whole queue. -/
def wakeUp (s : State) (q : Queue) : State :=
  (s.waiters q).foldl (autoremoveWakeFunction q) s

/-- `prepare_to_wait` in state `TASK_UNINTERRUPTIBLE`. -/
def prepareToWait (s : State) (q : Queue) (t : TaskId) : State :=
  let s := if t ∈ s.waiters q then s else s.setWaiters q (t :: s.waiters q)
  s.setTstate t .uninterruptible

/-- One statement of `wait_event(q, condition)`: the new state and the next statement, if
the loop goes on. A task switched out in `schedule` goes on when it has been woken. -/
def waitEvent (s : State) (t : TaskId) (q : Queue) (condition : Bool) :
    WaitPc → Option (State × Option WaitPc)
  | .cond => some (s, if condition then none else some .prep)
  | .prep => some (prepareToWait s q t, some .test)
  | .test => some (s, some (if condition then .finish else .sched))
  | .sched => some (s, some (if s.tstate t = .running then .prep else .blocked))
  | .blocked => if s.tstate t = .running then some (s, some .prep) else none
  | .finish => some (s.setTstate t .running, some .unqueue)
  | .unqueue => some (s.setWaiters q ((s.waiters q).erase t), none)

/-! ## The calls -/

/-- `jiffies_to_nsecs(60 * HZ)`. -/
def sendTimeout : Nat := 60 * 10 ^ 9

/-- The condition `ep_info->state == EP_STATE_RUNNING`. -/
def State.epRunning (s : State) (e : Endpoint) : Bool := (s.ep e).state = .running

/-- `__ipc_send(e, m_ptr)` for the statements that need no choice. -/
def ipcSend (s : State) (t : TaskId) (e : Endpoint) (m : Message) : SendPc → Option State
  | .tsk =>
    some (s.setPc t (.send e m
      (if (s.ep e).tsk = none then .timeout sendTimeout false .cond else .alloc)))
  | .timeout ret fired w =>
    -- `schedule_timeout` comes back through `scheduleTimeout`
    if w = .blocked ∨ (w = .sched ∧ s.tstate t = .running) then none
    else (waitEvent s t (.ep e) (s.epRunning e) w).map fun r =>
      r.1.setPc t (.send e m (match r.2 with
        | none => .checkRet ret
        | some w' => .timeout ret fired w'))
  | .checkRet ret =>
    if ret = 0 then some ((s.log (.enodev e (s.ep e).tsk)).setPc t .idle)
    else some (s.setPc t (.send e m .alloc))
  | .alloc => none
  | .copyIn x =>
    let m := { m with mSource := s.pid t }
    some ((s.setNode x fun n => { n with m := m }).setPc t (.send e m (.clear x)))
  | .clear x =>
    some ((s.setNode x fun n => { n with isFinish := false }).setPc t (.send e m (.initWait x)))
  | .initWait x =>
    some ((s.setNode x fun n => { n with wait := [] }).setPc t (.send e m (.append x)))
  | .append x =>
    let s' := (s.setEp e fun i => { i with epList := i.epList ++ [x] }).log
      (.append e x (s.node x).m)
    if (s.ep e).state = .waitting then
      some ((s'.setEp e fun i => { i with state := .running }).setPc t (.send e m (.wake x)))
    else some (s'.setPc t (.send e m (.type x)))
  | .wake x => some ((wakeUp s (.ep e)).setPc t (.send e m (.type x)))
  | .type x => some (s.setPc t (if m.isNotifier then .idle else .send e m (.wait x .cond)))
  | .wait x w =>
    (waitEvent s t (.node x) (s.node x).isFinish w).map fun r =>
      r.1.setPc t (.send e m (match r.2 with
        | none => .copyOut x
        | some w' => .wait x w'))
  | .copyOut x => some (s.setPc t (.send e (s.node x).m (.free x)))
  | .free x =>
    some ((((s.setAllocated x false).log (.freed x)).log (.sent x m)).setPc t .idle)

/-- `kmalloc(sizeof (struct ipc_mess_node), GFP_KERNEL | GFP_ZERO)` in `__ipc_send`: it
fails or returns a zeroed node that was not allocated. -/
def ipcSendAlloc (s : State) (t : TaskId) (e : Endpoint) (m : Message) :
    Option Addr → Option State
  | none => some (s.setPc t .idle)
  | some x =>
    if s.allocated x then none
    else some ((((s.setAllocated x true).setNode x fun _ => ⟨false, .zero, []⟩).log
      (.alloc x)).setPc t (.send e m (.copyIn x)))

/-- The return of `schedule_timeout(ret)` after `elapsed` nanoseconds, in the loop of
`wait_event_timeout`. A sleep ended by its timer lasted at least `ret`. -/
def scheduleTimeout (s : State) (t : TaskId) (e : Endpoint) (m : Message) (ret : Nat)
    (fired : Bool) (w : WaitPc) (elapsed : Nat) : Option State :=
  if (w = .sched ∨ w = .blocked) ∧ s.tstate t = .running ∧ (fired = true → ret ≤ elapsed) then
    let ret' := ret - elapsed
    some (s.setPc t (.send e m (.timeout ret' false (if ret' = 0 then .finish else .prep))))
  else none

/-- `__ipc_receive(e, m_ptr)`. A `list_first_entry` of an empty list has no result. -/
def ipcReceive (s : State) (t : TaskId) (e : Endpoint) : RecvPc → Option State
  | .tsk => some (s.setPc t (if (s.ep e).tsk = none then .idle else .receive e .current))
  | .current =>
    some (s.setPc t (if (s.ep e).tsk = some t then .receive e .count else .idle))
  | .count =>
    some (s.setPc t (if (s.ep e).ipcReqCount = 0 then .receive e .list else .idle))
  | .list =>
    if (s.ep e).epList = [] then
      some ((s.setEp e fun i => { i with state := .waitting }).setPc t (.receive e (.wait .cond)))
    else some (s.setPc t (.receive e .first))
  | .wait w =>
    (waitEvent s t (.ep e) (s.epRunning e) w).map fun r =>
      r.1.setPc t (.receive e (match r.2 with
        | none => .first
        | some w' => .wait w'))
  | .first =>
    match (s.ep e).epList with
    | [] => none
    | x :: _ => some (s.setPc t (.receive e (.copy x)))
  | .copy x => some (s.setPc t (.receive e (.inc x (s.node x).m)))
  | .inc x m =>
    some (((s.setEp e fun i => { i with ipcReqCount := i.ipcReqCount + 1 }).log
      (.received e x m)).setPc t .idle)

def ipcReply (s : State) (t : TaskId) (e : Endpoint) (m : Message) : ReplyPc → Option State
  | .tsk => some (s.setPc t (if (s.ep e).tsk = none then .idle else .reply e m .current))
  | .current =>
    some (s.setPc t (if (s.ep e).tsk = some t then .reply e m .count else .idle))
  | .count =>
    some (s.setPc t (if (s.ep e).ipcReqCount = 0 then .idle else .reply e m .del))
  | .del =>
    match (s.ep e).epList with
    | [] => none
    | x :: rest =>
      some (((s.setEp e fun i => { i with epList := rest }).log (.dequeued e x m)).setPc t
        (.reply e m (.type x)))
  | .type x =>
    some (s.setPc t (.reply e m (if (s.node x).m.isNotifier then .free x else .finish x)))
  | .free x => some ((s.setAllocated x false).setPc t (.reply e m (.dec x)))
  | .finish x =>
    some ((s.setNode x fun n => { n with isFinish := true }).setPc t (.reply e m (.copy x)))
  | .copy x =>
    some ((s.setNode x fun n => { n with m := m }).setPc t (.reply e m (.wake x)))
  | .wake x => some ((wakeUp s (.node x)).setPc t (.reply e m (.dec x)))
  | .dec x =>
    some (((s.setEp e fun i => { i with ipcReqCount := i.ipcReqCount - 1 }).log
      (.replied e x)).setPc t .idle)

/-- `ipc_register_endpoint_by_tsk(t)` for the endpoint `e` of its name. The task does not
run before its creator has registered it. -/
def ipcRegister (s : State) (e : Endpoint) (t : TaskId) : Option State :=
  if (s.ep e).tsk = none ∧ s.pc t = .idle then
    some ((s.setEp e fun i => { i with tsk := some t }).setReg e .setState)
  else none

/-- The statements of `ipc_register_endpoint_by_tsk` after the store to `tsk`. -/
def ipcRegisterNext (s : State) (e : Endpoint) : RegPc → Option State
  | .setState => some ((s.setEp e fun i => { i with state := .running }).setReg e .wake)
  | .wake => some ((wakeUp s (.ep e)).setReg e .done)
  | _ => none

/-! ## The machine -/

inductive Call
  | send (e : Endpoint) (m : Message)
  | receive (e : Endpoint)
  | reply (e : Endpoint) (m : Message)

def Call.notify (e : Endpoint) (m : Message) : Call :=
  .send e { m with mType := m.mType ||| typeNotifier }

def Call.entry : Call → Pc
  | .send e m => .send e m .tsk
  | .receive e => .receive e .tsk
  | .reply e m => .reply e m .tsk

inductive Act
  /-- An idle task makes a call. -/
  | call (t : TaskId) (c : Call)
  /-- A task runs its next statement. -/
  | run (t : TaskId)
  /-- The `kmalloc` of a sender returns. -/
  | alloc (t : TaskId) (r : Option Addr)
  /-- The timer of a sender's `schedule_timeout` expires. -/
  | timer (t : TaskId)
  /-- The `schedule_timeout` of a sender returns. -/
  | elapse (t : TaskId) (n : Nat)
  /-- A task is registered at an endpoint. -/
  | register (e : Endpoint) (t : TaskId)
  /-- The registration at an endpoint goes on. -/
  | registerNext (e : Endpoint)

/-- No registration of `t` is under way. -/
def State.mayRun (s : State) (t : TaskId) : Bool :=
  [Endpoint.system, .i2c, .pm, .vfs].all fun e => (s.ep e).tsk ≠ some t ∨ s.reg e = .done

def step (s : State) : Act → Option State
  | .call t c => if s.pc t = .idle ∧ s.mayRun t then some (s.setPc t c.entry) else none
  | .run t =>
    match s.pc t with
    | .idle => none
    | .send e m p => ipcSend s t e m p
    | .receive e p => ipcReceive s t e p
    | .reply e m p => ipcReply s t e m p
  | .alloc t r =>
    match s.pc t with
    | .send e m .alloc => ipcSendAlloc s t e m r
    | _ => none
  | .timer t =>
    match s.pc t with
    | .send e m (.timeout ret false w) =>
      if w = .sched ∨ w = .blocked then
        some ((tryToWakeUp s t).1.setPc t (.send e m (.timeout ret true w)))
      else none
    | _ => none
  | .elapse t n =>
    match s.pc t with
    | .send e m (.timeout ret fired w) => scheduleTimeout s t e m ret fired w n
    | _ => none
  | .register e t => ipcRegister s e t
  | .registerNext e => ipcRegisterNext s e (s.reg e)

/-- The endpoints, the tasks and every interleaving of their statements. -/
def machine : Lib.Machine State Act where
  init s := ∃ pid mem, s = ipcInit pid mem
  step := step

end MinixRt.Ipc
