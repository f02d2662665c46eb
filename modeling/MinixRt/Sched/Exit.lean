import MinixRt.Lib.Machine
import Mathlib.Data.List.Count

/-!
# The end of a task

`task_create_tsk` starts a task with two references. `task_do_exit` drops one of them while
the task still runs, and `finish_task_switch` drops one for a task that it finds dead, on the
CPU that has switched away from it. `put_task_struct` does not expect to drop the last one.
`sched_setaffinity` and `sched_migrate_task` hold a reference for the time of a call.

The exited task is on the list `children_exit` of its parent from the first statements of
`task_do_exit` on. `get_signal` runs `do_default_signal_handle` for every notifier with the
default action, and this frees the tasks on the list.

The machine has `n` CPUs, and one step is a statement of a function. `switchedOut` records
that `finish_task_switch` has handled the task as dead, and is read by no function.
-/

namespace MinixRt.Sched.Exit

open Function Lib Machine

abbrev TaskId := Nat

/-- Where a task is on the way through `do_send_signal` and `task_do_exit`. -/
inductive Pc
  | unborn
  | running
  /-- The parent's notifier is set, `task_do_exit` comes next. -/
  | notified (exitCode : Int)
  /-- On the list `children_exit` of the parent. -/
  | published
  /-- After `put_task_struct`. -/
  | released
  /-- After `preempt_disable`. -/
  | unpreempted
  /-- The state is `TASK_DEAD`. -/
  | dead
  /-- The parent has `TIF_SIGPENDING`, `schedule` comes next. -/
  | flagged
  deriving DecidableEq

inductive Handler
  | ign
  | dfl
  | fn
  deriving DecidableEq

structure Task where
  pc : Pc
  usage : Int
  parent : TaskId
  exitCode : Int
  children : List TaskId
  childrenExit : List TaskId
  /-- The bits of `notifier_table`. -/
  notifiers : Nat → Bool
  action : Nat → Handler
  /-- `TIF_SIGPENDING`. -/
  sigpending : Bool
  /-- The notifier that the loop of `get_signal` looks at next. -/
  scan : Option Nat
  /-- The tasks that the loop of `do_default_signal_handle` has before it. -/
  reaping : List TaskId
  mmFreed : Bool
  stackFreed : Bool
  taskFreed : Bool
  switchedOut : Bool

/-- The `BUG()`s that a run can reach. -/
inductive Bug
  | putTaskStruct
  | doDefaultSignalHandle
  deriving DecidableEq

structure State (n : Nat) where
  task : TaskId → Task
  current : Fin n → TaskId
  /-- The task that the CPU has switched away from, until `finish_task_switch` is done. -/
  switching : Fin n → Option TaskId
  /-- The calls of `sched_setaffinity` and `sched_migrate_task` that hold a reference, as
  the calling task and the task held. -/
  held : List (TaskId × TaskId)
  bug : Option Bug

def notifierNrMax : Nat := 66
def sigchld : Nat := 17

section Model

variable {n : Nat}

def State.set (s : State n) (t : TaskId) (x : Task) : State n :=
  { s with task := update s.task t x }

@[simp] theorem State.task_set_self (s : State n) (t : TaskId) (x : Task) :
    (s.set t x).task t = x := update_self ..

theorem State.task_set_of_ne (s : State n) {t u : TaskId} (x : Task) (h : u ≠ t) :
    (s.set t x).task u = s.task u := update_of_ne h ..

theorem State.field_set {β : Type} (g : Task → β) {s : State n} {t : TaskId} {x : Task}
    (hx : g x = g (s.task t)) (u : TaskId) : g ((s.set t x).task u) = g (s.task u) := by
  by_cases hut : u = t
  · rw [hut, State.task_set_self, hx]
  · rw [State.task_set_of_ne s x hut]

/-- The current task of CPU `c`. -/
def State.cur (s : State n) (c : Fin n) : Task := s.task (s.current c)

/-- `tsk->state == TASK_DEAD`. -/
def Task.isDead (t : Task) : Bool := t.pc = .dead ∨ t.pc = .flagged

def putTaskStruct (s : State n) (t : TaskId) : State n :=
  { s.set t { s.task t with usage := (s.task t).usage - 1 } with
    bug := if (s.task t).usage = 1 then some .putTaskStruct else s.bug }

/-- `task_create_tsk`, and the links that `do_fork` gives the child. -/
def taskCreateTsk (s : State n) (parent child : TaskId) : State n :=
  let s := s.set parent { s.task parent with children := child :: (s.task parent).children }
  s.set child
    { pc := .running, usage := 2, parent := parent, exitCode := 0, children := [],
      childrenExit := [], notifiers := fun _ => false, action := fun _ => .dfl,
      sigpending := false, scan := none, reaping := [], mmFreed := false, stackFreed := false,
      taskFreed := false, switchedOut := false }

def setNotifier (x : Task) (sig : Nat) : Task :=
  { x with notifiers := update x.notifiers sig true }

/-- The next statement of `task_do_exit` for task `t`. -/
def taskDoExit (s : State n) (t : TaskId) : Option (State n) :=
  let x := s.task t
  match x.pc with
  | .notified code =>
    let s := s.set t { x with pc := .published, exitCode := code }
    let p := s.task x.parent
    some (s.set x.parent { p with
      children := p.children.erase t
      childrenExit := t :: p.childrenExit })
  | .published => some (putTaskStruct (s.set t { x with pc := .released }) t)
  | .released => some (s.set t { x with pc := .unpreempted })
  | .unpreempted => some (s.set t { x with pc := .dead })
  | .dead =>
    let s := s.set t { x with pc := .flagged }
    some (s.set x.parent { s.task x.parent with sigpending := true })
  | _ => none

/-- `finish_task_switch(rq, prev)` on CPU `c`. -/
def finishTaskSwitch (s : State n) (c : Fin n) (prev : TaskId) : State n :=
  let s := { s with switching := update s.switching c none }
  if (s.task prev).isDead then
    putTaskStruct (s.set prev { s.task prev with switchedOut := true }) prev
  else s

/-- `notifier_table_next`: the first notifier that is set, from `pos` on. -/
def notifierTableNext (x : Task) (pos : Nat) : Option Nat :=
  (List.range notifierNrMax).find? fun k => pos ≤ k && x.notifiers k

/-- One turn of the loop of `get_signal`, from notifier `pos` on. -/
def getSignal (x : Task) (pos : Nat) : Task :=
  match notifierTableNext x pos with
  | none => { x with scan := none, sigpending := false }
  | some k =>
    let table := update x.notifiers k false
    let x := { x with
      notifiers := table
      scan := some (k + 1)
      sigpending := x.sigpending && (List.range notifierNrMax).any table }
    match x.action k with
    | .ign => x
    -- `do_default_signal_handle`
    | .dfl => { x with reaping := x.childrenExit }
    | .fn => { x with scan := none, sigpending := false }

/-- The next statement of `do_default_signal_handle` for task `t`. -/
def doDefaultSignalHandle (s : State n) (t : TaskId) : Option (State n) :=
  let x := s.task t
  match x.reaping with
  | [] => none
  | u :: rest =>
    if (s.task u).exitCode ≠ 0 then some { s with bug := some .doDefaultSignalHandle }
    -- the loop that gives the children to `t` follows their new links and does not end
    else if (s.task u).children ≠ [] then none
    else if (s.task u).mmFreed = false then
      let s := s.set t { x with childrenExit := x.childrenExit.erase u }
      some (s.set u { s.task u with mmFreed := true })
    else if (s.task u).stackFreed = false then
      some (s.set u { s.task u with stackFreed := true })
    else
      let s := s.set t { x with reaping := rest }
      some (s.set u { s.task u with taskFreed := true })

inductive Act (n : Nat)
  | createTask (c : Fin n) (child : TaskId)
  /-- The `get_task_struct` of `sched_setaffinity` and `sched_migrate_task`. -/
  | holdTask (c : Fin n) (t : TaskId)
  /-- The `put_task_struct` of the same call. -/
  | releaseTask (c : Fin n) (t : TaskId)
  /-- `do_send_signal` to another task. -/
  | sendSignal (c : Fin n) (sig : Nat) (t : TaskId)
  /-- `do_send_signal(SIGCHLD)` and `do_exit`, up to the call of `task_do_exit`. -/
  | notifyParent (c : Fin n) (sig : Nat) (exitCode : Int)
  | taskDoExit (c : Fin n)
  | contextSwitch (c : Fin n) (next : TaskId)
  | finishTaskSwitch (c : Fin n)
  /-- `do_signal` calls `get_signal` for a task with `TIF_SIGPENDING`. -/
  | doSignal (c : Fin n)
  | getSignal (c : Fin n)
  | doDefaultSignalHandle (c : Fin n)
  deriving DecidableEq

/-- The current task of `c` executes, and it is not in `get_signal`. -/
def State.idle (s : State n) (c : Fin n) : Bool :=
  s.switching c = none ∧ (s.cur c).pc = .running ∧ (s.cur c).scan = none

/-- The pcs at which a task that is not current waits for a CPU. -/
def Pc.waits : Pc → Bool
  | .running | .notified _ | .published | .released => true
  | _ => false

/-- A task that `pick_next_task` can find. -/
def State.runnable (s : State n) (t : TaskId) : Bool :=
  (s.task t).pc.waits ∧ ∀ c, s.current c ≠ t ∧ s.switching c ≠ some t

/-- The current task of `c` calls `schedule`, or it is preempted. -/
def State.preemptible (s : State n) (c : Fin n) : Bool :=
  s.switching c = none ∧ (s.cur c).pc ≠ .unpreempted ∧ (s.cur c).pc ≠ .dead

def stepLive (s : State n) : Act n → Option (State n)
  | .createTask c child =>
    if s.idle c ∧ (s.task child).pc = .unborn then some (taskCreateTsk s (s.current c) child)
    else none
  | .holdTask c t =>
    if s.idle c ∧ (s.task t).pc ≠ .unborn ∧ (s.task t).taskFreed = false then
      some { s.set t { s.task t with usage := (s.task t).usage + 1 } with
        held := (s.current c, t) :: s.held }
    else none
  | .releaseTask c t =>
    if s.idle c ∧ (s.current c, t) ∈ s.held then
      some (putTaskStruct { s with held := s.held.erase (s.current c, t) } t)
    else none
  | .sendSignal c sig t =>
    if s.idle c ∧ (s.task t).pc ≠ .unborn ∧ (s.task t).taskFreed = false ∧ sig ≠ sigchld then
      some (s.set t { setNotifier (s.task t) sig with sigpending := true })
    else none
  | .notifyParent c sig code =>
    if s.idle c ∧ ∀ h ∈ s.held, h.1 ≠ s.current c then
      let s := s.set (s.current c) { s.cur c with pc := .notified code }
      let p := (s.cur c).parent
      some (s.set p (setNotifier (s.task p) sig))
    else none
  | .taskDoExit c => if s.switching c = none then taskDoExit s (s.current c) else none
  | .contextSwitch c next =>
    if s.preemptible c ∧ s.runnable next then
      some { s with
        current := update s.current c next
        switching := update s.switching c (some (s.current c)) }
    else none
  | .finishTaskSwitch c => (s.switching c).map (finishTaskSwitch s c)
  | .doSignal c =>
    if s.idle c ∧ (s.cur c).sigpending then
      some (s.set (s.current c) { s.cur c with scan := some 0 })
    else none
  | .getSignal c =>
    if s.switching c = none ∧ (s.cur c).reaping = [] then
      (s.cur c).scan.map fun pos => s.set (s.current c) (getSignal (s.cur c) pos)
    else none
  | .doDefaultSignalHandle c =>
    if s.switching c = none then doDefaultSignalHandle s (s.current c) else none

/-- `BUG()` stops every CPU. -/
def step (s : State n) (a : Act n) : Option (State n) :=
  if s.bug.isSome then none else stepLive s a

/-- A task as `task_create_tsk` leaves it. -/
structure Task.Fresh (x : Task) : Prop where
  pc : x.pc = .unborn ∨ x.pc = .running
  usage : x.usage = 2
  childrenExit : x.childrenExit = []
  reaping : x.reaping = []
  freed : x.mmFreed = false ∧ x.stackFreed = false ∧ x.taskFreed = false
  switchedOut : x.switchedOut = false

def machine (n : Nat) : Machine (State n) (Act n) where
  init s := (∀ t, (s.task t).Fresh) ∧ (∀ c, s.switching c = none) ∧ s.held = [] ∧ s.bug = none
  step := step

end Model

/-! ## An exit on the second of two CPUs -/

/-- Task 0 is the parent of task 3, and task 1 the idle thread of the second CPU. -/
def booted : State 2 where
  task t :=
    { pc := if t < 4 then .running else .unborn, usage := 2, parent := 0, exitCode := 0,
      children := if t = 0 then [3] else [], childrenExit := [], notifiers := fun _ => false,
      action := fun _ => .dfl, sigpending := false, scan := none, reaping := [],
      mmFreed := false, stackFreed := false, taskFreed := false, switchedOut := false }
  current c := c
  switching _ := none
  held := []
  bug := none

theorem booted_init : (machine 2).init booted := by
  refine ⟨fun t => ⟨?_, rfl, rfl, rfl, ⟨rfl, rfl, rfl⟩, rfl⟩, fun _ => rfl, rfl, rfl⟩
  by_cases ht : t < 4
  · exact .inr (if_pos ht)
  · exact .inl (if_neg ht)

/-- Task 3 runs on the second CPU and calls `do_send_signal(SIGCHLD)`. -/
def sendSigchld : List (Act 2) :=
  [.contextSwitch 1 3, .finishTaskSwitch 1, .notifyParent 1 sigchld 0]

/-- `task_do_exit` up to the switch to the idle thread. -/
def exitAndSwitch : List (Act 2) :=
  List.replicate 5 (.taskDoExit 1) ++ [.contextSwitch 1 1]

/-- The parent handles `SIGCHLD` on the first CPU, up to `kfree(tsk->stack)`. -/
def handleSigchld : List (Act 2) :=
  [.doSignal 0, .getSignal 0, .doDefaultSignalHandle 0, .doDefaultSignalHandle 0]

end MinixRt.Sched.Exit
