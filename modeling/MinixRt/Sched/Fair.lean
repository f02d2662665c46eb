import MinixRt.Lib.Machine
import MinixRt.Lib.Tree
import Mathlib.Data.BitVec

/-!
# The fair run queue

The runnable entities other than the running one are in a search tree, in the order of their
`vruntime` relative to `min_vruntime`. The tree is an arbitrary binary tree: after an insertion or
a removal it may have any shape with the same nodes in the same order.

A step is one call of the scheduling class. `task_new_fair` is the step `placeNew`, up to its call
of `enqueue_task_fair`, and the step `enqueue`; `set_user_nice` of a task on the run queue is
`dequeue`, `reweigh` and `enqueue`.
-/

namespace MinixRt.Sched

open Lib

/-! ## Entities -/

/-- `struct sched_entity`, with its `struct load_weight`. -/
structure Entity where
  vruntime : BitVec 64
  weight : Nat
  invWeight : Nat
  onRq : Bool
  execStart : BitVec 64
  sumExecRuntime : BitVec 64
  prevSumExecRuntime : BitVec 64

def maxVruntime (minVruntime vruntime : BitVec 64) : BitVec 64 :=
  if 0 < (vruntime - minVruntime).toInt then vruntime else minVruntime

def minVruntimeOf (minVruntime vruntime : BitVec 64) : BitVec 64 :=
  if (vruntime - minVruntime).toInt < 0 then vruntime else minVruntime

/-- `SRR`. -/
def shiftRightRound (x : BitVec 64) (y : Nat) : BitVec 64 := (x + 1#64 <<< (y - 1)) >>> y

/-- The `inv_weight` that `calc_delta_mine` uses and stores. -/
def invWeightOf (se : Entity) : Nat :=
  if se.invWeight = 0 then (2 ^ 32 - se.weight / 2) / se.weight + 1 else se.invWeight

/-- What `calc_delta_mine` returns. -/
def calcDeltaMine (deltaExec : BitVec 64) (weight invWeight : Nat) : BitVec 64 :=
  let tmp := deltaExec * BitVec.ofNat 64 weight
  let inv := BitVec.ofNat 64 invWeight
  let tmp :=
    if 2 ^ 32 < tmp.toNat then shiftRightRound (shiftRightRound tmp 16 * inv) 16
    else shiftRightRound (tmp * inv) 32
  if tmp.toNat < 2 ^ 63 then tmp else BitVec.ofNat 64 (2 ^ 63 - 1)

def nice0Load : Nat := 1024

/-- The weighted runtime of `__update_curr`, and the entity's `inv_weight`. -/
def deltaExecWeighted (deltaExec : BitVec 64) (se : Entity) : BitVec 64 × Nat :=
  if se.weight = nice0Load then (deltaExec, se.invWeight)
  else (calcDeltaMine deltaExec nice0Load (invWeightOf se), invWeightOf se)

/-! ## The run queue -/

/-- `struct cfs_rq` and the clock of its run queue; the entities are named by numbers. -/
structure CfsRq where
  se : Nat → Entity
  tasksTimeline : BinaryTree Nat
  rbLeftmost : Option Nat
  curr : Option Nat
  nrRunning : Nat
  load : Nat
  minVruntime : BitVec 64
  clock : BitVec 64

namespace CfsRq

def tasks (q : CfsRq) : List Nat := q.tasksTimeline.toList

def setSe (x : Nat) (f : Entity → Entity) (q : CfsRq) : CfsRq :=
  { q with se := Function.update q.se x (f (q.se x)) }

def setVruntime (x : Nat) (vruntime : BitVec 64) (q : CfsRq) : CfsRq :=
  q.setSe x ({ · with vruntime })

def entityKey (q : CfsRq) (x : Nat) : Int := ((q.se x).vruntime - q.minVruntime).toInt

/-- The descent of `__enqueue_entity`. -/
def enqueueCut (q : CfsRq) (x y : Nat) : Ordering :=
  if q.entityKey x < q.entityKey y then .lt else .gt

/-- `__enqueue_entity`, after which the tree has the given shape. -/
def enqueueTree (x : Nat) (shape : BinaryTree Unit) (q : CfsRq) : Option CfsRq :=
  (q.tasksTimeline.link (q.enqueueCut x) x).bind fun linked =>
    (BinaryTree.rebuild shape linked.toList).map fun tasksTimeline =>
      let leftmost := q.tasksTimeline.goesLeft (q.enqueueCut x)
      { q with tasksTimeline, rbLeftmost := if leftmost then some x else q.rbLeftmost }

def rbNext (x : Nat) : List Nat → Option Nat
  | [] => none
  | y :: rest => if y = x then rest.head? else rbNext x rest

/-- `__dequeue_entity`. -/
def dequeueTree (x : Nat) (shape : BinaryTree Unit) (q : CfsRq) : Option CfsRq :=
  (BinaryTree.rebuild shape (q.tasks.erase x)).map fun tasksTimeline =>
    { q with
      tasksTimeline
      rbLeftmost :=
        if q.rbLeftmost = some x then rbNext x q.tasks else q.rbLeftmost }

/-- The time of `update_curr` for the running entity. -/
def charge (q : CfsRq) (se : Entity) : Entity :=
  let deltaExec := q.clock - se.execStart
  let weighted := deltaExecWeighted deltaExec se
  { se with
    sumExecRuntime := se.sumExecRuntime + deltaExec
    vruntime := se.vruntime + weighted.1
    invWeight := weighted.2
    execStart := q.clock }

/-- The end of `__update_curr` for the running entity `c`. -/
def advanceMin (c : Nat) (q : CfsRq) : CfsRq :=
  let vruntime :=
    match q.rbLeftmost with
    | some left => minVruntimeOf (q.se c).vruntime (q.se left).vruntime
    | none => (q.se c).vruntime
  { q with minVruntime := maxVruntime q.minVruntime vruntime }

def updateCurr (q : CfsRq) : CfsRq :=
  match q.curr with
  | none => q
  | some c => (q.setSe c q.charge).advanceMin c

/-- `account_entity_enqueue`. -/
def accountEnqueue (x : Nat) (q : CfsRq) : CfsRq :=
  { q.setSe x ({ · with onRq := true }) with
    load := q.load + (q.se x).weight
    nrRunning := q.nrRunning + 1 }

/-- `account_entity_dequeue`. -/
def accountDequeue (x : Nat) (q : CfsRq) : CfsRq :=
  { q.setSe x ({ · with onRq := false }) with
    load := q.load - (q.se x).weight
    nrRunning := q.nrRunning - 1 }

def schedLatency : Nat := 20000000

def schedPeriod (nrRunning : Nat) : Nat :=
  if 5 < nrRunning then nrRunning * 4000000 else schedLatency

/-- `sched_vslice_add`; `do_div` takes 32 bits of its divisor. -/
def schedVsliceAdd (x : Nat) (q : CfsRq) : BitVec 64 :=
  BitVec.ofNat 64
    (schedPeriod (q.nrRunning + 1) * nice0Load / ((q.load + (q.se x).weight) % 2 ^ 32))

/-- `place_entity`, with the features that are enabled. -/
def placeEntity (x : Nat) (initial : Bool) (q : CfsRq) : CfsRq :=
  q.setVruntime x
    (if initial then q.minVruntime + q.schedVsliceAdd x
      else maxVruntime (q.se x).vruntime (q.minVruntime - BitVec.ofNat 64 schedLatency))

def enqueueEntity (x : Nat) (wakeup : Bool) (shape : BinaryTree Unit) (q : CfsRq) :
    Option CfsRq :=
  let q := q.updateCurr
  let q := if wakeup then q.placeEntity x false else q
  (if q.curr = some x then some q else q.enqueueTree x shape).map (accountEnqueue x)

def dequeueEntity (x : Nat) (shape : BinaryTree Unit) (q : CfsRq) : Option CfsRq :=
  let q := q.updateCurr
  (if q.curr = some x then some q else q.dequeueTree x shape).map (accountDequeue x)

/-- Entity `x` starts to run. -/
def run (x : Nat) (q : CfsRq) : CfsRq :=
  { q with curr := some x }.setSe x fun se => { se with prevSumExecRuntime := se.sumExecRuntime }

def setNextEntity (x : Nat) (shape : BinaryTree Unit) (q : CfsRq) : Option CfsRq :=
  (if (q.se x).onRq then q.dequeueTree x shape else some q).map (run x)

def putPrevEntity (x : Nat) (shape : BinaryTree Unit) (q : CfsRq) : Option CfsRq :=
  (if (q.se x).onRq then q.updateCurr.enqueueTree x shape else some q).map ({ · with curr := none })

/-- `task_new_fair` before the new task is enqueued. `here` says that the task is on the current
CPU. -/
def placeNew (x : Nat) (here : Bool) (q : CfsRq) : CfsRq :=
  let q := q.updateCurr.placeEntity x true
  match q.curr with
  | none => q
  | some c =>
    let vc := (q.se c).vruntime
    let vx := (q.se x).vruntime
    if here = true ∧ vc < vx then (q.setVruntime c vx).setVruntime x vc else q

/-- `yield_task_fair` of the running entity `c`. -/
def yieldTask (c : Nat) (batch : Bool) (q : CfsRq) : Option CfsRq :=
  if q.nrRunning = 1 then some q
  else if batch = false then some q.updateCurr
  else
    q.tasks.getLast?.map fun rightmost =>
      if (q.se rightmost).vruntime < (q.se c).vruntime then q
      else q.setVruntime c ((q.se rightmost).vruntime + 1)

end CfsRq

/-! ## Steps -/

/-- What the scheduler does with a fair run queue; a `shape` is that of the tree after the step. -/
inductive FairAct
  | clock (now : BitVec 64)
  | enqueue (x : Nat) (wakeup : Bool) (shape : BinaryTree Unit)
  | dequeue (x : Nat) (shape : BinaryTree Unit)
  | pickNext (shape : BinaryTree Unit)
  | putPrev (shape : BinaryTree Unit)
  | setCurrTask (x : Nat) (shape : BinaryTree Unit)
  | tick
  | yield (batch : Bool)
  | placeNew (x : Nat) (here : Bool)
  /-- `set_load_weight` of a task that is not on the run queue -/
  | reweigh (x weight invWeight : Nat)
  /-- a new entity, or one that comes from another run queue -/
  | arrive (x : Nat) (se : Entity)

open CfsRq

/-- The caller has the class of the running task put it back before another one is picked, and
calls each operation for a task in the state that it is for. -/
def fairStep (q : CfsRq) : FairAct → Option CfsRq
  | .clock now => some { q with clock := now }
  | .enqueue x wakeup shape => if (q.se x).onRq then some q else q.enqueueEntity x wakeup shape
  | .dequeue x shape => if (q.se x).onRq then q.dequeueEntity x shape else none
  | .pickNext shape =>
    if q.curr = none then
      if q.nrRunning = 0 then some q else q.rbLeftmost.bind fun x => q.setNextEntity x shape
    else none
  | .putPrev shape => q.curr.bind fun c => q.putPrevEntity c shape
  | .setCurrTask x shape => if q.curr = none then q.setNextEntity x shape else none
  | .tick => if q.curr = none then none else some q.updateCurr
  | .yield batch => q.curr.bind fun c => if (q.se c).onRq then q.yieldTask c batch else none
  | .placeNew x here =>
    if (q.se x).onRq = false ∧ q.curr ≠ some x then some (q.placeNew x here) else none
  | .reweigh x weight invWeight =>
    if (q.se x).onRq then none else some (q.setSe x ({ · with weight, invWeight }))
  | .arrive x se =>
    if (q.se x).onRq = false ∧ q.curr ≠ some x then some (q.setSe x fun _ => { se with onRq := false })
    else none

/-- `init_cfs_rq`. -/
def fairMachine : Machine CfsRq FairAct where
  init q :=
    q.tasksTimeline = .nil ∧ q.rbLeftmost = none ∧ q.curr = none ∧ q.nrRunning = 0 ∧ q.load = 0 ∧
      q.minVruntime = -(2 ^ 20) ∧ ∀ x, (q.se x).onRq = false
  step := fairStep

/-! ## What should hold -/

/-- The runnable entities: the running one if it is runnable, and those of the tree. -/
def CfsRq.runnable (q : CfsRq) : List Nat :=
  q.curr.toList.filter (fun c => (q.se c).onRq) ++ q.tasks

/-- All virtual runtimes are near `min_vruntime`. -/
def CfsRq.inRange (q : CfsRq) : Bool :=
  (q.tasks ++ q.curr.toList).all fun x => -2 ^ 62 ≤ q.entityKey x ∧ q.entityKey x ≤ 2 ^ 62

end MinixRt.Sched
