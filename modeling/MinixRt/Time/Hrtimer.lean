import MinixRt.Lib.Machine
import Mathlib.Algebra.Order.Ring.Int

/-!
# High-resolution timers and the clock event device

Every CPU has two queues of timers, in the order of their expiry, and a clock event device that is
programmed for the first of them. A timer belongs to the CPU on which it was initialised. The calls
`hrtimer_start_range_ns`, `hrtimer_try_to_cancel` and the parts of `hrtimer_interrupt` between which
it gives up the lock are single steps; a CPU inside the interrupt does nothing else, except in the
callback of a timer.

Whether a timer is programmed depends on the cached `expires_next`, which only the CPU of the queue
itself updates: a timer that another CPU starts is queued and not programmed.
-/

namespace MinixRt.Time

open Function Lib Machine

/-! ## Times -/

/-- A `ktime_t` has 64 bits. -/
def wrap64 (x : Int) : Int := x.bmod (2 ^ 64)

def ktimeMax : Int := 2 ^ 63 - 1

/-- `ktime_add_safe`; `ktime_set` makes `KTIME_MAX` of `KTIME_SEC_MAX` seconds. -/
def ktimeAddSafe (lhs rhs : Int) : Int :=
  let res := wrap64 (lhs + rhs)
  if res < 0 ∨ res < lhs ∨ res < rhs then ktimeMax else res

/-! ## Timers and queues -/

/-- `enum hrtimer_base_type`. -/
inductive HrBase
  | monotonic
  | realtime
  deriving DecidableEq

/-- `struct hrtimer`; the base is a CPU and one of its clock bases. -/
structure Hrtimer where
  base : Option (Nat × HrBase)
  expires : Int
  softexpires : Int
  enqueued : Bool

/-- `struct hrtimer_clock_base`, with the timers of its queue in order. -/
structure ClockBase where
  active : List Nat
  running : Option Nat
  offset : Int

structure CpuBase where
  activeBases : HrBase → Bool
  inHrtirq : Bool
  hangDetected : Bool
  expiresNext : Int
  nextTimer : Option Nat
  clockBase : HrBase → ClockBase

/-- What an operation on the timers of one CPU sees: all timers, the CPU's base and the time for
which its clock event device is programmed. -/
structure CpuView where
  timer : Nat → Hrtimer
  cpuBase : CpuBase
  dev : Int

def timerqueueAdd (expires : Nat → Int) (t : Nat) : List Nat → List Nat
  | [] => [t]
  | ptr :: rest =>
    if expires t < expires ptr then t :: ptr :: rest else ptr :: timerqueueAdd expires t rest

/-- What `timerqueue_add` returns. -/
def isFirst (expires : Nat → Int) (t : Nat) : List Nat → Bool
  | [] => true
  | next :: _ => expires t < expires next

namespace CpuView

def queue (v : CpuView) (b : HrBase) : List Nat := (v.cpuBase.clockBase b).active

def offset (v : CpuView) (b : HrBase) : Int := (v.cpuBase.clockBase b).offset

def setTimer (t : Nat) (f : Hrtimer → Hrtimer) (v : CpuView) : CpuView :=
  { v with timer := update v.timer t (f (v.timer t)) }

def setState (t : Nat) (enqueued : Bool) (v : CpuView) : CpuView :=
  v.setTimer t ({ · with enqueued })

def setExpires (t : Nat) (softexpires expires : Int) (v : CpuView) : CpuView :=
  v.setTimer t ({ · with softexpires, expires })

def setClockBase (b : HrBase) (f : ClockBase → ClockBase) (v : CpuView) : CpuView :=
  { v with cpuBase.clockBase :=
      update v.cpuBase.clockBase b (f (v.cpuBase.clockBase b)) }

/-- A forced `tick_program_event` programs the time or an earlier one. -/
def tickProgramEvent (expires early : Int) (v : CpuView) : CpuView :=
  { v with dev := min early expires }

/-- The bases of `for_each_active_base`. -/
def activeList (v : CpuView) : List HrBase :=
  [.monotonic, .realtime].filter v.cpuBase.activeBases

/-- One round of `__hrtimer_next_event_base`. -/
def nextEventBase (v : CpuView) (next : Int × Option Nat) (b : HrBase) : Int × Option Nat :=
  match v.queue b with
  | [] => next
  | t :: _ =>
    let expires := wrap64 ((v.timer t).expires - v.offset b)
    if expires < next.1 then (expires, some t) else next

/-- `__hrtimer_get_next_event`: the time, and the timer that becomes `next_timer`. -/
def getNextEvent (v : CpuView) : Int × Option Nat :=
  let next := v.activeList.foldl v.nextEventBase (ktimeMax, none)
  (if next.1 < 0 then 0 else next.1, next.2)

/-- `hrtimer_force_reprogram` with `skip_equal`. -/
def forceReprogram (early : Int) (v : CpuView) : CpuView :=
  let next := v.getNextEvent
  let w := { v with cpuBase.nextTimer := next.2 }
  if next.1 = v.cpuBase.expiresNext then w
  else
    let w := { w with cpuBase.expiresNext := next.1 }
    if v.cpuBase.hangDetected then w else w.tickProgramEvent next.1 early

/-- `timerqueue_del`, and what `__remove_hrtimer` does with its result. -/
def timerqueueDel (t : Nat) (b : HrBase) (v : CpuView) : CpuView :=
  let active := (v.queue b).filter (· ≠ t)
  let w := v.setClockBase b ({ · with active })
  if active = [] then
    { w with cpuBase.activeBases := update w.cpuBase.activeBases b false }
  else w

/-- `__remove_hrtimer`. -/
def removeTimer (t : Nat) (b : HrBase) (newstate reprogram : Bool) (early : Int) (v : CpuView) :
    CpuView :=
  let w := v.setState t newstate
  if (v.timer t).enqueued then
    let w := w.timerqueueDel t b
    if reprogram = true ∧ w.cpuBase.nextTimer = some t then w.forceReprogram early else w
  else w

/-- `remove_hrtimer`; `here` says that the timer is on the current CPU. -/
def removeHrtimer (t : Nat) (b : HrBase) (here restart : Bool) (early : Int) (v : CpuView) :
    CpuView :=
  if (v.timer t).enqueued then v.removeTimer t b restart here early else v

def enqueueHrtimer (t : Nat) (b : HrBase) (v : CpuView) : CpuView :=
  let w := v.setState t true
  let w := { w with cpuBase.activeBases := update w.cpuBase.activeBases b true }
  w.setClockBase b fun cb =>
    { cb with active := timerqueueAdd (fun u => (v.timer u).expires) t cb.active }

def reprogram (t : Nat) (b : HrBase) (here : Bool) (early : Int) (v : CpuView) : CpuView :=
  let expires := wrap64 ((v.timer t).expires - v.offset b)
  let expires := if expires < 0 then 0 else expires
  if here = false then v
  else if v.cpuBase.inHrtirq then v
  else if v.cpuBase.expiresNext ≤ expires then v
  else
    let w := { v with cpuBase := { v.cpuBase with nextTimer := some t, expiresNext := expires } }
    if v.cpuBase.hangDetected then w else w.tickProgramEvent expires early

/-- `__hrtimer_start_range_ns`, before the timer is queued. -/
def unqueue (t : Nat) (b : HrBase) (here : Bool) (softexpires expires early : Int) (v : CpuView) :
    CpuView :=
  (v.removeHrtimer t b here true early).setExpires t softexpires expires

/-- `hrtimer_start_range_ns`, with the expiry times it has computed. -/
def start (t : Nat) (b : HrBase) (here : Bool) (softexpires expires early early' : Int)
    (v : CpuView) : CpuView :=
  let v := v.unqueue t b here softexpires expires early
  let first := isFirst (fun u => (v.timer u).expires) t (v.queue b)
  let v := v.enqueueHrtimer t b
  if first then v.reprogram t b here early' else v

/-- `hrtimer_update_base`, and the start of a pass over the queues. -/
def updateBase (offs : Int) (v : CpuView) : CpuView :=
  v.setClockBase .realtime ({ · with offset := wrap64 offs })

def enterIrq (v : CpuView) : CpuView :=
  { v with cpuBase := { v.cpuBase with inHrtirq := true, expiresNext := ktimeMax } }

end CpuView

def hrtimerForward (now interval : Int) (timer : Hrtimer) : Hrtimer :=
  let delta := wrap64 (now - timer.expires)
  let interval := if interval < 1 then 1 else interval
  let addExpires (timer : Hrtimer) : Hrtimer :=
    { timer with
      expires := ktimeAddSafe timer.expires interval
      softexpires := ktimeAddSafe timer.softexpires interval }
  if delta < 0 ∨ timer.enqueued = true then timer
  else if interval ≤ delta then
    let ns := interval * (delta / interval)
    let timer :=
      { timer with
        expires := wrap64 (timer.expires + ns), softexpires := wrap64 (timer.softexpires + ns) }
    if now < timer.expires then timer else addExpires timer
  else addExpires timer

/-- What `hrtimer_forward` returns, by how many intervals it has moved the timer. -/
def hrtimerForwardOverruns (now interval : Int) (timer : Hrtimer) : Int :=
  let delta := wrap64 (now - timer.expires)
  let interval := if interval < 1 then 1 else interval
  if delta < 0 ∨ timer.enqueued = true then 0
  else if interval ≤ delta then
    let orun := delta / interval
    if now < wrap64 (timer.expires + interval * orun) then orun else orun + 1
  else 1

/-! ## The CPUs -/

/-- The local variables of `hrtimer_interrupt`. -/
structure Irq where
  now : Int
  entryTime : Int
  retries : Nat
  deriving DecidableEq

/-- Where a CPU is in `hrtimer_interrupt`. -/
inductive HrPc
  | idle
  /-- in `__hrtimer_run_queues`, with the lock -/
  | scan (irq : Irq) (bases : List HrBase)
  /-- in the callback of a timer, without the lock -/
  | callback (irq : Irq) (bases : List HrBase) (b : HrBase) (t : Nat)
  /-- before `tick_program_event` -/
  | program (irq : Irq) (expiresNext : Int)
  /-- after it has failed -/
  | failed (irq : Irq)
  deriving DecidableEq

structure HrState where
  timer : Nat → Hrtimer
  cpu : Nat → CpuBase
  pc : Nat → HrPc
  dev : Nat → Int

namespace HrState

def view (s : HrState) (c : Nat) : CpuView := ⟨s.timer, s.cpu c, s.dev c⟩

def put (s : HrState) (c : Nat) (v : CpuView) : HrState :=
  { s with
    timer := v.timer
    cpu := update s.cpu c v.cpuBase
    dev := update s.dev c v.dev }

def goto (s : HrState) (c : Nat) (pc : HrPc) : HrState :=
  { s with pc := update s.pc c pc }

/-- The CPU runs code that can call the timer functions. -/
def mayCall (s : HrState) (c : Nat) : Bool :=
  match s.pc c with
  | .idle => true
  | .callback .. => true
  | _ => false

/-- The interrupt of the CPU holds the lock of its base. -/
def locked (s : HrState) (c : Nat) : Bool :=
  match s.pc c with
  | .scan .. => true
  | _ => false

def callbackRunning (s : HrState) (t : Nat) : Bool :=
  (s.timer t).base.any fun p => ((s.cpu p.1).clockBase p.2).running = some t

end HrState

/-- `__hrtimer_init`: `CLOCK_REALTIME` is 0, and an unknown clock is taken as the monotonic one. -/
def clockidToBase (clockId : Nat) (rel : Bool) : HrBase :=
  if clockId = 0 ∧ rel = false then .realtime else .monotonic

/-- A CPU, and what it does. `early` is the time that a forced `tick_program_event` programs, if it
is earlier than the one given. -/
inductive HrAct
  | init (c t clockId : Nat) (rel : Bool)
  | start (c t : Nat) (tim deltaNs : Int) (rel : Bool) (getTime early early' : Int)
  | tryToCancel (c t : Nat) (early : Int)
  | forward (c t : Nat) (now interval : Int)
  /-- the clock event device fires -/
  | interrupt (c : Nat) (now offs : Int)
  /-- the next thing that `__hrtimer_run_queues` does -/
  | scan (c : Nat)
  /-- the callback returns -/
  | callbackEnd (c : Nat) (restart : Bool)
  /-- `tick_program_event` without force, and whether it succeeds -/
  | program (c : Nat) (ok : Bool) (early : Int)
  | retry (c : Nat) (now offs early : Int)

/-- The expiry that `__hrtimer_start_range_ns` sets. -/
def startTime (tim : Int) (rel : Bool) (getTime : Int) : Int :=
  if rel then ktimeAddSafe (wrap64 tim) (wrap64 getTime) else wrap64 tim

def startExpires (tim deltaNs : Int) (rel : Bool) (getTime : Int) : Int :=
  ktimeAddSafe (startTime tim rel getTime) (wrap64 deltaNs)

/-- A step of the scan over the queues, or what follows its end. -/
def scanStep (irq : Irq) (v : CpuView) : List HrBase → CpuView × HrPc
  | [] =>
    let next := v.getNextEvent
    ({ v with cpuBase :=
        { v.cpuBase with nextTimer := next.2, expiresNext := next.1, inHrtirq := false } },
      .program irq next.1)
  | b :: rest =>
    match v.queue b with
    | [] => (v, .scan irq rest)
    | t :: _ =>
      if wrap64 (irq.now + v.offset b) < (v.timer t).softexpires then (v, .scan irq rest)
      else
        ((v.setClockBase b ({ · with running := some t })).removeTimer t b false false 0,
          .callback irq (b :: rest) b t)

/-- The end of `__run_hrtimer`. -/
def endCallback (t : Nat) (b : HrBase) (restart : Bool) (v : CpuView) : CpuView :=
  let w := if restart = true ∧ (v.timer t).enqueued = false then v.enqueueHrtimer t b else v
  w.setClockBase b ({ · with running := none })

/-- What follows a failed `tick_program_event`. -/
def retryStep (irq : Irq) (now offs early : Int) (v : CpuView) : CpuView × HrPc :=
  let v := v.updateBase offs
  if irq.retries + 1 < 3 then
    (v.enterIrq, .scan ⟨wrap64 now, irq.entryTime, irq.retries + 1⟩ v.activeList)
  else
    let delta := wrap64 (now - irq.entryTime)
    let expiresNext :=
      if 100000000 < delta then wrap64 (now + 100000000) else wrap64 (now + delta)
    ({ v with cpuBase.hangDetected := true }.tickProgramEvent expiresNext early, .idle)

def hrStep (s : HrState) : HrAct → Option HrState
  | .init c t clockId rel =>
    -- `memset` of a queued timer would destroy the queue
    if s.mayCall c = true ∧ (s.timer t).enqueued = false ∧ s.callbackRunning t = false then
      let timer : Hrtimer := ⟨some (c, clockidToBase clockId rel), 0, 0, false⟩
      some { s with timer := update s.timer t timer }
    else none
  | .start c t tim deltaNs rel getTime early early' =>
    (s.timer t).base.bind fun p =>
      if s.mayCall c = true ∧ s.locked p.1 = false then
        some (s.put p.1 ((s.view p.1).start t p.2 (p.1 = c) (startTime tim rel getTime)
          (startExpires tim deltaNs rel getTime) early early'))
      else none
  | .tryToCancel c t early =>
    (s.timer t).base.bind fun p =>
      if s.mayCall c = true ∧ s.locked p.1 = false then
        if s.callbackRunning t = true then some s
        else some (s.put p.1 ((s.view p.1).removeHrtimer t p.2 (p.1 = c) false early))
      else none
  | .forward c t now interval =>
    if s.mayCall c = true then
      some { s with
        timer := update s.timer t
          (hrtimerForward (wrap64 now) (wrap64 interval) (s.timer t)) }
    else none
  | .interrupt c now offs =>
    match s.pc c with
    | .idle =>
      let v := { s.view c with dev := ktimeMax }.updateBase offs
      some ((s.put c v.enterIrq).goto c (.scan ⟨wrap64 now, wrap64 now, 0⟩ v.activeList))
    | _ => none
  | .scan c =>
    match s.pc c with
    | .scan irq bases =>
      some ((s.put c (scanStep irq (s.view c) bases).1).goto c (scanStep irq (s.view c) bases).2)
    | _ => none
  | .callbackEnd c restart =>
    match s.pc c with
    | .callback irq bases b t =>
      some ((s.put c (endCallback t b restart (s.view c))).goto c (.scan irq bases))
    | _ => none
  | .program c ok early =>
    match s.pc c with
    | .program irq expiresNext =>
      if ok then
        let v := { s.view c with cpuBase.hangDetected := false }
        some ((s.put c (v.tickProgramEvent expiresNext early)).goto c .idle)
      else some (s.goto c (.failed irq))
    | _ => none
  | .retry c now offs early =>
    match s.pc c with
    | .failed irq =>
      let r := retryStep irq now offs early (s.view c)
      some ((s.put c r.1).goto c r.2)
    | _ => none

/-- `hrtimers_prepare_cpu` has run on every CPU, and no timer is initialised. -/
def hrMachine : Machine HrState HrAct where
  init s :=
    (∀ c b, ((s.cpu c).clockBase b).active = [] ∧ ((s.cpu c).clockBase b).offset = 0) ∧
    (∀ c, (s.cpu c).inHrtirq = false ∧ (s.cpu c).expiresNext = ktimeMax ∧ s.dev c ≤ ktimeMax ∧
      s.pc c = .idle) ∧
    ∀ t, (s.timer t).base = none ∧ (s.timer t).expires = 0
  step := hrStep

/-! ## What should hold, and when -/

/-- The expiry of a queued timer on the monotonic clock. -/
def CpuView.key (v : CpuView) (b : HrBase) (t : Nat) : Int :=
  max 0 ((v.timer t).expires - v.offset b)

/-- A timer is started on the CPU that it was initialised on; or another CPU's interrupt is looking
at its queues, the device of that CPU is held back by a hang, or it is programmed early enough. -/
def HrAct.startsHome (s : HrState) : HrAct → Bool
  | .start c t tim deltaNs rel getTime _ _ =>
    (s.timer t).base.all fun p =>
      p.1 = c ∨ (s.cpu p.1).inHrtirq = true ∨
        ((s.cpu p.1).hangDetected = true ∧ s.mayCall p.1 = true) ∨
        (s.cpu p.1).expiresNext ≤
          max 0 (startExpires tim deltaNs rel getTime - (s.view p.1).offset p.2)
  | _ => true

end MinixRt.Time
