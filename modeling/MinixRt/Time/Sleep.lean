import MinixRt.Time.HrtimerQueue

/-!
# Sleeping with a timeout

`schedule_hrtimeout_range_clock` starts a timer on its stack, sleeps until the timer or somebody else
wakes the task up, and cancels the timer. It writes the time that is left into the variable that its
caller passes. `msleep` passes a relative time, so that the next call waits for what is left.
`usleep_range` passes an absolute time, and takes what is left for one.

One call is a machine. Beside the task, the interrupt takes steps, which runs the callback of the
timer, and so do those who wake the task up. A loop of a caller is a sequence of runs.
-/

namespace MinixRt.Time

open Lib Machine

/-! ## One call -/

/-- The arguments of `schedule_hrtimeout_range`. -/
structure SleepCall where
  expires : Int
  delta : Int
  /-- `HRTIMER_MODE_REL`, not `HRTIMER_MODE_ABS` -/
  rel : Bool

inductive SleepPc
  | enter
  | start
  | asleep
  | cancel
  | leave
  | done
  deriving DecidableEq

structure SleepState where
  /-- The monotonic clock. -/
  clock : Int
  /-- `t.timer` -/
  timer : Hrtimer
  /-- The timer is `base->running`, and whether its callback has returned. -/
  callback : Option Bool
  /-- `t.task` is not `NULL`. -/
  task : Bool
  /-- The state of the task is `TASK_RUNNING`. -/
  running : Bool
  expires : Int
  timeout : Int
  delta1 : Int
  delta2 : Int
  /-- The result is 0, not `-EINTR`. -/
  expired : Bool
  pc : SleepPc

/-- The next step of the task, on CPU `c`. -/
def taskStep (p : SleepCall) (c : Nat) (s : SleepState) : Option SleepState :=
  match s.pc with
  | .enter =>
    if s.expires = 0 then some { s with running := true, expired := true, pc := .done }
    else
      let hard := ktimeAddSafe s.expires (wrap64 p.delta)
      some { s with
        timer := ⟨some (c, clockidToBase 1 p.rel), hard, s.expires, false⟩
        delta1 := s.clock
        timeout := if p.rel then s.expires else wrap64 (s.expires - s.clock)
        pc := .start }
  | .start =>
    let soft := s.timer.softexpires
    let delta := wrap64 (s.timer.expires - soft)
    some { s with
      task := true
      timer := { s.timer with
        softexpires := startTime soft p.rel s.clock
        expires := startExpires soft delta p.rel s.clock
        enqueued := true }
      pc := .asleep }
  | .asleep => if s.task = false ∨ s.running = true then some { s with pc := .cancel } else none
  | .cancel =>
    -- `hrtimer_try_to_cancel` fails while the callback is running
    if s.callback = none then some { s with timer.enqueued := false, pc := .leave } else some s
  | .leave =>
    let elapsed := wrap64 (s.clock - s.delta1)
    some { s with
      running := true
      delta2 := s.clock
      expires := if s.timeout < elapsed then 0 else wrap64 (s.timeout - elapsed)
      expired := !s.task
      pc := .done }
  | .done => none

inductive SleepAct
  | task (c : Nat)
  /-- an explicit wake-up of the task -/
  | wakeUp
  | tick (now : Int)
  /-- `__hrtimer_run_queues` comes to the timer; `now` is what the interrupt has read -/
  | interrupt (now : Int)
  | hrtimerWakeup
  /-- the end of `__run_hrtimer` -/
  | callbackEnd

def sleepStep (p : SleepCall) (s : SleepState) : SleepAct → Option SleepState
  | .task c => taskStep p c s
  | .wakeUp => some { s with running := true }
  | .tick now => if s.clock ≤ now ∧ now < 2 ^ 63 then some { s with clock := now } else none
  | .interrupt now =>
    if s.timer.enqueued = true ∧ now ≤ s.clock ∧ s.timer.softexpires ≤ now then
      some { s with timer.enqueued := false, callback := some false }
    else none
  | .hrtimerWakeup =>
    if s.callback = some false then
      some { s with callback := some true, task := false, running := s.running || s.task }
    else none
  | .callbackEnd => if s.callback = some true then some { s with callback := none } else none

/-- The timer is neither queued nor running. -/
def SleepState.Off (s : SleepState) : Prop := s.timer.enqueued = false ∧ s.callback = none

abbrev SleepState.clockFrom (began : Int) (s : SleepState) : Prop :=
  0 ≤ s.clock ∧ s.clock < 2 ^ 63 ∧ began ≤ s.clock

/-- A call that starts at `began` or later. -/
def sleepMachine (p : SleepCall) (began : Int) : Machine SleepState SleepAct where
  init s := s.pc = .enter ∧ s.expires = p.expires ∧ s.Off ∧ s.clockFrom began
  step := sleepStep p

/-! ## What holds during a call -/

namespace SleepState

def Timed (p : SleepCall) (began : Int) (s : SleepState) : Prop :=
  began ≤ s.delta1 ∧ 0 ≤ s.delta1 ∧ s.delta1 ≤ s.clock ∧
    s.timeout = if p.rel then p.expires else p.expires - s.delta1

/-- The timer has been started, and does not expire early. -/
structure Waits (p : SleepCall) (began : Int) (s : SleepState) : Prop where
  timed : s.Timed p began
  soft : p.rel = false → s.timer.softexpires = p.expires
  due : s.callback ≠ none ∨ s.task = false → s.timer.softexpires ≤ s.clock

structure Returns (p : SleepCall) (began : Int) (s : SleepState) : Prop where
  running : s.running = true
  range : 0 ≤ s.expires ∧ s.expires < 2 ^ 63
  left : p.expires ≠ 0 → began ≤ s.delta1 ∧ s.delta2 ≤ s.clock ∧
    s.expires = max 0 ((if p.rel then p.expires else p.expires - s.delta1) - (s.delta2 - s.delta1))
  expired : p.rel = false → s.expired = true → p.expires ≤ s.clock

/-- What holds where the task is. -/
def Good (p : SleepCall) (began : Int) (s : SleepState) : Prop :=
  match s.pc with
  | .enter => s.Off ∧ s.expires = p.expires
  | .start => s.Off ∧ s.Timed p began ∧ s.timer.softexpires = p.expires
  | .asleep => s.Waits p began
  | .cancel => s.Waits p began
  | .leave => s.Off ∧ s.Waits p began
  | .done => s.Off ∧ s.Returns p began

section Call

variable {p : SleepCall} {began : Int} {s s' : SleepState}

/-- Time passes, and somebody wakes the task up. -/
theorem Good.later (h : s.Good p began) {clock : Int} (hle : s.clock ≤ clock) {running : Bool}
    (hrun : s.running = true → running = true) : { s with clock, running }.Good p began := by
  have htimed : s.Timed p began → { s with clock, running }.Timed p began :=
    fun ⟨hb, h0, hd, ht⟩ => ⟨hb, h0, hd.trans hle, ht⟩
  have hwaits : ∀ pc, s.Waits p began → { s with clock, running, pc }.Waits p began :=
    fun _ hw => ⟨htimed hw.timed, hw.soft, fun hd => (hw.due hd).trans hle⟩
  unfold Good at h ⊢
  cases hpc : s.pc <;> simp only [hpc] at h ⊢
  · exact h
  · exact ⟨h.1, htimed h.2.1, h.2.2⟩
  · exact hwaits _ h
  · exact hwaits _ h
  · exact ⟨h.1, hwaits _ h.2⟩
  · obtain ⟨hoff, hr⟩ := h
    refine ⟨hoff, hrun hr.running, hr.range, fun hne => ?_, fun hrel he => ?_⟩
    · exact (hr.left hne).imp_right fun ⟨hd, he⟩ => ⟨hd.trans hle, he⟩
    · exact (hr.expired hrel he).trans hle

/-- The timer is active only while the task waits. -/
theorem Good.waits (h : s.Good p began) (hact : ¬s.Off) :
    s.Waits p began ∧ ∀ s' : SleepState, s'.pc = s.pc → s'.Waits p began → s'.Good p began := by
  unfold Good at h
  cases hpc : s.pc <;> simp only [hpc] at h
  · exact absurd h.1 hact
  · exact absurd h.1 hact
  · refine ⟨h, fun s' hpc' hw => ?_⟩
    rwa [Good, hpc']
  · refine ⟨h, fun s' hpc' hw => ?_⟩
    rwa [Good, hpc']
  · exact absurd h.1 hact
  · exact absurd h.1 hact

theorem timeLeft_eq (timeout : Int) {elapsed : Int} (h0 : 0 ≤ elapsed) (he : elapsed < 2 ^ 63)
    (ht : timeout < 2 ^ 63) :
    (if timeout < wrap64 elapsed then 0 else wrap64 (timeout - wrap64 elapsed)) =
      max 0 (timeout - elapsed) := by
  rw [wrap64_of_lt (by omega) he]
  split_ifs
  · omega
  · rw [wrap64_of_lt (by omega) (by omega)]
    omega

theorem Good.task (h : s.Good p began) (he : 0 ≤ p.expires) (hlt : p.expires < 2 ^ 63)
    (hclock : s.clockFrom began) {c : Nat} (hs : taskStep p c s = some s') :
    s'.Good p began ∧ s'.clock = s.clock := by
  obtain ⟨h0, hmax, hbegan⟩ := hclock
  unfold taskStep at hs
  unfold Good at h
  cases hpc : s.pc <;> simp only [hpc] at hs h
  case enter =>
    obtain ⟨hoff, hexp⟩ := h
    by_cases hz : s.expires = 0
    · rw [if_pos hz] at hs
      cases hs
      refine ⟨⟨hoff, rfl, ?_, fun hne => absurd (hexp.symm.trans hz) hne, fun _ _ => ?_⟩, rfl⟩
      · simp [hz]
      · rwa [← hexp, hz]
    · rw [if_neg hz, hexp] at hs
      cases hs
      refine ⟨⟨⟨rfl, hoff.2⟩, ⟨hbegan, h0, le_rfl, ?_⟩, rfl⟩, rfl⟩
      split_ifs
      · rfl
      · exact wrap64_of_lt (by omega) (by omega)
  case start =>
    cases hs
    obtain ⟨hoff, htimed, hsoft⟩ := h
    refine ⟨⟨htimed, fun hrel => ?_, by simp [hoff.2]⟩, rfl⟩
    simp only [startTime, hrel, hsoft]
    exact wrap64_of_lt (by omega) hlt
  case asleep =>
    split_ifs at hs
    cases hs
    exact ⟨⟨h.timed, h.soft, h.due⟩, rfl⟩
  case cancel =>
    split_ifs at hs with hidle
    · cases hs
      exact ⟨⟨⟨rfl, hidle⟩, h.timed, h.soft, h.due⟩, rfl⟩
    · cases hs
      exact ⟨by rwa [Good, hpc], rfl⟩
  case leave =>
    cases hs
    obtain ⟨hoff, ⟨hb, hd0, hd, htime⟩, hsoft, hdue⟩ := h
    have hle : s.timeout < 2 ^ 63 := by
      rw [htime]
      split_ifs <;> omega
    have hexp := timeLeft_eq s.timeout (Int.sub_nonneg_of_le hd) (by omega) hle
    refine ⟨⟨hoff, rfl, ?_, fun _ => ⟨hb, le_rfl, ?_⟩, fun hrel hex => ?_⟩, rfl⟩
    · dsimp only
      rw [hexp]
      omega
    · rw [hexp, htime]
    · rw [← hsoft hrel]
      exact hdue (.inr (by simpa using hex))
  case done => cases hs

theorem Good.step (h : s.Good p began) (he : 0 ≤ p.expires) (hlt : p.expires < 2 ^ 63)
    (hclock : s.clockFrom began) {a : SleepAct} (hs : sleepStep p s a = some s') :
    s'.Good p began ∧ s'.clockFrom began := by
  cases a <;> simp only [sleepStep] at hs
  case task =>
    obtain ⟨hgood, hsame⟩ := h.task he hlt hclock hs
    exact ⟨hgood, by rwa [clockFrom, hsame]⟩
  case wakeUp =>
    cases hs
    exact ⟨h.later le_rfl fun _ => rfl, hclock⟩
  case tick =>
    split_ifs at hs with hle
    cases hs
    exact ⟨h.later hle.1 id, hclock.1.trans hle.1, hle.2, hclock.2.2.trans hle.1⟩
  case interrupt =>
    split_ifs at hs with hdue
    cases hs
    obtain ⟨hw, hgood⟩ := h.waits fun hoff => by simp [hoff.1] at hdue
    exact ⟨hgood _ rfl ⟨hw.timed, hw.soft, fun _ => hdue.2.2.trans hdue.2.1⟩, hclock⟩
  case hrtimerWakeup | callbackEnd =>
    split_ifs at hs with hcb
    cases hs
    obtain ⟨hw, hgood⟩ := h.waits fun hoff => by simp [hoff.2] at hcb
    exact ⟨hgood _ rfl ⟨hw.timed, hw.soft, fun _ => hw.due (by simp [hcb])⟩, hclock⟩

theorem returns (h : (sleepMachine p began).Reach free s) (he : 0 ≤ p.expires)
    (hlt : p.expires < 2 ^ 63) (hpc : s.pc = .done) :
    s.Off ∧ s.Returns p began ∧ s.clockFrom began := by
  have hinv : s.Good p began ∧ s.clockFrom began := by
    refine h.invariant (I := fun s => s.Good p began ∧ s.clockFrom began) ?_
      fun s a s' hs _ hstep => hs.1.step he hlt hs.2 hstep
    rintro s ⟨hpc, hexp, hoff, hclock⟩
    rw [Good, hpc]
    exact ⟨⟨hoff, hexp⟩, hclock⟩
  rw [Good, hpc] at hinv
  exact ⟨hinv.1.1, hinv.1.2, hinv.2⟩

end Call

end SleepState

/-! ## Relative times -/

def sleepBoot (expires clock : Int) : SleepState :=
  ⟨clock, ⟨none, 0, 0, false⟩, none, false, false, expires, 0, 0, 0, false, .enter⟩

/-- Somebody wakes the task up. -/
def wokenRun (now : Int) : List SleepAct :=
  [.task 0, .task 0, .tick now, .wakeUp, .task 0, .task 0, .task 0]

/-- The timer expires, and the task is woken up while the callback is running. -/
def expiredRun (now : Int) : List SleepAct :=
  [.task 0, .task 0, .tick now, .interrupt now, .wakeUp, .task 0, .task 0, .hrtimerWakeup,
    .callbackEnd, .task 0, .task 0]

theorem exists_sleep (p : SleepCall) (clock : Int) (P : SleepState → Prop) [DecidablePred P]
    (as : List SleepAct) (hclock : (sleepBoot p.expires clock).clockFrom clock)
    (h : (sleepMachine p clock).ends free P (sleepBoot p.expires clock) as = true) :
    ∃ s, (sleepMachine p clock).Reach free s ∧ P s :=
  exists_reach (.init ⟨rfl, rfl, ⟨rfl, rfl⟩, hclock⟩) as h

/-- The loop of `msleep`, from one time to another. -/
inductive MsleepLoop : Int → Int → Int → Prop
  | done {began ended : Int} (hle : began ≤ ended) : MsleepLoop 0 began ended
  | again {timeout began ended : Int} {s : SleepState} (hne : timeout ≠ 0)
    (hrun : (sleepMachine ⟨timeout, 0, true⟩ began).Reach free s) (hpc : s.pc = .done)
    (hrest : MsleepLoop s.expires s.clock ended) : MsleepLoop timeout began ended

def Msleep (msecs : Nat) : Int → Int → Prop := MsleepLoop (msecs * 1000000)

theorem MsleepLoop.le {timeout began ended : Int} (h : MsleepLoop timeout began ended)
    (h0 : 0 ≤ timeout) (hlt : timeout < 2 ^ 63) : began + timeout ≤ ended := by
  induction h with
  | done => omega
  | again hne hrun hpc hrest ih =>
    obtain ⟨-, hret, -⟩ := SleepState.returns hrun h0 hlt hpc
    obtain ⟨hb, hd, he⟩ := hret.left hne
    have hih := ih hret.range.1 hret.range.2
    simp only [if_true] at he
    omega

theorem scheduleTimeout_msleep {timeout : Int} (hpos : 0 < timeout) (hlt : timeout < 2 ^ 62) :
    (∀ began s, (sleepMachine ⟨timeout, 0, true⟩ began).Reach free s → s.pc = .done →
      s.expires = max 0 (timeout - (s.delta2 - s.delta1)) ∧ s.running = true ∧
        s.timer.enqueued = false ∧ s.callback = none) ∧
    ∀ msecs < 2 ^ 32, ∀ began ended, Msleep msecs began ended → began + msecs * 1000000 ≤ ended := by
  refine ⟨fun began s h hpc => ?_, fun msecs hm began ended h => h.le (by omega) (by omega)⟩
  obtain ⟨hoff, hret, -⟩ := SleepState.returns h hpos.le (hlt.trans (by decide)) hpc
  obtain ⟨-, -, he⟩ := hret.left hpos.ne'
  exact ⟨he, hret.running, hoff⟩

theorem scheduleTimeout_msleep_woken :
    (∃ s, (sleepMachine ⟨100, 0, true⟩ 50).Reach free s ∧ s.pc = .done ∧ s.expires = 0 ∧
      s.running = true ∧ s.timer.enqueued = false ∧ s.callback = none) ∧
    ∃ ended, Msleep 1 0 ended ∧ (1000000 : Int) ≤ ended := by
  have hspec := @scheduleTimeout_msleep 100 (by decide) (by decide)
  constructor
  · obtain ⟨s, hs, hpc, hd⟩ := exists_sleep ⟨100, 0, true⟩ 50
      (fun s => s.pc = .done ∧ s.delta2 - s.delta1 = 110) (expiredRun 160) (by decide)
      (by decide +kernel)
    obtain ⟨he, hrest⟩ := hspec.1 50 s hs hpc
    exact ⟨s, hs, hpc, by rw [he, hd]; rfl, hrest⟩
  · obtain ⟨s, hs, hpc, hclock, he⟩ := exists_sleep ⟨1000000, 0, true⟩ 0
      (fun s => s.pc = .done ∧ s.clock = 400000 ∧ s.expires = 600000) (wokenRun 400000)
      (by decide) (by decide +kernel)
    obtain ⟨t, ht, hpc', he'⟩ := exists_sleep ⟨600000, 0, true⟩ 400000
      (fun s => s.pc = .done ∧ s.expires = 0) (expiredRun 1000005) (by decide) (by decide +kernel)
    have hloop : Msleep 1 0 t.clock := by
      refine .again (by decide) hs hpc ?_
      rw [he, hclock]
      exact .again (by decide) ht hpc' (he' ▸ .done le_rfl)
    exact ⟨t.clock, hloop, hspec.2 1 (by decide) 0 _ hloop⟩

/-! ## Absolute times -/

/-- The loop of `usleep_range`; an attempt that fails ends at a time with `ok`. -/
inductive UsleepLoop (ok : Int → Prop) (delta : Int) : Int → Int → Int → Prop
  | done {exp began : Int} {s : SleepState}
    (hrun : (sleepMachine ⟨exp, delta, false⟩ began).Reach free s) (hpc : s.pc = .done)
    (hret : s.expired = true) : UsleepLoop ok delta exp began s.clock
  | again {exp began ended : Int} {s : SleepState}
    (hrun : (sleepMachine ⟨exp, delta, false⟩ began).Reach free s) (hpc : s.pc = .done)
    (hret : s.expired = false) (hok : ok s.clock)
    (hrest : UsleepLoop ok delta s.expires s.clock ended) : UsleepLoop ok delta exp began ended

/-- `usleep_range`, called when the clock shows `began`. -/
def UsleepRange (ok : Int → Prop) (min max : Nat) (began ended : Int) : Prop :=
  UsleepLoop ok ((max - min) * 1000) (wrap64 (began + min * 1000)) began ended

theorem UsleepLoop.le {goal delta exp began ended : Int}
    (h : UsleepLoop (goal ≤ ·) delta exp began ended) (h0 : 0 ≤ exp) (hlt : exp < 2 ^ 63)
    (hgoal : exp = goal ∨ goal ≤ began) : goal ≤ ended := by
  induction h with
  | done hrun hpc hret =>
    obtain ⟨-, hr, hclock⟩ := SleepState.returns hrun h0 hlt hpc
    have hle := hr.expired rfl hret
    dsimp only at hle
    omega
  | again hrun hpc hret hok hrest ih =>
    obtain ⟨-, hr, -⟩ := SleepState.returns hrun h0 hlt hpc
    exact ih hr.range.1 hr.range.2 (.inr hok)

/-- No attempt ends before the time without the timer. -/
theorem usleepRange_sleeps {min max : Nat} {began ended : Int} (h0 : 0 ≤ began)
    (hfit : began + min * 1000 < 2 ^ 63)
    (h : UsleepRange (began + min * 1000 ≤ ·) min max began ended) :
    began + min * 1000 ≤ ended := by
  rw [UsleepRange, wrap64_of_lt (by omega) hfit] at h
  exact h.le (by omega) hfit (.inl rfl)

theorem usleepRange_sleeps_late :
    ∃ ended, UsleepRange (1000 + 10 * 1000 ≤ ·) 10 20 1000 ended ∧ (11000 : Int) ≤ ended := by
  obtain ⟨s, hs, hpc, hret⟩ := exists_sleep ⟨11000, 10000, false⟩ 1000
    (fun s => s.pc = .done ∧ s.expired = true) (expiredRun 12000) (by decide) (by decide +kernel)
  have hloop : UsleepRange (1000 + 10 * 1000 ≤ ·) 10 20 1000 s.clock := .done hs hpc hret
  exact ⟨s.clock, hloop, @usleepRange_sleeps 10 20 1000 _ (by decide) (by decide) hloop⟩

/-- Somebody wakes the task up after one of ten microseconds. What is left, 9000, is the time at
which the next attempt ends, after eight. -/
theorem usleepRange_early :
    UsleepRange (fun _ => True) 10 20 1000 9000 ∧ (9000 : Int) < 1000 + 10 * 1000 := by
  obtain ⟨s, hs, hpc, hclock, he, hret⟩ := exists_sleep ⟨11000, 10000, false⟩ 1000
    (fun s => s.pc = .done ∧ s.clock = 2000 ∧ s.expires = 9000 ∧ s.expired = false) (wokenRun 2000)
    (by decide) (by decide +kernel)
  obtain ⟨t, ht, hpc', hclock', hret'⟩ := exists_sleep ⟨9000, 10000, false⟩ 2000
    (fun s => s.pc = .done ∧ s.clock = 9000 ∧ s.expired = true) (expiredRun 9000) (by decide)
    (by decide +kernel)
  have hrest : UsleepLoop (fun _ => True) 10000 9000 2000 t.clock := .done ht hpc' hret'
  refine ⟨.again hs hpc hret trivial ?_, by decide⟩
  rw [hclock'] at hrest
  rw [he, hclock]
  exact hrest

end MinixRt.Time
