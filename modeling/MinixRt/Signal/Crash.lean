import MinixRt.Signal.Reaper
import MinixRt.Signal.Notifier
import Mathlib.Data.BitVec

/-!
# Notifier calls and the assertions of the kernel

Several tasks call `notifier` with any arguments and handle their pending notifiers on the
way back to user mode. Sending `SIGCHLD` ends the calling task: `do_send_signal` asserts
that it has a parent, sets the parent's notifier and calls `task_do_exit` with the private
value, cut to an `int`, as exit code. The parent's `do_default_signal_handle` asserts that
the exit codes of its exited children are zero. Both assertions are in the hands of the
caller; `notifiers_never_crash` is about the runs in which `SIGCHLD` is only sent by tasks
with a parent and with a private value that cuts to zero.

A call is one step, except that the exit of a task is cut where the parent can see it, and
`get_signal` is one step for each notifier. The final `schedule()` of an exiting task does
not return.
-/

namespace MinixRt.Signal

open Function Lib
open Option (map_eq_some_iff)

/-! ## Tasks that call `notifier` -/

inductive TaskPc
  | running
  /-- The parent's notifier is set, `task_do_exit` comes next. -/
  | exiting (flags : Int)
  /-- On the list of the parent, the parent's `TIF_SIGPENDING` comes next. -/
  | exited
  /-- After the final `schedule()`. -/
  | gone
  /-- In `get_signal`, which looks for the next notifier from `pos` on. -/
  | scan (pos : Nat)
  deriving DecidableEq

inductive BugSite
  | doSendSignal
  | doDefaultSignalHandle
  deriving DecidableEq

structure Notifying (n : Nat) where
  family : Family n
  notifier : Fin n → NotifierStruct
  sigpending : Fin n → Bool
  pid : Fin n → Int
  pc : Fin n → TaskPc
  bug : Option BugSite

/-- The arguments of the system call `notifier`. -/
structure NotifierArgs where
  table : Int
  notifier : Nat
  fn : Nat
  pid : Int
  priv : BitVec 64
  returnFn : Nat

namespace Notifying

variable {n : Nat}

def setNotifier (s : Notifying n) (t : Fin n) (x : NotifierStruct) : Notifying n :=
  { s with notifier := update s.notifier t x }

def setPc (s : Notifying n) (t : Fin n) (pc : TaskPc) : Notifying n :=
  { s with pc := update s.pc t pc }

def pidFindProcessByPid (s : Notifying n) (pid : Int) : Option (Fin n) :=
  (List.finRange n).find? fun t => decide ((s.family.task t).life ≠ .free) && s.pid t == pid

/-- `(int)private`. -/
def intOfLong (v : BitVec 64) : Int := (v.truncate 32).toInt

/-- `do_send_signal` of the task `cur`, up to the call of `task_do_exit`. -/
def doSendSignal (s : Notifying n) (cur : Fin n) (signal : NotifierId) (pid : Int)
    (priv : BitVec 64) : Except Errno Unit × Notifying n :=
  if signal.val = sigchld then
    match (s.family.task cur).parent with
    | none => (.ok (), { s with bug := some .doSendSignal })
    | some p =>
      let s := s.setNotifier p ((s.notifier p).setNotifier signal)
      (.ok (), s.setPc cur (.exiting (intOfLong priv)))
  else
    match s.pidFindProcessByPid pid with
    | none => (.error .einval, s)
    | some t =>
      let x := { s.notifier t with
        priv := update (s.notifier t).priv signal priv
        pid := update (s.notifier t).pid signal (s.pid cur) }
      let s := s.setNotifier t (x.setNotifier signal)
      (.ok (), { s with sigpending := update s.sigpending t true })

/-- The system call `notifier`: 0 registers a handler, 1 removes one, 2 sends. -/
def notifierCall (s : Notifying n) (cur : Fin n) (args : NotifierArgs) :
    Except Errno Unit × Notifying n :=
  if h : args.notifier < notifierNrMax then
    let k : NotifierId := ⟨args.notifier, h⟩
    if args.table = 0 then
      let (ret, x) := (s.notifier cur).notifierRegiserFn k args.fn args.returnFn
      (ret, s.setNotifier cur x)
    else if args.table = 1 then
      (.ok (), s.setNotifier cur ((s.notifier cur).notifierRemoveFn k))
    else if args.table = 2 then
      if args.notifier < sigrtmax then s.doSendSignal cur k args.pid args.priv
      else (.ok (), s)
    else (.error .einval, s)
  else (.error .einval, s)

/-- One round of the loop of `get_signal`; `fuel` bounds the loops of
`do_default_signal_handle`. -/
def getSignal (s : Notifying n) (cur : Fin n) (pos fuel : Nat) : Option (Notifying n) :=
  let clearFlag (s : Notifying n) : Notifying n :=
    { s with sigpending := update s.sigpending cur false }
  match (s.notifier cur).notifierTableNext pos with
  | none => some ((clearFlag s).setPc cur .running)
  | some k =>
    let x := (s.notifier cur).clearNotifier k
    let s := s.setNotifier cur x
    let s := if x.IsEmpty then clearFlag s else s
    match disposition (x.action k) with
    | .ign => some (s.setPc cur (.scan (k.val + 1)))
    | .dfl =>
      match s.family.doDefaultSignalHandle fuel cur with
      | some .bug => some { s with bug := some .doDefaultSignalHandle }
      | some (.done f) => some ({ s with family := f }.setPc cur (.scan (k.val + 1)))
      | some .fault | none => none
    | .handler => some ((clearFlag s).setPc cur .running)

end Notifying

inductive NotifyingAct (n : Nat)
  | doFork (cur t : Fin n) (pid : Int)
  | notifier (cur : Fin n) (args : NotifierArgs)
  | taskDoExit (t : Fin n)
  | flagParent (t : Fin n)
  /-- `do_signal` calls `get_signal`. -/
  | doSignal (cur : Fin n)
  | getSignal (cur : Fin n) (fuel : Nat)

namespace Notifying

variable {n : Nat} {s s' : Notifying n}

def stepLive (s : Notifying n) : NotifyingAct n → Option (Notifying n)
  | .doFork cur t pid =>
    if s.pc cur = .running ∧ (s.family.task t).life = .free ∧ s.pc t = .gone then
      some { s with
        family := s.family.doFork cur t
        notifier := update s.notifier t .zero
        sigpending := update s.sigpending t false
        pid := update s.pid t pid
        pc := update s.pc t .running }
    else none
  | .notifier cur args => if s.pc cur = .running then some (s.notifierCall cur args).2 else none
  | .taskDoExit t =>
    match s.pc t with
    | .exiting flags => (s.family.taskDoExit t flags).map fun f =>
        { s with family := f }.setPc t .exited
    | _ => none
  | .flagParent t =>
    if s.pc t = .exited then
      (s.family.task t).parent.map fun p =>
        { s with sigpending := update s.sigpending p true }.setPc t .gone
    else none
  | .doSignal cur =>
    if s.pc cur = .running ∧ s.sigpending cur then some (s.setPc cur (.scan 0)) else none
  | .getSignal cur fuel =>
    match s.pc cur with
    | .scan pos => s.getSignal cur pos fuel
    | _ => none

/-- `BUG()` stops the kernel. -/
def step (s : Notifying n) (a : NotifyingAct n) : Option (Notifying n) :=
  if s.bug.isSome then none else s.stepLive a

structure Initial (s : Notifying n) : Prop where
  bug : s.bug = none
  exitCode : ∀ t, (s.family.task t).exitCode = 0
  pc : ∀ t, s.pc t = .running ∨ s.pc t = .gone

end Notifying

def notifyingMachine (n : Nat) : Machine (Notifying n) (NotifyingAct n) where
  init := Notifying.Initial
  step := Notifying.step

/-! ## Exit codes in the lists -/

namespace Family

variable {n : Nat} {s s' : Family n} {cur t : Fin n}

def CleanExits (s : Family n) : Prop := ∀ t, (s.task t).exitCode = 0

variable (h : s.CleanExits)
include h

theorem CleanExits.setTask {v : Member n} (hv : v.exitCode = 0) : (s.setTask t v).CleanExits := by
  intro u
  rw [setTask_task]
  split
  · exact hv
  · exact h u

variable {pos : Node n} {fuel : Nat}

theorem CleanExits.adopt (hs : adopt cur t fuel s pos = some (.done s')) : s'.CleanExits := by
  fun_induction Family.adopt cur t fuel s pos with
  | case1 => cases hs
  | case2 =>
    cases hs
    exact h
  | case3 fuel s child _ s1 s2 ih => exact ih (CleanExits.setTask h (h child)) hs
  | case4 fuel s w u _ s1 ih => exact ih h hs
  | case5 => cases hs
  | case6 => cases hs

omit h in
theorem adopt_ne_bug : adopt cur t fuel s pos ≠ some .bug := by
  fun_induction Family.adopt cur t fuel s pos with
  | case3 fuel s child _ s1 s2 ih => exact ih
  | case4 fuel s w u _ s1 ih => exact ih
  | _ => simp

theorem CleanExits.reap (fuel : Nat) (cur t : Fin n) : reap fuel s cur t ≠ some .bug ∧
      ∀ s', reap fuel s cur t = some (.done s') → s'.CleanExits := by
  rw [Family.reap, if_neg (not_not.mpr (h t))]
  refine ⟨?_, ?_⟩
  · intro hbug
    obtain ⟨o, ho, heq⟩ := map_eq_some_iff.mp hbug
    cases o with
    | bug => exact adopt_ne_bug ho
    | fault | done s1 => cases heq
  · intro s' hdone
    obtain ⟨o, ho, heq⟩ := map_eq_some_iff.mp hdone
    cases o with
    | bug | fault => cases heq
    | done =>
      cases heq
      have h1 := h.adopt ho
      exact CleanExits.setTask h1 (h1 t)

theorem CleanExits.reapLoop (cur : Fin n) (fuel : Nat) {pos nxt : Node n} :
    reapLoop cur fuel s pos nxt ≠ some .bug ∧
      ∀ s', reapLoop cur fuel s pos nxt = some (.done s') → s'.CleanExits := by
  fun_induction Family.reapLoop cur fuel s pos nxt with
  | case1 => simp
  | case2 fuel s nxt tsk ih =>
    obtain ⟨hne, hdone⟩ := h.reap (fuel + 1) cur tsk
    cases ho : Family.reap (fuel + 1) s cur tsk with
    | none => simp
    | some o =>
      cases o with
      | bug => exact absurd ho hne
      | fault => simp
      | done s1 => exact ih s1 (hdone s1 ho)
  | case3 =>
    refine ⟨by simp, ?_⟩
    intro s' hs'
    cases hs'
    exact h
  | case4 => simp

theorem CleanExits.doFork : (s.doFork cur t).CleanExits := by
  intro u
  by_cases hut : u = t
  · simp [Family.doFork, Family.taskCreateTsk, hut]
  · simpa [Family.doFork, Family.taskCreateTsk, hut] using h u

theorem CleanExits.taskDoExit (hs : s.taskDoExit t 0 = some s') : s'.CleanExits := by
  obtain ⟨p, -, rfl⟩ := map_eq_some_iff.mp hs
  exact CleanExits.setTask h rfl

end Family

/-! ## Runs -/

namespace Notifying

variable {n : Nat} {s s' : Notifying n} {cur : Fin n}

/-- `SIGCHLD` is only sent by a task with a parent, with a private value that cuts to zero. -/
def SendsCleanly (s : Notifying n) : NotifyingAct n → Prop
  | .notifier cur args => args.table = 2 → args.notifier = sigchld →
      intOfLong args.priv = 0 ∧ (s.family.task cur).parent ≠ none
  | _ => True

/-- No assertion has failed and no exit code, stored or on its way, is other than zero. -/
structure Safe (s : Notifying n) : Prop where
  bug : s.bug = none
  exits : s.family.CleanExits
  exiting : ∀ t flags, s.pc t = .exiting flags → flags = 0

theorem Safe.setPc (h : s.Safe) {t : Fin n} {pc : TaskPc}
    (hpc : ∀ flags, pc = .exiting flags → flags = 0) : (s.setPc t pc).Safe := by
  refine ⟨h.bug, h.exits, ?_⟩
  intro u flags hu
  by_cases hut : u = t
  · subst hut
    exact hpc flags (by simpa [Notifying.setPc] using hu)
  · exact h.exiting u flags (by simpa [Notifying.setPc, hut] using hu)

theorem Safe.doSendSignal (h : s.Safe) {k : NotifierId} {pid : Int} {priv : BitVec 64}
    (hok : k.val = sigchld → intOfLong priv = 0 ∧ (s.family.task cur).parent ≠ none) :
    (s.doSendSignal cur k pid priv).2.Safe := by
  unfold Notifying.doSendSignal
  split
  · rename_i hk
    obtain ⟨hzero, hparent⟩ := hok hk
    split
    · rename_i hnone
      exact absurd hnone hparent
    · apply Safe.setPc
      · exact ⟨h.bug, h.exits, h.exiting⟩
      · intro flags hflags
        cases hflags
        exact hzero
  · split
    · exact h
    · exact ⟨h.bug, h.exits, h.exiting⟩

theorem Safe.notifierCall (h : s.Safe) {args : NotifierArgs}
    (hok : SendsCleanly s (.notifier cur args)) : (s.notifierCall cur args).2.Safe := by
  unfold Notifying.notifierCall
  split
  · dsimp only
    split
    · exact ⟨h.bug, h.exits, h.exiting⟩
    · split
      · exact ⟨h.bug, h.exits, h.exiting⟩
      · split
        · rename_i htable
          split
          · exact h.doSendSignal (hok htable)
          · exact h
        · exact h
  · exact h

theorem Safe.getSignal (h : s.Safe) {pos fuel : Nat} (hs : s.getSignal cur pos fuel = some s') :
    s'.Safe := by
  unfold Notifying.getSignal at hs
  dsimp only at hs
  split at hs
  · cases hs
    refine Safe.setPc ?_ (by simp)
    exact ⟨h.bug, h.exits, h.exiting⟩
  · rename_i k hk
    -- whether the flag is cleared here makes no difference to the assertions
    generalize hs1 : (if ((s.notifier cur).clearNotifier k).IsEmpty then _ else _) = s1 at hs
    have h1 : s1.Safe := by
      subst hs1
      split
      · exact ⟨h.bug, h.exits, h.exiting⟩
      · exact ⟨h.bug, h.exits, h.exiting⟩
    split at hs
    · cases hs
      exact h1.setPc (by simp)
    · obtain ⟨hne, hdone⟩ := h1.exits.reapLoop cur fuel
      split at hs
      · rename_i hbug
        exact absurd hbug hne
      · rename_i f hf
        cases hs
        refine Safe.setPc ?_ (by simp)
        exact ⟨h1.bug, hdone f hf, h1.exiting⟩
      · cases hs
      · cases hs
    · cases hs
      refine Safe.setPc ?_ (by simp)
      exact ⟨h1.bug, h1.exits, h1.exiting⟩

theorem Safe.step {a : NotifyingAct n} (h : s.Safe) (hok : SendsCleanly s a)
    (hs : s.step a = some s') : s'.Safe := by
  rw [Notifying.step, if_neg (by simp [h.bug])] at hs
  cases a with
  | doFork cur t =>
    obtain ⟨-, hs⟩ := Option.ite_none_right_eq_some.mp hs
    cases hs
    refine ⟨h.bug, h.exits.doFork, ?_⟩
    intro u flags hu
    by_cases hut : u = t
    · simp [hut] at hu
    · exact h.exiting u flags (by simpa [hut] using hu)
  | notifier =>
    obtain ⟨-, hs⟩ := Option.ite_none_right_eq_some.mp hs
    cases hs
    exact h.notifierCall hok
  | taskDoExit t =>
    simp only [stepLive] at hs
    split at hs
    · rename_i flags hpc
      obtain ⟨f, hf, rfl⟩ := map_eq_some_iff.mp hs
      rw [h.exiting t flags hpc] at hf
      refine Safe.setPc ?_ (by simp)
      exact ⟨h.bug, h.exits.taskDoExit hf, h.exiting⟩
    · cases hs
  | flagParent =>
    obtain ⟨-, hs⟩ := Option.ite_none_right_eq_some.mp hs
    obtain ⟨p, -, rfl⟩ := map_eq_some_iff.mp hs
    refine Safe.setPc ?_ (by simp)
    exact ⟨h.bug, h.exits, h.exiting⟩
  | doSignal =>
    obtain ⟨-, hs⟩ := Option.ite_none_right_eq_some.mp hs
    cases hs
    exact h.setPc (by simp)
  | getSignal =>
    simp only [stepLive] at hs
    split at hs
    · exact h.getSignal hs
    · cases hs

end Notifying

open Notifying

/-- In every run in which `SIGCHLD` is only sent by a task with a parent and with a private
value that cuts to zero, no assertion fails. -/
theorem notifiers_never_crash {n : Nat} {s : Notifying n}
    (h : (notifyingMachine n).Reach SendsCleanly s) : s.bug = none := by
  have hsafe : s.Safe := by
    refine h.invariant (I := Safe) ?_ fun _ _ _ => Safe.step
    intro s hinit
    refine ⟨hinit.bug, hinit.exitCode, ?_⟩
    intro t flags ht
    rcases hinit.pc t with hpc | hpc
    all_goals
      rw [hpc] at ht
      cases ht
  exact hsafe.bug

/-- Task 0 runs, the other two task structures are free. -/
def startedRoot : Notifying 3 :=
  { family := Family.booted 3 0, notifier := fun _ => .zero, sigpending := fun _ => false,
    pid := fun t => t.val, pc := fun t => if t = 0 then .running else .gone, bug := none }

theorem startedRoot_initial : startedRoot.Initial := by
  refine ⟨rfl, ?_, ?_⟩
  · decide
  · intro t
    by_cases ht : t = 0
    · exact .inl (if_pos ht)
    · exact .inr (if_neg ht)

/-- Send `SIGCHLD` with a private value. -/
def sendSigchld (priv : BitVec 64) : NotifierArgs :=
  { table := 2, notifier := sigchld, fn := 0, pid := 0, priv := priv, returnFn := 0 }

instance {n : Nat} (s : Notifying n) (a : NotifyingAct n) : Decidable (SendsCleanly s a) := by
  unfold SendsCleanly
  cases a <;> infer_instance

/-- A child exits with `2 ^ 32`, which cuts to zero, and its parent reaps it. -/
theorem notifiers_never_crash_sample :
    ∃ s, (notifyingMachine 3).run startedRoot [.doFork 0 1 7, .notifier 1 (sendSigchld (2 ^ 32)),
      .taskDoExit 1, .flagParent 1, .doSignal 0, .getSignal 0 2] = some s ∧
      (s.family.task 1).life = .free ∧ s.bug = none := by
  obtain ⟨s, hs, hreach, hfree⟩ := Machine.exists_run (M := notifyingMachine 3)
    (G := SendsCleanly) (P := fun s => (s.family.task 1).life = .free) (.init startedRoot_initial)
    [.doFork 0 1 7, .notifier 1 (sendSigchld (2 ^ 32)), .taskDoExit 1, .flagParent 1, .doSignal 0,
      .getSignal 0 2] (by decide +kernel)
  exact ⟨s, hs, hfree, notifiers_never_crash hreach⟩

/-- A child that sends `SIGCHLD` with the value 1 stops the kernel when its parent handles
the notifier, and a task without a parent stops it at once. -/
theorem notifier_call_crashes :
    (∃ s, (notifyingMachine 3).Reach Machine.free s ∧ s.bug = some .doDefaultSignalHandle) ∧
      ∃ s, (notifyingMachine 3).Reach Machine.free s ∧ s.bug = some .doSendSignal := by
  constructor
  · exact Machine.exists_reach (.init startedRoot_initial) [.doFork 0 1 7,
      .notifier 1 (sendSigchld 1), .taskDoExit 1, .flagParent 1, .doSignal 0, .getSignal 0 2]
      (by decide +kernel)
  · exact Machine.exists_reach (.init startedRoot_initial) [.notifier 0 (sendSigchld 0)]
      (by decide +kernel)

end MinixRt.Signal
