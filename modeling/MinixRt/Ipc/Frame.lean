import MinixRt.Ipc.Step

/-!
# What the wait-queue operations leave alone

`prepare_to_wait`, `wake_up` and `finish_wait` change task states and wait queues only.
`Core` is the rest of the state; the operations do not change it, so an invariant that
reads only the core needs no argument about them.
-/

namespace MinixRt.Ipc

open State

attribute [simp] setPc setTstate setEp setNode setAllocated setReg log

/-- The two states differ in task states and wait queues only. -/
structure SameCore (s s' : State) : Prop where
  count : ∀ e, (s'.ep e).ipcReqCount = (s.ep e).ipcReqCount
  state : ∀ e, (s'.ep e).state = (s.ep e).state
  tsk : ∀ e, (s'.ep e).tsk = (s.ep e).tsk
  epList : ∀ e, (s'.ep e).epList = (s.ep e).epList
  isFinish : ∀ x, (s'.node x).isFinish = (s.node x).isFinish
  m : ∀ x, (s'.node x).m = (s.node x).m
  allocated : s'.allocated = s.allocated
  pc : s'.pc = s.pc
  pid : s'.pid = s.pid
  reg : s'.reg = s.reg
  trace : s'.trace = s.trace

namespace SameCore

theorem refl (s : State) : SameCore s s := by
  constructor <;> intros <;> rfl

theorem trans {s s' s'' : State} (h : SameCore s s') (h' : SameCore s' s'') : SameCore s s'' where
  count e := (h'.count e).trans (h.count e)
  state e := (h'.state e).trans (h.state e)
  tsk e := (h'.tsk e).trans (h.tsk e)
  epList e := (h'.epList e).trans (h.epList e)
  isFinish x := (h'.isFinish x).trans (h.isFinish x)
  m x := (h'.m x).trans (h.m x)
  allocated := h'.allocated.trans h.allocated
  pc := h'.pc.trans h.pc
  pid := h'.pid.trans h.pid
  reg := h'.reg.trans h.reg
  trace := h'.trace.trans h.trace

theorem setTstate (s : State) (t : TaskId) (r : TaskState) : SameCore s (s.setTstate t r) := by
  constructor <;> intros <;> rfl

theorem setWaiters (s : State) (q : Queue) (l : List TaskId) : SameCore s (s.setWaiters q l) := by
  cases q with
  | ep e =>
    constructor <;> intros <;> try rfl
    all_goals
      rename_i e'
      by_cases he : e' = e
      · subst he
        simp [State.setWaiters]
      · simp [State.setWaiters, he]
  | node x =>
    constructor <;> intros <;> try rfl
    all_goals
      rename_i x'
      by_cases hx : x' = x
      · subst hx
        simp [State.setWaiters]
      · simp [State.setWaiters, hx]

theorem tryToWakeUp (s : State) (t : TaskId) : SameCore s (tryToWakeUp s t).1 := by
  unfold Ipc.tryToWakeUp
  split
  · exact setTstate s t .running
  · exact refl s

theorem autoremove (q : Queue) (s : State) (t : TaskId) :
    SameCore s (autoremoveWakeFunction q s t) := by
  unfold autoremoveWakeFunction
  dsimp only
  split
  · exact (tryToWakeUp s t).trans (setWaiters _ _ _)
  · exact tryToWakeUp s t

theorem foldl_autoremove (q : Queue) (ts : List TaskId) (s : State) :
    SameCore s (ts.foldl (autoremoveWakeFunction q) s) := by
  induction ts generalizing s with
  | nil => exact refl s
  | cons t ts ih => exact (autoremove q s t).trans (ih _)

theorem wakeUp (s : State) (q : Queue) : SameCore s (wakeUp s q) :=
  foldl_autoremove q _ s

theorem prepareToWait (s : State) (q : Queue) (t : TaskId) : SameCore s (prepareToWait s q t) := by
  unfold Ipc.prepareToWait
  split
  · exact setTstate s t _
  · exact (setWaiters s q _).trans (setTstate _ t _)

theorem waitEvent {s s' : State} {t : TaskId} {q : Queue} {b : Bool} {w : WaitPc}
    {r : Option WaitPc} (h : waitEvent s t q b w = some (s', r)) : SameCore s s' := by
  cases w <;> simp only [Ipc.waitEvent] at h
  case prep =>
    cases h
    exact prepareToWait s q t
  case blocked =>
    split at h
    · cases h
      exact refl s
    · cases h
  case finish =>
    cases h
    exact setTstate s t _
  case unqueue =>
    cases h
    exact setWaiters s q _
  all_goals
    cases h
    exact refl s

end SameCore

theorem waitEvent_next {s s' : State} {t : TaskId} {q : Queue} {b : Bool} {w : WaitPc}
    {r : Option WaitPc} (h : waitEvent s t q b w = some (s', r)) :
    (r = none → w = .cond ∧ b = true ∨ w = .unqueue) ∧
      (r = some .finish → w = .test ∧ b = true) ∧ (r = some .unqueue → w = .finish) := by
  cases w <;> simp only [waitEvent] at h
  case sched =>
    cases h
    split <;> simp
  case blocked =>
    split at h <;> cases h
    simp
  all_goals
    cases h
    cases b <;> simp

end MinixRt.Ipc
