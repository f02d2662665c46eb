import MinixRt.Signal.Notifier

/-!
# Pending notifiers

A sender sets the bit of a notifier in the receiver's table and then the receiver's flag
`TIF_SIGPENDING`; for `SIGCHLD` most of `task_do_exit` lies between the two. The receiver
looks at the flag on its way back to user mode, in `do_notify_resume`, and `get_signal`
takes notifiers off the table.

The machine is one receiver with any number of senders. One step is one access to the
table or to the flag, so that the senders run between any two of them. `settings` and
`taken` count how often the bit of a notifier went on and how often `get_signal` took it;
no function reads them.

`get_signal` clears the flag when it hands a notifier to a handler, whatever else is
pending. `notifier_not_stranded` is about the runs in which every time the flag is cleared
the table is empty or a sender has its flag still to set. `get_signal` does not look at the
blocked mask; `blocked_notifier_stays` is about the runs in which the next pending notifier
is not blocked.
-/

namespace MinixRt.Signal

open Function Lib

/-! ## The receiver -/

inductive Pc
  | user
  /-- The top of the loop of `do_notify_resume`, with the flags last read. -/
  | resume (sigpending needResched : Bool)
  /-- `for_each_notifier_table` looks for the next notifier, from `pos` on. -/
  | scan (pos : Nat)
  /-- The bit is cleared, the weight of the table comes next. -/
  | weigh (k : NotifierId)
  /-- The table was empty, the flag is cleared next. -/
  | emptied (k : NotifierId)
  | dispatch (k : NotifierId)
  /-- `do_default_signal_handle`. -/
  | handle (k : NotifierId)
  /-- The handler of the notifier is returned, after the flag is cleared. -/
  | deliver (k : NotifierId)
  /-- The loop is over, the flag is cleared next. -/
  | drained
  /-- `READ_ONCE` of the flags. -/
  | reread
  /-- The flags had no work: `do_notify_resume` returns. -/
  | leaving
  deriving DecidableEq

structure Receiver where
  notifier : NotifierStruct
  /-- `TIF_SIGPENDING`. -/
  sigpending : Bool
  /-- `TIF_NEED_RESCHED`. -/
  needResched : Bool
  pc : Pc
  /-- The senders that have set a bit and not yet the flag. -/
  senders : Nat
  settings : NotifierId → Nat
  taken : NotifierId → Nat

inductive ReceiverAct
  /-- A sender sets the bit; `SIGCHLD` has no private value. -/
  | sendBit (k : NotifierId) (values : Option (BitVec 64 × Int))
  | sendFlag
  | setNeedResched
  /-- `ret_to_user` with the flags as they are. -/
  | enter
  /-- The next statement of `do_notify_resume` or `get_signal`. -/
  | next
  | rtSigprocmask (how : Int) (nset : NotifierStruct.UserSet) (oset : NotifierStruct.UserDest)
      (sigsetsize : Nat)
  | notifierRegiserFn (k : NotifierId) (fn returnFn : Nat)
  | notifierRemoveFn (k : NotifierId)

namespace Receiver

/-- The bit of `k` is set, after the values the sender passes. -/
def setBit (s : Receiver) (k : NotifierId) (values : Option (BitVec 64 × Int)) : Receiver :=
  let x := match values with
    | none => s.notifier
    | some (p, pid) => { s.notifier with
        priv := update s.notifier.priv k p
        pid := update s.notifier.pid k pid }
  { s with
    notifier := x.setNotifier k
    senders := s.senders + 1
    settings := if s.notifier.notifierTable k then s.settings
      else update s.settings k (s.settings k + 1) }

/-- `get_signal` takes `k`. -/
def take (s : Receiver) (k : NotifierId) : Receiver :=
  { s with
    notifier := s.notifier.clearNotifier k
    taken := update s.taken k (s.taken k + 1) }

def advance (s : Receiver) : Option Receiver :=
  match s.pc with
  | .user => none
  | .resume sigpending needResched =>
    if needResched then some { s with needResched := false, pc := .reread }
    else if sigpending then some { s with pc := .scan 0 }
    else some { s with pc := .reread }
  | .scan pos =>
    match s.notifier.notifierTableNext pos with
    | none => some { s with pc := .drained }
    | some k => some { s.take k with pc := .weigh k }
  | .weigh k =>
    if s.notifier.IsEmpty then some { s with pc := .emptied k }
    else some { s with pc := .dispatch k }
  | .emptied k => some { s with sigpending := false, pc := .dispatch k }
  | .dispatch k =>
    match disposition (s.notifier.action k) with
    | .ign => some { s with pc := .scan (k.val + 1) }
    | .dfl => some { s with pc := .handle k }
    | .handler => some { s with pc := .deliver k }
  | .handle k => some { s with pc := .scan (k.val + 1) }
  | .deliver _ => some { s with sigpending := false, pc := .reread }
  | .drained => some { s with sigpending := false, pc := .reread }
  | .reread =>
    if s.sigpending ∨ s.needResched then
      some { s with pc := .resume s.sigpending s.needResched }
    else some { s with pc := .leaving }
  | .leaving => some { s with pc := .user }

/-- System calls are made from user mode; senders run at any time. -/
def step (s : Receiver) : ReceiverAct → Option Receiver
  | .sendBit k values => some (s.setBit k values)
  | .sendFlag =>
    if s.senders = 0 then none
    else some { s with sigpending := true, senders := s.senders - 1 }
  | .setNeedResched => some { s with needResched := true }
  | .enter =>
    if s.pc = .user then
      if s.sigpending ∨ s.needResched then
        some { s with pc := .resume s.sigpending s.needResched }
      else some s
    else none
  | .next => s.advance
  | .rtSigprocmask how nset oset sigsetsize =>
    if s.pc = .user then
      some { s with notifier := (s.notifier.rtSigprocmask how nset oset sigsetsize).2 }
    else none
  | .notifierRegiserFn k fn returnFn =>
    if s.pc = .user then
      some { s with notifier := (s.notifier.notifierRegiserFn k fn returnFn).2 }
    else none
  | .notifierRemoveFn k =>
    if s.pc = .user then some { s with notifier := s.notifier.notifierRemoveFn k } else none

structure Initial (s : Receiver) : Prop where
  pc : s.pc = .user
  empty : s.notifier.IsEmpty
  senders : s.senders = 0
  counts : s.settings = s.taken

end Receiver

def receiverMachine : Machine Receiver ReceiverAct where
  init := Receiver.Initial
  step := Receiver.step

namespace Receiver

variable {s s' : Receiver} {a : ReceiverAct}

/-! ## What a step does -/

/-- The statements that clear `TIF_SIGPENDING`. -/
def Clears : Pc → Prop
  | .emptied _ | .deliver _ | .drained => True
  | _ => False

/-- A step sets a bit, sets the flag, takes a notifier, clears the flag, or leaves the table
and the flag alone. -/
inductive Effect (s : Receiver) (a : ReceiverAct) (s' : Receiver) : Prop
  | keep (table : s'.notifier.notifierTable = s.notifier.notifierTable)
      (settings : s'.settings = s.settings) (taken : s'.taken = s.taken)
      (flag : s'.sigpending = s.sigpending) (senders : s'.senders = s.senders)
  | setBit (k : NotifierId) (values : Option (BitVec 64 × Int)) (h : s' = s.setBit k values)
  | sendFlag (h : s' = { s with sigpending := true, senders := s.senders - 1 })
  | take (pos : Nat) (k : NotifierId) (ha : a = .next) (hpc : s.pc = .scan pos)
      (hk : s.notifier.notifierTableNext pos = some k)
      (h : s' = { s.take k with pc := .weigh k })
  | clear (pc : Pc) (ha : a = .next) (hpc : Clears s.pc) (h : s' = { s with sigpending := false, pc := pc })

theorem effect_advance (h : s.advance = some s') : Effect s .next s' := by
  revert h
  fun_cases advance s
  case case6 pos hpc k hk =>
    intro h
    cases h
    exact .take pos k rfl hpc hk rfl
  case case9 k hpc | case14 k hpc | case15 hpc =>
    intro h
    cases h
    refine .clear _ rfl ?_ rfl
    rw [hpc]
    trivial
  all_goals
    intro h
    cases h
  all_goals exact .keep rfl rfl rfl rfl rfl

theorem effect_step (h : s.step a = some s') : Effect s a s' := by
  revert h
  fun_cases step s a
  case case1 k values =>
    intro h
    cases h
    exact .setBit k values rfl
  case case3 =>
    intro h
    cases h
    exact .sendFlag rfl
  case case8 => exact effect_advance
  case case9 how nset oset size _ =>
    intro h
    cases h
    exact .keep (s.notifier.rtSigprocmask_table how nset oset size) rfl rfl rfl rfl
  case case11 k fn returnFn _ =>
    intro h
    cases h
    exact .keep (s.notifier.notifierRegiserFn_table k fn returnFn) rfl rfl rfl rfl
  all_goals
    intro h
    cases h
  all_goals exact .keep rfl rfl rfl rfl rfl

/-! ## Every setting is taken once -/

/-- Each setting of a bit has been taken, except one for a bit that is still on. -/
def Counted (s : Receiver) : Prop :=
  ∀ k, s.settings k = s.taken k + (s.notifier.notifierTable k).toNat

theorem setBit_table (k : NotifierId) (values : Option (BitVec 64 × Int)) :
    (s.setBit k values).notifier.notifierTable = update s.notifier.notifierTable k true := by
  cases values <;> rfl

theorem counted_step (hc : s.Counted) (h : s.step a = some s') : s'.Counted := by
  intro j
  have hj := hc j
  cases effect_step h with
  | keep table settings taken =>
    rw [table, settings, taken]
    exact hj
  | setBit k values h =>
    subst h
    rw [setBit_table]
    by_cases hjk : j = k
    · subst hjk
      cases hbit : s.notifier.notifierTable j <;> simp_all [setBit]
    · cases hbit : s.notifier.notifierTable k <;> simp_all [setBit]
  | sendFlag h =>
    subst h
    exact hj
  | take pos k ha hpc hk h =>
    subst h
    obtain ⟨-, hbit⟩ := NotifierStruct.notifierTableNext_eq_some hk
    by_cases hjk : j = k
    · subst hjk
      simp_all [take, NotifierStruct.clearNotifier]
    · simp_all [take, NotifierStruct.clearNotifier]
  | clear pc ha hpc h =>
    subst h
    exact hj

/-! ## The flag -/

/-- When a notifier is pending, the flag is set or a sender will set it. -/
def Flagged (s : Receiver) : Prop :=
  s.notifier.IsEmpty ∨ s.sigpending = true ∨ s.senders ≠ 0

/-- Where the flag is cleared, no notifier is pending whose sender is done: the table is
empty, or there is a sender that has the flag still to set. -/
def ClearsAlone (s : Receiver) : ReceiverAct → Prop
  | .next => Clears s.pc → s.notifier.IsEmpty ∨ s.senders ≠ 0
  | _ => True

theorem flagged_step (hf : s.Flagged) (hok : ClearsAlone s a) (h : s.step a = some s') :
    s'.Flagged := by
  cases effect_step h with
  | keep table settings taken flag senders =>
    rwa [Flagged, NotifierStruct.IsEmpty, table, flag, senders]
  | setBit k values h =>
    subst h
    exact .inr (.inr (Nat.succ_ne_zero _))
  | sendFlag h =>
    subst h
    exact .inr (.inl rfl)
  | take pos k ha hpc hk h =>
    subst h
    refine hf.imp_left fun hempty j => ?_
    obtain ⟨-, hbit⟩ := NotifierStruct.notifierTableNext_eq_some hk
    rw [hempty k] at hbit
    cases hbit
  | clear pc ha hpc heq =>
    subst ha heq
    exact (hok hpc).imp_right .inr

end Receiver

open Receiver

/-- In every run in which the flag is only cleared when no notifier is pending whose sender
is done: a task that is about to return to user mode has the flag set for its pending
notifiers, every setting of a bit is taken once, and what was sent before the last look at
the flags has been taken. -/
theorem notifier_not_stranded {s : Receiver} (h : receiverMachine.Reach ClearsAlone s) :
    (s.pc = .leaving → s.senders = 0 → ¬ s.notifier.IsEmpty → s.sigpending = true) ∧
      s.Counted ∧ ∀ s', s.pc = .reread → s.senders = 0 → s.step .next = some s' →
        s'.pc = .leaving → ∀ k, s'.taken k = s'.settings k := by
  have hflag : s.Flagged := by
    refine h.invariant (I := Flagged) ?_ fun _ _ _ => flagged_step
    exact fun _ hinit => .inl hinit.empty
  have hcount : s.Counted := by
    refine h.invariant (I := Counted) ?_ fun _ _ _ hc _ => counted_step hc
    intro s hinit k
    simp [hinit.counts, hinit.empty k]
  refine ⟨?_, hcount, ?_⟩
  · intro _ hsenders hpending
    exact (hflag.resolve_left hpending).resolve_right (not_not.mpr hsenders)
  · intro s' hpc hsenders hstep hleaving k
    simp only [Receiver.step, advance, hpc] at hstep
    split at hstep
    · cases hstep
      cases hleaving
    · rename_i hflags
      cases hstep
      have hempty : s.notifier.IsEmpty := by
        rcases hflag with hempty | hset | hset
        · exact hempty
        · exact absurd (.inl hset) hflags
        · exact absurd hsenders hset
      have := hcount k
      rw [hempty k] at this
      exact this.symm

/-- A task with nothing pending, a handler for every notifier and an empty mask. -/
def handlingAll : Receiver :=
  { notifier := { NotifierStruct.zero with action := fun _ => 4096 }, sigpending := false,
    needResched := false, pc := .user, senders := 0, settings := fun _ => 0,
    taken := fun _ => 0 }

theorem handlingAll_initial : handlingAll.Initial := ⟨rfl, fun _ => rfl, rfl, rfl⟩

instance (pc : Pc) : Decidable (Clears pc) := by
  unfold Clears
  cases pc <;> infer_instance

instance (s : Receiver) (a : ReceiverAct) : Decidable (ClearsAlone s a) := by
  unfold ClearsAlone
  cases a <;> infer_instance

/-- One notifier is sent and handed to its handler before the task is back in user mode. -/
theorem notifier_not_stranded_sample :
    ∃ s, receiverMachine.Reach ClearsAlone s ∧ s.taken 5 = 1 ∧
      ∀ s', s.pc = .reread → s.senders = 0 → s.step .next = some s' → s'.pc = .leaving →
        ∀ k, s'.taken k = s'.settings k := by
  obtain ⟨s, hreach, htaken⟩ := Machine.exists_reach (M := receiverMachine)
    (G := ClearsAlone) (P := fun s => s.taken 5 = 1) (.init handlingAll_initial)
    ([.sendBit 5 (some (7, 3)), .sendFlag, .enter] ++ List.replicate 7 .next) (by decide +kernel)
  exact ⟨s, hreach, htaken, (notifier_not_stranded hreach).2.2⟩

/-- Two notifiers are pending when the first is handed to its handler. -/
theorem second_notifier_stranded :
    ∃ s, receiverMachine.Reach Machine.free s ∧ s.pc = .leaving ∧ s.senders = 0 ∧
      ¬ s.notifier.IsEmpty ∧ s.sigpending = false := by
  exact Machine.exists_reach (.init handlingAll_initial) ([.sendBit 5 (some (7, 3)), .sendFlag,
    .sendBit 6 (some (8, 3)), .sendFlag, .enter] ++ List.replicate 6 .next) (by decide +kernel)

/-! ## The blocked mask -/

namespace Receiver

variable {s s' : Receiver} {a : ReceiverAct}

/-- The notifier that `get_signal` is busy with. -/
def inHand : Pc → Option NotifierId
  | .weigh k | .emptied k | .dispatch k | .handle k | .deliver k => some k
  | _ => none

/-- Where `get_signal` takes the next notifier, the lowest pending one from its position on is
not blocked. -/
def TakesUnblocked (s : Receiver) : ReceiverAct → Prop
  | .next => ∀ pos, s.pc = .scan pos → ∀ k : NotifierId, pos ≤ k.val →
      s.notifier.notifierTable k = true → s.notifier.Blocked k →
        ∃ j : NotifierId, pos ≤ j.val ∧ j < k ∧ s.notifier.notifierTable j = true
  | _ => True

/-- The notifiers that are pending and blocked are still pending. -/
def KeepsBlocked (s s' : Receiver) : Prop :=
  ∀ k, s.notifier.notifierTable k = true → s.notifier.Blocked k →
    s'.notifier.notifierTable k = true

theorem takesUnblocked_iff {pos : Nat} {k : NotifierId} (hpc : s.pc = .scan pos)
    (hk : s.notifier.notifierTableNext pos = some k) :
    TakesUnblocked s .next ↔ ¬ s.notifier.Blocked k := by
  obtain ⟨hpos, hbit⟩ := NotifierStruct.notifierTableNext_eq_some hk
  constructor
  · intro h hblocked
    obtain ⟨j, hj, hlt, hjbit⟩ := h pos hpc k hpos hbit hblocked
    exact Nat.not_lt.mpr (NotifierStruct.le_of_notifierTableNext hk hj hjbit) hlt
  · intro h pos' hpc' j hj hjbit hblocked
    obtain rfl : pos' = pos := by
      rw [hpc] at hpc'
      cases hpc'
      rfl
    have hle := NotifierStruct.le_of_notifierTableNext hk hj hjbit
    refine ⟨k, hpos, ?_, hbit⟩
    refine Fin.lt_def.mpr (Nat.lt_of_le_of_ne hle fun heq => ?_)
    rw [Fin.ext heq] at h
    exact h hblocked

/-- The test for `TakesUnblocked`: the notifier found next is not blocked. -/
def nextUnblocked (s : Receiver) : Bool :=
  match s.pc with
  | .scan pos => (s.notifier.notifierTableNext pos).all fun k => ¬ s.notifier.Blocked k
  | _ => true

theorem takesUnblocked_of_next (h : s.nextUnblocked = true) : TakesUnblocked s a := by
  cases a with
  | next =>
    intro pos hpc k hpos hbit hblocked
    cases hk : s.notifier.notifierTableNext pos with
    | none => simp [NotifierStruct.notifierTableNext_eq_none hk hpos] at hbit
    | some j =>
      have hj : ¬ s.notifier.Blocked j := by simpa [nextUnblocked, hpc, hk] using h
      exact (takesUnblocked_iff hpc hk).mpr hj pos hpc k hpos hbit hblocked
  | _ => trivial

theorem keepsBlocked_of_not_take (h : Effect s a s')
    (hnot : a = .next → ∀ pos k, s.pc = .scan pos → s.notifier.notifierTableNext pos ≠ some k) :
    KeepsBlocked s s' := by
  intro j hj _
  cases h with
  | keep table => rwa [table]
  | setBit k values h =>
    subst h
    rw [setBit_table]
    by_cases hjk : j = k
    · rw [hjk, update_self]
    · rwa [update_of_ne hjk]
  | sendFlag h =>
    subst h
    exact hj
  | take pos k ha hpc hk => exact absurd hk (hnot ha pos k hpc)
  | clear pc ha hpc h =>
    subst h
    exact hj

theorem keepsBlocked_iff (h : s.step a = some s') : KeepsBlocked s s' ↔ TakesUnblocked s a := by
  have heffect := effect_step h
  by_cases htake : a = .next ∧ ∃ pos k, s.pc = .scan pos ∧
      s.notifier.notifierTableNext pos = some k
  · obtain ⟨rfl, pos, k, hpc, hk⟩ := htake
    obtain ⟨-, hbit⟩ := NotifierStruct.notifierTableNext_eq_some hk
    simp only [Receiver.step, advance, hpc, hk, Option.some.injEq] at h
    subst h
    rw [takesUnblocked_iff hpc hk]
    constructor
    · intro hkeep hblocked
      have := hkeep k hbit hblocked
      simp [take, NotifierStruct.clearNotifier] at this
    · intro hfree j hj hblocked
      have hjk : j ≠ k := fun heq => hfree (heq ▸ hblocked)
      simpa [take, NotifierStruct.clearNotifier, hjk] using hj
  · refine iff_of_true (keepsBlocked_of_not_take heffect ?_) ?_
    · intro ha pos k hpc hk
      exact htake ⟨ha, pos, k, hpc, hk⟩
    · cases a with
      | next =>
        refine takesUnblocked_of_next ?_
        unfold nextUnblocked
        split
        · rename_i pos hpc
          cases hk : s.notifier.notifierTableNext pos with
          | none => rfl
          | some j => exact absurd ⟨rfl, pos, j, hpc, hk⟩ htake
        · rfl
      | _ => trivial

def HoldsUnblocked (s : Receiver) : Prop :=
  ∀ k, inHand s.pc = some k → ¬ s.notifier.Blocked k

theorem holdsUnblocked_advance (hh : s.HoldsUnblocked) (hok : TakesUnblocked s .next)
    (h : s.advance = some s') : s'.HoldsUnblocked := by
  intro j hj
  revert h
  fun_cases advance s
  case case6 pos hpc k hk =>
    intro h
    cases h
    cases hj
    exact (takesUnblocked_iff hpc hk).mp hok
  all_goals
    intro h
    cases h
  case case7 k hpc _ | case8 k hpc _ | case9 k hpc | case11 k hpc _ | case12 k hpc _ =>
    cases hj
    exact hh _ (by rw [hpc]; rfl)
  all_goals cases hj

theorem holdsUnblocked_step (hh : s.HoldsUnblocked) (hok : TakesUnblocked s a)
    (h : s.step a = some s') : s'.HoldsUnblocked := by
  revert h
  fun_cases step s a
  case case1 k values =>
    intro h
    cases h
    cases values <;> exact hh
  case case8 => exact holdsUnblocked_advance hh hok
  case case9 hpc | case11 hpc | case13 hpc =>
    intro h
    cases h
    intro k hk
    simp [hpc, inHand] at hk
  all_goals
    intro h
    cases h
  case case3 | case4 | case6 => exact hh
  case case5 =>
    intro k hk
    cases hk

end Receiver

/-- In every run in which `get_signal` finds no blocked notifier lowest, it returns none and
runs no default action for one that is blocked. A step keeps the notifiers that are pending
and blocked exactly when this holds for it. -/
theorem blocked_notifier_stays {s : Receiver} (h : receiverMachine.Reach TakesUnblocked s) :
    (∀ k, s.pc = .handle k ∨ s.pc = .deliver k → ¬ s.notifier.Blocked k) ∧
      ∀ a s', s.step a = some s' → (KeepsBlocked s s' ↔ TakesUnblocked s a) := by
  have hhold : s.HoldsUnblocked := by
    refine h.invariant (I := HoldsUnblocked) ?_ fun _ _ _ => holdsUnblocked_step
    intro s hinit k hk
    rw [hinit.pc] at hk
    cases hk
  refine ⟨?_, fun _ _ => keepsBlocked_iff⟩
  rintro k (hpc | hpc)
  all_goals exact hhold k (by rw [hpc]; rfl)

/-- Notifier 5 is sent while notifier 6 is blocked and pending, and is taken first. -/
theorem blocked_notifier_stays_sample :
    ∃ s, receiverMachine.Reach TakesUnblocked s ∧ s.pc = .deliver 5 ∧
      ¬ s.notifier.Blocked 5 ∧ s.notifier.Blocked 6 ∧ s.notifier.notifierTable 6 = true := by
  obtain ⟨s, hreach, hpc, hblocked, hbit⟩ := Machine.exists_reach (M := receiverMachine)
    (G := fun s _ => s.nextUnblocked = true) (P := fun s => s.pc = .deliver 5 ∧
      s.notifier.Blocked 6 ∧ s.notifier.notifierTable 6 = true) (.init handlingAll_initial)
    ([.rtSigprocmask 0 (.set 32) .null 8, .sendBit 6 (some (8, 3)), .sendFlag,
      .sendBit 5 (some (7, 3)), .sendFlag, .enter] ++ List.replicate 4 .next) (by decide +kernel)
  have hreach : receiverMachine.Reach TakesUnblocked s :=
    hreach.mono fun _ _ => takesUnblocked_of_next
  exact ⟨s, hreach, hpc, (blocked_notifier_stays hreach).1 5 (.inr hpc), hblocked, hbit⟩

/-- A notifier that is blocked and sent goes to its handler. -/
theorem blocked_notifier_delivered :
    ∃ s, receiverMachine.Reach Machine.free s ∧ s.pc = .deliver 5 ∧ s.notifier.Blocked 5 :=
  Machine.exists_reach (.init handlingAll_initial) ([.rtSigprocmask 0 (.set 16) .null 8,
    .sendBit 5 (some (7, 3)), .sendFlag, .enter] ++ List.replicate 5 .next) (by decide +kernel)

end MinixRt.Signal
