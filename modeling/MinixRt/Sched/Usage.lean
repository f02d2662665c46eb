import MinixRt.Sched.Exit

/-!
# The reference count of a task

A task has two references less those that `task_do_exit` and `finish_task_switch` have
dropped, and one more for each call that holds it. Both functions together drop the two
references of `task_create_tsk`, so a task whose last switch is finished has none left but
those of the calls, and a run is without a `BUG()` of `put_task_struct` as long as no CPU
finishes the switch away from a dead task.
-/

namespace MinixRt.Sched.Exit

open Lib Machine

section

variable {n : Nat}

/-- The references on `t` that calls of `sched_setaffinity` and `sched_migrate_task` hold. -/
def State.refs (s : State n) (t : TaskId) : Nat := s.held.countP fun h => h.2 = t

/-- No `put_task_struct` drops the last reference, and a task that is switched out has one
reference left. -/
def State.Balanced (s : State n) : Prop :=
  s.bug ≠ some .putTaskStruct ∧ ∀ t, (s.task t).switchedOut = true → (s.task t).usage = 1

/-- `finish_task_switch` does not find a dead task. -/
def findsAlive (s : State n) : Act n → Bool
  | .finishTaskSwitch c => (s.switching c).all fun prev => !(s.task prev).isDead
  | _ => true

/-- What `task_do_exit` has dropped. -/
def Pc.dropped : Pc → Int
  | .released | .unpreempted | .dead | .flagged => 1
  | _ => 0

structure Task.SameCount (x y : Task) : Prop where
  usage : y.usage = x.usage
  dropped : y.pc.dropped = x.pc.dropped
  unborn : y.pc = .unborn ↔ x.pc = .unborn
  switchedOut : y.switchedOut = x.switchedOut

theorem Task.SameCount.refl (x : Task) : x.SameCount x := ⟨rfl, rfl, Iff.rfl, rfl⟩

theorem Task.SameCount.trans {x y z : Task} (h : x.SameCount y) (h' : y.SameCount z) :
    x.SameCount z :=
  ⟨h'.usage.trans h.usage, h'.dropped.trans h.dropped, h'.unborn.trans h.unborn,
    h'.switchedOut.trans h.switchedOut⟩

/-- No task differs in what is counted. -/
def SameCounts (s s' : State n) : Prop := ∀ t, (s.task t).SameCount (s'.task t)

theorem SameCounts.trans {s s1 s2 : State n} (h : SameCounts s s1) (h' : SameCounts s1 s2) :
    SameCounts s s2 :=
  fun t => (h t).trans (h' t)

theorem sameCounts_set {s : State n} {t : TaskId} {x : Task} (h : (s.task t).SameCount x) :
    SameCounts s (s.set t x) := by
  intro u
  by_cases hu : u = t
  · subst hu
    rw [State.task_set_self]
    exact h
  · rw [State.task_set_of_ne s x hu]
    exact .refl _

/-- The references of a task that `finish_task_switch` has not handled as dead. -/
structure State.Counted (s : State n) : Prop where
  count : ∀ t, (s.task t).pc ≠ .unborn →
    (s.task t).usage + (s.task t).pc.dropped = 2 + s.refs t
  held : ∀ h ∈ s.held, (s.task h.2).pc ≠ .unborn
  switchedOut : ∀ t, (s.task t).switchedOut = false
  bug : s.bug ≠ some .putTaskStruct

variable {s s' : State n} {t : TaskId}

theorem State.Counted.of_same (h : s.Counted) (hsame : SameCounts s s') (hheld : s'.held = s.held)
    (hbug : s'.bug ≠ some .putTaskStruct) : s'.Counted := by
  refine ⟨fun t ht => ?_, fun x hx => ?_, fun t => ?_, hbug⟩
  · rw [(hsame t).usage, (hsame t).dropped, State.refs, hheld]
    exact h.count t fun hu => ht ((hsame t).unborn.mpr hu)
  · rw [hheld] at hx
    exact fun hu => h.held x hx ((hsame x.2).unborn.mp hu)
  · rw [(hsame t).switchedOut]
    exact h.switchedOut t

theorem State.Counted.set_two (h : s.Counted) {t u : TaskId} {x y : Task}
    (hx : (s.task t).SameCount x) (hy : ((s.set t x).task u).SameCount y) :
    ((s.set t x).set u y).Counted :=
  h.of_same (.trans (sameCounts_set hx) (sameCounts_set hy)) rfl h.bug

theorem counted_putTaskStruct (h : ∀ u, u ≠ t → (s.task u).pc ≠ .unborn →
      (s.task u).usage + (s.task u).pc.dropped = 2 + s.refs u)
    (ht : (s.task t).usage + (s.task t).pc.dropped = 3 + s.refs t) (hpc : (s.task t).pc.dropped ≤ 1)
    (hheld : ∀ x ∈ s.held, (s.task x.2).pc ≠ .unborn) (hout : ∀ u, (s.task u).switchedOut = false)
    (hbug : s.bug ≠ some .putTaskStruct) : (putTaskStruct s t).Counted := by
  have htask : ∀ u, ((putTaskStruct s t).task u).pc = (s.task u).pc ∧
      ((putTaskStruct s t).task u).switchedOut = (s.task u).switchedOut := fun u => by
    by_cases hu : u = t
    · subst hu
      simp [putTaskStruct]
    · simp [putTaskStruct, State.task_set_of_ne s _ hu]
  refine ⟨fun u hu => ?_, fun x hx => ?_, fun u => ?_, ?_⟩
  · rw [(htask u).1] at hu ⊢
    by_cases hut : u = t
    · subst hut
      have husage : ((putTaskStruct s u).task u).usage = (s.task u).usage - 1 :=
        by simp [putTaskStruct]
      have hrefs : (putTaskStruct s u).refs u = s.refs u := rfl
      omega
    · have husage : ((putTaskStruct s t).task u).usage = (s.task u).usage :=
        by simp [putTaskStruct, State.task_set_of_ne s _ hut]
      rw [husage]
      exact h u hut hu
  · rw [(htask x.2).1]
    exact hheld x hx
  · rw [(htask u).2]
    exact hout u
  · have hne : (s.task t).usage ≠ 1 := by omega
    simp only [putTaskStruct, if_neg hne]
    exact hbug

theorem Pc.dropped_le_one (pc : Pc) : pc.dropped ≤ 1 := by
  cases pc <;> simp [dropped]

theorem State.Counted.createTask (h : s.Counted) {parent : TaskId}
    (hchild : (s.task t).pc = .unborn) : (taskCreateTsk s parent t).Counted := by
  have hrefs : s.refs t = 0 := by
    refine List.countP_eq_zero.mpr fun x hx => ?_
    intro heq
    rw [decide_eq_true_eq] at heq
    exact h.held x hx (heq ▸ hchild)
  have hsame : SameCounts s (s.set parent { s.task parent with
      children := t :: (s.task parent).children }) := by
    refine sameCounts_set ?_
    exact ⟨rfl, rfl, Iff.rfl, rfl⟩
  have h1 := h.of_same hsame rfl h.bug
  refine ⟨fun u hu => ?_, fun x hx => ?_, fun u => ?_, h.bug⟩
  · by_cases hut : u = t
    · subst hut
      simp only [taskCreateTsk, State.task_set_self, Pc.dropped]
      change (2 : Int) + 0 = 2 + (s.refs u : Nat)
      omega
    · have htask := State.task_set_of_ne (s.set parent { s.task parent with
        children := t :: (s.task parent).children }) (taskCreateTsk s parent t |>.task t) hut
      simp only [taskCreateTsk, State.task_set_self] at hu htask ⊢
      rw [htask] at hu ⊢
      exact h1.count u hu
  · by_cases hut : x.2 = t
    · rw [hut]
      simp [taskCreateTsk]
    · simp only [taskCreateTsk, State.task_set_of_ne _ _ hut]
      exact h1.held x hx
  · by_cases hut : u = t
    · subst hut
      simp [taskCreateTsk]
    · simp only [taskCreateTsk, State.task_set_of_ne _ _ hut]
      exact h1.switchedOut u

theorem State.Counted.taskDoExit (h : s.Counted) (hs : taskDoExit s t = some s') : s'.Counted := by
  unfold Exit.taskDoExit at hs
  simp only at hs
  split at hs
  next code hpc =>
    cases hs
    exact h.set_two ⟨rfl, by rw [hpc]; rfl, by simp [hpc], rfl⟩ ⟨rfl, rfl, Iff.rfl, rfl⟩
  next hpc =>
    cases hs
    have hcount := h.count t (by rw [hpc]; nofun)
    rw [hpc] at hcount
    have hunborn : ∀ u, ((s.set t { s.task t with pc := .released }).task u).pc = .unborn →
        (s.task u).pc = .unborn := fun u hu => by
      by_cases hut : u = t
      · subst hut
        simp at hu
      · rwa [State.task_set_of_ne s _ hut] at hu
    refine counted_putTaskStruct (fun u hut hu => ?_) ?_ (Pc.dropped_le_one _)
      (fun x hx hu => h.held x hx (hunborn _ hu)) (fun u => ?_) h.bug
    · rw [State.task_set_of_ne s _ hut] at hu ⊢
      exact h.count u hu
    · simp only [State.task_set_self, Pc.dropped] at hcount ⊢
      change (s.task t).usage + 1 = 3 + (s.refs t : Int)
      omega
    · exact (State.field_set Task.switchedOut (by rfl) u).trans (h.switchedOut u)
  next hpc =>
    cases hs
    refine h.of_same (sameCounts_set ?_) rfl h.bug
    exact ⟨rfl, by rw [hpc]; rfl, by simp [hpc], rfl⟩
  next hpc =>
    cases hs
    refine h.of_same (sameCounts_set ?_) rfl h.bug
    exact ⟨rfl, by rw [hpc]; rfl, by simp [hpc], rfl⟩
  next hpc =>
    cases hs
    exact h.set_two ⟨rfl, by rw [hpc]; rfl, by simp [hpc], rfl⟩ ⟨rfl, rfl, Iff.rfl, rfl⟩
  next => cases hs

theorem Task.sameCount_getSignal (x : Task) (pos : Nat) : x.SameCount (getSignal x pos) := by
  unfold getSignal
  split
  · exact ⟨rfl, rfl, Iff.rfl, rfl⟩
  · simp only
    split <;> exact ⟨rfl, rfl, Iff.rfl, rfl⟩

theorem State.Counted.doDefaultSignalHandle (h : s.Counted)
    (hs : doDefaultSignalHandle s t = some s') : s'.Counted := by
  unfold Exit.doDefaultSignalHandle at hs
  simp only at hs
  split at hs
  · cases hs
  split_ifs at hs
  · cases hs
    exact h.of_same (fun t => .refl _) rfl nofun
  · cases hs
    refine h.of_same (.trans (sameCounts_set ?_) (sameCounts_set ?_)) rfl h.bug <;>
      exact ⟨rfl, rfl, Iff.rfl, rfl⟩
  · cases hs
    refine h.of_same (sameCounts_set ?_) rfl h.bug
    exact ⟨rfl, rfl, Iff.rfl, rfl⟩
  · cases hs
    refine h.of_same (.trans (sameCounts_set ?_) (sameCounts_set ?_)) rfl h.bug <;>
      exact ⟨rfl, rfl, Iff.rfl, rfl⟩

theorem State.Counted.hold (h : s.Counted) (ht : (s.task t).pc ≠ .unborn) (caller : TaskId) :
    State.Counted { s.set t { s.task t with usage := (s.task t).usage + 1 } with
      held := (caller, t) :: s.held } := by
  have hpc : ∀ u, ((s.set t { s.task t with usage := (s.task t).usage + 1 }).task u).pc =
      (s.task u).pc := State.field_set Task.pc rfl
  refine ⟨fun u hu => ?_, fun x hx => ?_, fun u => ?_, h.bug⟩
  · simp only [hpc] at hu ⊢
    have hcount := h.count u hu
    by_cases hut : u = t
    · subst hut
      simp only [State.refs, State.task_set_self, List.countP_cons, decide_true, if_true] at hcount ⊢
      push_cast
      omega
    · have hne : ¬ t = u := Ne.symm hut
      simp only [State.refs, State.task_set_of_ne s _ hut, List.countP_cons, hne, decide_false,
        Bool.false_eq_true, if_false, Nat.add_zero] at hcount ⊢
      exact hcount
  · simp only [hpc]
    rcases List.mem_cons.mp hx with rfl | hx
    · exact ht
    · exact h.held x hx
  · exact (State.field_set Task.switchedOut (by rfl) u).trans (h.switchedOut u)

theorem State.Counted.release (h : s.Counted) {caller : TaskId} (hx : (caller, t) ∈ s.held) :
    (putTaskStruct { s with held := s.held.erase (caller, t) } t).Counted := by
  have hrefs : ∀ u, s.refs u = State.refs { s with held := s.held.erase (caller, t) } u +
      if t = u then 1 else 0 := fun u => by
    have hcount := (List.perm_cons_erase hx).countP_eq fun x => decide (x.2 = u)
    simpa only [State.refs, List.countP_cons, decide_eq_true_eq] using hcount
  refine counted_putTaskStruct (fun u hut hu => ?_) ?_ (Pc.dropped_le_one _)
    (fun x hx => h.held x (List.mem_of_mem_erase hx)) h.switchedOut h.bug
  · have hcount := h.count u hu
    rwa [hrefs u, if_neg (Ne.symm hut), Nat.add_zero] at hcount
  · have hcount := h.count t (h.held _ hx)
    rw [hrefs t, if_pos rfl] at hcount
    simp only at hcount ⊢
    push_cast at hcount
    omega

theorem State.Counted.step {a : Act n} (h : s.Counted) (ha : findsAlive s a = true)
    (hs : step s a = some s') : s'.Counted := by
  unfold Exit.step at hs
  split_ifs at hs
  cases a <;> simp only [stepLive] at hs
  case createTask c child =>
    split_ifs at hs with hc
    cases hs
    exact h.createTask hc.2
  case holdTask c t =>
    split_ifs at hs with hc
    cases hs
    exact h.hold hc.2.1 _
  case releaseTask c t =>
    split_ifs at hs with hc
    cases hs
    exact h.release hc.2
  case sendSignal | doSignal =>
    split_ifs at hs
    cases hs
    refine h.of_same (sameCounts_set ?_) rfl h.bug
    exact ⟨rfl, rfl, Iff.rfl, rfl⟩
  case notifyParent c sig code =>
    split_ifs at hs with hc
    cases hs
    have hpc : (s.task (s.current c)).pc = .running := by
      have hidle := hc.1
      simp only [State.idle, decide_eq_true_eq] at hidle
      exact hidle.2.1
    exact h.set_two ⟨rfl, by rw [hpc]; rfl, by simp [hpc], rfl⟩ ⟨rfl, rfl, Iff.rfl, rfl⟩
  case taskDoExit c =>
    split_ifs at hs
    exact h.taskDoExit hs
  case contextSwitch c next =>
    split_ifs at hs
    cases hs
    exact h.of_same (fun t => .refl _) rfl h.bug
  case finishTaskSwitch c =>
    obtain ⟨prev, hprev, rfl⟩ := Option.map_eq_some_iff.mp hs
    have halive : (s.task prev).isDead = false := by simpa [findsAlive, hprev] using ha
    simp only [finishTaskSwitch, halive, Bool.false_eq_true, if_false]
    exact h.of_same (fun t => .refl _) rfl h.bug
  case getSignal c =>
    split_ifs at hs
    obtain ⟨pos, -, rfl⟩ := Option.map_eq_some_iff.mp hs
    exact h.of_same (sameCounts_set (Task.sameCount_getSignal ..)) rfl h.bug
  case doDefaultSignalHandle c =>
    split_ifs at hs
    exact h.doDefaultSignalHandle hs

theorem State.Counted.of_reach (h : (machine n).Reach (fun s a => findsAlive s a = true) s) :
    s.Counted :=
  Reach.invariant (I := State.Counted)
    (fun s hs => by
      obtain ⟨hfresh, -, hheld, hbug⟩ := hs
      refine ⟨fun t ht => ?_, fun x hx => ?_, fun t => (hfresh t).switchedOut, by rw [hbug]; nofun⟩
      · have hpc := (hfresh t).pc.resolve_left ht
        rw [(hfresh t).usage, hpc, State.refs, hheld]
        rfl
      · rw [hheld] at hx
        cases hx)
    (fun _ _ _ hI ha hs => hI.step ha hs) h

/-- **The last reference is never dropped** as long as no CPU finishes the switch away from a
dead task. When a CPU does, the balance is kept only by a call that happens to hold the
task. -/
theorem usage_balanced (h : (machine n).Reach (fun s a => findsAlive s a = true) s) :
    s.Balanced ∧ ∀ c prev s', s.switching c = some prev → (s.task prev).isDead = true →
      (machine n).step s (.finishTaskSwitch c) = some s' → (s'.Balanced ↔ s.refs prev = 1) := by
  have hcount := State.Counted.of_reach h
  refine ⟨⟨hcount.bug, fun t ht => ?_⟩, fun c prev s' hprev hdead hs => ?_⟩
  · rw [hcount.switchedOut t] at ht
    cases ht
  simp only [machine, step] at hs
  split_ifs at hs
  simp only [stepLive, hprev, Option.map_some, Option.some.injEq, finishTaskSwitch, hdead,
    if_true] at hs
  have hpc : (s.task prev).pc ≠ .unborn ∧ (s.task prev).pc.dropped = 1 := by
    simp only [Task.isDead, decide_eq_true_eq] at hdead
    rcases hdead with hpc | hpc <;> rw [hpc] <;> exact ⟨nofun, rfl⟩
  have husage := hcount.count prev hpc.1
  rw [hpc.2] at husage
  subst hs
  constructor
  · intro hbal
    have hone := hbal.2 prev (by simp [putTaskStruct])
    simp only [putTaskStruct, State.task_set_self] at hone
    omega
  · intro hrefs
    have hne : (s.task prev).usage ≠ 1 := by omega
    refine ⟨?_, fun t ht => ?_⟩
    · simp only [putTaskStruct, State.task_set_self, if_neg hne]
      exact hcount.bug
    · by_cases htp : t = prev
      · subst htp
        simp only [putTaskStruct, State.task_set_self]
        omega
      · simp only [putTaskStruct, State.task_set_of_ne _ _ htp] at ht
        rw [hcount.switchedOut t] at ht
        cases ht

end

/-- A call of `sched_setaffinity` holds task 3 over its last switch. -/
theorem usage_balanced_held : ∃ s s', (machine 2).run booted
      (.holdTask 0 3 :: sendSigchld ++ exitAndSwitch) = some s ∧
    (machine 2).step s (.finishTaskSwitch 1) = some s' ∧ (s.task 3).isDead = true ∧
    s'.Balanced := by
  obtain ⟨s, hs, hreach, hstep, hswitch, hdead, hrefs⟩ := exists_run (G := fun s a => findsAlive s a = true)
    (P := fun s => ((machine 2).step s (.finishTaskSwitch 1)).isSome ∧ s.switching 1 = some 3 ∧
      (s.task 3).isDead = true ∧ s.refs 3 = 1) (.init booted_init)
    (.holdTask 0 3 :: sendSigchld ++ exitAndSwitch) (by decide +kernel)
  obtain ⟨s', hs'⟩ := Option.isSome_iff_exists.mp hstep
  exact ⟨s, s', hs, hs', hdead, ((usage_balanced hreach).2 1 3 s' hswitch hdead hs').mpr hrefs⟩

/-- The switch away from the dead task 3 drops its last reference. -/
theorem usage_zero : ¬ ∀ s, (machine 2).Reach free s → s.Balanced := by
  intro h
  obtain ⟨s, hreach, hbug⟩ := exists_reach (G := free) (P := fun s => s.bug = some .putTaskStruct)
    (.init booted_init) (sendSigchld ++ exitAndSwitch ++ [.finishTaskSwitch 1]) (by decide +kernel)
  exact (h s hreach).1 hbug

end MinixRt.Sched.Exit
