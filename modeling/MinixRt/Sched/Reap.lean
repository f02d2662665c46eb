import MinixRt.Sched.Exit

/-!
# Freeing an exited task

`do_default_signal_handle` frees every task that it finds on `children_exit`, wherever the
task is. So the stack, the `task_struct` and the `mm_struct` of a child outlive its last
context switch when each child on the list is switched out by the time that `get_signal`
takes a notifier with the default action. A child that comes onto the list later is not
seen by the loop, since it is added in front.
-/

namespace MinixRt.Sched.Exit

open Lib Machine

section

variable {n : Nat}

/-- What is freed of a task is freed after `finish_task_switch` has handled it as dead. -/
def State.ReapedLate (s : State n) : Prop :=
  ∀ t, ((s.task t).mmFreed = true ∨ (s.task t).stackFreed = true ∨ (s.task t).taskFreed = true) →
    (s.task t).switchedOut = true

/-- `get_signal` takes a notifier with the default action only when every task on
`children_exit` is switched out. -/
def takesLate (s : State n) : Act n → Bool
  | .getSignal c =>
    let x := s.cur c
    x.scan.all fun pos => (notifierTableNext x pos).all fun k =>
      x.action k ≠ .dfl || x.childrenExit.all fun u => (s.task u).switchedOut
  | _ => true

/-- Every task that is freed, or that a loop of `do_default_signal_handle` has before it, is
switched out. -/
structure State.Late (s : State n) : Prop where
  reaping : ∀ t, ∀ u ∈ (s.task t).reaping, (s.task u).switchedOut = true
  freed : s.ReapedLate
  born : ∀ t, (s.task t).switchedOut = true → (s.task t).pc ≠ .unborn

variable {s s' : State n} {t : TaskId} {x : Task}

section

variable (h : s.Late)
include h

theorem State.Late.congr (htask : s'.task = s.task) : s'.Late := by
  refine ⟨fun t u => ?_, fun t => ?_, fun t => ?_⟩ <;> rw [htask]
  · exact h.reaping t u
  · exact h.freed t
  · exact h.born t

theorem State.Late.set (hreaping : ∀ u ∈ x.reaping, (s.task u).switchedOut = true)
    (hfreed : x.mmFreed = true ∨ x.stackFreed = true ∨ x.taskFreed = true → x.switchedOut = true)
    (hout : (s.task t).switchedOut = true → x.switchedOut = true)
    (hborn : x.switchedOut = true → x.pc ≠ .unborn) : (s.set t x).Late := by
  have hmono : ∀ u, (s.task u).switchedOut = true → ((s.set t x).task u).switchedOut = true :=
    fun u hu => by
      by_cases hut : u = t
      · subst hut
        rw [State.task_set_self]
        exact hout hu
      · rwa [State.task_set_of_ne s x hut]
  refine ⟨fun u => ?_, fun u => ?_, fun u => ?_⟩ <;> by_cases hut : u = t
  · subst hut
    rw [State.task_set_self]
    exact fun v hv => hmono v (hreaping v hv)
  · rw [State.task_set_of_ne s x hut]
    exact fun v hv => hmono v (h.reaping u v hv)
  · subst hut
    rw [State.task_set_self]
    exact hfreed
  · rw [State.task_set_of_ne s x hut]
    exact h.freed u
  · subst hut
    rw [State.task_set_self]
    exact hborn
  · rw [State.task_set_of_ne s x hut]
    exact h.born u

theorem State.Late.setSame (hreaping : x.reaping = (s.task t).reaping)
    (hfreed : x.mmFreed = (s.task t).mmFreed ∧ x.stackFreed = (s.task t).stackFreed ∧
      x.taskFreed = (s.task t).taskFreed) (hout : x.switchedOut = (s.task t).switchedOut)
    (hborn : x.pc = .unborn → (s.task t).pc = .unborn) : (s.set t x).Late := by
  refine h.set ?_ ?_ (fun ht => hout.trans ht) fun hx hpc => ?_
  · rw [hreaping]
    exact h.reaping t
  · rw [hfreed.1, hfreed.2.1, hfreed.2.2, hout]
    exact h.freed t
  · exact h.born t (hout.symm.trans hx) (hborn hpc)

theorem State.Late.putTaskStruct (t : TaskId) : (putTaskStruct s t).Late :=
  State.Late.congr (s := s.set t { s.task t with usage := (s.task t).usage - 1 })
    (h.setSame rfl ⟨rfl, rfl, rfl⟩ rfl id) rfl

theorem State.Late.taskDoExit (hs : taskDoExit s t = some s') : s'.Late := by
  unfold Exit.taskDoExit at hs
  simp only at hs
  split at hs
  · cases hs
    exact State.Late.setSame (h.setSame rfl ⟨rfl, rfl, rfl⟩ rfl nofun) rfl ⟨rfl, rfl, rfl⟩ rfl id
  · cases hs
    refine State.Late.putTaskStruct ?_ t
    exact h.setSame rfl ⟨rfl, rfl, rfl⟩ rfl nofun
  · cases hs
    exact h.setSame rfl ⟨rfl, rfl, rfl⟩ rfl nofun
  · cases hs
    exact h.setSame rfl ⟨rfl, rfl, rfl⟩ rfl nofun
  · cases hs
    exact State.Late.setSame (h.setSame rfl ⟨rfl, rfl, rfl⟩ rfl nofun) rfl ⟨rfl, rfl, rfl⟩ rfl id
  · cases hs

theorem State.Late.finishTaskSwitch (c : Fin n) (prev : TaskId) :
    (finishTaskSwitch s c prev).Late := by
  unfold Exit.finishTaskSwitch
  simp only
  split_ifs with hdead
  · refine State.Late.putTaskStruct ?_ prev
    have h1 : State.Late { s with switching := Function.update s.switching c none } := h.congr rfl
    refine h1.set (h1.reaping prev) (fun _ => rfl) (fun _ => rfl) fun _ hpc => ?_
    simp only [Task.isDead, decide_eq_true_eq] at hdead
    simp only at hpc
    rw [hpc] at hdead
    simp at hdead
  · exact h.congr rfl

theorem State.Late.doDefaultSignalHandle (hs : doDefaultSignalHandle s t = some s') : s'.Late := by
  unfold Exit.doDefaultSignalHandle at hs
  simp only at hs
  split at hs
  next => cases hs
  next u rest hlist =>
    have hu : (s.task u).switchedOut = true := h.reaping t u (by rw [hlist]; exact List.mem_cons_self)
    split_ifs at hs
    · cases hs
      exact h.congr rfl
    · cases hs
      have h1 := h.setSame (t := t)
        (x := { s.task t with childrenExit := (s.task t).childrenExit.erase u })
        rfl ⟨rfl, rfl, rfl⟩ rfl id
      have hu1 := (State.field_set Task.switchedOut (s := s) (t := t)
        (x := { s.task t with childrenExit := (s.task t).childrenExit.erase u }) rfl u).trans hu
      exact h1.set (h1.reaping u) (fun _ => hu1) (fun _ => hu1) (h1.born u)
    · cases hs
      exact h.set (h.reaping u) (fun _ => hu) (fun _ => hu) (h.born u)
    · cases hs
      have h1 := h.set (t := t) (x := { s.task t with reaping := rest })
        (fun v hv => h.reaping t v (by rw [hlist]; exact List.mem_cons_of_mem _ hv)) (h.freed t) id
        (h.born t)
      have hu1 := (State.field_set Task.switchedOut (s := s) (t := t)
        (x := { s.task t with reaping := rest }) rfl u).trans hu
      exact h1.set (h1.reaping u) (fun _ => hu1) (fun _ => hu1) (h1.born u)

theorem State.Late.getSignal {pos : Nat}
    (hlate : ∀ k, notifierTableNext (s.task t) pos = some k → (s.task t).action k = .dfl →
      ∀ u ∈ (s.task t).childrenExit, (s.task u).switchedOut = true) :
    (s.set t (getSignal (s.task t) pos)).Late := by
  unfold Exit.getSignal
  split
  next => exact h.setSame rfl ⟨rfl, rfl, rfl⟩ rfl id
  next k hk =>
    simp only
    split
    next => exact h.setSame rfl ⟨rfl, rfl, rfl⟩ rfl id
    next hdfl => exact h.set (hlate k hk hdfl) (h.freed t) id (h.born t)
    next => exact h.setSame rfl ⟨rfl, rfl, rfl⟩ rfl id

theorem State.Late.taskCreateTsk {parent : TaskId} (hchild : (s.task t).pc = .unborn) :
    (taskCreateTsk s parent t).Late := by
  have h1 := h.setSame (t := parent)
    (x := { s.task parent with children := t :: (s.task parent).children })
    rfl ⟨rfl, rfl, rfl⟩ rfl id
  refine h1.set nofun (by simp) (fun hout => ?_) nofun
  have hs := State.field_set Task.switchedOut (s := s) (t := parent)
    (x := { s.task parent with children := t :: (s.task parent).children }) rfl t
  exact absurd hchild (h.born t (hs.symm.trans hout))

theorem State.Late.step {a : Act n} (ha : takesLate s a = true) (hs : step s a = some s') :
    s'.Late := by
  unfold Exit.step at hs
  split_ifs at hs
  cases a <;> simp only [stepLive] at hs
  case createTask =>
    split_ifs at hs with hc
    cases hs
    exact h.taskCreateTsk hc.2
  case holdTask c t =>
    split_ifs at hs
    cases hs
    refine State.Late.congr (s := s.set t { s.task t with usage := (s.task t).usage + 1 }) ?_ rfl
    exact h.setSame rfl ⟨rfl, rfl, rfl⟩ rfl id
  case releaseTask c t =>
    split_ifs at hs
    cases hs
    refine State.Late.putTaskStruct ?_ t
    exact h.congr rfl
  case sendSignal | doSignal =>
    split_ifs at hs
    cases hs
    exact h.setSame rfl ⟨rfl, rfl, rfl⟩ rfl id
  case notifyParent =>
    split_ifs at hs
    cases hs
    exact State.Late.setSame (h.setSame rfl ⟨rfl, rfl, rfl⟩ rfl nofun) rfl ⟨rfl, rfl, rfl⟩ rfl id
  case taskDoExit =>
    split_ifs at hs
    exact h.taskDoExit hs
  case contextSwitch =>
    split_ifs at hs
    cases hs
    exact h.congr rfl
  case finishTaskSwitch c =>
    obtain ⟨prev, -, rfl⟩ := Option.map_eq_some_iff.mp hs
    exact h.finishTaskSwitch c prev
  case getSignal c =>
    split_ifs at hs
    obtain ⟨pos, hpos, rfl⟩ := Option.map_eq_some_iff.mp hs
    refine h.getSignal fun k hk hdfl u hu => ?_
    simp only [takesLate, hpos, Option.all_some] at ha
    change (notifierTableNext (s.cur c) pos) = some k at hk
    change (s.cur c).action k = .dfl at hdfl
    simp only [hk, Option.all_some, hdfl, ne_eq, not_true_eq_false, decide_false, Bool.false_or,
      List.all_eq_true] at ha
    exact ha u hu
  case doDefaultSignalHandle =>
    split_ifs at hs
    exact h.doDefaultSignalHandle hs

end

/-- **Reaping frees no running task** in the runs in which `get_signal` takes default actions
late. -/
theorem reaped_late (h : (machine n).Reach (fun s a => takesLate s a = true) s) :
    s.ReapedLate := by
  refine State.Late.freed (Reach.invariant (I := State.Late) (fun s hs => ?_)
    (fun _ _ _ hI ha hs => hI.step ha hs) h)
  obtain ⟨hfresh, -⟩ := hs
  refine ⟨fun t u hu => ?_, fun t ht => ?_, fun t ht => ?_⟩
  · rw [(hfresh t).reaping] at hu
    cases hu
  · obtain ⟨h1, h2, h3⟩ := (hfresh t).freed
    simp [h1, h2, h3] at ht
  · rw [(hfresh t).switchedOut] at ht
    cases ht

end

/-- The parent handles the signal after the switch is finished. -/
theorem reaped_late_second : ∃ s, (machine 2).run booted (.holdTask 0 3 :: sendSigchld ++
      exitAndSwitch ++ .finishTaskSwitch 1 :: handleSigchld) = some s ∧
    (s.task 3).stackFreed = true ∧ s.ReapedLate := by
  obtain ⟨s, hs, hreach, hfreed⟩ := exists_run (G := fun s a => takesLate s a = true)
    (P := fun s => (s.task 3).stackFreed = true) (.init booted_init) (.holdTask 0 3 ::
      sendSigchld ++ exitAndSwitch ++ .finishTaskSwitch 1 :: handleSigchld) (by decide +kernel)
  exact ⟨s, hs, hfreed, reaped_late hreach⟩

/-- The stack of task 3 is freed while the second CPU runs on it. -/
theorem reaped_running : ¬ ∀ s, (machine 2).Reach free s → s.ReapedLate := by
  intro h
  obtain ⟨s, hreach, -, hfreed, hin⟩ := exists_reach (G := free) (P := fun s => s.current 1 = 3 ∧
    (s.task 3).stackFreed = true ∧ (s.task 3).switchedOut = false) (.init booted_init)
    (sendSigchld ++ List.replicate 5 (.taskDoExit 1) ++ handleSigchld) (by decide +kernel)
  have hout := h s hreach 3 (.inr (.inl hfreed))
  rw [hin] at hout
  cases hout

end MinixRt.Sched.Exit
