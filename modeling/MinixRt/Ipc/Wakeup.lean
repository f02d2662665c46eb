import MinixRt.Ipc.Answer

/-!
# No wake-up is lost

A task that waits is between `prepare_to_wait` and its wake-up: its entry is in the queue
as long as its state is `TASK_UNINTERRUPTIBLE`. When the condition it waits for becomes
true, the task that made it true has a `wake_up` of that queue still to run. Both facts
hold in every state reached by runs without a test of `is_finish` inside the window of a
reply; the condition is needed because the `kmalloc` of a node that is still waited on
would empty its queue.
-/

namespace MinixRt.Ipc

open Function State Lib.Machine

/-! ## The wait queues -/

section Queues

variable {s s' : State} {q q' : Queue} {t u : TaskId}

theorem waiters_setWaiters_self (l : List TaskId) : (s.setWaiters q l).waiters q = l := by
  cases q <;> simp [setWaiters, waiters]

theorem waiters_setWaiters_of_ne (h : q' ≠ q) (l : List TaskId) :
    (s.setWaiters q l).waiters q' = s.waiters q' := by
  cases q <;> cases q' <;> simp only [setWaiters, waiters, setEp, setNode]
  · rw [update_of_ne fun he => h (by rw [he])]
  · rw [update_of_ne fun hx => h (by rw [hx])]

theorem tstate_setWaiters (l : List TaskId) : (s.setWaiters q l).tstate = s.tstate := by
  cases q <;> rfl

theorem waiters_setPc (t : TaskId) (p : Pc) : (s.setPc t p).waiters q = s.waiters q := by
  cases q <;> rfl

theorem waiters_log (ev : Event) : (s.log ev).waiters q = s.waiters q := by
  cases q <;> rfl

theorem waiters_setEp {e : Endpoint} {f : EndpointInfo → EndpointInfo}
    (hf : (f (s.ep e)).wait = (s.ep e).wait) : (s.setEp e f).waiters q = s.waiters q := by
  cases q with
  | ep e' =>
    by_cases hee : e' = e
    · subst hee
      simpa [waiters] using hf
    · simp [waiters, hee]
  | node => rfl

theorem waiters_setNode {x : Addr} {f : Node → Node} (hf : (f (s.node x)).wait = (s.node x).wait) :
    (s.setNode x f).waiters q = s.waiters q := by
  cases q with
  | ep => rfl
  | node y =>
    by_cases hyx : y = x
    · subst hyx
      simpa [waiters] using hf
    · simp [waiters, hyx]

theorem tstate_tryToWakeUp (h : (tryToWakeUp s t).1.tstate u = .uninterruptible) :
    s.tstate u = .uninterruptible ∧ u ≠ t := by
  unfold tryToWakeUp at h
  split at h
  · by_cases hut : u = t
    · subst hut
      simp at h
    · exact ⟨by simpa [hut] using h, hut⟩
  · rename_i hne
    exact ⟨h, fun hut => hne (hut ▸ h)⟩

theorem waiters_tryToWakeUp : (tryToWakeUp s t).1.waiters q = s.waiters q := by
  unfold tryToWakeUp
  split
  · cases q <;> rfl
  · rfl

theorem tstate_autoremove (h : (autoremoveWakeFunction q s t).tstate u = .uninterruptible) :
    s.tstate u = .uninterruptible ∧ u ≠ t := by
  unfold autoremoveWakeFunction at h
  dsimp only at h
  split at h
  · rw [tstate_setWaiters] at h
    exact tstate_tryToWakeUp h
  · exact tstate_tryToWakeUp h

theorem waiters_autoremove_of_ne (h : q' ≠ q) :
    (autoremoveWakeFunction q s t).waiters q' = s.waiters q' := by
  unfold autoremoveWakeFunction
  dsimp only
  split
  · rw [waiters_setWaiters_of_ne h, waiters_tryToWakeUp]
  · exact waiters_tryToWakeUp

theorem foldl_autoremove (q' : Queue) (u : TaskId) (ts : List TaskId) :
    ((ts.foldl (autoremoveWakeFunction q) s).tstate u = .uninterruptible →
        s.tstate u = .uninterruptible ∧ u ∉ ts) ∧
      (q' ≠ q → (ts.foldl (autoremoveWakeFunction q) s).waiters q' = s.waiters q') := by
  induction ts generalizing s with
  | nil => exact ⟨fun h => ⟨h, List.not_mem_nil⟩, fun _ => rfl⟩
  | cons t ts ih =>
    refine ⟨fun h => ?_, fun h => (ih.2 h).trans (waiters_autoremove_of_ne h)⟩
    obtain ⟨hu, hmem⟩ := ih.1 h
    obtain ⟨hu', hne⟩ := tstate_autoremove hu
    exact ⟨hu', by simp [hne, hmem]⟩

theorem tstate_wakeUp (h : (wakeUp s q).tstate u = .uninterruptible) :
    s.tstate u = .uninterruptible ∧ u ∉ s.waiters q :=
  (foldl_autoremove q u _).1 h

theorem waiters_wakeUp_of_ne (h : q' ≠ q) : (wakeUp s q).waiters q' = s.waiters q' :=
  (foldl_autoremove _ 0 _).2 h

theorem mem_prepareToWait : t ∈ (prepareToWait s q t).waiters q := by
  unfold prepareToWait
  split
  · cases q <;> assumption
  · have : t ∈ (s.setWaiters q (t :: s.waiters q)).waiters q := by
      rw [waiters_setWaiters_self]
      exact List.mem_cons_self
    cases q <;> exact this

theorem mem_prepareToWait_of_mem (h : u ∈ s.waiters q') : u ∈ (prepareToWait s q t).waiters q' := by
  unfold prepareToWait
  split
  · cases q' <;> exact h
  · have : u ∈ (s.setWaiters q (t :: s.waiters q)).waiters q' := by
      by_cases hq : q' = q
      · subst hq
        rw [waiters_setWaiters_self]
        exact List.mem_cons_of_mem _ h
      · rwa [waiters_setWaiters_of_ne hq]
    cases q' <;> exact this

theorem tstate_prepareToWait_of_ne (h : u ≠ t) : (prepareToWait s q t).tstate u = s.tstate u := by
  unfold prepareToWait
  split <;> simp [h, tstate_setWaiters]

theorem waitEvent_other (q' : Queue) {b : Bool} {w : WaitPc} {r : Option WaitPc} (hut : u ≠ t)
    (h : waitEvent s t q b w = some (s', r)) :
    s'.tstate u = s.tstate u ∧ (u ∈ s.waiters q' → u ∈ s'.waiters q') := by
  cases w <;> simp only [waitEvent] at h
  case prep =>
    cases h
    exact ⟨tstate_prepareToWait_of_ne hut, mem_prepareToWait_of_mem⟩
  case blocked =>
    split at h <;> cases h
    exact ⟨rfl, id⟩
  case finish =>
    cases h
    refine ⟨by simp [hut], fun hu => ?_⟩
    cases q' <;> exact hu
  case unqueue =>
    cases h
    refine ⟨by rw [tstate_setWaiters], fun hu => ?_⟩
    by_cases hq : q' = q
    · subst hq
      rw [waiters_setWaiters_self]
      exact (List.mem_erase_of_ne hut).mpr hu
    · rwa [waiters_setWaiters_of_ne hq]
  all_goals
    cases h
    exact ⟨rfl, id⟩

end Queues

/-! ## Sleepers and their wake-ups -/

/-- Who waits, and for what: a sender for its node to be finished, a server for its
endpoint to be running. -/
inductive Sleeper
  | sender (e : Endpoint) (x : Addr)
  | server (e : Endpoint)

def Pc.sleeper : Pc → Option (Sleeper × WaitPc)
  | .send e _ (.wait x w) => some (.sender e x, w)
  | .receive e (.wait w) => some (.server e, w)
  | _ => none

namespace Sleeper

def queue : Sleeper → Queue
  | .sender _ x => .node x
  | .server e => .ep e

/-- The condition it waits for holds. -/
def Due (s : State) : Sleeper → Prop
  | .sender _ x => (s.node x).isFinish = true
  | .server e => (s.ep e).state = .running

/-- A `wake_up` of its queue is still to run. -/
def Coming (s : State) : Sleeper → Prop
  | .sender e x => s.inWindow e x = true
  | .server e => ∃ u m x, s.pc u = .send e m (.wake x)

end Sleeper

/-- Between `prepare_to_wait` and the wake-up. -/
def WaitPc.queued : WaitPc → Bool
  | .test => true
  | .sched => true
  | .blocked => true
  | _ => false

def Pc.queued (p : Pc) : Bool := p.sleeper.any (·.2.queued)

/-- At a sender's `wake_up`. -/
def Pc.wakes : Pc → Bool
  | .send _ _ (.wake _) => true
  | _ => false

theorem Pc.ne_wake {p : Pc} (h : p.wakes = false) (e : Endpoint) (m : Message) (x : Addr) :
    p ≠ .send e m (.wake x) := by
  rintro rfl
  cases h

/-- Past the test of the condition. -/
def WaitPc.tested : WaitPc → Bool
  | .sched => true
  | .blocked => true
  | _ => false

/-- A task that has not been woken is queued, and a wake-up is coming if one is due. -/
def SleepOk (s : State) (t : TaskId) : Prop :=
  ∀ k w, (s.pc t).sleeper = some (k, w) → w.queued = true → s.tstate t = .uninterruptible →
    t ∈ s.waiters k.queue ∧ (w.tested = true → k.Due s → k.Coming s)

/-- A step of another task leaves the sleeper `t` queued and its wake-up coming, unless it
wakes it. -/
def Undisturbed (s s' : State) (t : TaskId) : Prop :=
  ∀ k w, (s.pc t).sleeper = some (k, w) → s'.tstate t = .uninterruptible →
    s.tstate t = .uninterruptible ∧ (t ∈ s.waiters k.queue →
      t ∈ s'.waiters k.queue ∧ (k.Due s' → k.Coming s' ∨ k.Due s ∧ (k.Coming s → k.Coming s')))

variable {t : TaskId} {s s' : State}

theorem SleepOk.undisturbed (h : SleepOk s t) (hpc : s'.pc t = s.pc t) (hu : Undisturbed s s' t) :
    SleepOk s' t := by
  intro k w hk hw ht
  rw [hpc] at hk
  obtain ⟨ht0, hkeep⟩ := hu k w hk ht
  obtain ⟨hmem, hcoming⟩ := h k w hk hw ht0
  obtain ⟨hmem', hdue⟩ := hkeep hmem
  refine ⟨hmem', fun htested hd => ?_⟩
  rcases hdue hd with hc | ⟨hd0, hc⟩
  · exact hc
  · exact hc (hcoming htested hd0)

section Frames

variable {s s' : State} {t u : TaskId} {p p' : Pc}

variable {k : Sleeper}

theorem due_mono (hstate : ∀ e, (s'.ep e).state = .running → (s.ep e).state = .running)
    (hfin : ∀ x, (s'.node x).isFinish = true → (s.node x).isFinish = true) (h : k.Due s') :
    k.Due s := by
  cases k with
  | sender e x => exact hfin x h
  | server e => exact hstate e h

theorem coming_mono (hpc : s'.pc = update s.pc t p') (htsk : ∀ e, (s'.ep e).tsk = (s.ep e).tsk)
    (hwin : ∀ e x, k = .sender e x → (s.pc t).window = some x → p'.window = some x)
    (hwake : ∀ e m x, k = .server e → s.pc t ≠ .send e m (.wake x)) (h : k.Coming s) :
    k.Coming s' := by
  cases k with
  | sender e x =>
    simp only [Sleeper.Coming, State.inWindow, htsk, hpc] at h ⊢
    cases hv : (s.ep e).tsk with
    | none => simp [hv] at h
    | some v =>
      simp only [hv, beq_iff_eq] at h ⊢
      by_cases hvt : v = t
      · subst hvt
        rw [update_self]
        exact hwin e x rfl h
      · rwa [update_of_ne hvt]
  | server e =>
    obtain ⟨v, m, x, hv⟩ := h
    have hvt : v ≠ t := by
      rintro rfl
      exact hwake e m x rfl hv
    exact ⟨v, m, x, by rw [hpc, update_of_ne hvt, hv]⟩

theorem sleepOk_of_not_queued (hpc : s'.pc t = p') (hp' : p'.queued = false) : SleepOk s' t := by
  intro k w hk hw
  rw [hpc] at hk
  rw [Pc.queued, hk] at hp'
  cases hw.symm.trans hp'

/-- A statement of `t` after which it is no queued sleeper. -/
theorem sleepOk_of_undisturbed (u : TaskId) (h : ∀ u, SleepOk s u) (hpc : s'.pc = update s.pc t p')
    (hp' : p'.queued = false) (hu : u ≠ t → Undisturbed s s' u) : SleepOk s' u := by
  by_cases hut : u = t
  · subst hut
    exact sleepOk_of_not_queued (by rw [hpc, update_self]) hp'
  · exact (h u).undisturbed (by rw [hpc, update_of_ne hut]) (hu hut)

end Frames

/-- What changes concerns no sleeper: nobody is woken and no condition becomes true. -/
structure Quiet (s s' : State) : Prop where
  pc : s'.pc = s.pc
  tstate : s'.tstate = s.tstate
  waiters : ∀ q, s'.waiters q = s.waiters q
  state : ∀ e, (s'.ep e).state = .running → (s.ep e).state = .running
  isFinish : ∀ x, (s'.node x).isFinish = true → (s.node x).isFinish = true
  tsk : ∀ e, (s'.ep e).tsk = (s.ep e).tsk

namespace Quiet

variable {s s' : State}

theorem refl (s : State) : Quiet s s :=
  ⟨rfl, rfl, fun _ => rfl, fun _ h => h, fun _ h => h, fun _ => rfl⟩

theorem log (h : Quiet s s') {ev : Event} : Quiet s (s'.log ev) :=
  { h with waiters := fun q => (waiters_log ev).trans (h.waiters q) }

theorem setAllocated (h : Quiet s s') (x : Addr) (b : Bool) : Quiet s (s'.setAllocated x b) :=
  { h with waiters := fun q => by rw [← h.waiters q]; cases q <;> rfl }

theorem setNode (h : Quiet s s') (x : Addr) {f : Node → Node} (hwait : ∀ n, (f n).wait = n.wait)
    (hfin : ∀ n, (f n).isFinish = true → n.isFinish = true) : Quiet s (s'.setNode x f) :=
  { h with
    waiters := fun q => (waiters_setNode (hwait _)).trans (h.waiters q)
    isFinish := fun y hy => by
      by_cases hyx : y = x
      · subst hyx
        exact h.isFinish y (hfin _ (by simpa using hy))
      · exact h.isFinish y (by simpa [hyx] using hy) }

theorem setEp (h : Quiet s s') (e : Endpoint) {f : EndpointInfo → EndpointInfo}
    (hwait : ∀ i, (f i).wait = i.wait) (htsk : ∀ i, (f i).tsk = i.tsk)
    (hstate : ∀ i, (f i).state = .running → i.state = .running) : Quiet s (s'.setEp e f) :=
  { h with
    waiters := fun q => (waiters_setEp (hwait _)).trans (h.waiters q)
    state := fun e' he' => by
      by_cases hee : e' = e
      · subst hee
        exact h.state e' (hstate _ (by simpa using he'))
      · exact h.state e' (by simpa [hee] using he')
    tsk := fun e' => by
      rw [← h.tsk e']
      by_cases hee : e' = e
      · subst hee
        simp [htsk]
      · simp [hee] }

end Quiet

/-- A statement of `t` that concerns no sleeper and neither starts nor ends a window. -/
theorem sleepOk_quiet {s s₁ : State} {p p' : Pc} (u : TaskId) (h : ∀ u, SleepOk s u)
    (hq : Quiet s s₁) (hpc : s.pc t = p) (hwin : p'.window = p.window) (hwake : p.wakes = false)
    (hp' : p'.queued = false) : SleepOk (s₁.setPc t p') u := by
  have hpc' : (s₁.setPc t p').pc = update s.pc t p' := by
    simp [hq.pc]
  refine sleepOk_of_undisturbed u h hpc' hp' fun _ k w hk ht => ?_
  refine ⟨hq.tstate ▸ ht, fun hmem => ⟨?_, fun hd => .inr ?_⟩⟩
  · rwa [waiters_setPc, hq.waiters]
  · refine ⟨due_mono hq.state hq.isFinish hd, coming_mono hpc' hq.tsk ?_ ?_⟩
    · intro e x _ hw
      rw [hwin, ← hpc, hw]
    · exact fun e m x _ => hpc ▸ Pc.ne_wake hwake e m x

/-! ## The wait loops -/

section Loops

variable {s s₁ : State} {t : TaskId} {p' : Pc} {q : Queue} {b : Bool} {w : WaitPc}
  {r : Option WaitPc}

theorem undisturbed_waitEvent (hwait : waitEvent s t q b w = some (s₁, r))
    (hwin : (s.pc t).window = none) (hwake : ∀ e m x, s.pc t ≠ .send e m (.wake x)) {u : TaskId}
    (hut : u ≠ t) : Undisturbed s (s₁.setPc t p') u := by
  have hcore := SameCore.waitEvent hwait
  have hpc' : (s₁.setPc t p').pc = update s.pc t p' := by
    simp [hcore.pc]
  intro k _ _ ht
  obtain ⟨htstate, hmem⟩ := waitEvent_other k.queue hut hwait
  refine ⟨htstate ▸ ht, fun hu => ⟨?_, fun hd => .inr ⟨?_, ?_⟩⟩⟩
  · cases hk : k.queue <;> rw [hk] at hu hmem <;> exact hmem hu
  · refine due_mono ?_ ?_ hd
    · exact fun e he => (hcore.state e).symm.trans he
    · exact fun x hx => (hcore.isFinish x).symm.trans hx
  · refine coming_mono hpc' hcore.tsk ?_ ?_
    · intro e x _ hw
      rw [hwin] at hw
      cases hw
    · exact fun e m x _ => hwake e m x

theorem sleepOk_waitEvent {k : Sleeper} (u : TaskId) (h : ∀ u, SleepOk s u)
    (hwait : waitEvent s t k.queue b w = some (s₁, r)) (hk : (s.pc t).sleeper = some (k, w))
    (hb : k.Due s → b = true) (hp' : ∀ k' w', p'.sleeper = some (k', w') → k' = k ∧ r = some w') :
    SleepOk (s₁.setPc t p') u := by
  have hcore := SameCore.waitEvent hwait
  have hwin : (s.pc t).window = none := by
    generalize s.pc t = p at hk
    cases p with
    | reply => cases hk
    | _ => rfl
  have hwake : ∀ e m x, s.pc t ≠ .send e m (.wake x) := by
    intro e m x hpc
    rw [hpc] at hk
    cases hk
  by_cases hut : u ≠ t
  · exact (h u).undisturbed (by simp [hut, hcore.pc]) (undisturbed_waitEvent hwait hwin hwake hut)
  obtain rfl : u = t := not_not.mp hut
  have hpc' : (s₁.setPc u p').pc = update s.pc u p' := by
    simp [hcore.pc]
  intro k' w' hk' hw' ht
  obtain ⟨rfl, rfl⟩ := hp' k' w' (by simpa using hk')
  have hdue : k'.Due (s₁.setPc u p') → k'.Due s :=
    due_mono (fun e he => (hcore.state e).symm.trans he)
      (fun x hx => (hcore.isFinish x).symm.trans hx)
  have hcoming : k'.Coming s → k'.Coming (s₁.setPc u p') := by
    refine coming_mono hpc' hcore.tsk ?_ ?_
    · intro e x _ hw
      rw [hwin] at hw
      cases hw
    · exact fun e m x _ => hwake e m x
  have hqueue : (s₁.setPc u p').waiters k'.queue = s₁.waiters k'.queue := by
    cases k' <;> rfl
  rw [hqueue]
  cases w <;> simp only [waitEvent] at hwait
  case prep =>
    cases hwait
    refine ⟨mem_prepareToWait, fun htest => ?_⟩
    cases htest
  case test =>
    cases hwait
    obtain ⟨hmem, -⟩ := h u k' _ hk rfl ht
    refine ⟨hmem, fun htest hd => ?_⟩
    rw [hb (hdue hd)] at htest
    cases htest
  case sched =>
    cases hwait
    obtain ⟨hmem, hc⟩ := h u k' _ hk rfl ht
    exact ⟨hmem, fun _ hd => hcoming (hc rfl (hdue hd))⟩
  case blocked =>
    split at hwait <;> cases hwait
    cases hw'
  case cond =>
    cases b <;> cases hwait
    cases hw'
  case finish =>
    cases hwait
    cases hw'
  case unqueue => cases hwait

end Loops

/-! ## Statements that wake or reset -/

section Effects

variable {s s' : State} {G : Addr → NodeSt} {t u : TaskId} {p' : Pc} {e : Endpoint}
  {x : Addr} {w : WaitPc}

theorem Inv.sender_of_sleeper (h : Inv s G) (hk : (s.pc u).sleeper = some (.sender e x, w)) :
    SenderWaits (G x) e u := by
  have hp := h.pcOk u
  generalize s.pc u = p at hk hp
  cases p with
  | send e' m p =>
    cases p <;> cases hk
    exact hp.1
  | receive e' p => cases p <;> cases hk
  | _ => cases hk

theorem Inv.server_of_sleeper (h : Inv s G) (hk : (s.pc u).sleeper = some (.server e, w)) :
    (s.ep e).tsk = some u ∧ s.pc u ≠ .idle := by
  have hp := h.pcOk u
  generalize s.pc u = p at hk hp
  cases p with
  | receive e' p =>
    cases p <;> cases hk
    exact ⟨hp.1.1, nofun⟩
  | send e' m p => cases p <;> cases hk
  | _ => cases hk

theorem undisturbed_wakeUp {q : Queue} (htstate : s'.tstate = (wakeUp s q).tstate)
    (hwaiters : ∀ q', s'.waiters q' = (wakeUp s q).waiters q')
    (hstate : ∀ e, (s'.ep e).state = (s.ep e).state)
    (hfin : ∀ x, (s'.node x).isFinish = (s.node x).isFinish)
    (hcoming : ∀ k : Sleeper, k.queue ≠ q → k.Coming s → k.Coming s') : Undisturbed s s' u := by
  intro k _ _ ht
  rw [htstate] at ht
  obtain ⟨ht0, hnot⟩ := tstate_wakeUp ht
  refine ⟨ht0, fun hmem => ?_⟩
  have hq : k.queue ≠ q := fun hq => hnot (hq ▸ hmem)
  refine ⟨by rwa [hwaiters, waiters_wakeUp_of_ne hq], fun hd => .inr ⟨?_, hcoming k hq⟩⟩
  refine due_mono ?_ ?_ hd
  · exact fun e he => (hstate e).symm.trans he
  · exact fun x hx => (hfin x).symm.trans hx

theorem undisturbed_reset (h : Inv s G) (hx : ∀ e, ¬ SenderWaits (G x) e u)
    (hpc : s'.pc = update s.pc t p') (htstate : s'.tstate = s.tstate) (hep : s'.ep = s.ep)
    (hnode : ∀ y, y ≠ x → s'.node y = s.node y) (hwin : (s.pc t).window = none)
    (hwake : ∀ e m x, s.pc t ≠ .send e m (.wake x)) : Undisturbed s s' u := by
  intro k w hk ht
  rw [htstate] at ht
  have hcoming : k.Coming s → k.Coming s' := by
    refine coming_mono hpc (fun e => by rw [hep]) ?_ ?_
    · intro e y _ hw
      rw [hwin] at hw
      cases hw
    · exact fun e m y _ => hwake e m y
  refine ⟨ht, fun hmem => ?_⟩
  cases k with
  | sender e y =>
    have hyx : y ≠ x := by
      rintro rfl
      exact hx e (h.sender_of_sleeper hk)
    refine ⟨?_, fun hd => .inr ⟨?_, hcoming⟩⟩
    · simpa only [Sleeper.queue, waiters, hnode y hyx] using hmem
    · simpa only [Sleeper.Due, hnode y hyx] using hd
  | server =>
    refine ⟨?_, fun hd => .inr ⟨?_, hcoming⟩⟩
    · simpa only [Sleeper.queue, waiters, hep] using hmem
    · simpa only [Sleeper.Due, hep] using hd

theorem not_senderWaits_free (hx : G x = .free) (e : Endpoint) (u : TaskId) :
    ¬ SenderWaits (G x) e u := by
  simp [hx, SenderWaits]

theorem not_senderWaits_building (hx : G x = .building t) (e : Endpoint) (u : TaskId) :
    ¬ SenderWaits (G x) e u := by
  simp [hx, SenderWaits]

end Effects

/-! ## The statements of the calls -/

section Statements

variable {s s' : State} {G : Addr → NodeSt} {t : TaskId} {e : Endpoint} {m : Message}
  {x : Addr}

variable (h : ∀ u, SleepOk s u)
include h

/-- Appending marks a waiting server running with the `wake_up` of this sender coming. -/
theorem sleepOk_append (hpc : s.pc t = .send e m (.append x))
    (hs : ipcSend s t e m (.append x) = some s') (u : TaskId) : SleepOk s' u := by
  simp only [ipcSend] at hs
  split at hs <;> cases hs
  · refine sleepOk_of_undisturbed u h rfl rfl fun _ k w _ ht => ?_
    refine ⟨ht, fun hmem => ⟨?_, fun hd => ?_⟩⟩
    · cases k with
      | sender => exact hmem
      | server e' =>
        by_cases hee : e' = e
        · subst hee
          simpa [Sleeper.queue, waiters] using hmem
        · simpa [Sleeper.queue, waiters, hee] using hmem
    · by_cases hk : k = .server e
      · subst hk
        exact .inl ⟨t, m, x, by simp⟩
      · refine .inr ⟨?_, ?_⟩
        · cases k with
          | sender => exact hd
          | server e' =>
            have hee : e' ≠ e := fun hee => hk (by rw [hee])
            simpa [Sleeper.Due, hee] using hd
        · refine coming_mono (t := t) rfl ?_ ?_ ?_
          · intro e'
            by_cases hee : e' = e
            · subst hee
              simp
            · simp [hee]
          · simp [hpc, Pc.window]
          · simp [hpc]
  · refine sleepOk_quiet u h (Quiet.log ?_) hpc rfl rfl rfl
    exact (Quiet.refl s).setEp e (fun _ => rfl) (fun _ => rfl) fun _ hr => hr

theorem sleepOk_sendWake (hpc : s.pc t = .send e m (.wake x)) (u : TaskId) :
    SleepOk ((wakeUp s (.ep e)).setPc t (.send e m (.type x))) u := by
  have hcore := SameCore.wakeUp s (.ep e)
  have hpc' : ((wakeUp s (.ep e)).setPc t (.send e m (.type x))).pc =
      update s.pc t (.send e m (.type x)) := by
    simp [hcore.pc]
  refine sleepOk_of_undisturbed u h hpc' rfl fun _ => ?_
  refine undisturbed_wakeUp (q := .ep e) rfl (fun q' => by cases q' <;> rfl) hcore.state
    hcore.isFinish fun k hk => ?_
  refine coming_mono hpc' hcore.tsk ?_ ?_
  · simp [hpc, Pc.window]
  · rintro e' m' y rfl heq
    rw [hpc] at heq
    cases heq
    exact hk rfl

variable {p : SendPc}

theorem sleepOk_reset (p' : SendPc) (hG : Inv s G) (hpc : s.pc t = .send e m p)
    (hp : (Pc.send e m p).wakes = false) (hx : ∀ e u, ¬ SenderWaits (G x) e u)
    (hpc' : s'.pc = update s.pc t (.send e m p')) (hp' : (Pc.send e m p').queued = false)
    (htstate : s'.tstate = s.tstate) (hep : s'.ep = s.ep)
    (hnode : ∀ y, y ≠ x → s'.node y = s.node y) (u : TaskId) : SleepOk s' u := by
  refine sleepOk_of_undisturbed u h hpc' hp' fun _ => ?_
  refine undisturbed_reset hG (fun e => hx e u) hpc' htstate hep hnode (by rw [hpc]; rfl) ?_
  exact hpc ▸ Pc.ne_wake hp

theorem sleepOk_ipcSend (hG : Inv s G) (hpc : s.pc t = .send e m p)
    (hs : ipcSend s t e m p = some s') (u : TaskId) : SleepOk s' u := by
  cases p with
  | tsk =>
    cases hs
    exact sleepOk_quiet u h (Quiet.refl s) hpc rfl rfl (by split <;> rfl)
  | timeout =>
    simp only [ipcSend] at hs
    split at hs
    · cases hs
    · obtain ⟨⟨s₁, r⟩, hwait, rfl⟩ := Option.map_eq_some_iff.mp hs
      have hcore := SameCore.waitEvent hwait
      refine sleepOk_of_undisturbed u h (congrArg (update · t _) hcore.pc) ?_
        (undisturbed_waitEvent hwait (by rw [hpc]; rfl) (by simp [hpc]))
      cases r <;> rfl
  | checkRet =>
    simp only [ipcSend] at hs
    split at hs <;> cases hs
    · exact sleepOk_quiet u h (Quiet.refl s).log hpc rfl rfl rfl
    · exact sleepOk_quiet u h (Quiet.refl s) hpc rfl rfl rfl
  | alloc => cases hs
  | copyIn y =>
    cases hs
    exact sleepOk_quiet u h ((Quiet.refl s).setNode y (fun _ => rfl) fun _ hf => hf) hpc rfl rfl
      rfl
  | clear y =>
    cases hs
    exact sleepOk_quiet u h ((Quiet.refl s).setNode y (fun _ => rfl) (by simp)) hpc rfl rfl rfl
  | initWait y =>
    cases hs
    obtain ⟨hy, -⟩ : SendOk s G t e m (.initWait y) := hG.sendOk hpc
    refine sleepOk_reset h (.append y) hG hpc rfl (not_senderWaits_building hy) ?_ rfl ?_ ?_ ?_ u
    · exact rfl
    · exact rfl
    · exact rfl
    · simp +contextual
  | append => exact sleepOk_append h hpc hs u
  | wake =>
    cases hs
    exact sleepOk_sendWake h hpc u
  | type =>
    cases hs
    exact sleepOk_quiet u h (Quiet.refl s) hpc (by split <;> rfl) rfl (by split <;> rfl)
  | wait y =>
    obtain ⟨⟨s₁, r⟩, hwait, rfl⟩ := Option.map_eq_some_iff.mp hs
    refine sleepOk_waitEvent (k := .sender e y) u h hwait (by rw [hpc]; rfl) id ?_
    cases r with
    | none =>
      intro _ _ hk
      cases hk
    | some =>
      intro k' w'' hk
      cases hk
      exact ⟨rfl, rfl⟩
  | copyOut =>
    cases hs
    exact sleepOk_quiet u h (Quiet.refl s) hpc rfl rfl rfl
  | free y =>
    cases hs
    exact sleepOk_quiet u h ((Quiet.refl s).setAllocated y false).log.log hpc rfl rfl
      rfl

theorem sleepOk_ipcSendAlloc (hG : Inv s G) (hpc : s.pc t = .send e m .alloc) {r : Option Addr}
    (hs : ipcSendAlloc s t e m r = some s') (u : TaskId) : SleepOk s' u := by
  cases r with
  | none =>
    cases hs
    exact sleepOk_quiet u h (Quiet.refl s) hpc rfl rfl rfl
  | some y =>
    simp only [ipcSendAlloc] at hs
    split at hs
    · cases hs
    · rename_i hfree
      cases hs
      have hy : G y = .free := (hG.alloc y).mp (by simpa using hfree)
      refine sleepOk_reset h (.copyIn y) hG hpc rfl (not_senderWaits_free hy) ?_ rfl ?_ ?_ ?_ u
      · exact rfl
      · exact rfl
      · exact rfl
      · simp +contextual

theorem sleepOk_ipcReceive {p : RecvPc} (hpc : s.pc t = .receive e p)
    (hs : ipcReceive s t e p = some s') (u : TaskId) : SleepOk s' u := by
  cases p with
  | list =>
    simp only [ipcReceive] at hs
    split at hs <;> cases hs
    · exact sleepOk_quiet u h ((Quiet.refl s).setEp e (fun _ => rfl) (fun _ => rfl) (by simp)) hpc rfl
        rfl rfl
    · exact sleepOk_quiet u h (Quiet.refl s) hpc rfl rfl rfl
  | wait =>
    obtain ⟨⟨s₁, r⟩, hwait, rfl⟩ := Option.map_eq_some_iff.mp hs
    refine sleepOk_waitEvent (k := .server e) u h hwait (by rw [hpc]; rfl) ?_ ?_
    · exact fun hd => decide_eq_true hd
    · cases r with
      | none =>
        intro _ _ hk
        cases hk
      | some =>
        intro k' w'' hk
        cases hk
        exact ⟨rfl, rfl⟩
  | first =>
    simp only [ipcReceive] at hs
    split at hs <;> cases hs
    exact sleepOk_quiet u h (Quiet.refl s) hpc rfl rfl rfl
  | inc =>
    cases hs
    refine sleepOk_quiet u h (Quiet.log ?_) hpc rfl rfl rfl
    exact (Quiet.refl s).setEp e (fun _ => rfl) (fun _ => rfl) fun _ hr => hr
  | copy =>
    cases hs
    exact sleepOk_quiet u h (Quiet.refl s) hpc rfl rfl rfl
  | _ =>
    cases hs
    exact sleepOk_quiet u h (Quiet.refl s) hpc (by split <;> rfl) rfl (by split <;> rfl)

theorem sleepOk_finish (hG : Inv s G) (hpc : s.pc t = .reply e m (.finish x)) (u : TaskId) :
    SleepOk ((s.setNode x fun n => { n with isFinish := true }).setPc t
      (.reply e m (.copy x))) u := by
  obtain ⟨⟨ht, -⟩, -, o, hx⟩ : ReplyOk s G t e m (.finish x) := hG.replyOk hpc
  refine sleepOk_of_undisturbed u h rfl rfl fun _ k w hk htst => ?_
  refine ⟨htst, fun hmem => ⟨by rwa [waiters_setPc, waiters_setNode rfl], fun hd => ?_⟩⟩
  by_cases hkx : ∃ e', k = .sender e' x
  · obtain ⟨e', rfl⟩ := hkx
    -- the sleeper is the sender of the dequeued node, so it waits at the same endpoint
    have hwaits := hG.sender_of_sleeper hk
    simp only [hx, SenderWaits, reduceCtorEq, NodeSt.inHand.injEq, false_or, exists_const,
      or_false] at hwaits
    obtain ⟨_, rfl, -⟩ := hwaits
    exact .inl (by simp [Sleeper.Coming, State.inWindow, ht, Pc.window])
  · refine .inr ⟨?_, coming_mono (t := t) rfl (fun _ => rfl) ?_ ?_⟩
    · cases k with
      | sender e' y =>
        have hyx : y ≠ x := by
          rintro rfl
          exact hkx ⟨e', rfl⟩
        simpa [Sleeper.Due, hyx] using hd
      | server => exact hd
    · simp [hpc, Pc.window]
    · simp [hpc]

theorem sleepOk_replyWake (hpc : s.pc t = .reply e m (.wake x)) (u : TaskId) :
    SleepOk ((wakeUp s (.node x)).setPc t (.reply e m (.dec x))) u := by
  have hcore := SameCore.wakeUp s (.node x)
  have hpc' : ((wakeUp s (.node x)).setPc t (.reply e m (.dec x))).pc =
      update s.pc t (.reply e m (.dec x)) := by
    simp [hcore.pc]
  refine sleepOk_of_undisturbed u h hpc' rfl fun _ => ?_
  refine undisturbed_wakeUp (q := .node x) rfl (fun q => waiters_setPc _ _) hcore.state
    hcore.isFinish fun k hk => ?_
  refine coming_mono hpc' hcore.tsk ?_ ?_
  · rintro e' y rfl hw
    rw [hpc] at hw
    cases hw
    exact absurd rfl hk
  · simp [hpc]

theorem sleepOk_ipcReply (hG : Inv s G) {p : ReplyPc} (hpc : s.pc t = .reply e m p)
    (hs : ipcReply s t e m p = some s') (u : TaskId) : SleepOk s' u := by
  cases p with
  | del =>
    simp only [ipcReply] at hs
    split at hs <;> cases hs
    refine sleepOk_quiet u h (Quiet.log ?_) hpc rfl rfl rfl
    exact (Quiet.refl s).setEp e (fun _ => rfl) (fun _ => rfl) fun _ hr => hr
  | free y =>
    cases hs
    exact sleepOk_quiet u h ((Quiet.refl s).setAllocated y false) hpc rfl rfl rfl
  | finish =>
    cases hs
    exact sleepOk_finish h hG hpc u
  | copy y =>
    cases hs
    exact sleepOk_quiet u h ((Quiet.refl s).setNode y (fun _ => rfl) fun _ hf => hf) hpc rfl rfl
      rfl
  | wake =>
    cases hs
    exact sleepOk_replyWake h hpc u
  | dec =>
    cases hs
    refine sleepOk_quiet u h (Quiet.log ?_) hpc rfl rfl rfl
    exact (Quiet.refl s).setEp e (fun _ => rfl) (fun _ => rfl) fun _ hr => hr
  | _ =>
    cases hs
    exact sleepOk_quiet u h (Quiet.refl s) hpc (by split <;> rfl) rfl (by split <;> rfl)

theorem sleepOk_ipcRegister (hs : ipcRegister s e t = some s') (u : TaskId) : SleepOk s' u := by
  simp only [ipcRegister] at hs
  split at hs <;> cases hs
  rename_i hreg
  refine (h u).undisturbed rfl ?_
  intro k w _ ht
  refine ⟨ht, fun hmem => ⟨?_, fun hd => .inr ⟨?_, fun hc => ?_⟩⟩⟩
  · have hq : (s.setEp e fun i => { i with tsk := some t }).waiters k.queue = s.waiters k.queue :=
      waiters_setEp rfl
    rw [← hq] at hmem
    cases k <;> exact hmem
  · refine due_mono ?_ ?_ hd
    · intro e'
      by_cases hee : e' = e
      · subst hee
        simp
      · simp [hee]
    · exact fun _ hx => hx
  · cases k with
    | server => exact hc
    | sender e' =>
      have hee : e' ≠ e := by
        rintro rfl
        simp [Sleeper.Coming, State.inWindow, hreg.1] at hc
      simpa [Sleeper.Coming, State.inWindow, hee] using hc

theorem sleepOk_ipcRegisterNext (hG : Inv s G) (hs : ipcRegisterNext s e (s.reg e) = some s')
    (u : TaskId) : SleepOk s' u := by
  cases hr : s.reg e <;> rw [hr] at hs
  case none => cases hs
  case done => cases hs
  case setState =>
    cases hs
    refine (h u).undisturbed rfl ?_
    intro k w hk ht
    refine ⟨ht, fun hmem => ⟨?_, fun hd => .inr ⟨?_, fun hc => ?_⟩⟩⟩
    · have hq : (s.setEp e fun i => { i with state := .running }).waiters k.queue =
          s.waiters k.queue := waiters_setEp rfl
      rw [← hq] at hmem
      cases k <;> exact hmem
    · cases k with
      | sender => exact hd
      | server e' =>
        have hee : e' ≠ e := by
          rintro rfl
          obtain ⟨htsk, hbusy⟩ := hG.server_of_sleeper hk
          exact hbusy (hG.idle_of_reg (by rw [hr]; exact nofun) htsk)
        simpa [Sleeper.Due, hee] using hd
    · cases k with
      | server => exact hc
      | sender e' =>
        by_cases hee : e' = e
        · subst hee
          simpa [Sleeper.Coming, State.inWindow] using hc
        · simpa [Sleeper.Coming, State.inWindow, hee] using hc
  case wake =>
    cases hs
    have hcore := SameCore.wakeUp s (.ep e)
    refine (h u).undisturbed (by simp [hcore.pc]) ?_
    refine undisturbed_wakeUp (q := .ep e) rfl (fun q => by cases q <;> rfl) hcore.state
      hcore.isFinish fun k _ hc => ?_
    cases k with
    | server => simpa [Sleeper.Coming, hcore.pc] using hc
    | sender => simpa [Sleeper.Coming, State.inWindow, hcore.pc, hcore.tsk] using hc

end Statements

variable {G : Addr → NodeSt}

theorem sleepOk_step {a : Act} (hG : Inv s G) (h : ∀ u, SleepOk s u) (hs : step s a = some s')
    (u : TaskId) : SleepOk s' u := by
  cases a <;> simp only [step] at hs
  case call t c =>
    split at hs <;> cases hs
    rename_i hc
    exact sleepOk_quiet u h (Quiet.refl s) hc.1 (by cases c <;> rfl) rfl
      (by cases c <;> rfl)
  case run =>
    split at hs
    · cases hs
    · exact sleepOk_ipcSend h hG (by assumption) hs u
    · exact sleepOk_ipcReceive h (by assumption) hs u
    · exact sleepOk_ipcReply h hG (by assumption) hs u
  case alloc =>
    split at hs
    · exact sleepOk_ipcSendAlloc h hG (by assumption) hs u
    · cases hs
  case timer t =>
    split at hs
    · rename_i hpc
      split at hs <;> cases hs
      have hcore := SameCore.tryToWakeUp s t
      refine sleepOk_of_undisturbed u h (congrArg (update · t _) hcore.pc) rfl fun _ k w _ ht => ?_
      refine ⟨(tstate_tryToWakeUp ht).1, fun hmem => ⟨?_, fun hd => .inr ⟨?_, ?_⟩⟩⟩
      · rwa [waiters_setPc, waiters_tryToWakeUp]
      · exact due_mono (fun e he => (hcore.state e).symm.trans he)
          (fun x hx => (hcore.isFinish x).symm.trans hx) hd
      · refine coming_mono (t := t) (congrArg (update · t _) hcore.pc) hcore.tsk ?_ ?_
        · simp [hpc, Pc.window]
        · simp [hpc]
    · cases hs
  case elapse t n =>
    split at hs
    · rename_i hpc
      simp only [scheduleTimeout] at hs
      split at hs <;> cases hs
      exact sleepOk_quiet u h (Quiet.refl s) hpc rfl rfl rfl
    · cases hs
  case register => exact sleepOk_ipcRegister h hs u
  case registerNext => exact sleepOk_ipcRegisterNext h hG hs u

theorem reach_sleepOk {s : State} (h : machine.Reach (fun s a => noTestInWindow s a = true) s) :
    (∃ G, Inv s G) ∧ ∀ u, SleepOk s u := by
  refine Reach.invariant (I := fun s => (∃ G, Inv s G) ∧ ∀ u, SleepOk s u) ?_ ?_ h
  · rintro s ⟨pid, mem, rfl⟩
    exact ⟨⟨_, inv_ipcInit pid mem⟩, fun u k w hk => nomatch hk⟩
  · rintro s a s' ⟨⟨G, hG⟩, hsleep⟩ hok hs
    exact ⟨inv_step hG hok hs, sleepOk_step hG hsleep hs⟩

/-! ## No lost wake-up -/

/-- The task is switched out and nobody has woken it. -/
def State.asleep (s : State) (t : TaskId) : Prop :=
  (s.pc t).isBlocked = true ∧ s.tstate t = .uninterruptible

structure NoLostWakeup (s : State) : Prop where
  /-- A server asleep with a queued message has a sender's `wake_up` coming. -/
  server : ∀ t e w, s.pc t = .receive e (.wait w) → s.asleep t → (s.ep e).epList ≠ [] →
    (s.ep e).state = .running ∧ ∃ u m x, s.pc u = .send e m (.wake x)
  /-- A finished sender asleep has the server's `wake_up` coming. -/
  sender : ∀ t e m x w, s.pc t = .send e m (.wait x w) → s.asleep t →
    (s.node x).isFinish = true → ∃ u m', (s.ep e).tsk = some u ∧
      (s.pc u = .reply e m' (.copy x) ∨ s.pc u = .reply e m' (.wake x))

theorem Inv.reply_of_inWindow {s : State} (h : Inv s G) {e : Endpoint} {x : Addr}
    (hx : SenderWaits (G x) e t) (hw : s.inWindow e x = true) : ∃ u m, (s.ep e).tsk = some u ∧
      (s.pc u = .reply e m (.copy x) ∨ s.pc u = .reply e m (.wake x)) := by
  unfold State.inWindow at hw
  split at hw
  · rename_i u hu
    have hwin : (s.pc u).window = some x := by simpa using hw
    have hp := h.pcOk u
    cases hpc : s.pc u with
    | reply e' m p =>
      rw [hpc] at hwin hp
      have hee : ∀ o, G x = .finishing e' u o → e' = e := by
        intro o ho
        simp only [ho, SenderWaits, reduceCtorEq, NodeSt.finishing.injEq, exists_const,
          false_or, or_false] at hx
        obtain ⟨_, rfl, -⟩ := hx
        rfl
      cases p <;> cases hwin
      · obtain ⟨-, -, o, ho⟩ := hp
        exact ⟨u, m, hu, .inl (by rw [hpc, hee o ho])⟩
      · obtain ⟨-, -, -, o, ho⟩ := hp
        exact ⟨u, m, hu, .inr (by rw [hpc, hee o ho])⟩
    | _ =>
      rw [hpc] at hwin
      cases hwin
  · cases hw

/-- In every run in which no sender tests `is_finish` inside the window of its node, no
wake-up is lost. -/
theorem ipc_no_lost_wakeup {s : State}
    (h : machine.Reach (fun s a => noTestInWindow s a = true) s) : NoLostWakeup s := by
  obtain ⟨⟨G, hG⟩, hsleep⟩ := reach_sleepOk h
  constructor
  · intro t e w hpc hasleep hl
    obtain ⟨hblocked, ht⟩ := hasleep
    have hw : w = .blocked := by
      rw [hpc] at hblocked
      cases w <;> simp [Pc.isBlocked] at hblocked
      rfl
    subst hw
    obtain ⟨-, hword⟩ : RecvOk s t e (.wait .blocked) := hG.recvOk hpc
    have hrun : (s.ep e).state = .running := by
      rcases hword with ⟨hwait, -⟩ | ⟨hrun, -⟩
      · exact absurd (hG.empty e hwait) hl
      · exact hrun
    exact ⟨hrun, (hsleep t (.server e) .blocked (by rw [hpc]; rfl) rfl ht).2 rfl hrun⟩
  · intro t e m x w hpc hasleep hfin
    obtain ⟨hblocked, ht⟩ := hasleep
    have hw : w = .blocked := by
      rw [hpc] at hblocked
      cases w <;> simp [Pc.isBlocked] at hblocked
      rfl
    subst hw
    obtain ⟨hwaits, -⟩ : SendOk s G t e m (.wait x .blocked) := hG.sendOk hpc
    refine hG.reply_of_inWindow hwaits ?_
    exact (hsleep t (.sender e x) .blocked (by rw [hpc]; rfl) rfl ht).2 rfl hfin

/-- The server sleeps and a sender has appended its message. -/
def sleepingServer : List Act :=
  registration ++ .call 0 (.receive .system) :: runs 0 8 ++ sending 1 0 (message 1)

/-- The sleeping server with a queued message is covered. -/
theorem ipc_no_lost_wakeup_sleepingServer : ∃ s, machine.run booted sleepingServer = some s ∧
    s.asleep 0 ∧ (s.ep .system).epList ≠ [] ∧ NoLostWakeup s := by
  obtain ⟨s, hs, hreach, hpc, ht, hl⟩ := exists_run (G := fun s a => noTestInWindow s a = true) (P := fun s =>
    s.pc 0 = .receive .system (.wait .blocked) ∧ s.tstate 0 = .uninterruptible ∧
      (s.ep .system).epList = [0]) reach_booted sleepingServer (by decide)
  exact ⟨s, hs, ⟨by rw [hpc]; rfl, ht⟩, by rw [hl]; exact nofun, ipc_no_lost_wakeup hreach⟩

/-- Task 1 tests inside the window and frees node 0, where task 2 queues its message. The
answer to task 1 makes it look like a notification, so the server frees it under the
sleeping task 2, and task 3 gets the memory. -/
def droppedSender : List Act :=
  registration ++ sending 1 0 (message 1) ++ [.run 1] ++ receiving ++
    replying { message 9 with mType := typeNotifier } 6 ++ runs 1 3 ++
    sending 2 0 (message 2) ++ runs 2 5 ++ runs 0 3 ++ runs 2 4 ++
    receiving ++ replying (message 9) 7 ++
    sending 3 0 (message 3) ++ receiving ++ replying (message 9) 9

/-- Task 2 sleeps on a finished node and the server is not inside a reply. -/
theorem ipc_no_lost_wakeup_droppedSender :
    ¬ ∀ s, machine.Reach free s → NoLostWakeup s := by
  intro h
  obtain ⟨s, hreach, hpc, ht, hfin, htsk, hidle⟩ := exists_reach (G := free) (P := fun s =>
    s.pc 2 = .send .system { message 2 with mSource := 2 } (.wait 0 .blocked) ∧
      s.tstate 2 = .uninterruptible ∧ (s.node 0).isFinish = true ∧
      (s.ep .system).tsk = some 0 ∧ s.pc 0 = .idle) reach_booted droppedSender (by decide)
  obtain ⟨u, m, hu, hreply⟩ := (h s hreach).sender 2 _ _ _ _ hpc ⟨by rw [hpc]; rfl, ht⟩ hfin
  cases htsk.symm.trans hu
  rw [hidle] at hreply
  rcases hreply with hreply | hreply <;> cases hreply

end MinixRt.Ipc
