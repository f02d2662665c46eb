import MinixRt.Ipc.Frame

/-!
# What one step does

A step of a task moves its program counter, records the events of `emitted` and leaves the pids
and the tasks of the endpoints (`Effect`). The other steps are those of a registration, and only
its first store changes the task of an endpoint. What a run does to traces, pids, sources and times
follows from this one case analysis.
-/

namespace MinixRt.Ipc

open Function List State

/-- The task whose statement or call the action is. -/
def Act.actor : Act → Option TaskId
  | .call t _ => some t
  | .run t => some t
  | .alloc t _ => some t
  | .timer t => some t
  | .elapse t _ => some t
  | .register _ _ => none
  | .registerNext _ => none

def emitted (s : State) : Act → List Event
  | .run t =>
    match s.pc t with
    | .send e _ (.checkRet 0) => [.enodev e (s.ep e).tsk]
    | .send e _ (.append x) => [.append e x (s.node x).m]
    | .send _ m (.free x) => [.freed x, .sent x m]
    | .receive e (.inc x m) => [.received e x m]
    | .reply e m .del => (s.ep e).epList.head?.toList.map fun x => .dequeued e x m
    | .reply e _ (.dec x) => [.replied e x]
    | _ => []
  | .alloc _ (some x) => [.alloc x]
  | _ => []

/-- The endpoint for which the task has used up its time. -/
def Pc.timedOut : Pc → Option Endpoint
  | .send e _ (.timeout 0 _ _) => some e
  | .send e _ (.checkRet 0) => some e
  | _ => none

/-- A message that is in its node and not in a list yet has this source. -/
def Pc.HasSource (pid : Int) : Pc → Prop
  | .send _ m (.clear _) => m.mSource = pid
  | .send _ m (.initWait _) => m.mSource = pid
  | .send _ m (.append _) => m.mSource = pid
  | _ => True

/-- Task `t` uses up its time at `e` with this step. -/
def UsesUp (s : State) (a : Act) (t : TaskId) (e : Endpoint) : Prop :=
  ∃ n m ret fired w, a = .elapse t n ∧ s.pc t = .send e m (.timeout ret fired w) ∧ ret ≤ n

/-- The step `a` of task `t`, which goes to `p`. -/
structure Effect (s : State) (a : Act) (t : TaskId) (s' : State) (p : Pc) : Prop where
  pc : s'.pc = update s.pc t p
  pid : s'.pid = s.pid
  tsk : ∀ e, (s'.ep e).tsk = (s.ep e).tsk
  trace : s'.trace = s.trace ++ emitted s a
  source : (s.pc t).HasSource (s.pid t) → p.HasSource (s.pid t)
  time : ∀ e, p.timedOut = some e → (s.pc t).timedOut = some e ∨ UsesUp s a t e

section Effect

variable {s s₁ s' : State} {a : Act} {t u : TaskId} {e : Endpoint} {m : Message} {p : Pc}

theorem Effect.of_core (h : SameCore s s₁) (hev : emitted s a = [])
    (hsource : (s.pc t).HasSource (s.pid t) → p.HasSource (s.pid t))
    (htime : ∀ e, p.timedOut = some e → (s.pc t).timedOut = some e) :
    Effect s a t (s₁.setPc t p) p where
  pc := by rw [State.setPc, h.pc]
  pid := h.pid
  tsk := h.tsk
  trace := by
    rw [hev, append_nil]
    exact h.trace
  source := hsource
  time e he := .inl (htime e he)

theorem tsk_update {i : EndpointInfo} {e' : Endpoint} (hi : i.tsk = (s.ep e').tsk) :
    (update s.ep e' i e).tsk = (s.ep e).tsk := by
  by_cases hee : e = e'
  · subst hee
    rwa [update_self]
  · rw [update_of_ne hee]

theorem effect_ipcSend {p : SendPc} (hpc : s.pc t = .send e m p)
    (hs : ipcSend s t e m p = some s') : ∃ p', Effect s (.run t) t s' p' := by
  cases p with
  | tsk | type =>
    cases hs
    refine ⟨_, .of_core (.refl s) (by simp [emitted, hpc]) (fun _ => ?_) ?_⟩
    · split <;> trivial
    · split <;> exact nofun
  | timeout ret =>
    simp only [ipcSend] at hs
    split at hs
    · cases hs
    · obtain ⟨⟨s₁, r⟩, hwait, rfl⟩ := Option.map_eq_some_iff.mp hs
      refine ⟨_, .of_core (.waitEvent hwait) (by simp [emitted, hpc]) (fun _ => ?_) ?_⟩
      · cases r <;> trivial
      · rw [hpc]
        cases r <;> cases ret <;> exact fun _ h => h
  | checkRet ret =>
    simp only [ipcSend] at hs
    split at hs <;> cases hs
    · rename_i hret
      subst hret
      exact ⟨_, rfl, rfl, fun _ => rfl, by simp [emitted, hpc], fun _ => trivial, nofun⟩
    · cases ret with
      | zero => contradiction
      | succ => exact ⟨_, .of_core (.refl s) (by simp [emitted, hpc]) (fun _ => trivial) nofun⟩
  | alloc => cases hs
  | copyIn =>
    cases hs
    exact ⟨_, rfl, rfl, fun _ => rfl, by simp [emitted, hpc], fun _ => rfl, nofun⟩
  | clear x | initWait x =>
    cases hs
    exact ⟨_, rfl, rfl, fun _ => rfl, by simp [emitted, hpc], by rw [hpc]; exact id, nofun⟩
  | append =>
    simp only [ipcSend] at hs
    split at hs <;> cases hs
    · refine ⟨_, rfl, rfl, fun e' => ?_, by simp [emitted, hpc], fun _ => trivial, nofun⟩
      by_cases hee : e' = e
      · subst hee
        simp
      · simp [hee]
    · exact ⟨_, rfl, rfl, fun _ => tsk_update (by rfl), by simp [emitted, hpc], fun _ => trivial,
        nofun⟩
  | wake =>
    cases hs
    exact ⟨_, .of_core (.wakeUp s _) (by simp [emitted, hpc]) (fun _ => trivial) nofun⟩
  | wait =>
    obtain ⟨⟨s₁, r⟩, hwait, rfl⟩ := Option.map_eq_some_iff.mp hs
    refine ⟨_, .of_core (.waitEvent hwait) (by simp [emitted, hpc]) (fun _ => ?_) ?_⟩
    · cases r <;> trivial
    · cases r <;> exact nofun
  | copyOut =>
    cases hs
    exact ⟨_, .of_core (.refl s) (by simp [emitted, hpc]) (fun _ => trivial) nofun⟩
  | free =>
    cases hs
    exact ⟨_, rfl, rfl, fun _ => rfl, by simp [emitted, hpc], fun _ => trivial, nofun⟩

theorem effect_ipcReceive {p : RecvPc} (hpc : s.pc t = .receive e p)
    (hs : ipcReceive s t e p = some s') : ∃ p', Effect s (.run t) t s' p' := by
  cases p with
  | list =>
    simp only [ipcReceive] at hs
    split at hs <;> cases hs
    · exact ⟨_, rfl, rfl, fun _ => tsk_update (by rfl), by simp [emitted, hpc], fun _ => trivial,
        nofun⟩
    · exact ⟨_, .of_core (.refl s) (by simp [emitted, hpc]) (fun _ => trivial) nofun⟩
  | wait =>
    obtain ⟨⟨s₁, r⟩, hwait, rfl⟩ := Option.map_eq_some_iff.mp hs
    exact ⟨_, .of_core (.waitEvent hwait) (by simp [emitted, hpc]) (fun _ => trivial) nofun⟩
  | first =>
    simp only [ipcReceive] at hs
    split at hs <;> cases hs
    exact ⟨_, .of_core (.refl s) (by simp [emitted, hpc]) (fun _ => trivial) nofun⟩
  | copy =>
    cases hs
    exact ⟨_, .of_core (.refl s) (by simp [emitted, hpc]) (fun _ => trivial) nofun⟩
  | inc =>
    cases hs
    exact ⟨_, rfl, rfl, fun _ => tsk_update (by rfl), by simp [emitted, hpc], fun _ => trivial,
      nofun⟩
  | _ =>
    cases hs
    refine ⟨_, .of_core (.refl s) (by simp [emitted, hpc]) (fun _ => ?_) ?_⟩
    · split <;> trivial
    · split <;> exact nofun

theorem effect_ipcReply {p : ReplyPc} (hpc : s.pc t = .reply e m p)
    (hs : ipcReply s t e m p = some s') : ∃ p', Effect s (.run t) t s' p' := by
  cases p with
  | del =>
    simp only [ipcReply] at hs
    split at hs <;> cases hs
    rename_i hl
    exact ⟨_, rfl, rfl, fun _ => tsk_update (by rfl), by simp [emitted, hpc, hl], fun _ => trivial,
      nofun⟩
  | type =>
    cases hs
    exact ⟨_, .of_core (.refl s) (by simp [emitted, hpc]) (fun _ => trivial) nofun⟩
  | wake =>
    cases hs
    exact ⟨_, .of_core (.wakeUp s _) (by simp [emitted, hpc]) (fun _ => trivial) nofun⟩
  | dec =>
    cases hs
    exact ⟨_, rfl, rfl, fun _ => tsk_update (by rfl), by simp [emitted, hpc], fun _ => trivial,
      nofun⟩
  | tsk | current | count =>
    cases hs
    refine ⟨_, .of_core (.refl s) (by simp [emitted, hpc]) (fun _ => ?_) ?_⟩
    · split <;> trivial
    · split <;> exact nofun
  | _ =>
    cases hs
    exact ⟨_, rfl, rfl, fun _ => rfl, by simp [emitted, hpc], fun _ => trivial, nofun⟩

theorem effect_scheduleTimeout {ret n : Nat} {fired : Bool} {w : WaitPc}
    (hpc : s.pc t = .send e m (.timeout ret fired w))
    (hs : scheduleTimeout s t e m ret fired w n = some s') :
    ∃ p', Effect s (.elapse t n) t s' p' := by
  simp only [scheduleTimeout] at hs
  split at hs <;> cases hs
  refine ⟨_, rfl, rfl, fun _ => rfl, by simp [emitted], fun _ => trivial, fun e' he' => ?_⟩
  -- the time left after the sleep is 0 exactly when the sleep used it up
  cases hret : ret - n with
  | zero =>
    rw [hret] at he'
    cases he'
    exact .inr ⟨n, m, ret, fired, w, rfl, hpc, by omega⟩
  | succ =>
    rw [hret] at he'
    cases he'

/-- A step of a registration moves no task. -/
structure Registers (s : State) (a : Act) (s' : State) : Prop where
  actor : a.actor = none
  pc : s'.pc = s.pc
  pid : s'.pid = s.pid
  tsk : ∀ e, (s'.ep e).tsk = (s.ep e).tsk ∨ ∃ t, a = .register e t
  trace : s'.trace = s.trace

variable (hs : step s a = some s')
include hs

theorem step_effect : (∃ t p, a.actor = some t ∧ Effect s a t s' p) ∨ Registers s a s' := by
  cases a <;> simp only [step] at hs
  case call t c =>
    split at hs <;> cases hs
    refine .inl ⟨t, _, rfl, .of_core (.refl s) rfl (fun _ => ?_) ?_⟩
    · cases c <;> trivial
    · cases c <;> exact nofun
  case run t =>
    refine .inl ⟨t, ?_⟩
    split at hs
    · cases hs
    · exact (effect_ipcSend (by assumption) hs).imp fun _ h => ⟨rfl, h⟩
    · exact (effect_ipcReceive (by assumption) hs).imp fun _ h => ⟨rfl, h⟩
    · exact (effect_ipcReply (by assumption) hs).imp fun _ h => ⟨rfl, h⟩
  case alloc t r =>
    split at hs
    · cases r <;> simp only [ipcSendAlloc] at hs
      · cases hs
        exact .inl ⟨t, _, rfl, .of_core (.refl s) rfl (fun _ => trivial) nofun⟩
      · split at hs <;> cases hs
        exact .inl ⟨t, _, rfl, rfl, rfl, fun _ => rfl, rfl, fun _ => trivial, nofun⟩
    · cases hs
  case timer t =>
    split at hs
    · rename_i ret _ hpc
      split at hs <;> cases hs
      refine .inl ⟨t, _, rfl, .of_core (.tryToWakeUp s t) rfl (fun _ => trivial) ?_⟩
      rw [hpc]
      cases ret <;> exact fun _ h => h
    · cases hs
  case elapse t n =>
    split at hs
    · exact .inl ⟨t, (effect_scheduleTimeout (by assumption) hs).imp fun _ h => ⟨rfl, h⟩⟩
    · cases hs
  case register e' t =>
    simp only [ipcRegister] at hs
    split at hs <;> cases hs
    refine .inr ⟨rfl, rfl, rfl, fun e => ?_, rfl⟩
    by_cases hee : e = e'
    · subst hee
      exact .inr ⟨t, rfl⟩
    · exact .inl (by simp [hee])
  case registerNext e =>
    cases hr : s.reg e <;> rw [hr] at hs <;> cases hs
    · exact .inr ⟨rfl, rfl, rfl, fun _ => .inl (tsk_update (by rfl)), rfl⟩
    · have h := SameCore.wakeUp s (.ep e)
      exact .inr ⟨rfl, h.pc, h.pid, fun e => .inl (h.tsk e), h.trace⟩

/-! ## What follows for a step -/

theorem step_trace : s'.trace = s.trace ++ emitted s a := by
  rcases step_effect hs with ⟨t, p, -, h⟩ | h
  · exact h.trace
  · have hev : emitted s a = [] := by
      cases a <;> first | rfl | cases h.actor
    rw [h.trace, hev, append_nil]

theorem step_pid : s'.pid = s.pid := by
  rcases step_effect hs with ⟨t, p, -, h⟩ | h
  · exact h.pid
  · exact h.pid

theorem step_pc_of_ne (hu : a.actor ≠ some u) : s'.pc u = s.pc u := by
  rcases step_effect hs with ⟨t, p, ht, h⟩ | h
  · rw [h.pc, update_of_ne]
    rintro rfl
    exact hu ht
  · rw [h.pc]

/-- Every message on its way into a list has the pid of its sender as its source. -/
def SourceOk (s : State) : Prop := ∀ t, (s.pc t).HasSource (s.pid t)

theorem SourceOk.step (h : SourceOk s) : SourceOk s' := by
  intro u
  rw [step_pid hs]
  by_cases hact : a.actor = some u
  · rcases step_effect hs with ⟨t, p, ht, he⟩ | he
    · obtain rfl := Option.some.inj (hact.symm.trans ht)
      rw [he.pc, update_self]
      exact he.source (h u)
    · cases hact.symm.trans he.actor
  · rw [step_pc_of_ne hs hact]
    exact h u

end Effect

end MinixRt.Ipc
