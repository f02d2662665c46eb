import MinixRt.Proc.Process

/-!
# Who sent the message that the system thread handles

The handlers of the system endpoint find the task they work for by the pid in `m_source`.
The pid is that of the sender when the message was sent. A blocking sender waits for the
answer, so it is still there; a notifier is not waited for, and its sender may have exited
and been reaped when the message is handled. Its pid is then in nobody's use, and a
`BUG_ON` fires, or it belongs to a task forked since.

With no task reaped while a message of it is queued, and no test of `is_finish` inside the
window of a reply, the task that is found is the sender.
-/

namespace MinixRt.Proc

open List Function

open Ipc (TaskId Endpoint Message Addr Event appended received dequeued emitted SourceOk
  noTestInWindow message runs registration sending receiving)
open Lib.Machine

variable {a : Ipc.Act} {c t p : TaskId}

/-- The tasks whose message is in the list of the system endpoint, queued or being
handled. -/
def State.pending (s : State) : List TaskId :=
  s.senders.drop (dequeued .system s.ipc.trace).length

/-- The step neither reaps a task with a message in the list of the system endpoint nor
tests `is_finish` inside the window of a reply. -/
def senderStays (s : State) : Act → Bool
  | .ipc a => noTestInWindow s.ipc a
  | .reap _ c _ => c ∉ s.pending
  | _ => true

/-- The system thread is between its `ipc_receive` of `m` from node `x` and its
`ipc_reply`. -/
structure Handles (s : State) (x : Addr) (m : Message) : Prop where
  thread : ∃ u, (s.ipc.ep .system).tsk = some u ∧ s.ipc.pc u = .idle
  count : (s.ipc.ep .system).ipcReqCount = 1
  last : (received .system s.ipc.trace).getLast? = some (x, m)

/-- The handlers find the task that sent the message, and it has not been freed. -/
def Identified (s : State) : Prop :=
  ∀ x m, Handles s x m → ∃ t,
    s.senders[(received .system s.ipc.trace).length - 1]? = some t ∧
      s.pids.pidFindProcessByPid m.mSource = some t ∧ s.stage t ≠ .reaped

/-! ## The invariant -/

def State.Linked (s : State) (t : TaskId) : Prop := s.stage t = .alive ∨ s.stage t = .zombie

structure Inv (s : State) : Prop where
  ipc : ∃ G, Ipc.Inv s.ipc G
  source : SourceOk s.ipc
  active : ∀ t, s.ipc.pc t ≠ .idle → s.stage t = .alive
  table : s.pids.Ok
  listed : ∀ t, s.Linked t → (s.ipc.pid t, t) ∈ s.pids.root
  zombie : ∀ p, ∀ c ∈ s.childrenExit p, s.stage c = .zombie ∧ s.parent c = some p
  nodup : ∀ p, (s.childrenExit p).Nodup
  sources : (appended .system s.ipc.trace).map (fun q => q.2.mSource) = s.senders.map s.ipc.pid
  born : ∀ t ∈ s.senders, s.stage t ≠ .unborn
  linked : ∀ t ∈ s.pending, s.Linked t

variable {s : State}

theorem Boot.inv (h : Boot s) : Inv s := by
  obtain ⟨pid, mem, hipc⟩ := h.ipc
  have hstage : ∀ t, s.stage t = .alive ↔ t ∈ s.pids.root.map Prod.snd := by
    intro t
    rw [h.stage t]
    split <;> simp_all
  have hzombie : ∀ t, s.stage t ≠ .zombie := by
    intro t
    rw [h.stage t]
    split <;> simp
  refine ⟨⟨fun _ => .free, by rw [hipc]; exact Ipc.inv_ipcInit pid mem⟩, ?_, ?_, h.table, ?_,
    ?_, ?_, ?_, ?_, ?_⟩
  · intro t
    rw [hipc]
    trivial
  · intro t ht
    rw [hipc] at ht
    exact absurd rfl ht
  · rintro t (ht | ht)
    · obtain ⟨q, hq, rfl⟩ := mem_map.mp ((hstage t).mp ht)
      rw [h.pid q hq]
      exact hq
    · exact absurd ht (hzombie t)
  · intro p c hc
    rw [h.childrenExit p] at hc
    cases hc
  · intro p
    rw [h.childrenExit p]
    exact nodup_nil
  · rw [h.senders, hipc]
    rfl
  · intro t ht
    rw [h.senders] at ht
    cases ht
  · intro t ht
    rw [State.pending, h.senders, drop_nil] at ht
    cases ht

section Steps

variable {s s' : State}

variable {ipc : Ipc.State}

/-- The tasks whose messages are in the list after an IPC step had theirs there before, or
acted in the step. -/
theorem mem_pending_ipcStep (hs : Ipc.step s.ipc a = some ipc) (ht : t ∈ { s with ipc, senders := s.senders ++ sendersOf s.ipc a }.pending) :
    t ∈ s.pending ∨ a.actor = some t := by
  simp only [State.pending, Ipc.step_trace hs, dequeued, filterMap_append,
    length_append, drop_append] at ht
  rcases mem_append.mp ht with ht | ht
  · left
    rw [← drop_drop] at ht
    exact mem_of_mem_drop ht
  · right
    obtain ⟨q, -, hq⟩ := mem_filterMap.mp (mem_of_mem_drop ht)
    exact hq

variable (h : Inv s)
include h

theorem Inv.sources_ipcStep (hs : Ipc.step s.ipc a = some ipc) :
    (appended .system ipc.trace).map (fun q => q.2.mSource) =
      (s.senders ++ sendersOf s.ipc a).map ipc.pid := by
  obtain ⟨G, hG⟩ := h.ipc
  rw [Ipc.step_pid hs, Ipc.step_trace hs, appended, filterMap_append, map_append,
    map_append]
  refine congrArg₂ _ h.sources ?_
  unfold sendersOf
  rcases hnew : (emitted s.ipc a).filterMap (Event.appendAt .system) with _ | ⟨⟨x, m⟩, rest⟩
  · rfl
  · -- the step appends: it is the statement of the sender
    obtain ⟨ev, hev, hat⟩ : ∃ ev ∈ emitted s.ipc a, ev.appendAt .system = some (x, m) := by
      refine mem_filterMap.mp ?_
      rw [hnew]
      exact mem_cons_self
    obtain ⟨e, rfl, rfl⟩ : ∃ e, ev = .append e x m ∧ e = .system := by
      cases ev <;> simp [Event.appendAt] at hat
      simp [hat]
    obtain ⟨t, ht, hm, hem⟩ := Ipc.source_of_append hG h.source hev
    rw [hem] at hnew
    obtain rfl : rest = [] := by
      simpa [Event.appendAt] using hnew.symm
    simp only [filterMap_cons, ht, filterMap_nil, map_cons, map_nil, hm]

theorem Inv.ipcStep (hok : noTestInWindow s.ipc a = true) (hs : ipcStep s a = some s') :
    Inv s' := by
  simp only [Proc.ipcStep] at hs
  split at hs
  · rename_i hactor
    obtain ⟨ipc, hipc, rfl⟩ := Option.map_eq_some_iff.mp hs
    obtain ⟨G, hG⟩ := h.ipc
    refine ⟨Ipc.inv_step hG hok hipc, h.source.step hipc, ?_, h.table, ?_, h.zombie, h.nodup,
      h.sources_ipcStep hipc, ?_, ?_⟩
    · intro t ht
      by_cases hta : a.actor = some t
      · exact hactor t hta
      · rw [Ipc.step_pc_of_ne hipc hta] at ht
        exact h.active t ht
    · intro t ht
      rw [Ipc.step_pid hipc]
      exact h.listed t ht
    · intro t ht
      rcases mem_append.mp ht with ht | ht
      · exact h.born t ht
      · obtain ⟨q, -, hq⟩ := mem_filterMap.mp ht
        have := hactor t hq
        simp [this]
    · intro t ht
      rcases mem_pending_ipcStep hipc ht with ht | ht
      · exact h.linked t ht
      · exact .inl (hactor t ht)
  · cases hs

variable {T : PidTable}

theorem Inv.setPids (hT : T.Ok) (hroot : ∀ t, s.Linked t → (s.ipc.pid t, t) ∈ T.root) :
    Inv { s with pids := T } :=
  { h with table := hT, listed := hroot }

theorem Inv.idle_of_unborn (hc : s.stage c = .unborn) : s.ipc.pc c = .idle := by
  by_contra hne
  have := h.active c hne
  rw [hc] at this
  cases this

omit h in
theorem Inv.ne_of_linked (hc : s.stage c = .unborn) (ht : s.Linked t) : t ≠ c := by
  rintro rfl
  rcases ht with ht | ht <;> rw [hc] at ht <;> cases ht

theorem Inv.fork {pid : Int} (hc : s.stage c = .unborn)
    (hT : s.pids.pidAllocPid c = some (pid, T)) : Inv { s with
      pids := T
      ipc := { s.ipc with pid := update s.ipc.pid c pid }
      stage := update s.stage c .alive
      parent := update s.parent c (some p)
      children := update s.children p (c :: s.children p) } := by
  obtain ⟨G, hG⟩ := h.ipc
  have hmem := PidTable.mem_pidAllocPid hT
  -- every other task keeps its stage and its pid
  have hstage : ∀ t, t ≠ c → update s.stage c .alive t = s.stage t := fun t ht =>
    update_of_ne ht _ _
  have hpid : ∀ t, t ≠ c → update s.ipc.pid c pid t = s.ipc.pid t := fun t ht =>
    update_of_ne ht _ _
  have hsender : ∀ t ∈ s.senders, t ≠ c := by
    rintro t ht rfl
    exact h.born t ht hc
  refine ⟨⟨G, hG.setPid _⟩, fun t => ?_, fun t ht => ?_, h.table.pidAllocPid hT, fun t ht => ?_,
    fun q u hu => ?_, h.nodup, ?_, fun t ht => ?_, fun t ht => ?_⟩
  · by_cases htc : t = c
    · subst htc
      show (s.ipc.pc t).HasSource _
      rw [h.idle_of_unborn hc]
      trivial
    · show (s.ipc.pc t).HasSource (update s.ipc.pid c pid t)
      rw [hpid t htc]
      exact h.source t
  · have hne : t ≠ c := by
      rintro rfl
      exact ht (h.idle_of_unborn hc)
    exact (hstage t hne).trans (h.active t ht)
  · by_cases htc : t = c
    · subst htc
      show (update s.ipc.pid t pid t, t) ∈ T.root
      rw [update_self]
      exact (hmem _).mpr (.inl rfl)
    · show (update s.ipc.pid c pid t, t) ∈ T.root
      rw [hpid t htc]
      refine (hmem _).mpr (.inr (h.listed t ?_))
      simpa only [State.Linked, hstage t htc] using ht
  · obtain ⟨hz, hp⟩ := h.zombie q u hu
    have hne : u ≠ c := Inv.ne_of_linked hc (.inr hz)
    exact ⟨(hstage u hne).trans hz, (update_of_ne hne _ _).trans hp⟩
  · refine h.sources.trans (map_congr_left fun t ht => ?_)
    exact (hpid t (hsender t ht)).symm
  · show update s.stage c .alive t ≠ .unborn
    rw [hstage t (hsender t ht)]
    exact h.born t ht
  · have hl := h.linked t ht
    simpa only [State.Linked, hstage t (Inv.ne_of_linked hc hl)] using hl

theorem Inv.doFork {copied k : Bool} (hs : doFork s p c copied k = some s') : Inv s' := by
  simp only [Proc.doFork] at hs
  split at hs
  · rename_i hc
    split at hs
    · cases hs
    · rename_i pid T hT
      split at hs
      · cases hs
        exact h.fork hc.2 hT
      · split at hs
        · rename_i T' hT'
          cases hs
          have hmem := PidTable.mem_pidAllocPid hT
          have hok := h.table.pidAllocPid hT
          have hrem := hok.pidRemovePidByProcess pid k
          rw [hT'] at hrem
          refine h.setPids hrem fun t ht => ?_
          -- the pid that is given back is not the pid of a linked task
          have hold := (hmem _).mpr (.inr (h.listed t ht))
          have hne : s.ipc.pid t ≠ pid := by
            rintro heq
            rw [heq] at hold
            exact Inv.ne_of_linked hc.2 ht
              (hok.sorted.eq_of_key hold ((hmem _).mpr (.inl rfl)))
          have := PidTable.mem_pidRemovePidByProcess (k := k) hold hne
          rwa [hT'] at this
        · cases hs
  · cases hs

theorem Inv.taskDoExit {code : Int} (hs : taskDoExit s t code = some s') : Inv s' := by
  simp only [Proc.taskDoExit] at hs
  split at hs
  · rename_i hrun
    obtain ⟨p, hp, rfl⟩ := Option.map_eq_some_iff.mp hs
    obtain ⟨halive, hidle⟩ : s.stage t = .alive ∧ s.ipc.pc t = .idle := by
      simpa [State.runs] using hrun
    have hstage : ∀ u, u ≠ t → update s.stage t .zombie u = s.stage u := fun u hu =>
      update_of_ne hu _ _
    have hself : update s.stage t .zombie t = .zombie := update_self ..
    have hnot : ∀ q, t ∉ s.childrenExit q := by
      intro q hq
      have := (h.zombie q t hq).1
      rw [halive] at this
      cases this
    refine ⟨h.ipc, h.source, fun u hu => ?_, h.table, fun u hu => ?_, fun q u hu => ?_,
      fun q => ?_, h.sources, fun u hu => ?_, fun u hu => ?_⟩
    · have hne : u ≠ t := by
        rintro rfl
        exact hu hidle
      exact (hstage u hne).trans (h.active u hu)
    · by_cases hut : u = t
      · subst hut
        exact h.listed u (.inl halive)
      · refine h.listed u ?_
        simpa only [State.Linked, hstage u hut] using hu
    · show update s.stage t .zombie u = .zombie ∧ s.parent u = some q
      have hold : ∀ q, u ∈ s.childrenExit q →
          update s.stage t .zombie u = .zombie ∧ s.parent u = some q := by
        intro q hq
        have hne : u ≠ t := fun heq => hnot q (heq ▸ hq)
        rw [hstage u hne]
        exact h.zombie q u hq
      change u ∈ update s.childrenExit p (t :: s.childrenExit p) q at hu
      by_cases hqp : q = p
      · subst hqp
        rw [update_self] at hu
        rcases mem_cons.mp hu with rfl | hu
        · exact ⟨hself, hp⟩
        · exact hold q hu
      · rw [update_of_ne hqp] at hu
        exact hold q hu
    · show (update s.childrenExit p (t :: s.childrenExit p) q).Nodup
      by_cases hqp : q = p
      · subst hqp
        rw [update_self]
        exact nodup_cons.mpr ⟨hnot q, h.nodup q⟩
      · rw [update_of_ne hqp]
        exact h.nodup q
    · show update s.stage t .zombie u ≠ .unborn
      by_cases hut : u = t
      · subst hut
        simp
      · rw [hstage u hut]
        exact h.born u hu
    · by_cases hut : u = t
      · subst hut
        exact .inr hself
      · have hl := h.linked u hu
        simpa only [State.Linked, hstage u hut] using hl
  · cases hs

theorem Inv.doDefaultSignalHandle {k : Bool} (hc : c ∉ s.pending)
    (hs : doDefaultSignalHandle s p c k = some s') : Inv s' := by
  simp only [Proc.doDefaultSignalHandle] at hs
  split at hs
  · rename_i hcond
    cases hs
    obtain ⟨hzombie, hparent⟩ := h.zombie p c hcond.2.1
    have hstage : ∀ u, u ≠ c → update s.stage c .reaped u = s.stage u := fun u hu =>
      update_of_ne hu _ _
    refine ⟨h.ipc, h.source, fun u hu => ?_, h.table.pidRemovePidByProcess _ k, fun u hu => ?_,
      fun q u hu => ?_, fun q => ?_, h.sources, fun u hu => ?_, fun u hu => ?_⟩
    · have halive := h.active u hu
      have hne : u ≠ c := by
        rintro rfl
        rw [hzombie] at halive
        cases halive
      exact (hstage u hne).trans halive
    · have hne : u ≠ c := by
        rintro rfl
        simp [State.Linked] at hu
      have hl := h.listed u (by simpa only [State.Linked, hstage u hne] using hu)
      refine PidTable.mem_pidRemovePidByProcess hl fun heq => hne ?_
      -- one pid, one task
      change s.ipc.pid u = s.ipc.pid c at heq
      rw [heq] at hl
      exact h.table.sorted.eq_of_key hl (h.listed c (.inr hzombie))
    · change u ∈ update s.childrenExit p ((s.childrenExit p).erase c) q at hu
      have hmem : u ∈ s.childrenExit q ∧ u ≠ c := by
        by_cases hqp : q = p
        · subst hqp
          rw [update_self] at hu
          exact ((h.nodup q).mem_erase_iff.mp hu).symm
        · rw [update_of_ne hqp] at hu
          refine ⟨hu, ?_⟩
          rintro rfl
          exact hqp (Option.some.inj ((h.zombie q u hu).2.symm.trans hparent))
      show update s.stage c .reaped u = .zombie ∧ s.parent u = some q
      rw [hstage u hmem.2]
      exact h.zombie q u hmem.1
    · show (update s.childrenExit p ((s.childrenExit p).erase c) q).Nodup
      by_cases hqp : q = p
      · subst hqp
        rw [update_self]
        exact (h.nodup q).erase c
      · rw [update_of_ne hqp]
        exact h.nodup q
    · show update s.stage c .reaped u ≠ .unborn
      by_cases huc : u = c
      · subst huc
        simp
      · rw [hstage u huc]
        exact h.born u hu
    · have hne : u ≠ c := by
        rintro rfl
        exact hc hu
      have hl := h.linked u hu
      simpa only [State.Linked, hstage u hne] using hl
  · cases hs

theorem Inv.step {a : Act} (hok : senderStays s a = true) (hs : step s a = some s') : Inv s' := by
  cases a with
  | ipc => exact h.ipcStep hok hs
  | fork => exact h.doFork hs
  | exit => exact h.taskDoExit hs
  | reap => exact h.doDefaultSignalHandle (by simpa [senderStays] using hok) hs

end Steps

/-! ## The sender is found -/

/-- The message that the system thread handles is the first of the list, and the invariant
knows its sender. -/
theorem Inv.identified (h : Inv s) : Identified s := by
  intro x m hm
  obtain ⟨G, hG⟩ := h.ipc
  obtain ⟨u, hu, hidle⟩ := hm.thread
  have hl := hG.ledger .system
  -- the node has been received and not dequeued
  have hlen : (received .system s.ipc.trace).length =
      (dequeued .system s.ipc.trace).length + 1 := by
    rcases (hl.answering hm.count).2 with hc | hc
    · exact hc.1.1
    · have hd := hc.2
      rw [Ipc.postDel_server hu, hidle] at hd
      cases hd
  have hlast : (appended .system s.ipc.trace)[(dequeued .system s.ipc.trace).length]? =
      some (x, m) := by
    rw [hl.exact_, getElem?_append_left (by omega)]
    have := hm.last
    rwa [getLast?_eq_getElem?, hlen, Nat.add_sub_cancel] at this
  have hsource : (s.senders.map s.ipc.pid)[(dequeued .system s.ipc.trace).length]? =
      some m.mSource := by
    rw [← h.sources, getElem?_map, hlast]
    rfl
  rw [getElem?_map] at hsource
  obtain ⟨t, ht, hpid⟩ := Option.map_eq_some_iff.mp hsource
  have hlinked : s.Linked t := by
    refine h.linked t (mem_iff_getElem?.mpr ⟨0, ?_⟩)
    rw [State.pending, getElem?_drop, Nat.add_zero]
    exact ht
  refine ⟨t, by rw [hlen]; exact ht, ?_, ?_⟩
  · rw [← hpid]
    exact h.table.find_iff.mpr (h.listed t hlinked)
  · rcases hlinked with hst | hst <;> rw [hst] <;> simp

/-- In every run in which no task is reaped while a message of it is in the list of the
system endpoint and no sender tests `is_finish` inside the window of its node, the handlers
find the sender. -/
theorem system_sender {s : State}
    (h : machine.Reach (fun s a => senderStays s a = true) s) : Identified s := by
  refine (Reach.invariant (I := Inv) ?_ ?_ h).identified
  · exact fun s hboot => Boot.inv hboot
  · exact fun s a s' hinv hok hs => hinv.step hok hs

/-! ## Runs -/

section Runs

/-- The system thread has pid 1 and its child, task 1, has pid 2. -/
def booted : State where
  ipc := Ipc.ipcInit (fun t => t + 1) fun _ => ⟨false, .zero, []⟩
  pids := ⟨[(1, 0), (2, 1)], []⟩
  stage t := if t ∈ [0, 1] then .alive else .unborn
  parent t := if t = 1 then some 0 else none
  children t := if t = 0 then [1] else []
  childrenExit _ := []
  exitCode _ := 0
  senders := []

theorem boot_booted : Boot booted where
  ipc := ⟨_, _, rfl⟩
  table := ⟨by unfold Lib.SearchTree.Sorted; decide, by decide, by decide⟩
  cache := rfl
  pid := by decide
  stage _ := rfl
  childrenExit _ := rfl
  senders := rfl

/-- Task 1 sends a message and waits, and the system thread receives it. -/
def request : List Act :=
  (registration ++ sending 1 0 (message 1) ++ runs 1 5 ++ receiving).map .ipc

/-- Task 2 is forked, sends a notifier, exits and is reaped; task 3 gets its pid. Then the
system thread receives the message. -/
def reused : List Act :=
  registration.map .ipc ++ [.fork 1 2 true true] ++
    (sending 2 0 (message 0x80000001) ++ runs 2 1).map .ipc ++
    [.exit 2 0, .reap 1 2 true, .fork 1 3 true true] ++ receiving.map .ipc

end Runs

/-- What `Handles` reads when task 0 is the system thread. -/
def State.handling (s : State) :
    Option TaskId × Ipc.Pc × BitVec 32 × Option (Addr × Message) :=
  ((s.ipc.ep .system).tsk, s.ipc.pc 0, (s.ipc.ep .system).ipcReqCount,
    (received .system s.ipc.trace).getLast?)

theorem handles_of_handling {x : Addr} {m : Message}
    (h : s.handling = (some 0, .idle, 1, some (x, m))) : Handles s x m := by
  simp only [State.handling, Prod.mk.injEq] at h
  obtain ⟨htsk, hpc, hcount, hlast⟩ := h
  exact ⟨⟨0, htsk, hpc⟩, hcount, hlast⟩

/-- The request meets the condition, and its sender is found. -/
theorem system_sender_request : ∃ s, machine.run booted request = some s ∧
    Handles s 0 { message 1 with mSource := 2 } ∧ Identified s := by
  obtain ⟨s, hs, hreach, hval⟩ := exists_run (M := machine)
    (G := fun s a => senderStays s a = true) (P := fun s => s.handling =
      (some 0, .idle, 1, some (0, { message 1 with mSource := 2 })))
    (.init boot_booted) request (by decide)
  exact ⟨s, hs, handles_of_handling hval, system_sender hreach⟩

/-- The handlers find task 3, which has the pid of the sender and did not send the
message. -/
theorem system_sender_reused : ¬ ∀ s, machine.Reach free s → Identified s := by
  intro h
  obtain ⟨s, hreach, hhandling, hsender, hfind⟩ := exists_reach (M := machine) (G := free)
    (P := fun s => s.handling =
      (some 0, .idle, 1, some (0, { message 0x80000001 with mSource := 3 })) ∧
    s.senders[(received .system s.ipc.trace).length - 1]? = some 2 ∧
    s.pids.pidFindProcessByPid 3 = some 3) (.init boot_booted) reused (by decide)
  obtain ⟨t, ht, hfind', -⟩ := h s hreach _ _ (handles_of_handling hhandling)
  obtain rfl : 2 = t := Option.some.inj (hsender.symm.trans ht)
  cases hfind.symm.trans hfind'

end MinixRt.Proc
