import MinixRt.Ipc.Serve

/-!
# Messages are delivered in order, each once

The ownership invariant holds in every state reached by runs without a test of
`is_finish` inside the window of a reply. It gives what the endpoints are for: a receive
copies out the oldest message that no receive has copied out, receives and replies
alternate, and a reply takes the node of the last receive.

A test inside the window breaks this. The sender takes its stale message, frees the node
and another sender gets its memory; the `memcpy` of the reply then lands in a queued
message.
-/

namespace MinixRt.Ipc

open State Lib.Machine

/-! ## The invariant in every reached state -/

section Invariant

variable {s s' : State} {G : Addr → NodeSt}

theorem inv_ipcInit (pid : TaskId → Int) (mem : Addr → Node) :
    Inv (ipcInit pid mem) fun _ => .free where
  alloc _ := by simp [ipcInit]
  live _ h := absurd rfl h
  pcOk _ := trivial
  nodeOk _ := trivial
  nodup _ := List.nodup_nil
  queued _ _ h := nomatch h
  empty _ _ := rfl
  reg _ := by simp [ipcInit]
  started _ _ h := nomatch h
  ledger _ := ⟨rfl, trivial, .inl ⟨rfl, rfl, rfl⟩⟩

variable {t : TaskId}

theorem inv_call (h : Inv s G) {c : Call} (hidle : s.pc t = .idle) (hrun : s.mayRun t = true) :
    Inv (s.setPc t c.entry) G := by
  refine h.setPc ?_ (.inl ?_) ?_ (.inr (.inr hrun))
  · cases c <;> trivial
  · rw [hidle]
    rfl
  · rw [hidle]
    cases c <;> rfl

theorem inv_scheduleTimeout (h : Inv s G) {e : Endpoint} {m : Message} {ret : Nat} {fired : Bool}
    {w : WaitPc} {n : Nat} (hpc : s.pc t = .send e m (.timeout ret fired w))
    (hs : scheduleTimeout s t e m ret fired w n = some s') : Inv s' G := by
  simp only [scheduleTimeout] at hs
  split at hs <;> cases hs
  exact h.setPc_send hpc trivial rfl

theorem inv_step (h : Inv s G) {a : Act} (hok : noTestInWindow s a = true)
    (hs : step s a = some s') : ∃ G', Inv s' G' := by
  cases a <;> simp only [step] at hs
  case call t c =>
    split at hs <;> cases hs
    rename_i hc
    exact ⟨G, inv_call h hc.1 hc.2⟩
  case run =>
    split at hs
    · cases hs
    · exact inv_ipcSend h (by assumption) hok hs
    · exact ⟨G, inv_ipcReceive h (by assumption) hs⟩
    · exact inv_ipcReply h (by assumption) hs
  case alloc =>
    split at hs
    · exact inv_ipcSendAlloc h (by assumption) hs
    · cases hs
  case timer t =>
    split at hs
    · rename_i hpc
      split at hs <;> cases hs
      have hcore := SameCore.tryToWakeUp s t
      exact ⟨G, (h.sameCore hcore).setPc_send (by rw [hcore.pc, hpc]) trivial rfl⟩
    · cases hs
  case elapse =>
    split at hs
    · exact ⟨G, inv_scheduleTimeout h (by assumption) hs⟩
    · cases hs
  case register => exact ⟨G, inv_ipcRegister h hs⟩
  case registerNext => exact ⟨G, inv_ipcRegisterNext h hs⟩

theorem reach_inv (h : machine.Reach (fun s a => noTestInWindow s a = true) s) : ∃ G, Inv s G := by
  refine Reach.invariant (I := fun s => ∃ G, Inv s G) ?_ ?_ h
  · rintro s ⟨pid, mem, rfl⟩
    exact ⟨_, inv_ipcInit pid mem⟩
  · rintro s a s' ⟨G, hG⟩ hok hs
    exact inv_step hG hok hs

end Invariant

/-! ## Delivery -/

structure Delivery (s : State) (e : Endpoint) : Prop where
  /-- The received messages are the appended ones, in order and each once, up to the
  queued nodes that no receive has copied out. -/
  fifo : appended e s.trace = received e s.trace ++
    (s.queue e).drop ((received e s.trace).length - (dequeued e s.trace).length)
  /-- Successful receives and replies alternate, a receive first. -/
  alternates : Alternates true (calls e s.trace)
  count : (s.ep e).ipcReqCount = 0 ∨ (s.ep e).ipcReqCount = 1
  /-- The `list_first_entry` of a receive reads a node. -/
  receiveFirst : ∀ t, s.pc t = .receive e .first → (s.ep e).epList ≠ []
  /-- The `list_first_entry` of a reply reads the node of the last receive. -/
  replyFirst : ∀ t m, s.pc t = .reply e m .del → ∃ x rest, (s.ep e).epList = x :: rest ∧
    (received e s.trace).getLast?.map Prod.fst = some x

theorem Inv.headReceived {s : State} {G : Addr → NodeSt} (h : Inv s G) {t : TaskId} {e : Endpoint}
    {m : Message} (hpc : s.pc t = .reply e m .del) : HeadReceived s e := by
  obtain ⟨ht, hn⟩ : Serves s t e 1 := h.replyOk hpc
  rcases ((h.ledger e).answering hn).2 with hc | hc
  · exact hc.1
  · have hd := hc.2
    rw [postDel_server ht, hpc] at hd
    cases hd

/-- In every run in which no sender tests `is_finish` inside the window of its node, the
delivery of every endpoint is in order and exactly once. -/
theorem ipc_delivery {s : State}
    (h : machine.Reach (fun s a => noTestInWindow s a = true) s) (e : Endpoint) :
    Delivery s e := by
  obtain ⟨G, hG⟩ := reach_inv h
  have hl := hG.ledger e
  refine ⟨hl.exact_, hl.alternates, ?_, ?_, ?_⟩
  · rcases hl.count with hc | hc
    · exact .inl hc.1
    · exact .inr hc.1
  · intro t hpc
    have hok : RecvOk s t e .first := hG.recvOk hpc
    exact hok.2
  · intro t m hpc
    exact (hG.headReceived hpc).2

/-! ## Runs -/

section Runs

/-- A message of type `n` with no payload. -/
def message (n : Nat) : Message := ⟨0, BitVec.ofNat 32 n, fun _ => 0⟩

def booted : State := ipcInit (fun t => t) fun _ => ⟨false, .zero, []⟩

/-- `n` statements of task `t`. -/
def runs (t : TaskId) (n : Nat) : List Act := List.replicate n (.run t)

/-- Task 0 becomes the server of the system endpoint. -/
def registration : List Act :=
  [.register .system 0, .registerNext .system, .registerNext .system]

/-- Task `t` sends `m` from node `x`, up to its `list_add_tail`. -/
def sending (t : TaskId) (x : Addr) (m : Message) : List Act :=
  [.call t (.send .system m), .run t, .alloc t (some x)] ++ runs t 4

def receiving : List Act := .call 0 (.receive .system) :: runs 0 7

/-- The server calls `__ipc_reply` and runs `n` statements of it. -/
def replying (m : Message) (n : Nat) : List Act := .call 0 (.reply .system m) :: runs 0 n

theorem reach_booted {ok : State → Act → Prop} : machine.Reach ok booted :=
  .init ⟨_, _, rfl⟩

/-- One message is sent, received, answered and copied back. -/
def exchange : List Act :=
  registration ++ sending 1 0 (message 1) ++ receiving ++ replying (message 9) 9 ++ runs 1 4

end Runs

/-- The exchange meets the condition, and its message is delivered. -/
theorem ipc_delivery_exchange : ∃ s, machine.run booted exchange = some s ∧
    (received .system s.trace).length = 1 ∧ Delivery s .system := by
  obtain ⟨s, hs, hreach, hlen⟩ := exists_run (G := fun s a => noTestInWindow s a = true)
    (P := fun s => (received .system s.trace).length = 1) reach_booted exchange (by decide)
  exact ⟨s, hs, hlen, ipc_delivery hreach .system⟩

/-- Task 1 tests `is_finish` after its store and before the `memcpy`, frees node 0, and
task 2 queues its message in it. -/
def overwrite : List Act :=
  registration ++ sending 1 0 (message 1) ++ [.run 1] ++ receiving ++
    replying (message 9) 6 ++ runs 1 3 ++ sending 2 0 (message 2) ++ runs 0 3 ++ receiving

/-- The second receive copies out the reply to the first message, not the message that was
appended. -/
theorem ipc_delivery_overwrite :
    ¬ ∀ s, machine.Reach free s → ∀ e, Delivery s e := by
  intro h
  obtain ⟨s, hreach, happ, hrec⟩ := exists_reach (G := free) (P := fun s =>
    ((appended .system s.trace).map fun p => p.2.mType) = [1#32, 2#32] ∧
      ((received .system s.trace).map fun p => p.2.mType) = [1#32, 9#32])
    reach_booted overwrite (by decide)
  have hfifo := congrArg (List.map fun p => p.2.mType) (h s hreach .system).fifo
  rw [List.map_append, happ, hrec] at hfifo
  cases hfifo

end MinixRt.Ipc
