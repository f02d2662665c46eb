import MinixRt.Ipc.Delivery
import MinixRt.Ipc.Effect

/-!
# A sender gets the answer to its message

When a send returns 0, the message it copies back is the one that was passed to the reply
that dequeued its node, and until that reply is done with the node nobody frees it. Both
rest on the same condition as the delivery, for the same reason: `__ipc_reply` sets
`is_finish` before it has stored the answer and before its `wake_up` has read the wait
queue of the node.
-/

namespace MinixRt.Ipc

open List State Lib.Machine

/-! ## What a step records -/

section Emitted

variable {s : State} {m : Message} {a : Act}

theorem sent_mem_emitted {x : Addr} (h : .sent x m ∈ emitted s a) :
    ∃ t e, s.pc t = .send e m (.free x) ∧ emitted s a = [.freed x, .sent x m] := by
  simp only [emitted] at h ⊢
  split at h
  · rename_i t
    split at h <;> simp at h
    obtain ⟨rfl, rfl⟩ := h
    rename_i hpc
    exact ⟨t, _, hpc, rfl⟩
  · simp at h
  · simp at h

end Emitted

/-! ## The answers in a trace -/

/-- Every send that returned 0 got the answer to its node. -/
def SentOk (tr : List Event) : Prop :=
  ∀ pre rest x m, tr = pre ++ .sent x m :: rest → (life x pre).answer = some m

section SentOk

variable {tr : List Event}

theorem SentOk.log (h : SentOk tr) {ev : Event}
    (hev : ∀ x m, ev = .sent x m → (life x tr).answer = some m) : SentOk (tr ++ [ev]) := by
  intro pre rest x m heq
  rcases eq_nil_or_concat rest with rfl | ⟨rest', ev', rfl⟩
  · obtain ⟨rfl, hlast⟩ := append_inj' heq rfl
    exact hev x m (singleton_inj.mp hlast)
  · rw [concat_eq_append, ← cons_append, ← append_assoc] at heq
    exact h pre rest' x m (append_inj' heq rfl).1

theorem SentOk.append (h : SentOk tr) {evs : List Event} (hev : ∀ x m, .sent x m ∉ evs) :
    SentOk (tr ++ evs) := by
  induction evs generalizing tr with
  | nil => simpa using h
  | cons ev evs ih =>
    rw [append_cons]
    refine ih (h.log ?_) fun x m hmem => hev x m (mem_cons_of_mem _ hmem)
    rintro x m rfl
    exact absurd mem_cons_self (hev x m)

end SentOk

variable {G : Addr → NodeSt}

theorem sentOk_step {s s' : State} {a : Act} (h : Inv s G) (hsent : SentOk s.trace)
    (hs : step s a = some s') : SentOk s'.trace := by
  rw [step_trace hs]
  by_cases hev : ∃ x m, .sent x m ∈ emitted s a
  · obtain ⟨x, m, hmem⟩ := hev
    obtain ⟨t, e, hpc, hem⟩ := sent_mem_emitted hmem
    obtain ⟨-, hm⟩ : SendOk s G t e m (.free x) := h.sendOk hpc
    rw [hem, append_cons]
    refine (hsent.log ?_).log ?_
    · rintro y m' ⟨⟩
    · rintro y m' ⟨⟩
      rw [life_append]
      simpa [lifeStep] using hm
  · exact hsent.append fun x m hmem => hev ⟨x, m, hmem⟩

/-! ## Answers -/

/-- The node that a statement of `__ipc_reply` uses after it has dequeued it. -/
def ReplyPc.node : ReplyPc → Option Addr
  | .type x => some x
  | .free x => some x
  | .finish x => some x
  | .copy x => some x
  | .wake x => some x
  | _ => none

structure Answered (s : State) : Prop where
  /-- A send that returned 0 copied back the message of the reply that dequeued its node. -/
  sent : SentOk s.trace
  /-- A reply uses the node it dequeued, and its sender has not freed it. -/
  reply : ∀ t e m p x, s.pc t = .reply e m p → p.node = some x →
    (life x s.trace).answer = some m ∧ (life x s.trace).freed = false

variable {s : State}

section Reply

variable {t : TaskId} {e : Endpoint} {m : Message} {p : ReplyPc} {x : Addr}
  (h : Inv s G) (hpc : s.pc t = .reply e m p) (hx : p.node = some x)
include h hpc hx

theorem Inv.reply_owner : (life x s.trace).answer = some m ∧
    ((∃ o, G x = .inHand e t o) ∨ ∃ o, G x = .finishing e t o) := by
  have hp := h.replyOk hpc
  cases p <;> cases hx
  case type => exact ⟨hp.2.1, .inl hp.2.2⟩
  case free => exact ⟨hp.2.1, .inl ⟨_, hp.2.2⟩⟩
  case finish =>
    obtain ⟨-, hm, o, ho⟩ := hp
    exact ⟨hm, .inl ⟨_, ho⟩⟩
  case copy => exact ⟨hp.2.1, .inr hp.2.2⟩
  case wake => exact ⟨hp.2.1, .inr hp.2.2.2⟩

theorem Inv.reply_node : (life x s.trace).answer = some m ∧ G x ≠ .free := by
  obtain ⟨hm, ⟨o, ho⟩ | ⟨o, ho⟩⟩ := h.reply_owner hpc hx <;> exact ⟨hm, by simp [ho]⟩

end Reply

theorem reach_sentOk (h : machine.Reach (fun s a => noTestInWindow s a = true) s) :
    (∃ G, Inv s G) ∧ SentOk s.trace := by
  refine Reach.invariant (I := fun s => (∃ G, Inv s G) ∧ SentOk s.trace) ?_ ?_ h
  · rintro s ⟨pid, mem, rfl⟩
    exact ⟨⟨_, inv_ipcInit pid mem⟩, fun pre rest x m heq => by cases pre <;> cases heq⟩
  · rintro s a s' ⟨⟨G, hG⟩, hsent⟩ hok hs
    exact ⟨inv_step hG hok hs, sentOk_step hG hsent hs⟩

/-- In every run in which no sender tests `is_finish` inside the window of its node, every
send gets the answer of its reply and no reply uses a freed node. -/
theorem ipc_answered {s : State}
    (h : machine.Reach (fun s a => noTestInWindow s a = true) s) : Answered s := by
  obtain ⟨⟨G, hG⟩, hsent⟩ := reach_sentOk h
  refine ⟨hsent, ?_⟩
  intro t e m p x hpc hx
  obtain ⟨hm, hlive⟩ := hG.reply_node hpc hx
  exact ⟨hm, hG.live x hlive⟩

/-- The exchange meets the condition and its sender has the answer. -/
theorem ipc_answered_exchange : ∃ s, machine.run booted exchange = some s ∧
    .sent 0 (message 9) ∈ s.trace ∧ Answered s := by
  obtain ⟨s, hs, hreach, hmem⟩ := exists_run (G := fun s a => noTestInWindow s a = true)
    (P := fun s => .sent 0 (message 9) ∈ s.trace) reach_booted exchange (by decide)
  exact ⟨s, hs, hmem, ipc_answered hreach⟩

/-- Task 1 tests `is_finish` between its store and the `memcpy`, copies and frees. -/
def earlyCopy : List Act :=
  registration ++ sending 1 0 (message 1) ++ [.run 1] ++ receiving ++ replying (message 9) 6 ++
    runs 1 3

/-- The send returns its own message, and the reply has the freed node still to write. -/
theorem ipc_answered_earlyCopy :
    (¬ ∀ s, machine.Reach free s → SentOk s.trace) ∧
      ¬ ∀ s t e m p x, machine.Reach free s → s.pc t = .reply e m p → p.node = some x →
        (life x s.trace).freed = false := by
  constructor
  · intro h
    obtain ⟨s, hreach, htr⟩ := exists_reach (G := free) (P := fun s => s.trace =
      [.alloc 0, .append .system 0 { message 1 with mSource := 1 },
        .received .system 0 { message 1 with mSource := 1 }, .dequeued .system 0 (message 9),
        .freed 0] ++ .sent 0 { message 1 with mSource := 1 } :: [])
      reach_booted earlyCopy (by decide)
    have hanswer := h s hreach _ _ _ _ htr
    revert hanswer
    decide
  · intro h
    obtain ⟨s, hreach, hpc, hfreed⟩ := exists_reach (G := free) (P := fun s =>
      s.pc 0 = .reply .system (message 9) (.copy 0) ∧ (life 0 s.trace).freed = true)
      reach_booted earlyCopy (by decide)
    have hlive := h s _ _ _ _ _ hreach hpc rfl
    rw [hfreed] at hlive
    cases hlive

/-! ## The memory of the nodes -/

/-- The node that the next statement of the task reads, writes, links or frees. -/
def Pc.uses : Pc → Option Addr
  | .send _ _ (.copyIn x) | .send _ _ (.clear x) | .send _ _ (.initWait x)
  | .send _ _ (.append x) | .send _ _ (.wait x _) | .send _ _ (.copyOut x)
  | .send _ _ (.free x) | .receive _ (.copy x) => some x
  | .reply _ _ p => p.node
  | _ => none

def Pc.frees : Pc → Option Addr
  | .send _ _ (.free x) | .reply _ _ (.free x) => some x
  | _ => none

structure NodesSafe (s : State) : Prop where
  used : ∀ t x, (s.pc t).uses = some x → s.allocated x = true
  /-- Nobody else has the node that a task frees. -/
  freed : ∀ t x, (s.pc t).frees = some x →
    (∀ u ≠ t, (s.pc u).uses ≠ some x) ∧ ∀ e, x ∉ (s.ep e).epList
  listed : ∀ e, (s.ep e).epList.Nodup ∧ ∀ x ∈ (s.ep e).epList,
    s.allocated x = true ∧ ∀ e', x ∈ (s.ep e').epList → e' = e

/-- The task may use a node with this owner. -/
def NodeSt.sharedBy (t : TaskId) : NodeSt → Prop
  | .free => False
  | .building u | .done u => u = t
  | .queued _ _ => True
  | .inHand _ u o => u = t ∨ o = some t
  | .finishing _ u o => u = t ∨ o = t

section Nodes

variable {s : State} {G : Addr → NodeSt} {t : TaskId} {x : Addr} (h : Inv s G)
include h

theorem Inv.sharedBy_of_uses (hx : (s.pc t).uses = some x) : (G x).sharedBy t := by
  have hp := h.pcOk t
  rcases hpc : s.pc t with _ | ⟨e, m, p⟩ | ⟨e, p⟩ | ⟨e, m, p⟩ <;> rw [hpc] at hp hx
  · cases hx
  · cases p <;> cases hx
    case send.wait.refl =>
      rcases hp.1 with ho | ⟨u, ho⟩ | ⟨u, ho⟩ | ho <;> simp [ho, NodeSt.sharedBy]
    all_goals simp_all [PcOk, SendOk, NodeSt.sharedBy]
  · cases p <;> cases hx
    obtain ⟨o, ho⟩ := h.queued e x (List.mem_of_head? hp.2)
    rw [ho]
    trivial
  · obtain ⟨-, ⟨o, ho⟩ | ⟨o, ho⟩⟩ := h.reply_owner hpc hx <;> simp [ho, NodeSt.sharedBy]

theorem Inv.owner_of_frees (hx : (s.pc t).frees = some x) :
    G x = .done t ∨ ∃ e, G x = .inHand e t none := by
  have hp := h.pcOk t
  generalize s.pc t = p at hp hx
  rcases p with _ | ⟨e, m, p⟩ | ⟨e, p⟩ | ⟨e, m, p⟩
  · cases hx
  · cases p <;> cases hx
    exact .inl hp.1
  · cases hx
  · cases p <;> cases hx
    exact .inr ⟨e, hp.2.2⟩

theorem Inv.allocated_of_ne (hx : G x ≠ .free) : s.allocated x = true :=
  Bool.eq_true_of_not_eq_false fun ha => hx ((h.alloc x).mp ha)

end Nodes

/-- In every run in which no sender tests `is_finish` inside the window of its node, no
statement uses a freed node, and a node that is freed is on no list and in no other hands. -/
theorem ipc_nodes_safe {s : State}
    (h : machine.Reach (fun s a => noTestInWindow s a = true) s) : NodesSafe s := by
  obtain ⟨G, hG⟩ := reach_inv h
  refine ⟨?_, ?_, ?_⟩
  · intro t x hx
    refine hG.allocated_of_ne fun hfree => ?_
    have hshared := hG.sharedBy_of_uses hx
    rwa [hfree] at hshared
  · intro t x hx
    have howner := hG.owner_of_frees hx
    constructor
    · intro u hne hu
      have hshared := hG.sharedBy_of_uses hu
      rcases howner with ho | ⟨e, ho⟩ <;> simp [ho, NodeSt.sharedBy, hne.symm] at hshared
    · intro e hmem
      obtain ⟨o, hq⟩ := hG.queued e x hmem
      rcases howner with ho | ⟨e', ho⟩ <;> simp [ho] at hq
  · intro e
    refine ⟨hG.nodup e, fun x hx => ?_⟩
    obtain ⟨o, ho⟩ := hG.queued e x hx
    refine ⟨hG.allocated_of_ne (by simp [ho]), fun e' hx' => ?_⟩
    obtain ⟨o', ho'⟩ := hG.queued e' x hx'
    cases ho.symm.trans ho'
    rfl

/-- The exchange meets the condition up to the `kfree` of its sender. -/
theorem ipc_nodes_safe_exchange : ∃ s, machine.run booted exchange.dropLast = some s ∧
    (s.pc 1).frees = some 0 ∧ NodesSafe s := by
  obtain ⟨s, hs, hreach, hfrees⟩ := exists_run (G := fun s a => noTestInWindow s a = true)
    (P := fun s => (s.pc 1).frees = some 0) reach_booted exchange.dropLast (by decide)
  exact ⟨s, hs, hfrees, ipc_nodes_safe hreach⟩

end MinixRt.Ipc
