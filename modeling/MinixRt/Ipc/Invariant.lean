import MinixRt.Ipc.Frame

/-!
# The ownership of message nodes

Every node has one owner at a time, and its status says which. A sender builds it, the
list holds it, the server that dequeues it holds it until it has woken the sender, and
then it is the sender's again, to copy and free.

The code hands a node over with the store to `is_finish`, before the server is done with
it: the `memcpy` and the `wake_up` of `__ipc_reply` follow. A sender that tests
`is_finish` between that store and the end of the `wake_up` takes the node while the
server still uses it. `noTestInWindow` excludes that one step, and the invariant holds in
every state reached by the runs that meet it.
-/

namespace MinixRt.Ipc

open State

/-! ## The window of a reply -/

/-- The node whose `is_finish` the task has stored and whose `memcpy` or `wake_up` it has
not finished. -/
def Pc.window : Pc → Option Addr
  | .reply _ _ (.copy x) => some x
  | .reply _ _ (.wake x) => some x
  | _ => none

/-- The server of `e` is in the window of node `x`. -/
def State.inWindow (s : State) (e : Endpoint) (x : Addr) : Bool :=
  match (s.ep e).tsk with
  | some u => (s.pc u).window == some x
  | none => false

/-- The step is not a sender's test of `is_finish` inside the window of its node. -/
def noTestInWindow (s : State) : Act → Bool
  | .run t =>
    match s.pc t with
    | .send e _ (.wait x .cond) => !s.inWindow e x
    | .send e _ (.wait x .test) => !s.inWindow e x
    | _ => true
  | _ => true

/-! ## The events of one endpoint -/

/-- The node and the message that the event appends to the list of `e`. -/
def Event.appendAt (e : Endpoint) : Event → Option (Addr × Message)
  | .append e' x m => if e' = e then some (x, m) else none
  | .alloc .. | .received .. | .dequeued .. | .replied .. | .freed .. | .sent .. | .enodev .. => none

/-- The node and the message that the event receives at `e`. -/
def Event.receiveAt (e : Endpoint) : Event → Option (Addr × Message)
  | .received e' x m => if e' = e then some (x, m) else none
  | .alloc .. | .append .. | .dequeued .. | .replied .. | .freed .. | .sent .. | .enodev .. => none

/-- The node that the event takes off the list of `e`. -/
def Event.dequeueAt (e : Endpoint) : Event → Option Addr
  | .dequeued e' x _ => if e' = e then some x else none
  | .alloc .. | .append .. | .received .. | .replied .. | .freed .. | .sent .. | .enodev .. => none

/-- A successful receive (`true`) or reply (`false`) at `e`. -/
def Event.callAt (e : Endpoint) : Event → Option Bool
  | .received e' _ _ => if e' = e then some true else none
  | .replied e' _ => if e' = e then some false else none
  | .alloc .. | .append .. | .dequeued .. | .freed .. | .sent .. | .enodev .. => none

/-- The nodes appended to the list of `e`, with their messages. -/
def appended (e : Endpoint) (tr : List Event) : List (Addr × Message) :=
  tr.filterMap (Event.appendAt e)

/-- The nodes read by the successful receives at `e`, with the messages copied out. -/
def received (e : Endpoint) (tr : List Event) : List (Addr × Message) :=
  tr.filterMap (Event.receiveAt e)

/-- The nodes taken off the list of `e`. -/
def dequeued (e : Endpoint) (tr : List Event) : List Addr :=
  tr.filterMap (Event.dequeueAt e)

/-- The successful receives and replies at `e`. -/
def calls (e : Endpoint) (tr : List Event) : List Bool :=
  tr.filterMap (Event.callAt e)

theorem filterMap_log {β : Type} (f : Event → Option β) (tr : List Event) (ev : Event) :
    (tr ++ [ev]).filterMap f = tr.filterMap f ++ (f ev).toList := by
  rw [List.filterMap_append]
  cases h : f ev <;> simp [h]

section Log

variable (e : Endpoint) (tr : List Event) (ev : Event)

theorem appended_log : appended e (tr ++ [ev]) = appended e tr ++ (ev.appendAt e).toList :=
  filterMap_log _ tr ev

theorem received_log : received e (tr ++ [ev]) = received e tr ++ (ev.receiveAt e).toList :=
  filterMap_log _ tr ev

theorem dequeued_log : dequeued e (tr ++ [ev]) = dequeued e tr ++ (ev.dequeueAt e).toList :=
  filterMap_log _ tr ev

theorem calls_log : calls e (tr ++ [ev]) = calls e tr ++ (ev.callAt e).toList :=
  filterMap_log _ tr ev

end Log

/-- The endpoint whose events the event is one of. -/
@[simp]
def Event.endpoint : Event → Option Endpoint
  | .append e _ _ | .received e _ _ | .dequeued e _ _ | .replied e _ => some e
  | .alloc _ | .freed _ | .sent .. | .enodev .. => none

/-- The two traces have the same events of `e`. -/
structure SameEvents (e : Endpoint) (tr tr' : List Event) : Prop where
  appended : appended e tr' = appended e tr
  received : received e tr' = received e tr
  dequeued : dequeued e tr' = dequeued e tr
  calls : calls e tr' = calls e tr

variable {e : Endpoint}

theorem SameEvents.rfl {tr : List Event} : SameEvents e tr tr := by
  constructor <;> rfl

variable {ev : Event}

theorem SameEvents.log {tr tr' : List Event} (h : SameEvents e tr tr')
    (hev : ev.endpoint ≠ some e) : SameEvents e tr (tr' ++ [ev]) := by
  obtain ⟨ha, hr, hd, hc⟩ : ev.appendAt e = none ∧ ev.receiveAt e = none ∧
      ev.dequeueAt e = none ∧ ev.callAt e = none := by
    cases ev <;> simp_all [Event.appendAt, Event.receiveAt, Event.dequeueAt,
      Event.callAt]
  constructor
  · rw [appended_log, ha, ← h.appended, Option.toList_none, List.append_nil]
  · rw [received_log, hr, ← h.received, Option.toList_none, List.append_nil]
  · rw [dequeued_log, hd, ← h.dequeued, Option.toList_none, List.append_nil]
  · rw [calls_log, hc, ← h.calls, Option.toList_none, List.append_nil]

/-- The history of the memory at one address. -/
structure Life where
  /-- The message passed to the reply that dequeued the node, since its `kmalloc`. -/
  answer : Option Message
  /-- A sender has freed the node, and no `kmalloc` has returned it since. -/
  freed : Bool

/-- What one event says about the memory at `x`. -/
def lifeStep (x : Addr) (l : Life) : Event → Life
  | .alloc y => if y = x then ⟨none, false⟩ else l
  | .dequeued _ y m => if y = x then { l with answer := some m } else l
  | .freed y => if y = x then { l with freed := true } else l
  | _ => l

def life (x : Addr) (tr : List Event) : Life := tr.foldl (lifeStep x) ⟨none, false⟩

theorem life_append (x : Addr) (tr : List Event) (ev : Event) :
    life x (tr ++ [ev]) = lifeStep x (life x tr) ev := by
  simp [life]

/-- The node whose history the event is part of. -/
@[simp]
def Event.addr : Event → Option Addr
  | .alloc x | .dequeued _ x _ | .freed x => some x
  | .append .. | .received .. | .replied .. | .sent .. | .enodev .. => none

theorem life_log_of_ne {x : Addr} (tr : List Event) (h : ev.addr ≠ some x) :
    life x (tr ++ [ev]) = life x tr := by
  rw [life_append]
  cases ev <;> simp_all [lifeStep]

/-- `b`, `!b`, `b`, ... -/
def Alternates : Bool → List Bool → Prop
  | _, [] => True
  | b, c :: l => c = b ∧ Alternates (!b) l

/-- What the next call must be after `l`, when `l` alternates from `b`. -/
def nextCall (b : Bool) (l : List Bool) : Bool := if l.length % 2 = 0 then b else !b

theorem alternates_append {b c : Bool} {l : List Bool} (h : Alternates b l)
    (hc : c = nextCall b l) : Alternates b (l ++ [c]) := by
  induction l generalizing b with
  | nil => exact ⟨by simpa [nextCall] using hc, trivial⟩
  | cons a l ih =>
    refine ⟨h.1, ih h.2 ?_⟩
    rw [hc]
    simp only [nextCall, List.length_cons]
    rcases Nat.mod_two_eq_zero_or_one l.length with hl | hl
    · rw [if_neg (by omega), if_pos hl]
    · rw [if_pos (by omega), if_neg (by omega), Bool.not_not]

/-! ## The invariant -/

/-- The owner of a node. -/
inductive NodeSt
  | free
  | building (t : TaskId)
  | queued (e : Endpoint) (o : Option TaskId)
  | inHand (e : Endpoint) (u : TaskId) (o : Option TaskId)
  | finishing (e : Endpoint) (u t : TaskId)
  | done (t : TaskId)

/-- Task `t` waits for the answer to the node with this status. -/
def SenderWaits (g : NodeSt) (e : Endpoint) (t : TaskId) : Prop :=
  g = .queued e (some t) ∨ (∃ u, g = .inHand e u (some t)) ∨ (∃ u, g = .finishing e u t) ∨
    g = .done t

section Ok

variable (s : State) (G : Addr → NodeSt) (t : TaskId)

def SendOk (e : Endpoint) (m : Message) : SendPc → Prop
  | .copyIn x => G x = .building t
  | .clear x => G x = .building t ∧ (s.node x).m = m
  | .initWait x => G x = .building t ∧ (s.node x).m = m ∧ (s.node x).isFinish = false
  | .append x => G x = .building t ∧ (s.node x).m = m ∧ (s.node x).isFinish = false
  | .wake x => m.isNotifier = false → SenderWaits (G x) e t
  | .type x => m.isNotifier = false → SenderWaits (G x) e t
  | .wait x w => SenderWaits (G x) e t ∧ (w = .finish ∨ w = .unqueue → G x = .done t)
  | .copyOut x => G x = .done t
  | .free x => G x = .done t ∧ (life x s.trace).answer = some m
  | _ => True

/-- The task is the server of `e` and holds `n` unanswered messages. -/
def Serves (e : Endpoint) (n : BitVec 32) : Prop :=
  (s.ep e).tsk = some t ∧ (s.ep e).ipcReqCount = n

def RecvOk (e : Endpoint) : RecvPc → Prop
  | .tsk => True
  | .current => True
  | .count => (s.ep e).tsk = some t
  | .list => Serves s t e 0
  | .wait w => Serves s t e 0 ∧
      ((s.ep e).state = .waitting ∧ w ≠ .finish ∧ w ≠ .unqueue ∨
        (s.ep e).state = .running ∧ (s.ep e).epList ≠ [])
  | .first => Serves s t e 0 ∧ (s.ep e).epList ≠ []
  | .copy x => Serves s t e 0 ∧ (s.ep e).epList.head? = some x
  | .inc x m => Serves s t e 0 ∧ (s.ep e).epList.head? = some x ∧ (s.node x).m = m

def ReplyOk (e : Endpoint) (m : Message) : ReplyPc → Prop
  | .tsk => True
  | .current => True
  | .count => (s.ep e).tsk = some t
  | .del => Serves s t e 1
  | .type x => Serves s t e 1 ∧ (life x s.trace).answer = some m ∧ ∃ o, G x = .inHand e t o
  | .free x => Serves s t e 1 ∧ (life x s.trace).answer = some m ∧ G x = .inHand e t none
  | .finish x =>
    Serves s t e 1 ∧ (life x s.trace).answer = some m ∧ ∃ o, G x = .inHand e t (some o)
  | .copy x => Serves s t e 1 ∧ (life x s.trace).answer = some m ∧ ∃ o, G x = .finishing e t o
  | .wake x => Serves s t e 1 ∧ (life x s.trace).answer = some m ∧ (s.node x).m = m ∧
      ∃ o, G x = .finishing e t o
  | .dec _ => Serves s t e 1

def PcOk : Pc → Prop
  | .idle => True
  | .send e m p => SendOk s G t e m p
  | .receive e p => RecvOk s t e p
  | .reply e m p => ReplyOk s G t e m p

end Ok

def NodeOk (s : State) (x : Addr) : NodeSt → Prop
  | .free => True
  | .building _ => True
  | .queued e o => x ∈ (s.ep e).epList ∧ (s.node x).isFinish = false ∧
      (o = none ↔ (s.node x).m.isNotifier = true)
  | .inHand _ _ o => (s.node x).isFinish = false ∧ (o = none ↔ (s.node x).m.isNotifier = true)
  | .finishing e u _ => (s.node x).isFinish = true ∧ (s.ep e).tsk = some u ∧
      (s.pc u).window = some x
  | .done _ => (s.node x).isFinish = true ∧ (life x s.trace).answer = some (s.node x).m

/-- The task has dequeued the node it answers at this endpoint. -/
def Pc.postDel : Pc → Option Endpoint
  | .reply e _ (.type _) => some e
  | .reply e _ (.free _) => some e
  | .reply e _ (.finish _) => some e
  | .reply e _ (.copy _) => some e
  | .reply e _ (.wake _) => some e
  | .reply e _ (.dec _) => some e
  | _ => none

def State.queue (s : State) (e : Endpoint) : List (Addr × Message) :=
  (s.ep e).epList.map fun x => (x, (s.node x).m)

/-- The head of the list has been received and not dequeued. -/
def HeadReceived (s : State) (e : Endpoint) : Prop :=
  (received e s.trace).length = (dequeued e s.trace).length + 1 ∧
    ∃ x rest, (s.ep e).epList = x :: rest ∧
      (received e s.trace).getLast?.map Prod.fst = some x

def AllDequeued (s : State) (e : Endpoint) : Prop :=
  (received e s.trace).length = (dequeued e s.trace).length

/-- The server of `e` has dequeued the node it answers. -/
def State.PostDel (s : State) (e : Endpoint) : Prop :=
  ∃ u, (s.ep e).tsk = some u ∧ (s.pc u).postDel = some e

structure LedgerOk (s : State) (e : Endpoint) : Prop where
  exact_ : appended e s.trace = received e s.trace ++
    (s.queue e).drop ((received e s.trace).length - (dequeued e s.trace).length)
  alternates : Alternates true (calls e s.trace)
  count : (s.ep e).ipcReqCount = 0 ∧ nextCall true (calls e s.trace) = true ∧ AllDequeued s e ∨
    (s.ep e).ipcReqCount = 1 ∧ nextCall true (calls e s.trace) = false ∧
      (HeadReceived s e ∧ ¬ s.PostDel e ∨ AllDequeued s e ∧ s.PostDel e)

structure Inv (s : State) (G : Addr → NodeSt) : Prop where
  alloc : ∀ x, s.allocated x = false ↔ G x = .free
  live : ∀ x, G x ≠ .free → (life x s.trace).freed = false
  pcOk : ∀ t, PcOk s G t (s.pc t)
  nodeOk : ∀ x, NodeOk s x (G x)
  nodup : ∀ e, (s.ep e).epList.Nodup
  queued : ∀ e, ∀ x ∈ (s.ep e).epList, ∃ o, G x = .queued e o
  empty : ∀ e, (s.ep e).state = .waitting → (s.ep e).epList = []
  reg : ∀ e, (s.ep e).tsk = none ↔ s.reg e = .none
  started : ∀ e t, (s.ep e).tsk = some t → s.reg e = .done ∨ s.pc t = .idle
  ledger : ∀ e, LedgerOk s e

/-! ## Frames -/

/-- What a step of another task leaves task `t` to rely on. -/
structure Keeps (s : State) (G : Addr → NodeSt) (s' : State) (G' : Addr → NodeSt)
    (t : TaskId) : Prop where
  building : ∀ x, G x = .building t → G' x = .building t ∧ (s'.node x).m = (s.node x).m ∧
    (s'.node x).isFinish = (s.node x).isFinish
  waits : ∀ x e, SenderWaits (G x) e t → SenderWaits (G' x) e t
  done : ∀ x, G x = .done t → G' x = .done t ∧ life x s'.trace = life x s.trace
  inHand : ∀ x e o, G x = .inHand e t o → G' x = .inHand e t o ∧ life x s'.trace = life x s.trace
  finishing : ∀ x e o, G x = .finishing e t o → G' x = .finishing e t o ∧
    life x s'.trace = life x s.trace ∧ (s'.node x).m = (s.node x).m
  tsk : ∀ e, (s.ep e).tsk = some t → (s'.ep e).tsk = some t
  count : ∀ e, (s.ep e).tsk = some t → (s'.ep e).ipcReqCount = (s.ep e).ipcReqCount
  waitting : ∀ e, (s.ep e).tsk = some t → (s.ep e).state = .waitting →
    (s'.ep e).state = .waitting ∨ (s'.ep e).state = .running ∧ (s'.ep e).epList ≠ []
  running : ∀ e, (s.ep e).tsk = some t → (s.ep e).state = .running → (s'.ep e).state = .running
  head : ∀ e, (s.ep e).tsk = some t → ∀ x, (s.ep e).epList.head? = some x →
    (s'.ep e).epList.head? = some x ∧ (s'.node x).m = (s.node x).m

variable {s s' : State} {G G' : Addr → NodeSt} {t : TaskId} {e : Endpoint} {m : Message} {p : Pc}

section Keeps

variable (h : Keeps s G s' G' t)
include h

theorem Keeps.ne_nil (ht : (s.ep e).tsk = some t) (hl : (s.ep e).epList ≠ []) :
    (s'.ep e).epList ≠ [] := by
  obtain ⟨x, rest, hx⟩ := List.exists_cons_of_ne_nil hl
  have := (h.head e ht x (by rw [hx]; rfl)).1
  intro hnil
  rw [hnil] at this
  cases this

theorem Keeps.serves {n : BitVec 32} (hs : Serves s t e n) : Serves s' t e n :=
  ⟨h.tsk e hs.1, (h.count e hs.1).trans hs.2⟩

theorem Keeps.sendOk {p : SendPc} (hp : SendOk s G t e m p) : SendOk s' G' t e m p := by
  cases p with
  | tsk | timeout | checkRet | alloc => trivial
  | copyIn x => exact (h.building x hp).1
  | clear x => exact ⟨(h.building x hp.1).1, (h.building x hp.1).2.1.trans hp.2⟩
  | initWait x | append x =>
    obtain ⟨hb, hm, hf⟩ := h.building x hp.1
    exact ⟨hb, hm.trans hp.2.1, hf.trans hp.2.2⟩
  | wake x | type x => exact fun hn => h.waits x e (hp hn)
  | wait x => exact ⟨h.waits x e hp.1, fun hw => (h.done x (hp.2 hw)).1⟩
  | copyOut x => exact (h.done x hp).1
  | free x => exact ⟨(h.done x hp.1).1, by rw [(h.done x hp.1).2]; exact hp.2⟩

theorem Keeps.recvOk {p : RecvPc} (hp : RecvOk s t e p) : RecvOk s' t e p := by
  cases p with
  | tsk | current => trivial
  | count => exact h.tsk e hp
  | list => exact h.serves hp
  | wait =>
    obtain ⟨hs, ⟨hw, h1, h2⟩ | ⟨hr, hl⟩⟩ := hp
    · refine ⟨h.serves hs, ?_⟩
      rcases h.waitting e hs.1 hw with hw' | hr'
      · exact .inl ⟨hw', h1, h2⟩
      · exact .inr hr'
    · exact ⟨h.serves hs, .inr ⟨h.running e hs.1 hr, h.ne_nil hs.1 hl⟩⟩
  | first => exact ⟨h.serves hp.1, h.ne_nil hp.1.1 hp.2⟩
  | copy x => exact ⟨h.serves hp.1, (h.head e hp.1.1 x hp.2).1⟩
  | inc x =>
    obtain ⟨hh, hm⟩ := h.head e hp.1.1 x hp.2.1
    exact ⟨h.serves hp.1, hh, hm.trans hp.2.2⟩

theorem Keeps.replyOk {p : ReplyPc} (hp : ReplyOk s G t e m p) : ReplyOk s' G' t e m p := by
  cases p with
  | tsk | current => trivial
  | count => exact h.tsk e hp
  | del => exact h.serves hp
  | type x =>
    obtain ⟨hs, hm, o, ho⟩ := hp
    obtain ⟨ho', hl⟩ := h.inHand x e o ho
    exact ⟨h.serves hs, by rw [hl]; exact hm, o, ho'⟩
  | free x =>
    obtain ⟨hs, hm, ho⟩ := hp
    obtain ⟨ho', hl⟩ := h.inHand x e none ho
    exact ⟨h.serves hs, by rw [hl]; exact hm, ho'⟩
  | finish x =>
    obtain ⟨hs, hm, o, ho⟩ := hp
    obtain ⟨ho', hl⟩ := h.inHand x e _ ho
    exact ⟨h.serves hs, by rw [hl]; exact hm, o, ho'⟩
  | copy x =>
    obtain ⟨hs, hm, o, ho⟩ := hp
    obtain ⟨ho', hl, -⟩ := h.finishing x e o ho
    exact ⟨h.serves hs, by rw [hl]; exact hm, o, ho'⟩
  | wake x =>
    obtain ⟨hs, hm, hn, o, ho⟩ := hp
    obtain ⟨ho', hl, hn'⟩ := h.finishing x e o ho
    exact ⟨h.serves hs, by rw [hl]; exact hm, hn'.trans hn, o, ho'⟩
  | dec => exact h.serves hp

theorem Keeps.pcOk (hp : PcOk s G t p) : PcOk s' G' t p := by
  cases p with
  | idle => trivial
  | send e m p => exact h.sendOk (p := p) hp
  | receive e p => exact h.recvOk (p := p) hp
  | reply e m p => exact h.replyOk (p := p) hp

end Keeps

theorem postDel_iff (htsk : (s'.ep e).tsk = (s.ep e).tsk) (hpc : s'.pc = Function.update s.pc t p)
    (hp : p.postDel = some e ↔ (s.pc t).postDel = some e) : s'.PostDel e ↔ s.PostDel e := by
  unfold State.PostDel
  rw [htsk, hpc]
  refine exists_congr fun u => and_congr_right fun _ => ?_
  by_cases hu : u = t
  · subst hu
    rw [Function.update_self]
    exact hp
  · rw [Function.update_of_ne hu]

theorem LedgerOk.frame (h : LedgerOk s e) (hev : SameEvents e s.trace s'.trace)
    (hl : (s'.ep e).epList = (s.ep e).epList)
    (hm : ∀ x ∈ (s.ep e).epList, (s'.node x).m = (s.node x).m)
    (hn : (s'.ep e).ipcReqCount = (s.ep e).ipcReqCount) (hp : s'.PostDel e ↔ s.PostDel e) :
    LedgerOk s' e := by
  have hq : s'.queue e = s.queue e := by
    unfold State.queue
    rw [hl]
    exact List.map_congr_left fun x hx => by rw [hm x hx]
  obtain ⟨ha, hr, hd, hc⟩ := hev
  refine ⟨?_, ?_, ?_⟩
  · rw [ha, hr, hd, hq]
    exact h.exact_
  · rw [hc]
    exact h.alternates
  · rw [hn, hc]
    simp only [HeadReceived, AllDequeued, hr, hd, hl, hp]
    exact h.count

end MinixRt.Ipc
