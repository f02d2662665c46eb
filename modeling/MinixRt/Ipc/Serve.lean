import MinixRt.Ipc.Preserve

/-!
# The statements of a server keep the invariant

`__ipc_receive` and `__ipc_reply` run in the one task registered at the endpoint. The
count and the state word change only here, so no other task relies on them; the ledger of
the endpoint moves when a receive returns, when the node is dequeued and when the reply
returns.
-/

namespace MinixRt.Ipc

open List Function State

variable {s s' : State} {G : Addr → NodeSt} {t : TaskId} {e : Endpoint} {m : Message}
  {x : Addr}

/-! ## `__ipc_receive` -/

section Receive

theorem LedgerOk.idle (h : LedgerOk s e) (hn : (s.ep e).ipcReqCount = 0) :
    nextCall true (calls e s.trace) = true ∧ AllDequeued s e := by
  rcases h.count with hc | hc
  · exact hc.2
  · rw [hn] at hc
    exact absurd hc.1 (by decide)

theorem LedgerOk.answering (h : LedgerOk s e) (hn : (s.ep e).ipcReqCount = 1) :
    nextCall true (calls e s.trace) = false ∧
      (HeadReceived s e ∧ ¬ s.PostDel e ∨ AllDequeued s e ∧ s.PostDel e) := by
  rcases h.count with hc | hc
  · rw [hn] at hc
    exact absurd hc.1 (by decide)
  · exact hc.2

theorem nextCall_append (l : List Bool) (c : Bool) :
    nextCall true (l ++ [c]) = !nextCall true l := by
  simp only [nextCall, length_append, length_singleton]
  rcases Nat.mod_two_eq_zero_or_one l.length with hl | hl
  · rw [if_neg (by omega), if_pos hl]
  · rw [if_pos (by omega), if_neg (by omega), Bool.not_not]

theorem postDel_server (ht : (s.ep e).tsk = some t) : s.PostDel e ↔ (s.pc t).postDel = some e := by
  constructor
  · rintro ⟨u, hu, hd⟩
    cases ht.symm.trans hu
    exact hd
  · exact fun hd => ⟨t, ht, hd⟩

theorem inv_list (h : Inv s G) (hpc : s.pc t = .receive e .list) (hl : (s.ep e).epList = []) :
    Inv ((s.setEp e fun i => { i with state := .waitting }).setPc t
      (.receive e (.wait .cond))) G := by
  have hs : Serves s t e 0 := h.recvOk hpc
  refine EpStep.inv h (.setEp (.refl s) (Set.mem_singleton e) rfl) hs.1 (by simp) (fun _ => hl) ?_
    (.of hpc ?_ rfl rfl (.inr nofun))
  · refine (h.ledger e).frame .rfl (by simp) (fun _ _ => rfl) (by simp) ?_
    exact postDel_iff (by simp) rfl (by simp [hpc, Pc.postDel])
  · refine ⟨⟨by simpa using hs.1, by simpa using hs.2⟩, .inl ⟨by simp, nofun, nofun⟩⟩

def afterInc (s : State) (t : TaskId) (e : Endpoint) (m : Message) (x : Addr) : State :=
  ((s.setEp e fun i => { i with ipcReqCount := i.ipcReqCount + 1 }).log (.received e x m)).setPc t
    .idle

theorem ledger_afterInc (h : Inv s G) (hpc : s.pc t = .receive e (.inc x m)) :
    LedgerOk (afterInc s t e m x) e := by
  obtain ⟨⟨ht, hn⟩, hx, hm⟩ : RecvOk s t e (.inc x m) := h.recvOk hpc
  obtain ⟨hnext, hall⟩ := (h.ledger e).idle hn
  obtain ⟨rest, hl⟩ : ∃ rest, (s.ep e).epList = x :: rest := head?_eq_some_iff.1 hx
  have ha : appended e (afterInc s t e m x).trace = appended e s.trace := by
    simp [afterInc, appended_log, Event.appendAt]
  have hr : received e (afterInc s t e m x).trace = received e s.trace ++ [(x, m)] := by
    simp [afterInc, received_log, Event.receiveAt]
  have hd : dequeued e (afterInc s t e m x).trace = dequeued e s.trace := by
    simp [afterInc, dequeued_log, Event.dequeueAt]
  have hc : calls e (afterInc s t e m x).trace = calls e s.trace ++ [true] := by
    simp [afterInc, calls_log, Event.callAt]
  have hq : (afterInc s t e m x).queue e = s.queue e := by
    simp [afterInc, State.queue]
  have hlen : (received e s.trace ++ [(x, m)]).length = (dequeued e s.trace).length + 1 := by
    rw [length_append, hall, length_singleton]
  refine ⟨?_, ?_, .inr ⟨?_, ?_, .inl ⟨⟨?_, x, rest, ?_, ?_⟩, ?_⟩⟩⟩
  · have hex := (h.ledger e).exact_
    rw [hall, Nat.sub_self, drop_zero] at hex
    rw [ha, hr, hd, hq, hlen, hex, Nat.add_sub_cancel_left]
    simp [State.queue, hl, hm]
  · rw [hc]
    exact alternates_append (h.ledger e).alternates hnext.symm
  · simp [afterInc, hn]
  · rw [hc, nextCall_append, hnext]
    rfl
  · rw [hr, hd, hlen]
  · simpa [afterInc] using hl
  · simp [hr]
  · rw [postDel_server (t := t) (by simpa [afterInc] using ht)]
    simp [afterInc, Pc.postDel]

theorem inv_afterInc (h : Inv s G) (hpc : s.pc t = .receive e (.inc x m)) :
    Inv (afterInc s t e m x) G := by
  obtain ⟨⟨ht, -⟩, -⟩ : RecvOk s t e (.inc x m) := h.recvOk hpc
  exact EpStep.inv h (.log (.setEp (.refl s) (Set.mem_singleton e) rfl) (by simp)) ht (by simp)
    (fun hw => h.empty e (by simpa using hw)) (ledger_afterInc h hpc)
    (.of hpc trivial rfl rfl (.inl rfl))

theorem inv_receiveWait (h : Inv s G) {w : WaitPc} (hpc : s.pc t = .receive e (.wait w))
    (hs : ipcReceive s t e (.wait w) = some s') : Inv s' G := by
  obtain ⟨⟨s₁, r⟩, hwait, rfl⟩ := Option.map_eq_some_iff.mp hs
  have hcore := SameCore.waitEvent hwait
  have h1 := h.sameCore hcore
  have hpc1 : s₁.pc t = .receive e (.wait w) := by rw [hcore.pc, hpc]
  obtain ⟨hserves, hword⟩ : RecvOk s₁ t e (.wait w) := h1.recvOk hpc1
  obtain ⟨hnone, hfin, hunq⟩ := waitEvent_next hwait
  have hrun : s.epRunning e = true → (s₁.ep e).state = .running := by
    intro hr
    rw [hcore.state]
    simpa [State.epRunning] using hr
  refine h1.setPc_receive hpc1 ?_ rfl
  -- past the test the word is running, and a running word comes with a queued node
  cases r with
  | none =>
    refine ⟨hserves, ?_⟩
    rcases hword with ⟨hw, -, hne⟩ | ⟨-, hl⟩
    · rcases hnone rfl with ⟨rfl, hr⟩ | rfl
      · cases hw.symm.trans (hrun hr)
      · exact absurd rfl hne
    · exact hl
  | some =>
    refine ⟨hserves, ?_⟩
    rcases hword with ⟨hw, hne, -⟩ | hr
    · refine .inl ⟨hw, ?_, ?_⟩
      · rintro rfl
        cases hw.symm.trans (hrun (hfin rfl).2)
      · rintro rfl
        exact hne (hunq rfl)
    · exact .inr hr

theorem inv_ipcReceive (h : Inv s G) {p : RecvPc} (hpc : s.pc t = .receive e p)
    (hs : ipcReceive s t e p = some s') : Inv s' G := by
  cases p with
  | tsk =>
    cases hs
    exact h.setPc_receive hpc (by split <;> trivial) (by split <;> rfl)
  | current =>
    cases hs
    refine h.setPc_receive hpc ?_ (by split <;> rfl)
    split
    · assumption
    · trivial
  | count =>
    cases hs
    refine h.setPc_receive hpc ?_ (by split <;> rfl)
    split
    · exact ⟨h.recvOk hpc, by assumption⟩
    · trivial
  | list =>
    simp only [ipcReceive] at hs
    split at hs <;> cases hs
    · rename_i hl
      exact inv_list h hpc hl
    · rename_i hl
      exact h.setPc_receive hpc ⟨h.recvOk hpc, hl⟩ rfl
  | wait => exact inv_receiveWait h hpc hs
  | first =>
    simp only [ipcReceive] at hs
    split at hs <;> cases hs
    rename_i hl
    exact h.setPc_receive hpc ⟨(h.recvOk hpc).1, by rw [hl]; rfl⟩ rfl
  | copy x =>
    cases hs
    obtain ⟨hserves, hx⟩ : RecvOk s t e (.copy x) := h.recvOk hpc
    exact h.setPc_receive hpc ⟨hserves, hx, rfl⟩ rfl
  | inc =>
    cases hs
    exact inv_afterInc h hpc

end Receive

/-! ## `__ipc_reply` -/

section Reply

variable {rest : List Addr} {o : Option TaskId}

/-- The state after the `list_del` of a reply. -/
def afterDel (s : State) (t : TaskId) (e : Endpoint) (m : Message) (x : Addr)
    (rest : List Addr) : State :=
  ((s.setEp e fun i => { i with epList := rest }).log (.dequeued e x m)).setPc t
    (.reply e m (.type x))

theorem afterDel_tsk (e' : Endpoint) : ((afterDel s t e m x rest).ep e').tsk = (s.ep e').tsk := by
  by_cases hee : e' = e
  · subst hee
    simp [afterDel]
  · simp [afterDel, hee]

variable (h : Inv s G)
include h

theorem ledger_afterDel (hpc : s.pc t = .reply e m .del) (hl : (s.ep e).epList = x :: rest) :
    LedgerOk (afterDel s t e m x rest) e := by
  obtain ⟨ht, hn⟩ : Serves s t e 1 := h.replyOk hpc
  obtain ⟨hnext, hcase⟩ := (h.ledger e).answering hn
  have hpost : ¬ s.PostDel e := by
    rw [postDel_server ht, hpc]
    exact nofun
  have hlen := (hcase.resolve_right fun hc => hpost hc.2).1.1
  have hr : received e (afterDel s t e m x rest).trace = received e s.trace := by
    simp [afterDel, received_log, Event.receiveAt]
  have hd : dequeued e (afterDel s t e m x rest).trace = dequeued e s.trace ++ [x] := by
    simp [afterDel, dequeued_log, Event.dequeueAt]
  have hc : calls e (afterDel s t e m x rest).trace = calls e s.trace := by
    simp [afterDel, calls_log, Event.callAt]
  have hall : AllDequeued (afterDel s t e m x rest) e := by
    rw [AllDequeued, hr, hd, hlen, length_append, length_singleton]
  refine ⟨?_, by rw [hc]; exact (h.ledger e).alternates, .inr ⟨?_, by rw [hc]; exact hnext,
    .inr ⟨hall, ?_⟩⟩⟩
  · have hex := (h.ledger e).exact_
    have ha : appended e (afterDel s t e m x rest).trace = appended e s.trace := by
      simp [afterDel, appended_log, Event.appendAt]
    unfold AllDequeued at hall
    rw [ha, hex, hall, hr, hlen]
    simp [State.queue, hl, afterDel]
  · simpa [afterDel] using hn
  · rw [postDel_server ((afterDel_tsk e).trans ht)]
    simp [afterDel, Pc.postDel]

theorem inv_afterDel (hpc : s.pc t = .reply e m .del) (hl : (s.ep e).epList = x :: rest) :
    ∃ G', Inv (afterDel s t e m x rest) G' := by
  obtain ⟨ht, hn⟩ : Serves s t e 1 := h.replyOk hpc
  obtain ⟨o, hx⟩ := h.queued e x (by simp [hl])
  have hnd := h.nodup e
  rw [hl, nodup_cons] at hnd
  have hxOk := h.nodeOk x
  rw [hx] at hxOk
  have hframe : StepFrame s (s.setEp e fun i => { i with epList := rest }) {x} {e} :=
    .setEp (.refl s) (Set.mem_singleton e) rfl
  refine ⟨update G x (.inHand e t o), Step.inv h
    { frame := hframe.log (by simp), status := fun _ hy => update_of_ne hy _ _
      node := ?_, ep := ?_
      pc :=
        { atPc := hpc, pcOk := ?_, window := fun _ _ hw => (nomatch hw)
          postDel := ?_, busy := .inr (.inl nofun) } }⟩
  case refine_1 =>
    rintro y rfl
    rw [update_self]
    refine
      { mine := hx ▸ mine_queued t e o, held := ?_, alloc := ?_, live := ?_, nodeOk := hxOk.2 }
    · intro e' o' hq
      exact (NodeSt.queued.inj (hq.symm.trans hx)).1
    · simpa [hx] using h.alloc y
    · simpa [life_append, lifeStep] using h.live y (by simp [hx])
  case refine_2 =>
    rintro e' rfl
    constructor
    case keeps => exact fun u hu htsk => absurd (Option.some.inj (htsk.symm.trans ht)) hu
    case mem =>
      intro y hy hyx
      rw [hl] at hy
      simpa [show y ≠ x from hyx] using hy
    case nodup => simpa using hnd.2
    case queued =>
      intro y hy
      replace hy : y ∈ rest := by simpa using hy
      have hyx : y ≠ x := fun hyx => hnd.1 (hyx ▸ hy)
      rw [update_of_ne hyx]
      exact h.queued e' y (by simp [hl, hy])
    case empty =>
      intro hw
      have hnil := h.empty e' (by simpa using hw)
      cases hl.symm.trans hnil
    case ledger => exact ledger_afterDel h hpc hl
  case refine_3 =>
    simpa [PcOk, ReplyOk, Serves, life_append, lifeStep] using ⟨ht, hn⟩
  case refine_4 =>
    intro e' he'
    simp [Pc.postDel, Ne.symm he']

variable {p : ReplyPc}

theorem inv_replyFree (hpc : s.pc t = .reply e m (.free x)) :
    ∃ G', Inv ((s.setAllocated x false).setPc t (.reply e m (.dec x))) G' := by
  obtain ⟨hserves, -, hx⟩ : ReplyOk s G t e m (.free x) := h.replyOk hpc
  exact ⟨update G x .free, NodeStep.inv h (.setAllocated (.refl s) (Set.mem_singleton x) false)
    { mine := hx ▸ mine_inHand_none t e _, held := by simp [hx], alloc := by simp
      live := absurd rfl, nodeOk := trivial }
    (.of hpc hserves rfl rfl (.inr nofun))⟩

theorem inv_finish (hpc : s.pc t = .reply e m (.finish x)) :
    ∃ G', Inv ((s.setNode x fun n => { n with isFinish := true }).setPc t
      (.reply e m (.copy x))) G' := by
  obtain ⟨hserves, hm, o, hx⟩ : ReplyOk s G t e m (.finish x) := h.replyOk hpc
  refine ⟨update G x (.finishing e t o), NodeStep.inv h
    (.setNode (.refl s) (Set.mem_singleton x) _)
    { mine := hx ▸ mine_inHand_some t o e, held := by simp [hx], alloc := ?_
      live := fun _ => h.live x (by rw [hx]; exact nofun)
      nodeOk := ⟨by simp, hserves.1, by simp [Pc.window]⟩ }
    (.of hpc ⟨hserves, hm, o, by simp⟩ rfl rfl (.inr nofun))⟩
  simpa [hx] using h.alloc x

theorem inv_replyCopy (hpc : s.pc t = .reply e m (.copy x)) :
    ∃ G', Inv ((s.setNode x fun n => { n with m := m }).setPc t (.reply e m (.wake x))) G' := by
  obtain ⟨hserves, hm, o, hx⟩ : ReplyOk s G t e m (.copy x) := h.replyOk hpc
  have hn := h.nodeOk x
  rw [hx] at hn
  refine ⟨update G x (.finishing e t o), NodeStep.inv h
    (.setNode (.refl s) (Set.mem_singleton x) _)
    { mine := hx ▸ mine_finishing t o e, held := by simp [hx], alloc := ?_
      live := fun _ => h.live x (by rw [hx]; exact nofun)
      nodeOk := ⟨by simpa using hn.1, hserves.1, by simp [Pc.window]⟩ }
    { atPc := hpc, pcOk := ⟨hserves, hm, by simp, o, by simp⟩, window := fun _ _ hw => hw
      postDel := fun _ _ => Iff.rfl, busy := .inr (.inl nofun) }⟩
  simpa [hx] using h.alloc x

theorem inv_replyWake (hpc : s.pc t = .reply e m (.wake x)) :
    ∃ G', Inv ((wakeUp s (.node x)).setPc t (.reply e m (.dec x))) G' := by
  have hcore := SameCore.wakeUp s (.node x)
  generalize wakeUp s (.node x) = s₁ at hcore
  have h1 := h.sameCore hcore
  have hpc1 : s₁.pc t = .reply e m (.wake x) := by rw [hcore.pc, hpc]
  obtain ⟨hserves, hm, hnode, o, hx⟩ : ReplyOk s₁ G t e m (.wake x) := h1.replyOk hpc1
  have hn := h1.nodeOk x
  rw [hx] at hn
  refine ⟨update G x (.done o), NodeStep.inv h1 (.refl s₁)
    { mine := hx ▸ mine_finishing_done t o e, held := by simp [hx], alloc := ?_
      live := fun _ => h1.live x (by rw [hx]; exact nofun)
      nodeOk := ⟨hn.1, hm.trans (congrArg some hnode.symm)⟩ }
    { atPc := hpc1, pcOk := hserves
      window := fun y hy hw => absurd (Option.some.inj hw).symm hy
      postDel := fun _ _ => Iff.rfl, busy := .inr (.inl nofun) }⟩
  simpa [hx] using h1.alloc x

def afterDec (s : State) (t : TaskId) (e : Endpoint) (x : Addr) : State :=
  ((s.setEp e fun i => { i with ipcReqCount := i.ipcReqCount - 1 }).log (.replied e x)).setPc t
    .idle

theorem ledger_afterDec (hpc : s.pc t = .reply e m (.dec x)) : LedgerOk (afterDec s t e x) e := by
  obtain ⟨ht, hn⟩ : Serves s t e 1 := h.replyOk hpc
  obtain ⟨hnext, hcase⟩ := (h.ledger e).answering hn
  have hpost : s.PostDel e := by
    rw [postDel_server ht, hpc]
    rfl
  have hall : AllDequeued s e := (hcase.resolve_left fun hc => hc.2 hpost).1
  have ha : appended e (afterDec s t e x).trace = appended e s.trace := by
    simp [afterDec, appended_log, Event.appendAt]
  have hr : received e (afterDec s t e x).trace = received e s.trace := by
    simp [afterDec, received_log, Event.receiveAt]
  have hd : dequeued e (afterDec s t e x).trace = dequeued e s.trace := by
    simp [afterDec, dequeued_log, Event.dequeueAt]
  have hc : calls e (afterDec s t e x).trace = calls e s.trace ++ [false] := by
    simp [afterDec, calls_log, Event.callAt]
  have hq : (afterDec s t e x).queue e = s.queue e := by
    simp [afterDec, State.queue]
  refine ⟨?_, ?_, .inl ⟨?_, ?_, ?_⟩⟩
  · rw [ha, hr, hd, hq]
    exact (h.ledger e).exact_
  · rw [hc]
    exact alternates_append (h.ledger e).alternates hnext.symm
  · simp [afterDec, hn]
  · rw [hc, nextCall_append, hnext]
    rfl
  · rw [AllDequeued, hr, hd]
    exact hall

theorem inv_afterDec (hpc : s.pc t = .reply e m (.dec x)) : Inv (afterDec s t e x) G := by
  obtain ⟨ht, -⟩ : Serves s t e 1 := h.replyOk hpc
  exact EpStep.inv h (.log (.setEp (.refl s) (Set.mem_singleton e) rfl) (by simp)) ht (by simp)
    (fun hw => h.empty e (by simpa using hw)) (ledger_afterDec h hpc)
    { atPc := hpc, pcOk := trivial, window := fun _ _ hw => (nomatch hw)
      postDel := fun e' he' => by simp [Pc.postDel, Ne.symm he'], busy := .inl rfl }

theorem inv_ipcReply (hpc : s.pc t = .reply e m p) (hs : ipcReply s t e m p = some s') :
    ∃ G', Inv s' G' := by
  cases p with
  | tsk =>
    cases hs
    exact ⟨G, h.setPc_of hpc nofun (by split <;> trivial) rfl (by split <;> rfl)⟩
  | current =>
    cases hs
    refine ⟨G, h.setPc_of hpc nofun ?_ rfl (by split <;> rfl)⟩
    split
    · assumption
    · trivial
  | count =>
    cases hs
    refine ⟨G, h.setPc_of hpc nofun ?_ rfl (by split <;> rfl)⟩
    split
    · trivial
    · rename_i hne
      refine ⟨h.replyOk hpc, ?_⟩
      rcases (h.ledger e).count with hc | hc
      · exact absurd hc.1 hne
      · exact hc.1
  | del =>
    simp only [ipcReply] at hs
    split at hs <;> cases hs
    rename_i hl
    exact inv_afterDel h hpc hl
  | type x =>
    cases hs
    obtain ⟨hserves, hm, o, hx⟩ : ReplyOk s G t e m (.type x) := h.replyOk hpc
    have hn := h.nodeOk x
    rw [hx] at hn
    refine ⟨G, h.setPc_of hpc nofun ?_ rfl (by split <;> rfl)⟩
    split
    · rename_i hnot
      exact ⟨hserves, hm, by rw [hx, hn.2.2 hnot]⟩
    · rename_i hnot
      obtain ⟨u, rfl⟩ := Option.ne_none_iff_exists'.1 fun ho => hnot (hn.2.1 ho)
      exact ⟨hserves, hm, u, hx⟩
  | free =>
    cases hs
    exact inv_replyFree h hpc
  | finish =>
    cases hs
    exact inv_finish h hpc
  | copy =>
    cases hs
    exact inv_replyCopy h hpc
  | wake =>
    cases hs
    exact inv_replyWake h hpc
  | dec =>
    cases hs
    exact ⟨G, inv_afterDec h hpc⟩

end Reply

/-! ## Registration -/

section Register

/-- A store of the registration at `e`. The task it registers has not been started, so no
call relies on what changes. -/
theorem Inv.registration (h : Inv s G) {i : EndpointInfo} {r : RegPc}
    (hidle : ∀ u, (s.ep e).tsk = some u ∨ i.tsk = some u → s.pc u = .idle)
    (hreg : i.tsk = none ↔ r = .none) (hstate : i.state = .waitting → (s.ep e).state = .waitting)
    (hl : i.epList = (s.ep e).epList) (hc : i.ipcReqCount = (s.ep e).ipcReqCount) :
    Inv { s with ep := update s.ep e i, reg := update s.reg e r } G := by
  have hlist : ∀ e', (update s.ep e i e').epList = (s.ep e').epList := by
    intro e'
    by_cases hee : e' = e
    · subst hee
      simpa using hl
    · simp [hee]
  have hne : ∀ {u e'}, s.pc u ≠ .idle → (s.ep e').tsk = some u → e' ≠ e := by
    rintro u e' hu he' rfl
    exact hu (hidle u (.inl he'))
  constructor
  case alloc => exact h.alloc
  case live => exact h.live
  case pcOk =>
    intro u
    by_cases hu : s.pc u = .idle
    · simp only [hu]
      trivial
    refine Keeps.pcOk ?_ (h.pcOk u)
    exact
      { building := fun _ hy => ⟨hy, rfl, rfl⟩
        waits := fun _ _ hy => hy
        done := fun _ hy => ⟨hy, rfl⟩
        inHand := fun _ _ _ hy => ⟨hy, rfl⟩
        finishing := fun _ _ _ hy => ⟨hy, rfl, rfl⟩
        tsk := fun e' he' => by simpa [hne hu he'] using he'
        count := fun e' he' => by simp [hne hu he']
        waitting := fun e' he' hw => .inl (by simpa [hne hu he'] using hw)
        running := fun e' he' hw => by simpa [hne hu he'] using hw
        head := fun e' _ y hy => ⟨by rw [hlist]; exact hy, rfl⟩ }
  case nodeOk =>
    intro y
    have hy := h.nodeOk y
    generalize G y = g at hy
    cases g with
    | queued => exact ⟨by rw [hlist]; exact hy.1, hy.2⟩
    | finishing e' u =>
      have hu : s.pc u ≠ .idle := by
        intro hu
        have hw := hy.2.2
        rw [hu] at hw
        cases hw
      exact ⟨hy.1, by simpa [hne hu hy.2.1] using hy.2.1, hy.2.2⟩
    | _ => exact hy
  case nodup =>
    intro e'
    rw [hlist]
    exact h.nodup e'
  case queued =>
    intro e'
    rw [hlist]
    exact h.queued e'
  case empty =>
    intro e' hw
    rw [hlist]
    refine h.empty e' ?_
    by_cases hee : e' = e
    · subst hee
      exact hstate (by simpa using hw)
    · simpa [hee] using hw
  case reg =>
    intro e'
    by_cases hee : e' = e
    · subst hee
      simpa using hreg
    · simpa [hee] using h.reg e'
  case started =>
    intro e' u hu
    by_cases hee : e' = e
    · subst hee
      exact .inr (hidle u (.inr (by simpa using hu)))
    · simpa [hee] using h.started e' u (by simpa [hee] using hu)
  case ledger =>
    intro e'
    refine (h.ledger e').frame .rfl (hlist e') (fun _ _ => rfl) ?_ ?_
    · by_cases hee : e' = e
      · subst hee
        simpa using hc
      · simp [hee]
    · by_cases hee : e' = e
      · subst hee
        simp only [State.PostDel, update_self]
        constructor
        · rintro ⟨u, hu, hd⟩
          rw [hidle u (.inr hu)] at hd
          cases hd
        · rintro ⟨u, hu, hd⟩
          rw [hidle u (.inl hu)] at hd
          cases hd
      · simp [State.PostDel, hee]

theorem inv_ipcRegister (h : Inv s G) (hs : ipcRegister s e t = some s') : Inv s' G := by
  simp only [ipcRegister] at hs
  split at hs <;> cases hs
  rename_i hreg
  refine h.registration ?_ (by simp) id rfl rfl
  rintro u (hu | hu)
  · cases hreg.1.symm.trans hu
  · cases hu
    exact hreg.2

theorem Inv.idle_of_reg (h : Inv s G) (hr : s.reg e ≠ .done) {u : TaskId}
    (hu : (s.ep e).tsk = some u) : s.pc u = .idle :=
  (h.started e u hu).resolve_left hr

theorem Inv.tsk_ne_none (h : Inv s G) (hr : s.reg e ≠ .none) : (s.ep e).tsk ≠ none :=
  fun htsk => hr ((h.reg e).1 htsk)

theorem inv_ipcRegisterNext (h : Inv s G) (hs : ipcRegisterNext s e (s.reg e) = some s') :
    Inv s' G := by
  cases hr : s.reg e <;> rw [hr] at hs
  case none => cases hs
  case done => cases hs
  case setState =>
    cases hs
    refine h.registration ?_ ?_ nofun rfl rfl
    · rintro u (hu | hu) <;> exact h.idle_of_reg (by rw [hr]; exact nofun) hu
    · simpa using h.tsk_ne_none (by rw [hr]; exact nofun)
  case wake =>
    cases hs
    have hcore := SameCore.wakeUp s (.ep e)
    generalize wakeUp s (.ep e) = s₁ at hcore
    have h1 := h.sameCore hcore
    rw [← hcore.reg] at hr
    have hend : s₁.setReg e .done =
        { s₁ with ep := update s₁.ep e (s₁.ep e), reg := update s₁.reg e .done } := by
      rw [update_eq_self]
      rfl
    rw [hend]
    refine h1.registration ?_ ?_ id rfl rfl
    · rintro u (hu | hu) <;> exact h1.idle_of_reg (by rw [hr]; exact nofun) hu
    · simpa using h1.tsk_ne_none (by rw [hr]; exact nofun)

end Register

end MinixRt.Ipc
