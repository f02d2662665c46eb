import MinixRt.Ipc.Invariant

/-!
# The ownership invariant is preserved

A statement writes to at most one node and one endpoint, and `Step` says what is asked of
those it writes to: the rest of the state is framed, so the other tasks can still rely on
what they relied on, and `Step.inv` gives the invariant. Every statement of the three
calls is an instance.
-/

namespace MinixRt.Ipc

open List Function State

variable {s s' : State} {G : Addr → NodeSt} {t : TaskId} {e : Endpoint} {m : Message}
  {x : Addr}

/-! ## What a statement leaves alone -/

/-- The states differ in the nodes `N`, the endpoints `E`, and the events and wait queues
of the trace and the tasks. -/
structure StepFrame (s s' : State) (N : Set Addr) (E : Set Endpoint) : Prop where
  tsk : ∀ e, (s'.ep e).tsk = (s.ep e).tsk
  count : ∀ e, e ∉ E → (s'.ep e).ipcReqCount = (s.ep e).ipcReqCount
  state : ∀ e, e ∉ E → (s'.ep e).state = (s.ep e).state
  epList : ∀ e, e ∉ E → (s'.ep e).epList = (s.ep e).epList
  isFinish : ∀ y, y ∉ N → (s'.node y).isFinish = (s.node y).isFinish
  m : ∀ y, y ∉ N → (s'.node y).m = (s.node y).m
  allocated : ∀ y, y ∉ N → s'.allocated y = s.allocated y
  pc : s'.pc = s.pc
  reg : s'.reg = s.reg
  life : ∀ y, y ∉ N → life y s'.trace = life y s.trace
  events : ∀ e, e ∉ E → SameEvents e s.trace s'.trace

namespace StepFrame

variable {N : Set Addr} {E : Set Endpoint}

theorem ofSameCore (h : SameCore s s') : StepFrame s s' N E where
  tsk := h.tsk
  count e _ := h.count e
  state e _ := h.state e
  epList e _ := h.epList e
  isFinish y _ := h.isFinish y
  m y _ := h.m y
  allocated y _ := by rw [h.allocated]
  pc := h.pc
  reg := h.reg
  life y _ := by rw [h.trace]
  events e _ := h.trace ▸ .rfl

theorem refl (s : State) : StepFrame s s N E := ofSameCore (SameCore.refl s)

variable (h : StepFrame s s' N E)
include h

theorem setNode (hx : x ∈ N) (f : Node → Node) : StepFrame s (s'.setNode x f) N E := by
  have hnode : ∀ y, y ∉ N → (s'.setNode x f).node y = s'.node y := fun y hy =>
    update_of_ne (ne_of_mem_of_not_mem hx hy).symm _ _
  exact { h with
    isFinish := fun y hy => by rw [hnode y hy, h.isFinish y hy]
    m := fun y hy => by rw [hnode y hy, h.m y hy] }

theorem setAllocated (hx : x ∈ N) (b : Bool) : StepFrame s (s'.setAllocated x b) N E :=
  { h with
    allocated := fun y hy =>
      (update_of_ne (ne_of_mem_of_not_mem hx hy).symm _ _).trans (h.allocated y hy) }

theorem setEp (he : e ∈ E) {f : EndpointInfo → EndpointInfo}
    (hf : (f (s'.ep e)).tsk = (s'.ep e).tsk) : StepFrame s (s'.setEp e f) N E := by
  have hep : ∀ e', e' ∉ E → (s'.setEp e f).ep e' = s'.ep e' := fun e' he' =>
    update_of_ne (ne_of_mem_of_not_mem he he').symm _ _
  refine { h with
    tsk := fun e' => ?_
    count := fun e' he' => by rw [hep e' he', h.count e' he']
    state := fun e' he' => by rw [hep e' he', h.state e' he']
    epList := fun e' he' => by rw [hep e' he', h.epList e' he'] }
  rw [← h.tsk e']
  by_cases hee : e' = e
  · subst hee
    simpa using hf
  · simp [hee]

theorem log {ev : Event} (hev : (∀ y ∈ ev.addr, y ∈ N) ∧ ∀ e ∈ ev.endpoint, e ∈ E) :
    StepFrame s (s'.log ev) N E :=
  { h with
    life := fun y hy => (life_log_of_ne _ fun hx => hy (hev.1 y hx)).trans (h.life y hy)
    events := fun e' he' => (h.events e' he').log fun he => he' (hev.2 e' he) }

end StepFrame

/-! ## What a statement has to show -/

/-- The node with status `g` belongs to task `t`, and no other task loses it when the
status becomes `g'`. -/
structure Mine (t : TaskId) (g g' : NodeSt) : Prop where
  building : ∀ u, u ≠ t → g ≠ .building u
  waits : ∀ u, u ≠ t → ∀ e, SenderWaits g e u → SenderWaits g' e u
  done : ∀ u, u ≠ t → g ≠ .done u
  inHand : ∀ u, u ≠ t → ∀ e o, g ≠ .inHand e u o
  finishing : ∀ u, u ≠ t → ∀ e o, g ≠ .finishing e u o

section Mine

variable (t o : TaskId) (e : Endpoint) (g : NodeSt)

theorem mine_free : Mine t .free g := by
  constructor <;> simp [SenderWaits]

theorem mine_building : Mine t (.building t) g := by
  constructor <;> simp [SenderWaits, eq_comm]

theorem mine_queued (o : Option TaskId) : Mine t (.queued e o) (.inHand e t o) := by
  constructor <;> simp +contextual [SenderWaits]

theorem mine_done : Mine t (.done t) g := by
  constructor <;> simp +contextual [SenderWaits, eq_comm]

theorem mine_inHand_none : Mine t (.inHand e t none) g := by
  constructor <;> simp +contextual [SenderWaits, eq_comm]

theorem mine_inHand_some : Mine t (.inHand e t (some o)) (.finishing e t o) := by
  constructor <;> simp +contextual [SenderWaits, eq_comm]

theorem mine_finishing : Mine t (.finishing e t o) (.finishing e t o) := by
  constructor <;> simp +contextual [SenderWaits, eq_comm]

theorem mine_finishing_done : Mine t (.finishing e t o) (.done o) := by
  constructor <;> simp +contextual [SenderWaits, eq_comm]

end Mine

/-- Node `y` is written and its status becomes `g`. A queued node is taken off its list. -/
structure NodeStep (s s' : State) (G : Addr → NodeSt) (t : TaskId) (E : Set Endpoint)
    (y : Addr) (g : NodeSt) : Prop where
  mine : Mine t (G y) g
  held : ∀ e o, G y = .queued e o → e ∈ E
  alloc : s'.allocated y = false ↔ g = .free
  live : g ≠ .free → (life y s'.trace).freed = false
  nodeOk : NodeOk s' y g

/-- What the server of an endpoint relies on while others write to it. -/
structure EpKeeps (N : Set Addr) (i i' : EndpointInfo) : Prop where
  count : i'.ipcReqCount = i.ipcReqCount
  waitting : i.state = .waitting → i'.state = .waitting ∨ i'.state = .running ∧ i'.epList ≠ []
  running : i.state = .running → i'.state = .running
  head : ∀ y, i.epList.head? = some y → i'.epList.head? = some y ∧ y ∉ N

/-- Endpoint `e` is written. -/
structure EpStep (s s' : State) (G' : Addr → NodeSt) (t : TaskId) (N : Set Addr)
    (e : Endpoint) : Prop where
  keeps : ∀ u, u ≠ t → (s.ep e).tsk = some u → EpKeeps N (s.ep e) (s'.ep e)
  mem : ∀ y ∈ (s.ep e).epList, y ∉ N → y ∈ (s'.ep e).epList
  nodup : (s'.ep e).epList.Nodup
  queued : ∀ y ∈ (s'.ep e).epList, ∃ o, G' y = .queued e o
  empty : (s'.ep e).state = .waitting → (s'.ep e).epList = []
  ledger : LedgerOk s' e

/-- Task `t` goes from `p` to `p'`. -/
structure PcStep (s s' : State) (G' : Addr → NodeSt) (t : TaskId) (p p' : Pc) (N : Set Addr)
    (E : Set Endpoint) : Prop where
  atPc : s.pc t = p
  pcOk : PcOk s' G' t p'
  window : ∀ y, y ∉ N → p.window = some y → p'.window = some y
  postDel : ∀ e, e ∉ E → (p'.postDel = some e ↔ p.postDel = some e)
  busy : p' = .idle ∨ p ≠ .idle ∨ s.mayRun t = true

theorem PcStep.of {s s' : State} {G' : Addr → NodeSt} {t : TaskId} {p p' : Pc} {N : Set Addr}
    {E : Set Endpoint} (hpc : s.pc t = p) (hok : PcOk s' G' t p') (hwin : p.window = none)
    (hdel : p'.postDel = p.postDel) (hbusy : p' = .idle ∨ p ≠ .idle) :
    PcStep s s' G' t p p' N E where
  atPc := hpc
  pcOk := hok
  window := by simp [hwin]
  postDel _ _ := by rw [hdel]
  busy := hbusy.imp_right .inl

/-- A statement of task `t` at `p` that writes to the nodes `N` and the endpoints `E`. -/
structure Step (s s₁ : State) (G G' : Addr → NodeSt) (t : TaskId) (p p' : Pc) (N : Set Addr)
    (E : Set Endpoint) : Prop where
  frame : StepFrame s s₁ N E
  status : ∀ y, y ∉ N → G' y = G y
  node : ∀ y ∈ N, NodeStep s (s₁.setPc t p') G t E y (G' y)
  ep : ∀ e ∈ E, EpStep s (s₁.setPc t p') G' t N e
  pc : PcStep s (s₁.setPc t p') G' t p p' N E

variable (h : Inv s G)
include h

section Step

variable {s₁ : State} {G' : Addr → NodeSt} {p p' : Pc} {N : Set Addr} {E : Set Endpoint}

section

variable (hs : Step s s₁ G G' t p p' N E)
include hs

theorem Step.not_mem (he : e ∉ E) {y : Addr} (hy : y ∈ (s.ep e).epList) : y ∉ N := by
  intro hN
  obtain ⟨o, ho⟩ := h.queued e y hy
  exact he ((hs.node y hN).held e o ho)

variable {u : TaskId}

theorem Step.epKeeps (hu : u ≠ t) (htsk : (s.ep e).tsk = some u) :
    EpKeeps N (s.ep e) (s₁.ep e) := by
  by_cases he : e ∈ E
  · exact (hs.ep e he).keeps u hu htsk
  · constructor
    · exact hs.frame.count e he
    · exact fun hw => .inl ((hs.frame.state e he).trans hw)
    · exact fun hr => (hs.frame.state e he).trans hr
    · intro y hy
      rw [hs.frame.epList e he]
      exact ⟨hy, hs.not_mem h he (mem_of_mem_head? hy)⟩

theorem Step.keeps (hu : u ≠ t) : Keeps s G (s₁.setPc t p') G' u where
  building y hy := by
    have hN : y ∉ N := fun hN => (hs.node y hN).mine.building u hu hy
    exact ⟨(hs.status y hN).trans hy, hs.frame.m y hN, hs.frame.isFinish y hN⟩
  waits y e hy := by
    by_cases hN : y ∈ N
    · exact (hs.node y hN).mine.waits u hu e hy
    · rwa [hs.status y hN]
  done y hy := by
    have hN : y ∉ N := fun hN => (hs.node y hN).mine.done u hu hy
    exact ⟨(hs.status y hN).trans hy, hs.frame.life y hN⟩
  inHand y e o hy := by
    have hN : y ∉ N := fun hN => (hs.node y hN).mine.inHand u hu e o hy
    exact ⟨(hs.status y hN).trans hy, hs.frame.life y hN⟩
  finishing y e o hy := by
    have hN : y ∉ N := fun hN => (hs.node y hN).mine.finishing u hu e o hy
    exact ⟨(hs.status y hN).trans hy, hs.frame.life y hN, hs.frame.m y hN⟩
  tsk e he := (hs.frame.tsk e).trans he
  count e he := (hs.epKeeps h hu he).count
  waitting e he := (hs.epKeeps h hu he).waitting
  running e he := (hs.epKeeps h hu he).running
  head e he y hy := by
    obtain ⟨hy', hN⟩ := (hs.epKeeps h hu he).head y hy
    exact ⟨hy', hs.frame.m y hN⟩

theorem Step.nodeOk (y : Addr) : NodeOk (s₁.setPc t p') y (G' y) := by
  by_cases hN : y ∈ N
  · exact (hs.node y hN).nodeOk
  rw [hs.status y hN]
  have hfin := hs.frame.isFinish y hN
  have hm : ((s₁.setPc t p').node y).m = (s.node y).m := hs.frame.m y hN
  have hy := h.nodeOk y
  generalize G y = g at hy
  cases g with
  | free | building => trivial
  | queued e =>
    refine ⟨?_, hfin.trans hy.2.1, by rw [hm]; exact hy.2.2⟩
    by_cases he : e ∈ E
    · exact (hs.ep e he).mem y hy.1 hN
    · rw [State.setPc, hs.frame.epList e he]
      exact hy.1
  | inHand => exact ⟨hfin.trans hy.1, by rw [hm]; exact hy.2⟩
  | finishing e u =>
    refine ⟨hfin.trans hy.1, (hs.frame.tsk e).trans hy.2.1, ?_⟩
    by_cases hu : u = t
    · subst hu
      simpa using hs.pc.window y hN (hs.pc.atPc ▸ hy.2.2)
    · simpa [hu, hs.frame.pc] using hy.2.2
  | done => exact ⟨hfin.trans hy.1, by rw [hm, State.setPc, hs.frame.life y hN]; exact hy.2⟩

theorem Step.started (hu : (s.ep e).tsk = some u) :
    s.reg e = .done ∨ (s₁.setPc t p').pc u = .idle := by
  rcases h.started e u hu with hr | hr
  · exact .inl hr
  by_cases hut : u = t
  · subst hut
    rcases hs.pc.busy with hp | hp | hp
    · exact .inr (by simpa using hp)
    · exact absurd (hs.pc.atPc.symm.trans hr) hp
    · left
      simp only [State.mayRun, all_eq_true, decide_eq_true_eq] at hp
      exact (hp e (by cases e <;> simp)).resolve_left (fun hne => hne hu)
  · exact .inr (by simpa [hut, hs.frame.pc] using hr)

theorem Step.inv : Inv (s₁.setPc t p') G' where
  alloc y := by
    by_cases hN : y ∈ N
    · exact (hs.node y hN).alloc
    · rw [hs.status y hN, State.setPc, hs.frame.allocated y hN]
      exact h.alloc y
  live y := by
    by_cases hN : y ∈ N
    · exact (hs.node y hN).live
    · rw [hs.status y hN, State.setPc, hs.frame.life y hN]
      exact h.live y
  pcOk u := by
    by_cases hu : u = t
    · subst hu
      simpa using hs.pc.pcOk
    · simpa [hu, hs.frame.pc] using (hs.keeps h hu).pcOk (h.pcOk u)
  nodeOk := hs.nodeOk h
  nodup e := by
    by_cases he : e ∈ E
    · exact (hs.ep e he).nodup
    · rw [State.setPc, hs.frame.epList e he]
      exact h.nodup e
  queued e := by
    by_cases he : e ∈ E
    · exact (hs.ep e he).queued
    · intro y hy
      rw [State.setPc, hs.frame.epList e he] at hy
      rw [hs.status y (hs.not_mem h he hy)]
      exact h.queued e y hy
  empty e := by
    by_cases he : e ∈ E
    · exact (hs.ep e he).empty
    · rw [State.setPc, hs.frame.state e he, hs.frame.epList e he]
      exact h.empty e
  reg e := by
    rw [State.setPc, hs.frame.tsk, hs.frame.reg]
    exact h.reg e
  started e u hu := by
    rw [State.setPc, hs.frame.reg]
    exact hs.started h ((hs.frame.tsk e).symm.trans hu)
  ledger e := by
    by_cases he : e ∈ E
    · exact (hs.ep e he).ledger
    · refine (h.ledger e).frame (hs.frame.events e he) (hs.frame.epList e he)
        (fun y hy => hs.frame.m y (hs.not_mem h he hy)) (hs.frame.count e he) ?_
      refine postDel_iff (hs.frame.tsk e) (by rw [State.setPc, hs.frame.pc]) ?_
      rw [hs.pc.atPc]
      exact hs.pc.postDel e he

end

omit h in
theorem StepFrame.keeps (h : StepFrame s s₁ ∅ ∅) (u : TaskId) : Keeps s G (s₁.setPc t p') G u where
  building y hy := ⟨hy, h.m y nofun, h.isFinish y nofun⟩
  waits _ _ hy := hy
  done y hy := ⟨hy, h.life y nofun⟩
  inHand y _ _ hy := ⟨hy, h.life y nofun⟩
  finishing y _ _ hy := ⟨hy, h.life y nofun, h.m y nofun⟩
  tsk e he := (h.tsk e).trans he
  count e _ := h.count e nofun
  waitting e _ hw := .inl ((h.state e nofun).trans hw)
  running e _ hw := (h.state e nofun).trans hw
  head e _ y hy := ⟨by rw [State.setPc, h.epList e nofun]; exact hy, h.m y nofun⟩

/-- A statement that writes to no node and no endpoint. -/
theorem Inv.silent (hframe : StepFrame s s₁ ∅ ∅) (hp : PcOk s G t p')
    (hw : (s.pc t).window = none ∨ p'.window = (s.pc t).window) (hd : p'.postDel = (s.pc t).postDel)
    (hi : p' = .idle ∨ s.pc t ≠ .idle ∨ s.mayRun t = true) : Inv (s₁.setPc t p') G := by
  refine Step.inv h
    { frame := hframe, status := fun _ _ => rfl, node := fun _ hy => hy.elim
      ep := fun _ he => he.elim
      pc := { atPc := rfl, pcOk := (hframe.keeps t).pcOk hp, window := fun y _ hy => ?_
              postDel := fun _ _ => by rw [hd], busy := hi } }
  rcases hw with hw | hw
  · cases hw.symm.trans hy
  · rw [hw, hy]

/-- A statement on node `x`, which no list holds before or after. -/
theorem NodeStep.inv {g : NodeSt} (hframe : StepFrame s s₁ {x} ∅)
    (hx : NodeStep s (s₁.setPc t p') G t ∅ x g)
    (hs : PcStep s (s₁.setPc t p') (update G x g) t p p' {x} ∅) :
    Inv (s₁.setPc t p') (update G x g) := by
  refine Step.inv h
    { frame := hframe, status := fun _ hy => update_of_ne hy _ _, node := ?_
      ep := fun _ he => he.elim, pc := hs }
  rintro _ rfl
  rwa [update_self]

/-- A statement of its server on endpoint `e`, which leaves the list alone. -/
theorem EpStep.inv (hframe : StepFrame s s₁ ∅ {e}) (ht : (s.ep e).tsk = some t)
    (hl : (s₁.ep e).epList = (s.ep e).epList)
    (hempty : (s₁.ep e).state = .waitting → (s.ep e).epList = [])
    (hledger : LedgerOk (s₁.setPc t p') e) (hs : PcStep s (s₁.setPc t p') G t p p' ∅ {e}) :
    Inv (s₁.setPc t p') G := by
  refine Step.inv h
    { frame := hframe, status := fun _ _ => rfl, node := fun _ hy => hy.elim, ep := ?_
      pc := hs }
  rintro _ rfl
  constructor
  case keeps => exact fun u hu htsk => absurd (Option.some.inj (htsk.symm.trans ht)) hu
  case ledger => exact hledger
  all_goals rw [State.setPc, hl]
  case mem => exact fun _ hy _ => hy
  case nodup => exact h.nodup _
  case queued => exact h.queued _
  case empty => exact hempty

end Step

/-! ## Silent steps -/

theorem Inv.frame (hframe : StepFrame s s' ∅ ∅) : Inv s' G := by
  have hself : s' = s'.setPc 0 (s.pc 0) := by
    rw [State.setPc, ← hframe.pc, update_eq_self]
  rw [hself]
  exact h.silent hframe (h.pcOk 0) (.inr rfl) rfl ((em _).imp_right .inl)

theorem Inv.sameCore (hc : SameCore s s') : Inv s' G :=
  h.frame (.ofSameCore hc)

theorem Inv.setPc {p : Pc} (hp : PcOk s G t p)
    (hw : (s.pc t).window = none ∨ p.window = (s.pc t).window) (hd : p.postDel = (s.pc t).postDel)
    (hi : p = .idle ∨ s.pc t ≠ .idle ∨ s.mayRun t = true) : Inv (s.setPc t p) G :=
  h.silent (.refl s) hp hw hd hi

theorem Inv.setPc_of {q p : Pc} (hpc : s.pc t = q) (hq : q ≠ .idle) (hp : PcOk s G t p)
    (hw : q.window = none) (hd : p.postDel = q.postDel) : Inv (s.setPc t p) G := by
  subst hpc
  exact h.setPc hp (.inl hw) hd (.inr (.inl hq))

variable {p : SendPc}

theorem Inv.sendOk (hpc : s.pc t = .send e m p) : SendOk s G t e m p := by
  have := h.pcOk t
  rwa [hpc] at this

theorem Inv.recvOk {p : RecvPc} (hpc : s.pc t = .receive e p) : RecvOk s t e p := by
  have := h.pcOk t
  rwa [hpc] at this

theorem Inv.replyOk {p : ReplyPc} (hpc : s.pc t = .reply e m p) : ReplyOk s G t e m p := by
  have := h.pcOk t
  rwa [hpc] at this

theorem Inv.setPc_send (hpc : s.pc t = .send e m p) {p' : Pc} (hp : PcOk s G t p')
    (hd : p'.postDel = none) : Inv (s.setPc t p') G :=
  h.setPc_of hpc nofun hp rfl hd

theorem Inv.setPc_receive {p : RecvPc} (hpc : s.pc t = .receive e p) {p' : Pc} (hp : PcOk s G t p')
    (hd : p'.postDel = none) : Inv (s.setPc t p') G :=
  h.setPc_of hpc nofun hp rfl hd

/-! ## The statements of a sender -/

section Send

theorem inv_build {q : SendPc} (hpc : s.pc t = .send e m q) (hx : G x = .building t)
    (f : Node → Node) {q' : SendPc} {m' : Message}
    (hq : SendOk ((s.setNode x f).setPc t (.send e m' q')) G t e m' q') :
    Inv ((s.setNode x f).setPc t (.send e m' q')) G := by
  have hG : update G x (.building t) = G := by
    rw [← hx, update_eq_self]
  rw [← hG]
  refine NodeStep.inv h (.setNode (.refl s) (Set.mem_singleton x) f)
    { mine := hx ▸ mine_building t _, held := by simp [hx], alloc := ?_
      live := fun _ => h.live x (by rw [hx]; exact nofun), nodeOk := trivial }
    (.of hpc (by rw [hG]; exact hq) rfl rfl (.inr nofun))
  rw [← hx]
  exact h.alloc x

theorem inv_copyIn (hpc : s.pc t = .send e m (.copyIn x))
    (hs : ipcSend s t e m (.copyIn x) = some s') : Inv s' G := by
  cases hs
  have hx : G x = .building t := h.sendOk hpc
  exact inv_build h hpc hx _ ⟨hx, by simp⟩

theorem inv_clear (hpc : s.pc t = .send e m (.clear x))
    (hs : ipcSend s t e m (.clear x) = some s') : Inv s' G := by
  cases hs
  obtain ⟨hx, hm⟩ : SendOk s G t e m (.clear x) := h.sendOk hpc
  exact inv_build h hpc hx _ ⟨hx, by simpa using hm, by simp⟩

theorem inv_initWait (hpc : s.pc t = .send e m (.initWait x))
    (hs : ipcSend s t e m (.initWait x) = some s') : Inv s' G := by
  cases hs
  obtain ⟨hx, hm, hf⟩ : SendOk s G t e m (.initWait x) := h.sendOk hpc
  exact inv_build h hpc hx _ ⟨hx, by simpa using hm, by simpa using hf⟩

theorem inv_free (hpc : s.pc t = .send e m (.free x)) (hs : ipcSend s t e m (.free x) = some s') :
    ∃ G', Inv s' G' := by
  cases hs
  obtain ⟨hx, -⟩ : SendOk s G t e m (.free x) := h.sendOk hpc
  have hframe : StepFrame s (s.setAllocated x false) {x} ∅ :=
    .setAllocated (.refl s) (Set.mem_singleton x) false
  exact ⟨update G x .free, NodeStep.inv h ((hframe.log (by simp)).log (by simp))
    { mine := hx ▸ mine_done t _, held := by simp [hx], alloc := by simp, live := absurd rfl
      nodeOk := trivial }
    (.of hpc trivial rfl rfl (.inr nofun))⟩

theorem inv_ipcSendAlloc (hpc : s.pc t = .send e m .alloc) {r : Option Addr}
    (hs : ipcSendAlloc s t e m r = some s') : ∃ G', Inv s' G' := by
  cases r with
  | none =>
    cases hs
    exact ⟨G, h.setPc_send hpc trivial rfl⟩
  | some x =>
    simp only [ipcSendAlloc] at hs
    split at hs
    · cases hs
    · rename_i hfree
      cases hs
      have hx : G x = .free := (h.alloc x).mp (by simpa using hfree)
      have hframe : StepFrame s (s.setAllocated x true) {x} ∅ :=
        .setAllocated (.refl s) (Set.mem_singleton x) true
      refine ⟨update G x (.building t), NodeStep.inv h
        ((hframe.setNode (Set.mem_singleton x) _).log (by simp))
        { mine := hx ▸ mine_free t _, held := by simp [hx], alloc := by simp
          live := fun _ => ?_, nodeOk := trivial }
        (.of hpc (by simp [PcOk, SendOk]) rfl rfl (.inr nofun))⟩
      simp [life_append, lifeStep]

omit h in
/-- The number of received nodes that are still on the list is 0 or 1, and there are that
many nodes. -/
theorem LedgerOk.pending_le (h : LedgerOk s e) :
    (received e s.trace).length - (dequeued e s.trace).length ≤ (s.queue e).length := by
  rcases h.count with ⟨-, -, hall⟩ | ⟨-, -, ⟨⟨hlen, y, rest, hl, -⟩, -⟩ | ⟨hall, -⟩⟩
  · unfold AllDequeued at hall
    omega
  · rw [hlen]
    simp [State.queue, hl]
  · unfold AllDequeued at hall
    omega

/-- The state after a sender's `list_add_tail`: the node is queued, a waiting server is
marked running. -/
def afterAppend (s : State) (t : TaskId) (e : Endpoint) (x : Addr) (p : Pc) : State :=
  (((s.setEp e fun i => { i with epList := i.epList ++ [x] }).log (.append e x (s.node x).m)).setEp
    e fun i => { i with state := if i.state = .waitting then .running else i.state }).setPc t p

omit h in
theorem postDel_afterAppend (e' : Endpoint) {p : Pc} (hp : p.postDel = (s.pc t).postDel) :
    (afterAppend s t e x p).PostDel e' ↔ s.PostDel e' := by
  refine postDel_iff ?_ rfl (by rw [hp])
  by_cases hee : e' = e
  · subst hee
    simp [afterAppend]
  · simp [afterAppend, hee]

omit h in
theorem ledger_afterAppend (h : LedgerOk s e) {p : Pc} (hp : p.postDel = (s.pc t).postDel) :
    LedgerOk (afterAppend s t e x p) e := by
  have ha : appended e (afterAppend s t e x p).trace =
      appended e s.trace ++ [(x, (s.node x).m)] := by
    simp [afterAppend, appended_log, Event.appendAt]
  have hr : received e (afterAppend s t e x p).trace = received e s.trace := by
    simp [afterAppend, received_log, Event.receiveAt]
  have hd : dequeued e (afterAppend s t e x p).trace = dequeued e s.trace := by
    simp [afterAppend, dequeued_log, Event.dequeueAt]
  have hc : calls e (afterAppend s t e x p).trace = calls e s.trace := by
    simp [afterAppend, calls_log, Event.callAt]
  have hq : (afterAppend s t e x p).queue e = s.queue e ++ [(x, (s.node x).m)] := by
    simp [afterAppend, State.queue]
  refine ⟨?_, ?_, ?_⟩
  · rw [ha, hr, hd, hq, drop_append_of_le_length h.pending_le, ← append_assoc,
      ← h.exact_]
  · rw [hc]
    exact h.alternates
  · rw [hc]
    simp only [HeadReceived, AllDequeued, hr, hd, postDel_afterAppend e hp]
    rcases h.count with ⟨h0, hn, hall⟩ | ⟨h1, hn, ⟨⟨hlen, y, rest, hl, hlast⟩, hpd⟩ | hall⟩
    · exact .inl ⟨by simpa [afterAppend] using h0, hn, hall⟩
    · refine .inr ⟨by simpa [afterAppend] using h1, hn,
        .inl ⟨⟨hlen, y, rest ++ [x], ?_, hlast⟩, hpd⟩⟩
      simp [afterAppend, hl]
    · exact .inr ⟨by simpa [afterAppend] using h1, hn, .inr hall⟩

variable {p : SendPc}

theorem inv_afterAppend (hpc : s.pc t = .send e m (.append x)) (hp : p = .wake x ∨ p = .type x) :
    ∃ G', Inv (afterAppend s t e x (.send e m p)) G' := by
  obtain ⟨hx, hm, hf⟩ : G x = .building t ∧ (s.node x).m = m ∧ (s.node x).isFinish = false :=
    h.sendOk hpc
  have hnot : ∀ e', x ∉ (s.ep e').epList := by
    intro e' hmem
    obtain ⟨o, ho⟩ := h.queued e' x hmem
    cases hx.symm.trans ho
  have hframe : StepFrame s (s.setEp e fun i => { i with epList := i.epList ++ [x] }) {x} {e} :=
    .setEp (.refl s) (Set.mem_singleton e) rfl
  refine ⟨update G x (.queued e (if m.isNotifier then none else some t)), Step.inv h
    { frame := (hframe.log (by simp)).setEp (Set.mem_singleton e) rfl
      status := fun _ hy => update_of_ne hy _ _, node := ?_, ep := ?_
      pc :=
        (.of hpc ?_ rfl rfl (.inr nofun)) }⟩
  case refine_1 =>
    rintro y rfl
    rw [update_self]
    refine
      { mine := hx ▸ mine_building t _, held := by simp [hx], alloc := ?_
        live := fun _ => ?_, nodeOk := ⟨by simp, hf, ?_⟩ }
    · simpa [hx] using h.alloc y
    · rw [State.setPc, State.setEp, State.log, life_log_of_ne _ (by simp)]
      exact h.live y (by rw [hx]; exact nofun)
    · change _ ↔ (s.node y).m.isNotifier = true
      rw [hm]
      cases m.isNotifier <;> simp
  case refine_2 =>
    rintro _ rfl
    constructor
    case keeps =>
      refine fun u _ _ => ⟨by simp, fun hw => .inr (by simp [hw]), fun hr => by simp [hr],
        fun y hy => ⟨by simp [head?_append, hy], ?_⟩⟩
      rintro rfl
      exact hnot _ (mem_of_mem_head? hy)
    case mem => exact fun y hy _ => by simp [hy]
    case nodup =>
      simpa [nodup_append] using ⟨h.nodup _, fun y hy hyx => hnot _ (hyx ▸ hy)⟩
    case queued =>
      intro y hy
      by_cases hyx : y = x
      · subst hyx
        exact ⟨_, update_self ..⟩
      · rw [update_of_ne hyx]
        exact h.queued _ y (by simpa [hyx] using hy)
    case empty =>
      intro hw
      simp only [State.setPc, State.setEp, State.log, update_self] at hw
      split at hw
      · cases hw
      · contradiction
    case ledger =>
      refine ledger_afterAppend (h.ledger _) ?_
      rw [hpc]
      rfl
  case refine_3 =>
    have hw : m.isNotifier = false → SenderWaits (update G x (.queued e
        (if m.isNotifier then none else some t)) x) e t := by
      intro hn
      simp [hn, SenderWaits]
    rcases hp with rfl | rfl <;> exact hw

theorem inv_append (hpc : s.pc t = .send e m (.append x))
    (hs : ipcSend s t e m (.append x) = some s') : ∃ G', Inv s' G' := by
  simp only [ipcSend] at hs
  split at hs <;> cases hs
  · rename_i hw
    convert inv_afterAppend h hpc (.inl rfl) using 3
    simp [afterAppend, hw]
  · rename_i hw
    convert inv_afterAppend h hpc (.inr rfl) using 3
    simp [afterAppend, hw]

theorem Inv.done_of_isFinish (hx : SenderWaits (G x) e t) (hf : (s.node x).isFinish = true)
    (hw : s.inWindow e x = false) : G x = .done t := by
  have hn := h.nodeOk x
  rcases hx with hx | ⟨u, hx⟩ | ⟨u, hx⟩ | hx
  · rw [hx] at hn
    cases hf.symm.trans hn.2.1
  · rw [hx] at hn
    cases hf.symm.trans hn.1
  · rw [hx] at hn
    simp [State.inWindow, hn.2.1, hn.2.2] at hw
  · exact hx

variable {w : WaitPc}

theorem inv_sendWait (hpc : s.pc t = .send e m (.wait x w)) (hok : noTestInWindow s (.run t) = true)
    (hs : ipcSend s t e m (.wait x w) = some s') : Inv s' G := by
  obtain ⟨⟨s₁, r⟩, hwait, rfl⟩ := Option.map_eq_some_iff.mp hs
  obtain ⟨hwaits, hdone⟩ : SenderWaits (G x) e t ∧ (w = .finish ∨ w = .unqueue → G x = .done t) :=
    h.sendOk hpc
  have hcore := SameCore.waitEvent hwait
  have hpc1 : s₁.pc t = .send e m (.wait x w) := by rw [hcore.pc, hpc]
  obtain ⟨hnone, hfin, hunq⟩ := waitEvent_next hwait
  have htest : w = .cond ∨ w = .test → (s.node x).isFinish = true → G x = .done t := by
    intro hw hf
    refine h.done_of_isFinish hwaits hf ?_
    rcases hw with rfl | rfl <;> simpa [noTestInWindow, hpc] using hok
  refine (h.sameCore hcore).setPc_send hpc1 ?_ rfl
  cases r with
  | none =>
    rcases hnone rfl with ⟨rfl, hf⟩ | rfl
    · exact htest (.inl rfl) hf
    · exact hdone (.inr rfl)
  | some =>
    refine ⟨hwaits, ?_⟩
    rintro (rfl | rfl)
    · exact htest (.inr (hfin rfl).1) (hfin rfl).2
    · exact hdone (.inl (hunq rfl))

theorem inv_sendTimeout {ret : Nat} {fired : Bool} (hpc : s.pc t = .send e m (.timeout ret fired w))
    (hs : ipcSend s t e m (.timeout ret fired w) = some s') : Inv s' G := by
  simp only [ipcSend] at hs
  split at hs
  · cases hs
  · obtain ⟨⟨s₁, r⟩, hwait, rfl⟩ := Option.map_eq_some_iff.mp hs
    have hcore := SameCore.waitEvent hwait
    refine (h.sameCore hcore).setPc_send (by rw [hcore.pc, hpc]) ?_ rfl
    cases r <;> trivial

theorem inv_ipcSend (hpc : s.pc t = .send e m p) (hok : noTestInWindow s (.run t) = true)
    (hs : ipcSend s t e m p = some s') : ∃ G', Inv s' G' := by
  cases p with
  | tsk =>
    cases hs
    refine ⟨G, h.setPc_send hpc ?_ rfl⟩
    split <;> trivial
  | timeout => exact ⟨G, inv_sendTimeout h hpc hs⟩
  | checkRet =>
    simp only [ipcSend] at hs
    split at hs <;> cases hs
    · refine ⟨G, h.silent (.log (.refl s) (by simp)) trivial ?_ ?_ (.inl rfl)⟩ <;> rw [hpc]
      · exact .inl rfl
      · rfl
    · exact ⟨G, h.setPc_send hpc trivial rfl⟩
  | alloc => cases hs
  | copyIn => exact ⟨G, inv_copyIn h hpc hs⟩
  | clear => exact ⟨G, inv_clear h hpc hs⟩
  | initWait => exact ⟨G, inv_initWait h hpc hs⟩
  | append => exact inv_append h hpc hs
  | wake =>
    cases hs
    have hcore := SameCore.wakeUp s (.ep e)
    exact ⟨G, (h.sameCore hcore).setPc_send (by rw [hcore.pc, hpc]) (h.sendOk hpc) rfl⟩
  | type x =>
    cases hs
    refine ⟨G, h.setPc_send hpc ?_ (by split <;> rfl)⟩
    split
    · trivial
    · rename_i hn
      exact ⟨h.sendOk hpc (by simpa using hn), by rintro (hw | hw) <;> cases hw⟩
  | wait => exact ⟨G, inv_sendWait h hpc hok hs⟩
  | copyOut x =>
    cases hs
    have hx : G x = .done t := h.sendOk hpc
    have hn := h.nodeOk x
    rw [hx] at hn
    exact ⟨G, h.setPc_send hpc ⟨hx, hn.2⟩ rfl⟩
  | free => exact inv_free h hpc hs

end Send

end MinixRt.Ipc
