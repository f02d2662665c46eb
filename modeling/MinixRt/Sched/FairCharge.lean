import MinixRt.Sched.FairQueue

/-!
# What the fair class charges for

`update_curr` charges the running entity with the clock time since its `exec_start`, and sets
`exec_start` to the clock. `set_next_entity` does not set it: an entity that is picked is charged
with the time since it was charged last, whether it ran or not, and a new one with the whole clock.

`Metered` adds to the run queue the clock time for which each entity has been the running one.
-/

namespace MinixRt.Sched

open Function Lib CfsRq
open Option (bind_eq_some_iff map_eq_some_iff some_inj)

namespace CfsRq

variable {q q' : CfsRq} {x c : Nat} {shape : BinaryTree Unit}

/-- What `sum_exec_runtime` is when `update_curr` runs now. -/
def due (q : CfsRq) (x : Nat) : BitVec 64 :=
  if q.curr = some x then (q.se x).sumExecRuntime + (q.clock - (q.se x).execStart)
  else (q.se x).sumExecRuntime

theorem updateCurr_sumExecRuntime (q : CfsRq) (x : Nat) :
    (q.updateCurr.se x).sumExecRuntime = q.due x := by
  unfold updateCurr due
  split
  · rename_i hc
    rw [hc, if_neg (by simp)]
  · rename_i c hc
    rw [hc]
    by_cases hx : x = c
    · subst hx
      rw [if_pos rfl]
      exact congrArg Entity.sumExecRuntime setSe_self
    · rw [if_neg fun heq => hx (some_inj.mp heq).symm]
      exact congrArg Entity.sumExecRuntime (setSe_of_ne hx)

theorem updateCurr_execStart (hc : q.curr = some c) : (q.updateCurr.se c).execStart = q.clock := by
  unfold updateCurr
  rw [hc]
  exact congrArg Entity.execStart setSe_self

theorem updateCurr_clock : q.updateCurr.clock = q.clock := by
  unfold updateCurr
  split <;> rfl

theorem due_updateCurr (q : CfsRq) (x : Nat) : q.updateCurr.due x = q.due x := by
  rw [due, quiet_updateCurr.curr, updateCurr_sumExecRuntime]
  split_ifs with hc
  · rw [updateCurr_clock, updateCurr_execStart hc, BitVec.sub_self, BitVec.add_zero]
  · rfl

/-- No time is charged. -/
structure Untimed (q q' : CfsRq) : Prop where
  clock : q'.clock = q.clock
  sum : ∀ x, (q'.se x).sumExecRuntime = (q.se x).sumExecRuntime
  start : ∀ x, (q'.se x).execStart = (q.se x).execStart

theorem Untimed.refl (q : CfsRq) : Untimed q q := ⟨rfl, fun _ => rfl, fun _ => rfl⟩

theorem Untimed.trans {q1 q2 q3 : CfsRq} (h : Untimed q1 q2) (h' : Untimed q2 q3) :
    Untimed q1 q3 where
  clock := h'.clock.trans h.clock
  sum x := (h'.sum x).trans (h.sum x)
  start x := (h'.start x).trans (h.start x)

theorem Untimed.due (h : Untimed q q') (hc : q'.curr = q.curr) (x : Nat) : q'.due x = q.due x := by
  unfold CfsRq.due
  rw [hc, h.clock, h.sum, h.start]

theorem untimed_setSe {f : Entity → Entity}
    (hf : ∀ se, (f se).sumExecRuntime = se.sumExecRuntime ∧ (f se).execStart = se.execStart) :
    Untimed q (q.setSe x f) := by
  refine ⟨rfl, fun y => ?_, fun y => ?_⟩
  · by_cases hy : y = x
    · rw [hy, setSe_self, (hf _).1]
    · rw [setSe_of_ne hy]
  · by_cases hy : y = x
    · rw [hy, setSe_self, (hf _).2]
    · rw [setSe_of_ne hy]

theorem untimed_setVruntime {v : BitVec 64} : Untimed q (q.setVruntime x v) :=
  untimed_setSe fun _ => ⟨rfl, rfl⟩

theorem untimed_accountEnqueue : Untimed q (q.accountEnqueue x) := by
  have h : Untimed q (q.setSe x ({ · with onRq := true })) := untimed_setSe fun _ => ⟨rfl, rfl⟩
  exact ⟨h.clock, h.sum, h.start⟩

theorem untimed_accountDequeue : Untimed q (q.accountDequeue x) := by
  have h : Untimed q (q.setSe x ({ · with onRq := false })) := untimed_setSe fun _ => ⟨rfl, rfl⟩
  exact ⟨h.clock, h.sum, h.start⟩

theorem untimed_enqueueTree (he : q.enqueueTree x shape = some q') : Untimed q q' := by
  obtain ⟨_, -, he⟩ := bind_eq_some_iff.mp he
  obtain ⟨_, -, rfl⟩ := map_eq_some_iff.mp he
  exact ⟨rfl, fun _ => rfl, fun _ => rfl⟩

theorem untimed_dequeueTree (hd : q.dequeueTree x shape = some q') : Untimed q q' := by
  obtain ⟨_, -, rfl⟩ := map_eq_some_iff.mp hd
  exact ⟨rfl, fun _ => rfl, fun _ => rfl⟩

theorem dequeueTree_curr (hd : q.dequeueTree x shape = some q') : q'.curr = q.curr := by
  obtain ⟨_, -, rfl⟩ := map_eq_some_iff.mp hd
  rfl

/-- The running entity has been charged up to now. -/
def Settled (q : CfsRq) : Prop := ∀ c, q.curr = some c → (q.se c).execStart = q.clock

theorem settled_updateCurr (q : CfsRq) : Settled q.updateCurr := by
  intro c hc
  rw [updateCurr_clock]
  exact updateCurr_execStart (quiet_updateCurr.curr.symm.trans hc)

theorem Settled.untimed (h : Settled q) (hu : Untimed q q') (hc : q'.curr = q.curr) :
    Settled q' := by
  intro c hcurr
  rw [hu.start, hu.clock]
  exact h c (hc.symm.trans hcurr)

/-- An operation that begins with `update_curr` and charges nothing else. -/
structure Charges (q q' : CfsRq) : Prop where
  curr : q'.curr = q.curr
  untimed : Untimed q.updateCurr q'

theorem Charges.due (h : Charges q q') (x : Nat) : q'.due x = q.due x := by
  rw [h.untimed.due (h.curr.trans quiet_updateCurr.curr.symm), due_updateCurr]

theorem Charges.settled (h : Charges q q') : Settled q' :=
  (settled_updateCurr q).untimed h.untimed (h.curr.trans quiet_updateCurr.curr.symm)

theorem charges_updateCurr (q : CfsRq) : Charges q q.updateCurr :=
  ⟨quiet_updateCurr.curr, .refl _⟩

theorem charges_enqueueEntity {wakeup : Bool} (he : q.enqueueEntity x wakeup shape = some q') :
    Charges q q' := by
  obtain ⟨q2, hins, rfl⟩ := map_eq_some_iff.mp he
  have h1 : Charges q
      (if wakeup = true then q.updateCurr.placeEntity x false else q.updateCurr) := by
    split_ifs
    · exact ⟨(quiet_updateCurr.trans quiet_placeEntity).curr, untimed_setVruntime⟩
    · exact charges_updateCurr q
  generalize (if wakeup = true then q.updateCurr.placeEntity x false else q.updateCurr) = q1
    at h1 hins
  split_ifs at hins
  · obtain rfl := some_inj.mp hins
    exact ⟨h1.curr, h1.untimed.trans untimed_accountEnqueue⟩
  · refine ⟨((enqueueTree_retree hins).1.curr).trans h1.curr, ?_⟩
    exact (h1.untimed.trans (untimed_enqueueTree hins)).trans untimed_accountEnqueue

theorem charges_dequeueEntity (hd : q.dequeueEntity x shape = some q') : Charges q q' := by
  obtain ⟨q2, hrem, rfl⟩ := map_eq_some_iff.mp hd
  split_ifs at hrem
  · obtain rfl := some_inj.mp hrem
    exact ⟨quiet_updateCurr.curr, untimed_accountDequeue⟩
  · refine ⟨(dequeueTree_curr hrem).trans quiet_updateCurr.curr, ?_⟩
    exact (untimed_dequeueTree hrem).trans untimed_accountDequeue

theorem charges_placeNew {here : Bool} : Charges q (q.placeNew x here) := by
  refine ⟨quiet_placeNew.curr, ?_⟩
  unfold placeNew
  dsimp only
  split
  · exact untimed_setVruntime
  · split_ifs
    · exact (untimed_setVruntime.trans untimed_setVruntime).trans untimed_setVruntime
    · exact untimed_setVruntime

theorem setNextEntity_eq (hn : q.setNextEntity x shape = some q') :
    q'.curr = some x ∧ Untimed q q' := by
  obtain ⟨q2, hrem, rfl⟩ := map_eq_some_iff.mp hn
  have hrun : Untimed q2 (q2.run x) :=
    ⟨rfl, field_update Entity.sumExecRuntime rfl, field_update Entity.execStart rfl⟩
  split_ifs at hrem
  · exact ⟨rfl, (untimed_dequeueTree hrem).trans hrun⟩
  · obtain rfl := some_inj.mp hrem
    exact ⟨rfl, hrun⟩

end CfsRq

/-! ## Metered runs -/

/-- A run queue, and the clock time for which each entity has been the running one. -/
structure Metered where
  q : CfsRq
  ran : Nat → Nat

/-- The clock does not go back, and it is not updated between the dequeueing of the running task
and `put_prev_task`, which are in one section of the run-queue lock. -/
def meteredStep (m : Metered) : FairAct → Option Metered
  | .clock now =>
    if m.q.clock ≤ now ∧ (m.q.curr.all fun c => (m.q.se c).onRq) = true then
      some ⟨{ m.q with clock := now },
        fun x => if m.q.curr = some x then m.ran x + (now.toNat - m.q.clock.toNat) else m.ran x⟩
    else none
  -- `__sched_fork`
  | .arrive x se =>
    (fairStep m.q (.arrive x { se with execStart := 0, sumExecRuntime := 0 })).map
      (⟨·, update m.ran x 0⟩)
  | a => (fairStep m.q a).map (⟨·, m.ran⟩)

def meteredMachine : Machine Metered FairAct where
  init m := fairMachine.init m.q ∧ ∀ x, (m.q.se x).sumExecRuntime = 0 ∧ m.ran x = 0
  step := meteredStep

/-- An entity is picked at the clock of its `exec_start`. -/
def FairAct.picksCharged (q : CfsRq) : FairAct → Bool
  | .pickNext _ => q.nrRunning = 0 ∨ q.rbLeftmost.all fun x => (q.se x).execStart = q.clock
  | .setCurrTask x _ => (q.se x).execStart = q.clock
  | _ => true

/-- `update_curr` now makes every `sum_exec_runtime` right. -/
def Metered.Exact (m : Metered) : Prop := ∀ x, m.q.due x = BitVec.ofNat 64 (m.ran x)

structure Metered.Good (m : Metered) : Prop where
  exact : m.Exact
  settled : ∀ c, m.q.curr = some c → (m.q.se c).onRq = false → (m.q.se c).execStart = m.q.clock

namespace CfsRq

variable {q q' : CfsRq} {x c : Nat} {shape : BinaryTree Unit}

theorem updateCurr_vruntime_curr (hc : q.curr = some c) : (q.updateCurr.se c).vruntime =
      (q.se c).vruntime + (deltaExecWeighted (q.clock - (q.se c).execStart) (q.se c)).1 := by
  unfold updateCurr
  rw [hc]
  exact congrArg Entity.vruntime setSe_self

theorem due_of_curr (hc : q.curr = some c) :
    q.due c = (q.se c).sumExecRuntime + (q.clock - (q.se c).execStart) := if_pos hc

theorem due_of_ne (hc : q.curr ≠ some x) : q.due x = (q.se x).sumExecRuntime := if_neg hc

/-- The entity that starts to run is due what it was due before just when its `exec_start` is the
clock. -/
theorem due_setNextEntity (hc : q.curr = none) (hn : q.setNextEntity x shape = some q') :
    (q'.due x = q.due x ↔ (q.se x).execStart = q.clock) ∧ ∀ y, y ≠ x → q'.due y = q.due y := by
  obtain ⟨hcurr, hu⟩ := setNextEntity_eq hn
  have hold : ∀ y, q.due y = (q.se y).sumExecRuntime := by
    intro y
    apply due_of_ne
    simp [hc]
  constructor
  · rw [due_of_curr hcurr, hold, hu.sum, hu.clock, hu.start]
    constructor
    · intro h
      generalize (q.se x).sumExecRuntime = sum at h
      bv_omega
    · intro h
      rw [h, BitVec.sub_self, BitVec.add_zero]
  · intro y hy
    rw [hold, due_of_ne (by simpa [hcurr] using hy.symm), hu.sum]

theorem due_putPrevEntity (hc : q.curr = some c)
    (hset : (q.se c).onRq = false → (q.se c).execStart = q.clock)
    (hp : q.putPrevEntity c shape = some q') : q'.curr = none ∧ ∀ x, q'.due x = q.due x := by
  obtain ⟨q2, hins, rfl⟩ := map_eq_some_iff.mp hp
  have hdue : ∀ x, CfsRq.due { q2 with curr := none } x = (q2.se x).sumExecRuntime :=
    fun x => due_of_ne (Option.some_ne_none x).symm
  refine ⟨rfl, fun x => ?_⟩
  rw [hdue]
  split_ifs at hins with hon
  · rw [(untimed_enqueueTree hins).sum, updateCurr_sumExecRuntime]
  · obtain rfl := some_inj.mp hins
    by_cases hx : x = c
    · subst hx
      rw [due_of_curr hc, hset (by simpa using hon), BitVec.sub_self, BitVec.add_zero]
    · exact (due_of_ne (by simpa [hc] using Ne.symm hx)).symm

end CfsRq

namespace Metered

variable {m m' : Metered} {a : FairAct} {q' : CfsRq} {x : Nat}

theorem Good.charges (h : m.Good) (hq : Charges m.q q') : Good ⟨q', m.ran⟩ where
  exact x := (hq.due x).trans (h.exact x)
  settled c hc _ := hq.settled c hc

theorem Good.untimed (h : m.Good) (hu : Untimed m.q q') (hc : q'.curr = m.q.curr)
    (hon : ∀ x, (q'.se x).onRq = (m.q.se x).onRq) : Good ⟨q', m.ran⟩ where
  exact x := (hu.due hc x).trans (h.exact x)
  settled c hcurr hoff := by
    rw [hu.start, hu.clock]
    exact h.settled c (hc.symm.trans hcurr) ((hon c).symm.trans hoff)

variable {shape : BinaryTree Unit}

theorem Good.setNextEntity (h : m.Good) (hc : m.q.curr = none)
    (hn : m.q.setNextEntity x shape = some q') (hx : (m.q.se x).execStart = m.q.clock) :
    Good ⟨q', m.ran⟩ := by
  obtain ⟨hself, hother⟩ := due_setNextEntity hc hn
  obtain ⟨hcurr, hu⟩ := setNextEntity_eq hn
  refine ⟨fun y => ?_, fun c hc' _ => ?_⟩
  · rw [← h.exact y]
    by_cases hy : y = x
    · rw [hy]
      exact hself.mpr hx
    · exact hother y hy
  · obtain rfl : x = c := some_inj.mp (hcurr.symm.trans hc')
    rw [hu.start, hu.clock]
    exact hx

theorem Good.putPrevEntity (h : m.Good) {c : Nat} (hc : m.q.curr = some c)
    (hp : m.q.putPrevEntity c shape = some q') : Good ⟨q', m.ran⟩ := by
  obtain ⟨hcurr, hdue⟩ := due_putPrevEntity hc (h.settled c hc) hp
  refine ⟨fun x => (hdue x).trans (h.exact x), fun c' hc' => ?_⟩
  exact absurd (hcurr.symm.trans hc') (Option.some_ne_none c').symm

theorem Good.yieldTask (h : m.Good) {c : Nat} {batch : Bool}
    (hy : m.q.yieldTask c batch = some q') : Good ⟨q', m.ran⟩ := by
  unfold CfsRq.yieldTask at hy
  split_ifs at hy
  · obtain rfl := some_inj.mp hy
    exact h
  · obtain rfl := some_inj.mp hy
    exact h.charges (charges_updateCurr _)
  · obtain ⟨rightmost, -, rfl⟩ := map_eq_some_iff.mp hy
    split_ifs
    · exact h
    · exact h.untimed untimed_setVruntime rfl quiet_setVruntime.onRq

theorem ofNat_toNat_sub {a b : BitVec 64} (h : a ≤ b) :
    BitVec.ofNat 64 (b.toNat - a.toNat) = b - a := by
  apply BitVec.eq_of_toNat_eq
  have hle : a.toNat ≤ b.toNat := h
  rw [BitVec.toNat_ofNat, BitVec.toNat_sub_of_le h]
  exact Nat.mod_eq_of_lt (by omega)

theorem sub_add_sub (start clock now : BitVec 64) : clock - start + (now - clock) = now - start := by
  rw [BitVec.add_comm, BitVec.sub_eq_add_neg clock, ← BitVec.add_assoc, BitVec.sub_add_cancel,
    BitVec.sub_eq_add_neg]

theorem Good.clock (h : m.Good) {now : BitVec 64} (hnow : m.q.clock ≤ now)
    (hon : (m.q.curr.all fun c => (m.q.se c).onRq) = true) : Good ⟨{ m.q with clock := now },
      fun x => if m.q.curr = some x then m.ran x + (now.toNat - m.q.clock.toNat)
        else m.ran x⟩ := by
  refine ⟨fun x => ?_, fun c hc hoff => ?_⟩
  · have hx := h.exact x
    by_cases hc : m.q.curr = some x
    · have hc' : CfsRq.curr { m.q with clock := now } = some x := hc
      rw [due_of_curr hc] at hx
      rw [due_of_curr hc']
      simp only [if_pos hc]
      rw [BitVec.ofNat_add, ofNat_toNat_sub hnow, ← hx]
      show (m.q.se x).sumExecRuntime + (now - (m.q.se x).execStart) = _
      rw [BitVec.add_assoc, sub_add_sub]
    · have hc' : CfsRq.curr { m.q with clock := now } ≠ some x := hc
      rw [due_of_ne hc] at hx
      rw [due_of_ne hc']
      simp only [if_neg hc]
      exact hx
  · rw [show m.q.curr = some c from hc, Option.all_some] at hon
    exact absurd (hon.symm.trans hoff) Bool.true_eq_false_eq_False

theorem Good.arrive (h : m.Good) {se : Entity} (hx : m.q.curr ≠ some x)
    (hse : se.sumExecRuntime = 0) : Good ⟨m.q.setSe x fun _ => se, update m.ran x 0⟩ := by
  refine ⟨fun y => ?_, fun c hc hoff => ?_⟩
  · by_cases hy : y = x
    · subst hy
      rw [due_of_ne (by exact hx)]
      simp only [update_self, setSe_self, hse]
      rfl
    · simp only [update_of_ne hy]
      rw [← h.exact y]
      unfold CfsRq.due
      simp only [setSe_of_ne hy]
      rfl
  · have hne : c ≠ x := fun heq => hx (heq ▸ hc)
    rw [setSe_of_ne hne] at hoff ⊢
    exact h.settled c hc hoff

theorem Good.step (h : m.Good) (hok : a.picksCharged m.q = true) (hs : meteredStep m a = some m') :
    m'.Good := by
  cases a <;> simp only [meteredStep, fairStep, map_eq_some_iff] at hs
  case clock now =>
    split_ifs at hs with hnow
    obtain rfl := some_inj.mp hs
    exact h.clock hnow.1 hnow.2
  case arrive x se =>
    obtain ⟨q', hf, rfl⟩ := hs
    split_ifs at hf with hx
    obtain rfl := some_inj.mp hf
    exact h.arrive hx.2 rfl
  case enqueue x wakeup shape =>
    obtain ⟨q', hf, rfl⟩ := hs
    split_ifs at hf
    · obtain rfl := some_inj.mp hf
      exact h
    · exact h.charges (charges_enqueueEntity hf)
  case dequeue x shape =>
    obtain ⟨q', hf, rfl⟩ := hs
    split_ifs at hf
    exact h.charges (charges_dequeueEntity hf)
  case pickNext shape =>
    obtain ⟨q', hf, rfl⟩ := hs
    split_ifs at hf with hc hnr
    · obtain rfl := some_inj.mp hf
      exact h
    · obtain ⟨x, hleft, hn⟩ := bind_eq_some_iff.mp hf
      refine h.setNextEntity hc hn ?_
      simpa [FairAct.picksCharged, hnr, hleft] using hok
  case putPrev shape =>
    obtain ⟨q', hf, rfl⟩ := hs
    obtain ⟨c, hc, hp⟩ := bind_eq_some_iff.mp hf
    exact h.putPrevEntity hc hp
  case setCurrTask x shape =>
    obtain ⟨q', hf, rfl⟩ := hs
    split_ifs at hf with hc
    exact h.setNextEntity hc hf (by simpa [FairAct.picksCharged] using hok)
  case tick =>
    obtain ⟨q', hf, rfl⟩ := hs
    split_ifs at hf
    obtain rfl := some_inj.mp hf
    exact h.charges (charges_updateCurr _)
  case yield batch =>
    obtain ⟨q', hf, rfl⟩ := hs
    obtain ⟨c, -, hy⟩ := bind_eq_some_iff.mp hf
    split_ifs at hy
    exact h.yieldTask hy
  case placeNew x here =>
    obtain ⟨q', hf, rfl⟩ := hs
    split_ifs at hf
    obtain rfl := some_inj.mp hf
    exact h.charges charges_placeNew
  case reweigh x weight invWeight =>
    obtain ⟨q', hf, rfl⟩ := hs
    split_ifs at hf
    obtain rfl := some_inj.mp hf
    refine h.untimed (untimed_setSe fun _ => ⟨rfl, rfl⟩) rfl fun y => ?_
    by_cases hy : y = x
    · rw [hy, setSe_self]
    · rw [setSe_of_ne hy]

theorem good_init (hm : meteredMachine.init m) : m.Good := by
  obtain ⟨⟨-, -, hcurr, -⟩, hzero⟩ := hm
  refine ⟨fun x => ?_, fun c hc => ?_⟩
  · rw [due_of_ne (by simp [hcurr]), (hzero x).1, (hzero x).2]
    rfl
  · exact absurd (hcurr.symm.trans hc) (Option.some_ne_none c).symm

theorem Good.overcharged (h : m.Good) (hc : m.q.curr = none)
    (hn : m.q.setNextEntity x shape = some q') (hx : (m.q.se x).execStart ≠ m.q.clock) :
    (q'.updateCurr.se x).sumExecRuntime ≠ BitVec.ofNat 64 (m.ran x) := by
  rw [updateCurr_sumExecRuntime, ← h.exact x]
  intro heq
  exact hx ((due_setNextEntity hc hn).1.mp heq)

theorem Good.not_exact (h : m.Good) (hbad : a.picksCharged m.q = false)
    (hs : meteredStep m a = some m') :
    ∃ x, (m'.q.updateCurr.se x).sumExecRuntime ≠ BitVec.ofNat 64 (m'.ran x) := by
  cases a with
  | pickNext =>
    obtain ⟨q', hf, rfl⟩ := map_eq_some_iff.mp hs
    simp only [fairStep] at hf
    split_ifs at hf with hc hnr
    · simp [FairAct.picksCharged, hnr] at hbad
    · obtain ⟨x, hleft, hn⟩ := bind_eq_some_iff.mp hf
      refine ⟨x, h.overcharged hc hn ?_⟩
      simpa [FairAct.picksCharged, hnr, hleft] using hbad
  | setCurrTask x =>
    obtain ⟨q', hf, rfl⟩ := map_eq_some_iff.mp hs
    simp only [fairStep] at hf
    split_ifs at hf with hc
    exact ⟨x, h.overcharged hc hf (by simpa [FairAct.picksCharged] using hbad)⟩
  | _ => cases hbad

end Metered

/-- Over every run in which an entity is picked only at the clock of its `exec_start`,
`update_curr` makes each `sum_exec_runtime` the time for which the entity ran, and moves only the
virtual runtime of the running entity, by the weighted time for which it ran since its last charge.
The first pick at another clock makes a `sum_exec_runtime` wrong. -/
theorem charged_for_time_run {m : Metered}
    (h : meteredMachine.Reach (fun m a => a.picksCharged m.q) m) :
    (∀ x, (m.q.updateCurr.se x).sumExecRuntime = BitVec.ofNat 64 (m.ran x)) ∧
      (∀ x, m.q.curr = some x → (m.q.updateCurr.se x).vruntime = (m.q.se x).vruntime +
        (deltaExecWeighted (BitVec.ofNat 64 (m.ran x) - (m.q.se x).sumExecRuntime)
          (m.q.se x)).1) ∧
      (∀ x, m.q.curr ≠ some x → (m.q.updateCurr.se x).vruntime = (m.q.se x).vruntime) ∧
      ∀ a m', meteredStep m a = some m' → a.picksCharged m.q = false →
        ∃ x, (m'.q.updateCurr.se x).sumExecRuntime ≠ BitVec.ofNat 64 (m'.ran x) := by
  have hgood : m.Good := by
    refine h.invariant (I := Metered.Good) (fun _ => Metered.good_init) ?_
    intro m a m' hm hok hs
    exact hm.step hok hs
  refine ⟨fun x => ?_, fun x hx => ?_, fun x hx => ?_, fun a m' hs hbad => ?_⟩
  · rw [updateCurr_sumExecRuntime, hgood.exact x]
  · have hdelta : BitVec.ofNat 64 (m.ran x) - (m.q.se x).sumExecRuntime =
        m.q.clock - (m.q.se x).execStart := by
      rw [← hgood.exact x, due_of_curr hx, BitVec.add_comm, BitVec.add_sub_cancel]
    rw [hdelta, updateCurr_vruntime_curr hx]
  · exact updateCurr_vruntime hx
  · exact hgood.not_exact hbad hs

/-- An entity runs from the clock at which it was created, is put back and is picked again at
once. -/
def chargedRun : List FairAct :=
  [.enqueue 0 false (.node () .nil .nil), .pickNext .nil, .clock 5, .tick,
    .putPrev (.node () .nil .nil), .pickNext .nil, .clock 9]

theorem charged_for_time_run_nine :
    ∃ m, meteredMachine.Reach (fun m a => a.picksCharged m.q) m ∧
      (m.q.updateCurr.se 0).sumExecRuntime = 9 := by
  have hinit : meteredMachine.init ⟨{ emptyCfsRq with clock := 0 }, fun _ => 0⟩ :=
    ⟨⟨rfl, rfl, rfl, rfl, rfl, rfl, fun _ => rfl⟩, fun _ => ⟨rfl, rfl⟩⟩
  obtain ⟨m, hreach, hran⟩ := Machine.exists_reach (G := fun m a => a.picksCharged m.q)
    (P := fun m => m.ran 0 = 9) (.init hinit) chargedRun (by decide +kernel)
  refine ⟨m, hreach, ?_⟩
  rw [(charged_for_time_run hreach).1 0, hran]
  rfl

/-- The first of two entities runs for 4, waits while the other one runs for 100, and is charged
with 105 when it is picked again: with the clock at its first pick as well. -/
theorem charged_for_waiting :
    ∃ m, meteredMachine.Reach Machine.free m ∧ m.q.curr = some 0 ∧ m.ran 0 = 4 ∧
      (m.q.updateCurr.se 0).sumExecRuntime = 105 := by
  have hinit : meteredMachine.init ⟨emptyCfsRq, fun _ => 0⟩ :=
    ⟨⟨rfl, rfl, rfl, rfl, rfl, rfl, fun _ => rfl⟩, fun _ => ⟨rfl, rfl⟩⟩
  exact Machine.exists_reach (.init hinit) [.enqueue 0 false (.node () .nil .nil),
    .enqueue 1 false (.node () .nil (.node () .nil .nil)), .pickNext (.node () .nil .nil),
    .clock 5, .putPrev (.node () .nil (.node () .nil .nil)), .pickNext (.node () .nil .nil),
    .clock 105, .putPrev (.node () .nil (.node () .nil .nil)), .pickNext (.node () .nil .nil)]
    (by decide +kernel)

end MinixRt.Sched
