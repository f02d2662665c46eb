import MinixRt.Time.HrtimerQueue

/-!
# A queued timer is programmed

The invariant over whole runs: what a CPU has done so far in `hrtimer_interrupt` says what is known
about its queues (`CpuView.Phase`), and an operation on one CPU's timers leaves the other CPUs'
queues alone (`HrGood.put`).
-/

namespace MinixRt.Time

open Function Lib Machine
open Option (bind_eq_some_iff map_eq_some_iff some_inj)

variable {irq : Irq} {bases : List HrBase} {timer : Nat → Hrtimer}

namespace CpuView

variable {v w : CpuView} {t : Nat} {b : HrBase} {here restart : Bool} {early early' : Int}

/-! ## The interrupt -/

/-- What holds on CPU `c` at each point of the interrupt. -/
def Phase (c : Nat) (v : CpuView) : HrPc → Prop
  | .idle => v.cpuBase.inHrtirq = false ∧ Armed v
  | .scan _ _ => v.cpuBase.inHrtirq = true
  | .callback _ _ b t =>
    v.cpuBase.inHrtirq = true ∧ (v.cpuBase.clockBase b).running = some t ∧
      (v.timer t).base = some (c, b)
  | .program _ expiresNext =>
    v.cpuBase.inHrtirq = false ∧ expiresNext = v.cpuBase.expiresNext ∧ Below v
  | .failed _ => v.cpuBase.inHrtirq = false

section Phase

variable {c : Nat} {pc : HrPc} {softexpires expires : Int}

theorem Phase.moves (h : Phase c v pc) (hm : Moves t v w) (hidle : pc = .idle → Armed w)
    (hprog : ∀ irq n, pc = .program irq n → n = w.cpuBase.expiresNext ∧ Below w) :
    Phase c w pc := by
  cases pc with
  | idle => exact ⟨hm.irq.trans h.1, hidle rfl⟩
  | scan irq => exact hm.irq.trans h
  | callback irq bases b' t' =>
    exact ⟨hm.irq.trans h.1, (hm.running b').trans h.2.1, (hm.base t').trans h.2.2⟩
  | program irq n => exact ⟨hm.irq.trans h.1, hprog irq n rfl⟩
  | failed irq => exact hm.irq.trans h

variable (h : Phase c v pc) (hgood : QueueGood c v) (hbase : (v.timer t).base = some (c, b))
include h hgood hbase

theorem Phase.start_home (he : 0 ≤ expires ∧ expires < 2 ^ 63)
    (hpc : ∀ irq n, pc ≠ .program irq n) :
    Phase c (v.start t b true softexpires expires early early') pc := by
  refine h.moves moves_start ?_ fun irq n hp => absurd hp (hpc irq n)
  rintro rfl
  exact hgood.armed_start hbase he h.1 h.2

theorem Phase.start_away
    (hok : v.cpuBase.inHrtirq = true ∨ (v.cpuBase.hangDetected = true ∧ pc = .idle) ∨
      v.cpuBase.expiresNext ≤ max 0 (expires - v.offset b)) :
    Phase c (v.start t b false softexpires expires early early') pc := by
  refine h.moves moves_start ?_ ?_
  · rintro rfl hang
    rw [moves_start.hang] at hang
    obtain ⟨hdev, hbelow⟩ := h.2 hang
    have hlate : v.cpuBase.expiresNext ≤ max 0 (expires - v.offset b) := by
      rcases hok with hirq | hhang | hlate
      · exact absurd (h.1.symm.trans hirq) (by decide)
      · exact absurd (hang.symm.trans hhang.1) (by decide)
      · exact hlate
    refine ⟨?_, hgood.below_start_away hbase hbelow hlate⟩
    rw [CpuView.start_away]
    have hready : Ready v := fun _ => hdev
    exact hready.removeHrtimer (moves_removeHrtimer.hang.trans hang)
  · rintro irq n rfl
    obtain ⟨hirq, hn, hbelow⟩ := h
    have hlate : v.cpuBase.expiresNext ≤ max 0 (expires - v.offset b) := by
      rcases hok with hirq' | hhang | hlate
      · exact absurd (hirq.symm.trans hirq') (by decide)
      · exact absurd hhang.2 (by simp)
      · exact hlate
    exact ⟨hn.trans start_away_expiresNext.symm, hgood.below_start_away hbase hbelow hlate⟩

theorem Phase.removeHrtimer (hpc : here = true → ∀ irq n, pc ≠ .program irq n) :
    Phase c (v.removeHrtimer t b here restart early) pc := by
  refine h.moves moves_removeHrtimer ?_ ?_
  · rintro rfl hang
    have hang' := moves_removeHrtimer.hang.symm.trans hang
    obtain ⟨hdev, hbelow⟩ := h.2 hang'
    have hready : Ready v := fun _ => hdev
    exact ⟨hready.removeHrtimer hang, hgood.below_removeHrtimer hbase hbelow⟩
  · rintro irq n rfl
    obtain ⟨-, hn, hbelow⟩ := h
    cases here with
    | true => exact absurd rfl (hpc rfl irq n)
    | false =>
      exact ⟨hn.trans removeHrtimer_expiresNext.symm, hgood.below_removeHrtimer hbase hbelow⟩

end Phase

end CpuView

/-! ## The whole system -/

open CpuView

def HrGood (s : HrState) : Prop :=
  ∀ c, QueueGood c (s.view c) ∧ Phase c (s.view c) (s.pc c)

section Frame

variable {c : Nat} {v : CpuView} {pc : HrPc}
  (hq : ∀ b, ∀ x ∈ v.queue b, timer x = v.timer x)
include hq

theorem QueueGood.frame (h : QueueGood c v)
    (he : ∀ x, 0 ≤ (timer x).expires ∧ (timer x).expires < 2 ^ 63) :
    QueueGood c { v with timer } := by
  refine ⟨?_, ?_, h.active, h.offset, he⟩
  · intro b x hx
    show (timer x).base = some (c, b) ∧ (timer x).enqueued = true
    rw [hq b x hx]
    exact h.queued b x hx
  · intro b
    apply (h.sorted b).imp_of_mem
    intro x y hx hy hxy
    show (timer x).expires ≤ (timer y).expires
    rwa [hq b x hx, hq b y hy]

theorem Below.frame (h : Below v) : Below { v with timer } := by
  intro b x hx
  show v.cpuBase.expiresNext ≤ max 0 ((timer x).expires - v.offset b)
  rw [hq b x hx]
  exact h b x hx

theorem Phase.frame (h : Phase c v pc)
    (hrun : ∀ b x, (v.cpuBase.clockBase b).running = some x → (v.timer x).base = some (c, b) →
      (timer x).base = some (c, b)) : Phase c { v with timer } pc := by
  cases pc with
  | idle => exact ⟨h.1, fun hang => ⟨(h.2 hang).1, Below.frame hq (h.2 hang).2⟩⟩
  | scan => exact h
  | callback irq bases b t => exact ⟨h.1, h.2.1, hrun b t h.2.1 h.2.2⟩
  | program => exact ⟨h.1, h.2.1, Below.frame hq h.2.2⟩
  | failed => exact h

end Frame

namespace HrGood

variable {s : HrState} {c c' t : Nat} {b : HrBase} {v w : CpuView} {pc : HrPc} {n : Int}

theorem put_view (s : HrState) (c : Nat) : s.put c (s.view c) = s := by
  simp [HrState.put, HrState.view]

theorem not_program (hc : s.mayCall c = true) (irq : Irq) (n : Int) : s.pc c ≠ .program irq n := by
  intro hpc
  rw [HrState.mayCall, hpc] at hc
  exact absurd hc Bool.false_ne_true

theorem updateBase (h : QueueGood c v) (offs : Int) : QueueGood c (v.updateBase offs) := by
  have hq : (v.updateBase offs).queue = v.queue := by
    ext1 b
    cases b with
    | monotonic => exact queue_setClockBase_of_ne _ (by decide)
    | realtime => exact queue_setClockBase_self _
  refine ⟨?_, ?_, ?_, ?_, h.expires⟩
  · rw [hq]
    exact h.queued
  · rw [hq]
    exact h.sorted
  · rw [hq]
    exact h.active
  · intro b
    cases b with
    | monotonic => exact h.offset .monotonic
    | realtime => exact wrap64_range offs

theorem ofSame (h : QueueGood c v) (htimer : w.timer = v.timer)
    (hclock : w.cpuBase.clockBase = v.cpuBase.clockBase)
    (hactive : w.cpuBase.activeBases = v.cpuBase.activeBases) : QueueGood c w := by
  obtain ⟨wtimer, wbase, wdev⟩ := w
  obtain ⟨wactive, wirq, whang, wexp, wnext, wclock⟩ := wbase
  subst htimer hclock hactive
  exact ⟨h.queued, h.sorted, h.active, h.offset, h.expires⟩

theorem setRunning (h : QueueGood c v) (b : HrBase) (running : Option Nat) :
    QueueGood c (v.setClockBase b ({ · with running })) := by
  have hq : (v.setClockBase b ({ · with running })).queue = v.queue := by
    ext1 b'
    by_cases hb : b' = b
    · subst hb
      exact queue_setClockBase_self _
    · exact queue_setClockBase_of_ne _ hb
  have ho : (v.setClockBase b ({ · with running })).offset = v.offset := by
    ext1 b'
    by_cases hb : b' = b
    · subst hb
      simp [offset, setClockBase]
    · simp [offset, setClockBase, hb]
  refine ⟨?_, ?_, ?_, ?_, h.expires⟩
  · rw [hq]
    exact h.queued
  · rw [hq]
    exact h.sorted
  · rw [hq]
    exact h.active
  · rw [ho]
    exact h.offset

theorem init (hs : hrMachine.init s) : HrGood s := by
  obtain ⟨hbases, hcpus, htimers⟩ := hs
  intro c
  obtain ⟨hirq, hnext, hdev, hpc⟩ := hcpus c
  have hq : ∀ b, (s.view c).queue b = [] := fun b => (hbases c b).1
  rw [hpc]
  refine ⟨⟨?_, ?_, ?_, ?_, ?_⟩, hirq, fun _ => ⟨hdev.trans hnext.ge, ?_⟩⟩
  · intro b t ht
    exact absurd (hq b ▸ ht) List.not_mem_nil
  · intro b
    rw [hq b]
    exact .nil
  · exact fun b hne => absurd (hq b) hne
  · intro b
    rw [offset, show ((s.view c).cpuBase.clockBase b).offset = 0 from (hbases c b).2]
    decide
  · intro t
    rw [show ((s.view c).timer t).expires = 0 from (htimers t).2]
    decide
  · intro b t ht
    exact absurd (hq b ▸ ht) List.not_mem_nil

variable (h : HrGood s)
include h

theorem put (hw : QueueGood c w) (hpc : Phase c w pc)
    (hothers : ∀ x, (∀ b, (s.timer x).base ≠ some (c, b)) → w.timer x = s.timer x) :
    HrGood ((s.put c w).goto c pc) := by
  intro c'
  by_cases hc : c' = c
  · subst hc
    have hview : ((s.put c' w).goto c' pc).view c' = w := by
      simp [HrState.view, HrState.put, HrState.goto]
    have hgoto : ((s.put c' w).goto c' pc).pc c' = pc := by
      simp [HrState.goto]
    rw [hview, hgoto]
    exact ⟨hw, hpc⟩
  · have hview : ((s.put c w).goto c pc).view c' = { s.view c' with timer := w.timer } := by
      simp [HrState.view, HrState.put, HrState.goto, hc]
    have hgoto : ((s.put c w).goto c pc).pc c' = s.pc c' := by
      simp [HrState.goto, HrState.put, hc]
    obtain ⟨hgood, hphase⟩ := h c'
    have hsame : ∀ x b, (s.timer x).base = some (c', b) → w.timer x = s.timer x := by
      intro x b hx
      apply hothers
      intro b' hb'
      exact hc (congrArg Prod.fst (some_inj.mp (hx.symm.trans hb')))
    have hq : ∀ b, ∀ x ∈ (s.view c').queue b, w.timer x = s.timer x :=
      fun b x hx => hsame x b (hgood.queued b x hx).1
    rw [hview, hgoto]
    refine ⟨QueueGood.frame hq hgood hw.expires, Phase.frame hq hphase ?_⟩
    intro b x _ hx
    rw [hsame x b hx]
    exact hx

theorem put_moves (hbase : (s.timer t).base = some (c, b)) (hm : Moves t (s.view c) w)
    (hw : QueueGood c w) (hpc : Phase c w (s.pc c)) : HrGood (s.put c w) := by
  have hgoto : (s.put c w).goto c (s.pc c) = s.put c w := by
    simp [HrState.goto, HrState.put]
  rw [← hgoto]
  refine h.put hw hpc fun x hx => hm.others x ?_
  rintro rfl
  exact hx b hbase

theorem setTimer (ht : (s.timer t).enqueued = false) (hothers : ∀ x, x ≠ t → timer x = s.timer x)
    (hrun : s.callbackRunning t = true → (timer t).base = (s.timer t).base)
    (he : 0 ≤ (timer t).expires ∧ (timer t).expires < 2 ^ 63) : HrGood { s with timer } := by
  intro c
  obtain ⟨hgood, hphase⟩ := h c
  have hq : ∀ b, ∀ x ∈ (s.view c).queue b, timer x = s.timer x := by
    intro b x hx
    apply hothers
    rintro rfl
    exact absurd ((hgood.queued b x hx).2.symm.trans ht) (by decide)
  refine ⟨QueueGood.frame hq hgood ?_, Phase.frame hq hphase ?_⟩
  · intro x
    by_cases hx : x = t
    · exact hx ▸ he
    · show 0 ≤ (timer x).expires ∧ (timer x).expires < 2 ^ 63
      rw [hothers x hx]
      exact hgood.expires x
  · intro b x hx hbase
    show (timer x).base = some (c, b)
    by_cases hxt : x = t
    · subst hxt
      have hrunning : s.callbackRunning x = true := by
        rw [HrState.callbackRunning, show (s.timer x).base = some (c, b) from hbase]
        exact decide_eq_true hx
      rw [hrun hrunning]
      exact hbase
    · rw [hothers x hxt]
      exact hbase

theorem start (hbase : (s.timer t).base = some (c', b)) (hc : s.mayCall c = true)
    {softexpires expires early early' : Int} (he : 0 ≤ expires ∧ expires < 2 ^ 63)
    (hok : c' = c ∨ (s.cpu c').inHrtirq = true ∨
      ((s.cpu c').hangDetected = true ∧ s.mayCall c' = true) ∨
      (s.cpu c').expiresNext ≤ max 0 (expires - (s.view c').offset b)) :
    HrGood (s.put c' ((s.view c').start t b (c' = c) softexpires expires early early')) := by
  obtain ⟨hgood, hphase⟩ := h c'
  refine h.put_moves hbase moves_start (hgood.start hbase he) ?_
  by_cases hcc : c' = c
  · subst hcc
    rw [decide_eq_true rfl]
    exact hphase.start_home hgood hbase he (not_program hc)
  · rw [decide_eq_false hcc]
    apply hphase.start_away hgood hbase
    rcases hok with heq | hirq | ⟨hhang, hmay⟩ | hlate
    · exact absurd heq hcc
    · exact .inl hirq
    · cases hpc : s.pc c' with
      | idle => exact .inr (.inl ⟨hhang, rfl⟩)
      | callback =>
        rw [hpc] at hphase
        exact .inl hphase.1
      | _ =>
        rw [HrState.mayCall, hpc] at hmay
        exact absurd hmay (by simp)
    · exact .inr (.inr hlate)

theorem tryToCancel (hbase : (s.timer t).base = some (c', b)) (hc : s.mayCall c = true)
    {early : Int} : HrGood (s.put c' ((s.view c').removeHrtimer t b (c' = c) false early)) := by
  obtain ⟨hgood, hphase⟩ := h c'
  refine h.put_moves hbase moves_removeHrtimer (hgood.removeHrtimer hbase) ?_
  apply hphase.removeHrtimer hgood hbase
  intro hhere
  obtain rfl : c' = c := of_decide_eq_true hhere
  exact not_program hc

theorem interrupt (offs : Int) (irq : Irq) (bases : List HrBase) :
    HrGood ((s.put c (({ s.view c with dev := ktimeMax } : CpuView).updateBase offs).enterIrq).goto c
      (.scan irq bases)) := by
  have hgood : QueueGood c { s.view c with dev := ktimeMax } := ofSame (h c).1 rfl rfl rfl
  exact h.put (ofSame (updateBase hgood offs) rfl rfl rfl) rfl fun _ _ => rfl

theorem run (hirq : (s.view c).cpuBase.inHrtirq = true) (ht : t ∈ (s.view c).queue b) :
    HrGood ((s.put c (((s.view c).setClockBase b ({ · with running := some t })).removeTimer t b
      false false 0)).goto c (.callback irq bases b t)) := by
  obtain ⟨hbase, henq⟩ := (h c).1.queued b t ht
  have hgood := setRunning (h c).1 b (some t)
  have hrem : ((s.view c).setClockBase b ({ · with running := some t })).removeTimer t b false false
      0 = ((s.view c).setClockBase b ({ · with running := some t })).removeHrtimer t b false false
      0 := (if_pos henq).symm
  rw [hrem]
  refine h.put (hgood.removeHrtimer hbase) ⟨?_, ?_, ?_⟩ ?_
  · exact moves_removeHrtimer.irq.trans hirq
  · rw [moves_removeHrtimer.running]
    simp [setClockBase]
  · exact (moves_removeHrtimer.base t).trans hbase
  · intro x hx
    apply moves_removeHrtimer.others
    rintro rfl
    exact hx b hbase

theorem scan (hpc : s.pc c = .scan irq bases) :
    HrGood ((s.put c (scanStep irq (s.view c) bases).1).goto c
      (scanStep irq (s.view c) bases).2) := by
  obtain ⟨hgood, hphase⟩ := h c
  rw [hpc] at hphase
  cases bases with
  | nil =>
    have hnext : QueueGood c (scanStep irq (s.view c) []).1 := ofSame hgood rfl rfl rfl
    refine h.put hnext ⟨rfl, rfl, ?_⟩ fun _ _ => rfl
    intro b x hx
    exact getNextEvent_le hgood hx
  | cons b =>
    cases hq : (s.view c).queue b with
    | nil =>
      simp only [scanStep, hq]
      exact h.put hgood hphase fun _ _ => rfl
    | cons =>
      simp only [scanStep, hq]
      split_ifs
      · exact h.put hgood hphase fun _ _ => rfl
      · exact h.run hphase (hq ▸ List.mem_cons_self)

theorem callbackEnd (hpc : s.pc c = .callback irq bases b t) (restart : Bool) :
    HrGood ((s.put c (endCallback t b restart (s.view c))).goto c (.scan irq bases)) := by
  obtain ⟨hgood, hphase⟩ := h c
  rw [hpc] at hphase
  obtain ⟨hirq, -, hbase⟩ := hphase
  unfold endCallback
  dsimp only
  split_ifs with hre
  · have ht : ∀ b', t ∉ (s.view c).queue b' := fun b' ht =>
      absurd (hre.2.symm.trans (hgood.queued b' t ht).2) (by decide)
    have hm : Moves t (s.view c) ((s.view c).enqueueHrtimer t b) := moves_enqueueHrtimer
    refine h.put (setRunning (hgood.enqueueHrtimer hbase ht) b none) (hm.irq.trans hirq) ?_
    intro x hx
    apply hm.others
    rintro rfl
    exact hx b hbase
  · exact h.put (setRunning hgood b none) hirq fun _ _ => rfl

theorem program (hpc : s.pc c = .program irq n) (early : Int) :
    HrGood ((s.put c (({ s.view c with cpuBase.hangDetected := false } : CpuView).tickProgramEvent n
      early)).goto c .idle) := by
  obtain ⟨hgood, hphase⟩ := h c
  rw [hpc] at hphase
  obtain ⟨hirq, hn, hbelow⟩ := hphase
  refine h.put (ofSame hgood rfl rfl rfl) ⟨hirq, ?_⟩ fun _ _ => rfl
  intro _
  exact ⟨(min_le_right _ _).trans hn.le, hbelow⟩

theorem fail (hpc : s.pc c = .program irq n) : HrGood (s.goto c (.failed irq)) := by
  obtain ⟨hgood, hphase⟩ := h c
  rw [hpc] at hphase
  have hput : HrGood ((s.put c (s.view c)).goto c (.failed irq)) :=
    h.put hgood hphase.1 fun _ _ => rfl
  rwa [put_view] at hput

theorem retry (hpc : s.pc c = .failed irq) (now offs early : Int) :
    HrGood ((s.put c (retryStep irq now offs early (s.view c)).1).goto c
      (retryStep irq now offs early (s.view c)).2) := by
  obtain ⟨hgood, hphase⟩ := h c
  rw [hpc] at hphase
  have hupd := updateBase hgood offs
  unfold retryStep
  dsimp only
  generalize (if 100000000 < wrap64 (now - irq.entryTime) then wrap64 (now + 100000000)
      else wrap64 (now + wrap64 (now - irq.entryTime))) = expiresNext
  split_ifs
  · exact h.put (ofSame hupd rfl rfl rfl) rfl fun _ _ => rfl
  · refine h.put (ofSame hupd rfl rfl rfl) ⟨hphase, ?_⟩ fun _ _ => rfl
    intro hang
    exact absurd hang Bool.true_eq_false.mp

theorem forward (t : Nat) (now interval : Int) : HrGood { s with
      timer := update s.timer t
        (hrtimerForward (wrap64 now) (wrap64 interval) (s.timer t)) } := by
  by_cases ht : (s.timer t).enqueued = true
  · have hsame : hrtimerForward (wrap64 now) (wrap64 interval) (s.timer t) = s.timer t :=
      if_pos (.inr ht)
    rw [hsame, update_eq_self]
    exact h
  · apply h.setTimer (Bool.not_eq_true _ ▸ ht) (fun x hx => update_of_ne hx _ _)
    · intro _
      rw [update_self]
      unfold hrtimerForward
      dsimp only
      split_ifs <;> rfl
    · rw [update_self]
      obtain ⟨hle, hlt⟩ := wrap64_range now
      exact hrtimerForward_expires hle hlt ((h 0).1.expires t)

theorem step {a : HrAct} {s' : HrState} (hok : a.startsHome s) (hstep : hrStep s a = some s') :
    HrGood s' := by
  cases a <;> simp only [hrStep] at hstep
  case init =>
    split_ifs at hstep with hc
    obtain rfl := some_inj.mp hstep
    apply h.setTimer hc.2.1 (fun x hx => update_of_ne hx _ _)
    · intro hrun
      exact absurd (hrun.symm.trans hc.2.2) (by decide)
    · rw [update_self]
      show (0 : Int) ≤ 0 ∧ (0 : Int) < 2 ^ 63
      decide
  case start =>
    obtain ⟨⟨c', b⟩, hbase, hstep⟩ := bind_eq_some_iff.mp hstep
    dsimp only at hstep
    split_ifs at hstep with hc
    obtain rfl := some_inj.mp hstep
    rw [HrAct.startsHome, hbase] at hok
    exact h.start hbase hc.1 (ktimeAddSafe_range _ _) (of_decide_eq_true hok)
  case tryToCancel =>
    obtain ⟨⟨c', b⟩, hbase, hstep⟩ := bind_eq_some_iff.mp hstep
    dsimp only at hstep
    split_ifs at hstep with hc hrun
    · exact some_inj.mp hstep ▸ h
    · obtain rfl := some_inj.mp hstep
      exact h.tryToCancel hbase hc.1
  case forward c t now interval =>
    split_ifs at hstep
    obtain rfl := some_inj.mp hstep
    exact h.forward t now interval
  case interrupt c now offs =>
    split at hstep
    · obtain rfl := some_inj.mp hstep
      exact h.interrupt offs _ _
    · exact absurd hstep (by simp)
  case scan c =>
    split at hstep
    · rename_i irq bases hpc
      obtain rfl := some_inj.mp hstep
      exact h.scan hpc
    · exact absurd hstep (by simp)
  case callbackEnd c restart =>
    split at hstep
    · rename_i irq bases b t hpc
      obtain rfl := some_inj.mp hstep
      exact h.callbackEnd hpc restart
    · exact absurd hstep (by simp)
  case program c ok early =>
    split at hstep
    · rename_i irq n hpc
      split_ifs at hstep
      · obtain rfl := some_inj.mp hstep
        exact h.program hpc early
      · obtain rfl := some_inj.mp hstep
        exact h.fail hpc
    · exact absurd hstep (by simp)
  case retry c now offs early =>
    split at hstep
    · rename_i irq hpc
      obtain rfl := some_inj.mp hstep
      exact h.retry hpc now offs early
    · exact absurd hstep (by simp)

end HrGood

/-- In every run that starts timers at home, the device of a CPU that is not in the interrupt and
has no hang is programmed for every timer that is queued on it. -/
theorem queued_programmed {s : HrState} (h : hrMachine.Reach (fun s a => a.startsHome s) s)
    {c : Nat} (hpc : s.pc c = .idle) (hang : (s.cpu c).hangDetected = false) {b : HrBase} {t : Nat}
    (ht : t ∈ ((s.cpu c).clockBase b).active) :
    s.dev c ≤ max 0 ((s.timer t).expires - ((s.cpu c).clockBase b).offset) := by
  have hinv : HrGood s :=
    h.invariant (I := HrGood) (fun _ hs => .init hs) fun _ _ _ hs hok hstep => hs.step hok hstep
  obtain ⟨-, hphase⟩ := hinv c
  rw [hpc] at hphase
  obtain ⟨hdev, hbelow⟩ := hphase.2 hang
  exact hdev.trans (hbelow b t ht)

/-! ## Runs -/

def hrBoot : HrState where
  timer _ := ⟨none, 0, 0, false⟩
  cpu _ :=
    { activeBases := fun _ => false, inHrtirq := false, hangDetected := false
      expiresNext := ktimeMax, nextTimer := none, clockBase := fun _ => ⟨[], none, 0⟩ }
  pc _ := .idle
  dev _ := ktimeMax

theorem hrBoot_init : hrMachine.init hrBoot :=
  ⟨fun _ _ => ⟨rfl, rfl⟩, fun _ => ⟨rfl, rfl, le_rfl, rfl⟩, fun _ => ⟨rfl, rfl⟩⟩

/-- Timer 0 is periodic and timer 1 is started from its callback. -/
def homeRun : List HrAct :=
  [.init 1 0 1 true, .start 1 0 100 0 true 50 1000 1000, .init 1 1 1 false, .interrupt 1 160 7,
    .scan 1, .start 1 1 900 0 false 0 1000 1000, .forward 1 0 170 100, .callbackEnd 1 true, .scan 1,
    .scan 1, .program 1 true 1000]

theorem queued_programmed_home :
    ∃ s, hrMachine.Reach (fun s a => a.startsHome s) s ∧
      ((s.cpu 1).clockBase .monotonic).active = [0, 1] ∧ s.dev 1 ≤ 250 := by
  obtain ⟨s, hreach, hq, hpc, hang, hexp, hoff⟩ := exists_reach (G := fun s a => a.startsHome s)
    (P := fun s => ((s.cpu 1).clockBase .monotonic).active = [0, 1] ∧ s.pc 1 = .idle ∧
      (s.cpu 1).hangDetected = false ∧ (s.timer 0).expires = 250 ∧
      ((s.cpu 1).clockBase .monotonic).offset = 0) (.init hrBoot_init) homeRun (by decide +kernel)
  have hle := queued_programmed hreach hpc hang (hq ▸ List.mem_cons_self)
  rw [hexp, hoff] at hle
  exact ⟨s, hreach, hq, hle⟩

/-- CPU 1 starts a timer that CPU 0 has initialised. -/
def awayRun : List HrAct :=
  [.init 0 0 1 true, .start 1 0 100 0 true 50 1000 1000]

/-- The timer is queued on CPU 0, whose device is not programmed at all. -/
theorem away_not_programmed :
    ∃ s, hrMachine.Reach free s ∧ s.pc 0 = .idle ∧ (s.cpu 0).hangDetected = false ∧
      0 ∈ ((s.cpu 0).clockBase .monotonic).active ∧
      ((s.cpu 0).clockBase .monotonic).offset = 0 ∧ (s.timer 0).expires = 150 ∧
      s.dev 0 = ktimeMax :=
  exists_reach (.init hrBoot_init) awayRun (by decide +kernel)

end MinixRt.Time
