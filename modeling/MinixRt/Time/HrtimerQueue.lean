import MinixRt.Time.Hrtimer

/-!
# The timer queues of a CPU

The operations on the timers of one CPU keep its queues in the order of the expiry times
(`CpuView.QueueGood`). `__hrtimer_get_next_event` finds the earliest expiry, so what is reprogrammed
on removal is right, and a timer that is started on its own CPU is programmed if it comes first
(`CpuView.QueueGood.armed_start`). Started by another CPU it is only queued
(`CpuView.start_away`).
-/

namespace MinixRt.Time

/-! ## Times -/

theorem wrap64_range (x : Int) : -2 ^ 63 ≤ wrap64 x ∧ wrap64 x < 2 ^ 63 := by
  have hle := Int.le_bmod (x := x) (m := 2 ^ 64) (by decide)
  have hlt := Int.bmod_lt (x := x) (m := 2 ^ 64) (by decide)
  unfold wrap64
  omega

theorem wrap64_of_lt {x : Int} (hle : -2 ^ 63 ≤ x) (hlt : x < 2 ^ 63) : wrap64 x = x :=
  Int.bmod_eq_of_le (by omega) (by omega)

theorem wrap64_le {x : Int} (hle : -2 ^ 63 ≤ x) : wrap64 x ≤ x := by
  rcases lt_or_ge x (2 ^ 63) with hlt | hge
  · exact (wrap64_of_lt hle hlt).le
  · exact ((wrap64_range x).2.trans_le hge).le

theorem ktimeAddSafe_range (lhs rhs : Int) :
    0 ≤ ktimeAddSafe lhs rhs ∧ ktimeAddSafe lhs rhs < 2 ^ 63 := by
  have hrange := wrap64_range (lhs + rhs)
  unfold ktimeAddSafe ktimeMax
  dsimp only
  split_ifs <;> omega

theorem wrap64_add (x : Int) : wrap64 (x + 2 ^ 64) = wrap64 x := by
  unfold wrap64
  exact Int.add_bmod_right ..

/-- The forward steps do not reach past `now`, so a sum that wraps is not after `now`. -/
theorem wrap64_forward_nonneg {now expires ns : Int} (hnow : -2 ^ 63 ≤ now) (hnow' : now < 2 ^ 63)
    (he : 0 ≤ expires) (he' : expires < 2 ^ 63) (hns : 0 ≤ ns) (hle : ns ≤ wrap64 (now - expires))
    (hpast : now < wrap64 (expires + ns)) : 0 ≤ wrap64 (expires + ns) := by
  have hrange := wrap64_range (now - expires)
  rcases lt_or_ge (expires + ns) (2 ^ 63) with hlt | hge
  · rw [wrap64_of_lt (by omega) hlt]
    omega
  · have hwrap : wrap64 (expires + ns) = expires + ns - 2 ^ 64 := by
      have hsub := wrap64_add (expires + ns - 2 ^ 64)
      rw [Int.sub_add_cancel] at hsub
      rw [hsub, wrap64_of_lt (by omega) (by omega)]
    have hdelta : wrap64 (now - expires) ≤ now - expires + 2 ^ 64 := by
      rw [← wrap64_add]
      exact wrap64_le (by omega)
    omega

theorem hrtimerForward_expires {now interval : Int} {timer : Hrtimer} (hnow : -2 ^ 63 ≤ now)
    (hnow' : now < 2 ^ 63) (h : 0 ≤ timer.expires ∧ timer.expires < 2 ^ 63) :
    0 ≤ (hrtimerForward now interval timer).expires ∧
      (hrtimerForward now interval timer).expires < 2 ^ 63 := by
  unfold hrtimerForward
  dsimp only
  have hpos : (1 : Int) ≤ if interval < 1 then 1 else interval := by
    split_ifs <;> omega
  generalize (if interval < 1 then 1 else interval) = step at hpos ⊢
  split_ifs with hstop hstep hpast
  · exact h
  · have hle := Int.mul_ediv_self_le (x := wrap64 (now - timer.expires)) (k := step) (by omega)
    have hnn : 0 ≤ step * (wrap64 (now - timer.expires) / step) :=
      Int.mul_nonneg (by omega) (Int.ediv_nonneg (by omega) (by omega))
    exact ⟨wrap64_forward_nonneg hnow hnow' h.1 h.2 hnn hle hpast, (wrap64_range _).2⟩
  · exact ktimeAddSafe_range _ _
  · exact ktimeAddSafe_range _ _

theorem ktimeAddSafe_eq {lhs rhs : Int} (hl : 0 ≤ lhs) (hr : 0 ≤ rhs) (hsum : lhs + rhs < 2 ^ 63) :
    ktimeAddSafe lhs rhs = lhs + rhs := by
  unfold ktimeAddSafe
  rw [wrap64_of_lt (by omega) hsum]
  exact if_neg (by omega)

/-- A timer that is due is moved by the least number of intervals that takes it past `now`. The
division never goes past `now`, so that one interval is always added after it. -/
theorem hrtimerForward_spec {now interval : Int} {timer : Hrtimer} (hq : timer.enqueued = false)
    (he : 0 ≤ timer.expires) (he' : timer.expires < 2 ^ 63) (hnow : 0 ≤ now) (hint : 0 < interval)
    (hsum : now + max interval 1 < 2 ^ 63) :
    (now < timer.expires → hrtimerForwardOverruns now interval timer = 0 ∧
      hrtimerForward now interval timer = timer) ∧
    (timer.expires ≤ now → ∃ n, 1 ≤ n ∧ hrtimerForwardOverruns now interval timer = n ∧
      (hrtimerForward now interval timer).expires = timer.expires + n * max interval 1 ∧
      now < timer.expires + n * max interval 1 ∧
      timer.expires + (n - 1) * max interval 1 ≤ now) := by
  have hone : (if interval < 1 then 1 else interval) = interval := if_neg (by omega)
  have hmax : max interval 1 = interval := max_eq_left hint
  rw [hmax] at hsum ⊢
  unfold hrtimerForwardOverruns hrtimerForward
  simp only [hone, hq, Bool.false_eq_true, or_false,
    wrap64_of_lt (show -2 ^ 63 ≤ now - timer.expires by omega) (by omega)]
  constructor
  · intro hlt
    have hneg : now - timer.expires < 0 := by omega
    exact ⟨if_pos hneg, if_pos hneg⟩
  · intro hle
    have hpos : ¬ now - timer.expires < 0 := by omega
    simp only [if_neg hpos]
    by_cases hstep : interval ≤ now - timer.expires
    · have hfloor := Int.mul_ediv_self_le (x := now - timer.expires) (k := interval) (by omega)
      have hceil := Int.lt_ediv_add_one_mul_self (now - timer.expires) hint
      have hquot : 1 ≤ (now - timer.expires) / interval := Int.le_ediv_of_mul_le hint (by omega)
      have hnn : 0 ≤ interval * ((now - timer.expires) / interval) :=
        Int.mul_nonneg (by omega) (by omega)
      generalize (now - timer.expires) / interval = q at *
      have hcomm : interval * q = q * interval := Int.mul_comm ..
      have hnext : (q + 1) * interval = q * interval + interval := by rw [Int.add_mul, Int.one_mul]
      rw [if_pos hstep, if_pos hstep, wrap64_of_lt (by omega) (by omega), if_neg (by omega),
        if_neg (by omega)]
      refine ⟨q + 1, by omega, rfl, ?_, by omega, ?_⟩
      · show ktimeAddSafe (timer.expires + interval * q) interval = _
        rw [ktimeAddSafe_eq (by omega) hint.le (by omega)]
        omega
      · rw [Int.add_sub_cancel]
        omega
    · rw [if_neg hstep, if_neg hstep]
      refine ⟨1, le_rfl, rfl, ?_, by omega, by omega⟩
      rw [Int.one_mul]
      exact ktimeAddSafe_eq he hint.le (by omega)

/-- A timer that is due since exactly two intervals is moved by three. -/
theorem hrtimerForward_spec_exact :
    ∃ n, 1 ≤ n ∧ hrtimerForwardOverruns 40 10 ⟨none, 20, 20, false⟩ = n ∧
      (hrtimerForward 40 10 ⟨none, 20, 20, false⟩).expires = 20 + n * 10 ∧ n = 3 := by
  obtain ⟨n, hn, hover, hexp, -⟩ := (@hrtimerForward_spec 40 10 ⟨none, 20, 20, false⟩ rfl
    (by decide) (by decide) (by decide) (by decide) (by decide)).2 (by decide)
  exact ⟨n, hn, hover, hexp, hover.symm⟩

/-! ## What an operation leaves alone -/

namespace CpuView

variable {v w u : CpuView} {c t : Nat} {b b' : HrBase} {here again newstate restart : Bool}
  {early early' softexpires expires : Int}

theorem setState_expires (enqueued : Bool) (x : Nat) :
    ((v.setState t enqueued).timer x).expires = (v.timer x).expires := by
  by_cases hx : x = t
  · subst hx
    simp [setState, setTimer]
  · simp [setState, setTimer, hx]

theorem queue_setClockBase_self (f : ClockBase → ClockBase) :
    (v.setClockBase b f).queue b = (f (v.cpuBase.clockBase b)).active := by
  simp [queue, setClockBase]

theorem queue_setClockBase_of_ne (f : ClockBase → ClockBase) (h : b' ≠ b) :
    (v.setClockBase b f).queue b' = v.queue b' := by
  simp [queue, setClockBase, h]

/-- An operation on timer `t` leaves the other timers, the bases, the offsets and the flags. -/
structure Moves (t : Nat) (v w : CpuView) : Prop where
  irq : w.cpuBase.inHrtirq = v.cpuBase.inHrtirq
  hang : w.cpuBase.hangDetected = v.cpuBase.hangDetected
  running : ∀ b, (w.cpuBase.clockBase b).running = (v.cpuBase.clockBase b).running
  offset : ∀ b, w.offset b = v.offset b
  base : ∀ u, (w.timer u).base = (v.timer u).base
  others : ∀ u, u ≠ t → w.timer u = v.timer u

theorem Moves.refl (t : Nat) (v : CpuView) : Moves t v v :=
  ⟨rfl, rfl, fun _ => rfl, fun _ => rfl, fun _ => rfl, fun _ _ => rfl⟩

theorem Moves.trans (h : Moves t u v) (h' : Moves t v w) : Moves t u w where
  irq := h'.irq.trans h.irq
  hang := h'.hang.trans h.hang
  running b := (h'.running b).trans (h.running b)
  offset b := (h'.offset b).trans (h.offset b)
  base x := (h'.base x).trans (h.base x)
  others x hx := (h'.others x hx).trans (h.others x hx)

theorem moves_setTimer {f : Hrtimer → Hrtimer} (hf : ∀ x, (f x).base = x.base) :
    Moves t v (v.setTimer t f) := by
  refine ⟨rfl, rfl, fun _ => rfl, fun _ => rfl, ?_, ?_⟩
  · intro x
    by_cases hx : x = t
    · subst hx
      simp [setTimer, hf]
    · simp [setTimer, hx]
  · intro x hx
    simp [setTimer, hx]

theorem moves_setState {enqueued : Bool} : Moves t v (v.setState t enqueued) :=
  moves_setTimer fun _ => rfl

theorem moves_setExpires : Moves t v (v.setExpires t softexpires expires) :=
  moves_setTimer fun _ => rfl

theorem moves_setClockBase {f : ClockBase → ClockBase}
    (hf : ∀ x, (f x).running = x.running ∧ (f x).offset = x.offset) :
    Moves t v (v.setClockBase b f) := by
  refine ⟨rfl, rfl, ?_, ?_, fun _ => rfl, fun _ _ => rfl⟩
  · intro b'
    by_cases hb : b' = b
    · subst hb
      simp [setClockBase, hf]
    · simp [setClockBase, hb]
  · intro b'
    by_cases hb : b' = b
    · subst hb
      simp [offset, setClockBase, hf]
    · simp [offset, setClockBase, hb]

theorem moves_forceReprogram : Moves t v (v.forceReprogram early) := by
  unfold forceReprogram
  dsimp only
  split_ifs <;> exact ⟨rfl, rfl, fun _ => rfl, fun _ => rfl, fun _ => rfl, fun _ _ => rfl⟩

theorem moves_timerqueueDel : Moves t v (v.timerqueueDel t b) := by
  unfold timerqueueDel
  dsimp only
  have h : Moves t v (v.setClockBase b ({ · with active := (v.queue b).filter (· ≠ t) })) :=
    moves_setClockBase fun _ => ⟨rfl, rfl⟩
  split_ifs
  · exact h.trans ⟨rfl, rfl, fun _ => rfl, fun _ => rfl, fun _ => rfl, fun _ _ => rfl⟩
  · exact h

theorem moves_removeTimer : Moves t v (v.removeTimer t b newstate again early) := by
  unfold removeTimer
  dsimp only
  split_ifs
  · exact (moves_setState.trans moves_timerqueueDel).trans moves_forceReprogram
  · exact moves_setState.trans moves_timerqueueDel
  · exact moves_setState

theorem moves_removeHrtimer : Moves t v (v.removeHrtimer t b here restart early) := by
  unfold removeHrtimer
  split_ifs
  · exact moves_removeTimer
  · exact .refl t v

theorem moves_enqueueHrtimer : Moves t v (v.enqueueHrtimer t b) := by
  unfold enqueueHrtimer
  refine Moves.trans ?_ (moves_setClockBase ?_)
  · exact moves_setState.trans
      ⟨rfl, rfl, fun _ => rfl, fun _ => rfl, fun _ => rfl, fun _ _ => rfl⟩
  · exact fun _ => ⟨rfl, rfl⟩

theorem moves_reprogram : Moves t v (v.reprogram t b here early) := by
  unfold CpuView.reprogram
  dsimp only
  split_ifs <;> exact ⟨rfl, rfl, fun _ => rfl, fun _ => rfl, fun _ => rfl, fun _ _ => rfl⟩

theorem moves_unqueue : Moves t v (v.unqueue t b here softexpires expires early) :=
  moves_removeHrtimer.trans moves_setExpires

theorem moves_start : Moves t v (v.start t b here softexpires expires early early') := by
  unfold start
  dsimp only
  split_ifs
  · exact (moves_unqueue.trans moves_enqueueHrtimer).trans moves_reprogram
  · exact moves_unqueue.trans moves_enqueueHrtimer

/-! ## The queues -/

/-- The queues of CPU `c` hold timers of that CPU in the order of their expiry. -/
structure QueueGood (c : Nat) (v : CpuView) : Prop where
  queued : ∀ b, ∀ t ∈ v.queue b, (v.timer t).base = some (c, b) ∧ (v.timer t).enqueued = true
  sorted : ∀ b, (v.queue b).Pairwise fun t u => (v.timer t).expires ≤ (v.timer u).expires
  active : ∀ b, v.queue b ≠ [] → v.cpuBase.activeBases b = true
  offset : ∀ b, -2 ^ 63 ≤ v.offset b ∧ v.offset b < 2 ^ 63
  expires : ∀ t, 0 ≤ (v.timer t).expires ∧ (v.timer t).expires < 2 ^ 63

/-- No queued timer expires before `expires_next`. -/
def Below (v : CpuView) : Prop := ∀ b, ∀ t ∈ v.queue b, v.cpuBase.expiresNext ≤ v.key b t

namespace QueueGood

theorem wrap64_le_key (h : QueueGood c v) (b : HrBase) (t : Nat) :
    wrap64 ((v.timer t).expires - v.offset b) ≤ v.key b t := by
  have he := h.expires t
  have ho := h.offset b
  exact (wrap64_le (by omega)).trans (le_max_right _ _)

theorem key_head_le (h : QueueGood c v) {rest : List Nat} (hq : v.queue b = t :: rest) {u : Nat}
    (hu : u ∈ v.queue b) : v.key b t ≤ v.key b u := by
  have hsorted := h.sorted b
  rw [hq] at hsorted hu
  rcases List.mem_cons.mp hu with rfl | hu
  · exact le_rfl
  · have hle := List.rel_of_pairwise_cons hsorted hu
    unfold key
    omega

theorem mem_activeList (h : QueueGood c v) (ht : t ∈ v.queue b) : b ∈ v.activeList := by
  refine List.mem_filter.mpr ⟨?_, h.active b (List.ne_nil_of_mem ht)⟩
  cases b <;> simp

end QueueGood

theorem nextEventBase_le (next : Int × Option Nat) : (v.nextEventBase next b).1 ≤ next.1 := by
  unfold nextEventBase
  split
  · exact le_rfl
  · dsimp only
    split_ifs with hlt
    · exact hlt.le
    · exact le_rfl

theorem foldl_nextEventBase_le (bs : List HrBase) (next : Int × Option Nat) :
    (bs.foldl v.nextEventBase next).1 ≤ next.1 := by
  induction bs generalizing next with
  | nil => exact le_rfl
  | cons b bs ih => exact (ih _).trans (nextEventBase_le next)

theorem foldl_nextEventBase_le_key (h : QueueGood c v) {bs : List HrBase} (hb : b ∈ bs)
    (ht : t ∈ v.queue b) (next : Int × Option Nat) :
    (bs.foldl v.nextEventBase next).1 ≤ v.key b t := by
  induction bs generalizing next with
  | nil => exact absurd hb List.not_mem_nil
  | cons b' bs ih =>
    rcases List.mem_cons.mp hb with rfl | hb
    · apply (foldl_nextEventBase_le bs _).trans
      unfold nextEventBase
      split
      · rename_i hnil
        exact absurd (hnil ▸ ht) List.not_mem_nil
      · rename_i head rest hq
        apply le_trans _ (h.key_head_le hq ht)
        dsimp only
        split_ifs with hlt
        · exact h.wrap64_le_key b head
        · exact (not_lt.mp hlt).trans (h.wrap64_le_key b head)
    · exact ih hb _

theorem getNextEvent_le (h : QueueGood c v) (ht : t ∈ v.queue b) :
    v.getNextEvent.1 ≤ v.key b t := by
  have hle := foldl_nextEventBase_le_key h (h.mem_activeList ht) ht (ktimeMax, none)
  unfold getNextEvent
  dsimp only
  split_ifs
  · exact le_max_left _ _
  · exact hle

theorem mem_timerqueueAdd {expires : Nat → Int} {x : Nat} :
    ∀ {q : List Nat}, x ∈ timerqueueAdd expires t q ↔ x = t ∨ x ∈ q
  | [] => by simp [timerqueueAdd]
  | ptr :: rest => by
    rw [timerqueueAdd]
    split_ifs
    · exact List.mem_cons
    · rw [List.mem_cons, mem_timerqueueAdd, List.mem_cons]
      exact or_left_comm

theorem pairwise_timerqueueAdd {expires : Nat → Int} :
    ∀ {q : List Nat}, q.Pairwise (fun x y => expires x ≤ expires y) →
      (timerqueueAdd expires t q).Pairwise fun x y => expires x ≤ expires y
  | [], _ => List.pairwise_singleton ..
  | ptr :: rest, h => by
    rw [timerqueueAdd]
    obtain ⟨hptr, hrest⟩ := List.pairwise_cons.mp h
    split_ifs with hlt
    · refine List.pairwise_cons.mpr ⟨?_, h⟩
      intro x hx
      rcases List.mem_cons.mp hx with rfl | hx
      · exact hlt.le
      · exact hlt.le.trans (hptr x hx)
    · refine List.pairwise_cons.mpr ⟨?_, pairwise_timerqueueAdd hrest⟩
      intro x hx
      rcases mem_timerqueueAdd.mp hx with rfl | hx
      · exact not_lt.mp hlt
      · exact hptr x hx

/-! ## The operations keep the queues -/

/-- If no hang holds it back, the device is programmed for `expires_next` or earlier. -/
def Ready (v : CpuView) : Prop :=
  v.cpuBase.hangDetected = false → v.dev ≤ v.cpuBase.expiresNext

/-- Only what is programmed differs. -/
structure SameQueues (v w : CpuView) : Prop where
  queue : w.queue = v.queue
  timer : w.timer = v.timer
  activeBases : w.cpuBase.activeBases = v.cpuBase.activeBases
  offset : w.offset = v.offset

theorem sameQueues_forceReprogram : SameQueues v (v.forceReprogram early) := by
  unfold forceReprogram
  dsimp only
  split_ifs <;> exact ⟨rfl, rfl, rfl, rfl⟩

theorem sameQueues_reprogram : SameQueues v (v.reprogram t b here early) := by
  unfold CpuView.reprogram
  dsimp only
  split_ifs <;> exact ⟨rfl, rfl, rfl, rfl⟩

theorem QueueGood.congr (h : QueueGood c v) (hs : SameQueues v w) : QueueGood c w := by
  obtain ⟨hqueue, htimer, hactive, hoffset⟩ := hs
  constructor <;> simp only [hqueue, htimer, hactive, hoffset]
  exacts [h.queued, h.sorted, h.active, h.offset, h.expires]

theorem forceReprogram_expiresNext :
    (v.forceReprogram early).cpuBase.expiresNext = v.getNextEvent.1 := by
  unfold forceReprogram
  dsimp only
  split_ifs with heq
  · exact heq.symm
  · rfl
  · rfl

theorem Ready.forceReprogram (h : Ready v) : Ready (v.forceReprogram early) := by
  intro hang
  rw [forceReprogram_expiresNext]
  rw [(moves_forceReprogram (t := 0)).hang] at hang
  unfold CpuView.forceReprogram
  dsimp only
  split_ifs with heq hhang
  · exact (h hang).trans heq.ge
  · exact absurd hhang (by simp [hang])
  · exact min_le_right _ _

theorem key_congr (hm : Moves t v w) {x : Nat} (hx : (w.timer x).expires = (v.timer x).expires)
    (b : HrBase) : w.key b x = v.key b x := by
  unfold key
  rw [hx, hm.offset]

theorem Below.congr (h : Below v) (hq : ∀ b, ∀ x ∈ w.queue b, x ∈ v.queue b)
    (hk : ∀ b, ∀ x ∈ w.queue b, w.key b x = v.key b x)
    (hn : w.cpuBase.expiresNext ≤ v.cpuBase.expiresNext) : Below w := by
  intro b x hx
  rw [hk b x hx]
  exact hn.trans (h b x (hq b x hx))

theorem timerqueueDel_queue (hne : ∀ b', b' ≠ b → t ∉ v.queue b') (b' : HrBase) :
    (v.timerqueueDel t b).queue b' = (v.queue b').filter (· ≠ t) := by
  have hset : ((v.setClockBase b ({ · with active := (v.queue b).filter (· ≠ t) })).queue b') =
      (v.queue b').filter (· ≠ t) := by
    by_cases hb : b' = b
    · subst hb
      exact queue_setClockBase_self _
    · rw [queue_setClockBase_of_ne _ hb, List.filter_eq_self.mpr]
      intro x hx
      exact decide_eq_true fun hxt => hne b' hb (hxt ▸ hx)
  unfold timerqueueDel
  dsimp only
  split_ifs
  · exact hset
  · exact hset

theorem timerqueueDel_active (h : ∀ b, v.queue b ≠ [] → v.cpuBase.activeBases b = true)
    (hne : ∀ b', b' ≠ b → t ∉ v.queue b') (b' : HrBase) (hq : (v.timerqueueDel t b).queue b' ≠ []) :
    (v.timerqueueDel t b).cpuBase.activeBases b' = true := by
  rw [timerqueueDel_queue hne] at hq
  have hb' : v.cpuBase.activeBases b' = true :=
    h b' fun hnil => hq (by rw [hnil, List.filter_nil])
  unfold timerqueueDel
  dsimp only
  split_ifs with hempty
  · have hb : b' ≠ b := fun hb => hq (hb ▸ hempty)
    simpa [setClockBase, hb] using hb'
  · exact hb'

theorem timerqueueDel_timer : (v.timerqueueDel t b).timer = v.timer := by
  unfold timerqueueDel
  dsimp only
  split_ifs <;> rfl

theorem timerqueueDel_expiresNext :
    (v.timerqueueDel t b).cpuBase.expiresNext = v.cpuBase.expiresNext := by
  unfold timerqueueDel
  dsimp only
  split_ifs <;> rfl

theorem removeHrtimer_expiresNext :
    (v.removeHrtimer t b false restart early).cpuBase.expiresNext = v.cpuBase.expiresNext := by
  unfold CpuView.removeHrtimer CpuView.removeTimer
  dsimp only
  split_ifs with henq hre
  · exact absurd hre.1 id
  · exact timerqueueDel_expiresNext
  · rfl

theorem Ready.removeHrtimer (h : Ready v) : Ready (v.removeHrtimer t b here restart early) := by
  have hdel : Ready ((v.setState t restart).timerqueueDel t b) := by
    unfold CpuView.timerqueueDel
    dsimp only
    split_ifs <;> exact h
  unfold CpuView.removeHrtimer CpuView.removeTimer
  dsimp only
  split_ifs
  · exact hdel.forceReprogram
  · exact hdel
  · exact h

theorem QueueGood.below_forceReprogram (h : QueueGood c v) : Below (v.forceReprogram early) := by
  intro b x hx
  rw [sameQueues_forceReprogram.queue] at hx
  rw [forceReprogram_expiresNext, key_congr (t := 0) moves_forceReprogram
    (by rw [sameQueues_forceReprogram.timer])]
  exact getNextEvent_le h hx

theorem enqueueHrtimer_queue_self : (v.enqueueHrtimer t b).queue b =
      timerqueueAdd (fun u => (v.timer u).expires) t (v.queue b) :=
  queue_setClockBase_self _

theorem enqueueHrtimer_queue_of_ne (h : b' ≠ b) : (v.enqueueHrtimer t b).queue b' = v.queue b' :=
  queue_setClockBase_of_ne _ h

theorem mem_enqueueHrtimer {x : Nat} (h : x ∈ (v.enqueueHrtimer t b).queue b') :
    (b' = b ∧ x = t) ∨ x ∈ v.queue b' := by
  by_cases hb : b' = b
  · subst hb
    rw [enqueueHrtimer_queue_self] at h
    exact (mem_timerqueueAdd.mp h).imp_left fun hx => ⟨rfl, hx⟩
  · rw [enqueueHrtimer_queue_of_ne hb] at h
    exact .inr h

theorem enqueueHrtimer_expires (x : Nat) :
    ((v.enqueueHrtimer t b).timer x).expires = (v.timer x).expires :=
  setState_expires true x

theorem enqueueHrtimer_enqueued : ((v.enqueueHrtimer t b).timer t).enqueued = true := by
  simp [enqueueHrtimer, setClockBase, setState, setTimer]

theorem key_enqueueHrtimer (b' : HrBase) (x : Nat) : (v.enqueueHrtimer t b).key b' x = v.key b' x :=
  key_congr moves_enqueueHrtimer (enqueueHrtimer_expires x) b'

theorem Below.enqueueHrtimer (h : Below v) (ht : v.cpuBase.expiresNext ≤ v.key b t) :
    Below (v.enqueueHrtimer t b) := by
  intro b' x hx
  rw [key_enqueueHrtimer]
  rcases mem_enqueueHrtimer hx with ⟨rfl, rfl⟩ | hx
  · exact ht
  · exact h b' x hx

theorem Below.le_key_of_not_first (h : Below v)
    (hf : isFirst (fun u => (v.timer u).expires) t (v.queue b) = false) :
    v.cpuBase.expiresNext ≤ v.key b t := by
  cases hq : v.queue b with
  | nil =>
    rw [hq] at hf
    exact absurd hf (by simp [isFirst])
  | cons next rest =>
    have hle : (v.timer next).expires ≤ (v.timer t).expires := by
      rw [hq] at hf
      exact not_lt.mp (of_decide_eq_false hf)
    have hnext := h b next (hq ▸ List.mem_cons_self)
    unfold key at hnext ⊢
    omega

theorem setExpires_self : ((v.setExpires t softexpires expires).timer t).expires = expires := by
  simp [setExpires, setTimer]

theorem QueueGood.setExpires (h : QueueGood c v) (ht : ∀ b', t ∉ v.queue b')
    (he : 0 ≤ expires ∧ expires < 2 ^ 63) : QueueGood c (v.setExpires t softexpires expires) := by
  have hm : Moves t v (v.setExpires t softexpires expires) := moves_setExpires
  have hsame : ∀ b', ∀ x ∈ v.queue b', (v.setExpires t softexpires expires).timer x = v.timer x :=
    fun b' x hx => hm.others x fun hxt => ht b' (hxt ▸ hx)
  refine ⟨?_, ?_, h.active, h.offset, ?_⟩
  · intro b' x hx
    rw [hsame b' x hx]
    exact h.queued b' x hx
  · intro b'
    apply (h.sorted b').imp_of_mem
    intro x y hx hy hxy
    rwa [hsame b' x hx, hsame b' y hy]
  · intro x
    by_cases hx : x = t
    · rw [hx, setExpires_self]
      exact he
    · rw [hm.others x hx]
      exact h.expires x

theorem Below.setExpires (h : Below v) (ht : ∀ b', t ∉ v.queue b') :
    Below (v.setExpires t softexpires expires) := by
  apply h.congr
  · exact fun _ _ hx => hx
  · intro b' x hx
    have hxt : x ≠ t := fun hxt => ht b' (hxt ▸ hx)
    apply key_congr moves_setExpires
    rw [moves_setExpires.others x hxt]
  · exact le_rfl

theorem Ready.reprogram (h : Ready v) : Ready (v.reprogram t b here early) := by
  unfold CpuView.reprogram
  dsimp only
  generalize (if wrap64 ((v.timer t).expires - v.offset b) < 0 then 0
      else wrap64 ((v.timer t).expires - v.offset b)) = expires
  split_ifs with hhere hirq hlate hhang
  · exact h
  · exact h
  · exact h
  · intro hang
    exact absurd hhang (Bool.not_eq_true _ ▸ hang)
  · exact fun _ => min_le_right _ _

theorem QueueGood.below_reprogram (h : QueueGood c v) (hirq : v.cpuBase.inHrtirq = false)
    (hothers : ∀ b', ∀ x ∈ v.queue b', (b' = b ∧ x = t) ∨ v.cpuBase.expiresNext ≤ v.key b' x) :
    Below (v.reprogram t b true early) := by
  have hkey := h.wrap64_le_key b t
  have hzero : 0 ≤ v.key b t := le_max_left _ _
  have hle : ∀ n, n ≤ v.cpuBase.expiresNext → n ≤ v.key b t →
      ∀ b', ∀ x ∈ v.queue b', n ≤ v.key b' x := by
    intro n hn ht b' x hx
    rcases hothers b' x hx with ⟨rfl, rfl⟩ | hx
    · exact ht
    · exact hn.trans hx
  have hfirst : (if wrap64 ((v.timer t).expires - v.offset b) < 0 then 0
      else wrap64 ((v.timer t).expires - v.offset b)) ≤ v.key b t := by
    split_ifs
    · exact hzero
    · exact hkey
  unfold CpuView.reprogram
  dsimp only
  rw [if_neg (by decide), if_neg (by simp [hirq])]
  generalize (if wrap64 ((v.timer t).expires - v.offset b) < 0 then 0
      else wrap64 ((v.timer t).expires - v.offset b)) = expires at hfirst ⊢
  split_ifs with hlate hhang
  · exact hle _ le_rfl (hlate.trans hfirst)
  · exact hle _ (not_le.mp hlate).le hfirst
  · exact hle _ (not_le.mp hlate).le hfirst

/-! ## Starting a timer -/

/-- If no hang holds it back, the device is programmed for the queued timers. -/
def Armed (v : CpuView) : Prop :=
  v.cpuBase.hangDetected = false → v.dev ≤ v.cpuBase.expiresNext ∧ Below v

theorem start_away : v.start t b false softexpires expires early early' =
      (v.unqueue t b false softexpires expires early).enqueueHrtimer t b := by
  unfold CpuView.start
  dsimp only
  split_ifs
  · rfl
  · rfl

theorem start_away_expiresNext :
    (v.start t b false softexpires expires early early').cpuBase.expiresNext =
      v.cpuBase.expiresNext := by
  rw [start_away]
  exact removeHrtimer_expiresNext

section Start

variable (h : QueueGood c v) (hbase : (v.timer t).base = some (c, b))
include h hbase

theorem QueueGood.not_mem_of_ne (b' : HrBase) (hb : b' ≠ b) : t ∉ v.queue b' := by
  intro ht
  have heq := Option.some_inj.mp ((h.queued b' t ht).1.symm.trans hbase)
  exact hb (congrArg Prod.snd heq)

theorem QueueGood.timerqueueDel : QueueGood c ((v.setState t newstate).timerqueueDel t b) := by
  have hne := h.not_mem_of_ne hbase
  have hm : Moves t v ((v.setState t newstate).timerqueueDel t b) :=
    moves_setState.trans moves_timerqueueDel
  have hq := timerqueueDel_queue (v := v.setState t newstate) hne
  have hexp : ∀ x, (((v.setState t newstate).timerqueueDel t b).timer x).expires =
      (v.timer x).expires := by
    intro x
    rw [timerqueueDel_timer, setState_expires]
  refine ⟨?_, ?_, ?_, ?_, ?_⟩
  · intro b' x hx
    rw [hq] at hx
    obtain ⟨hx, hxt⟩ := List.mem_filter.mp hx
    rw [hm.others x (of_decide_eq_true hxt)]
    exact h.queued b' x hx
  · intro b'
    rw [hq]
    simp only [hexp]
    exact (h.sorted b').filter _
  · exact timerqueueDel_active h.active hne
  · intro b'
    rw [hm.offset]
    exact h.offset b'
  · intro x
    rw [hexp]
    exact h.expires x

theorem QueueGood.removeHrtimer : QueueGood c (v.removeHrtimer t b here restart early) := by
  unfold CpuView.removeHrtimer CpuView.removeTimer
  dsimp only
  split_ifs
  · exact (h.timerqueueDel hbase).congr sameQueues_forceReprogram
  · exact h.timerqueueDel hbase
  · exact h

theorem QueueGood.removeHrtimer_queue (b' : HrBase) :
    (v.removeHrtimer t b here restart early).queue b' = (v.queue b').filter (· ≠ t) := by
  have hne := h.not_mem_of_ne hbase
  unfold CpuView.removeHrtimer CpuView.removeTimer
  dsimp only
  split_ifs with henq
  · rw [sameQueues_forceReprogram.queue]
    exact timerqueueDel_queue (v := v.setState t restart) hne b'
  · exact timerqueueDel_queue (v := v.setState t restart) hne b'
  · rw [List.filter_eq_self.mpr]
    intro x hx
    refine decide_eq_true fun hxt => henq ?_
    rw [← hxt]
    exact (h.queued b' x hx).2

theorem QueueGood.below_removeHrtimer (hv : Below v) :
    Below (v.removeHrtimer t b here restart early) := by
  have hdel : Below ((v.setState t restart).timerqueueDel t b) := by
    apply hv.congr
    · intro b' x hx
      rw [timerqueueDel_queue (v := v.setState t restart) (h.not_mem_of_ne hbase)] at hx
      exact (List.mem_filter.mp hx).1
    · intro b' x _
      apply key_congr (moves_setState.trans moves_timerqueueDel)
      rw [timerqueueDel_timer, setState_expires]
    · exact timerqueueDel_expiresNext.le
  unfold CpuView.removeHrtimer CpuView.removeTimer
  dsimp only
  split_ifs
  · exact (h.timerqueueDel hbase).below_forceReprogram
  · exact hdel
  · exact hv

theorem QueueGood.enqueueHrtimer (ht : ∀ b', t ∉ v.queue b') :
    QueueGood c (v.enqueueHrtimer t b) := by
  have hm : Moves t v (v.enqueueHrtimer t b) := moves_enqueueHrtimer
  refine ⟨?_, ?_, ?_, ?_, ?_⟩
  · intro b' x hx
    rcases mem_enqueueHrtimer hx with ⟨rfl, rfl⟩ | hx
    · exact ⟨(hm.base x).trans hbase, enqueueHrtimer_enqueued⟩
    · have hxt : x ≠ t := fun hxt => ht b' (hxt ▸ hx)
      rw [hm.others x hxt]
      exact h.queued b' x hx
  · intro b'
    simp only [enqueueHrtimer_expires]
    by_cases hb : b' = b
    · subst hb
      rw [enqueueHrtimer_queue_self]
      exact pairwise_timerqueueAdd (h.sorted b')
    · rw [enqueueHrtimer_queue_of_ne hb]
      exact h.sorted b'
  · intro b' hq
    by_cases hb : b' = b
    · subst hb
      simp [CpuView.enqueueHrtimer, setClockBase]
    · rw [enqueueHrtimer_queue_of_ne hb] at hq
      simpa [CpuView.enqueueHrtimer, setClockBase, setState, setTimer, hb] using h.active b' hq
  · intro b'
    rw [hm.offset]
    exact h.offset b'
  · intro x
    rw [enqueueHrtimer_expires]
    exact h.expires x

theorem QueueGood.not_mem_removeHrtimer (b' : HrBase) :
    t ∉ (v.removeHrtimer t b here restart early).queue b' := by
  intro ht
  rw [h.removeHrtimer_queue hbase] at ht
  exact of_decide_eq_true (List.mem_filter.mp ht).2 rfl

theorem QueueGood.unqueue (he : 0 ≤ expires ∧ expires < 2 ^ 63) :
    QueueGood c (v.unqueue t b here softexpires expires early) :=
  (h.removeHrtimer hbase).setExpires (h.not_mem_removeHrtimer hbase) he

theorem QueueGood.below_unqueue (hb : Below v) :
    Below (v.unqueue t b here softexpires expires early) :=
  (h.below_removeHrtimer hbase hb).setExpires (h.not_mem_removeHrtimer hbase)

section

variable (he : 0 ≤ expires ∧ expires < 2 ^ 63)
include he

theorem QueueGood.requeue :
    QueueGood c ((v.unqueue t b here softexpires expires early).enqueueHrtimer t b) :=
  (h.unqueue hbase he).enqueueHrtimer ((moves_unqueue.base t).trans hbase)
    (h.not_mem_removeHrtimer hbase)

theorem QueueGood.start : QueueGood c (v.start t b here softexpires expires early early') := by
  unfold CpuView.start
  dsimp only
  split_ifs
  · exact (h.requeue hbase he).congr sameQueues_reprogram
  · exact h.requeue hbase he

theorem QueueGood.armed_start (hirq : v.cpuBase.inHrtirq = false) (ha : Armed v) :
    Armed (v.start t b true softexpires expires early early') := by
  intro hang
  have hang' := hang
  rw [moves_start.hang] at hang'
  obtain ⟨hdev, hbelow⟩ := ha hang'
  have hready : Ready ((v.unqueue t b true softexpires expires early).enqueueHrtimer t b) :=
    Ready.removeHrtimer fun _ => hdev
  have hbelow1 : Below (v.unqueue t b true softexpires expires early) :=
    h.below_unqueue hbase hbelow
  have hirq' : ((v.unqueue t b true softexpires expires early).enqueueHrtimer t b).cpuBase.inHrtirq
      = false := (moves_unqueue.trans moves_enqueueHrtimer).irq.trans hirq
  unfold CpuView.start at hang ⊢
  dsimp only at hang ⊢
  split_ifs at hang ⊢ with hfirst
  · refine ⟨hready.reprogram hang, (h.requeue hbase he).below_reprogram hirq' ?_⟩
    intro b' x hx
    refine (mem_enqueueHrtimer hx).imp_right fun hx => ?_
    rw [key_enqueueHrtimer]
    exact hbelow1 b' x hx
  · exact ⟨hready hang,
      hbelow1.enqueueHrtimer (hbelow1.le_key_of_not_first (Bool.not_eq_true _ ▸ hfirst))⟩

end

theorem QueueGood.below_start_away (hb : Below v)
    (hlate : v.cpuBase.expiresNext ≤ max 0 (expires - v.offset b)) :
    Below (v.start t b false softexpires expires early early') := by
  rw [start_away]
  apply (h.below_unqueue hbase hb).enqueueHrtimer
  have hkey : (v.unqueue t b false softexpires expires early).key b t =
      max 0 (expires - v.offset b) := by
    rw [key, moves_unqueue.offset, CpuView.unqueue, setExpires_self]
  rw [hkey]
  exact removeHrtimer_expiresNext.trans_le hlate

end Start

end CpuView

end MinixRt.Time
