import MinixRt.Lib.Machine
import MinixRt.Mm.Space
import Mathlib.Data.Nat.ModEq

/-!
# Clock sources and the monotonic time

The time is kept as seconds and scaled nanoseconds up to the counter value `cycle_last` of the
current clock source, and `ktime_get` adds what the counter has advanced since. `update_wall_time`
moves `cycle_last` forward without changing the time. When another clock source becomes the best
one, `timekeeping_init` runs again and sets the time to zero.

A clock source is named by its address. What a read of a counter returns is part of the action; it
is never below the last read of the same counter, and it has the width of the counter.
-/

namespace MinixRt.Time

open List Function Lib Machine
open Option (bind_eq_some_iff map_eq_some_iff some_inj)
open MinixRt.Mm (u64 sub64 sub64_of_le)

/-! ## Clock sources -/

/-- `struct clocksource`; its mask has `bits` ones. -/
structure Clocksource where
  id : Nat
  rating : Int
  bits : Nat
  mult : Nat
  shift : Nat
  /-- `CLOCK_SOURCE_IS_CONTINUOUS` -/
  continuous : Bool
  /-- `CLOCK_SOURCE_VALID_FOR_HRES` -/
  hres : Bool
  deriving DecidableEq

def nsecPerSec : Nat := 1000000000

/-- The second loop of `clocks_calc_mult_shift`, from `sft` on. -/
def findShift (freq rate sftacc : Nat) : Nat → Nat × Nat
  | 0 => (0, 0)
  | sft + 1 =>
    let tmp := (rate * 2 ^ (sft + 1) + freq / 2) / freq
    if tmp / 2 ^ sftacc = 0 then (tmp % 2 ^ 32, sft + 1)
    -- `tmp` keeps the value of the last round
    else if sft = 0 then (tmp % 2 ^ 32, 0)
    else findShift freq rate sftacc sft

/-- `sftacc` after the first loop: one less for every bit of `tmp`. -/
def shiftAcc (tmp : Nat) : Nat := if tmp = 0 then 32 else 31 - tmp.log2

def clocksCalcMultShift (freq rate maxsec : Nat) : Nat × Nat :=
  findShift freq rate (shiftAcc (maxsec * freq / 2 ^ 32)) 32

/-- The loop of `__clocksource_update_freq_scale`; both numbers are `u32`. -/
def keepAdjustable : (fuel : Nat) → Nat × Nat → Nat × Nat
  | 0, scale => scale
  | fuel + 1, (mult, shift) =>
    if 2 ^ 32 ≤ mult + mult * 11 / 100 then
      keepAdjustable fuel (mult / 2, (shift + (2 ^ 32 - 1)) % 2 ^ 32)
    else (mult, shift)

/-- The seconds for which the conversion has to be exact. -/
def maxSeconds (scale freq mask : Nat) : Nat :=
  let sec := mask / freq / scale
  if sec = 0 then 1 else if 600 < sec ∧ 2 ^ 32 ≤ mask then 600 else sec

/-- `mult` and `shift` for a frequency. -/
def freqScale (scale freq mask : Nat) : Nat × Nat :=
  keepAdjustable 32 (clocksCalcMultShift freq (nsecPerSec / scale)
    (maxSeconds scale freq mask * scale % 2 ^ 32))

def Clocksource.withScale (cs : Clocksource) (kept : Nat × Nat) : Clocksource :=
  { cs with mult := kept.1, shift := kept.2 }

def updateFreqScale (scale freq : Nat) (cs : Clocksource) : Clocksource :=
  if freq = 0 then cs else cs.withScale (freqScale scale freq (2 ^ cs.bits - 1))

def enqueue (cs : Clocksource) : List Clocksource → List Clocksource
  | [] => [cs]
  | tmp :: rest => if tmp.rating < cs.rating then cs :: tmp :: rest else tmp :: enqueue cs rest

/-- The sources that `skipcur` does not leave out. -/
def candidates (list : List Clocksource) (curr : Option Nat) (skipcur : Bool) : List Clocksource :=
  list.filter fun cs => ¬ (skipcur = true ∧ curr = some cs.id)

/-- The source `best` at the end of the loop of `__clocksource_select`: the first one that is
suitable, or the first one of all if it is. -/
def bestSource (list : List Clocksource) (curr : Option Nat) (skipcur oneshot : Bool) :
    Option Clocksource :=
  match (candidates list curr skipcur).find? fun cs => ¬ (oneshot = true ∧ cs.hres = false) with
  | none => none
  | some best =>
    match candidates list curr skipcur with
    | [] => some best
    | cs :: _ => if cs.hres = false ∧ oneshot = true then some best else some cs

/-! ## The time -/

structure Timekeeper where
  clock : Option Nat
  bits : Nat
  mult : Nat
  shift : Nat
  cycleLast : Nat
  ktimeNsec : Nat
  ktimeSec : Nat
  offsReal : Int
  deriving DecidableEq

/-- A `s64`. -/
def int64 (n : Nat) : Int := (BitVec.ofNat 64 n).toInt

namespace Timekeeper

def delta (tk : Timekeeper) (now : Nat) : Nat := sub64 now tk.cycleLast % 2 ^ tk.bits

/-- `timekeeping_get_ns`. A shift by a register takes its amount modulo 64. -/
def getNs (tk : Timekeeper) (now : Nat) : Nat :=
  u64 (tk.delta now * tk.mult + tk.ktimeNsec) / 2 ^ (tk.shift % 64)

/-- What `ktime_get` returns. -/
def ktimeGet (tk : Timekeeper) (now : Nat) : Int :=
  int64 (u64 (tk.ktimeSec * nsecPerSec) + tk.getNs now)

/-- The loop of `tk_normalize_xtime`, with a second in scaled nanoseconds. -/
def normalize (second : Nat) : (fuel sec nsec : Nat) → Nat × Nat
  | 0, sec, nsec => (sec, nsec)
  | fuel + 1, sec, nsec =>
    if second ≤ nsec then normalize second fuel (u64 (sec + 1)) (nsec - second) else (sec, nsec)

/-- `timekeeping_forward_now`. A second that is shifted out makes the loop endless. -/
def forwardNow (now : Nat) (tk : Timekeeper) : Option Timekeeper :=
  let second := u64 (nsecPerSec * 2 ^ (tk.shift % 64))
  if second = 0 then none
  else
    let nsec := u64 (tk.ktimeNsec + tk.delta now * tk.mult)
    let (ktimeSec, ktimeNsec) := normalize second nsec tk.ktimeSec nsec
    some { tk with cycleLast := now, ktimeSec, ktimeNsec }

/-- What `ktime_get_real` returns. -/
def ktimeGetReal (tk : Timekeeper) (now : Nat) : Int :=
  (BitVec.ofInt 64 (u64 (tk.ktimeSec * nsecPerSec) + (tk.getNs now + tk.offsReal))).toInt

def setupInternals (cs : Clocksource) (now : Nat) : Timekeeper where
  clock := some cs.id
  bits := cs.bits
  mult := cs.mult
  shift := cs.shift
  cycleLast := now
  ktimeNsec := 0
  ktimeSec := 0
  offsReal := 0

/-- `tk_set_xtime`, with the time in nanoseconds. -/
def setXtime (ns : Int) (now : Nat) (tk : Timekeeper) : Timekeeper :=
  { tk with offsReal := ns - tk.ktimeGet now }

end Timekeeper

structure TimeState where
  list : List Clocksource
  curr : Option Nat
  /-- The last value read of a counter. -/
  counter : Nat → Nat
  tk : Timekeeper
  /-- What the calls of `ktime_get` have returned so far. -/
  gets : List Int

namespace TimeState

def read (id bits now : Nat) (s : TimeState) : Option TimeState :=
  if s.counter id ≤ now ∧ now < 2 ^ bits ∧ now < 2 ^ 64 then
    some { s with counter := update s.counter id now }
  else none

def clockRead (now : Nat) (s : TimeState) : Option TimeState :=
  s.tk.clock.bind fun id => s.read id s.tk.bits now

/-- `timekeeping_init` for a new current clock source, which is read twice. -/
def timekeepingInit (cs : Clocksource) (now now' : Nat) (s : TimeState) : Option TimeState :=
  (s.read cs.id cs.bits now).bind fun s =>
    (clockRead now' { s with tk := .setupInternals cs now }).map fun s =>
      { s with tk := s.tk.setXtime 0 now' }

def select (skipcur oneshot : Bool) (now now' : Nat) (s : TimeState) : Option TimeState :=
  match bestSource s.list s.curr skipcur oneshot with
  | none => some s
  | some best =>
    if s.curr = some best.id then some s
    else { s with curr := some best.id }.timekeepingInit best now now'

end TimeState

/-- `now` and `now'` are what reads return, `oneshot` is `tick_oneshot_mode_active`. -/
inductive TimeAct
  /-- `__clocksource_register_scale` of a source that is not registered -/
  | register (cs : Clocksource) (scale freq : Nat) (oneshot : Bool) (now now' : Nat)
  | changeRating (id : Nat) (rating : Int) (oneshot : Bool) (now now' : Nat)
  | unregister (id : Nat) (oneshot : Bool) (now now' : Nat)
  | updateWallTime (now : Nat)
  | doSettimeofday64 (sec nsec : Int) (now now' : Nat)
  | ktimeGet (now : Nat)

def registered (cs : Clocksource) (scale freq : Nat) (list : List Clocksource) :
    List Clocksource :=
  let cs := updateFreqScale scale freq cs
  enqueue { cs with hres := cs.hres || cs.continuous } list

/-- The list after `__clocksource_change_rating`. -/
def rerated (cs : Clocksource) (rating : Int) (list : List Clocksource) : List Clocksource :=
  enqueue { cs with rating } (list.filter (·.id ≠ cs.id))

def validStrict (sec nsec : Int) : Bool :=
  0 ≤ sec ∧ 0 ≤ nsec ∧ nsec < nsecPerSec ∧ sec < (2 ^ 63 - 1) / nsecPerSec

def timeStep (s : TimeState) : TimeAct → Option TimeState
  | .register cs scale freq oneshot now now' =>
    if s.list.any (·.id = cs.id) then none
    else { s with list := registered cs scale freq s.list }.select false oneshot now now'
  | .changeRating id rating oneshot now now' =>
    (s.list.find? (·.id = id)).bind fun cs =>
      { s with list := rerated cs rating s.list }.select false oneshot now now'
  | .unregister id oneshot now now' =>
    if s.list.any (·.id = id) then
      if s.curr = some id then
        (s.select true oneshot now now').map fun s =>
          -- `-EBUSY` if there is no other source
          if s.curr = some id then s else { s with list := s.list.filter (·.id ≠ id) }
      else some { s with list := s.list.filter (·.id ≠ id) }
    else some s
  | .updateWallTime now =>
    (s.clockRead now).bind fun s => (s.tk.forwardNow now).map fun tk => { s with tk }
  | .doSettimeofday64 sec nsec now now' =>
    if validStrict sec nsec then
      (s.clockRead now).bind fun s =>
        (s.tk.forwardNow now).bind fun tk => (TimeState.clockRead now' { s with tk }).map fun s =>
          { s with tk := s.tk.setXtime (sec * nsecPerSec + nsec) now' }
    else some s
  | .ktimeGet now =>
    (s.clockRead now).map fun s => { s with gets := s.gets ++ [s.tk.ktimeGet now] }

def timeMachine : Machine TimeState TimeAct where
  init s := s.list = [] ∧ s.curr = none ∧ s.tk.clock = none ∧ s.gets = []
  step := timeStep

/-! ## What should hold, and when -/

/-- The time when the counter is at `now`. -/
def Timekeeper.timeAt (tk : Timekeeper) (now : Nat) : Nat :=
  tk.ktimeSec * nsecPerSec + ((now - tk.cycleLast) * tk.mult + tk.ktimeNsec) / 2 ^ tk.shift

/-- The time when the counter has advanced by `d`. -/
def Timekeeper.timeAfter (tk : Timekeeper) (d : Nat) : Nat :=
  tk.ktimeSec * nsecPerSec + (d * tk.mult + tk.ktimeNsec) / 2 ^ tk.shift

/-- `update_wall_time` runs often enough, and the time fits into a `ktime_t`. -/
def Timekeeper.inRange (tk : Timekeeper) (now : Nat) : Bool :=
  (now - tk.cycleLast) * tk.mult + tk.ktimeNsec < 2 ^ 64 ∧ tk.timeAt now < 2 ^ 63

/-- No `ktime_get` has returned a positive time. -/
def TimeState.fresh (s : TimeState) : Bool := s.gets.all (· ≤ 0)

def staysBest (list : List Clocksource) (curr : Option Nat) (skipcur oneshot : Bool) : Bool :=
  (bestSource list curr skipcur oneshot).all fun best => curr = some best.id

def TimeAct.noOverflow (s : TimeState) : TimeAct → Bool
  | .updateWallTime now => s.tk.inRange now
  | .doSettimeofday64 _ _ now _ => s.tk.inRange now
  | .ktimeGet now => s.tk.inRange now
  | _ => true

/-- A source that brings its own `shift` has a moderate one, and the clock source is changed only
while no positive time has been returned. -/
def TimeAct.calm (s : TimeState) : TimeAct → Bool
  | .register cs scale freq oneshot _ _ =>
    (freq ≠ 0 ∨ cs.shift ≤ 34) ∧
      (s.fresh ∨ staysBest (registered cs scale freq s.list) s.curr false oneshot)
  | .changeRating id rating oneshot _ _ =>
    s.fresh ∨ (s.list.find? (·.id = id)).all fun cs =>
      staysBest (rerated cs rating s.list) s.curr false oneshot
  | .unregister id oneshot _ _ =>
    s.fresh ∨ s.curr ≠ some id ∨ staysBest s.list s.curr true oneshot
  | _ => true

/-! ## The shift of a clock source -/

theorem findShift_le (freq rate sftacc : Nat) : ∀ sft, (findShift freq rate sftacc sft).2 ≤ sft
  | 0 => le_rfl
  | sft + 1 => by
    rw [findShift]
    split_ifs
    · exact le_rfl
    · exact Nat.zero_le _
    · exact (findShift_le freq rate sftacc sft).trans (Nat.le_succ sft)

theorem findShift_mult_lt (freq rate sftacc : Nat) :
    ∀ sft, (findShift freq rate sftacc sft).1 < 2 ^ 32
  | 0 => Nat.two_pow_pos 32
  | sft + 1 => by
    rw [findShift]
    split_ifs
    · exact Nat.mod_lt _ (by decide)
    · exact Nat.mod_lt _ (by decide)
    · exact findShift_mult_lt freq rate sftacc sft

theorem findShift_mult_le (freq rate sftacc : Nat) : ∀ sft, (findShift freq rate sftacc sft).2 = 0 →
      (findShift freq rate sftacc sft).1 ≤ 2 * rate + 1
  | 0 => fun _ => Nat.zero_le _
  | sft + 1 => by
    rw [findShift]
    split_ifs with hfit hzero
    · exact False.elim
    · intro _
      subst hzero
      apply (Nat.mod_le _ _).trans
      rcases Nat.eq_zero_or_pos freq with hf | hf
      · rw [hf, Nat.div_zero]
        exact Nat.zero_le _
      · apply Nat.div_le_of_le_mul
        have : rate * 2 ^ (0 + 1) ≤ freq * (2 * rate) := by
          calc rate * 2 ^ (0 + 1) = 1 * (2 * rate) := by ring
            _ ≤ freq * (2 * rate) := Nat.mul_le_mul_right _ hf
        rw [Nat.mul_add, Nat.mul_one]
        omega
    · exact findShift_mult_le freq rate sftacc sft

variable {mult shift : Nat}

theorem keepAdjustable_of_small (h : mult ≤ 2 ^ 31) :
    ∀ fuel, keepAdjustable fuel (mult, shift) = (mult, shift)
  | 0 => rfl
  | fuel + 1 => by
    rw [keepAdjustable, if_neg (by omega)]

theorem keepAdjustable_shift_le (hm : mult < 2 ^ 32) (hs : shift ≤ 32)
    (h : shift = 0 → mult ≤ 2 ^ 31) (fuel : Nat) : (keepAdjustable fuel (mult, shift)).2 ≤ 32 := by
  rcases Nat.eq_zero_or_pos shift with hz | hz
  · rw [keepAdjustable_of_small (h hz)]
    exact hs
  · cases fuel with
    | zero => exact hs
    | succ =>
      rw [keepAdjustable]
      split_ifs
      · rw [keepAdjustable_of_small (by omega)]
        show (shift + (2 ^ 32 - 1)) % 2 ^ 32 ≤ 32
        omega
      · exact hs

theorem freqScale_shift_le (scale freq mask : Nat) : (freqScale scale freq mask).2 ≤ 32 := by
  unfold freqScale clocksCalcMultShift
  generalize shiftAcc _ = sftacc
  have hm := findShift_mult_lt freq (nsecPerSec / scale) sftacc 32
  have hs := findShift_le freq (nsecPerSec / scale) sftacc 32
  have hz := findShift_mult_le freq (nsecPerSec / scale) sftacc 32
  have hrate : nsecPerSec / scale ≤ 1000000000 := Nat.div_le_self _ _
  generalize findShift freq (nsecPerSec / scale) sftacc 32 = found at hm hs hz ⊢
  obtain ⟨mult, shift⟩ := found
  exact keepAdjustable_shift_le hm hs (fun h => (hz h).trans (by omega)) 32

theorem Clocksource.withScale_shift (cs : Clocksource) (kept : Nat × Nat) :
    (cs.withScale kept).shift = kept.2 := rfl

theorem updateFreqScale_shift_le {scale freq : Nat} {cs : Clocksource}
    (h : freq ≠ 0 ∨ cs.shift ≤ 34) : (updateFreqScale scale freq cs).shift ≤ 34 := by
  unfold updateFreqScale
  split_ifs with hf
  · exact h.resolve_left (fun hne => hne hf)
  · rw [Clocksource.withScale_shift]
    exact (freqScale_shift_le scale freq (2 ^ cs.bits - 1)).trans (by decide)

theorem mem_enqueue {cs x : Clocksource} :
    ∀ {list : List Clocksource}, x ∈ enqueue cs list → x = cs ∨ x ∈ list
  | [], h => .inl (mem_singleton.mp h)
  | tmp :: rest, h => by
    rw [enqueue] at h
    split_ifs at h
    · exact mem_cons.mp h
    · rcases mem_cons.mp h with h | h
      · exact .inr (h ▸ mem_cons_self)
      · exact (mem_enqueue h).imp_right (mem_cons_of_mem tmp)

theorem mem_of_bestSource {list : List Clocksource} {curr : Option Nat} {skipcur oneshot : Bool}
    {best : Clocksource} (h : bestSource list curr skipcur oneshot = some best) : best ∈ list := by
  have hsub : ∀ cs ∈ candidates list curr skipcur, cs ∈ list :=
    fun cs hcs => (mem_filter.mp hcs).1
  unfold bestSource at h
  split at h
  · exact absurd h (by simp)
  · rename_i first hfirst
    have hmem := hsub first (mem_of_find?_eq_some hfirst)
    split at h
    · exact some_inj.mp h ▸ hmem
    · rename_i cs rest hc
      split_ifs at h
      · exact some_inj.mp h ▸ hmem
      · exact some_inj.mp h ▸ hsub cs (hc ▸ mem_cons_self)

/-! ## The time is what the counter says -/

namespace Timekeeper

variable {tk tk' : Timekeeper} {now now' d : Nat}

theorem normalize_sum {second : Nat} :
    ∀ (fuel : Nat) {sec nsec : Nat}, sec * second + nsec < 2 ^ 64 * second →
      (normalize second fuel sec nsec).1 * second + (normalize second fuel sec nsec).2 =
        sec * second + nsec
  | 0, _, _, _ => rfl
  | fuel + 1, sec, nsec, h => by
    rw [normalize]
    split_ifs with hle
    · have hsplit : (sec + 1) * second + (nsec - second) = sec * second + nsec := by
        rw [Nat.add_mul]
        omega
      have hlt : sec + 1 < 2 ^ 64 := by
        apply Nat.lt_of_mul_lt_mul_right (a := second)
        omega
      rw [u64, Nat.mod_eq_of_lt hlt, normalize_sum fuel (hsplit.trans_lt h), hsplit]
    · rfl

theorem second_eq {shift : Nat} (hs : shift ≤ 34) :
    u64 (nsecPerSec * 2 ^ (shift % 64)) = nsecPerSec * 2 ^ shift := by
  have hpow : 2 ^ shift ≤ 2 ^ 34 := Nat.pow_le_pow_right (by decide) hs
  rw [Nat.mod_eq_of_lt (show shift < 64 by omega)]
  apply Nat.mod_eq_of_lt
  unfold nsecPerSec
  omega

theorem exists_forwardNow (hs : tk.shift ≤ 34) (now : Nat) :
    ∃ tk', tk.forwardNow now = some tk' := by
  have hpos : nsecPerSec * 2 ^ tk.shift ≠ 0 := Nat.mul_ne_zero (by decide) (NeZero.ne _)
  simp only [forwardNow, second_eq hs, if_neg hpos]
  exact ⟨_, rfl⟩

theorem forwardNow_fields (h : tk.forwardNow now = some tk') : ∃ ktimeSec ktimeNsec,
    tk' = { tk with cycleLast := now, ktimeSec, ktimeNsec } := by
  simp only [forwardNow] at h
  split_ifs at h
  exact ⟨_, _, (some_inj.mp h).symm⟩

theorem timeAt_mono (tk : Timekeeper) (h : now ≤ now') : tk.timeAt now ≤ tk.timeAt now' := by
  unfold timeAt
  gcongr

theorem timeAfter_eq_div (tk : Timekeeper) (d : Nat) :
    tk.timeAfter d = (tk.ktimeSec * (nsecPerSec * 2 ^ tk.shift) +
      (d * tk.mult + tk.ktimeNsec)) / 2 ^ tk.shift := by
  rw [timeAfter, ← Nat.mul_assoc, Nat.add_comm, Nat.add_comm (_ * 2 ^ _),
    Nat.add_mul_div_right _ _ (Nat.two_pow_pos _)]

theorem int64_of_lt {n : Nat} (h : n < 2 ^ 63) : int64 n = n := by
  rw [int64, BitVec.toInt_eq_toNat_of_lt, BitVec.toNat_ofNat, Nat.mod_eq_of_lt (by omega)]
  rw [BitVec.toNat_ofNat, Nat.mod_eq_of_lt (by omega)]
  omega

section After

variable (hs : tk.shift ≤ 34) (hd : tk.delta now = d)
  (hsum : d * tk.mult + tk.ktimeNsec < 2 ^ 64) (htime : tk.timeAfter d < 2 ^ 63)
include hs hd hsum htime

theorem getNs_eq : u64 (tk.ktimeSec * nsecPerSec) + tk.getNs now = tk.timeAfter d := by
  have hsec : tk.ktimeSec * nsecPerSec ≤ tk.timeAfter d := Nat.le_add_right _ _
  rw [getNs, hd, u64, u64, Nat.mod_eq_of_lt hsum, Nat.mod_eq_of_lt (show tk.shift < 64 by omega),
    Nat.mod_eq_of_lt (by omega), timeAfter]

theorem ktimeGet_eq_timeAfter : tk.ktimeGet now = tk.timeAfter d := by
  rw [ktimeGet, getNs_eq hs hd hsum htime]
  exact int64_of_lt htime

theorem timeAfter_forwardNow (h : tk.forwardNow now = some tk') (e : Nat) :
    tk'.timeAfter e = tk.timeAfter (d + e) := by
  have hnsec : u64 (tk.ktimeNsec + tk.delta now * tk.mult) = d * tk.mult + tk.ktimeNsec := by
    rw [hd, Nat.add_comm]
    exact Nat.mod_eq_of_lt hsum
  have hlt : tk.ktimeSec * (nsecPerSec * 2 ^ tk.shift) + (d * tk.mult + tk.ktimeNsec) <
      2 ^ 64 * (nsecPerSec * 2 ^ tk.shift) := by
    rw [timeAfter_eq_div] at htime
    have hdiv := (Nat.div_lt_iff_lt_mul (Nat.two_pow_pos _)).mp htime
    apply hdiv.trans_le
    rw [← Nat.mul_assoc]
    exact Nat.mul_le_mul_right _ (by decide)
  simp only [forwardNow, second_eq hs, hnsec] at h
  split_ifs at h with hzero
  obtain rfl := some_inj.mp h
  have hkeep := normalize_sum (d * tk.mult + tk.ktimeNsec) hlt
  rw [timeAfter_eq_div, timeAfter_eq_div, Nat.add_mul]
  congr 1
  dsimp only
  omega

end After

section At

variable (hle : tk.cycleLast ≤ now) (hw : now < 2 ^ tk.bits) (h64 : now < 2 ^ 64)
include hle hw h64

theorem delta_eq : tk.delta now = now - tk.cycleLast := by
  rw [delta, sub64_of_le hle h64]
  exact Nat.mod_eq_of_lt ((Nat.sub_le _ _).trans_lt hw)

theorem ktimeGet_eq (hs : tk.shift ≤ 34) (hr : tk.inRange now) :
    tk.ktimeGet now = tk.timeAt now := by
  obtain ⟨hsum, htime⟩ := of_decide_eq_true hr
  exact ktimeGet_eq_timeAfter hs (delta_eq hle hw h64) hsum htime

theorem timeAt_forwardNow (hs : tk.shift ≤ 34) (hr : tk.inRange now)
    (h : tk.forwardNow now = some tk') (hn : now ≤ now') : tk'.timeAt now' = tk.timeAt now' := by
  obtain ⟨hsum, htime⟩ := of_decide_eq_true hr
  have htime' := timeAfter_forwardNow hs (delta_eq hle hw h64) hsum htime h (now' - now)
  obtain ⟨ktimeSec, ktimeNsec, rfl⟩ := forwardNow_fields h
  refine htime'.trans (congrArg tk.timeAfter ?_)
  omega

end At

end Timekeeper

/-! ## The invariant -/

/-- What the calls of `ktime_get` have returned is in order, and the time has not fallen behind. -/
structure Steady (s : TimeState) : Prop where
  shifts : ∀ cs ∈ s.list, cs.shift ≤ 34
  shift : s.tk.clock ≠ none → s.tk.shift ≤ 34
  last : ∀ id, s.tk.clock = some id → s.tk.cycleLast ≤ s.counter id
  behind : ∀ id, s.tk.clock = some id → ∀ g ∈ s.gets, g ≤ s.tk.timeAt (s.counter id)
  ordered : s.gets.Pairwise (· ≤ ·)

namespace TimeState

variable {s s' : TimeState} {now now' : Nat} {skipcur oneshot : Bool}

theorem read_eq_some {id bits : Nat} (h : s.read id bits now = some s') :
    s.counter id ≤ now ∧ now < 2 ^ bits ∧ now < 2 ^ 64 ∧
      s' = { s with counter := update s.counter id now } := by
  unfold read at h
  split_ifs at h with hc
  exact ⟨hc.1, hc.2.1, hc.2.2, (some_inj.mp h).symm⟩

theorem clockRead_eq_some (h : s.clockRead now = some s') :
    ∃ id, s.tk.clock = some id ∧ s.counter id ≤ now ∧ now < 2 ^ s.tk.bits ∧ now < 2 ^ 64 ∧
      s' = { s with counter := update s.counter id now } := by
  obtain ⟨id, hid, h⟩ := bind_eq_some_iff.mp h
  exact ⟨id, hid, read_eq_some h⟩

end TimeState

namespace Steady

variable {s s' : TimeState} {now now' : Nat} {skipcur oneshot : Bool}

/-- The current clock has been read at `now`. -/
theorem of_clock {id : Nat} (hid : s.tk.clock = some id) (hnow : s.counter id = now)
    (hl : ∀ cs ∈ s.list, cs.shift ≤ 34) (hs : s.tk.shift ≤ 34) (hle : s.tk.cycleLast ≤ now)
    (hg : ∀ g ∈ s.gets, g ≤ s.tk.timeAt now) (hord : s.gets.Pairwise (· ≤ ·)) : Steady s := by
  subst hnow
  refine ⟨hl, fun _ => hs, fun id' hid' => ?_, fun id' hid' => ?_, hord⟩
  · obtain rfl : id = id' := some_inj.mp (hid.symm.trans hid')
    exact hle
  · obtain rfl : id = id' := some_inj.mp (hid.symm.trans hid')
    exact hg

variable (h : Steady s)
include h

theorem withList {list : List Clocksource} (hl : ∀ cs ∈ list, cs.shift ≤ 34) :
    Steady { s with list } :=
  { h with shifts := hl }

theorem withOffs (offsReal : Int) : Steady { s with tk := { s.tk with offsReal } } :=
  ⟨h.shifts, h.shift, h.last, h.behind, h.ordered⟩

/-- A read of the current counter is after `cycle_last`, and the time is that of the read. -/
theorem clockRead (hr : s.clockRead now = some s') :
    Steady s' ∧ s'.tk = s.tk ∧ s'.gets = s.gets ∧ s.tk.shift ≤ 34 ∧ s.tk.cycleLast ≤ now ∧
      now < 2 ^ s.tk.bits ∧ now < 2 ^ 64 ∧ ∀ g ∈ s.gets, g ≤ s.tk.timeAt now := by
  obtain ⟨id, hid, hle, hw, h64, rfl⟩ := TimeState.clockRead_eq_some hr
  have hlast := (h.last id hid).trans hle
  have hbehind : ∀ g ∈ s.gets, g ≤ s.tk.timeAt now := fun g hg =>
    (h.behind id hid g hg).trans (Int.ofNat_le.mpr (s.tk.timeAt_mono hle))
  have hs := h.shift (by simp [hid])
  exact ⟨.of_clock hid (update_self ..) h.shifts hs hlast hbehind h.ordered, rfl, rfl, hs, hlast, hw,
    h64, hbehind⟩

variable {cs : Clocksource}

theorem timekeepingInit (hf : s.fresh) (hcs : cs.shift ≤ 34)
    (hi : s.timekeepingInit cs now now' = some s') : Steady s' := by
  obtain ⟨s1, hr, hi⟩ := bind_eq_some_iff.mp hi
  obtain ⟨s2, hr', rfl⟩ := map_eq_some_iff.mp hi
  obtain ⟨-, -, -, rfl⟩ := TimeState.read_eq_some hr
  have hset : Steady { s with counter := update s.counter cs.id now
                              tk := .setupInternals cs now } := by
    refine .of_clock rfl (update_self ..) h.shifts hcs le_rfl (fun g hg => ?_) h.ordered
    have hle : g ≤ 0 := of_decide_eq_true (all_eq_true.mp hf g hg)
    exact hle.trans (Int.natCast_nonneg _)
  exact (hset.clockRead hr').1.withOffs _

theorem select (hf : s.fresh ∨ staysBest s.list s.curr skipcur oneshot)
    (hs : s.select skipcur oneshot now now' = some s') : Steady s' := by
  unfold TimeState.select at hs
  split at hs
  · exact some_inj.mp hs ▸ h
  · rename_i best hbest
    split_ifs at hs with hcurr
    · exact some_inj.mp hs ▸ h
    · rcases hf with hf | hf
      · have hcs := h.shifts best (mem_of_bestSource hbest)
        exact timekeepingInit (s := { s with curr := some best.id })
          ⟨h.shifts, h.shift, h.last, h.behind, h.ordered⟩ hf hcs hs
      · rw [staysBest, hbest] at hf
        exact absurd (of_decide_eq_true hf) hcurr

theorem forwardNow (hin : s.tk.inRange now) (hr : s.clockRead now = some s') {tk : Timekeeper}
    (hfw : s'.tk.forwardNow now = some tk) : Steady { s' with tk } := by
  obtain ⟨h', htk, hgets, hs, hle, hw, h64, hbehind⟩ := h.clockRead hr
  rw [htk] at hfw
  have htime : ∀ {n}, now ≤ n → tk.timeAt n = s.tk.timeAt n := fun hn =>
    Timekeeper.timeAt_forwardNow hle hw h64 hs hin hfw hn
  obtain ⟨ktimeSec, ktimeNsec, rfl⟩ := Timekeeper.forwardNow_fields hfw
  obtain ⟨id, hid, -, -, -, rfl⟩ := TimeState.clockRead_eq_some hr
  refine .of_clock hid (update_self ..) h.shifts hs le_rfl (fun g hg => ?_) h.ordered
  rw [htime le_rfl]
  exact hbehind g hg

theorem register {scale freq : Nat} (hcs : freq ≠ 0 ∨ cs.shift ≤ 34) :
    Steady { s with list := registered cs scale freq s.list } := by
  apply h.withList
  intro x hx
  rcases mem_enqueue hx with rfl | hx
  · exact updateFreqScale_shift_le hcs
  · exact h.shifts x hx

theorem rerate (hcs : cs ∈ s.list) (rating : Int) :
    Steady { s with list := rerated cs rating s.list } := by
  apply h.withList
  intro x hx
  rcases mem_enqueue hx with rfl | hx
  · exact h.shifts cs hcs
  · exact h.shifts x (mem_filter.mp hx).1

theorem remove (id : Nat) : Steady { s with list := s.list.filter (·.id ≠ id) } :=
  h.withList fun x hx => h.shifts x (mem_filter.mp hx).1

theorem ktimeGet (hin : s.tk.inRange now) (hr : s.clockRead now = some s') :
    Steady { s' with gets := s'.gets ++ [s'.tk.ktimeGet now] } := by
  obtain ⟨h', htk, hgets, hs, hle, hw, h64, hbehind⟩ := h.clockRead hr
  have hget : s'.tk.ktimeGet now = s.tk.timeAt now := by
    rw [htk, Timekeeper.ktimeGet_eq hle hw h64 hs hin]
  obtain ⟨id, hid, -, -, -, rfl⟩ := TimeState.clockRead_eq_some hr
  refine .of_clock hid (update_self ..) h.shifts hs hle (fun g hg => ?_) ?_
  · rcases mem_append.mp hg with hg | hg
    · exact hbehind g hg
    · rw [mem_singleton.mp hg, hget]
  · apply pairwise_append.mpr
    refine ⟨h.ordered, pairwise_singleton .., ?_⟩
    intro g hg g' hg'
    rw [mem_singleton.mp hg', hget]
    exact hbehind g hg

theorem step {a : TimeAct} (hin : a.noOverflow s) (hok : a.calm s)
    (hstep : timeStep s a = some s') : Steady s' := by
  cases a <;> simp only [timeStep] at hstep
  case register cs scale freq oneshot now now' =>
    obtain ⟨hcs, hf⟩ := of_decide_eq_true hok
    split_ifs at hstep
    exact (h.register hcs).select hf hstep
  case changeRating id rating oneshot now now' =>
    obtain ⟨cs, hcs, hstep⟩ := bind_eq_some_iff.mp hstep
    have hf := of_decide_eq_true hok
    rw [hcs] at hf
    exact (h.rerate (mem_of_find?_eq_some hcs) rating).select hf hstep
  case unregister id oneshot now now' =>
    have hf := of_decide_eq_true hok
    split_ifs at hstep with hmem hcurr
    · obtain ⟨s1, hsel, rfl⟩ := map_eq_some_iff.mp hstep
      have h1 := h.select (hf.imp_right fun hf => hf.resolve_left fun hne => hne hcurr) hsel
      split_ifs
      · exact h1
      · exact h1.remove id
    · exact some_inj.mp hstep ▸ h.remove id
    · exact some_inj.mp hstep ▸ h
  case updateWallTime now =>
    obtain ⟨s1, hr, hstep⟩ := bind_eq_some_iff.mp hstep
    obtain ⟨tk, hfw, rfl⟩ := map_eq_some_iff.mp hstep
    exact h.forwardNow hin hr hfw
  case doSettimeofday64 sec nsec now now' =>
    split_ifs at hstep
    · obtain ⟨s1, hr, hstep⟩ := bind_eq_some_iff.mp hstep
      obtain ⟨tk, hfw, hstep⟩ := bind_eq_some_iff.mp hstep
      obtain ⟨s2, hr', rfl⟩ := map_eq_some_iff.mp hstep
      exact ((h.forwardNow hin hr hfw).clockRead hr').1.withOffs _
    · exact some_inj.mp hstep ▸ h
  case ktimeGet now =>
    obtain ⟨s1, hr, rfl⟩ := map_eq_some_iff.mp hstep
    exact h.ktimeGet hin hr

end Steady

/-- Over every run in which nothing overflows and the clock source is changed only while no positive
time has been returned, `ktime_get` never returns less than before. -/
theorem ktimeGet_monotone {s : TimeState}
    (h : timeMachine.Reach (fun s a => a.noOverflow s ∧ a.calm s) s) : s.gets.Pairwise (· ≤ ·) := by
  have hinv : Steady s := by
    refine h.invariant (I := Steady) ?_ fun _ _ _ hs hok hstep => hs.step hok.1 hok.2 hstep
    rintro s ⟨hlist, -, hclock, hgets⟩
    refine ⟨?_, fun hne => absurd hclock hne, ?_, ?_, ?_⟩
    · rw [hlist]
      exact fun _ hcs => absurd hcs not_mem_nil
    · intro id hid
      exact absurd (hclock.symm.trans hid) (by simp)
    · intro id hid
      exact absurd (hclock.symm.trans hid) (by simp)
    · rw [hgets]
      exact .nil
  exact hinv.ordered

/-! ## The time is exact -/

/-- A counter of `bits` bits reads as `now` when it has advanced to `c`. -/
def Reads (bits c now : Nat) : Prop := now < 2 ^ 64 ∧ now % 2 ^ bits = c % 2 ^ bits

/-- The counter, which was at `c` at the last update, reads as `now` at `c'`, and nothing
overflows. -/
structure Timekeeper.Read (tk : Timekeeper) (c c' now : Nat) : Prop where
  reads : Reads tk.bits c' now
  le : c ≤ c'
  mask : c' - c ≤ 2 ^ tk.bits - 1
  sum : (c' - c) * tk.mult + tk.ktimeNsec < 2 ^ 64
  fits : tk.timeAfter (c' - c) < 2 ^ 63

/-- `update_wall_time`, with the place of the counter. -/
def Forwards (p q : Nat × Timekeeper) : Prop :=
  ∃ now, p.2.Read p.1 q.1 now ∧ p.2.forwardNow now = some q.2

/-- The timekeeper after `timekeeping_init` at `c₀`; `do_settimeofday64` is an update and a
`tk_set_xtime`. -/
inductive Kept (cs : Clocksource) (c₀ : Nat) : Nat × Timekeeper → Prop
  | init {now : Nat} : Reads cs.bits c₀ now → Kept cs c₀ (c₀, .setupInternals cs now)
  | forward {p q : Nat × Timekeeper} : Kept cs c₀ p → Forwards p q → Kept cs c₀ q
  | setXtime {p : Nat × Timekeeper} (ns : Int) (now : Nat) : Kept cs c₀ p →
      Kept cs c₀ (p.1, p.2.setXtime ns now)

/-- No fraction has been dropped. -/
structure Exact (cs : Clocksource) (c₀ c : Nat) (tk : Timekeeper) : Prop where
  bits : tk.bits = cs.bits
  shift : tk.shift = cs.shift
  reads : Reads tk.bits c tk.cycleLast
  le : c₀ ≤ c
  time : ∀ d, tk.timeAfter d = (c - c₀ + d) * cs.mult / 2 ^ cs.shift

section Exact

variable {cs : Clocksource} {c₀ c c' now : Nat} {tk tk' : Timekeeper} {p q : Nat × Timekeeper}

theorem delta_of_reads (hbits : tk.bits ≤ 64) (h : Reads tk.bits c tk.cycleLast)
    (hr : tk.Read c c' now) : tk.delta now = c' - c := by
  obtain ⟨⟨hnow, hmod⟩, hle, hmask, -, -⟩ := hr
  have hdvd : 2 ^ tk.bits ∣ 2 ^ 64 := Nat.pow_dvd_pow 2 hbits
  have hpos := Nat.two_pow_pos tk.bits
  have hlast := h.1
  have hsum : 2 ^ 64 + now - tk.cycleLast + c ≡ c' - c + c [MOD 2 ^ tk.bits] := by
    calc 2 ^ 64 + now - tk.cycleLast + c
        ≡ 2 ^ 64 + now - tk.cycleLast + tk.cycleLast [MOD 2 ^ tk.bits] :=
          Nat.ModEq.add_left _ h.2.symm
      _ = 2 ^ 64 + now := by omega
      _ ≡ 0 + c' [MOD 2 ^ tk.bits] := Nat.ModEq.add (Nat.modEq_zero_iff_dvd.mpr hdvd) hmod
      _ = c' - c + c := by omega
  rw [Timekeeper.delta, sub64, u64, Nat.mod_mod_of_dvd _ hdvd]
  have hcancel : _ % _ = _ % _ := Nat.ModEq.add_right_cancel' c hsum
  rw [hcancel, Nat.mod_eq_of_lt (by omega)]

theorem shift_le (hcs : nsecPerSec * 2 ^ cs.shift < 2 ^ 64) : cs.shift ≤ 34 := by
  by_contra hlt
  have hpow : 2 ^ 35 ≤ 2 ^ cs.shift := Nat.pow_le_pow_right (by decide) (by omega)
  unfold nsecPerSec at hcs
  omega

section

variable (hcs : nsecPerSec * 2 ^ cs.shift < 2 ^ 64) (hbits : cs.bits ≤ 64)
include hcs hbits

theorem Exact.forward (h : Exact cs c₀ c tk) (hr : tk.Read c c' now)
    (hf : tk.forwardNow now = some tk') : Exact cs c₀ c' tk' := by
  have hd := delta_of_reads (h.bits.trans_le hbits) h.reads hr
  have htime := Timekeeper.timeAfter_forwardNow (h.shift.trans_le (shift_le hcs)) hd hr.sum
    hr.fits hf
  have hle := hr.le
  have hle0 := h.le
  obtain ⟨ktimeSec, ktimeNsec, rfl⟩ := Timekeeper.forwardNow_fields hf
  refine ⟨h.bits, h.shift, hr.reads, hle0.trans hle, fun d => ?_⟩
  rw [htime, h.time]
  congr 2
  omega

theorem Exact.read (h : Exact cs c₀ c tk) (hr : tk.Read c c' now) :
    u64 (tk.ktimeSec * nsecPerSec) + tk.getNs now = (c' - c₀) * cs.mult / 2 ^ cs.shift ∧
      tk.ktimeGet now = ((c' - c₀) * cs.mult / 2 ^ cs.shift : Nat) := by
  have hs : tk.shift ≤ 34 := h.shift.trans_le (shift_le hcs)
  have hd := delta_of_reads (h.bits.trans_le hbits) h.reads hr
  have hle := hr.le
  have hle0 := h.le
  have htime : tk.timeAfter (c' - c) = (c' - c₀) * cs.mult / 2 ^ cs.shift := by
    rw [h.time]
    congr 2
    omega
  rw [← htime]
  exact ⟨Timekeeper.getNs_eq hs hd hr.sum hr.fits,
    Timekeeper.ktimeGet_eq_timeAfter hs hd hr.sum hr.fits⟩

theorem Kept.exact (h : Kept cs c₀ p) : Exact cs c₀ p.1 p.2 := by
  induction h with
  | init hr =>
    refine ⟨rfl, rfl, hr, le_rfl, fun d => ?_⟩
    simp [Timekeeper.timeAfter, Timekeeper.setupInternals]
  | forward _ hf ih =>
    obtain ⟨now, hr, hf⟩ := hf
    exact ih.forward hcs hbits hr hf
  | setXtime _ _ _ ih => exact ⟨ih.bits, ih.shift, ih.reads, ih.le, ih.time⟩

end

theorem Kept.updates (hrun : Relation.ReflTransGen Forwards p q) (h : Kept cs c₀ p) :
    Kept cs c₀ q ∧ q.2.offsReal = p.2.offsReal := by
  induction hrun with
  | refl => exact ⟨h, rfl⟩
  | tail _ hf ih =>
    refine ⟨ih.1.forward hf, ?_⟩
    obtain ⟨now, -, hf⟩ := hf
    obtain ⟨ktimeSec, ktimeNsec, heq⟩ := Timekeeper.forwardNow_fields hf
    rw [heq]
    exact ih.2

theorem toInt_of_passed {ns : Int} {a b : Nat} (hpos : 0 ≤ ns) (hle : a ≤ b)
    (hlt : ns + b - a < 2 ^ 63) : (BitVec.ofInt 64 (b + (ns - a))).toInt = ns + b - a := by
  rw [BitVec.toInt_ofInt_eq_self (by decide)] <;> omega

/-- Every update returns, `ktime_get` gives the nanoseconds since `timekeeping_init`, rounded
down, and `ktime_get_real` the time of day that was set and what has passed since. -/
theorem ktimeGet_exact (hcs : nsecPerSec * 2 ^ cs.shift < 2 ^ 64) (hbits : cs.bits ≤ 64)
    (h : Kept cs c₀ (c, tk)) : (∀ now, ∃ tk', tk.forwardNow now = some tk') ∧
    (∀ c' now, tk.Read c c' now → tk.ktimeGet now = ((c' - c₀) * cs.mult / 2 ^ cs.shift : Nat)) ∧
    ∀ sec nsec d now c' tk' c'' now', validStrict sec nsec → tk.Read c d now →
      Relation.ReflTransGen Forwards (c, tk.setXtime (sec * nsecPerSec + nsec) now) (c', tk') →
      tk'.Read c' c'' now' → d ≤ c'' →
      sec * nsecPerSec + nsec + tk'.ktimeGet now' - tk.ktimeGet now < 2 ^ 63 →
      tk'.ktimeGetReal now' = sec * nsecPerSec + nsec + tk'.ktimeGet now' - tk.ktimeGet now := by
  have hexact := h.exact hcs hbits
  refine ⟨Timekeeper.exists_forwardNow (hexact.shift.trans_le (shift_le hcs)),
    fun c' now hr => (hexact.read hcs hbits hr).2, ?_⟩
  intro sec nsec d now c' tk' c'' now' hts hr hrun hr' hle hlt
  have hpos : 0 ≤ sec * nsecPerSec + nsec := by
    obtain ⟨hsec, hnsec, -, -⟩ := of_decide_eq_true hts
    exact Int.add_nonneg (Int.mul_nonneg hsec (Int.natCast_nonneg _)) hnsec
  generalize sec * (nsecPerSec : Int) + nsec = ns at *
  obtain ⟨hkept, hoffs⟩ := (h.setXtime _ _).updates hrun
  obtain ⟨hns, hget'⟩ := (hkept.exact hcs hbits).read hcs hbits hr'
  obtain ⟨-, hget⟩ := hexact.read hcs hbits hr
  have hmono : (d - c₀) * cs.mult / 2 ^ cs.shift ≤ (c'' - c₀) * cs.mult / 2 ^ cs.shift := by
    gcongr
  dsimp only [Timekeeper.setXtime] at hns hget hget' hoffs
  rw [Timekeeper.ktimeGetReal, ← Int.add_assoc, ← Nat.cast_add, hns, hoffs]
  rw [hget, hget'] at hlt ⊢
  exact toInt_of_passed hpos hmono hlt

/-- A counter of four bits that runs over twice. -/
theorem ktimeGet_exact_wrapped : ∃ tk tk',
    (Timekeeper.setupInternals ⟨0, 0, 4, 3, 1, true, true⟩ 14).forwardNow 4 = some tk ∧
      (tk.setXtime (5 * nsecPerSec + 0) 6).forwardNow 8 = some tk' ∧
      tk.ktimeGet 6 = 12 ∧ tk'.ktimeGetReal 3 = 5000000019 := by
  have hkept : Kept ⟨0, 0, 4, 3, 1, true, true⟩ 14 (14, .setupInternals _ 14) :=
    .init ⟨by decide, rfl⟩
  have hexact := ktimeGet_exact (by decide) (by decide) (hkept.forward (q := (20, _))
    ⟨4, ⟨⟨by decide, rfl⟩, by decide, by decide, by decide, by decide⟩, rfl⟩)
  refine ⟨_, _, rfl, rfl, hexact.2.1 22 6 ⟨⟨by decide, rfl⟩, by decide, by decide, by decide,
    by decide⟩, ?_⟩
  exact (hexact.2.2 5 0 22 6 24 _ 35 3 (by decide) ⟨⟨by decide, rfl⟩, by decide, by decide,
    by decide, by decide⟩ (.single ⟨8, ⟨⟨by decide, rfl⟩, by decide, by decide, by decide,
    by decide⟩, rfl⟩) ⟨⟨by decide, rfl⟩, by decide, by decide, by decide, by decide⟩ (by decide)
    (by decide)).trans (by decide)

/-- The product fits into 64 bits, and the time is negative. -/
theorem ktimeGet_negative : (2 ^ 31 + 1) * (2 ^ 32 - 1) + 0 < 2 ^ 64 ∧
      (Timekeeper.setupInternals ⟨0, 0, 64, 2 ^ 32 - 1, 0, true, true⟩ 0).ktimeGet (2 ^ 31 + 1) =
        ((2 ^ 31 + 1) * (2 ^ 32 - 1) / 2 ^ 0 : Nat) - 2 ^ 64 := by
  decide

end Exact

/-! ## Runs -/

def nsCounter (id : Nat) (rating : Int) : Clocksource :=
  { id, rating, bits := 64, mult := 0, shift := 0, continuous := true, hres := false }

def timeZero : TimeState where
  list := []
  curr := none
  counter _ := 0
  tk :=
    { clock := none, bits := 0, mult := 0, shift := 0, cycleLast := 0, ktimeNsec := 0,
      ktimeSec := 0, offsReal := 0 }
  gets := []

theorem timeZero_init : timeMachine.init timeZero := ⟨rfl, rfl, rfl, rfl⟩

/-- A worse source is registered, and the time of day is set. -/
def worseRun : List TimeAct :=
  [.register (nsCounter 0 100) 1 nsecPerSec false 7 7, .ktimeGet 1500000007,
    .updateWallTime 3000000007, .register (nsCounter 1 50) 1 nsecPerSec false 0 0,
    .doSettimeofday64 10 0 3500000007 3600000007, .ktimeGet 4000000007]

theorem ktimeGet_monotone_worse : ∃ s, timeMachine.Reach (fun s a => a.noOverflow s ∧ a.calm s) s ∧
      s.gets = [1500000000, 4000000000] ∧ s.gets.Pairwise (· ≤ ·) := by
  obtain ⟨s, hreach, hgets⟩ := exists_reach (G := fun s a => a.noOverflow s ∧ a.calm s)
    (P := fun s => s.gets = [1500000000, 4000000000]) (.init timeZero_init) worseRun
    (by decide +kernel)
  exact ⟨s, hreach, hgets, ktimeGet_monotone hreach⟩

def betterRun : List TimeAct :=
  [.register (nsCounter 0 100) 1 nsecPerSec false 7 7, .ktimeGet 1500000007,
    .register (nsCounter 1 200) 1 nsecPerSec false 0 0, .ktimeGet 5]

/-- The time starts again when a better clock source is registered. -/
theorem ktimeGet_goes_back :
    ∃ s, timeMachine.Reach (fun s a => a.noOverflow s) s ∧ s.gets = [1500000000, 5] :=
  exists_reach (.init timeZero_init) betterRun (by decide +kernel)

end MinixRt.Time
