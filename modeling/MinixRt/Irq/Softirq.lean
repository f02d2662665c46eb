import Mathlib.Data.List.Basic
import Mathlib.Data.Nat.Find
import MinixRt.Lib.Machine

/-!
# Softirqs

`__do_softirq` on one CPU, with the interrupts and the running actions that call `raise_softirq`
between its instructions. The pending word is shifted in place, so that after the first action a
bit of it no longer stands for its own number: the action of another softirq is started. The
shift loads and stores the word with interrupts enabled, and at the end the word is replaced by
the truth value of it.

The state keeps a history: which softirqs were raised (`raised`), which actions were started
(`ran`), and which softirqs were raised after the last start of their action (`owed`).
-/

namespace MinixRt.Irq

open List Function Lib
open Option (map_eq_some_iff some_inj)

def nrSoftirqs : Nat := 10

def maxSoftirqRestart : Nat := 10

def BIT (nr : Nat) : BitVec 64 := BitVec.twoPow 64 nr

/-- `ffs(int)`: one more than the first of the low 32 bits that is set. -/
def ffs (x : BitVec 64) : Nat := ((range 32).find? fun i => x.getLsbD i).elim 0 (· + 1)

/-- Where `__do_softirq` is. Interrupts are disabled in `entry`, `recheck` and `done`. -/
inductive SoftirqPc
  | entry
  /-- before `ffs(*pending)` -/
  | scan
  /-- `softirq_bit` is known -/
  | found (bit : Nat)
  /-- from the start of the action to the load of `*pending` -/
  | running (bit : Nat)
  /-- before the store of `*pending >>= softirq_bit` -/
  | store (bit : Nat) (word : BitVec 64)
  /-- after the loop -/
  | drained
  | recheck
  | done
  deriving DecidableEq

def SoftirqPc.irqsEnabled : SoftirqPc → Bool
  | .entry | .recheck | .done => false
  | _ => true

structure SoftirqCpu where
  pc : SoftirqPc
  pending : BitVec 64
  maxRestart : Nat
  /-- `softirq_vec[nr].action` is set -/
  registered : Nat → Bool
  raised : Nat → Bool
  ran : List Nat
  owed : Nat → Bool

inductive SoftirqAct
  /-- `raise_softirq`, by an interrupt or by the running action -/
  | raise (nr : Nat)
  | enter (inInterrupt : Bool)
  | next
  /-- the end of the function; `again` is `time_before(jiffies, end) && !need_resched()` -/
  | recheck (again : Bool)

namespace SoftirqCpu

def raiseSoftirq (nr : Nat) (s : SoftirqCpu) : SoftirqCpu :=
  { s with
    pending := s.pending ||| BIT nr
    raised := update s.raised nr true
    owed := update s.owed nr true }

def start (nr : Nat) (s : SoftirqCpu) : SoftirqCpu :=
  { s with
    ran := s.ran ++ [nr]
    owed := update s.owed nr false }

end SoftirqCpu

open SoftirqCpu

def softirqStep (s : SoftirqCpu) : SoftirqAct → Option SoftirqCpu
  | .raise nr =>
    if s.pc.irqsEnabled = true ∧ nr < nrSoftirqs ∧ s.registered nr = true then
      some (s.raiseSoftirq nr)
    else none
  | .enter inInterrupt =>
    if s.pc = .entry then
      if inInterrupt = false ∧ s.pending ≠ 0 then
        some { s with pc := .scan, maxRestart := maxSoftirqRestart }
      else some { s with pc := .done }
    else none
  | .next =>
    match s.pc with
    | .scan =>
      if ffs s.pending = 0 then some { s with pc := .drained }
      else some { s with pc := .found (ffs s.pending) }
    | .found bit =>
      if s.registered (bit - 1) then some { s.start (bit - 1) with pc := .running bit }
      else some { s with pc := .running bit }
    | .running bit => some { s with pc := .store bit s.pending }
    | .store bit word => some { s with pc := .scan, pending := word >>> bit }
    | .drained => some { s with pc := .recheck }
    | _ => none
  | .recheck again =>
    if s.pc = .recheck then
      -- `*pending = local_softirq_pending()`
      if s.pending = 0 then some { s with pc := .done, pending := 0 }
      else if again = true ∧ s.maxRestart - 1 ≠ 0 then
        some { s with pc := .scan, pending := 1, maxRestart := s.maxRestart - 1 }
      else some { s with pc := .done, pending := 1 }
    else none

/-- The call starts with any set of raised softirqs that have actions. -/
def softirqMachine : Machine SoftirqCpu SoftirqAct where
  init s :=
    s.pc = .entry ∧ s.ran = [] ∧
      (∀ nr, s.pending.getLsbD nr = true → nr < nrSoftirqs ∧ s.registered nr = true) ∧
      (∀ nr, s.owed nr = s.pending.getLsbD nr) ∧ ∀ nr, s.raised nr = s.pending.getLsbD nr
  step := softirqStep

/-- A softirq that was raised after the last start of its action is not pending. -/
def SoftirqCpu.lost (s : SoftirqCpu) (nr : Nat) : Prop :=
  s.owed nr = true ∧ s.pending.getLsbD nr = false

/-- At most one softirq is pending when the loop starts; another one is raised only between the
shift and the scan while no other is pending; and a softirq is raised again only before its action
is started. After the loop, number 0 may be raised. -/
def oneAtATime (s : SoftirqCpu) : SoftirqAct → Bool
  | .raise nr =>
    match s.pc with
    | .scan => s.pending = 0 ∨ s.pending = BIT nr
    | .found bit => bit = nr + 1
    | .drained => nr = 0
    | _ => false
  | .enter inInterrupt =>
    inInterrupt || s.pending = 0 || (range nrSoftirqs).any fun nr => s.pending = BIT nr
  | _ => true

/-! ## Bits -/

theorem getLsbD_BIT {nr : Nat} (h : nr < nrSoftirqs) (i : Nat) :
    (BIT nr).getLsbD i = decide (nr = i) := by
  have h64 : nr < 64 := by
    unfold nrSoftirqs at h
    omega
  rw [BIT, BitVec.getLsbD_twoPow, decide_eq_true h64, Bool.true_and]

theorem getLsbD_BIT_self {nr : Nat} (h : nr < nrSoftirqs) : (BIT nr).getLsbD nr = true := by
  rw [getLsbD_BIT h]
  exact decide_eq_true rfl

variable {x : BitVec 64} {i : Nat}

theorem ffs_zero (h : ffs x = 0) (hi : i < 32) : x.getLsbD i = false := by
  unfold ffs at h
  cases hf : (range 32).find? fun i => x.getLsbD i with
  | none =>
    rw [find?_eq_none] at hf
    simpa using hf i (mem_range.mpr hi)
  | some =>
    rw [hf] at h
    cases h

variable {b : Nat}

theorem ffs_succ (h : ffs x = b + 1) : x.getLsbD b = true ∧ ∀ i < b, x.getLsbD i = false := by
  unfold ffs at h
  cases hf : (range 32).find? fun i => x.getLsbD i with
  | none =>
    rw [hf] at h
    cases h
  | some j =>
    rw [hf] at h
    obtain rfl : j = b := Nat.succ.inj h
    obtain ⟨hj, -, hfirst⟩ := find?_range_eq_some.mp hf
    refine ⟨hj, fun i hi => ?_⟩
    simpa using hfirst i hi

variable {n : Nat}

theorem ffs_BIT (h : n < nrSoftirqs) : ffs (BIT n) = n + 1 := by
  cases hf : ffs (BIT n) with
  | zero =>
    have hn := ffs_zero hf (Nat.lt_trans h (by decide))
    rw [getLsbD_BIT_self h] at hn
    cases hn
  | succ =>
    have hb := (ffs_succ hf).1
    rw [getLsbD_BIT h, decide_eq_true_eq] at hb
    rw [hb]

theorem BIT_shift (h : n < nrSoftirqs) : BIT n >>> (n + 1) = 0 := by
  apply BitVec.eq_of_getLsbD_eq
  intro i _
  rw [BitVec.getLsbD_ushiftRight, getLsbD_BIT h, BitVec.ofNat_eq_ofNat, BitVec.getLsbD_zero]
  exact decide_eq_false (by omega)

theorem BIT_ne_zero (h : n < nrSoftirqs) : BIT n ≠ 0 := by
  intro hzero
  have hbit := getLsbD_BIT_self h
  rw [hzero, BitVec.ofNat_eq_ofNat, BitVec.getLsbD_zero] at hbit
  cases hbit

theorem BIT_injective {n m : Nat} (hn : n < nrSoftirqs) (hm : m < nrSoftirqs) (h : BIT n = BIT m) :
    n = m := by
  have hbit := getLsbD_BIT_self hm
  rw [← h, getLsbD_BIT hn] at hbit
  exact of_decide_eq_true hbit

theorem eq_zero_of_getLsbD (h : ∀ i, x.getLsbD i ≠ true) : x = 0 := by
  apply BitVec.eq_of_getLsbD_eq
  intro i _
  rw [BitVec.ofNat_eq_ofNat, BitVec.getLsbD_zero]
  exact Bool.eq_false_iff.mpr (h i)

theorem BIT_or_self (n : Nat) : BIT n ||| BIT n = BIT n := BitVec.or_self

/-! ## One softirq at a time -/

/-- Number `n` is pending, and is the only one that is owed. -/
structure Only (n : Nat) (s : SoftirqCpu) : Prop where
  lt : n < nrSoftirqs
  pending : s.pending = BIT n
  owed : ∀ nr, s.owed nr = decide (n = nr)

def Idle (s : SoftirqCpu) : Prop := s.pending = 0 ∧ ∀ nr, s.owed nr = false

/-- What holds at each place of the function. -/
def Phase (s : SoftirqCpu) : Prop :=
  match s.pc with
  | .entry => ∀ nr, s.owed nr = s.pending.getLsbD nr
  | .scan => Idle s ∨ ∃ n, Only n s
  | .found bit => ∃ n, bit = n + 1 ∧ Only n s
  | .running bit =>
    ∃ n, bit = n + 1 ∧ n < nrSoftirqs ∧ s.pending = BIT n ∧ ∀ nr, s.owed nr = false
  | .store bit word =>
    ∃ n, bit = n + 1 ∧ n < nrSoftirqs ∧ word = BIT n ∧ ∀ nr, s.owed nr = false
  | .drained | .recheck => Idle s ∨ Only 0 s
  | .done => ∀ nr, s.owed nr = true → s.pending.getLsbD nr = true

structure Calm (s : SoftirqCpu) : Prop where
  ran : ∀ nr ∈ s.ran, s.raised nr = true
  owed : ∀ nr, s.owed nr = true →
    s.raised nr = true ∧ s.registered nr = true ∧ nr < nrSoftirqs
  phase : Phase s

variable {s s' : SoftirqCpu} {nr n : Nat}

theorem only_raise (hlt : nr < nrSoftirqs) (hpending : s.pending ||| BIT nr = BIT nr)
    (howed : ∀ m, m ≠ nr → s.owed m = decide (nr = m)) : Only nr (s.raiseSoftirq nr) := by
  refine ⟨hlt, hpending, fun m => ?_⟩
  show update s.owed nr true m = _
  by_cases hm : m = nr
  · rw [hm, update_self]
    exact (decide_eq_true rfl).symm
  · rw [update_of_ne hm, howed m hm]

theorem Only.raise (h : Only nr s) : Only nr (s.raiseSoftirq nr) :=
  only_raise h.lt (by rw [h.pending, BIT_or_self]) fun m _ => h.owed m

theorem Idle.raise (h : Idle s) (hnr : nr < nrSoftirqs) : Only nr (s.raiseSoftirq nr) :=
  only_raise hnr (by rw [h.1]; exact BitVec.zero_or) fun m hm => by
    rw [h.2 m, decide_eq_false (Ne.symm hm)]

theorem Calm.raise (h : Calm s) (hnr : nr < nrSoftirqs) (hreg : s.registered nr = true)
    (hphase : Phase (s.raiseSoftirq nr)) : Calm (s.raiseSoftirq nr) := by
  have hraised : ∀ m, s.raised m = true → (s.raiseSoftirq nr).raised m = true := by
    intro m hm
    show update s.raised nr true m = true
    by_cases hmn : m = nr
    · rw [hmn, update_self]
    · rw [update_of_ne hmn, hm]
  refine ⟨fun m hm => hraised m (h.ran m hm), fun m hm => ?_, hphase⟩
  by_cases hmn : m = nr
  · subst hmn
    exact ⟨update_self .., hreg, hnr⟩
  · have hold : s.owed m = true := by
      rw [← hm]
      exact (update_of_ne hmn _ _).symm
    obtain ⟨hr, hregm, hlt⟩ := h.owed m hold
    exact ⟨hraised m hr, hregm, hlt⟩

theorem Calm.step_raise (h : Calm s) (hok : oneAtATime s (.raise nr) = true)
    (hs : softirqStep s (.raise nr) = some s') : Calm s' := by
  simp only [softirqStep] at hs
  split_ifs at hs with hen
  obtain ⟨-, hnr, hreg⟩ := hen
  obtain rfl := some_inj.mp hs
  apply h.raise hnr hreg
  have hphase := h.phase
  have hpc : (s.raiseSoftirq nr).pc = s.pc := rfl
  unfold Phase at hphase ⊢
  unfold oneAtATime at hok
  rw [hpc]
  cases hs : s.pc with
  | scan =>
    simp only [hs] at hphase hok ⊢
    right
    rcases hphase with hidle | ⟨n, honly⟩
    · exact ⟨nr, hidle.raise hnr⟩
    · have hn : BIT n = BIT nr := by
        rw [← honly.pending]
        refine (of_decide_eq_true hok).resolve_left fun hzero => ?_
        exact BIT_ne_zero honly.lt (honly.pending.symm.trans hzero)
      obtain rfl := BIT_injective honly.lt hnr hn
      exact ⟨n, honly.raise⟩
  | found =>
    simp only [hs] at hphase hok ⊢
    obtain ⟨n, rfl, honly⟩ := hphase
    obtain rfl : n = nr := Nat.succ.inj (of_decide_eq_true hok)
    exact ⟨n, rfl, honly.raise⟩
  | drained =>
    simp only [hs] at hphase hok ⊢
    obtain rfl := of_decide_eq_true hok
    right
    rcases hphase with hidle | honly
    · exact hidle.raise hnr
    · exact honly.raise
  | entry | running bit | store bit word | recheck | done =>
    simp only [hs] at hok
    cases hok

variable {inInterrupt : Bool}

theorem Calm.entry (h : Calm s) (hpc : s.pc = .entry) (nr : Nat) :
    s.owed nr = s.pending.getLsbD nr := by
  have hphase := h.phase
  unfold Phase at hphase
  rw [hpc] at hphase
  exact hphase nr

theorem Calm.step_enter (h : Calm s) (hok : oneAtATime s (.enter inInterrupt) = true)
    (hs : softirqStep s (.enter inInterrupt) = some s') : Calm s' := by
  simp only [softirqStep] at hs
  split_ifs at hs with hpc hgo
  · obtain rfl := some_inj.mp hs
    refine ⟨h.ran, h.owed, ?_⟩
    have hone : ∃ n, n < nrSoftirqs ∧ s.pending = BIT n := by
      simp only [oneAtATime, hgo.1, Bool.false_or, Bool.or_eq_true, decide_eq_true_eq, hgo.2,
        false_or, any_eq_true, mem_range] at hok
      exact hok
    obtain ⟨n, hn, hpending⟩ := hone
    exact .inr ⟨n, hn, hpending, fun m => by
      rw [h.entry hpc, hpending, getLsbD_BIT hn]⟩
  · obtain rfl := some_inj.mp hs
    exact ⟨h.ran, h.owed, fun m hm => (h.entry hpc m).symm.trans hm⟩

theorem Calm.start (h : Calm s) (honly : Only n s) :
    Calm { s.start n with pc := .running (n + 1) } := by
  have hn : s.owed n = true := by
    rw [honly.owed]
    exact decide_eq_true rfl
  have howed : ∀ m, update s.owed n false m = false := by
    intro m
    by_cases hm : m = n
    · rw [hm, update_self]
    · rw [update_of_ne hm, honly.owed]
      exact decide_eq_false (Ne.symm hm)
  refine ⟨fun m hm => ?_, fun m hm => ?_, ?_⟩
  · rcases mem_append.mp hm with hold | hnew
    · exact h.ran m hold
    · rw [mem_singleton.mp hnew]
      exact (h.owed n hn).1
  · exact absurd ((howed m).symm.trans hm) Bool.false_ne_true
  · exact ⟨n, rfl, honly.lt, honly.pending, howed⟩

theorem Calm.step_next (h : Calm s) (hs : softirqStep s .next = some s') : Calm s' := by
  have hphase := h.phase
  unfold Phase at hphase
  cases hpc : s.pc with
  | scan =>
    simp only [softirqStep, hpc] at hs hphase
    rcases hphase with hidle | ⟨n, honly⟩
    · have hffs : ffs s.pending = 0 := by
        rw [hidle.1]
        decide
      rw [if_pos hffs] at hs
      obtain rfl := some_inj.mp hs
      exact ⟨h.ran, h.owed, .inl hidle⟩
    · have hffs : ffs s.pending = n + 1 := by
        rw [honly.pending, ffs_BIT honly.lt]
      rw [hffs, if_neg (Nat.succ_ne_zero n)] at hs
      obtain rfl := some_inj.mp hs
      exact ⟨h.ran, h.owed, n, rfl, honly.lt, honly.pending, honly.owed⟩
  | found =>
    simp only [softirqStep, hpc] at hs hphase
    obtain ⟨n, rfl, honly⟩ := hphase
    have hreg : s.registered n = true := by
      refine (h.owed n ?_).2.1
      rw [honly.owed]
      exact decide_eq_true rfl
    rw [Nat.add_sub_cancel, if_pos hreg] at hs
    obtain rfl := some_inj.mp hs
    exact h.start honly
  | running =>
    simp only [softirqStep, hpc] at hs hphase
    obtain rfl := some_inj.mp hs
    exact ⟨h.ran, h.owed, hphase⟩
  | store =>
    simp only [softirqStep, hpc] at hs hphase
    obtain rfl := some_inj.mp hs
    obtain ⟨n, rfl, hn, rfl, howed⟩ := hphase
    exact ⟨h.ran, h.owed, .inl ⟨BIT_shift hn, howed⟩⟩
  | drained =>
    simp only [softirqStep, hpc] at hs hphase
    obtain rfl := some_inj.mp hs
    refine ⟨h.ran, h.owed, ?_⟩
    rcases hphase with hidle | honly
    · exact .inl hidle
    · exact .inr ⟨honly.lt, honly.pending, honly.owed⟩
  | entry | recheck | done =>
    simp only [softirqStep, hpc] at hs
    cases hs

theorem Calm.step_recheck (h : Calm s) {again : Bool}
    (hs : softirqStep s (.recheck again) = some s') : Calm s' := by
  have hphase := h.phase
  unfold Phase at hphase
  simp only [softirqStep] at hs
  split_ifs at hs with hpc hzero hagain <;> simp only [hpc] at hphase
  · obtain rfl := some_inj.mp hs
    refine ⟨h.ran, h.owed, fun m hm => ?_⟩
    rcases hphase with hidle | honly
    · exact absurd ((hidle.2 m).symm.trans hm) Bool.false_ne_true
    · exact absurd (honly.pending.symm.trans hzero) (by decide)
  all_goals
    have honly : Only 0 s := hphase.resolve_left fun hidle => hzero hidle.1
    obtain rfl := some_inj.mp hs
  · exact ⟨h.ran, h.owed, .inr ⟨0, honly.lt, rfl, honly.owed⟩⟩
  · refine ⟨h.ran, h.owed, fun m hm => ?_⟩
    have hm' : s.owed m = true := hm
    rw [honly.owed, decide_eq_true_eq] at hm'
    rw [← hm']
    show (1 : BitVec 64).getLsbD 0 = true
    decide

variable {a : SoftirqAct}

theorem Calm.step (h : Calm s) (hok : oneAtATime s a = true) (hs : softirqStep s a = some s') :
    Calm s' := by
  cases a with
  | raise => exact h.step_raise hok hs
  | enter => exact h.step_enter hok hs
  | next => exact h.step_next hs
  | recheck => exact h.step_recheck hs

theorem calm_init (h : softirqMachine.init s) : Calm s := by
  obtain ⟨hpc, hran, hpending, howed, hraised⟩ := h
  refine ⟨fun m hm => ?_, fun m hm => ?_, ?_⟩
  · rw [hran] at hm
    cases hm
  · have hbit : s.pending.getLsbD m = true := (howed m).symm.trans hm
    exact ⟨(hraised m).trans hbit, (hpending m hbit).2, (hpending m hbit).1⟩
  · unfold Phase
    rw [hpc]
    exact howed

/-! ## More than one -/

/-- If nothing more is raised, the call can return with `m` lost. -/
def Loses (m : Nat) (s : SoftirqCpu) : Prop :=
  ∃ acts t, softirqMachine.run s acts = some t ∧ (∀ nr, SoftirqAct.raise nr ∉ acts) ∧
    t.pc = .done ∧ t.lost m

variable {m : Nat}

theorem Loses.step (hs : softirqStep s a = some s') (ha : ∀ nr, a ≠ .raise nr) (h : Loses m s') :
    Loses m s := by
  obtain ⟨acts, t, hrun, hraise, hdone⟩ := h
  refine ⟨a :: acts, t, ?_, fun nr hmem => ?_, hdone⟩
  · show (softirqStep s a).bind _ = _
    rw [hs]
    exact hrun
  · rcases mem_cons.mp hmem with heq | hmem
    · exact ha nr heq.symm
    · exact hraise nr hmem

theorem Loses.next (hs : softirqStep s .next = some s') (h : Loses m s') : Loses m s :=
  h.step hs fun _ => SoftirqAct.noConfusion

theorem loses_of_drained (hpc : s.pc = .drained) (howed : s.owed m = true)
    (hm : s.pending = 0 ∨ m ≠ 0) : Loses m s := by
  have hnext : softirqStep s .next = some { s with pc := .recheck } := by
    simp only [softirqStep, hpc]
  refine .next hnext ?_
  by_cases hzero : s.pending = 0
  · have hlast : softirqStep { s with pc := .recheck } (.recheck false) =
        some { s with pc := .done, pending := 0 } := by
      simp only [softirqStep, if_true, hzero]
    refine .step hlast (fun _ => SoftirqAct.noConfusion)
      ⟨[], _, rfl, fun _ => not_mem_nil, rfl, howed, ?_⟩
    exact BitVec.getLsbD_zero
  · have hlast : softirqStep { s with pc := .recheck } (.recheck false) =
        some { s with pc := .done, pending := 1 } := by
      simp only [softirqStep, if_true, hzero, if_false, Bool.false_eq_true, false_and]
    refine .step hlast (fun _ => SoftirqAct.noConfusion)
      ⟨[], _, rfl, fun _ => not_mem_nil, rfl, howed, ?_⟩
    have hone : (1 : BitVec 64) = BIT 0 := rfl
    rw [hone, getLsbD_BIT (by decide)]
    exact decide_eq_false (hm.resolve_left hzero).symm

variable {bit : Nat}

theorem loses_of_store {word : BitVec 64} (hpc : s.pc = .store bit word)
    (h : Loses m { s with pc := .scan, pending := word >>> bit }) : Loses m s := by
  refine .next ?_ h
  simp only [softirqStep, hpc]

theorem loses_of_running (hpc : s.pc = .running bit)
    (h : Loses m { s with pc := .scan, pending := s.pending >>> bit }) : Loses m s := by
  have hnext : softirqStep s .next = some { s with pc := .store bit s.pending } := by
    simp only [softirqStep, hpc]
  exact .next hnext (loses_of_store rfl h)

theorem loses_of_found (hpc : s.pc = .found (b + 1)) (howed : s.owed m = true) (hne : m ≠ b)
    (h : ∀ t : SoftirqCpu, t.pc = .scan → t.pending = s.pending >>> (b + 1) →
      t.owed m = true → Loses m t) : Loses m s := by
  by_cases hreg : s.registered b = true
  · have hnext : softirqStep s .next = some { s.start b with pc := .running (b + 1) } := by
      simp only [softirqStep, hpc, Nat.add_sub_cancel, hreg, if_true]
    refine .next hnext (loses_of_running rfl (h _ rfl rfl ?_))
    exact (update_of_ne hne _ _).trans howed
  · have hnext : softirqStep s .next = some { s with pc := .running (b + 1) } := by
      simp only [softirqStep, hpc, Nat.add_sub_cancel, hreg]
      rfl
    exact .next hnext (loses_of_running rfl (h _ rfl rfl howed))

/-- Bits only move down, so that an action whose number is above all of them is not started. -/
theorem loses_of_below (k : Nat) (hk : k ≤ m) (hm : m < nrSoftirqs) (hpc : s.pc = .scan)
    (howed : s.owed m = true) (hbits : ∀ i, s.pending.getLsbD i = true → i < k) : Loses m s := by
  induction k generalizing s with
  | zero =>
    have hzero := eq_zero_of_getLsbD fun i hi => Nat.not_lt_zero i (hbits i hi)
    have hnext : softirqStep s .next = some { s with pc := .drained } := by
      have hffs : ffs (0 : BitVec 64) = 0 := by decide
      simp only [softirqStep, hpc, hzero, hffs, if_true]
    exact .next hnext (loses_of_drained rfl howed (.inl hzero))
  | succ k ih =>
    cases hffs : ffs s.pending with
    | zero =>
      apply ih (by omega) hpc howed
      intro i hi
      have hi32 : i < 32 := by
        have := hbits i hi
        unfold nrSoftirqs at hm
        omega
      rw [ffs_zero hffs hi32] at hi
      cases hi
    | succ b =>
      have hb := hbits b (ffs_succ hffs).1
      have hnext : softirqStep s .next = some { s with pc := .found (b + 1) } := by
        simp only [softirqStep, hpc, hffs]
        rfl
      refine .next hnext (loses_of_found rfl howed (by omega) fun t htpc hpending ht => ?_)
      apply ih (by omega) htpc ht
      intro i hi
      rw [hpending, BitVec.getLsbD_ushiftRight] at hi
      have := hbits _ hi
      omega

theorem loses_of_two (hm : m < nrSoftirqs) (hpc : s.pc = .scan) (howed : s.owed m = true)
    (hbits : ∀ i, s.pending.getLsbD i = true → i ≤ m) (hb : b < m)
    (hbit : s.pending.getLsbD b = true) : Loses m s := by
  have hb32 : b < 32 := by
    unfold nrSoftirqs at hm
    omega
  cases hffs : ffs s.pending with
  | zero =>
    rw [ffs_zero hffs hb32] at hbit
    cases hbit
  | succ c =>
    have hc : c < m := by
      by_contra hge
      rw [(ffs_succ hffs).2 b (by omega)] at hbit
      cases hbit
    have hnext : softirqStep s .next = some { s with pc := .found (c + 1) } := by
      simp only [softirqStep, hpc, hffs]
      rfl
    refine .next hnext (loses_of_found rfl howed (by omega) fun t htpc hpending ht => ?_)
    apply loses_of_below m (Nat.le_refl _) hm htpc ht
    intro i hi
    rw [hpending, BitVec.getLsbD_ushiftRight] at hi
    have := hbits _ hi
    omega

theorem getLsbD_raise (hn : n < nrSoftirqs) (hnr : nr < nrSoftirqs)
    (h : (BIT n ||| BIT nr).getLsbD i = true) : i = n ∨ i = nr := by
  rw [BitVec.getLsbD_or, getLsbD_BIT hn, getLsbD_BIT hnr, Bool.or_eq_true, decide_eq_true_eq,
    decide_eq_true_eq] at h
  rcases h with h | h
  · exact .inl h.symm
  · exact .inr h.symm

theorem Calm.loses_raise (h : Calm s) (hbad : oneAtATime s (.raise nr) = false)
    (hs : softirqStep s (.raise nr) = some s') : ∃ m, Loses m s' := by
  simp only [softirqStep] at hs
  split_ifs at hs with hen
  obtain ⟨hirqs, hnr, -⟩ := hen
  obtain rfl := some_inj.mp hs
  have hphase := h.phase
  have howed : (s.raiseSoftirq nr).owed nr = true := update_self ..
  unfold Phase at hphase
  unfold oneAtATime at hbad
  cases hpc : s.pc with
  | scan =>
    simp only [hpc, decide_eq_false_iff_not, not_or] at hphase hbad
    obtain ⟨n, honly⟩ := hphase.resolve_left fun hidle => hbad.1 hidle.1
    have hne : n ≠ nr := fun heq => hbad.2 (heq ▸ honly.pending)
    have hpending : (s.raiseSoftirq nr).pending = BIT n ||| BIT nr := by
      show s.pending ||| BIT nr = _
      rw [honly.pending]
    have hn : (s.raiseSoftirq nr).owed n = true := by
      show update s.owed nr true n = true
      rw [update_of_ne hne, honly.owed]
      exact decide_eq_true rfl
    have hbitn : (s.raiseSoftirq nr).pending.getLsbD n = true := by
      rw [hpending, BitVec.getLsbD_or, getLsbD_BIT_self honly.lt, Bool.true_or]
    have hbitnr : (s.raiseSoftirq nr).pending.getLsbD nr = true := by
      rw [hpending, BitVec.getLsbD_or, getLsbD_BIT_self hnr, Bool.or_true]
    rcases Nat.lt_or_gt_of_ne hne with hlt | hgt
    · refine ⟨nr, loses_of_two hnr hpc howed (fun i hi => ?_) hlt hbitn⟩
      rw [hpending] at hi
      have := getLsbD_raise honly.lt hnr hi
      omega
    · refine ⟨n, loses_of_two honly.lt hpc hn (fun i hi => ?_) hgt hbitnr⟩
      rw [hpending] at hi
      have := getLsbD_raise honly.lt hnr hi
      omega
  | found =>
    simp only [hpc, decide_eq_false_iff_not] at hphase hbad
    obtain ⟨n, rfl, honly⟩ := hphase
    refine ⟨nr, loses_of_found hpc howed (by omega) fun t htpc hpending ht => ?_⟩
    apply loses_of_below nr (Nat.le_refl _) hnr htpc ht
    intro i hi
    rw [hpending, BitVec.getLsbD_ushiftRight] at hi
    have hor : (BIT n ||| BIT nr).getLsbD (n + 1 + i) = true := honly.pending ▸ hi
    have := getLsbD_raise honly.lt hnr hor
    omega
  | running =>
    simp only [hpc] at hphase
    obtain ⟨n, rfl, hn, hpending, -⟩ := hphase
    refine ⟨nr, loses_of_running hpc (loses_of_below nr (Nat.le_refl _) hnr rfl howed ?_)⟩
    intro i hi
    rw [BitVec.getLsbD_ushiftRight] at hi
    have hor : (BIT n ||| BIT nr).getLsbD (n + 1 + i) = true := hpending ▸ hi
    have := getLsbD_raise hn hnr hor
    omega
  | store =>
    simp only [hpc] at hphase
    obtain ⟨n, rfl, hn, rfl, -⟩ := hphase
    refine ⟨nr, loses_of_store hpc (loses_of_below nr (Nat.le_refl _) hnr rfl howed ?_)⟩
    intro i hi
    rw [BIT_shift hn, BitVec.ofNat_eq_ofNat, BitVec.getLsbD_zero] at hi
    cases hi
  | drained =>
    simp only [hpc, decide_eq_false_iff_not] at hbad
    exact ⟨nr, loses_of_drained hpc howed (.inr hbad)⟩
  | entry | recheck | done =>
    rw [hpc] at hirqs
    cases hirqs

theorem exists_two_bits (hzero : x ≠ 0) (hone : ∀ n < 64, x ≠ BIT n) :
    ∃ m b, b < m ∧ x.getLsbD m = true ∧ x.getLsbD b = true ∧ ∀ i, x.getLsbD i = true → i ≤ m := by
  have hbound : ∀ i, x.getLsbD i = true → i ≤ 63 := by
    intro i hi
    by_contra hge
    rw [BitVec.getLsbD_of_ge x i (by omega)] at hi
    cases hi
  obtain ⟨c, hc⟩ : ∃ c, x.getLsbD c = true := by
    by_contra hnone
    exact hzero (eq_zero_of_getLsbD fun i hi => hnone ⟨i, hi⟩)
  let m := Nat.findGreatest (fun i => x.getLsbD i = true) 63
  have hm : x.getLsbD m = true :=
    Nat.findGreatest_spec (P := fun i => x.getLsbD i = true) (hbound c hc) hc
  have hmax : ∀ i, x.getLsbD i = true → i ≤ m :=
    fun i hi => Nat.le_findGreatest (hbound i hi) hi
  obtain ⟨b, hb, hne⟩ : ∃ b, x.getLsbD b = true ∧ b ≠ m := by
    by_contra hnone
    have hm64 : m < 64 := Nat.lt_succ_of_le (hbound m hm)
    apply hone m hm64
    apply BitVec.eq_of_getLsbD_eq
    intro i _
    rw [BIT, BitVec.getLsbD_twoPow, decide_eq_true hm64, Bool.true_and]
    by_cases hi : m = i
    · rw [decide_eq_true hi, ← hi, hm]
    · rw [decide_eq_false hi, ← Bool.not_eq_true]
      exact fun hx => hnone ⟨i, hx, Ne.symm hi⟩
  exact ⟨m, b, Nat.lt_of_le_of_ne (hmax b hb) hne, hm, hb, hmax⟩

theorem Calm.loses_enter (h : Calm s) (hbad : oneAtATime s (.enter inInterrupt) = false)
    (hs : softirqStep s (.enter inInterrupt) = some s') : ∃ m, Loses m s' := by
  simp only [oneAtATime, Bool.or_eq_false_iff, decide_eq_false_iff_not] at hbad
  obtain ⟨⟨rfl, hzero⟩, hone⟩ := hbad
  simp only [softirqStep] at hs
  split_ifs at hs with hpc hgo
  · obtain rfl := some_inj.mp hs
    have hphase := h.entry hpc
    have hlt : ∀ i, s.pending.getLsbD i = true → i < nrSoftirqs := by
      intro i hi
      exact (h.owed i ((hphase i).trans hi)).2.2
    have hone' : ∀ n < 64, s.pending ≠ BIT n := by
      intro n hn heq
      have hbit : s.pending.getLsbD n = true := by
        rw [heq, BIT, BitVec.getLsbD_twoPow, decide_eq_true hn, decide_eq_true rfl]
        rfl
      have hany := any_eq_false.mp hone n (mem_range.mpr (hlt n hbit))
      exact hany (decide_eq_true heq)
    obtain ⟨m, b, hb, hbitm, hbitb, hmax⟩ := exists_two_bits hzero hone'
    exact ⟨m, loses_of_two (hlt m hbitm) rfl ((hphase m).trans hbitm) hmax hb hbitb⟩
  · exact absurd ⟨trivial, hzero⟩ hgo

/-- Over every run in which softirqs are raised one at a time, `__do_softirq` starts only actions of
softirqs that were raised, and returns with every softirq pending that was raised after the last
start of its action. After a call or a raise that breaks the rule, the function can return with a
softirq lost though nothing more is raised. -/
theorem softirq_not_lost {s : SoftirqCpu}
    (h : softirqMachine.Reach (fun s a => oneAtATime s a = true) s) :
    (∀ nr ∈ s.ran, s.raised nr = true) ∧ (s.pc = .done → ∀ nr, ¬ s.lost nr) ∧
      ∀ a s', softirqStep s a = some s' → oneAtATime s a = false → ∃ nr acts t,
        softirqMachine.run s' acts = some t ∧ (∀ m, SoftirqAct.raise m ∉ acts) ∧
          t.pc = .done ∧ t.lost nr := by
  have hcalm : Calm s := by
    refine h.invariant (I := Calm) (fun _ => calm_init) ?_
    intro s a s' hs hok hstep
    exact hs.step hok hstep
  refine ⟨hcalm.ran, fun hdone nr hlost => ?_, fun a s' hs hbad => ?_⟩
  · have hphase := hcalm.phase
    unfold Phase at hphase
    rw [hdone] at hphase
    have hbit := hphase nr hlost.1
    rw [hlost.2] at hbit
    cases hbit
  · cases a with
    | raise nr => exact hcalm.loses_raise hbad hs
    | enter inInterrupt => exact hcalm.loses_enter hbad hs
    | next | recheck again => cases hbad

/-- A CPU on which the softirqs of a word were raised; all of them have actions. -/
def softirqCpu (pending : BitVec 64) : SoftirqCpu where
  pc := .entry
  pending := pending
  maxRestart := 0
  registered _ := true
  raised nr := pending.getLsbD nr
  ran := []
  owed nr := pending.getLsbD nr

/-- Number 7 is pending; number 3 is raised after its action, and number 0 after the loop. -/
theorem softirq_not_lost_three :
    ∃ s, softirqMachine.Reach (fun s a => oneAtATime s a = true) s ∧ s.pc = .done ∧
      s.ran = [7, 3, 0] ∧ ∀ nr, ¬ s.lost nr := by
  have hinit : softirqMachine.init (softirqCpu (BIT 7)) := by
    refine ⟨rfl, rfl, fun nr hnr => ⟨?_, rfl⟩, fun _ => rfl, fun _ => rfl⟩
    have h7 : 7 = nr := of_decide_eq_true ((getLsbD_BIT (by decide) nr).symm.trans hnr)
    rw [← h7]
    decide
  obtain ⟨s, hreach, hdone, hran⟩ := Machine.exists_reach (G := fun s a => oneAtATime s a = true)
    (P := fun s => s.pc = .done ∧ s.ran = [7, 3, 0]) (.init hinit) [.enter false, .next, .next,
      .next, .next, .raise 3, .next, .next, .next, .next, .next, .raise 0, .next, .recheck true,
      .next, .next, .next, .next, .next, .next, .recheck true] (by decide +kernel)
  exact ⟨s, hreach, hdone, hran, (softirq_not_lost hreach).2.1 hdone⟩

/-- Numbers 1 and 9 are pending. The actions of 1 and 7 are started; that of 9 is not, and 9 is no
longer pending. -/
theorem softirq_confused :
    ∃ s, softirqMachine.Reach Machine.free s ∧ s.pc = .done ∧ s.ran = [1, 7] ∧
      s.raised 7 = false ∧ s.lost 9 := by
  have hinit : softirqMachine.init (softirqCpu (BIT 1 ||| BIT 9)) := by
    refine ⟨rfl, rfl, fun nr hnr => ⟨?_, rfl⟩, fun _ => rfl, fun _ => rfl⟩
    rcases getLsbD_raise (by decide) (by decide) hnr with rfl | rfl
    · decide
    · decide
  exact Machine.exists_reach (G := Machine.free) (P := fun s => s.pc = .done ∧ s.ran = [1, 7] ∧ s.raised 7 = false ∧
    s.owed 9 = true ∧ s.pending.getLsbD 9 = false) (.init hinit) [.enter false, .next, .next,
      .next, .next, .next, .next, .next, .next, .next, .next, .recheck true] (by decide +kernel)

end MinixRt.Irq
