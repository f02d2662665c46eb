import MinixRt.Lib.Machine
import MinixRt.Mm.Space

/-!
# Page-table roots and the CPUs that use them

`context_switch` installs the root of the next task in `TTBR0` when the task has an address
space of its own. For a kernel thread it calls `enter_lazy_tlb`, which does nothing, so the
root of the task before stays installed. `system_exec` gives a task a new `mm_struct` and
frees the old one with its root, from the system thread; `do_default_signal_handle` frees the
`mm_struct` of an exited child. No CPU holds a reference on the root it uses.

The machine has `n` CPUs. `lastUser` records the last task with an address space that a CPU
switched to, and is read by no function.
-/

namespace MinixRt.Sched

open Function Lib Machine
open Mm (Page MmId)

abbrev TaskId := Nat

inductive Stage
  | unborn
  | alive
  | zombie
  | reaped
  deriving DecidableEq

structure State (n : Nat) where
  stage : TaskId → Stage
  /-- `tsk->mm`, and `none` for `init_mm`. -/
  mm : TaskId → Option MmId
  /-- `mm->pgd`. -/
  pgd : MmId → Page
  /-- The `mm_struct` whose root a page is; it is `none` again once the root is freed. -/
  owner : Page → Option MmId
  /-- `in_syscall(task_pt_regs(tsk))`: the last entry to the kernel was a system call. -/
  inSyscall : TaskId → Bool
  current : Fin n → TaskId
  /-- The root in `TTBR0`, and `none` for the reserved one. -/
  ttbr0 : Fin n → Option Page
  /-- The CPU executes user code. -/
  user : Fin n → Bool
  lastUser : Fin n → Option TaskId

section Model

variable {n : Nat}

/-- `switch_mm(prev, next, tsk)` on CPU `c`. -/
def switchMm (s : State n) (c : Fin n) (prev : Option MmId) (next : MmId) : State n :=
  if prev ≠ some next then { s with ttbr0 := update s.ttbr0 c (some (s.pgd next)) }
  else s

/-- `context_switch(rq, prev, next)` on CPU `c`, where `prev` is the current task. -/
def contextSwitch (s : State n) (c : Fin n) (next : TaskId) : State n :=
  let s :=
    match s.mm next with
    -- `enter_lazy_tlb`
    | none => s
    | some mm => { switchMm s c (s.mm (s.current c)) mm with
        lastUser := update s.lastUser c (some next) }
  { s with current := update s.current c next }

/-- `mmap_alloc_mm_struct` with the root `p`. -/
def mmapAllocMmStruct (s : State n) (i : MmId) (p : Page) : Option (State n) :=
  if s.owner p = none ∧ s.owner (s.pgd i) ≠ some i then
    some { s with
      pgd := update s.pgd i p
      owner := update s.owner p (some i) }
  else none

def mmapFreeMmStruct (s : State n) (i : MmId) : State n :=
  { s with owner := update s.owner (s.pgd i) none }

/-- A `system_exec` that succeeds for task `t`; the new `mm_struct` is `i` with the root
`p`. -/
def systemExec (s : State n) (t : TaskId) (i : MmId) (p : Page) : Option (State n) :=
  match s.mm t with
  | none => none
  | some old =>
    if s.inSyscall t then
      (mmapAllocMmStruct s i p).map fun s => mmapFreeMmStruct { s with
        mm := update s.mm t (some i)
        -- `start_thread` forgets the system call
        inSyscall := update s.inSyscall t false } old
    else none

/-- The part of `do_default_signal_handle` for the exited child `t`. -/
def reapChild (s : State n) (t : TaskId) : Option (State n) :=
  (s.mm t).map fun i =>
    mmapFreeMmStruct { s with stage := update s.stage t .reaped } i

inductive Act (n : Nat)
  | contextSwitch (c : Fin n) (next : TaskId)
  /-- The way back to user mode. -/
  | kernelExit (c : Fin n)
  /-- The way into the kernel, by a system call or by an interrupt. -/
  | kernelEntry (c : Fin n) (syscall : Bool)
  | doFork (c : Fin n) (child : TaskId) (i : MmId) (p : Page)
  /-- The system thread runs on `c`. -/
  | systemExec (c : Fin n) (t : TaskId) (i : MmId) (p : Page)
  | taskDoExit (c : Fin n)
  | reapChild (c : Fin n) (t : TaskId)
  deriving DecidableEq

/-- The current task of the CPU runs in the kernel; `own` tells whether it has an address
space of its own. -/
def State.inKernel (s : State n) (c : Fin n) (own : Bool) : Bool :=
  s.user c = false ∧ s.stage (s.current c) = .alive ∧ (s.mm (s.current c)).isSome = own

def step (s : State n) : Act n → Option (State n)
  | .contextSwitch c next =>
    if s.user c = false ∧ s.stage next = .alive ∧ ∀ c', s.current c' ≠ next then
      some (contextSwitch s c next)
    else none
  | .kernelExit c =>
    if s.inKernel c true then some { s with user := update s.user c true } else none
  | .kernelEntry c syscall =>
    if s.user c then
      some { s with
        user := update s.user c false
        inSyscall := update s.inSyscall (s.current c) syscall }
    else none
  | .doFork c child i p =>
    if s.inKernel c true ∧ s.stage child = .unborn then
      (mmapAllocMmStruct s i p).map fun s => { s with
        stage := update s.stage child .alive
        mm := update s.mm child (some i) }
    else none
  | .systemExec c t i p =>
    if s.inKernel c false ∧ (s.stage t = .alive ∨ s.stage t = .zombie) then systemExec s t i p
    else none
  | .taskDoExit c =>
    if s.inKernel c true then
      some { s with stage := update s.stage (s.current c) .zombie }
    else none
  | .reapChild c t =>
    if s.inKernel c true ∧ s.stage t = .zombie then reapChild s t else none

def State.live (s : State n) (t : TaskId) : Prop := s.stage t = .alive ∨ s.stage t = .zombie

/-- Every task has an `mm_struct` of its own, or `init_mm`. -/
structure State.Owned (s : State n) : Prop where
  root : ∀ t i, s.live t → s.mm t = some i → s.owner (s.pgd i) = some i
  inj : ∀ t t' i, s.live t → s.live t' → s.mm t = some i → s.mm t' = some i → t = t'

/-- At the start the CPUs run kernel threads, with the reserved `TTBR0`. -/
def machine (n : Nat) : Machine (State n) (Act n) where
  init s := s.Owned ∧ ∀ c, s.stage (s.current c) = .alive ∧ s.mm (s.current c) = none ∧
    s.ttbr0 c = none ∧ s.user c = false ∧ s.lastUser c = none
  step := step

/-- No root page that the step frees is installed. -/
def KeepsRoots (s s' : State n) : Prop :=
  ∀ p, s.owner p ≠ none → s'.owner p = none → ∀ c, s.ttbr0 c ≠ some p

/-- A CPU in user mode has the root of its current task. -/
def UserRoot (s : State n) : Prop :=
  ∀ c, s.user c = true → ∃ i, s.mm (s.current c) = some i ∧ s.owner (s.pgd i) = some i ∧
    s.ttbr0 c = some (s.pgd i)

/-- A task is the target of an exec or is reaped only when every CPU that ran it has since
switched to another task with an address space. -/
def settled (s : State n) : Act n → Bool
  | .systemExec _ t _ _ | .reapChild _ t => ∀ c, s.lastUser c ≠ some t
  | _ => true

end Model

/-! ## Why the condition is exact -/

/-- A CPU has the root of the last task with an address space that it switched to. -/
structure State.Inv {n : Nat} (s : State n) : Prop where
  owned : s.Owned
  root : ∀ c t, s.lastUser c = some t → s.live t ∧ ∃ i, s.mm t = some i ∧
    s.ttbr0 c = some (s.pgd i)
  reserved : ∀ c, s.lastUser c = none → s.ttbr0 c = none
  current : ∀ c, s.mm (s.current c) ≠ none → s.lastUser c = some (s.current c)
  user : ∀ c, s.user c = true → s.mm (s.current c) ≠ none
  live : ∀ c, s.live (s.current c)

section Proofs

variable {n : Nat} {s s' : State n} {c : Fin n} {t : TaskId} {i : MmId} {p : Page}

section

variable (h : s.Inv)
include h

theorem State.Inv.userRoot : UserRoot s := by
  intro c hc
  have hlast := h.current c (h.user c hc)
  obtain ⟨hlive, i, hi, hroot⟩ := h.root c _ hlast
  exact ⟨i, hi, h.owned.root _ i hlive hi, hroot⟩

/-- The root that is freed with `mm_struct` `i` of task `t` is installed exactly where `t` is
the last task with an address space. -/
theorem State.Inv.installed_iff (ht : s.live t) (hi : s.mm t = some i) (c : Fin n) :
    s.ttbr0 c = some (s.pgd i) ↔ s.lastUser c = some t := by
  constructor
  · intro hroot
    cases hlast : s.lastUser c with
    | none =>
      rw [h.reserved c hlast] at hroot
      cases hroot
    | some t' =>
      obtain ⟨hlive, j, hj, hroot'⟩ := h.root c t' hlast
      have hpgd : s.pgd i = s.pgd j := Option.some.inj (hroot.symm.trans hroot')
      have h1 := h.owned.root t i ht hi
      have h2 := h.owned.root t' j hlive hj
      rw [hpgd, h2] at h1
      obtain rfl := Option.some.inj h1
      rw [h.owned.inj t t' j ht hlive hi hj]
  · intro hlast
    obtain ⟨-, j, hj, hroot⟩ := h.root c t hlast
    obtain rfl := Option.some.inj (hi.symm.trans hj)
    exact hroot

theorem State.Inv.contextSwitch (hc : s.user c = false) {next : TaskId}
    (hnext : s.stage next = .alive) (hother : ∀ c', s.current c' ≠ next) :
    (contextSwitch s c next).Inv := by
  have hlive : ∀ c', s.live (update s.current c next c') := fun c' => by
    by_cases hcc : c' = c
    · subst hcc
      rw [update_self]
      exact .inl hnext
    · rw [update_of_ne hcc]
      exact h.live c'
  unfold Sched.contextSwitch
  cases hmm : s.mm next with
  | none =>
    refine ⟨⟨h.owned.root, h.owned.inj⟩, h.root, h.reserved, fun c' hc' => ?_,
      fun c' hc' => ?_, hlive⟩
    · by_cases hcc : c' = c
      · subst hcc
        simp [hmm] at hc'
      · simpa [hcc] using h.current c' (by simpa [hcc] using hc')
    · have hcc : c' ≠ c := by
        rintro rfl
        simp [hc] at hc'
      simpa [hcc] using h.user c' hc'
  | some i =>
    -- another task is current, so its `mm_struct` is another one
    have hne : s.mm (s.current c) ≠ some i := fun heq => by
      have hlast := h.current c (by rw [heq]; nofun)
      exact hother c (h.owned.inj _ _ i (h.root c _ hlast).1 (.inl hnext) heq hmm)
    simp only [switchMm, if_pos hne]
    refine ⟨⟨h.owned.root, h.owned.inj⟩, fun c' t ht => ?_, fun c' hc' => ?_, fun c' hc' => ?_,
      fun c' hc' => ?_, hlive⟩
    · by_cases hcc : c' = c
      · subst hcc
        simp only [update_self, Option.some.injEq] at ht ⊢
        subst ht
        exact ⟨.inl hnext, i, hmm, rfl⟩
      · simp only [update_of_ne hcc] at ht ⊢
        exact h.root c' t ht
    · by_cases hcc : c' = c
      · subst hcc
        simp at hc'
      · simp only [update_of_ne hcc] at hc' ⊢
        exact h.reserved c' hc'
    · by_cases hcc : c' = c
      · subst hcc
        simp
      · simp only [update_of_ne hcc] at hc' ⊢
        exact h.current c' hc'
    · have hcc : c' ≠ c := by
        rintro rfl
        simp [hc] at hc'
      simpa [hcc] using h.user c' hc'

theorem State.Inv.setMm (hnew : mmapAllocMmStruct s i p = some s')
    (hlast : ∀ c, s.lastUser c ≠ some t) (hcur : ∀ c, s.current c ≠ t) (stage : Stage)
    (inSyscall : TaskId → Bool) : State.Inv { s' with
      stage := update s.stage t stage
      mm := update s.mm t (some i)
      inSyscall := inSyscall } := by
  unfold mmapAllocMmStruct at hnew
  split_ifs at hnew with hfresh
  cases hnew
  -- the other tasks do not have the new `mm_struct`
  have hmm : ∀ {t' j}, t' ≠ t → s.live t' → s.mm t' = some j →
      j ≠ i ∧ s.pgd j ≠ p ∧ s.owner (s.pgd j) = some j := fun {t' j} _ hl hj => by
    have ho := h.owned.root t' j hl hj
    refine ⟨?_, ?_, ho⟩
    · rintro rfl
      exact hfresh.2 ho
    · rintro rfl
      rw [hfresh.1] at ho
      cases ho
  have hlive : ∀ {t'}, t' ≠ t →
      (State.live (n := n) { s with
        pgd := update s.pgd i p
        owner := update s.owner p (some i)
        stage := update s.stage t stage
        mm := update s.mm t (some i)
        inSyscall := inSyscall } t' ↔ s.live t') := fun {t'} ht => by
    simp only [State.live, update_of_ne ht]
  refine ⟨⟨fun t' j hl hj => ?_, fun t1 t2 j h1 h2 hj1 hj2 => ?_⟩, fun c t' ht' => ?_, h.reserved,
    fun c hc => ?_, fun c hc => ?_, fun c => (hlive (hcur c)).mpr (h.live c)⟩
  · by_cases ht : t' = t
    · subst ht
      obtain rfl : i = j := by simpa using hj
      simp
    · simp only [update_of_ne ht] at hj
      obtain ⟨h1, h2, h3⟩ := hmm ht ((hlive ht).mp hl) hj
      simp [h1, h2, h3]
  · by_cases ht1 : t1 = t <;> by_cases ht2 : t2 = t
    · rw [ht1, ht2]
    · subst ht1
      obtain rfl : i = j := by simpa using hj1
      simp only [update_of_ne ht2] at hj2
      exact absurd rfl (hmm ht2 ((hlive ht2).mp h2) hj2).1
    · subst ht2
      obtain rfl : i = j := by simpa using hj2
      simp only [update_of_ne ht1] at hj1
      exact absurd rfl (hmm ht1 ((hlive ht1).mp h1) hj1).1
    · simp only [update_of_ne ht1] at hj1
      simp only [update_of_ne ht2] at hj2
      exact h.owned.inj t1 t2 j ((hlive ht1).mp h1) ((hlive ht2).mp h2) hj1 hj2
  · have ht : t' ≠ t := fun heq => hlast c (heq ▸ ht')
    obtain ⟨hl, j, hj, hroot⟩ := h.root c t' ht'
    refine ⟨(hlive ht).mpr hl, j, by simpa [ht] using hj, ?_⟩
    simpa [(hmm ht hl hj).1] using hroot
  · simp only [update_of_ne (hcur c)] at hc
    exact h.current c hc
  · simp only [update_of_ne (hcur c)]
    exact h.user c hc

theorem State.Inv.mmapFreeMmStruct (ho : s.owner (s.pgd i) = some i)
    (hno : ∀ t, s.live t → s.mm t ≠ some i) : (mmapFreeMmStruct s i).Inv := by
  refine ⟨⟨fun t j hl hj => ?_, h.owned.inj⟩, h.root, h.reserved, h.current, h.user, h.live⟩
  have hroot := h.owned.root t j hl hj
  have hne : s.pgd j ≠ s.pgd i := fun heq => by
    rw [heq, ho] at hroot
    exact hno t hl (Option.some.inj hroot ▸ hj)
  exact (update_of_ne hne _ _).trans hroot

omit h in
theorem mmapAllocMmStruct_some (h : mmapAllocMmStruct s i p = some s') :
    s.owner p = none ∧ s.owner (s.pgd i) ≠ some i ∧ s' = { s with
      pgd := update s.pgd i p
      owner := update s.owner p (some i) } := by
  unfold mmapAllocMmStruct at h
  split_ifs at h with hc
  exact ⟨hc.1, hc.2, (Option.some.inj h).symm⟩

theorem systemExec_some (ht : s.live t) (hs : systemExec s t i p = some s') :
    ∃ old s1, s.mm t = some old ∧ mmapAllocMmStruct s i p = some s1 ∧ old ≠ i ∧
      s' = mmapFreeMmStruct { s1 with
        mm := update s.mm t (some i)
        inSyscall := update s.inSyscall t false } old ∧
      s'.ttbr0 = s.ttbr0 ∧
      ∀ q, s.owner q ≠ none ∧ s'.owner q = none ↔ q = s.pgd old := by
  unfold systemExec at hs
  cases hmm : s.mm t with
  | none => simp [hmm] at hs
  | some old =>
    simp only [hmm] at hs
    split_ifs at hs
    obtain ⟨s1, hs1, rfl⟩ := Option.map_eq_some_iff.mp hs
    obtain ⟨hp, hi, rfl⟩ := mmapAllocMmStruct_some hs1
    have ho := h.owned.root t old ht hmm
    have hne : old ≠ i := by
      rintro rfl
      exact hi ho
    refine ⟨old, _, rfl, hs1, hne, rfl, rfl, fun q => ?_⟩
    simp only [mmapFreeMmStruct, update_of_ne hne]
    by_cases hq : q = s.pgd old
    · subst hq
      simp [ho]
    · rw [update_of_ne hq]
      by_cases hqp : q = p
      · subst hqp
        simp [hp, hq]
      · simp [hqp, hq]

theorem State.Inv.systemExec (ht : s.live t) (hlast : ∀ c, s.lastUser c ≠ some t)
    (hs : systemExec s t i p = some s') : s'.Inv := by
  obtain ⟨old, s1, hmm, hs1, hne, rfl, -⟩ := systemExec_some h ht hs
  have hcur : ∀ c, s.current c ≠ t := fun c heq =>
    hlast c (heq ▸ h.current c (by rw [heq, hmm]; nofun))
  have hset := h.setMm hs1 hlast hcur (s.stage t) (update s.inSyscall t false)
  rw [update_eq_self] at hset
  have ho := h.owned.root t old ht hmm
  obtain ⟨hp, -, rfl⟩ := mmapAllocMmStruct_some hs1
  refine hset.mmapFreeMmStruct ?_ fun t' hl hmm' => ?_
  · have hpgd : s.pgd old ≠ p := fun heq => by
      rw [heq, hp] at ho
      cases ho
    simp [hne, hpgd, ho]
  · by_cases htt : t' = t
    · subst htt
      simp only [update_self, Option.some.injEq] at hmm'
      exact hne hmm'.symm
    · simp only [update_of_ne htt] at hmm'
      exact htt (h.owned.inj t' t old hl ht hmm' hmm)

theorem reapChild_some (ht : s.live t) (hs : reapChild s t = some s') : ∃ i, s.mm t = some i ∧
      s' = mmapFreeMmStruct { s with stage := update s.stage t .reaped } i ∧
      ∀ q, s.owner q ≠ none ∧ s'.owner q = none ↔ q = s.pgd i := by
  obtain ⟨i, hi, rfl⟩ := Option.map_eq_some_iff.mp hs
  have ho := h.owned.root t i ht hi
  refine ⟨i, hi, rfl, fun q => ?_⟩
  by_cases hq : q = s.pgd i
  · subst hq
    simp [mmapFreeMmStruct, ho]
  · simp [mmapFreeMmStruct, hq]

theorem State.Inv.reapChild (ht : s.live t) (hlast : ∀ c, s.lastUser c ≠ some t)
    (hs : reapChild s t = some s') : s'.Inv := by
  obtain ⟨i, hi, rfl, -⟩ := reapChild_some h ht hs
  have hcur : ∀ c, s.current c ≠ t := fun c heq =>
    hlast c (heq ▸ h.current c (by rw [heq, hi]; nofun))
  -- the child is not live any more, the other tasks are as before
  have hlive : ∀ {t'}, State.live (n := n) { s with
      stage := update s.stage t .reaped } t' → t' ≠ t ∧ s.live t' := fun {t'} hl => by
    by_cases htt : t' = t
    · subst htt
      simp [State.live] at hl
    · exact ⟨htt, by simpa [State.live, htt] using hl⟩
  have hlive' : ∀ {t'}, t' ≠ t → s.live t' → State.live (n := n) { s with
      stage := update s.stage t .reaped } t' := fun {t'} htt hl => by
    simpa [State.live, htt] using hl
  refine State.Inv.mmapFreeMmStruct ⟨⟨fun t' j hl => h.owned.root t' j (hlive hl).2,
    fun t1 t2 j h1 h2 => h.owned.inj t1 t2 j (hlive h1).2 (hlive h2).2⟩, fun c t' ht' => ?_,
    h.reserved, h.current, h.user, fun c => hlive' (hcur c) (h.live c)⟩
    (h.owned.root t i ht hi) fun t' hl hmm => ?_
  · obtain ⟨hl, hrest⟩ := h.root c t' ht'
    exact ⟨hlive' (fun heq => hlast c (heq ▸ ht')) hl, hrest⟩
  · exact (hlive hl).1 (h.owned.inj t' t i (hlive hl).2 ht hmm hi)

theorem State.Inv.step {a : Act n} (ha : settled s a = true) (hs : step s a = some s') :
    s'.Inv := by
  cases a <;> simp only [Sched.step] at hs
  case contextSwitch c next =>
    split_ifs at hs with hc
    cases hs
    exact h.contextSwitch hc.1 hc.2.1 hc.2.2
  case kernelExit c =>
    simp only [State.inKernel, decide_eq_true_eq] at hs
    split_ifs at hs with hc
    cases hs
    refine ⟨⟨h.owned.root, h.owned.inj⟩, h.root, h.reserved, h.current, fun c' hc' => ?_, h.live⟩
    by_cases hcc : c' = c
    · subst hcc
      intro hnone
      change s.mm (s.current c') = none at hnone
      simp [hnone] at hc
    · exact h.user c' (by simpa [hcc] using hc')
  case kernelEntry c syscall =>
    split_ifs at hs with hc
    cases hs
    refine ⟨⟨h.owned.root, h.owned.inj⟩, h.root, h.reserved, h.current, fun c' hc' => ?_, h.live⟩
    by_cases hcc : c' = c
    · subst hcc
      simp at hc'
    · exact h.user c' (by simpa [hcc] using hc')
  case doFork c child i p =>
    split_ifs at hs with hc
    obtain ⟨s1, hs1, rfl⟩ := Option.map_eq_some_iff.mp hs
    have hdead : ∀ {t}, s.live t → t ≠ child := fun {t} hl heq => by
      rw [heq, State.live, hc.2] at hl
      simp at hl
    have hset := h.setMm hs1 (fun c' hc' => hdead (h.root c' child hc').1 rfl)
      (fun c' => hdead (h.live c')) .alive s1.inSyscall
    obtain ⟨-, -, rfl⟩ := mmapAllocMmStruct_some hs1
    exact hset
  case systemExec c t i p =>
    split_ifs at hs with hc
    simp only [settled, decide_eq_true_eq] at ha
    exact h.systemExec hc.2 ha hs
  case taskDoExit c =>
    split_ifs at hs
    cases hs
    have hlive : ∀ t', State.live (n := n) { s with
        stage := update s.stage (s.current c) .zombie } t' ↔ s.live t' := fun t' => by
      by_cases htt : t' = s.current c
      · subst htt
        exact ⟨fun _ => h.live c, fun _ => .inr (update_self ..)⟩
      · simp [State.live, htt]
    refine ⟨⟨fun t j hl => h.owned.root t j ((hlive t).mp hl),
      fun t1 t2 j h1 h2 => h.owned.inj t1 t2 j ((hlive t1).mp h1) ((hlive t2).mp h2)⟩,
      fun c' t ht => ?_, h.reserved, h.current, h.user, fun c' => (hlive _).mpr (h.live c')⟩
    obtain ⟨hl, hrest⟩ := h.root c' t ht
    exact ⟨(hlive t).mpr hl, hrest⟩
  case reapChild c t =>
    split_ifs at hs with hc
    simp only [settled, decide_eq_true_eq] at ha
    exact h.reapChild (.inr hc.2) ha hs

end

theorem State.Inv.of_reach (h : (machine n).Reach (fun s a => settled s a = true) s) : s.Inv :=
  Reach.invariant (I := State.Inv)
    (fun s hs => by
      obtain ⟨howned, hcpu⟩ := hs
      refine ⟨howned, fun c t ht => ?_, fun c _ => (hcpu c).2.2.1, fun c hc => ?_, fun c hc => ?_,
        fun c => .inl (hcpu c).1⟩
      · rw [(hcpu c).2.2.2.2] at ht
        cases ht
      · exact absurd (hcpu c).2.1 hc
      · rw [(hcpu c).2.2.2.1] at hc
        cases hc)
    (fun _ _ _ hI ha hs => hI.step ha hs) h

theorem keepsRoots_of_owner (h : ∀ p, s'.owner p = none → s.owner p = none) : KeepsRoots s s' :=
  fun p hp hp' => absurd (h p hp') hp

theorem State.Inv.keepsRoots_iff (h : s.Inv) (ht : s.live t) (hi : s.mm t = some i)
    (hfreed : ∀ q, s.owner q ≠ none ∧ s'.owner q = none ↔ q = s.pgd i) :
    KeepsRoots s s' ↔ ∀ c, s.lastUser c ≠ some t := by
  constructor
  · intro hk c hlast
    obtain ⟨h1, h2⟩ := (hfreed (s.pgd i)).mpr rfl
    exact hk _ h1 h2 c ((h.installed_iff ht hi c).mpr hlast)
  · intro hlast q h1 h2 c hroot
    rw [(hfreed q).mp ⟨h1, h2⟩] at hroot
    exact hlast c ((h.installed_iff ht hi c).mp hroot)

/-- **Installed roots stay alive** in the runs that meet the condition, and a step that does
not meet it frees an installed root. -/
theorem roots_alive (h : (machine n).Reach (fun s a => settled s a = true) s) :
    UserRoot s ∧
      ∀ a s', (machine n).step s a = some s' → (KeepsRoots s s' ↔ settled s a = true) := by
  have hinv := State.Inv.of_reach h
  refine ⟨hinv.userRoot, fun a s' hs => ?_⟩
  simp only [machine] at hs
  cases a with
  | systemExec c t i p =>
    simp only [step] at hs
    split_ifs at hs with hc
    obtain ⟨old, -, hmm, -, -, -, -, hfreed⟩ := systemExec_some hinv hc.2 hs
    simpa [settled] using hinv.keepsRoots_iff hc.2 hmm hfreed
  | reapChild c t =>
    simp only [step] at hs
    split_ifs at hs with hc
    obtain ⟨i, hmm, -, hfreed⟩ := reapChild_some hinv (.inr hc.2) hs
    simpa [settled] using hinv.keepsRoots_iff (.inr hc.2) hmm hfreed
  | contextSwitch c next =>
    refine iff_of_true (keepsRoots_of_owner fun p hp => ?_) rfl
    simp only [step] at hs
    split_ifs at hs
    cases hs
    unfold contextSwitch switchMm at hp
    split at hp
    · exact hp
    · split_ifs at hp <;> exact hp
  | doFork c child i p =>
    refine iff_of_true (keepsRoots_of_owner fun q hq => ?_) rfl
    simp only [step] at hs
    split_ifs at hs
    obtain ⟨s1, hs1, rfl⟩ := Option.map_eq_some_iff.mp hs
    obtain ⟨-, -, rfl⟩ := mmapAllocMmStruct_some hs1
    by_cases hqp : q = p
    · subst hqp
      simp at hq
    · simpa [hqp] using hq
  | kernelExit c | kernelEntry c syscall | taskDoExit c =>
    refine iff_of_true (keepsRoots_of_owner fun p hp => ?_) rfl
    simp only [step] at hs
    split_ifs at hs
    cases hs
    exact hp

end Proofs

/-! ## Two runs -/

/-- Task 0 is the system thread and task 1 the idle thread of the other CPU; tasks 2 and 3
have address spaces. -/
def booted : State 2 where
  stage t := if t < 4 then .alive else .unborn
  mm t := if t = 2 ∨ t = 3 then some t else none
  pgd i := i
  owner p := if p = 2 ∨ p = 3 then some p else none
  inSyscall _ := false
  current c := c
  ttbr0 _ := none
  user _ := false
  lastUser _ := none

theorem booted_init : (machine 2).init booted := by
  refine ⟨⟨fun t i _ hi => ?_, fun t t' i _ _ hi hi' => ?_⟩, by decide⟩
  · simp only [booted] at hi ⊢
    split_ifs at hi with ht
    cases hi
    rw [if_pos ht]
  · simp only [booted] at hi hi'
    split_ifs at hi
    split_ifs at hi'
    cases hi
    cases hi'
    rfl

local instance neZero_two : NeZero 2 := ⟨nofun⟩

/-- Task 2 makes a system call on CPU 1 and gives way to another task. -/
def callAndSwitch (next : TaskId) : List (Act 2) :=
  [.contextSwitch 1 2, .kernelExit 1, .kernelEntry 1 true, .contextSwitch 1 next]

/-- Task 3 has run on the CPU since, so that an exec of task 2 keeps the installed roots. -/
theorem roots_alive_after_switch : ∃ s s', (machine 2).run booted (callAndSwitch 3) = some s ∧
    (machine 2).step s (.systemExec 0 2 4 4) = some s' ∧ s.ttbr0 1 = some 3 ∧ KeepsRoots s s' := by
  obtain ⟨s, hs, hreach, hstep, httbr, hsettled⟩ := exists_run
    (G := fun s a => settled s a = true) (P := fun s =>
      ((machine 2).step s (.systemExec 0 2 4 4)).isSome ∧ s.ttbr0 1 = some 3 ∧
        settled s (.systemExec 0 2 4 4)) (.init booted_init) (callAndSwitch 3) (by decide +kernel)
  obtain ⟨s', hs'⟩ := Option.isSome_iff_exists.mp hstep
  exact ⟨s, s', hs, hs', httbr, ((roots_alive hreach).2 _ _ hs').mpr hsettled⟩

/-- The idle thread runs on the CPU after task 2: the exec frees the root that is still
installed there. -/
theorem roots_freed : ¬ ∀ s a s', (machine 2).Reach free s → (machine 2).step s a = some s' →
    KeepsRoots s s' := by
  intro h
  obtain ⟨s, hreach, httbr, howner, hval⟩ := exists_reach (G := free) (P := fun s =>
    s.ttbr0 1 = some 2 ∧ s.owner 2 = some 2 ∧
      ((machine 2).step s (.systemExec 0 2 4 4)).map (·.owner 2) = some none) (.init booted_init) (callAndSwitch 1) (by decide +kernel)
  obtain ⟨s', hs', hfreed⟩ := Option.map_eq_some_iff.mp hval
  exact h s _ s' hreach hs' 2 (by rw [howner]; nofun) hfreed 1 httbr

end MinixRt.Sched
