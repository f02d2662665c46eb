import MinixRt.PageAlloc.Conserve

/-!
# Accesses to the per-CPU lists

The calls of the page allocator, cut between the accesses that other CPUs can see. A call runs
on a CPU and has to wait while another call of that CPU has interrupts off; with interrupts on
it can be moved to another CPU. `zone->lock` has one holder at a time.

A list of pages belongs to a zone and a CPU, and `local_irq_save` is all that protects it. The
calls that use the list of their own CPU exclude each other in this way. An allocation that
finds no page empties the lists of the other CPUs, and excludes nobody there.
-/

namespace MinixRt.PageAlloc

open Function MinixRt.Lib
open Option (bind_eq_some_iff map_eq_some_iff)

variable {ζ : Type} {train : Bool} {cpu : Nat} {z : ζ}

/-! ## Calls -/

/-- What a call does after `free_pcppages_bulk`. -/
inductive AfterBulk
  | freed
  /-- Back in the loop over the online CPUs, with those that are left. -/
  | drained (order : Nat) (others : List Nat)
  deriving DecidableEq

inductive Pc (ζ : Type)
  | idle
  /-- Before `rmqueue` in `get_page_from_freelist`. -/
  | retry (z : ζ) (order : Nat) (train : Bool)
  /-- `__rmqueue_smallest` for more than one page, under the lock. -/
  | rmqueuePages (z : ζ) (order : Nat) (train : Bool)
  /-- `list_empty` in `__rmqueue_pcplist`. -/
  | listEmpty (z : ζ) (train : Bool)
  | lockBulk (z : ζ) (train : Bool)
  /-- The loop of `rmqueue_bulk`, under the lock, with the turns that are left. -/
  | rmqueueBulk (z : ζ) (left alloced : Nat) (train : Bool)
  /-- `pcp->count += …`. -/
  | addCount (z : ζ) (alloced : Nat) (train : Bool)
  /-- From the second `list_empty` to `check_new_pcp`. -/
  | takeFirst (z : ζ) (train : Bool)
  | prepNewPage (z : ζ) (order pfn : Nat)
  /-- The loop over the online CPUs that are left. -/
  | drain (z : ζ) (order : Nat) (others : List Nat) (train : Bool)
  /-- `if (pcp->count)` in `drain_pages_zone`. -/
  | readCount (z : ζ) (cpu order : Nat) (others : List Nat)
  /-- The loops of `free_pcppages_bulk` that detach pages of a CPU's list, with the pages
  detached so far. -/
  | detach (z : ζ) (cpu count batchFree : Nat) (pages : List Nat) (after : AfterBulk)
  | lockDetached (z : ζ) (pages : List Nat) (after : AfterBulk)
  /-- The loop of `free_pcppages_bulk` under the lock. -/
  | freeDetached (z : ζ) (pages : List Nat) (after : AfterBulk)
  /-- Before `local_irq_save` in `free_unref_page`. -/
  | freeUnrefPage (pfn : Nat)
  | freeUnrefPageCommit (pfn : Nat)
  /-- Before the lock in `free_one_page`. -/
  | freeOnePage (b : Block)
  deriving DecidableEq

def Pc.irqOff : Pc ζ → Bool
  | .idle | .retry .. | .prepNewPage .. | .drain .. | .freeUnrefPage .. | .freeOnePage .. => false
  | _ => true

structure ListAccess (ζ : Type) where
  zone : ζ
  cpu : Nat
  modifies : Bool
  deriving DecidableEq

/-- The access to a per-CPU list that a call on `cpu` makes in its next step. -/
def Pc.access (C : Config ζ) (cpu : Nat) : Pc ζ → Option (ListAccess ζ)
  | .listEmpty z _ => some ⟨z, cpu, false⟩
  | .rmqueueBulk z (_ + 1) _ _ | .addCount z _ _ | .takeFirst z _ => some ⟨z, cpu, true⟩
  | .readCount z target _ _ => some ⟨z, target, false⟩
  | .detach z target (_ + 1) _ _ _ => some ⟨z, target, true⟩
  | .freeUnrefPageCommit pfn => some ⟨C.zone pfn, cpu, true⟩
  | _ => none

structure Shared (ζ : Type) where
  mem : Allocator ζ
  lock : ζ → Bool

section Step

variable [DecidableEq ζ]

/-- `spin_lock`, in a step that has to wait while the lock is taken. -/
def Shared.spinLock (m : Shared ζ) (z : ζ) : Option (Shared ζ) :=
  if m.lock z then none else some { m with lock := update m.lock z true }

def Shared.spinUnlock (m : Shared ζ) (z : ζ) : Shared ζ :=
  { m with lock := update m.lock z false }

def Shared.setZones (m : Shared ζ) (s : Zones ζ) : Shared ζ :=
  { m with mem := { m.mem with zones := s } }

/-- One turn of the loop of `rmqueue` for more than one page. -/
def execRmqueuePages (C : Config ζ) (online : List Nat) (m : Shared ζ) (z : ζ) (order : Nat)
    (train : Bool) : Option (Shared ζ × Pc ζ) :=
  match rmqueueSmallest C m.mem.zones z order with
  | none => none
  | some (s, none) => some ((m.setZones s).spinUnlock z, .drain z order online train)
  | some (s, some pfn) =>
    match checkNewPages s (List.range' pfn (2 ^ order)) with
    | (s, true) => some (m.setZones s, .rmqueuePages z order train)
    | (s, false) => some ((m.setZones s).spinUnlock z, .prepNewPage z order pfn)

/-- One turn of the loop of `rmqueue_bulk`. -/
def execRmqueueBulk (C : Config ζ) (cpu : Nat) (m : Shared ζ) (z : ζ) (alloced : Nat)
    (train : Bool) : (left : Nat) → Option (Shared ζ × Pc ζ)
  | 0 => some (m.spinUnlock z, .addCount z alloced train)
  | left + 1 =>
    match rmqueueSmallest C m.mem.zones z 0 with
    | none => none
    | some (s, none) => some ((m.setZones s).spinUnlock z, .addCount z alloced train)
    | some (s, some pfn) =>
      some (m.setZones (s.listAddTail pfn (.pcp z cpu)), .rmqueueBulk z left (alloced + 1) train)

/-- The end of a turn of the loop of `__rmqueue_pcplist`. -/
def execTakeFirst (online : List Nat) (cpu : Nat) (m : Shared ζ) (z : ζ) (train : Bool) :
    Shared ζ × Pc ζ :=
  match m.mem.zones.listFirst (.pcp z cpu) with
  | none => (m, .drain z 0 online train)
  | some pfn =>
    match checkNewPage ((m.mem.zones.listDel pfn).addCount z cpu (-1)) pfn with
    | (s, true) => (m.setZones s, .listEmpty z train)
    | (s, false) => (m.setZones s, .prepNewPage z 0 pfn)

/-- One turn of the loops of `free_pcppages_bulk` that detach pages. -/
def execDetach (m : Shared ζ) (z : ζ) (cpu batchFree : Nat) (pages : List Nat)
    (after : AfterBulk) : (count : Nat) → Option (Shared ζ × Pc ζ)
  | 0 => some (m, .lockDetached z pages after)
  | count + 1 =>
    match m.mem.zones.listLast (.pcp z cpu) with
    | none => none
    | some pfn =>
      let s := (m.mem.zones.listDel pfn).addCount z cpu (-1)
      let batchFree := if batchFree - 1 ≠ 0 && !s.listEmpty (.pcp z cpu) then batchFree - 1
        else batchFree - 1 + 1
      some (m.setZones s, .detach z cpu count batchFree (pages ++ [pfn]) after)

/-- One turn of the loop of `free_pcppages_bulk` under the lock. -/
def execFreeDetached (C : Config ζ) (m : Shared ζ) (z : ζ) (after : AfterBulk) :
    (pages : List Nat) → Option (Shared ζ × Pc ζ)
  | pfn :: pages => (freeOnePage C m.mem.zones z ⟨pfn, 0⟩).map fun s =>
      (m.setZones s, .freeDetached z pages after)
  | [] =>
    match after with
    | .freed => some (m.spinUnlock z, .idle)
    | .drained order others => some (m.spinUnlock z, .drain z order others true)

/-- The loop of `get_page_from_freelist` over the online CPUs. -/
def execDrain (cpu : Nat) (z : ζ) (order : Nat) (train : Bool) : (others : List Nat) → Pc ζ
  | [] => if train then .retry z order train else .idle
  | other :: others =>
    if other = cpu then .drain z order others train else .readCount z other order others

/-- The first half of `free_unref_page_commit`. -/
def execCommit (C : Config ζ) (cpu : Nat) (m : Shared ζ) (pfn : Nat) : Shared ζ × Pc ζ :=
  let z := C.zone pfn
  let s := (m.mem.zones.listAdd pfn (.pcp z cpu)).addCount z cpu 1
  let pcp := s.pcp (z, cpu)
  (m.setZones s, if pcp.high ≤ pcp.count then .detach z cpu pcp.batch.toNat 1 [] .freed else .idle)

/-- The next step of a call that runs on `cpu`. -/
def exec (C : Config ζ) (online : List Nat) (cpu : Nat) (m : Shared ζ) :
    Pc ζ → Option (Shared ζ × Pc ζ)
  | .idle => none
  | .retry z order train =>
    if order = 0 then some (m, .listEmpty z train)
    else (m.spinLock z).map (·, .rmqueuePages z order train)
  | .rmqueuePages z order train => execRmqueuePages C online m z order train
  | .listEmpty z train =>
    some (m, if m.mem.zones.listEmpty (.pcp z cpu) then .lockBulk z train else .takeFirst z train)
  | .lockBulk z train => (m.spinLock z).map
      (·, .rmqueueBulk z (m.mem.zones.pcp (z, cpu)).batch.toNat 0 train)
  | .rmqueueBulk z left alloced train => execRmqueueBulk C cpu m z alloced train left
  | .addCount z alloced train =>
    some (m.setZones (m.mem.zones.addCount z cpu alloced), .takeFirst z train)
  | .takeFirst z train => some (execTakeFirst online cpu m z train)
  | .prepNewPage z order pfn => (prepNewPage m.mem.zones ⟨pfn, order⟩).map fun s =>
      ({ m with mem := ⟨s, (z, ⟨pfn, order⟩) :: m.mem.allocated⟩ }, .idle)
  | .drain z order others train => some (m, execDrain cpu z order train others)
  | .readCount z other order others =>
    let count := (m.mem.zones.pcp (z, other)).count
    some (m, if count = 0 then .drain z order others false
      else .detach z other count.toNat 1 [] (.drained order others))
  | .detach z target count batchFree pages after =>
    execDetach m z target batchFree pages after count
  | .lockDetached z pages after => (m.spinLock z).map (·, .freeDetached z pages after)
  | .freeDetached z pages after => execFreeDetached C m z after pages
  | .freeUnrefPage pfn => some (m, .freeUnrefPageCommit pfn)
  | .freeUnrefPageCommit pfn => some (execCommit C cpu m pfn)
  | .freeOnePage b =>
    if m.lock (C.zone b.base) then none
    else (freeOnePage C m.mem.zones (C.zone b.base) b).map (m.setZones ·, .idle)

/-- `__free_pages` up to `free_unref_page` or `free_one_page`: it touches the pages of the block
only. -/
def startFree (m : Shared ζ) (z : ζ) (b : Block) : Option (Shared ζ × Pc ζ) :=
  if (z, b) ∈ m.mem.allocated then
    let p := m.mem.zones.pages b.base
    if p.refcount = 0 then none
    else
      let s := m.mem.zones.setPage b.base { p with refcount := p.refcount - 1 }
      let allocated := m.mem.allocated.erase (z, b)
      if p.refcount - 1 = 0 then
        (freePagesPrepare s b).map fun (s, good) => ({ m with mem := ⟨s, allocated⟩ },
          if !good then .idle else if b.order = 0 then .freeUnrefPage b.base else .freeOnePage b)
      else some ({ m with mem := ⟨s, allocated⟩ }, .idle)
  else none

/-! ## Interleavings -/

structure Running (ζ : Type) where
  cpu : Nat
  pc : Pc ζ
  deriving DecidableEq

structure Smp (ζ : Type) where
  shared : Shared ζ
  calls : Nat → Running ζ
  /-- The call that has switched the interrupts of a CPU off. -/
  irqOff : Nat → Option Nat

inductive SmpAct (ζ : Type)
  | alloc (i cpu : Nat) (z : ζ) (order : Nat)
  | free (i cpu : Nat) (z : ζ) (b : Block)
  | migrate (i cpu : Nat)
  | run (i : Nat)

/-- Call `i` goes on at a place where interrupts are as `Pc.irqOff` says. -/
def Smp.goto (s : Smp ζ) (i : Nat) (next : Shared ζ × Pc ζ) : Smp ζ where
  shared := next.1
  calls := update s.calls i { s.calls i with pc := next.2 }
  irqOff := update s.irqOff (s.calls i).cpu (if next.2.irqOff then some i else none)

/-- A call is not interrupted by, and does not run next to, a call of its CPU that has switched
the interrupts off. -/
def Smp.CanRun (s : Smp ζ) (i : Nat) : Prop :=
  s.irqOff (s.calls i).cpu = none ∨ s.irqOff (s.calls i).cpu = some i

instance (s : Smp ζ) (i : Nat) : Decidable (s.CanRun i) := by
  unfold Smp.CanRun
  infer_instance

def Smp.step (C : Config ζ) (online : List Nat) (s : Smp ζ) : SmpAct ζ → Option (Smp ζ)
  | .alloc i cpu z order =>
    if (s.calls i).pc = .idle ∧ cpu ∈ online then
      let pc := if C.maxOrder ≤ order then .idle else .retry z order false
      some { s with calls := update s.calls i ⟨cpu, pc⟩ }
    else none
  | .free i cpu z b =>
    if (s.calls i).pc = .idle ∧ cpu ∈ online then
      (startFree s.shared z b).map fun (m, pc) =>
        { s with shared := m, calls := update s.calls i ⟨cpu, pc⟩ }
    else none
  | .migrate i cpu =>
    if (s.calls i).pc.irqOff = false ∧ cpu ∈ online then
      some { s with calls := update s.calls i { s.calls i with cpu := cpu } }
    else none
  | .run i =>
    if s.CanRun i then
      (exec C online (s.calls i).cpu s.shared (s.calls i).pc).map (s.goto i)
    else none

structure Smp.Started (C : Config ζ) (online : List Nat) (batch : ζ → Nat) (s : Smp ζ) :
    Prop where
  mem : s.shared.mem.Started C online batch
  lock : ∀ z, s.shared.lock z = false
  idle : ∀ i, (s.calls i).pc = .idle
  irqOff : ∀ cpu, s.irqOff cpu = none

def smpMachine (C : Config ζ) (online : List Nat) (batch : ζ → Nat) :
    Machine (Smp ζ) (SmpAct ζ) where
  init := Smp.Started C online batch
  step := Smp.step C online

end Step

/-- Two CPUs are about to access one per-CPU list, and one of the accesses modifies it. -/
def Smp.Races (C : Config ζ) (s : Smp ζ) (i j : Nat) : Prop :=
  (s.calls i).cpu ≠ (s.calls j).cpu ∧
    ∃ a ∈ (s.calls i).pc.access C (s.calls i).cpu, ∃ b ∈ (s.calls j).pc.access C (s.calls j).cpu,
      a.zone = b.zone ∧ a.cpu = b.cpu ∧ (a.modifies || b.modifies)

/-! ## Runs without shortage -/

/-- Every allocation finds a page in its first round: a single page is on the list of the CPU
after the refill, and for a larger block some free area of its order or above has a block. -/
def Pc.Supplied (C : Config ζ) (cpu : Nat) (s : Zones ζ) : Pc ζ → Prop
  | .takeFirst z _ => s.listFirst (.pcp z cpu) ≠ none
  | .rmqueuePages z order _ =>
    ∃ o < C.maxOrder, order ≤ o ∧ s.listFirst (.freeList z o) ≠ none
  | _ => True

def Supplied (C : Config ζ) (s : Smp ζ) : SmpAct ζ → Prop
  | .run i => (s.calls i).pc.Supplied C (s.calls i).cpu s.shared.mem.zones
  | _ => True

instance (C : Config ζ) (s : Smp ζ) (a : SmpAct ζ) : Decidable (Supplied C s a) := by
  unfold Supplied Pc.Supplied
  split
  · split <;> infer_instance
  · infer_instance

/-- A call on `cpu` that leaves the lists of other CPUs alone. -/
def Pc.Local (cpu : Nat) : Pc ζ → Prop
  | .drain .. | .readCount .. => False
  | .detach _ target _ _ _ after => target = cpu ∧ after = .freed
  | .lockDetached _ _ after | .freeDetached _ _ after => after = .freed
  | _ => True

variable {pc : Pc ζ}

theorem Pc.Local.access_cpu {C : Config ζ} (h : pc.Local cpu) {a : ListAccess ζ}
    (ha : a ∈ pc.access C cpu) : a.cpu = cpu := by
  cases pc with
  | readCount => exact h.elim
  | rmqueueBulk z left =>
    cases left <;> cases ha
    rfl
  | detach z target count =>
    cases count <;> cases ha
    exact h.1
  | _ => cases ha <;> rfl

theorem Pc.Local.migrate (h : pc.Local cpu) (hirq : pc.irqOff = false) (cpu' : Nat) :
    pc.Local cpu' := by
  cases pc with
  | detach => cases hirq
  | _ => exact h

/-- Every call keeps to the lists of its own CPU. -/
def Smp.Local (s : Smp ζ) : Prop := ∀ i, (s.calls i).pc.Local (s.calls i).cpu

theorem Smp.Local.update {s : Smp ζ} (h : s.Local) {i : Nat} {r : Running ζ}
    (hr : r.pc.Local r.cpu) : ∀ j, (update s.calls i r j).pc.Local (update s.calls i r j).cpu := by
  intro j
  by_cases hj : j = i
  · subst hj
    rw [update_self]
    exact hr
  · rw [update_of_ne hj]
    exact h j

theorem rmqueueFrom_ne_none [DecidableEq ζ] {s s' : Zones ζ} {order : Nat} :
    ∀ {left current : Nat}, (∃ o, current ≤ o ∧ o < current + left ∧
      s.listFirst (.freeList z o) ≠ none) → rmqueueFrom z order s left current ≠ some (s', none) := by
  intro left
  induction left with
  | zero =>
    rintro current ⟨o, hle, hlt, -⟩
    omega
  | succ left ih =>
    rintro current ⟨o, hle, hlt, ho⟩ heq
    rw [rmqueueFrom] at heq
    split at heq
    · rename_i hnone
      have hne : o ≠ current := by
        rintro rfl
        exact ho hnone
      exact ih ⟨o, by omega, by omega, ho⟩ heq
    · simp [bind_eq_some_iff] at heq

section Run

variable [DecidableEq ζ] {C : Config ζ} {online : List Nat}

variable {m m' : Shared ζ} {pc : Pc ζ}

theorem execRmqueuePages_local {order : Nat}
    (hsupply : ∃ o < C.maxOrder, order ≤ o ∧ m.mem.zones.listFirst (.freeList z o) ≠ none)
    (h : execRmqueuePages C online m z order train = some (m', pc)) (cpu : Nat) : pc.Local cpu := by
  obtain ⟨o, hlt, hle, ho⟩ := hsupply
  revert h
  fun_cases execRmqueuePages C online m z order train with
  | case1 => nofun
  | case2 s hs => exact absurd hs (rmqueueFrom_ne_none ⟨o, hle, by omega, ho⟩)
  | case3 | case4 =>
    rintro ⟨⟩
    trivial

theorem execRmqueueBulk_local {alloced left : Nat} (h : execRmqueueBulk C cpu m z alloced train left = some (m', pc)) :
    pc.Local cpu := by
  revert h
  fun_cases execRmqueueBulk C cpu m z alloced train left with
  | case2 => nofun
  | case1 | case3 | case4 =>
    rintro ⟨⟩
    trivial

theorem execTakeFirst_local {m : Shared ζ} (hsupply : m.mem.zones.listFirst (.pcp z cpu) ≠ none) :
    (execTakeFirst online cpu m z train).2.Local cpu := by
  fun_cases execTakeFirst online cpu m z train with
  | case1 hnone => exact absurd hnone hsupply
  | case2 | case3 => trivial

variable {pages : List Nat}

theorem execDetach_local {batchFree count : Nat} 
    (h : execDetach m z cpu batchFree pages .freed count = some (m', pc)) : pc.Local cpu := by
  revert h
  fun_cases execDetach m z cpu batchFree pages .freed count with
  | case1 =>
    rintro ⟨⟩
    rfl
  | case2 => nofun
  | case3 =>
    rintro ⟨⟩
    exact ⟨rfl, rfl⟩

theorem execFreeDetached_local (h : execFreeDetached C m z .freed pages = some (m', pc))
    (cpu : Nat) : pc.Local cpu := by
  cases pages with
  | nil =>
    cases h
    trivial
  | cons =>
    obtain ⟨s, -, hs⟩ := map_eq_some_iff.mp h
    cases hs
    rfl

theorem execCommit_local (cpu : Nat) (m : Shared ζ) (pfn : Nat) :
    (execCommit C cpu m pfn).2.Local cpu := by
  dsimp only [execCommit]
  split_ifs
  · exact ⟨rfl, rfl⟩
  · trivial

theorem exec_local {pc pc' : Pc ζ} (hlocal : pc.Local cpu) (hsupply : pc.Supplied C cpu m.mem.zones)
    (h : exec C online cpu m pc = some (m', pc')) : pc'.Local cpu := by
  cases pc with
  | idle => cases h
  | retry =>
    dsimp only [exec] at h
    split_ifs at h
    · cases h
      trivial
    · obtain ⟨m1, -, hm⟩ := map_eq_some_iff.mp h
      cases hm
      trivial
  | rmqueuePages => exact execRmqueuePages_local hsupply h cpu
  | listEmpty =>
    cases h
    split_ifs <;> trivial
  | lockBulk =>
    obtain ⟨m1, -, hm⟩ := map_eq_some_iff.mp h
    cases hm
    trivial
  | rmqueueBulk => exact execRmqueueBulk_local h
  | addCount =>
    cases h
    trivial
  | takeFirst z train =>
    have heq := Option.some.inj h
    rw [show pc' = (execTakeFirst online cpu m z train).2 by rw [heq]]
    exact execTakeFirst_local hsupply
  | prepNewPage =>
    obtain ⟨s, -, hs⟩ := map_eq_some_iff.mp h
    cases hs
    trivial
  | drain | readCount => exact hlocal.elim
  | detach =>
    obtain ⟨rfl, rfl⟩ := hlocal
    exact execDetach_local h
  | lockDetached =>
    obtain ⟨m1, -, hm⟩ := map_eq_some_iff.mp h
    cases hm
    exact hlocal
  | freeDetached z pages after =>
    cases (show after = .freed from hlocal)
    exact execFreeDetached_local h cpu
  | freeUnrefPage =>
    cases h
    trivial
  | freeUnrefPageCommit pfn =>
    have heq := Option.some.inj h
    rw [show pc' = (execCommit C cpu m pfn).2 by rw [heq]]
    exact execCommit_local cpu m pfn
  | freeOnePage =>
    dsimp only [exec] at h
    split_ifs at h
    obtain ⟨s, -, hs⟩ := map_eq_some_iff.mp h
    cases hs
    trivial

theorem startFree_local {b : Block} (h : startFree m z b = some (m', pc)) (cpu : Nat) :
    pc.Local cpu := by
  revert h
  fun_cases startFree m z b with
  | case1 | case4 => nofun
  | case2 =>
    intro h
    obtain ⟨⟨s, good⟩, -, hs⟩ := map_eq_some_iff.mp h
    cases hs
    split_ifs <;> trivial
  | case3 =>
    rintro ⟨⟩
    trivial

theorem Smp.Local.step {s s' : Smp ζ} {a : SmpAct ζ} (h : s.Local) (hsupply : Supplied C s a)
    (hstep : s.step C online a = some s') : s'.Local := by
  cases a <;> dsimp only [Smp.step] at hstep
  case alloc i cpu z order =>
    split_ifs at hstep with hidle hbig <;> cases hstep
    all_goals exact h.update trivial
  case free i cpu z b =>
    split_ifs at hstep with hidle
    obtain ⟨⟨m, pc⟩, hfree, hs⟩ := map_eq_some_iff.mp hstep
    cases hs
    exact h.update (startFree_local hfree cpu)
  case migrate i cpu =>
    split_ifs at hstep with hirq
    cases hstep
    exact h.update ((h i).migrate hirq.1 cpu)
  case run i =>
    split_ifs at hstep with hrun
    obtain ⟨⟨m, pc⟩, hexec, hs⟩ := map_eq_some_iff.mp hstep
    cases hs
    exact h.update (exec_local (h i) hsupply hexec)

/-- As long as no allocation runs into a shortage, two CPUs never meet on a per-CPU list. -/
theorem pcp_lists_race_free {batch : ζ → Nat} {s : Smp ζ}
    (h : (smpMachine C online batch).Reach (Supplied C) s) (i j : Nat) : ¬ s.Races C i j := by
  have hlocal : s.Local := by
    refine h.invariant (I := Smp.Local) ?_ fun s a s' hs ha => hs.step ha
    intro s hs i
    rw [hs.idle i]
    trivial
  rintro ⟨hne, a, ha, b, hb, -, hcpu, -⟩
  rw [(hlocal i).access_cpu ha, (hlocal j).access_cpu hb] at hcpu
  exact hne hcpu

end Run

/-! ## Two CPUs -/

/-- Two CPUs share the eight pages of `Config.small`, with a batch of zero. -/
def Smp.small : Smp Unit := ⟨⟨.smallStarted, fun _ => false⟩, fun _ => ⟨0, .idle⟩, fun _ => none⟩

theorem Smp.small_started : Smp.small.Started .small [0, 1] fun _ => 0 :=
  ⟨Allocator.smallStarted_started, fun _ => rfl, fun _ => rfl, fun _ => rfl⟩

/-- A block of four pages is freed, and one of them is taken by call 1. -/
def Smp.warmUp : List (SmpAct Unit) :=
  [.free 0 0 () ⟨0, 2⟩, .run 0, .alloc 1 1 () 0] ++ List.replicate 8 (.run 1)

theorem pcp_lists_race_free_sample : ∃ s, (smpMachine .small [0, 1] fun _ => 0).run .small
      (Smp.warmUp ++ [.free 0 1 () ⟨0, 0⟩, .run 0, .alloc 2 0 () 0, .run 2, .run 2, .run 2]) =
        some s ∧
    s.calls 0 = ⟨1, .freeUnrefPageCommit 0⟩ ∧ s.calls 2 = ⟨0, .rmqueueBulk () 1 0 false⟩ ∧
    ¬ s.Races .small 0 2 := by
  obtain ⟨s, hs, hreach, hfree, halloc⟩ := Machine.exists_run
    (M := smpMachine .small [0, 1] fun _ => 0) (G := Supplied .small)
    (P := fun s => s.calls 0 = ⟨1, .freeUnrefPageCommit 0⟩ ∧
      s.calls 2 = ⟨0, .rmqueueBulk () 1 0 false⟩) (.init Smp.small_started)
    (Smp.warmUp ++ [.free 0 1 () ⟨0, 0⟩, .run 0, .alloc 2 0 () 0, .run 2, .run 2, .run 2])
    (by decide +kernel)
  exact ⟨s, hs, hfree, halloc, pcp_lists_race_free hreach 0 2⟩

/-- CPU 0 runs out of pages and empties the list of CPU 1, which is about to do the same. -/
theorem drained_list_races : ∃ s, (smpMachine .small [0, 1] fun _ => 0).Reach Machine.free s ∧
    (s.calls 2 = ⟨0, .detach () 1 1 1 [] (.drained 0 [])⟩ ∧
      s.calls 3 = ⟨1, .detach () 1 1 1 [] .freed⟩) ∧ s.Races .small 2 3 := by
  obtain ⟨s, hreach, hcalls⟩ := Machine.exists_reach
    (M := smpMachine .small [0, 1] fun _ => 0) (G := Machine.free)
    (P := fun s => s.calls 2 = ⟨0, .detach () 1 1 1 [] (.drained 0 [])⟩ ∧
      s.calls 3 = ⟨1, .detach () 1 1 1 [] .freed⟩) (.init Smp.small_started)
    (Smp.warmUp ++ (.alloc 1 1 () 1 :: List.replicate 3 (.run 1)) ++
      (.alloc 1 1 () 0 :: List.replicate 8 (.run 1)) ++
      (.alloc 2 0 () 0 :: List.replicate 8 (.run 2)) ++
      [.free 3 1 () ⟨0, 0⟩, .run 3, .run 3, .run 2]) (by decide +kernel)
  refine ⟨s, hreach, hcalls, ?_⟩
  rw [Smp.Races, hcalls.1, hcalls.2]
  exact ⟨by decide, _, rfl, _, rfl, rfl, rfl, rfl⟩

end MinixRt.PageAlloc
