import MinixRt.Lib.Machine
import MinixRt.Lib.SearchTree
import MinixRt.Ipc.Message
import Mathlib.Algebra.Order.Ring.Int

/-!
# Pids

`core/pid.c` keeps the tasks in a red-black tree by pid and the pids that may be given
out again in a list. A pid is cached when it is given back by a task that is not the last
of the tree; without a cached pid the next one is one more than the last of the tree.

The tree is its in-order listing. A pid is an `Int`: nothing here depends on its width as
long as the tree holds fewer than `INT_MAX` tasks.
-/

namespace MinixRt.Proc

open Ipc (TaskId)
open List Function Lib

/-- `pid_root` and `pid_root_cache`. -/
structure PidTable where
  root : List (Int × TaskId)
  cache : List Int

namespace PidTable

def pidFindProcessByPid (T : PidTable) (pid : Int) : Option TaskId :=
  SearchTree.find T.root pid

/-- `pid_insert_process_by_pid` for a task with this pid; `none` is a failed insertion. -/
def pidInsertProcessByPid (T : PidTable) (pid : Int) (t : TaskId) : Option PidTable :=
  (SearchTree.insert T.root pid t).map fun root => { T with root }

/-- `pid_alloc_pid`: the pid and the new table; `none` is a failed `BUG_ON`. -/
def pidAllocPid (T : PidTable) (t : TaskId) : Option (Int × PidTable) :=
  match T.cache with
  | pid :: cache => ({ T with cache }.pidInsertProcessByPid pid t).map (pid, ·)
  | [] =>
    match T.root.getLast? with
    | none => none
    | some last => (T.pidInsertProcessByPid (last.1 + 1) t).map (last.1 + 1, ·)

/-- `pid_remove_pid_by_process` for a task with this pid; `kmalloc` tells whether its
`kmalloc` succeeds. -/
def pidRemovePidByProcess (T : PidTable) (pid : Int) (kmalloc : Bool) : PidTable × Bool :=
  if (T.pidFindProcessByPid pid).isNone then (T, false)
  else if T.root.getLast?.map Prod.fst = some pid then
    ({ T with root := SearchTree.erase T.root pid }, true)
  else if kmalloc then (⟨SearchTree.erase T.root pid, pid :: T.cache⟩, true)
  else (T, false)

def intMax : Int := 2 ^ 31 - 1

def pidFirst (T : PidTable) : Int := (T.root.head?.map Prod.fst).getD intMax

def pidNext (T : PidTable) (pid : Int) : Int :=
  ((T.pidFindProcessByPid pid).bind fun _ => SearchTree.next T.root pid).getD intMax

/-- The pids of the loop `for (; pid != INT_MAX; pid = pid_next(pid))`. -/
def pidsFrom (T : PidTable) : (fuel : Nat) → (pid : Int) → List Int
  | 0, _ => []
  | fuel + 1, pid => if pid = intMax then [] else pid :: T.pidsFrom fuel (T.pidNext pid)

/-- The tree is ordered, and the cached pids are distinct and not in use. -/
structure Ok (T : PidTable) : Prop where
  sorted : SearchTree.Sorted T.root
  nodup : T.cache.Nodup
  unused : ∀ pid ∈ T.cache, ∀ p ∈ T.root, p.1 ≠ pid

variable {T T' : PidTable} {pid : Int} {t : TaskId}

theorem Ok.find_iff (h : T.Ok) : T.pidFindProcessByPid pid = some t ↔ (pid, t) ∈ T.root :=
  SearchTree.find_eq_some_iff h.sorted

theorem insert_spec (h : T.pidInsertProcessByPid pid t = some T') :
    T'.cache = T.cache ∧ (SearchTree.Sorted T.root → SearchTree.Sorted T'.root) ∧
      ∀ p, p ∈ T'.root ↔ p = (pid, t) ∨ p ∈ T.root := by
  obtain ⟨root, hroot, rfl⟩ := Option.map_eq_some_iff.mp h
  exact ⟨rfl, fun hs => SearchTree.sorted_insert hs hroot, SearchTree.mem_insert hroot⟩

theorem mem_pidAllocPid (h : T.pidAllocPid t = some (pid, T')) (p : Int × TaskId) :
    p ∈ T'.root ↔ p = (pid, t) ∨ p ∈ T.root := by
  simp only [pidAllocPid] at h
  split at h
  · obtain ⟨T1, hT1, heq⟩ := Option.map_eq_some_iff.mp h
    cases heq
    exact (insert_spec hT1).2.2 p
  · split at h
    · cases h
    · obtain ⟨T1, hT1, heq⟩ := Option.map_eq_some_iff.mp h
      cases heq
      exact (insert_spec hT1).2.2 p

theorem Ok.pidAllocPid (hT : T.Ok) (h : T.pidAllocPid t = some (pid, T')) : T'.Ok := by
  simp only [PidTable.pidAllocPid] at h
  split at h
  · rename_i pid' cache hcache
    obtain ⟨T1, hT1, heq⟩ := Option.map_eq_some_iff.mp h
    cases heq
    obtain ⟨hc, hs, hmem⟩ := insert_spec hT1
    have hnodup := hT.nodup
    rw [hcache] at hnodup
    obtain ⟨hnot, hnodup⟩ := List.nodup_cons.mp hnodup
    refine ⟨hs hT.sorted, ?_, fun q hq p hp => ?_⟩
    · rw [hc]
      exact hnodup
    · rw [hc] at hq
      rcases (hmem p).mp hp with rfl | hp
      · rintro rfl
        exact hnot hq
      · exact hT.unused q (by rw [hcache]; exact List.mem_cons_of_mem _ hq) p hp
  · rename_i hcache
    split at h
    · cases h
    · obtain ⟨T1, hT1, heq⟩ := Option.map_eq_some_iff.mp h
      cases heq
      obtain ⟨hc, hs, -⟩ := insert_spec hT1
      rw [hcache] at hc
      exact ⟨hs hT.sorted, by rw [hc]; exact List.nodup_nil, by rw [hc]; exact nofun⟩

theorem Ok.exists_pidAllocPid (hT : T.Ok) (hne : T.root ≠ []) (t : TaskId) :
    ∃ pid T', T.pidAllocPid t = some (pid, T') := by
  cases hcache : T.cache with
  | cons pid cache =>
    obtain ⟨root, hroot⟩ : ∃ root, SearchTree.insert T.root pid t = some root := by
      refine SearchTree.exists_insert fun p hp => hT.unused pid ?_ p hp
      rw [hcache]
      exact List.mem_cons_self
    exact ⟨pid, ⟨root, cache⟩, by
      simp [PidTable.pidAllocPid, hcache, pidInsertProcessByPid, hroot]⟩
  | nil =>
    obtain ⟨last, hlast⟩ : ∃ last, T.root.getLast? = some last :=
      ⟨_, List.getLast?_eq_getLast_of_ne_nil hne⟩
    obtain ⟨root, hroot⟩ : ∃ root, SearchTree.insert T.root (last.1 + 1) t = some root := by
      refine SearchTree.exists_insert fun p hp => ?_
      have := hT.sorted.le_getLast hlast hp
      omega
    exact ⟨last.1 + 1, ⟨root, T.cache⟩, by
      simp [PidTable.pidAllocPid, hcache, hlast, pidInsertProcessByPid, hroot]⟩

variable {p : Int × TaskId} {k : Bool}

theorem mem_pidRemovePidByProcess (hp : p ∈ T.root) (hne : p.1 ≠ pid) :
    p ∈ (T.pidRemovePidByProcess pid k).1.root := by
  simp only [pidRemovePidByProcess]
  split_ifs
  · exact hp
  · exact (SearchTree.mem_erase p).mpr ⟨hp, hne⟩
  · exact (SearchTree.mem_erase p).mpr ⟨hp, hne⟩
  · exact hp

theorem mem_of_mem_pidRemovePidByProcess (hp : p ∈ (T.pidRemovePidByProcess pid k).1.root) :
    p ∈ T.root := by
  unfold pidRemovePidByProcess at hp
  split_ifs at hp
  · exact hp
  · exact ((SearchTree.mem_erase p).mp hp).1
  · exact ((SearchTree.mem_erase p).mp hp).1
  · exact hp

theorem Ok.pidRemovePidByProcess (hT : T.Ok) (pid : Int) (k : Bool) :
    (T.pidRemovePidByProcess pid k).1.Ok := by
  simp only [PidTable.pidRemovePidByProcess]
  split_ifs with hfind hlast hk
  · exact hT
  · exact ⟨SearchTree.sorted_erase hT.sorted, hT.nodup, fun q hq p hp =>
      hT.unused q hq p ((SearchTree.mem_erase p).mp hp).1⟩
  · -- the pid was in use, so it is not cached yet
    obtain ⟨u, hu⟩ := Option.ne_none_iff_exists'.mp (by simpa using hfind)
    have hmem := hT.find_iff.mp hu
    refine ⟨SearchTree.sorted_erase hT.sorted, List.nodup_cons.mpr ⟨fun hc => ?_, hT.nodup⟩,
      fun q hq p hp => ?_⟩
    · exact hT.unused pid hc _ hmem rfl
    · obtain ⟨hp, hne⟩ := (SearchTree.mem_erase p).mp hp
      rcases List.mem_cons.mp hq with rfl | hq
      · exact hne
      · exact hT.unused q hq p hp
  · exact hT

theorem Ok.pidsFrom_eq (hT : T.Ok) (hmax : ∀ p ∈ T.root, p.1 < intMax) (pre : List (Int × TaskId))
    {post : List (Int × TaskId)} (hroot : T.root = pre ++ post) {fuel : Nat}
    (hfuel : post.length < fuel) :
    T.pidsFrom fuel ((post.head?.map Prod.fst).getD intMax) = post.map Prod.fst := by
  induction post generalizing pre fuel with
  | nil =>
    cases fuel with
    | zero => rfl
    | succ => exact if_pos rfl
  | cons p post ih =>
    obtain ⟨fuel, rfl⟩ := Nat.exists_eq_add_one_of_ne_zero (by omega : fuel ≠ 0)
    have hmem : p ∈ T.root := by
      rw [hroot]
      exact mem_append_right _ mem_cons_self
    have hnext : T.pidNext p.1 = (post.head?.map Prod.fst).getD intMax := by
      rw [pidNext, hT.find_iff.mpr hmem, Option.bind_some, hroot, SearchTree.next_append]
      rw [← hroot]
      exact hT.sorted
    rw [head?_cons, Option.map_some, Option.getD_some, pidsFrom, if_neg (hmax p hmem).ne, hnext,
      map_cons, ih (pre ++ [p]) (by rw [hroot, append_assoc]; rfl) (by simpa using hfuel)]

end PidTable

/-! ## Runs -/

structure PidState where
  table : PidTable
  /-- `tsk->pid.pid` -/
  pid : TaskId → Int

def PidState.Live (s : PidState) (t : TaskId) : Prop := (s.pid t, t) ∈ s.table.root

instance (s : PidState) (t : TaskId) : Decidable (s.Live t) := inferInstanceAs (Decidable (_ ∈ _))

inductive PidAct
  | alloc (t : TaskId)
  | remove (t : TaskId) (kmalloc : Bool)

def pidStep (s : PidState) : PidAct → Option PidState
  | .alloc t => (s.table.pidAllocPid t).map fun r => ⟨r.2, update s.pid t r.1⟩
  | .remove t kmalloc =>
    some { s with table := (s.table.pidRemovePidByProcess (s.pid t) kmalloc).1 }

def processPidInit (idleThreads : Nat → TaskId) : (cpus : Nat) → Option PidTable
  | 0 => some ⟨[], []⟩
  | cpu + 1 => (processPidInit idleThreads cpu).bind fun T =>
      T.pidInsertProcessByPid (-cpu) (idleThreads cpu)

/-- The state after `process_pid_init` and the insertion of the first service with pid 1. -/
def pidMachine (idleThreads : Nat → TaskId) : Machine PidState PidAct where
  init s := ∃ cpus T t, 0 < cpus ∧ processPidInit idleThreads cpus = some T ∧
    T.pidInsertProcessByPid 1 t = some s.table ∧ s.pid t = 1 ∧
    ∀ cpu < cpus, s.pid (idleThreads cpu) = -cpu
  step := pidStep

/-- Pids are taken for tasks that are not live, and given back for live tasks that are no idle
threads. -/
def pidCalled (idleThreads : Nat → TaskId) (s : PidState) : PidAct → Prop
  | .alloc t => ¬ s.Live t
  | .remove t _ => s.Live t ∧ ∀ cpu, t ≠ idleThreads cpu

/-- Every entry of the tree is that of its task, and the first idle thread is in it. -/
structure PidOk (idleThreads : Nat → TaskId) (s : PidState) : Prop where
  table : s.table.Ok
  owner : ∀ p ∈ s.table.root, s.pid p.2 = p.1
  idle : s.Live (idleThreads 0)

section Runs

variable {idleThreads : Nat → TaskId} {s s' : PidState}

theorem processPidInit_spec {cpus : Nat} {T : PidTable}
    (h : processPidInit idleThreads cpus = some T) : SearchTree.Sorted T.root ∧ T.cache = [] ∧
      ∀ p, p ∈ T.root ↔ ∃ cpu < cpus, p = (-(cpu : Int), idleThreads cpu) := by
  induction cpus generalizing T with
  | zero =>
    cases h
    exact ⟨.nil, rfl, by simp⟩
  | succ cpus ih =>
    obtain ⟨T1, h1, h⟩ := Option.bind_eq_some_iff.mp h
    obtain ⟨hsorted, hcache, hmem⟩ := ih h1
    obtain ⟨hcache', hsorted', hmem'⟩ := PidTable.insert_spec h
    refine ⟨hsorted' hsorted, hcache'.trans hcache, fun p => ?_⟩
    rw [hmem', hmem]
    simp only [Nat.lt_succ_iff_lt_or_eq, or_and_right, exists_or, exists_eq_left]
    exact or_comm

theorem PidOk.init (h : (pidMachine idleThreads).init s) : PidOk idleThreads s := by
  obtain ⟨cpus, T, t, hpos, hinit, hinsert, ht, hidle⟩ := h
  obtain ⟨hsorted, hcache, hmem⟩ := processPidInit_spec hinit
  obtain ⟨hcache', hsorted', hmem'⟩ := PidTable.insert_spec hinsert
  rw [hcache] at hcache'
  refine ⟨⟨hsorted' hsorted, hcache' ▸ nodup_nil, by rw [hcache']; exact nofun⟩, ?_, ?_⟩
  · intro p hp
    rcases (hmem' p).mp hp with rfl | hp
    · exact ht
    · obtain ⟨cpu, hcpu, rfl⟩ := (hmem p).mp hp
      exact hidle cpu hcpu
  · refine (hmem' _).mpr (.inr ((hmem _).mpr ⟨0, hpos, ?_⟩))
    rw [hidle 0 hpos]

theorem PidOk.step (h : PidOk idleThreads s) {a : PidAct} (ha : pidCalled idleThreads s a)
    (hstep : pidStep s a = some s') : PidOk idleThreads s' := by
  cases a with
  | alloc t =>
    obtain ⟨⟨pid, T⟩, halloc, rfl⟩ := Option.map_eq_some_iff.mp hstep
    have hmem := PidTable.mem_pidAllocPid halloc
    -- the entries of the tree are those of live tasks, so their pids stay
    have hkeep : ∀ p ∈ s.table.root, update s.pid t pid p.2 = p.1 := by
      intro p hp
      have howner := h.owner p hp
      rw [update_of_ne, howner]
      rintro rfl
      exact ha (by rw [PidState.Live, howner]; exact hp)
    refine ⟨h.table.pidAllocPid halloc, fun p hp => ?_, ?_⟩
    · rcases (hmem p).mp hp with rfl | hp
      · exact update_self ..
      · exact hkeep p hp
    · apply (hmem _).mpr
      show _ ∨ (update s.pid t pid (idleThreads 0), _) ∈ s.table.root
      rw [show update s.pid t pid (idleThreads 0) = _ from hkeep _ h.idle]
      exact .inr h.idle
  | remove t kmalloc =>
    cases hstep
    refine ⟨h.table.pidRemovePidByProcess _ kmalloc, fun p hp => ?_, ?_⟩
    · exact h.owner p (PidTable.mem_of_mem_pidRemovePidByProcess hp)
    · refine PidTable.mem_pidRemovePidByProcess h.idle fun heq => ha.2 0 ?_
      exact h.table.sorted.eq_of_key ha.1 (heq ▸ h.idle)

/-- Over every run live tasks have distinct pids, the cached pids are distinct and not in use, no
`BUG_ON` of an allocation fails, a removal that fails changes nothing, and the iteration visits
the pids of the live tasks in order. -/
theorem pid_allocation (h : (pidMachine idleThreads).Reach (pidCalled idleThreads) s) :
    (∀ t u, s.Live t → s.Live u → s.pid t = s.pid u → t = u) ∧
    s.table.cache.Nodup ∧ (∀ t, s.Live t → s.pid t ∉ s.table.cache) ∧
    (∀ t, ∃ s', pidStep s (.alloc t) = some s') ∧
    (∀ t kmalloc, (s.table.pidRemovePidByProcess (s.pid t) kmalloc).2 = false →
      (s.table.pidRemovePidByProcess (s.pid t) kmalloc).1 = s.table) ∧
    ((∀ t, s.Live t → s.pid t < PidTable.intMax) → ∀ fuel, s.table.root.length < fuel →
      (s.table.pidsFrom fuel s.table.pidFirst).Pairwise (· < ·) ∧
      ∀ pid, pid ∈ s.table.pidsFrom fuel s.table.pidFirst ↔ ∃ t, s.Live t ∧ s.pid t = pid) := by
  have hok : PidOk idleThreads s :=
    h.invariant (I := PidOk idleThreads) (fun _ => PidOk.init) fun _ _ _ hs ha => hs.step ha
  have hlive : ∀ p ∈ s.table.root, s.Live p.2 := by
    intro p hp
    rw [PidState.Live, hok.owner p hp]
    exact hp
  refine ⟨fun t u ht hu heq => ?_, hok.table.nodup, fun t ht hcache => ?_, fun t => ?_,
    fun t kmalloc => ?_, fun hmax fuel hfuel => ?_⟩
  · exact hok.table.sorted.eq_of_key ht (heq ▸ hu)
  · exact hok.table.unused _ hcache _ ht rfl
  · obtain ⟨pid, T, halloc⟩ := hok.table.exists_pidAllocPid (ne_nil_of_mem hok.idle) t
    exact ⟨_, by rw [pidStep, halloc, Option.map_some]⟩
  · unfold PidTable.pidRemovePidByProcess
    split_ifs <;> simp
  · have hpids := hok.table.pidsFrom_eq (fun p hp => ?_) [] rfl hfuel
    · rw [PidTable.pidFirst, hpids]
      refine ⟨pairwise_map.mpr hok.table.sorted, fun pid => ?_⟩
      rw [mem_map]
      constructor
      · rintro ⟨p, hp, rfl⟩
        exact ⟨p.2, hlive p hp, hok.owner p hp⟩
      · rintro ⟨t, ht, rfl⟩
        exact ⟨_, ht, rfl⟩
    · rw [← hok.owner p hp]
      exact hmax p.2 (hlive p hp)

end Runs

/-- One CPU, with its idle thread 0 and the first service 1. -/
def pidStart : PidState := ⟨⟨[(0, 0), (1, 1)], []⟩, fun t => if t = 1 then 1 else 0⟩

/-- Pid 2 is given back and taken again, and a removal without memory fails. -/
theorem pid_allocation_again :
    ∃ s, (pidMachine fun _ => 0).Reach (pidCalled fun _ => 0) s ∧ s.Live 4 ∧ s.pid 4 = 2 ∧
      ∀ t u, s.Live t → s.Live u → s.pid t = s.pid u → t = u := by
  have hinit : (pidMachine fun _ => 0).init pidStart :=
    ⟨1, ⟨[(0, 0)], []⟩, 1, by decide, rfl, rfl, rfl, fun _ _ => by simp_all [pidStart]⟩
  have hcalled : ∀ (s : PidState) a, (match a with
      | .alloc t => decide (¬ s.Live t)
      | .remove t _ => decide (s.Live t ∧ t ≠ 0)) = true → pidCalled (fun _ => 0) s a := by
    intro s a ha
    cases a with
    | alloc t => exact of_decide_eq_true (p := ¬ s.Live t) ha
    | remove t k =>
      obtain ⟨ht, hne⟩ := of_decide_eq_true ha
      exact ⟨ht, fun _ => hne⟩
  obtain ⟨s, -, hreach, h4, hpid⟩ := Machine.exists_run_of (P := fun s => s.Live 4 ∧ s.pid 4 = 2)
    (.init hinit) hcalled [.alloc 2, .alloc 3, .remove 2 true, .remove 1 false, .alloc 4]
    (by decide +kernel)
  exact ⟨s, hreach, h4, hpid, (pid_allocation hreach).1⟩

end MinixRt.Proc
