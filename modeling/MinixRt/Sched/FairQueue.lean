import Mathlib.Algebra.BigOperators.Group.List.Basic
import Mathlib.Algebra.Order.Ring.Int
import MinixRt.Sched.Fair

/-!
# The invariant of the fair run queue

The tree is in the order of the virtual runtimes relative to `min_vruntime` although every charge
of the running entity may move `min_vruntime`: as long as the virtual runtimes stay near it, all
keys of the tree move by the same amount (`key_shift`). The counters and the cached leftmost node do
not depend on the order (`CfsRq.Accounts`).
-/

namespace MinixRt.Sched

open List Lib CfsRq
open Option (bind_eq_some_iff map_eq_some_iff some_inj)

variable {v : BitVec 64} {f : Entity → Entity} {y : Nat}

/-! ## Virtual runtimes in wrap-around order -/

theorem maxVruntime_forward (m v : BitVec 64) : 0 ≤ (maxVruntime m v - m).toInt := by
  unfold maxVruntime
  split_ifs with h
  · exact Int.le_of_lt h
  · rw [BitVec.sub_self]
    decide

theorem key_shift {m m' : BitVec 64} (hm : 0 ≤ (m' - m).toInt)
    (h : -2 ^ 62 ≤ (v - m).toInt ∧ (v - m).toInt ≤ 2 ^ 62)
    (h' : -2 ^ 62 ≤ (v - m').toInt ∧ (v - m').toInt ≤ 2 ^ 62) :
    (v - m').toInt = (v - m).toInt - (m' - m).toInt := by
  have hsub : v - m' = (v - m) - (m' - m) := by
    bv_omega
  have hlt : 2 * (m' - m).toInt < 2 ^ 64 := BitVec.two_mul_toInt_lt
  have hmod : (v - m').toInt = ((v - m).toInt - (m' - m).toInt).bmod (2 ^ 64) := by
    rw [hsub, BitVec.toInt_sub]
  generalize (v - m).toInt = k at *
  generalize (m' - m).toInt = d at *
  rcases lt_or_ge (k - d) (-2 ^ 63) with hfar | hnear
  · have hwrap : (k - d).bmod (2 ^ 64) = k - d + 2 ^ 64 := by
      rw [← Int.add_bmod_right]
      exact Int.bmod_eq_of_le (by omega) (by omega)
    omega
  · rw [hmod]
    exact Int.bmod_eq_of_le (by omega) (by omega)

namespace CfsRq

variable {q q' : CfsRq} {x c : Nat} {shape : BinaryTree Unit}

theorem inRange_iff : q.inRange = true ↔ ∀ x, x ∈ q.tasks ∨ q.curr = some x →
      -2 ^ 62 ≤ q.entityKey x ∧ q.entityKey x ≤ 2 ^ 62 := by
  simp only [inRange, all_eq_true, mem_append, Option.mem_toList,
    decide_eq_true_eq]

theorem pairwise_shift {l : List Nat} (hl : l.Pairwise fun x y => q.entityKey x ≤ q.entityKey y)
    (hv : ∀ x ∈ l, (q'.se x).vruntime = (q.se x).vruntime)
    (hmin : 0 ≤ (q'.minVruntime - q.minVruntime).toInt)
    (hr : ∀ x ∈ l, -2 ^ 62 ≤ q.entityKey x ∧ q.entityKey x ≤ 2 ^ 62)
    (hr' : ∀ x ∈ l, -2 ^ 62 ≤ q'.entityKey x ∧ q'.entityKey x ≤ 2 ^ 62) :
    l.Pairwise fun x y => q'.entityKey x ≤ q'.entityKey y := by
  have hkey : ∀ x ∈ l, q'.entityKey x =
      q.entityKey x - (q'.minVruntime - q.minVruntime).toInt := by
    intro x hx
    have hx' := hr' x hx
    unfold entityKey at hx' ⊢
    rw [hv x hx] at hx' ⊢
    exact key_shift hmin (hr x hx) hx'
  apply hl.imp_of_mem
  intro x y hx hy hxy
  rw [hkey x hx, hkey y hy]
  omega

/-! ## What the charge of the running entity leaves -/

/-- Only virtual runtimes, times and weights of entities off the run queue change. -/
structure Quiet (q q' : CfsRq) : Prop where
  timeline : q'.tasksTimeline = q.tasksTimeline
  leftmost : q'.rbLeftmost = q.rbLeftmost
  curr : q'.curr = q.curr
  nrRunning : q'.nrRunning = q.nrRunning
  load : q'.load = q.load
  onRq : ∀ x, (q'.se x).onRq = (q.se x).onRq
  weight : ∀ x, (q.se x).onRq = true → (q'.se x).weight = (q.se x).weight

theorem Quiet.refl (q : CfsRq) : Quiet q q :=
  ⟨rfl, rfl, rfl, rfl, rfl, fun _ => rfl, fun _ _ => rfl⟩

theorem Quiet.trans {q1 q2 q3 : CfsRq} (h : Quiet q1 q2) (h' : Quiet q2 q3) : Quiet q1 q3 where
  timeline := h'.timeline.trans h.timeline
  leftmost := h'.leftmost.trans h.leftmost
  curr := h'.curr.trans h.curr
  nrRunning := h'.nrRunning.trans h.nrRunning
  load := h'.load.trans h.load
  onRq x := (h'.onRq x).trans (h.onRq x)
  weight x hx := (h'.weight x ((h.onRq x).trans hx)).trans (h.weight x hx)

theorem Quiet.tasks (h : Quiet q q') : q'.tasks = q.tasks :=
  congrArg BinaryTree.toList h.timeline

theorem setSe_of_ne (h : y ≠ x) : (q.setSe x f).se y = q.se y := by
  simp [setSe, h]

theorem setSe_self : (q.setSe x f).se x = f (q.se x) := by
  simp [setSe]

theorem field_update {α : Type} {e : Entity} (g : Entity → α) (he : g e = g (q.se x)) (y : Nat) :
    g (Function.update q.se x e y) = g (q.se y) := by
  by_cases hy : y = x
  · subst hy
    rw [Function.update_self, he]
  · rw [Function.update_of_ne hy]

theorem quiet_setSe (hon : ∀ se, (f se).onRq = se.onRq)
    (hw : ∀ se, se.onRq = true → (f se).weight = se.weight) : Quiet q (q.setSe x f) := by
  refine ⟨rfl, rfl, rfl, rfl, rfl, field_update Entity.onRq (hon _), fun y hy => ?_⟩
  by_cases hyx : y = x
  · subst hyx
    rw [setSe_self, hw _ hy]
  · rw [setSe_of_ne hyx]

theorem quiet_updateCurr : Quiet q q.updateCurr := by
  unfold updateCurr
  split
  · exact .refl q
  · rename_i c hc
    have h : Quiet q (q.setSe c q.charge) := quiet_setSe (fun _ => rfl) (fun _ _ => rfl)
    exact h.trans ⟨rfl, rfl, rfl, rfl, rfl, fun _ => rfl, fun _ _ => rfl⟩

theorem updateCurr_vruntime (h : q.curr ≠ some x) :
    (q.updateCurr.se x).vruntime = (q.se x).vruntime := by
  unfold updateCurr
  split
  · rfl
  · rename_i c hc
    have hxc : x ≠ c := fun hxc => h (hxc ▸ hc)
    exact congrArg Entity.vruntime (setSe_of_ne hxc)

theorem updateCurr_forward : 0 ≤ (q.updateCurr.minVruntime - q.minVruntime).toInt := by
  unfold updateCurr
  split
  · rw [BitVec.sub_self]
    decide
  · exact maxVruntime_forward _ _

theorem quiet_setVruntime : Quiet q (q.setVruntime x v) :=
  quiet_setSe (fun _ => rfl) (fun _ _ => rfl)

theorem quiet_placeEntity {initial : Bool} : Quiet q (q.placeEntity x initial) :=
  quiet_setVruntime

theorem quiet_placeNew {here : Bool} : Quiet q (q.placeNew x here) := by
  have h : Quiet q (q.updateCurr.placeEntity x true) := quiet_updateCurr.trans quiet_placeEntity
  unfold placeNew
  dsimp only
  split
  · exact h
  · split_ifs
    · exact (h.trans quiet_setVruntime).trans quiet_setVruntime
    · exact h

/-! ## The tree -/

def Sorted (q : CfsRq) : Prop := q.tasks.Pairwise fun x y => q.entityKey x ≤ q.entityKey y

theorem enqueueCut_eq_lt : q.enqueueCut x y = .lt ↔ q.entityKey x < q.entityKey y := by
  unfold enqueueCut
  split_ifs with h
  · exact iff_of_true rfl h
  · exact iff_of_false nofun h

theorem enqueueCut_eq_gt : q.enqueueCut x y = .gt ↔ q.entityKey y ≤ q.entityKey x := by
  unfold enqueueCut
  split_ifs with h
  · exact iff_of_false nofun (not_le.mpr h)
  · exact iff_of_true rfl (not_lt.mp h)

theorem Sorted.monotone (h : Sorted q) (x : Nat) :
    BinaryTree.Monotone (q.enqueueCut x) q.tasks := by
  apply h.imp
  intro a b hab
  rw [enqueueCut_eq_lt, enqueueCut_eq_lt, enqueueCut_eq_gt, enqueueCut_eq_gt]
  exact ⟨fun hlt => hlt.trans_le hab, fun hle => hab.trans hle⟩

/-- Only the tree and its cached node change. -/
structure Retree (q q' : CfsRq) : Prop where
  se : q'.se = q.se
  curr : q'.curr = q.curr
  nrRunning : q'.nrRunning = q.nrRunning
  load : q'.load = q.load
  minVruntime : q'.minVruntime = q.minVruntime

theorem enqueueTree_retree (he : q.enqueueTree x shape = some q') :
    Retree q q' ∧ ∀ y ∈ q.tasks, y ∈ q'.tasks := by
  obtain ⟨linked, hlink, he⟩ := bind_eq_some_iff.mp he
  obtain ⟨timeline, hre, rfl⟩ := map_eq_some_iff.mp he
  refine ⟨⟨rfl, rfl, rfl, rfl, rfl⟩, fun y hy => ?_⟩
  show y ∈ timeline.toList
  rw [BinaryTree.rebuild_toList hre]
  exact BinaryTree.mem_of_link hlink hy

/-- `__enqueue_entity` puts the entity behind those with at most its key, and keeps
`rb_leftmost`. -/
theorem Sorted.enqueueTree (h : Sorted q) (he : q.enqueueTree x shape = some q') :
    ∃ as bs, q.tasks = as ++ bs ∧ q'.tasks = as ++ x :: bs ∧
      (∀ a ∈ as, q.entityKey a ≤ q.entityKey x) ∧ (∀ b ∈ bs, q.entityKey x < q.entityKey b) ∧
      q'.rbLeftmost = (if as = [] then some x else q.rbLeftmost) ∧ Retree q q' := by
  obtain ⟨linked, hlink, he⟩ := bind_eq_some_iff.mp he
  obtain ⟨timeline, hre, rfl⟩ := map_eq_some_iff.mp he
  obtain ⟨as, bs, hq, hlinked, has, hbs⟩ := BinaryTree.link_eq_some (h.monotone x) hlink
  have hleft : q.tasksTimeline.goesLeft (q.enqueueCut x) = true ↔ as = [] := by
    rw [BinaryTree.goesLeft_iff (h.monotone x), hq]
    constructor
    · intro hall
      cases as with
      | nil => rfl
      | cons a =>
        have hlt := hall a (by simp)
        rw [has a mem_cons_self] at hlt
        cases hlt
    · rintro rfl b hb
      exact hbs b hb
  refine ⟨as, bs, hq, ?_, fun a ha => enqueueCut_eq_gt.mp (has a ha),
    fun b hb => enqueueCut_eq_lt.mp (hbs b hb), ?_, ⟨rfl, rfl, rfl, rfl, rfl⟩⟩
  · exact (BinaryTree.rebuild_toList hre).trans hlinked
  · simp only [hleft]

theorem head?_erase (l : List Nat) (x : Nat) :
    (if l.head? = some x then rbNext x l else l.head?) = (l.erase x).head? := by
  cases l with
  | nil => rfl
  | cons y =>
    rw [head?_cons]
    by_cases hyx : y = x
    · subst hyx
      simp [rbNext]
    · rw [if_neg (fun h => hyx (some_inj.mp h)), erase_cons_tail (by simpa using hyx),
        head?_cons]

theorem dequeueTree_eq (hl : q.rbLeftmost = q.tasks.head?) (hd : q.dequeueTree x shape = some q') :
    q'.tasks = q.tasks.erase x ∧ q'.rbLeftmost = (q.tasks.erase x).head? ∧ Retree q q' := by
  obtain ⟨timeline, hre, rfl⟩ := map_eq_some_iff.mp hd
  refine ⟨BinaryTree.rebuild_toList hre, ?_, ⟨rfl, rfl, rfl, rfl, rfl⟩⟩
  simp only [hl, head?_erase]

/-! ## The counters -/

/-- The tree holds the runnable entities that do not run, and the counters are right. -/
structure Accounts (q : CfsRq) : Prop where
  nodup : q.tasks.Nodup
  mem : ∀ x, x ∈ q.tasks ↔ (q.se x).onRq = true ∧ q.curr ≠ some x
  leftmost : q.rbLeftmost = q.tasks.head?
  nrRunning : q.nrRunning = q.runnable.length
  load : q.load = (q.runnable.map fun x => (q.se x).weight).sum

/-- `R` lists every runnable entity once, and the counters are those of `R`. Nothing is said of the
tree, nor of which entity runs. -/
structure Counts (q : CfsRq) (R : List Nat) : Prop where
  nodup : R.Nodup
  mem : ∀ x, x ∈ R ↔ (q.se x).onRq = true
  nrRunning : q.nrRunning = R.length
  load : q.load = (R.map fun x => (q.se x).weight).sum

section

variable {R : List Nat}

theorem mem_runnable (h : ∀ x, x ∈ q.tasks ↔ (q.se x).onRq = true ∧ q.curr ≠ some x) (x : Nat) :
    x ∈ q.runnable ↔ (q.se x).onRq = true := by
  rw [runnable, mem_append, mem_filter, Option.mem_toList, h]
  constructor
  · rintro (⟨-, h⟩ | ⟨h, -⟩)
    · exact h
    · exact h
  · intro hx
    by_cases hc : q.curr = some x
    · exact .inl ⟨hc, hx⟩
    · exact .inr ⟨hx, hc⟩

theorem nodup_runnable (h : ∀ x, x ∈ q.tasks ↔ (q.se x).onRq = true ∧ q.curr ≠ some x)
    (hq : q.tasks.Nodup) : q.runnable.Nodup := by
  have hcurr : q.curr.toList.Nodup := by
    cases q.curr with
    | none => exact .nil
    | some c => exact pairwise_singleton _ c
  apply nodup_append.mpr ⟨hcurr.filter _, hq, _⟩
  rintro x hx y hin rfl
  exact ((h x).mp hin).2 (Option.mem_toList.mp (mem_filter.mp hx).1)

theorem Accounts.counts (h : Accounts q) : Counts q q.runnable :=
  ⟨nodup_runnable h.mem h.nodup, mem_runnable h.mem, h.nrRunning, h.load⟩

/-- Two lists of the runnable entities are permutations of each other. -/
theorem Counts.accounts (h : Counts q R) (hnodup : q.tasks.Nodup)
    (hmem : ∀ x, x ∈ q.tasks ↔ (q.se x).onRq = true ∧ q.curr ≠ some x)
    (hleft : q.rbLeftmost = q.tasks.head?) : Accounts q := by
  have hperm : R.Perm q.runnable := by
    apply (perm_ext_iff_of_nodup h.nodup (nodup_runnable hmem hnodup)).mpr
    intro x
    rw [h.mem, mem_runnable hmem]
  exact ⟨hnodup, hmem, hleft, h.nrRunning.trans hperm.length_eq,
    h.load.trans (hperm.map _).sum_eq⟩

theorem Counts.congr (h : Counts q R) (hon : ∀ x, (q'.se x).onRq = (q.se x).onRq)
    (hw : ∀ x, (q.se x).onRq = true → (q'.se x).weight = (q.se x).weight)
    (hnr : q'.nrRunning = q.nrRunning) (hload : q'.load = q.load) : Counts q' R where
  nodup := h.nodup
  mem x := by rw [hon, h.mem]
  nrRunning := hnr.trans h.nrRunning
  load := by
    have hw' : ∀ x ∈ R, (q'.se x).weight = (q.se x).weight :=
      fun x hx => hw x ((h.mem x).mp hx)
    rw [hload, h.load, map_congr_left hw']

theorem Counts.retree (h : Counts q R) (hre : Retree q q') : Counts q' R :=
  h.congr (fun _ => by rw [hre.se]) (fun _ _ => by rw [hre.se]) hre.nrRunning hre.load

theorem Counts.run (h : Counts q R) : Counts (q.run x) R :=
  h.congr (field_update Entity.onRq rfl)
    (fun y _ => field_update Entity.weight (by rfl) y) rfl rfl

theorem accountEnqueue_onRq (y : Nat) :
    ((q.accountEnqueue x).se y).onRq = true ↔ y = x ∨ (q.se y).onRq = true := by
  by_cases hy : y = x
  · subst hy
    simp [accountEnqueue, setSe]
  · simp [accountEnqueue, setSe, hy]

theorem accountDequeue_onRq (y : Nat) :
    ((q.accountDequeue x).se y).onRq = true ↔ y ≠ x ∧ (q.se y).onRq = true := by
  by_cases hy : y = x
  · subst hy
    simp [accountDequeue, setSe]
  · simp [accountDequeue, setSe, hy]

theorem Counts.enqueue (h : Counts q R) (hx : (q.se x).onRq = false) :
    Counts (q.accountEnqueue x) (x :: R) where
  nodup := nodup_cons.mpr ⟨fun hin => absurd ((h.mem x).mp hin) (by simp [hx]), h.nodup⟩
  mem y := by rw [mem_cons, accountEnqueue_onRq, h.mem]
  nrRunning := congrArg (· + 1) h.nrRunning
  load := by
    have hw : ∀ y, ((q.accountEnqueue x).se y).weight = (q.se y).weight :=
      field_update Entity.weight rfl
    show q.load + (q.se x).weight = _
    simp only [hw]
    rw [map_cons, sum_cons, h.load, Nat.add_comm]

theorem Counts.dequeue (h : Counts q R) (hx : (q.se x).onRq = true) :
    Counts (q.accountDequeue x) (R.erase x) := by
  have hperm : R.Perm (x :: R.erase x) := perm_cons_erase ((h.mem x).mpr hx)
  refine ⟨h.nodup.erase x, fun y => ?_, ?_, ?_⟩
  · rw [h.nodup.mem_erase_iff, accountDequeue_onRq, h.mem]
  · show q.nrRunning - 1 = _
    rw [h.nrRunning, hperm.length_eq, length_cons, Nat.add_sub_cancel]
  · have hw : ∀ y, ((q.accountDequeue x).se y).weight = (q.se y).weight :=
      field_update Entity.weight rfl
    show q.load - (q.se x).weight = _
    simp only [hw]
    rw [h.load, (hperm.map _).sum_eq, map_cons, sum_cons, Nat.add_sub_cancel_left]

end

theorem run_onRq (y : Nat) : ((q.run x).se y).onRq = (q.se y).onRq :=
  field_update Entity.onRq (by rfl) y

section Accounts

variable (h : Accounts q)
include h

theorem Accounts.quiet (hq : Quiet q q') : Accounts q' := by
  apply (h.counts.congr hq.onRq hq.weight hq.nrRunning hq.load).accounts
  · exact hq.tasks ▸ h.nodup
  · intro x
    rw [hq.tasks, hq.onRq, hq.curr]
    exact h.mem x
  · rw [hq.tasks, hq.leftmost]
    exact h.leftmost

theorem Accounts.link (hs : Sorted q) (hx : x ∉ q.tasks) (he : q.enqueueTree x shape = some q') :
    q'.tasks.Nodup ∧ (∀ y, y ∈ q'.tasks ↔ y = x ∨ (q.se y).onRq = true ∧ q.curr ≠ some y) ∧
      q'.rbLeftmost = q'.tasks.head? ∧ Retree q q' := by
  obtain ⟨as, bs, hq, hq', -, -, hleft, hre⟩ := hs.enqueueTree he
  have hperm : q'.tasks.Perm (x :: q.tasks) := by
    rw [hq, hq']
    exact perm_middle
  refine ⟨hperm.nodup_iff.mpr (nodup_cons.mpr ⟨hx, h.nodup⟩), fun y => ?_, ?_, hre⟩
  · rw [hperm.mem_iff, mem_cons, h.mem]
  · rw [hq', hleft, h.leftmost, hq]
    cases as with
    | nil | cons a as => rfl

theorem Accounts.unlink (hd : q.dequeueTree x shape = some q') : q'.tasks.Nodup ∧
      (∀ y, y ∈ q'.tasks ↔ y ≠ x ∧ (q.se y).onRq = true ∧ q.curr ≠ some y) ∧
      q'.rbLeftmost = q'.tasks.head? ∧ Retree q q' := by
  obtain ⟨hq', hleft, hre⟩ := dequeueTree_eq h.leftmost hd
  rw [hq']
  refine ⟨h.nodup.erase x, fun y => ?_, hleft, hre⟩
  rw [h.nodup.mem_erase_iff, h.mem]

theorem Accounts.enqueue_curr (hx : (q.se x).onRq = false) (hc : q.curr = some x) :
    Accounts (q.accountEnqueue x) := by
  refine (h.counts.enqueue hx).accounts h.nodup (fun y => ?_) h.leftmost
  show y ∈ q.tasks ↔ _ ∧ q.curr ≠ some y
  rw [accountEnqueue_onRq, h.mem, hc]
  constructor
  · exact fun ⟨hon, hne⟩ => ⟨.inr hon, hne⟩
  · rintro ⟨rfl | hon, hne⟩
    · exact absurd rfl hne
    · exact ⟨hon, hne⟩

theorem Accounts.enqueue_tree (hs : Sorted q) (hx : (q.se x).onRq = false) (hc : q.curr ≠ some x)
    (he : q.enqueueTree x shape = some q') : Accounts (q'.accountEnqueue x) := by
  have hnotin : x ∉ q.tasks := fun hin => absurd ((h.mem x).mp hin).1 (by simp [hx])
  obtain ⟨hnodup, hmem, hleft, hre⟩ := h.link hs hnotin he
  have hx' : (q'.se x).onRq = false := hre.se ▸ hx
  refine ((h.counts.retree hre).enqueue hx').accounts hnodup (fun y => ?_) hleft
  show y ∈ q'.tasks ↔ _ ∧ q'.curr ≠ some y
  rw [accountEnqueue_onRq, hmem, hre.se, hre.curr]
  constructor
  · rintro (rfl | ⟨hon, hne⟩)
    · exact ⟨.inl rfl, hc⟩
    · exact ⟨.inr hon, hne⟩
  · rintro ⟨rfl | hon, hne⟩
    · exact .inl rfl
    · exact .inr ⟨hon, hne⟩

theorem Accounts.dequeue_curr (hx : (q.se x).onRq = true) (hc : q.curr = some x) :
    Accounts (q.accountDequeue x) := by
  refine (h.counts.dequeue hx).accounts h.nodup (fun y => ?_) h.leftmost
  show y ∈ q.tasks ↔ _ ∧ q.curr ≠ some y
  rw [accountDequeue_onRq, h.mem, hc]
  constructor
  · exact fun ⟨hon, hne⟩ => ⟨⟨fun hyx => hne (congrArg some hyx.symm), hon⟩, hne⟩
  · exact fun ⟨⟨_, hon⟩, hne⟩ => ⟨hon, hne⟩

theorem Accounts.dequeue_tree (hx : (q.se x).onRq = true) (hd : q.dequeueTree x shape = some q') :
    Accounts (q'.accountDequeue x) := by
  obtain ⟨hnodup, hmem, hleft, hre⟩ := h.unlink hd
  have hx' : (q'.se x).onRq = true := hre.se ▸ hx
  refine ((h.counts.retree hre).dequeue hx').accounts hnodup (fun y => ?_) hleft
  show y ∈ q'.tasks ↔ _ ∧ q'.curr ≠ some y
  rw [accountDequeue_onRq, hmem, hre.se, hre.curr, and_assoc]

theorem Accounts.run_queued (hc : q.curr = none) (hd : q.dequeueTree x shape = some q') :
    Accounts (q'.run x) := by
  obtain ⟨hnodup, hmem, hleft, hre⟩ := h.unlink hd
  refine (h.counts.retree hre).run.accounts hnodup (fun y => ?_) hleft
  show y ∈ q'.tasks ↔ _ ∧ some x ≠ some y
  rw [run_onRq, hmem, hre.se, hc]
  constructor
  · rintro ⟨hyx, hy, -⟩
    exact ⟨hy, fun heq => hyx (some_inj.mp heq).symm⟩
  · rintro ⟨hy, hne⟩
    exact ⟨fun hyx => hne (congrArg some hyx.symm), hy, by simp⟩

theorem Accounts.run_unqueued (hc : q.curr = none) (hx : (q.se x).onRq = false) :
    Accounts (q.run x) := by
  refine h.counts.run.accounts h.nodup (fun y => ?_) h.leftmost
  show y ∈ q.tasks ↔ _ ∧ some x ≠ some y
  rw [run_onRq, h.mem, hc]
  constructor
  · rintro ⟨hy, -⟩
    refine ⟨hy, fun heq => ?_⟩
    obtain rfl := some_inj.mp heq
    exact absurd hy (by simp [hx])
  · exact fun hr => ⟨hr.1, by simp⟩

theorem Accounts.put_queued (hs : Sorted q) (hc : q.curr = some c) (hx : (q.se c).onRq = true)
    (he : q.enqueueTree c shape = some q') : Accounts { q' with curr := none } := by
  obtain ⟨hnodup, hmem, hleft, hre⟩ := h.link hs (fun hin => ((h.mem c).mp hin).2 hc) he
  have hcounts : Counts { q' with curr := none } q.runnable :=
    (h.counts.retree hre).congr (fun _ => rfl) (fun _ _ => rfl) rfl rfl
  refine hcounts.accounts hnodup (fun y => ?_) hleft
  show y ∈ q'.tasks ↔ (q'.se y).onRq = true ∧ none ≠ some y
  rw [hmem, hre.se, hc]
  constructor
  · rintro (rfl | ⟨hy, -⟩)
    · exact ⟨hx, by simp⟩
    · exact ⟨hy, by simp⟩
  · rintro ⟨hy, -⟩
    by_cases hyc : y = c
    · exact .inl hyc
    · exact .inr ⟨hy, fun heq => hyc (some_inj.mp heq).symm⟩

theorem Accounts.put_unqueued (hc : q.curr = some c) (hx : (q.se c).onRq = false) :
    Accounts { q with curr := none } := by
  have hcounts : Counts { q with curr := none } q.runnable :=
    h.counts.congr (fun _ => rfl) (fun _ _ => rfl) rfl rfl
  refine hcounts.accounts h.nodup (fun y => ?_) h.leftmost
  show y ∈ q.tasks ↔ (q.se y).onRq = true ∧ none ≠ some y
  rw [h.mem, hc]
  constructor
  · exact fun hr => ⟨hr.1, by simp⟩
  · rintro ⟨hy, -⟩
    refine ⟨hy, fun heq => ?_⟩
    obtain rfl := some_inj.mp heq
    exact absurd hy (by simp [hx])

end Accounts

/-! ## Steps -/

/-- Virtual runtimes change of the running entity and of `x` only, and `min_vruntime` moves
forward. -/
structure Moved (x : Nat) (q q' : CfsRq) : Prop where
  quiet : Quiet q q'
  forward : 0 ≤ (q'.minVruntime - q.minVruntime).toInt
  same : ∀ y, y ≠ x → q.curr ≠ some y → (q'.se y).vruntime = (q.se y).vruntime

theorem moved_updateCurr (x : Nat) (q : CfsRq) : Moved x q q.updateCurr :=
  ⟨quiet_updateCurr, updateCurr_forward, fun _ _ hy => updateCurr_vruntime hy⟩

theorem Moved.setVruntime (h : Moved x q q') (hy : y = x ∨ q.curr = some y) :
    Moved x q (q'.setVruntime y v) := by
  refine ⟨h.quiet.trans quiet_setVruntime, h.forward, fun z hzx hzc => ?_⟩
  have hzy : z ≠ y := by
    rintro rfl
    rcases hy with hy | hy
    · exact hzx hy
    · exact hzc hy
  rw [CfsRq.setVruntime, setSe_of_ne hzy]
  exact h.same z hzx hzc

theorem moved_placeNew (x : Nat) (here : Bool) (q : CfsRq) : Moved x q (q.placeNew x here) := by
  have h : Moved x q (q.updateCurr.placeEntity x true) :=
    (moved_updateCurr x q).setVruntime (.inl rfl)
  unfold placeNew
  dsimp only
  split
  · exact h
  · rename_i c hc
    split_ifs
    · have hcurr : q.curr = some c := h.quiet.curr.symm.trans hc
      exact (h.setVruntime (.inr hcurr)).setVruntime (.inl rfl)
    · exact h

theorem forward_refl (q : CfsRq) : 0 ≤ (q.minVruntime - q.minVruntime).toInt := by
  rw [BitVec.sub_self]
  decide

theorem moved_setSe (hx : (q.se x).onRq = false) (hf : (f (q.se x)).onRq = false) :
    Moved x q (q.setSe x f) := by
  refine ⟨⟨rfl, rfl, rfl, rfl, rfl, fun y => ?_, fun y hy => ?_⟩, forward_refl q, fun y hy _ => ?_⟩
  · by_cases hyx : y = x
    · rw [hyx, setSe_self, hf, hx]
    · rw [setSe_of_ne hyx]
  · have hyx : y ≠ x := fun hyx => absurd (hyx ▸ hy) (by simp [hx])
    rw [setSe_of_ne hyx]
  · rw [setSe_of_ne hy]

theorem Retree.entityKey (h : Retree q q') (y : Nat) : q'.entityKey y = q.entityKey y := by
  unfold CfsRq.entityKey
  rw [h.se, h.minVruntime]

theorem Retree.forward {q1 q2 : CfsRq} (h : Retree q1 q2)
    (hq : 0 ≤ (q1.minVruntime - q.minVruntime).toInt) :
    0 ≤ (q2.minVruntime - q.minVruntime).toInt := by
  rw [h.minVruntime]
  exact hq

theorem entityKey_accountEnqueue (y : Nat) : (q.accountEnqueue x).entityKey y = q.entityKey y :=
  congrArg (fun v => (v - q.minVruntime).toInt) (field_update Entity.vruntime (by rfl) y)

theorem entityKey_accountDequeue (y : Nat) : (q.accountDequeue x).entityKey y = q.entityKey y :=
  congrArg (fun v => (v - q.minVruntime).toInt) (field_update Entity.vruntime (by rfl) y)

theorem Sorted.link (h : Sorted q) (he : q.enqueueTree x shape = some q') : Sorted q' := by
  obtain ⟨as, bs, hq, hq', has, hbs, -, hre⟩ := h.enqueueTree he
  unfold Sorted at h ⊢
  simp only [hre.entityKey]
  rw [hq] at h
  rw [hq']
  exact BinaryTree.pairwise_link h has fun b hb => (hbs b hb).le

structure Good (q : CfsRq) : Prop where
  sorted : Sorted q
  accounts : Accounts q

theorem Good.not_mem (h : Good q) (hx : (q.se x).onRq = false) : x ∉ q.tasks :=
  fun hin => absurd ((h.accounts.mem x).mp hin).1 (by simp [hx])

theorem Good.curr_not_mem (h : Good q) (hc : q.curr = some c) : c ∉ q.tasks :=
  fun hin => ((h.accounts.mem c).mp hin).2 hc

theorem moved_enqueue (x : Nat) (wakeup : Bool) (q : CfsRq) :
    Moved x q (if wakeup = true then q.updateCurr.placeEntity x false else q.updateCurr) := by
  split_ifs
  · exact (moved_updateCurr x q).setVruntime (.inl rfl)
  · exact moved_updateCurr x q

theorem Sorted.account (h : Sorted q) (hkey : ∀ y, q'.entityKey y = q.entityKey y)
    (ht : q'.tasks = q.tasks) : Sorted q' := by
  unfold Sorted
  rw [ht]
  simp only [hkey]
  exact h

theorem entityKey_run (y : Nat) : (q.run x).entityKey y = q.entityKey y :=
  congrArg (fun v => (v - q.minVruntime).toInt) (field_update Entity.vruntime (by rfl) y)

theorem Good.setNextEntity (h : Good q) (hc : q.curr = none)
    (hn : q.setNextEntity x shape = some q') :
    Good q' ∧ 0 ≤ (q'.minVruntime - q.minVruntime).toInt := by
  obtain ⟨q2, hrem, rfl⟩ := map_eq_some_iff.mp hn
  split_ifs at hrem with hon
  · obtain ⟨hq2, -, hre⟩ := dequeueTree_eq h.accounts.leftmost hrem
    have hs : Sorted q2 := by
      unfold Sorted
      simp only [hre.entityKey]
      rw [hq2]
      exact h.sorted.sublist erase_sublist
    exact ⟨⟨hs.account entityKey_run rfl, h.accounts.run_queued hc hrem⟩,
      hre.forward (forward_refl q)⟩
  · obtain rfl := some_inj.mp hrem
    have hoff : (q.se x).onRq = false := Bool.not_eq_true _ ▸ hon
    refine ⟨⟨h.sorted.account entityKey_run rfl, h.accounts.run_unqueued hc hoff⟩, ?_⟩
    exact forward_refl q

section Good

variable (h : Good q) (hr : q.inRange = true) (hr' : q'.inRange = true)
include h hr hr'

variable {q1 : CfsRq}

/-- `q1` is between the charge and the change of the tree that leads to `q'`. -/
theorem Good.pairwise (hm : Moved x q q1) (hkey : ∀ y, q'.entityKey y = q1.entityKey y)
    {l : List Nat} (hl : l.Sublist q.tasks) (hx : x ∉ l) (hsub : ∀ y ∈ l, y ∈ q'.tasks) :
    l.Pairwise fun y z => q1.entityKey y ≤ q1.entityKey z := by
  refine pairwise_shift (h.sorted.sublist hl) ?_ hm.forward ?_ ?_
  · intro y hy
    exact hm.same y (fun hyx => hx (hyx ▸ hy)) ((h.accounts.mem y).mp (hl.subset hy)).2
  · exact fun y hy => inRange_iff.mp hr y (.inl (hl.subset hy))
  · intro y hy
    rw [← hkey]
    exact inRange_iff.mp hr' y (.inl (hsub y hy))

theorem Good.sorted_moved (hm : Moved x q q1) (hx : x ∉ q.tasks)
    (hkey : ∀ y, q'.entityKey y = q1.entityKey y) (hsub : ∀ y ∈ q1.tasks, y ∈ q'.tasks) :
    Sorted q1 := by
  unfold Sorted
  rw [hm.quiet.tasks] at hsub ⊢
  exact h.pairwise hr hr' hm hkey (List.Sublist.refl _) hx hsub

theorem Good.moved (hm : Moved x q q') (hx : x ∉ q.tasks) :
    Good q' ∧ 0 ≤ (q'.minVruntime - q.minVruntime).toInt :=
  ⟨⟨h.sorted_moved hr hr' hm hx (fun _ => rfl) fun _ hy => hy, h.accounts.quiet hm.quiet⟩,
    hm.forward⟩

theorem Good.enqueueEntity (hx : (q.se x).onRq = false) {wakeup : Bool}
    (he : q.enqueueEntity x wakeup shape = some q') :
    Good q' ∧ 0 ≤ (q'.minVruntime - q.minVruntime).toInt := by
  have hm := moved_enqueue x wakeup q
  obtain ⟨q2, hins, rfl⟩ := map_eq_some_iff.mp he
  generalize (if wakeup = true then q.updateCurr.placeEntity x false else q.updateCurr) = q1
    at hm hins
  have hon : (q1.se x).onRq = false := (hm.quiet.onRq x).trans hx
  have ha1 := h.accounts.quiet hm.quiet
  have hsorted := h.sorted_moved hr hr' hm (h.not_mem hx)
  split_ifs at hins with hc
  · obtain rfl := some_inj.mp hins
    have hs := hsorted entityKey_accountEnqueue fun _ hy => hy
    exact ⟨⟨hs.account entityKey_accountEnqueue rfl, ha1.enqueue_curr hon hc⟩, hm.forward⟩
  · obtain ⟨hre, hsub⟩ := enqueueTree_retree hins
    have hs := hsorted (fun y => (entityKey_accountEnqueue y).trans (hre.entityKey y)) hsub
    exact ⟨⟨(hs.link hins).account entityKey_accountEnqueue rfl,
      ha1.enqueue_tree hs hon hc hins⟩, hre.forward hm.forward⟩

theorem Good.dequeueEntity (hx : (q.se x).onRq = true) (hd : q.dequeueEntity x shape = some q') :
    Good q' ∧ 0 ≤ (q'.minVruntime - q.minVruntime).toInt := by
  have hm := moved_updateCurr x q
  obtain ⟨q2, hrem, rfl⟩ := map_eq_some_iff.mp hd
  generalize q.updateCurr = q1 at hm hrem
  have hon : (q1.se x).onRq = true := (hm.quiet.onRq x).trans hx
  have ha1 := h.accounts.quiet hm.quiet
  split_ifs at hrem with hc
  · obtain rfl := some_inj.mp hrem
    have hs : Sorted q1 := h.sorted_moved hr hr' hm (h.curr_not_mem (hm.quiet.curr.symm.trans hc))
      entityKey_accountDequeue fun _ hy => hy
    exact ⟨⟨hs.account entityKey_accountDequeue rfl, ha1.dequeue_curr hon hc⟩, hm.forward⟩
  · obtain ⟨hq2, -, hre⟩ := dequeueTree_eq ha1.leftmost hrem
    have hs : Sorted q2 := by
      unfold Sorted
      simp only [hre.entityKey]
      have hnd := ha1.nodup
      rw [hm.quiet.tasks] at hq2 hnd
      -- the rest of the tree, in the order of the new keys
      apply h.pairwise hr hr' hm (fun y => (entityKey_accountDequeue y).trans (hre.entityKey y))
        (hq2 ▸ erase_sublist) _ fun _ hy => hy
      show x ∉ q2.tasks
      rw [hq2]
      exact hnd.not_mem_erase
    exact ⟨⟨hs.account entityKey_accountDequeue rfl, ha1.dequeue_tree hon hrem⟩,
      hre.forward hm.forward⟩

theorem Good.putPrevEntity (hc : q.curr = some c) (hp : q.putPrevEntity c shape = some q') :
    Good q' ∧ 0 ≤ (q'.minVruntime - q.minVruntime).toInt := by
  obtain ⟨q2, hins, rfl⟩ := map_eq_some_iff.mp hp
  split_ifs at hins with hon
  · have hm := moved_updateCurr c q
    generalize q.updateCurr = q1 at hm hins
    have ha1 := h.accounts.quiet hm.quiet
    obtain ⟨hre, hsub⟩ := enqueueTree_retree hins
    have hs : Sorted q1 := h.sorted_moved hr hr' hm (h.curr_not_mem hc) hre.entityKey hsub
    refine ⟨⟨(hs.link hins).account (fun _ => rfl) rfl, ?_⟩, hre.forward hm.forward⟩
    exact ha1.put_queued hs (hm.quiet.curr.trans hc) ((hm.quiet.onRq c).trans hon) hins
  · obtain rfl := some_inj.mp hins
    have hoff : (q.se c).onRq = false := Bool.not_eq_true _ ▸ hon
    refine ⟨⟨h.sorted.account (fun _ => rfl) rfl, h.accounts.put_unqueued hc hoff⟩, ?_⟩
    exact forward_refl q

theorem Good.yieldTask (hc : q.curr = some c) {batch : Bool} (hy : q.yieldTask c batch = some q') :
    Good q' ∧ 0 ≤ (q'.minVruntime - q.minVruntime).toInt := by
  have hnotin := h.curr_not_mem hc
  unfold CfsRq.yieldTask at hy
  split_ifs at hy
  · obtain rfl := some_inj.mp hy
    exact ⟨h, forward_refl q⟩
  · obtain rfl := some_inj.mp hy
    exact h.moved hr hr' (moved_updateCurr c q) hnotin
  · obtain ⟨rightmost, -, rfl⟩ := map_eq_some_iff.mp hy
    split_ifs at hr' ⊢
    · exact ⟨h, forward_refl q⟩
    · have hm : Moved c q (q.setVruntime c ((q.se rightmost).vruntime + 1)) := by
        refine Moved.setVruntime ⟨.refl q, forward_refl q, fun _ _ _ => rfl⟩ (.inl rfl)
      exact h.moved hr hr' hm hnotin

theorem Good.step {a : FairAct} (hs : fairStep q a = some q') :
    Good q' ∧ 0 ≤ (q'.minVruntime - q.minVruntime).toInt := by
  cases a <;> simp only [fairStep] at hs
  case clock now =>
    obtain rfl := some_inj.mp hs
    have hq : Quiet q { q with clock := now } :=
      ⟨rfl, rfl, rfl, rfl, rfl, fun _ => rfl, fun _ _ => rfl⟩
    exact ⟨⟨h.sorted.account (fun _ => rfl) rfl, h.accounts.quiet hq⟩, forward_refl q⟩
  case enqueue x wakeup shape =>
    split_ifs at hs with hx
    · obtain rfl := some_inj.mp hs
      exact ⟨h, forward_refl q⟩
    · exact h.enqueueEntity hr hr' (Bool.not_eq_true _ ▸ hx) hs
  case dequeue x shape =>
    split_ifs at hs with hx
    exact h.dequeueEntity hr hr' hx hs
  case pickNext shape =>
    split_ifs at hs with hc hnr
    · obtain rfl := some_inj.mp hs
      exact ⟨h, forward_refl q⟩
    · obtain ⟨x, -, hn⟩ := bind_eq_some_iff.mp hs
      exact h.setNextEntity hc hn
  case putPrev shape =>
    obtain ⟨c, hc, hp⟩ := bind_eq_some_iff.mp hs
    exact h.putPrevEntity hr hr' hc hp
  case setCurrTask x shape =>
    split_ifs at hs with hc
    exact h.setNextEntity hc hs
  case tick =>
    split_ifs at hs with hc
    obtain rfl := some_inj.mp hs
    obtain ⟨c, hc⟩ := Option.ne_none_iff_exists'.mp hc
    exact h.moved hr hr' (moved_updateCurr c q) (h.curr_not_mem hc)
  case yield batch =>
    obtain ⟨c, hc, hy⟩ := bind_eq_some_iff.mp hs
    split_ifs at hy
    exact h.yieldTask hr hr' hc hy
  case placeNew x here =>
    split_ifs at hs with hx
    obtain rfl := some_inj.mp hs
    exact h.moved hr hr' (moved_placeNew x here q) (h.not_mem hx.1)
  case reweigh x weight invWeight =>
    split_ifs at hs with hx
    obtain rfl := some_inj.mp hs
    have hx : (q.se x).onRq = false := Bool.not_eq_true _ ▸ hx
    exact h.moved hr hr' (moved_setSe hx hx) (h.not_mem hx)
  case arrive x se =>
    split_ifs at hs with hx
    obtain rfl := some_inj.mp hs
    exact h.moved hr hr' (moved_setSe hx.1 rfl) (h.not_mem hx.1)

end Good

theorem good_init (hq : fairMachine.init q) : Good q ∧ q.inRange = true := by
  obtain ⟨htree, hleft, hcurr, hnr, hload, -, hon⟩ := hq
  have ht : q.tasks = [] := by
    rw [tasks, htree]
    rfl
  have hrun : q.runnable = [] := by
    rw [runnable, hcurr, ht]
    rfl
  refine ⟨⟨?_, ⟨?_, fun x => ?_, ?_, ?_, ?_⟩⟩, ?_⟩
  · rw [Sorted, ht]
    exact .nil
  · rw [ht]
    exact .nil
  · simp [ht, hon x]
  · rw [hleft, ht]
    rfl
  · rw [hnr, hrun]
    rfl
  · rw [hload, hrun]
    rfl
  · rw [inRange, ht, hcurr]
    rfl

end CfsRq

/-- Over every run in which the virtual runtimes stay near `min_vruntime`: the tree is in order and
holds the runnable entities that do not run, its leftmost node is cached, the number and the weight
of the runnable entities are counted, and a step does not move `min_vruntime` backwards. -/
theorem fairQueue_invariant {q : CfsRq}
    (h : fairMachine.Reach (fun q a => (fairStep q a).all inRange) q) :
    (q.tasks.Pairwise fun x y => q.entityKey x ≤ q.entityKey y) ∧ q.tasks.Nodup ∧
      (∀ x, x ∈ q.tasks ↔ (q.se x).onRq = true ∧ q.curr ≠ some x) ∧ q.rbLeftmost = q.tasks.head? ∧
      q.nrRunning = q.tasks.length + (if q.curr.any fun c => (q.se c).onRq then 1 else 0) ∧
      q.load = (q.runnable.map fun x => (q.se x).weight).sum ∧
      ∀ a q', fairStep q a = some q' → q'.inRange = true →
        0 ≤ (q'.minVruntime - q.minVruntime).toInt := by
  have hinv : Good q ∧ q.inRange = true := by
    refine h.invariant (I := fun q => Good q ∧ q.inRange = true) (fun _ => good_init) ?_
    intro q a q' hq hok hs
    rw [show fairMachine.step q a = fairStep q a from rfl] at hs
    rw [hs] at hok
    exact ⟨(hq.1.step hq.2 hok hs).1, hok⟩
  obtain ⟨⟨hsorted, hacc⟩, hr⟩ := hinv
  refine ⟨hsorted, hacc.nodup, hacc.mem, hacc.leftmost, ?_, hacc.load, fun a q' hs hr' => ?_⟩
  · rw [hacc.nrRunning, runnable, length_append, Nat.add_comm]
    congr 1
    cases hc : q.curr with
    | none => rfl
    | some c =>
      rw [Option.toList_some, Option.any_some, filter_cons, filter_nil]
      split_ifs <;> rfl
  · exact (Good.step ⟨hsorted, hacc⟩ hr hr' hs).2

/-- A run queue after `init_cfs_rq`. -/
def emptyCfsRq : CfsRq where
  se _ := ⟨0, nice0Load, 0, false, 0, 0, 0⟩
  tasksTimeline := .nil
  rbLeftmost := none
  curr := none
  nrRunning := 0
  load := 0
  minVruntime := -(2 ^ 20)
  clock := 1

/-- Two tasks wake up, the first one runs and gets another weight, a third one is forked, and the
second one is picked. -/
def fairRun : List FairAct :=
  [.enqueue 0 true (.node () .nil .nil), .enqueue 1 true (.node () .nil (.node () .nil .nil)),
    .pickNext (.node () .nil .nil), .clock 3000000, .tick, .dequeue 0 (.node () .nil .nil),
    .reweigh 0 335 12820798, .enqueue 0 false .nil, .clock 5000000, .placeNew 2 true,
    .enqueue 2 false (.node () (.node () .nil .nil) .nil),
    .putPrev (.node () (.node () .nil .nil) (.node () .nil .nil)),
    .pickNext (.node () .nil (.node () .nil .nil))]

theorem fairQueue_invariant_three :
    ∃ q, fairMachine.Reach (fun q a => (fairStep q a).all inRange) q ∧ q.tasks.length = 2 ∧
      q.curr = some 1 ∧ q.nrRunning = 3 ∧ q.load = 2383 := by
  obtain ⟨q, hreach, htasks, hcurr, hon, hsum⟩ := Machine.exists_reach (M := fairMachine)
    (G := fun q a => (fairStep q a).all inRange) (P := fun q => q.tasks.length = 2 ∧
      q.curr = some 1 ∧ (q.se 1).onRq = true ∧
      (q.runnable.map fun x => (q.se x).weight).sum = 2383) (s := emptyCfsRq)
    (.init ⟨rfl, rfl, rfl, rfl, rfl, rfl, fun _ => rfl⟩) fairRun (by decide +kernel)
  obtain ⟨-, -, -, -, hnr, hload, -⟩ := fairQueue_invariant hreach
  refine ⟨q, hreach, htasks, hcurr, ?_, hload.trans hsum⟩
  rw [hnr, htasks, hcurr, Option.any_some, hon]
  rfl

end MinixRt.Sched
