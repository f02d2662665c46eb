import MinixRt.Signal.Family

/-!
# Reaping exited children

The re-parenting loop of `do_default_signal_handle` walks the `children` list of the
reaped task with `list_for_each_entry` and puts each entry on the list of the reaper
without `list_del`. A live child sends the walk into the list of the reaper, where it
never ends (`Tree.adopt_cons`). The exited children of the reaped task are not handed
over at all: their list is freed with its head.

`reaps_iff` says that reaping works exactly when the reaped tasks have no children, and
`process_tree_invariant` that every run in which this holds keeps the tree consistent.
-/

namespace MinixRt.Signal

open List Lib

namespace Family

variable {n : Nat} {s s' : Family n} {mem : Kin × Fin n → List (Fin n)} {cur t p : Fin n}

/-! ## One exited child -/

/-- The exited child `tsk` of `cur` is released; its own lists are no longer looked at. -/
theorem Tree.release (h : s.Tree mem) (hcur : s.Allocated cur)
    (ht : s.place t = some (.childrenExit, cur)) :
    (s.release t).Tree (Function.update mem (.childrenExit, cur)
      ((mem (.childrenExit, cur)).erase t)) := by
  have h1 := Lists.del h (p := .listPoison1) (q := .listPoison2) hcur ht
  have hnone : (s.setTask t { s.task t with life := .free }).place t = none := by
    simp [place]
  rw [← hnone, ← place_update] at h1
  refine h1.restrict ?_
  rintro ⟨w, u⟩ hu hfree
  refine hu ?_
  by_cases hut : u = t
  · simp [Family.release, hut]
  · simpa [Family.release, hut] using hfree

theorem Tree.adopt_nil (h : s.Tree mem) (ht : s.Allocated t) (hnil : mem (.children, t) = [])
    (fuel : Nat) :
    adopt cur t (fuel + 1) s (s.links.next (.head .children t)) = some (.done s) := by
  have hring := h.linked (.children, t) ht
  rw [hnil] at hring
  have hnext : s.links.next (.head .children t) = .head .children t := hring.next_head
  simp [adopt, hnext]

/-- Once the walk is inside a set of nodes that is closed under `next` and holds the head of
the reaper's list, but not the head the walk compares with, it never ends. -/
theorem adopt_runs_on {S : Node n → Prop} (hcur : S (.head .children cur))
    (htsk : ¬ S (.head .children t)) (h1 : ¬ S .listPoison1) (h2 : ¬ S .listPoison2) (fuel : Nat)
    (s : Family n) (pos : Node n) (hpos : S pos) (hclosed : ∀ x, S x → S (s.links.next x)) :
    adopt cur t fuel s pos = none := by
  induction fuel generalizing s pos with
  | zero => rfl
  | succ fuel ih =>
    have hclosed' : ∀ x, S x → S ((s.links.add pos (.head .children cur)).next x) := by
      intro x hx
      rw [Links.add, Links.insert_next]
      split
      · exact hpos
      · split
        · exact hclosed _ hcur
        · exact hclosed x hx
    have hne : pos ≠ .head .children t := fun heq => htsk (heq ▸ hpos)
    cases pos with
    | listPoison1 => exact absurd hpos h1
    | listPoison2 => exact absurd hpos h2
    | head w u | childrenList c =>
      rw [adopt, if_neg hne]
      exact ih _ _ (hclosed' _ hpos) hclosed'

theorem Tree.adopt_cons (h : s.Tree mem) (hcur : s.Allocated cur) (ht : s.Allocated t)
    (hne : cur ≠ t) (hcons : mem (.children, t) ≠ []) (fuel : Nat) :
    adopt cur t fuel s (s.links.next (.head .children t)) = none := by
  obtain ⟨c, cs, hmem⟩ := exists_cons_of_ne_nil hcons
  have hring := h.linked (.children, t) ht
  rw [hmem] at hring
  have hnext : s.links.next (.head .children t) = .childrenList c := hring.next_head
  have hcurRing := h.linked (.children, cur) hcur
  let ring := (layout n).head (.children, cur) :: (mem (.children, cur)).map (layout n).entry
  cases fuel with
  | zero => rfl
  | succ fuel =>
    rw [hnext, adopt, if_neg (by simp)]
    refine adopt_runs_on (S := fun x => x = .childrenList c ∨ x ∈ ring) ?_ ?_ ?_ ?_ _ _ _ ?_ ?_
    · exact .inr (mem_cons_self ..)
    · rintro (heq | hin)
      · cases heq
      · exact Lists.head_notMem (Y := layout n) (h := (.children, cur)) (k := (.children, t))
          (by simpa using Ne.symm hne) hin
    · simp [ring, layout]
    · simp [ring, layout]
    · right
      rw [Links.add, Links.insert_next, if_neg (by simp), if_pos rfl]
      exact hcurRing.next_mem
    · intro x hx
      rw [Links.add, Links.insert_next]
      split
      · exact .inl rfl
      · rename_i hhead
        split
        · exact .inr hcurRing.next_mem
        · rename_i hxc
          have hin := hx.resolve_left hxc
          refine .inr (hcurRing.links_mem ?_).1
          exact (mem_cons.mp hin).resolve_left hhead

theorem Tree.reap_eq (h : s.Tree mem) (hcur : (s.task cur).life = .running)
    (ht : s.place t = some (.childrenExit, cur)) (hcode : (s.task t).exitCode = 0) (fuel : Nat) :
    reap (fuel + 1) s cur t =
      if mem (.children, t) = [] then some (.done (s.release t)) else none := by
  have hzombie : (s.task t).life = .zombie := (place_eq_some.mp ht).2
  have hne : cur ≠ t := by
    rintro rfl
    simp [hcur] at hzombie
  have hcur' : s.Allocated cur := by simp [Allocated, hcur]
  have ht' : s.Allocated t := by simp [Allocated, hzombie]
  rw [reap, if_neg (by simpa using hcode)]
  split
  · rename_i hnil
    rw [h.adopt_nil ht' hnil]
    rfl
  · rename_i hcons
    rw [h.adopt_cons hcur' ht' hne hcons]
    rfl

/-! ## The loop over the exited children -/

/-- The tasks of `zs` are freed and nothing else about any task has changed. -/
def Cleared (s s' : Family n) (zs : List (Fin n)) : Prop :=
  ∀ u, s'.task u = if u ∈ zs then { s.task u with life := .free } else s.task u

theorem Tree.handle_nil (h : s.Tree mem) (hcur : s.Allocated cur)
    (hnil : mem (.childrenExit, cur) = []) (fuel : Nat) :
    doDefaultSignalHandle (fuel + 1) s cur = some (.done s) := by
  have hring := h.linked (.childrenExit, cur) hcur
  rw [hnil] at hring
  have hnext : s.links.next (.head .childrenExit cur) = .head .childrenExit cur :=
    hring.next_head
  simp [doDefaultSignalHandle, reapLoop, hnext]

variable {zs : List (Fin n)} {z : Fin n}

@[simp] theorem release_task (z u : Fin n) : (s.release z).task u =
    if u = z then { s.task z with life := .free } else s.task u := by
  simp [Family.release]

theorem Cleared.cons (h : Cleared (s.release z) s' zs) : Cleared s s' (z :: zs) := by
  intro u
  rw [h u]
  by_cases huz : u = z
  · subst huz
    simp
  · simp [huz]

section Handle

variable (h : s.Tree mem) (hcur : (s.task cur).life = .running)
include h hcur

theorem Tree.handle_cons (hmem : mem (.childrenExit, cur) = z :: zs) (fuel : Nat) :
    doDefaultSignalHandle (fuel + 1) s cur = if (s.task z).exitCode ≠ 0 then some .bug
      else if mem (.children, z) = [] then doDefaultSignalHandle fuel (s.release z) cur
      else none := by
  have hcur' : s.Allocated cur := by simp [Allocated, hcur]
  have hz : s.place z = some (.childrenExit, cur) :=
    (h.mem_iff (.childrenExit, cur) z hcur').mp (by simp [hmem])
  have hring := h.linked (.childrenExit, cur) hcur'
  rw [hmem, map_cons] at hring
  have hfirst : s.links.next (.head .childrenExit cur) = .childrenList z := hring.next_head
  have hsecond := hring.next_first
  -- the entry saved before the release is the first one after it
  have hrest : (s.release z).links.next (.head .childrenExit cur) =
      s.links.next (.childrenList z) := by
    have hring' := (h.release hcur' hz).linked (.childrenExit, cur) (by
      by_cases heq : cur = z
      · subst heq
        simp [hcur, place] at hz
      · simp [Allocated, Family.release, heq, hcur])
    rw [Function.update_self, hmem, erase_cons_head] at hring'
    exact hring'.next_head.trans hsecond.symm
  rw [doDefaultSignalHandle, hfirst, reapLoop]
  by_cases hcode : (s.task z).exitCode = 0
  · rw [h.reap_eq hcur hz hcode, if_neg (not_not.mpr hcode)]
    split
    · simp only [Option.bind_some, doDefaultSignalHandle, hrest]
    · rfl
  · rw [reap, if_pos hcode, if_pos hcode]
    rfl

theorem Tree.ne_of_mem (hz : z ∈ mem (.childrenExit, cur)) : cur ≠ z ∧ s.place z = some (.childrenExit, cur) := by
  have hplace := (h.mem_iff (.childrenExit, cur) z (by simp [Allocated, hcur])).mp hz
  refine ⟨?_, hplace⟩
  rintro rfl
  simp [place_eq_some, hcur] at hplace

variable {fuel : Nat}

/-- When the loop ends, no reaped task had a live child, and every exited child of the
reaper is freed. -/
theorem Tree.handle_done (hmem : mem (.childrenExit, cur) = zs)
    (hdone : doDefaultSignalHandle fuel s cur = some (.done s')) :
    (∀ z ∈ zs, mem (.children, z) = []) ∧ Cleared s s' zs ∧ ∃ mem', s'.Tree mem' := by
  induction zs generalizing fuel s mem with
  | nil =>
    cases fuel with
    | zero => simp [doDefaultSignalHandle, reapLoop] at hdone
    | succ =>
      rw [h.handle_nil (by simp [Allocated, hcur]) hmem] at hdone
      cases hdone
      refine ⟨by simp, ?_, mem, h⟩
      intro u
      simp
  | cons z zs ih =>
    cases fuel with
    | zero => simp [doDefaultSignalHandle, reapLoop] at hdone
    | succ fuel =>
      obtain ⟨hne, hz⟩ := h.ne_of_mem hcur (z := z) (by simp [hmem])
      rw [h.handle_cons hcur hmem] at hdone
      split at hdone
      · simp at hdone
      · split at hdone
        · rename_i hnil
          have hrel := h.release (by simp [Allocated, hcur]) hz
          obtain ⟨hzs, hclear, htree⟩ := ih hrel (by simp [hne, hcur]) (by simp [hmem]) hdone
          refine ⟨?_, hclear.cons, htree⟩
          intro y hy
          rcases mem_cons.mp hy with rfl | hy
          · exact hnil
          · simpa using hzs y hy
        · simp at hdone

theorem Tree.handle_ends (hmem : mem (.childrenExit, cur) = zs) (hnil : ∀ z ∈ zs, mem (.children, z) = [])
    (hfuel : zs.length < fuel) :
    doDefaultSignalHandle fuel s cur = some .bug ∧ (∃ z ∈ zs, (s.task z).exitCode ≠ 0) ∨
      ∃ s', doDefaultSignalHandle fuel s cur = some (.done s') := by
  induction zs generalizing fuel s mem with
  | nil =>
    obtain ⟨fuel, rfl⟩ := Nat.exists_eq_add_one_of_ne_zero (Nat.ne_of_gt hfuel)
    exact .inr ⟨s, h.handle_nil (by simp [Allocated, hcur]) hmem fuel⟩
  | cons z zs ih =>
    obtain ⟨fuel, rfl⟩ := Nat.exists_eq_add_one_of_ne_zero (Nat.ne_zero_of_lt hfuel)
    obtain ⟨hne, hz⟩ := h.ne_of_mem hcur (z := z) (by simp [hmem])
    rw [h.handle_cons hcur hmem]
    by_cases hcode : (s.task z).exitCode = 0
    · rw [if_neg (not_not.mpr hcode), if_pos (hnil z (by simp))]
      have hrel := h.release (by simp [Allocated, hcur]) hz
      rcases ih hrel (by simp [hne, hcur]) (by simp [hmem])
        (fun y hy => by simpa using hnil y (mem_cons_of_mem _ hy))
        (by simpa using hfuel) with ⟨hbug, y, hy, hyc⟩ | hdone
      · refine .inl ⟨hbug, y, mem_cons_of_mem _ hy, ?_⟩
        by_cases hyz : y = z
        · subst hyz
          simpa using hyc
        · simpa [hyz] using hyc
      · exact .inr hdone
    · rw [if_pos hcode]
      exact .inl ⟨rfl, z, by simp, hcode⟩

end Handle

/-! ## What reaping is for -/

/-- The exited children of `cur` have no children of their own, live or exited. -/
def Childless (s : Family n) (cur : Fin n) : Prop :=
  ∀ z, (s.task z).life = .zombie → (s.task z).parent = some cur →
    ∀ c, s.Allocated c → (s.task c).parent ≠ some z

/-- The children of every task that is freed now belong to `cur`. -/
def Adopted (s s' : Family n) (cur : Fin n) : Prop :=
  ∀ z, s.Allocated z → ¬ s'.Allocated z → ∀ c, s.Allocated c →
    (s.task c).parent = some z → s'.Allocated c ∧ (s'.task c).parent = some cur

/-- The loop over the exited children of `cur` comes to its end and hands over. -/
def Reaps (s : Family n) (cur : Fin n) : Prop :=
  ∃ fuel s', doDefaultSignalHandle fuel s cur = some (.done s') ∧
    s'.Consistent ∧ Adopted s s' cur

theorem Cleared.allocated_iff (h : Cleared s s' zs) (u : Fin n) :
    s'.Allocated u ↔ s.Allocated u ∧ u ∉ zs := by
  rw [Allocated, h u]
  split
  · rename_i hu
    simp [hu]
  · rename_i hu
    simp [Allocated, hu]

theorem Cleared.parent (h : Cleared s s' zs) (u : Fin n) :
    (s'.task u).parent = (s.task u).parent := by
  rw [h u]
  split <;> rfl

theorem Tree.children_nil (h : s.Tree mem) (hcur : (s.task cur).life = .running)
    (hless : s.Childless cur) (hz : z ∈ mem (.childrenExit, cur)) : mem (.children, z) = [] := by
  obtain ⟨-, hplace⟩ := h.ne_of_mem hcur hz
  obtain ⟨hparent, hlife⟩ := place_eq_some.mp hplace
  rw [eq_nil_iff_forall_not_mem]
  intro c hc
  have hc' := (h.mem_iff (.children, z) c (by simp [Allocated, hlife])).mp hc
  exact hless z hlife hparent c (allocated_of_place hc') (parent_of_place hc')

theorem Consistent.handle (h : s.Consistent) (hcur : (s.task cur).life = .running)
    (hless : s.Childless cur) (hdone : doDefaultSignalHandle fuel s cur = some (.done s')) :
    s'.Consistent ∧ Adopted s s' cur := by
  obtain ⟨⟨mem, hmem⟩, hparent⟩ := h
  obtain ⟨-, hclear, htree⟩ := hmem.handle_done hcur rfl hdone
  have hfreed : ∀ c z, s.Allocated c → z ∈ mem (.childrenExit, cur) →
      (s.task c).parent ≠ some z := by
    intro c z hc hz
    obtain ⟨hp, hlife⟩ := place_eq_some.mp (hmem.ne_of_mem hcur hz).2
    exact hless z hlife hp c hc
  refine ⟨⟨htree, ?_⟩, ?_⟩
  · intro c p hc hp
    rw [hclear.parent] at hp
    obtain ⟨hc', -⟩ := (hclear.allocated_iff c).mp hc
    exact (hclear.allocated_iff p).mpr ⟨hparent c p hc' hp, fun hz => hfreed c p hc' hz hp⟩
  · intro z hz hz' c hc hp
    have hmem' : z ∈ mem (.childrenExit, cur) := by
      by_contra hnot
      exact hz' ((hclear.allocated_iff z).mpr ⟨hz, hnot⟩)
    exact absurd hp (hfreed c z hc hmem')

theorem reaps_iff (h : s.Consistent) (hcur : (s.task cur).life = .running)
    (hcode : ∀ z, (s.task z).life = .zombie → (s.task z).parent = some cur →
      (s.task z).exitCode = 0) : s.Reaps cur ↔ s.Childless cur := by
  obtain ⟨mem, hmem⟩ := h.1
  have hcur' : s.Allocated cur := by simp [Allocated, hcur]
  constructor
  · rintro ⟨fuel, s', hdone, -, hadopt⟩ z hlife hp c hc hcz
    obtain ⟨hlive, hclear, -⟩ := hmem.handle_done hcur rfl hdone
    have hz : z ∈ mem (.childrenExit, cur) :=
      (hmem.mem_iff (.childrenExit, cur) z hcur').mpr (place_eq_some.mpr ⟨hp, hlife⟩)
    have hfreed : ¬ s'.Allocated z := by
      rw [hclear.allocated_iff]
      exact fun hz' => hz'.2 hz
    obtain ⟨-, hcp⟩ := hadopt z (by simp [Allocated, hlife]) hfreed c hc hcz
    rw [hclear.parent, hcz] at hcp
    exact (hmem.ne_of_mem hcur hz).1 (Option.some.inj hcp).symm
  · intro hless
    rcases hmem.handle_ends hcur rfl (fun z hz => hmem.children_nil hcur hless hz)
      (Nat.lt_succ_self _) with ⟨-, z, hz, hzc⟩ | ⟨s', hdone⟩
    · obtain ⟨hp, hlife⟩ := place_eq_some.mp (hmem.ne_of_mem hcur hz).2
      exact absurd (hcode z hlife hp) hzc
    · exact ⟨_, s', hdone, h.handle hcur hless hdone⟩

theorem Consistent.handle_runs_on (h : s.Consistent) (hcur : (s.task cur).life = .running)
    (hsome : ∃ z, s.place z = some (.childrenExit, cur))
    (hall : ∀ z, s.place z = some (.childrenExit, cur) →
      (s.task z).exitCode = 0 ∧ ∃ c, s.place c = some (.children, z)) (fuel : Nat) :
    s.doDefaultSignalHandle fuel cur = none := by
  obtain ⟨mem, hmem⟩ := h.1
  have hcur' : s.Allocated cur := by simp [Allocated, hcur]
  obtain ⟨z, hz⟩ := hsome
  have hne : mem (.childrenExit, cur) ≠ [] :=
    ne_nil_of_mem ((hmem.mem_iff (.childrenExit, cur) z hcur').mpr hz)
  obtain ⟨y, ys, hys⟩ := exists_cons_of_ne_nil hne
  obtain ⟨-, hy⟩ := hmem.ne_of_mem hcur (z := y) (by simp [hys])
  obtain ⟨hcode, c, hc⟩ := hall y hy
  have hlive : mem (.children, y) ≠ [] :=
    ne_nil_of_mem ((hmem.mem_iff (.children, y) c (allocated_of_place hy)).mpr hc)
  cases fuel with
  | zero => rfl
  | succ =>
    rw [hmem.handle_cons hcur hys, if_neg (not_not.mpr hcode), if_neg hlive]

/-- Each allocated task with a parent is linked exactly once, on a list of the task its
`parent` names, and the lists link no freed task. -/
def LinkedOnce (s : Family n) : Prop :=
  ∃ mem : Kin × Fin n → List (Fin n),
    (∀ w t, s.Allocated t → Linked s.links (.head w t) ((mem (w, t)).map .childrenList)) ∧
    (∀ w t c, s.Allocated t → c ∈ mem (w, t) → s.Allocated c) ∧
    ∀ c p, s.Allocated c → (s.task c).parent = some p →
      ∃ w, c ∈ mem (w, p) ∧ ∀ w' t, s.Allocated t → c ∈ mem (w', t) → (w', t) = (w, p)

theorem Consistent.linkedOnce (h : s.Consistent) : s.LinkedOnce := by
  obtain ⟨⟨mem, hmem⟩, hparent⟩ := h
  refine ⟨mem, fun w t ht => hmem.linked (w, t) ht, ?_, ?_⟩
  · intro w t c ht hc
    exact allocated_of_place ((hmem.mem_iff (w, t) c ht).mp hc)
  · intro c p hc hp
    obtain ⟨w, hw⟩ : ∃ w, s.place c = some (w, p) := by
      cases hlife : (s.task c).life with
      | free => exact absurd hlife hc
      | running => exact ⟨.children, place_eq_some.mpr ⟨hp, hlife⟩⟩
      | zombie => exact ⟨.childrenExit, place_eq_some.mpr ⟨hp, hlife⟩⟩
    refine ⟨w, (hmem.mem_iff (w, p) c (hparent c p hc hp)).mpr hw, ?_⟩
    intro w' t ht hmem'
    have := (hmem.mem_iff (w', t) c ht).mp hmem'
    rw [hw] at this
    exact (Option.some.inj this).symm

end Family

/-! ## Runs -/

inductive FamilyAct (n : Nat)
  | doFork (cur t : Fin n)
  | taskDoExit (t : Fin n) (flags : Int)
  | doDefaultSignalHandle (cur : Fin n) (fuel : Nat)

/-- Forking takes a free task structure; a task that has exited does nothing more. -/
def familyStep {n : Nat} (s : Family n) : FamilyAct n → Option (Family n)
  | .doFork cur t =>
    if (s.task cur).life = .running ∧ (s.task t).life = .free then some (s.doFork cur t)
    else none
  | .taskDoExit t flags =>
    if (s.task t).life = .running then s.taskDoExit t flags else none
  | .doDefaultSignalHandle cur fuel =>
    if (s.task cur).life = .running then
      match s.doDefaultSignalHandle fuel cur with
      | some (.done s') => some s'
      | _ => none
    else none

def familyMachine (n : Nat) : Machine (Family n) (FamilyAct n) where
  init := Family.Consistent
  step := familyStep

def ReapsChildless {n : Nat} (s : Family n) : FamilyAct n → Prop
  | .doDefaultSignalHandle cur _ => s.Childless cur
  | _ => True

open Family in
theorem consistent_step {n : Nat} {s s' : Family n} {a : FamilyAct n} (h : s.Consistent)
    (hok : ReapsChildless s a) (hs : familyStep s a = some s') : s'.Consistent := by
  cases a with
  | doFork =>
    obtain ⟨⟨hcur, ht⟩, hfork⟩ := Option.ite_none_right_eq_some.mp hs
    cases hfork
    exact h.doFork hcur ht
  | taskDoExit =>
    obtain ⟨ht, hexit⟩ := Option.ite_none_right_eq_some.mp hs
    exact h.taskDoExit ht hexit
  | doDefaultSignalHandle cur fuel =>
    obtain ⟨hcur, hhandle⟩ := Option.ite_none_right_eq_some.mp hs
    split at hhandle
    · rename_i hdone
      cases hhandle
      exact (h.handle hcur hok hdone).1
    · cases hhandle

/-- In every run in which only childless tasks are reaped the tree stays consistent, and
the next reaping of childless tasks ends and leaves a consistent tree again, or stops at
the `BUG()` for an exit code other than zero. -/
theorem process_tree_invariant {n : Nat} {s : Family n}
    (h : (familyMachine n).Reach ReapsChildless s) :
    s.Consistent ∧ s.LinkedOnce ∧ ∀ cur, (s.task cur).life = .running →
      ((∀ z, (s.task z).life = .zombie → (s.task z).parent = some cur →
        (s.task z).exitCode = 0) → (s.Reaps cur ↔ s.Childless cur)) ∧
      (s.Childless cur → s.Reaps cur ∨
        ∃ fuel, s.doDefaultSignalHandle fuel cur = some .bug) := by
  have hc : s.Consistent := h.invariant (fun _ h => h) fun _ _ _ => consistent_step
  refine ⟨hc, hc.linkedOnce, fun cur hcur => ⟨Family.reaps_iff hc hcur, ?_⟩⟩
  intro hless
  obtain ⟨mem, hmem⟩ := hc.1
  rcases hmem.handle_ends hcur rfl (fun z hz => hmem.children_nil hcur hless hz)
    (Nat.lt_succ_self _) with ⟨hbug, -⟩ | ⟨s', hdone⟩
  · exact .inr ⟨_, hbug⟩
  · exact .inl ⟨_, s', hdone, hc.handle hcur hless hdone⟩

/-- One root task, all other task structures free. -/
def Family.booted (n : Nat) (root : Fin n) : Family n :=
  Family.taskCreateTsk ⟨fun _ => ⟨.free, none, 0⟩, ⟨id, id⟩⟩ root

theorem Family.consistent_booted (n : Nat) (root : Fin n) : (Family.booted n root).Consistent := by
  refine Family.Consistent.taskCreateTsk ⟨⟨fun _ => [], ?_, ?_⟩, ?_⟩ rfl
  · intro h hv
    exact absurd rfl hv
  · intro h e hv
    exact absurd rfl hv
  · intro t p ht
    exact absurd rfl ht

instance {n : Nat} (s : Family n) (t : Fin n) : Decidable (s.Allocated t) :=
  inferInstanceAs (Decidable ((s.task t).life ≠ .free))

instance {n : Nat} (s : Family n) (cur : Fin n) : Decidable (s.Childless cur) :=
  inferInstanceAs (Decidable (∀ z, (s.task z).life = .zombie → (s.task z).parent = some cur →
    ∀ c, s.Allocated c → (s.task c).parent ≠ some z))

instance {n : Nat} (s : Family n) (a : FamilyAct n) : Decidable (ReapsChildless s a) :=
  match a with
  | .doDefaultSignalHandle cur _ => inferInstanceAs (Decidable (s.Childless cur))
  | .doFork _ _ | .taskDoExit _ _ => inferInstanceAs (Decidable True)

/-- A child exits and its parent reaps it. -/
theorem process_tree_invariant_sample :
    ∃ s, (familyMachine 3).run (Family.booted 3 0)
      [.doFork 0 1, .taskDoExit 1 0, .doDefaultSignalHandle 0 2] = some s ∧
      s.Consistent ∧ (s.task 1).life = .free := by
  obtain ⟨s, hs, hreach, hfree⟩ := Machine.exists_run (M := familyMachine 3) (G := ReapsChildless)
    (P := fun s => (s.task 1).life = .free) (.init (Family.consistent_booted 3 0))
    [.doFork 0 1, .taskDoExit 1 0, .doDefaultSignalHandle 0 2] (by decide +kernel)
  exact ⟨s, hs, (process_tree_invariant hreach).1, hfree⟩

/-- A task exits while it has a live child: its parent never leaves the loop. -/
theorem reaping_never_ends :
    ∃ s, (familyMachine 3).Reach Machine.free s ∧ (s.task 0).life = .running ∧
      ∀ fuel, s.doDefaultSignalHandle fuel 0 = none := by
  obtain ⟨s, hreach, hcur, hsome, hall⟩ := Machine.exists_reach (M := familyMachine 3)
    (G := ReapsChildless) (P := fun s => (s.task 0).life = .running ∧
      (∃ z, s.place z = some (.childrenExit, 0)) ∧ ∀ z, s.place z = some (.childrenExit, 0) →
        (s.task z).exitCode = 0 ∧ ∃ c, s.place c = some (.children, z))
    (.init (Family.consistent_booted 3 0)) [.doFork 0 1, .doFork 1 2, .taskDoExit 1 0]
    (by decide +kernel)
  have hc : s.Consistent := hreach.invariant (fun _ h => h) fun _ _ _ => consistent_step
  exact ⟨s, hreach.mono fun _ _ _ => trivial, hcur, hc.handle_runs_on hcur hsome hall⟩

end MinixRt.Signal
