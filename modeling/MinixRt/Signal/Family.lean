import MinixRt.Lib.Linked
import MinixRt.Lib.Machine
import Mathlib.Data.Fintype.Basic

/-!
# The process tree

A task has a `children` list, a `children_exit` list and one entry, `children_list`, that
lies on one of the two lists of its parent. `do_fork` puts the entry on the `children`
list, `task_do_exit` moves it to the `children_exit` list, and `do_default_signal_handle`
takes the exited children of the current task off and frees them.

The lists are the intrusive rings of the source. The loops are read link by link, with
fuel: `none` means that the loop is still running after that many rounds.

`Tree` ties the lists to the `parent` pointers; forking and exiting keep a `Consistent`
tree.
-/

namespace MinixRt.Signal

open Function Lib

/-! ## Tasks and links -/

inductive Kin
  | children | childrenExit
  deriving DecidableEq, Repr

/-- The list nodes: the heads in the tasks, the `children_list` entries, and the two
values `list_del` leaves behind. -/
inductive Node (n : Nat)
  | head (w : Kin) (t : Fin n)
  | childrenList (t : Fin n)
  | listPoison1
  | listPoison2
  deriving DecidableEq

/-- A task structure is free memory, in use, or kept as a zombie. -/
inductive Life
  | free | running | zombie
  deriving DecidableEq, Repr

structure Member (n : Nat) where
  life : Life
  parent : Option (Fin n)
  exitCode : Int
  deriving DecidableEq

structure Family (n : Nat) where
  task : Fin n → Member n
  links : Links (Node n)

variable {n : Nat}

def listDel (L : Links (Node n)) (e : Node n) : Links (Node n) :=
  L.del e .listPoison1 .listPoison2

namespace Family

def setTask (s : Family n) (t : Fin n) (v : Member n) : Family n :=
  { s with task := update s.task t v }

/-- The memory comes from `kmalloc`; `parent` is set to `NULL`. -/
def taskCreateTsk (s : Family n) (t : Fin n) : Family n :=
  { task := update s.task t ⟨.running, none, 0⟩
    links := ((s.links.init (.head .children t)).init (.childrenList t)).init
      (.head .childrenExit t) }

/-- A successful `do_fork`; a failed one leaves the tree as it was. -/
def doFork (s : Family n) (cur t : Fin n) : Family n :=
  let s := s.taskCreateTsk t
  let s := s.setTask t { s.task t with parent := some cur }
  { s with links := s.links.add (.childrenList t) (.head .children cur) }

/-- `none` is the `NULL` dereference of a task without a parent. -/
def taskDoExit (s : Family n) (t : Fin n) (flags : Int) : Option (Family n) :=
  (s.task t).parent.map fun p =>
    let s := s.setTask t { s.task t with exitCode := flags, life := .zombie }
    let links := listDel s.links (.childrenList t)
    { s with links := links.add (.childrenList t) (.head .childrenExit p) }

/-- How a loop over the lists ends: a `BUG()`, an access through a pointer that is no
task, or its end. -/
inductive Outcome (n : Nat)
  | bug
  | fault
  | done (s : Family n)

/-- The inner loop: `list_for_each_entry(child, &tsk->children, children_list)`. -/
def adopt (cur tsk : Fin n) : Nat → Family n → Node n → Option (Outcome n)
  | 0, _, _ => none
  | fuel + 1, s, pos =>
    if pos = .head .children tsk then some (.done s)
    else match pos with
      | .childrenList child =>
        let s := s.setTask child { s.task child with parent := some cur }
        let s := { s with links := s.links.add pos (.head .children cur) }
        adopt cur tsk fuel s (s.links.next pos)
      -- a head met as an entry: the store to its `parent` falls on other fields
      | .head _ _ =>
        let s := { s with links := s.links.add pos (.head .children cur) }
        adopt cur tsk fuel s (s.links.next pos)
      | .listPoison1 | .listPoison2 => some .fault

/-- `list_del(&tsk->children_list)` and the release of the task. -/
def release (s : Family n) (tsk : Fin n) : Family n :=
  { s.setTask tsk { s.task tsk with life := .free } with
    links := listDel s.links (.childrenList tsk) }

def reap (fuel : Nat) (s : Family n) (cur tsk : Fin n) : Option (Outcome n) :=
  if (s.task tsk).exitCode ≠ 0 then some .bug
  else (adopt cur tsk fuel s (s.links.next (.head .children tsk))).map fun
    | .done s => .done (s.release tsk)
    | o => o

/-- The outer loop: `list_for_each_entry_safe` over `current->children_exit`, with the
entry `pos` and the entry after it, `n`. -/
def reapLoop (cur : Fin n) : Nat → Family n → Node n → Node n → Option (Outcome n)
  | 0, _, _, _ => none
  | fuel + 1, s, pos, nxt =>
    match pos with
    | .childrenList tsk => (reap (fuel + 1) s cur tsk).bind fun
      | .done s => reapLoop cur fuel s nxt (s.links.next nxt)
      | o => some o
    | pos => if pos = .head .childrenExit cur then some (.done s) else some .fault

def doDefaultSignalHandle (fuel : Nat) (s : Family n) (cur : Fin n) : Option (Outcome n) :=
  let first := s.links.next (.head .childrenExit cur)
  reapLoop cur fuel s first (s.links.next first)

end Family

/-! ## The tree -/

/-- The heads and entries of the two lists of every task. -/
def layout (n : Nat) : Layout (Node n) (Kin × Fin n) (Fin n) where
  head h := .head h.1 h.2
  entry t := .childrenList t
  head_injective := by
    rintro ⟨w, t⟩ ⟨w', t'⟩ heq
    cases heq
    rfl
  entry_injective := by
    intro t t' heq
    cases heq
    rfl
  head_ne_entry := by
    intro h e heq
    cases heq

namespace Family

/-- The list a task belongs on: that of the task its `parent` names. -/
def place (s : Family n) (t : Fin n) : Option (Kin × Fin n) :=
  match (s.task t).life with
  | .free => none
  | .running => (s.task t).parent.map (.children, ·)
  | .zombie => (s.task t).parent.map (.childrenExit, ·)

def Allocated (s : Family n) (t : Fin n) : Prop := (s.task t).life ≠ .free

/-- The lists of the allocated tasks hold the tasks that belong there. -/
def Tree (s : Family n) (mem : Kin × Fin n → List (Fin n)) : Prop :=
  Lists (layout n) s.links (fun h => s.Allocated h.2) s.place mem

/-- A consistent process tree: each list of an allocated task is a ring of exactly the
tasks that belong on it, each of them once, and no task has a freed parent. -/
def Consistent (s : Family n) : Prop :=
  (∃ mem, s.Tree mem) ∧
    ∀ t p, s.Allocated t → (s.task t).parent = some p → s.Allocated p

variable {s s' : Family n} {mem : Kin × Fin n → List (Fin n)} {cur t p : Fin n}

theorem place_eq_some {w : Kin} : s.place t = some (w, p) ↔ (s.task t).parent = some p ∧
    (s.task t).life = match w with | .children => .running | .childrenExit => .zombie := by
  unfold place
  cases hlife : (s.task t).life <;> cases w <;> simp

variable {h : Kin × Fin n}

theorem allocated_of_place (hp : s.place t = some h) : s.Allocated t := by
  intro hfree
  simp [place, hfree] at hp

theorem parent_of_place (hp : s.place t = some h) :
    (s.task t).parent = some h.2 := (place_eq_some.mp hp).1

@[simp] theorem setTask_task (v : Member n) (u : Fin n) :
    (s.setTask t v).task u = if u = t then v else s.task u := by
  simp [setTask, update_apply]

@[simp] theorem setTask_links (v : Member n) : (s.setTask t v).links = s.links := rfl

theorem place_update (v : Member n) : (s.setTask t v).place =
    update s.place t ((s.setTask t v).place t) := by
  funext u
  by_cases hu : u = t
  · rw [hu, update_self]
  · rw [update_of_ne hu]
    simp [place, hu]

/-! ## Forking and exiting -/

theorem Tree.taskCreateTsk (h : s.Tree mem) (ht : (s.task t).life = .free)
    (hfresh : ∀ e w, s.place e ≠ some (w, t)) : ∃ mem', (s.taskCreateTsk t).Tree mem' := by
  have hplace : s.place t = none := by simp [place, ht]
  have h1 := Lists.initHead h (.children, t) fun e => hfresh e _
  have h2 := h1.initEntry hplace
  have h3 := h2.initHead (.childrenExit, t) fun e => hfresh e _
  refine ⟨_, (h3.restrict ?_).replace ?_⟩
  · rintro ⟨w, u⟩ hu
    by_cases hut : u = t
    · subst hut
      cases w <;> simp
    · refine .inr (.inr ?_)
      simpa [Allocated, Family.taskCreateTsk, hut] using hu
  · intro k e _
    by_cases het : e = t
    · subst het
      simp [place, Family.taskCreateTsk, ht]
    · simp [place, Family.taskCreateTsk, het]

theorem Consistent.place_ne_free (h : s.Consistent) (ht : (s.task t).life = .free) (e : Fin n)
    (w : Kin) : s.place e ≠ some (w, t) := by
  intro he
  exact h.2 e t (allocated_of_place he) (parent_of_place he) ht

theorem Consistent.taskCreateTsk (h : s.Consistent) (ht : (s.task t).life = .free) :
    (s.taskCreateTsk t).Consistent := by
  obtain ⟨mem, hmem⟩ := h.1
  refine ⟨hmem.taskCreateTsk ht (h.place_ne_free ht), ?_⟩
  intro u p hu hp
  by_cases hut : u = t
  · simp [Family.taskCreateTsk, hut] at hp
  · simp only [Allocated, Family.taskCreateTsk, update_of_ne hut] at hu hp
    by_cases hpt : p = t
    · simp [Allocated, Family.taskCreateTsk, hpt]
    · simpa [Allocated, Family.taskCreateTsk, hpt] using h.2 u p hu hp

theorem Tree.link {L : Links (Node n)} {w : Kin} {v : Member n}
    (h : Lists (layout n) L (fun h => s.Allocated h.2) (update s.place t none) mem)
    (hp : s.Allocated p) (hv : (s.setTask t v).place t = some (w, p))
    (hsame : v.life ≠ .free → s.Allocated t) : ∃ mem', Family.Tree
      { s.setTask t v with links := L.add (.childrenList t) (.head w p) } mem' := by
  have h1 := h.add (k := (w, p)) (e := t) hp (by simp)
  rw [update_idem, ← hv, ← place_update v] at h1
  refine ⟨_, h1.restrict ?_⟩
  rintro ⟨w', u⟩ hu
  by_cases hut : u = t
  · subst hut
    exact hsame (by simpa [Allocated] using hu)
  · simpa [Allocated, hut] using hu

theorem Consistent.doFork (h : s.Consistent) (hcur : (s.task cur).life = .running)
    (ht : (s.task t).life = .free) : (s.doFork cur t).Consistent := by
  have hne : cur ≠ t := by
    rintro rfl
    simp [hcur] at ht
  obtain ⟨⟨mem, hmem⟩, hparent⟩ := h.taskCreateTsk ht
  have hcur' : (s.taskCreateTsk t).Allocated cur := by
    simp [Allocated, Family.taskCreateTsk, hne, hcur]
  have hplace : (s.taskCreateTsk t).place t = none := by
    simp [place, Family.taskCreateTsk]
  have hlists : Lists (layout n) (s.taskCreateTsk t).links
      (fun h => (s.taskCreateTsk t).Allocated h.2)
      (update (s.taskCreateTsk t).place t none) mem := by
    rw [← hplace, update_eq_self]
    exact hmem
  refine ⟨Tree.link hlists hcur' ?_ ?_, ?_⟩
  · simp [place, Family.taskCreateTsk]
  · simp [Allocated, Family.taskCreateTsk]
  · intro u p hu hp
    by_cases hut : u = t
    · subst hut
      have hpc : p = cur := by simpa [Family.doFork, eq_comm] using hp
      subst hpc
      simp [Allocated, Family.doFork, Family.taskCreateTsk, hne, hcur]
    · have := hparent u p (by simpa [Allocated, Family.doFork, hut] using hu)
        (by simpa [Family.doFork, hut] using hp)
      by_cases hpt : p = t
      · simp [Allocated, Family.doFork, Family.taskCreateTsk, hpt]
      · simpa [Allocated, Family.doFork, hpt] using this

theorem Consistent.taskDoExit {flags : Int} (h : s.Consistent) (ht : (s.task t).life = .running)
    (hs : s.taskDoExit t flags = some s') : s'.Consistent := by
  obtain ⟨p, hp, rfl⟩ := Option.map_eq_some_iff.mp hs
  obtain ⟨⟨mem, hmem⟩, hparent⟩ := h
  have hpa : s.Allocated p := hparent t p (by simp [Allocated, ht]) hp
  have hplace : s.place t = some (.children, p) := by simp [place, ht, hp]
  refine ⟨Tree.link (Lists.del hmem (p := .listPoison1) (q := .listPoison2) hpa hplace)
    hpa ?_ ?_, ?_⟩
  · simp [place, hp]
  · simp [Allocated, ht]
  · have hkeep : ∀ u, (s.setTask t
        { s.task t with exitCode := flags, life := .zombie }).Allocated u ↔ s.Allocated u := by
      intro u
      by_cases hut : u = t
      · simp [Allocated, hut, ht]
      · simp [Allocated, hut]
    intro u q hu hq
    refine (hkeep q).mpr (hparent u q ((hkeep u).mp hu) ?_)
    by_cases hut : u = t
    · subst hut
      simpa using hq
    · simpa [hut] using hq

end Family

end MinixRt.Signal
