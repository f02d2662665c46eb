import MinixRt.System.Exec

/-!
# Notifiers of one task

The `struct notifier_struct` of a task holds the bitmap of pending notifiers, an action
for every notifier, the blocked mask and what the last sender passed. This module has the
functions that only touch that structure: the bitmap operations, registering and removing a
handler, and the blocked mask of `rt_sigprocmask`.
-/

namespace MinixRt.Signal

open List Function

def sigchld : Nat := 17
def sigkill : Nat := 9
def sigstop : Nat := 19
def sigrtmax : Nat := 64

/-- `NOTIFIER_NR_MAX`, one more than `NOTIFIER_IRQ`. -/
def notifierNrMax : Nat := sigrtmax + 2

abbrev NotifierId := Fin notifierNrMax

instance : NeZero notifierNrMax := ⟨by decide⟩

inductive Errno
  | einval | efault
  deriving DecidableEq, Repr

/-- What `get_signal` does with a notifier, read off its `sa_handler`. -/
inductive Disposition
  | dfl | ign | handler
  deriving DecidableEq, Repr

/-- `NOTIFIER_DFL` is 0 and `NOTIFIER_IGN` is 1. -/
def disposition (saHandler : Nat) : Disposition :=
  if saHandler = 1 then .ign else if saHandler = 0 then .dfl else .handler

structure NotifierStruct where
  notifierTable : NotifierId → Bool
  action : NotifierId → Nat
  returnFn : Nat
  blocked : BitVec 64
  priv : NotifierId → BitVec 64
  pid : NotifierId → Int

variable {pos : Nat} {k : NotifierId} {x : NotifierStruct}

namespace NotifierStruct

def zero : NotifierStruct :=
  { notifierTable := fun _ => false, action := fun _ => 0, returnFn := 0, blocked := 0,
    priv := fun _ => 0, pid := fun _ => 0 }

/-! ## The table -/

/-- `notifier_table_next`: the first pending notifier from `pos` on. -/
def notifierTableNext (x : NotifierStruct) (pos : Nat) : Option NotifierId :=
  (finRange notifierNrMax).find? fun k => decide (pos ≤ k.val) && x.notifierTable k

/-- `notifier_table_weight`, as far as it is compared with zero. -/
def IsEmpty (x : NotifierStruct) : Prop := ∀ k, x.notifierTable k = false

instance (x : NotifierStruct) : Decidable x.IsEmpty :=
  inferInstanceAs (Decidable (∀ k, x.notifierTable k = false))

def setNotifier (x : NotifierStruct) (k : NotifierId) : NotifierStruct :=
  { x with notifierTable := update x.notifierTable k true }

def clearNotifier (x : NotifierStruct) (k : NotifierId) : NotifierStruct :=
  { x with notifierTable := update x.notifierTable k false }

theorem notifierTableNext_eq_some (h : x.notifierTableNext pos = some k) :
    pos ≤ k.val ∧ x.notifierTable k = true := by
  have := find?_some h
  simpa using this

theorem notifierTableNext_eq_none (h : x.notifierTableNext pos = none) (hk : pos ≤ k.val) :
    x.notifierTable k = false := by
  have := find?_eq_none.mp h k (mem_finRange k)
  simpa [hk] using this

theorem le_of_notifierTableNext {j : NotifierId} (h : x.notifierTableNext pos = some k)
    (hj : pos ≤ j.val) (hp : x.notifierTable j = true) : k.val ≤ j.val := by
  obtain ⟨-, as, bs, heq, hbefore⟩ := find?_eq_some_iff_append.mp h
  have hmem : j ∈ as ++ k :: bs := heq ▸ mem_finRange j
  rcases mem_append.mp hmem with has | hbs
  · have := hbefore j has
    simp [hj, hp] at this
  · rcases mem_cons.mp hbs with rfl | hbs
    · exact Nat.le_refl _
    · have hsorted := pairwise_lt_finRange notifierNrMax
      rw [heq, pairwise_append] at hsorted
      exact Nat.le_of_lt ((pairwise_cons.mp hsorted.2.1).1 j hbs)

/-! ## Handlers -/

/-- The `notifier_regiser_fn` case of `notifier`. The handler is stored before the return
function is compared with the one in use. -/
def notifierRegiserFn (x : NotifierStruct) (k : NotifierId) (fn returnFn : Nat) :
    Except Errno Unit × NotifierStruct :=
  if System.badAddr fn then (.error .efault, x)
  else
    let x := { x with action := update x.action k fn }
    if x.returnFn ≠ 0 ∧ x.returnFn ≠ returnFn then (.error .einval, x)
    else (.ok (), { x with returnFn := returnFn })

/-- The `notifier_remove_fn` case of `notifier`. -/
def notifierRemoveFn (x : NotifierStruct) (k : NotifierId) : NotifierStruct :=
  { x with action := update x.action k 0 }

/-! ## The blocked mask -/

def sigmask (sig : Nat) : BitVec 64 := 1#64 <<< (sig - 1)

/-- `sigismember` of the blocked mask; bit `k - 1` stands for notifier `k`. -/
def Blocked (x : NotifierStruct) (k : NotifierId) : Prop :=
  0 < k.val ∧ x.blocked.getLsbD (k.val - 1) = true

instance (x : NotifierStruct) (k : NotifierId) : Decidable (x.Blocked k) :=
  inferInstanceAs (Decidable (_ ∧ _))

def sigprocmask (x : NotifierStruct) (how : Int) (set : BitVec 64) :
    Except Errno NotifierStruct :=
  if how = 0 then .ok { x with blocked := x.blocked ||| set }
  else if how = 1 then .ok { x with blocked := x.blocked &&& ~~~set }
  else if how = 2 then .ok { x with blocked := set }
  else .error .einval

/-- A set read through a user pointer: no pointer, a fault, or the set. -/
inductive UserSet
  | null
  | bad
  | set (v : BitVec 64)

inductive UserDest
  | null
  | bad
  | good
  deriving DecidableEq

/-- `rt_sigprocmask`: the result, the structure afterwards, and the old set stored at
`oset`. The new mask stays in force when storing the old one fails. -/
def rtSigprocmask (x : NotifierStruct) (how : Int) (nset : UserSet) (oset : UserDest)
    (sigsetsize : Nat) : Except Errno (Option (BitVec 64)) × NotifierStruct :=
  if sigsetsize ≠ 8 then (.error .einval, x)
  else
    let store (x' : NotifierStruct) := match oset with
      | .null => (.ok none, x')
      | .bad => (.error .efault, x')
      | .good => (.ok (some x.blocked), x')
    match nset with
    | .null => store x
    | .bad => (.error .efault, x)
    | .set v =>
      match x.sigprocmask how (v &&& ~~~(sigmask sigkill ||| sigmask sigstop)) with
      | .error e => (.error e, x)
      | .ok x' => store x'

theorem rtSigprocmask_table (x : NotifierStruct) (how : Int) (nset : UserSet) (oset : UserDest)
    (sigsetsize : Nat) :
    (x.rtSigprocmask how nset oset sigsetsize).2.notifierTable = x.notifierTable := by
  unfold rtSigprocmask sigprocmask
  split
  · rfl
  · cases nset <;> cases oset <;> try rfl
    all_goals
      dsimp only
      split_ifs <;> rfl

theorem notifierRegiserFn_table (x : NotifierStruct) (k : NotifierId) (fn returnFn : Nat) :
    (x.notifierRegiserFn k fn returnFn).2.notifierTable = x.notifierTable := by
  unfold notifierRegiserFn
  split
  · rfl
  · dsimp only
    split <;> rfl

end NotifierStruct

end MinixRt.Signal
