import Mathlib.Data.List.Basic

/-!
# Blocks that are allocated and freed

A program is seen as the list of its operations on heap blocks. `runHeap` fails at a second `free`
of a block and at a use of a block that is not allocated, so that a list which leads from the empty
heap back to it frees each of its blocks once and does not use it afterwards.
-/

namespace MinixRt.Lib

open Function

inductive HeapOp (β : Type*)
  | malloc (b : β)
  | free (b : β)
  | use (b : β)

variable {β : Type*} [DecidableEq β] {live live' : β → Bool} {ops ops' : List (HeapOp β)}

/-- The effect on the blocks that are allocated. -/
def HeapOp.step (live : β → Bool) : HeapOp β → Option (β → Bool)
  | .malloc b => if live b then none else some (update live b true)
  | .free b => if live b then some (update live b false) else none
  | .use b => if live b then some live else none

def runHeap (ops : List (HeapOp β)) (live : β → Bool) : Option (β → Bool) :=
  ops.foldlM HeapOp.step live

@[simp] theorem runHeap_nil (live : β → Bool) : runHeap [] live = some live := rfl

theorem runHeap_cons (op : HeapOp β) (ops : List (HeapOp β)) (live : β → Bool) :
    runHeap (op :: ops) live = (op.step live).bind (runHeap ops) := List.foldlM_cons

theorem runHeap_append (h : runHeap ops live = some live') :
    runHeap (ops ++ ops') live = runHeap ops' live' := by
  unfold runHeap at *
  rw [List.foldlM_append, h]
  rfl

variable {b : β}

theorem runHeap_malloc (h : live b = false) :
    runHeap (.malloc b :: ops) live = runHeap ops (update live b true) := by
  rw [runHeap_cons, HeapOp.step, h]
  rfl

theorem runHeap_free (h : live b = true) :
    runHeap (.free b :: ops) live = runHeap ops (update live b false) := by
  rw [runHeap_cons, HeapOp.step, h]
  rfl

theorem runHeap_use (h : live b = true) : runHeap (.use b :: ops) live = runHeap ops live := by
  rw [runHeap_cons, HeapOp.step, h]
  rfl

theorem runHeap_range {f : Nat → List (HeapOp β)} (inv : Nat → β → Bool) {n : Nat}
    (h : ∀ i < n, runHeap (f i) (inv i) = some (inv (i + 1))) :
    runHeap ((List.range n).flatMap f) (inv 0) = some (inv n) := by
  induction n with
  | zero => rfl
  | succ n ih =>
    have hbefore := ih fun i hi => h i (Nat.lt_succ_of_lt hi)
    rw [List.range_succ, List.flatMap_append, runHeap_append hbefore, List.flatMap_singleton]
    exact h n (Nat.lt_succ_self n)

end MinixRt.Lib
