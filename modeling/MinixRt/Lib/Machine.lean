import Mathlib.Logic.Function.Basic

/-!
# Machines and their guarded runs

A machine has initial states and a partial step function that reads one action at a
time. An interleaving of several parties is a list of actions, so a statement about
every interleaving is a statement about `Machine.Reach`.

`Reach ok` keeps only the runs all of whose steps meet a guard `ok` on the state before
the step; the guard `free` keeps every run. `Reach.invariant` is the induction rule: a
property of the initial states that every guarded step preserves holds in every state
reached. `exists_run` turns a run that is executed into a reached state.
-/

namespace MinixRt.Lib

/-- Initial states and a partial step function. An action that is not enabled gives
`none`. -/
structure Machine (σ α : Type) where
  init : σ → Prop
  step : σ → α → Option σ

namespace Machine

variable {σ α : Type} {M : Machine σ α} {ok : σ → α → Prop}

/-- The guard that every step meets. -/
def free (_ : σ) (_ : α) : Prop := True

/-- The states reached by the runs all of whose steps meet `ok`. -/
inductive Reach (M : Machine σ α) (ok : σ → α → Prop) : σ → Prop
  | init {s : σ} : M.init s → Reach M ok s
  | step {s s' : σ} {a : α} : Reach M ok s → ok s a → M.step s a = some s' → Reach M ok s'

theorem Reach.invariant {I : σ → Prop} (hinit : ∀ s, M.init s → I s)
    (hstep : ∀ s a s', I s → ok s a → M.step s a = some s' → I s') {s : σ} (h : M.Reach ok s) :
    I s := by
  induction h with
  | init h => exact hinit _ h
  | step _ hok hs ih => exact hstep _ _ _ ih hok hs

theorem Reach.mono {ok' : σ → α → Prop} (hle : ∀ s a, ok s a → ok' s a) {s : σ} (h : M.Reach ok s) :
    M.Reach ok' s := by
  induction h with
  | init h => exact .init h
  | step _ hok hs ih => exact ih.step (hle _ _ hok) hs

/-- The runs that go on from a state. -/
def startedAt (M : Machine σ α) (s : σ) : Machine σ α := { M with init := (· = s) }

/-- The state after a list of actions, or `none` when one of them is not enabled. -/
def run (M : Machine σ α) : σ → List α → Option σ
  | s, [] => some s
  | s, a :: as => (M.step s a).bind fun s' => M.run s' as

instance (s : σ) (a : α) : Decidable (free s a) := .isTrue trivial

section Run

variable {G : σ → α → Prop} [∀ s a, Decidable (G s a)] {P : σ → Prop} [DecidablePred P] {s t : σ} {as : List α}

/-- The run meets the guard `G` and ends in a state with `P`. -/
def ends (M : Machine σ α) (G : σ → α → Prop) [∀ s a, Decidable (G s a)] (P : σ → Prop)
    [DecidablePred P] : σ → List α → Bool
  | s, [] => P s
  | s, a :: as => G s a && (M.step s a).any fun s' => M.ends G P s' as

theorem exists_run_of (hs : M.Reach ok s) (hok : ∀ s a, G s a → ok s a) (as : List α)
    (h : M.ends G P s as = true) : ∃ t, M.run s as = some t ∧ M.Reach ok t ∧ P t := by
  induction as generalizing s with
  | nil => exact ⟨s, rfl, hs, of_decide_eq_true h⟩
  | cons a as ih =>
    obtain ⟨hG, hrest⟩ := Bool.and_eq_true_iff.mp h
    cases hstep : M.step s a with
    | none =>
      rw [hstep] at hrest
      cases hrest
    | some =>
      rw [hstep] at hrest
      obtain ⟨t, hrun, ht⟩ := ih (hs.step (hok _ _ (of_decide_eq_true hG)) hstep) hrest
      exact ⟨t, by rw [run, hstep, Option.bind_some, hrun], ht⟩

theorem exists_run (hs : M.Reach G s) (as : List α) (h : M.ends G P s as = true) :
    ∃ t, M.run s as = some t ∧ M.Reach G t ∧ P t :=
  exists_run_of hs (fun _ _ hG => hG) as h

theorem reach_of_run (hs : M.Reach G s) (h : M.ends G (fun _ => True) s as = true)
    (hrun : M.run s as = some t) : M.Reach G t := by
  obtain ⟨t', hrun', ht, -⟩ := exists_run hs as h
  cases hrun.symm.trans hrun'
  exact ht

theorem exists_reach (hs : M.Reach G s) (as : List α) (h : M.ends G P s as = true) :
    ∃ t, M.Reach G t ∧ P t := by
  obtain ⟨t, -, ht⟩ := exists_run hs as h
  exact ⟨t, ht⟩

end Run

end Machine

end MinixRt.Lib
