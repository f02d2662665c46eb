import Mathlib.Data.List.Pairwise
import Mathlib.Data.List.Sort

/-!
# Search trees with distinct keys

A search tree is used through its in-order listing: a list of entries with strictly
increasing keys. `find` and `insert` compare keys the way a descent in the tree does, and
`insert` fails on a key that is present.
-/

namespace MinixRt.Lib.SearchTree

variable {κ τ : Type} [LinearOrder κ]

/-- The entry of a key. -/
def find : List (κ × τ) → κ → Option τ
  | [], _ => none
  | (k', v) :: l, k => if k < k' then none else if k' < k then find l k else some v

/-- Insertion of a new key. -/
def insert : List (κ × τ) → κ → τ → Option (List (κ × τ))
  | [], k, v => some [(k, v)]
  | (k', v') :: l, k, v =>
    if k < k' then some ((k, v) :: (k', v') :: l)
    else if k' < k then (insert l k v).map ((k', v') :: ·)
    else none

/-- Removal of a key. -/
def erase (l : List (κ × τ)) (k : κ) : List (κ × τ) := l.filter fun p => p.1 ≠ k

/-- The key behind `k`. -/
def next : List (κ × τ) → κ → Option κ
  | [], _ => none
  | (k', _) :: l, k => if k' = k then l.head?.map Prod.fst else next l k

def Sorted (l : List (κ × τ)) : Prop := l.Pairwise fun p q => p.1 < q.1

variable {l l' : List (κ × τ)} {k : κ} {v : τ}

theorem find_eq_some_iff (h : Sorted l) : find l k = some v ↔ (k, v) ∈ l := by
  induction l with
  | nil => simp [find]
  | cons p l ih =>
    obtain ⟨k', v'⟩ := p
    obtain ⟨hlt, hl⟩ := List.pairwise_cons.mp h
    simp only [find]
    split_ifs with h1 h2
    · simp only [List.mem_cons, Prod.mk.injEq, false_iff, not_or, not_and]
      refine ⟨fun hk => absurd hk h1.ne, fun hmem => ?_⟩
      exact lt_asymm h1 (hlt _ hmem)
    · simp [ih hl, h2.ne']
    · obtain rfl : k = k' := le_antisymm (not_lt.mp h2) (not_lt.mp h1)
      simp only [Option.some.injEq, List.mem_cons, Prod.mk.injEq, true_and]
      refine ⟨fun hv => .inl hv.symm, fun hv => ?_⟩
      rcases hv with hv | hmem
      · exact hv.symm
      · exact absurd (hlt _ hmem) (lt_irrefl _)

theorem mem_insert (h : insert l k v = some l') (p : κ × τ) : p ∈ l' ↔ p = (k, v) ∨ p ∈ l := by
  induction l generalizing l' with
  | nil =>
    cases h
    simp
  | cons q l ih =>
    obtain ⟨k', v'⟩ := q
    simp only [insert] at h
    split_ifs at h with h1 h2
    · cases h
      simp
    · obtain ⟨l1, hl1, rfl⟩ := Option.map_eq_some_iff.mp h
      rw [List.mem_cons, ih hl1, List.mem_cons]
      tauto

theorem sorted_insert (hs : Sorted l) (h : insert l k v = some l') : Sorted l' := by
  induction l generalizing l' with
  | nil =>
    cases h
    exact List.pairwise_singleton _ _
  | cons q l ih =>
    obtain ⟨k', v'⟩ := q
    obtain ⟨hlt, hl⟩ := List.pairwise_cons.mp hs
    simp only [insert] at h
    split_ifs at h with h1 h2
    · cases h
      refine List.pairwise_cons.mpr ⟨fun p hp => ?_, hs⟩
      rcases List.mem_cons.mp hp with rfl | hp
      · exact h1
      · exact h1.trans (hlt p hp)
    · obtain ⟨l1, hl1, rfl⟩ := Option.map_eq_some_iff.mp h
      refine List.pairwise_cons.mpr ⟨fun p hp => ?_, ih hl hl1⟩
      rcases (mem_insert hl1 p).mp hp with rfl | hp
      · exact h2
      · exact hlt p hp

theorem exists_insert (hk : ∀ p ∈ l, p.1 ≠ k) : ∃ l', insert l k v = some l' := by
  induction l with
  | nil => exact ⟨_, rfl⟩
  | cons q l ih =>
    obtain ⟨k', v'⟩ := q
    obtain ⟨l1, hl1⟩ := ih fun p hp => hk p (List.mem_cons_of_mem _ hp)
    simp only [insert]
    split_ifs with h1 h2
    · exact ⟨_, rfl⟩
    · exact ⟨_, by rw [hl1]; rfl⟩
    · exact absurd (le_antisymm (not_lt.mp h1) (not_lt.mp h2)) (hk _ List.mem_cons_self)

theorem mem_erase (p : κ × τ) : p ∈ erase l k ↔ p ∈ l ∧ p.1 ≠ k := by
  simp [erase]

theorem sorted_erase (hs : Sorted l) : Sorted (erase l k) :=
  List.Pairwise.sublist List.filter_sublist hs

theorem Sorted.eq_of_key (hs : Sorted l) {v' : τ} (h : (k, v) ∈ l) (h' : (k, v') ∈ l) : v = v' := by
  have := ((find_eq_some_iff hs).mpr h).symm.trans ((find_eq_some_iff hs).mpr h')
  exact Option.some.inj this

theorem next_append {pre post : List (κ × τ)} (hs : Sorted (pre ++ (k, v) :: post)) :
    next (pre ++ (k, v) :: post) k = post.head?.map Prod.fst := by
  induction pre with
  | nil => exact if_pos rfl
  | cons p pre ih =>
    obtain ⟨hlt, hs⟩ := List.pairwise_cons.mp hs
    rw [List.cons_append, next, if_neg (hlt (k, v) (by simp)).ne, ih hs]

theorem Sorted.le_getLast (hs : Sorted l) {p q : κ × τ} (hq : l.getLast? = some q) (hp : p ∈ l) :
    p.1 ≤ q.1 := by
  obtain ⟨l1, rfl⟩ := List.getLast?_eq_some_iff.mp hq
  rcases List.mem_append.mp hp with hp | hp
  · exact ((List.pairwise_append.mp hs).2.2 p hp q List.mem_cons_self).le
  · rw [List.mem_singleton.mp hp]

end MinixRt.Lib.SearchTree
