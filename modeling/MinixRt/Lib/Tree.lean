import Mathlib.Data.List.Pairwise
import Mathlib.Data.Tree.Basic
import Mathlib.Tactic.Common

/-!
# Descents in a binary search tree

A descent looks at one node after the other and goes left or right as a `cut` says, so it
sees one path of the tree only. `Monotone` is the order under which that is enough: behind an
element that lies right of the cut there are no others than such, and before one that lies
left of it neither. Then `find` and `link` depend on the in-order listing alone, and a
tree can be rebalanced into any other with the same listing (`build`).
-/

namespace BinaryTree

variable {α : Type} {cut : α → Ordering} {a x : α} {t t' : BinaryTree α}

/-- The elements in order. -/
def toList : BinaryTree α → List α
  | nil => []
  | node a l r => l.toList ++ a :: r.toList

def find (cut : α → Ordering) : BinaryTree α → Option α
  | nil => none
  | node a l r =>
    match cut a with
    | .lt => l.find cut
    | .gt => r.find cut
    | .eq => some a

/-- The element `x` becomes a leaf at the end of the descent. -/
def link (cut : α → Ordering) (x : α) : BinaryTree α → Option (BinaryTree α)
  | nil => some (node x nil nil)
  | node a l r =>
    match cut a with
    | .lt => (l.link cut x).map fun l => node a l r
    | .gt => (r.link cut x).map fun r => node a l r
    | .eq => none

/-- The descent goes left at every node. -/
def goesLeft (cut : α → Ordering) : BinaryTree α → Bool
  | nil => true
  | node a l _ => if cut a = .lt then l.goesLeft cut else false

/-- The first elements of a list in a tree of the given shape, and the other elements. -/
def build : BinaryTree Unit → List α → Option (BinaryTree α × List α)
  | nil, as => some (nil, as)
  | node _ l r, as =>
    match build l as with
    | some (l, a :: as) => (build r as).map fun p => (node a l p.1, p.2)
    | _ => none

/-- The list in a tree of the given shape. -/
def rebuild (sh : BinaryTree Unit) (as : List α) : Option (BinaryTree α) :=
  match build sh as with
  | some (t, []) => some t
  | _ => none

/-- Along the list the cut goes right of the elements first and left of them then. -/
def Monotone (cut : α → Ordering) (as : List α) : Prop :=
  as.Pairwise fun a b => (cut a = .lt → cut b = .lt) ∧ (cut b = .gt → cut a = .gt)

theorem monotone_node {l r : BinaryTree α} (h : Monotone cut (node a l r).toList) :
    Monotone cut l.toList ∧ Monotone cut r.toList ∧ (cut a = .lt → ∀ b ∈ r.toList, cut b = .lt) ∧
      (cut a = .gt → ∀ b ∈ l.toList, cut b = .gt) := by
  simp only [Monotone, toList, List.pairwise_append, List.pairwise_cons] at h
  obtain ⟨hl, ⟨ha, hr⟩, hcross⟩ := h
  exact ⟨hl, hr, fun hlt b hb => (ha b hb).1 hlt,
    fun hgt b hb => (hcross b hb a (by simp)).2 hgt⟩

theorem find_eq_some (h : t.find cut = some a) : a ∈ t.toList ∧ cut a = .eq := by
  induction t with
  | nil => cases h
  | node b l r ihl ihr =>
    rw [find] at h
    split at h
    · exact ⟨by simp [toList, (ihl h).1], (ihl h).2⟩
    · exact ⟨by simp [toList, (ihr h).1], (ihr h).2⟩
    · rename_i hb
      cases h
      exact ⟨by simp [toList], hb⟩

theorem find_eq_none (hm : Monotone cut t.toList) (h : t.find cut = none) :
    ∀ a ∈ t.toList, cut a ≠ .eq := by
  induction t with
  | nil => nofun
  | node b l r ihl ihr =>
    obtain ⟨hl, hr, hlt, hgt⟩ := monotone_node hm
    rw [find] at h
    intro a ha
    rw [toList, List.mem_append, List.mem_cons] at ha
    split at h
    · rename_i hb
      rcases ha with ha | rfl | ha
      · exact ihl hl h a ha
      · rw [hb]
        nofun
      · rw [hlt hb a ha]
        nofun
    · rename_i hb
      rcases ha with ha | rfl | ha
      · rw [hgt hb a ha]
        nofun
      · rw [hb]
        nofun
      · exact ihr hr h a ha
    · cases h

theorem link_eq_none (h : t.link cut x = none) : ∃ a ∈ t.toList, cut a = .eq := by
  induction t with
  | nil => cases h
  | node b l r ihl ihr =>
    rw [link] at h
    split at h
    · obtain ⟨a, ha, heq⟩ := ihl (Option.map_eq_none_iff.mp h)
      exact ⟨a, by simp [toList, ha], heq⟩
    · obtain ⟨a, ha, heq⟩ := ihr (Option.map_eq_none_iff.mp h)
      exact ⟨a, by simp [toList, ha], heq⟩
    · rename_i hb
      exact ⟨b, by simp [toList], hb⟩

theorem mem_of_link (h : t.link cut x = some t') (ha : a ∈ t.toList) : a ∈ t'.toList := by
  induction t generalizing t' with
  | nil => cases ha
  | node c l r ihl ihr =>
    rw [link] at h
    rw [toList, List.mem_append, List.mem_cons] at ha
    split at h
    · obtain ⟨l', hl', rfl⟩ := Option.map_eq_some_iff.mp h
      rw [toList, List.mem_append, List.mem_cons]
      exact ha.imp_left (ihl hl')
    · obtain ⟨r', hr', rfl⟩ := Option.map_eq_some_iff.mp h
      rw [toList, List.mem_append, List.mem_cons]
      exact ha.imp_right (Or.imp_right (ihr hr'))
    · cases h

theorem pairwise_link {R : α → α → Prop} {as bs : List α} (h : (as ++ bs).Pairwise R)
    (has : ∀ a ∈ as, R a x) (hbs : ∀ b ∈ bs, R x b) : (as ++ x :: bs).Pairwise R := by
  rw [List.pairwise_append] at h
  rw [List.pairwise_append, List.pairwise_cons]
  refine ⟨h.1, ⟨hbs, h.2.1⟩, fun a ha b hb => ?_⟩
  rcases List.mem_cons.mp hb with rfl | hb
  · exact has a ha
  · exact h.2.2 a ha b hb

/-- The new element stands behind all that are left of the cut and before all that are right
of it. -/
theorem link_eq_some (hm : Monotone cut t.toList) (h : t.link cut x = some t') :
    ∃ as bs, t.toList = as ++ bs ∧ t'.toList = as ++ x :: bs ∧ (∀ a ∈ as, cut a = .gt) ∧
      ∀ b ∈ bs, cut b = .lt := by
  induction t generalizing t' with
  | nil =>
    cases h
    exact ⟨[], [], rfl, rfl, nofun, nofun⟩
  | node c l r ihl ihr =>
    obtain ⟨hl, hr, hlt, hgt⟩ := monotone_node hm
    rw [link] at h
    split at h
    · rename_i hc
      obtain ⟨l', hl', rfl⟩ := Option.map_eq_some_iff.mp h
      obtain ⟨as, bs, heq, heq', has, hbs⟩ := ihl hl hl'
      refine ⟨as, bs ++ c :: r.toList, by simp [toList, heq], by simp [toList, heq'], has,
        fun b hb => ?_⟩
      rw [List.mem_append, List.mem_cons] at hb
      rcases hb with hb | rfl | hb
      · exact hbs b hb
      · exact hc
      · exact hlt hc b hb
    · rename_i hc
      obtain ⟨r', hr', rfl⟩ := Option.map_eq_some_iff.mp h
      obtain ⟨as, bs, heq, heq', has, hbs⟩ := ihr hr hr'
      refine ⟨l.toList ++ c :: as, bs, by simp [toList, heq], by simp [toList, heq'],
        fun a ha => ?_, hbs⟩
      rw [List.mem_append, List.mem_cons] at ha
      rcases ha with ha | rfl | ha
      · exact hgt hc a ha
      · exact hc
      · exact has a ha
    · cases h

theorem goesLeft_iff (hm : Monotone cut t.toList) :
    t.goesLeft cut = true ↔ ∀ a ∈ t.toList, cut a = .lt := by
  induction t with
  | nil => exact iff_of_true rfl nofun
  | node c l r ihl =>
    obtain ⟨hl, -, hlt, -⟩ := monotone_node hm
    rw [goesLeft]
    split_ifs with hc
    · rw [ihl hl]
      refine ⟨fun h a ha => ?_, fun h a ha => h a (by simp [toList, ha])⟩
      rw [toList, List.mem_append, List.mem_cons] at ha
      rcases ha with ha | rfl | ha
      · exact h a ha
      · exact hc
      · exact hlt hc a ha
    · exact iff_of_false id fun h => hc (h c (by simp [toList]))

variable {sh : BinaryTree Unit}

theorem build_eq_some {as bs : List α} (h : build sh as = some (t, bs)) : t.toList ++ bs = as := by
  induction sh generalizing t as bs with
  | nil =>
    cases h
    rfl
  | node _ l r ihl ihr =>
    rw [build] at h
    split at h
    · rename_i tl a rest hl
      obtain ⟨⟨tr, cs⟩, hr, heq⟩ := Option.map_eq_some_iff.mp h
      cases heq
      rw [← ihl hl, ← ihr hr]
      simp [toList]
    · cases h

theorem rebuild_toList {as : List α} (h : rebuild sh as = some t) : t.toList = as := by
  unfold rebuild at h
  split at h
  · rename_i hb
    cases h
    simpa using build_eq_some hb
  · cases h

end BinaryTree
