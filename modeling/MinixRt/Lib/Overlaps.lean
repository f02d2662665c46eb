import Mathlib.Data.List.Basic
import Mathlib.Data.List.Pairwise
import Mathlib.Order.Lattice

/-!
# Overlaps of two lists of spans

A span `(lo, hi)` stands for the numbers from `lo` to `hi`. For two lists of spans in increasing
order, `overlaps` lists the common parts of their members. Since both are in order it can be
computed by advancing in the two lists, from the front (`overlaps_skip_left`,
`overlaps_skip_right`, `overlaps_left`, `overlaps_right`) or from the back.

`MaximalSpan` says that a span is a longest one inside a set. A list of separated spans that
covers the set consists of those and of empty spans (`Separated.mem_iff`).
-/

namespace MinixRt.Lib

/-- Two spans meet when each starts before the other ends. -/
def Meets (m g : Nat × Nat) : Prop := g.1 < m.2 ∧ m.1 < g.2

instance (m g : Nat × Nat) : Decidable (Meets m g) := by
  unfold Meets
  infer_instance

def meet (m g : Nat × Nat) : Nat × Nat := (max m.1 g.1, min m.2 g.2)

/-- The common parts of one span with the spans of a list. -/
def meetAll (m : Nat × Nat) (gs : List (Nat × Nat)) : List (Nat × Nat) :=
  (gs.filter fun g => Meets m g).map (meet m)

def overlaps (ms gs : List (Nat × Nat)) : List (Nat × Nat) := ms.flatMap fun m => meetAll m gs

section Advance

variable {m g : Nat × Nat} {ms gs : List (Nat × Nat)}

theorem mem_overlaps {p : Nat × Nat} :
    p ∈ overlaps ms gs ↔ ∃ m ∈ ms, ∃ g ∈ gs, Meets m g ∧ p = meet m g := by
  simp only [overlaps, meetAll, List.mem_flatMap, List.mem_map, List.mem_filter,
    decide_eq_true_eq]
  constructor
  · rintro ⟨m, hm, g, ⟨hg, hmeet⟩, rfl⟩
    exact ⟨m, hm, g, hg, hmeet, rfl⟩
  · rintro ⟨m, hm, g, hg, hmeet, rfl⟩
    exact ⟨m, hm, g, ⟨hg, hmeet⟩, rfl⟩

theorem meetAll_eq_nil (h : ∀ g ∈ gs, ¬ Meets m g) : meetAll m gs = [] := by
  simpa [meetAll] using h

theorem meetAll_cons_of_meets (h : Meets m g) : meetAll m (g :: gs) = meet m g :: meetAll m gs := by
  simp [meetAll, h]

theorem meetAll_cons_of_not (h : ¬ Meets m g) : meetAll m (g :: gs) = meetAll m gs := by
  simp [meetAll, h]

theorem overlaps_cons : overlaps (m :: ms) gs = meetAll m gs ++ overlaps ms gs := rfl

theorem overlaps_append (ms' : List (Nat × Nat)) :
    overlaps (ms ++ ms') gs = overlaps ms gs ++ overlaps ms' gs := by
  simp [overlaps]

theorem overlaps_skip_left (h : ∀ g ∈ gs, ¬ Meets m g) : overlaps (m :: ms) gs = overlaps ms gs := by
  rw [overlaps_cons, meetAll_eq_nil h, List.nil_append]

theorem overlaps_skip_right (h : ∀ m ∈ ms, ¬ Meets m g) :
    overlaps ms (g :: gs) = overlaps ms gs := by
  induction ms with
  | nil => rfl
  | cons m ms ih =>
    rw [overlaps_cons, overlaps_cons, meetAll_cons_of_not (h m (.head _)),
      ih fun m hm => h m (.tail _ hm)]

/-- The first spans meet, and the one of the first list meets nothing else. -/
theorem overlaps_left (h : Meets m g) (hgs : ∀ g ∈ gs, ¬ Meets m g) :
    overlaps (m :: ms) (g :: gs) = meet m g :: overlaps ms (g :: gs) := by
  rw [overlaps_cons, meetAll_cons_of_meets h, meetAll_eq_nil hgs]
  rfl

/-- The first spans meet, and the one of the second list meets nothing else. -/
theorem overlaps_right (h : Meets m g) (hms : ∀ m ∈ ms, ¬ Meets m g) :
    overlaps (m :: ms) (g :: gs) = meet m g :: overlaps (m :: ms) gs := by
  rw [overlaps_cons, meetAll_cons_of_meets h, overlaps_skip_right hms, overlaps_cons]
  rfl

theorem length_overlaps_le (hms : ms.Pairwise fun m m' => m.2 ≤ m'.1)
    (hgs : gs.Pairwise fun g g' => g.2 ≤ g'.1) (hle : ∀ m ∈ ms, m.1 ≤ m.2)
    (hle' : ∀ g ∈ gs, g.1 ≤ g.2) : (overlaps ms gs).length ≤ ms.length + gs.length := by
  induction ms generalizing gs with
  | nil => exact Nat.zero_le _
  | cons m ms ih =>
    obtain ⟨hm, hms'⟩ := List.pairwise_cons.mp hms
    have hle1 := fun m' hm' => hle m' (.tail _ hm')
    induction gs with
    | nil =>
      rw [overlaps_skip_left (by simp)]
      have := ih hms' hgs hle1 hle'
      simp only [List.length_cons] at this ⊢
      omega
    | cons g gs ihg =>
      obtain ⟨hg, hgs'⟩ := List.pairwise_cons.mp hgs
      have hmle := hle m (.head _)
      have hgle := hle' g (.head _)
      have hnext := ihg hgs' fun g' hg' => hle' g' (.tail _ hg')
      have hskip := ih hms' hgs hle1 hle'
      simp only [List.length_cons] at hnext hskip ⊢
      by_cases hmeet : Meets m g
      · by_cases hend : m.2 ≤ g.2
        · rw [overlaps_left hmeet fun g' hg' hmeet' => ?_, List.length_cons]
          · omega
          · have := hg g' hg'
            have := hmeet'.1
            omega
        · rw [overlaps_right hmeet fun m' hm' hmeet' => ?_, List.length_cons]
          · omega
          · have := hm m' hm'
            have := hmeet'.2
            omega
      · rw [overlaps_cons, meetAll_cons_of_not hmeet]
        by_cases hend : m.2 ≤ g.1
        · rw [meetAll_eq_nil fun g' hg' hmeet' => ?_, List.nil_append]
          · omega
          · have := hg g' hg'
            have := hmeet'.1
            omega
        · rw [overlaps_skip_right fun m' hm' hmeet' => ?_, ← overlaps_cons]
          · omega
          · have := hm m' hm'
            have := hmeet'.2
            unfold Meets at hmeet
            omega

theorem overlaps_reverse : overlaps ms.reverse gs.reverse = (overlaps ms gs).reverse := by
  induction ms with
  | nil => rfl
  | cons m ms ih =>
    have hrow : meetAll m gs.reverse = (meetAll m gs).reverse := by simp [meetAll]
    rw [List.reverse_cons, overlaps_append, ih, overlaps_cons, overlaps_cons, hrow,
      List.reverse_append]
    simp [overlaps]

end Advance

/-! ## Separated spans -/

/-- The spans are in order, with something between one and the next. -/
structure Separated (l : List (Nat × Nat)) : Prop where
  le : ∀ p ∈ l, p.1 ≤ p.2
  pairwise : l.Pairwise fun p q => p.2 < q.1

/-- A span inside `S` that is not empty and cannot be made longer. -/
structure MaximalSpan (S : Nat → Prop) (p : Nat × Nat) : Prop where
  lt : p.1 < p.2
  inside : ∀ x, p.1 ≤ x → x < p.2 → S x
  before : p.1 = 0 ∨ ¬ S (p.1 - 1)
  after : ¬ S p.2

theorem Separated.lt_or_lt {l : List (Nat × Nat)} (h : Separated l) {p q : Nat × Nat} (hp : p ∈ l)
    (hq : q ∈ l) (hne : p ≠ q) : p.2 < q.1 ∨ q.2 < p.1 := by
  have hsym : l.Pairwise fun p q => p.2 < q.1 ∨ q.2 < p.1 := h.pairwise.imp .inl
  have : Std.Symm fun p q : Nat × Nat => p.2 < q.1 ∨ q.2 < p.1 := ⟨fun _ _ => Or.symm⟩
  exact hsym.forall hp hq hne

section Maximal

variable {l : List (Nat × Nat)} {S : Nat → Prop} {p : Nat × Nat}

section Separated

variable (h : Separated l) (hS : ∀ x, S x ↔ ∃ p ∈ l, p.1 ≤ x ∧ x < p.2)
  (hp : p ∈ l)
include h hS hp

theorem Separated.not_mem_next {x : Nat} (hx : x + 1 = p.1 ∨ x = p.2) : ¬ S x := by
  intro hSx
  obtain ⟨q, hq, hle, hlt⟩ := (hS x).mp hSx
  have hle' := h.le p hp
  by_cases hpq : p = q
  · subst hpq
    omega
  · rcases h.lt_or_lt hp hq hpq with hlt' | hlt' <;> omega

theorem Separated.maximalSpan (hlt : p.1 < p.2) : MaximalSpan S p where
  lt := hlt
  inside x hle hx := (hS x).mpr ⟨p, hp, hle, hx⟩
  before := by
    by_cases hzero : p.1 = 0
    · exact .inl hzero
    · exact .inr (h.not_mem_next hS hp (.inl (by omega)))
  after := h.not_mem_next hS hp (.inr rfl)

end Separated

theorem MaximalSpan.eq {q : Nat × Nat} (hp : MaximalSpan S p) (hq : MaximalSpan S q) {x : Nat}
    (hpx : p.1 ≤ x ∧ x < p.2) (hqx : q.1 ≤ x ∧ x < q.2) : p = q := by
  have hstart : ∀ {p q : Nat × Nat}, MaximalSpan S p → MaximalSpan S q → p.1 ≤ x ∧ x < p.2 →
      q.1 ≤ x ∧ x < q.2 → ¬ p.1 < q.1 := by
    intro p q hp hq hpx hqx hlt
    rcases hq.before with hzero | hnot
    · omega
    · exact hnot (hp.inside _ (by omega) (by omega))
  have hend : ∀ {p q : Nat × Nat}, MaximalSpan S p → MaximalSpan S q → p.1 ≤ x ∧ x < p.2 →
      q.1 ≤ x ∧ x < q.2 → ¬ p.2 < q.2 := by
    intro p q hp hq hpx hqx hlt
    exact hp.after (hq.inside _ (by omega) hlt)
  have h1 := hstart hp hq hpx hqx
  have h2 := hstart hq hp hqx hpx
  have h3 := hend hp hq hpx hqx
  have h4 := hend hq hp hqx hpx
  exact Prod.ext (by omega) (by omega)

/-- A separated list that covers a set has exactly its maximal spans, next to empty ones. -/
theorem Separated.mem_iff (h : Separated l) (hS : ∀ x, S x ↔ ∃ p ∈ l, p.1 ≤ x ∧ x < p.2)
    (hp : p.1 < p.2) : p ∈ l ↔ MaximalSpan S p := by
  constructor
  · intro hmem
    exact h.maximalSpan hS hmem hp
  · intro hmax
    obtain ⟨q, hq, hle, hlt⟩ := (hS p.1).mp (hmax.inside p.1 le_rfl hp)
    rwa [hmax.eq (h.maximalSpan hS hq (by omega)) ⟨le_rfl, hp⟩ ⟨hle, hlt⟩]

end Maximal

variable {ms gs : List (Nat × Nat)}

/-- Overlaps are in order if the spans are, in each sense of one number being before another. -/
theorem pairwise_overlaps {R : Nat → Nat → Prop} (hR : ∀ {a b c d}, a ≤ b → R b c → c ≤ d → R a d)
    (hms : ms.Pairwise fun m m' => R m.2 m'.1) (hgs : gs.Pairwise fun g g' => R g.2 g'.1) :
    (overlaps ms gs).Pairwise fun p q => R p.2 q.1 := by
  refine List.pairwise_flatMap.mpr ⟨fun m hm => ?_, hms.imp fun {m m'} hmm p hp q hq => ?_⟩
  · refine List.pairwise_map.mpr ((hgs.filter _).imp fun {g g'} hlt => ?_)
    exact hR (Nat.min_le_right _ _) hlt (Nat.le_max_right _ _)
  · obtain ⟨g, -, rfl⟩ := List.mem_map.mp hp
    obtain ⟨g', -, rfl⟩ := List.mem_map.mp hq
    exact hR (Nat.min_le_left _ _) hmm (Nat.le_max_left _ _)

theorem separated_overlaps (hms : ms.Pairwise fun m m' => m.2 < m'.1)
    (hgs : gs.Pairwise fun g g' => g.2 < g'.1) (hle : ∀ g ∈ gs, g.1 ≤ g.2)
    (hle' : ∀ m ∈ ms, m.1 ≤ m.2) : Separated (overlaps ms gs) where
  le p hp := by
    obtain ⟨m, hm, g, hg, hmeet, rfl⟩ := mem_overlaps.mp hp
    have := hle g hg
    have := hle' m hm
    unfold Meets at hmeet
    unfold meet
    dsimp only
    omega
  pairwise := pairwise_overlaps
    (fun hmin hlt hmax => hmin.trans_lt (Nat.lt_of_lt_of_le hlt hmax)) hms hgs

end MinixRt.Lib
