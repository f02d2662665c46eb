import Mathlib.Data.List.Basic
import Mathlib.Data.List.Pairwise
import Mathlib.Order.Lattice
import Mathlib.Algebra.GroupWithZero.Nat

/-!
# Lists of labelled extents

An extent is a range of numbers with a label. A list of extents in increasing order says which
numbers are covered and which label each of them has (`Marks`). Three operations change such a
list: `fill` covers the gaps of a range, `clip` keeps the part of the list in a range, and
`coalesceFrom` joins extents that touch and have the same label.
-/

namespace MinixRt.Lib

structure Extent (α : Type) where
  base : Nat
  size : Nat
  label : α
  deriving DecidableEq

variable {α : Type}

namespace Extent

def stop (r : Extent α) : Nat := r.base + r.size

def Covers (r : Extent α) (x : Nat) : Prop := r.base ≤ x ∧ x < r.stop

end Extent

/-- The number `x` is covered with the label `a`. -/
def Marks (l : List (Extent α)) (x : Nat) (a : α) : Prop := ∃ r ∈ l, r.Covers x ∧ r.label = a

def Covered (l : List (Extent α)) (x : Nat) : Prop := ∃ r ∈ l, r.Covers x

/-- The sum of the sizes. -/
def total (l : List (Extent α)) : Nat := (l.map Extent.size).sum

/-- No extent is empty, and each one ends before the next one starts. -/
structure Ordered (l : List (Extent α)) : Prop where
  pos : ∀ r ∈ l, 0 < r.size
  pairwise : l.Pairwise fun r s => r.stop ≤ s.base

/-- Extents that touch have different labels. -/
def Reduced (l : List (Extent α)) : Prop :=
  l.Pairwise fun r s => r.stop = s.base → r.label ≠ s.label

section Basic

variable {l l' : List (Extent α)} {r : Extent α} {x : Nat} {a : α}

@[simp] theorem marks_nil : ¬ Marks ([] : List (Extent α)) x a := by simp [Marks]

@[simp] theorem marks_cons : Marks (r :: l) x a ↔ (r.Covers x ∧ r.label = a) ∨ Marks l x a := by
  simp [Marks]

@[simp] theorem marks_append : Marks (l ++ l') x a ↔ Marks l x a ∨ Marks l' x a := by
  simp only [Marks, List.mem_append, or_and_right, exists_or]

@[simp] theorem covered_nil : ¬ Covered ([] : List (Extent α)) x := by simp [Covered]

@[simp] theorem covered_cons : Covered (r :: l) x ↔ r.Covers x ∨ Covered l x := by
  simp [Covered]

theorem covered_iff : Covered l x ↔ ∃ a, Marks l x a := by
  constructor
  · rintro ⟨r, hr, hx⟩
    exact ⟨r.label, r, hr, hx, rfl⟩
  · rintro ⟨a, r, hr, hx, -⟩
    exact ⟨r, hr, hx⟩

@[simp] theorem total_nil : total ([] : List (Extent α)) = 0 := rfl

@[simp] theorem total_cons : total (r :: l) = r.size + total l := by simp [total]

@[simp] theorem total_append : total (l ++ l') = total l + total l' := by simp [total]

theorem ordered_cons : Ordered (r :: l) ↔ 0 < r.size ∧ (∀ s ∈ l, r.stop ≤ s.base) ∧ Ordered l := by
  constructor
  · rintro ⟨hpos, hpair⟩
    obtain ⟨hr, hl⟩ := List.pairwise_cons.mp hpair
    exact ⟨hpos r (.head _), hr, fun s hs => hpos s (.tail _ hs), hl⟩
  · rintro ⟨hr, hbefore, hl⟩
    exact ⟨by simpa using ⟨hr, hl.pos⟩, List.pairwise_cons.mpr ⟨hbefore, hl.pairwise⟩⟩

theorem Ordered.le_base (h : Ordered (r :: l)) (hx : x ≤ r.base) : ∀ s ∈ r :: l, x ≤ s.base := by
  intro s hs
  rcases List.mem_cons.mp hs with rfl | hs
  · exact hx
  · exact hx.trans ((Nat.le_add_right _ _).trans ((ordered_cons.mp h).2.1 s hs))

theorem Ordered.append (h : Ordered l) (h' : Ordered l')
    (hbefore : ∀ r ∈ l, ∀ s ∈ l', r.stop ≤ s.base) : Ordered (l ++ l') where
  pos r hr := (List.mem_append.mp hr).elim (h.pos r) (h'.pos r)
  pairwise := List.pairwise_append.mpr ⟨h.pairwise, h'.pairwise, hbefore⟩

theorem Ordered.relabel (h : Ordered l)
    (hl : l'.map (fun r => (r.base, r.size)) = l.map fun r => (r.base, r.size)) : Ordered l' := by
  have hpos := h.pos
  have hpair := h.pairwise
  constructor
  · intro r hr
    have hmem : (r.base, r.size) ∈ l.map fun r => (r.base, r.size) :=
      hl ▸ List.mem_map_of_mem (f := fun r : Extent α => (r.base, r.size)) hr
    obtain ⟨s, hs, heq⟩ := List.mem_map.mp hmem
    exact (Prod.mk.inj heq).2 ▸ hpos s hs
  · have hshape : (l.map fun r => (r.base, r.size)).Pairwise fun p q => p.1 + p.2 ≤ q.1 :=
      List.pairwise_map.mpr hpair
    rw [← hl] at hshape
    exact List.pairwise_map.mp hshape

theorem total_relabel (hl : l'.map (fun r => (r.base, r.size)) = l.map fun r => (r.base, r.size)) :
    total l' = total l := by
  have hsize := congrArg (fun p => (p.map Prod.snd).sum) hl
  simp only [List.map_map, Function.comp_def] at hsize
  exact hsize

theorem Ordered.join {s : Extent α} (h : Ordered (r :: s :: l)) (htouch : r.stop = s.base) :
    Ordered ((⟨r.base, r.size + s.size, r.label⟩ : Extent α) :: l) := by
  obtain ⟨hpos, -, hl⟩ := ordered_cons.mp h
  obtain ⟨-, hs, hl⟩ := ordered_cons.mp hl
  refine ordered_cons.mpr ⟨Nat.add_pos_left hpos _, fun t ht => ?_, hl⟩
  have ht := hs t ht
  simp only [Extent.stop] at htouch ht ⊢
  omega

theorem stop_le_join {s : Extent α} {top : Nat} (h : ∀ u ∈ r :: s :: l, u.stop ≤ top)
    (htouch : r.stop = s.base) : ∀ u ∈ ⟨r.base, r.size + s.size, r.label⟩ :: l, u.stop ≤ top := by
  intro u hu
  rcases List.mem_cons.mp hu with rfl | hu
  · have hs := h s (.tail _ (.head _))
    simp only [Extent.stop] at hs htouch ⊢
    omega
  · exact h u (.tail _ (.tail _ hu))

/-- The sizes of extents below a bound add up to no more than the bound. -/
theorem Ordered.total_le {lo hi : Nat} (h : Ordered l) (hlo : ∀ r ∈ l, lo ≤ r.base)
    (hhi : ∀ r ∈ l, r.stop ≤ hi) (hle : lo ≤ hi) : lo + total l ≤ hi := by
  induction l generalizing lo with
  | nil => simpa using hle
  | cons r l ih =>
    obtain ⟨-, hbefore, hl⟩ := ordered_cons.mp h
    have hrest := ih hl hbefore (fun s hs => hhi s (.tail _ hs)) (hhi r (.head _))
    have hr := hlo r (.head _)
    have hstop : r.stop = r.base + r.size := rfl
    rw [total_cons]
    omega

theorem Ordered.marks_unique {b : α} (h : Ordered l) (ha : Marks l x a) (hb : Marks l x b) :
    a = b := by
  induction l with
  | nil => exact absurd ha marks_nil
  | cons r l ih =>
    obtain ⟨-, hbefore, hl⟩ := ordered_cons.mp h
    have hout : r.Covers x → ∀ c, ¬ Marks l x c := by
      rintro hx c ⟨s, hs, hsx, -⟩
      have := hbefore s hs
      have := hx.2
      have := hsx.1
      omega
    rcases marks_cons.mp ha with ⟨hx, rfl⟩ | ha'
    · rcases marks_cons.mp hb with ⟨-, rfl⟩ | hb'
      · rfl
      · exact absurd hb' (hout hx b)
    · rcases marks_cons.mp hb with ⟨hx, rfl⟩ | hb'
      · exact absurd ha' (hout hx a)
      · exact ih hl ha' hb'

end Basic

/-! ## Filling gaps -/

/-- What is left of a gap that starts at `base`, up to `stop`. -/
def rest (label : α) (base stop : Nat) : List (Extent α) :=
  if base < stop then [⟨base, stop - base, label⟩] else []

/-- New extents for the numbers from `base` to `stop` that no extent covers. -/
def fill (label : α) (stop : Nat) : (base : Nat) → List (Extent α) → List (Extent α)
  | base, [] => rest label base stop
  | base, r :: l =>
    if stop ≤ r.base then rest label base stop ++ r :: l
    else if r.stop ≤ base then r :: fill label stop base l
    else if base < r.base then ⟨base, r.base - base, label⟩ :: r ::
      fill label stop (min r.stop stop) l
    else r :: fill label stop (min r.stop stop) l

section Fill

variable {label : α} {stop : Nat} {l : List (Extent α)}

variable {base : Nat}

theorem mem_rest {r : Extent α} :
    r ∈ rest label base stop ↔ base < stop ∧ r = ⟨base, stop - base, label⟩ := by
  unfold rest
  split_ifs with h <;> simp [h]

theorem marks_rest {base x : Nat} {a : α} :
    Marks (rest label base stop) x a ↔ base ≤ x ∧ x < stop ∧ label = a := by
  simp only [Marks, mem_rest, Extent.Covers, Extent.stop]
  constructor
  · rintro ⟨r, ⟨hlt, rfl⟩, ⟨hle, hx⟩, rfl⟩
    dsimp only at hle hx
    exact ⟨hle, by omega, rfl⟩
  · rintro ⟨hle, hx, rfl⟩
    exact ⟨_, ⟨by omega, rfl⟩, ⟨hle, show x < base + (stop - base) by omega⟩, rfl⟩

theorem marks_fill {base x : Nat} {a : α} (h : Ordered l) : Marks (fill label stop base l) x a ↔
      Marks l x a ∨ (base ≤ x ∧ x < stop ∧ ¬ Covered l x ∧ label = a) := by
  induction l generalizing base with
  | nil => simp [fill, marks_rest]
  | cons r l ih =>
    obtain ⟨hpos, hbefore, hl⟩ := ordered_cons.mp h
    have hstop : r.stop = r.base + r.size := rfl
    have hcov : r.Covers x ↔ r.base ≤ x ∧ x < r.stop := Iff.rfl
    -- a number below the end of `r` is not covered by what follows
    have hlow : x < r.stop → ¬ Covered l x := by
      rintro hx ⟨s, hs, hsx⟩
      have := hbefore s hs
      have := hsx.1
      omega
    unfold fill
    split_ifs with h1 h2 h3 <;>
      simp only [marks_append, marks_cons, marks_rest, covered_cons, ih hl, Extent.Covers,
        Extent.stop] <;> grind

theorem length_le_fill (label : α) (stop base : Nat) (l : List (Extent α)) :
    l.length ≤ (fill label stop base l).length := by
  induction l generalizing base with
  | nil => exact Nat.zero_le _
  | cons r l ih =>
    have hstart := ih base
    have hnext := ih (min r.stop stop)
    unfold fill
    split_ifs <;> simp only [List.length_append, List.length_cons] <;> omega

theorem fill_eq_self (h : (fill label stop base l).length = l.length) :
    fill label stop base l = l := by
  induction l generalizing base with
  | nil => exact List.length_eq_zero_iff.mp h
  | cons r l ih =>
    have hle := length_le_fill label stop (min r.stop stop) l
    unfold fill at h ⊢
    split_ifs at h ⊢ with h1 h2 h3
    · rw [List.length_append, Nat.add_eq_right] at h
      rw [List.length_eq_zero_iff.mp h, List.nil_append]
    · rw [ih (Nat.succ.inj h)]
    · simp only [List.length_cons] at h
      omega
    · rw [ih (Nat.succ.inj h)]

theorem mem_fill {s : Extent α} (hs : s ∈ fill label stop base l) :
    s ∈ l ∨ (base ≤ s.base ∧ 0 < s.size ∧ s.stop ≤ stop) := by
  induction l generalizing base with
  | nil =>
    obtain ⟨hlt, rfl⟩ := mem_rest.mp hs
    exact .inr ⟨le_rfl, Nat.sub_pos_of_lt hlt, show base + (stop - base) ≤ stop by omega⟩
  | cons r l ih =>
    -- a later round starts at `base'`, which is not below `base` as long as there is a gap
    have hlater : ∀ {base'}, min base stop ≤ base' → s ∈ fill label stop base' l →
        s ∈ r :: l ∨ (base ≤ s.base ∧ 0 < s.size ∧ s.stop ≤ stop) := by
      intro base' hle hmem
      rcases ih hmem with hin | ⟨hbase, hsize, hend⟩
      · exact .inl (.tail _ hin)
      · have hstop : s.stop = s.base + s.size := rfl
        exact .inr ⟨by omega, hsize, hend⟩
    unfold fill at hs
    split_ifs at hs with h1 h2 h3
    · rcases List.mem_append.mp hs with hnew | hold
      · obtain ⟨hlt, rfl⟩ := mem_rest.mp hnew
        exact .inr ⟨le_rfl, Nat.sub_pos_of_lt hlt, show base + (stop - base) ≤ stop by omega⟩
      · exact .inl hold
    · rcases List.mem_cons.mp hs with rfl | hmem
      · exact .inl (.head _)
      · exact hlater (by omega) hmem
    · rcases List.mem_cons.mp hs with rfl | hs
      · exact .inr ⟨le_rfl, Nat.sub_pos_of_lt h3, show base + (r.base - base) ≤ stop by omega⟩
      · rcases List.mem_cons.mp hs with rfl | hmem
        · exact .inl (.head _)
        · exact hlater (by omega) hmem
    · rcases List.mem_cons.mp hs with rfl | hmem
      · exact .inl (.head _)
      · exact hlater (by omega) hmem

theorem Ordered.fill (h : Ordered l) : Ordered (fill label stop base l) := by
  induction l generalizing base with
  | nil =>
    refine ⟨fun s hs => ?_, ?_⟩
    · obtain ⟨hlt, rfl⟩ := mem_rest.mp hs
      exact Nat.sub_pos_of_lt hlt
    · unfold MinixRt.Lib.fill rest
      split_ifs <;> simp
  | cons r l ih =>
    obtain ⟨hpos, hbefore, hl⟩ := ordered_cons.mp h
    have hafter : ∀ {base'}, min r.stop stop ≤ base' → Ordered (r :: MinixRt.Lib.fill label stop
        base' l) := by
      intro base' hle
      refine ordered_cons.mpr ⟨hpos, fun s hs => ?_, ih hl⟩
      rcases mem_fill hs with hin | ⟨hbase, hsize, hend⟩
      · exact hbefore s hin
      · have hstop : s.stop = s.base + s.size := rfl
        omega
    unfold MinixRt.Lib.fill
    split_ifs with h1 h2 h3
    · unfold rest
      split_ifs with h4
      · refine ordered_cons.mpr ⟨Nat.sub_pos_of_lt h4, fun s hs => ?_, h⟩
        have hle : r.base ≤ s.base := by
          rcases List.mem_cons.mp hs with rfl | hs
          · rfl
          · have := hbefore s hs
            exact (Nat.le_add_right _ _).trans this
        exact (show base + (stop - base) ≤ s.base by omega)
      · exact h
    · exact hafter (by omega)
    · refine ordered_cons.mpr ⟨Nat.sub_pos_of_lt h3, fun s hs => ?_, hafter le_rfl⟩
      have hle : r.base ≤ s.base := by
        rcases List.mem_cons.mp hs with rfl | hs
        · rfl
        · have hs := (ordered_cons.mp (hafter le_rfl)).2.1 s hs
          exact (Nat.le_add_right _ _).trans hs
      exact (show base + (r.base - base) ≤ s.base by omega)
    · exact hafter le_rfl

end Fill

/-! ## Joining -/

/-- Join `r` and the extents behind it as long as they touch and have the same label. -/
def coalesceFrom [DecidableEq α] : Extent α → List (Extent α) → List (Extent α)
  | r, [] => [r]
  | r, s :: l =>
    if r.stop = s.base ∧ r.label = s.label then coalesceFrom ⟨r.base, r.size + s.size, r.label⟩ l
    else r :: coalesceFrom s l

section Coalesce

variable [DecidableEq α] {l : List (Extent α)} {r : Extent α}

theorem marks_coalesceFrom {x : Nat} {a : α} :
    Marks (coalesceFrom r l) x a ↔ Marks (r :: l) x a := by
  induction l generalizing r with
  | nil => rfl
  | cons s l ih =>
    unfold coalesceFrom
    split_ifs with h
    · obtain ⟨htouch, hlabel⟩ := h
      simp only [ih, marks_cons, Extent.Covers, Extent.stop, hlabel] at htouch ⊢
      grind
    · rw [marks_cons, ih, marks_cons (r := r)]

theorem coalesceFrom_ne_nil : coalesceFrom r l ≠ [] := by
  induction l generalizing r with
  | nil => exact List.cons_ne_nil _ _
  | cons s l ih =>
    unfold coalesceFrom
    split_ifs
    · exact ih
    · exact List.cons_ne_nil _ _

theorem length_coalesceFrom_le : (coalesceFrom r l).length ≤ l.length + 1 := by
  induction l generalizing r with
  | nil => exact le_rfl
  | cons s l ih =>
    unfold coalesceFrom
    split_ifs
    · exact ih.trans (Nat.le_succ _)
    · exact Nat.succ_le_succ ih

variable {t : Extent α}

/-- The first extent keeps its start and its label, and the others start behind it. -/
theorem mem_coalesceFrom (h : Ordered (r :: l)) (ht : t ∈ coalesceFrom r l) :
    (t.base = r.base ∧ t.label = r.label) ∨ r.stop ≤ t.base := by
  induction l generalizing r with
  | nil =>
    cases List.mem_singleton.mp ht
    exact .inl ⟨rfl, rfl⟩
  | cons s l ih =>
    obtain ⟨hpos, hbefore, hl⟩ := ordered_cons.mp h
    unfold coalesceFrom at ht
    split_ifs at ht with hjoin
    · rcases ih (h.join hjoin.1) ht with hfirst | hlater
      · exact .inl hfirst
      · exact .inr (le_trans (show r.base + r.size ≤ r.base + (r.size + s.size) by omega) hlater)
    · rcases List.mem_cons.mp ht with rfl | ht
      · exact .inl ⟨rfl, rfl⟩
      · have hs := hbefore s (.head _)
        rcases ih hl ht with hfirst | hlater
        · exact .inr (hfirst.1 ▸ hs)
        · exact .inr (hs.trans ((Nat.le_add_right _ _).trans hlater))

theorem Ordered.coalesceFrom (h : Ordered (r :: l)) : Ordered (coalesceFrom r l) := by
  induction l generalizing r with
  | nil => exact h
  | cons s l ih =>
    obtain ⟨hpos, hbefore, hl⟩ := ordered_cons.mp h
    unfold MinixRt.Lib.coalesceFrom
    split_ifs with hjoin
    · exact ih (h.join hjoin.1)
    · refine ordered_cons.mpr ⟨hpos, fun t ht => ?_, ih hl⟩
      have hs := hbefore s (.head _)
      rcases mem_coalesceFrom hl ht with hfirst | hlater
      · exact hfirst.1 ▸ hs
      · exact hs.trans ((Nat.le_add_right _ _).trans hlater)

theorem reduced_coalesceFrom (h : Ordered (r :: l)) : Reduced (coalesceFrom r l) := by
  induction l generalizing r with
  | nil => exact List.pairwise_singleton _ _
  | cons s l ih =>
    obtain ⟨hpos, hbefore, hl⟩ := ordered_cons.mp h
    unfold coalesceFrom
    split_ifs with hjoin
    · exact ih (h.join hjoin.1)
    · refine List.pairwise_cons.mpr ⟨fun t ht htouch hlabel => ?_, ih hl⟩
      have hs := hbefore s (.head _)
      have hsize := hl.pos s (.head _)
      have hstop : s.stop = s.base + s.size := rfl
      rcases mem_coalesceFrom hl ht with ⟨hbase, hfirst⟩ | hlater
      · exact hjoin ⟨htouch.trans hbase, hlabel.trans hfirst⟩
      · omega

theorem stop_le_of_mem_coalesceFrom {top : Nat} (h : ∀ s ∈ r :: l, s.stop ≤ top)
    (ht : t ∈ coalesceFrom r l) (hl : Ordered (r :: l)) : t.stop ≤ top := by
  induction l generalizing r with
  | nil => exact h t ht
  | cons s l ih =>
    unfold coalesceFrom at ht
    split_ifs at ht with hjoin
    · exact ih (stop_le_join h hjoin.1) ht (hl.join hjoin.1)
    · rcases List.mem_cons.mp ht with rfl | ht
      · exact h t (.head _)
      · exact ih (fun u hu => h u (.tail _ hu)) ht (ordered_cons.mp hl).2.2

end Coalesce

/-! ## Clipping -/

/-- The part of an extent from `lo` to `hi`. -/
def Extent.clip (lo hi : Nat) (r : Extent α) : Option (Extent α) :=
  if max r.base lo < min r.stop hi then
    some ⟨max r.base lo, min r.stop hi - max r.base lo, r.label⟩
  else none

/-- The parts of the extents from `lo` to `hi`. -/
def clip (lo hi : Nat) (l : List (Extent α)) : List (Extent α) := l.filterMap (Extent.clip lo hi)

section Clip

variable {lo hi : Nat} {l : List (Extent α)} {r s : Extent α}

theorem Extent.clip_eq_some : r.clip lo hi = some s ↔ s.label = r.label ∧ s.base < s.stop ∧
    s.base = max r.base lo ∧ s.stop = min r.stop hi := by
  unfold Extent.clip
  split_ifs with h
  · rw [Option.some_inj]
    constructor
    · rintro rfl
      dsimp only [Extent.stop] at h ⊢
      exact ⟨rfl, by omega, rfl, by omega⟩
    · rintro ⟨hlabel, -, hbase, hstop⟩
      cases s
      simp only [Extent.stop, Extent.mk.injEq] at hlabel hbase hstop ⊢
      exact ⟨hbase.symm, by omega, hlabel.symm⟩
  · simp only [false_iff]
    omega

theorem Extent.clip_of_le (h : r.stop ≤ lo ∨ hi ≤ r.base) : r.clip lo hi = none :=
  if_neg (by omega)

theorem Extent.clip_of_inside (hlt : 0 < r.size) (hlo : lo ≤ r.base) (hhi : r.stop ≤ hi) :
    r.clip lo hi = some r := by
  have hstop : r.stop = r.base + r.size := rfl
  exact Extent.clip_eq_some.mpr ⟨rfl, by omega, by omega, by omega⟩

theorem Extent.clip_tail {p : Nat} (hp : p ≤ lo) (hp' : p ≤ r.stop) (hbase : r.base ≤ p) :
    (⟨p, r.stop - p, r.label⟩ : Extent α).clip lo hi = r.clip lo hi := by
  have hstop : (⟨p, r.stop - p, r.label⟩ : Extent α).stop = r.stop := Nat.add_sub_cancel' hp'
  have hmax : max p lo = max r.base lo := by omega
  simp only [Extent.clip, hstop, hmax]

theorem clip_cons_none (h : r.clip lo hi = none) : clip lo hi (r :: l) = clip lo hi l :=
  List.filterMap_cons_none h

theorem clip_cons_some (h : r.clip lo hi = some s) : clip lo hi (r :: l) = s :: clip lo hi l :=
  List.filterMap_cons_some h

theorem clip_eq_nil (h : ∀ r ∈ l, r.stop ≤ lo ∨ hi ≤ r.base) : clip lo hi l = [] :=
  List.filterMap_eq_nil_iff.mpr fun r hr => Extent.clip_of_le (h r hr)

theorem clip_eq_self (hpos : ∀ r ∈ l, 0 < r.size) (h : ∀ r ∈ l, lo ≤ r.base ∧ r.stop ≤ hi) :
    clip lo hi l = l := by
  induction l with
  | nil => rfl
  | cons r l ih =>
    have hr := h r (.head _)
    rw [clip_cons_some (Extent.clip_of_inside (hpos r (.head _)) hr.1 hr.2),
      ih (fun s hs => hpos s (.tail _ hs)) fun s hs => h s (.tail _ hs)]

theorem mem_clip : s ∈ clip lo hi l ↔ ∃ r ∈ l, s.label = r.label ∧ s.base < s.stop ∧
    s.base = max r.base lo ∧ s.stop = min r.stop hi := by
  simp only [clip, List.mem_filterMap, Extent.clip_eq_some]

theorem marks_clip {x : Nat} {a : α} : Marks (clip lo hi l) x a ↔ Marks l x a ∧ lo ≤ x ∧ x < hi := by
  constructor
  · rintro ⟨s, hs, ⟨hle, hlt⟩, rfl⟩
    obtain ⟨r, hr, hlabel, -, hbase, hstop⟩ := mem_clip.mp hs
    exact ⟨⟨r, hr, ⟨by omega, by omega⟩, hlabel.symm⟩, by omega, by omega⟩
  · rintro ⟨⟨r, hr, ⟨hle, hlt⟩, rfl⟩, hlo, hhi⟩
    have hstop : max r.base lo + (min r.stop hi - max r.base lo) = min r.stop hi := by omega
    refine ⟨⟨max r.base lo, min r.stop hi - max r.base lo, r.label⟩, mem_clip.mpr
      ⟨r, hr, rfl, ?_, rfl, hstop⟩, ⟨?_, ?_⟩, rfl⟩
    · exact (show max r.base lo < max r.base lo + (min r.stop hi - max r.base lo) by omega)
    · exact (show max r.base lo ≤ x by omega)
    · exact (show x < max r.base lo + (min r.stop hi - max r.base lo) by omega)

theorem stop_le_of_mem_clip (hs : s ∈ clip lo hi l) : s.stop ≤ hi := by
  obtain ⟨_, -, -, -, -, hstop⟩ := mem_clip.mp hs
  omega

theorem Ordered.clip (h : Ordered l) : Ordered (clip lo hi l) where
  pos s hs := by
    obtain ⟨r, -, -, hlt, -, -⟩ := mem_clip.mp hs
    have hstop : s.stop = s.base + s.size := rfl
    omega
  pairwise := by
    refine h.pairwise.filterMap _ fun r r' hrr' s hs s' hs' => ?_
    obtain ⟨-, -, -, hstop⟩ := Extent.clip_eq_some.mp hs
    obtain ⟨-, -, hbase, -⟩ := Extent.clip_eq_some.mp hs'
    omega

theorem Reduced.clip (h : Reduced l) (ho : Ordered l) : Reduced (clip lo hi l) := by
  refine (h.and ho.pairwise).filterMap _ fun r r' hrr' s hs s' hs' htouch => ?_
  obtain ⟨hlabel, hlt, -, hstop⟩ := Extent.clip_eq_some.mp hs
  obtain ⟨hlabel', hlt', hbase, -⟩ := Extent.clip_eq_some.mp hs'
  rw [hlabel, hlabel']
  exact hrr'.1 (by omega)

/-- The parts below, inside and above a range follow one another. -/
theorem Ordered.parts {top : Nat} (h : Ordered l) (hle : lo ≤ hi) :
    Ordered (MinixRt.Lib.clip 0 lo l ++ (MinixRt.Lib.clip lo hi l ++ MinixRt.Lib.clip hi top l)) := by
  refine h.clip.append (h.clip.append h.clip fun r hr s hs => ?_) fun r hr s hs => ?_
  · obtain ⟨_, -, -, -, -, hstop⟩ := mem_clip.mp hr
    obtain ⟨_, -, -, -, hbase, -⟩ := mem_clip.mp hs
    omega
  · obtain ⟨_, -, -, -, -, hstop⟩ := mem_clip.mp hr
    rcases List.mem_append.mp hs with hs | hs
    all_goals
      obtain ⟨_, -, -, -, hbase, -⟩ := mem_clip.mp hs
      omega

end Clip

end MinixRt.Lib
