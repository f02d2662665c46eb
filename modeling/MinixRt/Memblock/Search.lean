import MinixRt.Memblock.Table

/-!
# Looking up an address

`memblock_search` is a binary search over the regions. Its loop keeps the regions below `left`
below the address and those from `right` on above it.
-/

namespace MinixRt.Memblock

open List MinixRt.Lib

/-- The loop of `memblock_search`: the index of the region, or `none` for `-1`. Without fuel, or
outside of the array, there is no result. The array has a fixed size, so that the `unsigned int`
indices do not wrap. -/
def searchLoop (t : MemblockType) (addr : Nat) : (fuel left right : Nat) → Option (Option Nat)
  | 0, _, _ => none
  | fuel + 1, left, right =>
    let mid := (right + left) / 2
    match t.regions[mid]? with
    | none => none
    | some r =>
      if addr < r.base then
        if left < mid then searchLoop t addr fuel left mid else some none
      else if rend r ≤ addr then
        if mid + 1 < right then searchLoop t addr fuel (mid + 1) right else some none
      else some (some mid)

/-- `memblock_search`; every round drops a region. -/
def memblockSearch (t : MemblockType) (addr : Nat) : Option (Option Nat) :=
  searchLoop t addr t.cnt 0 t.cnt

def nomap : Flags := 1

def memblockIsMapMemory (memory : MemblockType) (addr : Nat) : Option Bool :=
  (memblockSearch memory addr).map fun i =>
    match i with
    | none => false
    | some i => (memory.regions.getD i dummy).label &&& nomap = 0

section Search

variable {t : MemblockType} {addr : Nat}

/-- The regions with an index below `left` end before the address, those from `right` on start
behind it. -/
structure Between (t : MemblockType) (addr left right : Nat) : Prop where
  below : ∀ (i : Nat) (r : Region), t.regions[i]? = some r → i < left → r.stop ≤ addr
  above : ∀ (i : Nat) (r : Region), t.regions[i]? = some r → right ≤ i → addr < r.base

/-- What the search answers. -/
def Found (t : MemblockType) (addr : Nat) : Option Nat → Prop
  | none => ¬ Covered t.regions addr
  | some i => ∃ r, t.regions[i]? = some r ∧ r.Covers addr

theorem Between.not_covered {left right : Nat} (h : Between t addr left right)
    (hle : right ≤ left) : ¬ Covered t.regions addr := by
  rintro ⟨r, hr, hx⟩
  obtain ⟨i, hi⟩ := mem_iff_getElem?.mp hr
  by_cases hlt : i < left
  · have := h.below i r hi hlt
    have := hx.2
    omega
  · have := h.above i r hi (by omega)
    have := hx.1
    omega

section

variable (hpair : t.regions.Pairwise fun r s => r.stop ≤ s.base)
include hpair

theorem stop_le_of_lt {i j : Nat} {r s : Region} (hi : t.regions[i]? = some r)
    (hj : t.regions[j]? = some s) (hlt : i < j) : r.stop ≤ s.base := by
  obtain ⟨hi', rfl⟩ := List.getElem?_eq_some_iff.mp hi
  obtain ⟨hj', rfl⟩ := List.getElem?_eq_some_iff.mp hj
  exact List.pairwise_iff_getElem.mp hpair _ _ hi' hj' hlt

/-- In a sorted table the regions before one that is above the address are not excluded, and
those behind it are. -/
theorem Between.left {left right mid : Nat} {r : Region} (h : Between t addr left right)
    (hget : t.regions[mid]? = some r) (hlt : addr < r.base) : Between t addr left mid := by
  refine ⟨h.below, fun i s hi hle => ?_⟩
  rcases Nat.eq_or_lt_of_le hle with rfl | hlt'
  · rw [hget] at hi
    cases hi
    exact hlt
  · have hrs := stop_le_of_lt hpair hget hi hlt'
    have : r.stop = r.base + r.size := rfl
    omega

theorem Between.right {left right mid : Nat} {r : Region} (h : Between t addr left right)
    (hget : t.regions[mid]? = some r) (hle : r.stop ≤ addr) : Between t addr (mid + 1) right := by
  refine ⟨fun i s hi hlt => ?_, h.above⟩
  rcases Nat.eq_or_lt_of_le (Nat.lt_succ_iff.mp hlt) with rfl | hlt'
  · rw [hget] at hi
    cases hi
    exact hle
  · have hrs := stop_le_of_lt hpair hi hget hlt'
    have : r.stop = r.base + r.size := rfl
    omega

theorem searchLoop_spec (hstop : ∀ r ∈ t.regions, r.stop ≤ physAddrMax) : ∀ {fuel left right : Nat},
    left < right → right ≤ t.cnt → right - left ≤ fuel → Between t addr left right →
    ∃ i, searchLoop t addr fuel left right = some i ∧ Found t addr i := by
  intro fuel
  induction fuel with
  | zero =>
    intro left right hlt _ hfuel
    omega
  | succ fuel ih =>
    intro left right hlt hcnt hfuel hbetween
    have hmid : (right + left) / 2 < t.regions.length := by
      have : t.cnt = t.regions.length := rfl
      omega
    have hget := getElem?_eq_getElem hmid
    have hrend := rend_eq (hstop _ (getElem_mem hmid))
    rw [searchLoop, hget]
    simp only [hrend]
    split_ifs with h1 h2 h3 h4
    · exact ih h2 (by omega) (by omega) (hbetween.left hpair hget h1)
    · exact ⟨none, rfl, (hbetween.left hpair hget h1).not_covered (by omega)⟩
    · exact ih h4 (by omega) (by omega) (hbetween.right hpair hget h3)
    · exact ⟨none, rfl, (hbetween.right hpair hget h3).not_covered (by omega)⟩
    · exact ⟨some _, rfl, _, hget, by omega, by omega⟩

theorem memblockSearch_found (hne : t.regions ≠ []) (hstop : ∀ r ∈ t.regions, r.stop ≤ physAddrMax)
    (addr : Nat) : ∃ i, memblockSearch t addr = some i ∧ Found t addr i := by
  refine searchLoop_spec hpair hstop (length_pos_of_ne_nil hne) le_rfl (Nat.sub_le _ _)
    ⟨fun i r _ hlt => ?_, fun i r hi hle => ?_⟩
  · exact absurd hlt (Nat.not_lt_zero _)
  · have := (List.getElem?_eq_some_iff.mp hi).1
    exact absurd this (Nat.not_lt.mpr hle)

end

/-- In every sorted table, whatever its regions are and whether they are empty, the search ends, and
it finds a region that holds the address if there is one. -/
theorem memblockSearch_spec (hne : t.regions ≠ [])
    (hpair : t.regions.Pairwise fun r s => r.stop ≤ s.base)
    (hstop : ∀ r ∈ t.regions, r.stop ≤ physAddrMax) (addr : Nat) :
    (∃ i r, memblockSearch t addr = some (some i) ∧ t.regions[i]? = some r ∧ r.base ≤ addr ∧
      addr < r.base + r.size) ∨
    memblockSearch t addr = some none ∧
      ∀ r ∈ t.regions, ¬ (r.base ≤ addr ∧ addr < r.base + r.size) := by
  obtain ⟨i, hsearch, hfound⟩ := memblockSearch_found hpair hne hstop addr
  cases i with
  | none => exact .inr ⟨hsearch, fun r hr hx => hfound ⟨r, hr, hx⟩⟩
  | some i =>
    obtain ⟨r, hget, hx⟩ := hfound
    exact .inl ⟨i, r, hsearch, hget, hx⟩

/-- The dummy region holds no address, and an empty region between two others is passed over. -/
theorem memblockSearch_spec_small :
    memblockSearch ⟨4, 0, [dummy]⟩ 0 = some none ∧
      memblockSearch ⟨4, 0x2000, [⟨0x1000, 0x1000, 0⟩, ⟨0x3000, 0, 0⟩, ⟨0x3000, 0x1000, 0⟩]⟩ 0x3800 =
        some (some 2) := by
  constructor
  · rcases memblockSearch_spec (t := ⟨4, 0, [dummy]⟩) (by decide) (by decide) (by decide) 0 with
      ⟨i, r, -, hget, -, hlt⟩ | ⟨hnone, -⟩
    · rw [mem_singleton.mp (mem_of_getElem? hget)] at hlt
      exact absurd hlt (Nat.lt_irrefl 0)
    · exact hnone
  · decide

theorem memblockIsMapMemory_eq (h : InOrder t) (addr : Nat) : ∃ b,
    memblockIsMapMemory t addr = some b ∧
      (b = true ↔ ∃ r ∈ t.regions, r.Covers addr ∧ r.label &&& nomap = 0) := by
  have hne : t.regions ≠ [] := by
    rcases h.regions with hdummy | ⟨hne, -⟩
    · rw [hdummy]
      exact cons_ne_nil _ _
    · exact hne
  obtain ⟨i, hsearch, hfound⟩ := memblockSearch_found h.pairwise hne h.stop_le addr
  rw [memblockIsMapMemory, hsearch]
  refine ⟨_, rfl, ?_⟩
  cases i with
  | none =>
    simp only [Bool.false_eq_true, false_iff]
    rintro ⟨r, hr, hx, -⟩
    exact hfound ⟨r, hr, hx⟩
  | some =>
    obtain ⟨r, hget, hx⟩ := hfound
    have hr := mem_of_getElem? hget
    simp only [getD_eq_getElem?_getD, hget, Option.getD_some, decide_eq_true_eq]
    constructor
    · intro hlabel
      exact ⟨r, hr, hx, hlabel⟩
    · rintro ⟨s, hs, hsx, hlabel⟩
      rcases h.regions with hdummy | ⟨-, hordered⟩
      · rw [hdummy] at hr hs
        rw [mem_singleton.mp hr, ← mem_singleton.mp hs]
        exact hlabel
      · rw [hordered.marks_unique ⟨r, hr, hx, rfl⟩ ⟨s, hs, hsx, rfl⟩]
        exact hlabel

end Search

end MinixRt.Memblock
