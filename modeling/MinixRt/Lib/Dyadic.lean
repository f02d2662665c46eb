import Mathlib.Data.Nat.Bitwise
import Mathlib.Data.Set.BooleanAlgebra

/-!
# Buddy systems

A block of order `o` is `2 ^ o` consecutive numbers, aligned to its size when its base is a
multiple of `2 ^ o`. The buddy of an aligned block differs from it in bit `o` of the base, and
the two together are the parent, a block of order `o + 1`.

`Tiling` says that the free and the allocated blocks tile a set of numbers and that no two
free blocks could be joined. The four moves of a buddy allocator keep it: taking a free block,
giving one back whose buddy is not free, joining two allocated buddies, and splitting an
allocated block into its halves.
-/

namespace MinixRt.Lib

@[ext] structure Block where
  base : Nat
  order : Nat
  deriving DecidableEq

namespace Block

def Covers (b : Block) (x : Nat) : Prop := b.base ≤ x ∧ x < b.base + 2 ^ b.order

def Aligned (b : Block) : Prop := 2 ^ b.order ∣ b.base

instance (b : Block) (x : Nat) : Decidable (b.Covers x) := inferInstanceAs (Decidable (_ ∧ _))

instance (b : Block) : Decidable b.Aligned := inferInstanceAs (Decidable (_ ∣ _))

def buddy (b : Block) : Block := ⟨b.base ^^^ 2 ^ b.order, b.order⟩

def parent (b : Block) : Block := ⟨(b.base ^^^ 2 ^ b.order) &&& b.base, b.order + 1⟩

theorem covers_base (b : Block) : b.Covers b.base :=
  ⟨Nat.le_refl _, Nat.lt_add_of_pos_right (Nat.two_pow_pos _)⟩

@[simp] theorem buddy_order (b : Block) : b.buddy.order = b.order := rfl

@[simp] theorem parent_order (b : Block) : b.parent.order = b.order + 1 := rfl

theorem buddy_buddy (b : Block) : b.buddy.buddy = b := by
  simp [buddy]

theorem xor_one_and_self (k : Nat) : (k ^^^ 1) &&& k = 2 * (k / 2) := by
  apply Nat.eq_of_testBit_eq
  intro i
  cases i with
  | zero =>
    simp
    omega
  | succ => simp [Nat.testBit_succ, Nat.xor_div_two, Nat.and_div_two]

theorem buddy_ne (b : Block) : b.buddy ≠ b := by
  intro heq
  have hzero : b.base ^^^ 2 ^ b.order = b.base := congrArg base heq
  have hpow : b.base ^^^ (b.base ^^^ 2 ^ b.order) = 0 := by rw [hzero, Nat.xor_self]
  rw [← Nat.xor_assoc, Nat.xor_self, Nat.zero_xor] at hpow
  exact (Nat.two_pow_pos b.order).ne' hpow

variable {b : Block}

theorem Aligned.halves (h : b.Aligned) : b.parent.Aligned ∧
      (b.base = b.parent.base ∧ b.buddy.base = b.parent.base + 2 ^ b.order ∨
        b.buddy.base = b.parent.base ∧ b.base = b.parent.base + 2 ^ b.order) := by
  obtain ⟨k, hk⟩ := h
  have hshift : ∀ j, 2 ^ b.order * j = j <<< b.order := by
    intro j
    rw [Nat.shiftLeft_eq, Nat.mul_comm]
  have hone : 2 ^ b.order = 1 <<< b.order := (Nat.one_shiftLeft _).symm
  have hbuddy : b.buddy.base = 2 ^ b.order * (k ^^^ 1) := by
    rw [buddy, hshift, Nat.shiftLeft_xor_distrib, ← hshift, ← hone, hk]
  have hparent : b.parent.base = 2 ^ b.order * ((k ^^^ 1) &&& k) := by
    rw [hshift, Nat.shiftLeft_and_distrib, ← hshift, ← hshift, ← hbuddy, ← hk]
    rfl
  rw [xor_one_and_self] at hparent
  have hpow : 2 ^ (b.order + 1) = 2 ^ b.order * 2 := Nat.pow_succ _ _
  refine ⟨⟨k / 2, by rw [hparent, parent_order, hpow, Nat.mul_assoc]⟩, ?_⟩
  rcases Nat.even_or_odd k with heven | hodd
  · have hhalf : 2 * (k / 2) = k := Nat.two_mul_div_two_of_even heven
    refine .inl ⟨by rw [hparent, hhalf, hk], ?_⟩
    rw [hbuddy, hparent, hhalf, Nat.xor_one_of_even heven, Nat.mul_succ]
  · have hhalf : 2 * (k / 2) + 1 = k := Nat.two_mul_div_two_add_one_of_odd hodd
    have hpred : k - 1 = 2 * (k / 2) := by omega
    refine .inr ⟨by rw [hbuddy, hparent, Nat.xor_one_of_odd hodd, hpred], ?_⟩
    rw [hparent, ← Nat.mul_succ, Nat.succ_eq_add_one, hhalf, hk]

theorem Aligned.covers_parent (h : b.Aligned) {x : Nat} :
    b.parent.Covers x ↔ b.Covers x ∨ b.buddy.Covers x := by
  have hpow : 2 ^ (b.order + 1) = 2 * 2 ^ b.order := Nat.pow_succ'
  simp only [Covers, parent_order, buddy_order, hpow]
  rcases h.halves.2 with ⟨h1, h2⟩ | ⟨h1, h2⟩ <;> omega

/-- The two halves of a block. -/
def lower (b : Block) : Block := ⟨b.base, b.order - 1⟩

def upper (b : Block) : Block := ⟨b.base + 2 ^ (b.order - 1), b.order - 1⟩

section Halves

variable {b : Block}

theorem two_pow_order (hpos : 0 < b.order) : 2 ^ b.order = 2 * 2 ^ (b.order - 1) := by
  rw [← Nat.pow_succ', Nat.succ_eq_add_one, Nat.sub_add_cancel hpos]

variable {x : Nat}

theorem covers_halves (hpos : 0 < b.order) : b.Covers x ↔ b.lower.Covers x ∨ b.upper.Covers x := by
  simp only [Covers, lower, upper, two_pow_order hpos]
  omega

theorem covers_lower (hpos : 0 < b.order) (h : b.lower.Covers x) : b.Covers x :=
  (covers_halves hpos).mpr (.inl h)

theorem covers_upper (hpos : 0 < b.order) (h : b.upper.Covers x) : b.Covers x :=
  (covers_halves hpos).mpr (.inr h)

theorem lower_ne_upper : b.lower ≠ b.upper := by
  intro heq
  have hbase : b.base = b.base + 2 ^ (b.order - 1) := congrArg base heq
  have := Nat.two_pow_pos (b.order - 1)
  omega

theorem not_covers_halves (h : b.lower.Covers x) : ¬ b.upper.Covers x := by
  simp only [Covers, lower, upper] at h ⊢
  omega

theorem Aligned.lower (h : b.Aligned) : b.lower.Aligned :=
  Nat.dvd_trans (Nat.pow_dvd_pow 2 (Nat.sub_le _ _)) h

theorem Aligned.upper (h : b.Aligned) : b.upper.Aligned :=
  Nat.dvd_add h.lower (Nat.dvd_refl _)

theorem Aligned.buddy_upper (h : b.Aligned) (hpos : 0 < b.order) : b.upper.buddy = b.lower := by
  have hodd : ¬ 2 ^ b.order ∣ b.base + 2 ^ (b.order - 1) := by
    intro hdvd
    have hhalf := (Nat.dvd_add_right h).mp hdvd
    have hle := Nat.le_of_dvd (Nat.two_pow_pos _) hhalf
    have hlt := Nat.two_pow_pos (b.order - 1)
    rw [two_pow_order hpos] at hle
    omega
  have hpar := h.upper.halves.1
  rw [Aligned, parent_order] at hpar
  have hord : b.upper.order + 1 = b.order := Nat.sub_add_cancel hpos
  rw [hord] at hpar
  rcases h.upper.halves.2 with ⟨h1, _⟩ | ⟨h1, h2⟩
  · rw [← h1] at hpar
    exact absurd hpar hodd
  · have hbase : b.upper.base = b.base + 2 ^ b.upper.order := rfl
    refine Block.mk.injEq .. ▸ ⟨?_, rfl⟩
    change b.upper.buddy.base = b.base
    omega

end Halves

end Block

variable {b c : Block}

theorem Block.Aligned.covers_of_le (hb : b.Aligned) (hc : c.Aligned) (horder : b.order ≤ c.order)
    {x y : Nat} (hbx : b.Covers x) (hcx : c.Covers x) (hby : b.Covers y) : c.Covers y := by
  obtain ⟨k, hk⟩ := Nat.pow_dvd_pow 2 horder
  obtain ⟨i, hi⟩ := hb
  obtain ⟨j, hj⟩ := Nat.dvd_trans (Nat.pow_dvd_pow 2 horder) hc
  simp only [Block.Covers, hi, hj, hk, ← Nat.mul_succ, ← Nat.mul_add] at *
  have hji : j ≤ i := Nat.lt_succ_iff.mp (Nat.lt_of_mul_lt_mul_left (hcx.1.trans_lt hbx.2))
  have hik : i < j + k := Nat.lt_of_mul_lt_mul_left (hbx.1.trans_lt hcx.2)
  have hlow := Nat.mul_le_mul_left (2 ^ b.order) hji
  have hhigh := Nat.mul_le_mul_left (2 ^ b.order) (Nat.succ_le_of_lt hik)
  exact ⟨hlow.trans hby.1, hby.2.trans_le hhigh⟩

theorem Block.Aligned.eq_of_covers (hb : b.Aligned) (hc : c.Aligned) (horder : b.order = c.order)
    {x : Nat} (hbx : b.Covers x) (hcx : c.Covers x) : b = c := by
  have hbc := hb.covers_of_le hc horder.le hbx hcx b.covers_base
  have hcb := hc.covers_of_le hb horder.ge hcx hbx c.covers_base
  exact Block.ext (Nat.le_antisymm hcb.1 hbc.1) horder

/-! ## Tilings -/

/-- The blocks `free` and `alloc` tile the numbers `managed`, and no two free blocks below the
highest order are buddies. -/
structure Tiling (max : Nat) (managed : Set Nat) (free alloc : Set Block) : Prop where
  aligned : ∀ b ∈ free ∪ alloc, b.Aligned
  order_lt : ∀ b ∈ free ∪ alloc, b.order < max
  eq_of_covers : ∀ a ∈ free ∪ alloc, ∀ b ∈ free ∪ alloc, ∀ x, a.Covers x → b.Covers x → a = b
  disjoint : ∀ b ∈ free, b ∉ alloc
  covered : ∀ x, x ∈ managed ↔ ∃ b ∈ free ∪ alloc, b.Covers x
  buddy_notMem : ∀ b ∈ free, b.order + 1 < max → b.buddy ∉ free

namespace Tiling

variable {max : Nat} {managed : Set Nat} {free alloc : Set Block} {b : Block}

variable (h : Tiling max managed free alloc)
include h

theorem take (hb : b ∈ free) : Tiling max managed (free \ {b}) (insert b alloc) := by
  have hunion : free \ {b} ∪ insert b alloc = free ∪ alloc := by
    rw [Set.union_insert, ← Set.insert_union, Set.insert_sdiff_singleton, Set.insert_eq_of_mem hb]
  constructor
  · rw [hunion]
    exact h.aligned
  · rw [hunion]
    exact h.order_lt
  · rw [hunion]
    exact h.eq_of_covers
  · rintro c ⟨hc, hne⟩ (rfl | hmem)
    · exact hne rfl
    · exact h.disjoint c hc hmem
  · rw [hunion]
    exact h.covered
  · rintro c ⟨hc, _⟩ hlt ⟨hbuddy, _⟩
    exact h.buddy_notMem c hc hlt hbuddy

theorem give (hb : b ∈ alloc) (hbuddy : b.order + 1 < max → b.buddy ∉ free) :
    Tiling max managed (insert b free) (alloc \ {b}) := by
  have hunion : insert b free ∪ alloc \ {b} = free ∪ alloc := by
    rw [Set.insert_union, ← Set.union_insert, Set.insert_sdiff_singleton, Set.insert_eq_of_mem hb]
  constructor
  · rw [hunion]
    exact h.aligned
  · rw [hunion]
    exact h.order_lt
  · rw [hunion]
    exact h.eq_of_covers
  · rintro c (rfl | hc) ⟨hmem, hne⟩
    · exact hne rfl
    · exact h.disjoint c hc hmem
  · rw [hunion]
    exact h.covered
  · rintro c (rfl | hc) hlt (heq | hmem)
    · exact absurd heq c.buddy_ne
    · exact hbuddy hlt hmem
    · refine hbuddy (heq ▸ hlt) ?_
      rw [← heq, c.buddy_buddy]
      exact hc
    · exact h.buddy_notMem c hc hlt hmem

theorem retile {old new : Set Block} (hold : old ⊆ alloc) (haligned : ∀ c ∈ new, c.Aligned)
    (horder : ∀ c ∈ new, c.order < max)
    (hnew : ∀ a ∈ new, ∀ c ∈ new, ∀ x, a.Covers x → c.Covers x → a = c)
    (hcover : ∀ x, (∃ c ∈ new, c.Covers x) ↔ ∃ c ∈ old, c.Covers x) :
    Tiling max managed free (alloc \ old ∪ new) := by
  -- a block that stays meets none of the new ones, since it met none of the old ones
  have hapart : ∀ a ∈ free ∪ alloc, a ∉ old → ∀ c ∈ new, ∀ x, a.Covers x → ¬ c.Covers x := by
    intro a ha hna c hc x hax hcx
    obtain ⟨d, hd, hdx⟩ := (hcover x).mp ⟨c, hc, hcx⟩
    exact hna (h.eq_of_covers a ha d (.inr (hold hd)) x hax hdx ▸ hd)
  have hcases : ∀ a ∈ free ∪ (alloc \ old ∪ new), (a ∈ free ∪ alloc ∧ a ∉ old) ∨ a ∈ new := by
    rintro a (ha | ⟨ha, hna⟩ | ha)
    · exact .inl ⟨.inl ha, fun hmem => h.disjoint a ha (hold hmem)⟩
    · exact .inl ⟨.inr ha, hna⟩
    · exact .inr ha
  constructor
  · intro a ha
    rcases hcases a ha with ⟨ha, _⟩ | ha
    · exact h.aligned a ha
    · exact haligned a ha
  · intro a ha
    rcases hcases a ha with ⟨ha, _⟩ | ha
    · exact h.order_lt a ha
    · exact horder a ha
  · intro a ha c hc x hax hcx
    rcases hcases a ha with ⟨ha, hna⟩ | ha <;> rcases hcases c hc with ⟨hc, hnc⟩ | hc
    · exact h.eq_of_covers a ha c hc x hax hcx
    · exact absurd hcx (hapart a ha hna c hc x hax)
    · exact absurd hax (hapart c hc hnc a ha x hcx)
    · exact hnew a ha c hc x hax hcx
  · rintro a ha (⟨hmem, _⟩ | hmem)
    · exact h.disjoint a ha hmem
    · refine hapart a (.inl ha) (fun hold' => h.disjoint a ha (hold hold')) a hmem a.base ?_ ?_
      · exact a.covers_base
      · exact a.covers_base
  · intro x
    rw [h.covered]
    constructor
    · rintro ⟨a, ha, hax⟩
      by_cases hmem : a ∈ old
      · obtain ⟨c, hc, hcx⟩ := (hcover x).mpr ⟨a, hmem, hax⟩
        exact ⟨c, .inr (.inr hc), hcx⟩
      · rcases ha with ha | ha
        · exact ⟨a, .inl ha, hax⟩
        · exact ⟨a, .inr (.inl ⟨ha, hmem⟩), hax⟩
    · rintro ⟨a, ha, hax⟩
      rcases hcases a ha with ⟨ha, _⟩ | ha
      · exact ⟨a, ha, hax⟩
      · obtain ⟨c, hc, hcx⟩ := (hcover x).mp ⟨a, ha, hax⟩
        exact ⟨c, .inr (hold hc), hcx⟩
  · exact h.buddy_notMem

theorem merge (hb : b ∈ alloc) (hbuddy : b.buddy ∈ alloc) (hlt : b.order + 1 < max) :
    Tiling max managed free (alloc \ {b, b.buddy} ∪ {b.parent}) := by
  have haligned := h.aligned b (.inr hb)
  refine h.retile ?_ ?_ ?_ ?_ ?_
  · rintro c (rfl | rfl)
    · exact hb
    · exact hbuddy
  · rintro c rfl
    exact haligned.halves.1
  · rintro c rfl
    exact hlt
  · rintro a rfl c rfl x _ _
    rfl
  · intro x
    simp [haligned.covers_parent]

theorem split (hb : b ∈ alloc) (hpos : 0 < b.order) :
    Tiling max managed free (alloc \ {b} ∪ {b.lower, b.upper}) := by
  have haligned := h.aligned b (.inr hb)
  have hlt := h.order_lt b (.inr hb)
  refine h.retile ?_ ?_ ?_ ?_ ?_
  · rintro c rfl
    exact hb
  · rintro c (rfl | rfl)
    · exact haligned.lower
    · exact haligned.upper
  · rintro c (rfl | rfl) <;> exact Nat.lt_of_le_of_lt (Nat.sub_le _ _) hlt
  · rintro a (rfl | rfl) c (rfl | rfl) x hax hcx
    · rfl
    · exact absurd hcx (Block.not_covers_halves hax)
    · exact absurd hax (Block.not_covers_halves hcx)
    · rfl
  · intro x
    simp [Block.covers_halves hpos]

/-- An aligned block all of whose numbers are free is part of one free block. -/
theorem exists_free (n : Nat) (hn : b.order = n) (hb : b.Aligned) (hlt : n < max)
    (hfree : ∀ x, b.Covers x → ∃ f ∈ free, f.Covers x) :
    ∃ f ∈ free, n ≤ f.order ∧ f.Covers b.base := by
  induction n generalizing b with
  | zero =>
    obtain ⟨f, hf, hcovers⟩ := hfree b.base b.covers_base
    exact ⟨f, hf, Nat.zero_le _, hcovers⟩
  | succ n ih =>
    have hpos : 0 < b.order := by omega
    have hhalf : b.lower.order = n ∧ b.upper.order = n := by
      simp only [Block.lower, Block.upper]
      omega
    obtain ⟨f, hf, hfn, hfb⟩ := ih hhalf.1 hb.lower (by omega)
      fun x hx => hfree x (Block.covers_lower hpos hx)
    obtain ⟨g, hg, hgn, hgb⟩ := ih hhalf.2 hb.upper (by omega)
      fun x hx => hfree x (Block.covers_upper hpos hx)
    by_cases hbig : n + 1 ≤ f.order
    · exact ⟨f, hf, hbig, hfb⟩
    · -- the lower half is a free block, so that its buddy is not: the upper half is inside one
      have hlower : f = b.lower :=
        (h.aligned f (.inl hf)).eq_of_covers hb.lower (by omega) hfb b.lower.covers_base
      have hupper : b.upper ∉ free := by
        have hbuddy : b.lower.buddy = b.upper := by
          rw [← hb.buddy_upper hpos, Block.buddy_buddy]
        rw [← hbuddy, ← hlower]
        exact h.buddy_notMem f hf (by omega)
      have hgbig : n + 1 ≤ g.order := by
        by_contra hsmall
        have hg' : g = b.upper :=
          (h.aligned g (.inl hg)).eq_of_covers hb.upper (by omega) hgb b.upper.covers_base
        exact hupper (hg' ▸ hg)
      exact ⟨g, hg, hgbig, hb.covers_of_le (h.aligned g (.inl hg)) (by omega)
        (Block.covers_upper hpos b.upper.covers_base) hgb b.covers_base⟩

end Tiling

end MinixRt.Lib
