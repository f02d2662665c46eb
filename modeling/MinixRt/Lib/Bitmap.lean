import Mathlib.Data.Nat.Bitwise

/-!
# Bitmaps in 64-bit words

A memory of words read as one sequence of bits: `get` and `set` address a bit by its number, and
`fls` is the highest bit of a word.
-/

namespace MinixRt.Lib

open Function

/-- Words of memory from some address on. -/
abbrev Bitmap := Nat → BitVec 64

namespace Bitmap

variable {m : Bitmap} {nr i : Nat}

def get (m : Bitmap) (nr : Nat) : Bool := (m (nr / 64)).getLsbD (nr % 64)

def set (m : Bitmap) (nr : Nat) : Bitmap :=
  update m (nr / 64) (m (nr / 64) ||| BitVec.twoPow 64 (nr % 64))

theorem get_set (m : Bitmap) (nr i : Nat) : (m.set nr).get i = (m.get i || decide (nr = i)) := by
  unfold get set
  by_cases hw : i / 64 = nr / 64
  · rw [hw, update_self, BitVec.getLsbD_or, BitVec.getLsbD_twoPow,
      decide_eq_true (Nat.mod_lt nr (by decide)), Bool.true_and]
    congr 1
    rw [decide_eq_decide]
    constructor
    · intro hb
      rw [← Nat.div_add_mod nr 64, ← Nat.div_add_mod i 64, hw, hb]
    · rintro rfl
      rfl
  · have hne : nr ≠ i := fun heq => hw (heq ▸ rfl)
    rw [update_of_ne hw, decide_eq_false hne, Bool.or_false]

theorem get_set_self (m : Bitmap) (nr : Nat) : (m.set nr).get nr = true := by
  rw [get_set, decide_eq_true rfl, Bool.or_true]

theorem set_of_ne (h : i ≠ nr / 64) : m.set nr i = m i := update_of_ne h _ _

/-- The highest bit of a word that is not zero. -/
def fls (w : BitVec 64) : Nat := Nat.log2 w.toNat

variable {w : BitVec 64}

theorem fls_lt (h : w ≠ 0) : fls w < 64 := by
  have hne : w.toNat ≠ 0 := fun hz => h (BitVec.eq_of_toNat_eq hz)
  exact (Nat.log2_lt hne).mpr w.isLt

theorem getLsbD_fls (h : w ≠ 0) : w.getLsbD (fls w) = true := by
  have hne : w.toNat ≠ 0 := fun hz => h (BitVec.eq_of_toNat_eq hz)
  exact Nat.testBit_log2 hne

theorem getLsbD_of_fls_lt (h : fls w < i) : w.getLsbD i = false := by
  apply Nat.testBit_lt_two_pow
  exact Nat.lt_of_lt_of_le Nat.lt_log2_self (Nat.pow_le_pow_right (by decide) h)

variable {idx : Nat}

/-- A word that is not zero holds the highest bit of the words up to its own. -/
theorem get_fls (h : m idx ≠ 0) : m.get (idx * 64 + fls (m idx)) = true ∧
      ∀ i, idx * 64 + fls (m idx) < i → i < (idx + 1) * 64 → m.get i = false := by
  have hlt := fls_lt h
  constructor
  · have hdiv : (idx * 64 + fls (m idx)) / 64 = idx := by omega
    have hmod : (idx * 64 + fls (m idx)) % 64 = fls (m idx) := by omega
    rw [get, hdiv, hmod, getLsbD_fls h]
  · intro i hi hend
    have hdiv : i / 64 = idx := by omega
    rw [get, hdiv]
    apply getLsbD_of_fls_lt
    omega

theorem get_of_zero (h : m idx = 0) (hi : i / 64 = idx) : m.get i = false := by
  rw [get, hi, h]
  exact BitVec.getLsbD_zero

end Bitmap

end MinixRt.Lib
