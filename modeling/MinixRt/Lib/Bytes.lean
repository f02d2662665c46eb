import Mathlib.Data.List.Pairwise
import Mathlib.Algebra.Order.Ring.Nat

/-!
# Numbers stored in bytes

A store is a map from addresses to bytes. `getLE` reads a little-endian number of a given
number of bytes and `putLE` writes one. A record is written field by field with `putAll`;
when its fields do not overlap, every field is read back as it was written
(`getLE_putAll`).
-/

namespace MinixRt.Lib

abbrev Store := Nat → BitVec 8

variable {n a v x : Nat} {m : Store}

/-- The number in the `n` bytes from `a` on, the first byte lowest. -/
def getLE (m : Store) (a : Nat) : Nat → Nat
  | 0 => 0
  | n + 1 => (m a).toNat + 256 * getLE m (a + 1) n

/-- The number `v` in the `n` bytes from `a` on. -/
def putLE (m : Store) (a n v : Nat) : Store := fun x =>
  if a ≤ x ∧ x < a + n then BitVec.ofNat 8 (v / 256 ^ (x - a)) else m x

theorem putLE_of_lt (h : x < a) : putLE m a n v x = m x :=
  if_neg (by omega)

theorem putLE_of_ge (h : a + n ≤ x) : putLE m a n v x = m x :=
  if_neg (by omega)

theorem getLE_congr {m' : Store} (h : ∀ x, a ≤ x → x < a + n → m x = m' x) :
    getLE m a n = getLE m' a n := by
  induction n generalizing a with
  | zero => rfl
  | succ n ih =>
    rw [getLE, getLE, h a (by omega) (by omega), ih]
    intro x hx hx'
    exact h x (by omega) (by omega)

theorem getLE_putLE_self (hv : v < 256 ^ n) : getLE (putLE m a n v) a n = v := by
  induction n generalizing a v m with
  | zero =>
    rw [Nat.pow_zero, Nat.lt_one_iff] at hv
    rw [hv, getLE]
  | succ n ih =>
    have hrest : getLE (putLE m a (n + 1) v) (a + 1) n = v / 256 := by
      rw [← ih (m := m) (a := a + 1) (v := v / 256)]
      · refine getLE_congr fun x hx hx' => ?_
        rw [putLE, putLE, if_pos (by omega), if_pos (by omega), Nat.div_div_eq_div_mul,
          ← Nat.pow_succ', show (x - (a + 1)).succ = x - a by omega]
      · rw [Nat.pow_succ] at hv
        omega
    have hfirst : (putLE m a (n + 1) v a).toNat = v % 256 := by
      rw [putLE, if_pos (by omega), Nat.sub_self, Nat.pow_zero, Nat.div_one, BitVec.toNat_ofNat]
    rw [getLE, hrest, hfirst]
    omega

theorem getLE_lt (m : Store) (a n : Nat) : getLE m a n < 256 ^ n := by
  induction n generalizing a with
  | zero => exact Nat.one_pos
  | succ n ih =>
    have hbyte := (m a).isLt
    have hrest := ih (a + 1)
    rw [getLE, Nat.pow_succ]
    omega

theorem getLE_div (m : Store) (a : Nat) {j : Nat} (hj : j < n) :
    getLE m a n / 256 ^ j % 256 = (m (a + j)).toNat := by
  induction j generalizing a n with
  | zero =>
    obtain ⟨n, rfl⟩ := Nat.exists_eq_succ_of_ne_zero hj.ne'
    have hbyte := (m a).isLt
    rw [getLE, Nat.pow_zero, Nat.div_one, Nat.add_zero a]
    omega
  | succ j ih =>
    obtain ⟨n, rfl⟩ := Nat.exists_eq_succ_of_ne_zero (Nat.ne_zero_of_lt hj)
    have hbyte := (m a).isLt
    rw [getLE, Nat.pow_succ', ← Nat.div_div_eq_div_mul,
      show ((m a).toNat + 256 * getLE m (a + 1) n) / 256 = getLE m (a + 1) n by omega,
      ih (a + 1) (Nat.lt_of_succ_lt_succ hj), Nat.add_right_comm, Nat.add_assoc]

theorem getLE_add (m : Store) (a n k : Nat) :
    getLE m a (n + k) = getLE m a n + 256 ^ n * getLE m (a + n) k := by
  induction n generalizing a with
  | zero => rw [Nat.zero_add, getLE, Nat.pow_zero, Nat.one_mul, Nat.zero_add, Nat.add_zero]
  | succ n ih =>
    rw [Nat.add_right_comm, getLE, getLE, ih, Nat.pow_succ', show a + (n + 1) = a + 1 + n by omega,
      Nat.mul_add, Nat.mul_assoc, ← Nat.add_assoc (m a).toNat]

/-! ## Records -/

/-- A field of a record: its offset, its size and what is written. -/
structure Field where
  off : Nat
  size : Nat
  val : Nat

/-- The fields have no byte in common. -/
def Field.Apart (f g : Field) : Prop := f.off + f.size ≤ g.off ∨ g.off + g.size ≤ f.off

/-- Where a field lies, whatever is written. -/
def Field.shape (f : Field) : Nat × Nat := (f.off, f.size)

variable {fs : List Field}

theorem Field.apart_of_shape (h : (fs.map Field.shape).Pairwise
    fun a b => a.1 + a.2 ≤ b.1 ∨ b.1 + b.2 ≤ a.1) : fs.Pairwise Field.Apart := by
  rwa [List.pairwise_map] at h

/-- The fields are written in order. -/
def putAll (m : Store) (base : Nat) : List Field → Store
  | [] => m
  | f :: fs => putAll (putLE m (base + f.off) f.size f.val) base fs

theorem putAll_append (m : Store) (base : Nat) (fs gs : List Field) :
    putAll m base (fs ++ gs) = putAll (putAll m base fs) base gs := by
  induction fs generalizing m with
  | nil => rfl
  | cons f fs ih => exact ih _

variable {base : Nat}

theorem putAll_apart (h : ∀ f ∈ fs, x < base + f.off ∨ base + f.off + f.size ≤ x) :
    putAll m base fs x = m x := by
  induction fs generalizing m with
  | nil => rfl
  | cons f fs ih =>
    rw [putAll, ih fun g hg => h g (List.mem_cons_of_mem _ hg)]
    rcases h f (by simp) with hlt | hge
    · exact putLE_of_lt hlt
    · exact putLE_of_ge hge

/-- Fields that do not overlap are read back as they were written. -/
theorem getLE_putAll (hfs : fs.Pairwise Field.Apart) {f : Field} (hf : f ∈ fs)
    (hv : f.val < 256 ^ f.size) : getLE (putAll m base fs) (base + f.off) f.size = f.val := by
  induction fs generalizing m with
  | nil => cases hf
  | cons g fs ih =>
    obtain ⟨hg, hrest⟩ := List.pairwise_cons.mp hfs
    rcases List.mem_cons.mp hf with rfl | hf
    · have hsame : getLE (putAll m base (f :: fs)) (base + f.off) f.size =
          getLE (putLE m (base + f.off) f.size f.val) (base + f.off) f.size := by
        refine getLE_congr fun x hx hx' => ?_
        rw [putAll]
        refine putAll_apart fun h hh => ?_
        rcases hg h hh with hlt | hge
        · exact .inl (by omega)
        · exact .inr (by omega)
      rw [hsame, getLE_putLE_self hv]
    · exact ih hrest hf

end MinixRt.Lib
