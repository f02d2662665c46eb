import MinixRt.Mm.MapArea

/-!
# Copies between the kernel and the memory of a task

`__mmap_memcpy_vma` goes through the VMAs from the one of the first address on, as long as
they follow each other without a gap, and returns how many bytes it has copied. It reads and
writes the pages of the VMAs in the linear map of the kernel, so protections do not matter.
-/

namespace MinixRt.Mm

open Function Lib

abbrev Byte := BitVec 8

/-- `kmalloc`. No bytes are `ZERO_SIZE_PTR`, and no block is longer than 2^10 pages. -/
def Mem.kmallocSize (m : Mem) (size : Nat) : Bool × Mem :=
  if size = 0 then (true, m) else if 2 ^ 22 < size then (false, m) else m.kmalloc

namespace Vma

def pageOf (v : Vma) (a : Nat) : Option Page := v.page ((a - v.vmStart) / pageSize)

def getByte (v : Vma) (d : Data) (a : Nat) : Byte :=
  match v.pageOf a with
  | none => 0
  | some p => d p (a % pageSize)

def setByte (v : Vma) (d : Data) (a : Nat) (x : Byte) : Data :=
  match v.pageOf a with
  | none => d
  | some p => update d p (update (d p) (a % pageSize) x)

/-- The bytes from `a` on. -/
def setBytes (v : Vma) : Data → Nat → List Byte → Data
  | d, _, [] => d
  | d, a, x :: xs => v.setBytes (v.setByte d a x) (a + 1) xs

end Vma

/-- The loop that copies into them. The second result is what is left. -/
def copyTo : Bool → List Vma → Nat → List Byte → Data → Data × List Byte
  | _, [], _, xs, d => (d, xs)
  | first, v :: vs, start, xs, d =>
    if first = false ∧ start ≠ v.vmStart then (d, xs)
    else
      let n := min xs.length (v.vmEnd - start)
      copyTo false vs (start + n) (xs.drop n) (v.setBytes d start (xs.take n))

def mmapMemcpyToVma (vmas : List Vma) (addr : Nat) (xs : List Byte) (d : Data) : Int × Data :=
  if xs = [] then (-einval, d)
  else
    match findVmaArea addr vmas with
    | none => (0, d)
    | some v =>
      let r := copyTo true (vmas.filter fun u => v.vmStart ≤ u.vmStart) addr xs d
      ((xs.length : Int) - r.2.length, r.1)

section Copy

variable {v : Vma} {vs : List Vma} {d : Data} {q : Page} {a : Nat} {xs : List Byte}

theorem Vma.setBytes_apply_of_ne {o : Nat}
    (h : ∀ i < xs.length, v.pageOf (a + i) = some q → (a + i) % pageSize ≠ o) :
    v.setBytes d a xs q o = d q o := by
  induction xs generalizing d a with
  | nil => rfl
  | cons x xs ih =>
    rw [setBytes, ih fun i hi => ?_]
    · unfold setByte
      cases hp : v.pageOf a with
      | none => rfl
      | some p =>
        simp only
        by_cases hq : q = p
        · subst hq
          have hne : o ≠ a % pageSize := (h 0 (by simp) hp).symm
          rw [update_self, update_of_ne hne]
        · rw [update_of_ne hq]
    · have := h (i + 1) (by simpa using hi)
      rwa [← Nat.add_assoc, Nat.add_right_comm] at this

theorem Vma.setBytes_of_ne (h : ∀ i < xs.length, v.pageOf (a + i) ≠ some q) :
    v.setBytes d a xs q = d q := by
  funext o
  exact setBytes_apply_of_ne fun i hi hp => absurd hp (h i hi)

theorem Vma.getByte_setBytes {i : Nat} (hi : i < xs.length) (hpage : v.pageOf (a + i) = some q)
    (hinj : ∀ j < xs.length, v.pageOf (a + j) = some q → (a + j) % pageSize = (a + i) % pageSize →
      j = i) : v.getByte (v.setBytes d a xs) (a + i) = xs[i] := by
  induction xs generalizing d a i with
  | nil => cases hi
  | cons x xs ih =>
    rw [setBytes]
    cases i with
    | zero =>
      have hpage : v.pageOf a = some q := hpage
      have hrest : ∀ j < xs.length, v.pageOf (a + 1 + j) = some q →
          (a + 1 + j) % pageSize ≠ a % pageSize := by
        intro j hj hp hmod
        rw [Nat.add_assoc, Nat.add_comm 1] at hp hmod
        cases hinj (j + 1) (Nat.succ_lt_succ hj) hp hmod
      show v.getByte _ a = x
      simp only [getByte, hpage, setBytes_apply_of_ne hrest, setByte, update_self]
    | succ i =>
      have heq : ∀ j, a + 1 + j = a + (j + 1) := fun j => by omega
      rw [← heq i] at hpage ⊢
      refine ih (Nat.lt_of_succ_lt_succ hi) hpage fun j hj hp hmod => ?_
      rw [heq, heq] at hmod
      rw [heq] at hp
      exact Nat.succ.inj (hinj (j + 1) (Nat.succ_lt_succ hj) hp hmod)

theorem copyTo_nil (first : Bool) (vs : List Vma) (a : Nat) (d : Data) :
    copyTo first vs a [] d = (d, []) := by
  induction vs generalizing first a d with
  | nil => rfl
  | cons v vs ih =>
    rw [copyTo]
    split_ifs
    · rfl
    · simpa [Vma.setBytes] using ih false a d

theorem copyTo_first (h : a + xs.length ≤ v.vmEnd) :
    copyTo true (v :: vs) a xs d = (v.setBytes d a xs, []) := by
  have hn : min xs.length (v.vmEnd - a) = xs.length := by omega
  rw [copyTo, if_neg (by simp)]
  simp only [hn, List.drop_length, List.take_length]
  exact copyTo_nil ..

end Copy

end MinixRt.Mm
