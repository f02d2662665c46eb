import Mathlib.Algebra.BigOperators.Group.List.Basic
import MinixRt.Lib.Bytes

/-!
# Writing one piece after the other

A cursor is a place in a store and the list of the writes so far. A piece is written at the place
of the cursor, which then moves on by the size of the piece. What `putAll` writes lies there at the end
(`laid_putAll`), and every write is between the first place of the cursor and the last.
-/

namespace MinixRt.Lib

/-! ## Contents -/

/-- The bytes of a little-endian number. -/
def leBytes (n v : Nat) : List (BitVec 8) := (List.range n).map fun i => BitVec.ofNat 8 (v / 256 ^ i)

@[simp] theorem length_leBytes (n v : Nat) : (leBytes n v).length = n := by simp [leBytes]

@[simp] theorem getElem_leBytes (n v i : Nat) (h : i < (leBytes n v).length) :
    (leBytes n v)[i] = BitVec.ofNat 8 (v / 256 ^ i) := by simp [leBytes]

/-- The memory has the bytes `xs` at `a`. -/
def Holds (m : Nat → Option (BitVec 8)) (a : Nat) (xs : List (BitVec 8)) : Prop :=
  ∀ i (h : i < xs.length), m (a + i) = some xs[i]

section Holds

variable {m : Nat → Option (BitVec 8)} {a : Nat} {xs ys : List (BitVec 8)}

theorem Holds.of_eq {b : Nat} (h : Holds m a xs) (heq : b = a) : Holds m b xs := heq ▸ h

theorem Holds.congr {m' : Nat → Option (BitVec 8)} (h : Holds m a xs)
    (hm : ∀ i < xs.length, m' (a + i) = m (a + i)) : Holds m' a xs := fun i hi => by
  rw [hm i hi, h i hi]

theorem holds_append : Holds m a (xs ++ ys) ↔ Holds m a xs ∧ Holds m (a + xs.length) ys := by
  constructor
  · intro h
    constructor
    · intro i hi
      rw [h i (by rw [List.length_append]; omega), List.getElem_append_left hi]
    · intro i hi
      rw [Nat.add_assoc, h (xs.length + i) (by rw [List.length_append]; omega),
        List.getElem_append_right (by omega)]
      simp
  · rintro ⟨hx, hy⟩ i hi
    rw [List.length_append] at hi
    by_cases hlt : i < xs.length
    · rw [hx i hlt, List.getElem_append_left hlt]
    · rw [List.getElem_append_right (by omega), ← hy (i - xs.length) (by omega)]
      congr 1
      omega

theorem holds_flatMap {n : Nat} {vs : List Nat} (h : Holds m a (vs.flatMap (leBytes n))) (i : Nat)
    (hi : i < vs.length) : Holds m (a + n * i) (leBytes n vs[i]) := by
  induction vs generalizing a i with
  | nil => cases hi
  | cons v vs ih =>
    rw [List.flatMap_cons, holds_append, length_leBytes] at h
    cases i with
    | zero => exact h.1
    | succ i =>
      have hplace : a + n + n * i = a + n * (i + 1) := by
        rw [Nat.mul_succ]
        omega
      rw [← hplace]
      exact ih h.2 i (Nat.lt_of_succ_lt_succ hi)

end Holds

/-! ## Pieces -/

/-- Bytes to be written, and how far to go on. -/
structure Piece where
  bytes : List (BitVec 8)
  size : Nat
  fits : bytes.length ≤ size

def Piece.total (ps : List Piece) : Nat := (ps.map Piece.size).sum

@[simp] theorem Piece.total_nil : Piece.total [] = 0 := rfl

@[simp] theorem Piece.total_cons (p : Piece) (ps : List Piece) :
    Piece.total (p :: ps) = p.size + Piece.total ps := by simp [Piece.total]

@[simp] theorem Piece.total_append (ps qs : List Piece) :
    Piece.total (ps ++ qs) = Piece.total ps + Piece.total qs := by simp [Piece.total]

/-- The pieces lie one after the other from `a` on. -/
def Laid (m : Nat → Option (BitVec 8)) : Nat → List Piece → Prop
  | _, [] => True
  | a, p :: ps => Holds m a p.bytes ∧ Laid m (a + p.size) ps

section Laid

variable {m m' : Nat → Option (BitVec 8)} {a b : Nat} {ps qs : List Piece}

theorem laid_append : Laid m a (ps ++ qs) ↔ Laid m a ps ∧ Laid m (a + Piece.total ps) qs := by
  induction ps generalizing a with
  | nil => simp [Laid]
  | cons p ps ih => rw [List.cons_append, Laid, Laid, ih, and_assoc, Piece.total_cons, Nat.add_assoc]

theorem Laid.move (h : Laid m a ps) (hm : ∀ j < Piece.total ps, m' (b + j) = m (a + j)) :
    Laid m' b ps := by
  induction ps generalizing a b with
  | nil => trivial
  | cons p ps ih =>
    rw [Piece.total_cons] at hm
    refine ⟨fun i hi => ?_, ih h.2 fun j hj => ?_⟩
    · have := p.fits
      rw [hm i (by omega), h.1 i hi]
    · rw [Nat.add_assoc, Nat.add_assoc, hm _ (by omega)]

end Laid

structure Cursor where
  addr : Nat
  mem : Store
  /-- The address and the length of each write. -/
  writes : List (Nat × Nat)

namespace Cursor

variable {c : Cursor} {p : Piece} {ps : List Piece} {a : Nat}

def put (c : Cursor) (p : Piece) : Cursor where
  addr := c.addr + p.size
  mem a := if c.addr ≤ a then (p.bytes[a - c.addr]?).getD (c.mem a) else c.mem a
  writes := c.writes ++ [(c.addr, p.bytes.length)]

def putAll (c : Cursor) (ps : List Piece) : Cursor := ps.foldl put c

@[simp] theorem putAll_nil (c : Cursor) : c.putAll [] = c := rfl

@[simp] theorem putAll_cons (c : Cursor) (p : Piece) (ps : List Piece) :
    c.putAll (p :: ps) = (c.put p).putAll ps := rfl

theorem putAll_append (c : Cursor) (ps qs : List Piece) :
    c.putAll (ps ++ qs) = (c.putAll ps).putAll qs := List.foldl_append ..

theorem putAll_addr (c : Cursor) (ps : List Piece) :
    (c.putAll ps).addr = c.addr + Piece.total ps := by
  induction ps generalizing c with
  | nil => rfl
  | cons p ps ih => rw [putAll_cons, ih, Piece.total_cons, ← Nat.add_assoc, put]

theorem putAll_mem_of_lt (h : a < c.addr) : (c.putAll ps).mem a = c.mem a := by
  induction ps generalizing c with
  | nil => rfl
  | cons p ps ih =>
    rw [putAll_cons, ih (c := c.put p) (Nat.lt_add_right _ h), put]
    exact if_neg (Nat.not_le.mpr h)

theorem put_mem (c : Cursor) (p : Piece) (i : Nat) (h : i < p.bytes.length) :
    (c.put p).mem (c.addr + i) = p.bytes[i] := by
  rw [put]
  simp only [Nat.le_add_right, if_true, Nat.add_sub_cancel_left, List.getElem?_eq_getElem h,
    Option.getD_some]

theorem laid_putAll (c : Cursor) (ps : List Piece) :
    Laid (fun a => some ((c.putAll ps).mem a)) c.addr ps := by
  induction ps generalizing c with
  | nil => trivial
  | cons p ps ih =>
    refine ⟨fun i hi => congrArg some ?_, ih (c.put p)⟩
    have hlt : c.addr + i < (c.put p).addr := by
      have := p.fits
      show c.addr + i < c.addr + p.size
      omega
    rw [putAll_cons, putAll_mem_of_lt hlt, put_mem c p i hi]

theorem putAll_writes (c : Cursor) (ps : List Piece) {w : Nat × Nat}
    (hw : w ∈ (c.putAll ps).writes) :
    w ∈ c.writes ∨ c.addr ≤ w.1 ∧ w.1 + w.2 ≤ c.addr + Piece.total ps := by
  induction ps generalizing c with
  | nil => exact .inl hw
  | cons p ps ih =>
    rw [Piece.total_cons]
    rcases ih (c.put p) hw with hput | ⟨hle, hend⟩
    · rcases List.mem_append.mp hput with hold | hnew
      · exact .inl hold
      · rw [List.mem_singleton.mp hnew]
        have := p.fits
        exact .inr ⟨Nat.le_refl _, by omega⟩
    · have : (c.put p).addr = c.addr + p.size := rfl
      exact .inr ⟨by omega, by omega⟩

theorem putAll_getLast (c : Cursor) (ps : List Piece) (p : Piece) :
    (c.putAll (ps ++ [p])).writes.getLast? = some (c.addr + Piece.total ps, p.bytes.length) := by
  rw [putAll_append, putAll_cons, putAll_nil, put, List.getLast?_concat, putAll_addr]

end Cursor

end MinixRt.Lib
