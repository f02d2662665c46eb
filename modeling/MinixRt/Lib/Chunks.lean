import MinixRt.Lib.Bytes

/-!
# Ranges that lie in pieces in another memory

A range of addresses is cut into chunks, each of which lies in a row in a second memory, the way
a range of virtual addresses lies in physical pages. `Chain loc a z cs` says that the chunks `cs`
are the addresses from `a` to `z`, with `loc` as the place of an address. A loop over the chunks
that may be left early is `overChunks`.

* `copyBytes` is `memcpy` from one store to another.
* `gather` copies the chunks to a buffer and `scatter` copies a buffer to them.
* `strnlen` is the number of bytes before the first zero, with a bound.
-/

namespace MinixRt.Lib

variable {n i : Nat} {m : Store}

/-! ## Copies -/

/-- `dst` after the `n` bytes from `b` on in `src` were copied to `a`. -/
def copyBytes (dst : Store) (a : Nat) (src : Store) (b n : Nat) : Store := fun x =>
  if a ≤ x ∧ x < a + n then src (b + (x - a)) else dst x

variable {dst src : Store}

theorem copyBytes_in {a b : Nat} (h : i < n) : copyBytes dst a src b n (a + i) = src (b + i) := by
  rw [copyBytes, if_pos ⟨Nat.le_add_right _ _, by omega⟩, Nat.add_sub_cancel_left]

theorem copyBytes_out {a b x : Nat} (h : x < a ∨ a + n ≤ x) : copyBytes dst a src b n x = dst x :=
  if_neg (by omega)

/-! ## Strings -/

/-- The number of bytes before the first zero, `n` if there is none among the first `n`. -/
def strnlen (m : Store) : (a n : Nat) → Nat
  | _, 0 => 0
  | a, n + 1 => if m a = 0 then 0 else strnlen m (a + 1) n + 1

theorem strnlen_le (m : Store) (a n : Nat) : strnlen m a n ≤ n := by
  induction n generalizing a with
  | zero => exact le_rfl
  | succ n ih =>
    rw [strnlen]
    split_ifs
    · exact Nat.zero_le _
    · exact Nat.succ_le_succ (ih _)

variable {a : Nat}

theorem ne_zero_of_lt_strnlen (h : i < strnlen m a n) : m (a + i) ≠ 0 := by
  induction n generalizing a i with
  | zero => exact absurd h (Nat.not_lt_zero _)
  | succ n ih =>
    rw [strnlen] at h
    split_ifs at h with hz
    · exact absurd h (Nat.not_lt_zero _)
    · cases i with
      | zero => exact hz
      | succ =>
        have := ih (Nat.lt_of_succ_lt_succ h)
        rwa [Nat.add_right_comm] at this

theorem eq_zero_of_strnlen_lt (h : strnlen m a n < n) : m (a + strnlen m a n) = 0 := by
  induction n generalizing a with
  | zero => exact absurd h (Nat.not_lt_zero _)
  | succ n ih =>
    rw [strnlen] at h ⊢
    split_ifs at h ⊢ with hz
    · exact hz
    · have := ih (Nat.lt_of_succ_lt_succ h)
      rwa [Nat.add_right_comm] at this

theorem strnlen_eq {a k : Nat} (hk : k < n) (hne : ∀ i < k, m (a + i) ≠ 0) (hz : m (a + k) = 0) :
    strnlen m a n = k := by
  rcases Nat.lt_trichotomy (strnlen m a n) k with h | h | h
  · exact absurd (eq_zero_of_strnlen_lt (h.trans hk)) (hne _ h)
  · exact h
  · exact absurd hz (ne_zero_of_lt_strnlen h)

theorem strnlen_eq_of_ne (hne : ∀ i < n, m (a + i) ≠ 0) : strnlen m a n = n := by
  by_contra h
  have hlt := lt_of_le_of_ne (strnlen_le m a n) h
  exact hne _ hlt (eq_zero_of_strnlen_lt hlt)

/-! ## Chunks -/

/-- The chunks `cs`, each a place and a length, are the addresses from `a` to `z`. -/
def Chain (loc : Nat → Option Nat) : (a z : Nat) → List (Nat × Nat) → Prop
  | a, z, [] => a = z
  | a, z, (x, n) :: cs =>
    0 < n ∧ (∀ i < n, loc (a + i) = some (x + i)) ∧ Chain loc (a + n) z cs

/-- A loop over chunks that ends when its body says so. -/
def overChunks {σ : Type} (body : Nat → Nat → σ → σ × Bool) : List (Nat × Nat) → σ → σ × Bool
  | [], s => (s, false)
  | (x, n) :: cs, s =>
    match body x n s with
    | (s, true) => (s, true)
    | (s, false) => overChunks body cs s

section Chain

variable {loc : Nat → Option Nat} {a b z : Nat} {cs ds : List (Nat × Nat)} {σ : Type}
  {body : Nat → Nat → σ → σ × Bool}

theorem Chain.le (h : Chain loc a z cs) : a ≤ z := by
  induction cs generalizing a with
  | nil => exact h.le
  | cons c cs ih => exact (Nat.le_add_right _ _).trans (ih h.2.2)

theorem Chain.append (h : Chain loc a b cs) (h' : Chain loc b z ds) : Chain loc a z (cs ++ ds) := by
  induction cs generalizing a with
  | nil =>
    obtain rfl : a = b := h
    exact h'
  | cons c cs ih => exact ⟨h.1, h.2.1, ih h.2.2⟩

theorem Chain.mapped (h : Chain loc a z cs) (hi : a + i < z) : loc (a + i) ≠ none := by
  induction cs generalizing a i with
  | nil =>
    obtain rfl : a = z := h
    omega
  | cons c cs ih =>
    by_cases hc : i < c.2
    · rw [h.2.1 i hc]
      nofun
    · have := ih h.2.2 (show a + c.2 + (i - c.2) < z by omega)
      rwa [show a + c.2 + (i - c.2) = a + i by omega] at this

theorem overChunks_append (s : σ) : overChunks body (cs ++ ds) s = match overChunks body cs s with
    | (s, true) => (s, true)
    | (s, false) => overChunks body ds s := by
  induction cs generalizing s with
  | nil => rfl
  | cons c cs ih =>
    simp only [List.cons_append, overChunks]
    split
    · rfl
    · exact ih _

end Chain

/-! ## Copies of chunks -/

/-- `buf` after the chunks in `mem` were copied to it one behind the other, from `pos` on. -/
def gather (mem : Store) : List (Nat × Nat) → (buf : Store) → (pos : Nat) → Store
  | [], buf, _ => buf
  | (x, n) :: cs, buf, pos => gather mem cs (copyBytes buf pos mem x n) (pos + n)

/-- `mem` after `buf` was copied to the chunks, from `pos` on. -/
def scatter (buf : Store) : List (Nat × Nat) → (mem : Store) → (pos : Nat) → Store
  | [], mem, _ => mem
  | (x, n) :: cs, mem, pos => scatter buf cs (copyBytes mem x buf pos n) (pos + n)

section Copies

variable {loc : Nat → Option Nat} {a z pos x y : Nat} {cs : List (Nat × Nat)} {mem buf : Store}

theorem Chain.gather_out (h : Chain loc a z cs) (hx : x < pos ∨ pos + (z - a) ≤ x) :
    gather mem cs buf pos x = buf x := by
  induction cs generalizing a pos buf with
  | nil => rfl
  | cons c cs ih =>
    have hle := h.2.2.le
    rw [gather, ih h.2.2 (by omega), copyBytes_out (by omega)]

theorem Chain.gather_in (h : Chain loc a z cs) (hi : a + i < z) (hy : loc (a + i) = some y) :
    gather mem cs buf pos (pos + i) = mem y := by
  induction cs generalizing a pos buf i with
  | nil =>
    obtain rfl : a = z := h
    omega
  | cons c cs ih =>
    rw [gather]
    by_cases hc : i < c.2
    · rw [h.2.2.gather_out (.inl (by omega)), copyBytes_in hc]
      rw [h.2.1 i hc] at hy
      rw [Option.some.inj hy]
    · have hnext : a + c.2 + (i - c.2) = a + i := by omega
      rw [show pos + i = pos + c.2 + (i - c.2) by omega]
      exact ih h.2.2 (by omega) (by rw [hnext, hy])

theorem Chain.scatter_out (h : Chain loc a z cs) (hy : ∀ i, a + i < z → loc (a + i) ≠ some y) :
    scatter buf cs mem pos y = mem y := by
  induction cs generalizing a pos mem with
  | nil => rfl
  | cons c cs ih =>
    have hle := h.2.2.le
    rw [scatter, ih h.2.2 fun i hi => ?_, copyBytes_out ?_]
    · by_contra hin
      have hloc := h.2.1 (y - c.1) (by omega)
      refine hy (y - c.1) (by omega) (hloc.trans (congrArg some ?_))
      omega
    · have := hy (c.2 + i) (by omega)
      rwa [← Nat.add_assoc] at this

theorem Chain.scatter_in (h : Chain loc a z cs)
    (hinj : ∀ i j y, loc i = some y → loc j = some y → i = j) (hi : a + i < z)
    (hy : loc (a + i) = some y) : scatter buf cs mem pos y = buf (pos + i) := by
  induction cs generalizing a pos mem i with
  | nil =>
    obtain rfl : a = z := h
    omega
  | cons c cs ih =>
    rw [scatter]
    by_cases hc : i < c.2
    · rw [h.2.2.scatter_out fun j _ hj => ?_]
      · rw [h.2.1 i hc] at hy
        rw [← Option.some.inj hy, copyBytes_in hc]
      · have := hinj _ _ y hy hj
        omega
    · have hnext : a + c.2 + (i - c.2) = a + i := by omega
      rw [show pos + i = pos + c.2 + (i - c.2) by omega]
      exact ih h.2.2 (by omega) (by rw [hnext, hy])

end Copies

end MinixRt.Lib
