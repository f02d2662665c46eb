import Mathlib.Tactic.Ring

/-!
# Radix trees kept in memory

A radix tree with fan-out `F` maps numbers to leaves through tables of `F` cells. A table
is a page of the memory `mem`; a cell of a table above the lowest level is empty or holds
the descriptor of a table one level down, and a cell of a lowest table is a leaf.

`Stored` describes the tree by the family `P` of its tables: `P l k` is the page of the
`k`-th table of level `l`, the one that the `k`-th cell of level `l + 1` points to. It says
nothing recursive, so an operation on one cell needs an argument about that cell only:
`Stored.setLeaf`, `Stored.add` and `Stored.remove`. `lookup` is the walk down the tables
and gives the leaf.

`walk` is the loop of a range walk over the cells of one table, cut at the multiples of
the cell's span by `blockEnd`. `walk_spec` is its invariant rule.
-/

namespace MinixRt.Lib.Radix

open Function

variable {l k i n : Nat}

/-! ## Ranges cut into blocks -/

/-- The end of the block of size `S` that holds `a`, or `stop` if that comes first. -/
def blockEnd (S a stop : Nat) : Nat :=
  let boundary := (a + S) / S * S
  if boundary - 1 < stop - 1 then boundary else stop

section Block

variable {S a stop : Nat}

variable (hS : 0 < S)
include hS

theorem boundary_eq : (a + S) / S * S = (a / S + 1) * S := by
  rw [Nat.add_div_right a hS]

theorem lt_boundary : a < (a / S + 1) * S := by
  rw [mul_comm]
  exact Nat.lt_mul_div_succ a hS

theorem blockEnd_eq : blockEnd S a stop = min ((a / S + 1) * S) stop := by
  have hb := lt_boundary (a := a) hS
  simp only [blockEnd, boundary_eq hS]
  split <;> omega

theorem lt_blockEnd (h : a < stop) : a < blockEnd S a stop := by
  have hb := lt_boundary (a := a) hS
  rw [blockEnd_eq hS]
  omega

theorem blockEnd_le : blockEnd S a stop ≤ stop := by
  rw [blockEnd_eq hS]
  omega

theorem blockEnd_of_ne (hne : blockEnd S a stop ≠ stop) : blockEnd S a stop = (a / S + 1) * S := by
  rw [blockEnd_eq hS] at hne ⊢
  omega

theorem dvd_blockEnd {u : Nat} (hu : u ∣ S) (hstop : u ∣ stop) : u ∣ blockEnd S a stop := by
  rw [blockEnd_eq hS]
  rcases min_choice ((a / S + 1) * S) stop with hm | hm <;> rw [hm]
  · exact Dvd.dvd.mul_left hu _
  · exact hstop

theorem div_eq_of_mem_block {x : Nat} (hax : a ≤ x) (hx : x < (a / S + 1) * S) : x / S = a / S := by
  refine le_antisymm ?_ (Nat.div_le_div_right hax)
  exact Nat.lt_succ_iff.mp ((Nat.div_lt_iff_lt_mul hS).mpr hx)

end Block

/-! ## The loop over the cells of a table -/

section Walk

variable {σ : Type}

/-- `do { body } while (cell++, addr = next, addr != stop)` from cell `i`, with `left` cells
to the end of the table. A non-zero result of the body ends the loop. The loop has no
result when it leaves the table. -/
def walk (next : Nat → Nat → Nat) (body : Nat → Nat → Nat → σ → Option (Int × σ)) :
    Nat → Nat → Nat → Nat → σ → Option (Int × σ)
  | 0, _, _, _, _ => none
  | left + 1, i, addr, stop, s =>
    match body i addr (next addr stop) s with
    | none => none
    | some (ret, s') =>
      if ret ≠ 0 then some (ret, s')
      else if next addr stop = stop then some (0, s')
      else walk next body left (i + 1) (next addr stop) stop s'

variable {S F stop : Nat} {next : Nat → Nat → Nat}
  {body : Nat → Nat → Nat → σ → Option (Int × σ)}

/-- The invariant rule: `I a` holds when the loop has come to address `a`, and `E` when the
body has failed. The cells are numbered, `base` is the number of the table's first one;
addresses are multiples of `u`. -/
theorem walk_spec {I : Nat → σ → Prop} {E : Int → σ → Prop} (base : Nat) {u : Nat} (hS : 0 < S)
    (hu : u ∣ S) (hnext : ∀ a, a < stop → u ∣ a → next a stop = blockEnd S a stop)
    (hfit : stop ≤ (base + F) * S) (hstop : u ∣ stop)
    (hbody : ∀ i a b s, I a s → a < b → b = min ((a / S + 1) * S) stop → u ∣ a → u ∣ b →
      a / S = base + i → i < F →
      ∃ ret s', body i a b s = some (ret, s') ∧ (ret = 0 → I b s') ∧ (ret ≠ 0 → E ret s')) :
    ∀ left i a s, I a s → a < stop → u ∣ a → a / S = base + i → i + left = F →
      ∃ ret s', walk next body left i a stop s = some (ret, s') ∧
        (ret = 0 → I stop s') ∧ (ret ≠ 0 → E ret s') := by
  intro left
  induction left with
  | zero =>
    -- the loop cannot have come to the end of the table
    intro i a s _ ha _ hi hF
    have : a / S < base + F := (Nat.div_lt_iff_lt_mul hS).mpr (ha.trans_le hfit)
    omega
  | succ left ih =>
    intro i a s hI ha hua hi hF
    have hbe := hnext a ha hua
    have hle : next a stop ≤ stop := by
      rw [hbe]
      exact blockEnd_le hS
    have hub : u ∣ next a stop := by
      rw [hbe]
      exact dvd_blockEnd hS hu hstop
    obtain ⟨ret, s', hs', hzero, herr⟩ := hbody i a (next a stop) s hI
      (by rw [hbe]; exact lt_blockEnd hS ha) (by rw [hbe, blockEnd_eq hS]) hua hub hi (by omega)
    simp only [walk, hs']
    by_cases hret : ret = 0
    · rw [if_neg (by simpa using hret)]
      by_cases hn : next a stop = stop
      · rw [if_pos hn]
        refine ⟨0, s', rfl, fun _ => ?_, fun h => absurd rfl h⟩
        have := hzero hret
        rwa [hn] at this
      · rw [if_neg hn]
        have heq : next a stop = (a / S + 1) * S := by
          rw [hbe]
          exact blockEnd_of_ne hS (by rwa [hbe] at hn)
        refine ih (i + 1) (next a stop) s' (hzero hret) (lt_of_le_of_ne hle hn) hub ?_ (by omega)
        rw [heq, Nat.mul_div_cancel _ hS]
        omega
    · rw [if_pos (by simpa using hret)]
      exact ⟨ret, s', rfl, fun h => absurd h hret, fun _ => herr hret⟩

end Walk

/-! ## Trees in memory -/

section Stored

variable {π ε : Type}

section Cells

variable [DecidableEq π]

/-- The memory after a store to cell `i` of page `t`. -/
def setCell (mem : π → Nat → Option ε) (t : π) (i : Nat) (v : Option ε) : π → Nat → Option ε :=
  update mem t (update (mem t) i v)

theorem setCell_self (mem : π → Nat → Option ε) (t : π) (i : Nat) (v : Option ε) :
    setCell mem t i v t i = v := by
  simp [setCell]

variable {mem : π → Nat → Option ε} {v : Option ε} {t q : π}

theorem setCell_of_ne {j : Nat} (h : q ≠ t ∨ j ≠ i) : setCell mem t i v q j = mem q j := by
  by_cases hq : q = t
  · subst hq
    have hj : j ≠ i := h.resolve_left fun h => h rfl
    simp [setCell, hj]
  · simp [setCell, hq]

theorem setCell_page (h : q ≠ t) : setCell mem t i v q = mem q := by
  simp [setCell, h]

end Cells

/-- The family with another table at one place. -/
def setTable (P : Nat → Nat → Option π) (l k : Nat) (p : Option π) : Nat → Nat → Option π :=
  fun l' k' => if l' = l ∧ k' = k then p else P l' k'

@[simp] theorem setTable_self (P : Nat → Nat → Option π) (l k : Nat) (p : Option π) :
    setTable P l k p l k = p := by
  simp [setTable]

theorem setTable_of_ne {P : Nat → Nat → Option π} {l' k' : Nat} {p : Option π}
    (h : l' ≠ l ∨ k' ≠ k) : setTable P l k p l' k' = P l' k' := by
  refine if_neg fun hc => ?_
  rcases h with h | h
  · exact h hc.1
  · exact h hc.2

theorem setTable_of_some {P : Nat → Nat → Option π} {l' k' : Nat} {p : Option π} {q : π}
    (hq : P l' k' = some q) (h : P l k ≠ some q) : setTable P l k p l' k' = some q := by
  rw [setTable_of_ne, hq]
  by_contra hc
  push Not at hc
  exact h (hc.1 ▸ hc.2 ▸ hq)

/-- The memory holds the tree with tables `P` and leaves `L`; `H` is the level of the root
table and `desc` makes the descriptor of a table. -/
structure Stored (F H : Nat) (desc : π → ε) (mem : π → Nat → Option ε)
    (P : Nat → Nat → Option π) (L : Nat → Option ε) : Prop where
  inner : ∀ l k t, P (l + 1) k = some t → ∀ i < F, mem t i = (P l (k * F + i)).map desc
  leaf : ∀ k t, P 0 k = some t → ∀ i < F, mem t i = L (k * F + i)
  parent : ∀ l k, l < H → P l k ≠ none → P (l + 1) (k / F) ≠ none
  height : ∀ l k, P l k ≠ none → l ≤ H
  inj : ∀ l k l' k' t, P l k = some t → P l' k' = some t → l = l' ∧ k = k'
  empty : ∀ n, P 0 (n / F) = none → L n = none

/-- The walk down from table `t` of level `l` to the leaf `n`; `target` reads a descriptor. -/
def lookup (F : Nat) (target : ε → Option π) (mem : π → Nat → Option ε) :
    Nat → π → Nat → Option ε
  | 0, t, n => mem t (n % F)
  | l + 1, t, n =>
    ((mem t (n / F ^ (l + 1) % F)).bind target).bind fun c => lookup F target mem l c n

namespace Stored

variable {F H : Nat} {desc : π → ε} {mem mem' : π → Nat → Option ε}
  {P : Nat → Nat → Option π} {L : Nat → Option ε}

variable (h : Stored F H desc mem P L)
include h

theorem ancestor (hP : P l k ≠ none) (d : Nat) (hd : l + d ≤ H) : P (l + d) (k / F ^ d) ≠ none := by
  induction d with
  | zero =>
    rw [pow_zero, Nat.div_one]
    exact hP
  | succ d ih =>
    have := h.parent _ _ (by omega) (ih (by omega))
    rwa [Nat.div_div_eq_div_mul, ← pow_succ] at this

theorem leaf_eq_none (hl : l ≤ H) (hP : P l (n / F ^ (l + 1)) = none) : L n = none := by
  refine h.empty n ?_
  by_contra hne
  have := h.ancestor hne l (by omega)
  rw [zero_add, Nat.div_div_eq_div_mul, ← pow_succ'] at this
  exact this hP

variable {t : π}

theorem lookup_eq (hF : 0 < F) {target : ε → Option π} (ht : ∀ p, target (desc p) = some p)
    (hl : l ≤ H) (hP : P l (n / F ^ (l + 1)) = some t) : lookup F target mem l t n = L n := by
  induction l generalizing t with
  | zero =>
    rw [zero_add, pow_one] at hP
    rw [lookup, h.leaf _ t hP _ (Nat.mod_lt n hF), mul_comm, Nat.div_add_mod]
  | succ l ih =>
    -- the cell of the walk is the one of the table below
    have hnum : n / F ^ (l + 2) * F + n / F ^ (l + 1) % F = n / F ^ (l + 1) := by
      rw [pow_succ F (l + 1), ← Nat.div_div_eq_div_mul, mul_comm, Nat.div_add_mod]
    have hcell := h.inner l _ t hP _ (Nat.mod_lt (n / F ^ (l + 1)) hF)
    rw [hnum] at hcell
    rw [lookup, hcell]
    cases hc : P l (n / F ^ (l + 1)) with
    | none => exact (h.leaf_eq_none (by omega) hc).symm
    | some =>
      rw [Option.map_some, Option.bind_some, ht]
      exact ih (by omega) hc

theorem congr (hmem : ∀ l k t, P l k = some t → mem' t = mem t) : Stored F H desc mem' P L where
  inner l k t hP i hi := by rw [hmem _ _ t hP, h.inner l k t hP i hi]
  leaf k t hP i hi := by rw [hmem _ _ t hP, h.leaf k t hP i hi]
  parent := h.parent
  height := h.height
  inj := h.inj
  empty := h.empty

theorem page_ne (hq : P l' k' = some q) (ht : P l k = some t) (hl : l' ≠ l) : q ≠ t := by
  rintro rfl
  exact hl (h.inj _ _ _ _ q hq ht).1

variable [DecidableEq π]

theorem setLeaf (hF : 0 < F) (hP : P 0 (n / F) = some t) (v : Option ε) :
    Stored F H desc (setCell mem t (n % F) v) P (update L n v) where
  inner l k q hq i hi := by
    rw [setCell_page (h.page_ne hq hP (by omega))]
    exact h.inner l k q hq i hi
  leaf k q hq i hi := by
    by_cases hn : k * F + i = n
    · have hk : n / F = k := by
        rw [← hn, mul_comm, Nat.mul_add_div hF, Nat.div_eq_of_lt hi, add_zero]
      have him : n % F = i := by
        rw [← hn, mul_comm, Nat.mul_add_mod, Nat.mod_eq_of_lt hi]
      rw [hk] at hP
      obtain rfl : t = q := Option.some.inj (hP.symm.trans hq)
      rw [hn, him, setCell_self, update_self]
    · rw [update_of_ne hn, setCell_of_ne]
      · exact h.leaf k q hq i hi
      · by_contra hc
        push Not at hc
        obtain ⟨rfl, rfl⟩ := hc
        have hk := (h.inj _ _ _ _ q hq hP).2
        rw [hk, mul_comm, Nat.div_add_mod] at hn
        exact hn rfl
  parent := h.parent
  height := h.height
  inj := h.inj
  empty m hm := by
    have hne : m ≠ n := by
      rintro rfl
      rw [hP] at hm
      cases hm
    rw [update_of_ne hne]
    exact h.empty m hm

omit h in
theorem cell_number (hF : 0 < F) {m : Nat} (hi : i < F) :
    k * F + i = m ↔ k = m / F ∧ i = m % F := by
  constructor
  · rintro rfl
    rw [mul_comm, Nat.mul_add_div hF, Nat.mul_add_mod, Nat.div_eq_of_lt hi, Nat.mod_eq_of_lt hi]
    exact ⟨(add_zero k).symm, rfl⟩
  · rintro ⟨rfl, rfl⟩
    rw [mul_comm, Nat.div_add_mod]

/-- What a store to the cell of table `k` of level `l` does to the cells of other tables. -/
theorem inner_setCell (hF : 0 < F) (ht : P (l + 1) (k / F) = some t) (p : Option π) {l' k' : Nat}
    {q : π} (hq : P (l' + 1) k' = some q) (hi : i < F) :
    setCell mem t (k % F) (p.map desc) q i = (setTable P l k p l' (k' * F + i)).map desc := by
  by_cases hc : l' = l ∧ k' * F + i = k
  · obtain ⟨rfl, hk⟩ := hc
    obtain ⟨rfl, rfl⟩ := (cell_number hF hi).mp hk
    obtain rfl : t = q := Option.some.inj (ht.symm.trans hq)
    rw [setCell_self, hk, setTable_self]
  · rw [setCell_of_ne, setTable_of_ne (not_and_or.mp hc), h.inner l' k' q hq i hi]
    by_contra hne
    push Not at hne
    obtain ⟨rfl, rfl⟩ := hne
    obtain ⟨hl, rfl⟩ := h.inj _ _ _ _ q hq ht
    exact hc ⟨by omega, (cell_number hF hi).mpr ⟨rfl, rfl⟩⟩

theorem add (hF : 0 < F) {p t : π} (hl : l < H) (hnone : P l k = none)
    (ht : P (l + 1) (k / F) = some t) (hp : ∀ l' k', P l' k' ≠ some p)
    (hzero : ∀ i, mem p i = none) :
    Stored F H desc (setCell mem t (k % F) (some (desc p))) (setTable P l k (some p)) L := by
  have hold : ∀ {l' k' q}, setTable P l k (some p) l' k' = some q →
      l' = l ∧ k' = k ∧ q = p ∨ P l' k' = some q := by
    intro l' k' q hq
    by_cases hc : l' = l ∧ k' = k
    · obtain ⟨rfl, rfl⟩ := hc
      rw [setTable_self] at hq
      exact .inl ⟨rfl, rfl, (Option.some.inj hq).symm⟩
    · rw [setTable_of_ne (not_and_or.mp hc)] at hq
      exact .inr hq
  have hpt : p ≠ t := by
    rintro rfl
    exact hp _ _ ht
  have hsome : ∀ {l' k'}, P l' k' ≠ none → setTable P l k (some p) l' k' ≠ none := by
    intro l' k' hne
    by_cases hc : l' = l ∧ k' = k
    · obtain ⟨rfl, rfl⟩ := hc
      rw [setTable_self]
      simp
    · rwa [setTable_of_ne (not_and_or.mp hc)]
  refine ⟨fun l' k' q hq i hi => ?_, fun k' q hq i hi => ?_, fun l' k' hl' hne => ?_,
    fun l' k' hne => ?_, fun l1 k1 l2 k2 q h1 h2 => ?_, fun n hn => ?_⟩
  · rcases hold hq with ⟨hlk, rfl, rfl⟩ | hq'
    · -- the new table has no cell and no child
      rw [setCell_page hpt, hzero i, setTable_of_ne (.inl (by omega))]
      by_contra hne
      have hc : P l' (k' * F + i) ≠ none := fun hc => hne (by rw [hc]; rfl)
      have := h.parent l' _ (by omega) hc
      rw [((cell_number hF hi).mp rfl).1.symm, hlk, hnone] at this
      exact this rfl
    · exact h.inner_setCell hF ht (some p) hq' hi
  · rcases hold hq with ⟨rfl, rfl, rfl⟩ | hq'
    · rw [setCell_page hpt, hzero i, h.empty]
      rw [((cell_number hF hi).mp rfl).1.symm, hnone]
    · rw [setCell_page (h.page_ne hq' ht (by omega))]
      exact h.leaf k' q hq' i hi
  · obtain ⟨q, hq⟩ := Option.ne_none_iff_exists'.mp hne
    rcases hold hq with ⟨rfl, rfl, -⟩ | hq'
    · exact hsome (by rw [ht]; simp)
    · exact hsome (h.parent l' k' hl' (by rw [hq']; simp))
  · obtain ⟨q, hq⟩ := Option.ne_none_iff_exists'.mp hne
    rcases hold hq with ⟨rfl, -, -⟩ | hq'
    · omega
    · exact h.height l' k' (by rw [hq']; simp)
  · rcases hold h1 with ⟨hl1, hk1, hq1⟩ | h1' <;> rcases hold h2 with ⟨hl2, hk2, hq2⟩ | h2'
    · exact ⟨hl1.trans hl2.symm, hk1.trans hk2.symm⟩
    · exact absurd (hq1 ▸ h2') (hp _ _)
    · exact absurd (hq2 ▸ h1') (hp _ _)
    · exact h.inj _ _ _ _ q h1' h2'
  · refine h.empty n ?_
    by_contra hne
    exact hsome hne hn

theorem remove (hF : 0 < F) (ht : P (l + 1) (k / F) = some t)
    (hchild : ∀ l', l = l' + 1 → ∀ i < F, P l' (k * F + i) = none)
    (hleaf : l = 0 → ∀ i < F, L (k * F + i) = none) :
    Stored F H desc (setCell mem t (k % F) none) (setTable P l k none) L := by
  have hold : ∀ {l' k' q}, setTable P l k none l' k' = some q →
      (l' ≠ l ∨ k' ≠ k) ∧ P l' k' = some q := by
    intro l' k' q hq
    by_cases hc : l' = l ∧ k' = k
    · obtain ⟨rfl, rfl⟩ := hc
      rw [setTable_self] at hq
      cases hq
    · rw [setTable_of_ne (not_and_or.mp hc)] at hq
      exact ⟨not_and_or.mp hc, hq⟩
  refine ⟨fun l' k' q hq i hi => ?_, fun k' q hq i hi => ?_, fun l' k' hl' hne => ?_,
    fun l' k' hne => ?_, fun l1 k1 l2 k2 q h1 h2 => ?_, fun n hn => ?_⟩
  · exact h.inner_setCell hF ht none (hold hq).2 hi
  · have hq' := (hold hq).2
    rw [setCell_page (h.page_ne hq' ht (by omega))]
    exact h.leaf k' q hq' i hi
  · obtain ⟨q, hq⟩ := Option.ne_none_iff_exists'.mp hne
    obtain ⟨-, hq'⟩ := hold hq
    rw [setTable_of_ne]
    · exact h.parent l' k' hl' (by rw [hq']; simp)
    · by_contra hc
      push Not at hc
      obtain ⟨hl1, hk⟩ := hc
      have := hchild l' hl1.symm (k' % F) (Nat.mod_lt _ hF)
      rw [(cell_number hF (Nat.mod_lt _ hF)).mpr ⟨hk.symm, rfl⟩, hq'] at this
      cases this
  · obtain ⟨q, hq⟩ := Option.ne_none_iff_exists'.mp hne
    exact h.height l' k' (by rw [(hold hq).2]; simp)
  · exact h.inj _ _ _ _ q (hold h1).2 (hold h2).2
  · by_cases hc : 0 = l ∧ n / F = k
    · obtain ⟨rfl, rfl⟩ := hc
      have := hleaf rfl (n % F) (Nat.mod_lt _ hF)
      rwa [mul_comm, Nat.div_add_mod] at this
    · rw [setTable_of_ne (not_and_or.mp hc)] at hn
      exact h.empty n hn

end Stored

end Stored

end MinixRt.Lib.Radix
