import MinixRt.Mm.Map

/-!
# Unmapping a VMA

`vumap_page_range` and `vmap_free_bad_area` give up the tables of a VMA from the lowest
level up, in one pass over its addresses. `UnmapsEntry` says what the part of that pass
behind one entry of level `l` does: the leaves of the VMA behind the entry are cleared and
the VMA keeps no table below the entry any more; everything else stays. `vumap_page_range`
relies on the VMA keeping every table it needs, which is what `strict` stands for, and
`vmap_free_bad_area` does not.
-/

namespace MinixRt.Mm

open Function Lib Work

variable {next : Nat → Nat → Nat} {q : Page}
  {f : Page × Nat → Nat → Nat → Work → Option (Int × Work)}

/-- Table `k` of level `l'` lies below an entry of level `l` and covers an address of the VMA,
the first of them between `a` and `b`. -/
def Within (A : Vma) (l a b l' k : Nat) : Prop :=
  l' < l ∧ A.Meets l' k ∧ a ≤ A.first l' k ∧ A.first l' k < b

/-- The effect of unmapping the addresses from `a` to `b`. -/
structure Unmapped (A : Vma) (l a b : Nat) (s : Work) (P : Nat → Nat → Option Page)
    (L : Nat → Option Entry) (s' : Work) (P' : Nat → Nat → Option Page)
    (L' : Nat → Option Entry) : Prop where
  root : ∀ l' q, q ∈ s'.root l' ↔
    q ∈ s.root l' ∧ ∀ k, P l' k = some q → ¬ Within A l a b l' k
  table : ∀ l' k, ¬ Within A l a b l' k → P' l' k = P l' k
  removed : ∀ l' k, P' l' k ≠ none → P' l' k = P l' k
  leaf : ∀ n, L' n = if a ≤ n * pageSize ∧ n * pageSize < b then none else L n

section Unmap

variable {pgd : Page} {V : List Vma} {A : Vma} {K : Before} {s s' s'' : Work}
  {P P' P'' : Nat → Nat → Option Page} {L L' L'' : Nat → Option Entry} {l m t a b c : Nat}

theorem Unmapped.refl (A : Vma) (l a : Nat) (s : Work) (P : Nat → Nat → Option Page)
    (L : Nat → Option Entry) : Unmapped A l a a s P L s P L where
  root l' q := ⟨fun h => ⟨h, fun k _ hw => absurd hw.2.2 (by omega)⟩, fun h => h.1⟩
  table _ _ _ := rfl
  removed _ _ _ := rfl
  leaf n := (if_neg (by omega)).symm

theorem Unmapped.trans (h : Unmapped A l a b s P L s' P' L')
    (h' : Unmapped A l b c s' P' L' s'' P'' L'') (hab : a ≤ b) (hbc : b ≤ c) :
    Unmapped A l a c s P L s'' P'' L'' := by
  have hsplit : ∀ {l' k}, Within A l a c l' k ↔ Within A l a b l' k ∨ Within A l b c l' k := by
    intro l' k
    unfold Within
    constructor
    · rintro ⟨h1, h2, h3, h4⟩
      by_cases hk : A.first l' k < b
      · exact .inl ⟨h1, h2, h3, hk⟩
      · exact .inr ⟨h1, h2, by omega, h4⟩
    · rintro (⟨h1, h2, h3, h4⟩ | ⟨h1, h2, h3, h4⟩)
      · exact ⟨h1, h2, h3, by omega⟩
      · exact ⟨h1, h2, by omega, h4⟩
  refine ⟨fun l' q => ?_, fun l' k hk => ?_, fun l' k hk => ?_, fun n => ?_⟩
  · rw [h'.root, h.root]
    constructor
    · rintro ⟨⟨hq, h1⟩, h2⟩
      refine ⟨hq, fun k hk hw => ?_⟩
      rcases hsplit.mp hw with hw | hw
      · exact h1 k hk hw
      · exact h2 k (by rw [h.table l' k (h1 k hk)]; exact hk) hw
    · rintro ⟨hq, hall⟩
      refine ⟨⟨hq, fun k hk hw => hall k hk (hsplit.mpr (.inl hw))⟩, fun k hk hw => ?_⟩
      have hsame := h.removed l' k (by rw [hk]; simp)
      exact hall k (hsame ▸ hk) (hsplit.mpr (.inr hw))
  · rw [hsplit, not_or] at hk
    rw [h'.table l' k hk.2, h.table l' k hk.1]
  · have h1 := h'.removed l' k hk
    rw [h1]
    exact h.removed l' k (h1 ▸ hk)
  · rw [h'.leaf, h.leaf]
    split_ifs <;> first | rfl | omega

/-- The VMA keeps every table that `Within` is about. -/
def HeldIn (A : Vma) (l a b : Nat) (s : Work) (P : Nat → Nat → Option Page) : Prop :=
  ∀ l' k, Within A l a b l' k → ∃ q, P l' k = some q ∧ q ∈ s.root l'

theorem HeldIn.unmapped {d : Nat} (h : HeldIn A l a d s P) (hu : Unmapped A l a b s P L s' P' L')
    (hrep : Rep pgd V A K s P L) (hab : a ≤ b) : HeldIn A l b d s' P' := by
  intro l' k hw
  obtain ⟨q, hq, hmem⟩ := h l' k ⟨hw.1, hw.2.1, by have := hw.2.2.1; omega, hw.2.2.2⟩
  have hout : ¬ Within A l a b l' k := fun hc => by
    have h1 := hc.2.2.2
    have h2 := hw.2.2.1
    omega
  refine ⟨q, by rw [hu.table l' k hout]; exact hq, (hu.root l' q).mpr ⟨hmem, fun k' hk' => ?_⟩⟩
  rwa [(hrep.place_unique hk' hq).2]

/-- `f` unmaps the addresses from `a` to `b` of the VMA behind one entry of level `l`. -/
def UnmapsEntry (strict : Prop) (pgd : Page) (V : List Vma) (A : Vma) (K : Before) (l : Nat)
    (f : Page × Nat → Nat → Nat → Work → Option (Int × Work)) : Prop :=
  ∀ m t a b s P L, Rep pgd V A K s P L → P l (m / ptrs) = some t → Span A l m a b →
    Full A l m a b → (strict → HeldIn A l a b s P) →
    ∃ s', f (t, m % ptrs) a b s = some (0, s') ∧
      ∃ P' L', Rep pgd V A K s' P' L' ∧ Unmapped A l a b s P L s' P' L'

variable {strict : Prop}

theorem unmapsEntry_pte : UnmapsEntry strict pgd V A K 0 fun slot => vunmapPte slot.1 slot.2 := by
  intro m t a b s P L hrep ht hspan _ _
  have hcell := hrep.leaf ht
  have hpos : 0 < pageSize := by decide
  obtain ⟨rfl, rfl⟩ := hspan.page
  have hleaf : ∀ n, update L m none n = if m * pageSize ≤ n * pageSize ∧
      n * pageSize < (m + 1) * pageSize then none else L n :=
    congrFun (ite_page (fun _ => none) L m).symm
  have hnone : ∀ l' k, ¬ Within A 0 (m * pageSize) ((m + 1) * pageSize) l' k := fun l' k hw => by
    have := hw.1
    omega
  by_cases hL : L m = none
  · refine ⟨s, by simp [vunmapPte, hcell, hL], P, L, hrep, fun l' q => ?_, fun _ _ _ => rfl,
      fun _ _ _ => rfl, fun n => ?_⟩
    · exact ⟨fun h => ⟨h, fun k _ => hnone l' k⟩, fun h => h.1⟩
    · rw [← hleaf n, ← hL, update_eq_self]
  · have hclear : vunmapPte t (m % ptrs) (m * pageSize) ((m + 1) * pageSize) s =
        some (0, (s.setTbl t (m % ptrs) none).logMmu (.clearPte (m * pageSize / pageSize))) := by
      simp [vunmapPte, hcell, hL]
    refine ⟨_, hclear, P, update L m none,
      (hrep.setLeaf ht (.clearPte m) rfl trivial fun h => absurd rfl h).congr rfl rfl rfl rfl
        (by simp [logMmu, hpos]), fun l' q => ?_,
      fun _ _ _ => rfl, fun _ _ _ => rfl, hleaf⟩
    exact ⟨fun h => ⟨h, fun k _ => hnone l' k⟩, fun h => h.1⟩

theorem UnmapsEntry.walk (hf : UnmapsEntry strict pgd V A K l f) (hspan : Span A (l + 1) m a b)
    (hfull : Full A (l + 1) m a b) (hnext : ∀ x, x < b → pageSize ∣ x → next x b = addrEnd l x b)
    (hrep : Rep pgd V A K s P L) (ht : P l m = some t) (hheld : strict → HeldIn A l a b s P) :
    ∃ s', walkTable l next (fun i => f (t, i)) a b s = some (0, s') ∧
      ∃ P' L', Rep pgd V A K s' P' L' ∧ Unmapped A l a b s P L s' P' L' := by
  obtain ⟨ret, s', hs', hzero, herr⟩ := walkTable_spec
    (I := fun x s' => a ≤ x ∧
      ∃ P' L', Rep pgd V A K s' P' L' ∧ Unmapped A l a x s P L s' P' L')
    (E := fun _ _ => False) hspan hnext
    (fun i x y s1 hI hax hyb hs hi hsub => by
      obtain ⟨-, P1, L1, hrep1, hu1⟩ := hI
      -- the table of the walk is not below its entries
      have ht1 : P1 l m = some t := by
        rw [hu1.table l m fun hw => absurd hw.1 (lt_irrefl l)]
        exact ht
      have hheld1 : strict → HeldIn A l x y s1 P1 := fun hst l' k hw =>
        (hheld hst).unmapped hu1 hrep hax l' k
          ⟨hw.1, hw.2.1, hw.2.2.1, hw.2.2.2.trans_le hyb⟩
      obtain ⟨s2, hs2, P2, L2, hrep2, hu2⟩ := hf (m * ptrs + i) t x y s1 P1 L1 hrep1
        (by rw [cell_div hi]; exact ht1) hs (hsub hfull) hheld1
      rw [cell_mod hi] at hs2
      exact ⟨0, s2, hs2, fun _ => ⟨hax.trans hs.lt.le, P2, L2, hrep2,
        hu1.trans hu2 hax hs.lt.le⟩, fun h => absurd rfl h⟩)
    ⟨le_rfl, P, L, hrep, .refl A l a s P L⟩
  by_cases hret : ret = 0
  · subst hret
    exact ⟨s', hs', (hzero rfl).2⟩
  · exact (herr hret).elim

/-! ## Giving up a table -/

theorem putTable_spec (h : Rep pgd V A K s P L) (hl : l < 3) (hq : P l m = some q)
    (ht : P (l + 1) (m / ptrs) = some t) (hmem : q ∈ s.root l) (hclear : Rep.Cleared A L l m)
    (hchild : ∀ l', l = l' + 1 → ∀ k x, k / ptrs = m → P l' k = some x → x ∉ s.root l') :
    ∃ s', putTable l (t, m % ptrs) q s = some s' ∧ s'.root = update s.root l ((s.root l).erase q) ∧
      ∃ P', Rep pgd V A K s' P' L ∧ (P' = P ∨ P' = Radix.setTable P l m none) := by
  have hlive := h.live l m q hq
  by_cases hone : s.ref q = 1
  · have hput : putTable l (t, m % ptrs) q s = some { s with
        ref := update s.ref q 0
        tbl := Radix.setCell s.tbl t (m % ptrs) none
        root := update s.root l ((s.root l).erase q)
        pgtablesBytes := s.pgtablesBytes - 4096 } := by
      simp [putTable, setRoot, putPagetableTestzero, hone, setRef, setTbl]
    exact ⟨_, hput, rfl, _, h.free hl hq ht hmem hone hclear hchild rfl rfl rfl rfl rfl, .inr rfl⟩
  · have hput : putTable l (t, m % ptrs) q s =
        some ((s.setRoot l ((s.root l).erase q)).setRef q (s.ref q - 1)) := by
      simp [putTable, setRoot, putPagetableTestzero, hlive, hone, setRef]
    exact ⟨_, hput, rfl, P, h.drop hq hmem hone hclear, .inl rfl⟩

theorem Span.within (h : Span A (l + 1) m a b) (hfull : Full A (l + 1) m a b) :
    Within A (l + 1) a b l m := by
  have hm := h.meets
  have := hfull (A.first l m) (le_max_left _ _)
    (hm.first_lt (h.start.trans_lt (h.lt.trans_le h.stop))) hm.first_div
  exact ⟨Nat.lt_succ_self l, hm, this⟩

theorem Span.within_succ (h : Span A (l + 1) m a b) (hfull : Full A (l + 1) m a b) {l' k : Nat} :
    Within A (l + 1) a b l' k ↔ Within A l a b l' k ∨ l' = l ∧ k = m := by
  constructor
  · rintro ⟨hl', hm, ha, hb⟩
    rcases Nat.lt_succ_iff_lt_or_eq.mp hl' with hlt | rfl
    · exact .inl ⟨hlt, hm, ha, hb⟩
    · exact .inr ⟨rfl, h.eq_of_first hm ha hb⟩
  · rintro (⟨hl', hm, ha, hb⟩ | ⟨rfl, rfl⟩)
    · exact ⟨by omega, hm, ha, hb⟩
    · exact h.within hfull

theorem Unmapped.put (hu : Unmapped A l a b s P L s' P' L') (hspan : Span A (l + 1) m a b)
    (hfull : Full A (l + 1) m a b) (hrep' : Rep pgd V A K s' P' L') (hl : l < 3) (hq : P l m = some q)
    (ht : P (l + 1) (m / ptrs) = some t) (hmem : q ∈ s'.root l) :
    ∃ s'', putTable l (t, m % ptrs) q s' = some s'' ∧
      ∃ P'', Rep pgd V A K s'' P'' L' ∧ Unmapped A (l + 1) a b s P L s'' P'' L' := by
  have hq' : P' l m = some q := by
    rw [hu.table l m fun hw => absurd hw.1 (lt_irrefl l)]
    exact hq
  have ht' : P' (l + 1) (m / ptrs) = some t := by
    rw [hu.table _ _ fun hw => absurd hw.1 (by omega)]
    exact ht
  have hclear : Rep.Cleared A L' l m := by
    rintro rfl n hn hcov
    rw [hu.leaf, if_pos]
    refine hfull _ hcov.1 hcov.2 ?_
    rw [div_entrySize_succ, entrySize, pow_zero, mul_one, Nat.mul_div_cancel n (by decide), hn]
  have hchild : ∀ l', l = l' + 1 → ∀ k x, k / ptrs = m → P' l' k = some x → x ∉ s'.root l' := by
    rintro l' rfl k x hk hx hroot
    have hx' : P l' k = some x := by
      rw [← hu.removed l' k (by rw [hx]; simp)]
      exact hx
    obtain ⟨-, k', hk', hm⟩ := hrep'.own l' x hroot
    obtain rfl := (hrep'.place_unique hk' hx).2
    have hfirst := hfull (A.first l' k') (le_max_left _ _)
      (hm.first_lt (hspan.start.trans_lt (hspan.lt.trans_le hspan.stop)))
      (by rw [div_entrySize_succ, hm.first_div, hk])
    exact ((hu.root l' x).mp hroot).2 k' hx' ⟨Nat.lt_succ_self _, hm, hfirst⟩
  obtain ⟨s'', hs'', hroot, P'', hrep'', hP''⟩ :=
    putTable_spec hrep' hl hq' ht' hmem hclear hchild
  have hsame : ∀ {l' k}, ¬ (l' = l ∧ k = m) → P'' l' k = P' l' k := by
    intro l' k hne
    rcases hP'' with rfl | rfl
    · rfl
    · exact Radix.setTable_of_ne (not_and_or.mp hne)
  refine ⟨s'', hs'', P'', hrep'', fun l' x => ?_, fun l' k hk => ?_, fun l' k hk => ?_, hu.leaf⟩
  · rw [hroot, Rep.mem_root_erase, hu.root]
    constructor
    · rintro ⟨hne, hx, hall⟩
      refine ⟨hx, fun k hk hw => ?_⟩
      rcases (hspan.within_succ hfull).mp hw with hw | ⟨rfl, rfl⟩
      · exact hall k hk hw
      · exact hne ⟨rfl, Option.some.inj (hk.symm.trans hq)⟩
    · rintro ⟨hx, hall⟩
      refine ⟨?_, hx, fun k hk hw => hall k hk ((hspan.within_succ hfull).mpr (.inl hw))⟩
      rintro ⟨rfl, rfl⟩
      exact hall m hq (hspan.within hfull)
  · rw [hspan.within_succ hfull, not_or] at hk
    rw [hsame hk.2, hu.table l' k hk.1]
  · by_cases hlk : l' = l ∧ k = m
    · obtain ⟨rfl, rfl⟩ := hlk
      rcases hP'' with rfl | rfl
      · exact hu.removed _ _ hk
      · rw [Radix.setTable_self] at hk
        exact absurd rfl hk
    · rw [hsame hlk] at hk ⊢
      exact hu.removed l' k hk

theorem unmapped_of_none (hrep : Rep pgd V A K s P L) (hspan : Span A (l + 1) m a b) (hl : l < 3)
    (hnone : P l m = none) : Unmapped A (l + 1) a b s P L s P L := by
  have hwithin : ∀ l' k q, P l' k = some q → ¬ Within A (l + 1) a b l' k := by
    rintro l' k q hq ⟨hl', hm, ha, hb⟩
    -- the table above it of level `l` would be there
    have hup := hrep.stored.ancestor (by rw [hq]; simp) (l - l') (by omega)
    have hdiv : k / ptrs ^ (l - l') = m := by
      have hS : entrySize (l' + 1) * ptrs ^ (l - l') = entrySize (l + 1) := by
        rw [entrySize, entrySize, mul_assoc, ← pow_add]
        congr 2
        omega
      rw [← hm.first_div, Nat.div_div_eq_div_mul, hS, ← hspan.num]
      refine Radix.div_eq_of_mem_block (entrySize_pos _) ha ?_
      rw [hspan.num]
      exact hb.trans_le hspan.fit
    rw [show l' + (l - l') = l by omega, hdiv] at hup
    exact hup hnone
  refine ⟨fun l' q => ⟨fun h => ⟨h, fun k hk => hwithin l' k q hk⟩, fun h => h.1⟩,
    fun _ _ _ => rfl, fun _ _ _ => rfl, fun n => ?_⟩
  split
  · rename_i hn
    refine hrep.stored.leaf_eq_none (l := l) (by omega) ?_
    have hdiv : n / ptrs ^ (l + 1) = m := by
      rw [← hspan.num, ← Radix.div_eq_of_mem_block (entrySize_pos (l + 1)) hn.1
        (by rw [hspan.num]; exact hn.2.trans_le hspan.fit), entrySize,
        ← Nat.div_div_eq_div_mul, Nat.mul_div_cancel n (by decide)]
    rw [hdiv]
    exact hnone
  · rfl

theorem noneOrClearBad_none {i : Nat} (h : s.tbl t i = none) :
    noneOrClearBad (t, i) s = (true, s) := by
  simp [noneOrClearBad, h]

theorem noneOrClearBad_table {i : Nat} (h : s.tbl t i = some (tableDesc q)) :
    noneOrClearBad (t, i) s = (false, s) := by
  have hbad : (tableDesc q).bad = false := by simp [tableDesc, Entry.bad, typeTable]
  simp [noneOrClearBad, h, hbad]

/-! ## The levels -/

section Levels

variable (hl : l < 3)
  (hnext : ∀ x b, x < b → pageSize ∣ x → pageSize ∣ b → next x b = addrEnd l x b)
include hl hnext

theorem UnmapsEntry.vunmapRange (hf : UnmapsEntry True pgd V A K l f) :
    UnmapsEntry True pgd V A K (l + 1) fun slot =>
      vunmapEntry (vunmapRange l next fun t i => f (t, i)) slot.1 slot.2 := by
  intro m t a b s P L hrep ht hspan hfull hheld
  have hslot := hrep.slot ht
  cases hP : P l m with
  | none =>
    rw [hP] at hslot
    refine ⟨s, ?_, P, L, hrep, unmapped_of_none hrep hspan hl hP⟩
    simp [vunmapEntry, noneOrClearBad_none hslot]
  | some q =>
    rw [hP] at hslot
    have hin : HeldIn A l a b s P := fun l' k hw =>
      hheld trivial l' k ((hspan.within_succ hfull).mpr (.inl hw))
    obtain ⟨s1, hs1, P1, L1, hrep1, hu1⟩ := hf.walk hspan hfull
      (fun x hx hux => hnext x b hx hux hspan.alignR) hrep hP fun _ => hin
    -- the VMA keeps the table until its entries are done
    have hmem : q ∈ s1.root l := by
      obtain ⟨q', hq', hroot⟩ := hheld trivial l m (hspan.within hfull)
      obtain rfl : q = q' := Option.some.inj (hP.symm.trans hq')
      exact (hu1.root l q).mpr ⟨hroot, fun k _ hw => absurd hw.1 (lt_irrefl l)⟩
    obtain ⟨s2, hs2, P2, hrep2, hu2⟩ := hu1.put hspan hfull hrep1 hl hP ht hmem
    refine ⟨s2, ?_, P2, L1, hrep2, hu2⟩
    have hslot' : s.tbl t (m % ptrs) = some (tableDesc q) := hslot
    simp [vunmapEntry, noneOrClearBad_table hslot', Mm.vunmapRange,
      hslot', tableDesc, hs1, hmem, hs2]

theorem UnmapsEntry.badEntry (hf : UnmapsEntry False pgd V A K l f) :
    UnmapsEntry False pgd V A K (l + 1) fun slot =>
      badEntry l (tableRange l next fun t i => f (t, i)) slot.1 slot.2 := by
  intro m t a b s P L hrep ht hspan hfull _
  have hslot := hrep.slot ht
  cases hP : P l m with
  | none =>
    rw [hP] at hslot
    refine ⟨s, ?_, P, L, hrep, unmapped_of_none hrep hspan hl hP⟩
    simp [Mm.badEntry, noneOrClearBad_none hslot]
  | some q =>
    rw [hP] at hslot
    have hslot' : s.tbl t (m % ptrs) = some (tableDesc q) := hslot
    obtain ⟨s1, hs1, P1, L1, hrep1, hu1⟩ := hf.walk hspan hfull
      (fun x hx hux => hnext x b hx hux hspan.alignR) hrep hP nofun
    have hslot1 : s1.tbl t (m % ptrs) = some (tableDesc q) := by
      rw [hrep1.slot (l := l) (by
        rw [hu1.table _ _ fun hw => absurd hw.1 (by omega)]
        exact ht), hu1.table l m fun hw => absurd hw.1 (lt_irrefl l), hP]
      rfl
    by_cases hmem : q ∈ s1.root l
    · obtain ⟨s2, hs2, P2, hrep2, hu2⟩ := hu1.put hspan hfull hrep1 hl hP ht hmem
      refine ⟨s2, ?_, P2, L1, hrep2, hu2⟩
      simp [Mm.badEntry, noneOrClearBad_table hslot', tableRange,
        hslot', hs1, hslot1, tableDesc, hmem, hs2]
    · refine ⟨s1, ?_, P1, L1, hrep1, fun l' x => ?_, fun l' k hk => ?_, hu1.removed, hu1.leaf⟩
      · simp [Mm.badEntry, noneOrClearBad_table hslot', tableRange,
          hslot', hs1, hslot1, tableDesc, hmem]
      · rw [hu1.root]
        refine and_congr_right fun hx => ⟨fun hall k hk hw => ?_, fun hall k hk hw => ?_⟩
        · rcases (hspan.within_succ hfull).mp hw with hw | ⟨rfl, rfl⟩
          · exact hall k hk hw
          · obtain rfl : q = x := Option.some.inj (hP.symm.trans hk)
            exact hmem ((hu1.root _ q).mpr ⟨hx, hall⟩)
        · exact hall k hk ((hspan.within_succ hfull).mpr (.inl hw))
      · exact hu1.table l' k fun hw => hk ((hspan.within_succ hfull).mpr (.inl hw))

end Levels

theorem unmapsEntry_pud : UnmapsEntry True pgd V A K 3 fun slot =>
    vunmapEntry vumapPudRange slot.1 slot.2 := by
  have hpte : UnmapsEntry True pgd V A K 1 fun slot =>
      vunmapEntry vunmapPteRange slot.1 slot.2 :=
    unmapsEntry_pte.vunmapRange (by decide) fun _ _ => nextPage_eq
  have hpmd : UnmapsEntry True pgd V A K 2 fun slot =>
      vunmapEntry vunmapPmdRange slot.1 slot.2 :=
    hpte.vunmapRange (by decide) fun _ _ _ _ _ => rfl
  exact hpmd.vunmapRange (by decide) fun _ _ _ _ _ => rfl

theorem unmapsEntry_bad : UnmapsEntry False pgd V A K 3 fun slot =>
    badEntry 2 vumapBadPudRange slot.1 slot.2 := by
  have hpte : UnmapsEntry False pgd V A K 1 fun slot =>
      badEntry 0 vunmapBadPteRange slot.1 slot.2 :=
    unmapsEntry_pte.badEntry (by decide) fun _ _ => nextPage_eq
  have hpmd : UnmapsEntry False pgd V A K 2 fun slot =>
      badEntry 1 vunmapBadPmdRange slot.1 slot.2 :=
    hpte.badEntry (by decide) fun _ _ _ _ _ => rfl
  exact hpmd.badEntry (by decide) fun _ _ _ _ _ => rfl

/-! ## The whole VMA -/

theorem span_top (hA : A.Sized) (hend : A.vmEnd ≤ entrySize 4) :
    Span A 4 0 A.vmStart A.vmEnd ∧ Full A 4 0 A.vmStart A.vmEnd := by
  refine ⟨⟨Nat.div_eq_of_lt (hA.lt.trans_le hend), hA.lt, ?_, hA.start, hA.stop, le_rfl, le_rfl⟩,
    fun x h1 h2 _ => ⟨h1, h2⟩⟩
  rw [zero_add, one_mul]
  exact hend

theorem within_top (hA : A.Sized) {l k : Nat} (hl : l < 3) (hm : A.Meets l k) :
    Within A 3 A.vmStart A.vmEnd l k :=
  ⟨hl, hm, le_max_left _ _, hm.first_lt hA.lt⟩

def without (v : Vma) (L : Nat → Option Entry) (n : Nat) : Option Entry :=
  if v.vmStart ≤ n * pageSize ∧ n * pageSize < v.vmEnd then none else L n

theorem Unmapped.root_empty (hu : Unmapped A 3 A.vmStart A.vmEnd s P L s' P' L') (hA : A.Sized)
    (hrep' : Rep pgd V A K s' P' L') (l : Nat) : s'.root l = ∅ := by
  refine Finset.eq_empty_of_forall_notMem fun q hq => ?_
  obtain ⟨hl, k, hk, hm⟩ := hrep'.own l q hq
  refine ((hu.root l q).mp hq).2 k ?_ (within_top hA hl hm)
  rw [← hu.removed l k (by rw [hk]; simp)]
  exact hk

theorem vumapPageRange_spec (hA : A.Sized) (hend : A.vmEnd ≤ entrySize 4)
    (hrep : Rep pgd V A K s P L)
    (hheld : ∀ l < 3, ∀ k, A.Meets l k → ∃ q, P l k = some q ∧ q ∈ s.root l) :
    ∃ s', vumapPageRange pgd A s = some s' ∧ (∀ l, s'.root l = ∅) ∧
      ∃ P', Rep pgd V A K s' P' (without A L) := by
  obtain ⟨hspan, hfull⟩ := span_top hA hend
  obtain ⟨s', hs', P', L', hrep', hu⟩ := unmapsEntry_pud.walk hspan hfull
    (fun _ _ _ => rfl) hrep hrep.top fun _ l k hw => hheld l hw.1 k hw.2.1
  obtain rfl : L' = without A L := funext hu.leaf
  refine ⟨s', ?_, hu.root_empty hA hrep', P', hrep'⟩
  rw [vumapPageRange, if_neg (not_le.mpr hA.lt), hs']
  rfl

theorem vmapFreeBadArea_spec (hA : A.Sized) (hend : A.vmEnd ≤ entrySize 4)
    (hrep : Rep pgd V A K s P L) : ∃ s', vmapFreeBadArea pgd A s = some s' ∧ (∀ l, s'.root l = ∅) ∧
      ∃ P', Rep pgd V A K s' P' (without A L) ∧ ∀ l k, P' l k ≠ none → P' l k = P l k := by
  obtain ⟨hspan, hfull⟩ := span_top hA hend
  obtain ⟨s', hs', P', L', hrep', hu⟩ := unmapsEntry_bad.walk hspan hfull
    (fun _ _ _ => rfl) hrep hrep.top nofun
  obtain rfl : L' = without A L := funext hu.leaf
  refine ⟨s', ?_, hu.root_empty hA hrep', P', hrep', hu.removed⟩
  rw [vmapFreeBadArea, if_neg (not_le.mpr hA.lt), hs']
  rfl

/-- The tables of an address space are those that some VMA keeps, so taking tables and
giving them up again ends with the same. -/
theorem Rep.table_eq {P1 : Nat → Nat → Option Page} (h : Rep pgd V A K s P L)
    (h' : Rep pgd V A K s' P' L') (hroot : ∀ l, s.root l = ∅) (hroot' : ∀ l, s'.root l = ∅)
    (hgrow : ∀ l k q, P l k = some q → P1 l k = some q)
    (hrem : ∀ l k, P' l k ≠ none → P' l k = P1 l k) {l : Nat} (hl : l < 3) (k : Nat) :
    P' l k = P l k := by
  -- a table that a VMA keeps in one of the two families is at the same place in the other
  have hheld : ∀ {t : Work} {R : Nat → Nat → Option Page} {M : Nat → Option Entry} {q : Page},
      Rep pgd V A K t R M → (∀ l, t.root l = ∅) → R l k = some q →
      ∀ {R' : Nat → Nat → Option Page}, (∀ v ∈ V, VmaRep R' v) → R' l k ≠ none := by
    intro t R M q hR ht hq R' hothers
    have hrefs := hR.refs l hl k q hq
    have hlive := hR.live l k q hq
    rw [ht l, if_neg (Finset.notMem_empty q)] at hrefs
    obtain ⟨v, hv, hmem⟩ := List.countP_pos_iff.mp (show 0 < holders V l q by omega)
    have hmem : q ∈ v.root l := by simpa using hmem
    obtain ⟨-, k', hk', hm⟩ := (hR.others v hv).own l q hmem
    obtain rfl := (hR.place_unique hq hk').2
    obtain ⟨x, hx, -⟩ := (hothers v hv).mapped_of_mem hmem l hl k hm
    rw [hx]
    nofun
  cases hq : P l k with
  | none =>
    by_contra hne
    obtain ⟨q, hq'⟩ := Option.ne_none_iff_exists'.mp hne
    exact hheld h' hroot' hq' h.others hq
  | some q => rw [hrem l k (hheld h hroot hq h'.others), hgrow l k q hq]

/-- A mapping succeeds and the VMA keeps all its tables, or it fails and the VMA keeps
none. -/
theorem vmapPageRange_spec (hA : A.Sized) (hend : A.vmEnd ≤ entrySize 4)
    (hrep : Rep pgd V A K s P L) :
    ∃ ret s', vmapPageRange pgd A s = some (ret, s') ∧ ∃ P' L', Rep pgd V A K s' P' L' ∧
      ((ret = A.nrPages ∧ (∀ l < 3, ∀ k, A.Meets l k → ∃ q, P' l k = some q ∧ q ∈ s'.root l) ∧
        A.HasPages A.vmStart A.vmEnd ∧ L' = fill A L A.vmStart A.vmEnd) ∨
      (ret ≤ 0 ∧ (A.Counted → ret ≠ 0) ∧ (∀ l, s'.root l = ∅) ∧ L' = without A L ∧
        ((∀ l, s.root l = ∅) → ∀ l < 3, ∀ k, P' l k = P l k))) := by
  obtain ⟨hspan, -⟩ := span_top hA hend
  have hrep0 : Rep pgd V A K { s with nr := 0 } P L := hrep.congr rfl rfl rfl rfl rfl
  obtain ⟨err, s1, hs1, hle, P1, L1, hrep1, hgrow, hzero, herr⟩ := (mapsEntry_pud hA).walk hspan
    (fun _ _ _ => rfl) hrep0 hrep0.top (fun h => absurd h (by decide))
    (fun l _ k _ hk => absurd hk (not_lt.mpr (le_max_left _ _))) (by simp)
  have hne := not_le.mpr hA.lt
  have hout : ∀ n, ¬ A.Covers n → L1 n = L n := fun n hn => by
    by_cases hz : err = 0
    · rw [(hzero hz).2.2.2]
      exact fill_of_not hn
    · exact herr hz n hn
  by_cases hok : err = 0 ∧ s1.nr % 2 ^ 32 = A.nrPages
  · obtain ⟨rfl, hnr⟩ := hok
    obtain ⟨hheld, -, hhas, rfl⟩ := hzero rfl
    have hret : (BitVec.ofNat 32 s1.nr).toInt = A.nrPages := by
      have hshort := hA.short
      rw [BitVec.toInt_eq_toNat_cond, BitVec.toNat_ofNat, hnr, if_pos (by omega)]
    refine ⟨A.nrPages, s1.logMmu (.flushRange A.vmStart A.vmEnd), ?_, P1, _,
      hrep1.flush _ _, .inl ⟨rfl, fun l hl k hm => ?_, hhas, rfl⟩⟩
    · rw [vmapPageRange, if_neg hne, hs1]
      simp only
      rw [if_neg (by tauto), hret]
    · exact hheld l hl k hm (hm.first_lt hA.lt)
  · obtain ⟨s', hs', hroot, P', hrep', hrem⟩ := vmapFreeBadArea_spec hA hend hrep1
    refine ⟨err, s', ?_, P', _, hrep', .inr ⟨hle, fun hcount hz => ?_, hroot,
      funext fun n => ?_, fun hs l hl k =>
        hrep0.table_eq hrep' hs hroot (fun l k q => hgrow.table l k q) hrem hl k⟩⟩
    · rw [vmapPageRange, if_neg hne, hs1]
      simp only
      rw [if_pos (by tauto), hs']
      rfl
    · -- all pages are mapped, and their number fits into an `int`
      have hnr := (hzero hz).2.1
      have hshort := hA.short
      unfold Vma.Counted at hcount
      rw [← hnr] at hcount
      exact hok ⟨hz, by omega⟩
    · simp only [without]
      split
      · rfl
      · exact hout n (by assumption)

end Unmap

end MinixRt.Mm
