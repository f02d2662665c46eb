import MinixRt.Mm.Unmap

/-!
# Changing the protection of a VMA

`mmap_mprotect_fixup` walks the tables that a mapped VMA keeps and stores each leaf of its
range again, with the same page and the new protection. No table comes or goes.
-/

namespace MinixRt.Mm

open Lib Work

/-- The leaves with the protection `prot` for the addresses from `a` to `b`. -/
def reprotect (prot : BitVec 64) (L : Nat → Option Entry) (a b n : Nat) : Option Entry :=
  if a ≤ n * pageSize ∧ n * pageSize < b then some ⟨((L n).map Entry.page).getD 0, prot⟩
  else L n

theorem reprotect_self (prot : BitVec 64) (L : Nat → Option Entry) (a : Nat) :
    reprotect prot L a a = L := by
  funext n
  exact if_neg (by omega)

theorem reprotect_reprotect {prot : BitVec 64} {L : Nat → Option Entry} {a b c : Nat} (hab : a ≤ b)
    (hbc : b ≤ c) : reprotect prot (reprotect prot L a b) b c = reprotect prot L a c := by
  funext n
  simp only [reprotect]
  split_ifs <;> first | rfl | omega

section Protect

variable {pgd : Page} {V : List Vma} {A : Vma} {K : Before} {s s' : Work}
  {P : Nat → Nat → Option Page} {L : Nat → Option Entry} {l m t a b : Nat} {prot : BitVec 64}

/-- `f` changes the protection of the addresses from `a` to `b` behind one entry of level
`l`. -/
def ProtectsEntry (prot : BitVec 64) (pgd : Page) (V : List Vma) (A : Vma) (K : Before) (l : Nat)
    (f : Page × Nat → Nat → Nat → Work → Option (Int × Work)) : Prop :=
  ∀ m t a b s P L, Rep pgd V A K s P L → P l (m / ptrs) = some t → Span A l m a b →
    (∀ l < 3, ∀ k, A.Meets l k → ∃ q, P l k = some q ∧ q ∈ s.root l) →
    ∃ s', f (t, m % ptrs) a b s = some (0, s') ∧ s'.root = s.root ∧
      Rep pgd V A K s' P (reprotect prot L a b)

theorem protectsEntry_pte : ProtectsEntry prot pgd V A K 0 fun slot =>
    mprotectPte prot slot.1 slot.2 := by
  intro m t a b s P L hrep ht hspan hheld
  obtain ⟨rfl, rfl⟩ := hspan.page
  have hcov := hspan.covers
  have hcell := hrep.leaf ht
  obtain ⟨q, hq, hmem⟩ := hheld 0 (by decide) _ hcov.meets
  obtain rfl : q = t := Option.some.inj (hq.symm.trans ht)
  refine ⟨_, rfl, rfl, ?_⟩
  have hL : reprotect prot L (m * pageSize) ((m + 1) * pageSize) =
      Function.update L m (some ⟨((L m).map Entry.page).getD 0, prot⟩) := ite_page _ L m
  rw [hL]
  refine (hrep.setLeaf ht (.setPte m ⟨((L m).map Entry.page).getD 0, prot⟩) rfl
    (fun e he => by simp [he]) fun _ => .inl ⟨hmem, hcov⟩).congr rfl ?_ rfl rfl ?_
  · rw [hcell]
    rfl
  · rw [hcell, Nat.mul_div_cancel m (by decide : 0 < pageSize)]

variable {f : Page × Nat → Nat → Nat → Work → Option (Int × Work)} {next : Nat → Nat → Nat}

theorem ProtectsEntry.walk  (hf : ProtectsEntry prot pgd V A K l f) (hspan : Span A (l + 1) m a b)
    (hnext : ∀ x, x < b → pageSize ∣ x → next x b = addrEnd l x b) (hrep : Rep pgd V A K s P L)
    (ht : P l m = some t) (hheld : ∀ l < 3, ∀ k, A.Meets l k → ∃ q, P l k = some q ∧ q ∈ s.root l) :
    ∃ s', walkTable l next (fun i => f (t, i)) a b s = some (0, s') ∧ s'.root = s.root ∧
      Rep pgd V A K s' P (reprotect prot L a b) := by
  obtain ⟨ret, s', hs', hzero, herr⟩ := walkTable_spec
    (I := fun x s' => s'.root = s.root ∧ Rep pgd V A K s' P (reprotect prot L a x))
    (E := fun _ _ => False) hspan hnext
    (fun i x y s1 hI hax hyb hs hi _ => by
      obtain ⟨hroot, hrep1⟩ := hI
      obtain ⟨s2, hs2, hroot2, hrep2⟩ := hf (m * ptrs + i) t x y s1 P _ hrep1
        (by rw [cell_div hi]; exact ht) hs (by rw [hroot]; exact hheld)
      rw [cell_mod hi] at hs2
      rw [reprotect_reprotect hax hs.lt.le] at hrep2
      exact ⟨0, s2, hs2, fun _ => ⟨hroot2.trans hroot, hrep2⟩, fun h => absurd rfl h⟩)
    ⟨rfl, by rw [reprotect_self]; exact hrep⟩
  by_cases hret : ret = 0
  · subst hret
    exact ⟨s', hs', hzero rfl⟩
  · exact (herr hret).elim

theorem ProtectsEntry.tableRange  (hf : ProtectsEntry prot pgd V A K l f) (hl : l < 3)
    (hnext : ∀ x b, x < b → pageSize ∣ x → pageSize ∣ b → next x b = addrEnd l x b) :
    ProtectsEntry prot pgd V A K (l + 1) (tableRange l next fun t i => f (t, i)) := by
  intro m t a b s P L hrep ht hspan hheld
  obtain ⟨q, hq, -⟩ := hheld l hl m hspan.meets
  have hslot : s.tbl t (m % ptrs) = some (tableDesc q) := by
    rw [hrep.slot ht, hq]
    rfl
  obtain ⟨s', hs', hrest⟩ := hf.walk hspan (fun x hx hux => hnext x b hx hux hspan.alignR)
    hrep hq hheld
  exact ⟨s', by simpa [Mm.tableRange, hslot, tableDesc] using hs', hrest⟩

theorem protectsEntry_pud (prot : BitVec 64) :
    ProtectsEntry prot pgd V A K 3 (mprotectFixupPudRange prot) := by
  have hpte : ProtectsEntry prot pgd V A K 1 (mprotectFixupPteRange prot) :=
    protectsEntry_pte.tableRange (by decide) fun _ _ => nextPage_eq
  have hpmd : ProtectsEntry prot pgd V A K 2 (mprotectFixupPmdRange prot) :=
    hpte.tableRange (by decide) fun _ _ _ _ _ => rfl
  exact hpmd.tableRange (by decide) fun _ _ _ _ _ => rfl

theorem mmapMprotectFixup_spec (hend : A.vmEnd ≤ entrySize 4) (hrep : Rep pgd V A K s P L)
    (hheld : ∀ l < 3, ∀ k, A.Meets l k → ∃ q, P l k = some q ∧ q ∈ s.root l) (start stop : Nat)
    (flags : BitVec 64) : mmapMprotectFixup pgd A start stop flags s = some (-einval, s) ∨
    (A.vmStart ≤ start ∧ start < stop ∧ stop ≤ A.vmEnd ∧ pageSize ∣ start ∧ pageSize ∣ stop) ∧
      ∃ s', mmapMprotectFixup pgd A start stop flags s = some (0, s') ∧ s'.root = s.root ∧
        Rep pgd V A K s' P (reprotect (vmGetPageProt (flags ||| vmShared)) L start stop) := by
  by_cases hbad : start < A.vmStart ∨ A.vmEnd < stop ∨ stop ≤ start ∨ start % pageSize ≠ 0 ∨
      stop % pageSize ≠ 0
  · exact .inl (by rw [mmapMprotectFixup, if_pos hbad])
  · have hbad' := hbad
    push Not at hbad
    obtain ⟨h1, h2, h3, h4, h5⟩ := hbad
    have hspan : Span A 4 0 start stop :=
      ⟨Nat.div_eq_of_lt (h3.trans_le (h2.trans hend)), h3, by rw [zero_add, one_mul]; omega,
        Nat.dvd_of_mod_eq_zero h4, Nat.dvd_of_mod_eq_zero h5, h1, h2⟩
    obtain ⟨s', hs', hroot, hrep'⟩ :=
      (protectsEntry_pud (vmGetPageProt (flags ||| vmShared))).walk hspan
        (fun _ _ _ => rfl) hrep hrep.top hheld
    refine .inr ⟨⟨h1, h3, h2, hspan.alignL, hspan.alignR⟩, s'.logMmu (.flushRange start stop), ?_,
      hroot, hrep'.flush _ _⟩
    rw [mmapMprotectFixup, if_neg hbad', hs']

end Protect

end MinixRt.Mm
