import MinixRt.Mm.Spaces

/-!
# Mapping is correct and local

In every state that the machine of `Spaces` reaches, a `vmap_page_range` that returns a
positive value makes the MMU translate the addresses of the VMA to its pages and leaves all
other translations alone; whatever happens to other VMAs and address spaces then, a
`vumap_page_range` of the VMA takes exactly its translations away. What is done to one address
space is not seen in another.
-/

namespace MinixRt.Mm

open Lib Machine

/-- The action does not map, unmap or free this VMA of address space `i`. -/
def Act.spares (i : MmId) (v : Vma) : Act → Bool
  | .op j o => j ≠ i ∨ o.remaps v = false
  | _ => true

/-! ## The other address spaces -/

/-- The action is about address space `j`. -/
def Act.on (j : MmId) : Act → Bool
  | .supply .. => false
  | .mmapAllocMmStruct i | .op i _ | .mmapFreeMmStruct i => i = j

/-- Address space `j` keeps its VMAs, the translations of its addresses and the content of its
pages. -/
structure Spaces.Spared (j : MmId) (k k' : Spaces) : Prop where
  mm : k'.mm j = k.mm j
  translate : ∀ mm, k.mm j = some mm → ∀ a < 2 ^ 48,
    Space.translate ⟨k'.mem, mm⟩ a = Space.translate ⟨k.mem, mm⟩ a
  data : ∀ mm, k.mm j = some mm → ∀ p ∈ ownPages mm.vmas, k'.mem.data p = k.mem.data p

section Isolation

variable {b : Board} {k k' : Spaces} {j : MmId} {P P' : MmId → Nat → Nat → Option Page}
  {L L' : MmId → Nat → Option Entry}

theorem SpacesRep.spared (h : SpacesRep k P L) (h' : SpacesRep k' P' L') (hL : L' j = L j)
    (hmm : k'.mm j = k.mm j)
    (hdata : ∀ mm, k.mm j = some mm → ∀ p ∈ ownPages mm.vmas, k'.mem.data p = k.mem.data p) :
    k.Spared j k' where
  mm := hmm
  translate mm hj a ha := by
    rw [(h'.space j mm (hmm.trans hj)).translate ha, (h.space j mm hj).translate ha, hL]
  data := hdata

theorem Spaces.Inv.spared (h : k.Inv) {a : Act} (ha : a.below = true) (hon : a.on j = false)
    (hs : Mm.step b k a = some k') : k.Spared j k' := by
  obtain ⟨P, L, h⟩ := h
  have hlive : ∀ mm, k.mm j = some mm → ∀ p ∈ ownPages mm.vmas, k.mem.ref p ≠ 0 :=
    fun mm hj p hp => by simp [(h.own j mm hj).ref p hp]
  cases a with
  | supply =>
    cases hs
    exact h.spared (h.same ⟨fun _ _ => ⟨rfl, rfl, rfl⟩, rfl⟩) rfl rfl fun _ _ _ _ => rfl
  | mmapAllocMmStruct i =>
    have hji : j ≠ i := by simpa [Act.on, eq_comm] using hon
    cases hi : k.mm i with
    | some => simp [Mm.step, hi] at hs
    | none =>
      cases hres : Mm.mmapAllocMmStruct k.mem with
      | mk r =>
        cases r <;> simp only [Mm.step, hi, hres] at hs <;> cases hs
        · have hsame := mmapAllocMmStruct_none hres
          exact h.spared (h.same hsame) rfl rfl fun mm hj p hp => (hsame.1 p (hlive mm hj p hp)).2.2
        · obtain ⟨h', -, hsame⟩ := h.mmapAllocMmStruct (i := i) hres
          exact h.spared h' (Function.update_of_ne hji _ _) (Spaces.put_mm_of_ne hji ..)
            fun mm hj p hp => (hsame.1 p (hlive mm hj p hp)).2.2
  | op i =>
    have hji : j ≠ i := by simpa [Act.on, eq_comm] using hon
    obtain ⟨mm, hi, hs⟩ := Option.bind_eq_some_iff.mp hs
    obtain ⟨s, hrun, rfl⟩ := Option.map_eq_some_iff.mp hs
    obtain ⟨P', L', ⟨hok, hto⟩, -⟩ := (h.ok hi).op ha hrun
    exact h.spared (h.lift hi hok hto) (Function.update_of_ne hji _ _)
      (Spaces.put_mm_of_ne hji ..) fun mm' hj p hp => hto.keeps.data p (hlive mm' hj p hp)
        (fun hp' => hji (h.page j i mm' mm p hj hi hp hp')) (h.data j mm' p hj hp i)
  | mmapFreeMmStruct i =>
    have hji : j ≠ i := by simpa [Act.on, eq_comm] using hon
    obtain ⟨mm, hi, hs⟩ := Option.bind_eq_some_iff.mp hs
    obtain ⟨m, hres, rfl⟩ := Option.map_eq_some_iff.mp hs
    obtain ⟨h', -, hdata, -⟩ := h.mmapFreeMmStruct hi hres
    exact h.spared h' (Function.update_of_ne hji _ _) (Function.update_of_ne hji _ _)
      fun _ _ p _ => congrFun hdata p

/-- **Address spaces are isolated.** Whatever is done to the other address spaces, in whatever
order, address space `j` does not see it; and they get no page of `j`. -/
theorem spaces_isolated (hk : (machine b).Reach (fun _ a => a.below = true) k)
    (hk' : ((machine b).startedAt k).Reach (fun _ a => a.below = true ∧ a.on j = false) k') :
    k.Spared j k' ∧ ∀ i mm mm', i ≠ j → k.mm j = some mm → k'.mm i = some mm' →
      ∀ p ∈ ownPages mm.vmas, p ∉ ownPages mm'.vmas := by
  have hinv := Spaces.Inv.of_reach (fun _ _ h => h) hk
  have hboth : k.Spared j k' ∧ k'.Inv := by
    induction hk' with
    | init h =>
      cases h
      exact ⟨⟨rfl, fun _ _ _ _ => rfl, fun _ _ _ _ => rfl⟩, hinv⟩
    | step _ ha hs ih =>
      obtain ⟨h1, hI⟩ := ih
      have h2 := hI.spared ha.1 ha.2 hs
      refine ⟨⟨h2.mm.trans h1.mm, fun mm hj a ha => ?_, fun mm hj p hp => ?_⟩, hI.step ha.1 hs⟩
      · rw [h2.translate mm (h1.mm.trans hj) a ha, h1.translate mm hj a ha]
      · rw [h2.data mm (h1.mm.trans hj) p hp, h1.data mm hj p hp]
  obtain ⟨hsp, P, L, hrep⟩ := hboth
  refine ⟨hsp, fun i mm mm' hij hj hi p hp hp' => ?_⟩
  exact hij (hrep.page i j mm' mm p hi (hsp.mm.trans hj) hp' hp)

end Isolation

/-! ## Mapping and unmapping -/

section Translate

variable {b : Board} {k : Spaces} {mm : MmStruct} {s : Space} {i : MmId}
  {P : Nat → Nat → Option Page} {L L' : Nat → Option Entry} {v : Vma}

theorem mem_of_reach (hk : k.Inv) (hi : k.mm i = some mm) (hv : v ∈ mm.vmas) {k' : Spaces}
    (h : ((machine b).startedAt k).Reach (fun _ a => a.below = true ∧ a.spares i v = true) k') :
    k'.Inv ∧ ∃ mm', k'.mm i = some mm' ∧ v ∈ mm'.vmas := by
  induction h with
  | init h =>
    cases h
    exact ⟨hk, mm, hi, hv⟩
  | @step k1 k2 a _ ha hs ih =>
    obtain ⟨hinv, mm1, hi1, hv1⟩ := ih
    refine ⟨hinv.step ha.1 hs, ?_⟩
    by_cases hon : a.on i = false
    · exact ⟨mm1, (hinv.spared ha.1 hon hs).mm.trans hi1, hv1⟩
    obtain ⟨P, L, hrep⟩ := hinv
    cases a with
    | supply => exact absurd rfl hon
    | mmapAllocMmStruct j =>
      obtain rfl : j = i := by simpa [Act.on] using hon
      simp [startedAt, machine, step, hi1] at hs
    | op j o =>
      obtain rfl : j = i := by simpa [Act.on] using hon
      obtain ⟨mm2, hj, hs⟩ := Option.bind_eq_some_iff.mp hs
      obtain ⟨s, hrun, rfl⟩ := Option.map_eq_some_iff.mp hs
      obtain rfl : mm1 = mm2 := Option.some.inj (hi1.symm.trans hj)
      obtain ⟨-, -, -, -, hmem, -⟩ := hrep.op hi1 ha.1 hrun
      have hspare : o.remaps v = false := by simpa [Act.spares] using ha.2
      exact ⟨s.mm, Spaces.put_mm_self .., hmem v hv1 hspare⟩
    | mmapFreeMmStruct j =>
      obtain rfl : j = i := by simpa [Act.on] using hon
      obtain ⟨mm2, hj, hs⟩ := Option.bind_eq_some_iff.mp hs
      obtain ⟨m, hres, rfl⟩ := Option.map_eq_some_iff.mp hs
      obtain rfl : mm1 = mm2 := Option.some.inj (hi1.symm.trans hj)
      rw [(hrep.mmapFreeMmStruct hi1 hres).2.1] at hv1
      cases hv1

theorem TableOp.translate_out {w : Work} {P' : Nat → Nat → Option Page}
    (hrep : SpaceRep s.mem s.mm P L) (h : TableOp s v w P L P' L') (hv : v.Sized) {a : Nat}
    (ha : a < 2 ^ 48) (hout : ¬ (v.vmStart ≤ a ∧ a < v.vmEnd)) :
    (s.finish v w).translate a = s.translate a := by
  rw [h.rep.translate ha, hrep.translate ha]
  exact h.out _ fun hc => hout ((hv.covers_iff a).mp hc)

/-- **Mapping a VMA and unmapping it later.** -/
theorem vmap_vumap_translate
    (hk : (machine b).Reach (fun _ a => a.below = true) k) (hi : k.mm i = some mm)
    (hv : v ∈ mm.vmas) (hnr : v.nrPages = (v.vmEnd - v.vmStart) / pageSize) {ret : Int} (hres : Space.vmapPageRange v ⟨k.mem, mm⟩ = some (ret, s))
    (hret : 0 < ret) :
    (∀ a, v.vmStart ≤ a → a < v.vmEnd →
      ∃ p, v.pages[(a - v.vmStart) / pageSize]? = some (some p) ∧
        s.translate a = some ⟨p, v.vmPageProt⟩) ∧
    (∀ a < 2 ^ 48, ¬ (v.vmStart ≤ a ∧ a < v.vmEnd) →
      s.translate a = Space.translate ⟨k.mem, mm⟩ a) ∧
    ∃ v' ∈ s.mm.vmas, v'.vmStart = v.vmStart ∧ v'.vmEnd = v.vmEnd ∧ v'.pages = v.pages ∧
      ∀ k', ((machine b).startedAt (k.put i s)).Reach
          (fun _ a => a.below = true ∧ a.spares i v' = true) k' →
        ∃ mm', k'.mm i = some mm' ∧ v' ∈ mm'.vmas ∧
          ∃ s', Space.vumapPageRange v' ⟨k'.mem, mm'⟩ = some s' ∧
            (∀ a, v.vmStart ≤ a → a < v.vmEnd → s'.translate a = none) ∧
            ∀ a < 2 ^ 48, ¬ (v.vmStart ≤ a ∧ a < v.vmEnd) →
              s'.translate a = Space.translate ⟨k'.mem, mm'⟩ a := by
  obtain ⟨P, L, hinv⟩ := Spaces.Inv.of_reach (fun _ _ h => h) hk
  have hrep := hinv.space i mm hi
  obtain ⟨hsz, hend⟩ := hrep.sized v hv
  obtain ⟨ret', w, P', L', hres', hop, hcase⟩ :=
    SpaceRep.vmapPageRange (s := ⟨k.mem, mm⟩) hrep hv
  rw [hres] at hres'
  cases hres'
  obtain ⟨-, hmapped, hhas, rfl⟩ := hcase.resolve_right fun h => not_lt.mpr h.1 hret
  refine ⟨fun a h1 h2 => ?_, fun a ha hout => hop.translate_out hrep hsz ha hout,
    { v with root := w.root }, List.mem_map.mpr ⟨v, hv, if_pos rfl⟩, rfl, rfl, rfl,
    fun k' hk' => ?_⟩
  · have hc : v.Covers (a / pageSize) := (hsz.covers_iff a).mpr ⟨h1, h2⟩
    rw [hop.rep.translate (h2.trans_le hend), fill_of_covers hc]
    obtain ⟨e, he⟩ := Option.ne_none_iff_exists'.mp (hhas _ hc.1 hc.2)
    obtain ⟨hpage, hattr⟩ := Vma.pte_page he
    have hpage := Vma.Counted.getElem_of_page hnr hsz hc hpage
    rw [hsz.sub_div a] at hpage
    exact ⟨e.page, hpage, by rw [he, ← hattr]⟩
  · -- the VMA is still there and mapped
    obtain ⟨⟨P2, L2, hinv2⟩, mm', hi', hv'⟩ := mem_of_reach
      ⟨_, _, hinv.lift hi ((hinv.ok hi).tableOp hop).1 ((hinv.ok hi).tableOp hop).2⟩
      (Spaces.put_mm_self ..) (List.mem_map.mpr ⟨v, hv, if_pos rfl⟩) hk'
    have hrep2 := hinv2.space i mm' hi'
    obtain ⟨q, hq⟩ := hmapped.exists_mem hsz.lt (by decide : 0 < 3)
    obtain ⟨w', P'', hres'', hop'', -⟩ := SpaceRep.vumapPageRange (s := ⟨k'.mem, mm'⟩) hrep2 hv'
      ((hrep2.rep _ hv').mapped_of_mem hq)
    have hsz' := (hrep2.sized _ hv').1
    refine ⟨mm', hi', hv', _, hres'', fun a h1 h2 => ?_,
      fun a ha hout => hop''.translate_out hrep2 hsz' ha hout⟩
    rw [hop''.rep.translate (h2.trans_le hend)]
    exact without_of_covers ((hsz'.covers_iff a).mpr ⟨h1, h2⟩)

end Translate

/-! ## A run -/

/-- A new address space with a VMA over the boundary of two tables of level 0. -/
def insertTwo : List Act :=
  [.supply (List.replicate 9 true) ((List.range 9).map some) [], .mmapAllocMmStruct 0,
    .op 0 (.mmapGetVmapArea 0x1ff000 0x2000 (vmRead ||| vmWrite) 0)]

theorem vmap_vumap_translate_two : ∃ k mm v s,
    (machine plainBoard).run ⟨emptyMem, fun _ => none⟩ insertTwo = some k ∧ k.mm 0 = some mm ∧
      mm.vmas.head? = some v ∧ Space.vmapPageRange v ⟨k.mem, mm⟩ = some (2, s) ∧
      ∀ a, v.vmStart ≤ a → a < v.vmEnd →
        ∃ p, v.pages[(a - v.vmStart) / pageSize]? = some (some p) ∧
          s.translate a = some ⟨p, v.vmPageProt⟩ := by
  obtain ⟨k, hk, hreach, hval⟩ := exists_run (M := machine plainBoard)
    (G := fun _ a => a.below = true) (P := fun k => ((k.mm 0).bind fun mm =>
      mm.vmas.head?.bind fun v => (Space.vmapPageRange v ⟨k.mem, mm⟩).map fun r =>
        (r.1, decide (v.nrPages = (v.vmEnd - v.vmStart) / pageSize))) = some (2, true))
    (s := ⟨emptyMem, fun _ => none⟩) (.init fun _ => rfl) insertTwo (by decide)
  obtain ⟨mm, hmm, hval⟩ := Option.bind_eq_some_iff.mp hval
  obtain ⟨v, hv, hval⟩ := Option.bind_eq_some_iff.mp hval
  obtain ⟨⟨ret, s⟩, hres, hret⟩ := Option.map_eq_some_iff.mp hval
  simp only [Prod.mk.injEq, decide_eq_true_eq] at hret
  obtain ⟨rfl, hnr⟩ := hret
  exact ⟨k, mm, v, s, hk, hmm, hv, hres,
    (vmap_vumap_translate hreach hmm (List.mem_of_head? hv) hnr hres (by decide)).1⟩

/-- A second address space maps the same addresses. -/
def insertOther : List Act :=
  [.mmapAllocMmStruct 1, .op 1 (.mmapGetVmapArea 0x1ff000 0x2000 vmRead 0),
    .op 1 (.vmapPageRange 0x1ff000)]

theorem spaces_isolated_two : ∃ k k' mm mm',
    (machine plainBoard).run ⟨emptyMem, fun _ => none⟩ insertTwo = some k ∧
    (machine plainBoard).run k insertOther = some k' ∧ k.mm 0 = some mm ∧ k'.mm 0 = some mm ∧
    k'.mm 1 = some mm' ∧ ∀ p ∈ ownPages mm.vmas, p ∉ ownPages mm'.vmas := by
  obtain ⟨k, hk, hreach, hmm, hends⟩ := exists_run (M := machine plainBoard)
    (G := fun _ a => a.below = true) (P := fun k => (k.mm 0).isSome ∧
      ((machine plainBoard).startedAt k).ends (fun _ a => a.below = true ∧ a.on 0 = false)
        (fun k' => (k'.mm 1).isSome) k insertOther)
    (s := ⟨emptyMem, fun _ => none⟩) (.init fun _ => rfl) insertTwo (by decide)
  obtain ⟨k', hk', hreach', hmm'⟩ := exists_run (.init rfl) insertOther hends
  obtain ⟨mm, hmm⟩ := Option.isSome_iff_exists.mp hmm
  obtain ⟨mm', hmm'⟩ := Option.isSome_iff_exists.mp hmm'
  obtain ⟨hsp, hsep⟩ := spaces_isolated hreach hreach'
  exact ⟨k, k', mm, mm', hk, hk', hmm, hsp.mm.trans hmm, hmm', hsep 1 mm mm' (by decide) hmm hmm'⟩

end MinixRt.Mm
