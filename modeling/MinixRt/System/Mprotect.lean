import MinixRt.Mm.Translate

/-!
# Requests to change a protection

`system_mprotect` looks for the VMA of the first address and has `mmap_mprotect_fixup` check the
range and store its leaves again. The end of the range is a sum of two 64-bit numbers from the
message; a sum that wraps is below the start, and the range is refused.
-/

namespace MinixRt.System

open Lib Mm

/-- `system_mprotect`, for the address space of the sender. -/
def systemMprotect (start len prot : BitVec 64) (s : Space) : Option (Int × Space) :=
  match s.mmapFindVmaArea start.toNat with
  | none => some (-einval, s)
  | some vma => s.mmapMprotectFixup vma start.toNat (start + len).toNat prot

section Mprotect

variable {b : Board} {k : Spaces} {mm : MmStruct} {i : MmId}

theorem toNat_add_of_le {x y : BitVec 64} (h : x.toNat ≤ (x + y).toNat) :
    (x + y).toNat = x.toNat + y.toNat := by
  rw [BitVec.toNat_add] at h ⊢
  omega

/-- In every address space all of whose VMAs are mapped, and for every message: the walk meets no
hole, an answer of zero means that the pages of the range are the same with the new protection and
that no other translation has changed, here or in another address space, and a refused call has
changed nothing. -/
theorem system_mprotect_protects (hk : (machine b).Reach (fun _ a => a.below = true) k)
    (hi : k.mm i = some mm) (hmapped : ∀ v ∈ mm.vmas, v.root 2 ≠ ∅) (start len prot : BitVec 64) :
    ∃ ret s', systemMprotect start len prot ⟨k.mem, mm⟩ = some (ret, s') ∧
      (ret = 0 →
        (∀ a, start.toNat ≤ a → a < start.toNat + len.toNat →
          ∃ e, Space.translate ⟨k.mem, mm⟩ a = some e ∧
            s'.translate a = some ⟨e.page, vmGetPageProt (prot ||| vmShared)⟩) ∧
        (∀ a < 2 ^ 48, ¬ (start.toNat ≤ a ∧ a < start.toNat + len.toNat) →
          s'.translate a = Space.translate ⟨k.mem, mm⟩ a) ∧
        ∀ j mm', j ≠ i → k.mm j = some mm' → ∀ a < 2 ^ 48,
          Space.translate ⟨s'.mem, mm'⟩ a = Space.translate ⟨k.mem, mm'⟩ a) ∧
      (ret ≠ 0 → s' = ⟨k.mem, mm⟩) := by
  obtain ⟨P, L, hinv⟩ := Spaces.Inv.of_reach (fun _ _ h => h) hk
  have hrep := hinv.space i mm hi
  unfold systemMprotect
  cases hfind : Space.mmapFindVmaArea start.toNat ⟨k.mem, mm⟩ with
  | none =>
    refine ⟨-einval, ⟨k.mem, mm⟩, rfl, fun hzero => ?_, fun _ => rfl⟩
    exact absurd hzero (by decide)
  | some v =>
    obtain ⟨hv, -, -⟩ := findVmaArea_some hfind
    have hm := mapped_of_root hrep hv (hmapped v hv)
    obtain ⟨hsz, hend⟩ := hrep.sized v hv
    rcases SpaceRep.mmapMprotectFixup (s := ⟨k.mem, mm⟩) hrep hv hm start.toNat
        (start + len).toNat prot with hbad | ⟨⟨h1, h2, h3, h4, h5⟩, w, hok, -, hop⟩
    · refine ⟨-einval, ⟨k.mem, mm⟩, ?_, fun hzero => ?_, fun _ => rfl⟩
      · rw [SpaceRep.finish_work (s := ⟨k.mem, mm⟩) hrep hv] at hbad
        exact hbad
      · exact absurd hzero (by decide)
    · have hsum := toNat_add_of_le h2.le
      rw [hsum] at h3 h5 hop
      have hin : ∀ a, start.toNat ≤ a / pageSize * pageSize ∧
          a / pageSize * pageSize < start.toNat + len.toNat ↔
          start.toNat ≤ a ∧ a < start.toNat + len.toNat := page_mem_iff h4 h5
      refine ⟨0, _, hok, fun _ => ⟨fun a ha1 ha2 => ?_, fun a ha hout => ?_, ?_⟩,
        fun h => absurd rfl h⟩
      · have hlt : a < entrySize 4 := ha2.trans_le (h3.trans hend)
        have hc : v.Covers (a / pageSize) :=
          (hsz.covers_iff a).mpr ⟨h1.trans ha1, ha2.trans_le h3⟩
        obtain ⟨e, he⟩ := Option.ne_none_iff_exists'.mp (hrep.filled v hv hm _ hc)
        refine ⟨e, ?_, ?_⟩
        · rw [SpaceRep.translate (s := ⟨k.mem, mm⟩) hrep hlt, he]
        · rw [hop.rep.translate hlt, reprotect, if_pos ((hin a).mpr ⟨ha1, ha2⟩), he]
          rfl
      · rw [hop.rep.translate ha, reprotect, if_neg fun hc => hout ((hin a).mp hc),
          SpaceRep.translate (s := ⟨k.mem, mm⟩) hrep ha]
      · intro j mm' hj hmm' a ha
        have hinv' := hinv.lift hi ((hinv.ok hi).tableOp hop).1 ((hinv.ok hi).tableOp hop).2
        have hrep' := hinv'.space j mm' ((Spaces.put_mm_of_ne hj ..).trans hmm')
        rw [Function.update_of_ne hj, Function.update_of_ne hj] at hrep'
        rw [SpaceRep.translate (s := ⟨k.mem, mm'⟩) (hinv.space j mm' hmm') ha]
        exact SpaceRep.translate (s := ⟨_, mm'⟩) hrep' ha

end Mprotect

/-- The first page of a VMA of two pages becomes read-only. -/
theorem system_mprotect_protects_first : ∃ (k : Spaces) (mm : MmStruct) (s' : Space),
    k.mm 0 = some mm ∧
    systemMprotect 0x1ff000 0x1000 vmRead ⟨k.mem, mm⟩ = some (0, s') ∧
    ∀ a, 0x1ff000 ≤ a → a < 0x200000 → ∃ e, Space.translate ⟨k.mem, mm⟩ a = some e ∧
      s'.translate a = some ⟨e.page, vmGetPageProt (vmRead ||| vmShared)⟩ := by
  obtain ⟨k, hreach, hval⟩ := Machine.exists_reach (M := machine plainBoard)
    (G := fun _ a => a.below = true) (P := fun k => ((k.mm 0).bind fun mm =>
      (systemMprotect 0x1ff000 0x1000 vmRead ⟨k.mem, mm⟩).map fun r =>
        (r.1, decide (∀ v ∈ mm.vmas, v.root 2 ≠ ∅))) = some (0, true))
    (s := ⟨emptyMem, fun _ => none⟩) (.init fun _ => rfl)
    (insertTwo ++ [.op 0 (.vmapPageRange 0x1ff000)]) (by decide)
  obtain ⟨mm, hmm, hval⟩ := Option.bind_eq_some_iff.mp hval
  obtain ⟨⟨ret, s'⟩, hres, hret⟩ := Option.map_eq_some_iff.mp hval
  simp only [Prod.mk.injEq, decide_eq_true_eq] at hret
  obtain ⟨rfl, hmapped⟩ := hret
  obtain ⟨ret, s'', hres', hzero, -⟩ := system_mprotect_protects hreach hmm hmapped
    0x1ff000 0x1000 vmRead
  rw [hres] at hres'
  cases hres'
  exact ⟨k, mm, s', hmm, hres, (hzero rfl).1⟩

end MinixRt.System
