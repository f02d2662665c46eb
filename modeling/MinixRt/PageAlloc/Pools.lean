import MinixRt.PageAlloc.FreeArea
import MinixRt.PageAlloc.Pcp

/-!
# The pools of pages

Every managed page is in a free block, on the list of a CPU, or in a block that somebody
holds. `Pools` says so for a set of held blocks and adds what the checks rely on: a page that
nobody holds is idle. The primitive moves are a block leaving or entering the free areas, a
page leaving or entering the list of a CPU, and a write to the pages of a held block. Each of
them keeps the pages of the blocks that stay held, which is `Kept`.
-/

namespace MinixRt.PageAlloc

open Function MinixRt.Lib

variable {ζ : Type} {C : Config ζ} {cpus : List Nat} {s s' : Zones ζ} {v v' : View ζ}
  {held : Set (ζ × Block)} {z : ζ} {b : Block}

/-- The list heads that are in use between operations. -/
def inUse (C : Config ζ) (cpus : List Nat) (h : ListHead ζ) : Prop :=
  freeHead C h ∨ ∃ z cpu, h = .pcp z cpu ∧ cpu ∈ cpus

theorem inUse_pcp {cpu : Nat} (hcpu : cpu ∈ cpus) : inUse C cpus (.pcp z cpu) :=
  .inr ⟨z, cpu, rfl, hcpu⟩

/-- A page that nobody holds: no count, no flag, no type but the buddy mark, and no tail. -/
structure Idle (s : Zones ζ) (x : Nat) : Prop where
  quiet : (s.pages x).Quiet
  plain : pageTail s x = false

/-- The page is on the list of some CPU for the zone. -/
def Cached (cpus : List Nat) (v : View ζ) (z : ζ) (x : Nat) : Prop :=
  ∃ cpu ∈ cpus, x ∈ v.mem (.pcp z cpu)

structure Pools (C : Config ζ) (cpus : List Nat) (s : Zones ζ) (v : View ζ)
    (held : Set (ζ × Block)) : Prop where
  buddy : Buddy C (inUse C cpus) s v
  initialized : ∀ z, C.initialized z
  alloc : ∀ z c, c ∈ v.alloc z ↔ (z, c) ∈ held ∨ (c.order = 0 ∧ Cached cpus v z c.base)
  place : ∀ z c, (z, c) ∈ held → v.place c.base = none
  idle_free : ∀ z, ∀ x ∈ freeSet C v z, Idle s x
  idle_cached : ∀ z x, Cached cpus v z x → Idle s x

/-- The pages of the held blocks are as they were. -/
def Kept (held : Set (ζ × Block)) (s s' : Zones ζ) : Prop :=
  ∀ z c, (z, c) ∈ held → ∀ x, c.Covers x →
    s'.pages x = s.pages x ∧ s'.links.next (.lru x) = s.links.next (.lru x)

namespace Kept

theorem refl (held : Set (ζ × Block)) (s : Zones ζ) : Kept held s s :=
  fun _ _ _ _ _ => ⟨rfl, rfl⟩

theorem trans {s'' : Zones ζ} (h1 : Kept held s s') (h2 : Kept held s' s'') : Kept held s s'' :=
  fun z c hc x hx => ⟨(h2 z c hc x hx).1.trans (h1 z c hc x hx).1,
    (h2 z c hc x hx).2.trans (h1 z c hc x hx).2⟩

theorem mono {held' : Set (ζ × Block)} (h : Kept held s s') (hsub : held' ⊆ held) :
    Kept held' s s' :=
  fun z c hc => h z c (hsub hc)

theorem idle (h : Kept held s s') (hb : (z, b) ∈ held) {x : Nat} (hx : b.Covers x) (hi : Idle s x) :
    Idle s' x := by
  obtain ⟨hpages, hnext⟩ := h z b hb x hx
  refine ⟨hpages ▸ hi.quiet, ?_⟩
  rw [← hi.plain]
  simp only [pageTail, hnext]

end Kept

/-! ## Idle pages -/

theorem Idle.of_tail {x : Nat} (h : Idle s x) (hquiet : (s'.pages x).Quiet)
    (htail : pageTail s' x = true → pageTail s x = true) : Idle s' x := by
  refine ⟨hquiet, ?_⟩
  rw [← Bool.not_eq_true]
  exact mt htail (by simp [h.plain])

theorem Page.Quiet.pageType_eq {p : Page} (h : p.Quiet) (hbuddy : p.buddy = false) :
    p.pageType = BitVec.allOnes 32 := by
  have hrest : p.pageType &&& ~~~pgBuddy = ~~~pgBuddy := by
    have hand : (p.pageType ||| pgBuddy) &&& ~~~pgBuddy = BitVec.allOnes 32 &&& ~~~pgBuddy :=
      congrArg (· &&& ~~~pgBuddy) h.pageType
    rwa [BitVec.and_or_distrib_right, show pgBuddy &&& ~~~pgBuddy = 0#32 from by decide,
      BitVec.or_zero, BitVec.allOnes_and] at hand
  have hsplit : p.pageType = (p.pageType &&& pgBuddy) ||| (p.pageType &&& ~~~pgBuddy) := by
    rw [← BitVec.and_or_distrib_left, show pgBuddy ||| ~~~pgBuddy = BitVec.allOnes 32 from by decide,
      BitVec.and_allOnes]
  have hbit := BitVec.and_twoPow p.pageType 7
  rw [show BitVec.twoPow 32 7 = pgBuddy from by decide] at hbit
  split_ifs at hbit with hset
  · rw [hsplit, hbit, hrest]
    decide
  · -- with the bit clear the page would carry the buddy mark
    rw [hbit, hrest] at hsplit
    rw [Bool.eq_false_iff] at hbuddy
    refine absurd ?_ hbuddy
    rw [buddy_iff, hsplit]
    decide

namespace Pools

variable (h : Pools C cpus s v held)
include h

theorem inHand (hb : (z, b) ∈ held) : InHand C (inUse C cpus) z s v b :=
  ⟨h.buddy, (h.alloc z b).mpr (.inl hb), h.place z b hb⟩

theorem calm (hb : ∀ x, b.Covers x → Idle s x) : Calm C s v b :=
  ⟨fun x hx => (hb x hx).quiet, fun z f hf x hx => (h.idle_free z x ⟨f, hf, hx⟩).quiet⟩

theorem notCached (hb : (z, b) ∈ held) {z' : ζ} {x : Nat} (hx : b.Covers x) :
    ¬ Cached cpus v z' x := by
  rintro ⟨cpu, hcpu, hmem⟩
  have hplace := (h.buddy.lists.mem_iff _ _ (.inr ⟨z', cpu, rfl, hcpu⟩)).mp hmem
  rw [(h.inHand hb).place_of_covers hx] at hplace
  cases hplace

variable {R : Set Nat}

omit h in
theorem idle_of_moved (hm : Moved z R s v s' v') {x : Nat} (hi : Idle s x) : Idle s' x :=
  hi.of_tail (hm.quiet hi.quiet) (hm.tail x)

omit h in
theorem cached_of_moved (hm : Moved z R s v s' v') (z' : ζ) (x : Nat) :
    Cached cpus v' z' x ↔ Cached cpus v z' x := by
  simp only [Cached, hm.mem_pcp]

variable [DecidableEq ζ]

theorem rmqueue (z : ζ) (order : Nat) : ∃ s' page, rmqueueSmallest C s z order = some (s', page) ∧
      match page with
      | none => s' = s
      | some pfn => ∃ v', Pools C cpus s' v' (insert (z, ⟨pfn, order⟩) held) ∧ Kept held s s' ∧
          (z, ⟨pfn, order⟩) ∉ held ∧ (∀ x, (⟨pfn, order⟩ : Block).Covers x → Idle s' x) ∧
          s'.pcp = s.pcp ∧ ∀ z cpu, v'.mem (.pcp z cpu) = v.mem (.pcp z cpu) := by
  have hspec := rmqueueSmallest_spec h.buddy z order
  rcases hrm : rmqueueSmallest C s z order with _ | ⟨s', page⟩
  · rw [hrm] at hspec
    exact absurd (fun z x hx => (h.idle_free z x hx).quiet) hspec
  · rw [hrm] at hspec
    refine ⟨s', page, rfl, ?_⟩
    cases page with
    | none => exact hspec
    | some pfn =>
      obtain ⟨v', ht⟩ := hspec
      refine ⟨v', ⟨ht.inHand.buddy, h.initialized, ?_, ?_, ?_, ?_⟩, ?_, ?_, ?_, ht.moved.pcp,
        ht.moved.mem_pcp⟩
      · intro z' c
        rw [cached_of_moved ht.moved]
        by_cases hz : z' = z
        · subst hz
          rw [ht.alloc, Set.mem_insert_iff, h.alloc]
          simp [or_assoc]
        · rw [ht.moved.alloc z' hz, h.alloc]
          simp [hz]
      · rintro z' c (heq | hc)
        · cases heq
          exact ht.inHand.place
        · rw [ht.moved.place _ (h.buddy.notMem_freeSet (h.inHand hc).alloc c.covers_base)]
          exact h.place z' c hc
      · intro z' x hx
        rcases h.buddy.mem_freeSet_of ht.inHand.buddy hx with hx | ⟨c, hc, hnot, _⟩
        · exact idle_of_moved ht.moved (h.idle_free z' x hx)
        · refine absurd ?_ hnot
          by_cases hz : z' = z
          · subst hz
            exact ht.alloc ▸ .inr hc
          · exact ht.moved.alloc z' hz ▸ hc
      · intro z' x hx
        rw [cached_of_moved ht.moved] at hx
        exact idle_of_moved ht.moved (h.idle_cached z' x hx)
      · intro z' c hc x hx
        have hnot := h.buddy.notMem_freeSet (z := z) (h.inHand hc).alloc hx
        exact ⟨ht.moved.pages x hnot, ht.moved.next x hnot ((h.inHand hc).place_of_covers hx)⟩
      · exact fun hmem => ht.fresh (h.inHand hmem).alloc
      · exact fun x hx => idle_of_moved ht.moved (h.idle_free z x (ht.covers x hx))

theorem free (hb : (z, b) ∈ held) (hidle : ∀ x, b.Covers x → Idle s x) :
    ∃ s' v', freeOnePage C s z b = some s' ∧ Pools C cpus s' v' (held \ {(z, b)}) ∧
      Kept (held \ {(z, b)}) s s' ∧ s'.pcp = s.pcp ∧
      ∀ z cpu, v'.mem (.pcp z cpu) = v.mem (.pcp z cpu) := by
  have hspec := freeOnePage_spec (h.inHand hb)
  have halloc := (h.inHand hb).alloc
  rcases hfree : freeOnePage C s z b with _ | s'
  · rw [hfree] at hspec
    exact absurd (h.calm hidle) (hspec (h.initialized z))
  rw [hfree] at hspec
  obtain ⟨v', hbuddy, hm, halloc'⟩ := hspec
  have hother : ∀ z' c, (z', c) ∈ held \ {(z, b)} → ∀ x, c.Covers x → x ∉ region C v z b :=
    fun z' c hc x hx => h.buddy.notMem_region (h.inHand hc.1).alloc hc.2 halloc hx
  refine ⟨s', v', rfl, ⟨hbuddy, h.initialized, ?_, ?_, ?_, ?_⟩, ?_, hm.pcp, hm.mem_pcp⟩
  · intro z' c
    rw [cached_of_moved hm]
    by_cases hz : z' = z
    · subst hz
      have hnot : ¬ Cached cpus v z' b.base := h.notCached hb b.covers_base
      rw [halloc', Set.mem_sdiff, h.alloc, Set.mem_singleton_iff]
      constructor
      · rintro ⟨hc | hc, hne⟩
        · exact .inl ⟨hc, fun heq => hne (Prod.mk.inj heq).2⟩
        · exact .inr hc
      · rintro (⟨hc, hne⟩ | hc)
        · exact ⟨.inl hc, fun heq => hne (heq ▸ rfl)⟩
        · exact ⟨.inr hc, fun heq => hnot (heq ▸ hc.2)⟩
    · rw [hm.alloc z' hz, h.alloc]
      simp [hz]
  · intro z' c hc
    rw [hm.place _ (hother z' c hc _ c.covers_base)]
    exact h.place z' c hc.1
  · intro z' x hx
    rcases h.buddy.mem_freeSet_of hbuddy hx with hx | ⟨c, hc, hnot, hcx⟩
    · exact idle_of_moved hm (h.idle_free z' x hx)
    · by_cases hz : z' = z
      · subst hz
        rw [halloc', Set.mem_sdiff, not_and_not_right] at hnot
        cases hnot hc
        exact idle_of_moved hm (hidle x hcx)
      · rw [hm.alloc z' hz] at hnot
        exact absurd hc hnot
  · intro z' x hx
    rw [cached_of_moved hm] at hx
    exact idle_of_moved hm (h.idle_cached z' x hx)
  · intro z' c hc x hx
    have hnot := hother z' c hc x hx
    exact ⟨hm.pages x hnot, hm.next x hnot ((h.inHand hc.1).place_of_covers hx)⟩

variable {cpu x : Nat}

omit [DecidableEq ζ] in
theorem place_of_mem (hcpu : cpu ∈ cpus) (hx : x ∈ v.mem (.pcp z cpu)) :
    v.place x = some (.pcp z cpu) :=
  (h.buddy.lists.mem_iff _ _ (inUse_pcp hcpu)).mp hx

theorem pop (hcpu : cpu ∈ cpus) (hx : x ∈ v.mem (.pcp z cpu)) :
    Pools C cpus (s.listDel x) (v.pop (.pcp z cpu) x) (insert (z, ⟨x, 0⟩) held) ∧
      Kept held s (s.listDel x) ∧ (z, ⟨x, 0⟩) ∉ held ∧ Idle (s.listDel x) x := by
  have hplace := h.place_of_mem hcpu hx
  have hnodup := h.buddy.lists.nodup (inUse_pcp (z := z) hcpu)
  have hcached : ∀ z' y, Cached cpus v z' y ↔
      (z' = z ∧ y = x) ∨ Cached cpus (v.pop (.pcp z cpu) x) z' y := by
    intro z' y
    constructor
    · rintro ⟨cpu', hcpu', hy⟩
      by_cases hyx : y = x
      · subst hyx
        have heq := (h.place_of_mem hcpu' hy).symm.trans hplace
        simp only [Option.some.injEq, ListHead.pcp.injEq] at heq
        exact .inl ⟨heq.1, rfl⟩
      · refine .inr ⟨cpu', hcpu', ?_⟩
        simp only [View.pop, update_apply]
        split_ifs with heq
        · exact hnodup.mem_erase_iff.mpr ⟨hyx, heq ▸ hy⟩
        · exact hy
    · rintro (⟨rfl, rfl⟩ | ⟨cpu', hcpu', hy⟩)
      · exact ⟨cpu, hcpu, hx⟩
      · refine ⟨cpu', hcpu', ?_⟩
        simp only [View.pop, update_apply] at hy
        split_ifs at hy with heq
        · exact heq ▸ List.mem_of_mem_erase hy
        · exact hy
  have hidle : ∀ y, Idle s y → Idle (s.listDel x) y := fun y hy =>
    hy.of_tail hy.quiet (pageTail_of_listDel h.buddy.lists (inUse_pcp hcpu) hplace)
  have hfree : ∀ z', (v.pop (.pcp z cpu) x).free C z' = v.free C z' := by
    intro z'
    ext c
    simp [View.free, View.pop]
  have hfresh : (z, ⟨x, 0⟩) ∉ held := by
    intro hmem
    rw [h.place z _ hmem] at hplace
    cases hplace
  refine ⟨⟨h.buddy.pop (by simp) (inUse_pcp hcpu) hplace, h.initialized, ?_, ?_, ?_, ?_⟩, ?_, hfresh,
    hidle x (h.idle_cached z x ⟨cpu, hcpu, hx⟩)⟩
  · intro z' c
    change c ∈ v.alloc z' ↔ _
    rw [h.alloc, hcached]
    constructor
    · rintro (hc | ⟨ho, ⟨rfl, hb⟩ | hc⟩)
      · exact .inl (.inr hc)
      · refine .inl (.inl ?_)
        rw [Prod.mk.injEq, Block.ext_iff]
        exact ⟨rfl, hb, ho⟩
      · exact .inr ⟨ho, hc⟩
    · rintro ((heq | hc) | ⟨ho, hc⟩)
      · cases heq
        exact .inr ⟨rfl, .inl ⟨rfl, rfl⟩⟩
      · exact .inl hc
      · exact .inr ⟨ho, .inr hc⟩
  · rintro z' c (heq | hc)
    · cases heq
      exact update_self ..
    · simp only [View.pop, update_apply]
      split_ifs
      · rfl
      · exact h.place z' c hc
  · rintro z' y ⟨f, hf, hy⟩
    rw [hfree] at hf
    exact hidle y (h.idle_free z' y ⟨f, hf, hy⟩)
  · intro z' y hy
    exact hidle y (h.idle_cached z' y ((hcached z' y).mpr (.inr hy)))
  · intro z' c hc y hy
    refine ⟨rfl, ?_⟩
    have hnone := (h.inHand hc).place_of_covers hy
    refine ((h.buddy.lists.linked _ (inUse_pcp hcpu)).del_frame (List.mem_map_of_mem hx) ?_).1
    exact h.buddy.lists.entry_notMem (inUse_pcp hcpu) (by simp [hnone])

theorem push (hcpu : cpu ∈ cpus) (hx : (z, ⟨x, 0⟩) ∈ held) (hidle : Idle s x) (tail : Bool) :
    Pools C cpus (if tail then s.listAddTail x (.pcp z cpu) else s.listAdd x (.pcp z cpu))
        (v.push (.pcp z cpu) x tail) (held \ {(z, ⟨x, 0⟩)}) ∧ Kept (held \ {(z, ⟨x, 0⟩)}) s
        (if tail then s.listAddTail x (.pcp z cpu) else s.listAdd x (.pcp z cpu)) := by
  have hplace := h.place z _ hx
  have hk := inUse_pcp (C := C) (z := z) hcpu
  have hnot := h.buddy.lists.entry_notMem hk (by simp [hplace] : v.place x ≠ _)
  have hmem : ∀ z' cpu' y, y ∈ (v.push (.pcp z cpu) x tail).mem (.pcp z' cpu') ↔
      (z' = z ∧ cpu' = cpu ∧ y = x) ∨ y ∈ v.mem (.pcp z' cpu') := by
    intro z' cpu' y
    by_cases heq : (ListHead.pcp z' cpu' : ListHead ζ) = .pcp z cpu
    · cases heq
      simp only [View.push, update_self]
      cases tail <;> simp [or_comm]
    · simp only [View.push, update_of_ne heq]
      rw [ListHead.pcp.injEq] at heq
      tauto
  have hcached : ∀ z' y, Cached cpus (v.push (.pcp z cpu) x tail) z' y ↔
      (z' = z ∧ y = x) ∨ Cached cpus v z' y := by
    intro z' y
    simp only [Cached, hmem]
    constructor
    · rintro ⟨cpu', hcpu', ⟨rfl, _, rfl⟩ | hy⟩
      · exact .inl ⟨rfl, rfl⟩
      · exact .inr ⟨cpu', hcpu', hy⟩
    · rintro (⟨rfl, rfl⟩ | ⟨cpu', hcpu', hy⟩)
      · exact ⟨cpu, hcpu, .inl ⟨rfl, rfl, rfl⟩⟩
      · exact ⟨cpu', hcpu', .inr hy⟩
  have hkeep : ∀ y, Idle s y → Idle (if tail then s.listAddTail x (.pcp z cpu)
      else s.listAdd x (.pcp z cpu)) y := by
    intro y hy
    cases tail with
    | false => exact hy.of_tail hy.quiet (pageTail_of_listAdd h.buddy.lists hk)
    | true => exact hy.of_tail hy.quiet pageTail_of_listAddTail
  have hfree : ∀ z', (v.push (.pcp z cpu) x tail).free C z' = v.free C z' := by
    intro z'
    ext c
    simp [View.free, View.push]
  refine ⟨⟨h.buddy.push (k := .pcp z cpu) (by simp) hk hplace ⟨z, (h.inHand hx).alloc⟩ tail, h.initialized,
    ?_, ?_, ?_, ?_⟩, ?_⟩
  · intro z' c
    change c ∈ v.alloc z' ↔ _
    rw [h.alloc, hcached]
    constructor
    · rintro (hc | ⟨ho, hc⟩)
      · by_cases heq : (z', c) = (z, ⟨x, 0⟩)
        · cases heq
          exact .inr ⟨rfl, .inl ⟨rfl, rfl⟩⟩
        · exact .inl ⟨hc, heq⟩
      · exact .inr ⟨ho, .inr hc⟩
    · rintro (⟨hc, _⟩ | ⟨ho, ⟨rfl, hb⟩ | hc⟩)
      · exact .inl hc
      · refine .inl ?_
        rwa [show c = ⟨x, 0⟩ from Block.ext hb ho]
      · exact .inr ⟨ho, hc⟩
  · rintro z' c ⟨hc, hne⟩
    simp only [View.push, update_apply]
    split_ifs with heq
    · obtain ⟨rfl, rfl⟩ := h.buddy.owner_unique (.inr (h.inHand hx).alloc)
        (.inr (h.inHand hc).alloc) (Block.covers_base _) (heq ▸ c.covers_base)
      exact absurd rfl hne
    · exact h.place z' c hc
  · rintro z' y ⟨f, hf, hy⟩
    rw [hfree] at hf
    exact hkeep y (h.idle_free z' y ⟨f, hf, hy⟩)
  · intro z' y hy
    rcases (hcached z' y).mp hy with ⟨_, rfl⟩ | hy
    · exact hkeep y hidle
    · exact hkeep y (h.idle_cached z' y hy)
  · rintro z' c ⟨hc, hne⟩ y hy
    have hnone := (h.inHand hc).place_of_covers hy
    have hentry := h.buddy.lists.entry_notMem hk (by simp [hnone] : v.place y ≠ _)
    have hlru : Node.lru y ≠ (.lru x : Node ζ) := by
      intro heq
      cases heq
      obtain ⟨rfl, rfl⟩ := h.buddy.owner_unique (.inr (h.inHand hx).alloc)
        (.inr (h.inHand hc).alloc) (Block.covers_base _) hy
      exact hne rfl
    cases tail with
    | false => exact ⟨rfl, ((h.buddy.lists.linked _ hk).add_frame hentry hlru).1⟩
    | true => exact ⟨rfl, ((h.buddy.lists.linked _ hk).addTail_frame hnot hentry hlru).1⟩

omit [DecidableEq ζ] in
theorem touch {t : Zones ζ} {T : Set (ζ × Block)} (hT : T ⊆ held)
    (hpages : ∀ x, (∀ p ∈ T, ¬ p.2.Covers x) → t.pages x = s.pages x)
    (hlinks : ∀ n, n ≠ .head .bulk → (∀ p ∈ T, ∀ x, p.2.Covers x → n ≠ .lru x) →
      t.links.next n = s.links.next n ∧ t.links.prev n = s.links.prev n) (hnr : t.nrFree = s.nrFree)
    (hbuddy : ∀ p ∈ T, ∀ x, p.2.Covers x → (t.pages x).buddy = false) :
    Pools C cpus t v held ∧ Kept (held \ T) s t := by
  have hnone : ∀ p ∈ T, ∀ x, p.2.Covers x → v.place x = none := fun p hp x hx =>
    (h.inHand (hT hp)).place_of_covers hx
  have hlru : ∀ x, (∀ p ∈ T, ¬ p.2.Covers x) →
      t.links.next (.lru x) = s.links.next (.lru x) := by
    intro x hx
    refine (hlinks (.lru x) nofun fun p hp y hy heq => hx p hp ?_).1
    cases heq
    exact hy
  have hidle : ∀ x, (∀ p ∈ T, ¬ p.2.Covers x) → Idle s x → Idle t x := by
    intro x hx hi
    refine ⟨hpages x hx ▸ hi.quiet, ?_⟩
    rw [← hi.plain]
    simp only [pageTail, hlru x hx]
  have hplaced : ∀ x k, v.place x = some k → ∀ p ∈ T, ¬ p.2.Covers x := by
    intro x k hk p hp hx
    rw [hnone p hp x hx] at hk
    cases hk
  refine ⟨⟨⟨h.buddy.valid_freeList, ⟨?_, h.buddy.lists.mem_iff⟩, h.buddy.order_lt,
    h.buddy.single, h.buddy.tiling, ?_, ?_, ?_⟩, h.initialized, h.alloc, h.place, ?_, ?_⟩, ?_⟩
  · intro k hk
    refine (h.buddy.lists.linked k hk).congr fun n hn => hlinks n ?_ ?_
    · rintro rfl
      rcases List.mem_cons.mp hn with heq | hn
      · obtain rfl : ListHead.bulk = k := Node.head.inj heq
        rcases hk with ⟨_, _, heq, _⟩ | ⟨_, _, heq, _⟩ <;> cases heq
      · simp [layout] at hn
    · rintro p hp x hx rfl
      exact h.buddy.lists.entry_notMem hk (by simp [hnone p hp x hx]) hn
  · intro x
    by_cases hx : ∃ p ∈ T, p.2.Covers x
    · obtain ⟨p, hp, hx⟩ := hx
      rw [hbuddy p hp x hx, hnone p hp x hx]
      simp
    · rw [hpages x fun p hp hx' => hx ⟨p, hp, hx'⟩]
      exact h.buddy.buddy x
  · intro x z' o hx
    rw [hpages x (hplaced x _ hx)]
    exact h.buddy.priv x z' o hx
  · rw [hnr]
    exact h.buddy.nrFree
  · intro z' x hx
    refine hidle x (fun p hp hcov => ?_) (h.idle_free z' x hx)
    exact h.buddy.notMem_freeSet (h.inHand (hT hp)).alloc hcov hx
  · intro z' x hx
    exact hidle x (fun p hp hcov => h.notCached (hT hp) hcov hx) (h.idle_cached z' x hx)
  · rintro z' c ⟨hc, hne⟩ x hx
    have hnot : ∀ p ∈ T, ¬ p.2.Covers x := by
      rintro ⟨z, b⟩ hp hbx
      obtain ⟨rfl, rfl⟩ := h.buddy.owner_unique (.inr (h.inHand (hT hp)).alloc)
        (.inr (h.inHand hc).alloc) hbx hx
      exact hne hp
    exact ⟨hpages x hnot, hlru x hnot⟩

end Pools

end MinixRt.PageAlloc
