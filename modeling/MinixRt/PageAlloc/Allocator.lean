import MinixRt.Lib.Machine
import MinixRt.PageAlloc.FreeArea

/-!
# Runs of the buddy allocator

The allocator starts with empty free areas; the blocks that the boot code will hand over count
as allocated. Every run takes blocks with `__rmqueue_smallest` and gives allocated blocks back
with `__free_one_page`.
-/

namespace MinixRt.PageAlloc

open MinixRt.Lib

variable {ζ : Type} [DecidableEq ζ] {C : Config ζ}

structure Allocator (ζ : Type) where
  zones : Zones ζ
  allocated : List (ζ × Block)

instance : LawfulBEq (ζ × Block) := inferInstance

inductive Call (ζ : Type)
  | rmqueueSmallest (z : ζ) (order : Nat)
  | freeOnePage (z : ζ) (b : Block)

def Allocator.step (C : Config ζ) (a : Allocator ζ) : Call ζ → Option (Allocator ζ)
  | .rmqueueSmallest z order =>
    (PageAlloc.rmqueueSmallest C a.zones z order).map fun (s, page) =>
      match page with
      | none => { a with zones := s }
      | some pfn => ⟨s, (z, ⟨pfn, order⟩) :: a.allocated⟩
  | .freeOnePage z b =>
    -- only a block that is held is freed
    if (z, b) ∈ a.allocated then
      (PageAlloc.freeOnePage C a.zones z b).map fun s => ⟨s, a.allocated.erase (z, b)⟩
    else none

/-- The state that `zone_init_free_lists` and `__init_single_page` leave. -/
structure Allocator.Booted (C : Config ζ) (a : Allocator ζ) : Prop where
  lists : ∀ z o, o < C.maxOrder → Linked a.zones.links (.head (.freeList z o)) []
  nrFree : ∀ z o, o < C.maxOrder → a.zones.nrFree (z, o) = 0
  buddy : ∀ x, (a.zones.pages x).buddy = false
  nodup : a.allocated.Nodup
  tiling : ∀ z, Tiling C.maxOrder (C.managed z) ∅ {b | (z, b) ∈ a.allocated}

def allocatorMachine (C : Config ζ) : Machine (Allocator ζ) (Call ζ) where
  init := Allocator.Booted C
  step := Allocator.step C

/-- What the free areas are for: `blocks z o` are the first pages of the free blocks of order
`o` in zone `z`. -/
structure Sound (C : Config ζ) (a : Allocator ζ) (blocks : ζ → Nat → List Nat) : Prop where
  lists : ∀ z o, o < C.maxOrder →
    Linked a.zones.links (.head (.freeList z o)) ((blocks z o).map .lru)
  nrFree : ∀ z o, o < C.maxOrder → a.zones.nrFree (z, o) = (blocks z o).length
  aligned : ∀ z o, o < C.maxOrder → ∀ x ∈ blocks z o, 2 ^ o ∣ x
  managed : ∀ z o, o < C.maxOrder → ∀ x ∈ blocks z o, ∀ y, x ≤ y → y < x + 2 ^ o → y ∈ C.managed z
  disjoint : ∀ z z' o o', o < C.maxOrder → o' < C.maxOrder → ∀ x ∈ blocks z o, ∀ x' ∈ blocks z' o',
    (z, x, o) ≠ (z', x', o') → ∀ y, x ≤ y → y < x + 2 ^ o → ¬ (x' ≤ y ∧ y < x' + 2 ^ o')
  apart : ∀ z z' o b, o < C.maxOrder → (z', b) ∈ a.allocated → ∀ x ∈ blocks z o,
    ∀ y, x ≤ y → y < x + 2 ^ o → ¬ b.Covers y
  buddy : ∀ x o, ((a.zones.pages x).buddy ∧ (a.zones.pages x).priv = o) ↔
    ∃ z, o < C.maxOrder ∧ x ∈ blocks z o
  merged : ∀ z o, o < C.maxOrder - 1 → ∀ x ∈ blocks z o, findBuddyPfn x o ∉ blocks z o

structure Allocator.Good (C : Config ζ) (a : Allocator ζ) (v : View ζ) : Prop where
  buddy : Buddy C (freeHead C) a.zones v
  nodup : a.allocated.Nodup
  alloc : ∀ z, v.alloc z = {b | (z, b) ∈ a.allocated}
  place : ∀ z b, (z, b) ∈ a.allocated → v.place b.base = none

namespace Allocator

omit [DecidableEq ζ] in
theorem Booted.good {a : Allocator ζ} (h : a.Booted C) :
    a.Good C ⟨fun _ => none, fun _ => [], fun z => {b | (z, b) ∈ a.allocated}⟩ := by
  refine ⟨⟨?_, ⟨?_, ?_⟩, ?_, ?_, ?_, ?_, ?_, ?_⟩, h.nodup, fun _ => rfl, fun _ _ _ => rfl⟩
  · exact fun z o ho => ⟨z, o, rfl, ho⟩
  · rintro k ⟨z, o, rfl, ho⟩
    exact h.lists z o ho
  · intro k e _
    simp
  · exact nofun
  · exact nofun
  · intro z
    have hfree : View.free C ⟨fun _ => none, fun _ => [], fun z => {b | (z, b) ∈ a.allocated}⟩ z = ∅ := by
      ext b
      simp [View.free]
    rw [hfree]
    exact h.tiling z
  · intro x
    simp [h.buddy x]
  · exact nofun
  · exact fun z o ho => h.nrFree z o ho

variable {a : Allocator ζ} {v : View ζ}

omit [DecidableEq ζ] in
theorem Good.sound (h : a.Good C v) : Sound C a fun z o => v.mem (.freeList z o) := by
  have hfree : ∀ z o x, o < C.maxOrder → x ∈ v.mem (.freeList z o) →
      (⟨x, o⟩ : Block) ∈ v.free C z := fun z o x ho hx => ⟨ho, hx⟩
  constructor
  · exact fun z o ho => h.buddy.lists.linked _ (h.buddy.valid_freeList z o ho)
  · exact h.buddy.nrFree
  · intro z o ho x hx
    exact (h.buddy.tiling z).aligned ⟨x, o⟩ (.inl (hfree z o x ho hx))
  · intro z o ho x hx y hle hlt
    exact h.buddy.managed_of_free (hfree z o x ho hx) ⟨hle, hlt⟩
  · intro z z' o o' ho ho' x hx x' hx' hne y hle hlt hy
    obtain ⟨rfl, heq⟩ := h.buddy.owner_unique (.inl (hfree z o x ho hx))
      (.inl (hfree z' o' x' ho' hx')) ⟨hle, hlt⟩ hy
    cases heq
    exact hne rfl
  · intro z z' o b ho hb x hx y hle hlt hy
    have hb' : b ∈ v.alloc z' := by
      rw [h.alloc]
      exact hb
    obtain ⟨rfl, rfl⟩ := h.buddy.owner_unique (.inl (hfree z o x ho hx)) (.inr hb') ⟨hle, hlt⟩ hy
    exact (h.buddy.tiling z').disjoint _ (hfree z' o x ho hx) hb'
  · intro x o
    constructor
    · rintro ⟨hbuddy, rfl⟩
      obtain ⟨z, o, hplace⟩ := (h.buddy.buddy x).mp hbuddy
      rw [h.buddy.priv x z o hplace]
      exact ⟨z, (h.buddy.mem_free_iff (b := ⟨x, o⟩)).mpr hplace⟩
    · rintro ⟨z, ho, hx⟩
      have hplace := h.buddy.mem_free_iff.mp (hfree z o x ho hx)
      exact ⟨(h.buddy.buddy x).mpr ⟨z, o, hplace⟩, h.buddy.priv x z o hplace⟩
  · intro z o ho x hx hmem
    exact (h.buddy.tiling z).buddy_notMem ⟨x, o⟩ (hfree z o x (by omega) hx)
      (by change o + 1 < C.maxOrder; omega) (hfree z o _ (by omega) hmem)

variable {s' : Zones ζ} {v' : View ζ} {z : ζ}

theorem Good.taken {order pfn : Nat} (h : a.Good C v)
    (ht : Taken C (freeHead C) z order a.zones v s' v' pfn) :
    (⟨s', (z, ⟨pfn, order⟩) :: a.allocated⟩ : Allocator ζ).Good C v' := by
  have hfresh : (z, ⟨pfn, order⟩) ∉ a.allocated := by
    have hnot := ht.fresh
    rwa [h.alloc] at hnot
  refine ⟨ht.inHand.buddy, List.nodup_cons.mpr ⟨hfresh, h.nodup⟩, ?_, ?_⟩
  · intro z'
    by_cases hz : z' = z
    · subst hz
      rw [ht.alloc, h.alloc]
      ext c
      simp
    · rw [ht.moved.alloc z' hz, h.alloc]
      ext c
      simp [hz]
  · intro z' c hc
    rcases List.mem_cons.mp hc with heq | hc
    · cases heq
      exact ht.inHand.place
    · have hmem : c ∈ v.alloc z' := by
        rw [h.alloc]
        exact hc
      rw [ht.moved.place _ (h.buddy.notMem_freeSet hmem c.covers_base)]
      exact h.place z' c hc

theorem Good.freed {b : Block} (h : a.Good C v) (hb : (z, b) ∈ a.allocated)
    (hbuddy : Buddy C (freeHead C) s' v') (hmoved : Moved z (region C v z b) a.zones v s' v')
    (halloc : v'.alloc z = v.alloc z \ {b}) :
    (⟨s', a.allocated.erase (z, b)⟩ : Allocator ζ).Good C v' := by
  have hmem : ∀ z' c, (z', c) ∈ a.allocated → c ∈ v.alloc z' := by
    intro z' c hc
    rw [h.alloc]
    exact hc
  refine ⟨hbuddy, h.nodup.erase _, ?_, ?_⟩
  · intro z'
    by_cases hz : z' = z
    · subst hz
      rw [halloc, h.alloc]
      ext c
      simp [h.nodup.mem_erase_iff, and_comm]
    · rw [hmoved.alloc z' hz, h.alloc]
      ext c
      simp [h.nodup.mem_erase_iff, hz]
  · intro z' c hc
    obtain ⟨hne, hc⟩ := h.nodup.mem_erase_iff.mp hc
    rw [hmoved.place _ (h.buddy.notMem_region (hmem z' c hc) hne (hmem z b hb) c.covers_base)]
    exact h.place z' c hc

theorem Good.step {a' : Allocator ζ} {call : Call ζ} (h : a.Good C v)
    (hstep : a.step C call = some a') : ∃ v', a'.Good C v' := by
  cases call with
  | rmqueueSmallest z order =>
    have hspec := rmqueueSmallest_spec h.buddy z order
    obtain ⟨⟨s', page⟩, heq, rfl⟩ := Option.map_eq_some_iff.mp hstep
    rw [heq] at hspec
    cases page with
    | none =>
      cases hspec
      exact ⟨v, h.buddy, h.nodup, h.alloc, h.place⟩
    | some =>
      obtain ⟨v', ht⟩ := hspec
      exact ⟨v', h.taken ht⟩
  | freeOnePage z b =>
    simp only [Allocator.step] at hstep
    split_ifs at hstep with hb
    obtain ⟨s', heq, rfl⟩ := Option.map_eq_some_iff.mp hstep
    have hhand : InHand C (freeHead C) z a.zones v b := by
      refine ⟨h.buddy, ?_, h.place z b hb⟩
      rw [h.alloc]
      exact hb
    have hspec := freeOnePage_spec hhand
    rw [heq] at hspec
    obtain ⟨v', hbuddy, hmoved, halloc⟩ := hspec
    exact ⟨v', h.freed hb hbuddy hmoved halloc⟩

end Allocator

/-- In every run the free areas are sound. -/
theorem free_areas_sound {a : Allocator ζ} (h : (allocatorMachine C).Reach Machine.free a) :
    ∃ blocks, Sound C a blocks := by
  have hgood : ∃ v, a.Good C v := by
    refine h.invariant (I := fun a => ∃ v, a.Good C v) ?_ ?_
    · exact fun a ha => ⟨_, ha.good⟩
    · rintro a call a' ⟨v, hv⟩ _ hstep
      exact hv.step hstep
  obtain ⟨v, hv⟩ := hgood
  exact ⟨_, hv.sound⟩

def Config.small : Config Unit where
  maxOrder := 3
  two_le_maxOrder := by decide
  maxOrder_le := by decide
  initialized _ := true
  pfnValid x := x < 8
  zone _ := ()
  managed _ := {x | x < 8}
  zone_of_managed _ _ _ := rfl
  valid_of_managed _ _ h := decide_eq_true h

def Page.fresh : Page := ⟨.clear, BitVec.allOnes 32, 0, 0, 0⟩

/-- The boot code holds the eight pages as two blocks. -/
def Allocator.small : Allocator Unit where
  zones := ⟨⟨id, id⟩, fun _ => .fresh, fun _ => 0, fun _ => ⟨0, 0, 0⟩⟩
  allocated := [((), ⟨0, 2⟩), ((), ⟨4, 2⟩)]

theorem Allocator.small_booted : Allocator.small.Booted .small where
  lists _ _ _ := ⟨⟨rfl, rfl⟩, by simp⟩
  nrFree _ _ _ := rfl
  buddy _ := show Page.fresh.buddy = false by decide
  nodup := by decide
  tiling z := by
    have hmem : ∀ b, b ∈ (∅ : Set Block) ∪ {b | (z, b) ∈ Allocator.small.allocated} →
        b = ⟨0, 2⟩ ∨ b = ⟨4, 2⟩ := by
      intro b hb
      simpa [Allocator.small] using hb
    constructor
    · intro b hb
      rcases hmem b hb with rfl | rfl <;> decide
    · intro b hb
      rcases hmem b hb with rfl | rfl <;> decide
    · intro b hb c hc x hbx hcx
      rcases hmem b hb with rfl | rfl <;> rcases hmem c hc with rfl | rfl <;>
        simp only [Block.Covers] at hbx hcx <;> first | rfl | omega
    · simp
    · intro x
      constructor
      · intro hx
        change x < 8 at hx
        by_cases hlt : x < 4
        · exact ⟨⟨0, 2⟩, .inr (.head _), by simp [Block.Covers, hlt]⟩
        · exact ⟨⟨4, 2⟩, .inr (.tail _ (.head _)), by simp [Block.Covers]; omega⟩
      · rintro ⟨b, hb, hx⟩
        change x < 8
        rcases hmem b hb with rfl | rfl <;> simp only [Block.Covers] at hx <;> omega
    · simp

theorem free_areas_sound_sample : ∃ a, (allocatorMachine .small).run .small
    [.freeOnePage () ⟨0, 2⟩, .rmqueueSmallest () 0, .rmqueueSmallest () 1,
      .freeOnePage () ⟨0, 0⟩] = some a ∧ a.allocated = [((), ⟨2, 1⟩), ((), ⟨4, 2⟩)] ∧
    ∃ blocks, Sound .small a blocks := by
  obtain ⟨a, ha, hreach, hallocated⟩ := Machine.exists_run
    (M := allocatorMachine .small) (G := Machine.free)
    (P := fun a => a.allocated = [((), ⟨2, 1⟩), ((), ⟨4, 2⟩)]) (.init Allocator.small_booted)
    [.freeOnePage () ⟨0, 2⟩, .rmqueueSmallest () 0, .rmqueueSmallest () 1,
      .freeOnePage () ⟨0, 0⟩] (by decide +kernel)
  exact ⟨a, ha, hallocated, free_areas_sound hreach⟩

end MinixRt.PageAlloc
