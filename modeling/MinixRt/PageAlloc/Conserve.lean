import MinixRt.PageAlloc.Allocator
import MinixRt.PageAlloc.Stock
import Mathlib.Order.CompletePartialOrder

/-!
# Page conservation

The page allocator as its callers see it: `__alloc_pages` and `__free_pages` on any CPU, one
after the other. In every run the free blocks, the lists of the CPUs and the blocks that are
held partition the managed pages, and no request stops.
-/

namespace MinixRt.PageAlloc

open MinixRt.Lib

variable {ζ : Type} {C : Config ζ} {cpus : List Nat} {batch : ζ → Nat}

/-! ## The settings -/

theorem toInt_of_lt {n : Nat} (h : n < 2 ^ 31) : toInt n = n := by
  unfold toInt
  rw [Int.bmod_eq_of_le] <;> omega

theorem pagesetSetBatch_eq {batch : Nat} (h : 6 * batch < 2 ^ 31) :
    pagesetSetBatch batch = ⟨0, 6 * batch, max 1 batch⟩ := by
  have hmax : max 1 batch < 2 ^ 31 := by omega
  rw [pagesetSetBatch, toInt_of_lt h, toInt_of_lt hmax]
  simp only [PerCpuPages.mk.injEq, true_and]
  constructor <;> omega

/-- The settings that `zone_batchsize` chooses are small, whatever the size of the zone. -/
theorem zoneBatchsize_lt (pageSize managed : Nat) (hpage : 0 < pageSize) :
    6 * zoneBatchsize pageSize managed < 2 ^ 31 := by
  have hmul := Nat.le_mul_of_pos_right (managed / 1024) hpage
  have hdiv := Nat.div_le_self (1024 * 1024) pageSize
  have hround : ∀ n, 0 < n → n < 2 ^ 20 → 6 * (2 ^ Nat.log2 n - 1) < 2 ^ 31 := by
    intro n hpos hn
    have hle := Nat.log2_self_le hpos.ne'
    omega
  unfold zoneBatchsize
  dsimp only
  refine hround _ ?_ ?_ <;> split_ifs <;> omega

/-! ## Requests -/

inductive Request (ζ : Type)
  | alloc (z : ζ) (cpu order : Nat)
  | free (z : ζ) (cpu : Nat) (b : Block)

section Machine

variable [DecidableEq ζ]

/-- A request is made on a CPU that is online, and only a block that is held is freed. -/
def Request.Allowed (cpus : List Nat) (a : Allocator ζ) : Request ζ → Prop
  | .alloc _ cpu _ => cpu ∈ cpus
  | .free z cpu b => cpu ∈ cpus ∧ (z, b) ∈ a.allocated

instance (a : Allocator ζ) (r : Request ζ) : Decidable (r.Allowed cpus a) := by
  cases r <;> unfold Request.Allowed <;> infer_instance

def Allocator.serve (C : Config ζ) (cpus : List Nat) (fuel : Nat) (a : Allocator ζ)
    (r : Request ζ) : Option (Allocator ζ) :=
  if r.Allowed cpus a then
    match r with
    | .alloc z cpu order =>
      (allocPages C cpus fuel a.zones z cpu order).map fun (s, page) =>
        match page with
        | none => { a with zones := s }
        | some pfn => ⟨s, (z, ⟨pfn, order⟩) :: a.allocated⟩
    | .free z cpu b =>
      (freePages C a.zones cpu b).map fun s => ⟨s, a.allocated.erase (z, b)⟩
  else none

/-- The boot code has set up the free areas and the per-CPU lists, and holds the blocks that it
is going to free. -/
structure Allocator.Started (C : Config ζ) (cpus : List Nat) (batch : ζ → Nat)
    (a : Allocator ζ) : Prop where
  booted : a.Booted C
  initialized : ∀ z, C.initialized z
  lists : ∀ z, ∀ cpu ∈ cpus, Linked a.zones.links (.head (.pcp z cpu)) []
  settings : ∀ z, ∀ cpu ∈ cpus, a.zones.pcp (z, cpu) = pagesetSetBatch (batch z)
  held : ∀ z b, (z, b) ∈ a.allocated → Held 1 a.zones b

def pagesMachine (C : Config ζ) (cpus : List Nat) (batch : ζ → Nat) (fuel : Nat) :
    Machine (Allocator ζ) (Request ζ) where
  init := Allocator.Started C cpus batch
  step := Allocator.serve C cpus fuel

end Machine

/-! ## The parts of a zone -/

def freePart (C : Config ζ) (blocks : ζ → Nat → List Nat) (z : ζ) : Set Nat :=
  {x | ∃ o < C.maxOrder, ∃ pfn ∈ blocks z o, pfn ≤ x ∧ x < pfn + 2 ^ o}

def cachedPart (cpus : List Nat) (lists : ζ → Nat → List Nat) (z : ζ) : Set Nat :=
  {x | ∃ cpu ∈ cpus, x ∈ lists z cpu}

def heldPart (a : Allocator ζ) (z : ζ) : Set Nat := {x | ∃ b, (z, b) ∈ a.allocated ∧ b.Covers x}

/-- The free lists hold `blocks`, the lists of the CPUs hold `lists`, and with the blocks that
are held they partition the managed pages; the counters say how long the lists are. -/
structure Conserved (C : Config ζ) (cpus : List Nat) (a : Allocator ζ)
    (blocks lists : ζ → Nat → List Nat) : Prop where
  free : ∀ z o, o < C.maxOrder →
    Linked a.zones.links (.head (.freeList z o)) ((blocks z o).map .lru)
  cached : ∀ z, ∀ cpu ∈ cpus, Linked a.zones.links (.head (.pcp z cpu)) ((lists z cpu).map .lru)
  count : ∀ z, ∀ cpu ∈ cpus, (a.zones.pcp (z, cpu)).count = (lists z cpu).length
  managed : ∀ z, C.managed z = freePart C blocks z ∪ cachedPart cpus lists z ∪ heldPart a z
  free_cached : ∀ z, Disjoint (freePart C blocks z) (cachedPart cpus lists z)
  free_held : ∀ z, Disjoint (freePart C blocks z) (heldPart a z)
  cached_held : ∀ z, Disjoint (cachedPart cpus lists z) (heldPart a z)
  blocks_disjoint : ∀ z o o', o < C.maxOrder → o' < C.maxOrder → ∀ p ∈ blocks z o,
    ∀ p' ∈ blocks z o', ∀ x, p ≤ x → x < p + 2 ^ o → p' ≤ x → x < p' + 2 ^ o' → p = p' ∧ o = o'
  lists_disjoint : ∀ z, ∀ cpu ∈ cpus, ∀ cpu' ∈ cpus, ∀ x ∈ lists z cpu, x ∈ lists z cpu' →
    cpu = cpu'
  held_disjoint : ∀ z b b', (z, b) ∈ a.allocated → (z, b') ∈ a.allocated → ∀ x, b.Covers x →
    b'.Covers x → b = b'

/-! ## The invariant of the runs -/

structure Allocator.Stocked (C : Config ζ) (cpus : List Nat) (batch : ζ → Nat) (a : Allocator ζ)
    (v : View ζ) : Prop where
  stock : Stock C cpus batch a.zones v {p | p ∈ a.allocated}
  nodup : a.allocated.Nodup
  held : ∀ z b, (z, b) ∈ a.allocated → Held 1 a.zones b

namespace Allocator

variable {a : Allocator ζ} {v : View ζ}

theorem mem_freePart {z : ζ} {x : Nat} :
    x ∈ freePart C (fun z o => v.mem (.freeList z o)) z ↔ x ∈ freeSet C v z := by
  constructor
  · rintro ⟨o, ho, pfn, hmem, hx⟩
    exact ⟨⟨pfn, o⟩, ⟨ho, hmem⟩, hx⟩
  · rintro ⟨f, ⟨ho, hmem⟩, hx⟩
    exact ⟨f.order, ho, f.base, hmem, hx⟩

variable (h : a.Stocked C cpus batch v)
include h

theorem Stocked.conserved :
    Conserved C cpus a (fun z o => v.mem (.freeList z o)) fun z cpu => v.mem (.pcp z cpu) := by
  have hp := h.stock.pools
  have hcached : ∀ z x, x ∈ cachedPart cpus (fun z cpu => v.mem (.pcp z cpu)) z ↔
      Cached cpus v z x := fun _ _ => Iff.rfl
  have halloc : ∀ z b, (z, b) ∈ a.allocated → b ∈ v.alloc z := fun z b hb =>
    (hp.alloc z b).mpr (.inl hb)
  have hsingle : ∀ z x, Cached cpus v z x → ⟨x, 0⟩ ∈ v.alloc z := fun z x hx =>
    (hp.alloc z ⟨x, 0⟩).mpr (.inr ⟨rfl, hx⟩)
  constructor
  · exact fun z o ho => hp.buddy.lists.linked _ (hp.buddy.valid_freeList z o ho)
  · exact fun z cpu hcpu => hp.buddy.lists.linked _ (inUse_pcp hcpu)
  · exact h.stock.count
  · intro z
    ext x
    simp only [Set.mem_union, mem_freePart, hcached]
    rw [(hp.buddy.tiling z).covered]
    constructor
    · rintro ⟨c, hc | hc, hx⟩
      · exact .inl (.inl ⟨c, hc, hx⟩)
      · rcases (hp.alloc z c).mp hc with hheld | ⟨ho, hcache⟩
        · exact .inr ⟨c, hheld, hx⟩
        · have heq : x = c.base := by
            simp only [Block.Covers, ho, Nat.pow_zero] at hx
            omega
          exact .inl (.inr (heq ▸ hcache))
    · rintro ((⟨f, hf, hx⟩ | hx) | ⟨c, hc, hx⟩)
      · exact ⟨f, .inl hf, hx⟩
      · exact ⟨⟨x, 0⟩, .inr (hsingle z x hx), Block.covers_base _⟩
      · exact ⟨c, .inr (halloc z c hc), hx⟩
  · intro z
    rw [Set.disjoint_left]
    intro x hx hx'
    rw [mem_freePart] at hx
    exact hp.buddy.notMem_freeSet (hsingle z x hx') (Block.covers_base _) hx
  · intro z
    rw [Set.disjoint_left]
    rintro x hx ⟨c, hc, hcx⟩
    rw [mem_freePart] at hx
    exact hp.buddy.notMem_freeSet (halloc z c hc) hcx hx
  · intro z
    rw [Set.disjoint_left]
    rintro x hx ⟨c, hc, hcx⟩
    exact hp.notCached hc hcx hx
  · intro z o o' ho ho' p hpm p' hpm' x h1 h2 h3 h4
    obtain ⟨_, heq⟩ := hp.buddy.owner_unique (b := ⟨p, o⟩) (c := ⟨p', o'⟩) (z := z) (x := x)
      (.inl ⟨ho, hpm⟩) (.inl ⟨ho', hpm'⟩) ⟨h1, h2⟩ ⟨h3, h4⟩
    cases heq
    exact ⟨rfl, rfl⟩
  · intro z cpu hcpu cpu' hcpu' x hx hx'
    have heq := (hp.place_of_mem hcpu hx).symm.trans (hp.place_of_mem hcpu' hx')
    cases heq
    rfl
  · intro z c c' hc hc' x hx hx'
    exact (hp.buddy.owner_unique (.inr (halloc z c' hc')) (.inr (halloc z c hc)) hx' hx).2

theorem Stocked.mem_freePart_iff (z : ζ) (x : Nat) :
    x ∈ freePart C (fun z o => v.mem (.freeList z o)) z ↔
      x ∈ C.managed z ∧ ¬ Cached cpus v z x ∧ x ∉ heldPart a z := by
  have hc := h.conserved
  rw [hc.managed z]
  constructor
  · intro hx
    exact ⟨.inl (.inl hx), Set.disjoint_left.mp (hc.free_cached z) hx,
      Set.disjoint_left.mp (hc.free_held z) hx⟩
  · rintro ⟨(hx | hx) | hx, hnc, hnh⟩
    · exact hx
    · exact absurd hx hnc
    · exact absurd hx hnh

omit h in
theorem Started.stocked [DecidableEq ζ] (hbatch : ∀ z, 6 * batch z < 2 ^ 31)
    (h : a.Started C cpus batch) : a.Stocked C cpus batch
      ⟨fun _ => none, fun _ => [], fun z => {b | (z, b) ∈ a.allocated}⟩ := by
  have hgood := h.booted.good
  have hnone : ∀ z x, ¬ Cached (ζ := ζ) cpus
      ⟨fun _ => none, fun _ => [], fun z => {b | (z, b) ∈ a.allocated}⟩ z x := by
    rintro z x ⟨cpu, _, hx⟩
    cases hx
  refine ⟨⟨⟨⟨?_, ⟨?_, ?_⟩, ?_, ?_, hgood.buddy.tiling, hgood.buddy.buddy, ?_,
    hgood.buddy.nrFree⟩, h.initialized, ?_, fun _ _ _ => rfl, ?_, ?_⟩, ?_, ?_, ?_⟩,
    h.booted.nodup, h.held⟩
  · exact fun z o ho => .inl ⟨z, o, rfl, ho⟩
  · rintro k (⟨z, o, rfl, ho⟩ | ⟨z, cpu, rfl, hcpu⟩)
    · exact h.booted.lists z o ho
    · exact h.lists z cpu hcpu
  · intro k e _
    simp
  · exact nofun
  · exact nofun
  · exact nofun
  · intro z c
    simp only [hnone, and_false, or_false]
    rfl
  · rintro z x ⟨f, ⟨_, hf⟩, _⟩
    cases hf
  · exact fun z x hx => absurd hx (hnone z x)
  · intro z cpu hcpu
    rw [h.settings z cpu hcpu, pagesetSetBatch_eq (hbatch z)]
    rfl
  · intro z cpu hcpu
    rw [h.settings z cpu hcpu, pagesetSetBatch_eq (hbatch z)]
  · intro z cpu hcpu
    rw [h.settings z cpu hcpu, pagesetSetBatch_eq (hbatch z)]
    dsimp only
    omega

variable [DecidableEq ζ]

theorem Stocked.serve (fuel : Nat) {r : Request ζ} (hr : r.Allowed cpus a) :
    ∃ a' v', a.serve C cpus (fuel + 2) r = some a' ∧ a'.Stocked C cpus batch v' := by
  have hkeep : ∀ {held : Set (ζ × Block)} {s' : Zones ζ}, Kept held a.zones s' → ∀ z b,
      (z, b) ∈ held → (z, b) ∈ a.allocated → Held 1 s' b := fun hk z b hb hmem =>
    (h.held z b hmem).congr (hk z b hb)
  unfold Allocator.serve
  rw [if_pos hr]
  cases r with
  | alloc z cpu order =>
    obtain ⟨s', page, halloc, hpage⟩ := h.stock.allocPages_spec hr z order fuel
    simp only [halloc, Option.map_some]
    cases page with
    | none =>
      obtain ⟨v', hstock, hkept⟩ := hpage
      exact ⟨_, v', rfl, hstock, h.nodup, fun z b hb => hkeep hkept z b hb hb⟩
    | some pfn =>
      obtain ⟨v', hstock, hkept, hfresh, hheld⟩ := hpage
      have hset : insert (z, (⟨pfn, order⟩ : Block)) {p | p ∈ a.allocated} =
          {p | p ∈ (z, ⟨pfn, order⟩) :: a.allocated} := by
        ext p
        simp
      rw [hset] at hstock
      refine ⟨_, v', rfl, hstock, List.nodup_cons.mpr ⟨hfresh, h.nodup⟩, ?_⟩
      intro z' b hb
      rcases List.mem_cons.mp hb with heq | hb
      · cases heq
        exact hheld
      · exact hkeep hkept z' b hb hb
  | free z cpu b =>
    obtain ⟨hcpu, hb⟩ := hr
    obtain ⟨s', v', hfree, hstock, hkept⟩ := h.stock.freePages_spec hcpu hb (h.held z b hb)
    have hset : ({p | p ∈ a.allocated} : Set (ζ × Block)) \ {(z, b)} =
        {p | p ∈ a.allocated.erase (z, b)} := by
      ext p
      simp [h.nodup.mem_erase_iff, and_comm]
    rw [hset] at hstock
    simp only [hfree, Option.map_some]
    refine ⟨_, v', rfl, hstock, h.nodup.erase _, fun z' c hc => ?_⟩
    obtain ⟨hne, hmem⟩ := h.nodup.mem_erase_iff.mp hc
    exact hkeep hkept z' c ⟨hmem, hne⟩ hmem

/-- What `free_pcppages_bulk` does with a list that is long enough. -/
structure Moves (C : Config ζ) (cpus : List Nat) (a : Allocator ζ) (z : ζ) (cpu n : Nat)
    (blocks lists blocks' lists' : ζ → Nat → List Nat) (s' : Zones ζ) : Prop where
  conserved : Conserved C cpus { a with zones := s' } blocks' lists'
  list : lists' z cpu = (lists z cpu).take ((lists z cpu).length - n)
  other_list : ∀ z' cpu', (z', cpu') ≠ (z, cpu) → lists' z' cpu' = lists z' cpu'
  free : freePart C blocks' z =
    freePart C blocks z ∪ {x | x ∈ (lists z cpu).drop ((lists z cpu).length - n)}
  other_free : ∀ z', z' ≠ z → freePart C blocks' z' = freePart C blocks z'

theorem Stocked.moves {z : ζ} {cpu n : Nat} (hcpu : cpu ∈ cpus)
    (hn : n ≤ (v.mem (.pcp z cpu)).length) :
    ∃ s' blocks' lists', freePcppagesBulk C a.zones z cpu n = some s' ∧
      Moves C cpus a z cpu n (fun z o => v.mem (.freeList z o)) (fun z cpu => v.mem (.pcp z cpu))
        blocks' lists' s' := by
  obtain ⟨s', v', hbulk, hstock, hkept, hre⟩ := h.stock.bulk hcpu hn
  have h' : ({ a with zones := s' } : Allocator ζ).Stocked C cpus batch v' :=
    ⟨hstock, h.nodup, fun z b hb => (h.held z b hb).congr (hkept z b hb)⟩
  have hsplit := List.take_append_drop ((v.mem (.pcp z cpu)).length - n) (v.mem (.pcp z cpu))
  have hnodup := h.stock.pools.buddy.lists.nodup (inUse_pcp (z := z) hcpu)
  rw [← hsplit, List.nodup_append] at hnodup
  refine ⟨s', _, _, hbulk, h'.conserved, hre.mem, hre.other, ?_, ?_⟩
  · ext x
    rw [Set.mem_union, h'.mem_freePart_iff, h.mem_freePart_iff]
    constructor
    · rintro ⟨hm, hnc, hnh⟩
      by_cases hc : Cached cpus v z x
      · right
        obtain ⟨cpu', hcpu', hx⟩ := hc
        by_cases heq : cpu' = cpu
        · subst heq
          rw [← hsplit, List.mem_append] at hx
          refine hx.resolve_left fun htake => hnc ⟨cpu', hcpu', ?_⟩
          rw [hre.mem]
          exact htake
        · refine absurd ⟨cpu', hcpu', ?_⟩ hnc
          rw [hre.other z cpu' (by simpa using heq)]
          exact hx
      · exact .inl ⟨hm, hc, hnh⟩
    · rintro (⟨hm, hnc, hnh⟩ | hx)
      · refine ⟨hm, fun hc' => hnc ?_, hnh⟩
        obtain ⟨cpu', hcpu', hx⟩ := hc'
        by_cases heq : cpu' = cpu
        · subst heq
          rw [hre.mem] at hx
          exact ⟨cpu', hcpu', List.mem_of_mem_take hx⟩
        · rw [hre.other z cpu' (by simpa using heq)] at hx
          exact ⟨cpu', hcpu', hx⟩
      · have hmem : x ∈ v.mem (.pcp z cpu) := List.mem_of_mem_drop hx
        have hc := h.conserved
        refine ⟨?_, ?_, Set.disjoint_left.mp (hc.cached_held z) ⟨cpu, hcpu, hmem⟩⟩
        · rw [hc.managed z]
          exact .inl (.inr ⟨cpu, hcpu, hmem⟩)
        · rintro ⟨cpu', hcpu', hx'⟩
          by_cases heq : cpu' = cpu
          · subst heq
            rw [hre.mem] at hx'
            exact hnodup.2.2 x hx' x hx rfl
          · rw [hre.other z cpu' (by simpa using heq)] at hx'
            exact heq (hc.lists_disjoint z cpu' hcpu' cpu hcpu x hx' hmem)
  · intro z' hz
    ext x
    rw [h'.mem_freePart_iff, h.mem_freePart_iff]
    have hcached : Cached cpus v' z' x ↔ Cached cpus v z' x := by
      simp only [Cached, hre.other z' _ (fun heq => hz (Prod.mk.inj heq).1)]
    rw [hcached]
    rfl

end Allocator

theorem stocked_of_reach [DecidableEq ζ] {fuel : Nat} (hbatch : ∀ z, 6 * batch z < 2 ^ 31)
    {a : Allocator ζ} (h : (pagesMachine C cpus batch (fuel + 2)).Reach Machine.free a) :
    ∃ v, a.Stocked C cpus batch v := by
  refine h.invariant (I := fun a => ∃ v, a.Stocked C cpus batch v) ?_ ?_
  · exact fun a ha => ⟨_, ha.stocked hbatch⟩
  · rintro a r a' ⟨v, hv⟩ _ hstep
    by_cases hr : r.Allowed cpus a
    · obtain ⟨a'', v', hserve, hv'⟩ := hv.serve fuel hr
      change a.serve C cpus (fuel + 2) r = some a' at hstep
      rw [hserve] at hstep
      cases hstep
      exact ⟨v', hv'⟩
    · change a.serve C cpus (fuel + 2) r = some a' at hstep
      unfold Allocator.serve at hstep
      rw [if_neg hr] at hstep
      cases hstep

/-- In every run the pages are conserved, the counters are right, no request stops, and a bulk
free of no more pages than the list has moves exactly the last ones to the free areas. -/
theorem pages_conserved [DecidableEq ζ] {fuel : Nat} (hbatch : ∀ z, 6 * batch z < 2 ^ 31)
    {a : Allocator ζ} (h : (pagesMachine C cpus batch (fuel + 2)).Reach Machine.free a) :
    (∃ blocks lists, Conserved C cpus a blocks lists ∧
      ∀ z, ∀ cpu ∈ cpus, ∀ n ≤ (lists z cpu).length, ∃ s' blocks' lists',
        freePcppagesBulk C a.zones z cpu n = some s' ∧
        Allocator.Moves C cpus a z cpu n blocks lists blocks' lists' s') ∧
    ∀ r : Request ζ, r.Allowed cpus a → (a.serve C cpus (fuel + 2) r).isSome := by
  obtain ⟨v, hv⟩ := stocked_of_reach hbatch h
  refine ⟨⟨_, _, hv.conserved, fun z cpu hcpu n hn => hv.moves hcpu hn⟩, fun r hr => ?_⟩
  obtain ⟨a', _, hserve, _⟩ := hv.serve fuel hr
  simp [hserve]

/-- The eight pages of `Config.small` as the boot code leaves them, with a batch of zero. -/
def Allocator.smallStarted : Allocator Unit where
  zones := ⟨⟨id, id⟩, fun x => { Page.fresh with refcount := if x % 4 = 0 then 1 else 0 },
    fun _ => 0, fun _ => pagesetSetBatch 0⟩
  allocated := [((), ⟨0, 2⟩), ((), ⟨4, 2⟩)]

theorem Allocator.smallStarted_started :
    Allocator.smallStarted.Started .small [0, 1] fun _ => 0 where
  booted := ⟨Allocator.small_booted.lists, Allocator.small_booted.nrFree,
    Allocator.small_booted.buddy, Allocator.small_booted.nodup, Allocator.small_booted.tiling⟩
  initialized _ := rfl
  lists _ _ _ := ⟨⟨rfl, rfl⟩, by simp⟩
  settings _ _ _ := rfl
  held z b hb := by
    have hcases : b = ⟨0, 2⟩ ∨ b = ⟨4, 2⟩ := by
      simpa [Allocator.smallStarted] using hb
    have hcount : ∀ x, (Allocator.smallStarted.zones.pages x).refcount =
        if x % 4 = 0 then 1 else 0 := fun _ => rfl
    refine ⟨?_, rfl, fun _ _ => rfl, fun x hx hne => ⟨rfl, ?_⟩, .inl ⟨rfl, fun _ _ _ => rfl⟩⟩
    · rcases hcases with rfl | rfl <;> rfl
    · rw [hcount, if_neg]
      rcases hcases with rfl | rfl <;> simp only [Block.Covers] at hx hne <;> omega

theorem pages_conserved_sample : ∃ a, (pagesMachine .small [0, 1] (fun _ => 0) 2).run .smallStarted
    [.free () 0 ⟨0, 2⟩, .alloc () 1 0, .alloc () 0 1, .free () 0 ⟨0, 0⟩] = some a ∧
    a.allocated = [((), ⟨2, 1⟩), ((), ⟨4, 2⟩)] ∧ ∃ blocks lists,
      Conserved .small [0, 1] a blocks lists := by
  obtain ⟨a, ha, hreach, hallocated⟩ := Machine.exists_run
    (M := pagesMachine .small [0, 1] (fun _ => 0) 2) (G := Machine.free)
    (P := fun a => a.allocated = [((), ⟨2, 1⟩), ((), ⟨4, 2⟩)])
    (.init Allocator.smallStarted_started)
    [.free () 0 ⟨0, 2⟩, .alloc () 1 0, .alloc () 0 1, .free () 0 ⟨0, 0⟩] (by decide +kernel)
  obtain ⟨⟨blocks, lists, hconserved, _⟩, _⟩ := pages_conserved (fun _ => by decide) hreach
  exact ⟨a, ha, hallocated, blocks, lists, hconserved⟩

end MinixRt.PageAlloc
