import MinixRt.PageAlloc.Buddy

/-!
# Freeing and allocating blocks

The loops of `__free_one_page` and `expand` work on one block that is out of the allocator and
grows or shrinks. `Becomes` describes such a stretch of work: the block in hand was `b` and is
now `b'`, everything else that was allocated still is, and the block together with the free
blocks covers the same pages as before.
-/

namespace MinixRt.PageAlloc

open Function MinixRt.Lib

variable {ζ : Type} {C : Config ζ} {valid : ListHead ζ → Prop} {s s' : Zones ζ} {z : ζ}
  {v v' : View ζ} {b b' : Block} {x pfn : Nat}

/-! ## The block in hand -/

/-- The block in hand: allocated, and on no list. -/
structure InHand (C : Config ζ) (valid : ListHead ζ → Prop) (z : ζ) (s : Zones ζ) (v : View ζ)
    (b : Block) : Prop where
  buddy : Buddy C valid s v
  alloc : b ∈ v.alloc z
  place : v.place b.base = none

structure Becomes (C : Config ζ) (valid : ListHead ζ → Prop) (z : ζ) (s : Zones ζ) (v : View ζ)
    (b : Block) (s' : Zones ζ) (v' : View ζ) (b' : Block) : Prop where
  inHand : InHand C valid z s' v' b'
  moved : Moved z (region C v z b) s v s' v'
  rest : v'.alloc z \ {b'} = v.alloc z \ {b}
  region : region C v' z b' = region C v z b

namespace Becomes

theorem refl (h : InHand C valid z s v b) : Becomes C valid z s v b s v b :=
  ⟨h, .refl _ _ _ _, rfl, rfl⟩

theorem trans {s'' : Zones ζ} {v'' : View ζ} {b'' : Block} (h1 : Becomes C valid z s v b s' v' b')
    (h2 : Becomes C valid z s' v' b' s'' v'' b'') : Becomes C valid z s v b s'' v'' b'' where
  inHand := h2.inHand
  moved := h1.moved.trans (h1.region ▸ h2.moved)
  rest := h2.rest.trans h1.rest
  region := h2.region.trans h1.region

theorem calm (h : Becomes C valid z s v b s' v' b') (hc : Calm C s v b) : Calm C s' v' b' := by
  have hregion : ∀ x ∈ PageAlloc.region C v' z b', (s'.pages x).Quiet := by
    intro x hx
    rw [h.region] at hx
    rcases hx with hx | ⟨f, hf, hx⟩
    · exact h.moved.quiet (hc.block x hx)
    · exact h.moved.quiet (hc.free z f hf x hx)
  refine ⟨fun x hx => hregion x (.inl hx), fun z' f hf x hx => ?_⟩
  by_cases hz : z' = z
  · subst hz
    exact hregion x (.inr ⟨f, hf, hx⟩)
  · rw [h.moved.free_of_ne hz] at hf
    exact h.moved.quiet (hc.free z' f hf x hx)

end Becomes

namespace Buddy

theorem notMem_region (h : Buddy C valid s v) {z' : ζ} {c : Block} (hc : c ∈ v.alloc z')
    (hne : (z', c) ≠ (z, b)) (hb : b ∈ v.alloc z) (hx : c.Covers x) : x ∉ region C v z b := by
  rintro (hbx | ⟨f, hf, hfx⟩)
  · obtain ⟨rfl, rfl⟩ := h.owner_unique (.inr hb) (.inr hc) hbx hx
    exact hne rfl
  · obtain ⟨rfl, rfl⟩ := h.owner_unique (.inl hf) (.inr hc) hfx hx
    exact (h.tiling z').disjoint _ hf hc

end Buddy

namespace InHand

variable (h : InHand C valid z s v b)
include h

theorem place_of_covers (hx : b.Covers x) : v.place x = none := by
  rcases hplace : v.place x with _ | k
  · rfl
  obtain ⟨z', hz'⟩ := h.buddy.single x k hplace fun z o heq =>
    h.buddy.place_of_alloc h.alloc hx z o (hplace.trans (congrArg some heq))
  obtain ⟨_, rfl⟩ := h.buddy.owner_unique (.inr h.alloc) (.inr hz') hx (Block.covers_base _)
  rw [h.place] at hplace
  cases hplace

theorem aligned : b.Aligned :=
  (h.buddy.tiling z).aligned b (.inr h.alloc)

theorem zone (hx : b.Covers x) : C.zone x = z :=
  C.zone_of_managed _ _ (h.buddy.managed_of_alloc h.alloc hx)

variable [DecidableEq ζ]

theorem merge (hbuddy : b.buddy ∈ v.free C z) (hlt : b.order + 1 < C.maxOrder) :
    ∃ s' v', freeAreaDel s z b.buddy.base b.buddy.order = some s' ∧
      Becomes C valid z s v b s' v' b.parent := by
  have hR : b.buddy.base ∈ region C v z b := .inr ⟨_, hbuddy, Block.covers_base _⟩
  obtain ⟨s', hdel, htake, hmoved⟩ := h.buddy.take hbuddy hR
  have hfree := h.buddy.free_take hbuddy
  have halloc : (v.take z b.buddy).alloc z = insert b.buddy (v.alloc z) := update_self ..
  have hmerge := (htake.tiling z).merge (halloc ▸ .inr h.alloc) (halloc ▸ .inl rfl) hlt
  have hparent : ∀ a ∈ v.free C z ∪ v.alloc z, a ≠ b.parent := by
    rintro a ha rfl
    have hcov := h.aligned.covers_parent.mpr (.inl b.covers_base)
    have heq := (h.buddy.tiling z).eq_of_covers _ ha b (.inr h.alloc) b.base hcov b.covers_base
    exact absurd (congrArg Block.order heq) (Nat.succ_ne_self _)
  have hplace : ∀ c, c = b ∨ c = b.buddy → (v.take z b.buddy).place c.base = none := by
    intro c hc
    simp only [View.take, update_apply]
    split_ifs with heq
    · rfl
    · rcases hc with rfl | rfl
      · exact h.place
      · exact absurd rfl heq
  refine ⟨s', _, hdel, ⟨⟨htake.recut hmerge ?_, ?_, ?_⟩, hmoved.recut _, ?_, ?_⟩⟩
  · intro x hx hmem
    refine .inl ⟨hmem, fun hc => hx ?_⟩
    exact hplace ⟨x, 0⟩ hc
  · rw [View.recut_alloc]
    exact .inr rfl
  · rcases h.aligned.halves.2 with ⟨heq, _⟩ | ⟨heq, _⟩
    · exact heq ▸ hplace b (.inl rfl)
    · exact heq ▸ hplace b.buddy (.inr rfl)
  · have hbuddy' : b.buddy ∉ v.alloc z := (h.buddy.tiling z).disjoint _ hbuddy
    rw [View.recut_alloc, halloc]
    ext c
    have hc := hparent c
    simp only [Set.mem_sdiff, Set.mem_union, Set.mem_insert_iff, Set.mem_singleton_iff] at hc ⊢
    constructor
    · rintro ⟨⟨rfl | hmem, hne⟩ | rfl, hnp⟩
      · exact absurd (.inr rfl) hne
      · exact ⟨hmem, fun heq => hne (.inl heq)⟩
      · exact absurd rfl hnp
    · rintro ⟨hmem, hne⟩
      refine ⟨.inl ⟨.inr hmem, ?_⟩, hc (.inr hmem)⟩
      rintro (rfl | rfl)
      · exact hne rfl
      · exact hbuddy' hmem
  · ext x
    simp only [region, Set.mem_ofPred_eq, View.recut_free, hfree, if_true,
      h.aligned.covers_parent]
    constructor
    · rintro ((hx | hx) | ⟨f, hf, hx⟩)
      · exact .inl hx
      · exact .inr ⟨_, hbuddy, hx⟩
      · exact .inr ⟨f, hf.1, hx⟩
    · rintro (hx | ⟨f, hf, hx⟩)
      · exact .inl (.inl hx)
      · by_cases heq : f = b.buddy
        · exact .inl (.inr (heq ▸ hx))
        · exact .inr ⟨f, ⟨hf, heq⟩, hx⟩

theorem split (hpos : 0 < b.order)
    (hset : setPageOrder (freeAreaAdd s z b.upper.base b.upper.order false) b.upper.base
      b.upper.order = some s') : ∃ v', Becomes C valid z s v b s' v' b.lower := by
  rw [setPageOrder_freeAreaAdd, Option.map_eq_some_iff] at hset
  obtain ⟨s1, hset, rfl⟩ := hset
  have hbase : b.Covers b.upper.base := Block.covers_upper hpos (Block.covers_base _)
  have hhalf : ∀ a, a = b.lower ∨ a = b.upper → a ∉ v.alloc z := by
    intro a ha hmem
    have hcov : b.Covers a.base := by
      rcases ha with rfl | rfl
      · exact Block.covers_lower hpos (Block.covers_base _)
      · exact hbase
    have heq := (h.buddy.tiling z).eq_of_covers a (.inr hmem) b (.inr h.alloc) _ a.covers_base hcov
    have horder : a.order = b.order - 1 := by rcases ha with rfl | rfl <;> rfl
    rw [heq] at horder
    omega
  have hsplit := (h.buddy.tiling z).split h.alloc hpos
  have hrecut := h.buddy.recut hsplit fun x hx hmem => by
    refine .inl ⟨hmem, ?_⟩
    rintro rfl
    exact hx h.place
  have hlower : b.lower ∈ v.alloc z \ {b} ∪ {b.lower, b.upper} := .inr (.inl rfl)
  have hupper : b.upper ∈ (v.recut z (v.alloc z \ {b} ∪ {b.lower, b.upper})).alloc z := by
    rw [View.recut_alloc]
    exact .inr (.inr rfl)
  obtain ⟨hbuddy, hmoved⟩ := hrecut.give (R := region C v z b) hupper (h.place_of_covers hbase)
    (fun _ hmem => by
      rw [h.aligned.buddy_upper hpos] at hmem
      exact hsplit.disjoint _ hmem hlower) (.inl hbase) hset false
  have hlt := hsplit.order_lt b.upper (.inr (.inr (.inr rfl)))
  refine ⟨_, ⟨⟨hbuddy, ?_, ?_⟩, ((Moved.refl z _ s v).recut _).trans hmoved, ?_, ?_⟩⟩
  · simp [View.give, Block.lower_ne_upper]
  · have hne : b.base ≠ b.upper.base := by
      intro heq
      refine Block.lower_ne_upper (b := b) ?_
      rw [Block.ext_iff]
      exact ⟨heq, rfl⟩
    simp only [View.give, View.recut, Block.lower, update_of_ne hne]
    exact h.place
  · simp only [View.give, update_self, View.recut_alloc]
    ext c
    have hc := hhalf c
    simp only [Set.mem_sdiff, Set.mem_union, Set.mem_insert_iff, Set.mem_singleton_iff]
    tauto
  · ext x
    simp only [region, Set.mem_ofPred_eq, Buddy.free_give z false hlt, if_true, View.recut_free]
    rw [Block.covers_halves hpos]
    constructor
    · rintro (hx | ⟨f, rfl | hf, hx⟩)
      · exact .inl (.inl hx)
      · exact .inl (.inr hx)
      · exact .inr ⟨f, hf, hx⟩
    · rintro ((hx | hx) | ⟨f, hf, hx⟩)
      · exact .inl hx
      · exact .inr ⟨_, .inl rfl, hx⟩
      · exact .inr ⟨f, .inr hf, hx⟩

end InHand

/-! ## Freeing a block -/

theorem pageCount_of_place (h : Buddy C valid s v) {z : ζ} {o : Nat}
    (hplace : v.place x = some (.freeList z o)) : pageCount s x = (s.pages x).refcount := by
  have hvalid := h.valid_freeList z o (h.order_lt x z o hplace)
  have hmem := (h.lists.mem_iff _ _ hvalid).mpr hplace
  have hnext := ((h.lists.linked _ hvalid).links_mem (List.mem_map_of_mem hmem)).1
  simp only [pageCount, compoundHead]
  split
  · next head heq => exact absurd heq (ring_ne_compoundHead hnext)
  · rfl

variable [DecidableEq ζ]

theorem pageIsBuddy_spec (h : Buddy C valid s v) (hzone : C.zone pfn = z) (buddy order : Nat) :
    match pageIsBuddy C s pfn buddy order with
    | some true => ⟨buddy, order⟩ ∈ v.free C z
    | some false => (⟨buddy, order⟩ : Block) ∉ v.free C z
    | none => ⟨buddy, order⟩ ∈ v.free C z ∧ (s.pages buddy).refcount ≠ 0 := by
  have hfree : ∀ z', (⟨buddy, order⟩ : Block) ∈ v.free C z' → C.zone buddy = z' := fun z' hf =>
    C.zone_of_managed _ _ (h.managed_of_free hf (Block.covers_base _))
  have hmarked : (s.pages buddy).buddy && (s.pages buddy).priv == order →
      ¬ C.zone pfn ≠ C.zone buddy → (⟨buddy, order⟩ : Block) ∈ v.free C z := by
    intro hmark hz
    rw [Bool.and_eq_true, beq_iff_eq] at hmark
    obtain ⟨z', o, hplace⟩ := (h.buddy buddy).mp hmark.1
    have hf : (⟨buddy, order⟩ : Block) ∈ v.free C z' :=
      h.mem_free_iff.mpr (hmark.2 ▸ h.priv buddy z' o hplace ▸ hplace)
    rwa [← hzone, not_not.mp hz, hfree z' hf]
  unfold pageIsBuddy
  split_ifs with hmark hz hcount
  · intro hf
    exact hz (hzone.trans (hfree z hf).symm)
  · have hf := hmarked hmark hz
    rw [pageCount_of_place h (h.mem_free_iff.mp hf)] at hcount
    exact ⟨hf, hcount⟩
  · exact hmarked hmark hz
  · intro hf
    have hplace := h.mem_free_iff.mp hf
    refine hmark ?_
    rw [Bool.and_eq_true, beq_iff_eq]
    exact ⟨(h.buddy buddy).mpr ⟨z, order, hplace⟩, h.priv buddy z order hplace⟩

theorem mergeLoop_spec (left : Nat) (h : InHand C valid z s v b)
    (hleft : left + b.order + 1 = C.maxOrder) : match mergeLoop C z left s b with
    | some (s', b') => ∃ v', Becomes C valid z s v b s' v' b' ∧
        (b'.order + 1 < C.maxOrder → b'.buddy ∉ v'.free C z)
    | none => ¬ Calm C s v b := by
  induction left generalizing s v b with
  | zero =>
    refine ⟨v, .refl h, fun hlt => ?_⟩
    omega
  | succ left ih =>
    have hspec :=
      pageIsBuddy_spec h.buddy (h.zone b.covers_base) (findBuddyPfn b.base b.order) b.order
    simp only [mergeLoop]
    split_ifs with hpfn
    · generalize pageIsBuddy C s b.base (findBuddyPfn b.base b.order) b.order = found at hspec ⊢
      rcases found with _ | _ | _
      · intro hcalm
        exact hspec.2 (hcalm.free z _ hspec.1 _ (Block.covers_base _)).refcount
      · exact ⟨v, .refl h, fun _ => hspec⟩
      · obtain ⟨s1, v1, hdel, hbecomes⟩ := h.merge hspec (by omega)
        change freeAreaDel s z (findBuddyPfn b.base b.order) b.order = some s1 at hdel
        simp only [hdel]
        have hrest := ih (b := ⟨findBuddyPfn b.base b.order &&& b.base, b.order + 1⟩)
          hbecomes.inHand (by simp only; omega)
        generalize mergeLoop C z left s1 _ = merged at hrest ⊢
        rcases merged with _ | ⟨s', b'⟩
        · exact fun hcalm => hrest (hbecomes.calm hcalm)
        · obtain ⟨v', hbecomes', hbuddy⟩ := hrest
          exact ⟨v', hbecomes.trans hbecomes', hbuddy⟩
    · refine ⟨v, .refl h, fun _ hfree => hpfn ?_⟩
      exact C.valid_of_managed _ _ (h.buddy.managed_of_free hfree (Block.covers_base _))

theorem quiet_hasType {p : Page} (h : p.Quiet) : p.hasType 0 := by
  rw [hasType_zero_iff]
  have hand := congrArg (· &&& pageTypeBase) h.pageType
  simpa [BitVec.and_or_distrib_right, pgBuddy, pageTypeBase] using hand

theorem pageCount_setPage {p : Page} (hp : p.refcount = (s.pages pfn).refcount) (x : Nat) :
    pageCount (s.setPage pfn p) x = pageCount s x := by
  unfold pageCount
  simp only [setPage_field Page.refcount hp]
  rfl

theorem higherBuddyFree_isSome (h : InHand C valid z s v b) (hcalm : Calm C s v b)
    (hset : setPageOrder s b.base b.order = some s') : (higherBuddyFree C s' b).isSome := by
  simp only [setPageOrder] at hset
  split_ifs at hset
  cases hset
  simp only [higherBuddyFree]
  split_ifs
  · generalize findBuddyPfn (findBuddyPfn b.base b.order &&& b.base) (b.order + 1) = x
    simp only [pageIsBuddy]
    split_ifs with hmark hzone hcount
    · rfl
    · rw [Bool.and_eq_true, beq_iff_eq] at hmark
      obtain ⟨hmark, hpriv⟩ := hmark
      simp only [Zones.setPage] at hmark hpriv
      -- the block that was just marked has the wrong order
      by_cases heq : x = b.base
      · rw [heq, update_self] at hpriv
        exact absurd hpriv (Nat.succ_ne_self _).symm
      · rw [update_of_ne heq] at hmark
        obtain ⟨z', o, hplace⟩ := (h.buddy.buddy _).mp hmark
        have hfree : (⟨x, o⟩ : Block) ∈ v.free C z' := h.buddy.mem_free_iff.mpr hplace
        refine absurd ?_ hcount
        rw [pageCount_setPage (p := { s.pages b.base with
          priv := b.order, pageType := (s.pages b.base).pageType &&& ~~~pgBuddy }) rfl,
          pageCount_of_place h.buddy hplace]
        exact (hcalm.free z' _ hfree _ (Block.covers_base _)).refcount
    · rfl
    · rfl
  · rfl
  · rfl

theorem freeOnePage_spec (h : InHand C valid z s v b) : match freeOnePage C s z b with
    | some s' => ∃ v', Buddy C valid s' v' ∧ Moved z (region C v z b) s v s' v' ∧
        v'.alloc z = v.alloc z \ {b}
    | none => C.initialized z → ¬ Calm C s v b := by
  have hlt := (h.buddy.tiling z).order_lt b (.inr h.alloc)
  have hmerge := mergeLoop_spec (C.maxOrder - 1 - b.order) h (by omega)
  unfold freeOnePage
  split_ifs with hbug
  · intro hinit hcalm
    have hmod : b.base &&& (2 ^ b.order - 1) = 0 := by
      rw [Nat.and_two_pow_sub_one_eq_mod]
      exact Nat.mod_eq_zero_of_dvd h.aligned
    simp [hinit, hmod, (hcalm.block _ b.covers_base).flags] at hbug
  · generalize mergeLoop C z (C.maxOrder - 1 - b.order) s b = merged at hmerge ⊢
    match merged with
    | none => exact fun _ => hmerge
    | some (s1, b1) =>
      obtain ⟨v1, hbecomes, hbuddy⟩ := hmerge
      have hcalm := hbecomes.calm
      have hhand := hbecomes.inHand
      simp only [Option.bind_eq_bind, Option.bind_some]
      rcases hset : setPageOrder s1 b1.base b1.order with _ | s2
      · intro _ hc
        simp only [setPageOrder] at hset
        split_ifs at hset with htype
        exact htype (quiet_hasType ((hcalm hc).block _ b1.covers_base))
      · simp only [Option.bind_some]
        rcases htail : higherBuddyFree C s2 b1 with _ | tail
        · intro _ hc
          have hsome := higherBuddyFree_isSome hhand (hcalm hc) hset
          simp [htail] at hsome
        · obtain ⟨hgive, hmoved⟩ := hhand.buddy.give (R := region C v1 z b1) hhand.alloc
            hhand.place hbuddy (.inl b1.covers_base) hset tail
          refine ⟨_, hgive, hbecomes.moved.trans (hbecomes.region ▸ hmoved), ?_⟩
          rw [← hbecomes.rest]
          exact update_self ..

/-! ## Allocating a block -/

omit [DecidableEq ζ] in
theorem listFirst_eq {place : Nat → Option (ListHead ζ)} {mem : ListHead ζ → List Nat}
    (h : Lists (layout ζ) s.links valid place mem) {k : ListHead ζ} (hk : valid k) :
    s.listFirst k = (mem k).head? := by
  have hnext := (h.linked k hk).next_head
  unfold Zones.listFirst
  change s.links.next (.head k) = _ at hnext
  rw [hnext]
  cases mem k <;> rfl

theorem expand_spec {low : Nat} (n : Nat) (h : InHand C valid z s v ⟨pfn, low + n⟩) :
    match expand z pfn low n s with
    | some s' => ∃ v', Becomes C valid z s v ⟨pfn, low + n⟩ s' v' ⟨pfn, low⟩
    | none => ¬ Calm C s v ⟨pfn, low + n⟩ := by
  induction n generalizing s v with
  | zero => exact ⟨v, .refl h⟩
  | succ n ih =>
    simp only [expand, Option.bind_eq_bind]
    rcases hset : setPageOrder (freeAreaAdd s z (pfn + 2 ^ (low + n)) (low + n) false)
      (pfn + 2 ^ (low + n)) (low + n) with _ | s1
    · intro hcalm
      have hcov : (⟨pfn, low + (n + 1)⟩ : Block).Covers (pfn + 2 ^ (low + n)) :=
        Block.covers_upper (Nat.succ_pos _) (Block.covers_base _)
      have htype := quiet_hasType (hcalm.block _ hcov)
      rw [setPageOrder_freeAreaAdd, setPageOrder, if_pos htype] at hset
      cases hset
    · obtain ⟨v1, hbecomes⟩ := h.split (Nat.succ_pos _) hset
      have hrest := ih hbecomes.inHand
      simp only [Option.bind_some]
      generalize expand z pfn low n s1 = expanded at hrest ⊢
      cases expanded with
      | none => exact fun hcalm => hrest (hbecomes.calm hcalm)
      | some s' =>
        obtain ⟨v', hbecomes'⟩ := hrest
        exact ⟨v', hbecomes.trans hbecomes'⟩

def freeSet (C : Config ζ) (v : View ζ) (z : ζ) : Set Nat :=
  {x | ∃ f ∈ v.free C z, f.Covers x}

/-- What `__rmqueue_smallest` leaves when it finds a page: a block of the order asked for was
cut out of the free blocks. -/
structure Taken (C : Config ζ) (valid : ListHead ζ → Prop) (z : ζ) (order : Nat) (s : Zones ζ)
    (v : View ζ) (s' : Zones ζ) (v' : View ζ) (pfn : Nat) : Prop where
  inHand : InHand C valid z s' v' ⟨pfn, order⟩
  moved : Moved z (freeSet C v z) s v s' v'
  alloc : v'.alloc z = insert ⟨pfn, order⟩ (v.alloc z)
  fresh : ⟨pfn, order⟩ ∉ v.alloc z
  covers : ∀ x, (⟨pfn, order⟩ : Block).Covers x → x ∈ freeSet C v z

variable (h : Buddy C valid s v)
include h

omit [DecidableEq ζ] in
theorem Buddy.notMem_freeSet {z' : ζ} {c : Block} (hc : c ∈ v.alloc z') (hx : c.Covers x) :
    x ∉ freeSet C v z := by
  rintro ⟨f, hf, hfx⟩
  obtain ⟨rfl, rfl⟩ := h.owner_unique (.inl hf) (.inr hc) hfx hx
  exact (h.tiling z').disjoint _ hf hc

omit [DecidableEq ζ] in
theorem Buddy.mem_freeSet_of (h' : Buddy C valid s' v') (hx : x ∈ freeSet C v' z) :
    x ∈ freeSet C v z ∨ ∃ c ∈ v.alloc z, c ∉ v'.alloc z ∧ c.Covers x := by
  obtain ⟨f, hf, hfx⟩ := hx
  obtain ⟨c, hc | hc, hcx⟩ := ((h.tiling z).covered x).mp (h'.managed_of_free hf hfx)
  · exact .inl ⟨c, hc, hcx⟩
  · refine .inr ⟨c, hc, fun hc' => ?_, hcx⟩
    exact h'.notMem_freeSet hc' hcx ⟨f, hf, hfx⟩

theorem region_take (hb : b ∈ v.free C z) : region C (v.take z b) z b = freeSet C v z := by
  ext x
  simp only [region, freeSet, h.free_take hb, if_true, Set.mem_ofPred_eq]
  constructor
  · rintro (hx | ⟨f, hf, hx⟩)
    · exact ⟨b, hb, hx⟩
    · exact ⟨f, hf.1, hx⟩
  · rintro ⟨f, hf, hx⟩
    by_cases heq : f = b
    · exact .inl (heq ▸ hx)
    · exact .inr ⟨f, ⟨hf, heq⟩, hx⟩

theorem rmqueueFrom_spec {order : Nat} (left currentOrder : Nat)
    (hleft : left + currentOrder = C.maxOrder) (horder : order ≤ currentOrder) :
    match rmqueueFrom z order s left currentOrder with
    | some (s', some pfn) => ∃ v', Taken C valid z order s v s' v' pfn
    | some (s', none) => s' = s
    | none => ¬ ∀ z, ∀ x ∈ freeSet C v z, (s.pages x).Quiet := by
  induction left generalizing currentOrder with
  | zero => rfl
  | succ left ih =>
    have hlt : currentOrder < C.maxOrder := by omega
    simp only [rmqueueFrom, listFirst_eq h.lists (h.valid_freeList z _ hlt)]
    rcases hfirst : (v.mem (.freeList z currentOrder)).head? with _ | pfn
    · exact ih (currentOrder + 1) (by omega) (by omega)
    · have hb : (⟨pfn, currentOrder⟩ : Block) ∈ v.free C z := ⟨hlt, List.mem_of_mem_head? hfirst⟩
      obtain ⟨s1, hdel, htake, hmoved⟩ :=
        h.take (R := freeSet C v z) hb ⟨_, hb, Block.covers_base _⟩
      have halloc : (v.take z ⟨pfn, currentOrder⟩).alloc z = insert ⟨pfn, currentOrder⟩ (v.alloc z) :=
        update_self ..
      have hhand : InHand C valid z s1 (v.take z ⟨pfn, currentOrder⟩)
          ⟨pfn, order + (currentOrder - order)⟩ := by
        rw [Nat.add_sub_of_le horder]
        exact ⟨htake, halloc ▸ .inl rfl, update_self ..⟩
      have hexpand := expand_spec (currentOrder - order) hhand
      rw [Nat.add_sub_of_le horder] at hexpand
      have hregion := region_take h hb
      change freeAreaDel s z pfn currentOrder = some s1 at hdel
      simp only [hdel, Option.bind_eq_bind, Option.bind_some]
      generalize expand z pfn order (currentOrder - order) s1 = expanded at hexpand ⊢
      match expanded with
      | none =>
        intro hquiet
        refine hexpand ⟨?_, ?_⟩
        · intro x hx
          exact hmoved.quiet (hquiet z x ⟨_, hb, hx⟩)
        · intro z' f hf x hx
          rw [h.free_take hb] at hf
          refine hmoved.quiet (hquiet z' x ⟨f, ?_, hx⟩)
          split_ifs at hf with hz
          · exact hz ▸ hf.1
          · exact hf
      | some s2 =>
        obtain ⟨v', hbecomes⟩ := hexpand
        have hnot := (h.tiling z).disjoint _ hb
        have hrest : v'.alloc z \ {⟨pfn, order⟩} = v.alloc z := by
          rw [hbecomes.rest, halloc, Set.insert_sdiff_of_mem _ (Set.mem_singleton _),
            Set.sdiff_singleton_eq_self hnot]
        refine ⟨v', hbecomes.inHand, hmoved.trans (hregion ▸ hbecomes.moved), ?_, ?_, ?_⟩
        · rw [← hrest, Set.insert_sdiff_singleton, Set.insert_eq_of_mem hbecomes.inHand.alloc]
        · rw [← hrest]
          exact fun hmem => hmem.2 rfl
        · intro x hx
          rw [← hregion, ← hbecomes.region]
          exact .inl hx

theorem rmqueueSmallest_spec (z : ζ) (order : Nat) : match rmqueueSmallest C s z order with
    | some (s', some pfn) => ∃ v', Taken C valid z order s v s' v' pfn
    | some (s', none) => s' = s
    | none => ¬ ∀ z, ∀ x ∈ freeSet C v z, (s.pages x).Quiet := by
  unfold rmqueueSmallest
  by_cases hle : order ≤ C.maxOrder
  · exact rmqueueFrom_spec h _ _ (Nat.sub_add_cancel hle) (Nat.le_refl _)
  · rw [Nat.sub_eq_zero_of_le (Nat.le_of_not_le hle)]
    rfl

end MinixRt.PageAlloc
