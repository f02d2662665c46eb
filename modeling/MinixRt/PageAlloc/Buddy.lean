import MinixRt.PageAlloc.Zone

/-!
# The buddy invariant

A `View` says which pages are on which list and which blocks of each zone are out of the
buddy allocator. `Buddy` ties it to the state: the lists hold what the view says, the free
and the allocated blocks tile the managed pages, and the buddy mark with the order stands on
the first page of each free block and nowhere else.

The invariant is kept by the moves of `Tiling`, one for each thing the code does to a block,
and each operation is described by the view it leaves and by the pages it does not touch.
-/

namespace MinixRt.PageAlloc

open Function MinixRt.Lib

variable {ζ : Type} {C : Config ζ} {valid : ListHead ζ → Prop} {s s' : Zones ζ} {z : ζ}

/-! ## The type word of a page -/

theorem hasType_zero_iff (p : Page) : p.hasType 0 ↔ p.pageType &&& pageTypeBase = pageTypeBase := by
  simp [Page.hasType]

theorem buddy_iff (p : Page) :
    p.buddy ↔ p.pageType &&& (pageTypeBase ||| pgBuddy) = pageTypeBase := by
  simp [Page.buddy, Page.hasType]

theorem buddy_of_clear {t : BitVec 32} (h : t &&& pageTypeBase = pageTypeBase) :
    (t &&& ~~~pgBuddy) &&& (pageTypeBase ||| pgBuddy) = pageTypeBase := by
  rw [BitVec.and_assoc, show ~~~pgBuddy &&& (pageTypeBase ||| pgBuddy) = pageTypeBase from by decide]
  exact h

theorem not_buddy_of_set (t : BitVec 32) :
    (t ||| pgBuddy) &&& (pageTypeBase ||| pgBuddy) ≠ pageTypeBase := by
  intro h
  have hbit := congrArg (fun t => t.getLsbD 7) h
  simp [pgBuddy, pageTypeBase] at hbit

theorem set_or_buddy (t : BitVec 32) : (t ||| pgBuddy) ||| pgBuddy = t ||| pgBuddy := by
  rw [BitVec.or_assoc, BitVec.or_self]

theorem clear_or_buddy (t : BitVec 32) : (t &&& ~~~pgBuddy) ||| pgBuddy = t ||| pgBuddy := by
  ext i hi
  simp only [BitVec.getElem_or, BitVec.getElem_and, BitVec.getElem_not]
  cases t[i] <;> cases pgBuddy[i] <;> rfl

theorem setPage_field [DecidableEq ζ] {α : Type} (f : Page → α) {pfn : Nat} {p : Page}
    (hp : f p = f (s.pages pfn)) (x : Nat) : f ((s.setPage pfn p).pages x) = f (s.pages x) := by
  simp only [Zones.setPage, update_apply]
  split_ifs with hx
  · rw [hp, hx]
  · rfl

/-! ## Tail pages and list links -/

theorem pageTail_iff {x : Nat} : pageTail s x ↔ ∃ y, s.links.next (.lru x) = .compoundHead y := by
  unfold pageTail
  split
  · next y heq => simp [heq]
  · next hne =>
    simp only [Bool.false_eq_true, false_iff, not_exists]
    exact hne

section Tail

variable {place : Nat → Option (ListHead ζ)} {mem : ListHead ζ → List Nat} {k : ListHead ζ}

theorem ring_ne_compoundHead {y : Nat} {n : Node ζ}
    (hn : n ∈ (layout ζ).head k :: (mem k).map (layout ζ).entry) : n ≠ .compoundHead y := by
  rintro rfl
  simp [layout] at hn

variable [DecidableEq ζ]

variable {e x : Nat}

theorem pageTail_of_listDel (h : Lists (layout ζ) s.links valid place mem) (hk : valid k)
    (he : place e = some k) (ht : pageTail (s.listDel e) x) : pageTail s x := by
  have hmem := List.mem_map_of_mem (f := (layout ζ).entry) ((h.mem_iff k e hk).mpr he)
  have hnext := ((h.linked k hk).links_mem hmem).1
  obtain ⟨y, hy⟩ := pageTail_iff.mp ht
  by_cases hxe : x = e
  · subst hxe
    simp [Zones.listDel, Links.del] at hy
  · have hne : (Node.lru x : Node ζ) ≠ .lru e := fun heq => hxe (Node.lru.inj heq)
    change (s.links.del (.lru e) .poison1 .poison2).next (.lru x) = _ at hy
    rw [(Links.del_of_ne hne).1, Links.unlink_next] at hy
    split_ifs at hy with hprev
    · exact absurd hy (ring_ne_compoundHead hnext)
    · exact pageTail_iff.mpr ⟨y, hy⟩

theorem pageTail_of_listAdd (h : Lists (layout ζ) s.links valid place mem) (hk : valid k)
    (ht : pageTail (s.listAdd e k) x) : pageTail s x := by
  obtain ⟨y, hy⟩ := pageTail_iff.mp ht
  change (s.links.insert (.lru e) (.head k) (s.links.next (.head k))).next (.lru x) = _ at hy
  rw [Links.insert_next, if_neg (by simp)] at hy
  split_ifs at hy
  · exact absurd hy (ring_ne_compoundHead (h.linked k hk).next_mem)
  · exact pageTail_iff.mpr ⟨y, hy⟩

theorem pageTail_of_listAddTail (ht : pageTail (s.listAddTail e k) x) : pageTail s x := by
  obtain ⟨y, hy⟩ := pageTail_iff.mp ht
  change (s.links.insert (.lru e) (s.links.prev (.head k)) (.head k)).next (.lru x) = _ at hy
  rw [Links.insert_next] at hy
  split_ifs at hy with hxh hxe
  exact pageTail_iff.mpr ⟨y, hy⟩

end Tail

/-! ## Views -/

/-- Which list each page is on, what each list holds, and which blocks are allocated. -/
structure View (ζ : Type) where
  place : Nat → Option (ListHead ζ)
  mem : ListHead ζ → List Nat
  alloc : ζ → Set Block

namespace View

def free (C : Config ζ) (v : View ζ) (z : ζ) : Set Block :=
  {b | b.order < C.maxOrder ∧ b.base ∈ v.mem (.freeList z b.order)}

def take [DecidableEq ζ] (v : View ζ) (z : ζ) (b : Block) : View ζ where
  place := update v.place b.base none
  mem := update v.mem (.freeList z b.order) ((v.mem (.freeList z b.order)).erase b.base)
  alloc := update v.alloc z (insert b (v.alloc z))

/-- An allocated block is put on the list of its order. -/
def give [DecidableEq ζ] (v : View ζ) (z : ζ) (b : Block) (tail : Bool) : View ζ where
  place := update v.place b.base (some (.freeList z b.order))
  mem := update v.mem (.freeList z b.order)
    (if tail then v.mem (.freeList z b.order) ++ [b.base]
      else b.base :: v.mem (.freeList z b.order))
  alloc := update v.alloc z (v.alloc z \ {b})

/-- The allocated blocks of a zone are cut in another way. -/
def recut [DecidableEq ζ] (v : View ζ) (z : ζ) (alloc : Set Block) : View ζ :=
  { v with alloc := update v.alloc z alloc }

/-- A page is taken off a list that is no free list. -/
def pop [DecidableEq ζ] (v : View ζ) (k : ListHead ζ) (x : Nat) : View ζ where
  place := update v.place x none
  mem := update v.mem k ((v.mem k).erase x)
  alloc := v.alloc

def push [DecidableEq ζ] (v : View ζ) (k : ListHead ζ) (x : Nat) (tail : Bool) : View ζ where
  place := update v.place x (some k)
  mem := update v.mem k (if tail then v.mem k ++ [x] else x :: v.mem k)
  alloc := v.alloc

@[simp] theorem recut_alloc [DecidableEq ζ] (v : View ζ) (z : ζ) (alloc : Set Block) :
    (v.recut z alloc).alloc z = alloc := update_self ..

@[simp] theorem recut_free [DecidableEq ζ] (C : Config ζ) (v : View ζ) (z z' : ζ)
    (alloc : Set Block) : (v.recut z alloc).free C z' = v.free C z' := rfl

end View

def freeHead (C : Config ζ) (h : ListHead ζ) : Prop := ∃ z o, h = .freeList z o ∧ o < C.maxOrder

/-- The state is what the view says; `valid` are the list heads in use. -/
structure Buddy (C : Config ζ) (valid : ListHead ζ → Prop) (s : Zones ζ) (v : View ζ) : Prop where
  valid_freeList : ∀ z o, o < C.maxOrder → valid (.freeList z o)
  lists : Lists (layout ζ) s.links valid v.place v.mem
  order_lt : ∀ x z o, v.place x = some (.freeList z o) → o < C.maxOrder
  /-- A page on any other list is an allocated block of its own. -/
  single : ∀ x h, v.place x = some h → (∀ z o, h ≠ .freeList z o) → ∃ z, ⟨x, 0⟩ ∈ v.alloc z
  tiling : ∀ z, Tiling C.maxOrder (C.managed z) (v.free C z) (v.alloc z)
  buddy : ∀ x, (s.pages x).buddy ↔ ∃ z o, v.place x = some (.freeList z o)
  priv : ∀ x z o, v.place x = some (.freeList z o) → (s.pages x).priv = o
  nrFree : ∀ z o, o < C.maxOrder → s.nrFree (z, o) = (v.mem (.freeList z o)).length

/-- The pages that an operation on a block of the zone can touch: the block and the free
blocks. -/
def region (C : Config ζ) (v : View ζ) (z : ζ) (b : Block) : Set Nat :=
  {x | b.Covers x ∨ ∃ f ∈ v.free C z, f.Covers x}

/-- Only the pages `R`, the free lists and the allocated blocks of the zone have changed, and
of the pages only the list links, the order and the buddy mark. -/
structure Moved (z : ζ) (R : Set Nat) (s : Zones ζ) (v : View ζ) (s' : Zones ζ) (v' : View ζ) :
    Prop where
  pages : ∀ x ∉ R, s'.pages x = s.pages x
  place : ∀ x ∉ R, v'.place x = v.place x
  next : ∀ x ∉ R, v.place x = none → s'.links.next (.lru x) = s.links.next (.lru x)
  tail : ∀ x, pageTail s' x → pageTail s x
  flags : ∀ x, (s'.pages x).flags = (s.pages x).flags
  refcount : ∀ x, (s'.pages x).refcount = (s.pages x).refcount
  compoundOrder : ∀ x, (s'.pages x).compoundOrder = (s.pages x).compoundOrder
  pageType : ∀ x, (s'.pages x).pageType ||| pgBuddy = (s.pages x).pageType ||| pgBuddy
  mem : ∀ h, (∀ o, h ≠ .freeList z o) → v'.mem h = v.mem h
  alloc : ∀ z', z' ≠ z → v'.alloc z' = v.alloc z'
  pcp : s'.pcp = s.pcp

/-- A page that no `BUG_ON` of the allocator stops at: nobody holds it, no flag is set, and its
type word has no bit cleared but the buddy mark. -/
structure Page.Quiet (p : Page) : Prop where
  flags : p.flags = .clear
  refcount : p.refcount = 0
  pageType : p.pageType ||| pgBuddy = BitVec.allOnes 32

namespace Moved

variable {R : Set Nat} {v v' : View ζ}

theorem refl (z : ζ) (R : Set Nat) (s : Zones ζ) (v : View ζ) : Moved z R s v s v where
  pages _ _ := rfl
  place _ _ := rfl
  next _ _ _ := rfl
  tail _ h := h
  flags _ := rfl
  refcount _ := rfl
  compoundOrder _ := rfl
  pageType _ := rfl
  mem _ _ := rfl
  alloc _ _ := rfl
  pcp := rfl

theorem trans {s'' : Zones ζ} {v'' : View ζ} (h1 : Moved z R s v s' v')
    (h2 : Moved z R s' v' s'' v'') : Moved z R s v s'' v'' where
  pages x hx := (h2.pages x hx).trans (h1.pages x hx)
  place x hx := (h2.place x hx).trans (h1.place x hx)
  next x hx hp := (h2.next x hx ((h1.place x hx).trans hp)).trans (h1.next x hx hp)
  tail x h := h1.tail x (h2.tail x h)
  flags x := (h2.flags x).trans (h1.flags x)
  refcount x := (h2.refcount x).trans (h1.refcount x)
  compoundOrder x := (h2.compoundOrder x).trans (h1.compoundOrder x)
  pageType x := (h2.pageType x).trans (h1.pageType x)
  mem h hh := (h2.mem h hh).trans (h1.mem h hh)
  alloc z' hz := (h2.alloc z' hz).trans (h1.alloc z' hz)
  pcp := h2.pcp.trans h1.pcp

variable (h : Moved z R s v s' v')
include h

theorem mem_pcp (z' : ζ) (cpu : Nat) : v'.mem (.pcp z' cpu) = v.mem (.pcp z' cpu) :=
  h.mem _ nofun

theorem free_of_ne {z' : ζ} (hz : z' ≠ z) : v'.free C z' = v.free C z' := by
  ext c
  have hmem : v'.mem (.freeList z' c.order) = v.mem (.freeList z' c.order) :=
    h.mem _ fun o heq => hz (ListHead.freeList.inj heq).1
  simp only [View.free, Set.mem_ofPred_eq, hmem]

theorem recut [DecidableEq ζ] (alloc : Set Block) : Moved z R s v s' (v'.recut z alloc) where
  pages := h.pages
  place := h.place
  next := h.next
  tail := h.tail
  flags := h.flags
  refcount := h.refcount
  compoundOrder := h.compoundOrder
  pageType := h.pageType
  mem := h.mem
  alloc z' hz := (update_of_ne hz _ _).trans (h.alloc z' hz)
  pcp := h.pcp

theorem quiet {x : Nat} (hq : (s.pages x).Quiet) : (s'.pages x).Quiet where
  flags := (h.flags x).trans hq.flags
  refcount := (h.refcount x).trans hq.refcount
  pageType := (h.pageType x).trans hq.pageType

end Moved

/-- No `BUG_ON` can fire while the block is freed. -/
structure Calm (C : Config ζ) (s : Zones ζ) (v : View ζ) (b : Block) : Prop where
  block : ∀ x, b.Covers x → (s.pages x).Quiet
  free : ∀ z, ∀ f ∈ v.free C z, ∀ x, f.Covers x → (s.pages x).Quiet

namespace Buddy

variable {v : View ζ} {b : Block} {R : Set Nat} (h : Buddy C valid s v)
include h

theorem mem_free_iff : b ∈ v.free C z ↔ v.place b.base = some (.freeList z b.order) := by
  constructor
  · rintro ⟨hlt, hmem⟩
    exact (h.lists.mem_iff _ _ (h.valid_freeList z _ hlt)).mp hmem
  · intro hplace
    have hlt := h.order_lt _ _ _ hplace
    exact ⟨hlt, (h.lists.mem_iff _ _ (h.valid_freeList z _ hlt)).mpr hplace⟩

variable {x : Nat}

theorem managed_of_alloc (hb : b ∈ v.alloc z) (hx : b.Covers x) : x ∈ C.managed z :=
  ((h.tiling z).covered x).mpr ⟨b, .inr hb, hx⟩

theorem managed_of_free (hb : b ∈ v.free C z) (hx : b.Covers x) : x ∈ C.managed z :=
  ((h.tiling z).covered x).mpr ⟨b, .inl hb, hx⟩

theorem owner_unique {z' : ζ} {c : Block} (hb : b ∈ v.free C z ∪ v.alloc z)
    (hc : c ∈ v.free C z' ∪ v.alloc z') (hbx : b.Covers x) (hcx : c.Covers x) : z' = z ∧ c = b := by
  have hzone := C.zone_of_managed _ _ (((h.tiling z).covered x).mpr ⟨b, hb, hbx⟩)
  have hzone' := C.zone_of_managed _ _ (((h.tiling z').covered x).mpr ⟨c, hc, hcx⟩)
  obtain rfl : z' = z := hzone'.symm.trans hzone
  exact ⟨rfl, (h.tiling z').eq_of_covers c hc b hb x hcx hbx⟩

theorem place_of_alloc (hb : b ∈ v.alloc z) (hx : b.Covers x) (z' : ζ) (o : Nat) :
    v.place x ≠ some (.freeList z' o) := by
  intro hplace
  have hfree : (⟨x, o⟩ : Block) ∈ v.free C z' := h.mem_free_iff.mpr hplace
  obtain ⟨rfl, rfl⟩ := h.owner_unique (.inr hb) (.inl hfree) hx (Block.covers_base _)
  exact (h.tiling z').disjoint _ hfree hb

theorem not_buddy_of_alloc (hb : b ∈ v.alloc z) (hx : b.Covers x) : (s.pages x).buddy = false := by
  rw [Bool.eq_false_iff]
  intro hbuddy
  obtain ⟨z', o, hplace⟩ := (h.buddy x).mp hbuddy
  exact h.place_of_alloc hb hx z' o hplace

/-- Nothing has changed but lists that are no free lists. -/
theorem of_free {s' : Zones ζ} {v' : View ζ}
    (hlists : Lists (layout ζ) s'.links valid v'.place v'.mem) (hpages : s'.pages = s.pages)
    (hnr : s'.nrFree = s.nrFree) (halloc : v'.alloc = v.alloc)
    (hmem : ∀ z o, v'.mem (.freeList z o) = v.mem (.freeList z o))
    (hplace : ∀ y z o, v'.place y = some (.freeList z o) ↔ v.place y = some (.freeList z o))
    (hsingle : ∀ y j, v'.place y = some j → (∀ z o, j ≠ .freeList z o) →
      ∃ z, ⟨y, 0⟩ ∈ v.alloc z) : Buddy C valid s' v' := by
  refine ⟨h.valid_freeList, hlists, ?_, halloc ▸ hsingle, fun z => ?_, ?_, ?_, ?_⟩
  · exact fun y z o hy => h.order_lt y z o ((hplace y z o).mp hy)
  · have hfree : v'.free C z = v.free C z := by
      ext c
      simp only [View.free, hmem]
    rw [hfree, halloc]
    exact h.tiling z
  · simpa only [hplace, hpages] using h.buddy
  · simpa only [hplace, hpages] using h.priv
  · simpa only [hmem, hnr] using h.nrFree

variable [DecidableEq ζ]

theorem free_take (hb : b ∈ v.free C z) (z' : ζ) :
    (v.take z b).free C z' = if z' = z then v.free C z \ {b} else v.free C z' := by
  ext c
  by_cases hz : z' = z
  · subst hz
    have hnodup := h.lists.nodup (h.valid_freeList z' _ hb.1)
    simp only [View.free, View.take, Set.mem_ofPred_eq, if_true, Set.mem_sdiff,
      Set.mem_singleton_iff]
    by_cases ho : c.order = b.order
    · rw [ho, update_self, hnodup.mem_erase_iff]
      have hne : c = b ↔ c.base = b.base := by simp [Block.ext_iff, ho]
      tauto
    · have hne : c ≠ b := fun heq => ho (heq ▸ rfl)
      rw [update_of_ne (by simpa using ho)]
      tauto
  · simp [View.free, View.take, hz]

omit h in
theorem free_give (z' : ζ) (tail : Bool) (hlt : b.order < C.maxOrder) :
    (v.give z b tail).free C z' = if z' = z then insert b (v.free C z) else v.free C z' := by
  ext c
  by_cases hz : z' = z
  · subst hz
    simp only [View.free, View.give, Set.mem_ofPred_eq, if_true, Set.mem_insert_iff]
    by_cases ho : c.order = b.order
    · have hmem : ∀ x l, x ∈ (if tail = true then l ++ [b.base] else b.base :: l) ↔
          x = b.base ∨ x ∈ l := by
        intro x l
        cases tail <;> simp [or_comm]
      have hne : c = b ↔ c.base = b.base := by simp [Block.ext_iff, ho]
      rw [ho, update_self, hmem, hne]
      tauto
    · have hne : c ≠ b := fun heq => ho (heq ▸ rfl)
      rw [update_of_ne (by simpa using ho)]
      tauto
  · simp [View.free, View.give, hz]

theorem take (hb : b ∈ v.free C z) (hR : b.base ∈ R) :
    ∃ s', freeAreaDel s z b.base b.order = some s' ∧ Buddy C valid s' (v.take z b) ∧
      Moved z R s v s' (v.take z b) := by
  have hplace := h.mem_free_iff.mp hb
  have hbuddy := (h.buddy b.base).mpr ⟨z, b.order, hplace⟩
  have hvalid := h.valid_freeList z _ hb.1
  have hmem := (h.lists.mem_iff _ _ hvalid).mpr hplace
  refine ⟨_, if_pos hbuddy, ?_, ?_⟩
  · constructor
    · exact h.valid_freeList
    · exact h.lists.del hvalid hplace
    · intro x z' o hx
      simp only [View.take, update_apply] at hx
      split_ifs at hx
      exact h.order_lt x z' o hx
    · intro x k hx hk
      simp only [View.take, update_apply] at hx ⊢
      split_ifs at hx
      obtain ⟨z', hz'⟩ := h.single x k hx hk
      refine ⟨z', ?_⟩
      split_ifs with hz
      · exact .inr (hz ▸ hz')
      · exact hz'
    · intro z'
      rw [h.free_take hb]
      simp only [View.take, update_apply]
      split_ifs with hz
      · subst hz
        exact (h.tiling z').take hb
      · exact h.tiling z'
    · intro x
      simp only [View.take, Zones.setPage, Zones.setNrFree, Zones.listDel, update_apply]
      split_ifs with hx
      · simp [buddy_iff, not_buddy_of_set]
      · exact h.buddy x
    · intro x z' o hx
      simp only [View.take, Zones.setPage, Zones.setNrFree, Zones.listDel,
        update_apply] at hx ⊢
      split_ifs at hx ⊢
      exact h.priv x z' o hx
    · intro z' o ho
      simp only [View.take, Zones.setPage, Zones.setNrFree, Zones.listDel, update_apply,
        Prod.mk.injEq, ListHead.freeList.injEq]
      split_ifs with hz
      · rw [h.nrFree z _ hb.1, List.length_erase_of_mem hmem]
      · exact h.nrFree z' o ho
  · have hne : ∀ x ∉ R, x ≠ b.base := fun x hx heq => hx (heq ▸ hR)
    constructor
    · intro x hx
      exact update_of_ne (hne x hx) _ _
    · intro x hx
      exact update_of_ne (hne x hx) _ _
    · intro x hx hnone
      refine ((h.lists.linked _ hvalid).del_frame (List.mem_map_of_mem hmem) ?_).1
      exact h.lists.entry_notMem hvalid (by simp [hnone])
    · exact fun x => pageTail_of_listDel h.lists hvalid hplace
    · exact setPage_field Page.flags rfl
    · exact setPage_field Page.refcount rfl
    · exact setPage_field Page.compoundOrder rfl
    · exact setPage_field (fun p => p.pageType ||| pgBuddy) (set_or_buddy _)
    · intro k hk
      exact update_of_ne (hk b.order) _ _
    · intro z' hz
      exact update_of_ne hz _ _
    · rfl

theorem give (hb : b ∈ v.alloc z) (hplace : v.place b.base = none)
    (hbuddy : b.order + 1 < C.maxOrder → b.buddy ∉ v.free C z) (hR : b.base ∈ R)
    (hset : setPageOrder s b.base b.order = some s') (tail : Bool) :
    Buddy C valid (freeAreaAdd s' z b.base b.order tail) (v.give z b tail) ∧
      Moved z R s v (freeAreaAdd s' z b.base b.order tail) (v.give z b tail) := by
  have hlt := (h.tiling z).order_lt b (.inr hb)
  have hvalid := h.valid_freeList z _ hlt
  have hnot := h.lists.entry_notMem hvalid (by simp [hplace] : v.place b.base ≠ _)
  simp only [setPageOrder] at hset
  split_ifs at hset with htype
  cases hset
  rw [hasType_zero_iff] at htype
  refine ⟨?_, ?_⟩
  · constructor
    · exact h.valid_freeList
    · cases tail with
      | false => exact h.lists.add hvalid hplace
      | true => exact h.lists.addTail hvalid hplace
    · intro x z' o hx
      simp only [View.give, update_apply] at hx
      split_ifs at hx
      · cases hx
        exact hlt
      · exact h.order_lt x z' o hx
    · intro x k hx hk
      simp only [View.give, update_apply] at hx ⊢
      split_ifs at hx with hxb
      · exact absurd (Option.some.inj hx).symm (hk z b.order)
      · obtain ⟨z', hz'⟩ := h.single x k hx hk
        refine ⟨z', ?_⟩
        split_ifs with hz
        · exact ⟨hz ▸ hz', fun heq => hxb (congrArg Block.base heq)⟩
        · exact hz'
    · intro z'
      rw [free_give z' tail hlt]
      simp only [View.give, update_apply]
      split_ifs with hz
      · subst hz
        exact (h.tiling z').give hb hbuddy
      · exact h.tiling z'
    · intro x
      simp only [View.give, freeAreaAdd_pages, Zones.setPage, update_apply]
      split_ifs with hx
      · simp [buddy_iff, buddy_of_clear htype]
      · exact h.buddy x
    · intro x z' o hx
      simp only [View.give, freeAreaAdd_pages, Zones.setPage, update_apply] at hx ⊢
      split_ifs at hx ⊢
      · cases hx
        rfl
      · exact h.priv x z' o hx
    · intro z' o ho
      simp only [View.give, freeAreaAdd_nrFree, Zones.setPage, update_apply,
        Prod.mk.injEq, ListHead.freeList.injEq]
      split_ifs with hz
      · simp [h.nrFree z _ hlt]
      · simp [h.nrFree z _ hlt]
      · exact h.nrFree z' o ho
  · have hne : ∀ x ∉ R, x ≠ b.base := fun x hx heq => hx (heq ▸ hR)
    constructor
    · intro x hx
      rw [freeAreaAdd_pages]
      exact update_of_ne (hne x hx) _ _
    · intro x hx
      exact update_of_ne (hne x hx) _ _
    · intro x hx hnone
      have hentry := h.lists.entry_notMem hvalid (by simp [hnone] : v.place x ≠ _)
      have hlru : Node.lru x ≠ (.lru b.base : Node ζ) := fun heq => hne x hx (Node.lru.inj heq)
      cases tail with
      | false => exact ((h.lists.linked _ hvalid).add_frame hentry hlru).1
      | true => exact ((h.lists.linked _ hvalid).addTail_frame hnot hentry hlru).1
    · intro x hx
      cases tail with
      | false => exact pageTail_of_listAdd (s := s) h.lists hvalid hx
      | true => exact pageTail_of_listAddTail (s := s) hx
    · rw [freeAreaAdd_pages]
      exact setPage_field Page.flags rfl
    · rw [freeAreaAdd_pages]
      exact setPage_field Page.refcount rfl
    · rw [freeAreaAdd_pages]
      exact setPage_field Page.compoundOrder rfl
    · rw [freeAreaAdd_pages]
      exact setPage_field (fun p => p.pageType ||| pgBuddy) (clear_or_buddy _)
    · intro k hk
      exact update_of_ne (hk b.order) _ _
    · intro z' hz
      exact update_of_ne hz _ _
    · rw [freeAreaAdd_pcp]
      rfl

theorem recut {alloc : Set Block} (ht : Tiling C.maxOrder (C.managed z) (v.free C z) alloc)
    (hkeep : ∀ x, v.place x ≠ none → ⟨x, 0⟩ ∈ v.alloc z → ⟨x, 0⟩ ∈ alloc) :
    Buddy C valid s (v.recut z alloc) where
  valid_freeList := h.valid_freeList
  lists := h.lists
  order_lt := h.order_lt
  single x k hx hk := by
    obtain ⟨z', hz'⟩ := h.single x k hx hk
    refine ⟨z', ?_⟩
    simp only [View.recut, update_apply]
    split_ifs with hz
    · refine hkeep x ?_ (hz ▸ hz')
      rw [show v.place x = some k from hx]
      exact Option.some_ne_none k
    · exact hz'
  tiling z' := by
    simp only [View.recut, update_apply]
    split_ifs with hz
    · subst hz
      exact ht
    · exact h.tiling z'
  buddy := h.buddy
  priv := h.priv
  nrFree := h.nrFree

variable {k : ListHead ζ} {x : Nat}

theorem pop (hk : ∀ z o, k ≠ .freeList z o) (kv : valid k) (hx : v.place x = some k) :
    Buddy C valid (s.listDel x) (v.pop k x) := by
  refine h.of_free (h.lists.del kv hx) rfl rfl rfl (fun z o => update_of_ne (hk z o).symm _ _)
    (fun y z o => ?_) fun y j hy hj => ?_
  · simp only [View.pop, update_apply]
    split_ifs with hy
    · subst hy
      simp [hx, hk z o]
    · rfl
  · simp only [View.pop, update_apply] at hy
    split_ifs at hy
    exact h.single y j hy hj

theorem push (hk : ∀ z o, k ≠ .freeList z o) (kv : valid k) (hx : v.place x = none)
    (hsingle : ∃ z, ⟨x, 0⟩ ∈ v.alloc z) (tail : Bool) :
    Buddy C valid (if tail then s.listAddTail x k else s.listAdd x k) (v.push k x tail) := by
  refine h.of_free ?_ (by cases tail <;> rfl) (by cases tail <;> rfl) rfl
    (fun z o => update_of_ne (hk z o).symm _ _) (fun y z o => ?_) fun y j hy hj => ?_
  · cases tail with
    | false => exact h.lists.add kv hx
    | true => exact h.lists.addTail kv hx
  · simp only [View.push, update_apply]
    split_ifs with hy
    · subst hy
      simp [hx, hk z o]
    · rfl
  · simp only [View.push, update_apply] at hy
    split_ifs at hy with hyx
    · exact hyx ▸ hsingle
    · exact h.single y j hy hj

end Buddy

end MinixRt.PageAlloc
