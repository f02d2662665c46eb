import MinixRt.PageAlloc.Conserve

/-!
# When an allocation fails

`get_page_from_freelist` drains the lists of the other CPUs when it finds no page, and tries again
if there was something to drain. What it tests is the variable `train`, which each CPU of the loop
overwrites: only the last CPU counts. When that one has no page, the function returns NULL though
the pages of the others have just been put back and may have merged into a block that suffices.
-/

namespace MinixRt.PageAlloc

open List MinixRt.Lib

variable {ζ : Type} {C : Config ζ} {cpus : List Nat} {batch : ζ → Nat} {s s' : Zones ζ}
  {v v' : View ζ} {held : Set (ζ × Block)} {z : ζ} {cpu order : Nat}

/-- No free list of the order or above has a block. -/
def Short (C : Config ζ) (s : Zones ζ) (z : ζ) (order : Nat) : Prop :=
  ∀ o, order ≤ o → o < C.maxOrder → s.listFirst (.freeList z o) = none

/-- The lists of the CPUs other than `cpu` are empty. -/
def Drained (cpus : List Nat) (s : Zones ζ) (z : ζ) (cpu : Nat) : Prop :=
  ∀ other ∈ cpus, other ≠ cpu → s.listFirst (.pcp z other) = none

/-- The page is in a free block or on the list of another CPU. -/
def Spare (C : Config ζ) (cpus : List Nat) (v : View ζ) (z : ζ) (cpu x : Nat) : Prop :=
  x ∈ freeSet C v z ∨ ∃ other ∈ cpus, other ≠ cpu ∧ x ∈ v.mem (.pcp z other)

/-- There is no page at hand, the last of the other CPUs has none either, and yet the free pages
and those of the other CPUs make up a block of the order. -/
structure Overlooked (C : Config ζ) (cpus : List Nat) (s : Zones ζ) (v : View ζ) (z : ζ)
    (cpu order : Nat) : Prop where
  short : Short C s z order
  own : order = 0 → s.listFirst (.pcp z cpu) = none
  last : ∀ last, (cpus.filter (· ≠ cpu)).getLast? = some last → s.listFirst (.pcp z last) = none
  fits : ∃ b : Block, b.order = order ∧ order < C.maxOrder ∧ b.Aligned ∧
    ∀ x, b.Covers x → Spare C cpus v z cpu x

/-! ## The free lists -/

section

variable (h : Pools C cpus s v held)
include h

theorem Pools.listFirst_freeList {o : Nat} (ho : o < C.maxOrder) :
    s.listFirst (.freeList z o) = (v.mem (.freeList z o)).head? :=
  listFirst_eq h.buddy.lists (h.buddy.valid_freeList z o ho)

theorem Pools.listFirst_pcp (hcpu : cpu ∈ cpus) :
    s.listFirst (.pcp z cpu) = (v.mem (.pcp z cpu)).head? :=
  listFirst_eq h.buddy.lists (inUse_pcp hcpu)

theorem Pools.short_iff :
    Short C s z order ↔ ¬ ∃ b : Block, b.order = order ∧ order < C.maxOrder ∧ b.Aligned ∧
      ∀ x, b.Covers x → x ∈ freeSet C v z := by
  constructor
  · rintro hshort ⟨b, hb, hlt, haligned, hfree⟩
    obtain ⟨f, ⟨hf, hmem⟩, hle, -⟩ := (h.buddy.tiling z).exists_free order hb haligned hlt hfree
    have hnone := hshort f.order hle hf
    rw [h.listFirst_freeList hf, head?_eq_none_iff] at hnone
    rw [hnone] at hmem
    cases hmem
  · intro hno o hle hlt
    rw [h.listFirst_freeList hlt, head?_eq_none_iff, eq_nil_iff_forall_not_mem]
    intro pfn hmem
    have hf : (⟨pfn, o⟩ : Block) ∈ v.free C z := ⟨hlt, hmem⟩
    refine hno ⟨⟨pfn, order⟩, rfl, by omega, ?_, fun x hx => ⟨⟨pfn, o⟩, hf, hx.1, ?_⟩⟩
    · exact Nat.dvd_trans (Nat.pow_dvd_pow 2 hle) ((h.buddy.tiling z).aligned _ (.inl hf))
    · exact hx.2.trans_le (Nat.add_le_add_left (Nat.pow_le_pow_right (by decide) hle) _)

theorem Pools.mem_freeSet_iff {x : Nat} : x ∈ freeSet C v z ↔
      x ∈ C.managed z ∧ (∀ c, (z, c) ∈ held → ¬ c.Covers x) ∧ ¬ Cached cpus v z x := by
  constructor
  · intro hx
    have hnot : ∀ c ∈ v.alloc z, ¬ c.Covers x :=
      fun c hc hcx => h.buddy.notMem_freeSet hc hcx hx
    obtain ⟨f, hf, hfx⟩ := hx
    refine ⟨h.buddy.managed_of_free hf hfx, fun c hc => hnot c ((h.alloc z c).mpr (.inl hc)), ?_⟩
    intro hcached
    exact hnot ⟨x, 0⟩ ((h.alloc z _).mpr (.inr ⟨rfl, hcached⟩)) (Block.covers_base _)
  · rintro ⟨hmanaged, hheld, hcached⟩
    obtain ⟨c, hc | hc, hcx⟩ := ((h.buddy.tiling z).covered x).mp hmanaged
    · exact ⟨c, hc, hcx⟩
    · rcases (h.alloc z c).mp hc with hc | ⟨horder, hc⟩
      · exact absurd hcx (hheld c hc)
      · obtain ⟨base, o⟩ := c
        obtain rfl : o = 0 := horder
        rw [covers_single.mp hcx] at hcached
        exact absurd hc hcached

theorem Pools.spare_iff (h' : Pools C cpus s' v' held) (hcpu : cpu ∈ cpus)
    (hlists : ∀ other, v'.mem (.pcp z other) =
      if other ∈ cpus ∧ other ≠ cpu then [] else v.mem (.pcp z other)) (x : Nat) :
    x ∈ freeSet C v' z ↔ Spare C cpus v z cpu x := by
  have hcached' : Cached cpus v' z x ↔ x ∈ v.mem (.pcp z cpu) := by
    constructor
    · rintro ⟨other, ho, hx⟩
      rw [hlists] at hx
      split_ifs at hx with hother
      · cases hx
      · rwa [of_not_not fun hne => hother ⟨ho, hne⟩] at hx
    · intro hx
      refine ⟨cpu, hcpu, ?_⟩
      rw [hlists, if_neg fun hne => hne.2 rfl]
      exact hx
  rw [h'.mem_freeSet_iff, hcached', Spare, h.mem_freeSet_iff]
  constructor
  · rintro ⟨hmanaged, hheld, hown⟩
    by_cases hc : Cached cpus v z x
    · obtain ⟨other, ho, hx⟩ := hc
      exact .inr ⟨other, ho, fun heq => hown (heq ▸ hx), hx⟩
    · exact .inl ⟨hmanaged, hheld, hc⟩
  · rintro (⟨hmanaged, hheld, hc⟩ | ⟨other, ho, hne, hx⟩)
    · exact ⟨hmanaged, hheld, fun hown => hc ⟨cpu, hcpu, hown⟩⟩
    · have halloc : (⟨x, 0⟩ : Block) ∈ v.alloc z := (h.alloc z _).mpr (.inr ⟨rfl, other, ho, hx⟩)
      refine ⟨h.buddy.managed_of_alloc halloc (Block.covers_base _), fun c hc hcx => ?_, ?_⟩
      · exact h.notCached hc hcx ⟨other, ho, hx⟩
      · intro hown
        have hplace := (h.buddy.lists.mem_iff _ _ (inUse_pcp ho)).mp hx
        have hplace' := (h.buddy.lists.mem_iff _ _ (inUse_pcp hcpu)).mp hown
        rw [hplace] at hplace'
        cases hplace'
        exact hne rfl

end

/-! ## One attempt -/

def Bare (C : Config ζ) (s : Zones ζ) (z : ζ) (cpu order : Nat) : Prop :=
  Short C s z order ∧ (order = 0 → s.listFirst (.pcp z cpu) = none)

variable [DecidableEq ζ]

variable {currentOrder : Nat}

theorem rmqueueFrom_of_none (left : Nat)
    (h : ∀ o, currentOrder ≤ o → o < left + currentOrder → s.listFirst (.freeList z o) = none) :
    rmqueueFrom z order s left currentOrder = some (s, none) := by
  induction left generalizing currentOrder with
  | zero => rfl
  | succ left ih =>
    rw [rmqueueFrom, h currentOrder (Nat.le_refl _) (by omega)]
    exact ih fun o hle hlt => h o (by omega) (by omega)

theorem none_of_rmqueueFrom (left : Nat)
    (h : rmqueueFrom z order s left currentOrder = some (s', none)) :
    ∀ o, currentOrder ≤ o → o < left + currentOrder → s.listFirst (.freeList z o) = none := by
  induction left generalizing currentOrder with
  | zero =>
    intro o hle hlt
    omega
  | succ left ih =>
    rw [rmqueueFrom] at h
    cases hfirst : s.listFirst (.freeList z currentOrder) with
    | none =>
      rw [hfirst] at h
      intro o hle hlt
      by_cases heq : o = currentOrder
      · rw [heq, hfirst]
      · exact ih h o (by omega) (by omega)
    | some =>
      rw [hfirst] at h
      obtain ⟨s1, -, h⟩ := Option.bind_eq_some_iff.mp h
      obtain ⟨s2, -, h⟩ := Option.bind_eq_some_iff.mp h
      cases h

theorem rmqueueSmallest_none_iff : rmqueueSmallest C s z order = some (s, none) ↔
    Short C s z order := by
  unfold rmqueueSmallest
  constructor
  · intro h o hle hlt
    exact none_of_rmqueueFrom _ h o hle (by omega)
  · intro h
    apply rmqueueFrom_of_none
    intro o hle hlt
    exact h o hle (by omega)

theorem Pools.listEmpty_eq (h : Pools C cpus s v held) (hcpu : cpu ∈ cpus) :
    s.listEmpty (.pcp z cpu) = (v.mem (.pcp z cpu)).isEmpty := by
  have hnext := (h.buddy.lists.linked _ (inUse_pcp (z := z) hcpu)).next_head
  change s.links.next (.head (.pcp z cpu)) = _ at hnext
  unfold Zones.listEmpty
  rw [hnext]
  cases v.mem (.pcp z cpu) with
  | nil => exact beq_self_eq_true _
  | cons => exact beq_false_of_ne nofun

theorem Stock.rmqueue_of_bare (h : Stock C cpus batch s v held) (hcpu : cpu ∈ cpus) (fuel : Nat)
    (hbare : Bare C s z cpu order) : ∃ s', rmqueue C z cpu order (fuel + 1) s = some (s', none) ∧
      Stock C cpus batch s' v held := by
  have hnone := rmqueueSmallest_none_iff.mpr hbare.1
  unfold rmqueue
  split_ifs with ho
  · subst ho
    have hempty : s.listEmpty (.pcp z cpu) = true := by
      have hown := hbare.2 rfl
      rw [h.pools.listFirst_pcp hcpu, head?_eq_none_iff] at hown
      rw [h.pools.listEmpty_eq hcpu, hown]
      rfl
    obtain ⟨n, hn⟩ : ∃ n, (s.pcp (z, cpu)).batch.toNat = n + 1 := by
      rw [h.size z cpu hcpu]
      exact ⟨max 1 (batch z) - 1, by omega⟩
    have hrefill : refill C z cpu s = some (s.addCount z cpu 0) := by
      simp only [refill, hempty, if_true, hn, rmqueueBulk, hnone, Option.map_some]
      rfl
    refine ⟨s.addCount z cpu 0, ?_, ?_⟩
    · have hfirst : (s.addCount z cpu 0).listFirst (.pcp z cpu) = none := hbare.2 rfl
      simp only [rmqueuePcplist, hrefill, hfirst]
    · refine h.congr (h.pools.addCount z cpu 0) ?_ fun _ _ => rfl
      simp [Zones.addCount]
  · refine ⟨s, ?_, h⟩
    simp only [rmqueuePages, hnone]

theorem Stock.bare_of_refill (h : Stock C cpus batch s v held) (hcpu : cpu ∈ cpus)
    (hrefill : refill C z cpu s = some s') (hnone : s'.listFirst (.pcp z cpu) = none) :
    Bare C s z cpu 0 := by
  unfold refill at hrefill
  split_ifs at hrefill with hempty
  · rw [h.pools.listEmpty_eq hcpu, List.isEmpty_iff] at hempty
    have hown : s.listFirst (.pcp z cpu) = none := by
      rw [h.pools.listFirst_pcp hcpu, hempty]
      rfl
    refine ⟨?_, fun _ => hown⟩
    obtain ⟨s1, v1, xs, hbulk, hpools, -, hre⟩ :=
      rmqueueBulk_spec (z := z) h.pools hcpu (s.pcp (z, cpu)).batch.toNat
    rw [hbulk, Option.map_some, Option.some_inj] at hrefill
    have hxs : xs = [] := by
      rw [← hrefill, (hpools.addCount z cpu _).listFirst_pcp hcpu, hre.mem, hempty,
        nil_append, head?_eq_none_iff] at hnone
      exact hnone
    obtain ⟨n, hn⟩ : ∃ n, (s.pcp (z, cpu)).batch.toNat = n + 1 := by
      rw [h.size z cpu hcpu]
      exact ⟨max 1 (batch z) - 1, by omega⟩
    rw [hn, hxs] at hbulk
    obtain ⟨s2, page, hrm, hpage⟩ := h.pools.rmqueue z 0
    simp only [rmqueueBulk, hrm] at hbulk
    cases page with
    | none =>
      obtain rfl : s2 = s := hpage
      exact rmqueueSmallest_none_iff.mp hrm
    | some =>
      obtain ⟨⟨s3, alloced⟩, -, heq⟩ := Option.map_eq_some_iff.mp hbulk
      cases heq
  · obtain rfl := Option.some_inj.mp hrefill
    rw [h.pools.listEmpty_eq hcpu, List.isEmpty_iff] at hempty
    rw [h.pools.listFirst_pcp hcpu, List.head?_eq_none_iff] at hnone
    exact absurd hnone hempty

theorem Stock.rmqueue_of_not_bare (h : Stock C cpus batch s v held) (hcpu : cpu ∈ cpus) (fuel : Nat)
    (hbare : ¬ Bare C s z cpu order) :
    ∃ s' pfn, rmqueue C z cpu order (fuel + 1) s = some (s', some pfn) := by
  unfold rmqueue
  split_ifs with ho
  · subst ho
    obtain ⟨s1, v1, hrefill, hstock, -, -⟩ := h.refill_spec (z := z) hcpu
    rcases hlist : v1.mem (.pcp z cpu) with _ | ⟨x, xs⟩
    · refine absurd (h.bare_of_refill hcpu hrefill ?_) hbare
      rw [hstock.pools.listFirst_pcp hcpu, hlist]
      rfl
    · obtain ⟨hcheck, -⟩ := hstock.takeFirst hcpu hlist
      refine ⟨(s1.listDel x).addCount z cpu (-1), x, ?_⟩
      simp only [rmqueuePcplist, hrefill, hstock.pools.listFirst_pcp hcpu, hlist,
        head?_cons, hcheck]
  · obtain ⟨s1, page, hrm, hpage⟩ := h.pools.rmqueue z order
    cases page with
    | none =>
      obtain rfl : s1 = s := hpage
      exact absurd ⟨rmqueueSmallest_none_iff.mp hrm, fun hzero => absurd hzero ho⟩ hbare
    | some pfn =>
      obtain ⟨v1, hpools, -, -, hidle, -⟩ := hpage
      obtain ⟨hcheck, -⟩ := Stock.checkTaken hpools (Set.mem_insert _ _) hidle
      refine ⟨s1, pfn, ?_⟩
      simp only [rmqueuePages, hrm, hcheck]

/-! ## The result -/

omit [DecidableEq ζ] in
theorem Pools.short_congr (h : Pools C cpus s v held) (h' : Pools C cpus s' v' held)
    (hlists : ∀ other, v'.mem (.pcp z other) = v.mem (.pcp z other)) :
    Short C s' z order ↔ Short C s z order := by
  have hfree : ∀ x, x ∈ freeSet C v' z ↔ x ∈ freeSet C v z := by
    intro x
    rw [h.mem_freeSet_iff, h'.mem_freeSet_iff]
    simp only [Cached, hlists]
  rw [h.short_iff, h'.short_iff]
  simp only [hfree]

/-- `get_page_from_freelist` always returns, and returns NULL only when memory is short, unless the
pages it has drained are overlooked: in that case it always returns NULL. -/
theorem null_only_when_short (h : Stock C cpus batch s v held) (hnodup : cpus.Nodup)
    (hcpu : cpu ∈ cpus) (fuel : Nat) :
    ∃ s' page, getPageFromFreelist C cpus z cpu order (fuel + 2) s false = some (s', page) ∧
      ((page = none → Short C s' z order ∧ Drained cpus s' z cpu) ↔
        ¬ Overlooked C cpus s v z cpu order) := by
  by_cases hbare : Bare C s z cpu order
  swap
  · obtain ⟨s0, pfn, hrm⟩ := h.rmqueue_of_not_bare hcpu (fuel + 1) hbare
    obtain ⟨s', page, hget, -⟩ := h.getPageFromFreelist_spec (z := z) hcpu order fuel
    refine ⟨s', page, hget, ?_⟩
    have hpage : page ≠ none := by
      rintro rfl
      simp only [getPageFromFreelist, hrm] at hget
      obtain ⟨t, -, heq⟩ := Option.map_eq_some_iff.mp hget
      cases heq
    constructor
    · exact fun _ hover => hbare ⟨hover.short, hover.own⟩
    · exact fun _ hnone => absurd hnone hpage
  obtain ⟨s1, hrm, hstock1⟩ := h.rmqueue_of_bare hcpu (fuel + 1) hbare
  obtain ⟨s2, v2, train, hdrain, hstock2, -, hlists2, hlast2⟩ :=
    hstock1.drainOthers_spec (z := z) cpu cpus (fun _ h => h) false
  have hempty : ∀ {t : Zones ζ} {w : View ζ}, Stock C cpus batch t w held →
      (∀ other ∈ cpus, other ≠ cpu → w.mem (.pcp z other) = []) → Drained cpus t z cpu := by
    intro t w ht hw other ho hne
    rw [ht.pools.listFirst_pcp ho, hw other ho hne]
    rfl
  have hempty2 : ∀ other ∈ cpus, other ≠ cpu → v2.mem (.pcp z other) = [] := by
    intro other ho hne
    rw [hlists2, if_pos ⟨ho, hne⟩]
  have hmem_last : ∀ last, (cpus.filter (· ≠ cpu)).getLast? = some last → last ∈ cpus :=
    fun last hl => (mem_filter.mp (mem_of_getLast? hl)).1
  cases train with
  | false =>
    refine ⟨s2, none, ?_, ?_⟩
    · simp only [getPageFromFreelist, hrm, hdrain]
    · have hlast : ∀ last, (cpus.filter (· ≠ cpu)).getLast? = some last →
          s.listFirst (.pcp z last) = none := by
        intro last hl
        rw [h.pools.listFirst_pcp (hmem_last last hl), head?_eq_none_iff]
        rw [hl] at hlast2
        exact of_not_not fun hne => Bool.false_ne_true (hlast2.2 hnodup hne)
      have hfits : Short C s2 z order ↔ ¬ Overlooked C cpus s v z cpu order := by
        rw [hstock2.pools.short_iff]
        simp only [h.pools.spare_iff hstock2.pools hcpu hlists2]
        rw [not_iff_not]
        exact ⟨fun hfits => ⟨hbare.1, hbare.2, hlast, hfits⟩, fun hover => hover.fits⟩
      rw [← hfits]
      exact ⟨fun hgood => (hgood rfl).1, fun hshort _ => ⟨hshort, hempty hstock2 hempty2⟩⟩
  | true =>
    obtain ⟨last, hl⟩ : ∃ last, (cpus.filter (· ≠ cpu)).getLast? = some last := by
      cases hl : (cpus.filter (· ≠ cpu)).getLast? with
      | none =>
        rw [hl] at hlast2
        cases hlast2
      | some last => exact ⟨last, rfl⟩
    have hover : ¬ Overlooked C cpus s v z cpu order := by
      intro hover
      have hnone := hover.last last hl
      rw [h.pools.listFirst_pcp (hmem_last last hl), head?_eq_none_iff] at hnone
      rw [hl] at hlast2
      exact hlast2.1 rfl hnone
    obtain ⟨s', page, hget, -⟩ := h.getPageFromFreelist_spec (z := z) hcpu order fuel
    refine ⟨s', page, hget, iff_of_true ?_ hover⟩
    rintro rfl
    simp only [getPageFromFreelist, hrm, hdrain] at hget
    by_cases hbare2 : Bare C s2 z cpu order
    · obtain ⟨s3, hrm3, hstock3⟩ := hstock2.rmqueue_of_bare hcpu fuel hbare2
      obtain ⟨s4, v4, train, hdrain4, hstock4, -, hlists4, hlast4⟩ :=
        hstock3.drainOthers_spec (z := z) cpu cpus (fun _ h => h) true
      have hsame : ∀ other, v4.mem (.pcp z other) = v2.mem (.pcp z other) := by
        intro other
        rw [hlists4]
        split_ifs with hother
        · exact (hempty2 other hother.1 hother.2).symm
        · rfl
      have htrain : train = false := by
        rw [hl] at hlast4
        rw [← Bool.not_eq_true]
        intro htrain
        have hne := (mem_filter.mp (mem_of_getLast? hl)).2
        exact hlast4.1 htrain (hempty2 last (hmem_last last hl) (of_decide_eq_true hne))
      simp only [hrm3, hdrain4, htrain, Option.some_inj, Prod.mk.injEq] at hget
      obtain ⟨rfl, -⟩ := hget
      refine ⟨(hstock2.pools.short_congr hstock4.pools hsame).mpr hbare2.1, ?_⟩
      refine hempty hstock4 fun other ho hne => ?_
      rw [hsame, hempty2 other ho hne]
    · obtain ⟨s3, pfn, hrm3⟩ := hstock2.rmqueue_of_not_bare hcpu fuel hbare2
      simp only [hrm3] at hget
      obtain ⟨t, -, heq⟩ := Option.map_eq_some_iff.mp hget
      cases heq

/-- The eight pages of `Config.small` with a batch of one, so that lists keep pages. -/
def Allocator.smallCached : Allocator Unit where
  zones := { Allocator.smallStarted.zones with pcp := fun _ => pagesetSetBatch 1 }
  allocated := Allocator.smallStarted.allocated

theorem Allocator.smallCached_started :
    Allocator.smallCached.Started .small [0, 1, 2] fun _ => 1 where
  booted := ⟨Allocator.small_booted.lists, Allocator.small_booted.nrFree,
    Allocator.small_booted.buddy, Allocator.small_booted.nodup, Allocator.small_booted.tiling⟩
  initialized _ := rfl
  lists _ _ _ := ⟨⟨rfl, rfl⟩, by simp⟩
  settings _ _ _ := rfl
  held z b hb := by
    have h := Allocator.smallStarted_started.held z b hb
    exact ⟨h.refcount, h.plain, h.pageType, h.tails, h.shape⟩

/-- A CPU allocates the four pages that are free, and frees one of them: it stays on its list. -/
def cachedOn (cpu : Nat) : List (Request Unit) :=
  [.free () 0 ⟨0, 2⟩, .alloc () cpu 0, .alloc () cpu 0, .alloc () cpu 0, .alloc () cpu 0,
    .free () cpu ⟨0, 0⟩]

/-- The page is on the list of the last CPU. -/
theorem null_only_when_short_last :
    ∃ a, (pagesMachine .small [0, 1, 2] (fun _ => 1) 2).run .smallCached (cachedOn 2) = some a ∧
      ∃ s' page, getPageFromFreelist .small [0, 1, 2] () 0 0 2 a.zones false = some (s', page) ∧
        (page = none → Short .small s' () 0 ∧ Drained [0, 1, 2] s' () 0) := by
  obtain ⟨a, ha, hreach, hfirst⟩ := Machine.exists_run
    (M := pagesMachine .small [0, 1, 2] (fun _ => 1) 2) (G := Machine.free)
    (P := fun a => a.zones.listFirst (.pcp () 2) = some 0) (.init Allocator.smallCached_started)
    (cachedOn 2) (by decide +kernel)
  obtain ⟨v, hv⟩ := stocked_of_reach (fun _ => by decide) hreach
  have hnull : ∃ s' page,
      getPageFromFreelist .small [0, 1, 2] () 0 0 2 a.zones false = some (s', page) ∧
      ((page = none → Short .small s' () 0 ∧ Drained [0, 1, 2] s' () 0) ↔
        ¬ Overlooked .small [0, 1, 2] a.zones v () 0 0) :=
    null_only_when_short hv.stock (by decide) mem_cons_self 0
  obtain ⟨s', page, hget, hiff⟩ := hnull
  refine ⟨a, ha, s', page, hget, hiff.mpr fun hover => ?_⟩
  have hnone := hover.last 2 rfl
  rw [hfirst] at hnone
  cases hnone

/-- The page is on the list of CPU 1, and CPU 2 has none: the request of CPU 0 fails, and the page
is in the free lists. -/
theorem null_with_free_page :
    ∃ a, (pagesMachine .small [0, 1, 2] (fun _ => 1) 2).Reach Machine.free a ∧
      ∃ s', getPageFromFreelist .small [0, 1, 2] () 0 0 2 a.zones false = some (s', none) ∧
        s'.listFirst (.freeList () 0) = some 0 := by
  obtain ⟨a, hreach, hget⟩ := Machine.exists_reach
    (M := pagesMachine .small [0, 1, 2] (fun _ => 1) 2) (G := Machine.free) (P := fun a =>
    (getPageFromFreelist .small [0, 1, 2] () 0 0 2 a.zones false).map (fun r =>
      (r.2, r.1.listFirst (.freeList () 0))) = some (none, some 0))
    (.init Allocator.smallCached_started) (cachedOn 1) (by decide +kernel)
  obtain ⟨⟨s', page⟩, hget, hfacts⟩ := Option.map_eq_some_iff.mp hget
  obtain ⟨rfl, hfirst⟩ := Prod.mk.inj hfacts
  exact ⟨a, hreach, s', hget, hfirst⟩

end MinixRt.PageAlloc
