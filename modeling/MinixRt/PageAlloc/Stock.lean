import MinixRt.PageAlloc.Bulk
import MinixRt.PageAlloc.Held

/-!
# Allocating and freeing through the per-CPU lists

`Stock` adds the counters and the settings of the per-CPU lists to the pools. Every function
between `__alloc_pages` or `__free_pages` and the pools keeps it, never stops, and never drops
a page: the pages that it checks are idle.
-/

namespace MinixRt.PageAlloc

open List Function MinixRt.Lib

variable {ζ : Type} [DecidableEq ζ] {C : Config ζ} {cpus : List Nat} {batch : ζ → Nat}
  {s s' : Zones ζ} {v v' : View ζ} {held held' : Set (ζ × Block)} {z : ζ} {cpu : Nat} {b : Block}

structure Stock (C : Config ζ) (cpus : List Nat) (batch : ζ → Nat) (s : Zones ζ) (v : View ζ)
    (held : Set (ζ × Block)) : Prop where
  pools : Pools C cpus s v held
  count : ∀ z, ∀ cpu ∈ cpus, (s.pcp (z, cpu)).count = (v.mem (.pcp z cpu)).length
  high : ∀ z, ∀ cpu ∈ cpus, (s.pcp (z, cpu)).high = 6 * batch z
  size : ∀ z, ∀ cpu ∈ cpus, (s.pcp (z, cpu)).batch = max 1 (batch z)

namespace Stock

variable (h : Stock C cpus batch s v held)
include h

variable {xs : List Nat}

theorem recount {n : Int} (hpools : Pools C cpus s' v' held') (hre : Recounted z cpu xs n s v s' v')
    (hlen : (xs.length : Int) = (v.mem (.pcp z cpu)).length + n) :
    Stock C cpus batch s' v' held' := by
  have hpcp : ∀ z' cpu', (z', cpu') ≠ (z, cpu) → s'.pcp (z', cpu') = s.pcp (z', cpu') := by
    intro z' cpu' hne
    rw [hre.pcp]
    exact update_of_ne hne _ _
  have hself : s'.pcp (z, cpu) = { s.pcp (z, cpu) with count := (s.pcp (z, cpu)).count + n } := by
    rw [hre.pcp]
    exact update_self ..
  refine ⟨hpools, ?_, ?_, ?_⟩
  · intro z' cpu' hcpu'
    by_cases hne : (z', cpu') = (z, cpu)
    · cases hne
      rw [hself, hre.mem, hlen, h.count _ _ hcpu']
    · rw [hpcp z' cpu' hne, hre.other z' cpu' hne]
      exact h.count z' cpu' hcpu'
  · intro z' cpu' hcpu'
    by_cases hne : (z', cpu') = (z, cpu)
    · cases hne
      rw [hself]
      exact h.high _ _ hcpu'
    · rw [hpcp z' cpu' hne]
      exact h.high z' cpu' hcpu'
  · intro z' cpu' hcpu'
    by_cases hne : (z', cpu') = (z, cpu)
    · cases hne
      rw [hself]
      exact h.size _ _ hcpu'
    · rw [hpcp z' cpu' hne]
      exact h.size z' cpu' hcpu'

omit [DecidableEq ζ] in
theorem congr (hpools : Pools C cpus s' v' held') (hpcp : s'.pcp = s.pcp)
    (hmem : ∀ z cpu, v'.mem (.pcp z cpu) = v.mem (.pcp z cpu)) :
    Stock C cpus batch s' v' held' where
  pools := hpools
  count z cpu hcpu := by rw [hpcp, hmem, h.count z cpu hcpu]
  high z cpu hcpu := by rw [hpcp, h.high z cpu hcpu]
  size z cpu hcpu := by rw [hpcp, h.size z cpu hcpu]

/-! ## Giving pages back -/

theorem bulk (hcpu : cpu ∈ cpus) {n : Nat} (hn : n ≤ (v.mem (.pcp z cpu)).length) :
    ∃ s' v', freePcppagesBulk C s z cpu n = some s' ∧ Stock C cpus batch s' v' held ∧
      Kept held s s' ∧
      Recounted z cpu ((v.mem (.pcp z cpu)).take ((v.mem (.pcp z cpu)).length - n)) (-n) s v s' v' := by
  generalize hxs : v.mem (.pcp z cpu) = xs at hn ⊢
  have hsplit : v.mem (.pcp z cpu) = xs.take (xs.length - n) ++
      (xs.drop (xs.length - n)).reverse.reverse := by
    rw [reverse_reverse, take_append_drop, hxs]
  have hlen : (xs.drop (xs.length - n)).reverse.length = n := by
    rw [length_reverse, length_drop]
    omega
  obtain ⟨s', v', hbulk, hpools, hkept, hre⟩ := freePcppagesBulk_spec h.pools hcpu hsplit
  rw [hlen] at hbulk hre
  refine ⟨s', v', hbulk, h.recount hpools hre ?_, hkept, hre⟩
  rw [length_take, hxs]
  omega

variable {x : Nat}

theorem commit (hcpu : cpu ∈ cpus) (hx : (z, ⟨x, 0⟩) ∈ held) (hidle : Idle s x) :
    ∃ s' v', freeUnrefPageCommit C s cpu x = some s' ∧
      Stock C cpus batch s' v' (held \ {(z, ⟨x, 0⟩)}) ∧ Kept (held \ {(z, ⟨x, 0⟩)}) s s' := by
  have hzone : C.zone x = z := (h.pools.inHand hx).zone (Block.covers_base _)
  obtain ⟨hpush, hkept⟩ := h.pools.push hcpu hx hidle false
  simp only [Bool.false_eq_true, if_false] at hpush hkept
  have hre : Recounted z cpu (x :: v.mem (.pcp z cpu)) 1 s v
      ((s.listAdd x (.pcp z cpu)).addCount z cpu 1) (v.push (.pcp z cpu) x false) := by
    refine ⟨?_, fun z' cpu' hne => ?_, rfl⟩
    · simp [View.push]
    · refine update_of_ne (fun heq => hne ?_) _ _
      cases heq
      rfl
  have hstock := h.recount (hpush.addCount z cpu 1) hre (by simp)
  simp only [freeUnrefPageCommit, hzone]
  split_ifs with hfull
  · -- a list that has reached the mark holds at least a batch
    have hle : max 1 (batch z) ≤ ((v.push (.pcp z cpu) x false).mem (.pcp z cpu)).length := by
      rw [hstock.high z cpu hcpu, hstock.count z cpu hcpu] at hfull
      have hpos : 1 ≤ ((v.push (.pcp z cpu) x false).mem (.pcp z cpu)).length := by
        rw [hre.mem]
        simp
      omega
    obtain ⟨s', v', hbulk, hstock', hkept', _⟩ := hstock.bulk hcpu hle
    rw [hstock.size z cpu hcpu]
    exact ⟨s', v', hbulk, hstock', hkept.trans hkept'⟩
  · exact ⟨_, _, rfl, hstock, hkept⟩

theorem drain (hcpu : cpu ∈ cpus) :
    ∃ s' v', drainPagesZone C z s cpu = some (s', !(v.mem (.pcp z cpu)).isEmpty) ∧
      Stock C cpus batch s' v' held ∧ Kept held s s' ∧ v'.mem (.pcp z cpu) = [] ∧
      ∀ z' cpu', (z', cpu') ≠ (z, cpu) → v'.mem (.pcp z' cpu') = v.mem (.pcp z' cpu') := by
  have hcount := h.count z cpu hcpu
  by_cases hempty : v.mem (.pcp z cpu) = []
  · rw [hempty] at hcount
    refine ⟨s, v, ?_, h, .refl _ _, hempty, fun _ _ _ => rfl⟩
    simp [drainPagesZone, hcount, hempty]
  · obtain ⟨s', v', hbulk, hstock, hkept, hre⟩ := h.bulk (z := z) hcpu (Nat.le_refl _)
    refine ⟨s', v', ?_, hstock, hkept, ?_, hre.other⟩
    · simp [drainPagesZone, hcount, hbulk, hempty]
    · rw [hre.mem, Nat.sub_self, take_zero]

/-! ## Handing pages out -/

/-- A block has been taken out of the pools: its pages are idle, and the lists of the other CPUs
are as they were. -/
structure Handed (C : Config ζ) (cpus : List Nat) (batch : ζ → Nat) (z : ζ) (cpu : Nat)
    (s : Zones ζ) (v : View ζ) (held : Set (ζ × Block)) (b : Block) (s' : Zones ζ)
    (v' : View ζ) : Prop where
  stock : Stock C cpus batch s' v' (insert (z, b) held)
  kept : Kept held s s'
  fresh : (z, b) ∉ held
  idle : ∀ x, b.Covers x → Idle s' x ∧ (s'.pages x).pageType = BitVec.allOnes 32
  other : ∀ z' cpu', (z', cpu') ≠ (z, cpu) → v'.mem (.pcp z' cpu') = v.mem (.pcp z' cpu')

/-- The result of the functions that look for a page: none, with nothing lost, or a block. -/
def Found (C : Config ζ) (cpus : List Nat) (batch : ζ → Nat) (z : ζ) (cpu order : Nat)
    (s : Zones ζ) (v : View ζ) (held : Set (ζ × Block)) (s' : Zones ζ) : Option Nat → Prop
  | none => ∃ v', Stock C cpus batch s' v' held ∧ Kept held s s' ∧
      ∀ z' cpu', (z', cpu') ≠ (z, cpu) → v'.mem (.pcp z' cpu') = v.mem (.pcp z' cpu')
  | some pfn => ∃ v', Handed C cpus batch z cpu s v held ⟨pfn, order⟩ s' v'

omit [DecidableEq ζ] h in
theorem pageType_of_idle (h : Pools C cpus s v held) (hb : (z, b) ∈ held) (hx : b.Covers x)
    (hidle : Idle s x) : (s.pages x).pageType = BitVec.allOnes 32 :=
  hidle.quiet.pageType_eq (h.buddy.not_buddy_of_alloc (h.inHand hb).alloc hx)

theorem refill_spec (hcpu : cpu ∈ cpus) :
    ∃ s' v', refill C z cpu s = some s' ∧ Stock C cpus batch s' v' held ∧ Kept held s s' ∧
      ∀ z' cpu', (z', cpu') ≠ (z, cpu) → v'.mem (.pcp z' cpu') = v.mem (.pcp z' cpu') := by
  unfold refill
  split_ifs
  · obtain ⟨s1, v1, xs, hbulk, hpools, hkept, hre⟩ :=
      rmqueueBulk_spec (z := z) h.pools hcpu (s.pcp (z, cpu)).batch.toNat
    have hcount : Recounted z cpu (v.mem (.pcp z cpu) ++ xs) xs.length s v
        (s1.addCount z cpu xs.length) v1 := by
      refine ⟨hre.mem, hre.other, ?_⟩
      rw [addCount_congr hre.pcp, addCount_pcp, Int.zero_add]
    refine ⟨s1.addCount z cpu xs.length, v1, ?_, ?_, hkept, hre.other⟩
    · simp [hbulk]
    · refine h.recount (hpools.addCount z cpu _) hcount ?_
      simp
  · exact ⟨s, v, rfl, h, .refl _ _, fun _ _ _ => rfl⟩

theorem takeFirst (hcpu : cpu ∈ cpus) (hlist : v.mem (.pcp z cpu) = x :: xs) :
    checkNewPage ((s.listDel x).addCount z cpu (-1)) x =
        ((s.listDel x).addCount z cpu (-1), false) ∧
      Handed C cpus batch z cpu s v held ⟨x, 0⟩ ((s.listDel x).addCount z cpu (-1))
        (v.pop (.pcp z cpu) x) := by
  have hx : x ∈ v.mem (.pcp z cpu) := by simp [hlist]
  obtain ⟨hpop, hkept, hfresh, hidle⟩ := h.pools.pop hcpu hx
  have hre : Recounted z cpu xs (-1) s v ((s.listDel x).addCount z cpu (-1))
      (v.pop (.pcp z cpu) x) := by
    refine ⟨?_, fun z' cpu' hne => ?_, rfl⟩
    · simp [View.pop, hlist]
    · refine update_of_ne (fun heq => hne ?_) _ _
      cases heq
      rfl
  have hstock := h.recount (hpop.addCount z cpu (-1)) hre (by simp [hlist])
  have hmem : (z, (⟨x, 0⟩ : Block)) ∈ insert (z, ⟨x, 0⟩) held := Set.mem_insert _ _
  have hall : ∀ y, (⟨x, 0⟩ : Block).Covers y →
      Idle ((s.listDel x).addCount z cpu (-1)) y ∧
      (((s.listDel x).addCount z cpu (-1)).pages y).pageType = BitVec.allOnes 32 := by
    intro y hy
    rw [covers_single.mp hy]
    have hi : Idle ((s.listDel x).addCount z cpu (-1)) x := ⟨hidle.quiet, hidle.plain⟩
    exact ⟨hi, pageType_of_idle hstock.pools hmem (Block.covers_base _) hi⟩
  obtain ⟨hi, ht⟩ := hall x (Block.covers_base _)
  exact ⟨checkNewPage_of_idle hi ht, hstock, hkept, hfresh, hall, hre.other⟩

theorem rmqueuePcplist_spec (hcpu : cpu ∈ cpus) (fuel : Nat) :
    ∃ s' page, rmqueuePcplist C z cpu (fuel + 1) s = some (s', page) ∧
      Found C cpus batch z cpu 0 s v held s' page := by
  obtain ⟨s1, v1, hrefill, hstock, hkept, hother⟩ := h.refill_spec (z := z) hcpu
  simp only [rmqueuePcplist, hrefill, listFirst_eq hstock.pools.buddy.lists (inUse_pcp hcpu)]
  rcases hlist : v1.mem (.pcp z cpu) with _ | ⟨x, xs⟩
  · exact ⟨s1, none, rfl, v1, hstock, hkept, hother⟩
  · obtain ⟨hcheck, hhanded⟩ := hstock.takeFirst hcpu hlist
    refine ⟨(s1.listDel x).addCount z cpu (-1), some x, ?_, _, hhanded.stock,
      hkept.trans hhanded.kept, hhanded.fresh, hhanded.idle, ?_⟩
    · simp only [head?_cons, hcheck]
    · exact fun z' cpu' hne => (hhanded.other z' cpu' hne).trans (hother z' cpu' hne)

omit [DecidableEq ζ] h in
theorem checkTaken {pfn order : Nat} (h : Pools C cpus s v held) (hb : (z, ⟨pfn, order⟩) ∈ held)
    (hidle : ∀ x, (⟨pfn, order⟩ : Block).Covers x → Idle s x) :
    checkNewPages s (range' pfn (2 ^ order)) = (s, false) ∧ ∀ x, (⟨pfn, order⟩ : Block).Covers x →
        Idle s x ∧ (s.pages x).pageType = BitVec.allOnes 32 := by
  have hall : ∀ x, (⟨pfn, order⟩ : Block).Covers x →
      Idle s x ∧ (s.pages x).pageType = BitVec.allOnes 32 := fun x hx =>
    ⟨hidle x hx, pageType_of_idle h hb hx (hidle x hx)⟩
  refine ⟨checkNewPages_of_idle _ fun x hx => hall x ?_, hall⟩
  simpa [mem_range'_1, Block.Covers] using hx

theorem rmqueuePages_spec (order fuel : Nat) :
    ∃ s' page, rmqueuePages C z order (fuel + 1) s = some (s', page) ∧
      Found C cpus batch z cpu order s v held s' page := by
  obtain ⟨s1, page, hrm, hpage⟩ := h.pools.rmqueue z order
  cases page with
  | none =>
    subst hpage
    exact ⟨s1, none, by simp [rmqueuePages, hrm], v, h, .refl _ _, fun _ _ _ => rfl⟩
  | some pfn =>
    obtain ⟨v1, hpools, hkept, hfresh, hidle, hpcp, hmem⟩ := hpage
    obtain ⟨hcheck, hall⟩ := checkTaken hpools (Set.mem_insert _ _) hidle
    refine ⟨s1, some pfn, ?_, v1, ⟨h.congr hpools hpcp hmem, hkept, hfresh, hall,
      fun z' cpu' _ => hmem z' cpu'⟩⟩
    simp only [rmqueuePages, hrm, hcheck]

theorem rmqueue_spec (hcpu : cpu ∈ cpus) (order fuel : Nat) :
    ∃ s' page, rmqueue C z cpu order (fuel + 1) s = some (s', page) ∧
      Found C cpus batch z cpu order s v held s' page := by
  unfold rmqueue
  split_ifs with ho
  · subst ho
    exact h.rmqueuePcplist_spec hcpu fuel
  · exact h.rmqueuePages_spec order fuel

theorem drainOthers_spec (cpu : Nat) (others : List Nat) (hsub : ∀ other ∈ others, other ∈ cpus)
    (train : Bool) : ∃ s' v' train', drainOthers C z cpu others s train = some (s', train') ∧
      Stock C cpus batch s' v' held ∧ Kept held s s' ∧ (∀ other, v'.mem (.pcp z other) =
        if other ∈ others ∧ other ≠ cpu then [] else v.mem (.pcp z other)) ∧
      match (others.filter (· ≠ cpu)).getLast? with
      | none => train' = train
      | some last => (train' = true → v.mem (.pcp z last) ≠ []) ∧
          (others.Nodup → v.mem (.pcp z last) ≠ [] → train' = true) := by
  induction others generalizing s v train with
  | nil =>
    refine ⟨s, v, train, rfl, h, .refl _ _, fun other => ?_, rfl⟩
    rw [if_neg fun hmem => not_mem_nil hmem.1]
  | cons first others ih =>
    have hsub' : ∀ other ∈ others, other ∈ cpus :=
      fun other ho => hsub other (mem_cons_of_mem _ ho)
    by_cases hfirst : first = cpu
    · obtain ⟨s', v', train', hrest, hstock, hkept, hlists, hlast⟩ := ih h hsub' train
      refine ⟨s', v', train', ?_, hstock, hkept, fun other => ?_, ?_⟩
      · simp only [drainOthers, hfirst, if_true]
        exact hrest
      · rw [hlists]
        by_cases hother : other = cpu
        · simp [hother]
        · simp [hother, hfirst]
      · rw [filter_cons_of_neg (by simp [hfirst])]
        revert hlast
        split
        · exact id
        · exact fun hlast => ⟨hlast.1, fun hnodup => hlast.2 (nodup_cons.mp hnodup).2⟩
    · obtain ⟨s1, v1, hdrain, hstock1, hkept1, hempty1, hother1⟩ :=
        h.drain (z := z) (hsub first mem_cons_self)
      obtain ⟨s', v', train', hrest, hstock, hkept, hlists, hlast⟩ :=
        ih hstock1 hsub' (!(v.mem (.pcp z first)).isEmpty)
      have hkeep : ∀ other, other ≠ first → v1.mem (.pcp z other) = v.mem (.pcp z other) := by
        intro other hne
        exact hother1 z other fun heq => hne (Prod.mk.inj heq).2
      refine ⟨s', v', train', ?_, hstock, hkept1.trans hkept, fun other => ?_, ?_⟩
      · simp only [drainOthers, if_neg hfirst, hdrain]
        exact hrest
      · rw [hlists]
        by_cases hof : other = first
        · simp [hof, hfirst, hempty1]
        · simp [hof, hkeep other hof]
      · rw [filter_cons_of_pos (by simp [hfirst])]
        cases hl : (others.filter (· ≠ cpu)).getLast? with
        | none =>
          rw [hl] at hlast
          have hnil : others.filter (· ≠ cpu) = [] := getLast?_eq_none_iff.mp hl
          rw [hnil, getLast?_singleton]
          simp only at hlast
          rw [hlast]
          constructor
          · simp
          · intro _ hne
            simpa using hne
        | some last =>
          rw [hl] at hlast
          have hmem : last ∈ others := (mem_filter.mp (mem_of_getLast? hl)).1
          have hcons : (first :: others.filter (· ≠ cpu)).getLast? = some last := by
            rw [getLast?_cons, hl, Option.getD_some]
          rw [hcons]
          constructor
          · intro htrain hnil
            refine hlast.1 htrain ?_
            by_cases hlf : last = first
            · rw [hlf, hempty1]
            · rw [hkeep last hlf, hnil]
          · intro hnodup hne
            obtain ⟨hnot, hnodup⟩ := nodup_cons.mp hnodup
            refine hlast.2 hnodup ?_
            rw [hkeep last fun heq => hnot (heq ▸ hmem)]
            exact hne

/-! ## The pages of one held block -/

omit [DecidableEq ζ] in
theorem write (hb : (z, b) ∈ held) (hw : Writes (blockPages b) s s')
    (htype : ∀ x, b.Covers x → (s'.pages x).pageType = BitVec.allOnes 32) :
    Stock C cpus batch s' v held ∧ Kept (held \ {(z, b)}) s s' := by
  have hbuddy : ∀ p : Page, p.pageType = BitVec.allOnes 32 → p.buddy = false := by
    intro p hp
    rw [Bool.eq_false_iff, ne_eq, buddy_iff, hp]
    decide
  obtain ⟨hpools, hkept⟩ := h.pools.touch (t := s') (T := {(z, b)}) (by simpa using hb)
    (fun x hx => hw.pages x (hx _ rfl)) (fun n _ hn => hw.links n (hn _ rfl)) hw.nrFree
    (by rintro p rfl x hx; exact hbuddy _ (htype x hx))
  exact ⟨h.congr hpools hw.pcp fun _ _ => rfl, hkept⟩

theorem prep (hb : (z, b) ∈ held)
    (hidle : ∀ x, b.Covers x → Idle s x ∧ (s.pages x).pageType = BitVec.allOnes 32) :
    ∃ s', prepNewPage s b = some s' ∧ Stock C cpus batch s' v held ∧
      Kept (held \ {(z, b)}) s s' ∧ Held 1 s' b := by
  have horder : b.order < 256 := by
    have hlt := (h.pools.buddy.tiling z).order_lt b (.inr (h.pools.inHand hb).alloc)
    have hmax := C.maxOrder_le
    omega
  obtain ⟨s', hprep, hheld, hw⟩ := prepNewPage_spec horder hidle
  obtain ⟨hstock, hkept⟩ := h.write hb hw hheld.pageType
  exact ⟨s', hprep, hstock, hkept, hheld⟩

/-! ## The entry points -/

def Allocated (C : Config ζ) (cpus : List Nat) (batch : ζ → Nat) (z : ζ) (order : Nat)
    (s : Zones ζ) (held : Set (ζ × Block)) (s' : Zones ζ) : Option Nat → Prop
  | none => ∃ v', Stock C cpus batch s' v' held ∧ Kept held s s'
  | some pfn => ∃ v', Stock C cpus batch s' v' (insert (z, ⟨pfn, order⟩) held) ∧ Kept held s s' ∧
      (z, ⟨pfn, order⟩) ∉ held ∧ Held 1 s' ⟨pfn, order⟩

omit h in
theorem Handed.prep {order pfn : Nat} (h : Handed C cpus batch z cpu s v held ⟨pfn, order⟩ s' v') :
    ∃ t, prepNewPage s' ⟨pfn, order⟩ = some t ∧
      Allocated C cpus batch z order s held t (some pfn) := by
  obtain ⟨t, hprep, hstock, hkept, hheld⟩ := h.stock.prep (Set.mem_insert _ _) h.idle
  refine ⟨t, hprep, v', hstock, ?_, h.fresh, hheld⟩
  rw [Set.insert_sdiff_self_of_notMem h.fresh] at hkept
  exact h.kept.trans hkept

/-- The loop of `get_page_from_freelist` is run at most twice: the second time the lists of the
other CPUs are empty. -/
theorem getPageFromFreelist_spec (hcpu : cpu ∈ cpus) (order fuel : Nat) :
    ∃ s' page, getPageFromFreelist C cpus z cpu order (fuel + 2) s false = some (s', page) ∧
      Allocated C cpus batch z order s held s' page := by
  obtain ⟨s1, page, hrm, hfound⟩ := h.rmqueue_spec (z := z) hcpu order (fuel + 1)
  cases page with
  | some pfn =>
    obtain ⟨v1, hhanded⟩ := hfound
    obtain ⟨t, hprep, halloc⟩ := hhanded.prep
    refine ⟨t, some pfn, ?_, halloc⟩
    simp only [getPageFromFreelist, hrm, hprep]
    rfl
  | none =>
    obtain ⟨v1, hstock1, hkept1, hother1⟩ := hfound
    obtain ⟨s2, v2, train, hdrain, hstock2, hkept2, hlists2, hlast2⟩ :=
      hstock1.drainOthers_spec (z := z) cpu cpus (fun _ h => h) false
    cases train with
    | false =>
      refine ⟨s2, none, ?_, v2, hstock2, hkept1.trans hkept2⟩
      simp only [getPageFromFreelist, hrm, hdrain]
    | true =>
      obtain ⟨s3, page, hrm3, hfound⟩ := hstock2.rmqueue_spec (z := z) hcpu order fuel
      cases page with
      | some pfn =>
        obtain ⟨v3, hhanded⟩ := hfound
        obtain ⟨t, hprep, v4, hstock4, hkept4, hrest⟩ := hhanded.prep
        refine ⟨t, some pfn, ?_, v4, hstock4, (hkept1.trans hkept2).trans hkept4, hrest⟩
        simp only [getPageFromFreelist, hrm, hdrain, hrm3, hprep]
        rfl
      | none =>
        obtain ⟨v3, hstock3, hkept3, hother3⟩ := hfound
        obtain ⟨s4, v4, train, hdrain4, hstock4, hkept4, -, hlast4⟩ :=
          hstock3.drainOthers_spec (z := z) cpu cpus (fun _ h => h) true
        have hempty3 : ∀ other ∈ cpus, other ≠ cpu → v3.mem (.pcp z other) = [] := by
          intro other ho hne
          rw [hother3 z other (by simpa using hne), hlists2, if_pos ⟨ho, hne⟩]
        -- the last of the others had a page, so there is one, and it has none now
        obtain ⟨last, hl⟩ : ∃ last, (cpus.filter (· ≠ cpu)).getLast? = some last := by
          refine Option.ne_none_iff_exists'.mp fun hl => ?_
          rw [hl] at hlast2
          cases hlast2
        rw [hl] at hlast4
        obtain ⟨hmem, hne⟩ := mem_filter.mp (mem_of_getLast? hl)
        obtain rfl : train = false := by
          rw [← Bool.not_eq_true]
          exact fun htrain => hlast4.1 htrain (hempty3 last hmem (of_decide_eq_true hne))
        refine ⟨s4, none, ?_, v4, hstock4,
          ((hkept1.trans hkept2).trans hkept3).trans hkept4⟩
        simp only [getPageFromFreelist, hrm, hdrain, hrm3, hdrain4]

theorem allocPages_spec (hcpu : cpu ∈ cpus) (z : ζ) (order fuel : Nat) :
    ∃ s' page, allocPages C cpus (fuel + 2) s z cpu order = some (s', page) ∧
      Allocated C cpus batch z order s held s' page := by
  unfold allocPages
  split_ifs
  · exact ⟨s, none, rfl, v, h, .refl _ _⟩
  · exact h.getPageFromFreelist_spec hcpu order fuel

theorem freePages_spec (hcpu : cpu ∈ cpus) (hb : (z, b) ∈ held) (hheld : Held 1 s b) :
    ∃ s' v', freePages C s cpu b = some s' ∧
      Stock C cpus batch s' v' (held \ {(z, b)}) ∧ Kept (held \ {(z, b)}) s s' := by
  have hput := hheld.put
  have hw : Writes (blockPages b) s (s.setPage b.base
      { s.pages b.base with refcount := (s.pages b.base).refcount - 1 }) := by
    refine (Writes.setPage s b.base _).mono ?_
    rintro x rfl
    exact b.covers_base
  obtain ⟨hstock1, hkept1⟩ := h.write hb hw hput.pageType
  obtain ⟨s2, hprep, hidle, hw2⟩ := freePagesPrepare_spec hput
  obtain ⟨hstock2, hkept2⟩ := hstock1.write hb hw2 fun x hx => (hidle x hx).2
  have hzone : C.zone b.base = z := (h.pools.inHand hb).zone b.covers_base
  simp only [freePages, freeThePage, hprep, hzone, Option.bind_eq_bind, Option.bind_some]
  simp only [hheld.refcount, one_ne_zero, if_false, sub_self, if_true, Bool.not_true,
    Bool.false_eq_true]
  split_ifs with ho
  · obtain ⟨pfn, order⟩ := b
    obtain rfl : order = 0 := ho
    obtain ⟨s', v', hcommit, hstock', hkept'⟩ :=
      hstock2.commit hcpu hb (hidle _ (Block.covers_base _)).1
    exact ⟨s', v', hcommit, hstock', (hkept1.trans hkept2).trans hkept'⟩
  · obtain ⟨s', v', hfree, hpools, hkept', hpcp, hmem⟩ :=
      hstock2.pools.free hb fun x hx => (hidle x hx).1
    exact ⟨s', v', hfree, hstock2.congr hpools hpcp hmem, (hkept1.trans hkept2).trans hkept'⟩

end Stock

end MinixRt.PageAlloc
