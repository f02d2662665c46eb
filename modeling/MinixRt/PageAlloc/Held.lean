import MinixRt.PageAlloc.Pools

/-!
# The pages of a block that somebody holds

`prep_new_page` counts the first page and makes the others its tails, and `free_pages_prepare`
undoes this and checks every page. A block that the boot code frees was never prepared: its
pages have no head and no tails.
-/

namespace MinixRt.PageAlloc

open Function MinixRt.Lib

variable {ζ : Type} {s s' : Zones ζ} {b : Block} {compound : Bool} {x head : Nat}

/-- Only the pages in `T` were written, and of their links only `next`. -/
structure Writes (T : Set Nat) (s s' : Zones ζ) : Prop where
  pages : ∀ x ∉ T, s'.pages x = s.pages x
  links : ∀ n, (∀ x ∈ T, n ≠ .lru x) →
    s'.links.next n = s.links.next n ∧ s'.links.prev n = s.links.prev n
  nrFree : s'.nrFree = s.nrFree
  pcp : s'.pcp = s.pcp

namespace Writes

variable {T : Set Nat}

theorem refl (T : Set Nat) (s : Zones ζ) : Writes T s s :=
  ⟨fun _ _ => rfl, fun _ _ => ⟨rfl, rfl⟩, rfl, rfl⟩

theorem trans {s'' : Zones ζ} (h1 : Writes T s s') (h2 : Writes T s' s'') : Writes T s s'' where
  pages x hx := (h2.pages x hx).trans (h1.pages x hx)
  links n hn := ⟨(h2.links n hn).1.trans (h1.links n hn).1,
    (h2.links n hn).2.trans (h1.links n hn).2⟩
  nrFree := h2.nrFree.trans h1.nrFree
  pcp := h2.pcp.trans h1.pcp

theorem mono {T' : Set Nat} (h : Writes T s s') (hsub : T ⊆ T') : Writes T' s s' where
  pages x hx := h.pages x fun hmem => hx (hsub hmem)
  links n hn := h.links n fun x hx => hn x (hsub hx)
  nrFree := h.nrFree
  pcp := h.pcp

theorem next (h : Writes T s s') (hx : x ∉ T) : s'.links.next (.lru x) = s.links.next (.lru x) := by
  refine (h.links (.lru x) fun y hy heq => hx ?_).1
  cases heq
  exact hy

theorem setPage (s : Zones ζ) (x : Nat) (p : Page) : Writes {x} s (s.setPage x p) where
  pages _ hy := update_of_ne hy _ _
  links _ _ := ⟨rfl, rfl⟩
  nrFree := rfl
  pcp := rfl

theorem setNext [DecidableEq ζ] (s : Zones ζ) (x : Nat) (n : Node ζ) : Writes {x} s (s.setNext x n) where
  pages _ _ := rfl
  links m hm := by
    refine ⟨?_, rfl⟩
    simp [Zones.setNext, hm x rfl]
  nrFree := rfl
  pcp := rfl

end Writes

/-- A block whose first page has the count `n`, in one of the two shapes. -/
structure Held (n : Int) (s : Zones ζ) (b : Block) : Prop where
  refcount : (s.pages b.base).refcount = n
  plain : pageTail s b.base = false
  pageType : ∀ x, b.Covers x → (s.pages x).pageType = BitVec.allOnes 32
  tails : ∀ x, b.Covers x → x ≠ b.base → (s.pages x).flags = .clear ∧ (s.pages x).refcount = 0
  shape : ((s.pages b.base).flags = .clear ∧
      ∀ x, b.Covers x → x ≠ b.base → pageTail s x = false) ∨
    ((s.pages b.base).flags = { PageFlags.clear with head := true } ∧ b.order ≠ 0 ∧
      (s.pages (b.base + 1)).compoundOrder = b.order ∧
      ∀ x, b.Covers x → x ≠ b.base → s.links.next (.lru x) = .compoundHead b.base)

theorem covers_second (ho : b.order ≠ 0) : b.Covers (b.base + 1) := by
  have hpow : 2 ^ 1 ≤ 2 ^ b.order := Nat.pow_le_pow_right (by decide) (Nat.pos_of_ne_zero ho)
  exact ⟨by omega, by omega⟩

theorem Held.congr {n : Int} (h : Held n s b) (hsame : ∀ x, b.Covers x →
    s'.pages x = s.pages x ∧ s'.links.next (.lru x) = s.links.next (.lru x)) : Held n s' b := by
  have hbase := hsame _ b.covers_base
  have htail : ∀ x, b.Covers x → pageTail s' x = pageTail s x := by
    intro x hx
    simp only [pageTail, (hsame x hx).2]
  refine ⟨?_, ?_, ?_, ?_, ?_⟩
  · rw [hbase.1, h.refcount]
  · rw [htail _ b.covers_base, h.plain]
  · intro x hx
    rw [(hsame x hx).1, h.pageType x hx]
  · intro x hx hne
    rw [(hsame x hx).1]
    exact h.tails x hx hne
  · rw [hbase.1]
    rcases h.shape with ⟨hf, hplain⟩ | ⟨hf, ho, horder, hlink⟩
    · exact .inl ⟨hf, fun x hx hne => (htail x hx).trans (hplain x hx hne)⟩
    · refine .inr ⟨hf, ho, ?_, fun x hx hne => (hsame x hx).2.trans (hlink x hx hne)⟩
      rw [(hsame _ (covers_second ho)).1, horder]

theorem Held.put (h : Held 1 s b) : Held 0 (s.setPage b.base
    { s.pages b.base with refcount := (s.pages b.base).refcount - 1 }) b := by
  have hself : (s.setPage b.base { s.pages b.base with
      refcount := (s.pages b.base).refcount - 1 }).pages b.base =
      { s.pages b.base with refcount := (s.pages b.base).refcount - 1 } := update_self ..
  have hother : ∀ x, x ≠ b.base → (s.setPage b.base { s.pages b.base with
      refcount := (s.pages b.base).refcount - 1 }).pages x = s.pages x := fun x hx =>
    update_of_ne hx _ _
  refine ⟨?_, h.plain, ?_, ?_, ?_⟩
  · rw [hself, h.refcount]
    rfl
  · intro x hx
    by_cases hne : x = b.base
    · subst hne
      rw [hself]
      exact h.pageType _ hx
    · rw [hother x hne]
      exact h.pageType x hx
  · intro x hx hne
    rw [hother x hne]
    exact h.tails x hx hne
  · rw [hself, hother (b.base + 1) (Nat.succ_ne_self _)]
    exact h.shape

theorem mem_tailPages : x ∈ tailPages b ↔ b.Covers x ∧ x ≠ b.base := by
  have hpos := Nat.two_pow_pos b.order
  simp only [tailPages, List.mem_range'_1, Block.Covers]
  omega

theorem nodup_tailPages : (tailPages b).Nodup := List.nodup_range'

/-! ## Releasing -/

/-- The page passes the checks of `free_pages_prepare` as a tail. -/
structure TailOk (compound : Bool) (head : Nat) (s : Zones ζ) (x : Nat) : Prop where
  flags : (s.pages x).flags = .clear
  refcount : (s.pages x).refcount = 0
  pageType : (s.pages x).pageType = BitVec.allOnes 32
  link : if compound then s.links.next (.lru x) = .compoundHead head else pageTail s x = false

theorem freePagesCheck_of_ok (hflags : (s.pages x).flags.checkAtFree = false)
    (hcount : (s.pages x).refcount = 0) (htype : (s.pages x).pageType = BitVec.allOnes 32) :
    freePagesCheck s x = (s, false) := by
  simp [freePagesCheck, pageExpectedState, hflags, hcount, htype]

variable [DecidableEq ζ]

theorem freeTail_spec (h : TailOk compound head s x) :
    ∃ s', freeTail compound head (s, false) x = (s', false) ∧ Idle s' x ∧
      (s'.pages x).pageType = BitVec.allOnes 32 ∧ Writes {x} s s' := by
  obtain ⟨t, htail, hpages, hplain, hwrites⟩ : ∃ t : Zones ζ,
      (if compound then freeTailPagesCheck s head x else (s, false)) = (t, false) ∧
      t.pages = s.pages ∧ pageTail t x = false ∧ Writes {x} s t := by
    cases compound with
    | true =>
      have hnext : s.links.next (.lru x) = .compoundHead head := h.link
      refine ⟨s.setNext x .null, ?_, rfl, ?_, .setNext s x .null⟩
      · simp [freeTailPagesCheck, pageTail, compoundHead, hnext]
      · simp [pageTail, Zones.setNext]
    | false => exact ⟨s, rfl, rfl, h.link, .refl _ _⟩
  have hcheck : freePagesCheck t x = (t, false) := by
    refine freePagesCheck_of_ok ?_ ?_ ?_
    · rw [hpages, h.flags]
      rfl
    · rw [hpages, h.refcount]
    · rw [hpages, h.pageType]
  refine ⟨t.setPage x { t.pages x with flags := .clear }, ?_, ⟨⟨?_, ?_, ?_⟩, hplain⟩, ?_,
    hwrites.trans (.setPage _ _ _)⟩
  · simp only [freeTail, htail, hcheck]
    rfl
  · simp [Zones.setPage]
  · simp [Zones.setPage, hpages, h.refcount]
  · simp only [Zones.setPage, update_self, hpages, h.pageType]
    decide
  · simp [Zones.setPage, hpages, h.pageType]

variable {T : Set Nat}

omit [DecidableEq ζ] in
theorem TailOk.of_writes (h : TailOk compound head s x) (hw : Writes T s s') (hx : x ∉ T) :
    TailOk compound head s' x where
  flags := hw.pages x hx ▸ h.flags
  refcount := hw.pages x hx ▸ h.refcount
  pageType := hw.pages x hx ▸ h.pageType
  link := by
    have hlink := h.link
    simp only [pageTail, hw.next hx] at hlink ⊢
    exact hlink

omit [DecidableEq ζ] in
theorem Idle.of_writes (h : Idle s x) (hw : Writes T s s') (hx : x ∉ T) : Idle s' x := by
  refine ⟨hw.pages x hx ▸ h.quiet, ?_⟩
  rw [← h.plain]
  simp only [pageTail, hw.next hx]

theorem freeTails_spec (xs : List Nat) (hnodup : xs.Nodup)
    (h : ∀ x ∈ xs, TailOk compound head s x) :
    ∃ s', xs.foldl (freeTail compound head) (s, false) = (s', false) ∧
      (∀ x ∈ xs, Idle s' x ∧ (s'.pages x).pageType = BitVec.allOnes 32) ∧
      Writes {x | x ∈ xs} s s' := by
  induction xs generalizing s with
  | nil => exact ⟨s, rfl, nofun, .refl _ _⟩
  | cons x xs ih =>
    obtain ⟨hx, hnodup⟩ := List.nodup_cons.mp hnodup
    obtain ⟨t, htail, hidle, htype, hw⟩ := freeTail_spec (h x (by simp))
    obtain ⟨s', hrest, hidle', hw'⟩ := ih hnodup fun y hy =>
      (h y (by simp [hy])).of_writes hw (by rintro rfl; exact hx hy)
    refine ⟨s', ?_, ?_, (hw.mono (by simp)).trans (hw'.mono fun y hy => by simp [show y ∈ xs from hy])⟩
    · rw [List.foldl_cons, htail]
      exact hrest
    · intro y hy
      rcases List.mem_cons.mp hy with rfl | hy
      · exact ⟨hidle.of_writes hw' hx, hw'.pages y hx ▸ htype⟩
      · exact hidle' y hy

def blockPages (b : Block) : Set Nat := {x | b.Covers x}

/-- A block with no count left passes `free_pages_prepare`, and its pages are idle then. -/
theorem freePagesPrepare_spec (h : Held 0 s b) : ∃ s', freePagesPrepare s b = some (s', true) ∧
      (∀ x, b.Covers x → Idle s' x ∧ (s'.pages x).pageType = BitVec.allOnes 32) ∧
      Writes (blockPages b) s s' := by
  have hhead : (s.pages b.base).flags.checkAtFree = false := by
    rcases h.shape with ⟨hf, _⟩ | ⟨hf, _⟩ <;> rw [hf] <;> rfl
  have hcompound : ((s.pages b.base).flags.head && compoundOrder s b.base ≠ b.order) = false := by
    rcases h.shape with ⟨hf, _⟩ | ⟨hf, _, horder, _⟩
    · simp [hf, PageFlags.clear]
    · simp [hf, compoundOrder, horder]
  have htailok : ∀ x ∈ tailPages b, TailOk (s.pages b.base).flags.head b.base s x := by
    intro x hx
    obtain ⟨hcov, hne⟩ := mem_tailPages.mp hx
    refine ⟨(h.tails x hcov hne).1, (h.tails x hcov hne).2, h.pageType x hcov, ?_⟩
    rcases h.shape with ⟨hf, hplain⟩ | ⟨hf, _, _, hlink⟩
    · simpa [hf, PageFlags.clear] using hplain x hcov hne
    · simpa [hf] using hlink x hcov hne
  obtain ⟨t, hfold, hidle, hw⟩ : ∃ t : Zones ζ, (if b.order ≠ 0 then
      (tailPages b).foldl (freeTail (s.pages b.base).flags.head b.base) (s, false)
      else (s, false)) = (t, false) ∧
      (∀ x ∈ tailPages b, Idle t x ∧ (t.pages x).pageType = BitVec.allOnes 32) ∧
      Writes {x | x ∈ tailPages b} s t := by
    by_cases ho : b.order = 0
    · refine ⟨s, by simp [ho], ?_, .refl _ _⟩
      simp [tailPages, ho]
    · obtain ⟨t, ht⟩ := freeTails_spec _ nodup_tailPages htailok
      exact ⟨t, by simpa [ho] using ht⟩
  have hbase : b.base ∉ {x | x ∈ tailPages b} := fun hmem => (mem_tailPages.mp hmem).2 rfl
  have hpage := hw.pages _ hbase
  have hcheck : freePagesCheck t b.base = (t, false) := by
    refine freePagesCheck_of_ok ?_ ?_ ?_
    · rw [hpage, hhead]
    · rw [hpage, h.refcount]
    · rw [hpage, h.pageType _ b.covers_base]
  refine ⟨t.setPage b.base { t.pages b.base with flags := .clear }, ?_, ?_, ?_⟩
  · simp only [freePagesPrepare, h.plain, Bool.or_false, hcompound, Bool.and_false]
    simp only [Bool.false_eq_true, if_false, hfold, hcheck, Bool.or_self]
  · intro x hx
    by_cases hne : x = b.base
    · subst hne
      refine ⟨⟨⟨?_, ?_, ?_⟩, ?_⟩, ?_⟩
      · simp [Zones.setPage]
      · simp [Zones.setPage, hpage, h.refcount]
      · simp only [Zones.setPage, update_self, hpage, h.pageType _ b.covers_base]
        decide
      · rw [← h.plain]
        simp only [pageTail, ← hw.next hbase]
        rfl
      · simp [Zones.setPage, hpage, h.pageType _ b.covers_base]
    · obtain ⟨hi, ht⟩ := hidle x (mem_tailPages.mpr ⟨hx, hne⟩)
      have hw' := Writes.setPage t b.base { t.pages b.base with flags := .clear }
      exact ⟨hi.of_writes hw' hne, hw'.pages x hne ▸ ht⟩
  · refine (hw.mono fun x hx => (mem_tailPages.mp hx).1).trans ?_
    refine (Writes.setPage t b.base _).mono ?_
    rintro x rfl
    exact b.covers_base

/-! ## Handing out -/

omit [DecidableEq ζ] in
theorem checkNewPage_of_idle (h : Idle s x) (htype : (s.pages x).pageType = BitVec.allOnes 32) :
    checkNewPage s x = (s, false) := by
  simp [checkNewPage, pageExpectedState, h.quiet.flags, h.quiet.refcount, htype]

omit [DecidableEq ζ] in
theorem checkNewPages_of_idle (xs : List Nat)
    (h : ∀ x ∈ xs, Idle s x ∧ (s.pages x).pageType = BitVec.allOnes 32) :
    checkNewPages s xs = (s, false) := by
  induction xs with
  | nil => rfl
  | cons x xs ih =>
    obtain ⟨hi, ht⟩ := h x (by simp)
    simp only [checkNewPages, checkNewPage_of_idle hi ht]
    exact ih fun y hy => h y (by simp [hy])

theorem prepTails_spec (head : Nat) (xs : List Nat) (hnodup : xs.Nodup) :
    Writes {x | x ∈ xs} s (xs.foldl (prepTail head) s) ∧
      ∀ x ∈ xs, (xs.foldl (prepTail head) s).pages x = { s.pages x with refcount := 0 } ∧
        (xs.foldl (prepTail head) s).links.next (.lru x) = .compoundHead head := by
  induction xs generalizing s with
  | nil => exact ⟨.refl _ _, nofun⟩
  | cons x xs ih =>
    obtain ⟨hx, hnodup⟩ := List.nodup_cons.mp hnodup
    have hone : Writes {x} s (prepTail head s x) :=
      (Writes.setPage s x _).trans (.setNext _ x _)
    obtain ⟨hw, htails⟩ := ih (s := prepTail head s x) hnodup
    refine ⟨(hone.mono (by simp)).trans (hw.mono fun y hy => by simp [show y ∈ xs from hy]), ?_⟩
    intro y hy
    rw [List.foldl_cons]
    rcases List.mem_cons.mp hy with rfl | hy'
    · rw [hw.pages y hx, hw.next hx]
      simp [prepTail, Zones.setPage, Zones.setNext]
    · have hne : y ∉ ({x} : Set Nat) := by
        rintro rfl
        exact hx hy'
      rw [(htails y hy').1, hone.pages y hne]
      exact ⟨rfl, (htails y hy').2⟩

/-- What `prep_compound_page` leaves. -/
structure Compound (s : Zones ζ) (b : Block) (t : Zones ζ) : Prop where
  writes : Writes (blockPages b) s t
  base : t.pages b.base =
    { s.pages b.base with flags := { (s.pages b.base).flags with head := true } }
  next : t.links.next (.lru b.base) = s.links.next (.lru b.base)
  order : (t.pages (b.base + 1)).compoundOrder = b.order
  tails : ∀ x, b.Covers x → x ≠ b.base → (t.pages x).flags = (s.pages x).flags ∧
    (t.pages x).pageType = (s.pages x).pageType ∧ (t.pages x).refcount = 0 ∧
    t.links.next (.lru x) = .compoundHead b.base

theorem prepCompoundPage_spec (ho : b.order ≠ 0) (horder : b.order < 256) :
    Compound s b (prepCompoundPage s b) := by
  have hsecond : b.base + 1 ∈ tailPages b :=
    mem_tailPages.mpr ⟨covers_second ho, Nat.succ_ne_self _⟩
  have hbase : b.base ∉ {x | x ∈ tailPages b} := fun hmem => (mem_tailPages.mp hmem).2 rfl
  have hpage : ∀ x (p : Page), b.Covers x → ∀ s : Zones ζ, Writes (blockPages b) s (s.setPage x p) := by
    intro x p hx s
    refine (Writes.setPage s x p).mono ?_
    rintro y rfl
    exact hx
  obtain ⟨hw, htails⟩ := prepTails_spec (s := (s.setPage (b.base + 1)
    { s.pages (b.base + 1) with compoundOrder := b.order % 256 }).setPage b.base
    { s.pages b.base with flags := { (s.pages b.base).flags with head := true } })
    b.base (tailPages b) nodup_tailPages
  have hprep : prepCompoundPage s b = (tailPages b).foldl (prepTail b.base)
      ((s.setPage (b.base + 1) { s.pages (b.base + 1) with
        compoundOrder := b.order % 256 }).setPage b.base
        { s.pages b.base with flags := { (s.pages b.base).flags with head := true } }) := by
    simp [prepCompoundPage, Zones.setPage]
  rw [← hprep] at hw htails
  have hcov := (mem_tailPages.mp hsecond).1
  constructor
  · exact ((hpage _ _ hcov s).trans (hpage _ _ b.covers_base _)).trans
      (hw.mono fun x hx => (mem_tailPages.mp hx).1)
  · rw [hw.pages _ hbase]
    simp [Zones.setPage]
  · rw [hw.next hbase]
    rfl
  · rw [(htails _ hsecond).1]
    simp [Zones.setPage, Nat.mod_eq_of_lt horder]
  · intro x hx hne
    obtain ⟨hp, hn⟩ := htails x (mem_tailPages.mpr ⟨hx, hne⟩)
    rw [hp]
    refine ⟨?_, ?_, rfl, hn⟩ <;>
      simp only [Zones.setPage, update_of_ne hne, update_apply] <;>
      split_ifs with heq <;> simp [heq]

theorem prepNewPage_spec (horder : b.order < 256)
    (h : ∀ x, b.Covers x → Idle s x ∧ (s.pages x).pageType = BitVec.allOnes 32) :
    ∃ s', prepNewPage s b = some s' ∧ Held 1 s' b ∧ Writes (blockPages b) s s' := by
  obtain ⟨hi, ht⟩ := h _ b.covers_base
  have hbug : (pageTail s b.base || decide ((s.pages b.base).refcount ≠ 0)) = false := by
    simp [hi.plain, hi.quiet.refcount]
  have hfirst : Writes (blockPages b) s
      (s.setPage b.base { s.pages b.base with priv := 0, refcount := 1 }) := by
    refine (Writes.setPage s b.base _).mono ?_
    rintro x rfl
    exact b.covers_base
  have hother : ∀ x, x ≠ b.base → (s.setPage b.base
      { s.pages b.base with priv := 0, refcount := 1 }).pages x = s.pages x := fun x hne =>
    update_of_ne hne _ _
  have hself : (s.setPage b.base { s.pages b.base with priv := 0, refcount := 1 }).pages b.base =
      { s.pages b.base with priv := 0, refcount := 1 } := update_self ..
  simp only [prepNewPage, hbug, Bool.false_eq_true, if_false]
  by_cases ho : b.order = 0
  · have hone : ∀ x, b.Covers x → x = b.base := by
      intro x hx
      simp only [Block.Covers, ho, Nat.pow_zero] at hx
      omega
    simp only [ho, ne_eq, not_true_eq_false, if_false]
    refine ⟨_, rfl, ⟨?_, hi.plain, ?_, ?_, .inl ⟨?_, ?_⟩⟩, hfirst⟩
    · rw [hself]
    · intro x hx
      rw [hone x hx, hself]
      exact ht
    · exact fun x hx hne => absurd (hone x hx) hne
    · rw [hself]
      exact hi.quiet.flags
    · exact fun x hx hne => absurd (hone x hx) hne
  · simp only [ho, ne_eq, not_false_eq_true, if_true]
    have hc := prepCompoundPage_spec (s := s.setPage b.base
      { s.pages b.base with priv := 0, refcount := 1 }) ho horder
    refine ⟨_, rfl, ⟨?_, ?_, ?_, ?_, .inr ⟨?_, ho, hc.order,
      fun x hx hne => (hc.tails x hx hne).2.2.2⟩⟩,
      hfirst.trans hc.writes⟩
    · rw [hc.base, hself]
    · rw [← hi.plain]
      simp only [pageTail, hc.next]
      rfl
    · intro x hx
      by_cases hne : x = b.base
      · subst hne
        rw [hc.base, hself]
        exact ht
      · rw [(hc.tails x hx hne).2.1, hother x hne]
        exact (h x hx).2
    · intro x hx hne
      rw [(hc.tails x hx hne).1, hother x hne]
      exact ⟨(h x hx).1.quiet.flags, (hc.tails x hx hne).2.2.1⟩
    · rw [hc.base, hself]
      simp [hi.quiet.flags]

end MinixRt.PageAlloc
