import MinixRt.Mm.PageTable

/-!
# What the page tables of an address space stand for

`Rep` relates the memory, in the middle of an operation on the VMA `A`, to the family `P`
of the tables of the address space and to its leaves `L`: the memory holds that radix tree,
a table has one reference for every VMA that keeps it in its trees, a VMA keeps tables that
cover some of its addresses only, and a VMA other than `A` keeps all of them or none. The
pages in `K` belong to somebody else and stay as they are.

Each primitive of `PageTable` keeps `Rep`: a store to a leaf, one more reference to a table,
a new table, and a reference given up, with which the table may go.
-/

namespace MinixRt.Mm

open Function Lib Work

variable {n l' : Nat} {q t : Page}

theorem ptrs_pos : 0 < ptrs := by decide

theorem entrySize_pos (l : Nat) : 0 < entrySize l :=
  Nat.mul_pos (by decide) (Nat.pow_pos (by decide))

theorem entrySize_succ (l : Nat) : entrySize (l + 1) = entrySize l * ptrs := by
  simp [entrySize, pow_succ, mul_assoc]

theorem pageSize_dvd_entrySize (l : Nat) : pageSize ∣ entrySize l := ⟨_, rfl⟩

theorem div_entrySize_succ (a l : Nat) : a / entrySize (l + 1) = a / entrySize l / ptrs := by
  rw [entrySize_succ, Nat.div_div_eq_div_mul]

namespace Vma

/-- Table `k` of level `l` covers an address of the VMA. -/
def Meets (v : Vma) (l k : Nat) : Prop :=
  v.vmStart / entrySize (l + 1) ≤ k ∧ k ≤ (v.vmEnd - 1) / entrySize (l + 1)

/-- The first address of the VMA that table `k` of level `l` covers. -/
def first (v : Vma) (l k : Nat) : Nat := max v.vmStart (k * entrySize (l + 1))

/-- The VMA covers page `n` of the address space. -/
def Covers (v : Vma) (n : Nat) : Prop := v.vmStart ≤ n * pageSize ∧ n * pageSize < v.vmEnd

variable {v : Vma} {l k : Nat}

theorem Meets.succ (h : v.Meets l k) : v.Meets (l + 1) (k / ptrs) := by
  unfold Meets
  rw [div_entrySize_succ, div_entrySize_succ _ (l + 1)]
  exact ⟨Nat.div_le_div_right h.1, Nat.div_le_div_right h.2⟩

theorem meets_of_mem {a : Nat} (h1 : v.vmStart ≤ a) (h2 : a < v.vmEnd) :
    v.Meets l (a / entrySize (l + 1)) :=
  ⟨Nat.div_le_div_right h1, Nat.div_le_div_right (by omega)⟩

theorem Meets.first_div (h : v.Meets l k) : v.first l k / entrySize (l + 1) = k := by
  have hS := entrySize_pos (l + 1)
  rcases max_choice v.vmStart (k * entrySize (l + 1)) with hm | hm <;> rw [first, hm]
  · refine le_antisymm h.1 ?_
    rw [Nat.le_div_iff_mul_le hS]
    exact hm ▸ le_max_right _ _
  · exact Nat.mul_div_cancel k hS

theorem Meets.first_lt (h : v.Meets l k) (hv : v.vmStart < v.vmEnd) : v.first l k < v.vmEnd := by
  have := (Nat.le_div_iff_mul_le (entrySize_pos (l + 1))).mp h.2
  exact max_lt hv (by omega)

theorem Covers.meets (h : v.Covers n) : v.Meets 0 (n / ptrs) := by
  have := meets_of_mem (l := 0) h.1 h.2
  rwa [div_entrySize_succ, entrySize, pow_zero, mul_one, Nat.mul_div_cancel n (by decide)] at this

/-- The VMA keeps every table that covers one of its addresses. -/
def Mapped (v : Vma) (P : Nat → Nat → Option Page) : Prop :=
  ∀ l < 3, ∀ k, v.Meets l k → ∃ q, P l k = some q ∧ q ∈ v.root l

end Vma

structure VmaRep (P : Nat → Nat → Option Page) (v : Vma) : Prop where
  own : ∀ l q, q ∈ v.root l → l < 3 ∧ ∃ k, P l k = some q ∧ v.Meets l k
  mapped : (∀ l, v.root l = ∅) ∨ v.Mapped P

theorem VmaRep.mapped_of_mem {P : Nat → Nat → Option Page} {v : Vma} (h : VmaRep P v) {l : Nat} (hq : q ∈ v.root l) : v.Mapped P := by
  refine h.mapped.resolve_left fun hempty => ?_
  rw [hempty l] at hq
  exact absurd hq (Finset.notMem_empty q)

/-- What an operation found: pages of somebody else, and the leaves of the address space. -/
structure Before where
  pages : Page → Prop
  ref : Page → Nat
  tbl : Page → Nat → Option Entry
  live : ∀ q, pages q → ref q ≠ 0
  leaf : Nat → Option Entry

def MmuOp.apply (L : Nat → Option Entry) : MmuOp → Nat → Option Entry
  | .setPte n e => update L n (some e)
  | .clearPte n => update L n none
  | .flushRange _ _ => L

/-- A store makes an empty leaf valid or keeps its page. -/
def MmuOp.Tame (L : Nat → Option Entry) : MmuOp → Prop
  | .setPte n e => ∀ e', L n = some e' → e'.page = e.page
  | _ => True

/-- The log takes the leaves `L₀` to `L`. -/
inductive Replays (L₀ : Nat → Option Entry) : List MmuOp → (Nat → Option Entry) → Prop
  | nil : Replays L₀ [] L₀
  | log {ops : List MmuOp} {op : MmuOp} {L : Nat → Option Entry} :
      Replays L₀ ops L → op.Tame L → Replays L₀ (ops ++ [op]) (op.apply L)

variable {L0 L : Nat → Option Entry}

theorem Replays.nil_inv {ops : List MmuOp} (h : Replays L0 ops L) (hops : ops = []) : L = L0 := by
  cases h with
  | nil => rfl
  | log => simp at hops

theorem Replays.cons_inv {op : MmuOp} {ops all : List MmuOp} (h : Replays L0 all L)
    (hall : all = op :: ops) : op.Tame L0 ∧ Replays (op.apply L0) ops L := by
  induction h generalizing ops with
  | nil => cases hall
  | @log all last L h htame ih =>
    cases all with
    | nil =>
      obtain rfl := h.nil_inv rfl
      cases hall
      exact ⟨htame, .nil⟩
    | cons =>
      rw [List.cons_append, List.cons.injEq] at hall
      obtain ⟨rfl, rfl⟩ := hall
      obtain ⟨h1, h2⟩ := ih rfl
      exact ⟨h1, h2.log htame⟩

/-- The number of VMAs that keep table `q` of level `l`. -/
def holders (V : List Vma) (l : Nat) (q : Page) : Nat := V.countP fun v => q ∈ v.root l

structure Rep (pgd : Page) (V : List Vma) (A : Vma) (K : Before) (s : Work)
    (P : Nat → Nat → Option Page) (L : Nat → Option Entry) : Prop where
  stored : Radix.Stored ptrs 3 tableDesc s.tbl P L
  top : P 3 0 = some pgd
  single : ∀ k, k ≠ 0 → P 3 k = none
  live : ∀ l k q, P l k = some q → s.ref q ≠ 0
  refs : ∀ l < 3, ∀ k q, P l k = some q →
    s.ref q = holders V l q + if q ∈ s.root l then 1 else 0
  own : ∀ l q, q ∈ s.root l → l < 3 ∧ ∃ k, P l k = some q ∧ A.Meets l k
  others : ∀ v ∈ V, VmaRep P v
  covered : ∀ n, L n ≠ none → (∃ q, P 0 (n / ptrs) = some q ∧ q ∈ s.root 0 ∧ A.Covers n) ∨
    ∃ v ∈ V, v.Mapped P ∧ v.Covers n
  kept : ∀ q, K.pages q → s.ref q = K.ref q ∧ s.tbl q = K.tbl q ∧ ∀ l k, P l k ≠ some q
  bytes : ∃ T : Finset Page, (∀ q, q ∈ T ↔ ∃ l < 3, ∃ k, P l k = some q) ∧
    s.pgtablesBytes = 4096 * T.card
  mmu : Replays K.leaf s.mmu L
  rootRef : s.ref pgd = 1
  used : ∀ q, s.ref q ≠ 0 → K.pages q ∨ ∃ l k, P l k = some q

section Rep

variable {pgd : Page} {V : List Vma} {A : Vma} {K : Before} {s s' : Work}
  {P : Nat → Nat → Option Page} {L : Nat → Option Entry}

namespace Rep

variable {l k : Nat}

variable {r : Nat → Finset Page} {x : Page}

theorem mem_root_insert : x ∈ update r l (insert q (r l)) l' ↔ l' = l ∧ x = q ∨ x ∈ r l' := by
  by_cases hl : l' = l
  · subst hl
    simp
  · simp [hl]

theorem mem_root_erase : x ∈ update r l ((r l).erase q) l' ↔ ¬ (l' = l ∧ x = q) ∧ x ∈ r l' := by
  by_cases hl : l' = l
  · subst hl
    simp
  · simp [hl]

theorem vmaRep_setTable {v : Vma} (h : VmaRep P v) (hnone : P l k = none) (p : Option Page) :
    VmaRep (Radix.setTable P l k p) v where
  own l' x hx := by
    obtain ⟨hl', k', hk', hm⟩ := h.own l' x hx
    exact ⟨hl', k', Radix.setTable_of_some hk' (by simp [hnone]), hm⟩
  mapped := h.mapped.imp_right fun hmap l' hl' k' hm => by
    obtain ⟨x, hx, hmem⟩ := hmap l' hl' k' hm
    exact ⟨x, Radix.setTable_of_some hx (by simp [hnone]), hmem⟩

/-- The leaves that `A` accounts for through table `k` of level `l` are gone. -/
def Cleared (A : Vma) (L : Nat → Option Entry) (l k : Nat) : Prop :=
  l = 0 → ∀ n, n / ptrs = k → A.Covers n → L n = none

variable (h : Rep pgd V A K s P L)
include h

theorem congr (href : s'.ref = s.ref) (htbl : s'.tbl = s.tbl) (hroot : s'.root = s.root)
    (hbytes : s'.pgtablesBytes = s.pgtablesBytes) (hmmu : s'.mmu = s.mmu) :
    Rep pgd V A K s' P L := by
  cases s'
  cases href
  cases htbl
  cases hroot
  cases hbytes
  cases hmmu
  exact { h with }

theorem flush (start stop : Nat) : Rep pgd V A K (s.logMmu (.flushRange start stop)) P L :=
  { h with mmu := h.mmu.log trivial }

theorem notMem_of_none (hq : ∀ l k, P l k ≠ some q) (l : Nat) : q ∉ s.root l := by
  intro hmem
  obtain ⟨-, k, hk, -⟩ := h.own l q hmem
  exact hq l k hk

theorem holders_of_none (hq : ∀ l k, P l k ≠ some q) (l : Nat) : holders V l q = 0 := by
  refine List.countP_eq_zero.mpr fun v hv hmem => ?_
  obtain ⟨-, k, hk, -⟩ := (h.others v hv).own l q (by simpa using hmem)
  exact hq l k hk

theorem place_unique {k' : Nat} (h1 : P l k = some q) (h2 : P l' k' = some q) :
    l = l' ∧ k = k' := h.stored.inj _ _ _ _ q h1 h2

theorem setLeaf (ht : P 0 (n / ptrs) = some t) {v : Option Entry} (op : MmuOp)
    (hop : op.apply L = update L n v) (htame : op.Tame L)
    (hv : v ≠ none → (t ∈ s.root 0 ∧ A.Covers n) ∨ ∃ v ∈ V, v.Mapped P ∧ v.Covers n) :
    Rep pgd V A K ((s.setTbl t (n % ptrs) v).logMmu op) P (update L n v) where
  stored := h.stored.setLeaf ptrs_pos ht v
  top := h.top
  single := h.single
  live := h.live
  refs := h.refs
  own := h.own
  others := h.others
  covered m hm := by
    by_cases hmn : m = n
    · subst hmn
      rw [update_self] at hm
      rcases hv hm with ⟨hroot, hcov⟩ | hcov
      · exact .inl ⟨t, ht, hroot, hcov⟩
      · exact .inr hcov
    · rw [update_of_ne hmn] at hm
      exact h.covered m hm
  kept q hq := by
    obtain ⟨h1, h2, h3⟩ := h.kept q hq
    refine ⟨h1, ?_, h3⟩
    rw [← h2]
    exact Radix.setCell_page (by rintro rfl; exact h3 _ _ ht)
  bytes := h.bytes
  mmu := by
    rw [← hop]
    exact h.mmu.log htame
  rootRef := h.rootRef
  used := h.used

theorem root_ne (hl : l < 3) (hq : P l k = some q) : pgd ≠ q := by
  rintro rfl
  have := (h.place_unique h.top hq).1
  omega

theorem kept_setRef (hq : P l k = some q) (n : Nat) (x : Page) (hx : K.pages x) :
    update s.ref q n x = K.ref x ∧ s.tbl x = K.tbl x ∧ ∀ l k, P l k ≠ some x := by
  obtain ⟨h1, h2, h3⟩ := h.kept x hx
  rw [update_of_ne (by rintro rfl; exact h3 _ _ hq)]
  exact ⟨h1, h2, h3⟩

theorem used_setRef (hq : P l k = some q) (n : Nat) (x : Page) (hx : update s.ref q n x ≠ 0) :
    K.pages x ∨ ∃ l k, P l k = some x := by
  by_cases hxq : x = q
  · exact .inr ⟨l, k, by rw [hxq]; exact hq⟩
  · rw [update_of_ne hxq] at hx
    exact h.used x hx

theorem share (hl : l < 3) (hq : P l k = some q) (hnot : q ∉ s.root l) (hm : A.Meets l k) :
    Rep pgd V A K ((s.setRef q (s.ref q + 1)).setRoot l (insert q (s.root l))) P L :=
  { h with
    live := fun l' k' x hx => by
      dsimp only [setRef, setRoot]
      by_cases hxq : x = q
      · subst hxq
        simp
      · rw [update_of_ne hxq]
        exact h.live l' k' x hx
    refs := fun l' hl' k' x hx => by
      simp only [setRef, setRoot, mem_root_insert]
      have hold := h.refs l' hl' k' x hx
      by_cases hxq : x = q
      · subst hxq
        obtain ⟨rfl, rfl⟩ := h.place_unique hx hq
        rw [if_neg hnot] at hold
        simp [hold]
      · rw [update_of_ne hxq, hold]
        simp [hxq]
    own := fun l' x hx => by
      rcases mem_root_insert.mp hx with ⟨rfl, rfl⟩ | hx
      · exact ⟨hl, k, hq, hm⟩
      · exact h.own l' x hx
    covered := fun n hn => (h.covered n hn).imp_left fun ⟨x, hx, hmem, hcov⟩ =>
      ⟨x, hx, mem_root_insert.mpr (.inr hmem), hcov⟩
    kept := h.kept_setRef hq _
    rootRef := (update_of_ne (h.root_ne hl hq) _ _).trans h.rootRef
    used := h.used_setRef hq _ }

theorem add {p : Page} (hl : l < 3) (hnone : P l k = none) (ht : P (l + 1) (k / ptrs) = some t)
    (hfree : s.ref p = 0) (hm : A.Meets l k) (href : s'.ref = update s.ref p 1)
    (htbl : s'.tbl = Radix.setCell (update s.tbl p fun _ => none) t (k % ptrs) (some (tableDesc p)))
    (hroot : s'.root = update s.root l (insert p (s.root l)))
    (hbytes : s'.pgtablesBytes = s.pgtablesBytes + 4096) (hmmu : s'.mmu = s.mmu) :
    Rep pgd V A K s' (Radix.setTable P l k (some p)) L := by
  have hp : ∀ l' k', P l' k' ≠ some p := fun l' k' hlk => h.live l' k' p hlk hfree
  have hplace : ∀ {l' k' x}, Radix.setTable P l k (some p) l' k' = some x →
      l' = l ∧ k' = k ∧ x = p ∨ P l' k' = some x ∧ x ≠ p := by
    intro l' k' x hx
    by_cases hc : l' = l ∧ k' = k
    · obtain ⟨rfl, rfl⟩ := hc
      rw [Radix.setTable_self] at hx
      exact .inl ⟨rfl, rfl, (Option.some.inj hx).symm⟩
    · rw [Radix.setTable_of_ne (not_and_or.mp hc)] at hx
      exact .inr ⟨hx, by rintro rfl; exact hp _ _ hx⟩
  have hkeep : ∀ {l' k' x}, P l' k' = some x →
      Radix.setTable P l k (some p) l' k' = some x := fun hx =>
    Radix.setTable_of_some hx (by simp [hnone])
  have hKp : ∀ {x}, K.pages x → x ≠ p := by
    rintro x hx rfl
    exact K.live x hx ((h.kept x hx).1 ▸ hfree)
  refine ⟨?_, hkeep h.top, fun k' hk' => (Radix.setTable_of_ne (.inl (by omega))).trans
      (h.single k' hk'), fun l' k' x hx => ?_, fun l' hl' k' x hx => ?_, fun l' x hx => ?_,
    fun v hv => vmaRep_setTable (h.others v hv) hnone _, fun n hn => ?_, fun x hx => ?_, ?_,
    by rw [hmmu]; exact h.mmu, ?_, fun x hx => ?_⟩
  · rw [htbl]
    refine (h.stored.congr fun l' k' x hx => ?_).add ptrs_pos hl hnone ht hp fun i => ?_
    · exact update_of_ne (by rintro rfl; exact hp _ _ hx) _ _
    · rw [update_self]
  · rw [href]
    rcases hplace hx with ⟨-, -, rfl⟩ | ⟨hx, hne⟩
    · simp
    · rw [update_of_ne hne]
      exact h.live l' k' x hx
  · rw [href, hroot, if_congr mem_root_insert rfl rfl]
    rcases hplace hx with ⟨rfl, rfl, rfl⟩ | ⟨hx, hne⟩
    · simp [h.holders_of_none hp]
    · rw [update_of_ne hne, h.refs l' hl' k' x hx]
      simp [hne]
  · rw [hroot, mem_root_insert] at hx
    rcases hx with ⟨rfl, rfl⟩ | hx
    · exact ⟨hl, k, Radix.setTable_self .., hm⟩
    · obtain ⟨hl', k', hk', hm'⟩ := h.own l' x hx
      exact ⟨hl', k', hkeep hk', hm'⟩
  · rcases h.covered n hn with ⟨x, hx, hmem, hcov⟩ | ⟨v, hv, hmap, hcov⟩
    · exact .inl ⟨x, hkeep hx, by rw [hroot, mem_root_insert]; exact .inr hmem, hcov⟩
    · refine .inr ⟨v, hv, fun l' hl' k' hm' => ?_, hcov⟩
      obtain ⟨x, hx, hmem⟩ := hmap l' hl' k' hm'
      exact ⟨x, hkeep hx, hmem⟩
  · obtain ⟨h1, h2, h3⟩ := h.kept x hx
    have hxt : x ≠ t := by
      rintro rfl
      exact h3 _ _ ht
    rw [href, htbl, update_of_ne (hKp hx), Radix.setCell_page hxt,
      update_of_ne (hKp hx)]
    refine ⟨h1, h2, fun l' k' hlk => ?_⟩
    rcases hplace hlk with ⟨-, -, rfl⟩ | ⟨hlk, -⟩
    · exact hKp hx rfl
    · exact h3 l' k' hlk
  · obtain ⟨T, hT, hcard⟩ := h.bytes
    have hpT : p ∉ T := fun hmem => by
      obtain ⟨l', -, k', hlk⟩ := (hT p).mp hmem
      exact hp l' k' hlk
    refine ⟨insert p T, fun x => ?_, ?_⟩
    · rw [Finset.mem_insert, hT]
      constructor
      · rintro (rfl | ⟨l', hl', k', hlk⟩)
        · exact ⟨l, hl, k, Radix.setTable_self ..⟩
        · exact ⟨l', hl', k', hkeep hlk⟩
      · rintro ⟨l', hl', k', hlk⟩
        rcases hplace hlk with ⟨-, -, rfl⟩ | ⟨hlk, -⟩
        · exact .inl rfl
        · exact .inr ⟨l', hl', k', hlk⟩
    · rw [hbytes, hcard, Finset.card_insert_of_notMem hpT]
      push_cast
      ring
  · rw [href, update_of_ne fun hc => hp _ _ (hc ▸ h.top)]
    exact h.rootRef
  · by_cases hxp : x = p
    · exact .inr ⟨l, k, by rw [hxp]; exact Radix.setTable_self ..⟩
    · rw [href, update_of_ne hxp] at hx
      exact (h.used x hx).imp_right fun ⟨l', k', hlk⟩ => ⟨l', k', hkeep hlk⟩

theorem covered_erase (hq : P l k = some q) (hclear : Cleared A L l k) (hn : L n ≠ none) :
    (∃ x, P 0 (n / ptrs) = some x ∧ x ∈ update s.root l ((s.root l).erase q) 0 ∧
      A.Covers n) ∨ ∃ v ∈ V, v.Mapped P ∧ v.Covers n := by
  rcases h.covered n hn with ⟨x, hx, hmem, hcov⟩ | hcov
  · refine .inl ⟨x, hx, mem_root_erase.mpr ⟨?_, hmem⟩, hcov⟩
    rintro ⟨rfl, rfl⟩
    exact hn (hclear rfl n (h.place_unique hx hq).2 hcov)
  · exact .inr hcov

theorem drop (hq : P l k = some q) (hmem : q ∈ s.root l) (hone : s.ref q ≠ 1)
    (hclear : Cleared A L l k) :
    Rep pgd V A K ((s.setRoot l ((s.root l).erase q)).setRef q (s.ref q - 1)) P L :=
  { h with
    live := fun l' k' x hx => by
      have hlive := h.live l' k' x hx
      dsimp only [setRef, setRoot]
      by_cases hxq : x = q
      · subst hxq
        rw [update_self]
        omega
      · rwa [update_of_ne hxq]
    refs := fun l' hl' k' x hx => by
      simp only [setRef, setRoot, mem_root_erase]
      have hold := h.refs l' hl' k' x hx
      by_cases hxq : x = q
      · subst hxq
        obtain ⟨rfl, rfl⟩ := h.place_unique hx hq
        rw [if_pos hmem] at hold
        simp [hold]
      · rw [update_of_ne hxq, hold]
        simp [hxq]
    own := fun l' x hx => h.own l' x (mem_root_erase.mp hx).2
    covered := fun _ hn => h.covered_erase hq hclear hn
    kept := h.kept_setRef hq _
    rootRef := (update_of_ne (h.root_ne (h.own l q hmem).1 hq) _ _).trans h.rootRef
    used := h.used_setRef hq _ }

theorem not_meets (hl : l < 3) (hq : P l k = some q) (hmem : q ∈ s.root l) (hone : s.ref q = 1)
    {v : Vma} (hv : v ∈ V) (hmap : v.Mapped P) : ¬ v.Meets l k := by
  intro hm
  obtain ⟨x, hx, hroot⟩ := hmap l hl k hm
  obtain rfl : q = x := Option.some.inj (hq.symm.trans hx)
  have hrefs := h.refs l hl k q hq
  have hpos : 0 < holders V l q := List.countP_pos_iff.mpr ⟨v, hv, by simpa using hroot⟩
  rw [if_pos hmem] at hrefs
  omega

theorem child_eq_none (hl : l + 1 < 3) (hq : P (l + 1) k = some q) (hmem : q ∈ s.root (l + 1))
    (hone : s.ref q = 1) (hchild : ∀ k' x, k' / ptrs = k → P l k' = some x → x ∉ s.root l)
    {k' : Nat} (hk' : k' / ptrs = k) : P l k' = none := by
  by_contra hne
  obtain ⟨x, hx⟩ := Option.ne_none_iff_exists'.mp hne
  have hrefs := h.refs l (by omega) k' x hx
  rw [if_neg (hchild k' x hk' hx)] at hrefs
  have hlive := h.live l k' x hx
  obtain ⟨v, hv, hroot⟩ := List.countP_pos_iff.mp (show 0 < holders V l x by omega)
  have hroot : x ∈ v.root l := by simpa using hroot
  obtain ⟨-, k'', hk'', hm⟩ := (h.others v hv).own l x hroot
  obtain rfl := (h.place_unique hx hk'').2
  have hmeets := hm.succ
  rw [hk'] at hmeets
  exact h.not_meets hl hq hmem hone hv ((h.others v hv).mapped_of_mem hroot) hmeets

theorem leaf_eq_none (hq : P 0 k = some q) (hmem : q ∈ s.root 0) (hone : s.ref q = 1)
    (hclear : Cleared A L 0 k) (hn : n / ptrs = k) : L n = none := by
  by_contra hne
  rcases h.covered n hne with ⟨x, -, -, hcov⟩ | ⟨v, hv, hmap, hcov⟩
  · exact hne (hclear rfl n hn hcov)
  · have hmeets := hcov.meets
    rw [hn] at hmeets
    exact h.not_meets (by decide) hq hmem hone hv hmap hmeets

theorem free (hl : l < 3) (hq : P l k = some q) (ht : P (l + 1) (k / ptrs) = some t)
    (hmem : q ∈ s.root l) (hone : s.ref q = 1) (hclear : Cleared A L l k)
    (hchild : ∀ l', l = l' + 1 → ∀ k' x, k' / ptrs = k → P l' k' = some x → x ∉ s.root l')
    (href : s'.ref = update s.ref q 0) (htbl : s'.tbl = Radix.setCell s.tbl t (k % ptrs) none)
    (hroot : s'.root = update s.root l ((s.root l).erase q))
    (hbytes : s'.pgtablesBytes = s.pgtablesBytes - 4096) (hmmu : s'.mmu = s.mmu) :
    Rep pgd V A K s' (Radix.setTable P l k none) L := by
  have hplace : ∀ {l' k' x}, Radix.setTable P l k none l' k' = some x →
      P l' k' = some x ∧ x ≠ q := by
    intro l' k' x hx
    by_cases hc : l' = l ∧ k' = k
    · obtain ⟨rfl, rfl⟩ := hc
      rw [Radix.setTable_self] at hx
      cases hx
    · rw [Radix.setTable_of_ne (not_and_or.mp hc)] at hx
      exact ⟨hx, by rintro rfl; exact hc (h.place_unique hx hq)⟩
  have hkeep : ∀ {l' k' x}, P l' k' = some x → x ≠ q →
      Radix.setTable P l k none l' k' = some x := fun hx hne =>
    Radix.setTable_of_some hx fun heq => hne (Option.some.inj (heq.symm.trans hq))
  -- no other VMA keeps the table
  have hother : ∀ v ∈ V, q ∉ v.root l := by
    intro v hv hroot
    obtain ⟨-, k', hk', hm⟩ := (h.others v hv).own l q hroot
    obtain rfl := (h.place_unique hq hk').2
    exact h.not_meets hl hq hmem hone hv ((h.others v hv).mapped_of_mem hroot) hm
  have hvma : ∀ v ∈ V, ∀ {l' x}, x ∈ v.root l' → x ≠ q := by
    rintro v hv l' x hx rfl
    obtain ⟨-, k', hk', -⟩ := (h.others v hv).own l' x hx
    obtain rfl := (h.place_unique hq hk').1
    exact hother v hv hx
  have hmapped : ∀ v ∈ V, v.Mapped P → v.Mapped (Radix.setTable P l k none) := by
    intro v hv hmap l' hl' k' hm
    obtain ⟨x, hx, hroot⟩ := hmap l' hl' k' hm
    exact ⟨x, hkeep hx (hvma v hv hroot), hroot⟩
  refine ⟨?_, hkeep h.top ?_, fun k' hk' => (Radix.setTable_of_ne (.inl (by omega))).trans
      (h.single k' hk'), fun l' k' x hx => ?_, fun l' hl' k' x hx => ?_, fun l' x hx => ?_,
    fun v hv => ⟨fun l' x hx => ?_, ?_⟩, fun n hn => ?_, fun x hx => ?_, ?_,
    by rw [hmmu]; exact h.mmu, ?_, fun x hx => ?_⟩
  · rw [htbl]
    refine h.stored.remove ptrs_pos ht ?_ ?_
    · rintro l' rfl i hi
      refine h.child_eq_none hl hq hmem hone (hchild l' rfl) ?_
      exact ((Radix.Stored.cell_number ptrs_pos hi).mp rfl).1.symm
    · rintro rfl i hi
      refine h.leaf_eq_none hq hmem hone hclear ?_
      exact ((Radix.Stored.cell_number ptrs_pos hi).mp rfl).1.symm
  · exact h.root_ne hl hq
  · obtain ⟨hx, hne⟩ := hplace hx
    rw [href, update_of_ne hne]
    exact h.live l' k' x hx
  · obtain ⟨hx, hne⟩ := hplace hx
    rw [href, hroot, if_congr mem_root_erase rfl rfl, update_of_ne hne,
      h.refs l' hl' k' x hx]
    simp [hne]
  · rw [hroot, mem_root_erase] at hx
    obtain ⟨hl', k', hk', hm⟩ := h.own l' x hx.2
    refine ⟨hl', k', hkeep hk' ?_, hm⟩
    rintro rfl
    exact hx.1 ⟨(h.place_unique hk' hq).1, rfl⟩
  · obtain ⟨hl', k', hk', hm⟩ := (h.others v hv).own l' x hx
    exact ⟨hl', k', hkeep hk' (hvma v hv hx), hm⟩
  · exact (h.others v hv).mapped.imp_right (hmapped v hv)
  · rcases h.covered_erase hq hclear hn with ⟨x, hx, hmem', hcov⟩ | ⟨v, hv, hmap, hcov⟩
    · refine .inl ⟨x, hkeep hx ?_, by rw [hroot]; exact hmem', hcov⟩
      rintro rfl
      exact (mem_root_erase.mp hmem').1 ⟨(h.place_unique hx hq).1, rfl⟩
    · exact .inr ⟨v, hv, hmapped v hv hmap, hcov⟩
  · obtain ⟨h1, h2, h3⟩ := h.kept x hx
    rw [href, htbl, update_of_ne (by rintro rfl; exact h3 _ _ hq),
      Radix.setCell_page (by rintro rfl; exact h3 _ _ ht)]
    exact ⟨h1, h2, fun l' k' hlk => h3 l' k' (hplace hlk).1⟩
  · obtain ⟨T, hT, hcard⟩ := h.bytes
    have hqT : q ∈ T := (hT q).mpr ⟨l, hl, k, hq⟩
    refine ⟨T.erase q, fun x => ?_, ?_⟩
    · rw [Finset.mem_erase, hT]
      constructor
      · rintro ⟨hne, l', hl', k', hlk⟩
        exact ⟨l', hl', k', hkeep hlk hne⟩
      · rintro ⟨l', hl', k', hlk⟩
        exact ⟨(hplace hlk).2, l', hl', k', (hplace hlk).1⟩
    · have hpos : 0 < T.card := Finset.card_pos.mpr ⟨q, hqT⟩
      rw [hbytes, hcard, Finset.card_erase_of_mem hqT]
      omega
  · rw [href, update_of_ne (h.root_ne hl hq)]
    exact h.rootRef
  · by_cases hxq : x = q
    · rw [href, hxq, update_self] at hx
      exact absurd rfl hx
    · rw [href, update_of_ne hxq] at hx
      exact (h.used x hx).imp_right fun ⟨l', k', hlk⟩ => ⟨l', k', hkeep hlk hxq⟩

end Rep

end Rep

end MinixRt.Mm
