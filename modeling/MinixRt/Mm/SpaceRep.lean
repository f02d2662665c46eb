import MinixRt.Mm.Protect
import MinixRt.Mm.Space

/-!
# What an address space stands for between two operations

`SpaceRep` says of a whole `mm_struct` what `Rep` says in the middle of an operation on one
VMA: the memory holds the tables `P` with the leaves `L`, every table has one reference for
each VMA that keeps it, the VMAs are disjoint and in order, and a leaf holds the page that
the VMA over it has for its address. Each function of `Space` has one lemma: it keeps
`SpaceRep`, changes `L` as said, and leaves the pages of everybody else alone (`Keeps`).
-/

namespace MinixRt.Mm

open List Lib Work

structure SpaceRep (m : Mem) (mm : MmStruct) (P : Nat → Nat → Option Page)
    (L : Nat → Option Entry) : Prop where
  stored : Radix.Stored ptrs 3 tableDesc m.tbl P L
  top : P 3 0 = some mm.pgd
  single : ∀ k, k ≠ 0 → P 3 k = none
  live : ∀ l k q, P l k = some q → m.ref q ≠ 0
  refs : ∀ l < 3, ∀ k q, P l k = some q → m.ref q = holders mm.vmas l q
  rep : ∀ v ∈ mm.vmas, VmaRep P v
  sized : ∀ v ∈ mm.vmas, v.Sized ∧ v.vmEnd ≤ entrySize 4
  ordered : mm.vmas.Pairwise fun u v => u.vmEnd ≤ v.vmStart
  covered : ∀ n, L n ≠ none → ∃ v ∈ mm.vmas, v.Mapped P ∧ v.Covers n
  leaf : ∀ v ∈ mm.vmas, ∀ n e, v.Covers n → L n = some e →
    v.page (n - v.vmStart / pageSize) = some e.page
  filled : ∀ v ∈ mm.vmas, v.Mapped P → ∀ n, v.Covers n → L n ≠ none
  bytes : ∃ T : Finset Page, (∀ q, q ∈ T ↔ ∃ l < 3, ∃ k, P l k = some q) ∧
    mm.pgtablesBytes = 4096 * T.card
  rootRef : m.ref mm.pgd = 1

/-- Pages in use that are no tables of the address space, and not in `X`, stay as they
are. -/
structure Keeps (X : Page → Prop) (m : Mem) (P : Nat → Nat → Option Page) (m' : Mem)
    (P' : Nat → Nat → Option Page) : Prop where
  page : ∀ q, m.ref q ≠ 0 → ¬ X q → (∀ l k, P l k ≠ some q) →
    m'.ref q = m.ref q ∧ m'.tbl q = m.tbl q ∧ ∀ l k, P' l k ≠ some q
  data : ∀ q, m.ref q ≠ 0 → ¬ X q → (∀ l k, P l k ≠ some q) → m'.data q = m.data q

section Space

variable {m m' : Mem} {mm : MmStruct} {s s' : Space} {P P' : Nat → Nat → Option Page}
  {L L' : Nat → Option Entry} {u v : Vma} {l₁ l₂ : List Vma} {w : Work}

/-! ## VMAs in order -/

theorem Vma.Sized.not_covers_both (h : u.vmEnd ≤ v.vmStart) {n : Nat} (hu : u.Covers n) :
    ¬ v.Covers n := by
  intro hv
  have h1 := hu.2
  have h2 := hv.1
  omega

theorem page_mem_iff {start stop : Nat} (hstart : pageSize ∣ start) (hstop : pageSize ∣ stop)
    (a : Nat) : start ≤ a / pageSize * pageSize ∧ a / pageSize * pageSize < stop ↔
      start ≤ a ∧ a < stop := by
  have hpos : 0 < pageSize := by decide
  obtain ⟨c, hc⟩ := hstart
  obtain ⟨d, hd⟩ := hstop
  have h1 := Nat.div_add_mod a pageSize
  have h2 := Nat.mod_lt a hpos
  rw [hc, hd, mul_comm (a / pageSize)]
  constructor
  · rintro ⟨hl, hr⟩
    have := Nat.lt_of_mul_lt_mul_left hr
    have := Nat.mul_le_mul_left pageSize this
    rw [Nat.mul_succ] at this
    exact ⟨by omega, by omega⟩
  · rintro ⟨hl, hr⟩
    refine ⟨Nat.mul_le_mul_left _ ((Nat.le_div_iff_mul_le hpos).mpr ?_), by omega⟩
    rw [mul_comm]
    exact hl

theorem Vma.Sized.covers_iff (h : v.Sized) (a : Nat) :
    v.Covers (a / pageSize) ↔ v.vmStart ≤ a ∧ a < v.vmEnd :=
  page_mem_iff h.start h.stop a

theorem Vma.Sized.sub_div (h : v.Sized) (a : Nat) :
    a / pageSize - v.vmStart / pageSize = (a - v.vmStart) / pageSize := by
  obtain ⟨c, hc⟩ := h.start
  rw [hc, Nat.mul_div_cancel_left c (by decide), Nat.sub_mul_div]

structure Among (mm : MmStruct) (l₁ : List Vma) (v : Vma) (l₂ : List Vma) : Prop where
  eq : mm.vmas = l₁ ++ v :: l₂
  before : ∀ u ∈ l₁, u.vmEnd ≤ v.vmStart
  after : ∀ u ∈ l₂, v.vmEnd ≤ u.vmStart

theorem Among.mem_iff (ha : Among mm l₁ v l₂) : u ∈ mm.vmas ↔ u ∈ l₁ ++ l₂ ∨ u = v := by
  rw [ha.eq]
  simp
  tauto

theorem Among.mem (ha : Among mm l₁ v l₂) : v ∈ mm.vmas := ha.mem_iff.mpr (.inr rfl)

namespace SpaceRep

theorem among_of_eq (h : SpaceRep m mm P L) (heq : mm.vmas = l₁ ++ v :: l₂) : Among mm l₁ v l₂ := by
  have ho := h.ordered
  rw [heq, pairwise_append, pairwise_cons] at ho
  exact ⟨heq, fun u hu => ho.2.2 u hu v (by simp), ho.2.1.1⟩

theorem among (h : SpaceRep m mm P L) (hv : v ∈ mm.vmas) : ∃ l₁ l₂, Among mm l₁ v l₂ := by
  obtain ⟨l₁, l₂, heq⟩ := append_of_mem hv
  exact ⟨l₁, l₂, h.among_of_eq heq⟩

theorem not_covers_of_among (ha : Among mm l₁ v l₂) (hu : u ∈ l₁ ++ l₂) {n : Nat}
    (hc : u.Covers n) : ¬ v.Covers n := by
  rcases mem_append.mp hu with hu | hu
  · exact Vma.Sized.not_covers_both (ha.before u hu) hc
  · exact fun hv => Vma.Sized.not_covers_both (ha.after u hu) hv hc

theorem start_ne_of_among (h : SpaceRep m mm P L) (ha : Among mm l₁ v l₂) (hu : u ∈ l₁ ++ l₂) :
    u.vmStart ≠ v.vmStart := by
  have hv := (h.sized v ha.mem).1.lt
  rcases mem_append.mp hu with hu | hu
  · have h1 := ha.before u hu
    have h2 := (h.sized u (by rw [ha.eq]; simp [hu])).1.lt
    omega
  · have h1 := ha.after u hu
    omega

end SpaceRep

variable {vs : List Vma} {a : Nat}

theorem findVmaArea_of_mem (hsz : ∀ u ∈ vs, u.vmStart < u.vmEnd)
    (ho : vs.Pairwise fun u v => u.vmEnd ≤ v.vmStart) (hv : v ∈ vs) (h1 : v.vmStart ≤ a)
    (h2 : a < v.vmEnd) : findVmaArea a vs = some v := by
  induction vs with
  | nil => cases hv
  | cons u vs ih =>
    rw [pairwise_cons] at ho
    rcases mem_cons.mp hv with rfl | hv
    · rw [findVmaArea, if_neg (by omega), if_neg (by omega)]
    · have hu := hsz u (by simp)
      have hle := ho.1 v hv
      rw [findVmaArea, if_neg (by omega), if_pos (by omega)]
      exact ih (fun x hx => hsz x (by simp [hx])) ho.2 hv

theorem SpaceRep.find_eq (h : SpaceRep m mm P L) (hv : v ∈ mm.vmas) (h1 : v.vmStart ≤ a)
    (h2 : a < v.vmEnd) : findVmaArea a mm.vmas = some v :=
  findVmaArea_of_mem (fun u hu => (h.sized u hu).1.lt) h.ordered hv h1 h2

theorem SpaceRep.filter_start_le (h : SpaceRep m mm P L) (ha : Among mm l₁ v l₂) :
    (mm.vmas.filter fun u => v.vmStart ≤ u.vmStart) = v :: l₂ := by
  have hlt := (h.sized v ha.mem).1.lt
  have h1 : (l₁.filter fun u => v.vmStart ≤ u.vmStart) = [] := by
    refine filter_eq_nil_iff.mpr fun u hu => ?_
    have := ha.before u hu
    have := (h.sized u (by rw [ha.eq]; simp [hu])).1.lt
    simp only [decide_eq_true_eq]
    omega
  have h2 : (l₂.filter fun u => v.vmStart ≤ u.vmStart) = l₂ := by
    refine filter_eq_self.mpr fun u hu => ?_
    have := ha.after u hu
    simp only [decide_eq_true_eq]
    omega
  rw [ha.eq, filter_append, h1, filter_cons, if_pos (by simp), h2, nil_append]

theorem SpaceRep.filter_start_lt (h : SpaceRep m mm P L) (ha : Among mm l₁ v l₂) :
    (mm.vmas.filter fun u => v.vmStart < u.vmStart) = l₂ := by
  have hlt := (h.sized v ha.mem).1.lt
  have hsplit : (fun u : Vma => decide (v.vmStart < u.vmStart)) = fun u =>
      decide (u.vmStart ≠ v.vmStart) && decide (v.vmStart ≤ u.vmStart) := by
    funext u
    rw [Bool.eq_iff_iff]
    simp only [Bool.and_eq_true, decide_eq_true_eq]
    omega
  rw [hsplit, ← filter_filter, h.filter_start_le ha, filter_cons, if_neg (by simp)]
  refine filter_eq_self.mpr fun u hu => ?_
  have := ha.after u hu
  simp only [ne_eq, decide_eq_true_eq]
  omega

theorem findVmaArea_some (h : findVmaArea a vs = some v) :
    v ∈ vs ∧ v.vmStart ≤ a ∧ a < v.vmEnd := by
  induction vs with
  | nil => cases h
  | cons u vs ih =>
    rw [findVmaArea] at h
    split_ifs at h with h1 h2
    · obtain ⟨hm, hr⟩ := ih h
      exact ⟨by simp [hm], hr⟩
    · cases h
      exact ⟨by simp, by omega, by omega⟩

theorem insertVmaArea_some {vs vs' : List Vma} (h : insertVmaArea v vs = some vs')
    (hsz : ∀ u ∈ vs, u.vmStart < u.vmEnd) (ho : vs.Pairwise fun u v => u.vmEnd ≤ v.vmStart) :
    ∃ l₁ l₂, vs = l₁ ++ l₂ ∧ vs' = l₁ ++ v :: l₂ ∧ (∀ u ∈ l₁, u.vmEnd ≤ v.vmStart) ∧
      ∀ u ∈ l₂, v.vmEnd ≤ u.vmStart := by
  induction vs generalizing vs' with
  | nil =>
    cases h
    exact ⟨[], [], rfl, rfl, nofun, nofun⟩
  | cons u vs ih =>
    rw [pairwise_cons] at ho
    rw [insertVmaArea] at h
    split_ifs at h with h1 h2
    · cases h
      refine ⟨[], u :: vs, rfl, rfl, nofun, fun x hx => ?_⟩
      rcases mem_cons.mp hx with rfl | hx
      · exact h1
      · have := hsz u (by simp)
        have := ho.1 x hx
        omega
    · obtain ⟨vs1, hvs1, rfl⟩ := Option.map_eq_some_iff.mp h
      obtain ⟨l₁, l₂, rfl, rfl, hb, ha⟩ := ih hvs1 (fun x hx => hsz x (by simp [hx])) ho.2
      refine ⟨u :: l₁, l₂, rfl, rfl, fun x hx => ?_, ha⟩
      rcases mem_cons.mp hx with rfl | hx
      · exact h2
      · exact hb x hx

theorem insertVmaArea_none (h : insertVmaArea v vs = none) :
    ∃ u ∈ vs, ¬ v.vmEnd ≤ u.vmStart ∧ ¬ u.vmEnd ≤ v.vmStart := by
  induction vs with
  | nil => cases h
  | cons u vs ih =>
    rw [insertVmaArea] at h
    split_ifs at h with h1 h2
    · obtain ⟨x, hx, hover⟩ := ih (Option.map_eq_none_iff.mp h)
      exact ⟨x, by simp [hx], hover⟩
    · exact ⟨u, by simp, h1, h2⟩

/-! ## Into an operation and out of it -/

/-- The pages that an operation on the tables finds in use by others. -/
def found (m : Mem) (P : Nat → Nat → Option Page) (L : Nat → Option Entry) : Before where
  pages q := m.ref q ≠ 0 ∧ ∀ l k, P l k ≠ some q
  ref := m.ref
  tbl := m.tbl
  live _ h := h.1
  leaf := L

theorem holders_among (l : Nat) (q : Page) : holders (l₁ ++ v :: l₂) l q =
    holders (l₁ ++ l₂) l q + if q ∈ v.root l then 1 else 0 := by
  simp only [holders, countP_append, countP_cons, decide_eq_true_eq]
  omega

theorem SpaceRep.toRep (h : SpaceRep s.mem s.mm P L) (ha : Among s.mm l₁ v l₂) :
    Rep s.mm.pgd (l₁ ++ l₂) v (found s.mem P L) (s.work v) P L where
  stored := h.stored
  top := h.top
  single := h.single
  live := h.live
  refs l hl k q hq := by
    have := h.refs l hl k q hq
    rw [ha.eq, holders_among] at this
    exact this
  own l q hq := (h.rep v ha.mem).own l q hq
  others u hu := h.rep u (ha.mem_iff.mpr (.inl hu))
  covered n hn := by
    obtain ⟨u, hu, hm, hc⟩ := h.covered n hn
    rcases ha.mem_iff.mp hu with hu | rfl
    · exact .inr ⟨u, hu, hm, hc⟩
    · obtain ⟨q, hq, hmem⟩ := hm 0 (by decide) _ hc.meets
      exact .inl ⟨q, hq, hmem, hc⟩
  kept q hq := ⟨rfl, rfl, hq.2⟩
  bytes := h.bytes
  mmu := .nil
  rootRef := h.rootRef
  used q hq := by
    by_cases hP : ∃ l k, P l k = some q
    · exact .inr hP
    · push Not at hP
      exact .inl ⟨hq, hP⟩

theorem map_setRoot (h : SpaceRep m mm P L) (ha : Among mm l₁ v l₂) (r : Nat → Finset Page) :
    (mm.vmas.map fun u => if u.vmStart = v.vmStart then { u with root := r } else u) =
      l₁ ++ { v with root := r } :: l₂ := by
  have hid : ∀ vs : List Vma, (∀ u ∈ vs, u ∈ l₁ ++ l₂) →
      (vs.map fun u => if u.vmStart = v.vmStart then { u with root := r } else u) = vs := by
    intro vs hvs
    rw [map_congr_left fun u hu => if_neg (h.start_ne_of_among ha (hvs u hu)), map_id']
  rw [ha.eq, map_append, map_cons, if_pos rfl, hid l₁ fun u hu => by simp [hu],
    hid l₂ fun u hu => by simp [hu]]

theorem Vma.Mapped.exists_mem (h : v.Mapped P) (hv : v.vmStart < v.vmEnd) {l : Nat} (hl : l < 3) :
    ∃ q, q ∈ v.root l := by
  obtain ⟨q, -, hq⟩ := h l hl _ (Vma.meets_of_mem le_rfl hv)
  exact ⟨q, hq⟩

theorem SpaceRep.not_mapped (h : SpaceRep m mm P L) (hv : v ∈ mm.vmas) (hroot : ∀ l, v.root l = ∅) :
    ¬ v.Mapped P := by
  intro hm
  obtain ⟨q, hq⟩ := hm.exists_mem (h.sized v hv).1.lt (by decide : 0 < 3)
  rw [hroot 0] at hq
  exact Finset.notMem_empty q hq

/-- What an operation on the tables of `v` has to say about the leaves. -/
structure Refills (v : Vma) (mapped : Prop) (L L' : Nat → Option Entry) : Prop where
  out : ∀ n, ¬ v.Covers n → L' n = L n
  leaf : ∀ n e, v.Covers n → L' n = some e →
    v.page (n - v.vmStart / pageSize) = some e.page
  filled : mapped → ∀ n, v.Covers n → L' n ≠ none

theorem SpaceRep.ofRep {K : Before} {mapped : Prop} (h : SpaceRep s.mem s.mm P L)
    (ha : Among s.mm l₁ v l₂) (hr : Rep s.mm.pgd (l₁ ++ l₂) v K w P' L')
    (hroot : (∀ l, w.root l = ∅) ∨
      mapped ∧ ∀ l < 3, ∀ k, v.Meets l k → ∃ q, P' l k = some q ∧ q ∈ w.root l)
    (hL : Refills v mapped L L') : SpaceRep (s.finish v w).mem (s.finish v w).mm P' L' := by
  have hvmas : (s.finish v w).mm.vmas = l₁ ++ { v with root := w.root } :: l₂ :=
    map_setRoot h ha w.root
  have hv := ha.mem
  have hother : ∀ u ∈ l₁ ++ l₂, u ∈ s.mm.vmas := fun u hu => ha.mem_iff.mpr (.inl hu)
  have hsplit : ∀ u ∈ (s.finish v w).mm.vmas, u ∈ l₁ ++ l₂ ∨ u = { v with root := w.root } := by
    intro u hu
    rw [hvmas] at hu
    simp at hu ⊢
    tauto
  have hself : VmaRep P' { v with root := w.root } :=
    ⟨hr.own, hroot.imp_right fun hm => hm.2⟩
  refine ⟨hr.stored, hr.top, hr.single, hr.live, fun l hl k q hq => ?_, fun u hu => ?_, fun u hu => ?_, ?_,
    fun n hn => ?_, fun u hu n e hc he => ?_, fun u hu hm n hc => ?_, hr.bytes, hr.rootRef⟩
  · rw [hvmas, holders_among]
    exact hr.refs l hl k q hq
  · rcases hsplit u hu with hu | rfl
    · exact hr.others u hu
    · exact hself
  · rcases hsplit u hu with hu | rfl
    · exact h.sized u (hother u hu)
    · obtain ⟨⟨h1, h2, h3, h4⟩, h5⟩ := h.sized v hv
      exact ⟨⟨h1, h2, h3, h4⟩, h5⟩
  · have ho := h.ordered
    rw [ha.eq, pairwise_append, pairwise_cons] at ho
    rw [hvmas, pairwise_append, pairwise_cons]
    refine ⟨ho.1, ⟨ha.after, ho.2.1.2⟩, fun x hx y hy => ?_⟩
    rcases mem_cons.mp hy with rfl | hy
    · exact ha.before x hx
    · exact ho.2.2 x hx y (by simp [hy])
  · rcases hr.covered n hn with ⟨q, hq, hmem, hc⟩ | ⟨u, hu, hm, hc⟩
    · exact ⟨_, by rw [hvmas]; simp, hself.mapped_of_mem hmem, hc⟩
    · exact ⟨u, by rw [hvmas]; simp at hu ⊢; tauto, hm, hc⟩
  · rcases hsplit u hu with hu | rfl
    · rw [hL.out n (SpaceRep.not_covers_of_among ha hu hc)] at he
      exact h.leaf u (hother u hu) n e hc he
    · exact hL.leaf n e hc he
  · rcases hsplit u hu with hu | rfl
    · rw [hL.out n (SpaceRep.not_covers_of_among ha hu hc)]
      obtain ⟨q, hq⟩ := hm.exists_mem (h.sized u (hother u hu)).1.lt (by decide : 0 < 3)
      exact h.filled u (hother u hu) ((h.rep u (hother u hu)).mapped_of_mem hq) n hc
    · rcases hroot with hroot | hroot
      · obtain ⟨q, hq⟩ := hm.exists_mem (h.sized v hv).1.lt (by decide : 0 < 3)
        change q ∈ w.root 0 at hq
        rw [hroot 0] at hq
        exact absurd hq (Finset.notMem_empty q)
      · exact hL.filled hroot.1 n hc

theorem Rep.keeps {pgd : Page} {V : List Vma} (hr : Rep pgd V v (found s.mem P L) w P' L') :
    Keeps (fun _ => False) s.mem P (s.finish v w).mem P' :=
  ⟨fun q hq _ hP => hr.kept q ⟨hq, hP⟩, fun _ _ _ _ => rfl⟩

end Space

end MinixRt.Mm
