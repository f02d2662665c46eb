import MinixRt.Mm.SpaceOps

/-!
# An address space and the pages it owns

A page that a VMA took from the allocator belongs to that VMA alone. `SpaceOk` adds this to
`SpaceRep`, and `SpaceTo` says what an operation leaves to the rest of the system: pages in
use that were neither tables nor own pages are as before, and a page is owned afterwards only
if it was free, owned or a table before. `SpaceTo` composes, so what holds for the functions of
`Space` holds for whatever is made of them.
-/

namespace MinixRt.Mm

open List Lib

/-- The pages that the VMAs took from the allocator. -/
def ownPages (vmas : List Vma) : List Page :=
  vmas.flatMap fun v => if v.Private then v.pages.filterMap id else []

/-- They are there, distinct, and have one reference. -/
structure OwnRep (m : Mem) (vmas : List Vma) : Prop where
  all : ∀ v ∈ vmas, v.Private → none ∉ v.pages
  nodup : (ownPages vmas).Nodup
  ref : ∀ p ∈ ownPages vmas, m.ref p = 1

structure SpaceOk (s : Space) (P : Nat → Nat → Option Page) (L : Nat → Option Entry) :
    Prop where
  rep : SpaceRep s.mem s.mm P L
  own : OwnRep s.mem s.mm.vmas
  data : ∀ p ∈ ownPages s.mm.vmas, ∀ l n, P l n ≠ some p

structure SpaceTo (s : Space) (P : Nat → Nat → Option Page) (s' : Space)
    (P' : Nat → Nat → Option Page) : Prop where
  keeps : Keeps (· ∈ ownPages s.mm.vmas) s.mem P s'.mem P'
  fresh : ∀ p ∈ ownPages s'.mm.vmas, s.mem.ref p = 0 ∨ p ∈ ownPages s.mm.vmas ∨
    ∃ l n, P l n = some p

section Own

variable {m m' : Mem} {mm : MmStruct} {s s' s'' : Space} {P P' P'' : Nat → Nat → Option Page}
  {L L' : Nat → Option Entry} {u v : Vma} {l₁ l₂ vs : List Vma}

theorem mem_ownPages {p : Page} : p ∈ ownPages vs ↔ ∃ v ∈ vs, v.Private ∧ some p ∈ v.pages := by
  rw [ownPages, mem_flatMap]
  refine exists_congr fun v => and_congr_right fun _ => ?_
  by_cases hv : v.Private <;> simp [hv]

theorem ownPages_among : (ownPages (l₁ ++ v :: l₂)).Perm
    ((if v.Private then v.pages.filterMap id else []) ++ ownPages (l₁ ++ l₂)) := by
  simp only [ownPages, flatMap_append, flatMap_cons]
  rw [← append_assoc, ← append_assoc]
  exact (perm_append_comm).append_right _

theorem ownPages_setRoot (a : Nat) (r : Nat → Finset Page) :
    ownPages (vs.map fun u => if u.vmStart = a then { u with root := r } else u) =
      ownPages vs := by
  rw [ownPages, flatMap_map, ownPages]
  refine flatMap_congr fun u _ => ?_
  split <;> rfl

theorem OwnRep.setRoot (h : OwnRep m vs) (a : Nat) (r : Nat → Finset Page)
    (href : ∀ p ∈ ownPages vs, m'.ref p = m.ref p) :
    OwnRep m' (vs.map fun u => if u.vmStart = a then { u with root := r } else u) := by
  refine ⟨fun v hv hp => ?_, ?_, fun p hp => ?_⟩
  · obtain ⟨u, hu, rfl⟩ := mem_map.mp hv
    by_cases hu' : u.vmStart = a
    · rw [if_pos hu'] at hp ⊢
      exact h.all u hu hp
    · rw [if_neg hu'] at hp ⊢
      exact h.all u hu hp
  · rw [ownPages_setRoot]
    exact h.nodup
  · rw [ownPages_setRoot] at hp
    rw [href p hp]
    exact h.ref p hp

theorem map_some_filterMap {ps : List (Option Page)} (h : none ∉ ps) :
    ps = (ps.filterMap id).map some := by
  induction ps with
  | nil => rfl
  | cons p ps ih =>
    rw [mem_cons, not_or] at h
    obtain ⟨p, rfl⟩ := Option.ne_none_iff_exists'.mp (Ne.symm h.1)
    simpa using ih h.2

theorem OwnRep.pages (h : OwnRep m vs) (hv : v ∈ vs) (hp : v.Private) :
    ∃ ps : List Page, v.pages = ps.map some ∧ ps.Nodup ∧ ∀ p ∈ ps, p ∈ ownPages vs := by
  refine ⟨v.pages.filterMap id, map_some_filterMap (h.all v hv hp), ?_, fun p hmem => ?_⟩
  · obtain ⟨l₁, l₂, rfl⟩ := append_of_mem hv
    have := (ownPages_among.nodup_iff.mp h.nodup)
    rw [if_pos hp] at this
    exact (nodup_append.mp this).1
  · exact mem_ownPages.mpr ⟨v, hv, hp, by simpa using hmem⟩

theorem OwnRep.eq_of_mem (h : OwnRep m vs) (hu : u ∈ vs) (hv : v ∈ vs) (hpu : u.Private)
    (hpv : v.Private) {p : Page} (hmu : some p ∈ u.pages) (hmv : some p ∈ v.pages) : u = v := by
  by_contra hne
  obtain ⟨l₁, l₂, rfl⟩ := append_of_mem hv
  have hnodup := ownPages_among.nodup_iff.mp h.nodup
  rw [if_pos hpv, nodup_append] at hnodup
  have hu : u ∈ l₁ ++ l₂ := by
    simp at hu ⊢
    tauto
  exact hnodup.2.2 p (by simpa using hmv) p (mem_ownPages.mpr ⟨u, hu, hpu, hmu⟩) rfl

theorem mapped_of_root (h : SpaceRep m mm P L) (hv : v ∈ mm.vmas) (hroot : v.root 2 ≠ ∅) :
    v.Mapped P := by
  obtain ⟨q, hq⟩ := Finset.nonempty_iff_ne_empty.mpr hroot
  exact (h.rep v hv).mapped_of_mem hq

theorem mem_finish (h : SpaceRep s.mem s.mm P L) (hu : u ∈ s.mm.vmas) (hv : v ∈ s.mm.vmas)
    (huv : u ≠ v) (w : Work) : u ∈ (s.finish v w).mm.vmas := by
  obtain ⟨l₁, l₂, ha⟩ := h.among hv
  have hu' := (ha.mem_iff.mp hu).resolve_right huv
  exact mem_map.mpr ⟨u, hu, if_neg (h.start_ne_of_among ha hu')⟩

/-! ## Composition -/

theorem SpaceTo.refl (s : Space) (P : Nat → Nat → Option Page) : SpaceTo s P s P :=
  ⟨⟨fun _ _ _ h => ⟨rfl, rfl, h⟩, fun _ _ _ _ => rfl⟩, fun _ h => .inr (.inl h)⟩

theorem SpaceTo.trans (h : SpaceTo s P s' P') (h' : SpaceTo s' P' s'' P'') :
    SpaceTo s P s'' P'' := by
  -- a page of somebody else is not owned in between
  have hnot : ∀ {q}, s.mem.ref q ≠ 0 → q ∉ ownPages s.mm.vmas → (∀ l k, P l k ≠ some q) →
      q ∉ ownPages s'.mm.vmas := fun {q} hq hown hP hc => by
    rcases h.fresh q hc with h | h | ⟨l, n, h⟩
    · exact hq h
    · exact hown h
    · exact hP l n h
  refine ⟨⟨fun q hq hown hP => ?_, fun q hq hown hP => ?_⟩, fun p hp => ?_⟩
  · obtain ⟨h1, h2, h3⟩ := h.keeps.page q hq hown hP
    obtain ⟨h4, h5, h6⟩ := h'.keeps.page q (by rwa [h1]) (hnot hq hown hP) h3
    exact ⟨h4.trans h1, h5.trans h2, h6⟩
  · obtain ⟨h1, -, h3⟩ := h.keeps.page q hq hown hP
    rw [h'.keeps.data q (by rwa [h1]) (hnot hq hown hP) h3, h.keeps.data q hq hown hP]
  · by_contra hc
    push Not at hc
    obtain ⟨h1, -, h3⟩ := h.keeps.page p hc.1 hc.2.1 hc.2.2
    rcases h'.fresh p hp with h | h | ⟨l, n, h⟩
    · exact hc.1 (h1 ▸ h)
    · exact hnot hc.1 hc.2.1 hc.2.2 h
    · exact h3 l n h

/-! ## The operations -/

variable (h : SpaceOk s P L)
include h

theorem SpaceOk.same (hm : s.mem.Same m) :
    SpaceOk { s with mem := m } P L ∧ SpaceTo s P { s with mem := m } P :=
  ⟨⟨h.rep.same hm, ⟨h.own.all, h.own.nodup, fun p hp => by
      have href := h.own.ref p hp
      exact (hm.1 p (by omega)).1.trans href⟩, h.data⟩,
    ⟨fun q hq _ hP => ⟨(hm.1 q hq).1, (hm.1 q hq).2.1, hP⟩, fun q hq _ _ => (hm.1 q hq).2.2⟩,
    fun _ hp => .inr (.inl hp)⟩

theorem SpaceOk.tableOp {w : Work} (ht : TableOp s v w P L P' L') :
    SpaceOk (s.finish v w) P' L' ∧ SpaceTo s P (s.finish v w) P' := by
  have hkept : ∀ p ∈ ownPages s.mm.vmas, _ := fun p hp => ht.keeps.page p
    (by rw [h.own.ref p hp]; decide) not_false (h.data p hp)
  have hpages : ownPages (s.finish v w).mm.vmas = ownPages s.mm.vmas := ownPages_setRoot _ _
  refine ⟨⟨ht.rep, h.own.setRoot _ _ fun p hp => (hkept p hp).1, fun p hp => ?_⟩,
    ⟨fun q hq _ hP => ht.keeps.page q hq not_false hP,
      fun q hq _ hP => ht.keeps.data q hq not_false hP⟩, fun p hp => ?_⟩
  · rw [hpages] at hp
    exact (hkept p hp).2.2
  · rw [hpages] at hp
    exact .inr (.inl hp)

theorem SpaceOk.made {vstart size phys : Nat} {flags : BitVec 64}
    (hm : Made s vstart size flags phys v s') (hrep : SpaceRep s'.mem s'.mm P L) :
    SpaceOk s' P L ∧ SpaceTo s P s' P := by
  obtain ⟨l₁, l₂, heq, hmm⟩ := hm.mm
  have hvmas : s'.mm.vmas = l₁ ++ v :: l₂ := by rw [hmm]
  have hsub : ∀ u ∈ s'.mm.vmas, u ∈ s.mm.vmas ∨ u = v := fun u hu => by
    rw [hvmas] at hu
    rw [heq]
    simp at hu ⊢
    tauto
  -- a page of the new VMA was free
  have hfresh : ∀ p, v.Private → some p ∈ v.pages → s.mem.ref p = 0 ∧ s'.mem.ref p = 1 := by
    intro p hp hmem
    obtain ⟨ps, hps, htaken⟩ := hm.taken hp
    have hmem : p ∈ ps := by simpa [hps] using hmem
    exact ⟨(htaken.fresh p hmem).1, (htaken.fresh p hmem).2.1⟩
  have hnodup : (if v.Private then v.pages.filterMap id else []).Nodup := by
    split
    · rename_i hp
      obtain ⟨ps, hps, htaken⟩ := hm.taken hp
      rw [hps]
      simpa using htaken.nodup
    · exact nodup_nil
  have hcase : ∀ p ∈ ownPages s'.mm.vmas,
      (s.mem.ref p = 0 ∧ s'.mem.ref p = 1) ∨ p ∈ ownPages s.mm.vmas := by
    intro p hp
    obtain ⟨u, hu, hpriv, hmem⟩ := mem_ownPages.mp hp
    rcases hsub u hu with hu | rfl
    · exact .inr (mem_ownPages.mpr ⟨u, hu, hpriv, hmem⟩)
    · exact .inl (hfresh p hpriv hmem)
  refine ⟨⟨hrep, ⟨fun u hu hpriv => ?_, ?_, fun p hp => ?_⟩, fun p hp l n hq => ?_⟩,
    ⟨fun q hq _ hP => hm.same.keeps.page q hq not_false hP,
      fun q hq _ hP => hm.same.keeps.data (P := P) q hq not_false hP⟩,
    fun p hp => (hcase p hp).imp And.left .inl⟩
  · rcases hsub u hu with hu | rfl
    · exact h.own.all u hu hpriv
    · obtain ⟨ps, hps, -⟩ := hm.taken hpriv
      simp [hps]
  · rw [hvmas, ownPages_among.nodup_iff, nodup_append, ← heq]
    refine ⟨hnodup, h.own.nodup, ?_⟩
    rintro a ha c hc rfl
    have h1 := h.own.ref a hc
    split at ha
    · rename_i hpriv
      have h2 := (hfresh a hpriv (by simpa using ha)).1
      omega
    · cases ha
  · rcases hcase p hp with hp | hp
    · exact hp.2
    · have href := h.own.ref p hp
      exact (hm.same.1 p (by omega)).1.trans href
  · rcases hcase p hp with hp | hp
    · exact h.rep.live l n p hq hp.1
    · exact h.data p hp l n hq

theorem SpaceOk.mmapFreeVmapArea (ha : Among s.mm l₁ v l₂) (hroot : ∀ l, v.root l = ∅) {a : Nat}
    (h1 : v.vmStart ≤ a) (h2 : a < v.vmEnd) : ∃ r, s.mmapFreeVmapArea a =
        some ⟨{ s.mem with ref := r }, { s.mm with vmas := l₁ ++ l₂ }⟩ ∧
      (∀ q, r q = if v.Private ∧ some q ∈ v.pages then 0 else s.mem.ref q) ∧
      SpaceOk ⟨{ s.mem with ref := r }, { s.mm with vmas := l₁ ++ l₂ }⟩ P L ∧
      SpaceTo s P ⟨{ s.mem with ref := r }, { s.mm with vmas := l₁ ++ l₂ }⟩ P := by
  have hv := ha.mem
  obtain ⟨r, hres, hrep, hr⟩ := h.rep.mmapFreeVmapArea ha hroot (fun hp => by
    obtain ⟨ps, hps, hnodup, hmem⟩ := h.own.pages hv hp
    exact ⟨ps, hps, hnodup, fun p hp => ⟨h.own.ref p (hmem p hp), h.data p (hmem p hp)⟩⟩) h1 h2
  have hn := h.own.nodup
  rw [ha.eq, ownPages_among.nodup_iff, nodup_append] at hn
  have hsub : ∀ p ∈ ownPages (l₁ ++ l₂),
      p ∈ ownPages s.mm.vmas ∧ ¬ (v.Private ∧ some p ∈ v.pages) := by
    intro p hp
    refine ⟨?_, fun hc => ?_⟩
    · rw [ha.eq]
      exact ownPages_among.mem_iff.mpr (mem_append_right _ hp)
    · refine hn.2.2 p ?_ p hp rfl
      rw [if_pos hc.1]
      simpa using hc.2
  refine ⟨r, hres, hr, ⟨hrep, ⟨fun u hu => h.own.all u (ha.mem_iff.mpr (.inl hu)), hn.2.1,
    fun p hp => ?_⟩, fun p hp => h.data p (hsub p hp).1⟩,
    ⟨fun q hq hx hP => ⟨?_, rfl, hP⟩, fun _ _ _ _ => rfl⟩, fun p hp => .inr (.inl (hsub p hp).1)⟩
  · show r p = 1
    rw [hr p, if_neg (hsub p hp).2]
    exact h.own.ref p (hsub p hp).1
  · show r q = _
    rw [hr q, if_neg fun hc => hx (mem_ownPages.mpr ⟨v, hv, hc⟩)]

theorem SpaceOk.mmapFreeVmapArea_cases {a : Nat} (hrun : s.mmapFreeVmapArea a = some s') :
    (findVmaArea a s.mm.vmas = none ∧ s' = s) ∨
    ∃ v l₁ l₂ r, findVmaArea a s.mm.vmas = some v ∧ Among s.mm l₁ v l₂ ∧ (∀ l, v.root l = ∅) ∧
      s' = ⟨{ s.mem with ref := r }, { s.mm with vmas := l₁ ++ l₂ }⟩ ∧
      (∀ q, r q = if v.Private ∧ some q ∈ v.pages then 0 else s.mem.ref q) ∧
      SpaceOk s' P L ∧ SpaceTo s P s' P := by
  cases hfind : findVmaArea a s.mm.vmas with
  | none =>
    rw [Space.mmapFreeVmapArea, Space.mmapFindVmaArea, hfind] at hrun
    cases hrun
    exact .inl ⟨rfl, rfl⟩
  | some v =>
    obtain ⟨hv, h1, h2⟩ := findVmaArea_some hfind
    obtain ⟨l₁, l₂, ha⟩ := h.rep.among hv
    have hroot : ∀ l, v.root l = ∅ := by
      refine (h.rep.rep v hv).mapped.resolve_right fun hm => ?_
      obtain ⟨q, hq⟩ := hm.exists_mem (h.rep.sized v hv).1.lt (by decide : 2 < 3)
      have hne : v.root 2 ≠ ∅ := Finset.nonempty_iff_ne_empty.mp ⟨q, hq⟩
      simp [Space.mmapFreeVmapArea, Space.mmapFindVmaArea, hfind, hne] at hrun
    obtain ⟨r, hres, hr, hnew⟩ := h.mmapFreeVmapArea ha hroot h1 h2
    rw [hres] at hrun
    cases hrun
    exact .inr ⟨v, l₁, l₂, r, rfl, ha, hroot, rfl, hr, hnew⟩

end Own

end MinixRt.Mm
