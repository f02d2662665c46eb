import MinixRt.Mm.Rep

/-!
# Mapping a VMA

`vmap_page_range` walks four levels of tables in one pass over the addresses of the VMA.
`MapsEntry l f` says what the part `f` of that pass behind one entry of level `l` does: it
takes the address space from "everything below `a` is mapped" to "everything below `b` is
mapped", or it fails and has changed leaves in its own range only. A leaf entry meets it,
and so does an entry of level `l + 1` when the entries of level `l` do, so the four levels
are one lemma.
-/

namespace MinixRt.Mm

open Function Lib Work

variable {i : Nat} {next : Nat → Nat → Nat}
  {f : Page × Nat → Nat → Nat → Work → Option (Int × Work)} {v : Vma}

/-- The leaf that the VMA wants for page `n`. -/
def Vma.pte (v : Vma) (n : Nat) : Option Entry :=
  (v.page (n - v.vmStart / pageSize)).map fun p => ⟨p, v.vmPageProt⟩

/-- The leaves with those of `v` for the addresses from `a` to `b`. -/
def fill (v : Vma) (L : Nat → Option Entry) (a b n : Nat) : Option Entry :=
  if a ≤ n * pageSize ∧ n * pageSize < b then v.pte n else L n

theorem fill_self (v : Vma) (L : Nat → Option Entry) (a : Nat) : fill v L a a = L := by
  funext n
  exact if_neg (by omega)

variable {L : Nat → Option Entry} {a b c : Nat}

theorem fill_fill (hab : a ≤ b) (hbc : b ≤ c) : fill v (fill v L a b) b c = fill v L a c := by
  funext n
  simp only [fill]
  split_ifs <;> first | rfl | omega

/-- The VMA has a page for every address from `a` to `b`. -/
def Vma.HasPages (v : Vma) (a b : Nat) : Prop :=
  ∀ n, a ≤ n * pageSize → n * pageSize < b → v.pte n ≠ none

theorem Vma.HasPages.append (h : v.HasPages a b) (h' : v.HasPages b c) : v.HasPages a c := by
  intro n h1 h2
  by_cases hb : n * pageSize < b
  · exact h n h1 hb
  · exact h' n (by omega) h2

theorem fill_of_not {a b n : Nat} (h : ¬ (a ≤ n * pageSize ∧ n * pageSize < b)) :
    fill v L a b n = L n :=
  if_neg h

/-- The range of the VMA is made of pages. Its array may be too short for them, and is not
longer than a `kmalloc` allows. -/
structure Vma.Sized (v : Vma) : Prop where
  lt : v.vmStart < v.vmEnd
  start : pageSize ∣ v.vmStart
  stop : pageSize ∣ v.vmEnd
  short : v.nrPages < 2 ^ 31

theorem Vma.Sized.add_pageSize_le (h : v.Sized) : v.vmStart + pageSize ≤ v.vmEnd := by
  obtain ⟨c, hstart⟩ := h.start
  obtain ⟨d, hstop⟩ := h.stop
  have hlt := h.lt
  rw [hstart, hstop] at hlt ⊢
  have := Nat.mul_le_mul_left pageSize (Nat.succ_le_of_lt (Nat.lt_of_mul_lt_mul_left hlt))
  rwa [Nat.mul_succ] at this

/-- The VMA has an entry of `pages` for each of its pages. -/
def Vma.Counted (v : Vma) : Prop := v.nrPages = (v.vmEnd - v.vmStart) / pageSize

/-- The part of the VMA from `a` to `b`, behind entry `m` of level `l`. -/
structure Span (A : Vma) (l m a b : Nat) : Prop where
  num : a / entrySize l = m
  lt : a < b
  fit : b ≤ (m + 1) * entrySize l
  alignL : pageSize ∣ a
  alignR : pageSize ∣ b
  start : A.vmStart ≤ a
  stop : b ≤ A.vmEnd

/-- The part from `a` to `b` is all that the VMA has behind entry `m` of level `l`. -/
def Full (A : Vma) (l m a b : Nat) : Prop :=
  ∀ x, A.vmStart ≤ x → x < A.vmEnd → x / entrySize l = m → a ≤ x ∧ x < b

theorem Span.meets {A : Vma} {l m a b : Nat} (h : Span A (l + 1) m a b) : A.Meets l m := by
  have := Vma.meets_of_mem (l := l) h.start (h.lt.trans_le h.stop)
  rwa [h.num] at this

/-- Tables and references are added only. -/
structure Grows (s : Work) (P : Nat → Nat → Option Page) (s' : Work)
    (P' : Nat → Nat → Option Page) : Prop where
  table : ∀ l k q, P l k = some q → P' l k = some q
  root : ∀ l q, q ∈ s.root l → q ∈ s'.root l

theorem Grows.refl (s : Work) (P : Nat → Nat → Option Page) : Grows s P s P :=
  ⟨fun _ _ _ h => h, fun _ _ h => h⟩

theorem Grows.trans {s s' s'' : Work} {P P' P'' : Nat → Nat → Option Page} (h : Grows s P s' P')
    (h' : Grows s' P' s'' P'') : Grows s P s'' P'' :=
  ⟨fun l k q hq => h'.table l k q (h.table l k q hq), fun l q hq => h'.root l q (h.root l q hq)⟩

/-- The VMA keeps the tables below level `l` that cover one of its addresses before `a`. -/
def Held (A : Vma) (l a : Nat) (s : Work) (P : Nat → Nat → Option Page) : Prop :=
  ∀ l' < l, ∀ k, A.Meets l' k → A.first l' k < a → ∃ q, P l' k = some q ∧ q ∈ s.root l'

section Map

variable {pgd : Page} {V : List Vma} {A : Vma} {K : Before} {s s' : Work}
  {P P' : Nat → Nat → Option Page} {L : Nat → Option Entry} {l m t a b : Nat}

theorem Held.grows (h : Held A l a s P) (hg : Grows s P s' P') : Held A l a s' P' := by
  intro l' hl' k hm hk
  obtain ⟨q, hq, hmem⟩ := h l' hl' k hm hk
  exact ⟨q, hg.table _ _ _ hq, hg.root _ _ hmem⟩

theorem Rep.slot (h : Rep pgd V A K s P L) (ht : P (l + 1) (m / ptrs) = some t) :
    s.tbl t (m % ptrs) = (P l m).map tableDesc := by
  rw [h.stored.inner l _ t ht _ (Nat.mod_lt m ptrs_pos),
    (Radix.Stored.cell_number ptrs_pos (Nat.mod_lt m ptrs_pos)).mpr ⟨rfl, rfl⟩]

theorem Rep.leaf (h : Rep pgd V A K s P L) (ht : P 0 (m / ptrs) = some t) :
    s.tbl t (m % ptrs) = L m := by
  rw [h.stored.leaf _ t ht _ (Nat.mod_lt m ptrs_pos),
    (Radix.Stored.cell_number ptrs_pos (Nat.mod_lt m ptrs_pos)).mpr ⟨rfl, rfl⟩]

/-! ## Allocation of a table -/

theorem kmalloc_snd (s : Work) : ∃ r, s.kmalloc.2 = { s with kmallocs := r } := by
  unfold Work.kmalloc
  split
  · exact ⟨s.kmallocs, rfl⟩
  · exact ⟨_, rfl⟩

theorem getFreePage_cases (s : Work) : ∃ r, s.getFreePage = (none, { s with freePages := r }) ∨
    ∃ p, s.ref p = 0 ∧ s.getFreePage = (some p, { s with
      freePages := r
      ref := update s.ref p 1
      tbl := update s.tbl p fun _ => none }) := by
  unfold Work.getFreePage
  split
  · exact ⟨s.freePages, .inl rfl⟩
  · exact ⟨_, .inl rfl⟩
  · split
    · exact ⟨_, .inr ⟨_, by assumption, rfl⟩⟩
    · exact ⟨_, .inl rfl⟩

/-- What an allocation of table `m` of level `l` gives. -/
def Allocated (pgd : Page) (V : List Vma) (A : Vma) (K : Before) (s : Work)
    (P : Nat → Nat → Option Page) (L : Nat → Option Entry) (l m : Nat) (ok : Bool)
    (s' : Work) : Prop :=
  s'.nr = s.nr ∧ ∃ P', Rep pgd V A K s' P' L ∧ Grows s P s' P' ∧
    (ok = true → ∃ q, P' l m = some q ∧ q ∈ s'.root l)

section

variable (h : Rep pgd V A K s P L) (hl : l < 3) (ht : P (l + 1) (m / ptrs) = some t)
  (hm : A.Meets l m)
include h hl ht hm

theorem linkTable_some {q : Page} (hq : P l m = some q) :
    ∃ ok s', linkTable l (t, m % ptrs) s = some (ok, s') ∧ Allocated pgd V A K s P L l m ok s' := by
  have hlive := h.live l m q hq
  have hslot := h.slot ht
  rw [hq] at hslot
  by_cases hmem : q ∈ s.root l
  · -- the VMA keeps the table already: the reference is given back
    refine ⟨false, (s.setRef q (s.ref q + 1)).setRef q (s.ref q), ?_, rfl, P, ?_, ?_, nofun⟩
    · simp [linkTable, hslot, tableDesc, getPage, hlive, setRef, hmem, putPagetableTestzero]
    · refine h.congr ?_ rfl rfl rfl rfl
      simp [setRef]
    · exact ⟨fun _ _ _ h => h, fun _ _ h => h⟩
  · refine ⟨true, (s.setRef q (s.ref q + 1)).setRoot l (insert q (s.root l)), ?_, rfl, P,
      h.share hl hq hmem hm, ⟨fun _ _ _ h => h, fun l' x hx => ?_⟩, fun _ =>
      ⟨q, hq, Rep.mem_root_insert.mpr (.inl ⟨rfl, rfl⟩)⟩⟩
    · simp [linkTable, hslot, tableDesc, getPage, hlive, setRef, hmem]
    · exact Rep.mem_root_insert.mpr (.inr hx)

theorem linkTable_none (hnone : P l m = none) :
    ∃ ok s', linkTable l (t, m % ptrs) s = some (ok, s') ∧ Allocated pgd V A K s P L l m ok s' := by
  have hslot := h.slot ht
  rw [hnone] at hslot
  obtain ⟨r, hr | ⟨p, hfree, hr⟩⟩ := getFreePage_cases s
  · refine ⟨false, { s with freePages := r }, ?_, rfl, P, h.congr rfl rfl rfl rfl rfl,
      ⟨fun _ _ _ h => h, fun _ _ h => h⟩, nofun⟩
    simp [linkTable, hslot, hr]
  · -- a page that is free is in no tree
    have hp : ∀ l' k', P l' k' ≠ some p := fun l' k' hlk => h.live l' k' p hlk hfree
    have hnot := h.notMem_of_none hp l
    have hlink : linkTable l (t, m % ptrs) s = some (true, { s with
        freePages := r
        ref := update s.ref p 1
        tbl := Radix.setCell (update s.tbl p fun _ => none) t (m % ptrs) (tableDesc p)
        root := update s.root l (insert p (s.root l))
        pgtablesBytes := s.pgtablesBytes + 4096 }) := by
      simp [linkTable, hslot, hr, hnot, setTbl, setRoot]
    refine ⟨true, _, hlink, rfl, Radix.setTable P l m (some p),
      h.add hl hnone ht hfree hm rfl rfl rfl rfl rfl,
      ⟨fun l' k' q hq => ?_, fun l' x hx => ?_⟩, fun _ => ⟨p, Radix.setTable_self .., ?_⟩⟩
    · exact Radix.setTable_of_some hq (by simp [hnone])
    · exact Rep.mem_root_insert.mpr (.inr hx)
    · exact Rep.mem_root_insert.mpr (.inl ⟨rfl, rfl⟩)

theorem tableAlloc_spec : ∃ ok s', tableAlloc l (t, m % ptrs) s = some (ok, s') ∧
    Allocated pgd V A K s P L l m ok s' := by
  obtain ⟨r, hr⟩ := kmalloc_snd s
  have hr' : Rep pgd V A K { s with kmallocs := r } P L := h.congr rfl rfl rfl rfl rfl
  unfold tableAlloc
  split
  · rename_i s1 hk
    rw [hk] at hr
    obtain rfl : s1 = { s with kmallocs := r } := hr
    exact ⟨false, { s with kmallocs := r }, rfl, rfl, P, hr',
      ⟨fun _ _ _ h => h, fun _ _ h => h⟩, nofun⟩
  · rename_i s1 hk
    rw [hk] at hr
    obtain rfl : s1 = { s with kmallocs := r } := hr
    obtain ⟨ok, s', hs', hnr, P', hrep, hg, hok⟩ : ∃ ok s',
        linkTable l (t, m % ptrs) { s with kmallocs := r } = some (ok, s') ∧
          Allocated pgd V A K { s with kmallocs := r } P L l m ok s' := by
      cases hP : P l m with
      | some => exact linkTable_some hr' hl ht hm hP
      | none => exact linkTable_none hr' hl ht hm hP
    exact ⟨ok, s', hs', hnr, P', hrep, ⟨hg.table, hg.root⟩, hok⟩

end

/-! ## The pass over the addresses -/

/-- `f` maps the addresses from `a` to `b` of the VMA behind one entry of level `l`. -/
def MapsEntry (pgd : Page) (V : List Vma) (A : Vma) (K : Before) (l : Nat)
    (f : Page × Nat → Nat → Nat → Work → Option (Int × Work)) : Prop :=
  ∀ m t a b s P L, Rep pgd V A K s P L → P l (m / ptrs) = some t → (l < 3 → t ∈ s.root l) →
    Span A l m a b → Held A l a s P → s.nr = (a - A.vmStart) / pageSize →
    ∃ ret s', f (t, m % ptrs) a b s = some (ret, s') ∧ ret ≤ 0 ∧
      ∃ P' L', Rep pgd V A K s' P' L' ∧ Grows s P s' P' ∧
        (ret = 0 → Held A l b s' P' ∧ s'.nr = (b - A.vmStart) / pageSize ∧ A.HasPages a b ∧
          L' = fill A L a b) ∧
        (ret ≠ 0 → ∀ n, ¬ (a ≤ n * pageSize ∧ n * pageSize < b) → L' n = L n)

theorem MapsEntry.orEnomem (h : MapsEntry pgd V A K l f) :
    MapsEntry pgd V A K l fun slot a b s => orEnomem (f slot a b s) := by
  intro m t a b s P L hrep ht hmem hspan hheld hnr
  obtain ⟨ret, s', hs', -, P', L', hrep', hg, hzero, herr⟩ :=
    h m t a b s P L hrep ht hmem hspan hheld hnr
  refine ⟨if ret = 0 then 0 else -enomem, s', by simp [Mm.orEnomem, hs'], ?_, P', L', hrep', hg,
    ?_, ?_⟩
  · split <;> decide
  · intro hret
    refine hzero ?_
    by_contra hne
    rw [if_neg hne] at hret
    cases hret
  · intro hret
    refine herr fun hz => hret ?_
    rw [if_pos hz]

theorem Span.page (h : Span A 0 m a b) : a = m * pageSize ∧ b = (m + 1) * pageSize := by
  have hsize : entrySize 0 = pageSize := by simp [entrySize]
  have hlt := h.lt
  have hfit := h.fit
  rw [hsize] at hfit
  have ha : a = m * pageSize := by rw [← h.num, hsize, Nat.div_mul_cancel h.alignL]
  refine ⟨ha, le_antisymm hfit ?_⟩
  obtain ⟨c, rfl⟩ := h.alignR
  rw [ha, mul_comm pageSize c] at hlt
  rw [mul_comm pageSize c]
  exact Nat.mul_le_mul_right _ (Nat.lt_of_mul_lt_mul_right hlt)

theorem Span.covers (h : Span A 0 m a b) : A.Covers m := by
  have hlt := h.lt
  have hstart := h.start
  have hstop := h.stop
  rw [h.page.1] at hlt hstart
  exact ⟨hstart, hlt.trans_le hstop⟩

/-- A change of the leaves behind one entry of level 0. -/
theorem ite_page (X L : Nat → Option Entry) (m : Nat) :
    (fun n => if m * pageSize ≤ n * pageSize ∧ n * pageSize < (m + 1) * pageSize then X n else L n) =
      update L m (X m) := by
  funext n
  by_cases hn : n = m
  · subst hn
    rw [update_self, if_pos ⟨le_rfl, Nat.mul_lt_mul_of_pos_right (Nat.lt_succ_self n) (by decide)⟩]
  · rw [update_of_ne hn, if_neg]
    rintro ⟨h1, h2⟩
    have := Nat.le_of_mul_le_mul_right h1 (by decide)
    have := Nat.lt_of_mul_lt_mul_right h2
    omega

theorem mapsEntry_pte (hA : A.Sized) : MapsEntry pgd V A K 0 fun slot => vmapPte A slot.1 slot.2 := by
  intro m t a b s P L hrep ht hmem hspan _ hnr
  -- the entry covers one page
  obtain ⟨rfl, rfl⟩ := hspan.page
  have hpos : 0 < pageSize := by decide
  obtain ⟨c, hc⟩ := hA.start
  have hcm : c ≤ m := by
    have hstart := hspan.start
    rw [hc, mul_comm] at hstart
    exact Nat.le_of_mul_le_mul_right hstart hpos
  have hidx : s.nr = m - A.vmStart / pageSize := by
    rw [hnr, hc, Nat.mul_div_cancel_left _ hpos, mul_comm pageSize c, ← Nat.sub_mul,
      Nat.mul_div_cancel _ hpos]
  have hcell := hrep.leaf ht
  by_cases hL : L m = none
  · cases hp : A.page s.nr with
    | none =>
      refine ⟨-enomem, s, ?_, by decide, P, L, hrep, .refl s P, fun hz => absurd hz (by decide),
        fun _ _ _ => rfl⟩
      simp [vmapPte, hp, hcell, hL]
    | some p =>
      have hpte : A.pte m = some ⟨p, A.vmPageProt⟩ := by
        rw [Vma.pte, ← hidx, hp]
        rfl
      have hset : vmapPte A t (m % ptrs) (m * pageSize) ((m + 1) * pageSize) s = some (0,
          { (s.setTbl t (m % ptrs) (some ⟨p, A.vmPageProt⟩)).logMmu
              (.setPte (m * pageSize / pageSize) ⟨p, A.vmPageProt⟩) with nr := s.nr + 1 }) := by
        simp [vmapPte, hp, hcell, hL, setTbl, logMmu]
      refine ⟨0, _, hset, le_rfl, P, update L m (some ⟨p, A.vmPageProt⟩),
        (hrep.setLeaf ht (.setPte m ⟨p, A.vmPageProt⟩) rfl
          (fun e he => absurd (hL.symm.trans he) nofun)
          fun _ => .inl ⟨hmem (by decide), hspan.covers⟩).congr rfl rfl rfl rfl (by simp [logMmu, hpos]),
        ⟨fun _ _ _ h => h, fun _ _ h => h⟩, fun _ => ⟨nofun, ?_, ?_, ?_⟩, fun h => absurd rfl h⟩
      · show s.nr + 1 = _
        rw [hnr, hc, mul_comm pageSize c, ← Nat.sub_mul, ← Nat.sub_mul,
          Nat.mul_div_cancel _ hpos, Nat.mul_div_cancel _ hpos]
        omega
      · intro n h1 h2
        have := Nat.le_of_mul_le_mul_right h1 hpos
        have := Nat.lt_of_mul_lt_mul_right h2
        obtain rfl : n = m := by omega
        rw [hpte]
        nofun
      · exact (hpte ▸ ite_page A.pte L m).symm
  · refine ⟨-ebusy, s, ?_, by decide, P, L, hrep, .refl s P, fun hz => absurd hz (by decide),
      fun _ _ _ => rfl⟩
    simp [vmapPte, hcell, hL]

theorem cell_div (hi : i < ptrs) : (m * ptrs + i) / ptrs = m :=
  ((Radix.Stored.cell_number ptrs_pos hi).mp rfl).1.symm

theorem cell_mod (hi : i < ptrs) : (m * ptrs + i) % ptrs = i :=
  ((Radix.Stored.cell_number ptrs_pos hi).mp rfl).2.symm

theorem Full.entry {x y : Nat} (h : Full A (l + 1) m a b) (hx : x = a ∨ entrySize l ∣ x)
    (hi : i < ptrs) (hxi : x / entrySize l = m * ptrs + i)
    (hy : y = min ((x / entrySize l + 1) * entrySize l) b) : Full A l (m * ptrs + i) x y := by
  intro z hz1 hz2 hzi
  have hS := entrySize_pos l
  obtain ⟨hza, hzb⟩ := h z hz1 hz2 (by rw [div_entrySize_succ, hzi, cell_div hi])
  constructor
  · rcases hx with rfl | hdvd
    · exact hza
    · rw [← Nat.div_mul_cancel hdvd, hxi, ← hzi]
      exact Nat.div_mul_le_self z _
  · rw [hy, hxi, ← hzi]
    exact lt_min (Radix.lt_boundary hS) hzb

theorem walkTable_spec {body : Nat → Nat → Nat → Work → Option (Int × Work)} {I : Nat → Work → Prop}
    {E : Int → Work → Prop} (hspan : Span A (l + 1) m a b)
    (hnext : ∀ x, x < b → pageSize ∣ x → next x b = addrEnd l x b)
    (hbody : ∀ i x y s, I x s → a ≤ x → y ≤ b → Span A l (m * ptrs + i) x y → i < ptrs →
      (Full A (l + 1) m a b → Full A l (m * ptrs + i) x y) →
      ∃ ret s', body i x y s = some (ret, s') ∧ (ret = 0 → I y s') ∧ (ret ≠ 0 → E ret s'))
    (hI : I a s) : ∃ ret s', walkTable l next body a b s = some (ret, s') ∧
      (ret = 0 → I b s') ∧ (ret ≠ 0 → E ret s') := by
  have hnum : a / entrySize l = m * ptrs + index l a := by
    rw [index, ← hspan.num, div_entrySize_succ, mul_comm, Nat.div_add_mod]
  obtain ⟨ret, s', hs', hzero, herr⟩ := Radix.walk_spec
    (I := fun x s => I x s ∧ a ≤ x ∧ (x = a ∨ entrySize l ∣ x ∨ x = b)) (E := E)
    (F := ptrs) (m * ptrs) (entrySize_pos l) (pageSize_dvd_entrySize l) hnext
    (by rw [← Nat.succ_mul, mul_assoc, mul_comm ptrs, ← entrySize_succ]; exact hspan.fit)
    hspan.alignR
    (fun i x y s hx hxy hy hux huy hxi hi => by
      obtain ⟨hIx, hax, hcut⟩ := hx
      have hyb : y ≤ b := hy ▸ min_le_right _ _
      have hcut' : x = a ∨ entrySize l ∣ x := by
        rcases hcut with h | h | h
        · exact .inl h
        · exact .inr h
        · omega
      obtain ⟨ret, s', hs', hzero, herr⟩ := hbody i x y s hIx hax hyb
        ⟨hxi, hxy, by rw [← hxi, hy]; exact min_le_left _ _, hux, huy, hspan.start.trans hax,
          hyb.trans hspan.stop⟩ hi (fun hfull => hfull.entry hcut' hi hxi hy)
      refine ⟨ret, s', hs', fun h => ⟨hzero h, hax.trans hxy.le, .inr ?_⟩, herr⟩
      rcases min_choice ((x / entrySize l + 1) * entrySize l) b with hm | hm <;> rw [hm] at hy
      · exact .inl (hy ▸ Dvd.intro_left _ rfl)
      · exact .inr hy)
    (ptrs - index l a) (index l a) a s ⟨hI, le_rfl, .inl rfl⟩ hspan.lt hspan.alignL hnum
    (by have := Nat.mod_lt (a / entrySize l) ptrs_pos; unfold index; omega)
  exact ⟨ret, s', hs', fun h => (hzero h).1, herr⟩

theorem nextPage_eq {x : Nat} (hx : x < b) (hux : pageSize ∣ x) (hub : pageSize ∣ b) :
    nextPage x b = addrEnd 0 x b := by
  have hsize : entrySize 0 = pageSize := by simp [entrySize]
  have hpos : 0 < pageSize := by decide
  obtain ⟨c, rfl⟩ := hux
  obtain ⟨d, rfl⟩ := hub
  rw [addrEnd, hsize, Radix.blockEnd_eq hpos, Nat.mul_div_cancel_left _ hpos, nextPage]
  have : pageSize * (c + 1) ≤ pageSize * d :=
    Nat.mul_le_mul_left _ (Nat.lt_of_mul_lt_mul_left hx)
  rw [Nat.mul_comm (c + 1), min_eq_left this, Nat.mul_succ]

/-- A table of level `l` that covers an address from `a` on, and before `b`, is table `m`. -/
theorem Span.eq_of_first (h : Span A (l + 1) m a b) {k : Nat} (hk : A.Meets l k)
    (ha : a ≤ A.first l k) (hb : A.first l k < b) : k = m := by
  rw [← hk.first_div, ← h.num]
  refine Radix.div_eq_of_mem_block (entrySize_pos (l + 1)) ha ?_
  rw [h.num]
  exact hb.trans_le h.fit

theorem MapsEntry.walk (hf : MapsEntry pgd V A K l f) (hspan : Span A (l + 1) m a b)
    (hnext : ∀ x, x < b → pageSize ∣ x → next x b = addrEnd l x b) (hrep : Rep pgd V A K s P L)
    (ht : P l m = some t) (hmem : l < 3 → t ∈ s.root l) (hheld : Held A l a s P)
    (hnr : s.nr = (a - A.vmStart) / pageSize) :
    ∃ ret s', walkTable l next (fun i => f (t, i)) a b s = some (ret, s') ∧ ret ≤ 0 ∧
      ∃ P' L', Rep pgd V A K s' P' L' ∧ Grows s P s' P' ∧
        (ret = 0 → Held A l b s' P' ∧ s'.nr = (b - A.vmStart) / pageSize ∧ A.HasPages a b ∧
          L' = fill A L a b) ∧
        (ret ≠ 0 → ∀ n, ¬ (a ≤ n * pageSize ∧ n * pageSize < b) → L' n = L n) := by
  obtain ⟨ret, s', hs', hzero, herr⟩ := walkTable_spec
    (I := fun x s' => ∃ P', Rep pgd V A K s' P' (fill A L a x) ∧ Grows s P s' P' ∧
      Held A l x s' P' ∧ s'.nr = (x - A.vmStart) / pageSize ∧ A.HasPages a x)
    (E := fun ret s' => ret ≤ 0 ∧ ∃ P' L', Rep pgd V A K s' P' L' ∧ Grows s P s' P' ∧
      ∀ n, ¬ (a ≤ n * pageSize ∧ n * pageSize < b) → L' n = L n)
    hspan hnext
    (fun i x y s1 hI hax hyb hs hi _ => by
      obtain ⟨P1, hrep1, hg1, hheld1, hnr1, hhas1⟩ := hI
      obtain ⟨ret, s2, hs2, hle, P2, L2, hrep2, hg2, hzero, herr⟩ :=
        hf (m * ptrs + i) t x y s1 P1 _ hrep1 (by rw [cell_div hi]; exact hg1.table _ _ _ ht)
          (fun hl => hg1.root _ _ (hmem hl)) hs hheld1 hnr1
      rw [cell_mod hi] at hs2
      refine ⟨ret, s2, hs2, fun hret => ?_, fun hret => ?_⟩
      · obtain ⟨hheld2, hnr2, hhas2, rfl⟩ := hzero hret
        rw [fill_fill hax hs.lt.le] at hrep2
        exact ⟨P2, hrep2, hg1.trans hg2, hheld2, hnr2, hhas1.append hhas2⟩
      · have hlt := hs.lt
        refine ⟨hle, P2, L2, hrep2, hg1.trans hg2, fun n hn => ?_⟩
        rw [herr hret n (by omega), fill_of_not (by omega)])
    ⟨P, by rw [fill_self]; exact hrep, .refl s P, hheld, hnr, fun n h1 h2 => by omega⟩
  refine ⟨ret, s', hs', ?_⟩
  by_cases hret : ret = 0
  · obtain ⟨P', hrep', hg, hheld', hnr', hhas⟩ := hzero hret
    exact ⟨hret.le, P', _, hrep', hg, fun _ => ⟨hheld', hnr', hhas, rfl⟩, fun h => absurd hret h⟩
  · obtain ⟨hle, P', L', hrep', hg, hL⟩ := herr hret
    exact ⟨hle, P', L', hrep', hg, fun h => absurd h hret, fun _ => hL⟩

theorem MapsEntry.vmapRange (hf : MapsEntry pgd V A K l f) (hl : l < 3)
    (hnext : ∀ x b, x < b → pageSize ∣ x → pageSize ∣ b → next x b = addrEnd l x b) :
    MapsEntry pgd V A K (l + 1) (vmapRange l next fun t i => f (t, i)) := by
  intro m t a b s P L hrep ht _ hspan hheld hnr
  obtain ⟨ok, s1, hs1, hnr1, P1, hrep1, hg1, hq1⟩ := tableAlloc_spec hrep hl ht hspan.meets
  cases ok with
  | false =>
    exact ⟨-enomem, s1, by simp [Mm.vmapRange, hs1], by decide, P1, L, hrep1, hg1,
      fun h => absurd h (by decide), fun _ _ _ => rfl⟩
  | true =>
    obtain ⟨q, hq, hmem⟩ := hq1 rfl
    have hslot : s1.tbl t (m % ptrs) = some (tableDesc q) := by
      rw [hrep1.slot (hg1.table _ _ _ ht), hq]
      rfl
    have hheld1 : Held A (l + 1) a s1 P1 := hheld.grows hg1
    obtain ⟨ret, s', hs', hle, P', L', hrep', hg, hzero, herr⟩ := hf.walk hspan
      (fun x hx hux => hnext x b hx hux hspan.alignR) hrep1 hq (fun _ => hmem)
      (fun l' hl' => hheld1 l' (by omega)) (hnr1.trans hnr)
    refine ⟨ret, s', by simp [Mm.vmapRange, hs1, tableRange, hslot, tableDesc, hs'], hle, P', L',
      hrep', hg1.trans hg, fun hret => ?_, herr⟩
    obtain ⟨hheld', hnr', hL'⟩ := hzero hret
    refine ⟨fun l' hl' k hm hk => ?_, hnr', hL'⟩
    -- the table of this entry, or one below it, or one that was there before
    rcases Nat.lt_succ_iff_lt_or_eq.mp hl' with hlt | rfl
    · exact hheld' l' hlt k hm hk
    · by_cases hka : A.first l' k < a
      · exact (hheld1.grows hg) l' (by omega) k hm hka
      · obtain rfl := hspan.eq_of_first hm (by omega) hk
        exact ⟨q, hg.table _ _ _ hq, hg.root _ _ hmem⟩

theorem mapsEntry_pud (hA : A.Sized) : MapsEntry pgd V A K 3 (vmapPudRange A) := by
  have hpte : MapsEntry pgd V A K 1 (vmapPteRange A) :=
    (mapsEntry_pte hA).vmapRange (by decide) fun _ _ => nextPage_eq
  have hpmd : MapsEntry pgd V A K 2 (vmapPmdRange A) :=
    hpte.orEnomem.vmapRange (by decide) fun _ _ _ _ _ => rfl
  exact hpmd.orEnomem.vmapRange (by decide) fun _ _ _ _ _ => rfl

end Map

end MinixRt.Mm
