import MinixRt.Memblock.Table

/-!
# Adding a range to a region table

`memblock_add_range` runs its loop twice, first to count the regions it needs and then to
insert them. On the list of regions both rounds compute `fill`, and `memblock_merge_regions`
computes `coalesceFrom`.
-/

namespace MinixRt.Memblock

open List MinixRt.Lib

variable {t : MemblockType} {flags : Flags} {base stop : Nat}

theorem getElem?_length (done rest : List Region) : (done ++ rest)[done.length]? = rest.head? := by
  cases rest <;> simp

variable {r : Region}

/-- The loop stands at the region `r`, and goes on behind it. -/
theorem at_region {done l : List Region} (ht : t.regions = done ++ r :: l) :
    t.regions[done.length]? = some r ∧ t.regions = (done ++ [r]) ++ l ∧
      (done ++ [r]).length = done.length + 1 := by
  rw [ht, getElem?_length, head?_cons]
  simp

theorem set_eraseIdx_length (done : List Region) (r s r' : Region) (l : List Region) :
    ((done ++ r :: s :: l).set done.length r').eraseIdx (done.length + 1) = done ++ r' :: l := by
  simp [eraseIdx_append_of_length_le]

/-! ## The two rounds -/

variable {l : List Region}

theorem addLoop_count (hl : ∀ r ∈ l, r.stop ≤ physAddrMax) (done : List Region)
    (ht : t.regions = done ++ l) (base nrNew : Nat) : ∃ idx base' nr,
    addLoop false flags stop l.length t done.length base nrNew = some (t, idx, base', nr) ∧
      nr + (rest flags base' stop).length + l.length = nrNew + (fill flags stop base l).length := by
  induction l generalizing done base nrNew with
  | nil => exact ⟨_, _, _, rfl, rfl⟩
  | cons r l ih =>
    obtain ⟨hget, ht', hlen⟩ := at_region ht
    have hr := rend_eq (hl r (.head _))
    have hl := fun s hs => hl s (.tail _ hs)
    rw [length_cons, addLoop, hget, fill]
    simp only [hr, Bool.false_eq_true, if_false]
    split_ifs with h1 h2 h3
    · refine ⟨_, _, _, rfl, ?_⟩
      simp only [length_append, length_cons]
      omega
    all_goals
      rw [← hlen]
      obtain ⟨idx, base', nr, hloop, hnr⟩ := ih hl _ ht' _ _
      refine ⟨idx, base', nr, hloop, ?_⟩
      simp only [length_cons]
      omega

theorem addRound_count (hl : ∀ r ∈ t.regions, r.stop ≤ physAddrMax) : ∃ n,
    addRound false flags base stop t = some (t, n) ∧
      n + t.cnt = (fill flags stop base t.regions).length := by
  obtain ⟨idx, base', nr, hloop, hnr⟩ := addLoop_count (t := t) hl [] rfl base 0
  rw [Nat.zero_add] at hnr
  have hround : addRound false flags base stop t =
      if base' < stop then some (t, nr + 1) else some (t, nr) := by
    rw [addRound, MemblockType.cnt]
    simp only [length_nil] at hloop
    rw [hloop]
    rfl
  rw [hround, MemblockType.cnt]
  unfold rest at hnr
  split_ifs at hnr ⊢ with hlt
  · exact ⟨_, rfl, hnr⟩
  · exact ⟨_, rfl, hnr⟩

theorem addLoop_insert (hl : ∀ r ∈ l, r.stop ≤ physAddrMax) (done : List Region)
    (ht : t.regions = done ++ l) (htally : t.Tally) (base nrNew : Nat)
    (hroom : done.length + (fill flags stop base l).length ≤ t.max) : ∃ t' done' l' base' nr,
      addLoop true flags stop l.length t done.length base nrNew =
        some (t', done'.length, base', nr) ∧ t'.regions = done' ++ l' ∧ t'.Tally ∧ t'.max = t.max ∧
      done' ++ rest flags base' stop ++ l' = done ++ fill flags stop base l ∧
      nr + (rest flags base' stop).length + l.length = nrNew + (fill flags stop base l).length := by
  induction l generalizing t done base nrNew with
  | nil => exact ⟨t, done, [], base, nrNew, rfl, ht, htally, rfl, by simp [fill], rfl⟩
  | cons r l ih =>
    obtain ⟨hget, ht', hlen⟩ := at_region ht
    have hr := rend_eq (hl r (.head _))
    have hl := fun s hs => hl s (.tail _ hs)
    rw [fill] at hroom
    rw [length_cons, addLoop, hget, fill]
    simp only [hr, if_true]
    split_ifs at hroom ⊢ with h1 h2 h3
    · refine ⟨t, done, r :: l, base, nrNew, rfl, ht, htally, rfl, by simp, ?_⟩
      simp only [length_append, length_cons]
      omega
    · -- the region lies below the range
      rw [length_cons] at hroom
      obtain ⟨t', done', l', base', nr, hloop, hrest⟩ := ih hl _ ht' htally base nrNew (by
        rw [hlen]
        omega)
      refine ⟨t', done', l', base', nr, hlen ▸ hloop, ?_⟩
      simp only [append_assoc, cons_append, nil_append, length_cons] at hrest ⊢
      refine ⟨hrest.1, hrest.2.1, hrest.2.2.1, hrest.2.2.2.1, by omega⟩
    · -- a part of the range lies below the region
      simp only [length_cons] at hroom
      have hle := length_le_fill flags stop (min r.stop stop) l
      obtain ⟨t1, hins, hregions, htally1, hmax⟩ := insertRegion_spec
        ⟨base, r.base - base, flags⟩ ht htally (by
          rw [length_cons]
          omega)
      rw [hins]
      have ht1 : t1.regions = (done ++ [⟨base, r.base - base, flags⟩, r]) ++ l := by
        simpa using hregions
      have hlen1 : done.length + 2 =
          (done ++ [(⟨base, r.base - base, flags⟩ : Region), r]).length := by simp
      obtain ⟨t', done', l', base', nr, hloop, hrest⟩ := ih hl _ ht1 htally1
        (min r.stop stop) (nrNew + 1) (by
          rw [← hlen1, hmax]
          omega)
      refine ⟨t', done', l', base', nr, hlen1 ▸ hloop, ?_⟩
      simp only [append_assoc, cons_append, nil_append, length_cons] at hrest ⊢
      refine ⟨hrest.1, hrest.2.1, hrest.2.2.1.trans hmax, hrest.2.2.2.1, by omega⟩
    · rw [length_cons] at hroom
      obtain ⟨t', done', l', base', nr, hloop, hrest⟩ := ih hl _ ht' htally
        (min r.stop stop) nrNew (by
          rw [hlen]
          omega)
      refine ⟨t', done', l', base', nr, hlen ▸ hloop, ?_⟩
      simp only [append_assoc, cons_append, nil_append, length_cons] at hrest ⊢
      refine ⟨hrest.1, hrest.2.1, hrest.2.2.1, hrest.2.2.2.1, by omega⟩

theorem addRound_insert (hl : ∀ r ∈ t.regions, r.stop ≤ physAddrMax) (htally : t.Tally)
    (hroom : (fill flags stop base t.regions).length ≤ t.max) : ∃ t' n,
    addRound true flags base stop t = some (t', n) ∧
      n + t.cnt = (fill flags stop base t.regions).length ∧
      t'.regions = fill flags stop base t.regions ∧ t'.Tally ∧ t'.max = t.max := by
  obtain ⟨t', done, l, base', nr, hloop, hregions, htally', hmax, hfill, hnr⟩ :=
    addLoop_insert (t := t) hl [] rfl htally base 0 (by simpa using hroom)
  rw [nil_append] at hfill
  rw [Nat.zero_add] at hnr
  have hround : addRound true flags base stop t = if base' < stop then
      (insertRegion t' done.length ⟨base', stop - base', flags⟩).map (·, nr + 1)
      else some (t', nr) := by
    rw [addRound, MemblockType.cnt]
    simp only [length_nil] at hloop
    rw [hloop]
    rfl
  rw [hround, MemblockType.cnt]
  unfold rest at hnr hfill
  split_ifs at hnr hfill ⊢ with hlt
  · obtain ⟨t'', hins, hregions', htally'', hmax'⟩ := insertRegion_spec
      ⟨base', stop - base', flags⟩ hregions htally' (by
        have hlen := congrArg length hfill
        simp only [length_append, length_singleton] at hlen
        omega)
    refine ⟨t'', nr + 1, by rw [hins]; rfl, hnr, ?_, htally'', hmax'.trans hmax⟩
    rw [hregions', ← hfill, append_assoc, singleton_append]
  · refine ⟨t', nr, rfl, hnr, ?_, htally', hmax⟩
    rw [hregions, ← hfill, append_nil]

/-! ## Merging -/

theorem mergeLoop_spec (done : List Region) (ht : t.regions = done ++ r :: l) (htally : t.Tally)
    (hl : Ordered (r :: l)) (hstop : ∀ s ∈ r :: l, s.stop ≤ physAddrMax) : ∃ t',
    mergeLoop l.length t done.length = some t' ∧ t'.regions = done ++ coalesceFrom r l ∧
      t'.Tally ∧ t'.max = t.max := by
  induction l generalizing t done r with
  | nil => exact ⟨t, rfl, ht, htally, rfl⟩
  | cons s l ih =>
    obtain ⟨hget, ht', hlen⟩ := at_region ht
    have hnext : t.regions[done.length + 1]? = some s := by simp [ht]
    have hr := rend_eq (hstop r (.head _))
    obtain ⟨-, hbefore, hl'⟩ := ordered_cons.mp hl
    rw [length_cons, mergeLoop, hget, hnext]
    simp only [hr]
    unfold coalesceFrom
    by_cases hjoin : r.stop = s.base ∧ r.label = s.label
    · have hsize : wrap (r.size + s.size) = r.size + s.size := by
        apply wrap_eq
        have := hstop s (.tail _ (.head _))
        have := hjoin.1
        simp only [Extent.stop] at *
        omega
      rw [if_neg (by simp [hjoin]), if_pos hjoin, hsize]
      have hregions : (t.regions.set done.length ⟨r.base, r.size + s.size, r.label⟩).eraseIdx
          (done.length + 1) = done ++ ⟨r.base, r.size + s.size, r.label⟩ :: l := by
        rw [ht, set_eraseIdx_length]
      have htally' : MemblockType.Tally { t with
          regions := done ++ ⟨r.base, r.size + s.size, r.label⟩ :: l } := by
        rw [MemblockType.Tally] at htally ⊢
        rw [htally, ht]
        simp only [total_append, total_cons, Nat.add_assoc]
      rw [hregions]
      exact ih done rfl htally' (hl.join hjoin.1) (stop_le_join hstop hjoin.1)
    · rw [if_pos (by tauto), if_neg hjoin]
      have hle := hbefore s (.head _)
      rw [if_neg (by omega)]
      obtain ⟨t', hloop, hregions, hrest⟩ := ih _ ht' htally hl'
        fun u hu => hstop u (.tail _ hu)
      exact ⟨t', hlen ▸ hloop, by simpa using hregions, hrest⟩

/-- Regions that are in order, with a `total_size` that counts them, make a well-formed table
when they are merged. -/
theorem mergeRegions_spec (hne : t.regions ≠ []) (htally : t.Tally) (hl : Ordered t.regions)
    (hstop : ∀ s ∈ t.regions, s.stop ≤ physAddrMax) (hmax : t.cnt ≤ t.max) (hlt : t.max < 2 ^ 31) :
    ∃ t', mergeRegions t = some t' ∧ WellFormed t' ∧ t'.max = t.max ∧
      ∀ x a, Marks t'.regions x a ↔ Marks t.regions x a := by
  obtain ⟨r, l, hr⟩ := exists_cons_of_ne_nil hne
  rw [hr] at hl hstop
  obtain ⟨t', hloop, hregions, htally', hmax'⟩ := mergeLoop_spec [] hr htally hl hstop
  rw [nil_append] at hregions
  have hcnt : t.cnt - 1 = l.length := by simp [MemblockType.cnt, hr]
  refine ⟨t', by rw [mergeRegions, hcnt]; exact hloop, ?_, hmax', fun x a => ?_⟩
  · have hordered := hl.coalesceFrom
    have hstop' : ∀ s ∈ coalesceFrom r l, s.stop ≤ physAddrMax :=
      fun s hs => stop_le_of_mem_coalesceFrom hstop hs hl
    refine ⟨.inr ⟨?_, ?_, ?_⟩, ?_, ?_, ?_, hmax' ▸ hlt⟩
    · rw [hregions]
      exact coalesceFrom_ne_nil
    · rw [hregions]
      exact hordered
    · rw [hregions]
      exact reduced_coalesceFrom hl
    · rw [hregions]
      exact hstop'
    · rw [htally', hregions]
      apply wrap_eq
      have := hordered.total_le (fun _ _ => Nat.zero_le _) hstop' (Nat.zero_le _)
      omega
    · have hlen := length_coalesceFrom_le (r := r) (l := l)
      rw [MemblockType.cnt, hregions, hmax']
      rw [MemblockType.cnt, hr] at hmax
      exact hlen.trans hmax
  · rw [hregions, marks_coalesceFrom, hr]

/-! ## Adding a range -/

/-- The table with `[base, stop)` added. -/
structure Adds (t : MemblockType) (base stop : Nat) (flags : Flags) (t' : MemblockType) : Prop where
  wellFormed : WellFormed t'
  max : t'.max = t.max
  marks : ∀ x a, Marks t'.regions x a ↔
    Marks t.regions x a ∨ (base ≤ x ∧ x < stop ∧ ¬ Covered t.regions x ∧ flags = a)

theorem Adds.covered {t' : MemblockType} (h : Adds t base stop flags t') (x : Nat) :
    Covered t'.regions x ↔ Covered t.regions x ∨ (base ≤ x ∧ x < stop) := by
  rw [covered_iff]
  constructor
  · rintro ⟨a, ha⟩
    rcases (h.marks x a).mp ha with hold | ⟨hle, hlt, -⟩
    · exact .inl (covered_iff.mpr ⟨a, hold⟩)
    · exact .inr ⟨hle, hlt⟩
  · intro hx
    by_cases hold : Covered t.regions x
    · obtain ⟨a, ha⟩ := covered_iff.mp hold
      exact ⟨a, (h.marks x a).mpr (.inl ha)⟩
    · obtain ⟨hle, hlt⟩ := hx.resolve_left hold
      exact ⟨flags, (h.marks x flags).mpr (.inr ⟨hle, hlt, hold, rfl⟩)⟩

theorem WellFormed.tally (h : WellFormed t) : t.Tally := by
  rw [MemblockType.Tally, h.totalSize]
  refine (wrap_eq ?_).symm
  rcases h.regions with hdummy | ⟨-, hordered, -⟩
  · rw [hdummy]
    exact Nat.zero_le _
  · have := hordered.total_le (fun _ _ => Nat.zero_le _) h.stop_le (Nat.zero_le _)
    omega

theorem not_covered_dummy (x : Nat) : ¬ Covered [dummy] x := by
  simp [Covered, dummy, Extent.Covers, Extent.stop]

theorem not_marks_dummy (x : Nat) (a : Flags) : ¬ Marks [dummy] x a :=
  fun h => not_covered_dummy x (covered_iff.mpr ⟨a, h⟩)

def capStop (base size : Nat) : Nat := min (base + size) physAddrMax

theorem wrap_capSize {base : Nat} (hbase : base < 2 ^ 64) (size : Nat) :
    base + capSize base size = capStop base size ∧
      wrap (base + capSize base size) = capStop base size := by
  have heq : base + capSize base size = capStop base size := by
    unfold capSize capStop physAddrMax
    omega
  refine ⟨heq, ?_⟩
  rw [heq]
  exact wrap_eq (Nat.min_le_right _ _)

theorem addsRange_empty (ht : WellFormed t) (h : t.regions = [dummy]) (hlt : base < stop)
    (hstop : stop ≤ physAddrMax) :
    Adds t base stop flags ⟨t.max, stop - base, [⟨base, stop - base, flags⟩]⟩ where
  wellFormed := by
    have hend : base + (stop - base) = stop := by omega
    have hcnt := ht.cnt_le
    rw [MemblockType.cnt, h] at hcnt
    refine ⟨.inr ⟨cons_ne_nil _ _, ⟨?_, ?_⟩, ?_⟩, ?_, rfl, hcnt, ht.max_lt⟩
    · intro r hr
      cases mem_singleton.mp hr
      exact Nat.sub_pos_of_lt hlt
    · exact pairwise_singleton _ _
    · exact pairwise_singleton _ _
    · intro r hr
      cases mem_singleton.mp hr
      exact hend.trans_le hstop
  max := rfl
  marks x a := by
    have hend : base + (stop - base) = stop := by omega
    rw [h, marks_cons]
    simp only [not_marks_dummy, not_covered_dummy, Extent.Covers, Extent.stop, hend, marks_nil,
      or_false, false_or, not_false_eq_true, true_and, and_assoc]

/-- The range is added, unless the table has no room for the regions that fill its gaps. -/
theorem memblockAddRange_cases (h : WellFormed t) {base size : Nat} (hbase : base < 2 ^ 64)
    (flags : Flags) : (∃ t', memblockAddRange t base size flags = some (0, t') ∧
      Adds t base (capStop base size) flags t') ∨
    (memblockAddRange t base size flags = some (enomem, t) ∧
      t.max < (fill flags (capStop base size) base t.regions).length) := by
  obtain ⟨hend, hwrap⟩ := wrap_capSize hbase size
  rw [memblockAddRange, hwrap]
  generalize hstop : capStop base size = stop at hend ⊢
  have hle : stop ≤ physAddrMax := hstop ▸ Nat.min_le_right _ _
  by_cases hsize : capSize base size = 0
  · refine .inl ⟨t, if_pos hsize, h, rfl, fun x a => ?_⟩
    simp only [iff_self_or]
    omega
  rw [if_neg hsize]
  have hsize' : capSize base size = stop - base := by omega
  rcases h.regions with hdummy | ⟨hne, hordered, -⟩
  · refine .inl ⟨_, ?_, addsRange_empty h hdummy (by omega) hle⟩
    rw [hdummy, hsize']
    rfl
  obtain ⟨r, l, hr⟩ := exists_cons_of_ne_nil hne
  have hpos : r.size ≠ 0 := (hordered.pos r (hr ▸ .head _)).ne'
  obtain ⟨n, hcount, hn⟩ : ∃ n, addRound false flags base stop t = some (t, n) ∧
    n + t.cnt = (fill flags stop base t.regions).length := addRound_count h.stop_le
  have hmarks : ∀ x a, Marks (fill flags stop base t.regions) x a ↔ Marks t.regions x a ∨
      (base ≤ x ∧ x < stop ∧ ¬ Covered t.regions x ∧ flags = a) := fun x a => marks_fill hordered
  simp only [hr, hpos, if_false, hcount]
  by_cases hzero : n = 0
  · -- the range is covered already
    have hfill : fill flags stop base t.regions = t.regions :=
      fill_eq_self (by rw [← hn, hzero, Nat.zero_add]; rfl)
    rw [if_pos hzero]
    rw [hfill] at hmarks
    rw [← hr]
    exact .inl ⟨t, rfl, h, rfl, hmarks⟩
  rw [if_neg hzero]
  by_cases hroom : t.cnt + n > t.max
  · rw [if_pos hroom, ← hr]
    exact .inr ⟨rfl, by omega⟩
  rw [if_neg hroom]
  obtain ⟨t1, n', hinsert, hn', hregions, htally, hmax⟩ : ∃ t' n',
      addRound true flags base stop t = some (t', n') ∧
      n' + t.cnt = (fill flags stop base t.regions).length ∧
      t'.regions = fill flags stop base t.regions ∧ t'.Tally ∧ t'.max = t.max :=
    addRound_insert h.stop_le h.tally (by omega)
  have hlen : t1.cnt = n + t.cnt := by rw [MemblockType.cnt, hregions, hn]
  obtain ⟨t', hmerge, hwell, hmax', hmarks'⟩ := mergeRegions_spec (t := t1) (by
      intro hnil
      rw [MemblockType.cnt, hnil, length_nil] at hlen
      omega) htally (hregions ▸ hordered.fill) (by
      intro s hs
      rw [hregions] at hs
      rcases mem_fill hs with hold | ⟨-, -, hnew⟩
      · exact h.stop_le s hold
      · exact hnew.trans hle) (by omega) (hmax ▸ h.max_lt)
  refine .inl ⟨t', ?_, hwell, hmax'.trans hmax, fun x a => ?_⟩
  · rw [hinsert]
    simp only [if_neg (show n' ≠ 0 by omega), hmerge, Option.map_some]
  · rw [hmarks', hregions, hmarks]

/-- `memblock_add_range` never stops at a `BUG_ON`. If it returns zero the range is covered, with
the given flags wherever it was not covered before, and nothing else changes. -/
theorem memblockAddRange_spec (h : WellFormed t) {base : Nat} (hbase : base < 2 ^ 64) (size : Nat)
    (flags : Flags) : ∃ ret t', memblockAddRange t base size flags = some (ret, t') ∧
    ((ret = 0 ∧ WellFormed t' ∧
      (∀ x, Covered t'.regions x ↔
        Covered t.regions x ∨ (base ≤ x ∧ x < min (base + size) physAddrMax)) ∧
      (∀ x a, Marks t.regions x a → Marks t'.regions x a) ∧
      ∀ x, ¬ Covered t.regions x → Covered t'.regions x → Marks t'.regions x flags) ∨
    (ret = enomem ∧ t' = t)) := by
  rcases memblockAddRange_cases h hbase flags with ⟨t', heq, hadds⟩ | ⟨heq, -⟩
  · refine ⟨0, t', heq, .inl ⟨rfl, hadds.wellFormed, hadds.covered, fun x a hx => ?_,
      fun x hx hx' => ?_⟩⟩
    · exact (hadds.marks x a).mpr (.inl hx)
    · obtain ⟨a, ha⟩ := covered_iff.mp hx'
      rcases (hadds.marks x a).mp ha with hold | ⟨-, -, -, rfl⟩
      · exact absurd (covered_iff.mpr ⟨a, hold⟩) hx
      · exact ha
  · exact ⟨enomem, t, heq, .inr ⟨rfl, rfl⟩⟩

theorem memblockAddRange_spec_gap : ∃ ret t', memblockAddRange
      ⟨4, 0x300, [⟨0x1000, 0x100, 0⟩, ⟨0x2000, 0x200, 1⟩]⟩ 0x1000 0x1100 0 = some (ret, t') ∧
    ret = 0 ∧ t'.regions = [⟨0x1000, 0x1000, 0⟩, ⟨0x2000, 0x200, 1⟩] ∧ WellFormed t' := by
  have hwell : WellFormed ⟨4, 0x300, [⟨0x1000, 0x100, 0⟩, ⟨0x2000, 0x200, 1⟩]⟩ := by
    refine ⟨.inr ⟨cons_ne_nil _ _, ⟨?_, ?_⟩, ?_⟩, ?_, rfl, by decide, by decide⟩ <;>
      simp [Reduced, Extent.stop, physAddrMax]
  obtain ⟨ret, t', heq, hcases⟩ := memblockAddRange_spec hwell
    (show 0x1000 < 2 ^ 64 by decide) 0x1100 0
  have hret : (memblockAddRange ⟨4, 0x300, [⟨0x1000, 0x100, 0⟩, ⟨0x2000, 0x200, 1⟩]⟩ 0x1000 0x1100
      0).map (fun p => decide (p.1 = 0 ∧
        p.2.regions = [⟨0x1000, 0x1000, 0⟩, ⟨0x2000, 0x200, 1⟩])) = some true := by decide +kernel
  rw [heq] at hret
  obtain ⟨rfl, hregions⟩ := of_decide_eq_true (Option.some.inj hret)
  rcases hcases with ⟨-, hwell', -⟩ | ⟨hne, -⟩
  · exact ⟨0, t', heq, rfl, hregions, hwell'⟩
  · exact absurd hne (by decide)

end MinixRt.Memblock
