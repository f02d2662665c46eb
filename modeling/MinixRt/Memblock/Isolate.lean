import MinixRt.Memblock.Insert

/-!
# Removing a range and marking it

`memblock_isolate_range` splits the regions at the ends of a range. On the list of regions it
computes the parts below, inside and above the range with `clip`. `memblock_remove_range` drops
the part inside, and `memblock_setclr_flag` changes its flags and merges.
-/

namespace MinixRt.Memblock

open List MinixRt.Lib

variable {t : MemblockType} {set : Bool} {a flag : Flags} {l : List Region} {t' : MemblockType}
  {lo hi s base x : Nat} {r : Region}

theorem wrap_sub {n : Nat} (h : s ≤ physAddrMax) : wrap (wrap (n + s) + 2 ^ 64 - s) = wrap n := by
  unfold physAddrMax at h
  unfold wrap
  omega

theorem set_length (done l : List Region) (r r' : Region) :
    (done ++ r :: l).set done.length r' = done ++ r' :: l := by
  simp

/-! ## Splitting -/

variable {done : List Region}

theorem split_spec {p : Nat} (ht : t.regions = done ++ r :: l) (htally : t.Tally)
    (hroom : done.length + l.length + 1 < t.max) (hp : r.base < p) (hp' : p < r.stop)
    (hstop : r.stop ≤ physAddrMax) : ∃ t', insertRegion { t with
        regions := t.regions.set done.length ⟨p, r.size - (p - r.base), r.label⟩
        totalSize := wrap (t.totalSize + 2 ^ 64 - (p - r.base)) } done.length
      ⟨r.base, p - r.base, r.label⟩ = some t' ∧
    t'.regions = done ++ ⟨r.base, p - r.base, r.label⟩ :: ⟨p, r.stop - p, r.label⟩ :: l ∧
    t'.Tally ∧ t'.max = t.max := by
  have hsize : r.size - (p - r.base) = r.stop - p := by
    unfold Extent.stop
    omega
  refine insertRegion_spec _ ?_ ?_ ?_
  · rw [ht, set_length, hsize]
  · have heq : total t.regions = total (done ++ ⟨p, r.stop - p, r.label⟩ :: l) + (p - r.base) := by
      rw [ht]
      simp only [total_append, total_cons, Extent.stop] at hp' ⊢
      omega
    rw [MemblockType.Tally] at htally ⊢
    rw [htally, heq, ht, set_length, hsize, wrap_sub (by omega)]
  · rw [length_cons]
    exact hroom

section Loop

variable (hlt : lo < hi) (done : List Region) (ht : t.regions = done ++ l) (htally : t.Tally)
  (hl : Ordered l) (hstop : ∀ r ∈ l, r.stop ≤ physAddrMax)
include hlt ht htally hl hstop

theorem isolateLoop_inside (hlo : ∀ r ∈ l, lo ≤ r.base) (hroom : done.length + l.length < t.max) (s e n : Nat) :
    ∃ t' s' e', isolateLoop lo hi (l.length + 2 + n) t done.length s e = some (t', s', e') ∧
      t'.regions = done ++ (clip lo hi l ++ clip hi physAddrMax l) ∧ t'.Tally ∧ t'.max = t.max ∧
      (clip lo hi l = [] → s' = s ∧ e' = e) ∧
      (clip lo hi l ≠ [] → s' = (if e = 0 then done.length else s) ∧
        e' = done.length + (clip lo hi l).length) := by
  induction l generalizing t done s e n with
  | nil =>
    refine ⟨t, s, e, ?_, ht, htally, rfl, fun _ => ⟨rfl, rfl⟩, fun h => absurd rfl h⟩
    rw [length_nil, Nat.zero_add, Nat.add_comm 2 n, isolateLoop, ht, getElem?_length]
    rfl
  | cons r l ih =>
    obtain ⟨hpos, hbefore, hl'⟩ := ordered_cons.mp hl
    have hrstop := hstop r (.head _)
    have hrlo := hlo r (.head _)
    obtain ⟨hget, ht', hlen⟩ := at_region ht
    have hsize : r.stop = r.base + r.size := rfl
    have hfuel : (r :: l).length + 2 + n = (l.length + 2 + n) + 1 := by
      rw [length_cons]
      omega
    rw [hfuel, isolateLoop, hget]
    simp only [rend_eq hrstop]
    by_cases hbreak : hi ≤ r.base
    · -- the range ends before the region
      have hnil : clip lo hi (r :: l) = [] := clip_eq_nil fun q hq => .inr (hl.le_base hbreak q hq)
      have hself : clip hi physAddrMax (r :: l) = r :: l :=
        clip_eq_self hl.pos fun q hq => ⟨hl.le_base hbreak q hq, hstop q hq⟩
      rw [if_pos hbreak, hnil, hself]
      exact ⟨t, s, e, rfl, ht, htally, rfl, fun _ => ⟨rfl, rfl⟩, fun h => absurd rfl h⟩
    rw [if_neg hbreak, if_neg (by omega), if_neg (by omega)]
    have hafter : ∀ q ∈ l, r.stop ≤ q.base := hbefore
    by_cases hsplit : hi < r.stop
    · -- the region goes on behind the range
      obtain ⟨t1, hins, ht1, htally1, hmax⟩ := split_spec (p := hi) ht htally
        (by rw [length_cons] at hroom; omega) (by omega) hsplit hrstop
      have hlower : r.clip lo hi = some ⟨r.base, hi - r.base, r.label⟩ :=
        Extent.clip_eq_some.mpr ⟨rfl, by simp only [Extent.stop]; omega, by
          simp only []
          omega, by simp only [Extent.stop] at hsplit ⊢; omega⟩
      have hupper : r.clip hi physAddrMax = some ⟨hi, r.stop - hi, r.label⟩ :=
        Extent.clip_eq_some.mpr ⟨rfl, by simp only [Extent.stop] at hsplit ⊢; omega, by
          simp only []
          omega, by simp only [Extent.stop] at hsplit hrstop ⊢; omega⟩
      have hinside : clip lo hi (r :: l) = [⟨r.base, hi - r.base, r.label⟩] := by
        rw [clip_cons_some hlower, clip_eq_nil fun q hq => .inr (by have := hafter q hq; omega)]
      have habove : clip hi physAddrMax (r :: l) = ⟨hi, r.stop - hi, r.label⟩ :: l := by
        rw [clip_cons_some hupper, clip_eq_self hl'.pos fun q hq =>
          ⟨by have := hafter q hq; omega, hstop q (.tail _ hq)⟩]
      rw [if_pos hsplit, hins, hinside, habove]
      have hlow : rend ⟨r.base, hi - r.base, r.label⟩ = hi := by
        rw [rend_eq] <;> simp only [Extent.stop] <;> omega
      have hget1 : t1.regions[done.length]? = some ⟨r.base, hi - r.base, r.label⟩ := by
        rw [ht1, getElem?_length, head?_cons]
      have hget2 : t1.regions[done.length + 1]? = some ⟨hi, r.stop - hi, r.label⟩ := by
        simp [ht1]
      refine ⟨t1, if e = 0 then done.length else s, done.length + 1, ?_, ht1, htally1, hmax,
        fun h => absurd h (cons_ne_nil _ _), fun _ => ⟨rfl, rfl⟩⟩
      rw [show l.length + 2 + n = l.length + n + 1 + 1 by omega]
      simp only [isolateLoop, hget1, hget2, hlow, if_neg hbreak, le_refl, if_true, lt_irrefl,
        if_false, if_neg (show ¬ hi ≤ lo by omega), if_neg (show ¬ r.base < lo by omega)]
    · -- the region lies in the range
      have hin : r.clip lo hi = some r := Extent.clip_of_inside hpos hrlo (by omega)
      have hout : r.clip hi physAddrMax = none := Extent.clip_of_le (.inl (by omega))
      rw [if_neg hsplit, clip_cons_some hin, clip_cons_none hout]
      obtain ⟨t', s', e', hloop, hregions, htally', hmax, hnone, hsome⟩ := ih _ ht' htally hl'
        (fun q hq => hstop q (.tail _ hq)) (fun q hq => hlo q (.tail _ hq)) (by
          rw [hlen]
          rw [length_cons] at hroom
          omega) (if e = 0 then done.length else s) (done.length + 1) n
      rw [hlen] at hloop
      refine ⟨t', s', e', hloop, by simpa using hregions, htally', hmax,
        fun h => absurd h (cons_ne_nil _ _), fun _ => ?_⟩
      by_cases hnil : clip lo hi l = []
      · obtain ⟨rfl, rfl⟩ := hnone hnil
        exact ⟨rfl, by simp [hnil]⟩
      · obtain ⟨rfl, rfl⟩ := hsome hnil
        refine ⟨by simp, ?_⟩
        rw [length_cons, hlen]
        omega

theorem isolateLoop_spec (hroom : done.length + l.length + 1 < t.max) (n : Nat) :
    ∃ t' s e, isolateLoop lo hi (l.length + 3 + n) t done.length 0 0 = some (t', s, e) ∧
      t'.regions = done ++ clip 0 lo l ++ (clip lo hi l ++ clip hi physAddrMax l) ∧ t'.Tally ∧
      t'.max = t.max ∧ (clip lo hi l = [] → s = 0 ∧ e = 0) ∧
      (clip lo hi l ≠ [] → s = (done ++ clip 0 lo l).length ∧ e = s + (clip lo hi l).length) := by
  induction l generalizing t done n with
  | nil =>
    obtain ⟨t', s, e, hloop, hregions, htally', hmax, hnone, -⟩ :=
      isolateLoop_inside hlt done ht htally hl hstop (by simp) (by omega) 0 0 (n + 1)
    refine ⟨t', s, e, ?_, by simpa [clip] using hregions, htally', hmax, hnone,
      fun h => absurd rfl h⟩
    rw [← hloop]
    congr 1
    omega
  | cons r l ih =>
    obtain ⟨hpos, hbefore, hl'⟩ := ordered_cons.mp hl
    have hrstop := hstop r (.head _)
    obtain ⟨hget, ht', hlen⟩ := at_region ht
    have hsize : r.stop = r.base + r.size := rfl
    have hfuel : (r :: l).length + 3 + n = (l.length + 3 + n) + 1 := by
      rw [length_cons]
      omega
    rw [length_cons] at hroom
    by_cases hlo : lo ≤ r.base
    · -- the range starts before the region
      have hlo' := hl.le_base hlo
      have hnil : clip 0 lo (r :: l) = [] := clip_eq_nil fun q hq => .inr (hlo' q hq)
      obtain ⟨t', s, e, hloop, hregions, htally', hmax, hnone, hsome⟩ :=
        isolateLoop_inside hlt done ht htally hl hstop hlo' (by rw [length_cons]; omega) 0 0
          (n + 1)
      rw [hnil, append_nil]
      refine ⟨t', s, e, ?_, hregions, htally', hmax, hnone, fun h => ?_⟩
      · rw [← hloop]
        congr 1
      · obtain ⟨rfl, rfl⟩ := hsome h
        exact ⟨rfl, rfl⟩
    rw [hfuel, isolateLoop, hget]
    simp only [rend_eq hrstop]
    rw [if_neg (by omega)]
    by_cases hbelow : r.stop ≤ lo
    · have hin : r.clip 0 lo = some r := Extent.clip_of_inside hpos (Nat.zero_le _) hbelow
      obtain ⟨t', s, e, hloop, hregions, hrest⟩ := ih _ ht' htally hl'
        (fun q hq => hstop q (.tail _ hq)) (by rw [hlen]; omega) n
      rw [if_pos hbelow, clip_cons_some hin, clip_cons_none (Extent.clip_of_le (.inl hbelow)),
        clip_cons_none (Extent.clip_of_le (.inl (by omega)))]
      rw [hlen] at hloop
      refine ⟨t', s, e, hloop, by simpa using hregions, ?_⟩
      simpa only [append_assoc, singleton_append] using hrest
    · -- the range starts inside the region
      obtain ⟨t1, hins, ht1, htally1, hmax⟩ := split_spec (p := lo) ht htally (by omega)
        (by omega) (by omega) hrstop
      have hlower : r.clip 0 lo = some ⟨r.base, lo - r.base, r.label⟩ :=
        Extent.clip_eq_some.mpr ⟨rfl, by simp only [Extent.stop]; omega, by simp, by
          simp only [Extent.stop] at hbelow ⊢
          omega⟩
      have hnil : clip 0 lo l = [] := clip_eq_nil fun q hq => .inr (by
        have := hbefore q hq
        omega)
      have hcross : lo ≤ r.stop := by omega
      have hupper : Ordered ((⟨lo, r.stop - lo, r.label⟩ : Region) :: l) := by
        refine ordered_cons.mpr ⟨Nat.sub_pos_of_lt (by omega), fun q hq => ?_, hl'⟩
        exact (Nat.add_sub_cancel' hcross).trans_le (hbefore q hq)
      have hlen : (done ++ [(⟨r.base, lo - r.base, r.label⟩ : Region)]).length =
        done.length + 1 := by simp
      obtain ⟨t', s, e, hloop, hregions, htally', hmax', hnone, hsome⟩ :=
        isolateLoop_inside hlt (done ++ [⟨r.base, lo - r.base, r.label⟩])
          (by simpa using ht1) htally1 hupper (by
            intro q hq
            rcases mem_cons.mp hq with rfl | hq
            · exact (Nat.add_sub_cancel' hcross).trans_le hrstop
            · exact hstop q (.tail _ hq)) (hupper.le_base le_rfl) (by simp only [hlen, length_cons, hmax]; omega) 0 0 n
      have hclip : ∀ {p q : Nat}, lo ≤ p →
          clip p q ((⟨lo, r.stop - lo, r.label⟩ : Region) :: l) = clip p q (r :: l) := by
        intro p q hp
        simp only [clip, filterMap_cons, Extent.clip_tail hp hcross
          (show r.base ≤ lo by omega)]
      rw [hclip le_rfl, hclip hlt.le] at hregions
      rw [hclip le_rfl] at hnone hsome
      rw [if_neg hbelow, if_pos (by omega), hins, clip_cons_some hlower, hnil]
      refine ⟨t', s, e, ?_, by simpa using hregions, htally', hmax'.trans hmax, hnone,
        fun h => ?_⟩
      · rw [hlen] at hloop
        exact hloop
      · obtain ⟨rfl, rfl⟩ := hsome h
        exact ⟨rfl, rfl⟩

end Loop

theorem insertRegion_cnt_le {idx : Nat} (h : insertRegion t idx r = some t') : t'.cnt ≤ t'.max := by
  unfold insertRegion at h
  split_ifs at h with hfull
  cases h
  simp only [MemblockType.cnt, length_insertIdx] at hfull ⊢
  split_ifs <;> omega

theorem isolateLoop_cnt_le : ∀ {fuel : Nat} {t t' : MemblockType} {idx s e s' e' : Nat},
    t.cnt ≤ t.max → isolateLoop lo hi fuel t idx s e = some (t', s', e') → t'.cnt ≤ t'.max := by
  intro fuel t t' idx s e s' e' hcnt
  fun_induction isolateLoop lo hi fuel t idx s e with
  | case1 => nofun
  | case2 | case3 =>
    rintro ⟨⟩
    exact hcnt
  | case4 _ _ _ _ _ _ _ _ _ _ ih => exact ih hcnt
  | case5 | case7 => nofun
  | case6 _ _ _ _ _ _ _ _ _ _ _ _ _ _ hins ih => exact ih (insertRegion_cnt_le hins)
  | case8 _ _ _ _ _ _ _ _ _ _ _ _ _ _ _ hins ih => exact ih (insertRegion_cnt_le hins)
  | case9 _ _ _ _ _ _ _ _ _ _ _ _ ih => exact ih hcnt

/-- What `memblock_isolate_range` returns when it has something to do: the regions `s` to `e` are
those inside the range. -/
structure Isolated (t : MemblockType) (lo hi : Nat) (t' : MemblockType) (s e : Nat) : Prop where
  regions : t'.regions =
    clip 0 lo t.regions ++ (clip lo hi t.regions ++ clip hi physAddrMax t.regions)
  tally : t'.Tally
  max : t'.max = t.max
  cnt_le : t'.cnt ≤ t'.max
  none : clip lo hi t.regions = [] → s = 0 ∧ e = 0
  some : clip lo hi t.regions ≠ [] →
    s = (clip 0 lo t.regions).length ∧ e = s + (clip lo hi t.regions).length

theorem isolateLoop_dummy (h : t.regions = [dummy]) (lo hi n : Nat) (hlt : lo < hi) :
    isolateLoop lo hi (n + 2) t 0 0 0 = some (t, 0, 0) := by
  have hget : t.regions[0]? = some dummy := by rw [h]; rfl
  have hend : t.regions[0 + 1]? = none := by rw [h]; rfl
  have hrend : rend dummy = 0 := rfl
  have hbase : dummy.base = 0 := rfl
  simp only [isolateLoop, hget, hend, hrend, hbase, Nat.zero_le, if_true,
    if_neg (show ¬ hi ≤ 0 by omega)]

theorem memblockIsolateRange_cases (h : WellFormed t) (hbase : base < 2 ^ 64) (size : Nat) :
    (memblockIsolateRange t base size = some (enomem, t, 0, 0) ∧ t.max < t.cnt + 2) ∨
    (memblockIsolateRange t base size = some (0, t, 0, 0) ∧
      (capStop base size ≤ base ∨ t.regions = [dummy])) ∨
    (base < capStop base size ∧ Ordered t.regions ∧ Reduced t.regions ∧
      ∃ t' s e, memblockIsolateRange t base size = some (0, t', s, e) ∧
        Isolated t base (capStop base size) t' s e) := by
  obtain ⟨hend, hwrap⟩ := wrap_capSize hbase size
  rw [memblockIsolateRange, hwrap]
  generalize capStop base size = stop at hend ⊢
  by_cases hsize : capSize base size = 0
  · exact .inr (.inl ⟨if_pos hsize, .inl (by omega)⟩)
  by_cases hroom : t.cnt + 2 > t.max
  · exact .inl ⟨by rw [if_neg hsize, if_pos hroom], hroom⟩
  rw [if_neg hsize, if_neg hroom]
  have hlt : base < stop := by omega
  rcases h.regions with hdummy | ⟨-, hordered, hreduced⟩
  · refine .inr (.inl ⟨?_, .inr hdummy⟩)
    rw [isolateLoop_dummy hdummy base stop _ hlt]
    rfl
  · refine .inr (.inr ⟨hlt, hordered, hreduced, ?_⟩)
    obtain ⟨t', s, e, hloop, hregions, htally, hmax, hnone, hsome⟩ :=
      isolateLoop_spec (l := t.regions) hlt [] rfl h.tally hordered h.stop_le (by
        have hcnt : t.cnt = t.regions.length := rfl
        rw [length_nil]
        omega) 0
    have hcnt := isolateLoop_cnt_le h.cnt_le hloop
    refine ⟨t', s, e, ?_, hregions, htally, hmax, hcnt, hnone, hsome⟩
    rw [show t.cnt + 3 = t.regions.length + 3 + 0 from rfl]
    exact congrArg (Option.map _) hloop

/-! ## Removing -/

theorem eraseIdx_length (done l : List Region) (r : Region) :
    (done ++ r :: l).eraseIdx done.length = done ++ l := by
  simp [eraseIdx_append_of_length_le]

theorem removeRegion_spec (ht : t.regions = done ++ r :: l) (htally : t.Tally)
    (hsize : r.size ≤ physAddrMax) : ∃ t', removeRegion t done.length = some t' ∧
      t'.regions = (if done ++ l = [] then [dummy] else done ++ l) ∧ t'.Tally ∧ t'.max = t.max := by
  obtain ⟨hget, -⟩ := at_region ht
  have htotal : total t.regions = total (done ++ l) + r.size := by
    rw [ht]
    simp only [total_append, total_cons]
    omega
  rw [MemblockType.Tally, htotal] at htally
  have heq : removeRegion t done.length = some ⟨t.max, wrap (t.totalSize + 2 ^ 64 - r.size),
      if done ++ l = [] then [dummy] else done ++ l⟩ := by
    rw [removeRegion, hget]
    simp only [ht, eraseIdx_length, length_eq_zero_iff]
  refine ⟨_, heq, rfl, ?_, rfl⟩
  rw [MemblockType.Tally, htally, wrap_sub hsize]
  split_ifs with hnil
  · rw [hnil]
    rfl
  · rfl

variable {mid : List Region}

theorem removeLoop_spec (done l : List Region) (ht : t.regions = done ++ (mid ++ l))
    (htally : t.Tally) (hsize : ∀ r ∈ mid, r.size ≤ physAddrMax) (hne : mid ≠ []) : ∃ t',
    removeLoop done.length mid.length t = some t' ∧
      t'.regions = (if done ++ l = [] then [dummy] else done ++ l) ∧ t'.Tally ∧ t'.max = t.max := by
  induction mid using reverseRecOn generalizing t with
  | nil => exact absurd rfl hne
  | append_singleton mid r ih =>
    have ht' : t.regions = (done ++ mid) ++ r :: l := by simpa using ht
    obtain ⟨t1, hremove, hregions, htally1, hmax⟩ := removeRegion_spec ht' htally
      (hsize r (by simp))
    rw [length_append] at hremove
    rw [length_append, length_singleton, removeLoop, hremove]
    by_cases hmid : mid = []
    · subst hmid
      refine ⟨t1, rfl, ?_, htally1, hmax⟩
      simpa using hregions
    · rw [if_neg (by simp [hmid])] at hregions
      obtain ⟨t', hloop, hregions', htally', hmax'⟩ := ih (by simpa using hregions) htally1
        (fun q hq => hsize q (by simp [hq])) hmid
      exact ⟨t', hloop, hregions', htally', hmax'.trans hmax⟩

/-- The table with `[lo, hi)` removed. -/
structure Removes (t : MemblockType) (lo hi : Nat) (t' : MemblockType) : Prop where
  wellFormed : WellFormed t'
  max : t'.max = t.max
  marks : ∀ x a, Marks t'.regions x a ↔ Marks t.regions x a ∧ ¬ (lo ≤ x ∧ x < hi)

theorem wellFormed_outside (h : WellFormed t) (hlt : lo < hi) (hordered : Ordered t.regions)
    (hreduced : Reduced t.regions)
    (hregions : t'.regions = if clip 0 lo t.regions ++ clip hi physAddrMax t.regions = [] then [dummy]
      else clip 0 lo t.regions ++ clip hi physAddrMax t.regions) (htally : t'.Tally)
    (hmax : t'.cnt ≤ t'.max) (hmax' : t'.max = t.max) : WellFormed t' := by
  by_cases hnil : clip 0 lo t.regions ++ clip hi physAddrMax t.regions = []
  · rw [if_pos hnil] at hregions
    refine ⟨.inl hregions, ?_, ?_, hmax, hmax' ▸ h.max_lt⟩
    · rw [hregions]
      intro r hr
      cases mem_singleton.mp hr
      exact Nat.zero_le _
    · rw [htally, hregions]
      rfl
  · rw [if_neg hnil] at hregions
    have hbefore : ∀ r ∈ clip 0 lo t.regions, ∀ s ∈ clip hi physAddrMax t.regions,
        r.stop < s.base := by
      intro r hr s hs
      obtain ⟨_, -, -, -, -, hstop⟩ := mem_clip.mp hr
      obtain ⟨_, -, -, -, hbase, -⟩ := mem_clip.mp hs
      omega
    have hstop : ∀ r ∈ t'.regions, r.stop ≤ physAddrMax := by
      intro r hr
      rw [hregions] at hr
      rcases mem_append.mp hr with hr | hr
      all_goals
        obtain ⟨q, hq, -, -, -, heq⟩ := mem_clip.mp hr
        have := h.stop_le q hq
        omega
    have hout : Ordered t'.regions := hregions ▸
      hordered.clip.append hordered.clip fun r hr s hs => (hbefore r hr s hs).le
    refine ⟨.inr ⟨hregions ▸ hnil, hout, ?_⟩, hstop, ?_, hmax, hmax' ▸ h.max_lt⟩
    · rw [hregions]
      refine pairwise_append.mpr ⟨hreduced.clip hordered, hreduced.clip hordered,
        fun r hr s hs htouch => ?_⟩
      exact absurd htouch (hbefore r hr s hs).ne
    · rw [htally]
      apply wrap_eq
      have := hout.total_le (fun _ _ => Nat.zero_le _) hstop (Nat.zero_le _)
      omega

theorem Isolated.outside_le {e : Nat} (h : Isolated t lo hi t' s e) :
    (clip 0 lo t.regions ++ clip hi physAddrMax t.regions).length ≤ t.max := by
  have hcnt := h.cnt_le
  rw [MemblockType.cnt, h.regions, h.max] at hcnt
  simp only [length_append] at hcnt ⊢
  omega

theorem clip_size_le (hi_le : hi ≤ physAddrMax) (hr : r ∈ clip lo hi l) : r.size ≤ physAddrMax := by
  obtain ⟨_, -, -, -, -, hstop⟩ := mem_clip.mp hr
  have : r.stop = r.base + r.size := rfl
  omega

theorem marks_outside (hstop : ∀ r ∈ l, r.stop ≤ physAddrMax) :
    Marks (clip 0 lo l ++ clip hi physAddrMax l) x a ↔ Marks l x a ∧ ¬ (lo ≤ x ∧ x < hi) := by
  have hx : Marks l x a → x < physAddrMax := by
    rintro ⟨r, hr, hcov, -⟩
    have := hstop r hr
    have := hcov.2
    omega
  rw [marks_append, marks_clip, marks_clip]
  constructor
  · rintro (⟨hm, h⟩ | ⟨hm, h⟩)
    all_goals exact ⟨hm, by omega⟩
  · rintro ⟨hm, h⟩
    have := hx hm
    by_cases hlo : x < lo
    · exact .inl ⟨hm, Nat.zero_le _, hlo⟩
    · exact .inr ⟨hm, by omega, this⟩

theorem WellFormed.regions_ne_nil (h : WellFormed t) : t.regions ≠ [] := by
  rcases h.regions with hdummy | ⟨hne, -⟩
  · rw [hdummy]
    exact cons_ne_nil _ _
  · exact hne

theorem WellFormed.cnt_pos (h : WellFormed t) : 0 < t.cnt :=
  length_pos_of_ne_nil h.regions_ne_nil

theorem outside_ne_nil (hne : l ≠ []) (hl : Ordered l) (hstop : ∀ r ∈ l, r.stop ≤ physAddrMax)
    (hnil : clip lo hi l = []) : clip 0 lo l ++ clip hi physAddrMax l ≠ [] := by
  obtain ⟨r, l', rfl⟩ := exists_cons_of_ne_nil hne
  have hr : Marks (r :: l') r.base r.label :=
    ⟨r, .head _, ⟨le_rfl, Nat.lt_add_of_pos_right (hl.pos r (.head _))⟩, rfl⟩
  have hout : ¬ (lo ≤ r.base ∧ r.base < hi) := by
    intro hin
    have hmarks := marks_clip.mpr ⟨hr, hin⟩
    rw [hnil] at hmarks
    exact marks_nil hmarks
  intro hempty
  have hmarks := (marks_outside hstop).mpr ⟨hr, hout⟩
  rw [hempty] at hmarks
  exact marks_nil hmarks

theorem memblockRemoveRange_cases (h : WellFormed t) (hbase : base < 2 ^ 64) (size : Nat) :
    (∃ t', memblockRemoveRange t base size = some (0, t') ∧ Removes t base (capStop base size) t') ∨
    (memblockRemoveRange t base size = some (enomem, t) ∧ t.max < t.cnt + 2) := by
  rw [memblockRemoveRange]
  rcases memblockIsolateRange_cases h hbase size with ⟨heq, hroom⟩ | ⟨heq, hnone⟩ |
    ⟨hlt, hordered, hreduced, t1, s, e, heq, hiso⟩
  · exact .inr ⟨by rw [heq]; rfl, hroom⟩
  · refine .inl ⟨t, by rw [heq]; rfl, h, rfl, fun x a => ⟨fun hx => ⟨hx, ?_⟩, And.left⟩⟩
    rcases hnone with hempty | hdummy
    · omega
    · rw [hdummy] at hx
      exact absurd hx (not_marks_dummy x a)
  · left
    have hle : capStop base size ≤ physAddrMax := Nat.min_le_right _ _
    generalize capStop base size = stop at *
    rw [heq]
    by_cases hnil : clip base stop t.regions = []
    · -- nothing lies in the range, and the regions are as they were
      obtain ⟨rfl, rfl⟩ := hiso.none hnil
      have hregions := hiso.regions
      rw [hnil, nil_append] at hregions
      refine ⟨t1, rfl, wellFormed_outside h hlt hordered hreduced ?_ hiso.tally hiso.cnt_le
        hiso.max, hiso.max, fun x a => ?_⟩
      · rw [hregions, if_neg (outside_ne_nil h.regions_ne_nil hordered h.stop_le hnil)]
      · rw [hregions, marks_outside h.stop_le]
    · obtain ⟨rfl, rfl⟩ := hiso.some hnil
      obtain ⟨t', hloop, hregions, htally, hmax⟩ := removeLoop_spec _ _ hiso.regions hiso.tally
        (fun r hr => clip_size_le hle hr) hnil
      have hcnt : t'.cnt ≤ t'.max := by
        rw [hmax, hiso.max, MemblockType.cnt, hregions]
        split_ifs with hempty
        · exact Nat.le_trans h.cnt_pos h.cnt_le
        · exact hiso.outside_le
      refine ⟨t', ?_, wellFormed_outside h hlt hordered hreduced hregions htally hcnt
        (hmax.trans hiso.max), hmax.trans hiso.max, fun x a => ?_⟩
      · simp only [ne_eq, not_true_eq_false, if_false, Nat.add_sub_cancel_left, hloop,
          Option.map_some]
      · rw [← marks_outside h.stop_le, hregions]
        split_ifs with hempty
        · rw [hempty]
          exact iff_of_false (not_marks_dummy x a) marks_nil
        · rfl

/-! ## Marking -/

theorem modify_length (done l : List Region) (r : Region) (f : Region → Region) :
    (done ++ r :: l).modify done.length f = done ++ f r :: l := by
  induction done with
  | nil => rfl
  | cons q done ih => simp [ih]

theorem setclrLoop_spec (set : Bool) (flag : Flags) (l : List Region) (done : List Region)
    (ht : t.regions = done ++ (mid ++ l)) : setclrLoop set flag mid.length done.length t =
      { t with regions := done ++ (mid.map (setclrRegion set flag) ++ l) } := by
  induction mid generalizing t done with
  | nil =>
    rw [map_nil, ← ht]
    rfl
  | cons r mid ih =>
    have hmodify : t.regions.modify done.length (setclrRegion set flag) =
        (done ++ [setclrRegion set flag r]) ++ (mid ++ l) := by
      rw [ht, cons_append, modify_length, append_assoc, singleton_append]
    have hlen : done.length + 1 = (done ++ [setclrRegion set flag r]).length := by simp
    rw [length_cons, setclrLoop, hmodify, hlen, ih _ rfl]
    simp

theorem marks_map_setclr : Marks (l.map (setclrRegion set flag)) x a ↔
      ∃ b, Marks l x b ∧ a = setclrFlags set flag b := by
  constructor
  · rintro ⟨_, hmem, hx, rfl⟩
    obtain ⟨r, hr, rfl⟩ := mem_map.mp hmem
    exact ⟨r.label, ⟨r, hr, hx, rfl⟩, rfl⟩
  · rintro ⟨_, ⟨r, hr, hx, rfl⟩, rfl⟩
    exact ⟨_, mem_map.mpr ⟨r, hr, rfl⟩, hx, rfl⟩

theorem setclr_shape (set : Bool) (flag : Flags) (done mid l : List Region) :
    (done ++ (mid.map (setclrRegion set flag) ++ l)).map (fun r => (r.base, r.size)) =
      (done ++ (mid ++ l)).map fun r => (r.base, r.size) := by
  simp [setclrRegion]

/-- The table with a flag set or cleared in `[lo, hi)`. -/
structure Flagged (t : MemblockType) (lo hi : Nat) (set : Bool) (flag : Flags)
    (t' : MemblockType) : Prop where
  wellFormed : WellFormed t'
  max : t'.max = t.max
  marks : ∀ x a, Marks t'.regions x a ↔
    if lo ≤ x ∧ x < hi then
      ∃ b, Marks t.regions x b ∧ a = setclrFlags set flag b
    else Marks t.regions x a

theorem setclrLoop_isolated {e : Nat} (h : Isolated t lo hi t' s e) (set : Bool) (flag : Flags) :
    setclrLoop set flag (e - s) s t' = { t' with
      regions := clip 0 lo t.regions ++ ((clip lo hi t.regions).map (setclrRegion set flag) ++
        clip hi physAddrMax t.regions) } := by
  by_cases hnil : clip lo hi t.regions = []
  · obtain ⟨rfl, rfl⟩ := h.none hnil
    have hregions := h.regions
    rw [hnil] at hregions ⊢
    rw [map_nil, ← hregions]
    rfl
  · obtain ⟨rfl, rfl⟩ := h.some hnil
    rw [Nat.add_sub_cancel_left]
    exact setclrLoop_spec set flag _ _ h.regions

theorem marks_setclr (hstop : ∀ r ∈ l, r.stop ≤ physAddrMax) :
    Marks (clip 0 lo l ++ ((clip lo hi l).map (setclrRegion set flag) ++ clip hi physAddrMax l)) x a ↔
      if lo ≤ x ∧ x < hi then ∃ b, Marks l x b ∧ a = setclrFlags set flag b else Marks l x a := by
  have hout : Marks (clip 0 lo l) x a ∨ Marks (clip hi physAddrMax l) x a ↔
      Marks l x a ∧ ¬ (lo ≤ x ∧ x < hi) := by rw [← marks_append, marks_outside hstop]
  rw [marks_append, marks_append, marks_map_setclr, or_left_comm, hout]
  simp only [marks_clip]
  by_cases hin : lo ≤ x ∧ x < hi <;> simp [hin]

theorem Flagged.covered (h : Flagged t lo hi set flag t') (x : Nat) :
    Covered t'.regions x ↔ Covered t.regions x := by
  rw [covered_iff, covered_iff]
  constructor
  · rintro ⟨a, ha⟩
    rw [h.marks] at ha
    split_ifs at ha with hin
    · obtain ⟨b, hb, -⟩ := ha
      exact ⟨b, hb⟩
    · exact ⟨a, ha⟩
  · rintro ⟨a, ha⟩
    by_cases hin : lo ≤ x ∧ x < hi
    · exact ⟨_, (h.marks x _).mpr (by rw [if_pos hin]; exact ⟨a, ha, rfl⟩)⟩
    · exact ⟨a, (h.marks x a).mpr (by rw [if_neg hin]; exact ha)⟩

theorem memblockSetclrFlag_cases (h : WellFormed t) (hbase : base < 2 ^ 64) (size : Nat)
    (set : Bool) (flag : Flags) : (∃ t', memblockSetclrFlag t base size set flag = some (0, t') ∧
      Flagged t base (capStop base size) set flag t') ∨
    (memblockSetclrFlag t base size set flag = some (enomem, t) ∧ t.max < t.cnt + 2) := by
  rw [memblockSetclrFlag]
  rcases memblockIsolateRange_cases h hbase size with ⟨heq, hroom⟩ | ⟨heq, hnone⟩ |
    ⟨hlt, hordered, hreduced, t1, s, e, heq, hiso⟩
  · exact .inr ⟨by rw [heq]; rfl, hroom⟩
  · left
    have hmerge : ∃ t', mergeRegions t = some t' ∧ WellFormed t' ∧ t'.max = t.max ∧
        ∀ x a, Marks t'.regions x a ↔ Marks t.regions x a := by
      rcases h.regions with hdummy | ⟨hne, hordered, -⟩
      · refine ⟨t, ?_, h, rfl, fun _ _ => Iff.rfl⟩
        rw [mergeRegions, MemblockType.cnt, hdummy]
        rfl
      · exact mergeRegions_spec hne h.tally hordered h.stop_le h.cnt_le h.max_lt
    obtain ⟨t', hmerge, hwell, hmax, hmarks⟩ := hmerge
    refine ⟨t', ?_, hwell, hmax, fun x a => ?_⟩
    · rw [heq]
      exact congrArg (Option.map _) hmerge
    · rw [hmarks]
      rcases hnone with hempty | hdummy
      · rw [if_neg (by omega)]
      · simp only [hdummy, not_marks_dummy, false_and, exists_false, ite_self]
  · left
    have hle : capStop base size ≤ physAddrMax := Nat.min_le_right _ _
    generalize capStop base size = stop at *
    rw [heq]
    have hshape := setclr_shape set flag (clip 0 base t.regions) (clip base stop t.regions)
      (clip stop physAddrMax t.regions)
    have hregions := hiso.regions
    obtain ⟨t', hmerge, hwell, hmax, hmarks⟩ := mergeRegions_spec (t := { t1 with
        regions := clip 0 base t.regions ++ ((clip base stop t.regions).map (setclrRegion set flag)
          ++ clip stop physAddrMax t.regions) }) (by
        intro hempty
        obtain ⟨hbelow, hrest⟩ := append_eq_nil_iff.mp hempty
        obtain ⟨hin, habove⟩ := append_eq_nil_iff.mp hrest
        refine outside_ne_nil h.regions_ne_nil hordered h.stop_le (map_eq_nil_iff.mp hin) ?_
        rw [hbelow, habove, append_nil]) (by
        rw [MemblockType.Tally, total_relabel hshape, ← hregions]
        exact hiso.tally) ((hordered.parts hlt.le).relabel hshape) (by
        intro r hr
        rcases mem_append.mp hr with hr | hr
        · exact (stop_le_of_mem_clip hr).trans (hlt.le.trans hle)
        rcases mem_append.mp hr with hr | hr
        · obtain ⟨q, hq, rfl⟩ := mem_map.mp hr
          exact (stop_le_of_mem_clip hq).trans hle
        · exact stop_le_of_mem_clip hr) (by
        have hlen := congrArg length hshape
        simp only [length_map] at hlen
        rw [MemblockType.cnt, hlen, ← hregions]
        exact hiso.cnt_le) (hiso.max ▸ h.max_lt)
    refine ⟨t', ?_, hwell, hmax.trans hiso.max, fun x a => ?_⟩
    · simp only [ne_eq, not_true_eq_false, if_false, setclrLoop_isolated hiso, hmerge,
        Option.map_some]
    · rw [hmarks]
      exact marks_setclr h.stop_le

/-- Removing a range drops its addresses and nothing else; marking it changes the flag of its
addresses and nothing else. Neither stops at a `BUG_ON`, and without room for two more regions
neither changes the table. -/
theorem memblockRemoveRange_setclrFlag_spec (h : WellFormed t) {base : Nat}
    (hbase : base < 2 ^ 64) (size : Nat) (set : Bool) (flag : Flags) :
    (∃ ret t', memblockRemoveRange t base size = some (ret, t') ∧
      ((ret = 0 ∧ WellFormed t' ∧
        (∀ x, Covered t'.regions x ↔ Covered t.regions x ∧ ¬ (base ≤ x ∧ x < base + size)) ∧
        ∀ x a, Marks t'.regions x a → Marks t.regions x a) ∨ (ret = enomem ∧ t' = t))) ∧
    ∃ ret t', memblockSetclrFlag t base size set flag = some (ret, t') ∧
      ((ret = 0 ∧ WellFormed t' ∧ (∀ x, Covered t'.regions x ↔ Covered t.regions x) ∧
        (∀ x a, Marks t.regions x a → base ≤ x → x < base + size →
          Marks t'.regions x (setclrFlags set flag a)) ∧
        ∀ x a, ¬ (base ≤ x ∧ x < base + size) → (Marks t'.regions x a ↔ Marks t.regions x a)) ∨
      (ret = enomem ∧ t' = t)) := by
  have hcap : ∀ x, Covered t.regions x → ((base ≤ x ∧ x < capStop base size) ↔
      (base ≤ x ∧ x < base + size)) := by
    rintro x ⟨r, hr, hx⟩
    have hstop := h.stop_le r hr
    have hlt := hx.2
    unfold capStop
    omega
  constructor
  · rcases memblockRemoveRange_cases h hbase size with ⟨t', heq, hremoves⟩ | ⟨heq, -⟩
    · refine ⟨0, t', heq, .inl ⟨rfl, hremoves.wellFormed, fun x => ?_, fun x a hx =>
        ((hremoves.marks x a).mp hx).1⟩⟩
      constructor
      · intro hx
        obtain ⟨a, ha⟩ := covered_iff.mp hx
        obtain ⟨hold, hout⟩ := (hremoves.marks x a).mp ha
        have hcov := covered_iff.mpr ⟨a, hold⟩
        exact ⟨hcov, fun hin => hout ((hcap x hcov).mpr hin)⟩
      · rintro ⟨hcov, hout⟩
        obtain ⟨a, ha⟩ := covered_iff.mp hcov
        exact covered_iff.mpr ⟨a, (hremoves.marks x a).mpr
          ⟨ha, fun hin => hout ((hcap x hcov).mp hin)⟩⟩
    · exact ⟨enomem, t, heq, .inr ⟨rfl, rfl⟩⟩
  · rcases memblockSetclrFlag_cases h hbase size set flag with ⟨t', heq, hflagged⟩ | ⟨heq, -⟩
    · refine ⟨0, t', heq, .inl ⟨rfl, hflagged.wellFormed, hflagged.covered, fun x a hx hlo hhi => ?_,
        fun x a hout => ?_⟩⟩
      · have hin := (hcap x (covered_iff.mpr ⟨a, hx⟩)).mpr ⟨hlo, hhi⟩
        rw [hflagged.marks, if_pos hin]
        exact ⟨a, hx, rfl⟩
      · rw [hflagged.marks, if_neg]
        unfold capStop
        omega
    · exact ⟨enomem, t, heq, .inr ⟨rfl, rfl⟩⟩

theorem memblockRemoveRange_setclrFlag_spec_split :
    (∃ t', memblockRemoveRange ⟨4, 0x300, [⟨0x1000, 0x300, 0⟩]⟩ 0x1100 0x100 = some (0, t') ∧
      t'.regions = [⟨0x1000, 0x100, 0⟩, ⟨0x1200, 0x100, 0⟩] ∧ WellFormed t') ∧
    ∃ t', memblockSetclrFlag ⟨4, 0x300, [⟨0x1000, 0x300, 0⟩]⟩ 0x1100 0x100 true 1 = some (0, t') ∧
      t'.regions = [⟨0x1000, 0x100, 0⟩, ⟨0x1100, 0x100, 1⟩, ⟨0x1200, 0x100, 0⟩] ∧
      WellFormed t' := by
  have hwell : WellFormed ⟨4, 0x300, [⟨0x1000, 0x300, 0⟩]⟩ := by
    refine ⟨.inr ⟨cons_ne_nil _ _, ⟨?_, ?_⟩, ?_⟩, ?_, rfl, by decide, by decide⟩ <;>
      simp [Reduced, Extent.stop, physAddrMax]
  obtain ⟨⟨ret, t', heq, hcases⟩, ret1, t1, heq1, hcases1⟩ :=
    memblockRemoveRange_setclrFlag_spec hwell (show 0x1100 < 2 ^ 64 by decide) 0x100 true 1
  cases heq.symm.trans (show _ = some (0, ⟨4, 0x200, [⟨0x1000, 0x100, 0⟩, ⟨0x1200, 0x100, 0⟩]⟩) by
    decide +kernel)
  cases heq1.symm.trans (show _ = some (0, ⟨4, 0x300,
    [⟨0x1000, 0x100, 0⟩, ⟨0x1100, 0x100, 1⟩, ⟨0x1200, 0x100, 0⟩]⟩) by decide +kernel)
  constructor
  · rcases hcases with ⟨-, hwell', -⟩ | ⟨hne, -⟩
    · exact ⟨_, heq, rfl, hwell'⟩
    · cases hne
  · rcases hcases1 with ⟨-, hwell', -⟩ | ⟨hne, -⟩
    · exact ⟨_, heq1, rfl, hwell'⟩
    · cases hne

end MinixRt.Memblock
