import MinixRt.Mm.Pages

/-!
# `__mmap_memcpy_vma`

The function copies between a buffer of the kernel and the memory of a task, in one of the two
directions. It returns how many bytes it has copied: the length of the longest part of the range,
from its start on, that is mapped (`mmapMemcpyVma_spec`).

The loop over the VMAs does not end when all bytes are copied. It goes on to the next VMA, and there
the last page number is `(end - 1 - vm_start) >> PAGE_SHIFT` with `end` equal to `vm_start`, cut to
an `int`: it is -1 and no page is visited.
-/

namespace MinixRt.Mm

open Lib

structure Copying where
  /-- The linear map. -/
  mem : Store
  /-- The buffer, from its start on. -/
  buf : Store
  /-- How far `buffer` has moved. -/
  pos : Nat
  cpSize : Nat

def memcpyPage (isFromVma : Bool) (virt : Nat) (currSize : Int) (s : Copying) : Copying × Bool :=
  ({ mem := if isFromVma then s.mem else copyBytes s.mem virt s.buf s.pos (sizeT currSize)
     buf := if isFromVma then copyBytes s.buf s.pos s.mem virt (sizeT currSize) else s.buf
     pos := s.pos + sizeT currSize
     cpSize := sub64 s.cpSize (sizeT currSize) }, false)

/-- `curr_size`, for the range that ends at `stop` in page `endIndex`. -/
def memcpySize (endIndex : Int) (stop : Nat) (i : Int) (offset : Nat) : Int :=
  if i = endIndex then int32 (sub64 (sub64 stop (pageAlignDown (sub64 stop 1))) offset : Nat)
  else pageSize - offset

def memcpyVmas (isFromVma : Bool) :
    (first : Bool) → List Vma → (start stop : Nat) → Copying → Option Copying
  | _, [], _, _, s => some s
  | first, v :: vs, start, stop, s =>
    if first = false ∧ start ≠ v.vmStart then some s
    else
      let startIndex := int32 (sub64 start v.vmStart / pageSize : Nat)
      let stop := if stop > v.vmEnd then v.vmEnd else stop
      let endIndex := int32 (sub64 (sub64 stop 1) v.vmStart / pageSize : Nat)
      (eachPage v startIndex (sub64 start v.vmStart % pageSize) (memcpySize endIndex stop)
        (memcpyPage isFromVma) (endIndex + 1 - startIndex).toNat startIndex s).bind fun r =>
          memcpyVmas isFromVma false vs stop (u64 (stop + r.1.cpSize)) r.1

/-- `__mmap_memcpy_vma` for a task that does not run on `init_mm`: its result, the memory and the
buffer. -/
def mmapMemcpyVma (isFromVma : Bool) (vmas : List Vma) (addr size : Nat) (mem buf : Store) :
    Option (Int × Store × Store) :=
  if size = 0 then some (-einval, mem, buf)
  else
    (memcpyVmas isFromVma true (currVmas addr vmas) addr (u64 (addr + size))
      ⟨mem, buf, 0, size⟩).map fun s => (int32 (sub64 size s.cpSize : Nat), s.mem, s.buf)

section Memcpy

variable {isFromVma : Bool} {vmas vs : List Vma} {v : Vma} {start stop : Nat}

/-! ## The loops -/

theorem cutsPages_memcpySize (h : Complete vmas) (hv : v ∈ vmas) (hlt : v.vmStart < stop)
    (hstop : stop ≤ v.vmEnd) : CutsPages v start stop
      (memcpySize (int32 (sub64 (sub64 stop 1) v.vmStart / pageSize : Nat)) stop) := by
  intro k o ho _ hk
  have hbelow := h.below v hv
  obtain ⟨c, hc⟩ := (h.sized v hv).start
  have hone : sub64 stop 1 = stop - 1 := sub64_of_le (by omega) (by omega)
  rw [sub64_vmEnd h hv hlt hstop, int32_of_lt (index_lt h hv (by omega)), memcpySize, hone]
  have hdown : pageAlignDown (stop - 1) ≤ stop - 1 := Nat.div_mul_le_self _ _
  have hrest : sub64 stop (pageAlignDown (stop - 1)) = stop - pageAlignDown (stop - 1) :=
    sub64_of_le (by omega) (by omega)
  rw [hrest]
  by_cases hlast : k = (stop - 1 - v.vmStart) / pageSize
  · rw [if_pos (by rw [hlast])]
    have hsize : sub64 (stop - pageAlignDown (stop - 1)) o =
        min (pageSize - o) (stop - (v.vmStart + k * pageSize + o)) := by
      unfold pageAlignDown pageSize at *
      rw [sub64_of_le (by omega) (by omega)]
      omega
    rw [hsize, int32_of_lt]
    unfold pageSize
    omega
  · rw [if_neg (by exact_mod_cast hlast)]
    unfold pageSize at *
    omega

variable {s : Copying}

theorem overChunks_memcpyPage {loc : Nat → Option Nat} {a z : Nat} {cs : List (Nat × Nat)}
    (h : Chain loc a z cs) (hs : z - a ≤ s.cpSize) (hlt : s.cpSize < 2 ^ 64) :
    overChunks (chunkBody (memcpyPage isFromVma)) cs s =
      (⟨if isFromVma then s.mem else scatter s.buf cs s.mem s.pos,
        if isFromVma then gather s.mem cs s.buf s.pos else s.buf,
        s.pos + (z - a), s.cpSize - (z - a)⟩, false) := by
  induction cs generalizing a s with
  | nil =>
    obtain rfl : a = z := h
    obtain ⟨mem, buf, pos, cpSize⟩ := s
    simp [overChunks, scatter, gather]
  | cons c cs ih =>
    have hle := h.2.2.le
    have hsub : sub64 s.cpSize c.2 = s.cpSize - c.2 := sub64_of_le (by omega) hlt
    have hstep : chunkBody (memcpyPage isFromVma) c.1 c.2 s =
        (⟨if isFromVma then s.mem else copyBytes s.mem c.1 s.buf s.pos c.2,
          if isFromVma then copyBytes s.buf s.pos s.mem c.1 c.2 else s.buf,
          s.pos + c.2, s.cpSize - c.2⟩, false) := by
      rw [chunkBody, memcpyPage, sizeT_natCast (by omega), hsub]
    rw [overChunks, hstep]
    dsimp only
    rw [ih h.2.2 (by dsimp only; omega) (by dsimp only; omega)]
    have hpos : s.pos + c.2 + (z - (a + c.2)) = s.pos + (z - a) := by omega
    have hleft : s.cpSize - c.2 - (z - (a + c.2)) = s.cpSize - (z - a) := by omega
    cases isFromVma <;> simp [hpos, hleft, scatter, gather]

theorem memcpyVmas_done (hstart : start < 2 ^ 64) (hs : s.cpSize = 0)
    (hsized : ∀ v ∈ vs, v.vmStart ≤ v.vmEnd) (first : Bool) (hfirst : first = false) :
    memcpyVmas isFromVma first vs start start s = some s := by
  induction vs generalizing first with
  | nil => rfl
  | cons v vs ih =>
    subst hfirst
    rw [memcpyVmas]
    by_cases hne : start = v.vmStart
    · have hle := hsized v (.head _)
      have hlast : sub64 (sub64 start 1) v.vmStart = 2 ^ 64 - 1 := by
        unfold sub64 u64
        omega
      rw [if_neg (by simp [hne])]
      dsimp only
      rw [if_neg (by omega), hlast, sub64_of_le (by omega) hstart, hne, Nat.sub_self]
      have hend : int32 ((2 ^ 64 - 1) / pageSize : Nat) = -1 := by decide
      have hzero : int32 (0 / pageSize : Nat) = 0 := by decide
      rw [hend, hzero]
      have hround : (-1 + 1 - 0 : Int).toNat = 0 := rfl
      rw [hround, eachPage, Option.bind_some, hs, Nat.add_zero, ← hne,
        show u64 start = start from Nat.mod_eq_of_lt hstart]
      exact ih (fun u hu => hsized u (.tail _ hu)) false rfl
    · rw [if_pos ⟨rfl, hne⟩]

variable {first : Bool} {n : Nat}

theorem memcpyVmas_round (vs : List Vma) (h : Complete vmas) (hv : v ∈ vmas)
    (hfirst : first = true ∨ start = v.vmStart) (hstart : v.vmStart ≤ start) (hlt : start < v.vmEnd)
    (hn : 0 < n) : ∃ cs, Chain (userLoc vmas) start (min v.vmEnd (start + n)) cs ∧
      ∀ s, memcpyVmas isFromVma first (v :: vs) start (start + n) s =
        memcpyVmas isFromVma false vs (min v.vmEnd (start + n)) (u64 (min v.vmEnd (start + n) +
            (overChunks (chunkBody (memcpyPage isFromVma)) cs s).1.cpSize))
          (overChunks (chunkBody (memcpyPage isFromVma)) cs s).1 := by
  have hmin : (if start + n > v.vmEnd then v.vmEnd else start + n) = min v.vmEnd (start + n) := by
    split_ifs <;> omega
  obtain ⟨cs, hchain, -, -, hpages⟩ := eachPage_range (memcpyPage isFromVma) h hv hstart
    (show start < min v.vmEnd (start + n) by omega) (Nat.min_le_left _ _)
    (cutsPages_memcpySize h hv (by omega) (Nat.min_le_left _ _))
  refine ⟨cs, hchain, fun s => ?_⟩
  rw [memcpyVmas, if_neg (by rintro ⟨rfl, hne⟩; exact hne (hfirst.resolve_left nofun))]
  dsimp only
  rw [hmin, hpages s, Option.bind_some]

theorem memcpyVmas_chain {pre : List Vma} (h : Complete (pre ++ v :: vs))
    (hfirst : first = true ∨ start = v.vmStart) (hstart : v.vmStart ≤ start) (hlt : start < v.vmEnd)
    (hn : 0 < n) (hwrap : start + n < 2 ^ 64) :
    ∃ z cs, Chain (userLoc (pre ++ v :: vs)) start z cs ∧ z ≤ start + n ∧
      (z < start + n → userLoc (pre ++ v :: vs) z = none) ∧
      ∀ s, s.cpSize = n → memcpyVmas isFromVma first (v :: vs) start (start + n) s =
        some (overChunks (chunkBody (memcpyPage isFromVma)) cs s).1 := by
  induction vs generalizing pre v first start n with
  | nil =>
    obtain ⟨cs, hchain, hround⟩ := memcpyVmas_round [] h (by simp) hfirst hstart hlt hn
    refine ⟨_, cs, hchain, Nat.min_le_right _ _, fun hz => ?_, fun s _ => hround s⟩
    rw [show min v.vmEnd (start + n) = v.vmEnd by omega]
    exact h.userLoc_vmEnd nofun
  | cons u us ih =>
    obtain ⟨cs, hchain, hround⟩ := memcpyVmas_round (u :: us) h (by simp) hfirst hstart hlt hn
    have hcopied : ∀ s : Copying, s.cpSize = n →
        (overChunks (chunkBody (memcpyPage isFromVma)) cs s).2 = false ∧
        (overChunks (chunkBody (memcpyPage isFromVma)) cs s).1.cpSize =
          start + n - min v.vmEnd (start + n) := by
      intro s hs
      rw [overChunks_memcpyPage hchain (by omega) (by omega), hs]
      exact ⟨rfl, by dsimp only; omega⟩
    have hsized : ∀ w ∈ u :: us, w.vmStart ≤ w.vmEnd := fun w hw =>
      (h.sized w (by simp [List.mem_cons.mp hw])).lt.le
    by_cases hall : start + n ≤ v.vmEnd
    · -- the range ends in this VMA
      rw [Nat.min_eq_right hall] at hchain hround hcopied
      refine ⟨_, cs, hchain, le_rfl, fun hz => absurd hz (lt_irrefl _), fun s hs => ?_⟩
      have hzero := (hcopied s hs).2
      rw [Nat.sub_self] at hzero
      rw [hround, hzero, Nat.add_zero, show u64 (start + n) = start + n from Nat.mod_eq_of_lt hwrap]
      exact memcpyVmas_done hwrap hzero hsized false rfl
    · rw [Nat.min_eq_left (by omega)] at hchain hround hcopied
      have hstop : ∀ s : Copying, s.cpSize = n → u64 (v.vmEnd +
          (overChunks (chunkBody (memcpyPage isFromVma)) cs s).1.cpSize) = start + n := by
        intro s hs
        rw [(hcopied s hs).2, show v.vmEnd + (start + n - v.vmEnd) = start + n by omega]
        exact Nat.mod_eq_of_lt hwrap
      by_cases hnext : v.vmEnd = u.vmStart
      · have hu := (h.sized u (by simp)).lt
        have happend : pre ++ v :: u :: us = (pre ++ [v]) ++ u :: us := by simp
        have hsum : v.vmEnd + (start + n - v.vmEnd) = start + n := by omega
        obtain ⟨z, ds, hchain', hz, hnone, hrest⟩ :=
          ih (happend ▸ h) (show false = true ∨ v.vmEnd = u.vmStart from .inr hnext) hnext.ge
            (hnext ▸ hu) (show 0 < start + n - v.vmEnd by omega) (by rwa [hsum])
        rw [← happend] at hchain' hnone
        rw [hsum] at hz hnone hrest
        refine ⟨z, _, hchain.append hchain', hz, hnone, fun s hs => ?_⟩
        rw [hround, hstop s hs, hrest _ (hcopied s hs).2, overChunks_append]
        have hgo := (hcopied s hs).1
        generalize overChunks (chunkBody (memcpyPage isFromVma)) cs s = r at hgo
        obtain ⟨s', b⟩ := r
        cases hgo
        rfl
      · refine ⟨_, cs, hchain, by omega, fun _ => h.userLoc_vmEnd ?_, fun s hs => ?_⟩
        · rintro _ _ ⟨⟩
          exact hnext
        · rw [hround, hstop s hs, memcpyVmas, if_pos ⟨rfl, hnext⟩]

theorem mmapMemcpyVma_chain (isFromVma : Bool) (h : Complete vmas) {addr size : Nat}
    (hsize : 0 < size) (hlt : size < 2 ^ 31) (hwrap : addr + size < 2 ^ 64) :
    ∃ z cs, Chain (userLoc vmas) addr z cs ∧ z ≤ addr + size ∧
      (z < addr + size → userLoc vmas z = none) ∧
      ∀ mem buf, mmapMemcpyVma isFromVma vmas addr size mem buf =
        some (((z - addr : Nat) : Int), if isFromVma then mem else scatter buf cs mem 0,
          if isFromVma then gather mem cs buf 0 else buf) := by
  have hend : u64 (addr + size) = addr + size := Nat.mod_eq_of_lt hwrap
  have hloop : ∃ z cs, Chain (userLoc vmas) addr z cs ∧ z ≤ addr + size ∧
      (z < addr + size → userLoc vmas z = none) ∧
      ∀ s : Copying, s.cpSize = size →
        memcpyVmas isFromVma true (currVmas addr vmas) addr (addr + size) s =
          some (overChunks (chunkBody (memcpyPage isFromVma)) cs s).1 := by
    cases hfind : findVmaArea addr vmas with
    | none =>
      refine ⟨addr, [], rfl, Nat.le_add_right _ _, fun _ => h.userLoc_eq_none.mpr hfind,
        fun s _ => ?_⟩
      rw [currVmas, hfind]
      rfl
    | some v =>
      obtain ⟨hv, hstart, hlt⟩ := findVmaArea_some hfind
      obtain ⟨pre, vs, rfl⟩ := List.append_of_mem hv
      have hcurr : currVmas addr (pre ++ v :: vs) = v :: vs := by
        rw [currVmas, hfind]
        exact h.filter_start_le
      rw [hcurr]
      exact memcpyVmas_chain h (.inl rfl) hstart hlt hsize hwrap
  obtain ⟨z, cs, hchain, hz, hnone, hcopy⟩ := hloop
  refine ⟨z, cs, hchain, hz, hnone, fun mem buf => ?_⟩
  have hle := hchain.le
  rw [mmapMemcpyVma, if_neg (by omega), hend, hcopy _ rfl,
    overChunks_memcpyPage hchain (by dsimp only; omega) (by dsimp only; omega)]
  have hret : sub64 size (size - (z - addr)) = z - addr := by
    rw [sub64_of_le (by omega) (by omega)]
    omega
  simp only [Option.map_some, hret]
  rw [int32_of_lt (by omega)]

/-! ## The copy -/

theorem eq_of_page_eq (hdistinct : (vmas.flatMap Vma.pages).Nodup) {u : Vma} (hv : v ∈ vmas)
    (hu : u ∈ vmas) {k l : Nat} {p : Page} (hk : v.pages[k]? = some (some p))
    (hl : u.pages[l]? = some (some p)) : v = u ∧ k = l := by
  obtain ⟨hnodup, hdisjoint⟩ := List.nodup_flatMap.mp hdistinct
  have hvu : v = u := by
    by_contra hne
    have hsymm : Std.Symm (Function.onFun List.Disjoint Vma.pages) :=
      ⟨fun _ _ h => List.Disjoint.symm h⟩
    exact hdisjoint.forall hv hu hne (List.mem_of_getElem? hk) (List.mem_of_getElem? hl)
  subst hvu
  obtain ⟨hklt, hk⟩ := List.getElem?_eq_some_iff.mp hk
  obtain ⟨hllt, hl⟩ := List.getElem?_eq_some_iff.mp hl
  exact ⟨rfl, (hnodup v hv).getElem_inj_iff.mp (hk.trans hl.symm)⟩

theorem userLoc_injective (h : Complete vmas) (hdistinct : (vmas.flatMap Vma.pages).Nodup)
    (a b y : Nat) (ha : userLoc vmas a = some y) (hb : userLoc vmas b = some y) : a = b := by
  have hplace : ∀ {a}, userLoc vmas a = some y → ∃ v ∈ vmas, v.vmStart ≤ a ∧
      v.pages[(a - v.vmStart) / pageSize]? = some (some (y / pageSize)) ∧
      a % pageSize = y % pageSize := by
    intro a ha
    obtain ⟨v, hfind, hpage⟩ := Option.bind_eq_some_iff.mp ha
    obtain ⟨hv, hstart, -⟩ := findVmaArea_some hfind
    obtain ⟨p, hp, rfl⟩ := Option.map_eq_some_iff.mp hpage
    have hmod := Nat.mod_lt a (show 0 < pageSize by decide)
    have hdiv : (p * pageSize + a % pageSize) / pageSize = p := by
      unfold pageSize at *
      omega
    refine ⟨v, hv, hstart, ?_, ?_⟩
    · rw [hdiv]
      exact Option.join_eq_some_iff.mp hp
    · unfold pageSize
      omega
  obtain ⟨v, hv, hva, hpage, hoff⟩ := hplace ha
  obtain ⟨u, hu, hub, hpage', hoff'⟩ := hplace hb
  obtain ⟨rfl, hindex⟩ := eq_of_page_eq hdistinct hv hu hpage hpage'
  obtain ⟨c, hc⟩ := (h.sized v hv).start
  unfold pageSize at *
  omega

/-- A copy between a buffer and the memory of a task returns the length `n` of the longest part of
the range, from its start on, that is mapped. It copies these `n` bytes and changes nothing else. A
copy in and a copy out give the bytes back. -/
theorem mmapMemcpyVma_spec (h : Complete vmas) (hdistinct : (vmas.flatMap Vma.pages).Nodup)
    {addr size : Nat} (hsize : 0 < size) (hlt : size < 2 ^ 31) (hwrap : addr + size < 2 ^ 64) :
    ∃ n ≤ size, (∀ i < n, findVmaArea (addr + i) vmas ≠ none) ∧
      (n < size → findVmaArea (addr + n) vmas = none) ∧
      (∀ mem buf, ∃ buf', mmapMemcpyVma true vmas addr size mem buf = some ((n : Int), mem, buf') ∧
        (∀ i < n, ∃ y, userLoc vmas (addr + i) = some y ∧ buf' i = mem y) ∧
        ∀ x, n ≤ x → buf' x = buf x) ∧
      (∀ mem buf, ∃ mem', mmapMemcpyVma false vmas addr size mem buf =
          some ((n : Int), mem', buf) ∧
        (∀ i < n, ∃ y, userLoc vmas (addr + i) = some y ∧ mem' y = buf i) ∧
        ∀ y, (∀ i < n, userLoc vmas (addr + i) ≠ some y) → mem' y = mem y) ∧
      ∀ mem buf mem' buf₁ buf₂ : Store,
        mmapMemcpyVma false vmas addr size mem buf = some ((size : Int), mem', buf) →
        mmapMemcpyVma true vmas addr size mem' buf₁ = some ((size : Int), mem', buf₂) →
        ∀ i < size, buf₂ i = buf i := by
  have hinj := userLoc_injective h hdistinct
  obtain ⟨z, cs, hchain, hz, hnone, hfrom⟩ := mmapMemcpyVma_chain true h hsize hlt hwrap
  obtain ⟨z', cs', hchain', hz', hnone', hto⟩ := mmapMemcpyVma_chain false h hsize hlt hwrap
  have hle := hchain.le
  have hend : z' = z := by
    have hmapped : ∀ {z z' cs}, Chain (userLoc vmas) addr z cs → z ≤ addr + size →
        addr ≤ z' → (z' < addr + size → userLoc vmas z' = none) → z ≤ z' := by
      intro z z' cs hchain hz hle' hnone'
      by_contra hlt
      have := hchain.mapped (show addr + (z' - addr) < z by omega)
      rw [Nat.add_sub_of_le hle'] at this
      exact this (hnone' (by omega))
    exact le_antisymm (hmapped hchain' hz' hle hnone) (hmapped hchain hz hchain'.le hnone')
  subst hend
  have hlen : ∀ {i}, i < z' - addr → addr + i < z' := by omega
  have hloc : ∀ {i}, i < z' - addr → ∃ y, userLoc vmas (addr + i) = some y := fun hi =>
    Option.ne_none_iff_exists'.mp (hchain.mapped (hlen hi))
  refine ⟨z' - addr, by omega, fun i hi => ?_, fun hn => ?_, fun mem buf => ?_, fun mem buf => ?_, ?_⟩
  · exact fun hfind => hchain.mapped (hlen hi) (h.userLoc_eq_none.mpr hfind)
  · rw [Nat.add_sub_of_le hle]
    exact h.userLoc_eq_none.mp (hnone (by omega))
  · refine ⟨_, hfrom mem buf, fun i hi => ?_, fun x hx => ?_⟩
    · obtain ⟨y, hy⟩ := hloc hi
      have hin : gather mem cs buf 0 (0 + i) = mem y := hchain.gather_in (hlen hi) hy
      rw [Nat.zero_add] at hin
      exact ⟨y, hy, hin⟩
    · exact hchain.gather_out (.inr (by omega))
  · refine ⟨_, hto mem buf, fun i hi => ?_, fun y hy => ?_⟩
    · obtain ⟨y, hy⟩ := hloc hi
      have hin : scatter buf cs' mem 0 y = buf (0 + i) := hchain'.scatter_in hinj (hlen hi) hy
      rw [Nat.zero_add] at hin
      exact ⟨y, hy, hin⟩
    · exact hchain'.scatter_out fun i hi => hy i (by omega)
  · intro mem buf mem' buf₁ buf₂ hin hout i hi
    rw [hto mem buf] at hin
    rw [hfrom mem' buf₁] at hout
    obtain ⟨hall, rfl⟩ : z' - addr = size ∧ scatter buf cs' mem 0 = mem' := by
      simpa using hin
    obtain ⟨-, rfl⟩ : z' - addr = size ∧ gather (scatter buf cs' mem 0) cs buf₁ 0 = buf₂ := by
      simpa using hout
    obtain ⟨y, hy⟩ := hloc (hall ▸ hi)
    have hread : gather (scatter buf cs' mem 0) cs buf₁ 0 (0 + i) = scatter buf cs' mem 0 y :=
      hchain.gather_in (hlen (hall ▸ hi)) hy
    have hwritten : scatter buf cs' mem 0 y = buf (0 + i) :=
      hchain'.scatter_in hinj (hlen (hall ▸ hi)) hy
    rw [Nat.zero_add] at hread hwritten
    rw [hread, hwritten]

end Memcpy

/-- Two VMAs of a page each, without a gap between them. -/
def twoVmas : List Vma :=
  [⟨0x1000, 0x2000, 0, 0, [some 7], [], fun _ => ∅⟩,
    ⟨0x2000, 0x3000, 0, 0, [some 3], [], fun _ => ∅⟩]

theorem twoVmas_complete : Complete twoVmas := by
  have hall : ∀ {P : Vma → Prop}, P twoVmas[0] → P twoVmas[1] → ∀ v ∈ twoVmas, P v := by
    intro P h0 h1 v hv
    rcases List.mem_cons.mp hv with rfl | hv
    · exact h0
    · rwa [List.mem_singleton.mp hv]
  refine ⟨hall ?_ ?_, hall ?_ ?_, ?_, hall ?_ ?_, hall ?_ ?_⟩
  · exact ⟨by decide, by decide, by decide, by decide⟩
  · exact ⟨by decide, by decide, by decide, by decide⟩
  · decide
  · decide
  · simp [twoVmas]
  · rfl
  · rfl
  · decide
  · decide

/-- A copy over the boundary of two VMAs. -/
theorem mmapMemcpyVma_spec_twoVmas : ∃ n ≤ 32, (n < 32 → findVmaArea (0x1ff0 + n) twoVmas = none) ∧
    ∀ mem buf, ∃ mem', mmapMemcpyVma false twoVmas 0x1ff0 32 mem buf = some ((n : Int), mem', buf) ∧
      ∀ i < n, ∃ y, userLoc twoVmas (0x1ff0 + i) = some y ∧ mem' y = buf i := by
  obtain ⟨n, hn, -, hnone, -, hto, -⟩ := mmapMemcpyVma_spec twoVmas_complete (by decide)
    (show 0 < 32 by decide) (by decide) (show 0x1ff0 + 32 < 2 ^ 64 by decide)
  refine ⟨n, hn, hnone, fun mem buf => ?_⟩
  obtain ⟨mem', hcopy, hbytes, -⟩ := hto mem buf
  exact ⟨mem', hcopy, hbytes⟩

end MinixRt.Mm
