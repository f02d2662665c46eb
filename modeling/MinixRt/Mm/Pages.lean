import MinixRt.Lib.Chunks
import MinixRt.Mm.SpaceRep

/-!
# Going through the memory of a task page by page

`__mmap_memcpy_vma`, `__mmap_strcpy_vma` and `mmap_strnlen_vma` all go through the VMAs from the one
of the first address on, as long as they follow each other without a gap, and through the pages of
each VMA. They reach a page in the linear map of the kernel, where page `p` is the addresses from
`p * pageSize` on, so protections do not matter.

The page numbers are of type `int`. On VMAs that have a page for every address the loops are loops
over the chunks of a range (`eachVma_chain`).
-/

namespace MinixRt.Mm

open List Lib

/-- A value of type `int`. -/
def int32 (n : Int) : Int := Int.bmod n (2 ^ 32)

/-- An `int` as `size_t`. -/
def sizeT (n : Int) : Nat := (n % 2 ^ 64).toNat

theorem int32_of_lt {n : Nat} (h : n < 2 ^ 31) : int32 n = n := by
  unfold int32 Int.bmod
  dsimp only
  split <;> omega

theorem sizeT_natCast {n : Nat} (h : n < 2 ^ 64) : sizeT n = n := by
  unfold sizeT
  omega

/-- `vma->pages[i]`; `none` is a read outside of the array or a `NULL`. -/
def Vma.pageAt (v : Vma) (i : Int) : Option Page :=
  if i < 0 then none else v.pages[i.toNat]?.join

/-- The loop over the pages of a VMA, which starts inside page `startIndex`. The body gets the
address in the linear map and `curr_size`, and says whether the loops are to be left. -/
def eachPage {σ : Type} (v : Vma) (startIndex : Int) (startOffset : Nat)
    (currSize : Int → Nat → Int) (body : Nat → Int → σ → σ × Bool) :
    (rounds : Nat) → Int → σ → Option (σ × Bool)
  | 0, _, s => some (s, false)
  | rounds + 1, i, s =>
    match v.pageAt i with
    | none => none
    | some page =>
      let offset := if i = startIndex then startOffset else 0
      match body (page * pageSize + offset) (currSize i offset) s with
      | (s, true) => some (s, true)
      | (s, false) => eachPage v startIndex startOffset currSize body rounds (i + 1) s

/-- What follows on the inner loop: the outer loop goes on unless it is left. -/
def unlessLeft {σ : Type} (r : Option (σ × Bool)) (next : σ → Option σ) : Option σ :=
  r.bind fun r => if r.2 then some r.1 else next r.1

/-- The loop of `__mmap_strcpy_vma` and of `mmap_strnlen_vma` over the VMAs. `first` is set for the
VMA that was looked up. -/
def eachVma {σ : Type} (body : Nat → Int → σ → σ × Bool) :
    (first : Bool) → List Vma → (start : Nat) → σ → Option σ
  | _, [], _, s => some s
  | first, v :: vs, start, s =>
    if first = false ∧ start ≠ v.vmStart then some s
    else
      let startIndex := int32 (sub64 start v.vmStart / pageSize : Nat)
      let endIndex := int32 (sub64 (sub64 v.vmEnd 1) v.vmStart / pageSize : Nat)
      unlessLeft
        (eachPage v startIndex (sub64 start v.vmStart % pageSize)
          (fun _ offset => pageSize - offset) body (endIndex + 1 - startIndex).toNat startIndex s)
        fun s => eachVma body false vs v.vmEnd s

/-- The VMA that was looked up and those behind it. -/
def currVmas (addr : Nat) (vmas : List Vma) : List Vma :=
  match findVmaArea addr vmas with
  | none => []
  | some v => vmas.filter fun u => v.vmStart ≤ u.vmStart

/-! ## The memory of a task -/

/-- The VMAs of a task: in order, with a page for every address. -/
structure Complete (vmas : List Vma) : Prop where
  sized : ∀ v ∈ vmas, v.Sized
  below : ∀ v ∈ vmas, v.vmEnd ≤ 2 ^ 48
  ordered : vmas.Pairwise fun u v => u.vmEnd ≤ v.vmStart
  counted : ∀ v ∈ vmas, v.Counted
  pages : ∀ v ∈ vmas, none ∉ v.pages

/-- The place of an address of the task in the linear map. -/
def userLoc (vmas : List Vma) (a : Nat) : Option Nat :=
  (findVmaArea a vmas).bind fun v =>
    v.pages[(a - v.vmStart) / pageSize]?.join.map fun p => p * pageSize + a % pageSize

section Complete

variable {vmas vs : List Vma} {v : Vma} {a : Nat}

theorem Complete.find (h : Complete vmas) (hv : v ∈ vmas) (h1 : v.vmStart ≤ a) (h2 : a < v.vmEnd) :
    findVmaArea a vmas = some v :=
  findVmaArea_of_mem (fun u hu => (h.sized u hu).lt) h.ordered hv h1 h2

theorem Complete.filter_start_le {pre : List Vma} (h : Complete (pre ++ v :: vs)) :
    ((pre ++ v :: vs).filter fun u => v.vmStart ≤ u.vmStart) = v :: vs := by
  obtain ⟨-, hvs, hpre⟩ := pairwise_append.mp h.ordered
  have hlt := (h.sized v (by simp)).lt
  rw [filter_append, filter_eq_nil_iff.mpr, nil_append, filter_eq_self]
  · intro u hu
    rcases mem_cons.mp hu with rfl | hu
    · exact decide_eq_true le_rfl
    · have := (pairwise_cons.mp hvs).1 u hu
      exact decide_eq_true (by omega)
  · intro u hu
    have := hpre u hu v (.head _)
    have := (h.sized u (mem_append_left _ hu)).lt
    simp only [decide_eq_true_eq]
    omega

theorem Complete.exists_page (h : Complete vmas) (hv : v ∈ vmas) {k : Nat}
    (hk : v.vmStart + k * pageSize < v.vmEnd) : ∃ p, v.pages[k]? = some (some p) := by
  have hlt : k < v.pages.length := by
    have hcount := h.counted v hv
    unfold Vma.Counted Vma.nrPages at hcount
    obtain ⟨c, hc⟩ := (h.sized v hv).start
    obtain ⟨d, hd⟩ := (h.sized v hv).stop
    unfold pageSize at *
    omega
  rw [getElem?_eq_getElem hlt]
  cases hp : v.pages[k] with
  | none => exact absurd (hp ▸ getElem_mem hlt) (h.pages v hv)
  | some p => exact ⟨p, rfl⟩

theorem Complete.userLoc_eq_none (h : Complete vmas) :
    userLoc vmas a = none ↔ findVmaArea a vmas = none := by
  unfold userLoc
  cases hfind : findVmaArea a vmas with
  | none => exact ⟨fun _ => rfl, fun _ => rfl⟩
  | some v =>
    obtain ⟨hv, h1, h2⟩ := findVmaArea_some hfind
    obtain ⟨p, hp⟩ := h.exists_page hv (k := (a - v.vmStart) / pageSize)
      (by unfold pageSize; omega)
    simp [hp]

theorem Complete.userLoc_page (h : Complete vmas) (hv : v ∈ vmas) {k o i : Nat} {p : Page}
    (hp : v.pages[k]? = some (some p)) (ho : o + i < pageSize)
    (hk : v.vmStart + k * pageSize < v.vmEnd) :
    userLoc vmas (v.vmStart + k * pageSize + o + i) = some (p * pageSize + o + i) := by
  obtain ⟨c, hc⟩ := (h.sized v hv).start
  obtain ⟨d, hd⟩ := (h.sized v hv).stop
  have hin : v.vmStart + k * pageSize + o + i < v.vmEnd := by
    unfold pageSize at *
    omega
  have hindex : (v.vmStart + k * pageSize + o + i - v.vmStart) / pageSize = k := by
    unfold pageSize at *
    omega
  have hoff : (v.vmStart + k * pageSize + o + i) % pageSize = o + i := by
    unfold pageSize at *
    omega
  rw [userLoc, h.find hv (by omega) hin, Option.bind_some, hindex, hp, hoff, Nat.add_assoc]
  rfl

end Complete

/-! ## The loops as loops over chunks -/

section Loops

variable {σ : Type} {vmas vs : List Vma} {v : Vma} {start stop : Nat}
  {currSize : Int → Nat → Int} (body : Nat → Int → σ → σ × Bool)

def chunkBody (x n : Nat) (s : σ) : σ × Bool := body x n s

/-- `curr_size` is the part of page `k` between `start` and `stop`. -/
def CutsPages (v : Vma) (start stop : Nat) (currSize : Int → Nat → Int) : Prop :=
  ∀ k o : Nat, o < pageSize → start ≤ v.vmStart + k * pageSize + o →
    v.vmStart + k * pageSize + o < stop →
    currSize k o = (min (pageSize - o) (stop - (v.vmStart + k * pageSize + o)) : Nat)

section

variable (h : Complete vmas) (hv : v ∈ vmas)
include h hv

theorem eachPage_chain (hstop : stop ≤ v.vmEnd) {i0 o0 : Nat}
    (hcuts : CutsPages v start stop currSize) {rounds k o : Nat} (hk : i0 ≤ k)
    (ho : o = if k = i0 then o0 else 0) (hsize : o < pageSize)
    (hstart : start ≤ v.vmStart + k * pageSize + o) (hlt : v.vmStart + k * pageSize + o < stop)
    (hrounds : rounds = (stop - 1 - v.vmStart) / pageSize + 1 - k) :
    ∃ cs, Chain (userLoc vmas) (v.vmStart + k * pageSize + o) stop cs ∧
      (∃ x cs', cs = (x, min (pageSize - o) (stop - (v.vmStart + k * pageSize + o))) :: cs') ∧
      (∀ c ∈ cs, c.2 ≤ pageSize) ∧ ∀ s, eachPage v i0 o0 currSize body rounds k s =
        some (overChunks (chunkBody body) cs s) := by
  induction rounds generalizing k o with
  | zero =>
    unfold pageSize at *
    omega
  | succ rounds ih =>
    obtain ⟨p, hp⟩ := h.exists_page hv (k := k) (by omega)
    have hpage : v.pageAt k = some p := by
      rw [Vma.pageAt, if_neg (by omega), Int.toNat_natCast, hp]
      rfl
    have hoff : (if (k : Int) = i0 then o0 else 0) = o := by
      rw [ho]
      simp only [Nat.cast_inj]
    have hcurr := hcuts k o hsize hstart hlt
    have hloc : ∀ i < min (pageSize - o) (stop - (v.vmStart + k * pageSize + o)),
        userLoc vmas (v.vmStart + k * pageSize + o + i) = some (p * pageSize + o + i) := by
      intro i hi
      exact h.userLoc_page hv hp (by omega) (by omega)
    have hround : ∀ s, eachPage v i0 o0 currSize body (rounds + 1) k s =
        match chunkBody body (p * pageSize + o)
          (min (pageSize - o) (stop - (v.vmStart + k * pageSize + o))) s with
        | (s, true) => some (s, true)
        | (s, false) => eachPage v i0 o0 currSize body rounds (k + 1 : Nat) s := by
      intro s
      rw [eachPage, hpage]
      dsimp only
      rw [hoff, hcurr]
      rfl
    by_cases hlast : stop ≤ v.vmStart + (k + 1) * pageSize
    · -- the last page
      have hend : v.vmStart + k * pageSize + o +
          min (pageSize - o) (stop - (v.vmStart + k * pageSize + o)) = stop := by
        rw [Nat.succ_mul] at hlast
        omega
      have hdone : rounds = 0 := by
        unfold pageSize at *
        omega
      refine ⟨[(p * pageSize + o, min (pageSize - o) (stop - (v.vmStart + k * pageSize + o)))],
        ⟨by omega, hloc, hend⟩, ⟨_, _, rfl⟩, ?_, fun s => ?_⟩
      · intro c hc
        rw [mem_singleton.mp hc]
        dsimp only
        omega
      rw [hround, hdone, overChunks]
      generalize chunkBody body _ _ s = r
      obtain ⟨s', _ | _⟩ := r
      all_goals rfl
    · have hnext : v.vmStart + k * pageSize + o +
          min (pageSize - o) (stop - (v.vmStart + k * pageSize + o)) =
          v.vmStart + (k + 1) * pageSize + 0 := by
        rw [Nat.succ_mul] at hlast ⊢
        omega
      obtain ⟨cs, hchain, -, hsizes, hloop⟩ := ih (k := k + 1) (o := 0) (by omega)
        (by rw [if_neg (by omega)]) (by decide) (by rw [Nat.succ_mul]; omega) (by omega)
        (by omega)
      refine ⟨_ :: cs, ⟨by omega, hloc, ?_⟩, ⟨_, _, rfl⟩, ?_, fun s => ?_⟩
      · rw [hnext]
        exact hchain
      · intro c hc
        rcases mem_cons.mp hc with rfl | hc
        · dsimp only
          omega
        · exact hsizes c hc
      · rw [hround, overChunks]
        generalize chunkBody body _ _ s = r
        obtain ⟨s', _ | _⟩ := r
        · exact hloop s'
        · rfl

theorem sub64_vmEnd (hlt : v.vmStart < stop)
    (hstop : stop ≤ v.vmEnd) : sub64 (sub64 stop 1) v.vmStart = stop - 1 - v.vmStart := by
  have hbelow := h.below v hv
  have hone : sub64 stop 1 = stop - 1 := sub64_of_le (by omega) (by omega)
  rw [hone, sub64_of_le (by omega) (by omega)]

theorem index_lt {a : Nat} (ha : a < v.vmEnd) :
    (a - v.vmStart) / pageSize < 2 ^ 31 := by
  have hshort := (h.sized v hv).short
  rw [h.counted v hv] at hshort
  exact (Nat.div_le_div_right (by omega)).trans_lt hshort

theorem eachPage_range (hstart : v.vmStart ≤ start)
    (hlt : start < stop) (hstop : stop ≤ v.vmEnd) (hcuts : CutsPages v start stop currSize) :
    ∃ cs, Chain (userLoc vmas) start stop cs ∧
      (∃ x cs', cs = (x, min (pageSize - start % pageSize) (stop - start)) :: cs') ∧
      (∀ c ∈ cs, c.2 ≤ pageSize) ∧ ∀ s, eachPage v (int32 (sub64 start v.vmStart / pageSize : Nat))
          (sub64 start v.vmStart % pageSize) currSize body
          (int32 (sub64 (sub64 stop 1) v.vmStart / pageSize : Nat) + 1 -
            int32 (sub64 start v.vmStart / pageSize : Nat)).toNat
          (int32 (sub64 start v.vmStart / pageSize : Nat)) s =
        some (overChunks (chunkBody body) cs s) := by
  have hbelow := h.below v hv
  rw [sub64_of_le hstart (by omega), sub64_vmEnd h hv (by omega) hstop,
    int32_of_lt (index_lt h hv (by omega)), int32_of_lt (index_lt h hv (by omega))]
  have haddr : v.vmStart + (start - v.vmStart) / pageSize * pageSize +
      (start - v.vmStart) % pageSize = start := by
    rw [Nat.add_assoc, Nat.div_add_mod']
    omega
  have hoff : (start - v.vmStart) % pageSize = start % pageSize := by
    obtain ⟨c, hc⟩ := (h.sized v hv).start
    unfold pageSize at *
    omega
  obtain ⟨cs, hchain, hfirst, hsizes, hloop⟩ := eachPage_chain body h hv hstop hcuts
    le_rfl (o := (start - v.vmStart) % pageSize) (if_pos rfl).symm
    (Nat.mod_lt _ (by decide)) haddr.ge (by rw [haddr]; exact hlt) rfl
  rw [haddr, hoff] at hfirst
  rw [haddr] at hchain
  refine ⟨cs, hchain, hfirst, hsizes, fun s => ?_⟩
  rw [← hloop s]
  congr 1
  omega

end

theorem findVmaArea_eq_none {a : Nat} (h : ∀ u ∈ vmas, ¬ (u.vmStart ≤ a ∧ a < u.vmEnd)) :
    findVmaArea a vmas = none := by
  cases hfind : findVmaArea a vmas with
  | none => rfl
  | some u =>
    obtain ⟨hu, hin⟩ := findVmaArea_some hfind
    exact absurd hin (h u hu)

variable {pre : List Vma}

theorem Complete.userLoc_vmEnd (h : Complete (pre ++ v :: vs))
    (hnext : ∀ u us, vs = u :: us → v.vmEnd ≠ u.vmStart) :
    userLoc (pre ++ v :: vs) v.vmEnd = none := by
  have hv := (h.sized v (by simp)).lt
  rw [h.userLoc_eq_none]
  refine findVmaArea_eq_none fun u hu hin => ?_
  obtain ⟨-, hvs, hpre⟩ := pairwise_append.mp h.ordered
  obtain ⟨hvs, hus⟩ := pairwise_cons.mp hvs
  rcases mem_append.mp hu with hu | hu
  · have := hpre u hu v (.head _)
    omega
  · rcases mem_cons.mp hu with rfl | hu
    · omega
    · cases vs with
      | nil => cases hu
      | cons w us =>
        have hne := hnext w us rfl
        have hle := hvs w (.head _)
        have hw := (h.sized w (by simp)).lt
        rcases mem_cons.mp hu with rfl | hu
        · omega
        · have := (pairwise_cons.mp hus).1 u hu
          omega

theorem cutsPages_vmEnd (h : Complete vmas) (hv : v ∈ vmas) :
    CutsPages v start v.vmEnd fun _ offset => pageSize - offset := by
  intro k o ho _ hlt
  obtain ⟨c, hc⟩ := (h.sized v hv).start
  obtain ⟨d, hd⟩ := (h.sized v hv).stop
  dsimp only
  unfold pageSize at *
  omega

variable {first : Bool}

theorem eachVma_round (vs : List Vma) (h : Complete vmas) (hv : v ∈ vmas)
    (hfirst : first = true ∨ start = v.vmStart) (hstart : v.vmStart ≤ start)
    (hlt : start < v.vmEnd) : ∃ cs, Chain (userLoc vmas) start v.vmEnd cs ∧
      (∃ x cs', cs = (x, pageSize - start % pageSize) :: cs') ∧ (∀ c ∈ cs, c.2 ≤ pageSize) ∧
      ∀ s, eachVma body first (v :: vs) start s =
        unlessLeft (some (overChunks (chunkBody body) cs s)) fun s =>
          eachVma body false vs v.vmEnd s := by
  obtain ⟨cs, hchain, ⟨x, cs', hcs⟩, hsizes, hpages⟩ :=
    eachPage_range body h hv hstart hlt le_rfl (cutsPages_vmEnd h hv)
  have hsize : min (pageSize - start % pageSize) (v.vmEnd - start) =
      pageSize - start % pageSize := by
    obtain ⟨d, hd⟩ := (h.sized v hv).stop
    unfold pageSize at *
    omega
  rw [hsize] at hcs
  refine ⟨cs, hchain, ⟨x, cs', hcs⟩, hsizes, fun s => ?_⟩
  rw [eachVma, if_neg (by rintro ⟨rfl, hne⟩; exact hne (hfirst.resolve_left nofun))]
  dsimp only
  rw [hpages s]

theorem eachVma_chain (h : Complete (pre ++ v :: vs)) (hfirst : first = true ∨ start = v.vmStart)
    (hstart : v.vmStart ≤ start) (hlt : start < v.vmEnd) :
    ∃ z cs, Chain (userLoc (pre ++ v :: vs)) start z cs ∧ userLoc (pre ++ v :: vs) z = none ∧
      (∃ x cs', cs = (x, pageSize - start % pageSize) :: cs') ∧ (∀ c ∈ cs, c.2 ≤ pageSize) ∧
      ∀ s, eachVma body first (v :: vs) start s = some (overChunks (chunkBody body) cs s).1 := by
  induction vs generalizing pre v first start with
  | nil =>
    obtain ⟨cs, hchain, hhead, hsizes, hround⟩ :=
      eachVma_round body [] h (by simp) hfirst hstart hlt
    refine ⟨_, cs, hchain, h.userLoc_vmEnd nofun, hhead, hsizes, fun s => ?_⟩
    rw [hround]
    simp only [unlessLeft, Option.bind_some, eachVma, ite_self]
  | cons u us ih =>
    obtain ⟨cs, hchain, hhead, hsizes, hround⟩ :=
      eachVma_round body (u :: us) h (by simp) hfirst hstart hlt
    by_cases hnext : v.vmEnd = u.vmStart
    · have hu := (h.sized u (by simp)).lt
      have happend : pre ++ v :: u :: us = (pre ++ [v]) ++ u :: us := by simp
      obtain ⟨z, ds, hchain', hz, -, hsizes', hrest⟩ :=
        ih (happend ▸ h) (show false = true ∨ v.vmEnd = u.vmStart from .inr hnext) hnext.ge
          (hnext ▸ hu)
      rw [← happend] at hchain' hz
      obtain ⟨x, cs', rfl⟩ := hhead
      refine ⟨z, _, hchain.append hchain', hz, ⟨x, cs' ++ ds, rfl⟩, ?_, fun s => ?_⟩
      · intro c hc
        exact (mem_append.mp hc).elim (hsizes c) (hsizes' c)
      rw [hround, overChunks_append]
      generalize overChunks (chunkBody body) ((x, pageSize - start % pageSize) :: cs') s = r
      obtain ⟨s', b⟩ := r
      cases b
      · exact hrest s'
      · rfl
    · refine ⟨_, cs, hchain, h.userLoc_vmEnd ?_, hhead, hsizes, fun s => ?_⟩
      · rintro _ _ ⟨⟩
        exact hnext
      · have hstay : ∀ s, eachVma body false (u :: us) v.vmEnd s = some s := by
          intro s
          rw [eachVma, if_pos ⟨rfl, hnext⟩]
        simp only [hround, unlessLeft, Option.bind_some, hstay, ite_self]

theorem eachVma_currVmas (h : Complete vmas) (addr : Nat) :
    ∃ z cs, Chain (userLoc vmas) addr z cs ∧ userLoc vmas z = none ∧
      (userLoc vmas addr ≠ none → ∃ x cs', cs = (x, pageSize - addr % pageSize) :: cs') ∧
      (∀ c ∈ cs, c.2 ≤ pageSize) ∧ ∀ s, eachVma body true (currVmas addr vmas) addr s =
        some (overChunks (chunkBody body) cs s).1 := by
  cases hfind : findVmaArea addr vmas with
  | none =>
    have hnone := h.userLoc_eq_none.mpr hfind
    refine ⟨addr, [], rfl, hnone, fun hne => absurd hnone hne, nofun, fun s => ?_⟩
    rw [currVmas, hfind]
    rfl
  | some =>
    obtain ⟨hv, hstart, hlt⟩ := findVmaArea_some hfind
    obtain ⟨pre, vs, rfl⟩ := append_of_mem hv
    obtain ⟨z, cs, hchain, hz, hhead, hsizes, hloop⟩ :=
      eachVma_chain body h (.inl rfl) hstart hlt
    refine ⟨z, cs, hchain, hz, fun _ => hhead, hsizes, fun s => ?_⟩
    rw [currVmas, hfind]
    dsimp only
    rw [h.filter_start_le]
    exact hloop s

end Loops

end MinixRt.Mm
