import MinixRt.Mm.Memcpy

/-!
# Strings in the memory of a task

`mmap_strnlen_vma` and `__mmap_strcpy_vma` go through a string page by page.

The first adds one to the number of bytes before the first zero whether it has found one or not, so
its result is positive for a string that does not end and for an address that is not mapped
(`mmapStrnlenVma_iff`).

The second relies on `mmap_strncpy`, which adds one to the number of bytes it has copied whether it
has copied a zero or not. For a page without a zero that is one byte more than it has copied; and a
page whose last byte is the zero looks like a page without one (`mmapStrcpyVma_iff`).
-/

namespace MinixRt.Mm

open Function Lib

variable {addr len x : Nat} {buf : Store}

theorem int32_add (a b : Int) : int32 (int32 a + b) = int32 (a + b) := Int.bmod_add_bmod

theorem int32_lt (n : Int) : int32 n < 2 ^ 31 := by
  unfold int32 Int.bmod
  dsimp only
  split <;> omega

/-! ## `mmap_strnlen_vma` -/

/-- The body of its loop over the pages, with `total_size`. -/
def strnlenPage (mem : Store) (virt : Nat) (currSize total : Int) : Int × Bool :=
  let size := int32 (strnlen mem virt (sizeT currSize) : Nat)
  (int32 (total + size), size < currSize)

/-- `mmap_strnlen_vma` for a task that does not run on `init_mm`. -/
def mmapStrnlenVma (mem : Store) (vmas : List Vma) (s : Nat) : Option Int :=
  (eachVma (strnlenPage mem) true (currVmas s vmas) s 0).map fun total => int32 (total + 1)

/-- `message_strlen` for a task that exists: its result and what it stores. -/
def messageStrlen (mem : Store) (vmas : List Vma) (s : Nat) : Option (Int × Option Int) :=
  (mmapStrnlenVma mem vmas s).map fun ret => if ret ≤ 0 then (-einval, none) else (0, some ret)

def userByte (mem : Store) (vmas : List Vma) (a : Nat) : Option (BitVec 8) :=
  (userLoc vmas a).map mem

/-- There are `k` bytes before the first zero or the end of the mapping. -/
structure StrSpan (mem : Store) (vmas : List Vma) (s k : Nat) : Prop where
  inside : ∀ i < k, ∃ x, userByte mem vmas (s + i) = some x ∧ x ≠ 0
  stop : userByte mem vmas (s + k) = none ∨ userByte mem vmas (s + k) = some 0

section Strnlen

variable {mem : Store} {vmas : List Vma} {s k : Nat}

theorem StrSpan.unique {l : Nat} (hk : StrSpan mem vmas s k) (hl : StrSpan mem vmas s l) :
    k = l := by
  have hle : ∀ {k l}, StrSpan mem vmas s k → StrSpan mem vmas s l → ¬ k < l := by
    intro k l hk hl hlt
    obtain ⟨x, hx, hne⟩ := hl.inside k hlt
    rcases hk.stop with h | h
    · rw [h] at hx
      cases hx
    · rw [h] at hx
      exact hne (Option.some.inj hx).symm
  have h1 := hle hk hl
  have h2 := hle hl hk
  omega

theorem overChunks_strnlenPage (mem : Store) {a z : Nat} {cs : List (Nat × Nat)}
    (h : Chain (userLoc vmas) a z cs) (hsizes : ∀ c ∈ cs, c.2 ≤ pageSize)
    (hz : userLoc vmas z = none) (t : Int) : ∃ k, StrSpan mem vmas a k ∧
      (overChunks (chunkBody (strnlenPage mem)) cs (int32 t)).1 = int32 (t + k) := by
  induction cs generalizing a t with
  | nil =>
    obtain rfl : a = z := h
    refine ⟨0, ⟨nofun, .inl (by rw [userByte, Nat.add_zero, hz]; rfl)⟩, ?_⟩
    rw [overChunks, Int.natCast_zero, Int.add_zero]
  | cons c cs ih =>
    have hsize := hsizes c (.head _)
    have hle := strnlen_le mem c.1 c.2
    have hbyte : ∀ i < c.2, userByte mem vmas (a + i) = some (mem (c.1 + i)) := by
      intro i hi
      rw [userByte, h.2.1 i hi]
      rfl
    have hstep : chunkBody (strnlenPage mem) c.1 c.2 (int32 t) =
        (int32 (t + strnlen mem c.1 c.2), decide (strnlen mem c.1 c.2 < c.2)) := by
      unfold pageSize at hsize
      rw [chunkBody, strnlenPage, sizeT_natCast (by omega), int32_of_lt (by omega)]
      simp only [int32_add, Nat.cast_lt]
    rw [overChunks, hstep]
    by_cases hlt : strnlen mem c.1 c.2 < c.2
    · -- the string ends in this chunk
      rw [decide_eq_true hlt]
      refine ⟨_, ⟨fun i hi => ⟨_, hbyte i (hi.trans hlt), ne_zero_of_lt_strnlen hi⟩, .inr ?_⟩, rfl⟩
      rw [hbyte _ hlt, eq_zero_of_strnlen_lt hlt]
    · rw [decide_eq_false hlt]
      have hall : strnlen mem c.1 c.2 = c.2 := by omega
      obtain ⟨k, hspan, htotal⟩ := ih h.2.2 (fun d hd => hsizes d (.tail _ hd))
        (t + strnlen mem c.1 c.2)
      refine ⟨c.2 + k, ⟨fun i hi => ?_, ?_⟩, ?_⟩
      · by_cases hic : i < c.2
        · exact ⟨_, hbyte i hic, ne_zero_of_lt_strnlen (hall ▸ hic)⟩
        · have := hspan.inside (i - c.2) (by omega)
          rwa [show a + c.2 + (i - c.2) = a + i by omega] at this
      · rw [← Nat.add_assoc]
        exact hspan.stop
      · dsimp only
        rw [htotal, hall, Nat.cast_add, Int.add_assoc]

/-- The result is one more than the number of bytes before the first zero or the end of the
mapping. -/
theorem mmapStrnlenVma_eq (h : Complete vmas) (mem : Store) (s : Nat) :
    ∃ k, StrSpan mem vmas s k ∧ mmapStrnlenVma mem vmas s = some (int32 ((k : Int) + 1)) := by
  obtain ⟨z, cs, hchain, hz, -, hsizes, hloop⟩ := eachVma_currVmas (strnlenPage mem) h s
  obtain ⟨k, hspan, htotal⟩ := overChunks_strnlenPage mem hchain hsizes hz 0
  refine ⟨k, hspan, ?_⟩
  rw [mmapStrnlenVma, hloop, Option.map_some, show (0 : Int) = int32 0 from rfl, htotal,
    int32_add, Int.zero_add]

/-- A positive result is the length of the string with its zero, and a string that does not end in
the mapped addresses is an error. -/
structure StrlenOk (mem : Store) (vmas : List Vma) (s : Nat) (ret : Int) : Prop where
  found : 0 < ret → (∀ i < ret.toNat, userByte mem vmas (s + i) ≠ none) ∧
    userByte mem vmas (s + (ret.toNat - 1)) = some 0 ∧
    ∀ i < ret.toNat - 1, userByte mem vmas (s + i) ≠ some 0
  error : (∀ k, StrSpan mem vmas s k → userByte mem vmas (s + k) = none) →
    messageStrlen mem vmas s = some (-einval, none)

/-- The length is right exactly for a string that ends, and for one so long that the `int` is
negative. -/
theorem mmapStrnlenVma_iff (h : Complete vmas) (mem : Store) (s : Nat) :
    ∃ k, StrSpan mem vmas s k ∧ ∃ ret, mmapStrnlenVma mem vmas s = some ret ∧
      (StrlenOk mem vmas s ret ↔
        userByte mem vmas (s + k) = some 0 ∧ k + 1 < 2 ^ 31 ∨ int32 (k + 1 : Nat) ≤ 0) := by
  obtain ⟨k, hspan, hret⟩ := mmapStrnlenVma_eq h mem s
  refine ⟨k, hspan, _, hret, ?_⟩
  have hcast : int32 ((k : Int) + 1) = int32 (k + 1 : Nat) := by rw [Nat.cast_succ]
  rw [hcast] at hret ⊢
  have herror : messageStrlen mem vmas s = some (-einval, none) ↔ int32 (k + 1 : Nat) ≤ 0 := by
    rw [messageStrlen, hret, Option.map_some]
    split_ifs with hle
    · exact ⟨fun _ => hle, fun _ => rfl⟩
    · exact ⟨fun heq => (by cases heq), fun hle' => absurd hle' hle⟩
  constructor
  · intro hok
    by_contra hnot
    obtain ⟨hend, hpos⟩ := not_or.mp hnot
    rcases hspan.stop with hstop | hstop
    · refine hpos (herror.mp (hok.error fun l hl => ?_))
      rwa [hl.unique hspan]
    · -- the string is longer than an `int` can say
      have hlong : 2 ^ 31 ≤ k + 1 := by
        by_contra hlt
        exact hend ⟨hstop, by omega⟩
      obtain ⟨-, hzero, -⟩ := hok.found (by omega)
      have hshort : int32 (k + 1 : Nat) < 2 ^ 31 := int32_lt _
      obtain ⟨x, hx, hne⟩ := hspan.inside ((int32 (k + 1 : Nat)).toNat - 1) (by omega)
      rw [hx] at hzero
      exact hne (Option.some.inj hzero)
  · rintro (⟨hstop, hlt⟩ | hneg)
    · rw [int32_of_lt hlt]
      refine ⟨fun _ => ?_, fun hopen => ?_⟩
      · rw [Int.toNat_natCast, Nat.add_sub_cancel]
        refine ⟨fun i hi => ?_, hstop, fun i hi => ?_⟩
        · rcases Nat.lt_or_eq_of_le (Nat.le_of_lt_succ hi) with hi | rfl
          · obtain ⟨x, hx, -⟩ := hspan.inside i hi
            rw [hx]
            nofun
          · rw [hstop]
            nofun
        · obtain ⟨x, hx, hne⟩ := hspan.inside i hi
          rw [hx]
          exact fun hzero => hne (Option.some.inj hzero)
      · have := hopen k hspan
        rw [hstop] at this
        cases this
    · exact ⟨fun hpos => absurd hneg (not_le.mpr hpos), fun _ => herror.mpr hneg⟩

end Strnlen

/-- The empty string at the start of a VMA. -/
theorem mmapStrnlenVma_iff_empty : ∃ ret, mmapStrnlenVma (fun _ => 0) twoVmas 0x1000 = some ret ∧
    StrlenOk (fun _ => 0) twoVmas 0x1000 ret := by
  obtain ⟨k, hspan, ret, hret, hiff⟩ := mmapStrnlenVma_iff twoVmas_complete (fun _ => 0) 0x1000
  have hzero : StrSpan (fun _ => 0) twoVmas 0x1000 0 := ⟨nofun, .inr (by decide)⟩
  rw [hspan.unique hzero] at hiff
  exact ⟨ret, hret, hiff.mpr (.inl ⟨by decide, by decide⟩)⟩

/-- An address that is not mapped has a string of length 1. -/
theorem strlen_unmapped : findVmaArea 0x5000 twoVmas = none ∧ ∀ mem,
    mmapStrnlenVma mem twoVmas 0x5000 = some 1 ∧
      messageStrlen mem twoVmas 0x5000 = some (0, some 1) :=
  ⟨by decide, fun _ => ⟨rfl, rfl⟩⟩

/-! ## `__mmap_strcpy_vma` -/

/-- The loop of `mmap_strncpy`, with the destination and the result. -/
def mmapStrncpy (src : Store) : (count : Nat) → (dst : Store) → (a b : Nat) → (len : Int) →
    Store × Int
  | 0, dst, _, _, len => (dst, int32 (len + 1))
  | count + 1, dst, a, b, len =>
    let dst := update dst a (src b)
    if src b = 0 then (dst, int32 (len + 1))
    else mmapStrncpy src count dst (a + 1) (b + 1) (int32 (len + 1))

structure StrCopying where
  mem : Store
  buf : Store
  /-- How far `buffer` has moved. -/
  pos : Nat
  total : Int

def strcpyPage (isFromVma : Bool) (virt : Nat) (currSize : Int) (s : StrCopying) :
    StrCopying × Bool :=
  let r := if isFromVma then mmapStrncpy s.mem (sizeT currSize) s.buf s.pos virt 0
    else mmapStrncpy s.buf (sizeT currSize) s.mem virt s.pos 0
  let next : StrCopying :=
    { mem := if isFromVma then s.mem else r.1
      buf := if isFromVma then r.1 else s.buf
      pos := s.pos
      total := int32 (s.total + r.2) }
  if r.2 < currSize then (next, true) else ({ next with pos := s.pos + sizeT r.2 }, false)

/-- `__mmap_strcpy_vma` for a task that does not run on `init_mm`: its result, the memory and the
buffer. -/
def mmapStrcpyVma (isFromVma : Bool) (vmas : List Vma) (addr : Nat) (mem buf : Store) :
    Option (Int × Store × Store) :=
  (eachVma (strcpyPage isFromVma) true (currVmas addr vmas) addr ⟨mem, buf, 0, 0⟩).map fun s =>
    (s.total, s.mem, s.buf)

section Strcpy

/-- `mmap_strncpy` copies up to the first zero, and counts one more than the bytes before it or
than it may copy. -/
theorem mmapStrncpy_eq (src : Store) (count : Nat) (dst : Store) (a b : Nat) (len : Int) :
    mmapStrncpy src count dst a b (int32 len) =
      (copyBytes dst a src b (min (strnlen src b count + 1) count),
        int32 (len + strnlen src b count + 1)) := by
  induction count generalizing dst a b len with
  | zero =>
    rw [mmapStrncpy, strnlen, int32_add]
    refine congrArg₂ Prod.mk (funext fun x => ?_) (by simp)
    exact (copyBytes_out (by omega)).symm
  | succ count ih =>
    rw [mmapStrncpy, strnlen]
    split_ifs with hz
    · refine congrArg₂ Prod.mk (funext fun x => ?_) (by simp [int32_add])
      by_cases hx : x = a
      · subst hx
        rw [update_self]
        exact (copyBytes_in (i := 0) (by omega)).symm
      · rw [update_of_ne hx, copyBytes_out (by omega)]
    · rw [int32_add, ih]
      refine congrArg₂ Prod.mk (funext fun x => ?_) ?_
      · by_cases hx : x = a
        · subst hx
          rw [copyBytes_out (.inl (Nat.lt_succ_self _)), update_self]
          exact (copyBytes_in (i := 0) (by omega)).symm
        · unfold copyBytes
          rw [update_of_ne hx]
          have hcond : (a + 1 ≤ x ∧ x < a + 1 + min (strnlen src (b + 1) count + 1) count) ↔
              (a ≤ x ∧ x < a + min (strnlen src (b + 1) count + 1 + 1) (count + 1)) := by omega
          rw [if_congr hcond rfl rfl]
          split_ifs with hin
          · congr 1
            omega
          · rfl
      · rw [Nat.cast_succ]
        congr 1
        omega

/-- What one chunk does to the state: `k` bytes before the first zero among `n`. -/
def strStep (isFromVma : Bool) (x n : Nat) (s : StrCopying) : StrCopying :=
  let k := if isFromVma then strnlen s.mem x n else strnlen s.buf s.pos n
  { mem := if isFromVma then s.mem else copyBytes s.mem x s.buf s.pos (min (k + 1) n)
    buf := if isFromVma then copyBytes s.buf s.pos s.mem x (min (k + 1) n) else s.buf
    pos := if k + 1 < n then s.pos else s.pos + (k + 1)
    total := int32 (s.total + (k + 1 : Nat)) }

variable {isFromVma : Bool} {n : Nat}

theorem chunkBody_strcpyPage (hn : n ≤ pageSize) (s : StrCopying) :
    chunkBody (strcpyPage isFromVma) x n s = (strStep isFromVma x n s,
      decide ((if isFromVma then strnlen s.mem x n else strnlen s.buf s.pos n) + 1 < n)) := by
  have hzero : (0 : Int) = int32 0 := rfl
  unfold pageSize at hn
  have hret : ∀ m a, int32 (0 + strnlen m a n + 1) = (strnlen m a n + 1 : Nat) := by
    intro m a
    have hle := strnlen_le m a n
    rw [Int.zero_add, ← Nat.cast_succ, int32_of_lt (by omega)]
  have hsize : ∀ m a, sizeT (strnlen m a n + 1 : Nat) = strnlen m a n + 1 := by
    intro m a
    have hle := strnlen_le m a n
    exact sizeT_natCast (by omega)
  rw [chunkBody, strcpyPage, sizeT_natCast (by omega), hzero, mmapStrncpy_eq, mmapStrncpy_eq]
  cases isFromVma
  all_goals
    simp only [Bool.false_eq_true, ↓reduceIte, hret, Nat.cast_lt, strStep, hsize]
    split_ifs with hlt <;> simp [hlt]

variable {vmas : List Vma} {a z : Nat} {cs : List (Nat × Nat)}

/-! ### Out of the memory of a task -/

theorem strcpyFrom_before (hsizes : ∀ c ∈ cs, c.2 ≤ pageSize) (s : StrCopying) (hx : x < s.pos) :
    (overChunks (chunkBody (strcpyPage true)) cs s).1.buf x = s.buf x := by
  induction cs generalizing s with
  | nil => rfl
  | cons c cs ih =>
    have hbuf : (strStep true c.1 c.2 s).buf x = s.buf x := copyBytes_out (.inl hx)
    have hpos : s.pos ≤ (strStep true c.1 c.2 s).pos := by
      dsimp only [strStep]
      split_ifs <;> omega
    rw [overChunks, chunkBody_strcpyPage (hsizes c (.head _))]
    split <;> rename_i heq <;> obtain ⟨rfl, -⟩ := Prod.mk.inj heq
    · exact hbuf
    · rw [ih (fun d hd => hsizes d (.tail _ hd)) _ (hx.trans_le hpos), hbuf]

theorem strcpyFrom_first (hsizes : ∀ c ∈ (x, n) :: cs, c.2 ≤ pageSize) (hn : 0 < n)
    (s : StrCopying) :
    (overChunks (chunkBody (strcpyPage true)) ((x, n) :: cs) s).1.buf s.pos = s.mem x := by
  have hbuf : (strStep true x n s).buf s.pos = s.mem x :=
    copyBytes_in (i := 0) (by omega)
  rw [overChunks, chunkBody_strcpyPage (hsizes _ (.head _))]
  split <;> rename_i heq <;> obtain ⟨rfl, hgo⟩ := Prod.mk.inj heq
  · exact hbuf
  · have hgo := of_decide_eq_false hgo
    rw [strcpyFrom_before (fun d hd => hsizes d (.tail _ hd)) _ ?_, hbuf]
    dsimp only [strStep] at hgo ⊢
    rw [if_neg hgo]
    omega

/-! ### Into the memory of a task -/

/-- How many bytes go to the chunks, and for how many chunks the count is one too high. -/
def strSpans (buf : Store) : List (Nat × Nat) → (pos : Nat) → Nat × Nat
  | [], _ => (0, 0)
  | (_, n) :: cs, pos =>
    let k := strnlen buf pos n
    if k + 1 < n then (k + 1, 0)
    else
      let r := strSpans buf cs (pos + (k + 1))
      (n + r.1, r.2 + (k + 1 - n))

theorem strSpans_le (h : Chain (userLoc vmas) a z cs) (buf : Store) (pos : Nat) :
    (strSpans buf cs pos).1 ≤ z - a ∧ (strSpans buf cs pos).2 ≤ (strSpans buf cs pos).1 := by
  induction cs generalizing a pos with
  | nil => exact ⟨Nat.zero_le _, le_rfl⟩
  | cons c cs ih =>
    have hle := h.2.2.le
    have hk := strnlen_le buf pos c.2
    have hpos := h.1
    obtain ⟨h1, h2⟩ := ih h.2.2 (pos + (strnlen buf pos c.2 + 1))
    rw [strSpans]
    dsimp only
    split_ifs with hlt
    · exact ⟨by dsimp only; omega, Nat.zero_le _⟩
    · exact ⟨by dsimp only; omega, by dsimp only; omega⟩

/-- The result counts the bytes and what is too much. The bytes that are written do not depend on
the memory, and the others stay. -/
theorem strcpyTo_spec (h : Chain (userLoc vmas) a z cs) (hsizes : ∀ c ∈ cs, c.2 ≤ pageSize)
    (buf : Store) (pos : Nat) (t : Int) : ∃ written : Store, ∀ mem, ∃ r,
      (overChunks (chunkBody (strcpyPage false)) cs ⟨mem, buf, pos, int32 t⟩).1 = r ∧ r.buf = buf ∧
      r.total = int32 (t + (strSpans buf cs pos).1 + (strSpans buf cs pos).2) ∧
      (∀ i < (strSpans buf cs pos).1, ∀ y, userLoc vmas (a + i) = some y → r.mem y = written y) ∧
      ∀ y, (∀ i < (strSpans buf cs pos).1, userLoc vmas (a + i) ≠ some y) → r.mem y = mem y := by
  induction cs generalizing a pos t with
  | nil =>
    refine ⟨fun _ => 0, fun mem => ⟨_, rfl, rfl, ?_, nofun, fun _ _ => rfl⟩⟩
    simp [overChunks, strSpans]
  | cons c cs ih =>
    have hk := strnlen_le buf pos c.2
    have htotal : int32 (int32 t + (strnlen buf pos c.2 + 1 : Nat)) =
        int32 (t + (strnlen buf pos c.2 + 1 : Nat)) := int32_add _ _
    have hround : ∀ mem, chunkBody (strcpyPage false) c.1 c.2 ⟨mem, buf, pos, int32 t⟩ =
        (⟨copyBytes mem c.1 buf pos (min (strnlen buf pos c.2 + 1) c.2), buf,
          if strnlen buf pos c.2 + 1 < c.2 then pos else pos + (strnlen buf pos c.2 + 1),
          int32 (t + (strnlen buf pos c.2 + 1 : Nat))⟩,
          decide (strnlen buf pos c.2 + 1 < c.2)) := by
      intro mem
      rw [chunkBody_strcpyPage (hsizes c (.head _)), strStep]
      simp only [Bool.false_eq_true, ↓reduceIte, htotal]
    have hplace : ∀ i < c.2, ∀ y, userLoc vmas (a + i) = some y → y = c.1 + i := by
      intro i hi y hy
      rw [h.2.1 i hi] at hy
      exact (Option.some.inj hy).symm
    by_cases hlt : strnlen buf pos c.2 + 1 < c.2
    · -- the zero is in this chunk, and not at its end
      have hspans : strSpans buf (c :: cs) pos = (strnlen buf pos c.2 + 1, 0) := if_pos hlt
      refine ⟨copyBytes (fun _ => 0) c.1 buf pos (strnlen buf pos c.2 + 1), fun mem =>
        ⟨_, rfl, ?_⟩⟩
      rw [overChunks, hround, decide_eq_true hlt, hspans, Nat.min_eq_left hlt.le]
      refine ⟨rfl, ?_, fun i hi y hy => ?_, fun y hy => copyBytes_out ?_⟩
      · rw [Nat.cast_zero, Int.add_zero]
      · rw [hplace i (by omega) y hy]
        exact (copyBytes_in hi).trans (copyBytes_in hi).symm
      · by_contra hin
        refine hy (y - c.1) (by omega) ((h.2.1 (y - c.1) (by omega)).trans (congrArg some ?_))
        omega
    · have hspans : strSpans buf (c :: cs) pos =
          (c.2 + (strSpans buf cs (pos + (strnlen buf pos c.2 + 1))).1,
            (strSpans buf cs (pos + (strnlen buf pos c.2 + 1))).2 +
              (strnlen buf pos c.2 + 1 - c.2)) := if_neg hlt
      obtain ⟨written, hrest⟩ := ih h.2.2 (fun d hd => hsizes d (.tail _ hd))
        (pos + (strnlen buf pos c.2 + 1)) (t + (strnlen buf pos c.2 + 1 : Nat))
      generalize strSpans buf cs (pos + (strnlen buf pos c.2 + 1)) = spans at hspans hrest
      classical
      refine ⟨fun y => if ∃ i < spans.1, userLoc vmas (a + c.2 + i) = some y then written y
        else copyBytes (fun _ => 0) c.1 buf pos c.2 y, fun mem => ?_⟩
      obtain ⟨r, hr, hbuf, htot, hin, hout⟩ := hrest (copyBytes mem c.1 buf pos c.2)
      refine ⟨r, ?_, hbuf, ?_, fun i hi y hy => ?_, fun y hy => ?_⟩
      · rw [overChunks, hround, decide_eq_false hlt, Nat.min_eq_right (by omega), if_neg hlt]
        exact hr
      · rw [htot, hspans]
        congr 1
        dsimp only
        omega
      · rw [hspans] at hi
        dsimp only at hi ⊢
        by_cases hlater : ∃ i < spans.1, userLoc vmas (a + c.2 + i) = some y
        · obtain ⟨j, hj, hjy⟩ := hlater
          rw [if_pos ⟨j, hj, hjy⟩, hin j hj y hjy]
        · have hic : i < c.2 := by
            by_contra hge
            refine hlater ⟨i - c.2, by omega, ?_⟩
            rwa [show a + c.2 + (i - c.2) = a + i by omega]
          rw [if_neg hlater, hout y fun j hj hjy => hlater ⟨j, hj, hjy⟩, hplace i hic y hy]
          exact (copyBytes_in hic).trans (copyBytes_in hic).symm
      · rw [hspans] at hy
        rw [hout y fun j hj => ?_, copyBytes_out ?_]
        · by_contra hin
          refine hy (y - c.1) (by dsimp only; omega)
            ((h.2.1 (y - c.1) (by omega)).trans (congrArg some ?_))
          omega
        · rw [Nat.add_assoc]
          exact hy (c.2 + j) (by dsimp only; omega)

/-! ### Both directions -/

/-- The string with its zero ends before the last byte of its page, or with it and nothing is mapped
behind the page. -/
def Fits (vmas : List Vma) (addr len : Nat) : Prop :=
  addr % pageSize + (len + 1) < pageSize ∨
    addr % pageSize + (len + 1) = pageSize ∧ userLoc vmas (addr + (len + 1)) = none

/-- The string of length `len` at `addr` was copied to the buffer, and nothing behind it. -/
def CopiedOut (vmas : List Vma) (addr len : Nat) (mem buf : Store) : Prop :=
  ∃ buf', mmapStrcpyVma true vmas addr mem buf = some (((len + 1 : Nat) : Int), mem, buf') ∧
    (∀ i ≤ len, userByte mem vmas (addr + i) = some (buf' i)) ∧ ∀ x, len < x → buf' x = buf x

/-- The string of length `len` in the buffer was copied to `addr`, and nothing behind it. -/
def CopiedIn (vmas : List Vma) (addr len : Nat) (buf mem : Store) : Prop :=
  ∃ mem', mmapStrcpyVma false vmas addr mem buf = some (((len + 1 : Nat) : Int), mem', buf) ∧
    (∀ i ≤ len, ∃ y, userLoc vmas (addr + i) = some y ∧ mem' y = buf i) ∧
    ∀ y, (∀ i ≤ len, userLoc vmas (addr + i) ≠ some y) → mem' y = mem y

theorem mmapStrcpyVma_eq
    (hloop : ∀ s, eachVma (strcpyPage isFromVma) true (currVmas addr vmas) addr s =
      some (overChunks (chunkBody (strcpyPage isFromVma)) cs s).1) (mem buf : Store) :
    mmapStrcpyVma isFromVma vmas addr mem buf =
      some ((overChunks (chunkBody (strcpyPage isFromVma)) cs ⟨mem, buf, 0, 0⟩).1.total,
        (overChunks (chunkBody (strcpyPage isFromVma)) cs ⟨mem, buf, 0, 0⟩).1.mem,
        (overChunks (chunkBody (strcpyPage isFromVma)) cs ⟨mem, buf, 0, 0⟩).1.buf) := by
  rw [mmapStrcpyVma, hloop, Option.map_some]

variable {cs : List (Nat × Nat)}

theorem Fits.lt (h : Fits vmas addr len) :
    len < pageSize - addr % pageSize ∧ len + 1 ≤ pageSize := by
  rcases h with h | ⟨h, -⟩ <;> omega

theorem mmapStrcpyVma_fits (isFromVma : Bool) (mem buf : Store)
    (hloop : ∀ s, eachVma (strcpyPage isFromVma) true (currVmas addr vmas) addr s =
      some (overChunks (chunkBody (strcpyPage isFromVma))
        ((x, pageSize - addr % pageSize) :: cs) s).1)
    (hchain : Chain (userLoc vmas) addr z ((x, pageSize - addr % pageSize) :: cs))
    (hfits : Fits vmas addr len)
    (hlen : (if isFromVma then strnlen mem x (pageSize - addr % pageSize)
      else strnlen buf 0 (pageSize - addr % pageSize)) = len) :
    mmapStrcpyVma isFromVma vmas addr mem buf = some (((len + 1 : Nat) : Int),
      if isFromVma then mem else copyBytes mem x buf 0 (len + 1),
      if isFromVma then copyBytes buf 0 mem x (len + 1) else buf) := by
  have hmod := Nat.mod_lt addr (show 0 < pageSize by decide)
  obtain ⟨hlt, hle⟩ := hfits.lt
  have hone : (overChunks (chunkBody (strcpyPage isFromVma)) ((x, pageSize - addr % pageSize) :: cs)
      ⟨mem, buf, 0, 0⟩).1 = strStep isFromVma x (pageSize - addr % pageSize) ⟨mem, buf, 0, 0⟩ := by
    rw [overChunks, chunkBody_strcpyPage (by omega)]
    dsimp only
    rw [hlen]
    rcases hfits with hlt | ⟨heq, hnone⟩
    · rw [decide_eq_true (by omega)]
    · rw [decide_eq_false (by omega)]
      cases cs with
      | nil => rfl
      | cons =>
        have hfirst := hchain.2.2.2.1 0 hchain.2.2.1
        rw [Nat.add_zero, show addr + (pageSize - addr % pageSize) = addr + (len + 1) by omega,
          hnone] at hfirst
        cases hfirst
  have htotal : int32 (0 + (len + 1 : Nat)) = (len + 1 : Nat) := by
    rw [Int.zero_add, int32_of_lt (hle.trans_lt (by decide))]
  rw [mmapStrcpyVma_eq hloop, hone]
  simp only [strStep, hlen, htotal, Nat.min_eq_left (show len + 1 ≤ _ from hlt)]

theorem ne_add_one (x : BitVec 8) : x ≠ x + 1 := by
  revert x
  decide

/-- `mmap_strcpy_from_vma` copies the string at `addr` as it should, whatever the buffer holds,
exactly when it fits. -/
theorem copiedOut_iff (h : Complete vmas) {mem : Store} (hspan : StrSpan mem vmas addr len)
    (hzero : userByte mem vmas (addr + len) = some 0) :
    (∀ buf, CopiedOut vmas addr len mem buf) ↔ Fits vmas addr len := by
  obtain ⟨z, cs, hchain, hz, hhead, hsizes, hloop⟩ := eachVma_currVmas (strcpyPage true) h addr
  have hmapped : ∀ i ≤ len, userByte mem vmas (addr + i) ≠ none := by
    intro i hi
    rcases Nat.lt_or_eq_of_le hi with hi | rfl
    · obtain ⟨x, hx, -⟩ := hspan.inside i hi
      rw [hx]
      nofun
    · rw [hzero]
      nofun
  obtain ⟨x, cs, rfl⟩ := hhead fun hnone =>
    hmapped 0 (Nat.zero_le _) (by rw [userByte, Nat.add_zero, hnone]; rfl)
  have hmod := Nat.mod_lt addr (show 0 < pageSize by decide)
  have hbyte : ∀ i < pageSize - addr % pageSize,
      userByte mem vmas (addr + i) = some (mem (x + i)) := by
    intro i hi
    rw [userByte, hchain.2.1 i hi]
    rfl
  have hne : ∀ i < len, i < pageSize - addr % pageSize → mem (x + i) ≠ 0 := by
    intro i hi hin
    obtain ⟨b, hb, hne⟩ := hspan.inside i hi
    rw [hbyte i hin] at hb
    rwa [Option.some.inj hb]
  have hlen : len < pageSize - addr % pageSize →
      strnlen mem x (pageSize - addr % pageSize) = len := fun hlt =>
    strnlen_eq hlt (fun i hi => hne i hi (by omega)) (by
      have := hbyte len hlt
      rw [hzero] at this
      exact (Option.some.inj this).symm)
  have hrest := fun d hd => hsizes d (.tail _ hd)
  constructor
  · intro hcopied
    by_contra hnot
    obtain ⟨hshort, hlast⟩ := not_or.mp hnot
    by_cases hcross : pageSize - addr % pageSize ≤ len
    · -- the byte behind the page is left out in the buffer
      obtain ⟨b, hb⟩ := Option.ne_none_iff_exists'.mp (hmapped _ hcross)
      obtain ⟨buf', hres, hbytes, -⟩ := hcopied fun _ => b + 1
      have hall : strnlen mem x (pageSize - addr % pageSize) = pageSize - addr % pageSize :=
        strnlen_eq_of_ne fun i hi => hne i (by omega) hi
      have hgap : buf' (pageSize - addr % pageSize) = b + 1 := by
        rw [mmapStrcpyVma_eq hloop] at hres
        obtain ⟨-, -, rfl⟩ : _ ∧ _ ∧ _ = buf' := by simpa using hres
        rw [overChunks, chunkBody_strcpyPage (by omega)]
        simp only [↓reduceIte, hall]
        rw [decide_eq_false (by omega)]
        dsimp only
        rw [strcpyFrom_before hrest _ ?_]
        · simp only [strStep, ↓reduceIte, hall]
          exact copyBytes_out (.inr (by omega))
        · simp only [strStep, ↓reduceIte, hall]
          rw [if_neg (by omega)]
          omega
      have := hbytes _ hcross
      rw [hb, hgap] at this
      exact ne_add_one b (Option.some.inj this)
    · -- the next page is copied behind the zero
      have hend : pageSize - addr % pageSize = len + 1 := by omega
      have hlen := hlen (by omega)
      cases cs with
      | nil =>
        obtain rfl : addr + (pageSize - addr % pageSize) = z := hchain.2.2
        rw [hend] at hz
        exact hlast ⟨by omega, hz⟩
      | cons c =>
        obtain ⟨buf', hres, -, hbehind⟩ := hcopied fun _ => mem c.1 + 1
        have hwritten : buf' (len + 1) = mem c.1 := by
          rw [mmapStrcpyVma_eq hloop] at hres
          obtain ⟨-, -, rfl⟩ : _ ∧ _ ∧ _ = buf' := by simpa using hres
          rw [overChunks, chunkBody_strcpyPage (by omega)]
          simp only [↓reduceIte, hlen]
          rw [decide_eq_false (by omega)]
          have hpos : (strStep true x (pageSize - addr % pageSize)
              ⟨mem, fun _ => mem c.1 + 1, 0, 0⟩).pos = len + 1 := by
            simp only [strStep, ↓reduceIte, hlen]
            rw [if_neg (by omega), Nat.zero_add]
          rw [← hpos]
          exact strcpyFrom_first hrest hchain.2.2.1 _
        rw [hbehind (len + 1) (Nat.lt_succ_self _)] at hwritten
        exact ne_add_one (mem c.1) hwritten.symm
  · intro hfits buf
    refine ⟨copyBytes buf 0 mem x (len + 1), mmapStrcpyVma_fits true mem buf hloop hchain hfits
      (hlen hfits.lt.1), ?_, ?_⟩
    · intro i hi
      have hcopy : copyBytes buf 0 mem x (len + 1) (0 + i) = mem (x + i) :=
        copyBytes_in (Nat.lt_succ_of_le hi)
      rw [Nat.zero_add] at hcopy
      rw [hbyte i (hi.trans_lt hfits.lt.1), hcopy]
    · intro y hy
      exact copyBytes_out (.inr (by omega))

theorem copiedIn_of_fits (h : Complete vmas) (hne : ∀ i < len, buf i ≠ 0) (hzero : buf len = 0)
    (hmapped : ∀ i ≤ len, userLoc vmas (addr + i) ≠ none) (hfits : Fits vmas addr len)
    (mem : Store) : CopiedIn vmas addr len buf mem := by
  obtain ⟨z, cs, hchain, -, hhead, -, hloop⟩ := eachVma_currVmas (strcpyPage false) h addr
  obtain ⟨x, cs, rfl⟩ := hhead (hmapped 0 (Nat.zero_le _))
  have hlt := hfits.lt.1
  have hlen : strnlen buf 0 (pageSize - addr % pageSize) = len :=
    strnlen_eq hlt (fun i hi => by rw [Nat.zero_add]; exact hne i hi) (by rwa [Nat.zero_add])
  refine ⟨copyBytes mem x buf 0 (len + 1),
    mmapStrcpyVma_fits false mem buf hloop hchain hfits hlen, ?_, ?_⟩
  · intro i hi
    refine ⟨x + i, hchain.2.1 i (by omega), ?_⟩
    rw [copyBytes_in (Nat.lt_succ_of_le hi), Nat.zero_add]
  · intro y hy
    refine copyBytes_out ?_
    by_contra hin
    refine hy (y - x) (by omega) ((hchain.2.1 (y - x) (by omega)).trans (congrArg some ?_))
    omega

theorem fits_of_strSpans
    (hchain : Chain (userLoc vmas) addr z ((x, pageSize - addr % pageSize) :: cs))
    (hz : userLoc vmas z = none) (hne : ∀ i < len, buf i ≠ 0)
    (hspans : strSpans buf ((x, pageSize - addr % pageSize) :: cs) 0 = (len + 1, 0)) :
    Fits vmas addr len := by
  have hmod := Nat.mod_lt addr (show 0 < pageSize by decide)
  rw [strSpans] at hspans
  dsimp only at hspans
  split_ifs at hspans with hlt
  · obtain ⟨heq, -⟩ := Prod.mk.inj hspans
    exact .inl (by omega)
  · obtain ⟨hall, hover⟩ := Prod.mk.inj hspans
    have hk := strnlen_le buf 0 (pageSize - addr % pageSize)
    have hend : buf (0 + strnlen buf 0 (pageSize - addr % pageSize)) = 0 :=
      eq_zero_of_strnlen_lt (by omega)
    rw [Nat.zero_add] at hend
    have hlen : len ≤ strnlen buf 0 (pageSize - addr % pageSize) := by
      by_contra hlt
      exact hne _ (by omega) hend
    refine .inr ⟨by omega, ?_⟩
    cases cs with
    | nil =>
      obtain rfl : addr + (pageSize - addr % pageSize) = z := hchain.2.2
      rwa [show addr + (len + 1) = addr + (pageSize - addr % pageSize) by omega]
    | cons =>
      have hpos := hchain.2.2.1
      rw [strSpans] at hall
      dsimp only at hall
      split_ifs at hall <;> omega

/-- If `mmap_strcpy_to_vma` copies a string as it should, whatever the memory holds, it fits. -/
theorem fits_of_copiedIn (h : Complete vmas) (hdistinct : (vmas.flatMap Vma.pages).Nodup) (hne : ∀ i < len, buf i ≠ 0)
    (hmapped : ∀ i ≤ len, userLoc vmas (addr + i) ≠ none) (hzero : buf len = 0)
    (hcopied : ∀ mem, CopiedIn vmas addr len buf mem) : Fits vmas addr len := by
  have hinj := userLoc_injective h hdistinct
  obtain ⟨z, cs, hchain, hz, hhead, hsizes, hloop⟩ := eachVma_currVmas (strcpyPage false) h addr
  obtain ⟨x, cs, rfl⟩ := hhead (hmapped 0 (Nat.zero_le _))
  obtain ⟨hle, hover⟩ := strSpans_le hchain buf 0
  obtain ⟨written, hspec⟩ := strcpyTo_spec hchain hsizes buf 0 0
  have hlez := hchain.le
  refine fits_of_strSpans hchain hz hne ?_
  generalize strSpans buf ((x, pageSize - addr % pageSize) :: cs) 0 = spans at *
  -- what the copy has done, from both sides
  have hboth : ∀ mem : Store, ∃ mem' : Store, ((len + 1 : Nat) : Int) = int32 (0 + spans.1 + spans.2) ∧
      (∀ i < spans.1, ∀ y, userLoc vmas (addr + i) = some y → mem' y = written y) ∧
      (∀ y, (∀ i < spans.1, userLoc vmas (addr + i) ≠ some y) → mem' y = mem y) ∧
      (∀ i ≤ len, ∃ y, userLoc vmas (addr + i) = some y ∧ mem' y = buf i) ∧
      ∀ y, (∀ i ≤ len, userLoc vmas (addr + i) ≠ some y) → mem' y = mem y := by
    intro mem
    obtain ⟨mem', hres, hin, hout⟩ := hcopied mem
    obtain ⟨r, hr, -, htotal, hwritten, hkept⟩ := hspec mem
    rw [mmapStrcpyVma_eq hloop, show (0 : Int) = int32 0 from rfl, hr] at hres
    obtain ⟨hlen, rfl, -⟩ : r.total = (len + 1 : Nat) ∧ r.mem = mem' ∧ r.buf = buf := by
      simpa using hres
    exact ⟨r.mem, hlen.symm.trans htotal, hwritten, hkept, hin, hout⟩
  have hlower : len < spans.1 := by
    by_contra hlt
    obtain ⟨mem', -, -, hkept, hin, -⟩ := hboth fun _ => 1
    obtain ⟨y, hy, hval⟩ := hin len le_rfl
    rw [hkept y fun i hi hiy => ?_, hzero] at hval
    · cases hval
    · have := hinj _ _ y hy hiy
      omega
  have hupper : spans.1 ≤ len + 1 := by
    by_contra hgt
    obtain ⟨y, hy⟩ := Option.ne_none_iff_exists'.mp
      (hchain.mapped (show addr + (len + 1) < z by omega))
    obtain ⟨mem', -, hwritten, -, -, hout⟩ := hboth fun _ => written y + 1
    have hval := hwritten (len + 1) (by omega) y hy
    rw [hout y fun i hi hiy => ?_] at hval
    · exact ne_add_one _ hval.symm
    · have := hinj _ _ y hy hiy
      omega
  obtain ⟨-, htotal, -⟩ := hboth fun _ => 0
  have hexact : spans.2 = 0 := by
    unfold int32 Int.bmod at htotal
    dsimp only at htotal
    split_ifs at htotal <;> omega
  exact Prod.ext (by omega) hexact

/-- A string is copied as it should, whatever the destination holds, exactly when it fits. (To say
that it does not fit from a copy into the memory of a task, the pages have to be distinct.) -/
theorem mmapStrcpyVma_iff (h : Complete vmas) (addr len : Nat) :
    (∀ mem, StrSpan mem vmas addr len → userByte mem vmas (addr + len) = some 0 →
      ((∀ buf, CopiedOut vmas addr len mem buf) ↔ Fits vmas addr len)) ∧
    ∀ buf : Store, (∀ i < len, buf i ≠ 0) → buf len = 0 →
      (∀ i ≤ len, userLoc vmas (addr + i) ≠ none) →
        (Fits vmas addr len → ∀ mem, CopiedIn vmas addr len buf mem) ∧
        ((vmas.flatMap Vma.pages).Nodup → (∀ mem, CopiedIn vmas addr len buf mem) →
          Fits vmas addr len) := by
  refine ⟨fun mem hspan hzero => copiedOut_iff h hspan hzero, fun buf hne hzero hmapped => ⟨?_, ?_⟩⟩
  · exact fun hfits mem => copiedIn_of_fits h hne hzero hmapped hfits mem
  · exact fun hdistinct hcopied => fits_of_copiedIn h hdistinct hne hmapped hzero hcopied

/-- The string of a task whose pages hold ones up to a zero at the second byte of page 3. -/
def crossing : Store := fun x => if x = 0x3001 then 0 else 1

theorem mmapStrcpyVma_iff_short : CopiedOut twoVmas 0x2000 1 crossing fun _ => 0xff := by
  have hspan : StrSpan crossing twoVmas 0x2000 1 :=
    ⟨fun i hi => ⟨1, by rw [Nat.lt_one_iff.mp hi]; decide, by decide⟩, .inr (by decide)⟩
  exact ((mmapStrcpyVma_iff twoVmas_complete 0x2000 1).1 crossing hspan (by decide)).mpr
    (.inl (by decide)) _

/-- The string of length 2 that starts at the last byte of a page is taken for one of length 3, and
leaves a byte of the buffer behind its first one as it was. -/
theorem strcpy_crossing : StrSpan crossing twoVmas 0x1fff 2 ∧
    userByte crossing twoVmas (0x1fff + 2) = some 0 ∧
    (mmapStrcpyVma true twoVmas 0x1fff crossing fun _ => 0xff).map
      (fun r => (r.1, r.2.2 0, r.2.2 1, r.2.2 2, r.2.2 3)) = some (4, 1, 0xff, 1, 0) := by
  refine ⟨⟨fun i hi => ⟨1, ?_, by decide⟩, .inr (by decide)⟩, by decide, by decide +kernel⟩
  rcases (by omega : i = 0 ∨ i = 1) with rfl | rfl <;> decide

end Strcpy

end MinixRt.Mm
