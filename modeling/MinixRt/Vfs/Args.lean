import MinixRt.Lib.Ownership
import MinixRt.Mm.PageTable

/-!
# Gathering the arguments of a program

`do_execve_file` copies the two arrays of pointers of an exec message and the strings behind them.
`__count` goes through an array until it finds a `NULL`, and it does not stop at the end of the
array. `prepare_arg_pages` returns `argc` when the environment could not be gathered, so that
the call goes on with what has been freed.
-/

namespace MinixRt.Vfs

open List Function Lib Mm

inductive ArgKind
  | argv
  | envp
  deriving DecidableEq

/-- What is allocated for a list: the copy of the array, the array of the strings, a string. -/
inductive Block
  | native (k : ArgKind)
  | array (k : ArgKind)
  | str (k : ArgKind) (i : Nat)
  deriving DecidableEq

/-- A list of a message, and what the calls for it return. -/
structure ArgList where
  /-- the number of bytes of the array, an `int` -/
  len : BitVec 32
  /-- `native[i]`, with whatever lies behind the array -/
  word : Nat → Nat
  mallocNative : Bool
  /-- whether `message_memcpy` copies the array, if it has any bytes -/
  memcpyNative : Bool
  mallocArray : Bool
  /-- `message_strlen` is a size with the NUL or an error -/
  strlen : Nat → { n : Int // n ≠ 0 }
  mallocStr : Nat → Bool
  memcpyStr : Nat → Bool

def e2big : Int := 7

def maxArgStrings : Nat := 0x7FFFFFFF

/-- A result, the offsets at which `native` is read, and the operations on blocks. -/
structure Count where
  ret : Int
  reads : List Nat
  ops : List (HeapOp Block)

def Count.after (reads : List Nat) (ops : List (HeapOp Block)) (c : Count) : Count :=
  ⟨c.ret, reads ++ c.reads, ops ++ c.ops⟩

/-- Frees the first `n` strings. -/
def freeStrs (k : ArgKind) (n : Nat) : List (HeapOp Block) :=
  (range n).flatMap fun j => [.use (.array k), .free (.str k j)]

/-- The label `free_str`. -/
def freeStr (k : ArgKind) (n : Nat) : List (HeapOp Block) := freeStrs k n ++ [.free (.array k)]

/-- A string is allocated, entered in the array, and copied. -/
def copyStr (k : ArgKind) (i : Nat) : List (HeapOp Block) :=
  [.use (.native k), .malloc (.str k i), .use (.array k), .use (.str k i)]

/-- The loop of `__count` from `i` on, with `left` turns up to `max`. -/
def countLoop (k : ArgKind) (l : ArgList) : (left : Nat) → (i : Nat) → Count
  | 0, i =>
    if l.word i = 0 then ⟨i, [8 * i], [.use (.native k)]⟩
    else ⟨-e2big, [8 * i], .use (.native k) :: freeStr k i⟩
  | left + 1, i =>
    if l.word i = 0 then ⟨i, [8 * i], [.use (.native k)]⟩
    else if (l.strlen i).1 ≤ 0 then ⟨(l.strlen i).1, [8 * i], .use (.native k) :: freeStr k i⟩
    else if l.mallocStr i = false then
      ⟨-enomem, [8 * i], .use (.native k) :: .use (.array k) :: freeStr k i⟩
    else if l.memcpyStr i = false then ⟨-einval, [8 * i], copyStr k i ++ freeStr k (i + 1)⟩
    else (countLoop k l left (i + 1)).after [8 * i] (copyStr k i)

/-- `malloc(argv.len)` has memory. A negative `int` is a size that no block has. -/
def ArgList.hasNative (l : ArgList) : Bool := 0 ≤ l.len.toInt && l.mallocNative

/-- `message_memcpy` copies the array. It refuses a size of 0. -/
def ArgList.hasCopy (l : ArgList) : Bool := l.len ≠ 0 && l.memcpyNative

/-- `__count`, and whether the array pointer in the `minix_rt_binprm` is set. -/
def count (k : ArgKind) (l : ArgList) : Count × Bool :=
  if l.hasNative = false then (⟨-enomem, [], []⟩, false)
  else
    let copy := [.malloc (.native k), .use (.native k)]
    if l.hasCopy = false then (⟨-einval, [], copy ++ [.free (.native k)]⟩, false)
    else if l.mallocArray = false then (⟨-enomem, [], copy ++ [.free (.native k)]⟩, false)
    else
      let r := countLoop k l maxArgStrings 0
      (⟨r.ret, r.reads, copy ++ [.malloc (.array k)] ++ r.ops ++ [.free (.native k)]⟩, true)

/-- An exec message, with what the other calls of `do_execve_file` return. -/
structure ExecMessage where
  zallocBprm : Bool
  argv : ArgList
  envp : ArgList
  /-- whether `load_elf_binary` gets to `create_elf_tables` -/
  loads : Bool

/-- What `prepare_arg_pages` returns if it is called, what is read of each array, and the
operations. -/
structure Gathered where
  prepared : Option Int
  argvReads : List Nat
  envpReads : List Nat
  ops : List (HeapOp Block)

/-- `create_elf_tables` reads the strings. -/
def useStrs (k : ArgKind) (n : Nat) : List (HeapOp Block) :=
  (range n).flatMap fun j => [.use (.array k), .use (.str k j)]

/-- `free_count` for one list; `free` of `NULL` does nothing. -/
def freeCount (k : ArgKind) (c : Count × Bool) : List (HeapOp Block) :=
  freeStrs k c.1.ret.toNat ++ if c.2 then [.free (.array k)] else []

/-- `do_execve_file` with `prepare_arg_pages`. -/
def doExecveFile (m : ExecMessage) : Gathered :=
  if m.zallocBprm = false then ⟨none, [], [], []⟩
  else
    let a := count .argv m.argv
    if a.1.ret < 0 then ⟨some a.1.ret, a.1.reads, [], a.1.ops⟩
    else
      let e := count .envp m.envp
      let uses := if m.loads then useStrs .argv a.1.ret.toNat ++ useStrs .envp e.1.ret.toNat else []
      { prepared := some (if e.1.ret < 0 then a.1.ret else 0)
        argvReads := a.1.reads
        envpReads := e.1.reads
        ops := a.1.ops ++ e.1.ops ++ uses ++ freeCount .argv a ++ freeCount .envp e }

/-! ## What is asked of the call -/

/-- Entry `i` lies in the array. -/
def ArgList.Fits (l : ArgList) (i : Nat) : Prop := 8 * (i : Int) + 8 ≤ l.len.toInt

/-- Entry `i` is a string that can be copied. -/
structure ArgList.Good (l : ArgList) (i : Nat) : Prop where
  word : l.word i ≠ 0
  strlen : 0 < (l.strlen i).1
  malloc : l.mallocStr i = true
  memcpy : l.memcpyStr i = true

/-- The array is copied, and there is an array for the strings. -/
structure ArgList.Starts (l : ArgList) : Prop where
  native : l.hasNative = true
  copy : l.hasCopy = true
  array : l.mallocArray = true

/-- The list can be gathered: it has an end in the array, and every string before it can be
copied. -/
def ArgList.Gathers (l : ArgList) : Prop :=
  l.Starts ∧ ∃ n, l.Fits n ∧ l.word n = 0 ∧ ∀ i < n, l.Good i

/-- The list cannot be gathered, and this shows before its array ends. -/
def ArgList.FailsInside (l : ArgList) : Prop :=
  l.Starts → ∃ n, l.Fits n ∧ l.word n ≠ 0 ∧ ¬ l.Good n ∧ ∀ i < n, l.Good i

/-- Only the arrays are read, a failure is returned, and each block is freed once and not used
afterwards. -/
structure Orderly (m : ExecMessage) : Prop where
  argv : ∀ off ∈ (doExecveFile m).argvReads, (off : Int) + 8 ≤ m.argv.len.toInt
  envp : ∀ off ∈ (doExecveFile m).envpReads, (off : Int) + 8 ≤ m.envp.len.toInt
  prepared : ∀ r, (doExecveFile m).prepared = some r →
    (r < 0 ↔ ¬ (m.argv.Gathers ∧ m.envp.Gathers))
  blocks : runHeap (doExecveFile m).ops (fun _ => false) = some fun _ => false

variable {k : ArgKind} {l : ArgList} {n : Nat}

/-- A list that is neither gathered nor refused is read behind its array. -/
def ArgList.Overreads (l : ArgList) : Prop := l.Starts ∧ ∀ i, l.Fits i → l.Good i

theorem ArgList.cases (l : ArgList) : l.Gathers ∨ l.FailsInside ∨ l.Overreads := by
  classical
  by_cases hstarts : l.Starts
  · by_cases hall : ∀ i, l.Fits i → l.Good i
    · exact .inr (.inr ⟨hstarts, hall⟩)
    · have hex : ∃ i, l.Fits i ∧ ¬ l.Good i := by
        simpa only [not_forall, exists_prop] using hall
      obtain ⟨hfits, hbad⟩ := Nat.find_spec hex
      have hbefore : ∀ i < Nat.find hex, l.Good i := by
        intro i hi
        by_contra hbad
        refine Nat.find_min hex hi ⟨?_, hbad⟩
        unfold ArgList.Fits at *
        omega
      by_cases hword : l.word (Nat.find hex) = 0
      · exact .inl ⟨hstarts, _, hfits, hword, hbefore⟩
      · exact .inr (.inl fun _ => ⟨_, hfits, hword, hbad, hbefore⟩)
  · exact .inr (.inl fun h => absurd h hstarts)

theorem ArgList.FailsInside.not_gathers (h : l.FailsInside) : ¬ l.Gathers := by
  rintro ⟨hstarts, n, -, hnull, hgood⟩
  obtain ⟨n', -, hword, hbad, hgood'⟩ := h hstarts
  rcases Nat.lt_trichotomy n n' with hlt | rfl | hgt
  · exact (hgood' n hlt).word hnull
  · exact hword hnull
  · exact hbad (hgood n' hgt)

/-! ## The loop -/

theorem Count.after_after (reads reads' : List Nat) (ops ops' : List (HeapOp Block)) (c : Count) :
    (c.after reads' ops').after reads ops = c.after (reads ++ reads') (ops ++ ops') := by
  simp [Count.after]

theorem countLoop_good {left i : Nat} (h : l.Good i) :
    countLoop k l (left + 1) i = (countLoop k l left (i + 1)).after [8 * i] (copyStr k i) := by
  rw [countLoop, if_neg h.word, if_neg (not_le.mpr h.strlen), if_neg (by simp [h.malloc]),
    if_neg (by simp [h.memcpy])]

theorem countLoop_skip (h : ∀ i < n, l.Good i) (left : Nat) :
    countLoop k l (left + n) 0 = (countLoop k l left n).after ((range n).map (8 * ·))
      ((range n).flatMap (copyStr k)) := by
  induction n generalizing left with
  | zero => rfl
  | succ n ih =>
    have hbefore := ih (fun i hi => h i (Nat.lt_succ_of_lt hi)) (left + 1)
    rw [show left + (n + 1) = left + 1 + n by omega, hbefore, countLoop_good (h n n.lt_succ_self),
      Count.after_after, range_succ, map_append, flatMap_append,
      flatMap_singleton]
    rfl

theorem countLoop_max (h : ∀ i < n, l.Good i) (hn : n < maxArgStrings) :
    ∃ left, countLoop k l maxArgStrings 0 =
      (countLoop k l (left + 1) n).after ((range n).map (8 * ·)) ((range n).flatMap (copyStr k))
    := by
  refine ⟨maxArgStrings - n - 1, ?_⟩
  rw [← countLoop_skip h]
  congr 1
  omega

theorem ArgList.Fits.lt (h : l.Fits n) : n < maxArgStrings := by
  have := l.len.toInt_lt
  unfold ArgList.Fits at h
  unfold maxArgStrings
  omega

/-! ## The blocks of a list -/

/-- The blocks `live`, and the strings from `lo` up to `hi`. -/
def withStrs (live : Block → Bool) (k : ArgKind) (lo hi : Nat) : Block → Bool
  | .str k' j => live (.str k' j) || decide (k' = k ∧ lo ≤ j ∧ j < hi)
  | b => live b

section Blocks

variable {live : Block → Bool} {lo hi i : Nat}

@[simp] theorem withStrs_native (k' : ArgKind) :
    withStrs live k lo hi (.native k') = live (.native k') := rfl

@[simp] theorem withStrs_array (k' : ArgKind) :
    withStrs live k lo hi (.array k') = live (.array k') := rfl

theorem withStrs_empty (live : Block → Bool) (k : ArgKind) (n : Nat) :
    withStrs live k n n = live := by
  funext b
  cases b with
  | native k' | array k' => rfl
  | str k' j =>
    have : ¬ (k' = k ∧ n ≤ j ∧ j < n) := by omega
    simp [withStrs, this]

theorem withStrs_update_array (live : Block → Bool) (k k' : ArgKind) (v : Bool) :
    update (withStrs live k lo hi) (.array k') v =
      withStrs (update live (.array k') v) k lo hi := by
  funext b
  by_cases hb : b = .array k'
  · rw [hb, update_self, withStrs_array, update_self]
  · rw [update_of_ne hb]
    cases b with
    | native => rw [withStrs_native, withStrs_native, update_of_ne hb]
    | array => rw [withStrs_array, withStrs_array, update_of_ne hb]
    | str => simp only [withStrs, update_of_ne hb]

theorem withStrs_comm (live : Block → Bool) (k k' : ArgKind) (n n' : Nat) :
    withStrs (withStrs live k 0 n) k' 0 n' = withStrs (withStrs live k' 0 n') k 0 n := by
  funext b
  cases b with
  | native _ | array _ => rfl
  | str => exact Bool.or_right_comm _ _ _

theorem withStrs_malloc (live : Block → Bool) (k : ArgKind) (hi : Nat) :
    update (withStrs live k 0 hi) (.str k hi) true = withStrs live k 0 (hi + 1) := by
  funext b
  cases b with
  | native k' | array k' => rfl
  | str k' j =>
    by_cases hb : Block.str k' j = .str k hi
    · obtain ⟨rfl, rfl⟩ := Block.str.inj hb
      simp [withStrs]
    · rw [update_of_ne hb]
      have hiff : (k' = k ∧ 0 ≤ j ∧ j < hi) ↔ (k' = k ∧ 0 ≤ j ∧ j < hi + 1) := by
        constructor
        · rintro ⟨hk, -, hlt⟩
          exact ⟨hk, by omega, by omega⟩
        · rintro ⟨rfl, -, hlt⟩
          have hne : j ≠ hi := fun heq => hb (by rw [heq])
          exact ⟨rfl, by omega, by omega⟩
      simp only [withStrs, hiff]

theorem withStrs_free (hstr : live (.str k lo) = false) :
    update (withStrs live k lo hi) (.str k lo) false = withStrs live k (lo + 1) hi := by
  funext b
  cases b with
  | native k' | array k' => rfl
  | str k' j =>
    by_cases hb : Block.str k' j = .str k lo
    · obtain ⟨rfl, rfl⟩ := Block.str.inj hb
      simp [withStrs, hstr]
    · rw [update_of_ne hb]
      have hiff : (k' = k ∧ lo ≤ j ∧ j < hi) ↔ (k' = k ∧ lo + 1 ≤ j ∧ j < hi) := by
        constructor
        · rintro ⟨rfl, hle, hlt⟩
          have hne : j ≠ lo := fun heq => hb (by rw [heq])
          exact ⟨rfl, by omega, hlt⟩
        · rintro ⟨hk, hle, hlt⟩
          exact ⟨hk, by omega, hlt⟩
      simp only [withStrs, hiff]

variable (harray : live (.array k) = true)
include harray

theorem run_copyStr (hnative : live (.native k) = true) (hstr : live (.str k i) = false) :
    runHeap (copyStr k i) (withStrs live k 0 i) = some (withStrs live k 0 (i + 1)) := by
  have hfresh : withStrs live k 0 i (.str k i) = false := by simp [withStrs, hstr]
  have hnative : withStrs live k 0 i (.native k) = true := hnative
  have harray : withStrs live k 0 (i + 1) (.array k) = true := harray
  rw [copyStr, runHeap_use hnative, runHeap_malloc hfresh, withStrs_malloc, runHeap_use harray,
    runHeap_use (by simp [withStrs]), runHeap_nil]

theorem run_copyStrs (hnative : live (.native k) = true) (hstr : ∀ i, live (.str k i) = false)
    (n : Nat) : runHeap ((range n).flatMap (copyStr k)) live = some (withStrs live k 0 n) := by
  have h := runHeap_range (f := copyStr k) (withStrs live k 0) (n := n)
    fun i _ => run_copyStr harray hnative (hstr i)
  rwa [withStrs_empty] at h

theorem run_freeStrs (hstr : ∀ i, live (.str k i) = false) (n : Nat) :
    runHeap (freeStrs k n) (withStrs live k 0 n) = some live := by
  have h := runHeap_range (f := fun j => [.use (.array k), .free (.str k j)])
    (fun j => withStrs live k j n) (n := n) fun j hj => by
      have harray : withStrs live k j n (.array k) = true := harray
      rw [runHeap_use harray, runHeap_free (by simp [withStrs, hj]), withStrs_free (hstr j),
        runHeap_nil]
  rwa [withStrs_empty] at h

theorem run_useStrs (h : ∀ i < n, live (.str k i) = true) :
    runHeap (useStrs k n) live = some live := by
  refine runHeap_range (f := fun j => [.use (.array k), .use (.str k j)]) (fun _ => live)
    fun j hj => ?_
  rw [runHeap_use harray, runHeap_use (h j hj), runHeap_nil]

theorem run_freeStr (hstr : ∀ i, live (.str k i) = false) (n : Nat) :
    runHeap (freeStr k n) (withStrs live k 0 n) = some (update live (.array k) false) := by
  rw [freeStr, runHeap_append (run_freeStrs harray hstr n), runHeap_free harray, runHeap_nil]

end Blocks

/-! ## `__count` -/

/-- Nothing is allocated for the list. -/
structure Clear (live : Block → Bool) (k : ArgKind) : Prop where
  native : live (.native k) = false
  array : live (.array k) = false
  str : ∀ i, live (.str k i) = false

theorem countLoop_bad {live : Block → Bool} (left : Nat) (hword : l.word n ≠ 0) (hbad : ¬ l.Good n)
    (hnative : live (.native k) = true) (harray : live (.array k) = true)
    (hstr : ∀ i, live (.str k i) = false) :
    (countLoop k l (left + 1) n).ret < 0 ∧ (countLoop k l (left + 1) n).reads = [8 * n] ∧
      runHeap (countLoop k l (left + 1) n).ops (withStrs live k 0 n) =
        some (update live (.array k) false) := by
  have hfree := run_freeStr harray hstr n
  have hnative' : withStrs live k 0 n (.native k) = true := hnative
  have harray' : withStrs live k 0 n (.array k) = true := harray
  rw [countLoop, if_neg hword]
  by_cases hlen : (l.strlen n).1 ≤ 0
  · have hne := (l.strlen n).2
    rw [if_pos hlen]
    refine ⟨lt_of_le_of_ne hlen hne, rfl, ?_⟩
    rw [runHeap_use hnative', hfree]
  by_cases hmalloc : l.mallocStr n = false
  · rw [if_neg hlen, if_pos hmalloc]
    refine ⟨(by decide : -enomem < 0), rfl, ?_⟩
    rw [runHeap_use hnative', runHeap_use harray', hfree]
  by_cases hmemcpy : l.memcpyStr n = false
  · rw [if_neg hlen, if_neg hmalloc, if_pos hmemcpy]
    refine ⟨(by decide : -einval < 0), rfl, ?_⟩
    rw [runHeap_append (run_copyStr harray hnative (hstr n)), run_freeStr harray hstr]
  · exact absurd ⟨hword, not_le.mp hlen, Bool.eq_true_of_not_eq_false hmalloc,
      Bool.eq_true_of_not_eq_false hmemcpy⟩ hbad

theorem count_eq (h : l.Starts) :
    count k l = (⟨(countLoop k l maxArgStrings 0).ret, (countLoop k l maxArgStrings 0).reads,
      [.malloc (.native k), .use (.native k)] ++ [.malloc (.array k)] ++
        (countLoop k l maxArgStrings 0).ops ++ [.free (.native k)]⟩, true) := by
  simp only [count, h.native, h.copy, h.array, Bool.true_eq_false, if_false]

section Count

variable {live : Block → Bool}

def started (live : Block → Bool) (k : ArgKind) : Block → Bool :=
  update (update live (.native k) true) (.array k) true

theorem Clear.run_start (h : Clear live k) (ops : List (HeapOp Block)) :
    runHeap ([.malloc (.native k), .use (.native k)] ++ [.malloc (.array k)] ++ ops) live =
      runHeap ops (started live k) := by
  have harray : update live (.native k) true (.array k) = false := by
    rw [update_of_ne (by simp), h.array]
  show runHeap (.malloc (.native k) :: .use (.native k) :: .malloc (.array k) :: ops) live = _
  rw [runHeap_malloc h.native, runHeap_use (update_self ..), runHeap_malloc harray, started]

theorem Clear.started_native : started live k (.native k) = true := by
  rw [started, update_of_ne (by simp), update_self]

theorem Clear.started_array : started live k (.array k) = true := update_self ..

theorem Clear.started_str (h : Clear live k) (i : Nat) : started live k (.str k i) = false := by
  rw [started, update_of_ne (by simp), update_of_ne (by simp), h.str]

theorem Clear.stop (h : Clear live k) :
    update (update (started live k) (.array k) false) (.native k) false = live := by
  funext b
  by_cases hn : b = .native k
  · rw [hn, update_self, h.native]
  by_cases ha : b = .array k
  · rw [ha, update_of_ne (by simp), update_self, h.array]
  · rw [update_of_ne hn, update_of_ne ha, started, update_of_ne ha,
      update_of_ne hn]

theorem reads_fit (hfits : l.Fits n) :
    ∀ off ∈ (range n).map (8 * ·) ++ [8 * n], ((off : Nat) : Int) + 8 ≤ l.len.toInt := by
  intro off hoff
  unfold ArgList.Fits at hfits
  rcases mem_append.mp hoff with hoff | hoff
  · obtain ⟨i, hi, rfl⟩ := mem_map.mp hoff
    have := mem_range.mp hi
    omega
  · rw [mem_singleton.mp hoff]
    omega

theorem count_failsInside (h : l.FailsInside) (hclear : Clear live k) : (count k l).1.ret < 0 ∧
      (∀ off ∈ (count k l).1.reads, ((off : Nat) : Int) + 8 ≤ l.len.toInt) ∧
      runHeap (count k l).1.ops live = some live := by
  have hcopy : runHeap ([.malloc (.native k), .use (.native k)] ++ [.free (.native k)]) live =
      some live := by
    show runHeap (.malloc (.native k) :: .use (.native k) :: [.free (.native k)]) live = _
    rw [runHeap_malloc hclear.native, runHeap_use (update_self ..),
      runHeap_free (update_self ..), runHeap_nil, update_idem,
      ← hclear.native, update_eq_self]
  by_cases hstarts : l.Starts
  · obtain ⟨n, hfits, hword, hbad, hgood⟩ := h hstarts
    obtain ⟨left, hloop⟩ := countLoop_max (k := k) hgood hfits.lt
    obtain ⟨hret, hreads, hrun⟩ := countLoop_bad left hword hbad
      Clear.started_native Clear.started_array hclear.started_str
    rw [count_eq hstarts, hloop]
    refine ⟨hret, ?_, ?_⟩
    · simp only [Count.after, hreads]
      exact reads_fit hfits
    · have hcopies := run_copyStrs Clear.started_array Clear.started_native hclear.started_str n
      simp only [Count.after]
      rw [append_assoc, hclear.run_start, append_assoc, runHeap_append hcopies,
        runHeap_append hrun, runHeap_free, runHeap_nil, hclear.stop]
      rw [update_of_ne (by simp), Clear.started_native]
  · unfold count
    by_cases hnative : l.hasNative = false
    · rw [if_pos hnative]
      exact ⟨(by decide : -enomem < 0), nofun, rfl⟩
    by_cases hmemcpy : l.hasCopy = false
    · rw [if_neg hnative, if_pos hmemcpy]
      exact ⟨(by decide : -einval < 0), nofun, hcopy⟩
    by_cases hmalloc : l.mallocArray = false
    · rw [if_neg hnative, if_neg hmemcpy, if_pos hmalloc]
      exact ⟨(by decide : -enomem < 0), nofun, hcopy⟩
    · exact absurd ⟨Bool.eq_true_of_not_eq_false hnative, Bool.eq_true_of_not_eq_false hmemcpy,
        Bool.eq_true_of_not_eq_false hmalloc⟩ hstarts

theorem count_gathers (hstarts : l.Starts) (hfits : l.Fits n) (hnull : l.word n = 0)
    (hgood : ∀ i < n, l.Good i) (hclear : Clear live k) :
    (count k l).1.ret = n ∧ (count k l).2 = true ∧
      (∀ off ∈ (count k l).1.reads, ((off : Nat) : Int) + 8 ≤ l.len.toInt) ∧
      runHeap (count k l).1.ops live = some (withStrs (update live (.array k) true) k 0 n) := by
  obtain ⟨left, hloop⟩ := countLoop_max (k := k) hgood hfits.lt
  have hend : countLoop k l (left + 1) n = ⟨n, [8 * n], [.use (.native k)]⟩ := by
    rw [countLoop, if_pos hnull]
  rw [count_eq hstarts, hloop, hend]
  refine ⟨rfl, rfl, reads_fit hfits, ?_⟩
  have hcopies := run_copyStrs Clear.started_array Clear.started_native hclear.started_str n
  have hnative : withStrs (started live k) k 0 n (.native k) = true := Clear.started_native
  simp only [Count.after]
  rw [append_assoc, hclear.run_start, append_assoc, runHeap_append hcopies,
    singleton_append, runHeap_use hnative, runHeap_free hnative, runHeap_nil]
  congr 1
  funext b
  by_cases hb : b = .native k
  · rw [hb, update_self, withStrs_native, update_of_ne (by simp), hclear.native]
  · rw [update_of_ne hb]
    have hlive : started live k b = update live (.array k) true b := by
      by_cases ha : b = .array k
      · rw [ha, Clear.started_array, update_self]
      · rw [started, update_of_ne ha, update_of_ne hb, update_of_ne ha]
    cases b with
    | native k' | array k' => exact hlive
    | str => simp only [withStrs, hlive]

theorem count_overreads (h : l.Overreads) :
    ∃ off ∈ (count k l).1.reads, l.len.toInt < ((off : Nat) : Int) + 8 := by
  obtain ⟨hstarts, hall⟩ := h
  have hlen : 0 ≤ l.len.toInt := by
    have := hstarts.native
    simp only [ArgList.hasNative, Bool.and_eq_true, decide_eq_true_eq] at this
    exact this.1
  have hlt := l.len.toInt_lt
  have hgood : ∀ i < (l.len.toInt / 8).toNat, l.Good i := by
    intro i hi
    apply hall
    unfold ArgList.Fits
    omega
  have hmax : (l.len.toInt / 8).toNat < maxArgStrings := by
    unfold maxArgStrings
    omega
  obtain ⟨left, hloop⟩ := countLoop_max (k := k) hgood hmax
  refine ⟨8 * (l.len.toInt / 8).toNat, ?_, by omega⟩
  have hread : 8 * (l.len.toInt / 8).toNat ∈
      (countLoop k l (left + 1) (l.len.toInt / 8).toNat).reads := by
    rw [countLoop]
    split_ifs <;> simp [Count.after]
  rw [count_eq hstarts, hloop]
  exact mem_append_right _ hread

end Count

/-! ## The whole call -/

variable {m : ExecMessage}

def bothArrays : Block → Bool :=
  update (update (fun _ => false) (.array .argv) true) (.array .envp) true

theorem run_gathered (na ne : Nat) (loads : Bool) :
    runHeap ((if loads then useStrs .argv na ++ useStrs .envp ne else []) ++ freeStr .argv na ++
      freeStr .envp ne) (withStrs (withStrs bothArrays .argv 0 na) .envp 0 ne) =
      some fun _ => false := by
  generalize hboth : bothArrays = both
  have hargv : both (.array .argv) = true := by rw [← hboth]; rfl
  have henvp : both (.array .envp) = true := by rw [← hboth]; rfl
  have hstr : ∀ k i, both (.str k i) = false := fun k i => by rw [← hboth]; rfl
  have huse : runHeap (if loads then useStrs .argv na ++ useStrs .envp ne else [])
      (withStrs (withStrs both .argv 0 na) .envp 0 ne) =
        some (withStrs (withStrs both .argv 0 na) .envp 0 ne) := by
    split_ifs
    · have harray : withStrs (withStrs both .argv 0 na) .envp 0 ne (.array .argv) = true := hargv
      have hargvs := run_useStrs (n := na) harray fun i hi => by simp [withStrs, hi]
      rw [runHeap_append hargvs]
      exact run_useStrs henvp fun i hi => by simp [withStrs, hi]
    · rfl
  have hargv' : withStrs both .envp 0 ne (.array .argv) = true := hargv
  have hfree := run_freeStr hargv' (fun i => by simp [withStrs, hstr]) na
  rw [withStrs_update_array] at hfree
  have henvp' : update both (.array .argv) false (.array .envp) = true := henvp
  have hfree' := run_freeStr henvp'
    (fun i => by rw [update_of_ne (by simp), hstr]) ne
  rw [append_assoc, runHeap_append huse, withStrs_comm, runHeap_append hfree, hfree']
  congr 1
  rw [← hboth]
  funext b
  simp only [bothArrays, update_apply]
  split_ifs <;> rfl

theorem doExecveFile_of_fails (hbprm : m.zallocBprm = true)
    (hret : (count .argv m.argv).1.ret < 0) :
    doExecveFile m = ⟨some (count .argv m.argv).1.ret, (count .argv m.argv).1.reads, [],
      (count .argv m.argv).1.ops⟩ := by
  simp only [doExecveFile, hbprm, Bool.true_eq_false, if_false, if_pos hret]

theorem doExecveFile_argvReads (hbprm : m.zallocBprm = true) :
    (doExecveFile m).argvReads = (count .argv m.argv).1.reads := by
  simp only [doExecveFile, hbprm, Bool.true_eq_false, if_false]
  split_ifs <;> rfl

theorem count_nonneg (h : l.Gathers) : 0 ≤ (count k l).1.ret := by
  obtain ⟨hstarts, n, hfits, hnull, hgood⟩ := h
  have hclear : Clear (fun _ => false) k := ⟨rfl, rfl, fun _ => rfl⟩
  obtain ⟨hret, -⟩ := count_gathers hstarts hfits hnull hgood hclear
  omega

theorem doExecveFile_envpReads (hbprm : m.zallocBprm = true) (h : m.argv.Gathers) :
    (doExecveFile m).envpReads = (count .envp m.envp).1.reads := by
  simp only [doExecveFile, hbprm, Bool.true_eq_false, if_false, if_neg (not_lt.mpr (count_nonneg h))]

theorem doExecveFile_prepared (hbprm : m.zallocBprm = true) (h : m.argv.Gathers) :
    (doExecveFile m).prepared = some (if (count .envp m.envp).1.ret < 0
      then (count .argv m.argv).1.ret else 0) := by
  simp only [doExecveFile, hbprm, Bool.true_eq_false, if_false, if_neg (not_lt.mpr (count_nonneg h))]

theorem orderly_of_failsInside (hbprm : m.zallocBprm = true) (h : m.argv.FailsInside) :
    Orderly m := by
  have hclear : Clear (fun _ => false) .argv := ⟨rfl, rfl, fun _ => rfl⟩
  obtain ⟨hret, hreads, hrun⟩ := count_failsInside h hclear
  have heq := doExecveFile_of_fails hbprm hret
  refine ⟨?_, ?_, ?_, ?_⟩ <;> rw [heq]
  · exact hreads
  · exact nofun
  · rintro r ⟨⟩
    exact iff_of_true hret fun hall => h.not_gathers hall.1
  · exact hrun

theorem orderly_of_gathers (hbprm : m.zallocBprm = true) (hargv : m.argv.Gathers)
    (henvp : m.envp.Gathers) : Orderly m := by
  have hall := And.intro hargv henvp
  obtain ⟨hstarts, na, hfits, hnull, hgood⟩ := hargv
  obtain ⟨hstarts', ne, hfits', hnull', hgood'⟩ := henvp
  obtain ⟨hret, hptr, hreads, hrun⟩ := count_gathers hstarts hfits hnull hgood
    (⟨rfl, rfl, fun _ => rfl⟩ : Clear (fun _ => false) .argv)
  have hclear : Clear (withStrs (update (fun _ => false) (.array .argv) true) .argv 0 na)
      .envp := ⟨rfl, rfl, fun i => by simp [withStrs]⟩
  obtain ⟨hret', hptr', hreads', hrun'⟩ := count_gathers hstarts' hfits' hnull' hgood' hclear
  have hpos : ¬ (count .argv m.argv).1.ret < 0 := by omega
  have hpos' : ¬ (count .envp m.envp).1.ret < 0 := by omega
  refine ⟨?_, ?_, ?_, ?_⟩ <;>
    simp only [doExecveFile, hbprm, Bool.true_eq_false, if_false, if_neg hpos]
  · exact hreads
  · exact hreads'
  · rintro r ⟨⟩
    rw [if_neg hpos']
    exact iff_of_false (lt_irrefl 0) fun h => h hall
  · have hstrs := run_gathered na ne m.loads
    rw [withStrs_update_array] at hrun'
    simp only [freeCount, hret, hret', hptr, hptr', Int.toNat_natCast, if_true, append_assoc]
    rw [runHeap_append hrun, runHeap_append hrun']
    simpa only [freeStr, append_assoc, bothArrays] using hstrs

/-- A call keeps to its arrays, reports a failure, and frees each of its blocks once just when it
has no memory for the `minix_rt_binprm`, fails in the array of arguments, or can gather both
lists. -/
theorem gather_orderly_iff (m : ExecMessage) :
    Orderly m ↔ m.zallocBprm = false ∨ m.argv.FailsInside ∨ (m.argv.Gathers ∧ m.envp.Gathers) := by
  by_cases hbprm : m.zallocBprm = false
  · refine iff_of_true ?_ (.inl hbprm)
    have heq : doExecveFile m = ⟨none, [], [], []⟩ := if_pos hbprm
    refine ⟨?_, ?_, ?_, ?_⟩ <;> rw [heq]
    · exact nofun
    · exact nofun
    · exact nofun
    · rfl
  have hbprm' := Bool.eq_true_of_not_eq_false hbprm
  rw [or_iff_right hbprm]
  constructor
  · intro h
    rcases m.argv.cases with hargv | hargv | hargv
    · rcases m.envp.cases with henvp | henvp | henvp
      · exact .inr ⟨hargv, henvp⟩
      · have hclear : Clear (fun _ => false) .envp := ⟨rfl, rfl, fun _ => rfl⟩
        obtain ⟨hret, -, -⟩ := count_failsInside henvp hclear
        have hneg := (h.prepared _ (doExecveFile_prepared hbprm' hargv)).mpr
          fun hall => henvp.not_gathers hall.2
        rw [if_pos hret] at hneg
        have := count_nonneg (k := .argv) hargv
        omega
      · obtain ⟨off, hoff, hlt⟩ := count_overreads (k := .envp) henvp
        have hle := h.envp off (by rwa [doExecveFile_envpReads hbprm' hargv])
        omega
    · exact .inl hargv
    · obtain ⟨off, hoff, hlt⟩ := count_overreads (k := .argv) hargv
      have hle := h.argv off (by rwa [doExecveFile_argvReads hbprm'])
      omega
  · rintro (h | ⟨hargv, henvp⟩)
    · exact orderly_of_failsInside hbprm' h
    · exact orderly_of_gathers hbprm' hargv henvp

/-- A list of one string and a second one that cannot be read. -/
def unreadable : ArgList where
  len := 24
  word i := if i < 2 then 0x1000 else 0
  mallocNative := true
  memcpyNative := true
  mallocArray := true
  strlen i := if i = 0 then ⟨5, by decide⟩ else ⟨-22, by decide⟩
  mallocStr _ := true
  memcpyStr _ := true

/-- An empty list, and one that does not end in its array. -/
def oneWord (word : Nat → Nat) : ArgList :=
  { unreadable with len := 8, word }

/-- Behind an array without `NULL` the next word is read; and with an environment that cannot be
read `prepare_arg_pages` returns 0 and the array of the environment is freed twice. -/
theorem gather_disorderly :
    8 ∈ (doExecveFile ⟨true, oneWord fun i => if i = 0 then 0x1000 else 0, oneWord fun _ => 0,
      true⟩).argvReads ∧
    (doExecveFile ⟨true, oneWord fun _ => 0, unreadable, true⟩).prepared = some 0 ∧
    (runHeap (doExecveFile ⟨true, oneWord fun _ => 0, unreadable, true⟩).ops
      fun _ => false).isNone := by
  decide +kernel

end MinixRt.Vfs
