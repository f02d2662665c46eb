import MinixRt.System.Stack
import MinixRt.Vfs.Image

/-!
# The arguments of a program

`create_elf_tables` makes a block for the addresses `[p, TASK_SIZE)` with the strings at its end.
`system_exec` puts the block on the new stack and a copy of the strings into a page below the
stack, and lets the pointers of the block point to that page. The pointers are the words from the
second on, without the NULL between the arguments and the environment.

The fields `arg_start`, `arg_end`, `env_start` and `env_end` are written to the `mm_struct` that
the task has before the call.
-/

namespace MinixRt.Vfs

open List Lib Mm MinixRt.System

/-! ## Words of a block -/

theorem leBytes_succ (n v : Nat) : leBytes (n + 1) v = BitVec.ofNat 8 v :: leBytes n (v / 256) := by
  simp only [leBytes, range_succ_eq_map, map_cons, map_map, pow_zero, Nat.div_one]
  refine congrArg _ (map_congr_left fun i _ => ?_)
  simp only [Function.comp_apply, pow_succ', Nat.div_div_eq_div_mul]

theorem leNat_leBytes (n v : Nat) : leNat (leBytes n v) = v % 256 ^ n := by
  induction n generalizing v with
  | zero => simp [leBytes, leNat, Nat.mod_one]
  | succ n ih =>
    rw [leBytes_succ, pow_succ', Nat.mod_mul, ← ih]
    rfl

section Relocate

variable {outside : Nat → Byte} {argv0 base off w k : Nat} {offs : List Nat} {block : List Byte}

theorem getElem?_setWord_of_ne (h : k < off ∨ off + 8 ≤ k) :
    (setWord block off w)[k]? = block[k]? := by
  have hne : ¬ (off ≤ k ∧ k < off + 8) := by omega
  simp only [setWord, getElem?_mapIdx, if_neg hne, Option.map_id']

theorem getElem?_setWord_self {j : Nat} (hlen : off + 8 ≤ block.length) (hj : j < 8) :
    (setWord block off w)[off + j]? = some (BitVec.ofNat 8 (w / 256 ^ j)) := by
  rw [setWord, getElem?_mapIdx, getElem?_eq_getElem (by omega), Option.map_some,
    if_pos (by omega), Nat.add_sub_cancel_left]

theorem wordAt_congr {block' : List Byte} (h : ∀ j < 8, block'[off + j]? = block[off + j]?) :
    wordAt block' outside off = wordAt block outside off := by
  refine congrArg leNat (map_congr_left fun j hj => ?_)
  rw [bufByte, bufByte, h j (mem_range.mp hj)]

theorem getElem?_relocate_of_ne (h : ∀ off ∈ offs, k < off ∨ off + 8 ≤ k) :
    (relocate outside argv0 base offs block)[k]? = block[k]? := by
  induction offs generalizing block with
  | nil => rfl
  | cons off offs ih =>
    rw [relocate, ih fun off' hoff => h off' (mem_cons_of_mem _ hoff)]
    exact getElem?_setWord_of_ne (h off mem_cons_self)

theorem getElem?_relocate {j : Nat} (hpair : offs.Pairwise fun a b => a + 8 ≤ b) (hoff : off ∈ offs)
    (hlen : off + 8 ≤ block.length) (hj : j < 8) :
    (relocate outside argv0 base offs block)[off + j]? =
      some (BitVec.ofNat 8 (u64 (base + sub64 (wordAt block outside off) argv0) / 256 ^ j)) := by
  induction offs generalizing block with
  | nil => cases hoff
  | cons o offs ih =>
    rw [pairwise_cons] at hpair
    rw [relocate]
    rcases mem_cons.mp hoff with rfl | hmem
    · rw [getElem?_relocate_of_ne fun off' hoff' => by have := hpair.1 off' hoff'; omega]
      exact getElem?_setWord_self hlen hj
    · have hafter := hpair.1 off hmem
      rw [ih hpair.2 hmem (by rw [setWord, length_mapIdx]; exact hlen),
        wordAt_congr fun j _ => getElem?_setWord_of_ne (by omega)]

end Relocate

/-! ## Pointers -/

section Pointers

variable {m m' : Nat → Option Byte} {a u : Nat} {ss : List CStr} {vs : List Nat}

theorem laid_words :
    Laid m a (vs.map wordPiece) ↔ ∀ i (h : i < vs.length), Holds m (a + 8 * i) (leBytes 8 vs[i]) := by
  induction vs generalizing a with
  | nil => exact ⟨fun _ i h => absurd h (Nat.not_lt_zero i), fun _ => trivial⟩
  | cons v vs ih =>
    rw [map_cons, Laid, ih, wordPiece_size]
    constructor
    · rintro ⟨hfirst, hrest⟩ i hi
      cases i with
      | zero => exact hfirst
      | succ i => exact (hrest i (Nat.lt_of_succ_lt_succ hi)).of_eq (by omega)
    · intro h
      exact ⟨h 0 (Nat.succ_pos _), fun i hi => (h (i + 1) (Nat.succ_lt_succ hi)).of_eq (by omega)⟩

theorem getElem_pointers (hu : u + rooms ss < 2 ^ 64) (i : Nat) (hi : i < (pointers u ss).length) :
    (pointers u ss)[i] = u + rooms (ss.take i) := by
  induction ss generalizing u i with
  | nil => cases hi
  | cons s ss ih =>
    rw [rooms_cons] at hu
    cases i with
    | zero => rfl
    | succ i =>
      have hnext : u64 (u + s.room) = u + s.room := Nat.mod_eq_of_lt (by omega)
      simp only [pointers, getElem_cons_succ, take_succ_cons, rooms_cons]
      rw [ih (by omega), hnext, Nat.add_assoc]

theorem laid_pointers {argv0 base n : Nat} (hptr : Laid m a ((pointers (argv0 + n) ss).map wordPiece))
    (hmove : ∀ i < ss.length, ∀ u < 2 ^ 64, Holds m (a + 8 * i) (leBytes 8 u) →
      Holds m' (a + 8 * i) (leBytes 8 (u64 (base + sub64 u argv0))))
    (hargv : argv0 + n + rooms ss < 2 ^ 64) (hbase : base + n + rooms ss < 2 ^ 64) :
    Laid m' a ((pointers (base + n) ss).map wordPiece) := by
  rw [laid_words] at hptr ⊢
  intro i hi
  have hi' : i < ss.length := by rwa [length_pointers] at hi
  have hword := hptr i (by rwa [length_pointers])
  have htake : rooms (ss.take i) ≤ rooms ss := by
    conv_rhs => rw [← take_append_drop i ss]
    rw [rooms_append]
    omega
  rw [getElem_pointers hargv] at hword
  rw [getElem_pointers hbase]
  have hmoved := hmove i hi' _ (by omega) hword
  have hsub : sub64 (argv0 + n + rooms (ss.take i)) argv0 = n + rooms (ss.take i) := by
    rw [sub64_of_le (by omega) (by omega)]
    omega
  rw [hsub, u64, Nat.mod_eq_of_lt (by omega), ← Nat.add_assoc] at hmoved
  exact hmoved

end Pointers

/-! ## The block on the new stack -/

/-- What the VFS passes after `create_elf_tables`: the fields of the `minix_rt_binprm`, and the
block in its memory. -/
structure Tables.Passed (x : Strings) (t : Tables) (read : Reader) (bprm : Binprm) : Prop where
  p : bprm.p = t.p
  mallocP : bprm.mallocP = t.mallocP
  argc : bprm.argc = BitVec.ofNat 32 x.argvs.length
  envc : bprm.envc = BitVec.ofNat 32 x.envps.length
  block : ∀ xs, read.read t.mallocP t.size = some xs →
    ∀ i (h : i < xs.length), xs[i] = t.block.mem (t.mallocP + i)

section Block

variable {arch : Arch} {x : Strings} {t : Tables} {read : Reader} {bprm : Binprm}
  {outside : Nat → Byte} {block : List Byte} {s : Space}

theorem toNat_toInt_ofNat {n : Nat} (h : n < 2 ^ 31) : (BitVec.ofNat 32 n).toInt.toNat = n := by
  have hmod : n % 2 ^ 32 = n := Nat.mod_eq_of_lt (by omega)
  rw [BitVec.toInt_eq_toNat_of_lt (by rw [BitVec.toNat_ofNat]; omega), BitVec.toNat_ofNat, hmod,
    Int.toNat_natCast]

theorem Tables.Passed.turns (h : t.Passed x read bprm) : bprm.argTurns = x.argvs.length + 1 ∧
      bprm.envTurns = x.argvs.length + 2 + x.envps.length := by
  have hlt := x.items_lt
  have harg : bprm.argTurns = x.argvs.length + 1 := by
    have hadd : BitVec.ofNat 32 x.argvs.length + 1 = BitVec.ofNat 32 (x.argvs.length + 1) :=
      (BitVec.ofNat_add ..).symm
    rw [Binprm.argTurns, h.argc, hadd, toNat_toInt_ofNat (by omega)]
  refine ⟨harg, ?_⟩
  rw [Binprm.envTurns, harg, h.envc, ← BitVec.ofNat_add, toNat_toInt_ofNat (by omega)]
  omega

theorem Tables.Passed.mem_offs (h : t.Passed x read bprm) {off : Nat} :
    off ∈ bprm.argOffs ++ bprm.envOffs ↔ (∃ i < x.argvs.length + 1, off = 8 + 8 * i) ∨
        ∃ i < x.envps.length, off = 8 * (x.argvs.length + 3) + 8 * i := by
  obtain ⟨harg, henv⟩ := h.turns
  simp only [mem_append, Binprm.argOffs, Binprm.envOffs, harg, henv, mem_map,
    mem_range, mem_range'_1, wordOff]
  refine or_congr ⟨?_, ?_⟩ ⟨?_, ?_⟩
  · rintro ⟨i, hi, rfl⟩
    exact ⟨i, hi, rfl⟩
  · rintro ⟨i, hi, rfl⟩
    exact ⟨i, hi, rfl⟩
  · rintro ⟨i, hi, rfl⟩
    exact ⟨i - (x.argvs.length + 2), by omega, by omega⟩
  · rintro ⟨i, hi, rfl⟩
    exact ⟨i + (x.argvs.length + 2), by omega, by omega⟩

theorem offs_pairwise (bprm : Binprm) :
    (bprm.argOffs ++ bprm.envOffs).Pairwise fun a b => a + 8 ≤ b := by
  rw [Binprm.argOffs, Binprm.envOffs, ← map_append, pairwise_map]
  refine List.Pairwise.imp (R := fun a b => a < b) ?_ ?_
  · intro a b hab
    unfold wordOff
    omega
  · rw [pairwise_append]
    refine ⟨pairwise_lt_range, pairwise_lt_range', fun a ha b hb => ?_⟩
    rw [mem_range] at ha
    rw [mem_range'_1] at hb
    omega

theorem wordAt_of_holds {m : Nat → Option Byte} {p off u : Nat}
    (hblock : ∀ j (h : j < block.length), m (p + j) = some block[j]) (hlen : off + 8 ≤ block.length)
    (hu : u < 2 ^ 64) (h : Holds m (p + off) (leBytes 8 u)) : wordAt block outside off = u := by
  have hbytes : (range 8).map (fun j => bufByte block outside (off + j)) = leBytes 8 u := by
    refine ext_getElem (by simp) fun j hj hj' => ?_
    rw [length_leBytes] at hj'
    have hword := h j (by rwa [length_leBytes])
    rw [Nat.add_assoc, hblock (off + j) (by omega)] at hword
    rw [getElem_map, getElem_range, bufByte, getElem?_eq_getElem (by omega),
      Option.getD_some]
    exact Option.some.inj hword
  rw [wordAt, hbytes, leNat_leBytes]
  exact Nat.mod_eq_of_lt hu

/-- The memory `m'` has the block of `m` at `p`, with pointers to a copy of the strings at `base`. -/
structure Moved (x : Strings) (p argv0 base : Nat) (m m' : Nat → Option Byte) (len : Nat) : Prop where
  /-- what is not a pointer -/
  stay : ∀ j < len, j < 8 ∨ 8 * (x.argvs.length + 2) ≤ j ∧ j < 8 * (x.argvs.length + 3) ∨
    8 * (x.argvs.length + 3 + x.envps.length) ≤ j → m' (p + j) = m (p + j)
  arg : ∀ i < x.argvs.length + 1, ∀ u < 2 ^ 64, Holds m (p + 8 + 8 * i) (leBytes 8 u) →
    Holds m' (p + 8 + 8 * i) (leBytes 8 (u64 (base + sub64 u argv0)))
  env : ∀ i < x.envps.length, ∀ u < 2 ^ 64,
    Holds m (p + 8 * (x.argvs.length + 3) + 8 * i) (leBytes 8 u) →
      Holds m' (p + 8 * (x.argvs.length + 3) + 8 * i) (leBytes 8 (u64 (base + sub64 u argv0)))
  strings : ∀ j < x.rooms, m' (base + j) = m (argv0 + j)

variable (hfills : t.Fills arch x System.taskSize)
include hfills

theorem Tables.Fills.layout : x.items = x.argvs.length + x.envps.length + 4 ∧
    t.p + 8 * x.items + 8 * t.auxv.index = t.top.argStart ∧
    t.top.argStart + x.rooms < System.taskSize ∧ t.p + t.size = System.taskSize ∧
    System.taskSize < 2 ^ 64 := by
  obtain ⟨h1, h2, h3, -, h4⟩ := hfills.top
  have hrooms : x.rooms = x.filename.room + rooms x.argvs + rooms x.envps := rfl
  have hitems : x.items = x.argvs.length + 1 + (x.envps.length + 1) + 1 + 1 := rfl
  exact ⟨by omega, hfills.strings, by omega, hfills.size, by decide⟩

theorem Moved.image {m' : Nat → Option Byte} {base : Nat}
    (h : Moved x t.p t.top.argStart base (t.memory System.taskSize) m' t.size)
    (hbase : base + x.rooms < 2 ^ 64) :
    Image m' t.p (x.filename :: x.argvs) x.envps t.auxv.list := by
  obtain ⟨hhead, haux, hstrings⟩ := hfills.parts
  obtain ⟨hitems, hstart, hroom, hsize, htask⟩ := hfills.layout
  have hrooms : x.rooms = x.filename.room + rooms x.argvs + rooms x.envps := rfl
  have hstay : ∀ {a : Nat} {xs : List Byte}, Holds (t.memory System.taskSize) a xs → t.p ≤ a →
      a + xs.length ≤ t.p + t.size → (a + xs.length ≤ t.p + 8 ∨
        t.p + 8 * (x.argvs.length + 2) ≤ a ∧ a + xs.length ≤ t.p + 8 * (x.argvs.length + 3) ∨
        t.p + 8 * (x.argvs.length + 3 + x.envps.length) ≤ a) → Holds m' a xs := by
    intro a xs hxs hle hend hout
    refine hxs.congr fun i hi => ?_
    have hplace : a + i = t.p + (a + i - t.p) := by omega
    rw [hplace]
    exact h.stay _ (by omega) (by omega)
  simp only [headWords, map_append, laid_append, Piece.total_append, total_words,
    length_pointers, map_cons, map_nil, Laid, Piece.total_cons, Piece.total_nil,
    wordPiece_size, length_cons] at hhead
  obtain ⟨⟨⟨⟨⟨hcount, -⟩, hptrs⟩, hnull, -⟩, heptrs⟩, henull, -⟩ := hhead
  have hword : ∀ v, (wordPiece v).bytes.length = 8 := fun v => length_leBytes 8 v
  refine image_of_laid (u := base) (w := base + (x.filename.room + rooms x.argvs)) ?_ ?_
    (hstrings.move ?_) hbase fun _ => rfl
  · simp only [headWords, map_append, laid_append, Piece.total_append, total_words,
      length_pointers, map_cons, map_nil, Laid, Piece.total_cons, Piece.total_nil,
      wordPiece_size, length_cons]
    refine ⟨⟨⟨⟨⟨?_, trivial⟩, ?_⟩, ?_, trivial⟩, ?_⟩, ?_, trivial⟩
    · exact hstay hcount le_rfl (by rw [hword]; omega) (by rw [hword]; omega)
    · rw [← Nat.add_zero t.top.argStart] at hptrs
      rw [← Nat.add_zero base]
      refine laid_pointers hptrs h.arg ?_ ?_
      · rw [rooms_cons]
        omega
      · rw [rooms_cons]
        omega
    · exact hstay hnull (by omega) (by rw [hword]; omega) (by rw [hword]; omega)
    · by_cases hne : x.envps = []
      · rw [hne]
        trivial
      · rw [hfills.envStart hne] at heptrs
        refine laid_pointers heptrs ?_ (by omega) (by omega)
        intro i hi u hu hptr
        exact (h.env i hi u hu (hptr.of_eq (by omega))).of_eq (by omega)
    · exact hstay henull (by omega) (by rw [hword]; omega) (by rw [hword]; omega)
  · have hlen : t.auxv.piece.bytes.length = 8 * t.auxv.index := Auxv.piece_size _
    exact hstay haux (by omega) (by omega) (by omega)
  · rw [total_stringPieces]
    exact h.strings

section Block

variable (hlen : block.length = t.size)
  (hblock : ∀ j (h : j < block.length), t.memory System.taskSize (t.p + j) = some block[j])
include hlen hblock

theorem argv0_of_block :
    wordAt block outside 8 = t.top.argStart := by
  obtain ⟨hhead, -, -⟩ := hfills.parts
  obtain ⟨hitems, hstart, hroom, hsize, htask⟩ := hfills.layout
  exact wordAt_of_holds hblock (by omega) (by omega) hhead.2.1

theorem Tables.Passed.moved (h : t.Passed x read bprm)
    (hstack : NewStack outside bprm block s) :
    Moved x t.p t.top.argStart bprm.stringBase (t.memory System.taskSize) (byteAt s) t.size := by
  obtain ⟨hitems, hstart, hroom, hsize, htask⟩ := hfills.layout
  have hlength : (bprm.relocated outside block).length = block.length := length_relocate ..
  have hargv : wordAt block outside 8 = t.top.argStart := argv0_of_block hfills hlen hblock
  have hmove : ∀ off ∈ bprm.argOffs ++ bprm.envOffs, off + 8 ≤ block.length → ∀ u < 2 ^ 64,
      Holds (t.memory System.taskSize) (t.p + off) (leBytes 8 u) →
      Holds (byteAt s) (t.p + off)
        (leBytes 8 (u64 (bprm.stringBase + sub64 u t.top.argStart))) := by
    intro off hoff hle u hu hword i hi
    rw [length_leBytes] at hi
    have hbyte := hstack.stack (off + i) (by omega)
    rw [h.p, ← Nat.add_assoc] at hbyte
    rw [hbyte, ← getElem?_eq_getElem, Binprm.relocated, getElem?_relocate (offs_pairwise bprm)
      hoff hle hi, hargv, wordAt_of_holds hblock hle hu hword, getElem_leBytes]
  refine ⟨fun j hj hout => ?_, fun i hi u hu hptr => ?_, fun i hi u hu hptr => ?_, fun j hj => ?_⟩
  · have hbyte := hstack.stack j (by omega)
    rw [h.p] at hbyte
    rw [hbyte, hblock j (by omega), ← getElem?_eq_getElem, ← getElem?_eq_getElem]
    refine getElem?_relocate_of_ne fun off hoff => ?_
    rcases h.mem_offs.mp hoff with ⟨i, hi, rfl⟩ | ⟨i, hi, rfl⟩
    · omega
    · omega
  · rw [Nat.add_assoc] at hptr ⊢
    exact hmove _ (h.mem_offs.mpr (.inl ⟨i, hi, rfl⟩)) (by omega) u hu hptr
  · rw [Nat.add_assoc] at hptr ⊢
    exact hmove _ (h.mem_offs.mpr (.inr ⟨i, hi, rfl⟩)) (by omega) u hu hptr
  · have hstrings : stringsSize outside block = System.taskSize - t.top.argStart := by
      rw [stringsSize, hargv, sub64_of_le (by omega) htask]
    have hoff : u64 (sub64 t.top.argStart t.p + j) = t.top.argStart - t.p + j := by
      rw [sub64_of_le (by omega) (by omega), u64, Nat.mod_eq_of_lt (by omega)]
    have hplace : t.top.argStart + j = t.p + (t.top.argStart - t.p + j) := by omega
    rw [hstack.strings j (by omega), Binprm.stringByte, hargv, h.p, hoff, hplace,
      hblock _ (by omega), bufByte, getElem?_eq_getElem (by omega), Option.getD_some]

end Block

theorem Tables.Passed.block_eq (h : t.Passed x read bprm)
    (hread : read.read bprm.mallocP bprm.len = some block) : block.length = t.size ∧
      ∀ j (h : j < block.length), t.memory System.taskSize (t.p + j) = some block[j] := by
  have hsize := hfills.size
  have hlen : bprm.len = t.size := by
    rw [Binprm.len, h.p, sub64_of_le (by omega) (by decide)]
    omega
  rw [h.mallocP, hlen] at hread
  have hlength : block.length = t.size := (read.length hread).1
  refine ⟨hlength, fun j hj => ?_⟩
  rw [Tables.memory, if_pos (by omega), Nat.add_sub_cancel_left, h.block block hread j hj]

theorem Tables.Passed.stringsSize (h : t.Passed x read bprm)
    (hread : read.read bprm.mallocP bprm.len = some block) :
    System.stringsSize outside block = x.rooms + 32 := by
  obtain ⟨hlen, hblock⟩ := h.block_eq hfills hread
  obtain ⟨h1, h2, h3, -, h4⟩ := hfills.top
  rw [System.stringsSize, argv0_of_block hfills hlen hblock, sub64_of_le (by omega) (by decide),
    Strings.rooms]
  omega

end Block

/-! ## The call -/

section Call

variable {arch : Arch} {x : Strings} {malloc : Nat → Option Nat} {mem : Store}
  {savedAuxv : Nat → Nat} {t : Tables} {b : Board} {outside behind : Nat → Byte} {read : Reader}
  {addr : Nat} {i : MmId} {k : Kernel} {bprm : Binprm} {xs : List Byte} {d : Done}

theorem fills_of_area (hplatform : arch.platform.bytes.length = 7)
    (h : createElfTables arch x malloc mem savedAuxv System.taskSize = .ok t)
    (harea : x.rooms + 32 ≤ pageSize) : t.Fills arch x System.taskSize := by
  obtain ⟨hindex, hturns⟩ := auxv_index h
  have hitems : x.items < 2 ^ 31 := x.items_lt
  refine fills_of_ok h hplatform ?_ (by decide)
  unfold pageSize at harea
  unfold System.taskSize
  omega

theorem plain_of_exec (h : VfsExec b outside behind read addr i k bprm xs d) :
    ∀ r, Listed read bprm.binprmInfo r → r.Plain := by
  intro r hr
  obtain ⟨mallocs, l, hload, hloaded⟩ := h.loaded
  obtain ⟨-, hgood, hrec⟩ := loadElfBinary_some hload
  rw [← hloaded.info] at hrec
  obtain ⟨ph, hph, next, rfl⟩ := hrec.of_listed hloaded.record hr
  have hph := hgood ph (mem_reverse.mp hph)
  refine ⟨?_, ph.prot_private⟩
  rw [(Phdr.info_range hph next).2.2.1]
  exact Phdr.top_le hph

theorem moved_of_exec (hk : k.Ok) (hi : k.mm i = none) (hfills : t.Fills arch x System.taskSize)
    (harea : x.rooms + 32 ≤ pageSize) (hpassed : t.Passed x read bprm)
    (h : VfsExec b outside behind read addr i k bprm xs d) :
    ∃ tsk mm, d.kernel.task bprm.pid = some tsk ∧ tsk.mm = some i ∧ tsk.regs.sp = t.p ∧
      d.kernel.mm i = some mm ∧ argFields mm = ⟨0, 0, 0, 0⟩ ∧ bprm.Short ∧
      Moved x t.p t.top.argStart bprm.stringBase (t.memory System.taskSize)
        (byteAt ⟨d.kernel.mem, mm⟩) t.size := by
  obtain ⟨block, tsk, mm, hread, hshort, ⟨htsk, htmm, hregs⟩, hmm, hargs, hstack⟩ :=
    newStack_of_exec hk hi h.call h.retval h.message (plain_of_exec h) fun block hread => by
      rw [hpassed.stringsSize hfills hread]
      exact harea
  obtain ⟨hlen, hblock⟩ := hpassed.block_eq hfills hread
  refine ⟨tsk, mm, htsk, htmm, ?_, hmm, hargs, hshort, hpassed.moved hfills hlen hblock hstack⟩
  rw [hregs, ← hpassed.p]
  rfl

/-- **The arguments of a program.** When the strings fit into a page, a program finds the strings
and the auxiliary vector at its stack pointer that the block of `create_elf_tables` shows. -/
theorem exec_keeps_arguments (hk : k.Ok) (hi : k.mm i = none)
    (hplatform : arch.platform.bytes.length = 7)
    (htables : createElfTables arch x malloc mem savedAuxv System.taskSize = .ok t)
    (harea : x.rooms + 32 ≤ pageSize) (hpassed : t.Passed x read bprm)
    (h : VfsExec b outside behind read addr i k bprm xs d) :
    t.top.argStart + (x.rooms + 32) = System.taskSize ∧
      ∃ tsk mm, d.kernel.task bprm.pid = some tsk ∧ tsk.mm = some i ∧ tsk.regs.sp = t.p ∧
        d.kernel.mm i = some mm ∧
        Image (t.memory System.taskSize) t.p (x.filename :: x.argvs) x.envps t.auxv.list ∧
        Image (byteAt ⟨d.kernel.mem, mm⟩) t.p (x.filename :: x.argvs) x.envps t.auxv.list := by
  have hfills := fills_of_area hplatform htables harea
  obtain ⟨tsk, mm, htsk, htmm, hsp, hmm, -, hshort, hmoved⟩ :=
    moved_of_exec hk hi hfills harea hpassed h
  have hbase : bprm.stringBase + x.rooms < 2 ^ 64 := by
    have hstring := hshort.bases.string
    have htop := hshort.bases.top
    unfold System.taskSize at htop
    unfold pageSize at harea hstring
    omega
  refine ⟨?_, tsk, mm, htsk, htmm, hsp, hmm, hfills.image (by decide), hmoved.image hfills hbase⟩
  obtain ⟨h1, h2, h3, -, h4⟩ := hfills.top
  unfold Strings.rooms
  omega

/-! ## The fields for the arguments -/

/-- The fields of `mm` for the arguments: the strings start in `[arg_start, arg_end)` and in
`[env_start, env_end)`, which lie in the page at `base`. -/
structure Booked (m : Nat → Option Byte) (p base : Nat) (x : Strings) (mm : MmStruct) : Prop where
  filename : Holds m (p + 8) (leBytes 8 mm.argStart)
  args : ∀ i < x.argvs.length + 1, ∀ u < 2 ^ 64, Holds m (p + 8 + 8 * i) (leBytes 8 u) →
    mm.argStart ≤ u ∧ u < mm.argEnd
  argPage : base ≤ mm.argStart ∧ mm.argEnd ≤ base + pageSize
  envs : ∀ i < x.envps.length, ∀ u < 2 ^ 64,
    Holds m (p + 8 * (x.argvs.length + 3) + 8 * i) (leBytes 8 u) → mm.envStart ≤ u ∧ u < mm.envEnd
  envPage : base ≤ mm.envStart ∧ mm.envEnd ≤ base + pageSize

/-- No call leaves the places of the strings in the `mm_struct` of the program. -/
theorem exec_never_books (hk : k.Ok) (hi : k.mm i = none)
    (hplatform : arch.platform.bytes.length = 7)
    (htables : createElfTables arch x malloc mem savedAuxv System.taskSize = .ok t)
    (harea : x.rooms + 32 ≤ pageSize) (hpassed : t.Passed x read bprm)
    (h : VfsExec b outside behind read addr i k bprm xs d) :
    ∃ tsk mm, d.kernel.task bprm.pid = some tsk ∧ tsk.mm = some i ∧ d.kernel.mm i = some mm ∧
      mm.argStart = 0 ∧ mm.argEnd = 0 ∧ mm.envStart = 0 ∧ mm.envEnd = 0 ∧
      ¬ Booked (byteAt ⟨d.kernel.mem, mm⟩) t.p bprm.stringBase x mm := by
  have hfills := fills_of_area hplatform htables harea
  obtain ⟨tsk, mm, htsk, htmm, -, hmm, hargs, hshort, -⟩ :=
    moved_of_exec hk hi hfills harea hpassed h
  obtain ⟨h1, h2, h3, h4⟩ := Args.mk.inj hargs
  refine ⟨tsk, mm, htsk, htmm, hmm, h1, h2, h3, h4, fun hbooked => ?_⟩
  have hpage := hbooked.argPage.1
  have hstring := hshort.bases.string
  have htop := hshort.bases.top
  have hsize := hshort.stackSize.2.2
  rw [h1] at hpage
  unfold System.taskSize at htop
  unfold pageSize at hstring
  omega

end Call

/-! ## A program with an argument -/

/-- `/bin/sh -c` without an environment. -/
def argsStrings : Strings := { sampleStrings with
  envps := []
  items_lt := by decide }

def argsTables : Except Int Tables :=
  createElfTables { sampleArch with cnt := 0 } argsStrings (fun _ => some 0x6000) (fun _ => 0)
    (fun _ => 0) System.taskSize

def argsBlock : List Byte :=
  match argsTables with
  | .error _ => []
  | .ok t => (range t.size).map fun i => t.block.mem (t.mallocP + i)

/-- The `minix_rt_binprm` for the file `sampleElf` with these tables. -/
def argsBprm : List Byte :=
  wordsAt sizeofBinprm [(128, 0x2000), (136, 2), (144, 0x3000), (152, 128), (160, 1),
    (184, 0x5000), (192, 0x400000), (200, 0x400000), (208, 0x400078), (216, 0x400000),
    (224, 0x400078), (264, 0x400078), (272, 0x400080), (648, System.taskSize - 216), (656, 0x6000),
    (680, 5)]

def argsReader : Reader :=
  .ofBlocks [(0x1000, argsBprm), (0x2000, [0x61, 0]), (0x3000, sampleElf 0x400000 0),
    (0x5000, sampleInfo 0x400000 0x1000 0), (0x6000, argsBlock)]

def argsExec : Option Done :=
  systemExec plainBoard (fun _ => 0) argsReader 0x1000 1 (sampleKernel 40)

theorem args_passed : ∃ t, argsTables = .ok t ∧
    t.Passed argsStrings argsReader (Binprm.ofBytes argsBprm) := by
  have hok : ∃ t, argsTables = .ok t := ⟨_, rfl⟩
  obtain ⟨t, ht⟩ := hok
  have hfields : (argsTables.map fun t => (t.p, t.mallocP, t.size)) =
      .ok (System.taskSize - 216, 0x6000, 216) := by decide +kernel
  rw [ht] at hfields
  obtain ⟨hp, hmalloc, hsize⟩ : t.p = System.taskSize - 216 ∧ t.mallocP = 0x6000 ∧ t.size = 216 := by
    simpa [Except.map] using hfields
  refine ⟨t, ht, ?_, ?_, by decide +kernel, by decide +kernel, fun ys hys j hj => ?_⟩
  · rw [hp]
    decide +kernel
  · rw [hmalloc]
    decide +kernel
  · have hblock : argsBlock = (range t.size).map fun i => t.block.mem (t.mallocP + i) := by
      rw [argsBlock, ht]
    have hread : argsReader.read 0x6000 216 = some argsBlock := by
      have hlen : argsBlock.length = 216 := by rw [hblock, hsize, length_map, length_range]
      simp [argsReader, Reader.ofBlocks, hlen]
    rw [hmalloc, hsize, hread] at hys
    obtain rfl := Option.some.inj hys
    simp [hblock]

theorem argsBprm_loaded : (Binprm.ofBytes argsBprm).Loaded argsReader
    (sampleArchive 0x400000 0) sampleVfs := by
  refine ⟨?_, sampleVfs_info ?_, ?_, ?_, ?_, ?_, ?_, ?_, ?_⟩ <;> decide +kernel

theorem argsExec_value :
    (argsExec.bind fun d => (d.kernel.mm 1).map fun mm => (d.retval, mm.argStart)) =
      some (0, 0) := by
  decide +kernel

theorem argsExec_some : ∃ d, argsExec = some d ∧
    VfsExec plainBoard (fun _ => 0) (fun _ => 0) argsReader 0x1000 1 (sampleKernel 40)
      (Binprm.ofBytes argsBprm) (sampleElf 0x400000 0) d := by
  obtain ⟨d, hd, h⟩ := Option.bind_eq_some_iff.mp argsExec_value
  obtain ⟨mm, -, h⟩ := Option.map_eq_some_iff.mp h
  have hread : argsReader.read 0x1000 sizeofBinprm = some argsBprm := by decide +kernel
  exact ⟨d, hd, by rw [hread, Option.map_some], by decide +kernel,
    ⟨_, sampleVfs, sampleVfs_loaded, argsBprm_loaded⟩, hd, (Prod.mk.inj h).1⟩

theorem exec_keeps_arguments_sample : ∃ t d mm, argsTables = .ok t ∧ argsExec = some d ∧
    d.kernel.mm 1 = some mm ∧
    Image (byteAt ⟨d.kernel.mem, mm⟩) t.p (argsStrings.filename :: argsStrings.argvs)
      argsStrings.envps t.auxv.list := by
  obtain ⟨t, ht, hpassed⟩ := args_passed
  obtain ⟨d, hd, hexec⟩ := argsExec_some
  obtain ⟨-, tsk, mm, -, -, -, hmm, -, himage⟩ := exec_keeps_arguments (sampleKernel_ok 40) rfl rfl
    ht (by decide) hpassed hexec
  exact ⟨t, d, mm, ht, hd, hmm, himage⟩

theorem exec_never_books_sample : ∃ d mm, argsExec = some d ∧ d.kernel.mm 1 = some mm ∧
    mm.argStart = 0 := by
  obtain ⟨t, ht, hpassed⟩ := args_passed
  obtain ⟨d, hd, hexec⟩ := argsExec_some
  obtain ⟨tsk, mm, -, -, hmm, hzero, -⟩ := exec_never_books (sampleKernel_ok 40) rfl rfl ht
    (by decide) hpassed hexec
  exact ⟨d, mm, hd, hmm, hzero⟩

/-- The strings of the program are in the page at 2^48 - 0x5000 and its `arg_start` is 0. -/
theorem exec_does_not_book : ∃ d mm, argsExec = some d ∧ d.retval = 0 ∧ d.kernel.mm 1 = some mm ∧
    ¬ Booked (byteAt ⟨d.kernel.mem, mm⟩) (System.taskSize - 216) (System.taskSize - 0x5000)
      argsStrings mm := by
  obtain ⟨d, hd, h⟩ := Option.bind_eq_some_iff.mp argsExec_value
  obtain ⟨mm, hmm, h⟩ := Option.map_eq_some_iff.mp h
  obtain ⟨hret, hzero⟩ := Prod.mk.inj h
  refine ⟨d, mm, hd, hret, hmm, fun hbooked => ?_⟩
  have hpage := hbooked.argPage.1
  rw [hzero] at hpage
  exact absurd hpage (by decide)

end MinixRt.Vfs
