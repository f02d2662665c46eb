import MinixRt.Vfs.Tables

/-!
# The block agrees with the addresses

The addresses of the strings are computed downwards and the block is written upwards. Both use the
same sizes, so that the block fills `[p, task_size)` and each pointer in it points to its string.
-/

namespace MinixRt.Vfs

open List Function Lib Mm MinixRt.System

variable {arch : Arch} {x : Strings} {malloc : Nat → Option Nat} {mem : Store}
  {savedAuxv : Nat → Nat} {taskSize : Nat} {t : Tables} {v : Auxv} {a : Nat}
  {m : Nat → Option Byte} {top : StackTop}

/-! ## Sizes -/

def rooms (ss : List CStr) : Nat := (ss.map CStr.room).sum

@[simp] theorem rooms_cons (s : CStr) (ss : List CStr) : rooms (s :: ss) = s.room + rooms ss := by
  simp [rooms]

theorem CStr.room_le (s : CStr) : s.room ≤ 8 * s.data.length := by
  unfold CStr.room CStr.data
  rw [length_append, length_singleton]
  omega

theorem CStr.room_mod (s : CStr) : s.room % 8 = 0 := Nat.mul_mod_left _ _

theorem rooms_append (ss ts : List CStr) : rooms (ss ++ ts) = rooms ss + rooms ts := by
  simp [rooms]

theorem rooms_le (ss : List CStr) : rooms ss ≤ 8 * (ss.map (·.data.length)).sum := by
  induction ss with
  | nil => exact Nat.zero_le _
  | cons s =>
    have := s.room_le
    rw [rooms_cons, map_cons, sum_cons]
    omega

theorem rooms_mod (ss : List CStr) : rooms ss % 8 = 0 := by
  induction ss with
  | nil => rfl
  | cons s =>
    have := s.room_mod
    rw [rooms_cons]
    omega

def Strings.rooms (x : Strings) : Nat :=
  x.filename.room + Vfs.rooms x.argvs + Vfs.rooms x.envps

theorem Strings.rooms_le (x : Strings) : x.rooms ≤ 8 * x.size := by
  have h1 := x.filename.room_le
  have h2 := Vfs.rooms_le x.argvs
  have h3 := Vfs.rooms_le x.envps
  unfold Strings.rooms Strings.size
  omega

/-! ## The addresses -/

theorem stackStrings_fst (ss : List CStr) (top : Nat) (h : rooms ss ≤ top) (htop : top < 2 ^ 64) :
    (stackStrings ss top).1 = top - rooms ss := by
  induction ss with
  | nil => rfl
  | cons s ss ih =>
    rw [rooms_cons] at h ⊢
    show sub64 (stackStrings ss top).1 s.room = _
    rw [ih (by omega), sub64_of_le (by omega) (by omega)]
    omega

variable {ss : List CStr}

theorem stackStrings_snd (top : Nat) (h : ss ≠ []) :
    (stackStrings ss top).2 = (stackStrings ss top).1 := by
  cases ss with
  | nil => exact absurd rfl h
  | cons => rfl

/-- The addresses, when there is room for them below `task_size`. -/
structure StackTop.Right (x : Strings) (taskSize : Nat) (t : StackTop) : Prop where
  platform : t.uPlatform + 8 = taskSize
  random : t.uRandBytes + 16 = t.uPlatform
  env : t.argEnd + rooms x.envps + 8 = t.uRandBytes
  envStart : x.envps ≠ [] → t.envStart = t.argEnd
  arg : t.argStart + x.filename.room + rooms x.argvs = t.argEnd

theorem stackTop_right {platform : CStr} (hplatform : platform.bytes.length = 7)
    (hroom : x.rooms + 32 ≤ taskSize) (htask : taskSize < 2 ^ 64) :
    (stackTop platform x taskSize).Right x taskSize := by
  unfold Strings.rooms at hroom
  have h1 : sub64 taskSize 8 = taskSize - 8 := sub64_of_le (by omega) htask
  have h2 : sub64 (taskSize - 8) 16 = taskSize - 24 := by
    rw [sub64_of_le (by omega) (by omega)]
    omega
  have h3 : sub64 (taskSize - 24) 8 = taskSize - 32 := by
    rw [sub64_of_le (by omega) (by omega)]
    omega
  have henv := stackStrings_fst x.envps (taskSize - 32) (by omega) (by omega)
  have harg := stackStrings_fst x.argvs (taskSize - 32 - rooms x.envps) (by omega) (by omega)
  have hfile : sub64 (taskSize - 32 - rooms x.envps - rooms x.argvs) x.filename.room =
      taskSize - 32 - rooms x.envps - rooms x.argvs - x.filename.room :=
    sub64_of_le (by omega) (by omega)
  refine ⟨?_, ?_, ?_, fun hne => stackStrings_snd _ hne, ?_⟩ <;>
    simp only [stackTop, hplatform, h1, h2, h3, henv, harg, hfile] <;> omega

/-! ## The auxiliary vector -/

/-- The entries `es` behind those that are there. -/
def Auxv.add (v : Auxv) (es : List (Nat × Nat)) : Auxv :=
  es.foldl (fun v e => v.newAuxEnt e.1 e.2) v

def Auxv.list (v : Auxv) : List Nat := (range v.index).map v.words

theorem pairs_cons (e : Nat × Nat) (es : List (Nat × Nat)) :
    pairs (e :: es) = [e.1, e.2] ++ pairs es := rfl

theorem pairs_append (es es' : List (Nat × Nat)) : pairs (es ++ es') = pairs es ++ pairs es' :=
  flatMap_append

theorem Auxv.newAuxEnt_list (v : Auxv) (id val : Nat) :
    (v.newAuxEnt id val).list = v.list ++ [id, val] := by
  have hlow : ∀ i ∈ range v.index, (v.newAuxEnt id val).words i = v.words i := by
    intro i hi
    have hlt := mem_range.mp hi
    show update (update v.words v.index id) (v.index + 1) val i = _
    rw [update_of_ne (by omega), update_of_ne (by omega)]
  have hid : (v.newAuxEnt id val).words v.index = id := by
    show update (update v.words v.index id) (v.index + 1) val v.index = _
    rw [update_of_ne (by omega), update_self]
  have hval : (v.newAuxEnt id val).words (v.index + 1) = val := update_self ..
  show (range (v.index + 1 + 1)).map _ = _
  rw [range_succ, range_succ, map_append, map_append, map_congr_left hlow,
    map_singleton, map_singleton, hid, hval, append_assoc]
  rfl

theorem Auxv.add_list (v : Auxv) (es : List (Nat × Nat)) :
    (v.add es).list = v.list ++ pairs es := by
  induction es generalizing v with
  | nil => exact (append_nil _).symm
  | cons e es ih =>
    show ((v.newAuxEnt e.1 e.2).add es).list = _
    rw [ih, Auxv.newAuxEnt_list, pairs_cons, append_assoc]

theorem Auxv.add_index (v : Auxv) (es : List (Nat × Nat)) :
    (v.add es).index = v.index + 2 * es.length := by
  induction es generalizing v with
  | nil => rfl
  | cons e es ih =>
    show ((v.newAuxEnt e.1 e.2).add es).index = _
    rw [ih, length_cons]
    show v.index + 2 + 2 * es.length = _
    omega

theorem Auxv.add_writes (v : Auxv) (es : List (Nat × Nat)) {w : Nat × Nat}
    (hw : w ∈ (v.add es).writes) : w ∈ v.writes ∨ w.1 + w.2 ≤ v.index + 2 * es.length := by
  induction es generalizing v with
  | nil => exact .inl hw
  | cons e es ih =>
    rw [length_cons]
    rcases ih (v.newAuxEnt e.1 e.2) hw with hmem | hle
    · rcases mem_append.mp hmem with hold | hnew
      · exact .inl hold
      · rw [mem_singleton.mp hnew]
        exact .inr (by omega)
    · have : (v.newAuxEnt e.1 e.2).index = v.index + 2 := rfl
      exact .inr (by omega)

theorem ownEntries_ne_zero : ∀ e ∈ ownEntries arch top, e.1 ≠ 0 := by
  simp [ownEntries, atHwcap, atPagesz, atClktck, atPhent, atFlags, atRandom, atPlatform]

/-- What the architecture has given for the numbers from `i` on. -/
def Arch.Gives (arch : Arch) (i : Nat) (es : List (Nat × Nat)) : Prop :=
  ∀ k (h : k < es.length), ∃ e, arch.auxvec (i + k) = .ok e ∧ es[k] = (e.1.toNat, e.2.toNat)

theorem archEntries_ok {n i : Nat} {v' : Auxv} (h : Auxv.archEntries arch n i v = .ok v') :
    ∃ es, es.length = n ∧ arch.Gives i es ∧ v' = v.add es := by
  induction n generalizing i v with
  | zero =>
    cases h
    exact ⟨[], rfl, nofun, rfl⟩
  | succ n ih =>
    rw [Auxv.archEntries] at h
    cases hget : arch.auxvec i with
    | error =>
      rw [hget] at h
      cases h
    | ok e =>
      rw [hget] at h
      obtain ⟨es, hlen, hgives, rfl⟩ := ih h
      refine ⟨(e.1.toNat, e.2.toNat) :: es, by rw [length_cons, hlen], ?_, rfl⟩
      intro k hk
      cases k with
      | zero => exact ⟨e, hget, rfl⟩
      | succ k =>
        obtain ⟨e', he', heq⟩ := hgives k (Nat.lt_of_succ_lt_succ hk)
        refine ⟨e', ?_, heq⟩
        rw [← he']
        congr 1
        omega

theorem createAuxv_ok (h : createAuxv arch top savedAuxv = .ok v) :
    ∃ es u, es.length = arch.turns ∧ arch.Gives 0 es ∧
      u = (Auxv.add ⟨savedAuxv, 0, []⟩ es).add (ownEntries arch top) ∧
      u.index = 2 * arch.turns + 14 ∧ v = { u.clear with index := u.index + 2 } := by
  unfold createAuxv at h
  cases harch : Auxv.archEntries arch arch.turns 0 ⟨savedAuxv, 0, []⟩ with
  | error =>
    rw [harch] at h
    cases h
  | ok =>
    rw [harch] at h
    obtain ⟨es, hlen, hgives, rfl⟩ := archEntries_ok harch
    cases h
    refine ⟨es, _, hlen, hgives, rfl, ?_, rfl⟩
    rw [Auxv.add_index, Auxv.add_index, hlen]
    show 0 + 2 * arch.turns + 2 * 7 = _
    omega

theorem createAuxv_list (h : createAuxv arch top savedAuxv = .ok v) (hturns : arch.turns ≤ 2) :
    ∃ es, es.length = arch.turns ∧ arch.Gives 0 es ∧ v.list = auxWords (es ++ ownEntries arch top) ∧
      v.index = 2 * arch.turns + 16 ∧ ∀ w ∈ v.writes, w.1 + w.2 ≤ atVectorSize := by
  obtain ⟨es, u, hlen, hgives, hall, hindex, rfl⟩ := createAuxv_ok h
  have hlist : u.list = pairs (es ++ ownEntries arch top) := by
    rw [hall, Auxv.add_list, Auxv.add_list, pairs_append]
    rfl
  have hwrites : ∀ w ∈ u.writes, w.1 + w.2 ≤ u.index := by
    intro w hw
    rw [hall] at hw ⊢
    have hi := Auxv.add_index ⟨savedAuxv, 0, []⟩ es
    rw [Auxv.add_index]
    rcases Auxv.add_writes _ _ hw with hmem | hle
    · rcases Auxv.add_writes _ _ hmem with hmem | hle
      · cases hmem
      · omega
    · omega
  have hn : sub64 (8 * atVectorSize) (8 * u.index) / 8 = atVectorSize - u.index := by
    unfold atVectorSize
    rw [sub64_of_le (by omega) (by omega)]
    omega
  refine ⟨es, hlen, hgives, ?_, by show u.index + 2 = _; omega, ?_⟩
  · have hlow : ∀ i ∈ range u.index, u.clear.words i = u.words i := by
      intro i hi
      have hlt := mem_range.mp hi
      exact if_neg (by omega)
    have hhigh : ∀ i, u.index ≤ i → i < u.index + 2 → u.clear.words i = 0 := by
      intro i hi hi'
      refine if_pos ⟨hi, ?_⟩
      rw [hn]
      unfold atVectorSize
      omega
    show (range (u.index + 1 + 1)).map u.clear.words = _
    rw [range_succ, range_succ, map_append, map_append,
      map_congr_left hlow, map_singleton, map_singleton,
      hhigh _ (by omega) (by omega), hhigh _ (by omega) (by omega), append_assoc, auxWords,
      ← hlist]
    rfl
  · intro w hw
    have hle : u.index ≤ atVectorSize := by
      unfold atVectorSize
      omega
    rcases mem_append.mp hw with hw | hw
    · exact (hwrites w hw).trans hle
    · rw [mem_singleton.mp hw, hn]
      show u.index + (atVectorSize - u.index) ≤ _
      omega

/-! ## The pieces of the block -/

/-- The addresses of strings that follow each other from `u` on. -/
def pointers : Nat → List CStr → List Nat
  | _, [] => []
  | u, s :: ss => u :: pointers (u64 (u + s.room)) ss

theorem putPointers_eq (ss : List CStr) (u : Nat) (c : Cursor) :
    putPointers ss u c = c.putAll ((pointers u ss).map wordPiece) := by
  induction ss generalizing u c with
  | nil => rfl
  | cons s ss ih => exact ih _ _

theorem putStrings_eq (ss : List CStr) (c : Cursor) :
    putStrings ss c = c.putAll (ss.map CStr.piece) := by
  induction ss generalizing c with
  | nil => rfl
  | cons s ss ih => exact ih _

@[simp] theorem length_pointers (u : Nat) (ss : List CStr) :
    (pointers u ss).length = ss.length := by
  induction ss generalizing u with
  | nil => rfl
  | cons s ss ih => rw [pointers, length_cons, ih, length_cons]

@[simp] theorem wordPiece_size (v : Nat) : (wordPiece v).size = 8 := rfl

@[simp] theorem randPiece_size (random : Fin 16 → Byte) : (randPiece random).size = 16 := rfl

@[simp] theorem CStr.piece_size (s : CStr) : s.piece.size = s.room := rfl

@[simp] theorem total_words (vs : List Nat) : Piece.total (vs.map wordPiece) = 8 * vs.length := by
  induction vs with
  | nil => rfl
  | cons v vs ih =>
    rw [map_cons, Piece.total_cons, ih, length_cons, wordPiece_size]
    omega

@[simp] theorem total_strings (ss : List CStr) : Piece.total (ss.map CStr.piece) = rooms ss := by
  induction ss with
  | nil => rfl
  | cons s ss ih => rw [map_cons, Piece.total_cons, ih, rooms_cons, CStr.piece_size]

@[simp] theorem Auxv.piece_size (v : Auxv) : v.piece.size = 8 * v.index := by
  have hlen : ∀ vs : List Nat, (vs.flatMap (leBytes 8)).length = 8 * vs.length := by
    intro vs
    induction vs with
    | nil => rfl
    | cons w vs ih =>
      rw [flatMap_cons, length_append, length_leBytes, ih, length_cons]
      omega
  show (((range v.index).map v.words).flatMap (leBytes 8)).length = _
  rw [hlen, length_map, length_range]

def headPieces (x : Strings) (top : StackTop) : List Piece :=
  ([x.argvs.length + 1, top.argStart] ++ pointers (u64 (top.argStart + x.filename.room)) x.argvs ++
    [0] ++ pointers top.envStart x.envps ++ [0]).map wordPiece

def stringPieces (x : Strings) : List Piece :=
  x.filename.piece :: x.argvs.map CStr.piece ++ x.envps.map CStr.piece

def lowerPieces (arch : Arch) (x : Strings) (top : StackTop) (v : Auxv) : List Piece :=
  headPieces x top ++ v.piece :: (stringPieces x ++ [wordPiece 0, randPiece arch.random])

theorem writeBlock_eq (arch : Arch) (x : Strings) (top : StackTop) (v : Auxv) (c : Cursor) :
    writeBlock arch x top v c = c.putAll (lowerPieces arch x top v ++ [arch.platform.piece]) := by
  simp [writeBlock, putPointers_eq, putStrings_eq, lowerPieces, headPieces, stringPieces,
    Cursor.putAll_append, map_append]

theorem total_headPieces (x : Strings) (top : StackTop) :
    Piece.total (headPieces x top) = 8 * x.items := by
  rw [headPieces, total_words]
  simp only [length_append, length_cons, length_nil, length_pointers, Strings.items]
  omega

theorem total_stringPieces (x : Strings) : Piece.total (stringPieces x) = x.rooms := by
  rw [stringPieces, Piece.total_append, Piece.total_cons, total_strings, total_strings]
  rfl

theorem total_lowerPieces (arch : Arch) (x : Strings) (top : StackTop) (v : Auxv) :
    Piece.total (lowerPieces arch x top v) = 8 * x.items + 8 * v.index + x.rooms + 24 := by
  rw [lowerPieces, Piece.total_append, Piece.total_cons, Piece.total_append, total_headPieces,
    total_stringPieces, Auxv.piece_size]
  simp only [Piece.total_cons, Piece.total_nil, wordPiece_size, randPiece_size]
  omega

theorem PointsTo.of_eq {b : Nat} {s : CStr} (h : PointsTo m a s) (heq : b = a) :
    PointsTo m b s := heq ▸ h

theorem pointsTo_of_laid {u : Nat} (hptr : Laid m a ((pointers u ss).map wordPiece))
    (hstr : Laid m u (ss.map CStr.piece)) (hu : u + rooms ss < 2 ^ 64) (i : Nat)
    (hi : i < ss.length) : PointsTo m (a + 8 * i) ss[i] := by
  induction ss generalizing a u i with
  | nil => cases hi
  | cons s ss ih =>
    rw [rooms_cons] at hu
    have hnext : u64 (u + s.room) = u + s.room := Nat.mod_eq_of_lt (by omega)
    cases i with
    | zero => exact ⟨u, by omega, hptr.1, hstr.1⟩
    | succ i =>
      have hptr := hptr.2
      rw [hnext, wordPiece_size] at hptr
      exact (ih hptr hstr.2 (by omega) i (Nat.lt_of_succ_lt_succ hi)).of_eq (by omega)

/-! ## The image -/

def Tables.pieces (arch : Arch) (x : Strings) (t : Tables) : List Piece :=
  lowerPieces arch x t.top t.auxv ++ [arch.platform.piece]

section

variable (h : createElfTables arch x malloc mem savedAuxv taskSize = .ok t)
include h

theorem createElfTables_ok :
    t.top = stackTop arch.platform x taskSize ∧ createAuxv arch t.top savedAuxv = .ok t.auxv ∧
      t.p = sub64 (sub64 t.top.argStart (8 * t.auxv.index)) (8 * x.items) ∧
      t.size = sub64 taskSize t.p ∧
      t.block = (Cursor.mk t.mallocP mem []).putAll (t.pieces arch x) := by
  unfold createElfTables at h
  simp only at h
  cases haux : createAuxv arch (stackTop arch.platform x taskSize) savedAuxv with
  | error =>
    rw [haux] at h
    cases h
  | ok =>
    rw [haux] at h
    simp only at h
    split at h
    · cases h
    · cases h
      exact ⟨rfl, haux, rfl, rfl, writeBlock_eq ..⟩

theorem auxv_index : t.auxv.index = 2 * arch.turns + 16 ∧ arch.turns < 2 ^ 31 := by
  obtain ⟨-, haux, -, -, -⟩ := createElfTables_ok h
  obtain ⟨es, u, -, -, -, hindex, hv⟩ := createAuxv_ok haux
  constructor
  · rw [hv]
    show u.index + 2 = _
    omega
  · have := (arch.cnt.setWidth 32).toInt_lt
    unfold Arch.turns
    omega

/-- The block fills the addresses from `p` on. -/
structure Tables.Fills (arch : Arch) (x : Strings) (taskSize : Nat) (t : Tables) : Prop where
  top : t.top.Right x taskSize
  strings : t.p + 8 * x.items + 8 * t.auxv.index = t.top.argStart
  total : t.p + Piece.total (t.pieces arch x) = taskSize
  size : t.p + t.size = taskSize
  block : ∃ mem, t.block = (Cursor.mk t.mallocP mem []).putAll (t.pieces arch x)

theorem fills_of_ok (hplatform : arch.platform.bytes.length = 7)
    (hroom : x.rooms + 32 + 8 * x.items + 8 * t.auxv.index ≤ taskSize) (htask : taskSize < 2 ^ 64) :
    t.Fills arch x taskSize := by
  obtain ⟨htop, -, hp, hsize, hblock⟩ := createElfTables_ok h
  have hright : t.top.Right x taskSize := by
    rw [htop]
    exact stackTop_right hplatform (by omega) htask
  have h1 := hright.platform
  have h2 := hright.random
  have h3 := hright.env
  have h4 := hright.arg
  unfold Strings.rooms at hroom
  have hstart : t.p = t.top.argStart - 8 * t.auxv.index - 8 * x.items := by
    have haux : sub64 t.top.argStart (8 * t.auxv.index) = t.top.argStart - 8 * t.auxv.index :=
      sub64_of_le (by omega) (by omega)
    rw [hp, haux, sub64_of_le (by omega) (by omega)]
  have hplat : arch.platform.room = 8 := by
    rw [CStr.room, hplatform]
  have htotal : Piece.total (t.pieces arch x) = 8 * x.items + 8 * t.auxv.index + x.rooms + 32 := by
    rw [Tables.pieces, Piece.total_append, total_lowerPieces, Piece.total_cons, CStr.piece_size,
      hplat, Piece.total_nil]
  unfold Strings.rooms at htotal
  refine ⟨hright, by omega, by omega, ?_, mem, hblock⟩
  rw [hsize, sub64_of_le (by omega) htask]
  omega

end

/-- The words in front of the auxiliary vector, with the strings of the arguments from `u` on and
those of the environment from `w` on. -/
def headWords (x : Strings) (u w : Nat) : List Nat :=
  [x.argvs.length + 1] ++ pointers u (x.filename :: x.argvs) ++ [0] ++ pointers w x.envps ++ [0]

theorem headPieces_eq (x : Strings) (top : StackTop) :
    headPieces x top = (headWords x top.argStart top.envStart).map wordPiece := by
  simp [headPieces, headWords, pointers]

theorem image_of_laid {p u w : Nat} (hhead : Laid m p ((headWords x u w).map wordPiece))
    (haux : Holds m (p + 8 * x.items) v.piece.bytes) (hstrings : Laid m u (stringPieces x))
    (hu : u + x.rooms < 2 ^ 64) (hw : x.envps ≠ [] → w = u + (x.filename.room + rooms x.argvs)) :
    Image m p (x.filename :: x.argvs) x.envps v.list := by
  have hitems : x.items = x.argvs.length + 1 + (x.envps.length + 1) + 1 + 1 := rfl
  unfold Strings.rooms at hu
  rw [stringPieces, laid_append, Piece.total_cons, total_strings, CStr.piece_size] at hstrings
  obtain ⟨hargs, henvs⟩ := hstrings
  simp only [headWords, map_append, laid_append, Piece.total_append, total_words,
    length_pointers, map_cons, map_nil, Laid, Piece.total_cons, Piece.total_nil,
    wordPiece_size, length_cons] at hhead
  obtain ⟨⟨⟨⟨⟨hcount, -⟩, hptrs⟩, hnull, -⟩, heptrs⟩, henull, -⟩ := hhead
  refine ⟨hcount, ?_, ?_, ?_, ?_, ?_⟩
  · intro i hi
    exact (pointsTo_of_laid hptrs hargs (by rw [rooms_cons]; omega) i hi).of_eq (by omega)
  · rw [length_cons]
    exact hnull.of_eq (by omega)
  · intro i hi
    have henv := hw fun hnil => by simp [hnil] at hi
    rw [← henv] at henvs
    rw [length_cons]
    exact (pointsTo_of_laid heptrs henvs (by omega) i hi).of_eq (by omega)
  · rw [length_cons]
    exact henull.of_eq (by omega)
  · intro i hi
    rw [length_cons]
    exact (holds_flatMap haux i hi).of_eq (by omega)

section

variable (h : t.Fills arch x taskSize)
include h

theorem Tables.Fills.laid : Laid (t.memory taskSize) t.p (t.pieces arch x) := by
  obtain ⟨mem, hblock⟩ := h.block
  have hlaid := Cursor.laid_putAll ⟨t.mallocP, mem, []⟩ (t.pieces arch x)
  refine hlaid.move fun j hj => ?_
  have htotal := h.total
  unfold Tables.memory
  rw [if_pos (by omega), hblock, Nat.add_sub_cancel_left]

theorem Tables.Fills.parts :
    Laid (t.memory taskSize) t.p ((headWords x t.top.argStart t.top.envStart).map wordPiece) ∧
      Holds (t.memory taskSize) (t.p + 8 * x.items) t.auxv.piece.bytes ∧
      Laid (t.memory taskSize) t.top.argStart (stringPieces x) := by
  have hlaid := h.laid
  rw [Tables.pieces, laid_append, lowerPieces, laid_append, total_headPieces, headPieces_eq] at hlaid
  obtain ⟨⟨hhead, haux, hrest⟩, -⟩ := hlaid
  rw [Auxv.piece_size, h.strings, laid_append] at hrest
  exact ⟨hhead, haux, hrest.1⟩

theorem Tables.Fills.envStart (hne : x.envps ≠ []) :
    t.top.envStart = t.top.argStart + (x.filename.room + rooms x.argvs) := by
  obtain ⟨-, -, -, henv, harg⟩ := h.top
  rw [henv hne]
  omega

theorem Tables.Fills.image (htask : taskSize < 2 ^ 64) :
    Image (t.memory taskSize) t.p (x.filename :: x.argvs) x.envps t.auxv.list := by
  obtain ⟨hhead, haux, hstrings⟩ := h.parts
  refine image_of_laid hhead haux hstrings ?_ h.envStart
  obtain ⟨h1, h2, h3, -, h4⟩ := h.top
  unfold Strings.rooms
  omega

theorem Tables.Fills.above : Holds (t.memory taskSize) t.top.uRandBytes (ofFn arch.random) ∧
      Holds (t.memory taskSize) t.top.uPlatform arch.platform.data := by
  have hlaid := h.laid
  have hstrings := h.strings
  obtain ⟨h1, h2, h3, -, h4⟩ := h.top
  rw [Tables.pieces, laid_append, total_lowerPieces, lowerPieces, laid_append,
    total_headPieces] at hlaid
  obtain ⟨⟨-, -, hrest⟩, hplatform, -⟩ := hlaid
  rw [Auxv.piece_size, hstrings, laid_append, total_stringPieces] at hrest
  obtain ⟨-, -, hrand, -⟩ := hrest
  unfold Strings.rooms at hrand hplatform
  exact ⟨hrand.of_eq (by rw [wordPiece_size]; omega), hplatform.of_eq (by omega)⟩

theorem Tables.Fills.writes (hplatform : arch.platform.bytes.length = 7) :
    (∀ w ∈ t.block.writes, t.mallocP ≤ w.1 ∧ w.1 + w.2 ≤ t.mallocP + t.size) ∧
      ∃ w, t.block.writes.getLast? = some w ∧ w.1 + w.2 = t.mallocP + t.size := by
  obtain ⟨mem, hblock⟩ := h.block
  have htotal := h.total
  have hsize := h.size
  have hplat : arch.platform.piece.bytes.length = arch.platform.piece.size := by
    show arch.platform.data.length = arch.platform.room
    rw [CStr.data, CStr.room, length_append, length_singleton, hplatform]
  rw [hblock]
  constructor
  · intro w hw
    rcases Cursor.putAll_writes _ _ hw with hw | hw
    · cases hw
    · rwa [show t.size = Piece.total (t.pieces arch x) by omega]
  · refine ⟨_, Cursor.putAll_getLast .., ?_⟩
    rw [Tables.pieces, Piece.total_append, Piece.total_cons, Piece.total_nil, Nat.add_zero,
      ← hplat] at htotal
    show t.mallocP + _ + _ = _
    omega

end

/-- **The first stack of a program.** The block has the size of the addresses from `p` on, it is
written up to its end and not beyond, and it shows the strings and the auxiliary vector. -/
theorem create_elf_tables_image (hplatform : arch.platform.bytes.length = 7)
    (hcnt : arch.turns ≤ 2) (htypes : ∀ i < arch.turns, ∀ e, arch.auxvec i = .ok e → e.1 ≠ 0)
    (hsize : x.size < 2 ^ 31) (htask : 2 ^ 36 ≤ taskSize) (htask' : taskSize < 2 ^ 64)
    (h : createElfTables arch x malloc mem savedAuxv taskSize = .ok t) :
    t.p + t.size = taskSize ∧
      (∀ w ∈ t.block.writes, t.mallocP ≤ w.1 ∧ w.1 + w.2 ≤ t.mallocP + t.size) ∧
      (∃ w, t.block.writes.getLast? = some w ∧ w.1 + w.2 = t.mallocP + t.size) ∧
      (∀ w ∈ t.auxv.writes, w.1 + w.2 ≤ atVectorSize) ∧
      ∃ es r u, arch.Gives 0 es ∧ es.length = arch.turns ∧
        (∀ e ∈ es ++ ownEntries arch t.top, e.1 ≠ 0) ∧
        Image (t.memory taskSize) t.p (x.filename :: x.argvs) x.envps
          (auxWords (es ++ ownEntries arch t.top)) ∧
        (atRandom, r) ∈ ownEntries arch t.top ∧
        Holds (t.memory taskSize) r (List.ofFn arch.random) ∧
        (atPlatform, u) ∈ ownEntries arch t.top ∧
        Holds (t.memory taskSize) u arch.platform.data := by
  obtain ⟨-, haux, -, -, -⟩ := createElfTables_ok h
  obtain ⟨es, hlen, hgives, hlist, hindex, hwrites⟩ := createAuxv_list haux hcnt
  have hroom : x.rooms + 32 + 8 * x.items + 8 * t.auxv.index ≤ taskSize := by
    have h1 := x.rooms_le
    have h2 : x.items < 2 ^ 31 := x.items_lt
    omega
  have hfills := fills_of_ok h hplatform hroom htask'
  obtain ⟨hinside, hlast⟩ := hfills.writes hplatform
  obtain ⟨hrand, hplat⟩ := hfills.above
  refine ⟨hfills.size, hinside, hlast, hwrites, es, _, _, hgives, hlen, ?_, ?_, ?_, hrand, ?_,
    hplat⟩
  · intro e he
    rcases mem_append.mp he with he | he
    · obtain ⟨k, hk, rfl⟩ := getElem_of_mem he
      obtain ⟨e', he', heq⟩ := hgives k hk
      rw [heq]
      intro hzero
      rw [Nat.zero_add] at he'
      exact htypes k (hlen ▸ hk) e' he' (BitVec.eq_of_toNat_eq hzero)
    · exact ownEntries_ne_zero e he
  · have := hfills.image htask'
    rwa [hlist] at this
  · simp [ownEntries]
  · simp [ownEntries]

/-- The strings of a program and some entries of the architecture. -/
def sampleArch : Arch where
  platform := elfPlatform
  random i := BitVec.ofNat 8 i.val
  cnt := 2
  auxvec i := .ok (if i = 0 then (33, 0x8000) else (51, 0x1200))
  hwcap := 0xff

/-- `/bin/sh -c` with one string in its environment. -/
def sampleStrings : Strings where
  filename := ⟨[0x2f, 0x62, 0x69, 0x6e, 0x2f, 0x73, 0x68], by decide, by decide⟩
  argvs := [⟨[0x2d, 0x63], by decide, by decide⟩]
  envps := [⟨[0x41, 0x3d, 0x42], by decide, by decide⟩]
  items_lt := by decide

theorem create_elf_tables_image_sample :
    ∃ t, createElfTables sampleArch sampleStrings (fun _ => some 0x5000) (fun _ => 0) (fun _ => 0)
      System.taskSize = .ok t ∧ t.p + t.size = System.taskSize := by
  have h : ∃ t, createElfTables sampleArch sampleStrings (fun _ => some 0x5000) (fun _ => 0)
      (fun _ => 0) System.taskSize = .ok t := ⟨_, rfl⟩
  obtain ⟨t, ht⟩ := h
  have htypes : ∀ i < sampleArch.turns, ∀ e, sampleArch.auxvec i = .ok e → e.1 ≠ 0 := by
    rintro i - e ⟨⟩
    split <;> decide
  exact ⟨t, ht, (create_elf_tables_image rfl (by decide) htypes (by decide) (by decide) (by decide)
    ht).1⟩

/-! ## The stack pointer -/

theorem sub64_mod {b : Nat} (h : b ≤ 2 ^ 64) : (sub64 a b + b) % 16 = a % 16 := by
  unfold sub64 u64
  omega

theorem CStr.room_lt (s : CStr) : s.room < 2 ^ 64 := by
  have := s.short
  unfold CStr.room
  omega

theorem stackStrings_mod (ss : List CStr) (top : Nat) :
    ((stackStrings ss top).1 + rooms ss) % 16 = top % 16 := by
  induction ss with
  | nil => rfl
  | cons s ss =>
    have hsub := sub64_mod (a := (stackStrings ss top).1) s.room_lt.le
    rw [rooms_cons]
    show (sub64 (stackStrings ss top).1 s.room + _) % 16 = _
    omega

theorem stackTop_mod (x : Strings) :
    ((stackTop elfPlatform x System.taskSize).argStart + x.rooms) % 16 = 0 := by
  have h1 := sub64_mod (a := System.taskSize) (b := 8) (by decide)
  have h2 := sub64_mod (a := sub64 System.taskSize 8) (b := 16) (by decide)
  have h3 := sub64_mod (a := sub64 (sub64 System.taskSize 8) 16) (b := 8) (by decide)
  have henv := stackStrings_mod x.envps (sub64 (sub64 (sub64 System.taskSize 8) 16) 8)
  have harg := stackStrings_mod x.argvs
    (stackStrings x.envps (sub64 (sub64 (sub64 System.taskSize 8) 16) 8)).1
  have hfile := sub64_mod (a := (stackStrings x.argvs
    (stackStrings x.envps (sub64 (sub64 (sub64 System.taskSize 8) 16) 8)).1).1)
    x.filename.room_lt.le
  have htask : System.taskSize % 16 = 0 := by decide
  unfold Strings.rooms
  show (sub64 (stackStrings x.argvs (stackStrings x.envps
    (sub64 (sub64 (sub64 System.taskSize 8) 16) 8)).1).1 x.filename.room + _) % 16 = 0
  omega

theorem Strings.rooms_mod (x : Strings) : x.rooms % 8 = 0 := by
  have h1 := x.filename.room_mod
  have h2 := Vfs.rooms_mod x.argvs
  have h3 := Vfs.rooms_mod x.envps
  unfold Strings.rooms
  omega

/-- The stack pointer of a program is a multiple of 16 just when the number of words that its
strings take and the number of its arguments and environment strings have an even sum. -/
theorem stack_pointer_aligned_iff (hplatform : arch.platform = elfPlatform)
    (h : createElfTables arch x malloc mem savedAuxv System.taskSize = .ok t) (pc : Nat) :
    (startThread pc t.p).sp % 16 = 0 ↔
      (x.rooms / 8 + x.argvs.length + x.envps.length) % 2 = 0 := by
  obtain ⟨htop, -, hp, -, -⟩ := createElfTables_ok h
  obtain ⟨hindex, hturns⟩ := auxv_index h
  have hitems : x.items = x.argvs.length + 1 + (x.envps.length + 1) + 1 + 1 := rfl
  have hlt : x.items < 2 ^ 31 := x.items_lt
  have h1 := sub64_mod (a := t.top.argStart) (b := 8 * t.auxv.index) (by omega)
  have h2 := sub64_mod (a := sub64 t.top.argStart (8 * t.auxv.index)) (b := 8 * x.items) (by omega)
  have hstart := stackTop_mod x
  rw [← hplatform, ← htop] at hstart
  rw [← hp] at h2
  have hrooms := x.rooms_mod
  show t.p % 16 = 0 ↔ _
  omega

/-- `/bin/busybox` with the strings of `sampleStrings`. -/
def busyboxStrings : Strings := { sampleStrings with
  filename := ⟨[0x2f, 0x62, 0x69, 0x6e, 0x2f, 0x62, 0x75, 0x73, 0x79, 0x62, 0x6f, 0x78],
    by decide, by decide⟩ }

theorem stack_pointer_aligned_busybox :
    ∃ t, createElfTables sampleArch busyboxStrings (fun _ => some 0x5000) (fun _ => 0) (fun _ => 0)
      System.taskSize = .ok t ∧ (startThread 0x400000 t.p).sp % 16 = 0 := by
  have h : ∃ t, createElfTables sampleArch busyboxStrings (fun _ => some 0x5000) (fun _ => 0)
      (fun _ => 0) System.taskSize = .ok t := ⟨_, rfl⟩
  obtain ⟨t, ht⟩ := h
  exact ⟨t, ht, (stack_pointer_aligned_iff rfl ht 0x400000).mpr (by decide)⟩

/-- The stack pointer of `/bin/sh -c` is 8 above a multiple of 16. -/
theorem stack_pointer_misaligned :
    ∃ t, createElfTables sampleArch sampleStrings (fun _ => some 0x5000) (fun _ => 0) (fun _ => 0)
      System.taskSize = .ok t ∧ (startThread 0x400000 t.p).sp % 16 = 8 :=
  ⟨_, rfl, by decide⟩

end MinixRt.Vfs
