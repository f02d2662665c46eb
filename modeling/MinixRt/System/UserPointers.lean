import MinixRt.Mm.Space
import MinixRt.System.FsCalls

/-!
# Pointers of the caller

`ipc_send` and `ipc_notify` copy their message with `copy_from_user`, which accepts addresses of the
caller only. `openat` and `chdir` call `strlen` on the pointer as it is, so that the message they
send has the length of whatever lies there. A call does not depend on what user mode cannot read
exactly when `strlen` reads nothing of it.
-/

namespace MinixRt.System

open Function Lib Ipc Mm

/-- The mapping a call runs with: where the kernel finds an address, and which addresses user mode
can use. The lower half is mapped by the tables of the caller. -/
structure View where
  loc : BitVec 64 → Option Nat
  user : BitVec 64 → Bool
  lower : ∀ a, a.toNat ≤ userDs → loc a ≠ none → user a = true

namespace View

def UserLoc (w : View) (x : Nat) : Prop := ∃ a, w.user a = true ∧ w.loc a = some x

/-- The memories differ in bytes that user mode cannot read. -/
def Agree (w : View) (mem mem' : Store) : Prop := ∀ x, w.UserLoc x → mem x = mem' x

end View

/-! ## Reading the memory of the caller -/

inductive Scan
  | found (n : Nat)
  /-- An address is not mapped. -/
  | fault
  | endless
  deriving DecidableEq

def Scan.succ : Scan → Scan
  | found n => found (n + 1)
  | r => r

/-- `strlen`, for a number of rounds. -/
def strlenFrom (w : View) (mem : Store) : Nat → BitVec 64 → Scan
  | 0, _ => .endless
  | n + 1, s =>
    match w.loc s with
    | none => .fault
    | some x => if mem x = 0 then .found 0 else (strlenFrom w mem n (s + 1)).succ

/-- After 2^64 rounds `strlen` is where it began. -/
def strlen (w : View) (mem : Store) (s : BitVec 64) : Scan := strlenFrom w mem (2 ^ 64) s

/-- `access_ok` with the address limit of user mode. -/
def accessOk (a : BitVec 64) (size : Nat) : Bool := a.toNat + size ≤ userDs + 1

def userByteAt (w : View) (mem : Store) (a : BitVec 64) : BitVec 8 := ((w.loc a).map mem).getD 0

def messageAt (w : View) (mem : Store) (a : BitVec 64) : Message :=
  let b : Store := fun i => userByteAt w mem (a + BitVec.ofNat 64 i)
  { mSource := (BitVec.ofNat 32 (getLE b 0 4)).toInt
    mType := BitVec.ofNat 32 (getLE b 4 4)
    data := words fun i => b (8 + i) }

/-! ## The calls -/

inductive PtrCall
  | openat (dfd : BitVec 32) (filename : BitVec 64) (flags : BitVec 32) (mode : BitVec 16)
  | chdir (filename : BitVec 64)
  | ipcSend (dest : BitVec 32) (ptr : BitVec 64)
  | ipcNotify (dest : BitVec 32) (ptr : BitVec 64)

/-- What a call does before `__ipc_send`. -/
inductive Outcome
  /-- The message goes to `__ipc_send` or `__ipc_notify`. -/
  | handed (dest : BitVec 32) (m : Message)
  /-- It returns `-EFAULT`. -/
  | efault
  /-- The kernel takes a fault that it does not handle. -/
  | fault
  | endless

def endpointVfs : BitVec 32 := 3

/-- `copy_from_user` of a message. An address of the lower half that is not mapped goes to
`do_page_fault`, which handles nothing and does not look at the exception table. -/
def copyMessage (w : View) (mem : Store) (ptr : BitVec 64) (next : Message → Outcome) : Outcome :=
  if accessOk ptr 64 then
    if (List.range 64).all fun i => (w.loc (ptr + BitVec.ofNat 64 i)).isSome then
      next (messageAt w mem ptr)
    else .fault
  else .efault

def withName (r : Scan) (c : BitVec 64 → FsCall) : Outcome :=
  match r with
  | .found n => .handed endpointVfs (c (BitVec.ofNat 64 n)).request
  | .fault => .fault
  | .endless => .endless

def PtrCall.outcome (w : View) (mem : Store) : PtrCall → Outcome
  | openat dfd filename flags mode =>
    withName (strlen w mem filename) (FsCall.openat dfd filename flags mode)
  | chdir filename => withName (strlen w mem filename) (FsCall.chdir filename)
  | ipcSend dest ptr => copyMessage w mem ptr (Outcome.handed dest)
  | ipcNotify dest ptr =>
    copyMessage w mem ptr fun m => .handed dest { m with mType := m.mType ||| typeNotifier }

/-- The call does the same whatever the bytes hold that user mode cannot read. -/
def PtrCall.Blind (c : PtrCall) (w : View) (mem : Store) : Prop :=
  ∀ mem', w.Agree mem mem' → c.outcome w mem' = c.outcome w mem

/-- `strlen` reads byte `n`. -/
def Reads (w : View) (mem : Store) (s : BitVec 64) (n : Nat) : Prop :=
  ∀ i < n, ∃ x, w.loc (s + BitVec.ofNat 64 i) = some x ∧ mem x ≠ 0

/-- Every byte that `strlen` reads can be read in user mode. -/
def Confined (w : View) (mem : Store) (s : BitVec 64) : Prop :=
  ∀ n, Reads w mem s n → ∀ x, w.loc (s + BitVec.ofNat 64 n) = some x → w.UserLoc x

/-- Every name that the call follows is in user memory. -/
def PtrCall.Confined (w : View) (mem : Store) : PtrCall → Prop
  | openat _ filename _ _ | chdir filename => System.Confined w mem filename
  | _ => True

/-- `openat` with more than 2^32 mapped addresses from its name on; `filename_size` is an `int`. -/
def PtrCall.Long (w : View) : PtrCall → Prop
  | openat _ filename _ _ => ∀ i ≤ 2 ^ 32, w.loc (filename + BitVec.ofNat 64 i) ≠ none
  | _ => False

section UserPointers

variable {w : View} {mem mem' : Store} {s a : BitVec 64} {n k : Nat}

/-! ## What `strlen` returns -/

theorem add_one_add (s : BitVec 64) (n : Nat) :
    s + 1 + BitVec.ofNat 64 n = s + BitVec.ofNat 64 (n + 1) := by
  rw [BitVec.ofNat_add, BitVec.add_assoc]
  exact congrArg (s + ·) (BitVec.add_comm _ _)

theorem add_zero_ofNat (s : BitVec 64) : s + BitVec.ofNat 64 0 = s := BitVec.add_zero s

theorem reads_succ_iff {x : Nat} (hx : w.loc s = some x) (hne : mem x ≠ 0) :
    Reads w mem s (n + 1) ↔ Reads w mem (s + 1) n := by
  constructor
  · intro h i hi
    rw [add_one_add]
    exact h (i + 1) (by omega)
  · intro h i hi
    cases i with
    | zero => exact ⟨x, by rwa [add_zero_ofNat], hne⟩
    | succ i =>
      rw [← add_one_add]
      exact h i (by omega)

theorem strlenFrom_eq_found_iff : strlenFrom w mem k s = .found n ↔ n < k ∧ Reads w mem s n ∧
    ∃ x, w.loc (s + BitVec.ofNat 64 n) = some x ∧ mem x = 0 := by
  induction k generalizing s n with
  | zero => exact iff_of_false nofun fun h => absurd h.1 (Nat.not_lt_zero _)
  | succ k ih =>
    rw [strlenFrom]
    cases hx : w.loc s with
    | none =>
      refine iff_of_false nofun ?_
      rintro ⟨-, hreads, x, hn, -⟩
      cases n with
      | zero =>
        rw [add_zero_ofNat, hx] at hn
        cases hn
      | succ n =>
        obtain ⟨y, hy, -⟩ := hreads 0 n.succ_pos
        rw [add_zero_ofNat, hx] at hy
        cases hy
    | some x =>
      dsimp only
      split_ifs with hzero
      · constructor
        · intro h
          cases h
          exact ⟨k.succ_pos, nofun, x, by rwa [add_zero_ofNat], hzero⟩
        · rintro ⟨-, hreads, -⟩
          cases n with
          | zero => rfl
          | succ n =>
            obtain ⟨y, hy, hne⟩ := hreads 0 n.succ_pos
            rw [add_zero_ofNat, hx] at hy
            cases hy
            exact absurd hzero hne
      · cases n with
        | zero =>
          refine iff_of_false ?_ ?_
          · cases strlenFrom w mem k (s + 1) <;> nofun
          · rintro ⟨-, -, y, hy, hzero'⟩
            rw [add_zero_ofNat, hx] at hy
            cases hy
            exact hzero hzero'
        | succ =>
          rw [reads_succ_iff hx hzero, ← add_one_add, Nat.succ_lt_succ_iff, ← ih]
          cases strlenFrom w mem k (s + 1) <;> simp [Scan.succ]

theorem strlenFrom_congr (h : ∀ n, Reads w mem s n → ∀ x,
    w.loc (s + BitVec.ofNat 64 n) = some x → mem x = mem' x) :
    strlenFrom w mem k s = strlenFrom w mem' k s := by
  induction k generalizing s with
  | zero => rfl
  | succ k ih =>
    rw [strlenFrom, strlenFrom]
    cases hx : w.loc s with
    | none => rfl
    | some x =>
      have hsame : mem x = mem' x := h 0 nofun x (by rwa [add_zero_ofNat])
      dsimp only
      rw [← hsame]
      split_ifs with hzero
      · rfl
      · refine congrArg Scan.succ (ih fun n hn y hy => ?_)
        refine h (n + 1) ((reads_succ_iff hx hzero).mpr hn) y ?_
        rwa [← add_one_add]

theorem strlen_congr (hagree : w.Agree mem mem') (h : Confined w mem s) :
    strlen w mem' s = strlen w mem s :=
  (strlenFrom_congr fun n hn x hx => hagree x (h n hn x hx)).symm

/-! ## The calls that copy -/

theorem messageAt_congr (hagree : w.Agree mem mem')
    (h : ∀ i < 64, ∀ x, w.loc (a + BitVec.ofNat 64 i) = some x → w.UserLoc x) :
    messageAt w mem' a = messageAt w mem a := by
  have hbyte : ∀ i < 64, userByteAt w mem' (a + BitVec.ofNat 64 i) =
      userByteAt w mem (a + BitVec.ofNat 64 i) := by
    intro i hi
    unfold userByteAt
    cases hx : w.loc (a + BitVec.ofNat 64 i) with
    | none => rfl
    | some x => exact (hagree x (h i hi x hx)).symm
  have hpart : ∀ off len, off + len ≤ 64 →
      getLE (fun i => userByteAt w mem' (a + BitVec.ofNat 64 i)) off len =
        getLE (fun i => userByteAt w mem (a + BitVec.ofNat 64 i)) off len :=
    fun off len hle => getLE_congr fun i _ hi => hbyte i (by omega)
  have hdata : words (fun i => userByteAt w mem' (a + BitVec.ofNat 64 (8 + i))) =
      words fun i => userByteAt w mem (a + BitVec.ofNat 64 (8 + i)) := by
    ext i : 1
    have := i.isLt
    exact congrArg (BitVec.ofNat 64) (getLE_congr fun j _ hj => hbyte (8 + j) (by omega))
  simp only [messageAt, hpart 0 4 (by decide), hpart 4 4 (by decide), hdata]

theorem userLoc_of_accessOk (h : accessOk a 64 = true) {i x : Nat} (hi : i < 64)
    (hx : w.loc (a + BitVec.ofNat 64 i) = some x) : w.UserLoc x := by
  refine ⟨_, w.lower _ ?_ (by rw [hx]; nofun), hx⟩
  have hle : a.toNat + 64 ≤ userDs + 1 := of_decide_eq_true h
  rw [BitVec.toNat_add, BitVec.toNat_ofNat]
  unfold userDs at *
  omega

theorem copyMessage_congr (hagree : w.Agree mem mem') (next : Message → Outcome) :
    copyMessage w mem' a next = copyMessage w mem a next := by
  unfold copyMessage
  split_ifs with hok hmapped
  · rw [messageAt_congr hagree fun i hi x hx => userLoc_of_accessOk hok hi hx]
  · rfl
  · rfl

theorem PtrCall.blind_of_confined {c : PtrCall} (h : c.Confined w mem) : c.Blind w mem := by
  intro mem' hagree
  cases c with
  | openat => exact congrArg (withName · _) (strlen_congr hagree h)
  | chdir => exact congrArg (withName · _) (strlen_congr hagree h)
  | ipcSend => exact copyMessage_congr hagree _
  | ipcNotify => rw [PtrCall.outcome, PtrCall.outcome, copyMessage_congr hagree]

/-! ## What `strlen` can tell -/

theorem exists_first (h : ¬ Confined w mem s) : ∃ n < 2 ^ 64, Reads w mem s n ∧
    (∀ i < n, ∀ x, w.loc (s + BitVec.ofNat 64 i) = some x → w.UserLoc x) ∧
    ∃ x, w.loc (s + BitVec.ofNat 64 n) = some x ∧ ¬ w.UserLoc x := by
  classical
  have hex : ∃ n, Reads w mem s n ∧
      ∃ x, w.loc (s + BitVec.ofNat 64 n) = some x ∧ ¬ w.UserLoc x := by
    unfold Confined at h
    push Not at h
    obtain ⟨n, hn, x, hx, hnot⟩ := h
    exact ⟨n, hn, x, hx, hnot⟩
  obtain ⟨hreads, x, hx, hnot⟩ := Nat.find_spec hex
  have hmin : ∀ i < Nat.find hex, ∀ x, w.loc (s + BitVec.ofNat 64 i) = some x → w.UserLoc x := by
    intro i hi y hy
    by_contra hyu
    exact Nat.find_min hex hi ⟨fun j hj => hreads j (by omega), y, hy, hyu⟩
  refine ⟨_, ?_, hreads, hmin, x, hx, hnot⟩
  by_contra hge
  -- the addresses repeat after 2^64
  have hwrap : BitVec.ofNat 64 (Nat.find hex - 2 ^ 64) = BitVec.ofNat 64 (Nat.find hex) := by
    apply BitVec.eq_of_toNat_eq
    rw [BitVec.toNat_ofNat, BitVec.toNat_ofNat]
    omega
  refine hnot (hmin (Nat.find hex - 2 ^ 64) (by omega) x ?_)
  rw [hwrap, hx]

theorem exists_strlen_ne (h : ¬ Confined w mem s) : ∃ n < 2 ^ 64, ∃ mem1 mem2,
    w.Agree mem mem1 ∧ w.Agree mem mem2 ∧ strlen w mem1 s = .found n ∧
    ∀ n', strlen w mem2 s = .found n' → n < n' ∧ n' < 2 ^ 64 ∧
      ∀ i ≤ n', w.loc (s + BitVec.ofNat 64 i) ≠ none := by
  classical
  obtain ⟨n, hlt, hreads, huser, x, hx, hnot⟩ := exists_first h
  refine ⟨n, hlt, update mem x 0, fun y => if w.UserLoc y then mem y else 1,
    fun y hy => ?_, fun y hy => (if_pos hy).symm, ?_, fun n' hn' => ?_⟩
  · exact (update_of_ne (fun heq => hnot (by rwa [← heq])) _ _).symm
  · refine strlenFrom_eq_found_iff.mpr ⟨hlt, fun i hi => ?_, x, hx, update_self ..⟩
    obtain ⟨y, hy, hne⟩ := hreads i hi
    refine ⟨y, hy, ?_⟩
    rwa [update_of_ne fun heq => hnot (by rw [← heq]; exact huser i hi y hy)]
  · obtain ⟨hlt', hreads', z, hz, hzero⟩ := strlenFrom_eq_found_iff.mp hn'
    refine ⟨?_, hlt', fun i hi => ?_⟩
    · by_contra hle
      rcases Nat.lt_or_eq_of_le (not_lt.mp hle) with hlt | rfl
      · obtain ⟨y, hy, hne⟩ := hreads n' hlt
        rw [hz] at hy
        cases hy
        rw [if_pos (huser n' hlt z hz)] at hzero
        exact hne hzero
      · rw [hx] at hz
        cases hz
        rw [if_neg hnot] at hzero
        cases hzero
    · rcases Nat.lt_or_eq_of_le hi with hlt | rfl
      · obtain ⟨y, hy, -⟩ := hreads' i hlt
        rw [hy]
        nofun
      · rw [hz]
        nofun

variable {filename l l' : BitVec 64}

theorem chdir_request_inj
    (h : (FsCall.chdir filename l).request = (FsCall.chdir filename l').request) : l = l' := by
  have hget : ∀ l, getLE (bytes (FsCall.chdir filename l).request.data) 8 8 = (l + 1).toNat :=
    fun l => FsCall.getLE_request (f := ⟨8, 8, (l + 1).toNat⟩) (by simp [FsCall.fields])
      (l + 1).isLt (by simp)
  have heq : (l + 1).toNat = (l' + 1).toNat := by rw [← hget, h, hget]
  exact (BitVec.add_left_inj 1).mp (BitVec.eq_of_toNat_eq heq)

theorem openat_request_inj {dfd flags : BitVec 32} {mode : BitVec 16}
    (h : (FsCall.openat dfd filename flags mode l).request =
      (FsCall.openat dfd filename flags mode l').request) : l.toNat % 2 ^ 32 = l'.toNat % 2 ^ 32 := by
  have hget : ∀ l, getLE (bytes (FsCall.openat dfd filename flags mode l).request.data) 24 4 =
      ((l + 1).setWidth 32).toNat :=
    fun l => FsCall.getLE_request (f := ⟨24, 4, ((l + 1).setWidth 32).toNat⟩)
      (by simp [FsCall.fields]) (BitVec.isLt _) (by simp)
  have heq : ((l + 1).setWidth 32).toNat = ((l' + 1).setWidth 32).toNat := by
    rw [← hget, h, hget]
  rw [BitVec.toNat_setWidth, BitVec.toNat_setWidth, BitVec.toNat_add, BitVec.toNat_add] at heq
  omega

variable {c : BitVec 64 → FsCall}

theorem handed_of_blind {mem1 mem2 : Store}
    (h : withName (strlen w mem1 s) c = withName (strlen w mem2 s) c)
    (hfound : strlen w mem1 s = .found n) : ∃ n', strlen w mem2 s = .found n' ∧
      (c (BitVec.ofNat 64 n)).request = (c (BitVec.ofNat 64 n')).request := by
  rw [hfound] at h
  cases hscan : strlen w mem2 s with
  | found n' =>
    rw [hscan] at h
    exact ⟨n', rfl, (Outcome.handed.inj h).2⟩
  | fault | endless =>
    rw [hscan] at h
    cases h

/-- A call with the name `s` and its message `c` that does not tell more than user mode can read. -/
theorem requests_eq (h : ¬ Confined w mem s) (hblind : ∀ mem', w.Agree mem mem' →
      withName (strlen w mem' s) c = withName (strlen w mem s) c) :
    ∃ n n', n < n' ∧ n' < 2 ^ 64 ∧ (∀ i ≤ n', w.loc (s + BitVec.ofNat 64 i) ≠ none) ∧
      (c (BitVec.ofNat 64 n)).request = (c (BitVec.ofNat 64 n')).request := by
  obtain ⟨n, -, mem1, mem2, h1, h2, hfound, hother⟩ := exists_strlen_ne h
  obtain ⟨n', hn', heq⟩ :=
    handed_of_blind ((hblind mem1 h1).trans (hblind mem2 h2).symm) hfound
  obtain ⟨hlt, hlt', hmapped⟩ := hother n' hn'
  exact ⟨n, n', hlt, hlt', hmapped, heq⟩

/-- **What a call tells about the memory.** It is blind if its name is in user memory, and only
then, except for an `openat` with a name of more than 2^32 bytes. -/
theorem ptrCall_blind_iff (c : PtrCall) (w : View) (mem : Store) :
    (c.Confined w mem → c.Blind w mem) ∧
      (c.Blind w mem → c.Confined w mem ∨ c.Long w) := by
  refine ⟨PtrCall.blind_of_confined, fun hblind => ?_⟩
  by_contra hnot
  obtain ⟨hconf, hshort⟩ := not_or.mp hnot
  cases c with
  | openat dfd filename flags mode =>
    obtain ⟨n, n', hlt, hlt', hmapped, heq⟩ := requests_eq hconf hblind
    have hmod := openat_request_inj heq
    rw [BitVec.toNat_ofNat, BitVec.toNat_ofNat] at hmod
    exact hshort fun i hi => hmapped i (by omega)
  | chdir filename =>
    obtain ⟨n, n', hlt, hlt', -, heq⟩ := requests_eq hconf hblind
    have hlen := congrArg BitVec.toNat (chdir_request_inj heq)
    rw [BitVec.toNat_ofNat, BitVec.toNat_ofNat] at hlen
    omega
  | ipcSend dest ptr | ipcNotify dest ptr => exact hconf trivial

end UserPointers

/-- A caller with one page at 0x1000, in frame 0, and the page of the kernel at the top of the
addresses, in frame 1. -/
def onePageView : View where
  loc a :=
    if a.toNat / 4096 = 1 then some (a.toNat % 4096)
    else if a.toNat / 4096 = 2 ^ 52 - 2 then some (4096 + a.toNat % 4096)
    else none
  user a := a.toNat / 4096 = 1
  lower a hle hne := by
    by_contra hnot
    simp only [decide_eq_true_eq] at hnot
    rw [if_neg hnot, if_neg (by unfold userDs at hle; omega)] at hne
    exact hne rfl

def someOnes : Store := fun x => if 4096 ≤ x ∧ x < 4099 then 1 else 0

theorem onePageView_agree : onePageView.Agree (fun _ => 0) someOnes := by
  rintro x ⟨a, huser, hx⟩
  have hpage : a.toNat / 4096 = 1 := of_decide_eq_true huser
  obtain rfl : a.toNat % 4096 = x := by
    simpa [onePageView, hpage] using hx
  exact (if_neg (by omega)).symm

/-- A `chdir` to a name in kernel memory tells where it has a zero. -/
theorem chdir_tells : onePageView.Agree (fun _ => 0) someOnes ∧
    (PtrCall.chdir 0xffffffffffffe000).outcome onePageView (fun _ => 0) =
      .handed endpointVfs (FsCall.chdir 0xffffffffffffe000 0).request ∧
    (PtrCall.chdir 0xffffffffffffe000).outcome onePageView someOnes =
      .handed endpointVfs (FsCall.chdir 0xffffffffffffe000 3).request ∧
    getLE (bytes (FsCall.chdir 0xffffffffffffe000 0).request.data) 8 8 = 1 ∧
    getLE (bytes (FsCall.chdir 0xffffffffffffe000 3).request.data) 8 8 = 4 := by
  have hnone : strlen onePageView (fun _ => 0) 0xffffffffffffe000 = .found 0 := by decide +kernel
  have hthree : strlen onePageView someOnes 0xffffffffffffe000 = .found 3 := by decide +kernel
  refine ⟨onePageView_agree, ?_, ?_, by decide +kernel, by decide +kernel⟩
  · rw [PtrCall.outcome, hnone]
    rfl
  · rw [PtrCall.outcome, hthree]
    rfl

end MinixRt.System
