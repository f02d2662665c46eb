import Mathlib.Data.Tree.Basic
import MinixRt.Lib.Bitmap
import MinixRt.Lib.Machine
import MinixRt.Mm.PageTable

/-!
# Opening files in the VFS server

`do_openat` marks the descriptor after the highest one that is open. There is no test for the end
of the table: when descriptor 1023 is open the answer is 1024, and the bit that is set lies in
`fd_array`. A sender that the server does not know stops it: `main` registers process 1, and
nobody registers another one.
-/

namespace MinixRt.Vfs

open Function Lib Mm

def maxFiles : Nat := 1024

def filesWords : Nat := maxFiles / 64

/-! ## Bitmaps -/

def bitmapLastWordMask (nbits : Nat) : BitVec 64 :=
  BitVec.allOnes 64 >>> ((-BitVec.ofNat 64 nbits) &&& 63).toNat

/-- The loop of `find_last_bit`. -/
def findLastWord (addr : Bitmap) (size : Nat) : (val : BitVec 64) → (idx : Nat) → Nat
  | val, 0 => if val &&& addr 0 = 0 then size else Bitmap.fls (val &&& addr 0)
  | val, idx + 1 =>
    if val &&& addr (idx + 1) = 0 then findLastWord addr size (BitVec.allOnes 64) idx
    else (idx + 1) * 64 + Bitmap.fls (val &&& addr (idx + 1))

def findLastBit (addr : Bitmap) (size : Nat) : Nat :=
  if size = 0 then size
  else findLastWord addr size (bitmapLastWordMask size) ((size - 1) / 64)

/-! ## The server -/

/-- A node of the tree of processes, in the `task_struct` at some address. -/
structure PidStruct where
  pid : Int
  task : Nat

/-- What the server keeps: the tree, and the memory of each `task_struct` from `fdtable` on. -/
structure Server where
  pidRoot : BinaryTree PidStruct
  mem : Nat → Bitmap

def Server.setBit (s : Server) (tsk nr : Nat) : Server :=
  { s with mem := update s.mem tsk ((s.mem tsk).set nr) }

@[simp] theorem Server.setBit_mem_self (s : Server) (tsk nr : Nat) :
    (s.setBit tsk nr).mem tsk = (s.mem tsk).set nr := update_self ..

theorem Server.setBit_mem_of_ne (s : Server) {tsk t : Nat} (nr : Nat) (h : t ≠ tsk) :
    (s.setBit tsk nr).mem t = s.mem t := update_of_ne h _ _

def pidFind (pid : Int) : BinaryTree PidStruct → Option PidStruct
  | .nil => none
  | .node data left right =>
    if pid < data.pid then pidFind pid left
    else if data.pid < pid then pidFind pid right
    else some data

def vfsFindTask (pid : Int) (s : Server) : Option Nat := (pidFind pid s.pidRoot).map PidStruct.task

def nul : Char := Char.ofNat 0

def cString (buffer : List Char) : List Char := buffer.takeWhile (· ≠ nul)

/-- A request: the sender, whether there is memory for the name, and what `message_memcpy` finds at
the name. -/
structure OpenMessage where
  source : Int
  malloc : Bool
  filename : Option (List Char)

inductive Outcome
  /-- `BUG_ON(!tsk)` -/
  | bug
  /-- `while (1)` -/
  | stuck
  | reply (retval : Int) (s : Server)

def doOpenat (m : OpenMessage) (s : Server) : Outcome :=
  match vfsFindTask m.source s with
  | none => .bug
  | some tsk =>
    if m.malloc = false then .reply (-enomem) s
    else
      match m.filename with
      | none => .reply (-einval) s
      | some filename =>
        let newFd := findLastBit (s.mem tsk) maxFiles + 1
        if cString filename = "/dev/null".toList then
          .reply newFd (s.setBit tsk newFd)
        else .stuck

/-- `main`: the memory of the `task_struct` is as `malloc` leaves it, but for three bits. -/
def main (heap : Nat → Bitmap) : Server :=
  (((Server.mk (.node ⟨1, 0⟩ .nil .nil) heap).setBit 0 0).setBit 0 1).setBit 0 2

/-- The name can be read, ends in the buffer, and is `/dev/null`. -/
def OpenMessage.devNull (m : OpenMessage) : Prop :=
  ∃ filename, m.filename = some filename ∧ nul ∈ filename ∧
    cString filename = "/dev/null".toList

def openStep (s : Server) (m : OpenMessage) : Option Server :=
  match doOpenat m s with
  | .reply _ s => some s
  | _ => none

def vfsMachine : Machine Server OpenMessage where
  init s := ∃ heap, s = main heap
  step := openStep

/-- The request is answered, with a descriptor that was free and is now open or with an error; a
full table is an error; and nothing is written but the descriptor table of the sender. -/
def Serves (s : Server) (m : OpenMessage) : Prop :=
  ∃ tsk retval s', vfsFindTask m.source s = some tsk ∧ doOpenat m s = .reply retval s' ∧
    (0 ≤ retval → ∃ fd : Nat, retval = fd ∧ fd < maxFiles ∧ (s.mem tsk).get fd = false ∧
      (s'.mem tsk).get fd = true) ∧
    ((∀ fd < maxFiles, (s.mem tsk).get fd = true) → retval < 0) ∧
    s'.pidRoot = s.pidRoot ∧ ∀ t i, ¬ (t = tsk ∧ i < filesWords) → s'.mem t i = s.mem t i

/-! ## The highest descriptor -/

/-- Descriptor `fd` is open, and none above it is. -/
def Highest (m : Bitmap) (fd : Nat) : Prop :=
  fd < maxFiles ∧ m.get fd = true ∧ ∀ i, fd < i → i < maxFiles → m.get i = false

theorem findLastWord_spec (addr : Bitmap) (size idx : Nat) :
    (findLastWord addr size (BitVec.allOnes 64) idx < (idx + 1) * 64 ∧
      addr.get (findLastWord addr size (BitVec.allOnes 64) idx) = true ∧
      ∀ i, findLastWord addr size (BitVec.allOnes 64) idx < i → i < (idx + 1) * 64 →
        addr.get i = false) ∨ ∀ i < (idx + 1) * 64, addr.get i = false := by
  induction idx with
  | zero =>
    rw [findLastWord, BitVec.allOnes_and]
    split_ifs with hzero
    · right
      intro i hi
      exact Bitmap.get_of_zero hzero (Nat.div_eq_of_lt hi)
    · left
      have hlt := Bitmap.fls_lt hzero
      have hfls := Bitmap.get_fls hzero
      rw [Nat.zero_mul, Nat.zero_add] at hfls
      exact ⟨by omega, hfls.1, hfls.2⟩
  | succ idx ih =>
    rw [findLastWord, BitVec.allOnes_and]
    split_ifs with hzero
    · generalize findLastWord addr size (BitVec.allOnes 64) idx = r at ih ⊢
      have htop : ∀ i, (idx + 1) * 64 ≤ i → i < (idx + 1 + 1) * 64 → addr.get i = false := by
        intro i hle hlt
        have hdiv : i / 64 = idx + 1 := by omega
        exact Bitmap.get_of_zero hzero hdiv
      rcases ih with ⟨hlt, hget, habove⟩ | hnone
      · have hend : r < (idx + 1 + 1) * 64 :=
          Nat.lt_of_lt_of_le hlt (Nat.mul_le_mul_right 64 (Nat.le_succ _))
        refine .inl ⟨hend, hget, fun i h1 h2 => ?_⟩
        by_cases hi : i < (idx + 1) * 64
        · exact habove i h1 hi
        · exact htop i (Nat.le_of_not_lt hi) h2
      · refine .inr fun i hi => ?_
        by_cases hlow : i < (idx + 1) * 64
        · exact hnone i hlow
        · exact htop i (Nat.le_of_not_lt hlow) hi
    · have hlt := Bitmap.fls_lt hzero
      obtain ⟨hget, habove⟩ := Bitmap.get_fls hzero
      exact .inl ⟨by omega, hget, habove⟩

variable {m : Bitmap}

theorem findLastBit_highest {fd : Nat} (hlt : fd < maxFiles) (hfd : m.get fd = true) :
    Highest m (findLastBit m maxFiles) := by
  have hmask : bitmapLastWordMask maxFiles = BitVec.allOnes 64 := by decide
  rw [findLastBit, if_neg (by decide), hmask]
  rcases findLastWord_spec m maxFiles ((maxFiles - 1) / 64) with hspec | hnone
  · exact hspec
  · rw [hnone fd hlt] at hfd
    cases hfd

variable {fd fd' : Nat}

theorem Highest.le (h : Highest m fd) (h' : Highest m fd') : fd' ≤ fd := by
  by_contra hlt
  have hclear := h.2.2 fd' (Nat.lt_of_not_le hlt) h'.1
  rw [h'.2.1] at hclear
  cases hclear

theorem Highest.unique (h : Highest m fd) (h' : Highest m fd') :
    fd = fd' := Nat.le_antisymm (h'.le h) (h.le h')

/-! ## Runs -/

variable {s s' : Server} {m : OpenMessage}

/-- The invariant: process 1 is the only one, and one of its descriptors is open. -/
structure Registered (s : Server) : Prop where
  root : s.pidRoot = .node ⟨1, 0⟩ .nil .nil
  opened : (s.mem 0).get 0 = true

theorem Registered.find (h : Registered s) (pid : Int) :
    vfsFindTask pid s = if pid = 1 then some 0 else none := by
  unfold vfsFindTask
  rw [h.root]
  simp only [pidFind]
  split_ifs <;> first | rfl | omega

theorem Registered.doOpenat (h : Registered s) (hm : m.devNull) (hsource : m.source = 1) :
    doOpenat m s = if m.malloc = false then .reply (-enomem) s
      else .reply ((findLastBit (s.mem 0) maxFiles + 1 : Nat) : Int)
        (s.setBit 0 (findLastBit (s.mem 0) maxFiles + 1)) := by
  obtain ⟨filename, hname, -, hnull⟩ := hm
  unfold Vfs.doOpenat
  rw [h.find, if_pos hsource, hname]
  simp only [hnull, if_true]

theorem Registered.step (h : Registered s) (hm : m.devNull) (hs : openStep s m = some s') :
    Registered s' := by
  unfold openStep at hs
  by_cases hsource : m.source = 1
  · rw [h.doOpenat hm hsource] at hs
    split_ifs at hs
    · cases hs
      exact h
    · cases hs
      refine ⟨h.root, ?_⟩
      rw [Server.setBit_mem_self, Bitmap.get_set, h.opened, Bool.true_or]
  · unfold Vfs.doOpenat at hs
    rw [h.find, if_neg hsource] at hs
    cases hs

theorem registered_main (heap : Nat → Bitmap) : Registered (main heap) where
  root := rfl
  opened := by
    simp only [main, Server.setBit_mem_self, Bitmap.get_set]
    simp

theorem registered_of_reach (h : vfsMachine.Reach (fun _ m => m.devNull) s) : Registered s := by
  refine h.invariant (I := Registered) ?_ fun s m s' hs hm hstep => hs.step hm hstep
  rintro s ⟨heap, rfl⟩
  exact registered_main heap

/-- In every state that a run of such requests reaches, a request is served just when it comes from
process 1 and there is no memory for its name or descriptor 1023 is not open. -/
theorem openat_serves_iff (h : vfsMachine.Reach (fun _ m => m.devNull) s) (hm : m.devNull) :
    Serves s m ↔
      m.source = 1 ∧ (m.malloc = false ∨ (s.mem 0).get (maxFiles - 1) = false) := by
  have hreg := registered_of_reach h
  constructor
  · rintro ⟨tsk, retval, s', hfind, hreply, hfd, -, -, -⟩
    rw [hreg.find] at hfind
    split_ifs at hfind with hsource
    obtain rfl := Option.some_inj.mp hfind
    refine ⟨hsource, ?_⟩
    rw [hreg.doOpenat hm hsource] at hreply
    split_ifs at hreply with hmalloc
    · exact .inl hmalloc
    · right
      cases hreply
      obtain ⟨fd, heq, hlt, -⟩ := hfd (Int.natCast_nonneg _)
      have hhigh := findLastBit_highest (by decide) hreg.opened
      exact hhigh.2.2 _ (by omega) (by decide)
  · rintro ⟨hsource, hok⟩
    have hfind : vfsFindTask m.source s = some 0 := by rw [hreg.find, if_pos hsource]
    by_cases hmalloc : m.malloc = false
    · refine ⟨0, -enomem, s, hfind, ?_, fun hpos => ?_, fun _ => by decide, rfl,
        fun _ _ _ => rfl⟩
      · rw [hreg.doOpenat hm hsource, if_pos hmalloc]
      · exact absurd hpos (by decide)
    · have hclear := hok.resolve_left hmalloc
      have hhigh := findLastBit_highest (by decide) hreg.opened
      have hlt : findLastBit (s.mem 0) maxFiles + 1 < maxFiles := by
        have hlt := hhigh.1
        by_contra hge
        have hlast : findLastBit (s.mem 0) maxFiles = maxFiles - 1 := by omega
        have hopen := hhigh.2.1
        rw [hlast, hclear] at hopen
        cases hopen
      have hfree := hhigh.2.2 _ (Nat.lt_succ_self _) hlt
      have hreply := hreg.doOpenat hm hsource
      rw [if_neg hmalloc] at hreply
      refine ⟨0, _, _, hfind, hreply, fun _ => ⟨_, rfl, hlt, hfree, ?_⟩, fun hfull => ?_, rfl, ?_⟩
      · rw [Server.setBit_mem_self, Bitmap.get_set_self]
      · rw [hfull _ hlt] at hfree
        cases hfree
      · intro t i hout
        by_cases ht : t = 0
        · subst ht
          rw [Server.setBit_mem_self]
          apply Bitmap.set_of_ne
          rintro rfl
          refine hout ⟨rfl, ?_⟩
          unfold filesWords maxFiles at *
          omega
        · rw [Server.setBit_mem_of_ne s _ ht]

/-- A request of process `pid` to open `/dev/null`. -/
def openDevNull (pid : Int) : OpenMessage :=
  ⟨pid, true, some ("/dev/null".toList ++ [nul])⟩

theorem openDevNull_devNull (pid : Int) : (openDevNull pid).devNull :=
  ⟨_, rfl, by decide, by decide⟩

theorem openat_serves_iff_boot : Serves (main fun _ _ => 0) (openDevNull 1) :=
  (openat_serves_iff (.init ⟨_, rfl⟩) (openDevNull_devNull 1)).mpr ⟨rfl, .inr (by decide)⟩

theorem exists_highest (n : Nat) (hn : n + 2 < maxFiles) :
    ∃ s, vfsMachine.Reach (fun _ m => m.devNull) s ∧ Highest (s.mem 0) (n + 2) := by
  induction n with
  | zero =>
    refine ⟨main fun _ _ => 0, .init ⟨_, rfl⟩, by decide, by decide, fun i h1 h2 => ?_⟩
    simp only [main, Server.setBit_mem_self, Bitmap.get_set]
    have hzero : Bitmap.get (fun _ => 0) i = false := Bitmap.get_of_zero rfl rfl
    simp only [hzero, Bool.false_or, Bool.or_eq_false_iff, decide_eq_false_iff_not]
    omega
  | succ n ih =>
    obtain ⟨s, hs, hhigh⟩ := ih (by omega)
    have hreg := registered_of_reach hs
    have hlast := (findLastBit_highest (by decide) hreg.opened).unique hhigh
    have hstep : openStep s (openDevNull 1) = 
        some (s.setBit 0 (n + 1 + 2)) := by
      unfold openStep
      rw [hreg.doOpenat (openDevNull_devNull 1) rfl, if_neg (by decide), hlast]
    refine ⟨_, hs.step (openDevNull_devNull 1) hstep, hn, ?_, fun i h1 h2 => ?_⟩
    · rw [Server.setBit_mem_self, Bitmap.get_set_self]
    · rw [Server.setBit_mem_self, Bitmap.get_set, hhigh.2.2 i (by omega) h2, Bool.false_or]
      exact decide_eq_false (by omega)

/-- A request of process 2 stops the server, and after 1021 requests of process 1 the answer is 1024
and the first word of `fd_array` is written. -/
theorem openat_out_of_table :
    doOpenat (openDevNull 2) (main fun _ _ => 0) = .bug ∧
    ∃ s s', vfsMachine.Reach (fun _ m => m.devNull) s ∧
      doOpenat (openDevNull 1) s = .reply 1024 s' ∧
      s'.mem 0 filesWords = s.mem 0 filesWords ||| 1 := by
  refine ⟨rfl, ?_⟩
  obtain ⟨s, hs, hhigh⟩ := exists_highest 1021 (by decide)
  have hreg := registered_of_reach hs
  have hlast := (findLastBit_highest (by decide) hreg.opened).unique hhigh
  refine ⟨s, s.setBit 0 1024, hs, ?_, ?_⟩
  · rw [hreg.doOpenat (openDevNull_devNull 1) rfl, if_neg (by decide), hlast]
    rfl
  · rw [Server.setBit_mem_self]
    exact update_self ..

end MinixRt.Vfs
