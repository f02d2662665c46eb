import MinixRt.System.Image
import MinixRt.Vfs.Tables

/-!
# What the VFS reads of a file

`prepare_binprm` copies 128 bytes of the file, `load_elf_phdrs` copies the program headers from
where the file says that they are, and `load_elf_binary` queues a record for each segment. None of
them looks at `file_size`. Offsets are those from `bprm->file` on; a file of fewer bytes is
followed by whatever lies behind it in memory.
-/

namespace MinixRt.Vfs

open List Function Lib Mm MinixRt.System

def binprmBufSize : Nat := 128

/-- The bytes that `prepare_binprm` copies to `buf`. -/
def prepareBinprm : List Nat := range binprmBufSize

/-- The bytes that `load_elf_phdrs` copies. -/
def loadElfPhdrs (h : ElfHdr) : List Nat :=
  (range (sizeofPhdr * h.phnum)).map fun k => u64 (h.phoff + k)

/-- What `load_elf_binary` gets from others: the task size, memory for its structures, and what
`create_elf_tables` needs. -/
structure Host where
  /-- whether `get_task_size` has an answer -/
  answers : Bool
  mallocs : List Nat
  arch : Arch
  strings : Strings
  malloc : Nat → Option Nat
  mem : Store
  savedAuxv : Nat → Nat

def Host.tables (host : Host) : Except Int Tables :=
  createElfTables host.arch host.strings host.malloc host.mem host.savedAuxv System.taskSize

/-- The bytes that are read, and what `execve` sends. -/
structure Load where
  reads : List Nat
  sent : Option ((Layout × System.Vfs) × Tables)

/-- `prepare_binprm` and `load_elf_binary`. -/
def execBinprm (host : Host) (file : Nat → Byte) : Load :=
  let h := ElfHdr.ofFile file
  if host.answers = false then ⟨prepareBinprm, none⟩
  else
    match Vfs.malloc ⟨0, fun _ => none, host.mallocs⟩ with
    | none => ⟨prepareBinprm, none⟩
    | some r =>
      if h.ok = false then ⟨prepareBinprm, none⟩
      else
        match r.2.malloc with
        | none => ⟨prepareBinprm, none⟩
        | some r =>
          { reads := prepareBinprm ++ loadElfPhdrs h
            sent := ((elfPhdrs file).foldlM loadVfs (.start, r.2)).bind fun x =>
              if badAddr h.entry then none
              else host.tables.toOption.map fun t => (x, t) }

/-! ## Inside the file -/

/-- The record maps the `p_filesz` bytes of the segment from inside the file. -/
def RecordInside (fileSize : Nat) (r : BinprmInfo) (ph : Phdr) : Prop :=
  ∀ k < ph.filesz, ph.vaddr + k - r.vaddr < r.size ∧
    u64 (r.off + (ph.vaddr + k - r.vaddr)) < fileSize

/-- Every byte that is read is a byte of the file, and so is every byte that a record of a request
needs. -/
structure StaysInside (file : Nat → Byte) (fileSize : Nat) (l : Load) : Prop where
  reads : ∀ a ∈ l.reads, a < fileSize
  records : ∀ x t, l.sent = some (x, t) →
    Recorded x.2.record x.2.binprmInfo (elfLoads file).reverse ∧
      ∀ ph ∈ elfLoads file, ∀ next, RecordInside fileSize (ph.info next) ph

/-- The first `n` blocks are there. -/
def Grants (mallocs : List Nat) (n : Nat) : Prop :=
  n ≤ mallocs.length ∧ (mallocs.take n).Nodup ∧ 0 ∉ mallocs.take n

def Host.Copies (host : Host) (file : Nat → Byte) : Prop :=
  host.answers = true ∧ (ElfHdr.ofFile file).ok = true ∧
    ∃ a b rest, host.mallocs = a :: b :: rest ∧ a ≠ 0 ∧ b ≠ 0

/-- The request is sent: every segment and the entry pass their checks, and nothing fails. -/
def Host.Sends (host : Host) (file : Nat → Byte) : Prop :=
  host.Copies file ∧
    (∀ ph ∈ elfLoads file, (ph.info 0).size ≠ 0 ∧ ph.bad = false) ∧
    Grants (host.mallocs.drop 2) (elfLoads file).length ∧
    badAddr (ElfHdr.ofFile file).entry = false ∧ host.tables.toOption.isSome

variable {host : Host} {file : Nat → Byte} {fileSize : Nat} {ph : Phdr}

theorem forall_u64_lt_iff {a n size : Nat} (ha : a < 2 ^ 64) (hsize : size < 2 ^ 64) :
    (∀ k < n, u64 (a + k) < size) ↔ n = 0 ∨ a + n ≤ size := by
  unfold u64
  constructor
  · intro h
    by_contra hout
    have hfirst := h 0 (by omega)
    have hlast := h (size - a) (by omega)
    omega
  · rintro (rfl | hle) k hk
    · cases hk
    · omega

theorem fieldAt_lt (file : Nat → Byte) (off n : Nat) : fieldAt file off n < 256 ^ n := by
  have := leNat_lt ((range n).map fun j => file (u64 (off + j)))
  rwa [length_map, length_range] at this

theorem offset_lt (hph : ph ∈ elfLoads file) : ph.offset < 2 ^ 64 := by
  obtain ⟨i, -, rfl⟩ := mem_map.mp (mem_filter.mp hph).1
  exact fieldAt_lt _ _ 8

theorem recordInside_iff (hph : ph ∈ elfLoads file) (hgood : ph.bad = false)
    (hsize : fileSize < 2 ^ 64) (next : Nat) : RecordInside fileSize (ph.info next) ph ↔
      ph.filesz = 0 ∨ ph.offset + ph.filesz ≤ fileSize := by
  obtain ⟨hle, hbound, -⟩ := Phdr.le_of_good hgood
  obtain ⟨h1, -, h3, h4⟩ := Phdr.info_range hgood next
  rw [← forall_u64_lt_iff (offset_lt hph) hsize]
  unfold RecordInside
  refine forall₂_congr fun k hk => ?_
  rw [Phdr.info_off]
  exact and_iff_right (by omega)

/-! ## When the request is sent -/

theorem malloc_fresh (i a : Nat) (rest : List Nat) : Vfs.malloc ⟨i, fun _ => none, a :: rest⟩ =
      if a = 0 then none else some (a, ⟨i, fun _ => none, rest⟩) := by
  simp [Vfs.malloc]

theorem execBinprm_of_copies (h : host.Copies file) : execBinprm host file =
      { reads := prepareBinprm ++ loadElfPhdrs (ElfHdr.ofFile file)
        sent := ((elfPhdrs file).foldlM loadVfs
            (.start, ⟨0, fun _ => none, host.mallocs.drop 2⟩)).bind fun x =>
          if badAddr (ElfHdr.ofFile file).entry then none
          else host.tables.toOption.map fun t => (x, t) } := by
  obtain ⟨hans, hok, a, b, rest, hm, ha, hb⟩ := h
  unfold execBinprm
  simp only [hans, hok, hm, malloc_fresh, if_neg ha, if_neg hb]
  rfl

theorem execBinprm_of_not_copies (h : ¬ host.Copies file) :
    execBinprm host file = ⟨prepareBinprm, none⟩ := by
  unfold execBinprm
  by_cases hans : host.answers = false
  · exact if_pos hans
  simp only [if_neg hans]
  by_cases hok : (ElfHdr.ofFile file).ok = false
  · simp only [if_pos hok]
    split <;> rfl
  simp only [if_neg hok]
  rcases hm : host.mallocs with _ | ⟨a, _ | ⟨b, rest⟩⟩
  · rfl
  · rw [malloc_fresh]
    split_ifs <;> rfl
  · have hzero : a = 0 ∨ b = 0 := by
      by_contra hne
      rw [not_or] at hne
      exact h ⟨Bool.eq_true_of_not_eq_false hans, Bool.eq_true_of_not_eq_false hok, a, b, rest, hm,
        hne.1, hne.2⟩
    rw [malloc_fresh]
    by_cases ha : a = 0
    · rw [if_pos ha]
    · rw [if_neg ha]
      simp only [malloc_fresh, if_pos (hzero.resolve_left ha)]

theorem grants_cons (a : Nat) (rest : List Nat) (n : Nat) :
    Grants (a :: rest) (n + 1) ↔ a ≠ 0 ∧ a ∉ rest.take n ∧ Grants rest n := by
  simp only [Grants, length_cons, take_succ_cons, nodup_cons, mem_cons, not_or,
    Nat.add_le_add_iff_right, ne_comm (a := a)]
  tauto

theorem loadVfs_isSome_iff (phs : List Phdr) (x : Layout × System.Vfs) :
    (phs.foldlM loadVfs x).isSome ↔
      (∀ ph ∈ phs.filter Phdr.isLoad, (ph.info 0).size ≠ 0 ∧ ph.bad = false) ∧
        Grants x.2.mallocs (phs.filter Phdr.isLoad).length ∧
        ∀ a ∈ x.2.mallocs.take (phs.filter Phdr.isLoad).length, x.2.record a = none := by
  induction phs generalizing x with
  | nil => simp [Grants]
  | cons ph phs ih =>
    rw [foldlM_cons]
    by_cases hload : ph.isLoad = false
    · have hstep : loadVfs x ph = some x := if_pos hload
      rw [hstep, filter_cons_of_neg (by simp [hload])]
      exact ih _
    rw [filter_cons_of_pos (by simpa using hload), length_cons, forall_mem_cons]
    obtain ⟨l, i, record, mallocs⟩ := x
    have hinfo : (ph.info i).size = (ph.info 0).size := rfl
    cases mallocs with
    | nil =>
      have hstep : loadVfs (l, ⟨i, record, []⟩) ph = none := by
        simp only [loadVfs, if_neg hload, vfsElfMap, Vfs.malloc]
        split_ifs <;> rfl
      rw [hstep]
      simp [Grants]
    | cons a rest =>
      rw [grants_cons, take_succ_cons, forall_mem_cons]
      by_cases hpass : ((ph.info 0).size ≠ 0 ∧ ph.bad = false) ∧ a ≠ 0 ∧ record a = none
      · obtain ⟨⟨hsize, hbad⟩, ha, hfree⟩ := hpass
        have hstep : loadVfs (l, ⟨i, record, a :: rest⟩) ph = some (l.add ph,
            ⟨a, update record a (some (ph.info i)), rest⟩) := by
          simp [loadVfs, hload, vfsElfMap, Vfs.malloc, hinfo, hsize, hbad, ha, hfree]
        have hupdate : (∀ b ∈ rest.take (phs.filter Phdr.isLoad).length,
            update record a (some (ph.info i)) b = none) ↔
            a ∉ rest.take (phs.filter Phdr.isLoad).length ∧
              ∀ b ∈ rest.take (phs.filter Phdr.isLoad).length, record b = none := by
          constructor
          · intro h
            have hnot : a ∉ rest.take (phs.filter Phdr.isLoad).length := by
              intro hmem
              have := h a hmem
              rw [update_self] at this
              cases this
            refine ⟨hnot, fun b hb => ?_⟩
            have hne : b ≠ a := fun heq => hnot (heq ▸ hb)
            rw [← h b hb, update_of_ne hne]
          · rintro ⟨hnot, h⟩ b hb
            have hne : b ≠ a := fun heq => hnot (heq ▸ hb)
            rw [update_of_ne hne, h b hb]
        rw [hstep]
        refine (ih _).trans ?_
        rw [hupdate]
        tauto
      · have hstep : loadVfs (l, ⟨i, record, a :: rest⟩) ph = none := by
          simp only [loadVfs, if_neg hload, vfsElfMap, Vfs.malloc, hinfo]
          by_cases hsize : (ph.info 0).size = 0
          · rw [if_pos hsize]
            rfl
          by_cases hblock : a = 0 ∨ (record a).isSome
          · rw [if_neg hsize, if_pos hblock]
            rfl
          rw [if_neg hsize, if_neg hblock, Option.map_some, Option.bind_some]
          rw [not_or, Option.not_isSome_iff_eq_none] at hblock
          refine if_pos (Bool.eq_true_of_not_eq_false fun hbad => hpass ?_)
          exact ⟨⟨hsize, hbad⟩, hblock⟩
        rw [hstep]
        refine iff_of_false Bool.false_ne_true fun h => hpass ?_
        exact ⟨h.1.1, h.2.1.1, h.2.2.1⟩

theorem sent_isSome_iff : (execBinprm host file).sent.isSome ↔ host.Sends file := by
  by_cases hc : host.Copies file
  · have hloop := loadVfs_isSome_iff (elfPhdrs file) (.start, ⟨0, fun _ => none, host.mallocs.drop 2⟩)
    rw [execBinprm_of_copies hc]
    constructor
    · intro h
      obtain ⟨y, hy⟩ := Option.isSome_iff_exists.mp h
      obtain ⟨x, hx, hy⟩ := Option.bind_eq_some_iff.mp hy
      split_ifs at hy with hentry
      obtain ⟨t, ht, -⟩ := Option.map_eq_some_iff.mp hy
      obtain ⟨hgood, hgrants, -⟩ := hloop.mp (Option.isSome_iff_exists.mpr ⟨x, hx⟩)
      exact ⟨hc, hgood, hgrants, Bool.eq_false_iff.mpr hentry,
        Option.isSome_iff_exists.mpr ⟨t, ht⟩⟩
    · rintro ⟨-, hgood, hgrants, hentry, htables⟩
      obtain ⟨t, ht⟩ := Option.isSome_iff_exists.mp htables
      obtain ⟨x, hx⟩ := Option.isSome_iff_exists.mp (hloop.mpr ⟨hgood, hgrants, fun _ _ => rfl⟩)
      simp only [hx, hentry, ht, Option.bind_some, Option.map_some, Bool.false_eq_true, if_false,
        Option.isSome_some]
  · rw [execBinprm_of_not_copies hc]
    exact iff_of_false Bool.false_ne_true fun h => hc h.1

theorem recorded_of_sent {x : Layout × System.Vfs} {t : Tables}
    (h : (execBinprm host file).sent = some (x, t)) : (∀ ph ∈ elfLoads file, ph.bad = false) ∧
      Recorded x.2.record x.2.binprmInfo (elfLoads file).reverse := by
  by_cases hc : host.Copies file
  · rw [execBinprm_of_copies hc] at h
    obtain ⟨y, hloop, h⟩ := Option.bind_eq_some_iff.mp h
    split_ifs at h
    obtain ⟨t', -, heq⟩ := Option.map_eq_some_iff.mp h
    cases heq
    have hnil : Recorded (fun _ => none) 0 [] := .nil
    obtain ⟨-, hgood, hrec⟩ := loadVfs_some hnil hloop
    rw [append_nil] at hrec
    exact ⟨hgood, hrec⟩
  · rw [execBinprm_of_not_copies hc] at h
    cases h

/-! ## The result -/

theorem prepareBinprm_inside_iff :
    (∀ a ∈ prepareBinprm, a < fileSize) ↔ binprmBufSize ≤ fileSize := by
  simp only [prepareBinprm, mem_range]
  constructor
  · intro h
    have := h (binprmBufSize - 1) (by decide)
    unfold binprmBufSize at *
    omega
  · intro h a ha
    omega

theorem loadElfPhdrs_inside_iff (hok : (ElfHdr.ofFile file).ok = true) (hsize : fileSize < 2 ^ 64) :
    (∀ a ∈ loadElfPhdrs (ElfHdr.ofFile file), a < fileSize) ↔
      (ElfHdr.ofFile file).phoff + sizeofPhdr * (ElfHdr.ofFile file).phnum ≤ fileSize := by
  have hpos : sizeofPhdr * (ElfHdr.ofFile file).phnum ≠ 0 := by
    simp only [ElfHdr.ok, decide_eq_true_eq] at hok
    unfold sizeofPhdr
    omega
  have hlt : (ElfHdr.ofFile file).phoff < 2 ^ 64 := fieldAt_lt _ _ 8
  have hrange := forall_u64_lt_iff (n := sizeofPhdr * (ElfHdr.ofFile file).phnum) hlt hsize
  rw [or_iff_right hpos] at hrange
  rw [← hrange]
  simp only [loadElfPhdrs, forall_mem_map, mem_range]

theorem reads_inside_iff (hsize : fileSize < 2 ^ 64) :
    (∀ a ∈ (execBinprm host file).reads, a < fileSize) ↔ binprmBufSize ≤ fileSize ∧
      (host.Copies file →
        (ElfHdr.ofFile file).phoff + sizeofPhdr * (ElfHdr.ofFile file).phnum ≤ fileSize) := by
  by_cases hc : host.Copies file
  · rw [execBinprm_of_copies hc, forall_mem_append, prepareBinprm_inside_iff,
      loadElfPhdrs_inside_iff hc.2.1 hsize, imp_iff_right hc]
  · rw [execBinprm_of_not_copies hc, prepareBinprm_inside_iff]
    exact (and_iff_left fun h => absurd h hc).symm

/-- The VFS stays inside a file just when the file has the 128 bytes of the buffer, the program
headers that are copied, and the segments of a request that is sent. -/
theorem elf_stays_inside_iff (host : Host) (file : Nat → Byte) (fileSize : BitVec 64) :
    StaysInside file fileSize.toNat (execBinprm host file) ↔
      (binprmBufSize ≤ fileSize.toNat ∧
        (host.Copies file → (ElfHdr.ofFile file).phoff +
          sizeofPhdr * (ElfHdr.ofFile file).phnum ≤ fileSize.toNat)) ∧
      (host.Sends file → ∀ ph ∈ elfLoads file,
        ph.filesz = 0 ∨ ph.offset + ph.filesz ≤ fileSize.toNat) := by
  have hsize := fileSize.isLt
  rw [← reads_inside_iff hsize]
  constructor
  · rintro ⟨hreads, hrecords⟩
    refine ⟨hreads, fun hs ph hph => ?_⟩
    obtain ⟨⟨x, t⟩, hsent⟩ := Option.isSome_iff_exists.mp (sent_isSome_iff.mpr hs)
    have hgood := (recorded_of_sent hsent).1 ph hph
    exact (recordInside_iff hph hgood hsize 0).mp ((hrecords x t hsent).2 ph hph 0)
  · rintro ⟨hreads, hsegments⟩
    refine ⟨hreads, fun x t hsent => ?_⟩
    obtain ⟨hgood, hrec⟩ := recorded_of_sent hsent
    have hs := sent_isSome_iff.mp (Option.isSome_iff_exists.mpr ⟨_, hsent⟩)
    refine ⟨hrec, fun ph hph next => ?_⟩
    exact (recordInside_iff hph (hgood ph hph) hsize next).mpr (hsegments hs ph hph)

/-- A host on which nothing fails, with the strings of a program without arguments. -/
def sampleHost : Host where
  answers := true
  mallocs := [0x7000, 0x7100, 0x5000]
  arch := ⟨elfPlatform, fun _ => 0, 0, fun _ => .error 0, 0⟩
  strings := ⟨⟨[0x61], by decide, by decide⟩, [], [], by decide⟩
  malloc _ := some 0x6000
  mem _ := 0
  savedAuxv _ := 0

/-- Of a file of 64 bytes the VFS reads the byte 127; and a file of 128 bytes that has its program
headers at 2^32 + 64 is read there. -/
theorem elf_reads_outside :
    (∃ a ∈ (execBinprm sampleHost (sampleArchive 0x400000 0)).reads, ¬ a < 64) ∧
      ∃ a ∈ (execBinprm sampleHost
        (Function.update (sampleArchive 0x400000 0) 36 1)).reads, ¬ a < 128 := by
  have hfirst : ∀ file, 127 ∈ (execBinprm sampleHost file).reads := by
    intro file
    have hmem : 127 ∈ prepareBinprm := by decide
    by_cases hc : sampleHost.Copies file
    · rw [execBinprm_of_copies hc]
      exact mem_append_left _ hmem
    · rw [execBinprm_of_not_copies hc]
      exact hmem
  refine ⟨⟨127, hfirst _, by decide⟩, 2 ^ 32 + 64, ?_, by decide⟩
  have hok : (ElfHdr.ofFile (update (sampleArchive 0x400000 0) 36 1)).ok = true := by
    decide +kernel
  have hc : sampleHost.Copies (update (sampleArchive 0x400000 0) 36 1) :=
    ⟨rfl, hok, 0x7000, 0x7100, [0x5000], rfl, by decide, by decide⟩
  have hphoff : (ElfHdr.ofFile (update (sampleArchive 0x400000 0) 36 1)).phoff =
      2 ^ 32 + 64 := by
    decide +kernel
  have hphnum : (ElfHdr.ofFile (update (sampleArchive 0x400000 0) 36 1)).phnum = 1 := by
    decide +kernel
  rw [execBinprm_of_copies hc]
  apply mem_append_right
  rw [loadElfPhdrs, hphoff, hphnum]
  exact mem_map.mpr ⟨0, by decide, by decide⟩

end MinixRt.Vfs
