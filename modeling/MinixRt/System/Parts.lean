import MinixRt.System.Build

/-!
# The parts of `system_exec`

`Part.Holds` is what a part of the call guarantees for its result and for its exits, and there
is one lemma for each part. They are stated for two aims at once: with `safe` every access of
the log is in bounds, and with `tidy` an exit leaves nothing behind. What a part needs for them
is in `Loads` and `Binprm.Stacks`.
-/

namespace MinixRt.System

open List Lib Mm

variable {flags : BitVec 64} {d : Data} {block : List Byte} {off vstart size : Nat}
  {P : Nat → Nat → Option Page} {L : Nat → Option Entry} {q p : Page} {s' : Space} {v : Vma}
  {fill : Vma → Data → Data}

/-! ## Results and exits -/

/-- The part ends in a state of `ok`, or leaves in one of `err`. -/
inductive Part.Holds {α : Type} (ok : α → Exec → Prop) (err : Exit → Exec → Prop) : Part α → Prop
  | ok {a : α} {e : Exec} : ok a e → Part.Holds ok err (some (.ok a, e))
  | error {l : Exit} {e : Exec} : err l e → Part.Holds ok err (some (.error l, e))

theorem Part.Holds.andThen {α β : Type} {x : Part α} {f : α → Exec → Part β} {ok : β → Exec → Prop}
    {err : Exit → Exec → Prop} (h : x.Holds (fun a e => (f a e).Holds ok err) err) :
    (x.andThen f).Holds ok err := by
  cases h with
  | ok h => exact h
  | error h => exact .error h

theorem Part.Holds.imp {α : Type} {x : Part α} {ok ok' : α → Exec → Prop} {err : Exit → Exec → Prop}
    (h : x.Holds ok err) (hok : ∀ a e, ok a e → ok' a e) : x.Holds ok' err := by
  cases h with
  | ok h => exact .ok (hok _ _ h)
  | error h => exact .error h

/-! ## Segments -/

def BinprmInfo.range (r : BinprmInfo) : Nat × Nat := (r.vaddr, r.vaddr + r.size)

/-- The VMA `v` of the segment `r` has the bytes of the file. -/
structure Shows (file : Nat → Byte) (d : Data) (r : BinprmInfo) (v : Vma) : Prop where
  start : v.vmStart = r.vaddr
  stop : v.vmEnd = r.vaddr + r.size
  priv : v.Private
  nr : v.nrPages = r.size / pageSize % 2 ^ 32
  bytes : ∀ i p, v.pages[i]? = some (some p) → d p = fun j => file (u64 (r.off + i * pageSize + j))

/-- The segments `done` are in the address space. -/
def Content (file : Nat → Byte) (done : List BinprmInfo) (s : Space) : Prop :=
  ∀ r ∈ done, ∃ v ∈ s.mm.vmas, Shows file s.mem.data r v

/-! ## The state of the call -/

/-- What the call has allocated when it starts to build. -/
def firstBufs : List Buf := [.mm, .file, .filename, .bprm]

/-- What it has allocated when it leaves by a label. -/
def Exit.bufs : Exit → List Buf
  | .freeTmpBuf _ => .tmpBuf :: firstBufs
  | .freeMm _ | .freeFilename _ => firstBufs

/-- The call after some of its parts, with the segments `done` and VMAs at `as`. -/
structure Exec.Mid (tidy safe : Prop) (m₀ : Mem) (s₀ : Space) (P₀ : Nat → Nat → Option Page)
    (file : Nat → Byte) (bufs : List Buf) (done : List BinprmInfo) (as : List (Nat × Nat))
    (e : Exec) : Prop where
  built : Built tidy m₀ s₀ P₀ e.space
  content : Content file done e.space
  areas : Areas as e.space
  bufs : e.bufs = bufs
  log : safe → ∀ a ∈ e.log, a.Ok
  args : e.args = none

structure Exec.Left (tidy safe : Prop) (m₀ : Mem) (s₀ : Space) (P₀ : Nat → Nat → Option Page)
    (l : Exit) (e : Exec) : Prop where
  built : Built tidy m₀ s₀ P₀ e.space
  bufs : e.bufs = l.bufs
  log : safe → ∀ a ∈ e.log, a.Ok
  args : e.args = none
  exit : tidy → ∀ retval, l ≠ .freeFilename retval

section Parts

variable {b : Board} {tidy safe : Prop} {m₀ : Mem} {s₀ s : Space}
  {P₀ : Nat → Nat → Option Page} {e : Exec} {as : List (Nat × Nat)} {bufs : List Buf}
  {read : Reader} {bprm : Binprm} {r : BinprmInfo} {next fileSize : Nat} {file : Nat → Byte}
  {done : List BinprmInfo}

/-! ## The loop over the segments -/

/-- The records of the list at `next` that can be read, up to a first one that cannot. -/
inductive Listed (read : Reader) : Nat → BinprmInfo → Prop
  | head {next : Nat} {r : BinprmInfo} : next ≠ 0 → readInfo read next = some r →
      Listed read next r
  | tail {next : Nat} {r r' : BinprmInfo} : next ≠ 0 → readInfo read next = some r →
      Listed read r.next r' → Listed read next r'

/-- The list at `next`, all of it can be read and it ends. -/
inductive Chain (read : Reader) : Nat → List BinprmInfo → Prop
  | nil : Chain read 0 []
  | cons {next : Nat} {r : BinprmInfo} {rs : List BinprmInfo} : next ≠ 0 →
      readInfo read next = some r → Chain read r.next rs → Chain read next (r :: rs)

/-- A record that goes through without harm. -/
structure BinprmInfo.Good (safe : Prop) (fileSize : Nat) (r : BinprmInfo) : Prop where
  below : r.vaddr + r.size ≤ userDs
  priv : r.prot &&& vmPrivateShare = 0
  short : r.size < 2 ^ 44
  file : safe → r.off + r.size ≤ fileSize

/-- What the loop over the segments needs of the list. -/
structure Loads (tidy safe : Prop) (read : Reader) (fileSize : Nat) (next : Nat)
    (as : List (Nat × Nat)) : Prop where
  good : ∀ r, Listed read next r → u64 (r.vaddr + r.size) ≤ userDs → r.Good safe fileSize
  tidy : tidy → ∃ rs, Chain read next rs ∧ (∀ r ∈ rs, r.vaddr + r.size ≤ userDs) ∧
    (rs.map BinprmInfo.range).Pairwise Separate ∧ ∀ r ∈ rs, ∀ a ∈ as, Separate a r.range

theorem BinprmInfo.Good.log (h : r.Good safe fileSize) (hs : safe) :
    ∀ a ∈ r.log fileSize, a.Ok := by
  intro a ha
  rcases mem_cons.mp ha with rfl | ha
  · exact h.below
  · obtain ⟨i, hi, rfl⟩ := mem_map.mp ha
    have hfile := h.file hs
    have hi := mem_range.mp hi
    have hle : (i + 1) * pageSize ≤ r.size := by
      have : i + 1 ≤ r.size / pageSize := by
        have := Nat.mod_le (r.size / pageSize) (2 ^ 32)
        omega
      exact (Nat.mul_le_mul_right _ this).trans (Nat.div_mul_le_self _ _)
    have hu : u64 (r.off + i * pageSize) ≤ r.off + i * pageSize := Nat.mod_le _ _
    refine ⟨?_, h.priv⟩
    rw [Nat.succ_mul] at hle
    omega

theorem copyPages_of_not_mem {ps : List (Option Page)} (hq : some q ∉ ps) : copyPages file ps off d q = d q := by
  induction ps generalizing off d with
  | nil => rfl
  | cons p ps ih =>
    rw [mem_cons, not_or] at hq
    cases p with
    | none => exact ih hq.2
    | some =>
      rw [copyPages, ih hq.2]
      exact Function.update_of_ne (fun h => hq.1 (by rw [h])) _ _

theorem fills_copyPages (file : Nat → Byte) (off : Nat) :
    Fills fun v d => copyPages file v.pages off d := fun _ _ _ hq => copyPages_of_not_mem hq

theorem length_mul_le {vs : List Vma} {a B : Nat} (hord : vs.Pairwise fun u v => u.vmEnd ≤ v.vmStart)
    (hvs : ∀ v ∈ vs, a ≤ v.vmStart ∧ v.vmStart + pageSize ≤ v.vmEnd ∧ v.vmEnd ≤ B) (ha : a ≤ B) :
    a + vs.length * pageSize ≤ B := by
  induction vs generalizing a with
  | nil => simpa using ha
  | cons v vs ih =>
    obtain ⟨h1, h2, h3⟩ := hvs v (by simp)
    rw [pairwise_cons] at hord
    have := ih (a := v.vmEnd) hord.2 (fun u hu => ⟨hord.1 u hu, (hvs u (by simp [hu])).2⟩) h3
    rw [length_cons, Nat.succ_mul]
    omega

theorem Built.length_le (h : Built tidy m₀ s₀ P₀ s) : s.mm.vmas.length < maxSegments := by
  obtain ⟨P, L, hok, -⟩ := h
  have := length_mul_le (a := 0) (B := entrySize 4) hok.rep.ordered
    (fun v hv => ⟨Nat.zero_le _, (hok.rep.sized v hv).1.add_pageSize_le,
      (hok.rep.sized v hv).2⟩) (Nat.zero_le _)
  have hsize : entrySize 4 = 2 ^ 36 * pageSize := by decide
  rw [hsize, Nat.zero_add] at this
  have := Nat.le_of_mul_le_mul_right this (by decide)
  unfold maxSegments
  omega

theorem copyPages_getElem {ps : List Page} {i : Nat} (hn : ps.Nodup) (hi : ps[i]? = some p) :
    copyPages file (ps.map some) off d p = fun j => file (u64 (off + i * pageSize + j)) := by
  induction ps generalizing off i d with
  | nil => cases hi
  | cons q ps ih =>
    rw [nodup_cons] at hn
    rw [map_cons, copyPages]
    cases i with
    | zero =>
      obtain rfl : q = p := by simpa using hi
      rw [copyPages_of_not_mem (by simpa using hn.1), Function.update_self, Nat.zero_mul,
        Nat.add_zero]
    | succ i =>
      rw [ih hn.2 (by simpa using hi), Nat.succ_mul]
      funext j
      congr 2
      omega

theorem shows_of_mapped (hpriv : r.prot &&& vmPrivateShare = 0)
    (hm : MappedArea s r.vaddr r.size r.prot (fun v d => copyPages file v.pages r.off d) v s') :
    ∃ v ∈ s'.mm.vmas, Shows file s'.mem.data r v := by
  obtain ⟨l1, l2, root, bytes, -, -, hmm⟩ := hm.mm
  obtain ⟨ps, hps, hnodup, -⟩ := hm.fresh
  obtain ⟨d, -, hd⟩ := hm.data
  have hvmas : s'.mm.vmas = l1 ++ { v with root } :: l2 := by rw [hmm]
  refine ⟨{ v with root }, by rw [hvmas]; simp, hm.start, hm.stop, ?_, hm.nr, fun i p hp => ?_⟩
  · show v.vmFlags &&& vmPrivateShare = 0
    rw [hm.flag, hpriv]
  · have hp : v.pages[i]? = some (some p) := hp
    rw [hd p (mem_of_getElem? hp), hps, copyPages_getElem hnodup]
    simpa [hps] using hp

theorem Content.mapped (h : Content file done s) (hb : Built tidy m₀ s₀ P₀ s)
    (hm : MappedArea s vstart size flags fill v s') : Content file done s' := by
  obtain ⟨P, L, hok, -⟩ := hb
  obtain ⟨l1, l2, root, bytes, heq, -, hmm⟩ := hm.mm
  intro r hr
  obtain ⟨u, hu, hshow⟩ := h r hr
  have hu' : u ∈ s'.mm.vmas := by
    rw [hmm]
    rw [heq] at hu
    simp at hu ⊢
    tauto
  refine ⟨u, hu', hshow.start, hshow.stop, hshow.priv, hshow.nr, fun i p hp => ?_⟩
  rw [hm.keep p, hshow.bytes i p hp]
  rw [hok.own.ref p (mem_ownPages.mpr ⟨u, hu, hshow.priv, mem_of_getElem? hp⟩)]
  decide

theorem MappedArea.length (h : MappedArea s vstart size flags fill v s') :
    s'.mm.vmas.length = s.mm.vmas.length + 1 := by
  obtain ⟨l1, l2, root, bytes, heq, -, hmm⟩ := h.mm
  rw [hmm, heq]
  simp only [length_append, length_cons]
  omega

theorem Loads.tail (h : Loads tidy safe read fileSize next as) (hne : next ≠ 0)
    (hr : readInfo read next = some r) : Loads tidy safe read fileSize r.next (r.range :: as) := by
  refine ⟨fun r' hr' => h.good r' (.tail hne hr hr'), fun ht => ?_⟩
  obtain ⟨rs, hchain, hbelow, hpair, hsep⟩ := h.tidy ht
  cases hchain with
  | nil => exact absurd rfl hne
  | @cons _ r0 rs _ hr0 hchain =>
    obtain rfl : r = r0 := Option.some.inj (hr.symm.trans hr0)
    rw [map_cons, pairwise_cons] at hpair
    refine ⟨rs, hchain, fun r' h' => hbelow r' (by simp [h']), hpair.2, fun r' h' a ha => ?_⟩
    rcases mem_cons.mp ha with rfl | ha
    · exact hpair.1 _ (mem_map_of_mem h')
    · exact hsep r' (by simp [h']) a ha

/-- With `tidy` the first record can be read and lies in the free part of the user range. -/
theorem Loads.head (h : Loads tidy safe read fileSize next as) (hne : next ≠ 0) (ht : tidy) :
    ∃ r, readInfo read next = some r ∧ r.vaddr + r.size ≤ userDs ∧ ∀ a ∈ as, Separate a r.range := by
  obtain ⟨rs, hchain, hbelow, -, hsep⟩ := h.tidy ht
  cases hchain with
  | nil => exact absurd rfl hne
  | @cons _ r rs _ hr => exact ⟨r, hr, hbelow r (by simp), hsep r (by simp)⟩

theorem loadSegments_holds {turns : Nat} (hmid : e.Mid tidy safe m₀ s₀ P₀ file firstBufs done as)
    (hload : Loads tidy safe read fileSize next as)
    (hturns : maxSegments ≤ e.space.mm.vmas.length + turns) :
    (loadSegments b read file fileSize turns next e).Holds
      (fun _ e' => ∃ rs, Chain read next rs ∧ e'.Mid tidy safe m₀ s₀ P₀ file firstBufs
        (rs.reverse ++ done) (rs.reverse.map BinprmInfo.range ++ as))
      (Exec.Left tidy safe m₀ s₀ P₀) := by
  induction turns generalizing next e done as with
  | zero =>
    have := hmid.built.length_le
    omega
  | succ turns ih =>
    rw [loadSegments]
    split_ifs with hnext
    · exact .ok ⟨[], hnext ▸ .nil, by simpa using hmid⟩
    cases hr : readInfo read next with
    | none =>
      refine .error ⟨hmid.built, hmid.bufs, hmid.log, hmid.args, fun ht => ?_⟩
      obtain ⟨r, hr', -⟩ := hload.head hnext ht
      cases hr.symm.trans hr'
    | some r =>
      simp only
      split_ifs with hbelow
      · refine .error ⟨hmid.built, hmid.bufs, hmid.log, hmid.args, fun ht => ?_⟩
        obtain ⟨r', hr', hle, -⟩ := hload.head hnext ht
        cases hr.symm.trans hr'
        have : u64 (r.vaddr + r.size) ≤ r.vaddr + r.size := Nat.mod_le _ _
        omega
      have hgood := hload.good r (.head hnext hr) (not_lt.mp hbelow)
      have hap : tidy → e.space.Apart r.vaddr r.size := fun ht => by
        obtain ⟨r', hr', -, hsep⟩ := hload.head hnext ht
        cases hr.symm.trans hr'
        exact hmid.areas.apart hsep
      obtain ⟨res, s', hres, hb, hout⟩ := hmid.built.mapArea b r.vaddr r.size r.prot
        (fun v d => copyPages file v.pages r.off d) (hgood.below.trans (by decide)) hgood.priv hgood.short
        (fills_copyPages file r.off) hap
      have hlog : ∀ l, (safe → ∀ a ∈ l, a.Ok) → safe → ∀ a ∈ e.log ++ l, a.Ok :=
        fun l hl hs a ha => (mem_append.mp ha).elim (hmid.log hs a) (hl hs a)
      rw [BinprmInfo.map, hres]
      cases res with
      | noVma =>
        exact .error ⟨hb, hmid.bufs, hlog _ fun _ a ha => by
          rw [mem_singleton.mp ha]; exact hgood.below, hmid.args, fun _ _ => nofun⟩
      | noMap => exact .error ⟨hb, hmid.bufs, hlog _ hgood.log, hmid.args, fun _ _ => nofun⟩
      | mapped v =>
        have hmid' : Exec.Mid tidy safe m₀ s₀ P₀ file firstBufs (r :: done) (r.range :: as)
            ({ e with space := s' }.logs (r.log fileSize)) :=
          ⟨hb, fun r' hr' => ?_, hmid.areas.mapped hout, hmid.bufs, hlog _ hgood.log, hmid.args⟩
        · refine (ih hmid' (hload.tail hnext hr) ?_).imp fun _ e' ⟨rs, hchain, hmid⟩ =>
            ⟨r :: rs, .cons hnext hr hchain, by simpa using hmid⟩
          have := MappedArea.length hout
          simp only [Exec.logs]
          omega
        · rcases mem_cons.mp hr' with rfl | hr'
          · exact shows_of_mapped hgood.priv hout
          · exact hmid.content.mapped hmid.built hout r' hr'

/-! ## The stack and the argument block -/

theorem Exec.Mid.setMm (h : e.Mid tidy safe m₀ s₀ P₀ file bufs done as) (mm : MmStruct)
    (hvs : mm.vmas = e.space.mm.vmas) (hpgd : mm.pgd = e.space.mm.pgd)
    (hbytes : mm.pgtablesBytes = e.space.mm.pgtablesBytes) :
    Exec.Mid tidy safe m₀ s₀ P₀ file bufs done as { e with space := { e.space with mm } } :=
  ⟨h.built.congr ⟨rfl, rfl, rfl, hvs, hpgd, hbytes⟩, fun r hr => by
    obtain ⟨v, hv, hshow⟩ := h.content r hr
    exact ⟨v, hvs ▸ hv, hshow⟩, h.areas.same hvs, h.bufs, h.log, h.args⟩

theorem Exec.mapZeros_holds (vstart size : Nat) (flags : BitVec 64) (exit : Int → Exit)
    (hmid : e.Mid tidy safe m₀ s₀ P₀ file bufs done as) (hend : vstart + size ≤ taskSize)
    (hpriv : flags &&& vmPrivateShare = 0) (hsize : size < 2 ^ 44)
    (hap : tidy → ∀ a ∈ as, Separate a (vstart, vstart + size))
    (hexit : ∀ retval, (exit retval).bufs = bufs ∧ ∀ retval', exit retval ≠ .freeFilename retval') :
    (e.mapZeros b vstart size flags exit).Holds
      (fun v e' => e'.Mid tidy safe m₀ s₀ P₀ file bufs done ((vstart, vstart + size) :: as) ∧
        MappedArea e.space vstart size flags (fun _ d => d) v e'.space)
      (Exec.Left tidy safe m₀ s₀ P₀) := by
  obtain ⟨res, s', hres, hb, hout⟩ := hmid.built.mapArea b vstart size flags (fun _ d => d) hend
    hpriv hsize (fun _ _ _ _ => rfl) fun ht => hmid.areas.apart (hap ht)
  rw [Exec.mapZeros, hres]
  cases res with
  | noVma | noMap =>
    exact .error ⟨hb, hmid.bufs.trans (hexit _).1.symm, hmid.log, hmid.args, fun _ => (hexit _).2⟩
  | mapped =>
    exact .ok ⟨⟨hb, hmid.content.mapped hmid.built hout, hmid.areas.mapped hout, hmid.bufs,
      hmid.log, hmid.args⟩, hout⟩

/-- The argument block ends at `TASK_SIZE` and is shorter than 2^43 bytes. -/
structure Binprm.Short (bprm : Binprm) : Prop where
  le : bprm.p ≤ taskSize
  lt : taskSize - bprm.p < 2 ^ 43

theorem pageAlign_spec {n : Nat} (h : n < 2 ^ 63) :
    n ≤ pageAlign n ∧ pageAlign n < n + pageSize ∧ pageAlign n % pageSize = 0 := by
  unfold pageAlign u64 pageSize
  omega

theorem Binprm.Short.len (h : bprm.Short) : bprm.len = taskSize - bprm.p :=
  sub64_of_le h.le (by decide)

theorem Binprm.Short.stackSize (h : bprm.Short) :
    bprm.len ≤ bprm.stackSize ∧ pageSize ≤ bprm.stackSize ∧ bprm.stackSize < 2 ^ 44 := by
  have hlen := h.len
  have hlt := h.lt
  have := pageAlign_spec (n := bprm.len) (by omega)
  unfold Binprm.stackSize threadSize u64
  unfold pageSize at *
  split_ifs <;> omega

theorem Binprm.Short.stackSize_mod (h : bprm.Short) : bprm.stackSize % pageSize = 0 := by
  have hlen := h.len
  have hlt := h.lt
  have := pageAlign_spec (n := bprm.len) (by omega)
  unfold Binprm.stackSize threadSize u64
  unfold pageSize at *
  split_ifs <;> omega

def Binprm.stackBase (bprm : Binprm) : Nat := taskSize - bprm.stackSize

def Binprm.stringBase (bprm : Binprm) : Nat := bprm.stackBase - pageSize

/-- The string page, the stack and the block above each other. -/
structure Binprm.Bases (bprm : Binprm) : Prop where
  top : bprm.stackBase + bprm.stackSize = taskSize
  string : bprm.stringBase + pageSize = bprm.stackBase
  block : bprm.stackBase ≤ bprm.p

theorem Binprm.Short.bases (h : bprm.Short) : bprm.Bases := by
  obtain ⟨h1, h2, h3⟩ := h.stackSize
  have hlen := h.len
  have hle := h.le
  refine ⟨?_, ?_, ?_⟩ <;> unfold Binprm.stackBase taskSize at * <;> unfold pageSize at *
  · omega
  · unfold Binprm.stringBase Binprm.stackBase taskSize pageSize
    omega
  · omega

theorem Binprm.Short.stringBase_mod (h : bprm.Short) : bprm.stringBase % pageSize = 0 := by
  have hmod := h.stackSize_mod
  have hstring := h.bases.string
  have htop := h.bases.top
  unfold taskSize at htop
  unfold pageSize at *
  omega

theorem mapStack_holds (hmid : e.Mid tidy safe m₀ s₀ P₀ file firstBufs done as)
    (hshort : bprm.Short) (hap : tidy → ∀ a ∈ as, a.2 ≤ bprm.stackBase) : (mapStack b bprm e).Holds
      (fun _ e' => e'.Mid tidy safe m₀ s₀ P₀ file firstBufs done
        ((bprm.stackBase, taskSize) :: as) ∧ e'.space.mm.mmapBase = bprm.stackBase)
      (Exec.Left tidy safe m₀ s₀ P₀) := by
  have hbase := hshort.bases.top
  have hsub : sub64 taskSize bprm.stackSize = bprm.stackBase := sub64_of_le (by omega) (by decide)
  simp only [mapStack, hsub]
  have hmid := hmid.setMm
    { e.space.mm with mmapBase := bprm.stackBase, mmapEnd := bprm.stackBase } rfl rfl rfl
  refine (Exec.mapZeros_holds _ _ _ .freeMm hmid hbase.le (by decide) hshort.stackSize.2.2
    (fun ht a ha => .inl (hap ht a ha)) fun _ => ⟨rfl, fun _ => nofun⟩).imp
    fun v e' ⟨hmid', hout⟩ => ?_
  obtain ⟨l1, l2, root, bytes, -, -, hmm⟩ := hout.mm
  exact ⟨hbase ▸ hmid', by rw [hmm]⟩

theorem kmallocSize_cases (m : Mem) (size : Nat) :
    ∃ ok r, m.kmallocSize size = (ok, { m with kmallocs := r }) ∧ (ok = true → size ≤ 2 ^ 22) := by
  unfold Mem.kmallocSize
  split_ifs with h0 h1
  · exact ⟨true, m.kmallocs, rfl, fun _ => by omega⟩
  · exact ⟨false, m.kmallocs, rfl, nofun⟩
  · obtain ⟨ok, r, h⟩ := mem_kmalloc m
    exact ⟨ok, r, h, fun _ => by omega⟩

theorem readBlock_holds (hmid : e.Mid tidy safe m₀ s₀ P₀ file firstBufs done as) :
    (readBlock read bprm e).Holds
      (fun block e' => read.read bprm.mallocP bprm.len = some block ∧ bprm.len ≤ 2 ^ 22 ∧
        e'.Mid tidy safe m₀ s₀ P₀ file (.tmpBuf :: firstBufs) done as ∧ e'.space.mm = e.space.mm)
      (Exec.Left tidy safe m₀ s₀ P₀) := by
  obtain ⟨ok, r, hk, hlen⟩ := kmallocSize_cases e.space.mem bprm.len
  have hb : Built tidy m₀ s₀ P₀ { e.space with mem := { e.space.mem with kmallocs := r } } :=
    hmid.built.congr ⟨rfl, rfl, rfl, rfl, rfl, rfl⟩
  have hbufs : Buf.tmpBuf :: e.bufs = .tmpBuf :: firstBufs := by rw [hmid.bufs]
  rw [readBlock, hk]
  cases ok with
  | false => exact .error ⟨hb, hmid.bufs, hmid.log, hmid.args, fun _ _ => nofun⟩
  | true =>
    simp only
    cases hread : read.read bprm.mallocP bprm.len with
    | none => exact .error ⟨hb, hbufs, hmid.log, hmid.args, fun _ _ => nofun⟩
    | some =>
      exact .ok ⟨rfl, hlen rfl, ⟨hb, hmid.content, hmid.areas, hbufs, hmid.log, hmid.args⟩, rfl⟩

/-- The page that the VMA `v` has for the strings is a page of the address space. -/
structure StringPage (bprm : Binprm) (s : Space) (v : Vma) (p : Page) : Prop where
  page : v.page 0 = some p
  vma : ∃ u ∈ s.mm.vmas, u.vmStart = bprm.stringBase ∧ u.Private ∧ u.pages = [some p]

theorem MappedArea.onePage (h : MappedArea s vstart pageSize flags fill v s') :
    ∃ p, v.pages = [some p] ∧ v.page 0 = some p := by
  obtain ⟨ps, hps, -, -⟩ := h.fresh
  have hlen : ps.length = 1 := by
    have := h.nr
    rw [Vma.nrPages, hps, length_map] at this
    exact this
  obtain ⟨p, rfl⟩ := length_eq_one_iff.mp hlen
  refine ⟨p, hps, ?_⟩
  rw [Vma.page, hps]
  rfl

theorem stringPage_of_mapped
    (h : MappedArea s bprm.stringBase pageSize heapFlags (fun _ d => d) v s') :
    ∃ p, StringPage bprm s' v p := by
  obtain ⟨l1, l2, root, bytes, -, -, hmm⟩ := h.mm
  obtain ⟨p, hpages, hpage⟩ := MappedArea.onePage h
  have hvmas : s'.mm.vmas = l1 ++ { v with root } :: l2 := by rw [hmm]
  refine ⟨p, hpage, { v with root }, by rw [hvmas]; simp, h.start, ?_, hpages⟩
  show v.vmFlags &&& vmPrivateShare = 0
  rw [h.flag]
  decide

theorem Binprm.Short.sub64_stackBase (hshort : bprm.Short) :
    sub64 bprm.stackBase pageSize = bprm.stringBase := by
  have htop := hshort.bases.top
  have hstring := hshort.bases.string
  rw [sub64_of_le (by omega) (lt_of_le_of_lt (Nat.le.intro htop) (by decide)), Binprm.stringBase]

theorem mapStrings_holds (hmid : e.Mid tidy safe m₀ s₀ P₀ file (.tmpBuf :: firstBufs) done as)
    (hshort : bprm.Short) (hbase : e.space.mm.mmapBase = bprm.stackBase)
    (hap : tidy → ∀ a ∈ as, Separate a (bprm.stringBase, bprm.stackBase)) : (mapStrings b e).Holds
      (fun v e' => e'.Mid tidy safe m₀ s₀ P₀ file (.tmpBuf :: firstBufs) done
        ((bprm.stringBase, bprm.stackBase) :: as) ∧
        e'.space.mm.mmapBase = bprm.stringBase ∧ ∃ p, StringPage bprm e'.space v p)
      (Exec.Left tidy safe m₀ s₀ P₀) := by
  have htop := hshort.bases.top
  have hstring := hshort.bases.string
  have hmid := hmid.setMm { e.space.mm with mmapBase := bprm.stringBase } rfl rfl rfl
  simp only [mapStrings, hbase, hshort.sub64_stackBase, setMmapBase]
  refine (Exec.mapZeros_holds bprm.stringBase pageSize heapFlags .freeTmpBuf hmid
    (hstring ▸ Nat.le.intro htop) (by decide) (by decide) (fun ht a ha => hstring ▸ hap ht a ha)
    fun _ => ⟨rfl, fun _ => nofun⟩).imp fun v e' ⟨hmid', hout⟩ => ?_
  obtain ⟨l1, l2, root, bytes, -, -, hmm⟩ := hout.mm
  rw [hstring] at hmid'
  exact ⟨hmid', by rw [hmm], stringPage_of_mapped hout⟩

/-! ## The strings and the copy to the stack -/

/-- The number of bytes of the strings, which `system_exec` copies to one page. -/
def stringsSize (outside : Nat → Byte) (block : List Byte) : Nat :=
  sub64 taskSize (wordAt block outside 8)

theorem copyStrings_of_ne {block : Nat → Byte} {page : Page} (hsize : size ≤ pageSize)
    (hq : q ≠ page) : copyStrings block page off size d q = d q := by
  funext j
  refine if_neg fun ⟨hle, hlt⟩ => ?_
  have hpos : 0 < q - page := Nat.sub_pos_of_lt (lt_of_le_of_ne hle hq.symm)
  have := Nat.le_mul_of_pos_left pageSize hpos
  exact absurd ((Nat.le_add_right _ j).trans_lt hlt) (not_lt.mpr (hsize.trans this))

@[simp] theorem length_relocate (outside : Nat → Byte) (argv0 base : Nat) (offs : List Nat)
    (block : List Byte) : (relocate outside argv0 base offs block).length = block.length := by
  induction offs generalizing block with
  | nil => rfl
  | cons off offs ih => rw [relocate, ih, setWord, length_mapIdx]

theorem copyStack_eq (hok : SpaceOk e.space P L) (hv : v ∈ e.space.mm.vmas)
    (hstart : v.vmStart = bprm.stackBase) (hstop : v.vmEnd = taskSize) (hshort : bprm.Short)
    (hlen : block.length = bprm.len) (hne : bprm.len ≠ 0) :
    copyStack bprm block e = some (.ok (), { e with
      space := e.space.setData (v.setBytes e.space.mem.data bprm.p block) }) := by
  have hblock := hshort.bases.block
  have hlen' := hshort.len
  have hp : bprm.p + block.length = taskSize := by
    have := hshort.le
    omega
  obtain ⟨l1, l2, ha⟩ := hok.rep.among hv
  have hfind : findVmaArea bprm.p e.space.mm.vmas = some v :=
    hok.rep.find_eq hv (by omega) (by omega)
  have hfilter : (e.space.mm.vmas.filter fun u => v.vmStart ≤ u.vmStart) = v :: l2 :=
    hok.rep.filter_start_le ha
  have hnil : block ≠ [] := fun h => hne (by rw [← hlen, h]; rfl)
  simp only [copyStack, mmapMemcpyToVma, if_neg hnil, hfind, hfilter]
  rw [copyTo_first (by omega)]
  simp [hlen]

theorem SpaceOk.setBytes_of_not_mem {a : Nat} {xs : List Byte} (h : SpaceOk s P L)
    (hv : v ∈ s.mm.vmas) (hw : Whole v) (h1 : v.vmStart ≤ a) (h2 : a + xs.length ≤ v.vmEnd)
    (hq : some q ∉ v.pages) : v.setBytes d a xs q = d q := by
  refine Vma.setBytes_of_ne fun i hi hc => hq ?_
  obtain ⟨p, hp, hpage, -⟩ := SpaceOk.pageOf h hv hw (a := a + i) (by omega) (by omega)
  rw [← hc, hpage]
  exact mem_of_getElem? hp

theorem copyStack_ok (hok : SpaceOk e.space P L) (hwhole : ∀ v ∈ e.space.mm.vmas, Whole v)
    (hareas : Areas as e.space) (hstack : (bprm.stackBase, taskSize) ∈ as) (hshort : bprm.Short)
    (hlen : block.length = bprm.len) (hne : bprm.len ≠ 0) :
    ∃ v ∈ e.space.mm.vmas, v.vmStart = bprm.stackBase ∧ ∃ d,
      copyStack bprm block e = some (.ok (), { e with space := e.space.setData d }) ∧
      ∀ q, some q ∉ v.pages → d q = e.space.mem.data q := by
  obtain ⟨v, hv, hrange⟩ := mem_map.mp (hareas.mem_iff.mpr hstack)
  obtain ⟨hstart, hstop⟩ : v.vmStart = bprm.stackBase ∧ v.vmEnd = taskSize := by
    simpa [vmaRange] using hrange
  refine ⟨v, hv, hstart, _, copyStack_eq hok hv hstart hstop hshort hlen hne, fun q hq => ?_⟩
  have hlen' := hshort.len
  have hle := hshort.le
  exact SpaceOk.setBytes_of_not_mem hok hv (hwhole v hv) (hstart.trans_le hshort.bases.block)
    (by omega) hq

/-- The words and the strings that the call reads lie in the block. -/
structure Binprm.BlockFits (bprm : Binprm) (argv0 : Nat) : Prop where
  start : bprm.p ≤ argv0
  stop : argv0 ≤ taskSize
  strings : taskSize - argv0 ≤ pageSize
  args : 8 * bprm.argTurns + 24 ≤ bprm.len
  envs : 8 * bprm.envTurns + 8 ≤ bprm.len

theorem Binprm.BlockFits.blockLog {argv0 : Nat} (h : bprm.BlockFits argv0) (hshort : bprm.Short) :
    ∀ a ∈ bprm.blockLog argv0, a.Ok := by
  have hlen := hshort.len
  obtain ⟨h1, h2, h3, h4, h5⟩ := h
  have hoff : sub64 argv0 bprm.p = argv0 - bprm.p :=
    sub64_of_le h1 (h2.trans_lt (by decide))
  have hsize : sub64 taskSize argv0 = taskSize - argv0 := sub64_of_le h2 (by decide)
  simp only [Binprm.blockLog, hoff, hsize, mem_append, mem_cons, not_mem_nil,
    or_false, mem_map, Binprm.argOffs, Binprm.envOffs, mem_range, mem_range'_1]
  rintro a (((((rfl | rfl) | ⟨_, ⟨i, hi, rfl⟩, rfl⟩) | (rfl | rfl)) | ⟨_, ⟨i, hi, rfl⟩, rfl⟩) | rfl)
  all_goals simp only [Access.Ok, wordOff]
  all_goals omega

/-- The ranges of the string page, the stack and the segments. -/
def Binprm.areas (bprm : Binprm) (rs : List BinprmInfo) : List (Nat × Nat) :=
  (bprm.stringBase, bprm.stackBase) :: (bprm.stackBase, taskSize) :: rs.map BinprmInfo.range

/-- The image that the call has built. -/
structure Exec.Finished (tidy : Prop) (m₀ : Mem) (s₀ : Space) (P₀ : Nat → Nat → Option Page)
    (file : Nat → Byte) (bprm : Binprm) (rs : List BinprmInfo) (e : Exec) : Prop where
  built : Built tidy m₀ s₀ P₀ e.space
  content : Content file rs e.space
  areas : Areas (bprm.areas rs) e.space
  base : e.space.mm.mmapBase = bprm.stringBase

/-- What the whole call needs of the structures in the sender's memory. -/
structure Binprm.Fits (tidy safe : Prop) (read : Reader) (outside : Nat → Byte) (bprm : Binprm) :
    Prop where
  loads : Loads tidy safe read bprm.fileSize bprm.binprmInfo []
  short : bprm.Short
  room : tidy → ∀ r, Listed read bprm.binprmInfo r → r.vaddr + r.size ≤ bprm.stringBase
  block : safe → ∀ block, read.read bprm.mallocP bprm.len = some block →
    bprm.BlockFits (wordAt block outside 8)

theorem Chain.listed {rs : List BinprmInfo} (h : Chain read next rs) (hr : r ∈ rs) :
    Listed read next r := by
  induction h with
  | nil => cases hr
  | cons hne hread _ ih =>
    rcases mem_cons.mp hr with rfl | hr
    · exact .head hne hread
    · exact .tail hne hread (ih hr)

theorem Content.setData {w : Vma} (h : Content file done s) (hok : SpaceOk s P L)
    (hw : w ∈ s.mm.vmas) (hpriv : w.Private) (hsep : ∀ r ∈ done, r.vaddr ≠ w.vmStart)
    (hd : ∀ q, some q ∉ w.pages → d q = s.mem.data q) : Content file done (s.setData d) := by
  intro r hr
  obtain ⟨u, hu, hshow⟩ := h r hr
  refine ⟨u, hu, hshow.start, hshow.stop, hshow.priv, hshow.nr, fun i p hp => ?_⟩
  rw [← hshow.bytes i p hp]
  refine hd p fun hmem => hsep r hr ?_
  rw [← hshow.start, hok.own.eq_of_mem hu hw hshow.priv hpriv (mem_of_getElem? hp) hmem]

theorem Content.below (h : Content file done s) (hok : SpaceOk s P L)
    (hareas : Areas (bprm.areas done) s) (hshort : bprm.Short) :
    ∀ r ∈ done, r.vaddr < r.vaddr + r.size ∧ r.vaddr + r.size ≤ bprm.stringBase := by
  intro r hr
  obtain ⟨u, hu, hshow⟩ := h r hr
  have hlt := (hok.rep.sized u hu).1.lt
  have hle : u.vmEnd ≤ taskSize := (hok.rep.sized u hu).2
  rw [hshow.stop] at hlt hle
  rw [hshow.start] at hlt
  have hstring := hshort.bases.string
  have htop := hshort.bases.top
  have hsep := hareas.pairwise hok.rep
  simp only [Binprm.areas, pairwise_cons, mem_cons, mem_map] at hsep
  have h1 := hsep.1 r.range (.inr ⟨r, hr, rfl⟩)
  have h2 := hsep.2.1 r.range ⟨r, hr, rfl⟩
  simp only [Separate, BinprmInfo.range] at h1 h2
  omega

theorem moveStrings_spec (outside : Nat → Byte) (bprm : Binprm) (block : List Byte) (hpage : v.page 0 = some p) (e : Exec) :
    (moveStrings outside bprm block v e).1.length = block.length ∧
    (moveStrings outside bprm block v e).2.space = e.space.setData (copyStrings
      (bufByte block outside) p (sub64 (wordAt block outside 8) bprm.p)
      (stringsSize outside block) e.space.mem.data) ∧
    (moveStrings outside bprm block v e).2.bufs = e.bufs ∧
    (moveStrings outside bprm block v e).2.log =
      e.log ++ bprm.blockLog (wordAt block outside 8) := by
  simp [moveStrings, hpage, stringsSize, Exec.logs]

theorem finish_holds {outside : Nat → Byte} {rs : List BinprmInfo}
    (hmid : e.Mid tidy safe m₀ s₀ P₀ file (.tmpBuf :: firstBufs) rs (bprm.areas rs))
    (hbase : e.space.mm.mmapBase = bprm.stringBase) (hv : StringPage bprm e.space v p)
    (hshort : bprm.Short) (hlen : block.length = bprm.len) (hne : bprm.len ≠ 0)
    (hfits : safe → bprm.BlockFits (wordAt block outside 8)) :
    ∃ e', copyStack bprm (moveStrings outside bprm block v e).1
        (moveStrings outside bprm block v e).2 = some (.ok (), e') ∧
      e'.bufs = .tmpBuf :: firstBufs ∧ (safe → ∀ a ∈ e'.log, a.Ok) ∧
      (stringsSize outside block ≤ pageSize → e'.Finished tidy m₀ s₀ P₀ file bprm rs) := by
  obtain ⟨P, L, hok, -, hwhole, -⟩ := hmid.built
  obtain ⟨w, hw, hwstart, hwpriv, hwpages⟩ := hv.vma
  have hbelow := hmid.content.below hok hmid.areas hshort
  have hstring := hshort.bases.string
  obtain ⟨hlen', hspace, hbufs, hlog⟩ := moveStrings_spec outside bprm block hv.page e
  generalize moveStrings outside bprm block v e = r at *
  obtain ⟨block', e1⟩ := r
  simp only at hlen' hspace hbufs hlog ⊢
  obtain ⟨u, hu, hustart, d', hres, hd'⟩ := copyStack_ok (e := e1) (P := P) (L := L)
    (by rw [hspace]; exact hok.setData _) (by rw [hspace]; exact hwhole)
    (hmid.areas.same (by rw [hspace]; rfl)) (by simp [Binprm.areas]) hshort (hlen'.trans hlen) hne
  refine ⟨_, hres, hbufs.trans hmid.bufs, fun hs a ha => ?_, fun hsize => ?_⟩
  · simp only [hlog] at ha
    rcases mem_append.mp ha with ha | ha
    · exact hmid.log hs a ha
    · exact (hfits hs).blockLog hshort a ha
  · have hd : ∀ q, some q ∉ w.pages → copyStrings (bufByte block outside) p
        (sub64 (wordAt block outside 8) bprm.p) (stringsSize outside block) e.space.mem.data q =
          e.space.mem.data q := fun q hq => copyStrings_of_ne hsize fun h => hq (by
      rw [hwpages, h]; simp)
    rw [hspace] at hu hd'
    have hupriv := (hwhole u hu).priv
    refine ⟨?_, ?_, ?_, ?_⟩ <;> simp only [hspace]
    · refine (hmid.built.setData fun q hq => hd q fun hmem => hq ?_).setData fun q hq =>
        hd' q fun hmem => hq ?_
      · exact mem_ownPages.mpr ⟨w, hw, hwpriv, hmem⟩
      · exact mem_ownPages.mpr ⟨u, hu, hupriv, hmem⟩
    · refine (hmid.content.setData hok hw hwpriv (fun r hr => ?_) hd).setData (hok.setData _) hu
        hupriv (fun r hr => ?_) hd'
      · have := hbelow r hr
        omega
      · have := hbelow r hr
        omega
    · exact hmid.areas.same rfl
    · exact hbase

theorem buildImage_holds (b : Board) {outside : Nat → Byte} (xs : List Byte) (e : Exec)
    (hfits : bprm.Fits tidy safe read outside) (hb : Built tidy m₀ s₀ P₀ e.space)
    (hareas : Areas [] e.space) (hbufs : e.bufs = firstBufs) (hlog : e.log = [])
    (hargs : e.args = none) : (buildImage b outside read bprm xs e).Holds
      (fun _ e' => ∃ rs block, Chain read bprm.binprmInfo rs ∧
        read.read bprm.mallocP bprm.len = some block ∧ e'.bufs = .tmpBuf :: firstBufs ∧
        (safe → ∀ a ∈ e'.log, a.Ok) ∧ (stringsSize outside block ≤ pageSize →
          e'.Finished tidy m₀ s₀ P₀ (bufByte xs outside) bprm rs.reverse))
      (Exec.Left tidy safe m₀ s₀ P₀) := by
  have hshort := hfits.short
  have hmid : e.Mid tidy safe m₀ s₀ P₀ (bufByte xs outside) firstBufs [] [] :=
    ⟨hb, nofun, hareas, hbufs, by simp [hlog], hargs⟩
  refine ((loadSegments_holds hmid hfits.loads (Nat.le_add_left _ _)).imp
    fun _ e ⟨rs, hchain, hmid⟩ => ?_).andThen
  rw [append_nil, append_nil] at hmid
  have hroom : tidy → ∀ a ∈ rs.reverse.map BinprmInfo.range, a.2 ≤ bprm.stringBase :=
    fun ht a ha => by
      obtain ⟨r, hr, rfl⟩ := mem_map.mp ha
      exact hfits.room ht r (hchain.listed (mem_reverse.mp hr))
  have hstring := hshort.bases.string
  have hle : bprm.stringBase ≤ bprm.stackBase := Nat.le.intro hstring
  refine ((mapStack_holds hmid hshort fun ht a ha => (hroom ht a ha).trans hle).imp
    fun _ e2 ⟨hmid2, hbase⟩ => ?_).andThen
  refine ((readBlock_holds hmid2).imp fun block e3 ⟨hread, _, hmid3, hmm⟩ => ?_).andThen
  refine ((mapStrings_holds hmid3 hshort (by rw [hmm, hbase]) fun ht a ha => ?_).imp
    fun v e4 ⟨hmid4, hbase4, p, hv⟩ => ?_).andThen
  · rcases mem_cons.mp ha with rfl | ha
    · exact .inr le_rfl
    · exact .inl (hroom ht a ha)
  obtain ⟨hlen, hne⟩ := read.length hread
  obtain ⟨e', hres, hbufs', hlog', hfin⟩ := finish_holds hmid4 hbase4 hv hshort hlen hne
    fun hs => hfits.block hs block hread
  rw [hres]
  exact .ok ⟨rs, block, hchain, hread, hbufs', hlog', hfin⟩

end Parts

end MinixRt.System
