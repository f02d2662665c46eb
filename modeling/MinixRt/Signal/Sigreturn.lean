import MinixRt.Signal.Frame
import Mathlib.Data.List.TakeWhile

/-!
# Delivery followed by `rt_sigreturn`

`setup_rt_frame` writes fields that do not overlap, so each of them is read back
(`Written.get`). From this `rt_sigreturn` on an unmodified frame finds the interrupted
general registers, and the floating-point record that it looks for
(`rtSigreturn_eq`). It leaves the floating-point registers of the CPU as the handler left
them.
-/

namespace MinixRt.Signal

open List Lib
open MinixRt.System (noSyscall)
open MinixRt.Mm (sub64)

/-! ## What is written -/

theorem putAll_shift (m : Store) (base d : Nat) (fs : List Field) :
    putAll m (base + d) fs = putAll m base (fs.map (shiftField d)) := by
  induction fs generalizing m with
  | nil => rfl
  | cons f fs ih =>
    rw [map_cons, putAll, putAll, ih, shiftField, Nat.add_assoc]

/-- When `st'` has no error, then it is `st` with the fields written and nothing faulted. -/
def Wrote (st st' : Access) (base : Nat) (fs : List Field) : Prop :=
  st'.err = false → st.err = false ∧ st'.mem.byte = putAll st.mem.byte base fs ∧
    st'.mem.accessible = st.mem.accessible ∧
    ∀ f ∈ fs, st.mem.Accessible (base + f.off) f.size

namespace Wrote

variable {st st₁ st₂ : Access} {base d : Nat} {fs gs : List Field}

theorem refl : Wrote st st base [] := by
  intro h
  exact ⟨h, rfl, rfl, by simp⟩

theorem trans (h1 : Wrote st st₁ base fs) (h2 : Wrote st₁ st₂ base gs) :
    Wrote st st₂ base (fs ++ gs) := by
  intro h
  obtain ⟨herr, hbyte, hacc, hall⟩ := h2 h
  obtain ⟨herr', hbyte', hacc', hall'⟩ := h1 herr
  refine ⟨herr', ?_, hacc.trans hacc', ?_⟩
  · rw [hbyte, hbyte', putAll_append]
  · intro f hf
    rcases mem_append.mp hf with hf | hf
    · exact hall' f hf
    · have := hall f hf
      rwa [UserMem.Accessible, hacc'] at this

theorem shift (h : Wrote st st₁ (base + d) fs) : Wrote st st₁ base (fs.map (shiftField d)) := by
  intro herr
  obtain ⟨herr', hbyte, hacc, hall⟩ := h herr
  refine ⟨herr', hbyte.trans (putAll_shift ..), hacc, ?_⟩
  intro f hf
  obtain ⟨g, hg, rfl⟩ := mem_map.mp hf
  have := hall g hg
  rwa [Nat.add_assoc] at this

theorem unlessErr {f : Access → Access} (h : st.err = false → Wrote st (f st) base fs) :
    Wrote st (st.unlessErr f) base fs := by
  intro herr
  rw [Access.unlessErr] at herr ⊢
  split at herr
  · rename_i hst
    rw [hst] at herr
    cases herr
  · rename_i hst
    rw [if_neg hst]
    exact h (by simpa using hst) herr

theorem put (st : Access) (base : Nat) (f : Field) :
    Wrote st (st.put (base + f.off) f.size f.val) base [f] := by
  intro herr
  rw [Access.put] at herr ⊢
  split at herr
  · rename_i hok
    rw [if_pos hok]
    refine ⟨herr, rfl, rfl, ?_⟩
    intro g hg
    rw [mem_singleton.mp hg]
    exact hok.2
  · cases herr

theorem putFields (st : Access) (base : Nat) (fs : List Field) :
    Wrote st (st.putFields base fs) base fs := by
  induction fs generalizing st with
  | nil => exact refl
  | cons f fs ih => exact (put st base f).trans (ih _)

theorem copyTo (base : Nat) (f : Field) (hst : st.err = false) (hlimit : base + f.off ≤ addrLimit) :
    Wrote st (st.copyTo (base + f.off) f.size f.val) base [f] := by
  intro herr
  have hdone : ¬ ((range f.size).takeWhile fun i =>
      st.mem.accessible (base + f.off + i)).length < f.size := by
    simpa [Access.copyTo, maskPtr, hlimit] using herr
  have hall : (range f.size).takeWhile (fun i => st.mem.accessible (base + f.off + i)) =
      range f.size := by
    refine ( takeWhile_prefix _).eq_of_length_le ?_
    rw [length_range]
    omega
  refine ⟨hst, ?_, rfl, ?_⟩
  · simp only [Access.copyTo, maskPtr, if_pos hlimit, hall, length_range]
    rfl
  · intro g hg i hi
    rw [mem_singleton.mp hg] at hi ⊢
    have hmem : i ∈ (range f.size).takeWhile fun i =>
        st.mem.accessible (base + f.off + i) := by
      rw [hall]
      exact mem_range.mpr hi
    exact mem_takeWhile_imp (p := fun i => st.mem.accessible (base + f.off + i)) hmem

end Wrote

/-! ## The frame -/

theorem setupSigframeLayout_eq (faultCode : BitVec 64) :
    setupSigframeLayout initUserLayout faultCode = some
      (if faultCode ≠ 0 then ⟨0, 0, 1152, 1152, 592, 1120, 0, 1136⟩
        else ⟨0, 0, 1136, 1136, 592, 0, 0, 1120⟩) := by
  by_cases hfault : faultCode = 0#64
  · subst hfault
    decide +kernel
  · have hsame : setupSigframeLayout initUserLayout faultCode =
        setupSigframeLayout initUserLayout 1 := by
      simp [setupSigframeLayout, hfault]
    rw [hsame, if_pos (show faultCode ≠ 0 from hfault)]
    decide +kernel

variable {user : UserLayout} {c : Context}

theorem getSigframe_spec (h : getSigframe c = some user) :
    user.sigframe % 16 = 0 ∧ user.nextFrame = user.sigframe + rtSigframeSize ∧
      user.sigframe + rtSigframeSize + 16 ≤ addrLimit + 1 ∧ user.fpsimdOffset = 592 ∧
      user.extraOffset = 0 ∧ (user.esrOffset = 0 ∧ user.endOffset = 1120 ∨
        user.esrOffset = 1120 ∧ user.endOffset = 1136) := by
  have hsp : c.regs.sp.toNat < 2 ^ 64 := c.regs.sp.isLt
  rw [getSigframe, setupSigframeLayout_eq, Option.bind_some] at h
  obtain ⟨hok, heq⟩ := Option.ite_none_right_eq_some.mp h
  cases heq
  dsimp only
  have hsize : (if c.faultCode ≠ 0 then (⟨0, 0, 1152, 1152, 592, 1120, 0, 1136⟩ : UserLayout)
      else ⟨0, 0, 1136, 1136, 592, 0, 0, 1120⟩).sigframeSize = 4688 := by
    split <;> rfl
  simp only [hsize, accessOk, sub64, Mm.u64, roundDown, addrLimit, rtSigframeSize] at hok ⊢
  refine ⟨by omega, by omega, by omega, ?_⟩
  split
  · exact ⟨rfl, rfl, .inr ⟨rfl, rfl⟩⟩
  · exact ⟨rfl, rfl, .inl ⟨rfl, rfl⟩⟩

/-- What `setup_sigframe` stores, by offset from the frame. -/
def fpsimdFields (f : FpsimdState) : List Field :=
  [⟨16, 512, f.packed⟩, ⟨8, 4, f.fpsr.toNat⟩, ⟨12, 4, f.fpcr.toNat⟩, ⟨0, 4, fpsimdMagic⟩,
    ⟨4, 4, fpsimdContextSize⟩].map (shiftField 592)

def esrFields (c : Context) (user : UserLayout) : List Field :=
  if user.esrOffset ≠ 0 then
    [⟨0, 4, esrMagic⟩, ⟨4, 4, esrContextSize⟩, ⟨8, 8, c.faultCode.toNat⟩].map
      (shiftField user.esrOffset)
  else []

def endFields (user : UserLayout) : List Field :=
  [⟨0, 4, 0⟩, ⟨4, 4, 0⟩].map (shiftField user.endOffset)

def sigframeFields (c : Context) (user : UserLayout) : List Field :=
  nextFrameFields c ++ (mcontextFields c ++ (fpsimdFields c.saved ++
    (esrFields c user ++ endFields user)))

theorem wrote_preserveFpsimdContext {v : FpsimdState} {sf : Nat} {st : Access}
    (hst : st.err = false) (hlimit : sf + 592 + 16 ≤ addrLimit) :
    Wrote st (preserveFpsimdContext v (sf + 592) st) sf (fpsimdFields v) := by
  have hcopy := Wrote.copyTo (sf + 592) ⟨16, 512, v.packed⟩ hst hlimit
  exact (hcopy.trans (Wrote.putFields _ (sf + 592) _)).shift

theorem wrote_putEsr (c : Context) (user : UserLayout) (st : Access) :
    Wrote st (putEsr c user st) user.sigframe (esrFields c user) := by
  rw [putEsr, esrFields]
  split
  · exact (Wrote.putFields st (user.sigframe + user.esrOffset) _).shift
  · exact Wrote.refl

theorem wrote_putExtra (h : user.extraOffset = 0) (st : Access) :
    Wrote st (putExtra user st) user.sigframe [] := by
  rw [putExtra, if_neg (not_not.mpr h)]
  exact Wrote.refl

theorem wrote_putEnd (user : UserLayout) (st : Access) :
    Wrote st (putEnd user st) user.sigframe (endFields user) :=
  (Wrote.putFields st (user.sigframe + user.endOffset) _).shift

theorem wrote_setupSigframe (h : getSigframe c = some user) (st : Access) :
    Wrote st (setupSigframe c user st) user.sigframe (sigframeFields c user) := by
  obtain ⟨-, hnext, hlimit, hfp, hextra, hesr⟩ := getSigframe_spec h
  have hlimit' : user.sigframe + 592 + 16 ≤ addrLimit := by
    unfold rtSigframeSize at hlimit
    omega
  rw [setupSigframe, hnext, hfp, sigframeFields, ← nil_append (endFields user)]
  exact Wrote.trans (Wrote.putFields st (user.sigframe + rtSigframeSize) _).shift
    ((Wrote.putFields _ user.sigframe (mcontextFields c)).trans
      (Wrote.trans (Wrote.unlessErr fun herr => wrote_preserveFpsimdContext herr hlimit')
        (Wrote.trans (Wrote.unlessErr fun _ => wrote_putEsr c user _)
          (Wrote.trans (Wrote.unlessErr fun _ => wrote_putExtra hextra _)
            (Wrote.unlessErr fun _ => wrote_putEnd user _)))))

/-- What `setup_rt_frame` stores: also `uc_flags` and `uc_link`. -/
def frameFields (c : Context) (user : UserLayout) : List Field :=
  [⟨0, 8, 0⟩, ⟨8, 8, 0⟩].map (shiftField ucOffset) ++ sigframeFields c user

/-- The shapes of the fields, with the records of the two layouts. -/
def frameShapes (esr : Bool) : List (Nat × Nat) :=
  [(128, 8), (136, 8), (4688, 8), (4696, 8)] ++
    ((finRange 31).map (fun i => (312 + 8 * i.val, 8)) ++
      [(560, 8), (568, 8), (576, 8), (304, 8), (608, 512), (600, 4), (604, 4), (592, 4),
        (596, 4)]) ++
    if esr then [(1120, 4), (1124, 4), (1128, 8), (1136, 4), (1140, 4)]
    else [(1120, 4), (1124, 4)]

theorem frameFields_apart (h : user.esrOffset = 0 ∧ user.endOffset = 1120 ∨
      user.esrOffset = 1120 ∧ user.endOffset = 1136) :
    (frameFields c user).Pairwise Field.Apart := by
  have hshape : ∃ esr, (frameFields c user).map Field.shape = frameShapes esr := by
    rcases h with ⟨hesr, hend⟩ | ⟨hesr, hend⟩
    · refine ⟨false, ?_⟩
      simp only [frameFields, sigframeFields, esrFields, endFields, hesr, hend]
      rfl
    · refine ⟨true, ?_⟩
      simp only [frameFields, sigframeFields, esrFields, endFields, hesr, hend]
      rfl
  obtain ⟨esr, hshape⟩ := hshape
  refine Field.apart_of_shape ?_
  rw [hshape]
  clear hshape
  revert esr
  decide +kernel

/-- The frame as `setup_rt_frame` leaves it. -/
structure Written (c : Context) (m : UserMem) (sf : Nat) (user : UserLayout) : Prop where
  aligned : sf % 16 = 0
  below : sf + rtSigframeSize ≤ addrLimit + 1
  records : user.esrOffset = 0 ∧ user.endOffset = 1120 ∨
    user.esrOffset = 1120 ∧ user.endOffset = 1136
  read : ∀ f ∈ frameFields c user, f.off + f.size ≤ rtSigframeSize → f.val < 256 ^ f.size →
    getLE m.byte (sf + f.off) f.size = f.val
  accessible : ∀ f ∈ frameFields c user, f.off + f.size ≤ rtSigframeSize →
    m.Accessible (sf + f.off) f.size

theorem wrote_of_err {st st' : Access} {base : Nat} {fs : List Field} (h : st.err = false)
    (hw : Wrote { st with err := false } st' base fs) : Wrote st st' base fs := by
  intro herr
  obtain ⟨-, hrest⟩ := hw herr
  exact ⟨h, hrest⟩

theorem written_setupRtFrame {x : NotifierStruct} {c c1 : Context} {usig : NotifierId} {sf : Nat}
    (h : setupRtFrame x c usig = some (sf, c1)) :
    ∃ user, Written c c1.mem sf user ∧ c1.regs.sp = BitVec.ofNat 64 sf ∧
      c1.fpsimd = c.fpsimd ∧ c1.singlestep = c.singlestep := by
  obtain ⟨user, huser, hframe⟩ := Option.bind_eq_some_iff.mp h
  dsimp only at hframe
  split at hframe
  · cases hframe
  · rename_i herr
    rw [not_or, Bool.not_eq_true, Bool.not_eq_true] at herr
    cases hframe
    obtain ⟨haligned, -, hlimit, -, -, hrecords⟩ := getSigframe_spec huser
    refine ⟨user, ?_, rfl, rfl, rfl⟩
    have huc : Wrote ⟨c.mem, false⟩ _ user.sigframe _ := Wrote.shift (d := ucOffset)
      (Wrote.putFields ⟨c.mem, false⟩ (user.sigframe + ucOffset) [⟨0, 8, 0⟩, ⟨8, 8, 0⟩])
    have hsetup : ∀ st : Access, st.err = false → Wrote st
        (setupSigframe c user { st with err := false }) user.sigframe (sigframeFields c user) :=
      fun st hst => wrote_of_err hst (wrote_setupSigframe huser _)
    have hwrote := huc.trans (hsetup _ herr.1)
    obtain ⟨-, hbyte, hacc, hall⟩ := hwrote herr.2
    refine ⟨haligned, by omega, hrecords, ?_, ?_⟩
    · intro f hf _ hval
      rw [hbyte]
      exact getLE_putAll (frameFields_apart hrecords) hf hval
    · intro f hf _
      rw [UserMem.Accessible, hacc]
      exact hall f hf

namespace Written

variable {c : Context} {m : UserMem} {sf : Nat} {user : UserLayout}

theorem parseLoop_next {fuel base off limit base' off' limit' : Nat} {u u' : UserCtxs}
    {extra extra' : Bool}
    (h : parseRecord m sf u base off limit extra = .next u' base' off' limit' extra') :
    parseLoop m sf (fuel + 1) u base off limit extra =
      parseLoop m sf fuel u' base' off' limit' extra' := by
  rw [parseLoop, h]

theorem parseLoop_done {fuel base off limit : Nat} {u : UserCtxs} {extra : Bool}
    (h : parseRecord m sf u base off limit extra = .done) :
    parseLoop m sf (fuel + 1) u base off limit extra = some (some u) := by
  rw [parseLoop, h]

variable (h : Written c m sf user)
include h

theorem congr {m' : UserMem} (hsame : ∀ a, sf ≤ a → a < sf + rtSigframeSize →
      m'.byte a = m.byte a ∧ m'.accessible a = m.accessible a) : Written c m' sf user := by
  refine ⟨h.aligned, h.below, h.records, ?_, ?_⟩
  · intro f hf hin hval
    rw [← h.read f hf hin hval]
    exact getLE_congr fun a ha ha' => (hsame a (by omega) (by omega)).1
  · intro f hf hin i hi
    rw [(hsame (sf + f.off + i) (by omega) (by omega)).2]
    exact h.accessible f hf hin i hi

theorem get {f : Field} (hf : f ∈ frameFields c user) (hin : f.off + f.size ≤ rtSigframeSize)
    (hval : f.val < 256 ^ f.size) : m.get (sf + f.off) f.size = (f.val, false) := by
  have hbelow := h.below
  rw [UserMem.get, if_pos ⟨by unfold accessOk; omega, h.accessible f hf hin⟩,
    h.read f hf hin hval]

theorem get_mcontext {off : Nat} {v : BitVec 64} (hf : ⟨off, 8, v.toNat⟩ ∈ mcontextFields c)
    (hin : off + 8 ≤ rtSigframeSize) : m.get (sf + off) 8 = (v.toNat, false) := by
  have hmem : (⟨off, 8, v.toNat⟩ : Field) ∈ frameFields c user := by
    simp only [frameFields, sigframeFields, mem_append]
    exact .inr (.inr (.inl hf))
  exact h.get hmem hin (by simpa using v.isLt)

theorem readRegs : readRegs m sf = (c.regs, false) := by
  have hreg : ∀ i : Fin 31, m.get (sf + regsOffset i) 8 = ((c.regs.regs i).toNat, false) := by
    intro i
    refine h.get_mcontext ?_ ?_
    · exact mem_append_left _ (mem_map.mpr ⟨i, mem_finRange i, rfl⟩)
    · have := i.isLt
      simp only [regsOffset, mcontextOffset, ucOffset, rtSigframeSize]
      omega
  have hsp : m.get (sf + spOffset) 8 = (c.regs.sp.toNat, false) :=
    h.get_mcontext (by simp [mcontextFields]) (by decide)
  have hpc : m.get (sf + pcOffset) 8 = (c.regs.pc.toNat, false) :=
    h.get_mcontext (by simp [mcontextFields]) (by decide)
  have hpstate : m.get (sf + pstateOffset) 8 = (c.regs.pstate.toNat, false) :=
    h.get_mcontext (by simp [mcontextFields]) (by decide)
  simp [Signal.readRegs, hreg, hsp, hpc, hpstate]

theorem head {off magic size : Nat} (hf : ⟨off, 4, magic⟩ ∈ frameFields c user)
    (hf' : ⟨off + 4, 4, size⟩ ∈ frameFields c user) (hin : off + 8 ≤ rtSigframeSize)
    (hmagic : magic < 256 ^ 4) (hsize : size < 256 ^ 4) :
    m.get (sf + off) 4 = (magic, false) ∧ m.get (sf + off + 4) 4 = (size, false) := by
  refine ⟨h.get hf ?_ hmagic, ?_⟩
  · exact Nat.le_trans (by simp) hin
  · have := h.get hf' (by simpa [Nat.add_assoc] using hin) hsize
    rwa [← Nat.add_assoc] at this

theorem fpsimd_head :
    m.get (sf + 592) 4 = (fpsimdMagic, false) ∧ m.get (sf + 592 + 4) 4 = (fpsimdContextSize, false) := by
  refine h.head ?_ ?_ (by decide) (by decide) (by decide)
  all_goals simp [frameFields, sigframeFields, fpsimdFields, shiftField]

theorem esr_head (hesr : user.esrOffset = 1120) :
    m.get (sf + 1120) 4 = (esrMagic, false) ∧ m.get (sf + 1120 + 4) 4 = (esrContextSize, false) := by
  refine h.head ?_ ?_ (by decide) (by decide) (by decide)
  all_goals simp [frameFields, sigframeFields, esrFields, shiftField, hesr]

theorem end_head :
    m.get (sf + user.endOffset) 4 = (0, false) ∧ m.get (sf + user.endOffset + 4) 4 = (0, false) := by
  refine h.head ?_ ?_ ?_ (by decide) (by decide)
  · simp [frameFields, sigframeFields, endFields, shiftField]
  · simp [frameFields, sigframeFields, endFields, shiftField]
  · rcases h.records with ⟨-, hend⟩ | ⟨-, hend⟩
    all_goals
      rw [hend]
      decide

theorem parse_fpsimd : parseRecord m sf ⟨none⟩ (sf + 592) 0 4096 false =
      .next ⟨some (sf + 592)⟩ (sf + 592) 528 4096 false := by
  obtain ⟨hmagic, hsize⟩ := h.fpsimd_head
  unfold parseRecord
  simp only [Nat.add_zero, hmagic, hsize]
  rfl

theorem parse_esr (hesr : user.esrOffset = 1120) (u : UserCtxs) :
    parseRecord m sf u (sf + 592) 528 4096 false = .next u (sf + 592) 544 4096 false := by
  obtain ⟨hmagic, hsize⟩ := h.esr_head hesr
  unfold parseRecord
  simp only [show sf + 592 + 528 = sf + 1120 from rfl, hmagic, hsize]
  rfl

theorem parse_end (u : UserCtxs) (off : Nat) (hoff : user.endOffset = 592 + off)
    (hoff' : off = 528 ∨ off = 544) : parseRecord m sf u (sf + 592) off 4096 false = .done := by
  obtain ⟨hmagic, hsize⟩ := h.end_head
  rw [hoff, ← Nat.add_assoc] at hmagic hsize
  unfold parseRecord
  rcases hoff' with rfl | rfl
  all_goals
    simp only [hmagic, hsize]
    rfl

theorem parseUserSigframe {fuel : Nat} (hfuel : 3 ≤ fuel) :
    parseUserSigframe fuel m sf = some (some ⟨some (sf + 592)⟩) := by
  obtain ⟨fuel, rfl⟩ : ∃ k, fuel = k + 3 := ⟨fuel - 3, by omega⟩
  have haligned := h.aligned
  have hoff : reservedOffset = 592 := rfl
  have hbase : ¬ (sf + reservedOffset) % 16 ≠ 0 := by
    rw [hoff]
    omega
  have hsize : reservedSize = 4096 := rfl
  rw [Signal.parseUserSigframe, if_neg hbase, hoff, hsize]
  refine (parseLoop_next h.parse_fpsimd).trans ?_
  rcases h.records with ⟨hesr, hend⟩ | ⟨hesr, hend⟩
  · exact parseLoop_done (h.parse_end _ 528 (by omega) (.inl rfl))
  · refine (parseLoop_next (h.parse_esr hesr _)).trans ?_
    exact parseLoop_done (h.parse_end _ 544 (by omega) (.inr rfl))

theorem restoreFpsimdContext : restoreFpsimdContext m (sf + 592) = true := by
  obtain ⟨hmagic, hsize⟩ := h.fpsimd_head
  have hbelow := h.below
  have hlimit : sf + 592 + 16 ≤ addrLimit := by
    unfold rtSigframeSize at hbelow
    omega
  have hvregs : m.Accessible (maskPtr (sf + 592 + 16)) 512 := by
    have := h.accessible ⟨608, 512, c.saved.packed⟩
      (by simp [frameFields, sigframeFields, fpsimdFields, shiftField]) (by simp [rtSigframeSize])
    rw [maskPtr, if_pos hlimit]
    exact this
  have hfpsr : m.get (sf + 592 + 8) 4 = (c.saved.fpsr.toNat, false) :=
    h.get (f := ⟨600, 4, c.saved.fpsr.toNat⟩)
      (by simp [frameFields, sigframeFields, fpsimdFields, shiftField]) (by simp [rtSigframeSize])
      (by simpa using c.saved.fpsr.isLt)
  have hfpcr : m.get (sf + 592 + 12) 4 = (c.saved.fpcr.toNat, false) :=
    h.get (f := ⟨604, 4, c.saved.fpcr.toNat⟩)
      (by simp [frameFields, sigframeFields, fpsimdFields, shiftField]) (by simp [rtSigframeSize])
      (by simpa using c.saved.fpcr.isLt)
  simp [Signal.restoreFpsimdContext, hmagic, hsize, hvregs, hfpsr, hfpcr]

end Written

/-! ## Returning -/

/-- `rt_sigreturn` on an unmodified frame: the general registers of the frame, and the
floating-point registers as they are. -/
theorem rtSigreturn_eq {c c2 : Context} {sf fuel : Nat} (h : Written c c2.mem sf user)
    (hsp : c2.regs.sp = BitVec.ofNat 64 sf) (hfuel : 3 ≤ fuel) :
    rtSigreturn fuel c2 = some (if (validUserRegs c2.singlestep c.regs.pstate).1 then some { c2 with
        regs := { c.regs with pstate := (validUserRegs c2.singlestep c.regs.pstate).2 }
        syscallno := noSyscall }
      else none) := by
  have haligned := h.aligned
  have hbelow := h.below
  have hframe : c2.regs.sp.toNat = sf := by
    rw [hsp, BitVec.toNat_ofNat, Nat.mod_eq_of_lt]
    unfold addrLimit at hbelow
    omega
  have hok : ¬ (sf % 16 ≠ 0 ∨ ¬ accessOk sf rtSigframeSize) := by
    rw [not_or, not_not, not_not]
    exact ⟨haligned, hbelow⟩
  rw [rtSigreturn, hframe]
  dsimp only
  rw [if_neg hok, restoreSigframe, h.readRegs]
  dsimp only
  cases hvalid : (validUserRegs c2.singlestep c.regs.pstate).1
  · simp
  · simp [h.parseUserSigframe hfuel, h.restoreFpsimdContext]

/-- The interrupted context is back after `rt_sigreturn`. -/
def Restored (fuel : Nat) (c c₂ : Context) : Prop :=
  ∃ c₃, rtSigreturn fuel c₂ = some (some c₃) ∧ c₃.regs = c.regs ∧ c₃.fpsimd = c.fpsimd

/-- For every interrupted context whose frame `setup_rt_frame` could write and whose `pstate`
`valid_user_regs` accepts, and for every handler that leaves the frame alone: `rt_sigreturn`
restores the context exactly when the handler has left the floating-point registers as they
were and `valid_user_regs` clears no bit of `pstate`. The general registers, `sp` and `pc`
are restored in any case. -/
theorem sigreturn_restores_iff {x : NotifierStruct} {c c₁ c₂ : Context} {usig : NotifierId}
    {sf fuel : Nat} (hset : setupRtFrame x c usig = some (sf, c₁))
    (hvalid : (validUserRegs c.singlestep c.regs.pstate).1 = true)
    (hsp : c₂.regs.sp = c₁.regs.sp) (hstep : c₂.singlestep = c₁.singlestep)
    (hframe : ∀ a, sf ≤ a → a < sf + rtSigframeSize →
      c₂.mem.byte a = c₁.mem.byte a ∧ c₂.mem.accessible a = c₁.mem.accessible a)
    (hfuel : 3 ≤ fuel) :
    (Restored fuel c c₂ ↔ c₂.fpsimd = c.fpsimd ∧
      (validUserRegs c.singlestep c.regs.pstate).2 = c.regs.pstate) ∧
    ∃ c₃, rtSigreturn fuel c₂ = some (some c₃) ∧ c₃.regs.regs = c.regs.regs ∧
      c₃.regs.sp = c.regs.sp ∧ c₃.regs.pc = c.regs.pc ∧ c₃.fpsimd = c₂.fpsimd := by
  obtain ⟨user, hwritten, hsp1, -, hstep1⟩ := written_setupRtFrame hset
  have hreturn := rtSigreturn_eq (hwritten.congr hframe) (hsp.trans hsp1) hfuel
  rw [hstep, hstep1, hvalid, if_pos rfl] at hreturn
  refine ⟨?_, _, hreturn, rfl, rfl, rfl, rfl⟩
  constructor
  · rintro ⟨c₃, hc3, hregs, hfp⟩
    rw [hreturn, Option.some.injEq, Option.some.injEq] at hc3
    subst hc3
    exact ⟨hfp, congrArg UserRegs.pstate hregs⟩
  · rintro ⟨hfp, hpstate⟩
    refine ⟨_, hreturn, ?_, hfp⟩
    rw [hpstate]

/-- A context with user memory at every address and all registers of the FPU zero. -/
def interrupted : Context :=
  { regs := { regs := fun i => BitVec.ofNat 64 i, sp := 0x10008, pc := 0x4000, pstate := 0x1000 }
    syscallno := noSyscall, fpsimd := ⟨fun _ => 0, 0, 0⟩, mem := ⟨fun _ => 0, fun _ => true⟩
    saved := ⟨fun _ => 0, 0, 0⟩, faultAddress := 0, faultCode := 0, singlestep := false }

theorem interrupted_frame : ∃ r, setupRtFrame .zero interrupted 5 = some r :=
  Option.isSome_iff_exists.mp (by decide +kernel)

/-- A handler that changes nothing. -/
theorem sigreturn_restores_iff_sample :
    ∃ sf c₁, setupRtFrame .zero interrupted 5 = some (sf, c₁) ∧ Restored 3 interrupted c₁ := by
  obtain ⟨⟨sf, c₁⟩, hset⟩ := interrupted_frame
  obtain ⟨-, -, -, hfp, -⟩ := written_setupRtFrame hset
  exact ⟨sf, c₁, hset, (sigreturn_restores_iff hset (by decide) rfl rfl
    (fun _ _ _ => ⟨rfl, rfl⟩) (Nat.le_refl 3)).1.mpr ⟨hfp, by decide⟩⟩

/-- `rt_sigreturn` does not write the floating-point registers, whatever the frame holds. -/
theorem rtSigreturn_fpsimd {c c' : Context} {fuel : Nat} (h : rtSigreturn fuel c = some (some c')) :
    c'.fpsimd = c.fpsimd := by
  rw [rtSigreturn] at h
  split at h
  · cases h
  · obtain ⟨⟨ok, c1⟩, hrestore, hc'⟩ := Option.map_eq_some_iff.mp h
    dsimp only at hc'
    split at hc'
    · cases hc'
      rw [restoreSigframe] at hrestore
      dsimp only at hrestore
      split at hrestore
      · cases hrestore
        rfl
      · obtain ⟨user, -, hparse⟩ := Option.map_eq_some_iff.mp hrestore
        cases user with
        | none =>
          cases hparse
          rfl
        | some =>
          dsimp only at hparse
          split at hparse
          all_goals
            cases hparse
            rfl
    · cases hc'

/-- A handler that writes `fpcr` and leaves the frame alone: the old value is not restored. -/
theorem sigreturn_loses_fpcr :
    ∃ sf c₁ c₂, setupRtFrame .zero interrupted 5 = some (sf, c₁) ∧
      c₂ = { c₁ with fpsimd := { c₁.fpsimd with fpcr := 1 } } ∧
      ∀ fuel, ¬ Restored fuel interrupted c₂ := by
  obtain ⟨⟨sf, c₁⟩, hset⟩ := interrupted_frame
  refine ⟨sf, c₁, _, hset, rfl, ?_⟩
  rintro fuel ⟨c3, hc3, -, hfp⟩
  rw [rtSigreturn_fpsimd hc3] at hfp
  have := congrArg FpsimdState.fpcr hfp
  simp [interrupted] at this

end MinixRt.Signal
