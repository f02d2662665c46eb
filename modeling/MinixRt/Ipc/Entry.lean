import MinixRt.Ipc.Step

/-!
# The endpoint argument

The calls of `core/ipc.c` compare the endpoint they are passed with `ENDPOINT_END` and take it as
an index into `ipc_ep_info`. `endpoint_t` is an `int` and the comparison is `>`, so `ENDPOINT_END`
itself and every negative number pass.
-/

namespace MinixRt.Ipc

def einval : Int := 22

def endpointEnd : Int := 4

/-- `ipc_ep_info`, in the order of its designated initialisers. -/
def ipcEpInfo : List Endpoint := [.system, .i2c, .pm, .vfs]

/-- The entry `ipc_ep_info[i]`, if there is one. -/
def epInfo (i : Int) : Option Endpoint := if 0 ≤ i then ipcEpInfo[i.toNat]? else none

/-- The beginning of a call: it returns an error, or it goes on with an entry. `none` is an entry
outside of the table. -/
def checked (make : Endpoint → Message → Call) (endpoint : Int) :
    Option Message → Except Int (Option Call)
  | none => .error (-einval)
  | some m => if endpointEnd < endpoint then .error (-einval)
      else .ok ((epInfo endpoint).map (make · m))

def ipcSendCall : Int → Option Message → Except Int (Option Call) := checked .send

def ipcReceiveCall : Int → Option Message → Except Int (Option Call) :=
  checked fun e _ => .receive e

def ipcReplyCall : Int → Option Message → Except Int (Option Call) := checked .reply

def ipcNotifyCall (dest : Int) : Option Message → Except Int (Option Call)
  | none => .error (-einval)
  | some m => ipcSendCall dest (some { m with mType := m.mType ||| typeNotifier })

/-- The call returns `-EINVAL`, or the entry it goes on with is one of the four. -/
def Validated (endpoint : Int) (r : Except Int (Option Call)) : Prop :=
  r = .error (-einval) ∨ (0 ≤ endpoint ∧ endpoint < 4) ∧ ∃ c, r = .ok (some c)

theorem epInfo_isSome_iff (i : Int) : (epInfo i).isSome ↔ 0 ≤ i ∧ i < 4 := by
  unfold epInfo
  split_ifs with h
  · rw [isSome_getElem?]
    simp only [ipcEpInfo, List.length_cons, List.length_nil]
    omega
  · simp [h]

theorem validated_checked (make : Endpoint → Message → Call) (endpoint : Int) (m : Message) :
    Validated endpoint (checked make endpoint (some m)) ↔ 0 ≤ endpoint ∧ endpoint ≠ 4 := by
  have hentry := epInfo_isSome_iff endpoint
  unfold Validated checked endpointEnd
  dsimp only
  split_ifs with h
  · exact iff_of_true (.inl rfl) (by omega)
  · cases he : epInfo endpoint with
    | none =>
      rw [he] at hentry
      refine iff_of_false ?_ fun hin => by simpa using hentry.mpr (by omega)
      rintro (⟨⟨⟩⟩ | ⟨-, c, ⟨⟩⟩)
    | some =>
      rw [he] at hentry
      have hin := hentry.mp rfl
      exact iff_of_true (.inr ⟨hin, _, rfl⟩) (by omega)

/-- Each of the four calls validates its endpoint exactly when the message pointer is `NULL`, or
the endpoint is not negative and not `ENDPOINT_END`. -/
theorem endpoint_validated_iff (endpoint : Int) (m : Option Message) :
    ∀ call ∈ [ipcSendCall, ipcReceiveCall, ipcReplyCall, ipcNotifyCall],
      Validated endpoint (call endpoint m) ↔ m = none ∨ 0 ≤ endpoint ∧ endpoint ≠ 4 := by
  cases m with
  | none =>
    have herror : Validated endpoint (.error (-einval)) := .inl rfl
    simpa only [List.forall_mem_cons, true_or, iff_true] using
      ⟨herror, herror, herror, herror, nofun⟩
  | some m =>
    have hsome := fun make => validated_checked make endpoint m
    simp only [List.forall_mem_cons, reduceCtorEq, false_or]
    exact ⟨hsome _, hsome _, hsome _, validated_checked .., nofun⟩

/-- `__ipc_reply` goes on with the entry of the VFS. -/
theorem endpoint_validated_iff_vfs : Validated 3 (ipcReplyCall 3 (some .zero)) := by
  have hmem : ipcReplyCall ∈ [ipcSendCall, ipcReceiveCall, ipcReplyCall, ipcNotifyCall] := by simp
  exact (endpoint_validated_iff 3 (some .zero) _ hmem).mpr (.inr (by decide))

/-- With `ENDPOINT_END` and with a negative endpoint all four go on with an entry that does not
exist. -/
theorem endpoint_outside_table :
    [ipcSendCall, ipcReceiveCall, ipcReplyCall, ipcNotifyCall].map
      (fun call => (call 4 (some .zero), call (-1) (some .zero))) =
    List.replicate 4 (.ok none, .ok none) := rfl

end MinixRt.Ipc
