import MinixRt.Ipc.Timeout

/-!
# The source of a message

`__ipc_send` stores the pid of the current task in `m_source` when it fills its node, so a
message that reaches the list of an endpoint carries the pid of the task that sent it. A
step moves the program counter of one task only and changes no pid.
-/

namespace MinixRt.Ipc

open State

variable {s : State} {G : Addr → NodeSt}

theorem Inv.setPid (h : Inv s G) (pid : TaskId → Int) : Inv { s with pid } G := by
  apply h.frame
  constructor
  case events => exact fun _ _ => .rfl
  all_goals intros; rfl

variable {e : Endpoint} {m : Message} {x : Addr} {a : Act}

theorem append_mem_emitted (h : .append e x m ∈ emitted s a) :
    ∃ t m', a = .run t ∧ s.pc t = .send e m' (.append x) ∧ m = (s.node x).m ∧
      emitted s a = [.append e x m] := by
  simp only [emitted] at h ⊢
  split at h
  · rename_i t
    split at h <;> simp at h
    obtain ⟨rfl, rfl, rfl⟩ := h
    rename_i hpc
    exact ⟨t, _, rfl, hpc, rfl, rfl⟩
  · simp at h
  · simp at h

/-- The message that a step puts into a list has the pid of the step's task as its
source. -/
theorem source_of_append (hG : Inv s G) (hsrc : SourceOk s) (h : .append e x m ∈ emitted s a) :
    ∃ t, a.actor = some t ∧ m.mSource = s.pid t ∧ emitted s a = [.append e x m] := by
  obtain ⟨t, m', rfl, hpc, rfl, hem⟩ := append_mem_emitted h
  obtain ⟨-, hm, -⟩ : SendOk s G t e m' (.append x) := hG.sendOk hpc
  have ht := hsrc t
  rw [hpc] at ht
  exact ⟨t, rfl, by rw [hm]; exact ht, hem⟩

end MinixRt.Ipc
