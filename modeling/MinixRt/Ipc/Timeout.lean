import MinixRt.Ipc.Wakeup

/-!
# A send to an endpoint without a task

`__ipc_send` waits up to 60 seconds for the endpoint to get a task and returns `-ENODEV`
when the time is used up. The wait tests the state word and not `tsk`, and a
`schedule_timeout` that returns 0 ends the loop without another test. A server that is
registered and goes to `EP_STATE_WAITTING` before the sender has tested the word again
leaves the sender asleep until its time is used up, and then it returns `-ENODEV` for an
endpoint that has a task.

The return value is right in the runs in which no sender uses up its time while its
endpoint has a task, and no task is registered while a sender that has used up its time
is on its way out.
-/

namespace MinixRt.Ipc

open State Lib.Machine

variable {s : State} {a : Act}

end MinixRt.Ipc
