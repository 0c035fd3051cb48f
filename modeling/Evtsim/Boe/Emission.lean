import Evtsim.Boe.Steps
import Evtsim.Passes

/-!
# Which messages the functions of `boe_session` send

As for `ouch_session`: `pending_out_messages` only grows, each function by messages of a few types.
-/

namespace Evtsim

open Wire Boe Log Session

namespace Boe

/-- The values of `boe::MsgType` that go to the member. -/
inductive OutMsgType
  | cancelRejected | loginResponse | modifyRejected | orderAck | orderCanceled | orderExecution
  | orderModified | orderRejected | serverHeartbeat
deriving DecidableEq

def OutMsgType.code : OutMsgType → UInt8
  | cancelRejected => 0x2b
  | loginResponse => 0x24
  | modifyRejected => 0x29
  | orderAck => 0x25
  | orderCanceled => 0x2a
  | orderExecution => 0x2c
  | orderModified => 0x27
  | orderRejected => 0x26
  | serverHeartbeat => 0x09

def OutMsg.type : OutMsg → OutMsgType
  | loginResponse _ => .loginResponse
  | serverHeartbeat => .serverHeartbeat
  | orderAck _ => .orderAck
  | orderRejected _ => .orderRejected
  | orderModified _ => .orderModified
  | modifyRejected _ => .modifyRejected
  | orderCanceled _ => .orderCanceled
  | cancelRejected _ => .cancelRejected
  | orderExecution _ => .orderExecution

end Boe

namespace BoeSession

variable {W : Type} (E : Env W)

/-- The new messages are of the given types. -/
abbrev Emits (types : List OutMsgType) (s s' : BoeSession W) : Prop :=
  Session.Emits OutMsg.type types s s'

/-- The start of a tick sends heartbeats only. -/
theorem emits_heartbeatLogic (s : BoeSession W) :
    Emits [.serverHeartbeat] s (heartbeatLogic E s) :=
  Session.emits_heartbeatLogic E .serverHeartbeat s

/-- A login is answered by one response with one unit, whose length is put in by hand: 122 bytes but for
the first two. -/
theorem handleLoginRequest_out (s : BoeSession W) (req : LoginRequest) :
    ∃ m, m.length = 120 ∧ m.numberOfUnits = 1 ∧ (handleLoginRequest E s req).pendingOutMessages =
      s.pendingOutMessages ++ [.loginResponse m] := by
  unfold handleLoginRequest
  dsimp only
  split
  · exact ⟨_, rfl, rfl, rfl⟩
  split
  · exact ⟨_, rfl, rfl, rfl⟩
  · exact ⟨_, rfl, rfl, rfl⟩

/-- The types of the answers to each request on receipt. -/
def answerTypes : Request → List OutMsgType
  | .login _ => [.loginResponse]
  | .heartbeat => []
  | .enter _ => [.orderAck, .orderRejected]
  | .cancel _ => [.cancelRejected]
  | .modify _ => [.modifyRejected]

/-- A request is answered with the messages of its kind. -/
theorem emits_handle (s : BoeSession W) (r : Request) :
    Emits (answerTypes r) s (handle E s r) := by
  cases r with
  | login req =>
    obtain ⟨m, -, -, h⟩ := handleLoginRequest_out E s req
    exact emits_emit h List.mem_cons_self
  | heartbeat => exact emits_of_out rfl
  | enter no =>
    rcases enterOrder_cases E s no with ⟨-, w, m, h⟩ | ⟨-, w, d, m, -, -, -, h⟩ <;> rw [handle, h]
    · exact emits_emit rfl (by simp [OutMsg.type, answerTypes])
    · exact emits_emit rfl (by simp [OutMsg.type, answerTypes])
  | cancel co =>
    rcases cancelOrder_cases E s co with ⟨-, h⟩ | ⟨-, w, ⟨-, h⟩ | ⟨-, m, h⟩⟩ <;> rw [handle, h]
    · exact emits_of_out rfl
    · exact emits_of_out rfl
    · exact emits_emit rfl List.mem_cons_self
  | modify mo =>
    rcases modifyOrder_cases E s mo with ⟨-, w, m, h⟩ | ⟨-, -, w, h⟩ <;> rw [handle, h]
    · exact emits_emit rfl List.mem_cons_self
    · exact emits_of_out rfl

/-- A queued cancel is rejected or reported. -/
theorem emits_cancelStep (st : Pass W) (co : BoeCancelOrderReq) :
    Emits [.cancelRejected, .orderCanceled] st.1 (cancelStep E st co).1 := by
  rcases cancelStep_cases E st co with ⟨-, w, m, h⟩ | ⟨-, w, m, -, h⟩ <;> rw [h]
  · exact emits_emit rfl (by simp [OutMsg.type])
  · exact emits_emit rfl (by simp [OutMsg.type])

/-- An applied modification is reported. -/
theorem emits_modifyStep (st : Pass W) (mo : BoeModifyOrderReq) :
    Emits [.orderModified] st.1 (modifyStep E st mo).1 := by
  rcases modifyStep_cases E st mo with ⟨-, h⟩ | ⟨o, -, w, A, bo, m, -, -, -, h⟩ <;> rw [h]
  · exact emits_of_out rfl
  · exact emits_emit rfl List.mem_cons_self

/-- A visit reports an execution only. -/
theorem emits_executionStep (st : Pass W) (k : Key) :
    Emits [.orderExecution] st.1 (executionStep E st k).1 := by
  rcases executionStep_cases E st k with ⟨-, h⟩ | ⟨o, -, w, ⟨-, h⟩ | ⟨-, -, h | ⟨exe, m, -, -, -, -,
    -, h⟩⟩ | ⟨-, -, h⟩⟩ <;> rw [h]
  · exact emits_of_out rfl
  · exact emits_of_out rfl
  · exact emits_of_out rfl
  · exact emits_emit rfl List.mem_cons_self
  · exact emits_of_out rfl

/-- `cancel_all` reports cancellations only. -/
theorem emits_cancelAllStep (st : BoeSession W × ℕ) (k : Key) :
    Emits [.orderCanceled] st.1 (cancelAllStep E st k).1 := by
  rcases cancelAllStep_cases E st k with ⟨-, h⟩ | ⟨o, -, -, w, m, -, h⟩ <;> rw [h]
  · exact emits_of_out rfl
  · exact emits_emit rfl List.mem_cons_self

/-- The messages of a cancel pass. -/
theorem emits_cancelLogic (s : BoeSession W) :
    Emits [.cancelRejected, .orderCanceled] s (cancelLogic E s) :=
  Session.emits_cancelLogic (emits_cancelStep E) s

/-- The messages of a modify pass. -/
theorem emits_modifyLogic (s : BoeSession W) : Emits [.orderModified] s (modifyLogic E s) :=
  Session.emits_modifyLogic (emits_modifyStep E) s

/-- The messages of an execution pass. -/
theorem emits_executionLogic (s : BoeSession W) : Emits [.orderExecution] s (executionLogic E s) :=
  Session.emits_executionLogic E (emits_executionStep E) s

/-- A tick up to its execution pass. -/
theorem emits_beforeExecution (s : BoeSession W) :
    Emits [.serverHeartbeat, .cancelRejected, .orderCanceled, .orderModified] s
      (modifyLogic E (modifyStart E s).1) := by
  have hbeat := (emits_heartbeatLogic E s).mono (l := [.serverHeartbeat, .cancelRejected,
    .orderCanceled, .orderModified]) (by decide)
  have hcancel := (emits_cancelLogic E (heartbeatLogic E s)).mono (l := [.serverHeartbeat,
    .cancelRejected, .orderCanceled, .orderModified]) (by decide)
  have hmodify := (emits_modifyLogic E (modifyStart E s).1).mono (l := [.serverHeartbeat,
    .cancelRejected, .orderCanceled, .orderModified]) (by decide)
  exact (hbeat.trans hcancel).trans hmodify

/-- The types of the messages of a tick. -/
theorem emits_marketLogic (s : BoeSession W) :
    Emits [.serverHeartbeat, .cancelRejected, .orderCanceled, .orderModified, .orderExecution] s
      (marketLogic E s) := by
  have hbefore := (emits_beforeExecution E s).mono (l := [.serverHeartbeat, .cancelRejected,
    .orderCanceled, .orderModified, .orderExecution]) (by decide)
  have hexecute := (emits_executionLogic E (modifyLogic E (modifyStart E s).1)).mono
    (l := [.serverHeartbeat, .cancelRejected, .orderCanceled, .orderModified, .orderExecution])
    (by decide)
  exact hbefore.trans hexecute

/-- The messages of `cancel_all`. -/
theorem emits_cancelAll (s : BoeSession W) : Emits [.orderCanceled] s (cancelAll E s).1 :=
  Session.emits_cancelAll E (emits_cancelAllStep E) s

end BoeSession

end Evtsim
