import Evtsim.Ouch.Steps
import Evtsim.Passes

/-!
# Which messages the functions of `ouch_session` send

`pending_out_messages` only grows, and each function appends messages of a few kinds. What is read off
the log for one kind alone is therefore left as it is by the functions that do not send this kind.
-/

namespace Evtsim

open Wire Ouch Log Session

namespace Ouch

/-- The struct that a message is the image of. -/
inductive Kind
  | loginAccepted | loginRejected | serverHeartbeat | orderAccepted | orderCanceled | orderModified
  | orderRejected | orderReplaced | executed | cancelReject
deriving DecidableEq

def OutMsg.kind : OutMsg → Kind
  | loginAccepted _ => .loginAccepted
  | loginRejected _ => .loginRejected
  | serverHeartbeat => .serverHeartbeat
  | orderAccepted _ => .orderAccepted
  | orderCanceled _ => .orderCanceled
  | orderModified _ => .orderModified
  | orderRejected _ => .orderRejected
  | orderReplaced _ => .orderReplaced
  | executed _ => .executed
  | cancelReject _ => .cancelReject

end Ouch

namespace OuchSession

variable {W : Type} (E : Env W)

/-- The new messages are of the given kinds. -/
abbrev Emits (kinds : List Kind) (s s' : OuchSession W) : Prop :=
  Session.Emits OutMsg.kind kinds s s'

/-- The start of a tick sends heartbeats only. -/
theorem emits_heartbeatLogic (s : OuchSession W) :
    Emits [.serverHeartbeat] s (heartbeatLogic E s) :=
  Session.emits_heartbeatLogic E .serverHeartbeat s

/-- An answer to a packet reports nothing but an accepted order. -/
theorem emits_handle (s : OuchSession W) (r : Request) :
    Emits [.loginAccepted, .loginRejected, .orderRejected, .orderAccepted] s (handle E s r) := by
  cases r with
  | login =>
    unfold handle handleLoginRequest
    dsimp only
    split
    · exact emits_emit rfl (by simp [OutMsg.kind])
    split
    · exact emits_emit rfl (by simp [OutMsg.kind])
    · exact emits_emit rfl (by simp [OutMsg.kind])
  | logout => exact emits_of_out rfl
  | heartbeat => exact emits_of_out rfl
  | enter eo =>
    rcases enterOrder_cases E s eo with ⟨-, w, h | ⟨m, h⟩⟩ | ⟨-, w, d, m, -, -, h⟩ <;> rw [handle, h]
    · exact emits_of_out rfl
    · exact emits_emit rfl (by simp [OutMsg.kind])
    · exact emits_emit rfl (by simp [OutMsg.kind])
  | replace ro =>
    rcases replaceOrder_cases E s ro with ⟨-, w, h⟩ | ⟨-, w, h⟩ <;> rw [handle, h] <;>
      exact emits_of_out rfl
  | cancel co =>
    rcases cancelOrder_cases E s co with ⟨-, w, h⟩ | ⟨-, -, w, h⟩ <;> rw [handle, h] <;>
      exact emits_of_out rfl
  | modify mo =>
    rcases modifyOrder_cases E s mo with ⟨-, w, h⟩ | ⟨-, -, w, h⟩ <;> rw [handle, h] <;>
      exact emits_of_out rfl

/-- A queued cancel is rejected or reported. -/
theorem emits_cancelStep (st : Pass W) (co : OuchCancelOrderReq) :
    Emits [.cancelReject, .orderCanceled] st.1 (cancelStep E st co).1 := by
  rcases cancelStep_cases E st co with ⟨-, w, m, h⟩ | ⟨o, -, -, ⟨-, w, m, -, -, h⟩ | ⟨-, -, w, h⟩ |
    ⟨-, -, w, m, -, -, h⟩⟩ <;> rw [h]
  · exact emits_emit rfl (by simp [OutMsg.kind])
  · exact emits_emit rfl (by simp [OutMsg.kind])
  · exact emits_of_out rfl
  · exact emits_emit rfl (by simp [OutMsg.kind])

/-- An applied modification is reported. -/
theorem emits_modifyStep (st : Pass W) (mo : OuchModifyOrderReq) :
    Emits [.orderModified] st.1 (modifyStep E st mo).1 := by
  rcases modifyStep_cases E st mo with ⟨-, h⟩ | ⟨o, -, -, ⟨-, w, m, -, h⟩ | ⟨-, w, m, -, h⟩⟩ <;>
    rw [h]
  · exact emits_of_out rfl
  · exact emits_emit rfl List.mem_cons_self
  · exact emits_emit rfl List.mem_cons_self

/-- A queued replacement is reported, as a replacement or as a cancellation. -/
theorem emits_replaceStep (st : Pass W) (ro : OuchReplaceOrderReq) :
    Emits [.orderCanceled, .orderReplaced] st.1 (replaceStep E st ro).1 := by
  rcases replaceStep_cases E st ro with ⟨-, w, m, -, -, h⟩ | ⟨-, w, m, A, -, -, -, h⟩ <;> rw [h]
  · exact emits_emit rfl (by simp [OutMsg.kind])
  · exact emits_emit rfl (by simp [OutMsg.kind])

/-- A visit reports a cancellation or an execution. -/
theorem emits_executionStep (st : Pass W) (k : Key) :
    Emits [.orderCanceled, .executed] st.1 (executionStep E st k).1 := by
  rcases executionStep_cases E st k with ⟨-, h⟩ | ⟨o, -, ⟨-, w, h⟩ | ⟨o', w, -, ⟨m, -, -, h⟩ |
    ⟨-, h⟩ | ⟨exe, m, -, -, -, -, h⟩ | h | h⟩⟩ <;> rw [h]
  · exact emits_of_out rfl
  · exact emits_of_out rfl
  · exact emits_emit rfl (by simp [OutMsg.kind])
  · exact emits_of_out rfl
  · exact emits_emit rfl (by simp [OutMsg.kind])
  · exact emits_of_out rfl
  · exact emits_of_out rfl

/-- `cancel_all` reports cancellations only. -/
theorem emits_cancelAllStep (st : OuchSession W × ℕ) (k : Key) :
    Emits [.orderCanceled] st.1 (cancelAllStep E st k).1 := by
  rcases cancelAllStep_cases E st k with ⟨-, h⟩ | ⟨o, o', w, -, -, ⟨m, -, -, h⟩ | h⟩ <;> rw [h]
  · exact emits_of_out rfl
  · exact emits_emit rfl List.mem_cons_self
  · exact emits_of_out rfl

/-- The messages of a cancel pass. -/
theorem emits_cancelLogic (s : OuchSession W) :
    Emits [.cancelReject, .orderCanceled] s (cancelLogic E s) :=
  Session.emits_cancelLogic (emits_cancelStep E) s

/-- The messages of a modify pass. -/
theorem emits_modifyLogic (s : OuchSession W) : Emits [.orderModified] s (modifyLogic E s) :=
  Session.emits_modifyLogic (emits_modifyStep E) s

/-- The messages of a replace pass. -/
theorem emits_replaceLogic (s : OuchSession W) :
    Emits [.orderCanceled, .orderReplaced] s (replaceLogic E s) :=
  appends_run (g := fun st : Pass W => st.1.pendingOutMessages) (emits_replaceStep E) (s, [])
    s.pendingReplace

/-- The messages of an execution pass. -/
theorem emits_executionLogic (s : OuchSession W) : Emits [.orderCanceled, .executed] s (executionLogic E s) :=
  Session.emits_executionLogic E (emits_executionStep E) s

/-- All of a tick but its start sends neither heartbeats nor answers to a login. -/
theorem emits_passes (s : OuchSession W) :
    Emits [.cancelReject, .orderCanceled, .orderModified, .orderReplaced, .executed] s
      (executionLogic E (replaceLogic E (modifyLogic E (cancelLogic E s)))) := by
  have hcancel := (emits_cancelLogic E s).imp (R := fun m => m.kind ∈ [Kind.cancelReject,
    .orderCanceled, .orderModified, .orderReplaced, .executed]) (by simp; tauto)
  have hmodify := (emits_modifyLogic E (cancelLogic E s)).imp (R := fun m => m.kind ∈
    [Kind.cancelReject, .orderCanceled, .orderModified, .orderReplaced, .executed]) (by simp; tauto)
  have hreplace := (emits_replaceLogic E (modifyLogic E (cancelLogic E s))).imp (R := fun m =>
    m.kind ∈ [Kind.cancelReject, .orderCanceled, .orderModified, .orderReplaced, .executed])
    (by simp; tauto)
  have hexecution := (emits_executionLogic E (replaceLogic E (modifyLogic E (cancelLogic E s)))).imp
    (R := fun m => m.kind ∈ [Kind.cancelReject, .orderCanceled, .orderModified, .orderReplaced,
      .executed]) (by simp; tauto)
  exact ((hcancel.trans hmodify).trans hreplace).trans hexecution

/-- The messages of a tick. -/
theorem emits_marketLogic (s : OuchSession W) :
    Emits [.serverHeartbeat, .cancelReject, .orderCanceled, .orderModified, .orderReplaced, .executed]
      s (marketLogic E s) := by
  refine ((emits_heartbeatLogic E s).imp fun m hm => ?_).trans
    ((emits_passes E (heartbeatLogic E s)).imp fun m hm => ?_)
  · rw [List.mem_singleton.mp hm]
    exact List.mem_cons_self
  · exact List.mem_cons_of_mem _ hm

/-- The messages of `cancel_all`. -/
theorem emits_cancelAll (s : OuchSession W) : Emits [.orderCanceled] s (cancelAll E s).1 :=
  Session.emits_cancelAll E (emits_cancelAllStep E) s

/-- A packet, an admin command or a disconnect: everything but a tick. -/
theorem emits_step (s : OuchSession W) {e : Event} (he : e ≠ .marketLogic) :
    Emits [.loginAccepted, .loginRejected, .orderRejected, .orderAccepted, .orderCanceled] s
      (step E s e) := by
  cases e with
  | setLogger => exact emits_of_out rfl
  | packet p =>
    rcases step_packet E s p with ⟨-, h⟩ | ⟨r, -, -, h⟩ <;> rw [h]
    · exact emits_of_out rfl
    · refine (emits_handle E s r).imp fun m hm => ?_
      exact List.mem_append_left [.orderCanceled] hm
  | marketLogic => exact absurd rfl he
  | cancelAll =>
    refine (emits_cancelAll E s).imp fun m hm => ?_
    rw [List.mem_singleton.mp hm]
    decide
  | disconnect => exact emits_of_out rfl

end OuchSession

end Evtsim
