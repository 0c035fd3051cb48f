import Evtsim.Ouch.Steps
import Evtsim.Passes

/-!
# What is pending plays no part in an OUCH session

A server writes `pending_out_messages` to its socket and clears it, while the runs of a session keep
every message. The two agree because no function reads the list: each appends to whatever is there
(`handlePacket_behind`, `marketLogic_behind`, `cancelAll_behind`).
-/

namespace Evtsim

open Wire Ouch Session

namespace OuchSession

variable {W : Type} (E : Env W)

section

variable (ms : List Ouch.OutMsg)

/-! ## Handlers -/

/-- A login sends behind what waits already. -/
theorem handleLoginRequest_behind (s : OuchSession W) :
    handleLoginRequest E (s.behind ms) = (handleLoginRequest E s).behind ms := by
  unfold handleLoginRequest
  by_cases hstate : s.state ≠ .notLoggedIn
  · rw [if_pos hstate, if_pos (c := (s.behind ms).state ≠ .notLoggedIn) hstate]
    exact emit_behind_of rfl rfl rfl
  rw [if_neg hstate, if_neg (c := (s.behind ms).state ≠ .notLoggedIn) hstate]
  dsimp only [behind_env]
  split
  · exact emit_behind_of rfl rfl rfl
  · exact emit_behind_of rfl rfl rfl

/-- An `EnterOrder` is answered behind what waits already. -/
theorem enterOrder_behind (s : OuchSession W) (eo : EnterOrder) :
    enterOrder E (s.behind ms) eo = (enterOrder E s eo).behind ms := by
  unfold enterOrder
  by_cases hqty : maxShares < eo.qty
  · rw [if_pos hqty, if_pos hqty]
    exact emit_behind_of rfl rfl rfl
  rw [if_neg hqty, if_neg hqty]
  by_cases hstate : s.state ≠ .loggedIn
  · rw [if_pos hstate, if_pos (c := (s.behind ms).state ≠ .loggedIn) hstate]
    exact emit_behind_of rfl rfl rfl
  rw [if_neg hstate, if_neg (c := (s.behind ms).state ≠ .loggedIn) hstate]
  dsimp only [behind_env, behind_activeOrders, behind_finishedOrders]
  split
  · exact emit_behind_of rfl rfl rfl
  split
  · exact emit_behind_of rfl rfl rfl
  · rfl

/-- A `ModifyOrder` is queued whatever waits already. -/
theorem modifyOrder_behind (s : OuchSession W) (mo : ModifyOrder) :
    modifyOrder E (s.behind ms) mo = (modifyOrder E s mo).behind ms := by
  unfold modifyOrder
  by_cases hknown : mo.token.str ∉ s.activeOrders
  · rw [if_pos hknown, if_pos (c := mo.token.str ∉ (s.behind ms).activeOrders) hknown]
  rw [if_neg hknown, if_neg (c := mo.token.str ∉ (s.behind ms).activeOrders) hknown]
  dsimp only [behind_env]
  split
  · rfl
  · rfl

/-- A `ReplaceOrder` is queued or answered behind what waits already. -/
theorem replaceOrder_behind (s : OuchSession W) (ro : ReplaceOrder) :
    replaceOrder E (s.behind ms) ro = (replaceOrder E s ro).behind ms := by
  unfold replaceOrder
  dsimp only [behind_env]
  split
  · rfl
  · rfl

/-- A `CancelOrder` is queued or answered behind what waits already. -/
theorem cancelOrder_behind (s : OuchSession W) (co : CancelOrder) :
    cancelOrder E (s.behind ms) co = (cancelOrder E s co).behind ms := by
  unfold cancelOrder
  by_cases hknown : co.token.str ∉ s.activeOrders
  · rw [if_pos hknown, if_pos (c := co.token.str ∉ (s.behind ms).activeOrders) hknown]
  rw [if_neg hknown, if_neg (c := co.token.str ∉ (s.behind ms).activeOrders) hknown]
  dsimp only [behind_env]
  split
  · rfl
  · rfl

/-- A request is answered behind what waits already. -/
theorem handle_behind (s : OuchSession W) (r : Request) :
    handle E (s.behind ms) r = (handle E s r).behind ms := by
  cases r with
  | login => exact handleLoginRequest_behind E ms s
  | logout => rfl
  | heartbeat => rfl
  | enter eo => exact enterOrder_behind E ms s eo
  | replace ro => exact replaceOrder_behind E ms s ro
  | cancel co => exact cancelOrder_behind E ms s co
  | modify mo => exact modifyOrder_behind E ms s mo

/-- A packet is answered behind what waits already. -/
theorem respond_behind (s : OuchSession W) (r : Option Request) :
    respond E (s.behind ms) r = (respond E s r).behind ms := by
  cases r with
  | none => rfl
  | some r => exact handle_behind E ms s r

/-! ## The bodies of the passes -/

/-- A queued cancel is answered behind what waits already. -/
theorem cancelStep_behind (st : Pass W) (co : OuchCancelOrderReq) :
    passBehind ms (cancelStep E st co) = cancelStep E (passBehind ms st) co := by
  unfold cancelStep passBehind
  dsimp only [behind_activeOrders, behind_env]
  rcases st.1.activeOrders.lookup co.token.str with _ | o
  · exact congrArg (·, st.2) (emit_behind_of rfl rfl rfl).symm
  dsimp only
  split
  · exact congrArg (·, st.2) (emit_behind_of rfl rfl rfl).symm
  split
  · exact congrArg (·, st.2 ++ [co.token.str]) (emit_behind_of rfl rfl rfl).symm
  split
  · rfl
  · exact congrArg (·, st.2) (emit_behind_of rfl rfl rfl).symm

/-- A queued modification is reported behind what waits already. -/
theorem modifyStep_behind (st : Pass W) (mo : OuchModifyOrderReq) :
    passBehind ms (modifyStep E st mo) = modifyStep E (passBehind ms st) mo := by
  unfold modifyStep passBehind
  dsimp only [behind_activeOrders]
  rcases st.1.activeOrders.lookup mo.token.str with _ | o
  · rfl
  dsimp only
  split
  · rfl
  split
  · exact congrArg (·, st.2 ++ [o.token.str]) (emit_behind_of rfl rfl rfl).symm
  · exact congrArg (·, st.2) (emit_behind_of rfl rfl rfl).symm

/-- A queued replacement is reported behind what waits already. -/
theorem replaceStep_behind (st : Pass W) (ro : OuchReplaceOrderReq) :
    passBehind ms (replaceStep E st ro) = replaceStep E (passBehind ms st) ro := by
  unfold replaceStep passBehind
  dsimp only
  rw [subscript_behind]
  generalize subscript E.ouchOrder st.1 ro.existingToken.str = s
  rw [behind_activeOrders]
  rcases s.activeOrders.lookup ro.existingToken.str with _ | o
  · rfl
  dsimp only
  split
  · exact congrArg (·, st.2 ++ [ro.existingToken.str]) (emit_behind_of rfl rfl rfl).symm
  · have hmade : constructOrderReplaced E ((s.behind ms).withActive
        (s.activeOrders.insert ro.existingToken.str (replaced o ro))) ro (replaced o ro) =
        (constructOrderReplaced E (s.withActive
          (s.activeOrders.insert ro.existingToken.str (replaced o ro))) ro (replaced o ro)).behind ms := by
      exact emit_behind_of rfl rfl rfl
    have hsub := (congrArg (subscript E.ouchOrder · ro.newToken.str) hmade).trans
      (subscript_behind ms E.ouchOrder _ _)
    unfold withActive at hsub
    dsimp only [behind_activeOrders]
    rw [hsub]
    rfl

/-- An execution is reported behind what waits already. -/
theorem constructOrderExecuted_behind (s : OuchSession W) (k : Key) (o : OuchOrder) (exeQty : ℤ) :
    constructOrderExecuted E (s.behind ms) k o exeQty =
      (constructOrderExecuted E s k o exeQty).behind ms := by
  unfold constructOrderExecuted
  by_cases hzero : exeQty = 0
  · rw [if_pos hzero, if_pos hzero]
  rw [if_neg hzero, if_neg hzero]
  dsimp only [behind_env, behind_activeOrders]
  generalize (if exeQty < 0 then ((1 + ((E.rand s.env).1 : ℤ) % 10) * 100, (E.rand s.env).2)
    else (exeQty, s.env)) = r
  split
  · rfl
  · exact emit_behind_of rfl rfl rfl

/-- A visit reports behind what waits already. -/
theorem executionStep_behind (st : Pass W) (k : Key) :
    passBehind ms (executionStep E st k) = executionStep E (passBehind ms st) k := by
  unfold executionStep passBehind
  dsimp only [behind_activeOrders, behind_env]
  rcases st.1.activeOrders.lookup k with _ | o
  · rfl
  dsimp only
  split
  · rfl
  split
  · exact congrArg (·, st.2 ++ [k]) (emit_behind_of rfl rfl rfl).symm
  split
  · split
    · exact congrArg (·, st.2 ++ [k]) (emit_behind_of rfl rfl rfl).symm
    · rfl
  split
  · exact congrArg (·, st.2)
      (constructOrderExecuted_behind E ms ((st.1.inEnv _).withActive _) _ _ _).symm
  · rfl

/-- `cancel_all` reports an order behind what waits already. -/
theorem cancelAllStep_behind (st : OuchSession W × ℕ) (k : Key) :
    ((cancelAllStep E st k).1.behind ms, (cancelAllStep E st k).2) =
      cancelAllStep E (st.1.behind ms, st.2) k := by
  unfold cancelAllStep
  dsimp only [behind_activeOrders, behind_env]
  rcases st.1.activeOrders.lookup k with _ | o
  · rfl
  dsimp only
  split
  · exact congrArg (·, st.2 + 1) (emit_behind_of rfl rfl rfl).symm
  · rfl

/-! ## The passes -/

/-- A replace pass reports behind what waits already. -/
theorem replaceLogic_behind (s : OuchSession W) :
    replaceLogic E (s.behind ms) = (replaceLogic E s).behind ms := by
  unfold replaceLogic
  rw [behind_pendingReplace, run_behind ms (replaceStep_behind E ms)]
  rfl

/-- A tick. -/
theorem marketLogic_behind (s : OuchSession W) :
    marketLogic E (s.behind ms) = (marketLogic E s).behind ms := by
  unfold marketLogic heartbeatLogic cancelLogic modifyLogic executionLogic
  rw [Session.heartbeatLogic_behind, Session.cancelLogic_behind ms (cancelStep_behind E ms),
    Session.modifyLogic_behind ms (modifyStep_behind E ms), replaceLogic_behind,
    Session.executionLogic_behind E ms (executionStep_behind E ms)]

/-- `cancel_all` reports behind what waits already and counts the same orders. -/
theorem cancelAll_behind (s : OuchSession W) :
    cancelAll E (s.behind ms) = ((cancelAll E s).1.behind ms, (cancelAll E s).2) :=
  Session.cancelAll_behind E ms (cancelAllStep_behind E ms) s

/-- What waits to be sent does not change how a packet is handled. -/
theorem handlePacket_behind {s : OuchSession W} (hl : s.l = true) (p : Mem) :
    handlePacket E (s.behind ms) p = .ok ((respond E s (request p)).behind ms) := by
  rw [handlePacket_eq E (s := s.behind ms) hl, respond_behind]

end

end OuchSession

end Evtsim
