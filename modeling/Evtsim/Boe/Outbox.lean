import Evtsim.Boe.Steps
import Evtsim.Passes

/-!
# What is pending plays no part in a BOE session

As for OUCH: each function appends to `pending_out_messages` and none reads it.
-/

namespace Evtsim

open Wire Boe Session

namespace BoeSession

variable {W : Type} (E : Env W)

section

variable (ms : List Boe.OutMsg)

/-- What remains of an order does not depend on what waits to be sent. -/
theorem remainingAt_behind (s : BoeSession W) (k : Key) :
    (s.behind ms).remainingAt k = s.remainingAt k := rfl

/-! ## Handlers -/

/-- A login is answered behind what waits already. -/
theorem handleLoginRequest_behind (s : BoeSession W) (req : LoginRequest) :
    handleLoginRequest E (s.behind ms) req = (handleLoginRequest E s req).behind ms := by
  unfold handleLoginRequest
  dsimp only [behind_env]
  split
  · exact emit_behind_of rfl rfl rfl
  by_cases hstate : s.state ≠ .notLoggedIn
  · rw [if_pos hstate, if_pos (c := (s.behind ms).state ≠ .notLoggedIn) hstate]
    exact emit_behind_of rfl rfl rfl
  · rw [if_neg hstate, if_neg (c := (s.behind ms).state ≠ .notLoggedIn) hstate]
    exact congrArg ({ · with state := .loggedIn })
      (emit_behind_of (s := s.inEnv (E.gate .login s.env).2) rfl rfl rfl)

/-- A `ModifyOrder` is queued whatever waits already. -/
theorem modifyOrder_behind (s : BoeSession W) (mo : ModifyOrder) :
    modifyOrder E (s.behind ms) mo = (modifyOrder E s mo).behind ms := by
  unfold modifyOrder
  dsimp only [behind_env]
  by_cases hunknown : mo.origToken.str ∉ s.activeOrders ∧ mo.origToken.str ∉ s.finishedOrders
  · rw [if_pos hunknown, if_pos (c := mo.origToken.str ∉ (s.behind ms).activeOrders ∧
      mo.origToken.str ∉ (s.behind ms).finishedOrders) hunknown]
    exact emit_behind_of rfl rfl rfl
  rw [if_neg hunknown, if_neg (c := mo.origToken.str ∉ (s.behind ms).activeOrders ∧
    mo.origToken.str ∉ (s.behind ms).finishedOrders) hunknown]
  split
  · exact emit_behind_of rfl rfl rfl
  · rfl

/-- A `CancelOrder` is queued or answered behind what waits already. -/
theorem cancelOrder_behind (s : BoeSession W) (co : CancelOrder) :
    cancelOrder E (s.behind ms) co = (cancelOrder E s co).behind ms := by
  unfold cancelOrder
  dsimp only
  rw [remainingAt_behind, behind_activeOrders, subscript_behind]
  by_cases hqueues : co.origToken.str ∈ s.activeOrders ∧ 0 < s.remainingAt co.origToken.str
  · simp only [if_pos hqueues]
    rfl
  simp only [if_neg hqueues]
  generalize subscript E.boeOrder s co.origToken.str = s
  rw [remainingAt_behind, behind_activeOrders, behind_finishedOrders]
  by_cases hlate : s.remainingAt co.origToken.str ≤ 0 ∨ co.origToken.str ∈ s.finishedOrders
  · simp only [if_pos hlate]
    exact emit_behind_of rfl rfl rfl
  simp only [if_neg hlate]
  by_cases habsent : co.origToken.str ∉ s.activeOrders
  · simp only [if_pos habsent]
    exact emit_behind_of rfl rfl rfl
  simp only [if_neg habsent]
  rw [behind_env]
  split
  · exact emit_behind_of rfl rfl rfl
  · rfl

/-- A `NewOrder` is answered behind what waits already. -/
theorem enterOrder_behind (s : BoeSession W) (no : NewOrder) :
    enterOrder E (s.behind ms) no = (enterOrder E s no).behind ms := by
  unfold enterOrder
  dsimp only [behind_env]
  by_cases hactive : no.token.str ∈ s.activeOrders
  · rw [if_pos hactive, if_pos (c := no.token.str ∈ (s.behind ms).activeOrders) hactive]
    exact emit_behind_of rfl rfl rfl
  rw [if_neg hactive, if_neg (c := no.token.str ∈ (s.behind ms).activeOrders) hactive]
  split
  · exact emit_behind_of rfl rfl rfl
  · exact emit_behind_of rfl rfl rfl

/-- A request is answered behind what waits already. -/
theorem handle_behind (s : BoeSession W) (r : Request) :
    handle E (s.behind ms) r = (handle E s r).behind ms := by
  cases r with
  | login req => exact handleLoginRequest_behind E ms s req
  | heartbeat => rfl
  | enter no => exact enterOrder_behind E ms s no
  | cancel co => exact cancelOrder_behind E ms s co
  | modify mo => exact modifyOrder_behind E ms s mo

/-- A packet is answered behind what waits already. -/
theorem handlePacket_behind (s : BoeSession W) (p : Mem) :
    handlePacket E (s.behind ms) p = (handlePacket E s p).behind ms := by
  rw [handlePacket_eq, handlePacket_eq]
  rcases request p with _ | r
  · rfl
  · exact handle_behind E ms s r

/-! ## The bodies of the passes -/

/-- A queued cancel is answered behind what waits already. -/
theorem cancelStep_behind (st : Pass W) (co : BoeCancelOrderReq) :
    passBehind ms (cancelStep E st co) = cancelStep E (passBehind ms st) co := by
  unfold cancelStep passBehind
  dsimp only [behind_env]
  by_cases habsent : co.token.str ∉ st.1.activeOrders
  · rw [if_pos habsent, if_pos (c := co.token.str ∉ (st.1.behind ms).activeOrders) habsent]
    exact congrArg (·, st.2) (emit_behind_of rfl rfl rfl).symm
  rw [if_neg habsent, if_neg (c := co.token.str ∉ (st.1.behind ms).activeOrders) habsent]
  split
  · exact congrArg (·, st.2) (emit_behind_of rfl rfl rfl).symm
  · exact congrArg (·, st.2 ++ [co.token.str]) (emit_behind_of rfl rfl rfl).symm

/-- A queued modification is reported behind what waits already. -/
theorem modifyStep_behind (st : Pass W) (mo : BoeModifyOrderReq) :
    passBehind ms (modifyStep E st mo) = modifyStep E (passBehind ms st) mo := by
  unfold modifyStep passBehind
  dsimp only [behind_activeOrders]
  rcases st.1.activeOrders.lookup mo.origToken.str with _ | o
  · rfl
  dsimp only
  -- each of the three updates commutes with what is pending
  have hfirst := subscript_behind ms E.boeOrder
    (st.1.withActive (st.1.activeOrders.insert mo.origToken.str (modified o mo))) mo.token.str
  unfold withActive behind at hfirst
  unfold behind
  dsimp only at hfirst ⊢
  rw [hfirst]
  generalize subscript E.boeOrder { st.1 with
    activeOrders := st.1.activeOrders.insert mo.origToken.str (modified o mo) } mo.token.str = s
  have hsecond := subscript_behind ms E.boeOrder (s.withActive
    ((KeyedMap.swap mo.token.str mo.origToken.str s.activeOrders).erase mo.origToken.str))
    mo.token.str
  unfold withActive behind at hsecond
  dsimp only at hsecond ⊢
  rw [hsecond]
  generalize subscript E.boeOrder { s with
    activeOrders := (KeyedMap.swap mo.token.str mo.origToken.str s.activeOrders).erase
      mo.origToken.str } mo.token.str = s'
  dsimp only
  rcases s'.activeOrders.lookup mo.token.str with _ | bo
  · rfl
  · exact congrArg (·, _) (emit_behind_of rfl rfl rfl).symm

/-- An execution is reported behind what waits already. -/
theorem constructOrderExecuted_behind (s : BoeSession W) (k : Key) (o : BoeOrder) (exeQty : ℤ) :
    constructOrderExecuted E (s.behind ms) k o exeQty =
      (constructOrderExecuted E s k o exeQty).behind ms := by
  unfold constructOrderExecuted
  by_cases hzero : exeQty = 0
  · rw [if_pos hzero, if_pos hzero]
  rw [if_neg hzero, if_neg hzero]
  exact emit_behind_of rfl rfl rfl

/-- A visit reports behind what waits already. -/
theorem executionStep_behind (st : Pass W) (k : Key) :
    passBehind ms (executionStep E st k) = executionStep E (passBehind ms st) k := by
  unfold executionStep passBehind
  dsimp only [behind_activeOrders, behind_env]
  rcases st.1.activeOrders.lookup k with _ | o
  · rfl
  dsimp only
  split
  · rfl
  split
  · exact congrArg (·, st.2) (constructOrderExecuted_behind E ms (st.1.inEnv _) _ _ _).symm
  · rfl

/-- `cancel_all` reports an order behind what waits already. -/
theorem cancelAllStep_behind (st : BoeSession W × ℕ) (k : Key) :
    ((cancelAllStep E st k).1.behind ms, (cancelAllStep E st k).2) =
      cancelAllStep E (st.1.behind ms, st.2) k := by
  unfold cancelAllStep
  dsimp only [behind_activeOrders]
  rcases st.1.activeOrders.lookup k with _ | o
  · rfl
  dsimp only
  split
  · exact congrArg (·, st.2 + 1) (emit_behind_of rfl rfl rfl).symm
  · rfl

/-! ## The passes -/

/-- A tick. -/
theorem marketLogic_behind (s : BoeSession W) :
    marketLogic E (s.behind ms) = (marketLogic E s).behind ms := by
  unfold marketLogic heartbeatLogic cancelLogic modifyLogic executionLogic
  rw [Session.heartbeatLogic_behind, Session.cancelLogic_behind ms (cancelStep_behind E ms),
    Session.modifyLogic_behind ms (modifyStep_behind E ms),
    Session.executionLogic_behind E ms (executionStep_behind E ms)]

/-- `cancel_all` reports behind what waits already and counts the same orders. -/
theorem cancelAll_behind (s : BoeSession W) :
    cancelAll E (s.behind ms) = ((cancelAll E s).1.behind ms, (cancelAll E s).2) :=
  Session.cancelAll_behind E ms (cancelAllStep_behind E ms) s

end

end BoeSession

end Evtsim
