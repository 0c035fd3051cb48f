import Evtsim.Boe.Messages

/-!
# Orders and pending requests (`order.h`, `ouch_order.cpp`, `boe_order.cpp`)

The order classes of both sessions and the requests that wait for the next tick. Quantities are the
64-bit signed integers of the source; `time_t` values are integers. `Ouch_Order::time_in_force` hides
the member of the base class, which is then used for BOE orders alone and is kept there.

`parseOrder` overwrites an order that the constructors have built: what it does not set stays.
-/

namespace Evtsim

open Wire

/-- `evtsim::order` -/
structure Order where
  recvOrderTime : ℤ
  remainingQty : ℤ
  orderID : UInt64
  executedQty : ℤ
  symbol : Fin 8 → UInt8
  side : UInt8
  firm : Fin 4 → UInt8
  capacity : UInt8
  display : UInt8
  remainTimeInForce : Int32
  minQty : UInt32
deriving DecidableEq

/-- `evtsim::Boe_Order` -/
structure BoeOrder extends Order where
  timeInForce : UInt8
  token : Boe.Token
  price : UInt64
deriving DecidableEq

/-- `evtsim::Ouch_Order` -/
structure OuchOrder extends Order where
  timeInForce : UInt32
  intermarketSweepEligibility : UInt8
  price : Int32
  crossType : UInt8
  token : Ouch.Token
  state : Ouch.OrderState
deriving DecidableEq

/-- `Ouch_Order::parse_order` -/
def OuchOrder.parseOrder (o : OuchOrder) (eo : Ouch.EnterOrder) : OuchOrder :=
  { o with
    timeInForce := eo.timeInForce
    remainTimeInForce := eo.timeInForce.toInt32
    token := eo.token
    remainingQty := eo.qty.toNat
    executedQty := 0
    price := eo.price
    minQty := eo.minQty
    symbol := strncpy eo.symbol
    state := .live
    side := eo.side
    crossType := eo.crossType
    intermarketSweepEligibility := eo.intermarketSweepEligibility
    firm := strncpy eo.firm
    display := eo.display
    capacity := eo.capacity }

/-- `Boe_Order::parse_order` -/
def BoeOrder.parseOrder (o : BoeOrder) (no : Boe.NewOrder) : BoeOrder :=
  { o with
    token := no.token
    timeInForce := no.timeInForce
    remainTimeInForce := 0xFFFFFF
    remainingQty := no.qty.toNat
    executedQty := 0
    symbol := strncpy no.symbol
    side := no.side
    firm := strncpy no.clearingFirm
    capacity := no.capacity
    minQty := no.minQty
    price := no.price
    display := no.displayIndicator }

/-- `Boe_Order::still_active` -/
def BoeOrder.stillActive (o : BoeOrder) : Bool :=
  0 < o.remainingQty && o.remainingQty ≤ 1000000

/-- A BOE order is active with one to a million shares left. -/
theorem BoeOrder.stillActive_iff {o : BoeOrder} :
    o.stillActive = true ↔ 0 < o.remainingQty ∧ o.remainingQty ≤ 1000000 := by
  unfold BoeOrder.stillActive
  rw [Bool.and_eq_true, decide_eq_true_eq, decide_eq_true_eq]

/-! ## Requests -/

/-- `Ouch_CancelOrderReq` -/
structure OuchCancelOrderReq where
  token : Ouch.Token
  qty : UInt32
deriving DecidableEq

/-- `Ouch_CancelOrderReq::parse_cancel_order` -/
def OuchCancelOrderReq.parseCancelOrder (co : Ouch.CancelOrder) : OuchCancelOrderReq :=
  { token := co.token, qty := co.qty }

/-- `Ouch_ModifyOrderReq` -/
structure OuchModifyOrderReq where
  token : Ouch.Token
  reqQty : UInt32
  newSide : UInt8
deriving DecidableEq

/-- `Ouch_ModifyOrderReq::parse_modify_order` -/
def OuchModifyOrderReq.parseModifyOrder (mo : Ouch.ModifyOrder) : OuchModifyOrderReq :=
  { token := mo.token, reqQty := mo.qty, newSide := mo.side }

/-- `Ouch_ReplaceOrderReq`; its `price` is unsigned. -/
structure OuchReplaceOrderReq where
  existingToken : Ouch.Token
  newToken : Ouch.Token
  qty : UInt32
  price : UInt32
  timeInForce : UInt32
  display : UInt8
  intermarketSweepEligibility : UInt8
  minQty : UInt32
deriving DecidableEq

/-- `Ouch_ReplaceOrderReq::parse_replace_order` -/
def OuchReplaceOrderReq.parseReplaceOrder (ro : Ouch.ReplaceOrder) : OuchReplaceOrderReq :=
  { existingToken := ro.existingToken
    newToken := ro.token
    qty := ro.qty
    price := ro.price.toUInt32
    timeInForce := ro.timeInForce
    display := ro.display
    intermarketSweepEligibility := ro.intermarketSweepEligibility
    minQty := ro.minQty }

/-- `Boe_CancelOrderReq` -/
structure BoeCancelOrderReq where
  token : Boe.Token
deriving DecidableEq

/-- `Boe_CancelOrderReq::Boe_CancelOrderReq` -/
def BoeCancelOrderReq.parseCancelOrder (co : Boe.CancelOrder) : BoeCancelOrderReq :=
  { token := co.origToken }

/-- `Boe_ModifyOrderReq` -/
structure BoeModifyOrderReq where
  token : Boe.Token
  origToken : Boe.Token
  clearingFirm : Fin 4 → UInt8
  qty : UInt32
  price : UInt64
  orderType : UInt8
  cancelOrigOnReject : UInt8
  execInst : UInt8
  side : UInt8
deriving DecidableEq

/-- `Boe_ModifyOrderReq::parse_modify_order` -/
def BoeModifyOrderReq.parseModifyOrder (mo : Boe.ModifyOrder) : BoeModifyOrderReq :=
  { token := mo.token
    origToken := mo.origToken
    clearingFirm := strncpy mo.clearingFirm
    qty := mo.qty
    price := mo.price
    orderType := mo.orderType
    cancelOrigOnReject := mo.cancelOrigOnReject
    execInst := mo.execInst
    side := mo.side }

end Evtsim
