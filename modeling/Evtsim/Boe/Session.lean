import Evtsim.Lib.Machine
import Evtsim.Session
import Mathlib.Data.Fin.VecNotation

/-!
# `boe_session`

The functions of `boe_session.cpp`, laid out as those of `ouch_session`: every pass is the fold of its
body over a session and the local `done_tokens`, and a subscript that may find no entry is
`subscript`. Packets are not validated: a handler reads its struct from whatever memory the packet
pointer leads to.
-/

namespace Evtsim

open Wire Boe Session

/-- The member that `boe_session` alone has. -/
structure BoeSession.Own where
  seqNum : UInt32

/-- `boe_session` with the surroundings it runs in. -/
abbrev BoeSession (W : Type) :=
  Session BoeOrder BoeCancelOrderReq BoeModifyOrderReq BoeOrder Boe.OutMsg BoeSession.Own W

namespace Session

variable {O C M R Msg Own W : Type}

/-- `active_orders[k].remaining_qty` of an entry that is there. -/
def remainingAt (s : Session BoeOrder C M R Msg Own W) (k : Key) : ℤ :=
  match s.activeOrders.lookup k with
  | some o => o.remainingQty
  | none => 0

abbrev seqNum (s : Session O C M R Msg BoeSession.Own W) : UInt32 := s.own.seqNum

/-- The session with another sequence number. -/
def withSeqNum (s : Session O C M R Msg BoeSession.Own W) (n : UInt32) :
    Session O C M R Msg BoeSession.Own W :=
  { s with own := { seqNum := n } }

section

variable (s : Session O C M R Msg BoeSession.Own W) (w : W) (m : Msg) (A : KeyedMap Key O) (n : UInt32)

@[simp] theorem emit_seqNum : (s.emit w m).seqNum = s.seqNum := rfl
@[simp] theorem inEnv_seqNum : (s.inEnv w).seqNum = s.seqNum := rfl
@[simp] theorem withActive_seqNum : (s.withActive A).seqNum = s.seqNum := rfl

@[simp] theorem withSeqNum_out : (s.withSeqNum n).pendingOutMessages = s.pendingOutMessages := rfl
@[simp] theorem withSeqNum_state : (s.withSeqNum n).state = s.state := rfl
@[simp] theorem withSeqNum_activeOrders : (s.withSeqNum n).activeOrders = s.activeOrders := rfl
@[simp] theorem withSeqNum_finishedOrders : (s.withSeqNum n).finishedOrders = s.finishedOrders := rfl
@[simp] theorem withSeqNum_pendingModify : (s.withSeqNum n).pendingModify = s.pendingModify := rfl
@[simp] theorem withSeqNum_pendingCancel : (s.withSeqNum n).pendingCancel = s.pendingCancel := rfl
@[simp] theorem withSeqNum_pendingReplace : (s.withSeqNum n).pendingReplace = s.pendingReplace := rfl
@[simp] theorem withSeqNum_seqNum : (s.withSeqNum n).seqNum = n := rfl

end

end Session

namespace BoeSession

variable {W : Type} (E : Env W)

/-- `boe_session::boe_session` and `init`. -/
def init (w : W) : BoeSession W :=
  let t := E.time w
  { env := t.2
    pendingOutMessages := []
    lastSendHeartbeat := t.1
    lastRecvHeartbeat := t.1
    state := .notLoggedIn
    activeOrders := ∅
    finishedOrders := ∅
    pendingModify := []
    pendingCancel := []
    pendingReplace := []
    own := { seqNum := 0 } }

/-! ## Messages to the member -/

/-- `get_timestamp` -/
def getTimestamp (w : W) : UInt64 × W :=
  let now := E.now w
  (UInt64.ofInt now.1, now.2)

/-- `construct_login_response`, in a buffer of zeros. -/
def constructLoginResponse (s : BoeSession W) (status : LoginResponseStatus) (req : LoginRequest) :
    BoeSession W :=
  s.emit s.env (.loginResponse
    { length := 77 + 5 + 5 * 4 + 20 - 2
      header := { matchingUnit := 0, seqNum := 0 }
      status := status.code
      text := fun _ => 0
      noUnspecifiedUnitReplay := req.noUnspecifiedUnitReplay
      lastReceivedSeqNum := 0
      numberOfUnits := 1
      unitNumber := 1
      unitSeqNum := 0
      paramGroups := req.paramGroups })

/-- `construct_modify_rejected` -/
def constructModifyRejected (s : BoeSession W) (t : Token) (r : Reason) : BoeSession W :=
  let raw := E.raw s.env
  let ts := getTimestamp E raw.2
  let mr := ModifyRejected.new raw.1
  s.emit ts.2 (.modifyRejected { mr with
    transactionTime := ts.1
    token := t
    reason := r.code
    text := strcpy mr.text (literal r.text)
    numBitfields := 0 })

/-- `construct_order_modified`; the sequence number stays unset. -/
def constructOrderModified (s : BoeSession W) (bo : BoeOrder) : BoeSession W :=
  let raw := E.raw s.env
  let ts := getTimestamp E raw.2
  s.emit ts.2 (.orderModified { OrderModified.new raw.1 with
    bitfield := ![4, 0, 64, 0, 2]
    price := bo.price
    leavesQty := UInt32.ofInt bo.remainingQty
    qty := UInt32.ofInt (bo.remainingQty + bo.executedQty)
    transactionTime := ts.1
    orderId := bo.orderID
    token := bo.token })

/-- `construct_order_canceled`; the sequence number and `leaves_qty` stay unset. -/
def constructOrderCanceled (s : BoeSession W) (t : Token) : BoeSession W :=
  let raw := E.raw s.env
  let ts := getTimestamp E raw.2
  s.emit ts.2 (.orderCanceled { OrderCanceled.new raw.1 with
    transactionTime := ts.1
    token := t
    reason := Reason.userRequested.code
    bitfield := ![0, 0, 0, 0, 2] })

/-- `construct_cancel_rejected` -/
def constructCancelRejected (s : BoeSession W) (t : Token) (r : Reason) : BoeSession W :=
  let raw := E.raw s.env
  let ts := getTimestamp E raw.2
  let cr := CancelRejected.new raw.1
  s.emit ts.2 (.cancelRejected { cr with
    transactionTime := ts.1
    token := t
    reason := r.code
    numBitfields := 0
    text := strcpy cr.text (literal r.text) })

/-- `construct_order_rejected` -/
def constructOrderRejected (s : BoeSession W) (no : NewOrder) : BoeSession W :=
  let raw := E.raw s.env
  let oj := OrderRejected.new raw.1
  s.emit raw.2 (.orderRejected { oj with
    token := no.token
    reason := 'D'.toUInt8
    text := strcpy oj.text (literal "Duplicate CIOrdID") })

/-- `construct_order_accepted` -/
def constructOrderAccepted (s : BoeSession W) (newOrder : BoeOrder) : BoeSession W :=
  let raw := E.raw s.env
  let ts := getTimestamp E raw.2
  let ack := OrderAck.new raw.1
  (s.withSeqNum (s.seqNum + 1)).emit ts.2 (.orderAck { ack with
    header := { ack.header with seqNum := s.seqNum + 1 }
    transactionTime := ts.1
    orderId := newOrder.orderID
    token := newOrder.token
    numBitfields := 5
    bitfield := ![0, 0, 0, 0, 2]
    leavesQty := UInt32.ofInt newOrder.remainingQty })

/-- `construct_order_executed` on the order held under `k`: `exeQty = 0` fills nothing, a negative
`exeQty` asks `rand()`. -/
def constructOrderExecuted (s : BoeSession W) (k : Key) (o : BoeOrder) (exeQty : ℤ) : BoeSession W :=
  if exeQty = 0 then s
  else
    let raw := E.raw s.env
    let ts := getTimestamp E raw.2
    let a := E.rand ts.2
    let b := E.rand a.2
    let r := if exeQty < 0 then ((1 + (E.rand b.2).1 % 10 : ℤ) * 100, (E.rand b.2).2)
      else (exeQty, b.2)
    let exe := min r.1 o.remainingQty
    let oe := OrderExecution.new raw.1
    let s' := { s.withSeqNum (s.seqNum + 1) with
      activeOrders := s.activeOrders.insert k
        { o with remainingQty := o.remainingQty - exe, executedQty := o.executedQty + exe } }
    s'.emit r.2 (.orderExecution { oe with
      header := { oe.header with seqNum := s.seqNum + 1 }
      transactionTime := ts.1
      token := o.token
      execId := orderNumber a.1 b.1
      lastShares := UInt32.ofInt exe
      lastPrice := o.price
      leavesQty := UInt32.ofInt (o.remainingQty - exe)
      baseLiquidityIndicator := 'A'.toUInt8
      subLiquidityIndicator := 'E'.toUInt8
      contraBroker := ![66, 65, 84, 83] })

/-! ## Handlers of member messages -/

/-- `handle_client_heartbeat` -/
def handleClientHeartbeat (s : BoeSession W) : BoeSession W := Session.handleClientHeartbeat E s

/-- `handle_login_request` -/
def handleLoginRequest (s : BoeSession W) (req : LoginRequest) : BoeSession W :=
  let g := E.gate .login s.env
  let s := { s with env := g.2 }
  if !g.1 then constructLoginResponse s .sessionDisabled req
  else if s.state ≠ .notLoggedIn then constructLoginResponse s .sessionInUse req
  else { constructLoginResponse s .accepted req with state := .loggedIn }

/-- `modify_order` -/
def modifyOrder (s : BoeSession W) (mo : ModifyOrder) : BoeSession W :=
  let t := mo.origToken.str
  if t ∉ s.activeOrders ∧ t ∉ s.finishedOrders then
    constructModifyRejected E s mo.origToken .clordidDoesntMatchAKnownOrder
  else
    let g := E.gate .modifyOrder s.env
    let s := { s with env := g.2 }
    if !g.1 then constructModifyRejected E s mo.origToken .unforeseenReason
    else { s with pendingModify := s.pendingModify ++ [.parseModifyOrder mo] }

/-- `cancel_order`. The second test subscripts, so an unknown token gets an entry made of whatever the
memory held, and the third test never succeeds. -/
def cancelOrder (s : BoeSession W) (co : CancelOrder) : BoeSession W :=
  let t := co.origToken.str
  if t ∈ s.activeOrders ∧ 0 < s.remainingAt t then
    { s with pendingCancel := s.pendingCancel ++ [.parseCancelOrder co] }
  else
    let s := subscript E.boeOrder s t
    if s.remainingAt t ≤ 0 ∨ t ∈ s.finishedOrders then
      constructCancelRejected E s co.origToken .tooLateToCancel
    else if t ∉ s.activeOrders then
      constructCancelRejected E s co.origToken .clordidDoesntMatchAKnownOrder
    else
      let g := E.gate .cancelOrder s.env
      let s := { s with env := g.2 }
      if !g.1 then constructCancelRejected E s co.origToken .unforeseenReason
      else s

/-- `enter_order` -/
def enterOrder (s : BoeSession W) (no : NewOrder) : BoeSession W :=
  let t := no.token.str
  if t ∈ s.activeOrders then constructOrderRejected E s no
  else
    let g := E.gate .newOrder s.env
    let s := { s with env := g.2 }
    if !g.1 then constructOrderRejected E s no
    else
      let n := E.boeOrder s.env
      let newOrder := n.1.parseOrder no
      -- the subscript default-constructs an order before the assignment overwrites it
      let d := E.boeOrder n.2
      let s := { s with env := d.2, activeOrders := s.activeOrders.insert t newOrder }
      constructOrderAccepted E s newOrder

/-- `handle_packet` -/
def handlePacket (s : BoeSession W) (p : Mem) : BoeSession W :=
  let hdr := MsgHeader.ofMem p
  if hdr.type = MsgType.loginRequest.code then handleLoginRequest E s (LoginRequest.ofMem p)
  else if hdr.type = MsgType.clientHeartbeat.code then handleClientHeartbeat E s
  else if hdr.type = MsgType.newOrder.code then enterOrder E s (NewOrder.ofMem p)
  else if hdr.type = MsgType.cancelOrder.code then cancelOrder E s (CancelOrder.ofMem p)
  else if hdr.type = MsgType.modifyOrder.code then modifyOrder E s (ModifyOrder.ofMem p)
  else s

/-! ## The passes of a tick -/

/-- A session in the middle of a pass, with the local `done_tokens`. -/
abbrev Pass (W : Type) := BoeSession W × List Key

/-- `heartbeat_logic` -/
def heartbeatLogic (s : BoeSession W) : BoeSession W := Session.heartbeatLogic E .serverHeartbeat s

/-- The body of `cancel_logic` for one request. -/
def cancelStep (st : Pass W) (co : BoeCancelOrderReq) : Pass W :=
  if co.token.str ∉ st.1.activeOrders then
    (constructCancelRejected E st.1 co.token .tooLateToCancel, st.2)
  else
    let g := E.gate .cancelOrder st.1.env
    let s := { st.1 with env := g.2 }
    if !g.1 then (constructCancelRejected E s co.token .unforeseenReason, st.2)
    else (constructOrderCanceled E s co.token, st.2 ++ [co.token.str])

/-- `cancel_logic` -/
def cancelLogic (s : BoeSession W) : BoeSession W := Session.cancelLogic (cancelStep E) s

/-- The order that an applied modification makes of the target. -/
def modified (o : BoeOrder) (mo : BoeModifyOrderReq) : BoeOrder :=
  { o with
    remainingQty :=
      if (mo.qty.toNat : ℤ) ≤ o.executedQty then 0 else (mo.qty.toNat : ℤ) - o.executedQty
    side := mo.side
    price := mo.price
    token := mo.token
    firm := strncpy mo.clearingFirm }

/-- The body of `modify_logic` for one request. The second subscript with the new token finds no entry
when the two tokens of the request are equal. -/
def modifyStep (st : Pass W) (mo : BoeModifyOrderReq) : Pass W :=
  match st.1.activeOrders.lookup mo.origToken.str with
  | none => st
  | some o =>
    let done := if (mo.qty.toNat : ℤ) ≤ o.executedQty then st.2 ++ [o.token.str] else st.2
    let s := { st.1 with activeOrders := st.1.activeOrders.insert mo.origToken.str (modified o mo) }
    -- change the key in the map
    let s := subscript E.boeOrder s mo.token.str
    let s := { s with
      activeOrders :=
        (KeyedMap.swap mo.token.str mo.origToken.str s.activeOrders).erase mo.origToken.str }
    let s := subscript E.boeOrder s mo.token.str
    match s.activeOrders.lookup mo.token.str with
    | none => (s, done)
    | some bo => (constructOrderModified E s bo, done)

/-- `modify_logic`; the queue keeps its requests. -/
def modifyLogic (s : BoeSession W) : BoeSession W := Session.modifyLogic (modifyStep E) s

/-- The body of `execution_logic` for the order held under `k`. -/
def executionStep (st : Pass W) (k : Key) : Pass W :=
  match st.1.activeOrders.lookup k with
  | none => st
  | some o =>
    let g := E.gate .execution st.1.env
    let s := { st.1 with env := g.2 }
    if !g.1 then (s, st.2)
    else if o.stillActive then
      let q := E.executionQty s.env
      (constructOrderExecuted E { s with env := q.2 } k o q.1, st.2)
    else (finish E.boeOrder s k o, st.2 ++ [k])

/-- `execution_logic` -/
def executionLogic (s : BoeSession W) : BoeSession W := Session.executionLogic E (executionStep E) s

/-- `market_logic` -/
def marketLogic (s : BoeSession W) : BoeSession W :=
  executionLogic E (modifyLogic E (cancelLogic E (heartbeatLogic E s)))

/-! ## The admin console -/

/-- The body of `cancel_all` for the order held under `k`, with the count of cancelled orders. -/
def cancelAllStep (st : BoeSession W × ℕ) (k : Key) : BoeSession W × ℕ :=
  match st.1.activeOrders.lookup k with
  | none => st
  | some o =>
    if o.stillActive then (constructOrderCanceled E st.1 o.token, st.2 + 1) else st

/-- `cancel_all` -/
def cancelAll (s : BoeSession W) : BoeSession W × ℕ := Session.cancelAll E (cancelAllStep E) s

/-! ## Runs -/

/-- What can happen to a session. -/
inductive Event
  | packet (p : Mem)
  | marketLogic
  | cancelAll
  | disconnect

/-- One event. -/
def step (s : BoeSession W) : Event → BoeSession W
  | .packet p => handlePacket E s p
  | .marketLogic => marketLogic E s
  | .cancelAll => (cancelAll E s).1
  | .disconnect => { s with state := .notLoggedIn }

/-- A run of a new session. -/
def run (w : W) (es : List Event) : BoeSession W := Machine.run (step E) (init E w) es

end BoeSession

end Evtsim
