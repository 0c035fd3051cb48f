import Evtsim.Lib.Machine
import Evtsim.Session

/-!
# `ouch_session`

The functions of `ouch_session.cpp`, each on the whole session state. A loop over a batch of requests
or over the active orders is the fold of its body (`cancelStep`, `modifyStep`, `replaceStep`,
`executionStep`) over a session and the local `done_tokens`. `activeOrders[k]` on the left of an
update is an `insert`; a subscript that may find no entry is `subscript`, which constructs one as the
source does.

`pendingOutMessages` collects every message of a run: the server that sends and clears it is not part
of the session. Warnings written to the log are left out, and with them the `len` argument of the
handlers, which is only logged.
-/

namespace Evtsim

open Wire Ouch Session

/-- The members that `ouch_session` alone uses. -/
structure OuchSession.Own where
  /-- Whether `l` points to a logger. -/
  l : Bool
  /-- Seconds since the epoch. -/
  startOfDay : ℤ

/-- `ouch_session` with the surroundings it runs in. -/
abbrev OuchSession (W : Type) :=
  Session OuchOrder OuchCancelOrderReq OuchModifyOrderReq OuchReplaceOrderReq Ouch.OutMsg OuchSession.Own W

namespace Session

variable {O C M R Msg W : Type}

/-- Whether `l` points to a logger. -/
abbrev l (s : Session O C M R Msg OuchSession.Own W) : Bool := s.own.l

section

variable (s : Session O C M R Msg OuchSession.Own W) (w : W) (m : Msg) (A : KeyedMap Key O) (ms : List Msg)

@[simp] theorem emit_l : (s.emit w m).l = s.l := rfl
@[simp] theorem inEnv_l : (s.inEnv w).l = s.l := rfl
@[simp] theorem withActive_l : (s.withActive A).l = s.l := rfl
@[simp] theorem behind_l : (s.behind ms).l = s.l := rfl

end

end Session

namespace OuchSession

variable {W : Type} (E : Env W)

/-- `ouch_session::ouch_session` and `init`. -/
def init (w : W) : OuchSession W :=
  let t := E.time w
  let t1 := E.time t.2
  { env := t1.2
    pendingOutMessages := []
    lastSendHeartbeat := t.1
    lastRecvHeartbeat := t.1
    state := .notLoggedIn
    activeOrders := ∅
    finishedOrders := ∅
    pendingCancel := []
    pendingModify := []
    pendingReplace := []
    own := { l := false, startOfDay := E.midnight t1.1 } }

/-! ## Messages to the client -/

/-- `get_timestamp` -/
def getTimestamp (s : OuchSession W) (w : W) : UInt64 × W :=
  let now := E.now w
  (UInt64.ofInt (now.1 - s.own.startOfDay * 1000000000), now.2)

/-- `to_string` of an unsigned number. -/
def decimal (n : UInt32) : List UInt8 := (Nat.toDigits 10 n.toNat).map Char.toUInt8

/-- Text at the right end of a field of spaces. -/
def padLeft {n : ℕ} (text : List UInt8) : Fin n → UInt8 :=
  fun i => (List.replicate (n - text.length) ' '.toUInt8 ++ text).getD i ' '.toUInt8

/-- `construct_login_accepted` -/
def constructLoginAccepted (s : OuchSession W) (sessionNum seqNum : UInt32) : OuchSession W :=
  s.emit s.env (.loginAccepted
    { session := padLeft (decimal sessionNum), seqNum := padLeft (decimal seqNum) })

/-- `construct_login_rejected` -/
def constructLoginRejected (s : OuchSession W) (r : LoginRejectReason) : OuchSession W :=
  s.emit s.env (.loginRejected r)

/-- `construct_cancel_rejected` -/
def constructCancelRejected (s : OuchSession W) (t : Token) : OuchSession W :=
  let ts := getTimestamp E s s.env
  s.emit ts.2 (.cancelReject { timestamp := ts.1, token := t })

/-- `construct_order_accepted` -/
def constructOrderAccepted (s : OuchSession W) (o : OuchOrder) : OuchSession W :=
  let ts := getTimestamp E s s.env
  s.emit ts.2 (.orderAccepted
    { timestamp := ts.1
      token := o.token
      side := o.side
      qty := UInt32.ofInt o.remainingQty
      symbol := strncpy o.symbol
      price := o.price
      timeInForce := o.timeInForce
      firm := strncpy o.firm
      display := o.display
      orderReferenceNumber := o.orderID
      capacity := o.capacity
      intermarketSweepEligibility := o.intermarketSweepEligibility
      minQty := o.minQty
      crossType := o.crossType
      orderState := .live
      bboWeightIndicator := '2'.toUInt8 })

/-- `construct_order_rejected` -/
def constructOrderRejected (s : OuchSession W) (reason : RejectedReason) (t : Token) :
    OuchSession W :=
  let ts := getTimestamp E s s.env
  s.emit ts.2 (.orderRejected { timestamp := ts.1, token := t, reason := reason })

/-- `construct_order_canceled` -/
def constructOrderCanceled (s : OuchSession W) (decQty : UInt32) (reason : CancelReason)
    (t : Token) : OuchSession W :=
  let ts := getTimestamp E s s.env
  s.emit ts.2 (.orderCanceled
    { timestamp := ts.1, token := t, decrementQty := decQty, reason := reason })

/-- `construct_order_modified` -/
def constructOrderModified (s : OuchSession W) (remainingQty : UInt32) (mo : OuchModifyOrderReq) :
    OuchSession W :=
  let ts := getTimestamp E s s.env
  s.emit ts.2 (.orderModified
    { timestamp := ts.1, token := mo.token, side := mo.newSide, shares := remainingQty })

/-- `construct_order_replaced`; `display`, `intermarket_sweep_eligibility` and `cross_type` are never
set, so they come from the memory of the struct. -/
def constructOrderReplaced (s : OuchSession W) (ro : OuchReplaceOrderReq) (newOrder : OuchOrder) :
    OuchSession W :=
  let raw := E.raw s.env
  let ts := getTimestamp E s raw.2
  s.emit ts.2 (.orderReplaced
    { timestamp := ts.1
      token := newOrder.token
      side := newOrder.side
      qty := UInt32.ofInt newOrder.remainingQty
      symbol := strncpy newOrder.symbol
      price := newOrder.price
      timeInForce := newOrder.timeInForce
      firm := strncpy newOrder.firm
      display := raw.1 51
      orderReferenceNumber := newOrder.orderID
      capacity := newOrder.capacity
      intermarketSweepEligibility := raw.1 61
      minQty := newOrder.minQty
      crossType := raw.1 66
      orderState := .live
      origToken := ro.existingToken
      bboWeightIndicator := '2'.toUInt8 })

/-- `construct_order_executed` on the order held under `k`: `exeQty = 0` fills nothing, a negative
`exeQty` asks `rand()`. -/
def constructOrderExecuted (s : OuchSession W) (k : Key) (o : OuchOrder) (exeQty : ℤ) :
    OuchSession W :=
  if exeQty = 0 then s
  else
    let r := if exeQty < 0 then ((1 + (E.rand s.env).1 % 10 : ℤ) * 100, (E.rand s.env).2)
      else (exeQty, s.env)
    let exe := min r.1 o.remainingQty
    if o.minQty ≠ 0 ∧ (o.minQty.toNat : ℤ) < exe then { s with env := r.2 }
    else
      let ts := getTimestamp E s r.2
      let mn := getTimestamp E s ts.2
      let s := { s with
        activeOrders := s.activeOrders.insert k
          { o with remainingQty := o.remainingQty - exe, executedQty := o.executedQty + exe } }
      s.emit mn.2 (.executed
        { timestamp := ts.1
          token := o.token
          executedQty := UInt32.ofInt exe
          executionPrice := o.price
          liquidityFlag := 'R'.toUInt8
          matchNumber := mn.1 })

/-! ## Validation -/

/-- `big_to_native(packet->length) == sizeof(...) - 2` -/
def hasLength (p : Mem) (size : ℕ) : Bool := (byteSwap16 (MsgHeader.ofMem p).length).toNat = size - 2

/-- Whether a byte is one of the given characters. -/
def oneOf (b : UInt8) (cs : List Char) : Bool := cs.any fun c => c.toUInt8 == b

/-- A price of at most 1999999900, or the market price 2147483647. -/
def priceOk (price : Int32) : Bool := !(1999999900 < price && price != 2147483647)

def displayOk (b : UInt8) : Bool := oneOf b ['A', 'Y', 'N', 'P', 'I', 'M', 'W', 'L', 'O', 'T', 'Q']

def sweepOk (b : UInt8) : Bool := oneOf b ['Y', 'N', 'y']

/-- `[[:space:]]*[[:digit:]]+` on the whole of a string. -/
def matchesSeqNum (bs : List UInt8) : Bool :=
  let isSpace : UInt8 → Bool := fun b => b == 32 || (9 ≤ b && b ≤ 13)
  let rest := bs.dropWhile isSpace
  rest != [] && rest.all fun b => 48 ≤ b && b ≤ 57

def validateLoginRequest (p : Mem) : Bool :=
  hasLength p sizeofLoginRequest && matchesSeqNum (List.ofFn (LoginRequest.ofMem p).requestedSeqNum)

def validateLogoutRequest (p : Mem) : Bool := hasLength p sizeofLogoutRequest

def validateClientHeartbeat (p : Mem) : Bool := hasLength p sizeofClientHeartbeat

def validateEnterOrder (p : Mem) : Bool :=
  let eo := (EnterOrder.ofMem p).fromNetwork
  hasLength p sizeofEnterOrder && oneOf eo.side ['B', 'S', 'T', 'E'] && priceOk eo.price &&
    (0 < eo.qty && eo.qty ≤ 1000000) && displayOk eo.display &&
    sweepOk eo.intermarketSweepEligibility &&
    oneOf eo.crossType ['N', 'O', 'C', 'H', 'S', 'R'] && oneOf eo.customerType [' ', 'R', 'N']

def validateReplaceOrder (p : Mem) : Bool :=
  let ro := (ReplaceOrder.ofMem p).fromNetwork
  hasLength p sizeofReplaceOrder && (0 < ro.qty && ro.qty ≤ 1000000) && displayOk ro.display &&
    sweepOk ro.intermarketSweepEligibility && priceOk ro.price

def validateCancelOrder (p : Mem) : Bool :=
  hasLength p sizeofCancelOrder && (CancelOrder.ofMem p).fromNetwork.qty ≤ 1000000

def validateModifyOrder (p : Mem) : Bool :=
  hasLength p sizeofModifyOrder && (ModifyOrder.ofMem p).fromNetwork.qty ≤ 1000000

/-- `validate`; a session whose logger has not been set throws. -/
def validate (s : OuchSession W) (p : Mem) : Except String Bool :=
  let h := MsgHeader.ofMem p
  if !s.l then .error "evtsim::Logger has not been set"
  else if h.packetType = PacketType.loginRequest.code then .ok (validateLoginRequest p)
  else if h.packetType = PacketType.logoutRequest.code then .ok (validateLogoutRequest p)
  else if h.packetType = PacketType.clientHeartbeat.code then .ok (validateClientHeartbeat p)
  else if h.packetType = PacketType.unsequencedData.code then
    if h.msgType = OutboundMsgType.enterOrder.code then .ok (validateEnterOrder p)
    else if h.msgType = OutboundMsgType.replaceOrder.code then .ok (validateReplaceOrder p)
    else if h.msgType = OutboundMsgType.cancelOrder.code then .ok (validateCancelOrder p)
    else if h.msgType = OutboundMsgType.modifyOrder.code then .ok (validateModifyOrder p)
    else .ok false
  else .ok false

/-! ## Handlers of client messages

The order handlers take the struct after `from_network`. -/

/-- `handle_login_request` -/
def handleLoginRequest (s : OuchSession W) : OuchSession W :=
  if s.state ≠ .notLoggedIn then constructLoginRejected s .sessionNotAvailable
  else
    let g := E.gate .login s.env
    let s := { s with env := g.2 }
    if !g.1 then constructLoginRejected s .notAuthorized
    else constructLoginAccepted { s with state := .loggedIn } 0 0

/-- `handle_logout_request` -/
def handleLogoutRequest (s : OuchSession W) : OuchSession W := { s with state := .notLoggedIn }

/-- `handle_client_heartbeat` -/
def handleClientHeartbeat (s : OuchSession W) : OuchSession W := Session.handleClientHeartbeat E s

/-- `enter_order` -/
def enterOrder (s : OuchSession W) (eo : EnterOrder) : OuchSession W :=
  if maxShares < eo.qty then constructOrderRejected E s .exceededConfiguredSafety eo.token
  else if s.state ≠ .loggedIn then constructOrderRejected E s .other eo.token
  else
    let g := E.gate .newOrder s.env
    let s := { s with env := g.2 }
    if !g.1 then constructOrderRejected E s .other eo.token
    else if eo.token.str ∉ s.activeOrders ∧ eo.token.str ∉ s.finishedOrders then
      let n := E.ouchOrder s.env
      let newOrder := n.1.parseOrder eo
      -- the subscript default-constructs an order before the assignment overwrites it
      let d := E.ouchOrder n.2
      let s := { s with
        env := d.2, activeOrders := s.activeOrders.insert eo.token.str newOrder }
      constructOrderAccepted E s newOrder
    else s

/-- `modify_order` -/
def modifyOrder (s : OuchSession W) (mo : ModifyOrder) : OuchSession W :=
  if mo.token.str ∉ s.activeOrders then s
  else
    let g := E.gate .modifyOrder s.env
    let s := { s with env := g.2 }
    if !g.1 then s
    else { s with pendingModify := s.pendingModify ++ [.parseModifyOrder mo] }

/-- `replace_order` -/
def replaceOrder (s : OuchSession W) (ro : ReplaceOrder) : OuchSession W :=
  let g := E.gate .replaceOrder s.env
  let s := { s with env := g.2 }
  if !g.1 then s
  else { s with pendingReplace := s.pendingReplace ++ [.parseReplaceOrder ro] }

/-- `cancel_order` -/
def cancelOrder (s : OuchSession W) (co : CancelOrder) : OuchSession W :=
  if co.token.str ∉ s.activeOrders then s
  else
    let g := E.gate .cancelOrder s.env
    let s := { s with env := g.2 }
    if !g.1 then s
    else { s with pendingCancel := s.pendingCancel ++ [.parseCancelOrder co] }

/-- `handle_message` -/
def handleMessage (s : OuchSession W) (p : Mem) : OuchSession W :=
  let h := MsgHeader.ofMem p
  if h.msgType = OutboundMsgType.enterOrder.code then
    enterOrder E s (EnterOrder.ofMem p).fromNetwork
  else if h.msgType = OutboundMsgType.replaceOrder.code then
    replaceOrder E s (ReplaceOrder.ofMem p).fromNetwork
  else if h.msgType = OutboundMsgType.cancelOrder.code then
    cancelOrder E s (CancelOrder.ofMem p).fromNetwork
  else if h.msgType = OutboundMsgType.modifyOrder.code then
    modifyOrder E s (ModifyOrder.ofMem p).fromNetwork
  else s

/-- `handle_packet` -/
def handlePacket (s : OuchSession W) (p : Mem) : Except String (OuchSession W) :=
  match validate s p with
  | .error e => .error e
  | .ok false => .ok s
  | .ok true =>
    let h := MsgHeader.ofMem p
    if h.packetType = PacketType.loginRequest.code then .ok (handleLoginRequest E s)
    else if h.packetType = PacketType.logoutRequest.code then .ok (handleLogoutRequest s)
    else if h.packetType = PacketType.clientHeartbeat.code then .ok (handleClientHeartbeat E s)
    else if h.packetType = PacketType.unsequencedData.code then .ok (handleMessage E s p)
    else .ok s

/-! ## The passes of a tick -/

/-- A session in the middle of a pass, with the local `done_tokens`. -/
abbrev Pass (W : Type) := OuchSession W × List Key

/-- `heartbeat_logic` -/
def heartbeatLogic (s : OuchSession W) : OuchSession W := Session.heartbeatLogic E .serverHeartbeat s

/-- The body of `cancel_logic` for one request. -/
def cancelStep (st : Pass W) (co : OuchCancelOrderReq) : Pass W :=
  match st.1.activeOrders.lookup co.token.str with
  | none => (constructCancelRejected E st.1 co.token, st.2)
  | some o =>
    let g := E.gate .cancelOrder st.1.env
    let s := { st.1 with env := g.2 }
    if !g.1 then (constructCancelRejected E s co.token, st.2)
    else
      let currQty := UInt32.ofInt o.remainingQty
      if co.qty = 0 then
        (constructOrderCanceled E s currQty .userRequested co.token, st.2 ++ [co.token.str])
      -- a request for no less than there is has no answer
      else if currQty ≤ co.qty then (s, st.2)
      else
        let s := { s with
          activeOrders := s.activeOrders.insert co.token.str
            { o with remainingQty := co.qty.toNat } }
        (constructOrderCanceled E s (currQty - co.qty) .userRequested co.token, st.2)

/-- `cancel_logic` -/
def cancelLogic (s : OuchSession W) : OuchSession W := Session.cancelLogic (cancelStep E) s

/-- Whether a request gets past the switch of `modify_logic`. The cases fall through: a sell order
goes through all three tests. -/
def passesSideSwitch (side newSide : UInt8) : Bool :=
  let sell := newSide == Side.sellShort || newSide == Side.sellShortExempt
  let sellShortExempt := newSide == Side.sellShort || newSide == Side.sell
  let sellShort := newSide == Side.sellShortExempt || newSide == Side.sell
  if side = Side.sell then sell && sellShortExempt && sellShort
  else if side = Side.sellShortExempt then sellShortExempt && sellShort
  else if side = Side.sellShort then sellShort
  else true

/-- The body of `modify_logic` for one request. -/
def modifyStep (st : Pass W) (mo : OuchModifyOrderReq) : Pass W :=
  match st.1.activeOrders.lookup mo.token.str with
  | none => st
  | some o =>
    if !passesSideSwitch o.side mo.newSide then st
    else if (mo.reqQty.toNat : ℤ) ≤ o.executedQty then
      (constructOrderModified E st.1 0 mo, st.2 ++ [o.token.str])
    else
      let remaining := (mo.reqQty.toNat : ℤ) - o.executedQty
      let s := { st.1 with
        activeOrders := st.1.activeOrders.insert mo.token.str
          { o with side := mo.newSide, remainingQty := remaining } }
      (constructOrderModified E s (UInt32.ofInt remaining) mo, st.2)

/-- `modify_logic`; the queue keeps its requests. -/
def modifyLogic (s : OuchSession W) : OuchSession W := Session.modifyLogic (modifyStep E) s

/-- The order that an applied replacement makes of the existing one. -/
def replaced (o : OuchOrder) (ro : OuchReplaceOrderReq) : OuchOrder :=
  { o with
    token := ro.newToken
    remainingQty := (ro.qty.toNat : ℤ) - o.executedQty
    timeInForce := ro.timeInForce
    remainTimeInForce := ro.timeInForce.toInt32
    price := ro.price.toInt32
    intermarketSweepEligibility := ro.intermarketSweepEligibility }

/-- The test by which a replacement cancels its order instead. -/
def replaceCancels (ro : OuchReplaceOrderReq) (executedQty : ℤ) : Bool :=
  maxShares < ro.qty || (ro.qty.toNat : ℤ) ≤ executedQty

/-- The body of `replace_logic` for one request. The first subscript makes the test that follows it
succeed always. -/
def replaceStep (st : Pass W) (ro : OuchReplaceOrderReq) : Pass W :=
  let t := ro.existingToken.str
  let s := subscript E.ouchOrder st.1 t
  match s.activeOrders.lookup t with
  | none => (s, st.2)
  | some o =>
    if replaceCancels ro o.executedQty then
      (constructOrderCanceled E s (UInt32.ofInt o.remainingQty) .systemCancel ro.existingToken,
        st.2 ++ [t])
    else
      let s := { s with activeOrders := s.activeOrders.insert t (replaced o ro) }
      let s := constructOrderReplaced E s ro (replaced o ro)
      let s := subscript E.ouchOrder s ro.newToken.str
      ({ s with activeOrders := (KeyedMap.swap t ro.newToken.str s.activeOrders).erase t }, st.2)

/-- `replace_logic` -/
def replaceLogic (s : OuchSession W) : OuchSession W :=
  { finishPass (Machine.run (replaceStep E) (s, []) s.pendingReplace) with pendingReplace := [] }

/-- The body of `execution_logic` for the order held under `k`. -/
def executionStep (st : Pass W) (k : Key) : Pass W :=
  match st.1.activeOrders.lookup k with
  | none => st
  | some o =>
    let g := E.gate .execution st.1.env
    let s := { st.1 with env := g.2 }
    if !g.1 then (s, st.2)
    else
      let ex := o.expired E s.env
      let o := ex.2.1
      let s := { s with env := ex.2.2, activeOrders := s.activeOrders.insert k o }
      if ex.1 then
        (constructOrderCanceled E s (UInt32.ofInt o.remainingQty) .timeOut o.token, st.2 ++ [k])
      else if o.timeInForce = 0 then
        if o.remainingQty ≠ 0 then
          (constructOrderCanceled E s (UInt32.ofInt o.remainingQty) .ioc o.token, st.2 ++ [k])
        else (s, st.2 ++ [k])
      else
        let a := o.stillActive E s.env
        let o := a.2.1
        let s := { s with env := a.2.2, activeOrders := s.activeOrders.insert k o }
        if a.1 then (constructOrderExecuted E s k o (-1), st.2)
        else (finish E.ouchOrder s k o, st.2 ++ [k])

/-- `execution_logic` -/
def executionLogic (s : OuchSession W) : OuchSession W := Session.executionLogic E (executionStep E) s

/-- `market_logic` of the base class. -/
def marketLogic (s : OuchSession W) : OuchSession W :=
  executionLogic E (replaceLogic E (modifyLogic E (cancelLogic E (heartbeatLogic E s))))

/-! ## The admin console -/

/-- The body of `cancel_all` for the order held under `k`, with the count of cancelled orders. -/
def cancelAllStep (st : OuchSession W × ℕ) (k : Key) : OuchSession W × ℕ :=
  match st.1.activeOrders.lookup k with
  | none => st
  | some o =>
    let a := o.stillActive E st.1.env
    let o := a.2.1
    let s := { st.1 with env := a.2.2, activeOrders := st.1.activeOrders.insert k o }
    if a.1 then
      (constructOrderCanceled E s (UInt32.ofInt o.remainingQty) .systemCancel o.token, st.2 + 1)
    else (s, st.2)

/-- `cancel_all` -/
def cancelAll (s : OuchSession W) : OuchSession W × ℕ := Session.cancelAll E (cancelAllStep E) s

/-! ## Runs -/

/-- What can happen to a session. -/
inductive Event
  | setLogger
  | packet (p : Mem)
  | marketLogic
  | cancelAll
  | disconnect

/-- One event. An exception leaves the session as it found it. -/
def step (s : OuchSession W) : Event → OuchSession W
  | .setLogger => { s with own := { s.own with l := true } }
  | .packet p =>
    match handlePacket E s p with
    | .ok s' => s'
    | .error _ => s
  | .marketLogic => marketLogic E s
  | .cancelAll => (cancelAll E s).1
  | .disconnect => { s with state := .notLoggedIn }

/-- A run of a new session. -/
def run (w : W) (es : List Event) : OuchSession W := Machine.run (step E) (init E w) es

end OuchSession

end Evtsim
