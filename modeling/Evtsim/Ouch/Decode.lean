import Evtsim.Lib.Reader
import Evtsim.Packets

/-!
# Decoding the packets of OUCH (`ouch_messages.h`)

What a client makes of the bytes that it is sent, struct by struct in the order of the fields, and that
it makes of every packet the message that the packet was made of (`OutMsg.reads_bytes`). The order
reference number of a replaced order is the one number that is sent in the host's order.
-/

namespace Evtsim

open Wire

namespace Ouch

/-! ## Readers -/

def readToken : Reader Token := TokenOf.mk <$> chars 14

def readPrice : Reader Int32 := UInt32.toInt32 <$> be32

def InboundPacketType.read : Reader InboundPacketType :=
  choice [.sequencedData, .loginAccepted, .loginRejected, .serverHeartbeat] code

def InboundMsgType.read : Reader InboundMsgType :=
  choice [.cancelReject, .executed, .orderAccepted, .orderCanceled, .orderModified, .orderRejected,
    .orderReplaced] code

def LoginRejectReason.read : Reader LoginRejectReason :=
  choice [.notAuthorized, .sessionNotAvailable] code

def CancelReason.read : Reader CancelReason :=
  choice [.userRequested, .ioc, .timeOut, .systemCancel] code

def RejectedReason.read : Reader RejectedReason := choice [.exceededConfiguredSafety, .other] code

def OrderState.read : Reader OrderState := choice [.live, .dead] code

def LoginAccepted.read : Reader LoginAccepted := do
  let session ← chars 10
  let seqNum ← chars 20
  return { session, seqNum }

def OrderAccepted.read : Reader OrderAccepted := do
  let timestamp ← be64
  let token ← readToken
  let side ← byte
  let qty ← be32
  let symbol ← chars 8
  let price ← readPrice
  let timeInForce ← be32
  let firm ← chars 4
  let display ← byte
  let orderReferenceNumber ← be64
  let capacity ← byte
  let intermarketSweepEligibility ← byte
  let minQty ← be32
  let crossType ← byte
  let orderState ← OrderState.read
  let bboWeightIndicator ← byte
  return {
    timestamp, token, side, qty, symbol, price, timeInForce, firm, display, orderReferenceNumber
    capacity, intermarketSweepEligibility, minQty, crossType, orderState, bboWeightIndicator }

def OrderReplaced.read : Reader OrderReplaced := do
  let timestamp ← be64
  let token ← readToken
  let side ← byte
  let qty ← be32
  let symbol ← chars 8
  let price ← readPrice
  let timeInForce ← be32
  let firm ← chars 4
  let display ← byte
  let orderReferenceNumber ← le64
  let capacity ← byte
  let intermarketSweepEligibility ← byte
  let minQty ← be32
  let crossType ← byte
  let orderState ← OrderState.read
  let origToken ← readToken
  let bboWeightIndicator ← byte
  return {
    timestamp, token, side, qty, symbol, price, timeInForce, firm, display, orderReferenceNumber
    capacity, intermarketSweepEligibility, minQty, crossType, orderState, origToken
    bboWeightIndicator }

def OrderCanceled.read : Reader OrderCanceled := do
  let timestamp ← be64
  let token ← readToken
  let decrementQty ← be32
  let reason ← CancelReason.read
  return { timestamp, token, decrementQty, reason }

def OrderModified.read : Reader OrderModified := do
  let timestamp ← be64
  let token ← readToken
  let side ← byte
  let shares ← be32
  return { timestamp, token, side, shares }

def OrderRejected.read : Reader OrderRejected := do
  let timestamp ← be64
  let token ← readToken
  let reason ← RejectedReason.read
  return { timestamp, token, reason }

def Executed.read : Reader Executed := do
  let timestamp ← be64
  let token ← readToken
  let executedQty ← be32
  let executionPrice ← readPrice
  let liquidityFlag ← byte
  let matchNumber ← be64
  return { timestamp, token, executedQty, executionPrice, liquidityFlag, matchNumber }

def CancelReject.read : Reader CancelReject := do
  let timestamp ← be64
  let token ← readToken
  return { timestamp, token }

/-- The message that a packet of sequenced data carries. -/
def readSequenced : InboundMsgType → Reader OutMsg
  | .cancelReject => OutMsg.cancelReject <$> CancelReject.read
  | .executed => OutMsg.executed <$> Executed.read
  | .orderAccepted => OutMsg.orderAccepted <$> OrderAccepted.read
  | .orderCanceled => OutMsg.orderCanceled <$> OrderCanceled.read
  | .orderModified => OutMsg.orderModified <$> OrderModified.read
  | .orderRejected => OutMsg.orderRejected <$> OrderRejected.read
  | .orderReplaced => OutMsg.orderReplaced <$> OrderReplaced.read

/-- What stands behind the header of a packet. -/
def readBody : InboundPacketType → Reader OutMsg
  | .sequencedData => InboundMsgType.read >>= readSequenced
  | .loginAccepted => OutMsg.loginAccepted <$> LoginAccepted.read
  | .loginRejected => OutMsg.loginRejected <$> LoginRejectReason.read
  | .serverHeartbeat => return .serverHeartbeat

/-- The message that a packet is. -/
def OutMsg.read : Reader OutMsg := do
  let _length ← be16
  let type ← InboundPacketType.read
  readBody type

/-! ## What they read -/

theorem reads_token (t : Token) : Reads readToken (List.ofFn t.val) t := (reads_chars t.val).map _

/-- A price is read back, the market price too. -/
theorem reads_price (p : Int32) : Reads readPrice (beBytes 4 p.toUInt32.toNat) p :=
  (reads_be32 p.toUInt32).map _

/-- A packet type is read back from its code. -/
theorem InboundPacketType.reads (t : InboundPacketType) : Reads read [t.code] t :=
  reads_choice (by cases t <;> rfl)

/-- A message type is read back from its code. -/
theorem InboundMsgType.reads (t : InboundMsgType) : Reads read [t.code] t :=
  reads_choice (by cases t <;> rfl)

/-- The reason of a refused login is read back from its code. -/
theorem LoginRejectReason.reads (r : LoginRejectReason) : Reads read [r.code] r :=
  reads_choice (by cases r <;> rfl)

/-- The reason of a cancel is read back from its code. -/
theorem CancelReason.reads (r : CancelReason) : Reads read [r.code] r :=
  reads_choice (by cases r <;> rfl)

/-- The reason of a rejection is read back from its code. -/
theorem RejectedReason.reads (r : RejectedReason) : Reads read [r.code] r :=
  reads_choice (by cases r <;> rfl)

/-- An order state is read back from its code. -/
theorem OrderState.reads (s : OrderState) : Reads read [s.code] s :=
  reads_choice (by cases s <;> rfl)

/-- A packet is read by its type. -/
theorem reads_packet {size : ℕ} (hsize : size < 2 ^ 16) {t : InboundPacketType}
    {fields : List (List UInt8)} {m : OutMsg} (h : Reads (readBody t) fields.flatten m) :
    Reads OutMsg.read (packet size t fields) m :=
  (reads_be (k := 2) UInt16.ofNat (by omega)).bind ((InboundPacketType.reads t).bind h)

/-- And a message in sequenced data by its own. -/
theorem reads_sequenced {size : ℕ} (hsize : size < 2 ^ 16) {t : InboundMsgType}
    {fields : List (List UInt8)} {m : OutMsg} (h : Reads (readSequenced t) fields.flatten m) :
    Reads OutMsg.read (sequenced size t fields) m :=
  reads_packet hsize ((InboundMsgType.reads t).field h)

/-- **OUCH packets.** A client makes of every packet the message that it was made of, whatever follows
it. -/
theorem OutMsg.reads_bytes (m : OutMsg) : Reads OutMsg.read m.bytes m := by
  cases m with
  | loginAccepted m =>
    refine reads_packet (by decide) (Reads.map (a := m) ?_ _)
    exact (reads_chars m.session).field ((reads_chars m.seqNum).field (.pure _))
  | loginRejected r =>
    refine reads_packet (by decide) (Reads.map (a := r) ?_ _)
    exact LoginRejectReason.reads r
  | serverHeartbeat => exact reads_packet (by decide) (.pure _)
  | orderAccepted m =>
    refine reads_sequenced (by decide) (Reads.map (a := m) ?_ _)
    exact (reads_be64 _).field <| (reads_token _).field <| (reads_byte _).field <|
      (reads_be32 _).field <| (reads_chars _).field <| (reads_price _).field <|
      (reads_be32 _).field <| (reads_chars _).field <| (reads_byte _).field <|
      (reads_be64 _).field <| (reads_byte _).field <| (reads_byte _).field <|
      (reads_be32 _).field <| (reads_byte _).field <| (OrderState.reads _).field <|
      (reads_byte _).field <| .pure _
  | orderCanceled m =>
    refine reads_sequenced (by decide) (Reads.map (a := m) ?_ _)
    exact (reads_be64 _).field <| (reads_token _).field <| (reads_be32 _).field <|
      (CancelReason.reads _).field <| .pure _
  | orderModified m =>
    refine reads_sequenced (by decide) (Reads.map (a := m) ?_ _)
    exact (reads_be64 _).field <| (reads_token _).field <| (reads_byte _).field <|
      (reads_be32 _).field <| .pure _
  | orderRejected m =>
    refine reads_sequenced (by decide) (Reads.map (a := m) ?_ _)
    exact (reads_be64 _).field <| (reads_token _).field <| (RejectedReason.reads _).field <| .pure _
  | orderReplaced m =>
    refine reads_sequenced (by decide) (Reads.map (a := m) ?_ _)
    exact (reads_be64 _).field <| (reads_token _).field <| (reads_byte _).field <|
      (reads_be32 _).field <| (reads_chars _).field <| (reads_price _).field <|
      (reads_be32 _).field <| (reads_chars _).field <| (reads_byte _).field <|
      (reads_le64 _).field <| (reads_byte _).field <| (reads_byte _).field <|
      (reads_be32 _).field <| (reads_byte _).field <| (OrderState.reads _).field <|
      (reads_token _).field <| (reads_byte _).field <| .pure _
  | executed m =>
    refine reads_sequenced (by decide) (Reads.map (a := m) ?_ _)
    exact (reads_be64 _).field <| (reads_token _).field <| (reads_be32 _).field <|
      (reads_price _).field <| (reads_byte _).field <| (reads_be64 _).field <| .pure _
  | cancelReject m =>
    refine reads_sequenced (by decide) (Reads.map (a := m) ?_ _)
    exact (reads_be64 _).field <| (reads_token _).field <| .pure _

end Ouch

end Evtsim
