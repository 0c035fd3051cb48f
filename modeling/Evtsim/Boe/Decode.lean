import Evtsim.Lib.Reader
import Evtsim.Packets

/-!
# Decoding the messages of BOE (`boe_messages.h`)

What a member makes of the bytes that it is sent, struct by struct in the order of the fields, and that
it makes of every message the one that was sent (`OutMsg.reads_bytes`).
-/

namespace Evtsim

open Wire

namespace Boe

/-! ## Readers -/

def readToken : Reader Token := TokenOf.mk <$> chars 20

def OutMsgType.read : Reader OutMsgType :=
  choice [.cancelRejected, .loginResponse, .modifyRejected, .orderAck, .orderCanceled,
    .orderExecution, .orderModified, .orderRejected, .serverHeartbeat] code

def LoginResponse.read (length : UInt16) (header : Header) : Reader LoginResponse := do
  let status ← byte
  let text ← chars 60
  let noUnspecifiedUnitReplay ← byte
  let lastReceivedSeqNum ← le32
  let numberOfUnits ← byte
  let unitNumber ← byte
  let unitSeqNum ← le32
  let paramGroups ← chars 40
  return {
    length, header, status, text, noUnspecifiedUnitReplay, lastReceivedSeqNum, numberOfUnits
    unitNumber, unitSeqNum, paramGroups }

def OrderAck.read (header : Header) : Reader OrderAck := do
  let transactionTime ← le64
  let token ← readToken
  let orderId ← le64
  let reserved ← byte
  let numBitfields ← byte
  let bitfield ← chars 5
  let leavesQty ← le32
  return { header, transactionTime, token, orderId, reserved, numBitfields, bitfield, leavesQty }

def OrderRejected.read (header : Header) : Reader OrderRejected := do
  let transactionTime ← le64
  let token ← readToken
  let reason ← byte
  let text ← chars 60
  let reserved ← byte
  let numBitfields ← byte
  return { header, transactionTime, token, reason, text, reserved, numBitfields }

def OrderModified.read (header : Header) : Reader OrderModified := do
  let transactionTime ← le64
  let token ← readToken
  let orderId ← le64
  let reserved ← byte
  let numBitfields ← byte
  let bitfield ← chars 5
  let price ← le64
  let qty ← le32
  let leavesQty ← le32
  return {
    header, transactionTime, token, orderId, reserved, numBitfields, bitfield, price, qty
    leavesQty }

def ModifyRejected.read (header : Header) : Reader ModifyRejected := do
  let transactionTime ← le64
  let token ← readToken
  let reason ← byte
  let text ← chars 60
  let reserved ← byte
  let numBitfields ← byte
  return { header, transactionTime, token, reason, text, reserved, numBitfields }

def OrderCanceled.read (header : Header) : Reader OrderCanceled := do
  let transactionTime ← le64
  let token ← readToken
  let reason ← byte
  let reserved ← byte
  let numBitfields ← byte
  let bitfield ← chars 5
  let leavesQty ← le32
  return { header, transactionTime, token, reason, reserved, numBitfields, bitfield, leavesQty }

def CancelRejected.read (header : Header) : Reader CancelRejected := do
  let transactionTime ← le64
  let token ← readToken
  let reason ← byte
  let text ← chars 60
  let reserved ← byte
  let numBitfields ← byte
  return { header, transactionTime, token, reason, text, reserved, numBitfields }

def OrderExecution.read (header : Header) : Reader OrderExecution := do
  let transactionTime ← le64
  let token ← readToken
  let execId ← le64
  let lastShares ← le32
  let lastPrice ← le64
  let leavesQty ← le32
  let baseLiquidityIndicator ← byte
  let subLiquidityIndicator ← byte
  let contraBroker ← chars 4
  let reserved ← byte
  let numBitfields ← byte
  return {
    header, transactionTime, token, execId, lastShares, lastPrice, leavesQty
    baseLiquidityIndicator, subLiquidityIndicator, contraBroker, reserved, numBitfields }

/-- What stands behind the header of a message. -/
def readBody (length : UInt16) (h : Header) : OutMsgType → Reader OutMsg
  | .cancelRejected => OutMsg.cancelRejected <$> CancelRejected.read h
  | .loginResponse => OutMsg.loginResponse <$> LoginResponse.read length h
  | .modifyRejected => OutMsg.modifyRejected <$> ModifyRejected.read h
  | .orderAck => OutMsg.orderAck <$> OrderAck.read h
  | .orderCanceled => OutMsg.orderCanceled <$> OrderCanceled.read h
  | .orderExecution => OutMsg.orderExecution <$> OrderExecution.read h
  | .orderModified => OutMsg.orderModified <$> OrderModified.read h
  | .orderRejected => OutMsg.orderRejected <$> OrderRejected.read h
  | .serverHeartbeat => return .serverHeartbeat

/-- The message that starts with some bytes. -/
def OutMsg.read : Reader OutMsg := do
  let _startOfMsg ← chars 2
  let length ← le16
  let type ← OutMsgType.read
  let matchingUnit ← byte
  let seqNum ← le32
  readBody length { matchingUnit, seqNum } type

/-! ## What they read -/

/-- A token is read back from its characters. -/
theorem reads_token (t : Token) : Reads readToken (List.ofFn t.val) t := (reads_chars t.val).map _

/-- A message type is read back from its code. -/
theorem OutMsgType.reads (t : OutMsgType) : Reads read [t.code] t :=
  reads_choice (by cases t <;> rfl)

/-- A message is read by its type, with the length and the header that it came with. -/
theorem reads_packet (length : UInt16) {t : OutMsgType} {h : Header} {fields : List (List UInt8)}
    {m : OutMsg} (hbody : Reads (readBody length h t) fields.flatten m) :
    Reads OutMsg.read (packet length.toNat t h fields) m := by
  have hstart : Reads (chars 2) [0xBA, 0xBA] fun _ => 0xBA := reads_chars fun _ => 0xBA
  exact hstart.bind <| (reads_le16 length).bind <| (OutMsgType.reads t).bind <|
    (reads_byte h.matchingUnit).bind <| (reads_le32 h.seqNum).bind hbody

/-- **BOE messages.** A member makes of every message the one that was sent, whatever follows it. -/
theorem OutMsg.reads_bytes (m : OutMsg) : Reads OutMsg.read m.bytes m := by
  cases m with
  | loginResponse m =>
    refine reads_packet m.length (Reads.map (a := m) ?_ _)
    exact (reads_byte _).field <| (reads_chars _).field <| (reads_byte _).field <|
      (reads_le32 _).field <| (reads_byte _).field <| (reads_byte _).field <|
      (reads_le32 _).field <| (reads_chars _).field <| .pure _
  | serverHeartbeat => exact reads_packet 8 (.pure _)
  | orderAck m =>
    refine reads_packet 55 (Reads.map (a := m) ?_ _)
    exact (reads_le64 _).field <| (reads_token _).field <| (reads_le64 _).field <|
      (reads_byte _).field <| (reads_byte _).field <| (reads_chars _).field <|
      (reads_le32 _).field <| .pure _
  | orderRejected m =>
    refine reads_packet 99 (Reads.map (a := m) ?_ _)
    exact (reads_le64 _).field <| (reads_token _).field <| (reads_byte _).field <|
      (reads_chars _).field <| (reads_byte _).field <| (reads_byte _).field <| .pure _
  | orderModified m =>
    refine reads_packet 67 (Reads.map (a := m) ?_ _)
    exact (reads_le64 _).field <| (reads_token _).field <| (reads_le64 _).field <|
      (reads_byte _).field <| (reads_byte _).field <| (reads_chars _).field <|
      (reads_le64 _).field <| (reads_le32 _).field <| (reads_le32 _).field <| .pure _
  | modifyRejected m =>
    refine reads_packet 99 (Reads.map (a := m) ?_ _)
    exact (reads_le64 _).field <| (reads_token _).field <| (reads_byte _).field <|
      (reads_chars _).field <| (reads_byte _).field <| (reads_byte _).field <| .pure _
  | orderCanceled m =>
    refine reads_packet 48 (Reads.map (a := m) ?_ _)
    exact (reads_le64 _).field <| (reads_token _).field <| (reads_byte _).field <|
      (reads_byte _).field <| (reads_byte _).field <| (reads_chars _).field <|
      (reads_le32 _).field <| .pure _
  | cancelRejected m =>
    refine reads_packet 99 (Reads.map (a := m) ?_ _)
    exact (reads_le64 _).field <| (reads_token _).field <| (reads_byte _).field <|
      (reads_chars _).field <| (reads_byte _).field <| (reads_byte _).field <| .pure _
  | orderExecution m =>
    refine reads_packet 68 (Reads.map (a := m) ?_ _)
    exact (reads_le64 _).field <| (reads_token _).field <| (reads_le64 _).field <|
      (reads_le32 _).field <| (reads_le64 _).field <| (reads_le32 _).field <|
      (reads_byte _).field <| (reads_byte _).field <| (reads_chars _).field <|
      (reads_byte _).field <| (reads_byte _).field <| .pure _

end Boe

end Evtsim
