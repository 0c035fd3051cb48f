import Evtsim.Ouch.Messages

/-!
# BOE messages (`boe_messages.h`)

Everything on the wire is little-endian, so client messages are read from memory as they stand. The
header of every message has `start_of_msg`, `length` and `type` fixed by its struct, and the fields
`matching_unit` and `seq_num` are kept with each message.

`new` is the constructor of a message struct run in the raw memory `m`: a field that the constructor
does not initialise keeps what the memory held.
-/

namespace Evtsim

open Wire

namespace Boe

/-- `boe::MsgType`, the values that `handle_packet` dispatches on. -/
inductive MsgType
  | cancelOrder | clientHeartbeat | loginRequest | modifyOrder | newOrder
deriving DecidableEq

def MsgType.code : MsgType → UInt8
  | cancelOrder => 0x39
  | clientHeartbeat => 0x03
  | loginRequest => 0x37
  | modifyOrder => 0x3a
  | newOrder => 0x38

/-- `boe::LoginResponseStatus`, the values that the session answers with. -/
inductive LoginResponseStatus
  | accepted | sessionDisabled | sessionInUse
deriving DecidableEq

def LoginResponseStatus.code : LoginResponseStatus → UInt8
  | accepted => 'A'.toUInt8
  | sessionDisabled => 'D'.toUInt8
  | sessionInUse => 'B'.toUInt8

/-- `boe::Reason`, the values that the session gives. -/
inductive Reason
  | tooLateToCancel | clordidDoesntMatchAKnownOrder | userRequested | unforeseenReason
deriving DecidableEq

def Reason.code : Reason → UInt8
  | tooLateToCancel => 'J'.toUInt8
  | clordidDoesntMatchAKnownOrder => 'O'.toUInt8
  | userRequested => 'U'.toUInt8
  | unforeseenReason => 'Z'.toUInt8

/-- `to_string(Reason)` -/
def Reason.text : Reason → String
  | tooLateToCancel => "Too late to cancel"
  | clordidDoesntMatchAKnownOrder => "Clordid doesn't match a known order"
  | userRequested => "User requested"
  | unforeseenReason => "Unforeseen reason"

/-- The bytes of a C string literal. -/
def literal (s : String) : List UInt8 := s.toList.map Char.toUInt8

/-- `boe::Token` -/
abbrev Token := TokenOf 20

def Token.ofMem (m : Mem) (off : ℕ) : Token := ⟨m.chars off 20⟩

/-! ## Member to BOE -/

/-- `MsgHeader`, the field that the session reads. -/
structure MsgHeader where
  type : UInt8

def MsgHeader.ofMem (m : Mem) : MsgHeader := { type := m 4 }

/-- What the login response echoes of a `LoginRequest`: `replay.no_unspecified_unit_replay` and the
bytes from `order_ack` to the end. -/
structure LoginRequest where
  noUnspecifiedUnitReplay : UInt8
  paramGroups : Fin 40 → UInt8

def LoginRequest.ofMem (m : Mem) : LoginRequest :=
  { noUnspecifiedUnitReplay := m 32, paramGroups := m.chars 34 40 }

structure NewOrder where
  token : Token
  side : UInt8
  qty : UInt32
  clearingFirm : Fin 4 → UInt8
  price : UInt64
  timeInForce : UInt8
  minQty : UInt32
  symbol : Fin 8 → UInt8
  capacity : UInt8
  displayIndicator : UInt8

def NewOrder.ofMem (m : Mem) : NewOrder :=
  { token := Token.ofMem m 10
    side := m 30
    qty := m.u32 31
    clearingFirm := m.chars 42 4
    price := m.u64 50
    timeInForce := m 60
    minQty := m.u32 61
    symbol := m.chars 69 8
    capacity := m 77
    displayIndicator := m 98 }

structure CancelOrder where
  origToken : Token

def CancelOrder.ofMem (m : Mem) : CancelOrder := { origToken := Token.ofMem m 10 }

structure ModifyOrder where
  token : Token
  origToken : Token
  clearingFirm : Fin 4 → UInt8
  qty : UInt32
  price : UInt64
  orderType : UInt8
  cancelOrigOnReject : UInt8
  execInst : UInt8
  side : UInt8

def ModifyOrder.ofMem (m : Mem) : ModifyOrder :=
  { token := Token.ofMem m 10
    origToken := Token.ofMem m 30
    clearingFirm := m.chars 53 4
    qty := m.u32 57
    price := m.u64 61
    orderType := m 69
    cancelOrigOnReject := m 70
    execInst := m 71
    side := m 72 }

/-! ## BOE to member -/

/-- `matching_unit` and `seq_num` of the header. -/
structure Header where
  matchingUnit : UInt8
  seqNum : UInt32
deriving DecidableEq

/-- A login response as it is put together in its buffer: the struct, one `UnitSequence`, and the
parameter groups of the request. -/
structure LoginResponse where
  length : UInt16
  header : Header
  status : UInt8
  text : Fin 60 → UInt8
  noUnspecifiedUnitReplay : UInt8
  lastReceivedSeqNum : UInt32
  numberOfUnits : UInt8
  unitNumber : UInt8
  unitSeqNum : UInt32
  paramGroups : Fin 40 → UInt8
deriving DecidableEq

structure OrderAck where
  header : Header
  transactionTime : UInt64
  token : Token
  orderId : UInt64
  reserved : UInt8
  numBitfields : UInt8
  bitfield : Fin 5 → UInt8
  leavesQty : UInt32
deriving DecidableEq

def OrderAck.new (m : Mem) : OrderAck :=
  { header := { matchingUnit := 3, seqNum := m.u32 6 }
    transactionTime := m.u64 10
    token := Token.ofMem m 18
    orderId := m.u64 38
    reserved := m 46
    numBitfields := m 47
    bitfield := m.chars 48 5
    leavesQty := m.u32 53 }

structure OrderRejected where
  header : Header
  transactionTime : UInt64
  token : Token
  reason : UInt8
  text : Fin 60 → UInt8
  reserved : UInt8
  numBitfields : UInt8
deriving DecidableEq

def OrderRejected.new (m : Mem) : OrderRejected :=
  { header := { matchingUnit := 0, seqNum := 0 }
    transactionTime := m.u64 10
    token := Token.ofMem m 18
    reason := m 38
    text := m.chars 39 60
    reserved := m 99
    numBitfields := 0 }

structure OrderModified where
  header : Header
  transactionTime : UInt64
  token : Token
  orderId : UInt64
  reserved : UInt8
  numBitfields : UInt8
  bitfield : Fin 5 → UInt8
  price : UInt64
  qty : UInt32
  leavesQty : UInt32
deriving DecidableEq

def OrderModified.new (m : Mem) : OrderModified :=
  { header := { matchingUnit := 3, seqNum := m.u32 6 }
    transactionTime := m.u64 10
    token := Token.ofMem m 18
    orderId := m.u64 38
    reserved := m 46
    numBitfields := 5
    bitfield := m.chars 48 5
    price := m.u64 53
    qty := m.u32 61
    leavesQty := m.u32 65 }

structure ModifyRejected where
  header : Header
  transactionTime : UInt64
  token : Token
  reason : UInt8
  text : Fin 60 → UInt8
  reserved : UInt8
  numBitfields : UInt8
deriving DecidableEq

def ModifyRejected.new (m : Mem) : ModifyRejected :=
  { header := { matchingUnit := 3, seqNum := 0 }
    transactionTime := m.u64 10
    token := Token.ofMem m 18
    reason := m 38
    text := m.chars 39 60
    reserved := m 99
    numBitfields := m 100 }

structure OrderCanceled where
  header : Header
  transactionTime : UInt64
  token : Token
  reason : UInt8
  reserved : UInt8
  numBitfields : UInt8
  bitfield : Fin 5 → UInt8
  leavesQty : UInt32
deriving DecidableEq

def OrderCanceled.new (m : Mem) : OrderCanceled :=
  { header := { matchingUnit := 3, seqNum := m.u32 6 }
    transactionTime := m.u64 10
    token := Token.ofMem m 18
    reason := m 38
    reserved := m 39
    numBitfields := 5
    bitfield := m.chars 41 5
    leavesQty := m.u32 46 }

structure CancelRejected where
  header : Header
  transactionTime : UInt64
  token : Token
  reason : UInt8
  text : Fin 60 → UInt8
  reserved : UInt8
  numBitfields : UInt8
deriving DecidableEq

def CancelRejected.new (m : Mem) : CancelRejected :=
  { header := { matchingUnit := 3, seqNum := m.u32 6 }
    transactionTime := m.u64 10
    token := Token.ofMem m 18
    reason := m 38
    text := m.chars 39 60
    reserved := m 99
    numBitfields := m 100 }

structure OrderExecution where
  header : Header
  transactionTime : UInt64
  token : Token
  execId : UInt64
  lastShares : UInt32
  lastPrice : UInt64
  leavesQty : UInt32
  baseLiquidityIndicator : UInt8
  subLiquidityIndicator : UInt8
  contraBroker : Fin 4 → UInt8
  reserved : UInt8
  numBitfields : UInt8
deriving DecidableEq

def OrderExecution.new (m : Mem) : OrderExecution :=
  { header := { matchingUnit := m 5, seqNum := m.u32 6 }
    transactionTime := m.u64 10
    token := Token.ofMem m 18
    execId := m.u64 38
    lastShares := m.u32 46
    lastPrice := m.u64 50
    leavesQty := m.u32 58
    baseLiquidityIndicator := m 62
    subLiquidityIndicator := m 63
    contraBroker := m.chars 64 4
    reserved := m 68
    numBitfields := 0 }

/-- One packet of `pending_out_messages`, by the struct it is the image of. -/
inductive OutMsg
  | loginResponse (m : LoginResponse)
  | serverHeartbeat
  | orderAck (m : OrderAck)
  | orderRejected (m : OrderRejected)
  | orderModified (m : OrderModified)
  | modifyRejected (m : ModifyRejected)
  | orderCanceled (m : OrderCanceled)
  | cancelRejected (m : CancelRejected)
  | orderExecution (m : OrderExecution)
deriving DecidableEq

end Boe

end Evtsim
