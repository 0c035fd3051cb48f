import Evtsim.Lib.Wire
import Mathlib.Data.Fintype.Pi

/-!
# OUCH messages (`ouch_messages.h`)

Client messages are packed structs read through a cast pointer: `ofMem` reads each field at its packed
offset in host order, and `fromNetwork` swaps the fields the source swaps. Only the fields that the
session reads are kept.

Messages to the client are kept as the structs that the `construct_*` functions fill in, with native
values; `length`, `packet_type` and `msg_type` are fixed by the struct and left to the constructor of
`OutMsg`. Where a struct has fields that nobody sets, its `new` takes them from the raw memory it is
built in.
-/

namespace Evtsim

open Wire

/-- `std::string` values, which are the keys of the order maps. -/
abbrev Key := List UInt8

/-- Every module searches a list of keys by this comparison. -/
instance : LawfulBEq Key := inferInstance

/-- The tokens of a protocol: `n` characters. -/
structure TokenOf (n : ℕ) where
  val : Fin n → UInt8

namespace TokenOf

variable {n : ℕ}

/-- `_str_` -/
def str (t : TokenOf n) : Key := List.ofFn t.val

/-- Different tokens are different keys. -/
theorem str_injective : Function.Injective (str (n := n)) := by
  rintro ⟨v⟩ ⟨w⟩ h
  exact congrArg TokenOf.mk (List.ofFn_injective h)

/-- The keys of two tokens are equal exactly if the tokens are. -/
@[simp] theorem str_inj {t u : TokenOf n} : t.str = u.str ↔ t = u :=
  str_injective.eq_iff

instance : DecidableEq (TokenOf n) := fun _ _ => decidable_of_iff _ str_inj

end TokenOf

namespace Ouch

/-- `MAX_SHARES` -/
def maxShares : UInt32 := 999999

/-- `ouch::PacketType`, the values that packets of either direction carry here. -/
inductive PacketType
  | unsequencedData | clientHeartbeat | loginRequest | logoutRequest
deriving DecidableEq

def PacketType.code : PacketType → UInt8
  | unsequencedData => 'U'.toUInt8
  | clientHeartbeat => 'R'.toUInt8
  | loginRequest => 'L'.toUInt8
  | logoutRequest => 'O'.toUInt8

/-- `ouch::OutboundMsgType` -/
inductive OutboundMsgType
  | cancelOrder | enterOrder | modifyOrder | replaceOrder
deriving DecidableEq

def OutboundMsgType.code : OutboundMsgType → UInt8
  | cancelOrder => 'X'.toUInt8
  | enterOrder => 'O'.toUInt8
  | modifyOrder => 'M'.toUInt8
  | replaceOrder => 'U'.toUInt8

/-- `ouch::LoginRejectReason` -/
inductive LoginRejectReason
  | notAuthorized | sessionNotAvailable
deriving DecidableEq

/-- The reasons of `ouch::CancelReason` that the session gives. -/
inductive CancelReason
  | userRequested | ioc | timeOut | systemCancel
deriving DecidableEq

/-- The reasons of `ouch::RejectedReason` that the session gives. -/
inductive RejectedReason
  | exceededConfiguredSafety | other
deriving DecidableEq

/-- `ouch::OrderState` -/
inductive OrderState
  | live | dead
deriving DecidableEq

namespace TimeInForce

/-- Immediate or cancel. -/
def ioc : UInt32 := 0

/-- Until market close. -/
def market : UInt32 := 99998

/-- Until the end of the trading day. -/
def system : UInt32 := 99999

end TimeInForce

namespace Side

def buy : UInt8 := 'B'.toUInt8
def sell : UInt8 := 'S'.toUInt8
def sellShort : UInt8 := 'T'.toUInt8
def sellShortExempt : UInt8 := 'E'.toUInt8

end Side

/-- `ouch::Token` -/
abbrev Token := TokenOf 14

def Token.ofMem (m : Mem) (off : ℕ) : Token := ⟨m.chars off 14⟩

/-! ## Client to OUCH -/

/-- `MsgHeader`, with the `msg_type` of `Ouch_MsgHeader` behind it. -/
structure MsgHeader where
  length : UInt16
  packetType : UInt8
  msgType : UInt8

def MsgHeader.ofMem (m : Mem) : MsgHeader :=
  { length := m.u16 0, packetType := m 2, msgType := m 3 }

/-- `sizeof` of the packed structs that the validators compare with. -/
def sizeofLoginRequest : ℕ := 49
def sizeofClientHeartbeat : ℕ := 3
def sizeofLogoutRequest : ℕ := 3
def sizeofEnterOrder : ℕ := 52
def sizeofReplaceOrder : ℕ := 50
def sizeofCancelOrder : ℕ := 22
def sizeofModifyOrder : ℕ := 23

structure LoginRequest where
  requestedSeqNum : Fin 20 → UInt8

def LoginRequest.ofMem (m : Mem) : LoginRequest := { requestedSeqNum := m.chars 29 20 }

structure EnterOrder where
  token : Token
  side : UInt8
  qty : UInt32
  symbol : Fin 8 → UInt8
  price : Int32
  timeInForce : UInt32
  firm : Fin 4 → UInt8
  display : UInt8
  capacity : UInt8
  intermarketSweepEligibility : UInt8
  minQty : UInt32
  crossType : UInt8
  customerType : UInt8

def EnterOrder.ofMem (m : Mem) : EnterOrder :=
  { token := Token.ofMem m 4
    side := m 18
    qty := m.u32 19
    symbol := m.chars 23 8
    price := (m.u32 31).toInt32
    timeInForce := m.u32 35
    firm := m.chars 39 4
    display := m 43
    capacity := m 44
    intermarketSweepEligibility := m 45
    minQty := m.u32 46
    crossType := m 50
    customerType := m 51 }

def EnterOrder.fromNetwork (eo : EnterOrder) : EnterOrder :=
  { eo with
    qty := byteSwap32 eo.qty
    price := (byteSwap32 eo.price.toUInt32).toInt32
    timeInForce := byteSwap32 eo.timeInForce
    minQty := byteSwap32 eo.minQty }

structure ReplaceOrder where
  existingToken : Token
  token : Token
  qty : UInt32
  price : Int32
  timeInForce : UInt32
  display : UInt8
  intermarketSweepEligibility : UInt8
  minQty : UInt32

def ReplaceOrder.ofMem (m : Mem) : ReplaceOrder :=
  { existingToken := Token.ofMem m 4
    token := Token.ofMem m 18
    qty := m.u32 32
    price := (m.u32 36).toInt32
    timeInForce := m.u32 40
    display := m 44
    intermarketSweepEligibility := m 45
    minQty := m.u32 46 }

def ReplaceOrder.fromNetwork (ro : ReplaceOrder) : ReplaceOrder :=
  { ro with
    qty := byteSwap32 ro.qty
    price := (byteSwap32 ro.price.toUInt32).toInt32
    timeInForce := byteSwap32 ro.timeInForce
    minQty := byteSwap32 ro.minQty }

structure CancelOrder where
  token : Token
  qty : UInt32

def CancelOrder.ofMem (m : Mem) : CancelOrder :=
  { token := Token.ofMem m 4, qty := m.u32 18 }

def CancelOrder.fromNetwork (co : CancelOrder) : CancelOrder :=
  { co with qty := byteSwap32 co.qty }

structure ModifyOrder where
  token : Token
  side : UInt8
  qty : UInt32

def ModifyOrder.ofMem (m : Mem) : ModifyOrder :=
  { token := Token.ofMem m 4, side := m 18, qty := m.u32 19 }

def ModifyOrder.fromNetwork (mo : ModifyOrder) : ModifyOrder :=
  { mo with qty := byteSwap32 mo.qty }

/-! ## OUCH to client -/

structure LoginAccepted where
  session : Fin 10 → UInt8
  seqNum : Fin 20 → UInt8
deriving DecidableEq

structure OrderAccepted where
  timestamp : UInt64
  token : Token
  side : UInt8
  qty : UInt32
  symbol : Fin 8 → UInt8
  price : Int32
  timeInForce : UInt32
  firm : Fin 4 → UInt8
  display : UInt8
  orderReferenceNumber : UInt64
  capacity : UInt8
  intermarketSweepEligibility : UInt8
  minQty : UInt32
  crossType : UInt8
  orderState : OrderState
  bboWeightIndicator : UInt8
deriving DecidableEq

structure OrderCanceled where
  timestamp : UInt64
  token : Token
  decrementQty : UInt32
  reason : CancelReason
deriving DecidableEq

structure OrderModified where
  timestamp : UInt64
  token : Token
  side : UInt8
  shares : UInt32
deriving DecidableEq

structure OrderRejected where
  timestamp : UInt64
  token : Token
  reason : RejectedReason
deriving DecidableEq

structure OrderReplaced where
  timestamp : UInt64
  token : Token
  side : UInt8
  qty : UInt32
  symbol : Fin 8 → UInt8
  price : Int32
  timeInForce : UInt32
  firm : Fin 4 → UInt8
  display : UInt8
  orderReferenceNumber : UInt64
  capacity : UInt8
  intermarketSweepEligibility : UInt8
  minQty : UInt32
  crossType : UInt8
  orderState : OrderState
  origToken : Token
  bboWeightIndicator : UInt8
deriving DecidableEq

structure Executed where
  timestamp : UInt64
  token : Token
  executedQty : UInt32
  executionPrice : Int32
  liquidityFlag : UInt8
  matchNumber : UInt64
deriving DecidableEq

structure CancelReject where
  timestamp : UInt64
  token : Token
deriving DecidableEq

/-- One packet of `pending_out_messages`, by the struct it is the image of. -/
inductive OutMsg
  | loginAccepted (m : LoginAccepted)
  | loginRejected (reason : LoginRejectReason)
  | serverHeartbeat
  | orderAccepted (m : OrderAccepted)
  | orderCanceled (m : OrderCanceled)
  | orderModified (m : OrderModified)
  | orderRejected (m : OrderRejected)
  | orderReplaced (m : OrderReplaced)
  | executed (m : Executed)
  | cancelReject (m : CancelReject)
deriving DecidableEq

end Ouch

end Evtsim
