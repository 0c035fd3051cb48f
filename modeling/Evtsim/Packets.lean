import Evtsim.TcpServer
import Evtsim.Boe.Emission

/-!
# The packets that are sent

The bytes of every message that a session appends to `pending_out_messages`: the packed struct, field
by field, behind the length that its constructor states. OUCH numbers are swapped by `to_network`;
`OrderReplaced` leaves `order_reference_number` out of the swap. BOE numbers stay little-endian.

`reframed_run`: the packets of a whole run, sent one behind another, are taken apart by the loops of
`tcp_server.cpp` into what was sent.
-/

namespace Evtsim

open Wire Session

namespace Ouch

/-- The packet types of `ouch::PacketType` that go to the client. -/
inductive InboundPacketType
  | sequencedData | loginAccepted | loginRejected | serverHeartbeat

def InboundPacketType.code : InboundPacketType → UInt8
  | sequencedData => 'S'.toUInt8
  | loginAccepted => 'A'.toUInt8
  | loginRejected => 'J'.toUInt8
  | serverHeartbeat => 'H'.toUInt8

/-- `ouch::InboundMsgType`, the values that the session sends. -/
inductive InboundMsgType
  | cancelReject | executed | orderAccepted | orderCanceled | orderModified | orderRejected
  | orderReplaced

def InboundMsgType.code : InboundMsgType → UInt8
  | cancelReject => 'I'.toUInt8
  | executed => 'E'.toUInt8
  | orderAccepted => 'A'.toUInt8
  | orderCanceled => 'C'.toUInt8
  | orderModified => 'M'.toUInt8
  | orderRejected => 'J'.toUInt8
  | orderReplaced => 'U'.toUInt8

def LoginRejectReason.code : LoginRejectReason → UInt8
  | notAuthorized => 'A'.toUInt8
  | sessionNotAvailable => 'S'.toUInt8

def CancelReason.code : CancelReason → UInt8
  | userRequested => 'U'.toUInt8
  | ioc => 'I'.toUInt8
  | timeOut => 'T'.toUInt8
  | systemCancel => 'Z'.toUInt8

def RejectedReason.code : RejectedReason → UInt8
  | exceededConfiguredSafety => 'Z'.toUInt8
  | other => 'O'.toUInt8

def OrderState.code : OrderState → UInt8
  | live => 'L'.toUInt8
  | dead => 'D'.toUInt8

/-- `sizeof` of the packed structs that the constructors take their lengths from. -/
def sizeofLoginAccepted : ℕ := 33
def sizeofLoginRejected : ℕ := 4
def sizeofServerHeartbeat : ℕ := 3
def sizeofOrderAccepted : ℕ := 69
def sizeofOrderCanceled : ℕ := 31
def sizeofOrderModified : ℕ := 31
def sizeofOrderRejected : ℕ := 27
def sizeofOrderReplaced : ℕ := 83
def sizeofExecuted : ℕ := 43
def sizeofCancelReject : ℕ := 26

/-- `OUCH_MSG_HEADER` of a struct of `size` bytes, and its other fields. -/
def packet (size : ℕ) (t : InboundPacketType) (fields : List (List UInt8)) : List UInt8 :=
  beBytes 2 (size - 2) ++ (t.code :: fields.flatten)

/-- A packet of sequenced data. -/
def sequenced (size : ℕ) (t : InboundMsgType) (fields : List (List UInt8)) : List UInt8 :=
  packet size .sequencedData ([t.code] :: fields)

/-- The length of a packet with its header. -/
theorem length_packet (size : ℕ) (t : InboundPacketType) (fields : List (List UInt8)) :
    (packet size t fields).length = fields.flatten.length + 3 := by
  rw [packet, List.length_append, length_beBytes, List.length_cons]
  omega

/-- The length of a packet of sequenced data with its headers. -/
theorem length_sequenced (size : ℕ) (t : InboundMsgType) (fields : List (List UInt8)) :
    (sequenced size t fields).length = fields.flatten.length + 4 := by
  rw [sequenced, length_packet, List.flatten_cons, List.length_append, List.length_singleton]
  omega

/-- The fields of a message follow its type. -/
theorem getElem?_sequenced (size : ℕ) (t : InboundMsgType) (fields : List (List UInt8)) (i : ℕ) :
    (sequenced size t fields)[i + 4]? = fields.flatten[i]? := by
  simp [sequenced, packet, List.getElem?_append]

def OrderAccepted.bytes (m : OrderAccepted) : List UInt8 :=
  sequenced sizeofOrderAccepted .orderAccepted
    [beBytes 8 m.timestamp.toNat, List.ofFn m.token.val, [m.side], beBytes 4 m.qty.toNat,
      List.ofFn m.symbol, beBytes 4 m.price.toUInt32.toNat, beBytes 4 m.timeInForce.toNat,
      List.ofFn m.firm, [m.display], beBytes 8 m.orderReferenceNumber.toNat, [m.capacity],
      [m.intermarketSweepEligibility], beBytes 4 m.minQty.toNat, [m.crossType], [m.orderState.code],
      [m.bboWeightIndicator]]

def OrderReplaced.bytes (m : OrderReplaced) : List UInt8 :=
  sequenced sizeofOrderReplaced .orderReplaced
    [beBytes 8 m.timestamp.toNat, List.ofFn m.token.val, [m.side], beBytes 4 m.qty.toNat,
      List.ofFn m.symbol, beBytes 4 m.price.toUInt32.toNat, beBytes 4 m.timeInForce.toNat,
      List.ofFn m.firm, [m.display], leBytes 8 m.orderReferenceNumber.toNat, [m.capacity],
      [m.intermarketSweepEligibility], beBytes 4 m.minQty.toNat, [m.crossType], [m.orderState.code],
      List.ofFn m.origToken.val, [m.bboWeightIndicator]]

/-- The display of an `OrderReplaced` stands at its place. -/
theorem OrderReplaced.getElem?_display (m : OrderReplaced) : m.bytes[51]? = some m.display := by
  refine (getElem?_sequenced _ _ _ 47).trans ?_
  simp

/-- The bytes of a message, as its `construct_*` function queues them. -/
def OutMsg.bytes : OutMsg → List UInt8
  | loginAccepted m =>
    packet sizeofLoginAccepted .loginAccepted [List.ofFn m.session, List.ofFn m.seqNum]
  | loginRejected reason => packet sizeofLoginRejected .loginRejected [[reason.code]]
  | serverHeartbeat => packet sizeofServerHeartbeat .serverHeartbeat []
  | orderAccepted m => m.bytes
  | orderCanceled m =>
    sequenced sizeofOrderCanceled .orderCanceled
      [beBytes 8 m.timestamp.toNat, List.ofFn m.token.val, beBytes 4 m.decrementQty.toNat,
        [m.reason.code]]
  | orderModified m =>
    sequenced sizeofOrderModified .orderModified
      [beBytes 8 m.timestamp.toNat, List.ofFn m.token.val, [m.side], beBytes 4 m.shares.toNat]
  | orderRejected m =>
    sequenced sizeofOrderRejected .orderRejected
      [beBytes 8 m.timestamp.toNat, List.ofFn m.token.val, [m.reason.code]]
  | orderReplaced m => m.bytes
  | executed m =>
    sequenced sizeofExecuted .executed
      [beBytes 8 m.timestamp.toNat, List.ofFn m.token.val, beBytes 4 m.executedQty.toNat,
        beBytes 4 m.executionPrice.toUInt32.toNat, [m.liquidityFlag], beBytes 8 m.matchNumber.toNat]
  | cancelReject m =>
    sequenced sizeofCancelReject .cancelReject
      [beBytes 8 m.timestamp.toNat, List.ofFn m.token.val]

/-- A packet whose fields fill its struct is well formed. -/
theorem wellFormed_packet {size : ℕ} {t : InboundPacketType} {fields : List (List UInt8)}
    (hfields : fields.flatten.length + 3 = size) (hsize : size < 2 ^ 16) :
    TcpServer.soupBin.WellFormed (packet size t fields) := by
  have hlen : (packet size t fields).length = size := by rw [length_packet, hfields]
  have hread : (Mem.write (packet size t fields) fun _ => 0).beNat 0 2 = (size - 2) % 256 ^ 2 :=
    beNat_write [] 2 (size - 2) (t.code :: fields.flatten) _
  refine ⟨?_, ?_⟩
  · rw [hlen]
    show 2 ≤ size
    omega
  · rw [hlen]
    show (byteSwap16 ((Mem.write (packet size t fields) fun _ => 0).u16 0)).toNat + 2 = size
    rw [byteSwap16_u16, hread, UInt16.toNat_ofNat']
    omega

/-- Every message states its length. -/
theorem OutMsg.wellFormed (m : OutMsg) : TcpServer.soupBin.WellFormed m.bytes := by
  cases m <;> refine wellFormed_packet ?_ (by decide) <;>
    simp [sizeofLoginAccepted, sizeofLoginRejected, sizeofServerHeartbeat, sizeofOrderAccepted,
      sizeofOrderCanceled, sizeofOrderModified, sizeofOrderRejected, sizeofOrderReplaced,
      sizeofExecuted, sizeofCancelReject]

end Ouch

namespace Boe

/-- `sizeof` of the packed structs that the constructors take their lengths from. -/
def sizeofServerHeartbeat : ℕ := 10
def sizeofOrderAck : ℕ := 57
def sizeofOrderRejected : ℕ := 101
def sizeofOrderModified : ℕ := 69
def sizeofModifyRejected : ℕ := 101
def sizeofOrderCanceled : ℕ := 50
def sizeofCancelRejected : ℕ := 101
def sizeofOrderExecution : ℕ := 70

/-- `BOE_MSG_HEADER` with the given length, and the other fields of the struct. -/
def packet (length : ℕ) (t : OutMsgType) (h : Header) (fields : List (List UInt8)) : List UInt8 :=
  [0xBA, 0xBA] ++ (leBytes 2 length ++
    (t.code :: h.matchingUnit :: (leBytes 4 h.seqNum.toNat ++ fields.flatten)))

/-- The type of a packet stands in its header. -/
theorem getElem?_packet_type (length : ℕ) (t : OutMsgType) (h : Header) (fields : List (List UInt8)) :
    (packet length t h fields)[4]? = some t.code := by
  simp [packet]

/-- The fields of a message follow its header. -/
theorem getElem?_packet (length : ℕ) (t : OutMsgType) (h : Header) (fields : List (List UInt8))
    (i : ℕ) : (packet length t h fields)[i + 10]? = fields.flatten[i]? := by
  simp [packet, List.getElem?_append]

/-- The bytes of a message, as its `construct_*` function queues them. -/
def OutMsg.bytes : OutMsg → List UInt8
  | loginResponse m =>
    packet m.length.toNat .loginResponse m.header
      [[m.status], List.ofFn m.text, [m.noUnspecifiedUnitReplay],
        leBytes 4 m.lastReceivedSeqNum.toNat, [m.numberOfUnits], [m.unitNumber],
        leBytes 4 m.unitSeqNum.toNat, List.ofFn m.paramGroups]
  | serverHeartbeat =>
    packet (sizeofServerHeartbeat - 2) .serverHeartbeat { matchingUnit := 0, seqNum := 0 } []
  | orderAck m =>
    packet (sizeofOrderAck - 2) .orderAck m.header
      [leBytes 8 m.transactionTime.toNat, List.ofFn m.token.val, leBytes 8 m.orderId.toNat,
        [m.reserved], [m.numBitfields], List.ofFn m.bitfield, leBytes 4 m.leavesQty.toNat]
  | orderRejected m =>
    packet (sizeofOrderRejected - 2) .orderRejected m.header
      [leBytes 8 m.transactionTime.toNat, List.ofFn m.token.val, [m.reason], List.ofFn m.text,
        [m.reserved], [m.numBitfields]]
  | orderModified m =>
    packet (sizeofOrderModified - 2) .orderModified m.header
      [leBytes 8 m.transactionTime.toNat, List.ofFn m.token.val, leBytes 8 m.orderId.toNat,
        [m.reserved], [m.numBitfields], List.ofFn m.bitfield, leBytes 8 m.price.toNat,
        leBytes 4 m.qty.toNat, leBytes 4 m.leavesQty.toNat]
  | modifyRejected m =>
    packet (sizeofModifyRejected - 2) .modifyRejected m.header
      [leBytes 8 m.transactionTime.toNat, List.ofFn m.token.val, [m.reason], List.ofFn m.text,
        [m.reserved], [m.numBitfields]]
  | orderCanceled m =>
    packet (sizeofOrderCanceled - 2) .orderCanceled m.header
      [leBytes 8 m.transactionTime.toNat, List.ofFn m.token.val, [m.reason], [m.reserved],
        [m.numBitfields], List.ofFn m.bitfield, leBytes 4 m.leavesQty.toNat]
  | cancelRejected m =>
    packet (sizeofCancelRejected - 2) .cancelRejected m.header
      [leBytes 8 m.transactionTime.toNat, List.ofFn m.token.val, [m.reason], List.ofFn m.text,
        [m.reserved], [m.numBitfields]]
  | orderExecution m =>
    packet (sizeofOrderExecution - 2) .orderExecution m.header
      [leBytes 8 m.transactionTime.toNat, List.ofFn m.token.val, leBytes 8 m.execId.toNat,
        leBytes 4 m.lastShares.toNat, leBytes 8 m.lastPrice.toNat, leBytes 4 m.leavesQty.toNat,
        [m.baseLiquidityIndicator], [m.subLiquidityIndicator], List.ofFn m.contraBroker,
        [m.reserved], [m.numBitfields]]

/-- A packet that states the length of its fields is well formed. -/
theorem wellFormed_packet {length : ℕ} {t : OutMsgType} {h : Header} {fields : List (List UInt8)}
    (hfields : fields.flatten.length + 8 = length) (hlt : length < 2 ^ 16) :
    TcpServer.boe.WellFormed (packet length t h fields) := by
  have hlen : (packet length t h fields).length = length + 2 := by
    simp only [packet, List.length_append, length_leBytes, List.length_cons, List.length_nil]
    omega
  have hread : (Mem.write (packet length t h fields) fun _ => 0).leNat 2 2 = length % 256 ^ 2 :=
    leNat_write [0xBA, 0xBA] 2 length _ _
  refine ⟨?_, ?_⟩
  · rw [hlen]
    show 4 ≤ length + 2
    omega
  · rw [hlen]
    show ((Mem.write (packet length t h fields) fun _ => 0).u16 2).toNat + 2 = length + 2
    rw [Mem.u16, hread, UInt16.toNat_ofNat']
    omega

/-- The length of a login response is put in by hand, for the struct with one unit and the parameter
groups behind it; every other message takes it from its struct. -/
def OutMsg.Measured : OutMsg → Prop
  | loginResponse m => m.length = 120 ∧ m.numberOfUnits = 1
  | _ => True

/-- A message that states its length is a well formed packet. -/
theorem OutMsg.wellFormed {m : OutMsg} (hm : m.Measured) : TcpServer.boe.WellFormed m.bytes := by
  cases m
  case loginResponse m =>
    have hlength : m.length = 120 := hm.1
    refine wellFormed_packet ?_ (UInt16.toNat_lt m.length)
    rw [hlength]
    simp
  all_goals
    refine wellFormed_packet ?_ (by decide)
    simp [sizeofServerHeartbeat, sizeofOrderAck, sizeofOrderRejected, sizeofOrderModified,
      sizeofModifyRejected, sizeofOrderCanceled, sizeofCancelRejected, sizeofOrderExecution]

/-- The type of a packet stands in its header, whatever stands behind. -/
theorem write_packet_type (length : ℕ) (t : OutMsgType) (h : Header) (fields : List (List UInt8))
    (behind : Mem) : Mem.write (packet length t h fields) behind 4 = t.code := by
  show (packet length t h fields).getD 4 _ = _
  rw [List.getD_eq_getElem?_getD, getElem?_packet_type]
  rfl

/-- The log call of `BOEServer::send` stays inside its buffer. -/
theorem OutMsg.fits {m : OutMsg} (hm : m.Measured) (behind : Mem) :
    LogText.Fits (Mem.write m.bytes behind) := by
  cases m
  case loginResponse m =>
    have hunits : Mem.write (OutMsg.loginResponse m).bytes behind 76 = m.numberOfUnits := by
      show (OutMsg.loginResponse m).bytes.getD 76 _ = _
      rw [List.getD_eq_getElem?_getD, OutMsg.bytes, getElem?_packet _ _ _ _ 66]
      simp
    refine LogText.fits_of_units_le ?_
    rw [hunits, hm.2]
    decide
  all_goals
    intro htype
    rw [OutMsg.bytes, write_packet_type] at htype
    exact absurd htype (by decide)

end Boe

/-! ## Every message of a run states its length -/

namespace BoeSession

open Boe

variable {W : Type} (E : Env W)

/-- Every message so far states its length. -/
def Measures (s : BoeSession W) : Prop := ∀ m ∈ s.pendingOutMessages, m.Measured

/-- Messages other than a login response are measured by their structs. -/
theorem measured_of_type {m : Boe.OutMsg} (h : m.type ≠ .loginResponse) : m.Measured := by
  cases m
  case loginResponse => exact absurd rfl h
  all_goals trivial

/-- Messages other than a login response state their lengths. -/
theorem Measures.emits {types : List OutMsgType} {s s' : BoeSession W}
    (hs : Measures s) (h : Emits types s s') (htypes : .loginResponse ∉ types) : Measures s' := by
  have happends := h.imp (R := OutMsg.Measured) fun m hm =>
    measured_of_type fun heq => htypes (heq ▸ hm)
  exact happends.forall_mem hs

/-- The answers to a request state their lengths. -/
theorem measures_handle {s : BoeSession W} (hs : Measures s) (r : Request) :
    Measures (handle E s r) := by
  cases r with
  | login req =>
    obtain ⟨m, hlength, hunits, h⟩ := handleLoginRequest_out E s req
    rw [Measures, handle, h]
    exact List.forall_mem_append.mpr ⟨hs, List.forall_mem_singleton.mpr ⟨hlength, hunits⟩⟩
  | heartbeat => exact hs
  | enter no => exact hs.emits (emits_handle E s (.enter no)) (by simp [answerTypes])
  | cancel co => exact hs.emits (emits_handle E s (.cancel co)) (by simp [answerTypes])
  | modify mo => exact hs.emits (emits_handle E s (.modify mo)) (by simp [answerTypes])

/-- What an event sends states its length. -/
theorem measures_step {s : BoeSession W} (hs : Measures s) (e : Event) : Measures (step E s e) := by
  cases e with
  | packet p =>
    rcases step_packet E s p with ⟨-, h⟩ | ⟨r, -, h⟩ <;> rw [h]
    · exact hs
    · exact measures_handle E hs r
  | marketLogic => exact hs.emits (emits_marketLogic E s) (by decide)
  | cancelAll => exact hs.emits (emits_cancelAll E s) (by decide)
  | disconnect => exact hs

/-- A new session has sent nothing. -/
theorem measures_init (w : W) : Measures (init E w) := List.forall_mem_nil _

/-- All messages of a run state their lengths. -/
theorem measures_run (w : W) (es : List Event) : Measures (run E w es) :=
  Machine.run_invariant (I := Measures) (fun _ e h => measures_step E h e) (measures_init E w) es

end BoeSession

/-- Whatever stands behind it, every message of a run is logged inside the buffer. -/
theorem BoeSession.fits_run {W : Type} (E : Env W) (w : W) (es : List BoeSession.Event) :
    ∀ m ∈ (run E w es).pendingOutMessages, ∀ behind, Boe.LogText.Fits (Mem.write m.bytes behind) :=
  fun m hm => Boe.OutMsg.fits (measures_run E w es m hm)

/-- The packets that the loop of a server makes of a stream, whatever stands behind it in memory. -/
def reframed (f : Framing.Format) (stream : List UInt8) (behind : Mem) : List (List UInt8) :=
  Framing.packets f (Mem.write stream behind) stream.length 0

/-- Well-formed packets are found again, and nothing is left of the stream. -/
theorem reframed_flatten {f : Framing.Format} {sent : List (List UInt8)}
    (hwf : ∀ p ∈ sent, f.WellFormed p) (behind : Mem) :
    reframed f sent.flatten behind = sent := by
  have hat : (Mem.write sent.flatten behind).at 0 = Mem.write sent.flatten behind := Mem.at_zero _
  have h := Framing.packets_of_wellFormed hwf hat
  rw [Nat.zero_add] at h
  exact h

/-- **Emitted streams can be re-framed.** What either session has sent in a run, one packet behind
another, is taken apart by its server's own rule into the packets that were sent, to the last byte. -/
theorem reframed_run {W : Type} (E : Env W) (w : W) (behind : Mem) :
    (∀ es : List OuchSession.Event,
      let sent := (OuchSession.run E w es).pendingOutMessages.map Ouch.OutMsg.bytes
      reframed TcpServer.soupBin sent.flatten behind = sent ∧
        (reframed TcpServer.soupBin sent.flatten behind).flatten = sent.flatten) ∧
    (∀ es : List BoeSession.Event,
      let sent := (BoeSession.run E w es).pendingOutMessages.map Boe.OutMsg.bytes
      reframed TcpServer.boe sent.flatten behind = sent ∧
        (reframed TcpServer.boe sent.flatten behind).flatten = sent.flatten) := by
  constructor
  · intro es sent
    have hsent : reframed TcpServer.soupBin sent.flatten behind = sent := by
      apply reframed_flatten
      intro p hp
      obtain ⟨m, -, rfl⟩ := List.mem_map.mp hp
      exact m.wellFormed
    exact ⟨hsent, by rw [hsent]⟩
  · intro es sent
    have hsent : reframed TcpServer.boe sent.flatten behind = sent := by
      apply reframed_flatten
      intro p hp
      obtain ⟨m, hm, rfl⟩ := List.mem_map.mp hp
      exact Boe.OutMsg.wellFormed (BoeSession.measures_run E w es m hm)
    exact ⟨hsent, by rw [hsent]⟩

end Evtsim
