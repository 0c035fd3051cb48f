import Evtsim.Lib.Layout
import Evtsim.Ouch.Steps
import Evtsim.TcpServer

/-!
# The packets of a client (`ouch_messages.h`)

What a client of OUCH can send, with the numbers as it means them, and the bytes that it writes for it.
`handlePacket_iff` says which packets the session takes for such a message: the valid ones in these very
bytes, whatever stands behind them, and no others.
-/

namespace Evtsim

open Wire Session

namespace Ouch

/-- A message of the client. -/
inductive ClientMsg
  | loginRequest (username : Fin 6 → UInt8) (password requestedSession : Fin 10 → UInt8)
      (requestedSeqNum : Fin 20 → UInt8)
  | logoutRequest
  | clientHeartbeat
  | enterOrder (eo : EnterOrder)
  | replaceOrder (ro : ReplaceOrder)
  | cancelOrder (co : CancelOrder)
  | modifyOrder (mo : ModifyOrder)

/-- `OUCH_MSG_HEADER` of a struct of `size` bytes, and its other fields. -/
def clientPacket (size : ℕ) (t : PacketType) (fields : List (List UInt8)) : List UInt8 :=
  beBytes 2 (size - 2) ++ (t.code :: fields.flatten)

/-- A packet of unsequenced data. -/
def unsequenced (size : ℕ) (t : OutboundMsgType) (fields : List (List UInt8)) : List UInt8 :=
  clientPacket size .unsequencedData ([t.code] :: fields)

namespace ClientMsg

/-- The bytes of a message, in network order. -/
def bytes : ClientMsg → List UInt8
  | loginRequest username password session seqNum =>
    clientPacket sizeofLoginRequest .loginRequest
      [List.ofFn username, List.ofFn password, List.ofFn session, List.ofFn seqNum]
  | logoutRequest => clientPacket sizeofLogoutRequest .logoutRequest []
  | clientHeartbeat => clientPacket sizeofClientHeartbeat .clientHeartbeat []
  | enterOrder eo =>
    unsequenced sizeofEnterOrder .enterOrder
      [List.ofFn eo.token.val, [eo.side], beBytes 4 eo.qty.toNat, List.ofFn eo.symbol,
        beBytes 4 eo.price.toUInt32.toNat, beBytes 4 eo.timeInForce.toNat, List.ofFn eo.firm,
        [eo.display], [eo.capacity], [eo.intermarketSweepEligibility], beBytes 4 eo.minQty.toNat,
        [eo.crossType], [eo.customerType]]
  | replaceOrder ro =>
    unsequenced sizeofReplaceOrder .replaceOrder
      [List.ofFn ro.existingToken.val, List.ofFn ro.token.val, beBytes 4 ro.qty.toNat,
        beBytes 4 ro.price.toUInt32.toNat, beBytes 4 ro.timeInForce.toNat, [ro.display],
        [ro.intermarketSweepEligibility], beBytes 4 ro.minQty.toNat]
  | cancelOrder co =>
    unsequenced sizeofCancelOrder .cancelOrder [List.ofFn co.token.val, beBytes 4 co.qty.toNat]
  | modifyOrder mo =>
    unsequenced sizeofModifyOrder .modifyOrder
      [List.ofFn mo.token.val, [mo.side], beBytes 4 mo.qty.toNat]

end ClientMsg

/-! ## Where a message stands -/

section

variable {p : Mem}

/-- A packet stands where its header and its fields do. -/
theorem holds_clientPacket {size : ℕ} (hsize : size < 2 ^ 16) {t : PacketType}
    {fields : List (List UInt8)} : p.Holds 0 (clientPacket size t fields) ↔
      OuchSession.hasLength p size = true ∧ (MsgHeader.ofMem p).packetType = t.code ∧
        p.Holds 3 fields.flatten := by
  rw [clientPacket, holds_append, holds_be16 (by omega), length_beBytes, holds_cons]
  unfold OuchSession.hasLength
  rw [decide_eq_true_eq]
  rfl

/-- A packet of unsequenced data stands where its headers and its fields do. -/
theorem holds_unsequenced {size : ℕ} (hsize : size < 2 ^ 16) {t : OutboundMsgType}
    {fields : List (List UInt8)} : p.Holds 0 (unsequenced size t fields) ↔
      OuchSession.hasLength p size = true ∧
        (MsgHeader.ofMem p).packetType = PacketType.unsequencedData.code ∧
        (MsgHeader.ofMem p).msgType = t.code ∧ p.Holds 4 fields.flatten := by
  rw [unsequenced, holds_clientPacket hsize]
  rfl

/-- A token is read where its characters stand. -/
theorem token_ofMem_iff {off : ℕ} {t : Token} : p.chars off 14 = t.val ↔ Token.ofMem p off = t :=
  ⟨fun h => congrArg TokenOf.mk h, fun h => congrArg TokenOf.val h⟩

/-- A signed number goes as an unsigned one. -/
theorem eq_toUInt32_iff {x : UInt32} {price : Int32} : x = price.toUInt32 ↔ x.toInt32 = price :=
  ⟨fun h => by rw [h, Int32.toInt32_toUInt32], fun h => by rw [← h, UInt32.toUInt32_toInt32]⟩

/-- A packet of unsequenced data stands where its fields do, the numbers after `from_network`. -/
theorem holds_enterOrder {eo : EnterOrder} : p.Holds 0 (ClientMsg.enterOrder eo).bytes ↔
    OuchSession.hasLength p sizeofEnterOrder = true ∧
      (MsgHeader.ofMem p).packetType = PacketType.unsequencedData.code ∧
      (MsgHeader.ofMem p).msgType = OutboundMsgType.enterOrder.code ∧
      (EnterOrder.ofMem p).fromNetwork = eo := by
  rw [ClientMsg.bytes, holds_unsequenced (by decide)]
  refine and_congr_right' (and_congr_right' (and_congr_right' ?_))
  simp only [List.flatten_cons, List.flatten_nil, holds_append, holds_cons, holds_nil, and_true,
    List.length_ofFn, List.length_singleton, length_beBytes, holds_ofFn, holds_swapped,
    eq_toUInt32_iff, token_ofMem_iff, Nat.reduceAdd]
  rcases eo with ⟨token, side, qty, symbol, price, timeInForce, firm, display, capacity, sweep, minQty,
    crossType, customerType⟩
  simp only [EnterOrder.fromNetwork, EnterOrder.ofMem, EnterOrder.mk.injEq, UInt32.toUInt32_toInt32]

/-- The memory holds a `ReplaceOrder` exactly if its fields are read from it. -/
theorem holds_replaceOrder {ro : ReplaceOrder} : p.Holds 0 (ClientMsg.replaceOrder ro).bytes ↔
    OuchSession.hasLength p sizeofReplaceOrder = true ∧
      (MsgHeader.ofMem p).packetType = PacketType.unsequencedData.code ∧
      (MsgHeader.ofMem p).msgType = OutboundMsgType.replaceOrder.code ∧
      (ReplaceOrder.ofMem p).fromNetwork = ro := by
  rw [ClientMsg.bytes, holds_unsequenced (by decide)]
  refine and_congr_right' (and_congr_right' (and_congr_right' ?_))
  simp only [List.flatten_cons, List.flatten_nil, holds_append, holds_cons, holds_nil, and_true,
    List.length_ofFn, List.length_singleton, length_beBytes, holds_ofFn, holds_swapped,
    eq_toUInt32_iff, token_ofMem_iff, Nat.reduceAdd]
  rcases ro with ⟨existing, token, qty, price, timeInForce, display, sweep, minQty⟩
  simp only [ReplaceOrder.fromNetwork, ReplaceOrder.ofMem, ReplaceOrder.mk.injEq,
    UInt32.toUInt32_toInt32]

/-- The memory holds a `CancelOrder` exactly if its fields are read from it. -/
theorem holds_cancelOrder {co : CancelOrder} : p.Holds 0 (ClientMsg.cancelOrder co).bytes ↔
    OuchSession.hasLength p sizeofCancelOrder = true ∧
      (MsgHeader.ofMem p).packetType = PacketType.unsequencedData.code ∧
      (MsgHeader.ofMem p).msgType = OutboundMsgType.cancelOrder.code ∧
      (CancelOrder.ofMem p).fromNetwork = co := by
  rw [ClientMsg.bytes, holds_unsequenced (by decide)]
  refine and_congr_right' (and_congr_right' (and_congr_right' ?_))
  simp only [List.flatten_cons, List.flatten_nil, holds_append, holds_nil, and_true,
    List.length_ofFn, holds_ofFn, holds_swapped, token_ofMem_iff, Nat.reduceAdd]
  rcases co with ⟨token, qty⟩
  simp only [CancelOrder.fromNetwork, CancelOrder.ofMem, CancelOrder.mk.injEq]

/-- The memory holds a `ModifyOrder` exactly if its fields are read from it. -/
theorem holds_modifyOrder {mo : ModifyOrder} : p.Holds 0 (ClientMsg.modifyOrder mo).bytes ↔
    OuchSession.hasLength p sizeofModifyOrder = true ∧
      (MsgHeader.ofMem p).packetType = PacketType.unsequencedData.code ∧
      (MsgHeader.ofMem p).msgType = OutboundMsgType.modifyOrder.code ∧
      (ModifyOrder.ofMem p).fromNetwork = mo := by
  rw [ClientMsg.bytes, holds_unsequenced (by decide)]
  refine and_congr_right' (and_congr_right' (and_congr_right' ?_))
  simp only [List.flatten_cons, List.flatten_nil, holds_append, holds_cons, holds_nil, and_true,
    List.length_ofFn, List.length_singleton, holds_ofFn, holds_swapped, token_ofMem_iff, Nat.reduceAdd]
  rcases mo with ⟨token, side, qty⟩
  simp only [ModifyOrder.fromNetwork, ModifyOrder.ofMem, ModifyOrder.mk.injEq]

/-- The memory holds a `LoginRequest` exactly if its fields are read from it. -/
theorem holds_loginRequest {username : Fin 6 → UInt8} {password session : Fin 10 → UInt8}
    {seqNum : Fin 20 → UInt8} :
    p.Holds 0 (ClientMsg.loginRequest username password session seqNum).bytes ↔
      OuchSession.hasLength p sizeofLoginRequest = true ∧
        (MsgHeader.ofMem p).packetType = PacketType.loginRequest.code ∧
        p.chars 3 6 = username ∧ p.chars 9 10 = password ∧ p.chars 19 10 = session ∧
        (LoginRequest.ofMem p).requestedSeqNum = seqNum := by
  rw [ClientMsg.bytes, holds_clientPacket (by decide)]
  refine and_congr_right' (and_congr_right' ?_)
  simp only [List.flatten_cons, List.flatten_nil, holds_append, holds_nil, and_true,
    List.length_ofFn, holds_ofFn, Nat.reduceAdd]
  rfl

/-- A packet whose fields fill its struct is well formed. -/
theorem wellFormed_clientPacket {size : ℕ} {t : PacketType} {fields : List (List UInt8)}
    (hfields : fields.flatten.length + 3 = size) (hsize : size < 2 ^ 16) :
    TcpServer.soupBin.WellFormed (clientPacket size t fields) := by
  have hlength : (clientPacket size t fields).length = size := by
    rw [clientPacket, List.length_append, length_beBytes, List.length_cons]
    omega
  have hstands := holds_write (clientPacket size t fields) [] fun _ => 0
  rw [List.append_nil, holds_clientPacket hsize] at hstands
  have hstated := of_decide_eq_true hstands.1
  refine ⟨?_, ?_⟩
  · rw [hlength]
    show 2 ≤ size
    omega
  · rw [hlength]
    show (byteSwap16 _).toNat + 2 = size
    rw [hstated]
    omega

/-- Every message states its length. -/
theorem ClientMsg.wellFormed (m : ClientMsg) : TcpServer.soupBin.WellFormed m.bytes := by
  cases m <;> refine wellFormed_clientPacket ?_ (by decide) <;>
    simp [sizeofLoginRequest, sizeofLogoutRequest, sizeofClientHeartbeat, sizeofEnterOrder,
      sizeofReplaceOrder, sizeofCancelOrder, sizeofModifyOrder]

end

/-! ## What is valid -/

/-- What `validate` asks of a message, of the numbers that the client means. -/
def ClientMsg.Valid : ClientMsg → Prop
  | loginRequest _ _ _ seqNum => OuchSession.matchesSeqNum (List.ofFn seqNum) = true
  | logoutRequest => True
  | clientHeartbeat => True
  | enterOrder eo =>
    OuchSession.oneOf eo.side ['B', 'S', 'T', 'E'] = true ∧ OuchSession.priceOk eo.price = true ∧
      (0 < eo.qty ∧ eo.qty ≤ 1000000) ∧ OuchSession.displayOk eo.display = true ∧
      OuchSession.sweepOk eo.intermarketSweepEligibility = true ∧
      OuchSession.oneOf eo.crossType ['N', 'O', 'C', 'H', 'S', 'R'] = true ∧
      OuchSession.oneOf eo.customerType [' ', 'R', 'N'] = true
  | replaceOrder ro =>
    (0 < ro.qty ∧ ro.qty ≤ 1000000) ∧ OuchSession.displayOk ro.display = true ∧
      OuchSession.sweepOk ro.intermarketSweepEligibility = true ∧ OuchSession.priceOk ro.price = true
  | cancelOrder co => co.qty ≤ 1000000
  | modifyOrder mo => mo.qty ≤ 1000000

instance : DecidablePred ClientMsg.Valid
  | .loginRequest _ _ _ _ => inferInstanceAs (Decidable (_ = true))
  | .logoutRequest => isTrue trivial
  | .clientHeartbeat => isTrue trivial
  | .enterOrder _ => inferInstanceAs (Decidable (_ ∧ _ ∧ (_ ∧ _) ∧ _ ∧ _ ∧ _ ∧ _))
  | .replaceOrder _ => inferInstanceAs (Decidable ((_ ∧ _) ∧ _ ∧ _ ∧ _))
  | .cancelOrder _ => inferInstanceAs (Decidable (_ ≤ _))
  | .modifyOrder _ => inferInstanceAs (Decidable (_ ≤ _))

end Ouch

namespace OuchSession

open Ouch

variable {W : Type} (E : Env W)

/-- What a valid message asks for. -/
def asked : ClientMsg → Request
  | .loginRequest _ _ _ _ => .login
  | .logoutRequest => .logout
  | .clientHeartbeat => .heartbeat
  | .enterOrder eo => .enter eo
  | .replaceOrder ro => .replace ro
  | .cancelOrder co => .cancel co
  | .modifyOrder mo => .modify mo

/-- What a message asks for, if it is valid. -/
def asks (m : ClientMsg) : Option Request := if m.Valid then some (asked m) else none

/-- A message asks for something exactly if it is valid. -/
theorem asks_eq_some_iff {m : ClientMsg} {r : Request} : asks m = some r ↔ m.Valid ∧ asked m = r := by
  rw [asks, Option.ite_none_right_eq_some, Option.some.injEq]

/-- An `EnterOrder` passes validation exactly if its length and its fields do. -/
theorem validateEnterOrder_iff {p : Mem} : validateEnterOrder p = true ↔
    hasLength p sizeofEnterOrder = true ∧
      (ClientMsg.enterOrder (EnterOrder.ofMem p).fromNetwork).Valid := by
  simp only [validateEnterOrder, ClientMsg.Valid, Bool.and_eq_true, decide_eq_true_eq, and_assoc]

/-- A `ReplaceOrder` passes validation exactly if its length and its fields do. -/
theorem validateReplaceOrder_iff {p : Mem} : validateReplaceOrder p = true ↔
    hasLength p sizeofReplaceOrder = true ∧
      (ClientMsg.replaceOrder (ReplaceOrder.ofMem p).fromNetwork).Valid := by
  simp only [validateReplaceOrder, ClientMsg.Valid, Bool.and_eq_true, decide_eq_true_eq, and_assoc]

/-- A `CancelOrder` passes validation exactly if its length and its quantity do. -/
theorem validateCancelOrder_iff {p : Mem} : validateCancelOrder p = true ↔
    hasLength p sizeofCancelOrder = true ∧
      (ClientMsg.cancelOrder (CancelOrder.ofMem p).fromNetwork).Valid := by
  simp only [validateCancelOrder, ClientMsg.Valid, Bool.and_eq_true, decide_eq_true_eq]

/-- A `ModifyOrder` passes validation exactly if its length and its quantity do. -/
theorem validateModifyOrder_iff {p : Mem} : validateModifyOrder p = true ↔
    hasLength p sizeofModifyOrder = true ∧
      (ClientMsg.modifyOrder (ModifyOrder.ofMem p).fromNetwork).Valid := by
  simp only [validateModifyOrder, ClientMsg.Valid, Bool.and_eq_true, decide_eq_true_eq]

/-- A `LoginRequest` passes validation exactly if its length and its sequence number do. -/
theorem validateLoginRequest_iff {p : Mem} : validateLoginRequest p = true ↔
    hasLength p sizeofLoginRequest = true ∧
      (ClientMsg.loginRequest (p.chars 3 6) (p.chars 9 10) (p.chars 19 10)
        (LoginRequest.ofMem p).requestedSeqNum).Valid := by
  simp only [validateLoginRequest, ClientMsg.Valid, Bool.and_eq_true]

/-- A packet in which a message stands asks for what the message asks. -/
theorem request_of_holds {p : Mem} {m : ClientMsg} (hp : p.Holds 0 m.bytes) : request p = asks m := by
  cases m with
  | loginRequest username password session seqNum =>
    obtain ⟨hlen, htype, hu, hpass, hs, hn⟩ := holds_loginRequest.mp hp
    subst hu hpass hs hn
    unfold request
    rw [if_pos htype]
    simp only [validateLoginRequest_iff, hlen, true_and]
    rfl
  | logoutRequest =>
    obtain ⟨hlen, htype, -⟩ := (holds_clientPacket (by decide)).mp hp
    unfold request
    rw [if_neg (by rw [htype]; decide), if_pos htype, validateLogoutRequest, if_pos hlen]
    rfl
  | clientHeartbeat =>
    obtain ⟨hlen, htype, -⟩ := (holds_clientPacket (by decide)).mp hp
    unfold request
    rw [if_neg (by rw [htype]; decide), if_neg (by rw [htype]; decide), if_pos htype,
      validateClientHeartbeat, if_pos hlen]
    rfl
  | enterOrder eo =>
    obtain ⟨hlen, htype, hmsg, rfl⟩ := holds_enterOrder.mp hp
    unfold request
    rw [if_neg (by rw [htype]; decide), if_neg (by rw [htype]; decide),
      if_neg (by rw [htype]; decide), if_pos htype, if_pos hmsg]
    simp only [validateEnterOrder_iff, hlen, true_and]
    rfl
  | replaceOrder ro =>
    obtain ⟨hlen, htype, hmsg, rfl⟩ := holds_replaceOrder.mp hp
    unfold request
    rw [if_neg (by rw [htype]; decide), if_neg (by rw [htype]; decide),
      if_neg (by rw [htype]; decide), if_pos htype, if_neg (by rw [hmsg]; decide), if_pos hmsg]
    simp only [validateReplaceOrder_iff, hlen, true_and]
    rfl
  | cancelOrder co =>
    obtain ⟨hlen, htype, hmsg, rfl⟩ := holds_cancelOrder.mp hp
    unfold request
    rw [if_neg (by rw [htype]; decide), if_neg (by rw [htype]; decide),
      if_neg (by rw [htype]; decide), if_pos htype, if_neg (by rw [hmsg]; decide),
      if_neg (by rw [hmsg]; decide), if_pos hmsg]
    simp only [validateCancelOrder_iff, hlen, true_and]
    rfl
  | modifyOrder mo =>
    obtain ⟨hlen, htype, hmsg, rfl⟩ := holds_modifyOrder.mp hp
    unfold request
    rw [if_neg (by rw [htype]; decide), if_neg (by rw [htype]; decide),
      if_neg (by rw [htype]; decide), if_pos htype, if_neg (by rw [hmsg]; decide),
      if_neg (by rw [hmsg]; decide), if_neg (by rw [hmsg]; decide), if_pos hmsg]
    simp only [validateModifyOrder_iff, hlen, true_and]
    rfl

/-- And every request stands in its packet as a valid message. -/
theorem holds_of_request {p : Mem} {r : Request} (h : request p = some r) :
    ∃ m : ClientMsg, m.Valid ∧ p.Holds 0 m.bytes ∧ asked m = r := by
  unfold request at h
  dsimp only at h
  by_cases hlogin : (MsgHeader.ofMem p).packetType = PacketType.loginRequest.code
  · rw [if_pos hlogin, Option.ite_none_right_eq_some, Option.some.injEq] at h
    obtain ⟨hvalid, rfl⟩ := h
    obtain ⟨hlen, hm⟩ := validateLoginRequest_iff.mp hvalid
    exact ⟨_, hm, holds_loginRequest.mpr ⟨hlen, hlogin, rfl, rfl, rfl, rfl⟩, rfl⟩
  rw [if_neg hlogin] at h
  by_cases hlogout : (MsgHeader.ofMem p).packetType = PacketType.logoutRequest.code
  · rw [if_pos hlogout, Option.ite_none_right_eq_some, Option.some.injEq] at h
    obtain ⟨hlen, rfl⟩ := h
    exact ⟨.logoutRequest, trivial, (holds_clientPacket (by decide)).mpr ⟨hlen, hlogout, trivial⟩, rfl⟩
  rw [if_neg hlogout] at h
  by_cases hheartbeat : (MsgHeader.ofMem p).packetType = PacketType.clientHeartbeat.code
  · rw [if_pos hheartbeat, Option.ite_none_right_eq_some, Option.some.injEq] at h
    obtain ⟨hlen, rfl⟩ := h
    exact ⟨.clientHeartbeat, trivial, (holds_clientPacket (by decide)).mpr ⟨hlen, hheartbeat, trivial⟩,
      rfl⟩
  rw [if_neg hheartbeat] at h
  by_cases hdata : (MsgHeader.ofMem p).packetType = PacketType.unsequencedData.code
  case neg =>
    rw [if_neg hdata] at h
    cases h
  rw [if_pos hdata] at h
  by_cases henter : (MsgHeader.ofMem p).msgType = OutboundMsgType.enterOrder.code
  · rw [if_pos henter, Option.ite_none_right_eq_some, Option.some.injEq] at h
    obtain ⟨hvalid, rfl⟩ := h
    obtain ⟨hlen, hm⟩ := validateEnterOrder_iff.mp hvalid
    exact ⟨_, hm, holds_enterOrder.mpr ⟨hlen, hdata, henter, rfl⟩, rfl⟩
  rw [if_neg henter] at h
  by_cases hreplace : (MsgHeader.ofMem p).msgType = OutboundMsgType.replaceOrder.code
  · rw [if_pos hreplace, Option.ite_none_right_eq_some, Option.some.injEq] at h
    obtain ⟨hvalid, rfl⟩ := h
    obtain ⟨hlen, hm⟩ := validateReplaceOrder_iff.mp hvalid
    exact ⟨_, hm, holds_replaceOrder.mpr ⟨hlen, hdata, hreplace, rfl⟩, rfl⟩
  rw [if_neg hreplace] at h
  by_cases hcancel : (MsgHeader.ofMem p).msgType = OutboundMsgType.cancelOrder.code
  · rw [if_pos hcancel, Option.ite_none_right_eq_some, Option.some.injEq] at h
    obtain ⟨hvalid, rfl⟩ := h
    obtain ⟨hlen, hm⟩ := validateCancelOrder_iff.mp hvalid
    exact ⟨_, hm, holds_cancelOrder.mpr ⟨hlen, hdata, hcancel, rfl⟩, rfl⟩
  rw [if_neg hcancel] at h
  by_cases hmodify : (MsgHeader.ofMem p).msgType = OutboundMsgType.modifyOrder.code
  · rw [if_pos hmodify, Option.ite_none_right_eq_some, Option.some.injEq] at h
    obtain ⟨hvalid, rfl⟩ := h
    obtain ⟨hlen, hm⟩ := validateModifyOrder_iff.mp hvalid
    exact ⟨_, hm, holds_modifyOrder.mpr ⟨hlen, hdata, hmodify, rfl⟩, rfl⟩
  rw [if_neg hmodify] at h
  cases h

/-- **Requests.** A session whose logger is set does what a message asks for exactly if the message is
valid and stands at the start of the packet, and lets every packet pass in which no valid message
stands. -/
theorem handlePacket_iff {s t : OuchSession W} (hl : s.l = true) (p : Mem) :
    handlePacket E s p = .ok t ↔
      (∃ m : ClientMsg, m.Valid ∧ p.Holds 0 m.bytes ∧ t = handle E s (asked m)) ∨
        (∀ m : ClientMsg, m.Valid → ¬ p.Holds 0 m.bytes) ∧ t = s := by
  have hrequest : ∀ m : ClientMsg, m.Valid → p.Holds 0 m.bytes → request p = some (asked m) :=
    fun m hm hp => (request_of_holds hp).trans (asks_eq_some_iff.mpr ⟨hm, rfl⟩)
  rw [handlePacket_eq E hl, Except.ok.injEq]
  rcases hr : request p with _ | r
  · have hnone : ∀ m : ClientMsg, m.Valid → ¬ p.Holds 0 m.bytes := by
      intro m hm hp
      cases hr.symm.trans (hrequest m hm hp)
    constructor
    · exact fun h => .inr ⟨hnone, h.symm⟩
    · rintro (⟨m, hm, hp, -⟩ | ⟨-, rfl⟩)
      · exact absurd hp (hnone m hm)
      · rfl
  · obtain ⟨m, hm, hp, rfl⟩ := holds_of_request hr
    constructor
    · exact fun h => .inl ⟨m, hm, hp, h.symm⟩
    · rintro (⟨m', hm', hp', rfl⟩ | ⟨hnone, -⟩)
      · -- two messages that stand in the packet ask for the same
        exact congrArg (handle E s) (Option.some.inj (hr.symm.trans (hrequest m' hm' hp')))
      · exact absurd hp (hnone m hm)

/-- A client that logs in, with rubbish behind its request. -/
def loginBytes : Mem :=
  Mem.write (ClientMsg.loginRequest (fun _ => 32) (fun _ => 32) (fun _ => 32) fun _ => 49).bytes fun _ => 7

/-- A login packet, for a session that has its logger. -/
theorem handlePacket_iff_login :
    let s := step quietEnv (init quietEnv ()) .setLogger
    let t := handleLoginRequest quietEnv s
    handlePacket quietEnv s loginBytes = .ok t ↔
      (∃ m : ClientMsg, m.Valid ∧ loginBytes.Holds 0 m.bytes ∧ t = handle quietEnv s (asked m)) ∨
        (∀ m : ClientMsg, m.Valid → ¬ loginBytes.Holds 0 m.bytes) ∧ t = s :=
  handlePacket_iff quietEnv rfl loginBytes

end OuchSession

end Evtsim
