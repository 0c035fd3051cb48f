import Evtsim.Boe.Steps
import Evtsim.Lib.Layout
import Evtsim.TcpServer

/-!
# The packets of a member (`boe_messages.h`)

What a member of BOE can send, with the fields that the session has no use for, and the bytes of it. The
session checks neither the start of a message nor its length: `request_of_holds` says that it takes every
message for what it asks, and a `LogoutRequest` for nothing.
-/

namespace Evtsim

open Wire Session

namespace Boe

/-- The fields of a `NewOrder` that nobody reads. -/
structure NewOrder.Unread where
  bitfields : Fin 7 → UInt8
  clearingAcct : Fin 4 → UInt8
  execInst : UInt8
  orderType : UInt8
  maxFloor : UInt32
  routingInst : Fin 4 → UInt8
  acct : Fin 16 → UInt8
  maxRemovePct : UInt8
  discretionAmt : UInt16
  pegDifference : UInt64
  attributedQuote : UInt8
  extExecInst : UInt8

/-- The fields of a `LoginRequest` before those that are echoed, and the one between them. -/
structure LoginRequest.Unread where
  sessionSubId : Fin 4 → UInt8
  username : Fin 4 → UInt8
  password : Fin 10 → UInt8
  numberOfParamGroups : UInt8
  replayLength : UInt16
  replayType : UInt8
  numberOfUnits : UInt8

/-- A message of the member. -/
inductive MemberMsg
  | loginRequest (h : Header) (req : LoginRequest) (u : LoginRequest.Unread)
  | logoutRequest (h : Header)
  | clientHeartbeat (h : Header)
  | newOrder (h : Header) (no : NewOrder) (u : NewOrder.Unread)
  | cancelOrder (h : Header) (co : CancelOrder) (bitfields : Fin 2 → UInt8) (clearingFirm : Fin 4 → UInt8)
  | modifyOrder (h : Header) (mo : ModifyOrder) (bitfields : Fin 3 → UInt8)

/-- `BOE_MSG_HEADER` of a struct of `size` bytes with the type `code`, and its other fields. -/
def memberPacket (size : ℕ) (code : UInt8) (h : Header) (fields : List (List UInt8)) : List UInt8 :=
  0xBA :: 0xBA :: (leBytes 2 (size - 2) ++
    (code :: h.matchingUnit :: (leBytes 4 h.seqNum.toNat ++ fields.flatten)))

/-- The bytes of a message. -/
def MemberMsg.bytes : MemberMsg → List UInt8
  | loginRequest h req u =>
    memberPacket 74 MsgType.loginRequest.code h
      [List.ofFn u.sessionSubId, List.ofFn u.username, List.ofFn u.password, [u.numberOfParamGroups],
        leBytes 2 u.replayLength.toNat, [u.replayType], [req.noUnspecifiedUnitReplay],
        [u.numberOfUnits], List.ofFn req.paramGroups]
  | logoutRequest h => memberPacket 10 0x02 h []
  | clientHeartbeat h => memberPacket 10 MsgType.clientHeartbeat.code h []
  | newOrder h no u =>
    memberPacket 112 MsgType.newOrder.code h
      [List.ofFn no.token.val, [no.side], leBytes 4 no.qty.toNat, List.ofFn u.bitfields,
        List.ofFn no.clearingFirm, List.ofFn u.clearingAcct, leBytes 8 no.price.toNat, [u.execInst],
        [u.orderType], [no.timeInForce], leBytes 4 no.minQty.toNat, leBytes 4 u.maxFloor.toNat,
        List.ofFn no.symbol, [no.capacity], List.ofFn u.routingInst, List.ofFn u.acct,
        [no.displayIndicator], [u.maxRemovePct], leBytes 2 u.discretionAmt.toNat,
        leBytes 8 u.pegDifference.toNat, [u.attributedQuote], [u.extExecInst]]
  | cancelOrder h co bitfields clearingFirm =>
    memberPacket 36 MsgType.cancelOrder.code h
      [List.ofFn co.origToken.val, List.ofFn bitfields, List.ofFn clearingFirm]
  | modifyOrder h mo bitfields =>
    memberPacket 73 MsgType.modifyOrder.code h
      [List.ofFn mo.token.val, List.ofFn mo.origToken.val, List.ofFn bitfields,
        List.ofFn mo.clearingFirm, leBytes 4 mo.qty.toNat, leBytes 8 mo.price.toNat, [mo.orderType],
        [mo.cancelOrigOnReject], [mo.execInst], [mo.side]]

/-! ## Where a message stands -/

section

variable {p : Mem}

/-- A message stands behind its header. -/
theorem of_holds_memberPacket {size : ℕ} (hsize : size < 2 ^ 16) {code : UInt8} {h : Header}
    {fields : List (List UInt8)} (hp : p.Holds 0 (memberPacket size code h fields)) :
    (p.u16 2).toNat = size - 2 ∧ (MsgHeader.ofMem p).type = code ∧ p.Holds 10 fields.flatten := by
  rw [memberPacket, holds_cons, holds_cons, holds_append, holds_le16 (by omega), length_leBytes,
    holds_cons, holds_cons, holds_append, length_leBytes] at hp
  obtain ⟨-, -, hlength, htype, -, -, hfields⟩ := hp
  exact ⟨hlength, htype, hfields⟩

/-- A token is read where its characters stand. -/
theorem token_ofMem_iff {off : ℕ} {t : Token} : p.chars off 20 = t.val ↔ Token.ofMem p off = t :=
  ⟨fun h => congrArg TokenOf.mk h, fun h => congrArg TokenOf.val h⟩

/-- A packet whose length field is its size is well formed. -/
theorem wellFormed_memberPacket {size : ℕ} {code : UInt8} {h : Header} {fields : List (List UInt8)}
    (hfields : fields.flatten.length + 10 = size) (hsize : size < 2 ^ 16) :
    TcpServer.boe.WellFormed (memberPacket size code h fields) := by
  have hlength : (memberPacket size code h fields).length = size := by
    simp only [memberPacket, List.length_append, length_leBytes, List.length_cons]
    omega
  have hstands := holds_write (memberPacket size code h fields) [] fun _ => 0
  rw [List.append_nil] at hstands
  have hstated := (of_holds_memberPacket hsize hstands).1
  refine ⟨?_, ?_⟩
  · rw [hlength]
    show 4 ≤ size
    omega
  · rw [hlength]
    show (Mem.u16 _ 2).toNat + 2 = size
    rw [hstated]
    omega

/-- Every message states its length. -/
theorem MemberMsg.wellFormed (m : MemberMsg) : TcpServer.boe.WellFormed m.bytes := by
  cases m <;> refine wellFormed_memberPacket ?_ (by decide) <;> simp

/-- `boe::to_string` has room for what a member sends: only a login response can be too long for it. -/
theorem MemberMsg.fits {m : MemberMsg} (hp : p.Holds 0 m.bytes) : LogText.Fits p := by
  intro hcode
  have htype : (MsgHeader.ofMem p).type = LogText.loginResponseCode := hcode
  cases m with
  | _ => exact absurd ((of_holds_memberPacket (by decide) hp).2.1.symm.trans htype) (by decide)

end

end Boe

namespace BoeSession

open Boe

variable {W : Type} (E : Env W)

/-- What a message asks for; `handle_packet` has no case for a logout. -/
def asks : MemberMsg → Option Request
  | .loginRequest _ req _ => some (.login req)
  | .logoutRequest _ => none
  | .clientHeartbeat _ => some .heartbeat
  | .newOrder _ no _ => some (.enter no)
  | .cancelOrder _ co _ _ => some (.cancel co)
  | .modifyOrder _ mo _ => some (.modify mo)

/-- A packet in which a message stands asks for what the message asks. -/
theorem request_of_holds {p : Mem} {m : MemberMsg} (hp : p.Holds 0 m.bytes) : request p = asks m := by
  cases m with
  | loginRequest h req u =>
    obtain ⟨-, htype, hfields⟩ := of_holds_memberPacket (by decide) hp
    have hreq : LoginRequest.ofMem p = req := by
      simp only [List.flatten_cons, List.flatten_nil, holds_append, holds_cons, holds_nil, and_true,
        List.length_ofFn, List.length_singleton, length_leBytes, holds_ofFn, Nat.reduceAdd] at hfields
      obtain ⟨-, -, -, -, -, -, hreplay, -, hgroups⟩ := hfields
      unfold LoginRequest.ofMem
      rw [hreplay, hgroups]
    unfold request
    rw [if_pos htype, hreq]
    rfl
  | logoutRequest h =>
    obtain ⟨-, htype, -⟩ := of_holds_memberPacket (by decide) hp
    unfold request
    rw [if_neg (by rw [htype]; decide), if_neg (by rw [htype]; decide),
      if_neg (by rw [htype]; decide), if_neg (by rw [htype]; decide), if_neg (by rw [htype]; decide)]
    rfl
  | clientHeartbeat h =>
    obtain ⟨-, htype, -⟩ := of_holds_memberPacket (by decide) hp
    unfold request
    rw [if_neg (by rw [htype]; decide), if_pos htype]
    rfl
  | newOrder h no u =>
    obtain ⟨-, htype, hfields⟩ := of_holds_memberPacket (by decide) hp
    have hno : NewOrder.ofMem p = no := by
      simp only [List.flatten_cons, List.flatten_nil, holds_append, holds_cons, holds_nil, and_true,
        List.length_ofFn, List.length_singleton, length_leBytes, holds_ofFn, holds_u32, holds_u64,
        token_ofMem_iff, Nat.reduceAdd] at hfields
      obtain ⟨htoken, hside, hqty, -, hfirm, -, hprice, -, -, htif, hmin, -, hsymbol, hcapacity, -, -,
        hdisplay, -⟩ := hfields
      unfold NewOrder.ofMem
      rw [htoken, hside, hqty, hfirm, hprice, htif, hmin, hsymbol, hcapacity, hdisplay]
    unfold request
    rw [if_neg (by rw [htype]; decide), if_neg (by rw [htype]; decide), if_pos htype, hno]
    rfl
  | cancelOrder h co bitfields clearingFirm =>
    obtain ⟨-, htype, hfields⟩ := of_holds_memberPacket (by decide) hp
    have hco : CancelOrder.ofMem p = co := by
      simp only [List.flatten_cons, holds_append, holds_ofFn, token_ofMem_iff] at hfields
      unfold CancelOrder.ofMem
      rw [hfields.1]
    unfold request
    rw [if_neg (by rw [htype]; decide), if_neg (by rw [htype]; decide),
      if_neg (by rw [htype]; decide), if_pos htype, hco]
    rfl
  | modifyOrder h mo bitfields =>
    obtain ⟨-, htype, hfields⟩ := of_holds_memberPacket (by decide) hp
    have hmo : ModifyOrder.ofMem p = mo := by
      simp only [List.flatten_cons, List.flatten_nil, holds_append, holds_cons, holds_nil, and_true,
        List.length_ofFn, List.length_singleton, length_leBytes, holds_ofFn, holds_u32, holds_u64,
        token_ofMem_iff, Nat.reduceAdd] at hfields
      obtain ⟨htoken, horig, -, hfirm, hqty, hprice, htype', hcancel, hexec, hside⟩ := hfields
      unfold ModifyOrder.ofMem
      rw [htoken, horig, hfirm, hqty, hprice, htype', hcancel, hexec, hside]
    unfold request
    rw [if_neg (by rw [htype]; decide), if_neg (by rw [htype]; decide),
      if_neg (by rw [htype]; decide), if_neg (by rw [htype]; decide), if_pos htype, hmo]
    rfl

end BoeSession

end Evtsim
