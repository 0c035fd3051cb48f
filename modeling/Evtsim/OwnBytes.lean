import Evtsim.TcpServer
import Evtsim.Ouch.Steps
import Evtsim.Boe.Steps

/-!
# Packets and the bytes they declare

The loops of both servers test where a packet starts, not where it ends, so the last packet of a read
may reach beyond the received bytes. `ouch_session::validate` compares the declared length with the
struct that will be read; `boe_session` reads the struct of the packet's type whatever the length, and so
does the log call before it, which only a `LoginResponse` can take out of its buffer.

`ownBytes_iff` says for which received bytes every packet lies inside them and is handled from its own
declared bytes alone.
-/

namespace Evtsim

open Wire Framing Session

/-! ## OUCH -/

namespace OuchSession

open Ouch

/-- What a packet causes depends on its first `n` bytes only. -/
def Determined (p : Mem) (n : ℕ) : Prop :=
  ∀ (W : Type) (E : Env W) (s : OuchSession W) (p' : Mem), Mem.Agree n p p' →
    TcpServer.turn TcpServer.soupBin (sessionClass E) s (p', n) =
      TcpServer.turn TcpServer.soupBin (sessionClass E) s (p, n)

/-- An `EnterOrder` depends on its own bytes. -/
theorem enterOrder_ofMem_congr {m m' : Mem} (h : Mem.Agree sizeofEnterOrder m m') :
    EnterOrder.ofMem m' = EnterOrder.ofMem m := by
  unfold EnterOrder.ofMem Token.ofMem
  rw [h.chars (by decide), h.chars (by decide), h.chars (by decide), h.u32 (by decide),
    h.u32 (by decide), h.u32 (by decide), h.u32 (by decide), h 18 (by decide), h 43 (by decide),
    h 44 (by decide), h 45 (by decide), h 50 (by decide), h 51 (by decide)]

/-- A `ReplaceOrder` depends on its own bytes. -/
theorem replaceOrder_ofMem_congr {m m' : Mem} (h : Mem.Agree sizeofReplaceOrder m m') :
    ReplaceOrder.ofMem m' = ReplaceOrder.ofMem m := by
  unfold ReplaceOrder.ofMem Token.ofMem
  rw [h.chars (by decide), h.chars (by decide), h.u32 (by decide), h.u32 (by decide),
    h.u32 (by decide), h.u32 (by decide), h 44 (by decide), h 45 (by decide)]

/-- A `CancelOrder` depends on its own bytes. -/
theorem cancelOrder_ofMem_congr {m m' : Mem} (h : Mem.Agree sizeofCancelOrder m m') :
    CancelOrder.ofMem m' = CancelOrder.ofMem m := by
  unfold CancelOrder.ofMem Token.ofMem
  rw [h.chars (by decide), h.u32 (by decide)]

/-- A `ModifyOrder` depends on its own bytes. -/
theorem modifyOrder_ofMem_congr {m m' : Mem} (h : Mem.Agree sizeofModifyOrder m m') :
    ModifyOrder.ofMem m' = ModifyOrder.ofMem m := by
  unfold ModifyOrder.ofMem Token.ofMem
  rw [h.chars (by decide), h.u32 (by decide), h 18 (by decide)]

/-- The length field lies in the first two bytes. -/
theorem hasLength_congr {m m' : Mem} {n : ℕ} (h : Mem.Agree n m m') (hn : 2 ≤ n) (size : ℕ) :
    hasLength m' size = hasLength m size := by
  unfold hasLength MsgHeader.ofMem
  dsimp only
  rw [h.u16 (by omega)]

/-- A packet whose declared length passes has the size of its struct. -/
theorem size_of_hasLength {p : Mem} {size : ℕ} (h : hasLength p size = true) (hsize : 2 ≤ size) :
    TcpServer.soupBin.size p = size := by
  unfold hasLength at h
  rw [decide_eq_true_eq] at h
  show (byteSwap16 (MsgHeader.ofMem p).length).toNat + 2 = size
  omega

/-- Each validation reads its struct, and passes only if the declared length is that of the struct. -/
theorem validateLoginRequest_own {p : Mem} (h : validateLoginRequest p = true) :
    TcpServer.soupBin.size p = sizeofLoginRequest :=
  size_of_hasLength (Bool.and_eq_true_iff.mp h).1 (by decide)

/-- A valid `EnterOrder` declares its struct. -/
theorem validateEnterOrder_own {p : Mem} (h : validateEnterOrder p = true) :
    TcpServer.soupBin.size p = sizeofEnterOrder := by
  unfold validateEnterOrder at h
  simp only [Bool.and_eq_true, and_assoc] at h
  exact size_of_hasLength h.1 (by decide)

/-- A valid `ReplaceOrder` declares its struct. -/
theorem validateReplaceOrder_own {p : Mem} (h : validateReplaceOrder p = true) :
    TcpServer.soupBin.size p = sizeofReplaceOrder := by
  unfold validateReplaceOrder at h
  simp only [Bool.and_eq_true, and_assoc] at h
  exact size_of_hasLength h.1 (by decide)

/-- A valid `CancelOrder` declares its struct. -/
theorem validateCancelOrder_own {p : Mem} (h : validateCancelOrder p = true) :
    TcpServer.soupBin.size p = sizeofCancelOrder :=
  size_of_hasLength (Bool.and_eq_true_iff.mp h).1 (by decide)

/-- A valid `ModifyOrder` declares its struct. -/
theorem validateModifyOrder_own {p : Mem} (h : validateModifyOrder p = true) :
    TcpServer.soupBin.size p = sizeofModifyOrder :=
  size_of_hasLength (Bool.and_eq_true_iff.mp h).1 (by decide)

/-- The validation of a `LoginRequest` depends on its own bytes. -/
theorem validateLoginRequest_congr {p p' : Mem} (h : Mem.Agree sizeofLoginRequest p p') :
    validateLoginRequest p' = validateLoginRequest p := by
  unfold validateLoginRequest LoginRequest.ofMem
  rw [hasLength_congr h (by decide), h.chars (by decide)]

/-- The validation of an `EnterOrder` depends on its own bytes. -/
theorem validateEnterOrder_congr {p p' : Mem} (h : Mem.Agree sizeofEnterOrder p p') :
    validateEnterOrder p' = validateEnterOrder p := by
  unfold validateEnterOrder
  rw [hasLength_congr h (by decide), enterOrder_ofMem_congr h]

/-- The validation of a `ReplaceOrder` depends on its own bytes. -/
theorem validateReplaceOrder_congr {p p' : Mem} (h : Mem.Agree sizeofReplaceOrder p p') :
    validateReplaceOrder p' = validateReplaceOrder p := by
  unfold validateReplaceOrder
  rw [hasLength_congr h (by decide), replaceOrder_ofMem_congr h]

/-- The validation of a `CancelOrder` depends on its own bytes. -/
theorem validateCancelOrder_congr {p p' : Mem} (h : Mem.Agree sizeofCancelOrder p p') :
    validateCancelOrder p' = validateCancelOrder p := by
  unfold validateCancelOrder
  rw [hasLength_congr h (by decide), cancelOrder_ofMem_congr h]

/-- The validation of a `ModifyOrder` depends on its own bytes. -/
theorem validateModifyOrder_congr {p p' : Mem} (h : Mem.Agree sizeofModifyOrder p p') :
    validateModifyOrder p' = validateModifyOrder p := by
  unfold validateModifyOrder
  rw [hasLength_congr h (by decide), modifyOrder_ofMem_congr h]

/-- A request that passes validation is read from the declared bytes of its packet. -/
theorem request_congr {p p' : Mem} (h : Mem.Agree (TcpServer.soupBin.size p) p p') {r : Request}
    (hr : request p = some r) : request p' = some r := by
  have hpacket : ∀ {size : ℕ}, 3 ≤ size → Mem.Agree size p p' →
      (MsgHeader.ofMem p').packetType = (MsgHeader.ofMem p).packetType :=
    fun hsize h => h 2 (by omega)
  have hmsg : ∀ {size : ℕ}, 4 ≤ size → Mem.Agree size p p' →
      (MsgHeader.ofMem p').msgType = (MsgHeader.ofMem p).msgType :=
    fun hsize h => h 3 (by omega)
  -- a validated packet declares the length of its request, so the two agree on all of the request
  unfold request at hr ⊢
  dsimp only at hr ⊢
  by_cases hlogin : (MsgHeader.ofMem p).packetType = PacketType.loginRequest.code
  · rw [if_pos hlogin] at hr
    split at hr
    · rename_i hv
      have hown : Mem.Agree sizeofLoginRequest p p' := validateLoginRequest_own hv ▸ h
      rw [hpacket (by decide) hown, if_pos hlogin, validateLoginRequest_congr hown, if_pos hv]
      exact hr
    · exact nomatch hr
  rw [if_neg hlogin] at hr
  by_cases hlogout : (MsgHeader.ofMem p).packetType = PacketType.logoutRequest.code
  · rw [if_pos hlogout] at hr
    split at hr
    · rename_i hv
      have hown : Mem.Agree sizeofLogoutRequest p p' := size_of_hasLength hv (by decide) ▸ h
      have hv' : validateLogoutRequest p' = true := (hasLength_congr hown (by decide) _).trans hv
      rw [hpacket (by decide) hown, if_neg hlogin, if_pos hlogout, if_pos hv']
      exact hr
    · exact nomatch hr
  rw [if_neg hlogout] at hr
  by_cases hheartbeat : (MsgHeader.ofMem p).packetType = PacketType.clientHeartbeat.code
  · rw [if_pos hheartbeat] at hr
    split at hr
    · rename_i hv
      have hown : Mem.Agree sizeofClientHeartbeat p p' := size_of_hasLength hv (by decide) ▸ h
      have hv' : validateClientHeartbeat p' = true := (hasLength_congr hown (by decide) _).trans hv
      rw [hpacket (by decide) hown, if_neg hlogin, if_neg hlogout, if_pos hheartbeat, if_pos hv']
      exact hr
    · exact nomatch hr
  rw [if_neg hheartbeat] at hr
  by_cases hdata : (MsgHeader.ofMem p).packetType = PacketType.unsequencedData.code
  · rw [if_pos hdata] at hr
    by_cases henter : (MsgHeader.ofMem p).msgType = OutboundMsgType.enterOrder.code
    · rw [if_pos henter] at hr
      split at hr
      · rename_i hv
        have hown : Mem.Agree sizeofEnterOrder p p' := validateEnterOrder_own hv ▸ h
        rw [hpacket (by decide) hown, hmsg (by decide) hown, if_neg hlogin, if_neg hlogout,
          if_neg hheartbeat, if_pos hdata, if_pos henter, validateEnterOrder_congr hown, if_pos hv,
          enterOrder_ofMem_congr hown]
        exact hr
      · exact nomatch hr
    rw [if_neg henter] at hr
    by_cases hreplace : (MsgHeader.ofMem p).msgType = OutboundMsgType.replaceOrder.code
    · rw [if_pos hreplace] at hr
      split at hr
      · rename_i hv
        have hown : Mem.Agree sizeofReplaceOrder p p' := validateReplaceOrder_own hv ▸ h
        rw [hpacket (by decide) hown, hmsg (by decide) hown, if_neg hlogin, if_neg hlogout,
          if_neg hheartbeat, if_pos hdata, if_neg henter, if_pos hreplace,
          validateReplaceOrder_congr hown, if_pos hv, replaceOrder_ofMem_congr hown]
        exact hr
      · exact nomatch hr
    rw [if_neg hreplace] at hr
    by_cases hcancel : (MsgHeader.ofMem p).msgType = OutboundMsgType.cancelOrder.code
    · rw [if_pos hcancel] at hr
      split at hr
      · rename_i hv
        have hown : Mem.Agree sizeofCancelOrder p p' := validateCancelOrder_own hv ▸ h
        rw [hpacket (by decide) hown, hmsg (by decide) hown, if_neg hlogin, if_neg hlogout,
          if_neg hheartbeat, if_pos hdata, if_neg henter, if_neg hreplace, if_pos hcancel,
          validateCancelOrder_congr hown, if_pos hv, cancelOrder_ofMem_congr hown]
        exact hr
      · exact nomatch hr
    rw [if_neg hcancel] at hr
    split at hr
    · rename_i hmodify
      split at hr
      · rename_i hv
        have hown : Mem.Agree sizeofModifyOrder p p' := validateModifyOrder_own hv ▸ h
        rw [hpacket (by decide) hown, hmsg (by decide) hown, if_neg hlogin, if_neg hlogout,
          if_neg hheartbeat, if_pos hdata, if_neg henter, if_neg hreplace, if_neg hcancel,
          if_pos hmodify, validateModifyOrder_congr hown, if_pos hv, modifyOrder_ofMem_congr hown]
        exact hr
      · exact nomatch hr
    · exact nomatch hr
  · rw [if_neg hdata] at hr
    exact nomatch hr

/-- OUCH handles a packet from its declared bytes, whatever they are. -/
theorem determined_size (p : Mem) : Determined p (TcpServer.soupBin.size p) := by
  intro W E s p' h
  show handlePacket E s p' = handlePacket E s p
  have hsize : TcpServer.soupBin.size p' = TcpServer.soupBin.size p :=
    TcpServer.soupBin.size_congr fun i hi => h i (hi.trans_le (Nat.le_add_left 2 _))
  have hrequest : request p' = request p := by
    refine Option.ext fun r => ⟨fun hr => ?_, fun hr => request_congr h hr⟩
    refine request_congr ?_ hr
    rw [hsize]
    exact h.symm
  rcases hl : s.l with _ | _
  · rw [handlePacket_noLogger E hl, handlePacket_noLogger E hl]
  · rw [handlePacket_eq E hl, handlePacket_eq E hl, hrequest]

end OuchSession

/-! ## BOE -/

namespace BoeSession

open Boe

/-- What the session does with a packet depends on its first `n` bytes only. -/
def Handled (p : Mem) (n : ℕ) : Prop :=
  ∀ (W : Type) (E : Env W) (s : BoeSession W) (p' : Mem), Mem.Agree n p p' →
    handlePacket E s p' = handlePacket E s p

/-- What a packet causes depends on its first `n` bytes only, and the log call before it does no harm. -/
def Determined (p : Mem) (n : ℕ) : Prop :=
  ∀ (W : Type) (E : Env W) (s : BoeSession W), ∃ t, ∀ p', Mem.Agree n p p' →
    TcpServer.turn TcpServer.boe (sessionClass E) s (p', n) = .ok t

/-- A packet of a member is handled exactly if its log text fits. -/
theorem turn_eq_ok_iff {W : Type} {E : Env W} {s t : BoeSession W} {p : Mem} {n : ℕ} :
    TcpServer.turn TcpServer.boe (sessionClass E) s (p, n) = .ok t ↔
      LogText.Fits p ∧ handlePacket E s p = t :=
  TcpServer.turn_eq_ok_iff.trans (and_congr decide_eq_true_iff (by rw [sessionClass, Except.ok.injEq]))

/-- The log call and the session, each on its own. -/
theorem determined_iff_and {p : Mem} {n : ℕ} : Determined p n ↔
    (∀ p', Mem.Agree n p p' → LogText.Fits p') ∧ Handled p n := by
  unfold Determined
  simp only [turn_eq_ok_iff]
  constructor
  · intro h
    refine ⟨fun p' hp' => ?_, fun W E s p' hp' => ?_⟩
    · obtain ⟨t, ht⟩ := h Unit quietEnv (init quietEnv ())
      exact (ht p' hp').1
    · obtain ⟨t, ht⟩ := h W E s
      exact (ht p' hp').2.trans (ht p (.refl n p)).2.symm
  · rintro ⟨hfits, hsame⟩ W E s
    exact ⟨_, fun p' hp' => ⟨hfits p' hp', hsame W E s p' hp'⟩⟩

/-- How many bytes the handler of a packet of the given type reads: up to the type, or up to the last
field of the struct that the type calls for. -/
def bytesRead (type : UInt8) : ℕ :=
  if type = MsgType.loginRequest.code then 74
  else if type = MsgType.newOrder.code then 99
  else if type = MsgType.cancelOrder.code then 30
  else if type = MsgType.modifyOrder.code then 73
  else 5

/-- Every packet is read as far as its type. -/
theorem five_le_bytesRead (type : UInt8) : 5 ≤ bytesRead type := by
  unfold bytesRead
  split
  · decide
  split
  · decide
  split
  · decide
  split
  · decide
  · decide

/-- A packet of this type is a login request. -/
theorem request_login {p : Mem} (h : p 4 = MsgType.loginRequest.code) :
    request p = some (.login (LoginRequest.ofMem p)) := if_pos h

/-- A packet of this type is a heartbeat. -/
theorem request_heartbeat {p : Mem} (h : p 4 = MsgType.clientHeartbeat.code) :
    request p = some .heartbeat := by
  have htype : (MsgHeader.ofMem p).type = MsgType.clientHeartbeat.code := h
  unfold request
  dsimp only
  rw [htype]
  rfl

/-- A packet of this type is a new order. -/
theorem request_enter {p : Mem} (h : p 4 = MsgType.newOrder.code) :
    request p = some (.enter (NewOrder.ofMem p)) := by
  have htype : (MsgHeader.ofMem p).type = MsgType.newOrder.code := h
  unfold request
  dsimp only
  rw [htype]
  rfl

/-- A packet of this type is a cancel. -/
theorem request_cancel {p : Mem} (h : p 4 = MsgType.cancelOrder.code) :
    request p = some (.cancel (CancelOrder.ofMem p)) := by
  have htype : (MsgHeader.ofMem p).type = MsgType.cancelOrder.code := h
  unfold request
  dsimp only
  rw [htype]
  rfl

/-- A packet of this type is a modification. -/
theorem request_modify {p : Mem} (h : p 4 = MsgType.modifyOrder.code) :
    request p = some (.modify (ModifyOrder.ofMem p)) := by
  have htype : (MsgHeader.ofMem p).type = MsgType.modifyOrder.code := h
  unfold request
  dsimp only
  rw [htype]
  rfl

/-- A packet of any other type asks for nothing. -/
theorem request_none {p : Mem} (hlogin : p 4 ≠ MsgType.loginRequest.code)
    (hheartbeat : p 4 ≠ MsgType.clientHeartbeat.code) (hnew : p 4 ≠ MsgType.newOrder.code)
    (hcancel : p 4 ≠ MsgType.cancelOrder.code) (hmodify : p 4 ≠ MsgType.modifyOrder.code) :
    request p = none := by
  unfold request MsgHeader.ofMem
  dsimp only
  rw [if_neg hlogin, if_neg hheartbeat, if_neg hnew, if_neg hcancel, if_neg hmodify]

/-- A request is read from the bytes up to the last field of its struct. -/
theorem request_congr {p p' : Mem} (h : Mem.Agree (bytesRead (p 4)) p p') :
    request p' = request p := by
  have htype : p' 4 = p 4 := h 4 (five_le_bytesRead _)
  by_cases hlogin : p 4 = MsgType.loginRequest.code
  · rw [hlogin] at h
    replace h : Mem.Agree 74 p p' := h
    rw [request_login hlogin, request_login (htype.trans hlogin)]
    unfold LoginRequest.ofMem
    rw [h 32 (by decide), h.chars (by decide)]
  by_cases hheartbeat : p 4 = MsgType.clientHeartbeat.code
  · rw [request_heartbeat hheartbeat, request_heartbeat (htype.trans hheartbeat)]
  by_cases hnew : p 4 = MsgType.newOrder.code
  · rw [hnew] at h
    replace h : Mem.Agree 99 p p' := h
    rw [request_enter hnew, request_enter (htype.trans hnew)]
    unfold NewOrder.ofMem Token.ofMem
    rw [h.chars (by decide), h.chars (by decide), h.chars (by decide), h.u32 (by decide),
      h.u32 (by decide), h.u64 (by decide), h 30 (by decide), h 60 (by decide), h 77 (by decide),
      h 98 (by decide)]
  by_cases hcancel : p 4 = MsgType.cancelOrder.code
  · rw [hcancel] at h
    replace h : Mem.Agree 30 p p' := h
    rw [request_cancel hcancel, request_cancel (htype.trans hcancel)]
    unfold CancelOrder.ofMem Token.ofMem
    rw [h.chars (by decide)]
  by_cases hmodify : p 4 = MsgType.modifyOrder.code
  · rw [hmodify] at h
    replace h : Mem.Agree 73 p p' := h
    rw [request_modify hmodify, request_modify (htype.trans hmodify)]
    unfold ModifyOrder.ofMem Token.ofMem
    rw [h.chars (by decide), h.chars (by decide), h.chars (by decide), h.u32 (by decide),
      h.u64 (by decide), h 69 (by decide), h 70 (by decide), h 71 (by decide), h 72 (by decide)]
  · rw [request_none hlogin hheartbeat hnew hcancel hmodify]
    rw [← htype] at hlogin hheartbeat hnew hcancel hmodify
    exact request_none hlogin hheartbeat hnew hcancel hmodify

/-- A packet that holds all that its handler reads is handled from its own bytes. -/
theorem handled_of_bytesRead_le {p : Mem} {n : ℕ} (h : bytesRead (p 4) ≤ n) : Handled p n := by
  intro W E s p' hagree
  rw [handlePacket_eq, handlePacket_eq, request_congr (hagree.mono h)]

/-- The type of a packet shorter than 5 bytes is not one of its own bytes. -/
theorem five_le_of_handled {p : Mem} {n : ℕ} (h : Handled p n) : 5 ≤ n := by
  by_contra hn
  have hlogin := h Unit quietEnv (init quietEnv ()) _
    (Mem.agree_update (k := 4) (by omega) p MsgType.loginRequest.code)
  have hheartbeat := h Unit quietEnv (init quietEnv ()) _
    (Mem.agree_update (k := 4) (by omega) p MsgType.clientHeartbeat.code)
  have hsame := hlogin.trans hheartbeat.symm
  rw [handlePacket_eq, handlePacket_eq, request_login (Function.update_self ..),
    request_heartbeat (Function.update_self ..)] at hsame
  have hout := congrArg (fun s : BoeSession Unit => s.pendingOutMessages.length) hsame
  exact absurd (show 1 = 0 from hout) Nat.one_ne_zero

/-- The byte after a byte is another one. -/
theorem succ_ne_self (b : UInt8) : b + 1 ≠ b := by
  intro h
  have hb := congrArg UInt8.toNat h
  rw [UInt8.toNat_add] at hb
  have hlt := b.toNat_lt
  have hone : (1 : UInt8).toNat = 1 := rfl
  omega

/-- A byte that changes what a packet causes in some state belongs to the packet. -/
theorem lt_of_handled {p : Mem} {n k : ℕ} (h : Handled p n) {s : BoeSession Unit}
    (hk : handlePacket quietEnv s (Function.update p k (p k + 1)) ≠ handlePacket quietEnv s p) :
    k < n := by
  by_contra hn
  exact hk (h Unit quietEnv s _ (Mem.agree_update (by omega) p _))

/-- The last byte of a login request is echoed. -/
theorem login_reads {p : Mem} {n : ℕ} (h : Handled p n)
    (htype : p 4 = MsgType.loginRequest.code) : 74 ≤ n := by
  refine lt_of_handled h (k := 73) (s := init quietEnv ()) fun hsame => ?_
  rw [handlePacket_eq, handlePacket_eq, request_login htype,
    request_login ((Function.update_of_ne (by decide) _ p).trans htype)] at hsame
  have hout : [OutMsg.loginResponse _] = [OutMsg.loginResponse _] :=
    congrArg Session.pendingOutMessages hsame
  injection hout with hmsg
  injection hmsg with hresponse
  have hlast := congrArg (fun m : LoginResponse => m.paramGroups 39) hresponse
  exact succ_ne_self (p 73) ((Function.update_self 73 _ p).symm.trans hlast)

/-- A new session accepts any order. -/
theorem enterOrder_init (no : NewOrder) : ∃ d,
    (enterOrder quietEnv (init quietEnv ()) no).activeOrders =
      AList.insert no.token.str (BoeOrder.parseOrder d no) ∅ := by
  rcases enterOrder_cases quietEnv (init quietEnv ()) no with ⟨hnot, -⟩ | ⟨-, w, d, m, -, -, -, h⟩
  · exact absurd ⟨AList.notMem_empty _, rfl⟩ hnot
  · rw [h]
    exact ⟨d, rfl⟩

/-- The last byte of a new order is kept with the order. -/
theorem enter_reads {p : Mem} {n : ℕ} (h : Handled p n)
    (htype : p 4 = MsgType.newOrder.code) : 99 ≤ n := by
  refine lt_of_handled h (k := 98) (s := init quietEnv ()) fun hsame => ?_
  rw [handlePacket_eq, handlePacket_eq, request_enter htype,
    request_enter ((Function.update_of_ne (by decide) _ p).trans htype)] at hsame
  generalize hp : Function.update p 98 (p 98 + 1) = p' at hsame
  have hagree : Mem.Agree 98 p p' := hp ▸ Mem.agree_update (le_refl 98) p _
  obtain ⟨o, ho⟩ := enterOrder_init (NewOrder.ofMem p)
  obtain ⟨o', ho'⟩ := enterOrder_init (NewOrder.ofMem p')
  have hactive := ho'.symm.trans ((congrArg Session.activeOrders hsame).trans ho)
  have htoken : (NewOrder.ofMem p').token = (NewOrder.ofMem p).token :=
    congrArg TokenOf.mk (hagree.chars (by decide))
  have hlook := congrArg (AList.lookup (NewOrder.ofMem p).token.str) hactive
  rw [AList.lookup_insert, htoken, AList.lookup_insert] at hlook
  have hdisplay : p' 98 = p 98 := congrArg (fun o => o.display) (Option.some.inj hlook)
  rw [← hp, Function.update_self] at hdisplay
  exact succ_ne_self _ hdisplay

/-- The last byte of a cancel belongs to the token that gets an entry. -/
theorem cancel_reads {p : Mem} {n : ℕ} (h : Handled p n)
    (htype : p 4 = MsgType.cancelOrder.code) : 30 ≤ n := by
  refine lt_of_handled h (k := 29) (s := init quietEnv ()) fun hsame => ?_
  rw [handlePacket_eq, handlePacket_eq, request_cancel htype,
    request_cancel ((Function.update_of_ne (by decide) _ p).trans htype)] at hsame
  generalize hp : Function.update p 29 (p 29 + 1) = p' at hsame
  have hentry : ∀ co, ∃ o, (cancelOrder quietEnv (init quietEnv ()) co).activeOrders =
      KeyedMap.touch co.origToken.str o ∅ := by
    intro co
    rcases cancelOrder_cases quietEnv (init quietEnv ()) co with
      ⟨⟨o, ho, -⟩, -⟩ | ⟨-, w, ⟨-, hs⟩ | ⟨-, m, hs⟩⟩
    · exact nomatch ho
    · rw [hs]
      exact ⟨_, rfl⟩
    · rw [hs]
      exact ⟨_, rfl⟩
  obtain ⟨o, ho⟩ := hentry (CancelOrder.ofMem p)
  obtain ⟨o', ho'⟩ := hentry (CancelOrder.ofMem p')
  have hactive : KeyedMap.touch (CancelOrder.ofMem p').origToken.str o' ∅ =
      KeyedMap.touch (CancelOrder.ofMem p).origToken.str o ∅ :=
    ho'.symm.trans ((congrArg Session.activeOrders hsame).trans ho)
  have hmem : (CancelOrder.ofMem p').origToken.str ∈
      KeyedMap.touch (CancelOrder.ofMem p).origToken.str o ∅ := by
    rw [← hactive]
    exact KeyedMap.mem_touch.mpr (.inl rfl)
  have htoken := TokenOf.str_inj.mp
    ((KeyedMap.mem_touch.mp hmem).resolve_right (AList.notMem_empty _))
  have hlast : p' 29 = p 29 := congrArg (fun t : Token => t.val 19) htoken
  rw [← hp, Function.update_self] at hlast
  exact succ_ne_self _ hlast

/-- The last byte of a modification of an active order is queued. -/
theorem modify_reads {p : Mem} {n : ℕ} (h : Handled p n)
    (htype : p 4 = MsgType.modifyOrder.code) : 73 ≤ n := by
  generalize hs : enterOrder quietEnv (init quietEnv ())
    { NewOrder.ofMem (fun _ => 0) with token := Token.ofMem p 30 } = s
  refine lt_of_handled h (k := 72) (s := s) fun hsame => ?_
  rw [handlePacket_eq, handlePacket_eq, request_modify htype,
    request_modify ((Function.update_of_ne (by decide) _ p).trans htype)] at hsame
  generalize hp : Function.update p 72 (p 72 + 1) = p' at hsame
  have hagree : Mem.Agree 72 p p' := hp ▸ Mem.agree_update (le_refl 72) p _
  have hactive : (Token.ofMem p 30).str ∈ s.activeOrders := by
    obtain ⟨d, hd⟩ := enterOrder_init { NewOrder.ofMem (fun _ => 0) with token := Token.ofMem p 30 }
    rw [← hs, hd]
    exact (AList.mem_insert _).mpr (.inl rfl)
  have hqueue : ∀ mo : ModifyOrder, mo.origToken.str ∈ s.activeOrders →
      (modifyOrder quietEnv s mo).pendingModify = s.pendingModify ++ [.parseModifyOrder mo] := by
    intro mo hmo
    rcases modifyOrder_cases quietEnv s mo with ⟨hno | hno, -⟩ | ⟨-, -, w, he⟩
    · exact absurd hmo hno.1
    · exact absurd hno Bool.noConfusion
    · rw [he]
  have htoken : (ModifyOrder.ofMem p').origToken = Token.ofMem p 30 :=
    congrArg TokenOf.mk (hagree.chars (by decide))
  have hboth := congrArg Session.pendingModify hsame
  have hp' := hqueue (ModifyOrder.ofMem p') (htoken ▸ hactive)
  have hreqs := List.append_cancel_left (hp'.symm.trans (hboth.trans
    (hqueue (ModifyOrder.ofMem p) hactive)))
  have hside : p' 72 = p 72 :=
    congrArg (fun r : BoeModifyOrderReq => r.side) (List.cons.inj hreqs).1
  rw [← hp, Function.update_self] at hside
  exact succ_ne_self _ hside

/-- **Over-reads in BOE.** A packet is handled from its own bytes exactly when it holds all that its
handler reads. -/
theorem handled_iff {p : Mem} {n : ℕ} : Handled p n ↔ bytesRead (p 4) ≤ n := by
  refine ⟨fun h => ?_, handled_of_bytesRead_le⟩
  unfold bytesRead
  split
  · rename_i hlogin
    exact login_reads h hlogin
  split
  · rename_i hnew
    exact enter_reads h hnew
  split
  · rename_i hcancel
    exact cancel_reads h hcancel
  split
  · rename_i hmodify
    exact modify_reads h hmodify
  · exact five_le_of_handled h

/-- The memories that agree with a packet are those that it is written to. -/
theorem forall_agree_iff {bs : List UInt8} {m : Mem} {P : Mem → Prop} :
    (∀ p', Mem.Agree bs.length (Mem.write bs m) p' → P p') ↔ ∀ behind, P (Mem.write bs behind) := by
  constructor
  · intro h behind
    exact h _ fun i hi => Printf.write_congr hi behind m
  · intro h p' hp'
    have hwrite : Mem.write bs p' = p' := by
      funext i
      by_cases hi : i < bs.length
      · exact (Printf.write_congr hi p' m).trans (hp' i hi).symm
      · exact Printf.write_apply_of_le (Nat.not_lt.mp hi) p'
    exact hwrite ▸ h p'

/-- **Own bytes in BOE.** A packet is logged and handled from its own bytes exactly when it holds all that
its handler reads, and a `LoginResponse` is logged inside the buffer even with the greatest bytes behind
it. -/
theorem determined_iff {bs : List UInt8} (m : Mem) : Determined (Mem.write bs m) bs.length ↔
    bytesRead (bs.getD 4 0) ≤ bs.length ∧ LogText.Fits (Printf.followedBy bs 0xFF) := by
  rw [determined_iff_and, forall_agree_iff, and_comm, handled_iff]
  by_cases hlong : 4 < bs.length
  · -- the type is one of the packet's own bytes
    have htype : Mem.write bs m 4 = bs.getD 4 0 := by
      show bs.getD 4 _ = _
      rw [List.getD_eq_getElem _ _ hlong, List.getD_eq_getElem _ _ hlong]
    rw [htype, LogText.forall_fits_write_iff hlong]
  · -- the packet is too short whatever its type is
    have hread := five_le_bytesRead (Mem.write bs m 4)
    have hread' := five_le_bytesRead (bs.getD 4 0)
    exact iff_of_false (fun h => by omega) fun h => by omega

end BoeSession

/-! ## The loop over one read -/

/-- Every packet that the loop meets lies inside the `n` received bytes, with its header, and what it
causes depends on its own bytes only. -/
def OwnBytes (f : Format) (header : ℕ) (D : Mem → ℕ → Prop) (buf : Mem) (n : ℕ) : Prop :=
  ∀ q ∈ starts f buf n 0, q + f.size (buf.at q) ≤ n ∧ q + header ≤ n ∧
    D (buf.at q) (f.size (buf.at q))

/-- The bytes are whole packets, each of which holds the bytes it declares and has the property `R`;
the last one holds a whole header. -/
def ConsistsOf (f : Format) (header : ℕ) (R : List UInt8 → Prop) (bs : List UInt8) : Prop :=
  ∃ group : List (List UInt8), group.flatten = bs ∧ (∀ p ∈ group, f.WellFormed p ∧ R p) ∧
    ∀ p ∈ group.getLast?, header ≤ p.length

section

variable {f : Format} {header : ℕ} {D : Mem → ℕ → Prop} {R : List UInt8 → Prop}

/-- Whole packets that determine what they cause do so in any buffer. -/
theorem ConsistsOf.ownBytes {bs : List UInt8} (h : ConsistsOf f header R bs) (behind : Mem)
    (hD : ∀ p m, f.WellFormed p → R p → D (Mem.write p m) p.length) :
    OwnBytes f header D (Mem.write bs behind) bs.length := by
  obtain ⟨group, rfl, hgroup, hlast⟩ := h
  intro q hq
  have hat : (Mem.write group.flatten behind).at 0 = Mem.write group.flatten behind := Mem.at_zero _
  rw [← Nat.zero_add group.flatten.length] at hq
  obtain ⟨pre, p, post, rfl, rfl, hsize, m, hm⟩ :=
    starts_of_wellFormed (fun p hp => (hgroup p hp).1) hat q hq
  have hp := hgroup p (List.mem_append_right pre List.mem_cons_self)
  rw [hsize, hm, Nat.zero_add]
  have hlen : (pre ++ p :: post).flatten.length =
      pre.flatten.length + p.length + post.flatten.length := by
    rw [List.flatten_append, List.flatten_cons, List.length_append, List.length_append,
      Nat.add_assoc]
  refine ⟨by omega, ?_, hD p m hp.1 hp.2⟩
  rcases List.eq_nil_or_concat post with rfl | ⟨post', p', rfl⟩
  · have hheader : header ≤ p.length := hlast p (by simp)
    omega
  · -- the header may reach into the packets behind
    have hheader : header ≤ p'.length := by
      refine hlast p' ?_
      rw [List.concat_eq_append, ← List.cons_append, ← List.append_assoc, List.getLast?_concat]
      rfl
    have hpost : (post'.concat p').flatten.length = post'.flatten.length + p'.length := by
      rw [List.concat_eq_append, List.flatten_append, List.length_append, List.flatten_singleton]
    omega

/-- Packets that lie in the read and determine what they cause are whole. -/
theorem OwnBytes.consistsOf {bs : List UInt8} {behind : Mem}
    (h : OwnBytes f header D (Mem.write bs behind) bs.length)
    (hheader : ∀ m, D m (f.size m) → f.header ≤ f.size m)
    (hR : ∀ p m, f.WellFormed p → D (Mem.write p m) p.length → R p) :
    ConsistsOf f header R bs := by
  generalize hbuf : Mem.write bs behind = buf at h
  have hflat := packets_of_inside (f := f) (Nat.zero_le bs.length) fun q hq => (h q hq).1
  rw [Nat.sub_zero, Mem.at_zero, ← hbuf, Mem.take_write, hbuf] at hflat
  refine ⟨packets f buf bs.length 0, hflat, ?_, ?_⟩
  · intro p hp
    unfold packets at hp
    rw [frames_eq_starts, List.map_map] at hp
    obtain ⟨q, hq, rfl⟩ := List.mem_map.mp hp
    obtain ⟨-, -, hdet⟩ := h q hq
    dsimp only [Function.comp_apply]
    have hlong : f.header ≤ f.size (buf.at q) := hheader _ hdet
    have hwf : f.WellFormed ((buf.at q).take (f.size (buf.at q))) := by
      rw [Format.WellFormed, Mem.length_take]
      refine ⟨hlong, f.size_congr fun i hi => ?_⟩
      exact Mem.write_take_apply _ _ (hi.trans_le hlong)
    refine ⟨hwf, hR _ (buf.at q) hwf ?_⟩
    rw [Mem.write_take, Mem.length_take]
    exact hdet
  · intro p hp
    obtain ⟨q, hq, rfl, hend⟩ := getLast_packets hp
    obtain ⟨hin, hhead, -⟩ := h q hq
    rw [Mem.length_take]
    omega

end

/-- **Own bytes.** For every buffer and every number of received bytes: OUCH handles each packet from
its own received bytes exactly when the received bytes are whole packets and the last one holds a
header; BOE exactly when, besides, each packet holds all that the handler of its type reads, and a
`LoginResponse` is logged inside the buffer even with the greatest bytes behind it. -/
theorem ownBytes_iff (bs : List UInt8) (behind : Mem) :
    (OwnBytes TcpServer.soupBin 3 OuchSession.Determined (Mem.write bs behind) bs.length ↔
      ConsistsOf TcpServer.soupBin 3 (fun _ => True) bs) ∧
    (OwnBytes TcpServer.boe 10 BoeSession.Determined (Mem.write bs behind) bs.length ↔
      ConsistsOf TcpServer.boe 10 (fun p => BoeSession.bytesRead (p.getD 4 0) ≤ p.length ∧
        Boe.LogText.Fits (Printf.followedBy p 0xFF)) bs) := by
  constructor
  · constructor
    · intro h
      refine h.consistsOf (fun m _ => ?_) fun _ _ _ _ => trivial
      exact Nat.le_add_left 2 _
    · intro h
      refine h.ownBytes behind fun p m hwf _ => ?_
      rw [← hwf.size_write m]
      exact OuchSession.determined_size _
  · constructor
    · intro h
      refine h.consistsOf (fun m hdet => ?_) fun p m _ hdet => (BoeSession.determined_iff m).mp hdet
      have hhandled := (BoeSession.determined_iff_and.mp hdet).2
      exact le_trans (by decide) (BoeSession.five_le_of_handled hhandled)
    · intro h
      exact h.ownBytes behind fun p m _ hp => (BoeSession.determined_iff m).mpr hp

/-- The first place at which the loop finds a packet. -/
theorem zero_mem_starts (f : Format) (buf : Mem) {n : ℕ} (hn : 0 < n) : 0 ∈ starts f buf n 0 := by
  rw [starts, if_pos hn]
  exact List.mem_cons_self

/-- A BOE cancel that ends with its header. -/
def cancelHeader : List UInt8 := [0xBA, 0xBA, 8, 0, 0x39, 0, 0, 0, 0, 0]

/-- A first byte alone is handed on by OUCH as a packet that reaches beyond it, and a BOE cancel that
ends with its header is handled with the bytes behind it for a token. -/
theorem not_ownBytes :
    (¬ ∀ bs behind, 1 ≤ bs.length → bs.length ≤ 4096 →
      OwnBytes TcpServer.soupBin 3 OuchSession.Determined (Mem.write bs behind) bs.length) ∧
    ¬ ∀ bs behind, 1 ≤ bs.length → bs.length ≤ 4096 →
      OwnBytes TcpServer.boe 10 BoeSession.Determined (Mem.write bs behind) bs.length := by
  constructor
  · intro h
    obtain ⟨hin, -, -⟩ := h [0] TcpServer.zeros (by decide) (by decide) 0
      (zero_mem_starts _ _ (by decide))
    have hsize : 2 ≤ TcpServer.soupBin.size ((Mem.write [0] TcpServer.zeros).at 0) :=
      Nat.le_add_left 2 _
    have hone : [(0 : UInt8)].length = 1 := rfl
    omega
  · intro h
    obtain ⟨-, -, hdet⟩ := h cancelHeader TcpServer.zeros (by decide) (by decide) 0
      (zero_mem_starts _ _ (by decide))
    have hread := BoeSession.cancel_reads (BoeSession.determined_iff_and.mp hdet).2 rfl
    have hsize : TcpServer.boe.size ((Mem.write cancelHeader TcpServer.zeros).at 0) = 10 := rfl
    omega

end Evtsim
