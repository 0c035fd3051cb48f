import Evtsim.Ouch.Session

/-!
# What the functions of `ouch_session` can do

One lemma a function: each says in which ways the function can change a session, with the test that
leads there. The proofs about runs split on these lemmas and never unfold the functions again. The
surroundings and the timestamps are left open, since nothing is assumed of them.
-/

namespace Evtsim

open Wire Ouch Session

namespace OuchSession

variable {W : Type} (E : Env W)

/-! ## Packets as requests -/

/-- What a packet asks for. -/
inductive Request
  | login
  | logout
  | heartbeat
  | enter (eo : EnterOrder)
  | replace (ro : ReplaceOrder)
  | cancel (co : CancelOrder)
  | modify (mo : ModifyOrder)

/-- The request of a packet that passes validation. -/
def request (p : Mem) : Option Request :=
  let h := MsgHeader.ofMem p
  if h.packetType = PacketType.loginRequest.code then
    if validateLoginRequest p then some .login else none
  else if h.packetType = PacketType.logoutRequest.code then
    if validateLogoutRequest p then some .logout else none
  else if h.packetType = PacketType.clientHeartbeat.code then
    if validateClientHeartbeat p then some .heartbeat else none
  else if h.packetType = PacketType.unsequencedData.code then
    if h.msgType = OutboundMsgType.enterOrder.code then
      if validateEnterOrder p then some (.enter (EnterOrder.ofMem p).fromNetwork) else none
    else if h.msgType = OutboundMsgType.replaceOrder.code then
      if validateReplaceOrder p then some (.replace (ReplaceOrder.ofMem p).fromNetwork) else none
    else if h.msgType = OutboundMsgType.cancelOrder.code then
      if validateCancelOrder p then some (.cancel (CancelOrder.ofMem p).fromNetwork) else none
    else if h.msgType = OutboundMsgType.modifyOrder.code then
      if validateModifyOrder p then some (.modify (ModifyOrder.ofMem p).fromNetwork) else none
    else none
  else none

/-- The handler of a request. -/
def handle (s : OuchSession W) : Request → OuchSession W
  | .login => handleLoginRequest E s
  | .logout => handleLogoutRequest s
  | .heartbeat => handleClientHeartbeat E s
  | .enter eo => enterOrder E s eo
  | .replace ro => replaceOrder E s ro
  | .cancel co => cancelOrder E s co
  | .modify mo => modifyOrder E s mo

/-- Handle a request, if there is one. -/
def respond (s : OuchSession W) : Option Request → OuchSession W
  | none => s
  | some r => handle E s r

/-- A session with a logger does what the packet asks for, if anything. -/
theorem handlePacket_eq {s : OuchSession W} (hl : s.l = true) (p : Mem) :
    handlePacket E s p = .ok (respond E s (request p)) := by
  unfold handlePacket validate request handleMessage
  simp only [hl, Bool.not_true, Bool.false_eq_true, if_false]
  -- the dispatch of `validate` is made once more by `handle_packet` and `handle_message`
  by_cases hlogin : (MsgHeader.ofMem p).packetType = PacketType.loginRequest.code
  · simp only [if_pos hlogin]
    cases validateLoginRequest p <;> rfl
  by_cases hlogout : (MsgHeader.ofMem p).packetType = PacketType.logoutRequest.code
  · simp only [if_neg hlogin, if_pos hlogout]
    cases validateLogoutRequest p <;> rfl
  by_cases hheartbeat : (MsgHeader.ofMem p).packetType = PacketType.clientHeartbeat.code
  · simp only [if_neg hlogin, if_neg hlogout, if_pos hheartbeat]
    cases validateClientHeartbeat p <;> rfl
  by_cases hdata : (MsgHeader.ofMem p).packetType = PacketType.unsequencedData.code
  · simp only [if_neg hlogin, if_neg hlogout, if_neg hheartbeat, if_pos hdata]
    by_cases henter : (MsgHeader.ofMem p).msgType = OutboundMsgType.enterOrder.code
    · simp only [if_pos henter]
      cases validateEnterOrder p <;> rfl
    by_cases hreplace : (MsgHeader.ofMem p).msgType = OutboundMsgType.replaceOrder.code
    · simp only [if_neg henter, if_pos hreplace]
      cases validateReplaceOrder p <;> rfl
    by_cases hcancel : (MsgHeader.ofMem p).msgType = OutboundMsgType.cancelOrder.code
    · simp only [if_neg henter, if_neg hreplace, if_pos hcancel]
      cases validateCancelOrder p <;> rfl
    by_cases hmodify : (MsgHeader.ofMem p).msgType = OutboundMsgType.modifyOrder.code
    · simp only [if_neg henter, if_neg hreplace, if_neg hcancel, if_pos hmodify]
      cases validateModifyOrder p <;> rfl
    simp only [if_neg henter, if_neg hreplace, if_neg hcancel, if_neg hmodify, respond]
  · simp only [if_neg hlogin, if_neg hlogout, if_neg hheartbeat, if_neg hdata, respond]

/-- Without a logger every packet ends in the exception of `validate`. -/
theorem handlePacket_noLogger {s : OuchSession W} (hl : s.l = false) (p : Mem) :
    handlePacket E s p = .error "evtsim::Logger has not been set" := by
  unfold handlePacket validate
  rw [hl]
  rfl

/-- A packet leaves a session alone or makes it handle one request. -/
theorem step_packet (s : OuchSession W) (p : Mem) :
    ((s.l = false ∨ request p = none) ∧ step E s (.packet p) = s) ∨
      ∃ r, s.l = true ∧ request p = some r ∧ step E s (.packet p) = handle E s r := by
  rcases hl : s.l with _ | _
  · left
    refine ⟨.inl rfl, ?_⟩
    rw [step, handlePacket_noLogger E hl]
  · have hstep : step E s (.packet p) = respond E s (request p) := by
      rw [step, handlePacket_eq E hl]
    rcases hr : request p with _ | r
    · left
      refine ⟨.inr rfl, ?_⟩
      rw [hstep, hr]
      rfl
    · right
      exact ⟨r, rfl, rfl, by rw [hstep, hr]; rfl⟩

/-! ## Order packets -/

/-- `enter_order` accepts the order. -/
def Accepts (s : OuchSession W) (eo : EnterOrder) : Prop :=
  eo.qty ≤ maxShares ∧ s.state = .loggedIn ∧ (E.gate .newOrder s.env).1 = true ∧
    eo.token.str ∉ s.activeOrders ∧ eo.token.str ∉ s.finishedOrders

/-- `enter_order` takes an accepted order into the book and acknowledges it; otherwise it emits at
most a reject. -/
theorem enterOrder_cases (s : OuchSession W) (eo : EnterOrder) :
    (¬ Accepts E s eo ∧ ∃ w, enterOrder E s eo = s.inEnv w ∨
      ∃ m, enterOrder E s eo = s.emit w (.orderRejected m)) ∨
    (Accepts E s eo ∧ ∃ w d m, m.token = eo.token ∧ m.qty = eo.qty ∧
      enterOrder E s eo =
        (s.withActive (s.activeOrders.insert eo.token.str (OuchOrder.parseOrder d eo))).emit w
          (.orderAccepted m)) := by
  unfold enterOrder
  by_cases hqty : maxShares < eo.qty
  · rw [if_pos hqty]
    exact .inl ⟨fun h => absurd h.1 (UInt32.not_le.mpr hqty), _, .inr ⟨_, rfl⟩⟩
  rw [if_neg hqty]
  by_cases hstate : s.state ≠ .loggedIn
  · rw [if_pos hstate]
    exact .inl ⟨fun h => hstate h.2.1, _, .inr ⟨_, rfl⟩⟩
  rw [if_neg hstate]
  rcases hgate : (E.gate .newOrder s.env).1 with _ | _
  · left
    refine ⟨fun h => Bool.false_ne_true (hgate.symm.trans h.2.2.1), ?_⟩
    simp only [hgate, Bool.not_false, if_true]
    exact ⟨_, .inr ⟨_, rfl⟩⟩
  by_cases hfresh : eo.token.str ∉ s.activeOrders ∧ eo.token.str ∉ s.finishedOrders
  · right
    refine ⟨⟨UInt32.not_lt.mp hqty, not_not.mp hstate, hgate, hfresh⟩, ?_⟩
    simp only [hgate, Bool.not_true, Bool.false_eq_true, if_false, if_pos hfresh]
    exact ⟨_, _, _, rfl, ofInt_toNat eo.qty, rfl⟩
  · left
    refine ⟨fun h => hfresh h.2.2.2, ?_⟩
    simp only [hgate, Bool.not_true, Bool.false_eq_true, if_false, if_neg hfresh]
    exact ⟨_, .inl rfl⟩

/-- `modify_order` queues the request of an active order that the gate lets through. -/
theorem modifyOrder_cases (s : OuchSession W) (mo : ModifyOrder) :
    ((mo.token.str ∉ s.activeOrders ∨ (E.gate .modifyOrder s.env).1 = false) ∧
      ∃ w, modifyOrder E s mo = s.inEnv w) ∨
    (mo.token.str ∈ s.activeOrders ∧ (E.gate .modifyOrder s.env).1 = true ∧
      ∃ w, modifyOrder E s mo =
        { s.inEnv w with
          pendingModify := s.pendingModify ++ [.parseModifyOrder mo] }) := by
  unfold modifyOrder
  by_cases hact : mo.token.str ∉ s.activeOrders
  · rw [if_pos hact]
    exact .inl ⟨.inl hact, s.env, rfl⟩
  rw [if_neg hact]
  rcases hgate : (E.gate .modifyOrder s.env).1 with _ | _
  · simp only [hgate, Bool.not_false, if_true]
    exact .inl ⟨.inr trivial, _, rfl⟩
  · simp only [hgate, Bool.not_true, Bool.false_eq_true, if_false]
    exact .inr ⟨not_not.mp hact, trivial, _, rfl⟩

/-- `replace_order` queues every request that the gate lets through. -/
theorem replaceOrder_cases (s : OuchSession W) (ro : ReplaceOrder) :
    ((E.gate .replaceOrder s.env).1 = false ∧ ∃ w, replaceOrder E s ro = s.inEnv w) ∨
    ((E.gate .replaceOrder s.env).1 = true ∧
      ∃ w, replaceOrder E s ro =
        { s.inEnv w with
          pendingReplace := s.pendingReplace ++ [.parseReplaceOrder ro] }) := by
  unfold replaceOrder
  rcases hgate : (E.gate .replaceOrder s.env).1 with _ | _
  · simp only [hgate, Bool.not_false, if_true]
    exact .inl ⟨trivial, _, rfl⟩
  · simp only [hgate, Bool.not_true, Bool.false_eq_true, if_false]
    exact .inr ⟨trivial, _, rfl⟩

/-- `cancel_order` queues the request of an active order that the gate lets through. -/
theorem cancelOrder_cases (s : OuchSession W) (co : CancelOrder) :
    ((co.token.str ∉ s.activeOrders ∨ (E.gate .cancelOrder s.env).1 = false) ∧
      ∃ w, cancelOrder E s co = s.inEnv w) ∨
    (co.token.str ∈ s.activeOrders ∧ (E.gate .cancelOrder s.env).1 = true ∧
      ∃ w, cancelOrder E s co =
        { s.inEnv w with
          pendingCancel := s.pendingCancel ++ [.parseCancelOrder co] }) := by
  unfold cancelOrder
  by_cases hact : co.token.str ∉ s.activeOrders
  · rw [if_pos hact]
    exact .inl ⟨.inl hact, s.env, rfl⟩
  rw [if_neg hact]
  rcases hgate : (E.gate .cancelOrder s.env).1 with _ | _
  · simp only [hgate, Bool.not_false, if_true]
    exact .inl ⟨.inr trivial, _, rfl⟩
  · simp only [hgate, Bool.not_true, Bool.false_eq_true, if_false]
    exact .inr ⟨not_not.mp hact, trivial, _, rfl⟩

/-! ## Loop bodies -/

/-- A pending cancel of no active order, or one that the gate holds back, is rejected. -/
theorem cancelStep_reject {st : Pass W} {co : OuchCancelOrderReq}
    (h : co.token.str ∉ st.1.activeOrders ∨ (E.gate .cancelOrder st.1.env).1 = false) :
    ∃ w m, m.token = co.token ∧ cancelStep E st co = (st.1.emit w (.cancelReject m), st.2) := by
  unfold cancelStep
  rcases hlook : st.1.activeOrders.lookup co.token.str with _ | o
  · exact ⟨_, _, rfl, rfl⟩
  · have hgate := h.resolve_left fun hout => hout (KeyedMap.mem_of_lookup hlook)
    simp only [hgate, Bool.not_false, if_true]
    exact ⟨_, _, rfl, rfl⟩

/-- A pending cancel is rejected; or the order is cancelled as a whole and collected; or the request
asks for no less than there is and nothing happens; or the order is cut down. -/
theorem cancelStep_cases (st : Pass W) (co : OuchCancelOrderReq) :
    ((co.token.str ∉ st.1.activeOrders ∨ (E.gate .cancelOrder st.1.env).1 = false) ∧
      ∃ w m, cancelStep E st co = (st.1.emit w (.cancelReject m), st.2)) ∨
    ∃ o, st.1.activeOrders.lookup co.token.str = some o ∧
      (E.gate .cancelOrder st.1.env).1 = true ∧
      ((co.qty = 0 ∧ ∃ w m, m.token = co.token ∧ m.decrementQty = UInt32.ofInt o.remainingQty ∧
          cancelStep E st co = (st.1.emit w (.orderCanceled m), st.2 ++ [co.token.str])) ∨
        (co.qty ≠ 0 ∧ UInt32.ofInt o.remainingQty ≤ co.qty ∧
          ∃ w, cancelStep E st co = (st.1.inEnv w, st.2)) ∨
        (co.qty ≠ 0 ∧ co.qty < UInt32.ofInt o.remainingQty ∧
          ∃ w m, m.token = co.token ∧ m.decrementQty = UInt32.ofInt o.remainingQty - co.qty ∧
          cancelStep E st co =
            ((st.1.withActive (st.1.activeOrders.insert co.token.str
              { o with remainingQty := co.qty.toNat })).emit w (.orderCanceled m), st.2))) := by
  by_cases hreject : co.token.str ∉ st.1.activeOrders ∨ (E.gate .cancelOrder st.1.env).1 = false
  · obtain ⟨w, m, -, h⟩ := cancelStep_reject E hreject
    exact .inl ⟨hreject, w, m, h⟩
  rw [not_or, not_not, Bool.not_eq_false, KeyedMap.mem_iff_lookup] at hreject
  obtain ⟨⟨o, hlook⟩, hgate⟩ := hreject
  right
  refine ⟨o, hlook, hgate, ?_⟩
  unfold cancelStep
  rw [hlook]
  simp only [hgate, Bool.not_true, Bool.false_eq_true, if_false]
  by_cases hzero : co.qty = 0
  · rw [if_pos hzero]
    exact .inl ⟨hzero, _, _, rfl, rfl, rfl⟩
  rw [if_neg hzero]
  by_cases hle : UInt32.ofInt o.remainingQty ≤ co.qty
  · rw [if_pos hle]
    exact .inr (.inl ⟨hzero, hle, _, rfl⟩)
  · rw [if_neg hle]
    exact .inr (.inr ⟨hzero, UInt32.not_le.mp hle, _, _, rfl, rfl, rfl⟩)

/-- `modify_logic` does not skip the request. -/
def Applies (st : Pass W) (mo : OuchModifyOrderReq) : Prop :=
  ∃ o, st.1.activeOrders.lookup mo.token.str = some o ∧ passesSideSwitch o.side mo.newSide = true

/-- A pending modification is skipped; or it is reported and its order collected; or it is reported
and its order changed. -/
theorem modifyStep_cases (st : Pass W) (mo : OuchModifyOrderReq) :
    (¬ Applies st mo ∧ modifyStep E st mo = st) ∨
    ∃ o, st.1.activeOrders.lookup mo.token.str = some o ∧
      passesSideSwitch o.side mo.newSide = true ∧
      (((mo.reqQty.toNat : ℤ) ≤ o.executedQty ∧ ∃ w m, m.token = mo.token ∧
          modifyStep E st mo = (st.1.emit w (.orderModified m), st.2 ++ [o.token.str])) ∨
        (o.executedQty < mo.reqQty.toNat ∧ ∃ w m, m.token = mo.token ∧
          modifyStep E st mo =
            ((st.1.withActive (st.1.activeOrders.insert mo.token.str
              { o with
                side := mo.newSide
                remainingQty := (mo.reqQty.toNat : ℤ) - o.executedQty })).emit w
              (.orderModified m), st.2))) := by
  unfold modifyStep
  rcases hlook : st.1.activeOrders.lookup mo.token.str with _ | o
  · left
    refine ⟨?_, rfl⟩
    rintro ⟨o, ho, -⟩
    rw [hlook] at ho
    cases ho
  rcases hside : passesSideSwitch o.side mo.newSide with _ | _
  · left
    simp only [hside, Bool.not_false, if_true, and_true]
    rintro ⟨o', ho', hpass⟩
    rw [hlook] at ho'
    cases ho'
    exact Bool.false_ne_true (hside.symm.trans hpass)
  right
  refine ⟨o, rfl, hside, ?_⟩
  simp only [hside, Bool.not_true, Bool.false_eq_true, if_false]
  by_cases hle : (mo.reqQty.toNat : ℤ) ≤ o.executedQty
  · rw [if_pos hle]
    exact .inl ⟨hle, _, _, rfl, rfl⟩
  · rw [if_neg hle]
    exact .inr ⟨Int.not_le.mp hle, _, _, rfl, rfl⟩

/-- The message that `construct_order_replaced` makes of the replaced order. -/
def replacedMessage (raw : Mem) (ts : UInt64) (ro : OuchReplaceOrderReq) (x : OuchOrder) :
    OrderReplaced :=
  { timestamp := ts
    token := x.token
    side := x.side
    qty := UInt32.ofInt x.remainingQty
    symbol := strncpy x.symbol
    price := x.price
    timeInForce := x.timeInForce
    firm := strncpy x.firm
    display := raw 51
    orderReferenceNumber := x.orderID
    capacity := x.capacity
    intermarketSweepEligibility := raw 61
    minQty := x.minQty
    crossType := raw 66
    orderState := .live
    origToken := ro.existingToken
    bboWeightIndicator := '2'.toUInt8 }

/-- A pending replacement that applies moves the changed order to the new token, whatever was held there,
and loses it when the two tokens are equal. -/
theorem replaceStep_of_applies {st : Pass W} {ro : OuchReplaceOrderReq}
    (happly : replaceCancels ro (entry E.ouchOrder st.1 ro.existingToken.str).executedQty = false) :
    ∃ w ts A, (∀ k, A.lookup k =
        if k = ro.existingToken.str then none
        else if k = ro.newToken.str then some (replaced (entry E.ouchOrder st.1 ro.existingToken.str) ro)
        else st.1.activeOrders.lookup k) ∧
      replaceStep E st ro = ((st.1.withActive A).emit w (.orderReplaced
        (replacedMessage (E.raw (subscript E.ouchOrder st.1 ro.existingToken.str).env).1 ts ro
          (replaced (entry E.ouchOrder st.1 ro.existingToken.str) ro))), st.2) := by
  obtain ⟨w, hsub⟩ := subscript_eq E.ouchOrder st.1 ro.existingToken.str
  have hself := lookup_touch_self E.ouchOrder st.1 ro.existingToken.str
  generalize entry E.ouchOrder st.1 ro.existingToken.str = o at *
  unfold replaceStep
  simp only [hsub, inEnv_activeOrders, withActive_activeOrders, hself, happly, Bool.false_eq_true, if_false]
  -- the second subscript, before the swap
  generalize hs' : constructOrderReplaced E _ ro (replaced o ro) = s'
  obtain ⟨w', ts, hs''⟩ : ∃ w' ts, s' = (st.1.withActive ((KeyedMap.touch ro.existingToken.str o
      st.1.activeOrders).insert ro.existingToken.str (replaced o ro))).emit w' (.orderReplaced
        (replacedMessage (E.raw w).1 ts ro (replaced o ro))) := by
    rw [← hs']
    exact ⟨_, _, rfl⟩
  obtain ⟨w'', hsub'⟩ := subscript_eq E.ouchOrder s' ro.newToken.str
  rw [hsub']
  refine ⟨w'', ts, (KeyedMap.swap ro.existingToken.str ro.newToken.str (KeyedMap.touch
    ro.newToken.str (entry E.ouchOrder s' ro.newToken.str) s'.activeOrders)).erase ro.existingToken.str,
    ?_, ?_⟩
  · intro k
    have hlook : s'.activeOrders.lookup ro.existingToken.str = some (replaced o ro) := by
      rw [hs'', emit_activeOrders, withActive_activeOrders, AList.lookup_insert]
    rw [KeyedMap.lookup_swap_erase _ hlook]
    by_cases hk : k = ro.existingToken.str
    · rw [if_pos hk, if_pos hk]
    · rw [if_neg hk, if_neg hk, hs'', emit_activeOrders, withActive_activeOrders,
        KeyedMap.lookup_insert, if_neg hk, KeyedMap.lookup_touch _ _ (.inr hk)]
  · rw [hs'']
    rfl

/-- A pending replacement cancels its order and collects it, or it applies. -/
theorem replaceStep_cases (st : Pass W) (ro : OuchReplaceOrderReq) :
    (replaceCancels ro (entry E.ouchOrder st.1 ro.existingToken.str).executedQty = true ∧
      ∃ w m, m.token = ro.existingToken ∧
        m.decrementQty = UInt32.ofInt (entry E.ouchOrder st.1 ro.existingToken.str).remainingQty ∧
        replaceStep E st ro =
          ((st.1.withActive (KeyedMap.touch ro.existingToken.str
            (entry E.ouchOrder st.1 ro.existingToken.str) st.1.activeOrders)).emit w (.orderCanceled m),
            st.2 ++ [ro.existingToken.str])) ∨
    (replaceCancels ro (entry E.ouchOrder st.1 ro.existingToken.str).executedQty = false ∧
      ∃ w m A, m.token = ro.newToken ∧ m.origToken = ro.existingToken ∧
        (∀ k, A.lookup k =
          if k = ro.existingToken.str then none
          else if k = ro.newToken.str then
            some (replaced (entry E.ouchOrder st.1 ro.existingToken.str) ro)
          else st.1.activeOrders.lookup k) ∧
        replaceStep E st ro = ((st.1.withActive A).emit w (.orderReplaced m), st.2)) := by
  rcases hcancel : replaceCancels ro (entry E.ouchOrder st.1 ro.existingToken.str).executedQty with _ | _
  · right
    obtain ⟨w, ts, A, hA, hs⟩ := replaceStep_of_applies E hcancel
    exact ⟨rfl, w, _, A, rfl, rfl, hA, hs⟩
  · left
    refine ⟨rfl, ?_⟩
    obtain ⟨w, hsub⟩ := subscript_eq E.ouchOrder st.1 ro.existingToken.str
    have hself := lookup_touch_self E.ouchOrder st.1 ro.existingToken.str
    generalize entry E.ouchOrder st.1 ro.existingToken.str = o at *
    unfold replaceStep
    simp only [hsub, inEnv_activeOrders, withActive_activeOrders, hself, hcancel, if_true]
    exact ⟨_, _, rfl, rfl, rfl⟩

/-- Only the countdown and the state of an order differ. -/
def Retimed (o o' : OuchOrder) : Prop := ∃ r st, o' = { o with remainTimeInForce := r, state := st }

/-- An order that is not looked at stays as it is. -/
theorem Retimed.refl (o : OuchOrder) : Retimed o o := ⟨o.remainTimeInForce, o.state, rfl⟩

/-- Two readings of the clock, or of the order, in a row. -/
theorem Retimed.trans {o o' o'' : OuchOrder} (h : Retimed o o') (h' : Retimed o' o'') :
    Retimed o o'' := by
  obtain ⟨r, st, rfl⟩ := h
  obtain ⟨r', st', rfl⟩ := h'
  exact ⟨r', st', rfl⟩

/-- `expired` rewrites the countdown only. -/
theorem retimed_expired (o : OuchOrder) (w : W) : Retimed o (o.expired E w).2.1 := by
  obtain ⟨r, hr⟩ := o.expired_order E w
  exact ⟨r, o.state, hr⟩

/-- `still_active` rewrites the countdown and the state only. -/
theorem retimed_stillActive (o : OuchOrder) (w : W) : Retimed o (o.stillActive E w).2.1 :=
  o.stillActive_order E w

/-- The lot that an execution draws, capped at what remains. -/
def drawn (s : OuchSession W) (o : OuchOrder) : ℤ :=
  min ((1 + (E.rand s.env).1 % 10 : ℤ) * 100) o.remainingQty

/-- A lot above the minimum quantity is turned away. Any other is reported at the price of the order and
moved over in it. -/
theorem constructOrderExecuted_drawn (s : OuchSession W) (k : Key) (o : OuchOrder) :
    ((o.minQty ≠ 0 ∧ (o.minQty.toNat : ℤ) < drawn E s o) ∧
      ∃ w, constructOrderExecuted E s k o (-1) = s.inEnv w) ∨
    ¬ (o.minQty ≠ 0 ∧ (o.minQty.toNat : ℤ) < drawn E s o) ∧
      ∃ w m, m.token = o.token ∧ m.executedQty = UInt32.ofInt (drawn E s o) ∧
        m.executionPrice = o.price ∧ constructOrderExecuted E s k o (-1) =
          (s.withActive (s.activeOrders.insert k
            { o with
              remainingQty := o.remainingQty - drawn E s o
              executedQty := o.executedQty + drawn E s o })).emit w (.executed m) := by
  unfold constructOrderExecuted
  rw [if_neg (by decide)]
  simp only [show (-1 : ℤ) < 0 by decide, if_true]
  split
  · exact .inl ⟨‹_›, _, rfl⟩
  · exact .inr ⟨‹_›, _, _, rfl, rfl, rfl, rfl⟩

/-- An execution reports the filled shares and moves them over in the order, or fills nothing. -/
theorem constructOrderExecuted_cases (s : OuchSession W) (k : Key) {o : OuchOrder}
    (hpos : 0 < o.remainingQty) :
    (∃ w, constructOrderExecuted E s k o (-1) = s.inEnv w) ∨
    ∃ exe w m, 0 < exe ∧ exe ≤ o.remainingQty ∧ m.token = o.token ∧
      m.executedQty = UInt32.ofInt exe ∧
      constructOrderExecuted E s k o (-1) =
        (s.withActive (s.activeOrders.insert k
          { o with
            remainingQty := o.remainingQty - exe
            executedQty := o.executedQty + exe })).emit w (.executed m) := by
  rcases constructOrderExecuted_drawn E s k o with ⟨-, w, h⟩ | ⟨-, w, m, htoken, hqty, -, h⟩
  · exact .inl ⟨w, h⟩
  · have hrand : (0 : ℤ) < (1 + (E.rand s.env).1 % 10) * 100 := by omega
    exact .inr ⟨drawn E s o, w, m, lt_min hrand hpos, min_le_right _ _, htoken, hqty, h⟩

/-- An order that is met is skipped; or cancelled by time and collected; or collected in silence with
nothing left; or filled; or left as it is; or moved to the finished orders. -/
theorem executionStep_cases (st : Pass W) (k : Key) :
    (st.1.activeOrders.lookup k = none ∧ executionStep E st k = st) ∨
    ∃ o, st.1.activeOrders.lookup k = some o ∧
      (((E.gate .execution st.1.env).1 = false ∧
        ∃ w, executionStep E st k = (st.1.inEnv w, st.2)) ∨
      ∃ o' w, Retimed o o' ∧
        ((∃ m, m.token = o.token ∧ m.decrementQty = UInt32.ofInt o.remainingQty ∧
            executionStep E st k =
              ((st.1.withActive (st.1.activeOrders.insert k o')).emit w (.orderCanceled m),
                st.2 ++ [k])) ∨
          (o.remainingQty = 0 ∧
            executionStep E st k =
              ((st.1.withActive (st.1.activeOrders.insert k o')).inEnv w, st.2 ++ [k])) ∨
          (∃ exe m, 0 < exe ∧ exe ≤ o.remainingQty ∧ m.token = o.token ∧
            m.executedQty = UInt32.ofInt exe ∧
            executionStep E st k =
              ((st.1.withActive (st.1.activeOrders.insert k
                { o' with
                  remainingQty := o.remainingQty - exe
                  executedQty := o.executedQty + exe })).emit w (.executed m), st.2)) ∨
          executionStep E st k =
            ((st.1.withActive (st.1.activeOrders.insert k o')).inEnv w, st.2) ∨
          executionStep E st k =
            ({ (st.1.withActive (st.1.activeOrders.insert k o')).inEnv w with
              finishedOrders := st.1.finishedOrders.insert k o' }, st.2 ++ [k]))) := by
  unfold executionStep
  rcases hlook : st.1.activeOrders.lookup k with _ | o
  · exact .inl ⟨rfl, rfl⟩
  right
  refine ⟨o, rfl, ?_⟩
  rcases hgate : (E.gate .execution st.1.env).1 with _ | _
  · simp only [hgate, Bool.not_false, if_true]
    exact .inl ⟨trivial, _, rfl⟩
  right
  simp only [hgate, Bool.not_true, Bool.false_eq_true, if_false]
  -- the first reading of the clock, in `expired`
  obtain ⟨r, t, hex⟩ := retimed_expired E o (E.gate .execution st.1.env).2
  generalize hw : o.expired E (E.gate .execution st.1.env).2 = ex at *
  by_cases hexpired : ex.1 = true
  · rw [if_pos hexpired, hex]
    exact ⟨_, _, ⟨r, t, rfl⟩, .inl ⟨_, rfl, rfl, rfl⟩⟩
  rw [if_neg hexpired]
  by_cases hioc : ex.2.1.timeInForce = 0
  · rw [if_pos hioc]
    by_cases hleft : ex.2.1.remainingQty ≠ 0
    · rw [if_pos hleft, hex]
      exact ⟨_, _, ⟨r, t, rfl⟩, .inl ⟨_, rfl, rfl, rfl⟩⟩
    · rw [if_neg hleft, hex]
      rw [hex] at hleft
      exact ⟨_, _, ⟨r, t, rfl⟩, .inr (.inl ⟨not_not.mp hleft, rfl⟩)⟩
  rw [if_neg hioc]
  -- the second one, in `still_active`; what it leaves is stored over the first
  obtain ⟨r', t', hact⟩ := retimed_stillActive E ex.2.1 ex.2.2
  generalize ha : ex.2.1.stillActive E ex.2.2 = a at *
  have hretimed : Retimed o a.2.1 := by
    rw [hact, hex]
    exact ⟨r', t', rfl⟩
  have hinsert : (st.1.activeOrders.insert k ex.2.1).insert k a.2.1 =
      st.1.activeOrders.insert k a.2.1 := AList.insert_insert _
  by_cases hactive : a.1 = true
  · have hpos : 0 < a.2.1.remainingQty := by
      have hex0 := OuchOrder.remainingQty_pos_of_stillActive (ha ▸ hactive)
      rw [hact]
      exact hex0
    rw [if_pos hactive, hinsert]
    rcases constructOrderExecuted_cases E { st.1.inEnv a.2.2 with
        activeOrders := st.1.activeOrders.insert k a.2.1 } k hpos with
      ⟨w, hnone⟩ | ⟨exe, w, m, h0, hle, htoken, hqty, hexe⟩
    · refine ⟨a.2.1, w, hretimed, .inr (.inr (.inr (.inl ?_)))⟩
      exact congrArg (·, st.2) hnone
    · obtain ⟨r'', t'', hr⟩ := hretimed
      refine ⟨a.2.1, w, ⟨r'', t'', hr⟩, .inr (.inr (.inl ⟨exe, m, h0, ?_, ?_, hqty, ?_⟩))⟩
      · rw [hr] at hle
        exact hle
      · rw [htoken, hr]
      · refine (congrArg (·, st.2) hexe).trans ?_
        rw [AList.insert_insert, hr]
        rfl
  · rw [if_neg hactive, hinsert]
    exact ⟨a.2.1, _, hretimed, .inr (.inr (.inr (.inr rfl)))⟩

/-- `cancel_all` reports an order that is still active and passes over any other. -/
theorem cancelAllStep_cases (st : OuchSession W × ℕ) (k : Key) :
    (st.1.activeOrders.lookup k = none ∧ cancelAllStep E st k = st) ∨
    ∃ o o' w, st.1.activeOrders.lookup k = some o ∧ Retimed o o' ∧
      ((∃ m, m.token = o.token ∧ m.decrementQty = UInt32.ofInt o.remainingQty ∧
          cancelAllStep E st k =
            ((st.1.withActive (st.1.activeOrders.insert k o')).emit w (.orderCanceled m),
              st.2 + 1)) ∨
        cancelAllStep E st k =
          ((st.1.withActive (st.1.activeOrders.insert k o')).inEnv w, st.2)) := by
  unfold cancelAllStep
  rcases hlook : st.1.activeOrders.lookup k with _ | o
  · exact .inl ⟨rfl, rfl⟩
  right
  obtain ⟨r, t, hact⟩ := retimed_stillActive E o st.1.env
  dsimp only
  generalize o.stillActive E st.1.env = a at *
  have htoken : a.2.1.token = o.token := by rw [hact]
  have hleft : a.2.1.remainingQty = o.remainingQty := by rw [hact]
  rcases hactive : a.1 with _ | _
  · refine ⟨o, a.2.1, a.2.2, rfl, ⟨r, t, hact⟩, .inr ?_⟩
    simp only [Bool.false_eq_true, if_false]
    rfl
  · simp only [if_true]
    exact ⟨o, a.2.1, _, rfl, ⟨r, t, hact⟩, .inl ⟨_, htoken, congrArg UInt32.ofInt hleft, rfl⟩⟩

/-! ## Steps that concern no order -/

/-- The messages about what has become of an order. -/
def isReport : Ouch.OutMsg → Bool
  | .orderAccepted _ | .orderCanceled _ | .orderModified _ | .orderReplaced _ | .executed _ => true
  | _ => false

/-- Nothing happens to any order: the maps and the queues stay as they are, and nothing is
reported. -/
abbrev Idle (s s' : OuchSession W) : Prop := Session.Idle (fun _ => ()) isReport s s'

/-- A heartbeat concerns no order. -/
theorem idle_heartbeatLogic (s : OuchSession W) : Idle s (heartbeatLogic E s) :=
  Session.idle_heartbeatLogic E s rfl

/-- A login concerns no order. -/
theorem idle_handleLoginRequest (s : OuchSession W) : Idle s (handleLoginRequest E s) := by
  unfold handleLoginRequest
  dsimp only
  split
  · exact idle_emit s _ rfl
  split
  · exact idle_emit s _ rfl
  · exact ⟨rfl, rfl, rfl, rfl, rfl, rfl, _, rfl, List.forall_mem_singleton.mpr rfl⟩

/-- What one request does to the orders: nothing; or it is an accepted order; or it is queued. -/
theorem handle_cases (s : OuchSession W) (r : Request) :
    (Idle s (handle E s r) ∧ ∀ eo, r = .enter eo → ¬ Accepts E s eo) ∨
    (∃ eo w d m, r = .enter eo ∧ Accepts E s eo ∧ m.token = eo.token ∧ m.qty = eo.qty ∧
      handle E s r =
        (s.withActive (s.activeOrders.insert eo.token.str (OuchOrder.parseOrder d eo))).emit w
          (.orderAccepted m)) ∨
    (∃ mo w, r = .modify mo ∧ mo.token.str ∈ s.activeOrders ∧
      (E.gate .modifyOrder s.env).1 = true ∧
      handle E s r =
        { s.inEnv w with pendingModify := s.pendingModify ++ [.parseModifyOrder mo] }) ∨
    (∃ ro w, r = .replace ro ∧ (E.gate .replaceOrder s.env).1 = true ∧
      handle E s r =
        { s.inEnv w with pendingReplace := s.pendingReplace ++ [.parseReplaceOrder ro] }) ∨
    ∃ co w, r = .cancel co ∧ co.token.str ∈ s.activeOrders ∧
      (E.gate .cancelOrder s.env).1 = true ∧
      handle E s r =
        { s.inEnv w with pendingCancel := s.pendingCancel ++ [.parseCancelOrder co] } := by
  have hquiet : ∀ {s' : OuchSession W} {r' : Request}, Idle s s' → (∀ eo, r' ≠ .enter eo) →
      Idle s s' ∧ ∀ eo, r' = .enter eo → ¬ Accepts E s eo :=
    fun hidle hr => ⟨hidle, fun eo heq => absurd heq (hr eo)⟩
  cases r with
  | login => exact .inl (hquiet (idle_handleLoginRequest E s) fun _ h => nomatch h)
  | logout =>
    refine .inl (hquiet ⟨rfl, rfl, rfl, rfl, rfl, rfl, [], ?_, List.forall_mem_nil _⟩
      fun _ h => nomatch h)
    exact (List.append_nil _).symm
  | heartbeat =>
    refine .inl (hquiet ⟨rfl, rfl, rfl, rfl, rfl, rfl, [], ?_, List.forall_mem_nil _⟩
      fun _ h => nomatch h)
    exact (List.append_nil _).symm
  | enter eo =>
    rcases enterOrder_cases E s eo with ⟨hnot, w, h | ⟨m, h⟩⟩ | ⟨hacc, w, d, m, htoken, hqty, h⟩
    · left
      rw [handle, h]
      exact ⟨idle_inEnv s w, fun _ heq => by cases heq; exact hnot⟩
    · left
      rw [handle, h]
      exact ⟨idle_emit s w rfl, fun _ heq => by cases heq; exact hnot⟩
    · exact .inr (.inl ⟨eo, w, d, m, rfl, hacc, htoken, hqty, h⟩)
  | replace ro =>
    rcases replaceOrder_cases E s ro with ⟨-, w, h⟩ | ⟨hgate, w, h⟩
    · left
      rw [handle, h]
      exact hquiet (idle_inEnv s w) fun _ h => nomatch h
    · exact .inr (.inr (.inr (.inl ⟨ro, w, rfl, hgate, h⟩)))
  | cancel co =>
    rcases cancelOrder_cases E s co with ⟨-, w, h⟩ | ⟨hact, hgate, w, h⟩
    · left
      rw [handle, h]
      exact hquiet (idle_inEnv s w) fun _ h => nomatch h
    · exact .inr (.inr (.inr (.inr ⟨co, w, rfl, hact, hgate, h⟩)))
  | modify mo =>
    rcases modifyOrder_cases E s mo with ⟨-, w, h⟩ | ⟨hact, hgate, w, h⟩
    · left
      rw [handle, h]
      exact hquiet (idle_inEnv s w) fun _ h => nomatch h
    · exact .inr (.inr (.inl ⟨mo, w, rfl, hact, hgate, h⟩))

/-! ## Packets for concrete runs

Tokens of one repeated character and quantities below 256 are enough for these. -/

def bytesEvent (bs : List UInt8) : Event := .packet (Mem.write bs fun _ => 0)

def tokenOf (c : Char) : Token := ⟨fun _ => c.toUInt8⟩

def tokenBytes (c : Char) : List UInt8 := List.replicate 14 c.toUInt8

def loginPacket : Event := bytesEvent ([0, 47, 76] ++ List.replicate 26 32 ++ List.replicate 20 49)

/-- Buy `qty` shares until market close. -/
def enterPacket (c : Char) (qty : UInt8) : Event :=
  bytesEvent ([0, 50, 85, 79] ++ tokenBytes c ++ [66, 0, 0, 0, qty] ++ List.replicate 8 65 ++
    [0, 0, 0, 1] ++ [0, 1, 0x86, 0x9E] ++ List.replicate 4 65 ++ [89, 79, 78, 0, 0, 0, 0, 78, 78])

def cancelPacket (c : Char) (qty : UInt8) : Event :=
  bytesEvent ([0, 20, 85, 88] ++ tokenBytes c ++ [0, 0, 0, qty])

def modifyPacket (c : Char) (side : Char) (qty : UInt8) : Event :=
  bytesEvent ([0, 21, 85, 77] ++ tokenBytes c ++ [side.toUInt8, 0, 0, 0, qty])

def replacePacket (c d : Char) (qty : UInt8) : Event :=
  bytesEvent ([0, 48, 85, 85] ++ tokenBytes c ++ tokenBytes d ++ [0, 0, 0, qty] ++
    [0, 0, 0, 1] ++ [0, 1, 0x86, 0x9E] ++ [89, 78, 0, 0, 0, 0])

/-- A session that has logged in. -/
def loggedIn : List Event := [.setLogger, loginPacket]

end OuchSession

end Evtsim
