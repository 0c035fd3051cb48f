import Evtsim.Boe.Session

/-!
# What the functions of `boe_session` can do

One lemma a function, as for `ouch_session`: the ways in which it can change a session, with the test
that leads there. What a message says is kept where a later proof reads it; the surroundings, the
timestamps and the memory that a struct is built in are left open.
-/

namespace Evtsim

open Wire Boe Session

namespace BoeSession

variable {W : Type} (E : Env W)

/-! ## Packets as requests -/

/-- What a packet asks for. -/
inductive Request
  | login (req : LoginRequest)
  | heartbeat
  | enter (no : NewOrder)
  | cancel (co : CancelOrder)
  | modify (mo : ModifyOrder)

/-- The request of a packet, by its type. -/
def request (p : Mem) : Option Request :=
  let hdr := MsgHeader.ofMem p
  if hdr.type = MsgType.loginRequest.code then some (.login (LoginRequest.ofMem p))
  else if hdr.type = MsgType.clientHeartbeat.code then some .heartbeat
  else if hdr.type = MsgType.newOrder.code then some (.enter (NewOrder.ofMem p))
  else if hdr.type = MsgType.cancelOrder.code then some (.cancel (CancelOrder.ofMem p))
  else if hdr.type = MsgType.modifyOrder.code then some (.modify (ModifyOrder.ofMem p))
  else none

/-- The handler of a request. -/
def handle (s : BoeSession W) : Request → BoeSession W
  | .login req => handleLoginRequest E s req
  | .heartbeat => handleClientHeartbeat E s
  | .enter no => enterOrder E s no
  | .cancel co => cancelOrder E s co
  | .modify mo => modifyOrder E s mo

/-- Handle a request, if there is one. -/
def respond (s : BoeSession W) : Option Request → BoeSession W
  | none => s
  | some r => handle E s r

/-- A session does what the packet asks for, if anything. -/
theorem handlePacket_eq (s : BoeSession W) (p : Mem) :
    handlePacket E s p = respond E s (request p) := by
  unfold handlePacket request
  dsimp only
  by_cases hlogin : (MsgHeader.ofMem p).type = MsgType.loginRequest.code
  · rw [if_pos hlogin, if_pos hlogin]
    rfl
  rw [if_neg hlogin, if_neg hlogin]
  by_cases hheartbeat : (MsgHeader.ofMem p).type = MsgType.clientHeartbeat.code
  · rw [if_pos hheartbeat, if_pos hheartbeat]
    rfl
  rw [if_neg hheartbeat, if_neg hheartbeat]
  by_cases hnew : (MsgHeader.ofMem p).type = MsgType.newOrder.code
  · rw [if_pos hnew, if_pos hnew]
    rfl
  rw [if_neg hnew, if_neg hnew]
  by_cases hcancel : (MsgHeader.ofMem p).type = MsgType.cancelOrder.code
  · rw [if_pos hcancel, if_pos hcancel]
    rfl
  rw [if_neg hcancel, if_neg hcancel]
  by_cases hmodify : (MsgHeader.ofMem p).type = MsgType.modifyOrder.code
  · rw [if_pos hmodify, if_pos hmodify]
    rfl
  rw [if_neg hmodify, if_neg hmodify]
  rfl

/-- A packet leaves a session alone or makes it handle one request. -/
theorem step_packet (s : BoeSession W) (p : Mem) :
    (request p = none ∧ step E s (.packet p) = s) ∨
      ∃ r, request p = some r ∧ step E s (.packet p) = handle E s r := by
  have hstep : step E s (.packet p) = respond E s (request p) := handlePacket_eq E s p
  rcases hr : request p with _ | r
  · left
    refine ⟨rfl, ?_⟩
    rw [hstep, hr]
    rfl
  · right
    refine ⟨r, rfl, ?_⟩
    rw [hstep, hr]
    rfl

/-! ## Subscripts -/

/-- Behind the subscript there is an entry, and what remains is what remains in it. -/
theorem remainingAt_subscript (s : BoeSession W) (k : Key) :
    (subscript E.boeOrder s k).remainingAt k = (entry E.boeOrder s k).remainingQty := by
  obtain ⟨w, hsub⟩ := subscript_eq E.boeOrder s k
  rw [hsub]
  unfold remainingAt
  rw [inEnv_activeOrders, withActive_activeOrders, lookup_touch_self]

/-- After a subscript its key is there. -/
theorem mem_subscript (s : BoeSession W) (k : Key) : k ∈ (subscript E.boeOrder s k).activeOrders := by
  obtain ⟨w, hsub⟩ := subscript_eq E.boeOrder s k
  rw [hsub]
  exact KeyedMap.mem_touch.mpr (.inl rfl)

/-- A subscript of the active orders leaves the finished ones alone. -/
theorem finishedOrders_subscript (s : BoeSession W) (k : Key) :
    (subscript E.boeOrder s k).finishedOrders = s.finishedOrders := by
  obtain ⟨w, hsub⟩ := subscript_eq E.boeOrder s k
  rw [hsub]
  rfl

/-! ## Order packets -/

/-- `enter_order` accepts the order; it asks neither for a login nor for the finished orders. -/
def Accepts (s : BoeSession W) (no : NewOrder) : Prop :=
  no.token.str ∉ s.activeOrders ∧ (E.gate .newOrder s.env).1 = true

instance (s : BoeSession W) (no : NewOrder) : Decidable (Accepts E s no) :=
  inferInstanceAs (Decidable (_ ∧ _))

/-- `enter_order` takes an accepted order into the book and acknowledges it; otherwise it rejects. -/
theorem enterOrder_cases (s : BoeSession W) (no : NewOrder) :
    (¬ Accepts E s no ∧ ∃ w m, enterOrder E s no = s.emit w (.orderRejected m)) ∨
    (Accepts E s no ∧ ∃ w d m, m.token = no.token ∧ m.leavesQty = no.qty ∧
      m.header.seqNum = s.seqNum + 1 ∧
      enterOrder E s no =
        ((s.withActive (s.activeOrders.insert no.token.str (BoeOrder.parseOrder d no))).withSeqNum
          (s.seqNum + 1)).emit w (.orderAck m)) := by
  unfold enterOrder
  dsimp only
  by_cases hact : no.token.str ∈ s.activeOrders
  · rw [if_pos hact]
    exact .inl ⟨fun h => h.1 hact, _, _, rfl⟩
  rw [if_neg hact]
  rcases hgate : (E.gate .newOrder s.env).1 with _ | _
  · left
    refine ⟨fun h => Bool.false_ne_true (hgate.symm.trans h.2), ?_⟩
    simp only [Bool.not_false, if_true]
    exact ⟨_, _, rfl⟩
  · right
    refine ⟨⟨hact, hgate⟩, ?_⟩
    simp only [Bool.not_true, Bool.false_eq_true, if_false]
    exact ⟨_, _, _, rfl, ofInt_toNat no.qty, rfl, rfl⟩

/-- `cancel_order` rejects a request that it does not queue, but for one case: the entry that the
subscript makes for an unknown token has something remaining and the gate lets the request through. -/
def RejectsCancel (s : BoeSession W) (co : CancelOrder) : Prop :=
  (entry E.boeOrder s co.origToken.str).remainingQty ≤ 0 ∨ co.origToken.str ∈ s.finishedOrders ∨
    (E.gate .cancelOrder (subscript E.boeOrder s co.origToken.str).env).1 = false

instance (s : BoeSession W) (co : CancelOrder) : Decidable (RejectsCancel E s co) :=
  inferInstanceAs (Decidable (_ ∨ _ ∨ _))

/-- A cancel is queued exactly if it finds an order with something remaining. -/
theorem queues_iff (s : BoeSession W) (co : CancelOrder) :
    (co.origToken.str ∈ s.activeOrders ∧ 0 < s.remainingAt co.origToken.str) ↔
      ∃ o, s.activeOrders.lookup co.origToken.str = some o ∧ 0 < o.remainingQty := by
  unfold remainingAt
  rw [KeyedMap.mem_iff_lookup]
  rcases s.activeOrders.lookup co.origToken.str with _ | o
  · simp
  · simp

/-- `cancel_order` queues the request of an active order that has something remaining. Otherwise it
gives an unknown token an entry, and rejects or does not answer. -/
theorem cancelOrder_cases (s : BoeSession W) (co : CancelOrder) :
    ((∃ o, s.activeOrders.lookup co.origToken.str = some o ∧ 0 < o.remainingQty) ∧
      cancelOrder E s co =
        { s with pendingCancel := s.pendingCancel ++ [.parseCancelOrder co] }) ∨
    ((¬ ∃ o, s.activeOrders.lookup co.origToken.str = some o ∧ 0 < o.remainingQty) ∧
      ∃ w, ¬ RejectsCancel E s co ∧ cancelOrder E s co =
          (s.withActive (KeyedMap.touch co.origToken.str (entry E.boeOrder s co.origToken.str)
            s.activeOrders)).inEnv w ∨
        RejectsCancel E s co ∧ ∃ m, cancelOrder E s co =
          (s.withActive (KeyedMap.touch co.origToken.str (entry E.boeOrder s co.origToken.str)
            s.activeOrders)).emit w (.cancelRejected m)) := by
  unfold cancelOrder RejectsCancel
  dsimp only
  by_cases hact : co.origToken.str ∈ s.activeOrders ∧ 0 < s.remainingAt co.origToken.str
  · rw [if_pos hact]
    exact .inl ⟨(queues_iff s co).mp hact, rfl⟩
  rw [if_neg hact]
  right
  refine ⟨fun h => hact ((queues_iff s co).mpr h), ?_⟩
  rw [remainingAt_subscript, finishedOrders_subscript]
  obtain ⟨w, hsub⟩ := subscript_eq E.boeOrder s co.origToken.str
  by_cases hlate : (entry E.boeOrder s co.origToken.str).remainingQty ≤ 0 ∨
      co.origToken.str ∈ s.finishedOrders
  · rw [if_pos hlate, hsub]
    exact ⟨_, .inr ⟨hlate.imp_right .inl, _, rfl⟩⟩
  rw [if_neg hlate, if_neg (not_not.mpr (mem_subscript E s _))]
  rw [not_or] at hlate
  rcases hgate : (E.gate .cancelOrder (subscript E.boeOrder s co.origToken.str).env).1 with _ | _
  · simp only [Bool.not_false, if_true]
    rw [hsub]
    exact ⟨_, .inr ⟨.inr (.inr trivial), _, rfl⟩⟩
  · simp only [Bool.not_true, Bool.false_eq_true, if_false]
    rw [hsub]
    refine ⟨_, .inl ⟨?_, rfl⟩⟩
    rintro (h | h | h)
    · exact hlate.1 h
    · exact hlate.2 h
    · exact Bool.noConfusion h

/-- `modify_order` queues the request of a known token that the gate lets through, and rejects any
other. -/
theorem modifyOrder_cases (s : BoeSession W) (mo : ModifyOrder) :
    ((mo.origToken.str ∉ s.activeOrders ∧ mo.origToken.str ∉ s.finishedOrders ∨
        (E.gate .modifyOrder s.env).1 = false) ∧
      ∃ w m, modifyOrder E s mo = s.emit w (.modifyRejected m)) ∨
    (¬ (mo.origToken.str ∉ s.activeOrders ∧ mo.origToken.str ∉ s.finishedOrders) ∧
      (E.gate .modifyOrder s.env).1 = true ∧
      ∃ w, modifyOrder E s mo =
        { s.inEnv w with pendingModify := s.pendingModify ++ [.parseModifyOrder mo] }) := by
  unfold modifyOrder
  dsimp only
  by_cases hunknown : mo.origToken.str ∉ s.activeOrders ∧ mo.origToken.str ∉ s.finishedOrders
  · rw [if_pos hunknown]
    exact .inl ⟨.inl hunknown, _, _, rfl⟩
  rw [if_neg hunknown]
  rcases hgate : (E.gate .modifyOrder s.env).1 with _ | _
  · simp only [Bool.not_false, if_true]
    exact .inl ⟨.inr trivial, _, _, rfl⟩
  · simp only [Bool.not_true, Bool.false_eq_true, if_false]
    exact .inr ⟨hunknown, trivial, _, rfl⟩

/-! ## Loop bodies -/

/-- A pending cancel is let through. -/
def Cancels (st : Pass W) (co : BoeCancelOrderReq) : Prop :=
  co.token.str ∈ st.1.activeOrders ∧ (E.gate .cancelOrder st.1.env).1 = true

instance (st : Pass W) (co : BoeCancelOrderReq) : Decidable (Cancels E st co) :=
  inferInstanceAs (Decidable (_ ∧ _))

/-- A pending cancel is rejected, or it is reported and its token collected. -/
theorem cancelStep_cases (st : Pass W) (co : BoeCancelOrderReq) :
    (¬ Cancels E st co ∧ ∃ w m, cancelStep E st co = (st.1.emit w (.cancelRejected m), st.2)) ∨
    (Cancels E st co ∧ ∃ w m, m.token = co.token ∧
      cancelStep E st co = (st.1.emit w (.orderCanceled m), st.2 ++ [co.token.str])) := by
  unfold cancelStep
  by_cases hact : co.token.str ∉ st.1.activeOrders
  · rw [if_pos hact]
    exact .inl ⟨fun h => hact h.1, _, _, rfl⟩
  rw [if_neg hact]
  dsimp only
  rcases hgate : (E.gate .cancelOrder st.1.env).1 with _ | _
  · left
    refine ⟨fun h => Bool.false_ne_true (hgate.symm.trans h.2), ?_⟩
    simp only [Bool.not_false, if_true]
    exact ⟨_, _, rfl⟩
  · right
    refine ⟨⟨not_not.mp hact, hgate⟩, ?_⟩
    simp only [Bool.not_true, Bool.false_eq_true, if_false]
    exact ⟨_, _, rfl, rfl⟩

/-- The pass that `modify_logic` of a tick starts from. -/
def modifyStart (s : BoeSession W) : Pass W := (cancelLogic E (heartbeatLogic E s), [])

/-- What an `OrderModified` tells of an order. -/
structure Describes (m : OrderModified) (o : BoeOrder) : Prop where
  token : m.token = o.token
  orderId : m.orderId = o.orderID
  price : m.price = o.price
  leavesQty : m.leavesQty = UInt32.ofInt o.remainingQty
  qty : m.qty = UInt32.ofInt (o.remainingQty + o.executedQty)

/-- `construct_order_modified` sends one message, which describes the order. -/
theorem constructOrderModified_eq (s : BoeSession W) (bo : BoeOrder) :
    ∃ w m, constructOrderModified E s bo = s.emit w (.orderModified m) ∧ Describes m bo :=
  ⟨_, _, rfl, ⟨rfl, rfl, rfl, rfl, rfl⟩⟩

/-- A pending modification finds no order; or it moves the changed order to its new token, whatever
was held there; or its two tokens are equal, and the changed order is replaced by a
default-constructed one. -/
theorem modifyStep_cases (st : Pass W) (mo : BoeModifyOrderReq) :
    (mo.origToken.str ∉ st.1.activeOrders ∧ modifyStep E st mo = st) ∨
    ∃ o, st.1.activeOrders.lookup mo.origToken.str = some o ∧
      ∃ w A bo m, Describes m bo ∧
        (mo.token.str ≠ mo.origToken.str ∧ bo = modified o mo ∨
          mo.token.str = mo.origToken.str ∧ ∃ w', bo = (E.boeOrder w').1) ∧
        (∀ k, A.lookup k =
          if k = mo.token.str then some bo
          else if k = mo.origToken.str then none
          else st.1.activeOrders.lookup k) ∧
        modifyStep E st mo = ((st.1.withActive A).emit w (.orderModified m),
          if (mo.qty.toNat : ℤ) ≤ o.executedQty then st.2 ++ [o.token.str] else st.2) := by
  unfold modifyStep
  rcases hlook : st.1.activeOrders.lookup mo.origToken.str with _ | o
  · exact .inl ⟨KeyedMap.lookup_eq_none.mp hlook, rfl⟩
  right
  refine ⟨o, rfl, ?_⟩
  dsimp only
  -- the first subscript, the swap and the erasure
  generalize hs₁ : ({ st.1 with
    activeOrders := st.1.activeOrders.insert mo.origToken.str (modified o mo) } : BoeSession W) = s₁
  obtain ⟨w₁, hsub₁⟩ := subscript_eq E.boeOrder s₁ mo.token.str
  rw [hsub₁]
  generalize hs₂ : ({ (s₁.withActive (KeyedMap.touch mo.token.str (entry E.boeOrder s₁ mo.token.str)
      s₁.activeOrders)).inEnv w₁ with
    activeOrders := (KeyedMap.swap mo.token.str mo.origToken.str
      ((s₁.withActive (KeyedMap.touch mo.token.str (entry E.boeOrder s₁ mo.token.str)
        s₁.activeOrders)).inEnv w₁).activeOrders).erase mo.origToken.str } : BoeSession W) = s₂
  have hact₁ : s₁.activeOrders.lookup mo.origToken.str = some (modified o mo) := by
    rw [← hs₁]
    exact AList.lookup_insert _
  have hact₂ : ∀ k, s₂.activeOrders.lookup k =
      if k = mo.origToken.str then none else if k = mo.token.str then some (modified o mo)
      else st.1.activeOrders.lookup k := by
    intro k
    rw [← hs₂]
    show ((KeyedMap.swap mo.token.str mo.origToken.str (KeyedMap.touch mo.token.str
      (entry E.boeOrder s₁ mo.token.str) s₁.activeOrders)).erase mo.origToken.str).lookup k = _
    rw [KeyedMap.lookup_erase, KeyedMap.lookup_swap_comm, ← KeyedMap.lookup_erase,
      KeyedMap.lookup_swap_erase _ hact₁]
    by_cases hk : k = mo.origToken.str
    · rw [if_pos hk, if_pos hk]
    · rw [if_neg hk, if_neg hk, ← hs₁]
      show (if k = mo.token.str then some (modified o mo) else
        (st.1.activeOrders.insert mo.origToken.str (modified o mo)).lookup k) = _
      rw [KeyedMap.lookup_insert, if_neg hk]
  -- the second subscript
  obtain ⟨w₂, hsub₂⟩ := subscript_eq E.boeOrder s₂ mo.token.str
  rw [hsub₂]
  simp only [inEnv_activeOrders, withActive_activeOrders, lookup_touch_self E.boeOrder s₂ mo.token.str]
  obtain ⟨w, m, hmsg, hm⟩ := constructOrderModified_eq E ((s₂.withActive (KeyedMap.touch mo.token.str
    (entry E.boeOrder s₂ mo.token.str) s₂.activeOrders)).inEnv w₂) (entry E.boeOrder s₂ mo.token.str)
  rw [hmsg]
  refine ⟨w, KeyedMap.touch mo.token.str (entry E.boeOrder s₂ mo.token.str) s₂.activeOrders,
    entry E.boeOrder s₂ mo.token.str, m, hm, ?_, ?_, ?_⟩
  · by_cases hne : mo.token.str = mo.origToken.str
    · right
      refine ⟨hne, s₂.env, ?_⟩
      unfold entry
      rw [hact₂, if_pos hne]
    · left
      refine ⟨hne, entry_of_lookup E.boeOrder ?_⟩
      rw [hact₂, if_neg hne, if_pos rfl]
  · intro k
    by_cases hk : k = mo.token.str
    · rw [if_pos hk, hk]
      exact lookup_touch_self E.boeOrder s₂ mo.token.str
    · rw [if_neg hk, KeyedMap.lookup_touch _ _ (.inr hk), hact₂, if_neg hk]
  · rw [← hs₂, ← hs₁]
    rfl

/-- What an `OrderExecution` tells of a fill of `exe` shares of an order. -/
structure ReportsFill (m : OrderExecution) (o : BoeOrder) (exe : ℤ) : Prop where
  token : m.token = o.token
  lastShares : m.lastShares = UInt32.ofInt exe
  leavesQty : m.leavesQty = UInt32.ofInt (o.remainingQty - exe)

/-- An execution that is asked for reports the filled shares, numbers the message, and moves the shares
over in the order; a random fill is of a hundred shares at least, or of all that remain. -/
theorem constructOrderExecuted_fills (s : BoeSession W) (k : Key) {o : BoeOrder}
    (hpos : 0 < o.remainingQty) {n : ℤ} (hn : n ≠ 0) :
    ∃ exe w m, 0 < exe ∧ exe ≤ o.remainingQty ∧ (n < 0 → min 100 o.remainingQty ≤ exe) ∧
      ReportsFill m o exe ∧ m.header.seqNum = s.seqNum + 1 ∧
      constructOrderExecuted E s k o n =
        ((s.withActive (s.activeOrders.insert k
          { o with
            remainingQty := o.remainingQty - exe
            executedQty := o.executedQty + exe })).withSeqNum (s.seqNum + 1)).emit w
          (.orderExecution m) := by
  unfold constructOrderExecuted
  rw [if_neg hn]
  refine ⟨_, _, _, ?_, min_le_right _ _, fun hneg => ?_, ⟨rfl, rfl, rfl⟩, rfl, rfl⟩
  · refine lt_min ?_ hpos
    split
    · show (0 : ℤ) < (1 + ((E.rand _).1 : ℤ) % 10) * 100
      omega
    · show (0 : ℤ) < n
      omega
  · rw [if_pos hneg]
    refine min_le_min_right _ ?_
    show (100 : ℤ) ≤ (1 + ((E.rand _).1 : ℤ) % 10) * 100
    omega

/-- An execution fills nothing, or some of what remains. -/
theorem constructOrderExecuted_cases (s : BoeSession W) (k : Key) {o : BoeOrder}
    (hpos : 0 < o.remainingQty) (n : ℤ) :
    constructOrderExecuted E s k o n = s ∨
    ∃ exe w m, 0 < exe ∧ exe ≤ o.remainingQty ∧ m.token = o.token ∧
      m.lastShares = UInt32.ofInt exe ∧ m.header.seqNum = s.seqNum + 1 ∧
      constructOrderExecuted E s k o n =
        ((s.withActive (s.activeOrders.insert k
          { o with
            remainingQty := o.remainingQty - exe
            executedQty := o.executedQty + exe })).withSeqNum (s.seqNum + 1)).emit w
          (.orderExecution m) := by
  by_cases hzero : n = 0
  · left
    unfold constructOrderExecuted
    rw [if_pos hzero]
  · right
    obtain ⟨exe, w, m, h0, hle, -, hm, hseq, h⟩ := constructOrderExecuted_fills E s k hpos hzero
    exact ⟨exe, w, m, h0, hle, hm.token, hm.lastShares, hseq, h⟩

/-- An order that is met is skipped; or left as it is; or filled; or moved to the finished orders. -/
theorem executionStep_cases (st : Pass W) (k : Key) :
    (st.1.activeOrders.lookup k = none ∧ executionStep E st k = st) ∨
    ∃ o, st.1.activeOrders.lookup k = some o ∧ ∃ w,
      ((E.gate .execution st.1.env).1 = false ∧ executionStep E st k = (st.1.inEnv w, st.2) ∨
        (E.gate .execution st.1.env).1 = true ∧ o.stillActive = true ∧
          (executionStep E st k = (st.1.inEnv w, st.2) ∨
            ∃ exe m, 0 < exe ∧ exe ≤ o.remainingQty ∧ m.token = o.token ∧
              m.lastShares = UInt32.ofInt exe ∧ m.header.seqNum = st.1.seqNum + 1 ∧
              executionStep E st k =
                (((st.1.withActive (st.1.activeOrders.insert k
                  { o with
                    remainingQty := o.remainingQty - exe
                    executedQty := o.executedQty + exe })).withSeqNum (st.1.seqNum + 1)).emit w
                  (.orderExecution m), st.2)) ∨
        (E.gate .execution st.1.env).1 = true ∧ o.stillActive = false ∧
          executionStep E st k =
            ({ st.1.inEnv w with finishedOrders := st.1.finishedOrders.insert k o },
              st.2 ++ [k])) := by
  unfold executionStep
  rcases hlook : st.1.activeOrders.lookup k with _ | o
  · exact .inl ⟨rfl, rfl⟩
  right
  refine ⟨o, rfl, ?_⟩
  dsimp only
  rcases hgate : (E.gate .execution st.1.env).1 with _ | _
  · simp only [Bool.not_false, if_true]
    exact ⟨_, .inl ⟨trivial, rfl⟩⟩
  simp only [Bool.not_true, Bool.false_eq_true, if_false]
  rcases hactive : o.stillActive with _ | _
  · simp only [Bool.false_eq_true, if_false]
    exact ⟨_, .inr (.inr ⟨trivial, trivial, rfl⟩)⟩
  · simp only [if_true]
    have hpos : 0 < o.remainingQty := (BoeOrder.stillActive_iff.mp hactive).1
    rcases constructOrderExecuted_cases E (st.1.inEnv (E.executionQty
        (E.gate .execution st.1.env).2).2) k hpos (E.executionQty
        (E.gate .execution st.1.env).2).1 with
      hnone | ⟨exe, w, m, h0, hle, htoken, hqty, hseq, hexe⟩
    · exact ⟨_, .inr (.inl ⟨trivial, trivial, .inl (congrArg (·, st.2) hnone)⟩)⟩
    · exact ⟨w, .inr (.inl ⟨trivial, trivial, .inr ⟨exe, m, h0, hle, htoken, hqty, hseq,
        congrArg (·, st.2) hexe⟩⟩)⟩

/-- `cancel_all` reports an order that is still active and passes over any other. -/
theorem cancelAllStep_cases (st : BoeSession W × ℕ) (k : Key) :
    ((∀ o, st.1.activeOrders.lookup k = some o → o.stillActive = false) ∧
      cancelAllStep E st k = st) ∨
    ∃ o, st.1.activeOrders.lookup k = some o ∧ o.stillActive = true ∧
      ∃ w m, m.token = o.token ∧
        cancelAllStep E st k = (st.1.emit w (.orderCanceled m), st.2 + 1) := by
  unfold cancelAllStep
  rcases hlook : st.1.activeOrders.lookup k with _ | o
  · exact .inl ⟨fun _ h => (nomatch h), rfl⟩
  dsimp only
  rcases hactive : o.stillActive with _ | _
  · left
    rw [if_neg Bool.false_ne_true]
    refine ⟨fun o' ho' => ?_, rfl⟩
    cases ho'
    exact hactive
  · right
    rw [if_pos rfl]
    exact ⟨o, rfl, hactive, _, _, rfl, rfl⟩

/-! ## The end of a pass -/

/-- A cancel pass brings no key into the book. -/
theorem cancelLogic_absent {s : BoeSession W} {k : Key} (h : k ∉ s.activeOrders) :
    k ∉ (cancelLogic E s).activeOrders := by
  have hrun := Machine.run_invariant (f := cancelStep E)
    (I := fun st : Pass W => st.1.activeOrders = s.activeOrders)
    (fun st co hst => by
      rcases cancelStep_cases E st co with ⟨-, w, m, hs⟩ | ⟨-, w, m, -, hs⟩ <;> rw [hs]
      · exact hst
      · exact hst)
    (s := (s, [])) rfl s.pendingCancel
  intro hk
  have hact : k ∈ (Machine.run (cancelStep E) (s, []) s.pendingCancel).1.activeOrders :=
    (KeyedMap.mem_eraseAll.mp hk).2
  rw [hrun] at hact
  exact h hact

/-- An execution pass brings no key into the book. -/
theorem executionLogic_absent {s : BoeSession W} {k : Key} (h : k ∉ s.activeOrders) :
    k ∉ (executionLogic E s).activeOrders := by
  have hrun := Machine.run_invariant (f := executionStep E) (I := fun st : Pass W => k ∉ st.1.activeOrders)
    (fun st k' hst => by
      rcases executionStep_cases E st k' with ⟨-, hs⟩ | ⟨o, ho, w, ⟨-, hs⟩ | ⟨-, -, hs |
        ⟨exe, m, -, -, -, -, -, hs⟩⟩ | ⟨-, -, hs⟩⟩ <;> rw [hs]
      · exact hst
      · exact hst
      · exact hst
      · intro hk
        rcases (AList.mem_insert _).mp hk with rfl | hk
        · exact hst (KeyedMap.mem_of_lookup ho)
        · exact hst hk
      · exact hst)
    (s := (s.inEnv (E.visit s.activeOrders.keys s.env).2, [])) h
    (E.visit s.activeOrders.keys s.env).1.val
  exact fun hk => hrun (KeyedMap.mem_eraseAll.mp hk).2

/-! ## Steps that concern no order -/

/-- The messages that carry a sequence number of their own. -/
def isSequenced : Boe.OutMsg → Bool
  | .orderAck _ | .orderModified _ | .orderCanceled _ | .orderExecution _ => true
  | _ => false

/-- Nothing happens to any order: the maps and the queues stay as they are, and no sequenced message
is emitted. -/
abbrev Idle (s s' : BoeSession W) : Prop := Session.Idle Own.seqNum isSequenced s s'

/-- The start of a tick concerns no order. -/
theorem idle_heartbeatLogic (s : BoeSession W) : Idle s (heartbeatLogic E s) :=
  Session.idle_heartbeatLogic E s rfl

/-- A login concerns no order. -/
theorem idle_handleLoginRequest (s : BoeSession W) (req : LoginRequest) :
    Idle s (handleLoginRequest E s req) := by
  unfold handleLoginRequest
  dsimp only
  split
  · exact idle_emit s _ rfl
  split
  · exact idle_emit s _ rfl
  · exact ⟨rfl, rfl, rfl, rfl, rfl, rfl, _, rfl, List.forall_mem_singleton.mpr rfl⟩

/-- What one request does to the orders: nothing; or it is an accepted order; or it is queued; or a
cancel of an unknown token makes an entry for it. -/
theorem handle_cases (s : BoeSession W) (r : Request) :
    (Idle s (handle E s r) ∧ ∀ no, r = .enter no → ¬ Accepts E s no) ∨
    (∃ no w d m, r = .enter no ∧ Accepts E s no ∧ m.token = no.token ∧ m.leavesQty = no.qty ∧
      m.header.seqNum = s.seqNum + 1 ∧
      handle E s r =
        ((s.withActive (s.activeOrders.insert no.token.str (BoeOrder.parseOrder d no))).withSeqNum
          (s.seqNum + 1)).emit w (.orderAck m)) ∨
    (∃ mo w, r = .modify mo ∧
      ¬ (mo.origToken.str ∉ s.activeOrders ∧ mo.origToken.str ∉ s.finishedOrders) ∧
      (E.gate .modifyOrder s.env).1 = true ∧
      handle E s r =
        { s.inEnv w with pendingModify := s.pendingModify ++ [.parseModifyOrder mo] }) ∨
    (∃ co o, r = .cancel co ∧ s.activeOrders.lookup co.origToken.str = some o ∧
      0 < o.remainingQty ∧
      handle E s r = { s with pendingCancel := s.pendingCancel ++ [.parseCancelOrder co] }) ∨
    ∃ co, r = .cancel co ∧
      (¬ ∃ o, s.activeOrders.lookup co.origToken.str = some o ∧ 0 < o.remainingQty) ∧
      Idle (s.withActive (KeyedMap.touch co.origToken.str (entry E.boeOrder s co.origToken.str)
        s.activeOrders)) (handle E s r) := by
  cases r with
  | login req => exact .inl ⟨idle_handleLoginRequest E s req, fun _ h => nomatch h⟩
  | heartbeat =>
    refine .inl ⟨⟨rfl, rfl, rfl, rfl, rfl, rfl, [], ?_, List.forall_mem_nil _⟩, fun _ h => nomatch h⟩
    exact (List.append_nil _).symm
  | enter no =>
    rcases enterOrder_cases E s no with ⟨hnot, w, m, h⟩ | ⟨hacc, w, d, m, htoken, hqty, hseq, h⟩
    · left
      rw [handle, h]
      exact ⟨idle_emit s w rfl, fun _ heq => by cases heq; exact hnot⟩
    · exact .inr (.inl ⟨no, w, d, m, rfl, hacc, htoken, hqty, hseq, h⟩)
  | cancel co =>
    rcases cancelOrder_cases E s co with ⟨⟨o, ho, hpos⟩, h⟩ | ⟨hnot, w, ⟨-, h⟩ | ⟨-, m, h⟩⟩
    · exact .inr (.inr (.inr (.inl ⟨co, o, rfl, ho, hpos, h⟩)))
    · refine .inr (.inr (.inr (.inr ⟨co, rfl, hnot, ?_⟩)))
      rw [handle, h]
      exact idle_inEnv _ w
    · refine .inr (.inr (.inr (.inr ⟨co, rfl, hnot, ?_⟩)))
      rw [handle, h]
      exact idle_emit _ w rfl
  | modify mo =>
    rcases modifyOrder_cases E s mo with ⟨-, w, m, h⟩ | ⟨hknown, hgate, w, h⟩
    · left
      rw [handle, h]
      exact ⟨idle_emit s w rfl, fun _ h => nomatch h⟩
    · exact .inr (.inr (.inl ⟨mo, w, rfl, hknown, hgate, h⟩))

/-! ## The queues

The passes leave both queues alone, but for `cancel_logic`, which empties its own at the end. -/

structure SameQueues (s s' : BoeSession W) : Prop where
  pendingCancel : s'.pendingCancel = s.pendingCancel
  pendingModify : s'.pendingModify = s.pendingModify

/-- What stays as it is keeps its queues. -/
theorem SameQueues.refl (s : BoeSession W) : SameQueues s s := ⟨rfl, rfl⟩

/-- Two steps that keep the queues keep them. -/
theorem SameQueues.trans {s s' s'' : BoeSession W} (h : SameQueues s s') (h' : SameQueues s' s'') :
    SameQueues s s'' :=
  ⟨h'.pendingCancel.trans h.pendingCancel, h'.pendingModify.trans h.pendingModify⟩

/-- A pass none of whose steps touches the queues. -/
theorem sameQueues_run {ε : Type*} {f : Pass W → ε → Pass W}
    (hf : ∀ st e, SameQueues st.1 (f st e).1) (st : Pass W) (es : List ε) :
    SameQueues st.1 (Machine.run f st es).1 :=
  Machine.run_invariant (f := f) (I := fun st' => SameQueues st.1 st'.1)
    (fun st' e h => h.trans (hf st' e)) (SameQueues.refl st.1) es

/-- A queued cancel keeps the queues. -/
theorem sameQueues_cancelStep (st : Pass W) (co : BoeCancelOrderReq) :
    SameQueues st.1 (cancelStep E st co).1 := by
  rcases cancelStep_cases E st co with ⟨-, w, m, h⟩ | ⟨-, w, m, -, h⟩ <;> rw [h]
  · exact ⟨rfl, rfl⟩
  · exact ⟨rfl, rfl⟩

/-- A queued modification keeps the queues. -/
theorem sameQueues_modifyStep (st : Pass W) (mo : BoeModifyOrderReq) :
    SameQueues st.1 (modifyStep E st mo).1 := by
  rcases modifyStep_cases E st mo with ⟨-, h⟩ | ⟨o, -, w, A, bo, m, -, -, -, h⟩ <;> rw [h]
  · exact ⟨rfl, rfl⟩
  · exact ⟨rfl, rfl⟩

/-- A visit keeps the queues. -/
theorem sameQueues_executionStep (st : Pass W) (k : Key) :
    SameQueues st.1 (executionStep E st k).1 := by
  rcases executionStep_cases E st k with ⟨-, h⟩ | ⟨o, -, w, ⟨-, h⟩ | ⟨-, -, h | ⟨exe, m, -, -, -, -,
    -, h⟩⟩ | ⟨-, -, h⟩⟩ <;> rw [h]
  · exact ⟨rfl, rfl⟩
  · exact ⟨rfl, rfl⟩
  · exact ⟨rfl, rfl⟩
  · exact ⟨rfl, rfl⟩
  · exact ⟨rfl, rfl⟩

/-- A step of `cancel_all` keeps the queues. -/
theorem sameQueues_cancelAllStep (st : BoeSession W × ℕ) (k : Key) :
    SameQueues st.1 (cancelAllStep E st k).1 := by
  rcases cancelAllStep_cases E st k with ⟨-, h⟩ | ⟨o, -, -, w, m, -, h⟩ <;> rw [h]
  · exact ⟨rfl, rfl⟩
  · exact ⟨rfl, rfl⟩

/-- `cancel_all` keeps the queues. -/
theorem sameQueues_cancelAll (s : BoeSession W) : SameQueues s (cancelAll E s).1 := by
  have h := Machine.run_invariant (f := cancelAllStep E) (I := fun st => SameQueues s st.1)
    (fun st k h => h.trans (sameQueues_cancelAllStep E st k))
    (s := (s.inEnv (E.visit s.activeOrders.keys s.env).2, 0)) ⟨rfl, rfl⟩
    (E.visit s.activeOrders.keys s.env).1.val
  exact ⟨h.pendingCancel, h.pendingModify⟩

/-- A cancel pass keeps the pending modifications. -/
theorem pendingModify_cancelLogic (s : BoeSession W) :
    (cancelLogic E s).pendingModify = s.pendingModify :=
  (sameQueues_run (sameQueues_cancelStep E) (s, []) s.pendingCancel).pendingModify

/-- A modify pass keeps the queues. -/
theorem sameQueues_modifyLogic (s : BoeSession W) : SameQueues s (modifyLogic E s) := by
  have h := sameQueues_run (sameQueues_modifyStep E) (s, []) s.pendingModify
  exact ⟨h.pendingCancel, h.pendingModify⟩

/-- An execution pass keeps the queues. -/
theorem sameQueues_executionLogic (s : BoeSession W) : SameQueues s (executionLogic E s) := by
  have h := sameQueues_run (sameQueues_executionStep E)
    (s.inEnv (E.visit s.activeOrders.keys s.env).2, []) (E.visit s.activeOrders.keys s.env).1.val
  exact ⟨h.pendingCancel, h.pendingModify⟩

/-- The passes before keep the pending modifications. -/
theorem pendingModify_modifyStart (s : BoeSession W) :
    (modifyStart E s).1.pendingModify = s.pendingModify :=
  (pendingModify_cancelLogic E _).trans (idle_heartbeatLogic E s).pendingModify

/-- A tick empties the queue of cancels and keeps that of modifications. -/
theorem marketLogic_queues (s : BoeSession W) :
    (marketLogic E s).pendingCancel = [] ∧ (marketLogic E s).pendingModify = s.pendingModify := by
  have h := (sameQueues_modifyLogic E (modifyStart E s).1).trans (sameQueues_executionLogic E _)
  exact ⟨h.pendingCancel, h.pendingModify.trans (pendingModify_modifyStart E s)⟩

/-! ## Packets for concrete runs

Tokens of one repeated character and quantities below 256, unless a test needs a larger one. -/

def bytesEvent (bs : List UInt8) : Event := .packet (Mem.write bs fun _ => 0)

def tokenOf (c : Char) : Token := ⟨fun _ => c.toUInt8⟩

def tokenBytes (c : Char) : List UInt8 := List.replicate 20 c.toUInt8

/-- The start of a message and its header, with the type at byte 4. -/
def headerBytes (type : UInt8) : List UInt8 := [0xBA, 0xBA, 0, 0, type, 0, 0, 0, 0, 0]

/-- Buy the quantity of the given four little-endian bytes. -/
def newPacket (c : Char) (qty : List UInt8) : Event :=
  bytesEvent (headerBytes 0x38 ++ tokenBytes c ++ [66] ++ qty)

def cancelPacket (c : Char) : Event := bytesEvent (headerBytes 0x39 ++ tokenBytes c)

/-- Move the order of `c` to `d`, to sell the given quantity. -/
def modifyBytes (c d : Char) (qty : List UInt8) : Mem :=
  Mem.write (headerBytes 0x3a ++ tokenBytes d ++ tokenBytes c ++ [0, 0, 0, 65, 65, 65, 65] ++ qty ++
    List.replicate 11 0 ++ [50]) fun _ => 0

def modifyPacket (c d : Char) (qty : List UInt8) : Event := .packet (modifyBytes c d qty)

/-- What `modifyPacket` asks for. -/
def modifyReq (c d : Char) (qty : List UInt8) : BoeModifyOrderReq :=
  .parseModifyOrder (.ofMem (modifyBytes c d qty))

end BoeSession

end Evtsim
