import Evtsim.Packets
import Evtsim.Lib.Layout
import Evtsim.Ouch.Book

/-!
# What a replacement carries

The fields of a `ReplaceOrder` pass through three copies: from the packet into the request, from the
request into the order, from the order into the `OrderReplaced`. `carries_iff` says exactly when all of
them arrive. `replace_logic` does not copy `display` and `min_qty` into the order;
`construct_order_replaced` leaves `display`, `intermarket_sweep_eligibility` and `cross_type` to the
memory that the struct is built in; `OrderReplaced::to_network` does not swap `order_reference_number`.
-/

namespace Evtsim

open Wire Session

namespace Ouch

/-! ## Reading packets as the other side means them -/

/-- What a `ReplaceOrder` packet asks for: its numbers are big-endian. -/
def ReplaceOrder.asked (m : Mem) : ReplaceOrder :=
  { existingToken := Token.ofMem m 4
    token := Token.ofMem m 18
    qty := UInt32.ofNat (m.beNat 32 4)
    price := (UInt32.ofNat (m.beNat 36 4)).toInt32
    timeInForce := UInt32.ofNat (m.beNat 40 4)
    display := m 44
    intermarketSweepEligibility := m 45
    minQty := UInt32.ofNat (m.beNat 46 4) }

/-- A swapped word is the number that its bytes spell. -/
theorem byteSwap32_u32 (m : Mem) (off : ℕ) : byteSwap32 (m.u32 off) = UInt32.ofNat (m.beNat off 4) := by
  have hlt : m.leNat off 4 < 2 ^ 32 := leNat_lt m off 4
  rw [byteSwap32, Mem.u32, UInt32.toNat_ofNat_of_lt' hlt, byteSwap_leNat]

/-- `from_network` gives what was asked. -/
theorem ReplaceOrder.fromNetwork_ofMem (m : Mem) : (ofMem m).fromNetwork = asked m := by
  unfold ReplaceOrder.fromNetwork ReplaceOrder.ofMem ReplaceOrder.asked
  simp only [UInt32.toUInt32_toInt32, byteSwap32_u32]

/-- The fields of an `OrderReplaced` packet as the client reads them: all numbers are big-endian. -/
def OrderReplaced.decode (m : Mem) : OrderReplaced :=
  { timestamp := UInt64.ofNat (m.beNat 4 8)
    token := Token.ofMem m 12
    side := m 26
    qty := UInt32.ofNat (m.beNat 27 4)
    symbol := m.chars 31 8
    price := (UInt32.ofNat (m.beNat 39 4)).toInt32
    timeInForce := UInt32.ofNat (m.beNat 43 4)
    firm := m.chars 47 4
    display := m 51
    orderReferenceNumber := UInt64.ofNat (m.beNat 52 8)
    capacity := m 60
    intermarketSweepEligibility := m 61
    minQty := UInt32.ofNat (m.beNat 62 4)
    crossType := m 66
    orderState := if m 67 = OrderState.live.code then .live else .dead
    origToken := Token.ofMem m 68
    bboWeightIndicator := m 82 }

/-! ## The fields of a packet -/

/-- The fields of a message stand behind its header. -/
theorem holds_fields {bs : List UInt8} {size : ℕ} {t : InboundMsgType} {fields : List (List UInt8)}
    (hbs : bs = sequenced size t fields) (behind : Mem) :
    (Mem.write bs behind).Holds 4 fields.flatten := by
  subst hbs
  have hall := holds_write (sequenced size t fields) [] behind
  rw [List.append_nil] at hall
  generalize Mem.write (sequenced size t fields) behind = p at *
  rw [sequenced, packet, List.flatten_cons, holds_append, length_beBytes, List.singleton_append,
    holds_cons, holds_cons] at hall
  exact hall.2.2.2

/-- Four bytes hold all of a 32-bit number. -/
theorem ofNat_mod_u32 (x : UInt32) : UInt32.ofNat (x.toNat % 256 ^ 4) = x := by
  have hlt : x.toNat < 256 ^ 4 := x.toNat_lt
  rw [Nat.mod_eq_of_lt hlt, UInt32.ofNat_toNat]

/-- Eight bytes hold all of a 64-bit number. -/
theorem ofNat_mod_u64 (x : UInt64) : UInt64.ofNat (x.toNat % 256 ^ 8) = x := by
  have hlt : x.toNat < 256 ^ 8 := x.toNat_lt
  rw [Nat.mod_eq_of_lt hlt, UInt64.ofNat_toNat]

/-- The state is read back from its code. -/
theorem OrderState.of_code (state : OrderState) :
    (if state.code = OrderState.live.code then OrderState.live else .dead) = state := by
  cases state <;> rfl

/-- The client reads an `OrderReplaced` as it was built, but for the order number, whose bytes are
reversed. -/
theorem OrderReplaced.decode_bytes (m : OrderReplaced) (behind : Mem) :
    decode (Mem.write m.bytes behind) = { m with
      orderReferenceNumber := UInt64.ofNat (byteSwap 8 m.orderReferenceNumber.toNat) } := by
  have hfields := holds_fields (rfl : m.bytes = _) behind
  generalize Mem.write m.bytes behind = p at *
  simp only [List.flatten_cons, List.flatten_nil, holds_append, holds_cons, holds_nil, and_true,
    List.length_ofFn, List.length_singleton, length_leBytes, length_beBytes, holds_ofFn, holds_beBytes,
    holds_leBytes, Nat.reduceAdd] at hfields
  obtain ⟨htimestamp, htoken, hside, hqty, hsymbol, hprice, htif, hfirm, hdisplay, hnumber, hcapacity,
    hsweep, hminQty, hcross, hstate, horig, hbbo⟩ := hfields
  have hcode : m.orderState = if p 67 = OrderState.live.code then .live else .dead := by
    rw [hstate, OrderState.of_code]
  have hlt : m.orderReferenceNumber.toNat < 256 ^ 8 := m.orderReferenceNumber.toNat_lt
  unfold decode Token.ofMem
  rw [htimestamp, htoken, hside, hqty, hsymbol, hprice, htif, hfirm, hdisplay, ← byteSwap_leNat, hnumber,
    hcapacity, hsweep, hminQty, hcross, ← hcode, horig, hbbo, ofNat_mod_u64, ofNat_mod_u32, ofNat_mod_u32,
    ofNat_mod_u32, ofNat_mod_u32, Int32.toInt32_toUInt32, Nat.mod_eq_of_lt hlt]

end Ouch

namespace OuchSession

open Ouch

variable {W : Type} (E : Env W)

/-! ## What is to arrive -/

/-- The order has what was asked, and the rest of the original order. -/
structure OrderCarries (ro : ReplaceOrder) (o x : OuchOrder) : Prop where
  token : x.token = ro.token
  price : x.price = ro.price
  timeInForce : x.timeInForce = ro.timeInForce
  display : x.display = ro.display
  intermarketSweepEligibility : x.intermarketSweepEligibility = ro.intermarketSweepEligibility
  minQty : x.minQty = ro.minQty
  remainingQty : x.remainingQty = (ro.qty.toNat : ℤ) - o.executedQty
  side : x.side = o.side
  symbol : x.symbol = o.symbol
  firm : x.firm = o.firm
  capacity : x.capacity = o.capacity
  crossType : x.crossType = o.crossType
  orderID : x.orderID = o.orderID

/-- So has the message, with the same texts, and it names the existing token. -/
structure MessageCarries (ro : ReplaceOrder) (o : OuchOrder) (m : OrderReplaced) : Prop where
  token : m.token = ro.token
  price : m.price = ro.price
  timeInForce : m.timeInForce = ro.timeInForce
  display : m.display = ro.display
  intermarketSweepEligibility : m.intermarketSweepEligibility = ro.intermarketSweepEligibility
  minQty : m.minQty = ro.minQty
  qty : (m.qty.toNat : ℤ) = (ro.qty.toNat : ℤ) - o.executedQty
  side : m.side = o.side
  symbol : strncpy m.symbol = strncpy o.symbol
  firm : strncpy m.firm = strncpy o.firm
  capacity : m.capacity = o.capacity
  crossType : m.crossType = o.crossType
  orderReferenceNumber : m.orderReferenceNumber = o.orderID
  origToken : m.origToken = ro.existingToken

/-- The request that a `ReplaceOrder` packet is queued as. -/
def replaceRequest (p : Mem) : OuchReplaceOrderReq :=
  .parseReplaceOrder (ReplaceOrder.ofMem p).fromNetwork

/-- The order found under the new token, and the message as the client reads it, carry what the packet
asks for and what the order `o` had. -/
def Carries (st : Pass W) (p : Mem) (o : OuchOrder) : Prop :=
  ∃ x m, (replaceStep E st (replaceRequest p)).1.activeOrders.lookup (ReplaceOrder.asked p).token.str =
      some x ∧
    (replaceStep E st (replaceRequest p)).1.pendingOutMessages =
      st.1.pendingOutMessages ++ [.orderReplaced m] ∧
    OrderCarries (.asked p) o x ∧
    MessageCarries (.asked p) o (.decode (Mem.write (OutMsg.orderReplaced m).bytes fun _ => 0))

/-- Where a field is not copied, the value asked for is there already: in the order, or in the memory
`raw` that the message is built in. The order number reads the same backwards. -/
structure NothingDropped (raw : Mem) (ro : ReplaceOrder) (o : OuchOrder) : Prop where
  tokens : ro.token ≠ ro.existingToken
  display : o.display = ro.display
  minQty : o.minQty = ro.minQty
  rawDisplay : raw 51 = ro.display
  rawSweep : raw 61 = ro.intermarketSweepEligibility
  rawCross : raw 66 = o.crossType
  number : UInt64.ofNat (byteSwap 8 o.orderID.toNat) = o.orderID
  quantity : (ro.qty.toNat : ℤ) - o.executedQty < 2 ^ 32

/-! ## The three copies -/

/-- The order takes over what `replace_logic` copies. -/
theorem orderCarries_iff (p : Mem) (o : OuchOrder) :
    OrderCarries (.asked p) o (replaced o (replaceRequest p)) ↔
      o.display = (ReplaceOrder.asked p).display ∧ o.minQty = (ReplaceOrder.asked p).minQty := by
  unfold replaceRequest
  rw [ReplaceOrder.fromNetwork_ofMem]
  constructor
  · intro h
    exact ⟨h.display, h.minQty⟩
  · rintro ⟨hdisplay, hmin⟩
    exact ⟨rfl, Int32.toInt32_toUInt32 _, rfl, hdisplay, rfl, hmin, rfl, rfl, rfl, rfl, rfl, rfl, rfl⟩

/-- A quantity is told as it is exactly if it fits into 32 bits. -/
theorem toNat_ofInt_eq_iff {n : ℤ} (h0 : 0 ≤ n) :
    ((UInt32.ofInt n).toNat : ℤ) = n ↔ n < 2 ^ 32 := by
  constructor
  · intro h
    rw [← h]
    exact_mod_cast (UInt32.ofInt n).toNat_lt
  · exact toNat_ofInt h0

/-- The message takes over what `construct_order_replaced` copies. -/
theorem messageCarries_iff {p : Mem} {o : OuchOrder} {raw behind : Mem} {ts : UInt64}
    (hexe : o.executedQty < (ReplaceOrder.asked p).qty.toNat) :
    MessageCarries (.asked p) o (.decode (Mem.write (replacedMessage raw ts (replaceRequest p)
        (replaced o (replaceRequest p))).bytes behind)) ↔
      o.minQty = (ReplaceOrder.asked p).minQty ∧ raw 51 = (ReplaceOrder.asked p).display ∧
        raw 61 = (ReplaceOrder.asked p).intermarketSweepEligibility ∧ raw 66 = o.crossType ∧
        UInt64.ofNat (byteSwap 8 o.orderID.toNat) = o.orderID ∧
        ((ReplaceOrder.asked p).qty.toNat : ℤ) - o.executedQty < 2 ^ 32 := by
  rw [OrderReplaced.decode_bytes]
  unfold replaceRequest
  rw [ReplaceOrder.fromNetwork_ofMem]
  have hfits := toNat_ofInt_eq_iff (n := ((ReplaceOrder.asked p).qty.toNat : ℤ) - o.executedQty)
    (by omega)
  constructor
  · intro h
    exact ⟨h.minQty, h.display, h.intermarketSweepEligibility, h.crossType, h.orderReferenceNumber,
      hfits.mp h.qty⟩
  · rintro ⟨hmin, hdisplay, hsweep, hcross, hnumber, hqty⟩
    exact ⟨rfl, Int32.toInt32_toUInt32 _, rfl, hdisplay, hsweep, hmin, hfits.mpr hqty, rfl,
      strncpy_strncpy _, strncpy_strncpy _, rfl, hcross, hnumber, rfl⟩

/-- **A replacement carries what was asked**, in the order and in the message, exactly when no field that
is not copied would have changed. -/
theorem carries_iff {st : Pass W} {p : Mem} {o : OuchOrder}
    (ho : st.1.activeOrders.lookup (ReplaceOrder.asked p).existingToken.str = some o)
    (hqty : (ReplaceOrder.asked p).qty ≤ maxShares)
    (hexe : o.executedQty < (ReplaceOrder.asked p).qty.toNat) :
    Carries E st p o ↔ NothingDropped (E.raw st.1.env).1 (.asked p) o := by
  have hreq : replaceRequest p = .parseReplaceOrder (.asked p) := by
    unfold replaceRequest
    rw [ReplaceOrder.fromNetwork_ofMem]
  -- neither guard of `replace_logic` is met, so the order is replaced
  have happly : replaceCancels (replaceRequest p) o.executedQty = false := by
    rw [hreq, replaceCancels, Bool.or_eq_false_iff, decide_eq_false_iff_not, decide_eq_false_iff_not]
    exact ⟨UInt32.not_lt.mpr hqty, Int.not_le.mpr hexe⟩
  have hold : st.1.activeOrders.lookup (replaceRequest p).existingToken.str = some o := by
    rw [hreq]
    exact ho
  have hentry : entry E.ouchOrder st.1 (replaceRequest p).existingToken.str = o :=
    entry_of_lookup E.ouchOrder hold
  have hsub : subscript E.ouchOrder st.1 (replaceRequest p).existingToken.str = st.1 :=
    if_pos (KeyedMap.mem_of_lookup hold)
  obtain ⟨w, ts, A, hA, hs⟩ := replaceStep_of_applies E (hentry.symm ▸ happly)
  rw [hentry] at hA hs
  rw [hsub] at hs
  -- under one token for both, the erasure takes the replaced order with it
  have hlook : (replaceStep E st (replaceRequest p)).1.activeOrders.lookup
      (ReplaceOrder.asked p).token.str =
        if (ReplaceOrder.asked p).token = (ReplaceOrder.asked p).existingToken then none
        else some (replaced o (replaceRequest p)) := by
    rw [hs]
    show A.lookup _ = _
    have hexisting : (replaceRequest p).existingToken = (ReplaceOrder.asked p).existingToken := by
      rw [hreq]
      rfl
    have hnew : (replaceRequest p).newToken = (ReplaceOrder.asked p).token := by
      rw [hreq]
      rfl
    rw [hA, hexisting, hnew]
    by_cases hsame : (ReplaceOrder.asked p).token = (ReplaceOrder.asked p).existingToken
    · rw [if_pos hsame, if_pos (congrArg TokenOf.str hsame)]
    · rw [if_neg hsame, if_neg fun hk => hsame (TokenOf.str_inj.mp hk), if_pos rfl]
  have hout : (replaceStep E st (replaceRequest p)).1.pendingOutMessages = st.1.pendingOutMessages ++
      [.orderReplaced (replacedMessage (E.raw st.1.env).1 ts (replaceRequest p)
        (replaced o (replaceRequest p)))] := by
    rw [hs]
    rfl
  constructor
  · rintro ⟨x, m, hx, hm, hcarries, hmessage⟩
    rw [hlook] at hx
    split at hx
    · cases hx
    rename_i hne
    cases hx
    have hm' : m = replacedMessage (E.raw st.1.env).1 ts (replaceRequest p)
        (replaced o (replaceRequest p)) :=
      OutMsg.orderReplaced.inj (List.head_eq_of_cons_eq (List.append_cancel_left (hm.symm.trans hout)))
    obtain ⟨hdisplay, hmin⟩ := (orderCarries_iff p o).mp hcarries
    rw [hm'] at hmessage
    obtain ⟨-, hraw, hsweep, hcross, hnumber, hfits⟩ := (messageCarries_iff hexe).mp hmessage
    exact ⟨hne, hdisplay, hmin, hraw, hsweep, hcross, hnumber, hfits⟩
  · rintro ⟨hne, hdisplay, hmin, hraw, hsweep, hcross, hnumber, hfits⟩
    rw [if_neg hne] at hlook
    exact ⟨_, _, hlook, hout, (orderCarries_iff p o).mpr ⟨hdisplay, hmin⟩,
      (messageCarries_iff hexe).mpr ⟨hmin, hraw, hsweep, hcross, hnumber, hfits⟩⟩

/-- To replace the order of `c` by one of `d`, with the given least execution. -/
def replaceBytes (c d : Char) (minQty : UInt8) : Mem :=
  Mem.write ([0, 48, 85, 85] ++ tokenBytes c ++ tokenBytes d ++ [0, 0, 0, 200] ++ [0, 0, 0, 1] ++
    [0, 1, 0x86, 0x9E] ++ [89, 78, 0, 0, 0, minQty]) fun _ => 0

/-- The memory that messages are built in has the right values in the right places. -/
def luckyEnv : Env Unit :=
  { quietEnv with raw := fun w => (fun i => if i = 51 then 'Y'.toUInt8 else 'N'.toUInt8, w) }

/-- The order of `a` in a run. -/
def orderOfA (E : Env Unit) : OuchOrder :=
  entry E.ouchOrder (run E () (loggedIn ++ [enterPacket 'a' 200])) (tokenOf 'a').str

/-- A replacement that changes the quantity and the price, in memory that suits. -/
theorem carries_lucky :
    Carries luckyEnv (run luckyEnv () (loggedIn ++ [enterPacket 'a' 200]), []) (replaceBytes 'a' 'b' 0)
      (orderOfA luckyEnv) :=
  (carries_iff luckyEnv (by decide +kernel) (by decide +kernel) (by decide +kernel)).mpr
    ⟨by decide +kernel, by decide +kernel, by decide +kernel, by decide +kernel, by decide +kernel,
      by decide +kernel, by decide +kernel, by decide +kernel⟩

/-- The least execution asked for is not taken over. -/
theorem not_carries_minQty :
    ¬ ∀ (W : Type) (E : Env W) (st : Pass W) (p : Mem) (o : OuchOrder),
      st.1.activeOrders.lookup (ReplaceOrder.asked p).existingToken.str = some o →
      (ReplaceOrder.asked p).qty ≤ maxShares → o.executedQty < (ReplaceOrder.asked p).qty.toNat →
      (ReplaceOrder.asked p).token.str ∉ st.1.activeOrders →
      (ReplaceOrder.asked p).token.str ∉ st.1.finishedOrders → Carries E st p o := by
  intro h
  obtain ⟨x, m, hx, -, hcarries, -⟩ := h Unit luckyEnv
    (run luckyEnv () (loggedIn ++ [enterPacket 'a' 200]), []) (replaceBytes 'a' 'b' 100)
    (orderOfA luckyEnv) (by decide +kernel) (by decide +kernel) (by decide +kernel) (by decide +kernel)
    (by decide +kernel)
  have hmin : ((replaceStep luckyEnv (run luckyEnv () (loggedIn ++ [enterPacket 'a' 200]), [])
      (replaceRequest (replaceBytes 'a' 'b' 100))).1.activeOrders.lookup
        (ReplaceOrder.asked (replaceBytes 'a' 'b' 100)).token.str).map (fun x => x.minQty) = some 0 := by
    decide +kernel
  rw [hx] at hmin
  have hasked : (ReplaceOrder.asked (replaceBytes 'a' 'b' 100)).minQty = 100 := by decide +kernel
  have hzero : x.minQty = 0 := Option.some.inj hmin
  rw [hcarries.minQty, hasked] at hzero
  exact absurd hzero (by decide)

end OuchSession

end Evtsim
