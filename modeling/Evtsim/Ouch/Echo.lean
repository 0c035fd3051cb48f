import Evtsim.Ouch.Replacement
import Evtsim.Ouch.Steps

/-!
# What an accepted order is echoed as

The fields of an `EnterOrder` pass through three copies as well: from the packet into the order, from the
order into the `OrderAccepted`, and from there into its bytes. Here every copy is made and every number is
swapped: `echoes` says that the client reads back what it has asked for, and that the order in the book
has the same.
-/

namespace Evtsim

open Wire Session

namespace Ouch

/-! ## Reading packets as the other side means them -/

/-- What an `EnterOrder` packet asks for: its numbers are big-endian. -/
def EnterOrder.asked (m : Mem) : EnterOrder :=
  { token := Token.ofMem m 4
    side := m 18
    qty := UInt32.ofNat (m.beNat 19 4)
    symbol := m.chars 23 8
    price := (UInt32.ofNat (m.beNat 31 4)).toInt32
    timeInForce := UInt32.ofNat (m.beNat 35 4)
    firm := m.chars 39 4
    display := m 43
    capacity := m 44
    intermarketSweepEligibility := m 45
    minQty := UInt32.ofNat (m.beNat 46 4)
    crossType := m 50
    customerType := m 51 }

/-- `from_network` gives what was asked. -/
theorem EnterOrder.fromNetwork_ofMem (m : Mem) : (ofMem m).fromNetwork = asked m := by
  unfold EnterOrder.fromNetwork EnterOrder.ofMem EnterOrder.asked
  simp only [UInt32.toUInt32_toInt32, byteSwap32_u32]

/-- The fields of an `OrderAccepted` packet as the client reads them. -/
def OrderAccepted.decode (m : Mem) : OrderAccepted :=
  { timestamp := UInt64.ofNat (m.beNat 4 8)
    token := Token.ofMem m 12
    side := m 26
    qty := UInt32.ofNat (m.beNat 27 4)
    symbol := m.chars 31 8
    price := (UInt32.ofNat (m.beNat 39 4)).toInt32
    timeInForce := UInt32.ofNat (m.beNat 43 4)
    firm := m.chars 47 4
    display := m 51
    orderReferenceNumber := UInt64.ofNat (m.beNat 52 8)
    capacity := m 60
    intermarketSweepEligibility := m 61
    minQty := UInt32.ofNat (m.beNat 62 4)
    crossType := m 66
    orderState := if m 67 = OrderState.live.code then .live else .dead
    bboWeightIndicator := m 68 }

/-- The client reads an `OrderAccepted` as it was built. -/
theorem OrderAccepted.decode_bytes (m : OrderAccepted) (behind : Mem) :
    decode (Mem.write m.bytes behind) = m := by
  have hfields := holds_fields (rfl : m.bytes = _) behind
  generalize Mem.write m.bytes behind = p at *
  simp only [List.flatten_cons, List.flatten_nil, holds_append, holds_cons, holds_nil, and_true,
    List.length_ofFn, List.length_singleton, length_beBytes, holds_ofFn, holds_beBytes,
    Nat.reduceAdd] at hfields
  obtain ⟨htimestamp, htoken, hside, hqty, hsymbol, hprice, htif, hfirm, hdisplay, hnumber, hcapacity,
    hsweep, hminQty, hcross, hstate, hbbo⟩ := hfields
  have hcode : m.orderState = if p 67 = OrderState.live.code then .live else .dead := by
    rw [hstate, OrderState.of_code]
  unfold decode Token.ofMem
  rw [htimestamp, htoken, hside, hqty, hsymbol, hprice, htif, hfirm, hdisplay, hnumber, hcapacity,
    hsweep, hminQty, hcross, ← hcode, hbbo, ofNat_mod_u64, ofNat_mod_u32, ofNat_mod_u32, ofNat_mod_u32,
    ofNat_mod_u32, ofNat_mod_u64, Int32.toInt32_toUInt32]

end Ouch

namespace OuchSession

open Ouch

variable {W : Type} (E : Env W)

/-! ## What is to be echoed -/

/-- The message has what was asked, its texts up to the first NUL, and the number of the order `o`. -/
structure Echoes (eo : EnterOrder) (o : OuchOrder) (m : OrderAccepted) : Prop where
  token : m.token = eo.token
  side : m.side = eo.side
  qty : m.qty = eo.qty
  symbol : m.symbol = strncpy eo.symbol
  price : m.price = eo.price
  timeInForce : m.timeInForce = eo.timeInForce
  firm : m.firm = strncpy eo.firm
  display : m.display = eo.display
  orderReferenceNumber : m.orderReferenceNumber = o.orderID
  capacity : m.capacity = eo.capacity
  intermarketSweepEligibility : m.intermarketSweepEligibility = eo.intermarketSweepEligibility
  minQty : m.minQty = eo.minQty
  crossType : m.crossType = eo.crossType

/-- So has the order, of which nothing is executed yet. -/
structure Stores (eo : EnterOrder) (o : OuchOrder) : Prop where
  token : o.token = eo.token
  side : o.side = eo.side
  symbol : o.symbol = strncpy eo.symbol
  price : o.price = eo.price
  timeInForce : o.timeInForce = eo.timeInForce
  firm : o.firm = strncpy eo.firm
  display : o.display = eo.display
  capacity : o.capacity = eo.capacity
  intermarketSweepEligibility : o.intermarketSweepEligibility = eo.intermarketSweepEligibility
  minQty : o.minQty = eo.minQty
  crossType : o.crossType = eo.crossType
  remainingQty : o.remainingQty = eo.qty.toNat
  executedQty : o.executedQty = 0

/-- `parse_order` stores every field of the request. -/
theorem stores_parseOrder (d : OuchOrder) (eo : EnterOrder) : Stores eo (d.parseOrder eo) :=
  ⟨rfl, rfl, rfl, rfl, rfl, rfl, rfl, rfl, rfl, rfl, rfl, rfl, rfl⟩

/-- The message that `construct_order_accepted` makes of an order. -/
theorem constructOrderAccepted_echoes (s : OuchSession W) {eo : EnterOrder} {o : OuchOrder}
    (h : Stores eo o) : ∃ w m, constructOrderAccepted E s o = s.emit w (.orderAccepted m) ∧
      Echoes eo o m := by
  refine ⟨_, _, rfl, h.token, h.side, ?_, ?_, h.price, h.timeInForce, ?_, h.display, rfl, h.capacity,
    h.intermarketSweepEligibility, h.minQty, h.crossType⟩
  · rw [h.remainingQty]
    exact ofInt_toNat eo.qty
  · rw [h.symbol]
    exact strncpy_strncpy eo.symbol
  · rw [h.firm]
    exact strncpy_strncpy eo.firm

/-- An accepted order is put into the book and echoed. -/
theorem enterOrder_of_accepts {s : OuchSession W} {eo : EnterOrder} (h : Accepts E s eo) :
    ∃ d w, enterOrder E s eo = constructOrderAccepted E
      ((s.withActive (s.activeOrders.insert eo.token.str (OuchOrder.parseOrder d eo))).inEnv w)
        (OuchOrder.parseOrder d eo) := by
  obtain ⟨hqty, hstate, hgate, hfresh⟩ := h
  unfold enterOrder
  rw [if_neg (UInt32.not_lt.mpr hqty), if_neg (not_not.mpr hstate)]
  simp only [hgate, Bool.not_true, Bool.false_eq_true, if_false, if_pos hfresh]
  exact ⟨_, _, rfl⟩

/-- A packet that `validate` takes for an `EnterOrder` is handled by `enter_order`. -/
theorem step_enterOrder {s : OuchSession W} {p : Mem} (hvalid : validate s p = .ok true)
    (hdata : (MsgHeader.ofMem p).packetType = PacketType.unsequencedData.code)
    (henter : (MsgHeader.ofMem p).msgType = OutboundMsgType.enterOrder.code) :
    step E s (.packet p) = enterOrder E s (EnterOrder.asked p) := by
  have hhandle : handlePacket E s p = .ok (handleMessage E s p) := by
    unfold handlePacket
    rw [hvalid]
    dsimp only
    rw [hdata]
    rfl
  rw [step, hhandle]
  show handleMessage E s p = _
  unfold handleMessage
  rw [if_pos henter, EnterOrder.fromNetwork_ofMem]

/-- **Echo.** Of every valid `EnterOrder` packet that `enter_order` accepts, the client reads in the one
message that answers it what the packet asks for and the number of the order, and the order in the book
has what the packet asks for. -/
theorem echoes {s : OuchSession W} {p : Mem} (behind : Mem) (hvalid : validate s p = .ok true)
    (hdata : (MsgHeader.ofMem p).packetType = PacketType.unsequencedData.code)
    (henter : (MsgHeader.ofMem p).msgType = OutboundMsgType.enterOrder.code)
    (haccepts : Accepts E s (EnterOrder.ofMem p).fromNetwork) :
    ∃ o m, (step E s (.packet p)).activeOrders.lookup (EnterOrder.asked p).token.str = some o ∧
      (step E s (.packet p)).pendingOutMessages = s.pendingOutMessages ++ [.orderAccepted m] ∧
      Echoes (.asked p) o (.decode (Mem.write (OutMsg.orderAccepted m).bytes behind)) ∧
      Stores (.asked p) o := by
  rw [EnterOrder.fromNetwork_ofMem] at haccepts
  obtain ⟨d, w, hs⟩ := enterOrder_of_accepts E haccepts
  have hstores := stores_parseOrder d (EnterOrder.asked p)
  obtain ⟨w', m, hm, hechoes⟩ := constructOrderAccepted_echoes E
    ((s.withActive (s.activeOrders.insert (EnterOrder.asked p).token.str
      (d.parseOrder (EnterOrder.asked p)))).inEnv w) hstores
  rw [step_enterOrder E hvalid hdata henter, hs, hm]
  refine ⟨_, m, AList.lookup_insert _, rfl, ?_, hstores⟩
  show Echoes _ _ (OrderAccepted.decode (Mem.write m.bytes behind))
  rw [OrderAccepted.decode_bytes]
  exact hechoes

/-- To buy 200 shares of `AB`, with rubbish behind the NUL. -/
def enterAB : Mem :=
  Mem.write ([0, 50, 85, 79] ++ tokenBytes 'a' ++ [66, 0, 0, 0, 200] ++
    [65, 66, 0, 67, 68, 69, 70, 71] ++ [0, 0, 0, 1] ++ [0, 1, 0x86, 0x9E] ++ List.replicate 4 65 ++
    [89, 79, 78, 0, 0, 0, 0, 78, 78]) fun _ => 0

/-- The fields of one packet, with a token of letters, come back to the client. -/
theorem echoes_enterAB :
    ∃ o m, (step quietEnv (run quietEnv () loggedIn) (.packet enterAB)).activeOrders.lookup
        (EnterOrder.asked enterAB).token.str = some o ∧
      (step quietEnv (run quietEnv () loggedIn) (.packet enterAB)).pendingOutMessages =
        (run quietEnv () loggedIn).pendingOutMessages ++ [.orderAccepted m] ∧
      Echoes (.asked enterAB) o (.decode (Mem.write (OutMsg.orderAccepted m).bytes fun _ => 0)) ∧
      Stores (.asked enterAB) o :=
  echoes quietEnv (fun _ => 0) (by decide +kernel) (by decide +kernel) (by decide +kernel)
    ⟨by decide +kernel, by decide +kernel, by decide +kernel, by decide +kernel, by decide +kernel⟩

end OuchSession

end Evtsim
