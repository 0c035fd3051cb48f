import Evtsim.Ouch.Expiry

/-!
# Modifications of sell orders

A sell order may be moved to either of the two other sell sides. The switch of `modify_logic` has a
case for each sell side that turns the other requests away, but no case ends: a sell order falls
through all three tests, which no side passes, and a sell-short-exempt order through two. `sellRule_iff`
says for which sides and quantities one request is nevertheless treated as it should be.
-/

namespace Evtsim

open Wire Ouch Session

namespace OuchSession

variable {W : Type} (E : Env W)

/-! ## What one request is to do -/

/-- `S`, `T` and `E`. -/
def sellSides : List UInt8 := [Side.sell, Side.sellShort, Side.sellShortExempt]

/-- The request asks for one of the two other sell sides. -/
def asksOtherSell (o : OuchOrder) (mo : OuchModifyOrderReq) : Bool :=
  sellSides.contains mo.newSide && mo.newSide != o.side

/-- The shares that a modification leaves. -/
def sharesLeft (o : OuchOrder) (mo : OuchModifyOrderReq) : ℤ := (mo.reqQty.toNat : ℤ) - o.executedQty

/-- The order has its new side and quantity, and one `OrderModified` reports them. -/
structure Modified (s s' : OuchSession W) (o : OuchOrder) (mo : OuchModifyOrderReq) : Prop where
  order : s'.activeOrders.lookup mo.token.str =
    some { o with side := mo.newSide, remainingQty := sharesLeft o mo }
  reported : ∃ m, s'.pendingOutMessages = s.pendingOutMessages ++ [.orderModified m] ∧
    m.token = mo.token ∧ m.side = mo.newSide ∧ (m.shares.toNat : ℤ) = sharesLeft o mo

/-- The order is as it was and nothing is reported. -/
structure Unmodified (s s' : OuchSession W) (o : OuchOrder) (mo : OuchModifyOrderReq) : Prop where
  order : s'.activeOrders.lookup mo.token.str = some o
  quiet : s'.pendingOutMessages = s.pendingOutMessages

/-- A request for one of the other sell sides is applied, and any other has no effect. -/
def SellRule (s s' : OuchSession W) (o : OuchOrder) (mo : OuchModifyOrderReq) : Prop :=
  if asksOtherSell o mo then Modified s s' o mo else Unmodified s s' o mo

/-! ## What the switch lets through -/

/-- Of the requests for another sell side the switch turns away all for a sell order, and those of a
sell-short-exempt order for a short sale. -/
theorem passesSideSwitch_iff {o : OuchOrder} {mo : OuchModifyOrderReq} (hside : o.side ∈ sellSides) :
    passesSideSwitch o.side mo.newSide = true ↔ asksOtherSell o mo = true ∧
      o.side ≠ Side.sell ∧ (o.side = Side.sellShortExempt → mo.newSide ≠ Side.sellShort) := by
  unfold asksOtherSell
  generalize o.side = side at hside ⊢
  generalize mo.newSide = newSide
  have hsell : ∀ n : UInt8, sellSides.contains n = true ↔
      n = Side.sell ∨ n = Side.sellShort ∨ n = Side.sellShortExempt := by
    intro n
    simp [sellSides]
  rw [Bool.and_eq_true, hsell]
  simp only [sellSides, List.mem_cons, List.not_mem_nil, or_false] at hside
  rcases hside with rfl | rfl | rfl
  · simp only [passesSideSwitch, if_true, Bool.and_eq_true, Bool.or_eq_true, beq_iff_eq]
    constructor
    · -- no side passes all three tests
      rintro ⟨⟨rfl | rfl, h | h⟩, h' | h'⟩ <;>
        first | exact absurd h (by decide) | exact absurd h' (by decide)
    · exact fun h => absurd rfl h.2.1
  · -- a short order goes through the last test only
    simp only [passesSideSwitch, show Side.sellShort ≠ Side.sell by decide,
      show Side.sellShort ≠ Side.sellShortExempt by decide, if_false, if_true, Bool.or_eq_true,
      beq_iff_eq, bne_iff_ne]
    constructor
    · rintro (rfl | rfl) <;> decide
    · rintro ⟨⟨h | h | h, hne⟩, -⟩
      · exact .inr h
      · exact absurd h hne
      · exact .inl h
  · -- a short exempt one falls through to it
    simp only [passesSideSwitch, show Side.sellShortExempt ≠ Side.sell by decide, if_false, if_true,
      Bool.and_eq_true, Bool.or_eq_true, beq_iff_eq, bne_iff_ne]
    constructor
    · rintro ⟨rfl | rfl, h | h⟩ <;> first | exact absurd h (by decide) | decide
    · rintro ⟨⟨h | h | h, hne⟩, -, hshort⟩
      · exact ⟨.inr h, .inr h⟩
      · exact absurd h (hshort trivial)
      · exact absurd h hne

/-! ## The pass -/

section

variable {s : OuchSession W} {o : OuchOrder} {mo : OuchModifyOrderReq}

/-- A pass with one pending request is one step. -/
theorem modifyLogic_single (hqueue : s.pendingModify = [mo]) :
    modifyLogic E s = finishPass (modifyStep E (s, []) mo) := by
  unfold modifyLogic Session.modifyLogic
  rw [hqueue]
  rfl

variable (hqueue : s.pendingModify = [mo]) (ho : s.activeOrders.lookup mo.token.str = some o)

include hqueue ho

/-- A switch of sides that is not allowed changes nothing. -/
theorem modifyLogic_of_rejected (hpass : passesSideSwitch o.side mo.newSide = false) :
    Unmodified s (modifyLogic E s) o mo := by
  have hstep : modifyStep E (s, []) mo = (s, []) := by
    unfold modifyStep
    simp only [ho, hpass, Bool.not_false, if_true]
  rw [modifyLogic_single E hqueue, hstep]
  exact ⟨ho, rfl⟩

/-- A switch of sides that is allowed is applied and reported. -/
theorem modifyLogic_of_passed (hpass : passesSideSwitch o.side mo.newSide = true)
    (hqty : o.executedQty < mo.reqQty.toNat) :
    (modifyLogic E s).activeOrders.lookup mo.token.str =
        some { o with side := mo.newSide, remainingQty := sharesLeft o mo } ∧
      ∃ m, (modifyLogic E s).pendingOutMessages = s.pendingOutMessages ++ [.orderModified m] ∧
        m.token = mo.token ∧ m.side = mo.newSide ∧ m.shares = UInt32.ofInt (sharesLeft o mo) := by
  have hstep : modifyStep E (s, []) mo = (constructOrderModified E
      (s.withActive (s.activeOrders.insert mo.token.str
        { o with side := mo.newSide, remainingQty := sharesLeft o mo }))
      (UInt32.ofInt (sharesLeft o mo)) mo, []) := by
    unfold modifyStep
    simp only [ho, hpass, Bool.not_true, Bool.false_eq_true, if_false, if_neg (Int.not_le.mpr hqty)]
    rfl
  rw [modifyLogic_single E hqueue, hstep]
  exact ⟨AList.lookup_insert _, _, rfl, rfl, rfl, rfl⟩

/-- **Sell-side modifications.** The one pending request for a sell order, with more shares than are
executed, is treated as it should be exactly when it does not ask for another side of a sell order, nor
for a short sale of a sell-short-exempt order, and the shares it leaves fit into the message. -/
theorem sellRule_iff (hside : o.side ∈ sellSides) (hqty : o.executedQty < mo.reqQty.toNat) :
    SellRule s (modifyLogic E s) o mo ↔ (asksOtherSell o mo = true →
      o.side ≠ Side.sell ∧ (o.side = Side.sellShortExempt → mo.newSide ≠ Side.sellShort) ∧
        sharesLeft o mo < 2 ^ 32) := by
  have hswitch : passesSideSwitch o.side mo.newSide = true ↔ asksOtherSell o mo = true ∧
      o.side ≠ Side.sell ∧ (o.side = Side.sellShortExempt → mo.newSide ≠ Side.sellShort) :=
    passesSideSwitch_iff hside
  have hleft : 0 < sharesLeft o mo := Int.sub_pos.mpr hqty
  unfold SellRule
  by_cases hasks : asksOtherSell o mo = true
  · rw [if_pos hasks]
    constructor
    · intro h _
      rcases hpass : passesSideSwitch o.side mo.newSide with _ | _
      · -- the message that was to come is missing
        obtain ⟨m, hout, -⟩ := h.reported
        rw [(modifyLogic_of_rejected E hqueue ho hpass).quiet] at hout
        exact absurd (List.self_eq_append_right.mp hout) (List.cons_ne_nil _ _)
      · obtain ⟨-, hsell, hexempt⟩ := hswitch.mp hpass
        obtain ⟨m, -, -, -, hshares⟩ := h.reported
        exact ⟨hsell, hexempt, hshares ▸ Int.ofNat_lt.mpr m.shares.toNat_lt⟩
    · intro h
      obtain ⟨hsell, hexempt, hfits⟩ := h hasks
      obtain ⟨horder, m, hout, htoken, hnew, hshares⟩ :=
        modifyLogic_of_passed E hqueue ho (hswitch.mpr ⟨hasks, hsell, hexempt⟩) hqty
      exact ⟨horder, m, hout, htoken, hnew, by rw [hshares, toNat_ofInt hleft.le hfits]⟩
  · rw [if_neg hasks]
    refine iff_of_true ?_ fun h => absurd h hasks
    apply modifyLogic_of_rejected E hqueue ho
    rw [← Bool.not_eq_true, hswitch]
    exact fun h => hasks h.1

end

/-! ## Two requests -/

/-- Sell 200 shares until market close. -/
def sellPacket (c side : Char) : Event :=
  bytesEvent ([0, 50, 85, 79] ++ tokenBytes c ++ [side.toUInt8, 0, 0, 0, 200] ++
    List.replicate 8 65 ++ [0, 0, 0, 1] ++ [0, 1, 0x86, 0x9E] ++ List.replicate 4 65 ++
    [89, 79, 78, 0, 0, 0, 0, 78, 78])

/-- A session with a sell order and one request for it that waits for the tick. -/
def sellSession (side newSide : Char) : OuchSession Unit :=
  run quietEnv () (loggedIn ++ [sellPacket 'a' side, modifyPacket 'a' newSide 100])

/-- The order of the request. -/
def sellOrder (side newSide : Char) : OuchOrder :=
  entry quietEnv.ouchOrder (sellSession side newSide) (tokenOf 'a').str

/-- The request, for 100 shares. -/
def sellRequest (newSide : Char) : OuchModifyOrderReq :=
  .parseModifyOrder (ModifyOrder.ofMem (Mem.write ([0, 21, 85, 77] ++ tokenBytes 'a' ++
    [newSide.toUInt8, 0, 0, 0, 100]) fun _ => 0)).fromNetwork

/-- A short sale becomes a sale. -/
theorem sellRule_iff_short :
    SellRule (sellSession 'T' 'S') (modifyLogic quietEnv (sellSession 'T' 'S'))
      (sellOrder 'T' 'S') (sellRequest 'S') :=
  (sellRule_iff quietEnv (by decide +kernel) (by decide +kernel) (by decide +kernel)
    (by decide +kernel)).mpr fun _ => by decide +kernel

/-- A sale stays a sale. -/
theorem not_sellRule_sell :
    ¬ ∀ (W : Type) (E : Env W) (s : OuchSession W) (o : OuchOrder) (mo : OuchModifyOrderReq),
      s.pendingModify = [mo] → s.activeOrders.lookup mo.token.str = some o → o.side ∈ sellSides →
        o.executedQty < mo.reqQty.toNat → SellRule s (modifyLogic E s) o mo := by
  intro h
  have hrule := h Unit quietEnv (sellSession 'S' 'T') (sellOrder 'S' 'T') (sellRequest 'T')
    (by decide +kernel) (by decide +kernel) (by decide +kernel) (by decide +kernel)
  rw [SellRule, if_pos (by decide +kernel)] at hrule
  have hside : ((modifyLogic quietEnv (sellSession 'S' 'T')).activeOrders.lookup
      (sellRequest 'T').token.str).map (fun o => o.side) = some Side.sell := by
    decide +kernel
  rw [hrule.order] at hside
  exact absurd hside (by decide)

end OuchSession

end Evtsim
