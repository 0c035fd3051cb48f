import Evtsim.Ouch.Steps
import Evtsim.Boe.Steps

/-!
# Requests for unknown tokens

`active_orders[token]` makes an entry where there is none, an order of whatever the memory held. Both
sessions subscript with the token of a request before they ask whether it is known. `replace_logic` then
finds every token known: it reports the entry as cancelled, or makes an active order of it. The
`cancel_order` of a BOE session leaves the entry in the book, where it takes the place of a new order.
-/

namespace Evtsim

open Wire Session

namespace OuchSession

open Ouch

variable {W : Type} (E : Env W)

/-- A request to replace creates and changes no order and sends nothing. -/
structure Ignores (st : Pass W) (ro : OuchReplaceOrderReq) : Prop where
  activeOrders : ∀ k,
    (replaceStep E st ro).1.activeOrders.lookup k = st.1.activeOrders.lookup k
  finishedOrders : ∀ k,
    (replaceStep E st ro).1.finishedOrders.lookup k = st.1.finishedOrders.lookup k
  out : (replaceStep E st ro).1.pendingOutMessages = st.1.pendingOutMessages

/-- A message is one too many. -/
theorem not_ignores_of_out {st : Pass W} {ro : OuchReplaceOrderReq} {m : Ouch.OutMsg}
    (h : (replaceStep E st ro).1.pendingOutMessages = st.1.pendingOutMessages ++ [m]) :
    ¬ Ignores E st ro := by
  intro hignores
  have hnil : ([m] : List Ouch.OutMsg) = [] :=
    List.self_eq_append_right.mp (hignores.out.symm.trans h)
  exact List.cons_ne_nil m [] hnil

/-- **A request to replace an unknown order** is never ignored: an order of uninitialised memory is
reported as cancelled; or it is reported as replaced and, unless the tokens are equal, held under the new
token. -/
theorem replaceStep_unknown (st : Pass W) (ro : OuchReplaceOrderReq)
    (h : ro.existingToken.str ∉ st.1.activeOrders) :
    ¬ Ignores E st ro ∧
      ((∃ m, m.token = ro.existingToken ∧ (replaceStep E st ro).1.pendingOutMessages =
          st.1.pendingOutMessages ++ [.orderCanceled m]) ∨
        ∃ m, m.origToken = ro.existingToken ∧ (replaceStep E st ro).1.pendingOutMessages =
            st.1.pendingOutMessages ++ [.orderReplaced m] ∧
          (ro.newToken ≠ ro.existingToken → (replaceStep E st ro).1.activeOrders.lookup ro.newToken.str =
            some (replaced (E.ouchOrder st.1.env).1 ro))) := by
  rcases replaceStep_cases E st ro with ⟨-, w, m, hm, -, hs⟩ | ⟨-, w, m, A, -, hm, hA, hs⟩
  · have hout : (replaceStep E st ro).1.pendingOutMessages =
        st.1.pendingOutMessages ++ [.orderCanceled m] := by
      rw [hs]
      rfl
    exact ⟨not_ignores_of_out E hout, .inl ⟨m, hm, hout⟩⟩
  · have hout : (replaceStep E st ro).1.pendingOutMessages =
        st.1.pendingOutMessages ++ [.orderReplaced m] := by
      rw [hs]
      rfl
    refine ⟨not_ignores_of_out E hout, .inr ⟨m, hm, hout, fun hne => ?_⟩⟩
    rw [hs]
    show A.lookup ro.newToken.str = _
    rw [hA, if_neg fun hk => hne (TokenOf.str_inj.mp hk), if_pos rfl, entry_of_notMem E.ouchOrder h]

/-- The request of `replacePacket 'a' 'b' 200`. -/
def replaceUnentered : OuchReplaceOrderReq :=
  { existingToken := tokenOf 'a', newToken := tokenOf 'b', qty := 200, price := 1
    timeInForce := 99998, display := 89, intermarketSweepEligibility := 78, minQty := 0 }

/-- No order has been entered at all. -/
theorem replaceStep_unentered :
    (tokenOf 'a').str ∉ (run quietEnv () loggedIn).activeOrders ∧
      ¬ Ignores quietEnv (run quietEnv () loggedIn, []) replaceUnentered :=
  ⟨by decide +kernel, (replaceStep_unknown quietEnv (run quietEnv () loggedIn, []) replaceUnentered
    (by decide +kernel)).1⟩

/-- 200 shares of an order that was never entered are active afterwards. -/
theorem not_ignores_unentered :
    ¬ ∀ (W : Type) (E : Env W) (st : Pass W) (ro : OuchReplaceOrderReq),
      ro.existingToken.str ∉ st.1.activeOrders → Ignores E st ro := by
  intro h
  have hignores := h Unit quietEnv (run quietEnv () (loggedIn ++ [replacePacket 'a' 'b' 200]), [])
    replaceUnentered (by decide +kernel)
  have hactive : ((replaceStep quietEnv (run quietEnv () (loggedIn ++ [replacePacket 'a' 'b' 200]), [])
      replaceUnentered).1.activeOrders.lookup (tokenOf 'b').str).map (fun o => o.remainingQty) =
        some 200 := by
    decide +kernel
  rw [hignores.activeOrders] at hactive
  exact absurd hactive (by decide +kernel)

end OuchSession

namespace BoeSession

open Boe

variable {W : Type} (E : Env W)

/-- A cancel is answered by one reject with the reason that fits, and leaves the maps and the queue as
they were, so that a new order with its token is accepted if the gate lets it through. -/
structure RejectsCleanly (s : BoeSession W) (co : CancelOrder) : Prop where
  activeOrders : ∀ k, (cancelOrder E s co).activeOrders.lookup k = s.activeOrders.lookup k
  finishedOrders : ∀ k, (cancelOrder E s co).finishedOrders.lookup k = s.finishedOrders.lookup k
  pendingCancel : (cancelOrder E s co).pendingCancel = s.pendingCancel
  answer : ∃ m, (cancelOrder E s co).pendingOutMessages = s.pendingOutMessages ++ [.cancelRejected m] ∧
    m.token = co.origToken ∧
    m.reason = (if co.origToken.str ∈ s.finishedOrders then Reason.tooLateToCancel
      else Reason.clordidDoesntMatchAKnownOrder).code
  reentry : ∀ no, no.token = co.origToken →
    (E.gate .newOrder (cancelOrder E s co).env).1 = true → Accepts E (cancelOrder E s co) no

/-- An unknown token gets an entry. -/
theorem lookup_cancelOrder_unknown {s : BoeSession W} {co : CancelOrder}
    (h : co.origToken.str ∉ s.activeOrders) :
    (cancelOrder E s co).activeOrders.lookup co.origToken.str = some (E.boeOrder s.env).1 := by
  have htouch := lookup_touch_self E.boeOrder s co.origToken.str
  rw [← entry_of_notMem E.boeOrder h]
  rcases cancelOrder_cases E s co with ⟨⟨o, ho, -⟩, -⟩ | ⟨-, w, ⟨-, hs⟩ | ⟨-, m, hs⟩⟩
  · exact absurd (KeyedMap.mem_of_lookup ho) h
  · rw [hs]
    exact htouch
  · rw [hs]
    exact htouch

/-- **A cancel of an unknown order** never leaves the book as it was: an order of uninitialised memory is
active under its token from then on, and no new order with this token is accepted. -/
theorem cancelOrder_unknown (s : BoeSession W) (co : CancelOrder)
    (h : co.origToken.str ∉ s.activeOrders) :
    ¬ RejectsCleanly E s co ∧
      (cancelOrder E s co).activeOrders.lookup co.origToken.str = some (E.boeOrder s.env).1 ∧
      ∀ no, no.token = co.origToken → ¬ Accepts E (cancelOrder E s co) no := by
  have hentry := lookup_cancelOrder_unknown E h
  refine ⟨fun hclean => ?_, hentry, fun no hno haccepts => ?_⟩
  · have hsame := hclean.activeOrders co.origToken.str
    rw [hentry, KeyedMap.lookup_eq_none.mpr h] at hsame
    exact Option.some_ne_none _ hsame
  · apply haccepts.1
    rw [hno]
    exact KeyedMap.mem_of_lookup hentry

/-- No order has been entered at all. -/
theorem cancelOrder_unentered :
    (tokenOf 'a').str ∉ (init quietEnv ()).activeOrders ∧
      ¬ RejectsCleanly quietEnv (init quietEnv ()) { origToken := tokenOf 'a' } :=
  ⟨by decide +kernel, (cancelOrder_unknown quietEnv (init quietEnv ()) { origToken := tokenOf 'a' }
    (by decide +kernel)).1⟩

/-- An order of token `a` is active after the cancel that rejects it as unknown. -/
theorem not_rejectsCleanly_unentered :
    ¬ ∀ (W : Type) (E : Env W) (s : BoeSession W) (co : CancelOrder),
      co.origToken.str ∉ s.activeOrders → RejectsCleanly E s co := by
  intro h
  have hclean := h Unit quietEnv (init quietEnv ()) { origToken := tokenOf 'a' } (by decide +kernel)
  have hactive : ((cancelOrder quietEnv (init quietEnv ())
      { origToken := tokenOf 'a' }).activeOrders.lookup (tokenOf 'a').str).isSome = true := by
    decide +kernel
  rw [hclean.activeOrders] at hactive
  exact absurd hactive (by decide +kernel)

end BoeSession

end Evtsim
