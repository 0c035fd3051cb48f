import Evtsim.Ouch.Session
import Evtsim.Boe.Session

/-!
# What the sessions do to their surroundings

An observation of the surroundings that the clocks, `rand()` and the memory leave alone changes only
where a session consults a gate or the execution quantity. One lemma a function: a function that
consults no gate keeps the observation, and the others keep it if their gate does.
-/

namespace Evtsim

open Machine Session

/-- The observation `f` is kept by every call but those of gates outside `G` and of
`execution_qty`. -/
structure Env.Keeps {W α : Type} (E : Env W) (f : W → α) (G : Gate → Prop) : Prop where
  gate : ∀ g, G g → ∀ w, f (E.gate g w).2 = f w
  time : ∀ w, f (E.time w).2 = f w
  clock : ∀ w, f (E.clock w).2 = f w
  now : ∀ w, f (E.now w).2 = f w
  rand : ∀ w, f (E.rand w).2 = f w
  raw : ∀ w, f (E.raw w).2 = f w
  rawOuchOrder : ∀ w, f (E.rawOuchOrder w).2 = f w
  rawBoeOrder : ∀ w, f (E.rawBoeOrder w).2 = f w
  visit : ∀ ks w, f (E.visit ks w).2 = f w

variable {W α : Type} {E : Env W} {f : W → α} {G : Gate → Prop} (h : E.Keeps f G)

include h

/-- The default construction of an OUCH order keeps it. -/
theorem Env.Keeps.ouchOrder (w : W) : f (E.ouchOrder w).2 = f w := by
  show f (E.rand (E.rand (E.time (E.rawOuchOrder w).2).2).2).2 = f w
  rw [h.rand, h.rand, h.time, h.rawOuchOrder]

/-- The default construction of a BOE order keeps it. -/
theorem Env.Keeps.boeOrder (w : W) : f (E.boeOrder w).2 = f w := by
  show f (E.rand (E.rand (E.time (E.rawBoeOrder w).2).2).2).2 = f w
  rw [h.rand, h.rand, h.time, h.rawBoeOrder]

/-- `expired()` keeps it. -/
theorem Env.Keeps.expired (o : OuchOrder) (w : W) : f (o.expired E w).2.2 = f w := by
  unfold OuchOrder.expired
  split
  · exact h.time w
  · rfl

/-- `still_active()` keeps it. -/
theorem Env.Keeps.stillActive (o : OuchOrder) (w : W) : f (o.stillActive E w).2.2 = f w := by
  unfold OuchOrder.stillActive
  split
  · rfl
  · dsimp only
    split
    · exact h.expired o w
    · exact h.expired o w

/-! ## What both sessions do alike -/

namespace Session

variable {O C M R Msg Own : Type} {construct : W → O × W}

omit h in
/-- A subscript keeps what the default construction keeps. -/
theorem keeps_subscript (hc : ∀ w, f (construct w).2 = f w) (s : Session O C M R Msg Own W) (k : Key) :
    f (subscript construct s k).env = f s.env := by
  unfold subscript
  split
  · rfl
  · exact hc s.env

omit h in
/-- The end of an order keeps what the default construction keeps. -/
theorem keeps_finish (hc : ∀ w, f (construct w).2 = f w) (s : Session O C M R Msg Own W) (k : Key)
    (o : O) : f (finish construct s k o).env = f s.env := by
  unfold finish
  dsimp only
  split
  · rfl
  · exact hc s.env

/-- The start of a tick keeps it. -/
protected theorem keeps_heartbeatLogic (m : Msg) (s : Session O C M R Msg Own W) :
    f (Session.heartbeatLogic E m s).env = f s.env := by
  unfold Session.heartbeatLogic
  dsimp only
  split
  · exact h.time s.env
  split
  · show f (E.time (E.time s.env).2).2 = _
    rw [h.time, h.time]
  · exact h.time s.env

omit h in
/-- A loop of steps that keep the observation. -/
theorem keeps_run {α β : Type} {step : Session O C M R Msg Own W × β → α → Session O C M R Msg Own W × β}
    (hstep : ∀ st a, f (step st a).1.env = f st.1.env) (st : Session O C M R Msg Own W × β)
    (as : List α) : f (run step st as).1.env = f st.1.env :=
  run_invariant (I := fun st' => f st'.1.env = f st.1.env) (fun st' a hst => (hstep st' a).trans hst) rfl as

/-- `execution_logic`, if its body keeps the observation. -/
protected theorem keeps_executionLogic
    {step : Pass O C M R Msg Own W → Key → Pass O C M R Msg Own W}
    (hstep : ∀ st k, f (step st k).1.env = f st.1.env) (s : Session O C M R Msg Own W) :
    f (Session.executionLogic E step s).env = f s.env :=
  (keeps_run hstep (s.inEnv (E.visit s.activeOrders.keys s.env).2, []) _).trans (h.visit _ _)

/-- `cancel_all`, likewise. -/
protected theorem keeps_cancelAll
    {step : Session O C M R Msg Own W × ℕ → Key → Session O C M R Msg Own W × ℕ}
    (hstep : ∀ st k, f (step st k).1.env = f st.1.env) (s : Session O C M R Msg Own W) :
    f (Session.cancelAll E step s).1.env = f s.env :=
  (keeps_run hstep (s.inEnv (E.visit s.activeOrders.keys s.env).2, 0) _).trans (h.visit _ _)

end Session

namespace OuchSession

/-! ## Handlers of `ouch_session` -/

/-- A login keeps it. -/
theorem keeps_handleLoginRequest (hG : G .login) (s : OuchSession W) :
    f (handleLoginRequest E s).env = f s.env := by
  unfold handleLoginRequest
  split
  · rfl
  dsimp only
  split
  · exact h.gate _ hG s.env
  · exact h.gate _ hG s.env

/-- `enter_order` consults its gate for every order that is not too large, once the client has logged
in. -/
theorem keeps_enterOrder (s : OuchSession W) (eo : Ouch.EnterOrder) :
    f (enterOrder E s eo).env =
      if eo.qty ≤ Ouch.maxShares ∧ s.state = .loggedIn then f (E.gate .newOrder s.env).2
      else f s.env := by
  unfold enterOrder
  by_cases hqty : Ouch.maxShares < eo.qty
  · rw [if_pos hqty, if_neg fun hc => UInt32.not_le.mpr hqty hc.1]
    exact h.now s.env
  rw [if_neg hqty]
  by_cases hstate : s.state ≠ .loggedIn
  · rw [if_pos hstate, if_neg fun hc => hstate hc.2]
    exact h.now s.env
  have hconsults : eo.qty ≤ Ouch.maxShares ∧ s.state = .loggedIn :=
    ⟨UInt32.not_lt.mp hqty, not_not.mp hstate⟩
  rw [if_neg hstate, if_pos hconsults]
  dsimp only
  split
  · exact h.now _
  split
  · show f (E.now (E.ouchOrder (E.ouchOrder (E.gate .newOrder s.env).2).2).2).2 = _
    rw [h.now, h.ouchOrder, h.ouchOrder]
  · rfl

/-- A `ModifyOrder` keeps it. -/
theorem keeps_modifyOrder (hG : G .modifyOrder) (s : OuchSession W) (mo : Ouch.ModifyOrder) :
    f (modifyOrder E s mo).env = f s.env := by
  unfold modifyOrder
  split
  · rfl
  dsimp only
  split
  · exact h.gate _ hG s.env
  · exact h.gate _ hG s.env

/-- A `ReplaceOrder` keeps it. -/
theorem keeps_replaceOrder (hG : G .replaceOrder) (s : OuchSession W) (ro : Ouch.ReplaceOrder) :
    f (replaceOrder E s ro).env = f s.env := by
  unfold replaceOrder
  dsimp only
  split
  · exact h.gate _ hG s.env
  · exact h.gate _ hG s.env

omit h in
/-- `cancel_order` consults its gate for the requests of active orders and asks for nothing else. -/
theorem env_cancelOrder (s : OuchSession W) (co : Ouch.CancelOrder) :
    (cancelOrder E s co).env =
      if co.token.str ∈ s.activeOrders then (E.gate .cancelOrder s.env).2 else s.env := by
  unfold cancelOrder
  by_cases hact : co.token.str ∈ s.activeOrders
  · rw [if_neg (not_not.mpr hact), if_pos hact]
    dsimp only
    split
    · rfl
    · rfl
  · rw [if_pos hact, if_neg hact]

/-- A `CancelOrder` keeps it. -/
theorem keeps_cancelOrder (hG : G .cancelOrder) (s : OuchSession W) (co : Ouch.CancelOrder) :
    f (cancelOrder E s co).env = f s.env := by
  rw [env_cancelOrder]
  split
  · exact h.gate _ hG s.env
  · rfl

/-! ## Passes of `ouch_session` -/

/-- The start of a tick keeps it. -/
theorem keeps_heartbeatLogic (s : OuchSession W) : f (heartbeatLogic E s).env = f s.env :=
  Session.keeps_heartbeatLogic h Ouch.OutMsg.serverHeartbeat s

/-- `cancel_logic` consults the gate once more for a request that finds its order. -/
theorem keeps_cancelStep (st : Pass W) (co : OuchCancelOrderReq) :
    f (cancelStep E st co).1.env =
      if co.token.str ∈ st.1.activeOrders then f (E.gate .cancelOrder st.1.env).2
      else f st.1.env := by
  unfold cancelStep
  rcases hlook : st.1.activeOrders.lookup co.token.str with _ | o
  · rw [if_neg (KeyedMap.lookup_eq_none.mp hlook)]
    exact h.now _
  rw [if_pos (KeyedMap.mem_of_lookup hlook)]
  dsimp only
  split
  · exact h.now _
  split
  · exact h.now _
  split
  · rfl
  · exact h.now _

/-- A cancel pass keeps it. -/
theorem keeps_cancelLogic (hG : G .cancelOrder) (s : OuchSession W) :
    f (cancelLogic E s).env = f s.env := by
  have hstep : ∀ st co, f (cancelStep E st co).1.env = f st.1.env := by
    intro st co
    rw [keeps_cancelStep h, h.gate _ hG, ite_self]
  exact keeps_run hstep (s, []) s.pendingCancel

/-- A queued modification keeps it. -/
theorem keeps_modifyStep (st : Pass W) (mo : OuchModifyOrderReq) :
    f (modifyStep E st mo).1.env = f st.1.env := by
  unfold modifyStep
  split
  · rfl
  split
  · rfl
  split
  · exact h.now _
  · exact h.now _

/-- A modify pass keeps it. -/
theorem keeps_modifyLogic (s : OuchSession W) : f (modifyLogic E s).env = f s.env :=
  keeps_run (keeps_modifyStep h) (s, []) s.pendingModify

/-- A queued replacement keeps it. -/
theorem keeps_replaceStep (st : Pass W) (ro : OuchReplaceOrderReq) :
    f (replaceStep E st ro).1.env = f st.1.env := by
  have hsub := keeps_subscript h.ouchOrder st.1 ro.existingToken.str
  unfold replaceStep
  dsimp only
  split
  · exact hsub
  split
  · exact (h.now _).trans hsub
  · show f (subscript E.ouchOrder (constructOrderReplaced E _ ro _) ro.newToken.str).env = _
    rw [keeps_subscript h.ouchOrder]
    show f (E.now (E.raw (subscript E.ouchOrder st.1 ro.existingToken.str).env).2).2 = _
    rw [h.now, h.raw, hsub]

/-- A replace pass keeps it. -/
theorem keeps_replaceLogic (s : OuchSession W) : f (replaceLogic E s).env = f s.env :=
  keeps_run (keeps_replaceStep h) (s, []) s.pendingReplace

/-- The report of an execution keeps it. -/
theorem keeps_constructOrderExecuted (s : OuchSession W) (k : Key) (o : OuchOrder) (n : ℤ) :
    f (constructOrderExecuted E s k o n).env = f s.env := by
  unfold constructOrderExecuted
  split
  · rfl
  dsimp only
  generalize hr : (if n < 0 then ((1 + ((E.rand s.env).1 : ℤ) % 10) * 100, (E.rand s.env).2)
    else (n, s.env)) = r
  have hdraw : f r.2 = f s.env := by
    rw [← hr]
    split
    · exact h.rand s.env
    · rfl
  split
  · exact hdraw
  · show f (E.now (E.now r.2).2).2 = _
    rw [h.now, h.now, hdraw]

/-- A visit keeps it. -/
theorem keeps_executionStep (hG : G .execution) (st : Pass W) (k : Key) :
    f (executionStep E st k).1.env = f st.1.env := by
  unfold executionStep
  split
  · rfl
  dsimp only
  split
  · exact h.gate _ hG _
  have hexpired : ∀ o : OuchOrder, f (o.expired E (E.gate .execution st.1.env).2).2.2 = f st.1.env :=
    fun o => (h.expired o _).trans (h.gate _ hG _)
  split
  · exact (h.now _).trans (hexpired _)
  split
  · split
    · exact (h.now _).trans (hexpired _)
    · exact hexpired _
  split
  · refine (keeps_constructOrderExecuted h _ _ _ _).trans ?_
    exact (h.stillActive _ _).trans (hexpired _)
  · refine (keeps_finish h.ouchOrder _ _ _).trans ?_
    exact (h.stillActive _ _).trans (hexpired _)

/-- An execution pass keeps it. -/
theorem keeps_executionLogic (hG : G .execution) (s : OuchSession W) :
    f (executionLogic E s).env = f s.env :=
  Session.keeps_executionLogic h (keeps_executionStep h hG) s

/-- `cancel_all` keeps it. -/
theorem keeps_cancelAll (s : OuchSession W) : f (cancelAll E s).1.env = f s.env := by
  refine Session.keeps_cancelAll h (fun st k => ?_) s
  unfold cancelAllStep
  split
  · rfl
  dsimp only
  split
  · exact (h.now _).trans (h.stillActive _ _)
  · exact h.stillActive _ _

end OuchSession

namespace BoeSession

/-! ## Handlers of `boe_session` -/

/-- A login keeps it. -/
theorem keeps_handleLoginRequest (hG : G .login) (s : BoeSession W) (req : Boe.LoginRequest) :
    f (handleLoginRequest E s req).env = f s.env := by
  unfold handleLoginRequest
  dsimp only
  split
  · exact h.gate _ hG s.env
  split
  · exact h.gate _ hG s.env
  · exact h.gate _ hG s.env

/-- `enter_order` consults its gate for the tokens that are not active. -/
theorem keeps_enterOrder (s : BoeSession W) (no : Boe.NewOrder) :
    f (enterOrder E s no).env =
      if no.token.str ∈ s.activeOrders then f s.env else f (E.gate .newOrder s.env).2 := by
  unfold enterOrder
  dsimp only
  by_cases hact : no.token.str ∈ s.activeOrders
  · rw [if_pos hact, if_pos hact]
    exact h.raw s.env
  rw [if_neg hact, if_neg hact]
  split
  · exact h.raw _
  · show f (E.now (E.raw (E.boeOrder (E.boeOrder (E.gate .newOrder s.env).2).2).2).2).2 = _
    rw [h.now, h.raw, h.boeOrder, h.boeOrder]

/-- A `ModifyOrder` keeps it. -/
theorem keeps_modifyOrder (hG : G .modifyOrder) (s : BoeSession W) (mo : Boe.ModifyOrder) :
    f (modifyOrder E s mo).env = f s.env := by
  unfold modifyOrder
  dsimp only
  split
  · show f (E.now (E.raw s.env).2).2 = _
    rw [h.now, h.raw]
  split
  · show f (E.now (E.raw (E.gate .modifyOrder s.env).2).2).2 = _
    rw [h.now, h.raw, h.gate _ hG]
  · exact h.gate _ hG s.env

/-- The report of a rejected cancel keeps it. -/
theorem keeps_constructCancelRejected (s : BoeSession W) (t : Boe.Token) (r : Boe.Reason) :
    f (constructCancelRejected E s t r).env = f s.env := by
  show f (E.now (E.raw s.env).2).2 = _
  rw [h.now, h.raw]

/-- A `CancelOrder` keeps it. -/
theorem keeps_cancelOrder (hG : G .cancelOrder) (s : BoeSession W) (co : Boe.CancelOrder) :
    f (cancelOrder E s co).env = f s.env := by
  have hsub := keeps_subscript h.boeOrder s co.origToken.str
  unfold cancelOrder
  dsimp only
  split
  · rfl
  split
  · exact (keeps_constructCancelRejected h _ _ _).trans hsub
  split
  · exact (keeps_constructCancelRejected h _ _ _).trans hsub
  split
  · exact (keeps_constructCancelRejected h _ _ _).trans ((h.gate _ hG _).trans hsub)
  · exact (h.gate _ hG _).trans hsub

/-! ## Passes of `boe_session` -/

/-- The start of a tick keeps it. -/
theorem keeps_heartbeatLogic (s : BoeSession W) : f (heartbeatLogic E s).env = f s.env :=
  Session.keeps_heartbeatLogic h Boe.OutMsg.serverHeartbeat s

/-- A queued cancel keeps it. -/
theorem keeps_cancelStep (hG : G .cancelOrder) (st : Pass W) (co : BoeCancelOrderReq) :
    f (cancelStep E st co).1.env = f st.1.env := by
  unfold cancelStep
  split
  · exact keeps_constructCancelRejected h _ _ _
  dsimp only
  split
  · exact (keeps_constructCancelRejected h _ _ _).trans (h.gate _ hG _)
  · show f (E.now (E.raw (E.gate .cancelOrder st.1.env).2).2).2 = _
    rw [h.now, h.raw, h.gate _ hG]

/-- A cancel pass keeps it. -/
theorem keeps_cancelLogic (hG : G .cancelOrder) (s : BoeSession W) :
    f (cancelLogic E s).env = f s.env :=
  keeps_run (keeps_cancelStep h hG) (s, []) s.pendingCancel

/-- A queued modification keeps it. -/
theorem keeps_modifyStep (st : Pass W) (mo : BoeModifyOrderReq) :
    f (modifyStep E st mo).1.env = f st.1.env := by
  unfold modifyStep
  split
  · rfl
  dsimp only
  -- both subscripts keep the observation
  have hsub : ∀ s : BoeSession W, f s.env = f st.1.env →
      f (subscript E.boeOrder s mo.token.str).env = f st.1.env :=
    fun s hs => (keeps_subscript h.boeOrder s mo.token.str).trans hs
  split
  · exact hsub _ (hsub _ rfl)
  · rename_i bo _
    generalize hs : subscript E.boeOrder _ mo.token.str = s'
    have hs' : f s'.env = f st.1.env := by
      rw [← hs]
      exact hsub _ (hsub _ rfl)
    show f (E.now (E.raw s'.env).2).2 = _
    rw [h.now, h.raw, hs']

/-- A modify pass keeps it. -/
theorem keeps_modifyLogic (s : BoeSession W) : f (modifyLogic E s).env = f s.env :=
  keeps_run (keeps_modifyStep h) (s, []) s.pendingModify

/-- The report of an execution keeps it. -/
theorem keeps_constructOrderExecuted (s : BoeSession W) (k : Key) (o : BoeOrder) (n : ℤ) :
    f (constructOrderExecuted E s k o n).env = f s.env := by
  unfold constructOrderExecuted
  split
  · rfl
  dsimp only
  have hdraws : f (E.rand (E.rand (E.now (E.raw s.env).2).2).2).2 = f s.env := by
    rw [h.rand, h.rand, h.now, h.raw]
  split
  · exact (h.rand _).trans hdraws
  · exact hdraws

/-- `execution_logic` of BOE asks for the execution quantity too. -/
theorem keeps_executionStep (hqty : ∀ w, f (E.executionQty w).2 = f w) (hG : G .execution)
    (st : Pass W) (k : Key) : f (executionStep E st k).1.env = f st.1.env := by
  unfold executionStep
  split
  · rfl
  dsimp only
  split
  · exact h.gate _ hG _
  split
  · refine (keeps_constructOrderExecuted h _ _ _ _).trans ?_
    exact (hqty _).trans (h.gate _ hG _)
  · exact (keeps_finish h.boeOrder _ _ _).trans (h.gate _ hG _)

/-- An execution pass keeps it. -/
theorem keeps_executionLogic (hqty : ∀ w, f (E.executionQty w).2 = f w) (hG : G .execution)
    (s : BoeSession W) : f (executionLogic E s).env = f s.env :=
  Session.keeps_executionLogic h (keeps_executionStep h hqty hG) s

/-- `cancel_all` keeps it. -/
theorem keeps_cancelAll (s : BoeSession W) : f (cancelAll E s).1.env = f s.env := by
  refine Session.keeps_cancelAll h (fun st k => ?_) s
  unfold cancelAllStep
  split
  · rfl
  split
  · show f (E.now (E.raw st.1.env).2).2 = _
    rw [h.now, h.raw]
  · rfl

end BoeSession

end Evtsim
