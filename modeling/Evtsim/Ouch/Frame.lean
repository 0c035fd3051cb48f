import Evtsim.Lib.Log
import Evtsim.Ouch.Book

/-!
# What the requests of an `ouch_session` leave alone

The three passes that work through requests read and write `active_orders` under the tokens that the
requests name, and collect these tokens for erasure. `LeavesAlone` is what one request does to the order
of another token; it composes over a pass and over the passes.
-/

namespace Evtsim

open Wire Ouch Log Machine Session

namespace OuchSession

variable {W : Type} (E : Env W)

/-- The tokens that a message carries. -/
def tokens : Ouch.OutMsg → List Token
  | .orderAccepted m => [m.token]
  | .orderCanceled m => [m.token]
  | .orderModified m => [m.token]
  | .orderRejected m => [m.token]
  | .orderReplaced m => [m.token, m.origToken]
  | .executed m => [m.token]
  | .cancelReject m => [m.token]
  | _ => []

/-! ## One request -/

/-- The order of `t` stays as it is, it is not collected, and no new message carries its token. -/
structure LeavesAlone (t : Token) (st st' : Pass W) : Prop where
  active : st'.1.activeOrders.lookup t.str = st.1.activeOrders.lookup t.str
  finished : st'.1.finishedOrders = st.1.finishedOrders
  done : t.str ∈ st'.2 ↔ t.str ∈ st.2
  out : Appends (fun m => t ∉ tokens m) st.1.pendingOutMessages st'.1.pendingOutMessages

variable {t : Token}

/-- What stays as it is leaves the order alone. -/
theorem LeavesAlone.refl (st : Pass W) : LeavesAlone t st st :=
  ⟨rfl, rfl, Iff.rfl, Appends.refl _ _⟩

/-- Two turns that leave the order alone. -/
theorem LeavesAlone.trans {st st' st'' : Pass W} (h : LeavesAlone t st st')
    (h' : LeavesAlone t st' st'') : LeavesAlone t st st'' :=
  ⟨h'.active.trans h.active, h'.finished.trans h.finished, h'.done.trans h.done, h.out.trans h'.out⟩

/-- Another token is not the one that is collected. -/
theorem notMem_singleton_of_eq {u : Token} {ts : List Token} (hts : ts = [u]) (h : u ≠ t) : t ∉ ts := by
  rw [hts, List.mem_singleton]
  exact fun heq => h heq.symm

/-- A cancel leaves the orders that it does not name alone. -/
theorem leavesAlone_cancelStep (st : Pass W) {co : OuchCancelOrderReq} (h : co.token ≠ t) :
    LeavesAlone t st (cancelStep E st co) := by
  have hne : co.token.str ≠ t.str := fun heq => h (TokenOf.str_inj.mp heq)
  by_cases hreject : co.token.str ∉ st.1.activeOrders ∨ (E.gate .cancelOrder st.1.env).1 = false
  · obtain ⟨w, m, hm, hs⟩ := cancelStep_reject E hreject
    rw [hs]
    exact ⟨rfl, rfl, Iff.rfl, appends_singleton (notMem_singleton_of_eq rfl (hm ▸ h))⟩
  rcases cancelStep_cases E st co with ⟨hrejected, -⟩ | ⟨o, -, -, ⟨-, w, m, hm, -, hs⟩ | ⟨-, -, w, hs⟩ |
    ⟨-, -, w, m, hm, -, hs⟩⟩
  · exact absurd hrejected hreject
  · rw [hs]
    exact ⟨rfl, rfl, KeyedMap.mem_append_of_ne hne,
      appends_singleton (notMem_singleton_of_eq rfl (hm ▸ h))⟩
  · rw [hs]
    exact ⟨rfl, rfl, Iff.rfl, Appends.refl _ _⟩
  · rw [hs]
    exact ⟨AList.lookup_insert_ne hne.symm, rfl, Iff.rfl,
      appends_singleton (notMem_singleton_of_eq rfl (hm ▸ h))⟩

/-- `modify_logic` collects the token of the order that it finds, which is the token of the request. -/
theorem leavesAlone_modifyStep {st : Pass W} (hk : Keyed st.1.activeOrders [])
    {mo : OuchModifyOrderReq} (h : mo.token ≠ t) : LeavesAlone t st (modifyStep E st mo) := by
  have hne : mo.token.str ≠ t.str := fun heq => h (TokenOf.str_inj.mp heq)
  rcases modifyStep_cases E st mo with ⟨-, hs⟩ | ⟨o, ho, -, ⟨-, w, m, hm, hs⟩ | ⟨-, w, m, hm, hs⟩⟩ <;>
    rw [hs]
  · exact LeavesAlone.refl st
  · have htoken : o.token.str = mo.token.str := (hk _ o ho).resolve_right List.not_mem_nil
    exact ⟨rfl, rfl, KeyedMap.mem_append_of_ne (htoken ▸ hne),
      appends_singleton (notMem_singleton_of_eq rfl (hm ▸ h))⟩
  · exact ⟨AList.lookup_insert_ne hne.symm, rfl, Iff.rfl,
      appends_singleton (notMem_singleton_of_eq rfl (hm ▸ h))⟩

/-- A replacement leaves the orders that it does not name alone; it names two tokens. -/
theorem leavesAlone_replaceStep (st : Pass W) {ro : OuchReplaceOrderReq}
    (hold : ro.existingToken ≠ t) (hnew : ro.newToken ≠ t) : LeavesAlone t st (replaceStep E st ro) := by
  have hne : ro.existingToken.str ≠ t.str := fun heq => hold (TokenOf.str_inj.mp heq)
  rcases replaceStep_cases E st ro with ⟨-, w, m, hm, -, hs⟩ | ⟨-, w, m, A, hm, horig, hA, hs⟩ <;>
    rw [hs]
  · exact ⟨KeyedMap.lookup_touch _ _ (.inr hne.symm), rfl, KeyedMap.mem_append_of_ne hne,
      appends_singleton (notMem_singleton_of_eq rfl (hm ▸ hold))⟩
  · refine ⟨?_, rfl, Iff.rfl, appends_singleton ?_⟩
    · have hne' : t.str ≠ ro.newToken.str := fun heq => hnew (TokenOf.str_inj.mp heq).symm
      exact (hA t.str).trans (by rw [if_neg hne.symm, if_neg hne'])
    · show t ∉ [m.token, m.origToken]
      rw [hm, horig, List.mem_cons, List.mem_singleton, not_or]
      exact ⟨hnew.symm, hold.symm⟩

/-! ## A pass -/

/-- A pass whose requests all leave `t` alone. -/
theorem leavesAlone_run {ε : Type} {f : Pass W → ε → Pass W} {I : Pass W → Prop} {Q : ε → Prop}
    (hI : ∀ st e, I st → I (f st e)) (hf : ∀ st e, I st → Q e → LeavesAlone t st (f st e))
    {st : Pass W} (hst : I st) {es : List ε} (hes : ∀ e ∈ es, Q e) :
    LeavesAlone t st (Machine.run f st es) :=
  (run_of_along (I := fun st' => I st' ∧ LeavesAlone t st st')
    (fun st' e h hQ => ⟨hI st' e h.1, h.2.trans (hf st' e h.1 hQ)⟩) ⟨hst, LeavesAlone.refl st⟩
    (along_of_forall hes)).2

/-- What a pass that has collected nothing before leaves alone is still there when it ends. -/
theorem LeavesAlone.finishPass {s : OuchSession W} {st : Pass W} (h : LeavesAlone t (s, []) st) :
    LeavesAlone t (s, []) (finishPass st, []) := by
  have hdone : t.str ∉ st.2 := fun hmem => List.not_mem_nil (h.done.mp hmem)
  exact ⟨(lookup_finishPass_of_notMem hdone).trans h.active, h.finished, Iff.rfl, h.out⟩

/-- The token is in no pending request. -/
structure Unnamed (t : Token) (s : OuchSession W) : Prop where
  cancel : ∀ co ∈ s.pendingCancel, co.token ≠ t
  modify : ∀ mo ∈ s.pendingModify, mo.token ≠ t
  replace : ∀ ro ∈ s.pendingReplace, ro.existingToken ≠ t ∧ ro.newToken ≠ t

/-- A cancel pass leaves the orders alone that no request names. -/
theorem leavesAlone_cancelLogic {s : OuchSession W} (h : ∀ co ∈ s.pendingCancel, co.token ≠ t) :
    LeavesAlone t (s, []) (cancelLogic E s, []) := by
  have hrun : LeavesAlone t (s, []) (Machine.run (cancelStep E) (s, []) s.pendingCancel) :=
    leavesAlone_run (f := cancelStep E) (I := fun _ => True) (fun _ _ _ => trivial)
      (fun st _ _ hco => leavesAlone_cancelStep E st hco) trivial h
  have hend := hrun.finishPass
  exact ⟨hend.active, hend.finished, hend.done, hend.out⟩

/-- A modify pass leaves the orders alone that no request names; it collects the token of the order that it
finds. -/
theorem leavesAlone_modifyLogic {s : OuchSession W} (hk : Keyed s.activeOrders [])
    (h : ∀ mo ∈ s.pendingModify, mo.token ≠ t) : LeavesAlone t (s, []) (modifyLogic E s, []) :=
  (leavesAlone_run (I := fun st : Pass W => Keyed st.1.activeOrders [])
    (fun _ mo h => keyed_modifyStep E h mo) (fun _ _ hst hmo => leavesAlone_modifyStep E hst hmo)
    hk h).finishPass

/-- A replace pass leaves the orders alone that no request names. -/
theorem leavesAlone_replaceLogic {s : OuchSession W}
    (h : ∀ ro ∈ s.pendingReplace, ro.existingToken ≠ t ∧ ro.newToken ≠ t) :
    LeavesAlone t (s, []) (replaceLogic E s, []) := by
  have hrun : LeavesAlone t (s, []) (Machine.run (replaceStep E) (s, []) s.pendingReplace) :=
    leavesAlone_run (f := replaceStep E) (I := fun _ => True) (fun _ _ _ => trivial)
      (fun st _ _ hro => leavesAlone_replaceStep E st hro.1 hro.2) trivial h
  have hend := hrun.finishPass
  exact ⟨hend.active, hend.finished, hend.done, hend.out⟩

/-! ## The three passes -/

/-- A session with the given requests pending. -/
def withPending (s : OuchSession W) (cs : List OuchCancelOrderReq) (ms : List OuchModifyOrderReq)
    (rs : List OuchReplaceOrderReq) : OuchSession W :=
  { s with pendingCancel := cs, pendingModify := ms, pendingReplace := rs }

/-- The part of `market_logic` that works through the requests. -/
def requestLogic (s : OuchSession W) : OuchSession W :=
  replaceLogic E (modifyLogic E (cancelLogic E s))

/-- The three passes leave the orders alone that no request names. -/
theorem leavesAlone_requestLogic {s : OuchSession W} (hk : Keyed s.activeOrders [])
    (h : Unnamed t s) : LeavesAlone t (s, []) (requestLogic E s, []) := by
  obtain ⟨-, hmodify, hreplace, -⟩ := cancelLogic_frame E s
  have hreplace' := ((modifyLogic_frame E (cancelLogic E s)).1.pendingReplace).trans hreplace
  have hcancels := leavesAlone_cancelLogic E h.cancel
  have hmodifies := leavesAlone_modifyLogic E (s := cancelLogic E s) (keyed_cancelLogic E hk)
    (hmodify ▸ h.modify)
  have hreplaces := leavesAlone_replaceLogic E (s := modifyLogic E (cancelLogic E s))
    (hreplace' ▸ h.replace)
  exact (hcancels.trans hmodifies).trans hreplaces

/-- The three passes finish no order. -/
theorem finishedOrders_requestLogic (s : OuchSession W) :
    (requestLogic E s).finishedOrders = s.finishedOrders := by
  obtain ⟨-, -, -, hcancel⟩ := cancelLogic_frame E s
  obtain ⟨-, hmodify⟩ := modifyLogic_frame E (cancelLogic E s)
  obtain ⟨-, -, -, hreplace⟩ := replaceLogic_frame E (modifyLogic E (cancelLogic E s))
  exact (hreplace.trans hmodify).trans hcancel

/-- **Requests touch the orders that they name.** In a reachable session with any requests pending, the
passes that work through them leave every other order as it is and send no message with its token. -/
theorem requestLogic_unnamed (w : W) (es : List Event) (cs : List OuchCancelOrderReq)
    (ms : List OuchModifyOrderReq) (rs : List OuchReplaceOrderReq) :
    (requestLogic E ((run E w es).withPending cs ms rs)).finishedOrders = (run E w es).finishedOrders ∧
      ∀ k o, (run E w es).activeOrders.lookup k = some o →
        Unnamed o.token ((run E w es).withPending cs ms rs) →
        (requestLogic E ((run E w es).withPending cs ms rs)).activeOrders.lookup k = some o ∧
          ∀ m ∈ added (run E w es).pendingOutMessages
            (requestLogic E ((run E w es).withPending cs ms rs)).pendingOutMessages,
            o.token ∉ tokens m := by
  refine ⟨finishedOrders_requestLogic E _, fun k o ho hun => ?_⟩
  have hkeyed : Keyed ((run E w es).withPending cs ms rs).activeOrders [] := keyed_run E w es
  have hk : o.token.str = k := (hkeyed k o ho).resolve_right List.not_mem_nil
  have halone := leavesAlone_requestLogic E hkeyed hun
  refine ⟨?_, ?_⟩
  · rw [← hk] at ho ⊢
    exact halone.active.trans ho
  · obtain ⟨new, hnew, hall⟩ := halone.out
    have hout : (requestLogic E ((run E w es).withPending cs ms rs)).pendingOutMessages =
        (run E w es).pendingOutMessages ++ new := hnew
    rw [hout, added_append]
    exact hall

/-- Three orders, of which the requests name two. -/
def threeOrders : List Event :=
  loggedIn ++ [enterPacket 'a' 200, enterPacket 'b' 200, enterPacket 'c' 200]

def cancelOfA : OuchCancelOrderReq := { token := tokenOf 'a', qty := 0 }

def modifyOfB : OuchModifyOrderReq := { token := tokenOf 'b', reqQty := 0, newSide := Side.buy }

def replaceOfB : OuchReplaceOrderReq :=
  { existingToken := tokenOf 'b', newToken := tokenOf 'a', qty := 100, price := 1
    timeInForce := 99998, display := 89, intermarketSweepEligibility := 78, minQty := 0 }

/-- The third order is still there. -/
theorem requestLogic_unnamed_third :
    ((requestLogic quietEnv ((run quietEnv () threeOrders).withPending [cancelOfA] [modifyOfB]
      [replaceOfB])).activeOrders.lookup (tokenOf 'c').str).isSome = true := by
  have hheld : ((run quietEnv () threeOrders).activeOrders.lookup (tokenOf 'c').str).isSome = true := by
    decide +kernel
  obtain ⟨o, ho⟩ := Option.isSome_iff_exists.mp hheld
  have htoken : o.token = tokenOf 'c' :=
    TokenOf.str_inj.mp ((keyed_run quietEnv () threeOrders _ o ho).resolve_right List.not_mem_nil)
  have hunnamed : Unnamed o.token ((run quietEnv () threeOrders).withPending [cancelOfA] [modifyOfB]
      [replaceOfB]) := by
    rw [htoken]
    refine ⟨?_, ?_, ?_⟩
    · exact List.forall_mem_singleton.mpr (by decide)
    · exact List.forall_mem_singleton.mpr (by decide)
    · exact List.forall_mem_singleton.mpr (by decide)
  have hkept := ((requestLogic_unnamed quietEnv () threeOrders [cancelOfA] [modifyOfB]
    [replaceOfB]).2 _ o ho hunnamed).1
  rw [hkept]
  rfl

end OuchSession

end Evtsim
