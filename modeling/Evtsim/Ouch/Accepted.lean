import Evtsim.Ouch.Book
import Evtsim.Ouch.Emission

/-!
# What the order of an `EnterOrder` keeps

`accepted` reads off the log which `OrderAccepted` the order of a token goes back to, as long as no
`OrderReplaced` names the token. `Lasting.run` says when a property of the order relative to that
message lasts: every function that rewrites the order has to keep it, `modify_logic` under a condition
on the request.

Two such properties follow. The side: the switch of `modify_logic` has no case for a buy order, which a
modification can turn into a sell order. The size: `validate_modify_order` lets 1000000 shares through,
one more than `MAX_SHARES`.
-/

namespace Evtsim

open Wire Ouch Log Machine Session

namespace OuchSession

variable {W : Type} (E : Env W)

/-! ## The accepting message -/

/-- The `OrderAccepted` that the order of `t` goes back to, after one more message. -/
def follow (t : Token) (x : Option OrderAccepted) : Ouch.OutMsg → Option OrderAccepted
  | .orderAccepted m => if m.token = t then some m else x
  | .orderReplaced m => if m.token = t ∨ m.origToken = t then none else x
  | _ => x

/-- The `OrderAccepted` that the order of `t` goes back to, unless it has been replaced. -/
def accepted (t : Token) (s : OuchSession W) : Option OrderAccepted :=
  s.pendingOutMessages.foldl (follow t) none

/-- What is known of an accepted order is followed message by message. -/
theorem accepted_append {t : Token} {s s' : OuchSession W} {m : Ouch.OutMsg}
    (h : s'.pendingOutMessages = s.pendingOutMessages ++ [m]) :
    accepted t s' = follow t (accepted t s) m := by
  unfold accepted
  rw [h, List.foldl_append]
  rfl

/-- Messages that the reading skips. -/
theorem accepted_of_appends {t : Token} {s s' : OuchSession W} {Q : Ouch.OutMsg → Prop}
    (h : Appends Q s.pendingOutMessages s'.pendingOutMessages) (hQ : ∀ x m, Q m → follow t x m = x) :
    accepted t s' = accepted t s :=
  h.foldl hQ none

/-- Messages of other kinds. -/
theorem accepted_of_emits {t : Token} {s s' : OuchSession W} {kinds : List Kind}
    (h : Emits kinds s s') (hacc : .orderAccepted ∉ kinds) (hrep : .orderReplaced ∉ kinds) :
    accepted t s' = accepted t s := by
  apply accepted_of_appends h
  intro x m hm
  cases m with
  | orderAccepted m => exact absurd hm hacc
  | orderReplaced m => exact absurd hm hrep
  | _ => rfl

/-- Steps that concern no order accept none. -/
theorem accepted_of_idle {t : Token} {s s' : OuchSession W} (h : Idle s s') :
    accepted t s' = accepted t s := by
  apply accepted_of_appends h.out
  intro x m hm
  cases m with
  | orderAccepted m => cases hm
  | orderReplaced m => cases hm
  | _ => rfl

/-- `construct_order_accepted` reports the side of the order. -/
theorem side_of_enterOrder {s : OuchSession W} {eo : EnterOrder} {m : OrderAccepted}
    (h : (enterOrder E s eo).pendingOutMessages = s.pendingOutMessages ++ [.orderAccepted m]) :
    m.side = eo.side := by
  have hnone : s.pendingOutMessages ≠ s.pendingOutMessages ++ [.orderAccepted m] := fun heq =>
    List.cons_ne_nil _ _ (List.self_eq_append_right.mp heq)
  have hlast : ∀ {m' : Ouch.OutMsg}, s.pendingOutMessages ++ [m'] =
      s.pendingOutMessages ++ [.orderAccepted m] → m' = .orderAccepted m := fun heq =>
    List.head_eq_of_cons_eq (List.append_cancel_left heq)
  unfold enterOrder at h
  dsimp only at h
  split at h
  · cases hlast h
  split at h
  · cases hlast h
  split at h
  · cases hlast h
  split at h
  · cases hlast h
    rfl
  · exact absurd h hnone

/-! ## Properties that last -/

/-- `K` relates the accepting message to the order for as long as the order lives, if every modification
that changes it meets `C`. -/
structure Lasting (K : OrderAccepted → OuchOrder → Prop) (C : OuchOrder → OuchModifyOrderReq → Prop) :
    Prop where
  enter : ∀ {m : OrderAccepted} {eo : EnterOrder}, m.side = eo.side → m.qty = eo.qty →
    eo.qty ≤ maxShares → ∀ d, K m (OuchOrder.parseOrder d eo)
  retime : ∀ {m o o'}, K m o → Retimed o o' → K m o'
  cut : ∀ {m o}, K m o → ∀ n : UInt32, n < UInt32.ofInt o.remainingQty →
    K m { o with remainingQty := n.toNat }
  modify : ∀ {m o mo}, K m o → C o mo → passesSideSwitch o.side mo.newSide = true →
    o.executedQty < mo.reqQty.toNat →
    K m { o with side := mo.newSide, remainingQty := (mo.reqQty.toNat : ℤ) - o.executedQty }
  fill : ∀ {m o} {exe : ℤ}, K m o → 0 < exe → exe ≤ o.remainingQty →
    K m { o with remainingQty := o.remainingQty - exe, executedQty := o.executedQty + exe }

/-- The order that is held under the token, active or finished, is related to its accepting message. -/
def Holds (K : OrderAccepted → OuchOrder → Prop) (t : Token) (s : OuchSession W) : Prop :=
  ∀ m, accepted t s = some m → ∀ o,
    s.activeOrders.lookup t.str = some o ∨ s.finishedOrders.lookup t.str = some o → K m o

/-- A tick changes the order of an accepting message by modifications with `C` only. -/
def ModifiesBy (C : OuchOrder → OuchModifyOrderReq → Prop) (t : Token) (s : OuchSession W) :
    Event → Prop
  | .marketLogic =>
    Along (modifyStep E) (fun st mo => mo.token = t → accepted t st.1 ≠ none →
        ∀ o ∈ st.1.activeOrders.lookup t.str, passesSideSwitch o.side mo.newSide = true →
          o.executedQty < mo.reqQty.toNat → C o mo)
      (cancelLogic E (heartbeatLogic E s), []) (cancelLogic E (heartbeatLogic E s)).pendingModify
  | _ => True

instance (C : OuchOrder → OuchModifyOrderReq → Prop) [∀ o mo, Decidable (C o mo)] (t : Token)
    (s : OuchSession W) : ∀ e, Decidable (ModifiesBy E C t s e)
  | .marketLogic => inferInstanceAs (Decidable (Along _ _ _ _))
  | .setLogger => isTrue trivial
  | .packet _ => isTrue trivial
  | .cancelAll => isTrue trivial
  | .disconnect => isTrue trivial

variable {K : OrderAccepted → OuchOrder → Prop} {C : OuchOrder → OuchModifyOrderReq → Prop}

/-! ## One step -/

/-- A step that leaves both orders of the token and the accepting message alone. -/
theorem Holds.congr {t : Token} {s s' : OuchSession W} (h : Holds K t s)
    (hacc : accepted t s' = accepted t s)
    (hact : s'.activeOrders.lookup t.str = s.activeOrders.lookup t.str)
    (hfin : s'.finishedOrders.lookup t.str = s.finishedOrders.lookup t.str) : Holds K t s' := by
  intro m hm o ho
  rw [hacc] at hm
  rw [hact, hfin] at ho
  exact h m hm o ho

/-- Steps that concern no order keep what holds of it. -/
theorem Holds.idle {t : Token} {s s' : OuchSession W} (h : Holds K t s) (hs : Idle s s') :
    Holds K t s' :=
  h.congr (accepted_of_idle hs) (by rw [hs.activeOrders]) (by rw [hs.finishedOrders])

/-- A step that rewrites the active order under `k`. -/
theorem Holds.update {t : Token} {s s' : OuchSession W} (h : Holds K t s) {k : Key} {o o' : OuchOrder}
    (ho : s.activeOrders.lookup k = some o) (hacc : accepted t s' = accepted t s)
    (hact : s'.activeOrders = s.activeOrders.insert k o') (hfin : s'.finishedOrders = s.finishedOrders)
    (hkeep : k = t.str → ∀ m, accepted t s = some m → K m o → K m o') : Holds K t s' := by
  intro m hm x hx
  rw [hacc] at hm
  rw [hact, hfin, KeyedMap.lookup_insert] at hx
  split at hx
  · rename_i hk
    rcases hx with hx | hx
    · cases hx
      exact hkeep hk.symm m hm (h m hm o (.inl (hk ▸ ho)))
    · exact h m hm x (.inr hx)
  · exact h m hm x hx

/-- The end of a pass only erases. -/
theorem Holds.finish {t : Token} (st : Pass W) (h : Holds K t st.1) : Holds K t (finishPass st) := by
  rintro m hm o (ho | ho)
  · by_cases hk : t.str ∈ st.2
    · rw [lookup_finishPass_of_mem hk] at ho
      cases ho
    · rw [lookup_finishPass_of_notMem hk] at ho
      exact h m hm o (.inl ho)
  · exact h m hm o (.inr ho)

/-- A cancel keeps what outlasts a cut of the quantity. -/
theorem holds_cancelStep (hK : Lasting K C) {t : Token} {st : Pass W} (h : Holds K t st.1)
    (co : OuchCancelOrderReq) : Holds K t (cancelStep E st co).1 := by
  have hacc : accepted t (cancelStep E st co).1 = accepted t st.1 :=
    accepted_of_emits (emits_cancelStep E st co) (by simp) (by simp)
  rcases cancelStep_cases E st co with ⟨-, w, m, hs⟩ | ⟨o, ho, -, ⟨-, w, m, -, -, hs⟩ |
    ⟨-, -, w, hs⟩ | ⟨-, hlt, w, m, -, -, hs⟩⟩
  · exact h.congr hacc (by rw [hs]; rfl) (by rw [hs]; rfl)
  · exact h.congr hacc (by rw [hs]; rfl) (by rw [hs]; rfl)
  · exact h.congr hacc (by rw [hs]; rfl) (by rw [hs]; rfl)
  · apply h.update ho hacc (by rw [hs]; rfl) (by rw [hs]; rfl)
    intro _ m' _ hm'
    exact hK.cut hm' co.qty hlt

/-- A modification keeps it if it is of the kind that the property outlasts. -/
theorem holds_modifyStep (hK : Lasting K C) {t : Token} {st : Pass W} (h : Holds K t st.1)
    {mo : OuchModifyOrderReq}
    (hC : mo.token = t → accepted t st.1 ≠ none → ∀ o ∈ st.1.activeOrders.lookup t.str,
      passesSideSwitch o.side mo.newSide = true → o.executedQty < mo.reqQty.toNat → C o mo) :
    Holds K t (modifyStep E st mo).1 := by
  have hacc : accepted t (modifyStep E st mo).1 = accepted t st.1 :=
    accepted_of_emits (emits_modifyStep E st mo) (by simp) (by simp)
  rcases modifyStep_cases E st mo with ⟨-, hs⟩ | ⟨o, ho, hpass, ⟨-, w, m, -, hs⟩ |
    ⟨hlt, w, m, -, hs⟩⟩
  · rw [hs]
    exact h
  · exact h.congr hacc (by rw [hs]; rfl) (by rw [hs]; rfl)
  · apply h.update ho hacc (by rw [hs]; rfl) (by rw [hs]; rfl)
    intro hk m' hm' hold
    have htoken : mo.token = t := TokenOf.str_inj.mp hk
    refine hK.modify hold (hC htoken ?_ o (hk ▸ ho) hpass hlt) hpass hlt
    rw [hm']
    exact Option.some_ne_none m'

/-- A visit rewrites the countdown and the state, fills, and may finish the order. -/
theorem holds_executionStep (hK : Lasting K C) {t : Token} {st : Pass W} (h : Holds K t st.1)
    (k : Key) : Holds K t (executionStep E st k).1 := by
  have hacc : accepted t (executionStep E st k).1 = accepted t st.1 :=
    accepted_of_emits (emits_executionStep E st k) (by simp) (by simp)
  rcases executionStep_cases E st k with ⟨-, hs⟩ | ⟨o, ho, ⟨-, w, hs⟩ | ⟨o', w, hr, ⟨m, -, -, hs⟩ |
    ⟨-, hs⟩ | ⟨exe, m, h0, hle, -, -, hs⟩ | hs | hs⟩⟩
  · rw [hs]
    exact h
  · exact h.congr hacc (by rw [hs]; rfl) (by rw [hs]; rfl)
  · exact h.update ho hacc (by rw [hs]; rfl) (by rw [hs]; rfl) fun _ m _ hm => hK.retime hm hr
  · exact h.update ho hacc (by rw [hs]; rfl) (by rw [hs]; rfl) fun _ m _ hm => hK.retime hm hr
  · apply h.update ho hacc (by rw [hs]; rfl) (by rw [hs]; rfl)
    intro _ m' _ hold
    obtain ⟨r, x, rfl⟩ := hr
    exact hK.retime (hK.fill hold h0 hle) ⟨r, x, rfl⟩
  · exact h.update ho hacc (by rw [hs]; rfl) (by rw [hs]; rfl) fun _ m _ hm => hK.retime hm hr
  · -- the order goes to the finished orders as it is
    intro m hm x hx
    rw [hacc] at hm
    rw [hs] at hx
    have hkeep : k = t.str → K m o' := fun hk => hK.retime (h m hm o (.inl (hk ▸ ho))) hr
    have hx' : (st.1.activeOrders.insert k o').lookup t.str = some x ∨
        (st.1.finishedOrders.insert k o').lookup t.str = some x := hx
    rw [KeyedMap.lookup_insert, KeyedMap.lookup_insert] at hx'
    split at hx'
    · rename_i hk
      have hxo : o' = x := hx'.elim Option.some.inj Option.some.inj
      exact hxo ▸ hkeep hk.symm
    · exact h m hm x hx'

/-- `cancel_all` looks at the order only. -/
theorem holds_cancelAllStep (hK : Lasting K C) {t : Token} {st : OuchSession W × ℕ}
    (h : Holds K t st.1) (k : Key) : Holds K t (cancelAllStep E st k).1 := by
  have hacc : accepted t (cancelAllStep E st k).1 = accepted t st.1 :=
    accepted_of_emits (emits_cancelAllStep E st k) (by simp) (by simp)
  rcases cancelAllStep_cases E st k with ⟨-, hs⟩ | ⟨o, o', w, ho, hr, ⟨m, -, -, hs⟩ | hs⟩
  · rw [hs]
    exact h
  · exact h.update ho hacc (by rw [hs]; rfl) (by rw [hs]; rfl) fun _ m _ hm => hK.retime hm hr
  · exact h.update ho hacc (by rw [hs]; rfl) (by rw [hs]; rfl) fun _ m _ hm => hK.retime hm hr

/-- Within `replace_logic`: an active order that has been collected, such as one that a subscript has
constructed, does not matter. -/
structure HoldsIn (K : OrderAccepted → OuchOrder → Prop) (t : Token) (st : Pass W) : Prop where
  active : ∀ m, accepted t st.1 = some m → ∀ o, st.1.activeOrders.lookup t.str = some o →
    t.str ∈ st.2 ∨ K m o
  finished : ∀ m, accepted t st.1 = some m → ∀ o, st.1.finishedOrders.lookup t.str = some o → K m o

/-- What holds within a replace pass holds behind it: a token that no longer fits its order has been
collected. -/
theorem HoldsIn.finish {t : Token} {st : Pass W} (h : HoldsIn K t st) :
    Holds K t (finishPass st) := by
  rintro m hm o (ho | ho)
  · by_cases hk : t.str ∈ st.2
    · rw [lookup_finishPass_of_mem hk] at ho
      cases ho
    · rw [lookup_finishPass_of_notMem hk] at ho
      exact (h.active m hm o ho).resolve_left hk
  · exact h.finished m hm o ho

/-- A replacement takes the order to another token. -/
theorem holdsIn_replaceStep {t : Token} {st : Pass W} (h : HoldsIn K t st)
    (ro : OuchReplaceOrderReq) : HoldsIn K t (replaceStep E st ro) := by
  rcases replaceStep_cases E st ro with ⟨-, w, m, -, -, hs⟩ | ⟨-, w, m, A, hnew, horig, hA, hs⟩
  · rw [hs]
    have hacc : ∀ A, accepted t ((st.1.withActive A).emit w (.orderCanceled m)) =
        accepted t st.1 := by
      intro A
      have hlog : ((st.1.withActive A).emit w (.orderCanceled m)).pendingOutMessages =
          st.1.pendingOutMessages ++ [.orderCanceled m] := rfl
      exact accepted_append hlog
    refine ⟨fun m' hm' o ho => ?_, fun m' hm' o ho => ?_⟩
    · rw [hacc] at hm'
      by_cases hk : t.str = ro.existingToken.str
      · exact .inl (List.mem_append_right _ (List.mem_singleton.mpr hk))
      · have hold : st.1.activeOrders.lookup t.str = some o :=
          (KeyedMap.lookup_touch _ _ (.inr hk)).symm.trans ho
        exact (h.active m' hm' o hold).imp_left (List.mem_append_left _)
    · rw [hacc] at hm'
      exact h.finished m' hm' o ho
  · rw [hs]
    have hacc : accepted t ((st.1.withActive A).emit w (.orderReplaced m)) =
        follow t (accepted t st.1) (.orderReplaced m) := accepted_append rfl
    by_cases hnamed : m.token = t ∨ m.origToken = t
    · -- the replacement names the token
      have hnone : follow t (accepted t st.1) (.orderReplaced m) = none := if_pos hnamed
      rw [hnone] at hacc
      have hno : ∀ m', accepted t ((st.1.withActive A).emit w (.orderReplaced m)) ≠ some m' := by
        intro m' hm'
        exact Option.some_ne_none m' (hm'.symm.trans hacc)
      exact ⟨fun m' hm' => absurd hm' (hno m'), fun m' hm' => absurd hm' (hno m')⟩
    · have hsame : follow t (accepted t st.1) (.orderReplaced m) = accepted t st.1 := if_neg hnamed
      rw [hsame] at hacc
      rw [hnew, horig, not_or] at hnamed
      have hlook : A.lookup t.str = st.1.activeOrders.lookup t.str := by
        rw [hA, if_neg fun hk => hnamed.2 (TokenOf.str_inj.mp hk).symm,
          if_neg fun hk => hnamed.1 (TokenOf.str_inj.mp hk).symm]
      refine ⟨fun m' hm' o ho => ?_, fun m' hm' o ho => ?_⟩
      · exact h.active m' (hacc.symm.trans hm') o (hlook.symm.trans ho)
      · exact h.finished m' (hacc.symm.trans hm') o ho

/-! ## Ticks and runs -/

/-- A cancel pass keeps what its body keeps. -/
theorem holds_cancelLogic (hK : Lasting K C) {t : Token} {s : OuchSession W} (h : Holds K t s) :
    Holds K t (cancelLogic E s) := by
  have hrun := run_invariant (f := cancelStep E) (I := fun st : Pass W => Holds K t st.1)
    (fun st co hst => holds_cancelStep E hK hst co) (s := (s, [])) h s.pendingCancel
  exact Holds.finish ({ (Machine.run (cancelStep E) (s, []) s.pendingCancel).1 with
    pendingCancel := [] }, _) hrun

/-- A replace pass keeps what its body keeps. -/
theorem holds_replaceLogic {t : Token} {s : OuchSession W} (h : Holds K t s) :
    Holds K t (replaceLogic E s) := by
  have hrun := run_invariant (f := replaceStep E) (I := HoldsIn K t)
    (fun st ro hst => holdsIn_replaceStep E hst ro) (s := (s, []))
    ⟨fun m hm o ho => .inr (h m hm o (.inl ho)), fun m hm o ho => h m hm o (.inr ho)⟩ s.pendingReplace
  exact hrun.finish

/-- An execution pass keeps what outlasts a fill and a look at the clock. -/
theorem holds_executionLogic (hK : Lasting K C) {t : Token} {s : OuchSession W} (h : Holds K t s) :
    Holds K t (executionLogic E s) := by
  have hrun := run_invariant (f := executionStep E) (I := fun st : Pass W => Holds K t st.1)
    (fun st k hst => holds_executionStep E hK hst k)
    (s := (s.inEnv (E.visit s.activeOrders.keys s.env).2, [])) h
    (E.visit s.activeOrders.keys s.env).1.val
  exact Holds.finish _ hrun

/-- A tick keeps it if its modifications do. -/
theorem holds_marketLogic (hK : Lasting K C) {t : Token} {s : OuchSession W} (h : Holds K t s)
    (hC : ModifiesBy E C t s .marketLogic) : Holds K t (marketLogic E s) := by
  have hbeat : Holds K t (heartbeatLogic E s) := h.idle (idle_heartbeatLogic E s)
  have hcancel := holds_cancelLogic E hK hbeat
  have hmodify : Holds K t (modifyLogic E (cancelLogic E (heartbeatLogic E s))) :=
    Holds.finish _ (run_of_along (f := modifyStep E) (I := fun st : Pass W => Holds K t st.1)
      (fun st mo hst hmo => holds_modifyStep E hK hst hmo) hcancel hC)
  exact holds_executionLogic E hK (holds_replaceLogic E hmodify)

/-- An accepted order starts out as its message says. -/
theorem holds_handle (hK : Lasting K C) {t : Token} {s : OuchSession W} (h : Holds K t s)
    (r : Request) : Holds K t (handle E s r) := by
  rcases handle_cases E s r with ⟨hidle, -⟩ | ⟨eo, w, d, m, hr, hacc, htoken, hqty, hs⟩ |
    ⟨mo, w, -, -, -, hs⟩ | ⟨ro, w, -, -, hs⟩ | ⟨co, w, -, -, -, hs⟩
  · exact h.idle hidle
  · have hside : m.side = eo.side := by
      apply side_of_enterOrder E (s := s)
      rw [hr] at hs
      exact congrArg pendingOutMessages hs
    have hlog : accepted t (handle E s r) = follow t (accepted t s) (.orderAccepted m) :=
      accepted_append (by rw [hs]; rfl)
    by_cases hk : m.token = t
    · -- the token of the order
      have hnew : follow t (accepted t s) (.orderAccepted m) = some m := if_pos hk
      have hkey : t.str = eo.token.str := by rw [← hk, htoken]
      intro m' hm' o ho
      rw [hlog, hnew] at hm'
      cases hm'
      rw [hs] at ho
      rcases ho with ho | ho
      · have ho' : (s.activeOrders.insert eo.token.str (OuchOrder.parseOrder d eo)).lookup t.str =
            some o := ho
        rw [KeyedMap.lookup_insert, if_pos hkey] at ho'
        cases ho'
        exact hK.enter hside hqty hacc.1 d
      · have hfin : s.finishedOrders.lookup t.str = some o := ho
        rw [hkey] at hfin
        exact absurd (KeyedMap.mem_of_lookup hfin) hacc.2.2.2.2
    · have hold : follow t (accepted t s) (.orderAccepted m) = accepted t s := if_neg hk
      apply h.congr (hlog.trans hold)
      · rw [hs]
        show (s.activeOrders.insert eo.token.str _).lookup t.str = _
        rw [KeyedMap.lookup_insert, if_neg]
        intro heq
        exact hk (htoken.trans (TokenOf.str_inj.mp heq).symm)
      · rw [hs]
        rfl
  · rw [hs]
    exact h
  · rw [hs]
    exact h
  · rw [hs]
    exact h

/-- Every event keeps it if its modifications do. -/
theorem holds_step (hK : Lasting K C) {t : Token} {s : OuchSession W} (h : Holds K t s) {e : Event}
    (hC : ModifiesBy E C t s e) : Holds K t (step E s e) := by
  cases e with
  | setLogger => exact h
  | packet p =>
    rcases step_packet E s p with ⟨-, hs⟩ | ⟨r, -, -, hs⟩
    · rw [hs]
      exact h
    · rw [hs]
      exact holds_handle E hK h r
  | marketLogic => exact holds_marketLogic E hK h hC
  | cancelAll =>
    have hrun := run_invariant (f := cancelAllStep E)
      (I := fun st : OuchSession W × ℕ => Holds K t st.1)
      (fun st k hst => holds_cancelAllStep E hK hst k)
      (s := (s.inEnv (E.visit s.activeOrders.keys s.env).2, 0)) h
      (E.visit s.activeOrders.keys s.env).1.val
    rintro m hm o (ho | ho)
    · cases ho
    · exact hrun m hm o (.inr ho)
  | disconnect => exact h

/-- **A lasting property** of the order of a token holds throughout a run whose modifications of the
order meet `C`. -/
theorem Lasting.run (hK : Lasting K C) (t : Token) (w : W) (es : List Event)
    (hC : Along (step E) (ModifiesBy E C t) (init E w) es) :
    Throughout (step E) (Holds K t) (init E w) es :=
  throughout_of_along (fun _ _ hs he => holds_step E hK hs he)
    (fun _ hm => absurd hm.symm (Option.some_ne_none _)) hC

/-! ## Buying and selling -/

/-- One of the three sides of a sell order. -/
def Sells (side : UInt8) : Prop :=
  side = Side.sell ∨ side = Side.sellShort ∨ side = Side.sellShortExempt

/-- An order entered as a buy order buys, and one entered as a sell order sells. -/
def SameSide (m : OrderAccepted) (o : OuchOrder) : Prop :=
  (m.side = Side.buy → o.side = Side.buy) ∧ (Sells m.side → Sells o.side)

/-- The request leaves a buy order a buy order. -/
def KeepsBuying (o : OuchOrder) (mo : OuchModifyOrderReq) : Prop :=
  o.side = Side.buy → mo.newSide = Side.buy

instance (o : OuchOrder) (mo : OuchModifyOrderReq) : Decidable (KeepsBuying o mo) :=
  inferInstanceAs (Decidable (_ → _))

/-- The switch lets a sell order become a sell order only. -/
theorem sells_of_passesSideSwitch {side newSide : UInt8} (hside : Sells side)
    (h : passesSideSwitch side newSide = true) : Sells newSide := by
  have hpair : ∀ {a b : UInt8}, (newSide == a || newSide == b) = true → newSide = a ∨ newSide = b := by
    intro a b hab
    rwa [Bool.or_eq_true, beq_iff_eq, beq_iff_eq] at hab
  unfold passesSideSwitch at h
  dsimp only at h
  rcases hside with rfl | rfl | rfl
  · rw [if_pos rfl, Bool.and_eq_true] at h
    exact (hpair h.2).elim (fun he => .inr (.inr he)) .inl
  · rw [if_neg (by decide), if_neg (by decide), if_pos rfl] at h
    exact (hpair h).elim (fun he => .inr (.inr he)) .inl
  · rw [if_neg (by decide), if_pos rfl, Bool.and_eq_true] at h
    exact (hpair h.2).elim (fun he => .inr (.inr he)) .inl

/-- The side of an order outlasts all but a modification that changes it. -/
theorem lasting_sameSide : Lasting SameSide KeepsBuying where
  enter := by
    intro m eo hside _ _ d
    have hentered : (OuchOrder.parseOrder d eo).side = m.side := hside.symm
    unfold SameSide
    rw [hentered]
    exact ⟨id, id⟩
  retime := by
    rintro m o _ h ⟨r, x, rfl⟩
    exact h
  cut := fun h _ _ => h
  modify := by
    rintro m o mo ⟨hbuy, hsell⟩ hC hpass -
    exact ⟨fun hm => hC (hbuy hm), fun hm => sells_of_passesSideSwitch (hsell hm) hpass⟩
  fill := fun h _ _ => h

/-- **Buying stays buying and selling stays selling** in every state of a run, if no modification of a
buy order asks for another side. -/
theorem sameSide_run (t : Token) (w : W) (es : List Event)
    (h : Along (step E) (ModifiesBy E KeepsBuying t) (init E w) es) :
    Throughout (step E) (Holds SameSide t) (init E w) es :=
  lasting_sameSide.run E t w es h

/-- A buy order that is modified as one. -/
theorem sameSide_modified_buy :
    (accepted (tokenOf 'a') (run quietEnv () (loggedIn ++
      [enterPacket 'a' 200, modifyPacket 'a' 'B' 100, .marketLogic]))).isSome ∧
    Throughout (step quietEnv) (Holds SameSide (tokenOf 'a')) (init quietEnv ())
      (loggedIn ++ [enterPacket 'a' 200, modifyPacket 'a' 'B' 100, .marketLogic]) :=
  ⟨by decide +kernel, sameSide_run quietEnv _ () _ (by decide +kernel)⟩

/-- A modification turns a buy order into a sell order. -/
theorem not_sameSide_turned :
    ¬ ∀ (W : Type) (E : Env W) (w : W) (t : Token) (es : List Event),
      Throughout (step E) (Holds SameSide t) (init E w) es := by
  intro h
  have hlast := (h Unit quietEnv () (tokenOf 'a') (loggedIn ++
    [enterPacket 'a' 200, modifyPacket 'a' 'S' 200, .marketLogic])).last
  have hentered : (accepted (tokenOf 'a') (run quietEnv () (loggedIn ++ [enterPacket 'a' 200,
      modifyPacket 'a' 'S' 200, .marketLogic]))).map OrderAccepted.side = some Side.buy := by
    decide +kernel
  have hheld : ((run quietEnv () (loggedIn ++ [enterPacket 'a' 200, modifyPacket 'a' 'S' 200,
      .marketLogic])).activeOrders.lookup (tokenOf 'a').str).map (fun o => o.side) =
      some Side.sell := by
    decide +kernel
  obtain ⟨m, hm, hbuy⟩ := Option.map_eq_some_iff.mp hentered
  obtain ⟨o, ho, hsell⟩ := Option.map_eq_some_iff.mp hheld
  have hside : o.side = Side.buy := (hlast m hm o (.inl ho)).1 hbuy
  rw [hsell] at hside
  exact absurd hside (by decide)

/-! ## The size of an order -/

/-- The quantities are not negative, and together at most `MAX_SHARES`. -/
def WithinLimit (_ : OrderAccepted) (o : OuchOrder) : Prop :=
  0 ≤ o.executedQty ∧ 0 ≤ o.remainingQty ∧ o.executedQty + o.remainingQty ≤ maxShares.toNat

/-- The request asks for no more than `MAX_SHARES`. -/
def AsksWithin (_ : OuchOrder) (mo : OuchModifyOrderReq) : Prop := mo.reqQty ≤ maxShares

instance (o : OuchOrder) (mo : OuchModifyOrderReq) : Decidable (AsksWithin o mo) :=
  inferInstanceAs (Decidable (_ ≤ _))

/-- A quantity within the limit outlasts all but a modification beyond it. -/
theorem lasting_withinLimit : Lasting WithinLimit AsksWithin where
  enter := by
    intro m eo _ _ hle d
    have hnat : eo.qty.toNat ≤ maxShares.toNat := UInt32.le_iff_toNat_le.mp hle
    have hrem : (OuchOrder.parseOrder d eo).remainingQty = eo.qty.toNat := rfl
    have hexe : (OuchOrder.parseOrder d eo).executedQty = 0 := rfl
    unfold WithinLimit
    rw [hrem, hexe]
    omega
  retime := by
    rintro m o _ h ⟨r, x, rfl⟩
    exact h
  cut := by
    rintro m o ⟨hexe, hrem, hsum⟩ n hlt
    have hmax : maxShares.toNat = 999999 := rfl
    have hfits : ((UInt32.ofInt o.remainingQty).toNat : ℤ) = o.remainingQty :=
      toNat_ofInt hrem (by omega)
    have hn : n.toNat < (UInt32.ofInt o.remainingQty).toNat := UInt32.lt_iff_toNat_lt.mp hlt
    refine ⟨hexe, Int.natCast_nonneg _, ?_⟩
    show o.executedQty + (n.toNat : ℤ) ≤ _
    omega
  modify := by
    rintro m o mo ⟨hexe, -, -⟩ hC - hlt
    have hle : mo.reqQty.toNat ≤ maxShares.toNat := UInt32.le_iff_toNat_le.mp hC
    refine ⟨hexe, ?_, ?_⟩
    · show (0 : ℤ) ≤ (mo.reqQty.toNat : ℤ) - o.executedQty
      omega
    · show o.executedQty + ((mo.reqQty.toNat : ℤ) - o.executedQty) ≤ _
      omega
  fill := by
    rintro m o exe ⟨hexe, hrem, hsum⟩ h0 hle
    refine ⟨?_, ?_, ?_⟩
    · show 0 ≤ o.executedQty + exe
      omega
    · show 0 ≤ o.remainingQty - exe
      omega
    · show o.executedQty + exe + (o.remainingQty - exe) ≤ _
      omega

/-- **The size limit** holds in every state of a run, if no applied modification asks for more than
`MAX_SHARES`. -/
theorem withinLimit_run (t : Token) (w : W) (es : List Event)
    (h : Along (step E) (ModifiesBy E AsksWithin t) (init E w) es) :
    Throughout (step E) (Holds WithinLimit t) (init E w) es :=
  lasting_withinLimit.run E t w es h

/-- An order that is cut, modified and filled. -/
theorem withinLimit_modified :
    (accepted (tokenOf 'a') (run quietEnv () (loggedIn ++ [enterPacket 'a' 200, cancelPacket 'a' 150,
      modifyPacket 'a' 'B' 250, .marketLogic]))).isSome ∧
    Throughout (step quietEnv) (Holds WithinLimit (tokenOf 'a')) (init quietEnv ())
      (loggedIn ++ [enterPacket 'a' 200, cancelPacket 'a' 150, modifyPacket 'a' 'B' 250,
        .marketLogic]) :=
  ⟨by decide +kernel, withinLimit_run quietEnv _ () _ (by decide +kernel)⟩

/-- A modification to 1000000 shares. -/
def modifyToMillion (c : Char) : Event :=
  bytesEvent ([0, 21, 85, 77] ++ tokenBytes c ++ [66, 0, 0x0F, 0x42, 0x40])

/-- `validate_modify_order` lets 1000000 shares through. -/
theorem not_withinLimit_million :
    ¬ ∀ (W : Type) (E : Env W) (w : W) (t : Token) (es : List Event),
      Throughout (step E) (Holds WithinLimit t) (init E w) es := by
  intro h
  have hlast := (h Unit quietEnv () (tokenOf 'a') (loggedIn ++
    [enterPacket 'a' 200, modifyToMillion 'a', .marketLogic])).last
  have hentered : (accepted (tokenOf 'a') (run quietEnv () (loggedIn ++ [enterPacket 'a' 200,
      modifyToMillion 'a', .marketLogic]))).isSome = true := by
    decide +kernel
  have hheld : ((run quietEnv () (loggedIn ++ [enterPacket 'a' 200, modifyToMillion 'a',
      .marketLogic])).activeOrders.lookup (tokenOf 'a').str).map
        (fun o => o.executedQty + o.remainingQty) = some 1000000 := by
    decide +kernel
  obtain ⟨m, hm⟩ := Option.isSome_iff_exists.mp hentered
  obtain ⟨o, ho, hsum⟩ := Option.map_eq_some_iff.mp hheld
  have hle : o.executedQty + o.remainingQty ≤ maxShares.toNat := (hlast m hm o (.inl ho)).2.2
  rw [hsum] at hle
  exact absurd hle (by decide)

end OuchSession

end Evtsim
