import Evtsim.Boe.Steps
import Evtsim.Passes

/-!
# Dead orders of a `boe_session`

The watch of `ouch_session` over the loops of `boe_session`. An `OrderModified` does not tell the token
that the request names, so it is filed under the request's. Besides late messages there is a silent way
back: `cancel_order` subscripts `active_orders` with the token of a dead order that has been moved away,
and the entry that this default-constructs may have something remaining.
-/

namespace Evtsim

open Wire Boe Machine Log Session

namespace BoeSession

variable {W : Type} (E : Env W)

/-! ## The watch -/

/-- The watch over a machine that holds a session. -/
abbrev Watched (σ : Type) := Session.Watched BoeOrder Boe.OutMsg σ

/-- The order that a report of a cancellation or an execution is about. -/
def about : Boe.OutMsg → Option Key
  | .orderCanceled m => some m.token.str
  | .orderExecution m => some m.token.str
  | _ => none

/-- The order that an answer to a modification is about. -/
def aboutModified (mo : BoeModifyOrderReq) : Boe.OutMsg → Option Key
  | .orderModified _ => some mo.origToken.str
  | _ => none

/-- The token that a message gives to an order. -/
def acked : Boe.OutMsg → Option Key
  | .orderAck m => some m.token.str
  | _ => none

/-- The order that a message reports executed, if something remained of it in `s` and nothing remains
of it in `s'`. -/
def diedBy (s s' : BoeSession W) : Boe.OutMsg → Option (Key × Option BoeOrder)
  | .orderExecution m =>
    match s.activeOrders.lookup m.token.str, s'.activeOrders.lookup m.token.str with
    | some o, some o' =>
      if 0 < o.remainingQty ∧ o'.remainingQty = 0 then
        some (m.token.str, s'.finishedOrders.lookup m.token.str)
      else none
    | _, _ => none
  | _ => none

variable {σ ε : Type}

def reading (f : σ → ε → σ) (g : σ → BoeSession W) :
    Reading σ ε Key (Option BoeOrder) Boe.OutMsg where
  about _ := about
  given st e := (newMessages f g st e).findSome? acked
  retired st e := (newMessages f g st e).findSome? (diedBy (g st) (g (f st e)))

/-- An applied modification gives its new token to the order. -/
def modifyReading : Reading (Pass W) BoeModifyOrderReq Key (Option BoeOrder) Boe.OutMsg where
  about := aboutModified
  given st mo := if mo.origToken.str ∈ st.1.activeOrders then some mo.token.str else none
  retired _ _ := none

/-- A step of a machine that holds a session, under watch. -/
def watch (f : σ → ε → σ) (g : σ → BoeSession W) : Watched σ → ε → Watched σ :=
  Session.watch f g (reading f g)

def watchModifyStep : Watched (Pass W) → BoeModifyOrderReq → Watched (Pass W) :=
  Session.watch (modifyStep E) Prod.fst modifyReading

def watchCancel : Watched (BoeSession W) → Watched (BoeSession W) :=
  Session.watchCancel (cancelStep E) (reading (cancelStep E) Prod.fst)

def watchModify : Watched (BoeSession W) → Watched (BoeSession W) :=
  Session.watchModify (modifyStep E) modifyReading

def watchExecution : Watched (BoeSession W) → Watched (BoeSession W) :=
  Session.watchExecution E (executionStep E) (reading (executionStep E) Prod.fst)

def watchCancelAll : Watched (BoeSession W) → Watched (BoeSession W) :=
  Session.watchCancelAll E (cancelAllStep E) (reading (cancelAllStep E) Prod.fst)

/-- One event under watch; a tick is watched loop by loop. -/
def watchStep (a : Watched (BoeSession W)) : Event → Watched (BoeSession W)
  | .marketLogic =>
    watchExecution E (watchModify E (watchCancel E (a.goOn (heartbeatLogic E a.st))))
  | .cancelAll => watchCancelAll E a
  | .packet p => watch (step E) id a (.packet p)
  | .disconnect => watch (step E) id a .disconnect

def watchInit (w : W) : Watched (BoeSession W) := { st := init E w, retired := [], late := [] }

/-- The watch of a cancel pass does not touch the session. -/
theorem watchCancel_st (a : Watched (BoeSession W)) :
    (watchCancel E a).st = cancelLogic E a.st := Session.watchCancel_st a _

/-- The watch of a modify pass does not touch the session. -/
theorem watchModify_st (a : Watched (BoeSession W)) :
    (watchModify E a).st = modifyLogic E a.st := Session.watchModify_st a _

/-- The watch of an execution pass does not touch the session. -/
theorem watchExecution_st (a : Watched (BoeSession W)) :
    (watchExecution E a).st = executionLogic E a.st := Session.watchExecution_st E a _

/-- The watch does not touch the session. -/
theorem watchStep_st (a : Watched (BoeSession W)) (e : Event) :
    (watchStep E a e).st = step E a.st e := by
  cases e with
  | packet p => rfl
  | marketLogic =>
    show (watchExecution E _).st = marketLogic E a.st
    rw [watchExecution_st, watchModify_st, watchCancel_st]
    rfl
  | cancelAll => exact Session.watchCancelAll_st E a _
  | disconnect => rfl

/-- The watch of a run does not touch the session. -/
theorem watch_run_st (w : W) (es : List Event) :
    (Machine.run (watchStep E) (watchInit E w) es).st = BoeSession.run E w es :=
  run_view (watchStep_st E) (watchInit E w) es

/-! ## What is to hold -/

/-- Nothing remains of a dead order, active or moved to the finished ones. -/
abbrev AtRest (dead : List (Key × Option BoeOrder)) (s : BoeSession W) : Prop :=
  Session.AtRest (fun o : BoeOrder => o.remainingQty ≤ 0) dead s

/-- No message about a dead order, and nothing remains of any. -/
abbrev StayDead (a : Watched (BoeSession W)) : Prop :=
  Session.StayDead (fun o : BoeOrder => o.remainingQty ≤ 0) a

/-- `execution_logic` fills the order that it finds under the key. -/
def FillsOrder (st : Pass W) (k : Key) (o : BoeOrder) : Prop :=
  st.1.activeOrders.lookup k = some o ∧ (E.gate .execution st.1.env).1 = true ∧
    o.stillActive = true ∧ (E.executionQty (E.gate .execution st.1.env).2).1 ≠ 0

/-- A cancel of a dead order that has been moved away does not make an entry with something remaining.
On a tick no modification finds a dead order active, and neither a tick nor `cancel_all` reports an
entry that the memory has given the token of a dead order. -/
def LeavesDead (a : Watched (BoeSession W)) : Event → Prop
  | .packet p => ∀ co, request p = some (.cancel co) → co.origToken.str ∈ a.names →
      (entry E.boeOrder a.st co.origToken.str).remainingQty ≤ 0
  | .marketLogic =>
    let b := watchCancel E (a.goOn (heartbeatLogic E a.st))
    let c := watchModify E b
    let v := executionStart E c.st
    Along (watchModifyStep E) (fun b mo => mo.origToken.str ∈ b.names →
        mo.origToken.str ∉ b.st.1.activeOrders) (b.goOn (b.st, [])) b.st.pendingModify ∧
      Along (watch (executionStep E) Prod.fst) (fun b k => ∀ o, FillsOrder E b.st k o →
        o.token.str ∉ b.names) (c.goOn (v.1, [])) v.2
  | .cancelAll =>
    let v := executionStart E a.st
    Along (watch (cancelAllStep E) Prod.fst) (fun b k => ∀ o, b.st.1.activeOrders.lookup k = some o →
      o.stillActive = true → o.token.str ∉ b.names) (a.goOn (v.1, 0)) v.2
  | .disconnect => True

/-! ## One step -/

/-- A message without a sequence number is about no order. -/
theorem about_of_not_sequenced {m : Boe.OutMsg} (h : isSequenced m = false) : about m = none := by
  cases m <;> first | rfl | cases h

/-- An order that dies by a message has nothing left, and what is noted is what was finished under its
token. -/
theorem diedBy_eq_some {s s' : BoeSession W} {m : Boe.OutMsg} {q : Key × Option BoeOrder}
    (h : diedBy s s' m = some q) :
    (∀ o, s'.activeOrders.lookup q.1 = some o → o.remainingQty = 0) ∧
      s'.finishedOrders.lookup q.1 = q.2 := by
  unfold diedBy at h
  split at h
  · split at h
    · rename_i o o' ho ho'
      split at h
      · rename_i hzero
        cases h
        refine ⟨fun o'' ho'' => ?_, rfl⟩
        cases ho'.symm.trans ho''
        exact hzero.2
      · cases h
    · cases h
  · cases h

variable {f : σ → ε → σ} {g : σ → BoeSession W}

/-- The dead stay at rest if the step leaves alone those whose tokens it does not give away. -/
theorem AtRest.next {b : Watched σ} {e : ε}
    (hactive : ∀ q ∈ b.retired, (reading f g).given b.st e ≠ some q.1 →
      ∀ o, (g (f b.st e)).activeOrders.lookup q.1 = some o → o.remainingQty ≤ 0)
    (hfinished : ∀ q ∈ b.retired, ∀ o, (g (f b.st e)).finishedOrders.lookup q.1 = some o →
      o.remainingQty ≤ 0 ∨ q.2 = some o) :
    AtRest (watch f g b e).retired (g (watch f g b e).st) := by
  refine Session.AtRest.next (fun q hq => ?_) hactive fun q hq _ => hfinished q hq
  obtain ⟨m, -, hm⟩ := List.exists_of_findSome?_eq_some hq
  exact ⟨fun o ho => ((diedBy_eq_some hm).1 o ho).le, (diedBy_eq_some hm).2⟩

/-- A step that touches no order. -/
theorem AtRest.of_eq {b : Watched σ} {e : ε} (h : AtRest b.retired (g b.st))
    (hactive : (g (f b.st e)).activeOrders = (g b.st).activeOrders)
    (hfinished : (g (f b.st e)).finishedOrders = (g b.st).finishedOrders) :
    AtRest (watch f g b e).retired (g (watch f g b e).st) := by
  refine AtRest.next (fun q hq _ => ?_) fun q hq => ?_
  · rw [hactive]
    exact h.active q hq
  · rw [hfinished]
    exact h.finished q hq

/-! ## The loops -/

/-- A step of a watched loop mentions one of the dead. -/
abbrev MentionsDead (f : σ → ε → σ) (g : σ → BoeSession W) (b : Watched σ) (e : ε) : Prop :=
  Watch.Mentions f (fun st => (g st).pendingOutMessages) (reading f g) b e

/-- A cancel is silent about the dead exactly if it cancels none of them. -/
theorem mentionsDead_cancelStep (b : Watched (Pass W)) (co : BoeCancelOrderReq) :
    ¬ MentionsDead (cancelStep E) Prod.fst b co ↔
      (co.token.str ∈ b.names → ¬ Cancels E b.st co) := by
  rcases cancelStep_cases E b.st co with ⟨hnot, w, m, hs⟩ | ⟨hcancels, w, m, hm, hs⟩
  · have hadded : added b.st.1.pendingOutMessages (cancelStep E b.st co).1.pendingOutMessages =
        [.cancelRejected m] := by
      rw [hs]
      exact added_append _ _
    refine iff_of_true (Watch.not_mentions_of_about_none ?_) fun _ => hnot
    rw [hadded]
    exact List.forall_mem_singleton.mpr rfl
  · have hadded : added b.st.1.pendingOutMessages (cancelStep E b.st co).1.pendingOutMessages =
        [.orderCanceled m] := by
      rw [hs]
      exact added_append _ _
    rw [MentionsDead, Watch.mentions_of_added_singleton hadded (i := co.token.str) (by
      rw [← hm]
      rfl)]
    exact ⟨fun hnot hdead => absurd hdead hnot, fun hnot hdead => hnot hdead hcancels⟩

/-- A cancel gives no shares to a dead order. -/
theorem atRest_cancelStep {b : Watched (Pass W)} (h : AtRest b.retired b.st.1)
    (co : BoeCancelOrderReq) :
    AtRest (watch (cancelStep E) Prod.fst b co).retired
      (watch (cancelStep E) Prod.fst b co).st.1 := by
  rcases cancelStep_cases E b.st co with ⟨-, w, m, hs⟩ | ⟨-, w, m, -, hs⟩
  · exact AtRest.of_eq (g := Prod.fst) h (by rw [hs]; rfl) (by rw [hs]; rfl)
  · exact AtRest.of_eq (g := Prod.fst) h (by rw [hs]; rfl) (by rw [hs]; rfl)

/-- A step that retires nothing. -/
theorem names_watch {b : Watched σ} {e : ε} (h : (reading f g).retired b.st e = none) :
    ∀ k ∈ (watch f g b e).names, k ∈ b.names := by
  intro k hk
  obtain ⟨q, hq, rfl⟩ := List.mem_map.mp hk
  rcases Watch.mem_retired_step.mp hq with ⟨hold, -⟩ | hdied
  · exact Watch.mem_names_of_mem hold
  · cases h.symm.trans hdied

/-- A cancel adds no name to those of the dead. -/
theorem names_cancelStep (b : Watched (Pass W)) (co : BoeCancelOrderReq) :
    ∀ k ∈ (watch (cancelStep E) Prod.fst b co).names, k ∈ b.names := by
  apply names_watch
  show (newMessages (cancelStep E) Prod.fst b.st co).findSome? _ = none
  unfold newMessages
  rcases cancelStep_cases E b.st co with ⟨-, w, m, hs⟩ | ⟨-, w, m, -, hs⟩
  · rw [hs, emit_out, added_append]
    rfl
  · rw [hs, emit_out, added_append]
    rfl

/-- Every modification that finds an order is answered. -/
theorem mentionsDead_modifyStep (b : Watched (Pass W)) (mo : BoeModifyOrderReq) :
    ¬ Watch.Mentions (modifyStep E) (fun st => st.1.pendingOutMessages) modifyReading b mo ↔
      (mo.origToken.str ∈ b.names → mo.origToken.str ∉ b.st.1.activeOrders) := by
  rcases modifyStep_cases E b.st mo with ⟨hgone, hs⟩ | ⟨o, ho, w, A, bo, m, -, -, -, hs⟩
  · refine iff_of_true (Watch.not_mentions_of_added_nil ?_) fun _ => hgone
    rw [hs]
    exact added_self _
  · have hadded : added b.st.1.pendingOutMessages (modifyStep E b.st mo).1.pendingOutMessages =
        [.orderModified m] := by
      rw [hs]
      exact added_append _ _
    rw [Watch.mentions_of_added_singleton hadded (i := mo.origToken.str) rfl]
    have hact := KeyedMap.mem_of_lookup ho
    exact ⟨fun hnot hdead => absurd hdead hnot, fun hnot hdead => hnot hdead hact⟩

/-- A modification that names no active dead order gives them no shares. -/
theorem atRest_modifyStep {b : Watched (Pass W)} (h : AtRest b.retired b.st.1)
    {mo : BoeModifyOrderReq}
    (hmo : mo.origToken.str ∈ b.names → mo.origToken.str ∉ b.st.1.activeOrders) :
    AtRest (watchModifyStep E b mo).retired (watchModifyStep E b mo).st.1 := by
  -- a modification kills no order, and the order that has its new token is not named again
  have hold : ∀ q ∈ (watchModifyStep E b mo).retired,
      q ∈ b.retired ∧ modifyReading.given b.st mo ≠ some q.1 := by
    intro q hq
    exact (Watch.mem_retired_step.mp hq).resolve_right fun hdied => nomatch hdied
  rcases modifyStep_cases E b.st mo with ⟨-, hs⟩ | ⟨o, ho, w, A, bo, m, -, -, hA, hs⟩
  · -- the request finds no order
    constructor
    · intro q hq
      show ∀ o, (modifyStep E b.st mo).1.activeOrders.lookup q.1 = some o → _
      rw [hs]
      exact h.active q (hold q hq).1
    · intro q hq
      show ∀ o, (modifyStep E b.st mo).1.finishedOrders.lookup q.1 = some o → _
      rw [hs]
      exact h.finished q (hold q hq).1
  have hact := KeyedMap.mem_of_lookup ho
  constructor
  · -- a dead order is neither the one found nor under the new token
    intro q hq
    obtain ⟨hq, hkept⟩ := hold q hq
    have hnew : q.1 ≠ mo.token.str := by
      intro hqk
      apply hkept
      show (if mo.origToken.str ∈ b.st.1.activeOrders then some mo.token.str else none) = _
      rw [if_pos hact, hqk]
    have hother : q.1 ≠ mo.origToken.str := by
      intro hqk
      exact hmo (hqk ▸ Watch.mem_names_of_mem hq) hact
    show ∀ o, (modifyStep E b.st mo).1.activeOrders.lookup q.1 = some o → _
    rw [hs]
    show ∀ o, A.lookup q.1 = some o → _
    rw [hA, if_neg hnew, if_neg hother]
    exact h.active q hq
  · intro q hq
    show ∀ o, (modifyStep E b.st mo).1.finishedOrders.lookup q.1 = some o → _
    rw [hs]
    exact h.finished q (hold q hq).1

/-- A visit reports an execution exactly when it fills the order. -/
theorem executionStep_out (st : Pass W) (k : Key) :
    (∃ o m, FillsOrder E st k o ∧ m.token = o.token ∧
      (executionStep E st k).1.pendingOutMessages =
        st.1.pendingOutMessages ++ [.orderExecution m]) ∨
    (¬ ∃ o, FillsOrder E st k o) ∧
      (executionStep E st k).1.pendingOutMessages = st.1.pendingOutMessages := by
  unfold executionStep
  rcases hlook : st.1.activeOrders.lookup k with _ | o
  · -- there is no order to visit
    right
    refine ⟨?_, rfl⟩
    rintro ⟨o, ho, -⟩
    cases hlook.symm.trans ho
  dsimp only
  rcases hgate : (E.gate .execution st.1.env).1 with _ | _
  · -- the gate is closed
    right
    refine ⟨?_, rfl⟩
    rintro ⟨o', -, hopen, -⟩
    exact Bool.false_ne_true (hgate.symm.trans hopen)
  simp only [Bool.not_true, Bool.false_eq_true, if_false]
  rcases hactive : o.stillActive with _ | _
  · -- the order is not active any more
    right
    refine ⟨?_, rfl⟩
    rintro ⟨o', ho', -, hactive', -⟩
    cases hlook.symm.trans ho'
    exact Bool.false_ne_true (hactive.symm.trans hactive')
  rw [if_pos rfl]
  by_cases hnone : (E.executionQty (E.gate .execution st.1.env).2).1 = 0
  · -- the quantity asked for is zero, which fills nothing
    right
    refine ⟨?_, ?_⟩
    · rintro ⟨o', -, -, -, hsome⟩
      exact hsome hnone
    · unfold constructOrderExecuted
      rw [if_pos hnone]
  · left
    unfold constructOrderExecuted
    rw [if_neg hnone]
    exact ⟨o, _, ⟨hlook, hgate, hactive, hnone⟩, rfl, rfl⟩

/-- A visit is silent about the dead exactly if it fills no entry under the token of one. -/
theorem mentionsDead_executionStep (b : Watched (Pass W)) (k : Key) :
    ¬ MentionsDead (executionStep E) Prod.fst b k ↔
      ∀ o, FillsOrder E b.st k o → o.token.str ∉ b.names := by
  rcases executionStep_out E b.st k with ⟨o, m, hfills, hm, hout⟩ | ⟨hnone, hout⟩
  · have hadded : added b.st.1.pendingOutMessages (executionStep E b.st k).1.pendingOutMessages =
        [.orderExecution m] := by
      rw [hout]
      exact added_append _ _
    rw [MentionsDead, Watch.mentions_of_added_singleton hadded (i := o.token.str) (by
      rw [← hm]
      rfl)]
    constructor
    · intro hnot o' ho'
      cases hfills.1.symm.trans ho'.1
      exact hnot
    · exact fun hall => hall o hfills
  · refine iff_of_true (Watch.not_mentions_of_added_nil ?_) fun o ho => absurd ⟨o, ho⟩ hnone
    rw [hout]
    exact added_self _

/-- An execution pass fills no dead order, and what it moves to the finished orders it leaves as it
is. -/
theorem atRest_executionStep {b : Watched (Pass W)} (h : AtRest b.retired b.st.1) (k : Key) :
    AtRest (watch (executionStep E) Prod.fst b k).retired
      (watch (executionStep E) Prod.fst b k).st.1 := by
  rcases executionStep_cases E b.st k with ⟨-, hs⟩ | ⟨o, ho, w, ⟨-, hs⟩ | ⟨-, hactive, hs |
    ⟨exe, m, h0, hle, -, -, -, hs⟩⟩ | ⟨-, -, hs⟩⟩
  · exact AtRest.of_eq (g := Prod.fst) h (by rw [hs]) (by rw [hs])
  · exact AtRest.of_eq (g := Prod.fst) h (by rw [hs]; rfl) (by rw [hs]; rfl)
  · exact AtRest.of_eq (g := Prod.fst) h (by rw [hs]; rfl) (by rw [hs]; rfl)
  · refine AtRest.next (g := Prod.fst) (fun q hq _ => ?_) fun q hq => ?_ <;> rw [hs]
    · intro x hx
      change (b.st.1.activeOrders.insert k _).lookup q.1 = some x at hx
      rw [KeyedMap.lookup_insert] at hx
      split at hx
      · rename_i hqk
        have hleft := h.active q hq o (hqk ▸ ho)
        omega
      · exact h.active q hq x hx
    · exact h.finished q hq
  · refine AtRest.next (g := Prod.fst) (fun q hq _ => ?_) fun q hq => ?_ <;> rw [hs]
    · exact h.active q hq
    · intro x hx
      change (b.st.1.finishedOrders.insert k o).lookup q.1 = some x at hx
      rw [KeyedMap.lookup_insert] at hx
      split at hx
      · rename_i hqk
        cases hx
        exact .inl (h.active q hq o (hqk ▸ ho))
      · exact h.finished q hq x hx

/-- A step of `cancel_all` is silent about the dead exactly if it reports no entry under the token of
one. -/
theorem mentionsDead_cancelAllStep (b : Watched (BoeSession W × ℕ)) (k : Key) :
    ¬ MentionsDead (cancelAllStep E) Prod.fst b k ↔
      ∀ o, b.st.1.activeOrders.lookup k = some o → o.stillActive = true →
        o.token.str ∉ b.names := by
  rcases cancelAllStep_cases E b.st k with ⟨hnone, hs⟩ | ⟨o, ho, hactive, w, m, hm, hs⟩
  · refine iff_of_true (Watch.not_mentions_of_added_nil ?_) fun o ho hactive => ?_
    · rw [hs]
      exact added_self _
    · exact absurd ((hnone o ho).symm.trans hactive) Bool.false_ne_true
  · have hadded : added b.st.1.pendingOutMessages (cancelAllStep E b.st k).1.pendingOutMessages =
        [.orderCanceled m] := by
      rw [hs]
      exact added_append _ _
    rw [MentionsDead, Watch.mentions_of_added_singleton hadded (i := o.token.str) (by
      rw [← hm]
      rfl)]
    constructor
    · intro hnot o' ho' _
      cases ho.symm.trans ho'
      exact hnot
    · exact fun hall => hall o ho hactive

/-- A step of `cancel_all` gives no shares to a dead order. -/
theorem atRest_cancelAllStep {b : Watched (BoeSession W × ℕ)} (h : AtRest b.retired b.st.1)
    (k : Key) :
    AtRest (watch (cancelAllStep E) Prod.fst b k).retired
      (watch (cancelAllStep E) Prod.fst b k).st.1 := by
  rcases cancelAllStep_cases E b.st k with ⟨-, hs⟩ | ⟨o, -, -, w, m, -, hs⟩
  · exact AtRest.of_eq (g := Prod.fst) h (by rw [hs]) (by rw [hs])
  · exact AtRest.of_eq (g := Prod.fst) h (by rw [hs]; rfl) (by rw [hs]; rfl)

/-- A step of `cancel_all` adds no name to those of the dead. -/
theorem names_cancelAllStep (b : Watched (BoeSession W × ℕ)) (k : Key) :
    ∀ k' ∈ (watch (cancelAllStep E) Prod.fst b k).names, k' ∈ b.names := by
  apply names_watch
  show (newMessages (cancelAllStep E) Prod.fst b.st k).findSome? _ = none
  unfold newMessages
  rcases cancelAllStep_cases E b.st k with ⟨-, hs⟩ | ⟨o, -, -, w, m, -, hs⟩
  · rw [hs, added_self]
    rfl
  · rw [hs, emit_out, added_append]
    rfl

/-! ## Events -/

/-- Between events the dead are at rest, and no pending cancel names one. -/
structure Peace (a : Watched (BoeSession W)) : Prop where
  atRest : AtRest a.retired a.st
  queue : ∀ co ∈ a.st.pendingCancel, co.token.str ∉ a.names

/-- Behind `cancel_logic` no cancel is pending. -/
structure Quiet (a : Watched (BoeSession W)) : Prop where
  atRest : AtRest a.retired a.st
  queue : a.st.pendingCancel = []

/-- What is quiet is at peace. -/
theorem Quiet.peace {a : Watched (BoeSession W)} (h : Quiet a) : Peace a :=
  ⟨h.atRest, h.queue ▸ List.forall_mem_nil _⟩

/-- A new session has no dead orders. -/
theorem peace_init (w : W) : Peace (watchInit E w) :=
  ⟨⟨List.forall_mem_nil _, List.forall_mem_nil _⟩, List.forall_mem_nil _⟩

/-- A cancel pass is silent about the dead. -/
theorem exact_watchCancel (a : Watched (BoeSession W)) :
    Watch.Exact Peace Quiet a (watchCancel E a) True := by
  have hloop := Watch.Exact.run (I := fun b : Watched (Pass W) => AtRest b.retired b.st.1)
    (fun b co _ => mentionsDead_cancelStep E b co) (fun b co h _ => atRest_cancelStep E h co)
    (a.goOn (a.st, [])) a.st.pendingCancel
  refine ((hloop.pre Peace.atRest).congr fun ha => iff_of_true ?_ trivial).post fun _ hb => ⟨?_, rfl⟩
  · -- the names of the dead do not change, and no request names one
    refine along_of_invariant (Q := (· ∈ a.st.pendingCancel))
      (I := fun b => ∀ co ∈ a.st.pendingCancel, co.token.str ∉ b.names)
      (fun b co h co' hco' hdead => h co' hco' (names_cancelStep E b co _ hdead))
      (fun b co h hco hdead => absurd hdead (h co hco)) ha.queue fun _ hco => hco
  · exact AtRest.finishPass ⟨hb.active, hb.finished⟩

/-- A modify pass is silent about the dead exactly when it names no active one. -/
theorem exact_watchModify (a : Watched (BoeSession W)) :
    Watch.Exact Quiet Quiet a (watchModify E a)
      (Along (watchModifyStep E) (fun b mo => mo.origToken.str ∈ b.names →
        mo.origToken.str ∉ b.st.1.activeOrders) (a.goOn (a.st, [])) a.st.pendingModify) := by
  have hloop := Watch.Exact.run (I := fun b : Watched (Pass W) => AtRest b.retired b.st.1)
    (fun b mo _ => mentionsDead_modifyStep E b mo) (fun b mo h hmo => atRest_modifyStep E h hmo)
    (a.goOn (a.st, [])) a.st.pendingModify
  refine (hloop.pre Quiet.atRest).post fun ha hb => ⟨hb.finishPass, ?_⟩
  show (watchModify E a).st.pendingCancel = []
  rw [watchModify_st, (sameQueues_modifyLogic E a.st).pendingCancel]
  exact ha.queue

/-- An execution pass is silent about the dead exactly when it fills no entry under the token of one. -/
theorem exact_watchExecution (a : Watched (BoeSession W)) :
    Watch.Exact Quiet Quiet a (watchExecution E a)
      (Along (watch (executionStep E) Prod.fst) (fun b k => ∀ o, FillsOrder E b.st k o →
        o.token.str ∉ b.names) (a.goOn ((executionStart E a.st).1, [])) (executionStart E a.st).2) := by
  have hloop := Watch.Exact.run (I := fun b : Watched (Pass W) => AtRest b.retired b.st.1)
    (fun b k _ => mentionsDead_executionStep E b k) (fun b k h _ => atRest_executionStep E h k)
    (a.goOn ((executionStart E a.st).1, [])) (executionStart E a.st).2
  refine (hloop.pre fun ha => ?_).post fun ha hb => ⟨hb.finishPass, ?_⟩
  · exact ⟨ha.atRest.active, ha.atRest.finished⟩
  · show (watchExecution E a).st.pendingCancel = []
    rw [watchExecution_st, (sameQueues_executionLogic E a.st).pendingCancel]
    exact ha.queue

/-- `cancel_all` is silent about the dead exactly when it reports no entry under the token of one. -/
theorem exact_watchCancelAll (a : Watched (BoeSession W)) :
    Watch.Exact Peace Peace a (watchCancelAll E a) (LeavesDead E a .cancelAll) := by
  have hloop := Watch.Exact.run
    (I := fun b : Watched (BoeSession W × ℕ) => AtRest b.retired b.st.1 ∧
      ∀ k ∈ b.names, k ∈ a.names)
    (fun b k _ => mentionsDead_cancelAllStep E b k)
    (fun b k h _ => ⟨atRest_cancelAllStep E h.1 k, fun k' hk' =>
      h.2 k' (names_cancelAllStep E b k k' hk')⟩)
    (a.goOn ((executionStart E a.st).1, 0)) (executionStart E a.st).2
  refine (hloop.pre fun ha => ?_).post fun ha hb => ⟨⟨fun q _ o ho => ?_, hb.1.finished⟩, ?_⟩
  · exact ⟨⟨ha.atRest.active, ha.atRest.finished⟩, fun _ hk => hk⟩
  · cases (AList.lookup_empty q.1).symm.trans ho
  · intro co hco hdead
    change co ∈ (watchStep E a .cancelAll).st.pendingCancel at hco
    rw [watchStep_st, show (step E a.st .cancelAll).pendingCancel = a.st.pendingCancel from
      (sameQueues_cancelAll E a.st).pendingCancel] at hco
    exact ha.queue co hco (hb.2 _ hdead)

/-- A packet whose messages are about no order: it keeps the peace if it keeps the dead at rest. -/
theorem peace_packet {a : Watched (BoeSession W)} (hlate : a.late = []) {p : Mem}
    (hms : ∀ m ∈ newMessages (step E) id a.st (.packet p), about m = none)
    (hrest : AtRest (watch (step E) id a (.packet p)).retired (step E a.st (.packet p)))
    (hqueue : ∀ co ∈ (step E a.st (.packet p)).pendingCancel, co.token.str ∉ a.names) :
    (watch (step E) id a (.packet p)).late = [] ∧ Peace (watch (step E) id a (.packet p)) := by
  have hnone : (reading (step E) id).retired a.st (.packet p) = none := by
    show (newMessages (step E) id a.st (.packet p)).findSome? _ = none
    rw [List.findSome?_eq_none_iff]
    intro m hm
    have hquiet := hms m hm
    cases m <;> first | rfl | cases hquiet
  refine ⟨Watch.late_step_eq_nil.mpr ⟨hlate, Watch.not_mentions_of_about_none hms⟩, hrest, ?_⟩
  intro co hco hdead
  exact hqueue co hco (names_watch hnone _ hdead)

/-- What a packet that asks for no cancel does to the book, the queue and the messages. -/
theorem packet_cases (s : BoeSession W) {p : Mem} (hp : ∀ co, request p ≠ some (.cancel co)) :
    ∃ ms, (step E s (.packet p)).pendingOutMessages = s.pendingOutMessages ++ ms ∧
      (∀ m ∈ ms, about m = none) ∧
      (step E s (.packet p)).finishedOrders = s.finishedOrders ∧
      (step E s (.packet p)).pendingCancel = s.pendingCancel ∧
      ∀ k, ms.findSome? acked ≠ some k →
        (step E s (.packet p)).activeOrders.lookup k = s.activeOrders.lookup k := by
  have hidle : ∀ {s'}, Idle s s' → ∃ ms, s'.pendingOutMessages = s.pendingOutMessages ++ ms ∧
      (∀ m ∈ ms, about m = none) ∧ s'.finishedOrders = s.finishedOrders ∧
      s'.pendingCancel = s.pendingCancel ∧ ∀ k, ms.findSome? acked ≠ some k →
        s'.activeOrders.lookup k = s.activeOrders.lookup k := by
    intro s' h
    obtain ⟨ms, hout, hms⟩ := h.out
    exact ⟨ms, hout, fun m hm => about_of_not_sequenced (hms m hm), h.finishedOrders,
      h.pendingCancel, fun k _ => by rw [h.activeOrders]⟩
  rcases step_packet E s p with ⟨-, hs⟩ | ⟨r, hr, hs⟩
  · rw [hs]
    exact hidle (Idle.refl s)
  rw [hs]
  rcases handle_cases E s r with ⟨h, -⟩ | ⟨no, w, d, m, -, -, hm, -, -, hh⟩ | ⟨mo, w, -, -, -, hh⟩ |
    ⟨co, o, rfl, -⟩ | ⟨co, rfl, -⟩
  · exact hidle h
  · -- a new order changes nothing but the entry that its acknowledgement names
    rw [hh]
    refine ⟨[.orderAck m], rfl, List.forall_mem_singleton.mpr rfl, rfl, rfl, fun k hk => ?_⟩
    show (s.activeOrders.insert no.token.str _).lookup k = _
    rw [KeyedMap.lookup_insert, if_neg ?_]
    rintro rfl
    apply hk
    rw [← hm]
    rfl
  · -- a modification is queued
    rw [hh]
    exact ⟨[], (List.append_nil _).symm, List.forall_mem_nil _, rfl, rfl, fun _ _ => rfl⟩
  · exact absurd hr (hp co)
  · exact absurd hr (hp co)

/-- A cancel revives a dead order exactly when the entry that it makes has something remaining. -/
theorem stayDead_cancel {a : Watched (BoeSession W)} (ha : Peace a) (hlate : a.late = []) {p : Mem}
    {co : CancelOrder} (hp : request p = some (.cancel co)) :
    (StayDead (watch (step E) id a (.packet p)) ↔ (co.origToken.str ∈ a.names →
        (entry E.boeOrder a.st co.origToken.str).remainingQty ≤ 0)) ∧
      ((co.origToken.str ∈ a.names → (entry E.boeOrder a.st co.origToken.str).remainingQty ≤ 0) →
        (watch (step E) id a (.packet p)).late = [] ∧ Peace (watch (step E) id a (.packet p))) := by
  have hs : step E a.st (.packet p) = cancelOrder E a.st co := by
    rcases step_packet E a.st p with ⟨hnone, -⟩ | ⟨r, hr, hs⟩
    · cases hp.symm.trans hnone
    · cases hp.symm.trans hr
      exact hs
  rcases cancelOrder_cases E a.st co with ⟨⟨o, ho, hpos⟩, hh⟩ | ⟨-, hrest⟩
  · -- the order is active with something remaining, so it is not dead
    have hlive : co.origToken.str ∉ a.names := by
      intro hdead
      obtain ⟨q, hq, hqk⟩ := List.mem_map.mp hdead
      have hleft := ha.atRest.active q hq o (hqk ▸ ho)
      omega
    rw [hh] at hs
    have hpeace := peace_packet E hlate (p := p) (by
      intro m hm
      unfold newMessages at hm
      rw [id, id, hs, added_self] at hm
      exact absurd hm List.not_mem_nil)
      (AtRest.of_eq (g := id) ha.atRest (by rw [id, id, hs]) (by rw [id, id, hs])) (by
        rw [hs]
        intro co' hco'
        rcases List.mem_append.mp hco' with hold | hnew
        · exact ha.queue co' hold
        · rw [List.mem_singleton.mp hnew]
          exact hlive)
    exact ⟨iff_of_true ⟨hpeace.1, hpeace.2.atRest⟩ fun hdead => absurd hdead hlive, fun _ => hpeace⟩
  -- the subscript finds or makes an entry
  obtain ⟨ms, hout, hms, hack, hfin, hqueue, hact⟩ : ∃ ms,
      (step E a.st (.packet p)).pendingOutMessages = a.st.pendingOutMessages ++ ms ∧
      (∀ m ∈ ms, about m = none) ∧ ms.findSome? acked = none ∧
      (step E a.st (.packet p)).finishedOrders = a.st.finishedOrders ∧
      (step E a.st (.packet p)).pendingCancel = a.st.pendingCancel ∧
      (step E a.st (.packet p)).activeOrders = KeyedMap.touch co.origToken.str
        (entry E.boeOrder a.st co.origToken.str) a.st.activeOrders := by
    rw [hs]
    obtain ⟨w, ⟨-, hh⟩ | ⟨-, m, hh⟩⟩ := hrest
    · rw [hh]
      exact ⟨[], (List.append_nil _).symm, List.forall_mem_nil _, rfl, rfl, rfl, rfl⟩
    · rw [hh]
      exact ⟨[.cancelRejected m], rfl, List.forall_mem_singleton.mpr rfl, rfl, rfl, rfl, rfl⟩
  have hnew : newMessages (step E) id a.st (.packet p) = ms := by
    unfold newMessages
    rw [id, id, hout, added_append]
  have hkept : ∀ q ∈ a.retired, q ∈ (watch (step E) id a (.packet p)).retired := by
    intro q hq
    refine Watch.mem_retired_step.mpr (.inl ⟨hq, ?_⟩)
    show (newMessages (step E) id a.st (.packet p)).findSome? acked ≠ _
    rw [hnew, hack]
    exact Option.some_ne_none _ ∘ Eq.symm
  have hstay : (co.origToken.str ∈ a.names → (entry E.boeOrder a.st co.origToken.str).remainingQty ≤ 0) →
      (watch (step E) id a (.packet p)).late = [] ∧ Peace (watch (step E) id a (.packet p)) := by
    intro hC
    refine peace_packet E hlate (hnew ▸ hms) ?_ (hqueue ▸ ha.queue)
    refine AtRest.next (g := id) (fun q hq _ x hx => ?_) fun q hq x hx => ?_
    · rw [id, hact] at hx
      by_cases hqk : q.1 = co.origToken.str
      · rw [hqk, lookup_touch_self] at hx
        cases hx
        exact hC (hqk ▸ Watch.mem_names_of_mem hq)
      · rw [KeyedMap.lookup_touch _ _ (.inr hqk)] at hx
        exact ha.atRest.active q hq x hx
    · rw [id, hfin] at hx
      exact ha.atRest.finished q hq x hx
  refine ⟨⟨fun hdead hname => ?_, fun hC => ?_⟩, hstay⟩
  · obtain ⟨q, hq, hqk⟩ := List.mem_map.mp hname
    refine hdead.2.active q (hkept q hq) _ ?_
    show (step E a.st (.packet p)).activeOrders.lookup q.1 = _
    rw [hact, hqk, lookup_touch_self]
  · have hpeace := hstay hC
    exact ⟨hpeace.1, hpeace.2.atRest⟩

/-- An event leaves the dead alone exactly when its steps do. -/
theorem stayDead_step {a : Watched (BoeSession W)} (ha : Peace a) (hlate : a.late = [])
    (e : Event) :
    (StayDead (watchStep E a e) ↔ LeavesDead E a e) ∧
      (LeavesDead E a e → (watchStep E a e).late = [] ∧ Peace (watchStep E a e)) := by
  -- the form in which the passes state what they do to dead orders
  have hexact : ∀ {b : Watched (BoeSession W)} {C : Prop}, Watch.Exact Peace Peace a b C →
      (StayDead b ↔ C) ∧ (C → b.late = [] ∧ Peace b) := by
    intro b C h
    have hnext : C → b.late = [] ∧ Peace b :=
      fun hC => ⟨(h.iff ha hlate).mpr hC, h.next ha hlate hC⟩
    exact ⟨⟨fun hdead => (h.iff ha hlate).mp hdead.1,
      fun hC => ⟨(hnext hC).1, (hnext hC).2.atRest⟩⟩, hnext⟩
  cases e with
  | packet p =>
    by_cases hcancel : ∃ co, request p = some (.cancel co)
    · obtain ⟨co, hp⟩ := hcancel
      have hC : LeavesDead E a (.packet p) ↔ (co.origToken.str ∈ a.names →
          (entry E.boeOrder a.st co.origToken.str).remainingQty ≤ 0) := by
        constructor
        · exact fun h => h co hp
        · intro h co' hp'
          cases hp.symm.trans hp'
          exact h
      rw [hC]
      exact stayDead_cancel E ha hlate hp
    · -- any other request leaves the dead orders at rest
      have hp : ∀ co, request p ≠ some (.cancel co) := fun co h => hcancel ⟨co, h⟩
      obtain ⟨ms, hout, hms, hfin, hqueue, hact⟩ := packet_cases E a.st hp
      have hnew : newMessages (step E) id a.st (.packet p) = ms := by
        unfold newMessages
        rw [id, id, hout, added_append]
      have hpeace := peace_packet E hlate (hnew ▸ hms) (AtRest.next (g := id)
        (fun q hq hkept x hx => by
          change (newMessages (step E) id a.st (.packet p)).findSome? acked ≠ _ at hkept
          rw [hnew] at hkept
          rw [id, hact q.1 hkept] at hx
          exact ha.atRest.active q hq x hx)
        (fun q hq x hx => by
          rw [id, hfin] at hx
          exact ha.atRest.finished q hq x hx)) (hqueue ▸ ha.queue)
      exact ⟨iff_of_true ⟨hpeace.1, hpeace.2.atRest⟩ fun co h => absurd h (hp co), fun _ => hpeace⟩
  | marketLogic =>
    have hbeat := idle_heartbeatLogic E a.st
    have hstart : Peace a → Peace (a.goOn (heartbeatLogic E a.st)) := by
      intro ha
      refine ⟨⟨?_, ?_⟩, ?_⟩
      · rw [Watch.goOn_st, hbeat.activeOrders]
        exact ha.atRest.active
      · rw [Watch.goOn_st, hbeat.finishedOrders]
        exact ha.atRest.finished
      · rw [Watch.goOn_st, hbeat.pendingCancel]
        exact ha.queue
    have hcancel := (exact_watchCancel E (a.goOn (heartbeatLogic E a.st))).pre hstart
    have hmodify := hcancel.trans (exact_watchModify E _)
    have hexecute := (hmodify.trans (exact_watchExecution E _)).mono Quiet.peace
    -- the cancel pass is no condition: no cancel of a dead order is queued
    refine hexact (hexecute.congr fun _ => ?_)
    rw [true_and]
    exact Iff.rfl
  | cancelAll => exact hexact (exact_watchCancelAll E a)
  | disconnect =>
    refine hexact (Watch.Exact.single (fun _ => iff_of_true
      (Watch.not_mentions_of_added_nil (added_self _)) trivial) fun ha _ => ⟨?_, ?_⟩)
    · exact AtRest.of_eq (g := id) ha.atRest rfl rfl
    · exact fun co hco hdead => ha.queue co hco (names_watch (f := step E) (g := id)
        (e := .disconnect) (by
          show (added a.st.pendingOutMessages a.st.pendingOutMessages).findSome? _ = none
          rw [added_self]
          rfl) _ hdead)

/-! ## Runs -/

/-- A dead order stays dead throughout a run exactly when every event leaves the dead alone. -/
theorem stayDead_iff (w : W) (es : List Event) :
    Throughout (watchStep E) StayDead (watchInit E w) es ↔
      Along (watchStep E) (LeavesDead E) (watchInit E w) es :=
  throughout_iff_of_step (I := fun a => a.late = [] ∧ Peace a) (fun _ h => ⟨h.1, h.2.atRest⟩)
    (fun _ e h => (stayDead_step E h.2 h.1 e).1) (fun _ e h => (stayDead_step E h.2 h.1 e).2)
    ⟨rfl, peace_init E w⟩

end BoeSession

end Evtsim
