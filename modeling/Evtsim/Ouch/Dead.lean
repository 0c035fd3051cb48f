import Evtsim.Ouch.Tokens
import Evtsim.Passes

/-!
# Dead orders of an `ouch_session`

An order whose last share is executed stays in `active_orders` until the next execution pass that may
look at it, and its token stays known. The watch follows every loop of a tick: an order dies when an
`Executed` leaves nothing of it, and a message about a dead order is late. `stayDead_iff` says which
events keep dead orders dead.
-/

namespace Evtsim

open Wire Ouch Machine Log Session

namespace OuchSession

variable {W : Type} (E : Env W)

/-! ## The watch -/

/-- The watch over a machine that holds a session. -/
abbrev Watched (σ : Type) := Session.Watched OuchOrder Ouch.OutMsg σ

/-- The order that a report is about. -/
def about : Ouch.OutMsg → Option Key
  | .orderCanceled m => some m.token.str
  | .orderModified m => some m.token.str
  | .orderReplaced m => some m.origToken.str
  | .executed m => some m.token.str
  | _ => none

/-- The token that new messages give to an order. -/
def given (ms : List Ouch.OutMsg) : Option Key := (ms.findSome? newToken).map TokenOf.str

/-- The order that a message reports executed, if nothing of it remains. -/
def diedBy (s : OuchSession W) : Ouch.OutMsg → Option (Key × Option OuchOrder)
  | .executed m =>
    match s.activeOrders.lookup m.token.str with
    | some o =>
      if o.remainingQty = 0 then some (m.token.str, s.finishedOrders.lookup m.token.str) else none
    | none => none
  | _ => none

variable {σ ε : Type}

def reading (f : σ → ε → σ) (g : σ → OuchSession W) :
    Reading σ ε Key (Option OuchOrder) Ouch.OutMsg where
  about _ := about
  given st e := given (newMessages f g st e)
  retired st e := (newMessages f g st e).findSome? (diedBy (g (f st e)))

/-- A step of a machine that holds a session, under watch. -/
def watch (f : σ → ε → σ) (g : σ → OuchSession W) : Watched σ → ε → Watched σ :=
  Session.watch f g (reading f g)

def watchCancel : Watched (OuchSession W) → Watched (OuchSession W) :=
  Session.watchCancel (cancelStep E) (reading (cancelStep E) Prod.fst)

def watchModify : Watched (OuchSession W) → Watched (OuchSession W) :=
  Session.watchModify (modifyStep E) (reading (modifyStep E) Prod.fst)

def watchReplace (a : Watched (OuchSession W)) : Watched (OuchSession W) :=
  let b := Machine.run (watch (replaceStep E) Prod.fst) (a.goOn (a.st, [])) a.st.pendingReplace
  b.goOn { finishPass b.st with pendingReplace := [] }

def watchExecution : Watched (OuchSession W) → Watched (OuchSession W) :=
  Session.watchExecution E (executionStep E) (reading (executionStep E) Prod.fst)

def watchCancelAll : Watched (OuchSession W) → Watched (OuchSession W) :=
  Session.watchCancelAll E (cancelAllStep E) (reading (cancelAllStep E) Prod.fst)

/-- One event under watch; a tick is watched loop by loop. -/
def watchStep (a : Watched (OuchSession W)) : Event → Watched (OuchSession W)
  | .marketLogic =>
    watchExecution E (watchReplace E (watchModify E (watchCancel E
      (a.goOn (heartbeatLogic E a.st)))))
  | .cancelAll => watchCancelAll E a
  | .packet p => watch (step E) id a (.packet p)
  | .setLogger => watch (step E) id a .setLogger
  | .disconnect => watch (step E) id a .disconnect

def watchInit (w : W) : Watched (OuchSession W) := { st := init E w, retired := [], late := [] }

/-- The watch of a cancel pass does not touch the session. -/
theorem watchCancel_st (a : Watched (OuchSession W)) :
    (watchCancel E a).st = cancelLogic E a.st := Session.watchCancel_st a _

/-- The watch of a modify pass does not touch the session. -/
theorem watchModify_st (a : Watched (OuchSession W)) :
    (watchModify E a).st = modifyLogic E a.st := Session.watchModify_st a _

/-- The watch of a replace pass does not touch the session. -/
theorem watchReplace_st (a : Watched (OuchSession W)) :
    (watchReplace E a).st = replaceLogic E a.st := by
  unfold watchReplace watch Session.watch
  rw [Watch.goOn_st, Watch.run_st]
  rfl

/-- The watch of an execution pass does not touch the session. -/
theorem watchExecution_st (a : Watched (OuchSession W)) :
    (watchExecution E a).st = executionLogic E a.st := Session.watchExecution_st E a _

/-- The watch does not touch the session. -/
theorem watchStep_st (a : Watched (OuchSession W)) (e : Event) :
    (watchStep E a e).st = step E a.st e := by
  cases e with
  | setLogger => rfl
  | packet p => rfl
  | marketLogic =>
    show (watchExecution E _).st = marketLogic E a.st
    rw [watchExecution_st, watchReplace_st, watchModify_st, watchCancel_st]
    rfl
  | cancelAll => exact Session.watchCancelAll_st E a _
  | disconnect => rfl

/-- The watch of a run does not touch the session. -/
theorem watch_run_st (w : W) (es : List Event) :
    (Machine.run (watchStep E) (watchInit E w) es).st = OuchSession.run E w es :=
  run_view (watchStep_st E) (watchInit E w) es

/-! ## What is to hold -/

/-- Nothing remains of a dead order, active or moved to the finished ones. -/
abbrev AtRest (dead : List (Key × Option OuchOrder)) (s : OuchSession W) : Prop :=
  Session.AtRest (fun o : OuchOrder => o.remainingQty = 0) dead s

/-- No message about a dead order, and nothing remains of any. -/
abbrev StayDead (a : Watched (OuchSession W)) : Prop :=
  Session.StayDead (fun o : OuchOrder => o.remainingQty = 0) a

/-- `cancel_logic` cancels the order as a whole. -/
def CancelsWhole (st : Pass W) (co : OuchCancelOrderReq) : Prop :=
  co.qty = 0 ∧ co.token.str ∈ st.1.activeOrders ∧ (E.gate .cancelOrder st.1.env).1 = true

/-- `execution_logic` looks at the order and finds that its time is up. -/
def TimesOut (st : Pass W) (k : Key) : Prop :=
  ∃ o, st.1.activeOrders.lookup k = some o ∧ (E.gate .execution st.1.env).1 = true ∧
    (o.expired E (E.gate .execution st.1.env).2).1 = true

/-- A tick leaves the dead alone: no full cancel of a dead order is let through, no modification of
one is applied, no replacement names one, and none times out while it waits to be moved. -/
def LeavesDead (a : Watched (OuchSession W)) : Event → Prop
  | .marketLogic =>
    let a := a.goOn (heartbeatLogic E a.st)
    let b := watchCancel E a
    let c := watchModify E b
    let d := watchReplace E c
    let v := executionStart E d.st
    Along (watch (cancelStep E) Prod.fst) (fun b co => co.token.str ∈ b.names →
        ¬ CancelsWhole E b.st co) (a.goOn (a.st, [])) a.st.pendingCancel ∧
      Along (watch (modifyStep E) Prod.fst) (fun b mo => mo.token.str ∈ b.names →
        ¬ Applies b.st mo) (b.goOn (b.st, [])) b.st.pendingModify ∧
      Along (watch (replaceStep E) Prod.fst) (fun b ro => ro.existingToken.str ∉ b.names)
        (c.goOn (c.st, [])) c.st.pendingReplace ∧
      Along (watch (executionStep E) Prod.fst) (fun b k => k ∈ b.names → ¬ TimesOut E b.st k)
        (d.goOn (v.1, [])) v.2
  | _ => True

/-! ## One step -/

variable {f : σ → ε → σ} {g : σ → OuchSession W}

/-- What is no report is about no order. -/
theorem about_of_not_report {m : Ouch.OutMsg} (h : isReport m = false) : about m = none := by
  cases m <;> first | rfl | cases h

/-- An order that dies by a message has nothing left, and what is noted is what was finished under its
token. -/
theorem diedBy_eq_some {s : OuchSession W} {m : Ouch.OutMsg} {q : Key × Option OuchOrder}
    (h : diedBy s m = some q) :
    (∀ o, s.activeOrders.lookup q.1 = some o → o.remainingQty = 0) ∧
      s.finishedOrders.lookup q.1 = q.2 := by
  unfold diedBy at h
  split at h
  · split at h
    · rename_i o ho
      split at h
      · rename_i hzero
        cases h
        refine ⟨fun o' ho' => ?_, rfl⟩
        cases ho.symm.trans ho'
        exact hzero
      · cases h
    · cases h
  · cases h

/-- The dead stay at rest if the step leaves alone those whose tokens it does not give away. -/
theorem AtRest.next {b : Watched σ} {e : ε}
    (hactive : ∀ q ∈ b.retired, given (newMessages f g b.st e) ≠ some q.1 →
      ∀ o, (g (f b.st e)).activeOrders.lookup q.1 = some o → o.remainingQty = 0)
    (hfinished : ∀ q ∈ b.retired, given (newMessages f g b.st e) ≠ some q.1 →
      ∀ o, (g (f b.st e)).finishedOrders.lookup q.1 = some o →
        o.remainingQty = 0 ∨ q.2 = some o) :
    AtRest (watch f g b e).retired (g (watch f g b e).st) := by
  refine Session.AtRest.next (fun q hq => ?_) hactive hfinished
  obtain ⟨m, -, hm⟩ := List.exists_of_findSome?_eq_some hq
  exact diedBy_eq_some hm

/-- A step that touches none of the dead and finishes no order. -/
theorem AtRest.of_lookup {b : Watched σ} {e : ε} (h : AtRest b.retired (g b.st))
    (hactive : ∀ q ∈ b.retired, given (newMessages f g b.st e) ≠ some q.1 →
      (g (f b.st e)).activeOrders.lookup q.1 = (g b.st).activeOrders.lookup q.1)
    (hfinished : (g (f b.st e)).finishedOrders = (g b.st).finishedOrders) :
    AtRest (watch f g b e).retired (g (watch f g b e).st) := by
  refine AtRest.next (fun q hq hkept o ho => ?_) fun q hq _ o ho => ?_
  · rw [hactive q hq hkept] at ho
    exact h.active q hq o ho
  · rw [hfinished] at ho
    exact h.finished q hq o ho

/-! ## The loops -/

/-- A step of a watched loop mentions one of the dead. -/
abbrev MentionsDead (f : σ → ε → σ) (g : σ → OuchSession W) (b : Watched σ) (e : ε) : Prop :=
  Watch.Mentions f (fun st => (g st).pendingOutMessages) (reading f g) b e

/-- A dead order has nothing to cut down, so only a cancel as a whole mentions it. -/
theorem mentionsDead_cancelStep {b : Watched (Pass W)} (h : AtRest b.retired b.st.1)
    (co : OuchCancelOrderReq) :
    ¬ MentionsDead (cancelStep E) Prod.fst b co ↔
      (co.token.str ∈ b.names → ¬ CancelsWhole E b.st co) := by
  rcases cancelStep_cases E b.st co with ⟨hnot, w, m, hs⟩ | ⟨o, ho, hgate, ⟨hzero, w, m, hm, -, hs⟩ |
    ⟨hne, -, w, hs⟩ | ⟨hne, hlt, w, m, hm, -, hs⟩⟩
  · -- the request is rejected, and the message names no order
    have hadded : added b.st.1.pendingOutMessages (cancelStep E b.st co).1.pendingOutMessages =
        [.cancelReject m] := by
      rw [hs]
      exact added_append _ _
    refine iff_of_true (Watch.not_mentions_of_about_none ?_) ?_
    · rw [hadded]
      exact List.forall_mem_singleton.mpr rfl
    · rintro - ⟨-, hact, hgate⟩
      rcases hnot with hnot | hnot
      · exact hnot hact
      · exact Bool.false_ne_true (hnot.symm.trans hgate)
  · -- a full cancel, which names the order whatever is left of it
    have hadded : added b.st.1.pendingOutMessages (cancelStep E b.st co).1.pendingOutMessages =
        [.orderCanceled m] := by
      rw [hs]
      exact added_append _ _
    rw [MentionsDead, Watch.mentions_of_added_singleton hadded (i := co.token.str) (by
      rw [← hm]
      rfl)]
    have hwhole : CancelsWhole E b.st co := ⟨hzero, KeyedMap.mem_of_lookup ho, hgate⟩
    exact ⟨fun hnot hdead => absurd hdead hnot, fun hnot hdead => hnot hdead hwhole⟩
  · -- a request for no less than there is sends nothing
    refine iff_of_true (Watch.not_mentions_of_added_nil ?_) fun _ hwhole => hne hwhole.1
    rw [hs]
    exact added_self _
  · -- a partial cancel finds shares, so the order is not dead
    have hadded : added b.st.1.pendingOutMessages (cancelStep E b.st co).1.pendingOutMessages =
        [.orderCanceled m] := by
      rw [hs]
      exact added_append _ _
    refine iff_of_true ?_ fun _ hwhole => hne hwhole.1
    rw [MentionsDead, Watch.mentions_of_added_singleton hadded (i := co.token.str) (by
      rw [← hm]
      rfl)]
    intro hdead
    obtain ⟨q, hq, hqk⟩ := List.mem_map.mp hdead
    have hleft := h.active q hq o (hqk ▸ ho)
    rw [hleft] at hlt
    exact absurd hlt (UInt32.not_lt.mpr (UInt32.zero_le))

/-- A cancel cuts down no dead order. -/
theorem atRest_cancelStep {b : Watched (Pass W)} (h : AtRest b.retired b.st.1)
    (co : OuchCancelOrderReq) :
    AtRest (watch (cancelStep E) Prod.fst b co).retired
      (watch (cancelStep E) Prod.fst b co).st.1 := by
  rcases cancelStep_cases E b.st co with ⟨-, w, m, hs⟩ | ⟨o, ho, -, ⟨-, w, m, -, -, hs⟩ |
    ⟨-, -, w, hs⟩ | ⟨-, hlt, w, m, -, -, hs⟩⟩
  · exact AtRest.of_lookup (g := Prod.fst) h (fun q _ _ => by rw [hs]; rfl) (by rw [hs]; rfl)
  · exact AtRest.of_lookup (g := Prod.fst) h (fun q _ _ => by rw [hs]; rfl) (by rw [hs]; rfl)
  · exact AtRest.of_lookup (g := Prod.fst) h (fun q _ _ => by rw [hs]; rfl) (by rw [hs]; rfl)
  · refine AtRest.of_lookup (g := Prod.fst) h (fun q hq _ => ?_) (by rw [hs]; rfl)
    rw [hs]
    show (b.st.1.activeOrders.insert co.token.str _).lookup q.1 = _
    rw [KeyedMap.lookup_insert, if_neg ?_]
    intro hqk
    rw [h.active q hq o (hqk ▸ ho)] at hlt
    exact absurd hlt (UInt32.not_lt.mpr UInt32.zero_le)

/-- Every applied modification is reported. -/
theorem mentionsDead_modifyStep (b : Watched (Pass W)) (mo : OuchModifyOrderReq) :
    ¬ MentionsDead (modifyStep E) Prod.fst b mo ↔
      (mo.token.str ∈ b.names → ¬ Applies b.st mo) := by
  have hreport : ∀ {m : OrderModified}, m.token = mo.token → Applies b.st mo →
      added b.st.1.pendingOutMessages (modifyStep E b.st mo).1.pendingOutMessages =
        [.orderModified m] →
      (¬ MentionsDead (modifyStep E) Prod.fst b mo ↔
        (mo.token.str ∈ b.names → ¬ Applies b.st mo)) := by
    intro m hm happly hadded
    rw [MentionsDead, Watch.mentions_of_added_singleton hadded (i := mo.token.str) (by
      rw [← hm]
      rfl)]
    exact ⟨fun hnot hdead => absurd hdead hnot, fun hnot hdead => hnot hdead happly⟩
  rcases modifyStep_cases E b.st mo with ⟨hnot, hs⟩ | ⟨o, ho, hside, ⟨-, w, m, hm, hs⟩ |
    ⟨-, w, m, hm, hs⟩⟩
  · refine iff_of_true (Watch.not_mentions_of_added_nil ?_) fun _ => hnot
    rw [hs]
    exact added_self _
  · exact hreport hm ⟨o, ho, hside⟩ (by rw [hs]; exact added_append _ _)
  · exact hreport hm ⟨o, ho, hside⟩ (by rw [hs]; exact added_append _ _)

/-- A modification gives a dead order no shares, if it applies to none. -/
theorem atRest_modifyStep {b : Watched (Pass W)} (h : AtRest b.retired b.st.1)
    {mo : OuchModifyOrderReq} (hmo : mo.token.str ∈ b.names → ¬ Applies b.st mo) :
    AtRest (watch (modifyStep E) Prod.fst b mo).retired
      (watch (modifyStep E) Prod.fst b mo).st.1 := by
  rcases modifyStep_cases E b.st mo with ⟨-, hs⟩ | ⟨o, ho, hside, ⟨-, w, m, -, hs⟩ |
    ⟨-, w, m, -, hs⟩⟩
  · exact AtRest.of_lookup (g := Prod.fst) h (fun q _ _ => by rw [hs]) (by rw [hs])
  · exact AtRest.of_lookup (g := Prod.fst) h (fun q _ _ => by rw [hs]; rfl) (by rw [hs]; rfl)
  · refine AtRest.of_lookup (g := Prod.fst) h (fun q hq _ => ?_) (by rw [hs]; rfl)
    rw [hs]
    show (b.st.1.activeOrders.insert mo.token.str _).lookup q.1 = _
    rw [KeyedMap.lookup_insert, if_neg ?_]
    intro hqk
    exact hmo (hqk ▸ Watch.mem_names_of_mem hq) ⟨o, ho, hside⟩

/-- Every replacement is answered by a message about the order that it names. -/
theorem mentionsDead_replaceStep (b : Watched (Pass W)) (ro : OuchReplaceOrderReq) :
    ¬ MentionsDead (replaceStep E) Prod.fst b ro ↔ ro.existingToken.str ∉ b.names := by
  rcases replaceStep_cases E b.st ro with ⟨-, w, m, hm, -, hs⟩ | ⟨-, w, m, A, -, hm, -, hs⟩
  · have hadded : added b.st.1.pendingOutMessages (replaceStep E b.st ro).1.pendingOutMessages =
        [.orderCanceled m] := by
      rw [hs]
      exact added_append _ _
    rw [MentionsDead, Watch.mentions_of_added_singleton hadded (i := ro.existingToken.str) (by
      rw [← hm]
      rfl)]
  · have hadded : added b.st.1.pendingOutMessages (replaceStep E b.st ro).1.pendingOutMessages =
        [.orderReplaced m] := by
      rw [hs]
      exact added_append _ _
    rw [MentionsDead, Watch.mentions_of_added_singleton hadded (i := ro.existingToken.str) (by
      rw [← hm]
      rfl)]

/-- A replacement touches no dead order, if it names none. -/
theorem atRest_replaceStep {b : Watched (Pass W)} (h : AtRest b.retired b.st.1)
    {ro : OuchReplaceOrderReq} (hro : ro.existingToken.str ∉ b.names) :
    AtRest (watch (replaceStep E) Prod.fst b ro).retired
      (watch (replaceStep E) Prod.fst b ro).st.1 := by
  have hother : ∀ q ∈ b.retired, q.1 ≠ ro.existingToken.str :=
    fun q hq hqk => hro (hqk ▸ Watch.mem_names_of_mem hq)
  rcases replaceStep_cases E b.st ro with ⟨-, w, m, -, -, hs⟩ | ⟨-, w, m, A, hm, -, hA, hs⟩
  · refine AtRest.of_lookup (g := Prod.fst) h (fun q hq _ => ?_) (by rw [hs]; rfl)
    rw [hs]
    exact KeyedMap.lookup_touch _ _ (.inr (hother q hq))
  · refine AtRest.of_lookup (g := Prod.fst) h (fun q hq hkept => ?_) (by rw [hs]; rfl)
    have hnew : q.1 ≠ ro.newToken.str := by
      intro hqk
      apply hkept
      have hadded : newMessages (replaceStep E) Prod.fst b.st ro = [.orderReplaced m] := by
        unfold newMessages
        rw [hs]
        exact added_append _ _
      rw [hadded, hqk, ← hm]
      rfl
    rw [hs]
    show A.lookup q.1 = _
    rw [hA, if_neg (hother q hq), if_neg hnew]

/-- An order that is looked at keeps its shares. -/
theorem Retimed.remainingQty {o o' : OuchOrder} (h : Retimed o o') :
    o'.remainingQty = o.remainingQty := by
  obtain ⟨r, st, rfl⟩ := h
  rfl

/-- An order of which nothing remains is cancelled if its time is up, and otherwise leaves the book in
silence. -/
theorem executionStep_of_zero {st : Pass W} {k : Key} {o : OuchOrder}
    (ho : st.1.activeOrders.lookup k = some o) (hzero : o.remainingQty = 0)
    (hgate : (E.gate .execution st.1.env).1 = true) :
    ((o.expired E (E.gate .execution st.1.env).2).1 = true ∧ ∃ m, m.token = o.token ∧
      (executionStep E st k).1.pendingOutMessages =
        st.1.pendingOutMessages ++ [.orderCanceled m]) ∨
    ((o.expired E (E.gate .execution st.1.env).2).1 = false ∧
      (executionStep E st k).1.pendingOutMessages = st.1.pendingOutMessages) := by
  unfold executionStep
  rw [ho]
  simp only [hgate, Bool.not_true, Bool.false_eq_true, if_false]
  have hex := retimed_expired E o (E.gate .execution st.1.env).2
  generalize o.expired E (E.gate .execution st.1.env).2 = ex at *
  have hleft : ex.2.1.remainingQty = 0 := hex.remainingQty.trans hzero
  by_cases hexpired : ex.1 = true
  · left
    rw [if_pos hexpired]
    exact ⟨hexpired, _, hex.token, rfl⟩
  right
  refine ⟨Bool.eq_false_iff.mpr hexpired, ?_⟩
  rw [if_neg hexpired]
  by_cases hioc : ex.2.1.timeInForce = 0
  · rw [if_pos hioc, if_neg (not_not.mpr hleft)]
  · have hgone : (ex.2.1.stillActive E ex.2.2).1 = false := by
      unfold OuchOrder.stillActive
      rw [if_pos hleft.le]
    rw [if_neg hioc, if_neg (Bool.eq_false_iff.mp hgone), finish_out]

/-- A visit mentions a dead order exactly if it is to one whose time is up. -/
theorem mentionsDead_executionStep {b : Watched (Pass W)} (h : AtRest b.retired b.st.1)
    (hk : Keyed b.st.1.activeOrders []) (k : Key) :
    ¬ MentionsDead (executionStep E) Prod.fst b k ↔ (k ∈ b.names → ¬ TimesOut E b.st k) := by
  rcases hlook : b.st.1.activeOrders.lookup k with _ | o
  · refine iff_of_true (Watch.not_mentions_of_added_nil ?_) ?_
    · have hs : executionStep E b.st k = b.st := by
        unfold executionStep
        rw [hlook]
      rw [hs]
      exact added_self _
    · rintro - ⟨o, ho, -⟩
      cases hlook.symm.trans ho
  have htoken : o.token.str = k := (hk k o hlook).resolve_right List.not_mem_nil
  -- whatever is said is said about the order that is held there
  have habout : ∀ m, m.token = o.token → about (.orderCanceled m) = some k := by
    intro m hm
    show some m.token.str = some k
    rw [hm, htoken]
  by_cases hdead : k ∈ b.names
  · obtain ⟨q, hq, rfl⟩ := List.mem_map.mp hdead
    have hzero := h.active q hq o hlook
    rw [forall_prop_of_true hdead]
    rcases hgate : (E.gate .execution b.st.1.env).1 with _ | _
    · refine iff_of_true (Watch.not_mentions_of_added_nil ?_) ?_
      · have hs : (executionStep E b.st q.1).1.pendingOutMessages = b.st.1.pendingOutMessages := by
          unfold executionStep
          rw [hlook]
          simp only [hgate, Bool.not_false, if_true]
        rw [hs]
        exact added_self _
      · rintro ⟨o', -, hopen, -⟩
        exact Bool.false_ne_true (hgate.symm.trans hopen)
    rcases executionStep_of_zero E hlook hzero hgate with ⟨hexpired, m, hm, hout⟩ | ⟨hexpired, hout⟩
    · have hadded : added b.st.1.pendingOutMessages
          (executionStep E b.st q.1).1.pendingOutMessages = [.orderCanceled m] := by
        rw [hout]
        exact added_append _ _
      rw [MentionsDead, Watch.mentions_of_added_singleton hadded (habout m hm)]
      exact iff_of_false (fun hnot => hnot hdead) fun hnot => hnot ⟨o, hlook, hgate, hexpired⟩
    · refine iff_of_true (Watch.not_mentions_of_added_nil ?_) ?_
      · rw [hout]
        exact added_self _
      · rintro ⟨o', ho', -, hexpired'⟩
        cases hlook.symm.trans ho'
        exact Bool.false_ne_true (hexpired.symm.trans hexpired')
  · refine iff_of_true ?_ fun hdead' => absurd hdead' hdead
    rcases executionStep_cases E b.st k with ⟨hnone, -⟩ | ⟨o', ho', ⟨-, w, hs⟩ | ⟨o'', w, -,
      ⟨m, hm, -, hs⟩ | ⟨-, hs⟩ | ⟨exe, m, -, -, hm, -, hs⟩ | hs | hs⟩⟩
    · cases hlook.symm.trans hnone
    · exact Watch.not_mentions_of_added_nil (by rw [hs]; exact added_self _)
    · cases hlook.symm.trans ho'
      rw [MentionsDead, Watch.mentions_of_added_singleton (m := .orderCanceled m)
        (by rw [hs]; exact added_append _ _) (habout m hm)]
      exact hdead
    · exact Watch.not_mentions_of_added_nil (by rw [hs]; exact added_self _)
    · cases hlook.symm.trans ho'
      rw [MentionsDead, Watch.mentions_of_added_singleton (m := .executed m) (i := k)
        (by rw [hs]; exact added_append _ _) (by
          show some m.token.str = some k
          rw [hm, htoken])]
      exact hdead
    · exact Watch.not_mentions_of_added_nil (by rw [hs]; exact added_self _)
    · exact Watch.not_mentions_of_added_nil (by rw [hs]; exact added_self _)

/-- An execution pass fills no dead order, and what it moves to the finished orders it leaves as it
is. -/
theorem atRest_executionStep {b : Watched (Pass W)} (h : AtRest b.retired b.st.1) (k : Key) :
    AtRest (watch (executionStep E) Prod.fst b k).retired
      (watch (executionStep E) Prod.fst b k).st.1 := by
  rcases executionStep_cases E b.st k with ⟨-, hs⟩ | ⟨o, ho, hrest⟩
  · exact AtRest.of_lookup (g := Prod.fst) h (fun q _ _ => by rw [hs]) (by rw [hs])
  have hzero : ∀ q ∈ b.retired, q.1 = k → o.remainingQty = 0 :=
    fun q hq hqk => h.active q hq o (hqk ▸ ho)
  -- the book with another order under `k`, which has nothing left if it is a dead one
  have hinsert : ∀ {o' : OuchOrder}, (o.remainingQty = 0 → o'.remainingQty = 0) → ∀ q ∈ b.retired,
      ∀ x, (b.st.1.activeOrders.insert k o').lookup q.1 = some x → x.remainingQty = 0 := by
    intro o' ho' q hq x hx
    rw [KeyedMap.lookup_insert] at hx
    split at hx
    · rename_i hqk
      cases hx
      exact ho' (hzero q hq hqk)
    · exact h.active q hq x hx
  rcases hrest with ⟨-, w, hs⟩ | ⟨o', w, hr, ⟨m, -, -, hs⟩ | ⟨-, hs⟩ |
    ⟨exe, m, h0, hle, -, -, hs⟩ | hs | hs⟩
  · exact AtRest.of_lookup (g := Prod.fst) h (fun q _ _ => by rw [hs]; rfl) (by rw [hs]; rfl)
  · refine AtRest.next (g := Prod.fst) (fun q hq _ => ?_) fun q hq _ => ?_ <;> rw [hs]
    · exact hinsert hr.remainingQty.trans q hq
    · exact h.finished q hq
  · refine AtRest.next (g := Prod.fst) (fun q hq _ => ?_) fun q hq _ => ?_ <;> rw [hs]
    · exact hinsert hr.remainingQty.trans q hq
    · exact h.finished q hq
  · refine AtRest.next (g := Prod.fst) (fun q hq _ => ?_) fun q hq _ => ?_ <;> rw [hs]
    · refine hinsert (fun hnone => ?_) q hq
      omega
    · exact h.finished q hq
  · refine AtRest.next (g := Prod.fst) (fun q hq _ => ?_) fun q hq _ => ?_ <;> rw [hs]
    · exact hinsert hr.remainingQty.trans q hq
    · exact h.finished q hq
  · refine AtRest.next (g := Prod.fst) (fun q hq _ => ?_) fun q hq _ => ?_ <;> rw [hs]
    · exact hinsert hr.remainingQty.trans q hq
    · intro x hx
      change (b.st.1.finishedOrders.insert k o').lookup q.1 = some x at hx
      rw [KeyedMap.lookup_insert] at hx
      split at hx
      · rename_i hqk
        cases hx
        exact .inl (hr.remainingQty.trans (hzero q hq hqk))
      · exact h.finished q hq x hx

/-- `cancel_all` passes over an order of which nothing remains. -/
theorem mentionsDead_cancelAllStep {b : Watched (OuchSession W × ℕ)} (h : AtRest b.retired b.st.1)
    (hk : Keyed b.st.1.activeOrders []) (k : Key) :
    ¬ MentionsDead (cancelAllStep E) Prod.fst b k := by
  rcases cancelAllStep_cases E b.st k with ⟨-, hs⟩ | ⟨o, o', w, ho, hr, ⟨m, hm, -, hs⟩ | hs⟩
  · exact Watch.not_mentions_of_added_nil (by rw [hs]; exact added_self _)
  · have htoken : o.token.str = k := (hk k o ho).resolve_right List.not_mem_nil
    rw [MentionsDead, Watch.mentions_of_added_singleton (m := .orderCanceled m) (i := k)
      (by rw [hs]; exact added_append _ _) (by
        show some m.token.str = some k
        rw [hm, htoken])]
    intro hdead
    obtain ⟨q, hq, rfl⟩ := List.mem_map.mp hdead
    have hzero := h.active q hq o ho
    have hsilent : (cancelAllStep E b.st q.1).1.pendingOutMessages =
        b.st.1.pendingOutMessages := by
      unfold cancelAllStep
      rw [ho]
      have hgone : (o.stillActive E b.st.1.env).1 = false := by
        unfold OuchOrder.stillActive
        rw [if_pos hzero.le]
      simp only [hgone, Bool.false_eq_true, if_false]
    rw [hs] at hsilent
    exact List.cons_ne_nil _ _ (List.self_eq_append_right.mp hsilent.symm)
  · exact Watch.not_mentions_of_added_nil (by rw [hs]; exact added_self _)

/-- `cancel_all` gives no shares to a dead order. -/
theorem atRest_cancelAllStep {b : Watched (OuchSession W × ℕ)} (h : AtRest b.retired b.st.1)
    (k : Key) :
    AtRest (watch (cancelAllStep E) Prod.fst b k).retired
      (watch (cancelAllStep E) Prod.fst b k).st.1 := by
  have hinsert : ∀ {o o' : OuchOrder}, b.st.1.activeOrders.lookup k = some o → Retimed o o' →
      ∀ q ∈ b.retired, ∀ x, (b.st.1.activeOrders.insert k o').lookup q.1 = some x →
        x.remainingQty = 0 := by
    intro o o' ho hr q hq x hx
    rw [KeyedMap.lookup_insert] at hx
    split at hx
    · rename_i hqk
      cases hx
      exact hr.remainingQty.trans (h.active q hq o (hqk ▸ ho))
    · exact h.active q hq x hx
  rcases cancelAllStep_cases E b.st k with ⟨-, hs⟩ | ⟨o, o', w, ho, hr, ⟨m, -, -, hs⟩ | hs⟩
  · exact AtRest.of_lookup (g := Prod.fst) h (fun q _ _ => by rw [hs]) (by rw [hs])
  · refine AtRest.next (g := Prod.fst) (fun q hq _ => ?_) fun q hq _ => ?_ <;> rw [hs]
    · exact hinsert ho hr q hq
    · exact h.finished q hq
  · refine AtRest.next (g := Prod.fst) (fun q hq _ => ?_) fun q hq _ => ?_ <;> rw [hs]
    · exact hinsert ho hr q hq
    · exact h.finished q hq

/-! ## Events -/

/-- Between events the dead are at rest, and every order is held under its own token. -/
structure Peace (a : Watched (OuchSession W)) : Prop where
  atRest : AtRest a.retired a.st
  keyed : Keyed a.st.activeOrders []

/-- A new session has no dead orders. -/
theorem peace_init (w : W) : Peace (watchInit E w) :=
  ⟨⟨List.forall_mem_nil _, List.forall_mem_nil _⟩, keyed_empty⟩

/-- A cancel pass is silent about the dead exactly when it cancels none of them as a whole. -/
theorem exact_watchCancel (a : Watched (OuchSession W)) :
    Watch.Exact Peace Peace a (watchCancel E a)
      (Along (watch (cancelStep E) Prod.fst)
        (fun b co => co.token.str ∈ b.names → ¬ CancelsWhole E b.st co) (a.goOn (a.st, []))
        a.st.pendingCancel) := by
  have hloop := Watch.Exact.run (I := fun b : Watched (Pass W) => AtRest b.retired b.st.1)
    (fun b co h => mentionsDead_cancelStep E h co) (fun b co h _ => atRest_cancelStep E h co)
    (a.goOn (a.st, [])) a.st.pendingCancel
  refine (hloop.pre Peace.atRest).post fun ha hb => ⟨?_, ?_⟩
  · exact AtRest.finishPass ⟨hb.active, hb.finished⟩
  · show Keyed (watchCancel E a).st.activeOrders []
    rw [watchCancel_st]
    exact keyed_cancelLogic E ha.keyed

/-- A modify pass is silent about the dead exactly when it applies to none of them. -/
theorem exact_watchModify (a : Watched (OuchSession W)) :
    Watch.Exact Peace Peace a (watchModify E a)
      (Along (watch (modifyStep E) Prod.fst)
        (fun b mo => mo.token.str ∈ b.names → ¬ Applies b.st mo) (a.goOn (a.st, []))
        a.st.pendingModify) := by
  have hloop := Watch.Exact.run (I := fun b : Watched (Pass W) => AtRest b.retired b.st.1)
    (fun b mo _ => mentionsDead_modifyStep E b mo) (fun b mo h hmo => atRest_modifyStep E h hmo)
    (a.goOn (a.st, [])) a.st.pendingModify
  refine (hloop.pre Peace.atRest).post fun ha hb => ⟨hb.finishPass, ?_⟩
  show Keyed (watchModify E a).st.activeOrders []
  rw [watchModify_st]
  exact keyed_modifyLogic E ha.keyed

/-- A replace pass is silent about the dead exactly when it names none of them. -/
theorem exact_watchReplace (a : Watched (OuchSession W)) :
    Watch.Exact Peace Peace a (watchReplace E a)
      (Along (watch (replaceStep E) Prod.fst) (fun b ro => ro.existingToken.str ∉ b.names)
        (a.goOn (a.st, [])) a.st.pendingReplace) := by
  have hloop := Watch.Exact.run (I := fun b : Watched (Pass W) => AtRest b.retired b.st.1)
    (fun b ro _ => mentionsDead_replaceStep E b ro) (fun b ro h hro => atRest_replaceStep E h hro)
    (a.goOn (a.st, [])) a.st.pendingReplace
  refine (hloop.pre Peace.atRest).post fun ha hb => ⟨⟨hb.finishPass.active, hb.finished⟩, ?_⟩
  show Keyed (watchReplace E a).st.activeOrders []
  rw [watchReplace_st]
  exact keyed_replaceLogic E ha.keyed

/-- An execution pass is silent about the dead exactly when none of them times out. -/
theorem exact_watchExecution (a : Watched (OuchSession W)) :
    Watch.Exact Peace Peace a (watchExecution E a)
      (Along (watch (executionStep E) Prod.fst) (fun b k => k ∈ b.names → ¬ TimesOut E b.st k)
        (a.goOn ((executionStart E a.st).1, [])) (executionStart E a.st).2) := by
  have hloop := Watch.Exact.run
    (I := fun b : Watched (Pass W) => AtRest b.retired b.st.1 ∧ Keyed b.st.1.activeOrders [])
    (fun b k h => mentionsDead_executionStep E h.1 h.2 k)
    (fun b k h _ => ⟨atRest_executionStep E h.1 k, keyed_executionStep E h.2 k⟩)
    (a.goOn ((executionStart E a.st).1, [])) (executionStart E a.st).2
  refine (hloop.pre fun ha => ?_).post fun ha hb => ⟨hb.1.finishPass, ?_⟩
  · exact ⟨⟨ha.atRest.active, ha.atRest.finished⟩, ha.keyed⟩
  · show Keyed (watchExecution E a).st.activeOrders []
    rw [watchExecution_st]
    exact keyed_executionLogic E ha.keyed

/-- `cancel_all` is silent about the dead. -/
theorem exact_watchCancelAll (a : Watched (OuchSession W)) :
    Watch.Exact Peace Peace a (watchCancelAll E a) True := by
  have hloop := Watch.Exact.run (C := fun _ _ => True)
    (I := fun b : Watched (OuchSession W × ℕ) =>
      AtRest b.retired b.st.1 ∧ Keyed b.st.1.activeOrders [])
    (fun b k h => iff_of_true (mentionsDead_cancelAllStep E h.1 h.2 k) trivial)
    (fun b k h _ => ⟨atRest_cancelAllStep E h.1 k, ?_⟩)
    (a.goOn ((executionStart E a.st).1, 0)) (executionStart E a.st).2
  · have hall := (hloop.pre (I := Peace) fun ha =>
      ⟨⟨ha.atRest.active, ha.atRest.finished⟩, ha.keyed⟩).congr
        fun _ => iff_of_true (along_of_forall fun _ _ => trivial) trivial
    refine hall.post fun ha hb => ⟨⟨fun q _ o ho => ?_, hb.1.finished⟩, keyed_empty⟩
    cases (AList.lookup_empty q.1).symm.trans ho
  · rcases cancelAllStep_cases E b.st k with ⟨-, hs⟩ | ⟨o, o', w, ho, hr, ⟨m, -, -, hs⟩ | hs⟩
    · show Keyed (cancelAllStep E b.st k).1.activeOrders []
      rw [hs]
      exact h.2
    · show Keyed (cancelAllStep E b.st k).1.activeOrders []
      rw [hs]
      exact h.2.update ho hr.token
    · show Keyed (cancelAllStep E b.st k).1.activeOrders []
      rw [hs]
      exact h.2.update ho hr.token

/-- A packet says nothing about an order of which nothing remains: what it asks is queued, or it brings
an order of its own. -/
theorem exact_watch_packet (a : Watched (OuchSession W)) (p : Mem) :
    Watch.Exact Peace Peace a (watch (step E) id a (.packet p)) True := by
  have hquiet : ∀ {s' : OuchSession W}, step E a.st (.packet p) = s' → Idle a.st s' →
      ¬ MentionsDead (step E) id a (.packet p) ∧ (AtRest a.retired a.st →
        AtRest (watch (step E) id a (.packet p)).retired (watch (step E) id a (.packet p)).st) := by
    rintro s' hs hidle
    obtain ⟨ms, hout, hms⟩ := hidle.out
    refine ⟨Watch.not_mentions_of_about_none ?_, fun h => ?_⟩
    · intro m hm
      rw [id, id, hs, hout, added_append] at hm
      exact about_of_not_report (hms m hm)
    · exact AtRest.of_lookup (g := id) h
        (fun q _ _ => congrArg (fun A => A.lookup q.1) (hs ▸ hidle.activeOrders))
        (hs ▸ hidle.finishedOrders)
  have hall : ¬ MentionsDead (step E) id a (.packet p) ∧ (AtRest a.retired a.st →
      AtRest (watch (step E) id a (.packet p)).retired
        (watch (step E) id a (.packet p)).st) := by
    rcases step_packet E a.st p with ⟨-, hs⟩ | ⟨r, -, -, hs⟩
    · exact hquiet hs (Idle.refl a.st)
    rcases handle_cases E a.st r with ⟨hidle, -⟩ | ⟨eo, w, d, m, -, -, hm, -, hh⟩ |
      ⟨mo, w, -, -, -, hh⟩ | ⟨ro, w, -, -, hh⟩ | ⟨co, w, -, -, -, hh⟩
    · exact hquiet hs hidle
    · -- a new order is alive, and the one that had its token was named by the message
      rw [hh] at hs
      have hadded : newMessages (step E) id a.st (.packet p) = [.orderAccepted m] := by
        unfold newMessages
        rw [id, id, hs]
        exact added_append _ _
      refine ⟨Watch.not_mentions_of_about_none ?_, fun h => ?_⟩
      · intro m' hm'
        change m' ∈ newMessages (step E) id a.st (.packet p) at hm'
        rw [hadded, List.mem_singleton] at hm'
        rw [hm']
        rfl
      · refine AtRest.of_lookup (g := id) h (fun q _ hkept => ?_) ?_
        · rw [hadded] at hkept
          rw [id, id, hs]
          show (a.st.activeOrders.insert eo.token.str _).lookup q.1 = _
          rw [KeyedMap.lookup_insert, if_neg ?_]
          intro hqk
          apply hkept
          rw [hqk, ← hm]
          rfl
        · rw [id, id, hs]
          rfl
    all_goals
      -- a request that is queued sends nothing and changes no order
      rw [hh] at hs
      refine ⟨Watch.not_mentions_of_added_nil ?_, fun h => ?_⟩
      · rw [id, id, hs]
        exact added_self _
      · exact AtRest.of_lookup (g := id) h (fun q _ _ => by rw [id, id, hs]; rfl)
          (by rw [id, id, hs]; rfl)
  exact Watch.Exact.single (fun _ => iff_of_true hall.1 trivial)
    fun ha _ => ⟨hall.2 ha.atRest, keyed_step E ha.keyed (.packet p)⟩

/-- An event is silent about the dead exactly when it leaves them alone. -/
theorem exact_watchStep (a : Watched (OuchSession W)) (e : Event) :
    Watch.Exact Peace Peace a (watchStep E a e) (LeavesDead E a e) := by
  cases e with
  | setLogger =>
    refine Watch.Exact.single (fun _ => iff_of_true (Watch.not_mentions_of_added_nil ?_) trivial) ?_
    · exact added_self _
    · exact fun ha _ => ⟨AtRest.of_lookup (g := id) ha.atRest (fun _ _ _ => rfl) rfl, ha.keyed⟩
  | packet p => exact exact_watch_packet E a p
  | marketLogic =>
    have hbeat := idle_heartbeatLogic E a.st
    have hstart : Peace a → Peace (a.goOn (heartbeatLogic E a.st)) := by
      intro ha
      refine ⟨⟨?_, ?_⟩, ?_⟩
      · rw [Watch.goOn_st, hbeat.activeOrders]
        exact ha.atRest.active
      · rw [Watch.goOn_st, hbeat.finishedOrders]
        exact ha.atRest.finished
      · rw [Watch.goOn_st, hbeat.activeOrders]
        exact ha.keyed
    have hcancel := (exact_watchCancel E (a.goOn (heartbeatLogic E a.st))).pre hstart
    have hmodify := hcancel.trans (exact_watchModify E _)
    have hreplace := hmodify.trans (exact_watchReplace E _)
    have hexecute := hreplace.trans (exact_watchExecution E _)
    refine hexecute.congr fun _ => ?_
    rw [and_assoc, and_assoc]
    exact Iff.rfl
  | cancelAll => exact exact_watchCancelAll E a
  | disconnect =>
    refine Watch.Exact.single (fun _ => iff_of_true (Watch.not_mentions_of_added_nil ?_) trivial) ?_
    · exact added_self _
    · exact fun ha _ => ⟨AtRest.of_lookup (g := id) ha.atRest (fun _ _ _ => rfl) rfl, ha.keyed⟩

/-! ## Runs -/

/-- A dead order stays dead throughout a run exactly when every tick leaves the dead alone. -/
theorem stayDead_iff (w : W) (es : List Event) :
    Throughout (watchStep E) StayDead (watchInit E w) es ↔
      Along (watchStep E) (LeavesDead E) (watchInit E w) es := by
  refine throughout_iff_of_step (I := fun a => a.late = [] ∧ Peace a)
    (fun a h => ⟨h.1, h.2.atRest⟩) (fun a e h => ?_) (fun a e h he => ?_) ⟨rfl, peace_init E w⟩
  · have hstep := exact_watchStep E a e
    constructor
    · exact fun hdead => (hstep.iff h.2 h.1).mp hdead.1
    · exact fun he => ⟨(hstep.iff h.2 h.1).mpr he, (hstep.next h.2 h.1 he).atRest⟩
  · have hstep := exact_watchStep E a e
    exact ⟨(hstep.iff h.2 h.1).mpr he, hstep.next h.2 h.1 he⟩

end OuchSession

end Evtsim
