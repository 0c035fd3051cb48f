import Evtsim.Ouch.Expiry

/-!
# What a tick sends

Executions, and cancellations for reasons of time, come from the execution pass alone, and there from the
visit of one order (`exists_visit_of_sent`). A property of these messages is a property of visits.
-/

namespace Evtsim

open Wire Ouch Log Machine Session

namespace OuchSession

variable {W : Type} (E : Env W)

/-- What a tick sends. -/
def sentByTick (s : OuchSession W) : List Ouch.OutMsg :=
  added s.pendingOutMessages (marketLogic E s).pendingOutMessages

/-- Only ticks execute. -/
theorem executed_notMem_added {s : OuchSession W} {e : Event} (he : e ≠ .marketLogic) (x : Executed) :
    .executed x ∉ added s.pendingOutMessages (step E s e).pendingOutMessages := by
  intro hx
  obtain ⟨ms, hms, hall⟩ := emits_step E s he
  rw [hms, added_append] at hx
  exact absurd (hall _ hx) (by simp [OutMsg.kind])

/-! ## Before the execution pass -/

/-- No execution, and no cancellation for reasons of time. -/
def FromRequests (m : Ouch.OutMsg) : Prop :=
  m.kind ≠ .executed ∧
    ∀ c, m = .orderCanceled c → c.reason = .userRequested ∨ c.reason = .systemCancel

/-- A message that is no execution and no cancellation comes from a request. -/
theorem fromRequests_of_kind {m : Ouch.OutMsg} (hexe : m.kind ≠ .executed)
    (hcancel : m.kind ≠ .orderCanceled) : FromRequests m := by
  refine ⟨hexe, ?_⟩
  rintro c rfl
  exact absurd rfl hcancel

/-- A cancellation by the user or the system comes from a request. -/
theorem fromRequests_orderCanceled {c : OrderCanceled}
    (h : c.reason = .userRequested ∨ c.reason = .systemCancel) : FromRequests (.orderCanceled c) := by
  constructor
  · intro hkind
    cases hkind
  · intro c' heq
    cases heq
    exact h

/-- A rejected cancel comes from a request. -/
theorem fromRequests_cancelReject (c : CancelReject) : FromRequests (.cancelReject c) :=
  fromRequests_of_kind (fun h => by cases h) fun h => by cases h

/-- What sends neither executions nor cancellations sends what comes from requests. -/
theorem fromRequests_of_emits {kinds : List Kind} {s s' : OuchSession W} (h : Emits kinds s s')
    (hexe : .executed ∉ kinds) (hcancel : .orderCanceled ∉ kinds) :
    Appends FromRequests s.pendingOutMessages s'.pendingOutMessages :=
  h.imp fun _ hm => fromRequests_of_kind (fun hk => hexe (hk ▸ hm)) fun hk => hcancel (hk ▸ hm)

/-- A queued cancel is answered for its request. -/
theorem fromRequests_cancelStep (st : Pass W) (co : OuchCancelOrderReq) :
    Appends FromRequests st.1.pendingOutMessages (cancelStep E st co).1.pendingOutMessages := by
  unfold cancelStep
  rcases st.1.activeOrders.lookup co.token.str with _ | o
  · exact appends_singleton (fromRequests_cancelReject _)
  dsimp only
  split
  · exact appends_singleton (fromRequests_cancelReject _)
  split
  · exact appends_singleton (fromRequests_orderCanceled (.inl rfl))
  split
  · exact Appends.refl _ _
  · exact appends_singleton (fromRequests_orderCanceled (.inl rfl))

/-- A subscript sends nothing. -/
theorem subscript_out (s : OuchSession W) (k : Key) :
    (subscript E.ouchOrder s k).pendingOutMessages = s.pendingOutMessages := by
  obtain ⟨w, hs⟩ := subscript_eq E.ouchOrder s k
  rw [hs]
  rfl

/-- A queued replacement is answered for its request. -/
theorem fromRequests_replaceStep (st : Pass W) (ro : OuchReplaceOrderReq) :
    Appends FromRequests st.1.pendingOutMessages (replaceStep E st ro).1.pendingOutMessages := by
  unfold replaceStep
  dsimp only
  rw [← subscript_out E st.1 ro.existingToken.str]
  generalize subscript E.ouchOrder st.1 ro.existingToken.str = s
  rcases s.activeOrders.lookup ro.existingToken.str with _ | o
  · exact Appends.refl _ _
  dsimp only
  split
  · exact appends_singleton (fromRequests_orderCanceled (.inr rfl))
  · dsimp only
    rw [subscript_out]
    exact appends_singleton (fromRequests_of_kind (fun h => by cases h) fun h => by cases h)

/-- A cancel pass answers requests only. -/
theorem fromRequests_cancelLogic (s : OuchSession W) :
    Appends FromRequests s.pendingOutMessages (cancelLogic E s).pendingOutMessages :=
  appends_run (g := fun st : Pass W => st.1.pendingOutMessages) (fromRequests_cancelStep E) (s, [])
    s.pendingCancel

/-- A replace pass answers requests only. -/
theorem fromRequests_replaceLogic (s : OuchSession W) :
    Appends FromRequests s.pendingOutMessages (replaceLogic E s).pendingOutMessages :=
  appends_run (g := fun st : Pass W => st.1.pendingOutMessages) (fromRequests_replaceStep E) (s, [])
    s.pendingReplace

/-- The passes before the last answer requests only. -/
theorem fromRequests_beforeExecution (s : OuchSession W) :
    Appends FromRequests s.pendingOutMessages (beforeExecution E s).pendingOutMessages := by
  have hbeat := fromRequests_of_emits (emits_heartbeatLogic E s) (by decide) (by decide)
  have hcancel := fromRequests_cancelLogic E (heartbeatLogic E s)
  have hmodify := fromRequests_of_emits (emits_modifyLogic E (cancelLogic E (heartbeatLogic E s)))
    (by decide) (by decide)
  have hreplace := fromRequests_replaceLogic E (beforeReplace E s)
  exact ((hbeat.trans hcancel).trans hmodify).trans hreplace

/-! ## In the execution pass -/

/-- Any other message is sent by a visit. -/
theorem exists_visit_of_sent {s : OuchSession W} {m : Ouch.OutMsg} (hm : m ∈ sentByTick E s)
    (hother : ¬ FromRequests m) : ∃ pre k post,
      (executionStart E (beforeExecution E s)).2 = pre ++ k :: post ∧
      m ∈ added (walk E (beforeExecution E s) pre).1.pendingOutMessages
        (executionStep E (walk E (beforeExecution E s) pre) k).1.pendingOutMessages := by
  apply exists_visit
  obtain ⟨ms, hms, hall⟩ := fromRequests_beforeExecution E s
  obtain ⟨ns, hns, -⟩ := emits_executionLogic E (beforeExecution E s)
  have hout : (marketLogic E s).pendingOutMessages = s.pendingOutMessages ++ (ms ++ ns) := by
    rw [← List.append_assoc, ← hms]
    exact hns
  rw [sentByTick, hout, added_append, List.mem_append] at hm
  rw [hns, added_append]
  exact hm.resolve_left fun hmem => hother (hall m hmem)

/-- What a visit sends, the tick sends. -/
theorem added_visit_subset_sentByTick {s : OuchSession W} {pre post : List Key} {k : Key}
    (hsplit : (executionStart E (beforeExecution E s)).2 = pre ++ k :: post) :
    added (walk E (beforeExecution E s) pre).1.pendingOutMessages
      (executionStep E (walk E (beforeExecution E s) pre) k).1.pendingOutMessages ⊆ sentByTick E s :=
  List.Subset.trans (added_visit_subset E hsplit)
    (added_subset (fromRequests_beforeExecution E s) (emits_executionLogic E _)
      (Appends.refl (fun _ => True) _))

end OuchSession

end Evtsim
