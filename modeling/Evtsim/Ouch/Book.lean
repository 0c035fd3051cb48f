import Evtsim.Ouch.Steps

/-!
# The order book of an `ouch_session` over a tick

What each pass of `market_logic` leaves alone, and the first invariant of the book: between events
every order is held under its own token (`keysAgree_run`). Within a pass the orders that
`replace_logic` default-constructs break it, but these are on the list of tokens to erase.
-/

namespace Evtsim

open Wire Ouch Session

namespace OuchSession

variable {W : Type} (E : Env W)

/-! ## What a pass leaves alone -/

/-- The queues, the login state and the logger stay. -/
structure SameQueues (s s' : OuchSession W) : Prop where
  pendingCancel : s'.pendingCancel = s.pendingCancel
  pendingModify : s'.pendingModify = s.pendingModify
  pendingReplace : s'.pendingReplace = s.pendingReplace
  state : s'.state = s.state
  l : s'.l = s.l

/-- What stays as it is keeps its queues. -/
theorem SameQueues.refl (s : OuchSession W) : SameQueues s s := ⟨rfl, rfl, rfl, rfl, rfl⟩

/-- Two steps that leave the queues alone. -/
theorem SameQueues.trans {s s' s'' : OuchSession W} (h : SameQueues s s')
    (h' : SameQueues s' s'') : SameQueues s s'' :=
  ⟨h'.1.trans h.1, h'.2.trans h.2, h'.3.trans h.3, h'.4.trans h.4, h'.5.trans h.5⟩

/-- The body of `cancel_logic` leaves the queues and the finished orders alone. -/
theorem sameQueues_cancelStep (st : Pass W) (co : OuchCancelOrderReq) :
    SameQueues st.1 (cancelStep E st co).1 ∧
      (cancelStep E st co).1.finishedOrders = st.1.finishedOrders := by
  rcases cancelStep_cases E st co with ⟨-, w, m, h⟩ | ⟨o, -, -, ⟨-, w, m, -, -, h⟩ | ⟨-, -, w, h⟩ |
    ⟨-, -, w, m, -, -, h⟩⟩ <;> rw [h] <;> exact ⟨⟨rfl, rfl, rfl, rfl, rfl⟩, rfl⟩

/-- The body of `modify_logic` leaves the queues and the finished orders alone. -/
theorem sameQueues_modifyStep (st : Pass W) (mo : OuchModifyOrderReq) :
    SameQueues st.1 (modifyStep E st mo).1 ∧
      (modifyStep E st mo).1.finishedOrders = st.1.finishedOrders := by
  rcases modifyStep_cases E st mo with ⟨-, h⟩ | ⟨o, -, -, ⟨-, w, m, -, h⟩ | ⟨-, w, m, -, h⟩⟩ <;>
    rw [h] <;> exact ⟨⟨rfl, rfl, rfl, rfl, rfl⟩, rfl⟩

/-- The body of `replace_logic` leaves the queues and the finished orders alone. -/
theorem sameQueues_replaceStep (st : Pass W) (ro : OuchReplaceOrderReq) :
    SameQueues st.1 (replaceStep E st ro).1 ∧
      (replaceStep E st ro).1.finishedOrders = st.1.finishedOrders := by
  rcases replaceStep_cases E st ro with ⟨-, w, m, -, -, h⟩ | ⟨-, w, m, A, -, -, -, h⟩ <;>
    rw [h] <;> exact ⟨⟨rfl, rfl, rfl, rfl, rfl⟩, rfl⟩

/-- The body of `execution_logic` leaves the queues alone; it finishes orders. -/
theorem sameQueues_executionStep (st : Pass W) (k : Key) :
    SameQueues st.1 (executionStep E st k).1 := by
  rcases executionStep_cases E st k with ⟨-, h⟩ | ⟨o, -, ⟨-, w, h⟩ | ⟨o', w, -, ⟨m, -, -, h⟩ |
    ⟨-, h⟩ | ⟨exe, m, -, -, -, -, h⟩ | h | h⟩⟩ <;> rw [h] <;> exact ⟨rfl, rfl, rfl, rfl, rfl⟩

/-- `cancel_logic` empties its queue and touches neither the others nor the finished orders. -/
theorem cancelLogic_frame (s : OuchSession W) :
    (cancelLogic E s).pendingCancel = [] ∧
      (cancelLogic E s).pendingModify = s.pendingModify ∧
      (cancelLogic E s).pendingReplace = s.pendingReplace ∧
      (cancelLogic E s).finishedOrders = s.finishedOrders := by
  have hrun : SameQueues s (Machine.run (cancelStep E) (s, []) s.pendingCancel).1 ∧
      (Machine.run (cancelStep E) (s, []) s.pendingCancel).1.finishedOrders = s.finishedOrders := by
    refine Machine.run_invariant
      (I := fun st : Pass W => SameQueues s st.1 ∧ st.1.finishedOrders = s.finishedOrders)
      ?_ ⟨SameQueues.refl s, rfl⟩ s.pendingCancel
    rintro st co ⟨hq, hf⟩
    obtain ⟨hq', hf'⟩ := sameQueues_cancelStep E st co
    exact ⟨hq.trans hq', hf'.trans hf⟩
  exact ⟨rfl, hrun.1.pendingModify, hrun.1.pendingReplace, hrun.2⟩

/-- `modify_logic` touches neither the queues, its own included, nor the finished orders. -/
theorem modifyLogic_frame (s : OuchSession W) :
    SameQueues s (modifyLogic E s) ∧ (modifyLogic E s).finishedOrders = s.finishedOrders := by
  have hrun : SameQueues s (Machine.run (modifyStep E) (s, []) s.pendingModify).1 ∧
      (Machine.run (modifyStep E) (s, []) s.pendingModify).1.finishedOrders = s.finishedOrders := by
    refine Machine.run_invariant
      (I := fun st : Pass W => SameQueues s st.1 ∧ st.1.finishedOrders = s.finishedOrders)
      ?_ ⟨SameQueues.refl s, rfl⟩ s.pendingModify
    rintro st mo ⟨hq, hf⟩
    obtain ⟨hq', hf'⟩ := sameQueues_modifyStep E st mo
    exact ⟨hq.trans hq', hf'.trans hf⟩
  obtain ⟨⟨h1, h2, h3, h4, h5⟩, hf⟩ := hrun
  exact ⟨⟨h1, h2, h3, h4, h5⟩, hf⟩

/-- `replace_logic` empties its queue and touches neither the others nor the finished orders. -/
theorem replaceLogic_frame (s : OuchSession W) :
    (replaceLogic E s).pendingReplace = [] ∧
      (replaceLogic E s).pendingCancel = s.pendingCancel ∧
      (replaceLogic E s).pendingModify = s.pendingModify ∧
      (replaceLogic E s).finishedOrders = s.finishedOrders := by
  have hrun : SameQueues s (Machine.run (replaceStep E) (s, []) s.pendingReplace).1 ∧
      (Machine.run (replaceStep E) (s, []) s.pendingReplace).1.finishedOrders =
        s.finishedOrders := by
    refine Machine.run_invariant
      (I := fun st : Pass W => SameQueues s st.1 ∧ st.1.finishedOrders = s.finishedOrders)
      ?_ ⟨SameQueues.refl s, rfl⟩ s.pendingReplace
    rintro st ro ⟨hq, hf⟩
    obtain ⟨hq', hf'⟩ := sameQueues_replaceStep E st ro
    exact ⟨hq.trans hq', hf'.trans hf⟩
  exact ⟨rfl, hrun.1.pendingCancel, hrun.1.pendingModify, hrun.2⟩

/-- `execution_logic` touches none of the queues. -/
theorem executionLogic_frame (s : OuchSession W) : SameQueues s (executionLogic E s) := by
  have hrun := Machine.run_invariant (f := executionStep E)
    (I := fun st : Pass W => SameQueues s st.1)
    (fun st k hq => hq.trans (sameQueues_executionStep E st k))
    (s := ({ s with env := (E.visit s.activeOrders.keys s.env).2 }, []))
    ⟨rfl, rfl, rfl, rfl, rfl⟩ (E.visit s.activeOrders.keys s.env).1.val
  exact ⟨hrun.1, hrun.2, hrun.3, hrun.4, hrun.5⟩

/-- What a tick leaves in the queues: the modifications. -/
theorem marketLogic_queues (s : OuchSession W) :
    (marketLogic E s).pendingCancel = [] ∧
      (marketLogic E s).pendingModify = s.pendingModify ∧
      (marketLogic E s).pendingReplace = [] := by
  have hbeat := idle_heartbeatLogic E s
  obtain ⟨hc, hm, hr, -⟩ := cancelLogic_frame E (heartbeatLogic E s)
  obtain ⟨⟨hc1, hm1, hr1, -, -⟩, -⟩ := modifyLogic_frame E (cancelLogic E (heartbeatLogic E s))
  obtain ⟨hr2, hc2, hm2, -⟩ :=
    replaceLogic_frame E (modifyLogic E (cancelLogic E (heartbeatLogic E s)))
  obtain ⟨hc3, hm3, hr3, -, -⟩ :=
    executionLogic_frame E (replaceLogic E (modifyLogic E (cancelLogic E (heartbeatLogic E s))))
  unfold marketLogic
  rw [hc3, hm3, hr3, hc2, hm2, hr2, hc1, hm1, hc, hm, hbeat.pendingModify]
  exact ⟨rfl, rfl, rfl⟩

/-- `cancel_all` touches neither the queues nor the finished orders. -/
theorem cancelAll_frame (s : OuchSession W) :
    SameQueues s (cancelAll E s).1 ∧ (cancelAll E s).1.finishedOrders = s.finishedOrders := by
  have hrun := Machine.run_invariant (f := cancelAllStep E)
    (I := fun st : OuchSession W × ℕ =>
      SameQueues s st.1 ∧ st.1.finishedOrders = s.finishedOrders) (by
        rintro st k ⟨hq, hf⟩
        rcases cancelAllStep_cases E st k with ⟨-, h⟩ | ⟨o, o', w, -, -, ⟨m, -, -, h⟩ | h⟩ <;>
          rw [h] <;> exact ⟨⟨hq.1, hq.2, hq.3, hq.4, hq.5⟩, hf⟩)
    (s := ({ s with env := (E.visit s.activeOrders.keys s.env).2 }, 0))
    ⟨⟨rfl, rfl, rfl, rfl, rfl⟩, rfl⟩ (E.visit s.activeOrders.keys s.env).1.val
  obtain ⟨⟨h1, h2, h3, h4, h5⟩, hf⟩ := hrun
  exact ⟨⟨h1, h2, h3, h4, h5⟩, hf⟩

/-! ## The end of a pass -/

/-- An order that is not collected stays. -/
theorem lookup_finishPass_of_some {s : OuchSession W} {done : List Key} {k : Key} {o : OuchOrder}
    (h : k ∉ done) (ho : s.activeOrders.lookup k = some o) :
    (finishPass (s, done)).activeOrders.lookup k = some o :=
  (lookup_finishPass_of_notMem h).trans ho

/-! ## Every order is held under its own token -/

/-- Every order whose key is not in `done` is held under its own token. -/
def Keyed (m : KeyedMap Key OuchOrder) (done : List Key) : Prop :=
  ∀ k o, m.lookup k = some o → o.token.str = k ∨ k ∈ done

/-- No orders are under their tokens. -/
theorem keyed_empty : Keyed ∅ [] := by
  intro k o h
  rw [AList.lookup_empty] at h
  cases h

/-- An order goes under its own token, or under one that is collected. -/
theorem Keyed.insert {m : KeyedMap Key OuchOrder} {done : List Key} (h : Keyed m done) {k : Key}
    {o : OuchOrder} (ho : o.token.str = k ∨ k ∈ done) : Keyed (m.insert k o) done := by
  intro k' o' hlook
  rw [KeyedMap.lookup_insert] at hlook
  split at hlook
  · rename_i hk
    cases hlook
    exact hk ▸ ho
  · exact h k' o' hlook

/-- A change to an order that keeps its token. -/
theorem Keyed.update {m : KeyedMap Key OuchOrder} {done : List Key} (h : Keyed m done) {k : Key}
    {o o' : OuchOrder} (hlook : m.lookup k = some o) (htoken : o'.token = o.token) :
    Keyed (m.insert k o') done :=
  h.insert (htoken ▸ h k o hlook)

/-- An order that is looked at keeps its token. -/
theorem Retimed.token {o o' : OuchOrder} (h : Retimed o o') : o'.token = o.token := by
  obtain ⟨r, st, rfl⟩ := h
  rfl

/-- A pass whose book is keyed up to collected tokens ends with a keyed book. -/
theorem Keyed.finishPass {st : Pass W} {d : List Key} (h : Keyed st.1.activeOrders d)
    (hd : ∀ k ∈ d, k ∈ st.2) : Keyed (finishPass st).activeOrders [] := by
  intro k o hlook
  change (KeyedMap.eraseAll st.2 st.1.activeOrders).lookup k = some o at hlook
  rw [KeyedMap.lookup_eraseAll] at hlook
  split at hlook
  · cases hlook
  · rename_i hk
    exact .inl ((h k o hlook).resolve_right fun hmem => hk (hd k hmem))

/-- The body of `cancel_logic` writes back the order that it finds. -/
theorem keyed_cancelStep {st : Pass W} {d : List Key} (h : Keyed st.1.activeOrders d)
    (co : OuchCancelOrderReq) : Keyed (cancelStep E st co).1.activeOrders d := by
  rcases cancelStep_cases E st co with ⟨-, w, m, hs⟩ | ⟨o, ho, -, ⟨-, w, m, -, -, hs⟩ |
    ⟨-, -, w, hs⟩ | ⟨-, -, w, m, -, -, hs⟩⟩ <;> rw [hs]
  · exact h
  · exact h
  · exact h
  · exact h.update ho rfl

/-- The body of `modify_logic` writes back the order that it finds. -/
theorem keyed_modifyStep {st : Pass W} {d : List Key} (h : Keyed st.1.activeOrders d)
    (mo : OuchModifyOrderReq) : Keyed (modifyStep E st mo).1.activeOrders d := by
  rcases modifyStep_cases E st mo with ⟨-, hs⟩ | ⟨o, ho, -, ⟨-, w, m, -, hs⟩ | ⟨-, w, m, -, hs⟩⟩ <;>
    rw [hs]
  · exact h
  · exact h
  · exact h.update ho rfl

/-- The body of `execution_logic` writes back the order that it finds. -/
theorem keyed_executionStep {st : Pass W} {d : List Key} (h : Keyed st.1.activeOrders d)
    (k : Key) : Keyed (executionStep E st k).1.activeOrders d := by
  rcases executionStep_cases E st k with ⟨-, hs⟩ | ⟨o, ho, ⟨-, w, hs⟩ | ⟨o', w, hr, ⟨m, -, -, hs⟩ |
    ⟨-, hs⟩ | ⟨exe, m, -, -, -, -, hs⟩ | hs | hs⟩⟩ <;> rw [hs]
  · exact h
  · exact h
  · exact h.update ho hr.token
  · exact h.update ho hr.token
  · exact h.update ho hr.token
  · exact h.update ho hr.token
  · exact h.update ho hr.token

/-- `replace_logic` may work on a default-constructed entry, but then its key is collected. -/
theorem keyed_replaceStep {st : Pass W} (h : Keyed st.1.activeOrders st.2)
    (ro : OuchReplaceOrderReq) :
    Keyed (replaceStep E st ro).1.activeOrders (replaceStep E st ro).2 := by
  rcases replaceStep_cases E st ro with ⟨-, w, m, -, -, hs⟩ | ⟨-, w, m, A, -, -, hA, hs⟩ <;> rw [hs]
  · intro k o hlook
    by_cases hk : k = ro.existingToken.str
    · exact .inr (List.mem_append_right _ (List.mem_singleton.mpr hk))
    · have hold : st.1.activeOrders.lookup k = some o :=
        (KeyedMap.lookup_touch _ _ (.inr hk)).symm.trans hlook
      exact (h k o hold).imp id (List.mem_append_left _)
  · intro k o hlook
    have hlook' := (hA k).symm.trans hlook
    split at hlook'
    · cases hlook'
    split at hlook'
    · rename_i hk
      cases hlook'
      exact .inl hk.symm
    · exact h k o hlook'

/-- A pass made of steps that keep the book keyed keeps it keyed. -/
private theorem keyed_pass {ε : Type} {body : Pass W → ε → Pass W}
    (hbody : ∀ st : Pass W, ∀ e, Keyed st.1.activeOrders [] → Keyed (body st e).1.activeOrders [])
    {s : OuchSession W} (hs : Keyed s.activeOrders []) (es : List ε) :
    Keyed (finishPass (Machine.run body (s, []) es)).activeOrders [] := by
  have hrun : Keyed (Machine.run body (s, []) es).1.activeOrders [] :=
    Machine.run_invariant (I := fun st : Pass W => Keyed st.1.activeOrders []) hbody hs es
  exact hrun.finishPass fun k hk => nomatch hk

/-- A cancel pass leaves every order under its token. -/
theorem keyed_cancelLogic {s : OuchSession W} (h : Keyed s.activeOrders []) :
    Keyed (cancelLogic E s).activeOrders [] :=
  keyed_pass (fun _ co h => keyed_cancelStep E h co) h s.pendingCancel

/-- A modify pass leaves every order under its token. -/
theorem keyed_modifyLogic {s : OuchSession W} (h : Keyed s.activeOrders []) :
    Keyed (modifyLogic E s).activeOrders [] :=
  keyed_pass (fun _ mo h => keyed_modifyStep E h mo) h s.pendingModify

/-- A replace pass leaves every order under its token: the batch starts with nothing collected. -/
theorem keyed_replaceLogic {s : OuchSession W} (h : Keyed s.activeOrders []) :
    Keyed (replaceLogic E s).activeOrders [] := by
  have hrun := Machine.run_invariant (f := replaceStep E)
    (I := fun st : Pass W => Keyed st.1.activeOrders st.2) (fun _ ro h => keyed_replaceStep E h ro)
    (s := (s, [])) h s.pendingReplace
  exact hrun.finishPass fun _ hk => hk

/-- An execution pass leaves every order under its token. -/
theorem keyed_executionLogic {s : OuchSession W} (h : Keyed s.activeOrders []) :
    Keyed (executionLogic E s).activeOrders [] :=
  keyed_pass (s := { s with env := (E.visit s.activeOrders.keys s.env).2 })
    (fun _ k h => keyed_executionStep E h k) h _

/-- Every event leaves every order under its token. -/
theorem keyed_step {s : OuchSession W} (h : Keyed s.activeOrders []) (e : Event) :
    Keyed (step E s e).activeOrders [] := by
  cases e with
  | setLogger => exact h
  | packet p =>
    rcases step_packet E s p with ⟨-, hs⟩ | ⟨r, -, -, hs⟩
    · rw [hs]
      exact h
    rw [hs]
    rcases handle_cases E s r with ⟨hidle, -⟩ | ⟨eo, w, d, m, -, -, -, -, hs⟩ | ⟨mo, w, -, -, -, hs⟩ |
      ⟨ro, w, -, -, hs⟩ | ⟨co, w, -, -, -, hs⟩
    · rw [hidle.activeOrders]
      exact h
    · rw [hs]
      exact h.insert (.inl rfl)
    · rw [hs]
      exact h
    · rw [hs]
      exact h
    · rw [hs]
      exact h
  | marketLogic =>
    have hbeat : Keyed (heartbeatLogic E s).activeOrders [] := by
      rw [(idle_heartbeatLogic E s).activeOrders]
      exact h
    exact keyed_executionLogic E (keyed_replaceLogic E (keyed_modifyLogic E
      (keyed_cancelLogic E hbeat)))
  | cancelAll => exact keyed_empty
  | disconnect => exact h

/-- Between events every active order is held under its own token. -/
theorem keyed_run (w : W) (es : List Event) : Keyed (run E w es).activeOrders [] :=
  Machine.run_invariant (I := fun s : OuchSession W => Keyed s.activeOrders [])
    (fun _ e h => keyed_step E h e) keyed_empty es

/-! ## The finished orders

Only `execution_logic` adds to them, an order of the book under the key that it has there. -/

/-- The events other than a tick leave the finished orders alone. -/
theorem finishedOrders_step (s : OuchSession W) {e : Event} (he : e ≠ .marketLogic) :
    (step E s e).finishedOrders = s.finishedOrders := by
  cases e with
  | setLogger => rfl
  | marketLogic => exact absurd rfl he
  | cancelAll => exact (cancelAll_frame E s).2
  | disconnect => rfl
  | packet p =>
    rcases step_packet E s p with ⟨-, hs⟩ | ⟨r, -, -, hs⟩
    · rw [hs]
    rw [hs]
    rcases handle_cases E s r with ⟨hidle, -⟩ | ⟨eo, w, d, m, -, -, -, -, hs⟩ | ⟨mo, w, -, -, -, hs⟩ |
      ⟨ro, w, -, -, hs⟩ | ⟨co, w, -, -, -, hs⟩
    · exact hidle.finishedOrders
    all_goals rw [hs]; rfl

/-- A visit keeps both maps keyed. -/
theorem keyed_finished_executionStep {st : Pass W} (h : Keyed st.1.activeOrders [])
    (hfin : Keyed st.1.finishedOrders []) (k : Key) :
    Keyed (executionStep E st k).1.finishedOrders [] := by
  rcases executionStep_cases E st k with ⟨-, hs⟩ | ⟨o, ho, ⟨-, w, hs⟩ | ⟨o', w, hr, ⟨m, -, -, hs⟩ |
    ⟨-, hs⟩ | ⟨exe, m, -, -, -, -, hs⟩ | hs | hs⟩⟩ <;> rw [hs]
  case inr.inr.inr.inr.inr.inr =>
    have htoken : o'.token.str = k := by
      rw [hr.token]
      exact (h k o ho).resolve_right List.not_mem_nil
    exact hfin.insert (.inl htoken)
  all_goals exact hfin

/-- A tick keeps both maps keyed. -/
theorem keyed_finished_marketLogic {s : OuchSession W} (h : Keyed s.activeOrders [])
    (hfin : Keyed s.finishedOrders []) : Keyed (marketLogic E s).finishedOrders [] := by
  have hbeat := idle_heartbeatLogic E s
  have hact : Keyed (replaceLogic E (modifyLogic E (cancelLogic E (heartbeatLogic E s)))).activeOrders
      [] := by
    refine keyed_replaceLogic E (keyed_modifyLogic E (keyed_cancelLogic E ?_))
    rw [hbeat.activeOrders]
    exact h
  have hfin' : Keyed (replaceLogic E (modifyLogic E (cancelLogic E
      (heartbeatLogic E s)))).finishedOrders [] := by
    rw [(replaceLogic_frame E _).2.2.2, (modifyLogic_frame E _).2, (cancelLogic_frame E _).2.2.2,
      hbeat.finishedOrders]
    exact hfin
  unfold marketLogic
  generalize replaceLogic E (modifyLogic E (cancelLogic E (heartbeatLogic E s))) = s' at hact hfin'
  have hrun := Machine.run_invariant (f := executionStep E)
    (I := fun st : Pass W => Keyed st.1.activeOrders [] ∧ Keyed st.1.finishedOrders [])
    (fun st k hst => ⟨keyed_executionStep E hst.1 k, keyed_finished_executionStep E hst.1 hst.2 k⟩)
    (s := ({ s' with env := (E.visit s'.activeOrders.keys s'.env).2 }, []))
    ⟨hact, hfin'⟩ (E.visit s'.activeOrders.keys s'.env).1.val
  exact hrun.2

/-- Every order of a map is held under its own token. -/
def KeysAgree (m : KeyedMap Key OuchOrder) : Prop := ∀ k o, m.lookup k = some o → k = o.token.str

/-- **Keys agree with orders** in both maps of every reachable session. -/
theorem keysAgree_run (w : W) (es : List Event) :
    KeysAgree (run E w es).activeOrders ∧ KeysAgree (run E w es).finishedOrders := by
  have hrun : Keyed (run E w es).activeOrders [] ∧ Keyed (run E w es).finishedOrders [] := by
    refine Machine.run_invariant (f := step E) (I := fun s : OuchSession W =>
      Keyed s.activeOrders [] ∧ Keyed s.finishedOrders []) ?_ ⟨keyed_empty, keyed_empty⟩ es
    rintro s e ⟨hact, hfin⟩
    refine ⟨keyed_step E hact e, ?_⟩
    by_cases he : e = .marketLogic
    · rw [he]
      exact keyed_finished_marketLogic E hact hfin
    · rw [finishedOrders_step E s he]
      exact hfin
  exact ⟨fun k o ho => ((hrun.1 k o ho).resolve_right List.not_mem_nil).symm,
    fun k o ho => ((hrun.2 k o ho).resolve_right List.not_mem_nil).symm⟩

end OuchSession

end Evtsim
