import Evtsim.Boe.Emission

/-!
# Every order request is answered once

A `NewOrder` is answered on receipt; a `CancelOrder` and a `ModifyOrder` on receipt or, if they are
queued, at their turn in a pass of the next tick. `Audit` runs a session and files every message under
the packet that it answers: the packet whose handling, or whose turn in a pass, emits it.

`modify_logic` never empties its queue and passes over a request that finds no order, and
`cancel_order` has a branch without an answer, so `answeredOnce_iff` needs a condition on the events.
-/

namespace Evtsim

open Wire Boe Log Machine Session

namespace BoeSession

variable {W : Type} (E : Env W)

/-- The requests that concern an order. -/
def Request.isOrder : Request → Bool
  | .login _ | .heartbeat => false
  | .enter _ | .cancel _ | .modify _ => true

/-- The types of the responses to each order request. -/
def responseTypes : Request → List OutMsgType
  | .enter _ => [.orderAck, .orderRejected]
  | .cancel _ => [.orderCanceled, .cancelRejected]
  | .modify _ => [.orderModified, .modifyRejected]
  | .login _ | .heartbeat => []

/-- The order request of a packet, if it makes one. -/
def orderRequest (p : Mem) : Option Request := (request p).filter Request.isOrder

/-! ## The audited session -/

/-- A session with the record of its order requests. A request is named by its place in `asked`. -/
structure Audit (W : Type) where
  boe : BoeSession W
  asked : List Request
  /-- The entries of `pending_cancel`, under the packets that put them there. -/
  waitingCancel : List (ℕ × BoeCancelOrderReq)
  /-- The entries of `pending_modify`, likewise. -/
  waitingModify : List (ℕ × BoeModifyOrderReq)
  /-- How many entries of `pending_modify` an earlier tick has gone through. -/
  met : ℕ
  answers : List (ℕ × Boe.OutMsg)

namespace Audit

def init (w : W) : Audit W :=
  { boe := BoeSession.init E w, asked := [], waitingCancel := [], waitingModify := [], met := 0
    answers := [] }

/-- Handle an order request; what it adds to the queues and to the messages is filed under it. -/
def receive (a : Audit W) (r : Request) : Audit W :=
  let s := handle E a.boe r
  let i := a.asked.length
  { boe := s
    asked := a.asked ++ [r]
    waitingCancel :=
      a.waitingCancel ++ (added a.boe.pendingCancel s.pendingCancel).map (Prod.mk i)
    waitingModify :=
      a.waitingModify ++ (added a.boe.pendingModify s.pendingModify).map (Prod.mk i)
    met := a.met
    answers := a.answers ++ (added a.boe.pendingOutMessages s.pendingOutMessages).map (Prod.mk i) }

/-- The messages of a pass that has got to a session and the local `done_tokens`. -/
def passOut (st : Pass W) : List Boe.OutMsg := st.1.pendingOutMessages

/-- What `cancel_logic` of a tick answers. -/
def cancelAnswers (a : Audit W) : List (ℕ × Boe.OutMsg) :=
  attributed (cancelStep E) passOut (heartbeatLogic E a.boe, []) a.waitingCancel

/-- What `modify_logic` of a tick answers. -/
def modifyAnswers (a : Audit W) : List (ℕ × Boe.OutMsg) :=
  attributed (modifyStep E) passOut (modifyStart E a.boe) a.waitingModify

/-- One event. -/
def step (a : Audit W) : Event → Audit W
  | .packet p =>
    match orderRequest p with
    | none => { a with boe := BoeSession.step E a.boe (.packet p) }
    | some r => receive E a r
  | .marketLogic =>
    { a with
      boe := marketLogic E a.boe
      waitingCancel := []
      met := a.waitingModify.length
      answers := a.answers ++ cancelAnswers E a ++ modifyAnswers E a }
  | .cancelAll => { a with boe := BoeSession.step E a.boe .cancelAll }
  | .disconnect => { a with boe := BoeSession.step E a.boe .disconnect }

/-- The record does not touch the session. -/
theorem step_boe (a : Audit W) (e : Event) : (step E a e).boe = BoeSession.step E a.boe e := by
  cases e with
  | packet p =>
    show (match orderRequest p with
      | none => { a with boe := BoeSession.step E a.boe (.packet p) }
      | some r => receive E a r).boe = _
    rcases hr : orderRequest p with _ | r
    · rfl
    · obtain ⟨hreq, -⟩ := Option.filter_eq_some_iff.mp hr
      show handle E a.boe r = handlePacket E a.boe p
      rw [handlePacket_eq, hreq]
      rfl
  | marketLogic => rfl
  | cancelAll => rfl
  | disconnect => rfl

/-- The audit does not touch the session. -/
theorem run_boe (w : W) (es : List Event) :
    (Machine.run (step E) (init E w) es).boe = BoeSession.run E w es :=
  run_view (step_boe E) (init E w) es

/-- Every order request so far has exactly one response, of its kind. -/
def AnsweredOnce (a : Audit W) : Prop :=
  ∀ i r, a.asked[i]? = some r → ∃ m, under i a.answers = [m] ∧ m.type ∈ responseTypes r

/-- `cancel_order` neither queues nor answers: the token names no active order with something
remaining, and the entry that the subscript makes for it is not rejected. -/
def Silent (s : BoeSession W) : Request → Prop
  | .cancel co =>
    (¬ ∃ o, s.activeOrders.lookup co.origToken.str = some o ∧ 0 < o.remainingQty) ∧
      ¬ RejectsCancel E s co
  | _ => False

/-- A packet is not silently dropped. In `modify_logic` of a tick a request that no earlier tick has
gone through finds its order, and one that an earlier tick has gone through finds none. -/
def Answerable (a : Audit W) : Event → Prop
  | .packet p => ∀ r, orderRequest p = some r → ¬ Silent E a.boe r
  | .marketLogic =>
    ∀ pre mo post, a.boe.pendingModify = pre ++ mo :: post →
      (mo.origToken.str ∈
        (Machine.run (modifyStep E) (modifyStart E a.boe) pre).1.activeOrders ↔ a.met ≤ pre.length)
  | _ => True

/-! ## What one function answers -/

/-- On receipt an order request is answered, or it is queued, or it is silently dropped. -/
theorem handle_answers (s : BoeSession W) {r : Request} (hr : r.isOrder = true) :
    (¬ Silent E s r ∧ SameQueues s (handle E s r) ∧ ∃ m, m.type ∈ responseTypes r ∧
      (handle E s r).pendingOutMessages = s.pendingOutMessages ++ [m]) ∨
    (∃ co, r = .cancel co ∧ ¬ Silent E s r ∧
      (handle E s r).pendingOutMessages = s.pendingOutMessages ∧
      (handle E s r).pendingCancel = s.pendingCancel ++ [.parseCancelOrder co] ∧
      (handle E s r).pendingModify = s.pendingModify) ∨
    (∃ mo, r = .modify mo ∧ ¬ Silent E s r ∧
      (handle E s r).pendingOutMessages = s.pendingOutMessages ∧
      (handle E s r).pendingCancel = s.pendingCancel ∧
      (handle E s r).pendingModify = s.pendingModify ++ [.parseModifyOrder mo]) ∨
    (Silent E s r ∧ SameQueues s (handle E s r) ∧
      (handle E s r).pendingOutMessages = s.pendingOutMessages) := by
  cases r with
  | login req => cases hr
  | heartbeat => cases hr
  | enter no =>
    left
    rcases enterOrder_cases E s no with ⟨-, w, m, h⟩ | ⟨-, w, d, m, -, -, -, h⟩ <;> rw [handle, h]
    · exact ⟨not_false, ⟨rfl, rfl⟩, .orderRejected m, by simp [OutMsg.type, responseTypes], rfl⟩
    · exact ⟨not_false, ⟨rfl, rfl⟩, .orderAck m, by simp [OutMsg.type, responseTypes], rfl⟩
  | cancel co =>
    rcases cancelOrder_cases E s co with ⟨hqueued, h⟩ | ⟨hnot, w, ⟨hrej, h⟩ | ⟨hrej, m, h⟩⟩ <;>
      rw [handle, h]
    · exact .inr (.inl ⟨co, rfl, fun hs => hs.1 hqueued, rfl, rfl, rfl⟩)
    · exact .inr (.inr (.inr ⟨⟨hnot, hrej⟩, ⟨rfl, rfl⟩, rfl⟩))
    · left
      exact ⟨fun hs => hs.2 hrej, ⟨rfl, rfl⟩, .cancelRejected m,
        by simp [OutMsg.type, responseTypes], rfl⟩
  | modify mo =>
    rcases modifyOrder_cases E s mo with ⟨-, w, m, h⟩ | ⟨-, -, w, h⟩ <;> rw [handle, h]
    · left
      exact ⟨not_false, ⟨rfl, rfl⟩, .modifyRejected m, by simp [OutMsg.type, responseTypes], rfl⟩
    · exact .inr (.inr (.inl ⟨mo, rfl, not_false, rfl, rfl, rfl⟩))

/-- A queued cancel is answered at its turn. -/
theorem added_cancelStep (st : Pass W) (co : BoeCancelOrderReq) :
    ∃ m, added (passOut st) (passOut (cancelStep E st co)) = [m] ∧
      (m.type = .orderCanceled ∨ m.type = .cancelRejected) := by
  rcases cancelStep_cases E st co with ⟨-, w, m, h⟩ | ⟨-, w, m, -, h⟩
  · refine ⟨.cancelRejected m, ?_, .inr rfl⟩
    rw [h]
    exact added_append _ _
  · refine ⟨.orderCanceled m, ?_, .inl rfl⟩
    rw [h]
    exact added_append _ _

/-- A queued modification that finds its order is answered at its turn. -/
theorem added_modifyStep_of_mem {st : Pass W} {mo : BoeModifyOrderReq}
    (h : mo.origToken.str ∈ st.1.activeOrders) :
    ∃ m, added (passOut st) (passOut (modifyStep E st mo)) = [m] ∧ m.type = .orderModified := by
  rcases modifyStep_cases E st mo with ⟨hgone, -⟩ | ⟨o, -, w, A, bo, m, -, -, -, hs⟩
  · exact absurd h hgone
  · refine ⟨.orderModified m, ?_, rfl⟩
    rw [hs]
    exact added_append _ _

/-- One that does not is passed over. -/
theorem added_modifyStep_of_notMem {st : Pass W} {mo : BoeModifyOrderReq}
    (h : mo.origToken.str ∉ st.1.activeOrders) :
    added (passOut st) (passOut (modifyStep E st mo)) = [] := by
  rcases modifyStep_cases E st mo with ⟨-, hs⟩ | ⟨o, ho, -⟩
  · rw [hs]
    exact added_self _
  · exact absurd (KeyedMap.mem_of_lookup ho) h

/-! ## The record -/

/-- `qs` names the entries of a queue by the requests of the kind `K` that put them there, each
once. -/
structure Filed {β : Type*} (K : Request → Prop) (asked : List Request) (qs : List (ℕ × β))
    (queue : List β) : Prop where
  entries : qs.map Prod.snd = queue
  asked : ∀ i ∈ qs.map Prod.fst, ∃ r, asked[i]? = some r ∧ K r
  nodup : (qs.map Prod.fst).Nodup

section

variable {β : Type*} {K : Request → Prop} {asked : List Request} {qs : List (ℕ × β)}
  {queue queue' : List β}

/-- An empty queue is filed. -/
theorem filed_nil (K : Request → Prop) (asked : List Request) : Filed (β := β) K asked [] [] :=
  ⟨rfl, List.forall_mem_nil _, List.nodup_nil⟩

/-- What is filed has been asked. -/
theorem Filed.lt (h : Filed K asked qs queue) {i : ℕ} (hi : i ∈ qs.map Prod.fst) :
    i < asked.length := by
  obtain ⟨r, hr, -⟩ := h.asked i hi
  exact (List.getElem?_eq_some_iff.mp hr).1

/-- What is filed is of the kind of its queue. -/
theorem Filed.kind (h : Filed K asked qs queue) {i : ℕ} (hi : i ∈ qs.map Prod.fst) {r : Request}
    (hr : asked[i]? = some r) : K r := by
  obtain ⟨r', hr', hK⟩ := h.asked i hi
  rw [hr] at hr'
  cases hr'
  exact hK

/-- The next request leaves the queue alone or, being of its kind, adds one entry. -/
theorem Filed.next (h : Filed K asked qs queue) {r : Request}
    (hqueue : queue' = queue ∨ K r ∧ ∃ x, queue' = queue ++ [x]) :
    Filed K (asked ++ [r]) (qs ++ (added queue queue').map (Prod.mk asked.length)) queue' := by
  have hold : ∀ i ∈ qs.map Prod.fst, ∃ r', (asked ++ [r])[i]? = some r' ∧ K r' := by
    intro i hi
    obtain ⟨r', hr', hK⟩ := h.asked i hi
    exact ⟨r', by rw [List.getElem?_append_left (h.lt hi), hr'], hK⟩
  rcases hqueue with rfl | ⟨hK, x, rfl⟩
  · rw [added_self, List.map_nil, List.append_nil]
    exact ⟨h.entries, hold, h.nodup⟩
  rw [added_append]
  refine ⟨?_, ?_, ?_⟩
  · rw [List.map_append, h.entries]
    rfl
  · intro i hi
    rw [List.map_append, List.mem_append] at hi
    rcases hi with hi | hi
    · exact hold i hi
    · obtain rfl := List.mem_singleton.mp hi
      exact ⟨r, List.getElem?_concat_length, hK⟩
  · rw [List.map_append]
    apply h.nodup.append (List.nodup_singleton _)
    intro i hi hi'
    obtain rfl := List.mem_singleton.mp hi'
    exact (h.lt hi).false

/-- The requests before and after one entry have other names. -/
theorem Filed.split {pre post : List (ℕ × β)} {i : ℕ} {x : β}
    (h : Filed K asked (pre ++ (i, x) :: post) queue) :
    i ∉ pre.map Prod.fst ∧ i ∉ post.map Prod.fst := by
  have hnodup := h.nodup
  rw [List.map_append, List.map_cons, List.nodup_append] at hnodup
  obtain ⟨-, hpost, hne⟩ := hnodup
  exact ⟨fun hi => hne i hi i List.mem_cons_self rfl, (List.nodup_cons.mp hpost).1⟩

end

def IsCancel (r : Request) : Prop := ∃ co, r = .cancel co

def IsModify (r : Request) : Prop := ∃ mo, r = .modify mo

/-- The record is in order. -/
structure Recorded (a : Audit W) : Prop where
  cancels : Filed IsCancel a.asked a.waitingCancel a.boe.pendingCancel
  modifies : Filed IsModify a.asked a.waitingModify a.boe.pendingModify
  met : a.met ≤ a.waitingModify.length
  answered : ∀ q ∈ a.answers, q.1 < a.asked.length

/-- A new record is in order. -/
theorem recorded_init (w : W) : Recorded (init E w) :=
  ⟨filed_nil _ _, filed_nil _ _, le_rfl, List.forall_mem_nil _⟩

/-- No packet waits in both queues. -/
theorem Recorded.notMem_modify {a : Audit W} (h : Recorded a) {i : ℕ}
    (hi : i ∈ a.waitingCancel.map Prod.fst) : i ∉ a.waitingModify.map Prod.fst := by
  intro hi'
  obtain ⟨r, hr, co, rfl⟩ := h.cancels.asked i hi
  obtain ⟨mo, hmo⟩ := h.modifies.kind hi' hr
  cases hmo

/-- A request on receipt keeps the record in order. -/
theorem recorded_receive {a : Audit W} (h : Recorded a) {r : Request} (hr : r.isOrder = true) :
    Recorded (receive E a r) := by
  refine ⟨h.cancels.next ?_, h.modifies.next ?_, ?_, ?_⟩
  · rcases handle_answers E a.boe hr with ⟨-, hsame, -⟩ | ⟨co, rfl, -, -, hcancel, -⟩ |
      ⟨mo, -, -, -, hcancel, -⟩ | ⟨-, hsame, -⟩
    · exact .inl hsame.pendingCancel
    · exact .inr ⟨⟨co, rfl⟩, _, hcancel⟩
    · exact .inl hcancel
    · exact .inl hsame.pendingCancel
  · rcases handle_answers E a.boe hr with ⟨-, hsame, -⟩ | ⟨co, -, -, -, -, hmodify⟩ |
      ⟨mo, rfl, -, -, -, hmodify⟩ | ⟨-, hsame, -⟩
    · exact .inl hsame.pendingModify
    · exact .inl hmodify
    · exact .inr ⟨⟨mo, rfl⟩, _, hmodify⟩
    · exact .inl hsame.pendingModify
  · show a.met ≤ (a.waitingModify ++ _).length
    rw [List.length_append]
    exact h.met.trans (Nat.le_add_right _ _)
  · intro q hq
    show q.1 < (a.asked ++ [r]).length
    rw [List.length_append, List.length_singleton]
    rcases List.mem_append.mp hq with hq | hq
    · exact (h.answered q hq).trans (Nat.lt_succ_self _)
    · obtain ⟨m, -, rfl⟩ := List.mem_map.mp hq
      exact Nat.lt_succ_self _

/-- A tick keeps the record in order. -/
theorem recorded_marketLogic {a : Audit W} (h : Recorded a) :
    Recorded (step E a .marketLogic) := by
  obtain ⟨hcancel, hmodify⟩ := marketLogic_queues E a.boe
  refine ⟨?_, ?_, le_rfl, ?_⟩
  · show Filed IsCancel a.asked [] (marketLogic E a.boe).pendingCancel
    rw [hcancel]
    exact filed_nil _ _
  · show Filed IsModify a.asked a.waitingModify (marketLogic E a.boe).pendingModify
    rw [hmodify]
    exact h.modifies
  · intro q hq
    rcases List.mem_append.mp hq with hq | hq
    · rcases List.mem_append.mp hq with hq | hq
      · exact h.answered q hq
      · exact h.cancels.lt (fst_mem_of_mem_attributed hq)
    · exact h.modifies.lt (fst_mem_of_mem_attributed hq)

/-- An event without an order request, and no tick. -/
theorem Recorded.of_sameQueues {a : Audit W} (h : Recorded a) {s : BoeSession W}
    (hs : SameQueues a.boe s) : Recorded { a with boe := s } := by
  refine ⟨?_, ?_, h.met, h.answered⟩
  · show Filed IsCancel a.asked a.waitingCancel s.pendingCancel
    rw [hs.pendingCancel]
    exact h.cancels
  · show Filed IsModify a.asked a.waitingModify s.pendingModify
    rw [hs.pendingModify]
    exact h.modifies

/-- What an event does to the record: it takes in an order request, or it is a tick, or it leaves the
record and the queues alone. -/
theorem step_cases (a : Audit W) (e : Event) :
    (∃ p r, e = .packet p ∧ orderRequest p = some r ∧ r.isOrder = true ∧ step E a e = receive E a r) ∨
    e = .marketLogic ∨
    (e ≠ .marketLogic ∧ Answerable E a e ∧
      ∃ s, SameQueues a.boe s ∧ step E a e = { a with boe := s }) := by
  cases e with
  | packet p =>
    rcases hreq : orderRequest p with _ | r
    · -- a packet that brings no order request
      right
      right
      have hstep : step E a (.packet p) = { a with boe := BoeSession.step E a.boe (.packet p) } := by
        show (match orderRequest p with
          | none => _
          | some r => receive E a r) = _
        rw [hreq]
      refine ⟨(fun h => nomatch h), ?_, _, ?_, hstep⟩
      · intro r hr
        cases hreq.symm.trans hr
      rcases step_packet E a.boe p with ⟨-, hs⟩ | ⟨r, hr, hs⟩
      · rw [hs]
        exact .refl _
      · have hnot : ¬ r.isOrder = true := by
          intro hr'
          rw [orderRequest, hr, Option.filter_some, if_pos hr'] at hreq
          cases hreq
        rw [hs]
        cases r with
        | login req =>
          have hidle := idle_handleLoginRequest E a.boe req
          exact ⟨hidle.pendingCancel, hidle.pendingModify⟩
        | heartbeat => exact ⟨rfl, rfl⟩
        | enter no => exact absurd rfl hnot
        | cancel co => exact absurd rfl hnot
        | modify mo => exact absurd rfl hnot
    · left
      refine ⟨p, r, rfl, hreq, (Option.filter_eq_some_iff.mp hreq).2, ?_⟩
      show (match orderRequest p with
        | none => _
        | some r => receive E a r) = _
      rw [hreq]
  | marketLogic => exact .inr (.inl rfl)
  | cancelAll => exact .inr (.inr ⟨(fun h => nomatch h), trivial, _, sameQueues_cancelAll E a.boe, rfl⟩)
  | disconnect =>
    exact .inr (.inr ⟨(fun h => nomatch h), trivial, BoeSession.step E a.boe .disconnect,
      ⟨rfl, rfl⟩, rfl⟩)

/-- Every event keeps the record in order. -/
theorem recorded_step {a : Audit W} (h : Recorded a) (e : Event) : Recorded (step E a e) := by
  rcases step_cases E a e with ⟨p, r, -, -, hr, hs⟩ | rfl | ⟨-, -, s, hsame, hs⟩
  · rw [hs]
    exact recorded_receive E h hr
  · exact recorded_marketLogic E h
  · rw [hs]
    exact h.of_sameQueues hsame

/-! ## Answered or waiting -/

/-- The request has been queued and no tick has gone through it yet. -/
def Waits (a : Audit W) (i : ℕ) : Prop :=
  i ∈ a.waitingCancel.map Prod.fst ∨ i ∈ (a.waitingModify.drop a.met).map Prod.fst

/-- A request that waits has no answer yet, and any other exactly one, of its kind. -/
def Settled (a : Audit W) : Prop :=
  ∀ i r, a.asked[i]? = some r →
    (Waits a i → under i a.answers = []) ∧
      (¬ Waits a i → ∃ m, under i a.answers = [m] ∧ m.type ∈ responseTypes r)

/-- A new session owes no answer. -/
theorem settled_init (w : W) : Settled (init E w) := fun _ _ h => nomatch h

/-- A request waits if it did, or if it is the new one and a queue has grown. -/
theorem waits_receive {a : Audit W} (h : Recorded a) {r : Request} {i : ℕ} :
    Waits (receive E a r) i ↔ Waits a i ∨ i = a.asked.length ∧
      (added a.boe.pendingCancel (handle E a.boe r).pendingCancel ≠ [] ∨
        added a.boe.pendingModify (handle E a.boe r).pendingModify ≠ []) := by
  unfold Waits
  show i ∈ (a.waitingCancel ++ _).map Prod.fst ∨
    i ∈ ((a.waitingModify ++ _).drop a.met).map Prod.fst ↔ _
  rw [List.drop_append_of_le_length h.met, List.map_append, List.map_append, List.mem_append,
    List.mem_append, mem_fst_map_mk, mem_fst_map_mk]
  tauto

/-- The answers to a request after another has been received. -/
theorem under_receive {a : Audit W} {r : Request} {i : ℕ} :
    under i (receive E a r).answers = under i a.answers ++ under i ((added
      a.boe.pendingOutMessages (handle E a.boe r).pendingOutMessages).map (Prod.mk a.asked.length)) :=
  under_append i _ _

/-- A name that is not given yet. -/
theorem Recorded.not_waits {a : Audit W} (h : Recorded a) : ¬ Waits a a.asked.length := by
  rintro (hi | hi)
  · exact (h.cancels.lt hi).false
  · exact (h.modifies.lt (List.map_subset _ (List.drop_subset _ _) hi)).false

/-- A request that has not been received has no answers. -/
theorem Recorded.under_new {a : Audit W} (h : Recorded a) : under a.asked.length a.answers = [] :=
  under_of_forall_ne fun q hq => (h.answered q hq).ne

/-- An order request that is not dropped is answered or waits, and changes nothing for the others. -/
theorem settled_receive {a : Audit W} (h : Recorded a) (hset : Settled a) {r : Request}
    (hr : r.isOrder = true) (hloud : ¬ Silent E a.boe r) : Settled (receive E a r) := by
  intro i r' hi
  by_cases hlt : i < a.asked.length
  · have hold : a.asked[i]? = some r' := by
      rw [← hi]
      exact (List.getElem?_append_left hlt).symm
    have hwaits : Waits (receive E a r) i ↔ Waits a i := by
      rw [waits_receive E h]
      exact or_iff_left fun hn => hlt.ne hn.1
    rw [hwaits, under_receive, under_map_of_ne hlt.ne', List.append_nil]
    exact hset i r' hold
  -- the request itself
  have hlen : i < (a.asked ++ [r]).length := (List.getElem?_eq_some_iff.mp hi).1
  rw [List.length_append, List.length_singleton] at hlen
  obtain rfl : i = a.asked.length := by omega
  obtain rfl : r = r' := Option.some.inj (List.getElem?_concat_length.symm.trans hi)
  rw [waits_receive E h, or_iff_right h.not_waits, under_receive, h.under_new, List.nil_append,
    under_map_self]
  rcases handle_answers E a.boe hr with ⟨-, hsame, m, htype, hout⟩ | ⟨co, -, -, hout, hcancel, -⟩ |
    ⟨mo, -, -, hout, -, hmodify⟩ | ⟨hsilent, -⟩
  · rw [hout, added_append, hsame.pendingCancel, hsame.pendingModify, added_self, added_self]
    refine ⟨?_, fun _ => ⟨m, rfl, htype⟩⟩
    rintro ⟨-, hne | hne⟩
    · exact absurd rfl hne
    · exact absurd rfl hne
  · rw [hout, added_self, hcancel, added_append]
    exact ⟨fun _ => rfl, fun hn => absurd ⟨rfl, .inl (List.cons_ne_nil _ _)⟩ hn⟩
  · rw [hout, added_self, hmodify, added_append]
    exact ⟨fun _ => rfl, fun hn => absurd ⟨rfl, .inr (List.cons_ne_nil _ _)⟩ hn⟩
  · exact absurd hsilent hloud

/-! ## The tick -/

/-- The answers to a request after a tick. -/
theorem under_marketLogic (a : Audit W) (i : ℕ) :
    under i (step E a .marketLogic).answers =
      under i a.answers ++ under i (cancelAnswers E a) ++ under i (modifyAnswers E a) := by
  rw [← under_append, ← under_append]
  rfl

/-- Every cancel that waits is answered. -/
theorem under_cancelAnswers {a : Audit W} (h : Recorded a) {i : ℕ}
    (hi : i ∈ a.waitingCancel.map Prod.fst) :
    ∃ m, under i (cancelAnswers E a) = [m] ∧
      (m.type = .orderCanceled ∨ m.type = .cancelRejected) := by
  obtain ⟨⟨i, co⟩, hq, rfl⟩ := List.mem_map.mp hi
  obtain ⟨pre, post, hsplit⟩ := List.append_of_mem hq
  have hfiled := h.cancels
  unfold cancelAnswers
  rw [hsplit] at hfiled ⊢
  rw [under_attributed hfiled.split.1 hfiled.split.2]
  exact added_cancelStep E _ co

/-- What a modification is answered at its turn. -/
theorem under_modifyAnswers {a : Audit W} (h : Recorded a) {pre post : List (ℕ × BoeModifyOrderReq)}
    {i : ℕ} {mo : BoeModifyOrderReq} (hsplit : a.waitingModify = pre ++ (i, mo) :: post) :
    under i (modifyAnswers E a) =
      added (passOut (Machine.run (modifyStep E) (modifyStart E a.boe) (pre.map Prod.snd)))
        (passOut (modifyStep E
          (Machine.run (modifyStep E) (modifyStart E a.boe) (pre.map Prod.snd)) mo)) := by
  have hfiled := h.modifies
  unfold modifyAnswers
  rw [hsplit] at hfiled ⊢
  exact under_attributed hfiled.split.1 hfiled.split.2

/-- At its place in the queue a modification waits if no tick has gone through it. -/
theorem waits_iff_met_le {a : Audit W} (h : Recorded a) {pre post : List (ℕ × BoeModifyOrderReq)}
    {i : ℕ} {mo : BoeModifyOrderReq} (hsplit : a.waitingModify = pre ++ (i, mo) :: post) :
    Waits a i ↔ a.met ≤ pre.length := by
  have hmem : i ∈ a.waitingModify.map Prod.fst := by
    rw [hsplit, List.map_append]
    exact List.mem_append_right _ List.mem_cons_self
  have hnotCancel : i ∉ a.waitingCancel.map Prod.fst := fun hi => h.notMem_modify hi hmem
  have hfiled := h.modifies
  rw [hsplit] at hfiled
  unfold Waits
  rw [or_iff_right hnotCancel, hsplit]
  constructor
  · intro hi
    by_contra hlt
    rw [not_le] at hlt
    -- behind the first `met` entries there are only later ones
    have hpost : ((pre ++ (i, mo) :: post).drop a.met) ⊆ post := by
      rw [List.drop_append, List.drop_of_length_le hlt.le, List.nil_append]
      obtain ⟨n, hn⟩ : ∃ n, a.met - pre.length = n + 1 := ⟨a.met - pre.length - 1, by omega⟩
      rw [hn, List.drop_succ_cons]
      exact List.drop_subset n post
    exact hfiled.split.2 (List.map_subset _ hpost hi)
  · intro hle
    rw [List.drop_append_of_le_length hle, List.map_append]
    exact List.mem_append_right _ List.mem_cons_self

/-- From a settled state a tick answers every request once exactly when its modifications find and
miss their orders as they should. -/
theorem answeredOnce_marketLogic {a : Audit W} (h : Recorded a) (hset : Settled a) :
    AnsweredOnce (step E a .marketLogic) ↔ Answerable E a .marketLogic := by
  -- a waiting request has no answer yet, and any other has one and may get no second
  constructor
  · intro honce pre mo post hqueue
    obtain ⟨qpre, qrest, hsplit, hpre, hrest⟩ :=
      List.map_eq_append_iff.mp (h.modifies.entries.trans hqueue)
    obtain ⟨⟨i, mo'⟩, qpost, rfl, hmo, -⟩ := List.map_eq_cons_iff.mp hrest
    obtain rfl : mo' = mo := hmo
    have hlen : pre.length = qpre.length := by rw [← hpre, List.length_map]
    have hmem : i ∈ a.waitingModify.map Prod.fst := by
      rw [hsplit, List.map_append]
      exact List.mem_append_right _ List.mem_cons_self
    obtain ⟨r, hr, -⟩ := h.modifies.asked i hmem
    obtain ⟨hwait, hdone⟩ := hset i r hr
    obtain ⟨m, hm, -⟩ := honce i r hr
    have hcancel : under i (cancelAnswers E a) = [] :=
      under_attributed_of_notMem fun hi => h.notMem_modify hi hmem
    rw [under_marketLogic, hcancel, List.append_nil, under_modifyAnswers E h hsplit, hpre] at hm
    rw [hlen, ← waits_iff_met_le h hsplit]
    constructor
    · intro hactive
      by_contra hnot
      obtain ⟨m', hm', -⟩ := hdone hnot
      obtain ⟨m'', hm'', -⟩ := added_modifyStep_of_mem E hactive
      rw [hm', hm''] at hm
      cases hm
    · intro hwaits
      by_contra hgone
      rw [hwait hwaits, added_modifyStep_of_notMem E hgone] at hm
      cases hm
  · intro hans i r hr
    obtain ⟨hwait, hdone⟩ := hset i r hr
    rw [under_marketLogic]
    -- a waiting cancel is answered by the cancel pass, and by no other
    by_cases hcancel : i ∈ a.waitingCancel.map Prod.fst
    · obtain ⟨m, hm, htype⟩ := under_cancelAnswers E h hcancel
      obtain ⟨co, rfl⟩ := h.cancels.kind hcancel hr
      have hmodify : under i (modifyAnswers E a) = [] :=
        under_attributed_of_notMem (h.notMem_modify hcancel)
      rw [hwait (.inl hcancel), hm, hmodify]
      exact ⟨m, rfl, by simpa [responseTypes] using htype⟩
    rw [show under i (cancelAnswers E a) = [] from under_attributed_of_notMem hcancel,
      List.append_nil]
    by_cases hmodify : i ∈ a.waitingModify.map Prod.fst
    · obtain ⟨mo', rfl⟩ := h.modifies.kind hmodify hr
      obtain ⟨⟨i, mo⟩, hq, rfl⟩ := List.mem_map.mp hmodify
      obtain ⟨qpre, qpost, hsplit⟩ := List.append_of_mem hq
      have hturn := hans (qpre.map Prod.snd) mo (qpost.map Prod.snd) (by
        rw [← h.modifies.entries, hsplit, List.map_append, List.map_cons])
      rw [List.length_map, ← waits_iff_met_le h hsplit] at hturn
      rw [under_modifyAnswers E h hsplit]
      by_cases hwaits : Waits a i
      · obtain ⟨m, hm, htype⟩ := added_modifyStep_of_mem E (hturn.mpr hwaits)
        rw [hwait hwaits, hm]
        exact ⟨m, rfl, by simp [responseTypes, htype]⟩
      · obtain ⟨m, hm, htype⟩ := hdone hwaits
        rw [hm, added_modifyStep_of_notMem E fun hactive => hwaits (hturn.mp hactive)]
        exact ⟨m, rfl, htype⟩
    · -- a request in neither queue keeps the answer it has
      have hnot : ¬ Waits a i := by
        rintro (hi | hi)
        · exact hcancel hi
        · exact hmodify (List.map_subset _ (List.drop_subset _ _) hi)
      obtain ⟨m, hm, htype⟩ := hdone hnot
      rw [hm, show under i (modifyAnswers E a) = [] from under_attributed_of_notMem hmodify]
      exact ⟨m, rfl, htype⟩

/-- After a tick nothing waits. -/
theorem settled_of_answeredOnce {a : Audit W} (h : AnsweredOnce (step E a .marketLogic)) :
    Settled (step E a .marketLogic) := by
  intro i r hr
  have hnot : ¬ Waits (step E a .marketLogic) i := by
    rintro (hi | hi)
    · exact List.not_mem_nil hi
    · have hnone : a.waitingModify.drop a.waitingModify.length = [] := List.drop_length
      rw [show (step E a .marketLogic).waitingModify.drop (step E a .marketLogic).met = [] from
        hnone] at hi
      exact List.not_mem_nil hi
  exact ⟨fun hwaits => absurd hwaits hnot, fun _ => h i r hr⟩

/-- An event that is answerable leaves every request waiting or answered once. -/
theorem settled_step {a : Audit W} (h : Recorded a) (hset : Settled a) {e : Event}
    (he : Answerable E a e) : Settled (step E a e) := by
  rcases step_cases E a e with ⟨p, r, rfl, hreq, hr, hs⟩ | rfl | ⟨-, -, s, -, hs⟩
  · rw [hs]
    exact settled_receive E h hset hr (he r hreq)
  · exact settled_of_answeredOnce E ((answeredOnce_marketLogic E h hset).mpr he)
  · rw [hs]
    exact hset

/-! ## Requests that are dropped -/

/-- The request has no answer and is in no queue. -/
structure Lost (i : ℕ) (a : Audit W) : Prop where
  asked : i < a.asked.length
  notCancel : i ∉ a.waitingCancel.map Prod.fst
  notModify : i ∉ a.waitingModify.map Prod.fst
  unanswered : under i a.answers = []

/-- A dropped request is lost. -/
theorem lost_receive {a : Audit W} (h : Recorded a) {r : Request} (hr : r.isOrder = true)
    (hsilent : Silent E a.boe r) : Lost a.asked.length (receive E a r) := by
  rcases handle_answers E a.boe hr with ⟨hloud, -⟩ | ⟨co, -, hloud, -⟩ | ⟨mo, -, hloud, -⟩ |
    ⟨-, hsame, hout⟩
  · exact absurd hsilent hloud
  · exact absurd hsilent hloud
  · exact absurd hsilent hloud
  refine ⟨?_, ?_, ?_, ?_⟩
  · show a.asked.length < (a.asked ++ [r]).length
    rw [List.length_append, List.length_singleton]
    exact Nat.lt_succ_self _
  · show a.asked.length ∉ (a.waitingCancel ++ _).map Prod.fst
    rw [hsame.pendingCancel, added_self, List.map_nil, List.append_nil]
    exact fun hi => (h.cancels.lt hi).false
  · show a.asked.length ∉ (a.waitingModify ++ _).map Prod.fst
    rw [hsame.pendingModify, added_self, List.map_nil, List.append_nil]
    exact fun hi => (h.modifies.lt hi).false
  · rw [under_receive, h.under_new, hout, added_self]
    rfl

/-- A lost request stays lost. -/
theorem Lost.step {i : ℕ} {a : Audit W} (h : Lost i a) (e : Event) : Lost i (step E a e) := by
  rcases step_cases E a e with ⟨p, r, -, -, -, hs⟩ | rfl | ⟨-, -, s, -, hs⟩
  · rw [hs]
    have hnew : ∀ {β : Type _} {ms : List β}, i ∉ (ms.map (Prod.mk a.asked.length)).map Prod.fst :=
      fun hi => h.asked.ne (mem_fst_map_mk.mp hi).1
    refine ⟨?_, ?_, ?_, ?_⟩
    · show i < (a.asked ++ [r]).length
      rw [List.length_append]
      exact h.asked.trans_le (Nat.le_add_right _ _)
    · show i ∉ (a.waitingCancel ++ _).map Prod.fst
      rw [List.map_append, List.mem_append, not_or]
      exact ⟨h.notCancel, hnew⟩
    · show i ∉ (a.waitingModify ++ _).map Prod.fst
      rw [List.map_append, List.mem_append, not_or]
      exact ⟨h.notModify, hnew⟩
    · rw [under_receive, h.unanswered, under_map_of_ne h.asked.ne']
      rfl
  · refine ⟨h.asked, List.not_mem_nil, h.notModify, ?_⟩
    rw [under_marketLogic, h.unanswered,
      show under i (cancelAnswers E a) = [] from under_attributed_of_notMem h.notCancel,
      show under i (modifyAnswers E a) = [] from under_attributed_of_notMem h.notModify]
    rfl
  · rw [hs]
    exact ⟨h.asked, h.notCancel, h.notModify, h.unanswered⟩

/-- A request that is lost is not answered once. -/
theorem Lost.not_answeredOnce {i : ℕ} {a : Audit W} (h : Lost i a) : ¬ AnsweredOnce a := by
  intro honce
  obtain ⟨m, hm, -⟩ := honce i _ (List.getElem?_eq_getElem h.asked)
  cases h.unanswered.symm.trans hm

/-! ## Runs -/

/-- After a tick every order request so far has its one answer. -/
def AnswersAll (a : Audit W) (e : Event) : Prop := e = .marketLogic → AnsweredOnce (step E a e)

/-- Every tick of a run that ends with one leaves all requests answered once exactly if every event is
answerable. -/
theorem answersAll_iff {a : Audit W} (h : Recorded a) (hset : Settled a) (es : List Event) :
    Along (step E) (AnswersAll E) a (es ++ [.marketLogic]) ↔
      Along (step E) (Answerable E) a (es ++ [.marketLogic]) := by
  induction es generalizing a with
  | nil =>
    rw [List.nil_append, along_cons, along_cons, ← answeredOnce_marketLogic E h hset]
    exact and_congr_left fun _ => ⟨fun hall => hall rfl, fun honce _ => honce⟩
  | cons e es ih =>
    rw [List.cons_append, along_cons, along_cons]
    constructor
    · rintro ⟨hall, hrest⟩
      have he : Answerable E a e := by
        rcases step_cases E a e with ⟨p, r, rfl, hreq, hr, hs⟩ | rfl | ⟨-, he, -⟩
        · intro r' hr' hsilent
          obtain rfl : r = r' := Option.some.inj (hreq.symm.trans hr')
          -- a dropped request has no answer at the last tick either
          have hlost : Lost a.asked.length (step E a (.packet p)) := by
            rw [hs]
            exact lost_receive E h hr hsilent
          have hlast := (along_append.mp hrest).2.1 rfl
          have hend := run_invariant (f := step E) (fun a e h => h.step E e) hlost es
          exact (hend.step E .marketLogic).not_answeredOnce hlast
        · exact (answeredOnce_marketLogic E h hset).mp (hall rfl)
        · exact he
      exact ⟨he, (ih (recorded_step E h e) (settled_step E h hset he)).mp hrest⟩
    · rintro ⟨he, hrest⟩
      refine ⟨?_, (ih (recorded_step E h e) (settled_step E h hset he)).mpr hrest⟩
      rintro rfl
      exact (answeredOnce_marketLogic E h hset).mpr he

/-- **Every order request is answered once** by the end of the next tick and not again later, in every
run that ends with a tick, exactly when no cancel is dropped and every modification finds its order at
the first tick after it and at no later one. -/
theorem answeredOnce_iff (w : W) (es : List Event) :
    Along (step E) (AnswersAll E) (init E w) (es ++ [.marketLogic]) ↔
      Along (step E) (Answerable E) (init E w) (es ++ [.marketLogic]) :=
  answersAll_iff E (recorded_init E w) (settled_init E w) es

/-- Two modifications of one order before a tick: the first moves it away, and the second is never
answered. -/
theorem not_answeredOnce :
    ¬ ∀ (W : Type) (E : Env W) (w : W) (es : List Event),
      Along (step E) (AnswersAll E) (init E w) (es ++ [.marketLogic]) := by
  intro h
  have hrun := h Unit quietEnv () [newPacket 'a' [100, 0, 0, 0], modifyPacket 'a' 'b' [50, 0, 0, 0],
    modifyPacket 'a' 'c' [50, 0, 0, 0]]
  have honce := (along_append.mp hrun).2.1 rfl
  obtain ⟨m, hm, -⟩ := honce 2 (.modify (.ofMem (modifyBytes 'a' 'c' [50, 0, 0, 0]))) rfl
  have hnone : (under 2 (step quietEnv (Machine.run (step quietEnv) (init quietEnv ())
      [newPacket 'a' [100, 0, 0, 0], modifyPacket 'a' 'b' [50, 0, 0, 0],
        modifyPacket 'a' 'c' [50, 0, 0, 0]]) .marketLogic).answers).length = 0 := by
    decide +kernel
  rw [hm] at hnone
  cases hnone

end Audit

end BoeSession

end Evtsim
