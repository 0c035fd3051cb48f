import Evtsim.Boe.Emission

/-!
# How often a BOE order is cancelled

The member learns of an order by an `OrderAck` and of its end by an `OrderCanceled`, both for a token.
`Marked` runs a session and marks these messages in order. A token is spent when `cancel_logic` has
cancelled it since its last `OrderAck`.

`cancel_logic` erases the cancelled tokens only at the end of its pass, so that a second request of the
same tick meets the order again. Two other ways bring a spent token back into the book without an
`OrderAck`: a modification to it, and the subscript in `cancel_order`. A run that takes none of them
cancels every order at most once and rejects all further requests (`atMostOnce_run`).
-/

namespace Evtsim

open Wire Boe Machine Log Session

namespace BoeSession

variable {W : Type} (E : Env W)

/-- The beginning and the end of an order, as the member sees it. -/
inductive Mark
  | acked (k : Key)
  | cancelled (k : Key)
deriving DecidableEq

/-- What a message tells of an order. -/
def mark : OutMsg → Option Mark
  | .orderAck m => some (.acked m.token.str)
  | .orderCanceled m => some (.cancelled m.token.str)
  | _ => none

/-- The token has been acknowledged, and cancelled since it last was. -/
def Spent (marks : List Mark) (k : Key) : Prop := Since (.acked k) (.cancelled k) marks

instance (marks : List Mark) (k : Key) : Decidable (Spent marks k) :=
  inferInstanceAs (Decidable (Since _ _ _))

/-- A session with the marks of its run. -/
structure Marked (W : Type) where
  boe : BoeSession W
  marks : List Mark

namespace Marked

def init (w : W) : Marked W := { boe := BoeSession.init E w, marks := [] }

/-- One request in `cancel_logic`. -/
def turn (b : Pass W × List Mark) (co : BoeCancelOrderReq) : Pass W × List Mark :=
  let st := cancelStep E b.1 co
  (st, b.2 ++ (added b.1.1.pendingOutMessages st.1.pendingOutMessages).filterMap mark)

/-- What `cancel_logic` of a tick starts from. -/
def start (a : Marked W) : Pass W × List Mark := ((heartbeatLogic E a.boe, []), a.marks)

/-- `cancel_logic` of a tick, up to the erasures. -/
def cancelled (a : Marked W) : Pass W × List Mark :=
  Machine.run (turn E) (start E a) a.boe.pendingCancel

/-- One event. What `cancel_all` cancels is not marked. -/
def step (a : Marked W) (e : Event) : Marked W :=
  let s := BoeSession.step E a.boe e
  { boe := s
    marks :=
      match e with
      | .packet _ =>
        a.marks ++ (added a.boe.pendingOutMessages s.pendingOutMessages).filterMap mark
      | .marketLogic => (cancelled E a).2
      | _ => a.marks }

/-- The marks do not touch the session. -/
theorem run_boe (w : W) (es : List Event) :
    (Machine.run (step E) (init E w) es).boe = BoeSession.run E w es :=
  run_view (fun _ _ => rfl) (init E w) es

/-- Between one `OrderAck` for a token and the next, at most one `OrderCanceled` for it. -/
def AtMostOnce (a : Marked W) : Prop := ∀ k, OncePer (.acked k) (.cancelled k) a.marks

/-- The only new message is a rejection of a cancel of this token. -/
def Rejects (t : Token) (s s' : BoeSession W) : Prop :=
  ∃ m : CancelRejected, m.token = t ∧
    added s.pendingOutMessages s'.pendingOutMessages = [.cancelRejected m]

/-- A cancel of a spent token is rejected, on receipt and at its turn. -/
def RejectsSurplus (a : Marked W) : Event → Prop
  | .packet p => ∀ co, request p = some (.cancel co) → Spent a.marks co.origToken.str →
    Rejects co.origToken a.boe (BoeSession.step E a.boe (.packet p))
  | .marketLogic =>
    Along (turn E) (fun b co => Spent b.2 co.token.str →
      Rejects co.token b.1.1 (cancelStep E b.1 co).1) (start E a) a.boe.pendingCancel
  | _ => True

/-! ## What brings a spent token back -/

/-- A cancel of a spent token that is not active makes an entry with nothing remaining. -/
def Empty (a : Marked W) : Option Request → Prop
  | some (.cancel co) => Spent a.marks co.origToken.str → co.origToken.str ∉ a.boe.activeOrders →
    (E.boeOrder a.boe.env).1.remainingQty ≤ 0
  | _ => True

/-- A request whose token has been cancelled earlier in the pass is refused by the gate. -/
def Refused (b : Pass W × List Mark) (co : BoeCancelOrderReq) : Prop :=
  co.token.str ∈ b.1.2 → Spent b.2 co.token.str → (E.gate .cancelOrder b.1.1.env).1 = false

/-- A modification that brings an order to a spent token leaves nothing of it. -/
def Empties (marks : List Mark) (st : Pass W) (mo : BoeModifyOrderReq) : Prop :=
  ∀ o ∈ st.1.activeOrders.lookup mo.origToken.str, Spent marks mo.token.str →
    mo.token.str ≠ mo.origToken.str ∧ (mo.qty.toNat : ℤ) ≤ o.executedQty

/-- No event brings a spent token back with something remaining, and no pass cancels one twice. -/
def Regular (a : Marked W) : Event → Prop
  | .packet p => Empty E a (request p)
  | .marketLogic =>
    Along (turn E) (Refused E) (start E a) a.boe.pendingCancel ∧
      Along (modifyStep E) (Empties (cancelled E a).2) (modifyStart E a.boe) a.boe.pendingModify
  | _ => True

instance (a : Marked W) : ∀ r, Decidable (Empty E a r)
  | none => isTrue trivial
  | some (.login _) => isTrue trivial
  | some .heartbeat => isTrue trivial
  | some (.enter _) => isTrue trivial
  | some (.cancel _) => inferInstanceAs (Decidable (_ → _ → _))
  | some (.modify _) => isTrue trivial

instance (b : Pass W × List Mark) (co : BoeCancelOrderReq) : Decidable (Refused E b co) :=
  inferInstanceAs (Decidable (_ → _ → _))

instance (marks : List Mark) (st : Pass W) (mo : BoeModifyOrderReq) :
    Decidable (Empties marks st mo) :=
  inferInstanceAs (Decidable (∀ o ∈ _, _ → _))

instance (a : Marked W) : ∀ e, Decidable (Regular E a e)
  | .packet p => inferInstanceAs (Decidable (Empty E a (request p)))
  | .marketLogic => inferInstanceAs (Decidable (_ ∧ _))
  | .cancelAll => isTrue trivial
  | .disconnect => isTrue trivial

/-! ## Marks -/

section

variable {marks : List Mark} {u k : Key}

/-- A cancellation spends its token and no other. -/
theorem spent_concat_cancelled (h : Spent (marks ++ [.cancelled u]) k) : k = u ∨ Spent marks k := by
  by_cases hk : k = u
  · exact .inl hk
  · right
    have hne : Mark.cancelled u ≠ .cancelled k := fun heq => hk (Mark.cancelled.inj heq).symm
    exact (since_concat_of_ne (by simp) hne).mp h

/-- An acknowledgement restores its token and no other. -/
theorem spent_concat_acked (h : Spent (marks ++ [.acked u]) k) : k ≠ u ∧ Spent marks k := by
  have hk : k ≠ u := by
    rintro rfl
    exact not_since_concat h
  have hne : Mark.acked u ≠ .acked k := fun heq => hk (Mark.acked.inj heq).symm
  exact ⟨hk, (since_concat_of_ne hne (by simp)).mp h⟩

/-- A cancel of an order that is not spent is its one cancel since it was acknowledged. -/
theorem once_concat_cancelled (h : ∀ k, OncePer (.acked k) (.cancelled k) marks) (hu : ¬ Spent marks u)
    (k : Key) : OncePer (.acked k) (.cancelled k) (marks ++ [.cancelled u]) := by
  apply oncePer_concat (h k)
  intro heq
  rw [← Mark.cancelled.inj heq]
  exact hu

/-- An acknowledgement starts a new count. -/
theorem once_concat_acked (h : ∀ k, OncePer (.acked k) (.cancelled k) marks) (k : Key) :
    OncePer (.acked k) (.cancelled k) (marks ++ [.acked u]) :=
  oncePer_concat (h k) fun heq => by cases heq

end

/-- Nothing remains of an order that is held under a spent token. -/
def Drained (marks : List Mark) (A : KeyedMap Key BoeOrder) : Prop :=
  ∀ k, Spent marks k → ∀ o, A.lookup k = some o → o.remainingQty ≤ 0

/-! ## The passes of a tick -/

/-- A rejected cancel sends its one message. -/
theorem constructCancelRejected_eq (s : BoeSession W) (t : Token) (r : Reason) :
    ∃ w m, m.token = t ∧ constructCancelRejected E s t r = s.emit w (.cancelRejected m) :=
  ⟨_, _, rfl, rfl⟩

/-- A queued cancel that does not cancel is rejected. -/
theorem cancelStep_rejects {st : Pass W} {co : BoeCancelOrderReq} (h : ¬ Cancels E st co) :
    ∃ w m, m.token = co.token ∧ cancelStep E st co = (st.1.emit w (.cancelRejected m), st.2) := by
  unfold cancelStep
  by_cases hact : co.token.str ∈ st.1.activeOrders
  · have hgate : (E.gate .cancelOrder st.1.env).1 = false := by
      rw [← Bool.not_eq_true]
      exact fun hopen => h ⟨hact, hopen⟩
    simp only [hact, not_true_eq_false, if_false, hgate, Bool.not_false, if_true]
    exact ⟨_, _, rfl, rfl⟩
  · rw [if_pos hact]
    exact ⟨_, _, rfl, rfl⟩

/-- `cancel_logic` on its way: nothing remains under the spent tokens behind the erasures, a waiting
request for one is a second one of this pass, and no token has been cancelled twice. -/
structure InPass (b : Pass W × List Mark) (rest : List BoeCancelOrderReq) : Prop where
  drained : Drained b.2 (finishPass b.1).activeOrders
  queued : ∀ co ∈ rest, Spent b.2 co.token.str → co.token.str ∈ b.1.2
  once : ∀ k, OncePer (.acked k) (.cancelled k) b.2

/-- A turn rejects a cancel of a spent order and keeps the invariant of the pass. -/
theorem InPass.turn {b : Pass W × List Mark} {co : BoeCancelOrderReq} {rest : List BoeCancelOrderReq}
    (h : InPass b (co :: rest)) (hrefused : Refused E b co) :
    (Spent b.2 co.token.str → Rejects co.token b.1.1 (cancelStep E b.1 co).1) ∧
      InPass (Marked.turn E b co) rest := by
  have hrest : ∀ co' ∈ rest, Spent b.2 co'.token.str → co'.token.str ∈ b.1.2 :=
    fun co' hco' => h.queued co' (List.mem_cons_of_mem co hco')
  unfold Marked.turn
  by_cases hcancels : Cancels E b.1 co
  · -- the gate is open, so the token has not been spent
    have hfresh : ¬ Spent b.2 co.token.str := by
      intro hspent
      have hshut := hrefused (h.queued co List.mem_cons_self hspent) hspent
      rw [hcancels.2] at hshut
      cases hshut
    refine ⟨fun hspent => absurd hspent hfresh, ?_⟩
    rcases cancelStep_cases E b.1 co with ⟨hnot, -⟩ | ⟨-, w, m, hm, hstep⟩
    · exact absurd hcancels hnot
    have hmarks : (added b.1.1.pendingOutMessages
        (b.1.1.emit w (.orderCanceled m)).pendingOutMessages).filterMap mark =
          [.cancelled co.token.str] := by
      simp [mark, hm]
    simp only [hstep, hmarks]
    refine ⟨?_, ?_, once_concat_cancelled h.once hfresh⟩
    · intro k hk o ho
      obtain ⟨hout, ho⟩ := lookup_finishPass_eq_some.mp ho
      rw [List.mem_append, not_or, List.mem_singleton] at hout
      apply h.drained k ((spent_concat_cancelled hk).resolve_left hout.2) o
      exact lookup_finishPass_eq_some.mpr ⟨hout.1, ho⟩
    · intro co' hco' hspent
      rw [List.mem_append, List.mem_singleton]
      rcases spent_concat_cancelled hspent with heq | hold
      · exact .inr heq
      · exact .inl (hrest co' hco' hold)
  · -- gone or refused: a rejection, and nothing else happens
    obtain ⟨w, m, hm, hstep⟩ := cancelStep_rejects E hcancels
    have hmarks : (added b.1.1.pendingOutMessages
        (b.1.1.emit w (.cancelRejected m)).pendingOutMessages).filterMap mark = [] := by
      simp [mark]
    simp only [hstep, hmarks, List.append_nil]
    refine ⟨fun _ => ⟨m, hm, ?_⟩, ?_, hrest, h.once⟩
    · simp
    · exact h.drained

/-- The whole pass. -/
theorem InPass.run {b : Pass W × List Mark} {cos : List BoeCancelOrderReq} (h : InPass b cos)
    (hrefused : Along (Marked.turn E) (Refused E) b cos) :
    Along (Marked.turn E) (fun b co => Spent b.2 co.token.str →
        Rejects co.token b.1.1 (cancelStep E b.1 co).1) b cos ∧
      InPass (Machine.run (Marked.turn E) b cos) [] := by
  induction cos generalizing b with
  | nil => exact ⟨trivial, h⟩
  | cons co cos ih =>
    obtain ⟨hrejects, hnext⟩ := h.turn E hrefused.1
    obtain ⟨halong, hend⟩ := ih hnext hrefused.2
    exact ⟨⟨hrejects, halong⟩, hend⟩

/-- The marks do not touch the cancel pass. -/
theorem cancelled_fst (a : Marked W) :
    (cancelled E a).1 = Machine.run (cancelStep E) (heartbeatLogic E a.boe, []) a.boe.pendingCancel :=
  run_view (g := Prod.fst) (fun _ _ => rfl) _ _

/-- A modification keeps the spent tokens drained if it empties what it brings there. -/
theorem Drained.modifyStep {marks : List Mark} {st : Pass W} {mo : BoeModifyOrderReq}
    (h : Drained marks st.1.activeOrders) (hempties : Empties marks st mo) :
    Drained marks (BoeSession.modifyStep E st mo).1.activeOrders := by
  rcases modifyStep_cases E st mo with ⟨-, hstep⟩ | ⟨o, ho, w, A, bo, m, -, hbo, hA, hstep⟩
  · rw [hstep]
    exact h
  · rw [hstep]
    intro k hk x hx
    simp only [emit_activeOrders, withActive_activeOrders] at hx
    rw [hA] at hx
    split at hx
    · -- the key that the request brings the order to
      rename_i hnew
      obtain ⟨hne, hle⟩ := hempties o ho (hnew ▸ hk)
      obtain rfl : bo = modified o mo := (hbo.resolve_right fun h => hne h.1).2
      cases hx
      simp [modified, hle]
    split at hx
    · cases hx
    · exact h k hk x hx

/-- A modify pass that gives no shares to spent orders leaves them drained. -/
theorem Drained.modifyLogic {marks : List Mark} {s : BoeSession W} (h : Drained marks s.activeOrders)
    (hempties : Along (BoeSession.modifyStep E) (Empties marks) (s, []) s.pendingModify) :
    Drained marks (BoeSession.modifyLogic E s).activeOrders := by
  have hrun := run_of_along (I := fun st : Pass W => Drained marks st.1.activeOrders)
    (fun st mo hst hmo => hst.modifyStep E hmo) (s := (s, [])) h hempties
  intro k hk o ho
  exact hrun k hk o (lookup_finishPass_eq_some.mp ho).2

/-- An execution fills only orders of which something remains. -/
theorem Drained.executionStep {marks : List Mark} {st : Pass W} (h : Drained marks st.1.activeOrders)
    (k : Key) : Drained marks (BoeSession.executionStep E st k).1.activeOrders := by
  rcases executionStep_cases E st k with ⟨-, hs⟩ | ⟨o, ho, w, ⟨-, hs⟩ | ⟨-, hactive, hs |
    ⟨exe, m, -, -, -, -, -, hs⟩⟩ | ⟨-, -, hs⟩⟩ <;> rw [hs]
  · exact h
  · exact h
  · exact h
  · intro k' hk' x hx
    simp only [emit_activeOrders, withSeqNum_activeOrders, withActive_activeOrders,
      KeyedMap.lookup_insert] at hx
    split at hx
    · rename_i heq
      have hle := h k (heq ▸ hk') o ho
      have hpos := (BoeOrder.stillActive_iff.mp hactive).1
      omega
    · exact h k' hk' x hx
  · exact h

/-- An execution pass leaves spent orders drained. -/
theorem Drained.executionLogic {marks : List Mark} {s : BoeSession W}
    (h : Drained marks s.activeOrders) :
    Drained marks (BoeSession.executionLogic E s).activeOrders := by
  have hrun := run_invariant (f := BoeSession.executionStep E)
    (I := fun st : Pass W => Drained marks st.1.activeOrders) (fun st k hst => hst.executionStep E k)
    (s := (s.inEnv (E.visit s.activeOrders.keys s.env).2, [])) h
    (E.visit s.activeOrders.keys s.env).1.val
  intro k hk o ho
  exact hrun k hk o (lookup_finishPass_eq_some.mp ho).2

/-! ## The session -/

/-- What holds between the events: nothing remains under a spent token, no cancel of one is queued, and
no token has been cancelled twice. -/
structure Settled (a : Marked W) : Prop where
  drained : Drained a.marks a.boe.activeOrders
  queued : ∀ co ∈ a.boe.pendingCancel, ¬ Spent a.marks co.token.str
  once : AtMostOnce a

/-- A new session has no spent orders. -/
theorem settled_init (w : W) : Settled (init E w) where
  drained _ hk := absurd hk since_nil
  queued _ _ hk := absurd hk since_nil
  once _ := oncePer_nil

/-- `cancel_logic` of a tick. -/
theorem Settled.inPass {a : Marked W} (h : Settled a) : InPass (start E a) a.boe.pendingCancel where
  drained k hk o ho := by
    have hactive := (idle_heartbeatLogic E a.boe).activeOrders
    have ho' := (lookup_finishPass_eq_some.mp ho).2
    simp only [start, hactive] at ho'
    exact h.drained k hk o ho'
  queued co hco hspent := absurd hspent (h.queued co hco)
  once := h.once

/-- A regular tick rejects every surplus cancel and keeps the invariant. -/
theorem Settled.marketLogic {a : Marked W} (h : Settled a) (hreg : Regular E a .marketLogic) :
    RejectsSurplus E a .marketLogic ∧ Settled (step E a .marketLogic) := by
  obtain ⟨hrefused, hempties⟩ := hreg
  obtain ⟨hrejects, hend⟩ := (h.inPass E).run E hrefused
  refine ⟨hrejects, ?_, ?_, hend.once⟩
  · have hcancelled : Drained (cancelled E a).2 (modifyStart E a.boe).1.activeOrders := by
      have hdrained : Drained (cancelled E a).2 (finishPass (cancelled E a).1).activeOrders :=
        hend.drained
      rw [cancelled_fst, ← (idle_heartbeatLogic E a.boe).pendingCancel] at hdrained
      exact hdrained
    rw [← pendingModify_modifyStart E a.boe] at hempties
    exact (hcancelled.modifyLogic E hempties).executionLogic E
  · intro co hco
    have hnone : (step E a .marketLogic).boe.pendingCancel = [] := (marketLogic_queues E a.boe).1
    rw [hnone] at hco
    exact absurd hco List.not_mem_nil

/-- Messages that concern no order leave no mark. -/
theorem marks_of_idle {s s' : BoeSession W} (h : Idle s s') :
    (added s.pendingOutMessages s'.pendingOutMessages).filterMap mark = [] := by
  obtain ⟨ms, hout, hms⟩ := h.out
  rw [hout, added_append, List.filterMap_eq_nil_iff]
  intro m hm
  have hplain := hms m hm
  cases m <;> simp_all [isSequenced, mark]

/-- An event that leaves no mark and no new request, and brings nothing under a spent token. -/
theorem Settled.of_marks {a : Marked W} (h : Settled a) {a' : Marked W} (hmarks : a'.marks = a.marks)
    (hdrained : Drained a.marks a'.boe.activeOrders)
    (hqueue : a'.boe.pendingCancel = a.boe.pendingCancel) : Settled a' := by
  refine ⟨?_, ?_, ?_⟩
  · rw [hmarks]
    exact hdrained
  · rw [hmarks, hqueue]
    exact h.queued
  · unfold AtMostOnce
    rw [hmarks]
    exact h.once

/-- A cancel of an order with nothing remaining is rejected. -/
theorem cancelOrder_rejects {s : BoeSession W} {co : CancelOrder}
    (h : (entry E.boeOrder s co.origToken.str).remainingQty ≤ 0) :
    Rejects co.origToken s (cancelOrder E s co) := by
  have hnot : ¬ (co.origToken.str ∈ s.activeOrders ∧ 0 < s.remainingAt co.origToken.str) := by
    rw [queues_iff]
    rintro ⟨o, ho, hpos⟩
    rw [entry_of_lookup E.boeOrder ho] at h
    omega
  have hlate : (subscript E.boeOrder s co.origToken.str).remainingAt co.origToken.str ≤ 0 := by
    rw [remainingAt_subscript]
    exact h
  obtain ⟨w, hsub⟩ := subscript_eq E.boeOrder s co.origToken.str
  obtain ⟨w', m, hm, hmsg⟩ := constructCancelRejected_eq E (subscript E.boeOrder s co.origToken.str)
    co.origToken .tooLateToCancel
  unfold cancelOrder
  simp only [hnot, if_false, hlate, true_or, if_true]
  refine ⟨m, hm, ?_⟩
  rw [hmsg, hsub]
  exact added_append _ _

/-- What a cancel of a spent token finds or makes has nothing remaining. -/
theorem Settled.entry_le {a : Marked W} (h : Settled a) {co : CancelOrder}
    (hempty : Empty E a (some (.cancel co))) (hspent : Spent a.marks co.origToken.str) :
    (entry E.boeOrder a.boe co.origToken.str).remainingQty ≤ 0 := by
  rcases ho : a.boe.activeOrders.lookup co.origToken.str with _ | o
  · have hentry : entry E.boeOrder a.boe co.origToken.str = (E.boeOrder a.boe.env).1 := by
      unfold entry
      rw [ho]
    rw [hentry]
    exact hempty hspent (KeyedMap.lookup_eq_none.mp ho)
  · rw [entry_of_lookup E.boeOrder ho]
    exact h.drained _ hspent o ho

/-- The handling of one request. -/
theorem Settled.handle {a : Marked W} (h : Settled a) {r : Request} (hempty : Empty E a (some r)) :
    Settled { boe := BoeSession.handle E a.boe r
              marks := a.marks ++ (added a.boe.pendingOutMessages
                (BoeSession.handle E a.boe r).pendingOutMessages).filterMap mark } := by
  rcases handle_cases E a.boe r with ⟨hidle, -⟩ | ⟨no, w, d, m, -, -, hm, -, -, hs⟩ |
    ⟨mo, w, -, -, -, hs⟩ | ⟨co, o, -, ho, hpos, hs⟩ | ⟨co, rfl, -, hidle⟩
  · refine h.of_marks ?_ ?_ hidle.pendingCancel
    · rw [marks_of_idle hidle, List.append_nil]
    · rw [hidle.activeOrders]
      exact h.drained
  · -- an accepted order: its token is not spent any more
    rw [hs]
    have hmarks : (added a.boe.pendingOutMessages
        (((a.boe.withActive (a.boe.activeOrders.insert no.token.str (BoeOrder.parseOrder d no))).withSeqNum
          (a.boe.seqNum + 1)).emit w (.orderAck m)).pendingOutMessages).filterMap mark =
        [.acked no.token.str] := by
      simp [mark, hm]
    simp only [hmarks]
    refine ⟨?_, ?_, once_concat_acked h.once⟩
    · intro k hk o ho
      obtain ⟨hne, hold⟩ := spent_concat_acked hk
      simp only [emit_activeOrders, withSeqNum_activeOrders, withActive_activeOrders,
        KeyedMap.lookup_insert, if_neg hne] at ho
      exact h.drained k hold o ho
    · intro co hco hspent
      exact h.queued co hco (spent_concat_acked hspent).2
  · rw [hs]
    refine h.of_marks ?_ h.drained rfl
    simp
  · -- a queued cancel is for an order with something remaining
    rw [hs]
    simp only [added_self, List.filterMap_nil, List.append_nil]
    refine ⟨h.drained, ?_, h.once⟩
    intro co' hco'
    rcases List.mem_append.mp hco' with hold | hnew
    · exact h.queued co' hold
    · rw [List.mem_singleton.mp hnew]
      intro hspent
      have hle := h.drained _ hspent o ho
      omega
  · -- a cancel that is rejected on receipt, behind the subscript
    refine h.of_marks ?_ ?_ hidle.pendingCancel
    · have hnone := marks_of_idle hidle
      rw [withActive_out] at hnone
      rw [hnone, List.append_nil]
    · rw [hidle.activeOrders]
      intro k hk o ho
      by_cases hkey : k = co.origToken.str
      · subst hkey
        rw [withActive_activeOrders, lookup_touch_self E.boeOrder a.boe] at ho
        cases ho
        exact h.entry_le E hempty hk
      · rw [withActive_activeOrders, KeyedMap.lookup_touch _ _ (.inr hkey)] at ho
        exact h.drained k hk o ho

/-- A regular packet rejects a surplus cancel and keeps the invariant. -/
theorem Settled.packet {a : Marked W} (h : Settled a) {p : Mem} (hreg : Regular E a (.packet p)) :
    RejectsSurplus E a (.packet p) ∧ Settled (step E a (.packet p)) := by
  have hempty : Empty E a (request p) := hreg
  rcases step_packet E a.boe p with ⟨hnone, hs⟩ | ⟨r, hr, hs⟩
  · constructor
    · intro co hco
      rw [hnone] at hco
      cases hco
    · refine h.of_marks ?_ ?_ ?_
      · simp [step, hs]
      · simp only [step, hs]
        exact h.drained
      · simp only [step, hs]
  · rw [hr] at hempty
    constructor
    · intro co hco hspent
      obtain rfl : r = .cancel co := Option.some.inj (hr.symm.trans hco)
      rw [hs]
      exact cancelOrder_rejects E (h.entry_le E hempty hspent)
    · have hhandled := h.handle E hempty
      simp only [step, hs]
      exact hhandled

/-- Every event that brings nothing back keeps the session settled and rejects the surplus. -/
theorem Settled.step {a : Marked W} (h : Settled a) {e : Event} (hreg : Regular E a e) :
    RejectsSurplus E a e ∧ Settled (Marked.step E a e) := by
  cases e with
  | packet p => exact h.packet E hreg
  | marketLogic => exact h.marketLogic E hreg
  | cancelAll =>
    refine ⟨trivial, h.of_marks rfl ?_ (sameQueues_cancelAll E a.boe).pendingCancel⟩
    intro k _ o ho
    cases ho
  | disconnect => exact ⟨trivial, h.of_marks rfl h.drained rfl⟩

/-- **A BOE order is cancelled at most once**, and every further request for it is rejected, in every run
that brings no cancelled token back. -/
theorem atMostOnce_run (w : W) (es : List Event)
    (hreg : Along (step E) (Regular E) (init E w) es) :
    Throughout (step E) AtMostOnce (init E w) es ∧
      Along (step E) (RejectsSurplus E) (init E w) es := by
  constructor
  · exact (throughout_of_along (I := Settled) (fun a e h he => (h.step E he).2) (settled_init E w)
      hreg).imp fun a h => h.once
  · exact hreg.of_invariant (I := Settled) (fun a e h he => (h.step E he).2)
      (fun a e h he => (h.step E he).1) (settled_init E w)

/-- An order is cancelled by one tick, and a later request is rejected. -/
theorem atMostOnce_later :
    AtMostOnce (Machine.run (step quietEnv) (init quietEnv ())
      [newPacket 'a' [100, 0, 0, 0], cancelPacket 'a', .marketLogic, cancelPacket 'a', .marketLogic]) :=
  (atMostOnce_run quietEnv () _ (by decide +kernel)).1.last

/-- Two requests of one tick: both cancel the order. -/
theorem not_atMostOnce_twice :
    ¬ ∀ (W : Type) (E : Env W) (w : W) (es : List Event),
      Throughout (step E) AtMostOnce (init E w) es := by
  intro h
  have honce := (h Unit quietEnv () [newPacket 'a' [100, 0, 0, 0], cancelPacket 'a', cancelPacket 'a',
    .marketLogic]).last (tokenOf 'a').str
  have hmarks : (Machine.run (step quietEnv) (init quietEnv ()) [newPacket 'a' [100, 0, 0, 0],
      cancelPacket 'a', cancelPacket 'a', .marketLogic]).marks =
        [.acked (tokenOf 'a').str, .cancelled (tokenOf 'a').str, .cancelled (tokenOf 'a').str] := by
    decide +kernel
  rw [hmarks] at honce
  have hcount := honce [] [.cancelled (tokenOf 'a').str, .cancelled (tokenOf 'a').str] [] rfl (by simp)
  simp at hcount

end Marked

end BoeSession

end Evtsim
