import Evtsim.Boe.Steps

/-!
# Sequence numbers of a `boe_session`

An `OrderAck` and an `OrderExecution` take the next sequence number; an `OrderModified` and an
`OrderCanceled` never set theirs and send what the memory held. `numbered_run` says that the sequenced
messages of a run carry 1, 2, 3, ... as long as no step emits one of the latter two.
-/

namespace Evtsim

open Wire Boe Session

namespace BoeSession

variable {W : Type} (E : Env W)

/-- The sequence number that a sequenced message carries. -/
def seqNumOf : Boe.OutMsg → Option UInt32
  | .orderAck m => some m.header.seqNum
  | .orderModified m => some m.header.seqNum
  | .orderCanceled m => some m.header.seqNum
  | .orderExecution m => some m.header.seqNum
  | _ => none

/-- The sequence numbers sent so far, in the order of the messages. -/
def seqNums (s : BoeSession W) : List UInt32 := s.pendingOutMessages.filterMap seqNumOf

/-- 1, 2, ..., `n`, modulo 2³². -/
def countUp (n : ℕ) : List UInt32 := (List.range n).map fun i => UInt32.ofNat (i + 1)

/-- The sequenced messages carry 1, 2, 3, ... -/
def Numbered (s : BoeSession W) : Prop := seqNums s = countUp (seqNums s).length

/-- No step of the event reports a cancellation or a modification: every pending cancel is refused at
its turn, no pending modification finds its order, and `cancel_all` meets no order that is still
active. -/
def ReportsNone (s : BoeSession W) : Event → Prop
  | .marketLogic =>
    Machine.Along (cancelStep E) (fun st co => ¬ Cancels E st co) (heartbeatLogic E s, [])
        (heartbeatLogic E s).pendingCancel ∧
      ∀ mo ∈ (cancelLogic E (heartbeatLogic E s)).pendingModify,
        mo.origToken.str ∉ (cancelLogic E (heartbeatLogic E s)).activeOrders
  | .cancelAll => ∀ k o, s.activeOrders.lookup k = some o → o.stillActive = false
  | _ => True

/-! ## The counter and the messages -/

/-- The messages are numbered, and the counter is at the last number. -/
structure Counted (s : BoeSession W) : Prop where
  numbered : Numbered s
  counter : s.seqNum = UInt32.ofNat (seqNums s).length

/-- A new session has sent no number. -/
theorem counted_init (w : W) : Counted (init E w) := ⟨rfl, rfl⟩

/-- The numbers up to one more. -/
theorem countUp_succ (n : ℕ) : countUp (n + 1) = countUp n ++ [UInt32.ofNat (n + 1)] := by
  unfold countUp
  rw [List.range_succ, List.map_append]
  rfl

/-- The counter and the numbers are all that counts. -/
theorem Counted.congr {s s' : BoeSession W} (h : Counted s) (hseq : s'.seqNum = s.seqNum)
    (hout : seqNums s' = seqNums s) : Counted s' := by
  refine ⟨?_, ?_⟩
  · rw [Numbered, hout]
    exact h.numbered
  · rw [hseq, hout]
    exact h.counter

/-- A message with the next number. -/
theorem Counted.next {s s' : BoeSession W} (h : Counted s) (hseq : s'.seqNum = s.seqNum + 1)
    (hout : seqNums s' = seqNums s ++ [s.seqNum + 1]) : Counted s' := by
  have hnext : s.seqNum + 1 = UInt32.ofNat ((seqNums s).length + 1) := by
    rw [h.counter, UInt32.ofNat_add]
    rfl
  have hlen : (seqNums s').length = (seqNums s).length + 1 := by
    rw [hout, List.length_append, List.length_singleton]
  refine ⟨?_, ?_⟩
  · rw [Numbered, hlen, countUp_succ, ← h.numbered, hout, hnext]
  · rw [hlen, hseq, hnext]

/-- Steps that concern no order send no sequence number. -/
theorem seqNums_of_idle {s s' : BoeSession W} (h : Idle s s') : seqNums s' = seqNums s := by
  obtain ⟨ms, hout, hms⟩ := h.out
  have hnone : ms.filterMap seqNumOf = [] := by
    rw [List.filterMap_eq_nil_iff]
    intro m hm
    have hseq := hms m hm
    cases m <;> first | rfl | exact absurd hseq.symm Bool.false_ne_true
  unfold seqNums
  rw [hout, List.filterMap_append, hnone, List.append_nil]

/-- Steps that concern no order keep the count. -/
theorem Counted.idle {s s' : BoeSession W} (h : Counted s) (hidle : Idle s s') : Counted s' :=
  h.congr hidle.own (seqNums_of_idle hidle)

/-- A cancel that is rejected keeps the count. -/
theorem counted_cancelStep {st : Pass W} {co : BoeCancelOrderReq} (h : Counted st.1)
    (hco : ¬ Cancels E st co) : Counted (cancelStep E st co).1 := by
  rcases cancelStep_cases E st co with ⟨-, w, m, hs⟩ | ⟨hcancels, -⟩
  · rw [hs]
    exact h.idle (idle_emit st.1 w rfl)
  · exact absurd hcancels hco

/-- A visit keeps the count. -/
theorem counted_executionStep {st : Pass W} (h : Counted st.1) (k : Key) :
    Counted (executionStep E st k).1 := by
  rcases executionStep_cases E st k with ⟨-, hs⟩ | ⟨o, -, w, ⟨-, hs⟩ | ⟨-, -, hs | ⟨exe, m, -, -, -, -,
    hseq, hs⟩⟩ | ⟨-, -, hs⟩⟩ <;> rw [hs]
  · exact h
  · exact h.congr rfl rfl
  · exact h.congr rfl rfl
  · refine h.next rfl ?_
    rw [seqNums, emit_out, List.filterMap_append]
    exact congrArg (fun n => seqNums st.1 ++ [n]) hseq
  · exact h.congr rfl rfl

/-- A batch of modifications none of which finds its order changes nothing. -/
theorem run_modifyStep_of_unknown {st : Pass W} {mos : List BoeModifyOrderReq}
    (h : ∀ mo ∈ mos, mo.origToken.str ∉ st.1.activeOrders) :
    Machine.run (modifyStep E) st mos = st := by
  induction mos with
  | nil => rfl
  | cons mo mos ih =>
    have hsame : modifyStep E st mo = st := by
      rcases modifyStep_cases E st mo with ⟨-, hs⟩ | ⟨o, ho, -⟩
      · exact hs
      · exact absurd (KeyedMap.mem_of_lookup ho) (h mo List.mem_cons_self)
    rw [Machine.run_cons, hsame]
    exact ih fun mo' hmo' => h mo' (List.mem_cons_of_mem mo hmo')

/-! ## Runs -/

/-- A tick that reports no cancel and no modification keeps the count. -/
theorem counted_marketLogic {s : BoeSession W} (h : Counted s)
    (hs : ReportsNone E s .marketLogic) : Counted (marketLogic E s) := by
  obtain ⟨hcancel, hmodify⟩ := hs
  have hbeat := h.idle (idle_heartbeatLogic E s)
  have hcancelled : Counted (cancelLogic E (heartbeatLogic E s)) := by
    have hrun := Machine.run_of_along (I := fun st : Pass W => Counted st.1)
      (fun st co hst hco => counted_cancelStep E hst hco) hbeat hcancel
    exact hrun.congr rfl rfl
  have hmodified : Counted (modifyLogic E (cancelLogic E (heartbeatLogic E s))) := by
    unfold modifyLogic Session.modifyLogic
    rw [run_modifyStep_of_unknown E hmodify]
    exact hcancelled.congr rfl rfl
  have hrun := Machine.run_invariant (f := executionStep E) (I := fun st : Pass W => Counted st.1)
    (fun st k hst => counted_executionStep E hst k)
    (s := ((modifyLogic E (cancelLogic E (heartbeatLogic E s))).inEnv (E.visit
      (modifyLogic E (cancelLogic E (heartbeatLogic E s))).activeOrders.keys
      (modifyLogic E (cancelLogic E (heartbeatLogic E s))).env).2, []))
    (hmodified.congr rfl rfl) (E.visit
      (modifyLogic E (cancelLogic E (heartbeatLogic E s))).activeOrders.keys
      (modifyLogic E (cancelLogic E (heartbeatLogic E s))).env).1.val
  exact hrun.congr rfl rfl

/-- A packet keeps the count. -/
theorem counted_packet {s : BoeSession W} (h : Counted s) (p : Mem) :
    Counted (step E s (.packet p)) := by
  rcases step_packet E s p with ⟨-, hs⟩ | ⟨r, -, hs⟩
  · rw [hs]
    exact h
  rw [hs]
  rcases handle_cases E s r with ⟨hidle, -⟩ | ⟨no, w, d, m, -, -, -, -, hseq, hs⟩ |
    ⟨mo, w, -, -, -, hs⟩ | ⟨co, o, -, -, -, hs⟩ | ⟨co, -, -, hidle⟩
  · exact h.idle hidle
  · rw [hs]
    refine h.next rfl ?_
    rw [seqNums, emit_out, List.filterMap_append]
    exact congrArg (fun n => seqNums s ++ [n]) hseq
  · rw [hs]
    exact h.congr rfl rfl
  · rw [hs]
    exact h.congr rfl rfl
  · have hentry : Counted (s.withActive (KeyedMap.touch co.origToken.str
        (entry E.boeOrder s co.origToken.str) s.activeOrders)) := h.congr rfl rfl
    exact hentry.idle hidle

/-- A `cancel_all` that reports nothing keeps the count. -/
theorem counted_cancelAll {s : BoeSession W} (h : Counted s)
    (hs : ReportsNone E s .cancelAll) : Counted (cancelAll E s).1 := by
  have hrun := Machine.run_invariant (f := cancelAllStep E)
    (I := fun st : BoeSession W × ℕ => Counted st.1 ∧ st.1.activeOrders = s.activeOrders) (by
      rintro st k ⟨hst, hact⟩
      rcases cancelAllStep_cases E st k with ⟨-, hs'⟩ | ⟨o, ho, hactive, -⟩
      · rw [hs']
        exact ⟨hst, hact⟩
      · rw [hact] at ho
        exact absurd ((hs k o ho).symm.trans hactive) Bool.false_ne_true)
    (s := (s.inEnv (E.visit s.activeOrders.keys s.env).2, 0))
    ⟨h.congr rfl rfl, rfl⟩ (E.visit s.activeOrders.keys s.env).1.val
  exact hrun.1.congr rfl rfl

/-- **Sequence numbers without a gap**, whatever the memory holds, in every run in which no step
reports a cancellation or a modification. -/
theorem numbered_run (w : W) (es : List Event)
    (hes : Machine.Along (step E) (ReportsNone E) (init E w) es) :
    Machine.Throughout (step E) Numbered (init E w) es := by
  refine (Machine.throughout_of_along (I := Counted) ?_ (counted_init E w) hes).imp
    fun s h => h.numbered
  intro s e h he
  cases e with
  | packet p => exact counted_packet E h p
  | marketLogic => exact counted_marketLogic E h he
  | cancelAll => exact counted_cancelAll E h he
  | disconnect => exact h.congr rfl rfl

/-- Two orders and their executions. -/
theorem numbered_two_orders :
    Machine.Throughout (step quietEnv) Numbered (init quietEnv ())
      [newPacket 'a' [200, 0, 0, 0], newPacket 'b' [100, 0, 0, 0], .marketLogic, .marketLogic] := by
  refine numbered_run quietEnv () _ ⟨trivial, trivial, ⟨?_, ?_⟩, ⟨?_, ?_⟩, trivial⟩
  all_goals decide +kernel

/-- An `OrderCanceled` in zeroed memory carries 0. -/
theorem not_numbered_cancelled :
    ¬ ∀ (W : Type) (E : Env W) (w : W) (es : List Event), Numbered (run E w es) := by
  intro h
  have hrun := h Unit quietEnv () [newPacket 'a' [200, 0, 0, 0], cancelPacket 'a', .marketLogic]
  revert hrun
  unfold Numbered
  decide +kernel

end BoeSession

end Evtsim
