import Evtsim.Ouch.Visit

/-!
# Time in force in an `ouch_session`

A visit of `execution_logic` reads the clock twice: `expired` decides whether the order is cancelled for
its time, and `still_active` calls `expired` once more to decide whether it may be filled. An order whose
time runs out between the two readings goes to the finished orders with shares remaining and without a
message. `endsWell_run` says that every visit of a run finishes empty orders only, and reports what it
removes for its time, exactly when that never happens and no order that is still in time is marked dead.
-/

namespace Evtsim

open Wire Ouch Log Machine Session

namespace OuchSession

variable {W : Type} (E : Env W)

/-! ## What is to hold of a visit -/

/-- The order that a visit moves to the finished orders, if it moves one. -/
def finishes (st : Pass W) (k : Key) : Option OuchOrder :=
  (executionStep E ({ st.1 with finishedOrders := ∅ }, st.2) k).1.finishedOrders.lookup k

/-- The message reports the order of `t` as cancelled. -/
def cancels (t : Token) : Ouch.OutMsg → Bool
  | .orderCanceled m => m.token = t
  | _ => false

/-- A visit finishes an order only if nothing remains of it, and reports an order that it removes when
its time has run out. -/
structure EndsWell (st : Pass W) (k : Key) : Prop where
  finished : ∀ o ∈ finishes E st k, o.remainingQty = 0
  reported : (executionStep E st k).2 ≠ st.2 →
    ∀ o ∈ (executionStep E st k).1.activeOrders.lookup k, o.remainTimeInForce ≤ 0 →
      ∃ m ∈ added st.1.pendingOutMessages (executionStep E st k).1.pendingOutMessages,
        cancels o.token m = true

/-- An order that is in time at the first reading of the clock, and of which something remains, is in
time at the second and not marked dead. -/
def StaysInTime (st : Pass W) (k : Key) : Prop :=
  (E.gate .execution st.1.env).1 = true → ∀ o ∈ st.1.activeOrders.lookup k,
    (firstReading E st o).1 = false → o.timeInForce ≠ 0 → 0 < o.remainingQty →
      ((firstReading E st o).2.1.expired E (firstReading E st o).2.2).1 = false ∧ o.state ≠ .dead

/-- A fill finishes no order. -/
theorem constructOrderExecuted_finishedOrders (s : OuchSession W) (k : Key) (o : OuchOrder) (n : ℤ) :
    (constructOrderExecuted E s k o n).finishedOrders = s.finishedOrders := by
  unfold constructOrderExecuted
  split
  · rfl
  generalize (if n < 0 then _ else _ : ℤ × W) = r
  dsimp only
  split
  · rfl
  · rfl

/-- A visit that neither finishes the order nor removes it. -/
theorem EndsWell.of_kept {st : Pass W} {k : Key}
    (hfin : (executionStep E ({ st.1 with finishedOrders := ∅ }, st.2) k).1.finishedOrders = ∅)
    (hdone : (executionStep E st k).2 = st.2) : EndsWell E st k := by
  refine ⟨fun o ho => ?_, fun hne => absurd hdone hne⟩
  unfold finishes at ho
  rw [hfin, AList.lookup_empty] at ho
  cases ho

/-- A visit that reports the order it removes. -/
theorem EndsWell.of_reported {st : Pass W} {k : Key} {o' : OuchOrder} {m : OrderCanceled} {w : W}
    (hfin : (executionStep E ({ st.1 with finishedOrders := ∅ }, st.2) k).1.finishedOrders = ∅)
    (hs : executionStep E st k = ((st.1.withActive (st.1.activeOrders.insert k o')).emit w
      (.orderCanceled m), st.2 ++ [k])) (htoken : m.token = o'.token) : EndsWell E st k := by
  refine ⟨fun o ho => ?_, fun _ o ho _ => ⟨.orderCanceled m, ?_, ?_⟩⟩
  · unfold finishes at ho
    rw [hfin, AList.lookup_empty] at ho
    cases ho
  · rw [hs]
    show _ ∈ added st.1.pendingOutMessages (st.1.pendingOutMessages ++ [.orderCanceled m])
    rw [added_append]
    exact List.mem_singleton.mpr rfl
  · rw [hs] at ho
    have ho' : (st.1.activeOrders.insert k o').lookup k = some o := ho
    rw [AList.lookup_insert] at ho'
    cases ho'
    exact decide_eq_true htoken

/-- **A visit** of an order with no less than nothing remaining ends well exactly when the order does not
run out of time between the two readings and is not marked dead. -/
theorem endsWell_iff {st : Pass W} {k : Key}
    (hnonneg : ∀ o, st.1.activeOrders.lookup k = some o → 0 ≤ o.remainingQty) :
    EndsWell E st k ↔ StaysInTime E st k := by
  rcases ho : st.1.activeOrders.lookup k with _ | o
  · -- nothing is held under the key
    have hstep := executionStep_of_none E st ho
    have hstep' := executionStep_of_none E ({ st.1 with finishedOrders := ∅ }, st.2) ho
    refine iff_of_true (.of_kept E (by rw [hstep']) (by rw [hstep])) fun _ o ho' => ?_
    exact absurd (ho.symm.trans ho') (Option.some_ne_none o).symm
  rcases hgate : (E.gate .execution st.1.env).1 with _ | _
  · -- a closed gate passes over the order
    have hstep := executionStep_of_closed E st ho hgate
    have hstep' := executionStep_of_closed E ({ st.1 with finishedOrders := ∅ }, st.2) ho hgate
    refine iff_of_true (.of_kept E (by rw [hstep']; rfl) (by rw [hstep])) fun hopen => ?_
    exact absurd (hgate.symm.trans hopen) Bool.false_ne_true
  -- the order is held and the gate is open, so the condition is about its two readings
  have hstays : ∀ {P : Prop}, (P ↔ ((firstReading E st o).1 = false → o.timeInForce ≠ 0 →
      0 < o.remainingQty → ((firstReading E st o).2.1.expired E (firstReading E st o).2.2).1 = false ∧
        o.state ≠ .dead)) → (P ↔ StaysInTime E st k) := by
    intro P hP
    refine hP.trans ⟨fun h _ o' ho' => ?_, fun h => h hgate o ho⟩
    cases ho.symm.trans ho'
    exact h
  apply hstays
  rcases hfirst : (firstReading E st o).1 with _ | _
  case true =>
    -- timed out by the first reading, which is reported
    obtain ⟨w, m, htoken, -, hstep⟩ := executionStep_of_expired E st ho hgate hfirst
    obtain ⟨w', m', -, -, hstep'⟩ := executionStep_of_expired E
      ({ st.1 with finishedOrders := ∅ }, st.2) ho hgate hfirst
    refine iff_of_true (.of_reported E (by rw [hstep']; rfl) hstep ?_)
      fun h => absurd h.symm Bool.false_ne_true
    rw [htoken, (retimed_firstReading E st o).token]
  by_cases hioc : o.timeInForce = 0
  · refine iff_of_true ?_ fun _ hne => absurd hioc hne
    by_cases hleft : o.remainingQty = 0
    · -- removed in silence, with time remaining
      have hstep := executionStep_of_ioc_zero E st ho hgate hfirst hioc hleft
      have hstep' := executionStep_of_ioc_zero E ({ st.1 with finishedOrders := ∅ }, st.2)
        ho hgate hfirst hioc hleft
      refine ⟨fun x hx => ?_, fun _ x hx hout => ?_⟩
      · unfold finishes at hx
        rw [hstep'] at hx
        cases hx
      · rw [hstep] at hx
        have hx' : (st.1.activeOrders.insert k (firstReading E st o).2.1).lookup k = some x := hx
        rw [AList.lookup_insert] at hx'
        cases hx'
        exact absurd hout (remainTimeInForce_of_expired E hfirst)
    · -- an immediate order is reported too
      obtain ⟨w, m, htoken, -, hstep⟩ := executionStep_of_ioc E st ho hgate hfirst hioc hleft
      obtain ⟨w', m', -, -, hstep'⟩ := executionStep_of_ioc E
        ({ st.1 with finishedOrders := ∅ }, st.2) ho hgate hfirst hioc hleft
      refine .of_reported E (by rw [hstep']; rfl) hstep ?_
      rw [htoken, (retimed_firstReading E st o).token]
  have hleft : (firstReading E st o).2.1.remainingQty = o.remainingQty :=
    (retimed_firstReading E st o).remainingQty
  have hstate : (firstReading E st o).2.1.state = o.state := state_expired E o _
  rcases hsecond : (secondReading E st o).1 with _ | _
  · -- the order is finished
    have hstep := executionStep_of_inactive E st ho hgate hfirst hioc hsecond
    have hstep' := executionStep_of_inactive E ({ st.1 with finishedOrders := ∅ }, st.2)
      ho hgate hfirst hioc hsecond
    have hfin : finishes E st k = some (secondReading E st o).2.1 := by
      unfold finishes
      rw [hstep']
      exact AList.lookup_insert _
    have hleft2 : (secondReading E st o).2.1.remainingQty = o.remainingQty :=
      (retimed_secondReading E st o).remainingQty
    constructor
    · intro h _ _ hpos
      have hzero := h.finished _ hfin
      omega
    · intro h
      have hzero : o.remainingQty = 0 := by
        by_contra hne
        have hpos : 0 < o.remainingQty := lt_of_le_of_ne (hnonneg o ho) (Ne.symm hne)
        obtain ⟨hexp, hdead⟩ := h rfl hioc hpos
        have hactive : (secondReading E st o).1 = true :=
          (stillActive_of_pos E (hleft.symm ▸ hpos)).mpr ⟨hexp, hstate.symm ▸ hdead⟩
        exact Bool.false_ne_true (hsecond.symm.trans hactive)
      refine ⟨fun x hx => ?_, fun _ x hx hout => ?_⟩
      · rw [hfin] at hx
        cases hx
        exact hleft2.trans hzero
      · rw [hstep] at hx
        have hx' : (st.1.activeOrders.insert k (secondReading E st o).2.1).lookup k = some x := hx
        rw [AList.lookup_insert] at hx'
        cases hx'
        unfold secondReading at hout
        rw [stillActive_of_le E (hleft.trans hzero).le] at hout
        exact absurd hout (remainTimeInForce_of_expired E hfirst)
  · -- the order stays
    have hstep := executionStep_of_active E st ho hgate hfirst hioc hsecond
    have hstep' := executionStep_of_active E ({ st.1 with finishedOrders := ∅ }, st.2)
      ho hgate hfirst hioc hsecond
    refine iff_of_true (.of_kept E ?_ (by rw [hstep])) fun _ _ hpos => ?_
    · rw [hstep']
      exact constructOrderExecuted_finishedOrders E _ _ _ _
    · rw [← hstate]
      exact (stillActive_of_pos E (hleft.symm ▸ hpos)).mp hsecond

/-! ## No order has less than nothing remaining -/

/-- No less than nothing remains of the order. -/
def NonNeg (_ : Key) (o : OuchOrder) : Prop := 0 ≤ o.remainingQty

/-- Every step keeps the quantity of an order from going below zero. -/
theorem keptByAll_nonNeg : KeptByAll E NonNeg where
  cut n _ := Int.natCast_nonneg n
  modified hn _ := hn.le
  timed {k o} w h := by
    show 0 ≤ (o.expired E w).2.1.remainingQty
    rw [(retimed_expired E o w).remainingQty]
    exact h
  marked h := h
  filled _ hle _ := Int.sub_nonneg.mpr hle
  entered _ _ := Int.natCast_nonneg _
  replaced o ro happly := by
    rw [replaceCancels, Bool.or_eq_false_iff, decide_eq_false_iff_not,
      decide_eq_false_iff_not] at happly
    exact Int.sub_nonneg.mpr (Int.not_le.mp happly.2).le

/-- The session that `execution_logic` finds on a tick. -/
def beforeExecution (s : OuchSession W) : OuchSession W := replaceLogic E (beforeReplace E s)

/-! ## Runs -/

/-- A condition on every visit of a tick. -/
def EveryVisit (C : Pass W → Key → Prop) (s : OuchSession W) : Event → Prop
  | .marketLogic =>
    Along (executionStep E) C ((executionStart E (beforeExecution E s)).1, [])
      (executionStart E (beforeExecution E s)).2
  | _ => True

/-- **Finished means filled.** In a run every visit of `execution_logic` finishes only orders of which
nothing remains, and reports those that it removes for their time, exactly when at every visit an order
that is in time at the first reading of the clock stays so at the second and is not marked dead. -/
theorem endsWell_run (w : W) (es : List Event) :
    Along (step E) (EveryVisit E (EndsWell E)) (init E w) es ↔
      Along (step E) (EveryVisit E (StaysInTime E)) (init E w) es := by
  refine along_congr (I := fun s => Each NonNeg s.activeOrders []) (K := fun _ _ => True)
    (fun s e hs _ _ => (keptByAll_nonNeg E).step hs e) (fun s e hs _ => ?_) each_empty
    (along_of_forall fun _ _ => trivial)
  cases e with
  | marketLogic =>
    exact along_congr (I := fun st : Pass W => Each NonNeg st.1.activeOrders []) (K := fun _ _ => True)
      (fun st k hst _ _ => (keptByAll_nonNeg E).executionStep hst k)
      (fun st k hst _ => endsWell_iff E fun o ho => hst.get ho)
      ((keptByAll_nonNeg E).beforeExecution hs) (along_of_forall fun _ _ => trivial)
  | setLogger => exact Iff.rfl
  | packet p => exact Iff.rfl
  | cancelAll => exact Iff.rfl
  | disconnect => exact Iff.rfl

/-! ## A clock that goes on -/

/-- Successive readings of `time(NULL)` do not decrease: `f` is a time that no call turns back, every
reading is at least this time before the call, and at most this time after it. -/
structure NonDecreasing (E : Env W) (f : W → ℤ) : Prop where
  reading : ∀ w, f w ≤ (E.time w).1 ∧ (E.time w).1 ≤ f (E.time w).2
  gate : ∀ g w, f w ≤ f (E.gate g w).2
  executionQty : ∀ w, f w ≤ f (E.executionQty w).2
  clock : ∀ w, f w ≤ f (E.clock w).2
  now : ∀ w, f w ≤ f (E.now w).2
  rand : ∀ w, f w ≤ f (E.rand w).2
  raw : ∀ w, f w ≤ f (E.raw w).2
  rawOuchOrder : ∀ w, f w ≤ f (E.rawOuchOrder w).2
  rawBoeOrder : ∀ w, f w ≤ f (E.rawBoeOrder w).2
  visit : ∀ ks w, f w ≤ f (E.visit ks w).2

/-- Surroundings in which the clock moves on by a second at every reading. -/
def tickingEnv : Env ℤ :=
  { gate := fun _ w => (true, w)
    executionQty := fun w => (-1, w)
    time := fun w => (w, w + 1)
    clock := fun w => (0, w)
    now := fun w => (0, w)
    rand := fun w => (0, w)
    midnight := fun t => t
    raw := fun w => (fun _ => 0, w)
    rawOuchOrder := fun w => (zeroOuchOrder, w)
    rawBoeOrder := fun w => (zeroBoeOrder, w)
    visit := fun ks w => (⟨ks, List.Perm.refl ks⟩, w) }

/-- A clock that moves on by one second at every reading does not go back. -/
theorem nonDecreasing_tickingEnv : NonDecreasing tickingEnv id where
  reading w := ⟨le_refl w, Int.le_of_lt (Int.lt_succ w)⟩
  gate _ w := le_refl w
  executionQty w := le_refl w
  clock w := le_refl w
  now w := le_refl w
  rand w := le_refl w
  raw w := le_refl w
  rawOuchOrder w := le_refl w
  rawBoeOrder w := le_refl w
  visit _ w := le_refl w

/-- Buy 200 shares for `tif` seconds. -/
def enterFor (c : Char) (tif : UInt8) : Event :=
  bytesEvent ([0, 50, 85, 79] ++ tokenBytes c ++ [66, 0, 0, 0, 200] ++ List.replicate 8 65 ++
    [0, 0, 0, 1] ++ [0, 0, 0, tif] ++ List.replicate 4 65 ++ [89, 79, 78, 0, 0, 0, 0, 78, 78])

/-- With one active order the condition on all visits is one on its visit. -/
theorem EveryVisit.single {C : Pass W → Key → Prop} {s : OuchSession W} {k : Key}
    (h : EveryVisit E C s .marketLogic) (hkeys : (executionStart E (beforeExecution E s)).2 = [k]) :
    C ((executionStart E (beforeExecution E s)).1, []) k := by
  have hall : Along (executionStep E) C ((executionStart E (beforeExecution E s)).1, [])
      (executionStart E (beforeExecution E s)).2 := h
  rw [hkeys] at hall
  exact hall.1

/-- The order has a second left at the first reading of the clock and none at the second. -/
theorem not_endsWell_between :
    ¬ ∀ (W : Type) (E : Env W) (f : W → ℤ), NonDecreasing E f → ∀ (w : W) (es : List Event),
      Along (step E) (EveryVisit E (EndsWell E)) (init E w) es := by
  intro h
  have hrun := h ℤ tickingEnv id nonDecreasing_tickingEnv 0
    ((loggedIn ++ [enterFor 'a' 5]) ++ [.marketLogic])
  have hvisit := (along_append.mp hrun).2.1.single tickingEnv (k := (tokenOf 'a').str)
    (by decide +kernel)
  have hfinishes : (finishes tickingEnv ((executionStart tickingEnv (beforeExecution tickingEnv
      (Machine.run (step tickingEnv) (init tickingEnv 0) (loggedIn ++ [enterFor 'a' 5])))).1, [])
        (tokenOf 'a').str).map (fun o => o.remainingQty) = some 200 := by
    decide +kernel
  obtain ⟨o, ho, hleft⟩ := Option.map_eq_some_iff.mp hfinishes
  have hzero := hvisit.finished o ho
  rw [hleft] at hzero
  exact absurd hzero (by decide)

end OuchSession

end Evtsim
