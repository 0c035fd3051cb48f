import Evtsim.Ouch.Expiry
import Evtsim.Ouch.Ledger
import Evtsim.Ouch.Emission

/-!
# The execution pass of an `ouch_session`, order by order

Every active order is visited once, and the visits to the others leave its entries and the messages about
it alone; so a pass does to an order what a single visit does (`executionLogic_at`). `fate` lists what
this can be. `fillsUp` follows an order that nothing disturbs over ticks: each tick fills at least a
hundred shares or what remains, and the tick after the last fill finishes the order.
-/

namespace Evtsim

open Wire Session

/-- No shares have moved. -/
structure SameShares (o o' : Order) : Prop where
  remainingQty : o'.remainingQty = o.remainingQty
  executedQty : o'.executedQty = o.executedQty

/-- One fill of `n` shares. -/
structure FillOf (n : ℕ) (o o' : Order) : Prop where
  one_le : 1 ≤ n
  le_remainingQty : (n : ℤ) ≤ o.remainingQty
  executedQty : o'.executedQty = o.executedQty + n
  total : o'.executedQty + o'.remainingQty = o.executedQty + o.remainingQty
  nonneg : 0 ≤ o'.remainingQty

/-- Shares move by a fill. -/
theorem fillOf_min {o o' : Order} {exe : ℤ} (h0 : 0 < exe) (hle : exe ≤ o.remainingQty)
    (hbound : o.remainingQty < 2 ^ 32) (hrem : o'.remainingQty = o.remainingQty - exe)
    (hexe : o'.executedQty = o.executedQty + exe) : FillOf (UInt32.ofInt exe).toNat o o' := by
  have hfits : ((UInt32.ofInt exe).toNat : ℤ) = exe := toNat_ofInt h0.le (by omega)
  refine ⟨by omega, by omega, by omega, by omega, by omega⟩

namespace OuchSession

open Ouch Log Machine

variable {W : Type} (E : Env W)

/-! ## One order in a pass -/

/-- A visit shows nothing under other keys. -/
theorem viewAt_executionStep {st : Pass W} {k k' : Key} (hk : Keyed st.1.activeOrders [])
    (hne : k' ≠ k) : viewAt about k (executionStep E st k') = viewAt about k st := by
  have hother : ∀ (m : Ouch.OutMsg) {o : OuchOrder} {t : Token}, st.1.activeOrders.lookup k' = some o →
      t = o.token → about m = some t.str → mentioning about k (st.1.pendingOutMessages ++ [m]) =
        mentioning about k st.1.pendingOutMessages := by
    intro m o t ho ht habout
    refine mentioning_concat_of_ne (fun heq => hne ?_) _
    have hkey : o.token.str = k' := (hk k' o ho).resolve_right List.not_mem_nil
    rw [habout, ht, hkey] at heq
    exact Option.some.inj heq
  rw [viewAt_eq_iff]
  rcases executionStep_cases E st k' with ⟨-, hs⟩ | ⟨o, ho, ⟨-, w, hs⟩ | ⟨o', w, -, ⟨m, hm, -, hs⟩ |
    ⟨-, hs⟩ | ⟨exe, m, -, -, hm, -, hs⟩ | hs | hs⟩⟩ <;> rw [hs]
  · exact ⟨rfl, rfl, Iff.rfl, rfl⟩
  · exact ⟨rfl, rfl, Iff.rfl, rfl⟩
  · exact ⟨AList.lookup_insert_ne hne.symm, rfl, KeyedMap.mem_append_of_ne hne,
      hother (.orderCanceled m) ho hm rfl⟩
  · exact ⟨AList.lookup_insert_ne hne.symm, rfl, KeyedMap.mem_append_of_ne hne, rfl⟩
  · exact ⟨AList.lookup_insert_ne hne.symm, rfl, Iff.rfl, hother (.executed m) ho hm rfl⟩
  · exact ⟨AList.lookup_insert_ne hne.symm, rfl, Iff.rfl, rfl⟩
  · exact ⟨AList.lookup_insert_ne hne.symm, AList.lookup_insert_ne hne.symm,
      KeyedMap.mem_append_of_ne hne, rfl⟩

/-- An execution pass does to an active order what one visit does. -/
theorem executionLogic_at {s : OuchSession W} (hk : Keyed s.activeOrders []) {k : Key}
    (hmem : k ∈ s.activeOrders) :
    ∃ st : Pass W, viewAt about k st = viewAt about k (s, []) ∧
      viewAt about k (executionLogic E s, []) =
        viewAt about k (finishPass (executionStep E st k), []) :=
  Session.executionLogic_at E (I := fun m => Keyed m []) (fun _ k h => keyed_executionStep E h k)
    (fun _ _ _ h hne => viewAt_executionStep E h hne) hk hmem

/-- Nothing happens under a key that is not active. -/
theorem executionLogic_at_of_notMem {s : OuchSession W} (hk : Keyed s.activeOrders []) {k : Key}
    (hmem : k ∉ s.activeOrders) : viewAt about k (executionLogic E s, []) = viewAt about k (s, []) :=
  Session.executionLogic_at_of_notMem E (I := fun m => Keyed m []) (fun _ k h => keyed_executionStep E h k)
    (fun _ _ _ h hne => viewAt_executionStep E h hne) hk hmem

/-! ## The fate of an order -/

/-- What an execution pass makes of an active order `o`, when `fin` is finished under its key before:
the orders under its key afterwards, and the messages about it. -/
inductive Fate (o : OuchOrder) (fin : Option OuchOrder) (act' fin' : Option OuchOrder)
    (ms : List Ouch.OutMsg) : Prop
  | stays (o' : OuchOrder) (hact : act' = some o') (hfin : fin' = fin) (hms : ms = [])
    (hsame : SameShares o.toOrder o'.toOrder)
  | filled (o' : OuchOrder) (m : Executed) (hact : act' = some o') (hfin : fin' = fin)
    (hms : ms = [.executed m]) (hfill : FillOf m.executedQty.toNat o.toOrder o'.toOrder)
  | finished (o' : OuchOrder) (hact : act' = none) (hfin : fin' = some o') (hms : ms = [])
    (hioc : o.timeInForce ≠ 0) (hsame : SameShares o.toOrder o'.toOrder)
  | cancelled (m : OrderCanceled) (hact : act' = none) (hfin : fin' = fin)
    (hms : ms = [.orderCanceled m]) (hdec : (m.decrementQty.toNat : ℤ) = o.remainingQty)
  | dropped (hact : act' = none) (hfin : fin' = fin) (hms : ms = []) (hioc : o.timeInForce = 0)
    (hleft : o.remainingQty = 0)

/-- A fill takes shares from the order and reports as many, or does nothing. -/
theorem constructOrderExecuted_fate (s : OuchSession W) {k : Key} {o : OuchOrder}
    (hs : s.activeOrders.lookup k = some o) (hk : o.token.str = k) (hpos : 0 < o.remainingQty)
    (hbound : o.remainingQty < 2 ^ 32) :
    ∃ o' ms, (constructOrderExecuted E s k o (-1)).activeOrders.lookup k = some o' ∧
      (constructOrderExecuted E s k o (-1)).finishedOrders = s.finishedOrders ∧
      mentioning about k (constructOrderExecuted E s k o (-1)).pendingOutMessages =
        mentioning about k s.pendingOutMessages ++ ms ∧
      ((ms = [] ∧ SameShares o.toOrder o'.toOrder) ∨
        ∃ m : Executed, ms = [.executed m] ∧ FillOf m.executedQty.toNat o.toOrder o'.toOrder) := by
  rcases constructOrderExecuted_cases E s k hpos with ⟨w, h⟩ | ⟨exe, w, m, h0, hle, htoken, hqty, h⟩
  · rw [h]
    exact ⟨o, [], hs, rfl, (List.append_nil _).symm, .inl ⟨rfl, rfl, rfl⟩⟩
  · rw [h]
    have habout : about (.executed m) = some k := congrArg some ((congrArg TokenOf.str htoken).trans hk)
    refine ⟨_, [.executed m], AList.lookup_insert _, rfl, ?_, .inr ⟨m, rfl, ?_⟩⟩
    · exact mentioning_concat_of_eq habout _
    · rw [hqty]
      exact fillOf_min h0 hle hbound rfl rfl

/-- What a visit makes of an order. -/
theorem fate_visit {st : Pass W} {k : Key} {o : OuchOrder} (ho : st.1.activeOrders.lookup k = some o)
    (hk : o.token.str = k) (hdone : k ∉ st.2) (h0 : 0 ≤ o.remainingQty)
    (hbound : o.remainingQty ≤ 1000000) :
    ∃ ms, mentioning about k (executionStep E st k).1.pendingOutMessages =
        mentioning about k st.1.pendingOutMessages ++ ms ∧
      Fate o (st.1.finishedOrders.lookup k)
        ((finishPass (executionStep E st k)).activeOrders.lookup k)
        ((executionStep E st k).1.finishedOrders.lookup k) ms := by
  have hlast : ∀ {s' : OuchSession W},
      (finishPass (s', st.2 ++ [k])).activeOrders.lookup k = none := fun {s'} =>
    lookup_finishPass_of_mem (List.mem_append_right _ List.mem_cons_self)
  -- an order that has timed out and an immediate one are cancelled alike
  have hcancel : ∀ {w : W} {m : OrderCanceled} {o' : OuchOrder}, m.token = o.token →
      m.decrementQty = UInt32.ofInt o.remainingQty → executionStep E st k =
        ((st.1.withActive (st.1.activeOrders.insert k o')).emit w (.orderCanceled m), st.2 ++ [k]) →
      ∃ ms, mentioning about k (executionStep E st k).1.pendingOutMessages =
          mentioning about k st.1.pendingOutMessages ++ ms ∧
        Fate o (st.1.finishedOrders.lookup k)
          ((finishPass (executionStep E st k)).activeOrders.lookup k)
          ((executionStep E st k).1.finishedOrders.lookup k) ms := by
    intro w m o' htoken hdec hs
    have habout : about (.orderCanceled m) = some k :=
      congrArg some ((congrArg TokenOf.str htoken).trans hk)
    refine ⟨[.orderCanceled m], ?_, .cancelled m ?_ ?_ rfl ?_⟩
    · rw [hs]
      exact mentioning_concat_of_eq habout _
    · rw [hs]
      exact hlast
    · rw [hs]
      rfl
    · rw [hdec]
      exact toNat_ofInt h0 (by omega)
  rcases hgate : (E.gate .execution st.1.env).1 with _ | _
  · -- the gate is closed
    have hs := executionStep_of_closed E st ho hgate
    refine ⟨[], ?_, .stays o ?_ ?_ rfl ⟨rfl, rfl⟩⟩
    · rw [hs]
      exact (List.append_nil _).symm
    · rw [hs]
      exact lookup_finishPass_of_some hdone ho
    · rw [hs]
      rfl
  rcases hfirst : (firstReading E st o).1 with _ | _
  case true =>
    obtain ⟨w, m, htoken, hdec, hs⟩ := executionStep_of_expired E st ho hgate hfirst
    exact hcancel htoken hdec hs
  by_cases hioc : o.timeInForce = 0
  · by_cases hleft : o.remainingQty = 0
    · -- collected with nothing left
      have hs := executionStep_of_ioc_zero E st ho hgate hfirst hioc hleft
      refine ⟨[], ?_, .dropped ?_ ?_ rfl hioc hleft⟩
      · rw [hs]
        exact (List.append_nil _).symm
      · rw [hs]
        exact hlast
      · rw [hs]
        rfl
    · obtain ⟨w, m, htoken, hdec, hs⟩ := executionStep_of_ioc E st ho hgate hfirst hioc hleft
      exact hcancel htoken hdec hs
  have hretimed := retimed_secondReading E st o
  rcases hsecond : (secondReading E st o).1 with _ | _
  · -- moved to the finished orders
    have hs := executionStep_of_inactive E st ho hgate hfirst hioc hsecond
    refine ⟨[], ?_, .finished (secondReading E st o).2.1 ?_ ?_ rfl hioc ?_⟩
    · rw [hs]
      exact (List.append_nil _).symm
    · rw [hs]
      exact hlast
    · rw [hs]
      exact AList.lookup_insert _
    · obtain ⟨r, x, hx⟩ := hretimed
      rw [hx]
      exact ⟨rfl, rfl⟩
  · -- filled, or left as it is when the execution is blocked
    have hs := executionStep_of_active E st ho hgate hfirst hioc hsecond
    have hpos : 0 < (secondReading E st o).2.1.remainingQty := by
      rw [hretimed.remainingQty, ← (retimed_firstReading E st o).remainingQty]
      exact OuchOrder.remainingQty_pos_of_stillActive hsecond
    obtain ⟨o', ms, hact, hfin, hms, hcase⟩ := constructOrderExecuted_fate E
      ((st.1.withActive (st.1.activeOrders.insert k (secondReading E st o).2.1)).inEnv
        (secondReading E st o).2.2) (AList.lookup_insert _) (hretimed.token ▸ hk) hpos
      (by rw [hretimed.remainingQty]; omega)
    have hend : (finishPass (executionStep E st k)).activeOrders.lookup k = some o' := by
      rw [hs]
      exact lookup_finishPass_of_some hdone hact
    have hsamefin : (executionStep E st k).1.finishedOrders.lookup k = st.1.finishedOrders.lookup k := by
      rw [hs]
      exact congrArg (fun m : KeyedMap Key OuchOrder => m.lookup k) hfin
    have hmentions : mentioning about k (executionStep E st k).1.pendingOutMessages =
        mentioning about k st.1.pendingOutMessages ++ ms := by
      rw [hs]
      exact hms
    obtain ⟨r, x, hx⟩ := hretimed
    rw [hx] at hcase
    rcases hcase with ⟨rfl, hsame⟩ | ⟨m, rfl, hfill⟩
    · exact ⟨[], hmentions, .stays o' hend hsamefin rfl ⟨hsame.1, hsame.2⟩⟩
    · exact ⟨[.executed m], hmentions, .filled o' m hend hsamefin rfl
        ⟨hfill.1, hfill.2, hfill.3, hfill.4, hfill.5⟩⟩

/-- Orders under their own tokens are keyed, with nothing collected. -/
theorem keyed_of_keysAgree {m : KeyedMap Key OuchOrder} (h : KeysAgree m) : Keyed m [] :=
  fun k o ho => .inl (h k o ho).symm

/-- **An execution pass** gives every active order one of the five fates. -/
theorem fate {s : OuchSession W} (hk : KeysAgree s.activeOrders) {k : Key} {o : OuchOrder}
    (ho : s.activeOrders.lookup k = some o) (h0 : 0 ≤ o.remainingQty)
    (hbound : o.remainingQty ≤ 1000000) :
    Fate o (s.finishedOrders.lookup k) ((executionLogic E s).activeOrders.lookup k)
      ((executionLogic E s).finishedOrders.lookup k)
      (mentioning about k (added s.pendingOutMessages (executionLogic E s).pendingOutMessages)) := by
  obtain ⟨st, hsame, hrun⟩ := executionLogic_at E (keyed_of_keysAgree hk) (KeyedMap.mem_of_lookup ho)
  obtain ⟨hact, hfin, hdone, hout⟩ := viewAt_eq_iff.mp hsame
  obtain ⟨hact', hfin', -, hout'⟩ := viewAt_eq_iff.mp hrun
  obtain ⟨ms, hms, hfate⟩ := fate_visit E (hact.trans ho) (hk k o ho).symm
    (fun h => List.not_mem_nil (hdone.mp h)) h0 hbound
  have hall : mentioning about k (executionLogic E s).pendingOutMessages =
      mentioning about k s.pendingOutMessages ++ ms := by
    rw [← hout]
    exact hout'.trans hms
  have hend : (executionLogic E s).activeOrders.lookup k =
      (finishPass (executionStep E st k)).activeOrders.lookup k := hact'
  have hfinished : (executionLogic E s).finishedOrders.lookup k =
      (executionStep E st k).1.finishedOrders.lookup k := hfin'
  have hbefore : st.1.finishedOrders.lookup k = s.finishedOrders.lookup k := hfin
  rw [(emits_executionLogic E s).mentioning_added hall, hend, hfinished, ← hbefore]
  exact hfate

/-- Nothing is made of a key under which nothing is active. -/
theorem executionLogic_elsewhere {s : OuchSession W} (hk : KeysAgree s.activeOrders) {k : Key}
    (hmem : k ∉ s.activeOrders) :
    k ∉ (executionLogic E s).activeOrders ∧
      (executionLogic E s).finishedOrders.lookup k = s.finishedOrders.lookup k ∧
      mentioning about k (added s.pendingOutMessages (executionLogic E s).pendingOutMessages) = [] := by
  obtain ⟨hact, hfin, -, hout⟩ :=
    viewAt_eq_iff.mp (executionLogic_at_of_notMem E (keyed_of_keysAgree hk) hmem)
  refine ⟨?_, hfin, ?_⟩
  · rw [← KeyedMap.lookup_eq_none]
    exact hact.trans (KeyedMap.lookup_eq_none.mpr hmem)
  · exact (emits_executionLogic E s).mentioning_added (hout.trans (List.append_nil _).symm)

/-- Between `s` and `s'` shares move: every active order has one of the five fates, and nothing else
happens. -/
abbrev MovesShares (s s' : OuchSession W) : Prop := Session.MovesShares about Fate s s'

/-! ## An undisturbed order -/

/-- Neither the clock nor a least execution keeps the order from being filled. -/
structure Undisturbed (o : OuchOrder) : Prop where
  timeInForce : o.timeInForce = TimeInForce.market ∨ o.timeInForce = TimeInForce.system
  remainTimeInForce : ¬ o.remainTimeInForce ≤ 0
  minQty : o.minQty = 0
  state : o.state ≠ .dead

variable {o : OuchOrder}

/-- The time of an undisturbed order is never up. -/
theorem Undisturbed.expired (h : Undisturbed o) (w : W) : o.expired E w = (false, o, w) := by
  have hcount : o.countsDown = false := by
    unfold OuchOrder.countsDown
    rcases h.timeInForce with htif | htif <;> rw [htif] <;> rfl
  unfold OuchOrder.expired
  rw [hcount, if_neg Bool.false_ne_true, decide_eq_false h.remainTimeInForce]

/-- An undisturbed order is no immediate one. -/
theorem Undisturbed.notIoc (h : Undisturbed o) : o.timeInForce ≠ 0 := by
  rcases h.timeInForce with htif | htif <;> rw [htif] <;> decide

/-- An undisturbed order is active as long as something remains. -/
theorem Undisturbed.stillActive (h : Undisturbed o) (hpos : 0 < o.remainingQty) (w : W) :
    o.stillActive E w = (true, o, w) := by
  have hstate : ¬ (false || decide (o.state = .dead)) = true := by
    rw [Bool.false_or, decide_eq_true_eq]
    exact h.state
  unfold OuchOrder.stillActive
  rw [if_neg (Int.not_le.mpr hpos)]
  simp only [h.expired E w]
  exact if_neg (by simpa using hstate)

/-- A fill by a random lot: at least a hundred shares, or all that remain. -/
theorem constructOrderExecuted_lot (s : OuchSession W) (k : Key) (hmin : o.minQty = 0) :
    ∃ exe w m, min 100 o.remainingQty ≤ exe ∧ exe ≤ o.remainingQty ∧ m.token = o.token ∧
      m.executedQty = UInt32.ofInt exe ∧
      constructOrderExecuted E s k o (-1) =
        (s.withActive (s.activeOrders.insert k
          { o with
            remainingQty := o.remainingQty - exe
            executedQty := o.executedQty + exe })).emit w (.executed m) := by
  rcases constructOrderExecuted_drawn E s k o with ⟨hno, -⟩ | ⟨-, w, m, htoken, hqty, -, h⟩
  · exact absurd hmin hno.1
  · refine ⟨drawn E s o, w, m, ?_, min_le_right _ _, htoken, hqty, h⟩
    exact min_le_min_right _ (by omega)

/-- A visit fills an undisturbed order. -/
theorem executionStep_fills {st : Pass W} {k : Key} (hu : Undisturbed o)
    (ho : st.1.activeOrders.lookup k = some o) (hgate : (E.gate .execution st.1.env).1 = true)
    (hpos : 0 < o.remainingQty) :
    ∃ exe w m, min 100 o.remainingQty ≤ exe ∧ exe ≤ o.remainingQty ∧ m.token = o.token ∧
      m.executedQty = UInt32.ofInt exe ∧ executionStep E st k =
        ((st.1.withActive (st.1.activeOrders.insert k
          { o with
            remainingQty := o.remainingQty - exe
            executedQty := o.executedQty + exe })).emit w (.executed m), st.2) := by
  have hfirst : firstReading E st o = (false, o, (E.gate .execution st.1.env).2) := hu.expired E _
  have hsecond : secondReading E st o = (true, o, (E.gate .execution st.1.env).2) := by
    unfold secondReading
    rw [hfirst]
    exact hu.stillActive E hpos _
  have hs := executionStep_of_active E st ho hgate (by rw [hfirst]) hu.notIoc (by rw [hsecond])
  rw [hsecond] at hs
  obtain ⟨exe, w, m, hlot, hle, htoken, hqty, hexe⟩ := constructOrderExecuted_lot E
    ((st.1.withActive (st.1.activeOrders.insert k o)).inEnv (E.gate .execution st.1.env).2) k hu.minQty
  refine ⟨exe, w, m, hlot, hle, htoken, hqty, ?_⟩
  rw [hs, hexe, inEnv_activeOrders, withActive_activeOrders, AList.insert_insert]
  rfl

/-- A visit finishes an undisturbed order of which nothing remains. -/
theorem executionStep_finishes {st : Pass W} {k : Key} (hu : Undisturbed o)
    (ho : st.1.activeOrders.lookup k = some o) (hgate : (E.gate .execution st.1.env).1 = true)
    (hzero : o.remainingQty = 0) :
    ∃ w, executionStep E st k =
      ({ (st.1.withActive (st.1.activeOrders.insert k { o with state := .dead })).inEnv w with
          finishedOrders := st.1.finishedOrders.insert k { o with state := .dead } }, st.2 ++ [k]) := by
  have hfirst : firstReading E st o = (false, o, (E.gate .execution st.1.env).2) := hu.expired E _
  have hsecond : secondReading E st o =
      (false, { o with state := .dead }, (E.gate .execution st.1.env).2) := by
    unfold secondReading
    rw [hfirst]
    exact stillActive_of_le E hzero.le
  have hs := executionStep_of_inactive E st ho hgate (by rw [hfirst]) hu.notIoc (by rw [hsecond])
  rw [hsecond] at hs
  exact ⟨_, hs⟩

/-! ## A quiet tick -/

/-- The orders are held under their tokens, and no request is pending. -/
structure NothingPending (s : OuchSession W) : Prop where
  keyed : Keyed s.activeOrders []
  pendingCancel : s.pendingCancel = []
  pendingModify : s.pendingModify = []
  pendingReplace : s.pendingReplace = []

/-- Steps that concern no order mention none. -/
theorem mentioning_of_idle {s s' : OuchSession W} (h : Idle s s') (k : Key) :
    mentioning about k s'.pendingOutMessages = mentioning about k s.pendingOutMessages := by
  have hgrow : Appends (fun m => isReport m = false) s.pendingOutMessages s'.pendingOutMessages := h.out
  apply hgrow.mentioning
  intro m hm
  rw [about_of_not_report hm]
  exact (Option.some_ne_none k).symm

/-- With nothing pending, the passes before the last show nothing. -/
theorem viewAt_beforeExecution {s : OuchSession W} (h : NothingPending s) (k : Key) :
    viewAt about k (beforeExecution E s, []) = viewAt about k (s, []) := by
  have hidle := idle_heartbeatLogic E s
  have hcancel : cancelLogic E (heartbeatLogic E s) =
      finishPass ({ heartbeatLogic E s with pendingCancel := [] }, []) := by
    unfold cancelLogic Session.cancelLogic
    rw [hidle.pendingCancel.trans h.pendingCancel]
    rfl
  have hmodify : modifyLogic E (cancelLogic E (heartbeatLogic E s)) =
      finishPass (cancelLogic E (heartbeatLogic E s), []) := by
    have hempty : (cancelLogic E (heartbeatLogic E s)).pendingModify = [] :=
      ((cancelLogic_frame E _).2.1.trans hidle.pendingModify).trans h.pendingModify
    unfold modifyLogic Session.modifyLogic
    rw [hempty]
    rfl
  have hreplace : beforeExecution E s =
      { finishPass (beforeReplace E s, []) with pendingReplace := [] } := by
    have hempty : (beforeReplace E s).pendingReplace = [] :=
      (((modifyLogic_frame E _).1.pendingReplace.trans (cancelLogic_frame E _).2.2.1).trans
        hidle.pendingReplace).trans h.pendingReplace
    unfold beforeExecution replaceLogic
    rw [hempty]
    rfl
  rw [viewAt_eq_iff, hreplace]
  unfold beforeReplace
  rw [hmodify, hcancel]
  generalize heartbeatLogic E s = s₁ at hidle ⊢
  exact ⟨congrArg (fun m : KeyedMap Key OuchOrder => m.lookup k) hidle.activeOrders,
    congrArg (fun m : KeyedMap Key OuchOrder => m.lookup k) hidle.finishedOrders, Iff.rfl,
    mentioning_of_idle hidle k⟩

/-- The passes before the last leave every order under its token. -/
theorem keyed_beforeExecution {s : OuchSession W} (h : Keyed s.activeOrders []) :
    Keyed (beforeExecution E s).activeOrders [] := by
  refine keyed_replaceLogic E (keyed_modifyLogic E (keyed_cancelLogic E ?_))
  rw [(idle_heartbeatLogic E s).activeOrders]
  exact h

/-- A tick queues no request. -/
theorem NothingPending.marketLogic {s : OuchSession W} (h : NothingPending s) :
    NothingPending (marketLogic E s) := by
  obtain ⟨hc, hm, hr⟩ := marketLogic_queues E s
  exact ⟨keyed_step E h.keyed .marketLogic, hc, hm.trans h.pendingModify, hr⟩

/-- With nothing pending, the passes before the last leave the book as it is. -/
theorem mem_beforeExecution {s : OuchSession W} (h : NothingPending s) {k : Key} :
    k ∈ (beforeExecution E s).activeOrders ↔ k ∈ s.activeOrders := by
  have hact : (beforeExecution E s).activeOrders.lookup k = s.activeOrders.lookup k :=
    (viewAt_eq_iff.mp (viewAt_beforeExecution E h k)).1
  rw [KeyedMap.mem_iff_lookup, KeyedMap.mem_iff_lookup, hact]

/-- A quiet tick does to an active order what one visit does. -/
theorem marketLogic_at {s : OuchSession W} (h : NothingPending s) {k : Key}
    (hmem : k ∈ s.activeOrders) :
    ∃ st : Pass W, viewAt about k st = viewAt about k (s, []) ∧
      viewAt about k (OuchSession.marketLogic E s, []) =
        viewAt about k (finishPass (executionStep E st k), []) := by
  obtain ⟨st, hst, hrun⟩ := executionLogic_at E (keyed_beforeExecution E h.keyed)
    ((mem_beforeExecution E h).mpr hmem)
  exact ⟨st, hst.trans (viewAt_beforeExecution E h k), hrun⟩

/-- A quiet tick does nothing under a key that is not active. -/
theorem marketLogic_at_of_notMem {s : OuchSession W} (h : NothingPending s) {k : Key}
    (hmem : k ∉ s.activeOrders) :
    viewAt about k (OuchSession.marketLogic E s, []) = viewAt about k (s, []) :=
  (executionLogic_at_of_notMem E (keyed_beforeExecution E h.keyed)
    fun hin => hmem ((mem_beforeExecution E h).mp hin)).trans (viewAt_beforeExecution E h k)

/-! ## Filling up -/

/-- A message about another order reports no shares of `t`. -/
theorem executedShares_of_about {t : Token} (m : Ouch.OutMsg) (habout : about m ≠ some t.str) :
    executedShares t m = 0 := by
  cases m with
  | executed m =>
    refine executedShares_of_ne fun h => habout ?_
    rw [← h]
    rfl
  | _ => rfl

/-- The order of `t` is active with at most `left` of its `q` shares remaining; the others have been
reported, on top of `base`. -/
structure Filling (t : Token) (q left base : ℕ) (o : OuchOrder) (s : OuchSession W) : Prop where
  active : s.activeOrders.lookup t.str = some o
  token : o.token = t
  undisturbed : Undisturbed o
  nonneg : 0 ≤ o.remainingQty
  left : o.remainingQty ≤ left
  fits : o.remainingQty < 2 ^ 32
  total : o.executedQty + o.remainingQty = q
  reported : (weight (executedShares t) s.pendingOutMessages : ℤ) = base + o.executedQty

/-- The order of `t` is finished, and its `q` shares have been reported, on top of `base`. -/
abbrev Filled (t : Token) (q base : ℕ) (s : OuchSession W) : Prop :=
  Session.Filled OuchOrder.toOrder (executedShares t) t.str q base s

variable {t : Token} {q left base : ℕ}

/-- A quiet tick fills at least a hundred shares, or what remains. -/
theorem filling_marketLogic {s : OuchSession W} (hgate : ∀ w, (E.gate .execution w).1 = true)
    (hq : NothingPending s) (h : Filling t q left base o s) (hpos : 0 < o.remainingQty) :
    ∃ o', Filling t q (left - 100) base o' (marketLogic E s) := by
  obtain ⟨st, hst, hrun⟩ := marketLogic_at E hq (KeyedMap.mem_of_lookup h.active)
  obtain ⟨hact, -, hdone, -⟩ := viewAt_eq_iff.mp hst
  obtain ⟨exe, w, m, hlot, hle, htoken, hqty, hs⟩ :=
    executionStep_fills E h.undisturbed (hact.trans h.active) (hgate _) hpos
  have hnonneg := h.nonneg
  have hleft := h.left
  have hfits := h.fits
  have htotal := h.total
  have hexe : ((UInt32.ofInt exe).toNat : ℤ) = exe := toNat_ofInt (by omega) (by omega)
  have hone : weight (executedShares t) [.executed m] = (UInt32.ofInt exe).toNat := by
    show (executedShares t (.executed m) + 0 : ℕ) = _
    rw [executedShares, if_pos (htoken.trans h.token), hqty, Nat.add_zero]
  have hreport : weight (executedShares t) (marketLogic E s).pendingOutMessages =
      weight (executedShares t) s.pendingOutMessages + (UInt32.ofInt exe).toNat := by
    rw [← hone]
    exact weight_of_visit executedShares_of_about hst hrun (by rw [hs]; rfl)
  refine ⟨{ o with
    remainingQty := o.remainingQty - exe
    executedQty := o.executedQty + exe }, ?_, h.token,
    ⟨h.undisturbed.1, h.undisturbed.2, h.undisturbed.3, h.undisturbed.4⟩, ?_, ?_, ?_, ?_, ?_⟩
  · refine (viewAt_eq_iff.mp hrun).1.trans ?_
    show (finishPass (executionStep E st t.str)).activeOrders.lookup t.str = _
    rw [hs]
    exact lookup_finishPass_of_some (fun hin => List.not_mem_nil (hdone.mp hin)) (AList.lookup_insert _)
  · show 0 ≤ o.remainingQty - exe
    omega
  · show o.remainingQty - exe ≤ ((left - 100 : ℕ) : ℤ)
    omega
  · show o.remainingQty - exe < 2 ^ 32
    omega
  · show o.executedQty + exe + (o.remainingQty - exe) = q
    omega
  · show (weight (executedShares t) (marketLogic E s).pendingOutMessages : ℤ) = base + (o.executedQty + exe)
    have hbefore := h.reported
    rw [hreport]
    push_cast
    omega

/-- A quiet tick finishes an order of which nothing remains. -/
theorem filled_of_filling {s : OuchSession W} (hgate : ∀ w, (E.gate .execution w).1 = true)
    (hq : NothingPending s) (h : Filling t q left base o s) (hzero : o.remainingQty = 0) :
    Filled t q base (marketLogic E s) := by
  -- nothing remains, so the visit finishes the order
  obtain ⟨st, hst, hrun⟩ := marketLogic_at E hq (KeyedMap.mem_of_lookup h.active)
  obtain ⟨hact, -, -, -⟩ := viewAt_eq_iff.mp hst
  obtain ⟨w, hs⟩ := executionStep_finishes E h.undisturbed (hact.trans h.active) (hgate _) hzero
  have htotal := h.total
  have hreported := h.reported
  have hexe : o.executedQty = q := by omega
  refine Filled.of_visit executedShares_of_about hst hrun (o := { o with state := .dead }) (by omega)
    ?_ ?_ ?_ hexe hzero
  · rw [hs]
    rfl
  · rw [hs]
    exact List.mem_append_right _ List.mem_cons_self
  · rw [hs]
    exact AList.lookup_insert _

/-- A finished order stays so. -/
theorem filled_marketLogic {s : OuchSession W} (hq : NothingPending s) (h : Filled t q base s) :
    Filled t q base (marketLogic E s) :=
  h.of_viewAt executedShares_of_about
    (marketLogic_at_of_notMem E hq (KeyedMap.lookup_eq_none.mp h.active))

/-- Once a hundred shares a tick are enough, the order is finished one tick later. -/
theorem filled_ticks {s : OuchSession W} (hgate : ∀ w, (E.gate .execution w).1 = true)
    (hq : NothingPending s) (h : Filling t q q base o s) {n : ℕ} (hn : (q + 99) / 100 + 1 ≤ n) :
    Filled t q base ((marketLogic E)^[n] s) := by
  refine iterate_drains (c := 100) (I := NothingPending)
    (A := fun left s => ∃ o, Filling t q left base o s) (B := Filled t q base) (by decide)
    (fun s hs => hs.marketLogic E) ?_ ?_
    (fun s hs => filled_marketLogic E hs) hq ⟨o, h⟩ hn
  · rintro s left hs ⟨o, ho⟩
    rcases ho.nonneg.eq_or_lt with hzero | hpos
    · exact .inr (filled_of_filling E hgate hs ho hzero.symm)
    · exact .inl (filling_marketLogic E hgate hs ho hpos)
  · rintro s hs ⟨o, ho⟩
    have hleft := ho.left
    have hnonneg := ho.nonneg
    exact filled_of_filling E hgate hs ho (by omega)

/-- Ticks take no message back. -/
theorem emits_ticks (s : OuchSession W) (n : ℕ) :
    Appends (fun _ => True) s.pendingOutMessages ((marketLogic E)^[n] s).pendingOutMessages :=
  appends_iterate (fun s => (emits_marketLogic E s).imp fun _ _ => trivial) s n

/-- Between `s` and `s'` exactly `q` shares of `t` are reported, and the order of `t` is finished with
all of them executed. -/
abbrev FilledUp (t : Token) (q : ℕ) (s s' : OuchSession W) : Prop :=
  Session.FilledUp OuchOrder.toOrder (executedShares t) t.str q s s'

/-- **An undisturbed order fills up.** A freshly accepted order until market close or until the end of
the day, without a least execution, is finished after as many quiet ticks as it has hundreds of shares
and one more, and exactly its shares are reported. -/
theorem fillsUp {s : OuchSession W} (hgate : ∀ w, (E.gate .execution w).1 = true)
    (hs : NothingPending s) {eo : EnterOrder} {d : OuchOrder}
    (ho : s.activeOrders.lookup eo.token.str = some (OuchOrder.parseOrder d eo))
    (hmin : eo.minQty = 0)
    (htif : eo.timeInForce = TimeInForce.market ∨ eo.timeInForce = TimeInForce.system) {n : ℕ}
    (hn : (eo.qty.toNat + 99) / 100 + 1 ≤ n) :
    FilledUp eo.token eo.qty.toNat s ((marketLogic E)^[n] s) := by
  have hundisturbed : Undisturbed (OuchOrder.parseOrder d eo) := by
    refine ⟨htif, ?_, hmin, OrderState.noConfusion⟩
    show ¬ eo.timeInForce.toInt32 ≤ 0
    rcases htif with htif | htif <;> rw [htif] <;> decide
  have hfilling : Filling eo.token eo.qty.toNat eo.qty.toNat
      (weight (executedShares eo.token) s.pendingOutMessages) (OuchOrder.parseOrder d eo) s := by
    refine ⟨ho, rfl, hundisturbed, Int.natCast_nonneg _, le_refl _, ?_, Int.zero_add _,
      (Int.add_zero _).symm⟩
    show (eo.qty.toNat : ℤ) < 2 ^ 32
    exact_mod_cast eo.qty.toNat_lt
  exact (filled_ticks E hgate hs hfilling hn).filledUp (emits_ticks E s n)

end OuchSession

end Evtsim
