import Evtsim.Boe.Dead
import Evtsim.Boe.Emission
import Evtsim.Ouch.Filling

/-!
# The execution pass of a `boe_session`, order by order

As for `ouch_session`. An order of a `boe_session` does not run out of time, so a pass leaves it alone,
fills it or finishes it.
-/

namespace Evtsim

open Wire Boe Log Machine Session

namespace BoeSession

variable {W : Type} (E : Env W)

/-! ## One order in a pass -/

/-- Each order is held under its own token. -/
def KeysAgree (m : KeyedMap Key BoeOrder) : Prop := ∀ k o, m.lookup k = some o → k = o.token.str

/-- An order that keeps its token may change under it. -/
theorem KeysAgree.update {m : KeyedMap Key BoeOrder} (h : KeysAgree m) {k : Key} {o o' : BoeOrder}
    (ho : m.lookup k = some o) (htoken : o'.token = o.token) : KeysAgree (m.insert k o') := by
  intro k' x hx
  rw [KeyedMap.lookup_insert] at hx
  split at hx
  · rename_i hk
    cases hx
    rw [hk, htoken]
    exact h k o ho
  · exact h k' x hx

/-- A visit keeps every order under its token. -/
theorem keysAgree_executionStep {st : Pass W} (h : KeysAgree st.1.activeOrders) (k : Key) :
    KeysAgree (executionStep E st k).1.activeOrders := by
  rcases executionStep_cases E st k with ⟨-, hs⟩ | ⟨o, ho, w, ⟨-, hs⟩ | ⟨-, -, hs |
    ⟨exe, m, -, -, -, -, -, hs⟩⟩ | ⟨-, -, hs⟩⟩ <;> rw [hs]
  · exact h
  · exact h
  · exact h
  · exact h.update ho rfl
  · exact h

/-- At the end of a pass every order is under its token. -/
theorem KeysAgree.finishPass {st : Pass W} (h : KeysAgree st.1.activeOrders) :
    KeysAgree (finishPass st).activeOrders := by
  intro k o ho
  exact h k o (lookup_finishPass_eq_some.mp ho).2

/-- An execution pass keeps every order under its token. -/
theorem keysAgree_executionLogic {s : BoeSession W} (h : KeysAgree s.activeOrders) :
    KeysAgree (executionLogic E s).activeOrders :=
  KeysAgree.finishPass (run_invariant (f := executionStep E)
    (I := fun st : Pass W => KeysAgree st.1.activeOrders) (fun _ k h => keysAgree_executionStep E h k)
    (s := ({ s with env := (E.visit s.activeOrders.keys s.env).2 }, [])) h _)

/-- A visit shows nothing under other keys. -/
theorem viewAt_executionStep {st : Pass W} {k k' : Key} (hk : KeysAgree st.1.activeOrders)
    (hne : k' ≠ k) : viewAt about k (executionStep E st k') = viewAt about k st := by
  rw [viewAt_eq_iff]
  rcases executionStep_cases E st k' with ⟨-, hs⟩ | ⟨o, ho, w, ⟨-, hs⟩ | ⟨-, -, hs |
    ⟨exe, m, -, -, hm, -, -, hs⟩⟩ | ⟨-, -, hs⟩⟩ <;> rw [hs]
  · exact ⟨rfl, rfl, Iff.rfl, rfl⟩
  · exact ⟨rfl, rfl, Iff.rfl, rfl⟩
  · exact ⟨rfl, rfl, Iff.rfl, rfl⟩
  · refine ⟨AList.lookup_insert_ne hne.symm, rfl, Iff.rfl, mentioning_concat_of_ne (fun heq => hne ?_) _⟩
    have habout : m.token.str = k := Option.some.inj heq
    rw [hm] at habout
    exact (hk k' o ho).trans habout
  · exact ⟨rfl, AList.lookup_insert_ne hne.symm, KeyedMap.mem_append_of_ne hne, rfl⟩

/-- An execution pass does to an active order what one visit does. -/
theorem executionLogic_at {s : BoeSession W} (hk : KeysAgree s.activeOrders) {k : Key}
    (hmem : k ∈ s.activeOrders) :
    ∃ st : Pass W, viewAt about k st = viewAt about k (s, []) ∧
      viewAt about k (executionLogic E s, []) =
        viewAt about k (finishPass (executionStep E st k), []) :=
  Session.executionLogic_at E (I := KeysAgree) (fun _ k h => keysAgree_executionStep E h k)
    (fun _ _ _ h hne => viewAt_executionStep E h hne) hk hmem

/-- Nothing happens under a key that is not active. -/
theorem executionLogic_at_of_notMem {s : BoeSession W} (hk : KeysAgree s.activeOrders) {k : Key}
    (hmem : k ∉ s.activeOrders) : viewAt about k (executionLogic E s, []) = viewAt about k (s, []) :=
  Session.executionLogic_at_of_notMem E (I := KeysAgree) (fun _ k h => keysAgree_executionStep E h k)
    (fun _ _ _ h hne => viewAt_executionStep E h hne) hk hmem

/-! ## The fate of an order -/

/-- What an execution pass makes of an active order `o`, when `fin` is finished under its key before:
the orders under its key afterwards, and the messages about it. -/
inductive Fate (o : BoeOrder) (fin : Option BoeOrder) (act' fin' : Option BoeOrder)
    (ms : List Boe.OutMsg) : Prop
  | stays (hact : act' = some o) (hfin : fin' = fin) (hms : ms = [])
  | filled (o' : BoeOrder) (m : OrderExecution) (hact : act' = some o') (hfin : fin' = fin)
    (hms : ms = [.orderExecution m]) (hfill : FillOf m.lastShares.toNat o.toOrder o'.toOrder)
    (hleaves : (m.leavesQty.toNat : ℤ) = o'.remainingQty)
  | finished (hact : act' = none) (hfin : fin' = some o) (hms : ms = [])

section

variable {st : Pass W} {k : Key} {o : BoeOrder}

/-- At a closed gate a visit only uses the environment. -/
theorem executionStep_of_closed (ho : st.1.activeOrders.lookup k = some o)
    (hgate : (E.gate .execution st.1.env).1 = false) :
    executionStep E st k = (st.1.inEnv (E.gate .execution st.1.env).2, st.2) := by
  unfold executionStep
  rw [ho]
  dsimp only
  rw [hgate]
  rfl

variable (ho : st.1.activeOrders.lookup k = some o) (hgate : (E.gate .execution st.1.env).1 = true)

include ho hgate

/-- At an open gate an active order is filled. -/
theorem executionStep_of_active (hactive : o.stillActive = true) :
    executionStep E st k = (constructOrderExecuted E
      (st.1.inEnv (E.executionQty (E.gate .execution st.1.env).2).2) k o
      (E.executionQty (E.gate .execution st.1.env).2).1, st.2) := by
  unfold executionStep
  rw [ho]
  dsimp only
  rw [hgate, hactive]
  rfl

/-- At an open gate an order that is not active is finished. -/
theorem executionStep_of_inactive (hactive : o.stillActive = false) :
    executionStep E st k =
      (finish E.boeOrder (st.1.inEnv (E.gate .execution st.1.env).2) k o, st.2 ++ [k]) := by
  unfold executionStep
  rw [ho]
  dsimp only
  rw [hgate, hactive]
  rfl

end

/-- What a visit makes of an order. -/
theorem fate_visit {st : Pass W} {k : Key} {o : BoeOrder} (ho : st.1.activeOrders.lookup k = some o)
    (hk : o.token.str = k) (hdone : k ∉ st.2) :
    ∃ ms, mentioning about k (executionStep E st k).1.pendingOutMessages =
        mentioning about k st.1.pendingOutMessages ++ ms ∧
      Fate o (st.1.finishedOrders.lookup k)
        ((finishPass (executionStep E st k)).activeOrders.lookup k)
        ((executionStep E st k).1.finishedOrders.lookup k) ms := by
  rcases hgate : (E.gate .execution st.1.env).1 with _ | _
  · -- the gate is closed
    have hs := executionStep_of_closed E ho hgate
    refine ⟨[], ?_, .stays ?_ ?_ rfl⟩ <;> rw [hs]
    · exact (List.append_nil _).symm
    · exact (lookup_finishPass_of_notMem hdone).trans ho
    · rfl
  rcases hactive : o.stillActive with _ | _
  · -- moved to the finished orders
    have hs := executionStep_of_inactive E ho hgate hactive
    refine ⟨[], ?_, .finished ?_ ?_ rfl⟩ <;> rw [hs]
    · exact (List.append_nil _).symm
    · exact lookup_finishPass_of_mem (List.mem_append_right _ List.mem_cons_self)
    · exact AList.lookup_insert _
  have hs := executionStep_of_active E ho hgate hactive
  obtain ⟨hpos, hle⟩ := BoeOrder.stillActive_iff.mp hactive
  by_cases hnone : (E.executionQty (E.gate .execution st.1.env).2).1 = 0
  · -- nothing is to be executed
    rw [hnone] at hs
    refine ⟨[], ?_, .stays ?_ ?_ rfl⟩ <;> rw [hs]
    · exact (List.append_nil _).symm
    · exact (lookup_finishPass_of_notMem hdone).trans ho
    · rfl
  · -- filled
    obtain ⟨exe, w, m, h0, hexe, -, hm, -, hfill⟩ := constructOrderExecuted_fills E
      (st.1.inEnv (E.executionQty (E.gate .execution st.1.env).2).2) k hpos hnone
    rw [hfill] at hs
    have habout : about (.orderExecution m) = some k :=
      congrArg some ((congrArg TokenOf.str hm.token).trans hk)
    refine ⟨[.orderExecution m], ?_, .filled { o with
      remainingQty := o.remainingQty - exe
      executedQty := o.executedQty + exe } m ?_ ?_ rfl ?_ ?_⟩
    · rw [hs]
      exact mentioning_concat_of_eq habout _
    · rw [hs]
      exact lookup_finishPass_eq_some.mpr ⟨hdone, AList.lookup_insert _⟩
    · rw [hs]
      rfl
    · rw [hm.lastShares]
      exact fillOf_min h0 hexe (by omega) rfl rfl
    · rw [hm.leavesQty]
      show _ = o.remainingQty - exe
      exact toNat_ofInt (by omega) (by omega)

/-- **An execution pass** gives every active order one of the three fates. -/
theorem fate {s : BoeSession W} (hk : KeysAgree s.activeOrders) {k : Key} {o : BoeOrder}
    (ho : s.activeOrders.lookup k = some o) :
    Fate o (s.finishedOrders.lookup k) ((executionLogic E s).activeOrders.lookup k)
      ((executionLogic E s).finishedOrders.lookup k)
      (mentioning about k (added s.pendingOutMessages (executionLogic E s).pendingOutMessages)) := by
  obtain ⟨st, hsame, hrun⟩ := executionLogic_at E hk (KeyedMap.mem_of_lookup ho)
  obtain ⟨hact, hfin, hdone, hout⟩ := viewAt_eq_iff.mp hsame
  obtain ⟨hact', hfin', -, hout'⟩ := viewAt_eq_iff.mp hrun
  obtain ⟨ms, hms, hfate⟩ := fate_visit E (hact.trans ho) (hk k o ho).symm
    (fun h => List.not_mem_nil (hdone.mp h))
  have hall : mentioning about k (executionLogic E s).pendingOutMessages =
      mentioning about k s.pendingOutMessages ++ ms := by
    rw [← hout]
    exact hout'.trans hms
  have hend : (executionLogic E s).activeOrders.lookup k =
      (finishPass (executionStep E st k)).activeOrders.lookup k := hact'
  have hfinished : (executionLogic E s).finishedOrders.lookup k =
      (executionStep E st k).1.finishedOrders.lookup k := hfin'
  have hbefore : st.1.finishedOrders.lookup k = s.finishedOrders.lookup k := hfin
  rw [(emits_executionLogic E s).mentioning_added hall, hend, hfinished, ← hbefore]
  exact hfate

/-- Nothing is made of a key under which nothing is active. -/
theorem executionLogic_elsewhere {s : BoeSession W} (hk : KeysAgree s.activeOrders) {k : Key}
    (hmem : k ∉ s.activeOrders) :
    k ∉ (executionLogic E s).activeOrders ∧
      (executionLogic E s).finishedOrders.lookup k = s.finishedOrders.lookup k ∧
      mentioning about k (added s.pendingOutMessages (executionLogic E s).pendingOutMessages) = [] := by
  obtain ⟨-, hfin, -, hout⟩ := viewAt_eq_iff.mp (executionLogic_at_of_notMem E hk hmem)
  exact ⟨executionLogic_absent E hmem, hfin,
    (emits_executionLogic E s).mentioning_added (hout.trans (List.append_nil _).symm)⟩

/-- Between `s` and `s'` shares move: every active order has one of the three fates, and nothing else
happens. -/
abbrev MovesShares (s s' : BoeSession W) : Prop := Session.MovesShares about Fate s s'

/-! ## A quiet tick -/

/-- The orders are held under their tokens, and no request is pending. -/
structure NothingPending (s : BoeSession W) : Prop where
  keyed : KeysAgree s.activeOrders
  pendingCancel : s.pendingCancel = []
  pendingModify : s.pendingModify = []

/-- Steps that concern no order mention none. -/
theorem mentioning_of_idle {s s' : BoeSession W} (h : Idle s s') (k : Key) :
    mentioning about k s'.pendingOutMessages = mentioning about k s.pendingOutMessages := by
  have hgrow : Appends (fun m => isSequenced m = false) s.pendingOutMessages s'.pendingOutMessages :=
    h.out
  apply hgrow.mentioning
  intro m hm
  rw [about_of_not_sequenced hm]
  exact (Option.some_ne_none k).symm

/-- With nothing pending, the passes before the last show nothing. -/
theorem viewAt_beforeExecution {s : BoeSession W} (h : NothingPending s) (k : Key) :
    viewAt about k (modifyLogic E (modifyStart E s).1, []) = viewAt about k (s, []) := by
  have hidle := idle_heartbeatLogic E s
  have hcancel : (modifyStart E s).1 =
      finishPass ({ heartbeatLogic E s with pendingCancel := [] }, []) := by
    show cancelLogic E (heartbeatLogic E s) = _
    unfold cancelLogic Session.cancelLogic
    rw [hidle.pendingCancel.trans h.pendingCancel]
    rfl
  have hmodify : modifyLogic E (modifyStart E s).1 = finishPass ((modifyStart E s).1, []) := by
    unfold modifyLogic Session.modifyLogic
    rw [(pendingModify_modifyStart E s).trans h.pendingModify]
    rfl
  rw [viewAt_eq_iff, hmodify, hcancel]
  exact ⟨congrArg (fun m : KeyedMap Key BoeOrder => m.lookup k) hidle.activeOrders,
    congrArg (fun m : KeyedMap Key BoeOrder => m.lookup k) hidle.finishedOrders, Iff.rfl,
    mentioning_of_idle hidle k⟩

/-- With nothing pending, the passes before the last leave the book as it is. -/
theorem lookup_beforeExecution {s : BoeSession W} (h : NothingPending s) (k : Key) :
    (modifyLogic E (modifyStart E s).1).activeOrders.lookup k = s.activeOrders.lookup k :=
  (viewAt_eq_iff.mp (viewAt_beforeExecution E h k)).1

/-- With nothing pending, the passes before the last leave every order under its token. -/
theorem keysAgree_beforeExecution {s : BoeSession W} (h : NothingPending s) :
    KeysAgree (modifyLogic E (modifyStart E s).1).activeOrders := by
  intro k o ho
  rw [lookup_beforeExecution E h] at ho
  exact h.keyed k o ho

/-- A tick queues no request. -/
theorem NothingPending.marketLogic {s : BoeSession W} (h : NothingPending s) :
    NothingPending (marketLogic E s) := by
  obtain ⟨hc, hm⟩ := marketLogic_queues E s
  exact ⟨keysAgree_executionLogic E (keysAgree_beforeExecution E h), hc, hm.trans h.pendingModify⟩

/-- A quiet tick does to an active order what one visit does. -/
theorem marketLogic_at {s : BoeSession W} (h : NothingPending s) {k : Key} (hmem : k ∈ s.activeOrders) :
    ∃ st : Pass W, viewAt about k st = viewAt about k (s, []) ∧
      viewAt about k (BoeSession.marketLogic E s, []) =
        viewAt about k (finishPass (executionStep E st k), []) := by
  have hin : k ∈ (modifyLogic E (modifyStart E s).1).activeOrders := by
    rw [KeyedMap.mem_iff_lookup, lookup_beforeExecution E h]
    exact KeyedMap.mem_iff_lookup.mp hmem
  obtain ⟨st, hst, hrun⟩ := executionLogic_at E (keysAgree_beforeExecution E h) hin
  exact ⟨st, hst.trans (viewAt_beforeExecution E h k), hrun⟩

/-- A quiet tick does nothing under a key that is not active. -/
theorem marketLogic_at_of_notMem {s : BoeSession W} (h : NothingPending s) {k : Key}
    (hmem : k ∉ s.activeOrders) :
    viewAt about k (BoeSession.marketLogic E s, []) = viewAt about k (s, []) := by
  have hout : k ∉ (modifyLogic E (modifyStart E s).1).activeOrders := by
    rw [← KeyedMap.lookup_eq_none, lookup_beforeExecution E h]
    exact KeyedMap.lookup_eq_none.mpr hmem
  exact (executionLogic_at_of_notMem E (keysAgree_beforeExecution E h) hout).trans
    (viewAt_beforeExecution E h k)

/-! ## Filling up -/

/-- The shares of `t` that a message reports as executed. -/
def executedShares (t : Token) : Boe.OutMsg → ℕ
  | .orderExecution m => if m.token = t then m.lastShares.toNat else 0
  | _ => 0

/-- A message about another order reports no shares of `t`. -/
theorem executedShares_of_about {t : Token} (m : Boe.OutMsg) (habout : about m ≠ some t.str) :
    executedShares t m = 0 := by
  cases m with
  | orderExecution m =>
    refine if_neg fun h => habout ?_
    rw [← h]
    rfl
  | _ => rfl

/-- The order of `t` is active with at most `left` of its `q` shares remaining; the others have been
reported, on top of `base`. -/
structure Filling (t : Token) (q left base : ℕ) (o : BoeOrder) (s : BoeSession W) : Prop where
  active : s.activeOrders.lookup t.str = some o
  token : o.token = t
  nonneg : 0 ≤ o.remainingQty
  left : o.remainingQty ≤ left
  bound : o.remainingQty ≤ 1000000
  total : o.executedQty + o.remainingQty = q
  reported : (weight (executedShares t) s.pendingOutMessages : ℤ) = base + o.executedQty

/-- The order of `t` is finished, and its `q` shares have been reported, on top of `base`. -/
abbrev Filled (t : Token) (q base : ℕ) (s : BoeSession W) : Prop :=
  Session.Filled BoeOrder.toOrder (executedShares t) t.str q base s

variable {t : Token} {q left base : ℕ} {o : BoeOrder}

/-- A quiet tick fills at least a hundred shares, or what remains. -/
theorem filling_marketLogic {s : BoeSession W} (hgate : ∀ w, (E.gate .execution w).1 = true)
    (hqty : ∀ w, (E.executionQty w).1 = -1) (hq : NothingPending s) (h : Filling t q left base o s)
    (hpos : 0 < o.remainingQty) : ∃ o', Filling t q (left - 100) base o' (marketLogic E s) := by
  -- the tick looks like one visit to the order, which is filled with at least a round lot
  obtain ⟨st, hst, hrun⟩ := marketLogic_at E hq (KeyedMap.mem_of_lookup h.active)
  obtain ⟨hact, -, hdone, -⟩ := viewAt_eq_iff.mp hst
  have hnonneg := h.nonneg
  have hleft := h.left
  have hbound := h.bound
  have htotal := h.total
  have hs := executionStep_of_active E (hact.trans h.active) (hgate _)
    (BoeOrder.stillActive_iff.mpr ⟨hpos, hbound⟩)
  obtain ⟨exe, w, m, h0, hle, hlot, hm, -, hfill⟩ := constructOrderExecuted_fills E
    (st.1.inEnv (E.executionQty (E.gate .execution st.1.env).2).2) t.str hpos
    (n := (E.executionQty (E.gate .execution st.1.env).2).1) (by rw [hqty]; decide)
  rw [hfill] at hs
  have hlot : min 100 o.remainingQty ≤ exe := hlot (by rw [hqty]; decide)
  have hexe : ((UInt32.ofInt exe).toNat : ℤ) = exe := toNat_ofInt (by omega) (by omega)
  -- before and behind the visit nothing is reported of the order
  have hone : weight (executedShares t) [.orderExecution m] = (UInt32.ofInt exe).toNat := by
    show (executedShares t (.orderExecution m) + 0 : ℕ) = _
    rw [executedShares, if_pos (hm.token.trans h.token), hm.lastShares, Nat.add_zero]
  have hreport : weight (executedShares t) (marketLogic E s).pendingOutMessages =
      weight (executedShares t) s.pendingOutMessages + (UInt32.ofInt exe).toNat := by
    rw [← hone]
    exact weight_of_visit executedShares_of_about hst hrun (by rw [hs]; rfl)
  refine ⟨{ o with
    remainingQty := o.remainingQty - exe
    executedQty := o.executedQty + exe }, ?_, h.token, ?_, ?_, ?_, ?_, ?_⟩
  · refine (viewAt_eq_iff.mp hrun).1.trans ?_
    show (finishPass (executionStep E st t.str)).activeOrders.lookup t.str = _
    rw [hs]
    exact lookup_finishPass_eq_some.mpr
      ⟨fun hin => List.not_mem_nil (hdone.mp hin), AList.lookup_insert _⟩
  · show 0 ≤ o.remainingQty - exe
    omega
  · show o.remainingQty - exe ≤ ((left - 100 : ℕ) : ℤ)
    omega
  · show o.remainingQty - exe ≤ 1000000
    omega
  · show o.executedQty + exe + (o.remainingQty - exe) = q
    omega
  · show (weight (executedShares t) (marketLogic E s).pendingOutMessages : ℤ) = base + (o.executedQty + exe)
    have hbefore := h.reported
    rw [hreport]
    push_cast
    omega

/-- A quiet tick finishes an order of which nothing remains. -/
theorem filled_of_filling {s : BoeSession W} (hgate : ∀ w, (E.gate .execution w).1 = true)
    (hq : NothingPending s) (h : Filling t q left base o s) (hzero : o.remainingQty = 0) :
    Filled t q base (marketLogic E s) := by
  obtain ⟨st, hst, hrun⟩ := marketLogic_at E hq (KeyedMap.mem_of_lookup h.active)
  obtain ⟨hact, -, -, -⟩ := viewAt_eq_iff.mp hst
  -- nothing remains, so the visit finishes the order
  have hinactive : o.stillActive = false := by
    rw [Bool.eq_false_iff]
    intro hactive
    have hpos := (BoeOrder.stillActive_iff.mp hactive).1
    omega
  have hs := executionStep_of_inactive E (hact.trans h.active) (hgate _) hinactive
  have htotal := h.total
  have hreported := h.reported
  have hexe : o.executedQty = q := by omega
  refine Filled.of_visit executedShares_of_about hst hrun (o := o) (by omega) ?_ ?_ ?_ hexe hzero
  · rw [hs]
    rfl
  · rw [hs]
    exact List.mem_append_right _ List.mem_cons_self
  · rw [hs]
    exact AList.lookup_insert _

/-- A finished order stays so. -/
theorem filled_marketLogic {s : BoeSession W} (hq : NothingPending s) (h : Filled t q base s) :
    Filled t q base (marketLogic E s) :=
  h.of_viewAt executedShares_of_about
    (marketLogic_at_of_notMem E hq (KeyedMap.lookup_eq_none.mp h.active))

/-- Once a hundred shares a tick are enough, the order is finished one tick later. -/
theorem filled_ticks {s : BoeSession W} (hgate : ∀ w, (E.gate .execution w).1 = true)
    (hqty : ∀ w, (E.executionQty w).1 = -1) (hq : NothingPending s) (h : Filling t q q base o s)
    {n : ℕ} (hn : (q + 99) / 100 + 1 ≤ n) : Filled t q base ((marketLogic E)^[n] s) := by
  refine iterate_drains (c := 100) (I := NothingPending)
    (A := fun left s => ∃ o, Filling t q left base o s) (B := Filled t q base) (by decide)
    (fun s hs => hs.marketLogic E) ?_ ?_
    (fun s hs => filled_marketLogic E hs) hq ⟨o, h⟩ hn
  · rintro s left hs ⟨o, ho⟩
    rcases ho.nonneg.eq_or_lt with hzero | hpos
    · exact .inr (filled_of_filling E hgate hs ho hzero.symm)
    · exact .inl (filling_marketLogic E hgate hqty hs ho hpos)
  · rintro s hs ⟨o, ho⟩
    have hleft := ho.left
    have hnonneg := ho.nonneg
    exact filled_of_filling E hgate hs ho (by omega)

/-- Ticks take no message back. -/
theorem emits_ticks (s : BoeSession W) (n : ℕ) :
    Appends (fun _ => True) s.pendingOutMessages ((marketLogic E)^[n] s).pendingOutMessages :=
  appends_iterate (fun s => (emits_marketLogic E s).imp fun _ _ => trivial) s n

/-- Between `s` and `s'` exactly `q` shares of `t` are reported, and the order of `t` is finished with
all of them executed. -/
abbrev FilledUp (t : Token) (q : ℕ) (s s' : BoeSession W) : Prop :=
  Session.FilledUp BoeOrder.toOrder (executedShares t) t.str q s s'

/-- **An undisturbed order fills up.** A freshly accepted order of a million shares at most is finished
after as many quiet ticks as it has hundreds of shares and one more, and exactly its shares are
reported. -/
theorem fillsUp {s : BoeSession W} (hgate : ∀ w, (E.gate .execution w).1 = true)
    (hqty : ∀ w, (E.executionQty w).1 = -1) (hs : NothingPending s) {no : NewOrder} {d : BoeOrder}
    (ho : s.activeOrders.lookup no.token.str = some (BoeOrder.parseOrder d no))
    (hbound : no.qty.toNat ≤ 1000000) {n : ℕ} (hn : (no.qty.toNat + 99) / 100 + 1 ≤ n) :
    FilledUp no.token no.qty.toNat s ((marketLogic E)^[n] s) := by
  have hfilling : Filling no.token no.qty.toNat no.qty.toNat
      (weight (executedShares no.token) s.pendingOutMessages) (BoeOrder.parseOrder d no) s := by
    refine ⟨ho, rfl, Int.natCast_nonneg _, le_refl _, ?_, Int.zero_add _, (Int.add_zero _).symm⟩
    show (no.qty.toNat : ℤ) ≤ 1000000
    exact_mod_cast hbound
  exact (filled_ticks E hgate hqty hs hfilling hn).filledUp (emits_ticks E s n)

end BoeSession

end Evtsim
